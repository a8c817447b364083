import Xv6.Memmove

/-!
# grep

`grep.c`: the matcher of regular expressions, and the loop that cuts its input into lines. A string is
the list of its bytes before the NUL. The buffer is read and written as in the source, with pointers into
it as indices; what `read` returns is given, one chunk for each call, until it returns 0.
-/

namespace Xv6.Grep

open ByteLayout

/-- The code of an ASCII character. -/
def ch (c : Char) : UInt8 := UInt8.ofNat c.toNat

/-! ## The matcher -/

mutual

/-- Search for `re` at the beginning of `text`. -/
def matchhere (re text : List UInt8) : Bool :=
  match re with
  | [] => true
  | [c] =>
    if c = ch '$' then text.isEmpty
    else
      match text with
      | t :: text => if c = ch '.' ∨ c = t then matchhere [] text else false
      | [] => false
  | c :: c' :: re =>
    if c' = ch '*' then matchstar c re text
    else
      match text with
      | t :: text => if c = ch '.' ∨ c = t then matchhere (c' :: re) text else false
      | [] => false
termination_by (re.length, text.length, 0)

/-- Search for `c*re` at the beginning of `text`. -/
def matchstar (c : UInt8) (re text : List UInt8) : Bool :=
  if matchhere re text then true
  else
    match text with
    | [] => false
    | t :: text => if t = c ∨ c = ch '.' then matchstar c re text else false
termination_by (re.length, text.length, 1)

end

/-- The loop of `match`. -/
def matchfrom (re : List UInt8) : List UInt8 → Bool
  | [] => matchhere re []
  | t :: text => if matchhere re (t :: text) then true else matchfrom re text

def «match» (re text : List UInt8) : Bool :=
  match re with
  | [] => matchfrom [] text
  | c :: re => if c = ch '^' then matchhere re text else matchfrom (c :: re) text

/-! ## Lines -/

/-- `sizeof(buf)`. -/
abbrev BUFSIZE : ℕ := 1024

/-- The string at `p`. -/
def cstring (buf : Bytes) (p : ℕ) : List UInt8 :=
  ((List.range (BUFSIZE - p)).map fun i => buf (p + i)).takeWhile (· ≠ 0)

/-- The first `c` of the string at `p`; `n` bytes of the buffer are left. -/
def strchr (buf : Bytes) (c : UInt8) : ℕ → ℕ → Option ℕ
  | 0, _ => none
  | n + 1, p =>
    if buf p = 0 then none
    else if buf p = c then some p
    else strchr buf c n (p + 1)

theorem strchr_bounds {buf : Bytes} {c : UInt8} {n p q : ℕ} (h : strchr buf c n p = some q) :
    p ≤ q ∧ q < p + n := by
  induction n generalizing p with
  | zero => cases h
  | succ n ih =>
    unfold strchr at h
    split_ifs at h with h₁ h₂
    · cases h
      omega
    · have := ih h
      omega

/-- The inner loop, from the line at `p` on: what it writes, the buffer that it leaves and the start of
the rest. -/
def printLines (pattern : List UInt8) (buf : Bytes) (p : ℕ) : List UInt8 × Bytes × ℕ :=
  match _h : strchr buf (ch '\n') (BUFSIZE - p) p with
  | none => ([], buf, p)
  | some q =>
    let buf := Function.update buf q 0
    if «match» pattern (cstring buf p) then
      let buf := Function.update buf q (ch '\n')
      let r := printLines pattern buf (q + 1)
      ((List.range (q + 1 - p)).map (fun i => buf (p + i)) ++ r.1, r.2)
    else printLines pattern buf (q + 1)
termination_by BUFSIZE - p
decreasing_by
  all_goals
    have := strchr_bounds _h
    omega

structure State where
  buf : Bytes
  m : ℕ
  out : List UInt8

/-- One round of the outer loop, when `read` has returned `chunk`. -/
def State.round (pattern : List UInt8) (s : State) (chunk : List UInt8) : State :=
  let buf := blit s.buf s.m chunk.length (fun i => chunk.getD i 0)
  let m := s.m + chunk.length
  let buf := Function.update buf m 0
  let (out, buf, p) := printLines pattern buf 0
  let m := if p = 0 then 0 else m
  if m > 0 then ⟨Ulib.memmove buf 0 p (m - p), m - p, s.out ++ out⟩
  else ⟨buf, m, s.out ++ out⟩

/-- `grep` on the contents that the buffer has from an earlier call. -/
def grep (pattern : List UInt8) (buf : Bytes) (chunks : List (List UInt8)) : List UInt8 :=
  (chunks.foldl (State.round pattern) ⟨buf, 0, []⟩).out

/-- Each chunk has at least one byte, and no more than `read` was asked for. -/
def Delivers (pattern : List UInt8) (s : State) : List (List UInt8) → Prop
  | [] => True
  | chunk :: chunks => 0 < chunk.length ∧ chunk.length ≤ BUFSIZE - s.m - 1 ∧
      Delivers pattern (s.round pattern chunk) chunks

end Xv6.Grep
