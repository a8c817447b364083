import Xv6.FileModel
import Xv6.MemoryModel

/-!
# The buffers of read and write

Which user addresses `sys_read` and `sys_write` touch. Addresses and lengths are 32-bit words; a length is
signed in `argptr`, `fileread`, `filewrite`, the pipe and the console, and unsigned in `readi` and
`writei`. What decides where a transfer ends (bytes in the pipe, characters typed, the offset and size of
a file at each chunk) is left open.
-/

namespace Xv6.UserBuffer

open Fs (maxWrite)

open List UInt32

/-- The word as a C `int`. -/
def int (w : UInt32) : ℤ := if w.toNat < 2 ^ 31 then w.toNat else w.toNat - 2 ^ 32

/-- `argptr` on the argument `i`, in a process of size `sz`. -/
def argptr (sz i size : UInt32) : Option UInt32 :=
  if i ≥ sz ∨ i + size > sz then none else some i

/-- The addresses of `m` bytes from `a` on. -/
def span (a : UInt32) (m : ℕ) : List UInt32 := (List.range m).map fun k => a + UInt32.ofNat k

/-! ## Pipes and the console -/

/-- `for(i = 0; i < n; i++)` with one access to `addr[i]` in each round, which ends early after `rounds`
rounds. -/
def byteLoop (addr n : UInt32) (i : ℕ) : ℕ → List UInt32
  | 0 => []
  | rounds + 1 =>
    if (i : ℤ) < int n then (addr + UInt32.ofNat i) :: byteLoop addr n (i + 1) rounds else []

/-- `avail` bytes are in the pipe. -/
def piperead (addr n : UInt32) (avail : ℕ) : List UInt32 := byteLoop addr n 0 avail

/-- After `room` bytes the pipe has no reader or the process is killed. -/
def pipewrite (addr n : UInt32) (room : ℕ) : List UInt32 := byteLoop addr n 0 room

def consolewrite (buf n : UInt32) : List UInt32 := byteLoop buf n 0 n.toNat

/-- `input` is what is typed; behind its end the process is killed in its sleep. -/
def consoleread (dst n : UInt32) : (input : List UInt8) → List UInt32
  | [] => []
  | c :: input =>
    if int n > 0 then
      if c = 4 then []
      else if c = 10 then [dst]
      else dst :: consoleread (dst + 1) (n - 1) input
    else []

/-! ## Inodes -/

/-- The copy loop of `readi` and `writei` with `left` bytes to go. -/
def copyLoop (a off : UInt32) (left : ℕ) : List UInt32 :=
  if left = 0 then []
  else
    let m := min left (BSIZE - off.toNat % BSIZE)
    span a m ++ copyLoop (a + UInt32.ofNat m) (off + UInt32.ofNat m) (left - m)
termination_by left
decreasing_by
  have := Nat.mod_lt off.toNat (show 0 < BSIZE by decide)
  omega

/-- `readi` on a file or directory. -/
def readData (size dst off n : UInt32) : List UInt32 :=
  if off > size ∨ off + n < off then []
  else copyLoop dst off (if off + n > size then size - off else n).toNat

/-- `writei` on a file or directory, and whether it succeeds. -/
def writeData (size src off n : UInt32) : List UInt32 × Bool :=
  if off > size ∨ off + n < off then ([], false)
  else if off + n > UInt32.ofNat (MAXFILE * BSIZE) then ([], false)
  else (copyLoop src off n.toNat, true)

/-- What a file refers to. A device has a handler or not. -/
inductive Target
  | pipe
  | device (handler : Bool)
  | inode

structure File where
  readable : Bool
  writable : Bool
  target : Target

/-- What the transfer depends on: the bytes that a pipe has or takes, the characters typed, and the size
of the inode and the offset of the file when the `j`-th chunk is transferred. -/
structure World where
  pipe : ℕ
  input : List UInt8
  size : ℕ → UInt32
  off : ℕ → UInt32

def fileread (w : World) (f : File) (addr n : UInt32) : List UInt32 :=
  if ¬ f.readable then []
  else
    match f.target with
    | .pipe => piperead addr n w.pipe
    | .device handler => if handler then consoleread addr n w.input else []
    | .inode => readData (w.size 0) addr (w.off 0) n

/-- `writei` with the `j`-th chunk. -/
def writei (w : World) (f : Target) (j : ℕ) (addr n : UInt32) : List UInt32 × Bool :=
  match f with
  | .pipe => ([], false)
  | .device handler => if handler then (consolewrite addr n, true) else ([], false)
  | .inode => writeData (w.size j) addr (w.off j) n

/-- The loop of `filewrite` with `i` bytes done. -/
def filewriteLoop (w : World) (f : Target) (addr n : UInt32) (j i : ℕ) : List UInt32 :=
  if (i : ℤ) < int n then
    let n1 := min (n.toNat - i) maxWrite
    let r := writei w f j (addr + UInt32.ofNat i) (UInt32.ofNat n1)
    if r.2 then r.1 ++ filewriteLoop w f addr n (j + 1) (i + n1) else r.1
  else []
termination_by n.toNat - i
decreasing_by
  have hmax : 0 < maxWrite := by decide
  have hint : int n ≤ n.toNat := by
    unfold int
    split_ifs <;> omega
  omega

def filewrite (w : World) (f : File) (addr n : UInt32) : List UInt32 :=
  if ¬ f.writable then []
  else
    match f.target with
    | .pipe => pipewrite addr n w.pipe
    | target => filewriteLoop w target addr n 0 0

inductive Call
  | read
  | write

/-- The user addresses that the call reads or writes, in a process of size `sz`. -/
def accesses (call : Call) (sz p n : UInt32) (f : File) (w : World) : List UInt32 :=
  match argptr sz p n with
  | none => []
  | some p =>
    match call with
    | .read => fileread w f p n
    | .write => filewrite w f p n

/-! ## Where the accesses are -/

variable {addr n a dst sz size p : UInt32} {i m j : ℕ} {w : World} {f : File}

theorem span_append (a : UInt32) (m r : ℕ) :
    span a (m + r) = span a m ++ span (a + UInt32.ofNat m) r := by
  simp [span, range_add, Function.comp_def, ofNat_add, add_assoc]

theorem copyLoop_eq_span (a off : UInt32) (left : ℕ) : copyLoop a off left = span a left := by
  induction left using Nat.strong_induction_on generalizing a off with
  | h left ih =>
    rw [copyLoop]
    by_cases hzero : left = 0
    · rw [if_pos hzero, hzero]
      rfl
    have hmod := Nat.mod_lt off.toNat (show 0 < BSIZE by decide)
    have hstep : left - min left (BSIZE - off.toNat % BSIZE) < left := by omega
    rw [if_neg hzero]
    dsimp only
    rw [ih _ hstep, ← span_append, Nat.add_sub_cancel' (Nat.min_le_left _ _)]

def Within (addr n a : UInt32) : Prop := ∃ k : ℕ, (k : ℤ) < int n ∧ a = addr + UInt32.ofNat k

theorem byteLoop_within {rounds : ℕ} (h : a ∈ byteLoop addr n i rounds) : Within addr n a := by
  induction rounds generalizing i with
  | zero => simp [byteLoop] at h
  | succ rounds ih =>
    rw [byteLoop] at h
    split_ifs at h with hi
    · rcases mem_cons.1 h with rfl | h
      · exact ⟨i, hi, rfl⟩
      · exact ih h
    · simp at h

theorem int_of_pos (h : 0 < int n) : n.toNat < 2 ^ 31 ∧ int n = n.toNat := by
  have hlt := n.toNat_lt
  unfold int at *
  split_ifs at * <;> omega

theorem int_ofNat {n : ℕ} (h : n < 2 ^ 31) : int (UInt32.ofNat n) = n := by
  rw [int, toNat_ofNat', Nat.mod_eq_of_lt (by omega), if_pos h]

theorem int_sub_one (h : 0 < int n) : int (n - 1) = int n - 1 := by
  obtain ⟨hlt, hint⟩ := int_of_pos h
  have hone : (n - 1).toNat = n.toNat - 1 :=
    UInt32.toNat_sub_of_le n 1 (UInt32.le_iff_toNat_le.2 (by change 1 ≤ n.toNat; omega))
  rw [int, hone, if_pos (by omega), hint]
  omega

theorem consoleread_within {input : List UInt8} (h : a ∈ consoleread dst n input) :
    Within dst n a := by
  induction input generalizing dst n with
  | nil => simp [consoleread] at h
  | cons c input ih =>
    rw [consoleread] at h
    split_ifs at h with hn hd hnl
    · simp at h
    · obtain rfl := mem_singleton.1 h
      exact ⟨0, hn, by simp⟩
    · rcases mem_cons.1 h with rfl | h
      · exact ⟨0, hn, by simp⟩
      · obtain ⟨k, hk, rfl⟩ := ih h
        rw [int_sub_one hn] at hk
        refine ⟨1 + k, by push_cast; omega, ?_⟩
        rw [ofNat_add, ← add_assoc]
        rfl
    · simp at h

theorem span_within (hm : (m : ℤ) ≤ int n) (h : a ∈ span addr m) : Within addr n a := by
  obtain ⟨k, hk, rfl⟩ := mem_map.1 h
  have := mem_range.1 hk
  exact ⟨k, by omega, rfl⟩

theorem writei_within {f : Target} {n : ℕ} (hn : n < 2 ^ 31)
    (h : a ∈ (writei w f j addr (UInt32.ofNat n)).1) : Within addr (UInt32.ofNat n) a := by
  cases f with
  | pipe => simp [writei] at h
  | device handler =>
    cases handler with
    | true => exact byteLoop_within h
    | false => simp [writei] at h
  | inode =>
    simp only [writei, writeData] at h
    split_ifs at h with h₁ h₂
    · simp at h
    · simp at h
    · rw [copyLoop_eq_span] at h
      refine span_within ?_ h
      rw [int_ofNat hn, toNat_ofNat', Nat.mod_eq_of_lt (by omega)]

theorem filewriteLoop_within {f : Target}
    (h : a ∈ filewriteLoop w f addr n j i) : Within addr n a := by
  -- the induction is on the bytes that are left
  induction hl : n.toNat - i using Nat.strong_induction_on generalizing j i with
  | h left ih =>
    rw [filewriteLoop] at h
    by_cases hi : (i : ℤ) < int n
    · obtain ⟨hlt, hint⟩ := int_of_pos (n := n) (by omega)
      have hmax : 0 < maxWrite := by decide
      have hchunk : ∀ b, b ∈ (writei w f j (addr + UInt32.ofNat i)
          (UInt32.ofNat (min (n.toNat - i) maxWrite))).1 → Within addr n b := by
        intro b hb
        obtain ⟨k, hk, rfl⟩ := writei_within (by omega) hb
        rw [int_ofNat (by omega)] at hk
        refine ⟨i + k, by push_cast; omega, ?_⟩
        rw [ofNat_add, add_assoc]
      rw [if_pos hi] at h
      dsimp only at h
      split_ifs at h with hr
      · rcases mem_append.1 h with h | h
        · exact hchunk a h
        · exact ih _ (by omega) h rfl
      · exact hchunk a h
    · rw [if_neg hi] at h
      simp at h

theorem filewrite_within (h : a ∈ filewrite w f addr n) : Within addr n a := by
  unfold filewrite at h
  by_cases hw : ¬ f.writable = true
  · rw [if_pos hw] at h
    simp at h
  · rw [if_neg hw] at h
    cases ht : f.target with
    | pipe => rw [ht] at h; exact byteLoop_within h
    | device handler => rw [ht] at h; exact filewriteLoop_within h
    | inode => rw [ht] at h; exact filewriteLoop_within h

/-! ## The check of argptr -/

theorem argptr_eq_some {i : UInt32} (h : argptr sz i size = some p) :
    p = i ∧ i.toNat < sz.toNat ∧ (i + size).toNat ≤ sz.toNat := by
  unfold argptr at h
  split_ifs at h with hbad
  rw [not_or] at hbad
  exact ⟨(Option.some.inj h).symm, UInt32.lt_iff_toNat_lt.1 (UInt32.not_le.1 hbad.1),
    UInt32.le_iff_toNat_le.1 (UInt32.not_lt.1 hbad.2)⟩

theorem Within.lt (hsz : sz.toNat < Vm.KERNBASE) (hp : p.toNat < sz.toNat)
    (hend : (p + n).toNat ≤ sz.toNat) (h : Within p n a) : a < sz := by
  obtain ⟨k, hk, rfl⟩ := h
  obtain ⟨hlt, hint⟩ := int_of_pos (n := n) (by omega)
  rw [UInt32.lt_iff_toNat_lt, UInt32.toNat_add, UInt32.toNat_ofNat']
  rw [UInt32.toNat_add] at hend
  simp only [Vm.KERNBASE] at hsz
  omega

theorem span_lt_iff (hp : p.toNat < sz.toNat) :
    (∀ a ∈ span p m, a < sz) ↔ p.toNat + m ≤ sz.toNat := by
  have hsz := sz.toNat_lt
  constructor
  · intro h
    by_contra hgt
    have hbad := h (p + UInt32.ofNat (sz.toNat - p.toNat))
      (List.mem_map.2 ⟨_, List.mem_range.2 (by omega), rfl⟩)
    rw [UInt32.lt_iff_toNat_lt, UInt32.toNat_add, UInt32.toNat_ofNat'] at hbad
    omega
  · intro h a ha
    obtain ⟨k, hk, rfl⟩ := List.mem_map.1 ha
    have := List.mem_range.1 hk
    rw [UInt32.lt_iff_toNat_lt, UInt32.toNat_add, UInt32.toNat_ofNat']
    omega

/-! ## Which calls leave the process -/

/-- A read of a file or directory with a negative length that `readi` cuts down to the rest of the file,
and the rest of the file does not fit in the process. -/
structure Overruns (call : Call) (sz p n : UInt32) (f : File) (w : World) : Prop where
  read : call = .read
  readable : f.readable = true
  inode : f.target = .inode
  accepted : argptr sz p n = some p
  negative : int n < 0
  inside : w.off 0 ≤ w.size 0
  nowrap : w.off 0 ≤ w.off 0 + n
  beyond : sz.toNat < p.toNat + min n.toNat ((w.size 0).toNat - (w.off 0).toNat)

theorem readData_eq_span {off : UInt32} (hoff : off ≤ size) (hwrap : off ≤ off + n) :
    readData size dst off n = span dst (min n.toNat (size.toNat - off.toNat)) := by
  have hlen : (if off + n > size then size - off else n).toNat =
      min n.toNat (size.toNat - off.toNat) := by
    have hofflt := off.toNat_lt
    have hsizelt := size.toNat_lt
    have hnlt := n.toNat_lt
    have hsub := UInt32.toNat_sub_of_le size off hoff
    have hle := UInt32.le_iff_toNat_le.1 hoff
    rw [UInt32.le_iff_toNat_le, UInt32.toNat_add] at hwrap
    simp only [gt_iff_lt, UInt32.lt_iff_toNat_lt, UInt32.toNat_add]
    split_ifs <;> omega
  have hok : ¬ (off > size ∨ off + n < off) :=
    not_or.2 ⟨UInt32.not_lt.2 hoff, UInt32.not_lt.2 hwrap⟩
  rw [readData, if_neg hok, hlen, copyLoop_eq_span]

theorem fileread_inode (hr : f.readable = true)
    (ht : f.target = .inode) : fileread w f p n = readData (w.size 0) p (w.off 0) n := by
  simp [fileread, hr, ht]

theorem fileread_within (h : a ∈ fileread w f addr n)
    (hn : f.target = .inode → 0 ≤ int n) : Within addr n a := by
  unfold fileread at h
  by_cases hr : ¬ f.readable = true
  · rw [if_pos hr] at h
    simp at h
  rw [if_neg hr] at h
  cases ht : f.target with
  | pipe => rw [ht] at h; exact byteLoop_within h
  | device handler =>
    rw [ht] at h
    cases handler with
    | true => exact consoleread_within h
    | false => simp at h
  | inode =>
    rw [ht] at h
    dsimp only at h
    have hpos := hn ht
    unfold readData at h
    split_ifs at h with hbad hcut
    · simp at h
    · rw [copyLoop_eq_span] at h
      refine span_within ?_ h
      have hle : w.size 0 - w.off 0 < n := by
        rw [not_or, UInt32.not_lt, UInt32.not_lt] at hbad
        have hoff := UInt32.le_iff_toNat_le.1 hbad.1
        have hwrap := UInt32.le_iff_toNat_le.1 hbad.2
        have hsub := UInt32.toNat_sub_of_le _ _ hbad.1
        rw [gt_iff_lt, UInt32.lt_iff_toNat_lt] at hcut
        rw [UInt32.toNat_add] at hcut hwrap
        have hnlt := n.toNat_lt
        have hofflt := (w.off 0).toNat_lt
        have hsizelt := (w.size 0).toNat_lt
        rw [UInt32.lt_iff_toNat_lt]
        omega
      have hle := UInt32.lt_iff_toNat_lt.1 hle
      unfold int at hpos ⊢
      have hnlt := n.toNat_lt
      split_ifs at hpos ⊢ <;> omega
    · rw [copyLoop_eq_span] at h
      refine span_within ?_ h
      unfold int at hpos ⊢
      have hnlt := n.toNat_lt
      split_ifs at hpos ⊢ <;> omega

/-- `sys_read` and `sys_write` stay in the process, with the exception of reads of files with a negative
length. -/
theorem buffers_in_process_iff {sz : UInt32} (hsz : sz.toNat < Vm.KERNBASE) (call : Call) (p n : UInt32)
    (f : File) (w : World) :
    (∀ a ∈ accesses call sz p n f w, a < sz) ↔ ¬ Overruns call sz p n f w := by
  cases hp : argptr sz p n with
  | none =>
    have hnone : accesses call sz p n f w = [] := by simp [accesses, hp]
    rw [hnone]
    exact ⟨fun _ h => absurd (hp.symm.trans h.accepted) nofun, fun _ _ ha => absurd ha List.not_mem_nil⟩
  | some p' =>
    obtain ⟨rfl, hlow, hend⟩ := argptr_eq_some hp
    cases call with
    | write =>
      have hacc : accesses .write sz p' n f w = filewrite w f p' n := by simp [accesses, hp]
      rw [hacc]
      exact ⟨fun _ h => absurd h.read nofun, fun _ a ha => (filewrite_within ha).lt hsz hlow hend⟩
    | read =>
      have hacc : accesses .read sz p' n f w = fileread w f p' n := by simp [accesses, hp]
      rw [hacc]
      constructor
      · intro hall h
        rw [fileread_inode h.readable h.inode, readData_eq_span h.inside h.nowrap, span_lt_iff hlow] at hall
        have := h.beyond
        omega
      · intro hno
        by_cases hneg : f.target = .inode ∧ int n < 0
        · by_cases hr : f.readable = true
          · rw [fileread_inode hr hneg.1]
            by_cases hpass : w.off 0 ≤ w.size 0 ∧ w.off 0 ≤ w.off 0 + n
            · rw [readData_eq_span hpass.1 hpass.2, span_lt_iff hlow]
              by_contra hgt
              exact hno ⟨rfl, hr, hneg.1, hp, hneg.2, hpass.1, hpass.2, by omega⟩
            · have hbad : w.off 0 > w.size 0 ∨ w.off 0 + n < w.off 0 := by
                rw [not_and_or, UInt32.not_le, UInt32.not_le] at hpass
                exact hpass
              rw [readData, if_pos hbad]
              exact fun a ha => absurd ha List.not_mem_nil
          · intro a ha
            simp [fileread, hr] at ha
        · intro a ha
          refine (fileread_within ha fun ht => ?_).lt hsz hlow hend
          by_contra hlt
          exact hneg ⟨ht, by omega⟩

/-- 100 bytes to a buffer at the end of a process of one page. -/
theorem buffers_in_process_iff_console : (4096 : UInt32).toNat < Vm.KERNBASE ∧
    ∀ a ∈ accesses .write 4096 3996 100 ⟨false, true, .device true⟩ ⟨0, [], fun _ => 0, fun _ => 0⟩,
      a < 4096 :=
  ⟨by decide, (buffers_in_process_iff (by decide) _ _ _ _ _).2 fun h => nomatch h.read⟩

/-- A process of one page reads -50 bytes from the start of a file of two pages to address 100. -/
theorem negative_read_overruns :
    ¬ ∀ a ∈ accesses .read 4096 100 (0 - 50) ⟨true, false, .inode⟩ ⟨0, [], fun _ => 8192, fun _ => 0⟩,
      a < 4096 := by
  have hp : argptr 4096 100 (0 - 50) = some 100 := by decide
  have hacc : accesses .read 4096 100 (0 - 50) ⟨true, false, .inode⟩ ⟨0, [], fun _ => 8192, fun _ => 0⟩ =
      readData 8192 100 0 (0 - 50) := by
    simp only [accesses, hp, fileread]
    rfl
  rw [hacc, readData_eq_span (by decide) (by decide), span_lt_iff (by decide)]
  decide

end Xv6.UserBuffer
