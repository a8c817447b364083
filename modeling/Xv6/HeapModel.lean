import Xv6.ByteLayout

/-!
# The allocator of user programs

`malloc`, `free` and `morecore` of `umalloc.c` on the memory of a process. Pointers are 32-bit addresses
and count headers, and `base` is the address of the static header. A loop that does not end within `n`
rounds gives `none`.

`sbrk` is outside: a call takes the first answer of the list, where `none` is a failure, and an empty list
fails as well. `core` is not program state: it records the memory that `sbrk` has given.
-/

namespace Xv6.Umalloc

open ByteLayout

/-- `sizeof(Header)`. -/
abbrev HDR : ℕ := 8

abbrev KERNBASE : ℕ := 0x80000000

/-- A header and the units behind it that belong to it. -/
structure Blk where
  addr : ℕ
  size : ℕ
deriving DecidableEq

structure Heap where
  mem : Bytes
  freep : ℕ
  core : List Blk

def put32 (m : Bytes) (a : ℕ) (v : UInt32) : Bytes := blit m a 4 (leByte v.toNat)

namespace Heap

/-- `p->s.ptr`. -/
def ptr (h : Heap) (p : ℕ) : ℕ := (get32 h.mem p).toNat

/-- `p->s.size`. -/
def size (h : Heap) (p : ℕ) : ℕ := (get32 h.mem (p + 4)).toNat

def setPtr (h : Heap) (p q : ℕ) : Heap := { h with mem := put32 h.mem p (UInt32.ofNat q) }

def setSize (h : Heap) (p n : ℕ) : Heap := { h with mem := put32 h.mem (p + 4) (UInt32.ofNat n) }

end Heap

/-- `p + n` for a pointer to headers. -/
def plus (p n : ℕ) : ℕ := (p + HDR * n) % 2 ^ 32

/-- The loop of `free`. -/
def place (h : Heap) (bp : ℕ) : ℕ → ℕ → Option ℕ
  | 0, _ => none
  | n + 1, p =>
    if bp > p ∧ bp < h.ptr p then some p
    else if p ≥ h.ptr p ∧ (bp > p ∨ bp < h.ptr p) then some p
    else place h bp n (h.ptr p)

/-- `free` joins the block to the upper neighbour. -/
def joinUpper (h : Heap) (bp p : ℕ) : Heap :=
  if plus bp (h.size bp) = h.ptr p then
    let h := h.setSize bp (h.size bp + h.size (h.ptr p))
    h.setPtr bp (h.ptr (h.ptr p))
  else h.setPtr bp (h.ptr p)

/-- `free` joins the block to the lower neighbour. -/
def joinLower (h : Heap) (bp p : ℕ) : Heap :=
  if plus p (h.size p) = bp then
    let h := h.setSize p (h.size p + h.size bp)
    h.setPtr p (h.ptr bp)
  else h.setPtr p bp

def free (n ap : ℕ) (h : Heap) : Option Heap := do
  let bp := ap - HDR
  let p ← place h bp n h.freep
  return { joinLower (joinUpper h bp p) bp p with freep := p }

/-- The return value is `none` for the null pointer; the answers that are left come with it. -/
def morecore (n nu : ℕ) (sbrk : List (Option ℕ)) (h : Heap) : Option (Option ℕ × List (Option ℕ) × Heap) :=
  let nu := if nu < 4096 then 4096 else nu
  match sbrk with
  | some p :: sbrk => do
    let h := { h.setSize p nu with core := ⟨p, nu⟩ :: h.core }
    let h ← free n (plus p 1) h
    return (some h.freep, sbrk, h)
  | none :: sbrk => some (none, sbrk, h)
  | [] => some (none, [], h)

/-- `malloc` takes a block, or the tail of a larger one. -/
def take (nunits prevp p : ℕ) (h : Heap) : ℕ × Heap :=
  if h.size p = nunits then (plus p 1, { h.setPtr prevp (h.ptr p) with freep := prevp })
  else
    let h := h.setSize p (h.size p - nunits)
    let p := plus p (h.size p)
    let h := h.setSize p nunits
    (plus p 1, { h with freep := prevp })

/-- The loop of `malloc`. -/
def scan (nunits : ℕ) : ℕ → ℕ → ℕ → List (Option ℕ) → Heap → Option (ℕ × Heap)
  | 0, _, _, _, _ => none
  | n + 1, prevp, p, sbrk, h =>
    if h.size p ≥ nunits then some (take nunits prevp p h)
    else if p = h.freep then
      match morecore n nunits sbrk h with
      | none => none
      | some (none, _, h) => some (0, h)
      | some (some p, sbrk, h) => scan nunits n p (h.ptr p) sbrk h
    else scan nunits n p (h.ptr p) sbrk h

/-- `nunits` for a request, in 32-bit arithmetic. -/
def nunits (nbytes : UInt32) : ℕ := (nbytes + 7).toNat / HDR + 1

def malloc (base n : ℕ) (nbytes : UInt32) (sbrk : List (Option ℕ)) (h : Heap) : Option (ℕ × Heap) :=
  let h := if h.freep = 0 then { (h.setPtr base base).setSize base 0 with freep := base } else h
  scan (nunits nbytes) n h.freep (h.ptr h.freep) sbrk h

/-! ## Programs -/

/-- `live` are the blocks that the program has got from `malloc` and not freed. -/
structure World where
  heap : Heap
  live : List Blk

/-- The call returns, however many rounds its loops may take. -/
def Gives {α : Type} (f : ℕ → Option α) (a : α) : Prop := ∃ N, ∀ n, N ≤ n → f n = some a

/-- Memory that `sbrk` may return: above the static header and all memory it has returned before, and
below the kernel. -/
def Fresh (base : ℕ) (h : Heap) (p nu : ℕ) : Prop :=
  base + HDR ≤ p ∧ (∀ r ∈ h.core, r.addr + HDR * r.size ≤ p) ∧ p + HDR * nu < KERNBASE

/-- A call of `malloc` as the program may make it. -/
def Asks (base : ℕ) (h : Heap) (nbytes : UInt32) (sbrk : List (Option ℕ)) : Prop :=
  HDR * max (nunits nbytes) 4096 < 2 ^ 31 ∧
    ∀ p rest, sbrk = some p :: rest → Fresh base h p (max (nunits nbytes) 4096)

/-- What a program can do to its heap: it stores to its blocks and calls `malloc` and `free`. -/
inductive Run (base : ℕ) : World → Prop
  | start (mem : Bytes) : Run base ⟨⟨mem, 0, []⟩, []⟩
  | store {w : World} {b : Blk} {a : ℕ} (v : UInt8) (hw : Run base w) (hb : b ∈ w.live)
      (ha : b.addr + HDR ≤ a ∧ a < b.addr + HDR * b.size) :
      Run base ⟨{ w.heap with mem := Function.update w.heap.mem a v }, w.live⟩
  | malloc {w : World} {nbytes : UInt32} {sbrk : List (Option ℕ)} {r : ℕ} {h : Heap} (hw : Run base w)
      (hask : Asks base w.heap nbytes sbrk) (hm : Gives (fun n => Umalloc.malloc base n nbytes sbrk w.heap) (r, h)) :
      Run base ⟨h, if r = 0 then w.live else ⟨r - HDR, h.size (r - HDR)⟩ :: w.live⟩
  | free {w : World} {b : Blk} {h : Heap} (hw : Run base w) (hb : b ∈ w.live)
      (hf : Gives (fun n => Umalloc.free n (b.addr + HDR) w.heap) h) : Run base ⟨h, w.live.erase b⟩

end Xv6.Umalloc
