import Xv6.LogModel

/-!
# Physical pages and page tables

`kalloc.c` and `vm.c` over physical memory as an array of pages. Physical and virtual addresses of
pages appear as page numbers; page directories and page tables are pages whose words are entries.
An allocation may be refused at any call, also while pages are left: in the kernel other processors
allocate at the same time.
-/

namespace Xv6.Vm

open Resumption ByteLayout

abbrev PGSIZE : ℕ := 4096
abbrev NPDENTRIES : ℕ := 1024
abbrev NPTENTRIES : ℕ := 1024
abbrev EXTMEM : ℕ := 0x100000
abbrev PHYSTOP : ℕ := 0xE000000
abbrev DEVSPACE : ℕ := 0xFE000000
abbrev KERNBASE : ℕ := 0x80000000
abbrev KERNLINK : ℕ := KERNBASE + EXTMEM

abbrev PTE_P : UInt32 := 0x001
abbrev PTE_W : UInt32 := 0x002
abbrev PTE_U : UInt32 := 0x004

abbrev Page := Buffer PGSIZE

/-- The addresses that the linker decides, as physical page numbers: `data`, which `kernel.ld`
aligns to a page, and the first page behind `end`. -/
class Link where
  dataPage : ℕ
  endPage : ℕ
  extmem_lt : EXTMEM / PGSIZE < dataPage
  data_le : dataPage ≤ endPage
  end_lt : endPage < 1024

/-! ## Page table entries -/

def PDX (v : ℕ) : ℕ := v / NPTENTRIES % NPDENTRIES

def PTX (v : ℕ) : ℕ := v % NPTENTRIES

def PGROUNDUP (sz : UInt32) : UInt32 := (sz + 4095) &&& ~~~4095

/-- The page an entry points to. -/
def PTE_ADDR (pte : UInt32) : ℕ := pte.toNat / PGSIZE

def PTE_FLAGS (pte : UInt32) : UInt32 := pte &&& 0xFFF

/-- `pa | flags` for the address `pa` of page `pg`. -/
def mkPte (pg : ℕ) (flags : UInt32) : UInt32 := UInt32.ofNat (pg * PGSIZE) ||| flags

/-! ## kalloc.c -/

/-- Physical memory and its allocator. `refuse` decides which calls of `kalloc` fail although pages
are left; `doubleFree` is set when a page is freed that is on the free list. -/
structure Mem where
  page : ℕ → Page
  freelist : List ℕ
  calls : ℕ
  refuse : ℕ → Bool
  doubleFree : Bool

abbrev MemM := EStateM Stop Mem

namespace Mem

def setPage (m : Mem) (pg : ℕ) (x : Page) : Mem := { m with page := Function.update m.page pg x }

def setWord (m : Mem) (pg i : ℕ) (w : UInt32) : Mem := m.setPage pg ((m.page pg).setWord i w)

/-- The state after `kfree` of `pg`. -/
def free (m : Mem) (pg : ℕ) : Mem :=
  { m.setPage pg (.ofBytes fun _ => 1) with
    freelist := pg :: m.freelist
    doubleFree := m.doubleFree || decide (pg ∈ m.freelist) }

end Mem

def kalloc : MemM (Option ℕ) := do
  let m ← get
  match m.refuse m.calls, m.freelist with
  | false, pg :: rest =>
    set { m with freelist := rest, calls := m.calls + 1 }
    return some pg
  | _, _ =>
    set { m with calls := m.calls + 1 }
    return none

variable [Link]

def kfree (pg : ℕ) : MemM Unit := do
  if pg < Link.endPage ∨ PHYSTOP / PGSIZE ≤ pg then throw (.panic "kfree")
  else modify fun m => m.free pg

def memset (pg : ℕ) (x : UInt8) : MemM Unit := modify fun m => m.setPage pg (.ofBytes fun _ => x)

def word (pg i : ℕ) : MemM UInt32 := do return ((← get).page pg).word i

def setWord (pg i : ℕ) (w : UInt32) : MemM Unit := modify fun m => m.setWord pg i w

/-- `freerange` from page `lo` to page `hi`. -/
def freerange (lo hi : ℕ) : MemM Unit := (List.range' lo (hi - lo)).forM kfree

/-! ## Page tables -/

/-- The entry for virtual page `v` as a table page and an index in it. -/
def walkpgdir (d v : ℕ) (alloc : Bool) : MemM (Option (ℕ × ℕ)) := do
  let pde ← word d (PDX v)
  if pde &&& PTE_P ≠ 0 then return some (PTE_ADDR pde, PTX v)
  else if ¬ alloc then return none
  else
    match ← kalloc with
    | none => return none
    | some pgtab =>
      memset pgtab 0
      setWord d (PDX v) (mkPte pgtab (PTE_P ||| PTE_W ||| PTE_U))
      return some (pgtab, PTX v)

/-- One round of the loop in `mappages`; `false` stands for the result -1. -/
def mapPage (d v pg : ℕ) (perm : UInt32) : MemM Bool := do
  match ← walkpgdir d v true with
  | none => return false
  | some (t, i) =>
    let pte ← word t i
    if pte &&& PTE_P ≠ 0 then throw (.panic "remap")
    else
      setWord t i (mkPte pg (perm ||| PTE_P))
      return true

/-- The loop of `mappages` when `n` pages come after virtual page `v`. -/
def mapLoop (d : ℕ) (perm : UInt32) : ℕ → ℕ → ℕ → MemM Bool
  | 0, v, pg => mapPage d v pg perm
  | n + 1, v, pg => do
    if ← mapPage d v pg perm then mapLoop d perm n (v + 1) (pg + 1) else return false

/-- `mappages` for addresses `va`, `pa` and a size in bytes. The loop ends at the page of the last
byte, whose address is computed modulo 2^32. -/
def mappages (d va size pa : ℕ) (perm : UInt32) : MemM Bool :=
  let a := va / PGSIZE
  let last := (va + size - 1) % 2 ^ 32 / PGSIZE
  mapLoop d perm ((last + 2 ^ 20 - a) % 2 ^ 20) a (pa / PGSIZE)

structure Kmap where
  virt : ℕ
  physStart : ℕ
  physEnd : ℕ
  perm : UInt32

def kmap : List Kmap :=
  [⟨KERNBASE, 0, EXTMEM, PTE_W⟩,
   ⟨KERNLINK, EXTMEM, Link.dataPage * PGSIZE, 0⟩,
   ⟨KERNBASE + Link.dataPage * PGSIZE, Link.dataPage * PGSIZE, PHYSTOP, PTE_W⟩,
   ⟨DEVSPACE, DEVSPACE, 0, PTE_W⟩]

/-- `phys_end - phys_start` as an unsigned value: the last entry of `kmap` ends at 2^32. -/
def Kmap.size (k : Kmap) : ℕ := (k.physEnd + 2 ^ 32 - k.physStart) % 2 ^ 32

/-- The loop of `setupkvm`. -/
def mapKernel (d : ℕ) : List Kmap → MemM Bool
  | [] => return true
  | k :: ks => do
    if ← mappages d k.virt k.size k.physStart k.perm then mapKernel d ks else return false

/-- The directory is not freed if a mapping fails. -/
def setupkvm : MemM (Option ℕ) := do
  match ← kalloc with
  | none => return none
  | some d =>
    memset d 0
    if KERNBASE + PHYSTOP > DEVSPACE then throw (.panic "PHYSTOP too high")
    else if ← mapKernel d kmap then return some d
    else return none

/-! ## User memory -/

/-- The loop of `deallocuvm` from address `a` on. All callers pass an `oldsz` of at most `KERNBASE`,
so that `a` does not wrap around. -/
def deallocLoop (d oldsz a : ℕ) : MemM Unit :=
  if a < oldsz then do
    match ← walkpgdir d (a / PGSIZE) false with
    | none => deallocLoop d oldsz (a + (NPTENTRIES - 1) * PGSIZE + PGSIZE)
    | some (t, i) =>
      let pte ← word t i
      if pte &&& PTE_P ≠ 0 then
        if PTE_ADDR pte = 0 then throw (.panic "kfree")
        else
          kfree (PTE_ADDR pte)
          setWord t i 0
      deallocLoop d oldsz (a + PGSIZE)
  else return ()
termination_by oldsz - a
decreasing_by all_goals simp only [PGSIZE, NPTENTRIES]; omega

def deallocuvm (d : ℕ) (oldsz newsz : UInt32) : MemM UInt32 := do
  if newsz ≥ oldsz then return oldsz
  else
    deallocLoop d oldsz.toNat (PGROUNDUP newsz).toNat
    return newsz

/-- The loop of `allocuvm` from address `a` on; `false` if it runs out of memory. -/
def allocLoop (d : ℕ) (oldsz newsz : UInt32) (a : ℕ) : MemM Bool :=
  if a < newsz.toNat then do
    match ← kalloc with
    | none =>
      let _ ← deallocuvm d newsz oldsz
      return false
    | some mem =>
      memset mem 0
      if ← mappages d a PGSIZE (mem * PGSIZE) (PTE_W ||| PTE_U) then
        allocLoop d oldsz newsz (a + PGSIZE)
      else
        let _ ← deallocuvm d newsz oldsz
        kfree mem
        return false
  else return true
termination_by newsz.toNat - a
decreasing_by simp only [PGSIZE]; omega

def allocuvm (d : ℕ) (oldsz newsz : UInt32) : MemM UInt32 := do
  if newsz.toNat ≥ KERNBASE then return 0
  else if newsz < oldsz then return oldsz
  else if ← allocLoop d oldsz newsz (PGROUNDUP oldsz).toNat then return newsz
  else return 0

/-- Free the page table of directory slot `i`. -/
def freeTable (d i : ℕ) : MemM Unit := do
  let pde ← word d i
  if pde &&& PTE_P ≠ 0 then kfree (PTE_ADDR pde)

def freevm : Option ℕ → MemM Unit
  | none => throw (.panic "freevm: no pgdir")
  | some d => do
    let _ ← deallocuvm d (UInt32.ofNat KERNBASE) 0
    (List.range NPDENTRIES).forM (freeTable d)
    kfree d

def clearpteu (d v : ℕ) : MemM Unit := do
  match ← walkpgdir d v false with
  | none => throw (.panic "clearpteu")
  | some (t, i) =>
    let pte ← word t i
    setWord t i (pte &&& ~~~PTE_U)

/-- The loop of `copyuvm` from virtual page `v` on, of `n` pages; `false` stands for the label `bad`.
A page for which `mappages` fails is not freed. -/
def copyLoop (src d n v : ℕ) : MemM Bool :=
  if v < n then do
    match ← walkpgdir src v false with
    | none => throw (.panic "copyuvm: pte should exist")
    | some (t, i) =>
      let pte ← word t i
      if pte &&& PTE_P = 0 then throw (.panic "copyuvm: page not present")
      else
        match ← kalloc with
        | none => return false
        | some mem =>
          modify fun m => m.setPage mem (m.page (PTE_ADDR pte))
          if ← mappages d (v * PGSIZE) PGSIZE (mem * PGSIZE) (PTE_FLAGS pte) then
            copyLoop src d n (v + 1)
          else return false
  else return true
termination_by n - v

/-- The number of rounds of a loop over `i = 0, PGSIZE, ... < sz`. -/
def pagesOf (sz : UInt32) : ℕ := (sz.toNat + PGSIZE - 1) / PGSIZE

def copyuvm (src : ℕ) (sz : UInt32) : MemM (Option ℕ) := do
  match ← setupkvm with
  | none => return none
  | some d =>
    if ← copyLoop src d (pagesOf sz) 0 then return some d
    else
      freevm (some d)
      return none

/-- `sz` is less than a page. -/
def inituvm (d : ℕ) (init : List UInt8) : MemM Unit := do
  if init.length ≥ PGSIZE then throw (.panic "inituvm: more than a page")
  else
    match ← kalloc with
    | none => throw .overrun
    | some mem =>
      memset mem 0
      let _ ← mappages d 0 PGSIZE (mem * PGSIZE) (PTE_W ||| PTE_U)
      modify fun m => m.setPage mem ((m.page mem).write 0 init.length fun i => init.getD i 0)

/-- The word that a null pointer reads while the directory `c` is loaded: the kernel and the process
share one address space, and address 0 is the process's. -/
def nullWord (c : ℕ) : MemM UInt32 := do
  match ← walkpgdir c 0 false with
  | none => throw (.panic "trap")
  | some (t, i) =>
    let pte ← word t i
    if pte &&& PTE_P = 0 then throw (.panic "trap") else word (PTE_ADDR pte) 0

/-- `*pte` in `uva2ka`, while `c` is loaded. If there is no table for the address, the null pointer
that `walkpgdir` returns is dereferenced. -/
def pteWord (c d v : ℕ) : MemM UInt32 := do
  match ← walkpgdir d v false with
  | none => nullWord c
  | some (t, i) => word t i

/-- The page that user page `v` of `d` is mapped to. -/
def uva2ka (c d v : ℕ) : MemM (Option ℕ) := do
  let pte ← pteWord c d v
  if pte &&& PTE_P = 0 then return none
  else if pte &&& PTE_U = 0 then return none
  else return some (PTE_ADDR pte)

/-- `copyout` of the `len` bytes of `buf` to address `va` of `d`, while `c` is loaded; the address
wraps around at 2^32. A store to a page that is not one of the allocator's hits the kernel itself,
which is not modelled further. -/
def copyout (c d va : ℕ) (buf : Bytes) (len : ℕ) : MemM Bool :=
  if len = 0 then return true
  else do
    match ← uva2ka c d (va / PGSIZE) with
    | none => return false
    | some pg =>
      if pg < Link.endPage ∨ PHYSTOP / PGSIZE ≤ pg then throw .overrun
      else
        let n := min len (PGSIZE - va % PGSIZE)
        modify fun m => m.setPage pg ((m.page pg).write (va % PGSIZE) n buf)
        copyout c d ((va / PGSIZE + 1) * PGSIZE % 2 ^ 32) (fun i => buf (n + i)) (len - n)
termination_by len
decreasing_by
  have := Nat.mod_lt va (show 0 < PGSIZE by decide)
  omega

end Xv6.Vm
