import Xv6.MemoryModel

/-!
# Processes and their memory

What `proc.c`, `exec.c`, `sysproc.c` and `pipe.c` do to pages: `fork`, `exec`, `sbrk`, `exit`, `wait`
and the two ends of a pipe. A call runs without interruption here, but any allocation in it may be
refused. The file that `exec` loads is given by what `readi` returns for it.
-/

namespace Xv6.Vm

open Resumption ByteLayout

abbrev NPROC : ℕ := 64
abbrev MAXARG : ℕ := 32

scoped instance neZero_NPROC : NeZero NPROC := ⟨by decide⟩

inductive ProcState
  | unused
  | embryo
  | runnable
  | zombie
deriving DecidableEq

/-- `eip` and `esp` are those of the trap frame. -/
structure Proc where
  state : ProcState
  parent : Option (Fin NPROC)
  kstack : Option ℕ
  pgdir : Option ℕ
  sz : UInt32
  eip : UInt32
  esp : UInt32
  name : List UInt8

/-- Which ends of a pipe are open. -/
structure PipeEnds where
  readopen : Bool
  writeopen : Bool
deriving DecidableEq

/-- `pipe` is indexed by the page that holds the pipe. -/
structure State where
  mem : Mem
  kpgdir : Option ℕ
  proc : Fin NPROC → Proc
  pipe : ℕ → Option PipeEnds
  cur : Fin NPROC

abbrev M := EStateM Stop State

def State.setProc (s : State) (p : Fin NPROC) (x : Proc) : State :=
  { s with proc := Function.update s.proc p x }

/-- Run a function of `vm.c` or `kalloc.c`. -/
def onMem {α : Type} (f : MemM α) : M α := fun s =>
  match f s.mem with
  | .ok a m => .ok a { s with mem := m }
  | .error e m => .error e { s with mem := m }

variable [Link]

def getProc : M Proc := do
  let s ← get
  return s.proc s.cur

def setProc (p : Fin NPROC) (x : Proc) : M Unit := modify fun s => s.setProc p x

/-! ## Creating processes -/

/-- The process table is scanned for an unused slot; without memory for a kernel stack the slot stays
unused. -/
def allocproc : M (Option (Fin NPROC)) := do
  let s ← get
  match (List.finRange NPROC).find? fun p => decide ((s.proc p).state = .unused) with
  | none => return none
  | some p =>
    match ← onMem kalloc with
    | none =>
      setProc p { s.proc p with kstack := none, state := .unused }
      return none
    | some kstack =>
      setProc p { s.proc p with kstack := some kstack, state := .embryo }
      return some p

def initproc : Fin NPROC := 0

def kvmalloc : M Unit := do
  let d ← onMem setupkvm
  modify fun s => { s with kpgdir := d }

/-- One kernel stack for each other processor. -/
def startothers (ncpu : ℕ) : M Unit := onMem ((List.range ncpu).forM fun _ => do let _ ← kalloc)

/-- `initcode` is the program linked into the kernel. -/
def userinit (initcode : List UInt8) : M Unit := do
  match ← allocproc with
  | none => throw .overrun
  | some p =>
    match ← onMem setupkvm with
    | none => throw (.panic "userinit: out of memory?")
    | some d =>
      onMem (inituvm d initcode)
      let s ← get
      setProc p { s.proc p with
        pgdir := some d, sz := UInt32.ofNat PGSIZE, eip := 0, esp := UInt32.ofNat PGSIZE,
        state := .runnable }

/-- The memory part of `main`, with `ncpu` other processors. -/
def main (initcode : List UInt8) (ncpu : ℕ) : M Unit := do
  onMem (freerange Link.endPage (4 * 1024 * 1024 / PGSIZE))
  kvmalloc
  startothers ncpu
  onMem (freerange (4 * 1024 * 1024 / PGSIZE) (PHYSTOP / PGSIZE))
  userinit initcode

/-! ## System calls -/

/-- `false` stands for the result -1. -/
def growproc (n : Int32) : M Bool := do
  let p ← getProc
  match p.pgdir with
  | none => throw .overrun
  | some d =>
    let sz ← if n > 0 then onMem (allocuvm d p.sz (p.sz + n.toUInt32))
      else if n < 0 then onMem (deallocuvm d p.sz (p.sz + n.toUInt32))
      else pure p.sz
    if n ≠ 0 ∧ sz = 0 then return false
    else
      let s ← get
      setProc s.cur { s.proc s.cur with sz := sz }
      return true

/-- `fork`; the child is named by its slot. -/
def fork : M (Option (Fin NPROC)) := do
  match ← allocproc with
  | none => return none
  | some np =>
    let p ← getProc
    match p.pgdir with
    | none => throw .overrun
    | some d =>
      match ← onMem (copyuvm d p.sz) with
      | none =>
        let s ← get
        match (s.proc np).kstack with
        | none => throw .overrun
        | some kstack =>
          onMem (kfree kstack)
          let s ← get
          setProc np { s.proc np with pgdir := none, kstack := none, state := .unused }
          return none
      | some d' =>
        let s ← get
        setProc np { s.proc np with
          pgdir := some d', sz := p.sz, parent := some s.cur, eip := p.eip, esp := p.esp,
          name := p.name, state := .runnable }
        return some np

/-- `exit` after files and the current directory have been dropped. -/
def exit : M Unit := do
  let s ← get
  if s.cur = initproc then throw (.panic "init exiting")
  else
    modify fun s => { s with proc := fun p =>
      let x := if (s.proc p).parent = some s.cur then { s.proc p with parent := some initproc }
        else s.proc p
      if p = s.cur then { x with state := .zombie } else x }

/-- `wait`; the child is named by its slot. -/
def wait : M (Option (Fin NPROC)) := do
  let s ← get
  match (List.finRange NPROC).find? fun p =>
      decide ((s.proc p).parent = some s.cur ∧ (s.proc p).state = .zombie) with
  | some p =>
    match (s.proc p).kstack with
    | none => throw .overrun
    | some kstack =>
      onMem (kfree kstack)
      onMem (freevm (s.proc p).pgdir)
      setProc p { s.proc p with kstack := none, parent := none, name := [], state := .unused }
      return some p
  | none =>
    if (List.finRange NPROC).any fun p => decide ((s.proc p).parent = some s.cur) then throw .sleep
    else return none

/-! ## exec -/

/-- What `readi` returns for the file at an offset and a length; `stale` is the garbage in `elf`
before it is read. -/
structure ElfFile where
  read : UInt32 → UInt32 → Option (List UInt8)
  stale : List UInt8

abbrev ELF_MAGIC : UInt32 := 0x464C457F
abbrev ELF_PROG_LOAD : UInt32 := 1
abbrev ELFHDRSIZE : ℕ := 52
abbrev PROGHDRSIZE : ℕ := 32

/-- The loop of `loaduvm`, from byte `i` of a segment of `sz` bytes on. A short read stores what it
has read. -/
def loadLoop (f : ElfFile) (d : ℕ) (addr offset : UInt32) (sz i : ℕ) : MemM Bool :=
  if i < sz then do
    match ← walkpgdir d ((addr.toNat + i) / PGSIZE) false with
    | none => throw (.panic "loaduvm: address should exist")
    | some (t, j) =>
      let pte ← word t j
      let n := min (sz - i) PGSIZE
      match f.read (offset + UInt32.ofNat i) (UInt32.ofNat n) with
      | none => return false
      | some l =>
        modify fun m => m.setPage (PTE_ADDR pte)
          ((m.page (PTE_ADDR pte)).write 0 (min l.length n) fun b => l.getD b 0)
        if l.length ≠ n then return false else loadLoop f d addr offset sz (i + PGSIZE)
  else return true
termination_by sz - i
decreasing_by simp only [PGSIZE]; omega

def loaduvm (f : ElfFile) (d : ℕ) (addr offset sz : UInt32) : MemM Bool := do
  if addr.toNat % PGSIZE ≠ 0 then throw (.panic "loaduvm: addr must be page aligned")
  else loadLoop f d addr offset sz.toNat 0

/-- The loop of `exec` over `n` program headers from number `i` on; the result is the size of the
image, and `none` stands for the label `bad`. -/
def loadSegments (f : ElfFile) (d : ℕ) (phoff : UInt32) : ℕ → ℕ → UInt32 → MemM (Option UInt32)
  | 0, _, sz => return some sz
  | n + 1, i, sz => do
    match f.read (phoff + UInt32.ofNat (PROGHDRSIZE * i)) (UInt32.ofNat PROGHDRSIZE) with
    | none => return none
    | some l =>
      if l.length ≠ PROGHDRSIZE then return none
      else
        let ph : Bytes := fun j => l.getD j 0
        if get32 ph 0 ≠ ELF_PROG_LOAD then loadSegments f d phoff n (i + 1) sz
        else if get32 ph 20 < get32 ph 16 then return none
        else if get32 ph 8 + get32 ph 20 < get32 ph 8 then return none
        else
          let sz ← allocuvm d sz (get32 ph 8 + get32 ph 20)
          if sz = 0 then return none
          else if (get32 ph 8).toNat % PGSIZE ≠ 0 then return none
          else if ← loaduvm f d (get32 ph 8) (get32 ph 4) (get32 ph 16) then
            loadSegments f d phoff n (i + 1) sz
          else return none

/-- The loop that copies the argument strings to the stack below `sp`: the new stack pointer and the
addresses of the strings. -/
def pushArgs (c d : ℕ) :
    List (List UInt8) → UInt32 → List UInt32 → MemM (Option (UInt32 × List UInt32))
  | [], sp, ptrs => return some (sp, ptrs)
  | s :: ss, sp, ptrs => do
    if ptrs.length ≥ MAXARG then return none
    else
      let sp := (sp - UInt32.ofNat (s.length + 1)) &&& ~~~3
      if ← copyout c d sp.toNat (fun i => s.getD i 0) (s.length + 1) then
        pushArgs c d ss sp (ptrs ++ [sp])
      else return none

/-- The words below the strings: fake return address, `argc`, `argv` and the null-terminated
array. -/
def ustack (sp : UInt32) (ptrs : List UInt32) : List UInt32 :=
  [0xFFFFFFFF, UInt32.ofNat ptrs.length, sp - UInt32.ofNat ((ptrs.length + 1) * 4)] ++ ptrs ++ [0]

def wordBytes (ws : List UInt32) : Bytes := fun i => leByte (ws.getD (i / 4) 0).toNat (i % 4)

/-- The stack of the new image in the two pages at its end, the lower one made inaccessible: the size
of the image and the stack pointer. -/
def buildStack (c d : ℕ) (sz : UInt32) (argv : List (List UInt8)) :
    MemM (Option (UInt32 × UInt32)) := do
  let sz ← allocuvm d (PGROUNDUP sz) (PGROUNDUP sz + UInt32.ofNat (2 * PGSIZE))
  if sz = 0 then return none
  else
    clearpteu d ((sz.toNat - 2 * PGSIZE) / PGSIZE)
    match ← pushArgs c d argv sz [] with
    | none => return none
    | some (sp, ptrs) =>
      let sp' := sp - UInt32.ofNat ((3 + ptrs.length + 1) * 4)
      if ← copyout c d sp'.toNat (wordBytes (ustack sp ptrs)) ((3 + ptrs.length + 1) * 4) then
        return some (sz, sp')
      else return none

/-- What `exec` gets from the header of the file: the whole header or, after an error, stale bytes;
the comparison `readi(...) < sizeof(elf)` is one of unsigned values. -/
def readHeader (f : ElfFile) : Option Bytes :=
  let r := f.read 0 (UInt32.ofNat ELFHDRSIZE)
  let elf : Bytes := fun j => (r.getD f.stale).getD j 0
  if (r.map List.length).getD ELFHDRSIZE < ELFHDRSIZE then none
  else if get32 elf 0 ≠ ELF_MAGIC then none
  else some elf

/-- Fill the new directory `d` while `c` is loaded: program, stack and arguments. -/
def loadImage (f : ElfFile) (c d : ℕ) (elf : Bytes) (argv : List (List UInt8)) :
    MemM (Option (UInt32 × UInt32)) := do
  match ← loadSegments f d (get32 elf 28) (get16 elf 44).toNat 0 0 with
  | none => return none
  | some sz => buildStack c d sz argv

/-- The new image in memory: the directory, the size and the stack pointer. -/
def newImage (f : ElfFile) (c : ℕ) (elf : Bytes) (argv : List (List UInt8)) :
    MemM (Option (ℕ × UInt32 × UInt32)) := do
  match ← setupkvm with
  | none => return none
  | some d =>
    match ← loadImage f c d elf argv with
    | none =>
      freevm (some d)
      return none
    | some (sz, sp) => return some (d, sz, sp)

/-- The last element of the path. -/
def baseName (path : List UInt8) : List UInt8 := (path.reverse.takeWhile (· ≠ 47)).reverse

/-- `exec` of a path; `file` is `none` if the path cannot be resolved, and the strings of `argv` are
those that the process has in its memory when it makes the call. `false` stands for the result -1. -/
def exec (path : List UInt8) (file : Option ElfFile) (argv : List (List UInt8)) : M Bool := do
  match file with
  | none => return false
  | some f =>
    match readHeader f with
    | none => return false
    | some elf =>
      let p ← getProc
      match p.pgdir with
      | none => throw .overrun
      | some c =>
        match ← onMem (newImage f c elf argv) with
        | none => return false
        | some (d, sz, sp) =>
          let s ← get
          setProc s.cur { p with
            pgdir := some d, sz := sz, eip := get32 elf 24, esp := sp,
            name := (baseName path).take 15 }
          onMem (freevm p.pgdir)
          return true

/-! ## Pipes -/

/-- `pipealloc` once both files are allocated. -/
def pipealloc : M (Option ℕ) := do
  match ← onMem kalloc with
  | none => return none
  | some pg =>
    modify fun s => { s with pipe := Function.update s.pipe pg (some ⟨true, true⟩) }
    return some pg

/-- `pipeclose` of one end of the pipe in page `pg`. -/
def pipeclose (pg : ℕ) (writable : Bool) : M Unit := do
  let s ← get
  match s.pipe pg with
  | none => throw .overrun
  | some e =>
    let e : PipeEnds := if writable then { e with writeopen := false } else { e with readopen := false }
    if e.readopen = false ∧ e.writeopen = false then
      modify fun s => { s with pipe := Function.update s.pipe pg none }
      onMem (kfree pg)
    else modify fun s => { s with pipe := Function.update s.pipe pg (some e) }

/-! ## The system -/

/-- What the process does to its own memory between two calls, for one page: the page must be
writable for it. -/
def store (v : ℕ) (x : Page) : M Bool := do
  let p ← getProc
  match p.pgdir with
  | none => return false
  | some d =>
    match ← onMem (walkpgdir d v false) with
    | none => return false
    | some (t, i) =>
      let pte ← onMem (word t i)
      if pte &&& PTE_P = 0 ∨ pte &&& PTE_W = 0 ∨ pte &&& PTE_U = 0 then return false
      else
        onMem (modify fun m => m.setPage (PTE_ADDR pte) x)
        return true

inductive Call
  | fork
  | exec (path : List UInt8) (file : Option ElfFile) (argv : List (List UInt8))
  | sbrk (n : Int32)
  | exit
  | wait
  | pipe
  | pipeclose (pg : ℕ) (writable : Bool)
  | store (v : Fin (2 ^ 20)) (x : Page)

/-- The result is whether the call succeeds. -/
def Call.run : Call → M Bool
  | .fork => Option.isSome <$> Vm.fork
  | .exec path file argv => Vm.exec path file argv
  | .sbrk n => growproc n
  | .exit => do
    Vm.exit
    return true
  | .wait => Option.isSome <$> Vm.wait
  | .pipe => Option.isSome <$> pipealloc
  | .pipeclose pg writable => do
    Vm.pipeclose pg writable
    return true
  | .store v x => Vm.store v x

end Xv6.Vm
