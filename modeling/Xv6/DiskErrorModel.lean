import Xv6.BufferCache

/-!
# A disk with errors

`bget`, `bread`, `bwrite`, `iderw` and `ideintr` over a device that may end any command with an error
status. A critical section is one step, a `sleep` waits for its condition, and the interrupt handler runs
in a thread of its own. `held` and `trace` are not kernel state.
-/

namespace Xv6.Bio.DiskErrors

open Resumption

/-- A command has the drive and the block, and the data of a write. -/
inductive Device
  | idle
  | busy (k : Key) (data : Option Block)
  | raised (k : Key) (data : Option Block) (err : Bool)

/-- A buffer is recycled, `insl` fills a buffer from the register, a read or a write ends, `bread`
returns a buffer. -/
inductive Event
  | assigned (n : Fin NBUF) (k : Key)
  | loaded (n : Fin NBUF) (k : Key)
  | failed (n : Fin NBUF)
  | written (n : Fin NBUF) (k : Key)
  | returned (n : Fin NBUF) (k : Key) (valid : Bool)
deriving DecidableEq

/-- `reg` is the data register of the device with the block that its contents are from. -/
structure State (ι : Type) where
  buf : Fin NBUF → Buf
  mru : List (Fin NBUF)
  queue : List (Fin NBUF)
  device : Device
  reg : Key × Block
  disk : Key → Block
  havedisk1 : Bool
  held : ι → Fin NBUF → Bool
  trace : List Event

variable {ι : Type} [DecidableEq ι]

abbrev M (ι : Type) := EStateM Stop (State ι)

abbrev P (ι : Type) := Prog Stop (State ι)

namespace State

def setBuf (s : State ι) (n : Fin NBUF) (b : Buf) : State ι :=
  { s with buf := Function.update s.buf n b }

def hold (s : State ι) (i : ι) (n : Fin NBUF) (h : Bool) : State ι :=
  { s with held := Function.update s.held i (Function.update (s.held i) n h) }

def emit (s : State ι) (e : Event) : State ι := { s with trace := s.trace ++ [e] }

def lookup (s : State ι) (dev blockno : UInt32) : Option (Fin NBUF) :=
  s.mru.find? fun n => decide ((s.buf n).dev = dev ∧ (s.buf n).blockno = blockno)

def victim (s : State ι) : Option (Fin NBUF) :=
  s.mru.reverse.find? fun n => decide ((s.buf n).busy = false ∧ (s.buf n).dirty = false)

end State

def boot (disk : Key → Block) : State ι where
  buf := fun _ => ⟨NODEV, 0, false, false, false, .zero⟩
  mru := (List.finRange NBUF).reverse
  queue := []
  device := .idle
  reg := ((0, 0), .zero)
  disk := disk
  havedisk1 := true
  held := fun _ _ => false
  trace := []

/-! ## ide.c -/

def idestart (n : Fin NBUF) : M ι Unit := do
  let b := (← get).buf n
  if b.blockno.toNat ≥ FSSIZE then throw (.panic "incorrect blockno")
  else modify fun s => { s with device := .busy b.sector (if b.dirty then some b.data else none) }

/-- `iderw` up to its loop. -/
def iderwStart (n : Fin NBUF) : M ι Unit := do
  let s ← get
  let b := s.buf n
  if b.busy = false then throw (.panic "iderw: buf not busy")
  else if b.valid = true ∧ b.dirty = false then throw (.panic "iderw: nothing to do")
  else if b.dev ≠ 0 ∧ s.havedisk1 = false then throw (.panic "iderw: ide disk 1 not present")
  else
    set { s with queue := s.queue ++ [n] }
    if s.queue = [] then idestart n else pure ()

/-- The loop of `iderw`. -/
def iderwWait (n : Fin NBUF) : M ι Unit := do
  let b := (← get).buf n
  if ¬ (b.valid = true ∧ b.dirty = false) then throw .sleep else pure ()

def iderw (n : Fin NBUF) : P ι Unit := do
  Prog.atom (iderwStart n)
  Prog.atom (iderwWait n)

/-- The device ends its command. With an error, the register has some contents and a write has left
some contents on the disk. -/
def complete (err : Bool) (noise : Key × Block) : M ι Unit := do
  let s ← get
  match s.device with
  | .busy k none =>
    set { s with device := .raised k none err, reg := if err then noise else (k, s.disk k) }
  | .busy k (some data) =>
    set { s with
      device := .raised k (some data) err
      reg := noise
      disk := Function.update s.disk k (if err then noise.2 else data) }
  | _ => throw .sleep

/-- `ideintr` reads the data of the first buffer, and marks it valid in any case. -/
def ideintrTake (n : Fin NBUF) (rest : List (Fin NBUF)) (k : Key) (err : Bool) : M ι Unit := do
  let s ← get
  let b := s.buf n
  let b' := { b with valid := true, dirty := false }
  let s' := { s with queue := rest, device := .idle }
  if b.dirty = false ∧ err = false then
    set ((s'.setBuf n { b' with data := s.reg.2 }).emit (.loaded n s.reg.1))
  else if b.dirty = false then set ((s'.setBuf n b').emit (.failed n))
  else if err = false then set ((s'.setBuf n b').emit (.written n k))
  else set (s'.setBuf n b')

def ideintr : M ι Unit := do
  let s ← get
  match s.device, s.queue with
  | .raised k _ err, n :: rest =>
    ideintrTake n rest k err
    match rest with
    | [] => pure ()
    | m :: _ => idestart m
  | .raised _ _ _, [] => set { s with device := .idle }
  | _, _ => throw .sleep

/-! ## bio.c -/

def bget (i : ι) (dev blockno : UInt32) : M ι (Fin NBUF) := do
  let s ← get
  match s.lookup dev blockno with
  | some n =>
    if (s.buf n).busy then throw .sleep
    else
      set ((s.setBuf n { s.buf n with busy := true }).hold i n true)
      return n
  | none =>
    match s.victim with
    | some n =>
      set (((s.setBuf n ⟨dev, blockno, true, false, false, (s.buf n).data⟩).hold i n true).emit
        (.assigned n (dev, blockno)))
      return n
    | none => throw (.panic "bget: no buffers")

def isValid (n : Fin NBUF) : M ι Bool := do return ((← get).buf n).valid

def bread (i : ι) (dev blockno : UInt32) : P ι Unit := do
  let n ← Prog.atom (bget i dev blockno)
  let valid ← Prog.atom (isValid n)
  if valid then pure () else iderw n
  Prog.atom (modify fun s => s.emit (.returned n (dev, blockno) (s.buf n).valid))

def markDirty (n : Fin NBUF) : M ι Unit := do
  let s ← get
  if (s.buf n).busy = false then throw (.panic "bwrite")
  else set (s.setBuf n { s.buf n with dirty := true })

def bwrite (n : Fin NBUF) : P ι Unit := do
  Prog.atom (markDirty n)
  iderw n

def brelse (i : ι) (n : Fin NBUF) : M ι Unit := do
  let s ← get
  if (s.buf n).busy = false then throw (.panic "brelse")
  else set { (s.setBuf n { s.buf n with busy := false }).hold i n false with mru := n :: s.mru.erase n }

/-- A store to the data of a buffer. -/
def change (n : Fin NBUF) (f : Block → Block) : M ι Unit :=
  modify fun s => s.setBuf n { s.buf n with data := f (s.buf n).data }

/-- `log_write` marks a buffer that it keeps in the cache. -/
def pin (n : Fin NBUF) : M ι Unit := modify fun s => s.setBuf n { s.buf n with dirty := true }

/-! ## Runs -/

inductive Op
  | bread (dev blockno : UInt32)
  | change (n : Fin NBUF) (f : Block → Block)
  | pin (n : Fin NBUF)
  | bwrite (n : Fin NBUF)
  | brelse (n : Fin NBUF)
  | complete (err : Bool) (noise : Key × Block)
  | ideintr

def Op.prog (i : ι) : Op → P ι Unit
  | .bread dev blockno => DiskErrors.bread i dev blockno
  | .change n f => Prog.atom (DiskErrors.change n f)
  | .pin n => Prog.atom (DiskErrors.pin n)
  | .bwrite n => DiskErrors.bwrite n
  | .brelse n => Prog.atom (DiskErrors.brelse i n)
  | .complete err noise => Prog.atom (DiskErrors.complete err noise)
  | .ideintr => Prog.atom DiskErrors.ideintr

/-- A process uses only the buffers that `bread` has given to it. -/
def Op.Allowed (s : State ι) (i : ι) : Op → Prop
  | .change n _ | .pin n | .bwrite n | .brelse n => s.held i n = true
  | _ => True

def menu (s : State ι) (i : ι) (p : P ι Unit) : Prop := ∃ op : Op, op.Allowed s i ∧ p = op.prog i

def system (disk : Key → Block) : Config ι Stop (State ι) where
  state := boot disk
  thread := fun _ => .ret ()

abbrev Runs (c c' : Config ι Stop (State ι)) : Prop := Reaches (fun _ s => s) menu c c'

end Xv6.Bio.DiskErrors
