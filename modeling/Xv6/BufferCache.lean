import Xv6.LogModel

/-!
# The buffer cache with its buffers

`bio.c` with a fixed number of buffers in most-recently-used order, and `log.c` on top of it. What
`bget` finds depends on the buffers here, and disk transfers are steps of their own: a process that
waits for the disk holds its buffer meanwhile.

Processes use the cache through the calls in `Op`, in any order and interleaving. `held`, `inOp`,
`logged` and `trace` are not kernel state: they record what each process has done.
-/

namespace Xv6.Bio

open Resumption ByteLayout

abbrev NBUF : ℕ := MAXOPBLOCKS * 3

/-- `dev` of a buffer that has never been used. -/
abbrev NODEV : UInt32 := 0xFFFFFFFF

/-- `log.dev`. -/
abbrev logDev : UInt32 := UInt32.ofNat ROOTDEV

structure Buf where
  dev : UInt32
  blockno : UInt32
  busy : Bool
  valid : Bool
  dirty : Bool
  data : Block

/-- Device and block number. -/
abbrev Key := UInt32 × UInt32

def Buf.key (b : Buf) : Key := (b.dev, b.blockno)

/-- Where the block is on the two disks of the IDE controller. -/
def Buf.sector (b : Buf) : Key := (b.dev &&& 1, b.blockno)

/-- What the holder of a buffer has done with it since `bread` returned it. -/
inductive Mode
  | fetched
  | modified
  | logged
  | written
  | rewritten
deriving DecidableEq

/-- The holder stores to the data. -/
def Mode.change : Mode → Mode
  | .fetched => .modified
  | .written => .rewritten
  | m => m

/-- The holder has called `log_write` or `bwrite`. -/
def Mode.wrote : Mode → Bool
  | .fetched => false
  | .modified => false
  | _ => true

/-- Nothing has been stored that `log_write` or `bwrite` has not taken care of. -/
def Mode.saved : Mode → Bool
  | .modified => false
  | .rewritten => false
  | _ => true

/-- `bread` has returned a block, or a holder that had called `log_write` or `bwrite` has released
one. -/
inductive Event
  | returned (k : Key) (data : Block)
  | released (k : Key) (data : Block)

/-- `mru` lists the buffers from `bcache.head.next` on. -/
structure State (ι : Type) where
  buf : Fin NBUF → Buf
  mru : List (Fin NBUF)
  disk : Key → Block
  havedisk1 : Bool
  log : Log
  held : ι → Fin NBUF → Option Mode
  inOp : ι → Bool
  logged : ι → List UInt32
  trace : List Event

variable {ι : Type} [DecidableEq ι]

abbrev M (ι : Type) := EStateM Stop (State ι)

abbrev P (ι : Type) := Prog Stop (State ι)

namespace State

def setBuf (s : State ι) (n : Fin NBUF) (b : Buf) : State ι :=
  { s with buf := Function.update s.buf n b }

def hold (s : State ι) (i : ι) (n : Fin NBUF) (m : Option Mode) : State ι :=
  { s with held := Function.update s.held i (Function.update (s.held i) n m) }

def emit (s : State ι) (e : Event) : State ι := { s with trace := s.trace ++ [e] }

/-- The buffer that `bget` finds for a block. -/
def lookup (s : State ι) (dev blockno : UInt32) : Option (Fin NBUF) :=
  s.mru.find? fun n => decide ((s.buf n).dev = dev ∧ (s.buf n).blockno = blockno)

/-- The buffer that `bget` recycles: the least recently used one that is neither busy nor dirty. -/
def victim (s : State ι) : Option (Fin NBUF) :=
  s.mru.reverse.find? fun n => decide ((s.buf n).busy = false ∧ (s.buf n).dirty = false)

end State

/-- The machine after `binit` and `initlog`, on a disk with an empty log. -/
def boot (start size : ℕ) (disk : Key → Block) : State ι where
  buf := fun _ => ⟨NODEV, 0, false, false, false, .zero⟩
  mru := (List.finRange NBUF).reverse
  disk := disk
  havedisk1 := true
  log := ⟨start, size, 0, false, []⟩
  held := fun _ _ => none
  inOp := fun _ => false
  logged := fun _ => []
  trace := []

/-! ## bio.c -/

def bget (i : ι) (dev blockno : UInt32) : M ι (Fin NBUF) := do
  let s ← get
  match s.lookup dev blockno with
  | some n =>
    if (s.buf n).busy then throw .sleep
    else
      set ((s.setBuf n { s.buf n with busy := true }).hold i n (some .fetched))
      return n
  | none =>
    match s.victim with
    | some n =>
      set ((s.setBuf n ⟨dev, blockno, true, false, false, (s.buf n).data⟩).hold i n (some .fetched))
      return n
    | none => throw (.panic "bget: no buffers")

/-- One disk transfer, from the request to the interrupt that ends it. -/
def iderw (n : Fin NBUF) : M ι Unit := do
  let s ← get
  let b := s.buf n
  if b.busy = false then throw (.panic "iderw: buf not busy")
  else if b.valid = true ∧ b.dirty = false then throw (.panic "iderw: nothing to do")
  else if b.dev ≠ 0 ∧ s.havedisk1 = false then throw (.panic "iderw: ide disk 1 not present")
  else if b.blockno.toNat ≥ FSSIZE then throw (.panic "incorrect blockno")
  else if b.dirty then
    set { s.setBuf n { b with valid := true, dirty := false } with
      disk := Function.update s.disk b.sector b.data }
  else set (s.setBuf n { b with valid := true, data := s.disk b.sector })

/-- The second half of `bread`. -/
def fill (n : Fin NBUF) : M ι Unit := do
  if ((← get).buf n).valid then pure () else iderw n
  modify fun s => s.emit (.returned (s.buf n).key (s.buf n).data)

def bread (i : ι) (dev blockno : UInt32) : P ι (Fin NBUF) := do
  let n ← Prog.atom (bget i dev blockno)
  Prog.atom (fill n)
  return n

/-- The first half of `bwrite`. -/
def markDirty (n : Fin NBUF) : M ι Unit := do
  let s ← get
  if (s.buf n).busy = false then throw (.panic "bwrite")
  else set (s.setBuf n { s.buf n with dirty := true })

/-- The second half of `bwrite`. -/
def flush (i : ι) (n : Fin NBUF) : M ι Unit := do
  iderw n
  modify fun s => s.hold i n (some .written)

def bwrite (i : ι) (n : Fin NBUF) : P ι Unit := do
  Prog.atom (markDirty n)
  Prog.atom (flush i n)

def brelse (i : ι) (n : Fin NBUF) : M ι Unit := do
  let s ← get
  if (s.buf n).busy = false then throw (.panic "brelse")
  else
    let s' := if ((s.held i n).map Mode.wrote).getD false
      then s.emit (.released (s.buf n).key (s.buf n).data) else s
    set { (s'.setBuf n { s.buf n with busy := false }).hold i n none with mru := n :: s.mru.erase n }

/-- A store to the data of a buffer. -/
def change (i : ι) (n : Fin NBUF) (f : Block → Block) : M ι Unit :=
  modify fun s => (s.setBuf n { s.buf n with data := f (s.buf n).data }).hold i n
    ((s.held i n).map Mode.change)

/-! ## log.c -/

def lhCount : M ι ℕ := do return (← get).log.lh.length

/-- The numbers of log block `tail` and of the block it is a copy of. -/
def slot (tail : ℕ) : M ι (UInt32 × UInt32) := do
  let log := (← get).log
  return (UInt32.ofNat (log.start + tail + 1), log.lh.getD tail 0)

/-- `memmove` from one buffer to another. -/
def copyBuf (i : ι) (dst src : Fin NBUF) : M ι Unit := do
  let s ← get
  change i dst fun _ => (s.buf src).data

def installBlock (i : ι) (tail : ℕ) : P ι Unit := do
  let b ← Prog.atom (slot tail)
  let lbuf ← bread i logDev b.1
  let dbuf ← bread i logDev b.2
  Prog.atom (copyBuf i dbuf lbuf)
  bwrite i dbuf
  Prog.atom (brelse i lbuf)
  Prog.atom (brelse i dbuf)

def installTrans (i : ι) : P ι Unit := do
  let n ← Prog.atom lhCount
  Prog.upTo (installBlock i) n 0

def writeLogBlock (i : ι) (tail : ℕ) : P ι Unit := do
  let b ← Prog.atom (slot tail)
  let dst ← bread i logDev b.1
  let src ← bread i logDev b.2
  Prog.atom (copyBuf i dst src)
  bwrite i dst
  Prog.atom (brelse i src)
  Prog.atom (brelse i dst)

def writeLog (i : ι) : P ι Unit := do
  let n ← Prog.atom lhCount
  Prog.upTo (writeLogBlock i) n 0

def headBlock : M ι UInt32 := do return UInt32.ofNat (← get).log.start

def fillHeader (i : ι) (n : Fin NBUF) : M ι Unit := do
  let s ← get
  change i n fun data => setHeader data s.log.lh

def writeHead (i : ι) : P ι Unit := do
  let b ← Prog.atom headBlock
  let n ← bread i logDev b
  Prog.atom (fillHeader i n)
  bwrite i n
  Prog.atom (brelse i n)

def clearLh : M ι Unit := modify fun s => { s with log := { s.log with lh := [] } }

def commit (i : ι) : P ι Unit := do
  let n ← Prog.atom lhCount
  if n > 0 then
    writeLog i
    writeHead i
    installTrans i
    Prog.atom clearLh
    writeHead i

def beginOp (i : ι) : M ι Unit := do
  let s ← get
  if s.log.committing then throw .sleep
  else if s.log.lh.length + (s.log.outstanding + 1) * MAXOPBLOCKS > LOGSIZE then throw .sleep
  else set { s with
    log := { s.log with outstanding := s.log.outstanding + 1 }
    inOp := Function.update s.inOp i true
    logged := Function.update s.logged i [] }

/-- The first critical section of `end_op`; returns `do_commit`. -/
def leaveOp (i : ι) : M ι Bool := do
  let s ← get
  if s.log.committing then throw (.panic "log.committing")
  else
    let last := decide (s.log.outstanding - 1 = 0)
    set { s with
      log := { s.log with outstanding := s.log.outstanding - 1, committing := last }
      inOp := Function.update s.inOp i false }
    return last

def endCommit : M ι Unit := modify fun s => { s with log := { s.log with committing := false } }

def endOp (i : ι) : P ι Unit := do
  if ← Prog.atom (leaveOp i) then
    commit i
    Prog.atom endCommit

/-- The tests at the head of `log_write`, before `log.lock` is taken. -/
def logWriteTest : M ι Unit := do
  let s ← get
  if s.log.lh.length ≥ LOGSIZE ∨ s.log.lh.length ≥ s.log.size - 1 then
    throw (.panic "too big a transaction")
  else if s.log.outstanding < 1 then throw (.panic "log_write outside of trans")
  else return ()

/-- The part of `log_write` under `log.lock`. -/
def logWriteLocked (i : ι) (n : Fin NBUF) : M ι Unit := do
  let s ← get
  let lh := absorb s.log.lh (s.buf n).blockno
  if LOGSIZE < lh.length then throw .overrun
  else set { (s.setBuf n { s.buf n with dirty := true }).hold i n (some .logged) with
    log := { s.log with lh := lh }
    logged := Function.update s.logged i (absorb (s.logged i) (s.buf n).blockno) }

def logWrite (i : ι) (n : Fin NBUF) : P ι Unit := do
  Prog.atom logWriteTest
  Prog.atom (logWriteLocked i n)

/-! ## Processes -/

inductive Op
  | bread (dev blockno : UInt32)
  | change (n : Fin NBUF) (f : Block → Block)
  | logWrite (n : Fin NBUF)
  | bwrite (n : Fin NBUF)
  | brelse (n : Fin NBUF)
  | beginOp
  | endOp

def Op.prog (i : ι) : Op → P ι Unit
  | .bread dev blockno => do let _ ← Bio.bread i dev blockno
  | .change n f => Prog.atom (Bio.change i n f)
  | .logWrite n => Bio.logWrite i n
  | .bwrite n => Bio.bwrite i n
  | .brelse n => Prog.atom (Bio.brelse i n)
  | .beginOp => Prog.atom (Bio.beginOp i)
  | .endOp => Bio.endOp i

/-- Which calls a process may make. -/
abbrev Usage (ι : Type) := State ι → ι → Op → Prop

/-- A process uses the buffers that it holds and does not nest operations. -/
def Holding : Usage ι := fun s i op =>
  match op with
  | .bread _ _ => True
  | .change n _ => s.held i n ≠ none
  | .logWrite n => s.held i n ≠ none
  | .bwrite n => s.held i n ≠ none
  | .brelse n => s.held i n ≠ none
  | .beginOp => s.inOp i = false
  | .endOp => s.inOp i = true

/-- The protocol that `bio.c` and `log.c` describe: besides, blocks are on the two disks, `log_write` is
called inside an operation for a block of the log's device, and a buffer that was stored to is
released only after `log_write` or after a `bwrite` behind the last store. -/
def Disciplined : Usage ι := fun s i op =>
  Holding s i op ∧
  match op with
  | .bread dev _ => dev < 2
  | .logWrite n => s.inOp i = true ∧ (s.buf n).dev = logDev
  | .brelse n => ∀ m, s.held i n = some m → m.saved = true
  | _ => True

def menu (U : Usage ι) (s : State ι) (i : ι) (p : P ι Unit) : Prop := ∃ op, U s i op ∧ p = op.prog i

/-- All processes idle, on a machine that has just started. -/
def system (start size : ℕ) (disk : Key → Block) : Config ι Stop (State ι) where
  state := boot start size disk
  thread := fun _ => .ret ()

/-- Interleavings of processes that keep to `U`. -/
abbrev Runs (U : Usage ι) (c c' : Config ι Stop (State ι)) : Prop :=
  Reaches (fun _ s => s) (menu U) c c'

end Xv6.Bio
