import Xv6.DiskFormat
import Xv6.Resumption

/-!
# The buffer cache and the redo log

`bio.c` and `log.c` as programs of atomic steps. A step contains at most one disk write, so a crash
between two steps is a crash between two block writes. `ι` names the file-system operations that
use the log; the history they leave is kept in `trace`.
-/

namespace Xv6

open Resumption ByteLayout

/-- Why kernel code does not continue: a panic, a wait for another process, or an access outside a
C array. -/
inductive Stop
  | panic (msg : String)
  | sleep
  | overrun
  deriving DecidableEq

structure Buf where
  data : Block
  dirty : Bool
  busy : Bool

structure Log where
  start : ℕ
  size : ℕ
  outstanding : ℕ
  committing : Bool
  lh : List UInt32

inductive LogEvent (ι : Type)
  | beginOp (i : ι)
  | modify (i : ι) (b : UInt32) (f : Block → Block)
  | logWrite (i : ι) (b : UInt32)
  | endOp (i : ι)
  | bwrite (b : ℕ) (data : Block)
  | commitDone

/-- The disk and the kernel memory that the log uses. The cache is a map from block numbers: the
number of buffers does not matter here, since which clean buffer `bget` recycles is left open. -/
structure LogState (ι : Type) where
  disk : ℕ → Block
  bcache : ℕ → Option Buf
  log : Log
  trace : List (LogEvent ι)

abbrev LogM (ι : Type) := EStateM Stop (LogState ι)

abbrev LogProg (ι : Type) := Prog Stop (LogState ι)

variable {ι : Type}

namespace LogState

def setBuf (s : LogState ι) (b : ℕ) (buf : Option Buf) : LogState ι :=
  { s with bcache := Function.update s.bcache b buf }

/-- Change the buffer of a cached block. -/
def mapBuf (s : LogState ι) (b : ℕ) (f : Buf → Buf) : LogState ι := s.setBuf b ((s.bcache b).map f)

def setLh (s : LogState ι) (lh : List UInt32) : LogState ι := { s with log := { s.log with lh := lh } }

def emit (s : LogState ι) (e : LogEvent ι) : LogState ι := { s with trace := s.trace ++ [e] }

end LogState

/-! ## bio.c -/

def bread (b : ℕ) : LogM ι Block := do
  let s ← get
  match s.bcache b with
  | some buf =>
    if buf.busy then throw .sleep
    else
      set (s.setBuf b (some { buf with busy := true }))
      return buf.data
  | none =>
    set (s.setBuf b (some { data := s.disk b, dirty := false, busy := true }))
    return s.disk b

/-- A store to the data of a buffer that the caller holds. -/
def putData (b : ℕ) (data : Block) : LogM ι Unit :=
  modify fun s => s.mapBuf b fun buf => { buf with data := data }

/-- Write the buffer to its home location. `iderw` clears `B_DIRTY`. -/
def bwrite (b : ℕ) : LogM ι Unit := do
  let s ← get
  match s.bcache b with
  | some buf =>
    if buf.busy then
      set { (s.setBuf b (some { buf with dirty := false })).emit (.bwrite b buf.data) with
        disk := Function.update s.disk b buf.data }
    else throw (.panic "bwrite")
  | none => throw (.panic "bwrite")

def brelse (b : ℕ) : LogM ι Unit := do
  let s ← get
  match s.bcache b with
  | some buf =>
    if buf.busy then set (s.setBuf b (some { buf with busy := false }))
    else throw (.panic "brelse")
  | none => throw (.panic "brelse")

/-- `bget` takes over a clean buffer that nobody holds: the block it cached is forgotten. -/
def recycle (b : ℕ) : LogM ι Unit := do
  let s ← get
  match s.bcache b with
  | some buf => if buf.busy ∨ buf.dirty then throw .sleep else set (s.setBuf b none)
  | none => throw .sleep

/-! ## log.c -/

/-- One round of the loop in `install_trans`. -/
def installBlock (tail : ℕ) : LogM ι Unit := do
  let s ← get
  let dst := (s.log.lh.getD tail 0).toNat
  let lbuf ← bread (s.log.start + tail + 1)
  let _ ← bread dst
  putData dst lbuf
  bwrite dst
  brelse (s.log.start + tail + 1)
  brelse dst

/-- One round of the loop in `write_log`. -/
def writeLogBlock (tail : ℕ) : LogM ι Unit := do
  let s ← get
  let src := (s.log.lh.getD tail 0).toNat
  let _ ← bread (s.log.start + tail + 1)
  let source ← bread src
  putData (s.log.start + tail + 1) source
  bwrite (s.log.start + tail + 1)
  brelse src
  brelse (s.log.start + tail + 1)

def lhCount : LogM ι ℕ := do return (← get).log.lh.length

def setLh (lh : List UInt32) : LogM ι Unit :=
  modify fun s => s.setLh lh

/-- The loop bound `log.lh.n` is read once: nobody changes it while the log commits. -/
def installTrans : LogProg ι Unit := do
  let n ← Prog.atom lhCount
  Prog.upTo (fun tail => Prog.atom (installBlock tail)) n 0

def readHead : LogM ι Unit := do
  let start := (← get).log.start
  let buf ← bread start
  let n := headerCount buf
  if 2 ^ 31 ≤ n.toNat then setLh []
  else if LOGSIZE < n.toNat then throw .overrun
  else setLh (headerBlocks buf n.toNat)
  brelse start

def writeHead : LogM ι Unit := do
  let log := (← get).log
  let buf ← bread log.start
  putData log.start (setHeader buf log.lh)
  bwrite log.start
  brelse log.start

def recoverFromLog : LogProg ι Unit := do
  Prog.atom readHead
  installTrans
  Prog.atom (setLh [])
  Prog.atom writeHead

/-- Admission to the log. Both waiting branches are the same wait. -/
def beginOp (i : ι) : LogM ι Unit := do
  let s ← get
  if s.log.committing then throw .sleep
  else if s.log.lh.length + (s.log.outstanding + 1) * MAXOPBLOCKS > LOGSIZE then throw .sleep
  else set ({ s with log := { s.log with outstanding := s.log.outstanding + 1 } }.emit (.beginOp i))

def writeLog : LogProg ι Unit := do
  let n ← Prog.atom lhCount
  Prog.upTo (fun tail => Prog.atom (writeLogBlock tail)) n 0

def commit : LogProg ι Unit := do
  let n ← Prog.atom lhCount
  if n > 0 then
    writeLog
    Prog.atom writeHead
    installTrans
    Prog.atom (setLh [])
    Prog.atom writeHead

/-- The first critical section of `end_op`; returns `do_commit`. -/
def leaveOp (i : ι) : LogM ι Bool := do
  let s ← get
  let outstanding := s.log.outstanding - 1
  if s.log.committing then throw (.panic "log.committing")
  else if outstanding = 0 then
    set ({ s with log := { s.log with outstanding := 0, committing := true } }.emit (.endOp i))
    return true
  else
    set ({ s with log := { s.log with outstanding := outstanding } }.emit (.endOp i))
    return false

def endCommit : LogM ι Unit :=
  modify fun s => { s with log := { s.log with committing := false } }.emit .commitDone

def endOp (i : ι) : LogProg ι Unit := do
  let doCommit ← Prog.atom (leaveOp i)
  if doCommit then
    commit
    Prog.atom endCommit

/-- Log absorption: a block already in the header keeps its slot. -/
def absorb (lh : List UInt32) (b : UInt32) : List UInt32 := if b ∈ lh then lh else lh ++ [b]

/-- The two tests at the head of `log_write`. They are made before `log.lock` is taken. -/
def logWriteTest : LogM ι Unit := do
  let s ← get
  if s.log.lh.length ≥ LOGSIZE ∨ s.log.lh.length ≥ s.log.size - 1 then
    throw (.panic "too big a transaction")
  else if s.log.outstanding < 1 then throw (.panic "log_write outside of trans")
  else return ()

/-- The part of `log_write` under `log.lock`. -/
def logWriteLocked (i : ι) (b : UInt32) : LogM ι Unit := do
  let s ← get
  if LOGSIZE < (absorb s.log.lh b).length then throw .overrun
  else
    set (((s.mapBuf b.toNat fun buf => { buf with dirty := true }).setLh
      (absorb s.log.lh b)).emit (.logWrite i b))

def logWrite (i : ι) (b : UInt32) : LogProg ι Unit := do
  Prog.atom logWriteTest
  Prog.atom (logWriteLocked i b)

/-! ## Users of the log -/

/-- Change a block that the operation holds. -/
def modifyBlock (i : ι) (b : UInt32) (f : Block → Block) : LogM ι Unit :=
  modify fun s =>
    (s.mapBuf b.toNat fun buf => { buf with data := f buf.data }).emit (.modify i b f)

/-- The typical use of `log_write` that its comment describes. -/
def loggedWrite (i : ι) (b : UInt32) (f : Block → Block) : LogProg ι Unit := do
  let _ ← Prog.atom (bread b.toNat)
  Prog.atom (modifyBlock i b f)
  logWrite i b
  Prog.atom (brelse b.toNat)

def loggedWrites (i : ι) : List (UInt32 × (Block → Block)) → LogProg ι Unit
  | [] => pure ()
  | (b, f) :: ws => do
    loggedWrite i b f
    loggedWrites i ws

/-- A file-system operation: a bracketed sequence of logged block modifications. -/
def operation (i : ι) (ws : List (UInt32 × (Block → Block))) : LogProg ι Unit := do
  Prog.atom (beginOp i)
  loggedWrites i ws
  endOp i

end Xv6
