import Xv6.SyscallModel

/-!
# Processes

The file part of `exec.c`, what `fork`, `exit` and `wait` do to open files and current directories,
and the kernel as a whole: any live process may issue any call, and the steps of the calls of all
processes interleave.
-/

namespace Xv6.Fs

open Resumption ByteLayout

/-! ## exec -/

/-- What `exec` gets from the rest of the kernel: the stack garbage in `elf` before it is read,
console input for each `readi`, and the results of the virtual-memory functions. -/
structure ExecEnv where
  stale : List UInt8
  elfInput : Option (List UInt8)
  phInput : ℕ → Option (List UInt8)
  loadInput : ℕ → ℕ → Option (List UInt8)
  setupkvm : Bool
  allocuvm : ℕ → Bool
  stackOk : Bool

abbrev ELF_MAGIC : UInt32 := 0x464C457F
abbrev ELF_PROG_LOAD : UInt32 := 1
abbrev ELFHDRSIZE : ℕ := 52
abbrev PROGHDRSIZE : ℕ := 32
abbrev PGSIZE : ℕ := 4096

/-- The loop of `loaduvm`, from byte `i` of a segment of `sz` bytes on. -/
def loaduvm (input : ℕ → Option (List UInt8)) (ip : Fin NINODE) (offset : UInt32) (sz i : ℕ) :
    FsProg Bool :=
  if i < sz then do
    let n := min (sz - i) PGSIZE
    let r ← readi (input i) ip (offset + UInt32.ofNat i) (UInt32.ofNat n)
    if (r.map List.length) ≠ some n then return false
    else loaduvm input ip offset sz (i + PGSIZE)
  else return true
termination_by sz - i
decreasing_by simp only [PGSIZE]; omega

/-- The loop of `exec` over `n` program headers from number `i` on. -/
def loadSegments (env : ExecEnv) (ip : Fin NINODE) (phoff : UInt32) : ℕ → ℕ → FsProg Bool
  | 0, _ => return true
  | n + 1, i => do
    let off := phoff + UInt32.ofNat (PROGHDRSIZE * i)
    match ← readi (env.phInput i) ip off (UInt32.ofNat PROGHDRSIZE) with
    | none => return false
    | some l =>
      if l.length ≠ PROGHDRSIZE then return false
      else
        let ph : Bytes := fun j => l.getD j 0
        if get32 ph 0 ≠ ELF_PROG_LOAD then loadSegments env ip phoff n (i + 1)
        else if get32 ph 20 < get32 ph 16 then return false
        else if get32 ph 8 + get32 ph 20 < get32 ph 8 then return false
        else if ¬ env.allocuvm i then return false
        else if (get32 ph 8).toNat % PGSIZE ≠ 0 then return false
        else if ← loaduvm (env.loadInput i) ip (get32 ph 4) (get32 ph 16).toNat 0 then
          loadSegments env ip phoff n (i + 1)
        else return false

/-- The part of `exec` that reads the file; `true` if the whole program is loaded. A result -1 of
the first `readi` passes the test `readi(...) < sizeof(elf)`, which compares unsigned values. -/
def loadProgram (env : ExecEnv) (ip : Fin NINODE) : FsProg Bool := do
  let r ← readi env.elfInput ip 0 (UInt32.ofNat ELFHDRSIZE)
  let elf : Bytes := fun j => (r.getD env.stale).getD j 0
  if (r.map List.length).getD ELFHDRSIZE < ELFHDRSIZE then return false
  else if get32 elf 0 ≠ ELF_MAGIC then return false
  else if ¬ env.setupkvm then return false
  else loadSegments env ip (get32 elf 28) (get16 elf 44).toNat 0

def exec (env : ExecEnv) (path : List UInt8) : FsProg ℤ := do
  beginOp
  match ← namei path with
  | none =>
    endOp
    return -1
  | some ip =>
    Prog.atom (ilock ip)
    let loaded ← loadProgram env ip
    iunlockput ip
    endOp
    return if loaded ∧ env.stackOk then 0 else -1

/-- `arg` is `none` if the path or the argument vector cannot be fetched. -/
def sysExec (env : ExecEnv) (arg : Option CString) : FsProg ℤ := do
  match arg with
  | none => return -1
  | some path => exec env path.1

/-! ## Processes -/

def initproc : Fin NPROC := 0

/-- `filedup` of every open file of the parent. -/
def dupFiles (p : Proc) : List (Fin NOFILE) → M Unit
  | [] => return ()
  | fd :: fds => do
    match p.ofile fd with
    | some f => filedup f
    | none => return ()
    dupFiles p fds

/-- `fork`, which holds `ptable.lock` throughout. `mem` tells whether the memory of the child can be
allocated; the child is named by its slot in the process table. -/
def fork (mem : Bool) : M (Option (Fin NPROC)) := do
  let s ← get
  match (List.finRange NPROC).find? fun p => decide ((s.proc p).state = .unused) with
  | none => return none
  | some np =>
    if ¬ mem then return none
    else
      let parent := s.proc s.cur
      dupFiles parent (List.finRange NOFILE)
      let cwd ← idupCwd
      modify fun s => s.setProc np
        { state := .runnable
          parent := some s.cur
          ofile := fun fd => ((parent.ofile fd).map some).getD ((s.proc np).ofile fd)
          cwd := some cwd }
      return some np

def ofileOf (fd : Fin NOFILE) : M (Option (Fin NFILE)) := do
  let s ← get
  return (s.proc s.cur).ofile fd

/-- The loop of `exit` over the descriptors. -/
def exitFiles : List (Fin NOFILE) → FsProg Unit
  | [] => return ()
  | fd :: fds => do
    match ← Prog.atom (ofileOf fd) with
    | some f =>
      fileclose f
      Prog.atom (setOfile fd none)
    | none => return ()
    exitFiles fds

/-- The end of `exit` under `ptable.lock`. -/
def becomeZombie : M Unit :=
  modify fun s => { s with proc := fun p =>
    let x := if (s.proc p).parent = some s.cur then { s.proc p with parent := some initproc }
      else s.proc p
    if p = s.cur then { x with state := .zombie } else x }

def exit : FsProg Unit := do
  let me ← Prog.atom (do return (← get).cur)
  if me = initproc then Prog.atom (throw (.panic "init exiting"))
  else
    exitFiles (List.finRange NOFILE)
    beginOp
    let cwd ← Prog.atom getCwd
    iput cwd
    endOp
    Prog.atom (setCwd none)
    Prog.atom becomeZombie

def wait : M (Option (Fin NPROC)) := do
  let s ← get
  match (List.finRange NPROC).find? fun p =>
      decide ((s.proc p).parent = some s.cur ∧ (s.proc p).state = .zombie) with
  | some p =>
    set (s.setProc p { s.proc p with parent := none, state := .unused })
    return some p
  | none =>
    if (List.finRange NPROC).any fun p => decide ((s.proc p).parent = some s.cur) then throw .sleep
    else return none

/-! ## The kernel as a system -/

inductive Call
  | open (arg : Option (CString × UInt32))
  | close (fd : ℤ)
  | read (fd : ℤ) (n : Option UInt32) (input : Option (List UInt8))
  | write (fd : ℤ) (arg : Option (Bytes × ℤ)) (piped : ℤ)
  | dup (fd : ℤ)
  | fstat (fd : ℤ) (okptr : Bool)
  | link (arg : Option (CString × CString))
  | unlink (path : Option CString)
  | mkdir (path : Option CString)
  | mknod (arg : Option (CString × Int16 × Int16))
  | chdir (path : Option CString)
  | pipe (okptr mem : Bool)
  | exec (env : ExecEnv) (arg : Option CString)
  | fork (mem : Bool)
  | exit
  | wait

/-- Run a program for its effect. -/
def discard {α : Type} (p : FsProg α) : FsProg Unit := p >>= fun _ => pure ()

def Call.prog : Call → FsProg Unit
  | .open arg => discard (sysOpen arg)
  | .close fd => discard (sysClose fd)
  | .read fd n input => discard (sysRead fd n input)
  | .write fd arg piped => discard (sysWrite fd arg piped)
  | .dup fd => discard (sysDup fd)
  | .fstat fd okptr => discard (sysFstat fd okptr)
  | .link arg => discard (sysLink arg)
  | .unlink path => discard (sysUnlink path)
  | .mkdir path => discard (sysMkdir path)
  | .mknod arg => discard (sysMknod arg)
  | .chdir path => discard (sysChdir path)
  | .pipe okptr mem => discard (sysPipe okptr mem)
  | .exec env arg => discard (sysExec env arg)
  | .fork mem => discard (Prog.atom (Fs.fork mem))
  | .exit => Fs.exit
  | .wait => discard (Prog.atom Fs.wait)

/-- A process may issue any call while it is alive. -/
def Menu (s : FsState) (p : Fin NPROC) (prog : FsProg Unit) : Prop :=
  (s.proc p).state = .runnable ∧ ∃ c : Call, prog = c.prog

abbrev KernelConfig := Config (Fin NPROC) Stop FsState

/-- Every interleaving of the calls of all processes. -/
abbrev KernelReaches : KernelConfig → KernelConfig → Prop :=
  Reaches (fun p s => s.enter p) Menu

end Xv6.Fs
