import Xv6.InodeModel

/-!
# The file table and the pipes

`ftable`, the descriptor tables of the processes and the pipe objects, under `open`, `pipe`, `dup`,
`close`, `fork` and `exit` by any number of processes. A region under `ftable.lock` or under the lock of a
pipe is one step; so is an access to what only one process can reach (its own `ofile`). Between two steps
of a call every other process may take steps of its own. `fork` copies the table under `ptable.lock`,
which keeps out other forks; here they may interleave as well.

A pipe is named by the number of the `kalloc` that made it. Its page may be handed out again after
`kfree`, but a pointer to the pipe that is still around then is a pointer to the freed page: `touched`
records that such a pointer has been used.

Of an open inode only the type of its file is kept; reading and writing it changes nothing here.
-/

namespace Xv6.Ftable

open Fs (NFILE NOFILE FileType)

structure File where
  type : FileType
  ref : ℕ
  readable : Bool
  writable : Bool
  pipe : ℕ

/-- `kfrees` counts the calls of `kfree` on the page of the pipe. -/
structure Pipe where
  readopen : Bool
  writeopen : Bool
  kfrees : ℕ

namespace Pipe

def isOpen (p : Pipe) : Bool → Bool
  | true => p.writeopen
  | false => p.readopen

def shut (p : Pipe) : Bool → Pipe
  | true => { p with writeopen := false }
  | false => { p with readopen := false }

def closed (p : Pipe) : Bool := !p.readopen && !p.writeopen

end Pipe

structure Kernel where
  file : Fin NFILE → File
  pipes : List Pipe
  touched : Bool

namespace Kernel

def setFile (k : Kernel) (f : Fin NFILE) (x : File) : Kernel :=
  { k with file := Function.update k.file f x }

def filealloc (k : Kernel) : Option (Fin NFILE) :=
  (List.finRange NFILE).find? fun f => decide ((k.file f).ref = 0)

def setRef (k : Kernel) (f : Fin NFILE) (n : ℕ) : Kernel := k.setFile f { k.file f with ref := n }

/-- `fileclose` drops the last reference. -/
def drop (k : Kernel) (f : Fin NFILE) : Kernel := k.setFile f { k.file f with ref := 0, type := .none }

/-- `kalloc` and the initialisation of the page in `pipealloc`; the name of the new pipe is
`k.pipes.length`. -/
def newPipe (k : Kernel) : Kernel := { k with pipes := k.pipes ++ [⟨true, true, 0⟩] }

/-- An access to the page of pipe `p`. -/
def touch (k : Kernel) (p : ℕ) : Kernel :=
  { k with touched := k.touched || k.pipes[p]?.any fun x => decide (0 < x.kfrees) }

def shut (k : Kernel) (p : ℕ) (writable : Bool) : Kernel :=
  { k with pipes := k.pipes.modify p fun x => x.shut writable }

def closed (k : Kernel) (p : ℕ) : Bool := k.pipes[p]?.any Pipe.closed

def kfree (k : Kernel) (p : ℕ) : Kernel :=
  { k with pipes := k.pipes.modify p fun x => { x with kfrees := x.kfrees + 1 } }

end Kernel

abbrev Ofile := Fin NOFILE → Option (Fin NFILE)

def fdalloc (o : Ofile) : Option (Fin NOFILE) :=
  (List.finRange NOFILE).find? fun fd => decide (o fd = none)

/-- What follows a `fileclose`: more files to close before the call returns, or the rest of the loop in
`exit`. -/
inductive Cont
  | files (fs : List (Fin NFILE))
  | exit (fd : Fin NOFILE) (rest : List (Fin NOFILE))

/-- Where a process is. `user` is outside of the calls modelled here. -/
inductive Pc (ι : Type)
  | unused
  | embryo (parent : ι)
  | user
  | zombie
  | openFile
  | openFd (f : Fin NFILE)
  | openSet (f : Fin NFILE) (fd : Fin NOFILE)
  | dupRef (f : Fin NFILE) (arg fd : Fin NOFILE)
  | fileclose (f : Fin NFILE) (c : Cont)
  | pipeclose (p : ℕ) (writable : Bool) (c : Cont)
  | kfree (p : ℕ) (c : Cont)
  | exiting (rest : List (Fin NOFILE))
  | exitClear (fd : Fin NOFILE) (rest : List (Fin NOFILE))
  | pipeRead
  | pipeWrite (rf : Fin NFILE)
  | pipePage (rf wf : Fin NFILE)
  | setRead (rf wf : Fin NFILE) (p : ℕ)
  | setWrite (rf wf : Fin NFILE) (p : ℕ)
  | pipeFd0 (rf wf : Fin NFILE)
  | pipeFd1 (rf wf : Fin NFILE) (fd0 : Fin NOFILE)
  | piping (f : Fin NFILE) (arg : Fin NOFILE) (p : ℕ)
  | forking (child : ι) (rest : List (Fin NOFILE))

def Cont.pc {ι : Type} : Cont → Pc ι
  | .files [] => .user
  | .files (f :: fs) => .fileclose f (.files fs)
  | .exit fd rest => .exitClear fd rest

structure Proc (ι : Type) where
  ofile : Ofile
  pc : Pc ι

variable {ι : Type}

/-- One step of a process, and the kernel and process it leaves. -/
inductive Act (k : Kernel) : Proc ι → Kernel → Proc ι → Prop
  -- sys_open, from filealloc on
  | open {o : Ofile} : Act k ⟨o, .user⟩ k ⟨o, .openFile⟩
  | openNoFile {o : Ofile} (hf : k.filealloc = none) : Act k ⟨o, .openFile⟩ k ⟨o, .user⟩
  | openFile {o : Ofile} {f : Fin NFILE} (hf : k.filealloc = some f) :
      Act k ⟨o, .openFile⟩ (k.setRef f 1) ⟨o, .openFd f⟩
  | openNoFd {o : Ofile} {f : Fin NFILE} (hfd : fdalloc o = none) :
      Act k ⟨o, .openFd f⟩ k ⟨o, .fileclose f (.files [])⟩
  | openFd {o : Ofile} {f : Fin NFILE} {fd : Fin NOFILE} (hfd : fdalloc o = some fd) :
      Act k ⟨o, .openFd f⟩ k ⟨Function.update o fd (some f), .openSet f fd⟩
  | openSet {o : Ofile} {f : Fin NFILE} {fd : Fin NOFILE} (r w : Bool) :
      Act k ⟨o, .openSet f fd⟩
        (k.setFile f { k.file f with type := .inode, readable := r, writable := w }) ⟨o, .user⟩
  -- sys_dup
  | dup {o : Ofile} {f : Fin NFILE} {arg fd : Fin NOFILE} (harg : o arg = some f)
      (hfd : fdalloc o = some fd) :
      Act k ⟨o, .user⟩ k ⟨Function.update o fd (some f), .dupRef f arg fd⟩
  | dupRef {o : Ofile} {f : Fin NFILE} {arg fd : Fin NOFILE} (href : ¬ (k.file f).ref < 1) :
      Act k ⟨o, .dupRef f arg fd⟩ (k.setRef f ((k.file f).ref + 1)) ⟨o, .user⟩
  -- sys_close and fileclose
  | close {o : Ofile} {f : Fin NFILE} {fd : Fin NOFILE} (hfd : o fd = some f) :
      Act k ⟨o, .user⟩ k ⟨Function.update o fd none, .fileclose f (.files [])⟩
  | release {o : Ofile} {f : Fin NFILE} {c : Cont} (hpanic : ¬ (k.file f).ref < 1)
      (href : (k.file f).ref - 1 > 0) :
      Act k ⟨o, .fileclose f c⟩ (k.setRef f ((k.file f).ref - 1)) ⟨o, c.pc⟩
  | releaseLast {o : Ofile} {f : Fin NFILE} {c : Cont} (hpanic : ¬ (k.file f).ref < 1)
      (href : ¬ (k.file f).ref - 1 > 0) :
      Act k ⟨o, .fileclose f c⟩ (k.drop f)
        ⟨o, if (k.file f).type = .pipe then .pipeclose (k.file f).pipe (k.file f).writable c else c.pc⟩
  -- pipeclose
  | pipeclose {o : Ofile} {p : ℕ} {w : Bool} {c : Cont} :
      Act k ⟨o, .pipeclose p w c⟩ ((k.touch p).shut p w)
        ⟨o, if (k.shut p w).closed p then .kfree p c else c.pc⟩
  | kfree {o : Ofile} {p : ℕ} {c : Cont} : Act k ⟨o, .kfree p c⟩ (k.kfree p) ⟨o, c.pc⟩
  -- exit
  | exit {o : Ofile} : Act k ⟨o, .user⟩ k ⟨o, .exiting (List.finRange NOFILE)⟩
  | exitSkip {o : Ofile} {fd : Fin NOFILE} {rest : List (Fin NOFILE)} (hfd : o fd = none) :
      Act k ⟨o, .exiting (fd :: rest)⟩ k ⟨o, .exiting rest⟩
  | exitClose {o : Ofile} {f : Fin NFILE} {fd : Fin NOFILE} {rest : List (Fin NOFILE)}
      (hfd : o fd = some f) :
      Act k ⟨o, .exiting (fd :: rest)⟩ k ⟨o, .fileclose f (.exit fd rest)⟩
  | exitClear {o : Ofile} {fd : Fin NOFILE} {rest : List (Fin NOFILE)} :
      Act k ⟨o, .exitClear fd rest⟩ k ⟨Function.update o fd none, .exiting rest⟩
  | exitDone {o : Ofile} : Act k ⟨o, .exiting []⟩ k ⟨o, .zombie⟩
  -- sys_pipe and pipealloc
  | pipe {o : Ofile} : Act k ⟨o, .user⟩ k ⟨o, .pipeRead⟩
  | pipeNoRead {o : Ofile} (hf : k.filealloc = none) : Act k ⟨o, .pipeRead⟩ k ⟨o, .user⟩
  | pipeRead {o : Ofile} {rf : Fin NFILE} (hf : k.filealloc = some rf) :
      Act k ⟨o, .pipeRead⟩ (k.setRef rf 1) ⟨o, .pipeWrite rf⟩
  | pipeNoWrite {o : Ofile} {rf : Fin NFILE} (hf : k.filealloc = none) :
      Act k ⟨o, .pipeWrite rf⟩ k ⟨o, .fileclose rf (.files [])⟩
  | pipeWrite {o : Ofile} {rf wf : Fin NFILE} (hf : k.filealloc = some wf) :
      Act k ⟨o, .pipeWrite rf⟩ (k.setRef wf 1) ⟨o, .pipePage rf wf⟩
  | pipeNoPage {o : Ofile} {rf wf : Fin NFILE} :
      Act k ⟨o, .pipePage rf wf⟩ k ⟨o, .fileclose rf (.files [wf])⟩
  | pipePage {o : Ofile} {rf wf : Fin NFILE} :
      Act k ⟨o, .pipePage rf wf⟩ k.newPipe ⟨o, .setRead rf wf k.pipes.length⟩
  | setRead {o : Ofile} {rf wf : Fin NFILE} {p : ℕ} :
      Act k ⟨o, .setRead rf wf p⟩
        (k.setFile rf { k.file rf with type := .pipe, readable := true, writable := false, pipe := p })
        ⟨o, .setWrite rf wf p⟩
  | setWrite {o : Ofile} {rf wf : Fin NFILE} {p : ℕ} :
      Act k ⟨o, .setWrite rf wf p⟩
        (k.setFile wf { k.file wf with type := .pipe, readable := false, writable := true, pipe := p })
        ⟨o, .pipeFd0 rf wf⟩
  | pipeNoFd0 {o : Ofile} {rf wf : Fin NFILE} (hfd : fdalloc o = none) :
      Act k ⟨o, .pipeFd0 rf wf⟩ k ⟨o, .fileclose rf (.files [wf])⟩
  | pipeFd0 {o : Ofile} {rf wf : Fin NFILE} {fd0 : Fin NOFILE} (hfd : fdalloc o = some fd0) :
      Act k ⟨o, .pipeFd0 rf wf⟩ k ⟨Function.update o fd0 (some rf), .pipeFd1 rf wf fd0⟩
  | pipeNoFd1 {o : Ofile} {rf wf : Fin NFILE} {fd0 : Fin NOFILE} (hfd : fdalloc o = none) :
      Act k ⟨o, .pipeFd1 rf wf fd0⟩ k ⟨Function.update o fd0 none, .fileclose rf (.files [wf])⟩
  | pipeFd1 {o : Ofile} {rf wf : Fin NFILE} {fd0 fd1 : Fin NOFILE} (hfd : fdalloc o = some fd1) :
      Act k ⟨o, .pipeFd1 rf wf fd0⟩ k ⟨Function.update o fd1 (some wf), .user⟩
  -- fileread and filewrite of a pipe; each round of piperead and pipewrite is an access
  | piperead {o : Ofile} {f : Fin NFILE} {arg : Fin NOFILE} (harg : o arg = some f)
      (hr : (k.file f).readable) (ht : (k.file f).type = .pipe) :
      Act k ⟨o, .user⟩ k ⟨o, .piping f arg (k.file f).pipe⟩
  | pipewrite {o : Ofile} {f : Fin NFILE} {arg : Fin NOFILE} (harg : o arg = some f)
      (hw : (k.file f).writable) (ht : (k.file f).type = .pipe) :
      Act k ⟨o, .user⟩ k ⟨o, .piping f arg (k.file f).pipe⟩
  | access {o : Ofile} {f : Fin NFILE} {arg : Fin NOFILE} {p : ℕ} :
      Act k ⟨o, .piping f arg p⟩ (k.touch p) ⟨o, .piping f arg p⟩
  | return {o : Ofile} {f : Fin NFILE} {arg : Fin NOFILE} {p : ℕ} :
      Act k ⟨o, .piping f arg p⟩ k ⟨o, .user⟩

structure State (ι : Type) where
  kernel : Kernel
  proc : ι → Proc ι

variable [DecidableEq ι]

namespace State

def setProc (s : State ι) (i : ι) (p : Proc ι) : State ι := { s with proc := Function.update s.proc i p }

def setKernel (s : State ι) (k : Kernel) : State ι := { s with kernel := k }

def setPc (s : State ι) (i : ι) (pc : Pc ι) : State ι := s.setProc i ⟨(s.proc i).ofile, pc⟩

end State

/-- `exit` of the init process panics. -/
def MayExit (init i : ι) : Pc ι → Prop
  | .exiting _ => i ≠ init
  | _ => True

inductive Step (init : ι) : State ι → State ι → Prop
  | act {s : State ι} {i : ι} {k : Kernel} {p : Proc ι} (h : Act s.kernel (s.proc i) k p)
      (hexit : MayExit init i p.pc) : Step init s ((s.setKernel k).setProc i p)
  -- allocproc found a slot, and copyuvm succeeded
  | fork {s : State ι} {i j : ι} (hi : (s.proc i).pc = .user) (hj : (s.proc j).pc = .unused) :
      Step init s ((s.setPc j (.embryo i)).setPc i (.forking j (List.finRange NOFILE)))
  | forkSkip {s : State ι} {i j : ι} {fd : Fin NOFILE} {rest : List (Fin NOFILE)}
      (hi : (s.proc i).pc = .forking j (fd :: rest)) (hfd : (s.proc i).ofile fd = none) :
      Step init s (s.setPc i (.forking j rest))
  | forkCopy {s : State ι} {i j : ι} {f : Fin NFILE} {fd : Fin NOFILE} {rest : List (Fin NOFILE)}
      (hi : (s.proc i).pc = .forking j (fd :: rest)) (hfd : (s.proc i).ofile fd = some f)
      (hpanic : ¬ (s.kernel.file f).ref < 1) :
      Step init s (((s.setPc i (.forking j rest)).setKernel
          (s.kernel.setRef f ((s.kernel.file f).ref + 1))).setProc j
            ⟨Function.update (s.proc j).ofile fd (some f), (s.proc j).pc⟩)
  | forkDone {s : State ι} {i j : ι} (hi : (s.proc i).pc = .forking j []) :
      Step init s ((s.setPc i .user).setPc j .user)
  -- wait, by whatever parent
  | reap {s : State ι} {j : ι} (hj : (s.proc j).pc = .zombie) : Step init s (s.setPc j .unused)

def boot (init : ι) : State ι where
  kernel := ⟨fun _ => ⟨.none, 0, false, false, 0⟩, [], false⟩
  proc i := ⟨fun _ => none, if i = init then .user else .unused⟩

abbrev Reachable (init : ι) : State ι → Prop := Relation.ReflTransGen (Step init) (boot init)

/-- No call is in progress. -/
def State.Quiet (s : State ι) : Prop :=
  ∀ i, (s.proc i).pc = .unused ∨ (s.proc i).pc = .user ∨ (s.proc i).pc = .zombie

end Xv6.Ftable
