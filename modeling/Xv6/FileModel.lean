import Xv6.PathModel

/-!
# Open files and descriptors

`file.c` and the descriptor calls of `sysfile.c` as programs over the atomic steps of `fs.c`.
Arguments that the kernel fetches from user memory are given as options, `none` where fetching them
fails. What other parts of the kernel decide is an argument as well: the bytes that the console or a
pipe delivers, and whether memory can be allocated.
-/

namespace Xv6.Fs

open Resumption ByteLayout

/-- A path or other string argument, without its NUL. -/
abbrev CString := { l : List UInt8 // 0 ∉ l }

def beginOp : FsProg Unit := Prog.atom (modify fun s => s.emit .beginOp)

def endOp : FsProg Unit := Prog.atom (modify fun s => s.emit .endOp)

/-! ## Devices -/

abbrev CONSOLE : Int16 := 1

/-- Whether `devsw[major]` has a handler: `consoleinit` installs the only one. -/
def devsw (major : Int16) : Bool := major = CONSOLE

def noDevice (ip : Dinode) : Bool :=
  ip.major < 0 ∨ ip.major ≥ Int16.ofNat NDEV ∨ ¬ devsw ip.major

/-- `readi`; the console unlocks the inode while it waits for `input`. -/
def readi (input : Option (List UInt8)) (k : Fin NINODE) (off n : UInt32) :
    FsProg (Option (List UInt8)) := do
  let ip ← Prog.atom (getNode k)
  if ip.type = T_DEV then
    if noDevice ip then return none
    else
      Prog.atom (iunlock k)
      Prog.atom (ilock k)
      return input.map (·.take n.toNat)
  else Prog.atom (readData k off n)

def writei (k : Fin NINODE) (src : Bytes) (off n : UInt32) : FsProg (Option UInt32) := do
  let ip ← Prog.atom (getNode k)
  if ip.type = T_DEV then
    if noDevice ip then return none
    else
      Prog.atom (iunlock k)
      Prog.atom (ilock k)
      return some n
  else Prog.atom (writeData k src off n)

/-! ## file.c -/

def getFile (f : Fin NFILE) : M File := do return (← get).file f

def filealloc : M (Option (Fin NFILE)) := do
  let s ← get
  match (List.finRange NFILE).find? fun f => decide ((s.file f).ref = 0) with
  | some f =>
    set (s.setFile f { s.file f with ref := 1 })
    return some f
  | none => return none

def filedup (f : Fin NFILE) : M Unit := do
  let s ← get
  if (s.file f).ref < 1 then throw (.panic "filedup")
  else set (s.setFile f { s.file f with ref := (s.file f).ref + 1 })

/-- The part of `fileclose` under `ftable.lock`: the record of the file if this was the last
reference to it. -/
def fileRelease (f : Fin NFILE) : M (Option File) := do
  let s ← get
  let x := s.file f
  if x.ref < 1 then throw (.panic "fileclose")
  else if x.ref - 1 > 0 then
    set (s.setFile f { x with ref := x.ref - 1 })
    return none
  else
    set (s.setFile f { x with ref := 0, type := .none })
    return some x

/-- Closing a pipe end touches no inode. -/
def fileclose (f : Fin NFILE) : FsProg Unit := do
  match ← Prog.atom (fileRelease f) with
  | none => return ()
  | some ff =>
    if ff.type = .inode then
      beginOp
      iput ff.ip
      endOp

structure Stat where
  type : Int16
  dev : ℕ
  ino : ℕ
  nlink : Int16
  size : UInt32

def stati (k : Fin NINODE) : M Stat := do
  let ip := (← get).inode k
  return ⟨ip.node.type, ip.dev, ip.inum, ip.node.nlink, ip.node.size⟩

def filestat (f : Fin NFILE) : FsProg (Option Stat) := do
  let x ← Prog.atom (getFile f)
  if x.type = .inode then
    Prog.atom (ilock x.ip)
    let st ← Prog.atom (stati x.ip)
    Prog.atom (iunlock x.ip)
    return some st
  else return none

/-- `f->off += r` -/
def advance (f : Fin NFILE) (r : UInt32) : M Unit :=
  modify fun s => s.setFile f { s.file f with off := (s.file f).off + r }

def fileread (input : Option (List UInt8)) (f : Fin NFILE) (n : UInt32) :
    FsProg (Option (List UInt8)) := do
  let x ← Prog.atom (getFile f)
  if ¬ x.readable then return none
  else
    match x.type with
    | .pipe => return input
    | .inode => do
      Prog.atom (ilock x.ip)
      let off := (← Prog.atom (getFile f)).off
      let r ← readi input x.ip off n
      if 0 < (r.getD []).length then Prog.atom (advance f (UInt32.ofNat (r.getD []).length))
      Prog.atom (iunlock x.ip)
      return r
    | .none => Prog.atom (throw (.panic "fileread"))

/-- The chunk size of `filewrite`. -/
def maxWrite : ℕ := ((LOGSIZE - 1 - 1 - 2) / 2) * 512

/-- One round of the loop in `filewrite`: a transaction that writes `n1` bytes. -/
def filewriteChunk (f : Fin NFILE) (src : Bytes) (n1 : UInt32) : FsProg (Option UInt32) := do
  beginOp
  let ip := (← Prog.atom (getFile f)).ip
  Prog.atom (ilock ip)
  let off := (← Prog.atom (getFile f)).off
  let r ← writei ip src off n1
  if 0 < r.getD 0 then Prog.atom (advance f (r.getD 0))
  Prog.atom (iunlock ip)
  endOp
  return r

/-- The loop of `filewrite` with `n` bytes of `src` left; the result is whether it got to the end. -/
def filewriteLoop (f : Fin NFILE) (src : Bytes) (n : ℕ) : FsProg Bool :=
  if n = 0 then return true
  else do
    match ← filewriteChunk f src (UInt32.ofNat (min n maxWrite)) with
    | none => return false
    | some r =>
      if r ≠ UInt32.ofNat (min n maxWrite) then Prog.atom (throw (.panic "short filewrite"))
      else filewriteLoop f (fun i => src (min n maxWrite + i)) (n - min n maxWrite)
termination_by n
decreasing_by
  have : 0 < maxWrite := by decide
  omega

/-- `filewrite`; `piped` is what `pipewrite` returns for a pipe. -/
def filewrite (piped : ℤ) (f : Fin NFILE) (src : Bytes) (n : ℤ) : FsProg ℤ := do
  let x ← Prog.atom (getFile f)
  if ¬ x.writable then return -1
  else
    match x.type with
    | .pipe => return piped
    | .inode => do
      let done ← filewriteLoop f src n.toNat
      return if done ∧ 0 ≤ n then n else -1
    | .none => Prog.atom (throw (.panic "filewrite"))

/-! ## File descriptors -/

def argfd (fd : ℤ) : M (Option (Fin NFILE)) := do
  let s ← get
  if 0 ≤ fd ∧ fd < NOFILE then return (s.proc s.cur).ofile (Fin.ofNat _ fd.toNat)
  else return none

def setOfile (fd : Fin NOFILE) (f : Option (Fin NFILE)) : M Unit :=
  modify fun s => s.setProc s.cur { s.proc s.cur with
    ofile := Function.update (s.proc s.cur).ofile fd f }

def fdalloc (f : Fin NFILE) : M (Option (Fin NOFILE)) := do
  let s ← get
  match (List.finRange NOFILE).find? fun fd => decide ((s.proc s.cur).ofile fd = none) with
  | some fd =>
    setOfile fd (some f)
    return some fd
  | none => return none

/-- A file descriptor as a system call returns it. -/
def fdResult : Option (Fin NOFILE) → ℤ
  | some fd => (fd : ℕ)
  | none => -1

/-- `sys_dup`. The descriptor table belongs to the process alone, so the new descriptor and the new
reference appear together. -/
def sysDup (fd : ℤ) : FsProg ℤ := do
  match ← Prog.atom (argfd fd) with
  | none => return -1
  | some f =>
    let fd' ← Prog.atom (do
      let fd' ← fdalloc f
      if fd'.isSome then filedup f
      return fd')
    return fdResult fd'

def sysRead (fd : ℤ) (n : Option UInt32) (input : Option (List UInt8)) : FsProg ℤ := do
  match ← Prog.atom (argfd fd), n with
  | some f, some n => do
    match ← fileread input f n with
    | some l => return l.length
    | none => return -1
  | _, _ => return -1

def sysWrite (fd : ℤ) (arg : Option (Bytes × ℤ)) (piped : ℤ) : FsProg ℤ := do
  match ← Prog.atom (argfd fd), arg with
  | some f, some (src, n) => filewrite piped f src n
  | _, _ => return -1

def sysClose (fd : ℤ) : FsProg ℤ := do
  match ← Prog.atom (argfd fd) with
  | none => return -1
  | some f =>
    Prog.atom (setOfile (Fin.ofNat _ fd.toNat) none)
    fileclose f
    return 0

def sysFstat (fd : ℤ) (okptr : Bool) : FsProg (Option Stat) := do
  match ← Prog.atom (argfd fd) with
  | none => return none
  | some f => if okptr then filestat f else return none

end Xv6.Fs
