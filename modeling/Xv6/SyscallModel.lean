import Xv6.FileModel

/-!
# Calls that change directories

The system calls of `sysfile.c` that resolve a path: `link`, `unlink`, `open`, `mkdir`, `mknod` and
`chdir`, and `pipe`, which shares their handling of files and descriptors.
-/

namespace Xv6.Fs

open Resumption ByteLayout

/-! ## Links -/

def dot : Name := [46]

def dotdot : Name := [46, 46]

/-- `ip->nlink += d; iupdate(ip);` -/
def addLink (k : Fin NINODE) (d : Int16) : M Unit := do
  let ip ← getNode k
  setNode k { ip with nlink := ip.nlink + d }
  iupdate k

/-- The label `bad` of `sys_link`. -/
def linkBad (ip : Fin NINODE) : FsProg ℤ := do
  Prog.atom (ilock ip)
  Prog.atom (addLink ip (-1))
  iunlockput ip
  endOp
  return -1

/-- `dp->dev == ip->dev` -/
def sameDev (dp ip : Fin NINODE) : M Bool := do
  let s ← get
  return (s.inode dp).dev = (s.inode ip).dev

def sysLink (arg : Option (CString × CString)) : FsProg ℤ := do
  match arg with
  | none => return -1
  | some (old, new) => do
    beginOp
    match ← namei old.1 with
    | none =>
      endOp
      return -1
    | some ip =>
      Prog.atom (ilock ip)
      let node ← Prog.atom (getNode ip)
      if node.type = T_DIR then
        iunlockput ip
        endOp
        return -1
      else
        Prog.atom (addLink ip 1)
        Prog.atom (iunlock ip)
        match ← nameiparent new.1 with
        | none => linkBad ip
        | some (dp, name) =>
          Prog.atom (ilock dp)
          let inum ← Prog.atom (inumOf ip)
          if ← Prog.atom (sameDev dp ip) then
            if ← dirlink dp name inum then
              iunlockput dp
              iput ip
              endOp
              return 0
            else
              iunlockput dp
              linkBad ip
          else
            iunlockput dp
            linkBad ip

/-- Is the directory empty except for "." and ".."? -/
def isdirempty (dp : Fin NINODE) : M Bool := do
  let size := (← getNode dp).size.toNat
  let (_, found) ← scanDir dp "isdirempty: readi" (fun de => de.inum ≠ 0) size (2 * DIRENTSIZE)
  return found.isNone

/-- `memset(&de, 0, sizeof(de))` and the `writei` of it at `off`. -/
def clearDirent (dp : Fin NINODE) (off : ℕ) : M Unit := do
  match ← writeData dp (fun _ => 0) (UInt32.ofNat off) (UInt32.ofNat DIRENTSIZE) with
  | some n => if n ≠ UInt32.ofNat DIRENTSIZE then throw (.panic "unlink: writei")
  | none => throw (.panic "unlink: writei")

/-- The label `bad` of `sys_unlink`. -/
def unlinkBad (dp : Fin NINODE) : FsProg ℤ := do
  iunlockput dp
  endOp
  return -1

/-- `sys_unlink` once the entry at `off` of `dp` and its inode `ip` are known to be removable. -/
def unlinkEntry (dp ip : Fin NINODE) (off : ℕ) (isdir : Bool) : FsProg ℤ := do
  Prog.atom (clearDirent dp off)
  if isdir then Prog.atom (addLink dp (-1))
  iunlockput dp
  Prog.atom (addLink ip (-1))
  iunlockput ip
  endOp
  return 0

def sysUnlink (path : Option CString) : FsProg ℤ := do
  match path with
  | none => return -1
  | some path => do
    beginOp
    match ← nameiparent path.1 with
    | none =>
      endOp
      return -1
    | some (dp, name) =>
      Prog.atom (ilock dp)
      if namecmp name dot = 0 ∨ namecmp name dotdot = 0 then unlinkBad dp
      else
        match ← Prog.atom (dirlookup dp name) with
        | none => unlinkBad dp
        | some (ip, off) =>
          Prog.atom (ilock ip)
          let node ← Prog.atom (getNode ip)
          if node.nlink < 1 then Prog.atom (throw (.panic "unlink: nlink < 1"))
          else if node.type = T_DIR then
            if ← Prog.atom (isdirempty ip) then unlinkEntry dp ip off true
            else
              iunlockput ip
              unlinkBad dp
          else unlinkEntry dp ip off false

/-! ## Creating and opening -/

/-- `ip->major = major; ip->minor = minor; ip->nlink = 1; iupdate(ip);` -/
def initNode (k : Fin NINODE) (major minor : Int16) : M Unit := do
  let ip ← getNode k
  setNode k { ip with major := major, minor := minor, nlink := 1 }
  iupdate k

/-- The entries "." and ".." of a new directory `ip` in `dp`. -/
def createDots (dp ip : Fin NINODE) : FsProg Unit := do
  Prog.atom (addLink dp 1)
  let inum ← Prog.atom (inumOf ip)
  if ← dirlink ip dot inum then
    let pinum ← Prog.atom (inumOf dp)
    if ← dirlink ip dotdot pinum then return ()
    else Prog.atom (throw (.panic "create dots"))
  else Prog.atom (throw (.panic "create dots"))

/-- `create` once the name is known not to exist in `dp`. -/
def createNew (dp : Fin NINODE) (name : Name) (type major minor : Int16) :
    FsProg (Fin NINODE) := do
  let dev ← Prog.atom (do return ((← get).inode dp).dev)
  let ip ← ialloc dev type
  Prog.atom (ilock ip)
  Prog.atom (initNode ip major minor)
  if type = T_DIR then createDots dp ip
  let inum ← Prog.atom (inumOf ip)
  if ← dirlink dp name inum then
    iunlockput dp
    return ip
  else Prog.atom (throw (.panic "create: dirlink"))

def create (path : List UInt8) (type major minor : Int16) : FsProg (Option (Fin NINODE)) := do
  match ← nameiparent path with
  | none => return none
  | some (dp, name) =>
    Prog.atom (ilock dp)
    match ← Prog.atom (dirlookup dp name) with
    | some (ip, _) =>
      iunlockput dp
      Prog.atom (ilock ip)
      let node ← Prog.atom (getNode ip)
      if type = T_FILE ∧ node.type = T_FILE then return some ip
      else
        iunlockput ip
        return none
    | none => some <$> createNew dp name type major minor

abbrev O_RDONLY : UInt32 := 0x000
abbrev O_WRONLY : UInt32 := 0x001
abbrev O_RDWR : UInt32 := 0x002
abbrev O_CREATE : UInt32 := 0x200

/-- The inode that `sys_open` opens, locked. -/
def openInode (path : List UInt8) (omode : UInt32) : FsProg (Option (Fin NINODE)) := do
  if omode &&& O_CREATE ≠ 0 then create path T_FILE 0 0
  else
    match ← namei path with
    | none => return none
    | some ip =>
      Prog.atom (ilock ip)
      let node ← Prog.atom (getNode ip)
      if node.type = T_DIR ∧ omode ≠ O_RDONLY then
        iunlockput ip
        return none
      else return some ip

/-- The fields that `sys_open` fills in after `end_op`. -/
def openFile (f : Fin NFILE) (ip : Fin NINODE) (omode : UInt32) : M Unit :=
  modify fun s => s.setFile f { s.file f with
    type := .inode
    ip := ip
    off := 0
    readable := omode &&& O_WRONLY = 0
    writable := omode &&& O_WRONLY ≠ 0 ∨ omode &&& O_RDWR ≠ 0 }

def openFailed (ip : Fin NINODE) : FsProg ℤ := do
  iunlockput ip
  endOp
  return -1

def sysOpen (arg : Option (CString × UInt32)) : FsProg ℤ := do
  match arg with
  | none => return -1
  | some (path, omode) => do
    beginOp
    match ← openInode path.1 omode with
    | none =>
      endOp
      return -1
    | some ip =>
      match ← Prog.atom filealloc with
      | none => openFailed ip
      | some f =>
        match ← Prog.atom (fdalloc f) with
        | none =>
          fileclose f
          openFailed ip
        | some fd =>
          Prog.atom (iunlock ip)
          endOp
          Prog.atom (openFile f ip omode)
          return (fd : ℕ)

/-- `sys_mkdir` and `sys_mknod` fetch their arguments inside the transaction. -/
def makeNode (path : Option CString) (type major minor : Int16) : FsProg ℤ := do
  beginOp
  match path with
  | none =>
    endOp
    return -1
  | some path =>
    match ← create path.1 type major minor with
    | none =>
      endOp
      return -1
    | some ip =>
      iunlockput ip
      endOp
      return 0

def sysMkdir (path : Option CString) : FsProg ℤ := makeNode path T_DIR 0 0

def sysMknod (arg : Option (CString × Int16 × Int16)) : FsProg ℤ :=
  makeNode (arg.map (·.1)) T_DEV ((arg.map (·.2.1)).getD 0) ((arg.map (·.2.2)).getD 0)

/-! ## Current directories -/

/-- The inode `proc->cwd`, to be given to `iput`. -/
def getCwd : M (Fin NINODE) := do
  let s ← get
  match (s.proc s.cur).cwd with
  | some k => return k
  | none => throw .overrun

def setCwd (k : Option (Fin NINODE)) : M Unit :=
  modify fun s => s.setProc s.cur { s.proc s.cur with cwd := k }

def sysChdir (path : Option CString) : FsProg ℤ := do
  beginOp
  match path with
  | none =>
    endOp
    return -1
  | some path =>
    match ← namei path.1 with
    | none =>
      endOp
      return -1
    | some ip =>
      Prog.atom (ilock ip)
      let node ← Prog.atom (getNode ip)
      if node.type ≠ T_DIR then
        iunlockput ip
        endOp
        return -1
      else
        Prog.atom (iunlock ip)
        let old ← Prog.atom getCwd
        iput old
        endOp
        Prog.atom (setCwd (some ip))
        return 0

/-! ## Pipes -/

/-- The fields of a pipe end. -/
def pipeFile (f : Fin NFILE) (readable : Bool) : M Unit :=
  modify fun s => s.setFile f { s.file f with
    type := .pipe, readable := readable, writable := !readable }

/-- `mem` tells whether `kalloc` finds a page for the pipe. -/
def pipealloc (mem : Bool) : FsProg (Option (Fin NFILE × Fin NFILE)) := do
  match ← Prog.atom filealloc with
  | none => return none
  | some f0 =>
    match ← Prog.atom filealloc with
    | none =>
      fileclose f0
      return none
    | some f1 =>
      if mem then
        Prog.atom (pipeFile f0 true)
        Prog.atom (pipeFile f1 false)
        return some (f0, f1)
      else
        fileclose f0
        fileclose f1
        return none

def sysPipe (okptr mem : Bool) : FsProg ℤ := do
  if ¬ okptr then return -1
  else
    match ← pipealloc mem with
    | none => return -1
    | some (rf, wf) =>
      match ← Prog.atom (fdalloc rf) with
      | none =>
        fileclose rf
        fileclose wf
        return -1
      | some fd0 =>
        match ← Prog.atom (fdalloc wf) with
        | none =>
          Prog.atom (setOfile fd0 none)
          fileclose rf
          fileclose wf
          return -1
        | some _ => return 0

end Xv6.Fs
