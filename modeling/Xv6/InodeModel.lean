import Xv6.LogModel

/-!
# Blocks and inodes

The first half of `fs.c`, over the disk as the buffer cache shows it: a block that has been passed
to `log_write` reads back as it was written. A function that runs with the lock of an inode (or of
the inode cache) held from its first access to its last is one atomic step; functions that take or
drop such a lock on the way are programs of several steps.

`begin_op` and `end_op` are marks in the trace here. A wait for log space delays a step of the
process and changes nothing else, and the log itself is the subject of `LogModel`.
-/

namespace Xv6.Fs

open Resumption ByteLayout

abbrev NINODE : ℕ := 50
abbrev NFILE : ℕ := 100
abbrev NOFILE : ℕ := 16
abbrev NPROC : ℕ := 64
abbrev NDEV : ℕ := 10

instance neZero_NINODE : NeZero NINODE := ⟨by decide⟩

instance neZero_NFILE : NeZero NFILE := ⟨by decide⟩

scoped instance neZero_NPROC : NeZero NPROC := ⟨by decide⟩

/-- In-memory copy of an inode. `dev`, `inum`, `ref` and the two flags belong to the cache entry, the
rest is the content that `I_VALID` vouches for. -/
structure Inode where
  dev : ℕ
  inum : ℕ
  ref : ℕ
  busy : Bool
  valid : Bool
  node : Dinode

inductive FileType
  | none
  | pipe
  | inode
deriving DecidableEq

structure File where
  type : FileType
  ref : ℕ
  readable : Bool
  writable : Bool
  ip : Fin NINODE
  off : UInt32

inductive ProcState
  | unused
  | runnable
  | zombie
deriving DecidableEq

structure Proc where
  state : ProcState
  parent : Option (Fin NPROC)
  ofile : Fin NOFILE → Option (Fin NFILE)
  cwd : Option (Fin NINODE)

inductive FsEvent
  | beginOp
  | endOp
  | logWrite (b : ℕ)
  | iputFree (inum : ℕ)
deriving DecidableEq

/-- The disk, the kernel tables above it, the running process and what each process has done. -/
structure FsState where
  disk : ℕ → Block
  sb : Superblock
  inode : Fin NINODE → Inode
  file : Fin NFILE → File
  proc : Fin NPROC → Proc
  cur : Fin NPROC
  trace : List (Fin NPROC × FsEvent)

abbrev M := EStateM Stop FsState

abbrev FsProg := Prog Stop FsState

namespace FsState

variable (s : FsState)

def emit (e : FsEvent) : FsState := { s with trace := s.trace ++ [(s.cur, e)] }

def putBlock (b : ℕ) (data : Block) : FsState :=
  { s with disk := Function.update s.disk b data, trace := s.trace ++ [(s.cur, .logWrite b)] }

def setInode (k : Fin NINODE) (ip : Inode) : FsState :=
  { s with inode := Function.update s.inode k ip }

def setNode (k : Fin NINODE) (d : Dinode) : FsState := s.setInode k { s.inode k with node := d }

def setFile (f : Fin NFILE) (x : File) : FsState := { s with file := Function.update s.file f x }

def setProc (p : Fin NPROC) (x : Proc) : FsState := { s with proc := Function.update s.proc p x }

/-- The scheduler switches to `p`. -/
def enter (p : Fin NPROC) : FsState := { s with cur := p }

end FsState

/-! ## Blocks -/

def bread (b : ℕ) : M Block := do return (← get).disk b

/-- Store `data` in a buffer and pass it to `log_write`. -/
def logWrite (b : ℕ) (data : Block) : M Unit := modify fun s => s.putBlock b data

def readsb : M Unit := modify fun s => { s with sb := superblock (s.disk 1) }

def bzero (b : ℕ) : M Unit := logWrite b .zero

/-- The inner loop of `balloc`: the first clear bit among the first `n` of a bitmap block. -/
def firstClear (bp : Block) (n : ℕ) : Option ℕ := (List.range n).find? fun bi => !bp.bit bi

/-- The outer loop of `balloc`, over the numbers of the first blocks of the bitmap blocks. -/
def ballocFrom (sb : Superblock) : List ℕ → M UInt32
  | [] => throw (.panic "balloc: out of blocks")
  | b :: bs => do
    let bp ← bread (BBLOCK b sb)
    match firstClear bp (min BPB (sb.size.toNat - b)) with
    | some bi =>
      logWrite (BBLOCK b sb) (bp.setBit bi)
      bzero (b + bi)
      return UInt32.ofNat (b + bi)
    | none => ballocFrom sb bs

def balloc : M UInt32 := do
  let sb := (← get).sb
  ballocFrom sb ((List.range ((sb.size.toNat + BPB - 1) / BPB)).map (BPB * ·))

def bfree (b : UInt32) : M Unit := do
  readsb
  let sb := (← get).sb
  let bp ← bread (BBLOCK b.toNat sb)
  if bp.bit (b.toNat % BPB) then logWrite (BBLOCK b.toNat sb) (bp.clearBit (b.toNat % BPB))
  else throw (.panic "freeing free block")

/-! ## Inodes -/

def getNode (k : Fin NINODE) : M Dinode := do return ((← get).inode k).node

def setNode (k : Fin NINODE) (d : Dinode) : M Unit := modify fun s => s.setNode k d

def inumOf (k : Fin NINODE) : M ℕ := do return ((← get).inode k).inum

def iupdate (k : Fin NINODE) : M Unit := do
  let s ← get
  let ip := s.inode k
  let bp ← bread (IBLOCK ip.inum s.sb)
  logWrite (IBLOCK ip.inum s.sb) (setDinode bp (ip.inum % IPB) ip.node)

def iget (dev inum : ℕ) : M (Fin NINODE) := do
  let s ← get
  match (List.finRange NINODE).find? fun k =>
      decide (0 < (s.inode k).ref ∧ (s.inode k).dev = dev ∧ (s.inode k).inum = inum) with
  | some k =>
    set (s.setInode k { s.inode k with ref := (s.inode k).ref + 1 })
    return k
  | none =>
    match (List.finRange NINODE).find? fun k => decide ((s.inode k).ref = 0) with
    | some k =>
      set (s.setInode k { s.inode k with
        dev := dev, inum := inum, ref := 1, busy := false, valid := false })
      return k
    | none => throw (.panic "iget: no inodes")

def idup (k : Fin NINODE) : M (Fin NINODE) := do
  modify fun s => s.setInode k { s.inode k with ref := (s.inode k).ref + 1 }
  return k

def ilock (k : Fin NINODE) : M Unit := do
  let s ← get
  let ip := s.inode k
  if ip.ref < 1 then throw (.panic "ilock")
  else if ip.busy then throw .sleep
  else if ip.valid then set (s.setInode k { ip with busy := true })
  else
    let d := dinode (s.disk (IBLOCK ip.inum s.sb)) (ip.inum % IPB)
    set (s.setInode k { ip with busy := true, valid := true, node := d })
    if d.type = 0 then throw (.panic "ilock: no type")

def iunlock (k : Fin NINODE) : M Unit := do
  let s ← get
  let ip := s.inode k
  if ¬ ip.busy ∨ ip.ref < 1 then throw (.panic "iunlock")
  else set (s.setInode k { ip with busy := false })

/-- One round of the loop in `ialloc`: mark inode `inum` allocated if it is free. -/
def ialloc1 (type : Int16) (inum : ℕ) : M Bool := do
  let sb := (← get).sb
  let bp ← bread (IBLOCK inum sb)
  if (dinode bp (inum % IPB)).type = 0 then
    logWrite (IBLOCK inum sb) (setDinode bp (inum % IPB) { Dinode.zero with type := type })
    return true
  else return false

def iallocFrom (dev : ℕ) (type : Int16) : List ℕ → FsProg (Fin NINODE)
  | [] => Prog.atom (throw (.panic "ialloc: no inodes"))
  | inum :: rest => do
    if ← Prog.atom (ialloc1 type inum) then Prog.atom (iget dev inum)
    else iallocFrom dev type rest

def ialloc (dev : ℕ) (type : Int16) : FsProg (Fin NINODE) := do
  let ninodes ← Prog.atom (do return (← get).sb.ninodes.toNat)
  iallocFrom dev type (List.range' 1 (ninodes - 1))

/-! ## Inode content -/

/-- The address in `addrs[j]`, allocated on demand. -/
def addrOf (k : Fin NINODE) (j : Fin (NDIRECT + 1)) : M UInt32 := do
  let addr := (← getNode k).addrs j
  if addr = 0 then
    let addr ← balloc
    let ip ← getNode k
    setNode k { ip with addrs := Function.update ip.addrs j addr }
    return addr
  else return addr

def bmap (k : Fin NINODE) (bn : ℕ) : M UInt32 := do
  if bn < NDIRECT then addrOf k (Fin.ofNat _ bn)
  else if bn - NDIRECT < NINDIRECT then
    let addr ← addrOf k (Fin.last _)
    let bp ← bread addr.toNat
    if bp.word (bn - NDIRECT) = 0 then
      let a ← balloc
      logWrite addr.toNat (bp.setWord (bn - NDIRECT) a)
      return a
    else return bp.word (bn - NDIRECT)
  else throw (.panic "bmap: out of range")

/-- One round of the first loop in `itrunc`. -/
def freeDirect (k : Fin NINODE) (j : Fin (NDIRECT + 1)) : M Unit := do
  let addr := (← getNode k).addrs j
  if addr ≠ 0 then
    bfree addr
    let ip ← getNode k
    setNode k { ip with addrs := Function.update ip.addrs j 0 }

def itrunc (k : Fin NINODE) : M Unit := do
  (List.range NDIRECT).forM fun i => freeDirect k (Fin.ofNat _ i)
  let addr := (← getNode k).addrs (Fin.last _)
  if addr ≠ 0 then
    let bp ← bread addr.toNat
    (List.range NINDIRECT).forM fun j => do
      if bp.word j ≠ 0 then bfree (bp.word j)
    bfree addr
    let ip ← getNode k
    setNode k { ip with addrs := Function.update ip.addrs (Fin.last _) 0 }
  let ip ← getNode k
  setNode k { ip with size := 0 }
  iupdate k

/-- The loop of `readi`, with `n` bytes still to read from `off` on. -/
def readLoop (k : Fin NINODE) (off n : ℕ) : M (List UInt8) :=
  if n = 0 then return []
  else do
    let addr ← bmap k (off / BSIZE)
    let bp ← bread addr.toNat
    let m := min n (BSIZE - off % BSIZE)
    let rest ← readLoop k (off + m) (n - m)
    return (List.range m).map (fun i => bp.byte (off % BSIZE + i)) ++ rest
termination_by n
decreasing_by
  have := Nat.mod_lt off (show 0 < BSIZE by decide)
  omega

/-- `readi` after its test for a device; `none` stands for the result -1. -/
def readData (k : Fin NINODE) (off n : UInt32) : M (Option (List UInt8)) := do
  let ip ← getNode k
  if off > ip.size ∨ off + n < off then return none
  else
    let n := if off + n > ip.size then ip.size - off else n
    some <$> readLoop k off.toNat n.toNat

/-- The loop of `writei`, with `n` bytes of `src` still to write at `off`. -/
def writeLoop (k : Fin NINODE) (src : Bytes) (off n : ℕ) : M Unit :=
  if n = 0 then return ()
  else do
    let addr ← bmap k (off / BSIZE)
    let bp ← bread addr.toNat
    let m := min n (BSIZE - off % BSIZE)
    logWrite addr.toNat (bp.write (off % BSIZE) m src)
    writeLoop k (fun i => src (m + i)) (off + m) (n - m)
termination_by n
decreasing_by
  have := Nat.mod_lt off (show 0 < BSIZE by decide)
  omega

/-- `writei` after its test for a device; `none` stands for the result -1. -/
def writeData (k : Fin NINODE) (src : Bytes) (off n : UInt32) : M (Option UInt32) := do
  let ip ← getNode k
  if off > ip.size ∨ off + n < off then return none
  else if off + n > UInt32.ofNat (MAXFILE * BSIZE) then return none
  else
    writeLoop k src off.toNat n.toNat
    let ip ← getNode k
    if n > 0 ∧ off + n > ip.size then
      setNode k { ip with size := off + n }
      iupdate k
    return some n

/-! ## Dropping references -/

/-- `iput` up to its decision: either the reference is dropped, or it was the last one to an inode
without links and the entry is locked to free it. -/
def iputTest (k : Fin NINODE) : M Bool := do
  let s ← get
  let ip := s.inode k
  if ip.ref = 1 ∧ ip.valid ∧ ip.node.nlink = 0 then
    if ip.busy then throw (.panic "iput busy")
    else
      set ((s.setInode k { ip with busy := true }).emit (.iputFree ip.inum))
      return true
  else
    set (s.setInode k { ip with ref := ip.ref - 1 })
    return false

/-- `ip->type = 0; iupdate(ip);` -/
def clearType (k : Fin NINODE) : M Unit := do
  let ip ← getNode k
  setNode k { ip with type := 0 }
  iupdate k

/-- `ip->flags = 0; wakeup(ip); ip->ref--;` -/
def dropFreed (k : Fin NINODE) : M Unit :=
  modify fun s => s.setInode k { s.inode k with
    busy := false, valid := false, ref := (s.inode k).ref - 1 }

def iput (k : Fin NINODE) : FsProg Unit := do
  if ← Prog.atom (iputTest k) then
    Prog.atom (itrunc k)
    Prog.atom (clearType k)
    Prog.atom (dropFreed k)

def iunlockput (k : Fin NINODE) : FsProg Unit := do
  Prog.atom (iunlock k)
  iput k

end Xv6.Fs
