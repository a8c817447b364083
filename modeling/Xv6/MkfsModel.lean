import Xv6.DiskFormat

/-!
# The image builder

`mkfs.c`: the host program that lays out a file system and copies files into it. Inode and block numbers
come from counters, and a file grows through `iappend`, which is written independently of the kernel's
`bmap`. Sectors are read from and written to the image file; a read behind its end makes `rsect` exit.
-/

namespace Xv6.Mkfs

open ByteLayout

abbrev NINODES : ℕ := 200

abbrev nbitmap : ℕ := FSSIZE / (BSIZE * 8) + 1
abbrev ninodeblocks : ℕ := NINODES / IPB + 1
abbrev nlog : ℕ := LOGSIZE
/-- Number of meta blocks (boot, sb, nlog, inode, bitmap). -/
abbrev nmeta : ℕ := 2 + nlog + ninodeblocks + nbitmap
/-- Number of data blocks. -/
abbrev nblocks : ℕ := FSSIZE - nmeta

def sb : Superblock where
  size := UInt32.ofNat FSSIZE
  nblocks := UInt32.ofNat nblocks
  ninodes := UInt32.ofNat NINODES
  nlog := UInt32.ofNat nlog
  logstart := 2
  inodestart := UInt32.ofNat (2 + nlog)
  bmapstart := UInt32.ofNat (2 + nlog + ninodeblocks)

/-- How the program stops before its end. -/
inductive Halt
  | exit (status : ℕ)
  | abort
deriving DecidableEq

/-- The image file, of `nsect` sectors, and the two counters; `winodes` lists the inodes that `winode` has
stored. The counters are far from wrapping: a sector behind the end of the file is not read. -/
structure Image where
  img : ℕ → Block
  nsect : ℕ
  freeinode : ℕ
  freeblock : ℕ
  winodes : List ℕ

abbrev M := EStateM Halt Image

def rsect (sec : ℕ) : M Block := do
  let m ← get
  if sec < m.nsect then return m.img sec else throw (.exit 1)

def wsect (sec : ℕ) (buf : Block) : M Unit :=
  modify fun m => { m with img := Function.update m.img sec buf, nsect := max m.nsect (sec + 1) }

def winode (inum : ℕ) (ip : Dinode) : M Unit := do
  let buf ← rsect (IBLOCK inum sb)
  wsect (IBLOCK inum sb) (setDinode buf (inum % IPB) ip)
  modify fun m => { m with winodes := m.winodes ++ [inum] }

def rinode (inum : ℕ) : M Dinode := do
  let buf ← rsect (IBLOCK inum sb)
  return dinode buf (inum % IPB)

def ialloc (type : Int16) : M ℕ := do
  let inum := (← get).freeinode
  modify fun m => { m with freeinode := m.freeinode + 1 }
  winode inum { Dinode.zero with type := type, nlink := 1, size := 0 }
  return inum

/-- `buf[i/8] = buf[i/8] | (0x1 << (i%8))` for the first `used` blocks. -/
def balloc (used : ℕ) : M Unit := do
  if used < BSIZE * 8 then
    wsect sb.bmapstart.toNat ((List.range used).foldl Buffer.setBit .zero)
  else throw .abort

/-- `freeblock++` -/
def nextBlock : M UInt32 := do
  let b := (← get).freeblock
  modify fun m => { m with freeblock := m.freeblock + 1 }
  return UInt32.ofNat b

/-- The address in `addrs[j]`, with a new block if there is none. -/
def addrOf (din : Dinode) (j : Fin (NDIRECT + 1)) : M (Dinode × UInt32) := do
  if din.addrs j = 0 then
    let x ← nextBlock
    return ({ din with addrs := Function.update din.addrs j x }, x)
  else return (din, din.addrs j)

/-- The address of file block `fbn`. -/
def blockAddr (din : Dinode) (fbn : ℕ) : M (Dinode × UInt32) := do
  if fbn < NDIRECT then addrOf din (Fin.ofNat _ fbn)
  else
    let (din, a) ← addrOf din (Fin.last _)
    let ind ← rsect a.toNat
    if ind.word (fbn - NDIRECT) = 0 then
      let x ← nextBlock
      wsect a.toNat (ind.setWord (fbn - NDIRECT) x)
      return (din, x)
    else return (din, ind.word (fbn - NDIRECT))

/-- The loop of `iappend`, with the bytes of `p` still to be stored at `off`. -/
def iappendLoop (din : Dinode) (off : ℕ) (p : List UInt8) : M (Dinode × ℕ) :=
  if p = [] then return (din, off)
  else do
    let fbn := off / BSIZE
    if fbn < MAXFILE then
      let (din, x) ← blockAddr din fbn
      let n1 := min p.length ((fbn + 1) * BSIZE - off)
      let buf ← rsect x.toNat
      wsect x.toNat (buf.write (off - fbn * BSIZE) n1 fun i => p.getD i 0)
      iappendLoop din (off + n1) (p.drop n1)
    else throw .abort
termination_by p.length
decreasing_by
  have hp : 0 < p.length := List.length_pos_iff.2 (by assumption)
  simp only [List.length_drop, BSIZE]
  omega

def iappend (inum : ℕ) (p : List UInt8) : M Unit := do
  let din ← rinode inum
  let (din, off) ← iappendLoop din din.size.toNat p
  winode inum { din with size := UInt32.ofNat off }

/-- What `read` returns into a buffer of `BSIZE` bytes, at the end of the file and errors apart. -/
abbrev Chunk := { l : List UInt8 // l ≠ [] ∧ l.length ≤ BSIZE }

/-- An argument: its bytes, and what `read` returns if it can be opened. -/
structure Input where
  arg : Name
  chunks : Option (List Chunk)

/-- The name in the image: a leading `_` is skipped. -/
def Input.name (f : Input) : Name := if f.arg.head? = some 95 then f.arg.tail else f.arg

/-- The bytes of a directory entry. -/
def direntBytes (de : Dirent) : List UInt8 := (List.range DIRENTSIZE).map de.bytes

def addFile (rootino : ℕ) (f : Input) : M Unit := do
  -- assert(index(argv[i], '/') == 0)
  if 47 ∈ f.arg then throw .abort
  else
    match f.chunks with
    | none => throw (.exit 1)
    | some chunks =>
      let inum ← ialloc T_FILE
      iappend rootino (direntBytes ⟨UInt16.ofNat inum, f.name⟩)
      chunks.forM fun c => iappend inum c.1

/-- The last lines of `main`: fix size of root inode dir, and write the bitmap. -/
def finish (rootino : ℕ) : M Unit := do
  let din ← rinode rootino
  let off := (din.size.toNat / BSIZE + 1) * BSIZE
  winode rootino { din with size := UInt32.ofNat off }
  balloc (← get).freeblock

def dot : Name := [46]
def dotdot : Name := [46, 46]

/-- `main` on an image file that was opened; the end is `exit(0)`. -/
@[irreducible] def main (files : List Input) : M Unit := do
  (List.range FSSIZE).forM fun i => wsect i .zero
  wsect 1 (setSuperblock .zero sb)
  let rootino ← ialloc T_DIR
  if rootino = ROOTINO then
    iappend rootino (direntBytes ⟨UInt16.ofNat rootino, dot⟩)
    iappend rootino (direntBytes ⟨UInt16.ofNat rootino, dotdot⟩)
    files.forM (addFile rootino)
    finish rootino
  else throw .abort

/-- After `open` with `O_TRUNC`. -/
def start : Image := ⟨fun _ => .zero, 0, 1, nmeta, []⟩

/-- `mkfs` exits with status 0 and leaves the image. -/
def Builds (files : List Input) (m : Image) : Prop := main files start = .ok () m

end Xv6.Mkfs
