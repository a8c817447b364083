import Xv6.ByteLayout

/-!
# On-disk format

The constants of `param.h` and `fs.h` and the records they describe, read from and written to disk
blocks of `BSIZE` bytes. Each record has one reader and one writer, and the laws below say what a
reader returns after a writer has changed the block.
-/

namespace Xv6

open ByteLayout List

/-! ## Constants -/

abbrev BSIZE : ℕ := 512
abbrev MAXOPBLOCKS : ℕ := 10
abbrev LOGSIZE : ℕ := MAXOPBLOCKS * 3
abbrev FSSIZE : ℕ := 1000

abbrev NDIRECT : ℕ := 12
abbrev NINDIRECT : ℕ := BSIZE / 4
abbrev MAXFILE : ℕ := NDIRECT + NINDIRECT
/-- Size of `struct dinode` in bytes. -/
abbrev DINODESIZE : ℕ := 64
/-- Inodes per block. -/
abbrev IPB : ℕ := BSIZE / DINODESIZE
/-- Bitmap bits per block. -/
abbrev BPB : ℕ := BSIZE * 8
abbrev DIRSIZ : ℕ := 14
/-- Size of `struct dirent` in bytes. -/
abbrev DIRENTSIZE : ℕ := 16
abbrev ROOTDEV : ℕ := 1
abbrev ROOTINO : ℕ := 1

instance (priority := 2000) neZero_addrs : NeZero (NDIRECT + 1) := ⟨by decide⟩

/-! The inode types of `stat.h`; an inode of type 0 is free. -/

abbrev T_DIR : Int16 := 1
abbrev T_FILE : Int16 := 2
abbrev T_DEV : Int16 := 3

abbrev Block := Buffer BSIZE

/-! ## The log header -/

/-- `struct logheader` on disk: word 0 is `n`, the words after it are `block[]`. -/
def headerCount (b : Block) : UInt32 := b.word 0

def headerBlocks (b : Block) (n : ℕ) : List UInt32 := (List.range n).map fun i => b.word (i + 1)

/-- The stores of `write_head` to the header buffer: `n` and the first `n` block numbers. Later
entries keep whatever an earlier transaction left in them. -/
def setHeader (b : Block) (lh : List UInt32) : Block :=
  b.setWords 0 (lh.length + 1) fun i =>
    if i = 0 then UInt32.ofNat lh.length else lh.getD (i - 1) 0

theorem headerCount_setHeader (b : Block) {lh : List UInt32} (h : lh.length ≤ LOGSIZE) :
    (headerCount (setHeader b lh)).toNat = lh.length := by
  have hn : lh.length < 2 ^ 32 := by simp only [LOGSIZE, MAXOPBLOCKS] at h; omega
  have hw : (setHeader b lh).word 0 = UInt32.ofNat lh.length :=
    Buffer.word_setWords_inside (o := 0) (i := 0) (by omega) (by simp [BSIZE])
  rw [headerCount, hw, UInt32.toNat_ofNat', Nat.mod_eq_of_lt hn]

theorem headerBlocks_setHeader (b : Block) {lh : List UInt32} (h : lh.length ≤ LOGSIZE) :
    headerBlocks (setHeader b lh) lh.length = lh := by
  apply ext_getElem
  · simp [headerBlocks]
  · intro i h₁ h₂
    have hw : (setHeader b lh).word (0 + (i + 1)) = lh.getD (i + 1 - 1) 0 :=
      Buffer.word_setWords_inside (i := i + 1) (by omega)
        (by simp only [LOGSIZE, MAXOPBLOCKS] at h; simp only [BSIZE]; omega)
    simp only [headerBlocks, getElem_map, getElem_range]
    rw [show i + 1 = 0 + (i + 1) by omega, hw]
    simp [h₂]

/-! ## The super block -/

structure Superblock where
  size : UInt32
  nblocks : UInt32
  ninodes : UInt32
  nlog : UInt32
  logstart : UInt32
  inodestart : UInt32
  bmapstart : UInt32
deriving DecidableEq

def superblock (b : Block) : Superblock where
  size := b.word 0
  nblocks := b.word 1
  ninodes := b.word 2
  nlog := b.word 3
  logstart := b.word 4
  inodestart := b.word 5
  bmapstart := b.word 6

def setSuperblock (b : Block) (sb : Superblock) : Block :=
  b.setWords 0 7 fun i => ([sb.size, sb.nblocks, sb.ninodes, sb.nlog, sb.logstart, sb.inodestart,
    sb.bmapstart] : List UInt32).getD i 0

theorem superblock_setSuperblock (b : Block) (sb : Superblock) :
    superblock (setSuperblock b sb) = sb := by
  have hw : ∀ i < 7, (setSuperblock b sb).word (0 + i) = ([sb.size, sb.nblocks, sb.ninodes, sb.nlog,
      sb.logstart, sb.inodestart, sb.bmapstart] : List UInt32).getD i 0 := by
    intro i hi
    exact Buffer.word_setWords_inside hi (by simp only [BSIZE]; omega)
  simp only [Nat.zero_add] at hw
  cases sb
  simp [superblock, hw]

/-- Block containing inode `i`. -/
def IBLOCK (i : ℕ) (sb : Superblock) : ℕ := i / IPB + sb.inodestart.toNat

/-- Block containing the bit for block `b`. -/
def BBLOCK (b : ℕ) (sb : Superblock) : ℕ := b / BPB + sb.bmapstart.toNat

/-! ## Inodes -/

/-- `struct dinode`; the inode cache keeps the same fields in memory. -/
@[ext] structure Dinode where
  type : Int16
  major : Int16
  minor : Int16
  nlink : Int16
  size : UInt32
  addrs : Fin (NDIRECT + 1) → UInt32
deriving DecidableEq

namespace Dinode

/-- What `memset(dip, 0, sizeof(*dip))` leaves. -/
def zero : Dinode := ⟨0, 0, 0, 0, 0, fun _ => 0⟩

def ofBytes (f : Bytes) : Dinode where
  type := (get16 f 0).toInt16
  major := (get16 f 2).toInt16
  minor := (get16 f 4).toInt16
  nlink := (get16 f 6).toInt16
  size := get32 f 8
  addrs j := get32 f (12 + 4 * j)

def bytes (d : Dinode) : Bytes := fun i =>
  if i < 2 then leByte d.type.toUInt16.toNat i
  else if i < 4 then leByte d.major.toUInt16.toNat (i - 2)
  else if i < 6 then leByte d.minor.toUInt16.toNat (i - 4)
  else if i < 8 then leByte d.nlink.toUInt16.toNat (i - 6)
  else if i < 12 then leByte d.size.toNat (i - 8)
  else leByte (d.addrs (Fin.ofNat _ ((i - 12) / 4))).toNat ((i - 12) % 4)

theorem ofBytes_congr {f g : Bytes} (h : ∀ i < DINODESIZE, f i = g i) : ofBytes f = ofBytes g := by
  have hshort : ∀ o, o + 2 ≤ DINODESIZE → get16 f o = get16 g o := by
    intro o ho
    exact get16_congr fun i hi => h _ (by omega)
  have hword : ∀ o, o + 4 ≤ DINODESIZE → get32 f o = get32 g o := by
    intro o ho
    exact get32_congr fun i hi => h _ (by omega)
  unfold ofBytes
  rw [hshort 0 (by decide), hshort 2 (by decide), hshort 4 (by decide), hshort 6 (by decide),
    hword 8 (by decide)]
  congr 1
  funext j
  apply hword
  have := j.isLt
  simp only [NDIRECT, DINODESIZE] at *
  omega

theorem get16_bytes {d : Dinode} {o : ℕ} {v : Int16}
    (h : ∀ i < 2, d.bytes (o + i) = leByte v.toUInt16.toNat i) : (get16 d.bytes o).toInt16 = v := by
  rw [← Int16.toInt16_toUInt16 v, ← get16_leByte v.toUInt16]
  exact congrArg _ (get16_congr (by simpa using h))

theorem get32_bytes {d : Dinode} {o : ℕ} {v : UInt32}
    (h : ∀ i < 4, d.bytes (o + i) = leByte v.toNat i) : get32 d.bytes o = v := by
  rw [← get32_leByte v]
  exact get32_congr (by simpa using h)

theorem ofBytes_bytes (d : Dinode) : ofBytes d.bytes = d := by
  apply Dinode.ext
  iterate 4
    · apply get16_bytes
      intro i hi
      unfold bytes
      split_ifs <;> first | omega | (congr 1; omega)
  · apply get32_bytes
    intro i hi
    unfold bytes
    split_ifs <;> first | omega | (congr 1; omega)
  · funext j
    apply get32_bytes
    intro i hi
    have hj : Fin.ofNat (NDIRECT + 1) ((12 + 4 * (j : ℕ) + i - 12) / 4) = j := by
      apply Fin.ext
      rw [Fin.val_ofNat, show (12 + 4 * (j : ℕ) + i - 12) / 4 = j by omega, Nat.mod_eq_of_lt j.isLt]
    unfold bytes
    rw [hj]
    split_ifs <;> first | omega | (congr 1; omega)

end Dinode

/-- Inode number `k` of an inode block. -/
def dinode (b : Block) (k : ℕ) : Dinode := .ofBytes fun i => b.byte (DINODESIZE * k + i)

def setDinode (b : Block) (k : ℕ) (d : Dinode) : Block := b.write (DINODESIZE * k) DINODESIZE d.bytes

theorem dinode_setDinode (b : Block) {k j : ℕ} (hk : k < IPB) (d : Dinode) :
    dinode (setDinode b k d) j = if j = k then d else dinode b j := by
  split_ifs with h
  · subst h
    refine (Dinode.ofBytes_congr ?_).trans d.ofBytes_bytes
    intro i hi
    exact Buffer.byte_write_inside hi (by simp only [IPB, BSIZE, DINODESIZE] at *; omega)
  · apply Dinode.ofBytes_congr
    intro i hi
    exact Buffer.byte_write_outside (by simp only [DINODESIZE] at *; omega)

/-! ## Directory entries -/

/-- A C string: its bytes before the terminating NUL. -/
abbrev Name := List UInt8

/-- `struct dirent`. The name field is padded with NULs, not terminated, so the string in it ends
with the field or with its first NUL. -/
@[ext] structure Dirent where
  inum : UInt16
  name : Name
deriving DecidableEq

namespace Dirent

def ofBytes (f : Bytes) : Dirent where
  inum := get16 f 0
  name := ((List.range DIRSIZ).map fun i => f (2 + i)).takeWhile (· ≠ 0)

/-- The record that `dirlink` fills in with `strncpy(de.name, name, DIRSIZ)` and `de.inum`. -/
def bytes (de : Dirent) : Bytes := fun i =>
  if i < 2 then leByte de.inum.toNat i else if i < DIRENTSIZE then de.name.getD (i - 2) 0 else 0

theorem ofBytes_congr {f g : Bytes} (h : ∀ i < DIRENTSIZE, f i = g i) : ofBytes f = ofBytes g := by
  have hinum : get16 f 0 = get16 g 0 :=
    get16_congr fun i hi => h _ (by simp only [DIRENTSIZE]; omega)
  unfold ofBytes
  rw [hinum]
  congr 2
  apply map_congr_left
  intro i hi
  rw [mem_range] at hi
  exact h _ (by simp only [DIRSIZ, DIRENTSIZE] at *; omega)

end Dirent

end Xv6
