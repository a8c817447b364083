import Xv6.InodeModel
import Xv6.FreeMap

/-!
# Disk regions and the block allocator

The super block divides the disk into the inode table, the bitmap and the data blocks. Each of the
three is read through its own view, and a write to one region leaves the views of the others alone.
`balloc` and `bfree` are then described by what they do to the bitmap view.
-/

namespace Xv6

/-- The first block behind the bitmap; every block before it is a metadata block. -/
def Superblock.dataStart (sb : Superblock) : ℕ := sb.bmapstart.toNat + sb.size.toNat / BPB + 1

/-- The layout that `mkfs` writes: boot block, super block and log, inodes, bitmap, data. -/
structure Superblock.WellFormed (sb : Superblock) : Prop where
  super : 2 ≤ sb.inodestart.toNat
  inodes : sb.inodestart.toNat + sb.ninodes.toNat / IPB + 1 ≤ sb.bmapstart.toNat
  bitmap : sb.dataStart ≤ sb.size.toNat

namespace Fs

open Resumption ByteLayout

variable {sb : Superblock}

theorem IBLOCK_range (hw : sb.WellFormed) {i : ℕ} (hi : i < sb.ninodes.toNat) :
    2 ≤ IBLOCK i sb ∧ IBLOCK i sb < sb.bmapstart.toNat := by
  have h₁ := hw.super
  have h₂ := hw.inodes
  unfold IBLOCK
  simp only [IPB, BSIZE, DINODESIZE] at *
  omega

theorem BBLOCK_range {b : ℕ} (hb : b < sb.size.toNat) :
    sb.bmapstart.toNat ≤ BBLOCK b sb ∧ BBLOCK b sb < sb.dataStart := by
  unfold BBLOCK Superblock.dataStart
  simp only [BPB, BSIZE]
  omega

theorem bmapstart_lt_dataStart (sb : Superblock) : sb.bmapstart.toNat < sb.dataStart := by
  unfold Superblock.dataStart
  simp only [BPB, BSIZE]
  omega

theorem two_le_bmapstart (hw : sb.WellFormed) : 2 ≤ sb.bmapstart.toNat := by
  have h₁ := hw.super
  have h₂ := hw.inodes
  simp only [IPB, BSIZE, DINODESIZE] at *
  omega

namespace FsState

variable {s : FsState} {b c i j : ℕ} {x : Block} {d : Dinode}

/-- The on-disk inode `i`. -/
def dnode (s : FsState) (i : ℕ) : Dinode := dinode (s.disk (IBLOCK i s.sb)) (i % IPB)

/-- The bitmap bit of block `b`. -/
def used (s : FsState) (b : ℕ) : Bool := (s.disk (BBLOCK b s.sb)).bit (b % BPB)

/-! ## Writes to one region -/

@[simp] theorem putBlock_sb : (s.putBlock b x).sb = s.sb := rfl

@[simp] theorem putBlock_inode : (s.putBlock b x).inode = s.inode := rfl

@[simp] theorem putBlock_file : (s.putBlock b x).file = s.file := rfl

@[simp] theorem putBlock_proc : (s.putBlock b x).proc = s.proc := rfl

@[simp] theorem putBlock_cur : (s.putBlock b x).cur = s.cur := rfl

@[simp] theorem putBlock_trace :
    (s.putBlock b x).trace = s.trace ++ [(s.cur, .logWrite b)] := rfl

@[simp] theorem putBlock_disk_self : (s.putBlock b x).disk b = x := Function.update_self ..

theorem putBlock_disk_ne (h : c ≠ b) : (s.putBlock b x).disk c = s.disk c :=
  Function.update_of_ne h ..

def putNode (s : FsState) (i : ℕ) (d : Dinode) : FsState :=
  s.putBlock (IBLOCK i s.sb) (setDinode (s.disk (IBLOCK i s.sb)) (i % IPB) d)

def markUsed (s : FsState) (b : ℕ) : FsState :=
  s.putBlock (BBLOCK b s.sb) ((s.disk (BBLOCK b s.sb)).setBit (b % BPB))

def takeBlock (s : FsState) (b : ℕ) : FsState := (s.markUsed b).putBlock b .zero

theorem dnode_putBlock (hi : IBLOCK i s.sb ≠ b) : (s.putBlock b x).dnode i = s.dnode i := by
  unfold dnode
  rw [putBlock_sb, putBlock_disk_ne hi]

theorem used_putBlock (hc : BBLOCK c s.sb ≠ b) : (s.putBlock b x).used c = s.used c := by
  unfold used
  rw [putBlock_sb, putBlock_disk_ne hc]

theorem dnode_putBlock_data (hw : s.sb.WellFormed) (hb : s.sb.dataStart ≤ b)
    (hi : i < s.sb.ninodes.toNat) : (s.putBlock b x).dnode i = s.dnode i := by
  have h₁ := IBLOCK_range hw hi
  have h₂ := bmapstart_lt_dataStart s.sb
  exact dnode_putBlock (by omega)

theorem used_putBlock_data (hb : s.sb.dataStart ≤ b) (hc : c < s.sb.size.toNat) :
    (s.putBlock b x).used c = s.used c := by
  have h := BBLOCK_range hc
  exact used_putBlock (by omega)

theorem dnode_putNode : (s.putNode i d).dnode j = if j = i then d else s.dnode j := by
  by_cases hb : IBLOCK j s.sb = IBLOCK i s.sb
  · have hj : j / IPB = i / IPB := by unfold IBLOCK at hb; omega
    unfold dnode putNode
    rw [putBlock_sb, hb, putBlock_disk_self, dinode_setDinode _ (Nat.mod_lt _ (by decide))]
    have hiff : (j % IPB = i % IPB) = (j = i) := by
      apply propext
      have h₁ := Nat.div_add_mod j IPB
      have h₂ := Nat.div_add_mod i IPB
      rw [hj] at h₁
      omega
    simp only [hiff]
  · have hne : j ≠ i := fun h => hb (by rw [h])
    rw [if_neg hne]
    exact dnode_putBlock hb

theorem used_putNode (hw : s.sb.WellFormed) (hi : i < s.sb.ninodes.toNat)
    (hc : c < s.sb.size.toNat) : (s.putNode i d).used c = s.used c := by
  have h₁ := IBLOCK_range hw hi
  have h₂ := BBLOCK_range hc
  exact used_putBlock (by omega)

theorem disk_putNode_data (hw : s.sb.WellFormed) (hi : i < s.sb.ninodes.toNat)
    (hb : s.sb.dataStart ≤ b) : (s.putNode i d).disk b = s.disk b := by
  have h₁ := IBLOCK_range hw hi
  have h₂ := bmapstart_lt_dataStart s.sb
  exact putBlock_disk_ne (by omega)

theorem used_putBitmap {y : Block} {v : ℕ → Bool}
    (hy : ∀ k, y.bit k = if k = b % BPB then v k else (s.disk (BBLOCK b s.sb)).bit k) :
    (s.putBlock (BBLOCK b s.sb) y).used c = if c = b then v (b % BPB) else s.used c := by
  by_cases hb : BBLOCK c s.sb = BBLOCK b s.sb
  · have hc : c / BPB = b / BPB := by unfold BBLOCK at hb; omega
    unfold used
    rw [putBlock_sb, hb, putBlock_disk_self, hy]
    have hiff : (c % BPB = b % BPB) = (c = b) := by
      apply propext
      have h₁ := Nat.div_add_mod c BPB
      have h₂ := Nat.div_add_mod b BPB
      rw [hc] at h₁
      omega
    simp only [hiff]
    split_ifs with h
    · rw [h]
    · rfl
  · have hne : c ≠ b := fun h => hb (by rw [h])
    rw [if_neg hne]
    exact used_putBlock hb

theorem bit_in_block (b : ℕ) : b % BPB / 8 < BSIZE := by
  have := Nat.mod_lt b (show 0 < BPB by decide)
  simp only [BPB] at *
  omega

theorem used_markUsed : (s.markUsed b).used c = (decide (c = b) || s.used c) := by
  unfold markUsed
  rw [used_putBitmap (v := fun _ => true)]
  · split_ifs with h <;> simp [h]
  · intro k
    rw [Buffer.bit_setBit _ _ _ (bit_in_block b)]
    split_ifs with h <;> simp [h]

theorem dnode_putBitmap (hw : s.sb.WellFormed) (hb : b < s.sb.size.toNat)
    (hi : i < s.sb.ninodes.toNat) : (s.putBlock (BBLOCK b s.sb) x).dnode i = s.dnode i := by
  have h₁ := IBLOCK_range hw hi
  have h₂ := BBLOCK_range hb
  exact dnode_putBlock (by omega)

theorem disk_putBitmap_data (hb : b < s.sb.size.toNat) (hc : s.sb.dataStart ≤ c) :
    (s.putBlock (BBLOCK b s.sb) x).disk c = s.disk c := by
  have h := BBLOCK_range hb
  exact putBlock_disk_ne (by omega)

/-! ## A block that has just been allocated -/

@[simp] theorem takeBlock_sb : (s.takeBlock b).sb = s.sb := rfl

@[simp] theorem takeBlock_inode : (s.takeBlock b).inode = s.inode := rfl

@[simp] theorem takeBlock_file : (s.takeBlock b).file = s.file := rfl

@[simp] theorem takeBlock_proc : (s.takeBlock b).proc = s.proc := rfl

@[simp] theorem takeBlock_cur : (s.takeBlock b).cur = s.cur := rfl

theorem takeBlock_trace : (s.takeBlock b).trace =
    s.trace ++ [(s.cur, .logWrite (BBLOCK b s.sb)), (s.cur, .logWrite b)] := by
  simp [takeBlock, markUsed]

@[simp] theorem disk_takeBlock_self : (s.takeBlock b).disk b = .zero := putBlock_disk_self

theorem disk_takeBlock (hb : b < s.sb.size.toNat) (hc : s.sb.dataStart ≤ c) (hne : c ≠ b) :
    (s.takeBlock b).disk c = s.disk c := by
  unfold takeBlock
  rw [putBlock_disk_ne hne]
  exact disk_putBitmap_data hb hc

theorem dnode_takeBlock (hw : s.sb.WellFormed) (hb : b < s.sb.size.toNat) (hlo : s.sb.dataStart ≤ b)
    (hi : i < s.sb.ninodes.toNat) : (s.takeBlock b).dnode i = s.dnode i := by
  unfold takeBlock
  rw [dnode_putBlock_data (s := s.markUsed b) hw hlo hi]
  exact dnode_putBitmap hw hb hi

theorem used_takeBlock (hlo : s.sb.dataStart ≤ b) (hc : c < s.sb.size.toNat) :
    (s.takeBlock b).used c = (decide (c = b) || s.used c) := by
  unfold takeBlock
  rw [used_putBlock_data (s := s.markUsed b) hlo hc, used_markUsed]

end FsState

/-! ## `balloc` and `bfree` -/

section Allocator

variable {s : FsState} {R : UInt32 → FsState → Prop} {E : Stop → FsState → Prop}

theorem wp_ballocFrom {m j : ℕ}
    (hm : ∀ b < s.sb.size.toNat, b < BPB * (j + m))
    (hbelow : ∀ b < BPB * j, b < s.sb.size.toNat → s.used b = true)
    (hfull : (∀ b < s.sb.size.toNat, s.used b = true) → E (.panic "balloc: out of blocks") s)
    (hR : ∀ b < s.sb.size.toNat, s.used b = false → (∀ c < b, s.used c = true) →
      R (UInt32.ofNat b) (s.takeBlock b)) :
    wp (ballocFrom s.sb ((List.range' j m).map (BPB * ·))) R E s := by
  induction m generalizing j with
  | zero =>
    apply hfull
    intro b hb
    exact hbelow b (hm b hb) hb
  | succ m ih =>
    have hblock : ∀ bi < BPB, BBLOCK (BPB * j + bi) s.sb = BBLOCK (BPB * j) s.sb := by
      intro bi hbi
      unfold BBLOCK
      rw [Nat.mul_add_div (by decide), Nat.div_eq_of_lt hbi, Nat.mul_div_cancel_left _ (by decide)]
      rfl
    have hbit : ∀ bi < BPB, (s.disk (BBLOCK (BPB * j) s.sb)).bit bi = s.used (BPB * j + bi) := by
      intro bi hbi
      unfold FsState.used
      rw [hblock bi hbi, Nat.mul_add_mod, Nat.mod_eq_of_lt hbi]
    rw [List.range'_succ, List.map_cons, ballocFrom, bread]
    simp only [wp_bind, wp_get, wp_pure]
    cases hfc : firstClear (s.disk (BBLOCK (BPB * j) s.sb)) (min BPB (s.sb.size.toNat - BPB * j)) with
    | none =>
      simp only
      apply ih
      · intro b hb
        have := hm b hb
        rwa [show j + 1 + m = j + (m + 1) by omega]
      · intro b hb hsize
        by_cases hlt : b < BPB * j
        · exact hbelow b hlt hsize
        · rw [firstClear, List.find?_range_eq_none] at hfc
          have hbi : b - BPB * j < BPB := by
            rw [Nat.mul_add, Nat.mul_one] at hb
            omega
          have hb' := hfc (b - BPB * j) (by omega)
          rw [hbit _ hbi, show BPB * j + (b - BPB * j) = b by omega] at hb'
          simpa using hb'
    | some bi =>
      rw [firstClear, List.find?_range_eq_some] at hfc
      obtain ⟨hclear, hmem, hbefore⟩ := hfc
      rw [List.mem_range] at hmem
      have hbi : bi < BPB := by omega
      have hres : R (UInt32.ofNat (BPB * j + bi)) (s.takeBlock (BPB * j + bi)) := by
        apply hR
        · omega
        · rw [← hbit bi hbi]
          simpa using hclear
        · intro c hc
          by_cases hlt : c < BPB * j
          · exact hbelow c hlt (by omega)
          · have hb' := hbefore (c - BPB * j) (by omega)
            rw [hbit _ (by omega), show BPB * j + (c - BPB * j) = c by omega] at hb'
            simpa using hb'
      unfold FsState.takeBlock FsState.markUsed at hres
      rw [hblock bi hbi, Nat.mul_add_mod, Nat.mod_eq_of_lt hbi] at hres
      simpa [logWrite, bzero] using hres

theorem wp_balloc
    (hfull : (∀ b < s.sb.size.toNat, s.used b = true) → E (.panic "balloc: out of blocks") s)
    (hR : ∀ b < s.sb.size.toNat, s.used b = false → (∀ c < b, s.used c = true) →
      R (UInt32.ofNat b) (s.takeBlock b)) : wp balloc R E s := by
  unfold balloc
  simp only [wp_bind, wp_get]
  rw [List.range_eq_range']
  apply wp_ballocFrom _ _ hfull hR
  · intro b hb
    have h₁ := Nat.div_add_mod (s.sb.size.toNat + BPB - 1) BPB
    have h₂ := Nat.mod_lt (s.sb.size.toNat + BPB - 1) (show 0 < BPB by decide)
    rw [Nat.zero_add]
    omega
  · intro b hb
    omega

end Allocator

end Fs

end Xv6
