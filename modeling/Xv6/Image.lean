import Xv6.FileData
import Xv6.KernelModel

/-!
# Disk images and the booted kernel

The super block that `mkfs` writes, small images with a root directory in one block, and the state
in which the first process starts: nothing is open and the inode cache holds only the root directory,
not yet read from disk.
-/

namespace Xv6.Fs

open Resumption ByteLayout FreeMap Nat Volume FsState

/-- The super block of `mkfs`: 30 log blocks, 200 inodes in 26 blocks, one bitmap block. -/
def mkfsSb : Superblock where
  size := 1000
  nblocks := 941
  ninodes := 200
  nlog := 30
  logstart := 2
  inodestart := 32
  bmapstart := 58

theorem mkfsSb_dataStart : mkfsSb.dataStart = 59 := by decide

theorem mkfsSb_wellFormed : mkfsSb.WellFormed := ⟨by decide, by decide, by decide⟩

/-- The kernel after `userinit`, on a given disk. -/
def boot (disk : ℕ → Block) : FsState where
  disk := disk
  sb := superblock (disk 1)
  inode k := if k = 0 then ⟨ROOTDEV, ROOTINO, 1, false, false, .zero⟩
    else ⟨0, 0, 0, false, false, .zero⟩
  file _ := ⟨.none, 0, false, false, 0, 0⟩
  proc p := if p = initproc then ⟨.runnable, none, fun _ => none, some 0⟩
    else ⟨.unused, none, fun _ => none, none⟩
  cur := initproc
  trace := []

/-! ## Images -/

/-- The bitmap that `balloc` of `mkfs` writes: the first `m` blocks are in use. -/
def bitmapOf (m : ℕ) : Block := (List.range m).foldl Buffer.setBit .zero

theorem bit_bitmapOf {m : ℕ} (hm : m ≤ BPB) (j : ℕ) : (bitmapOf m).bit j = decide (j < m) := by
  induction m with
  | zero => simp [bitmapOf]
  | succ m ih =>
    have hin : m / 8 < BSIZE := by
      simp only [BPB, BSIZE] at *
      omega
    have hstep : bitmapOf (m + 1) = (bitmapOf m).setBit m := by
      simp [bitmapOf, List.range_succ]
    rw [hstep, Buffer.bit_setBit _ _ _ hin, ih (by omega)]
    by_cases h : j = m
    · simp [h]
    · rw [decide_eq_false h, Bool.false_or]
      apply decide_eq_decide.mpr
      omega

/-- An inode block given by its inodes. -/
def inodeBlock (f : ℕ → Dinode) : Block := .ofBytes fun i => (f (i / DINODESIZE)).bytes (i % DINODESIZE)

theorem dinode_inodeBlock (f : ℕ → Dinode) {k : ℕ} (hk : k < IPB) : dinode (inodeBlock f) k = f k := by
  refine (Dinode.ofBytes_congr ?_).trans (f k).ofBytes_bytes
  intro i hi
  have hin : DINODESIZE * k + i < BSIZE := by
    simp only [DINODESIZE, IPB, BSIZE] at *
    omega
  have hdiv : (DINODESIZE * k + i) / DINODESIZE = k := by simp only [DINODESIZE] at *; omega
  have hmod : (DINODESIZE * k + i) % DINODESIZE = i := by simp only [DINODESIZE] at *; omega
  unfold inodeBlock
  rw [Buffer.byte_ofBytes hin, hdiv, hmod]

/-- An image with the layout of `mkfs`, the given inodes and bitmap, and one data block `dir`, the
first one. -/
def image (nodes : ℕ → Dinode) (bitmap dir : Block) (b : ℕ) : Block :=
  if b = 1 then setSuperblock .zero mkfsSb
  else if 32 ≤ b ∧ b < 58 then inodeBlock fun i => nodes (IPB * (b - 32) + i)
  else if b = 58 then bitmap
  else if b = 59 then dir
  else .zero

section Boot

variable {nodes : ℕ → Dinode} {bitmap dir : Block} {i b : ℕ}

@[simp] theorem boot_sb : (boot (image nodes bitmap dir)).sb = mkfsSb := by
  change superblock (image nodes bitmap dir 1) = mkfsSb
  rw [image, if_pos rfl, superblock_setSuperblock]

theorem boot_super : (boot (image nodes bitmap dir)).sb =
    superblock ((boot (image nodes bitmap dir)).disk 1) := rfl

theorem boot_dnode (hi : i < 200) : (boot (image nodes bitmap dir)).dnode i = nodes i := by
  have hblock : IBLOCK i mkfsSb = i / 8 + 32 := rfl
  have hdisk : (boot (image nodes bitmap dir)).disk (i / 8 + 32) =
      inodeBlock fun j => nodes (IPB * (i / 8) + j) := by
    change image nodes bitmap dir (i / 8 + 32) = _
    rw [image, if_neg (by omega), if_pos (by omega), Nat.add_sub_cancel]
  unfold FsState.dnode
  rw [boot_sb, hblock, hdisk, dinode_inodeBlock _ (Nat.mod_lt _ (by decide))]
  congr 1
  simp only [IPB, BSIZE, DINODESIZE]
  omega

theorem boot_used (hb : b < 1000) : (boot (image nodes bitmap dir)).used b = bitmap.bit b := by
  have hblock : BBLOCK b mkfsSb = 58 := by
    change b / BPB + 58 = 58
    rw [Nat.div_eq_of_lt (by simp only [BPB, BSIZE]; omega), Nat.zero_add]
  have hmod : b % BPB = b := Nat.mod_eq_of_lt (by simp only [BPB, BSIZE]; omega)
  unfold FsState.used
  rw [boot_sb, hblock, hmod]
  rfl

theorem boot_vol_node (hi : i < 200) : (boot (image nodes bitmap dir)).vol.node i = nodes i := by
  have hlt : i < (boot (image nodes bitmap dir)).sb.ninodes.toNat := by
    rw [boot_sb]
    exact hi
  exact (if_pos hlt).trans (boot_dnode hi)

theorem boot_vol_used (hb : b < 1000) :
    (boot (image nodes bitmap dir)).vol.used b = bitmap.bit b := by
  rw [vol_used (by rw [boot_sb]; exact hb), boot_used hb]

theorem boot_free {m : ℕ} (hm : m ≤ BPB) :
    freeCount (boot (image nodes (bitmapOf m) dir)).vol.used
      (boot (image nodes (bitmapOf m) dir)).sb.size.toNat = 1000 - m := by
  rw [boot_sb]
  apply freeCount_of_lt
  intro b hb
  rw [boot_vol_used hb, bit_bitmapOf hm]

theorem boot_allocated (h : (boot (image nodes bitmap dir)).vol.Allocated i) : i < 200 := by
  have hlt := h.1
  rw [vol_sb, boot_sb] at hlt
  exact hlt

end Boot

/-! ## A file system with at most one data block -/

structure SmallNodes (nodes : ℕ → Dinode) : Prop where
  type : (nodes ROOTINO).type = T_DIR
  size : (nodes ROOTINO).size = 512
  addrs : (nodes ROOTINO).addrs = Function.update (fun _ => 0) 0 59
  others : ∀ i, i ≠ ROOTINO → (nodes i).size = 0 ∧ (nodes i).addrs = fun _ => 0

section Small

variable {nodes : ℕ → Dinode} {bitmap dir : Block}

section

variable (h : SmallNodes nodes)
include h

theorem SmallNodes.addr {i : ℕ} (hi : i < 200) (sl : Slot) :
    (boot (image nodes bitmap dir)).vol.addr i sl =
      if i = ROOTINO ∧ sl = .block 0 then 59 else 0 := by
  have hnode : (boot (image nodes bitmap dir)).vol.node i = nodes i := boot_vol_node hi
  have hind : (boot (image nodes bitmap dir)).vol.addr i .indirect = 0 := by
    rw [addr_indirect, hnode]
    by_cases hr : i = ROOTINO
    · rw [hr, h.addrs]
      rfl
    · rw [(h.others i hr).2]
      rfl
  cases sl with
  | indirect => simpa using hind
  | block k =>
    by_cases hk : k < NDIRECT
    · rw [addr_direct hk, hnode]
      by_cases hr : i = ROOTINO
      · have h0 : (Fin.ofNat (NDIRECT + 1) k = 0) ↔ k = 0 := by
          rw [Fin.ext_iff, Fin.val_ofNat, mod_eq_of_lt (by omega)]
          rfl
        rw [hr, h.addrs]
        by_cases hk0 : k = 0
        · simp [hk0]
        · rw [Function.update_of_ne (fun hc => hk0 (h0.mp hc)),
            if_neg fun hc => hk0 (Slot.block.inj hc.2)]
          rfl
      · rw [(h.others i hr).2, if_neg fun hc => hr hc.1]
        rfl
    · have hk0 : k ≠ 0 := fun hc => hk (hc ▸ by decide)
      rw [addr_entry_eq hk, hind, if_neg fun hc => hc.2 rfl]
      simp [hk0]

theorem SmallNodes.holeFree : (boot (image nodes bitmap dir)).vol.HoleFree := by
  intro i hia
  have hi := boot_allocated hia
  rw [boot_vol_node hi]
  by_cases hr : i = ROOTINO
  · subst hr
    rw [h.size]
    refine ⟨by decide, ?_, ?_⟩
    · intro k _
      rw [h.addr hi, show blocksOf (512 : UInt32).toNat = 1 from rfl]
      by_cases hk : k = 0
      · simp [hk]
      · simp [hk]
    · rw [h.addr hi, show blocksOf (512 : UInt32).toNat = 1 from rfl]
      simp
  · rw [(h.others i hr).1]
    refine ⟨by decide, ?_, ?_⟩
    · intro k _
      rw [h.addr hi, if_neg fun hc => hr hc.1, show blocksOf (0 : UInt32).toNat = 0 from rfl]
      simp
    · rw [h.addr hi, if_neg fun hc => hr hc.1, show blocksOf (0 : UInt32).toNat = 0 from rfl]
      simp

theorem SmallNodes.exact : (boot (image nodes (bitmapOf 60) dir)).vol.Exact := by
  have hown : ∀ x, (boot (image nodes (bitmapOf 60) dir)).vol.own x =
      if x = (ROOTINO, .block 0) then 59 else 0 := by
    rintro ⟨i, sl⟩
    unfold own
    split_ifs with ha hx hx
    · rw [h.addr (boot_allocated ha), if_pos (Prod.mk.inj hx)]
    · rw [h.addr (boot_allocated ha), if_neg]
      rintro ⟨rfl, rfl⟩
      exact hx rfl
    · obtain ⟨rfl, rfl⟩ := Prod.mk.inj hx
      refine absurd ⟨?_, ?_⟩ ha
      · rw [vol_sb, boot_sb]
        decide
      · rw [boot_vol_node (by decide), h.type]
        decide
    · rfl
  unfold Volume.Exact
  rw [vol_sb, boot_sb, mkfsSb_dataStart]
  refine ⟨by decide, ?_, ?_, ?_⟩
  · intro x hx
    rw [hown] at hx ⊢
    split_ifs at hx ⊢
    · decide
    · exact absurd rfl hx
  · intro x y hx hxy
    rw [hown] at hx
    rw [hown, hown] at hxy
    split_ifs at hx hxy with h₁ h₂ h₃
    · rw [h₁, h₂]
    all_goals omega
  · intro b hb
    have hb' : b < 1000 := hb
    rw [boot_vol_used hb', bit_bitmapOf (by decide), decide_eq_true_iff]
    constructor
    · intro hlt
      by_cases h59 : b < 59
      · exact .inl h59
      · exact .inr ⟨(ROOTINO, .block 0), by rw [hown, if_pos rfl]; omega⟩
    · rintro (hlt | ⟨x, hx⟩)
      · omega
      · rw [hown] at hx
        split_ifs at hx <;> omega

theorem SmallNodes.diskOk : DiskOk (boot (image nodes (bitmapOf 60) dir)) :=
  ⟨by rw [boot_sb]; exact mkfsSb_wellFormed, boot_super, h.exact, h.holeFree⟩

end

end Small

end Xv6.Fs
