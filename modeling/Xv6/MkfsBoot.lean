import Xv6.MkfsWellFormed
import Xv6.DirectoryHistory

/-!
# The kernel on an image of `mkfs`

An image seen by the kernel: its volume is the one that `mkfs` built, with the number of inodes from the super
block, and its root directory is the list of entries that `mkfs` wrote, with empty ones behind them.
-/

namespace Xv6.Mkfs

open Fs Resumption ByteLayout FreeMap Image List Volume Nat FsState

variable {m : Image} {files : List Input} {s : FsState} {k : Fin NINODE}

/-! ## The volume -/

/-- The kernel runs on the image. -/
structure Mounted (m : Image) (s : FsState) : Prop where
  disk : s.disk = m.img
  super : s.sb = superblock (m.img 1)

variable {i : ℕ} {de : Dirent}

theorem Mounted.sb_eq (h : Mounted m s) (hf : Finished files m) : s.sb = sb := by
  rw [h.super, hf.super, superblock_setSuperblock]

theorem sb_wellFormed : sb.WellFormed := ⟨by decide, by decide, by decide⟩

theorem sb_dataStart : sb.dataStart = nmeta := by decide

theorem sb_ninodes : sb.ninodes.toNat = NINODES := rfl

theorem Finished.node_zero (hf : Finished files m) (hlen : files.length + 2 ≤ NINODES) (hi : NINODES ≤ i) :
    (imageVol m.img).node i = .zero := by
  obtain ⟨m₀, hbuilt, hvol, -⟩ := hf.built
  have hroot : i ≠ ROOTINO := by
    simp only [NINODES, ROOTINO] at *
    omega
  rw [hvol, setSize_node_ne hroot]
  refine hbuilt.fresh i (.inr ?_)
  rw [hbuilt.freeinode]
  omega

section

variable (h : Mounted m s)
include h

section

variable (hf : Finished files m)
include hf

theorem Mounted.vol_eq (hlen : files.length + 2 ≤ NINODES) :
    s.vol = { imageVol m.img with sb := sb } := by
  have hsb := h.sb_eq hf
  refine volume_ext hsb ?_ ?_ ?_
  · funext i
    have hmore : NINODES ≤ ninodeblocks * IPB := by decide
    unfold FsState.vol FsState.dnode
    dsimp only
    rw [hsb, h.disk, sb_ninodes]
    by_cases hi : i < NINODES
    · rw [if_pos hi]
      exact (if_pos (by omega)).symm
    · rw [if_neg hi, hf.node_zero hlen (by omega)]
  · funext b
    unfold FsState.vol FsState.used
    dsimp only
    rw [hsb, h.disk]
    rfl
  · funext b
    unfold FsState.vol
    dsimp only
    rw [hsb, h.disk, sb_dataStart]
    rfl

theorem Mounted.addr_eq (hlen : files.length + 2 ≤ NINODES) (i : ℕ)
    (sl : Slot) : s.vol.addr i sl = (imageVol m.img).addr i sl := by
  rw [h.vol_eq hf hlen]
  exact addr_congr rfl (fun _ => rfl) sl

theorem Mounted.hasBlocks (hlen : files.length + 2 ≤ NINODES) {n : ℕ}
    (hhas : (imageVol m.img).HasBlocks i n) : s.vol.HasBlocks i n := by
  have haddr := h.addr_eq hf hlen
  exact ⟨hhas.le, fun q hq => by rw [haddr]; exact hhas.block q hq, by rw [haddr]; exact hhas.indirect⟩

theorem Mounted.exact (hlen : files.length + 2 ≤ NINODES) : s.vol.Exact := by
  have hvol := h.vol_eq hf hlen
  have hmore : NINODES ≤ ninodeblocks * IPB := by decide
  have halloc : ∀ i, s.vol.Allocated i ↔ (imageVol m.img).Allocated i := by
    intro i
    unfold Volume.Allocated
    rw [hvol]
    refine ⟨fun hi => ⟨hi.1.trans_le hmore, hi.2⟩, fun hi => ⟨?_, hi.2⟩⟩
    change i < NINODES
    by_contra hge
    exact hi.2 (by rw [hf.node_zero hlen (by omega)]; rfl)
  have hown : ∀ x, s.vol.own x = (imageVol m.img).own x := by
    rintro ⟨i, sl⟩
    unfold own
    simp only [halloc i]
    congr 1
    exact h.addr_eq hf hlen i sl
  unfold Volume.Exact
  rw [vol_sb, h.sb_eq hf]
  exact FreeMap.Exact.congr hf.exact hown fun b _ => by rw [hvol]

theorem Mounted.wellFormed : s.sb.WellFormed := by
  rw [h.sb_eq hf]
  exact sb_wellFormed

theorem Mounted.diskOk (hlen : files.length + 2 ≤ NINODES)
    (hfill : ¬ 32 ∣ files.length + 2) : DiskOk s := by
  have hmore : NINODES ≤ ninodeblocks * IPB := by decide
  refine ⟨h.wellFormed hf, ?_, h.exact hf hlen, fun i _ => ?_⟩
  · rw [h.super, h.disk]
  · have hhas := hf.hasBlocks (hlen.trans hmore) hfill i
    have hnode : s.vol.node = (imageVol m.img).node := by rw [h.vol_eq hf hlen]
    rw [hnode]
    exact h.hasBlocks hf hlen hhas

theorem Mounted.contents (hlen : files.length + 2 ≤ NINODES) (i : ℕ) :
    s.vol.contents i = (imageVol m.img).contents i := by
  unfold Volume.contents Volume.byteAt Volume.fileBlock
  simp only [h.addr_eq hf hlen]
  rw [h.vol_eq hf hlen]

/-! ## Files -/

theorem Mounted.file (hlen : files.length + 2 ≤ NINODES)
    (hi : i < files.length) : (s.vol.node (i + 2)).type = T_FILE ∧ s.vol.contents (i + 2) = files[i].data := by
  obtain ⟨m₀, hbuilt, hvol, -⟩ := hf.built
  obtain ⟨htype, hcont⟩ := hbuilt.file i hi
  have hne : i + 2 ≠ ROOTINO := by
    simp only [ROOTINO]
    omega
  constructor
  · rw [h.vol_eq hf hlen]
    dsimp only
    rw [hvol, setSize_node_ne hne, htype]
  · rw [h.contents hf hlen, hvol, ← hcont]
    unfold Volume.contents
    rw [setSize_node_ne hne]
    exact map_congr_left fun o _ => byteAt_setSize o

end

end

/-! ## The root directory -/

theorem getD_flatMap_direntBytes (es : List Dirent) {j : ℕ} (hj : j < es.length) (hi : i < DIRENTSIZE) :
    (es.flatMap direntBytes).getD (DIRENTSIZE * j + i) 0 = es[j].bytes i := by
  induction es generalizing j with
  | nil => exact absurd hj (not_lt_zero _)
  | cons de es ih =>
    rw [flatMap_cons]
    cases j with
    | zero =>
      rw [mul_zero, zero_add, getD_append _ _ _ _ (by rw [length_direntBytes]; exact hi)]
      simp [direntBytes, hi]
    | succ j =>
      rw [getD_append_right _ _ _ _ (by rw [length_direntBytes, mul_succ]; omega), length_direntBytes,
        show DIRENTSIZE * (j + 1) + i - DIRENTSIZE = DIRENTSIZE * j + i by rw [mul_succ]; omega,
        ih (by simpa using hj)]
      rfl

theorem Finished.root_contents (hf : Finished files m) (hlen : files.length + 2 ≤ ninodeblocks * IPB) :
    (imageVol m.img).contents ROOTINO = (rootEntries files).flatMap direntBytes ++
      List.replicate (rootSize files.length - DIRENTSIZE * (files.length + 2)) 0 := by
  have hsize := hf.root_size hlen
  obtain ⟨m₀, hbuilt, hvol, -⟩ := hf.built
  have hlength : ((rootEntries files).flatMap direntBytes).length = DIRENTSIZE * (files.length + 2) := by
    rw [length_flatMap_direntBytes, length_rootEntries]
  have hround : DIRENTSIZE * (files.length + 2) ≤ rootSize files.length := by
    simp only [rootSize, DIRENTSIZE, BSIZE]
    omega
  apply ext_getElem
  · rw [length_contents, hsize, length_append, hlength, length_replicate]
    omega
  · intro o ho _
    rw [length_contents, hsize] at ho
    have hbyte : ((imageVol m.img).contents ROOTINO)[o] = m₀.vol.byteAt ROOTINO o := by
      simp only [contents, getElem_map, getElem_range]
      rw [hvol, byteAt_setSize]
    rw [hbyte]
    by_cases hlow : o < DIRENTSIZE * (files.length + 2)
    · rw [getElem_append_left (by rw [hlength]; exact hlow)]
      have hget := getD_contents (V := m₀.vol) (i := ROOTINO) (o := o) (by rw [hbuilt.root_size]; exact hlow)
      rw [← hget, hbuilt.root.2, getD_eq_getElem]
    · rw [getElem_append_right (by rw [hlength]; omega), getElem_replicate]
      by_cases h0 : m₀.vol.addr ROOTINO (.block (o / BSIZE)) = 0
      · rw [byteAt, fileBlock, h0]
        exact Buffer.byte_zero _
      · have hmax : o / BSIZE < MAXFILE := by
          simp only [rootSize, DIRENTSIZE, BSIZE, ninodeblocks, NINODES, IPB, DINODESIZE, MAXFILE, NDIRECT,
            NINDIRECT] at *
          omega
        exact hbuilt.zero o (by rw [hbuilt.root_size]; omega) hmax h0

theorem entryAt_root {z : ℕ} (j : ℕ) :
    entryAt ((rootEntries files).flatMap direntBytes ++ List.replicate z 0) j =
      if h : j < (rootEntries files).length then
        ⟨(rootEntries files)[j].inum, canon (rootEntries files)[j].name⟩ else ⟨0, []⟩ := by
  have hlength : ((rootEntries files).flatMap direntBytes).length = DIRENTSIZE * (rootEntries files).length :=
    length_flatMap_direntBytes _
  split
  · next h =>
    rw [← ofBytes_bytes_canon]
    refine Dirent.ofBytes_congr fun i hi => ?_
    have hin : DIRENTSIZE * j + i < ((rootEntries files).flatMap direntBytes).length := by
      rw [hlength]
      calc DIRENTSIZE * j + i < DIRENTSIZE * j + DIRENTSIZE := by omega
        _ = DIRENTSIZE * (j + 1) := (Nat.mul_succ ..).symm
        _ ≤ _ := Nat.mul_le_mul_left _ h
    rw [getD_append _ _ _ _ hin, getD_flatMap_direntBytes _ h hi]
  · next h =>
    have hzero : Dirent.ofBytes (fun _ => 0) = ⟨0, []⟩ := by decide
    rw [← hzero]
    refine Dirent.ofBytes_congr fun i hi => ?_
    have hout : ((rootEntries files).flatMap direntBytes).length ≤ DIRENTSIZE * j + i := by
      rw [hlength]
      exact (Nat.mul_le_mul_left _ (Nat.le_of_not_lt h)).trans (Nat.le_add_right ..)
    rw [getD_append_right _ _ _ _ hout, getD_eq_getElem?_getD, List.getElem?_replicate]
    split <;> rfl

/-- The names that are stored are pairwise different. -/
def NamesDistinct (files : List Input) : Prop := ((rootEntries files).map fun de => canon de.name).Nodup

/-- The map of the root directory. -/
def rootMap (files : List Input) (n : Name) : ℕ :=
  ((rootEntries files).find? fun de => canon de.name = n).elim 0 fun de => de.inum.toNat

theorem rootEntries_inum (hlen : files.length + 2 ≤ NINODES) (h : de ∈ rootEntries files) :
    de.inum ≠ 0 := by
  unfold rootEntries at h
  rcases mem_cons.1 h with rfl | h
  · decide
  rcases mem_cons.1 h with rfl | h
  · decide
  obtain ⟨i, hi, rfl⟩ := mem_mapIdx.1 h
  intro h0
  have := congrArg UInt16.toNat h0
  rw [UInt16.toNat_ofNat', mod_eq_of_lt (by simp only [NINODES] at hlen; omega)] at this
  cases this

theorem rootMap_of_mem (hnames : NamesDistinct files) (h : de ∈ rootEntries files) :
    rootMap files (canon de.name) = de.inum.toNat := by
  unfold rootMap
  cases hfind : (rootEntries files).find? fun x => canon x.name = canon de.name with
  | none =>
    have := List.find?_eq_none.1 hfind de h
    simp at this
  | some x =>
    have hx : canon x.name = canon de.name := by
      have := List.find?_some hfind
      rwa [decide_eq_true_iff] at this
    rw [inj_on_of_nodup_map hnames (mem_of_find?_eq_some hfind) h hx]
    rfl

theorem Mounted.root_bytes (h : Mounted m s) (hf : Finished files m) (hlen : files.length + 2 ≤ NINODES)
    (hcached : Cached s k) (hinum : (s.inode k).inum = ROOTINO) :
    s.bytes k = (rootEntries files).flatMap direntBytes ++
      List.replicate (rootSize files.length - DIRENTSIZE * (files.length + 2)) 0 := by
  have hmore : NINODES ≤ ninodeblocks * IPB := by decide
  rw [bytes, hcached.volWith_eq, hinum, h.contents hf hlen, hf.root_contents (hlen.trans hmore)]

theorem Mounted.root (h : Mounted m s) (hf : Finished files m) (hlen : files.length + 2 ≤ NINODES)
    (hfill : ¬ 32 ∣ files.length + 2) (hnames : NamesDistinct files) (hcached : Cached s k)
    (hinum : (s.inode k).inum = ROOTINO) (href : 0 < (s.inode k).ref) : DirMap s k 1 1 (rootMap files) := by
  have hbytes := h.root_bytes hf hlen hcached hinum
  have hlength : (s.bytes k).length = DIRENTSIZE * (rootSize files.length / DIRENTSIZE) := by
    rw [hbytes, length_append, length_flatMap_direntBytes, length_rootEntries, length_replicate]
    simp only [rootSize, DIRENTSIZE, BSIZE]
    omega
  have hcount : files.length + 2 ≤ rootSize files.length / DIRENTSIZE := by
    simp only [rootSize, DIRENTSIZE, BSIZE]
    omega
  have htype : (s.inode k).node.type = T_DIR := by
    obtain ⟨m₀, hbuilt, hvol, -⟩ := hf.built
    rw [hcached.node, hinum, h.vol_eq hf hlen]
    dsimp only
    rw [hvol, setSize_node_self]
    exact hbuilt.root.1
  have hentry : ∀ j, entryAt (s.bytes k) j = if h : j < (rootEntries files).length then
      ⟨(rootEntries files)[j].inum, canon (rootEntries files)[j].name⟩ else ⟨0, []⟩ := fun j => by
    rw [hbytes, entryAt_root]
  have hlive : ∀ j, (entryAt (s.bytes k) j).inum ≠ 0 → ∃ h : j < (rootEntries files).length,
      entryAt (s.bytes k) j = ⟨(rootEntries files)[j].inum, canon (rootEntries files)[j].name⟩ := by
    intro j hj
    rw [hentry] at hj ⊢
    split at hj
    · next hlt => exact ⟨hlt, dif_pos hlt⟩
    · exact absurd rfl hj
  refine ⟨rootSize files.length / DIRENTSIZE, ⟨h.diskOk hf hlen hfill, hcached, href, htype, hlength⟩,
    by omega, ?_, ?_, by decide, by decide, fun a b _ _ ha0 hb0 hab => ?_, fun a _ ha0 => ?_, fun n hn => ?_⟩
  · rw [hentry, dif_pos (by rw [length_rootEntries]; omega)]
    exact congrArg (Dirent.mk _) canon_dot
  · rw [hentry, dif_pos (by rw [length_rootEntries]; omega)]
    exact congrArg (Dirent.mk _) canon_dotdot
  · obtain ⟨hla, hea⟩ := hlive a ha0
    obtain ⟨hlb, heb⟩ := hlive b hb0
    rw [hea, heb] at hab
    exact (List.Nodup.of_map _ hnames).getElem_inj_iff.1
      (inj_on_of_nodup_map hnames (getElem_mem hla) (getElem_mem hlb) hab)
  · obtain ⟨hla, hea⟩ := hlive a ha0
    rw [hea]
    exact rootMap_of_mem hnames (getElem_mem hla)
  · unfold rootMap at hn
    cases hfind : (rootEntries files).find? fun x => canon x.name = canon n with
    | none =>
      rw [hfind] at hn
      exact absurd rfl hn
    | some de =>
      have hde := mem_of_find?_eq_some hfind
      have hname : canon de.name = canon n := by
        have := List.find?_some hfind
        rwa [decide_eq_true_iff] at this
      obtain ⟨a, ha, rfl⟩ := getElem_of_mem hde
      refine ⟨a, by rw [length_rootEntries] at ha; omega, ?_, ?_⟩
      · rw [hentry, dif_pos ha]
        have hused := rootEntries_inum hlen hde
        exact hused
      · rw [hentry, dif_pos ha]
        exact hname

/-! ## The first process -/

/-- The kernel after `ilock` of the root directory. -/
def rootLocked (m : Image) : FsState :=
  (Fs.boot m.img).setInode 0 ⟨ROOTDEV, ROOTINO, 1, true, true, (Fs.boot m.img).dnode ROOTINO⟩

theorem rootLocked_inode (m : Image) :
    (rootLocked m).inode 0 = ⟨ROOTDEV, ROOTINO, 1, true, true, (Fs.boot m.img).dnode ROOTINO⟩ := by
  simp only [rootLocked, setInode, Function.update_self]

theorem rootLocked_mounted (m : Image) : Mounted m (rootLocked m) := ⟨rfl, rfl⟩

theorem rootLocked_cached (hf : Finished files m) : Cached (rootLocked m) 0 := by
  have hsb := (rootLocked_mounted m).sb_eq hf
  have hlt : ROOTINO < (rootLocked m).sb.ninodes.toNat := by
    rw [hsb]
    decide
  refine ⟨by rw [rootLocked_inode]; exact hlt, ?_⟩
  rw [rootLocked_inode]
  exact (if_pos hlt).symm

end Xv6.Mkfs
