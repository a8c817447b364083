import Xv6.VolumeWrite

/-!
# Block lookup in the kernel

`bmap` and the loops over it work on the content of one cached inode, which may be ahead of its copy
on disk. `volWith k` is the volume in which that inode is taken from cache entry `k` and everything
else from the disk; with respect to it `bmap` returns the address of a block of the file and, one
block past its end, extends it.
-/

namespace Xv6.Fs

open Resumption ByteLayout FreeMap Function

namespace FsState

variable {s s' s₁ : FsState} {k : Fin NINODE} {b i : ℕ} {x : Block} {d : Dinode}

/-- The volume on disk. -/
def vol (s : FsState) : Volume where
  sb := s.sb
  node i := if i < s.sb.ninodes.toNat then s.dnode i else .zero
  used b := decide (b < s.sb.size.toNat) && s.used b
  data b := if s.sb.dataStart ≤ b then s.disk b else .zero

/-- The volume with the inode of cache entry `k` as it is in memory. -/
def volWith (s : FsState) (k : Fin NINODE) : Volume :=
  { s.vol with node := Function.update s.vol.node (s.inode k).inum (s.inode k).node }

@[simp] theorem vol_sb : s.vol.sb = s.sb := rfl

@[simp] theorem volWith_sb : (s.volWith k).sb = s.sb := rfl

@[simp] theorem volWith_used : (s.volWith k).used = s.vol.used := rfl

@[simp] theorem volWith_data : (s.volWith k).data = s.vol.data := rfl

@[simp] theorem volWith_node_self :
    (s.volWith k).node (s.inode k).inum = (s.inode k).node := update_self ..

theorem vol_data (hb : s.sb.dataStart ≤ b) : s.vol.data b = s.disk b := if_pos hb

theorem vol_used (hb : b < s.sb.size.toNat) : s.vol.used b = s.used b := by
  simp [vol, hb]

theorem vol_putBlock (hw : s.sb.WellFormed) (hb : s.sb.dataStart ≤ b) :
    (s.putBlock b x).vol = s.vol.store b x := by
  unfold vol Volume.store
  rw [putBlock_sb]
  congr 1
  · funext j
    dsimp only
    split_ifs with hj
    · exact dnode_putBlock_data hw hb hj
    · rfl
  · funext c
    by_cases hc : c < s.sb.size.toNat
    · simp [hc, used_putBlock_data hb hc]
    · simp [hc]
  · funext c
    by_cases hcb : c = b
    · subst hcb
      simp [hb]
    · rw [update_of_ne hcb, putBlock_disk_ne hcb]

theorem vol_takeBlock (hw : s.sb.WellFormed) (hb : b < s.sb.size.toNat)
    (hlo : s.sb.dataStart ≤ b) : (s.takeBlock b).vol =
      { s.vol with used := update s.vol.used b true
                   data := update s.vol.data b .zero } := by
  unfold vol
  rw [takeBlock_sb]
  congr 1
  · funext j
    dsimp only
    split_ifs with hj
    · exact dnode_takeBlock hw hb hlo hj
    · rfl
  · funext c
    by_cases hcb : c = b
    · subst hcb
      simp [hb, used_takeBlock hlo hb]
    · rw [update_of_ne hcb]
      by_cases hc : c < s.sb.size.toNat
      · simp [hc, used_takeBlock hlo hc, hcb]
      · simp [hc]
  · funext c
    by_cases hcb : c = b
    · subst hcb
      simp [hlo]
    · rw [update_of_ne hcb]
      dsimp only
      split_ifs with hc
      · exact disk_takeBlock hb hc hcb
      · rfl

theorem vol_putNode (hw : s.sb.WellFormed) (hi : i < s.sb.ninodes.toNat) :
    (s.putNode i d).vol = { s.vol with node := update s.vol.node i d } := by
  have hsb : (s.putNode i d).sb = s.sb := rfl
  unfold vol
  rw [hsb]
  congr 1
  · funext j
    by_cases hji : j = i
    · subst hji
      simp [hi, dnode_putNode]
    · rw [update_of_ne hji]
      simp [dnode_putNode, hji]
  · funext c
    by_cases hc : c < s.sb.size.toNat
    · simp [hc, used_putNode hw hi hc]
    · simp [hc]
  · funext c
    dsimp only
    split_ifs with hc
    · exact disk_putNode_data hw hi hc
    · rfl

def growAddr (s : FsState) (k : Fin NINODE) (a : Fin (NDIRECT + 1)) (b : ℕ) : FsState :=
  (s.takeBlock b).setNode k
    { (s.inode k).node with addrs := Function.update (s.inode k).node.addrs a (UInt32.ofNat b) }

def growEntry (s : FsState) (ind j b : ℕ) : FsState :=
  (s.takeBlock b).putBlock ind ((s.disk ind).setWord j (UInt32.ofNat b))

section

variable (hw : s.sb.WellFormed)
include hw

theorem volWith_growAddr {a : Fin (NDIRECT + 1)}
    (hb : b < s.sb.size.toNat) (hlo : s.sb.dataStart ≤ b) :
    (s.growAddr k a b).volWith k = (s.volWith k).growAddr (s.inode k).inum a b := by
  have hvol : (s.growAddr k a b).vol = (s.takeBlock b).vol := rfl
  have hinum : ((s.growAddr k a b).inode k).inum = (s.inode k).inum := by
    simp [growAddr, setNode, setInode]
  have hnode : ((s.growAddr k a b).inode k).node =
      { (s.inode k).node with
        addrs := update (s.inode k).node.addrs a (UInt32.ofNat b) } := by
    simp [growAddr, setNode, setInode]
  unfold volWith Volume.growAddr
  rw [hvol, hinum, hnode, vol_takeBlock hw hb hlo]
  simp only [update_self, update_idem]

theorem volWith_putBlock (hb : s.sb.dataStart ≤ b) :
    (s.putBlock b x).volWith k = (s.volWith k).store b x := by
  unfold volWith
  rw [vol_putBlock hw hb]
  rfl

theorem volWith_takeBlock (hb : b < s.sb.size.toNat)
    (hlo : s.sb.dataStart ≤ b) : (s.takeBlock b).volWith k =
      { s.volWith k with used := update s.vol.used b true
                         data := update s.vol.data b .zero } := by
  unfold volWith
  rw [vol_takeBlock hw hb hlo]
  rfl

theorem volWith_growEntry {j ind : ℕ} (hb : b < s.sb.size.toNat) (hlo : s.sb.dataStart ≤ b)
    (hind : (s.volWith k).addr (s.inode k).inum .indirect = ind) (hdata : s.sb.dataStart ≤ ind) :
    (s.growEntry ind j b).volWith k = (s.volWith k).growEntry (s.inode k).inum j b := by
  unfold growEntry Volume.growEntry
  rw [volWith_putBlock (s := s.takeBlock b) hw hdata, volWith_takeBlock hw hb hlo, hind,
    volWith_data, vol_data hdata]
  rfl

end

end FsState

/-! ## What a write to one inode leaves alone -/

/-- Only disk blocks outside the inode table, the trace and the content of cache entry `k` differ
between `s` and `s'`. -/
structure Inside (k : Fin NINODE) (s s' : FsState) : Prop where
  sb : s'.sb = s.sb
  super : s'.disk 1 = s.disk 1
  file : s'.file = s.file
  proc : s'.proc = s.proc
  cur : s'.cur = s.cur
  node : s'.vol.node = s.vol.node
  inode : ∃ d, s'.inode = Function.update s.inode k { s.inode k with node := d }

namespace Inside

variable {s s' s₁ : FsState} {k : Fin NINODE} {b : ℕ}

theorem refl (k : Fin NINODE) (s : FsState) : Inside k s s :=
  ⟨rfl, rfl, rfl, rfl, rfl, rfl, (s.inode k).node, (update_eq_self k s.inode).symm⟩

theorem trans (h : Inside k s s₁) (h' : Inside k s₁ s') : Inside k s s' := by
  refine ⟨h'.sb.trans h.sb, h'.super.trans h.super, h'.file.trans h.file, h'.proc.trans h.proc,
    h'.cur.trans h.cur, h'.node.trans h.node, ?_⟩
  obtain ⟨d, hd⟩ := h.inode
  obtain ⟨d', hd'⟩ := h'.inode
  exact ⟨d', by rw [hd', hd, update_self, update_idem]⟩

theorem inum (h : Inside k s s') : (s'.inode k).inum = (s.inode k).inum := by
  obtain ⟨d, hd⟩ := h.inode
  rw [hd, update_self]

theorem putBlock {x : Block} (hw : s.sb.WellFormed) (hb : s.sb.dataStart ≤ b) :
    Inside k s (s.putBlock b x) := by
  have h₁ := two_le_bmapstart hw
  have h₂ := bmapstart_lt_dataStart s.sb
  refine ⟨rfl, FsState.putBlock_disk_ne (by omega), rfl, rfl, rfl, ?_, (Inside.refl k s).inode⟩
  rw [FsState.vol_putBlock hw hb]
  rfl

theorem takeBlock (hw : s.sb.WellFormed) (hb : b < s.sb.size.toNat) (hlo : s.sb.dataStart ≤ b) :
    Inside k s (s.takeBlock b) := by
  have h₁ := two_le_bmapstart hw
  have h₂ := bmapstart_lt_dataStart s.sb
  have h₃ := BBLOCK_range hb
  refine ⟨rfl, ?_, rfl, rfl, rfl, ?_, (Inside.refl k s).inode⟩
  · unfold FsState.takeBlock FsState.markUsed
    rw [FsState.putBlock_disk_ne (by omega), FsState.putBlock_disk_ne (by omega)]
  · rw [FsState.vol_takeBlock hw hb hlo]

theorem setNode (d : Dinode) : Inside k s (s.setNode k d) := by
  refine ⟨rfl, rfl, rfl, rfl, rfl, rfl, d, rfl⟩

end Inside

/-- Between `s` and `s'` exactly the blocks of `L` were passed to `log_write`. -/
def Logs (s s' : FsState) (L : List ℕ) : Prop :=
  s'.trace = s.trace ++ L.map fun b => (s.cur, FsEvent.logWrite b)

end Xv6.Fs
