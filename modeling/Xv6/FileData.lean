import Xv6.FileContents
import Xv6.FileModel

/-!
# Files as byte arrays

`readi` and `writei` on a file system whose free map is exact and whose files have no holes. Both are
functions of the contents of the file: reading returns a slice, writing overwrites, and all other
files are left alone.
-/

namespace Xv6.Fs

open Resumption ByteLayout FreeMap Function UInt32 Volume List FsState

/-- The invariants of a file system on disk. -/
structure DiskOk (s : FsState) : Prop where
  wf : s.sb.WellFormed
  super : s.sb = superblock (s.disk 1)
  exact : s.vol.Exact
  holeFree : s.vol.HoleFree

/-- Cache entry `k` holds an inode of the disk as it is stored there. -/
structure Cached (s : FsState) (k : Fin NINODE) : Prop where
  lt : (s.inode k).inum < s.sb.ninodes.toNat
  node : (s.inode k).node = s.vol.node (s.inode k).inum

/-- The contents `l` with `n` bytes of `src` written at `off`. -/
def overwrite (l : List UInt8) (off n : ℕ) (src : Bytes) : List UInt8 :=
  (List.range (max l.length (off + n))).map fun o =>
    if off ≤ o ∧ o < off + n then src (o - off) else l.getD o 0

variable {s s' : FsState} {k : Fin NINODE} {off n : UInt32} {src : Bytes}
  {E : Stop → FsState → Prop}

variable {V V' : Volume} {i m : ℕ} {R : Unit → FsState → Prop} {s₁ : FsState}

theorem Cached.volWith_eq (h : Cached s k) : s.volWith k = s.vol := by
  unfold volWith
  rw [h.node, update_eq_self]

theorem Cached.size_eq (h : Cached s k) :
    (s.inode k).node.size = (s.vol.node (s.inode k).inum).size := by rw [h.node]

theorem add_lt_iff (a b : UInt32) : a + b < a ↔ 2 ^ 32 ≤ a.toNat + b.toNat := by
  rw [UInt32.lt_iff_toNat_lt, UInt32.toNat_add]
  have := a.toNat_lt
  have := b.toNat_lt
  omega

theorem contents_slice {off n : ℕ} :
    ((V.contents i).drop off).take n =
      (List.range (min n ((V.node i).size.toNat - off))).map fun j => V.byteAt i (off + j) := by
  apply ext_getElem
  · simp [contents]
  · intro j _ _
    simp [contents]

theorem length_contents (V : Volume) (i : ℕ) :
    (V.contents i).length = (V.node i).size.toNat := by simp [contents]

theorem size_le_blocks (size : ℕ) : size ≤ blocksOf size * BSIZE := by
  simp only [blocksOf, BSIZE]
  omega

/-! ## Locking -/

theorem wp_ilock (href : 1 ≤ (s.inode k).ref) (hbusy : (s.inode k).busy = false)
    (hlt : (s.inode k).inum < s.sb.ninodes.toNat)
    (hnode : (s.inode k).valid = true → (s.inode k).node = s.vol.node (s.inode k).inum)
    (htype : (s.vol.node (s.inode k).inum).type ≠ 0)
    (hR : R () (s.setInode k { s.inode k with
      busy := true, valid := true, node := s.vol.node (s.inode k).inum })) :
    wp (ilock k) R E s := by
  have hdisk : s.vol.node (s.inode k).inum =
      dinode (s.disk (IBLOCK (s.inode k).inum s.sb)) ((s.inode k).inum % IPB) := if_pos hlt
  unfold ilock
  simp only [wp_bind, wp_get]
  rw [if_neg (by omega), if_neg (by rw [hbusy]; decide)]
  by_cases hv : (s.inode k).valid = true
  · rw [if_pos hv, wp_set]
    rw [← hnode hv] at hR
    convert hR using 3
  · rw [if_neg hv]
    simp only [wp_bind, wp_set, wp_ite, wp_pure]
    rw [← hdisk]
    exact ⟨fun h => absurd h htype, fun _ => hR⟩

theorem wp_iunlock (href : 1 ≤ (s.inode k).ref) (hbusy : (s.inode k).busy = true)
    (hR : R () (s.setInode k { s.inode k with busy := false })) : wp (iunlock k) R E s := by
  unfold iunlock
  simp only [wp_bind, wp_get]
  rw [if_neg (by rw [hbusy]; simp only [not_true_eq_false, false_or]; omega), wp_set]
  exact hR

/-! ## Reading -/

def ReadableFile (s : FsState) (k : Fin NINODE) : Prop :=
  Readable (s.volWith k) (s.inode k).inum (blocksOf (s.inode k).node.size.toNat)

theorem wp_readData_within {R : Option (List UInt8) → FsState → Prop} {b : ℕ}
    (h : Readable (s.volWith k) (s.inode k).inum b)
    (hin : off.toNat ≤ (s.inode k).node.size.toNat →
      off.toNat + min n.toNat ((s.inode k).node.size.toNat - off.toNat) ≤ b * BSIZE)
    (hfail : (s.inode k).node.size.toNat < off.toNat ∨ 2 ^ 32 ≤ off.toNat + n.toNat → R none s)
    (hR : off.toNat ≤ (s.inode k).node.size.toNat → off.toNat + n.toNat < 2 ^ 32 →
      R (some ((((s.volWith k).contents (s.inode k).inum).drop off.toNat).take n.toNat)) s) :
    wp (readData k off n) R E s := by
  unfold readData
  simp only [getNode, wp_bind, wp_get, wp_pure, wp_ite]
  rw [gt_iff_lt, UInt32.lt_iff_toNat_lt, add_lt_iff]
  refine ⟨hfail, ?_⟩
  intro hok
  push Not at hok
  obtain ⟨hsize, hwrap⟩ := hok
  have hadd : (off + n).toNat = off.toNat + n.toNat := toNat_add_of_not_lt (by rw [add_lt_iff]; omega)
  have hn : (if off + n > (s.inode k).node.size then (s.inode k).node.size - off else n).toNat =
      min n.toNat ((s.inode k).node.size.toNat - off.toNat) := by
    split_ifs with hgt
    · rw [gt_iff_lt, UInt32.lt_iff_toNat_lt, hadd] at hgt
      rw [UInt32.toNat_sub_of_le _ _ (UInt32.le_iff_toNat_le.mpr hsize)]
      omega
    · rw [gt_iff_lt, UInt32.lt_iff_toNat_lt, hadd] at hgt
      omega
  rw [wp_map, hn]
  apply wp_readLoop h (hin hsize)
  have := hR hsize hwrap
  rwa [contents_slice, FsState.volWith_node_self] at this

theorem wp_readData {R : Option (List UInt8) → FsState → Prop} (h : ReadableFile s k)
    (hfail : (s.inode k).node.size.toNat < off.toNat ∨ 2 ^ 32 ≤ off.toNat + n.toNat → R none s)
    (hR : off.toNat ≤ (s.inode k).node.size.toNat → off.toNat + n.toNat < 2 ^ 32 →
      R (some ((((s.volWith k).contents (s.inode k).inum).drop off.toNat).take n.toNat)) s) :
    wp (readData k off n) R E s := by
  refine wp_readData_within h (fun _ => ?_) hfail hR
  have := size_le_blocks (s.inode k).node.size.toNat
  omega

/-! ## Writing -/

theorem Volume.Extends.node_eq (e : V.Extends V' i m m)
    (hn : V.HasBlocks i m) (hi : V.Allocated i) : V'.node i = V.node i := by
  obtain ⟨a, ha⟩ := e.node
  have hsame : ∀ sl, (∃ c, sl = Volume.slotOf c) → V'.addr i sl = V.addr i sl := by
    rintro sl ⟨c, rfl⟩
    by_cases h0 : V.addr i (Volume.slotOf c) = 0
    · have h0' : V'.addr i (Volume.slotOf c) = 0 := by
        unfold Volume.slotOf at h0 ⊢
        split_ifs at h0 ⊢ with hl
        · by_contra hne
          exact (hn.indirect.mpr (e.has.indirect.mp hne)) h0
        · have hlt : (c : ℕ) < MAXFILE := (Fin.val_lt_last hl).trans (by decide)
          by_contra hne
          exact ((hn.block _ hlt).mpr ((e.has.block _ hlt).mp hne)) h0
      rw [h0, h0']
    · exact e.addr i _ hi (.inr h0)
  have haddrs : a = (V.node i).addrs := by
    funext c
    have := hsame _ ⟨c, rfl⟩
    rw [Volume.addr_slotOf, Volume.addr_slotOf, ha] at this
    exact UInt32.toNat_inj.mp this
  rw [ha, haddrs]

theorem Volume.Extends.hasBlocks_ne {j m' l : ℕ} (e : V.Extends V' i m m')
    (hj : V.Allocated j) (hne : j ≠ i) (h : V.HasBlocks j l) : V'.HasBlocks j l := by
  have ha : ∀ sl, V'.addr j sl = V.addr j sl := fun sl => e.addr j sl hj (.inl hne)
  exact ⟨h.le, fun q hq => by rw [ha]; exact h.block q hq, by rw [ha]; exact h.indirect⟩

/-- `n` bytes of `src` have been written at `off` to the inode of cache entry `k`. -/
structure Wrote (k : Fin NINODE) (src : Bytes) (off n : ℕ) (s s' : FsState) : Prop where
  sb : s'.sb = s.sb
  file : s'.file = s.file
  proc : s'.proc = s.proc
  cur : s'.cur = s.cur
  inode : s'.inode =
    Function.update s.inode k { s.inode k with node := s'.vol.node (s.inode k).inum }
  ok : DiskOk s'
  node_ne : ∀ j, j ≠ (s.inode k).inum → s'.vol.node j = s.vol.node j
  node : ∃ a, s'.vol.node (s.inode k).inum =
    { s.vol.node (s.inode k).inum with
      size := UInt32.ofNat (max (s.vol.node (s.inode k).inum).size.toNat (off + n)), addrs := a }
  contents : s'.vol.contents (s.inode k).inum =
    overwrite (s.vol.contents (s.inode k).inum) off n src
  contents_ne : ∀ j, j ≠ (s.inode k).inum → s.vol.Allocated j →
    s'.vol.contents j = s.vol.contents j
  used : ∀ b, s.vol.used b = true → s'.vol.used b = true
  free : freeCount s'.vol.used s'.sb.size.toNat +
      Volume.cost (blocksOf (max (s.vol.node (s.inode k).inum).size.toNat (off + n))) =
    freeCount s.vol.used s.sb.size.toNat +
      Volume.cost (blocksOf (s.vol.node (s.inode k).inum).size.toNat)
  logs : ∃ L, Logs s s' L ∧ ∀ b, b ∈ L ↔
    ((∃ q, (0 < n ∧ off / BSIZE ≤ q ∧ q * BSIZE < off + n) ∧
        b = s'.vol.addr (s.inode k).inum (.block q)) ∨
      (∃ c, Fresh s s' c ∧ b = BBLOCK c s.sb) ∨
      (blocksOf (s.vol.node (s.inode k).inum).size.toNat < blocksOf (off + n) ∧
        NDIRECT < blocksOf (off + n)) ∧ b = s'.vol.addr (s.inode k).inum .indirect) ∨
    (0 < n ∧ (s.vol.node (s.inode k).inum).size.toNat < off + n) ∧
      b = IBLOCK (s.inode k).inum s.sb

/-- The file system as far as the file of cache entry `k` is concerned: other files may have holes. -/
structure FileOk (s : FsState) (k : Fin NINODE) : Prop where
  wf : s.sb.WellFormed
  exact : s.vol.Exact
  allocated : s.vol.Allocated (s.inode k).inum
  hole : s.vol.HasBlocks (s.inode k).inum (blocksOf (s.vol.node (s.inode k).inum).size.toNat)

theorem DiskOk.fileOk (hd : DiskOk s) (hi : s.vol.Allocated (s.inode k).inum) : FileOk s k :=
  ⟨hd.wf, hd.exact, hi, hd.holeFree _ hi⟩

/-- `n` bytes of `src` have been written at `off` to a file without holes. -/
structure WroteFile (k : Fin NINODE) (src : Bytes) (off n : ℕ) (s s' : FsState) : Prop where
  sb : s'.sb = s.sb
  super : s'.disk 1 = s.disk 1
  file : s'.file = s.file
  proc : s'.proc = s.proc
  cur : s'.cur = s.cur
  inode : s'.inode =
    Function.update s.inode k { s.inode k with node := s'.vol.node (s.inode k).inum }
  exact : s'.vol.Exact
  alloc : ∀ j, s'.vol.Allocated j ↔ s.vol.Allocated j
  hole : s'.vol.HasBlocks (s.inode k).inum
    (blocksOf (max (s.vol.node (s.inode k).inum).size.toNat (off + n)))
  size : (s'.vol.node (s.inode k).inum).size.toNat =
    max (s.vol.node (s.inode k).inum).size.toNat (off + n)
  node_ne : ∀ j, j ≠ (s.inode k).inum → s'.vol.node j = s.vol.node j
  node : ∃ a, s'.vol.node (s.inode k).inum =
    { s.vol.node (s.inode k).inum with
      size := UInt32.ofNat (max (s.vol.node (s.inode k).inum).size.toNat (off + n)), addrs := a }
  contents : s'.vol.contents (s.inode k).inum =
    overwrite (s.vol.contents (s.inode k).inum) off n src
  others : ∀ j, j ≠ (s.inode k).inum → s.vol.Allocated j →
    s.vol.HasBlocks j (blocksOf (s.vol.node j).size.toNat) →
    s'.vol.HasBlocks j (blocksOf (s.vol.node j).size.toNat) ∧
      s'.vol.contents j = s.vol.contents j
  used : ∀ b, s.vol.used b = true → s'.vol.used b = true
  free : freeCount s'.vol.used s'.sb.size.toNat +
      Volume.cost (blocksOf (max (s.vol.node (s.inode k).inum).size.toNat (off + n))) =
    freeCount s.vol.used s.sb.size.toNat +
      Volume.cost (blocksOf (s.vol.node (s.inode k).inum).size.toNat)
  logs : ∃ L, Logs s s' L ∧ ∀ b, b ∈ L ↔
    ((∃ q, (0 < n ∧ off / BSIZE ≤ q ∧ q * BSIZE < off + n) ∧
        b = s'.vol.addr (s.inode k).inum (.block q)) ∨
      (∃ c, Fresh s s' c ∧ b = BBLOCK c s.sb) ∨
      (blocksOf (s.vol.node (s.inode k).inum).size.toNat < blocksOf (off + n) ∧
        NDIRECT < blocksOf (off + n)) ∧ b = s'.vol.addr (s.inode k).inum .indirect) ∨
    (0 < n ∧ (s.vol.node (s.inode k).inum).size.toNat < off + n) ∧
      b = IBLOCK (s.inode k).inum s.sb

theorem WroteFile.wrote {off n : ℕ} (hd : DiskOk s) (h : WroteFile k src off n s s') :
    Wrote k src off n s s' := by
  refine ⟨h.sb, h.file, h.proc, h.cur, h.inode, ⟨?_, ?_, h.exact, ?_⟩, h.node_ne, h.node, h.contents,
    fun j hj hja => (h.others j hj hja (hd.holeFree j hja)).2, h.used, h.free, h.logs⟩
  · rw [h.sb]
    exact hd.wf
  · rw [h.sb, h.super]
    exact hd.super
  · intro j hj
    rw [h.alloc] at hj
    by_cases hji : j = (s.inode k).inum
    · subst hji
      rw [h.size]
      exact h.hole
    · rw [h.node_ne j hji]
      exact (h.others j hji hj (hd.holeFree j hj)).1

/-! ### The new size -/

def Volume.setSize (V : Volume) (i : ℕ) (z : UInt32) : Volume :=
  { V with node := Function.update V.node i { V.node i with size := z } }

section SetSize

variable {V : Volume} {i j : ℕ} {z : UInt32}

theorem Volume.setSize_self : V.setSize i (V.node i).size = V := by
  unfold setSize
  rw [show ({ V.node i with size := (V.node i).size } : Dinode) = V.node i from rfl,
    update_eq_self]

theorem Volume.setSize_node_self :
    (V.setSize i z).node i = { V.node i with size := z } := update_self ..

theorem Volume.setSize_node_ne (h : j ≠ i) : (V.setSize i z).node j = V.node j :=
  update_of_ne h ..

theorem Volume.addr_setSize (sl : Slot) : (V.setSize i z).addr j sl = V.addr j sl := by
  apply addr_congr
  · by_cases h : j = i
    · rw [h, setSize_node_self]
    · rw [setSize_node_ne h]
  · intro _
    rfl

theorem Volume.allocated_setSize : (V.setSize i z).Allocated j ↔ V.Allocated j := by
  unfold Volume.Allocated
  by_cases h : j = i
  · rw [h, setSize_node_self]
    rfl
  · rw [setSize_node_ne h]
    rfl

theorem Volume.exact_setSize (h : V.Exact) : (V.setSize i z).Exact := by
  refine FreeMap.Exact.congr h ?_ fun _ _ => rfl
  rintro ⟨j, sl⟩
  unfold own
  simp only [allocated_setSize, addr_setSize]

theorem Volume.hasBlocks_setSize {m : ℕ} (h : V.HasBlocks j m) : (V.setSize i z).HasBlocks j m :=
  ⟨h.le, fun q hq => by rw [addr_setSize]; exact h.block q hq, by
    rw [addr_setSize]; exact h.indirect⟩

theorem Volume.byteAt_setSize (o : ℕ) : (V.setSize i z).byteAt j o = V.byteAt j o := by
  unfold byteAt fileBlock
  rw [addr_setSize]
  rfl

end SetSize

theorem blocksOf_max (a b : ℕ) : blocksOf (max a b) = max (blocksOf a) (blocksOf b) := by
  simp only [blocksOf, BSIZE]
  omega

theorem getD_contents {o : ℕ} (h : o < (V.node i).size.toNat) :
    (V.contents i).getD o 0 = V.byteAt i o := by
  simp [contents, h]

theorem Written.wroteFile {off n : ℕ} (hf : FileOk s k) (hc : Cached s k)
    (h : Written k (blocksOf (s.vol.node (s.inode k).inum).size.toNat) off n src s s₁)
    (hoff : off ≤ (s.vol.node (s.inode k).inum).size.toNat) (hmax : off + n ≤ MAXFILE * BSIZE)
    (hsb : s'.sb = s₁.sb) (hsuper : s'.disk 1 = s₁.disk 1) (hfile : s'.file = s₁.file)
    (hproc : s'.proc = s₁.proc) (hcur : s'.cur = s₁.cur)
    (hinode : s'.inode =
      update s.inode k { s.inode k with node := s'.vol.node (s.inode k).inum })
    (hvol : s'.vol = (s₁.volWith k).setSize (s.inode k).inum
      (UInt32.ofNat (max (s.vol.node (s.inode k).inum).size.toNat (off + n))))
    (hlogs : ∃ L, Logs s₁ s' L ∧ ∀ b, b ∈ L ↔
      (0 < n ∧ (s.vol.node (s.inode k).inum).size.toNat < off + n) ∧
        b = IBLOCK (s.inode k).inum s.sb) : WroteFile k src off n s s' := by
  have hext := h.ext
  have hbytes := h.bytes
  rw [hc.volWith_eq] at hext hbytes
  generalize hsz : (s.vol.node (s.inode k).inum).size.toNat = size at *
  have hhole := hf.hole
  rw [hsz] at hhole
  have hsizemax : size ≤ MAXFILE * BSIZE := by
    have h₁ := hhole.le
    have h₂ := size_le_blocks size
    exact h₂.trans (Nat.mul_le_mul_right _ h₁)
  have hz : (ofNat (max size (off + n))).toNat = max size (off + n) := by
    rw [toNat_ofNat']
    apply Nat.mod_eq_of_lt
    simp only [MAXFILE, NDIRECT, NINDIRECT, BSIZE] at *
    omega
  have hnode : ∃ a, s'.vol.node (s.inode k).inum =
      { s.vol.node (s.inode k).inum with
        size := ofNat (max size (off + n)), addrs := a } := by
    obtain ⟨a, ha⟩ := hext.node
    exact ⟨a, by rw [hvol, setSize_node_self, ha]⟩
  have hnode_ne : ∀ j, j ≠ (s.inode k).inum → s'.vol.node j = s.vol.node j := by
    intro j hj
    rw [hvol, setSize_node_ne hj, hext.node_ne j hj]
  have hsize : (s'.vol.node (s.inode k).inum).size.toNat = max size (off + n) := by
    obtain ⟨a, ha⟩ := hnode
    rw [ha, hz]
  refine ⟨hsb.trans h.inside.sb, hsuper.trans h.inside.super, hfile.trans h.inside.file,
    hproc.trans h.inside.proc, hcur.trans h.inside.cur, hinode, ?_, ?_, ?_, hsz.symm ▸ hsize, hnode_ne,
    hsz.symm ▸ hnode, ?_, ?_, ?_, ?_, ?_⟩
  · rw [hvol]
    exact exact_setSize hext.exact
  · intro j
    rw [hvol, allocated_setSize, hext.allocated]
  · rw [hsz, hvol, blocksOf_max]
    exact hasBlocks_setSize hext.has
  · obtain ⟨a, ha⟩ := hnode
    unfold overwrite contents
    rw [ha, hz, length_map, length_range, hsz]
    apply map_congr_left
    intro o ho
    rw [mem_range] at ho
    rw [hvol, byteAt_setSize, hbytes o]
    · by_cases hin : off ≤ o ∧ o < off + n
      · rw [if_pos hin, if_pos hin]
      · rw [if_neg hin, if_neg hin]
        have hlt : o < (s.vol.node (s.inode k).inum).size.toNat := by
          rw [hsz]
          omega
        have hget := getD_contents hlt
        unfold contents at hget
        rw [hsz] at hget
        exact hget.symm
    · by_cases hin : off ≤ o ∧ o < off + n
      · exact .inr hin
      · have hlt : o / BSIZE < blocksOf size := by
          simp only [blocksOf, BSIZE]
          omega
        exact .inl ((hhole.block _ (hlt.trans_le hhole.le)).mpr hlt)
  · intro j hj hja hjh
    refine ⟨?_, ?_⟩
    · rw [hvol]
      exact hasBlocks_setSize (hext.hasBlocks_ne hja hj hjh)
    · have hcont := hext.contents_ne hja hj hjh (size_le_blocks _)
      rw [← hcont]
      unfold contents
      rw [hnode_ne j hj, hext.node_ne j hj]
      apply map_congr_left
      intro o _
      rw [hvol, byteAt_setSize]
  · intro b hb
    rw [hvol]
    exact hext.used b hb
  · have hfree := hext.free
    rw [blocksOf_max, hsz, hsb, hvol]
    exact hfree
  · obtain ⟨L, hL, hmem⟩ := h.logs
    obtain ⟨L', hL', hmem'⟩ := hlogs
    refine ⟨L ++ L', hL.trans h.inside.cur hL', ?_⟩
    intro b
    have hfresh : ∀ c, Fresh s s' c ↔ Fresh s s₁ c := by
      intro c
      unfold Fresh
      rw [hvol]
      rfl
    have haddr : ∀ sl, s'.vol.addr (s.inode k).inum sl = (s₁.volWith k).addr (s.inode k).inum sl := by
      intro sl
      rw [hvol, addr_setSize]
    simp only [mem_append, hmem b, hmem' b, hfresh, haddr, hsz]

theorem Written.node {off n : ℕ} (hc : Cached s k) (h : Written k m off n src s s₁) :
    ∃ a, (s₁.inode k).node = { s.vol.node (s.inode k).inum with addrs := a } := by
  obtain ⟨a, ha⟩ := h.ext.node
  rw [hc.volWith_eq, ← h.inside.inum, volWith_node_self, h.inside.inum] at ha
  exact ⟨a, ha⟩

theorem Written.kept {off n : ℕ} (hf : FileOk s k) (hc : Cached s k)
    (h : Written k (blocksOf (s.vol.node (s.inode k).inum).size.toNat) off n src s s₁)
    (hoff : off ≤ (s.vol.node (s.inode k).inum).size.toNat) (hmax : off + n ≤ MAXFILE * BSIZE)
    (hle : off + n ≤ (s.vol.node (s.inode k).inum).size.toNat) : WroteFile k src off n s s₁ := by
  have hext := h.ext
  have hblocks : max (blocksOf (s.vol.node (s.inode k).inum).size.toNat) (blocksOf (off + n)) =
      blocksOf (s.vol.node (s.inode k).inum).size.toNat := by
    rw [← blocksOf_max, max_eq_left hle]
  rw [hc.volWith_eq, hblocks] at hext
  have hsame := hext.node_eq hf.hole hf.allocated
  have hnode₁ : (s₁.inode k).node = s₁.vol.node (s.inode k).inum := by
    rw [← FsState.volWith_node_self, h.inside.inum, hsame, h.inside.node]
  have hvol₁ : s₁.volWith k = s₁.vol := by
    unfold FsState.volWith
    rw [hnode₁, h.inside.inum, update_eq_self]
  apply h.wroteFile hf hc hoff hmax rfl rfl rfl rfl rfl
  · obtain ⟨d, hdd⟩ := h.inside.inode
    rw [← hnode₁, hdd, update_self]
  · rw [hvol₁, max_eq_left hle, UInt32.ofNat_toNat, ← h.inside.node, Volume.setSize_self]
  · exact ⟨[], logs_refl s₁, fun b => by
      rw [List.mem_nil_iff, false_iff]
      omega⟩

theorem Written.resized {off n : ℕ} (hf : FileOk s k) (hc : Cached s k)
    (h : Written k (blocksOf (s.vol.node (s.inode k).inum).size.toNat) off n src s s₁)
    (hoff : off ≤ (s.vol.node (s.inode k).inum).size.toNat) (hmax : off + n ≤ MAXFILE * BSIZE)
    (hn : 0 < n) (hgt : (s.vol.node (s.inode k).inum).size.toNat < off + n) :
    WroteFile k src off n s ((s₁.setNode k { (s₁.inode k).node with size := UInt32.ofNat (off + n) }).putNode
      (s.inode k).inum { (s₁.inode k).node with size := UInt32.ofNat (off + n) }) := by
  have hinum := h.inside.inum
  have hlt : (s.inode k).inum < s₁.sb.ninodes.toNat := by
    rw [h.inside.sb]
    exact hc.lt
  have hw₁ : s₁.sb.WellFormed := h.inside.sb ▸ hf.wf
  generalize hd' : { (s₁.inode k).node with size := ofNat (off + n) } = d
  have hvol' : ((s₁.setNode k d).putNode (s.inode k).inum d).vol =
      { s₁.vol with node := update s₁.vol.node (s.inode k).inum d } :=
    vol_putNode (s := s₁.setNode k d) hw₁ hlt
  have hblock := IBLOCK_range hw₁ hlt
  apply h.wroteFile hf hc hoff hmax
  · rfl
  · exact putBlock_disk_ne (s := s₁.setNode k d)
      (by rw [show (s₁.setNode k d).sb = s₁.sb from rfl]; omega)
  · rfl
  · rfl
  · rfl
  · obtain ⟨e, he⟩ := h.inside.inode
    rw [hvol']
    simp only [update_self]
    change update s₁.inode k { s₁.inode k with node := d } = _
    rw [he, update_self, update_idem]
  · rw [hvol', max_eq_right hgt.le, ← hd']
    unfold setSize volWith
    simp only [hinum, update_self, update_idem]
  · refine ⟨[IBLOCK (s.inode k).inum s.sb], ?_, ?_⟩
    · unfold Logs
      rw [← h.inside.sb]
      rfl
    · intro b
      simp [hn, hgt]

/-! ### `writei` -/

/-- The cases in which `writei` returns -1. -/
def Refused (size off n : ℕ) : Prop := size < off ∨ 2 ^ 32 ≤ off + n ∨ MAXFILE * BSIZE < off + n

instance (size off n : ℕ) : Decidable (Refused size off n) := inferInstanceAs (Decidable (_ ∨ _ ∨ _))

theorem wp_iupdate
    (hR : R () (s.putNode (s.inode k).inum (s.inode k).node)) : wp (iupdate k) R E s := hR

theorem wp_writeFile {R : Option UInt32 → FsState → Prop} (hf : FileOk s k) (hc : Cached s k)
    (hfail : Refused (s.vol.node (s.inode k).inum).size.toNat off.toNat n.toNat → R none s)
    (hfull : ¬ Refused (s.vol.node (s.inode k).inum).size.toNat off.toNat n.toNat →
      freeCount s.vol.used s.sb.size.toNat +
        Volume.cost (blocksOf (s.vol.node (s.inode k).inum).size.toNat) <
      Volume.cost (blocksOf (max (s.vol.node (s.inode k).inum).size.toNat
        (off.toNat + n.toNat))) → ∀ s', E (.panic "balloc: out of blocks") s')
    (hR : ¬ Refused (s.vol.node (s.inode k).inum).size.toNat off.toNat n.toNat →
      ∀ s', WroteFile k src off.toNat n.toNat s s' → R (some n) s') :
    wp (writeData k src off n) R E s := by
  unfold writeData
  simp only [getNode, wp_bind, wp_get, wp_pure, wp_ite]
  rw [gt_iff_lt, gt_iff_lt, UInt32.lt_iff_toNat_lt, add_lt_iff, hc.size_eq]
  generalize hsz : (s.vol.node (s.inode k).inum).size.toNat = size at *
  constructor
  · intro hbad
    exact hfail (hbad.imp_right .inl)
  intro hok
  push Not at hok
  obtain ⟨hsize, hwrap⟩ := hok
  have hadd : (off + n).toNat = off.toNat + n.toNat := toNat_add_of_not_lt (by rw [add_lt_iff]; omega)
  have hlim : UInt32.ofNat (MAXFILE * BSIZE) < off + n ↔ MAXFILE * BSIZE < off.toNat + n.toNat := by
    rw [UInt32.lt_iff_toNat_lt, hadd]
    rfl
  rw [hlim]
  constructor
  · intro hbad
    exact hfail (.inr (.inr hbad))
  intro hmax
  rw [not_lt] at hmax
  have hnot : ¬ Refused size off.toNat n.toNat := by
    unfold Refused
    omega
  have hhole := hf.hole
  rw [hsz] at hhole
  apply wp_writeLoop hf.wf (hc.volWith_eq ▸ hf.exact) (hc.volWith_eq ▸ hf.allocated) (hc.volWith_eq ▸ hhole)
    (hsize.trans (size_le_blocks size)) hmax
  · rw [← blocksOf_max]
    exact hfull hnot
  intro s₁ h₁
  have hinum := h₁.inside.inum
  obtain ⟨a, ha⟩ := h₁.node hc
  have hsize₁ : (s₁.inode k).node.size = (s.vol.node (s.inode k).inum).size := by rw [ha]
  simp only [setNode, wp_modify, hsize₁]
  have hgrow : n > 0 ∧ off + n > (s.vol.node (s.inode k).inum).size ↔
      0 < n.toNat ∧ size < off.toNat + n.toNat := by
    rw [gt_iff_lt, gt_iff_lt, UInt32.lt_iff_toNat_lt, UInt32.lt_iff_toNat_lt, hadd, hsz]
    rfl
  rw [hgrow]
  subst hsz
  constructor
  · intro hgt
    apply wp_iupdate
    apply hR hnot
    have := h₁.resized hf hc hsize hmax hgt.1 hgt.2
    rw [← hadd, UInt32.ofNat_toNat] at this
    convert this using 2
    · simp [FsState.setNode, FsState.setInode, hinum]
    · simp [FsState.setNode, FsState.setInode]
  · intro hle
    exact hR hnot s₁ (h₁.kept hf hc hsize hmax (by omega))

theorem wp_writeData {R : Option UInt32 → FsState → Prop} (hd : DiskOk s) (hc : Cached s k)
    (hi : s.vol.Allocated (s.inode k).inum)
    (hfail : Refused (s.vol.node (s.inode k).inum).size.toNat off.toNat n.toNat → R none s)
    (hfull : ¬ Refused (s.vol.node (s.inode k).inum).size.toNat off.toNat n.toNat →
      freeCount s.vol.used s.sb.size.toNat +
        Volume.cost (blocksOf (s.vol.node (s.inode k).inum).size.toNat) <
      Volume.cost (blocksOf (max (s.vol.node (s.inode k).inum).size.toNat
        (off.toNat + n.toNat))) → ∀ s', E (.panic "balloc: out of blocks") s')
    (hR : ¬ Refused (s.vol.node (s.inode k).inum).size.toNat off.toNat n.toNat →
      ∀ s', Wrote k src off.toNat n.toNat s s' → R (some n) s') :
    wp (writeData k src off n) R E s := by
  refine wp_writeFile (hd.fileOk hi) hc hfail hfull ?_
  exact fun hr s' hw => hR hr s' (hw.wrote hd)

end Xv6.Fs
