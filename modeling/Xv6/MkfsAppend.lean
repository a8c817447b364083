import Xv6.MkfsVolume

/-!
# Appending to files of an image

The loop of `iappend` as a whole, and the two calls from which an image is built: `ialloc` starts an empty
file and `iappend` appends to the contents of one file.
-/

namespace Xv6.Mkfs

open Fs Resumption ByteLayout FreeMap Image Function List Volume UInt32 Nat Buffer

variable {E : Halt → Image → Prop} {m m' m₁ m₂ : Image} {d d' d₁ d₂ : Dinode} {i off off' off₁ : ℕ}
  {p q : List UInt8}

/-! ## The loop -/

def ZeroFrom (V : Volume) (i off : ℕ) : Prop :=
  ∀ o, off ≤ o → o / BSIZE < MAXFILE → V.addr i (.block (o / BSIZE)) ≠ 0 → V.byteAt i o = 0

structure Appended (m m' : Image) (i : ℕ) (d d' : Dinode) (off off' : ℕ) (p : List UInt8) : Prop where
  base : Base m'
  frame : Frame m m'
  length : off' = off + p.length
  ext : (m.volWith i d).Extends (m'.volWith i d') i (blocksOf off) (blocksOf off')
  bytes : ∀ o < off', (m'.volWith i d').byteAt i o =
    if off ≤ o then p.getD (o - off) 0 else (m.volWith i d).byteAt i o
  zero : ZeroFrom (m.volWith i d) i off → ZeroFrom (m'.volWith i d') i off'

variable {n1 n : ℕ} {R : Unit → Image → Prop} {type : Int16}

theorem Appended.nil (h : Base m) (hex : (m.volWith i d).Exact) (hn : (m.volWith i d).HasBlocks i (blocksOf off)) :
    Appended m m i d d off off [] := by
  refine ⟨h, .refl m, rfl, .refl hex hn, fun o ho => ?_, id⟩
  rw [if_neg (not_le.2 ho)]

theorem Appended.trans (h : Appended m m₁ i d d₁ off off₁ p) (h' : Appended m₁ m' i d₁ d' off₁ off' q) :
    Appended m m' i d d' off off' (p ++ q) := by
  have hoff := h.length
  refine ⟨h'.base, h.frame.trans h'.frame, ?_, h.ext.trans h'.ext, fun o ho => ?_,
    fun hz => h'.zero (h.zero hz)⟩
  · rw [h'.length, hoff, length_append, add_assoc]
  · rw [h'.bytes o ho]
    by_cases hsecond : off₁ ≤ o
    · rw [if_pos hsecond, if_pos (by omega), getD_append_right _ _ _ _ (by omega)]
      congr 1
      omega
    · rw [if_neg hsecond, h.bytes o (by omega)]
      split
      · rw [getD_append _ _ _ _ (by omega)]
      · rfl

theorem blocksOf_round (hpos : 0 < n1) (hn1 : n1 ≤ (off / BSIZE + 1) * BSIZE - off) :
    max (blocksOf off) (off / BSIZE + 1) = blocksOf (off + n1) := by
  simp only [blocksOf, BSIZE] at *
  omega

theorem Blocked.appended {x : ℕ} {r : Image} (h : Base m₁) (hframe : Frame m m₁)
    (hi : (m.volWith i d).Allocated i) (hn : (m.volWith i d).HasBlocks i (blocksOf off))
    (hb : Blocked (m.volWith i d) (m₁.volWith i d₁) i (blocksOf off) (off / BSIZE) x)
    (hpos : 0 < n1) (hn1 : n1 ≤ (off / BSIZE + 1) * BSIZE - off) (hp : n1 ≤ p.length)
    (himg : r.img = update m₁.img x
      ((m₁.img x).write (off - off / BSIZE * BSIZE) n1 fun k => p.getD k 0))
    (hnsect : r.nsect = max m₁.nsect (x + 1)) (hfree : r.freeblock = m₁.freeblock) (hframe₂ : Frame m₁ r) :
    Appended m r i d d₁ off (off + n1) (p.take n1) := by
  have hmax := blocksOf_round hpos hn1
  have hext := hb.ext
  rw [hmax] at hext
  have hi₁ : (m₁.volWith i d₁).Allocated i := hext.allocated.2 hi
  have haddr := hb.addr
  have hne : (m₁.volWith i d₁).addr i (.block (off / BSIZE)) ≠ 0 := haddr ▸ hb.pos
  obtain ⟨hlow, hlt⟩ := addr_lt_next hext.exact hi₁ hne
  rw [haddr] at hlow hlt
  have hvol : r.volWith i d₁ = (m₁.volWith i d₁).store ((m₁.volWith i d₁).addr i (.block (off / BSIZE)))
      ((m₁.img x).write (off - off / BSIZE * BSIZE) n1 fun k => p.getD k 0) := by
    rw [haddr]
    exact volWith_wsect hlow himg hfree
  have hold : (m₁.volWith i d₁).fileBlock i (off / BSIZE) = m₁.img x := by
    rw [Volume.fileBlock, haddr, volWith_data hlow]
  refine ⟨h.store hlow hlt himg rfl hnsect hfree, hframe.trans hframe₂, ?_, ?_, fun o ho => ?_, fun hz o ho hmax' h0 => ?_⟩
  · rw [length_take, min_eq_left hp]
  · rw [hvol]
    exact hext.trans (extends_store hext.exact hi₁ hext.has)
  · have hblock : o / BSIZE < blocksOf (off + n1) := by
      simp only [blocksOf, BSIZE]
      omega
    have hne := (hext.has.block _ (hblock.trans_le hext.has.le)).2 hblock
    have hbefore : o < off → (m₁.volWith i d₁).byteAt i o = (m.volWith i d).byteAt i o := by
      intro hoff
      have hlt : o / BSIZE < blocksOf off := by
        simp only [blocksOf, BSIZE]
        omega
      exact hb.bytes o ((hn.block _ (hlt.trans_le hn.le)).2 hlt)
    rw [hvol, Volume.byteAt, fileBlock_store hext.exact hi₁ hi₁ hne]
    by_cases hsame : o / BSIZE = off / BSIZE
    · rw [if_pos ⟨rfl, hsame⟩]
      by_cases hoff : off ≤ o
      · have hpos : o % BSIZE = off - off / BSIZE * BSIZE + (o - off) := by
          simp only [BSIZE] at *
          omega
        rw [if_pos hoff, hpos, Buffer.byte_write_inside (by omega) (by
          have := Nat.mod_lt o (show 0 < BSIZE by decide)
          omega)]
        rw [getD_eq_getElem?_getD, getD_eq_getElem?_getD, List.getElem?_take, if_pos (by omega)]
      · rw [if_neg hoff, Buffer.byte_write_outside (.inl (by simp only [BSIZE] at *; omega)), ← hold,
          ← hbefore (by omega), ← hsame]
        rfl
    · have hoff : o < off := by
        simp only [BSIZE] at *
        omega
      rw [if_neg fun hc => hsame hc.2, if_neg (by omega), ← hbefore hoff]
      rfl
  · rw [hvol, addr_store hext.exact hi₁ hi₁] at h0
    -- behind what was written the blocks are as they were, or new
    have hbyte : (m₁.volWith i d₁).byteAt i o = 0 := by
      by_cases hold : (m.volWith i d).addr i (.block (o / BSIZE)) = 0
      · have hq : o / BSIZE = off / BSIZE := by
          have hlt := (hext.has.block _ hmax').1 h0
          have hge : ¬ o / BSIZE < blocksOf off := fun hc => (hn.block _ hmax').2 hc hold
          have hdiv : off / BSIZE ≤ o / BSIZE := Nat.div_le_div_right (by omega)
          rw [← hmax] at hlt
          omega
        rw [Volume.byteAt, hq, hb.fresh (hq ▸ hold)]
        exact Buffer.byte_zero _
      · rw [hb.bytes o hold]
        exact hz o (by omega) hmax' hold
    rw [hvol, Volume.byteAt, fileBlock_store hext.exact hi₁ hi₁ h0]
    by_cases hsame : o / BSIZE = off / BSIZE
    · rw [if_pos ⟨rfl, hsame⟩, Buffer.byte_write_outside (.inr (by simp only [BSIZE] at *; omega)), ← hold, ← hsame]
      exact hbyte
    · rw [if_neg fun hc => hsame hc.2]
      exact hbyte

theorem blocksOf_mono {a b : ℕ} (h : a ≤ b) : blocksOf a ≤ blocksOf b := by
  simp only [blocksOf, BSIZE]
  omega

theorem Room.mono {n₁ n' : ℕ} (h : Room m n n') (hle : n₁ ≤ n') : Room m n n₁ := by
  have := cost_mono hle
  unfold Room at *
  omega

theorem Appended.freeblock (happ : Appended m m' i d d' off off' p) (h : Base m) :
    m'.freeblock + Volume.cost (blocksOf off) = m.freeblock + Volume.cost (blocksOf off') := by
  have hfree := happ.ext.free
  rw [freeCount_volWith, freeCount_volWith] at hfree
  have := h.high
  have := happ.base.high
  omega

theorem Appended.room (happ : Appended m m' i d d' off off' p) (h : Base m) (hroom : Room m (blocksOf off) n) :
    Room m' (blocksOf off') n := by
  have := happ.freeblock h
  unfold Room at *
  omega

structure Fits (m : Image) (off off' : ℕ) : Prop where
  size : off' ≤ MAXFILE * BSIZE
  room : Room m (blocksOf off) (blocksOf off')

theorem Fits.block (h : Fits m off (off + p.length)) (hp : 0 < p.length) : off / BSIZE < MAXFILE := by
  have := h.size
  simp only [MAXFILE, NDIRECT, NINDIRECT, BSIZE] at *
  omega

theorem wp_iappendLoop {R : Dinode × ℕ → Image → Prop} (h : Base m) (hex : (m.volWith i d).Exact)
    (hi : (m.volWith i d).Allocated i) (hn : (m.volWith i d).HasBlocks i (blocksOf off))
    (hE : ∀ e m', ¬ Fits m off (off + p.length) → E e m')
    (hR : ∀ d' off' m', Appended m m' i d d' off off' p → R (d', off') m') :
    wp (iappendLoop d off p) R E m := by
  induction hlen : p.length using Nat.strong_induction_on generalizing m d off p R with
  | h len ih =>
    subst hlen
    rw [iappendLoop]
    by_cases hp : p = []
    · rw [if_pos hp]
      subst hp
      exact hR _ _ _ (.nil h hex hn)
    · rw [if_neg hp]
      dsimp only
      simp only [wp_ite, wp_throw]
      refine ⟨fun hm => ?_, fun hm => hE _ _ fun hfits => hm (hfits.block (length_pos_iff.2 hp))⟩
      have hle : off / BSIZE ≤ blocksOf off := by
        simp only [blocksOf, BSIZE]
        omega
      have hplen := length_pos_iff.2 hp
      have hpos : 0 < min p.length ((off / BSIZE + 1) * BSIZE - off) := by
        simp only [BSIZE]
        omega
      rw [wp_bind]
      have hmax := blocksOf_round hpos (min_le_right p.length _)
      have hroom : Fits m off (off + p.length) → Room m (blocksOf off) (max (blocksOf off) (off / BSIZE + 1)) := by
        intro hfits
        rw [hmax]
        exact hfits.room.mono (blocksOf_mono (by omega))
      refine wp_blockAddr h hex hi hn hm hle (fun m' hno => hE _ _ fun hfits => hno (hroom hfits))
        fun d₁ x m₁ hsect hlt hgot => ?_
      dsimp only
      rw [wp_bind]
      refine wp_rsect hsect (fun hx => hE _ _ fun hfits => hx (hlt (hroom hfits))) fun hx => ?_
      obtain ⟨hbase, hframe, hb⟩ := hgot hx
      simp only [wsect, wp_bind, wp_modify]
      have hround := hb.appended hbase hframe hi hn (p := p) hpos (min_le_right ..) (min_le_left ..)
        (r := { m₁ with img := update m₁.img x.toNat _, nsect := max m₁.nsect (x.toNat + 1) })
        rfl rfl rfl ⟨rfl, rfl⟩
      have hrest : off + min p.length ((off / BSIZE + 1) * BSIZE - off) +
          (p.drop (min p.length ((off / BSIZE + 1) * BSIZE - off))).length = off + p.length := by
        rw [length_drop]
        omega
      refine ih _ ?_ hround.base hround.ext.exact (hround.ext.allocated.2 hi) hround.ext.has
        (fun e m' hno => hE _ _ fun hfits => hno ?_) (fun d' off' m' happ => hR d' off' m' ?_) rfl
      · rw [length_drop]
        omega
      · rw [hrest]
        exact ⟨hfits.size, hround.room h hfits.room⟩
      · have happ' := hround.trans happ
        rwa [take_append_drop] at happ'

/-! ## Calls -/

structure Image.Good (m : Image) : Prop where
  base : Base m
  exact : m.vol.Exact
  holeFree : m.vol.HoleFree

structure Appends (i : ℕ) (p : List UInt8) (m m' : Image) : Prop where
  good : m'.Good
  freeinode : m'.freeinode = m.freeinode
  winodes : m'.winodes = m.winodes ++ [i]
  node_ne : ∀ j, j ≠ i → m'.vol.node j = m.vol.node j
  node : ∃ a, m'.vol.node i =
    { m.vol.node i with size := UInt32.ofNat ((m.vol.node i).size.toNat + p.length), addrs := a }
  size : (m'.vol.node i).size.toNat = (m.vol.node i).size.toNat + p.length
  contents : m'.vol.contents i = m.vol.contents i ++ p
  contents_ne : ∀ j, j ≠ i → m.vol.Allocated j → m'.vol.contents j = m.vol.contents j
  freeblock : m'.freeblock + Volume.cost (blocksOf (m.vol.node i).size.toNat) =
    m.freeblock + Volume.cost (blocksOf ((m.vol.node i).size.toNat + p.length))
  zero : ZeroFrom m.vol i (m.vol.node i).size.toNat → ZeroFrom m'.vol i ((m.vol.node i).size.toNat + p.length)
  zero_ne : ∀ j off, j ≠ i → m.vol.Allocated j → ZeroFrom m.vol j off → ZeroFrom m'.vol j off

theorem Image.Base.winode (h : Base m) (hi : i < ninodeblocks * IPB) {data : Block}
    (himg : m'.img = update m.img (IBLOCK i sb) data)
    (hnsect : m'.nsect = max m.nsect (IBLOCK i sb + 1)) (hfree : m'.freeblock = m.freeblock) : Base m' := by
  obtain ⟨hlow, hhigh⟩ := iblock_range hi
  have hmeta := h.low
  simp only [nmeta, nlog, ninodeblocks, nbitmap, NINODES, IPB, LOGSIZE, MAXOPBLOCKS, BSIZE, DINODESIZE,
    FSSIZE] at hlow hhigh hmeta
  refine ⟨?_, hfree ▸ h.low, hfree ▸ h.high, fun c hc => ?_, ?_⟩
  · rw [hnsect, h.nsect]
    simp only [FSSIZE]
    omega
  · rw [himg, update_of_ne (by omega)]
    exact h.clean c (hfree ▸ hc)
  · rw [himg, update_of_ne (by omega)]
    exact h.super

theorem iblock_lt (hi : i < ninodeblocks * IPB) : IBLOCK i sb < FSSIZE :=
  (iblock_range hi).2.trans (by decide)

theorem wp_winode (h : Base m) (hi : i < ninodeblocks * IPB)
    (hR : ∀ m', Base m' → m'.vol = m.volWith i d → m'.freeinode = m.freeinode → m'.freeblock = m.freeblock →
      m'.winodes = m.winodes ++ [i] → R () m') : wp (winode i d) R E m := by
  unfold winode
  rw [wp_bind]
  refine wp_rsect h.nsect (fun hge => absurd (iblock_lt hi) hge) fun _ => ?_
  simp only [wsect, wp_bind, wp_modify]
  exact hR _ (h.winode hi rfl rfl rfl) (vol_winode hi rfl rfl) rfl rfl rfl

theorem wp_rinode {R : Dinode → Image → Prop} (h : Base m) (hi : i < ninodeblocks * IPB) (hR : R (m.vol.node i) m) :
    wp (rinode i) R E m := by
  unfold rinode
  rw [wp_bind]
  refine wp_rsect h.nsect (fun hge => absurd (iblock_lt hi) hge) fun _ => ?_
  rw [wp_pure]
  have hnode : m.vol.node i = dinode (m.img (IBLOCK i sb)) (i % IPB) := if_pos hi
  exact hnode ▸ hR

theorem Appended.appends (h : m.Good) (hi : m.vol.Allocated i)
    (happ : Appended m m₁ i (m.vol.node i) d' (m.vol.node i).size.toNat off' p) (hbase : Base m')
    (hvol : m'.vol = m₁.volWith i { d' with size := UInt32.ofNat off' }) (hinode : m'.freeinode = m₁.freeinode)
    (hblock : m'.freeblock = m₁.freeblock) (hwinodes : m'.winodes = m₁.winodes ++ [i]) : Appends i p m m' := by
  have hext := happ.ext
  have hbytes := happ.bytes
  rw [volWith_self] at hext hbytes
  have hoff := happ.length
  have hd' : (m₁.volWith i d').node i = d' := volWith_node_self
  have hset : m'.vol = (m₁.volWith i d').setSize i (ofNat off') := by
    rw [hvol, setSize, hd']
    exact volume_ext rfl (by simp only [volWith, update_idem]) rfl rfl
  have hsmall : off' ≤ MAXFILE * BSIZE := (size_le_blocks off').trans (mul_le_mul_right _ hext.has.le)
  have hz : (ofNat off').toNat = off' := by
    rw [toNat_ofNat', mod_eq_of_lt]
    simp only [MAXFILE, NDIRECT, NINDIRECT, BSIZE] at hsmall
    omega
  have hnode : ∃ a, m'.vol.node i = { m.vol.node i with size := ofNat off', addrs := a } := by
    obtain ⟨a, ha⟩ := hext.node
    exact ⟨a, by rw [hset, setSize_node_self, ha]⟩
  have hnode_ne : ∀ j, j ≠ i → m'.vol.node j = m.vol.node j := fun j hj => by
    rw [hset, setSize_node_ne hj, hext.node_ne j hj]
  have hsize : (m'.vol.node i).size.toNat = off' := by
    obtain ⟨a, ha⟩ := hnode
    rw [ha, hz]
  refine ⟨⟨hbase, ?_, fun j hj => ?_⟩, hinode.trans happ.frame.freeinode, ?_, hnode_ne, hoff ▸ hnode,
    hsize.trans hoff, ?_, fun j hj ha => ?_, ?_, fun hz => ?_, fun j off hj ha hz o ho hmax h0 => ?_⟩
  · rw [hset]
    exact exact_setSize hext.exact
  · rw [hset, allocated_setSize, hext.allocated] at hj
    by_cases hji : j = i
    · subst hji
      rw [hsize, hset]
      exact hasBlocks_setSize hext.has
    · rw [hnode_ne j hji, hset]
      exact hasBlocks_setSize (hext.hasBlocks_ne hj hji (h.holeFree j hj))
  · rw [hwinodes, happ.frame.winodes]
  · apply ext_getElem
    · rw [length_contents, hsize, length_append, length_contents, hoff]
    · intro o ho _
      rw [length_contents, hsize] at ho
      have hbyte := hbytes o ho
      rw [← byteAt_setSize (i := i) (z := ofNat off'), ← hset] at hbyte
      simp only [contents, getElem_map, getElem_range, hbyte]
      by_cases hold : o < (m.vol.node i).size.toNat
      · rw [if_neg (by omega), getElem_append_left (by simpa using hold)]
        simp
      · rw [if_pos (by omega), getElem_append_right (by simpa using hold)]
        have hlt : o - (m.vol.node i).size.toNat < p.length := by omega
        simp [hlt]
  · have hcont := hext.contents_ne ha hj (h.holeFree j ha) (size_le_blocks _)
    rw [← hcont]
    unfold contents
    rw [hnode_ne j hj, hext.node_ne j hj]
    apply map_congr_left
    intro o _
    rw [hset, byteAt_setSize]
  · rw [hblock, ← hoff]
    exact happ.freeblock h.base
  · have hzero := happ.zero (by rw [volWith_self]; exact hz)
    intro o ho hmax h0
    rw [hset, addr_setSize] at h0
    rw [hset, byteAt_setSize]
    exact hzero o (hoff ▸ ho) hmax h0
  · rw [hset, addr_setSize, hext.addr j _ ha (.inl hj)] at h0
    rw [hset, byteAt_setSize, byteAt, hext.other j _ hj ha h0]
    exact hz o ho hmax h0

theorem wp_iappend (h : m.Good) (hi : m.vol.Allocated i)
    (hE : ∀ e m', ¬ Fits m (m.vol.node i).size.toNat ((m.vol.node i).size.toNat + p.length) → E e m')
    (hR : ∀ m', Appends i p m m' → R () m') : wp (iappend i p) R E m := by
  have hlt : i < ninodeblocks * IPB := hi.1
  have hself := volWith_self m i
  unfold iappend
  rw [wp_bind]
  refine wp_rinode h.base hlt ?_
  rw [wp_bind]
  refine wp_iappendLoop (i := i) h.base (by rw [hself]; exact h.exact) (by rw [hself]; exact hi)
    (by rw [hself]; exact h.holeFree i hi) hE fun d' off' m₁ happ => ?_
  refine wp_winode happ.base hlt fun m' hbase hvol hinode hblock hwinodes => hR m' ?_
  exact happ.appends h hi hbase hvol hinode hblock hwinodes

structure Starts (i : ℕ) (type : Int16) (m m' : Image) : Prop where
  good : m'.Good
  freeinode : m'.freeinode = i + 1
  freeblock : m'.freeblock = m.freeblock
  winodes : m'.winodes = m.winodes ++ [i]
  node_ne : ∀ j, j ≠ i → m'.vol.node j = m.vol.node j
  node : m'.vol.node i = { Dinode.zero with type := type, nlink := 1, size := 0 }
  contents_ne : ∀ j, j ≠ i → m'.vol.contents j = m.vol.contents j
  zero : ZeroFrom m'.vol i 0
  zero_ne : ∀ j off, ZeroFrom m.vol j off → ZeroFrom m'.vol j off

theorem starts_of_vol (h : m.Good) (hi : i < ninodeblocks * IPB) (hzero : m.vol.node i = .zero)
    (hbase : Base m') (hvol : m'.vol = m.volWith i { Dinode.zero with type := type, nlink := 1, size := 0 })
    (hinode : m'.freeinode = i + 1) (hblock : m'.freeblock = m.freeblock)
    (hwinodes : m'.winodes = m.winodes ++ [i]) : Starts i type m m' := by
  have hnode : m'.vol.node i = { Dinode.zero with type := type, nlink := 1, size := 0 } := by
    rw [hvol, volWith_node_self]
  have hnode_ne : ∀ j, j ≠ i → m'.vol.node j = m.vol.node j := fun j hj => by
    rw [hvol]
    exact update_of_ne hj _ _
  have hdata : m'.vol.data = m.vol.data := by rw [hvol]; rfl
  have haddrs : ∀ j, (m'.vol.node j).addrs = (m.vol.node j).addrs := by
    intro j
    by_cases hj : j = i
    · rw [hj, hnode, hzero]
    · rw [hnode_ne j hj]
  have haddr : ∀ j sl, m'.vol.addr j sl = m.vol.addr j sl := fun j sl =>
    addr_congr (haddrs j) (fun _ => by rw [hdata]) sl
  have hempty : ∀ sl, m.vol.addr i sl = 0 := by
    have hind : m.vol.addr i .indirect = 0 := by
      rw [addr_indirect, hzero]
      rfl
    intro sl
    cases sl with
    | indirect => exact hind
    | block k =>
      by_cases hk : k < NDIRECT
      · rw [addr_direct hk, hzero]
        rfl
      · rw [addr_entry_eq hk, if_neg fun hc => hc.2 hind]
  have halloc : ∀ j, j ≠ i → (m'.vol.Allocated j ↔ m.vol.Allocated j) := fun j hj => by
    unfold Volume.Allocated
    rw [hnode_ne j hj, hvol]
    rfl
  refine ⟨⟨hbase, ?_, fun j hj => ?_⟩, hinode, hblock, hwinodes, hnode_ne, hnode, fun j hj => ?_,
    fun o _ _ h0 => absurd ((haddr ..).trans (hempty _)) h0, fun j off hz o ho hmax h0 => ?_⟩
  · have hown : ∀ x, m'.vol.own x = m.vol.own x := by
      rintro ⟨j, sl⟩
      by_cases hj : j = i
      · subst hj
        unfold own
        simp only [haddr, hempty, ite_self]
      · unfold own
        simp only [haddr, halloc j hj]
    have hexact : FreeMap.Exact m'.vol.own m'.vol.used m.vol.sb.dataStart m.vol.sb.size.toNat :=
      FreeMap.Exact.congr h.exact hown fun b _ => by rw [hvol]; rfl
    unfold Volume.Exact
    rw [hvol] at hexact ⊢
    exact hexact
  · by_cases hji : j = i
    · subst hji
      have hsize : (m'.vol.node j).size.toNat = 0 := by
        rw [hnode]
        rfl
      have hnone : blocksOf 0 = 0 := by decide
      rw [hsize, hnone]
      refine ⟨zero_le _, fun k _ => ?_, ?_⟩
      · rw [haddr, hempty]
        exact ⟨fun hc => absurd rfl hc, fun hc => absurd hc (not_lt_zero _)⟩
      · rw [haddr, hempty]
        exact ⟨fun hc => absurd rfl hc, fun hc => absurd hc (by decide)⟩
    · have hhas := h.holeFree j ((halloc j hji).1 hj)
      rw [hnode_ne j hji]
      exact ⟨hhas.le, fun k hk => by rw [haddr]; exact hhas.block k hk, by rw [haddr]; exact hhas.indirect⟩
  · unfold contents
    rw [hnode_ne j hj]
    apply map_congr_left
    intro o _
    unfold byteAt fileBlock
    rw [haddr, hdata]
  · rw [haddr] at h0
    unfold byteAt fileBlock
    rw [haddr, hdata]
    exact hz o ho hmax h0

theorem wp_ialloc {R : ℕ → Image → Prop} (h : m.Good) (hi : m.freeinode < ninodeblocks * IPB)
    (hzero : m.vol.node m.freeinode = .zero) (hR : ∀ m', Starts m.freeinode type m m' → R m.freeinode m') :
    wp (ialloc type) R E m := by
  unfold ialloc
  simp only [wp_bind, wp_get, wp_modify, wp_pure]
  have hbase : Base { m with freeinode := m.freeinode + 1 } :=
    ⟨h.base.nsect, h.base.low, h.base.high, h.base.clean, h.base.super⟩
  refine wp_winode hbase hi fun m' hbase' hvol hinode hblock hwinodes => hR m' ?_
  exact starts_of_vol h hi hzero hbase' hvol hinode hblock hwinodes

end Xv6.Mkfs
