import Xv6.MkfsImage

/-!
# Well-formed images

What the kernel assumes about an image, and for which argument lists `mkfs` delivers it: the rounding of the
root directory's size leaves a hole when its entries fill whole blocks, and inode numbers are not checked
against the number of inode blocks.
-/

namespace Xv6.Mkfs

open Fs Resumption ByteLayout FreeMap Image Function List Volume

variable {E : Halt → Image → Prop} {m m' : Image} {fs files : List Input}

/-! ## Complete runs -/

/-- The image file as a volume, with the bits of its bitmap block. -/
def imageVol (img : ℕ → Block) : Volume where
  sb := imageSb
  node i := if i < ninodeblocks * IPB then dinode (img (IBLOCK i sb)) (i % IPB) else .zero
  used b := decide (b < FSSIZE) && (img (BBLOCK b sb)).bit (b % BPB)
  data b := if nmeta ≤ b then img b else .zero

def rootSize (n : ℕ) : ℕ := (DIRENTSIZE * (n + 2) / BSIZE + 1) * BSIZE

/-- The image that `mkfs` leaves, `m` being the one before the last lines of `main`. -/
structure Finished (files : List Input) (m' : Image) : Prop where
  built : ∃ m, Built files m ∧ imageVol m'.img = m.vol.setSize ROOTINO (UInt32.ofNat (rootSize files.length)) ∧
    m'.winodes = m.winodes ++ [ROOTINO] ∧ m'.freeblock = m.freeblock
  super : m'.img 1 = setSuperblock .zero sb

variable {R : Unit → Image → Prop} {α : Type} {c i n : ℕ} {x : M α}

theorem imageVol_eq {m₁ : Image} (h : Base m₁) (himg : m'.img = update m₁.img 58 (bitmapOf m₁.freeblock)) :
    imageVol m'.img = m₁.vol := by
  have hhigh := h.high
  have hnode : ∀ i, i < ninodeblocks * IPB → m'.img (IBLOCK i sb) = m₁.img (IBLOCK i sb) := by
    intro i hi
    have hblock := (iblock_range hi).2
    rw [himg, update_of_ne]
    simp only [nlog, ninodeblocks, NINODES, IPB, LOGSIZE, MAXOPBLOCKS, BSIZE, DINODESIZE] at hblock
    omega
  refine volume_ext rfl ?_ ?_ ?_
  · funext i
    by_cases hi : i < ninodeblocks * IPB
    · simp only [imageVol, vol, Image.node, if_pos hi, hnode i hi]
    · simp only [imageVol, vol, Image.node, if_neg hi]
  · funext b
    by_cases hb : b < FSSIZE
    · have hbblock : BBLOCK b sb = 58 := by
        have hstart : sb.bmapstart.toNat = 58 := rfl
        unfold BBLOCK
        rw [hstart]
        simp only [BPB, BSIZE, FSSIZE] at *
        omega
      have hmod : b % BPB = b := Nat.mod_eq_of_lt (hb.trans (by decide))
      simp only [imageVol, vol, hbblock, hmod, himg, update_self, decide_eq_true hb, Bool.true_and]
      exact bit_bitmapOf (hhigh.trans (by decide)) b
    · simp only [imageVol, vol, decide_eq_false hb, Bool.false_and]
      exact (decide_eq_false (by omega)).symm
  · funext b
    by_cases hb : nmeta ≤ b
    · simp only [imageVol, vol, if_pos hb, himg]
      rw [update_of_ne]
      simp only [nmeta, nlog, ninodeblocks, nbitmap, NINODES, IPB, LOGSIZE, MAXOPBLOCKS, BSIZE, DINODESIZE,
        FSSIZE] at hb
      omega
    · simp only [imageVol, vol, if_neg hb]

theorem wp_finish (h : Built files m) (hR : ∀ m', Finished files m' → R () m') :
    wp (finish ROOTINO) R E m := by
  have hroot : ROOTINO < ninodeblocks * IPB := by decide
  unfold finish
  rw [wp_bind]
  refine wp_rinode h.good.base hroot ?_
  dsimp only
  rw [wp_bind, h.root_size]
  refine wp_winode h.good.base hroot fun m₁ hbase hvol _ hblock hwinodes => ?_
  have hsmall : m₁.freeblock < BSIZE * 8 := hbase.high.trans_lt (by decide)
  unfold balloc wsect
  simp only [wp_bind, wp_get, wp_ite, wp_modify]
  refine ⟨fun _ => hR _ ⟨⟨m, h, ?_, hwinodes, hblock⟩, ?_⟩, fun hno => absurd hsmall hno⟩
  · refine (imageVol_eq hbase rfl).trans ?_
    rw [hvol]
    rfl
  · have hne : (1 : ℕ) ≠ sb.bmapstart.toNat := by decide
    simp only [update_of_ne hne]
    exact hbase.super

theorem wp_main (hlen : files.length + 2 ≤ ninodeblocks * IPB)
    (hE : ∀ e m', ¬ Accepted files → E e m') (hR : ∀ m', Finished files m' → R () m') :
    wp (main files) R E start := by
  unfold main
  rw [wp_bind]
  rw [wp_of_ok (fill_zero FSSIZE), wp_bind]
  unfold wsect
  rw [wp_modify]
  refine wp_root fun m h => ?_
  rw [wp_bind]
  refine wp_post (wp_forM_list (J := fun rest m => ∃ done, files = done ++ rest ∧ Built done m) ?_ ⟨[], rfl, h⟩)
    ?_
  · rintro f rest m ⟨done, rfl, hbuilt⟩
    have hdone : done.length + 2 < ninodeblocks * IPB := by
      rw [length_append, length_cons] at hlen
      omega
    refine wp_addFile hbuilt hdone f (fun e m' hno => hE e m' fun ha => hno ?_) fun m' hm' =>
      ⟨done ++ [f], by rw [append_assoc]; rfl, hm'⟩
    have hsplit : done ++ f :: rest = done ++ [f] ++ rest := by rw [append_assoc]; rfl
    rw [hsplit] at ha
    exact ha.left
  · rintro - m ⟨done, hfiles, hbuilt⟩
    rw [append_nil] at hfiles
    exact wp_finish (hfiles ▸ hbuilt) hR

theorem builds_of_accepted (hlen : files.length + 2 ≤ ninodeblocks * IPB) (h : Accepted files) :
    ∃ m, Builds files m ∧ Finished files m := by
  have hw : wp (main files) (fun _ m' => Finished files m') (fun _ _ => False) start :=
    wp_main hlen (fun _ _ hno => hno h) fun _ hm => hm
  obtain ⟨_, m, hrun, hm⟩ := wp_exists_ok hw
  exact ⟨m, hrun, hm⟩

theorem Builds.finished (h : Builds files m) (hlen : files.length + 2 ≤ ninodeblocks * IPB) : Finished files m := by
  have hw : wp (main files) (fun _ m' => Finished files m') (fun _ _ => True) start :=
    wp_main hlen (fun _ _ _ => trivial) fun _ hm => hm
  exact (wp_of_ok h).1 hw

/-! ## Inode numbers -/

structure Counted (c : ℕ) (m : Image) : Prop where
  freeinode : m.freeinode = c
  winodes : ∀ i, 1 ≤ i → i < c → i ∈ m.winodes

/-- A part of the program that takes no inode number, whatever the state of the image. -/
def Steady {α : Type} (x : M α) : Prop :=
  ∀ c m, Counted c m → wp x (fun _ m' => Counted c m') (fun _ _ => True) m

theorem Steady.bind {β : Type} {f : α → M β} (hx : Steady x) (hf : ∀ a, Steady (f a)) : Steady (x >>= f) :=
  fun c m h => by
    rw [wp_bind]
    exact wp_post (hx c m h) (fun a m' h' => hf a c m' h')

theorem Steady.pure (a : α) : Steady (pure a : M α) := fun _ _ h => h

theorem Steady.throw (e : Halt) : Steady (throw e : M α) := fun _ _ _ => trivial

theorem Steady.ite {p : Prop} [Decidable p] {y : M α} (hx : Steady x) (hy : Steady y) :
    Steady (if p then x else y) := by
  split
  · exact hx
  · exact hy

theorem steady_rsect (sec : ℕ) : Steady (rsect sec) := fun c m h => by
  unfold rsect
  simp only [wp_bind, wp_get, wp_ite, wp_pure, wp_throw, implies_true, and_true]
  exact fun _ => h

theorem steady_wsect (sec : ℕ) (buf : Block) : Steady (wsect sec buf) := fun _ _ h => ⟨h.freeinode, h.winodes⟩

theorem steady_nextBlock : Steady nextBlock := fun _ _ h => ⟨h.freeinode, h.winodes⟩

theorem steady_winode (i : ℕ) (d : Dinode) : Steady (winode i d) := by
  refine (steady_rsect _).bind fun _ => (steady_wsect _ _).bind fun _ c m h => ?_
  exact ⟨h.freeinode, fun j h1 hc => mem_append_left _ (h.winodes j h1 hc)⟩

theorem steady_rinode (i : ℕ) : Steady (rinode i) := (steady_rsect _).bind fun _ => .pure _

theorem steady_addrOf (d : Dinode) (a : Fin (NDIRECT + 1)) : Steady (addrOf d a) :=
  .ite (steady_nextBlock.bind fun _ => .pure _) (.pure _)

theorem steady_blockAddr (d : Dinode) (fbn : ℕ) : Steady (blockAddr d fbn) :=
  .ite (steady_addrOf _ _) ((steady_addrOf _ _).bind fun _ => (steady_rsect _).bind fun _ =>
    .ite (steady_nextBlock.bind fun _ => (steady_wsect _ _).bind fun _ => .pure _) (.pure _))

theorem steady_iappendLoop (d : Dinode) (off : ℕ) (p : List UInt8) : Steady (iappendLoop d off p) := by
  fun_induction iappendLoop d off p with
  | case1 => exact .pure _
  | case2 d off p hp fbn hm ih =>
    exact (steady_blockAddr _ _).bind fun _ => (steady_rsect _).bind fun _ => (steady_wsect _ _).bind fun _ => ih _
  | case3 => exact .throw _

theorem steady_iappend (i : ℕ) (p : List UInt8) : Steady (iappend i p) :=
  (steady_rinode i).bind fun _ => (steady_iappendLoop _ _ _).bind fun _ => steady_winode _ _

theorem steady_forM {f : α → M PUnit} (l : List α) (h : ∀ a ∈ l, Steady (f a)) : Steady (l.forM f) := by
  induction l with
  | nil => exact .pure _
  | cons a l ih =>
    rw [forM_eq_forM, forM_cons]
    exact (h a mem_cons_self).bind fun _ => ih fun b hb => h b (mem_cons_of_mem _ hb)

theorem counted_ialloc {type : Int16} (h : Counted c m) :
    wp (ialloc type) (fun _ m' => Counted (c + 1) m') (fun _ _ => True) m := by
  unfold ialloc winode wsect rsect
  simp only [wp_bind, wp_get, wp_modify, wp_pure, wp_ite, wp_throw, implies_true, and_true]
  intro _
  refine ⟨congrArg (· + 1) h.freeinode, fun j h1 hc => ?_⟩
  rw [mem_append, mem_singleton, h.freeinode]
  by_cases hj : j = c
  · exact .inr hj
  · exact .inl (h.winodes j h1 (by omega))

theorem counted_addFile (h : Counted c m) (f : Input) :
    wp (addFile i f) (fun _ m' => Counted (c + 1) m') (fun _ _ => True) m := by
  unfold addFile
  simp only [wp_ite, wp_throw, implies_true, true_and]
  intro _
  cases f.chunks with
  | none => trivial
  | some chunks =>
    dsimp only
    rw [wp_bind]
    refine wp_post (counted_ialloc h) (fun inum m' hm' => ?_)
    exact ((steady_iappend _ _).bind fun _ => steady_forM chunks fun _ _ => steady_iappend _ _) _ _ hm'

theorem Builds.counted (h : Builds files m) : Counted (files.length + 2) m := by
  have hw : wp (main files) (fun _ m' => Counted (files.length + 2) m') (fun _ _ => True) start := by
    have hstart : Counted 1 { start with nsect := FSSIZE } := ⟨rfl, fun i h1 hc => absurd hc (by omega)⟩
    unfold main
    rw [wp_bind, wp_of_ok (fill_zero FSSIZE), wp_bind]
    refine wp_post (steady_wsect _ _ 1 _ hstart) (fun _ m₂ h₂ => ?_)
    rw [wp_bind]
    refine wp_post (counted_ialloc h₂) (fun rootino m₃ h₃ => ?_)
    simp only [wp_ite, wp_throw, implies_true, and_true]
    intro _
    rw [wp_bind]
    refine wp_post (steady_iappend _ _ 2 m₃ h₃) (fun _ m₄ h₄ => ?_)
    rw [wp_bind]
    refine wp_post (steady_iappend _ _ 2 m₄ h₄) (fun _ m₅ h₅ => ?_)
    rw [wp_bind]
    refine wp_post (wp_forM_list (J := fun rest m => ∃ done, files = done ++ rest ∧ Counted (done.length + 2) m) ?_
      ⟨[], rfl, h₅⟩) (fun _ m₆ h₆ => ?_)
    · rintro f rest m ⟨done, hfiles, hm⟩
      refine wp_post (counted_addFile hm f) (fun _ m' hm' => ⟨done ++ [f], ?_, ?_⟩)
      · rw [hfiles, append_assoc]
        rfl
      · rw [length_append]
        exact hm'
    · obtain ⟨done, hfiles, hm⟩ := h₆
      rw [append_nil] at hfiles
      subst hfiles
      refine ((steady_rinode _).bind fun d => (steady_winode _ _).bind fun _ => ?_) _ _ hm
      refine Steady.bind (fun _ _ h => h) fun s => .ite (steady_wsect _ _) (.throw _)
  exact (wp_of_ok h).1 hw

/-! ## The invariants of the kernel -/

/-- Blocks are allocated up to the size of each inode, exactly the blocks in use are marked, and inodes are
stored in inode blocks. -/
structure WellFormed (m : Image) : Prop where
  blocks : ∀ i < ninodeblocks * IPB, (imageVol m.img).HasBlocks i (blocksOf ((imageVol m.img).node i).size.toNat)
  exact : (imageVol m.img).Exact
  inside : ∀ i ∈ m.winodes, sb.inodestart.toNat ≤ IBLOCK i sb ∧ IBLOCK i sb < sb.bmapstart.toNat

theorem hasBlocks_unique {V : Volume} {a b : ℕ} (ha : V.HasBlocks i a) (hb : V.HasBlocks i b) : a = b := by
  have hale := ha.le
  have hble := hb.le
  rcases lt_trichotomy a b with hlt | heq | hlt
  · exact absurd ((ha.block a (by omega)).1 ((hb.block a (by omega)).2 hlt)) (lt_irrefl _)
  · exact heq
  · exact absurd ((hb.block b (by omega)).1 ((ha.block b (by omega)).2 hlt)) (lt_irrefl _)

theorem rootSize_toNat (hlen : n + 2 ≤ ninodeblocks * IPB) : (UInt32.ofNat (rootSize n)).toNat = rootSize n := by
  rw [UInt32.toNat_ofNat', Nat.mod_eq_of_lt]
  simp only [rootSize, DIRENTSIZE, BSIZE, ninodeblocks, NINODES, IPB, DINODESIZE] at *
  omega

theorem blocksOf_rootSize (n : ℕ) : blocksOf (DIRENTSIZE * (n + 2)) = blocksOf (rootSize n) ↔ ¬ 32 ∣ n + 2 := by
  simp only [blocksOf, rootSize, DIRENTSIZE, BSIZE]
  omega

theorem Built.hasBlocks (h : Built fs m) (i : ℕ) : m.vol.HasBlocks i (blocksOf (m.vol.node i).size.toNat) := by
  by_cases hzero : m.vol.node i = .zero
  · have hsize : blocksOf (m.vol.node i).size.toNat = 0 := by
      rw [hzero]
      decide
    have hind : m.vol.addr i .indirect = 0 := by
      rw [addr_indirect, hzero]
      rfl
    have haddr : ∀ k, m.vol.addr i (.block k) = 0 := by
      intro k
      by_cases hk : k < NDIRECT
      · rw [addr_direct hk, hzero]
        rfl
      · rw [addr_entry_eq hk, if_neg fun hc => hc.2 hind]
    rw [hsize]
    exact ⟨Nat.zero_le _, fun k _ => by simp [haddr], by simp [hind]⟩
  · refine h.good.holeFree i ?_
    have hlt : i < m.freeinode ∧ i ≠ 0 := by
      by_contra hc
      exact hzero (h.fresh i (by omega))
    rw [h.freeinode] at hlt
    have hrange : i < ninodeblocks * IPB := by
      by_contra hge
      exact hzero (if_neg hge)
    refine ⟨hrange, ?_⟩
    by_cases hroot : i = ROOTINO
    · rw [hroot, h.root.1]
      decide
    · obtain ⟨j, rfl⟩ : ∃ j, i = j + 2 := ⟨i - 2, by simp only [ROOTINO] at hroot; omega⟩
      rw [(h.file j (by omega)).1]
      decide

theorem WellFormed.length_le (hwf : WellFormed m) (h : Builds files m) : files.length + 2 ≤ ninodeblocks * IPB := by
  by_contra hmany
  have hlast := h.counted.winodes (ninodeblocks * IPB) (by decide) (by omega)
  exact absurd (hwf.inside _ hlast).2 (by decide)

theorem WellFormed.not_dvd (hwf : WellFormed m) (h : Builds files m) : ¬ 32 ∣ files.length + 2 := by
  have hlen := hwf.length_le h
  obtain ⟨m₀, hbuilt, hvol, -⟩ := (h.finished hlen).built
  have hroot := hwf.blocks ROOTINO (by decide)
  rw [hvol, setSize_node_self] at hroot
  dsimp only at hroot
  rw [rootSize_toNat hlen] at hroot
  have hbefore := hbuilt.hasBlocks ROOTINO
  rw [hbuilt.root_size] at hbefore
  exact (blocksOf_rootSize _).1 (hasBlocks_unique (hasBlocks_setSize hbefore) hroot)

section

variable (h : Finished files m)
include h

theorem Finished.file_blocks (hi : i ≠ ROOTINO) :
    (imageVol m.img).HasBlocks i (blocksOf ((imageVol m.img).node i).size.toNat) := by
  obtain ⟨m₀, hbuilt, hvol, -⟩ := h.built
  rw [hvol, setSize_node_ne hi]
  exact hasBlocks_setSize (hbuilt.hasBlocks i)

theorem Finished.root_blocks :
    (imageVol m.img).HasBlocks ROOTINO (blocksOf (DIRENTSIZE * (files.length + 2))) := by
  obtain ⟨m₀, hbuilt, hvol, -⟩ := h.built
  rw [hvol, ← hbuilt.root_size]
  exact hasBlocks_setSize (hbuilt.hasBlocks ROOTINO)

theorem Finished.root_size (hlen : files.length + 2 ≤ ninodeblocks * IPB) :
    ((imageVol m.img).node ROOTINO).size.toNat = rootSize files.length := by
  obtain ⟨m₀, hbuilt, hvol, -⟩ := h.built
  rw [hvol, setSize_node_self]
  exact rootSize_toNat hlen

theorem Finished.hasBlocks (hlen : files.length + 2 ≤ ninodeblocks * IPB)
    (hfill : ¬ 32 ∣ files.length + 2) (i : ℕ) :
    (imageVol m.img).HasBlocks i (blocksOf ((imageVol m.img).node i).size.toNat) := by
  by_cases hroot : i = ROOTINO
  · rw [hroot, h.root_size hlen, ← (blocksOf_rootSize _).2 hfill]
    exact h.root_blocks
  · exact h.file_blocks hroot

theorem Finished.exact : (imageVol m.img).Exact := by
  obtain ⟨m₀, hbuilt, hvol, -⟩ := h.built
  rw [hvol]
  exact exact_setSize hbuilt.good.exact

end

theorem nil_accepted : Accepted [] := ⟨nofun, nofun, nofun, by decide⟩

/-- `n` empty files named by one character each. -/
def emptyFiles (n : ℕ) : List Input := (List.range n).map fun i => ⟨[UInt8.ofNat (97 + i)], some []⟩

theorem emptyFiles_accepted (hslash : ∀ f ∈ emptyFiles n, 47 ∉ f.arg)
    (hroom : blocksNeeded (emptyFiles n) ≤ nblocks) : Accepted (emptyFiles n) := by
  refine ⟨hslash, fun f hf => ?_, fun f hf => ?_, hroom⟩
  · obtain ⟨i, -, rfl⟩ := mem_map.1 hf
    exact Option.some_ne_none _
  · obtain ⟨i, -, rfl⟩ := mem_map.1 hf
    exact Nat.zero_le _

end Xv6.Mkfs
