import Xv6.MkfsAppend
import Xv6.Image

/-!
# Images that `mkfs` builds

The state after each file: the root directory has one entry for every file so far, inode numbers and blocks
are handed out in order, and each file has its bytes. From it follows which argument lists give an image
that keeps the invariants of the kernel, and that enough space makes `mkfs` succeed.
-/

namespace Xv6.Mkfs

open Fs Resumption ByteLayout FreeMap Image Function List

variable {E : Halt → Image → Prop} {m m' m₁ m₂ : Image} {i : ℕ} {l l' : List UInt8}
  {fs files : List Input}

/-! ## Files -/

structure Adds (i : ℕ) (l : List UInt8) (m m' : Image) : Prop where
  good : m'.Good
  freeinode : m'.freeinode = m.freeinode
  winodes : ∀ w ∈ m'.winodes, w ∈ m.winodes ∨ w = i
  node_ne : ∀ j, j ≠ i → m'.vol.node j = m.vol.node j
  type : (m'.vol.node i).type = (m.vol.node i).type
  size : (m'.vol.node i).size.toNat = (m.vol.node i).size.toNat + l.length
  contents : m'.vol.contents i = m.vol.contents i ++ l
  contents_ne : ∀ j, j ≠ i → m.vol.Allocated j → m'.vol.contents j = m.vol.contents j
  freeblock : m'.freeblock + Volume.cost (blocksOf (m.vol.node i).size.toNat) =
    m.freeblock + Volume.cost (blocksOf ((m.vol.node i).size.toNat + l.length))
  zero : ZeroFrom m.vol i (m.vol.node i).size.toNat → ZeroFrom m'.vol i (m'.vol.node i).size.toNat
  zero_ne : ∀ j off, j ≠ i → m.vol.Allocated j → ZeroFrom m.vol j off → ZeroFrom m'.vol j off

variable {off' : ℕ} {R : Unit → Image → Prop}

theorem Adds.nil (h : m.Good) (i : ℕ) : Adds i [] m m :=
  ⟨h, rfl, fun _ hw => .inl hw, fun _ _ => rfl, rfl, rfl, (append_nil _).symm, fun _ _ _ => rfl, rfl, id,
    fun _ _ _ _ => id⟩

theorem Appends.adds (h : Appends i l m m') : Adds i l m m' := by
  refine ⟨h.good, h.freeinode, fun w hw => ?_, h.node_ne, ?_, h.size, h.contents, h.contents_ne, h.freeblock,
    h.size ▸ h.zero, h.zero_ne⟩
  · rw [h.winodes, mem_append, mem_singleton] at hw
    exact hw
  · obtain ⟨a, ha⟩ := h.node
    rw [ha]

theorem Adds.allocated (h : Adds i l m m') {j : ℕ} : m'.vol.Allocated j ↔ m.vol.Allocated j := by
  have htype : (m'.vol.node j).type = (m.vol.node j).type := by
    by_cases hj : j = i
    · rw [hj, h.type]
    · rw [h.node_ne j hj]
  unfold Volume.Allocated
  rw [htype]
  rfl

theorem Adds.trans (h : Adds i l m m₁) (h' : Adds i l' m₁ m') : Adds i (l ++ l') m m' := by
  refine ⟨h'.good, h'.freeinode.trans h.freeinode, fun w hw => ?_, fun j hj => ?_, h'.type.trans h.type, ?_, ?_,
    fun j hj ha => ?_, ?_, fun hz => h'.zero (h.zero hz), fun j off hj ha hz => ?_⟩
  · exact (h'.winodes w hw).elim (h.winodes w) .inr
  · rw [h'.node_ne j hj, h.node_ne j hj]
  · rw [h'.size, h.size, length_append, Nat.add_assoc]
  · rw [h'.contents, h.contents, append_assoc]
  · rw [h'.contents_ne j hj (h.allocated.2 ha), h.contents_ne j hj ha]
  · have hfirst := h.freeblock
    have hsecond := h'.freeblock
    rw [h.size, Nat.add_assoc, ← length_append] at hsecond
    omega
  · exact h'.zero_ne j off hj (h.allocated.2 ha) (h.zero_ne j off hj ha hz)

theorem Fits.mono {off off₁ : ℕ} (h : Fits m off off') (hle : off₁ ≤ off') : Fits m off off₁ :=
  ⟨hle.trans h.size, h.room.mono (blocksOf_mono hle)⟩

theorem Adds.fits (h : Adds i l m m') (hfits : Fits m (m.vol.node i).size.toNat off') :
    Fits m' (m'.vol.node i).size.toNat off' := by
  refine ⟨hfits.size, ?_⟩
  have hroom := hfits.room
  have hfree := h.freeblock
  rw [h.size]
  unfold Room at *
  omega

theorem wp_chunks {R : PUnit → Image → Prop} (chunks : List Chunk) (h : m.Good) (hi : m.vol.Allocated i)
    (hE : ∀ e m', ¬ Fits m (m.vol.node i).size.toNat
      ((m.vol.node i).size.toNat + (chunks.flatMap Subtype.val).length) → E e m')
    (hR : ∀ m', Adds i (chunks.flatMap Subtype.val) m m' → R () m') :
    wp (chunks.forM fun c => iappend i c.1) R E m := by
  induction chunks generalizing m R with
  | nil => exact hR m (.nil h i)
  | cons c cs ih =>
    simp only [flatMap_cons, length_append] at hE hR
    rw [forM_eq_forM, forM_cons, wp_bind]
    refine wp_iappend h hi (fun e m' hno => hE e m' fun hfits => hno (hfits.mono (by omega))) fun m₁ happ => ?_
    have hadds := happ.adds
    refine ih hadds.good (hadds.allocated.2 hi) (fun e m' hno => hE e m' fun hfits => hno ?_)
      fun m' h' => hR m' (hadds.trans h')
    have hfits' := hadds.fits hfits
    rw [hadds.size, ← Nat.add_assoc] at hfits'
    rw [hadds.size]
    exact hfits'

/-! ## The files of an image -/

/-- The bytes of a file. -/
def Input.data (f : Input) : List UInt8 := (f.chunks.getD []).flatMap Subtype.val

/-- The entries of the root directory. -/
def rootEntries (fs : List Input) : List Dirent :=
  ⟨UInt16.ofNat ROOTINO, dot⟩ :: ⟨UInt16.ofNat ROOTINO, dotdot⟩ :: fs.mapIdx fun i f => ⟨UInt16.ofNat (i + 2), f.name⟩

/-- The blocks of the data area that the files and the root directory take. -/
def blocksNeeded (fs : List Input) : ℕ :=
  Volume.cost (blocksOf (DIRENTSIZE * (fs.length + 2))) +
    (fs.map fun f => Volume.cost (blocksOf f.data.length)).sum

structure Built (fs : List Input) (m : Image) : Prop where
  good : m.Good
  freeinode : m.freeinode = fs.length + 2
  fresh : ∀ j, j = 0 ∨ m.freeinode ≤ j → m.vol.node j = .zero
  winodes : ∀ w ∈ m.winodes, w < m.freeinode
  root : (m.vol.node ROOTINO).type = T_DIR ∧ m.vol.contents ROOTINO = (rootEntries fs).flatMap direntBytes
  file : ∀ i (h : i < fs.length), (m.vol.node (i + 2)).type = T_FILE ∧ m.vol.contents (i + 2) = fs[i].data
  freeblock : m.freeblock = nmeta + blocksNeeded fs
  zero : ZeroFrom m.vol ROOTINO (m.vol.node ROOTINO).size.toNat

theorem length_direntBytes (de : Dirent) : (direntBytes de).length = DIRENTSIZE := by simp [direntBytes]

theorem length_rootEntries (fs : List Input) : (rootEntries fs).length = fs.length + 2 := by simp [rootEntries]

theorem length_flatMap_direntBytes (l : List Dirent) : (l.flatMap direntBytes).length = DIRENTSIZE * l.length := by
  induction l with
  | nil => rfl
  | cons de l ih =>
    rw [flatMap_cons, length_append, length_direntBytes, ih, length_cons, Nat.mul_succ, Nat.add_comm]

theorem Built.root_size (h : Built fs m) : (m.vol.node ROOTINO).size.toNat = DIRENTSIZE * (fs.length + 2) := by
  rw [← length_contents, h.root.2, length_flatMap_direntBytes, length_rootEntries]

structure Accepted (files : List Input) : Prop where
  slash : ∀ f ∈ files, 47 ∉ f.arg
  opens : ∀ f ∈ files, f.chunks ≠ none
  size : ∀ f ∈ files, f.data.length ≤ MAXFILE * BSIZE
  room : blocksNeeded files ≤ nblocks

theorem blocksNeeded_append (fs fs' : List Input) : blocksNeeded (fs ++ fs') =
    Volume.cost (blocksOf (DIRENTSIZE * ((fs ++ fs').length + 2))) +
      (fs.map fun f => Volume.cost (blocksOf f.data.length)).sum +
      (fs'.map fun f => Volume.cost (blocksOf f.data.length)).sum := by
  unfold blocksNeeded
  rw [map_append, sum_append, Nat.add_assoc]

theorem Accepted.left {fs' : List Input} (h : Accepted (fs ++ fs')) : Accepted fs := by
  refine ⟨fun f hf => h.slash f (mem_append_left _ hf), fun f hf => h.opens f (mem_append_left _ hf),
    fun f hf => h.size f (mem_append_left _ hf), ?_⟩
  have hroom := h.room
  rw [blocksNeeded_append, length_append] at hroom
  have hmono : Volume.cost (blocksOf (DIRENTSIZE * (fs.length + 2))) ≤
      Volume.cost (blocksOf (DIRENTSIZE * (fs.length + fs'.length + 2))) :=
    cost_mono (blocksOf_mono (Nat.mul_le_mul_left _ (by omega)))
  unfold blocksNeeded
  omega

theorem Built.add {f : Input} {m₃ : Image} (h : Built fs m) (hlen : fs.length + 2 < ninodeblocks * IPB)
    (hs : Starts (fs.length + 2) T_FILE m m₁)
    (hr : Adds ROOTINO (direntBytes ⟨UInt16.ofNat (fs.length + 2), f.name⟩) m₁ m₂)
    (hf : Adds (fs.length + 2) f.data m₂ m₃) : Built (fs ++ [f]) m₃ := by
  have hroot : ROOTINO ≠ fs.length + 2 := by
    simp only [ROOTINO]
    omega
  have hrootNode : m₁.vol.node ROOTINO = m.vol.node ROOTINO := hs.node_ne _ hroot
  have hfile : (m₂.vol.node (fs.length + 2)).size.toNat = 0 ∧ m₂.vol.contents (fs.length + 2) = [] ∧
      (m₂.vol.node (fs.length + 2)).type = T_FILE := by
    have hnode : m₂.vol.node (fs.length + 2) = m₁.vol.node (fs.length + 2) := hr.node_ne _ hroot.symm
    have hzero : (m₂.vol.node (fs.length + 2)).size.toNat = 0 := by
      rw [hnode, hs.node]
      rfl
    refine ⟨hzero, length_eq_zero_iff.1 ((length_contents ..).trans hzero), ?_⟩
    rw [hnode, hs.node]
  have hrootAlloc : m₁.vol.Allocated ROOTINO := by
    refine ⟨show ROOTINO < ninodeblocks * IPB by decide, ?_⟩
    rw [hrootNode, h.root.1]
    decide
  have hrootSize : (m₁.vol.node ROOTINO).size.toNat = DIRENTSIZE * (fs.length + 2) := by
    rw [hrootNode, h.root_size]
  have hother : ∀ j, j ≠ ROOTINO → j ≠ fs.length + 2 → m₃.vol.node j = m.vol.node j := fun j h1 h2 => by
    rw [hf.node_ne j h2, hr.node_ne j h1, hs.node_ne j h2]
  have hlength : (fs ++ [f]).length = fs.length + 1 := by simp
  refine ⟨hf.good, ?_, fun j hj => ?_, fun w hw => ?_, ⟨?_, ?_⟩, fun i hi => ?_, ?_, ?_⟩
  · rw [hf.freeinode, hr.freeinode, hs.freeinode, hlength]
  · rw [hf.freeinode, hr.freeinode, hs.freeinode] at hj
    have hj1 : j ≠ ROOTINO := by
      simp only [ROOTINO]
      omega
    rw [hother j hj1 (by omega)]
    refine h.fresh j ?_
    rw [h.freeinode]
    omega
  · rw [hf.freeinode, hr.freeinode, hs.freeinode]
    have hbound : ∀ w ∈ m₁.winodes, w < fs.length + 2 + 1 := by
      intro w hw
      rw [hs.winodes, mem_append, mem_singleton] at hw
      rcases hw with hw | rfl
      · have := h.winodes w hw
        rw [h.freeinode] at this
        omega
      · omega
    rcases hf.winodes w hw with hw | rfl
    · rcases hr.winodes w hw with hw | rfl
      · exact hbound w hw
      · simp only [ROOTINO]
        omega
    · omega
  · rw [hf.node_ne _ hroot, hr.type, hrootNode, h.root.1]
  · rw [hf.contents_ne _ hroot (hr.allocated.2 hrootAlloc), hr.contents, hs.contents_ne _ hroot, h.root.2]
    simp [rootEntries]
  · by_cases hlast : i = fs.length
    · subst hlast
      refine ⟨by rw [hf.type, hfile.2.2], ?_⟩
      rw [hf.contents, hfile.2.1]
      simp
    · have hi' : i < fs.length := by
        rw [hlength] at hi
        omega
      obtain ⟨htype, hcont⟩ := h.file i hi'
      have h1 : i + 2 ≠ ROOTINO := by
        simp only [ROOTINO]
        omega
      have h2 : i + 2 ≠ fs.length + 2 := by omega
      have halloc : m₁.vol.Allocated (i + 2) := by
        refine ⟨?_, ?_⟩
        · have : m₁.vol.sb.ninodes.toNat = ninodeblocks * IPB := rfl
          omega
        · rw [hs.node_ne _ h2, htype]
          decide
      refine ⟨by rw [hother _ h1 h2, htype], ?_⟩
      rw [hf.contents_ne _ h2 (hr.allocated.2 halloc), hr.contents_ne _ h1 halloc, hs.contents_ne _ h2, hcont,
        getElem_append_left hi']
  · have hfirst := hr.freeblock
    have hsecond := hf.freeblock
    rw [hrootSize, length_direntBytes, ← Nat.mul_add_one] at hfirst
    rw [hfile.1, Nat.zero_add, show Volume.cost (blocksOf 0) = 0 from rfl] at hsecond
    have hcount := h.freeblock
    rw [hs.freeblock] at hfirst
    rw [blocksNeeded_append, hlength]
    unfold blocksNeeded at hcount
    simp only [map_cons, map_nil, sum_cons, sum_nil]
    rw [show fs.length + 1 + 2 = fs.length + 2 + 1 by omega]
    omega
  · rw [hf.node_ne _ hroot]
    refine hf.zero_ne _ _ hroot (hr.allocated.2 hrootAlloc) (hr.zero (hs.zero_ne _ _ ?_))
    rw [hrootNode]
    exact h.zero

theorem wp_addFile (h : Built fs m) (hlen : fs.length + 2 < ninodeblocks * IPB) (f : Input)
    (hE : ∀ e m', ¬ Accepted (fs ++ [f]) → E e m') (hR : ∀ m', Built (fs ++ [f]) m' → R () m') :
    wp (addFile ROOTINO f) R E m := by
  have hmem : f ∈ fs ++ [f] := mem_append_right _ (mem_singleton_self _)
  unfold addFile
  simp only [wp_ite, wp_throw]
  refine ⟨fun hslash => hE _ _ fun ha => ha.slash f hmem hslash, fun _ => ?_⟩
  cases hchunks : f.chunks with
  | none => exact hE _ _ fun ha => ha.opens f hmem hchunks
  | some chunks =>
    have hdata : f.data = chunks.flatMap Subtype.val := by
      rw [Input.data, hchunks]
      rfl
    have hfree := h.freeblock
    have hneed : Accepted (fs ++ [f]) → Volume.cost (blocksOf (DIRENTSIZE * (fs.length + 2 + 1))) +
        (fs.map fun f => Volume.cost (blocksOf f.data.length)).sum + Volume.cost (blocksOf f.data.length) ≤ nblocks := by
      intro ha
      have hroom := ha.room
      rw [blocksNeeded_append, length_append, length_singleton,
        show fs.length + 1 + 2 = fs.length + 2 + 1 by omega] at hroom
      simpa using hroom
    have hall : nmeta + nblocks = FSSIZE := by decide
    dsimp only
    rw [wp_bind]
    refine wp_ialloc h.good (h.freeinode ▸ hlen) (h.fresh _ (.inr le_rfl)) fun m₁ hs => ?_
    rw [h.freeinode] at hs ⊢
    have hroot : ROOTINO ≠ fs.length + 2 := by
      simp only [ROOTINO]
      omega
    have hrootNode : m₁.vol.node ROOTINO = m.vol.node ROOTINO := hs.node_ne _ hroot
    have hrootAlloc : m₁.vol.Allocated ROOTINO := by
      refine ⟨show ROOTINO < ninodeblocks * IPB by decide, ?_⟩
      rw [hrootNode, h.root.1]
      decide
    have hrootSize : (m₁.vol.node ROOTINO).size.toNat = DIRENTSIZE * (fs.length + 2) := by
      rw [hrootNode, h.root_size]
    rw [wp_bind]
    refine wp_iappend hs.good hrootAlloc (fun e m' hno => hE e m' fun ha => hno ?_) fun m₂ hr => ?_
    · rw [hrootSize, length_direntBytes, ← Nat.mul_add_one]
      refine ⟨?_, ?_⟩
      · simp only [DIRENTSIZE, MAXFILE, NDIRECT, NINDIRECT, BSIZE, ninodeblocks, NINODES, IPB, DINODESIZE] at hlen ⊢
        omega
      · have := hneed ha
        unfold Room
        rw [hs.freeblock, hfree]
        unfold blocksNeeded
        omega
    · have hr := hr.adds
      have hnode : m₂.vol.node (fs.length + 2) = m₁.vol.node (fs.length + 2) := hr.node_ne _ hroot.symm
      have halloc : m₂.vol.Allocated (fs.length + 2) := by
        refine ⟨hlen, ?_⟩
        rw [hnode, hs.node]
        decide
      have hzero : (m₂.vol.node (fs.length + 2)).size.toNat = 0 := by
        rw [hnode, hs.node]
        rfl
      refine wp_chunks chunks hr.good halloc (fun e m' hno => hE e m' fun ha => hno ?_)
        fun m₃ hf => hR m₃ (h.add hlen hs hr (hdata ▸ hf))
      rw [hzero, Nat.zero_add, ← hdata]
      refine ⟨ha.size f hmem, ?_⟩
      have hneed := hneed ha
      have hgrow := hr.freeblock
      rw [hrootSize, length_direntBytes, ← Nat.mul_add_one, hs.freeblock, hfree] at hgrow
      unfold blocksNeeded at hgrow
      unfold Room
      rw [show Volume.cost (blocksOf 0) = 0 from rfl]
      omega

/-! ## The whole program -/

def blank : Image :=
  { start with img := Function.update (fun _ => .zero) 1 (setSuperblock .zero sb), nsect := FSSIZE }

theorem blank_img : blank.img = update (fun _ => .zero) 1 (setSuperblock .zero sb) := rfl

theorem fill_zero (n : ℕ) : (List.range n).forM (fun i => wsect i .zero) start = .ok () { start with nsect := n } := by
  induction n with
  | zero => rfl
  | succ n ih =>
    rw [range_succ, forM_eq_forM, forM_append]
    rw [forM_eq_forM] at ih
    change EStateM.bind _ _ _ = _
    unfold EStateM.bind
    rw [ih]
    change EStateM.Result.ok () { start with
      img := update start.img n .zero, nsect := max n (n + 1) } = _
    have hsame : update start.img n .zero = start.img := update_eq_self n start.img
    rw [max_eq_right (Nat.le_succ n), hsame]

theorem dinode_zero (k : ℕ) : dinode (.zero : Block) k = .zero := by
  simp [dinode, Dinode.ofBytes, Dinode.zero, get16, get32]

theorem blank_node (j : ℕ) : blank.vol.node j = .zero := by
  by_cases hj : j < ninodeblocks * IPB
  · have hlow := (iblock_range hj).1
    have hne : IBLOCK j sb ≠ 1 := by omega
    simp only [vol, node, if_pos hj, blank, update_of_ne hne]
    exact dinode_zero _
  · exact if_neg hj

theorem blank_good : blank.Good := by
  have hnone : ∀ j, ¬ blank.vol.Allocated j := fun j hj => hj.2 (by rw [blank_node]; rfl)
  refine ⟨⟨rfl, le_rfl, by decide, fun b hb => ?_, ?_⟩, ?_, fun j hj => absurd hj (hnone j)⟩
  · have hne : b ≠ 1 := by
      have : blank.freeblock = 59 := rfl
      omega
    rw [blank_img, update_of_ne hne]
  · rw [blank_img, update_self]
  · have hown : ∀ x, blank.vol.own x = 0 := fun x => if_neg (hnone x.1)
    refine ⟨by decide, fun x hx => absurd (hown x) hx, fun x y hx => absurd (hown x) hx, fun b _ => ?_⟩
    have hstart : blank.vol.sb.dataStart = nmeta := imageSb_dataStart
    have hused : blank.vol.used b = true ↔ b < nmeta := decide_eq_true_iff
    rw [hstart, hused]
    refine ⟨.inl, fun hb => hb.elim id ?_⟩
    rintro ⟨x, hx⟩
    rw [hown] at hx
    rw [← hx]
    decide

theorem wp_root {rest : ℕ → M Unit} (hR : ∀ m, Built [] m → wp (rest ROOTINO) R E m) :
    wp (do
      let rootino ← ialloc T_DIR
      if rootino = ROOTINO then
        iappend rootino (direntBytes ⟨UInt16.ofNat rootino, dot⟩)
        iappend rootino (direntBytes ⟨UInt16.ofNat rootino, dotdot⟩)
        rest rootino
      else throw .abort) R E blank := by
  have hinode : blank.freeinode = 1 := rfl
  rw [wp_bind]
  refine wp_ialloc blank_good (show 1 < ninodeblocks * IPB by decide) (blank_node _) fun m₁ hs => ?_
  rw [hinode] at hs ⊢
  rw [if_pos (show 1 = ROOTINO from rfl), wp_bind]
  have halloc : m₁.vol.Allocated 1 := by
    refine ⟨show 1 < ninodeblocks * IPB by decide, ?_⟩
    rw [hs.node]
    decide
  have hsize : (m₁.vol.node 1).size.toNat = 0 := by
    rw [hs.node]
    rfl
  have hblock : m₁.freeblock = nmeta := hs.freeblock
  have hcost : Volume.cost (blocksOf 0) = 0 ∧ Volume.cost (blocksOf DIRENTSIZE) = 1 ∧
      Volume.cost (blocksOf (DIRENTSIZE + DIRENTSIZE)) = 1 := by decide
  refine wp_iappend hs.good halloc (fun e m' hno => absurd ?_ hno) fun m₂ h₂ => ?_
  · rw [hsize, length_direntBytes, Nat.zero_add]
    refine ⟨by decide, ?_⟩
    unfold Room
    rw [hblock, hcost.1, hcost.2.1]
    decide
  have h₂ := h₂.adds
  have hblock₂ := h₂.freeblock
  have hsize₂ := h₂.size
  rw [hsize, length_direntBytes, Nat.zero_add] at hblock₂ hsize₂
  rw [hcost.1, hcost.2.1, hblock] at hblock₂
  rw [wp_bind]
  refine wp_iappend h₂.good (h₂.allocated.2 halloc) (fun e m' hno => absurd ?_ hno) fun m₃ h₃ => hR m₃ ?_
  · rw [hsize₂, length_direntBytes]
    refine ⟨by decide, ?_⟩
    unfold Room
    rw [hcost.2.1, hcost.2.2]
    simp only [nmeta, nlog, ninodeblocks, nbitmap, NINODES, IPB, LOGSIZE, MAXOPBLOCKS, BSIZE, DINODESIZE,
      FSSIZE] at hblock₂ ⊢
    omega
  have hboth := h₂.trans h₃.adds
  have hblock₃ := hboth.freeblock
  rw [hsize, length_append, length_direntBytes, length_direntBytes, Nat.zero_add, hcost.1, hcost.2.2,
    hblock] at hblock₃
  refine ⟨hboth.good, ?_, fun j hj => ?_, fun w hw => ?_, ⟨?_, ?_⟩, nofun, ?_, hboth.zero (hsize ▸ hs.zero)⟩
  · rw [hboth.freeinode, hs.freeinode]
    rfl
  · have hj1 : j ≠ 1 := by
      rw [hboth.freeinode, hs.freeinode] at hj
      omega
    rw [hboth.node_ne j hj1, hs.node_ne j hj1, blank_node]
  · rw [hboth.freeinode, hs.freeinode]
    rcases hboth.winodes w hw with hw | rfl
    · rw [hs.winodes, mem_append, mem_singleton] at hw
      rcases hw with hw | rfl
      · exact absurd hw not_mem_nil
      · decide
    · decide
  · rw [hboth.type, hs.node]
  · have hempty : m₁.vol.contents 1 = [] := length_eq_zero_iff.1 ((length_contents ..).trans hsize)
    rw [hboth.contents, hempty]
    simp [rootEntries]
  · have hneeded : blocksNeeded [] = 1 := by decide
    rw [hneeded]
    omega

end Xv6.Mkfs
