import Xv6.ArgStack

/-!
# exec and the memory of its caller

Either `exec` replaces the image of its caller, or it gives back what it has taken. What the new image
consists of is said by the file and by the arguments: the segments below the two stack pages, and in
the upper one of these the argument block.
-/

namespace Xv6.Vm

open Resumption ByteLayout Custody

variable [Link] {m m' m₂ : Mem} {c d : ℕ} {F : Set ℕ} {f : ElfFile} {elf : Bytes}
  {argv : List (List UInt8)} {l stale path : List UInt8} {s : State} {N : Prop}
  {R : ℕ → UInt32 → UInt32 → Mem → Prop}

/-! ## The two ways in which exec ends -/

/-- After a failure: no page in use has changed, and everything that was taken for a new directory is
free again, once. -/
structure Undone (F : Set ℕ) (m m' : Mem) : Prop where
  pool : PoolOk m' F
  contents : ∀ pg, pg ∉ m.freelist → m'.page pg = m.page pg
  freed : ∀ d m₁, setupkvm m = .ok (some d) m₁ → ∀ pg, pg ∈ m'.freelist ↔ pg ∈ m.freelist

/-- How a directory is filled: `N` is the reason if it is not, and `R` holds of the directory, the size
and the stack pointer otherwise. -/
def FillPost (F : Set ℕ) (d : ℕ) (m : Mem) (N : Prop) (R : ℕ → UInt32 → UInt32 → Mem → Prop) :
    Option (UInt32 × UInt32) → Mem → Prop
  | none, m' => (∃ sz, Image F d sz m m') ∧ N
  | some x, m' => Image F d x.1 m m' ∧ R d x.1 x.2 m'

variable {E : Stop → Mem → Prop} {m₁ : Mem}

theorem exists_setupkvm (h : PoolOk m F) : ∃ r m₁, setupkvm m = .ok r m₁ ∧
    match r with
    | none => PoolOk m₁ F ∧ ∀ pg, pg ∉ m.freelist → m₁.page pg = m.page pg
    | some d => Built F d m m₁ := by
  apply wp_exists_ok
  apply wp_setupkvm h
  · exact fun _ => ⟨h.asked, fun _ _ => rfl⟩
  · intro d m₁ hl
    have hd : Declined F True (m₁.calls - m.calls) m m₁.asked := hl.declined trivial
    exact ⟨hd.pool, hd.contents⟩
  · exact fun d m₁ hb => hb

theorem wp_newImage_of (h : PoolOk m F)
    (hfill : ∀ d m₁, setupkvm m = .ok (some d) m₁ → Built F d m m₁ →
      wp (loadImage f c d elf argv) (FillPost F d m N R) E m₁) :
    wp (newImage f c elf argv) (fun r m' =>
      match r with
      | none => Undone F m m' ∧ ((∃ m₁, setupkvm m = .ok none m₁) ∨ N)
      | some x => Image F x.1 x.2.1 m m' ∧ R x.1 x.2.1 x.2.2 m') E m := by
  obtain ⟨r, m₁, hrun, hpost⟩ := exists_setupkvm h
  unfold newImage
  rw [wp_bind, wp_of_ok hrun]
  cases r with
  | none =>
    refine ⟨⟨hpost.1, hpost.2, fun d m₂ hsome => ?_⟩, .inl ⟨m₁, hrun⟩⟩
    rw [hrun] at hsome
    cases hsome
  | some d =>
    simp only [wp_bind]
    refine wp_post (hfill d m₁ hrun hpost) ?_
    rintro (_ | ⟨sz, sp⟩) m₂ hfilled
    · obtain ⟨⟨sz, himg⟩, hwhy⟩ := hfilled
      simp only [wp_bind]
      refine wp_post (wp_freevm himg.opened.ok himg.shape.segment) ?_
      intro _ m' hf
      obtain ⟨hpool, hpages, hfree⟩ := hf.back himg.opened
      rw [wp_pure]
      exact ⟨⟨hpool, hpages, fun _ _ _ => hfree⟩, .inr hwhy⟩
    · exact hfilled

theorem Freed.bytes_other {G : Set ℕ} (hf : Freed c G m m')
    (hpages : ∀ pg ∈ m.Pages d, pg ∈ G) (hpte : m'.pte d = m.pte d) : m'.bytes d = m.bytes d := by
  apply Mem.bytes_congr
  intro u hu
  unfold Mem.view
  rw [hpte]
  cases he : m.pte d u with
  | none => rfl
  | some e =>
    have hin : PTE_ADDR e ∈ m.Pages d := ⟨.user u, hu, by rw [he]; rfl⟩
    rw [Option.map_some, Option.map_some,
      hf.contents _ fun hfree => hf.pool.frame _ hfree (hpages _ hin)]

def Replaced (s : State) (elf : Bytes) (path : List UInt8) (R : ℕ → UInt32 → UInt32 → Mem → Prop)
    (s' : State) : Prop :=
  ∃ d sz sp m₂, R d sz sp m₂ ∧ s'.mem.pte d = m₂.pte d ∧ s'.mem.bytes d = m₂.bytes d ∧
    s' = { s with mem := s'.mem }.setProc s.cur { s.proc s.cur with
      pgdir := some d, sz := sz, eip := get32 elf 24, esp := sp, name := (baseName path).take 15 }

theorem wp_exec_of {E : Stop → State → Prop} (path : List UInt8) (h : SystemOk s) (hr : Running s c)
    (hhead : readHeader f = some elf)
    (hfill : ∀ d m₁, setupkvm s.mem = .ok (some d) m₁ → Built (s.Owned {.free}) d s.mem m₁ →
      wp (loadImage f c d elf argv) (FillPost (s.Owned {.free}) d s.mem N R) (fun _ _ => False) m₁) :
    wp (exec path (some f) argv) (fun r s' =>
      r = false ∧ s' = { s with mem := s'.mem } ∧ Undone (s.Owned {.free}) s.mem s'.mem ∧
        ((∃ m₁, setupkvm s.mem = .ok none m₁) ∨ N) ∨
      r = true ∧ Replaced s elf path R s') E s := by
  unfold exec
  simp only [hhead, wp_bind, wp_getProc, hr.pgdir, wp_onMem]
  refine wp_mono (wp_newImage_of h.pool hfill) ?_ (fun _ _ he => he.elim)
  rintro (_ | ⟨d, sz, sp⟩) m₂ hpost
  · exact .inl ⟨rfl, rfl, hpost.1, hpost.2⟩
  · obtain ⟨himg, hR⟩ := hpost
    have himg : Image (s.Owned {.free}) d sz s.mem m₂ := himg
    obtain ⟨hold, hpte⟩ := hr.beside h himg.opened
    have hseg : m₂.Segment c 0 := by
      unfold Mem.Segment
      rw [hpte]
      exact hr.shape.segment
    simp only [setProc, wp_bind, wp_get, wp_modify, wp_onMem]
    refine wp_post (wp_freevm hold hseg) ?_
    intro _ m' hfreed
    rw [wp_pure]
    have hsub : s.Owned (mine (some s.cur)) ⊆ s.Owned {.free} := by
      rintro pg ⟨a, ha, hpg⟩
      exact ⟨a, fun hc => ha (.inl hc), hpg⟩
    have hnew := (hfreed.other himg.opened.ok (fun pg hpg => .inr hpg) Set.subset_union_left hsub).2
    refine .inr ⟨rfl, d, sz, sp, m₂, hR, hnew, ?_, rfl⟩
    exact hfreed.bytes_other (fun pg hpg => .inr hpg) hnew

/-! ## The program of the file -/

/-- The segments that the file `l` has for loading. -/
def segmentsOf (l : List UInt8) : List Segment :=
  segments l (get32 (fileBytes l 0) 28) 0 (get16 (fileBytes l 0) 44).toNat

/-- The size of the image: the segments, up to a page, and two pages for the stack. -/
def imageSize (l : List UInt8) : ℕ :=
  (topOf 0 (segmentsOf l) + PGSIZE - 1) / PGSIZE * PGSIZE + 2 * PGSIZE

/-- The segments over empty memory, in the order of the program headers. -/
def imageBytes (l : List UInt8) : Bytes := (segmentsOf l).foldl (Segment.load l) fun _ => 0

/-- Header and program headers are in the file, and all segments pass the checks. -/
structure Loadable (l : List UInt8) : Prop where
  header : ELFHDRSIZE ≤ l.length
  magic : get32 (fileBytes l 0) 0 = ELF_MAGIC
  headers : ∀ j < (get16 (fileBytes l 0) 44).toNat,
    headerAt (get32 (fileBytes l 0) 28) j + PROGHDRSIZE ≤ l.length
  segments : ∀ g ∈ segmentsOf l, g.Ok l

/-- The image that the file describes, in directory `d`. -/
structure ProgramLoaded (l : List UInt8) (m : Mem) (d : ℕ) (sz : UInt32) : Prop where
  size : sz.toNat = imageSize l
  present : ∀ v < 2 ^ 19, m.pte d v ≠ none ↔ v < imageSize l / PGSIZE
  user : ∀ v < imageSize l / PGSIZE, m.userPage d v ≠ none ↔ v ≠ imageSize l / PGSIZE - 2
  bytes : ∀ a < imageSize l - 2 * PGSIZE, m.bytes d a = imageBytes l a

omit [Link] in
theorem readHeader_contents (h : readHeader (contentsFile l stale) = some elf) :
    ELFHDRSIZE ≤ l.length ∧ get32 (fileBytes l 0) 0 = ELF_MAGIC ∧
      get32 elf 28 = get32 (fileBytes l 0) 28 ∧ get16 elf 44 = get16 (fileBytes l 0) 44 := by
  have hread : (contentsFile l stale).read 0 (UInt32.ofNat ELFHDRSIZE) = some (l.take ELFHDRSIZE) := by
    have hin : ¬ (l.length < (0 : UInt32).toNat ∨
        2 ^ 32 ≤ (0 : UInt32).toNat + (UInt32.ofNat ELFHDRSIZE).toNat) := by
      rintro (hlt | hle)
      · exact Nat.not_lt_zero _ hlt
      · exact absurd hle (by decide)
    unfold contentsFile
    simp only [if_neg hin]
    rfl
  unfold readHeader at h
  rw [hread] at h
  simp only [Option.map_some, Option.getD_some, List.length_take] at h
  split_ifs at h with hlen hmagic
  have hbytes : ∀ i < ELFHDRSIZE, (l.take ELFHDRSIZE).getD i 0 = fileBytes l 0 i := by
    intro i hi
    unfold fileBytes
    rw [List.getD_eq_getElem?_getD, List.getD_eq_getElem?_getD, List.getElem?_take_of_lt hi, Nat.zero_add]
  have helf := (Option.some.inj h).symm
  refine ⟨by omega, ?_, ?_, ?_⟩
  · rw [← not_not.mp hmagic]
    exact get32_congr fun i hi => (hbytes _ (by simp only [ELFHDRSIZE]; omega)).symm
  · rw [helf]
    exact get32_congr fun i hi => hbytes _ (by simp only [ELFHDRSIZE]; omega)
  · rw [helf]
    exact get16_congr fun i hi => hbytes _ (by simp only [ELFHDRSIZE]; omega)

def ProgramPost (l : List UInt8) (d : ℕ) (sz _sp : UInt32) (m : Mem) : Prop :=
  Loadable l ∧ ProgramLoaded l m d sz

attribute [local irreducible] buildStack

theorem wp_loadImage_program (hl : l.length < 2 ^ 32)
    (hhead : readHeader (contentsFile l stale) = some elf)
    (hargs : Loadable l → argBlock argv ≤ imageSize l) (hb : Built F d m m₁) :
    wp (loadImage (contentsFile l stale) c d elf argv) (FillPost F d m True (ProgramPost l)) E m₁ := by
  obtain ⟨hlen, hmagic, hphoff, hphnum⟩ := readHeader_contents hhead
  unfold loadImage
  rw [wp_bind, hphoff, hphnum]
  refine wp_post (wp_loadSegments_contents hl hb.loaded) ?_
  rintro (_ | sz) m₂ ⟨himg, hdone⟩
  · exact ⟨himg, trivial⟩
  have hs := hdone sz rfl
  have hok : Loadable l := ⟨hlen, hmagic, fun j hj => hs.headers j (Nat.zero_le j) (by omega), hs.segments⟩
  have hsize : pagesOf sz * PGSIZE + 2 * PGSIZE = imageSize l := by
    rw [imageSize, pagesOf, hs.size]
    rfl
  refine wp_post (wp_buildStack_args hs.image (by rw [hsize]; exact hargs hok)) ?_
  rintro (_ | ⟨sz', sp⟩) m₃ hpost
  · exact ⟨hpost.1, trivial⟩
  · obtain ⟨htop, hfit, -, hst⟩ := hpost
    have htop : sz'.toNat = imageSize l := htop.trans hsize
    have hpages : pagesOf sz' = imageSize l / PGSIZE := by rw [hst.pages, htop]
    refine ⟨hst.toImage, hok, htop, ?_, ?_, fun a ha => ?_⟩
    · intro v hv
      rw [← hpages]
      exact hst.shape.user v hv
    · intro v hv
      rw [← htop]
      exact hst.user v (by rw [hpages]; exact hv)
    · have htwo := hst.two
      rw [hst.bytes, argImage_below (by omega) (by omega)]
      rfl

theorem Fresh.running {n : ℕ} (hok : SystemOk s) (hf : Fresh s d n) : Running s d := by
  obtain ⟨hspace, hpgdir, -, hsz⟩ := hf.space hok
  refine ⟨?_, hpgdir, ?_, hspace⟩
  · rw [hf.cur, hf.state]
    decide
  · rw [hsz]
    exact hf.shape

/-- A file with a header only. -/
def headerOnly : List UInt8 := [0x7F, 0x45, 0x4C, 0x46] ++ List.replicate 48 0

omit [Link] in
theorem segmentsOf_headerOnly : segmentsOf headerOnly = [] := by
  have hnum : get16 (fileBytes headerOnly 0) 44 = 0 := by decide
  unfold segmentsOf
  rw [hnum]
  rfl

/-- The argument block is at the end of the image, and below the stack page there are the bytes
`mem`. -/
structure ArgsPushed (argv : List (List UInt8)) (mem : Bytes) (top esp : ℕ) (bytes : Bytes) : Prop where
  whole : esp + argBlock argv = top
  stack : ArgStack argv top esp bytes
  rest : ∀ a < top - PGSIZE, bytes a = mem a

def ArgPost (argv : List (List UInt8)) (mem : Bytes) (newsz : UInt32) (d d' : ℕ) (sz sp : UInt32)
    (m : Mem) : Prop :=
  d' = d ∧ sz = newsz ∧ argBlock argv ≤ PGSIZE ∧
    ArgsPushed argv mem newsz.toNat sp.toNat (m.bytes d)

theorem wp_loadImage_args {m₃ : Mem} {sz newsz : UInt32}
    (hb : Built F d m m₁)
    (hload : loadSegments f d (get32 elf 28) (get16 elf 44).toNat 0 0 m₁ = .ok (some sz) m₂)
    (halloc : allocuvm d (PGROUNDUP sz) (PGROUNDUP sz + UInt32.ofNat (2 * PGSIZE)) m₂ = .ok newsz m₃)
    (hnew : newsz ≠ 0) (hblock : argBlock argv ≤ newsz.toNat) (hargc : argv.length < MAXARG) :
    wp (loadImage f c d elf argv) (FillPost F d m (PGSIZE < argBlock argv)
      (ArgPost argv (m₂.bytes d) newsz d)) E m₁ := by
  obtain ⟨sz', ⟨img, himg⟩, hsz⟩ := wp_ok (wp_loadSegments (E := E) Loaded.inv ⟨_, hb.loaded⟩) hload
  obtain rfl : sz = sz' := by simpa using hsz
  obtain rfl := himg.bytes
  -- what `allocuvm` returns is the size of the image with its stack
  have htop : newsz.toNat = pagesOf sz * PGSIZE + 2 * PGSIZE := by
    generalize hn : PGROUNDUP sz + UInt32.ofNat (2 * PGSIZE) = asked at halloc
    obtain ⟨sz', -, hr⟩ := wp_ok (wp_allocuvm_stack (E := E) himg hn) halloc
    exact (hr.resolve_left hnew).2
  unfold loadImage
  rw [wp_bind, wp_of_ok hload]
  refine wp_post (wp_buildStack_args himg (htop ▸ hblock)) ?_
  rintro (_ | ⟨sz', sp⟩) m' hpost
  · obtain ⟨himg', hwhy⟩ := hpost
    refine ⟨himg', ?_⟩
    rcases hwhy with ⟨m₄, hzero⟩ | hmany | hlong
    · rw [halloc] at hzero
      injection hzero with hzero
      exact (hnew hzero).elim
    · omega
    · exact hlong
  · obtain ⟨hsz', hfit, hsp, hst⟩ := hpost
    have hsz' : sz'.toNat = newsz.toNat := hsz'.trans htop.symm
    obtain rfl : sz' = newsz := UInt32.toNat_inj.mp hsz'
    have hsp : sp.toNat = sz'.toNat - argBlock argv := hsp
    have hst : Stacked F d sz' (argImage (m₂.bytes d) sz'.toNat argv) m m' := hst
    have hmod := hst.whole
    refine ⟨hst.toImage, rfl, rfl, hfit, ?_, ?_, fun a ha => ?_⟩
    · change sp.toNat + _ = _
      omega
    · change ArgStack argv sz'.toNat sp.toNat (m'.bytes d)
      rw [hst.bytes, hsp]
      refine argImage_stack hblock sz'.toNat_lt ?_
      simp only [PGSIZE] at hmod
      omega
    · rw [hst.bytes, argImage_below hblock (by omega)]

/-- With the segments loaded and pages for the stack, `exec` succeeds just if the argument block fits
into the stack page. -/
theorem exec_pushes_args {m₁ m₃ : Mem} {sz newsz : UInt32} (path : List UInt8) (h : SystemOk s)
    (hr : Running s c) (hhead : readHeader f = some elf) (hsetup : setupkvm s.mem = .ok (some d) m₁)
    (hload : loadSegments f d (get32 elf 28) (get16 elf 44).toNat 0 0 m₁ = .ok (some sz) m₂)
    (halloc : allocuvm d (PGROUNDUP sz) (PGROUNDUP sz + UInt32.ofNat (2 * PGSIZE)) m₂ = .ok newsz m₃)
    (hnew : newsz ≠ 0) (hblock : argBlock argv ≤ newsz.toNat) (hargc : argv.length < MAXARG) :
    ∃ r s', exec path (some f) argv s = .ok r s' ∧ (r = true ↔ argBlock argv ≤ PGSIZE) ∧
      (r = true → (s'.proc s'.cur).pgdir = some d ∧ (s'.proc s'.cur).sz = newsz ∧
        ArgsPushed argv (m₂.bytes d) newsz.toNat (s'.proc s'.cur).esp.toNat (s'.mem.bytes d)) ∧
      (r = false → s'.proc = s.proc ∧ Undone (s.Owned {.free}) s.mem s'.mem) := by
  have hfill : ∀ d' m₁', setupkvm s.mem = .ok (some d') m₁' → Built (s.Owned {.free}) d' s.mem m₁' →
      wp (loadImage f c d' elf argv) (FillPost (s.Owned {.free}) d' s.mem (PGSIZE < argBlock argv)
        (ArgPost argv (m₂.bytes d) newsz d)) (fun _ _ => False) m₁' := by
    intro d' m₁' hsetup' hb
    rw [hsetup] at hsetup'
    cases hsetup'
    exact wp_loadImage_args hb hload halloc hnew hblock hargc
  have hw := wp_exec_of (E := fun _ _ => False) path h hr hhead hfill
  obtain ⟨r, s', hrun, hfalse | htrue⟩ := wp_exists_ok hw
  · obtain ⟨rfl, hs', hundone, hwhy⟩ := hfalse
    refine ⟨false, s', hrun, ⟨fun hr => (by cases hr), fun hfit => ?_⟩,
      fun hr => (by cases hr), fun _ => ?_⟩
    · rcases hwhy with ⟨m₄, hnone⟩ | hlong
      · rw [hsetup] at hnone
        cases hnone
      · omega
    · refine ⟨?_, hundone⟩
      rw [hs']
  · obtain ⟨rfl, d', sz', sp, m', ⟨rfl, rfl, hfit, hargs⟩, -, hbytes, hs'⟩ := htrue
    refine ⟨true, s', hrun, ⟨fun _ => hfit, fun _ => rfl⟩, fun _ => ?_, nofun⟩
    have hproc : s'.proc s'.cur = { s.proc s.cur with
        pgdir := some d', sz := sz', eip := get32 elf 24, esp := sp, name := (baseName path).take 15 } := by
      rw [hs']
      simp [State.setProc]
    rw [hproc, hbytes]
    exact ⟨rfl, rfl, hargs⟩

theorem Mem.Ample.prepared (ha : m.Ample 69) (hpool : PoolOk m F) (helf : get16 elf 44 = 0) :
    ∃ d m₁ m₃, setupkvm m = .ok (some d) m₁ ∧
      loadSegments f d (get32 elf 28) (get16 elf 44).toNat 0 0 m₁ = .ok (some 0) m₁ ∧
      allocuvm d (PGROUNDUP 0) (PGROUNDUP 0 + UInt32.ofNat (2 * PGSIZE)) m₁ = .ok 8192 m₃ := by
  have hw : wp setupkvm (fun r m₁ => ∃ d, r = some d ∧ Built F d m m₁) (fun _ _ => False) m := by
    refine wp_setupkvm hpool ?_ ?_ fun d m₁ hb => ⟨d, rfl, hb⟩
    · exact fun hr => (ha.not_refuses (by omega) hr).elim
    · intro d m₁ hl
      have hlast := hl.last
      exact (hl.paid.grants ha (by omega) hl.refused).elim
  obtain ⟨_, m₁, hsetup, d, rfl, hb⟩ := wp_exists_ok hw
  have hcalls := hb.calls
  have hround : PGROUNDUP 0 = 0 := by decide
  have hnew : 0 + UInt32.ofNat (2 * PGSIZE) = 8192 := by decide
  have hpages : pagesOf 8192 = 2 := by decide
  have halloc : wp (allocuvm d 0 8192) (fun r _ => r = 8192) (fun _ _ => False) m₁ := by
    refine wp_post (wp_allocuvm hb.opened.ok (by decide) hb.image.shape.none_above) ?_
    rintro r m₃ (⟨-, -, hbig | hex⟩ | ⟨hlt, -, -⟩ | ⟨-, -, rfl, -⟩)
    · exact absurd hbig (by decide)
    · rw [hpages] at hex
      exact ((hb.paid.ample ha (by omega)).not_exhausted hex).elim
    · exact absurd hlt (by decide)
    · rfl
  obtain ⟨_, m₃, hrun, rfl⟩ := wp_exists_ok halloc
  refine ⟨d, m₁, m₃, hsetup, ?_, ?_⟩
  · rw [helf]
    rfl
  · rw [hround, hnew]
    exact hrun

omit [Link] in
/-- `init` executes a program without segments with the argument `hi`. -/
theorem exec_pushes_args_boot : ∃ s d s', @main smallKernel [] 0
      (State.off (fun _ => .zero) fun _ => false) = .ok () s ∧
    @exec smallKernel [] (some emptyElf) [[104, 105]] s = .ok true s' ∧
    ∃ mem, ArgsPushed [[104, 105]] mem 8192 (s'.proc s'.cur).esp.toNat (s'.mem.bytes d) := by
  obtain ⟨s, c, hboot, hok, href, hf⟩ := @exists_fresh smallKernel
  have hr := @Fresh.running smallKernel _ _ _ hok hf
  obtain ⟨elf, helf, hnum⟩ := readHeader_emptyElf
  have hample : s.mem.Ample 69 := ⟨href, (show 69 ≤ 56000 by omega).trans (@Fresh.length smallKernel _ _ _ hf)⟩
  obtain ⟨d, m₁, m₃, hsetup, hload, halloc⟩ :=
    @Mem.Ample.prepared smallKernel _ _ emptyElf elf hample (@SystemOk.pool smallKernel _ hok) hnum
  obtain ⟨r, s', hrun, hiff, htrue, -⟩ := @exec_pushes_args smallKernel _ _ _ _ _ [[104, 105]] _ _ _ _ _
    [] hok hr helf hsetup hload halloc (by decide) (by decide) (by decide)
  obtain rfl : r = true := hiff.mpr (by decide)
  exact ⟨s, d, s', hboot, hrun, _, (htrue rfl).2.2⟩

end Xv6.Vm
