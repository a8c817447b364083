import Xv6.Boot

/-!
# An argument longer than the device space

`exec` pushes its arguments below the end of the new image without a check of their length. With more
than 32 MB the stack pointer wraps around to addresses between the kernel's memory and the devices,
for which the new directory has no table; `uva2ka` then reads the entry from address 0, that is from
the process's own memory. The process can name any page there, and the argument is copied to it.

The run below does this to a child of `init`: the page that is overwritten is the child's page table.
-/

namespace Xv6.Vm

open Resumption ByteLayout Custody Mem UInt32 List Nat State Option Buffer

variable {m m' m₁ : Mem} {c d v t n : ℕ} {E : Stop → Mem → Prop}

/-! ## Enough memory -/

/-- No request is refused as long as pages are left, and there are `n` of them. -/
structure Mem.Ample (m : Mem) (n : ℕ) : Prop where
  refuse : m.refuse = fun _ => false
  length : n ≤ m.freelist.length

variable {k : ℕ} {e w : UInt32}

theorem Paid.grants (h : Paid m m') (ha : m.Ample n) (hlt : m'.calls < m.calls + n) :
    ¬ m'.Refuses := by
  have hspent := h.spent
  have hlen := ha.length
  rintro (hr | hr)
  · rw [h.refuse, ha.refuse] at hr
    cases hr
  · rw [hr, length_nil] at hspent
    omega

theorem Mem.Ample.not_exhausted (ha : m.Ample n) : ¬ m.Exhausted n := by
  rintro ⟨m₁, hp, hr, hlt⟩
  exact hp.grants ha hlt hr

theorem Paid.ample (h : Paid m m') (ha : m.Ample n) (hk : m'.calls + k ≤ m.calls + n) :
    m'.Ample k := by
  have hspent := h.spent
  have hlen := ha.length
  exact ⟨h.refuse.trans ha.refuse, by omega⟩

theorem Mem.Ample.mono (ha : m.Ample n) (hk : k ≤ n) : m.Ample k :=
  ⟨ha.refuse, hk.trans ha.length⟩

theorem Mem.Ample.not_refuses (ha : m.Ample n) (hn : 0 < n) : ¬ m.Refuses :=
  (Paid.refl m).grants ha (by omega)

/-! ## The store through the null pointer -/

theorem wp_uva2ka_null {R : Option ℕ → Mem → Prop} (hv : v < 2 ^ 20)
    (ht : m.tab d (v / NPTENTRIES) = none) (he : m.pte c 0 = some e)
    (hw : (m.page (PTE_ADDR e)).word 0 = w) (hp : w &&& PTE_P ≠ 0) (hu : w &&& PTE_U ≠ 0)
    (hR : R (some (PTE_ADDR w)) m) : wp (uva2ka c d v) R E m := by
  obtain ⟨t, ht', hword, hpe⟩ := pte_eq_some he
  unfold uva2ka pteWord nullWord
  rw [wp_bind, wp_bind]
  apply wp_walkpgdir_read hv
  rw [ht, map_none, wp_bind]
  apply wp_walkpgdir_read (by omega)
  rw [ht', map_some]
  simp only [word, wp_bind, wp_get, wp_pure]
  rw [← hword, if_neg hpe]
  simp only [wp_bind, wp_get, wp_pure]
  rw [hw, if_neg hp, if_neg hu]
  exact hR

variable [Link] {F : Set ℕ} {sz : UInt32}

theorem Image.rebase {x : Page} (h : Image F d sz m m₁) (ht : t ∈ F) :
    Image F d sz (m.setPage t x) (m₁.setPage t x) := by
  obtain ⟨hd, hnt⟩ := h.opened.ok.frame_ne ht
  have hpte : (m₁.setPage t x).pte d = m₁.pte d := pte_setPage hd hnt
  have htab : (m₁.setPage t x).tab d = m₁.tab d := tab_setPage hd
  have hfree : (m₁.setPage t x).freelist = m₁.freelist := rfl
  refine ⟨⟨h.opened.head, h.opened.ok.setPage hd hnt, ?_, ?_⟩, ⟨h.shape.size, ?_, ?_⟩, h.refuse⟩
  · intro pg hpg
    by_cases hpt : pg = t
    · rw [hpt, setPage_page_self, setPage_page_self]
    · rw [setPage_page_ne hpt, setPage_page_ne hpt]
      exact h.opened.contents pg hpg
  · rw [stock_congr hfree htab fun v _ => congrFun hpte v]
    exact h.opened.stock
  · rw [hpte]
    exact h.shape.user
  · rw [hpte]
    exact h.shape.kernel

theorem wp_copyout_null {buf : Bytes} {len : ℕ} (h : Image F d sz m m₁)
    (hlen : PGSIZE < len) (htab : m₁.tab d 1015 = none) (he : m₁.pte c 0 = some e)
    (hw : (m₁.page (PTE_ADDR e)).word 0 = w) (hp : w &&& PTE_P ≠ 0) (hu : w &&& PTE_U ≠ 0)
    (ht : PTE_ADDR w ∈ F) (hr : Link.endPage ≤ PTE_ADDR w ∧ PTE_ADDR w < PHYSTOP / PGSIZE) :
    wp (copyout c d 0xFDFFF000 buf len) (fun r m' => r = false ∧
      m' = m₁.setPage (PTE_ADDR w) ((m₁.page (PTE_ADDR w)).write 0 PGSIZE buf)) E m₁ := by
  have hmin : min len (PGSIZE - 0xFDFFF000 % PGSIZE) = PGSIZE := by
    simp only [PGSIZE] at *
    omega
  have hnext : (0xFDFFF + 1) * PGSIZE % 2 ^ 32 = 0xFE000000 := by decide
  have hpage : 0xFDFFF000 / PGSIZE = 0xFDFFF := by decide
  have hoff : 0xFDFFF000 % PGSIZE = 0 := by decide
  have hslot : 0xFDFFF / NPTENTRIES = 1015 := by decide
  rw [copyout, if_neg (by omega), wp_bind, hpage]
  apply wp_uva2ka_null (by decide) (hslot ▸ htab) he hw hp hu
  simp only
  rw [if_neg (by omega), wp_bind, wp_modify, hmin, hnext, hoff]
  exact wp_copyout_devices (h.rebase ht) (by omega) le_rfl (by decide)

/-! ## exec with the argument -/

@[irreducible] def overlong : List UInt8 := List.replicate 0x2002FFF 7

def sevens : Page := .ofBytes fun _ => 7

omit [Link] in
theorem length_overlong : overlong.length = 0x2002FFF := by
  unfold overlong
  exact length_replicate

omit [Link] in
theorem getD_overlong {i : ℕ} (hi : i < 0x2002FFF) : overlong.getD i 0 = 7 := by
  unfold overlong
  rw [getD_eq_getElem?_getD, List.getElem?_replicate, if_pos hi]
  rfl

omit [Link] in
theorem write_overlong (b : Page) : b.write 0 PGSIZE (fun i => overlong.getD i 0) = sevens := by
  apply ext_byte
  intro i hi
  have hin : (b.write 0 PGSIZE fun i => overlong.getD i 0).byte (0 + i) = overlong.getD i 0 :=
    byte_write_inside hi (by omega)
  rw [zero_add] at hin
  rw [hin, getD_overlong (by simp only [PGSIZE] at hi; omega), sevens, byte_ofBytes hi]

/-- The word `w` at address 0 of directory `c` is not in a page that is free in `m`. -/
def NullWord (m : Mem) (c : ℕ) (w : UInt32) : Prop :=
  ∃ e, ∀ m' : Mem, (∀ pg, pg ∉ m.freelist → m'.page pg = m.page pg) →
    m'.pte c 0 = some e ∧ (m'.page (PTE_ADDR e)).word 0 = w

theorem wp_buildStack_overlong (h : Built F d m m₁) (ha : m₁.Ample 4)
    (hnull : NullWord m c w) (hp : w &&& PTE_P ≠ 0) (hu : w &&& PTE_U ≠ 0) (ht : PTE_ADDR w ∈ F)
    (hr : Link.endPage ≤ PTE_ADDR w ∧ PTE_ADDR w < PHYSTOP / PGSIZE) :
    wp (buildStack c d 0 [overlong]) (fun r m' => r = none ∧
      Image F d 8192 (m.setPage (PTE_ADDR w) sevens) m') E m₁ := by
  have hround : PGROUNDUP 0 = 0 := by decide
  have hnew : 0 + ofNat (2 * PGSIZE) = 8192 := by decide
  have hpages : pagesOf 8192 = 2 := by decide
  have hsp : ((8192 - ofNat (0x2002FFF + 1)) &&& ~~~3).toNat = 0xFDFFF000 := by decide
  unfold buildStack
  rw [wp_bind, hround, hnew]
  refine wp_post (wp_allocuvm h.opened.ok (by decide) h.image.shape.none_above) ?_
  rintro r m₂ (⟨-, -, hbig | hex⟩ | ⟨hlt, -, -⟩ | ⟨hle, hsize, rfl, hg⟩)
  · exact absurd hbig (by decide)
  · rw [hpages] at hex
    exact (ha.not_exhausted hex).elim
  · exact absurd hlt (by decide)
  have himg : Image F d 8192 m m₂ :=
    ⟨hg.opened h.opened, hg.shape h.image.shape hsize hle, hg.refuse.trans h.paid.refuse⟩
  rw [if_neg (by decide), wp_bind]
  refine wp_post (wp_clearpteu himg (by decide)) ?_
  rintro _ m₃ ⟨himg₃, htab, -⟩
  obtain ⟨e, hword⟩ := hnull
  obtain ⟨he, hw⟩ := hword m₃ himg₃.opened.contents
  have hslot : m₃.tab d 1015 = none := by
    rw [htab]
    by_contra hne
    rcases (hg.slots 1015).mp (isSome_iff_ne_none.mpr hne) with hk | ⟨u, -, hu, hdiv⟩
    · rw [h.tables, mem_kernelSlots] at hk
      omega
    · rw [hpages] at hu
      simp only [NPTENTRIES] at hdiv
      omega
  rw [wp_bind, pushArgs, if_neg (by decide), wp_bind, length_overlong, hsp]
  refine wp_post (wp_copyout_null himg₃ (by decide) hslot he hw hp hu ht hr) ?_
  rintro r m₄ ⟨rfl, rfl⟩
  rw [write_overlong]
  exact ⟨rfl, himg₃.rebase ht⟩

/-- A program without segments. -/
def emptyElf : ElfFile where
  read := fun _ _ => some ([0x7F, 0x45, 0x4C, 0x46] ++ List.replicate 48 0)
  stale := []

omit [Link] in
theorem readHeader_emptyElf : ∃ elf, readHeader emptyElf = some elf ∧ get16 elf 44 = 0 :=
  ⟨_, rfl, by decide⟩

attribute [local irreducible] buildStack

theorem wp_newImage_overlong {elf : Bytes} (h : PoolOk m F) (ha : m.Ample 69)
    (helf : get16 elf 44 = 0) (hnull : NullWord m c w) (hp : w &&& PTE_P ≠ 0) (hu : w &&& PTE_U ≠ 0)
    (ht : PTE_ADDR w ∈ F) (hr : Link.endPage ≤ PTE_ADDR w ∧ PTE_ADDR w < PHYSTOP / PGSIZE) :
    wp (newImage emptyElf c elf [overlong]) (fun r m' => r = none ∧ PoolOk m' F ∧
      ∀ pg ∈ F, m'.page pg = (m.setPage (PTE_ADDR w) sevens).page pg) E m := by
  have hout : ∀ pg ∈ F, pg ∉ m.freelist := fun pg hpg hf => h.frame pg hf hpg
  unfold newImage
  rw [wp_bind]
  apply wp_setupkvm h
  · exact fun href => (ha.not_refuses (by omega) href).elim
  · intro d m₁ hl
    have hlast := hl.last
    exact (hl.paid.grants ha (by omega) hl.refused).elim
  intro d m₁ hb
  have hcalls := hb.calls
  have hload : loadImage emptyElf c d elf [overlong] = buildStack c d 0 [overlong] := by
    unfold loadImage
    rw [helf]
    rfl
  rw [wp_bind, hload]
  refine wp_post (wp_buildStack_overlong hb (hb.paid.ample ha (by omega)) hnull hp hu ht hr) ?_
  rintro r m₂ ⟨rfl, himg⟩
  simp only
  rw [wp_bind]
  refine wp_post (wp_freevm himg.opened.ok himg.shape.segment) ?_
  intro _ m' hf
  rw [wp_pure]
  refine ⟨rfl, hf.pool, ?_⟩
  intro pg hpg
  have hfree : pg ∉ m'.freelist := fun hfree => hf.pool.frame pg hfree hpg
  rw [hf.contents pg hfree, himg.opened.contents pg (hout pg hpg)]

/-! ## The run -/

section Run

variable {s : State} {p : Fin NPROC} {d' : ℕ}

def UserPage (m : Mem) (d v : ℕ) (x : Page) : Prop :=
  ∃ e, m.pte d v = some e ∧ e &&& PTE_W ≠ 0 ∧ e &&& PTE_U ≠ 0 ∧ m.page (PTE_ADDR e) = x

/-- `init` runs with directory `d`. Its child `p` has one page, in directory `d'` with table `t`. -/
structure Beside (s : State) (d : ℕ) (p : Fin NPROC) (d' t n : ℕ) : Prop where
  ok : SystemOk s
  cur : s.cur = initproc
  live : (s.proc initproc).state = .runnable
  pgdir : (s.proc initproc).pgdir = some d
  pages : ∀ v < pagesOf (s.proc initproc).sz, ∃ x, UserPage s.mem d v x
  page : 0 < pagesOf (s.proc initproc).sz
  ne : p ≠ initproc
  child : (s.proc p).state = .runnable ∧ (s.proc p).pgdir = some d' ∧
    (s.proc p).sz = UInt32.ofNat PGSIZE
  table : s.mem.tab d' 0 = some t
  ample : s.mem.Ample n

variable {x : Page} {P : Call → Prop} {k : ℕ}

omit [Link] in
theorem mkPte_userPage {pg : ℕ} (hpg : PTE_ADDR (mkPte pg (PTE_W ||| PTE_U ||| PTE_P)) = pg)
    (he : m.pte d v = some (mkPte pg (PTE_W ||| PTE_U ||| PTE_P))) : ∃ x, UserPage m d v x := by
  have hlt : pg < 2 ^ 20 := by
    have := (mkPte pg (PTE_W ||| PTE_U ||| PTE_P)).toNat_lt
    rw [PTE_ADDR] at hpg
    simp only [PGSIZE] at hpg
    omega
  refine ⟨_, _, he, ?_, ?_, rfl⟩
  · rw [mkPte_flag hlt (by decide) (by decide)]
    decide
  · rw [mkPte_flag hlt (by decide) (by decide)]
    decide

omit [Link] in
theorem UserPage.canRun (h : UserPage s.mem d v x) (hv : v < 2 ^ 19)
    (hd : (s.proc s.cur).pgdir = some d) : CanRun s := by
  obtain ⟨e, he, -, hu, -⟩ := h
  exact ⟨d, v, e, hd, hv, he, hu⟩

section

variable (h : Beside s d p d' t n)
include h

theorem Beside.canRun : CanRun s := by
  obtain ⟨x, hx⟩ := h.pages 0 h.page
  exact hx.canRun (by omega) (by rw [h.cur]; exact h.pgdir)

theorem Beside.running : Running s d := by
  obtain ⟨c, hr⟩ := h.ok.running (by rw [h.cur]; exact h.live) h.canRun
  have hd := hr.pgdir
  rw [h.cur, h.pgdir] at hd
  obtain rfl := Option.some.inj hd
  exact hr

theorem Beside.dir : s.dir (some p) = some d' := by
  refine dir_some.mpr ⟨?_, h.child.2.1⟩
  rw [h.child.1]
  decide

end

theorem Step.of_wp {c : Call} {Q : State → Prop} (hP : P c)
    (hlive : (s.proc s.cur).state = .runnable) (hready : c.Ready s)
    (hw : wp c.run (fun _ s' => Q s') (fun _ _ => False) s) : ∃ s', Step P s s' ∧ Q s' := by
  obtain ⟨b, s', hc, hQ⟩ := wp_exists_ok hw
  exact ⟨s', .call s.cur c b hlive hready hP hc, hQ⟩

omit [Link] in
theorem Mem.Ample.not_first (ha : m.Ample n) (hk : m.FirstRefused v) : n ≤ v := by
  have hlen := ha.length
  rcases hk.refused with hr | hr
  · rw [ha.refuse] at hr
    cases hr
  · omega

theorem Fresh.fork (hP : P .fork) (h : SystemOk s) (hf : Fresh s d 56000)
    (href : s.mem.refuse = fun _ => false) :
    ∃ s' p d' t, Step P s s' ∧ Beside s' d p d' t 50000 ∧
      (s'.proc initproc).sz = UInt32.ofNat PGSIZE := by
  have ha : s.mem.Ample 56000 := ⟨href, hf.length⟩
  obtain ⟨pg, hpte, hpg⟩ := hf.page
  obtain ⟨x, hx⟩ := mkPte_userPage hpg hpte
  have hd : (s.proc s.cur).pgdir = some d := by rw [hf.cur]; exact hf.pgdir
  have hlive : (s.proc s.cur).state = .runnable := by rw [hf.cur]; exact hf.state
  have hcan := hx.canRun (by omega) hd
  obtain ⟨c, hr⟩ := h.running hlive hcan
  obtain rfl := Option.some.inj (hr.pgdir.symm.trans hd)
  have hpages : pagesOf (s.proc s.cur).sz = 1 := by
    rw [hf.cur, hf.sz]
    decide
  have hw : wp Vm.fork (fun _ s' => ∃ p d' t, Beside s' c p d' t 50000 ∧
      (s'.proc initproc).sz = ofNat PGSIZE) (fun _ _ => False) s := by
    refine wp_mono (wp_and (h.fork hr) (wp_fork (E := fun _ _ => False)
      (R := fun _ s' => SystemOk s' → ∃ p d' t, Beside s' c p d' t 50000 ∧
        (s'.proc initproc).sz = ofNat PGSIZE) h hr ?_ ?_ ?_ ?_))
      (fun _ _ hpost => hpost.2 hpost.1) (fun _ _ he => he.2)
    · intro hnone
      exact (firstUnused_none.mp hnone 1 (hf.others 1 (by decide))).elim
    · exact fun _ _ hrefuse => (ha.not_refuses (by omega) hrefuse).elim
    · intro q k rest y m' j _ hl hm _ hj hdecl
      rw [hpages] at hj
      have hpaid : Paid s.mem (s.mem.taken rest) := .take hl hm rfl rfl rfl
      have hle : 55999 ≤ j := (hpaid.ample ha (k := 55999) (by
        change s.mem.calls + 1 + _ ≤ _
        omega)).not_first hdecl.first
      omega
    · intro q k rest m₁ m' d' hq hl hm hb hg hok
      have hne : initproc ≠ q := by
        rintro rfl
        have hun := firstUnused_some hq
        rw [hf.state] at hun
        cases hun
      obtain ⟨y, hy⟩ : ∃ y : Proc, y = { s.proc s.cur with
        kstack := some k, pgdir := some d', parent := some s.cur, state := .runnable } := ⟨_, rfl⟩
      rw [← hy] at hok ⊢
      have hself : ({ s with mem := m' }.setProc q y).proc q = y := setProc_self
      have hinit : ({ s with mem := m' }.setProc q y).proc initproc = s.proc initproc :=
        Function.update_of_ne hne ..
      have hmem : ({ s with mem := m' }.setProc q y).mem = m' := rfl
      have hcur : ({ s with mem := m' }.setProc q y).cur = s.cur := rfl
      generalize { s with mem := m' }.setProc q y = s' at *
      have hopen : Opened _ d' (s.mem.taken rest) m' := hg.opened hb.opened
      have hkeep : m'.pte c = s.mem.pte c := by
        refine (frame (X := {Holder.free}) (o := some s.cur) ?_ nofun
          (dir_some.mpr ⟨hr.live, hr.pgdir⟩)).2
        intro pg hpg
        refine hopen.contents pg fun hrest => h.not_free hpg ?_
        rw [hl]
        exact mem_cons_of_mem _ hrest
      have htable : (m'.tab d' 0).isSome :=
        (hg.slots 0).mpr (.inr ⟨0, le_rfl, by rw [hpages]; decide, rfl⟩)
      obtain ⟨t, ht⟩ := isSome_iff_exists.mp htable
      have htake : Paid s.mem (s.mem.taken rest) := .take hl hm rfl rfl rfl
      have hpaid : Paid s.mem m' := htake.trans (hb.paid.trans hg.paid)
      have hcalls : m'.calls = s.mem.calls + 1 + 67 := by
        have hcard := hb.card_tables hg (by rw [hpages]; omega)
        rw [hpages] at hcard
        exact hcard
      refine ⟨q, d', t, ⟨hok, hcur.trans hf.cur, ?_, ?_, ?_, ?_, Ne.symm hne, ?_, ?_, ?_⟩, ?_⟩
      · rw [hinit, hf.state]
      · rw [hinit, hf.pgdir]
      · rw [hinit, hf.sz, hmem]
        intro v hv
        obtain rfl : v = 0 := by
          have hone : pagesOf (ofNat PGSIZE) = 1 := by decide
          omega
        exact mkPte_userPage hpg (by rw [hkeep]; exact hpte)
      · rw [hinit, hf.sz]
        decide
      · rw [hself, hy]
        exact ⟨rfl, rfl, by rw [hf.cur]; exact hf.sz⟩
      · rw [hmem, ht]
      · rw [hmem]
        exact hpaid.ample ha (by omega)
      · rw [hinit, hf.sz]
  obtain ⟨s', hstep, q, d', t, hbeside⟩ := Step.of_wp (P := P) (c := .fork) hP hlive hcan
    (by simp only [Call.run, wp_map]; exact hw)
  exact ⟨s', q, d', t, hstep, hbeside⟩

theorem Beside.grown {x : Proc} (h : Beside s d p d' t n)
    (hok : SystemOk ({ s with mem := m' }.setProc s.cur x)) (hstate : x.state = .runnable)
    (hpgdir : x.pgdir = some d) (hpos : 0 < pagesOf x.sz)
    (hpages : ∀ v < pagesOf x.sz, ∃ y, UserPage m' d v y) (hdir : m'.page d' = s.mem.page d')
    (ha : m'.Ample k) : Beside ({ s with mem := m' }.setProc s.cur x) d p d' t k ∧
      (({ s with mem := m' }.setProc s.cur x).proc initproc) = x := by
  have hself : ({ s with mem := m' }.setProc s.cur x).proc initproc = x := by
    rw [← h.cur]
    exact setProc_self
  have hchild : ({ s with mem := m' }.setProc s.cur x).proc p = s.proc p := by
    apply Function.update_of_ne
    rw [h.cur]
    exact h.ne
  have htab : m'.tab d' 0 = s.mem.tab d' 0 := by
    unfold tab
    rw [hdir]
  have hcur : ({ s with mem := m' }.setProc s.cur x).cur = initproc := h.cur
  have hmem : ({ s with mem := m' }.setProc s.cur x).mem = m' := rfl
  generalize { s with mem := m' }.setProc s.cur x = s' at *
  refine ⟨⟨hok, hcur, by rw [hself, hstate], by rw [hself, hpgdir], ?_, by rw [hself]; exact hpos, h.ne,
    by rw [hchild]; exact h.child, by rw [hmem, htab]; exact h.table, by rw [hmem]; exact ha⟩, hself⟩
  rw [hself, hmem]
  exact hpages

theorem Beside.owned (h : Beside s d p d' t n) : d' ∈ s.Owned (mine (some s.cur)) := by
  refine ⟨.space (some p) .dir, not_mem_mine ?_ _, d', h.dir, rfl⟩
  rw [h.cur]
  exact h.ne

theorem Beside.sbrk (h : Beside s d p d' t 50000) (hsz : (s.proc initproc).sz = UInt32.ofNat PGSIZE) :
    ∃ s', Step (fun _ => True) s s' ∧ Beside s' d p d' t 100 ∧
      (s'.proc initproc).sz = 0x2004000 := by
  have hr := h.running
  have hlive : (s.proc s.cur).state = .runnable := by rw [h.cur]; exact h.live
  have hcur : (s.proc s.cur).sz = ofNat PGSIZE := by rw [h.cur]; exact hsz
  have hnew : ofNat PGSIZE + (0x2003000 : Int32).toUInt32 = 0x2004000 := by decide
  have hone : pagesOf (ofNat PGSIZE) = 1 := by decide
  have hmany : pagesOf 0x2004000 = 8196 := by decide
  have hw : wp (growproc 0x2003000) (fun _ s' => Beside s' d p d' t 100 ∧
      (s'.proc initproc).sz = 0x2004000) (fun _ _ => False) s := by
    refine wp_mono (wp_and (wp_growproc (n := 0x2003000) h.ok hr) (?_ : wp _
      (fun _ s' => SystemOk s' → Beside s' d p d' t 100 ∧ (s'.proc initproc).sz = 0x2004000)
      (fun _ _ => False) s)) (fun _ _ hpost => hpost.2 hpost.1) (fun _ _ he => he.2)
    unfold growproc getProc
    simp only [wp_bind, wp_get, wp_pure, hr.pgdir]
    rw [if_pos (by decide), wp_bind, wp_onMem, hcur, hnew]
    have hshape := hr.shape
    rw [hcur] at hshape
    refine wp_post (wp_allocuvm hr.space hshape.size hshape.none_above) ?_
    rintro r m' (⟨-, -, hbig | hex⟩ | ⟨hlt, -, -⟩ | ⟨hle, hsize, rfl, hg⟩)
    · exact absurd hbig (by decide)
    · rw [hmany] at hex
      exact ((h.ample.mono (by omega)).not_exhausted hex).elim
    · exact absurd hlt (by decide)
    rw [if_neg (by decide)]
    simp only [setProc, wp_bind, wp_get, wp_modify, wp_pure]
    rw [hone, hmany] at hg
    obtain ⟨x, hx⟩ : ∃ x : Proc, x = { s.proc s.cur with sz := 0x2004000 } := ⟨_, rfl⟩
    have hsz' : x.sz = 0x2004000 := by rw [hx]
    rw [← hx]
    intro hok
    have hgrown : Beside _ d p d' t 100 ∧ _ := h.grown hok (by rw [hx]; exact hlive)
      (by rw [hx]; exact hr.pgdir) (by rw [hsz', hmany]; omega) ?_ ?_ ?_
    · exact ⟨hgrown.1, by rw [hgrown.2, hsz']⟩
    · intro v hv
      rw [hsz'] at hv
      by_cases hv1 : 1 ≤ v
      · obtain ⟨pg, perm, he, hpg, rfl, -⟩ := hg.new v hv1 (by rw [hmany] at hv; exact hv)
        exact mkPte_userPage hpg he
      · obtain ⟨_, e, he, hwr, hu, -⟩ := h.pages v (by rw [hsz, hone]; omega)
        exact ⟨_, e, by rw [hg.same v (by omega), he], hwr, hu, rfl⟩
    · exact hg.toKeeps.owned h.ok (dir_some.mpr ⟨hr.live, hr.pgdir⟩) d' h.owned
    · refine hg.paid.ample h.ample ?_
      have hcalls := hg.calls
      have hcard := card_tables_le fun i => (hg.slots i).mp
      omega
  obtain ⟨s', hstep, hbeside⟩ := Step.of_wp (P := fun _ => True) (c := .sbrk 0x2003000) trivial hlive h.canRun hw
  exact ⟨s', hstep, hbeside⟩

theorem Beside.store (h : Beside s d p d' t n) (hv : v < pagesOf (s.proc initproc).sz) :
    ∃ s', Step (fun _ => True) s s' ∧ Beside s' d p d' t n ∧
      (s'.proc initproc).sz = (s.proc initproc).sz ∧ UserPage s'.mem d v x ∧
      ∀ u y, u < 2 ^ 19 → u ≠ v → UserPage s.mem d u y → UserPage s'.mem d u y := by
  have hr := h.running
  have hlive : (s.proc s.cur).state = .runnable := by rw [h.cur]; exact h.live
  have hlim : pagesOf (s.proc initproc).sz ≤ 2 ^ 19 := by
    have hsize := hr.shape.size
    rw [h.cur] at hsize
    exact pagesOf_le hsize
  obtain ⟨_, e, he, hwr, hu, -⟩ := h.pages v hv
  obtain ⟨t', ht', hword, hp⟩ := pte_eq_some he
  obtain ⟨-, hnd, hnt⟩ := hr.space.user_page (by omega) he
  have hpte : (s.mem.setPage (PTE_ADDR e) x).pte d = s.mem.pte d :=
    pte_setPage (Ne.symm hnd) hnt
  have hother : ∀ u a, u < 2 ^ 19 → u ≠ v → s.mem.pte d u = some a →
      (s.mem.setPage (PTE_ADDR e) x).page (PTE_ADDR a) = s.mem.page (PTE_ADDR a) := by
    intro u a hlt hne ha
    apply setPage_page_ne
    intro hae
    have hcases := hr.space.excl (some (.user u)) (some (.user v)) (PTE_ADDR a)
      ⟨hlt, by rw [ha]; rfl⟩ ⟨by omega, by rw [he, hae]; rfl⟩
    cases hcases
    exact hne rfl
  have hw : wp (Vm.store (⟨v, by omega⟩ : Fin (2 ^ 20)) x) (fun _ s' => Beside s' d p d' t n ∧
      (s'.proc initproc).sz = (s.proc initproc).sz ∧ UserPage s'.mem d v x ∧
      ∀ u y, u < 2 ^ 19 → u ≠ v → UserPage s.mem d u y → UserPage s'.mem d u y)
      (fun _ _ => False) s := by
    refine wp_mono (wp_and (h.ok.store (v := ⟨v, by omega⟩) (x := x) hr) (?_ : wp _
      (fun _ s' => SystemOk s' → Beside s' d p d' t n ∧
        (s'.proc initproc).sz = (s.proc initproc).sz ∧ UserPage s'.mem d v x ∧
        ∀ u y, u < 2 ^ 19 → u ≠ v → UserPage s.mem d u y → UserPage s'.mem d u y)
      (fun _ _ => False) s)) (fun _ _ hpost => hpost.2 hpost.1) (fun _ _ he => he.2)
    unfold Vm.store
    simp only [wp_bind, wp_getProc, hr.pgdir, wp_onMem]
    apply wp_walkpgdir_read (by omega)
    rw [ht']
    simp only [map_some, wp_bind, wp_onMem, word, wp_get, wp_pure]
    rw [← hword, if_neg (by push Not; exact ⟨hp, hwr, hu⟩)]
    simp only [wp_bind, wp_onMem, wp_modify, wp_pure]
    intro hok
    have hdir : (s.mem.setPage (PTE_ADDR e) x).page d' = s.mem.page d' := by
      apply setPage_page_ne
      rintro rfl
      exact hr.space.frame (some (.user v)) _ ⟨by omega, by rw [he]; rfl⟩ h.owned
    have hself : (s.mem.setPage (PTE_ADDR e) x).page (PTE_ADDR e) = x := setPage_page_self
    have hample : (s.mem.setPage (PTE_ADDR e) x).Ample n := ⟨h.ample.refuse, h.ample.length⟩
    generalize s.mem.setPage (PTE_ADDR e) x = m' at *
    have htab : m'.tab d' 0 = s.mem.tab d' 0 := by
      unfold tab
      rw [hdir]
    refine ⟨⟨hok, h.cur, h.live, h.pgdir, ?_, h.page, h.ne, h.child, htab.trans h.table, hample⟩,
      trivial, ⟨e, by rw [hpte, he], hwr, hu, hself⟩, ?_⟩
    · intro u hu
      obtain ⟨y, a, ha, hwa, hua, -⟩ := h.pages u hu
      exact ⟨_, a, by rw [hpte, ha], hwa, hua, rfl⟩
    · rintro u y hlt hne ⟨a, ha, hwa, hua, hy⟩
      exact ⟨a, by rw [hpte, ha], hwa, hua, by rw [hother u a hlt hne ha, hy]⟩
  obtain ⟨s', hstep, hpost⟩ := Step.of_wp (P := fun _ => True) (c := .store ⟨v, by omega⟩ x) trivial hlive h.canRun hw
  exact ⟨s', hstep, hpost⟩

theorem Beside.fill (f : ℕ → Page) (h : Beside s d p d' t n) (hk : k ≤ pagesOf (s.proc initproc).sz) :
    ∃ s', Runs (fun _ => True) s s' ∧ Beside s' d p d' t n ∧
      (s'.proc initproc).sz = (s.proc initproc).sz ∧ ∀ v < k, UserPage s'.mem d v (f v) := by
  induction k with
  | zero => exact ⟨s, .refl, h, rfl, fun v hv => by omega⟩
  | succ k ih =>
    obtain ⟨s₁, hrun, h₁, hsz, hfull⟩ := ih (by omega)
    obtain ⟨s₂, hstep, h₂, hsz₂, hnew, hkeep⟩ := h₁.store (v := k) (x := f k) (by rw [hsz]; omega)
    have hlim : pagesOf (s.proc initproc).sz ≤ 2 ^ 19 := by
      have hsize := h.running.shape.size
      rw [h.cur] at hsize
      exact pagesOf_le hsize
    refine ⟨s₂, hrun.tail hstep, h₂, hsz₂.trans hsz, ?_⟩
    intro v hv
    by_cases hvk : v = k
    · rw [hvk]
      exact hnew
    · exact hkeep v _ (by omega) hvk (hfull v (by omega))

/-- What `init` puts into its memory: an entry for page `t` at address 0, and the argument in all the
other pages. -/
def bait (t v : ℕ) : Page :=
  if v = 0 then Buffer.zero.setWord 0 (mkPte t (PTE_W ||| PTE_U ||| PTE_P))
  else .ofBytes fun i => if v * PGSIZE + i = 0x2003FFF then 0 else 7

omit [Link] in
theorem stringAt_bait (hfull : ∀ v < 8196, UserPage m d v (bait t v)) :
    StringAt m d 0x2004000 overlong PGSIZE := by
  refine ⟨?_, ?_⟩
  · rw [length_overlong]
    decide
  · intro i hi
    rw [length_overlong] at hi
    have hv : (PGSIZE + i) / PGSIZE < 8196 := by
      simp only [PGSIZE]
      omega
    have hmod := mod_lt (PGSIZE + i) (show 0 < PGSIZE by decide)
    obtain ⟨e, he, -, -, hx⟩ := hfull _ hv
    refine ⟨e, he, ?_⟩
    rw [hx, bait, if_neg (by simp only [PGSIZE]; omega), byte_ofBytes hmod, div_add_mod']
    by_cases hlast : i = 0x2002FFF
    · rw [if_pos (by simp only [PGSIZE]; omega), getD_append_right _ _ _ _
        (by rw [length_overlong]; omega), length_overlong, hlast]
      rfl
    · have hlt : i < 0x2002FFF := by omega
      rw [if_neg (by simp only [PGSIZE]; omega), getD_append _ _ _ _
        (by rw [length_overlong]; exact hlt), getD_overlong hlt]

theorem Beside.nullWord {w : UInt32} (h : Beside s d p d' t n)
    (hx : UserPage s.mem d 0 x) (hw : x.word 0 = w) : NullWord s.mem d w := by
  have hr := h.running
  obtain ⟨e, he, -, -, hpage⟩ := hx
  refine ⟨e, fun m' hm' => ?_⟩
  have hkept : ∀ pg ∈ s.mem.Pages d, m'.page pg = s.mem.page pg := by
    rintro pg ⟨a, ha⟩
    refine hm' pg fun hf => ?_
    cases hr.space.excl (some a) none pg ha hf
  have huser : PTE_ADDR e ∈ s.mem.Pages d := ⟨.user 0, by omega, by rw [he]; rfl⟩
  rw [(tab_pte_of_pages hkept).2, hkept _ huser, hpage]
  exact ⟨he, hw⟩

omit [Link] in
theorem sevens_word (hv : v < NPTENTRIES) : sevens.word v = 0x07070707 := by
  have hbyte : get32 sevens.byte (4 * v) = get32 (fun _ => 7) 0 := by
    apply get32_congr
    intro i hi
    rw [sevens, Buffer.byte_ofBytes (by simp only [PGSIZE, NPTENTRIES] at *; omega)]
  rw [Buffer.word, hbyte]
  decide

theorem Beside.exec (h : Beside s d p d' t 100) (hsz : (s.proc initproc).sz = 0x2004000)
    (hfull : ∀ v < 8196, UserPage s.mem d v (bait t v)) :
    ∃ s', Step (fun _ => True) s s' ∧ s'.proc = s.proc ∧
      ∀ v < NPTENTRIES, s'.mem.pte d' v = some 0x07070707 := by
  have hr := h.running
  have hlive : (s.proc s.cur).state = .runnable := by rw [h.cur]; exact h.live
  have hheld : s.Holds (.space (some p) (.tab 0)) t := ⟨d', h.dir, h.table⟩
  have hdheld : s.Holds (.space (some p) .dir) d' := ⟨d', h.dir, rfl⟩
  have hrange := h.ok.range _ t hheld
  have hlt : t < 2 ^ 20 := by
    have := hrange.2
    simp only [PHYSTOP, PGSIZE] at this
    omega
  have haddr : PTE_ADDR (mkPte t (PTE_W ||| PTE_U ||| PTE_P)) = t := PTE_ADDR_mkPte hlt (by decide)
  have hnull := h.nullWord (hfull 0 (by omega))
    (w := mkPte t (PTE_W ||| PTE_U ||| PTE_P)) (by
      rw [bait, if_pos rfl, word_setWord (by decide), if_pos rfl])
  have hF : t ∈ s.Owned {.free} := ⟨_, fun hc => (by cases hc), hheld⟩
  have hdF : d' ∈ s.Owned {.free} := ⟨_, fun hc => (by cases hc), hdheld⟩
  have hne : d' ≠ t := by
    intro hdt
    rw [hdt] at hdheld
    cases h.ok.excl _ _ t hdheld hheld
  obtain ⟨elf, helf, hph⟩ := readHeader_emptyElf
  have hready : (Call.exec [] (some emptyElf) [overlong]).Ready s := by
    refine ⟨h.canRun, fun str hstr => ⟨d, PGSIZE, hr.pgdir, ?_⟩⟩
    rw [mem_singleton.mp hstr, h.cur, hsz]
    exact stringAt_bait hfull
  have hw : wp (Vm.exec [] (some emptyElf) [overlong]) (fun _ s' => s'.proc = s.proc ∧
      ∀ v < NPTENTRIES, s'.mem.pte d' v = some 0x07070707) (fun _ _ => False) s := by
    unfold Vm.exec
    simp only [helf, wp_bind, wp_getProc, hr.pgdir, wp_onMem]
    refine wp_post (wp_newImage_overlong h.ok.pool (h.ample.mono (by omega)) hph hnull ?_ ?_
      (by rw [haddr]; exact hF) (by rw [haddr]; exact hrange)) ?_
    · rw [mkPte_flag hlt (by decide) (by decide)]
      decide
    · rw [mkPte_flag hlt (by decide) (by decide)]
      decide
    rintro r m' ⟨rfl, -, hpages⟩
    rw [haddr] at hpages
    have ht := hpages t hF
    have hd := hpages d' hdF
    rw [setPage_page_self] at ht
    rw [setPage_page_ne hne] at hd
    rw [wp_pure]
    refine ⟨rfl, fun v hv => ?_⟩
    have htab : m'.tab d' 0 = some t := by
      rw [← h.table]
      unfold tab
      rw [hd]
    change m'.pte d' v = _
    rw [pte, div_eq_of_lt hv, htab, bind_some, ht, mod_eq_of_lt hv, sevens_word hv]
    decide
  obtain ⟨s', hstep, hpost⟩ :=
    Step.of_wp (P := fun _ => True) (c := .exec [] (some emptyElf) [overlong]) trivial hlive hready hw
  exact ⟨s', hstep, hpost⟩

end Run

attribute [local irreducible] main

theorem exists_fresh : ∃ s d, main [] 0 (State.off (fun _ => .zero) fun _ => false) = .ok () s ∧
    SystemOk s ∧ s.mem.refuse = (fun _ => false) ∧ Fresh s d 56000 := by
  have hmain : wp (main [] 0) (fun _ s => SystemOk s ∧ s.mem.refuse = (fun _ => false) ∧
      ∃ d, Fresh s d 56000) (fun _ _ => False) (off (fun _ => .zero) fun _ => false) := by
    refine wp_mono wp_main ?_ ?_
    · rintro _ s ⟨hok, href, hden | hfresh⟩
      · exact (not_denied (by omega) hden).elim
      · exact ⟨hok, href, hfresh⟩
    · rintro _ _ (hlen | hden)
      · exact absurd hlen (by decide)
      · exact (not_denied (by omega) hden).elim
  obtain ⟨_, s, hboot, hok, href, d, hfresh⟩ := wp_exists_ok hmain
  exact ⟨s, d, hboot, hok, href, hfresh⟩

theorem exists_overlong_run : ∃ s s' : State, ∃ p d',
    main [] 0 (State.off (fun _ => .zero) fun _ => false) = .ok () s ∧
      Runs (fun _ => True) s s' ∧ (s'.proc p).state = .runnable ∧
      (s'.proc p).pgdir = some d' ∧ (s'.proc p).sz = UInt32.ofNat PGSIZE ∧
      ∀ v < NPTENTRIES, s'.mem.pte d' v = some 0x07070707 := by
  obtain ⟨s, d, hboot, hok, href, hfresh⟩ := exists_fresh
  obtain ⟨s₁, p, d', t, hfork, h₁, hsz₁⟩ := hfresh.fork (P := fun _ => True) trivial hok href
  obtain ⟨s₂, hsbrk, h₂, hsz₂⟩ := h₁.sbrk hsz₁
  have hmany : pagesOf (s₂.proc initproc).sz = 8196 := by
    rw [hsz₂]
    decide
  obtain ⟨s₃, hfill, h₃, hsz₃, hfull⟩ := h₂.fill (bait t) (k := 8196) hmany.ge
  obtain ⟨s₄, hexec, hproc, hpte⟩ := h₃.exec (hsz₃.trans hsz₂) hfull
  refine ⟨s, s₄, p, d', hboot, ?_, ?_, ?_, ?_, hpte⟩
  · exact ((Relation.ReflTransGen.single hfork).tail hsbrk).trans (hfill.tail hexec)
  · rw [hproc]
    exact h₃.child.1
  · rw [hproc]
    exact h₃.child.2.1
  · rw [hproc]
    exact h₃.child.2.2

end Xv6.Vm
