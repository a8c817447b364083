import Xv6.KernelSpace

/-!
# The user half of an address space

The user pages of a directory are an initial segment of the address space. On such directories
`deallocuvm` unmaps exactly the pages between two sizes, although it skips a whole table's worth of
addresses from wherever it finds a table missing, and `freevm` returns all pages to the free list.
-/

namespace Xv6.Vm

open Resumption ByteLayout Custody Function List Mem

section Free

variable {m : Mem} {t x i : ℕ} {w : UInt32}

theorem Mem.free_setWord (hne : t ≠ x) : (m.free x).setWord t i w = (m.setWord t i w).free x := by
  have hpage : (m.free x).page t = m.page t := setPage_page_ne hne
  unfold Mem.setWord
  rw [hpage]
  unfold Mem.free Mem.setPage
  simp only [update_comm hne]

theorem Mem.free_page (hne : t ≠ x) : (m.free x).page t = m.page t := setPage_page_ne hne

end Free

/-! ## Sizes -/

theorem and_high {x k : ℕ} (hk : k ≤ 32) (hx : x < 2 ^ 32) :
    x &&& (2 ^ (32 - k) - 1) * 2 ^ k = x / 2 ^ k * 2 ^ k := by
  apply Nat.eq_of_testBit_eq
  intro i
  rw [Nat.testBit_and, Nat.testBit_mul_two_pow, Nat.testBit_mul_two_pow, Nat.testBit_two_pow_sub_one,
    Nat.testBit_div_two_pow]
  by_cases hi : k ≤ i
  · rw [decide_eq_true hi, Bool.true_and, Bool.true_and, Nat.sub_add_cancel hi]
    by_cases hi' : i - k < 32 - k
    · rw [decide_eq_true hi', Bool.and_true]
    · have hbig : x < 2 ^ i := hx.trans_le (Nat.pow_le_pow_right (by decide) (by omega))
      rw [Nat.testBit_lt_two_pow hbig, Bool.false_and]
  · rw [decide_eq_false hi, Bool.false_and, Bool.false_and, Bool.and_false]

theorem toNat_PGROUNDUP {sz : UInt32} (hsz : sz.toNat + 4095 < 2 ^ 32) :
    (PGROUNDUP sz).toNat = pagesOf sz * PGSIZE := by
  unfold PGROUNDUP pagesOf
  rw [UInt32.toNat_and, UInt32.toNat_add]
  have hmod : (sz.toNat + (4095 : UInt32).toNat) % 2 ^ 32 = sz.toNat + 4095 := Nat.mod_eq_of_lt hsz
  rw [hmod]
  exact and_high (show 12 ≤ 32 by decide) hsz

/-- From virtual page `v` on, the present pages of the user half come without a gap. -/
def Mem.Segment (m : Mem) (d v : ℕ) : Prop :=
  ∀ u w, v ≤ w → w ≤ u → u < 2 ^ 19 → m.pte d u ≠ none → m.pte d w ≠ none

theorem Mem.Segment.mono {m : Mem} {d v u : ℕ} (h : m.Segment d v) (hu : v ≤ u) : m.Segment d u :=
  fun a b hb hab ha => h a b (hu.trans hb) hab ha

variable [Link] {m m' m₁ : Mem} {d v t size : ℕ} {F : Set ℕ} {E : Stop → Mem → Prop}

theorem endPage_pos : 0 < Link.endPage :=
  (Nat.zero_le _).trans_lt (Link.extmem_lt.trans_le Link.data_le)

/-! ## deallocuvm -/

/-- From `m` to `m'`, directory `d` has lost its user pages from virtual page `lo` to address
`size`; they are free now. -/
structure Shrinks (d : ℕ) (F : Set ℕ) (lo size : ℕ) (m m' : Mem) : Prop where
  ok : SpaceOk m' d F
  tab : m'.tab d = m.tab d
  pte : ∀ u, m'.pte d u = if lo ≤ u ∧ u * PGSIZE < size then none else m.pte d u
  contents : ∀ pg, pg ∉ m'.freelist → (∀ i, m.tab d i ≠ some pg) → m'.page pg = m.page pg
  free : ∀ pg ∈ m.freelist, pg ∈ m'.freelist
  stock : m'.Stock d = m.Stock d
  refuse : m'.refuse = m.refuse

/-- From virtual page `v` the loop of `deallocuvm` steps over `u`: up to the table of `u` there are
no tables, and the slot of `u` in its table lies before that of `v`. -/
def Mem.Skipped (m : Mem) (d v u : ℕ) : Prop :=
  v / NPTENTRIES < u / NPTENTRIES ∧
    (∀ i, v / NPTENTRIES ≤ i → i < u / NPTENTRIES → m.tab d i = none) ∧
    u % NPTENTRIES < v % NPTENTRIES

def Mem.Visited (m : Mem) (d v size : ℕ) : Set ℕ :=
  { u | v ≤ u ∧ u * PGSIZE < size ∧ ¬ m.Skipped d v u }

omit [Link] in
theorem Mem.pte_of_tab_none {u : ℕ} (h : m.tab d (u / NPTENTRIES) = none) : m.pte d u = none := by
  unfold Mem.pte
  rw [h]
  rfl

omit [Link] in
theorem Mem.visited_congr (h : m'.tab d = m.tab d) : m'.Visited d v size = m.Visited d v size := by
  unfold Visited Skipped
  rw [h]

omit [Link] in
theorem Mem.visited_missing {u : ℕ} (h : m.tab d (v / NPTENTRIES) = none) (hu : m.pte d u ≠ none) :
    u ∈ m.Visited d (v + NPTENTRIES) size ↔ u ∈ m.Visited d v size := by
  have htab : u / NPTENTRIES ≠ v / NPTENTRIES := fun he => hu (pte_of_tab_none (he ▸ h))
  unfold Visited Skipped
  simp only [Set.mem_ofPred_eq]
  have hdiv : (v + NPTENTRIES) / NPTENTRIES = v / NPTENTRIES + 1 := Nat.add_div_right v (by decide)
  have hmod : (v + NPTENTRIES) % NPTENTRIES = v % NPTENTRIES := Nat.add_mod_right v NPTENTRIES
  rw [hdiv, hmod]
  simp only [NPTENTRIES] at *
  constructor
  · rintro ⟨hle, hsz, hskip⟩
    refine ⟨by omega, hsz, fun ⟨_, hno, hslot⟩ => hskip ⟨by omega, ?_, hslot⟩⟩
    exact fun i hi => hno i (by omega)
  · rintro ⟨hle, hsz, hskip⟩
    have hfar : v + 1024 ≤ u := by
      by_contra hlt
      refine hskip ⟨by omega, fun i hi hi' => ?_, by omega⟩
      rw [show i = v / 1024 by omega]
      exact h
    refine ⟨hfar, hsz, fun ⟨_, hno, hslot⟩ => hskip ⟨by omega, fun i hi hi' => ?_, hslot⟩⟩
    rcases Nat.lt_or_eq_of_le hi with hlt | rfl
    · exact hno i hlt hi'
    · exact h

omit [Link] in
theorem Mem.visited_present (h : m.tab d (v / NPTENTRIES) = some t) (hsize : v * PGSIZE < size) :
    m.Visited d v size = insert v (m.Visited d (v + 1) size) := by
  have hskip : ∀ u, ¬ m.Skipped d v u := by
    rintro u ⟨hlt, hno, -⟩
    have := hno _ le_rfl hlt
    rw [h] at this
    cases this
  have hskip' : ∀ u, ¬ m.Skipped d (v + 1) u := by
    rintro u ⟨hlt, hno, hslot⟩
    simp only [NPTENTRIES] at *
    have := hno (v / 1024) (by omega) (by omega)
    rw [h] at this
    cases this
  ext u
  simp only [Visited, Set.mem_ofPred_eq, Set.mem_insert_iff, hskip, hskip', not_false_iff, and_true]
  constructor
  · rintro ⟨hle, hu⟩
    by_cases huv : u = v
    · exact .inl huv
    · exact .inr ⟨by omega, hu⟩
  · rintro (rfl | ⟨hle, hu⟩)
    · exact ⟨le_rfl, hsize⟩
    · exact ⟨by omega, hu⟩

/-- From `m` to `m'`, directory `d` has lost the user pages `S`; they are in front of the free list
now. -/
structure Sweeps (d : ℕ) (F : Set ℕ) (S : Set ℕ) (m m' : Mem) : Prop where
  ok : SpaceOk m' d F
  tab : m'.tab d = m.tab d
  gone : ∀ u ∈ S, m'.pte d u = none
  left : ∀ u, u ∉ S → m'.pte d u = m.pte d u
  contents : ∀ pg, pg ∉ m'.freelist → (∀ i, m.tab d i ≠ some pg) → m'.page pg = m.page pg
  freed : ∃ l, m'.freelist = l ++ m.freelist ∧
    ∀ pg, pg ∈ l ↔ ∃ u ∈ S, (m.pte d u).map PTE_ADDR = some pg
  stock : m'.Stock d = m.Stock d
  refuse : m'.refuse = m.refuse

section Sweeps

variable {S T : Set ℕ}

theorem Sweeps.refl (h : SpaceOk m d F) (hno : ∀ u ∈ S, m.pte d u = none) : Sweeps d F S m m := by
  refine ⟨h, rfl, hno, fun _ _ => rfl, fun _ _ _ => rfl, ⟨[], rfl, fun pg => ?_⟩, rfl, rfl⟩
  simp only [not_mem_nil, false_iff, not_exists, not_and]
  intro u hu hp
  rw [hno u hu] at hp
  cases hp

theorem Sweeps.congr (hs : Sweeps d F S m m') (hST : ∀ u, m.pte d u ≠ none → (u ∈ S ↔ u ∈ T)) :
    Sweeps d F T m m' := by
  have habsent : ∀ u, m.pte d u = none → m'.pte d u = none := by
    intro u hu
    by_cases huS : u ∈ S
    · exact hs.gone u huS
    · rw [hs.left u huS, hu]
  refine ⟨hs.ok, hs.tab, ?_, ?_, hs.contents, ?_, hs.stock, hs.refuse⟩
  · intro u hu
    by_cases hp : m.pte d u = none
    · exact habsent u hp
    · exact hs.gone u ((hST u hp).mpr hu)
  · intro u hu
    by_cases hp : m.pte d u = none
    · rw [hp, habsent u hp]
    · exact hs.left u fun huS => hu ((hST u hp).mp huS)
  · obtain ⟨l, hl, hmem⟩ := hs.freed
    refine ⟨l, hl, fun pg => (hmem pg).trans (exists_congr fun u => and_congr_left fun hp => ?_)⟩
    refine hST u fun hnone => ?_
    rw [hnone] at hp
    cases hp

theorem Sweeps.free (hs : Sweeps d F S m m') {pg : ℕ} (hp : pg ∈ m.freelist) : pg ∈ m'.freelist := by
  obtain ⟨l, hl, -⟩ := hs.freed
  rw [hl]
  exact mem_append_right l hp

theorem SpaceOk.unmap {e : UInt32} (h : SpaceOk m d F) (ht : m.tab d (v / NPTENTRIES) = some t)
    (hv : v < 2 ^ 19) (he : m.pte d v = some e)
    (hm' : m' = (m.setWord t (v % NPTENTRIES) 0).free (PTE_ADDR e)) :
    SpaceOk m' d F ∧ m'.tab d = m.tab d ∧ m'.pte d = update (m.pte d) v none ∧
      m'.Stock d = m.Stock d := by
  have hold : m.Holds d (some (.user v)) (PTE_ADDR e) := ⟨hv, by rw [he]; rfl⟩
  have hF := h.frame _ _ hold
  have hcl := h.clear ht hv he
  obtain ⟨hd, hno⟩ := hcl.frame_ne (Set.mem_insert _ F)
  have htab : m'.tab d = m.tab d := by
    rw [hm', ← h.tab_store ht (w := 0)]
    exact tab_setPage hd
  have hpte : m'.pte d = update (m.pte d) v none := by
    have : m'.pte d = (m.setWord t (v % NPTENTRIES) 0).pte d := by
      rw [hm']
      exact pte_setPage hd hno
    rw [this, h.pte_store ht]
    rfl
  refine ⟨hm' ▸ hcl.give hF (h.range _ _ hold), htab, hpte, ?_⟩
  have hfree : ∀ pg, pg ∈ m'.freelist ↔ pg = PTE_ADDR e ∨ pg ∈ m.freelist := by
    intro pg
    rw [hm']
    exact mem_cons
  ext pg
  rw [mem_stock, mem_stock, htab, hpte, hfree]
  constructor
  · rintro ((rfl | hp) | hp | hp | ⟨u, hu, hp⟩)
    · exact .inr (.inr (.inr ⟨v, hold⟩))
    · exact .inl hp
    · exact .inr (.inl hp)
    · exact .inr (.inr (.inl hp))
    · by_cases huv : u = v
      · rw [huv, update_self] at hp
        cases hp
      · rw [update_of_ne huv] at hp
        exact .inr (.inr (.inr ⟨u, hu, hp⟩))
  · rintro (hp | hp | hp | ⟨u, hu, hp⟩)
    · exact .inl (.inr hp)
    · exact .inr (.inl hp)
    · exact .inr (.inr (.inl hp))
    · by_cases huv : u = v
      · rw [huv, he] at hp
        exact .inl (.inl (Option.some.inj hp).symm)
      · refine .inr (.inr (.inr ⟨u, hu, ?_⟩))
        rwa [update_of_ne huv]

theorem Sweeps.cons {e : UInt32} (h : SpaceOk m d F) (ht : m.tab d (v / NPTENTRIES) = some t)
    (hv : v < 2 ^ 19) (he : m.pte d v = some e)
    (hm₁ : m₁ = (m.setWord t (v % NPTENTRIES) 0).free (PTE_ADDR e))
    (hs : Sweeps d F S m₁ m') : Sweeps d F (insert v S) m m' := by
  obtain ⟨-, htab, hpte, hstock⟩ := h.unmap ht hv he hm₁
  have hfree : m₁.freelist = PTE_ADDR e :: m.freelist := by
    rw [hm₁]
    rfl
  refine ⟨hs.ok, hs.tab.trans htab, ?_, ?_, ?_, ?_, hs.stock.trans hstock, ?_⟩
  · intro u hu
    by_cases huS : u ∈ S
    · exact hs.gone u huS
    · rw [hs.left u huS, hpte, Set.mem_insert_iff.mp hu |>.resolve_right huS, update_self]
  · intro u hu
    rw [Set.mem_insert_iff, not_or] at hu
    rw [hs.left u hu.2, hpte, update_of_ne hu.1]
  · intro pg hpg hno
    have hx : pg ≠ PTE_ADDR e := by
      rintro rfl
      exact hpg (hs.free (hfree ▸ mem_cons_self))
    have hpt : pg ≠ t := by
      rintro rfl
      exact hno _ ht
    rw [hs.contents pg hpg (htab ▸ hno), hm₁, free_page hx, Mem.setWord,
      setPage_page_ne hpt]
  · obtain ⟨l, hl, hmem⟩ := hs.freed
    refine ⟨l ++ [PTE_ADDR e], by rw [hl, hfree, append_assoc]; rfl, fun pg => ?_⟩
    rw [mem_append, hmem, mem_singleton, hpte]
    constructor
    · rintro (⟨u, hu, hp⟩ | rfl)
      · by_cases huv : u = v
        · rw [huv, update_self] at hp
          cases hp
        · rw [update_of_ne huv] at hp
          exact ⟨u, Set.mem_insert_of_mem v hu, hp⟩
      · exact ⟨v, Set.mem_insert v S, by rw [he]; rfl⟩
    · rintro ⟨u, hu, hp⟩
      by_cases huv : u = v
      · rw [huv, he] at hp
        exact .inr (Option.some.inj hp).symm
      · refine .inl ⟨u, (Set.mem_insert_iff.mp hu).resolve_left huv, ?_⟩
        rwa [update_of_ne huv]
  · rw [hs.refuse, hm₁]
    rfl

end Sweeps

theorem wp_deallocLoop (h : SpaceOk m d F) (hsize : size ≤ KERNBASE) :
    wp (deallocLoop d size (v * PGSIZE)) (fun _ m' => Sweeps d F (m.Visited d v size) m m') E m := by
  simp only [KERNBASE] at hsize
  -- the loop is followed by its distance to `size`
  generalize hn : size - v * PGSIZE = n
  induction n using Nat.strong_induction_on generalizing m v with
  | h n ih =>
    rw [deallocLoop]
    by_cases hlt : v * PGSIZE < size
    · have hv : v < 2 ^ 19 := by
        simp only [PGSIZE] at hlt
        omega
      rw [if_pos hlt, wp_bind, Nat.mul_div_cancel v (by decide)]
      apply wp_walkpgdir_read (by omega)
      cases ht : m.tab d (v / NPTENTRIES) with
      | none =>
        have hnext : v * PGSIZE + (NPTENTRIES - 1) * PGSIZE + PGSIZE = (v + NPTENTRIES) * PGSIZE := by
          simp only [NPTENTRIES, PGSIZE]
          omega
        simp only [Option.map_none, hnext]
        refine wp_post (ih _ ?_ h rfl) ?_
        · simp only [PGSIZE, NPTENTRIES] at hlt hn ⊢
          omega
        · exact fun _ m' hs => hs.congr fun u hu => visited_missing ht hu
      | some t =>
        have hpte : m.pte d v = present ((m.page t).word (v % NPTENTRIES)) := by
          unfold Mem.pte
          rw [ht, Option.bind_some]
        have hnext : v * PGSIZE + PGSIZE = (v + 1) * PGSIZE := (Nat.succ_mul v PGSIZE).symm
        have hdec : size - (v + 1) * PGSIZE < n := by
          simp only [PGSIZE] at hlt hn ⊢
          omega
        simp only [Option.map_some, word, wp_bind, wp_get, wp_pure, hnext]
        rw [visited_present ht hlt]
        unfold present at hpte
        by_cases hp : (m.page t).word (v % NPTENTRIES) &&& PTE_P ≠ 0
        · rw [if_pos hp] at hpte ⊢
          have hr := h.range (some (.user v)) _ ⟨hv, by rw [hpte]; rfl⟩
          have hpos : PTE_ADDR ((m.page t).word (v % NPTENTRIES)) ≠ 0 := by
            have := endPage_pos
            omega
          have htx : t ≠ PTE_ADDR ((m.page t).word (v % NPTENTRIES)) := by
            intro he
            have := h.excl (some (.tab (v / NPTENTRIES))) (some (.user v)) t ht
              ⟨hv, by rw [hpte, Option.map_some, ← he]⟩
            cases this
          rw [if_neg hpos, wp_bind]
          apply wp_kfree hr
          unfold setWord
          rw [wp_bind, wp_modify, free_setWord htx]
          obtain ⟨hok, htab, -, -⟩ := h.unmap ht hv hpte rfl
          refine wp_post (ih _ hdec hok rfl) ?_
          intro _ m' hs
          rw [visited_congr htab] at hs
          exact .cons h ht hv hpte rfl hs
        · rw [if_neg hp] at hpte ⊢
          refine wp_post (ih _ hdec h rfl) ?_
          refine fun _ m' hs => hs.congr fun u hu => ?_
          have huv : u ≠ v := by
            rintro rfl
            exact hu hpte
          rw [Set.mem_insert_iff, or_iff_right huv]
    · rw [if_neg hlt, wp_pure]
      refine .refl h ?_
      rintro u ⟨hu, hus, -⟩
      simp only [PGSIZE] at hlt hus
      omega

theorem wp_deallocuvm_sparse {oldsz newsz : UInt32} (h : SpaceOk m d F)
    (hold : oldsz.toNat ≤ KERNBASE) (hlt : newsz < oldsz) :
    wp (deallocuvm d oldsz newsz) (fun r m' => r = newsz ∧
      Sweeps d F (m.Visited d (pagesOf newsz) oldsz.toNat) m m') E m := by
  have hnew : newsz.toNat < oldsz.toNat := UInt32.lt_iff_toNat_lt.mp hlt
  unfold deallocuvm
  rw [if_neg (UInt32.not_le.mpr hlt), wp_bind,
    toNat_PGROUNDUP (by simp only [KERNBASE] at hold; omega)]
  refine wp_post (wp_deallocLoop h hold) ?_
  intro _ m' hs
  rw [wp_pure]
  exact ⟨rfl, hs⟩

omit [Link] in
theorem Mem.Segment.not_skipped (hseg : m.Segment d v) {u : ℕ} (hu : u < 2 ^ 19)
    (hp : m.pte d u ≠ none) : ¬ m.Skipped d v u := by
  rintro ⟨hlt, hno, -⟩
  refine hseg u v le_rfl ?_ hu hp (pte_of_tab_none (hno _ le_rfl hlt))
  simp only [NPTENTRIES] at hlt
  omega

theorem Sweeps.shrinks (hs : Sweeps d F (m.Visited d v size) m m') (hsize : size ≤ KERNBASE)
    (hseg : m.Segment d v) : Shrinks d F v size m m' := by
  refine ⟨hs.ok, hs.tab, ?_, hs.contents, fun _ => hs.free, hs.stock, hs.refuse⟩
  have hs' : Sweeps d F { u | v ≤ u ∧ u * PGSIZE < size } m m' := by
    refine hs.congr fun u hu => ⟨fun hv => ⟨hv.1, hv.2.1⟩, fun ⟨hle, hus⟩ => ⟨hle, hus, ?_⟩⟩
    refine hseg.not_skipped ?_ hu
    simp only [PGSIZE, KERNBASE] at hus hsize
    omega
  intro u
  split_ifs with hu
  · exact hs'.gone u hu
  · exact hs'.left u hu

theorem wp_deallocuvm {oldsz newsz : UInt32} (h : SpaceOk m d F) (hold : oldsz.toNat ≤ KERNBASE)
    (hseg : m.Segment d (pagesOf newsz)) :
    wp (deallocuvm d oldsz newsz) (fun r m' => r = (if newsz ≥ oldsz then oldsz else newsz) ∧
      Shrinks d F (pagesOf newsz) oldsz.toNat m m') E m := by
  by_cases hlt : newsz ≥ oldsz
  · unfold deallocuvm
    rw [if_pos hlt, wp_pure]
    have hle : oldsz.toNat ≤ newsz.toNat := UInt32.le_iff_toNat_le.mp hlt
    refine ⟨(if_pos hlt).symm, (Sweeps.refl h fun u hu => ?_).shrinks hold hseg⟩
    have h1 := hu.1
    have h2 := hu.2.1
    unfold pagesOf at h1
    simp only [PGSIZE] at h1 h2
    omega
  · refine wp_post (wp_deallocuvm_sparse h hold (UInt32.not_le.mp hlt)) ?_
    exact fun r m' hpost => ⟨hpost.1.trans (if_neg hlt).symm, hpost.2.shrinks hold hseg⟩

/-! ## freevm -/

/-- All pages of directory `d` of `m` are free in `m'`, and nothing else has changed. -/
structure Freed (d : ℕ) (F : Set ℕ) (m m' : Mem) : Prop where
  pool : PoolOk m' F
  contents : ∀ pg, pg ∉ m'.freelist → m'.page pg = m.page pg
  stock : { pg | pg ∈ m'.freelist } = m.Stock d
  refuse : m'.refuse = m.refuse

/-- In the loop of `freevm`: the tables from slot `i` on and the directory are left. -/
structure Freeing (d : ℕ) (F : Set ℕ) (m : Mem) (i : ℕ) (m' : Mem) : Prop where
  pool : PoolOk m' (F ∪ { pg | pg = d ∨ ∃ j, i ≤ j ∧ m.tab d j = some pg })
  contents : ∀ pg, pg ∉ m'.freelist → m'.page pg = m.page pg
  stock : ∀ pg, pg ∈ m'.freelist ∨ pg = d ∨ (∃ j, i ≤ j ∧ m.tab d j = some pg) ↔ pg ∈ m.Stock d
  refuse : m'.refuse = m.refuse

theorem Freeing.start (h : SpaceOk m d F) (hno : ∀ v < 2 ^ 19, m.pte d v = none) :
    Freeing d F m 0 m := by
  refine ⟨⟨h.nodup, ?_, fun pg hp => h.range none pg hp, h.single⟩, fun _ _ => rfl, ?_, rfl⟩
  · rintro pg hp (hF | rfl | ⟨j, -, hj⟩)
    · exact h.frame none pg hp hF
    · cases h.excl none (some .dir) pg hp rfl
    · cases h.excl none (some (.tab j)) pg hp hj
  · intro pg
    rw [mem_stock]
    constructor
    · rintro (hp | hp | ⟨j, -, hj⟩)
      · exact .inl hp
      · exact .inr (.inl hp)
      · exact .inr (.inr (.inl ⟨j, hj⟩))
    · rintro (hp | hp | ⟨j, hj⟩ | ⟨v, hv, hp⟩)
      · exact .inl hp
      · exact .inr (.inl hp)
      · exact .inr (.inr ⟨j, Nat.zero_le j, hj⟩)
      · rw [hno v hv] at hp
        cases hp

theorem Freeing.dir_page {i : ℕ} (hf : Freeing d F m i m') : m'.page d = m.page d :=
  hf.contents d fun hd => hf.pool.frame d hd (.inr (.inl rfl))

theorem Freeing.step {i : ℕ} (h : SpaceOk m d F) (hf : Freeing d F m i m') :
    wp (freeTable d i) (fun _ m'' => Freeing d F m (i + 1) m'') E m' := by
  unfold freeTable word
  simp only [wp_bind, wp_get, wp_pure]
  rw [hf.dir_page]
  have htab : m.tab d i = tableOf ((m.page d).word i) := rfl
  unfold tableOf at htab
  by_cases hp : (m.page d).word i &&& PTE_P ≠ 0
  · rw [if_pos hp] at htab ⊢
    generalize PTE_ADDR ((m.page d).word i) = t at htab
    apply wp_kfree (h.range (some (.tab i)) t htab)
    have hin : t ∈ F ∪ { pg | pg = d ∨ ∃ j, i ≤ j ∧ m.tab d j = some pg } :=
      .inr (.inr ⟨i, le_rfl, htab⟩)
    refine ⟨(hf.pool.give hin (h.range (some (.tab i)) t htab)).mono ?_, ?_, ?_, hf.refuse⟩
    · rintro pg (hF | rfl | ⟨j, hj, hpg⟩)
      · refine ⟨.inl hF, ?_⟩
        rintro rfl
        exact h.frame (some (.tab i)) pg htab hF
      · refine ⟨.inr (.inl rfl), ?_⟩
        rintro rfl
        exact h.tab_ne_dir i htab
      · refine ⟨.inr (.inr ⟨j, by omega, hpg⟩), ?_⟩
        rintro rfl
        have := h.tab_inj htab hpg
        omega
    · intro pg hpg
      have hpt : pg ≠ t := by
        rintro rfl
        exact hpg mem_cons_self
      rw [free_page hpt, hf.contents pg fun hm => hpg (mem_cons_of_mem _ hm)]
    · intro pg
      rw [← hf.stock]
      have hfree : pg ∈ (m'.free t).freelist ↔ pg = t ∨ pg ∈ m'.freelist := mem_cons
      rw [hfree]
      constructor
      · rintro ((rfl | hp) | hp | ⟨j, hj, hpg⟩)
        · exact .inr (.inr ⟨i, le_rfl, htab⟩)
        · exact .inl hp
        · exact .inr (.inl hp)
        · exact .inr (.inr ⟨j, by omega, hpg⟩)
      · rintro (hp | hp | ⟨j, hj, hpg⟩)
        · exact .inl (.inr hp)
        · exact .inr (.inl hp)
        · by_cases hij : j = i
          · subst hij
            exact .inl (.inl (Option.some.inj (hpg.symm.trans htab)))
          · exact .inr (.inr ⟨j, by omega, hpg⟩)
  · rw [if_neg hp] at htab ⊢
    rw [wp_pure]
    have hsame : ∀ pg, (∃ j, i + 1 ≤ j ∧ m.tab d j = some pg) ↔ ∃ j, i ≤ j ∧ m.tab d j = some pg := by
      intro pg
      constructor
      · rintro ⟨j, hj, hpg⟩
        exact ⟨j, by omega, hpg⟩
      · rintro ⟨j, hj, hpg⟩
        refine ⟨j, ?_, hpg⟩
        rcases Nat.lt_or_eq_of_le hj with hlt | rfl
        · exact hlt
        · rw [htab] at hpg
          cases hpg
    refine ⟨?_, hf.contents, ?_, hf.refuse⟩
    · simp only [hsame]
      exact hf.pool
    · intro pg
      rw [hsame]
      exact hf.stock pg

theorem Freeing.loop (n : ℕ) (h : SpaceOk m d F) (hno : ∀ v < 2 ^ 19, m.pte d v = none) :
    wp ((List.range n).forM (freeTable d)) (fun _ m' => Freeing d F m n m') E m := by
  apply wp_forM_range
  · intro i m' _ hf
    exact hf.step h
  · exact Freeing.start h hno

theorem wp_freevm (h : SpaceOk m d F) (hseg : m.Segment d 0) :
    wp (freevm (some d)) (fun _ m' => Freed d F m m') E m := by
  have hzero : m.Segment d (pagesOf 0) := hseg
  unfold freevm
  rw [wp_bind]
  refine wp_post (wp_deallocuvm h (by decide) hzero) ?_
  intro _ m₁ hpost
  have hs := hpost.2
  have hno : ∀ v < 2 ^ 19, m₁.pte d v = none := by
    intro v hv
    have hlt : v * PGSIZE < (UInt32.ofNat KERNBASE).toNat := by
      change v * 4096 < 2 ^ 31
      omega
    rw [hs.pte, if_pos ⟨Nat.zero_le _, hlt⟩]
  rw [wp_bind]
  generalize hn : NPDENTRIES = n
  refine wp_post (Freeing.loop n hs.ok hno) ?_
  intro _ m₂ hf
  have hr := hs.ok.range (some .dir) d rfl
  have hlast : ∀ pg, ¬ ∃ j, n ≤ j ∧ m₁.tab d j = some pg := by
    rintro pg ⟨j, hj, hpg⟩
    have := tab_lt hpg
    simp only [NPDENTRIES] at hn
    omega
  apply wp_kfree hr
  have hd : d ∈ F ∪ { pg | pg = d ∨ ∃ j, n ≤ j ∧ m₁.tab d j = some pg } := .inr (.inl rfl)
  have hmem : ∀ pg, pg ∈ (m₂.free d).freelist ↔ pg = d ∨ pg ∈ m₂.freelist := fun _ => mem_cons
  refine ⟨(hf.pool.give hd hr).mono ?_, ?_, ?_, hf.refuse.trans hs.refuse⟩
  · intro pg hF
    refine ⟨.inl hF, ?_⟩
    rintro rfl
    exact hs.ok.frame (some .dir) pg rfl hF
  · intro pg hpg
    rw [hmem, not_or] at hpg
    rw [free_page hpg.1, hf.contents pg hpg.2]
    have hout : pg ∉ m₁.Stock d := by
      rw [← hf.stock]
      rintro (hp | hp | hp)
      · exact hpg.2 hp
      · exact hpg.1 hp
      · exact hlast pg hp
    refine hs.contents pg (fun hp => hout ⟨none, hp⟩) fun i hi => hout ⟨some (.tab i), ?_⟩
    change m₁.tab d i = some pg
    rw [hs.tab]
    exact hi
  · ext pg
    rw [← hs.stock, ← hf.stock, Set.mem_ofPred_eq, hmem]
    constructor
    · rintro (hp | hp)
      · exact .inr (.inl hp)
      · exact .inl hp
    · rintro (hp | hp | hp)
      · exact .inr hp
      · exact .inl hp
      · exact (hlast pg hp).elim

end Xv6.Vm
