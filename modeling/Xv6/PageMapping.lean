import Xv6.PageTables

/-!
# Allocating pages and mapping them

The specifications of `kalloc`, `kfree`, `walkpgdir` and `mappages` on a well-formed directory. As
long as no request is refused, each call of `kalloc` takes one page: requests made and pages left add
up to a constant, so the number of the request that is refused first tells how far a call gets.
-/

namespace Xv6.Vm

open Resumption ByteLayout Custody Function List Nat Finset Mem Set

section Read

variable {m : Mem} {d i pg v : ℕ} {E : Stop → Mem → Prop}

/-! ## Requests -/

def Mem.Refuses (m : Mem) : Prop := m.refuse m.calls = true ∨ m.freelist = []

def Mem.asked (m : Mem) : Mem := { m with calls := m.calls + 1 }

def Mem.taken (m : Mem) (rest : List ℕ) : Mem := { m with freelist := rest, calls := m.calls + 1 }

structure Paid (m m' : Mem) : Prop where
  refuse : m'.refuse = m.refuse
  spent : m'.calls + m'.freelist.length = m.calls + m.freelist.length
  le : m.calls ≤ m'.calls
  granted : ∀ j, m.calls ≤ j → j < m'.calls → m.refuse j = false

variable {m₁ m₂ m' : Mem} {R : Option (ℕ × ℕ) → Mem → Prop}

theorem Paid.refl (m : Mem) : Paid m m := ⟨rfl, rfl, le_rfl, fun j h₁ h₂ => by omega⟩

theorem Paid.trans (h : Paid m m₁) (h' : Paid m₁ m₂) : Paid m m₂ := by
  refine ⟨h'.refuse.trans h.refuse, h'.spent.trans h.spent, h.le.trans h'.le, ?_⟩
  intro j h₁ h₂
  by_cases hj : j < m₁.calls
  · exact h.granted j h₁ hj
  · rw [← h.refuse]
    exact h'.granted j (by omega) h₂

theorem Paid.congr (h : Paid m m₁) (hrefuse : m₂.refuse = m₁.refuse)
    (hfree : m₂.freelist = m₁.freelist) (hcalls : m₂.calls = m₁.calls) : Paid m m₂ :=
  ⟨hrefuse.trans h.refuse, by rw [hcalls, hfree]; exact h.spent, by rw [hcalls]; exact h.le,
    by rw [hcalls]; exact h.granted⟩

theorem Paid.take {rest : List ℕ} (hl : m.freelist = pg :: rest) (hm : ¬ m.Refuses)
    (hrefuse : m'.refuse = m.refuse) (hfree : m'.freelist = rest) (hcalls : m'.calls = m.calls + 1) :
    Paid m m' := by
  refine ⟨hrefuse, ?_, by omega, ?_⟩
  · rw [hcalls, hfree, hl, length_cons]
    omega
  · intro j h₁ h₂
    obtain rfl : j = m.calls := by omega
    exact Bool.eq_false_iff.mpr fun hr => hm (.inl hr)

theorem wp_kalloc {R : Option ℕ → Mem → Prop} (hnone : m.Refuses → R none m.asked)
    (hsome : ∀ pg rest, m.freelist = pg :: rest → ¬ m.Refuses → R (some pg) (m.taken rest)) :
    wp kalloc R E m := by
  unfold kalloc
  simp only [wp_bind, wp_get]
  cases hr : m.refuse m.calls with
  | true =>
    simp only [wp_bind, wp_set, wp_pure]
    exact hnone (.inl hr)
  | false =>
    cases hl : m.freelist with
    | nil =>
      have hfail := hnone (.inr hl)
      unfold asked at hfail
      rw [hl] at hfail
      exact hfail
    | cons pg rest =>
      simp only [wp_bind, wp_set, wp_pure]
      refine hsome pg rest hl ?_
      rintro (hr' | hl')
      · rw [hr] at hr'
        cases hr'
      · rw [hl] at hl'
        cases hl'

theorem wp_memset {R : Unit → Mem → Prop} {x : UInt8}
    (hR : R () (m.setPage pg (.ofBytes fun _ => x))) : wp (memset pg x) R E m := hR

theorem ofBytes_zero : (Buffer.ofBytes (fun _ => 0) : Page) = .zero := rfl

/-! ## Reading a directory -/

def Mem.tables (m : Mem) (d : ℕ) : Finset ℕ :=
  (Finset.range NPDENTRIES).filter fun i => (m.tab d i).isSome

theorem mem_tables : i ∈ m.tables d ↔ (m.tab d i).isSome := by
  unfold Mem.tables
  rw [Finset.mem_filter, Finset.mem_range, and_iff_right_iff_imp]
  intro hi
  obtain ⟨t, ht⟩ := Option.isSome_iff_exists.mp hi
  exact Mem.tab_lt ht

theorem card_tables_update {t : ℕ} (hnone : m.tab d i = none)
    (htab : m'.tab d = update (m.tab d) i (some t)) :
    (m'.tables d).card = (m.tables d).card + 1 := by
  have hset : m'.tables d = insert i (m.tables d) := by
    ext j
    rw [Finset.mem_insert, mem_tables, mem_tables, htab]
    by_cases hj : j = i
    · subst hj
      simp
    · simp [hj]
  rw [hset, Finset.card_insert_of_notMem]
  rw [mem_tables, hnone]
  decide

theorem PDX_eq (hv : v < 2 ^ 20) : PDX v = v / NPTENTRIES := by
  unfold PDX
  apply mod_eq_of_lt
  simp only [NPTENTRIES, NPDENTRIES]
  omega

theorem wp_walkpgdir_read (hv : v < 2 ^ 20)
    (hR : R ((m.tab d (v / NPTENTRIES)).map fun t => (t, v % NPTENTRIES)) m) :
    wp (walkpgdir d v false) R E m := by
  unfold walkpgdir word
  simp only [wp_bind, wp_get, wp_pure, PDX_eq hv]
  unfold tab tableOf at hR
  split_ifs at hR ⊢ with hp hf
  · exact hR
  · exact hf.elim
  · exact hR

theorem wp_walkpgdir_cases (hv : v < 2 ^ 20)
    (hold : ∀ t, m.tab d (v / NPTENTRIES) = some t → R (some (t, v % NPTENTRIES)) m)
    (hfail : m.tab d (v / NPTENTRIES) = none → m.Refuses → R none m.asked)
    (hnew : ∀ t rest, m.tab d (v / NPTENTRIES) = none → m.freelist = t :: rest → ¬ m.Refuses →
      R (some (t, v % NPTENTRIES)) (((m.taken rest).setPage t .zero).setWord d (v / NPTENTRIES)
        (mkPte t (PTE_P ||| PTE_W ||| PTE_U)))) : wp (walkpgdir d v true) R E m := by
  have htab : m.tab d (v / NPTENTRIES) = tableOf ((m.page d).word (v / NPTENTRIES)) := rfl
  unfold walkpgdir word
  simp only [wp_bind, wp_get, wp_pure, PDX_eq hv]
  by_cases hp : (m.page d).word (v / NPTENTRIES) &&& PTE_P ≠ 0
  · rw [tableOf, if_pos hp] at htab
    rw [if_pos hp, wp_pure]
    exact hold _ htab
  · rw [tableOf, if_neg hp] at htab
    rw [if_neg hp, if_neg (by simp), wp_bind]
    exact wp_kalloc (hfail htab) fun t rest hl hm => hnew t rest htab hl hm

theorem wp_mapPage_of {R : Bool → Mem → Prop} {perm : UInt32}
    (h : wp (walkpgdir d v true) (fun r m₁ => (r = none → R false m₁) ∧ ∀ t i, r = some (t, i) →
      m₁.tab d (v / NPTENTRIES) = some t ∧ i = v % NPTENTRIES ∧ m₁.pte d v = none ∧
      R true (m₁.setWord t i (mkPte pg (perm ||| PTE_P)))) E m) :
    wp (mapPage d v pg perm) R E m := by
  unfold mapPage
  rw [wp_bind]
  refine wp_post h ?_
  rintro (_ | ⟨t, i⟩) m₁ ⟨hfail, hok⟩
  · exact hfail rfl
  obtain ⟨ht, rfl, hnone, hR⟩ := hok t i rfl
  have hno : (m₁.page t).word (v % NPTENTRIES) &&& PTE_P = 0 := by
    unfold pte present at hnone
    rw [ht, Option.bind_some] at hnone
    by_contra hp
    rw [if_pos hp] at hnone
    cases hnone
  simp only [word, wp_bind, wp_get, wp_pure]
  rw [if_neg (not_not.mpr hno)]
  simp only [setWord, wp_bind, wp_modify, wp_pure]
  exact hR

/-! ## All pages of a directory and of the free list -/

def Mem.Stock (m : Mem) (d : ℕ) : Set ℕ := { pg | ∃ a, m.Holds d a pg }

section Stock

variable {m' : Mem} {t : ℕ} {w : UInt32}

theorem mem_stock : pg ∈ m.Stock d ↔ pg ∈ m.freelist ∨ pg = d ∨ (∃ i, m.tab d i = some pg) ∨
    ∃ v < 2 ^ 19, (m.pte d v).map PTE_ADDR = some pg := by
  constructor
  · rintro ⟨_ | _ | i | v, h⟩
    · exact .inl h
    · exact .inr (.inl h)
    · exact .inr (.inr (.inl ⟨i, h⟩))
    · exact .inr (.inr (.inr ⟨v, h⟩))
  · rintro (h | h | ⟨i, h⟩ | ⟨v, h⟩)
    · exact ⟨none, h⟩
    · exact ⟨some .dir, h⟩
    · exact ⟨some (.tab i), h⟩
    · exact ⟨some (.user v), h⟩

theorem stock_congr (hfree : m'.freelist = m.freelist) (htab : m'.tab d = m.tab d)
    (hpte : ∀ v < 2 ^ 19, m'.pte d v = m.pte d v) : m'.Stock d = m.Stock d := by
  ext pg
  rw [mem_stock, mem_stock, hfree, htab]
  have hu : (∃ v < 2 ^ 19, (m'.pte d v).map PTE_ADDR = some pg) ↔
      ∃ v < 2 ^ 19, (m.pte d v).map PTE_ADDR = some pg := by
    apply exists_congr
    intro v
    exact and_congr_right fun hv => by rw [hpte v hv]
  rw [hu]

theorem stock_take {rest : List ℕ} (hl : m.freelist = pg :: rest) :
    m.Stock d = insert pg ((m.taken rest).Stock d) := by
  ext x
  rw [mem_stock, Set.mem_insert_iff, mem_stock, hl, List.mem_cons, or_assoc]
  rfl

theorem exists_update {α : Type} {f : ℕ → Option α} {a : ℕ} {b x : α} (ha : f a = none) :
    (∃ c, update f a (some b) c = some x) ↔ x = b ∨ ∃ c, f c = some x := by
  constructor
  · rintro ⟨c, hc⟩
    by_cases hca : c = a
    · subst hca
      rw [update_self] at hc
      exact .inl (Option.some.inj hc).symm
    · rw [update_of_ne hca] at hc
      exact .inr ⟨c, hc⟩
  · rintro (rfl | ⟨c, hc⟩)
    · exact ⟨a, update_self ..⟩
    · refine ⟨c, ?_⟩
      rw [update_of_ne]
      · exact hc
      · rintro rfl
        rw [ha] at hc
        cases hc

theorem stock_table (hfree : m'.freelist = m.freelist) (hnone : m.tab d i = none)
    (htab : m'.tab d = update (m.tab d) i (some t)) (hpte : m'.pte d = m.pte d) :
    m'.Stock d = insert t (m.Stock d) := by
  ext pg
  rw [mem_stock, mem_insert_iff, mem_stock, hfree, htab, hpte, exists_update hnone, or_assoc]
  exact (or_congr_right or_left_comm).trans or_left_comm

theorem stock_user (hfree : m'.freelist = m.freelist) (htab : m'.tab d = m.tab d)
    (hnone : m.pte d v = none) (hv : v < 2 ^ 19) (hpte : m'.pte d = update (m.pte d) v (some w)) :
    m'.Stock d = insert (PTE_ADDR w) (m.Stock d) := by
  have hu : ∀ pg, (∃ u < 2 ^ 19, (m'.pte d u).map PTE_ADDR = some pg) ↔
      pg = PTE_ADDR w ∨ ∃ u < 2 ^ 19, (m.pte d u).map PTE_ADDR = some pg := by
    intro pg
    rw [hpte]
    constructor
    · rintro ⟨u, hu, hpg⟩
      by_cases huv : u = v
      · subst huv
        rw [update_self] at hpg
        exact .inl (Option.some.inj hpg).symm
      · rw [update_of_ne huv] at hpg
        exact .inr ⟨u, hu, hpg⟩
    · rintro (rfl | ⟨u, hu, hpg⟩)
      · exact ⟨v, hv, by rw [update_self]; rfl⟩
      · refine ⟨u, hu, ?_⟩
        rwa [update_of_ne]
        rintro rfl
        rw [hnone] at hpg
        cases hpg
  ext pg
  rw [mem_stock, mem_insert_iff, mem_stock, hfree, htab, hu]
  -- the new page moves to the front, past the tables, the directory and the free list
  exact (or_congr_right ((or_congr_right or_left_comm).trans or_left_comm)).trans or_left_comm

end Stock

end Read

variable [Link] {m m' : Mem} {d i t pg v : ℕ} {F : Set ℕ} {w : UInt32}
  {E : Stop → Mem → Prop}

/-! ## The pool of free pages -/

/-- The free list is in order and has none of the pages `F`. -/
structure PoolOk (m : Mem) (F : Set ℕ) : Prop where
  nodup : m.freelist.Nodup
  frame : ∀ pg ∈ m.freelist, pg ∉ F
  range : ∀ pg ∈ m.freelist, Link.endPage ≤ pg ∧ pg < PHYSTOP / PGSIZE
  single : m.doubleFree = false

variable {G : Set ℕ} {rest : List ℕ} {R : Bool → Mem → Prop} {perm : UInt32}

theorem SpaceOk.pool (h : SpaceOk m d F) : PoolOk m F :=
  ⟨h.nodup, fun pg hp => h.frame none pg hp, fun pg hp => h.range none pg hp, h.single⟩

theorem PoolOk.mono (h : PoolOk m F) (hG : G ⊆ F) : PoolOk m G :=
  ⟨h.nodup, fun pg hp hg => h.frame pg hp (hG hg), h.range, h.single⟩

theorem PoolOk.take (h : PoolOk m F) (hl : m.freelist = pg :: rest) :
    PoolOk (m.taken rest) (insert pg F) := by
  have hnodup := h.nodup
  rw [hl, nodup_cons] at hnodup
  have hsub : ∀ x ∈ rest, x ∈ m.freelist := by
    intro x hx
    rw [hl]
    exact mem_cons_of_mem _ hx
  refine ⟨hnodup.2, ?_, fun x hx => h.range x (hsub x hx), h.single⟩
  rintro x hx (rfl | hF)
  · exact hnodup.1 hx
  · exact h.frame x (hsub x hx) hF

theorem PoolOk.give (h : PoolOk m F) (hp : pg ∈ F)
    (hr : Link.endPage ≤ pg ∧ pg < PHYSTOP / PGSIZE) : PoolOk (m.free pg) (F \ {pg}) := by
  have hnew : pg ∉ m.freelist := fun hm => h.frame pg hm hp
  refine ⟨nodup_cons.mpr ⟨hnew, h.nodup⟩, ?_, ?_, ?_⟩
  · intro x hx hF
    rcases mem_cons.mp hx with rfl | hx
    · exact hF.2 rfl
    · exact h.frame x hx hF.1
  · intro x hx
    rcases mem_cons.mp hx with rfl | hx
    · exact hr
    · exact h.range x hx
  · change (m.doubleFree || decide (pg ∈ m.freelist)) = false
    rw [h.single, decide_eq_false hnew]
    rfl

theorem wp_kfree {R : Unit → Mem → Prop} (hr : Link.endPage ≤ pg ∧ pg < PHYSTOP / PGSIZE)
    (hR : R () (m.free pg)) : wp (kfree pg) R E m := by
  unfold kfree
  rw [if_neg (by omega), wp_modify]
  exact hR

/-! ## Growth of a directory -/

/-- From `m` to `m'`, directory `d` has gained tables in the slots `S` and perhaps entries. Everything
else is as it was, and no request was refused. -/
structure Grows (d : ℕ) (F S : Set ℕ) (m m' : Mem) : Prop where
  ok : SpaceOk m' d F
  contents : ∀ pg, pg ≠ d → (∀ i, m'.tab d i ≠ some pg) → m'.page pg = m.page pg
  paid : Paid m m'
  keep : ∀ i t, m.tab d i = some t → m'.tab d i = some t
  fresh : ∀ i t, m'.tab d i = some t → m.tab d i = some t ∨ t ∈ m.freelist
  free : ∀ pg ∈ m'.freelist, pg ∈ m.freelist
  slots : ∀ i, (m'.tab d i).isSome ↔ (m.tab d i).isSome ∨ i ∈ S
  calls : m'.calls + (m.tables d).card = m.calls + (m'.tables d).card

namespace Grows

variable {S S' : Set ℕ} {m'' : Mem}

theorem refl (h : SpaceOk m d F) (hS : ∀ i ∈ S, (m.tab d i).isSome) : Grows d F S m m :=
  ⟨h, fun _ _ _ => rfl, .refl m, fun _ _ h => h, fun _ _ h => .inl h, fun _ h => h,
    fun i => ⟨.inl, fun hi => hi.elim id (hS i)⟩, rfl⟩

theorem trans {G : Set ℕ} (h : Grows d G S m m') (h' : Grows d F S' m' m'') :
    Grows d F (S ∪ S') m m'' := by
  refine ⟨h'.ok, ?_, h.paid.trans h'.paid, fun i t ht => h'.keep i t (h.keep i t ht), ?_,
    fun pg hp => h.free pg (h'.free pg hp), ?_, ?_⟩
  · intro pg hd hno
    rw [h'.contents pg hd hno, h.contents pg hd fun i hi => hno i (h'.keep i pg hi)]
  · intro i t ht
    rcases h'.fresh i t ht with ht | hf
    · exact h.fresh i t ht
    · exact .inr (h.free t hf)
  · intro i
    rw [h'.slots, h.slots, mem_union, or_assoc]
  · have h₁ := h.calls
    have h₂ := h'.calls
    omega

theorem slots_congr (h : Grows d F S m m') (hS : ∀ i, i ∈ S ↔ i ∈ S') : Grows d F S' m m' :=
  ⟨h.ok, h.contents, h.paid, h.keep, h.fresh, h.free, fun i => by rw [h.slots, hS], h.calls⟩

theorem frame (h : Grows d F S m m') {x : ℕ} (hx : x ∈ F) : m'.page x = m.page x := by
  obtain ⟨hd, ht⟩ := h.ok.frame_ne hx
  exact h.contents x (fun he => hd he.symm) ht

end Grows

theorem SpaceOk.head (h : SpaceOk m d F) (hl : m.freelist = t :: rest) :
    t ∉ F ∧ (Link.endPage ≤ t ∧ t < PHYSTOP / PGSIZE) ∧ t < 2 ^ 20 := by
  have hfree : m.Holds d none t := by
    change t ∈ m.freelist
    rw [hl]
    exact mem_cons_self
  have hr := h.range none t hfree
  refine ⟨h.frame none t hfree, hr, ?_⟩
  have := hr.2
  simp only [PHYSTOP, PGSIZE] at this
  omega

theorem SpaceOk.newTable (h : SpaceOk m d F) (hl : m.freelist = t :: rest)
    (hm : ¬ m.Refuses) (hi : i < 1024) (hnone : m.tab d i = none)
    (hm' : m' = ((m.taken rest).setPage t .zero).setWord d i
      (mkPte t (PTE_P ||| PTE_W ||| PTE_U))) :
    Grows d F {i} m m' ∧ m'.tab d i = some t ∧ m'.pte d = m.pte d ∧ m'.Stock d = m.Stock d := by
  obtain ⟨htF, hr, hlt⟩ := h.head hl
  have h₁ : SpaceOk (m.taken rest) d (insert t F) := h.take hl
  obtain ⟨hdt, hno⟩ := h₁.frame_ne (Set.mem_insert t F)
  have htab₂ : ((m.taken rest).setPage t .zero).tab d = m.tab d := Mem.tab_setPage hdt
  have hpte₂ : ((m.taken rest).setPage t .zero).pte d = m.pte d := Mem.pte_setPage hdt hno
  have hw : tableOf (mkPte t (PTE_P ||| PTE_W ||| PTE_U)) = some t := by
    unfold tableOf
    rw [mkPte_flag hlt (by decide) (by decide), if_pos (by decide), PTE_ADDR_mkPte hlt (by decide)]
  have h₂ : SpaceOk ((m.taken rest).setPage t .zero) d (insert t F) := h₁.setPage hdt hno
  obtain ⟨hok, htab, hpte⟩ :=
    h₂.setTable htF hr hi ((congrFun htab₂ i).trans hnone) hw Mem.setPage_page_self
  rw [← hm', htab₂] at htab
  rw [← hm', hpte₂] at hpte
  rw [← hm'] at hok
  have hself : m'.tab d i = some t := by rw [htab, update_self]
  have hcalls : m'.calls = m.calls + 1 := by rw [hm']; rfl
  have hlist : m'.freelist = rest := by rw [hm']; rfl
  have hmem : ∀ x, x ∈ m.freelist ↔ x = t ∨ x ∈ rest := by
    intro x
    rw [hl]
    exact List.mem_cons
  refine ⟨⟨hok, ?_, .take hl hm (by rw [hm']; rfl) hlist hcalls, ?_, ?_, ?_, ?_, ?_⟩, hself, hpte, ?_⟩
  · intro pg hd hno'
    have hpt : pg ≠ t := by
      rintro rfl
      exact hno' i hself
    rw [hm', Mem.setWord, Mem.setPage_page_ne hd, Mem.setPage_page_ne hpt]
    rfl
  · intro j u hu
    rw [htab, update_of_ne]
    · exact hu
    · rintro rfl
      rw [hnone] at hu
      cases hu
  · intro j u hu
    rw [htab] at hu
    by_cases hj : j = i
    · rw [hj, update_self] at hu
      exact .inr ((hmem u).mpr (.inl (Option.some.inj hu).symm))
    · rw [update_of_ne hj] at hu
      exact .inl hu
  · rw [hlist]
    exact fun x hx => (hmem x).mpr (.inr hx)
  · intro j
    rw [htab, Set.mem_singleton_iff]
    by_cases hj : j = i
    · simp [hj]
    · simp [hj]
  · rw [hcalls, card_tables_update hnone htab]
    omega
  · have hstock : m'.Stock d = insert t ((m.taken rest).Stock d) :=
      stock_table hlist hnone htab hpte
    rw [hstock, ← stock_take hl]

theorem wp_walkpgdir_alloc {R : Option (ℕ × ℕ) → Mem → Prop} (h : SpaceOk m d F) (hv : v < 2 ^ 20)
    (hfail : m.tab d (v / NPTENTRIES) = none → m.Refuses → R none m.asked)
    (hR : ∀ t m', Grows d F {v / NPTENTRIES} m m' → m'.tab d (v / NPTENTRIES) = some t →
      m'.pte d = m.pte d → m'.Stock d = m.Stock d → R (some (t, v % NPTENTRIES)) m') :
    wp (walkpgdir d v true) R E m := by
  apply wp_walkpgdir_cases hv
  · intro t ht
    refine hR t m (.refl h ?_) ht rfl rfl
    rintro i rfl
    rw [ht]
    rfl
  · exact hfail
  · intro t rest hnone hl hm
    obtain ⟨hg, ht, hpte, hstock⟩ := h.newTable hl hm (by simp only [NPTENTRIES]; omega) hnone rfl
    exact hR t _ hg ht hpte hstock

/-! ## mappages -/

theorem Grows.store {S : Set ℕ} (h : Grows d G S m m') (ht : m'.tab d (v / NPTENTRIES) = some t)
    (hok : SpaceOk (m'.setWord t (v % NPTENTRIES) w) d F) :
    Grows d F S m (m'.setWord t (v % NPTENTRIES) w) := by
  have htab : (m'.setWord t (v % NPTENTRIES) w).tab d = m'.tab d := h.ok.tab_store ht
  refine ⟨hok, ?_, h.paid.congr rfl rfl rfl, fun i u hu => by rw [htab]; exact h.keep i u hu,
    fun i u hu => h.fresh i u (by rw [← htab]; exact hu), h.free,
    fun i => by rw [htab]; exact h.slots i, ?_⟩
  · intro pg hd hno
    have hpt : pg ≠ t := by
      rintro rfl
      exact hno _ (by rw [htab]; exact ht)
    rw [Mem.setWord, Mem.setPage_page_ne hpt]
    exact h.contents pg hd fun i hi => hno i (by rw [htab]; exact hi)
  · have hcard : (m'.setWord t (v % NPTENTRIES) w).tables d = m'.tables d := by
      unfold Mem.tables
      rw [htab]
    rw [hcard]
    exact h.calls

theorem wp_mapPage (h : SpaceOk m d F) (hv : v < 2 ^ 20)
    (hnone : m.pte d v = none)
    (hfail : m.tab d (v / NPTENTRIES) = none → m.Refuses → R false m.asked)
    (hR : ∀ t m₁, Grows d F {v / NPTENTRIES} m m₁ → m₁.tab d (v / NPTENTRIES) = some t →
      m₁.pte d = m.pte d → m₁.Stock d = m.Stock d →
      R true (m₁.setWord t (v % NPTENTRIES) (mkPte pg (perm ||| PTE_P)))) :
    wp (mapPage d v pg perm) R E m := by
  apply wp_mapPage_of
  apply wp_walkpgdir_alloc h hv
  · exact fun ht hm => ⟨fun _ => hfail ht hm, nofun⟩
  · rintro t m₁ hg ht hpte hstock
    refine ⟨nofun, fun _ _ he => ?_⟩
    cases he
    exact ⟨ht, rfl, by rw [hpte, hnone], hR t m₁ hg ht hpte hstock⟩

theorem wp_mapPage_kernel (h : SpaceOk m d F)
    (hlo : 2 ^ 19 ≤ v) (hv : v < 2 ^ 20) (hnone : m.pte d v = none) (hpg : pg < 2 ^ 20)
    (hperm : perm.toNat < PGSIZE) (hU : (perm ||| PTE_P) &&& PTE_U = 0)
    (hfail : m.tab d (v / NPTENTRIES) = none → m.Refuses → R false m.asked)
    (hR : ∀ m', Grows d F {v / NPTENTRIES} m m' →
      m'.pte d = update (m.pte d) v (some (mkPte pg (perm ||| PTE_P))) →
      m'.Stock d = m.Stock d → R true m') : wp (mapPage d v pg perm) R E m := by
  apply wp_mapPage h hv hnone hfail
  intro t m₁ hg ht hpte hstock
  have hU' : mkPte pg (perm ||| PTE_P) &&& PTE_U = 0 := by
    rw [mkPte_flag hpg (or_PTE_P_lt hperm) (by decide)]
    exact hU
  have hpte' : (m₁.setWord t (v % NPTENTRIES) (mkPte pg (perm ||| PTE_P))).pte d =
      update (m.pte d) v (some (mkPte pg (perm ||| PTE_P))) := by
    rw [hg.ok.pte_store ht, present_or, hpte]
  have hlow : ∀ u < 2 ^ 19, (m₁.setWord t (v % NPTENTRIES) (mkPte pg (perm ||| PTE_P))).pte d u =
      m₁.pte d u := by
    intro u hu
    rw [hpte', hpte, update_of_ne (by omega)]
  have hgrow := hg.store ht (hg.ok.storeKernel ht hlo hU')
  have hfree : (m₁.setWord t (v % NPTENTRIES) (mkPte pg (perm ||| PTE_P))).freelist =
      m₁.freelist := rfl
  have hsame := stock_congr hfree (hg.ok.tab_store ht) hlow
  exact hR _ hgrow hpte' (hsame.trans hstock)

theorem wp_mapPage_user (h : SpaceOk m d (insert pg F))
    (hF : pg ∉ F) (hr : Link.endPage ≤ pg ∧ pg < PHYSTOP / PGSIZE) (hv : v < 2 ^ 19)
    (hnone : m.pte d v = none) (hperm : perm.toNat < PGSIZE)
    (hfail : m.tab d (v / NPTENTRIES) = none → m.Refuses → R false m.asked)
    (hR : ∀ m', Grows d F {v / NPTENTRIES} m m' → m'.page pg = m.page pg →
      m'.pte d = update (m.pte d) v (some (mkPte pg (perm ||| PTE_P))) →
      m'.Stock d = insert pg (m.Stock d) → R true m') : wp (mapPage d v pg perm) R E m := by
  have hpg : pg < 2 ^ 20 := by
    have := hr.2
    simp only [PHYSTOP, PGSIZE] at this
    omega
  obtain ⟨hpres, haddr⟩ := present_mkPte hpg hperm
  have hw : (present (mkPte pg (perm ||| PTE_P))).map PTE_ADDR = some pg := by
    rw [hpres, Option.map_some, haddr]
  apply wp_mapPage h (by omega) hnone hfail
  intro t m₁ hg ht hpte hstock
  have hpte' : (m₁.setWord t (v % NPTENTRIES) (mkPte pg (perm ||| PTE_P))).pte d =
      update (m₁.pte d) v (some (mkPte pg (perm ||| PTE_P))) := by
    rw [hg.ok.pte_store ht, hpres]
  have hpt : pg ≠ t := by
    rintro rfl
    exact (hg.ok.frame_ne (Set.mem_insert pg F)).2 _ ht
  have hnone₁ : m₁.pte d v = none := by rw [hpte, hnone]
  have hgrow := hg.store ht (hg.ok.storeUser hF hr ht hv hw)
  have hfree : (m₁.setWord t (v % NPTENTRIES) (mkPte pg (perm ||| PTE_P))).freelist =
      m₁.freelist := rfl
  have hstock' := stock_user hfree (hg.ok.tab_store ht) hnone₁ hv hpte'
  rw [haddr, hstock] at hstock'
  rw [hpte] at hpte'
  refine hR _ hgrow ?_ hpte' hstock'
  rw [Mem.setWord, Mem.setPage_page_ne hpt]
  exact hg.frame (Set.mem_insert pg F)

theorem wp_mapLoop_kernel {n : ℕ} (h : SpaceOk m d F)
    (hlo : 2 ^ 19 ≤ v) (hv : v + n < 2 ^ 20) (hnone : ∀ u, v ≤ u → u ≤ v + n → m.pte d u = none)
    (hpg : pg + n < 2 ^ 20) (hperm : perm.toNat < PGSIZE) (hU : (perm ||| PTE_P) &&& PTE_U = 0)
    (hfail : ∀ m' S, Grows d F S m m' → m'.Stock d = m.Stock d → m'.Refuses →
      S ⊆ { i | v / NPTENTRIES ≤ i ∧ i ≤ (v + n) / NPTENTRIES } →
      (∃ i, v / NPTENTRIES ≤ i ∧ i ≤ (v + n) / NPTENTRIES ∧ m'.tab d i = none) → R false m'.asked)
    (hR : ∀ m', Grows d F { i | v / NPTENTRIES ≤ i ∧ i ≤ (v + n) / NPTENTRIES } m m' →
      (∀ u, ¬ (v ≤ u ∧ u ≤ v + n) → m'.pte d u = m.pte d u) →
      (∀ u, v ≤ u → u ≤ v + n → m'.pte d u = some (mkPte (pg + (u - v)) (perm ||| PTE_P))) →
      m'.Stock d = m.Stock d → R true m') :
    wp (mapLoop d perm n v pg) R E m := by
  induction n generalizing m v pg R with
  | zero =>
    rw [mapLoop]
    apply wp_mapPage_kernel h hlo (by omega) (hnone v le_rfl (by omega)) (by omega) hperm hU
    · intro ht href
      exact hfail m ∅ (.refl h fun i hi => hi.elim) rfl href (Set.empty_subset _)
        ⟨_, le_rfl, le_rfl, ht⟩
    · intro m' hg hpte hstock
      refine hR m' (hg.slots_congr fun i => ?_) ?_ ?_ hstock
      · rw [Set.mem_singleton_iff, Set.mem_ofPred_eq, Nat.add_zero]
        omega
      · intro u hu
        rw [hpte, update_of_ne (by omega)]
      · intro u h₁ h₂
        obtain rfl : u = v := by omega
        rw [hpte, update_self, Nat.sub_self, Nat.add_zero]
  | succ n ih =>
    rw [mapLoop, wp_bind]
    apply wp_mapPage_kernel h hlo (by omega) (hnone v le_rfl (by omega)) (by omega) hperm hU
    · intro ht href
      exact hfail m ∅ (.refl h fun i hi => hi.elim) rfl href (Set.empty_subset _)
        ⟨_, le_rfl, Nat.div_le_div_right (by omega), ht⟩
    · intro m₁ hg₁ hpte₁ hstock₁
      rw [if_pos rfl]
      apply ih hg₁.ok (by omega) (by omega)
      · intro u h₁ h₂
        rw [hpte₁, update_of_ne (by omega)]
        exact hnone u (by omega) (by omega)
      · omega
      · intro m' S hg hstock href hS hslot
        obtain ⟨i, h₁, h₂, ht⟩ := hslot
        refine hfail m' _ (hg₁.trans hg) (hstock.trans hstock₁) href ?_ ⟨i, ?_, ?_, ht⟩
        · rintro j (rfl | hj)
          · exact ⟨le_rfl, Nat.div_le_div_right (by omega)⟩
          · obtain ⟨hj₁, hj₂⟩ := hS hj
            rw [Set.mem_ofPred_eq]
            simp only [NPTENTRIES] at *
            omega
        · exact (Nat.div_le_div_right (by omega)).trans h₁
        · rwa [show v + (n + 1) = v + 1 + n by omega]
      · intro m' hg hout hin hstock
        refine hR m' ((hg₁.trans hg).slots_congr fun i => ?_) ?_ ?_ (hstock.trans hstock₁)
        · rw [Set.mem_union, Set.mem_singleton_iff, Set.mem_ofPred_eq, Set.mem_ofPred_eq]
          simp only [NPTENTRIES]
          omega
        · intro u hu
          rw [hout u (by omega), hpte₁, update_of_ne (by omega)]
        · intro u h₁ h₂
          by_cases huv : u = v
          · subst huv
            rw [hout u (by omega), hpte₁, update_self, Nat.sub_self, Nat.add_zero]
          · rw [hin u (by omega) (by omega), show pg + 1 + (u - (v + 1)) = pg + (u - v) by omega]

end Xv6.Vm
