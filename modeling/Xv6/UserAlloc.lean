import Xv6.UserMemory

/-!
# New user pages

`allocuvm` and `copyuvm` take a page, fill it and map it, page by page. If a request is refused,
`allocuvm` unmaps what it has mapped, and only page tables remain; `copyuvm` gives up the whole new
directory, but not the page it was about to map.
-/

namespace Xv6.Vm

open Resumption ByteLayout Custody Function Finset Mem

variable {size : ℕ} {rest : List ℕ} {x : Page} {oldsz newsz : UInt32}

theorem mappages_one {d v pg : ℕ} {perm : UInt32} (hv : v < 2 ^ 19) :
    mappages d (v * PGSIZE) PGSIZE (pg * PGSIZE) perm = mapPage d v pg perm := by
  have hlast : ((v * PGSIZE + PGSIZE - 1) % 2 ^ 32 / PGSIZE + 2 ^ 20 - v) % 2 ^ 20 = 0 := by
    simp only [PGSIZE]
    omega
  unfold mappages
  simp only [Nat.mul_div_cancel _ (show 0 < PGSIZE by decide), hlast, mapLoop]

variable [Link] {m m' m₁ : Mem} {d v t pg lo hi : ℕ} {F : Set ℕ} {E : Stop → Mem → Prop}

/-! ## Exchange with the free list -/

/-- From `m` to `m'`, directory `d` has only exchanged pages with the free list. -/
structure Keeps (d : ℕ) (F : Set ℕ) (m m' : Mem) : Prop where
  ok : SpaceOk m' d F
  keep : ∀ i t, m.tab d i = some t → m'.tab d i = some t
  contents : ∀ pg, pg ∉ m.Stock d → m'.page pg = m.page pg
  stock : m'.Stock d = m.Stock d
  refuse : m'.refuse = m.refuse

theorem Keeps.refl (h : SpaceOk m d F) : Keeps d F m m :=
  ⟨h, fun _ _ ht => ht, fun _ _ => rfl, rfl, rfl⟩

theorem Keeps.trans {m'' : Mem} (h : Keeps d F m m') (h' : Keeps d F m' m'') : Keeps d F m m'' := by
  refine ⟨h'.ok, fun i t ht => h'.keep i t (h.keep i t ht), ?_, h'.stock.trans h.stock,
    h'.refuse.trans h.refuse⟩
  intro pg hpg
  rw [h'.contents pg (h.stock ▸ hpg), h.contents pg hpg]

theorem Shrinks.keeps (h : Shrinks d F lo size m m') : Keeps d F m m' := by
  refine ⟨h.ok, fun i t ht => by rw [h.tab]; exact ht, ?_, h.stock, h.refuse⟩
  intro pg hpg
  have hno : ∀ a, ¬ m'.Holds d a pg := by
    intro a ha
    have : pg ∈ m'.Stock d := ⟨a, ha⟩
    exact hpg (h.stock ▸ this)
  exact h.contents pg (hno none) fun i hi => hpg ⟨some (.tab i), hi⟩

/-- From `m` to `m'`, the user pages from `lo` to `hi` were added. Their permissions and contents are
as `New` says. -/
structure Gains (New : ℕ → UInt32 → Page → Prop) (d : ℕ) (F : Set ℕ) (lo hi : ℕ) (m m' : Mem) :
    Prop extends Keeps d F m m' where
  user : ∀ pg, pg ∉ m.freelist → pg ≠ d → (∀ i, m.tab d i ≠ some pg) → m'.page pg = m.page pg
  same : ∀ u, ¬ (lo ≤ u ∧ u < hi) → m'.pte d u = m.pte d u
  new : ∀ u, lo ≤ u → u < hi → ∃ pg perm, m'.pte d u = some (mkPte pg (perm ||| PTE_P)) ∧
    PTE_ADDR (mkPte pg (perm ||| PTE_P)) = pg ∧ New u perm (m'.page pg)
  fresh : ∀ i t, m'.tab d i = some t → m.tab d i = some t ∨ t ∈ m.freelist
  free : ∀ pg ∈ m'.freelist, pg ∈ m.freelist
  slots : ∀ i, (m'.tab d i).isSome ↔
    (m.tab d i).isSome ∨ ∃ u, lo ≤ u ∧ u < hi ∧ u / NPTENTRIES = i
  paid : Paid m m'
  calls : m'.calls + (m.tables d).card = m.calls + (m'.tables d).card + (hi - lo)

variable {New : ℕ → UInt32 → Page → Prop}

theorem Gains.refl (h : SpaceOk m d F) : Gains New d F lo lo m m := by
  refine ⟨.refl h, fun _ _ _ _ => rfl, fun _ _ => rfl, fun u h₁ h₂ => by omega, fun _ _ h => .inl h,
    fun _ h => h, ?_, .refl m, ?_⟩
  · intro i
    constructor
    · exact .inl
    · rintro (hi | ⟨u, h₁, h₂, -⟩)
      · exact hi
      · omega
  · omega

theorem SpaceOk.user_page {e : UInt32} (h : SpaceOk m d F) (hv : v < 2 ^ 19)
    (he : m.pte d v = some e) :
    PTE_ADDR e ∉ m.freelist ∧ PTE_ADDR e ≠ d ∧ ∀ i, m.tab d i ≠ some (PTE_ADDR e) := by
  have hold : m.Holds d (some (.user v)) (PTE_ADDR e) := ⟨hv, by rw [he]; rfl⟩
  refine ⟨?_, ?_, ?_⟩
  · intro hf
    cases h.excl (some (.user v)) none _ hold hf
  · intro hd
    cases h.excl (some (.user v)) (some .dir) _ hold hd
  · intro i hi
    cases h.excl (some (.user v)) (some (.tab i)) _ hold hi

theorem SpaceOk.filled (h : SpaceOk m d F)
    (hl : m.freelist = pg :: rest) : SpaceOk ((m.taken rest).setPage pg x) d (insert pg F) ∧
    ((m.taken rest).setPage pg x).tab d = m.tab d ∧
    ((m.taken rest).setPage pg x).pte d = m.pte d ∧
    m.Stock d = insert pg (((m.taken rest).setPage pg x).Stock d) := by
  have h₁ : SpaceOk (m.taken rest) d (insert pg F) := h.take hl
  obtain ⟨hd, hno⟩ := h₁.frame_ne (Set.mem_insert pg F)
  have htab : ((m.taken rest).setPage pg x).tab d = m.tab d := tab_setPage hd
  have hpte : ((m.taken rest).setPage pg x).pte d = m.pte d := pte_setPage hd hno
  have hfree : ((m.taken rest).setPage pg x).freelist = (m.taken rest).freelist := rfl
  refine ⟨h₁.setPage hd hno, htab, hpte, ?_⟩
  rw [stock_take hl, stock_congr hfree htab fun v _ => congrFun hpte v]

section Map

variable {rest : List ℕ} {perm : UInt32} {x : Page} (hg : Gains New d F lo v m m₁)
  (hl : m₁.freelist = pg :: rest) (hm : ¬ m₁.Refuses)
include hg hl hm

theorem Gains.map {R : Bool → Mem → Prop} (hlo : lo ≤ v) (hv : v < 2 ^ 19)
    (hnone : m₁.pte d v = none) (hperm : perm.toNat < PGSIZE) (hnew : New v perm x)
    (hfail : m₁.tab d (v / NPTENTRIES) = none → ((m₁.taken rest).setPage pg x).Refuses →
      R false ((m₁.taken rest).setPage pg x).asked)
    (hR : ∀ m', Gains New d F lo (v + 1) m m' →
      m'.pte d v = some (mkPte pg (perm ||| PTE_P)) → R true m') :
    wp (mappages d (v * PGSIZE) PGSIZE (pg * PGSIZE) perm) R E
      ((m₁.taken rest).setPage pg x) := by
  obtain ⟨hok, htab, hpte, hstock⟩ := hg.ok.filled hl (x := x)
  obtain ⟨hpgF, hr, hlt⟩ := hg.ok.head hl
  have hpaid : Paid m₁ ((m₁.taken rest).setPage pg x) := .take hl hm rfl rfl rfl
  have hself : ((m₁.taken rest).setPage pg x).page pg = x := setPage_page_self
  have hother : ∀ q, q ≠ pg → ((m₁.taken rest).setPage pg x).page q = m₁.page q :=
    fun q hq => setPage_page_ne hq
  have hcalls : ((m₁.taken rest).setPage pg x).calls = m₁.calls + 1 := rfl
  have hlist : ((m₁.taken rest).setPage pg x).freelist = rest := rfl
  have hpgfree : pg ∈ m₁.freelist := by
    rw [hl]
    exact List.mem_cons_self
  generalize (m₁.taken rest).setPage pg x = m₂ at *
  rw [mappages_one hv]
  apply wp_mapPage_user hok hpgF hr hv (by rw [hpte, hnone]) hperm
  · rw [htab]
    exact hfail
  intro m' hgr hpage hpte' hstock'
  have hst : m'.Stock d = m.Stock d := by
    rw [hstock', ← hstock]
    exact hg.stock
  -- pages that were not free are not touched
  have hkeep : ∀ q, q ∉ m₁.freelist → q ≠ d → (∀ i, m'.tab d i ≠ some q) → m'.page q = m₁.page q := by
    intro q hq hqd hqt
    have hne : q ≠ pg := by
      rintro rfl
      exact hq hpgfree
    rw [hgr.contents q hqd hqt, hother q hne]
  have hsub : ∀ q ∈ m₂.freelist, q ∈ m.freelist := by
    intro q hq
    refine hg.free q ?_
    rw [hl]
    exact List.mem_cons_of_mem _ (hlist ▸ hq)
  have hfresh : ∀ i t, m'.tab d i = some t → m.tab d i = some t ∨ t ∈ m.freelist := by
    intro i t ht
    rcases hgr.fresh i t ht with ht | hf
    · exact hg.fresh i t (by rw [← htab]; exact ht)
    · exact .inr (hsub t hf)
  refine hR m' ⟨⟨hgr.ok, ?_, ?_, hst, ?_⟩, ?_, ?_, ?_, hfresh, fun q hq => hsub q (hgr.free q hq),
    ?_, ?_, ?_⟩ (by rw [hpte', update_self])
  · intro i t ht
    exact hgr.keep i t (by rw [htab]; exact hg.keep i t ht)
  · intro q hq
    have hno : ∀ a, ¬ m'.Holds d a q := by
      intro a ha
      have : q ∈ m'.Stock d := ⟨a, ha⟩
      exact hq (hst ▸ this)
    have hno₁ : q ∉ m₁.freelist := by
      intro hf
      have : q ∈ m₁.Stock d := ⟨none, hf⟩
      exact hq (hg.stock ▸ this)
    rw [hkeep q hno₁ (hno (some .dir)) fun i => hno (some (.tab i)), hg.contents q hq]
  · exact (hgr.paid.refuse.trans hpaid.refuse).trans hg.refuse
  · intro q hq hqd hqt
    have hnt : ∀ i, m'.tab d i ≠ some q := by
      intro i hi
      exact (hfresh i q hi).elim (hqt i) hq
    rw [hkeep q (fun hf => hq (hg.free q hf)) hqd hnt, hg.user q hq hqd hqt]
  · intro u hu
    rw [hpte', hpte, update_of_ne (by omega)]
    exact hg.same u (by omega)
  · intro u h₁ h₂
    by_cases huv : u = v
    · subst huv
      refine ⟨pg, perm, by rw [hpte', update_self], (present_mkPte hlt hperm).2, ?_⟩
      rw [hpage, hself]
      exact hnew
    · obtain ⟨q, perm', hq, haddr, hn⟩ := hg.new u h₁ (by omega)
      have hq' : m'.pte d u = some (mkPte q (perm' ||| PTE_P)) := by
        rw [hpte', hpte, update_of_ne huv, hq]
      obtain ⟨hnf, -, -⟩ := hg.ok.user_page (by omega) hq
      obtain ⟨-, hnd, hnt⟩ := hgr.ok.user_page (by omega) hq'
      rw [haddr] at hnf hnd hnt
      refine ⟨q, perm', hq', haddr, ?_⟩
      rw [hkeep q hnf hnd hnt]
      exact hn
  · intro i
    rw [hgr.slots, htab, hg.slots, Set.mem_singleton_iff, or_assoc]
    apply or_congr_right
    constructor
    · rintro (⟨u, h₁, h₂, hi⟩ | rfl)
      · exact ⟨u, h₁, by omega, hi⟩
      · exact ⟨v, hlo, by omega, rfl⟩
    · rintro ⟨u, h₁, h₂, rfl⟩
      by_cases huv : u = v
      · exact .inr (by rw [huv])
      · exact .inl ⟨u, h₁, by omega, rfl⟩
  · exact (hg.paid.trans hpaid).trans hgr.paid
  · have hcard : m₂.tables d = m₁.tables d := by
      unfold tables
      rw [htab]
    have h₁ := hg.calls
    have h₂ := hgr.calls
    rw [hcard] at h₂
    omega

end Map

/-! ## allocuvm -/

omit [Link] in
theorem card_tables_le (hs : ∀ i, (m'.tab d i).isSome →
    (m.tab d i).isSome ∨ ∃ u, lo ≤ u ∧ u < hi ∧ u / NPTENTRIES = i) :
    (m'.tables d).card ≤ (m.tables d).card + (hi - lo) := by
  have hsub : m'.tables d ⊆ m.tables d ∪ (Finset.Ico lo hi).image (· / NPTENTRIES) := by
    intro i hi'
    rw [mem_tables] at hi'
    rw [mem_union, mem_tables, mem_image]
    rcases hs i hi' with h | ⟨u, h₁, h₂, rfl⟩
    · exact .inl h
    · exact .inr ⟨u, mem_Ico.mpr ⟨h₁, h₂⟩, rfl⟩
  calc (m'.tables d).card
      ≤ (m.tables d).card + ((Finset.Ico lo hi).image (· / NPTENTRIES)).card :=
        (card_le_card hsub).trans (card_union_le _ _)
    _ ≤ (m.tables d).card + (Finset.Ico lo hi).card :=
        Nat.add_le_add_left card_image_le _
    _ = (m.tables d).card + (hi - lo) := by rw [Nat.card_Ico]

def Mem.Exhausted (m : Mem) (n : ℕ) : Prop := ∃ m₁, Paid m m₁ ∧ m₁.Refuses ∧ m₁.calls < m.calls + n

def FreshPage (_ : ℕ) (perm : UInt32) (x : Page) : Prop := perm = PTE_W ||| PTE_U ∧ x = .zero

structure Restored (d : ℕ) (F : Set ℕ) (m m' : Mem) : Prop extends Keeps d F m m' where
  pte : ∀ u, m'.pte d u = m.pte d u
  user : ∀ pg, pg ∉ m.freelist → pg ≠ d → (∀ i, m.tab d i ≠ some pg) → m'.page pg = m.page pg

theorem Gains.pte_new {u : ℕ} (hg : Gains New d F lo hi m m') (h₁ : lo ≤ u) (h₂ : u < hi) :
    m'.pte d u ≠ none := by
  obtain ⟨pg, perm, he, -, -⟩ := hg.new u h₁ h₂
  rw [he]
  simp

theorem Gains.segment (hg : Gains New d F lo v m m₁)
    (hno : ∀ u, lo ≤ u → u < 2 ^ 19 → m.pte d u = none) : m₁.Segment d lo := by
  intro a b hb hab ha hpa
  by_cases hav : a < v
  · exact hg.pte_new hb (by omega)
  · rw [hg.same a (by omega), hno a (by omega) ha] at hpa
    exact (hpa rfl).elim

theorem Gains.undo (hg : Gains New d F lo v m m₁) (hs : Shrinks d F lo size m₁ m')
    (hsize : size ≤ KERNBASE) (hno : ∀ u, lo ≤ u → u < 2 ^ 19 → m.pte d u = none)
    (hv : ∀ u, u < v → u * PGSIZE < size) : Restored d F m m' := by
  have hpte : ∀ u, m'.pte d u = m.pte d u := by
    intro u
    rw [hs.pte]
    by_cases hu : lo ≤ u ∧ u * PGSIZE < size
    · have hlt : u < 2 ^ 19 := by
        have := hu.2
        simp only [PGSIZE, KERNBASE] at this hsize
        omega
      rw [if_pos hu, hno u hu.1 hlt]
    · rw [if_neg hu]
      exact hg.same u fun hlv => hu ⟨hlv.1, hv u hlv.2⟩
  refine ⟨hg.toKeeps.trans hs.keeps, hpte, ?_⟩
  intro pg hf hd ht
  have hfree : pg ∉ m'.freelist := by
    intro hpg
    have hst : pg ∈ m.Stock d := by
      rw [← hg.stock, ← hs.stock]
      exact ⟨none, hpg⟩
    rcases mem_stock.mp hst with hp | hp | ⟨i, hi⟩ | ⟨u, hu, hp⟩
    · exact hf hp
    · exact hd hp
    · exact ht i hi
    · have hold : m'.Holds d (some (.user u)) pg := ⟨hu, by rw [hpte]; exact hp⟩
      cases hs.ok.excl (some (.user u)) none pg hold hpg
  have hnt : ∀ i, m₁.tab d i ≠ some pg := fun i hi => (hg.fresh i pg hi).elim (ht i) hf
  rw [hs.contents pg hfree hnt, hg.user pg hf hd ht]

theorem Shrinks.give {m₂ : Mem} (hok : SpaceOk m₁ d F) (hl : m₁.freelist = pg :: rest)
    (hs : Shrinks d (insert pg F) lo size ((m₁.taken rest).setPage pg x).asked m₂) :
    Shrinks d F lo size m₁ (m₂.free pg) := by
  obtain ⟨-, htab, hpte, hstock⟩ := hok.filled hl (x := x)
  obtain ⟨hF, hr, -⟩ := hok.head hl
  obtain ⟨hd, hno⟩ := hs.ok.frame_ne (Set.mem_insert pg F)
  have htab₂ : (m₂.free pg).tab d = m₂.tab d := tab_setPage hd
  have hpte₂ : (m₂.free pg).pte d = m₂.pte d := pte_setPage hd hno
  have hmem : ∀ q, q ∈ (m₂.free pg).freelist ↔ q = pg ∨ q ∈ m₂.freelist := fun _ => List.mem_cons
  refine ⟨hs.ok.give hF hr, ?_, ?_, ?_, ?_, ?_, hs.refuse⟩
  · exact (htab₂.trans hs.tab).trans htab
  · intro u
    rw [hpte₂, hs.pte]
    split_ifs with hu
    · rfl
    · exact congrFun hpte u
  · intro q hq hnt
    rw [hmem, not_or] at hq
    have hnt' : ∀ i, ((m₁.taken rest).setPage pg x).asked.tab d i ≠ some q := by
      intro i hi
      exact hnt i ((congrFun htab i).symm.trans hi)
    rw [free_page hq.1, hs.contents q hq.2 hnt']
    exact setPage_page_ne hq.1
  · intro q hq
    rw [hl, List.mem_cons] at hq
    rw [hmem]
    rcases hq with rfl | hq
    · exact .inl rfl
    · exact .inr (hs.free q hq)
  · rw [hstock]
    have hst : ((m₁.taken rest).setPage pg x).asked.Stock d =
        ((m₁.taken rest).setPage pg x).Stock d := rfl
    rw [← hst, ← hs.stock]
    ext q
    rw [Set.mem_insert_iff, mem_stock, mem_stock, hmem, htab₂, hpte₂, or_assoc]

theorem wp_allocLoop (hg : Gains FreshPage d F (pagesOf oldsz) v m m₁)
    (hlo : pagesOf oldsz ≤ v) (hv : v ≤ pagesOf newsz) (hnew : newsz.toNat < KERNBASE)
    (hno : ∀ u, pagesOf oldsz ≤ u → u < 2 ^ 19 → m.pte d u = none) :
    wp (allocLoop d oldsz newsz (v * PGSIZE)) (fun r m' =>
      if r then Gains FreshPage d F (pagesOf oldsz) (pagesOf newsz) m m'
      else Restored d F m m' ∧ m.Exhausted (2 * pagesOf newsz)) E m₁ := by
  have hsize : newsz.toNat ≤ KERNBASE := hnew.le
  have hbelow : ∀ u, u < v → u * PGSIZE < newsz.toNat := by
    intro u hu
    unfold pagesOf at hv
    simp only [PGSIZE] at hv ⊢
    omega
  generalize hn : pagesOf newsz - v = n
  induction n generalizing m₁ v with
  | zero =>
    have hend : ¬ v * PGSIZE < newsz.toNat := by
      unfold pagesOf at hn
      simp only [PGSIZE] at hn ⊢
      omega
    obtain rfl : v = pagesOf newsz := by omega
    rw [allocLoop, if_neg hend, wp_pure, if_pos rfl]
    exact hg
  | succ n ih =>
    have hlt : v * PGSIZE < newsz.toNat := by
      unfold pagesOf at hn
      simp only [PGSIZE] at hn ⊢
      omega
    have hv' : v < 2 ^ 19 := by
      simp only [PGSIZE, KERNBASE] at hlt hnew
      omega
    have hseg := hg.segment hno
    have hcalls : m₁.calls + 1 < m.calls + 2 * pagesOf newsz := by
      have hcard : (m₁.tables d).card ≤ (m.tables d).card + (v - pagesOf oldsz) :=
        card_tables_le fun i => (hg.slots i).mp
      have := hg.calls
      omega
    rw [allocLoop, if_pos hlt, wp_bind]
    apply wp_kalloc
    · intro hr
      have hok : SpaceOk m₁.asked d F := hg.ok.congr rfl rfl rfl rfl
      rw [wp_bind]
      refine wp_post (wp_deallocuvm hok hsize hseg) ?_
      intro _ m' hpost
      have hs : Shrinks d F (pagesOf oldsz) newsz.toNat m₁ m' :=
        ⟨hpost.2.ok, hpost.2.tab, hpost.2.pte, hpost.2.contents, hpost.2.free, hpost.2.stock,
          hpost.2.refuse⟩
      rw [wp_pure, if_neg (by simp)]
      exact ⟨hg.undo hs hsize hno hbelow, m₁, hg.paid, hr, by omega⟩
    · intro pg rest hl hm
      rw [wp_bind]
      apply wp_memset
      rw [ofBytes_zero, wp_bind]
      apply hg.map hl hm hlo hv'
      · rw [hg.same v (by omega), hno v hlo hv']
      · decide
      · exact ⟨rfl, rfl⟩
      · intro ht href
        rw [if_neg (by simp), wp_bind]
        obtain ⟨hok, htab, hpte, -⟩ := hg.ok.filled hl (x := .zero)
        have hok' : SpaceOk ((m₁.taken rest).setPage pg .zero).asked d (insert pg F) :=
          hok.congr rfl rfl rfl rfl
        have hseg' : ((m₁.taken rest).setPage pg .zero).asked.Segment d (pagesOf oldsz) := by
          intro a b hb hab ha hpa
          have hp : ((m₁.taken rest).setPage pg .zero).asked.pte d = m₁.pte d := hpte
          rw [hp] at hpa ⊢
          exact hseg a b hb hab ha hpa
        refine wp_post (wp_deallocuvm hok' hsize hseg') ?_
        intro _ m₂ hpost
        rw [wp_bind]
        apply wp_kfree (hg.ok.head hl).2.1
        rw [wp_pure, if_neg (by simp)]
        have hpaid : Paid m₁ ((m₁.taken rest).setPage pg .zero) := .take hl hm rfl rfl rfl
        exact ⟨hg.undo (hpost.2.give hg.ok hl) hsize hno hbelow, _, hg.paid.trans hpaid, href, hcalls⟩
      · intro m' hg' _
        rw [if_pos rfl]
        have hnext : v * PGSIZE + PGSIZE = (v + 1) * PGSIZE := (Nat.succ_mul v PGSIZE).symm
        rw [hnext]
        apply ih hg' (by omega) (by omega)
        · intro u hu
          by_cases huv : u = v
          · rw [huv]
            exact hlt
          · exact hbelow u (by omega)
        · omega

theorem wp_allocuvm (h : SpaceOk m d F) (hold : oldsz.toNat < KERNBASE)
    (hno : ∀ u, pagesOf oldsz ≤ u → u < 2 ^ 19 → m.pte d u = none) :
    wp (allocuvm d oldsz newsz) (fun r m' =>
      r = 0 ∧ Restored d F m m' ∧ (KERNBASE ≤ newsz.toNat ∨ m.Exhausted (2 * pagesOf newsz)) ∨
      newsz < oldsz ∧ r = oldsz ∧ m' = m ∨
      oldsz ≤ newsz ∧ newsz.toNat < KERNBASE ∧ r = newsz ∧
        Gains FreshPage d F (pagesOf oldsz) (pagesOf newsz) m m') E m := by
  unfold allocuvm
  have hrefl : Restored d F m m := ⟨.refl h, fun _ => rfl, fun _ _ _ _ => rfl⟩
  by_cases hbig : newsz.toNat ≥ KERNBASE
  · rw [if_pos hbig, wp_pure]
    exact .inl ⟨rfl, hrefl, .inl hbig⟩
  rw [if_neg hbig]
  by_cases hlt : newsz < oldsz
  · rw [if_pos hlt, wp_pure]
    exact .inr (.inl ⟨hlt, rfl, rfl⟩)
  have hle : oldsz ≤ newsz := UInt32.not_lt.mp hlt
  have hle' : oldsz.toNat ≤ newsz.toNat := UInt32.le_iff_toNat_le.mp hle
  have hpages : pagesOf oldsz ≤ pagesOf newsz := by
    unfold pagesOf
    simp only [PGSIZE]
    omega
  rw [if_neg hlt, wp_bind, toNat_PGROUNDUP (by simp only [KERNBASE] at hold; omega)]
  refine wp_post (wp_allocLoop (.refl h) le_rfl hpages (not_le.mp hbig) hno) ?_
  intro r m' hr
  cases r with
  | true =>
    rw [if_pos rfl] at hr ⊢
    rw [wp_pure]
    exact .inr (.inr ⟨hle, not_le.mp hbig, rfl, hr⟩)
  | false =>
    rw [if_neg (by simp)] at hr ⊢
    rw [wp_pure]
    exact .inl ⟨rfl, hr.1, .inr hr.2⟩

end Xv6.Vm
