import Xv6.UserAlloc

/-!
# Copying an address space

`copyuvm` reads the directory of the parent while it fills a new one. If it fails, the number of the
request that was refused decides whether pages are lost: those of a directory that `setupkvm` could
not finish, and a page that was copied but for which no table could be had.
-/

namespace Xv6.Vm

open Resumption ByteLayout Custody Nat Finset Set

section Requests

variable {m m₁ : Mem} {k n : ℕ}

/-- Counted from `m` on, the requests before number `k` are granted and number `k` is refused. -/
structure Mem.FirstRefused (m : Mem) (k : ℕ) : Prop where
  granted : ∀ j < k, m.refuse (m.calls + j) = false ∧ j < m.freelist.length
  refused : m.refuse (m.calls + k) = true ∨ m.freelist.length ≤ k

theorem Paid.firstRefused (h : Paid m m₁) (hr : m₁.Refuses) (hk : m₁.calls = m.calls + k) :
    m.FirstRefused k := by
  have hspent := h.spent
  refine ⟨fun j hj => ⟨h.granted _ (by omega) (by omega), by omega⟩, ?_⟩
  rcases hr with hr | hr
  · left
    rw [← hk, ← h.refuse]
    exact hr
  · right
    rw [hr, List.length_nil] at hspent
    omega

theorem Mem.FirstRefused.le (hk : m.FirstRefused k) (h : Paid m m₁) (hn : m₁.calls = m.calls + n) :
    n ≤ k := by
  by_contra hlt
  have hspent := h.spent
  rcases hk.refused with hr | hr
  · rw [h.granted _ (by omega) (by omega)] at hr
    cases hr
  · omega

theorem Mem.FirstRefused.unique {k' : ℕ} (hk : m.FirstRefused k) (hk' : m.FirstRefused k') :
    k = k' := by
  rcases lt_trichotomy k k' with hlt | heq | hlt
  · obtain ⟨hg, hl⟩ := hk'.granted k hlt
    rcases hk.refused with hr | hr
    · rw [hg] at hr
      cases hr
    · omega
  · exact heq
  · obtain ⟨hg, hl⟩ := hk.granted k' hlt
    rcases hk'.refused with hr | hr
    · rw [hg] at hr
      cases hr
    · omega

theorem Mem.FirstRefused.succ {pg : ℕ} {rest : List ℕ} {m' : Mem} (hl : m.freelist = pg :: rest)
    (hm : ¬ m.Refuses) (hrefuse : m'.refuse = m.refuse) (hfree : m'.freelist = rest)
    (hcalls : m'.calls = m.calls + 1) : m'.FirstRefused k ↔ m.FirstRefused (k + 1) := by
  have hlen : m.freelist.length = m'.freelist.length + 1 := by rw [hl, hfree, List.length_cons]
  have hzero : m.refuse m.calls = false := Bool.eq_false_iff.mpr fun hr => hm (.inl hr)
  have hshift : ∀ j, m'.refuse (m'.calls + j) = m.refuse (m.calls + (j + 1)) := by
    intro j
    rw [hrefuse, hcalls, add_assoc, add_comm 1 j]
  constructor
  · rintro ⟨hg, hr⟩
    refine ⟨?_, ?_⟩
    · rintro (_ | j) hj
      · exact ⟨hzero, by omega⟩
      · obtain ⟨h₁, h₂⟩ := hg j (by omega)
        exact ⟨(hshift j).symm.trans h₁, by omega⟩
    · rcases hr with hr | hr
      · exact .inl ((hshift k).symm.trans hr)
      · exact .inr (by omega)
  · rintro ⟨hg, hr⟩
    refine ⟨?_, ?_⟩
    · intro j hj
      obtain ⟨h₁, h₂⟩ := hg (j + 1) (by omega)
      exact ⟨(hshift j).trans h₁, by omega⟩
    · rcases hr with hr | hr
      · exact .inl ((hshift k).trans hr)
      · exact .inr (by omega)

end Requests

/-! ## Directories that stay as they are -/

/-- The pages of directory `d`. -/
def Mem.Pages (m : Mem) (d : ℕ) : Set ℕ := { pg | ∃ a, m.Holds d (some a) pg }

section Frame

variable {m m' : Mem} {d : ℕ}

theorem tab_pte_congr (hd : m'.page d = m.page d)
    (ht : ∀ i t, m.tab d i = some t → m'.page t = m.page t) :
    m'.tab d = m.tab d ∧ m'.pte d = m.pte d := by
  have htab : m'.tab d = m.tab d := by
    funext i
    unfold Mem.tab
    rw [hd]
  refine ⟨htab, ?_⟩
  funext v
  unfold Mem.pte
  rw [htab]
  cases hv : m.tab d (v / NPTENTRIES) with
  | none => rfl
  | some t => simp only [Option.bind_some, ht _ t hv]

theorem tab_pte_of_pages (h : ∀ pg ∈ m.Pages d, m'.page pg = m.page pg) :
    m'.tab d = m.tab d ∧ m'.pte d = m.pte d :=
  tab_pte_congr (h d ⟨.dir, rfl⟩) fun i t ht => h t ⟨.tab i, ht⟩

end Frame

variable [Link] {m m' m₁ m₂ : Mem} {d src v n : ℕ} {F : Set ℕ} {E : Stop → Mem → Prop}

/-! ## The loop of copyuvm -/

def CopyOf (m : Mem) (src u : ℕ) (perm : UInt32) (x : Page) : Prop :=
  ∃ e, m.pte src u = some e ∧ perm = PTE_FLAGS e ∧ x = m.page (PTE_ADDR e)

/-- The loop has failed in `m'`: with the pages below `v` copied, no page was left for the next one,
or there was one but no table for it. -/
inductive CopyFailed (m : Mem) (src d : ℕ) (F : Set ℕ) (n : ℕ) (m₁ m' : Mem) : Prop
  | page {m₂ : Mem} {v : ℕ} (hv : v < n) (hg : Gains (CopyOf m src) d F 0 v m₁ m₂)
      (hr : m₂.Refuses) (hm' : m' = m₂.asked)
  | table {m₂ : Mem} {v pg : ℕ} {rest : List ℕ} {x : Page} (hv : v < n)
      (hg : Gains (CopyOf m src) d F 0 v m₁ m₂) (hl : m₂.freelist = pg :: rest)
      (hm : ¬ m₂.Refuses) (ht : m₂.tab d (v / NPTENTRIES) = none)
      (hr : ((m₂.taken rest).setPage pg x).Refuses)
      (hm' : m' = ((m₂.taken rest).setPage pg x).asked)

variable {lost : Prop} {New : ℕ → UInt32 → Page → Prop}

theorem wp_copyLoop (hsrc : ∀ pg ∈ m.Pages src, pg ∈ F) (hF : ∀ pg ∈ F, m₁.page pg = m.page pg)
    (hout : ∀ pg ∈ F, pg ∉ m₁.Stock d) (hn : n ≤ 2 ^ 19) (hpres : ∀ u < n, m.pte src u ≠ none)
    (hno : ∀ u < 2 ^ 19, m₁.pte d u = none) (hg : Gains (CopyOf m src) d F 0 v m₁ m₂) (hv : v ≤ n) :
    wp (copyLoop src d n v) (fun r m' =>
      if r then Gains (CopyOf m src) d F 0 n m₁ m' else CopyFailed m src d F n m₁ m') E m₂ := by
  generalize hk : n - v = k
  induction k generalizing v m₂ with
  | zero =>
    obtain rfl : v = n := by omega
    rw [copyLoop, if_neg (by omega), wp_pure, if_pos rfl]
    exact hg
  | succ k ih =>
    have hlt : v < n := by omega
    have hsame : ∀ pg ∈ F, m₂.page pg = m.page pg := by
      intro pg hpg
      rw [hg.contents pg (hout pg hpg), hF pg hpg]
    obtain ⟨htab, hpte⟩ := tab_pte_of_pages fun pg hpg => hsame pg (hsrc pg hpg)
    obtain ⟨e, he⟩ := Option.ne_none_iff_exists'.mp (hpres v hlt)
    obtain ⟨t, ht, hword, hp⟩ := Mem.pte_eq_some he
    have hwt : m₂.page t = m.page t := hsame t (hsrc t ⟨.tab _, ht⟩)
    have hpage : m₂.page (PTE_ADDR e) = m.page (PTE_ADDR e) := by
      refine hsame _ (hsrc _ ⟨.user v, by omega, ?_⟩)
      rw [he]
      rfl
    rw [copyLoop, if_pos hlt, wp_bind]
    apply wp_walkpgdir_read (by omega)
    rw [htab, ht]
    simp only [Option.map_some, word, wp_bind, wp_get, wp_pure]
    rw [hwt, ← hword, if_neg hp, wp_bind]
    apply wp_kalloc
    · intro hr
      rw [wp_pure, if_neg (by simp)]
      exact .page hlt hg hr rfl
    · intro pg rest hl hm
      rw [wp_bind, wp_modify, wp_bind]
      have hx : (m₂.taken rest).page (PTE_ADDR e) = m.page (PTE_ADDR e) := hpage
      rw [hx]
      apply hg.map hl hm (zero_le v) (by omega)
      · rw [hg.same v (by omega), hno v (by omega)]
      · exact PTE_FLAGS_lt e
      · exact ⟨e, he, rfl, rfl⟩
      · intro htn hr
        rw [if_neg (by simp), wp_pure, if_neg (by simp)]
        exact .table hlt hg hl hm htn hr rfl
      · intro m' hg' _
        rw [if_pos rfl]
        exact ih hg' (by omega) (by omega)

/-! ## Failure -/

/-- Request `k` was refused and the call has returned; pages are lost if and only if `lost`. -/
structure Declined (F : Set ℕ) (lost : Prop) (k : ℕ) (m m' : Mem) : Prop where
  first : m.FirstRefused k
  pool : PoolOk m' F
  contents : ∀ pg, pg ∉ m.freelist → m'.page pg = m.page pg
  sub : ∀ pg ∈ m'.freelist, pg ∈ m.freelist
  back : (∀ pg ∈ m.freelist, pg ∈ m'.freelist) ↔ ¬ lost

/-- The refused requests with which `setupkvm` loses pages. -/
def SetupLoses (k : ℕ) : Prop := 1 ≤ k ∧ k ≤ 64

/-- The refused requests with which `copyuvm` loses pages, for `n` user pages: those for the kernel's
tables and those for the parent's. -/
def CopyLoses (n k : ℕ) : Prop := SetupLoses k ∨ ∃ q, q * NPTENTRIES < n ∧ k = 66 + 1025 * q

theorem PoolOk.asked (h : PoolOk m F) : PoolOk m.asked F := ⟨h.nodup, h.frame, h.range, h.single⟩

theorem Opened.free_sub (h : Opened F d m m') : ∀ pg ∈ m'.freelist, pg ∈ m.freelist := by
  intro pg hpg
  have hst : pg ∈ m'.Stock d := ⟨none, hpg⟩
  rw [h.stock] at hst
  exact hst

theorem Declined.dir (h : PoolOk m F) (hr : m.Refuses) (hlost : ¬ lost) :
    Declined F lost 0 m m.asked := by
  refine ⟨Paid.firstRefused (.refl m) hr rfl, h.asked, fun _ _ => rfl, fun _ hp => hp, ?_⟩
  exact ⟨fun _ => hlost, fun _ _ hp => hp⟩

theorem Lost.declined (h : Lost F d m m₁) (hlost : lost) :
    Declined F lost (m₁.calls - m.calls) m m₁.asked := by
  have hlt := h.first
  refine ⟨h.paid.firstRefused h.refused (by omega), h.opened.ok.pool.asked, h.opened.contents,
    h.opened.free_sub, ?_⟩
  refine ⟨fun hall => ?_, fun hno => (hno hlost).elim⟩
  have hd : d ∈ m₁.freelist := hall d h.opened.head
  cases h.opened.ok.excl none (some .dir) d hd rfl

theorem Freed.back (ho : Opened F d m m₁) (hf : Freed d F m₁ m') :
    PoolOk m' F ∧ (∀ pg, pg ∉ m.freelist → m'.page pg = m.page pg) ∧
      ∀ pg, pg ∈ m'.freelist ↔ pg ∈ m.freelist := by
  have hfree : ∀ pg, pg ∈ m'.freelist ↔ pg ∈ m.freelist := by
    intro pg
    have hset := hf.stock.trans ho.stock
    exact Set.ext_iff.mp hset pg
  refine ⟨hf.pool, ?_, hfree⟩
  intro pg hpg
  rw [hf.contents pg (by rwa [hfree]), ho.contents pg hpg]

theorem Gains.opened {lo hi : ℕ} (ho : Opened F d m m₁)
    (hg : Gains New d F lo hi m₁ m₂) : Opened F d m m₂ := by
  refine ⟨ho.head, hg.ok, ?_, hg.stock.trans ho.stock⟩
  intro pg hpg
  have hst : pg ∉ m₁.Stock d := by
    rw [ho.stock]
    exact hpg
  rw [hg.contents pg hst, ho.contents pg hpg]

theorem Built.card_tables (hb : Built F d m m₁) (hg : Gains New d F 0 v m₁ m₂) (hv : v ≤ 2 ^ 19) :
    m₂.calls = m.calls + (65 + v + (v + 1023) / 1024) := by
  have h₁ : m₁.tables d = kernelSlots := by
    ext i
    rw [mem_tables, hb.tables]
  have h₂ : m₂.tables d = kernelSlots ∪ Finset.range ((v + 1023) / 1024) := by
    ext i
    rw [mem_tables, hg.slots, hb.tables, Finset.mem_union, Finset.mem_range]
    apply or_congr_right
    constructor
    · rintro ⟨u, -, hu, rfl⟩
      simp only [NPTENTRIES]
      omega
    · intro hi
      exact ⟨i * 1024, Nat.zero_le _, by omega, Nat.mul_div_cancel i (by decide)⟩
  have hdis : Disjoint kernelSlots (Finset.range ((v + 1023) / 1024)) := by
    rw [Finset.disjoint_left]
    intro i hi hi'
    rw [mem_kernelSlots] at hi
    rw [Finset.mem_range] at hi'
    omega
  have hcalls := hg.calls
  have hbuilt := hb.calls
  rw [h₁, h₂, Finset.card_union_of_disjoint hdis, card_kernelSlots, Finset.card_range] at hcalls
  omega

section Failed

variable {New : ℕ → UInt32 → Page → Prop} (hb : Built F d m m₁) (hg : Gains New d F 0 v m₁ m₂)
include hb hg

theorem Built.segment : m₂.Segment d 0 := by
  apply hg.segment
  intro u _ hu
  rw [hb.pte, kernelPte_low hu]

variable (hvn : v < n) (hn : n ≤ 2 ^ 19)
include hvn hn

theorem Built.page_refused (hr : m₂.Refuses) (hf : Freed d F m₂.asked m') :
    ∃ k ≤ 66 + 2 * n, Declined F (CopyLoses n k) k m m' := by
  have hk := hb.card_tables hg (by omega)
  have ho : Opened F d m m₂ := hg.opened hb.opened
  have ho' : Opened F d m m₂.asked := ⟨ho.head, ho.ok.congr rfl rfl rfl rfl, ho.contents, ho.stock⟩
  obtain ⟨hpool, hcont, hfree⟩ := hf.back ho'
  refine ⟨_, by omega, (hb.paid.trans hg.paid).firstRefused hr hk, hpool, hcont, fun pg => (hfree pg).mp, ?_⟩
  refine ⟨fun _ => ?_, fun _ pg => (hfree pg).mpr⟩
  rintro (⟨-, h₂⟩ | ⟨q, -, hq⟩) <;> omega

theorem Built.table_refused {pg : ℕ} {rest : List ℕ} {x : Page} (hl : m₂.freelist = pg :: rest)
    (hm : ¬ m₂.Refuses) (ht : m₂.tab d (v / NPTENTRIES) = none)
    (hr : ((m₂.taken rest).setPage pg x).Refuses)
    (hf : Freed d (insert pg F) ((m₂.taken rest).setPage pg x).asked m') :
    ∃ k ≤ 66 + 2 * n, Declined F (CopyLoses n k) k m m' := by
  have hk := hb.card_tables hg (by omega)
  have ho : Opened F d m m₂ := hg.opened hb.opened
  obtain ⟨-, -, -, hstock⟩ := ho.ok.filled hl (x := x)
  have hstock' : m₂.Stock d = insert pg { q | q ∈ m'.freelist } := by
    rw [hstock, hf.stock]
    rfl
  rw [ho.stock] at hstock'
  have hpg : pg ∈ m.freelist := by
    have : pg ∈ { q | q ∈ m.freelist } := by
      rw [hstock']
      exact mem_insert pg _
    exact this
  have hsub : ∀ q ∈ m'.freelist, q ∈ m.freelist := by
    intro q hq
    have : q ∈ { q | q ∈ m.freelist } := by
      rw [hstock']
      exact mem_insert_of_mem _ hq
    exact this
  have hpaid : Paid m ((m₂.taken rest).setPage pg x) :=
    (hb.paid.trans hg.paid).trans (.take hl hm rfl rfl rfl)
  -- the table is missing because `v` is the first page that needs it
  have hv : v = v / 1024 * 1024 := by
    by_contra hne
    have hslot := hg.slots (v / NPTENTRIES)
    rw [ht] at hslot
    have : ∃ u, 0 ≤ u ∧ u < v ∧ u / NPTENTRIES = v / NPTENTRIES := by
      refine ⟨v - 1, zero_le _, by omega, ?_⟩
      simp only [NPTENTRIES]
      omega
    cases hslot.mpr (.inr this)
  have hcalls : ((m₂.taken rest).setPage pg x).calls = m.calls + (66 + 1025 * (v / 1024)) := by
    change m₂.calls + 1 = _
    omega
  refine ⟨_, by omega, hpaid.firstRefused hr hcalls, hf.pool.mono (subset_insert pg F), ?_,
    hsub, ?_⟩
  · intro q hq
    have hne : q ≠ pg := by
      rintro rfl
      exact hq hpg
    rw [hf.contents q fun hq' => hq (hsub q hq'), ← ho.contents q hq]
    exact Mem.setPage_page_ne hne
  · refine ⟨fun hall => ?_, fun hno => (hno (.inr ⟨v / 1024, ?_, rfl⟩)).elim⟩
    · exact (hf.pool.frame pg (hall pg hpg) (mem_insert pg F)).elim
    · simp only [NPTENTRIES]
      omega

end Failed

theorem wp_freevm_copyFailed (hb : Built F d m m₁) (hn : n ≤ 2 ^ 19)
    (hc : CopyFailed m src d F n m₁ m₂) :
    wp (freevm (some d)) (fun _ m' => ∃ k ≤ 66 + 2 * n, Declined F (CopyLoses n k) k m m') E m₂ := by
  cases hc with
  | @page m₃ v hv hg hr hm' =>
    subst hm'
    have hok : SpaceOk m₃.asked d F := hg.ok.congr rfl rfl rfl rfl
    have hseg₃ : m₃.Segment d 0 := hb.segment hg
    have hseg : m₃.asked.Segment d 0 := hseg₃
    refine wp_post (wp_freevm hok hseg) ?_
    exact fun _ m' hf => hb.page_refused hg hv hn hr hf
  | @table m₃ v pg rest x hv hg hl hm ht hr hm' =>
    subst hm'
    obtain ⟨hok, -, hpte, -⟩ := hg.ok.filled hl (x := x)
    have hok' : SpaceOk ((m₃.taken rest).setPage pg x).asked d (insert pg F) :=
      hok.congr rfl rfl rfl rfl
    have hseg : ((m₃.taken rest).setPage pg x).asked.Segment d 0 := by
      intro a b hb' hab ha hpa
      have hp : ((m₃.taken rest).setPage pg x).asked.pte d = m₃.pte d := hpte
      rw [hp] at hpa ⊢
      exact hb.segment hg a b hb' hab ha hpa
    refine wp_post (wp_freevm hok' hseg) ?_
    exact fun _ m' hf => hb.table_refused hg hv hn hl hm ht hr hf

theorem wp_copyuvm {sz : UInt32} (h : PoolOk m F) (hsrc : ∀ pg ∈ m.Pages src, pg ∈ F)
    (hn : pagesOf sz ≤ 2 ^ 19) (hpres : ∀ u < pagesOf sz, m.pte src u ≠ none) :
    wp (copyuvm src sz) (fun r m' =>
      match r with
      | none => ∃ k ≤ 66 + 2 * pagesOf sz, Declined F (CopyLoses (pagesOf sz) k) k m m'
      | some d => ∃ m₁, Built F d m m₁ ∧ Gains (CopyOf m src) d F 0 (pagesOf sz) m₁ m') E m := by
  unfold copyuvm
  generalize pagesOf sz = n at *
  rw [wp_bind]
  apply wp_setupkvm h
  · intro hr
    rw [wp_pure]
    refine ⟨0, by omega, .dir h hr ?_⟩
    rintro (⟨h₁, -⟩ | ⟨q, -, hq⟩) <;> omega
  · intro d m₁ hl
    rw [wp_pure]
    have h₁ := hl.first
    have h₂ := hl.last
    exact ⟨_, by omega, hl.declined (.inl ⟨by omega, by omega⟩)⟩
  · intro d m₁ hb
    have hout : ∀ pg ∈ F, pg ∉ m.freelist := fun pg hpg hf => h.frame pg hf hpg
    have hloop := wp_copyLoop (E := E) hsrc (fun pg hpg => hb.opened.contents pg (hout pg hpg))
      (fun pg hpg => by rw [hb.opened.stock]; exact hout pg hpg) hn hpres
      (fun u hu => by rw [hb.pte, kernelPte_low hu]) (.refl hb.opened.ok) (zero_le n)
    rw [wp_bind]
    refine wp_post hloop ?_
    intro r m₂ hr
    cases r with
    | true =>
      rw [if_pos rfl] at hr ⊢
      rw [wp_pure]
      exact ⟨m₁, hb, hr⟩
    | false =>
      rw [if_neg (by simp)] at hr ⊢
      rw [wp_bind]
      refine wp_post (wp_freevm_copyFailed hb hn hr) ?_
      intro _ m' hd
      rw [wp_pure]
      exact hd

end Xv6.Vm
