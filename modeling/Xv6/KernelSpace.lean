import Xv6.PageMapping

/-!
# The kernel half of an address space

`setupkvm` makes a directory from free pages: one for the directory and 64 for its tables. What it
maps does not depend on which pages those are. If a request is refused after the first one, the pages
taken so far are in a directory that nobody knows.
-/

namespace Xv6.Vm

open Resumption ByteLayout Custody Finset Link Set

def kernelSlots : Finset ℕ := Finset.Ico 512 568 ∪ Finset.Ico 1016 1024

theorem mem_kernelSlots {i : ℕ} : i ∈ kernelSlots ↔ 512 ≤ i ∧ i < 568 ∨ 1016 ≤ i ∧ i < 1024 := by
  unfold kernelSlots
  rw [Finset.mem_union, Finset.mem_Ico, Finset.mem_Ico]

theorem card_kernelSlots : kernelSlots.card = 64 := by
  have hdis : Disjoint (Finset.Ico 512 568) (Finset.Ico 1016 1024) := by
    rw [Finset.disjoint_left]
    intro i h₁ h₂
    rw [Finset.mem_Ico] at h₁ h₂
    omega
  rw [kernelSlots, Finset.card_union_of_disjoint hdis, Nat.card_Ico, Nat.card_Ico]

variable [Link] {m m' m₁ : Mem} {d v pg : ℕ} {F S : Set ℕ} {E : Stop → Mem → Prop}

/-- The entries that `setupkvm` stores. -/
def kernelPte (v : ℕ) : Option UInt32 :=
  if 0x80000 ≤ v ∧ v < 0x80100 then some (mkPte (v - 0x80000) (PTE_W ||| PTE_P))
  else if 0x80100 ≤ v ∧ v < 0x80000 + Link.dataPage then some (mkPte (v - 0x80000) (0 ||| PTE_P))
  else if 0x80000 + Link.dataPage ≤ v ∧ v < 0x8E000 then
    some (mkPte (v - 0x80000) (PTE_W ||| PTE_P))
  else if 0xFE000 ≤ v ∧ v < 0x100000 then some (mkPte v (PTE_W ||| PTE_P))
  else none

theorem kernelPte_low (hv : v < 2 ^ 19) : kernelPte v = none := by
  unfold kernelPte
  rw [if_neg (by omega), if_neg (by omega), if_neg (by omega), if_neg (by omega)]

/-! ## Directories made from free pages -/

/-- In `m'`, directory `d` and the free list together have the pages that were free in `m`. -/
structure Opened (F : Set ℕ) (d : ℕ) (m m' : Mem) : Prop where
  head : d ∈ m.freelist
  ok : SpaceOk m' d F
  contents : ∀ pg, pg ∉ m.freelist → m'.page pg = m.page pg
  stock : m'.Stock d = { pg | pg ∈ m.freelist }

theorem Opened.grow (h : Opened F d m m₁) (hg : Grows d F S m₁ m')
    (hs : m'.Stock d = m₁.Stock d) : Opened F d m m' := by
  have hstock := hs.trans h.stock
  refine ⟨h.head, hg.ok, ?_, hstock⟩
  intro pg hpg
  have hno : ∀ a, ¬ m'.Holds d a pg := by
    intro a ha
    have : pg ∈ m'.Stock d := ⟨a, ha⟩
    rw [hstock] at this
    exact hpg this
  rw [hg.contents pg (hno (some .dir)) fun i => hno (some (.tab i)), h.contents pg hpg]

theorem PoolOk.newDir {rest : List ℕ} (h : PoolOk m F) (hl : m.freelist = d :: rest)
    (hm' : m' = (m.taken rest).setPage d .zero) :
    Opened F d m m' ∧ m'.tab d = (fun _ => none) ∧ m'.pte d = (fun _ => none) := by
  have hpage : m'.page d = .zero := by
    rw [hm']
    exact Mem.setPage_page_self
  have htab : m'.tab d = fun _ => none := by
    funext i
    unfold Mem.tab
    rw [hpage, Buffer.word_zero]
    rfl
  have hpte : m'.pte d = fun _ => none := by
    funext u
    unfold Mem.pte
    rw [htab]
    rfl
  have hlist : m'.freelist = rest := by rw [hm']; rfl
  have hmem : d ∈ m.freelist := by
    rw [hl]
    exact List.mem_cons_self
  have hrest : ∀ pg ∈ rest, pg ∈ m.freelist := by
    intro pg hpg
    rw [hl]
    exact List.mem_cons_of_mem _ hpg
  have hnodup := h.nodup
  rw [hl, List.nodup_cons] at hnodup
  have hholds : ∀ a pg, m'.Holds d a pg → a = none ∧ pg ∈ rest ∨ a = some .dir ∧ pg = d := by
    rintro (_ | _ | i | v) pg hpg
    · exact .inl ⟨rfl, hlist ▸ hpg⟩
    · exact .inr ⟨rfl, hpg⟩
    · simp only [Mem.Holds, htab] at hpg
      cases hpg
    · simp only [Mem.Holds, hpte, Option.map_none] at hpg
      cases hpg.2
  have hfree : ∀ a pg, m'.Holds d a pg → pg ∈ m.freelist := by
    intro a pg hpg
    rcases hholds a pg hpg with ⟨-, hr⟩ | ⟨-, rfl⟩
    · exact hrest pg hr
    · exact hmem
  refine ⟨⟨hmem, ⟨?_, ?_, ?_, ?_, ?_, ?_⟩, ?_, ?_⟩, htab, hpte⟩
  · rw [hlist]
    exact hnodup.2
  · intro a b pg ha hb
    rcases hholds a pg ha with ⟨rfl, hr⟩ | ⟨rfl, rfl⟩
    · rcases hholds b pg hb with ⟨rfl, -⟩ | ⟨rfl, rfl⟩
      · rfl
      · exact absurd hr hnodup.1
    · rcases hholds b pg hb with ⟨rfl, hr⟩ | ⟨rfl, -⟩
      · exact absurd hr hnodup.1
      · rfl
  · exact fun a pg hpg => h.frame pg (hfree a pg hpg)
  · exact fun a pg hpg => h.range pg (hfree a pg hpg)
  · intro u e _ he
    rw [hpte] at he
    cases he
  · rw [hm']
    exact h.single
  · intro pg hpg
    have hne : pg ≠ d := by
      rintro rfl
      exact hpg hmem
    rw [hm', Mem.setPage_page_ne hne]
    rfl
  · ext pg
    constructor
    · rintro ⟨a, ha⟩
      exact hfree a pg ha
    · intro hpg
      change pg ∈ m.freelist at hpg
      rw [hl, List.mem_cons] at hpg
      rcases hpg with rfl | hpg
      · exact ⟨some .dir, rfl⟩
      · exact ⟨none, by rw [← hlist] at hpg; exact hpg⟩

/-! ## The mappings -/

/-- On the way from the empty directory of `m`: the mappings below virtual page `lo` are in place. -/
structure Filling (d : ℕ) (F S : Set ℕ) (lo : ℕ) (m m₁ : Mem) : Prop where
  grows : Grows d F S m m₁
  pte : ∀ u, m₁.pte d u = if u < lo then kernelPte u else none
  stock : m₁.Stock d = m.Stock d
  slots : S ⊆ ↑kernelSlots

/-- An entry of `kmap` as the virtual pages from `v` to `v + n` and the pages from `pg` on; before it
nothing is mapped down to `lo`. -/
structure KmapRange (k : Kmap) (lo v n pg : ℕ) : Prop where
  lo_le : lo ≤ v
  low : 2 ^ 19 ≤ v
  high : v + n < 2 ^ 20
  phys : pg + n < 2 ^ 20
  slots : ∀ i, v / NPTENTRIES ≤ i → i ≤ (v + n) / NPTENTRIES → i ∈ kernelSlots
  virt_eq : k.virt / PGSIZE = v
  last_eq : ((k.virt + k.size - 1) % 2 ^ 32 / PGSIZE + 2 ^ 20 - v) % 2 ^ 20 = n
  phys_eq : k.physStart / PGSIZE = pg
  perm : k.perm = PTE_W ∨ k.perm = 0
  gap : ∀ u, lo ≤ u → u < v → kernelPte u = none
  entry : ∀ u, v ≤ u → u ≤ v + n → kernelPte u = some (mkPte (pg + (u - v)) (k.perm ||| PTE_P))

theorem kmapRange_io : KmapRange ⟨KERNBASE, 0, EXTMEM, PTE_W⟩ 0x80000 0x80000 255 0 where
  lo_le := le_rfl
  low := by omega
  high := by omega
  phys := by omega
  slots := by
    intro i h₁ h₂
    rw [mem_kernelSlots]
    simp only [NPTENTRIES] at h₁ h₂
    omega
  virt_eq := rfl
  last_eq := rfl
  phys_eq := rfl
  perm := .inl rfl
  gap := by omega
  entry := by
    intro u h₁ h₂
    unfold kernelPte
    rw [if_pos (by omega), Nat.zero_add]

theorem kmapRange_text : KmapRange ⟨KERNLINK, EXTMEM, Link.dataPage * PGSIZE, 0⟩ 0x80100 0x80100
    (Link.dataPage - 257) 256 := by
  have hdata := extmem_lt
  have hend := data_le
  have hlim := end_lt
  simp only [EXTMEM, PGSIZE] at hdata
  refine ⟨le_rfl, by omega, by omega, by omega, ?_, by norm_num, ?_, by norm_num, .inr rfl,
    by omega, ?_⟩
  · intro i h₁ h₂
    rw [mem_kernelSlots]
    simp only [NPTENTRIES] at h₁ h₂
    omega
  · simp only [Kmap.size, KERNLINK, KERNBASE, EXTMEM, PGSIZE]
    omega
  · intro u h₁ h₂
    unfold kernelPte
    rw [if_neg (by omega), if_pos (by omega), show 256 + (u - 0x80100) = u - 0x80000 by omega]

theorem kmapRange_data :
    KmapRange ⟨KERNBASE + Link.dataPage * PGSIZE, Link.dataPage * PGSIZE, PHYSTOP, PTE_W⟩
      (0x80000 + Link.dataPage) (0x80000 + Link.dataPage) (0xDFFF - Link.dataPage)
      Link.dataPage := by
  have hdata := extmem_lt
  have hend := data_le
  have hlim := end_lt
  simp only [EXTMEM, PGSIZE] at hdata
  refine ⟨le_rfl, by omega, by omega, by omega, ?_, ?_, ?_, ?_, .inl rfl, by omega, ?_⟩
  · intro i h₁ h₂
    rw [mem_kernelSlots]
    simp only [NPTENTRIES] at h₁ h₂
    omega
  · simp only [KERNBASE, PGSIZE]
    omega
  · simp only [Kmap.size, KERNBASE, PHYSTOP, PGSIZE]
    omega
  · simp only [PGSIZE]
    omega
  · intro u h₁ h₂
    unfold kernelPte
    rw [if_neg (by omega), if_neg (by omega), if_pos (by omega),
      show dataPage + (u - (0x80000 + dataPage)) = u - 0x80000 by omega]

theorem kmapRange_devices :
    KmapRange ⟨DEVSPACE, DEVSPACE, 0, PTE_W⟩ 0x8E000 0xFE000 0x1FFF 0xFE000 := by
  have hend := data_le
  have hlim := end_lt
  refine ⟨by omega, by omega, by omega, by omega, ?_, rfl, rfl, rfl, .inl rfl, ?_, ?_⟩
  · intro i h₁ h₂
    rw [mem_kernelSlots]
    simp only [NPTENTRIES] at h₁ h₂
    omega
  · intro u h₁ h₂
    unfold kernelPte
    rw [if_neg (by omega), if_neg (by omega), if_neg (by omega), if_neg (by omega)]
  · intro u h₁ h₂
    unfold kernelPte
    rw [if_neg (by omega), if_neg (by omega), if_neg (by omega), if_pos (by omega),
      show 0xFE000 + (u - 0xFE000) = u by omega]

section Range

variable {R : Bool → Mem → Prop} {n lo : ℕ} {k : Kmap} {ks : List Kmap}

theorem wp_mapKernel_cons (h : Filling d F S lo m m₁) (hk : KmapRange k lo v n pg)
    (hfail : ∀ m' S, Grows d F S m m' → m'.Stock d = m.Stock d → m'.Refuses →
      S ⊆ ↑kernelSlots → (∃ i ∈ kernelSlots, m'.tab d i = none) → R false m'.asked)
    (hR : ∀ m', Filling d F (S ∪ { i | v / NPTENTRIES ≤ i ∧ i ≤ (v + n) / NPTENTRIES })
      (v + n + 1) m m' → wp (mapKernel d ks) R E m') :
    wp (mapKernel d (k :: ks)) R E m₁ := by
  have hflags : k.perm.toNat < PGSIZE ∧ (k.perm ||| PTE_P) &&& PTE_U = 0 := by
    rcases hk.perm with hp | hp <;> rw [hp] <;> decide
  have hlo := hk.lo_le
  rw [mapKernel, wp_bind]
  unfold mappages
  simp only [hk.virt_eq, hk.last_eq, hk.phys_eq]
  apply wp_mapLoop_kernel h.grows.ok hk.low hk.high ?_ hk.phys hflags.1 hflags.2
  · intro m' S' hg hs href hS hno
    obtain ⟨i, h₁, h₂, hi⟩ := hno
    refine hfail m' _ (h.grows.trans hg) (hs.trans h.stock) href ?_ ⟨i, hk.slots i h₁ h₂, hi⟩
    exact union_subset h.slots fun j hj => hk.slots j (hS hj).1 (hS hj).2
  · intro m' hg hout hin hs
    refine hR m' ⟨h.grows.trans hg, ?_, hs.trans h.stock, ?_⟩
    · intro u
      by_cases hu : v ≤ u ∧ u ≤ v + n
      · rw [hin u hu.1 hu.2, if_pos (by omega), hk.entry u hu.1 hu.2]
      · rw [hout u hu, h.pte]
        by_cases hulo : u < lo
        · rw [if_pos hulo, if_pos (by omega)]
        · rw [if_neg hulo]
          by_cases huv : u < v
          · rw [if_pos (by omega), hk.gap u (by omega) huv]
          · rw [if_neg (by omega)]
    · exact union_subset h.slots fun j hj => hk.slots j hj.1 hj.2
  · intro u hu _
    rw [h.pte, if_neg (by omega)]

theorem wp_mapKernel (h : SpaceOk m d F) (hempty : ∀ u, m.pte d u = none)
    (hfail : ∀ m' S, Grows d F S m m' → m'.Stock d = m.Stock d → m'.Refuses →
      S ⊆ ↑kernelSlots → (∃ i ∈ kernelSlots, m'.tab d i = none) → R false m'.asked)
    (hR : ∀ m', Grows d F ↑kernelSlots m m' → (∀ u, m'.pte d u = kernelPte u) →
      m'.Stock d = m.Stock d → R true m') : wp (mapKernel d kmap) R E m := by
  have hdata := extmem_lt
  have hend := data_le
  have hlim := end_lt
  simp only [EXTMEM, PGSIZE] at hdata
  have h₀ : Filling d F ∅ 0x80000 m m := by
    refine ⟨.refl h fun i hi => hi.elim, ?_, rfl, empty_subset _⟩
    intro u
    rw [hempty]
    split_ifs with hu
    · exact (kernelPte_low hu).symm
    · rfl
  unfold kmap
  apply wp_mapKernel_cons h₀ kmapRange_io hfail
  intro m₁ h₁
  apply wp_mapKernel_cons h₁ kmapRange_text hfail
  intro m₂ h₂
  rw [show 0x80100 + (dataPage - 257) + 1 = 0x80000 + dataPage by omega] at h₂
  apply wp_mapKernel_cons h₂ kmapRange_data hfail
  intro m₃ h₃
  rw [show 0x80000 + dataPage + (0xDFFF - dataPage) + 1 = 0x8E000 by omega] at h₃
  apply wp_mapKernel_cons h₃ kmapRange_devices hfail
  intro m₄ h₄
  rw [mapKernel, wp_pure]
  refine hR m₄ (h₄.grows.slots_congr fun i => ?_) ?_ h₄.stock
  · rw [mem_coe, mem_kernelSlots]
    simp only [mem_union, mem_ofPred_eq, mem_empty_iff_false, false_or, NPTENTRIES]
    omega
  · intro u
    rw [h₄.pte]
    split_ifs with hu
    · rfl
    · unfold kernelPte
      rw [if_neg (by omega), if_neg (by omega), if_neg (by omega), if_neg (by omega)]

end Range

/-! ## setupkvm -/

structure Lost (F : Set ℕ) (d : ℕ) (m m' : Mem) : Prop where
  opened : Opened F d m m'
  refused : m'.Refuses
  paid : Paid m m'
  first : m.calls < m'.calls
  last : m'.calls < m.calls + 65

structure Built (F : Set ℕ) (d : ℕ) (m m' : Mem) : Prop where
  opened : Opened F d m m'
  pte : ∀ v, m'.pte d v = kernelPte v
  tables : ∀ i, (m'.tab d i).isSome ↔ i ∈ kernelSlots
  paid : Paid m m'
  calls : m'.calls = m.calls + 65

theorem wp_setupkvm {R : Option ℕ → Mem → Prop} (h : PoolOk m F)
    (hnone : m.Refuses → R none m.asked) (hfail : ∀ d m', Lost F d m m' → R none m'.asked)
    (hR : ∀ d m', Built F d m m' → R (some d) m') : wp setupkvm R E m := by
  unfold setupkvm
  rw [wp_bind]
  apply wp_kalloc
  · exact hnone
  intro d rest hl hm
  obtain ⟨ho, htab, hpte⟩ := h.newDir hl rfl
  simp only [wp_bind]
  apply wp_memset
  rw [ofBytes_zero, if_neg (by decide), wp_bind]
  have hcard : (((m.taken rest).setPage d .zero).tables d).card = 0 := by
    rw [Finset.card_eq_zero, Finset.eq_empty_iff_forall_notMem]
    intro i hi
    rw [mem_tables, htab] at hi
    cases hi
  have hpaid : Paid m ((m.taken rest).setPage d .zero) := .take hl hm rfl rfl rfl
  have hcalls : ((m.taken rest).setPage d .zero).calls = m.calls + 1 := rfl
  generalize (m.taken rest).setPage d .zero = m₁ at *
  apply wp_mapKernel ho.ok (fun u => congrFun hpte u)
  · intro m' S hg hs href hS hno
    have hlt : (m'.tables d).card < 64 := by
      obtain ⟨i, hi, hno⟩ := hno
      rw [← card_kernelSlots]
      apply Finset.card_lt_card
      refine Finset.ssubset_iff_subset_ne.mpr ⟨?_, ?_⟩
      · intro j hj
        rw [mem_tables, hg.slots, htab] at hj
        exact hS (hj.resolve_left (by simp))
      · rintro he
        rw [← he, mem_tables, hno] at hi
        cases hi
    have h₁ := hg.calls
    exact hfail d m' ⟨ho.grow hg hs, href, hpaid.trans hg.paid, by omega, by omega⟩
  · intro m' hg hpte' hs
    refine hR d m' ⟨ho.grow hg hs, hpte', ?_, hpaid.trans hg.paid, ?_⟩
    · intro i
      rw [hg.slots, htab, Finset.mem_coe]
      simp
    · have htables : m'.tables d = kernelSlots := by
        ext i
        rw [mem_tables, hg.slots, htab, Finset.mem_coe]
        simp
      have h₁ := hg.calls
      rw [htables, card_kernelSlots] at h₁
      omega

end Xv6.Vm
