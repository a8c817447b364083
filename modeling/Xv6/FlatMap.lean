import Xv6.UserMemory

/-!
# `mappages` as a flat map

What `mappages` does to an arbitrary directory, whatever it already maps: the pages of the range get
their entries, and no other page changes its translation. The loop is the source's here: it compares
rounded 32-bit addresses.
-/

namespace Xv6.Vm

open Resumption ByteLayout Function UInt32 List Nat Finset Mem

def PGROUNDDOWN (a : UInt32) : UInt32 := a &&& ~~~4095

/-- The loop of `mappages` for at most `fuel` rounds; `none` if they are not enough. -/
def mapRounds (d : ℕ) (perm last : UInt32) : ℕ → UInt32 → UInt32 → MemM (Option Bool)
  | 0, _, _ => return none
  | fuel + 1, a, pa => do
    if ← mapPage d (a.toNat / PGSIZE) (pa.toNat / PGSIZE) perm then
      if a = last then return some true
      else mapRounds d perm last fuel (a + 4096) (pa + 4096)
    else return some false

def mappagesFor (fuel d : ℕ) (va size pa perm : UInt32) : MemM (Option Bool) :=
  mapRounds d perm (PGROUNDDOWN (va + size - 1)) fuel (PGROUNDDOWN va) pa

/-- There is a free page for every table that is missing in the slots `lo` to `hi` of `d`. -/
structure Mem.Ready (m : Mem) (d lo hi : ℕ) : Prop extends m.Tree d where
  granted : ∀ j, m.refuse j = false
  supply : ((Finset.Icc lo hi).filter fun i => m.tab d i = none).card ≤ m.freelist.length

variable {m m' : Mem} {d i t v n hi pg : ℕ} {rest : List ℕ} {w perm : UInt32}
  {E : Stop → Mem → Prop}

theorem Mem.Tree.newTable (h : m.Tree d) (hl : m.freelist = t :: rest) (hi : i < 1024)
    (hnone : m.tab d i = none)
    (hm' : m' = ((m.taken rest).setPage t .zero).setWord d i (mkPte t (PTE_P ||| PTE_W ||| PTE_U))) :
    m'.Tree d ∧ m'.tab d = update (m.tab d) i (some t) ∧ m'.pte d = m.pte d := by
  obtain ⟨hlt, hdt, hno⟩ := h.free t (by rw [hl]; exact mem_cons_self)
  have hw : tableOf (mkPte t (PTE_P ||| PTE_W ||| PTE_U)) = some t := by
    unfold tableOf
    rw [mkPte_flag hlt (by decide) (by decide), if_pos (by decide), PTE_ADDR_mkPte hlt (by decide)]
  have htab₂ : ((m.taken rest).setPage t .zero).tab d = m.tab d := tab_setPage hdt
  have hpte₂ : ((m.taken rest).setPage t .zero).pte d = m.pte d := pte_setPage hdt hno
  have htab : m'.tab d = update (m.tab d) i (some t) := by
    rw [hm', tab_setWord hi, hw, htab₂]
  have hpte : m'.pte d = m.pte d := by
    rw [hm', pte_setTable hi (by rw [htab₂, hnone]) (by rw [htab₂]; exact h.dir) hw hdt.symm
      setPage_page_self, hpte₂]
  have hold : ∀ j u, m'.tab d j = some u → m.tab d j = some u ∨ j = i ∧ u = t := by
    intro j u hu
    rw [htab] at hu
    by_cases hj : j = i
    · rw [hj, update_self] at hu
      exact .inr ⟨hj, (Option.some.inj hu).symm⟩
    · rw [update_of_ne hj] at hu
      exact .inl hu
  have hnodup := h.nodup
  rw [hl, nodup_cons] at hnodup
  have hlist : m'.freelist = rest := by rw [hm']; rfl
  refine ⟨⟨by rw [hlist]; exact hnodup.2, ?_, ?_, ?_⟩, htab, hpte⟩
  · rw [hlist]
    intro pg hpg
    obtain ⟨hlt, hne, hnot⟩ := h.free pg (by rw [hl]; exact mem_cons_of_mem _ hpg)
    refine ⟨hlt, hne, fun j hj => ?_⟩
    rcases hold j pg hj with hj | ⟨-, rfl⟩
    · exact hnot j hj
    · exact hnodup.1 hpg
  · intro j hj
    rcases hold j d hj with hj | ⟨-, rfl⟩
    · exact h.dir j hj
    · exact hdt rfl
  · intro j k u hj hk
    rcases hold j u hj with hj | ⟨rfl, rfl⟩
    · rcases hold k u hk with hk | ⟨-, rfl⟩
      · exact h.inj j k u hj hk
      · exact (hno j hj).elim
    · rcases hold k u hk with hk | ⟨rfl, -⟩
      · exact (hno k hk).elim
      · rfl

theorem Mem.Ready.walk {R : Option (ℕ × ℕ) → Mem → Prop} (h : m.Ready d (v / NPTENTRIES) hi)
    (hv : v < 2 ^ 20) (hle : v / NPTENTRIES ≤ hi)
    (hR : ∀ t m', m'.Ready d (v / NPTENTRIES) hi → m'.tab d (v / NPTENTRIES) = some t →
      m'.pte d = m.pte d → R (some (t, v % NPTENTRIES)) m') : wp (walkpgdir d v true) R E m := by
  have hmem : m.tab d (v / NPTENTRIES) = none → v / NPTENTRIES ∈
      (Finset.Icc (v / NPTENTRIES) hi).filter fun i => m.tab d i = none :=
    fun ht => mem_filter.mpr ⟨mem_Icc.mpr ⟨le_rfl, hle⟩, ht⟩
  apply wp_walkpgdir_cases hv
  · exact fun t ht => hR t m h ht rfl
  · rintro ht (hr | hr)
    · rw [h.granted] at hr
      cases hr
    · have hpos := card_pos.mpr ⟨_, hmem ht⟩
      have := h.supply
      rw [hr, length_nil] at this
      omega
  · intro t rest ht hl hm
    obtain ⟨htree, htab, hpte⟩ := h.newTable hl (by simp only [NPTENTRIES]; omega) ht rfl
    have hself := congrFun htab (v / NPTENTRIES)
    rw [update_self] at hself
    refine hR t _ ⟨htree, h.granted, ?_⟩ hself hpte
    -- the slot is no longer among the missing ones
    have hsub : ((Finset.Icc (v / NPTENTRIES) hi).filter fun i =>
        update (m.tab d) (v / NPTENTRIES) (some t) i = none) =
        ((Finset.Icc (v / NPTENTRIES) hi).filter fun i => m.tab d i = none).erase (v / NPTENTRIES) := by
      ext i
      by_cases hi : i = v / NPTENTRIES <;> simp [hi]
    have hs := h.supply
    rw [hl, length_cons] at hs
    change _ ≤ rest.length
    rw [htab, hsub, card_erase_of_mem (hmem ht)]
    omega

theorem Mem.Ready.store {lo : ℕ} (h : m.Ready d lo hi) (ht : m.tab d (v / NPTENTRIES) = some t) :
    (m.setWord t (v % NPTENTRIES) w).Ready d lo hi ∧
      (m.setWord t (v % NPTENTRIES) w).pte d = update (m.pte d) v (present w) := by
  have htab : (m.setWord t (v % NPTENTRIES) w).tab d = m.tab d := h.tab_store ht
  refine ⟨⟨⟨h.nodup, ?_, ?_, ?_⟩, h.granted, ?_⟩, h.pte_store ht⟩
  · rw [htab]
    exact h.free
  · rw [htab]
    exact h.dir
  · rw [htab]
    exact h.inj
  · rw [htab]
    exact h.supply

theorem Mem.Ready.mapPage {R : Bool → Mem → Prop} (h : m.Ready d (v / NPTENTRIES) hi)
    (hv : v < 2 ^ 20) (hle : v / NPTENTRIES ≤ hi) (hnone : m.pte d v = none)
    (hR : ∀ m', m'.Ready d (v / NPTENTRIES) hi →
      m'.pte d = update (m.pte d) v (some (mkPte pg (perm ||| PTE_P))) → R true m') :
    wp (mapPage d v pg perm) R E m := by
  apply wp_mapPage_of
  apply h.walk hv hle
  intro t m₁ h₁ ht hpte
  refine ⟨nofun, fun _ _ he => ?_⟩
  cases he
  obtain ⟨h₂, hpte₂⟩ := h₁.store (w := mkPte pg (perm ||| PTE_P)) ht
  rw [present_or, hpte] at hpte₂
  exact ⟨ht, rfl, by rw [hpte, hnone], hR _ h₂ hpte₂⟩

theorem toNat_PGROUNDDOWN (a : UInt32) : (PGROUNDDOWN a).toNat = a.toNat / PGSIZE * PGSIZE := by
  unfold PGROUNDDOWN
  rw [UInt32.toNat_and]
  exact and_high (show 12 ≤ 32 by decide) a.toNat_lt

/-- The entry for page `i` of a range that is mapped to `pa`. -/
def entry (pa perm : UInt32) (i : ℕ) : UInt32 := pa + UInt32.ofNat (i * PGSIZE) ||| (perm ||| PTE_P)

theorem mkPte_page {pa : UInt32} (hpa : pa.toNat % PGSIZE = 0) (w : UInt32) :
    mkPte (pa.toNat / PGSIZE) w = pa ||| w := by
  rw [mkPte, Nat.div_mul_cancel (Nat.dvd_of_mod_eq_zero hpa), UInt32.ofNat_toNat]

theorem entry_succ (pa perm : UInt32) (i : ℕ) : entry (pa + 4096) perm i = entry pa perm (i + 1) := by
  unfold entry
  rw [Nat.add_mul, UInt32.ofNat_add, Nat.one_mul, UInt32.add_comm (UInt32.ofNat (i * PGSIZE)),
    ← UInt32.add_assoc]
  rfl

theorem Mem.Ready.mapRounds (perm : UInt32) {a last pa : UInt32} {fuel : ℕ}
    (h : m.Ready d (v / NPTENTRIES) ((v + n) / NPTENTRIES)) (hn : n < fuel) (hv : v + n < 2 ^ 20)
    (ha : a.toNat = v * PGSIZE) (hlast : last.toNat = (v + n) * PGSIZE)
    (hpa : pa.toNat % PGSIZE = 0) (hnone : ∀ u, v ≤ u → u ≤ v + n → m.pte d u = none) :
    wp (mapRounds d perm last fuel a pa) (fun r m' => r = some true ∧ m'.Tree d ∧ ∀ u, m'.pte d u =
      if v ≤ u ∧ u ≤ v + n then some (entry pa perm (u - v)) else m.pte d u) E m := by
  induction fuel generalizing m v a pa n with
  | zero => exact absurd hn (Nat.not_lt_zero n)
  | succ fuel ih =>
    have hle : ∀ k, v / NPTENTRIES ≤ (v + k) / NPTENTRIES :=
      fun k => Nat.div_le_div_right (Nat.le_add_right v k)
    unfold Vm.mapRounds
    rw [wp_bind, ha, Nat.mul_div_cancel _ (by decide)]
    apply h.mapPage (by omega) (hle n) (hnone v le_rfl (by omega))
    intro m₁ h₁ hpte
    rw [mkPte_page hpa] at hpte
    rw [if_pos rfl]
    cases n with
    | zero =>
      rw [if_pos (by rw [← UInt32.toNat_inj, ha, hlast, Nat.add_zero]), wp_pure]
      refine ⟨rfl, h₁.toTree, fun u => ?_⟩
      rw [hpte]
      by_cases hu : u = v
      · simp [hu, entry]
      · rw [update_of_ne hu, if_neg (by omega)]
    | succ n =>
      have hne : a ≠ last := by
        rintro rfl
        simp only [PGSIZE] at ha hlast
        omega
      have hsum : v + (n + 1) = v + 1 + n := by omega
      rw [if_neg hne]
      rw [hsum] at h₁ hv hlast hnone ⊢
      have hready : m₁.Ready d ((v + 1) / NPTENTRIES) ((v + 1 + n) / NPTENTRIES) := by
        refine ⟨h₁.toTree, h₁.granted, le_trans (Finset.card_le_card ?_) h₁.supply⟩
        exact Finset.filter_subset_filter _ (Finset.Icc_subset_Icc_left (hle 1))
      have ha₁ : (a + 4096).toNat = (v + 1) * PGSIZE := by
        rw [UInt32.toNat_add, ha]
        simp only [PGSIZE, UInt32.reduceToNat]
        omega
      have hpa₁ : (pa + 4096).toNat % PGSIZE = 0 := by
        rw [UInt32.toNat_add]
        simp only [PGSIZE, UInt32.reduceToNat] at hpa ⊢
        omega
      refine wp_post (ih hready (by omega) hv ha₁ hlast hpa₁ fun u hlo hhi => ?_) ?_
      · rw [hpte, update_of_ne (by omega)]
        exact hnone u (by omega) hhi
      rintro r m' ⟨hr, htree, hafter⟩
      refine ⟨hr, htree, fun u => ?_⟩
      rw [hafter, hpte, entry_succ]
      by_cases hu : u = v
      · rw [hu, update_self, if_neg (by omega), if_pos (by omega)]
        simp [entry]
      · rw [update_of_ne hu]
        by_cases hin : v + 1 ≤ u ∧ u ≤ v + 1 + n
        · rw [if_pos hin, if_pos (by omega), show u - (v + 1) + 1 = u - v by omega]
        · rw [if_neg hin, if_neg (by omega)]

/-- `mappages` maps the pages from that of `va` to that of the last byte to `pa` and the pages behind it,
and leaves all others as they are. The range may end at `2 ^ 32`. -/
theorem mappages_flat {va size pa perm : UInt32} {fuel : ℕ} (hsize : 0 < size.toNat)
    (hend : va.toNat + size.toNat ≤ 2 ^ 32) (hpa : pa.toNat % PGSIZE = 0)
    (h : m.Ready d (va.toNat / PGSIZE / NPTENTRIES)
      ((va.toNat + size.toNat - 1) / PGSIZE / NPTENTRIES))
    (hnone : ∀ u, va.toNat / PGSIZE ≤ u → u ≤ (va.toNat + size.toNat - 1) / PGSIZE → m.pte d u = none)
    (hfuel : 2 ^ 20 ≤ fuel) :
    ∃ m', mappagesFor fuel d va size pa perm m = .ok (some true) m' ∧ m'.Tree d ∧
      (∀ u, m'.pte d u =
        if va.toNat / PGSIZE ≤ u ∧ u ≤ (va.toNat + size.toNat - 1) / PGSIZE then
          some (entry pa perm (u - va.toNat / PGSIZE))
        else m.pte d u) ∧
      (perm.toNat < PGSIZE → ∀ i, PTE_FLAGS (entry pa perm i) = perm ||| PTE_P ∧
        PTE_ADDR (entry pa perm i) * PGSIZE = (pa + UInt32.ofNat (i * PGSIZE)).toNat) := by
  obtain ⟨n, hn⟩ : ∃ n, (va.toNat + size.toNat - 1) / PGSIZE = va.toNat / PGSIZE + n :=
    Nat.exists_eq_add_of_le (Nat.div_le_div_right (by omega))
  have hlast : (PGROUNDDOWN (va + size - 1)).toNat = (va.toNat / PGSIZE + n) * PGSIZE := by
    have hsub : (va + size - 1).toNat = va.toNat + size.toNat - 1 := by
      rw [UInt32.toNat_sub, UInt32.toNat_add]
      simp only [UInt32.reduceToNat]
      omega
    rw [toNat_PGROUNDDOWN, hsub, hn]
  rw [hn] at h hnone ⊢
  have hv : va.toNat / PGSIZE + n < 2 ^ 20 := by
    rw [← hn]
    simp only [PGSIZE]
    omega
  obtain ⟨r, m', hrun, rfl, htree, hpte⟩ := wp_exists_ok
    (h.mapRounds perm ((Nat.le_add_left n _).trans_lt (hv.trans_le hfuel)) hv (toNat_PGROUNDDOWN va) hlast hpa hnone)
  refine ⟨m', hrun, htree, hpte, fun hperm i => ?_⟩
  have hpage : (pa + UInt32.ofNat (i * PGSIZE)).toNat % PGSIZE = 0 := by
    rw [UInt32.toNat_add, UInt32.toNat_ofNat']
    simp only [PGSIZE] at hpa ⊢
    omega
  have hlt := or_PTE_P_lt hperm
  have hpg : (pa + UInt32.ofNat (i * PGSIZE)).toNat / PGSIZE < 2 ^ 20 :=
    Nat.div_lt_of_lt_mul (UInt32.toNat_lt _)
  rw [entry, ← mkPte_page hpage, PTE_FLAGS_mkPte hpg hlt, PTE_ADDR_mkPte hpg hlt]
  exact ⟨rfl, Nat.div_mul_cancel (Nat.dvd_of_mod_eq_zero hpage)⟩

/-- The last page of the address space, in a directory without tables. -/
theorem mappages_flat_last : ∃ m', mappagesFor (2 ^ 20) 0 0xFFFFF000 4096 0x1000 PTE_W
    ⟨fun _ => .zero, [1], 0, fun _ => false, false⟩ = .ok (some true) m' ∧
    m'.pte 0 0xFFFFF = some 0x1003 := by
  have htab : ∀ i, tab ⟨fun _ => .zero, [1], 0, fun _ => false, false⟩ 0 i = none := by
    intro i
    rw [tab, Buffer.word_zero]
    rfl
  obtain ⟨m', hrun, -, hpte, -⟩ := @mappages_flat ⟨fun _ => .zero, [1], 0, fun _ => false, false⟩
    0 0xFFFFF000 4096 0x1000 PTE_W (2 ^ 20) (by decide) (by decide) (by decide)
    ⟨⟨nodup_singleton 1, by simp [htab], by simp [htab], by simp [htab]⟩, fun _ => rfl,
      (card_filter_le _ _).trans (by decide)⟩
    (fun u _ _ => by rw [pte, htab]; rfl) le_rfl
  refine ⟨m', hrun, ?_⟩
  rw [hpte]
  decide

end Xv6.Vm
