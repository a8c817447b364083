import Mathlib

/-!
# Exact free maps

Resources are numbers below `hi`; those below `lo` are reserved, among them 0. A key owns at most one
resource, and `own k = 0` says that it owns none. A free map is exact if it marks as used precisely
the reserved and the owned resources, and no resource has two owners. Allocation and release keep it
exact.
-/

namespace FreeMap

open Finset

variable {K : Type} {own own' : K → ℕ} {used used' : ℕ → Bool} {lo hi : ℕ}

structure Exact (own : K → ℕ) (used : ℕ → Bool) (lo hi : ℕ) : Prop where
  pos : 0 < lo
  range : ∀ k, own k ≠ 0 → lo ≤ own k ∧ own k < hi
  inj : ∀ k k', own k ≠ 0 → own k = own k' → k = k'
  used_iff : ∀ b < hi, used b = true ↔ b < lo ∨ ∃ k, own k = b

/-- The number of resources marked free. -/
def freeCount (used : ℕ → Bool) (hi : ℕ) : ℕ := ((Finset.range hi).filter fun b => used b = false).card

theorem freeCount_alloc {b : ℕ} (hb : b < hi) (hfree : used b = false)
    (hused : ∀ c < hi, used' c = (decide (c = b) || used c)) :
    freeCount used' hi + 1 = freeCount used hi := by
  have hset : (Finset.range hi).filter (fun c => used' c = false) =
      ((Finset.range hi).filter fun c => used c = false).erase b := by
    ext c
    simp only [mem_filter, mem_range, mem_erase]
    constructor
    · rintro ⟨hc, hu⟩
      rw [hused c hc, Bool.or_eq_false_iff, decide_eq_false_iff_not] at hu
      exact ⟨hu.1, hc, hu.2⟩
    · rintro ⟨hne, hc, hu⟩
      exact ⟨hc, by rw [hused c hc, hu, decide_eq_false hne, Bool.or_self]⟩
  unfold freeCount
  rw [hset]
  apply card_erase_add_one
  simp [hb, hfree]

/-- Some resource has been taken exactly if fewer are free. -/
theorem freeCount_lt_iff (h : ∀ b < hi, used b = true → used' b = true) :
    (∃ b < hi, used b = false ∧ used' b = true) ↔ freeCount used' hi < freeCount used hi := by
  have hsub : (Finset.range hi).filter (fun b => used' b = false) ⊆
      (Finset.range hi).filter fun b => used b = false := by
    intro b hb
    simp only [mem_filter, mem_range] at hb ⊢
    refine ⟨hb.1, ?_⟩
    by_contra hu
    rw [h b hb.1 (by simpa using hu)] at hb
    exact Bool.noConfusion hb.2
  constructor
  · rintro ⟨b, hb, hu, hu'⟩
    apply card_lt_card
    refine ⟨hsub, fun hle => ?_⟩
    have := hle (show b ∈ _ by simp [hb, hu])
    simp [hu'] at this
  · intro hlt
    obtain ⟨b, hb, hb'⟩ := exists_mem_notMem_of_card_lt_card hlt
    simp only [mem_filter, mem_range] at hb hb'
    refine ⟨b, hb.1, hb.2, ?_⟩
    by_contra hu
    exact hb' ⟨hb.1, by simpa using hu⟩

/-- The map in which exactly the first `m` resources are in use. -/
theorem freeCount_of_lt {m : ℕ} (h : ∀ b < hi, used b = decide (b < m)) :
    freeCount used hi = hi - m := by
  have hset : (Finset.range hi).filter (fun b => used b = false) = Finset.Ico m hi := by
    ext b
    simp only [mem_filter, mem_range, mem_Ico]
    constructor
    · rintro ⟨hb, hu⟩
      rw [h b hb, decide_eq_false_iff_not] at hu
      omega
    · rintro ⟨hm, hb⟩
      exact ⟨hb, by rw [h b hb, decide_eq_false_iff_not]; omega⟩
  rw [freeCount, hset, Nat.card_Ico]

namespace Exact

section

variable (h : Exact own used lo hi)
include h

theorem congr (hown : ∀ k, own' k = own k)
    (hused : ∀ b < hi, used' b = used b) : Exact own' used' lo hi := by
  have : own' = own := funext hown
  subst this
  exact ⟨h.pos, h.range, h.inj, fun b hb => by rw [hused b hb]; exact h.used_iff b hb⟩

theorem used_own {k : K} (hk : own k ≠ 0) : used (own k) = true :=
  (h.used_iff _ (h.range k hk).2).mpr (.inr ⟨k, rfl⟩)

/-- A resource that is marked free is not reserved and has no owner. -/
theorem unowned {b : ℕ} (hb : b < hi) (hfree : used b = false) : lo ≤ b ∧ ∀ k, own k ≠ b := by
  have hn : ¬ (b < lo ∨ ∃ k, own k = b) := by
    rw [← h.used_iff b hb, hfree]
    exact Bool.false_ne_true
  exact ⟨Nat.le_of_not_lt fun hlt => hn (.inl hlt), fun k hk => hn (.inr ⟨k, hk⟩)⟩

end

variable [DecidableEq K]

theorem alloc (h : Exact own used lo hi) {k : K} {b : ℕ} (hb : b < hi) (hfree : used b = false)
    (hk : own k = 0) (hown : ∀ k', own' k' = if k' = k then b else own k')
    (hused : ∀ c < hi, used' c = (decide (c = b) || used c)) : Exact own' used' lo hi := by
  obtain ⟨hlo, hno⟩ := h.unowned hb hfree
  refine ⟨h.pos, ?_, ?_, ?_⟩
  · intro k' hk'
    rw [hown] at hk' ⊢
    split_ifs at hk' ⊢
    · exact ⟨hlo, hb⟩
    · exact h.range k' hk'
  · intro k₁ k₂ hne heq
    rw [hown] at hne
    rw [hown, hown] at heq
    split_ifs at hne heq with h₁ h₂ h₃
    · exact h₁.trans h₂.symm
    · exact absurd heq.symm (hno k₂)
    · exact absurd heq (hno k₁)
    · exact h.inj k₁ k₂ hne heq
  · intro c hc
    rw [hused c hc, Bool.or_eq_true, decide_eq_true_iff, h.used_iff c hc]
    constructor
    · rintro (rfl | hlt | ⟨k', rfl⟩)
      · exact .inr ⟨k, by rw [hown, if_pos rfl]⟩
      · exact .inl hlt
      · by_cases hk' : k' = k
        · rw [hk', hk]
          exact .inl h.pos
        · exact .inr ⟨k', by rw [hown, if_neg hk']⟩
    · rintro (hlt | ⟨k', hk'⟩)
      · exact .inr (.inl hlt)
      · rw [hown] at hk'
        split_ifs at hk'
        · exact .inl hk'.symm
        · exact .inr (.inr ⟨k', hk'⟩)

end Exact

end FreeMap
