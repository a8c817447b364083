import Mathlib

/-!
# Exclusive custody

Holders have resources, and `H a r` says that `a` has `r`. Custody is exclusive if no resource has two
holders. It stays so when resources are dropped, when one that nobody has is given to somebody, and when
two groups with different resources are put together.
-/

namespace Custody

variable {A R : Type} {H H' : A → R → Prop}

def Exclusive (H : A → R → Prop) : Prop := ∀ a b r, H a r → H b r → a = b

namespace Exclusive

theorem mono (h : Exclusive H) (hsub : ∀ a r, H' a r → H a r) : Exclusive H' := by
  intro a b r ha hb
  exact h a b r (hsub a r ha) (hsub b r hb)

/-- A resource that nobody has is given to `b`. -/
theorem give (h : Exclusive H) {b : A} {r : R} (hr : ∀ a, ¬ H a r)
    (hsub : ∀ a x, H' a x → H a x ∨ a = b ∧ x = r) : Exclusive H' := by
  intro a c x ha hc
  rcases hsub a x ha with ha | ⟨rfl, rfl⟩
  · rcases hsub c x hc with hc | ⟨rfl, rfl⟩
    · exact h a c x ha hc
    · exact absurd ha (hr a)
  · rcases hsub c x hc with hc | ⟨rfl, -⟩
    · exact absurd hc (hr c)
    · rfl

/-- Two groups of holders whose resources are on different sides of `F`. -/
theorem combine {H₁ H₂ : A → R → Prop} {F : Set R} (h₁ : Exclusive H₁) (h₂ : Exclusive H₂)
    (hout : ∀ a r, H₁ a r → r ∉ F) (hin : ∀ a r, H₂ a r → r ∈ F)
    (hsub : ∀ a r, H a r → H₁ a r ∨ H₂ a r) : Exclusive H := by
  intro a b r ha hb
  rcases hsub a r ha with ha | ha
  · rcases hsub b r hb with hb | hb
    · exact h₁ a b r ha hb
    · exact absurd (hin b r hb) (hout a r ha)
  · rcases hsub b r hb with hb | hb
    · exact absurd (hin a r ha) (hout b r hb)
    · exact h₂ a b r ha hb

end Exclusive

end Custody
