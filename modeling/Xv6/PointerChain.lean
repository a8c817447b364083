import Mathlib

/-!
# Chains of pointers

`Lseg f p l q`: following `f` from `p` one meets the addresses of `l` in this order and then comes to `q`.
A circular list is a chain that comes back to its start.
-/

namespace PointerChain

open List Function

variable {α : Type} {f g : α → α} {p q a b : α} {l l' : List α}

def Lseg (f : α → α) : α → List α → α → Prop
  | p, [], q => p = q
  | p, a :: l, q => p = a ∧ Lseg f (f a) l q

theorem lseg_append : Lseg f p (l ++ l') q ↔ ∃ m, Lseg f p l m ∧ Lseg f m l' q := by
  induction l generalizing p with
  | nil => exact ⟨fun h => ⟨p, rfl, h⟩, fun ⟨m, hm, h⟩ => (show p = m from hm) ▸ h⟩
  | cons a l ih =>
    rw [cons_append]
    constructor
    · rintro ⟨rfl, h⟩
      obtain ⟨m, h₁, h₂⟩ := ih.1 h
      exact ⟨m, ⟨rfl, h₁⟩, h₂⟩
    · rintro ⟨m, ⟨rfl, h₁⟩, h₂⟩
      exact ⟨rfl, ih.2 ⟨m, h₁, h₂⟩⟩

theorem Lseg.congr (h : Lseg f p l q) (hfg : ∀ a ∈ l, g a = f a) : Lseg g p l q := by
  induction l generalizing p with
  | nil => exact h
  | cons a l ih =>
    obtain ⟨rfl, h⟩ := h
    refine ⟨rfl, ?_⟩
    rw [hfg p mem_cons_self]
    exact ih h fun a ha => hfg a (mem_cons_of_mem p ha)

theorem Lseg.next (h : Lseg f p (l ++ a :: b :: l') q) : f a = b := by
  obtain ⟨m, -, -, hb, -⟩ := lseg_append.1 h
  exact hb

theorem Lseg.last (h : Lseg f p (l ++ [a]) q) : f a = q := by
  obtain ⟨m, -, -, hq⟩ := lseg_append.1 h
  exact hq

/-- A circular list from another of its elements on. -/
theorem Lseg.rotate (h : Lseg f p (l ++ a :: l') p) : Lseg f a (a :: l' ++ l) a := by
  obtain ⟨m, h₁, h₂⟩ := lseg_append.1 h
  obtain rfl : m = a := h₂.1
  exact lseg_append.2 ⟨p, h₂, h₁⟩

/-- The successor of an element is the next one, or the start behind the last one. -/
theorem Lseg.next_eq (h : Lseg f p l p) (ha : a ∈ l) (hne : f a ≠ p) :
    ∃ l₁ l₂, l = l₁ ++ a :: f a :: l₂ := by
  obtain ⟨l₁, l₂, rfl⟩ := append_of_mem ha
  cases l₂ with
  | nil => exact (hne h.last).elim
  | cons b l₂ => exact ⟨l₁, l₂, by rw [h.next]⟩

end PointerChain
