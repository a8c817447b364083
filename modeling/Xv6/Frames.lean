import Xv6.Resumption

/-!
# Frames

A computation frames a part of the state if that part is as it was whenever the computation returns.
Frames compose, so a function frames what each of its steps frames.
-/

namespace Resumption

variable {ε σ α β γ : Type} {view : σ → γ}

def Frames (view : σ → γ) (m : EStateM ε σ α) : Prop :=
  ∀ s, wp m (fun _ t => view t = view s) (fun _ _ => True) s

namespace Frames

variable {m : EStateM ε σ α}

theorem pure (a : α) : Frames view (Pure.pure a : EStateM ε σ α) := fun _ => rfl

theorem throw (e : ε) : Frames view (throw e : EStateM ε σ α) := fun _ => trivial

theorem get : Frames view (get : EStateM ε σ σ) := fun _ => rfl

theorem modify {f : σ → σ} (h : ∀ s, view (f s) = view s) :
    Frames view (modify f : EStateM ε σ PUnit) := h

theorem bind {f : α → EStateM ε σ β} (hm : Frames view m)
    (hf : ∀ a, Frames view (f a)) : Frames view (m >>= f) := by
  intro s
  rw [wp_bind]
  refine wp_post (hm s) (fun a t ht => ?_)
  exact wp_post (hf a t) (fun _ u hu => hu.trans ht)

theorem map (f : α → β) (hm : Frames view m) : Frames view (f <$> m) := by
  rw [map_eq_pure_bind]
  exact hm.bind fun a => pure (f a)

theorem forM {f : α → EStateM ε σ PUnit} (hf : ∀ a, Frames view (f a)) (l : List α) :
    Frames view (l.forM f) := by
  induction l with
  | nil => exact Frames.pure PUnit.unit
  | cons a l ih => exact (hf a).bind fun _ => ih

theorem atom (hm : Frames view m) : Frames view (Prog.atom m).run := by
  rw [Prog.run_atom]
  exact hm

theorem run_bind {p : Prog ε σ α} {f : α → Prog ε σ β} (hp : Frames view p.run)
    (hf : ∀ a, Frames view (f a).run) : Frames view (p >>= f).run := by
  rw [Prog.run_bind]
  exact hp.bind hf

end Frames

end Resumption
