import Mathlib

/-!
# Resumption programs over a shared state

A program is a tree of atomic steps: each step is a stateful computation that may stop with an
error, and the rest of the program continues from its result. The same tree is read in three ways.
`run` executes it without interruption, `Steps` stops it after any prefix of its steps, and
`Interleave` runs a family of such trees on one state in any order.

`wp` is the weakest precondition of a single atomic step. `Safe` is the proof rule for
interleavings: every thread keeps a private annotation, and a step may use and must restore an
invariant that relates all annotations to the shared state.
-/

namespace Resumption

open Function

section Atomic

variable {ε σ α β : Type}

/-- Weakest precondition of an atomic step: `Q` on a normal result, `E` on a stop. -/
def wp (m : EStateM ε σ α) (Q : α → σ → Prop) (E : ε → σ → Prop) (s : σ) : Prop :=
  match m s with
  | .ok a s' => Q a s'
  | .error e s' => E e s'

variable {Q : α → σ → Prop} {E : ε → σ → Prop} {s : σ}

variable {m : EStateM ε σ α} {a : α} {s' : σ} {Q' : α → σ → Prop} {E' : ε → σ → Prop}
  {f : ℕ → EStateM ε σ PUnit} {J : ℕ → σ → Prop} {n : ℕ}

theorem wp_of_ok (h : m s = .ok a s') : wp m Q E s ↔ Q a s' := by
  simp only [wp, h]

theorem wp_ok (hw : wp m Q E s) (h : m s = .ok a s') :
    Q a s' := (wp_of_ok h).mp hw

theorem wp_error {e : ε} (hw : wp m Q E s) (h : m s = .error e s') : E e s' := by
  simpa only [wp, h] using hw

theorem wp_exists_ok (hw : wp m Q (fun _ _ => False) s) : ∃ a s', m s = .ok a s' ∧ Q a s' := by
  unfold wp at hw
  cases h : m s with
  | ok a s' => exact ⟨a, s', rfl, by rwa [h] at hw⟩
  | error e s' => rw [h] at hw; exact hw.elim

theorem wp_mono (hw : wp m Q E s) (hq : ∀ a s', Q a s' → Q' a s') (he : ∀ e s', E e s' → E' e s') :
    wp m Q' E' s := by
  unfold wp at hw ⊢
  cases h : m s with
  | ok a s' => rw [h] at hw; exact hq a s' hw
  | error e s' => rw [h] at hw; exact he e s' hw

theorem wp_post (hw : wp m Q E s) (hq : ∀ a s', Q a s' → Q' a s') : wp m Q' E s :=
  wp_mono hw hq fun _ _ he => he

theorem wp_and (h : wp m Q E s) (h' : wp m Q' E' s) :
    wp m (fun a s' => Q a s' ∧ Q' a s') (fun e s' => E e s' ∧ E' e s') s := by
  unfold wp at h h' ⊢
  cases hm : m s with
  | ok a s' => rw [hm] at h h'; exact ⟨h, h'⟩
  | error e s' => rw [hm] at h h'; exact ⟨h, h'⟩

/-- The postcondition may speak of the run. -/
theorem wp_ran (hw : wp m Q E s) : wp m (fun a s' => m s = .ok a s' ∧ Q a s') E s := by
  unfold wp at hw ⊢
  cases h : m s with
  | ok a s' => rw [h] at hw; exact ⟨rfl, hw⟩
  | error e s' => rw [h] at hw; exact hw

theorem bind_of_ok {k : α → EStateM ε σ β} (h : m s = .ok a s') : (m >>= k) s = k a s' := by
  change EStateM.bind _ _ s = _
  rw [EStateM.bind, h]

/-- What follows a step matters only in the states in which the step ends. -/
theorem bind_congr_of_ok {k k' : α → EStateM ε σ β}
    (h : ∀ s s' a, m s = .ok a s' → k a s' = k' a s') : m >>= k = m >>= k' := by
  funext s
  cases hs : m s with
  | ok a s' => rw [bind_of_ok hs, bind_of_ok hs, h s s' a hs]
  | error e s' => simp only [bind, EStateM.bind, hs]

@[simp] theorem wp_pure (a : α) : wp (pure a : EStateM ε σ α) Q E s ↔ Q a s := Iff.rfl

@[simp] theorem wp_throw (e : ε) : wp (throw e : EStateM ε σ α) Q E s ↔ E e s := Iff.rfl

@[simp] theorem wp_get {Q : σ → σ → Prop} : wp (get : EStateM ε σ σ) Q E s ↔ Q s s := Iff.rfl

@[simp] theorem wp_set {Q : PUnit → σ → Prop} (t : σ) :
    wp (set t : EStateM ε σ PUnit) Q E s ↔ Q ⟨⟩ t := Iff.rfl

@[simp] theorem wp_modify {Q : PUnit → σ → Prop} (f : σ → σ) :
    wp (modify f : EStateM ε σ PUnit) Q E s ↔ Q ⟨⟩ (f s) := Iff.rfl

@[simp] theorem wp_bind {Q : β → σ → Prop} (m : EStateM ε σ α) (f : α → EStateM ε σ β) :
    wp (m >>= f) Q E s ↔ wp m (fun a s' => wp (f a) Q E s') E s := by
  simp only [wp, bind, EStateM.bind]
  cases m s <;> rfl

@[simp] theorem wp_map {Q : β → σ → Prop} (f : α → β) (m : EStateM ε σ α) :
    wp (f <$> m) Q E s ↔ wp m (fun a s' => Q (f a) s') E s := by
  simp only [wp, Functor.map, EStateM.map]
  cases m s <;> rfl

@[simp] theorem wp_ite {c : Prop} [Decidable c] (m m' : EStateM ε σ α) :
    wp (if c then m else m') Q E s ↔ (c → wp m Q E s) ∧ (¬ c → wp m' Q E s) := by
  by_cases h : c <;> simp [h]

/-- A loop over `a`, `a + 1`, and so on, `n` times. -/
theorem wp_forM_range' {a : ℕ}
    (hstep : ∀ i s, a ≤ i → i < a + n → J i s → wp (f i) (fun _ s' => J (i + 1) s') E s)
    (hs : J a s) : wp ((List.range' a n).forM f) (fun _ s' => J (a + n) s') E s := by
  induction n generalizing a s with
  | zero => exact hs
  | succ n ih =>
      rw [List.range'_succ, List.forM_eq_forM, List.forM_cons, wp_bind]
      refine wp_post (hstep a s le_rfl (by omega) hs) ?_
      intro _ s' hs'
      rw [show a + (n + 1) = a + 1 + n by omega]
      exact ih (fun i t h₁ h₂ => hstep i t (by omega) (by omega)) hs'

theorem wp_forM_range (hstep : ∀ i s, i < n → J i s → wp (f i) (fun _ s' => J (i + 1) s') E s)
    (hs : J 0 s) : wp ((List.range n).forM f) (fun _ s' => J n s') E s := by
  rw [List.range_eq_range']
  have hloop := wp_forM_range' (n := n) (fun i t _ hi => hstep i t (by omega)) hs
  rwa [Nat.zero_add] at hloop

/-- A loop over a list; `J l` holds when `l` is still to be done. -/
theorem wp_forM_list {f : α → EStateM ε σ PUnit} {J : List α → σ → Prop} {l : List α}
    (hstep : ∀ a l s, J (a :: l) s → wp (f a) (fun _ s' => J l s') E s) (hs : J l s) :
    wp (l.forM f) (fun _ s' => J [] s') E s := by
  induction l generalizing s with
  | nil => exact hs
  | cons a l ih =>
      rw [List.forM_eq_forM, List.forM_cons, wp_bind]
      exact wp_post (hstep a l s hs) (fun _ s' hs' => ih hs')

end Atomic

/-- A program over a shared state `σ` that may stop with an `ε`. -/
inductive Prog (ε σ α : Type) : Type 1
  | ret (a : α) : Prog ε σ α
  | act {β : Type} (m : EStateM ε σ β) (k : β → Prog ε σ α) : Prog ε σ α

namespace Prog

variable {ε σ α β γ : Type}

def bind : Prog ε σ α → (α → Prog ε σ β) → Prog ε σ β
  | ret a, f => f a
  | act m k, f => act m fun b => (k b).bind f

instance : Monad (Prog ε σ) where
  pure := ret
  bind := bind

/-- One atomic step as a program. -/
def atom (m : EStateM ε σ α) : Prog ε σ α := act m ret

instance : MonadLift (EStateM ε σ) (Prog ε σ) where
  monadLift := atom

variable {δ : Type} {r : Prog ε σ Unit} {boot : δ → σ} {durable : σ → δ} {P F : δ → Prop} {d : δ}

@[simp] theorem pure_eq (a : α) : (pure a : Prog ε σ α) = ret a := rfl

@[simp] theorem ret_bind (a : α) (f : α → Prog ε σ β) : (ret a >>= f) = f a := rfl

@[simp] theorem act_bind (m : EStateM ε σ γ) (k : γ → Prog ε σ α) (f : α → Prog ε σ β) :
    (act m k >>= f) = act m fun b => k b >>= f := rfl

@[simp] theorem atom_bind (m : EStateM ε σ α) (f : α → Prog ε σ β) :
    (atom m >>= f) = act m f := rfl

@[simp] theorem lift_eq (m : EStateM ε σ α) :
    (liftM m : Prog ε σ α) = atom m := rfl

theorem bind_assoc (p : Prog ε σ α) (f : α → Prog ε σ β) (g : β → Prog ε σ γ) :
    (p >>= f) >>= g = p >>= fun a => f a >>= g := by
  induction p with
  | ret a => rfl
  | act m k ih => simp only [act_bind, ih]

/-- Uninterrupted execution. -/
def run : Prog ε σ α → EStateM ε σ α
  | ret a => pure a
  | act m k => m >>= fun b => (k b).run

@[simp] theorem run_ret (a : α) : (ret a : Prog ε σ α).run = pure a := rfl

@[simp] theorem run_act (m : EStateM ε σ β) (k : β → Prog ε σ α) :
    (act m k).run = m >>= fun b => (k b).run := rfl

@[simp] theorem run_atom (m : EStateM ε σ α) : (atom m).run = m := by
  simp only [atom, run_act, run_ret, bind_pure]

@[simp] theorem run_bind (p : Prog ε σ α) (f : α → Prog ε σ β) :
    (p >>= f).run = p.run >>= fun a => (f a).run := by
  induction p with
  | ret a => simp only [ret_bind, run_ret, pure_bind]
  | act m k ih => simp only [act_bind, run_act, ih, LawfulMonad.bind_assoc]

/-- `body i`, `body (i + 1)`, and so on, `n` times. -/
def upTo (body : ℕ → Prog ε σ Unit) : ℕ → ℕ → Prog ε σ Unit
  | 0, _ => ret ()
  | n + 1, i => body i >>= fun _ => upTo body n (i + 1)

/-- Execution of a program up to some point: `p` from `s` has come to `p'` in `s'`. -/
inductive Steps {ε σ α : Type} : Prog ε σ α → σ → Prog ε σ α → σ → Prop
  | refl (p : Prog ε σ α) (s : σ) : Steps p s p s
  | step {β : Type} {m : EStateM ε σ β} {k : β → Prog ε σ α} {b : β} {s s₁ s' : σ}
      {p' : Prog ε σ α} (head : m s = .ok b s₁) (tail : Steps (k b) s₁ p' s') : Steps (act m k) s p' s'

/-- Weakest precondition with a crash condition `C`, which has to hold between any two steps. -/
def wpc (C : σ → Prop) (Q : α → σ → Prop) (E : ε → σ → Prop) : Prog ε σ α → σ → Prop
  | ret a, s => C s ∧ Q a s
  | act m k, s => C s ∧ wp m (fun b s' => wpc C Q E (k b) s') E s

section Crash

variable {C : σ → Prop} {Q : α → σ → Prop} {E : ε → σ → Prop} {s : σ}

variable {p : Prog ε σ α}

theorem wpc_crash (h : wpc C Q E p s) : C s := by
  cases p with
  | ret a => exact h.1
  | act m k => exact h.1

theorem wpc_steps {p' : Prog ε σ α} {s' : σ} (hs : Steps p s p' s') (h : wpc C Q E p s) : C s' := by
  induction hs with
  | refl p s => exact wpc_crash h
  | step head tail ih => exact ih (wp_ok h.2 head)

theorem wpc_run (h : wpc C Q E p s) : wp p.run Q E s := by
  induction p generalizing s with
  | ret a => exact h.2
  | act m k ih =>
      rw [run_act, wp_bind]
      exact wp_post h.2 (fun b s' hb => ih b hb)

theorem wpc_mono {Q' : α → σ → Prop} (h : wpc C Q E p s)
    (hq : ∀ a s', C s' → Q a s' → Q' a s') : wpc C Q' E p s := by
  induction p generalizing s with
  | ret a => exact ⟨h.1, hq a s h.1 h.2⟩
  | act m k ih => exact ⟨h.1, wp_post h.2 (fun b s' hb => ih b hb)⟩

theorem wpc_bind {Q : β → σ → Prop} {f : α → Prog ε σ β}
    (h : wpc C (fun a s' => wpc C Q E (f a) s') E p s) : wpc C Q E (p >>= f) s := by
  induction p generalizing s with
  | ret a => exact h.2
  | act m k ih => exact ⟨h.1, wp_post h.2 (fun b s' hb => ih b hb)⟩

theorem wpc_atom {m : EStateM ε σ α} (hc : C s) (hw : wp m (fun a s' => C s' ∧ Q a s') E s) :
    wpc C Q E (atom m) s := ⟨hc, hw⟩

theorem wpc_upTo {Q : Unit → σ → Prop} {body : ℕ → Prog ε σ Unit} {J : ℕ → σ → Prop} {n i : ℕ}
    (hbody : ∀ j s, i ≤ j → j < i + n → J j s → wpc C (fun _ s' => J (j + 1) s') E (body j) s)
    (hend : ∀ s, J (i + n) s → C s ∧ Q () s) (hs : J i s) : wpc C Q E (upTo body n i) s := by
  induction n generalizing i s with
  | zero => exact hend s hs
  | succ n ih =>
      apply wpc_bind
      refine wpc_mono (hbody i s le_rfl (by omega) hs) ?_
      intro _ s' _ hs'
      apply ih
      · intro j t h₁ h₂
        exact hbody j t (by omega) (by omega)
      · intro t ht
        exact hend t (by rwa [show i + (n + 1) = i + 1 + n by omega])
      · exact hs'

end Crash

/-- A program that runs to its end has stepped to what comes after it. -/
theorem steps_of_run {p : Prog ε σ α} {k : α → Prog ε σ β} {Q : α → σ → Prop} {s : σ}
    (h : wp p.run Q (fun _ _ => False) s) : ∃ a s', Q a s' ∧ Steps (p >>= k) s (k a) s' := by
  induction p generalizing s with
  | ret a => exact ⟨a, s, h, .refl _ _⟩
  | act m q ih =>
      rw [run_act, wp_bind] at h
      cases hm : m s with
      | error e s' => exact (wp_error h hm).elim
      | ok b s₁ =>
          obtain ⟨a, s', hQ, hs⟩ := ih b ((wp_of_ok hm).mp h)
          exact ⟨a, s', hQ, .step hm hs⟩

/-- Recovery that may itself be cut short: `r` is started on the durable part of the state alone,
and after each cut it is started again from the top. -/
inductive Recovers {δ : Type} (boot : δ → σ) (durable : σ → δ) (r : Prog ε σ Unit) : δ → δ → Prop
  | finish {d : δ} {s : σ} (h : r.run (boot d) = .ok () s) : Recovers boot durable r d (durable s)
  | crash {d d' : δ} {p : Prog ε σ Unit} {s : σ} (h : Steps r (boot d) p s)
      (again : Recovers boot durable r (durable s) d') : Recovers boot durable r d d'

/-- If an uninterrupted recovery keeps `P` at every point and establishes `F`, so does one that is
interrupted and restarted any number of times. -/
theorem Recovers.sound

    (hr : ∀ d, P d → wpc (fun s => P (durable s)) (fun _ s => F (durable s)) (fun _ _ => False)
      r (boot d)) {d' : δ} (h : Recovers boot durable r d d') (hp : P d) : F d' := by
  induction h with
  | finish h => exact wp_ok (wpc_run (hr _ hp)) h
  | @crash d d' p s h _ ih =>
      have hs : P (durable s) := wpc_steps (C := fun s => P (durable s)) h (hr d hp)
      exact ih hs

theorem Recovers.exists_finish

    (hr : ∀ d, P d → wpc (fun s => P (durable s)) (fun _ s => F (durable s)) (fun _ _ => False)
      r (boot d)) (hp : P d) : ∃ d', Recovers boot durable r d d' := by
  have hw := wpc_run (hr d hp)
  cases hres : r.run (boot d) with
  | ok u s => exact ⟨durable s, .finish hres⟩
  | error e s => exact (wp_error hw hres).elim

end Prog

open Prog

section Interleaving

variable {ι ε σ : Type}

/-- A family of programs running on one state. -/
structure Config (ι ε σ : Type) : Type 1 where
  state : σ
  thread : ι → Prog ε σ Unit

variable [DecidableEq ι]

/-- One step of an interleaving. `enter i` switches to thread `i`; an idle thread may start any
program on the menu. A step that stops with an error is not taken. -/
inductive Step (enter : ι → σ → σ) (menu : σ → ι → Prog ε σ Unit → Prop) :
    Config ι ε σ → Config ι ε σ → Prop
  | act {c : Config ι ε σ} {i : ι} {β : Type} {m : EStateM ε σ β} {k : β → Prog ε σ Unit} {b : β}
      {s' : σ} (ht : c.thread i = .act m k) (hm : m (enter i c.state) = .ok b s') :
      Step enter menu c ⟨s', Function.update c.thread i (k b)⟩
  | call {c : Config ι ε σ} {i : ι} {p : Prog ε σ Unit} (ht : c.thread i = .ret ())
      (hp : menu c.state i p) : Step enter menu c ⟨c.state, Function.update c.thread i p⟩

abbrev Reaches (enter : ι → σ → σ) (menu : σ → ι → Prog ε σ Unit → Prop) :
    Config ι ε σ → Config ι ε σ → Prop := Relation.ReflTransGen (Step enter menu)

/-- The next step of thread `i` stops with `e`. -/
def Config.Stops (enter : ι → σ → σ) (c : Config ι ε σ) (i : ι) (e : ε) : Prop :=
  ∃ (β : Type) (m : EStateM ε σ β) (k : β → Prog ε σ Unit) (s' : σ),
    c.thread i = .act m k ∧ m (enter i c.state) = .error e s'

variable {Λ α β : Type} (enter : ι → σ → σ) (I : (ι → Λ) → σ → Prop) (E : ε → σ → Prop)

/-- Thread `i`, annotated with `l`, may take all its steps: whatever the other threads are doing,
each step restores the invariant `I` for some new annotation of `i`. -/
def Safe (i : ι) (Q : α → Λ → Prop) : Prog ε σ α → Λ → Prop
  | .ret a, l => Q a l
  | .act m k, l => ∀ ls s, ls i = l → I ls s →
      wp m (fun b s' => ∃ l', I (Function.update ls i l') s' ∧ Safe i Q (k b) l') E (enter i s)

variable {enter I E}

variable {i : ι} {Q : β → Λ → Prop} {p : Prog ε σ α} {l : Λ} {m : EStateM ε σ β} {g : β → Λ}
  {menu : σ → ι → Prog ε σ Unit → Prop} {c : Config ι ε σ}

theorem Safe.bind {f : α → Prog ε σ β}
    (h : Safe enter I E i (fun a l' => Safe enter I E i Q (f a) l') p l) :
    Safe enter I E i Q (p >>= f) l := by
  induction p generalizing l with
  | ret a => exact h
  | act m k ih =>
      intro ls s hl hI
      refine wp_post (h ls s hl hI) ?_
      rintro b s' ⟨l', hI', hk⟩
      exact ⟨l', hI', ih b hk⟩

theorem Safe.mono {Q Q' : α → Λ → Prop} (h : Safe enter I E i Q p l) (hq : ∀ a l', Q a l' → Q' a l') :
    Safe enter I E i Q' p l := by
  induction p generalizing l with
  | ret a => exact hq a l h
  | act m k ih =>
      intro ls s hl hI
      refine wp_post (h ls s hl hI) ?_
      rintro b s' ⟨l', hI', hk⟩
      exact ⟨l', hI', ih b hk⟩

/-- One annotated step followed by the rest of the thread. -/
theorem Safe.atom_bind {Q : α → Λ → Prop} {k : β → Prog ε σ α}
    (hm : ∀ ls s, ls i = l → I ls s → wp m (fun b s' => I (update ls i (g b)) s') E (enter i s))
    (hk : ∀ b, Safe enter I E i Q (k b) (g b)) : Safe enter I E i Q (Prog.atom m >>= k) l := by
  rw [Prog.atom_bind]
  intro ls s hl hI
  refine wp_post (hm ls s hl hI) ?_
  intro b s' hI'
  exact ⟨g b, hI', hk b⟩

theorem Safe.atom
    (hm : ∀ ls s, ls i = l → I ls s → wp m (fun b s' => I (update ls i (g b)) s') E (enter i s))
    (hq : ∀ b, Q b (g b)) : Safe enter I E i Q (Prog.atom m) l := by
  intro ls s hl hI
  refine wp_post (hm ls s hl hI) ?_
  intro b s' hI'
  exact ⟨g b, hI', hq b⟩

theorem Safe.upTo {Q : Unit → Λ → Prop} {body : ℕ → Prog ε σ Unit} {J : ℕ → Λ → Prop}
    {n j : ℕ} (hbody : ∀ a l, j ≤ a → a < j + n → J a l →
      Safe enter I E i (fun _ l' => J (a + 1) l') (body a) l)
    (hend : ∀ l, J (j + n) l → Q () l) (hl : J j l) :
    Safe enter I E i Q (Prog.upTo body n j) l := by
  induction n generalizing j l with
  | zero => exact hend l hl
  | succ n ih =>
      apply Safe.bind
      refine Safe.mono (hbody j l le_rfl (by omega) hl) ?_
      intro _ l' hl'
      apply ih
      · intro a l₁ h₁ h₂
        exact hbody a l₁ (by omega) (by omega)
      · rwa [show j + 1 + n = j + (n + 1) by omega]
      · exact hl'

/-- The invariant and the safety of all threads are kept along every interleaving. -/
theorem Safe.reaches {Q : ι → Unit → Λ → Prop}
    (hmenu : ∀ i p ls s, I ls s → Q i () (ls i) → menu s i p →
      ∃ l', I (update ls i l') s ∧ Safe enter I E i (Q i) p l')
    {c' : Config ι ε σ} (hr : Reaches enter menu c c')
    (hc : ∃ ls, I ls c.state ∧ ∀ i, Safe enter I E i (Q i) (c.thread i) (ls i)) :
    ∃ ls, I ls c'.state ∧ ∀ i, Safe enter I E i (Q i) (c'.thread i) (ls i) := by
  have hupd {ls : ι → Λ} {th : ι → Prog ε σ Unit} {i : ι} {l' : Λ} {p : Prog ε σ Unit}
      (hs : ∀ j, Safe enter I E j (Q j) (th j) (ls j)) (hp : Safe enter I E i (Q i) p l') :
      ∀ j, Safe enter I E j (Q j) (update th i p j) (update ls i l' j) := by
    intro j
    by_cases hj : j = i
    · subst hj
      simpa only [update_self] using hp
    · simpa only [update_of_ne hj] using hs j
  induction hr with
  | refl => exact hc
  | tail _ hstep ih =>
      obtain ⟨ls, hI, hs⟩ := ih
      cases hstep with
      | @act i β m k b s' ht hm =>
          have hi := hs i
          rw [ht] at hi
          obtain ⟨l', hI', hk⟩ := wp_ok (hi ls _ rfl hI) hm
          exact ⟨_, hI', hupd hs hk⟩
      | @call i p ht hp =>
          have hi := hs i
          rw [ht] at hi
          obtain ⟨l', hI', hk⟩ := hmenu i p ls _ hI hi hp
          exact ⟨_, hI', hupd hs hk⟩

theorem Safe.stops {Q : Unit → Λ → Prop} {ls : ι → Λ} {e : ε} (hI : I ls c.state)
    (hs : Safe enter I E i Q (c.thread i) (ls i)) (h : c.Stops enter i e) : ∃ s', E e s' := by
  obtain ⟨β, m, k, s', ht, hm⟩ := h
  rw [ht] at hs
  exact ⟨s', wp_error (hs ls c.state rfl hI) hm⟩

/-- Whatever the state, a step of the program is a transition in `R` and a stop is one in `S`. -/
def Each (R : σ → σ → Prop) (S : σ → ε → Prop) : Prog ε σ α → Prop
  | .ret _ => True
  | .act m k => (∀ s, wp m (fun _ s' => R s s') (fun e _ => S s e) s) ∧ ∀ b, Each R S (k b)

section Each

variable {R : σ → σ → Prop} {S : σ → ε → Prop}

variable {menu : σ → ι → Prog ε σ Unit → Prop} {c c' : Config ι ε σ}

theorem Each.atom {m : EStateM ε σ α} (h : ∀ s, wp m (fun _ s' => R s s') (fun e _ => S s e) s) :
    Each R S (Prog.atom m) := ⟨h, fun _ => trivial⟩

theorem Each.bind {p : Prog ε σ α} {f : α → Prog ε σ β} (hp : Each R S p)
    (hf : ∀ a, Each R S (f a)) : Each R S (p >>= f) := by
  induction p with
  | ret a => exact hf a
  | act m k ih => exact ⟨hp.1, fun b => ih b (hp.2 b)⟩

theorem Each.upTo {body : ℕ → Prog ε σ Unit} (h : ∀ a, Each R S (body a)) (n j : ℕ) :
    Each R S (Prog.upTo body n j) := by
  induction n generalizing j with
  | zero => trivial
  | succ n ih => exact (h j).bind fun _ => ih (j + 1)

theorem Each.reaches (hmenu : ∀ s i p, menu s i p → Each R S p) (hr : Reaches enter menu c c')
    (hc : ∀ i, Each R S (c.thread i)) : ∀ i, Each R S (c'.thread i) := by
  have hupd {th : ι → Prog ε σ Unit} {i : ι} {p : Prog ε σ Unit} (hs : ∀ j, Each R S (th j))
      (hp : Each R S p) : ∀ j, Each R S (update th i p j) := by
    intro j
    by_cases hj : j = i
    · rw [hj, update_self]
      exact hp
    · rw [update_of_ne hj]
      exact hs j
  induction hr with
  | refl => exact hc
  | tail _ hstep ih =>
      cases hstep with
      | @act i β m k b s' ht hm =>
          have hi := ih i
          rw [ht] at hi
          exact hupd ih (hi.2 b)
      | @call i p ht hp => exact hupd ih (hmenu _ i p hp)

omit [DecidableEq ι] in
theorem Each.stops {i : ι} {e : ε} (hs : Each R S (c.thread i))
    (h : c.Stops enter i e) : S (enter i c.state) e := by
  obtain ⟨β, m, k, s', ht, hm⟩ := h
  rw [ht] at hs
  have hw := hs.1 (enter i c.state)
  rwa [wp, hm] at hw

theorem Each.step (hs : ∀ i, Each R S (c.thread i)) (h : Step (fun _ s => s) menu c c')
    (hrefl : ∀ s, R s s) : R c.state c'.state := by
  cases h with
  | @act i β m k b s' ht hm =>
      have hi := hs i
      rw [ht] at hi
      exact (wp_of_ok hm).mp (hi.1 c.state)
  | call ht hp => exact hrefl _

end Each

/-- A thread that takes steps undisturbed. -/
theorem Reaches.of_steps {p p' : Prog ε σ Unit} {s s' : σ}
    (h : Steps p s p' s') (ht : c.thread i = p) (hs : c.state = s) :
    Reaches (fun _ s => s) menu c ⟨s', update c.thread i p'⟩ := by
  induction h generalizing c with
  | refl p s =>
      rw [← ht, update_eq_self, ← hs]
  | @step β m k b s s₁ s' p' head tail ih =>
      have hstep : Step (fun _ s => s) menu c ⟨s₁, update c.thread i (k b)⟩ :=
        .act ht (hs ▸ head)
      have hrest := ih (c := ⟨s₁, update c.thread i (k b)⟩) (update_self ..) rfl
      rw [update_idem] at hrest
      exact .head hstep hrest

/-- A thread that runs undisturbed to the end of a part of its program. -/
theorem Reaches.of_run {k : α → Prog ε σ Unit} {Q : α → σ → Prop} (ht : c.thread i = p >>= k)
    (h : wp p.run Q (fun _ _ => False) c.state) :
    ∃ a c', Reaches (fun _ s => s) menu c c' ∧ Q a c'.state ∧ c'.thread i = k a ∧
      ∀ j, j ≠ i → c'.thread j = c.thread j := by
  obtain ⟨a, s', hQ, hs⟩ := Prog.steps_of_run (k := k) h
  exact ⟨a, _, Reaches.of_steps hs ht rfl, hQ, update_self .., fun j hj =>
    update_of_ne hj _ _⟩

end Interleaving

end Resumption
