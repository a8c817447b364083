import Mathlib

/-!
# Spin locks

`acquire`, `release` and `holding` of `spinlock.c` on one lock, as single loads, stores and exchanges of
any number of processors. A processor may call each of them at any time, also when it must not.
-/

namespace Xv6.Spinlock

open Function

/-- Who has called `holding`. -/
inductive Caller
  | acquire
  | release
  | other

/-- Where a processor is. `own` says that it had completed `acquire` and not called `release` when it
made the call. -/
inductive Pc
  | client (own : Bool)
  | readLocked (c : Caller) (own : Bool)
  | readCpu (c : Caller) (own : Bool)
  | answer (result own : Bool)
  | panicked (c : Caller) (own : Bool)
  | exchange
  | storeCpu
  | storePcs (k : ℕ)
  | clearPcs
  | clearCpu
  | clearLocked

/-- What the caller of `holding` does with the result. -/
def Caller.resume (own : Bool) : Caller → Bool → Pc
  | .acquire, true => .panicked .acquire own
  | .acquire, false => .exchange
  | .release, true => .clearPcs
  | .release, false => .panicked .release own
  | .other, result => .answer result own

structure State (ι : Type) where
  locked : UInt32
  cpu : Option ι
  pcs : ℕ → UInt32
  pc : ι → Pc

variable {ι : Type} {s s' : State ι} {i : ι} {p q : Pc} {o o' : Option ι}

def State.go [DecidableEq ι] (s : State ι) (i : ι) (p : Pc) : State ι := { s with pc := update s.pc i p }

/-- `initlock`, before any processor uses the lock. -/
def initlock : State ι := ⟨0, none, fun _ => 0, fun _ => .client false⟩

/-- One access to the lock by processor `i`, or a call or return. `getcallerpcs` stores ten words. -/
inductive Step [DecidableEq ι] (i : ι) (s : State ι) : State ι → Prop
  | call {own} (c : Caller) : s.pc i = .client own → Step i s (s.go i (.readLocked c own))
  | readLocked {c own} : s.pc i = .readLocked c own →
      Step i s (s.go i (if s.locked = 0 then c.resume own false else .readCpu c own))
  | readCpu {c own} : s.pc i = .readCpu c own →
      Step i s (s.go i (c.resume own (decide (s.cpu = some i))))
  | answer {result own} : s.pc i = .answer result own → Step i s (s.go i (.client own))
  | exchange : s.pc i = .exchange →
      Step i s ({ s with locked := 1 }.go i (if s.locked = 0 then .storeCpu else .exchange))
  | storeCpu : s.pc i = .storeCpu → Step i s ({ s with cpu := some i }.go i (.storePcs 0))
  | storePcs {k} (v : UInt32) : s.pc i = .storePcs k →
      Step i s ({ s with pcs := update s.pcs k v }.go i (if k < 9 then .storePcs (k + 1) else .client true))
  | clearPcs : s.pc i = .clearPcs → Step i s ({ s with pcs := update s.pcs 0 0 }.go i .clearCpu)
  | clearCpu : s.pc i = .clearCpu → Step i s ({ s with cpu := none }.go i .clearLocked)
  | clearLocked : s.pc i = .clearLocked → Step i s ({ s with locked := 0 }.go i (.client false))

/-- Any interleaving of the processors. -/
def Reachable [DecidableEq ι] : State ι → Prop := Relation.ReflTransGen (fun s s' => ∃ i, Step i s s') initlock

/-- From the exchange that takes the lock to the store that frees it. -/
def Pc.owns : Pc → Bool
  | .client own | .readLocked _ own | .readCpu _ own | .answer _ own | .panicked _ own => own
  | .exchange => false
  | _ => true

/-- While `cpu` names the processor. -/
def Pc.named : Pc → Bool
  | .storeCpu | .clearLocked => false
  | p => p.owns

/-- `holding` has been answered truly. -/
def Pc.Right : Pc → Prop
  | .answer result own => result = own
  | .panicked .acquire own => own = true
  | .panicked .release own => own = false
  | .panicked .other _ => False
  | _ => True

/-- `o` is the owner. -/
structure Inv (o : Option ι) (s : State ι) : Prop where
  owns : ∀ i, (s.pc i).owns ↔ o = some i
  locked : s.locked = 0 ↔ o = none
  cpu : ∀ i, s.cpu = some i ↔ (s.pc i).named
  right : ∀ i, (s.pc i).Right

theorem inv_initlock : Inv none (initlock : State ι) := by
  constructor <;> simp [initlock, Pc.owns, Pc.named, Pc.Right]

theorem Pc.owns_of_named (h : p.named) : p.owns := by
  cases p <;> first | exact h | exact absurd h Bool.false_ne_true

/-- While a processor owns the lock, neither the owner nor `cpu` is another one. -/
theorem Inv.alone (h : Inv o s) (hq : s.pc i = q) (hi : q.owns) : o = some i ∧ ∀ j, j ≠ i → s.cpu ≠ some j := by
  have ho := (h.owns i).mp (hq ▸ hi)
  refine ⟨ho, fun j hj hcpu => hj ?_⟩
  have hown := (h.owns j).mp (Pc.owns_of_named ((h.cpu j).mp hcpu))
  exact Option.some.inj (hown.symm.trans ho)

variable [DecidableEq ι]

theorem Inv.move (h : Inv o s) (hpc : s'.pc = update s.pc i p) (howns : p.owns ↔ o' = some i)
    (hcpu : s'.cpu = some i ↔ p.named) (hright : p.Right) (hlocked : s'.locked = 0 ↔ o' = none)
    (hother : ∀ j, j ≠ i → (o' = some j ↔ o = some j) ∧ (s'.cpu = some j ↔ s.cpu = some j)) : Inv o' s' := by
  have hself : s'.pc i = p := by rw [hpc, update_self]
  have hne : ∀ j, j ≠ i → s'.pc j = s.pc j := fun j hj => by rw [hpc, update_of_ne hj]
  refine ⟨fun j => ?_, hlocked, fun j => ?_, fun j => ?_⟩ <;> by_cases hj : j = i
  · rw [hj, hself, howns]
  · rw [hne j hj, h.owns j, (hother j hj).1]
  · rw [hj, hself, hcpu]
  · rw [hne j hj, ← h.cpu j, (hother j hj).2]
  · rwa [hj, hself]
  · rw [hne j hj]
    exact h.right j

/-- A step that leaves `locked` and `cpu` alone. -/
theorem Inv.quiet (h : Inv o s) (hq : s.pc i = q) (hpc : s'.pc = update s.pc i p) (howns : p.owns = q.owns)
    (hnamed : p.named = q.named) (hright : p.Right) (hcpu : s'.cpu = s.cpu)
    (hlocked : s'.locked = 0 ↔ s.locked = 0) : ∃ o, Inv o s' := by
  refine ⟨o, h.move hpc ?_ ?_ hright (hlocked.trans h.locked) fun j _ => ⟨.rfl, by rw [hcpu]⟩⟩
  · rw [howns, ← hq, h.owns i]
  · rw [hcpu, hnamed, ← hq, h.cpu i]

/-- `holding` with the true result. -/
theorem Inv.resume {own : Bool} (h : Inv o s) (hq : s.pc i = q) (howns : own = q.owns) (hnamed : own = q.named)
    (c : Caller) : ∃ o, Inv o (s.go i (c.resume own own)) := by
  cases c <;> cases own <;> exact h.quiet hq rfl howns hnamed (by first | rfl | trivial) rfl .rfl

theorem Inv.step (h : Inv o s) (hstep : Step i s s') : ∃ o, Inv o s' := by
  have hother : ∀ j, j ≠ i → some i ≠ some j := fun j hj hc => hj (Option.some.inj hc).symm
  have hnone : ∀ j : ι, none ≠ some j := fun j => (Option.some_ne_none j).symm
  cases hstep with
  | call c hpc => exact h.quiet hpc rfl rfl rfl trivial rfl .rfl
  | answer hpc => exact h.quiet hpc rfl rfl rfl trivial rfl .rfl
  | @readLocked c own hpc =>
    split_ifs with hl
    · have hown : own = false := by
        refine Bool.eq_false_of_not_eq_true fun hown => Option.some_ne_none i ?_
        rw [← (h.alone hpc hown).1, h.locked.mp hl]
      subst hown
      exact h.resume hpc rfl rfl c
    · exact h.quiet hpc rfl rfl rfl trivial rfl .rfl
  | @readCpu c own hpc =>
    have hown : decide (s.cpu = some i) = own := by
      simp only [h.cpu i, hpc, Pc.named, Pc.owns, Bool.decide_eq_true]
    rw [hown]
    exact h.resume hpc rfl rfl c
  | exchange hpc =>
    have hone : (1 : UInt32) ≠ 0 := by decide
    split_ifs with hl
    · refine ⟨some i, h.move rfl (iff_of_true rfl rfl) ?_ trivial (iff_of_false hone (hnone i).symm) ?_⟩
      · exact (h.cpu i).trans (by rw [hpc]; exact .rfl)
      · intro j hj
        rw [h.locked.mp hl]
        exact ⟨iff_of_false (hother j hj) (hnone j), .rfl⟩
    · exact h.quiet hpc rfl rfl rfl trivial rfl (iff_of_false hone hl)
  | storeCpu hpc =>
    obtain ⟨ho, hcpu⟩ := h.alone hpc rfl
    refine ⟨o, h.move rfl (iff_of_true rfl ho) (iff_of_true rfl rfl) trivial h.locked fun j hj => ⟨.rfl, ?_⟩⟩
    exact iff_of_false (hother j hj) (hcpu j hj)
  | storePcs v hpc =>
    split_ifs with hk
    · exact h.quiet hpc rfl rfl rfl trivial rfl .rfl
    · exact h.quiet hpc rfl rfl rfl trivial rfl .rfl
  | clearPcs hpc => exact h.quiet hpc rfl rfl rfl trivial rfl .rfl
  | clearCpu hpc =>
    obtain ⟨ho, hcpu⟩ := h.alone hpc rfl
    refine ⟨o, h.move rfl (iff_of_true rfl ho) ?_ trivial h.locked fun j hj => ⟨.rfl, ?_⟩⟩
    · exact iff_of_false (hnone i) Bool.noConfusion
    · exact iff_of_false (hnone j) (hcpu j hj)
  | clearLocked hpc =>
    obtain ⟨ho, -⟩ := h.alone hpc rfl
    refine ⟨none, h.move rfl ?_ ?_ trivial (iff_of_true rfl rfl) fun j hj => ⟨?_, .rfl⟩⟩
    · exact iff_of_false Bool.noConfusion (hnone i)
    · exact (h.cpu i).trans (by rw [hpc]; exact .rfl)
    · rw [ho]
      exact iff_of_false (hnone j) (hother j hj)

theorem Reachable.inv (h : Reachable s) : ∃ o, Inv o s := by
  induction h with
  | refl => exact ⟨none, inv_initlock⟩
  | tail _ hstep ih =>
    obtain ⟨i, hi⟩ := hstep
    obtain ⟨o, ho⟩ := ih
    exact ho.step hi

/-- At most one processor has the lock, `holding` answers truly, and a processor panics only if it
takes a lock that it has or frees one that it does not have. -/
theorem holding_exact (h : Reachable s) :
    (∀ i j, (s.pc i).owns → (s.pc j).owns → i = j) ∧
    (∀ i result own, s.pc i = .answer result own → result = own) ∧
    ∀ i c own, s.pc i = .panicked c own → c = .acquire ∧ own = true ∨ c = .release ∧ own = false := by
  obtain ⟨o, ho⟩ := h.inv
  refine ⟨fun i j hi hj => ?_, fun i result own hpc => ?_, fun i c own hpc => ?_⟩
  · exact Option.some.inj (((ho.owns i).mp hi).symm.trans ((ho.owns j).mp hj))
  · have hright := ho.right i
    rwa [hpc] at hright
  · have hright := ho.right i
    rw [hpc] at hright
    cases c with
    | acquire => exact .inl ⟨rfl, hright⟩
    | release => exact .inr ⟨rfl, hright⟩
    | other => exact hright.elim

/-- Of two processors, one has just taken the lock. -/
theorem holding_exact_taken : ∃ s : State Bool, Reachable s ∧ (s.pc true).owns ∧ (s.pc false).owns = false := by
  let s₁ : State Bool := initlock.go true (.readLocked .acquire false)
  let s₂ := s₁.go true .exchange
  have r₁ : Reachable s₁ := .single ⟨true, .call .acquire rfl⟩
  have r₂ : Reachable s₂ := r₁.tail ⟨true, @Step.readLocked Bool _ true s₁ .acquire false rfl⟩
  have r₃ : Reachable ({ s₂ with locked := 1 }.go true .storeCpu) := r₂.tail ⟨true, .exchange rfl⟩
  refine ⟨_, r₃, rfl, Bool.eq_false_of_not_eq_true fun hc => ?_⟩
  exact Bool.false_ne_true ((holding_exact r₃).1 false true hc rfl)

end Xv6.Spinlock
