import Mathlib

/-!
# Monitors with sleep and wakeup

Processes that share data under one lock and wait for conditions on it. `sleep` gives up the lock and
waits on a channel, `wakeup` lets all sleepers on a channel go on.

There are two machines for the same code. In the first one `sleep` and `wakeup` are single steps. In
the second one they are made of small steps under a lock on the table of processes: `sleep` takes the
table lock before it drops the monitor's lock, the table lock is given up by the context switch, and
`wakeup` goes through the table process by process. `simulation` says that the second machine does
nothing that the first cannot do, and `Sim.sleeping` what a process marked as sleeping there is in the
first machine.
-/

namespace Monitor

open Function

/-- Runs of two processes name them `0` and `1`. -/
scoped instance neZero_two : NeZero 2 := ⟨by decide⟩

/-- What a process does next. A step sees whether its process was killed. -/
inductive Instr (χ σ Λ : Type)
  | idle
  | acquire (next : Λ)
  | release (next : Λ)
  | step (f : Bool → σ → σ × Λ)
  | sleep (chan : χ) (next : Λ)
  | wakeup (chan : χ) (next : Λ)

/-- The code, what a process that is idle may go on with, and what happens to the data by itself. -/
structure Machine (ι χ σ Λ : Type) where
  code : ι → Λ → Instr χ σ Λ
  menu : ι → σ → Λ → Λ → Prop
  env : σ → σ → Prop

variable {ι χ σ Λ : Type} [DecidableEq ι] [DecidableEq χ] {m : Machine ι χ σ Λ}

/-! ## Sleep and wakeup in one step -/

/-- A process that was woken has to take the lock before it goes on. -/
inductive Place (χ Λ : Type)
  | run (l : Λ)
  | asleep (chan : χ) (l : Λ)
  | woken (l : Λ)

structure State (ι χ σ Λ : Type) where
  data : σ
  lock : Option ι
  killed : ι → Bool
  place : ι → Place χ Λ

def Place.wake (c : χ) : Place χ Λ → Place χ Λ
  | .asleep c' l => if c' = c then .woken l else .asleep c' l
  | p => p

def Place.kill : Place χ Λ → Place χ Λ
  | .asleep _ l => .woken l
  | p => p

namespace State

def go (s : State ι χ σ Λ) (i : ι) (p : Place χ Λ) : State ι χ σ Λ :=
  { s with place := Function.update s.place i p }

end State

inductive Step (m : Machine ι χ σ Λ) : State ι χ σ Λ → State ι χ σ Λ → Prop
  | call {s : State ι χ σ Λ} {i : ι} {l l' : Λ} (hl : s.place i = .run l) (hc : m.code i l = .idle)
      (hmenu : m.menu i s.data l l') : Step m s (s.go i (.run l'))
  | env {s : State ι χ σ Λ} {d : σ} (h : m.env s.data d) : Step m s { s with data := d }
  | acquire {s : State ι χ σ Λ} {i : ι} {l l' : Λ} (hl : s.place i = .run l)
      (hc : m.code i l = .acquire l') (hfree : s.lock = none) :
      Step m s { s.go i (.run l') with lock := some i }
  | release {s : State ι χ σ Λ} {i : ι} {l l' : Λ} (hl : s.place i = .run l)
      (hc : m.code i l = .release l') (hlock : s.lock = some i) :
      Step m s { s.go i (.run l') with lock := none }
  | step {s : State ι χ σ Λ} {i : ι} {l : Λ} {f : Bool → σ → σ × Λ} (hl : s.place i = .run l)
      (hc : m.code i l = .step f) :
      Step m s { s.go i (.run (f (s.killed i) s.data).2) with data := (f (s.killed i) s.data).1 }
  | sleep {s : State ι χ σ Λ} {i : ι} {l l' : Λ} {c : χ} (hl : s.place i = .run l)
      (hc : m.code i l = .sleep c l') (hlock : s.lock = some i) :
      Step m s { s.go i (.asleep c l') with lock := none }
  | wakeup {s : State ι χ σ Λ} {i : ι} {l l' : Λ} {c : χ} (hl : s.place i = .run l)
      (hc : m.code i l = .wakeup c l') :
      Step m s { s with place := Function.update (fun j => (s.place j).wake c) i (.run l') }
  | resume {s : State ι χ σ Λ} {i : ι} {l : Λ} (hl : s.place i = .woken l) (hfree : s.lock = none) :
      Step m s { s.go i (.run l) with lock := some i }
  | kill {s : State ι χ σ Λ} (j : ι) :
      Step m s { s.go j (s.place j).kill with killed := Function.update s.killed j true }

abbrev Reaches (m : Machine ι χ σ Λ) : State ι χ σ Λ → State ι χ σ Λ → Prop :=
  Relation.ReflTransGen (Step m)

/-- Nobody has done anything yet. -/
def State.start (d : σ) (l : ι → Λ) : State ι χ σ Λ := ⟨d, none, fun _ => false, fun i => .run (l i)⟩

/-! ## Sleep and wakeup in small steps -/

/-- Inside `sleep`: the table lock is taken (`handing`), the monitor's lock dropped (`dropped`), the
process marked as sleeping (`marked`), switched away (`off`), switched back (`back`), and about to take
the monitor's lock (`relock`). Inside `wakeup`: the processes still to be looked at (`scan`). -/
inductive Pc (ι χ Λ : Type)
  | at (l : Λ)
  | handing (l : Λ)
  | dropped (chan : χ) (l : Λ)
  | marked (chan : χ) (l : Λ)
  | off (chan : χ) (l : Λ)
  | back (l : Λ)
  | relock (l : Λ)
  | scan (chan : χ) (l : Λ) (rest : List ι)

/-- `sleeping i = some c` if the table says that process `i` sleeps on `c`. -/
structure Fine (ι χ σ Λ : Type) where
  data : σ
  lock : Option ι
  table : Option ι
  killed : ι → Bool
  sleeping : ι → Option χ
  pc : ι → Pc ι χ Λ

namespace Fine

def go (f : Fine ι χ σ Λ) (i : ι) (p : Pc ι χ Λ) : Fine ι χ σ Λ :=
  { f with pc := Function.update f.pc i p }

def start (d : σ) (l : ι → Λ) : Fine ι χ σ Λ := ⟨d, none, none, fun _ => false, fun _ => none, fun i => .at (l i)⟩

end Fine

/-- One small step; `procs` is the table. -/
inductive FineStep (m : Machine ι χ σ Λ) (procs : List ι) : Fine ι χ σ Λ → Fine ι χ σ Λ → Prop
  | call {f : Fine ι χ σ Λ} {i : ι} {l l' : Λ} (hl : f.pc i = .at l) (hc : m.code i l = .idle)
      (hmenu : m.menu i f.data l l') : FineStep m procs f (f.go i (.at l'))
  | env {f : Fine ι χ σ Λ} {d : σ} (h : m.env f.data d) : FineStep m procs f { f with data := d }
  | acquire {f : Fine ι χ σ Λ} {i : ι} {l l' : Λ} (hl : f.pc i = .at l)
      (hc : m.code i l = .acquire l') (hfree : f.lock = none) :
      FineStep m procs f { f.go i (.at l') with lock := some i }
  | release {f : Fine ι χ σ Λ} {i : ι} {l l' : Λ} (hl : f.pc i = .at l)
      (hc : m.code i l = .release l') (hlock : f.lock = some i) :
      FineStep m procs f { f.go i (.at l') with lock := none }
  | step {f : Fine ι χ σ Λ} {i : ι} {l : Λ} {g : Bool → σ → σ × Λ} (hl : f.pc i = .at l)
      (hc : m.code i l = .step g) :
      FineStep m procs f
        { f.go i (.at (g (f.killed i) f.data).2) with data := (g (f.killed i) f.data).1 }
  | sleepHand {f : Fine ι χ σ Λ} {i : ι} {l l' : Λ} {c : χ} (hl : f.pc i = .at l)
      (hc : m.code i l = .sleep c l') (hlock : f.lock = some i) (hfree : f.table = none) :
      FineStep m procs f { f.go i (.handing l) with table := some i }
  | sleepDrop {f : Fine ι χ σ Λ} {i : ι} {l l' : Λ} {c : χ} (hl : f.pc i = .handing l)
      (hc : m.code i l = .sleep c l') :
      FineStep m procs f { f.go i (.dropped c l') with lock := none }
  | sleepMark {f : Fine ι χ σ Λ} {i : ι} {l : Λ} {c : χ} (hl : f.pc i = .dropped c l) :
      FineStep m procs f { f.go i (.marked c l) with sleeping := Function.update f.sleeping i (some c) }
  | sleepSwitch {f : Fine ι χ σ Λ} {i : ι} {l : Λ} {c : χ} (hl : f.pc i = .marked c l) :
      FineStep m procs f { f.go i (.off c l) with table := none }
  | schedule {f : Fine ι χ σ Λ} {i : ι} {l : Λ} {c : χ} (hl : f.pc i = .off c l)
      (hawake : f.sleeping i = none) (hfree : f.table = none) :
      FineStep m procs f { f.go i (.back l) with table := some i }
  | sleepTidy {f : Fine ι χ σ Λ} {i : ι} {l : Λ} (hl : f.pc i = .back l) :
      FineStep m procs f { f.go i (.relock l) with table := none }
  | sleepRelock {f : Fine ι χ σ Λ} {i : ι} {l : Λ} (hl : f.pc i = .relock l) (hfree : f.lock = none) :
      FineStep m procs f { f.go i (.at l) with lock := some i }
  | wakeupBegin {f : Fine ι χ σ Λ} {i : ι} {l l' : Λ} {c : χ} (hl : f.pc i = .at l)
      (hc : m.code i l = .wakeup c l') (hfree : f.table = none) :
      FineStep m procs f { f.go i (.scan c l' procs) with table := some i }
  | wakeupScan {f : Fine ι χ σ Λ} {i j : ι} {l : Λ} {c : χ} {rest : List ι}
      (hl : f.pc i = .scan c l (j :: rest)) :
      FineStep m procs f { f.go i (.scan c l rest) with
        sleeping := if f.sleeping j = some c then Function.update f.sleeping j none else f.sleeping }
  | wakeupEnd {f : Fine ι χ σ Λ} {i : ι} {l : Λ} {c : χ} (hl : f.pc i = .scan c l []) :
      FineStep m procs f { f.go i (.at l) with table := none }
  | kill {f : Fine ι χ σ Λ} (j : ι) (hfree : f.table = none) :
      FineStep m procs f { f with killed := Function.update f.killed j true
                                  sleeping := Function.update f.sleeping j none }

abbrev FineReaches (m : Machine ι χ σ Λ) (procs : List ι) : Fine ι χ σ Λ → Fine ι χ σ Λ → Prop :=
  Relation.ReflTransGen (FineStep m procs)

variable {procs : List ι} {f : Fine ι χ σ Λ} {i : ι}

theorem FineStep.step_to {l l' : Λ} {d : σ} {g : Bool → σ → σ × Λ} (hl : f.pc i = .at l)
    (hc : m.code i l = .step g) (hg : g (f.killed i) f.data = (d, l')) :
    FineStep m procs f { f.go i (.at l') with data := d } := by
  have h : FineStep m procs f
      { f.go i (.at (g (f.killed i) f.data).2) with data := (g (f.killed i) f.data).1 } := .step hl hc
  rwa [hg] at h

/-- The next step of a process that is neither idle nor held up by a lock. -/
def Fine.next (m : Machine ι χ σ Λ) (procs : List ι) (f : Fine ι χ σ Λ) (i : ι) :
    Option (Fine ι χ σ Λ) :=
  match f.pc i with
  | .at l => match m.code i l with
    | .idle => none
    | .acquire l' => if f.lock = none then some { f.go i (.at l') with lock := some i } else none
    | .release l' => if f.lock = some i then some { f.go i (.at l') with lock := none } else none
    | .step g => some
        { f.go i (.at (g (f.killed i) f.data).2) with data := (g (f.killed i) f.data).1 }
    | .sleep _ _ =>
        if f.lock = some i ∧ f.table = none then some { f.go i (.handing l) with table := some i }
        else none
    | .wakeup c l' =>
        if f.table = none then some { f.go i (.scan c l' procs) with table := some i } else none
  | .handing l => match m.code i l with
    | .sleep c l' => some { f.go i (.dropped c l') with lock := none }
    | _ => none
  | .dropped c l =>
      some { f.go i (.marked c l) with sleeping := Function.update f.sleeping i (some c) }
  | .marked c l => some { f.go i (.off c l) with table := none }
  | .off _ l =>
      if (f.sleeping i).isNone ∧ f.table = none then some { f.go i (.back l) with table := some i }
      else none
  | .back l => some { f.go i (.relock l) with table := none }
  | .relock l => if f.lock = none then some { f.go i (.at l) with lock := some i } else none
  | .scan c l (j :: rest) => some { f.go i (.scan c l rest) with
      sleeping := if f.sleeping j = some c then Function.update f.sleeping j none else f.sleeping }
  | .scan _ l [] => some { f.go i (.at l) with table := none }

theorem FineStep.of_next {f' : Fine ι χ σ Λ}
    (h : f.next m procs i = some f') : FineStep m procs f f' := by
  rw [Fine.next] at h
  cases hpc : f.pc i with
  | «at» l =>
    rw [hpc] at h
    cases hc : m.code i l with
    | idle => simp [hc] at h
    | acquire l' =>
      simp only [hc, Option.ite_none_right_eq_some] at h
      obtain ⟨hfree, h⟩ := h
      cases h
      exact .acquire hpc hc hfree
    | release l' =>
      simp only [hc, Option.ite_none_right_eq_some] at h
      obtain ⟨hlock, h⟩ := h
      cases h
      exact .release hpc hc hlock
    | step g =>
      simp only [hc] at h
      cases h
      exact .step hpc hc
    | sleep c l' =>
      simp only [hc, Option.ite_none_right_eq_some] at h
      obtain ⟨⟨hlock, hfree⟩, h⟩ := h
      cases h
      exact .sleepHand hpc hc hlock hfree
    | wakeup c l' =>
      simp only [hc, Option.ite_none_right_eq_some] at h
      obtain ⟨hfree, h⟩ := h
      cases h
      exact .wakeupBegin hpc hc hfree
  | handing l =>
    rw [hpc] at h
    cases hc : m.code i l with
    | sleep c l' =>
      simp only [hc] at h
      cases h
      exact .sleepDrop hpc hc
    | idle | acquire l' | release l' | step g | wakeup c l' => simp [hc] at h
  | dropped c l =>
    simp only [hpc] at h
    cases h
    exact .sleepMark hpc
  | marked c l =>
    simp only [hpc] at h
    cases h
    exact .sleepSwitch hpc
  | off c l =>
    simp only [hpc, Option.ite_none_right_eq_some, Option.isNone_iff_eq_none] at h
    obtain ⟨⟨hawake, hfree⟩, h⟩ := h
    cases h
    exact .schedule hpc hawake hfree
  | back l =>
    simp only [hpc] at h
    cases h
    exact .sleepTidy hpc
  | relock l =>
    simp only [hpc, Option.ite_none_right_eq_some] at h
    obtain ⟨hfree, h⟩ := h
    cases h
    exact .sleepRelock hpc hfree
  | scan c l rest =>
    cases rest with
    | nil =>
      simp only [hpc] at h
      cases h
      exact .wakeupEnd hpc
    | cons j rest =>
      simp only [hpc] at h
      cases h
      exact .wakeupScan hpc

/-- The processes of a list take a step each; one that is held up does nothing. -/
def Fine.moves (m : Machine ι χ σ Λ) (procs l : List ι) (f : Fine ι χ σ Λ) : Fine ι χ σ Λ :=
  l.foldl (fun f i => (f.next m procs i).getD f) f

theorem reaches_moves (procs l : List ι) (f : Fine ι χ σ Λ) :
    FineReaches m procs f (f.moves m procs l) := by
  induction l generalizing f with
  | nil => exact .refl
  | cons i l ih =>
    refine Relation.ReflTransGen.trans ?_ (ih ((f.next m procs i).getD f))
    cases hn : f.next m procs i with
    | none => exact .refl
    | some f' => exact .single (.of_next hn)

/-! ## Simulation -/

/-- Where a process is in the first machine. -/
def Matches (m : Machine ι χ σ Λ) (f : Fine ι χ σ Λ) (i : ι) (p : Place χ Λ) : Pc ι χ Λ → Prop
  | .at l => p = .run l ∧ f.sleeping i = none
  | .handing l => p = .run l ∧ f.sleeping i = none ∧ f.lock = some i ∧ f.table = some i ∧
      ∃ c l', m.code i l = .sleep c l'
  | .dropped c l => p = .asleep c l ∧ f.sleeping i = none ∧ f.table = some i
  | .marked c l => p = .asleep c l ∧ f.sleeping i = some c ∧ f.table = some i
  | .off c l => f.sleeping i = none ∧ p = .woken l ∨ f.sleeping i = some c ∧
      (p = .asleep c l ∨ p = .woken l ∧ ∃ j l' rest, f.pc j = .scan c l' rest ∧ i ∈ rest)
  | .back l => p = .woken l ∧ f.sleeping i = none ∧ f.table = some i
  | .relock l => p = .woken l ∧ f.sleeping i = none
  | .scan c l _ => p = .run l ∧ f.sleeping i = none ∧ f.table = some i ∧
      ∃ l₀, m.code i l₀ = .wakeup c l

structure Sim (m : Machine ι χ σ Λ) (f : Fine ι χ σ Λ) (s : State ι χ σ Λ) : Prop where
  data : s.data = f.data
  lock : s.lock = f.lock
  killed : s.killed = f.killed
  place : ∀ i, Matches m f i (s.place i) (f.pc i)
  scanning : ∀ i c l rest, f.pc i = .scan c l rest → ∀ j l', s.place j ≠ .asleep c l'

section Simulation

variable {f f' : Fine ι χ σ Λ} {s s' : State ι χ σ Λ} {i j : ι} {p : Place χ Λ} {procs : List ι}

variable {l l' : Λ} {c : χ} {rest : List ι}

/-- What another process does. -/
theorem Matches.frame (h : Matches m f j p (f.pc j)) (hpc : f'.pc j = f.pc j)
    (hsleeping : f'.sleeping j = f.sleeping j) (hlock : f.lock = some j → f'.lock = some j)
    (htable : f.table = some j → f'.table = some j)
    (hscan : ∀ k c l rest, f.sleeping j = some c → f.pc k = .scan c l rest → j ∈ rest →
      ∃ k l rest, f'.pc k = .scan c l rest ∧ j ∈ rest) : Matches m f' j p (f'.pc j) := by
  rw [hpc]
  cases hj : f.pc j with
  | «at» l =>
    rw [hj] at h
    exact ⟨h.1, hsleeping.trans h.2⟩
  | handing l =>
    rw [hj] at h
    exact ⟨h.1, hsleeping.trans h.2.1, hlock h.2.2.1, htable h.2.2.2.1, h.2.2.2.2⟩
  | dropped c l =>
    rw [hj] at h
    exact ⟨h.1, hsleeping.trans h.2.1, htable h.2.2⟩
  | marked c l =>
    rw [hj] at h
    exact ⟨h.1, hsleeping.trans h.2.1, htable h.2.2⟩
  | off c l =>
    rw [hj] at h
    rcases h with ⟨hs, hp⟩ | ⟨hs, hp | ⟨hp, k, l', rest, hk, hmem⟩⟩
    · exact .inl ⟨hsleeping.trans hs, hp⟩
    · exact .inr ⟨hsleeping.trans hs, .inl hp⟩
    · exact .inr ⟨hsleeping.trans hs, .inr ⟨hp, hscan k c l' rest hs hk hmem⟩⟩
  | back l =>
    rw [hj] at h
    exact ⟨h.1, hsleeping.trans h.2.1, htable h.2.2⟩
  | relock l =>
    rw [hj] at h
    exact ⟨h.1, hsleeping.trans h.2⟩
  | scan c l rest =>
    rw [hj] at h
    exact ⟨h.1, hsleeping.trans h.2.1, htable h.2.2.1, h.2.2.2⟩

section

variable (h : Sim m f s)
include h

theorem Sim.at (hl : f.pc i = .at l) : s.place i = .run l ∧ f.sleeping i = none := by
  have hi := h.place i
  rwa [hl] at hi

theorem Sim.scan (hl : f.pc i = .scan c l rest) :
    s.place i = .run l ∧ f.sleeping i = none ∧ f.table = some i ∧ ∃ l₀, m.code i l₀ = .wakeup c l := by
  have hi := h.place i
  rwa [hl] at hi

/-- A step of process `i`, with a step of `i` or none in the first machine. -/
theorem Sim.go {q : Pc ι χ Λ} (hdata : s'.data = f'.data) (hlock : s'.lock = f'.lock)
    (hkilled : s'.killed = f'.killed) (hpc : f'.pc = update f.pc i q)
    (hplace : s'.place = update s.place i p) (hsleeping : ∀ j, j ≠ i → f'.sleeping j = f.sleeping j)
    (hkeep : ∀ j, j ≠ i → f.lock = some j → f'.lock = some j)
    (htable : ∀ j, j ≠ i → f.table = some j → f'.table = some j)
    (hscan : ∀ c l rest, f.pc i = .scan c l rest → rest = []) (hq : ∀ c l rest, q ≠ .scan c l rest)
    (hasleep : ∀ c l, p = .asleep c l → s.place i = .asleep c l ∨ f.table = some i)
    (hi : Matches m f' i p q) : Sim m f' s' := by
  have hother : ∀ k c l rest, f'.pc k = .scan c l rest → k ≠ i ∧ f.pc k = .scan c l rest := by
    intro k c l rest hk
    rw [hpc] at hk
    by_cases hki : k = i
    · subst hki
      rw [update_self] at hk
      exact absurd hk (hq c l rest)
    · rw [update_of_ne hki] at hk
      exact ⟨hki, hk⟩
  refine ⟨hdata, hlock, hkilled, fun j => ?_, fun k c l rest hk j l' => ?_⟩
  · by_cases hj : j = i
    · subst hj
      rw [hpc, hplace, update_self, update_self]
      exact hi
    · rw [hplace, update_of_ne hj]
      refine (h.place j).frame (by rw [hpc, update_of_ne hj]) (hsleeping j hj) (hkeep j hj)
        (htable j hj) fun k c l rest _ hk hmem => ?_
      have hki : k ≠ i := by
        rintro rfl
        rw [hscan c l rest hk] at hmem
        cases hmem
      exact ⟨k, l, rest, by rw [hpc, update_of_ne hki, hk], hmem⟩
  · obtain ⟨hki, hk⟩ := hother k c l rest hk
    rw [hplace]
    by_cases hj : j = i
    · subst hj
      rw [update_self]
      intro hp
      rcases hasleep c l' hp with hs | ht
      · exact h.scanning k c l rest hk j l' hs
      · rw [(h.scan hk).2.2.1] at ht
        exact hki (Option.some.inj ht)
    · rw [update_of_ne hj]
      exact h.scanning k c l rest hk j l'

/-- A step of a process outside `sleep` and `wakeup`, the same in both machines. -/
theorem Sim.run (hl : f.pc i = .at l) (hdata : s'.data = f'.data) (hlock : s'.lock = f'.lock)
    (hkilled : s'.killed = f'.killed) (hpc : f'.pc = update f.pc i (.at l'))
    (hplace : s'.place = update s.place i (.run l')) (hsleeping : f'.sleeping = f.sleeping)
    (hkeep : ∀ j, j ≠ i → f.lock = some j → f'.lock = some j) (htable : f'.table = f.table) :
    Sim m f' s' := by
  refine h.go hdata hlock hkilled hpc hplace (fun j _ => by rw [hsleeping]) hkeep
    (fun j _ ht => by rw [htable, ht]) ?_ (fun _ _ _ hq => by cases hq) (fun _ _ hp => by cases hp)
    ⟨rfl, by rw [hsleeping]; exact (h.at hl).2⟩
  intro c l rest hs
  rw [hl] at hs
  cases hs

end

theorem Place.wake_run (c : χ) (l : Λ) : (Place.run l).wake c = .run l := rfl

theorem Place.wake_ne (c : χ) (l : Λ) (p : Place χ Λ) : p.wake c ≠ .asleep c l := by
  cases p with
  | run l => nofun
  | asleep c' l' =>
    by_cases hc : c' = c
    · rw [Place.wake, if_pos hc]
      nofun
    · rw [Place.wake, if_neg hc]
      rintro ⟨⟩
      exact hc rfl
  | woken l => nofun

theorem Place.asleep_of_wake {c' : χ} (h : p.wake c = .asleep c' l) : p = .asleep c' l := by
  cases p with
  | run l | woken l => cases h
  | asleep c₁ l₁ =>
    rw [Place.wake] at h
    split at h
    · cases h
    · exact h

section

variable (h : Sim m f s)
include h

/-- The start of `wakeup`, for another process: it is off the processor, and the scan will come to it
if it sleeps on the channel. -/
theorem Sim.wakeupBegin (hprocs : ∀ i, i ∈ procs)
    (hl : f.pc i = .at l) (hc : m.code i l = .wakeup c l') (hfree : f.table = none) :
    Sim m { f.go i (.scan c l' procs) with table := some i }
      { s with place := update (fun j => (s.place j).wake c) i (.run l') } := by
  refine ⟨h.data, h.lock, h.killed, fun j => ?_, fun k c' l₁ rest hk j l₂ => ?_⟩
  · by_cases hj : j = i
    · subst hj
      simp only [Fine.go, update_self]
      exact ⟨rfl, (h.at hl).2, rfl, l, hc⟩
    · simp only [Fine.go, update_of_ne hj]
      have hp := h.place j
      cases hpc : f.pc j with
      | «at» l₁ =>
        rw [hpc] at hp
        exact ⟨by rw [hp.1, Place.wake_run], hp.2⟩
      | off c' l₁ =>
        rw [hpc] at hp
        rcases hp with ⟨hs, hp⟩ | ⟨hs, hp | ⟨hp, k, l₂, rest, hk, -⟩⟩
        · exact .inl ⟨hs, by rw [hp]; rfl⟩
        · refine .inr ⟨hs, ?_⟩
          rw [hp, Place.wake]
          split
          · rename_i hc
            subst hc
            exact .inr ⟨rfl, i, l', procs, update_self .., hprocs j⟩
          · exact .inl rfl
        · have ht := (h.scan hk).2.2.1
          rw [hfree] at ht
          cases ht
      | relock l₁ =>
        rw [hpc] at hp
        exact ⟨by rw [hp.1]; rfl, hp.2⟩
      | handing l₁ =>
        rw [hpc] at hp
        have ht := hp.2.2.2.1
        rw [hfree] at ht
        cases ht
      | scan c' l₁ rest =>
        rw [hpc] at hp
        have ht := hp.2.2.1
        rw [hfree] at ht
        cases ht
      | dropped c' l₁ | marked c' l₁ | back l₁ =>
        rw [hpc] at hp
        have ht := hp.2.2
        rw [hfree] at ht
        cases ht
  · simp only [Fine.go] at hk
    by_cases hki : k = i
    · subst hki
      rw [update_self] at hk
      cases hk
      by_cases hj : j = k
      · subst hj
        simp only [update_self]
        nofun
      · simp only [update_of_ne hj]
        exact Place.wake_ne c l₂ (s.place j)
    · rw [update_of_ne hki] at hk
      have ht := (h.scan hk).2.2.1
      rw [hfree] at ht
      cases ht

/-- While a scan goes on, whoever is still marked as sleeping on the channel is ahead of it. -/
theorem Sim.ahead (hl : f.pc i = .scan c l rest)
    (hj : f.sleeping j = some c) : ∃ l', f.pc j = .off c l' ∧ s.place j = .woken l' ∧ j ∈ rest := by
  have hp := h.place j
  cases hpc : f.pc j with
  | «at» l | relock l =>
    rw [hpc] at hp
    rw [hp.2] at hj
    cases hj
  | handing l | dropped c l | back l | scan c l rest =>
    rw [hpc] at hp
    rw [hp.2.1] at hj
    cases hj
  | marked c' l' =>
    rw [hpc] at hp
    rw [hp.2.1] at hj
    cases hj
    exact absurd hp.1 (h.scanning i c l rest hl j l')
  | off c' l' =>
    rw [hpc] at hp
    rcases hp with ⟨hs, -⟩ | ⟨hs, hp | ⟨hp, k, l'', rest', hk, hmem⟩⟩
    · rw [hs] at hj
      cases hj
    · rw [hs] at hj
      cases hj
      exact absurd hp (h.scanning i c l rest hl j l')
    · have hki : k = i := by
        have ht := (h.scan hk).2.2.1
        rw [(h.scan hl).2.2.1] at ht
        exact (Option.some.inj ht).symm
      subst hki
      rw [hl] at hk
      cases hk
      exact ⟨l', rfl, hp, hmem⟩

/-- One process of the table is looked at. -/
theorem Sim.wakeupScan {k : ι} (hl : f.pc i = .scan c l (k :: rest)) :
    Sim m { f.go i (.scan c l rest) with
      sleeping := if f.sleeping k = some c then update f.sleeping k none else f.sleeping } s := by
  obtain ⟨hrun, hawake, htable, hcode⟩ := h.scan hl
  obtain ⟨sl, hsl⟩ : ∃ sl, sl =
    if f.sleeping k = some c then update f.sleeping k none else f.sleeping := ⟨_, rfl⟩
  rw [← hsl]
  -- only a process that sleeps on the channel is changed
  have hsame : ∀ j, ¬ (j = k ∧ f.sleeping k = some c) → sl j = f.sleeping j := by
    intro j hj
    rw [hsl]
    split
    · rename_i hk
      rw [update_of_ne fun hjk => hj ⟨hjk, hk⟩]
    · rfl
  refine ⟨h.data, h.lock, h.killed, fun j => ?_, fun i' c' l₁ rest' hi' => ?_⟩
  · by_cases hj : j = i
    · subst hj
      simp only [Fine.go, update_self]
      refine ⟨hrun, ?_, htable, hcode⟩
      rw [← hawake]
      refine hsame j fun ⟨hjk, hk⟩ => ?_
      rw [← hjk, hawake] at hk
      cases hk
    by_cases hk : j = k ∧ f.sleeping k = some c
    · obtain ⟨rfl, hk⟩ := hk
      obtain ⟨l', hpc, hwoken, -⟩ := h.ahead hl hk
      simp only [Fine.go, update_of_ne hj, hpc]
      refine .inl ⟨?_, hwoken⟩
      simp only [hsl, if_pos hk, update_self]
    · refine (h.place j).frame (update_of_ne hj ..) (hsame j hk) id id ?_
      intro i' c' l₁ rest' hs hi' hmem
      have heq : i' = i := by
        have ht := (h.scan hi').2.2.1
        rw [htable] at ht
        exact (Option.some.inj ht).symm
      subst heq
      rw [hl] at hi'
      cases hi'
      refine ⟨i', l, rest, update_self .., ?_⟩
      rcases List.mem_cons.mp hmem with hjk | hmem
      · subst hjk
        exact absurd ⟨rfl, hs⟩ hk
      · exact hmem
  · simp only [Fine.go] at hi'
    by_cases heq : i' = i
    · subst heq
      rw [update_self] at hi'
      cases hi'
      exact h.scanning i' c l _ hl
    · rw [update_of_ne heq] at hi'
      exact h.scanning i' c' l₁ rest' hi'

/-- A process is killed: if it sleeps it goes on. -/
theorem Sim.kill (hfree : f.table = none) :
    Sim m { f with killed := update f.killed j true
                   sleeping := update f.sleeping j none }
      { s.go j (s.place j).kill with killed := update s.killed j true } := by
  have hscan : ∀ c l rest, f.pc j ≠ .scan c l rest := by
    intro c l rest hs
    have ht := (h.scan hs).2.2.1
    rw [hfree] at ht
    cases ht
  refine h.go (i := j) (q := f.pc j) h.data h.lock (by simp only [h.killed])
    (update_eq_self ..).symm rfl (fun k hk => update_of_ne hk ..) (fun _ _ => id)
    (fun _ _ => id) (fun c l rest hs => absurd hs (hscan c l rest)) hscan ?_ ?_
  · intro c l hp
    cases hpl : s.place j <;> rw [hpl] at hp <;> cases hp
  · have hp := h.place j
    cases hpc : f.pc j with
    | «at» l =>
      rw [hpc] at hp
      exact ⟨by rw [hp.1]; rfl, update_self ..⟩
    | relock l =>
      rw [hpc] at hp
      exact ⟨by rw [hp.1]; rfl, update_self ..⟩
    | off c l =>
      rw [hpc] at hp
      refine .inl ⟨update_self .., ?_⟩
      rcases hp with ⟨-, hp⟩ | ⟨-, hp | ⟨hp, -⟩⟩ <;> rw [hp] <;> rfl
    | handing l =>
      rw [hpc] at hp
      have ht := hp.2.2.2.1
      rw [hfree] at ht
      cases ht
    | scan c l rest => exact absurd hpc (hscan c l rest)
    | dropped c l | marked c l | back l =>
      rw [hpc] at hp
      have ht := hp.2.2
      rw [hfree] at ht
      cases ht

end

/-- A small step is one step of the first machine, or none. -/
theorem FineStep.simulation (hprocs : ∀ i, i ∈ procs) (hstep : FineStep m procs f f') (h : Sim m f s) :
    ∃ s', Reaches m s s' ∧ Sim m f' s' := by
  cases hstep with
  | call hl hc hmenu =>
    refine ⟨_, .single (.call (h.at hl).1 hc (h.data ▸ hmenu)), ?_⟩
    exact h.run hl h.data h.lock h.killed rfl rfl rfl (fun _ _ => id) rfl
  | env he =>
    refine ⟨_, .single (.env (h.data ▸ he)), ?_⟩
    exact ⟨rfl, h.lock, h.killed, fun j => (h.place j).frame rfl rfl id id
      fun k c l rest _ hk hmem => ⟨k, l, rest, hk, hmem⟩, h.scanning⟩
  | acquire hl hc hfree =>
    refine ⟨_, .single (.acquire (h.at hl).1 hc (h.lock.trans hfree)), ?_⟩
    refine h.run hl h.data rfl h.killed rfl rfl rfl (fun j _ hj => ?_) rfl
    rw [hfree] at hj
    cases hj
  | release hl hc hlock =>
    refine ⟨_, .single (.release (h.at hl).1 hc (h.lock.trans hlock)), ?_⟩
    refine h.run hl h.data rfl h.killed rfl rfl rfl (fun j hj hj' => ?_) rfl
    rw [hlock] at hj'
    exact absurd (Option.some.inj hj').symm hj
  | @step i l g hl hc =>
    refine ⟨_, .single (.step (h.at hl).1 hc), ?_⟩
    rw [h.killed, h.data]
    exact h.run hl rfl h.lock h.killed rfl rfl rfl (fun _ _ => id) rfl
  | @sleepHand i l l' c hl hc hlock hfree =>
    refine ⟨s, .refl, ?_⟩
    refine h.go (i := i) (p := .run l) (q := .handing l) h.data h.lock h.killed rfl
      (update_eq_self_iff.mpr (h.at hl).1.symm).symm (fun _ _ => rfl) (fun _ _ => id)
      (fun j _ hj => ?_) (by rw [hl]; nofun) nofun nofun
      ⟨rfl, (h.at hl).2, hlock, rfl, c, l', hc⟩
    rw [hfree] at hj
    cases hj
  | @sleepDrop i l l' c hl hc =>
    have hp := h.place i
    rw [hl] at hp
    obtain ⟨hrun, hawake, hlock, htable, -⟩ := hp
    refine ⟨_, .single (.sleep hrun hc (h.lock.trans hlock)), ?_⟩
    refine h.go h.data rfl h.killed rfl rfl (fun _ _ => rfl) (fun j hj hj' => ?_) (fun _ _ => id)
      (by rw [hl]; nofun) nofun (fun _ _ _ => .inr htable)
      ⟨rfl, hawake, htable⟩
    rw [hlock] at hj'
    exact absurd (Option.some.inj hj').symm hj
  | @sleepMark i l c hl =>
    have hp := h.place i
    rw [hl] at hp
    obtain ⟨hasleep, hawake, htable⟩ := hp
    refine ⟨s, .refl, ?_⟩
    exact h.go (p := .asleep c l) h.data h.lock h.killed rfl
      (update_eq_self_iff.mpr hasleep.symm).symm (fun j hj => update_of_ne hj ..)
      (fun _ _ => id) (fun _ _ => id) (by rw [hl]; nofun) nofun
      (fun _ _ _ => .inr htable) ⟨rfl, update_self .., htable⟩
  | @sleepSwitch i l c hl =>
    have hp := h.place i
    rw [hl] at hp
    obtain ⟨hasleep, hmarked, htable⟩ := hp
    refine ⟨s, .refl, ?_⟩
    refine h.go (p := .asleep c l) h.data h.lock h.killed rfl
      (update_eq_self_iff.mpr hasleep.symm).symm (fun _ _ => rfl) (fun _ _ => id)
      (fun j hj hj' => ?_) (by rw [hl]; nofun) nofun
      (fun _ _ _ => .inr htable) (.inr ⟨hmarked, .inl rfl⟩)
    rw [htable] at hj'
    exact absurd (Option.some.inj hj').symm hj
  | @schedule i l c hl hawake hfree =>
    have hwoken : s.place i = .woken l := by
      have hp := h.place i
      rw [hl] at hp
      rcases hp with ⟨-, hp⟩ | ⟨hs, -⟩
      · exact hp
      · rw [hawake] at hs
        cases hs
    refine ⟨s, .refl, ?_⟩
    refine h.go (p := .woken l) h.data h.lock h.killed rfl
      (update_eq_self_iff.mpr hwoken.symm).symm (fun _ _ => rfl) (fun _ _ => id)
      (fun j _ hj => ?_) (by rw [hl]; nofun) nofun nofun ⟨rfl, hawake, rfl⟩
    rw [hfree] at hj
    cases hj
  | @sleepTidy i l hl =>
    have hp := h.place i
    rw [hl] at hp
    obtain ⟨hwoken, hawake, htable⟩ := hp
    refine ⟨s, .refl, ?_⟩
    refine h.go (p := .woken l) h.data h.lock h.killed rfl
      (update_eq_self_iff.mpr hwoken.symm).symm (fun _ _ => rfl) (fun _ _ => id)
      (fun j hj hj' => ?_) (by rw [hl]; nofun) nofun nofun
      ⟨rfl, hawake⟩
    rw [htable] at hj'
    exact absurd (Option.some.inj hj').symm hj
  | @sleepRelock i l hl hfree =>
    have hp := h.place i
    rw [hl] at hp
    obtain ⟨hwoken, hawake⟩ := hp
    refine ⟨_, .single (.resume hwoken (h.lock.trans hfree)), ?_⟩
    refine h.go h.data rfl h.killed rfl rfl (fun _ _ => rfl) (fun j _ hj => ?_) (fun _ _ => id)
      (by rw [hl]; nofun) nofun nofun ⟨rfl, hawake⟩
    rw [hfree] at hj
    cases hj
  | wakeupBegin hl hc hfree =>
    exact ⟨_, .single (.wakeup (h.at hl).1 hc), h.wakeupBegin hprocs hl hc hfree⟩
  | wakeupScan hl => exact ⟨s, .refl, h.wakeupScan hl⟩
  | @wakeupEnd i l c hl =>
    obtain ⟨hrun, hawake, htable, hcode⟩ := h.scan hl
    refine ⟨s, .refl, ?_⟩
    refine h.go (p := .run l) h.data h.lock h.killed rfl
      (update_eq_self_iff.mpr hrun.symm).symm (fun _ _ => rfl) (fun _ _ => id)
      (fun j hj hj' => ?_) (by rw [hl]; rintro _ _ _ ⟨⟩; rfl) nofun nofun
      ⟨rfl, hawake⟩
    rw [htable] at hj'
    exact absurd (Option.some.inj hj').symm hj
  | kill j hfree => exact ⟨_, .single (.kill j), h.kill hfree⟩

/-- The second machine does nothing that the first cannot do. -/
theorem simulation {d : σ} {l : ι → Λ} (hprocs : ∀ i, i ∈ procs)
    (hrun : FineReaches m procs (Fine.start d l) f) :
    ∃ s, Reaches m (State.start d l) s ∧ Sim m f s := by
  induction hrun with
  | refl => exact ⟨_, .refl, rfl, rfl, rfl, fun i => ⟨rfl, rfl⟩, nofun⟩
  | tail _ hstep ih =>
    obtain ⟨s, hs, h⟩ := ih
    obtain ⟨s', hs', h'⟩ := hstep.simulation hprocs h
    exact ⟨s', hs.trans hs', h'⟩

/-- A process marked as sleeping is asleep, or a scan for its channel is on its way to it. -/
theorem Sim.sleeping (h : Sim m f s) (hi : f.sleeping i = some c) :
    (∃ l, s.place i = .asleep c l) ∨
      ∃ j l rest, f.pc j = .scan c l rest ∧ i ∈ rest ∧ s.place j = .run l := by
  have hp := h.place i
  cases hpc : f.pc i with
  | «at» l | relock l =>
    rw [hpc] at hp
    rw [hp.2] at hi
    cases hi
  | handing l | dropped c l | back l | scan c l rest =>
    rw [hpc] at hp
    rw [hp.2.1] at hi
    cases hi
  | marked c' l =>
    rw [hpc] at hp
    rw [hp.2.1] at hi
    cases hi
    exact .inl ⟨l, hp.1⟩
  | off c' l =>
    rw [hpc] at hp
    rcases hp with ⟨hs, -⟩ | ⟨hs, hp | ⟨-, j, l', rest, hj, hmem⟩⟩
    · rw [hs] at hi
      cases hi
    · rw [hs] at hi
      cases hi
      exact .inl ⟨l, hp⟩
    · rw [hs] at hi
      cases hi
      exact .inr ⟨j, l', rest, hj, hmem, (h.scan hj).1⟩

end Simulation

end Monitor
