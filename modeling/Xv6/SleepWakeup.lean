import Xv6.Outline

/-!
# No lost wakeup

Consumers take `lk`, test a condition and call `sleep(chan, lk)` while it is false; producers make it
true under `lk` and call `wakeup(chan)` before or after they release `lk`. Other processes call `wakeup`
on other channels. `Fine` of the monitor library is proc.c's `sleep`, `wakeup`, `wakeup1`, `kill` and the
part of `scheduler` and `sched` that hands `ptable.lock` over.
-/

namespace Xv6.Sleep

open Monitor

/-- `use` is what a consumer does once the condition holds, `make` what a producer does; `κ` says which
of several uses or ways it is. -/
structure Users (κ χ σ : Type) where
  chan : χ
  cond : σ → Bool
  use : κ → σ → σ
  make : κ → σ → σ
  cond_make : ∀ k d, cond (make k d) = true

/-- The consumer is at `enter` to `leave`, the producer at `lock` to `unlock`; with `early` it calls
`wakeup` before `release`. -/
inductive Loc (κ χ : Type)
  | out
  | enter (k : κ)
  | test (k : κ)
  | doze (k : κ)
  | use (k : κ)
  | leave
  | lock (k : κ) (early : Bool)
  | make (k : κ) (early : Bool)
  | wake (early : Bool)
  | unlock
  | other (c : χ)

variable {ι κ χ σ : Type} [DecidableEq ι] [DecidableEq χ]

def machine (u : Users κ χ σ) : Machine ι χ σ (Loc κ χ) where
  code _ l := match l with
    | .out => .idle
    | .enter k => .acquire (.test k)
    | .test k => .step fun _ d => (d, if u.cond d then .use k else .doze k)
    | .doze k => .sleep u.chan (.test k)
    | .use k => .step fun _ d => (u.use k d, .leave)
    | .leave => .release .out
    | .lock k early => .acquire (.make k early)
    | .make k early => .step fun _ d => (u.make k d, if early then .wake true else .unlock)
    | .wake early => .wakeup u.chan (if early then .leave else .out)
    | .unlock => .release (.wake false)
    | .other c => if c = u.chan then .idle else .wakeup c .out
  menu _ _ l l' := match l, l' with
    | .out, .enter _ | .out, .lock _ _ | .out, .other _ => True
    | _, _ => False
  env _ _ := False

def held : Loc κ χ → Bool
  | .test _ | .doze _ | .use _ | .leave | .make _ _ | .wake true | .unlock => true
  | _ => false

def Asserts (u : Users κ χ σ) (l : Loc κ χ) (d : σ) : Prop :=
  match l with
  | .doze _ => u.cond d = false
  | .use _ => u.cond d = true
  | _ => True

/-- Where a producer that has made the condition true still has its `wakeup` to call. -/
def Owes (u : Users κ χ σ) (l : Loc κ χ) (c : χ) : Prop :=
  match l with
  | .wake _ | .unlock => c = u.chan
  | _ => False

variable {u : Users κ χ σ} {l : Loc κ χ} {p : Pc ι χ (Loc κ χ)}

theorem asserts_of_held {d : σ} (h : held l = false) : Asserts u l d := by
  cases l with
  | doze k | use k => cases h
  | out | enter k | test k | leave | lock k e | make k e | wake e | unlock | other c => trivial

def outline (u : Users κ χ σ) : Outline (machine (ι := ι) u) where
  held := held
  inv _ := True
  free _ := True
  run _ := Asserts u
  wait _ l _ := ∃ k, l = .test k
  reason c d := c = u.chan → u.cond d = false
  owes := Owes u
  call {i l l' d} hc hmenu _ _ := by
    cases l with
    | out =>
      cases l' with
      | enter k | lock k e | other c => exact ⟨rfl, trivial, nofun⟩
      | _ => cases hmenu
    | enter k | test k | doze k | use k | leave | lock k e | make k e | wake e | unlock | other c =>
      cases hmenu
  env he := he.elim
  acquire {i l l' d} hc _ _ _ := by
    cases l with
    | enter k | lock k e =>
      cases hc
      exact ⟨rfl, trivial, nofun⟩
    | other c =>
      simp only [machine] at hc
      split at hc <;> cases hc
    | _ => cases hc
  release {i l l' d} hc _ _ := by
    cases l with
    | leave =>
      cases hc
      exact ⟨rfl, trivial, trivial, nofun⟩
    | unlock =>
      cases hc
      exact ⟨rfl, trivial, trivial, fun c hc => hc⟩
    | other c =>
      simp only [machine] at hc
      split at hc <;> cases hc
    | _ => cases hc
  step {i l f d} _ hc _ hrun := by
    cases l with
    | test k =>
      cases hc
      cases hd : u.cond d with
      | false =>
        simp only [hd]
        exact ⟨trivial, fun _ => id, hd, rfl, nofun, fun c hr => .inl hr⟩
      | true =>
        simp only [hd]
        exact ⟨trivial, fun _ => id, hd, rfl, nofun, fun c hr => .inl hr⟩
    | use k =>
      cases hc
      refine ⟨trivial, fun _ => id, trivial, rfl, nofun, fun c hr => .inl fun hc => ?_⟩
      -- nobody sleeps with a reason here: the condition has just been found true
      have hd : u.cond d = true := hrun
      rw [hr hc] at hd
      cases hd
    | make k e =>
      cases hc
      cases e with
      | false =>
        refine ⟨trivial, fun _ => id, trivial, rfl, nofun, fun c hr => ?_⟩
        by_cases hc : c = u.chan
        · exact .inr hc
        · exact .inl fun h => absurd h hc
      | true =>
        refine ⟨trivial, fun _ => id, trivial, rfl, nofun, fun c hr => ?_⟩
        by_cases hc : c = u.chan
        · exact .inr hc
        · exact .inl fun h => absurd h hc
    | other c =>
      simp only [machine] at hc
      split at hc <;> cases hc
    | _ => cases hc
  stable_run {i j l l' f d} _ _ hc _ _ hexcl hl := by
    have hheld : held l' = true := by
      cases l' with
      | test k | use k | make k e => rfl
      | other c =>
        simp only [machine] at hc
        split at hc <;> cases hc
      | _ => cases hc
    refine asserts_of_held ?_
    cases h : held l with
    | false => rfl
    | true => exact (hexcl h hheld).elim
  stable_wait _ _ _ _ _ hw := hw
  sleep {i l l' c d} hc _ hrun := by
    cases l with
    | doze k =>
      cases hc
      exact ⟨rfl, trivial, ⟨k, rfl⟩, fun _ => hrun, nofun⟩
    | other c =>
      simp only [machine] at hc
      split at hc <;> cases hc
    | _ => cases hc
  wakeup {i l l' c d} hc _ _ := by
    cases l with
    | wake e =>
      cases hc
      cases e with
      | false => exact ⟨rfl, trivial, fun c hne hc => absurd hc hne⟩
      | true => exact ⟨rfl, trivial, fun c hne hc => absurd hc hne⟩
    | other c' =>
      simp only [machine] at hc
      split at hc
      · cases hc
      · cases hc
        exact ⟨rfl, trivial, nofun⟩
    | _ => cases hc
  resume _ _ hw := by
    obtain ⟨k, rfl⟩ := hw
    trivial

/-- A producer that has made the condition true and not yet finished its `wakeup(chan)`. -/
def Waking (u : Users κ χ σ) (p : Pc ι χ (Loc κ χ)) : Prop :=
  p = .at .unlock ∨ (∃ early, p = .at (.wake early)) ∨
    ∃ (early : Bool) (rest : List ι), p = .scan u.chan (if early then .leave else .out) rest

theorem waking_of_owes (hp : p = .at l) (ho : Owes u l u.chan) : Waking u p := by
  cases l with
  | wake e => exact .inr (.inl ⟨e, hp⟩)
  | unlock => exact .inl hp
  | _ => cases ho

theorem scan_chan {i : ι} {c : χ} {l₀ : Loc κ χ} {rest : List ι} (hp : p = .scan c l rest)
    (hcode : (machine u).code i l₀ = .wakeup c l) (hc : c = u.chan ∨ Owes u l u.chan) :
    ∃ (early : Bool) (rest : List ι), p = .scan u.chan (if early then .leave else .out) rest := by
  cases l₀ with
  | wake e =>
    cases hcode
    exact ⟨e, rest, hp⟩
  | other c' =>
    simp only [machine] at hcode
    split at hcode
    · cases hcode
    · rename_i hne
      cases hcode
      exact (hc.resolve_left hne).elim
  | _ => cases hcode

theorem no_lost_wakeup (u : Users κ χ σ) {procs : List ι} (hprocs : ∀ i, i ∈ procs) (d : σ)
    {f : Fine ι χ σ (Loc κ χ)}
    (hrun : FineReaches (machine u) procs (Fine.start d fun _ => .out) f) {i : ι}
    (hi : f.sleeping i = some u.chan) (hcond : u.cond f.data = true) : ∃ j, Waking u (f.pc j) := by
  have hstart : (outline u).Holds (State.start d fun _ : ι => .out) :=
    Outline.holds_start trivial trivial fun _ => ⟨rfl, trivial⟩
  rcases (Outline.fine hprocs hstart hrun).sleeping i u.chan hi with
    hr | ⟨j, l, hj, ho⟩ | ⟨j, c, l₀, l, rest, hj, hl₀, hc⟩
  · rw [hr rfl] at hcond
    cases hcond
  · exact ⟨j, waking_of_owes hj ho⟩
  · exact ⟨j, .inr (.inr (scan_chan hj hl₀ hc))⟩

/-- sleep1.p's queue: consumers wait for a positive value and count it down, producers count it up. -/
def queue : Users Unit Unit ℕ where
  chan := ()
  cond v := decide (0 < v)
  use _ v := v - 1
  make _ v := v + 1
  cond_make _ v := decide_eq_true (Nat.succ_pos v)

def still : Fine (Fin 2) Unit ℕ (Loc Unit Unit) := Fine.start 0 fun _ => .out

/-- The consumer sleeps. -/
def dozing : Fine (Fin 2) Unit ℕ (Loc Unit Unit) :=
  (still.go 0 (.at (.enter ()))).moves (machine queue) [0, 1] [0, 0, 0, 0, 0, 0]

/-- And the producer has counted up and not yet released the lock. -/
def waking : Fine (Fin 2) Unit ℕ (Loc Unit Unit) :=
  (dozing.go 1 (.at (.lock () false))).moves (machine queue) [0, 1] [1, 1]

theorem waking_reached : FineReaches (machine queue) [0, 1] still waking := by
  have henter : FineStep (machine queue) [0, 1] still (still.go 0 (.at (.enter ()))) :=
    .call rfl rfl trivial
  have hlock : FineStep (machine queue) [0, 1] dozing (dozing.go 1 (.at (.lock () false))) :=
    .call rfl rfl trivial
  have hdozing : FineReaches (machine queue) [0, 1] still dozing :=
    (Relation.ReflTransGen.single henter).trans (reaches_moves ..)
  exact hdozing.trans ((Relation.ReflTransGen.single hlock).trans (reaches_moves ..))

theorem no_lost_wakeup_queue : waking.sleeping 0 = some () ∧ ∃ j, Waking queue (waking.pc j) := by
  have hsleeping : waking.sleeping 0 = some () := rfl
  exact ⟨hsleeping, no_lost_wakeup queue (by decide) 0 waking_reached hsleeping (by decide)⟩

end Xv6.Sleep
