import Xv6.LogModel

/-!
# The process table

`fork`, `exit`, `wait`, `kill` and `sleep`/`wakeup` of `proc.c`, on the table that `ptable.lock`
protects. Each of them runs under that lock up to its end or to its `sleep`, so a step is one such
section; between two steps the lock is free.

`uid`, `forks`, `allocs` and `trace` are not kernel state. A process is known by the number of the
`fork` that created it, since slots and process ids are used again.
-/

namespace Xv6.Ptable

open Resumption Function

abbrev NPROC : ℕ := 64

scoped instance neZero_NPROC : NeZero NPROC := ⟨by decide⟩

abbrev Slot := Fin NPROC

inductive ProcState
  | unused
  | embryo
  | sleeping
  | runnable
  | running
  | zombie
deriving DecidableEq

/-- What a process sleeps on: the address of a `struct proc` in `wait`, or of something else. -/
inductive Chan
  | proc (p : Slot)
  | other (n : ℕ)
deriving DecidableEq

structure Proc where
  state : ProcState
  pid : ℤ
  parent : Option Slot
  chan : Option Chan
  killed : Bool
deriving DecidableEq

/-- Where a process is when it leaves the table alone: in `wait`, in another `sleep`, or elsewhere. -/
inductive Pc
  | elsewhere
  | wait
  | sleep
deriving DecidableEq

inductive Event
  | forked (child parent : ℕ) (pid : ℤ)
  | exited (u : ℕ)
  | reaped (child parent : ℕ) (pid : ℤ)
  | killed (u : ℕ) (pid : ℤ)
  | stray (pid : ℤ)
  | trapped (u : ℕ)
deriving DecidableEq

structure State where
  proc : Slot → Proc
  nextpid : ℤ
  initproc : Slot
  pc : Slot → Pc
  uid : Slot → ℕ
  forks : ℕ
  allocs : ℕ
  trace : List Event

abbrev M := EStateM Stop State

namespace State

def setProc (s : State) (q : Slot) (x : Proc) : State := { s with proc := Function.update s.proc q x }

def setPc (s : State) (q : Slot) (pc : Pc) : State := { s with pc := Function.update s.pc q pc }

def emit (s : State) (e : Event) : State := { s with trace := s.trace ++ [e] }

/-- The first slot with property `P`, in the order of the table. -/
def first (s : State) (P : Proc → Bool) : Option Slot := (List.finRange NPROC).find? fun q => P (s.proc q)

end State

/-- Arithmetic of `int`. -/
def int32 (n : ℤ) : ℤ := n.bmod (2 ^ 32)

/-- `userinit` has set up the first process. -/
def boot : State where
  proc := Function.update (fun _ => ⟨.unused, 0, none, none, false⟩) 0 ⟨.runnable, 1, none, none, false⟩
  nextpid := 2
  initproc := 0
  pc := fun _ => .elsewhere
  uid := fun _ => 0
  forks := 1
  allocs := 1
  trace := []

theorem boot_unused : ∀ q : Slot, q ≠ 0 → (boot.proc q).state = .unused := by decide

/-! ## proc.c -/

/-- Whether `kalloc` and `copyuvm` find the memory that `fork` needs. -/
inductive Supply
  | noStack
  | noSpace
  | enough

/-- The part of `allocproc` up to the kernel stack. -/
def allocproc : M (Option Slot) := do
  let s ← get
  match s.first fun x => x.state = .unused with
  | none => return none
  | some q =>
    set { s.setProc q { s.proc q with state := .embryo, pid := s.nextpid } with
      nextpid := int32 (s.nextpid + 1), allocs := s.allocs + 1 }
    return some q

def fork (p : Slot) (m : Supply) : M ℤ := do
  match ← allocproc with
  | none => return -1
  | some q =>
    let s ← get
    match m with
    | .noStack =>
      set (s.setProc q { s.proc q with state := .unused })
      return -1
    | .noSpace =>
      set (s.setProc q { s.proc q with state := .unused })
      return -1
    | .enough =>
      let pid := (s.proc q).pid
      set { (s.setProc q { s.proc q with parent := some p, state := .runnable }).emit
          (.forked s.forks (s.uid p) pid) with
        pc := Function.update s.pc q .elsewhere
        uid := Function.update s.uid q s.forks
        forks := s.forks + 1 }
      return pid

def Proc.woken (x : Proc) (chan : Option Chan) : Proc :=
  if x.state = .sleeping ∧ x.chan = chan then { x with state := .runnable } else x

def wakeup1 (chan : Option Chan) : M Unit :=
  modify fun s => { s with proc := fun q => (s.proc q).woken chan }

/-- One round of the loop in `exit` that passes the children to `init`. -/
def passChild (p q : Slot) : M Unit := do
  let s ← get
  if (s.proc q).parent = some p then
    set (s.setProc q { s.proc q with parent := some s.initproc })
    if (s.proc q).state = .zombie then wakeup1 (some (.proc s.initproc))

/-- `exit` behind the closing of files. -/
def exit (p : Slot) : M Unit := do
  let s ← get
  if p = s.initproc then throw (.panic "init exiting")
  else
    wakeup1 ((s.proc p).parent.map Chan.proc)
    (List.finRange NPROC).forM (passChild p)
    modify fun s => (s.setProc p { s.proc p with state := .zombie }).emit (.exited (s.uid p))

/-- `sleep` under `ptable.lock`. -/
def sleep (p : Slot) (chan : Chan) (pc : Pc) : M Unit :=
  modify fun s => (s.setProc p { s.proc p with chan := some chan, state := .sleeping }).setPc p pc

/-- What follows `sched` in `sleep`. -/
def wake (p : Slot) : M Unit :=
  modify fun s => (s.setProc p { s.proc p with chan := none }).setPc p .elsewhere

/-- One round of the outer loop in `wait`; without a result the process goes to sleep. -/
def waitRound (p : Slot) : M (Option ℤ) := do
  let s ← get
  match s.first fun x => x.parent = some p ∧ x.state = .zombie with
  | some q =>
    set ((s.setProc q { s.proc q with pid := 0, parent := none, killed := false, state := .unused }).emit
      (.reaped (s.uid q) (s.uid p) (s.proc q).pid))
    return some (s.proc q).pid
  | none =>
    match s.first fun x => x.parent = some p with
    | none => return some (-1)
    | some _ =>
      if (s.proc p).killed then return some (-1)
      else
        sleep p (.proc p) .wait
        return none

def wakeup (chan : Chan) : M Unit := wakeup1 (some chan)

def kill (pid : ℤ) : M ℤ := do
  let s ← get
  match s.first fun x => x.pid = pid with
  | none => return -1
  | some q =>
    let x := s.proc q
    set ((s.setProc q { x with killed := true
                               state := if x.state = .sleeping then .runnable else x.state }).emit
      (if x.state = .unused then .stray pid else .killed (s.uid q) pid))
    return 0

/-- An unexpected trap from user space. -/
def trap (p : Slot) : M Unit :=
  modify fun s => (s.setProc p { s.proc p with killed := true }).emit (.trapped (s.uid p))

/-- `scheduler` picks a process. -/
def schedule (p : Slot) : M Unit :=
  modify fun s => s.setProc p { s.proc p with state := .running }

def yield (p : Slot) : M Unit :=
  modify fun s => s.setProc p { s.proc p with state := .runnable }

/-! ## What the functions do -/

def State.refused (s : State) (q : Slot) : State :=
  { s.setProc q { s.proc q with pid := s.nextpid } with
    nextpid := int32 (s.nextpid + 1), allocs := s.allocs + 1 }

def State.created (s : State) (p q : Slot) : State :=
  { (s.setProc q { s.proc q with pid := s.nextpid, parent := some p, state := .runnable }).emit
      (.forked s.forks (s.uid p) s.nextpid) with
    nextpid := int32 (s.nextpid + 1)
    allocs := s.allocs + 1
    pc := Function.update s.pc q .elsewhere
    uid := Function.update s.uid q s.forks
    forks := s.forks + 1 }

def State.buried (s : State) (p q : Slot) : State :=
  (s.setProc q { s.proc q with pid := 0, parent := none, killed := false, state := .unused }).emit
    (.reaped (s.uid q) (s.uid p) (s.proc q).pid)

section Spec

variable {s : State} {p q : Slot} {P : Proc → Bool}

variable {E : Stop → State → Prop}

theorem first_some (h : s.first P = some q) : P (s.proc q) = true :=
  List.find?_some (p := fun q => P (s.proc q)) h

theorem first_none (h : s.first P = none) (q : Slot) : P (s.proc q) ≠ true :=
  List.find?_eq_none.mp h q (List.mem_finRange q)

theorem wp_fork {m : Supply} {Q : ℤ → State → Prop} (hfull : Q (-1) s)
    (hrefused : ∀ q, (s.proc q).state = .unused → Q (-1) (s.refused q))
    (hcreated : ∀ q, (s.proc q).state = .unused → Q s.nextpid (s.created p q)) :
    wp (fork p m) Q E s := by
  unfold fork allocproc
  simp only [wp_bind, wp_get]
  cases hfirst : s.first fun x => x.state = .unused with
  | none => exact hfull
  | some q =>
    have hq : (s.proc q).state = .unused := by simpa using first_some hfirst
    have hx : { s.proc q with state := .unused } = s.proc q := by rw [← hq]
    have hrefused' : Q (-1) { s.setProc q { s.proc q with state := .unused, pid := s.nextpid } with
        nextpid := int32 (s.nextpid + 1), allocs := s.allocs + 1 } := by
      have := hrefused q hq
      unfold State.refused at this
      rwa [← hx] at this
    have hcreated' := hcreated q hq
    cases m with
    | noStack =>
      simp only [wp_bind, wp_set, wp_pure, wp_get, State.setProc, update_self,
        update_idem]
      exact hrefused'
    | noSpace =>
      simp only [wp_bind, wp_set, wp_pure, wp_get, State.setProc, update_self,
        update_idem]
      exact hrefused'
    | enough =>
      simp only [wp_bind, wp_set, wp_pure, wp_get, State.setProc, State.emit, update_self,
        update_idem]
      exact hcreated'

theorem wp_waitRound {Q : Option ℤ → State → Prop}
    (hreap : ∀ q, (s.proc q).parent = some p → (s.proc q).state = .zombie →
      Q (some (s.proc q).pid) (s.buried p q))
    (hfail : ((∀ q, (s.proc q).parent ≠ some p) ∨ (s.proc p).killed = true) → Q (some (-1)) s)
    (hsleep : (∃ q, (s.proc q).parent = some p) →
      (∀ q, (s.proc q).parent = some p → (s.proc q).state ≠ .zombie) →
      Q none ((s.setProc p { s.proc p with chan := some (.proc p), state := .sleeping }).setPc p .wait)) :
    wp (waitRound p) Q E s := by
  unfold waitRound
  simp only [wp_bind, wp_get]
  cases hzombie : s.first fun x => x.parent = some p ∧ x.state = .zombie with
  | some q =>
    have hq : (s.proc q).parent = some p ∧ (s.proc q).state = .zombie := by
      simpa using first_some hzombie
    exact hreap q hq.1 hq.2
  | none =>
    have hno : ∀ q, (s.proc q).parent = some p → (s.proc q).state ≠ .zombie := by
      intro q hpar hz
      exact first_none hzombie q (by simp [hpar, hz])
    cases hkid : s.first fun x => x.parent = some p with
    | none =>
      refine hfail (.inl fun q hq => ?_)
      exact first_none hkid q (by simp [hq])
    | some q =>
      have hq : (s.proc q).parent = some p := by simpa using first_some hkid
      simp only
      rw [wp_ite]
      refine ⟨fun hk => hfail (.inr hk), fun _ => ?_⟩
      exact hsleep ⟨q, hq⟩ hno

end Spec

/-! ## Runs -/

/-- Process `p` executes outside the functions above. -/
def State.Free (s : State) (p : Slot) : Prop := (s.proc p).state = .running ∧ s.pc p = .elsewhere

/-- One section under `ptable.lock`. A wakeup on some other channel may also come from an interrupt. -/
inductive Step : State → State → Prop
  | fork {s s' : State} {p : Slot} {m : Supply} {r : ℤ} (hp : s.Free p) (h : fork p m s = .ok r s') :
      Step s s'
  | exit {s s' : State} {p : Slot} (hp : s.Free p) (h : exit p s = .ok () s') : Step s s'
  | wait {s s' : State} {p : Slot} {r : Option ℤ} (hp : s.Free p) (h : waitRound p s = .ok r s') :
      Step s s'
  | rewait {s s' : State} {p : Slot} {r : Option ℤ} (hp : (s.proc p).state = .running)
      (hpc : s.pc p = .wait) (h : (do wake p; waitRound p) s = .ok r s') : Step s s'
  | kill {s s' : State} {p : Slot} {pid r : ℤ} (hp : s.Free p) (h : kill pid s = .ok r s') : Step s s'
  | trap {s s' : State} {p : Slot} (hp : s.Free p) (h : trap p s = .ok () s') : Step s s'
  | sleep {s s' : State} {p : Slot} {n : ℕ} (hp : s.Free p)
      (h : sleep p (.other n) .sleep s = .ok () s') : Step s s'
  | wake {s s' : State} {p : Slot} (hp : (s.proc p).state = .running) (hpc : s.pc p = .sleep)
      (h : wake p s = .ok () s') : Step s s'
  | wakeup {s s' : State} {n : ℕ} (h : wakeup (.other n) s = .ok () s') : Step s s'
  | schedule {s s' : State} {p : Slot} (hp : (s.proc p).state = .runnable)
      (h : schedule p s = .ok () s') : Step s s'
  | yield {s s' : State} {p : Slot} (hp : (s.proc p).state = .running) (h : yield p s = .ok () s') :
      Step s s'

/-- From the first process on. -/
abbrev Reachable : State → Prop := Relation.ReflTransGen Step boot

end Xv6.Ptable
