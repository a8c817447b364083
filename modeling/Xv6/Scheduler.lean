import Mathlib

/-!
# Scheduling

The CPUs run `scheduler()` and the processes it picks. `ptable.lock` belongs to a CPU; it is taken on one
side of a context switch and released on the other. `swtch` is two steps: the old registers are saved
(`save`), and then the stack pointer is loaded (`load`), which is when the old stack is no longer in use.

A process does anything it likes between its calls into proc.c: at any time it may give up the CPU
(`yield`, `sleep`), exit, wake others up, fork, and wait for its children. Who is woken up and which
child is found does not matter here and is left open.
-/

namespace Xv6.Sched

open Function (update update_eq_self update_of_ne update_self)

inductive ProcState
  | unused
  | embryo
  | sleeping
  | runnable
  | running
  | zombie
  deriving DecidableEq

/-- What a process takes `ptable.lock` for. `wakeup` stands for `kill`, too. -/
inductive Op
  | yield
  | sleep
  | exit
  | wakeup
  | fork
  | wait

/-- Where a process goes on after `sched()`: it releases the lock (`yield`, `sleep`), looks for a child
again with the lock (`wait`), or should not be there (`exit`). -/
inductive Resume
  | release
  | again
  | dead

/-- Where a process is, or will be when it is switched to. -/
inductive Pc (ι : Type)
  | run
  | acquire (op : Op)
  | locked (op : Op)
  | making (child : ι)
  | ready (child : ι)
  | release
  | sched (k : Resume)
  | save (k : Resume)
  | load (k : Resume)
  | dead
  | panic (msg : String)

/-- Where `scheduler()` is; `rest` is the part of the table still to be looked at. -/
inductive Loop (ι : Type)
  | idle
  | scan (rest : List ι)
  | set (p : ι) (rest : List ι)
  | save (p : ι) (rest : List ι)
  | load (p : ι) (rest : List ι)
  | back (rest : List ι)

/-- `proc` is the CPU's current process, `on` the process whose kernel stack the CPU uses (`none` for the
stack of the scheduler), and `saved` says that a context can be switched to. -/
structure State (κ ι : Type) where
  lock : Option κ
  state : ι → ProcState
  proc : κ → Option ι
  on : κ → Option ι
  loop : κ → Loop ι
  pc : ι → Pc ι
  saved : ι → Bool

def Resume.pc {ι : Type} : Resume → Pc ι
  | .release => .release
  | .again => .locked .wait
  | .dead => .dead

variable {κ ι : Type} [DecidableEq κ] [DecidableEq ι]

namespace State

def setPc (s : State κ ι) (i : ι) (p : Pc ι) : State κ ι := { s with pc := Function.update s.pc i p }

def setLoop (s : State κ ι) (c : κ) (l : Loop ι) : State κ ι :=
  { s with loop := Function.update s.loop c l }

def setState (s : State κ ι) (i : ι) (st : ProcState) : State κ ι :=
  { s with state := Function.update s.state i st }

/-- `wakeup1`. -/
def wake (s : State κ ι) (S : ι → Bool) : State κ ι :=
  { s with state := fun j => if S j ∧ s.state j = .sleeping then .runnable else s.state j }

end State

/-- `scheduler()` on CPU `c`. -/
inductive LoopStep (table : List ι) (c : κ) : State κ ι → State κ ι → Prop
  | acquire {s : State κ ι} (hl : s.loop c = .idle) (hfree : s.lock = none) :
      LoopStep table c s { s.setLoop c (.scan table) with lock := some c }
  | skip {s : State κ ι} {p : ι} {rest : List ι} (hl : s.loop c = .scan (p :: rest))
      (hp : s.state p ≠ .runnable) : LoopStep table c s (s.setLoop c (.scan rest))
  | choose {s : State κ ι} {p : ι} {rest : List ι} (hl : s.loop c = .scan (p :: rest))
      (hp : s.state p = .runnable) :
      LoopStep table c s { s.setLoop c (.set p rest) with proc := Function.update s.proc c (some p) }
  | set {s : State κ ι} {p : ι} {rest : List ι} (hl : s.loop c = .set p rest) :
      LoopStep table c s ((s.setLoop c (.save p rest)).setState p .running)
  | save {s : State κ ι} {p : ι} {rest : List ι} (hl : s.loop c = .save p rest) :
      LoopStep table c s (s.setLoop c (.load p rest))
  | load {s : State κ ι} {p : ι} {rest : List ι} (hl : s.loop c = .load p rest) :
      LoopStep table c s { s.setLoop c (.back rest) with
        on := Function.update s.on c (some p)
        saved := Function.update s.saved p false }
  | back {s : State κ ι} {rest : List ι} (hl : s.loop c = .back rest) :
      LoopStep table c s { s.setLoop c (.scan rest) with proc := Function.update s.proc c none }
  | release {s : State κ ι} (hl : s.loop c = .scan []) :
      LoopStep table c s { s.setLoop c .idle with lock := none }

/-- Process `i` on CPU `c`, whose `proc` is `p`. -/
inductive ProcStep (c : κ) (i p : ι) : State κ ι → State κ ι → Prop
  | call {s : State κ ι} (hl : s.pc i = .run) (op : Op) : ProcStep c i p s (s.setPc i (.acquire op))
  | acquire {s : State κ ι} {op : Op} (hl : s.pc i = .acquire op) (hfree : s.lock = none) :
      ProcStep c i p s { s.setPc i (.locked op) with lock := some c }
  | yield {s : State κ ι} (hl : s.pc i = .locked .yield) :
      ProcStep c i p s ((s.setPc i (.sched .release)).setState p .runnable)
  | sleep {s : State κ ι} (hl : s.pc i = .locked .sleep) :
      ProcStep c i p s ((s.setPc i (.sched .release)).setState p .sleeping)
  | exitWake {s : State κ ι} (hl : s.pc i = .locked .exit) (S : ι → Bool) : ProcStep c i p s (s.wake S)
  | exit {s : State κ ι} (hl : s.pc i = .locked .exit) :
      ProcStep c i p s ((s.setPc i (.sched .dead)).setState p .zombie)
  | wakeup {s : State κ ι} (hl : s.pc i = .locked .wakeup) (S : ι → Bool) :
      ProcStep c i p s ((s.wake S).setPc i .release)
  | fork {s : State κ ι} {j : ι} (hl : s.pc i = .locked .fork) (hj : s.state j = .unused) :
      ProcStep c i p s ((s.setPc i (.making j)).setState j .embryo)
  | forkFull {s : State κ ι} (hl : s.pc i = .locked .fork) : ProcStep c i p s (s.setPc i .release)
  | forkFail {s : State κ ι} {j : ι} (hl : s.pc i = .making j) :
      ProcStep c i p s ((s.setPc i .release).setState j .unused)
  | forkContext {s : State κ ι} {j : ι} (hl : s.pc i = .making j) :
      ProcStep c i p s { (s.setPc j .release).setPc i (.ready j) with
        saved := Function.update s.saved j true }
  | forkUndo {s : State κ ι} {j : ι} (hl : s.pc i = .ready j) :
      ProcStep c i p s ((s.setPc i .release).setState j .unused)
  | forkDone {s : State κ ι} {j : ι} (hl : s.pc i = .ready j) :
      ProcStep c i p s ((s.setPc i .release).setState j .runnable)
  | waitFound {s : State κ ι} {j : ι} (hl : s.pc i = .locked .wait) (hj : s.state j = .zombie) :
      ProcStep c i p s ((s.setPc i .release).setState j .unused)
  | waitNone {s : State κ ι} (hl : s.pc i = .locked .wait) : ProcStep c i p s (s.setPc i .release)
  | waitSleep {s : State κ ι} (hl : s.pc i = .locked .wait) :
      ProcStep c i p s ((s.setPc i (.sched .again)).setState p .sleeping)
  | release {s : State κ ι} (hl : s.pc i = .release) :
      ProcStep c i p s { s.setPc i .run with lock := none }
  | schedUnlocked {s : State κ ι} {k : Resume} (hl : s.pc i = .sched k) (hlock : s.lock ≠ some c) :
      ProcStep c i p s (s.setPc i (.panic "sched ptable.lock"))
  | schedRunning {s : State κ ι} {k : Resume} (hl : s.pc i = .sched k) (hlock : s.lock = some c)
      (hp : s.state p = .running) : ProcStep c i p s (s.setPc i (.panic "sched running"))
  | sched {s : State κ ι} {k : Resume} (hl : s.pc i = .sched k) (hlock : s.lock = some c)
      (hp : s.state p ≠ .running) : ProcStep c i p s (s.setPc i (.save k))
  | save {s : State κ ι} {k : Resume} (hl : s.pc i = .save k) : ProcStep c i p s (s.setPc i (.load k))
  | load {s : State κ ι} {k : Resume} (hl : s.pc i = .load k) :
      ProcStep c i p s { s.setPc i k.pc with
        on := Function.update s.on c none
        saved := Function.update s.saved p true }

inductive Step (table : List ι) : State κ ι → State κ ι → Prop
  | loop {s s' : State κ ι} {c : κ} (hon : s.on c = none) (h : LoopStep table c s s') : Step table s s'
  | proc {s s' : State κ ι} {c : κ} {i p : ι} (hon : s.on c = some i) (hp : s.proc c = some p)
      (h : ProcStep c i p s s') : Step table s s'

/-- After `userinit`: the first process can run, with `forkret` as its context, and every CPU is about to
enter the scheduler's loop. -/
def boot (init : ι) : State κ ι where
  lock := none
  state := Function.update (fun _ => .unused) init .runnable
  proc _ := none
  on _ := none
  loop _ := .idle
  pc _ := .release
  saved i := decide (i = init)

abbrev Reachable (table : List ι) (init : ι) (s : State κ ι) : Prop :=
  Relation.ReflTransGen (Step table) (boot init) s

/-! ## The invariant -/

def Pc.held : Pc ι → Bool
  | .run | .acquire _ => false
  | _ => true

def Pc.Resumes (p : Pc ι) : Prop := ∃ k : Resume, p = k.pc

def Inside (s : State κ ι) (i : ι) : Pc ι → Prop
  | .sched _ | .save _ | .load _ => s.state i ≠ .running
  | .making j => s.state i = .running ∧ s.state j = .embryo
  | .ready j => s.state i = .running ∧ s.state j = .embryo ∧ s.saved j = true
  | .panic _ => False
  | _ => s.state i = .running

def Picking (s : State κ ι) (c : κ) : Loop ι → Prop
  | .idle => False
  | .scan _ => s.proc c = none
  | .set p _ => s.proc c = some p ∧ s.state p = .runnable ∧ s.saved p = true
  | .save p _ | .load p _ => s.proc c = some p ∧ s.state p = .running ∧ s.saved p = true
  | .back _ => ∃ p, s.proc c = some p ∧ s.state p ≠ .running ∧ s.saved p = true

/-- A process that runs on a CPU; the scheduler will go on after `swtch`. -/
structure Runs (s : State κ ι) (c : κ) (i : ι) : Prop where
  proc : s.proc c = some i
  saved : s.saved i = false
  loop : ∃ rest, s.loop c = .back rest

def Loose (s : State κ ι) (c : κ) : Prop :=
  match s.on c with
  | none => s.loop c = .idle ∧ s.proc c = none
  | some i => Runs s c i ∧ (s.pc i).held = false ∧ s.state i = .running

def Holding (s : State κ ι) (c : κ) : Prop :=
  match s.on c with
  | none => Picking s c (s.loop c)
  | some i => Runs s c i ∧ (s.pc i).held = true ∧ Inside s i (s.pc i)

structure Inv (s : State κ ι) : Prop where
  loose : ∀ c, s.lock ≠ some c → Loose s c
  holding : ∀ c, s.lock = some c → Holding s c
  once : ∀ c c' i, s.proc c = some i → s.proc c' = some i → c = c'
  parked : ∀ i, (∀ c, s.proc c ≠ some i) → s.state i ≠ .running ∧
    (s.state i = .runnable ∨ s.state i = .sleeping → s.saved i = true)
  saved : ∀ i, s.saved i = true → (s.pc i).Resumes

variable {s s' : State κ ι} {c c' : κ} {i j p : ι} {table : List ι}

variable {l : Loop ι} {q : Pc ι} {k : Resume} {st : ProcState}

theorem Loose.frame (h : Loose s c) (hon : s'.on c = s.on c) (hproc : s'.proc c = s.proc c)
    (hloop : s'.loop c = s.loop c)
    (hkeep : ∀ i, s.proc c = some i → s.state i = .running →
      s'.state i = .running ∧ s'.pc i = s.pc i ∧ s'.saved i = s.saved i) : Loose s' c := by
  rw [Loose] at h ⊢
  rw [hon]
  cases hc : s.on c with
  | none =>
    rw [hc] at h
    exact ⟨hloop.trans h.1, hproc.trans h.2⟩
  | some i =>
    rw [hc] at h
    obtain ⟨hruns, hheld, hstate⟩ := h
    obtain ⟨hst, hpc, hsv⟩ := hkeep i hruns.proc hstate
    exact ⟨⟨hproc.trans hruns.proc, hsv.trans hruns.saved, by rw [hloop]; exact hruns.loop⟩,
      by rwa [hpc], hst⟩

theorem Loose.running (h : Loose s c) (hp : s.proc c = some i) : s.on c = some i ∧ s.state i = .running := by
  rw [Loose] at h
  cases hc : s.on c with
  | none =>
    rw [hc] at h
    rw [h.2] at hp
    cases hp
  | some i' =>
    rw [hc] at h
    rw [h.1.proc] at hp
    cases hp
    exact ⟨rfl, h.2.2⟩

theorem Inv.not_current (h : Inv s) (hlock : s.lock = some c) (hi : s.state i ≠ .running)
    (hc : s.proc c ≠ some i) (c' : κ) : s.proc c' ≠ some i := by
  intro hp
  by_cases hcc : c' = c
  · subst hcc
    exact hc hp
  · refine hi ((h.loose c' ?_).running hp).2
    rw [hlock]
    exact fun heq => hcc (Option.some.inj heq).symm

theorem Inv.locked (h : Inv s) (hlock : s.lock = some c)
    (hlock' : s'.lock = some c ∧ Holding s' c ∨ s'.lock = none ∧ Loose s' c)
    (hon : ∀ c', c' ≠ c → s'.on c' = s.on c') (hproc : ∀ c', c' ≠ c → s'.proc c' = s.proc c')
    (hloop : ∀ c', c' ≠ c → s'.loop c' = s.loop c')
    (hkeep : ∀ i, s.state i = .running → s.proc c ≠ some i →
      s'.state i = .running ∧ s'.pc i = s.pc i ∧ s'.saved i = s.saved i)
    (hnew : ∀ i, s'.proc c = some i → s.proc c = some i ∨ ∀ c', s.proc c' ≠ some i)
    (hparked : ∀ i, (∀ c, s'.proc c ≠ some i) → s'.state i ≠ .running ∧
      (s'.state i = .runnable ∨ s'.state i = .sleeping → s'.saved i = true))
    (hsaved : ∀ i, s'.saved i = true → (s'.pc i).Resumes) : Inv s' := by
  refine ⟨fun c' hc' => ?_, fun c' hc' => ?_, fun c₁ c₂ i h₁ h₂ => ?_, hparked, hsaved⟩
  · by_cases hcc : c' = c
    · subst hcc
      exact (hlock'.resolve_left fun hl => hc' hl.1).2
    · have hl : s.lock ≠ some c' := by
        rw [hlock]
        exact fun heq => hcc (Option.some.inj heq).symm
      refine (h.loose c' hl).frame (hon c' hcc) (hproc c' hcc) (hloop c' hcc) fun i hi hst => ?_
      exact hkeep i hst fun hc => hcc (h.once c' c i hi hc)
  · rcases hlock' with ⟨hl, hh⟩ | ⟨hl, -⟩
    · obtain rfl := Option.some.inj (hl.symm.trans hc')
      exact hh
    · rw [hl] at hc'
      cases hc'
  · -- nobody else has the process that this CPU has picked
    have hcross : ∀ c', c' ≠ c → s'.proc c = some i → s'.proc c' = some i → False := by
      intro c' hcc hc hc'
      rw [hproc c' hcc] at hc'
      rcases hnew i hc with hold | hnone
      · exact hcc (h.once c' c i hc' hold)
      · exact hnone c' hc'
    by_cases hc₁ : c₁ = c
    · by_cases hc₂ : c₂ = c
      · rw [hc₁, hc₂]
      · rw [hc₁] at h₁
        exact (hcross c₂ hc₂ h₁ h₂).elim
    · by_cases hc₂ : c₂ = c
      · rw [hc₂] at h₂
        exact (hcross c₁ hc₁ h₂ h₁).elim
      · rw [hproc c₁ hc₁] at h₁
        rw [hproc c₂ hc₂] at h₂
        exact h.once c₁ c₂ i h₁ h₂

/-! ## Steps of the scheduler -/

theorem Inv.picking (h : Inv s) (hon : s.on c = none) (hl : s.loop c = l) (hne : l ≠ .idle) :
    s.lock = some c ∧ Picking s c l := by
  subst hl
  have hlock : s.lock = some c := by
    by_contra hc
    have hloose := h.loose c hc
    rw [Loose, hon] at hloose
    exact hne hloose.1
  have hh := h.holding c hlock
  rw [Holding, hon] at hh
  exact ⟨hlock, hh⟩

theorem holding_of_none (hon : s.on c = none) (hl : s.loop c = l) (h : Picking s c l) :
    Holding s c := by
  rw [Holding, hon, hl]
  exact h

theorem LoopStep.inv (h : Inv s) (hon : s.on c = none) (hstep : LoopStep table c s s') : Inv s' := by
  cases hstep with
  | acquire hl hfree =>
    have hloose := h.loose c (by rw [hfree]; nofun)
    rw [Loose, hon] at hloose
    refine ⟨fun c' hc' => ?_, fun c' hc' => ?_, h.once, h.parked, h.saved⟩
    · have hcc : c' ≠ c := by
        rintro rfl
        exact hc' rfl
      exact (h.loose c' (by rw [hfree]; nofun)).frame rfl rfl (update_of_ne hcc ..)
        fun _ _ hst => ⟨hst, rfl, rfl⟩
    · cases hc'
      exact holding_of_none hon (update_self ..) hloose.2
  | @skip p rest hl hp =>
    obtain ⟨hlock, hpick⟩ := h.picking hon hl nofun
    exact h.locked hlock (.inl ⟨hlock, holding_of_none hon (update_self ..) hpick⟩) (fun _ _ => rfl)
      (fun _ _ => rfl) (fun c' hcc => update_of_ne hcc ..) (fun _ hst _ => ⟨hst, rfl, rfl⟩)
      (fun _ hi => .inl hi) h.parked h.saved
  | @choose p rest hl hp =>
    obtain ⟨hlock, hpick⟩ := h.picking hon hl nofun
    have hnone : s.proc c = none := hpick
    have hcur : ∀ c', s.proc c' ≠ some p :=
      h.not_current hlock (by rw [hp]; nofun) (by rw [hnone]; nofun)
    have hsv := (h.parked p hcur).2 (.inl hp)
    refine h.locked hlock (.inl ⟨hlock, holding_of_none hon (update_self ..) ⟨update_self .., hp, hsv⟩⟩)
      (fun _ _ => rfl) (fun c' hcc => update_of_ne hcc ..) (fun c' hcc => update_of_ne hcc ..)
      (fun _ hst _ => ⟨hst, rfl, rfl⟩) (fun i hi => ?_) (fun i hi => h.parked i fun c' hc' => ?_) h.saved
    · simp only [update_self] at hi
      cases hi
      exact .inr hcur
    · have hcc : c' ≠ c := by
        rintro rfl
        rw [hnone] at hc'
        cases hc'
      refine hi c' ?_
      simp only [update_of_ne hcc, hc']
  | @set p rest hl =>
    obtain ⟨hlock, hpick⟩ := h.picking hon hl nofun
    obtain ⟨hproc, hst, hsv⟩ := hpick
    refine h.locked hlock (.inl ⟨hlock, holding_of_none hon (update_self ..) ⟨hproc, update_self .., hsv⟩⟩)
      (fun _ _ => rfl) (fun _ _ => rfl) (fun c' hcc => update_of_ne hcc ..) (fun i hi hne => ⟨?_, rfl, rfl⟩)
      (fun _ hi => .inl hi) (fun i hi => ?_) h.saved
    · have hip : i ≠ p := by
        rintro rfl
        exact hne hproc
      simp only [State.setState, update_of_ne hip]
      exact hi
    · have hip : i ≠ p := by
        rintro rfl
        exact hi c hproc
      simp only [State.setState, update_of_ne hip]
      exact h.parked i hi
  | @save p rest hl =>
    obtain ⟨hlock, hpick⟩ := h.picking hon hl nofun
    exact h.locked hlock (.inl ⟨hlock, holding_of_none hon (update_self ..) hpick⟩) (fun _ _ => rfl)
      (fun _ _ => rfl) (fun c' hcc => update_of_ne hcc ..) (fun _ hst _ => ⟨hst, rfl, rfl⟩)
      (fun _ hi => .inl hi) h.parked h.saved
  | @load p rest hl =>
    obtain ⟨hlock, hpick⟩ := h.picking hon hl nofun
    obtain ⟨hproc, hst, hsv⟩ := hpick
    have hother : ∀ i, i ≠ p → update s.saved p false i = s.saved i := fun i hip =>
      update_of_ne hip ..
    refine h.locked hlock (.inl ⟨hlock, ?_⟩) (fun c' hcc => update_of_ne hcc ..) (fun _ _ => rfl)
      (fun c' hcc => update_of_ne hcc ..) (fun i hi hne => ⟨hi, rfl, hother i ?_⟩) (fun _ hi => .inl hi)
      (fun i hi => ?_) (fun i hi => ?_)
    · -- the process goes on where it had called `swtch`, with the lock
      obtain ⟨k, hk⟩ := h.saved p hsv
      simp only [Holding, State.setLoop, update_self, hk]
      refine ⟨⟨hproc, update_self .., rest, update_self ..⟩, ?_, ?_⟩
      · cases k <;> rfl
      · cases k <;> exact hst
    · rintro rfl
      exact hne hproc
    · have hip : i ≠ p := by
        rintro rfl
        exact hi c hproc
      simp only [hother i hip]
      exact h.parked i hi
    · have hip : i ≠ p := by
        rintro rfl
        simp only [update_self] at hi
        cases hi
      simp only [hother i hip] at hi
      exact h.saved i hi
  | @back rest hl =>
    obtain ⟨hlock, hpick⟩ := h.picking hon hl nofun
    obtain ⟨p, hproc, hst, hsv⟩ := hpick
    refine h.locked hlock (.inl ⟨hlock, holding_of_none hon (update_self ..) (update_self ..)⟩)
      (fun _ _ => rfl) (fun c' hcc => update_of_ne hcc ..) (fun c' hcc => update_of_ne hcc ..)
      (fun _ hst _ => ⟨hst, rfl, rfl⟩) (fun i hi => ?_) (fun i hi => ?_) h.saved
    · simp only [update_self] at hi
      cases hi
    · by_cases hip : i = p
      · subst hip
        exact ⟨hst, fun _ => hsv⟩
      · refine h.parked i fun c' hc' => ?_
        have hcc : c' ≠ c := by
          rintro rfl
          rw [hproc] at hc'
          exact hip (Option.some.inj hc').symm
        refine hi c' ?_
        simp only [update_of_ne hcc, hc']
  | release hl =>
    obtain ⟨hlock, hpick⟩ := h.picking hon hl nofun
    refine h.locked hlock (.inr ⟨rfl, ?_⟩) (fun _ _ => rfl) (fun _ _ => rfl)
      (fun c' hcc => update_of_ne hcc ..) (fun _ hst _ => ⟨hst, rfl, rfl⟩) (fun _ hi => .inl hi) h.parked h.saved
    simp only [Loose, State.setLoop, hon]
    exact ⟨update_self .., hpick⟩

/-! ## Steps of a process -/

theorem holding_iff (hon : s.on c = some i) :
    Holding s c ↔ Runs s c i ∧ (s.pc i).held = true ∧ Inside s i (s.pc i) := by
  rw [Holding, hon]

theorem loose_iff (hon : s.on c = some i) :
    Loose s c ↔ Runs s c i ∧ (s.pc i).held = false ∧ s.state i = .running := by
  rw [Loose, hon]

section

variable (h : Inv s)
include h

section

variable (hon : s.on c = some i)
include hon

theorem Inv.runs : Runs s c i := by
  by_cases hlock : s.lock = some c
  · exact ((holding_iff hon).mp (h.holding c hlock)).1
  · exact ((loose_iff hon).mp (h.loose c hlock)).1

theorem Inv.inside (hl : s.pc i = q) (hheld : q.held = true) : s.lock = some c ∧ Inside s i q := by
  subst hl
  have hlock : s.lock = some c := by
    by_contra hne
    have hl := ((loose_iff hon).mp (h.loose c hne)).2.1
    rw [hheld] at hl
    cases hl
  exact ⟨hlock, ((holding_iff hon).mp (h.holding c hlock)).2.2⟩

theorem Inv.outside (hheld : (s.pc i).held = false) : s.lock ≠ some c ∧ s.state i = .running := by
  have hlock : s.lock ≠ some c := by
    intro hl
    have hh := ((holding_iff hon).mp (h.holding c hl)).2.1
    rw [hheld] at hh
    cases hh
  exact ⟨hlock, ((loose_iff hon).mp (h.loose c hlock)).2.2⟩

theorem Inv.proceed (hheld : (s.pc i).held = true)
    (hlock' : s'.lock = s.lock) (hon' : s'.on = s.on) (hproc' : s'.proc = s.proc)
    (hloop' : s'.loop = s.loop) (hsaved' : s'.saved = s.saved) (hpc : s'.pc = update s.pc i q)
    (hq : q.held = true) (hi : Inside s' i q)
    (hkeep : ∀ j, j ≠ i → (s'.state j = .running ↔ s.state j = .running))
    (hready : ∀ j, j ≠ i → s'.state j = .runnable ∨ s'.state j = .sleeping →
      s.state j = .runnable ∨ s.state j = .sleeping ∨ s.saved j = true) : Inv s' := by
  obtain ⟨hlock, -⟩ := h.inside hon rfl hheld
  have hruns := h.runs hon
  have hruns' : Runs s' c i := by
    refine ⟨?_, ?_, ?_⟩
    · rw [hproc']
      exact hruns.proc
    · rw [hsaved']
      exact hruns.saved
    · rw [hloop']
      exact hruns.loop
  refine h.locked hlock (.inl ⟨hlock'.trans hlock, ?_⟩) (fun _ _ => by rw [hon']) (fun _ _ => by rw [hproc'])
    (fun _ _ => by rw [hloop']) (fun j hj hne => ?_) (fun j hj => ?_) (fun j hj => ?_) (fun j hj => ?_)
  · rw [holding_iff (hon' ▸ hon), hpc, update_self]
    exact ⟨hruns', hq, hi⟩
  · have hji : j ≠ i := by
      rintro rfl
      exact hne hruns.proc
    exact ⟨(hkeep j hji).mpr hj, by rw [hpc, update_of_ne hji], by rw [hsaved']⟩
  · rw [hproc'] at hj
    exact .inl hj
  · rw [hproc'] at hj
    have hji : j ≠ i := by
      rintro rfl
      exact hj c hruns.proc
    obtain ⟨hrun, hsv⟩ := h.parked j hj
    refine ⟨fun hr => hrun ((hkeep j hji).mp hr), fun hst => ?_⟩
    rw [hsaved']
    rcases hready j hji hst with hr | hr | hr
    · exact hsv (.inl hr)
    · exact hsv (.inr hr)
    · exact hr
  · rw [hsaved'] at hj
    have hji : j ≠ i := by
      rintro rfl
      rw [hruns.saved] at hj
      cases hj
    rw [hpc, update_of_ne hji]
    exact h.saved j hj

theorem Inv.leave (hheld : (s.pc i).held = true) (hst : st ≠ .running) :
    Inv ((s.setPc i (.sched k)).setState i st) := by
  refine h.proceed hon hheld rfl rfl rfl rfl rfl rfl rfl ?_ (fun j hji => ?_) (fun j hji hj => ?_)
  · simp only [Inside, State.setState, update_self]
    exact hst
  · simp only [State.setState, update_of_ne hji]
    exact Iff.rfl
  · simp only [State.setState, update_of_ne hji] at hj
    exact hj.elim .inl fun hs => .inr (.inl hs)

theorem Inv.alter (hheld : (s.pc i).held = true) (hq : q.held = true) (hj : s.state j ≠ .running)
    (hst : st ≠ .running) (hready : st = .runnable ∨ st = .sleeping → s.saved j = true)
    (hi : Inside ((s.setPc i q).setState j st) i q) : Inv ((s.setPc i q).setState j st) := by
  refine h.proceed hon hheld rfl rfl rfl rfl rfl rfl hq hi (fun j' _ => ?_) (fun j' _ hj' => ?_)
  · by_cases hjj : j' = j
    · subst hjj
      simp only [State.setState, update_self]
      exact ⟨fun h => absurd h hst, fun h => absurd h hj⟩
    · simp only [State.setState, update_of_ne hjj]
      exact Iff.rfl
  · by_cases hjj : j' = j
    · subst hjj
      simp only [State.setState, update_self] at hj'
      exact .inr (.inr (hready hj'))
    · simp only [State.setState, update_of_ne hjj] at hj'
      exact hj'.elim .inl fun hs => .inr (.inl hs)

end

end

theorem running_setState (hrun : s.state i = .running) (hj : s.state j ≠ .running) (q : Pc ι)
    (st : ProcState) : ((s.setPc i q).setState j st).state i = .running := by
  have hij : i ≠ j := by
    rintro rfl
    exact hj hrun
  simp only [State.setState, update_of_ne hij]
  exact hrun

theorem wake_running (S : ι → Bool) (j : ι) : (s.wake S).state j = .running ↔ s.state j = .running := by
  simp only [State.wake]
  split
  · rename_i hj
    rw [hj.2]
    exact ⟨nofun, nofun⟩
  · exact Iff.rfl

theorem wake_ready (S : ι → Bool) (hj : (s.wake S).state j = .runnable ∨ (s.wake S).state j = .sleeping) :
    s.state j = .runnable ∨ s.state j = .sleeping ∨ s.saved j = true := by
  simp only [State.wake] at hj
  split at hj
  · rename_i hs
    exact .inr (.inl hs.2)
  · exact hj.elim .inl fun hs => .inr (.inl hs)

section

variable (h : Inv s)
include h

section

variable (hon : s.on c = some i)
include hon

theorem Inv.call (hheld : (s.pc i).held = false) (hq : q.held = false) : Inv (s.setPc i q) := by
  obtain ⟨hlock, hrun⟩ := h.outside hon hheld
  have hruns := h.runs hon
  have hother : ∀ j, j ≠ i → (s.setPc i q).pc j = s.pc j := fun j hji => update_of_ne hji ..
  have hne : ∀ c' j, c' ≠ c → s.proc c' = some j → j ≠ i := by
    rintro c' j hcc hj rfl
    exact hcc (h.once c' c j hj hruns.proc)
  refine ⟨fun c' hc' => ?_, fun c' hc' => ?_, h.once, h.parked, fun j hj => ?_⟩
  · by_cases hcc : c' = c
    · subst hcc
      rw [loose_iff (s := s.setPc i q) hon]
      simp only [State.setPc, update_self]
      exact ⟨⟨hruns.proc, hruns.saved, hruns.loop⟩, hq, hrun⟩
    · exact (h.loose c' hc').frame rfl rfl rfl fun j hj hst => ⟨hst, hother j (hne c' j hcc hj), rfl⟩
  · have hcc : c' ≠ c := by
      rintro rfl
      exact hlock hc'
    have hh := h.holding c' hc'
    cases hon' : s.on c' with
    | none =>
      rw [Holding, hon'] at hh
      have hpick : Picking (s.setPc i q) c' (s.loop c') := by
        cases hl : s.loop c' <;> rw [hl] at hh <;> exact hh
      exact holding_of_none (s := s.setPc i q) hon' rfl hpick
    | some j =>
      obtain ⟨hr, hh', hin⟩ := (holding_iff hon').mp hh
      rw [holding_iff (s := s.setPc i q) hon', hother j (hne c' j hcc hr.proc)]
      refine ⟨⟨hr.proc, hr.saved, hr.loop⟩, hh', ?_⟩
      cases hpc : s.pc j <;> rw [hpc] at hin <;> exact hin
  · have hji : j ≠ i := by
      rintro rfl
      have hj' : s.saved j = true := hj
      rw [hruns.saved] at hj'
      cases hj'
    rw [hother j hji]
    exact h.saved j hj

theorem Inv.acquire {op : Op} (hl : s.pc i = .acquire op)
    (hfree : s.lock = none) : Inv { s.setPc i (.locked op) with lock := some c } := by
  have hruns := h.runs hon
  obtain ⟨-, hrun⟩ := h.outside hon (by rw [hl]; rfl)
  refine ⟨fun c' hc' => ?_, fun c' hc' => ?_, h.once, h.parked, fun j hj => ?_⟩
  · have hcc : c' ≠ c := by
      rintro rfl
      exact hc' rfl
    refine (h.loose c' (by rw [hfree]; nofun)).frame rfl rfl rfl fun j hj hst => ⟨hst, ?_, rfl⟩
    refine update_of_ne ?_ ..
    rintro rfl
    exact hcc (h.once c' c j hj hruns.proc)
  · cases hc'
    rw [holding_iff (s := { s.setPc i (.locked op) with lock := some c }) hon]
    simp only [State.setPc, update_self]
    exact ⟨⟨hruns.proc, hruns.saved, hruns.loop⟩, rfl, hrun⟩
  · have hji : j ≠ i := by
      rintro rfl
      have hj' : s.saved j = true := hj
      rw [hruns.saved] at hj'
      cases hj'
    simp only [State.setPc, update_of_ne hji]
    exact h.saved j hj

theorem Inv.context (hl : s.pc i = .making j) :
    Inv { (s.setPc j .release).setPc i (.ready j) with saved := update s.saved j true } := by
  obtain ⟨hlock, hin⟩ := h.inside hon hl rfl
  obtain ⟨hrun, hembryo⟩ := hin
  have hruns := h.runs hon
  have hij : i ≠ j := by
    rintro rfl
    rw [hrun] at hembryo
    cases hembryo
  have hsv : ∀ k, k ≠ j → update s.saved j true k = s.saved k := fun k hk =>
    update_of_ne hk ..
  refine h.locked hlock (.inl ⟨hlock, ?_⟩) (fun _ _ => rfl) (fun _ _ => rfl) (fun _ _ => rfl)
    (fun k hk hne => ⟨hk, ?_, ?_⟩) (fun _ hk => .inl hk) (fun k hk => ?_) (fun k hk => ?_)
  · rw [holding_iff (s := { (s.setPc j .release).setPc i (.ready j) with
      saved := update s.saved j true }) hon]
    simp only [State.setPc, update_self]
    exact ⟨⟨hruns.proc, (hsv i hij).trans hruns.saved, hruns.loop⟩, rfl, hrun, hembryo,
      update_self ..⟩
  · have hkj : k ≠ j := by
      rintro rfl
      rw [hembryo] at hk
      cases hk
    have hki : k ≠ i := by
      rintro rfl
      exact hne hruns.proc
    simp only [State.setPc, update_of_ne hki, update_of_ne hkj]
  · refine hsv k ?_
    rintro rfl
    rw [hembryo] at hk
    cases hk
  · obtain ⟨hr, hready⟩ := h.parked k hk
    refine ⟨hr, fun hst => ?_⟩
    by_cases hkj : k = j
    · subst hkj
      exact update_self ..
    · exact (hsv k hkj).trans (hready hst)
  · by_cases hkj : k = j
    · subst hkj
      simp only [State.setPc, update_of_ne hij.symm, update_self]
      exact ⟨.release, rfl⟩
    · have hk' : s.saved k = true := (hsv k hkj).symm.trans hk
      have hki : k ≠ i := by
        rintro rfl
        rw [hruns.saved] at hk'
        cases hk'
      simp only [State.setPc, update_of_ne hki, update_of_ne hkj]
      exact h.saved k hk'

theorem Inv.release (hl : s.pc i = .release) : Inv { s.setPc i .run with lock := none } := by
  obtain ⟨hlock, hin⟩ := h.inside hon hl rfl
  have hruns := h.runs hon
  refine h.locked hlock (.inr ⟨rfl, ?_⟩) (fun _ _ => rfl) (fun _ _ => rfl) (fun _ _ => rfl)
    (fun j hj hne => ⟨hj, update_of_ne ?_ .., rfl⟩) (fun _ hj => .inl hj) h.parked (fun j hj => ?_)
  · rw [loose_iff (s := { s.setPc i .run with lock := none }) hon]
    simp only [State.setPc, update_self]
    exact ⟨⟨hruns.proc, hruns.saved, hruns.loop⟩, rfl, hin⟩
  · rintro rfl
    exact hne hruns.proc
  · have hji : j ≠ i := by
      rintro rfl
      have hj' : s.saved j = true := hj
      rw [hruns.saved] at hj'
      cases hj'
    simp only [State.setPc, update_of_ne hji]
    exact h.saved j hj

theorem Inv.switchOut (hl : s.pc i = .load k) :
    Inv { s.setPc i k.pc with
      on := update s.on c none
      saved := update s.saved i true } := by
  obtain ⟨hlock, hin⟩ := h.inside hon hl rfl
  have hruns := h.runs hon
  obtain ⟨rest, hloop⟩ := hruns.loop
  have hne : ∀ j, s.proc c ≠ some j → j ≠ i := by
    rintro j hj rfl
    exact hj hruns.proc
  refine h.locked hlock (.inl ⟨hlock, ?_⟩) (fun c' hcc => update_of_ne hcc ..) (fun _ _ => rfl) (fun _ _ => rfl)
    (fun j hj hc => ⟨hj, update_of_ne (hne j hc) .., update_of_ne (hne j hc) ..⟩) (fun _ hj => .inl hj)
    (fun j hj => ?_) (fun j hj => ?_)
  · exact holding_of_none (update_self ..) hloop
      ⟨i, hruns.proc, hin, update_self ..⟩
  · have hji : j ≠ i := hne j (hj c)
    obtain ⟨hr, hready⟩ := h.parked j hj
    refine ⟨hr, fun hst => ?_⟩
    simp only [update_of_ne hji]
    exact hready hst
  · by_cases hji : j = i
    · subst hji
      simp only [State.setPc, update_self]
      exact ⟨k, rfl⟩
    · simp only [update_of_ne hji] at hj
      simp only [State.setPc, update_of_ne hji]
      exact h.saved j hj

theorem ProcStep.inv (hstep : ProcStep c i i s s') : Inv s' := by
  cases hstep with
  | call hl op => exact h.call hon (by rw [hl]; rfl) rfl
  | acquire hl hfree => exact h.acquire hon hl hfree
  | yield hl => exact h.leave hon (by rw [hl]; rfl) nofun
  | sleep hl => exact h.leave hon (by rw [hl]; rfl) nofun
  | exit hl => exact h.leave hon (by rw [hl]; rfl) nofun
  | waitSleep hl => exact h.leave hon (by rw [hl]; rfl) nofun
  | exitWake hl S =>
    have hin := (h.inside hon hl rfl).2
    exact h.proceed (q := s.pc i) hon (by rw [hl]; rfl) rfl rfl rfl rfl rfl
      (update_eq_self ..).symm (by rw [hl]; rfl)
      (by rw [hl]; exact (wake_running S i).mpr hin) (fun j _ => wake_running S j)
      (fun j _ hj => wake_ready S hj)
  | wakeup hl S =>
    have hin := (h.inside hon hl rfl).2
    exact h.proceed hon (by rw [hl]; rfl) rfl rfl rfl rfl rfl rfl rfl
      ((wake_running S i).mpr hin) (fun j _ => wake_running S j) (fun j _ hj => wake_ready S hj)
  | @fork j hl hj =>
    have hin := (h.inside hon hl rfl).2
    have hne : s.state j ≠ .running := by
      rw [hj]
      nofun
    exact h.alter hon (by rw [hl]; rfl) rfl hne nofun nofun
      ⟨running_setState hin hne _ _, update_self ..⟩
  | forkFull hl | waitNone hl =>
    have hin := (h.inside hon hl rfl).2
    exact h.proceed hon (by rw [hl]; rfl) rfl rfl rfl rfl rfl rfl rfl hin (fun _ _ => .rfl)
      (fun _ _ hj => hj.elim .inl fun hs => .inr (.inl hs))
  | @forkFail j hl =>
    have hin := (h.inside hon hl rfl).2
    have hne : s.state j ≠ .running := by
      rw [hin.2]
      nofun
    exact h.alter hon (by rw [hl]; rfl) rfl hne nofun nofun (running_setState hin.1 hne _ _)
  | forkContext hl => exact h.context hon hl
  | @forkUndo j hl =>
    have hin := (h.inside hon hl rfl).2
    have hne : s.state j ≠ .running := by
      rw [hin.2.1]
      nofun
    exact h.alter hon (by rw [hl]; rfl) rfl hne nofun nofun (running_setState hin.1 hne _ _)
  | @forkDone j hl =>
    have hin := (h.inside hon hl rfl).2
    have hne : s.state j ≠ .running := by
      rw [hin.2.1]
      nofun
    exact h.alter hon (by rw [hl]; rfl) rfl hne nofun (fun _ => hin.2.2)
      (running_setState hin.1 hne _ _)
  | @waitFound j hl hj =>
    have hin := (h.inside hon hl rfl).2
    have hne : s.state j ≠ .running := by
      rw [hj]
      nofun
    exact h.alter hon (by rw [hl]; rfl) rfl hne nofun nofun (running_setState hin hne _ _)
  | release hl => exact h.release hon hl
  | schedUnlocked hl hlock => exact absurd (h.inside hon hl rfl).1 hlock
  | schedRunning hl hlock hp =>
    have hin := (h.inside hon hl rfl).2
    exact absurd hp hin
  | sched hl _ _ | save hl =>
    have hin := (h.inside hon hl rfl).2
    exact h.proceed hon (by rw [hl]; rfl) rfl rfl rfl rfl rfl rfl rfl hin (fun _ _ => .rfl)
      (fun _ _ hj => hj.elim .inl fun hs => .inr (.inl hs))
  | load hl => exact h.switchOut hon hl

end

theorem Step.inv (hstep : Step table s s') : Inv s' := by
  cases hstep with
  | loop hon hl => exact hl.inv h hon
  | proc hon hp hl =>
    -- the process a CPU runs is the one that `proc` says
    rw [(h.runs hon).proc] at hp
    cases hp
    exact hl.inv h hon

end

theorem inv_boot (init : ι) : Inv (boot init : State κ ι) := by
  refine ⟨fun c _ => ⟨rfl, rfl⟩, nofun, nofun, fun i _ => ?_, fun i _ => ⟨.release, rfl⟩⟩
  by_cases hi : i = init
  · subst hi
    simp [boot]
  · simp [boot, update_of_ne hi]

theorem Reachable.inv {init : ι} (h : Reachable table init s) : Inv s := by
  induction h with
  | refl => exact inv_boot init
  | tail _ hstep ih => exact hstep.inv ih

/-! ## Every run -/

theorem one_cpu_per_process {init : ι} (h : Reachable table init s) :
    (∀ c c' i, s.on c = some i → s.on c' = some i → c = c') ∧
      (∀ c i rest, s.on c = none → s.loop c = .load i rest →
        s.saved i = true ∧ ∀ c', s.on c' ≠ some i) ∧
      (s.lock = none → ∀ i, s.state i = .running ↔ ∃! c, s.proc c = some i) := by
  have hinv := h.inv
  refine ⟨fun c c' i hc hc' => ?_, fun c i rest hon hl => ?_, fun hlock i => ⟨fun hi => ?_, ?_⟩⟩
  · exact hinv.once c c' i (hinv.runs hc).proc (hinv.runs hc').proc
  · obtain ⟨-, hpick⟩ := hinv.picking hon hl nofun
    refine ⟨hpick.2.2, fun c' hc' => ?_⟩
    have hsv := (hinv.runs hc').saved
    rw [hpick.2.2] at hsv
    cases hsv
  · by_contra hnone
    refine (hinv.parked i fun c hc => hnone ?_).1 hi
    exact ⟨c, hc, fun c' hc' => hinv.once c' c i hc' hc⟩
  · rintro ⟨c, hc, -⟩
    exact ((hinv.loose c (by rw [hlock]; nofun)).running hc).2

/-- The first CPU has picked the first process, which has returned from `forkret`. -/
theorem one_cpu_per_process_boot : ∃ s : State (Fin 2) (Fin 2), Reachable [0, 1] 0 s ∧
    s.state 0 = .running ∧ ∃! c, s.proc c = some 0 := by
  have h₀ : Reachable [0, 1] 0 (boot 0 : State (Fin 2) (Fin 2)) := .refl
  have h₁ := h₀.tail (.loop (c := 0) rfl (.acquire rfl rfl))
  have h₂ := h₁.tail (.loop (c := 0) rfl (.choose rfl rfl))
  have h₃ := h₂.tail (.loop (c := 0) rfl (.set rfl))
  have h₄ := h₃.tail (.loop (c := 0) rfl (.save rfl))
  have h₅ := h₄.tail (.loop (c := 0) rfl (.load rfl))
  have h₆ := h₅.tail (.proc (c := 0) rfl rfl (.release rfl))
  exact ⟨_, h₆, rfl, ((one_cpu_per_process h₆).2.2 rfl 0).mp rfl⟩

/-- `ptable.lock` is taken by one process and released by another, and yet only the CPU that has it runs
code between `acquire` and `release`, of a process or of the scheduler. So `sched` never finds the lock
free or the process running. -/
theorem lock_passed_on {init : ι} (h : Reachable table init s) :
    (∀ c i, s.on c = some i → (s.pc i).held = true → s.lock = some c) ∧
      (∀ c, s.on c = none → s.loop c ≠ .idle → s.lock = some c) ∧
      ∀ c i msg, s.on c = some i → s.pc i ≠ .panic msg := by
  have hheld : ∀ c i, s.on c = some i → (s.pc i).held = true → s.lock = some c := by
    intro c i hon hpc
    by_contra hlock
    have hloose := h.inv.loose c hlock
    rw [Loose, hon] at hloose
    simp [hloose.2.1] at hpc
  refine ⟨hheld, fun c hon hloop => ?_, fun c i msg hon hpc => ?_⟩
  · by_contra hlock
    have hloose := h.inv.loose c hlock
    rw [Loose, hon] at hloose
    exact hloop hloose.1
  · have hholding := h.inv.holding c (hheld c i hon (by rw [hpc]; rfl))
    rw [Holding, hon] at hholding
    have hinside := hholding.2.2
    rwa [hpc] at hinside

/-- The first CPU looks for a process. -/
theorem lock_passed_on_scan : ∃ s : State (Fin 2) (Fin 2), Reachable [0, 1] 0 s ∧ s.on 0 = none ∧
    s.lock = some 0 := by
  have h : Reachable [0, 1] 0 (boot 0 : State (Fin 2) (Fin 2)) := .refl
  have h := h.tail (.loop (c := 0) rfl (.acquire rfl rfl))
  exact ⟨_, h, rfl, (lock_passed_on h).2.1 0 rfl (by simp [State.setLoop])⟩

end Xv6.Sched
