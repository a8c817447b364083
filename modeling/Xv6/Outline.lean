import Xv6.Monitor

/-!
# Proof outlines for monitors

An assertion for every point of the code, an invariant of the data, what holds besides while the lock is
free, and for every channel the reason why a process may sleep on it. If the reason is gone, somebody is at a point where a `wakeup` is still to
come. `Outline.fine` is what an outline says about the machine with the small steps.
-/

namespace Monitor

open Function

variable {ι χ σ Λ : Type} [DecidableEq ι] [DecidableEq χ] {m : Machine ι χ σ Λ}

structure Outline (m : Machine ι χ σ Λ) where
  held : Λ → Bool
  inv : σ → Prop
  free : σ → Prop
  run : ι → Λ → σ → Prop
  wait : ι → Λ → σ → Prop
  reason : χ → σ → Prop
  owes : Λ → χ → Prop
  call : ∀ {i l l' d}, m.code i l = .idle → m.menu i d l l' → inv d → run i l d →
    held l' = held l ∧ run i l' d ∧ ∀ c, owes l c → owes l' c
  env : ∀ {d d'}, m.env d d' → inv d →
    inv d' ∧ (free d → free d') ∧ (∀ i l, run i l d → run i l d') ∧ (∀ i l, wait i l d → wait i l d') ∧
      ∀ c, reason c d → reason c d'
  acquire : ∀ {i l l' d}, m.code i l = .acquire l' → inv d → free d → run i l d →
    held l' = true ∧ run i l' d ∧ ∀ c, owes l c → owes l' c
  release : ∀ {i l l' d}, m.code i l = .release l' → inv d → run i l d →
    held l' = false ∧ free d ∧ run i l' d ∧ ∀ c, owes l c → owes l' c
  step : ∀ {i l f d} (k : Bool), m.code i l = .step f → inv d → run i l d →
    inv (f k d).1 ∧ (held l = false → free d → free (f k d).1) ∧ run i (f k d).2 (f k d).1 ∧ held (f k d).2 = held l ∧
      (∀ c, owes l c → reason c (f k d).1 ∨ owes (f k d).2 c) ∧
      ∀ c, reason c d → reason c (f k d).1 ∨ owes (f k d).2 c
  stable_run : ∀ {i j l l' f d} (k : Bool), i ≠ j → m.code j l' = .step f → inv d → run j l' d →
    (held l = true → held l' = true → False) → run i l d → run i l (f k d).1
  stable_wait : ∀ {i j l l' f d} (k : Bool), i ≠ j → m.code j l' = .step f → inv d → run j l' d →
    wait i l d → wait i l (f k d).1
  sleep : ∀ {i l l' c d}, m.code i l = .sleep c l' → inv d → run i l d →
    held l' = true ∧ free d ∧ wait i l' d ∧ reason c d ∧ ∀ c, ¬ owes l c
  wakeup : ∀ {i l l' c d}, m.code i l = .wakeup c l' → inv d → run i l d →
    held l' = held l ∧ run i l' d ∧ ∀ c', c' ≠ c → owes l c' → owes l' c'
  resume : ∀ {i l d}, inv d → free d → wait i l d → run i l d

namespace Outline

/-- What the outline says about one process. -/
def At (o : Outline m) (i : ι) (lock : Option ι) (d : σ) : Place χ Λ → Prop
  | .run l => (o.held l = true ↔ lock = some i) ∧ o.run i l d
  | .asleep _ l => o.held l = true ∧ o.wait i l d ∧ lock ≠ some i
  | .woken l => o.held l = true ∧ o.wait i l d ∧ lock ≠ some i

structure Holds (o : Outline m) (s : State ι χ σ Λ) : Prop where
  inv : o.inv s.data
  free : s.lock = none → o.free s.data
  place : ∀ i, o.At i s.lock s.data (s.place i)
  asleep : ∀ i c l, s.place i = .asleep c l →
    o.reason c s.data ∨ ∃ j l', s.place j = .run l' ∧ o.owes l' c

variable {o : Outline m} {s s' : State ι χ σ Λ} {i : ι} {p : Place χ Λ}

theorem At.lock {lock lock' : Option ι} {d : σ} (h : o.At i lock d p)
    (hlock : lock' = some i ↔ lock = some i) : o.At i lock' d p := by
  cases p with
  | run l => exact ⟨h.1.trans hlock.symm, h.2⟩
  | asleep c l | woken l => exact ⟨h.1, h.2.1, fun hl => h.2.2 (hlock.mp hl)⟩

theorem At.wake {lock : Option ι} {d : σ} (h : o.At i lock d p) (c : χ) : o.At i lock d (p.wake c) := by
  cases p with
  | run l | woken l => exact h
  | asleep c' l =>
    rw [Place.wake]
    split
    · exact h
    · exact h

section

variable (h : o.Holds s)
include h

theorem Holds.run {l : Λ} (hl : s.place i = .run l) :
    (o.held l = true ↔ s.lock = some i) ∧ o.run i l s.data := by
  have hi := h.place i
  rwa [hl] at hi

/-- Process `i` goes to another place. What it owed, and the reasons that are gone, it owes there. -/
theorem Holds.move (hplace : s'.place = update s.place i p) (hinv : o.inv s'.data)
    (hfree : s'.lock = none → o.free s'.data) (hi : o.At i s'.lock s'.data p)
    (hother : ∀ j, j ≠ i → o.At j s'.lock s'.data (s.place j))
    (hsleep : ∀ c l, p = .asleep c l → o.reason c s'.data)
    (howed : ∀ c, o.reason c s.data ∨ (∃ l, s.place i = .run l ∧ o.owes l c) →
      o.reason c s'.data ∨ ∃ l, p = .run l ∧ o.owes l c) : o.Holds s' := by
  refine ⟨hinv, hfree, fun j => ?_, fun j c lj hj => ?_⟩
  · rw [hplace]
    by_cases hji : j = i
    · rw [hji, update_self]
      exact hi
    · rw [update_of_ne hji]
      exact hother j hji
  · rw [hplace] at hj ⊢
    have howes : o.reason c s.data ∨ (∃ l, s.place i = .run l ∧ o.owes l c) →
        o.reason c s'.data ∨ ∃ k l, update s.place i p k = .run l ∧ o.owes l c := fun hr =>
      (howed c hr).imp_right fun ⟨l, hp, ho⟩ => ⟨i, l, by rw [update_self, hp], ho⟩
    by_cases hji : j = i
    · rw [hji, update_self] at hj
      exact .inl (hsleep c lj hj)
    · rw [update_of_ne hji] at hj
      rcases h.asleep j c lj hj with hr | ⟨k, lk, hk, ho⟩
      · exact howes (.inl hr)
      · by_cases hki : k = i
        · exact howes (.inr ⟨lk, hki ▸ hk, ho⟩)
        · exact .inr ⟨k, lk, by rw [update_of_ne hki, hk], ho⟩

/-- Process `i` goes on to another point, and owes what it owed before. -/
theorem Holds.go {l l' : Λ} (hl : s.place i = .run l)
    (hdata : s'.data = s.data) (hplace : s'.place = update s.place i (.run l'))
    (hlock : ∀ j, j ≠ i → (s'.lock = some j ↔ s.lock = some j))
    (hfree : s'.lock = none → o.free s.data)
    (hi : (o.held l' = true ↔ s'.lock = some i) ∧ o.run i l' s.data)
    (howes : ∀ c, o.owes l c → o.owes l' c) : o.Holds s' := by
  refine h.move hplace (hdata ▸ h.inv) (hdata ▸ hfree) (hdata ▸ hi) (fun j hji => ?_) nofun fun c hr => ?_
  · rw [hdata]
    exact (h.place j).lock (hlock j hji)
  · rw [hdata]
    refine hr.imp_right fun ⟨l₀, hl₀, ho⟩ => ⟨l', rfl, howes c ?_⟩
    rw [hl] at hl₀
    cases hl₀
    exact ho

/-- What one step preserves. -/
theorem Holds.step (hstep : Step m s s') : o.Holds s' := by
  cases hstep with
  | call hl hc hmenu =>
    obtain ⟨hheld, hrun⟩ := h.run hl
    obtain ⟨hheld', hrun', howes⟩ := o.call hc hmenu h.inv hrun
    exact h.go hl rfl rfl (fun _ _ => .rfl) h.free ⟨by rw [hheld']; exact hheld, hrun'⟩ howes
  | env he =>
    obtain ⟨hinv, hfree, hrun, hwait, hreason⟩ := o.env he h.inv
    refine ⟨hinv, fun hl => hfree (h.free hl), fun j => ?_, fun j c l hj => (h.asleep j c l hj).imp_left (hreason c)⟩
    have hj := h.place j
    cases hp : s.place j with
    | run l =>
      rw [hp] at hj
      exact ⟨hj.1, hrun j l hj.2⟩
    | asleep c l | woken l =>
      rw [hp] at hj
      exact ⟨hj.1, hwait j l hj.2.1, hj.2.2⟩
  | @acquire i l l' hl hc hfree =>
    obtain ⟨hheld, hrun, howes⟩ := o.acquire hc h.inv (h.free hfree) (h.run hl).2
    refine h.go hl rfl rfl (fun j hj => ?_) nofun ⟨by simp [hheld], hrun⟩ howes
    simp [hfree, Ne.symm hj]
  | @release i l l' hl hc hlock =>
    obtain ⟨hheld, hfree, hrun, howes⟩ := o.release hc h.inv (h.run hl).2
    refine h.go hl rfl rfl (fun j hj => ?_) (fun _ => hfree) ⟨by simp [hheld], hrun⟩ howes
    simp [hlock, Ne.symm hj]
  | @step i l f hl hc =>
    obtain ⟨hheld, hrun⟩ := h.run hl
    obtain ⟨hinv, hfree, hrun', hheld', howes, hreason⟩ := o.step (s.killed i) hc h.inv hrun
    refine h.move rfl hinv (fun hl' => hfree ?_ (h.free hl')) ⟨by rw [hheld']; exact hheld, hrun'⟩ (fun j hji => ?_)
      nofun fun c hr => ?_
    · refine Bool.eq_false_iff.mpr fun hh => ?_
      have hown : s.lock = some i := hheld.mp hh
      rw [show s.lock = none from hl'] at hown
      cases hown
    · have hp := h.place j
      cases hpj : s.place j with
      | run lj =>
        rw [hpj] at hp
        refine ⟨hp.1, o.stable_run _ hji hc h.inv hrun (fun hj hi => ?_) hp.2⟩
        have := (hp.1.mp hj).symm.trans (hheld.mp hi)
        exact hji (Option.some.inj this)
      | asleep c lj | woken lj =>
        rw [hpj] at hp
        exact ⟨hp.1, o.stable_wait _ hji hc h.inv hrun hp.2.1, hp.2.2⟩
    · have hnext : o.reason c (f (s.killed i) s.data).1 ∨ o.owes (f (s.killed i) s.data).2 c := by
        rcases hr with hr | ⟨l₀, hl₀, ho⟩
        · exact hreason c hr
        · rw [hl] at hl₀
          cases hl₀
          exact howes c ho
      exact hnext.imp_right fun ho => ⟨_, rfl, ho⟩
  | @sleep i l l' c hl hc hlock =>
    obtain ⟨hheld, hrun⟩ := h.run hl
    obtain ⟨hheld', hfree, hwait, hreason, hno⟩ := o.sleep hc h.inv hrun
    refine h.move rfl h.inv (fun _ => hfree) ⟨hheld', hwait, nofun⟩ (fun j hji => (h.place j).lock ?_)
      (fun c' _ hp => ?_) fun c' hr => .inl (hr.resolve_right fun ⟨l₀, hl₀, ho⟩ => ?_)
    · simp [hlock, Ne.symm hji]
    · cases hp
      exact hreason
    · rw [hl] at hl₀
      cases hl₀
      exact hno c' ho
  | @wakeup i l l' c hl hc =>
    obtain ⟨hheld, hrun⟩ := h.run hl
    obtain ⟨hheld', hrun', howes⟩ := o.wakeup hc h.inv hrun
    refine ⟨h.inv, h.free, fun j => ?_, fun j c' lj hj => ?_⟩
    · by_cases hji : j = i
      · subst hji
        simp only [update_self]
        exact ⟨by rw [hheld']; exact hheld, hrun'⟩
      · simp only [update_of_ne hji]
        exact (h.place j).wake c
    · simp only at hj ⊢
      have hji : j ≠ i := by
        rintro rfl
        rw [update_self] at hj
        cases hj
      rw [update_of_ne hji] at hj
      have hc' : c' ≠ c := by
        rintro rfl
        exact Place.wake_ne c' lj _ hj
      rcases h.asleep j c' lj (Place.asleep_of_wake hj) with hr | ⟨k, lk, hk, ho⟩
      · exact .inl hr
      · refine .inr ?_
        by_cases hki : k = i
        · subst hki
          rw [hl] at hk
          cases hk
          exact ⟨k, l', update_self .., howes c' hc' ho⟩
        · exact ⟨k, lk, by rw [update_of_ne hki, hk, Place.wake_run], ho⟩
  | @resume i l hl hfree =>
    have hi := h.place i
    rw [hl] at hi
    obtain ⟨hheld, hwait, -⟩ := hi
    refine h.move rfl h.inv nofun ⟨by simp [hheld], o.resume h.inv (h.free hfree) hwait⟩
      (fun j hji => (h.place j).lock ?_) nofun fun c hr => .inl (hr.resolve_right fun ⟨l₀, hl₀, _⟩ => ?_)
    · simp [hfree, Ne.symm hji]
    · rw [hl] at hl₀
      cases hl₀
  | kill i =>
    have hkill : ∀ j, update s.place i (s.place i).kill j = s.place j ∨
        ∃ c l, s.place j = .asleep c l ∧ update s.place i (s.place i).kill j = .woken l := by
      intro j
      by_cases hji : j = i
      · subst hji
        rw [update_self]
        cases hp : s.place j with
        | run l | woken l => exact .inl rfl
        | asleep c l => exact .inr ⟨c, l, rfl, rfl⟩
      · exact .inl (update_of_ne hji ..)
    refine ⟨h.inv, h.free, fun j => ?_, fun j c lj hj => ?_⟩
    · have hj := h.place j
      rcases hkill j with hsame | ⟨c, l, hp, hk⟩
      · simp only [State.go, hsame]
        exact hj
      · rw [hp] at hj
        simp only [State.go, hk]
        exact hj
    · simp only [State.go] at hj ⊢
      rcases hkill j with hsame | ⟨c', l, hp, hk⟩
      · rw [hsame] at hj
        refine (h.asleep j c lj hj).imp_right fun ⟨k, lk, hk, ho⟩ => ?_
        rcases hkill k with hsame' | ⟨c', l, hp, -⟩
        · exact ⟨k, lk, hsame'.trans hk, ho⟩
        · rw [hp] at hk
          cases hk
      · rw [hk] at hj
        cases hj

/-- What a run preserves. -/
theorem Holds.reaches (hrun : Reaches m s s') : o.Holds s' := by
  induction hrun with
  | refl => exact h
  | tail _ hstep ih => exact ih.step hstep

end

/-- Nobody holds the lock at the start. -/
theorem holds_start {d : σ} {l : ι → Λ} (hinv : o.inv d) (hfree : o.free d)
    (h : ∀ i, o.held (l i) = false ∧ o.run i (l i) d) : o.Holds (State.start d l) := by
  refine ⟨hinv, fun _ => hfree, fun i => ⟨?_, (h i).2⟩, nofun⟩
  rw [(h i).1]
  exact ⟨nofun, nofun⟩

end Outline

/-- The point of the code a process is at, if it is not inside `sleep`. -/
def Pc.within : Pc ι χ Λ → Option Λ
  | .at l => some l
  | .handing l => some l
  | .scan _ l _ => some l
  | _ => none

/-- The point of the code at which a process inside `sleep` goes on. -/
def Pc.resumes : Pc ι χ Λ → Option Λ
  | .dropped _ l => some l
  | .marked _ l => some l
  | .off _ l => some l
  | .back l => some l
  | .relock l => some l
  | _ => none

section

variable {f : Fine ι χ σ Λ} {s : State ι χ σ Λ} {i : ι} {procs : List ι}

theorem Sim.within {l : Λ} (h : Sim m f s) : (f.pc i).within = some l ↔ s.place i = .run l := by
  have hp := h.place i
  cases hpc : f.pc i with
  | «at» l' =>
    rw [hpc] at hp
    rw [hp.1]
    simp [Pc.within]
  | handing l' =>
    rw [hpc] at hp
    rw [hp.1]
    simp [Pc.within]
  | scan c l' rest =>
    rw [hpc] at hp
    rw [hp.1]
    simp [Pc.within]
  | dropped c l' | marked c l' | back l' | relock l' =>
    rw [hpc] at hp
    rw [hp.1]
    simp [Pc.within]
  | off c l' =>
    rw [hpc] at hp
    rcases hp with ⟨-, hp⟩ | ⟨-, hp | ⟨hp, -⟩⟩ <;> rw [hp] <;> simp [Pc.within]

theorem Sim.resumes {l : Λ} (h : Sim m f s) (hl : (f.pc i).resumes = some l) :
    (∃ c, s.place i = .asleep c l) ∨ s.place i = .woken l := by
  have hp := h.place i
  cases hpc : f.pc i with
  | dropped c l' | marked c l' =>
    rw [hpc] at hp hl
    cases hl
    exact .inl ⟨c, hp.1⟩
  | back l' | relock l' =>
    rw [hpc] at hp hl
    cases hl
    exact .inr hp.1
  | off c l' =>
    rw [hpc] at hp hl
    cases hl
    rcases hp with ⟨-, hp⟩ | ⟨-, hp | ⟨hp, -⟩⟩
    · exact .inr hp
    · exact .inl ⟨c, hp⟩
    · exact .inr hp
  | «at» l' | handing l' | scan c l' rest =>
    rw [hpc] at hl
    cases hl

namespace Outline

/-- A process marked as sleeping has its reason, or a `wakeup` for it is to come or at work. -/
structure FineHolds (o : Outline m) (f : Fine ι χ σ Λ) : Prop where
  inv : o.inv f.data
  free : f.lock = none → o.free f.data
  run : ∀ i l, (f.pc i).within = some l → (o.held l = true ↔ f.lock = some i) ∧ o.run i l f.data
  wait : ∀ i l, (f.pc i).resumes = some l → o.wait i l f.data
  sleeping : ∀ i c, f.sleeping i = some c → o.reason c f.data ∨
    (∃ j l, f.pc j = .at l ∧ o.owes l c) ∨
      ∃ j c' l₀ l rest, f.pc j = .scan c' l rest ∧ m.code j l₀ = .wakeup c' l ∧ (c' = c ∨ o.owes l c)

variable {o : Outline m}

theorem Holds.owes {l : Λ} {c : χ} (h : o.Holds s) (hsim : Sim m f s) (hj : s.place i = .run l)
    (ho : o.owes l c) : (∃ j l, f.pc j = .at l ∧ o.owes l c) ∨
      ∃ j c' l₀ l rest, f.pc j = .scan c' l rest ∧ m.code j l₀ = .wakeup c' l ∧
        (c' = c ∨ o.owes l c) := by
  have hp := hsim.place i
  cases hpc : f.pc i with
  | «at» l' =>
    rw [(hsim.at hpc).1] at hj
    cases hj
    exact .inl ⟨i, l, hpc, ho⟩
  | handing l' =>
    rw [hpc] at hp
    obtain ⟨hrun, -, -, -, c', l₁, hc⟩ := hp
    rw [hrun] at hj
    cases hj
    exact absurd ho ((o.sleep hc h.inv (h.run hrun).2).2.2.2.2 c)
  | scan c' l' rest =>
    obtain ⟨hrun, -, -, l₀, hl₀⟩ := hsim.scan hpc
    rw [hrun] at hj
    cases hj
    exact .inr ⟨i, c', l₀, l, rest, hpc, hl₀, .inr ho⟩
  | dropped c l' | marked c l' | off c l' | back l' | relock l' =>
    have hw := hsim.within.mpr hj
    rw [hpc] at hw
    cases hw

theorem Holds.sim (h : o.Holds s) (hsim : Sim m f s) : o.FineHolds f where
  inv := hsim.data ▸ h.inv
  free hl := hsim.data ▸ h.free (hsim.lock.trans hl)
  run i l hl := by
    have hi := h.run (hsim.within.mp hl)
    rwa [hsim.lock, hsim.data] at hi
  wait i l hl := by
    have hi := h.place i
    rcases hsim.resumes hl with ⟨c, hc⟩ | hw
    · rw [hc] at hi
      exact hsim.data ▸ hi.2.1
    · rw [hw] at hi
      exact hsim.data ▸ hi.2.1
  sleeping i c hi := by
    rcases hsim.sleeping hi with ⟨l, hl⟩ | ⟨j, l, rest, hj, -, -⟩
    · rcases h.asleep i c l hl with hr | ⟨j, l', hj, ho⟩
      · exact .inl (hsim.data ▸ hr)
      · exact .inr (h.owes hsim hj ho)
    · obtain ⟨l₀, hl₀⟩ := (hsim.scan hj).2.2.2
      exact .inr (.inr ⟨j, c, l₀, l, rest, hj, hl₀, .inl rfl⟩)

/-- Where a `wakeup` is called and owed under the lock only, a sleeper has its reason whenever the lock
is free. -/
theorem FineHolds.reason_of_free (h : o.FineHolds f) (howes : ∀ l c, o.owes l c → o.held l = true)
    (hwakeup : ∀ j l₀ c l, m.code j l₀ = .wakeup c l → o.held l = true) (hlock : f.lock = none) {c : χ}
    (hi : f.sleeping i = some c) : o.reason c f.data := by
  have hnone : ∀ j l, (f.pc j).within = some l → o.held l = true → False := by
    intro j l hj hheld
    have hown := (h.run j l hj).1.mp hheld
    rw [hlock] at hown
    cases hown
  rcases h.sleeping i c hi with hr | ⟨j, l, hj, ho⟩ | ⟨j, c', l₀, l, rest, hj, hl₀, -⟩
  · exact hr
  · exact (hnone j l (by rw [hj]; rfl) (howes l c ho)).elim
  · exact (hnone j l (by rw [hj]; rfl) (hwakeup j l₀ c' l hl₀)).elim

/-- An outline holds in every run of the machine with the small steps. -/
theorem fine {d : σ} {l : ι → Λ} (hprocs : ∀ i, i ∈ procs) (h : o.Holds (State.start d l))
    (hrun : FineReaches m procs (Fine.start d l) f) : o.FineHolds f := by
  obtain ⟨s, hs, hsim⟩ := simulation hprocs hrun
  exact (h.reaches hs).sim hsim

end Outline

end

end Monitor
