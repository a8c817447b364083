import Xv6.ProcTable

/-!
# Process ids and kill

`nextpid` is an `int` that is incremented by every attempt to create a process. Ids are unique and
positive until it overflows. `kill` compares ids without looking at the state of the slot: it also
finds slots that are free, and the mark stays there for the next process.
-/

namespace Xv6.Ptable

open Resumption Function List State

/-! ## Sections that create and remove no process -/

/-- Slots are taken and given back by other steps; what is marked as killed is marked for a reason
that the history shows. -/
structure Quiet (s s' : State) : Prop where
  pid : ∀ q, (s'.proc q).pid = (s.proc q).pid
  unused : ∀ q, (s'.proc q).state = .unused ↔ (s.proc q).state = .unused
  nextpid : s'.nextpid = s.nextpid
  allocs : s'.allocs = s.allocs
  uid : s'.uid = s.uid
  forks : s'.forks = s.forks
  trace : ∃ l, s'.trace = s.trace ++ l
  killed : ∀ q, (s'.proc q).killed = true → (s.proc q).killed = true ∨
    (s.proc q).state ≠ .unused ∧
      (.trapped (s.uid q) ∈ s'.trace ∨ .killed (s.uid q) (s.proc q).pid ∈ s'.trace) ∨
    (s.proc q).state = .unused ∧ ∃ pid, .stray pid ∈ s'.trace

section Quiet

variable {s s' s'' : State} {p q : Slot}

theorem Quiet.refl : Quiet s s :=
  ⟨fun _ => rfl, fun _ => .rfl, rfl, rfl, rfl, rfl, ⟨[], (append_nil _).symm⟩, fun _ h => .inl h⟩

theorem Quiet.mem {e : Event} (h : Quiet s s') (he : e ∈ s.trace) : e ∈ s'.trace := by
  obtain ⟨l, hl⟩ := h.trace
  rw [hl]
  exact mem_append_left l he

theorem Quiet.trans (h : Quiet s s') (h' : Quiet s' s'') : Quiet s s'' := by
  refine ⟨fun q => (h'.pid q).trans (h.pid q), fun q => (h'.unused q).trans (h.unused q),
    h'.nextpid.trans h.nextpid, h'.allocs.trans h.allocs,
    h'.uid.trans h.uid, h'.forks.trans h.forks, ?_, fun q hk => ?_⟩
  · obtain ⟨l, hl⟩ := h.trace
    obtain ⟨l', hl'⟩ := h'.trace
    exact ⟨l ++ l', by rw [hl', hl, append_assoc]⟩
  · rcases h'.killed q hk with hk | ⟨hne, hcause⟩ | ⟨hu, pid, hs⟩
    · rcases h.killed q hk with hk | ⟨hne, hcause⟩ | ⟨hu, pid, hs⟩
      · exact .inl hk
      · exact .inr (.inl ⟨hne, hcause.imp h'.mem h'.mem⟩)
      · exact .inr (.inr ⟨hu, pid, h'.mem hs⟩)
    · rw [h.uid, h.pid] at hcause
      exact .inr (.inl ⟨fun hc => hne ((h.unused q).mpr hc), hcause⟩)
    · exact .inr (.inr ⟨(h.unused q).mp hu, pid, hs⟩)

theorem Quiet.setProc {x : Proc} (hproc : s'.proc = update s.proc q x)
    (hpid : x.pid = (s.proc q).pid) (hstate : x.state = .unused ↔ (s.proc q).state = .unused)
    (hnextpid : s'.nextpid = s.nextpid) (hallocs : s'.allocs = s.allocs) (huid : s'.uid = s.uid)
    (hforks : s'.forks = s.forks) (htrace : ∃ l, s'.trace = s.trace ++ l)
    (hkilled : x.killed = true → (s.proc q).killed = true ∨
      (s.proc q).state ≠ .unused ∧
        (.trapped (s.uid q) ∈ s'.trace ∨ .killed (s.uid q) (s.proc q).pid ∈ s'.trace) ∨
      (s.proc q).state = .unused ∧ ∃ pid, .stray pid ∈ s'.trace) : Quiet s s' := by
  have hself : s'.proc q = x := by rw [hproc, update_self]
  have hother : ∀ r, r ≠ q → s'.proc r = s.proc r := fun r hr => by
    rw [hproc, update_of_ne hr]
  have hpids : ∀ r, (s'.proc r).pid = (s.proc r).pid := by
    intro r
    by_cases hr : r = q
    · rw [hr, hself, hpid]
    · rw [hother r hr]
  refine ⟨hpids, fun r => ?_, hnextpid, hallocs, huid, hforks, htrace, fun r hk => ?_⟩
  · by_cases hr : r = q
    · rw [hr, hself]
      exact hstate
    · rw [hother r hr]
  · by_cases hr : r = q
    · subst hr
      rw [hself] at hk
      exact hkilled hk
    · rw [hother r hr] at hk
      exact .inl hk

theorem Quiet.setProc_same {x : Proc} (hproc : s'.proc = update s.proc q x)
    (hpid : x.pid = (s.proc q).pid) (hkilled : x.killed = (s.proc q).killed)
    (hstate : x.state = .unused ↔ (s.proc q).state = .unused)
    (hnextpid : s'.nextpid = s.nextpid) (hallocs : s'.allocs = s.allocs) (huid : s'.uid = s.uid)
    (hforks : s'.forks = s.forks) (htrace : ∃ l, s'.trace = s.trace ++ l) : Quiet s s' :=
  Quiet.setProc hproc hpid hstate hnextpid hallocs huid hforks htrace fun hk => .inl (by rwa [← hkilled])

theorem woken_quiet (x : Proc) (chan : Option Chan) : (x.woken chan).pid = x.pid ∧
    (x.woken chan).killed = x.killed ∧ ((x.woken chan).state = .unused ↔ x.state = .unused) := by
  unfold Proc.woken
  split
  · rename_i hs
    refine ⟨rfl, rfl, iff_of_false nofun ?_⟩
    rw [hs.1]
    nofun
  · exact ⟨rfl, rfl, .rfl⟩

theorem quiet_wakeup1 {chan : Option Chan} :
    wp (wakeup1 chan) (fun _ s' => Quiet s s') (fun _ _ => True) s := by
  unfold wakeup1
  rw [wp_modify]
  have hx := fun q => woken_quiet (s.proc q) chan
  refine ⟨fun q => (hx q).1, fun q => (hx q).2.2, rfl, rfl, rfl, rfl,
    ⟨[], (append_nil _).symm⟩, fun q hk => .inl ?_⟩
  rw [← (hx q).2.1]
  exact hk

theorem quiet_passChild {t : State} (h : Quiet s t) :
    wp (passChild p q) (fun _ t' => Quiet s t') (fun _ _ => True) t := by
  unfold passChild
  simp only [wp_bind, wp_get]
  rw [wp_ite]
  refine ⟨fun _ => ?_, fun _ => h⟩
  have hset : Quiet t (t.setProc q { t.proc q with parent := some t.initproc }) :=
    Quiet.setProc_same (q := q) rfl rfl rfl .rfl rfl rfl rfl rfl ⟨[], (append_nil _).symm⟩
  rw [wp_bind, wp_set, wp_ite]
  refine ⟨fun _ => ?_, fun _ => h.trans hset⟩
  exact wp_mono quiet_wakeup1 (fun _ _ hw => h.trans (hset.trans hw)) (fun _ _ _ => trivial)

theorem quiet_exit (hp : (s.proc p).state ≠ .unused) :
    wp (exit p) (fun _ s' => Quiet s s') (fun _ _ => True) s := by
  unfold exit
  simp only [wp_bind, wp_get]
  rw [wp_ite]
  refine ⟨fun _ => trivial, fun _ => ?_⟩
  rw [wp_bind]
  refine wp_mono quiet_wakeup1 ?_ (fun _ _ _ => trivial)
  intro _ u hu
  rw [wp_bind]
  refine wp_mono (wp_forM_list (J := fun _ t => Quiet s t) (fun q rest t ht => quiet_passChild ht) hu) ?_
    (fun _ _ _ => trivial)
  intro _ t ht
  rw [wp_modify]
  refine ht.trans (Quiet.setProc_same (q := p) rfl rfl rfl ?_ rfl rfl rfl rfl ⟨_, rfl⟩)
  exact iff_of_false (by simp) fun hc => hp ((ht.unused p).mp hc)

theorem quiet_kill {pid : ℤ} : wp (kill pid) (fun _ s' => Quiet s s') (fun _ _ => True) s := by
  unfold kill
  simp only [wp_bind, wp_get]
  cases hfirst : s.first fun x => x.pid = pid with
  | none => exact .refl
  | some q =>
    have hpid : (s.proc q).pid = pid := by simpa using first_some hfirst
    refine Quiet.setProc (q := q) rfl rfl ?_ rfl rfl rfl rfl ⟨_, rfl⟩ fun _ => .inr ?_
    · by_cases hs : (s.proc q).state = .sleeping
      · rw [if_pos hs, hs]
        exact iff_of_false (by simp) (by simp)
      · rw [if_neg hs]
    · by_cases hu : (s.proc q).state = .unused
      · refine .inr ⟨hu, pid, mem_append_right _ (mem_singleton.mpr ?_)⟩
        rw [if_pos hu]
      · refine .inl ⟨hu, .inr (mem_append_right _ (mem_singleton.mpr ?_))⟩
        rw [if_neg hu, hpid]

theorem quiet_wake : Quiet s ((s.setProc p { s.proc p with chan := none }).setPc p .elsewhere) :=
  Quiet.setProc_same (q := p) rfl rfl rfl .rfl rfl rfl rfl rfl ⟨[], (append_nil _).symm⟩

theorem both_used {c c' : ProcState} (hp : (s.proc p).state = c) (hc : c ≠ .unused) (hc' : c' ≠ .unused) :
    c' = .unused ↔ (s.proc p).state = .unused := by
  rw [hp]
  exact iff_of_false hc' hc

theorem quiet_sleep {chan : Chan} {pc : Pc} (hp : (s.proc p).state = .running) :
    Quiet s ((s.setProc p { s.proc p with chan := some chan, state := .sleeping }).setPc p pc) :=
  Quiet.setProc_same (q := p) rfl rfl rfl (both_used hp (by decide) nofun) rfl rfl rfl rfl
    ⟨[], (append_nil _).symm⟩

inductive Outcome (s s' : State) : Prop
  | quiet (h : Quiet s s')
  | refused (q : Slot) (hq : (s.proc q).state = .unused) (h : s' = s.refused q)
  | created (p q : Slot) (hp : (s.proc p).state = .running) (hq : (s.proc q).state = .unused)
      (h : s' = s.created p q)
  | buried (t : State) (p q : Slot) (ht : Quiet s t) (hq : (t.proc q).state = .zombie)
      (h : s' = t.buried p q)

theorem outcome_waitRound {t : State} (ht : Quiet s t) (hp : (t.proc p).state = .running) :
    wp (waitRound p) (fun _ s' => Outcome s s') (fun _ _ => True) t :=
  wp_waitRound (fun q _ hz => .buried t p q ht hz rfl) (fun _ => .quiet ht)
    fun _ _ => .quiet (ht.trans (quiet_sleep hp))

theorem Step.outcome (h : Step s s') : Outcome s s' := by
  cases h with
  | @fork p m r hp hm =>
    exact (wp_of_ok hm).mp (wp_fork (Q := fun _ s' => Outcome s s') (E := fun _ _ => True) (.quiet .refl)
      (fun q hq => .refused q hq rfl) fun q hq => .created p q hp.1 hq rfl)
  | exit hp hm => exact .quiet ((wp_of_ok hm).mp (quiet_exit (by rw [hp.1]; decide)))
  | wait hp hm => exact (wp_of_ok hm).mp (outcome_waitRound .refl hp.1)
  | @rewait p r hp hpc hm =>
    have hw : wp (do Ptable.wake p; waitRound p) (fun _ s' => Outcome s s') (fun _ _ => True) s := by
      rw [wp_bind]
      unfold Ptable.wake
      rw [wp_modify]
      refine outcome_waitRound quiet_wake ?_
      simp [setPc, setProc, hp]
    exact (wp_of_ok hm).mp hw
  | kill hp hm => exact .quiet ((wp_of_ok hm).mp quiet_kill)
  | @trap p hp hm =>
    cases hm
    refine .quiet (Quiet.setProc (q := p) rfl rfl .rfl rfl rfl rfl rfl ⟨_, rfl⟩ fun _ => .inr (.inl ⟨?_, ?_⟩))
    · rw [hp.1]
      decide
    · exact .inl (mem_append_right _ (mem_singleton.mpr rfl))
  | sleep hp hm =>
    cases hm
    exact .quiet (quiet_sleep hp.1)
  | wake hp hpc hm =>
    cases hm
    exact .quiet quiet_wake
  | wakeup hm => exact .quiet ((wp_of_ok hm).mp quiet_wakeup1)
  | @schedule p hp hm =>
    cases hm
    exact .quiet (Quiet.setProc_same (q := p) rfl rfl rfl (both_used hp (by decide) (by simp)) rfl rfl
      rfl rfl ⟨[], (append_nil _).symm⟩)
  | @yield p hp hm =>
    cases hm
    exact .quiet (Quiet.setProc_same (q := p) rfl rfl rfl (both_used hp (by decide) (by simp)) rfl rfl
      rfl rfl ⟨[], (append_nil _).symm⟩)

end Quiet

/-! ## Ids -/

theorem int32_of_pos {n : ℤ} (h : 0 < n) (h' : n < 2 ^ 31) : int32 n = n := by
  exact Int.bmod_eq_of_le (by norm_num; omega) (by norm_num; omega)

theorem int32_succ (n : ℤ) : int32 (int32 n + 1) = int32 (n + 1) := by
  exact Int.bmod_add_bmod ..

/-- Every process in the table has the id that belongs to its number among all attempts to create one. -/
structure Numbered (s : State) : Prop where
  nextpid : s.nextpid = int32 (s.allocs + 1)
  number : ∃ num : Slot → ℕ,
    (∀ q, (s.proc q).state ≠ .unused → num q < s.allocs ∧ (s.proc q).pid = int32 (num q + 1)) ∧
    ∀ q r, (s.proc q).state ≠ .unused → (s.proc r).state ≠ .unused → num q = num r → q = r

section Ids

variable {s s' : State}

variable {q p : Slot}

theorem Numbered.quiet (h : Numbered s) (hq : Quiet s s') : Numbered s' := by
  obtain ⟨num, hnum, hinj⟩ := h.number
  have hlive : ∀ q, (s'.proc q).state ≠ .unused → (s.proc q).state ≠ .unused :=
    fun q hne hc => hne ((hq.unused q).mpr hc)
  refine ⟨by rw [hq.nextpid, hq.allocs]; exact h.nextpid, num, fun q hne => ?_, fun q r hq' hr => ?_⟩
  · rw [hq.allocs, hq.pid]
    exact hnum q (hlive q hne)
  · exact hinj q r (hlive q hq') (hlive r hr)

theorem live_of_update {x : Proc} {r : Slot} (hne : (s'.proc r).state ≠ .unused)
    (hproc : s'.proc = update s.proc q x) (hx : x.state = .unused) :
    (s.proc r).state ≠ .unused ∧ s'.proc r = s.proc r := by
  have hr : r ≠ q := by
    rintro rfl
    rw [hproc, update_self] at hne
    exact hne hx
  have hsame : s'.proc r = s.proc r := by rw [hproc, update_of_ne hr]
  exact ⟨hsame ▸ hne, hsame⟩

theorem Numbered.refused (h : Numbered s) (hq : (s.proc q).state = .unused) :
    Numbered (s.refused q) := by
  obtain ⟨num, hnum, hinj⟩ := h.number
  have hlive := fun r (hr : ((s.refused q).proc r).state ≠ .unused) => live_of_update hr rfl hq
  refine ⟨?_, num, fun r hne => ?_, fun r t hr ht => hinj r t (hlive r hr).1 (hlive t ht).1⟩
  · change int32 (s.nextpid + 1) = int32 ((s.allocs + 1 : ℕ) + 1)
    rw [h.nextpid, int32_succ]
    rfl
  · obtain ⟨hr, hsame⟩ := hlive r hne
    rw [hsame]
    exact ⟨Nat.lt_succ_of_lt (hnum r hr).1, (hnum r hr).2⟩

theorem Numbered.created (h : Numbered s) : Numbered (s.created p q) := by
  obtain ⟨num, hnum, hinj⟩ := h.number
  have hother : ∀ r, r ≠ q → (s.created p q).proc r = s.proc r := fun r hr => update_of_ne hr ..
  refine ⟨?_, update num q s.allocs, fun r hne => ?_, fun r t hr ht hrt => ?_⟩
  · change int32 (s.nextpid + 1) = int32 ((s.allocs + 1 : ℕ) + 1)
    rw [h.nextpid, int32_succ]
    push_cast
    rfl
  · by_cases hr : r = q
    · subst hr
      rw [update_self]
      refine ⟨Nat.lt_succ_self _, ?_⟩
      simp only [created, setProc, emit, update_self]
      exact h.nextpid
    · rw [hother r hr] at hne ⊢
      rw [update_of_ne hr]
      exact ⟨Nat.lt_succ_of_lt (hnum r hne).1, (hnum r hne).2⟩
  · by_cases hrq : r = q
    · by_cases htq : t = q
      · rw [hrq, htq]
      · rw [hother t htq] at ht
        rw [hrq, update_self, update_of_ne htq] at hrt
        exact absurd (hnum t ht).1 (by omega)
    · rw [hother r hrq] at hr
      rw [update_of_ne hrq] at hrt
      by_cases htq : t = q
      · rw [htq, update_self] at hrt
        exact absurd (hnum r hr).1 (by omega)
      · rw [hother t htq] at ht
        rw [update_of_ne htq] at hrt
        exact hinj r t hr ht hrt

theorem Numbered.buried (h : Numbered s) : Numbered (s.buried p q) := by
  obtain ⟨num, hnum, hinj⟩ := h.number
  have hlive := fun r (hr : ((s.buried p q).proc r).state ≠ .unused) => live_of_update hr rfl rfl
  refine ⟨h.nextpid, num, fun r hne => ?_, fun r t hr ht => hinj r t (hlive r hr).1 (hlive t ht).1⟩
  rw [(hlive r hne).2]
  exact hnum r (hlive r hne).1

theorem Reachable.numbered (h : Reachable s) : Numbered s := by
  induction h with
  | refl =>
    have hzero : ∀ q : Slot, (boot.proc q).state ≠ .unused → q = 0 :=
      fun q => not_imp_comm.mp (boot_unused q)
    refine ⟨by decide, fun _ => 0, fun q hq => ?_, fun q r hq hr _ => by rw [hzero q hq, hzero r hr]⟩
    rw [hzero q hq]
    exact ⟨Nat.one_pos, by decide⟩
  | tail _ hstep ih =>
    cases hstep.outcome with
    | quiet h => exact ih.quiet h
    | refused q hq h => exact h ▸ ih.refused hq
    | created p q hp hq h => exact h ▸ ih.created
    | buried t p q ht hq h => exact h ▸ (ih.quiet ht).buried

/-- Until `nextpid` has overflowed, ids are unique and positive, and `fork` returns a positive one. -/
theorem pids_unique_positive (h : Reachable s) (hallocs : s.allocs < 2 ^ 31) :
    (∀ q r, (s.proc q).state ≠ .unused → (s.proc r).state ≠ .unused →
      (s.proc q).pid = (s.proc r).pid → q = r) ∧
    (∀ q, (s.proc q).state ≠ .unused → 0 < (s.proc q).pid) ∧
    ∀ p m r s', fork p m s = .ok r s' → s'.forks = s.forks + 1 → s'.allocs < 2 ^ 31 → 0 < r := by
  obtain ⟨hnext, num, hnum, hinj⟩ := h.numbered
  have hpid : ∀ q, (s.proc q).state ≠ .unused → (s.proc q).pid = num q + 1 := by
    intro q hq
    rw [(hnum q hq).2, int32_of_pos (by omega)]
    have := (hnum q hq).1
    omega
  refine ⟨fun q r hq hr heq => hinj q r hq hr ?_, fun q hq => ?_, fun p m r s' hfork hnew hlt => ?_⟩
  · rw [hpid q hq, hpid r hr] at heq
    omega
  · rw [hpid q hq]
    omega
  · have hw : wp (fork p m) (fun r s' => s'.forks = s.forks + 1 → s'.allocs < 2 ^ 31 → 0 < r)
        (fun _ _ => True) s := by
      refine wp_fork (fun hc => ?_) (fun q _ hc => ?_) fun q _ _ hlt => ?_
      · exact absurd hc (by omega)
      · change s.forks = s.forks + 1 at hc
        omega
      · change s.allocs + 1 < 2 ^ 31 at hlt
        rw [hnext, int32_of_pos (by omega) (by omega)]
        omega
    exact (wp_of_ok hfork).mp hw hnew hlt

/-! ### Overflow -/

theorem exists_first {P : Proc → Bool} (hq : P (s.proc q) = true) :
    ∃ r, s.first P = some r ∧ P (s.proc r) = true := by
  cases hfirst : s.first P with
  | none => exact (first_none hfirst q hq).elim
  | some r => exact ⟨r, rfl, first_some hfirst⟩

theorem run_fork_noStack (hq : s.first (fun x => x.state = .unused) = some q) :
    fork p .noStack s = .ok (-1) (s.refused q) := by
  have hunused : (s.proc q).state = .unused := by simpa using first_some hq
  have hw : wp (fork p .noStack) (fun r s' => r = -1 ∧ s' = s.refused q) (fun _ _ => False) s := by
    unfold fork allocproc
    simp only [wp_bind, wp_get, hq, wp_set, wp_pure, setProc, update_self,
      update_idem, refused, hunused, and_self]
  obtain ⟨r, t, hrun, rfl, rfl⟩ := wp_exists_ok hw
  exact hrun

theorem run_fork_enough (hq : s.first (fun x => x.state = .unused) = some q) :
    fork p .enough s = .ok s.nextpid (s.created p q) := by
  have hw : wp (fork p .enough) (fun r s' => r = s.nextpid ∧ s' = s.created p q) (fun _ _ => False) s := by
    unfold fork allocproc
    simp only [wp_bind, wp_get, hq, wp_set, wp_pure, setProc, emit, update_self,
      update_idem, created, and_self]
  obtain ⟨r, t, hrun, rfl, rfl⟩ := wp_exists_ok hw
  exact hrun

theorem reachable_refusals (k : ℕ) : ∃ s, Reachable s ∧ s.Free 0 ∧ s.initproc = 0 ∧ s.allocs = k + 1 ∧
    (s.proc 0).killed = false ∧ ∀ q, q ≠ 0 → (s.proc q).state = .unused := by
  induction k with
  | zero =>
    refine ⟨_, .single (.schedule (p := 0) (by decide) rfl), ⟨rfl, rfl⟩, rfl, rfl, rfl, fun q hq => ?_⟩
    simp only [setProc, update_of_ne hq]
    exact boot_unused q hq
  | succ k ih =>
    obtain ⟨s, hs, hfree, hinit, hallocs, hkilled, hothers⟩ := ih
    obtain ⟨q, hq, hunused⟩ := exists_first (s := s) (P := fun x => x.state = .unused) (q := 1)
      (by simpa using hothers 1 (by decide))
    have hq0 : (0 : Slot) ≠ q := by
      rintro rfl
      rw [hfree.1] at hunused
      simp at hunused
    have hzero : (s.refused q).proc 0 = s.proc 0 := update_of_ne hq0 ..
    refine ⟨_, hs.tail (.fork hfree (run_fork_noStack hq)), ⟨by rw [hzero]; exact hfree.1, hfree.2⟩, hinit,
      by rw [← hallocs]; rfl, by rw [hzero]; exact hkilled, fun r hr => ?_⟩
    by_cases hrq : r = q
    · subst hrq
      simp only [refused, setProc, update_self]
      simpa using hunused
    · rw [show (s.refused q).proc r = s.proc r from update_of_ne hrq ..]
      exact hothers r hr

theorem reachable_child (k : ℕ) : ∃ s q, Reachable (s.created 0 q) ∧ q ≠ 0 ∧ s.initproc = 0 ∧ s.Free 0 ∧
    fork 0 .enough s = .ok s.nextpid (s.created 0 q) ∧ (s.proc 0).killed = false ∧
    (∀ r, r ≠ 0 → (s.proc r).state = .unused) ∧ s.allocs = k + 1 ∧ s.nextpid = int32 (k + 2) := by
  obtain ⟨s, hs, hfree, hinit, hallocs, hkilled, hothers⟩ := reachable_refusals k
  obtain ⟨q, hq, hunused⟩ := exists_first (s := s) (P := fun x => x.state = .unused) (q := 1)
    (by simpa using hothers 1 (by decide))
  have hq0 : q ≠ 0 := by
    rintro rfl
    rw [hfree.1] at hunused
    simp at hunused
  refine ⟨s, q, hs.tail (.fork hfree (run_fork_enough hq)), hq0, hinit, hfree, run_fork_enough hq, hkilled, hothers,
    hallocs, ?_⟩
  rw [hs.numbered.nextpid, hallocs]
  congr 1

end Ids

theorem pids_unique_positive_child : ∃ s q, Reachable s ∧ s.allocs < 2 ^ 31 ∧ (s.proc q).pid = 2 ∧
    (∀ q r, (s.proc q).state ≠ .unused → (s.proc r).state ≠ .unused →
      (s.proc q).pid = (s.proc r).pid → q = r) ∧
    (∀ q, (s.proc q).state ≠ .unused → 0 < (s.proc q).pid) ∧
    ∀ p m r s', fork p m s = .ok r s' → s'.forks = s.forks + 1 → s'.allocs < 2 ^ 31 → 0 < r := by
  obtain ⟨s, q, hs, -, -, -, -, -, -, hallocs, hnext⟩ := reachable_child 0
  have hlt : (s.created 0 q).allocs < 2 ^ 31 := by
    change s.allocs + 1 < 2 ^ 31
    omega
  refine ⟨_, q, hs, hlt, ?_, pids_unique_positive hs hlt⟩
  simp only [created, setProc, emit, update_self, hnext]
  decide

/-- After `2 ^ 31 - 2` failed forks, the next child gets a negative id. -/
theorem pid_overflow : ∃ s q, Reachable s ∧ (s.proc q).state ≠ .unused ∧ (s.proc q).pid < 0 := by
  obtain ⟨s, q, hs, -, -, -, -, -, -, -, hnext⟩ := reachable_child (2 ^ 31 - 2)
  refine ⟨_, q, hs, ?_, ?_⟩
  · simp [created, setProc, emit]
  · simp only [created, setProc, emit, update_self, hnext]
    decide

/-! ## Marks -/

/-- No `kill` has found a slot that was not in use. -/
def NoStray (tr : List Event) : Prop := ∀ pid, .stray pid ∉ tr

structure Marked (s : State) : Prop where
  unused : ∀ q, (s.proc q).state = .unused → (s.proc q).killed = false
  cause : ∀ q, (s.proc q).state ≠ .unused → (s.proc q).killed = true →
    .trapped (s.uid q) ∈ s.trace ∨ .killed (s.uid q) (s.proc q).pid ∈ s.trace

section Marks

variable {s s' : State} {p q : Slot}

section

variable (h : Marked s)
include h

theorem Marked.quiet (hq : Quiet s s') (hstray : NoStray s'.trace) : Marked s' := by
  constructor
  · intro q hu
    by_contra hk
    have hu' := (hq.unused q).mp hu
    rcases hq.killed q (by simpa using hk) with hk | ⟨hne, -⟩ | ⟨-, pid, hs⟩
    · rw [h.unused q hu'] at hk
      cases hk
    · exact hne hu'
    · exact hstray pid hs
  · intro q hne hk
    have hne' : (s.proc q).state ≠ .unused := fun hc => hne ((hq.unused q).mpr hc)
    rw [hq.uid, hq.pid]
    rcases hq.killed q hk with hk | ⟨-, hcause⟩ | ⟨hu, -⟩
    · exact (h.cause q hne' hk).imp hq.mem hq.mem
    · exact hcause
    · exact (hne' hu).elim

theorem Marked.setProc {x : Proc} (hproc : s'.proc = update s.proc q x)
    (hx : x.killed = false) (huid : ∀ r, r ≠ q → s'.uid r = s.uid r)
    (htrace : ∀ e ∈ s.trace, e ∈ s'.trace) : Marked s' := by
  constructor
  · intro r hu
    by_cases hr : r = q
    · rw [hr, hproc, update_self, hx]
    · rw [hproc, update_of_ne hr] at hu ⊢
      exact h.unused r hu
  · intro r hne hk
    by_cases hr : r = q
    · rw [hr, hproc, update_self, hx] at hk
      cases hk
    · rw [hproc, update_of_ne hr] at hne hk ⊢
      rw [huid r hr]
      exact (h.cause r hne hk).imp (htrace _) (htrace _)

theorem Marked.refused (hq : (s.proc q).state = .unused) : Marked (s.refused q) :=
  h.setProc rfl (h.unused q hq) (fun _ _ => rfl) fun _ => id

theorem Marked.created (hq : (s.proc q).state = .unused) : Marked (s.created p q) :=
  h.setProc rfl (h.unused q hq) (fun r hr => update_of_ne hr ..) fun _ => mem_append_left _

theorem Marked.buried : Marked (s.buried p q) :=
  h.setProc rfl rfl (fun _ _ => rfl) fun _ => mem_append_left _

end

theorem NoStray.of_append {tr l : List Event} (h : NoStray (tr ++ l)) : NoStray tr :=
  fun pid hs => h pid (mem_append_left l hs)

theorem Reachable.marked (h : Reachable s) (hstray : NoStray s.trace) : Marked s := by
  induction h with
  | refl => exact ⟨by decide, by decide⟩
  | tail _ hstep ih =>
    cases hstep.outcome with
    | quiet h =>
      obtain ⟨l, hl⟩ := h.trace
      rw [hl] at hstray
      exact (ih hstray.of_append).quiet h (by rwa [hl])
    | refused q hq h =>
      subst h
      exact (ih hstray).refused hq
    | created p q hp hq h =>
      subst h
      exact (ih hstray.of_append).created hq
    | buried t p q ht hq h =>
      subst h
      have hstray' : NoStray t.trace := NoStray.of_append hstray
      obtain ⟨l, hl⟩ := ht.trace
      rw [hl] at hstray'
      exact ((ih hstray'.of_append).quiet ht (by rwa [hl])).buried

end Marks

end Xv6.Ptable
