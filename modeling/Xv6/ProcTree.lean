import Xv6.ProcFamily

/-!
# The tree of processes

A child is younger than the process that forked it, and orphans go to `init`. So parents lead from every
process to `init`.
-/

namespace Xv6.Ptable

open Resumption Relation List State

variable {s s' : State} {p q : Slot}

/-- In the history every child is younger than the process that forked it. -/
def Aged (tr : List Event) : Prop := ∀ u w pid, .forked u w pid ∈ tr → w < u

theorem Aged.append {tr : List Event} {e : Event} (h : Aged tr)
    (he : ∀ u w pid, e = .forked u w pid → w < u) : Aged (tr ++ [e]) := by
  intro u w pid hmem
  rcases mem_append.mp hmem with hmem | hmem
  · exact h u w pid hmem
  · exact he u w pid (mem_singleton.mp hmem).symm

section

variable (h : Aged s.trace)
include h

theorem aged_waitRound : wp (waitRound p) (fun _ s' => Aged s'.trace) (fun _ _ => True) s :=
  wp_waitRound (fun _ _ _ => h.append (by simp)) (fun _ => h) fun _ _ => h

theorem aged_exit : wp (exit p) (fun _ s' => Aged s'.trace) (fun _ _ => True) s := by
  by_cases hp : p = s.initproc
  · unfold exit
    simp only [wp_bind, wp_get]
    rw [if_pos hp]
    trivial
  · refine wp_exit hp fun t ht => ?_
    have htrace : t.trace = s.trace := ht.rest.2.2.2.2
    exact (htrace ▸ h : Aged t.trace).append (by simp)

theorem aged_kill {pid : ℤ} : wp (kill pid) (fun _ s' => Aged s'.trace) (fun _ _ => True) s := by
  unfold kill
  simp only [wp_bind, wp_get]
  cases s.first fun x => x.pid = pid with
  | none => exact h
  | some q => exact h.append (by split_ifs <;> simp)

theorem Step.aged (hI : Inv s) (hstep : Step s s') : Aged s'.trace := by
  cases hstep with
  | @fork p m r hp hm =>
    refine wp_ok (wp_fork (Q := fun _ s' => Aged s'.trace) (E := fun _ _ => True) h (fun _ _ => h)
      fun q _ => h.append fun u w pid he => ?_) hm
    cases he
    exact hI.uidLt p (by rw [hp.1]; decide)
  | exit _ hm => exact wp_ok (aged_exit h) hm
  | wait _ hm => exact wp_ok (aged_waitRound h) hm
  | @rewait p _ _ _ hm =>
    have hw : wp (do Ptable.wake p; waitRound p) (fun _ s' => Aged s'.trace) (fun _ _ => True) s :=
      (wp_bind ..).mpr (aged_waitRound h : wp _ _ _ ((s.setProc p _).setPc p _))
    exact wp_ok hw hm
  | kill _ hm => exact wp_ok (aged_kill h) hm
  | trap _ hm =>
    cases hm
    exact h.append (by simp)
  | sleep _ hm | wake _ _ hm | wakeup hm | schedule _ hm | yield _ hm =>
    cases hm
    exact h

end

theorem Reachable.aged (h : Reachable s) : Aged s.trace := by
  induction h with
  | refl => simp [Aged, boot]
  | tail hr hstep ih => exact hstep.aged ih (Reachable.inv hr)

/-- Parents lead from every process to `init`. -/
theorem processes_form_tree (h : Reachable s) (hq : (s.proc q).state ≠ .unused) :
    ReflTransGen (fun a b => (s.proc a).parent = some b) q s.initproc := by
  have hI := h.inv
  -- on the way up every process but `init` is older than the one before
  induction hn : s.uid q using Nat.strong_induction_on generalizing q with
  | _ n ih =>
    by_cases hinit : q = s.initproc
    · rw [hinit]
    obtain ⟨r, hqr, hr⟩ := hI.parent q hinit hq
    obtain ⟨w, hw, hpar⟩ := hI.forked q hinit hq
    refine .head hqr ?_
    rcases hpar r hqr with rfl | rfl
    · exact ih _ (hn ▸ h.aged _ _ _ hw) hr.1 rfl
    · exact .refl

theorem processes_form_tree_child : ∃ (s : State) (q : Slot), q ≠ s.initproc ∧
    (s.proc q).state ≠ .unused ∧ ReflTransGen (fun a b => (s.proc a).parent = some b) q s.initproc := by
  obtain ⟨s, q, hreach, hq, hinit, -⟩ := reachable_child 0
  have hused : ((s.created 0 q).proc q).state ≠ .unused := by simp [created, setProc, emit]
  exact ⟨s.created 0 q, q, fun hc => hq (hc.trans hinit), hused, processes_form_tree hreach hused⟩

end Xv6.Ptable
