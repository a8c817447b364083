import Xv6.ProcIds

/-!
# Parents and children

What holds of the process table between two sections: every process has a parent that can still call
`wait`, nobody sleeps in `wait` next to a zombie child, and every child is reaped once, by its parent.
-/

namespace Xv6.Ptable

open Resumption Function List State Proc

/-! ## States -/

def ProcState.active : ProcState → Bool
  | .sleeping => true
  | .runnable => true
  | .running => true
  | _ => false

def Proc.Alive (x : Proc) : Prop := x.state ≠ .unused ∧ x.state ≠ .zombie

/-- The process sleeps in `wait`. -/
def State.Waiting (s : State) (q : Slot) : Prop := (s.proc q).state = .sleeping ∧ s.pc q = .wait

/-- What `reaped` says in a history: the child was forked by the caller, or the caller is `init`; it had
exited; nobody has reaped it before; and its pid is returned. -/
structure Reaping (tr : List Event) : Prop where
  after : ∀ before rest u v r, tr = before ++ .reaped u v r :: rest →
    .exited u ∈ before ∧ ∃ w, .forked u w r ∈ before ∧ (v = w ∨ v = 0)
  once : ∀ before rest u v r, tr = before ++ .reaped u v r :: rest → ∀ v' r', .reaped u v' r' ∉ before

structure Inv (s : State) : Prop where
  initAlive : (s.proc s.initproc).Alive
  initParent : (s.proc s.initproc).parent = none
  initUid : s.uid s.initproc = 0
  embryo : ∀ q, (s.proc q).state ≠ .embryo
  parent : ∀ q, q ≠ s.initproc → (s.proc q).state ≠ .unused →
    ∃ r, (s.proc q).parent = some r ∧ (s.proc r).Alive
  noSelf : ∀ q, (s.proc q).parent ≠ some q
  unused : ∀ q, (s.proc q).state = .unused → (s.proc q).parent = none
  wait : ∀ q, s.Waiting q → (s.proc q).chan = some (.proc q) ∧
    (∃ c, (s.proc c).parent = some q) ∧ ∀ c, (s.proc c).parent = some q → (s.proc c).state ≠ .zombie
  uidInj : ∀ q r, (s.proc q).state ≠ .unused → (s.proc r).state ≠ .unused → s.uid q = s.uid r → q = r
  uidLt : ∀ q, (s.proc q).state ≠ .unused → s.uid q < s.forks
  forked : ∀ q, q ≠ s.initproc → (s.proc q).state ≠ .unused →
    ∃ w, .forked (s.uid q) w (s.proc q).pid ∈ s.trace ∧
      ∀ r, (s.proc q).parent = some r → s.uid r = w ∨ r = s.initproc
  exited : ∀ q, (s.proc q).state = .zombie → .exited (s.uid q) ∈ s.trace
  fresh : ∀ q, (s.proc q).state ≠ .unused → ∀ v r, .reaped (s.uid q) v r ∉ s.trace
  below : ∀ u v r, .reaped u v r ∈ s.trace → u < s.forks
  history : Reaping s.trace

section History

variable {tr : List Event} {e : Event}

theorem Reaping.append (h : Reaping tr)
    (hnew : ∀ u v r, e = .reaped u v r → (.exited u ∈ tr ∧ ∃ w, .forked u w r ∈ tr ∧ (v = w ∨ v = 0)) ∧
      ∀ v' r', .reaped u v' r' ∉ tr) : Reaping (tr ++ [e]) := by
  have hsplit : ∀ before rest u v r, tr ++ [e] = before ++ .reaped u v r :: rest →
      (before = tr ∧ e = .reaped u v r) ∨ ∃ rest', tr = before ++ .reaped u v r :: rest' := by
    intro before rest u v r heq
    rcases eq_nil_or_concat rest with rfl | ⟨l, y, rfl⟩
    · obtain ⟨rfl, hlast⟩ := append_inj' heq rfl
      exact .inl ⟨rfl, singleton_inj.mp hlast⟩
    · rw [concat_eq_append, ← cons_append, ← append_assoc] at heq
      exact .inr ⟨l, (append_inj' heq rfl).1⟩
  constructor
  · intro before rest u v r heq
    rcases hsplit before rest u v r heq with ⟨rfl, he⟩ | ⟨rest', htr⟩
    · exact (hnew u v r he).1
    · exact h.after before rest' u v r htr
  · intro before rest u v r heq
    rcases hsplit before rest u v r heq with ⟨rfl, he⟩ | ⟨rest', htr⟩
    · exact (hnew u v r he).2
    · exact h.once before rest' u v r htr

end History

section Steps

variable {s s' : State} {p q : Slot}

/-! ## Steps that leave the family alone -/

structure Proc.Like (x y : Proc) : Prop where
  parent : y.parent = x.parent
  pid : x.state ≠ .unused → y.pid = x.pid
  state : y.state = x.state ∨ x.state.active = true ∧ y.state.active = true

variable {x y : Proc} {c : ProcState} {chan : Option Chan} {t : State} {rest : List Slot}
  {E : Stop → State → Prop}

theorem Proc.Like.state_iff (h : x.Like y) (hc : c.active = false) : y.state = c ↔ x.state = c := by
  rcases h.state with he | ⟨hx, hy⟩
  · rw [he]
  · refine iff_of_false ?_ ?_
    · rintro rfl
      rw [hc] at hy
      cases hy
    · rintro rfl
      rw [hc] at hx
      cases hx

theorem Proc.Like.rfl : x.Like x := ⟨.refl _, fun _ => .refl _, .inl (.refl _)⟩

theorem Proc.Like.alive (h : x.Like y) : y.Alive ↔ x.Alive := by
  unfold Proc.Alive
  rw [ne_eq, ne_eq, h.state_iff (c := .unused) (.refl _), h.state_iff (c := .zombie) (.refl _)]

theorem Inv.like (h : Inv s) (hlike : ∀ q, (s.proc q).Like (s'.proc q)) (hinit : s'.initproc = s.initproc)
    (huid : s'.uid = s.uid) (hforks : s'.forks = s.forks)
    (htrace : s'.trace = s.trace ∨
      ∃ e, s'.trace = s.trace ++ [e] ∧ ∀ u v r, e ≠ .reaped u v r)
    (hwait : ∀ q, s'.Waiting q → (s'.proc q).chan = some (.proc q) ∧
      (∃ c, (s.proc c).parent = some q) ∧ ∀ c, (s.proc c).parent = some q → (s.proc c).state ≠ .zombie) :
    Inv s' := by
  have hunused : ∀ q, (s'.proc q).state = .unused ↔ (s.proc q).state = .unused :=
    fun q => (hlike q).state_iff (.refl _)
  have hzombie : ∀ q, (s'.proc q).state = .zombie ↔ (s.proc q).state = .zombie :=
    fun q => (hlike q).state_iff (.refl _)
  have hmem : ∀ e, e ∈ s.trace → e ∈ s'.trace := by
    intro e he
    rcases htrace with ht | ⟨a, ht, -⟩
    · rwa [ht]
    · rw [ht]
      exact mem_append_left _ he
  have hreaped : ∀ u v r, .reaped u v r ∈ s'.trace → .reaped u v r ∈ s.trace := by
    intro u v r hr
    rcases htrace with ht | ⟨a, ht, ha⟩
    · rwa [ht] at hr
    · rw [ht, mem_append, mem_singleton] at hr
      exact hr.resolve_right fun hc => ha u v r hc.symm
  refine { initAlive := ?_, initParent := ?_, initUid := ?_, embryo := ?_, parent := ?_, noSelf := ?_
           unused := ?_, wait := ?_, uidInj := ?_, uidLt := ?_, forked := ?_, exited := ?_, fresh := ?_
           below := ?_, history := ?_ }
  · rw [hinit, (hlike _).alive]
    exact h.initAlive
  · rw [hinit, (hlike _).parent]
    exact h.initParent
  · rw [hinit, huid]
    exact h.initUid
  · intro q
    rw [ne_eq, (hlike q).state_iff (c := .embryo) (.refl _)]
    exact h.embryo q
  · intro q hq hne
    rw [hinit] at hq
    rw [ne_eq, hunused] at hne
    obtain ⟨r, hr, halive⟩ := h.parent q hq hne
    exact ⟨r, by rw [(hlike q).parent, hr], (hlike r).alive.mpr halive⟩
  · intro q
    rw [(hlike q).parent]
    exact h.noSelf q
  · intro q hq
    rw [(hlike q).parent]
    exact h.unused q ((hunused q).mp hq)
  · intro q hq
    obtain ⟨hchan, ⟨c, hc⟩, hall⟩ := hwait q hq
    refine ⟨hchan, ⟨c, by rw [(hlike c).parent, hc]⟩, fun c hc => ?_⟩
    rw [(hlike c).parent] at hc
    rw [ne_eq, hzombie]
    exact hall c hc
  · intro q r hq hr huq
    rw [ne_eq, hunused] at hq hr
    rw [huid] at huq
    exact h.uidInj q r hq hr huq
  · intro q hq
    rw [ne_eq, hunused] at hq
    rw [huid, hforks]
    exact h.uidLt q hq
  · intro q hq hne
    rw [hinit] at hq
    rw [ne_eq, hunused] at hne
    obtain ⟨w, hw, hpar⟩ := h.forked q hq hne
    rw [huid, (hlike q).pid hne, (hlike q).parent, hinit]
    exact ⟨w, hmem _ hw, hpar⟩
  · intro q hq
    rw [huid]
    exact hmem _ (h.exited q ((hzombie q).mp hq))
  · intro q hq v r hr
    rw [ne_eq, hunused] at hq
    rw [huid] at hr
    exact h.fresh q hq v r (hreaped _ _ _ hr)
  · intro u v r hr
    rw [hforks]
    exact h.below u v r (hreaped u v r hr)
  · rcases htrace with ht | ⟨e, ht, he⟩
    · rw [ht]
      exact h.history
    · rw [ht]
      exact h.history.append fun u v r hr => (he u v r hr).elim

theorem Inv.like_setProc (h : Inv s) (hproc : s'.proc = update s.proc q x)
    (hlike : (s.proc q).Like x) (hinit : s'.initproc = s.initproc)
    (huid : s'.uid = s.uid) (hforks : s'.forks = s.forks)
    (htrace : s'.trace = s.trace ∨ ∃ e, s'.trace = s.trace ++ [e] ∧ ∀ u v r, e ≠ .reaped u v r)
    (hpc : ∀ r, r ≠ q → s'.pc r = s.pc r)
    (hwait : s'.Waiting q → x.chan = some (.proc q) ∧
      (∃ c, (s.proc c).parent = some q) ∧ ∀ c, (s.proc c).parent = some q → (s.proc c).state ≠ .zombie) :
    Inv s' := by
  have hself : s'.proc q = x := by rw [hproc, update_self]
  have hother : ∀ r, r ≠ q → s'.proc r = s.proc r := fun r hr => by
    rw [hproc, update_of_ne hr]
  refine h.like ?_ hinit huid hforks htrace ?_
  · intro r
    by_cases hr : r = q
    · rw [hr, hself]
      exact hlike
    · rw [hother r hr]
      exact .rfl
  · intro r hw
    by_cases hr : r = q
    · subst hr
      rw [hself]
      exact hwait hw
    · unfold State.Waiting at hw
      rw [hother r hr, hpc r hr] at hw
      rw [hother r hr]
      exact h.wait r hw

theorem Proc.woken_like (x : Proc) (chan : Option Chan) : x.Like (x.woken chan) := by
  unfold woken
  split
  · rename_i hs
    exact ⟨rfl, fun _ => rfl, .inr ⟨by rw [hs.1]; rfl, rfl⟩⟩
  · exact .rfl

theorem Proc.woken_sleeping (h : (x.woken chan).state = .sleeping) :
    x.woken chan = x ∧ x.chan ≠ chan := by
  unfold woken at h ⊢
  split at h
  · cases h
  · rename_i hs
    rw [if_neg hs]
    exact ⟨rfl, fun hc => hs ⟨h, hc⟩⟩

theorem Proc.woken_chan (x : Proc) (chan : Option Chan) : (x.woken chan).chan = x.chan := by
  unfold woken
  split <;> rfl

theorem Proc.woken_state (chan : Option Chan)
    (h : x.state = c ∨ c = .sleeping ∧ x.state = .runnable) :
    (x.woken chan).state = c ∨ c = .sleeping ∧ (x.woken chan).state = .runnable := by
  unfold woken
  split
  · rename_i hs
    rcases h with h | ⟨-, h⟩
    · exact .inr ⟨h.symm.trans hs.1, rfl⟩
    · rw [hs.1] at h
      cases h
  · exact h

theorem wp_wakeup1 (h : Inv s) : wp (wakeup1 chan) (fun _ s' => Inv s') (fun _ _ => True) s := by
  unfold wakeup1
  rw [wp_modify]
  refine h.like (fun q => (s.proc q).woken_like chan) rfl rfl rfl (.inl rfl) ?_
  rintro q ⟨hsl, hpc⟩
  obtain ⟨hsame, -⟩ := woken_sleeping hsl
  have hw : s.Waiting q := ⟨by rw [← hsame]; exact hsl, hpc⟩
  change ((s.proc q).woken chan).chan = _ ∧ _
  rw [hsame]
  exact h.wait q hw

theorem active_like (hx : x.state.active = true) (hy : y.state.active = true)
    (hparent : y.parent = x.parent) (hpid : y.pid = x.pid) : x.Like y := ⟨hparent, fun _ => hpid, .inr ⟨hx, hy⟩⟩

section

variable (h : Inv s)
include h

theorem Inv.schedule (hp : (s.proc p).state = .runnable) :
    Inv (s.setProc p { s.proc p with state := .running }) := by
  refine h.like_setProc (q := p) rfl (active_like (by rw [hp]; rfl) rfl rfl rfl) rfl rfl rfl (.inl rfl)
    (fun _ _ => rfl) ?_
  rintro ⟨hsl, -⟩
  simp [setProc] at hsl

section

variable (hp : (s.proc p).state = .running)
include hp

theorem Inv.yield : Inv (s.setProc p { s.proc p with state := .runnable }) := by
  refine h.like_setProc (q := p) rfl (active_like (by rw [hp]; rfl) rfl rfl rfl) rfl rfl rfl (.inl rfl)
    (fun _ _ => rfl) ?_
  rintro ⟨hsl, -⟩
  simp [setProc] at hsl

theorem Inv.trap :
    Inv ((s.setProc p { s.proc p with killed := true }).emit (.trapped (s.uid p))) := by
  refine h.like_setProc (q := p) rfl ⟨rfl, fun _ => rfl, .inl rfl⟩ rfl rfl rfl
    (.inr ⟨_, rfl, nofun⟩) (fun _ _ => rfl) ?_
  rintro ⟨hsl, -⟩
  simp [setProc, emit, hp] at hsl

theorem Inv.sleep {chan : Chan} {pc : Pc}
    (hpc : pc = .wait → chan = .proc p ∧ (∃ c, (s.proc c).parent = some p) ∧
      ∀ c, (s.proc c).parent = some p → (s.proc c).state ≠ .zombie) :
    Inv ((s.setProc p { s.proc p with chan := some chan, state := .sleeping }).setPc p pc) := by
  refine h.like_setProc (q := p) rfl (active_like (by rw [hp]; rfl) rfl rfl rfl) rfl rfl rfl (.inl rfl)
    (fun r hr => update_of_ne hr ..) ?_
  rintro ⟨-, hw⟩
  simp only [setPc, update_self] at hw
  obtain ⟨hchan, hkids⟩ := hpc hw
  exact ⟨by rw [hchan], hkids⟩

theorem Inv.wake : Inv ((s.setProc p { s.proc p with chan := none }).setPc p .elsewhere) := by
  refine h.like_setProc (q := p) rfl ⟨rfl, fun _ => rfl, .inl rfl⟩ rfl rfl rfl (.inl rfl)
    (fun r hr => update_of_ne hr ..) ?_
  rintro ⟨-, hw⟩
  simp [setPc] at hw

end

theorem wp_kill {pid : ℤ} : wp (kill pid) (fun _ s' => Inv s') (fun _ _ => True) s := by
  unfold kill
  simp only [wp_bind, wp_get]
  cases s.first fun x => x.pid = pid with
  | none => exact h
  | some q =>
    simp only [wp_bind, wp_set, wp_pure]
    refine h.like_setProc (q := q) rfl ?_ rfl rfl rfl (.inr ⟨_, rfl, ?_⟩) (fun _ _ => rfl) ?_
    · refine ⟨rfl, fun _ => rfl, ?_⟩
      by_cases hs : (s.proc q).state = .sleeping
      · exact .inr ⟨by rw [hs]; rfl, by rw [if_pos hs]; rfl⟩
      · exact .inl (if_neg hs)
    · intro u v r
      split
      · simp
      · simp
    · rintro ⟨hsl, -⟩
      simp only [setProc, emit, update_self] at hsl
      split at hsl
      · cases hsl
      · rename_i hs
        exact (hs hsl).elim

/-! ## Births and deaths -/

theorem Inv.parent_alive {r t : Slot} (hrt : (s.proc r).parent = some t)
    (hr : (s.proc r).state ≠ .unused) : (s.proc t).Alive := by
  have hri : r ≠ s.initproc := by
    rintro rfl
    rw [h.initParent] at hrt
    cases hrt
  obtain ⟨t', ht', halive⟩ := h.parent r hri hr
  rw [hrt] at ht'
  cases ht'
  exact halive

theorem Inv.refused (hq : (s.proc q).state = .unused) : Inv (s.refused q) := by
  refine h.like_setProc (q := q) rfl ⟨rfl, fun hne => (hne hq).elim, .inl rfl⟩ rfl rfl rfl (.inl rfl)
    (fun _ _ => rfl) ?_
  rintro ⟨hsl, -⟩
  simp [State.refused, State.setProc, hq] at hsl

theorem Inv.created (hp : (s.proc p).state = .running) (hq : (s.proc q).state = .unused) :
    Inv (s.created p q) := by
  have hpq : p ≠ q := by
    rintro rfl
    rw [hq] at hp
    cases hp
  have hiq : s.initproc ≠ q := fun hc => h.initAlive.1 (by rw [hc]; exact hq)
  have hself : (s.created p q).proc q =
      { s.proc q with pid := s.nextpid, parent := some p, state := .runnable } := update_self ..
  have hother : ∀ r, r ≠ q → (s.created p q).proc r = s.proc r := fun r hr => update_of_ne hr ..
  have huself : (s.created p q).uid q = s.forks := update_self ..
  have huother : ∀ r, r ≠ q → (s.created p q).uid r = s.uid r := fun r hr => update_of_ne hr ..
  have htrace : (s.created p q).trace = s.trace ++ [.forked s.forks (s.uid p) s.nextpid] := rfl
  have hmem : ∀ e, e ∈ s.trace → e ∈ (s.created p q).trace := fun e he => mem_append_left _ he
  have hreaped : ∀ u v r, .reaped u v r ∈ (s.created p q).trace → .reaped u v r ∈ s.trace := by
    intro u v r hr
    rw [htrace, mem_append, mem_singleton] at hr
    exact hr.resolve_right nofun
  -- no process has the free slot as its parent
  have hnot : ∀ r t, (s.proc r).parent = some t → (s.proc r).state ≠ .unused → t ≠ q := by
    rintro r t hrt hr rfl
    exact (h.parent_alive hrt hr).1 hq
  refine { initAlive := ?_, initParent := ?_, initUid := ?_, embryo := ?_, parent := ?_, noSelf := ?_
           unused := ?_, wait := ?_, uidInj := ?_, uidLt := ?_, forked := ?_, exited := ?_, fresh := ?_
           below := ?_, history := ?_ }
  · change ((s.created p q).proc s.initproc).Alive
    rw [hother _ hiq]
    exact h.initAlive
  · change ((s.created p q).proc s.initproc).parent = none
    rw [hother _ hiq]
    exact h.initParent
  · change (s.created p q).uid s.initproc = 0
    rw [huother _ hiq]
    exact h.initUid
  · intro r
    by_cases hr : r = q
    · rw [hr, hself]
      nofun
    · rw [hother r hr]
      exact h.embryo r
  · intro r hri hru
    by_cases hr : r = q
    · rw [hr, hself]
      refine ⟨p, rfl, ?_⟩
      rw [hother p hpq]
      exact ⟨by rw [hp]; decide, by rw [hp]; decide⟩
    · rw [hother r hr] at hru ⊢
      obtain ⟨t, ht, halive⟩ := h.parent r hri hru
      exact ⟨t, ht, by rwa [hother t (hnot r t ht hru)]⟩
  · intro r
    by_cases hr : r = q
    · rw [hr, hself]
      exact fun hc => hpq (Option.some.inj hc)
    · rw [hother r hr]
      exact h.noSelf r
  · intro r hru
    by_cases hr : r = q
    · rw [hr, hself] at hru
      cases hru
    · rw [hother r hr] at hru ⊢
      exact h.unused r hru
  · rintro r ⟨hsl, hpc⟩
    have hr : r ≠ q := by
      rintro rfl
      rw [hself] at hsl
      cases hsl
    have hrp : r ≠ p := by
      rintro rfl
      rw [hother r hr, hp] at hsl
      cases hsl
    have hw : s.Waiting r := by
      refine ⟨by rw [← hother r hr]; exact hsl, ?_⟩
      rw [← show (s.created p q).pc r = s.pc r from update_of_ne hr ..]
      exact hpc
    obtain ⟨hchan, ⟨c, hc⟩, hall⟩ := h.wait r hw
    have hcq : c ≠ q := by
      rintro rfl
      rw [h.unused c hq] at hc
      cases hc
    refine ⟨by rw [hother r hr]; exact hchan, ⟨c, by rw [hother c hcq]; exact hc⟩, fun c' hc' => ?_⟩
    by_cases hcq' : c' = q
    · rw [hcq', hself] at hc'
      exact (hrp (Option.some.inj hc').symm).elim
    · rw [hother c' hcq'] at hc' ⊢
      exact hall c' hc'
  · intro r t hr ht hu
    by_cases hrq : r = q
    · by_cases htq : t = q
      · rw [hrq, htq]
      · rw [hrq, huself, huother t htq] at hu
        rw [hother t htq] at ht
        exact absurd (h.uidLt t ht) (by omega)
    · rw [hother r hrq] at hr
      rw [huother r hrq] at hu
      by_cases htq : t = q
      · rw [htq, huself] at hu
        exact absurd (h.uidLt r hr) (by omega)
      · rw [hother t htq] at ht
        rw [huother t htq] at hu
        exact h.uidInj r t hr ht hu
  · intro r hr
    change (s.created p q).uid r < s.forks + 1
    by_cases hrq : r = q
    · rw [hrq, huself]
      omega
    · rw [hother r hrq] at hr
      rw [huother r hrq]
      have := h.uidLt r hr
      omega
  · intro r hri hru
    by_cases hr : r = q
    · rw [hr, hself, huself, htrace]
      refine ⟨s.uid p, mem_append_right _ (mem_singleton.mpr rfl), fun t ht => ?_⟩
      cases ht
      exact .inl (huother p hpq)
    · rw [hother r hr] at hru ⊢
      rw [huother r hr]
      obtain ⟨w, hw, hpar⟩ := h.forked r hri hru
      refine ⟨w, hmem _ hw, fun t ht => ?_⟩
      rw [huother t (hnot r t ht hru)]
      exact hpar t ht
  · intro r hz
    by_cases hr : r = q
    · rw [hr, hself] at hz
      cases hz
    · rw [hother r hr] at hz
      rw [huother r hr]
      exact hmem _ (h.exited r hz)
  · intro r hru v t ht
    have hlt := h.below _ v t (hreaped _ _ _ ht)
    by_cases hr : r = q
    · rw [hr, huself] at hlt
      omega
    · rw [hother r hr] at hru
      rw [huother r hr] at ht
      exact h.fresh r hru v t (hreaped _ _ _ ht)
  · intro u v r hr
    have := h.below u v r (hreaped u v r hr)
    change u < s.forks + 1
    omega
  · exact h.history.append nofun

theorem Inv.buried (hp : (s.proc p).state = .running) (hpar : (s.proc q).parent = some p)
    (hz : (s.proc q).state = .zombie) : Inv (s.buried p q) := by
  have hpq : p ≠ q := by
    rintro rfl
    rw [hz] at hp
    cases hp
  have hiq : s.initproc ≠ q := fun hc => h.initAlive.2 (by rw [hc]; exact hz)
  have hqu : (s.proc q).state ≠ .unused := by rw [hz]; decide
  have hself : (s.buried p q).proc q =
      { s.proc q with pid := 0, parent := none, killed := false, state := .unused } :=
    update_self ..
  have hother : ∀ r, r ≠ q → (s.buried p q).proc r = s.proc r := fun r hr => update_of_ne hr ..
  have htrace : (s.buried p q).trace = s.trace ++ [.reaped (s.uid q) (s.uid p) (s.proc q).pid] := rfl
  have hmem : ∀ e, e ∈ s.trace → e ∈ (s.buried p q).trace := fun e he => mem_append_left _ he
  have hlive : ∀ r, ((s.buried p q).proc r).state ≠ .unused → r ≠ q ∧ (s.proc r).state ≠ .unused := by
    intro r hr
    have hrq : r ≠ q := by
      rintro rfl
      rw [hself] at hr
      exact hr rfl
    rw [hother r hrq] at hr
    exact ⟨hrq, hr⟩
  -- a zombie has no children
  have hnot : ∀ r t, (s.proc r).parent = some t → (s.proc r).state ≠ .unused → t ≠ q := by
    rintro r t hrt hr rfl
    exact (h.parent_alive hrt hr).2 hz
  refine { initAlive := ?_, initParent := ?_, initUid := h.initUid, embryo := ?_, parent := ?_
           noSelf := ?_, unused := ?_, wait := ?_, uidInj := ?_, uidLt := ?_, forked := ?_
           exited := ?_, fresh := ?_, below := ?_, history := ?_ }
  · change ((s.buried p q).proc s.initproc).Alive
    rw [hother _ hiq]
    exact h.initAlive
  · change ((s.buried p q).proc s.initproc).parent = none
    rw [hother _ hiq]
    exact h.initParent
  · intro r
    by_cases hr : r = q
    · rw [hr, hself]
      nofun
    · rw [hother r hr]
      exact h.embryo r
  · intro r hri hru
    obtain ⟨hr, hru⟩ := hlive r hru
    obtain ⟨t, ht, halive⟩ := h.parent r hri hru
    rw [hother r hr]
    exact ⟨t, ht, by rwa [hother t (hnot r t ht hru)]⟩
  · intro r
    by_cases hr : r = q
    · rw [hr, hself]
      nofun
    · rw [hother r hr]
      exact h.noSelf r
  · intro r hru
    by_cases hr : r = q
    · rw [hr, hself]
    · rw [hother r hr] at hru ⊢
      exact h.unused r hru
  · rintro r ⟨hsl, hpc⟩
    have hr : r ≠ q := (hlive r (by rw [hsl]; decide)).1
    have hrp : r ≠ p := by
      rintro rfl
      rw [hother r hr, hp] at hsl
      cases hsl
    rw [hother r hr] at hsl ⊢
    obtain ⟨hchan, ⟨c, hc⟩, hall⟩ := h.wait r ⟨hsl, hpc⟩
    have hcq : c ≠ q := by
      rintro rfl
      rw [hpar] at hc
      exact hrp (Option.some.inj hc).symm
    refine ⟨hchan, ⟨c, by rw [hother c hcq]; exact hc⟩, fun c' hc' => ?_⟩
    by_cases hcq' : c' = q
    · rw [hcq', hself]
      nofun
    · rw [hother c' hcq'] at hc' ⊢
      exact hall c' hc'
  · intro r t hr ht hu
    exact h.uidInj r t (hlive r hr).2 (hlive t ht).2 hu
  · intro r hr
    exact h.uidLt r (hlive r hr).2
  · intro r hri hru
    obtain ⟨hr, hru⟩ := hlive r hru
    rw [hother r hr]
    obtain ⟨w, hw, hpar⟩ := h.forked r hri hru
    exact ⟨w, hmem _ hw, hpar⟩
  · intro r hz'
    have hr : r ≠ q := (hlive r (by rw [hz']; decide)).1
    rw [hother r hr] at hz'
    exact hmem _ (h.exited r hz')
  · intro r hru v t ht
    obtain ⟨hr, hru⟩ := hlive r hru
    rw [htrace, mem_append, mem_singleton] at ht
    rcases ht with ht | ht
    · exact h.fresh r hru v t ht
    · injection ht with hu
      exact hr (h.uidInj r q hru hqu hu)
  · intro u v r hr
    rw [htrace, mem_append, mem_singleton] at hr
    rcases hr with hr | hr
    · exact h.below u v r hr
    · injection hr with hu
      rw [hu]
      exact h.uidLt q hqu
  · refine h.history.append fun u v r he => ?_
    injection he with hu hv hr
    subst hu hv hr
    obtain ⟨w, hw, hp⟩ := h.forked q hiq.symm hqu
    refine ⟨⟨h.exited q hz, w, hw, ?_⟩, h.fresh q hqu⟩
    rcases hp p hpar with he | he
    · exact .inl he
    · right
      rw [he]
      exact h.initUid

end

/-- What the loop in `exit` has done to the table of `s` while the slots in `rest` are still to come. -/
structure Passed (p : Slot) (s : State) (rest : List Slot) (t : State) : Prop where
  parent : ∀ q, (t.proc q).parent = (s.proc q).parent ∨
    (s.proc q).parent = some p ∧ (t.proc q).parent = some s.initproc
  done : ∀ q, q ∉ rest → (t.proc q).parent ≠ some p
  pid : ∀ q, (t.proc q).pid = (s.proc q).pid
  killed : ∀ q, (t.proc q).killed = (s.proc q).killed
  chan : ∀ q, (t.proc q).chan = (s.proc q).chan
  state : ∀ q, (t.proc q).state = (s.proc q).state ∨
    (s.proc q).state = .sleeping ∧ (t.proc q).state = .runnable
  told : ∀ z, (s.proc z).parent = some p → (s.proc z).state = .zombie → (t.proc z).parent ≠ some p →
    ∀ q, (t.proc q).state = .sleeping → (t.proc q).chan ≠ some (.proc s.initproc)
  rest : t.initproc = s.initproc ∧ t.pc = s.pc ∧ t.uid = s.uid ∧ t.forks = s.forks ∧ t.trace = s.trace

theorem Passed.init : Passed p s (List.finRange NPROC) s where
  parent _ := .inl rfl
  done q hq := (hq (mem_finRange q)).elim
  pid _ := rfl
  killed _ := rfl
  chan _ := rfl
  state _ := .inl rfl
  told _ hz _ hne := (hne hz).elim
  rest := ⟨rfl, rfl, rfl, rfl, rfl⟩

theorem wp_passChild (hp : p ≠ s.initproc)
    (h : Passed p s (q :: rest) t) : wp (passChild p q) (fun _ t' => Passed p s rest t') E t := by
  unfold passChild
  simp only [wp_bind, wp_get]
  rw [wp_ite]
  refine ⟨fun hpar => ?_, fun hpar => ?_⟩
  · -- the child of `p` in slot `q` becomes a child of `init`
    have horig : (s.proc q).parent = some p := by
      rcases h.parent q with he | ⟨he, -⟩
      · rw [← he, hpar]
      · exact he
    have hself : (t.setProc q { t.proc q with parent := some t.initproc }).proc q =
        { t.proc q with parent := some t.initproc } := update_self ..
    have hother : ∀ r, r ≠ q →
        (t.setProc q { t.proc q with parent := some t.initproc }).proc r = t.proc r :=
      fun r hr => update_of_ne hr ..
    have hinit := h.rest.1
    obtain ⟨u, hu⟩ : ∃ u, u = t.setProc q { t.proc q with parent := some t.initproc } := ⟨_, rfl⟩
    rw [← hu] at hself hother
    have hrest : u.initproc = s.initproc ∧ u.pc = s.pc ∧ u.uid = s.uid ∧ u.forks = s.forks ∧
        u.trace = s.trace := by
      rw [hu]
      exact h.rest
    have hparent : ∀ r, (u.proc r).parent = (s.proc r).parent ∨
        (s.proc r).parent = some p ∧ (u.proc r).parent = some s.initproc := by
      intro r
      by_cases hr : r = q
      · rw [hr, hself]
        exact .inr ⟨horig, by rw [hinit]⟩
      · rw [hother r hr]
        exact h.parent r
    have hdone : ∀ r, r ∉ rest → (u.proc r).parent ≠ some p := by
      intro r hr
      by_cases hrq : r = q
      · rw [hrq, hself]
        exact fun hc => hp (by rw [← hinit]; exact (Option.some.inj hc).symm)
      · rw [hother r hrq]
        exact h.done r (by simp [hrq, hr])
    have hsame : ∀ r, (u.proc r).pid = (t.proc r).pid ∧ (u.proc r).chan = (t.proc r).chan ∧
        (u.proc r).state = (t.proc r).state ∧ (u.proc r).killed = (t.proc r).killed := by
      intro r
      by_cases hr : r = q
      · rw [hr, hself]
        exact ⟨rfl, rfl, rfl, rfl⟩
      · rw [hother r hr]
        exact ⟨rfl, rfl, rfl, rfl⟩
    rw [wp_bind, wp_set, ← hu, wp_ite]
    refine ⟨fun _ => ?_, fun hz => ?_⟩
    · unfold wakeup1
      rw [wp_modify, hinit]
      have hlike := fun r => (u.proc r).woken_like (some (.proc s.initproc))
      refine ⟨fun r => ?_, fun r hr => ?_, fun r => ?_, fun r => ?_, fun r => ?_, fun r => ?_, ?_, hrest⟩
      · change ((u.proc r).woken _).parent = _ ∨ _ ∧ ((u.proc r).woken _).parent = _
        rw [(hlike r).parent]
        exact hparent r
      · change ((u.proc r).woken _).parent ≠ _
        rw [(hlike r).parent]
        exact hdone r hr
      · rw [← h.pid r, ← (hsame r).1]
        exact (woken_quiet _ _).1
      · rw [← h.killed r, ← (hsame r).2.2.2]
        exact (woken_quiet _ _).2.1
      · rw [← h.chan r, ← (hsame r).2.1]
        exact woken_chan ..
      · have hst := h.state r
        rw [← (hsame r).2.2.1] at hst
        exact woken_state _ hst
      · intro z _ _ _ r hsl hc
        obtain ⟨he, hne⟩ := woken_sleeping hsl
        refine hne ?_
        rw [← he]
        exact hc
    · rw [wp_pure]
      refine ⟨hparent, hdone, fun r => (hsame r).1.trans (h.pid r),
        fun r => (hsame r).2.2.2.trans (h.killed r), fun r => (hsame r).2.1.trans (h.chan r),
        fun r => ?_, ?_, hrest⟩
      · rw [(hsame r).2.2.1]
        exact h.state r
      · intro z hz₁ hz₂ hne r hsl
        rw [(hsame r).2.2.1] at hsl
        rw [(hsame r).2.1]
        by_cases hzq : z = q
        · subst hzq
          refine (hz ?_).elim
          rcases h.state z with he | ⟨he, -⟩
          · rw [he, hz₂]
          · rw [hz₂] at he
            cases he
        · rw [hother z hzq] at hne
          exact h.told z hz₁ hz₂ hne r hsl
  · rw [wp_pure]
    refine { h with done := fun r hr => ?_ }
    by_cases hrq : r = q
    · rw [hrq]
      exact hpar
    · exact h.done r (by simp [hrq, hr])

theorem Passed.state_iff (h : Passed p s rest t) (r : Slot)
    (hc : c.active = false) : (t.proc r).state = c ↔ (s.proc r).state = c := by
  rcases h.state r with he | ⟨he, he'⟩
  · rw [he]
  · rw [he, he']
    constructor <;> rintro rfl <;> cases hc

theorem Inv.exited_of_passed (h : Inv s) (hp : (s.proc p).state = .running)
    (hpi : p ≠ s.initproc)
    (hwoken : ∀ q, (s.proc q).state = .sleeping → (s.proc q).chan ≠ (s.proc p).parent.map Chan.proc)
    (ht : Passed p s [] t) :
    Inv ((t.setProc p { t.proc p with state := .zombie }).emit (.exited (t.uid p))) := by
  obtain ⟨hinit, hpc, huid, hforks, htrace⟩ := ht.rest
  obtain ⟨u, hu⟩ : ∃ u, u = (t.setProc p { t.proc p with state := .zombie }).emit (.exited (t.uid p)) :=
    ⟨_, rfl⟩
  rw [← hu]
  have hself : u.proc p = { t.proc p with state := .zombie } := by
    rw [hu]
    exact update_self ..
  have hother : ∀ r, r ≠ p → u.proc r = t.proc r := by
    rw [hu]
    exact fun r hr => update_of_ne hr ..
  have hutrace : u.trace = s.trace ++ [.exited (s.uid p)] := by
    rw [hu, ← htrace, ← huid]
    rfl
  have huinit : u.initproc = s.initproc := by rw [hu]; exact hinit
  have huuid : u.uid = s.uid := by rw [hu]; exact huid
  have huforks : u.forks = s.forks := by rw [hu]; exact hforks
  have hupc : u.pc = s.pc := by rw [hu]; exact hpc
  have hmem : ∀ e, e ∈ s.trace → e ∈ u.trace := fun e he => by
    rw [hutrace]
    exact mem_append_left _ he
  have hreaped : ∀ a v r, .reaped a v r ∈ u.trace → .reaped a v r ∈ s.trace := by
    intro a v r hr
    rw [hutrace, mem_append, mem_singleton] at hr
    exact hr.resolve_right nofun
  have hupar : ∀ r, (u.proc r).parent = (t.proc r).parent := by
    intro r
    by_cases hr : r = p
    · rw [hr, hself]
    · rw [hother r hr]
  have hupid : ∀ r, (u.proc r).pid = (s.proc r).pid := by
    intro r
    rw [← ht.pid r]
    by_cases hr : r = p
    · rw [hr, hself]
    · rw [hother r hr]
  have hunused : ∀ r, (u.proc r).state = .unused ↔ (s.proc r).state = .unused := by
    intro r
    by_cases hr : r = p
    · rw [hr, hself, hp]
      exact iff_of_false nofun nofun
    · rw [hother r hr, ht.state_iff r rfl]
  have hzombie : ∀ r, r ≠ p → ((u.proc r).state = .zombie ↔ (s.proc r).state = .zombie) := by
    intro r hr
    rw [hother r hr, ht.state_iff r rfl]
  have halive : ∀ r, r ≠ p → (s.proc r).Alive → (u.proc r).Alive := by
    intro r hr hal
    exact ⟨fun hc => hal.1 ((hunused r).mp hc), fun hc => hal.2 ((hzombie r hr).mp hc)⟩
  refine { initAlive := ?_, initParent := ?_, initUid := ?_, embryo := ?_, parent := ?_, noSelf := ?_
           unused := ?_, wait := ?_, uidInj := ?_, uidLt := ?_, forked := ?_, exited := ?_, fresh := ?_
           below := ?_, history := ?_ }
  · rw [huinit]
    exact halive _ hpi.symm h.initAlive
  · rw [huinit, hupar]
    rcases ht.parent s.initproc with he | ⟨he, -⟩
    · rw [he]
      exact h.initParent
    · rw [h.initParent] at he
      cases he
  · rw [huinit, huuid]
    exact h.initUid
  · intro r
    by_cases hr : r = p
    · rw [hr, hself]
      nofun
    · rw [hother r hr, ne_eq, ht.state_iff r rfl]
      exact h.embryo r
  · intro r hri hru
    rw [huinit] at hri
    rw [ne_eq, hunused] at hru
    obtain ⟨a, ha, hal⟩ := h.parent r hri hru
    rw [hupar]
    rcases ht.parent r with he | ⟨-, he⟩
    · have hap : a ≠ p := by
        rintro rfl
        exact ht.done r not_mem_nil (he.trans ha)
      exact ⟨a, he.trans ha, halive a hap hal⟩
    · exact ⟨_, he, halive _ hpi.symm h.initAlive⟩
  · intro r
    rw [hupar]
    rcases ht.parent r with he | ⟨hrp, he⟩
    · rw [he]
      exact h.noSelf r
    · rw [he]
      intro hc
      rw [← Option.some.inj hc, h.initParent] at hrp
      cases hrp
  · intro r hru
    have hnone := h.unused r ((hunused r).mp hru)
    rw [hupar]
    rcases ht.parent r with he | ⟨he, -⟩
    · rw [he, hnone]
    · rw [hnone] at he
      cases he
  · rintro r ⟨hsl, hw⟩
    have hr : r ≠ p := by
      rintro rfl
      rw [hself] at hsl
      cases hsl
    rw [hother r hr] at hsl
    have hssl : (s.proc r).state = .sleeping := by
      rcases ht.state r with he | ⟨-, he⟩
      · rw [← he, hsl]
      · rw [hsl] at he
        cases he
    rw [hupc] at hw
    obtain ⟨hchan, ⟨c, hc⟩, hall⟩ := h.wait r ⟨hssl, hw⟩
    have hkeep : ∀ c, (s.proc c).parent = some r → (u.proc c).parent = some r := by
      intro c hc
      rw [hupar]
      rcases ht.parent c with he | ⟨he, -⟩
      · exact he.trans hc
      · rw [hc] at he
        exact (hr (Option.some.inj he)).elim
    refine ⟨by rw [hother r hr, ht.chan]; exact hchan, ⟨c, hkeep c hc⟩, fun c hc hz => ?_⟩
    rw [hupar] at hc
    rcases ht.parent c with he | ⟨hcp, he⟩
    · -- an old child of `r`: it was no zombie, and if it is `p`, then `r` has been woken
      rw [he] at hc
      by_cases hcp : c = p
      · refine hwoken r hssl ?_
        rw [← hcp, hc]
        exact hchan
      · exact hall c hc ((hzombie c hcp).mp hz)
    · -- a new child of `init`: if it is a zombie, `init` has been woken
      rw [hc] at he
      have hri : r = s.initproc := Option.some.inj he
      have hcp' : c ≠ p := by
        rintro rfl
        exact h.noSelf c hcp
      refine ht.told c hcp ((hzombie c hcp').mp hz) (ht.done c not_mem_nil) r hsl ?_
      rw [ht.chan, hchan, hri]
  · intro r a hr ha hra
    rw [ne_eq, hunused] at hr ha
    rw [huuid] at hra
    exact h.uidInj r a hr ha hra
  · intro r hr
    rw [ne_eq, hunused] at hr
    rw [huuid, huforks]
    exact h.uidLt r hr
  · intro r hri hru
    rw [huinit] at hri
    rw [ne_eq, hunused] at hru
    obtain ⟨w, hw, hpar⟩ := h.forked r hri hru
    rw [huuid, hupid, huinit]
    refine ⟨w, hmem _ hw, fun a ha => ?_⟩
    rw [hupar] at ha
    rcases ht.parent r with he | ⟨-, he⟩
    · exact hpar a (he.symm.trans ha)
    · rw [ha] at he
      exact .inr (Option.some.inj he)
  · intro r hz
    rw [huuid]
    by_cases hr : r = p
    · rw [hr, hutrace]
      exact mem_append_right _ (mem_singleton.mpr rfl)
    · exact hmem _ (h.exited r ((hzombie r hr).mp hz))
  · intro r hru v a ha
    rw [ne_eq, hunused] at hru
    rw [huuid] at ha
    exact h.fresh r hru v a (hreaped _ _ _ ha)
  · intro a v r hr
    rw [huforks]
    exact h.below a v r (hreaped a v r hr)
  · rw [hutrace]
    exact h.history.append nofun

/-- The table in which the loop of `exit` starts: the parent has been woken. -/
def State.announced (s : State) (p : Slot) : State :=
  { s with proc := fun q => (s.proc q).woken ((s.proc p).parent.map Chan.proc) }

theorem announced_self (hp : (s.proc p).state = .running) : (s.announced p).proc p = s.proc p :=
  if_neg fun hc => by rw [hp] at hc; cases hc.1

theorem wp_exit {Q : Unit → State → Prop} (hpi : p ≠ s.initproc)
    (hQ : ∀ t, Passed p (s.announced p) [] t →
      Q () ((t.setProc p { t.proc p with state := .zombie }).emit (.exited (t.uid p)))) :
    wp (exit p) Q E s := by
  unfold exit
  simp only [wp_bind, wp_get]
  rw [if_neg hpi, wp_bind]
  unfold wakeup1
  rw [wp_modify, wp_bind]
  refine wp_post (wp_forM_list (J := fun rest t => Passed p (s.announced p) rest t)
    (fun q rest t ht => wp_passChild hpi ht) Passed.init) ?_
  intro _ t ht
  rw [wp_modify]
  exact hQ t ht

theorem wp_exit_inv (h : Inv s) (hp : (s.proc p).state = .running) :
    wp (exit p) (fun _ s' => Inv s') (fun _ _ => True) s := by
  by_cases hpi : p = s.initproc
  · unfold exit
    simp only [wp_bind, wp_get]
    rw [if_pos hpi]
    trivial
  · refine wp_exit hpi fun t ht => ?_
    have hannounced : Inv (s.announced p) := (wp_wakeup1 h : wp (wakeup1 _) _ _ s)
    refine hannounced.exited_of_passed (by rw [announced_self hp]; exact hp) hpi (fun q hsl => ?_) ht
    obtain ⟨he, hne⟩ := woken_sleeping hsl
    rw [announced_self hp]
    change ((s.proc q).woken _).chan ≠ _
    rw [he]
    exact hne

/-! ## Runs -/

theorem wp_waitRound_inv (h : Inv s) (hp : (s.proc p).state = .running) :
    wp (waitRound p) (fun _ s' => Inv s') (fun _ _ => True) s := by
  refine wp_waitRound (fun q hpar hz => h.buried hp hpar hz) (fun _ => h) fun hkid hno => ?_
  exact h.sleep hp fun _ => ⟨rfl, hkid, hno⟩

theorem Inv.step (h : Inv s) (hstep : Step s s') : Inv s' := by
  cases hstep with
  | fork hp hm =>
    refine wp_ok (wp_fork (Q := fun _ s' => Inv s') (E := fun _ _ => True) h (fun q hq => h.refused hq) fun q hq => ?_) hm
    exact h.created hp.1 hq
  | exit hp hm => exact wp_ok (wp_exit_inv h hp.1) hm
  | wait hp hm => exact wp_ok (wp_waitRound_inv h hp.1) hm
  | @rewait p r hp hpc hm =>
    have hw : wp (do Ptable.wake p; waitRound p) (fun _ s' => Inv s') (fun _ _ => True) s := by
      rw [wp_bind]
      unfold Ptable.wake
      rw [wp_modify]
      refine wp_waitRound_inv (h.wake hp) ?_
      simp [setPc, setProc, hp]
    exact wp_ok hw hm
  | kill hp hm => exact wp_ok (wp_kill h) hm
  | trap hp hm =>
    cases hm
    exact h.trap hp.1
  | sleep hp hm =>
    cases hm
    exact h.sleep hp.1 (by simp)
  | wake hp hpc hm =>
    cases hm
    exact h.wake hp
  | wakeup hm => exact wp_ok (wp_wakeup1 h) hm
  | schedule hp hm =>
    cases hm
    exact h.schedule hp
  | yield hp hm =>
    cases hm
    exact h.yield hp

end Steps

theorem inv_boot : Inv boot where
  initAlive := ⟨by decide, by decide⟩
  initParent := rfl
  initUid := rfl
  embryo := by decide
  parent q hq hne := (hne (boot_unused q hq)).elim
  noSelf := by decide
  unused := by decide
  wait q hq := by
    have : boot.pc q = .elsewhere := rfl
    rw [hq.2] at this
    cases this
  uidInj q r hq hr _ := by
    rw [not_imp_comm.mp (boot_unused q) hq, not_imp_comm.mp (boot_unused r) hr]
  uidLt _ _ := Nat.zero_lt_one
  forked q hq hne := (hne (boot_unused q hq)).elim
  exited := by decide
  fresh _ _ _ _ h := by cases h
  below _ _ _ h := by cases h
  history := ⟨fun _ _ _ _ _ h => by simp [boot] at h, fun _ _ _ _ _ h => by simp [boot] at h⟩

theorem Reachable.inv {s : State} (h : Reachable s) : Inv s := by
  induction h with
  | refl => exact inv_boot
  | tail _ hstep ih => exact ih.step hstep

/-! ## Reaping -/

/-- Parents and children in one state of a run, and what has happened to the children so far. -/
structure Family (s : State) : Prop where
  parent : ∀ q, q ≠ s.initproc → (s.proc q).state ≠ .unused →
    ∃ r, (s.proc q).parent = some r ∧ (s.proc r).state ≠ .unused ∧ (s.proc r).state ≠ .zombie
  unused : ∀ q, (s.proc q).state = .unused → (s.proc q).parent = none
  wait : ∀ q, s.Waiting q → (∃ c, (s.proc c).parent = some q) ∧
    ∀ c, (s.proc c).parent = some q → (s.proc c).state ≠ .zombie
  reaping : Reaping s.trace

/-- Process `p` returns `r` from `wait`, called in `s` or resumed there. -/
def Waits (s : State) (p : Slot) (r : ℤ) : Prop :=
  ∃ s', waitRound p s = .ok (some r) s' ∨ (do wake p; waitRound p) s = .ok (some r) s'

section Wait

variable {s : State} {p : Slot} {r : ℤ}

theorem Waits.cases (h : Waits s p r) :
    (∃ q, (s.proc q).parent = some p ∧ (s.proc q).state = .zombie ∧ r = (s.proc q).pid) ∨
      r = -1 ∧ ((∀ q, (s.proc q).parent ≠ some p) ∨ (s.proc p).killed = true) := by
  have hround : ∀ t : State, (∀ q, (t.proc q).parent = (s.proc q).parent ∧
      (t.proc q).state = (s.proc q).state ∧ (t.proc q).pid = (s.proc q).pid ∧
      (t.proc q).killed = (s.proc q).killed) → wp (waitRound p) (fun a _ => ∀ r, a = some r →
      (∃ q, (s.proc q).parent = some p ∧ (s.proc q).state = .zombie ∧ r = (s.proc q).pid) ∨
        r = -1 ∧ ((∀ q, (s.proc q).parent ≠ some p) ∨ (s.proc p).killed = true)) (fun _ _ => True) t := by
    intro t ht
    refine wp_waitRound (fun q hpar hz r hr => .inl ⟨q, ?_, ?_, ?_⟩) (fun hfail r hr => .inr ⟨?_, ?_⟩) ?_
    · rw [← (ht q).1]
      exact hpar
    · rw [← (ht q).2.1]
      exact hz
    · rw [← (ht q).2.2.1]
      exact (Option.some.inj hr).symm
    · exact (Option.some.inj hr).symm
    · refine hfail.imp (fun hno q => ?_) fun hk => ?_
      · rw [← (ht q).1]
        exact hno q
      · rw [← (ht p).2.2.2]
        exact hk
    · intro _ _ r hr
      cases hr
  obtain ⟨s', hrun | hrun⟩ := h
  · exact (wp_of_ok hrun).mp (hround s fun q => ⟨rfl, rfl, rfl, rfl⟩) r rfl
  · have hw : wp (do wake p; waitRound p) (fun a _ => ∀ r, a = some r →
        (∃ q, (s.proc q).parent = some p ∧ (s.proc q).state = .zombie ∧ r = (s.proc q).pid) ∨
          r = -1 ∧ ((∀ q, (s.proc q).parent ≠ some p) ∨ (s.proc p).killed = true)) (fun _ _ => True) s := by
      rw [wp_bind]
      unfold wake
      rw [wp_modify]
      refine hround _ fun q => ?_
      by_cases hq : q = p
      · subst hq
        simp [setPc, setProc]
      · simp [setPc, setProc, update_of_ne hq]
    exact (wp_of_ok hrun).mp hw r rfl

theorem int32_ne_neg_one {n : ℤ} (h : 0 < n) (h' : n < 2 ^ 32 - 1) : int32 n ≠ -1 := by
  unfold int32
  rw [Int.bmod_def, Int.emod_eq_of_lt (by omega) (by push_cast; omega)]
  push_cast
  split
  · omega
  · omega

end Wait

end Xv6.Ptable
