import Xv6.LogBudget

/-!
# The history of a group commit

What operations have done is read off the trace: `modifications` in the order they were made,
`groupOps` the operations that have ended since the last commit, and `committedOps` those whose
group's header has reached the disk. `History` ties the trace to the control locations.
-/

namespace Xv6

open Resumption ByteLayout Function

variable {ι κ : Type}

def LogEvent.modification : LogEvent ι → Option (ι × Write)
  | .modify i b f => some (i, b, f)
  | _ => none

/-- All block modifications, in the order they were made. -/
def modifications (trace : List (LogEvent ι)) : List (ι × Write) :=
  trace.filterMap LogEvent.modification

@[simp] theorem modifications_append (tr : List (LogEvent ι)) (e : LogEvent ι) :
    modifications (tr ++ [e]) = modifications tr ++ e.modification.toList := by
  cases h : e.modification <;> simp [modifications, h]

/-- The contents of the blocks after modifications made one after the other. -/
def applyWrites (d : ℕ → Block) (l : List Write) : ℕ → Block :=
  l.foldl (fun d w => Function.update d w.1.toNat (w.2 (d w.1.toNat))) d

theorem applyWrites_append (d : ℕ → Block) (l l' : List Write) :
    applyWrites d (l ++ l') = applyWrites (applyWrites d l) l' := List.foldl_append

theorem applyWrites_of_notMem {b : ℕ} (l : List Write) (d : ℕ → Block)
    (h : ∀ w ∈ l, w.1.toNat ≠ b) : applyWrites d l b = d b := by
  induction l generalizing d with
  | nil => rfl
  | cons w l ih =>
      have hw : b ≠ w.1.toNat := (h w (by simp)).symm
      change applyWrites (update d w.1.toNat (w.2 (d w.1.toNat))) l b = d b
      rw [ih _ fun v hv => h v (List.mem_cons_of_mem w hv), update_of_ne hw]

/-- The committed operations, and those that have ended in the current group. -/
def historyStep (start : ℕ) (h : List ι × List ι) : LogEvent ι → List ι × List ι
  | .endOp i => (h.1, h.2 ++ [i])
  | .bwrite b v => if b = start ∧ headerCount v ≠ 0 then (h.1 ++ h.2, h.2) else h
  | .commitDone => (h.1, [])
  | _ => h

def history (start : ℕ) (trace : List (LogEvent ι)) : List ι × List ι :=
  trace.foldl (historyStep start) ([], [])

/-- The operations whose commit group's header has been written. -/
def committedOps (start : ℕ) (trace : List (LogEvent ι)) : List ι := (history start trace).1

def groupOps (start : ℕ) (trace : List (LogEvent ι)) : List ι := (history start trace).2

@[simp] theorem history_append (start : ℕ) (tr : List (LogEvent ι)) (e : LogEvent ι) :
    history start (tr ++ [e]) = historyStep start (history start tr) e := by
  simp [history]

theorem historyStep_bwrite {start b : ℕ} {v : Block} (h : b ≠ start ∨ headerCount v = 0)
    (p : List ι × List ι) : historyStep start p (.bwrite b v) = p := by
  have hno : ¬ (b = start ∧ headerCount v ≠ 0) := by tauto
  rw [historyStep, if_neg hno]

namespace Loc

def Left : Loc → Prop
  | entered | commit _ | finished => True
  | _ => False

def made (w : List Write) : Loc → List Write
  | running d | holding d _ _ => d
  | entered | commit _ | finished => w
  | _ => []

end Loc

section

variable [DecidableEq ι]

/-- The modifications of one operation. -/
def modsBy (i : ι) (trace : List (LogEvent ι)) : List Write :=
  ((modifications trace).filter fun m => m.1 = i).map Prod.snd

theorem modsBy_modify (i j : ι) (b : UInt32) (f : Block → Block) (tr : List (LogEvent ι)) :
    modsBy j (tr ++ [.modify i b f]) = modsBy j tr ++ if i = j then [(b, f)] else [] := by
  by_cases h : i = j <;> simp [modsBy, LogEvent.modification, h]

theorem modsBy_append_none (j : ι) (tr : List (LogEvent ι)) {e : LogEvent ι}
    (h : e.modification = none) : modsBy j (tr ++ [e]) = modsBy j tr := by
  simp [modsBy, h]

theorem mem_modsBy {m : ι × Write} {tr : List (LogEvent ι)} (h : m ∈ modifications tr) :
    m.2 ∈ modsBy m.1 tr := by
  simp only [modsBy, List.mem_map, List.mem_filter, decide_eq_true_eq]
  exact ⟨m, ⟨h, rfl⟩, rfl⟩

end

/-- Every operation has made the modifications its location says, and only operations that have
called `end_op` are in a group or committed. -/
structure History (start : ℕ) (ws : ι → List Write) [DecidableEq ι] (ls : ι ⊕ κ → Loc)
    (s : LogState ι) : Prop where
  made : ∀ i, modsBy i s.trace = (ls (.inl i)).made (ws i)
  within : ∀ i, (ls (.inl i)).made (ws i) <+: ws i
  committed : ∀ i ∈ committedOps start s.trace, (ls (.inl i)).Left
  group : ∀ i ∈ groupOps start s.trace, (ls (.inl i)).Left

section Rules

variable [DecidableEq ι] [DecidableEq κ] {start size : ℕ} {ws : ι → List Write} {ls : ι ⊕ κ → Loc}
  {s s' : LogState ι}

theorem History.boot (d : ℕ → Block) :
    History start ws (Sum.elim (fun _ : ι => .before) fun _ : κ => .idle) (boot start size d) := by
  constructor
  · exact fun i => rfl
  · exact fun i => List.nil_prefix
  · intro i hi
    cases hi
  · intro i hi
    cases hi

theorem mem_history_append {tr : List (LogEvent ι)} {e : LogEvent ι} (he : ∀ i, e ≠ .endOp i) {i : ι}
    (h : i ∈ committedOps start (tr ++ [e]) ∨ i ∈ groupOps start (tr ++ [e])) :
    i ∈ committedOps start tr ∨ i ∈ groupOps start tr := by
  simp only [committedOps, groupOps, history_append] at h ⊢
  cases e with
  | endOp j => exact absurd rfl (he j)
  | bwrite b v =>
      simp only [historyStep] at h
      split_ifs at h
      · rw [List.mem_append] at h
        tauto
      · exact h
  | commitDone => simpa [historyStep] using Or.inl h
  | _ => exact h

def LogEvent.Neutral (e : LogEvent ι) : Prop := e.modification = none ∧ ∀ i, e ≠ .endOp i

section

variable (h : History start ws ls s)
include h

theorem History.relabel (x : ι ⊕ κ) (l : Loc)
    (hm : ∀ w, l.made w = (ls x).made w) (hl : (ls x).Left → l.Left)
    (htr : s'.trace = s.trace ∨ ∃ e : LogEvent ι, e.Neutral ∧ s'.trace = s.trace ++ [e]) :
    History start ws (update ls x l) s' := by
  have hleft : ∀ y, (ls y).Left → (update ls x l y).Left := by
    intro y hy
    by_cases hyx : y = x
    · rw [hyx] at hy ⊢
      rw [update_self]
      exact hl hy
    · rwa [update_of_ne hyx]
  have hmods : ∀ i, modsBy i s'.trace = modsBy i s.trace := by
    intro i
    cases htr with
    | inl htr => rw [htr]
    | inr htr =>
        obtain ⟨e, he, htr⟩ := htr
        rw [htr, modsBy_append_none i s.trace he.1]
  have hold : ∀ i, (i ∈ committedOps start s'.trace ∨ i ∈ groupOps start s'.trace) →
      (update ls x l (.inl i)).Left := by
    intro i hi
    have hi' : i ∈ committedOps start s.trace ∨ i ∈ groupOps start s.trace := by
      cases htr with
      | inl htr => rwa [htr] at hi
      | inr htr =>
          obtain ⟨e, he, htr⟩ := htr
          rw [htr] at hi
          exact mem_history_append he.2 hi
    cases hi' with
    | inl hi => exact hleft _ (h.committed i hi)
    | inr hi => exact hleft _ (h.group i hi)
  constructor
  · intro i
    rw [hmods, h.made]
    by_cases hi : .inl i = x
    · rw [hi, update_self, hm]
    · rw [update_of_ne hi]
  · intro i
    by_cases hi : .inl i = x
    · rw [hi, update_self, hm, ← hi]
      exact h.within i
    · rw [update_of_ne hi]
      exact h.within i
  · exact fun i hi => hold i (Or.inl hi)
  · exact fun i hi => hold i (Or.inr hi)

theorem History.wrote (x : ι ⊕ κ) (l : Loc) {b : ℕ} {v : Block} (hm : ∀ w, l.made w = (ls x).made w)
    (hl : (ls x).Left → l.Left) (hw : Wrote s s' b v) : History start ws (update ls x l) s' :=
  h.relabel x l hm hl (Or.inr ⟨.bwrite b v, ⟨rfl, fun _ => by simp⟩, hw.trace⟩)

theorem History.modify {i : ι} {d : List Write} {b : UInt32}
    {f : Block → Block} (hd : d ++ [(b, f)] <+: ws i) (hl : ls (.inl i) = .holding d b .fetched)
    (htr : s'.trace = s.trace ++ [.modify i b f]) :
    History start ws (update ls (.inl i) (.holding (d ++ [(b, f)]) b .modified)) s' := by
  have hold : ∀ j, (j ∈ committedOps start s'.trace ∨ j ∈ groupOps start s'.trace) →
      (update ls (.inl i) (.holding (d ++ [(b, f)]) b .modified) (.inl j)).Left := by
    intro j hj
    rw [htr] at hj
    have hleft : (ls (.inl j)).Left := by
      cases mem_history_append (by simp) hj with
      | inl hj => exact h.committed j hj
      | inr hj => exact h.group j hj
    have hji : j ≠ i := by
      rintro rfl
      rw [hl] at hleft
      exact hleft
    rwa [update_of_ne (by simpa using hji)]
  constructor
  · intro j
    rw [htr, modsBy_modify, h.made]
    by_cases hj : i = j
    · rw [if_pos hj, ← hj, hl, update_self]
      rfl
    · rw [if_neg hj, List.append_nil, update_of_ne (by simpa using Ne.symm hj)]
  · intro j
    by_cases hj : j = i
    · rw [hj, update_self]
      exact hd
    · rw [update_of_ne (by simpa using hj)]
      exact h.within j
  · exact fun j hj => hold j (Or.inl hj)
  · exact fun j hj => hold j (Or.inr hj)

theorem History.leave {i : ι} {l : Loc}
    (hl : ls (.inl i) = .running (ws i)) (hl' : l.Left) (hm : l.made (ws i) = ws i)
    (htr : s'.trace = s.trace ++ [.endOp i]) : History start ws (update ls (.inl i) l) s' := by
  have hleft : ∀ j, (ls (.inl j)).Left → (update ls (.inl i) l (.inl j)).Left := by
    intro j hj
    by_cases hji : j = i
    · rw [hji, update_self]
      exact hl'
    · rwa [update_of_ne (by simpa using hji)]
  constructor
  · intro j
    rw [htr, modsBy_append_none j s.trace rfl, h.made]
    by_cases hj : j = i
    · rw [hj, update_self, hl, hm]
      rfl
    · rw [update_of_ne (by simpa using hj)]
  · intro j
    by_cases hj : j = i
    · rw [hj, update_self, hm]
    · rw [update_of_ne (by simpa using hj)]
      exact h.within j
  · intro j hj
    apply hleft
    apply h.committed
    simpa [committedOps, htr, historyStep] using hj
  · intro j hj
    have hj' : j ∈ groupOps start s.trace ∨ j = i := by
      simpa [groupOps, htr, historyStep] using hj
    cases hj' with
    | inl hj => exact hleft j (h.group j hj)
    | inr hj =>
        rw [hj, update_self]
        exact hl'

end

theorem history_rules : StepRules ws (fun ls s => Protocol (κ := κ) start size ls s ∧
    History start ws ls s) (History start ws) (fun _ _ => True) where
  beginOp i ls s hl h := by
    simp only [beginOp, wp_bind, wp_get, wp_ite, wp_throw, wp_set, implies_true, true_and]
    intro _ _
    exact h.2.relabel _ _ (by simp [hl, Loc.made]) (by simp [hl, Loc.Left])
      (Or.inr ⟨.beginOp i, ⟨rfl, fun _ => by simp⟩, rfl⟩)
  fetch i ls s d b f _ hl h := by
    refine wp_bread.mpr ⟨fun _ => trivial, fun _ => ?_⟩
    exact h.2.relabel _ _ (by simp [hl, Loc.made]) (by simp [hl, Loc.Left]) (Or.inl rfl)
  modify i ls s d b f hd hl h := h.2.modify hd hl rfl
  test i ls s d b f _ hl h := by
    simp only [logWriteTest, wp_bind, wp_get, wp_ite, wp_throw, wp_pure, implies_true, true_and]
    intro _ _
    rw [← hl, update_eq_self]
    exact h.2
  logged i ls s d b f _ hl h := by
    simp only [logWriteLocked, wp_bind, wp_get, wp_ite, wp_throw, wp_set, implies_true, true_and]
    intro _
    exact h.2.relabel _ _ (by simp [hl, Loc.made]) (by simp [hl, Loc.Left])
      (Or.inr ⟨.logWrite i b, ⟨rfl, fun _ => by simp⟩, rfl⟩)
  release i ls s d b f _ hl h := by
    refine wp_brelse_frame (fun s' _ htr => ?_) trivial
    exact h.2.relabel _ _ (by simp [hl, Loc.made]) (by simp [hl, Loc.Left]) (Or.inl htr)
  leaveOp i ls s hl h := by
    simp only [leaveOp, wp_bind, wp_get, wp_ite, wp_throw, wp_set, wp_pure, implies_true, true_and]
    intro _
    constructor
    · intro _
      exact h.2.leave hl trivial rfl rfl
    · intro _
      exact h.2.leave hl trivial rfl rfl
  enter i ls s hl h := by
    simp only [lhCount, wp_bind, wp_get, wp_pure]
    exact h.2.relabel _ _ (by simp [hl, Loc.made]) (fun _ => trivial) (Or.inl rfl)
  countLog i ls s n hl h := h.1.count (.inl i) n (by rw [hl]; exact rfl)
  writeLog i ls s n j _ hl h := by
    apply wp_writeLogBlock _ _ rfl rfl (fun _ _ => trivial)
    exact fun s' hw => h.2.wrote _ _ (by simp [hl, Loc.made]) (fun _ => trivial) hw
  writeHead i ls s n hl h := by
    apply wp_writeHead (fun _ _ => trivial)
    exact fun s' hw => h.2.wrote _ _ (by simp [hl, Loc.made]) (fun _ => trivial) hw
  countInstall i ls s n hl h := h.1.count (.inl i) n (by rw [hl]; exact rfl)
  install i ls s n j _ hl h := by
    apply wp_installBlock _ _ rfl rfl (fun _ _ => trivial)
    exact fun s' hw => h.2.wrote _ _ (by simp [hl, Loc.made]) (fun _ => trivial) hw
  clear i ls s n hl h := by
    simp only [setLh, wp_modify]
    exact h.2.relabel _ _ (by simp [hl, Loc.made]) (fun _ => trivial) (Or.inl rfl)
  erase i ls s hl h := by
    apply wp_writeHead (fun _ _ => trivial)
    exact fun s' hw => h.2.wrote _ _ (by simp [hl, Loc.made]) (fun _ => trivial) hw
  endCommit i ls s hl h := by
    simp only [endCommit, wp_modify]
    exact h.2.relabel _ _ (by simp [hl, Loc.made]) (fun _ => trivial)
      (Or.inr ⟨.commitDone, ⟨rfl, fun _ => by simp⟩, rfl⟩)
  read k ls s b hl h := by
    refine wp_bread.mpr ⟨fun _ => trivial, fun _ => ?_⟩
    exact h.2.relabel _ _ (by simp [hl, Loc.made]) (by simp [hl, Loc.Left]) (Or.inl rfl)
  readDone k ls s b hl h := by
    refine wp_brelse_frame (fun s' _ htr => ?_) trivial
    exact h.2.relabel _ _ (by simp [hl, Loc.made]) (by simp [hl, Loc.Left]) (Or.inl htr)
  recycle k ls s b hl h := by
    refine wp_recycle_frame (fun s' _ htr => ?_) trivial
    exact h.2.relabel _ _ (by simp [hl]) (by simp [hl]) (Or.inl htr)

end Rules

end Xv6
