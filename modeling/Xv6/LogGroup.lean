import Xv6.LogCommit

/-!
# Group commit keeps operations whole

Every interleaving in which the groups fit in the log keeps `Contents`, so a crash at any point
recovers to the modifications of whole operations.
-/

namespace Xv6

open Resumption ByteLayout List

variable {ι κ : Type} {start size : ℕ} {ws : ι → List Write} {d : ℕ → Block}
  {done pend : List (ι × Write)} {ls : ι ⊕ κ → Loc} {s s' : LogState ι}

/-- In every prefix of the history, the current group fits in the log. -/
def GroupsFit (size : ℕ) (trace : List (LogEvent ι)) : Prop :=
  ∀ tr, tr <+: trace → (groupBlocks tr).length < size

theorem GroupsFit.of_append {size : ℕ} {tr : List (LogEvent ι)} {e : LogEvent ι}
    (h : GroupsFit size (tr ++ [e])) : GroupsFit size tr :=
  fun t ht => h t (ht.trans (prefix_append _ _))

theorem groupBlocks_length_le (tr : List (LogEvent ι)) : (groupBlocks tr).length ≤ tr.length := by
  induction tr using List.reverseRecOn with
  | nil => rfl
  | append_singleton tr e ih =>
      rw [groupBlocks_append, length_append, length_singleton]
      cases e with
      | logWrite i b => exact le_trans (length_absorb_le _ b) (by omega)
      | commitDone => exact Nat.zero_le _
      | _ => exact le_trans ih (Nat.le_succ _)

variable [DecidableEq ι] [DecidableEq κ]

/-- As long as the groups fit, the disk and the cache hold what the history says. -/
def GroupInv (start size : ℕ) (d : ℕ → Block) (ls : ι ⊕ κ → Loc) (s : LogState ι) : Prop :=
  GroupsFit size s.trace → ∃ done pend, Contents start size d done pend ls s

omit [DecidableEq ι] [DecidableEq κ] in
theorem GroupInv.step (h : GroupInv start size d ls s) {ls' : ι ⊕ κ → Loc}
    (htr : s'.trace = s.trace ∨ ∃ e, s'.trace = s.trace ++ [e])
    (hstep : GroupsFit size s.trace → ∀ done pend, Contents start size d done pend ls s →
      ∃ done' pend', Contents start size d done' pend' ls' s') : GroupInv start size d ls' s' := by
  intro hfit
  have hfit' : GroupsFit size s.trace := by
    cases htr with
    | inl htr => rwa [htr] at hfit
    | inr htr =>
        obtain ⟨e, htr⟩ := htr
        rw [htr] at hfit
        exact hfit.of_append
  obtain ⟨done, pend, hc⟩ := h hfit'
  exact hstep hfit' done pend hc

theorem group_rules (hws : ∀ i, ∀ w ∈ ws i, ¬ InLog start size w.1.toNat) :
    StepRules ws (fun ls s => (Protocol (κ := κ) start size ls s ∧ History start ws ls s) ∧
      GroupInv start size d ls s) (GroupInv start size d) (fun _ _ => True) where
  beginOp i ls s hl h := by
    simp only [beginOp, wp_bind, wp_get, wp_ite, wp_throw, wp_set, implies_true, true_and]
    intro hcom _
    refine h.2.step (Or.inr ⟨_, rfl⟩) fun _ done pend hc => ⟨done, pend, ?_⟩
    exact hc.begin h.1.1 (by simpa using hcom) hl rfl
  fetch i ls s e b f he hl h := by
    refine wp_bread.mpr ⟨fun _ => trivial, fun hb => ?_⟩
    refine h.2.step (Or.inl rfl) fun _ done pend hc => ⟨done, pend, ?_⟩
    apply hc.view (SameView.hold s b.toNat) _ _ (by simp [hl, Loc.InCommit]) id
      (by simp [hl, Loc.IsOpen]) (by simp [hl]) (by simp)
    · intro e' c k hk
      injection hk with _ hbc
      rw [← hbc]
      exact hws i (b, f) (he.subset (by simp))
    · rw [LogState.hold_busy]
      exact hc.cache.holders.acquire _ _ hb rfl
  modify i ls s e b f _ hl h := by
    simp only [modifyBlock, wp_modify]
    refine h.2.step (Or.inr ⟨_, rfl⟩) fun _ done pend hc => ⟨done, pend ++ [(i, b, f)], ?_⟩
    obtain ⟨u, hu⟩ := hc.cache.cached (x := .inl i) (b := b.toNat) (by rw [hl]; rfl)
    simp only [LogState.mapBuf, hu, Option.map_some]
    exact hc.modify h.1.1 h.1.2 hl hu
  test i ls s e b f _ hl h := by
    simp only [logWriteTest, wp_bind, wp_get, wp_ite, wp_throw, wp_pure, implies_true, true_and]
    intro _ _
    rw [← hl, Function.update_eq_self]
    exact h.2
  logged i ls s e b f _ hl h := by
    simp only [logWriteLocked, wp_bind, wp_get, wp_ite, wp_throw, wp_set, implies_true, true_and]
    intro hlen
    refine h.2.step (Or.inr ⟨_, rfl⟩) fun _ done pend hc => ⟨done, pend, ?_⟩
    obtain ⟨u, hu⟩ := hc.cache.cached (x := .inl i) (b := b.toNat) (by rw [hl]; rfl)
    simp only [LogState.mapBuf, hu, Option.map_some]
    exact hc.logged h.1.1 hl hu (not_lt.mp hlen)
  release i ls s e b f _ hl h := by
    apply wp_brelse_view trivial
    intro s' hv hbusy
    refine h.2.step (Or.inl hv.trace) fun _ done pend hc => ⟨done, pend, ?_⟩
    apply hc.view hv _ _ (by simp [hl, Loc.InCommit]) id (by simp [hl, Loc.IsOpen]) (by simp [hl])
      (by simp) (by simp)
    rw [hbusy]
    exact hc.cache.holders.release _ _ (by rw [hl]; rfl) rfl
  leaveOp i ls s hl h := by
    simp only [leaveOp, wp_bind, wp_get, wp_ite, wp_throw, wp_set, wp_pure, implies_true, true_and]
    intro _
    constructor
    · intro _
      refine h.2.step (Or.inr ⟨_, rfl⟩) fun _ done pend hc => ⟨done, pend, ?_⟩
      exact hc.leave h.1.1 hl (Or.inl rfl) rfl
    · intro _
      refine h.2.step (Or.inr ⟨_, rfl⟩) fun _ done pend hc => ⟨done, pend, ?_⟩
      exact hc.leave h.1.1 hl (Or.inr rfl) rfl
  enter i ls s hl h := by
    simp only [lhCount, wp_bind, wp_get, wp_pure]
    exact h.2.step (Or.inl rfl) fun _ done pend hc => ⟨done, pend, hc.enter h.1.1 hl⟩
  countLog i ls s n hl h := h.1.1.count (.inl i) n (by rw [hl]; exact rfl)
  writeLog i ls s n j hj hl h := by
    apply wp_writeLogBlock _ _ (by rw [h.1.1.start_eq]) rfl (fun _ _ => trivial)
    intro s' hw
    refine h.2.step (Or.inr ⟨_, hw.trace⟩) fun hfit done pend hc => ⟨done, pend, ?_⟩
    have hlh := h.1.1.header_of_commit hl trivial id
    exact hc.writeLog h.1.1 hj hl (hlh ▸ hfit s.trace (prefix_refl _)) hw
  writeHead i ls s n hl h := by
    apply wp_writeHead (fun _ _ => trivial)
    intro s' hw
    rw [h.1.1.start_eq] at hw
    refine h.2.step (Or.inr ⟨_, hw.trace⟩) fun hfit done pend hc => ⟨done ++ pend, [], ?_⟩
    have hlh := h.1.1.header_of_commit hl trivial id
    exact hc.writeHead h.1.1 hl (hlh ▸ hfit s.trace (prefix_refl _)) hw
  countInstall i ls s n hl h := h.1.1.count (.inl i) n (by rw [hl]; exact rfl)
  install i ls s n j hj hl h := by
    apply wp_installBlock _ _ (by rw [h.1.1.start_eq]) rfl (fun _ _ => trivial)
    intro s' hw
    refine h.2.step (Or.inr ⟨_, hw.trace⟩) fun _ done pend hc => ⟨done, pend, ?_⟩
    exact hc.install h.1.1 hj hl hw
  clear i ls s n hl h := by
    simp only [setLh, wp_modify]
    exact h.2.step (Or.inl rfl) fun _ done pend hc => ⟨done, pend, hc.clear h.1.1 hl⟩
  erase i ls s hl h := by
    apply wp_writeHead (fun _ _ => trivial)
    intro s' hw
    rw [h.1.1.start_eq] at hw
    refine h.2.step (Or.inr ⟨_, hw.trace⟩) fun _ done pend hc => ⟨done, pend, ?_⟩
    exact hc.erase h.1.1 hl hw
  endCommit i ls s hl h := by
    simp only [endCommit, wp_modify]
    exact h.2.step (Or.inr ⟨_, rfl⟩) fun _ done pend hc =>
      ⟨done, pend, hc.endCommit h.1.1 hl rfl⟩
  read k ls s b hl h := by
    refine wp_bread.mpr ⟨fun _ => trivial, fun hb => ?_⟩
    refine h.2.step (Or.inl rfl) fun _ done pend hc => ⟨done, pend, ?_⟩
    apply hc.view (SameView.hold s b) _ _ (by simp [hl, Loc.InCommit]) id
      (by simp [hl, Loc.IsOpen]) (by simp [hl]) (by simp) (by simp)
    rw [LogState.hold_busy]
    exact hc.cache.holders.acquire _ _ hb rfl
  readDone k ls s b hl h := by
    apply wp_brelse_view trivial
    intro s' hv hbusy
    refine h.2.step (Or.inl hv.trace) fun _ done pend hc => ⟨done, pend, ?_⟩
    apply hc.view hv _ _ (by simp [hl, Loc.InCommit]) id (by simp [hl, Loc.IsOpen]) (by simp [hl])
      (by simp) (by simp)
    rw [hbusy]
    exact hc.cache.holders.release _ _ (by rw [hl]; rfl) rfl
  recycle k ls s b hl h := by
    by_cases hfit : GroupsFit size s.trace
    · obtain ⟨done, pend, hc⟩ := h.2 hfit
      apply wp_recycle_view _ trivial
      · intro s' hv hbusy _
        refine ⟨done, pend, ?_⟩
        apply hc.view hv _ _ (by simp [hl, Loc.InCommit]) id (by simp [hl, Loc.IsOpen])
          (by simp [hl]) (by simp) (by simp)
        rw [hbusy]
        exact hc.cache.holders.keep _ _ (by rw [hl])
      · -- a buffer that is being changed is held
        intro hpin hfree
        apply hc.cache.sync b hpin
        intro i e c hi hcb
        rw [hc.cache.holders.1 (.inl i) b (by rw [hi, ← hcb]; rfl)] at hfree
        cases hfree
    · refine wp_recycle_frame (fun s' _ htr => ?_) trivial
      intro hfit'
      rw [htr] at hfit'
      exact absurd hfit' hfit

section Theorem

variable {bg : κ → Background} {c : Config (ι ⊕ κ) Stop (LogState ι)}

theorem group_reaches (hd : headerCount (d start) = 0)
    (hws : ∀ i, ∀ w ∈ ws i, ¬ InLog start size w.1.toNat)
    (hr : LogReaches (system start size d ws bg) c) :
    ∃ ls : ι ⊕ κ → Loc, History start ws ls c.state ∧ GroupInv start size d ls c.state := by
  obtain ⟨ls, hI, _⟩ := system_safe ((protocol_rules.and history_rules).and (group_rules hws))
    ⟨⟨Protocol.boot d, History.boot d⟩, fun _ => ⟨[], [], Contents.boot hd⟩⟩ hr
  exact ⟨ls, hI.1.2, hI.2⟩

end Theorem

/-- One operation that fills block 100, on the `mkfs` log. -/
def oneOperation : Config (Unit ⊕ Empty) Stop (LogState Unit) :=
  system 2 LOGSIZE (fun _ => Buffer.zero) (fun _ => fill [100]) Empty.elim

theorem oneOperation_steps : ∃ p s,
    Prog.Steps (operation () (fill [100])) oneOperation.state p s ∧
    ∃ v w, s.trace = [.beginOp (), .modify () 100 (fun _ => ones), .logWrite () 100, .endOp (),
      .bwrite 3 v, .bwrite 2 (setHeader w [100])] := by
  refine ⟨_, _, .step rfl (.step rfl (.step rfl (.step rfl (.step rfl (.step rfl (.step rfl
    (.step rfl (.step rfl (.step rfl (.step rfl (.refl _ _))))))))))), ?_⟩
  exact ⟨_, _, rfl⟩

end Xv6
