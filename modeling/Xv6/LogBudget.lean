import Xv6.LogSpace

/-!
# What begin_op reserves and what log_write needs

`begin_op` reserves `MAXOPBLOCKS` blocks for every open operation and admits one more while the sum
stays within `LOGSIZE`. The log that `mkfs` lays out has `LOGSIZE` blocks with the header, and
`log_write` refuses a block once `LOGSIZE - 1` are taken, before it looks whether the block is one
of them. `Reserved` is the budget under which the reservation is still enough: one block less for
every operation. Three operations with their full allowance fill the log before they are done.
-/

namespace Xv6

open Resumption ByteLayout Function List

namespace Loc

def loggedBlocks : Loc → Finset UInt32
  | running d | holding d _ .fetched | holding d _ .logged => (d.map Prod.fst).toFinset
  | holding d _ .modified => (d.dropLast.map Prod.fst).toFinset
  | _ => ∅

end Loc

variable {ι κ : Type}

variable {lh : List UInt32} {b : UInt32} {i : ι} {n : ℕ} {s : LogState ι}

theorem length_absorb_le (lh : List UInt32) (b : UInt32) :
    (absorb lh b).length ≤ lh.length + 1 := by
  unfold absorb
  split_ifs
  · omega
  · simp

theorem absorb_of_mem (h : b ∈ lh) : absorb lh b = lh := if_pos h

theorem mem_absorb {a : UInt32} : a ∈ absorb lh b ↔ a ∈ lh ∨ a = b := by
  unfold absorb
  split_ifs with h
  · constructor
    · exact Or.inl
    · intro ha
      cases ha with
      | inl ha => exact ha
      | inr ha => rwa [ha]
  · simp

/-- Every operation logs at most `D` distinct blocks. -/
def WithinBudget (D : ℕ) (ws : ι → List Write) : Prop :=
  ∀ i, ((ws i).map Prod.fst).toFinset.card ≤ D

/-- The blocks in the header and those that the open operations may still add fit below the
capacity test of `log_write`. -/
structure Reserved (D : ℕ) (ls : ι ⊕ κ → Loc) (s : LogState ι) : Prop where
  inHeader : ∀ i, ∀ b ∈ (ls (.inl i)).loggedBlocks, b ∈ s.log.lh
  space : ∃ A : Finset ι, (∀ i, i ∈ A ↔ (ls (.inl i)).IsOpen) ∧
    s.log.lh.length + ∑ i ∈ A, (D - (ls (.inl i)).loggedBlocks.card) ≤ LOGSIZE - 2
  fresh : s.log.outstanding = 0 → s.log.committing = false → s.log.lh = []

def NoOverflow (e : Stop) (_ : LogState ι) : Prop := e ≠ .panic "too big a transaction"

variable {D start : ℕ} {ls : ι ⊕ κ → Loc} {s s' : LogState ι}

theorem Reserved.boot (d : ℕ → Block) :
    Reserved D (Sum.elim (fun _ : ι => .before) fun _ : κ => .idle) (boot start LOGSIZE d) := by
  constructor
  · intro i b hb
    cases hb
  · exact ⟨∅, fun i => by simp [Loc.IsOpen], by simp [Xv6.boot]⟩
  · exact fun _ _ => rfl

theorem Reserved.length_le (h : Reserved D ls s) : s.log.lh.length ≤ LOGSIZE - 2 := by
  obtain ⟨A, _, hsum⟩ := h.space
  omega

section Reservation

variable [DecidableEq ι] [DecidableEq κ]

variable {i : ι}

theorem Reserved.relabel (h : Reserved D ls s) (x : ι ⊕ κ) (l : Loc)
    (ho : l.IsOpen ↔ (ls x).IsOpen) (hb : l.loggedBlocks = (ls x).loggedBlocks)
    (hlog : s'.log = s.log) : Reserved D (update ls x l) s' := by
  have hopen : ∀ y, (update ls x l y).IsOpen ↔ (ls y).IsOpen := by
    intro y
    by_cases hy : y = x
    · rw [hy, update_self, ho]
    · rw [update_of_ne hy]
  have hblocks : ∀ y, (update ls x l y).loggedBlocks = (ls y).loggedBlocks := by
    intro y
    by_cases hy : y = x
    · rw [hy, update_self, hb]
    · rw [update_of_ne hy]
  obtain ⟨A, hA, hsum⟩ := h.space
  constructor
  · intro i b hi
    rw [hblocks] at hi
    rw [hlog]
    exact h.inHeader i b hi
  · refine ⟨A, fun i => (hA i).trans (hopen _).symm, ?_⟩
    simpa only [hlog, hblocks] using hsum
  · rw [hlog]
    exact h.fresh

theorem Reserved.close (h : Reserved D ls s) (i : ι) (l : Loc) (hl : ¬ l.IsOpen)
    (hb : l.loggedBlocks = ∅) (hlh : s'.log.lh = s.log.lh)
    (hfresh : s'.log.outstanding = 0 → s'.log.committing = false → s'.log.lh = []) :
    Reserved D (update ls (.inl i) l) s' := by
  obtain ⟨A, hA, hsum⟩ := h.space
  have hother : ∀ j, j ≠ i → update ls (.inl i) l (.inl j) = ls (.inl j) := by
    intro j hj
    rw [update_of_ne (by simpa using hj)]
  constructor
  · intro j b hj
    rw [hlh]
    by_cases hji : j = i
    · rw [hji, update_self, hb] at hj
      cases hj
    · rw [hother j hji] at hj
      exact h.inHeader j b hj
  · refine ⟨A.erase i, fun j => ?_, ?_⟩
    · by_cases hji : j = i
      · rw [hji, update_self]
        simp [hl]
      · rw [hother j hji, ← hA j]
        simp [hji]
    · have hle : ∑ j ∈ A.erase i, (D - (update ls (.inl i) l (.inl j)).loggedBlocks.card) ≤
          ∑ j ∈ A, (D - (ls (.inl j)).loggedBlocks.card) := by
        calc ∑ j ∈ A.erase i, (D - (update ls (.inl i) l (.inl j)).loggedBlocks.card)
            = ∑ j ∈ A.erase i, (D - (ls (.inl j)).loggedBlocks.card) := by
              apply Finset.sum_congr rfl
              intro j hj
              rw [hother j (Finset.ne_of_mem_erase hj)]
          _ ≤ ∑ j ∈ A, (D - (ls (.inl j)).loggedBlocks.card) :=
              Finset.sum_le_sum_of_subset (Finset.erase_subset i A)
      rw [hlh]
      omega
  · exact hfresh

theorem Reserved.beginOp (hD : D < MAXOPBLOCKS) (hp : Protocol start LOGSIZE ls s)
    (h : Reserved D ls s) (hl : ls (.inl i) = .before) :
    wp (beginOp i) (fun _ s' => Reserved D (update ls (.inl i) (.running [])) s')
      NoOverflow s := by
  simp only [Xv6.beginOp, wp_bind, wp_get, wp_ite, wp_throw, wp_set, NoOverflow, ne_eq, reduceCtorEq,
    not_false_eq_true, implies_true, true_and]
  intro hcom hroom
  obtain ⟨A, hA, hcard⟩ := hp.opened
  have hi : i ∉ A := by
    rw [hA i, hl]
    exact id
  have hother : ∀ j ∈ A, update ls (.inl i) (.running []) (.inl j) = ls (.inl j) := by
    intro j hj
    have hji : j ≠ i := fun hji => hi (hji ▸ hj)
    rw [update_of_ne (by simpa using hji)]
  constructor
  · intro j b hj
    by_cases hji : j = i
    · rw [hji, update_self] at hj
      cases hj
    · rw [update_of_ne (by simpa using hji)] at hj
      exact h.inHeader j b hj
  · refine ⟨insert i A, fun j => ?_, ?_⟩
    · by_cases hji : j = i
      · simp [hji, Loc.IsOpen]
      · rw [Finset.mem_insert, hA j, update_of_ne (by simpa using hji)]
        simp [hji]
    · have hold : ∑ j ∈ A, (D - (update ls (.inl i) (.running []) (.inl j)).loggedBlocks.card)
          ≤ A.card * D := by
        rw [← smul_eq_mul]
        exact Finset.sum_le_card_nsmul A _ D fun j _ => Nat.sub_le _ _
      have hnil : (Loc.running []).loggedBlocks.card = 0 := rfl
      rw [Finset.sum_insert hi, update_self, hnil]
      simp only [LOGSIZE, MAXOPBLOCKS] at hroom hD ⊢
      -- alone in a fresh group, or the admission test has counted ten blocks for each of at least two
      by_cases hz : s.log.outstanding = 0
      · have hlh := h.fresh hz (by simpa using hcom)
        rw [hcard, hz] at hold
        simp only [LogState.emit, hlh, length_nil]
        omega
      · have hmul : A.card * D ≤ s.log.outstanding * 9 := by
          rw [hcard]
          exact Nat.mul_le_mul_left _ (by omega)
        simp only [LogState.emit]
        omega
  · intro hz
    simp [LogState.emit] at hz

theorem Reserved.logged {d w : List Write} {b : UInt32} {f : Block → Block}
    (hw : (w.map Prod.fst).toFinset.card ≤ D) (hd : d ++ [(b, f)] <+: w)
    (hp : Protocol start LOGSIZE ls s) (h : Reserved D ls s)
    (hl : ls (.inl i) = .holding (d ++ [(b, f)]) b .modified) :
    wp (logWriteLocked i b) (fun _ s' => Reserved D
      (update ls (.inl i) (.holding (d ++ [(b, f)]) b .logged)) s') NoOverflow s := by
  simp only [logWriteLocked, wp_bind, wp_get, wp_ite, wp_throw, wp_set, NoOverflow, ne_eq,
    reduceCtorEq, not_false_eq_true, implies_true, true_and]
  intro _
  obtain ⟨A, hA, hsum⟩ := h.space
  have hi : i ∈ A := by
    rw [hA i, hl]
    exact trivial
  have hold : (ls (.inl i)).loggedBlocks = (d.map Prod.fst).toFinset := by
    simp [hl, Loc.loggedBlocks]
  have hnew : (Loc.holding (d ++ [(b, f)]) b .logged).loggedBlocks =
      insert b (d.map Prod.fst).toFinset := by
    ext a
    simp only [Loc.loggedBlocks, map_append, map_cons, map_nil, mem_toFinset,
      mem_append, mem_singleton, Finset.mem_insert]
    tauto
  have hother : ∀ j, j ≠ i → update ls (.inl i) (.holding (d ++ [(b, f)]) b .logged) (.inl j)
      = ls (.inl j) := by
    intro j hj
    rw [update_of_ne (by simpa using hj)]
  have hin : ∀ a ∈ (d.map Prod.fst).toFinset, a ∈ s.log.lh := by
    rw [← hold]
    exact h.inHeader i
  constructor
  · intro j a hj
    change a ∈ absorb s.log.lh b
    rw [mem_absorb]
    by_cases hji : j = i
    · rw [hji, update_self, hnew, Finset.mem_insert] at hj
      cases hj with
      | inl hab => exact Or.inr hab
      | inr hj => exact Or.inl (hin a hj)
    · rw [hother j hji] at hj
      exact Or.inl (h.inHeader j a hj)
  · refine ⟨A, fun j => ?_, ?_⟩
    · rw [hA j]
      by_cases hji : j = i
      · simp [hji, hl, Loc.IsOpen]
      · rw [hother j hji]
    · change (absorb s.log.lh b).length + _ ≤ _
      rw [← Finset.add_sum_erase A _ hi] at hsum ⊢
      rw [update_self, hnew]
      rw [hold] at hsum
      rw [Finset.sum_congr rfl fun j hj => by rw [hother j (Finset.ne_of_mem_erase hj)]]
      by_cases hb : b ∈ (d.map Prod.fst).toFinset
      · -- logged before: its slot is reused
        rw [absorb_of_mem (hin b hb), Finset.insert_eq_of_mem hb]
        exact hsum
      · have hle : (insert b (d.map Prod.fst).toFinset).card ≤ D := by
          refine le_trans (Finset.card_le_card fun a ha => ?_) hw
          rw [← hnew] at ha
          simp only [Loc.loggedBlocks, mem_toFinset] at ha ⊢
          exact (hd.map Prod.fst).subset ha
        rw [Finset.card_insert_of_notMem hb] at hle ⊢
        have := length_absorb_le s.log.lh b
        omega
  · intro hz
    have ho : (ls (.inl i)).IsOpen := by
      rw [hl]
      exact trivial
    have hpos := (hp.open_facts ho).1
    change s.log.outstanding = 0 at hz
    omega

theorem Reserved.leaveOp (h : Reserved D ls s) :
    wp (leaveOp i) (fun last s' => Reserved D
      (update ls (.inl i) (if last then .entered else .finished)) s') NoOverflow s := by
  simp only [Xv6.leaveOp, wp_bind, wp_get, wp_ite, wp_throw, wp_set, wp_pure, NoOverflow, ne_eq,
    Stop.panic.injEq]
  refine ⟨fun _ => by decide, fun _ => ⟨fun _ => ?_, fun hz => ?_⟩⟩
  · exact h.close i .entered id rfl rfl (by simp)
  · exact h.close i .finished id rfl rfl fun hz' => absurd hz' hz

theorem Reserved.clear {n : ℕ} (hp : Protocol start LOGSIZE ls s)
    (hl : ls (.inl i) = .commit (.installing n n)) :
    Reserved D (update ls (.inl i) (.commit .cleared)) (s.setLh []) := by
  have hin : (ls (.inl i)).InCommit := by
    rw [hl]
    exact trivial
  have hclosed := hp.no_open hin
  have hnone : ∀ j, (update ls (.inl i) (.commit .cleared) (.inl j)).loggedBlocks = ∅ := by
    intro j
    by_cases hji : j = i
    · rw [hji, update_self]
      rfl
    · rw [update_of_ne (by simpa using hji)]
      have := hclosed j
      cases hlj : ls (.inl j) with
      | running d => exact absurd (by rw [hlj]; exact trivial) this
      | holding d b k => exact absurd (by rw [hlj]; exact trivial) this
      | _ => rfl
  constructor
  · intro j b hb
    rw [hnone j] at hb
    cases hb
  · refine ⟨∅, fun j => ?_, by simp [LogState.setLh]⟩
    by_cases hji : j = i
    · rw [hji, update_self]
      simp [Loc.IsOpen]
    · rw [update_of_ne (by simpa using hji)]
      simp [hclosed j]
  · exact fun _ _ => rfl

variable {ws : ι → List Write}

theorem reserved_rules (hD : D < MAXOPBLOCKS) (hw : WithinBudget D ws) :
    StepRules ws (fun ls s => Protocol (κ := κ) start LOGSIZE ls s ∧ Reserved D ls s) (Reserved D)
      NoOverflow where
  beginOp i ls s hl h := h.2.beginOp hD h.1 hl
  fetch i ls s d b f hd hl h := by
    refine wp_bread.mpr ⟨fun _ => by simp [NoOverflow], fun _ => ?_⟩
    exact h.2.relabel _ _ (by simp [hl, Loc.IsOpen]) (by simp [hl, Loc.loggedBlocks]) rfl
  modify i ls s d b f hd hl h := by
    simp only [modifyBlock, wp_modify]
    exact h.2.relabel _ _ (by simp [hl, Loc.IsOpen]) (by simp [hl, Loc.loggedBlocks]) rfl
  test i ls s d b f hd hl h := by
    have hroom := h.2.length_le
    have hsize := h.1.size_eq
    simp only [LOGSIZE] at hroom hsize
    simp only [logWriteTest, wp_bind, wp_get, wp_ite, wp_throw, wp_pure, NoOverflow]
    refine ⟨fun hfull => ?_, fun _ => ⟨fun _ => by decide, fun _ => ?_⟩⟩
    · simp only [LOGSIZE] at hfull
      omega
    · rw [← hl, update_eq_self]
      exact h.2
  logged i ls s d b f hd hl h :=
    h.2.logged (hw i) hd h.1 hl
  release i ls s d b f hd hl h := by
    refine wp_brelse_frame (fun s' hlog _ => ?_) (by simp [NoOverflow])
    exact h.2.relabel _ _ (by simp [hl, Loc.IsOpen]) (by simp [hl, Loc.loggedBlocks]) hlog
  leaveOp i ls s hl h := h.2.leaveOp
  enter i ls s hl h := by
    simp only [lhCount, wp_bind, wp_get, wp_pure]
    exact h.2.close i _ id rfl rfl h.2.fresh
  countLog i ls s n hl h := h.1.count (.inl i) n (by rw [hl]; exact rfl)
  writeLog i ls s n j hj hl h := by
    apply wp_writeLogBlock _ _ rfl rfl (fun _ _ => by simp [NoOverflow])
    exact fun s' hs => h.2.relabel _ _ (by simp [hl, Loc.IsOpen]) (by simp [hl, Loc.loggedBlocks]) hs.log
  writeHead i ls s n hl h := by
    apply wp_writeHead (fun _ _ => by simp [NoOverflow])
    exact fun s' hs => h.2.relabel _ _ (by simp [hl, Loc.IsOpen]) (by simp [hl, Loc.loggedBlocks]) hs.log
  countInstall i ls s n hl h := h.1.count (.inl i) n (by rw [hl]; exact rfl)
  install i ls s n j hj hl h := by
    apply wp_installBlock _ _ rfl rfl (fun _ _ => by simp [NoOverflow])
    exact fun s' hs => h.2.relabel _ _ (by simp [hl, Loc.IsOpen]) (by simp [hl, Loc.loggedBlocks]) hs.log
  clear i ls s n hl h := by
    simp only [setLh, wp_modify]
    exact Reserved.clear h.1 hl
  erase i ls s hl h := by
    apply wp_writeHead (fun _ _ => by simp [NoOverflow])
    exact fun s' hs => h.2.relabel _ _ (by simp [hl, Loc.IsOpen]) (by simp [hl, Loc.loggedBlocks]) hs.log
  endCommit i ls s hl h := by
    simp only [endCommit, wp_modify]
    have hlh : s.log.lh = [] := h.1.gone (.inl i) (by rw [hl]; exact trivial)
    exact h.2.close i _ id rfl rfl fun _ _ => hlh
  read k ls s b hl h := by
    refine wp_bread.mpr ⟨fun _ => by simp [NoOverflow], fun _ => ?_⟩
    exact h.2.relabel _ _ (by simp [hl, Loc.IsOpen]) (by simp [hl, Loc.loggedBlocks]) rfl
  readDone k ls s b hl h := by
    refine wp_brelse_frame (fun s' hlog _ => ?_) (by simp [NoOverflow])
    exact h.2.relabel _ _ (by simp [hl, Loc.IsOpen]) (by simp [hl, Loc.loggedBlocks]) hlog
  recycle k ls s b hl h := by
    refine wp_recycle_frame (fun s' hlog _ => ?_) (by simp [NoOverflow])
    exact h.2.relabel _ _ (by simp [hl, Loc.IsOpen]) (by simp [hl, Loc.loggedBlocks]) hlog

end Reservation

/-- No operation within the budget `D` ever reaches the capacity panic, on the log of `mkfs`, with any
number of operations, in any interleaving. -/
def LogSpaceSuffices (D : ℕ) : Prop :=
  ∀ (ι κ : Type) [DecidableEq ι] [DecidableEq κ] (start : ℕ) (d : ℕ → Block) (ws : ι → List Write)
    (bg : κ → Background), WithinBudget D ws →
    ∀ c, LogReaches (system start LOGSIZE d ws bg) c →
      ∀ x, ¬ c.Stops (fun _ s => s) x (.panic "too big a transaction")

theorem logSpaceSuffices_of_lt (hD : D < MAXOPBLOCKS) : LogSpaceSuffices D := by
  intro ι κ _ _ start d ws bg hw c hr x hx
  obtain ⟨ls, hI, hs⟩ := system_safe (protocol_rules.and (reserved_rules hD hw))
    ⟨Protocol.boot d, Reserved.boot d⟩ hr
  obtain ⟨s', _, hno⟩ := Safe.stops hI (hs x) hx
  exact hno rfl

/-! ## Three operations that use all their blocks -/

structure LoggedWrite (s s' : LogState ι) (b : UInt32) (f : Block → Block) : Prop where
  disk : s'.disk = s.disk
  mem : s'.mem = Function.update s.mem b.toNat (f (s.mem b.toNat))
  busy : s'.busy = s.busy
  log : s'.log = { s.log with lh := absorb s.log.lh b }

theorem wp_loggedWrite {R : Unit → LogState ι → Prop} {E : Stop → LogState ι → Prop}
    {f : Block → Block} (hb : s.busy b.toNat = false)
    (hroom : s.log.lh.length < LOGSIZE ∧ s.log.lh.length < s.log.size - 1)
    (ho : 1 ≤ s.log.outstanding) (hR : ∀ s', LoggedWrite s s' b f → R () s') :
    wp (loggedWrite i b f).run R E s := by
  have hlen := length_absorb_le s.log.lh b
  simp only [loggedWrite, logWrite, Prog.run_bind, Prog.atom, Prog.run_act, Prog.run_ret, bind_pure,
    wp_bind, wp_bread]
  refine ⟨fun h => absurd h (by simp [hb]), fun _ => ?_⟩
  rw [wp_modifyBlock (u := ⟨s.mem b.toNat, s.pinned b.toNat, true⟩) (by simp [LogState.hold]),
    wp_logWriteTest (by simpa using hroom) (by simpa using ho),
    wp_logWriteLocked (u := ⟨f (s.mem b.toNat), s.pinned b.toNat, true⟩) (by simp)
      (by simpa using le_trans hlen hroom.1),
    wp_brelse (u := ⟨f (s.mem b.toNat), true, true⟩) (by simp) rfl]
  apply hR
  constructor
  · simp
  · simp
  · simp [hb]
  · simp

theorem loggedWrites_append (i : ι) (ws ws' : List Write) :
    loggedWrites i (ws ++ ws') = loggedWrites i ws >>= fun _ => loggedWrites i ws' := by
  induction ws with
  | nil => rfl
  | cons w ws ih =>
      obtain ⟨b, f⟩ := w
      simp only [cons_append, loggedWrites, ih, Prog.bind_assoc]

def ones : Block := fun _ => 1

structure Filling (n : ℕ) (l : List UInt32) (s : LogState ι) : Prop where
  disk : s.disk = fun _ => Buffer.zero
  log : s.log = ⟨2, LOGSIZE, n, false, l⟩
  busy : ∀ b, s.busy b = false
  mem : ∀ b ∈ l, s.mem b.toNat = ones

def fill (l : List UInt32) : List Write := l.map fun b => (b, fun _ => ones)

theorem wp_begin (hs : Filling n [] s) (hroom : (n + 1) * MAXOPBLOCKS ≤ LOGSIZE) :
    wp (Prog.atom (beginOp i)).run (fun _ s' => Filling (n + 1) [] s') (fun _ _ => False) s := by
  have hadmit : ¬ ([] : List UInt32).length + (n + 1) * MAXOPBLOCKS > LOGSIZE := by
    simpa using hroom
  simp only [Prog.atom, Prog.run_act, Prog.run_ret, bind_pure, beginOp, wp_bind, wp_get, hs.log,
    Bool.false_eq_true, if_false, if_neg hadmit, wp_set]
  constructor
  · exact hs.disk
  · rfl
  · exact hs.busy
  · intro b hb
    cases hb

theorem wp_fill {l : List UInt32} (more : List UInt32) (hs : Filling (n + 1) l s)
    (hnodup : (l ++ more).Nodup) (hroom : l.length + more.length < LOGSIZE) :
    wp (loggedWrites i (fill more)).run (fun _ s' => Filling (n + 1) (l ++ more) s') (fun _ _ => False) s := by
  induction more generalizing l s with
  | nil => simpa [fill, loggedWrites] using hs
  | cons b more ih =>
      have hb : b ∉ l := by
        intro hmem
        exact (nodup_append.mp hnodup).2.2 b hmem b (by simp) rfl
      have habsorb : absorb l b = l ++ [b] := if_neg hb
      simp only [length_cons] at hroom
      change wp (loggedWrite i b (fun _ => ones) >>= fun _ => loggedWrites i (fill more)).run _ _ s
      rw [Prog.run_bind, wp_bind]
      apply wp_loggedWrite (hs.busy _)
      · rw [hs.log]
        simp only
        omega
      · rw [hs.log]
        simp only
        omega
      · intro s' hw
        have hs' : Filling (n + 1) (l ++ [b]) s' := by
          constructor
          · rw [hw.disk, hs.disk]
          · rw [hw.log, hs.log, habsorb]
          · intro c
            rw [hw.busy]
            exact hs.busy c
          · intro c hc
            rw [hw.mem]
            by_cases hcb : c.toNat = b.toNat
            · rw [hcb, update_self]
            · rw [update_of_ne hcb]
              apply hs.mem
              cases mem_append.mp hc with
              | inl hc => exact hc
              | inr hc => exact absurd (by rw [mem_singleton.mp hc]) hcb
        have happ : l ++ b :: more = l ++ [b] ++ more := by simp
        rw [happ] at hnodup ⊢
        apply ih hs' hnodup
        rw [length_append, length_singleton]
        omega

instance neZero_three : NeZero 3 := ⟨by decide⟩

/-- Ten blocks for each of three operations. -/
def fillBlocks (i : Fin 3) : List UInt32 :=
  (List.range MAXOPBLOCKS).map fun j => UInt32.ofNat (100 + MAXOPBLOCKS * i + j)

/-- The `mkfs` layout on an empty disk, and three operations that use all they may. -/
def filling : Config (Fin 3 ⊕ Empty) Stop (LogState (Fin 3)) :=
  system 2 LOGSIZE (fun _ => Buffer.zero) (fun i => fill (fillBlocks i)) Empty.elim

theorem withinBudget_fill : WithinBudget MAXOPBLOCKS fun i => fill (fillBlocks i) := by
  intro i
  calc ((fill (fillBlocks i)).map Prod.fst).toFinset.card
      ≤ ((fill (fillBlocks i)).map Prod.fst).length := toFinset_card_le _
    _ = MAXOPBLOCKS := by simp [fill, fillBlocks]

theorem filling_start : Filling 0 [] filling.state := by
  constructor
  · rfl
  · rfl
  · exact fun _ => rfl
  · intro b hb
    cases hb

def lastBlock (i : Fin 3) : UInt32 := UInt32.ofNat (100 + MAXOPBLOCKS * i + 9)

theorem fillBlocks_eq (i : Fin 3) : fillBlocks i = (fillBlocks i).take 9 ++ [lastBlock i] := rfl

/-- All but the last block of two operations: the log has room for one more. -/
def almostFull : List UInt32 := fillBlocks 0 ++ (fillBlocks 1).take 9 ++ (fillBlocks 2).take 9

theorem logReaches_of_run [DecidableEq ι] [DecidableEq κ] {α : Type}
    {c : Config (ι ⊕ κ) Stop (LogState ι)} {x : ι ⊕ κ} {p : LogProg ι α} {k : α → LogProg ι Unit}
    {Q : α → LogState ι → Prop} (ht : c.thread x = p >>= k)
    (h : wp p.run Q (fun _ _ => False) c.state) :
    ∃ a c', LogReaches c c' ∧ Q a c'.state ∧ c'.thread x = k a ∧
      ∀ y, y ≠ x → c'.thread y = c.thread y :=
  Reaches.of_run ht h

theorem filling_reaches : ∃ c, LogReaches filling c ∧ Filling 3 almostFull c.state ∧
    c.thread (.inl 0) = endOp 0 ∧
    c.thread (.inl 1) = (loggedWrites 1 (fill [lastBlock 1]) >>= fun _ => endOp 1) ∧
    c.thread (.inl 2) = (loggedWrites 2 (fill [lastBlock 2]) >>= fun _ => endOp 2) := by
  have hsplit : ∀ i : Fin 3, (loggedWrites i (fill (fillBlocks i)) >>= fun _ => endOp i) =
      (loggedWrites i (fill ((fillBlocks i).take 9)) >>= fun _ =>
        loggedWrites i (fill [lastBlock i]) >>= fun _ => endOp i) := by
    intro i
    nth_rewrite 1 [fillBlocks_eq i]
    rw [fill, map_append, loggedWrites_append, Prog.bind_assoc]
    rfl
  obtain ⟨_, c₁, r₁, s₁, t₁, o₁⟩ := logReaches_of_run (x := Sum.inl 0) (c := filling)
    (p := Prog.atom (beginOp 0)) rfl (wp_begin filling_start (by decide))
  obtain ⟨_, c₂, r₂, s₂, t₂, o₂⟩ := logReaches_of_run (x := Sum.inl 1) (c := c₁)
    (p := Prog.atom (beginOp 1)) (o₁ _ (by decide)) (wp_begin s₁ (by decide))
  obtain ⟨_, c₃, r₃, s₃, t₃, o₃⟩ := logReaches_of_run (x := Sum.inl 2) (c := c₂)
    (p := Prog.atom (beginOp 2)) ((o₂ _ (by decide)).trans (o₁ _ (by decide)))
    (wp_begin s₂ (by decide))
  rw [← o₃ _ (by decide)] at t₂
  rw [← o₂ _ (by decide), ← o₃ _ (by decide)] at t₁
  obtain ⟨_, c₄, r₄, s₄, t₄, o₄⟩ := logReaches_of_run t₁
    (wp_fill (fillBlocks 0) s₃ (by decide) (by decide))
  rw [← o₄ _ (by decide)] at t₂ t₃
  obtain ⟨_, c₅, r₅, s₅, t₅, o₅⟩ := logReaches_of_run (t₂.trans (hsplit 1))
    (wp_fill ((fillBlocks 1).take 9) s₄ (by decide) (by decide))
  rw [← o₅ _ (by decide)] at t₃ t₄
  obtain ⟨_, c₆, r₆, s₆, t₆, o₆⟩ := logReaches_of_run (t₃.trans (hsplit 2))
    (wp_fill ((fillBlocks 2).take 9) s₅ (by decide) (by decide))
  rw [← o₆ _ (by decide)] at t₄ t₅
  exact ⟨c₆, ((((r₁.trans r₂).trans r₃).trans r₄).trans r₅).trans r₆, s₆, t₄, t₅, t₆⟩

theorem filling_stops : ∃ c, LogReaches filling c ∧
    c.Stops (fun _ s => s) (.inl 2) (.panic "too big a transaction") := by
  obtain ⟨c, r, s, _, t₁, t₂⟩ := filling_reaches
  -- the second operation takes the last slot
  obtain ⟨_, c₁, r₁, s₁, _, o₁⟩ := logReaches_of_run t₁
    (wp_fill [lastBlock 1] s (by decide) (by decide))
  rw [← o₁ _ (by decide)] at t₂
  obtain ⟨_, c₂, r₂, s₂, t₂, _⟩ := logReaches_of_run (Q := fun _ s' => s'.log = c₁.state.log)
    (p := Prog.atom (bread (lastBlock 2).toNat)) t₂ (by
      simp only [Prog.atom, Prog.run_act, Prog.run_ret, bind_pure, wp_bread]
      exact ⟨fun h => absurd h (by simp [s₁.busy]), fun _ => rfl⟩)
  obtain ⟨_, c₃, r₃, s₃, t₃, _⟩ := logReaches_of_run (Q := fun _ s' => s'.log = c₂.state.log)
    (p := Prog.atom (modifyBlock 2 (lastBlock 2) fun _ => ones)) t₂ rfl
  have hlog : c₃.state.log = ⟨2, LOGSIZE, 3, false, almostFull ++ [lastBlock 1]⟩ := by
    rw [s₃, s₂, s₁.log]
  have hfull : c₃.state.log.lh.length ≥ LOGSIZE ∨
      c₃.state.log.lh.length ≥ c₃.state.log.size - 1 := by
    rw [hlog]
    exact Or.inr (by decide)
  refine ⟨c₃, ((r.trans r₁).trans r₂).trans r₃, _, logWriteTest, _, c₃.state, t₃, ?_⟩
  change (if _ then _ else _ : LogM (Fin 3) Unit) c₃.state = _
  rw [if_pos hfull]
  rfl

/-- Three operations, each with its full allowance of ten blocks on the `mkfs` log, run into the
capacity panic: the thirtieth `log_write` finds 29 blocks in a log of 29. -/
theorem log_space_exhausted : WithinBudget MAXOPBLOCKS (fun i : Fin 3 => fill (fillBlocks i)) ∧
    ∃ c, LogReaches filling c ∧ c.Stops (fun _ s => s) (.inl 2) (.panic "too big a transaction") :=
  ⟨withinBudget_fill, filling_stops⟩

/-- The reservation of `begin_op` is sufficient exactly for operations that stay one block below
`MAXOPBLOCKS`. -/
theorem logSpaceSuffices_iff (D : ℕ) : LogSpaceSuffices D ↔ D ≤ MAXOPBLOCKS - 1 := by
  constructor
  · intro h
    by_contra hD
    obtain ⟨c, hr, hstop⟩ := filling_stops
    exact h (Fin 3) Empty 2 _ _ _ (fun i => le_trans (withinBudget_fill i) (by omega)) c hr _ hstop
  · intro hD
    apply logSpaceSuffices_of_lt
    simp only [MAXOPBLOCKS] at hD ⊢
    omega

end Xv6
