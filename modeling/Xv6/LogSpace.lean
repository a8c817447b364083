import Xv6.LogProtocol

/-!
# Admission to the log and the space left in it

`groupBlocks` reads off the history which distinct blocks the current commit group has logged. The
in-memory header lists exactly these while an operation is open, so the capacity test of
`log_write` fails exactly on a group that has filled the log.
-/

namespace Xv6

open Resumption ByteLayout Function Finset LogState

variable {ι κ : Type}

def groupStep (lh : List UInt32) : LogEvent ι → List UInt32
  | .logWrite _ b => absorb lh b
  | .commitDone => []
  | _ => lh

/-- The distinct blocks logged since the last commit, in the order of their first `log_write`. -/
def groupBlocks (trace : List (LogEvent ι)) : List UInt32 := trace.foldl groupStep []

@[simp] theorem groupBlocks_append (tr : List (LogEvent ι)) (e : LogEvent ι) :
    groupBlocks (tr ++ [e]) = groupStep (groupBlocks tr) e := by
  simp [groupBlocks]

namespace Loc

def IsOpen : Loc → Prop
  | running _ | holding _ _ _ => True
  | _ => False

def InCommit : Loc → Prop
  | entered | commit _ => True
  | _ => False

def Gone : Loc → Prop
  | commit .cleared | commit .erased => True
  | _ => False

def Counts (n : ℕ) : Loc → Prop
  | commit (.copying m _) | commit (.installing m _) => m = n
  | _ => False

theorem Counts.inCommit {n : ℕ} {l : Loc} (h : l.Counts n) : l.InCommit := by
  cases l with
  | commit st => exact trivial
  | entered => exact trivial
  | _ => exact h

theorem Gone.inCommit {l : Loc} (h : l.Gone) : l.InCommit := by
  cases l with
  | commit st => exact trivial
  | entered => exact trivial
  | _ => exact h

end Loc

/-- Admission to the log. `outstanding` counts the open operations, at most one thread commits and
only while none is open, and the header lists the blocks of the group until it is cleared. -/
structure Protocol (start size : ℕ) (ls : ι ⊕ κ → Loc) (s : LogState ι) : Prop where
  start_eq : s.log.start = start
  size_eq : s.log.size = size
  opened : ∃ A : Finset ι, (∀ i, i ∈ A ↔ (ls (.inl i)).IsOpen) ∧ A.card = s.log.outstanding
  committer : ∀ x, (ls x).InCommit → s.log.committing = true ∧ s.log.outstanding = 0
  unique : ∀ x y, (ls x).InCommit → (ls y).InCommit → x = y
  committing : s.log.committing = true → ∃ x, (ls x).InCommit
  header : (∀ x, ¬ (ls x).Gone) → s.log.lh = groupBlocks s.trace
  gone : ∀ x, (ls x).Gone → s.log.lh = []
  count : ∀ x n, (ls x).Counts n → s.log.lh.length = n

/-- The capacity panic of `log_write` happens only in a group that has filled the log. -/
def FullGroup (size : ℕ) (e : Stop) (s : LogState ι) : Prop :=
  e = .panic "too big a transaction" →
    LOGSIZE ≤ (groupBlocks s.trace).length ∨ size - 1 ≤ (groupBlocks s.trace).length

namespace LogState

variable (s : LogState ι) (e : LogEvent ι) (lh : List UInt32)

@[simp] theorem emit_disk : (s.emit e).disk = s.disk := rfl

@[simp] theorem emit_bcache : (s.emit e).bcache = s.bcache := rfl

@[simp] theorem emit_log : (s.emit e).log = s.log := rfl

@[simp] theorem emit_mem : (s.emit e).mem = s.mem := rfl

@[simp] theorem emit_busy : (s.emit e).busy = s.busy := rfl

@[simp] theorem emit_pinned : (s.emit e).pinned = s.pinned := rfl

@[simp] theorem setLh_disk : (s.setLh lh).disk = s.disk := rfl

@[simp] theorem setLh_bcache : (s.setLh lh).bcache = s.bcache := rfl

@[simp] theorem setLh_trace : (s.setLh lh).trace = s.trace := rfl

@[simp] theorem setLh_log : (s.setLh lh).log = { s.log with lh := lh } := rfl

@[simp] theorem setLh_mem : (s.setLh lh).mem = s.mem := rfl

@[simp] theorem setLh_busy : (s.setLh lh).busy = s.busy := rfl

@[simp] theorem setLh_pinned : (s.setLh lh).pinned = s.pinned := rfl

end LogState

section Users

variable {R : Unit → LogState ι → Prop} {E : Stop → LogState ι → Prop} {s : LogState ι} {i : ι}
  {b : UInt32} {f : Block → Block} {u : Buf}

theorem wp_modifyBlock (h : s.bcache b.toNat = some u) :
    wp (modifyBlock i b f) R E s ↔
      R () ((s.setBuf b.toNat (some { u with data := f u.data })).emit (.modify i b f)) := by
  simp [modifyBlock, mapBuf, h]

theorem wp_logWriteTest (hroom : s.log.lh.length < LOGSIZE ∧ s.log.lh.length < s.log.size - 1)
    (ho : 1 ≤ s.log.outstanding) : wp logWriteTest R E s ↔ R () s := by
  have hfull : ¬ (s.log.lh.length ≥ LOGSIZE ∨ s.log.lh.length ≥ s.log.size - 1) := by omega
  have hopen : ¬ s.log.outstanding < 1 := by omega
  simp only [logWriteTest, wp_bind, wp_get, if_neg hfull, if_neg hopen, wp_pure]

theorem wp_logWriteLocked (h : s.bcache b.toNat = some u)
    (hlen : (absorb s.log.lh b).length ≤ LOGSIZE) :
    wp (logWriteLocked i b) R E s ↔
      R () (((s.setBuf b.toNat (some { u with dirty := true })).setLh
        (absorb s.log.lh b)).emit (.logWrite i b)) := by
  simp only [logWriteLocked, wp_bind, wp_get, if_neg (not_lt.mpr hlen), wp_set, mapBuf, h,
    Option.map_some]

end Users

section Frame

variable {R : Unit → LogState ι → Prop} {E : Stop → LogState ι → Prop} {s : LogState ι} {b : ℕ}

theorem wp_brelse_frame (hR : ∀ s', s'.log = s.log → s'.trace = s.trace → R () s')
    (hE : E (.panic "brelse") s) : wp (brelse b) R E s := by
  cases h : s.bcache b with
  | none => simpa [brelse, h] using hE
  | some u =>
      cases hb : u.busy with
      | true =>
          rw [wp_brelse h hb]
          exact hR _ rfl rfl
      | false => simpa [brelse, h, hb] using hE

theorem wp_recycle_frame (hR : ∀ s', s'.log = s.log → s'.trace = s.trace → R () s')
    (hE : E .sleep s) : wp (recycle b) R E s := by
  cases h : s.bcache b with
  | none => simpa [recycle, h] using hE
  | some u =>
      by_cases hb : u.busy = true ∨ u.dirty = true
      · simpa [recycle, h, hb] using hE
      · have hset : R () (s.setBuf b none) := hR _ rfl rfl
        simpa [recycle, h, hb] using hset

end Frame

variable {start size : ℕ} {ls : ι ⊕ κ → Loc} {s s' : LogState ι}

theorem Protocol.boot (d : ℕ → Block) :
    Protocol start size (Sum.elim (fun _ : ι => .before) fun _ : κ => .idle) (boot start size d) := by
  constructor
  · rfl
  · rfl
  · exact ⟨∅, fun i => by simp [Loc.IsOpen], rfl⟩
  · rintro (x | x) hx <;> exact hx.elim
  · rintro (x | x) y hx <;> exact hx.elim
  · intro h
    cases h
  · intro _
    rfl
  · rintro (x | x) hx <;> exact hx.elim
  · rintro (x | x) n hx <;> exact hx.elim

section

variable (h : Protocol start size ls s)
include h

theorem Protocol.open_facts {i : ι} (ho : (ls (.inl i)).IsOpen) :
    0 < s.log.outstanding ∧ s.log.committing = false ∧ s.log.lh = groupBlocks s.trace := by
  obtain ⟨A, hA, hcard⟩ := h.opened
  have hpos : 0 < s.log.outstanding := by
    rw [← hcard]
    exact card_pos.mpr ⟨i, (hA i).mpr ho⟩
  have hnone : ∀ x, ¬ (ls x).InCommit := by
    intro x hx
    have := (h.committer x hx).2
    omega
  refine ⟨hpos, ?_, ?_⟩
  · by_contra hc
    obtain ⟨x, hx⟩ := h.committing (by simpa using hc)
    exact hnone x hx
  · apply h.header
    intro x hg
    exact hnone x hg.inCommit

theorem Protocol.no_commit {i : ι} (ho : (ls (.inl i)).IsOpen) (x : ι ⊕ κ) : ¬ (ls x).InCommit := by
  intro hx
  have hpos := (h.open_facts ho).1
  have := (h.committer x hx).2
  omega

theorem Protocol.no_open {x : ι ⊕ κ} (hx : (ls x).InCommit) (i : ι) : ¬ (ls (.inl i)).IsOpen :=
  fun ho => h.no_commit ho x hx

theorem Protocol.header_of_commit {i : ι} {l : Loc}
    (hl : ls (.inl i) = l) (hc : l.InCommit) (hg : ¬ l.Gone) : s.log.lh = groupBlocks s.trace := by
  apply h.header
  intro x hx
  have hxi : x = .inl i := h.unique x (.inl i) hx.inCommit (by rwa [hl])
  rw [hxi, hl] at hx
  exact hg hx

end

variable [DecidableEq ι] [DecidableEq κ]

theorem Protocol.relabel (h : Protocol start size ls s) (x : ι ⊕ κ) (l : Loc)
    (ho : l.IsOpen ↔ (ls x).IsOpen) (hc : l.InCommit ↔ (ls x).InCommit)
    (hg : l.Gone ↔ (ls x).Gone) (hn : ∀ n, l.Counts n → (ls x).Counts n) (hlog : s'.log = s.log)
    (htr : groupBlocks s'.trace = groupBlocks s.trace) :
    Protocol start size (update ls x l) s' := by
  have hopen : ∀ y, (update ls x l y).IsOpen ↔ (ls y).IsOpen := by
    intro y
    by_cases hy : y = x
    · rw [hy, update_self, ho]
    · rw [update_of_ne hy]
  have hcommit : ∀ y, (update ls x l y).InCommit ↔ (ls y).InCommit := by
    intro y
    by_cases hy : y = x
    · rw [hy, update_self, hc]
    · rw [update_of_ne hy]
  have hgone : ∀ y, (update ls x l y).Gone ↔ (ls y).Gone := by
    intro y
    by_cases hy : y = x
    · rw [hy, update_self, hg]
    · rw [update_of_ne hy]
  obtain ⟨A, hA, hcard⟩ := h.opened
  constructor
  · rw [hlog, h.start_eq]
  · rw [hlog, h.size_eq]
  · exact ⟨A, fun i => (hA i).trans (hopen _).symm, by rw [hlog, hcard]⟩
  · intro y hy
    rw [hlog]
    exact h.committer y ((hcommit y).mp hy)
  · intro y z hy hz
    exact h.unique y z ((hcommit y).mp hy) ((hcommit z).mp hz)
  · intro hcom
    rw [hlog] at hcom
    obtain ⟨y, hy⟩ := h.committing hcom
    exact ⟨y, (hcommit y).mpr hy⟩
  · intro hy
    rw [hlog, htr]
    exact h.header fun y hgy => hy y ((hgone y).mpr hgy)
  · intro y hy
    rw [hlog]
    exact h.gone y ((hgone y).mp hy)
  · intro y n hy
    rw [hlog]
    by_cases hyx : y = x
    · rw [hyx, update_self] at hy
      exact h.count x n (hn n hy)
    · rw [update_of_ne hyx] at hy
      exact h.count y n hy

theorem Protocol.recommit (h : Protocol start size ls s) (x : ι ⊕ κ) (l : Loc)
    (hx : (ls x).InCommit) (hxo : ¬ (ls x).IsOpen) (hl : l.InCommit) (hlo : ¬ l.IsOpen)
    (hlog : s'.log = { s.log with lh := s'.log.lh })
    (hheader : ¬ l.Gone → s'.log.lh = groupBlocks s'.trace) (hgone : l.Gone → s'.log.lh = [])
    (hcount : ∀ n, l.Counts n → s'.log.lh.length = n) : Protocol start size (update ls x l) s' := by
  have hothers : ∀ y, y ≠ x → ¬ (ls y).InCommit := fun y hy hc => hy (h.unique y x hc hx)
  have hcom := h.committer x hx
  obtain ⟨A, hA, hcard⟩ := h.opened
  constructor
  · rw [hlog]
    exact h.start_eq
  · rw [hlog]
    exact h.size_eq
  · refine ⟨A, fun i => ?_, by rw [hlog]; exact hcard⟩
    rw [hA i]
    by_cases hi : .inl i = x
    · rw [hi, update_self]
      exact iff_of_false hxo hlo
    · rw [update_of_ne hi]
  · intro y _
    rw [hlog]
    exact hcom
  · intro y z hy hz
    have hin : ∀ w, (update ls x l w).InCommit → w = x := by
      intro w hw
      by_contra hne
      rw [update_of_ne hne] at hw
      exact hothers w hne hw
    rw [hin y hy, hin z hz]
  · intro _
    exact ⟨x, by rwa [update_self]⟩
  · intro hng
    apply hheader
    have hx' := hng x
    rwa [update_self] at hx'
  · intro y hy
    by_cases hne : y = x
    · rw [hne, update_self] at hy
      exact hgone hy
    · rw [update_of_ne hne] at hy
      exact absurd hy.inCommit (hothers y hne)
  · intro y n hy
    by_cases hne : y = x
    · rw [hne, update_self] at hy
      exact hcount n hy
    · rw [update_of_ne hne] at hy
      exact absurd hy.inCommit (hothers y hne)

section Rules

variable {ws : ι → List Write}

variable {i : ι} {d : List Write}

section

variable (h : Protocol start size ls s)
include h

theorem Protocol.beginOp (hl : ls (.inl i) = .before) :
    wp (beginOp i) (fun _ s' => Protocol start size (update ls (.inl i) (.running [])) s')
      (FullGroup size) s := by
  simp only [Xv6.beginOp, wp_bind, wp_get, wp_ite, wp_throw, wp_set, FullGroup, reduceCtorEq,
    false_implies, implies_true, true_and]
  intro hc _
  obtain ⟨A, hA, hcard⟩ := h.opened
  have hi : i ∉ A := by
    rw [hA i, hl]
    exact id
  have hnone : ∀ x, ¬ (ls x).InCommit := fun x hx => hc (h.committer x hx).1
  have hnone' : ∀ x, ¬ (update ls (.inl i) (.running []) x).InCommit := by
    intro x
    by_cases hx : x = .inl i
    · rw [hx, update_self]
      exact id
    · rw [update_of_ne hx]
      exact hnone x
  constructor
  · exact h.start_eq
  · exact h.size_eq
  · refine ⟨insert i A, fun j => ?_, by rw [card_insert_of_notMem hi, hcard]; rfl⟩
    by_cases hj : j = i
    · simp [hj, Loc.IsOpen]
    · rw [mem_insert, hA j, update_of_ne (by simpa using hj)]
      simp [hj]
  · exact fun x hx => absurd hx (hnone' x)
  · exact fun x y hx => absurd hx (hnone' x)
  · exact fun hcom => absurd hcom hc
  · intro _
    have hh := h.header fun x hg => hnone x hg.inCommit
    simpa [emit, groupStep] using hh
  · exact fun x hx => absurd hx.inCommit (hnone' x)
  · exact fun x n hx => absurd hx.inCommit (hnone' x)

theorem Protocol.leaveOp (hl : ls (.inl i) = .running d) :
    wp (leaveOp i) (fun last s' => Protocol start size
      (update ls (.inl i) (if last then .entered else .finished)) s')
      (FullGroup size) s := by
  have ho : (ls (.inl i)).IsOpen := by
    rw [hl]
    exact trivial
  obtain ⟨hpos, hcom, hlh⟩ := h.open_facts ho
  obtain ⟨A, hA, hcard⟩ := h.opened
  have hi : i ∈ A := (hA i).mpr ho
  have hnone := h.no_commit ho
  have hcard' : (A.erase i).card = s.log.outstanding - 1 := by
    rw [card_erase_of_mem hi, hcard]
  have hmem (l : Loc) (hlo : ¬ l.IsOpen) (j : ι) :
      j ∈ A.erase i ↔ (update ls (.inl i) l (.inl j)).IsOpen := by
    by_cases hj : j = i
    · rw [hj, update_self]
      simp [hlo]
    · rw [update_of_ne (by simpa using hj), ← hA j]
      simp [hj]
  simp only [Xv6.leaveOp, wp_bind, wp_get, hcom, Bool.false_eq_true, if_false, wp_ite, wp_set,
    wp_pure, if_true]
  refine ⟨fun hf => hf.elim, fun _ => ⟨fun hz => ?_, fun _ => ?_⟩⟩
  · -- the last operation leaves: this thread commits
    have hin : ∀ x, (update ls (.inl i) .entered x).InCommit → x = .inl i := by
      intro x hx
      by_contra hne
      rw [update_of_ne hne] at hx
      exact hnone x hx
    constructor
    · exact h.start_eq
    · exact h.size_eq
    · exact ⟨A.erase i, hmem _ id, by rw [hcard', hz]; rfl⟩
    · exact fun _ _ => ⟨rfl, rfl⟩
    · intro x y hx hy
      rw [hin x hx, hin y hy]
    · exact fun _ => ⟨.inl i, by rw [update_self]; exact trivial⟩
    · intro _
      simpa [emit, groupStep] using hlh
    · intro x hx
      have hxi := hin x hx.inCommit
      rw [hxi, update_self] at hx
      exact hx.elim
    · intro x n hx
      have hxi := hin x hx.inCommit
      rw [hxi, update_self] at hx
      exact hx.elim
  · have hnone' : ∀ x, ¬ (update ls (.inl i) .finished x).InCommit := by
      intro x
      by_cases hx : x = .inl i
      · rw [hx, update_self]
        exact id
      · rw [update_of_ne hx]
        exact hnone x
    constructor
    · exact h.start_eq
    · exact h.size_eq
    · exact ⟨A.erase i, hmem _ id, hcard'⟩
    · exact fun x hx => absurd hx (hnone' x)
    · exact fun x y hx => absurd hx (hnone' x)
    · simp
    · intro _
      simpa [emit, groupStep] using hlh
    · exact fun x hx => absurd hx.inCommit (hnone' x)
    · exact fun x n hx => absurd hx.inCommit (hnone' x)

theorem Protocol.logged {b : UInt32} (hl : ls (.inl i) = .holding d b .modified) :
    wp (logWriteLocked i b) (fun _ s' => Protocol start size
      (update ls (.inl i) (.holding d b .logged)) s') (FullGroup size) s := by
  have ho : (ls (.inl i)).IsOpen := by
    rw [hl]
    exact trivial
  obtain ⟨hpos, hcom, hlh⟩ := h.open_facts ho
  -- relabel first, then change the header and the history together
  have h' : Protocol start size (update ls (.inl i) (.holding d b .logged)) s :=
    h.relabel (.inl i) (.holding d b .logged) (by simp [hl, Loc.IsOpen])
      (by simp [hl, Loc.InCommit]) (by simp [hl, Loc.Gone]) (fun n hn => hn.elim) rfl rfl
  have hnone' : ∀ x, ¬ (update ls (.inl i) (.holding d b .logged) x).InCommit := by
    intro x hx
    have := (h'.committer x hx).2
    omega
  simp only [logWriteLocked, wp_bind, wp_get, wp_ite, wp_throw, wp_set, FullGroup, reduceCtorEq,
    false_implies, implies_true, true_and]
  intro _
  constructor
  · exact h'.start_eq
  · exact h'.size_eq
  · exact h'.opened
  · exact h'.committer
  · exact h'.unique
  · exact h'.committing
  · intro _
    simp [setLh, mapBuf, emit, setBuf, groupStep, hlh]
  · exact fun x hx => absurd hx.inCommit (hnone' x)
  · exact fun x n hx => absurd hx.inCommit (hnone' x)

theorem Protocol.wrote {b : ℕ} {v : Block} {st st' : Stage} (hl : ls (.inl i) = .commit st)
    (hw : Wrote s s' b v) (hg : (Loc.commit st').Gone ↔ (Loc.commit st).Gone)
    (hn : ∀ n, (Loc.commit st').Counts n → (Loc.commit st).Counts n) :
    Protocol start size (update ls (.inl i) (.commit st')) s' := by
  apply h.relabel
  · simp [hl, Loc.IsOpen]
  · simp [hl, Loc.InCommit]
  · rwa [hl]
  · rwa [hl]
  · exact hw.log
  · simp [hw.trace, groupStep]

theorem Protocol.endCommit (hl : ls (.inl i) = .commit .erased) :
    wp endCommit (fun _ s' => Protocol start size (update ls (.inl i) .finished) s')
      (FullGroup size) s := by
  have hin : (ls (.inl i)).InCommit := by
    rw [hl]
    exact trivial
  have hcom := h.committer _ hin
  have hlh : s.log.lh = [] := h.gone (.inl i) (by rw [hl]; exact trivial)
  have hnone : ∀ x, ¬ (update ls (.inl i) .finished x).InCommit := by
    intro x hx
    by_cases hxi : x = .inl i
    · rw [hxi, update_self] at hx
      exact hx
    · rw [update_of_ne hxi] at hx
      exact hxi (h.unique _ _ hx hin)
  obtain ⟨A, hA, hcard⟩ := h.opened
  simp only [Xv6.endCommit, wp_modify]
  constructor
  · exact h.start_eq
  · exact h.size_eq
  · refine ⟨A, fun j => ?_, hcard⟩
    rw [hA j]
    by_cases hj : j = i
    · rw [hj, update_self, hl]
      exact Iff.rfl
    · rw [update_of_ne (by simpa using hj)]
  · exact fun x hx => absurd hx (hnone x)
  · exact fun x y hx => absurd hx (hnone x)
  · simp
  · intro _
    simpa [emit, groupStep] using hlh
  · exact fun x hx => absurd hx.inCommit (hnone x)
  · exact fun x n hx => absurd hx.inCommit (hnone x)

end

theorem protocol_rules :
    StepRules ws (Protocol (κ := κ) start size) (Protocol start size) (FullGroup size) where
  beginOp i ls s hl h := h.beginOp hl
  fetch i ls s d b f _ hl h := by
    refine wp_bread.mpr ⟨fun _ => by simp [FullGroup], fun _ => ?_⟩
    exact h.relabel _ _ (by simp [hl, Loc.IsOpen]) (by simp [hl, Loc.InCommit])
      (by simp [hl, Loc.Gone]) (fun n hn => hn.elim) rfl rfl
  modify i ls s d b f _ hl h := by
    simp only [modifyBlock, wp_modify]
    exact h.relabel _ _ (by simp [hl, Loc.IsOpen]) (by simp [hl, Loc.InCommit])
      (by simp [hl, Loc.Gone]) (fun n hn => hn.elim) rfl (by simp [groupStep, mapBuf])
  test i ls s d b f _ hl h := by
    have ho : (ls (.inl i)).IsOpen := by
      rw [hl]
      exact trivial
    obtain ⟨hpos, _, hlh⟩ := h.open_facts ho
    simp only [logWriteTest, wp_bind, wp_get, wp_ite, wp_throw, wp_pure, FullGroup]
    refine ⟨fun hfull _ => ?_, fun _ => ⟨fun hlt => by omega, fun _ => ?_⟩⟩
    · rwa [hlh, h.size_eq] at hfull
    · rwa [← hl, update_eq_self]
  logged i ls s d b f _ hl h := h.logged hl
  release i ls s d b f _ hl h := by
    refine wp_brelse_frame (fun s' hlog htr => ?_) (by simp [FullGroup])
    exact h.relabel _ _ (by simp [hl, Loc.IsOpen]) (by simp [hl, Loc.InCommit])
      (by simp [hl, Loc.Gone]) (fun n hn => hn.elim) hlog (by rw [htr])
  leaveOp i ls s hl h := h.leaveOp hl
  enter i ls s hl h := by
    simp only [lhCount, wp_bind, wp_get, wp_pure]
    have hlh := h.header_of_commit hl trivial id
    apply h.recommit
    · rw [hl]
      exact trivial
    · rw [hl]
      exact id
    · exact trivial
    · exact id
    · rfl
    · exact fun _ => hlh
    · intro hg
      split_ifs at hg with hz
      · exact List.length_eq_zero_iff.mp hz
      · exact hg.elim
    · intro n hn
      split_ifs at hn with hz
      · exact hn.elim
      · exact hn
  countLog i ls s n hl h := h.count (.inl i) n (by rw [hl]; exact rfl)
  writeLog i ls s n j _ hl h := by
    apply wp_writeLogBlock _ _ rfl rfl (fun _ _ => by simp [FullGroup])
    exact fun s' hw => h.wrote hl hw Iff.rfl fun _ hn => hn
  writeHead i ls s n hl h := by
    apply wp_writeHead (fun _ _ => by simp [FullGroup])
    exact fun s' hw => h.wrote hl hw Iff.rfl fun _ hn => hn
  countInstall i ls s n hl h := h.count (.inl i) n (by rw [hl]; exact rfl)
  install i ls s n j _ hl h := by
    apply wp_installBlock _ _ rfl rfl (fun _ _ => by simp [FullGroup])
    exact fun s' hw => h.wrote hl hw Iff.rfl fun _ hn => hn
  clear i ls s n hl h := by
    simp only [setLh, wp_modify]
    apply h.recommit
    · rw [hl]
      exact trivial
    · rw [hl]
      exact id
    · exact trivial
    · exact id
    · rfl
    · exact fun hg => absurd trivial hg
    · exact fun _ => rfl
    · exact fun n hn => hn.elim
  erase i ls s hl h := by
    apply wp_writeHead (fun _ _ => by simp [FullGroup])
    exact fun s' hw => h.wrote hl hw Iff.rfl fun _ hn => hn
  endCommit i ls s hl h := h.endCommit hl
  read k ls s b hl h := by
    refine wp_bread.mpr ⟨fun _ => by simp [FullGroup], fun _ => ?_⟩
    exact h.relabel _ _ (by simp [hl, Loc.IsOpen]) (by simp [hl, Loc.InCommit])
      (by simp [hl, Loc.Gone]) (fun n hn => hn.elim) rfl rfl
  readDone k ls s b hl h := by
    refine wp_brelse_frame (fun s' hlog htr => ?_) (by simp [FullGroup])
    exact h.relabel _ _ (by simp [hl, Loc.IsOpen]) (by simp [hl, Loc.InCommit])
      (by simp [hl, Loc.Gone]) (fun n hn => hn.elim) hlog (by rw [htr])
  recycle k ls s b hl h := by
    refine wp_recycle_frame (fun s' hlog htr => ?_) (by simp [FullGroup])
    exact h.relabel _ _ (by simp [hl]) (by simp [hl]) (by simp [hl]) (fun n hn => hn.elim) hlog
      (by rw [htr])

end Rules

end Xv6
