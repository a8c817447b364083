import Xv6.LogRecovery

/-!
# Group commit: threads and their control locations

Any number of operations and of background users of the buffer cache run on one log. A thread is
annotated with its control location; `StepRules` lists, atomic step by atomic step, how the location
moves, and `system_safe` concludes that an invariant with these rules holds along every
interleaving. `Protocol` is the part of the invariant that concerns admission to the log.
-/

namespace Xv6

open Resumption ByteLayout Safe

/-- One block modification. -/
abbrev Write := UInt32 × (Block → Block)

/-- Users of the buffer cache outside transactions: readers, and `bget` recycling a buffer. -/
inductive Background
  | read (b : ℕ)
  | recycle (b : ℕ)

inductive Stage
  | copying (n j : ℕ)
  | installing (n j : ℕ)
  | cleared
  | erased

inductive Holding
  | fetched
  | modified
  | logged

/-- Where a thread is. `done` lists the modifications an operation has made so far. -/
inductive Loc
  | before
  | running (done : List Write)
  | holding (done : List Write) (b : UInt32) (h : Holding)
  | entered
  | commit (st : Stage)
  | finished
  | idle
  | reading (b : ℕ)

variable {ι κ : Type}

def Background.prog : Background → LogProg ι Unit
  | .read b => do
    let _ ← Prog.atom (bread b)
    Prog.atom (brelse b)
  | .recycle b => Prog.atom (Xv6.recycle b)

/-- All operations and background users, on a machine that has just recovered. -/
def system (start size : ℕ) (d : ℕ → Block) (ws : ι → List Write) (bg : κ → Background) :
    Config (ι ⊕ κ) Stop (LogState ι) where
  state := boot start size d
  thread := Sum.elim (fun i => operation i (ws i)) (fun k => (bg k).prog)

variable [DecidableEq ι] [DecidableEq κ]

/-- Interleavings of the system: no thread is added, and switching threads costs nothing. -/
abbrev LogReaches (c c' : Config (ι ⊕ κ) Stop (LogState ι)) : Prop :=
  Reaches (fun _ s => s) (fun _ _ _ => False) c c'

/-- What every atomic step of every thread makes of `P`, with the location it leads to. -/
structure StepRules (ws : ι → List Write) (P Q : (ι ⊕ κ → Loc) → LogState ι → Prop)
    (E : Stop → LogState ι → Prop) : Prop where
  beginOp : ∀ i ls s, ls (.inl i) = .before → P ls s →
    wp (beginOp i) (fun _ s' => Q (Function.update ls (.inl i) (.running [])) s') E s
  fetch : ∀ i ls s d b f, d ++ [(b, f)] <+: ws i → ls (.inl i) = .running d → P ls s →
    wp (bread b.toNat) (fun _ s' => Q (Function.update ls (.inl i) (.holding d b .fetched)) s') E s
  modify : ∀ i ls s d b f, d ++ [(b, f)] <+: ws i → ls (.inl i) = .holding d b .fetched → P ls s →
    wp (modifyBlock i b f)
      (fun _ s' => Q (Function.update ls (.inl i) (.holding (d ++ [(b, f)]) b .modified)) s') E s
  test : ∀ i ls s d b f, d ++ [(b, f)] <+: ws i →
    ls (.inl i) = .holding (d ++ [(b, f)]) b .modified → P ls s →
    wp logWriteTest
      (fun _ s' => Q (Function.update ls (.inl i) (.holding (d ++ [(b, f)]) b .modified)) s') E s
  logged : ∀ i ls s d b f, d ++ [(b, f)] <+: ws i →
    ls (.inl i) = .holding (d ++ [(b, f)]) b .modified → P ls s →
    wp (logWriteLocked i b)
      (fun _ s' => Q (Function.update ls (.inl i) (.holding (d ++ [(b, f)]) b .logged)) s') E s
  release : ∀ i ls s d b f, d ++ [(b, f)] <+: ws i →
    ls (.inl i) = .holding (d ++ [(b, f)]) b .logged → P ls s →
    wp (brelse b.toNat)
      (fun _ s' => Q (Function.update ls (.inl i) (.running (d ++ [(b, f)]))) s') E s
  leaveOp : ∀ i ls s, ls (.inl i) = .running (ws i) → P ls s →
    wp (leaveOp i) (fun last s' =>
      Q (Function.update ls (.inl i) (if last then .entered else .finished)) s') E s
  enter : ∀ i ls s, ls (.inl i) = .entered → P ls s →
    wp lhCount (fun n s' => Q (Function.update ls (.inl i)
      (.commit (if n = 0 then .erased else .copying n 0))) s') E s
  countLog : ∀ i ls s n, ls (.inl i) = .commit (.copying n 0) → P ls s → s.log.lh.length = n
  writeLog : ∀ i ls s n j, j < n → ls (.inl i) = .commit (.copying n j) → P ls s →
    wp (writeLogBlock j)
      (fun _ s' => Q (Function.update ls (.inl i) (.commit (.copying n (j + 1)))) s') E s
  writeHead : ∀ i ls s n, ls (.inl i) = .commit (.copying n n) → P ls s →
    wp writeHead
      (fun _ s' => Q (Function.update ls (.inl i) (.commit (.installing n 0))) s') E s
  countInstall : ∀ i ls s n, ls (.inl i) = .commit (.installing n 0) → P ls s →
    s.log.lh.length = n
  install : ∀ i ls s n j, j < n → ls (.inl i) = .commit (.installing n j) → P ls s →
    wp (installBlock j)
      (fun _ s' => Q (Function.update ls (.inl i) (.commit (.installing n (j + 1)))) s') E s
  clear : ∀ i ls s n, ls (.inl i) = .commit (.installing n n) → P ls s →
    wp (setLh []) (fun _ s' => Q (Function.update ls (.inl i) (.commit .cleared)) s') E s
  erase : ∀ i ls s, ls (.inl i) = .commit .cleared → P ls s →
    wp Xv6.writeHead (fun _ s' => Q (Function.update ls (.inl i) (.commit .erased)) s') E s
  endCommit : ∀ i ls s, ls (.inl i) = .commit .erased → P ls s →
    wp endCommit (fun _ s' => Q (Function.update ls (.inl i) .finished) s') E s
  read : ∀ k ls s b, ls (.inr k) = .idle → P ls s →
    wp (bread b) (fun _ s' => Q (Function.update ls (.inr k) (.reading b)) s') E s
  readDone : ∀ k ls s b, ls (.inr k) = .reading b → P ls s →
    wp (brelse b) (fun _ s' => Q (Function.update ls (.inr k) .idle) s') E s
  recycle : ∀ k ls s b, ls (.inr k) = .idle → P ls s →
    wp (Xv6.recycle b) (fun _ s' => Q (Function.update ls (.inr k) .idle) s') E s

section Safety

variable {ws : ι → List Write} {bg : κ → Background} {I J : (ι ⊕ κ → Loc) → LogState ι → Prop}
  {E E' : Stop → LogState ι → Prop}

section

variable (R : StepRules ws I I E)
include R

/-- An invariant on top of another: its rules may use both. -/
theorem StepRules.and (S : StepRules ws (fun ls s => I ls s ∧ J ls s) J E') :
    StepRules ws (fun ls s => I ls s ∧ J ls s) (fun ls s => I ls s ∧ J ls s)
      (fun e s => E e s ∧ E' e s) where
  beginOp i ls s hl h := wp_and (R.beginOp i ls s hl h.1) (S.beginOp i ls s hl h)
  fetch i ls s d b f hd hl h := wp_and (R.fetch i ls s d b f hd hl h.1) (S.fetch i ls s d b f hd hl h)
  modify i ls s d b f hd hl h :=
    wp_and (R.modify i ls s d b f hd hl h.1) (S.modify i ls s d b f hd hl h)
  test i ls s d b f hd hl h := wp_and (R.test i ls s d b f hd hl h.1) (S.test i ls s d b f hd hl h)
  logged i ls s d b f hd hl h :=
    wp_and (R.logged i ls s d b f hd hl h.1) (S.logged i ls s d b f hd hl h)
  release i ls s d b f hd hl h :=
    wp_and (R.release i ls s d b f hd hl h.1) (S.release i ls s d b f hd hl h)
  leaveOp i ls s hl h := wp_and (R.leaveOp i ls s hl h.1) (S.leaveOp i ls s hl h)
  enter i ls s hl h := wp_and (R.enter i ls s hl h.1) (S.enter i ls s hl h)
  countLog i ls s n hl h := R.countLog i ls s n hl h.1
  writeLog i ls s n j hj hl h := wp_and (R.writeLog i ls s n j hj hl h.1) (S.writeLog i ls s n j hj hl h)
  writeHead i ls s n hl h := wp_and (R.writeHead i ls s n hl h.1) (S.writeHead i ls s n hl h)
  countInstall i ls s n hl h := R.countInstall i ls s n hl h.1
  install i ls s n j hj hl h := wp_and (R.install i ls s n j hj hl h.1) (S.install i ls s n j hj hl h)
  clear i ls s n hl h := wp_and (R.clear i ls s n hl h.1) (S.clear i ls s n hl h)
  erase i ls s hl h := wp_and (R.erase i ls s hl h.1) (S.erase i ls s hl h)
  endCommit i ls s hl h := wp_and (R.endCommit i ls s hl h.1) (S.endCommit i ls s hl h)
  read k ls s b hl h := wp_and (R.read k ls s b hl h.1) (S.read k ls s b hl h)
  readDone k ls s b hl h := wp_and (R.readDone k ls s b hl h.1) (S.readDone k ls s b hl h)
  recycle k ls s b hl h := wp_and (R.recycle k ls s b hl h.1) (S.recycle k ls s b hl h)

theorem loggedWrites_safe (i : ι) (d : List Write) (rest : List Write) (h : d ++ rest = ws i) :
    Safe (fun _ s => s) I E (.inl i) (fun _ l => l = .running (ws i)) (loggedWrites i rest)
      (.running d) := by
  induction rest generalizing d with
  | nil =>
      rw [List.append_nil] at h
      rw [h]
      exact rfl
  | cons w rest ih =>
      obtain ⟨b, f⟩ := w
      have hp : d ++ [(b, f)] <+: ws i := ⟨rest, by rw [← h, List.append_assoc]; rfl⟩
      refine atom_bind (g := fun _ => .holding d b .fetched)
        (fun ls s => R.fetch i ls s d b f hp) fun _ => ?_
      refine atom_bind (g := fun _ => .holding (d ++ [(b, f)]) b .modified)
        (fun ls s => R.modify i ls s d b f hp) fun _ => ?_
      refine atom_bind (g := fun _ => .holding (d ++ [(b, f)]) b .modified)
        (fun ls s => R.test i ls s d b f hp) fun _ => ?_
      refine atom_bind (g := fun _ => .holding (d ++ [(b, f)]) b .logged)
        (fun ls s => R.logged i ls s d b f hp) fun _ => ?_
      refine atom_bind (g := fun _ => .running (d ++ [(b, f)]))
        (fun ls s => R.release i ls s d b f hp) fun _ => ?_
      exact ih (d ++ [(b, f)]) (by rw [← h, List.append_assoc]; rfl)

theorem commit_safe (i : ι) :
    Safe (fun _ s => s) I E (.inl i) (fun _ l => l = .commit .erased) commit .entered := by
  refine Safe.atom_bind (g := fun n => .commit (if n = 0 then .erased else .copying n 0))
    (fun ls s => R.enter i ls s) fun n => ?_
  by_cases hn : n = 0
  · subst hn
    exact rfl
  simp only [if_neg hn, gt_iff_lt, if_pos (Nat.pos_of_ne_zero hn)]
  apply Safe.bind
  -- `write_log` reads the block count a second time
  intro ls s hl hI
  have hcount := R.countLog i ls s n hl hI
  simp only [lhCount, wp_bind, wp_get, wp_pure, hcount, Prog.bind]
  refine ⟨.commit (.copying n 0), by rwa [← hl, Function.update_eq_self], ?_⟩
  refine Safe.upTo (J := fun j l => l = Loc.commit (.copying n j)) ?_ ?_ rfl
  · rintro j _ - hj rfl
    exact Safe.atom (fun ls s => R.writeLog i ls s n j (by omega)) fun _ => rfl
  rintro _ rfl
  rw [Nat.zero_add]
  refine Safe.atom_bind (g := fun _ => .commit (.installing n 0))
    (fun ls s => R.writeHead i ls s n) fun _ => ?_
  apply Safe.bind
  intro ls s hl hI
  have hcount := R.countInstall i ls s n hl hI
  simp only [lhCount, wp_bind, wp_get, wp_pure, hcount, Prog.bind]
  refine ⟨.commit (.installing n 0), by rwa [← hl, Function.update_eq_self], ?_⟩
  refine Safe.upTo (J := fun j l => l = Loc.commit (.installing n j)) ?_ ?_ rfl
  · rintro j _ - hj rfl
    exact Safe.atom (fun ls s => R.install i ls s n j (by omega)) fun _ => rfl
  rintro _ rfl
  rw [Nat.zero_add]
  refine Safe.atom_bind (g := fun _ => .commit .cleared) (fun ls s => R.clear i ls s n) fun _ => ?_
  exact Safe.atom (fun ls s => R.erase i ls s) fun _ => rfl

theorem operation_safe (i : ι) :
    Safe (fun _ s => s) I E (.inl i) (fun _ l => l = .finished) (operation i (ws i)) .before := by
  refine atom_bind (g := fun _ => .running []) (fun ls s => R.beginOp i ls s) fun _ => ?_
  refine bind (mono (loggedWrites_safe R i [] (ws i) rfl) ?_)
  rintro _ l rfl
  refine atom_bind (g := fun last => if last then .entered else .finished)
    (fun ls s => R.leaveOp i ls s) fun last => ?_
  cases last with
  | false => exact rfl
  | true =>
      refine bind (mono (commit_safe R i) ?_)
      rintro _ l rfl
      exact atom (fun ls s => R.endCommit i ls s) fun _ => rfl

theorem background_safe (k : κ) (g : Background) :
    Safe (fun _ s => s) I E (.inr k) (fun _ l => l = .idle) (g.prog : LogProg ι Unit) .idle := by
  cases g with
  | read b =>
      refine atom_bind (g := fun _ => .reading b) (fun ls s => R.read k ls s b) fun _ => ?_
      exact atom (fun ls s => R.readDone k ls s b) fun _ => rfl
  | recycle b => exact atom (fun ls s => R.recycle k ls s b) fun _ => rfl

/-- An invariant with step rules holds in every configuration the system reaches, and no step stops
with an error outside `E`. -/
theorem system_safe {start size : ℕ} {d : ℕ → Block}
    (h0 : I (Sum.elim (fun _ => .before) fun _ => .idle) (boot start size d))
    {c : Config (ι ⊕ κ) Stop (LogState ι)} (hr : LogReaches (system start size d ws bg) c) :
    ∃ ls, I ls c.state ∧ ∀ x,
      Safe (fun _ s => s) I E x (fun _ l => l = .finished ∨ l = .idle) (c.thread x) (ls x) := by
  apply reaches (Q := fun _ _ l => l = Loc.finished ∨ l = Loc.idle) _ hr
  · refine ⟨_, h0, fun x => ?_⟩
    cases x with
    | inl i => exact mono (operation_safe R i) fun _ _ h => Or.inl h
    | inr k => exact mono (background_safe R k (bg k)) fun _ _ h => Or.inr h
  · intro i p ls s _ _ h
    exact h.elim

end

end Safety

end Xv6
