import Xv6.LogBudget
import Xv6.Outline

/-!
# begin_op, log_write and end_op with their lock

log.c as code for the monitor whose lock is `log.lock`: the sleeping and waking of `begin_op` and
`end_op`, the unlocked tests of `log_write`, and `commit`, which runs without the lock. A process logs
blocks only between `begin_op` and `end_op`. The array of `struct logheader` is not bounded here: what
keeps it within its size is another matter.
-/

namespace Xv6.LogLock

open Monitor Finset

/-- The log, the processes that are in an operation, and the one that commits. -/
structure World (ι : Type) where
  log : Log
  ops : Finset ι
  committer : Option ι

inductive Loc
  | out
  | beginAcquire
  | beginTest
  | beginSleep
  | beginRelease
  | op
  | writeTest (b : UInt32)
  | writeTrans (b : UInt32)
  | writeAcquire (b : UInt32)
  | writeAbsorb (b : UInt32)
  | writeRelease
  | endAcquire
  | endLeave
  | endWakeup
  | endRelease (doCommit : Bool)
  | commitTest
  | writeLog (tail : ℕ)
  | writeHead
  | installTrans (tail : ℕ)
  | clear
  | eraseHead
  | doneAcquire
  | doneSet
  | doneWakeup
  | doneRelease
  | panic (msg : String)

variable {ι : Type} [DecidableEq ι]

/-- The test for admission in `begin_op`. -/
def Crowded (log : Log) : Prop := log.lh.length + (log.outstanding + 1) * MAXOPBLOCKS > LOGSIZE

instance (log : Log) : Decidable (Crowded log) :=
  inferInstanceAs (Decidable (log.lh.length + (log.outstanding + 1) * MAXOPBLOCKS > LOGSIZE))

/-- One round of the loop in `begin_op`. -/
def beginTest (i : ι) (d : World ι) : World ι × Loc :=
  if d.log.committing = true then (d, .beginSleep)
  else if Crowded d.log then (d, .beginSleep)
  else
    ({ d with
        log := { d.log with outstanding := d.log.outstanding + 1 }
        ops := insert i d.ops }, .beginRelease)

/-- `end_op` under the lock, up to `wakeup`. -/
def endLeave (i : ι) (d : World ι) : World ι × Loc :=
  if d.log.committing = true then
    ({ d with
        log := { d.log with outstanding := d.log.outstanding - 1 }
        ops := d.ops.erase i }, .panic "log.committing")
  else if d.log.outstanding - 1 = 0 then
    ({ d with
        log := { d.log with outstanding := d.log.outstanding - 1, committing := true }
        ops := d.ops.erase i
        committer := some i }, .endRelease true)
  else
    ({ d with
        log := { d.log with outstanding := d.log.outstanding - 1 }
        ops := d.ops.erase i }, .endWakeup)

def machine : Machine ι Unit (World ι) Loc where
  code i l := match l with
    | .out | .op | .panic _ => .idle
    | .beginAcquire => .acquire .beginTest
    | .beginTest => .step fun _ d => beginTest i d
    | .beginSleep => .sleep () .beginTest
    | .beginRelease => .release .op
    | .writeTest b => .step fun _ d => (d,
        if d.log.lh.length ≥ LOGSIZE ∨ d.log.lh.length ≥ d.log.size - 1 then
          .panic "too big a transaction"
        else .writeTrans b)
    | .writeTrans b => .step fun _ d => (d,
        if d.log.outstanding < 1 then .panic "log_write outside of trans" else .writeAcquire b)
    | .writeAcquire b => .acquire (.writeAbsorb b)
    | .writeAbsorb b => .step fun _ d =>
        ({ d with log := { d.log with lh := absorb d.log.lh b } }, .writeRelease)
    | .writeRelease => .release .op
    | .endAcquire => .acquire .endLeave
    | .endLeave => .step fun _ d => endLeave i d
    | .endWakeup => .wakeup () (.endRelease false)
    | .endRelease doCommit => .release (if doCommit then .commitTest else .out)
    | .commitTest => .step fun _ d => (d, if d.log.lh.length > 0 then .writeLog 0 else .doneAcquire)
    | .writeLog tail => .step fun _ d =>
        (d, if tail < d.log.lh.length then .writeLog (tail + 1) else .writeHead)
    | .writeHead => .step fun _ d => (d, .installTrans 0)
    | .installTrans tail => .step fun _ d =>
        (d, if tail < d.log.lh.length then .installTrans (tail + 1) else .clear)
    | .clear => .step fun _ d => ({ d with log := { d.log with lh := [] } }, .eraseHead)
    | .eraseHead => .step fun _ d => (d, .doneAcquire)
    | .doneAcquire => .acquire .doneSet
    | .doneSet => .step fun _ d =>
        ({ d with log := { d.log with committing := false }, committer := none }, .doneWakeup)
    | .doneWakeup => .wakeup () .doneRelease
    | .doneRelease => .release .out
  menu _ _ l l' := match l, l' with
    | .out, .beginAcquire | .op, .writeTest _ | .op, .endAcquire => True
    | _, _ => False
  env _ _ := False

/-- After `initlog`: recovery has emptied the log. -/
def initlog (start size : ℕ) : World ι := ⟨⟨start, size, 0, false, []⟩, ∅, none⟩

abbrev Runs (procs : List ι) (start size : ℕ) (f : Fine ι Unit (World ι) Loc) : Prop :=
  FineReaches machine procs (Fine.start (initlog start size) fun _ => .out) f

/-- Between the return of `begin_op` and the first store of `end_op`. -/
def InOp : Loc → Prop
  | .op | .writeTest _ | .writeTrans _ | .writeAcquire _ | .writeAbsorb _ | .writeRelease => True
  | .endAcquire | .endLeave => True
  | _ => False

/-! ## The outline -/

def held : Loc → Bool
  | .beginTest | .beginSleep | .beginRelease | .writeAbsorb _ | .writeRelease | .endLeave => true
  | .endWakeup | .endRelease _ | .doneSet | .doneWakeup | .doneRelease => true
  | _ => false

structure Inv (d : World ι) : Prop where
  outstanding : d.log.outstanding = d.ops.card
  committing : d.log.committing = d.committer.isSome
  alone : ∀ i, d.committer = some i → d.ops = ∅
  empty : d.ops = ∅ → d.committer = none → d.log.lh = []
  nodup : d.log.lh.Nodup

def Reason (d : World ι) : Prop := d.log.committing = true ∨ Crowded d.log

def Asserts (i : ι) (l : Loc) (d : World ι) : Prop :=
  match l with
  | .out | .beginAcquire | .beginTest => i ∉ d.ops
  | .beginSleep => i ∉ d.ops ∧ Reason d
  | .beginRelease => i ∈ d.ops
  | .op | .writeTest _ | .writeTrans _ | .writeAcquire _ | .writeAbsorb _ | .writeRelease => i ∈ d.ops
  | .endAcquire | .endLeave => i ∈ d.ops
  | .endWakeup | .doneWakeup | .doneRelease => i ∉ d.ops
  | .endRelease doCommit => if doCommit then d.committer = some i else i ∉ d.ops
  | .commitTest | .writeLog _ | .writeHead | .installTrans _ | .clear => d.committer = some i
  | .eraseHead | .doneAcquire | .doneSet => d.committer = some i ∧ d.log.lh = []
  | .panic msg => msg ≠ "log.committing"

def Waits (i : ι) (l : Loc) (d : World ι) : Prop := l = .beginTest ∧ i ∉ d.ops

def Owes : Loc → Prop
  | .endWakeup | .doneWakeup => True
  | _ => False

variable {d d' : World ι} {i j : ι} {l l' : Loc}

structure Rely (i : ι) (d d' : World ι) : Prop where
  ops : i ∈ d'.ops ↔ i ∈ d.ops
  committer : d.committer = some i → d'.committer = some i ∧ (d.log.lh = [] → d'.log.lh = [])

theorem Asserts.rely (h : Asserts i l d) (hr : Rely i d d')
    (hreason : held l = true → Reason d → Reason d') : Asserts i l d' := by
  cases l with
  | out | beginAcquire | beginTest | endWakeup | doneWakeup | doneRelease =>
    exact fun hi => h (hr.ops.mp hi)
  | beginSleep => exact ⟨fun hi => h.1 (hr.ops.mp hi), hreason rfl h.2⟩
  | beginRelease | op | writeTest b | writeTrans b | writeAcquire b | writeAbsorb b | writeRelease
  | endAcquire | endLeave => exact hr.ops.mpr h
  | endRelease doCommit =>
    cases doCommit with
    | true => exact (hr.committer h).1
    | false => exact fun hi => h (hr.ops.mp hi)
  | commitTest | writeLog tail | writeHead | installTrans tail | clear => exact (hr.committer h).1
  | eraseHead | doneAcquire | doneSet =>
    exact ⟨(hr.committer h.1).1, (hr.committer h.1).2 h.2⟩
  | panic msg => exact h

theorem Inv.not_committing (h : Inv d) (hi : i ∈ d.ops) : d.committer = none := by
  cases hc : d.committer with
  | none => rfl
  | some k =>
    rw [h.alone k hc] at hi
    cases hi

theorem Inv.committing_eq_false (h : Inv d) (hi : i ∈ d.ops) : d.log.committing = false := by
  rw [h.committing, h.not_committing hi]
  rfl

structure StepOk (i : ι) (l : Loc) (d : World ι) (r : World ι × Loc) : Prop where
  inv : Inv r.1
  run : Asserts i r.2 r.1
  locked : held r.2 = held l
  owes : Owes l → Owes r.2
  reason : Reason d → Reason r.1 ∨ Owes r.2
  rely : ∀ j, j ≠ i → Rely j d r.1
  outside : held l = false → Reason d → Reason r.1

theorem Rely.refl (i : ι) (d : World ι) : Rely i d d := ⟨.rfl, fun hi => ⟨hi, id⟩⟩

theorem StepOk.same (h : Inv d) (hrun : Asserts i l' d) (hheld : held l' = held l) (hl : ¬ Owes l) :
    StepOk i l d (d, l') where
  inv := h
  run := hrun
  locked := hheld
  owes ho := absurd ho hl
  reason hr := .inl hr
  rely j _ := .refl j d
  outside _ hr := hr

theorem stepOk_beginTest (h : Inv d) (hi : i ∉ d.ops) : StepOk i .beginTest d (beginTest i d) := by
  rw [beginTest]
  split
  · rename_i hc
    exact .same h ⟨hi, .inl hc⟩ rfl nofun
  rename_i hc
  split
  · rename_i hcrowd
    exact .same h ⟨hi, .inr hcrowd⟩ rfl nofun
  rename_i hcrowd
  have hnone : d.committer = none := by
    cases hk : d.committer with
    | none => rfl
    | some k => exact absurd (by rw [h.committing, hk]; rfl) hc
  refine ⟨⟨?_, h.committing, fun k hk => ?_, fun he => ?_, h.nodup⟩, mem_insert_self .., rfl, nofun,
    fun hr => ?_, fun j hj => ⟨?_, fun hk => ?_⟩, nofun⟩
  · simp only [card_insert_of_notMem hi, h.outstanding]
  · simp only [hnone] at hk
    cases hk
  · exact absurd he (insert_ne_empty i d.ops)
  · rcases hr with hr | hr
    · exact absurd hr hc
    · exact absurd hr hcrowd
  · simp only [mem_insert, hj, false_or]
  · rw [hnone] at hk
    cases hk

theorem stepOk_endLeave (h : Inv d) (hi : i ∈ d.ops) : StepOk i .endLeave d (endLeave i d) := by
  have hnone := h.not_committing hi
  have hcard := card_erase_of_mem hi
  have hrely : ∀ j, j ≠ i → (j ∈ d.ops.erase i ↔ j ∈ d.ops) := by
    intro j hj
    simp only [mem_erase, ne_eq, hj, not_false_eq_true, true_and]
  have hnot : i ∉ d.ops.erase i := notMem_erase i d.ops
  rw [endLeave, if_neg (by rw [h.committing_eq_false hi]; nofun)]
  split
  · -- the last operation: this process commits
    rename_i hlast
    refine ⟨⟨?_, rfl, fun k _ => ?_, nofun, h.nodup⟩, rfl, rfl, nofun, fun _ => .inl (.inl rfl),
      fun j hj => ⟨hrely j hj, fun hk => ?_⟩, nofun⟩
    · simp only [hcard, h.outstanding]
    · rw [h.outstanding] at hlast
      exact card_eq_zero.mp (hcard.trans hlast)
    · rw [hnone] at hk
      cases hk
  · rename_i hmore
    refine ⟨⟨?_, h.committing, fun k hk => ?_, fun he => ?_, h.nodup⟩, hnot, rfl, nofun,
      fun _ => .inr trivial, fun j hj => ⟨hrely j hj, fun hk => ?_⟩, nofun⟩
    · simp only [hcard, h.outstanding]
    · simp only [hnone] at hk
      cases hk
    · have hzero := card_eq_zero.mpr he
      rw [hcard, ← h.outstanding] at hzero
      exact absurd hzero hmore
    · rw [hnone] at hk
      cases hk

theorem nodup_absorb {lh : List UInt32} (h : lh.Nodup) (b : UInt32) : (absorb lh b).Nodup := by
  unfold absorb
  split
  · exact h
  · rename_i hb
    exact List.Nodup.append h (List.nodup_singleton b) (by simpa using hb)

theorem length_le_absorb (lh : List UInt32) (b : UInt32) : lh.length ≤ (absorb lh b).length := by
  unfold absorb
  split
  · exact le_rfl
  · simp

theorem stepOk_writeAbsorb (h : Inv d) (b : UInt32) (hi : i ∈ d.ops) :
    StepOk i (.writeAbsorb b) d
      ({ d with log := { d.log with lh := absorb d.log.lh b } }, .writeRelease) := by
  refine ⟨⟨h.outstanding, h.committing, h.alone, fun he => ?_, nodup_absorb h.nodup b⟩, hi, rfl, nofun,
    fun hr => ?_, fun j _ => ⟨.rfl, fun hk => ?_⟩, nofun⟩
  · rw [he] at hi
    cases hi
  · rcases hr with hr | hr
    · exact .inl (.inl hr)
    · have hle := length_le_absorb d.log.lh b
      refine .inl (.inr ?_)
      simp only [Crowded] at hr ⊢
      omega
  · rw [h.not_committing hi] at hk
    cases hk

theorem stepOk_clear (h : Inv d) (hi : d.committer = some i) :
    StepOk i .clear d ({ d with log := { d.log with lh := [] } }, .eraseHead) := by
  have hc : d.log.committing = true := by rw [h.committing, hi]; rfl
  exact ⟨⟨h.outstanding, h.committing, h.alone, fun _ _ => rfl, List.nodup_nil⟩, ⟨hi, rfl⟩, rfl, nofun,
    fun _ => .inl (.inl hc), fun j _ => ⟨.rfl, fun hk => ⟨hk, fun _ => rfl⟩⟩, fun _ _ => .inl hc⟩

theorem stepOk_doneSet (h : Inv d) (hi : d.committer = some i ∧ d.log.lh = []) :
    StepOk i .doneSet d
      ({ d with log := { d.log with committing := false }, committer := none }, .doneWakeup) := by
  have hops : d.ops = ∅ := h.alone i hi.1
  refine ⟨⟨h.outstanding, rfl, nofun, fun _ _ => hi.2, h.nodup⟩, ?_, rfl, nofun, fun _ => .inr trivial,
    fun j hj => ⟨.rfl, fun hk => ?_⟩, nofun⟩
  · simp only [Asserts, hops, notMem_empty, not_false_eq_true]
  · rw [hi.1] at hk
    exact absurd (Option.some.inj hk).symm hj

theorem stepOk {f : Bool → World ι → World ι × Loc} (killed : Bool) (hc : machine.code i l = .step f)
    (h : Inv d) (hi : Asserts i l d) : StepOk i l d (f killed d) := by
  cases l with
  | beginTest =>
    cases hc
    exact stepOk_beginTest h hi
  | writeTest b =>
    cases hc
    dsimp only
    split
    · exact .same h (by decide : "too big a transaction" ≠ "log.committing") rfl nofun
    · exact .same h hi rfl nofun
  | writeTrans b =>
    cases hc
    dsimp only
    split
    · exact .same h (by decide : "log_write outside of trans" ≠ "log.committing") rfl nofun
    · exact .same h hi rfl nofun
  | writeAbsorb b =>
    cases hc
    exact stepOk_writeAbsorb h b hi
  | endLeave =>
    cases hc
    exact stepOk_endLeave h hi
  | commitTest =>
    cases hc
    dsimp only
    split
    · exact .same h hi rfl nofun
    · rename_i hn
      exact .same h ⟨hi, List.length_eq_zero_iff.mp (Nat.eq_zero_of_not_pos hn)⟩ rfl nofun
  | writeLog tail | installTrans tail =>
    cases hc
    dsimp only
    split
    · exact .same h hi rfl nofun
    · exact .same h hi rfl nofun
  | writeHead =>
    cases hc
    exact .same h hi rfl nofun
  | clear =>
    cases hc
    exact stepOk_clear h hi
  | eraseHead =>
    cases hc
    exact .same h hi rfl nofun
  | doneSet =>
    cases hc
    exact stepOk_doneSet h hi
  | _ => cases hc

def outline : Outline (machine (ι := ι)) where
  held := held
  inv := Inv
  free _ := True
  run := Asserts
  wait := Waits
  reason _ := Reason
  owes l _ := Owes l
  call {i l l' d} hc hmenu _ hl := by
    cases l with
    | out =>
      cases l' with
      | beginAcquire => exact ⟨rfl, hl, nofun⟩
      | _ => cases hmenu
    | op =>
      cases l' with
      | writeTest b => exact ⟨rfl, hl, nofun⟩
      | endAcquire => exact ⟨rfl, hl, nofun⟩
      | _ => cases hmenu
    | panic msg => cases hmenu
    | _ => cases hc
  env he := he.elim
  acquire {i l l' d} hc _ _ hl := by
    cases l with
    | beginAcquire | writeAcquire b | endAcquire | doneAcquire =>
      cases hc
      exact ⟨rfl, hl, nofun⟩
    | _ => cases hc
  release {i l l' d} hc _ hl := by
    cases l with
    | beginRelease | writeRelease | doneRelease =>
      cases hc
      exact ⟨rfl, trivial, hl, nofun⟩
    | endRelease doCommit =>
      cases hc
      cases doCommit with
      | true => exact ⟨rfl, trivial, hl, nofun⟩
      | false => exact ⟨rfl, trivial, hl, nofun⟩
    | _ => cases hc
  step k hc h hl := by
    have hok := stepOk k hc h hl
    exact ⟨hok.inv, fun _ => id, hok.run, hok.locked, fun _ ho => .inr (hok.owes ho), fun _ => hok.reason⟩
  stable_run {i j l l' f d} k hij hc h hj hexcl hl := by
    have hok := stepOk k hc h hj
    exact hl.rely (hok.rely i hij) fun hheld =>
      hok.outside (Bool.eq_false_iff.mpr (hexcl hheld))
  stable_wait k hij hc h hj hl :=
    ⟨hl.1, fun hi => hl.2 (((stepOk k hc h hj).rely _ hij).ops.mp hi)⟩
  sleep {i l l' c d} hc _ hl := by
    cases l with
    | beginSleep =>
      cases hc
      exact ⟨rfl, trivial, ⟨rfl, hl.1⟩, hl.2, nofun⟩
    | _ => cases hc
  wakeup {i l l' c d} hc _ hl := by
    cases l with
    | endWakeup | doneWakeup =>
      cases hc
      exact ⟨rfl, hl, fun _ hne => absurd rfl hne⟩
    | _ => cases hc
  resume _ _ hw := by
    obtain ⟨rfl, hi⟩ := hw
    exact hi

theorem inv_initlog (start size : ℕ) : Inv (initlog start size : World ι) :=
  ⟨rfl, rfl, nofun, fun _ _ => rfl, List.nodup_nil⟩

variable {procs : List ι} {start size : ℕ} {f : Fine ι Unit (World ι) Loc}

theorem Runs.outline (hprocs : ∀ i, i ∈ procs) (hrun : Runs procs start size f) :
    LogLock.outline.FineHolds f := by
  have hstart : LogLock.outline.Holds (State.start (initlog start size) fun _ : ι => Loc.out) :=
    Outline.holds_start (inv_initlog start size) trivial fun _ => ⟨rfl, notMem_empty _⟩
  exact Outline.fine hprocs hstart hrun

/-! ## Every run -/

theorem held_of_wakeup {l₀ : Loc} {c : Unit} (hc : machine.code i l₀ = .wakeup c l) : held l = true := by
  cases l₀ with
  | endWakeup | doneWakeup =>
    cases hc
    rfl
  | _ => cases hc

theorem held_of_owes (ho : Owes l) : held l = true := by
  cases l with
  | endWakeup | doneWakeup => rfl
  | _ => exact ho.elim

theorem reason_of_sleeping (hprocs : ∀ i, i ∈ procs) (hrun : Runs procs start size f)
    (hlock : f.lock = none) {c : Unit} (hi : f.sleeping i = some c) : Reason f.data := by
  exact (hrun.outline hprocs).reason_of_free (fun _ _ ho => held_of_owes ho)
    (fun _ _ _ _ hc => held_of_wakeup hc) hlock hi

theorem mem_ops_of_inOp (hl : Asserts i l d) (hop : InOp l) : i ∈ d.ops := by
  cases l with
  | op | writeTest b | writeTrans b | writeAcquire b | writeAbsorb b | writeRelease | endAcquire
  | endLeave => exact hl
  | _ => exact hop.elim

def booted : Fine (Fin 2) Unit (World (Fin 2)) Loc := Fine.start (initlog 2 30) fun _ => .out

/-- A process has begun an operation. -/
def begun : Fine (Fin 2) Unit (World (Fin 2)) Loc :=
  (booted.go 0 (.at .beginAcquire)).moves machine [0, 1] [0, 0, 0]

/-- It has logged a block. -/
def logged : Fine (Fin 2) Unit (World (Fin 2)) Loc :=
  (begun.go 0 (.at (.writeTest 40))).moves machine [0, 1] [0, 0, 0, 0, 0]

/-- It commits. -/
def committing : Fine (Fin 2) Unit (World (Fin 2)) Loc :=
  (logged.go 0 (.at .endAcquire)).moves machine [0, 1] [0, 0, 0]

/-- The other process wants to begin an operation and sleeps. -/
def waiting : Fine (Fin 2) Unit (World (Fin 2)) Loc :=
  (committing.go 1 (.at .beginAcquire)).moves machine [0, 1] [1, 1, 1, 1, 1, 1]

theorem waiting_reached : Runs [0, 1] 2 30 waiting := by
  have hbegin : FineStep machine [0, 1] booted (booted.go 0 (.at .beginAcquire)) :=
    .call rfl rfl trivial
  have hwrite : FineStep machine [0, 1] begun (begun.go 0 (.at (.writeTest 40))) :=
    .call (rfl : begun.pc 0 = .at .op) rfl trivial
  have hend : FineStep machine [0, 1] logged (logged.go 0 (.at .endAcquire)) :=
    .call (rfl : logged.pc 0 = .at .op) rfl trivial
  have hwait : FineStep machine [0, 1] committing (committing.go 1 (.at .beginAcquire)) :=
    .call (rfl : committing.pc 1 = .at .out) rfl trivial
  have hbegun : Runs [0, 1] 2 30 begun := (Relation.ReflTransGen.single hbegin).trans (reaches_moves ..)
  have hlogged : Runs [0, 1] 2 30 logged := (hbegun.tail hwrite).trans (reaches_moves ..)
  have hcommitting : Runs [0, 1] 2 30 committing := (hlogged.tail hend).trans (reaches_moves ..)
  exact (hcommitting.tail hwait).trans (reaches_moves ..)

end Xv6.LogLock
