import Xv6.PipeInvariant

/-!
# Runs of a pipe

What the outline says about every run of any number of readers and writers, and the run in which a
writer that was killed leaves a reader asleep in front of a full pipe.
-/

namespace Xv6.Pipe

open Monitor

variable {ι : Type} [DecidableEq ι] {procs : List ι} {data : Fin PIPESIZE → UInt8} {i₀ : ι}
  {f : Fine ι Chan (World ι) Loc}

omit [DecidableEq ι] in
theorem inv_alloc (data : Fin PIPESIZE → UInt8) (i : ι) : Inv (alloc data i) := by
  refine ⟨⟨List.prefix_refl _, Nat.zero_le _, rfl, rfl, nofun⟩, fun w _ => ?_, nofun, nofun, nofun⟩
  cases w <;> exact ⟨rfl, rfl⟩

theorem Runs.outline (hprocs : ∀ i, i ∈ procs) (hrun : Runs procs data i₀ f) :
    Pipe.outline.FineHolds f := by
  have hstart : Pipe.outline.Holds (State.start (alloc data i₀) fun _ => Loc.out) :=
    Outline.holds_start (inv_alloc data i₀) trivial fun _ => ⟨rfl, trivial⟩
  exact Outline.fine hprocs hstart hrun

/-! ## The bytes -/

theorem lossless_fifo (hprocs : ∀ i, i ∈ procs) (hrun : Runs procs data i₀ f) :
    (f.data.pipe.nwrite - f.data.pipe.nread).toNat ≤ PIPESIZE ∧
      f.data.delivered <+: f.data.accepted ∧
      ∀ i n, 0 < n → (f.pc i).within = some (.readReturn n 0) →
        f.data.pipe.writeopen = false ∧ f.data.delivered = f.data.accepted := by
  have h := hrun.outline hprocs
  have hring : Ring f.data.pipe f.data.accepted f.data.delivered := h.inv.ring
  refine ⟨hring.used_le, hring.behind, fun i n hn hl => ?_⟩
  have hres : ReadResult n 0 f.data := (h.run i _ hl).2
  exact hres hn rfl

/-- A pipe that one process has, with a second process beside it. -/
def still : Fine (Fin 2) Chan (World (Fin 2)) Loc := Fine.start (alloc (fun _ => 0) 0) fun _ => .out

/-- The process writes two bytes. -/
def wrote : Fine (Fin 2) Chan (World (Fin 2)) Loc :=
  (still.go 0 (.at (.writeAcquire (fun k => if k = 0 then 7 else 8) 2))).moves machine [0, 1]
    (List.replicate 10 0)

/-- And reads one of them. -/
def echoed : Fine (Fin 2) Chan (World (Fin 2)) Loc :=
  ((wrote.go 0 (.at .out)).go 0 (.at (.readAcquire 1))).moves machine [0, 1] (List.replicate 9 0)

theorem echoed_reached : Runs [0, 1] (fun _ => 0) 0 echoed := by
  have hwrite : FineStep machine [0, 1] still
      (still.go 0 (.at (.writeAcquire (fun k => if k = 0 then 7 else 8) 2))) :=
    .call rfl rfl (Finset.mem_singleton_self _)
  have hreturned : wrote.pc 0 = .at (.writeReturn 2) := rfl
  have hreturn : FineStep machine [0, 1] wrote (wrote.go 0 (.at .out)) :=
    .call hreturned rfl trivial
  have hread : FineStep machine [0, 1] (wrote.go 0 (.at .out))
      ((wrote.go 0 (.at .out)).go 0 (.at (.readAcquire 1))) :=
    .call (l := .out) rfl rfl (Finset.mem_singleton_self _)
  have hwrote : FineReaches machine [0, 1] still wrote :=
    (Relation.ReflTransGen.single hwrite).trans (reaches_moves ..)
  exact ((hwrote.tail hreturn).tail hread).trans (reaches_moves ..)

theorem lossless_fifo_echo : echoed.data.accepted = [7, 8] ∧ echoed.data.delivered = [7] ∧
    echoed.data.delivered <+: echoed.data.accepted :=
  ⟨by decide, by decide, (lossless_fifo (by decide) echoed_reached).2.1⟩

/-! ## Who sleeps -/

theorem held_of_wakeup {i : ι} {l₀ l : Loc} {c : Chan} (hc : machine.code i l₀ = .wakeup c l) :
    held l = true := by
  cases l₀ with
  | writeFull addr n k fresh | writeWakeup n | readWakeup n got | closeWakeup w =>
    cases hc
    rfl
  | _ => cases hc

theorem held_of_owes {l : Loc} {c : Chan} (ho : Owes l c) : held l = true := by
  cases l with
  | writeLoop addr n k fresh | writeFull addr n k fresh | writeWakeup n | readLoop n got
  | readWakeup n got | closeWakeup w => rfl
  | _ => exact ho.elim

theorem reason_of_sleeping (hprocs : ∀ i, i ∈ procs) (hrun : Runs procs data i₀ f)
    (hlock : f.lock = none) {i : ι} {c : Chan} (hi : f.sleeping i = some c) : Reason c f.data := by
  exact (hrun.outline hprocs).reason_of_free (fun _ _ ho => held_of_owes ho)
    (fun _ _ _ _ hc => held_of_wakeup hc) hlock hi

theorem sleepers_not_ready (hprocs : ∀ i, i ∈ procs) (hrun : Runs procs data i₀ f)
    (hquiet : f.data.silent = false) (hlock : f.lock = none) :
    (∀ i, f.sleeping i = some .nread → f.data.pipe.Empty ∧ f.data.pipe.writeopen = true) ∧
      ∀ i, f.sleeping i = some .nwrite → f.data.pipe.Full ∧ f.data.pipe.readopen = true := by
  constructor
  · intro i hi
    rcases reason_of_sleeping hprocs hrun hlock hi with hs | hr
    · rw [hquiet] at hs
      cases hs
    · exact hr
  · intro i hi
    rcases reason_of_sleeping hprocs hrun hlock hi with hs | hr
    · rw [hquiet] at hs
      cases hs
    · exact hr

/-- The second process has been given the read end and sleeps in `piperead`. -/
def reading : Fine (Fin 2) Chan (World (Fin 2)) Loc :=
  ({ still with data := still.data.inherit 1 false }.go 1 (.at (.readAcquire 1))).moves machine [0, 1]
    (List.replicate 6 1)

theorem reading_reached : Runs [0, 1] (fun _ => 0) 0 reading := by
  have hinherit : FineStep machine [0, 1] still { still with data := still.data.inherit 1 false } :=
    .env ⟨1, false, ⟨0, Finset.mem_singleton_self _⟩, rfl⟩
  have hread : FineStep machine [0, 1] { still with data := still.data.inherit 1 false }
      ({ still with data := still.data.inherit 1 false }.go 1 (.at (.readAcquire 1))) :=
    .call (l := .out) rfl rfl (Finset.mem_insert_self ..)
  exact ((Relation.ReflTransGen.single hinherit).tail hread).trans (reaches_moves ..)

theorem sleepers_not_ready_reading : reading.sleeping 1 = some .nread ∧
    reading.data.pipe.Empty ∧ reading.data.pipe.writeopen = true := by
  have hsleeping : reading.sleeping 1 = some .nread := rfl
  exact ⟨hsleeping, (sleepers_not_ready (by decide) reading_reached (by decide) rfl).1 1 hsleeping⟩

/-! ## A reader left asleep -/

def writing : Fine (Fin 2) Chan (World (Fin 2)) Loc :=
  (reading.go 0 (.at (.writeAcquire (fun _ => 0) 513))).moves machine [0, 1] [0]

def killed : Fine (Fin 2) Chan (World (Fin 2)) Loc :=
  { writing with
    killed := Function.update writing.killed 0 true
    sleeping := Function.update writing.sleeping 0 none }

theorem killed_reached : Runs [0, 1] (fun _ => 0) 0 killed := by
  have hwrite : FineStep machine [0, 1] reading
      (reading.go 0 (.at (.writeAcquire (fun _ => 0) 513))) :=
    .call (l := .out) rfl rfl (Finset.mem_singleton_self _)
  have hwriting : Runs [0, 1] (fun _ => 0) 0 writing :=
    (reading_reached.tail hwrite).trans (reaches_moves ..)
  exact hwriting.tail (.kill 0 rfl)

structure Filling (k : ℕ) (f : Fine (Fin 2) Chan (World (Fin 2)) Loc) : Prop where
  run : Runs [0, 1] (fun _ => 0) 0 f
  pc : ∃ fresh, f.pc 0 = .at (.writeLoop (fun _ => 0) 513 k fresh)
  lock : f.lock = some 0
  killed : f.killed 0 = true
  sleeping : f.sleeping 1 = some .nread
  accepted : f.data.accepted.length = k
  delivered : f.data.delivered = []

theorem Filling.ring {k : ℕ} {f : Fine (Fin 2) Chan (World (Fin 2)) Loc} (h : Filling k f) :
    Ring f.data.pipe f.data.accepted f.data.delivered :=
  (h.run.outline (by decide)).inv.ring

theorem Filling.full_iff {k : ℕ} {f : Fine (Fin 2) Chan (World (Fin 2)) Loc} (h : Filling k f) :
    f.data.pipe.Full ↔ k = 512 := by
  rw [h.ring.full_iff, h.accepted, h.delivered]
  exact Iff.rfl

theorem filling (k : ℕ) (hk : k ≤ 512) : ∃ f, Filling k f := by
  induction k with
  | zero => exact ⟨killed, killed_reached, ⟨false, rfl⟩, rfl, rfl, rfl, rfl, rfl⟩
  | succ k ih =>
    obtain ⟨f, h⟩ := ih (by omega)
    obtain ⟨fresh, hpc⟩ := h.pc
    have hfull : ¬ f.data.pipe.Full := fun hf => by
      rw [h.full_iff] at hf
      omega
    have hloop : writeLoop (fun _ => 0) 513 k fresh (f.killed 0) f.data =
        (f.data.put 0, .writeLoop (fun _ => 0) 513 (k + 1) true) := by
      rw [writeLoop, if_pos (by omega), if_neg hfull]
    refine ⟨_, h.run.tail (.step_to hpc rfl hloop), ⟨true, ?_⟩, h.lock, h.killed, h.sleeping, ?_,
      h.delivered⟩
    · simp only [Fine.go, Function.update_self]
    · simp only [World.put, List.length_append, h.accepted, List.length_singleton]

/-- A writer that was killed finds the pipe full, returns without `wakeup(&p->nread)`, and the reader
sleeps on. -/
theorem reader_left_asleep : ∃ f : Fine (Fin 2) Chan (World (Fin 2)) Loc,
    Runs [0, 1] (fun _ => 0) 0 f ∧ f.lock = none ∧ f.sleeping 1 = some .nread ∧ ¬ f.data.pipe.Empty ∧ f.data.pipe.Full := by
  obtain ⟨f, h⟩ := filling 512 le_rfl
  obtain ⟨fresh, hpc⟩ := h.pc
  have hfull := h.full_iff.mpr rfl
  have hloop : writeLoop (fun _ => 0) 513 512 fresh (f.killed 0) f.data =
      ({ f.data with silent := f.data.silent || fresh }, .writeRelease (-1)) := by
    rw [writeLoop, if_pos (by omega), if_pos hfull, if_pos (.inr h.killed)]
  have hempty : ¬ f.data.pipe.Empty := by
    intro hempty
    have hlen := h.accepted
    rw [← h.ring.empty_iff.mp hempty, h.delivered] at hlen
    cases hlen
  obtain ⟨g, hg⟩ : ∃ g, g = { f.go 0 (.at (.writeRelease (-1))) with
    data := { f.data with silent := f.data.silent || fresh } } := ⟨_, rfl⟩
  have hstep : FineStep machine [0, 1] f g := by
    rw [hg]
    exact .step_to hpc rfl hloop
  have hpc' : g.pc 0 = .at (.writeRelease (-1)) := by
    simp only [hg, Fine.go, Function.update_self]
  have hlock : g.lock = some 0 := by
    rw [hg]
    exact h.lock
  have hrun : Runs [0, 1] (fun _ => 0) 0
      { g.go 0 (.at (.writeReturn (-1))) with lock := none } :=
    (h.run.tail hstep).tail (.release hpc' rfl hlock)
  refine ⟨_, hrun, rfl, ?_, ?_, ?_⟩
  · rw [hg]
    exact h.sleeping
  · rw [hg]
    exact hempty
  · rw [hg]
    exact hfull

end Xv6.Pipe
