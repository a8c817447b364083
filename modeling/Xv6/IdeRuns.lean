import Xv6.IdeInvariant

/-!
# Every run of the disk driver

Any number of processes and any number of threads that take the interrupts.
-/

namespace Xv6.Ide

open Monitor

variable {ι β α : Type} [DecidableEq ι] [DecidableEq β] {procs : List ι} {bufs : β → Buf α} {reg : α}
  {drives : Bool → ℕ → α} {havedisk1 : Bool} {size : ℕ} {f : Fine ι β (World ι β α) (Loc β α)}

variable {d : World ι β α}

theorem inv_boot (size : ℕ) (bufs : β → Buf α) (reg : α) (drives : Bool → ℕ → α) (havedisk1 : Bool) :
    Inv size ⟨bufs, drives true⟩ (boot bufs reg drives havedisk1 : World ι β α) :=
  ⟨rfl, List.nodup_nil, nofun, ⟨rfl, rfl, rfl⟩, fun _ => ⟨_, rfl, rfl, rfl⟩, rfl⟩

theorem Runs.outline (hsize : FSSIZE ≤ size) (hprocs : ∀ i, i ∈ procs)
    (hrun : Runs procs bufs reg drives havedisk1 f) :
    (Ide.outline hsize ⟨bufs, drives true⟩).FineHolds f := by
  have hstart : (Ide.outline hsize ⟨bufs, drives true⟩).Holds
      (State.start (boot bufs reg drives havedisk1) fun _ : ι => .out) :=
    Outline.holds_start (inv_boot size bufs reg drives havedisk1) nofun fun _ => ⟨rfl, trivial⟩
  exact Outline.fine hprocs hstart hrun

theorem Inv.cmds_eq {m₀ : Mem β α} (h : Inv size m₀ d) :
    d.cmds = [] ∨ ∃ n rest, d.queue = n :: rest ∧ d.cmds = [(d.bufs n).cmd] := by
  cases hc : d.cmds with
  | nil => exact .inl rfl
  | cons c rest =>
    obtain ⟨-, rfl, -, n, queue, hq, rfl⟩ := h.cmds_cons hc
    exact .inr ⟨n, queue, hq, rfl⟩

theorem Served.getElem? {n : β} {t : ℕ} (h : d.arrivals = d.served ++ d.queue)
    (hs : Served d n t) : d.served[t]? = some n := by
  have ha := hs.arrival
  rwa [h, List.getElem?_append_left hs.lt] at ha

theorem ahead_of_empty (hq : d.queue = []) (disk : ℕ → α) : d.ahead disk = disk := by
  simp only [World.ahead, hq]
  cases d.phase <;> rfl

theorem driver_refines_memide (hsize : FSSIZE ≤ size) (hprocs : ∀ i, i ∈ procs)
    (hrun : Runs procs bufs reg drives havedisk1 f) :
    (f.data.cmds = [] ∨
        ∃ n rest, f.data.queue = n :: rest ∧ f.data.cmds = [(f.data.bufs n).cmd]) ∧
      f.data.arrivals = f.data.served ++ f.data.queue ∧
      f.data.trace.filterMap Event.request = f.data.served ∧
      (∀ i n t, (f.pc i).within = some (.returned n t) →
        f.data.arrivals[t]? = some n ∧ f.data.served[t]? = some n ∧
          (f.data.bufs n).valid = true ∧ (f.data.bufs n).dirty = false) ∧
      ((∀ n b, Event.serve n b ∈ f.data.trace → b.dev = 1) →
        ∃ m, f.data.trace.foldlM (Mem.run size) ⟨bufs, drives true⟩ = some m ∧
          m.bufs = f.data.bufs ∧ f.data.drives true = f.data.ahead m.disk ∧
          (f.data.queue = [] → f.data.drives true = m.disk)) := by
  have h := hrun.outline hsize hprocs
  have hinv : Inv size ⟨bufs, drives true⟩ f.data := h.inv
  refine ⟨hinv.cmds_eq, hinv.order, hinv.serves, fun i n t hl => ?_, fun hserve => ?_⟩
  · have hs : Served f.data n t := (h.run i _ hl).2.2
    exact ⟨hs.arrival, hs.getElem? hinv.order, hs.valid, hs.clean⟩
  · obtain ⟨m, hm, hmb, hmd⟩ := hinv.agrees hserve
    exact ⟨m, hm, hmb, hmd, fun hq => by rw [hmd, ahead_of_empty hq]⟩

abbrev Example := Fine (Fin 2) Unit (World (Fin 2) Unit ℕ) (Loc Unit ℕ)

def still : Example :=
  Fine.start (boot (fun _ => ⟨false, false, false, 1, 0, 0⟩) 0 (fun _ _ => 0) true) fun _ => .out

/-- A process has taken the buffer. -/
def taken : Example := (still.go 0 (.at (.claim ()))).moves machine [0, 1] [0]

/-- It has put 42 into it, for block 5. -/
def filled : Example :=
  (taken.go 0 (.at (.fill () ⟨true, false, true, 1, 5, 42⟩))).moves machine [0, 1] [0]

/-- It has called `iderw` and sleeps. -/
def asleep : Example :=
  (filled.go 0 (.at (.call ()))).moves machine [0, 1] [0, 0, 0, 0, 0, 0, 0, 0, 0]

/-- The device has done the write. -/
def written : Example :=
  { asleep with data := asleep.data.complete (asleep.data.bufs ()).cmd [] }

/-- The handler has run and the process has returned. -/
def returned : Example :=
  (written.go 1 (.at .poll)).moves machine [0, 1] ([1, 1, 1, 1, 1, 1, 1, 1, 1] ++ [0, 0, 0, 0, 0])

theorem returned_reached :
    Runs [0, 1] (fun _ => ⟨false, false, false, 1, 0, 0⟩) 0 (fun _ _ => 0) true returned := by
  have hclaim : FineStep machine [0, 1] still (still.go 0 (.at (.claim ()))) := .call rfl rfl trivial
  have hfill : FineStep machine [0, 1] taken
      (taken.go 0 (.at (.fill () ⟨true, false, true, 1, 5, 42⟩))) :=
    .call (rfl : taken.pc 0 = .at (.own ())) rfl rfl
  have hcall : FineStep machine [0, 1] filled (filled.go 0 (.at (.call ()))) :=
    .call (rfl : filled.pc 0 = .at (.own ())) rfl ⟨rfl, by decide⟩
  have hwrite : FineStep machine [0, 1] asleep written := .env ⟨_, [], rfl, rfl⟩
  have hpoll : FineStep machine [0, 1] written (written.go 1 (.at .poll)) :=
    .call (rfl : written.pc 1 = .at .out) rfl trivial
  have htaken : FineReaches machine [0, 1] still taken :=
    (Relation.ReflTransGen.single hclaim).trans (reaches_moves ..)
  have hfilled : FineReaches machine [0, 1] still filled := (htaken.tail hfill).trans (reaches_moves ..)
  have hasleep : FineReaches machine [0, 1] still asleep := (hfilled.tail hcall).trans (reaches_moves ..)
  exact ((hasleep.tail hwrite).tail hpoll).trans (reaches_moves ..)

theorem driver_refines_memide_returned : returned.pc 0 = .at (.returned () 0) ∧
    returned.data.drives true 5 = 42 ∧ returned.data.served[0]? = some () ∧
    (returned.data.bufs ()).valid = true ∧ (returned.data.bufs ()).dirty = false := by
  have hpc : returned.pc 0 = .at (.returned () 0) := rfl
  have hsize : FSSIZE ≤ FSSIZE := le_rfl
  have h := driver_refines_memide hsize (by decide) returned_reached
  exact ⟨hpc, by decide, (h.2.2.2.1 0 () 0 (by rw [hpc]; rfl)).2⟩

end Xv6.Ide
