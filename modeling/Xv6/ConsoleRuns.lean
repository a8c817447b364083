import Xv6.ConsoleInvariant

/-!
# Runs of the console

What the outline says about interrupts and any number of readers.
-/

namespace Xv6.Console

open Monitor

variable {ι : Type} [DecidableEq ι] {procs : List ι} {buf : Fin INPUT_BUF → UInt8}
  {f : Fine ι Unit (World ι) Loc}

variable {i : ι} {l : Loc} {c : Unit} {d : World ι}

theorem inv_boot (buf : Fin INPUT_BUF → UInt8) : Inv (boot buf : World ι) :=
  ⟨⟨le_rfl, Nat.zero_le _, rfl, rfl, rfl, nofun⟩, fun _ => rfl, List.not_mem_nil, rfl, nofun⟩

theorem Runs.outline (hprocs : ∀ i, i ∈ procs) (hrun : Runs procs buf f) : Console.outline.FineHolds f := by
  have hstart : Console.outline.Holds (State.start (boot buf : World ι) fun _ => Loc.out) :=
    Outline.holds_start (inv_boot buf) trivial fun _ => ⟨rfl, rfl⟩
  exact Outline.fine hprocs hstart hrun

theorem held_of_wakeup {l₀ : Loc} (hc : machine.code i l₀ = .wakeup c l) : held l = true := by
  cases l₀ with
  | intrWakeup cs =>
    cases hc
    rfl
  | intrLoop cs => cases cs <;> cases hc
  | _ => cases hc

theorem held_of_owes (ho : Owes l c) : held l = true := by
  cases l with
  | intrWakeup cs => rfl
  | _ => exact ho.elim

theorem empty_of_sleeping (hprocs : ∀ i, i ∈ procs) (hrun : Runs procs buf f) (hlock : f.lock = none)
    (hi : f.sleeping i = some ()) : f.data.input.r = f.data.input.w :=
  (hrun.outline hprocs).reason_of_free (fun _ c ho => held_of_owes (c := c) ho)
    (fun _ _ _ _ hc => held_of_wakeup hc) hlock hi

/-- The indices, as differences of unsigned numbers. -/
structure Indices (p : Input) : Prop where
  order : (p.w - p.r).toNat + (p.e - p.w).toNat = (p.e - p.r).toNat
  room : (p.e - p.r).toNat ≤ INPUT_BUF
  full : (p.e - p.r).toNat = INPUT_BUF → p.w = p.e

theorem Inv.indices (h : Inv d) : Indices d.input := by
  obtain ⟨hwr, hew, her⟩ := h.slots.used
  have hroom := h.slots.room
  have hbehind := h.slots.behind
  refine ⟨?_, ?_, fun hfull => ?_⟩
  · rw [hwr, hew, her]
    omega
  · rw [her]
    omega
  · rw [her] at hfull
    exact (h.slots.line_iff.2 (h.full (by omega))).symm

/-- An editing key removes characters between `w` and `e` only. -/
structure Erases (p q : Input) : Prop where
  buf : q.buf = p.buf
  r : q.r = p.r
  w : q.w = p.w
  e : (q.e - q.w).toNat ≤ (p.e - p.w).toNat

theorem killLine_buf (p : Input) (k : ℕ) : (p.killLine k).buf = p.buf := by
  induction k generalizing p with
  | zero => rfl
  | succ k ih =>
    unfold Input.killLine
    split
    · exact ih _
    · rfl

theorem Inv.erases (h : Inv d) {c : UInt8} (hc : c = ctrlU ∨ c = ctrlH ∨ c = DEL) :
    Erases d.input (Console.key c d).1.input := by
  have hP : c ≠ ctrlP := by
    rcases hc with rfl | rfl | rfl <;> decide
  unfold Console.key
  dsimp only
  rw [if_neg hP]
  by_cases hU : c = ctrlU
  · rw [if_pos hU]
    refine ⟨killLine_buf .., (killLine_rw ..).1, (killLine_rw ..).2, ?_⟩
    rw [h.kill.slots.used.2.1, h.slots.used.2.1]
    simp only [World.line, replay_append]
    exact Nat.zero_le _
  · rw [if_neg hU, if_pos (hc.resolve_left hU)]
    have hrest : d.input.backspace.buf = d.input.buf ∧ d.input.backspace.r = d.input.r ∧
        d.input.backspace.w = d.input.w := by
      unfold Input.backspace
      split <;> exact ⟨rfl, rfl, rfl⟩
    refine ⟨hrest.1, hrest.2.1, hrest.2.2, ?_⟩
    rw [h.erase.slots.used.2.1, h.slots.used.2.1]
    simp only [World.line, replay_append, edit, List.length_dropLast]
    omega

theorem Inv.contents (h : Inv d) :
    (∀ k, k < (d.input.w - d.input.r).toNat →
      some (d.input.buf (Input.slot (d.input.r + UInt32.ofNat k))) = d.done[d.taken.length + k]?) ∧
    ∀ k, k < (d.input.e - d.input.w).toNat →
      some (d.input.buf (Input.slot (d.input.w + UInt32.ofNat k))) = d.line[k]? := by
  obtain ⟨hwr, hew, -⟩ := h.slots.used
  have hbehind := h.slots.behind
  constructor
  · intro k hk
    rw [hwr] at hk
    rw [h.slots.r, ← UInt32.ofNat_add, slot_ofNat,
      h.slots.data _ (by rw [List.length_append]; omega) (by omega),
      List.getElem_append_left (by omega), List.getElem?_eq_getElem (by omega)]
  · intro k hk
    rw [hew] at hk
    rw [h.slots.w, ← UInt32.ofNat_add, slot_ofNat,
      h.slots.data _ (by rw [List.length_append]; omega) (by omega),
      List.getElem_append_right (by omega), List.getElem?_eq_getElem hk]
    simp only [Nat.add_sub_cancel_left]

/-- A process whose `consoleread` returns `r`: its last read ended so, and all that it ever took from the
ring are the characters of its reads and the `^D` of its empty ones. -/
structure Returned (d : World ι) (i : ι) (r : ℤ) : Prop where
  result : ∃ x, (d.readsOf i).getLast? = some x ∧ x.result = r
  mine : d.mine i = (d.readsOf i).flatMap Read.uses

/-- The line discipline: the indices keep their order and distance, a sleeper finds nothing to read,
editing keys stay behind `w`, the ring holds the replay of the keystrokes from where the readers are, they
have read a prefix of it, and their reads end as they should. -/
theorem line_discipline (hprocs : ∀ i, i ∈ procs) (hrun : Runs procs buf f) :
    Indices f.data.input ∧
      (∀ i, f.lock = none → f.sleeping i = some () → f.data.input.r = f.data.input.w) ∧
      (∀ c, c = ctrlU ∨ c = ctrlH ∨ c = DEL → Erases f.data.input (key c f.data).1.input) ∧
      ((∀ k, k < (f.data.input.w - f.data.input.r).toNat →
          some (f.data.input.buf (Input.slot (f.data.input.r + UInt32.ofNat k))) =
            (replay f.data.strokes).1[f.data.taken.length + k]?) ∧
        ∀ k, k < (f.data.input.e - f.data.input.w).toNat →
          some (f.data.input.buf (Input.slot (f.data.input.w + UInt32.ofNat k))) =
            (replay f.data.strokes).2[k]?) ∧
      f.data.taken.map Prod.snd <+: (replay f.data.strokes).1 ∧
      (∀ x ∈ f.data.reads, x.2.Ok (replay f.data.strokes).1) ∧
      ∀ i r, (f.pc i).within = some (.readReturn r) → Returned f.data i r := by
  have h := hrun.outline hprocs
  have hinv : Inv f.data := h.inv
  refine ⟨hinv.indices, fun i hlock hi => empty_of_sleeping hprocs hrun hlock hi, fun c hc => hinv.erases hc,
    hinv.contents, ?_, hinv.reads, fun i r hr => ?_⟩
  · rw [hinv.taken]
    exact List.take_prefix ..
  · obtain ⟨hholds, hret⟩ : Asserts i (.readReturn r) f.data := (h.run i _ hr).2
    refine ⟨?_, ?_⟩
    · exact Option.map_eq_some_iff.1 hret
    · rw [hholds, List.append_nil]

def booted : Fine (Fin 2) Unit (World (Fin 2)) Loc := Fine.start (boot fun _ => 0) fun _ => .out

/-- A line is typed, with a character erased. -/
def typedLine : Fine (Fin 2) Unit (World (Fin 2)) Loc :=
  (booted.go 0 (.at (.intrAcquire [97, 98, ctrlH, CR]))).moves machine [0, 1] (List.replicate 12 0)

/-- The second process reads it. -/
def readLine : Fine (Fin 2) Unit (World (Fin 2)) Loc :=
  (typedLine.go 1 (.at (.readAcquire 10))).moves machine [0, 1] (List.replicate 6 1)

theorem readLine_reached : Runs [0, 1] (fun _ => 0) readLine := by
  have htype : FineStep machine [0, 1] booted (booted.go 0 (.at (.intrAcquire [97, 98, ctrlH, CR]))) :=
    .call (l := .out) rfl rfl (by exact trivial)
  have hread : FineStep machine [0, 1] typedLine (typedLine.go 1 (.at (.readAcquire 10))) :=
    .call (l := .out) rfl rfl (by exact trivial)
  have htyped : FineReaches machine [0, 1] booted typedLine :=
    (Relation.ReflTransGen.single htype).trans (reaches_moves ..)
  exact (htyped.tail hread).trans (reaches_moves ..)

theorem line_discipline_line : readLine.data.taken.map Prod.snd = [97, NL] ∧
    readLine.data.taken.map Prod.snd <+: (replay readLine.data.strokes).1 ∧ Returned readLine.data 1 2 := by
  have hret : (readLine.pc 1).within = some (.readReturn 2) := rfl
  obtain ⟨-, -, -, -, hprefix, -, hreturned⟩ := line_discipline (by decide) readLine_reached
  exact ⟨by decide, hprefix, hreturned 1 2 hret⟩

end Xv6.Console
