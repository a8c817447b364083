import Xv6.ConsoleModel

/-!
# The ring of the console

`replay` applies the keystrokes to a line that is being edited. The ring holds what was committed and not
yet read, and behind it the line; the indices wrap at `2 ^ 32` and the ring at `INPUT_BUF`, which divides
it.
-/

namespace Xv6.Console

open List

/-! ## Editing -/

/-- What was committed, and the line. -/
def edit : List UInt8 × List UInt8 → Stroke → List UInt8 × List UInt8
  | (done, line), .typed c full =>
    if norm c = NL ∨ norm c = ctrlD ∨ full = true then (done ++ (line ++ [norm c]), [])
    else (done, line ++ [norm c])
  | (done, line), .erase => (done, line.dropLast)
  | (done, _), .kill => (done, [])

def replay (strokes : List Stroke) : List UInt8 × List UInt8 := strokes.foldl edit ([], [])

theorem replay_append (strokes : List Stroke) (k : Stroke) :
    replay (strokes ++ [k]) = edit (replay strokes) k := by
  unfold replay
  rw [foldl_append]
  rfl

theorem done_prefix_edit (x : List UInt8 × List UInt8) (k : Stroke) : x.1 <+: (edit x k).1 := by
  cases k with
  | typed c full =>
    unfold edit
    dsimp only
    split
    · exact prefix_append ..
    · exact prefix_rfl
  | erase => exact prefix_rfl
  | kill => exact prefix_rfl

/-! ## The ring -/

/-- The ring holds the committed characters from the `R`-th on, and the line. -/
structure Slots (p : Input) (done line : List UInt8) (R : ℕ) : Prop where
  behind : R ≤ done.length
  room : done.length + line.length ≤ R + INPUT_BUF
  r : p.r = UInt32.ofNat R
  w : p.w = UInt32.ofNat done.length
  e : p.e = UInt32.ofNat (done.length + line.length)
  data : ∀ k (hk : k < (done ++ line).length), R ≤ k → p.buf (Fin.ofNat INPUT_BUF k) = (done ++ line)[k]

variable {p : Input} {done line : List UInt8} {R : ℕ}

theorem slot_ofNat (k : ℕ) : Input.slot (UInt32.ofNat k) = Fin.ofNat INPUT_BUF k := by
  apply Fin.ext
  simp only [Input.slot, Fin.ofNat, UInt32.toNat_ofNat', INPUT_BUF]
  omega

theorem ofNat_inj {a b : ℕ} (h : a ≤ b) (hb : b ≤ a + INPUT_BUF) : UInt32.ofNat a = UInt32.ofNat b ↔ a = b := by
  rw [← UInt32.toNat_inj, UInt32.toNat_ofNat', UInt32.toNat_ofNat']
  unfold INPUT_BUF at hb
  omega

theorem sub_ofNat {a b : ℕ} (h : a ≤ b) (hb : b ≤ a + INPUT_BUF) :
    (UInt32.ofNat b - UInt32.ofNat a).toNat = b - a := by
  rw [UInt32.toNat_sub, UInt32.toNat_ofNat', UInt32.toNat_ofNat']
  unfold INPUT_BUF at hb
  omega

theorem ofNat_pred {a : ℕ} (h : 0 < a) : UInt32.ofNat a - 1 = UInt32.ofNat (a - 1) := by
  obtain ⟨b, rfl⟩ : ∃ b, a = b + 1 := ⟨a - 1, by omega⟩
  rw [UInt32.ofNat_add, Nat.add_sub_cancel]
  exact add_sub_cancel_right _ _

namespace Slots

section

variable (h : Slots p done line R)
include h

theorem empty_iff : p.r = p.w ↔ R = done.length := by
  have := h.room
  rw [h.r, h.w]
  exact ofNat_inj h.behind (by omega)

theorem line_iff : p.e = p.w ↔ line = [] := by
  have hroom := h.room
  have hbehind := h.behind
  rw [h.e, h.w, eq_comm, ofNat_inj (by omega) (by omega), ← length_eq_zero_iff]
  omega

theorem used : (p.w - p.r).toNat = done.length - R ∧ (p.e - p.w).toNat = line.length ∧
    (p.e - p.r).toNat = done.length + line.length - R := by
  have hroom := h.room
  have hbehind := h.behind
  rw [h.r, h.w, h.e, sub_ofNat hbehind (by omega), sub_ofNat (by omega) (by omega),
    sub_ofNat (by omega) hroom]
  exact ⟨rfl, by omega, rfl⟩

theorem shorter (hline : line ≠ []) : Slots { p with e := p.e - 1 } done line.dropLast R := by
  have hpos := length_pos_iff.2 hline
  have hroom := h.room
  refine ⟨h.behind, ?_, h.r, h.w, ?_, fun k hk hR => ?_⟩
  · rw [length_dropLast]
    omega
  · rw [length_dropLast, h.e, ofNat_pred (by omega), Nat.add_sub_assoc hpos]
  · have hk' : k < (done ++ line).length := by
      rw [length_append, length_dropLast] at hk
      rw [length_append]
      omega
    rw [h.data k hk' hR]
    simp only [← dropLast_append_of_ne_nil hline, getElem_dropLast]

theorem backspace : Slots p.backspace done line.dropLast R := by
  unfold Input.backspace
  split
  · next hne => exact h.shorter fun hline => hne (h.line_iff.2 hline)
  · next heq =>
    rw [not_not] at heq
    obtain rfl := h.line_iff.1 heq
    exact h

theorem last (hline : line ≠ []) : p.buf (Input.slot (p.e - 1)) = line.getLast hline := by
  have hpos := length_pos_iff.2 hline
  have hbehind := h.behind
  rw [h.e, ofNat_pred (by omega), slot_ofNat, h.data _ (by rw [length_append]; omega) (by omega),
    getElem_append_right (by omega), getLast_eq_getElem]
  congr 1
  omega

theorem killLine (hplain : NL ∉ line) {k : ℕ} (hk : line.length ≤ k) :
    Slots (p.killLine k) done [] R := by
  induction k generalizing p line with
  | zero =>
    obtain rfl : line = [] := length_eq_zero_iff.1 (Nat.le_zero.1 hk)
    exact h
  | succ k ih =>
    unfold Input.killLine
    by_cases hline : line = []
    · subst hline
      rw [if_neg fun hc => hc.1 (h.line_iff.2 rfl)]
      exact h
    · have hlast : p.buf (Input.slot (p.e - 1)) ≠ NL := by
        rw [h.last hline]
        exact fun heq => hplain (heq ▸ getLast_mem hline)
      rw [if_pos ⟨fun heq => hline (h.line_iff.1 heq), hlast⟩]
      refine ih (h.shorter hline) (fun hc => hplain (dropLast_subset _ hc)) ?_
      rw [length_dropLast]
      omega

theorem put (hroom : done.length + line.length < R + INPUT_BUF) (c : UInt8) :
    Slots (p.put c) done (line ++ [c]) R := by
  have hbehind := h.behind
  refine ⟨hbehind, ?_, h.r, h.w, ?_, fun k hk hR => ?_⟩
  · rw [length_append, length_singleton]
    omega
  · rw [length_append, length_singleton, ← Nat.add_assoc, UInt32.ofNat_add, ← h.e]
    rfl
  · simp only [Input.put, h.e, slot_ofNat]
    simp only [length_append, length_singleton] at hk
    by_cases hlast : k = done.length + line.length
    · subst hlast
      rw [Function.update_self]
      simp [← append_assoc]
    · have hk' : k < (done ++ line).length := by
        rw [length_append]
        omega
      have hne : Fin.ofNat INPUT_BUF k ≠ Fin.ofNat INPUT_BUF (done.length + line.length) := by
        intro heq
        have := congrArg Fin.val heq
        simp only [Fin.ofNat, INPUT_BUF] at this hroom
        omega
      rw [Function.update_of_ne hne, h.data k hk' hR]
      simp only [← append_assoc, getElem_append_left hk']

theorem commit : Slots p.commit (done ++ line) [] R := by
  refine ⟨?_, ?_, h.r, ?_, ?_, fun k hk hR => ?_⟩
  · have := h.behind
    rw [length_append]
    omega
  · have := h.room
    rw [length_append, length_nil]
    exact this
  · rw [length_append]
    exact h.e
  · rw [length_append, length_nil]
    exact h.e
  · simp only [append_nil] at hk ⊢
    exact h.data k hk hR

theorem front (hR : R < done.length) : p.buf (Input.slot p.r) = done[R] := by
  rw [h.r, slot_ofNat, h.data R (by rw [length_append]; omega) le_rfl, getElem_append_left hR]

theorem advance (hR : R < done.length) : Slots { p with r := p.r + 1 } done line (R + 1) := by
  have := h.room
  refine ⟨hR, by omega, ?_, h.w, h.e, fun k hk hk' => h.data k hk (by omega)⟩
  rw [UInt32.ofNat_add, ← h.r]
  rfl

end

end Slots

end Xv6.Console
