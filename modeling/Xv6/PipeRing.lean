import Xv6.PipeModel

/-!
# The ring of a pipe

The counters wrap at `2 ^ 32` and the ring at `PIPESIZE`, which divides it.
-/

namespace Xv6.Pipe

open List UInt32

structure Ring (p : Pipe) (accepted delivered : List UInt8) : Prop where
  behind : delivered <+: accepted
  room : accepted.length ≤ delivered.length + PIPESIZE
  nread : p.nread = UInt32.ofNat delivered.length
  nwrite : p.nwrite = UInt32.ofNat accepted.length
  data : ∀ k (hk : k < accepted.length), delivered.length ≤ k →
    p.data (Fin.ofNat PIPESIZE k) = accepted[k]

variable {p : Pipe} {accepted delivered : List UInt8}

theorem slot_ofNat (k : ℕ) : Pipe.slot (UInt32.ofNat k) = Fin.ofNat PIPESIZE k := by
  apply Fin.ext
  simp only [Pipe.slot, Fin.ofNat, toNat_ofNat', PIPESIZE]
  omega

namespace Ring

section

variable (h : Ring p accepted delivered)
include h

theorem empty_iff : p.Empty ↔ delivered = accepted := by
  have hle := h.behind.length_le
  have hroom : accepted.length ≤ delivered.length + 512 := h.room
  rw [Pipe.Empty, h.nread, h.nwrite, ← UInt32.toNat_inj, UInt32.toNat_ofNat', UInt32.toNat_ofNat']
  constructor
  · intro heq
    exact h.behind.eq_of_length (by omega)
  · intro heq
    rw [heq]

theorem full_iff : p.Full ↔ accepted.length = delivered.length + PIPESIZE := by
  have hle := h.behind.length_le
  have hroom : accepted.length ≤ delivered.length + 512 := h.room
  rw [Pipe.Full, h.nread, h.nwrite, ← UInt32.toNat_inj, UInt32.toNat_add, UInt32.toNat_ofNat',
    UInt32.toNat_ofNat', show (512 : UInt32).toNat = 512 from rfl, PIPESIZE]
  omega

theorem used_le : (p.nwrite - p.nread).toNat ≤ PIPESIZE := by
  have hle := h.behind.length_le
  have hroom : accepted.length ≤ delivered.length + 512 := h.room
  rw [h.nread, h.nwrite, UInt32.toNat_sub, UInt32.toNat_ofNat', UInt32.toNat_ofNat', PIPESIZE]
  omega

theorem put (hfull : ¬ p.Full) (c : UInt8) : Ring (p.put c) (accepted ++ [c]) delivered := by
  have hle := h.behind.length_le
  have hroom : accepted.length ≤ delivered.length + 512 := h.room
  have hlt : accepted.length ≠ delivered.length + 512 := fun heq => hfull (h.full_iff.mpr heq)
  refine ⟨h.behind.trans (prefix_append ..), ?_, h.nread, ?_, fun k hk hd => ?_⟩
  · rw [length_append, length_singleton, PIPESIZE]
    omega
  · rw [length_append, length_singleton, ofNat_add, ← h.nwrite]
    rfl
  · simp only [Pipe.put, h.nwrite, slot_ofNat]
    rw [length_append, length_singleton] at hk
    by_cases hka : k = accepted.length
    · subst hka
      rw [Function.update_self, getElem_concat_length rfl]
    · have hk' : k < accepted.length := by omega
      have hne : Fin.ofNat PIPESIZE k ≠ Fin.ofNat PIPESIZE accepted.length := by
        intro heq
        have := congrArg Fin.val heq
        simp only [Fin.ofNat, PIPESIZE] at this
        omega
      rw [Function.update_of_ne hne, getElem_append_left hk']
      exact h.data k hk' hd

theorem front (hlt : delivered.length < accepted.length) :
    p.front = accepted[delivered.length] := by
  rw [Pipe.front, h.nread, slot_ofNat]
  exact h.data _ hlt le_rfl

theorem get (hempty : ¬ p.Empty) : Ring p.get accepted (delivered ++ [p.front]) := by
  have hle := h.behind.length_le
  have hroom : accepted.length ≤ delivered.length + 512 := h.room
  have hne : delivered.length ≠ accepted.length := fun heq =>
    hempty (h.empty_iff.mpr (h.behind.eq_of_length heq))
  have hlt : delivered.length < accepted.length := by omega
  refine ⟨?_, ?_, ?_, h.nwrite, fun k hk hd => h.data k hk ?_⟩
  · have htake := prefix_iff_eq_take.mp h.behind
    have hnext : delivered ++ [p.front] = accepted.take (delivered.length + 1) := by
      rw [h.front hlt, ← take_concat_get' accepted _ hlt, ← htake]
    rw [hnext]
    exact take_prefix ..
  · rw [length_append, PIPESIZE]
    omega
  · rw [length_append, length_singleton, ofNat_add, ← h.nread]
    rfl
  · rw [length_append, length_singleton] at hd
    omega

end

end Ring

end Xv6.Pipe
