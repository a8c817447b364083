import Xv6.ByteLayout

/-!
# The two memmoves

`memmove` of the kernel's `string.c` chooses the direction of its loop; `memmove` of `ulib.c`, with which
user programs are linked, always copies upwards. Memory has `2 ^ 32` bytes, and pointers count from its
start.
-/

namespace Xv6

open ByteLayout Function

/-- `while(n-- > 0) *d++ = *s++;` -/
def copyUp (m : Bytes) (d s : ℕ) : ℕ → Bytes
  | 0 => m
  | n + 1 => copyUp (Function.update m d (m s)) (d + 1) (s + 1) n

/-- `while(n-- > 0) *--d = *--s;` -/
def copyDown (m : Bytes) (d s : ℕ) : ℕ → Bytes
  | 0 => m
  | n + 1 => copyDown (Function.update m (d - 1) (m (s - 1))) (d - 1) (s - 1) n

def Ulib.memmove (m : Bytes) (dst src : ℕ) (n : ℤ) : Bytes := copyUp m dst src n.toNat

/-- The end of the source is computed with 32 bits. -/
def Kernel.memmove (m : Bytes) (dst src n : ℕ) : Bytes :=
  if src < dst ∧ (src + n) % 2 ^ 32 > dst then copyDown m (dst + n) (src + n) n
  else copyUp m dst src n

variable {m : Bytes} {dst src d s n : ℕ}

theorem copyUp_below {a : ℕ} (h : a < d) : copyUp m d s n a = m a := by
  induction n generalizing m d s with
  | zero => rfl
  | succ n ih => rw [copyUp, ih (by omega), update_of_ne (by omega)]

theorem copyUp_eq (h : ¬ (s < d ∧ d < s + n)) : copyUp m d s n = blit m d n fun i => m (s + i) := by
  induction n generalizing m d s with
  | zero => rw [copyUp, blit_none]
  | succ n ih =>
    have hfirst : update m d (m s) = blit m d 1 fun i => m (s + i) := by
      funext a
      by_cases ha : a = d
      · subst ha
        rw [update_self]
        have hat : blit m a 1 (fun i => m (s + i)) (a + 0) = m (s + 0) := blit_inside Nat.one_pos
        exact hat.symm
      · rw [update_of_ne ha, blit_outside (by omega)]
    have hrest : blit (blit m d 1 fun i => m (s + i)) (d + 1) n
        (fun i => (blit m d 1 fun i => m (s + i)) (s + 1 + i)) =
        blit (blit m d 1 fun i => m (s + i)) (d + 1) n fun i => m (s + (1 + i)) := by
      refine blit_congr fun i hi => ?_
      rw [blit_outside (by omega), Nat.add_assoc]
    rw [copyUp, ih (by omega), hfirst, hrest, blit_append m (fun i => m (s + i)) d 1 n, Nat.add_comm 1 n]

theorem copyDown_eq (h : s ≤ d) : copyDown m (d + n) (s + n) n = blit m d n fun i => m (s + i) := by
  induction n generalizing m with
  | zero => rw [copyDown, blit_none]
  | succ n ih =>
    have hlast : copyDown m (d + (n + 1)) (s + (n + 1)) (n + 1) =
        copyDown (update m (d + n) (m (s + n))) (d + n) (s + n) n := rfl
    rw [hlast, ih]
    funext a
    by_cases ha : d ≤ a ∧ a < d + n
    · obtain ⟨i, rfl⟩ := Nat.exists_eq_add_of_le ha.1
      rw [blit_inside (by omega), blit_inside (by omega), update_of_ne (by omega)]
    · rw [blit_outside (by omega)]
      by_cases hn : a = d + n
      · subst hn
        rw [update_self, blit_inside (by omega)]
      · rw [update_of_ne hn, blit_outside (by omega)]

theorem kernel_memmove (hdst : dst + n ≤ 2 ^ 32) :
    Kernel.memmove m dst src n = blit m dst n fun i => m (src + i) := by
  unfold Kernel.memmove
  by_cases h : src < dst
  · have hend : (src + n) % 2 ^ 32 = src + n := Nat.mod_eq_of_lt (by omega)
    rw [hend]
    by_cases hover : src + n > dst
    · rw [if_pos ⟨h, hover⟩, copyDown_eq h.le]
    · rw [if_neg fun hc => hover hc.2, copyUp_eq fun hc => hover hc.2]
  · rw [if_neg fun hc => h hc.1, copyUp_eq fun hc => h hc.1]

/-- An upward copy to a higher address ends with every byte of the destination equal to the byte in its
place in the source, which may have been overwritten. -/
theorem copyUp_repeats {i : ℕ} (h : s < d) (hi : i < n) : copyUp m d s n (d + i) = copyUp m d s n (s + i) := by
  induction n generalizing m d s i with
  | zero => omega
  | succ n ih =>
    rw [copyUp]
    cases i with
    | zero =>
      rw [copyUp_below (by omega), copyUp_below (by omega), Nat.add_zero, Nat.add_zero, update_self,
        update_of_ne (by omega)]
    | succ i =>
      have hstep := ih (m := update m d (m s)) (d := d + 1) (s := s + 1) (i := i) (by omega) (by omega)
      rw [Nat.add_right_comm d 1 i, Nat.add_right_comm s 1 i] at hstep
      exact hstep

/-- The functions agree on all memories, unless the destination begins inside the source. -/
theorem memmove_agree_iff {dst src : ℕ} {n : ℤ} (hn : 0 ≤ n) (hdst : dst + n ≤ 2 ^ 32) :
    (∀ m : Bytes, Ulib.memmove m dst src n = Kernel.memmove m dst src n.toNat ∧
      Ulib.memmove m dst src n = blit m dst n.toNat fun i => m (src + i)) ↔
      ¬ (src < dst ∧ dst < src + n) := by
  have hker : ∀ m : Bytes, Kernel.memmove m dst src n.toNat = blit m dst n.toNat fun i => m (src + i) :=
    fun m => kernel_memmove (by omega)
  constructor
  · rintro hall ⟨hlt, hover⟩
    obtain ⟨-, hm⟩ := hall fun a => if a = src then 1 else 0
    have hmoved := congrFun hm (dst + (dst - src))
    -- the user's function has carried the byte at `src` to `dst` and from there on
    unfold Ulib.memmove at hmoved
    rw [copyUp_repeats hlt (by omega), Nat.add_sub_cancel' hlt.le] at hmoved
    have hfirst := copyUp_repeats (m := fun a => if a = src then 1 else 0) (i := 0) (n := n.toNat) hlt (by omega)
    rw [Nat.add_zero, Nat.add_zero, copyUp_below hlt] at hfirst
    rw [hfirst, blit_inside (by omega), if_pos rfl, if_neg (by omega)] at hmoved
    exact absurd hmoved (by decide)
  · intro hno m
    have huser : Ulib.memmove m dst src n = blit m dst n.toNat fun i => m (src + i) :=
      copyUp_eq fun hc => hno ⟨hc.1, by omega⟩
    exact ⟨huser.trans (hker m).symm, huser⟩

theorem memmove_agree_iff_disjoint :
    (∀ m : Bytes, Ulib.memmove m 0 4096 100 = Kernel.memmove m 0 4096 (100 : ℤ).toNat ∧
      Ulib.memmove m 0 4096 100 = blit m 0 (100 : ℤ).toNat fun i => m (4096 + i)) ↔
      ¬ (4096 < 0 ∧ (0 : ℕ) < ((4096 : ℕ) : ℤ) + 100) :=
  memmove_agree_iff (by decide) (by decide)

/-- Two bytes are moved up by one. The kernel's function moves them, and the user's repeats the first. -/
theorem memmove_differs : ∃ m : Bytes, m 0 = 1 ∧ m 1 = 2 ∧
    Kernel.memmove m 1 0 2 1 = 1 ∧ Kernel.memmove m 1 0 2 2 = 2 ∧
    Ulib.memmove m 1 0 2 1 = 1 ∧ Ulib.memmove m 1 0 2 2 = 1 :=
  ⟨fun a => if a = 0 then 1 else if a = 1 then 2 else 0, by decide⟩

end Xv6
