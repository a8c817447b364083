import Mathlib

/-!
# Records, words and bits laid out in byte buffers

A buffer of `N` bytes is read and written at three granularities: little-endian 16 and 32 bit
integers, single bits in least-significant-first order, and runs of bytes. Every accessor comes
with its read-over-write law; a read that lies outside the buffer returns zero.
-/

namespace ByteLayout

/-- An unbounded byte string, the common view of buffers and of the data copied into them. -/
abbrev Bytes := ℕ → UInt8

def get16 (f : Bytes) (o : ℕ) : UInt16 :=
  UInt16.ofNat ((f o).toNat + 256 * (f (o + 1)).toNat)

def get32 (f : Bytes) (o : ℕ) : UInt32 :=
  UInt32.ofNat ((f o).toNat + 256 * (f (o + 1)).toNat + 65536 * (f (o + 2)).toNat +
    16777216 * (f (o + 3)).toNat)

variable {f src g : Bytes} {o n i o' : ℕ}

theorem toNat_add_of_not_lt {a b : UInt32} (h : ¬ a + b < a) : (a + b).toNat = a.toNat + b.toNat := by
  rw [UInt32.lt_iff_toNat_lt, UInt32.toNat_add] at h
  rw [UInt32.toNat_add]
  have ha := a.toNat_lt
  have hb := b.toNat_lt
  omega

/-- Byte number `i` of the little-endian representation of `v`. -/
def leByte (v i : ℕ) : UInt8 := UInt8.ofNat (v / 256 ^ i)

/-- Overwrite `n` bytes from `o` on by those of `src`. -/
def blit (f : Bytes) (o n : ℕ) (src : Bytes) : Bytes :=
  fun i => if o ≤ i ∧ i < o + n then src (i - o) else f i

theorem blit_inside (h : i < n) : blit f o n src (o + i) = src i := by
  simp [blit, h]

theorem blit_outside (h : i < o ∨ o + n ≤ i) : blit f o n src i = f i := by
  unfold blit
  rw [if_neg (by omega)]

/-- A run of bytes may be copied in two parts. -/
theorem blit_append (f src : Bytes) (o a b : ℕ) :
    blit (blit f o a src) (o + a) b (fun i => src (a + i)) = blit f o (a + b) src := by
  funext i
  unfold blit
  by_cases hb : o + a ≤ i ∧ i < o + a + b
  · have hi : a + (i - (o + a)) = i - o := by omega
    rw [if_pos hb, if_pos (by omega), ← hi]
  · rw [if_neg hb]
    by_cases ha : o ≤ i ∧ i < o + a
    · rw [if_pos ha, if_pos (by omega)]
    · rw [if_neg ha, if_neg (by omega)]

theorem blit_congr {src' : Bytes} (h : ∀ i < n, src i = src' i) :
    blit f o n src = blit f o n src' := by
  funext i
  unfold blit
  split_ifs with hi
  · exact h _ (by omega)
  · rfl

theorem blit_none (f src : Bytes) (o : ℕ) : blit f o 0 src = f := by
  funext i
  unfold blit
  rw [if_neg (by omega)]

theorem get16_congr (h : ∀ i < 2, f (o + i) = g (o' + i)) : get16 f o = get16 g o' := by
  simp only [get16, h 1 (by omega), show f o = g o' from h 0 (by omega)]

theorem get32_congr (h : ∀ i < 4, f (o + i) = g (o' + i)) : get32 f o = get32 g o' := by
  simp only [get32, h 1 (by omega), h 2 (by omega), h 3 (by omega),
    show f o = g o' from h 0 (by omega)]

theorem get16_leByte (v : UInt16) : get16 (leByte v.toNat) 0 = v := by
  apply UInt16.toNat_inj.mp
  have hv := v.toNat_lt
  simp only [get16, leByte, UInt16.toNat_ofNat', UInt8.toNat_ofNat']
  omega

theorem get32_leByte (v : UInt32) : get32 (leByte v.toNat) 0 = v := by
  apply UInt32.toNat_inj.mp
  have hv := v.toNat_lt
  simp only [get32, leByte, UInt32.toNat_ofNat', UInt8.toNat_ofNat']
  omega

/-! ## Finite buffers -/

/-- A buffer of `N` bytes. -/
abbrev Buffer (N : ℕ) := Fin N → UInt8

namespace Buffer

variable {N : ℕ}

def byte (b : Buffer N) (i : ℕ) : UInt8 := if h : i < N then b ⟨i, h⟩ else 0

def ofBytes (f : Bytes) : Buffer N := fun i => f i

def zero : Buffer N := fun _ => 0

variable {i o n : ℕ} {b : Buffer N} {src : Bytes} {w : ℕ → UInt32}

@[simp] theorem byte_zero (i : ℕ) : (zero : Buffer N).byte i = 0 := by simp [byte, zero]

theorem byte_ofBytes {f : Bytes} (h : i < N) : (ofBytes f : Buffer N).byte i = f i := by
  simp [byte, ofBytes, h]

theorem ext_byte {c : Buffer N} (h : ∀ i < N, b.byte i = c.byte i) : b = c := by
  funext i
  simpa [byte] using h i i.isLt

/-- Copy the first `n` bytes of `src` to offset `o`. -/
def write (b : Buffer N) (o n : ℕ) (src : Bytes) : Buffer N := ofBytes (blit b.byte o n src)

theorem byte_write_inside (hi : i < n)
    (hN : o + i < N) : (b.write o n src).byte (o + i) = src i := by
  rw [write, byte_ofBytes hN, blit_inside hi]

theorem byte_write_outside (h : i < o ∨ o + n ≤ i) : (b.write o n src).byte i = b.byte i := by
  by_cases hN : i < N
  · rw [write, byte_ofBytes hN, blit_outside h]
  · simp [byte, hN]

/-! ### Arrays of 32-bit words -/

def word (b : Buffer N) (i : ℕ) : UInt32 := get32 b.byte (4 * i)

/-- Replace the words from `o` to `o + n` by those of `w`. -/
def setWords (b : Buffer N) (o n : ℕ) (w : ℕ → UInt32) : Buffer N :=
  b.write (4 * o) (4 * n) fun i => leByte (w (i / 4)).toNat (i % 4)

def setWord (b : Buffer N) (i : ℕ) (v : UInt32) : Buffer N := b.setWords i 1 fun _ => v

@[simp] theorem word_zero (i : ℕ) : (zero : Buffer N).word i = 0 := by simp [word, get32]

theorem word_setWords_inside (hi : i < n)
    (hN : 4 * (o + i) + 4 ≤ N) : (b.setWords o n w).word (o + i) = w i := by
  unfold word setWords
  rw [← get32_leByte (w i)]
  apply get32_congr
  intro j hj
  have ho : 4 * (o + i) + j = 4 * o + (4 * i + j) := by ring
  rw [ho, byte_write_inside (by omega) (by omega)]
  have h1 : (4 * i + j) / 4 = i := by omega
  have h2 : (4 * i + j) % 4 = 0 + j := by omega
  simp only [h1, h2]

theorem word_setWords_outside (h : i < o ∨ o + n ≤ i) : (b.setWords o n w).word i = b.word i := by
  unfold word setWords
  apply get32_congr
  intro j hj
  exact byte_write_outside (by omega)

theorem word_setWord {j : ℕ} {v : UInt32} (hN : 4 * i + 4 ≤ N) :
    (b.setWord i v).word j = if j = i then v else b.word j := by
  unfold setWord
  split_ifs with h
  · subst h
    exact word_setWords_inside (i := 0) (by omega) (by omega)
  · exact word_setWords_outside (by omega)

/-! ### Bit maps -/

def mask (i : ℕ) : UInt8 := UInt8.ofNat (2 ^ (i % 8))

def bit (b : Buffer N) (i : ℕ) : Bool := b.byte (i / 8) &&& mask i != 0

def setBit (b : Buffer N) (i : ℕ) : Buffer N :=
  b.write (i / 8) 1 fun _ => b.byte (i / 8) ||| mask i

def clearBit (b : Buffer N) (i : ℕ) : Buffer N :=
  b.write (i / 8) 1 fun _ => b.byte (i / 8) &&& ~~~ mask i

theorem mask_testBit (i k : ℕ) : (mask i).toNat.testBit k = decide (i % 8 = k) := by
  have hlt : 2 ^ (i % 8) < 2 ^ 8 := Nat.pow_lt_pow_right (by omega) (Nat.mod_lt _ (by omega))
  rw [mask, UInt8.toNat_ofNat', Nat.mod_eq_of_lt hlt, Nat.testBit_two_pow]

theorem and_mask_eq_zero (x : UInt8) (i : ℕ) :
    x &&& mask i = 0 ↔ x.toNat.testBit (i % 8) = false := by
  rw [← UInt8.toNat_inj, UInt8.toNat_and]
  constructor
  · intro h
    have hb := congrArg (fun n => n.testBit (i % 8)) h
    simpa [Nat.testBit_and, mask_testBit] using hb
  · intro h
    apply Nat.eq_of_testBit_eq
    intro k
    rw [Nat.testBit_and, mask_testBit]
    by_cases hk : i % 8 = k
    · subst hk
      simp [h]
    · simp [hk]

theorem bit_eq_testBit (b : Buffer N) (i : ℕ) :
    b.bit i = (b.byte (i / 8)).toNat.testBit (i % 8) := by
  have h := and_mask_eq_zero (b.byte (i / 8)) i
  unfold bit
  cases hb : (b.byte (i / 8)).toNat.testBit (i % 8) with
  | true => simpa [hb] using h
  | false => simpa [hb] using h

/-- The byte that holds bit `i`, in a buffer where only that byte was rewritten. -/
theorem bit_write (b : Buffer N) (i j : ℕ) (v : UInt8) (hN : i / 8 < N) :
    (b.write (i / 8) 1 fun _ => v).bit j =
      if j / 8 = i / 8 then v.toNat.testBit (j % 8) else b.bit j := by
  rw [bit_eq_testBit, bit_eq_testBit]
  split_ifs with h
  · have hv : (b.write (i / 8) 1 fun _ => v).byte (i / 8) = v :=
      byte_write_inside (i := 0) (by omega) (by omega)
    rw [h, hv]
  · rw [byte_write_outside (by omega)]

theorem bit_setBit (b : Buffer N) (i j : ℕ) (hN : i / 8 < N) :
    (b.setBit i).bit j = (decide (j = i) || b.bit j) := by
  rw [setBit, bit_write b i j _ hN]
  split_ifs with h
  · rw [UInt8.toNat_or, Nat.testBit_or, mask_testBit, bit_eq_testBit, h, Bool.or_comm]
    congr 1
    apply decide_eq_decide.mpr
    omega
  · have hne : j ≠ i := fun he => h (by rw [he])
    simp [hne]

@[simp] theorem bit_zero (i : ℕ) : (zero : Buffer N).bit i = false := by
  simp [bit]

end Buffer

end ByteLayout
