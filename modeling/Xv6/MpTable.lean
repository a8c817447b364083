import Mathlib

/-!
# The multiprocessor tables

`mp.c`: the search for the floating pointer structure, the checks of `mpconfig` on the configuration table
and the loop of `mpinit` over its entries. Memory is a byte for each 32-bit address, and a loop that does
not end within `n` rounds gives `none`.
-/

namespace Xv6.Mp

open List

abbrev NCPU : ℕ := 8

abbrev Memory := UInt32 → UInt8

def P2V (a : UInt32) : UInt32 := a + 0x80000000

def read16 (mem : Memory) (a : UInt32) : UInt16 := (mem a).toUInt16 ||| (mem (a + 1)).toUInt16 <<< 8

def read32 (mem : Memory) (a : UInt32) : UInt32 :=
  (mem a).toUInt32 ||| (mem (a + 1)).toUInt32 <<< 8 ||| (mem (a + 2)).toUInt32 <<< 16 |||
    (mem (a + 3)).toUInt32 <<< 24

/-- `memcmp(p, s, 4) == 0`. -/
def matches4 (mem : Memory) (p : UInt32) (s : UInt8 × UInt8 × UInt8 × UInt8) : Bool :=
  mem p = s.1 ∧ mem (p + 1) = s.2.1 ∧ mem (p + 2) = s.2.2.1 ∧ mem (p + 3) = s.2.2.2

def sum (mem : Memory) (addr : UInt32) : ℕ → UInt8
  | 0 => 0
  | n + 1 => mem addr + sum mem (addr + 1) n

/-- The loop of `mpsearch1`: `n` structures of 16 bytes fit before `e`. -/
def searchFrom (mem : Memory) (e : UInt32) : ℕ → UInt32 → Option UInt32
  | 0, _ => none
  | n + 1, p =>
    if p < e then
      if matches4 mem p (0x5F, 0x4D, 0x50, 0x5F) ∧ sum mem p 16 = 0 then some p
      else searchFrom mem e n (p + 16)
    else none

def mpsearch1 (mem : Memory) (a : UInt32) (len : ℕ) : Option UInt32 :=
  searchFrom mem (P2V a + UInt32.ofNat len) (len / 16) (P2V a)

def mpsearch (mem : Memory) : Option UInt32 :=
  let bda := P2V 0x400
  let p := (read16 mem (bda + 0x0E)).toUInt32 <<< 4
  let found :=
    if p ≠ 0 then mpsearch1 mem p 1024
    else mpsearch1 mem ((read16 mem (bda + 0x13)).toUInt32 * 1024 - 1024) 1024
  match found with
  | some mp => some mp
  | none => mpsearch1 mem 0xF0000 0x10000

/-- `conf->length`. -/
def length (mem : Memory) (conf : UInt32) : UInt16 := read16 mem (conf + 4)

/-- The two structures, if the table has the signature, a known version and the checksum 0. -/
def mpconfig (mem : Memory) : Option (UInt32 × UInt32) :=
  match mpsearch mem with
  | none => none
  | some mp =>
    if read32 mem (mp + 4) = 0 then none
    else
      let conf := P2V (read32 mem (mp + 4))
      if matches4 mem conf (0x50, 0x43, 0x4D, 0x50) = false then none
      else if mem (conf + 6) ≠ 1 ∧ mem (conf + 6) ≠ 4 then none
      else if sum mem conf (length mem conf).toNat ≠ 0 then none
      else some (mp, conf)

structure State where
  ismp : Bool
  ncpu : ℕ
  apicid : Fin NCPU → UInt8
  ioapicid : UInt8
  lapic : UInt32
  /-- The interrupt mode register has been set. -/
  imcr : Bool

/-- The global variables before `mpinit`. -/
def State.boot : State := ⟨false, 0, fun _ => 0, 0, 0, false⟩

def State.addCpu (s : State) (id : UInt8) : State :=
  if h : s.ncpu < NCPU then { s with apicid := Function.update s.apicid ⟨s.ncpu, h⟩ id, ncpu := s.ncpu + 1 }
  else s

/-- `sizeof(struct mpconf)`. -/
abbrev CONFSIZE : UInt32 := 44

/-- `sizeof(struct mpproc)`. -/
abbrev PROCSIZE : UInt32 := 20

abbrev MPPROC : UInt8 := 0
abbrev MPBUS : UInt8 := 1
abbrev MPIOAPIC : UInt8 := 2
abbrev MPIOINTR : UInt8 := 3
abbrev MPLINTR : UInt8 := 4

/-- The `switch` on the entry at `p`. The `break` of its last case leaves the `switch`, not the loop. -/
def entry (mem : Memory) (p : UInt32) (s : State) : UInt32 × State :=
  if mem p = MPPROC then (p + PROCSIZE, s.addCpu (mem (p + 1)))
  else if mem p = MPIOAPIC then (p + 8, { s with ioapicid := mem (p + 1) })
  else if mem p = MPBUS ∨ mem p = MPIOINTR ∨ mem p = MPLINTR then (p + 8, s)
  else (p, { s with ismp := false })

/-- The loop of `mpinit`. -/
def walk (mem : Memory) (e : UInt32) : ℕ → UInt32 → State → Option State
  | 0, _, _ => none
  | n + 1, p, s =>
    if p < e then walk mem e n (entry mem p s).1 (entry mem p s).2
    else some s

def mpinit (mem : Memory) (n : ℕ) (s : State) : Option State :=
  match mpconfig mem with
  | none => some s
  | some (mp, conf) => do
    let s := { s with ismp := true, lapic := read32 mem (conf + 36) }
    let s ← walk mem (conf + (length mem conf).toUInt32) n (conf + CONFSIZE) s
    if s.ismp = false then return { s with ncpu := 1, lapic := 0, ioapicid := 0 }
    else if mem (mp + 12) ≠ 0 then return { s with imcr := true }
    else return s

/-! ## The entries -/

def Known (type : UInt8) : Prop :=
  type = MPPROC ∨ type = MPIOAPIC ∨ type = MPBUS ∨ type = MPIOINTR ∨ type = MPLINTR

/-- The size of an entry of a known type. -/
def size (type : UInt8) : UInt32 := if type = MPPROC then PROCSIZE else 8

/-- The loop comes to the entry at `q`. -/
inductive Met (mem : Memory) (e : UInt32) : UInt32 → UInt32 → Prop
  | here {p : UInt32} (h : p < e) : Met mem e p p
  | next {p q : UInt32} (h : p < e) (hknown : Known (mem p)) (hq : Met mem e (p + size (mem p)) q) : Met mem e p q

/-- The entries up to the end of the table, all of known types. -/
inductive Entries (mem : Memory) (e : UInt32) : UInt32 → List UInt32 → Prop
  | done {p : UInt32} (h : ¬ p < e) : Entries mem e p []
  | next {p : UInt32} {l : List UInt32} (h : p < e) (hknown : Known (mem p)) (hl : Entries mem e (p + size (mem p)) l) :
      Entries mem e p (p :: l)

/-- The APIC ids of the processors among the entries. -/
def ids (mem : Memory) (l : List UInt32) : List UInt8 := (l.filter (mem · = MPPROC)).map fun p => mem (p + 1)

/-- The first `NCPU` of the ids are recorded. -/
structure Recorded (s : State) (l : List UInt8) : Prop where
  ncpu : s.ncpu = min l.length NCPU
  apicid : ∀ i : Fin NCPU, (i : ℕ) < s.ncpu → s.apicid i = l.getD i 0

variable {mem : Memory} {e p q mp conf : UInt32} {s s' : State} {l : List UInt32} {k : List UInt8}
  {n : ℕ}

theorem Recorded.addCpu (h : Recorded s k) (id : UInt8) : Recorded (s.addCpu id) (k ++ [id]) := by
  have hn := h.ncpu
  unfold State.addCpu
  by_cases hlt : s.ncpu < NCPU
  · rw [dif_pos hlt]
    refine ⟨?_, fun i hi => ?_⟩
    · simp only [length_append, length_singleton]
      omega
    · have hi : (i : ℕ) < s.ncpu + 1 := hi
      by_cases hlast : i = ⟨s.ncpu, hlt⟩
      · subst hlast
        rw [getD_append_right _ _ _ _ (by simp only; omega)]
        simp [hn, show min k.length NCPU - k.length = 0 by omega]
      · have hne : (i : ℕ) ≠ s.ncpu := fun hc => hlast (Fin.ext hc)
        dsimp only
        rw [Function.update_of_ne hlast, h.apicid i (by omega), getD_append _ _ _ _ (by omega)]
  · rw [dif_neg hlt]
    refine ⟨?_, fun i hi => ?_⟩
    · simp only [length_append, length_singleton]
      omega
    · rw [h.apicid i hi, getD_append _ _ _ _ (by omega)]

theorem entry_known (h : Known (mem p)) (s : State) : (entry mem p s).1 = p + size (mem p) := by
  unfold entry size
  by_cases hproc : mem p = MPPROC
  · rw [if_pos hproc, if_pos hproc]
  · rw [if_neg hproc, if_neg hproc]
    by_cases hio : mem p = MPIOAPIC
    · rw [if_pos hio]
    · rw [if_neg hio, if_pos ((h.resolve_left hproc).resolve_left hio)]

theorem entry_unknown (h : ¬ Known (mem p)) (s : State) : (entry mem p s).1 = p := by
  unfold Known at h
  unfold entry
  rw [if_neg fun hc => h (.inl hc), if_neg fun hc => h (.inr (.inl hc)), if_neg fun hc => h (.inr (.inr hc))]

theorem entry_recorded (h : Known (mem p)) (hs : Recorded s k) :
    Recorded (entry mem p s).2 (k ++ ids mem [p]) ∧ (entry mem p s).2.ismp = s.ismp ∧
      (entry mem p s).2.lapic = s.lapic := by
  unfold entry
  by_cases hproc : mem p = MPPROC
  · have hids : ids mem [p] = [mem (p + 1)] := by simp [ids, hproc]
    rw [if_pos hproc, hids]
    refine ⟨hs.addCpu _, ?_⟩
    unfold State.addCpu
    split_ifs <;> exact ⟨rfl, rfl⟩
  · have hids : ids mem [p] = [] := by simp [ids, hproc]
    rw [if_neg hproc, hids, append_nil]
    by_cases hio : mem p = MPIOAPIC
    · rw [if_pos hio]
      exact ⟨⟨hs.ncpu, hs.apicid⟩, rfl, rfl⟩
    · rw [if_neg hio, if_pos ((h.resolve_left hproc).resolve_left hio)]
      exact ⟨hs, rfl, rfl⟩

theorem ids_cons (p : UInt32) (l : List UInt32) : ids mem (p :: l) = ids mem [p] ++ ids mem l := by
  unfold ids
  rw [← map_append, ← filter_append]
  rfl

/-! ## The loop -/

theorem walk_of_entries (hl : Entries mem e p l) (hs : Recorded s k) :
    ∃ s', (∀ n, l.length < n → walk mem e n p s = some s') ∧ Recorded s' (k ++ ids mem l) ∧
      s'.ismp = s.ismp ∧ s'.lapic = s.lapic := by
  induction hl generalizing s k with
  | done h =>
    refine ⟨s, fun n hn => ?_, by simpa [ids] using hs, rfl, rfl⟩
    obtain ⟨n, rfl⟩ := Nat.exists_eq_succ_of_ne_zero (Nat.ne_of_gt hn)
    exact if_neg h
  | @next p l h hknown _ ih =>
    obtain ⟨hs₁, hismp, hlapic⟩ := entry_recorded hknown hs
    obtain ⟨s', hwalk, hs', hismp', hlapic'⟩ := ih hs₁
    refine ⟨s', fun n hn => ?_, ?_, hismp'.trans hismp, hlapic'.trans hlapic⟩
    · obtain ⟨n, rfl⟩ := Nat.exists_eq_succ_of_ne_zero (Nat.ne_zero_of_lt hn)
      rw [walk, if_pos h, entry_known hknown]
      exact hwalk n (Nat.lt_of_succ_lt_succ hn)
    · rwa [ids_cons, ← append_assoc]

theorem entries_of_walk (h : walk mem e n p s = some s') : ∃ l, Entries mem e p l := by
  induction n generalizing p s with
  | zero => cases h
  | succ n ih =>
    rw [walk] at h
    by_cases hp : p < e
    · rw [if_pos hp] at h
      obtain ⟨l, hl⟩ := ih h
      by_cases hknown : Known (mem p)
      · rw [entry_known hknown] at hl
        exact ⟨p :: l, .next hp hknown hl⟩
      · rw [entry_unknown hknown] at hl
        exact ⟨l, hl⟩
    · exact ⟨[], .done hp⟩

theorem Entries.known (hl : Entries mem e p l) (hq : Met mem e p q) : Known (mem q) := by
  induction hl with
  | done h =>
    cases hq with
    | here hp => exact absurd hp h
    | next hp _ _ => exact absurd hp h
  | next h hknown _ ih =>
    cases hq with
    | here _ => exact hknown
    | next _ _ hq => exact ih hq

theorem entries_of_known (hroom : e.toNat + 20 ≤ 2 ^ 32) (hall : ∀ q, Met mem e p q → Known (mem q)) :
    ∃ l, Entries mem e p l := by
  -- the distance to the end of memory decreases
  induction hd : 2 ^ 32 - p.toNat using Nat.strong_induction_on generalizing p with
  | _ d ih =>
    by_cases hp : p < e
    · have hknown := hall p (.here hp)
      have hlt : p.toNat < e.toNat := UInt32.lt_iff_toNat_lt.1 hp
      have hsize : 8 ≤ (size (mem p)).toNat ∧ (size (mem p)).toNat ≤ 20 := by
        unfold size
        split_ifs <;> decide
      have hnext : (p + size (mem p)).toNat = p.toNat + (size (mem p)).toNat := by
        rw [UInt32.toNat_add, Nat.mod_eq_of_lt (by omega)]
      obtain ⟨l, hl⟩ := ih _ (by omega) (fun q hq => hall q (.next hp hknown hq)) rfl
      exact ⟨p :: l, .next hp hknown hl⟩
    · exact ⟨[], .done hp⟩

theorem mpinit_of_unknown (hconf : mpconfig mem = some (mp, conf))
    (hq : Met mem (conf + (length mem conf).toUInt32) (conf + CONFSIZE) q) (hunknown : ¬ Known (mem q)) (n : ℕ) :
    mpinit mem n s = none := by
  unfold mpinit
  rw [hconf]
  dsimp only
  cases hwalk : walk mem (conf + (length mem conf).toUInt32) n (conf + CONFSIZE)
      { s with ismp := true, lapic := read32 mem (conf + 36) } with
  | none => rfl
  | some s' =>
    obtain ⟨l, hl⟩ := entries_of_walk hwalk
    exact absurd (hl.known hq) hunknown

/-- `mpinit` returns if the loop meets only entries of known types; then all processors are recorded. If it
meets another entry, it does not return. -/
theorem mpinit_returns_iff (hconf : mpconfig mem = some (mp, conf))
    (hroom : (conf + (length mem conf).toUInt32).toNat + 20 ≤ 2 ^ 32) :
    ((∀ q, Met mem (conf + (length mem conf).toUInt32) (conf + CONFSIZE) q → Known (mem q)) →
      ∃ l s, Entries mem (conf + (length mem conf).toUInt32) (conf + CONFSIZE) l ∧
        (∀ n, l.length < n → mpinit mem n .boot = some s) ∧ Recorded s (ids mem l) ∧ s.ismp = true ∧
        s.lapic = read32 mem (conf + 36)) ∧
    ((∃ q, Met mem (conf + (length mem conf).toUInt32) (conf + CONFSIZE) q ∧ ¬ Known (mem q)) →
      ∀ n, mpinit mem n .boot = none) := by
  constructor
  · intro hall
    obtain ⟨l, hl⟩ := entries_of_known hroom hall
    have hstart : Recorded { State.boot with ismp := true, lapic := read32 mem (conf + 36) } [] := ⟨rfl, nofun⟩
    obtain ⟨s, hwalk, hs, hismp, hlapic⟩ := walk_of_entries hl hstart
    refine ⟨l, if mem (mp + 12) ≠ 0 then { s with imcr := true } else s, hl, fun n hn => ?_, ?_, ?_, ?_⟩
    · have hon : ¬ s.ismp = false := by
        rw [hismp]
        exact nofun
      unfold mpinit
      rw [hconf]
      dsimp only
      rw [hwalk n hn]
      simp only [Option.bind_eq_bind, Option.bind_some, if_neg hon]
      split_ifs <;> rfl
    · split_ifs
      · exact ⟨hs.ncpu, hs.apicid⟩
      · exact hs
    · split_ifs <;> exact hismp
    · split_ifs <;> exact hlapic
  · rintro ⟨q, hq, hunknown⟩
    exact mpinit_of_unknown hconf hq hunknown

/-- A floating pointer structure at the address that the BIOS data area gives, and a table to which it points. -/
def withTable (table : List UInt8) : Memory := fun a =>
  if a = 0x8000040E then 0xC0
  else if a = 0x8000040F then 0x9F
  else if 0x8009FC00 ≤ a ∧ a < 0x8009FC10 then
    [0x5F, 0x4D, 0x50, 0x5F, 0, 0, 0x0F, 0, 1, 4, 145, 0, 0, 0, 0, 0].getD (a - 0x8009FC00).toNat 0
  else table.getD (a - 0x800F0000).toNat 0

/-- The header of a table of `n` bytes. -/
def header (n checksum : UInt8) : List UInt8 :=
  [0x50, 0x43, 0x4D, 0x50, n, 0, 1, checksum] ++ List.replicate 28 0 ++ [0, 0, 0xE0, 0xFE, 0, 0, 0, 0]

/-- A table with one processor, which has the id 7. -/
theorem mpinit_returns_iff_cpu : ∃ l s, Entries (withTable (header 64 170 ++ [0, 7])) 0x800F0040 0x800F002C l ∧
    (∀ n, l.length < n → mpinit (withTable (header 64 170 ++ [0, 7])) n .boot = some s) ∧
    Recorded s (ids (withTable (header 64 170 ++ [0, 7])) l) ∧ s.ismp = true ∧ s.lapic = 0xFEE00000 := by
  have hconf : mpconfig (withTable (header 64 170 ++ [0, 7])) = some (0x8009FC00, 0x800F0000) := by decide +kernel
  have hl : Entries (withTable (header 64 170 ++ [0, 7])) 0x800F0040 0x800F002C [0x800F002C] :=
    .next (by decide) (.inl (by decide +kernel)) (.done (by decide +kernel))
  exact (mpinit_returns_iff hconf (by decide +kernel)).1 fun q hq => hl.known hq

/-- The table ends with an entry of type 5, and `mpinit` never leaves it. -/
theorem mpinit_loops : mpconfig (withTable (header 45 191 ++ [5])) = some (0x8009FC00, 0x800F0000) ∧
    Met (withTable (header 45 191 ++ [5])) 0x800F002D 0x800F002C 0x800F002C ∧
    withTable (header 45 191 ++ [5]) 0x800F002C = 5 ∧
    ∀ n, mpinit (withTable (header 45 191 ++ [5])) n .boot = none := by
  have hconf : mpconfig (withTable (header 45 191 ++ [5])) = some (0x8009FC00, 0x800F0000) := by decide +kernel
  have hmet : Met (withTable (header 45 191 ++ [5])) 0x800F002D 0x800F002C 0x800F002C := .here (by decide)
  have htype : withTable (header 45 191 ++ [5]) 0x800F002C = 5 := by decide +kernel
  refine ⟨hconf, hmet, htype, mpinit_of_unknown hconf hmet ?_⟩
  rw [htype]
  unfold Known
  decide

end Xv6.Mp
