import Xv6.HeapRuns

/-!
# The sizes that malloc computes

`malloc` rounds the request up to units, and `morecore` passes the number of bytes to `sbrk`, which takes an
`int`. Both computations are made with 32 bits.
-/

namespace Xv6.Umalloc

open ByteLayout Blk Heap

/-- The argument of the call of `sbrk` in `morecore`. -/
def sbrkBytes (nu : ℕ) : Int32 := (UInt32.ofNat (if nu < 4096 then 4096 else nu) * UInt32.ofNat HDR).toInt32

/-- On every heap, `malloc` returns 0 or a block that has room for the bytes. -/
def RoomGiven (nbytes : UInt32) : Prop :=
  ∀ base w sbrk, 0 < base → base + HDR < KERNBASE → Run base w →
    (∀ p rest, sbrk = some p :: rest → Fresh base w.heap p (max (nunits nbytes) 4096)) →
    ∃ r h', Gives (fun n => malloc base n nbytes sbrk w.heap) (r, h') ∧
      (r = 0 ∨ nbytes.toNat + HDR ≤ HDR * h'.size (r - HDR))

/-- A call of `sbrk` asks for at least the block. -/
def GrowthAsked (nbytes : UInt32) : Prop := (HDR * nunits nbytes : ℤ) ≤ (sbrkBytes (nunits nbytes)).toInt

variable {nbytes : UInt32}

theorem nunits_wrapped (h : 2 ^ 32 ≤ nbytes.toNat + 7) : nunits nbytes = 1 := by
  have := nbytes.toNat_lt
  unfold nunits HDR
  rw [UInt32.toNat_add, show (7 : UInt32).toNat = 7 from rfl]
  omega

theorem nunits_eq (h : nbytes.toNat + 7 < 2 ^ 32) : nunits nbytes = (nbytes.toNat + 7) / 8 + 1 := by
  unfold nunits HDR
  rw [UInt32.toNat_add, show (7 : UInt32).toNat = 7 from rfl, Nat.mod_eq_of_lt h]

theorem sbrkBytes_toInt (nu : ℕ) : (sbrkBytes nu).toInt = ((HDR * max nu 4096 : ℕ) : ℤ).bmod (2 ^ 32) := by
  have hmax : (if nu < 4096 then 4096 else nu) = max nu 4096 := by
    split_ifs <;> omega
  have hbytes : (UInt32.ofNat (max nu 4096) * UInt32.ofNat HDR).toNat = (HDR * max nu 4096) % 2 ^ 32 := by
    rw [UInt32.toNat_mul, UInt32.toNat_ofNat', UInt32.toNat_ofNat', ← Nat.mul_mod, Nat.mul_comm]
  rw [sbrkBytes, hmax]
  refine (BitVec.toInt_eq_toNat_bmod _).trans ?_
  change ((UInt32.ofNat (max nu 4096) * UInt32.ofNat HDR).toNat : ℤ).bmod (2 ^ 32) = _
  rw [hbytes, Int.natCast_emod]
  exact Int.emod_bmod _ _

theorem growthAsked_iff : GrowthAsked nbytes ↔ HDR * nunits nbytes < 2 ^ 31 := by
  have hle : nunits nbytes ≤ 2 ^ 29 := by
    have := (nbytes + 7).toNat_lt
    unfold nunits HDR
    omega
  unfold GrowthAsked
  rw [sbrkBytes_toInt, Int.bmod_def]
  simp only [HDR]
  split_ifs <;> omega

theorem roomGiven_of_le (h : HDR * nunits nbytes < 2 ^ 31) (hwrap : nbytes.toNat + 7 < 2 ^ 32) :
    RoomGiven nbytes := by
  intro base w sbrk hbase hlow hw hfresh
  have hask : Asks base w.heap nbytes sbrk := by
    refine ⟨?_, hfresh⟩
    simp only [HDR] at *
    omega
  obtain ⟨q, h', h₀, ns, hgives, hout, -, -⟩ := (hw.ok hbase hlow).malloc hbase hlow hask
  refine ⟨q, h', hgives, ?_⟩
  cases hout with
  | fails _ _ => exact .inl rfl
  | @gives a ns' _ hrep _ =>
    rw [Nat.add_sub_cancel, hrep.size ⟨a, nunits nbytes⟩ (List.mem_append_right ns' List.mem_cons_self)]
    exact .inr ((nunits_enough nbytes).2 hwrap)

/-- The arithmetic of `malloc` is safe for requests of up to `2 ^ 31 - 16` bytes, and for no others. -/
theorem malloc_request_iff (nbytes : UInt32) :
    RoomGiven nbytes ∧ GrowthAsked nbytes ↔ nbytes.toNat ≤ 2 ^ 31 - 16 := by
  by_cases hwrap : nbytes.toNat + 7 < 2 ^ 32
  · have hunits := nunits_eq hwrap
    rw [growthAsked_iff]
    simp only [HDR]
    constructor
    · rintro ⟨-, hgrow⟩
      omega
    · intro hle
      have hsmall : 8 * nunits nbytes < 2 ^ 31 := by omega
      exact ⟨roomGiven_of_le hsmall hwrap, hsmall⟩
  · have hunits := nunits_wrapped (Nat.le_of_not_lt hwrap)
    refine iff_of_false ?_ (by omega)
    rintro ⟨hroom, -⟩
    obtain ⟨r, h', -, hgives, hr, hsize⟩ := malloc_first nbytes (by rw [hunits]; decide)
    obtain ⟨r', h'', hgives', hroom⟩ := hroom 4096 ⟨⟨fun _ => 0, 0, []⟩, []⟩ [some 8192] (by decide) (by decide)
      (.start _) (by
        rintro p rest ⟨⟩
        rw [hunits]
        exact ⟨by decide, nofun, by decide⟩)
    obtain ⟨rfl, rfl⟩ := Prod.mk.inj (hgives.unique hgives')
    have := hroom.resolve_left hr
    rw [hsize, hunits] at this
    simp only [HDR] at this
    omega

/-- A request of `2 ^ 32 - 7` bytes gets a block without room for one, and a request of `2 ^ 31` bytes asks
`sbrk` to make the heap smaller. -/
theorem malloc_request_wraps :
    (∃ r h', Gives (fun n => malloc 4096 n 0xFFFFFFF9 [some 8192] ⟨fun _ => 0, 0, []⟩) (r, h') ∧ r ≠ 0 ∧
      HDR * h'.size (r - HDR) = HDR) ∧ (sbrkBytes (nunits 0x80000000)).toInt = -2147483640 := by
  refine ⟨?_, by decide⟩
  obtain ⟨r, h', -, hgives, hr, hsize⟩ := malloc_first 0xFFFFFFF9 (by decide)
  exact ⟨r, h', hgives, hr, by rw [hsize]; rfl⟩

end Xv6.Umalloc
