import Xv6.BlockLayer

/-!
# Volumes: inodes, free map and data blocks

A volume is what the file system layer sees of a disk: the inode table, the free map and the data
blocks, without their encoding. Its main property is that the free map is exact for the block
addresses found in the inodes and in their indirect blocks. Giving a file one more block and storing
to a block of a file are described here as operations on volumes, with what they leave unchanged.
-/

namespace Xv6.Fs

open ByteLayout FreeMap Function

structure Volume where
  sb : Superblock
  node : ℕ → Dinode
  used : ℕ → Bool
  data : ℕ → Block

/-- The places of an inode that hold a block address. `block k` is the address of the `k`-th content
block, in the inode itself for `k < NDIRECT` and in the indirect block from there on. -/
inductive Slot
  | indirect
  | block (k : ℕ)
deriving DecidableEq

/-- The number of blocks of a file of `size` bytes. -/
def blocksOf (size : ℕ) : ℕ := (size + BSIZE - 1) / BSIZE

namespace Volume

def indirectAddr (V : Volume) (i : ℕ) : ℕ := ((V.node i).addrs (Fin.last _)).toNat

/-- The block address in a slot of inode `i`, 0 if there is none. -/
def addr (V : Volume) (i : ℕ) : Slot → ℕ
  | .indirect => V.indirectAddr i
  | .block k =>
    if k < NDIRECT then ((V.node i).addrs (Fin.ofNat _ k)).toNat
    else if k < MAXFILE ∧ V.indirectAddr i ≠ 0 then
      ((V.data (V.indirectAddr i)).word (k - NDIRECT)).toNat
    else 0

def Allocated (V : Volume) (i : ℕ) : Prop := i < V.sb.ninodes.toNat ∧ (V.node i).type ≠ 0

instance (V : Volume) (i : ℕ) : Decidable (V.Allocated i) := inferInstanceAs (Decidable (_ ∧ _))

/-- The owner of a data block is a slot of an allocated inode. -/
def own (V : Volume) (x : ℕ × Slot) : ℕ := if V.Allocated x.1 then V.addr x.1 x.2 else 0

/-- The free map marks exactly the metadata blocks and the blocks that one slot refers to. -/
def Exact (V : Volume) : Prop := FreeMap.Exact V.own V.used V.sb.dataStart V.sb.size.toNat

/-- Inode `i` has `n` content blocks, and an indirect block exactly if it needs one. -/
structure HasBlocks (V : Volume) (i n : ℕ) : Prop where
  le : n ≤ MAXFILE
  block : ∀ k < MAXFILE, V.addr i (.block k) ≠ 0 ↔ k < n
  indirect : V.addr i .indirect ≠ 0 ↔ NDIRECT < n

/-- Blocks are allocated exactly up to the size of each inode. -/
def HoleFree (V : Volume) : Prop :=
  ∀ i, V.Allocated i → V.HasBlocks i (blocksOf (V.node i).size.toNat)

def fileBlock (V : Volume) (i k : ℕ) : Block := V.data (V.addr i (.block k))

def byteAt (V : Volume) (i o : ℕ) : UInt8 := (V.fileBlock i (o / BSIZE)).byte (o % BSIZE)

/-- The contents of file `i`. -/
def contents (V : Volume) (i : ℕ) : List UInt8 :=
  (List.range (V.node i).size.toNat).map (V.byteAt i)

variable {V V' : Volume} {i j b c k n : ℕ}

variable {a : Fin (NDIRECT + 1)}

theorem own_of_allocated (h : V.Allocated i) (sl : Slot) : V.own (i, sl) = V.addr i sl := if_pos h

theorem addr_indirect : V.addr i .indirect = ((V.node i).addrs (Fin.last _)).toNat := rfl

theorem addr_direct (hk : k < NDIRECT) :
    V.addr i (.block k) = ((V.node i).addrs (Fin.ofNat _ k)).toNat := if_pos hk

theorem addr_entry_eq (hk : ¬ k < NDIRECT) : V.addr i (.block k) =
    if k < MAXFILE ∧ V.addr i .indirect ≠ 0 then
      ((V.data (V.addr i .indirect)).word (k - NDIRECT)).toNat else 0 := if_neg hk

theorem addr_entry (hk : ¬ k < NDIRECT) (hm : k < MAXFILE) (hind : V.addr i .indirect ≠ 0) :
    V.addr i (.block k) = ((V.data (V.addr i .indirect)).word (k - NDIRECT)).toNat := by
  rw [addr_entry_eq hk, if_pos ⟨hm, hind⟩]

theorem addr_congr (hnode : (V'.node i).addrs = (V.node i).addrs)
    (hdata : V.addr i .indirect ≠ 0 → V'.data (V.addr i .indirect) = V.data (V.addr i .indirect))
    (sl : Slot) : V'.addr i sl = V.addr i sl := by
  have hind : V'.addr i .indirect = V.addr i .indirect := by rw [addr_indirect, hnode, addr_indirect]
  cases sl with
  | indirect => exact hind
  | block k =>
    by_cases hk : k < NDIRECT
    · rw [addr_direct hk, addr_direct hk, hnode]
    · rw [addr_entry_eq hk, addr_entry_eq hk, hind]
      split_ifs with h
      · rw [hdata h.2]
      · rfl

namespace Exact

theorem addr_range (h : V.Exact) (hi : V.Allocated i) {sl : Slot} (ha : V.addr i sl ≠ 0) :
    V.sb.dataStart ≤ V.addr i sl ∧ V.addr i sl < V.sb.size.toNat := by
  rw [← own_of_allocated hi] at ha ⊢
  exact h.range _ ha

theorem addr_inj (h : V.Exact) (hi : V.Allocated i) (hj : V.Allocated j) {sl sl' : Slot}
    (ha : V.addr i sl ≠ 0) (he : V.addr i sl = V.addr j sl') : i = j ∧ sl = sl' := by
  rw [← own_of_allocated hi] at ha he
  rw [← own_of_allocated hj] at he
  simpa using h.inj _ _ ha he

theorem addr_ne_free (h : V.Exact) (hb : b < V.sb.size.toNat) (hfree : V.used b = false)
    (hi : V.Allocated i) (sl : Slot) : V.addr i sl ≠ b := by
  rw [← own_of_allocated hi]
  exact (h.unowned hb hfree).2 _

end Exact

/-! ## Growing a file -/

def slotOf (j : Fin (NDIRECT + 1)) : Slot := if j = Fin.last _ then .indirect else .block j

def growAddr (V : Volume) (i : ℕ) (j : Fin (NDIRECT + 1)) (b : ℕ) : Volume :=
  { V with
    node := Function.update V.node i
      { V.node i with addrs := Function.update (V.node i).addrs j (UInt32.ofNat b) }
    used := Function.update V.used b true
    data := Function.update V.data b .zero }

def growEntry (V : Volume) (i j b : ℕ) : Volume :=
  { V with
    used := Function.update V.used b true
    data := Function.update (Function.update V.data b .zero) (V.addr i .indirect)
      ((V.data (V.addr i .indirect)).setWord j (UInt32.ofNat b)) }

theorem toNat_ofNat_lt {sb : Superblock} (hb : b < sb.size.toNat) : (UInt32.ofNat b).toNat = b := by
  rw [UInt32.toNat_ofNat']
  exact Nat.mod_eq_of_lt (hb.trans sb.size.toNat_lt)

theorem slotOf_ofNat (hk : k < NDIRECT) : slotOf (Fin.ofNat _ k) = .block k := by
  have hval : (Fin.ofNat (NDIRECT + 1) k : ℕ) = k := by
    rw [Fin.val_ofNat, Nat.mod_eq_of_lt (by omega)]
  have hne : Fin.ofNat (NDIRECT + 1) k ≠ Fin.last _ := by
    intro h
    have := congrArg Fin.val h
    rw [hval, Fin.val_last] at this
    omega
  rw [slotOf, if_neg hne, hval]

theorem addr_slotOf (a : Fin (NDIRECT + 1)) : V.addr i (slotOf a) = ((V.node i).addrs a).toNat := by
  unfold slotOf
  split_ifs with h
  · rw [h]
    rfl
  · have hlt : (a : ℕ) < NDIRECT := Fin.val_lt_last h
    rw [addr_direct hlt, Fin.ofNat_val_eq_self]

theorem growAddr_addrs {c : Fin (NDIRECT + 1)} (hb : b < V.sb.size.toNat) :
    (((V.growAddr i a b).node i).addrs c).toNat = if c = a then b else ((V.node i).addrs c).toNat := by
  simp only [growAddr, update_self]
  by_cases h : c = a
  · rw [h, update_self, if_pos rfl, toNat_ofNat_lt hb]
  · rw [update_of_ne h, if_neg h]

theorem slotOf_last : slotOf (Fin.last _) = .indirect := if_pos rfl

theorem slotOf_injective : Function.Injective slotOf := by
  intro a c h
  unfold slotOf at h
  split_ifs at h with h₁ h₂ h₃
  · exact h₁.trans h₂.symm
  · exact Fin.ext (Slot.block.inj h)

theorem slotOf_ne_entry (hk : ¬ k < NDIRECT) (a : Fin (NDIRECT + 1)) : Slot.block k ≠ slotOf a := by
  unfold slotOf
  split_ifs with h
  · exact fun he => Slot.noConfusion he
  · intro he
    exact hk (Slot.block.inj he ▸ Fin.val_lt_last h)

theorem addr_growAddr (h : V.Exact) (hi : V.Allocated i) (ha : V.addr i (slotOf a) = 0)
    (hb : b < V.sb.size.toNat) (hfree : V.used b = false) (hj : V.Allocated j) (sl : Slot) :
    (V.growAddr i a b).addr j sl = if j = i ∧ sl = slotOf a then b else V.addr j sl := by
  have hdata : ∀ sl, (V.growAddr i a b).data (V.addr j sl) = V.data (V.addr j sl) := fun sl =>
    update_of_ne (h.addr_ne_free hb hfree hj sl) _ _
  by_cases hij : j = i
  swap
  · rw [if_neg fun hc => hij hc.1]
    apply addr_congr
    · simp [growAddr, update_of_ne hij]
    · exact fun _ => hdata _
  subst hij
  have haddrs : ∀ c, (V.growAddr j a b).addr j (slotOf c) =
      if slotOf c = slotOf a then b else V.addr j (slotOf c) := by
    intro c
    rw [addr_slotOf, growAddr_addrs hb, addr_slotOf]
    simp only [slotOf_injective.eq_iff]
  simp only [true_and]
  cases sl with
  | indirect => exact haddrs (Fin.last _)
  | block k =>
    by_cases hk : k < NDIRECT
    · rw [← slotOf_ofNat hk]
      exact haddrs _
    · have hind : (V.growAddr j a b).addr j .indirect = _ := haddrs (Fin.last _)
      rw [if_neg (slotOf_ne_entry hk a), addr_entry_eq hk, addr_entry_eq hk, hind, slotOf_last]
      by_cases hl : Slot.indirect = slotOf a
      · -- the new indirect block has no entries yet
        rw [if_pos hl, hl, ha]
        simp [growAddr]
      · rw [if_neg hl, hdata]

theorem addr_growEntry (h : V.Exact) (hi : V.Allocated i) (hind : V.addr i .indirect ≠ 0)
    (hk : ¬ k < NDIRECT) (hm : k < MAXFILE) (hb : b < V.sb.size.toNat) (hfree : V.used b = false)
    (hj : V.Allocated j) (sl : Slot) : (V.growEntry i (k - NDIRECT) b).addr j sl =
      if j = i ∧ sl = .block k then b else V.addr j sl := by
  have hne := h.addr_ne_free hb hfree hj
  by_cases hij : j = i
  swap
  · rw [if_neg fun hc => hij hc.1]
    apply addr_congr
    · rfl
    · intro h0
      have hother : V.addr j .indirect ≠ V.addr i .indirect := fun he =>
        hij (h.addr_inj hj hi h0 he).1
      simp only [growEntry]
      rw [update_of_ne hother, update_of_ne (hne _)]
  subst hij
  simp only [true_and]
  cases sl with
  | indirect => rfl
  | block k' =>
    by_cases hk' : k' < NDIRECT
    · rw [if_neg (by rw [Slot.block.injEq]; omega), addr_direct hk', addr_direct hk']
      rfl
    · have hind' : (V.growEntry j (k - NDIRECT) b).addr j .indirect = V.addr j .indirect := rfl
      have hdata : (V.growEntry j (k - NDIRECT) b).data (V.addr j .indirect) =
          (V.data (V.addr j .indirect)).setWord (k - NDIRECT) (UInt32.ofNat b) :=
        update_self ..
      have hin : 4 * (k - NDIRECT) + 4 ≤ BSIZE := by
        simp only [MAXFILE, NDIRECT, NINDIRECT, BSIZE] at *
        omega
      rw [addr_entry_eq hk', addr_entry_eq hk', hind', hdata, Buffer.word_setWord hin]
      by_cases hkk : k' = k
      · subst hkk
        rw [if_pos ⟨hm, hind⟩, if_pos rfl, if_pos rfl, toNat_ofNat_lt hb]
      · rw [if_neg (show k' - NDIRECT ≠ k - NDIRECT by omega),
          if_neg fun he => hkk (Slot.block.inj he)]

/-- `V'` is `V` after the free block `b` was given to the empty slot `sl` of inode `i`. -/
structure Gives (V V' : Volume) (i : ℕ) (sl : Slot) (b : ℕ) : Prop where
  sb : V'.sb = V.sb
  lt : b < V.sb.size.toNat
  fresh : V.used b = false
  empty : V.addr i sl = 0
  owner : V.Allocated i
  node_ne : ∀ j, j ≠ i → V'.node j = V.node j
  node : ∃ a, V'.node i = { V.node i with addrs := a }
  addr : ∀ j, V.Allocated j → ∀ sl', V'.addr j sl' = if j = i ∧ sl' = sl then b else V.addr j sl'
  used : V'.used = Function.update V.used b true
  block : ∀ j k, V.Allocated j → V.addr j (.block k) ≠ 0 →
    V'.data (V.addr j (.block k)) = V.data (V.addr j (.block k))

theorem gives_growAddr (h : V.Exact) (hi : V.Allocated i)
    (ha : V.addr i (slotOf a) = 0) (hb : b < V.sb.size.toNat) (hfree : V.used b = false) :
    Gives V (V.growAddr i a b) i (slotOf a) b where
  sb := rfl
  lt := hb
  fresh := hfree
  empty := ha
  owner := hi
  node_ne _ hj := update_of_ne hj _ _
  node := ⟨_, update_self ..⟩
  addr _ hj := addr_growAddr h hi ha hb hfree hj
  used := rfl
  block _ _ hj _ := update_of_ne (h.addr_ne_free hb hfree hj _) _ _

theorem gives_growEntry (h : V.Exact) (hi : V.Allocated i) (hind : V.addr i .indirect ≠ 0)
    (hk : ¬ k < NDIRECT) (hm : k < MAXFILE) (ha : V.addr i (.block k) = 0)
    (hb : b < V.sb.size.toNat) (hfree : V.used b = false) :
    Gives V (V.growEntry i (k - NDIRECT) b) i (.block k) b where
  sb := rfl
  lt := hb
  fresh := hfree
  empty := ha
  owner := hi
  node_ne _ _ := rfl
  node := ⟨_, rfl⟩
  addr _ hj := addr_growEntry h hi hind hk hm hb hfree hj
  used := rfl
  block j k' hj h0 := by
    have hne : V.addr j (.block k') ≠ V.addr i .indirect := fun he =>
      Slot.noConfusion (h.addr_inj hj hi h0 he).2
    simp only [growEntry]
    rw [update_of_ne hne, update_of_ne (h.addr_ne_free hb hfree hj _)]

namespace Gives

variable {sl : Slot}

section

variable (g : Gives V V' i sl b)
include g

theorem type_eq (j : ℕ) : (V'.node j).type = (V.node j).type := by
  by_cases h : j = i
  · obtain ⟨a, ha⟩ := g.node
    rw [h, ha]
  · rw [g.node_ne j h]

theorem allocated : V'.Allocated j ↔ V.Allocated j := by
  unfold Allocated
  rw [g.sb, g.type_eq]

theorem exact (h : V.Exact) : V'.Exact := by
  unfold Exact
  rw [g.sb]
  refine FreeMap.Exact.alloc (k := (i, sl)) h g.lt g.fresh ?_ ?_ ?_
  · rw [own_of_allocated g.owner, g.empty]
  · rintro ⟨j, sl'⟩
    unfold own
    by_cases hj : V.Allocated j
    · simp only [if_pos hj, if_pos (g.allocated.mpr hj), g.addr j hj, Prod.mk.injEq]
    · have hji : j ≠ i := fun he => hj (he ▸ g.owner)
      simp [hj, g.allocated, hji]
  · intro c _
    rw [g.used]
    by_cases hc : c = b <;> simp [hc]

theorem freeCount : freeCount V'.used V'.sb.size.toNat + 1 = freeCount V.used V.sb.size.toNat := by
  rw [g.sb]
  apply freeCount_alloc g.lt g.fresh
  intro c _
  rw [g.used]
  by_cases hc : c = b <;> simp [hc]

end

end Gives

end Volume

end Xv6.Fs
