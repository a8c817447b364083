import Xv6.HeapModel
import Xv6.PointerChain

/-!
# Blocks of the heap

The free blocks in the order of their addresses, starting with the static header as a block of size zero,
and what `free` and `malloc` do to this list. Then headers in memory.
-/

namespace Xv6.Umalloc

open ByteLayout List

namespace Blk

/-- The end of the memory that the block has. -/
def fin (b : Blk) : ℕ := b.addr + HDR * b.size

/-- The end of the block, or of its header if it has no memory. -/
def top (b : Blk) : ℕ := b.addr + HDR * max b.size 1

def Has (b : Blk) (a : ℕ) : Prop := b.addr ≤ a ∧ a < b.fin

def Apart (b c : Blk) : Prop := b.top ≤ c.addr ∨ c.top ≤ b.addr

/-- The block is below the other one and does not touch it. -/
def Before (b c : Blk) : Prop := b.top ≤ c.addr ∧ b.fin ≠ c.addr

end Blk

open Blk

variable {b c t x : Blk} {l A ns lv : List Blk}

theorem Blk.fin_eq (b : Blk) : b.fin = b.addr + 8 * b.size := rfl

theorem Blk.top_eq (b : Blk) : b.top = b.addr + 8 * max b.size 1 := rfl

theorem Blk.Apart.symm (h : Apart b c) : Apart c b := Or.symm h

theorem Blk.top_of_pos (h : 0 < b.size) : b.top = b.fin := by
  rw [top_eq, fin_eq]
  omega

theorem Blk.addr_lt_top (b : Blk) : b.addr + 8 ≤ b.top := by
  rw [top_eq]
  omega

theorem Blk.fin_le_top (b : Blk) : b.fin ≤ b.top := by
  rw [top_eq, fin_eq]
  omega

theorem Blk.Before.addr_lt (h : Before b c) : b.addr < c.addr := by
  have := b.addr_lt_top
  have := h.1
  omega

/-! ## Joining neighbours -/

def absorb (b : Blk) : List Blk → Blk × List Blk
  | [] => (b, [])
  | c :: l => if b.fin = c.addr then (⟨b.addr, b.size + c.size⟩, l) else (b, c :: l)

def glue (t b : Blk) : List Blk := if t.fin = b.addr then [⟨t.addr, t.size + b.size⟩] else [t, b]

theorem absorb_cons (b c : Blk) (l : List Blk) : absorb b (c :: l) =
    if b.fin = c.addr then (⟨b.addr, b.size + c.size⟩, l) else (b, c :: l) := rfl

theorem absorb_addr (b : Blk) (l : List Blk) : (absorb b l).1.addr = b.addr := by
  cases l with
  | nil => rfl
  | cons c l =>
    rw [absorb_cons]
    split <;> rfl

theorem absorb_size_le (b : Blk) (l : List Blk) : b.size ≤ (absorb b l).1.size := by
  cases l with
  | nil => exact le_rfl
  | cons c l =>
    rw [absorb_cons]
    split
    · exact Nat.le_add_right _ _
    · exact le_rfl

theorem mem_of_mem_absorb (hc : c ∈ (absorb b l).2) : c ∈ l := by
  cases l with
  | nil => exact hc
  | cons d l =>
    rw [absorb_cons] at hc
    split at hc
    · exact mem_cons_of_mem d hc
    · exact hc

theorem absorb_has (hb : 0 < b.size) (a : ℕ) :
    ((absorb b l).1.Has a ∨ ∃ c ∈ (absorb b l).2, c.Has a) ↔ b.Has a ∨ ∃ c ∈ l, c.Has a := by
  cases l with
  | nil => exact Iff.rfl
  | cons d l =>
    rw [absorb_cons]
    split
    · next hfin =>
      have hjoin : Has ⟨b.addr, b.size + d.size⟩ a ↔ b.Has a ∨ d.Has a := by
        simp only [Has, fin_eq] at *
        omega
      rw [hjoin, exists_mem_cons_iff, or_assoc]
    · exact Iff.rfl

theorem glue_has (t b : Blk) (a : ℕ) : (∃ c ∈ glue t b, c.Has a) ↔ t.Has a ∨ b.Has a := by
  unfold glue
  split
  · next hfin =>
    simp only [mem_singleton, exists_eq_left]
    simp only [Has, fin_eq] at *
    omega
  · simp

def inserted (A : List Blk) (t b : Blk) (l : List Blk) : List Blk :=
  A ++ (glue t (absorb b l).1 ++ (absorb b l).2)

theorem inserted_has (hb : 0 < b.size) (a : ℕ) :
    (∃ c ∈ inserted A t b l, c.Has a) ↔ (∃ c ∈ A ++ t :: l, c.Has a) ∨ b.Has a := by
  have hglue : (∃ c ∈ glue t (absorb b l).1, c.Has a) ↔ t.Has a ∨ (absorb b l).1.Has a :=
    glue_has _ _ a
  have habsorb := absorb_has (l := l) hb a
  unfold inserted
  simp only [mem_append, mem_cons, or_and_right, exists_or, exists_eq_left] at *
  rw [hglue, or_assoc, habsorb, or_comm (a := b.Has a)]
  simp only [or_assoc]

theorem inserted_apart (hb : 0 < b.size) (hl : ∀ d ∈ l, 0 < d.size) (hA : ∀ d ∈ A ++ t :: l, Apart d c)
    (hbc : Apart b c) (ht : t.top ≤ b.addr) : ∀ d ∈ inserted A t b l, Apart d c := by
  have habsorb : Apart (absorb b l).1 c := by
    cases l with
    | nil => exact hbc
    | cons d l =>
      rw [absorb_cons]
      split
      · next hfin =>
        have hd := hA d (by simp)
        have hpos := hl d mem_cons_self
        have := c.addr_lt_top
        simp only [Apart, top_eq, fin_eq] at *
        omega
      · exact hbc
  have hglue : ∀ d ∈ glue t (absorb b l).1, Apart d c := by
    have htc := hA t (by simp)
    have haddr := absorb_addr b l
    have hsize := absorb_size_le b l
    unfold glue
    split
    · next hfin =>
      intro d hd
      obtain rfl := mem_singleton.1 hd
      have := c.addr_lt_top
      simp only [Apart, top_eq, fin_eq] at *
      omega
    · intro d hd
      rcases mem_cons.1 hd with rfl | hd
      · exact htc
      · rw [mem_singleton.1 hd]
        exact habsorb
  intro d hd
  unfold inserted at hd
  rcases mem_append.1 hd with hd | hd
  · exact hA d (mem_append_left _ hd)
  · rcases mem_append.1 hd with hd | hd
    · exact hglue d hd
    · exact hA d (mem_append_right _ (mem_cons_of_mem _ (mem_of_mem_absorb hd)))

theorem before_of_lt (hx : x.top ≤ t.addr) (ht : t.top ≤ b.addr) : Before x b := by
  have h₁ := t.addr_lt_top
  have h₂ := x.fin_le_top
  exact ⟨by omega, by omega⟩

theorem absorb_before (hb : 0 < b.size) (hs : l.Pairwise Before) (hpos : ∀ c ∈ l, 0 < c.size)
    (hl : ∀ c ∈ l, b.top ≤ c.addr) : ∀ c ∈ (absorb b l).2, Before (absorb b l).1 c := by
  cases l with
  | nil => exact fun c hc => nomatch hc
  | cons d l =>
    rw [pairwise_cons] at hs
    have hd := hpos d mem_cons_self
    have hbd := hl d mem_cons_self
    rw [absorb_cons]
    split
    · next hfin =>
      intro c hc
      have hdc := hs.1 c hc
      simp only [Before, top_eq, fin_eq] at *
      omega
    · next hfin =>
      intro c hc
      rcases mem_cons.1 hc with rfl | hc
      · exact ⟨hbd, hfin⟩
      · exact before_of_lt hbd (hs.1 c hc).1

theorem absorb_sorted (hs : l.Pairwise Before) : (absorb b l).2.Pairwise Before := by
  cases l with
  | nil => exact hs
  | cons d l =>
    rw [absorb_cons]
    split
    · exact (pairwise_cons.1 hs).2
    · exact hs

theorem inserted_sorted (hs : (A ++ t :: l).Pairwise Before) (hb : 0 < b.size) (ht : t.top ≤ b.addr)
    (hpos : ∀ c ∈ l, 0 < c.size) (hl : ∀ c ∈ l, b.top ≤ c.addr) : (inserted A t b l).Pairwise Before := by
  obtain ⟨hA, htl, hAt⟩ := pairwise_append.1 hs
  obtain ⟨htl, hl'⟩ := pairwise_cons.1 htl
  have haddr := absorb_addr b l
  have hupper := absorb_before hb hl' hpos hl
  have hbsize := absorb_size_le b l
  have hglue : ∀ d ∈ glue t (absorb b l).1, d.addr = t.addr ∨ d.addr = b.addr := by
    intro d hd
    unfold glue at hd
    split at hd
    · rw [mem_singleton.1 hd]
      exact .inl rfl
    · rcases mem_cons.1 hd with rfl | hd
      · exact .inl rfl
      · rw [mem_singleton.1 hd]
        exact .inr haddr
  refine pairwise_append.2 ⟨hA, pairwise_append.2 ⟨?_, absorb_sorted hl', ?_⟩, ?_⟩
  · unfold glue
    split
    · exact pairwise_singleton _ _
    · next hfin =>
      refine pairwise_cons.2 ⟨fun d hd => ?_, pairwise_singleton _ _⟩
      rw [mem_singleton.1 hd]
      exact ⟨by rw [haddr]; exact ht, hfin⟩
  · intro d hd c hc
    have hbc := hupper c hc
    unfold glue at hd
    split at hd
    · next hfin =>
      rw [mem_singleton.1 hd]
      simp only [Before, top_eq, fin_eq] at *
      omega
    · rcases mem_cons.1 hd with rfl | hd
      · exact htl c (mem_of_mem_absorb hc)
      · rw [mem_singleton.1 hd]
        exact hbc
  · intro a ha d hd
    have hat := hAt a ha t mem_cons_self
    rcases mem_append.1 hd with hd | hd
    · rcases hglue d hd with hd | hd
      · unfold Before at *
        rw [hd]
        exact hat
      · have := before_of_lt hat.1 ht
        unfold Before at *
        rw [hd]
        exact this
    · exact hAt a ha d (mem_cons_of_mem _ (mem_of_mem_absorb hd))

theorem glue_of_eq (h : t.fin = b.addr) : glue t b = [⟨t.addr, t.size + b.size⟩] := if_pos h

theorem glue_of_ne (h : t.fin ≠ b.addr) : glue t b = [t, b] := if_neg h

theorem absorb_top_lt {K : ℕ} (hb : b.top < K) (hl : ∀ c ∈ l, c.top < K) (hbl : ∀ c ∈ l, 0 < c.size) :
    (absorb b l).1.top < K := by
  cases l with
  | nil => exact hb
  | cons c l =>
    have hc := hl c mem_cons_self
    have hpos := hbl c mem_cons_self
    rw [absorb_cons]
    split
    · next hjoin =>
      simp only [top_eq, fin_eq] at *
      omega
    · exact hb

theorem inserted_top_lt {K : ℕ} (hns : ∀ c ∈ A ++ t :: l, c.top < K) (hb : b.top < K) (hpos : 0 < b.size)
    (hl : ∀ c ∈ l, 0 < c.size) : ∀ c ∈ inserted A t b l, c.top < K := by
  have ht := hns t (by simp)
  have hupper : (absorb b l).1.top < K := absorb_top_lt hb (fun c hc => hns c (by simp [hc])) hl
  have hsize := hpos.trans_le (absorb_size_le b l)
  intro c hc
  rcases mem_append.1 hc with hc | hc
  · exact hns c (mem_append_left _ hc)
  · rcases mem_append.1 hc with hc | hc
    · by_cases hjoin : t.fin = (absorb b l).1.addr
      · rw [glue_of_eq hjoin] at hc
        rw [mem_singleton.1 hc]
        simp only [top_eq, fin_eq] at *
        omega
      · rw [glue_of_ne hjoin] at hc
        rcases mem_cons.1 hc with rfl | hc
        · exact ht
        · rw [mem_singleton.1 hc]
          exact hupper
    · exact hns c (by simp [mem_of_mem_absorb hc])

theorem inserted_head {base : ℕ} {fl : List Blk} (hns : A ++ t :: l = ⟨base, 0⟩ :: fl)
    (hfl : ∀ c ∈ fl, 0 < c.size) (hpos : 0 < b.size) (hbase : base < b.addr) :
    ∃ fl', inserted A t b l = ⟨base, 0⟩ :: fl' ∧ ∀ c ∈ fl', 0 < c.size := by
  have hsize := hpos.trans_le (absorb_size_le b l)
  cases A with
  | nil =>
    obtain ⟨rfl, rfl⟩ := List.cons.inj hns
    have hjoin : (⟨base, 0⟩ : Blk).fin ≠ (absorb b l).1.addr := by
      rw [absorb_addr, fin_eq]
      dsimp only
      omega
    refine ⟨(absorb b l).1 :: (absorb b l).2, by rw [inserted, glue_of_ne hjoin]; rfl, fun c hc => ?_⟩
    rcases mem_cons.1 hc with rfl | hc
    · exact hsize
    · exact hfl c (mem_of_mem_absorb hc)
  | cons a A =>
    obtain ⟨rfl, rfl⟩ := List.cons.inj hns
    refine ⟨A ++ (glue t (absorb b l).1 ++ (absorb b l).2), rfl, fun c hc => ?_⟩
    rcases mem_append.1 hc with hc | hc
    · exact hfl c (mem_append_left _ hc)
    · rcases mem_append.1 hc with hc | hc
      · by_cases hjoin : t.fin = (absorb b l).1.addr
        · rw [glue_of_eq hjoin] at hc
          rw [mem_singleton.1 hc]
          exact Nat.add_pos_right _ hsize
        · rw [glue_of_ne hjoin] at hc
          rcases mem_cons.1 hc with rfl | hc
          · exact hfl c (by simp)
          · rw [mem_singleton.1 hc]
            exact hsize
      · exact hfl c (by simp [mem_of_mem_absorb hc])

/-! ## Headers in memory -/

def Far (p q : ℕ) : Prop := p + 8 ≤ q ∨ q + 8 ≤ p

theorem Blk.Before.far (h : Before b c) : Far b.addr c.addr :=
  .inl (b.addr_lt_top.trans h.1)

theorem Blk.Apart.far (h : Apart b c) : Far b.addr c.addr := by
  have := b.addr_lt_top
  have := c.addr_lt_top
  unfold Apart at h
  unfold Far
  omega

theorem Far.symm {p q : ℕ} (h : Far p q) : Far q p := Or.symm h

section Memory

variable {h : Heap} {p q v n : ℕ}

theorem get32_put32 (m : Bytes) (a : ℕ) (v : UInt32) : get32 (put32 m a v) a = v := by
  rw [← get32_leByte v]
  refine get32_congr fun i hi => ?_
  rw [put32, get32_leByte, blit_inside hi, Nat.zero_add]

theorem get32_put32_of_ne (m : Bytes) {a o : ℕ} (v : UInt32) (h : o + 4 ≤ a ∨ a + 4 ≤ o) :
    get32 (put32 m a v) o = get32 m o :=
  get32_congr fun i hi => blit_outside (by omega)

theorem put32_of_ne (m : Bytes) {a i : ℕ} (v : UInt32) (h : i < a ∨ a + 4 ≤ i) : put32 m a v i = m i :=
  blit_outside h

namespace Heap

theorem ptr_lt (h : Heap) (p : ℕ) : h.ptr p < 2 ^ 32 := UInt32.toNat_lt _

theorem ptr_setPtr (hv : v < 2 ^ 32) : (h.setPtr p v).ptr p = v := by
  rw [ptr, setPtr, get32_put32, UInt32.toNat_ofNat', Nat.mod_eq_of_lt hv]

theorem size_setSize (hn : n < 2 ^ 32) : (h.setSize p n).size p = n := by
  rw [size, setSize, get32_put32, UInt32.toNat_ofNat', Nat.mod_eq_of_lt hn]

theorem size_setPtr (hq : p = q ∨ Far p q) : (h.setPtr p v).size q = h.size q := by
  rw [size, setPtr, get32_put32_of_ne, size]
  unfold Far at hq
  omega

theorem ptr_setSize (hq : p = q ∨ Far p q) : (h.setSize p n).ptr q = h.ptr q := by
  rw [ptr, setSize, get32_put32_of_ne, ptr]
  unfold Far at hq
  omega

theorem ptr_setPtr_of_far (hq : Far p q) : (h.setPtr p v).ptr q = h.ptr q := by
  rw [ptr, setPtr, get32_put32_of_ne, ptr]
  unfold Far at hq
  omega

theorem size_setSize_of_far (hq : Far p q) : (h.setSize p n).size q = h.size q := by
  rw [size, setSize, get32_put32_of_ne, size]
  unfold Far at hq
  omega

def Touches (h h' : Heap) (l : List ℕ) : Prop :=
  ∀ a, (∀ p ∈ l, a < p ∨ p + 8 ≤ a) → h'.mem a = h.mem a

theorem touches_setPtr : Touches h (h.setPtr p v) [p] := fun a ha =>
  put32_of_ne _ _ (by have := ha p mem_cons_self; omega)

theorem touches_setSize : Touches h (h.setSize p n) [p] := fun a ha =>
  put32_of_ne _ _ (by have := ha p mem_cons_self; omega)

theorem Touches.trans {h₁ h₂ : Heap} {l l' : List ℕ} (hl : Touches h h₁ l) (hl' : Touches h₁ h₂ l') :
    Touches h h₂ (l ++ l') := fun a ha =>
  (hl' a fun p hp => ha p (mem_append_right l hp)).trans
    (hl a fun p hp => ha p (mem_append_left l' hp))

theorem Touches.mono {h' : Heap} {l l' : List ℕ} (hl : Touches h h' l) (hsub : ∀ p ∈ l, p ∈ l') :
    Touches h h' l' := fun a ha => hl a fun p hp => ha p (hsub p hp)

theorem Touches.ptr {h' : Heap} {l : List ℕ} (hl : Touches h h' l) (hq : ∀ p ∈ l, Far p q) :
    h'.ptr q = h.ptr q := by
  refine congrArg UInt32.toNat (get32_congr fun i hi => hl _ fun p hp => ?_)
  have := hq p hp
  unfold Far at this
  omega

theorem Touches.size {h' : Heap} {l : List ℕ} (hl : Touches h h' l) (hq : ∀ p ∈ l, Far p q) :
    h'.size q = h.size q := by
  refine congrArg UInt32.toNat (get32_congr fun i hi => hl _ fun p hp => ?_)
  have := hq p hp
  unfold Far at this
  omega

end Heap

theorem plus_eq (h : p + 8 * n < 2 ^ 32) : plus p n = p + 8 * n := Nat.mod_eq_of_lt h

end Memory

end Xv6.Umalloc
