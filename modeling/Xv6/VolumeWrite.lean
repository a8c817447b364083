import Xv6.Volume

/-!
# Writing to a file of a volume

A write to file `i` stores bytes in blocks that the file has and gives it further blocks. `Extends`
collects what every such step leaves alone: all other files, the blocks that file `i` already has,
and everything in its inode but the addresses. Steps of this kind compose.
-/

namespace Xv6.Fs

open ByteLayout FreeMap Function

namespace Volume

variable {V V' V₁ : Volume} {i j b c k n n' n₁ : ℕ}

/-- The number of blocks, indirect block included, that a file with `n` content blocks takes up. -/
def cost (n : ℕ) : ℕ := if NDIRECT < n then n + 1 else n

/-- `V'` is `V` after file `i` was written to and grew from `n` to `n'` content blocks. -/
structure Extends (V V' : Volume) (i n n' : ℕ) : Prop where
  sb : V'.sb = V.sb
  exact : V'.Exact
  has : V'.HasBlocks i n'
  le : n ≤ n'
  node_ne : ∀ j, j ≠ i → V'.node j = V.node j
  node : ∃ a, V'.node i = { V.node i with addrs := a }
  addr : ∀ j sl, V.Allocated j → j ≠ i ∨ V.addr j sl ≠ 0 → V'.addr j sl = V.addr j sl
  other : ∀ j k, j ≠ i → V.Allocated j → V.addr j (.block k) ≠ 0 →
    V'.fileBlock j k = V.fileBlock j k
  used : ∀ c, V.used c = true → V'.used c = true
  free : freeCount V'.used V'.sb.size.toNat + cost n' = freeCount V.used V.sb.size.toNat + cost n

namespace Extends

theorem refl (h : V.Exact) (hn : V.HasBlocks i n) : Extends V V i n n :=
  ⟨rfl, h, hn, le_rfl, fun _ _ => rfl, ⟨_, rfl⟩, fun _ _ _ _ => rfl, fun _ _ _ _ _ => rfl,
    fun _ h => h, rfl⟩

theorem type_eq (e : Extends V V' i n n') (j : ℕ) : (V'.node j).type = (V.node j).type := by
  by_cases h : j = i
  · obtain ⟨a, ha⟩ := e.node
    rw [h, ha]
  · rw [e.node_ne j h]

theorem allocated (e : Extends V V' i n n') : V'.Allocated j ↔ V.Allocated j := by
  unfold Allocated
  rw [e.sb, e.type_eq]

theorem trans (e : Extends V V₁ i n n₁) (e' : Extends V₁ V' i n₁ n') : Extends V V' i n n' where
  sb := e'.sb.trans e.sb
  exact := e'.exact
  has := e'.has
  le := e.le.trans e'.le
  node_ne j hj := (e'.node_ne j hj).trans (e.node_ne j hj)
  node := by
    obtain ⟨a, ha⟩ := e.node
    obtain ⟨a', ha'⟩ := e'.node
    exact ⟨a', by rw [ha', ha]⟩
  addr j sl hj h := by
    have h₁ := e.addr j sl hj h
    rw [e'.addr j sl (e.allocated.mpr hj) (h.imp_right fun h0 => by rwa [h₁]), h₁]
  other j k hj ha h0 := by
    have h₁ := e.addr j (.block k) ha (.inl hj)
    rw [e'.other j k hj (e.allocated.mpr ha) (by rwa [h₁]), e.other j k hj ha h0]
  used c hc := e'.used c (e.used c hc)
  free := by
    have h₁ := e.free
    have h₂ := e'.free
    omega

theorem contents_ne (e : Extends V V' i n n') {m : ℕ} (hj : V.Allocated j) (hne : j ≠ i)
    (hm : V.HasBlocks j m) (hsize : (V.node j).size.toNat ≤ m * BSIZE) :
    V'.contents j = V.contents j := by
  unfold contents
  rw [e.node_ne j hne]
  apply List.map_congr_left
  intro o ho
  rw [List.mem_range] at ho
  have hk : o / BSIZE < m := by
    rw [Nat.div_lt_iff_lt_mul (by decide)]
    omega
  unfold byteAt
  rw [e.other j _ hne hj ((hm.block _ (hk.trans_le hm.le)).mpr hk)]

end Extends

namespace Gives

theorem pos {sl : Slot} (g : Gives V V' i sl b) (h : V.Exact) : b ≠ 0 := by
  have h₁ := (FreeMap.Exact.unowned h g.lt g.fresh).1
  have h₂ := FreeMap.Exact.pos h
  omega

theorem used_mono {sl : Slot} (g : Gives V V' i sl b) (c : ℕ) (hc : V.used c = true) :
    V'.used c = true := by
  rw [g.used]
  by_cases hcb : c = b
  · rw [hcb, update_self]
  · rwa [update_of_ne hcb]

theorem extends_block (g : Gives V V' i (.block n) b) (h : V.Exact) (hn : V.HasBlocks i n)
    (hm : n < MAXFILE) (hne : n ≠ NDIRECT) : Extends V V' i n (n + 1) where
  sb := g.sb
  exact := g.exact h
  le := Nat.le_succ n
  node_ne := g.node_ne
  node := g.node
  has := by
    refine ⟨hm, ?_, ?_⟩
    · intro k hk
      rw [g.addr i g.owner]
      by_cases hkn : k = n
      · simp [hkn, g.pos h]
      · simp only [Slot.block.injEq, hkn, and_false, if_false, hn.block k hk]
        omega
    · rw [g.addr i g.owner, if_neg fun hc => Slot.noConfusion hc.2, hn.indirect]
      omega
  addr j sl hj h0 := by
    rw [g.addr j hj, if_neg]
    rintro ⟨rfl, rfl⟩
    rcases h0 with h0 | h0
    · exact h0 rfl
    · exact h0 g.empty
  other j k hj ha h0 := by
    unfold fileBlock
    rw [g.addr j ha, if_neg fun hc => hj hc.1, g.block j k ha h0]
  used := g.used_mono
  free := by
    have := g.freeCount
    unfold cost
    split_ifs <;> omega

theorem extends_indirect (g : Gives V V₁ i .indirect c) (g' : Gives V₁ V' i (.block NDIRECT) b)
    (h : V.Exact) (hn : V.HasBlocks i NDIRECT) : Extends V V' i NDIRECT (NDIRECT + 1) := by
  have ha : ∀ j sl, V.Allocated j → V'.addr j sl =
      if j = i ∧ sl = .block NDIRECT then b else if j = i ∧ sl = .indirect then c else V.addr j sl := by
    intro j sl hj
    rw [g'.addr j (g.allocated.mpr hj), g.addr j hj]
  have hempty : V.addr i (.block NDIRECT) = 0 := by
    have := hn.block NDIRECT (by decide)
    simpa using this
  refine ⟨g'.sb.trans g.sb, g'.exact (g.exact h), ⟨by decide, ?_, ?_⟩, Nat.le_succ _, ?_, ?_, ?_, ?_,
    ?_, ?_⟩
  · intro k hk
    rw [ha i _ g.owner]
    by_cases hkn : k = NDIRECT
    · simp [hkn, g'.pos (g.exact h)]
    · simp only [Slot.block.injEq, hkn, and_false, if_false, hn.block k hk, reduceCtorEq]
      omega
  · rw [ha i _ g.owner]
    simp [g.pos h]
  · intro j hj
    rw [g'.node_ne j hj, g.node_ne j hj]
  · obtain ⟨a, ha⟩ := g.node
    obtain ⟨a', ha'⟩ := g'.node
    exact ⟨a', by rw [ha', ha]⟩
  · intro j sl hj h0
    rw [ha j sl hj, if_neg, if_neg]
    · rintro ⟨rfl, rfl⟩
      exact h0.elim (fun h => h rfl) fun h => h g.empty
    · rintro ⟨rfl, rfl⟩
      exact h0.elim (fun h => h rfl) fun h => h hempty
  · intro j k hj hja h0
    have h₁ : V₁.addr j (.block k) = V.addr j (.block k) := by
      rw [g.addr j hja, if_neg fun hc => hj hc.1]
    unfold fileBlock
    rw [ha j _ hja, if_neg fun hc => hj hc.1, if_neg fun hc => hj hc.1, ← h₁,
      g'.block j k (g.allocated.mpr hja) (by rwa [h₁]), h₁, g.block j k hja h0]
  · intro d hd
    exact g'.used_mono d (g.used_mono d hd)
  · have h₁ := g.freeCount
    have h₂ := g'.freeCount
    simp only [cost, lt_self_iff_false, if_false, Nat.lt_succ_self, if_true]
    omega

theorem byteAt_eq {sl : Slot} (g : Gives V V' i sl b) (hj : V.Allocated j) {o : ℕ}
    (h0 : V.addr j (.block (o / BSIZE)) ≠ 0) (hsl : V.addr i sl = 0) :
    V'.byteAt j o = V.byteAt j o := by
  have ha : V'.addr j (.block (o / BSIZE)) = V.addr j (.block (o / BSIZE)) := by
    rw [g.addr j hj, if_neg]
    rintro ⟨rfl, rfl⟩
    exact h0 hsl
  unfold byteAt fileBlock
  rw [ha, g.block j _ hj h0]

end Gives

/-! ## Storing to a block of a file -/

def store (V : Volume) (c : ℕ) (x : Block) : Volume := { V with data := Function.update V.data c x }

variable {x : Block}

theorem addr_store (h : V.Exact) (hi : V.Allocated i) (hj : V.Allocated j) (sl : Slot) :
    (V.store (V.addr i (.block k)) x).addr j sl = V.addr j sl := by
  apply addr_congr
  · rfl
  · intro hind
    exact update_of_ne (fun he => Slot.noConfusion (h.addr_inj hj hi hind he).2) _ _

theorem fileBlock_store (h : V.Exact) (hi : V.Allocated i) (hj : V.Allocated j) {l : ℕ}
    (hl : V.addr j (.block l) ≠ 0) :
    (V.store (V.addr i (.block k)) x).fileBlock j l =
      if j = i ∧ l = k then x else V.fileBlock j l := by
  unfold fileBlock
  rw [addr_store h hi hj]
  split_ifs with hc
  · rw [hc.1, hc.2]
    exact update_self ..
  · apply update_of_ne
    intro he
    have := h.addr_inj hj hi hl he
    exact hc ⟨this.1, Slot.block.inj this.2⟩

theorem extends_store (h : V.Exact) (hi : V.Allocated i) (hn : V.HasBlocks i n) :
    Extends V (V.store (V.addr i (.block k)) x) i n n := by
  have ha : ∀ j sl, V.Allocated j → (V.store (V.addr i (.block k)) x).addr j sl = V.addr j sl :=
    fun j sl hj => addr_store h hi hj sl
  refine ⟨rfl, ?_, ⟨hn.le, ?_, ?_⟩, le_rfl, fun _ _ => rfl, ⟨_, rfl⟩, ?_, ?_, fun _ h => h, rfl⟩
  · refine FreeMap.Exact.congr h ?_ fun _ _ => rfl
    rintro ⟨j, sl⟩
    unfold own
    by_cases hj : V.Allocated j
    · rw [if_pos hj, if_pos (show (V.store _ x).Allocated j from hj), ha j sl hj]
    · rw [if_neg hj, if_neg (show ¬ (V.store _ x).Allocated j from hj)]
  · intro l hl
    rw [ha i _ hi]
    exact hn.block l hl
  · rw [ha i _ hi]
    exact hn.indirect
  · intro j sl hj _
    exact ha j sl hj
  · intro j l hj hja hl
    rw [fileBlock_store h hi hja hl, if_neg fun hc => hj hc.1]

end Volume

end Xv6.Fs
