import Xv6.FileBlocks

/-!
# File contents

`readi` and `writei` on files and directories, block by block and then as operations on byte arrays.
Reading returns a slice of the contents and changes nothing. Writing overwrites the contents from an
offset on, extends the file if it has to, and leaves the contents of every other file alone.
-/

namespace Xv6.Fs

open Resumption ByteLayout FreeMap List FsState

variable {s s' : FsState} {k : Fin NINODE} {n off m : ℕ} {src : Bytes} {E : Stop → FsState → Prop}

theorem chunk_pos (h : m ≠ 0) : 0 < min m (BSIZE - off % BSIZE) := by
  have := Nat.mod_lt off (show 0 < BSIZE by decide)
  omega

theorem chunk_block {j : ℕ} (hj : j < min m (BSIZE - off % BSIZE)) :
    (off + j) / BSIZE = off / BSIZE ∧ (off + j) % BSIZE = off % BSIZE + j := by
  simp only [BSIZE] at *
  omega

theorem map_range_append {f g : ℕ → UInt8} {p q : ℕ} (hg : ∀ j < q, g j = f (p + j)) :
    (List.range p).map f ++ (List.range q).map g = (List.range (p + q)).map f := by
  rw [range_add, map_append, map_map]
  congr 1
  apply map_congr_left
  intro j hj
  exact hg j (mem_range.mp hj)

theorem wp_readLoop {R : List UInt8 → FsState → Prop}
    (h : Readable (s.volWith k) (s.inode k).inum n) (hm : off + m ≤ n * BSIZE)
    (hR : R ((List.range m).map fun j => (s.volWith k).byteAt (s.inode k).inum (off + j)) s) :
    wp (readLoop k off m) R E s := by
  induction m using Nat.strong_induction_on generalizing off R with
  | _ m ih =>
    rw [readLoop]
    by_cases h0 : m = 0
    · subst h0
      simpa using hR
    have hpos : 0 < min m (BSIZE - off % BSIZE) := chunk_pos h0
    have hbn : off / BSIZE < n := by
      rw [Nat.div_lt_iff_lt_mul (by decide)]
      omega
    rw [if_neg h0, wp_bind]
    apply wp_bmap_existing h hbn
    intro a ha
    have hdata : s.disk a.toNat = (s.volWith k).fileBlock (s.inode k).inum (off / BSIZE) := by
      have hb0 := (h.has.block _ (hbn.trans_le h.has.le)).mpr hbn
      unfold Volume.fileBlock
      rw [ha, volWith_data, vol_data (h.data _ hb0)]
    simp only [wp_bind, bread, wp_get, wp_pure]
    generalize hch : min m (BSIZE - off % BSIZE) = ch at *
    apply ih (m - ch) (by omega) (by omega)
    convert hR using 1
    rw [hdata]
    have hfirst : (List.range ch).map (fun j => ((s.volWith k).fileBlock (s.inode k).inum
        (off / BSIZE)).byte (off % BSIZE + j)) =
        (List.range ch).map fun j => (s.volWith k).byteAt (s.inode k).inum (off + j) := by
      apply map_congr_left
      intro j hj
      have := chunk_block (hch ▸ mem_range.mp hj)
      rw [Volume.byteAt, this.1, this.2]
    rw [hfirst, map_range_append, show ch + (m - ch) = m by omega]
    intro j _
    rw [Nat.add_assoc]

/-! ## The write loop -/

/-- `m` bytes of `src` have been written at `off` to the inode of entry `k`, which had `n` blocks. -/
structure Written (k : Fin NINODE) (n off m : ℕ) (src : Bytes) (s s' : FsState) : Prop where
  inside : Inside k s s'
  ext : (s.volWith k).Extends (s'.volWith k) (s.inode k).inum n (max n (blocksOf (off + m)))
  bytes : ∀ o, (s.volWith k).addr (s.inode k).inum (.block (o / BSIZE)) ≠ 0 ∨
      off ≤ o ∧ o < off + m → (s'.volWith k).byteAt (s.inode k).inum o =
    if off ≤ o ∧ o < off + m then src (o - off) else (s.volWith k).byteAt (s.inode k).inum o
  logs : ∃ L, Logs s s' L ∧ ∀ b, b ∈ L ↔
    (∃ q, (0 < m ∧ off / BSIZE ≤ q ∧ q * BSIZE < off + m) ∧
      b = (s'.volWith k).addr (s.inode k).inum (.block q)) ∨
    (∃ c, Fresh s s' c ∧ b = BBLOCK c s.sb) ∨
    (n < blocksOf (off + m) ∧ NDIRECT < blocksOf (off + m)) ∧
      b = (s'.volWith k).addr (s.inode k).inum .indirect

theorem Written.refl (h : (s.volWith k).Exact) (hn : (s.volWith k).HasBlocks (s.inode k).inum n)
    (hoff : off ≤ n * BSIZE) : Written k n off 0 src s s := by
  have hle : blocksOf off ≤ n := by
    simp only [blocksOf, BSIZE] at *
    omega
  refine ⟨Inside.refl k s, ?_, ?_, [], logs_refl s, ?_⟩
  · rw [Nat.add_zero, max_eq_left hle]
    exact .refl h hn
  · intro o _
    rw [if_neg (by omega)]
  · intro b
    simp [Fresh, hle]

theorem Bmapped.written {a : UInt32} (hb : Bmapped k n (off / BSIZE) s s' a)
    (hw : s.sb.WellFormed) (hi : (s.volWith k).Allocated (s.inode k).inum) (hm : 0 < m)
    (hfit : off % BSIZE + m ≤ BSIZE) : Written k n off m src s
      (s'.putBlock a.toNat ((s'.disk a.toNat).write (off % BSIZE) m src)) := by
  have hblocks : blocksOf (off + m) = off / BSIZE + 1 := by
    simp only [blocksOf, BSIZE] at *
    omega
  have hi' := hb.ext.allocated.mpr hi
  have hbn : off / BSIZE < max n (off / BSIZE + 1) := by omega
  have h0 : (s'.volWith k).addr (s.inode k).inum (.block (off / BSIZE)) ≠ 0 :=
    (hb.ext.has.block _ (hbn.trans_le hb.ext.has.le)).mpr hbn
  have hdata : s'.sb.dataStart ≤ a.toNat := by
    rw [hb.addr]
    exact (hb.ext.exact.addr_range hi' h0).1
  have hw' : s'.sb.WellFormed := hb.inside.sb ▸ hw
  have hold : s'.disk a.toNat = (s'.volWith k).fileBlock (s.inode k).inum (off / BSIZE) := by
    unfold Volume.fileBlock
    rw [← hb.addr, volWith_data, vol_data hdata]
  generalize hx : (s'.disk a.toNat).write (off % BSIZE) m src = x
  have hvol : (s'.putBlock a.toNat x).volWith k =
      (s'.volWith k).store ((s'.volWith k).addr (s.inode k).inum (.block (off / BSIZE))) x := by
    rw [volWith_putBlock hw' hdata, hb.addr]
  have hstore : (s'.volWith k).Extends ((s'.putBlock a.toNat x).volWith k) (s.inode k).inum
      (max n (off / BSIZE + 1)) (max n (off / BSIZE + 1)) :=
    hvol ▸ Volume.extends_store hb.ext.exact hi' hb.ext.has
  have haddr : ∀ sl, ((s'.putBlock a.toNat x).volWith k).addr (s.inode k).inum sl =
      (s'.volWith k).addr (s.inode k).inum sl := fun sl => by
    rw [hvol, Volume.addr_store hb.ext.exact hi' hi']
  refine ⟨hb.inside.trans (Inside.putBlock hw' hdata), ?_, ?_, ?_⟩
  · rw [hblocks]
    exact hb.ext.trans hstore
  · intro o ho
    have ho' : (s'.volWith k).addr (s.inode k).inum (.block (o / BSIZE)) ≠ 0 := by
      rcases ho with ho | ho
      · rwa [hb.ext.addr _ _ hi (.inr ho)]
      · rwa [show o / BSIZE = off / BSIZE by simp only [BSIZE] at *; omega]
    have hblock := Volume.fileBlock_store (k := off / BSIZE) (x := x) hb.ext.exact hi' hi' ho'
    rw [← hvol] at hblock
    unfold Volume.byteAt
    rw [hblock]
    by_cases hin : off ≤ o ∧ o < off + m
    · have hq : o / BSIZE = off / BSIZE := by simp only [BSIZE] at *; omega
      have hr : o % BSIZE = off % BSIZE + (o - off) := by simp only [BSIZE] at *; omega
      rw [if_pos ⟨rfl, hq⟩, if_pos hin, hr, ← hx]
      exact Buffer.byte_write_inside (by omega) (by simp only [BSIZE] at *; omega)
    · rw [if_neg hin]
      have hb0 : (s.volWith k).addr (s.inode k).inum (.block (o / BSIZE)) ≠ 0 :=
        ho.resolve_right hin
      have hbytes := hb.bytes o hb0
      unfold Volume.byteAt at hbytes
      rw [← hbytes]
      by_cases hq : o / BSIZE = off / BSIZE
      · rw [if_pos ⟨rfl, hq⟩, ← hx, hold, hq]
        apply Buffer.byte_write_outside
        simp only [BSIZE] at *
        omega
      · rw [if_neg fun hc => hq hc.2]
  · obtain ⟨L, hL, hmem⟩ := hb.logs
    refine ⟨L ++ [a.toNat], ?_, ?_⟩
    · apply hL.trans hb.inside.cur
      simp [Logs]
    · intro b
      have hfresh : ∀ c, Fresh s (s'.putBlock a.toNat x) c ↔ Fresh s s' c := by
        intro c
        unfold Fresh
        rw [vol_putBlock hw' hdata]
        rfl
      have hq : (∃ q, (0 < m ∧ off / BSIZE ≤ q ∧ q * BSIZE < off + m) ∧
          b = (s'.volWith k).addr (s.inode k).inum (.block q)) ↔ b = a.toNat := by
        rw [hb.addr]
        constructor
        · rintro ⟨q, hq, rfl⟩
          rw [show q = off / BSIZE by simp only [BSIZE] at *; omega]
        · rintro rfl
          exact ⟨off / BSIZE, ⟨hm, le_rfl, by simp only [BSIZE] at *; omega⟩, rfl⟩
      have hgrow : (n < off / BSIZE + 1 ∧ NDIRECT < off / BSIZE + 1) =
          (n ≤ off / BSIZE ∧ NDIRECT ≤ off / BSIZE) := by
        simp only [Nat.lt_succ_iff]
      simp only [haddr, hfresh, hq, hblocks, hgrow, mem_append, mem_singleton]
      exact hmem b

/-- The content blocks of two consecutive writes; the addresses found after both agree with those
found after the first on its blocks. -/
theorem blocks_logged {m' b : ℕ} {f f₁ : ℕ → ℕ} (hm : 0 < m)
    (hf : ∀ q, q * BSIZE < off + m → f q = f₁ q) :
    (∃ q, (0 < m + m' ∧ off / BSIZE ≤ q ∧ q * BSIZE < off + (m + m')) ∧ b = f q) ↔
      (∃ q, (0 < m ∧ off / BSIZE ≤ q ∧ q * BSIZE < off + m) ∧ b = f₁ q) ∨
      ∃ q, (0 < m' ∧ (off + m) / BSIZE ≤ q ∧ q * BSIZE < off + (m + m')) ∧ b = f q := by
  constructor
  · rintro ⟨q, hq, rfl⟩
    by_cases hlt : q * BSIZE < off + m
    · exact .inl ⟨q, ⟨hm, hq.2.1, hlt⟩, hf q hlt⟩
    · refine .inr ⟨q, ⟨by omega, ?_, hq.2.2⟩, rfl⟩
      simp only [BSIZE] at *
      omega
  · rintro (⟨q, hq, rfl⟩ | ⟨q, hq, rfl⟩)
    · exact ⟨q, ⟨by omega, hq.2.1, by omega⟩, (hf q hq.2.2).symm⟩
    · refine ⟨q, ⟨by omega, ?_, hq.2.2⟩, rfl⟩
      simp only [BSIZE] at *
      omega

theorem indirect_logged {B B₁ x x₁ b : ℕ} (hmono : B₁ ≤ B) (hkeep : NDIRECT < B₁ → x = x₁) :
    ((n < B ∧ NDIRECT < B) ∧ b = x) ↔ ((n < B₁ ∧ NDIRECT < B₁) ∧ b = x₁) ∨
      ((max n B₁ < B ∧ NDIRECT < B) ∧ b = x) := by
  constructor
  · rintro ⟨hlt, rfl⟩
    by_cases hlast : max n B₁ < B
    · exact .inr ⟨⟨hlast, hlt.2⟩, rfl⟩
    · exact .inl ⟨by omega, hkeep (by omega)⟩
  · rintro (⟨hlt, rfl⟩ | ⟨hlt, rfl⟩)
    · exact ⟨by omega, (hkeep hlt.2).symm⟩
    · exact ⟨by omega, rfl⟩

theorem or_or_or_distrib {a b c a' b' c' : Prop} :
    (a ∨ b ∨ c) ∨ (a' ∨ b' ∨ c') ↔ (a ∨ a') ∨ (b ∨ b') ∨ (c ∨ c') := by tauto

theorem Written.trans {s₁ : FsState} {m' n₁ : ℕ} (h : Written k n off m src s s₁)
    (h' : Written k n₁ (off + m) m' (fun i => src (m + i)) s₁ s')
    (hn₁ : n₁ = max n (blocksOf (off + m))) (hi : (s.volWith k).Allocated (s.inode k).inum)
    (hm : 0 < m) : Written k n off (m + m') src s s' := by
  have hinum := h.inside.inum
  have hmono : blocksOf (off + m) ≤ blocksOf (off + (m + m')) := by
    simp only [blocksOf, BSIZE]
    omega
  have hext' := h'.ext
  rw [hinum, hn₁, max_assoc, Nat.add_assoc, max_eq_right hmono] at hext'
  have hi₁ := h.ext.allocated.mpr hi
  refine ⟨h.inside.trans h'.inside, h.ext.trans hext', ?_, ?_⟩
  · intro o ho
    have hbytes' := h'.bytes o
    rw [hinum] at hbytes'
    by_cases hlate : off + m ≤ o ∧ o < off + m + m'
    · rw [hbytes' (.inr hlate), if_pos hlate, if_pos (by omega)]
      congr 1
      omega
    · have ho₁ : (s.volWith k).addr (s.inode k).inum (.block (o / BSIZE)) ≠ 0 ∨
          off ≤ o ∧ o < off + m := ho.imp_right fun hc => by omega
      have h0 : (s₁.volWith k).addr (s.inode k).inum (.block (o / BSIZE)) ≠ 0 := by
        rcases ho₁ with hc | hc
        · rwa [h.ext.addr _ _ hi (.inr hc)]
        · have hlt : o / BSIZE < max n (blocksOf (off + m)) := by
            simp only [blocksOf, BSIZE] at *
            omega
          exact (h.ext.has.block _ (hlt.trans_le h.ext.has.le)).mpr hlt
      rw [hbytes' (.inl h0), if_neg hlate, h.bytes o ho₁]
      by_cases hc : off ≤ o ∧ o < off + m
      · rw [if_pos hc, if_pos (by omega)]
      · rw [if_neg hc, if_neg (by omega)]
  · obtain ⟨L, hL, hmem⟩ := h.logs
    obtain ⟨L', hL', hmem'⟩ := h'.logs
    refine ⟨L ++ L', hL.trans h.inside.cur hL', ?_⟩
    intro b
    have hmem'' := hmem' b
    rw [hinum, hn₁, h.inside.sb, Nat.add_assoc off m m'] at hmem''
    have haddr : ∀ sl, (s₁.volWith k).addr (s.inode k).inum sl ≠ 0 →
        (s'.volWith k).addr (s.inode k).inum sl = (s₁.volWith k).addr (s.inode k).inum sl :=
      fun sl h0 => hext'.addr _ _ hi₁ (.inr h0)
    have hfirst : ∀ q, q * BSIZE < off + m → (s'.volWith k).addr (s.inode k).inum (.block q) =
        (s₁.volWith k).addr (s.inode k).inum (.block q) := by
      intro q hq
      have hlt : q < max n (blocksOf (off + m)) := by
        simp only [blocksOf, BSIZE] at *
        omega
      exact haddr _ ((h.ext.has.block _ (hlt.trans_le h.ext.has.le)).mpr hlt)
    have hkeep : NDIRECT < blocksOf (off + m) → (s'.volWith k).addr (s.inode k).inum .indirect =
        (s₁.volWith k).addr (s.inode k).inum .indirect := fun hlt =>
      haddr _ (h.ext.has.indirect.mpr (hlt.trans_le (le_max_right _ _)))
    have hf : (∃ c, Fresh s s' c ∧ b = BBLOCK c s.sb) ↔
        (∃ c, Fresh s s₁ c ∧ b = BBLOCK c s.sb) ∨ ∃ c, Fresh s₁ s' c ∧ b = BBLOCK c s.sb := by
      simp only [fresh_trans h.ext.used h'.ext.used, or_and_right, exists_or]
    rw [mem_append, hmem b, hmem'', blocks_logged hm hfirst, hf,
      indirect_logged (n := n) hmono hkeep]
    exact or_or_or_distrib

theorem cost_mono {a b : ℕ} (h : a ≤ b) : Volume.cost a ≤ Volume.cost b := by
  unfold Volume.cost
  split_ifs <;> omega

theorem wp_writeLoop {R : Unit → FsState → Prop} (hw : s.sb.WellFormed) (h : (s.volWith k).Exact)
    (hi : (s.volWith k).Allocated (s.inode k).inum)
    (hn : (s.volWith k).HasBlocks (s.inode k).inum n) (hoff : off ≤ n * BSIZE)
    (hmax : off + m ≤ MAXFILE * BSIZE)
    (hfull : freeCount s.vol.used s.sb.size.toNat + Volume.cost n <
        Volume.cost (max n (blocksOf (off + m))) → ∀ s', E (.panic "balloc: out of blocks") s')
    (hR : ∀ s', Written k n off m src s s' → R () s') : wp (writeLoop k src off m) R E s := by
  induction m using Nat.strong_induction_on generalizing off src s n R with
  | _ m ih =>
    rw [writeLoop]
    by_cases h0 : m = 0
    · subst h0
      rw [if_pos rfl]
      exact hR s (.refl h hn hoff)
    have hpos : 0 < min m (BSIZE - off % BSIZE) := chunk_pos h0
    generalize hch : min m (BSIZE - off % BSIZE) = ch at *
    have hlt : off / BSIZE + 1 ≤ blocksOf (off + m) := by
      simp only [blocksOf, BSIZE] at *
      omega
    rw [if_neg h0, wp_bind]
    refine wp_bmap hw h hi hn ?_ ?_ ?_ ?_
    · simp only [BSIZE] at *
      omega
    · simp only [BSIZE, MAXFILE, NDIRECT, NINDIRECT] at *
      omega
    · intro hlow
      exact hfull (hlow.trans_le (cost_mono (max_le_max le_rfl hlt)))
    · intro a s₁ hb
      simp only [wp_bind, bread, wp_get, wp_pure, logWrite, wp_modify]
      have hfit : off % BSIZE + ch ≤ BSIZE := by
        have := Nat.mod_lt off (show 0 < BSIZE by decide)
        omega
      have hstep : Written k n off ch src s
          (s₁.putBlock a.toNat ((s₁.disk a.toNat).write (off % BSIZE) ch src)) :=
        hb.written hw hi hpos hfit
      generalize s₁.putBlock a.toNat ((s₁.disk a.toNat).write (off % BSIZE) ch src) = s₂ at *
      have hinum := hstep.inside.inum
      have hblocks : blocksOf (off + ch) = off / BSIZE + 1 := by
        simp only [blocksOf, BSIZE] at *
        omega
      have hmono : blocksOf (off + ch) ≤ blocksOf (off + m) := hblocks ▸ hlt
      apply ih (m - ch) (by omega) (hstep.inside.sb ▸ hw) hstep.ext.exact
        (hinum ▸ hstep.ext.allocated.mpr hi) (hinum ▸ hstep.ext.has)
      · rw [hblocks]
        simp only [BSIZE] at *
        omega
      · omega
      · intro hlow
        apply hfull
        have hfree := hstep.ext.free
        simp only [volWith_used, volWith_sb] at hfree
        rw [show off + ch + (m - ch) = off + m by omega, max_assoc, max_eq_right hmono] at hlow
        omega
      · intro s' hrest
        have := hstep.trans hrest rfl hi hpos
        rw [show ch + (m - ch) = m by omega] at this
        exact hR s' this

end Xv6.Fs
