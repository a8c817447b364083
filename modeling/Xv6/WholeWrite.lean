import Xv6.WriteBudget

/-!
# Writes in several chunks

`filewrite` cuts a write into transactions of `maxWrite` bytes. As long as the file does not get
longer than `MAXFILE` blocks, the chunks together do what one write does. The limit is checked chunk
by chunk, so a write that does not fit fails only when it gets there: what comes before is written.
-/

namespace Xv6.Fs

open Resumption ByteLayout FreeMap Prog Function UInt32 List Nat FsState

/-! ## Overwriting piece by piece -/

variable {l : List UInt8} {k : Fin NINODE} {n : UInt32} {a b : ℕ} {ok : Bool}

theorem length_overwrite (l : List UInt8) (off n : ℕ) (src : Bytes) :
    (overwrite l off n src).length = max l.length (off + n) := by simp [overwrite]

theorem getD_overwrite (l : List UInt8) (off n o : ℕ) (src : Bytes) :
    (overwrite l off n src).getD o 0 = if off ≤ o ∧ o < off + n then src (o - off) else l.getD o 0 := by
  unfold overwrite
  by_cases ho : o < max l.length (off + n)
  · simp [ho]
  · rw [getD_eq_default _ _ (by simp; omega), if_neg (by omega),
      getD_eq_default _ _ (by omega)]

theorem eq_of_getD {l' : List UInt8} (hlen : l.length = l'.length)
    (hget : ∀ o, l.getD o 0 = l'.getD o 0) : l = l' := by
  refine ext_getElem hlen fun i h₁ h₂ => ?_
  have h := hget i
  rwa [getD_eq_getElem _ _ h₁, getD_eq_getElem _ _ h₂] at h

theorem overwrite_append (l : List UInt8) (off a b : ℕ) (src : Bytes) :
    overwrite (overwrite l off a src) (off + a) b (fun i => src (a + i)) =
      overwrite l off (a + b) src := by
  refine eq_of_getD ?_ fun o => ?_
  · simp only [length_overwrite]
    omega
  · simp only [getD_overwrite]
    by_cases hb : off + a ≤ o ∧ o < off + a + b
    · rw [if_pos hb, if_pos (by omega)]
      congr 1
      omega
    · rw [if_neg hb]
      by_cases ha : off ≤ o ∧ o < off + a
      · rw [if_pos ha, if_pos (by omega)]
      · rw [if_neg ha, if_neg (by omega)]

theorem overwrite_zero {off : ℕ} (src : Bytes) (h : off ≤ l.length) :
    overwrite l off 0 src = l := by
  refine eq_of_getD ?_ fun o => ?_
  · rw [length_overwrite]
    omega
  · rw [getD_overwrite, if_neg (by omega)]

/-! ## A file that is open for writing -/

/-- `f` is open for writing on a regular file without holes, with an offset inside it. -/
structure OpenFile (s : FsState) (f : Fin NFILE) : Prop where
  ok : FileOk s (s.file f).ip
  type : (s.file f).type = .inode
  writable : (s.file f).writable = true
  ref : 1 ≤ (s.inode (s.file f).ip).ref
  unlocked : (s.inode (s.file f).ip).busy = false
  cached : (s.inode (s.file f).ip).valid = true →
    (s.inode (s.file f).ip).node = s.vol.node (s.inode (s.file f).ip).inum
  regular : (s.vol.node (s.inode (s.file f).ip).inum).type = T_FILE
  off : (s.file f).off.toNat ≤ (s.vol.node (s.inode (s.file f).ip).inum).size.toNat

namespace FsState

variable (s : FsState) (f : Fin NFILE)

/-- The inode of an open file. -/
def fileInum : ℕ := (s.inode (s.file f).ip).inum

def fileSize : ℕ := (s.vol.node (s.fileInum f)).size.toNat

def fileContents : List UInt8 := s.vol.contents (s.fileInum f)

/-- The free blocks together with those of the file. -/
def supply : ℕ := freeCount s.vol.used s.sb.size.toNat + Volume.cost (blocksOf (s.fileSize f))

end FsState

structure Advanced (f : Fin NFILE) (src : Bytes) (n : ℕ) (s s' : FsState) : Prop where
  ok : OpenFile s' f
  inum : s'.fileInum f = s.fileInum f
  size : s'.fileSize f = max (s.fileSize f) ((s.file f).off.toNat + n)
  contents : s'.fileContents f = overwrite (s.fileContents f) (s.file f).off.toNat n src
  off : (s'.file f).off.toNat = (s.file f).off.toNat + n
  supply : s'.supply f = s.supply f

variable {s s' : FsState} {f : Fin NFILE} {src : Bytes} {E : Stop → FsState → Prop}

theorem OpenFile.off_le (h : OpenFile s f) : (s.file f).off.toNat ≤ s.fileSize f := h.off

theorem OpenFile.size_le (h : OpenFile s f) : s.fileSize f ≤ MAXFILE * BSIZE :=
  (size_le_blocks _).trans (mul_le_mul_right _ h.ok.hole.le)

theorem wp_writei {off : UInt32} {Q : Option UInt32 → FsState → Prop}
    (ht : (s.inode k).node.type ≠ T_DEV) :
    wp (writei k src off n).run Q E s ↔ wp (writeData k src off n) Q E s := by
  unfold wp
  rw [writei_run ht]

def FsState.locked (s : FsState) (f : Fin NFILE) : FsState :=
  (s.emit .beginOp).setInode (s.file f).ip { s.inode (s.file f).ip with
    busy := true, valid := true, node := s.vol.node (s.inode (s.file f).ip).inum }

def FsState.released (s : FsState) (k : Fin NINODE) : FsState :=
  (s.setInode k { s.inode k with busy := false }).emit .endOp

theorem locked_inode : (s.locked f).inode (s.file f).ip = { s.inode (s.file f).ip with
    busy := true, valid := true, node := s.vol.node (s.inode (s.file f).ip).inum } :=
  update_self ..

theorem OpenFile.locked (h : OpenFile s f) :
    FileOk (s.locked f) (s.file f).ip ∧ Cached (s.locked f) (s.file f).ip := by
  refine ⟨⟨h.ok.wf, h.ok.exact, ?_, ?_⟩, ?_, ?_⟩
  · rw [locked_inode]
    exact h.ok.allocated
  · rw [locked_inode]
    exact h.ok.hole
  · rw [locked_inode]
    exact h.ok.allocated.1
  · rw [locked_inode]
    rfl

theorem released_inode :
    (s.released k).inode k = { s.inode k with busy := false } := update_self ..

section

variable (h : OpenFile s f)
include h

theorem OpenFile.next {o : UInt32} (hsb : s'.sb = s.sb)
    (hfile : s'.file f = { s.file f with off := o })
    (hinode : s'.inode (s.file f).ip = { s.inode (s.file f).ip with
      busy := false, valid := true, node := s'.vol.node (s.fileInum f) })
    (hexact : s'.vol.Exact) (htype : (s'.vol.node (s.fileInum f)).type = T_FILE)
    (hhole : s'.vol.HasBlocks (s.fileInum f) (blocksOf (s'.vol.node (s.fileInum f)).size.toNat))
    (hoff : o.toNat ≤ (s'.vol.node (s.fileInum f)).size.toNat) :
    OpenFile s' f ∧ s'.fileInum f = s.fileInum f := by
  have hip : (s'.file f).ip = (s.file f).ip := by rw [hfile]
  have hinum : (s'.inode (s.file f).ip).inum = s.fileInum f := by
    rw [hinode]
    rfl
  refine ⟨⟨⟨?_, hexact, ⟨?_, ?_⟩, ?_⟩, ?_, ?_, ?_, ?_, ?_, ?_, ?_⟩, ?_⟩
  · rw [hsb]
    exact h.ok.wf
  · rw [hip, hinum, vol_sb, hsb]
    exact h.ok.allocated.1
  · rw [hip, hinum, htype]
    decide
  · rw [hip, hinum]
    exact hhole
  · rw [hfile]
    exact h.type
  · rw [hfile]
    exact h.writable
  · rw [hip, hinode]
    exact h.ref
  · rw [hip, hinode]
  · intro _
    rw [hip, hinum, hinode]
  · rw [hip, hinum]
    exact htype
  · rw [hip, hinum, hfile]
    exact hoff
  · unfold fileInum
    rw [hip]
    exact hinum

theorem OpenFile.unchanged : Advanced f src 0 s ((s.locked f).released (s.file f).ip) := by
  have hinode : ((s.locked f).released (s.file f).ip).inode (s.file f).ip =
      { s.inode (s.file f).ip with
        busy := false, valid := true, node := s.vol.node (s.inode (s.file f).ip).inum } := by
    rw [released_inode, locked_inode]
  obtain ⟨hok, hinum⟩ := h.next (by rfl) (by rfl) hinode h.ok.exact
    h.regular h.ok.hole h.off
  have hsize : ((s.locked f).released (s.file f).ip).fileSize f = s.fileSize f := by
    unfold fileSize
    rw [hinum]
    rfl
  refine ⟨hok, hinum, ?_, ?_, ?_, ?_⟩
  · rw [hsize, add_zero, max_eq_left h.off_le]
  · rw [overwrite_zero src (by rw [fileContents, length_contents]; exact h.off_le),
      fileContents, hinum]
    rfl
  · rw [add_zero]
    rfl
  · unfold supply
    rw [hsize]
    rfl

theorem OpenFile.advanced {s₃ : FsState}
    (hw : WroteFile (s.file f).ip src (s.file f).off.toNat n.toNat (s.locked f) s₃)
    (hmax : (s.file f).off.toNat + n.toNat ≤ MAXFILE * BSIZE) :
    Advanced f src n.toNat s ((s₃.setFile f { s₃.file f with off := (s₃.file f).off + n }).released
      (s.file f).ip) := by
  have hfile : s₃.file f = s.file f := by rw [hw.file]; rfl
  have hlocked : ((s.locked f).inode (s.file f).ip).inum = s.fileInum f := by
    rw [locked_inode]
    rfl
  have hinode₃ : s₃.inode (s.file f).ip = { s.inode (s.file f).ip with
      busy := true, valid := true, node := s₃.vol.node (s.fileInum f) } := by
    rw [hw.inode, update_self, hlocked, locked_inode]
  have hsize₃ := hw.size
  have hcont₃ := hw.contents
  have hhole₃ := hw.hole
  have hfree₃ := hw.free
  obtain ⟨a, hnode₃⟩ := hw.node
  rw [hlocked] at hsize₃ hcont₃ hhole₃ hfree₃ hnode₃
  have hadd : ((s.file f).off + n).toNat = (s.file f).off.toNat + n.toNat := by
    rw [UInt32.toNat_add]
    simp only [MAXFILE, NDIRECT, NINDIRECT, BSIZE] at hmax
    omega
  obtain ⟨s', hs'⟩ : ∃ s', s' = (s₃.setFile f { s₃.file f with off := (s₃.file f).off + n }).released
    (s.file f).ip := ⟨_, rfl⟩
  have hvol : s'.vol = s₃.vol := by rw [hs']; rfl
  have hsb : s'.sb = s₃.sb := by rw [hs']; rfl
  have hfile' : s'.file f = { s.file f with off := (s.file f).off + n } := by
    rw [hs', ← hfile]
    exact update_self ..
  have hinode : s'.inode (s.file f).ip = { s.inode (s.file f).ip with
      busy := false, valid := true, node := s'.vol.node (s.fileInum f) } := by
    rw [hvol, hs', released_inode]
    change ({ s₃.inode (s.file f).ip with busy := false } : Inode) = _
    rw [hinode₃]
  rw [← hs']
  have hsizeEq : (s'.vol.node (s.fileInum f)).size.toNat =
      max (s.fileSize f) ((s.file f).off.toNat + n.toNat) := by
    rw [hvol, hsize₃]
    rfl
  obtain ⟨hok, hinum⟩ := h.next (hsb.trans hw.sb) hfile' hinode (by rw [hvol]; exact hw.exact)
    (by rw [hvol, hnode₃]; exact h.regular) (by rw [hsizeEq, hvol]; exact hhole₃)
    (by rw [hsizeEq, hadd]; exact le_max_right _ _)
  have hsize : s'.fileSize f = max (s.fileSize f) ((s.file f).off.toNat + n.toNat) := by
    unfold FsState.fileSize
    rw [hinum]
    exact hsizeEq
  refine ⟨hok, hinum, hsize, ?_, ?_, ?_⟩
  · rw [FsState.fileContents, hinum, hvol, hcont₃]
    rfl
  · rw [hfile', hadd]
  · unfold FsState.supply
    rw [hsize, hvol, hsb]
    exact hfree₃

theorem wp_filewriteChunk {R : Option UInt32 → FsState → Prop}
    (hn : 0 < n)
    (hspace : (s.file f).off.toNat + n.toNat ≤ MAXFILE * BSIZE →
      Volume.cost (blocksOf (max (s.fileSize f) ((s.file f).off.toNat + n.toNat))) ≤ s.supply f)
    (hfail : MAXFILE * BSIZE < (s.file f).off.toNat + n.toNat → ∀ s', Advanced f src 0 s s' → R none s')
    (hR : (s.file f).off.toNat + n.toNat ≤ MAXFILE * BSIZE → ∀ s', Advanced f src n.toNat s s' →
      R (some n) s') : wp (filewriteChunk f src n).run R E s := by
  have htype : (s.vol.node (s.inode (s.file f).ip).inum).type ≠ 0 := by
    rw [h.regular]
    decide
  obtain ⟨hok, hcached⟩ := h.locked
  have hlocked : ((s.locked f).inode (s.file f).ip).inum = s.fileInum f := by
    rw [locked_inode]
    rfl
  have hoff := h.off_le
  have hsize : ((s.locked f).vol.node (s.fileInum f)).size.toNat = s.fileSize f := rfl
  unfold filewriteChunk beginOp endOp
  simp only [run_bind, run_atom, wp_bind, wp_modify, getFile, wp_get, wp_pure]
  refine wp_ilock h.ref h.unlocked h.ok.allocated.1 h.cached htype ?_
  change wp (writei (s.file f).ip src (s.file f).off n).run _ E (s.locked f)
  rw [wp_writei (by rw [locked_inode, h.regular]; decide)]
  refine wp_writeFile hok hcached ?_ ?_ ?_
  · rw [hlocked, hsize]
    intro hr
    rw [if_neg (by decide)]
    simp only [run_bind, run_atom, wp_bind, wp_modify]
    have hbusy := locked_inode (s := s) (f := f)
    refine wp_iunlock (k := (s.file f).ip) (by rw [hbusy]; exact h.ref) (by rw [hbusy]) ?_
    refine hfail ?_ _ h.unchanged
    unfold Refused at hr
    simp only [MAXFILE, NDIRECT, NINDIRECT, BSIZE] at *
    omega
  · rw [hlocked, hsize]
    intro hr hno
    have hle := hspace (by unfold Refused at hr; omega)
    exact absurd hno (not_lt.mpr hle)
  · rw [hlocked, hsize]
    intro hr s₃ hw
    have hmax : (s.file f).off.toNat + n.toNat ≤ MAXFILE * BSIZE := by
      unfold Refused at hr
      omega
    have hinode₃ : s₃.inode (s.file f).ip = { (s.locked f).inode (s.file f).ip with
        node := s₃.vol.node (s.fileInum f) } := by
      rw [hw.inode, update_self, hlocked]
    rw [locked_inode] at hinode₃
    rw [if_pos (show 0 < (some n).getD 0 from hn)]
    simp only [run_bind, run_atom, wp_bind, wp_modify, advance]
    refine wp_iunlock (k := (s.file f).ip) ?_ ?_ (hR hmax _ (h.advanced hw hmax))
    · change 1 ≤ (s₃.inode (s.file f).ip).ref
      rw [hinode₃]
      exact h.ref
    · change (s₃.inode (s.file f).ip).busy = true
      rw [hinode₃]

/-! ## The loop -/

theorem Advanced.refl : Advanced f src 0 s s := by
  refine ⟨h, rfl, ?_, ?_, rfl, rfl⟩
  · rw [add_zero, max_eq_left h.off_le]
  · rw [overwrite_zero src (by rw [fileContents, length_contents]; exact h.off_le)]

end

theorem Advanced.trans {s₁ : FsState} (h : Advanced f src a s s₁)
    (h' : Advanced f (fun i => src (a + i)) b s₁ s') : Advanced f src (a + b) s s' := by
  refine ⟨h'.ok, h'.inum.trans h.inum, ?_, ?_, ?_, h'.supply.trans h.supply⟩
  · rw [h'.size, h.size, h.off]
    omega
  · rw [h'.contents, h.contents, h.off, overwrite_append]
  · rw [h'.off, h.off]
    omega

theorem cost_blocksOf_mono (h : a ≤ b) : Volume.cost (blocksOf a) ≤ Volume.cost (blocksOf b) := by
  refine cost_mono ?_
  simp only [blocksOf, BSIZE]
  omega

/-- The loop with `m` bytes left has written them all, or a prefix that is empty only if the first
chunk does not fit. -/
def LoopPost (f : Fin NFILE) (src : Bytes) (m : ℕ) (s : FsState) (ok : Bool) (s' : FsState) : Prop :=
  ok = true ∧ (s.file f).off.toNat + m ≤ MAXFILE * BSIZE ∧ Advanced f src m s s' ∨
  ok = false ∧ MAXFILE * BSIZE < (s.file f).off.toNat + m ∧ ∃ j, Advanced f src j s s' ∧
    (j = 0 ↔ MAXFILE * BSIZE < (s.file f).off.toNat + min m maxWrite)

theorem wp_filewriteLoop {m : ℕ} (h : OpenFile s f)
    (hspace : Volume.cost (blocksOf (max (s.fileSize f)
      (min ((s.file f).off.toNat + m) (MAXFILE * BSIZE)))) ≤ s.supply f) :
    wp (filewriteLoop f src m).run (LoopPost f src m s) E s := by
  induction m using Nat.strong_induction_on generalizing s src with
  | h m ih =>
    have hmax : maxWrite = 6656 := rfl
    rw [filewriteLoop]
    by_cases hzero : m = 0
    · rw [if_pos hzero]
      subst hzero
      refine .inl ⟨rfl, ?_, .refl h⟩
      have := h.off_le
      have := h.size_le
      omega
    rw [if_neg hzero, run_bind, wp_bind]
    have hpos : 0 < UInt32.ofNat (min m maxWrite) := by
      rw [UInt32.lt_iff_toNat_lt, toNat_chunk]
      change 0 < _
      omega
    have hc : min m maxWrite ≤ m := Nat.min_le_left ..
    refine wp_filewriteChunk h hpos ?_ ?_ ?_
    · rw [toNat_chunk]
      exact fun hfit => (cost_blocksOf_mono (by omega)).trans hspace
    · rw [toNat_chunk]
      intro hbig s' ha
      exact .inr ⟨rfl, by omega, 0, ha, iff_of_true rfl hbig⟩
    · rw [toNat_chunk]
      intro hfit s₁ ha
      simp only [ne_eq, not_true_eq_false, if_false]
      have hoff := ha.off
      have hspace₁ : Volume.cost (blocksOf (max (s₁.fileSize f)
          (min ((s₁.file f).off.toNat + (m - min m maxWrite)) (MAXFILE * BSIZE)))) ≤ s₁.supply f := by
        rw [ha.supply, ha.size, hoff]
        exact (cost_blocksOf_mono (by omega)).trans hspace
      refine wp_post (ih (m - min m maxWrite) (by omega) ha.ok hspace₁) ?_
      rintro ok s' (⟨rfl, hle, ha'⟩ | ⟨rfl, hgt, j, ha', -⟩)
      · refine .inl ⟨rfl, by omega, ?_⟩
        have htrans := ha.trans ha'
        rwa [Nat.add_sub_of_le hc] at htrans
      · refine .inr ⟨rfl, by omega, min m maxWrite + j, ha.trans ha', ?_⟩
        exact iff_of_false (by omega) (by omega)

/-! ## The whole write -/

/-- All `n` bytes have been written and the offset is behind them, or the result is -1 and the file
and its offset are as before. -/
def AllOrNothing (f : Fin NFILE) (src : Bytes) (n : ℤ) (s : FsState) (r : ℤ) (s' : FsState) : Prop :=
  r = n ∧ s'.vol.contents (s.fileInum f) =
      overwrite (s.vol.contents (s.fileInum f)) (s.file f).off.toNat n.toNat src ∧
    ((s'.file f).off.toNat : ℤ) = (s.file f).off.toNat + n ∨
  r = -1 ∧ s'.vol.contents (s.fileInum f) = s.vol.contents (s.fileInum f) ∧
    (s'.vol.node (s.fileInum f)).size = (s.vol.node (s.fileInum f)).size ∧
    (s'.file f).off = (s.file f).off

/-- The write fits in a file of maximal size, or its first chunk does not. -/
def Undivided (off : ℕ) (n : ℤ) : Prop :=
  off + n ≤ MAXFILE * BSIZE ∨ MAXFILE * BSIZE < off + min n.toNat maxWrite

theorem wp_filewrite {n : ℤ} (piped : ℤ) (src : Bytes) (h : OpenFile s f) (hn : 0 ≤ n)
    (hspace : Volume.cost (blocksOf (max (s.fileSize f)
      (min ((s.file f).off.toNat + n.toNat) (MAXFILE * BSIZE)))) ≤ s.supply f) :
    wp (filewrite piped f src n).run (fun r s' => ∃ ok, LoopPost f src n.toNat s ok s' ∧
      r = if ok then n else -1) E s := by
  unfold filewrite
  simp only [run_bind, run_atom, wp_bind, getFile, wp_get, wp_pure, h.writable, h.type,
    not_true_eq_false, if_false]
  refine wp_post (wp_filewriteLoop h hspace) ?_
  intro ok s' hpost
  refine ⟨ok, hpost, ?_⟩
  simp only [hn, and_true]

theorem LoopPost.allOrNothing {n : ℤ} (h : OpenFile s f) (hn : 0 ≤ n)
    (hp : LoopPost f src n.toNat s ok s') (hu : Undivided (s.file f).off.toNat n) :
    AllOrNothing f src n s (if ok then n else -1) s' := by
  unfold Undivided at hu
  rcases hp with ⟨rfl, -, ha⟩ | ⟨rfl, hgt, j, ha, hj⟩
  · refine .inl ⟨rfl, ?_, ?_⟩
    · have hcont := ha.contents
      rwa [FsState.fileContents, ha.inum] at hcont
    · rw [ha.off]
      omega
  · -- nothing was written
    obtain rfl : j = 0 := hj.mpr (by omega)
    refine .inr ⟨rfl, ?_, ?_, ?_⟩
    · have hcont := ha.contents
      rw [overwrite_zero src (by rw [FsState.fileContents, length_contents]; exact h.off_le)] at hcont
      rwa [FsState.fileContents, ha.inum] at hcont
    · have hsize := ha.size
      rw [Nat.add_zero, max_eq_left h.off_le, FsState.fileSize, ha.inum] at hsize
      exact UInt32.toNat_inj.mp hsize
    · have hoff := ha.off
      rw [Nat.add_zero] at hoff
      exact UInt32.toNat_inj.mp hoff

theorem LoopPost.divided {n : ℤ} (hn : 0 ≤ n) (hp : LoopPost f src n.toNat s ok s')
    (hu : ¬ Undivided (s.file f).off.toNat n) :
    ¬ AllOrNothing f src n s (if ok then n else -1) s' := by
  unfold Undivided at hu
  push Not at hu
  rcases hp with ⟨rfl, hle, -⟩ | ⟨rfl, hgt, j, ha, hj⟩
  · omega
  · have hne : j ≠ 0 := fun hz => by have := hj.mp hz; omega
    rintro (⟨hr, -⟩ | ⟨-, -, -, hoff⟩)
    · simp only [Bool.false_eq_true, if_false] at hr
      omega
    · have := ha.off
      rw [hoff] at this
      omega

theorem filewrite_allOrNothing_iff {n : ℤ} (piped : ℤ) (src : Bytes) (h : OpenFile s f) (hn : 0 ≤ n)
    (hspace : Volume.cost (blocksOf (max (s.fileSize f)
      (min ((s.file f).off.toNat + n.toNat) (MAXFILE * BSIZE)))) ≤ s.supply f) :
    ∃ r s', (filewrite piped f src n).run s = .ok r s' ∧
      (AllOrNothing f src n s r s' ↔ Undivided (s.file f).off.toNat n) := by
  obtain ⟨_, s', hrun, ok, hp, rfl⟩ := wp_exists_ok (wp_filewrite piped src h hn hspace)
  refine ⟨_, s', hrun, fun hall => ?_, hp.allOrNothing h hn⟩
  by_contra hu
  exact hp.divided hn hu hall

theorem emptyFileWritable_open : OpenFile emptyFileWritable 0 := by
  have h := emptyFileWritable_regular
  refine ⟨h.disk.fileOk ⟨h.lt, ?_⟩, h.type, h.writable, h.ref, h.unlocked, h.cached, h.regular, h.off⟩
  rw [h.regular]
  decide

theorem supply_of_free {n : ℕ} (hsize : s.fileSize f ≤ MAXFILE * BSIZE)
    (hfree : Volume.cost (blocksOf (MAXFILE * BSIZE)) ≤ freeCount s.vol.used s.sb.size.toNat) :
    Volume.cost (blocksOf (max (s.fileSize f)
      (min ((s.file f).off.toNat + n) (MAXFILE * BSIZE)))) ≤ s.supply f := by
  have hle : max (s.fileSize f) (min ((s.file f).off.toNat + n) (MAXFILE * BSIZE)) ≤
      MAXFILE * BSIZE := by omega
  unfold supply
  exact ((cost_blocksOf_mono hle).trans hfree).trans (le_add_right _ _)

theorem emptyFileWritable_supply {n : ℕ} :
    Volume.cost (blocksOf (max (emptyFileWritable.fileSize 0)
      (min ((emptyFileWritable.file 0).off.toNat + n) (MAXFILE * BSIZE)))) ≤
        emptyFileWritable.supply 0 := by
  have hsize : emptyFileWritable.fileSize 0 = 0 := emptyFileWritable_size
  have hfree : freeCount emptyFileWritable.vol.used emptyFileWritable.sb.size.toNat = 940 :=
    emptyFileOpen_free
  have hall : Volume.cost (blocksOf (MAXFILE * BSIZE)) ≤ 940 := by decide
  exact supply_of_free (hsize.le.trans (zero_le _)) (hall.trans hfree.ge)

theorem filewrite_allOrNothing_iff_twoChunks : ∃ r s',
    (filewrite 0 0 (fun _ => 65) 10000).run emptyFileWritable = .ok r s' ∧
      AllOrNothing 0 (fun _ => 65) 10000 emptyFileWritable r s' := by
  obtain ⟨r, s', hrun, hiff⟩ := filewrite_allOrNothing_iff (n := 10000) 0 (fun _ => 65)
    emptyFileWritable_open (by decide) emptyFileWritable_supply
  have hoff : (emptyFileWritable.file 0).off.toNat = 0 := rfl
  rw [hoff] at hiff
  exact ⟨r, s', hrun, hiff.mpr (.inl (by decide))⟩

/-- One byte more than a file can have: the chunks before the last one are written. -/
theorem filewrite_partly_written : ∃ r s',
    (filewrite 0 0 (fun _ => 65) 71681).run emptyFileWritable = .ok r s' ∧
      ¬ AllOrNothing 0 (fun _ => 65) 71681 emptyFileWritable r s' := by
  obtain ⟨_, s', hrun, ok, hp, rfl⟩ := wp_exists_ok
    (@wp_filewrite _ _ _ 71681 0 (fun _ => 65) emptyFileWritable_open (by decide)
      emptyFileWritable_supply)
  refine ⟨_, s', hrun, hp.divided (by decide) ?_⟩
  have hoff : (emptyFileWritable.file 0).off.toNat = 0 := rfl
  rw [hoff]
  unfold Undivided
  decide

end Xv6.Fs
