import Xv6.FileRefinement

/-!
# The log budget of `filewrite`

`begin_op` reserves `MAXOPBLOCKS` log blocks for each transaction, and `filewrite` cuts a write into
chunks that are meant to stay below that. The chunk size is computed from `LOGSIZE` instead, so
whether a transaction stays within its reservation depends on offset, length and size of the file.
-/

namespace Xv6.Fs

open Resumption ByteLayout FreeMap Prog List

/-! ## The blocks of one write -/

/-- The number of blocks logged by a `writei` of `n` bytes at `off` to a file of `size` bytes: data
blocks, bitmap block, indirect block and inode block. -/
def touched (size off n : ℕ) : ℕ :=
  (blocksOf (off + n) - off / BSIZE) +
    (if blocksOf size < blocksOf (off + n) then 1 else 0) +
    (if blocksOf size < blocksOf (off + n) ∧ NDIRECT < blocksOf (off + n) then 1 else 0) +
    (if size < off + n then 1 else 0)

/-- The write needs more blocks than are free. -/
def NoSpace (s : FsState) (size off n : ℕ) : Prop :=
  freeCount s.vol.used s.sb.size.toNat + Volume.cost (blocksOf size) <
    Volume.cost (blocksOf (max size (off + n)))

section Blocks

variable {s s' : FsState} {k : Fin NINODE} {src : Bytes} {off n : ℕ}

variable {a b q : ℕ} {c : Prop}

section

variable (h : Wrote k src off n s s')
include h

theorem Wrote.size_eq :
    (s'.vol.node (s.inode k).inum).size.toNat =
      max (s.vol.node (s.inode k).inum).size.toNat (off + n) := by
  have hlen := congrArg List.length h.contents
  simpa only [overwrite, length_contents, length_map, length_range] using hlen

theorem Wrote.allocated (hi : s.vol.Allocated (s.inode k).inum) :
    s'.vol.Allocated (s.inode k).inum := by
  obtain ⟨a, ha⟩ := h.node
  refine ⟨?_, ?_⟩
  · rw [FsState.vol_sb, h.sb]
    exact hi.1
  · rw [ha]
    exact hi.2

theorem Wrote.not_noSpace : ¬ NoSpace s (s.vol.node (s.inode k).inum).size.toNat off n := by
  have := h.free
  unfold NoSpace
  omega

end

theorem cost_lt_iff (h : a ≤ b) : Volume.cost a < Volume.cost b ↔ a < b := by
  unfold Volume.cost
  split_ifs <;> omega

theorem lt_blocksOf_iff {m : ℕ} : q < blocksOf m ↔ q * BSIZE < m := by
  simp only [blocksOf, BSIZE]
  omega

theorem mem_ite_singleton [Decidable c] : b ∈ (if c then {a} else (∅ : Finset ℕ)) ↔ c ∧ b = a := by
  split_ifs with h <;> simp [h]

theorem card_ite_singleton [Decidable c] :
    (if c then {a} else (∅ : Finset ℕ)).card = if c then 1 else 0 := by
  split_ifs <;> rfl

section

variable (h : Wrote k src off n s s')
include h

theorem Wrote.fresh_lt {c : ℕ} (hc : Fresh s s' c) : c < s.sb.size.toNat := by
  have hu := hc.2
  by_contra hge
  simp [FsState.vol, h.sb, hge] at hu

theorem Wrote.exists_fresh_iff :
    (∃ c, Fresh s s' c) ↔
      blocksOf (s.vol.node (s.inode k).inum).size.toNat < blocksOf (off + n) := by
  have hfree := h.free
  rw [h.sb, blocksOf_max] at hfree
  have hcost := cost_lt_iff (le_max_left (blocksOf (s.vol.node (s.inode k).inum).size.toNat)
    (blocksOf (off + n)))
  rw [lt_max_iff, or_iff_right (lt_irrefl _)] at hcost
  rw [← hcost, show (∃ c, Fresh s s' c) ↔ freeCount s'.vol.used s.sb.size.toNat <
    freeCount s.vol.used s.sb.size.toNat from ?_]
  · omega
  rw [← freeCount_lt_iff fun b _ => h.used b]
  constructor
  · rintro ⟨c, hc, hc'⟩
    exact ⟨c, h.fresh_lt ⟨hc, hc'⟩, hc, hc'⟩
  · rintro ⟨c, -, hc⟩
    exact ⟨c, hc⟩

theorem Wrote.addr_ne_zero (hi : s.vol.Allocated (s.inode k).inum) (hq : q < blocksOf (off + n)) :
    s'.vol.addr (s.inode k).inum (.block q) ≠ 0 := by
  have hhole := h.ok.holeFree _ (h.allocated hi)
  rw [h.size_eq, blocksOf_max] at hhole
  have hlt := hq.trans_le (le_max_right (blocksOf (s.vol.node (s.inode k).inum).size.toNat) _)
  exact (hhole.block q (hlt.trans_le hhole.le)).mpr hlt

theorem Wrote.indirect_ne_zero (hi : s.vol.Allocated (s.inode k).inum)
    (hq : NDIRECT < blocksOf (off + n)) : s'.vol.addr (s.inode k).inum .indirect ≠ 0 := by
  have hhole := h.ok.holeFree _ (h.allocated hi)
  rw [h.size_eq, blocksOf_max] at hhole
  exact hhole.indirect.mpr (hq.trans_le (le_max_right _ _))

theorem Wrote.card_logged (hd : DiskOk s) (hc : Cached s k)
    (hi : s.vol.Allocated (s.inode k).inum) (hn : 0 < n) (hsize : s.sb.size.toNat ≤ BPB) :
    ∃ L, Logs s s' L ∧
      L.toFinset.card = touched (s.vol.node (s.inode k).inum).size.toNat off n := by
  classical
  obtain ⟨L, hL, hmem⟩ := h.logs
  refine ⟨L, hL, ?_⟩
  have hfresh := h.exists_fresh_iff
  have hi' := h.allocated hi
  have haddr : ∀ sl, s'.vol.addr (s.inode k).inum sl ≠ 0 →
      s.sb.dataStart ≤ s'.vol.addr (s.inode k).inum sl := fun sl h0 =>
    h.sb ▸ (h.ok.exact.addr_range hi' h0).1
  have hbmap := bmapstart_lt_dataStart s.sb
  have hiblock := IBLOCK_range hd.wf hc.lt
  generalize (s.vol.node (s.inode k).inum).size.toNat = size at *
  -- the four groups of blocks
  let D := (Finset.Ico (off / BSIZE) (blocksOf (off + n))).image fun q =>
    s'.vol.addr (s.inode k).inum (.block q)
  let B := if blocksOf size < blocksOf (off + n) then {s.sb.bmapstart.toNat} else (∅ : Finset ℕ)
  let X := if blocksOf size < blocksOf (off + n) ∧ NDIRECT < blocksOf (off + n) then
    {s'.vol.addr (s.inode k).inum .indirect} else (∅ : Finset ℕ)
  let N := if size < off + n then {IBLOCK (s.inode k).inum s.sb} else (∅ : Finset ℕ)
  have hset : L.toFinset = ((D ∪ B) ∪ X) ∪ N := by
    ext b
    have hD : b ∈ D ↔ ∃ q, (0 < n ∧ off / BSIZE ≤ q ∧ q * BSIZE < off + n) ∧
        b = s'.vol.addr (s.inode k).inum (.block q) := by
      rw [Finset.mem_image]
      apply exists_congr
      intro q
      rw [Finset.mem_Ico, eq_comm, lt_blocksOf_iff]
      exact and_congr_left fun _ => ⟨fun h => ⟨hn, h⟩, fun h => h.2⟩
    have hB : b ∈ B ↔ ∃ c, Fresh s s' c ∧ b = BBLOCK c s.sb := by
      have hone : ∀ c, Fresh s s' c → BBLOCK c s.sb = s.sb.bmapstart.toNat := by
        intro c hc
        have hlt := h.fresh_lt hc
        unfold BBLOCK
        rw [Nat.div_eq_of_lt (by omega), Nat.zero_add]
      rw [mem_ite_singleton, ← hfresh]
      constructor
      · rintro ⟨⟨c, hc⟩, rfl⟩
        exact ⟨c, hc, (hone c hc).symm⟩
      · rintro ⟨c, hc, rfl⟩
        exact ⟨⟨c, hc⟩, hone c hc⟩
    rw [mem_toFinset, hmem b, Finset.mem_union, Finset.mem_union, Finset.mem_union, hD, hB,
      mem_ite_singleton, mem_ite_singleton, or_assoc, or_assoc, or_assoc, or_assoc]
    simp only [hn, true_and]
  have hcardD : D.card = blocksOf (off + n) - off / BSIZE := by
    rw [Finset.card_image_of_injOn, Nat.card_Ico]
    intro q hq q' hq' he
    have h0 := h.addr_ne_zero hi (Finset.mem_Ico.mp hq).2
    exact Slot.block.inj (h.ok.exact.addr_inj hi' hi' h0 he).2
  have hDdata : ∀ b ∈ D, s.sb.dataStart ≤ b := by
    intro b hb
    obtain ⟨q, hq, rfl⟩ := Finset.mem_image.mp hb
    exact haddr _ (h.addr_ne_zero hi (Finset.mem_Ico.mp hq).2)
  have hBeq : ∀ b ∈ B, b = s.sb.bmapstart.toNat := fun b hb => (mem_ite_singleton.mp hb).2
  have hNeq : ∀ b ∈ N, b = IBLOCK (s.inode k).inum s.sb := fun b hb => (mem_ite_singleton.mp hb).2
  have hXeq : ∀ b ∈ X, s.sb.dataStart ≤ b ∧ b ∉ D := by
    intro b hb
    obtain ⟨hx, rfl⟩ := mem_ite_singleton.mp hb
    have h0 := h.indirect_ne_zero hi hx.2
    refine ⟨haddr _ h0, fun hD => ?_⟩
    obtain ⟨q, -, he⟩ := Finset.mem_image.mp hD
    exact Slot.noConfusion (h.ok.exact.addr_inj hi' hi' h0 he.symm).2
  have h₁ : Disjoint D B := Finset.disjoint_left.mpr fun b hb hb' => by
    have := hDdata b hb
    have := hBeq b hb'
    omega
  have h₂ : Disjoint (D ∪ B) X := Finset.disjoint_right.mpr fun b hb hb' => by
    rcases Finset.mem_union.mp hb' with hb' | hb'
    · exact (hXeq b hb).2 hb'
    · have := (hXeq b hb).1
      have := hBeq b hb'
      omega
  have h₃ : Disjoint (D ∪ B ∪ X) N := Finset.disjoint_right.mpr fun b hb hb' => by
    have := hNeq b hb
    rcases Finset.mem_union.mp hb' with hb' | hb'
    · rcases Finset.mem_union.mp hb' with hb' | hb'
      · have := hDdata b hb'
        omega
      · have := hBeq b hb'
        omega
    · have := (hXeq b hb').1
      omega
  rw [hset, Finset.card_union_of_disjoint h₃, Finset.card_union_of_disjoint h₂,
    Finset.card_union_of_disjoint h₁, hcardD, card_ite_singleton, card_ite_singleton,
    card_ite_singleton]
  rfl

end

end Blocks

/-! ## Transactions -/

def FsEvent.block? : FsEvent → Option ℕ
  | .logWrite b => some b
  | _ => none

/-- The blocks logged in each transaction of a sequence of events. -/
def transactions : List FsEvent → List (List ℕ)
  | [] => []
  | .beginOp :: es => (es.takeWhile (· ≠ .endOp)).filterMap FsEvent.block? :: transactions es
  | _ :: es => transactions es

section

variable (L : List ℕ)
include L

theorem transactions_logs : transactions (L.map .logWrite) = [] := by
  induction L with
  | nil => rfl
  | cons b L ih => exact ih

theorem filterMap_logs : (L.map FsEvent.logWrite).filterMap FsEvent.block? = L := by
  rw [filterMap_map]
  exact filterMap_some

theorem takeWhile_logs (es : List FsEvent) :
    (L.map FsEvent.logWrite ++ es).takeWhile (· ≠ .endOp) =
      L.map FsEvent.logWrite ++ es.takeWhile (· ≠ .endOp) := by
  apply takeWhile_append_of_pos
  intro e he
  obtain ⟨b, -, rfl⟩ := mem_map.mp he
  rfl

theorem transactions_open : transactions (.beginOp :: L.map .logWrite) = [L] := by
  have h := takeWhile_logs L []
  rw [append_nil, takeWhile_nil, append_nil] at h
  rw [transactions, h, filterMap_logs, transactions_logs]

theorem transactions_closed : transactions (.beginOp :: (L.map .logWrite ++ [.endOp])) = [L] := by
  have hrest : transactions (L.map .logWrite ++ [.endOp]) = [] := by
    induction L with
    | nil => rfl
    | cons b L ih => exact ih
  rw [transactions, takeWhile_logs, takeWhile_cons_of_neg (by decide), append_nil,
    filterMap_logs, hrest]

end

/-- The events between two states. -/
def newEvents (s s' : FsState) : List FsEvent := (s'.trace.drop s.trace.length).map Prod.snd

/-- Since `s`, no transaction has logged more blocks than `begin_op` reserves. -/
def WithinBudget (s s' : FsState) : Prop :=
  ∀ L ∈ transactions (newEvents s s'), L.toFinset.card ≤ MAXOPBLOCKS

def Traced (s s' : FsState) (es : List FsEvent) : Prop :=
  s'.trace = s.trace ++ es.map fun e => (s.cur, e)

theorem Traced.newEvents_eq {s s' : FsState} {es : List FsEvent} (h : Traced s s' es) :
    newEvents s s' = es := by
  unfold newEvents
  rw [h, drop_left, map_map]
  exact map_id es

/-! ## One chunk -/

/-- `f` is open for writing on a regular file, with an offset inside it. -/
structure OpenRegular (s : FsState) (f : Fin NFILE) : Prop where
  disk : DiskOk s
  fssize : s.sb.size.toNat = FSSIZE
  type : (s.file f).type = .inode
  writable : (s.file f).writable = true
  ref : 1 ≤ (s.inode (s.file f).ip).ref
  unlocked : (s.inode (s.file f).ip).busy = false
  lt : (s.inode (s.file f).ip).inum < s.sb.ninodes.toNat
  cached : (s.inode (s.file f).ip).valid = true →
    (s.inode (s.file f).ip).node = s.vol.node (s.inode (s.file f).ip).inum
  regular : (s.vol.node (s.inode (s.file f).ip).inum).type = T_FILE
  off : (s.file f).off.toNat ≤ (s.vol.node (s.inode (s.file f).ip).inum).size.toNat

section Chunk

variable {s : FsState} {f : Fin NFILE} {k : Fin NINODE}

theorem Traced.emit {s t : FsState} {es : List FsEvent} {e : FsEvent} (h : Traced s t es)
    (hcur : t.cur = s.cur) : Traced s (t.emit e) (es ++ [e]) := by
  unfold Traced at h ⊢
  rw [FsState.emit, h, hcur, map_append, append_assoc]
  rfl

section Tail

variable {C : FsState → Prop} {Q : Option UInt32 → FsState → Prop} {E : Stop → FsState → Prop}

section

variable {t : FsState} {r : Option UInt32} {es : List FsEvent} (htr : Traced s t es)
  (hcur : t.cur = s.cur) (href : 1 ≤ (t.inode k).ref) (hbusy : (t.inode k).busy = true)
  (hC : ∀ u, Traced s u es → C u) (hQ : ∀ u, Traced s u (es ++ [.endOp]) → C u ∧ Q r u)

include htr hcur href hbusy hC hQ

theorem wpc_unlockEnd : wpc C Q E (act (iunlock k) fun _ => act (modify fun s => s.emit .endOp) fun _ => pure r) t := by
  refine ⟨hC t htr, wp_iunlock href hbusy ⟨hC _ htr, ?_⟩⟩
  rw [wp_modify]
  exact hQ _ (Traced.emit htr hcur)

theorem wpc_chunkTail : wpc C Q E (if 0 < r.getD 0 then act (advance f (r.getD 0)) fun _ =>
        act (iunlock k) fun _ => act (modify fun s => s.emit .endOp) fun _ => pure r
      else act (iunlock k) fun _ => act (modify fun s => s.emit .endOp) fun _ => pure r) t := by
  split_ifs
  · refine ⟨hC t htr, ?_⟩
    rw [advance, wp_modify]
    exact wpc_unlockEnd htr hcur href hbusy hC hQ
  · exact wpc_unlockEnd htr hcur href hbusy hC hQ

end

theorem wpc_filewriteChunk {src : Bytes} {n : UInt32} (h : OpenRegular s f) (hn : 0 < n.toNat)
    (hbegin : ∀ t, Traced s t [] ∨ Traced s t [.beginOp] → C t)
    (hfull : ¬ Refused (s.vol.node (s.inode (s.file f).ip).inum).size.toNat
        (s.file f).off.toNat n.toNat →
      NoSpace s (s.vol.node (s.inode (s.file f).ip).inum).size.toNat (s.file f).off.toNat
        n.toNat → ∀ t, E (.panic "balloc: out of blocks") t)
    (hfail : Refused (s.vol.node (s.inode (s.file f).ip).inum).size.toNat
      (s.file f).off.toNat n.toNat → ∀ t, Traced s t [.beginOp, .endOp] → C t ∧ Q none t)
    (hlog : ¬ Refused (s.vol.node (s.inode (s.file f).ip).inum).size.toNat
        (s.file f).off.toNat n.toNat →
      ¬ NoSpace s (s.vol.node (s.inode (s.file f).ip).inum).size.toNat (s.file f).off.toNat
        n.toNat → ∀ (L : List ℕ) t,
      L.toFinset.card = touched (s.vol.node (s.inode (s.file f).ip).inum).size.toNat
        (s.file f).off.toNat n.toNat →
      (Traced s t (.beginOp :: L.map .logWrite) → C t) ∧
      (Traced s t (.beginOp :: (L.map .logWrite ++ [.endOp])) → C t ∧ Q (some n) t)) :
    wpc C Q E (filewriteChunk f src n) s := by
  have htype : (s.vol.node (s.inode (s.file f).ip).inum).type ≠ 0 := by
    rw [h.regular]
    decide
  have h₁ : ∀ t, Traced s t [.beginOp] → C t := fun t ht => hbegin t (.inr ht)
  unfold filewriteChunk Fs.beginOp Fs.endOp
  simp only [atom_bind]
  refine ⟨hbegin s (.inl (by simp [Traced])), ?_⟩
  rw [wp_modify]
  refine ⟨h₁ _ rfl, ?_⟩
  simp only [getFile, wp_bind, wp_get, wp_pure]
  refine ⟨h₁ _ rfl, wp_ilock h.ref h.unlocked h.lt h.cached htype ⟨h₁ _ rfl, ?_⟩⟩
  simp only [wp_bind, wp_get, wp_pure]
  -- the inode is locked and loaded
  obtain ⟨s₂, hs₂⟩ : ∃ s₂, s₂ = (s.emit .beginOp).setInode (s.file f).ip
    { s.inode (s.file f).ip with
      busy := true, valid := true, node := s.vol.node (s.inode (s.file f).ip).inum } := ⟨_, rfl⟩
  have hvol : s₂.vol = s.vol := by rw [hs₂]; rfl
  have hsb : s₂.sb = s.sb := by rw [hs₂]; rfl
  have hcur : s₂.cur = s.cur := by rw [hs₂]; rfl
  have htr : Traced s s₂ [.beginOp] := by rw [hs₂]; rfl
  have hinode : s₂.inode (s.file f).ip = { s.inode (s.file f).ip with
      busy := true, valid := true, node := s.vol.node (s.inode (s.file f).ip).inum } := by
    rw [hs₂]
    exact Function.update_self ..
  have hd₂ : DiskOk s₂ := by
    rw [hs₂]
    exact ⟨h.disk.wf, h.disk.super, h.disk.exact, h.disk.holeFree⟩
  have hc₂ : Cached s₂ (s.file f).ip := ⟨by rw [hinode, hsb]; exact h.lt, by rw [hinode, hvol]⟩
  have hi₂ : s₂.vol.Allocated (s₂.inode (s.file f).ip).inum := by
    rw [hvol, hinode]
    exact ⟨h.lt, htype⟩
  have hsize : s₂.vol.node (s₂.inode (s.file f).ip).inum =
      s.vol.node (s.inode (s.file f).ip).inum := by rw [hvol, hinode]
  change wpc C Q E (writei (s.file f).ip src (s.file f).off n >>= _)
    ((s.emit .beginOp).setInode (s.file f).ip { s.inode (s.file f).ip with
      busy := true, valid := true, node := s.vol.node (s.inode (s.file f).ip).inum })
  apply wpc_bind
  unfold writei
  rw [atom_bind, ← hs₂]
  refine ⟨h₁ _ htr, ?_⟩
  simp only [getNode, wp_bind, wp_get, wp_pure]
  rw [if_neg (by rw [hinode, h.regular]; decide)]
  refine ⟨h₁ _ htr, wp_writeData hd₂ hc₂ hi₂ ?_ ?_ ?_⟩
  · rw [hsize]
    intro hr
    have href : 1 ≤ (s₂.inode (s.file f).ip).ref := by
      rw [hinode]
      exact h.ref
    have hbusy : (s₂.inode (s.file f).ip).busy = true := by rw [hinode]
    exact ⟨h₁ _ htr, wpc_chunkTail htr hcur href hbusy h₁ (hfail hr)⟩
  · rw [hsize, hvol, hsb]
    exact hfull
  · rw [hsize]
    intro hr s₃ hw
    have hspace := hw.not_noSpace
    obtain ⟨L, hL, hcard⟩ := hw.card_logged hd₂ hc₂ hi₂ hn (by rw [hsb, h.fssize]; decide)
    rw [hsize] at hspace hcard
    unfold NoSpace at hspace hlog
    rw [hvol, hsb] at hspace
    have htr₃ : Traced s s₃ (.beginOp :: L.map .logWrite) := by
      unfold Traced at htr ⊢
      rw [hL, htr, hcur]
      simp
    have hinode₃ : s₃.inode (s.file f).ip = { s₂.inode (s.file f).ip with
        node := s₃.vol.node (s₂.inode (s.file f).ip).inum } := by
      rw [hw.inode, Function.update_self]
    have href : 1 ≤ (s₃.inode (s.file f).ip).ref := by
      rw [hinode₃, hinode]
      exact h.ref
    have hbusy : (s₃.inode (s.file f).ip).busy = true := by rw [hinode₃, hinode]
    exact ⟨(hlog hr hspace L s₃ hcard).1 htr₃, wpc_chunkTail htr₃ (hw.cur.trans hcur) href hbusy
      (fun u => (hlog hr hspace L u hcard).1) fun u => (hlog hr hspace L u hcard).2⟩

end Tail

end Chunk

/-! ## The whole write -/

/-- The first chunk is not written, or its transaction fits; a second one does not follow then. -/
def FitsBudget (s : FsState) (f : Fin NFILE) (n : ℤ) : Prop :=
  n ≤ 0 ∨
  Refused (s.vol.node (s.inode (s.file f).ip).inum).size.toNat (s.file f).off.toNat
    (min n.toNat maxWrite) ∨
  NoSpace s (s.vol.node (s.inode (s.file f).ip).inum).size.toNat (s.file f).off.toNat
    (min n.toNat maxWrite) ∨
  touched (s.vol.node (s.inode (s.file f).ip).inum).size.toNat (s.file f).off.toNat
    (min n.toNat maxWrite) ≤ MAXOPBLOCKS

section Whole

variable {s : FsState} {f : Fin NFILE} {src : Bytes} {n : ℤ} {piped : ℤ}

theorem toNat_chunk (n : ℕ) : (UInt32.ofNat (min n maxWrite)).toNat = min n maxWrite := by
  rw [UInt32.toNat_ofNat']
  have : maxWrite = 6656 := rfl
  omega

theorem lt_touched {size off n : ℕ} (h : maxWrite ≤ n) : MAXOPBLOCKS < touched size off n := by
  have hmax : maxWrite = 6656 := rfl
  unfold touched
  simp only [blocksOf, BSIZE, MAXOPBLOCKS]
  omega

theorem withinBudget_of_traced {s s' : FsState} {es : List FsEvent} (h : Traced s s' es)
    (hes : ∀ L ∈ transactions es, L.toFinset.card ≤ MAXOPBLOCKS) : WithinBudget s s' := by
  unfold WithinBudget
  rwa [h.newEvents_eq]

theorem wpc_filewriteLoop (h : OpenRegular s f) (hfit : FitsBudget s f n) :
    wpc (WithinBudget s) (fun _ _ => True) (fun _ _ => True) (filewriteLoop f src n.toNat) s := by
  have hempty : ∀ t, Traced s t [] ∨ Traced s t [.beginOp] → WithinBudget s t := by
    rintro t (ht | ht)
    · exact withinBudget_of_traced ht (by simp [transactions])
    · exact withinBudget_of_traced ht (by simp [transactions])
  rw [filewriteLoop]
  by_cases h0 : n.toNat = 0
  · rw [if_pos h0]
    exact ⟨hempty s (.inl (by simp [Traced])), trivial⟩
  rw [if_neg h0]
  apply wpc_bind
  apply wpc_filewriteChunk h
  · rw [toNat_chunk]
    have : maxWrite = 6656 := rfl
    omega
  · exact hempty
  · exact fun _ _ _ => trivial
  · intro hr t ht
    have hC : WithinBudget s t := withinBudget_of_traced ht (by simp [transactions])
    exact ⟨hC, hC, trivial⟩
  · rw [toNat_chunk]
    intro hr hspace L t hcard
    have hL : L.toFinset.card ≤ MAXOPBLOCKS := by
      rw [hcard]
      rcases hfit with hneg | hbad | hbad | hok
      · omega
      · exact absurd hbad hr
      · exact absurd hbad hspace
      · exact hok
    have hlast : n.toNat - min n.toNat maxWrite = 0 := by
      by_contra hne
      have : min n.toNat maxWrite = maxWrite := by omega
      rw [hcard, this] at hL
      exact absurd hL (Nat.not_le_of_lt (lt_touched le_rfl))
    constructor
    · intro ht
      apply withinBudget_of_traced ht
      rw [transactions_open]
      simpa using hL
    · intro ht
      have hC : WithinBudget s t := by
        apply withinBudget_of_traced ht
        rw [transactions_closed]
        simpa using hL
      refine ⟨hC, ?_⟩
      simp only [ne_eq, not_true_eq_false, if_false, hlast]
      rw [filewriteLoop, if_pos rfl]
      exact ⟨hC, trivial⟩

theorem filewrite_first_chunk (piped : ℤ) (src : Bytes) (h : OpenRegular s f) (h0 : n.toNat ≠ 0) :
    ∃ k : Option UInt32 → FsProg ℤ, ∀ p' s',
      Steps (filewriteChunk f src (UInt32.ofNat (min n.toNat maxWrite)) >>= k) s p' s' →
        Steps (filewrite piped f src n) s p' s' := by
  refine ⟨?k, fun p' s' hs => ?_⟩
  swap
  unfold filewrite
  rw [atom_bind]
  apply Steps.step (show getFile f s = .ok (s.file f) s from rfl)
  simp only [h.writable, h.type, not_true_eq_false, if_false]
  rw [filewriteLoop, if_neg h0, bind_assoc]
  exact hs

theorem steps_over_budget (h : OpenRegular s f) (hfit : ¬ FitsBudget s f n) :
    ∃ p' s', Steps (filewrite piped f src n) s p' s' ∧ ¬ WithinBudget s s' := by
  unfold FitsBudget at hfit
  push Not at hfit
  obtain ⟨hpos, hr, hspace, hover⟩ := hfit
  have h0 : n.toNat ≠ 0 := by omega
  have hrun : wp (filewriteChunk f src (UInt32.ofNat (min n.toNat maxWrite))).run
      (fun _ t => ¬ WithinBudget s t) (fun _ _ => False) s := by
    apply wpc_run (C := fun _ => True)
    apply wpc_filewriteChunk h
    · rw [toNat_chunk]
      have : maxWrite = 6656 := rfl
      omega
    · exact fun _ _ => trivial
    · rw [toNat_chunk]
      exact fun _ hn => absurd hn hspace
    · rw [toNat_chunk]
      exact fun hn => absurd hn hr
    · rw [toNat_chunk]
      intro _ _ L t hcard
      refine ⟨fun _ => trivial, fun ht => ⟨trivial, fun hb => ?_⟩⟩
      have hL := hb L (by rw [ht.newEvents_eq, transactions_closed]; exact mem_singleton_self L)
      omega
  obtain ⟨k, hk⟩ := filewrite_first_chunk piped src h h0
  obtain ⟨r, s', hover', hs⟩ := steps_of_run (k := k) hrun
  exact ⟨k r, s', hk _ _ hs, hover'⟩

theorem wpc_filewrite (h : OpenRegular s f) (hfit : FitsBudget s f n) :
    wpc (WithinBudget s) (fun _ _ => True) (fun _ _ => True) (filewrite piped f src n) s := by
  have hloop : wpc (WithinBudget s) (fun _ _ => True) (fun _ _ => True)
      (filewriteLoop f src n.toNat) s := wpc_filewriteLoop h hfit
  unfold filewrite
  rw [atom_bind]
  refine ⟨wpc_crash hloop, ?_⟩
  simp only [getFile, wp_bind, wp_get, wp_pure, h.writable, h.type, not_true_eq_false, if_false]
  exact wpc_bind (wpc_mono hloop fun _ _ hc _ => ⟨hc, trivial⟩)

end Whole

/-! ## A write of one full chunk -/

/-- The empty file opened for writing as file 0. -/
def emptyFileWritable : FsState :=
  { emptyFileOpen with
    inode := Function.update emptyFileOpen.inode 1 ⟨ROOTDEV, 2, 1, false, true, emptyFileNodes 2⟩
    file := Function.update emptyFileOpen.file 0 ⟨.inode, 1, true, true, 1, 0⟩ }

theorem emptyFileWritable_regular : OpenRegular emptyFileWritable 0 where
  disk := ⟨emptyFileOpen_diskOk.wf, emptyFileOpen_diskOk.super, emptyFileOpen_diskOk.exact,
    emptyFileOpen_diskOk.holeFree⟩
  fssize := by rw [show emptyFileWritable.sb = mkfsSb from boot_sb]; rfl
  type := rfl
  writable := rfl
  ref := le_rfl
  unlocked := rfl
  lt := by rw [show emptyFileWritable.sb = mkfsSb from boot_sb]; decide
  cached _ := emptyFileOpen_node.symm
  regular := congrArg Dinode.type emptyFileOpen_node
  off := Nat.zero_le _

theorem emptyFileWritable_size :
    (emptyFileWritable.vol.node (emptyFileWritable.inode (emptyFileWritable.file 0).ip).inum).size.toNat
      = 0 := congrArg (fun d => d.size.toNat) emptyFileOpen_node

end Xv6.Fs
