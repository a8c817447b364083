import Xv6.LogModel

/-!
# Recovery and the two outcomes of a commit

`Recoverable T d` says that recovery of the disk `d` produces the home blocks `T`: whatever the
header lists is taken from the log, everything else is already in place. Recovery keeps this
predicate between any two of its writes, and a commit changes `T` exactly at its first header write.
-/

namespace Xv6

open Resumption ByteLayout Function List Prog LogState

variable {ι : Type}

namespace LogState

/-- The contents of a block as the kernel sees them. -/
def mem (s : LogState ι) (b : ℕ) : Block := ((s.bcache b).map Buf.data).getD (s.disk b)

def busy (s : LogState ι) (b : ℕ) : Bool := ((s.bcache b).map Buf.busy).getD false

def pinned (s : LogState ι) (b : ℕ) : Bool := ((s.bcache b).map Buf.dirty).getD false

def hold (s : LogState ι) (b : ℕ) : LogState ι :=
  s.setBuf b (some { data := s.mem b, dirty := s.pinned b, busy := true })

variable (s : LogState ι) (b : ℕ) (buf : Buf)

section

variable (o : Option Buf)
include o

@[simp] theorem setBuf_disk : (s.setBuf b o).disk = s.disk := rfl

@[simp] theorem setBuf_log : (s.setBuf b o).log = s.log := rfl

@[simp] theorem setBuf_trace : (s.setBuf b o).trace = s.trace := rfl

@[simp] theorem setBuf_bcache :
    (s.setBuf b o).bcache = update s.bcache b o := rfl

end

@[simp] theorem setBuf_mem : (s.setBuf b (some buf)).mem = update s.mem b buf.data := by
  funext c
  by_cases h : c = b
  · subst h
    simp [mem]
  · simp [mem, h]

@[simp] theorem setBuf_busy : (s.setBuf b (some buf)).busy = update s.busy b buf.busy := by
  funext c
  by_cases h : c = b
  · subst h
    simp [busy]
  · simp [busy, h]

@[simp] theorem setBuf_pinned : (s.setBuf b (some buf)).pinned = update s.pinned b buf.dirty := by
  funext c
  by_cases h : c = b
  · subst h
    simp [pinned]
  · simp [pinned, h]

@[simp] theorem emit_trace (e : LogEvent ι) : (s.emit e).trace = s.trace ++ [e] := rfl

@[simp] theorem hold_disk : (s.hold b).disk = s.disk := rfl

@[simp] theorem hold_log : (s.hold b).log = s.log := rfl

@[simp] theorem hold_trace : (s.hold b).trace = s.trace := rfl

@[simp] theorem hold_mem : (s.hold b).mem = s.mem := by simp [hold]

@[simp] theorem hold_pinned : (s.hold b).pinned = s.pinned := by simp [hold]

@[simp] theorem hold_busy : (s.hold b).busy = update s.busy b true := by simp [hold]

/-- The state after the holder of a buffer stored `v` in it and wrote it to disk. -/
def written (v : Block) : LogState ι :=
  { (s.setBuf b (some { data := v, dirty := false, busy := true })).emit (.bwrite b v) with
    disk := Function.update s.disk b v }

variable (v : Block)

@[simp] theorem written_disk : (s.written b v).disk = update s.disk b v := rfl

@[simp] theorem written_log : (s.written b v).log = s.log := rfl

@[simp] theorem written_trace : (s.written b v).trace = s.trace ++ [.bwrite b v] := rfl

@[simp] theorem written_mem : (s.written b v).mem = update s.mem b v := by
  funext c
  by_cases h : c = b
  · subst h
    simp [mem, written, emit]
  · simp [mem, written, emit, h]

theorem written_setBuf (o : Option Buf) : (s.setBuf b o).written b v = s.written b v := by
  simp [written, setBuf, emit]

@[simp] theorem written_busy : (s.written b v).busy = update s.busy b true :=
  setBuf_busy s b _

@[simp] theorem written_pinned : (s.written b v).pinned = update s.pinned b false :=
  setBuf_pinned s b _

end LogState

section Atomic

variable {Q : Block → LogState ι → Prop} {R : Unit → LogState ι → Prop}
  {E : Stop → LogState ι → Prop} {s : LogState ι} {b : ℕ}

theorem wp_bread : wp (bread b) Q E s ↔
    (s.busy b = true → E .sleep s) ∧ (s.busy b = false → Q (s.mem b) (s.hold b)) := by
  cases h : s.bcache b with
  | none => simp [bread, h, busy, mem, hold, pinned]
  | some buf =>
      cases hb : buf.busy with
      | true => simp [bread, h, hb, busy]
      | false => simp [bread, h, hb, busy, mem, hold, pinned]

theorem wp_putData {u : Buf} (h : s.bcache b = some u) (v : Block) :
    wp (putData b v) R E s ↔ R () (s.setBuf b (some { u with data := v })) := by
  simp [putData, mapBuf, h]

theorem wp_bwrite {u : Buf} (h : s.bcache b = some u) (hb : u.busy = true) :
    wp (bwrite b) R E s ↔ R () (s.written b u.data) := by
  simp [bwrite, h, hb, written]

theorem wp_brelse {u : Buf} (h : s.bcache b = some u) (hb : u.busy = true) :
    wp (brelse b) R E s ↔ R () (s.setBuf b (some { u with busy := false })) := by
  simp [brelse, h, hb]

end Atomic

structure Wrote (s s' : LogState ι) (b : ℕ) (v : Block) : Prop where
  disk : s'.disk = Function.update s.disk b v
  mem : s'.mem = Function.update s.mem b v
  log : s'.log = s.log
  trace : s'.trace = s.trace ++ [.bwrite b v]
  busy : s'.busy = s.busy
  pinned : s'.pinned = Function.update s.pinned b false

theorem wrote_of_held (s t : LogState ι) {src dst : ℕ} (hne : src ≠ dst) (hs : s.busy src = false)
    (hd : s.busy dst = false) (ht : t = (s.hold src).hold dst ∨ t = (s.hold dst).hold src) :
    Wrote s (((t.written dst (s.mem src)).setBuf src
      (some { data := s.mem src, dirty := s.pinned src, busy := false })).setBuf dst
      (some { data := s.mem src, dirty := false, busy := false })) dst (s.mem src) := by
  have hbusy : ∀ c, c ≠ src → c ≠ dst → t.busy c = s.busy c := by
    intro c h₁ h₂
    rcases ht with rfl | rfl <;> simp [h₁, h₂]
  have hviews : t.disk = s.disk ∧ t.mem = s.mem ∧ t.log = s.log ∧ t.trace = s.trace ∧
      t.pinned = s.pinned := by
    rcases ht with rfl | rfl <;> simp
  obtain ⟨hdisk, hmem, hlog, htrace, hpinned⟩ := hviews
  constructor
  · simp [hdisk]
  · funext c
    by_cases h₁ : c = dst
    · simp [h₁]
    · by_cases h₂ : c = src <;> simp [h₁, h₂, hne, hmem]
  · simp [hlog]
  · simp [htrace]
  · funext c
    by_cases h₁ : c = dst
    · simp [h₁, hd]
    · by_cases h₂ : c = src
      · simp [h₂, hne, hs]
      · simp [h₁, h₂, hbusy c h₂ h₁]
  · funext c
    by_cases h₁ : c = dst
    · simp [h₁]
    · by_cases h₂ : c = src <;> simp [h₁, h₂, hne, hpinned]

section Rounds

variable {R : Unit → LogState ι → Prop} {E : Stop → LogState ι → Prop} {s : LogState ι}
  {tail : ℕ} (src dst : ℕ)

theorem wp_installBlock (hsrc : s.log.start + tail + 1 = src)
    (hdst : (s.log.lh.getD tail 0).toNat = dst)
    (hE : s.busy src ∨ s.busy dst ∨ src = dst → ∀ s', E .sleep s')
    (hR : ∀ s', Wrote s s' dst (s.mem src) → R () s') : wp (installBlock tail) R E s := by
  simp only [installBlock, wp_bind, wp_get, hsrc, hdst, wp_bread]
  refine ⟨fun h => hE (Or.inl h) _, fun hs => ⟨fun h => hE ?_ _, fun hd => ?_⟩⟩
  · by_cases he : dst = src
    · exact Or.inr (Or.inr he.symm)
    · exact Or.inr (Or.inl (by simpa [he] using h))
  · have hne : src ≠ dst := by
      rintro rfl
      simp at hd
    have hd' : s.busy dst = false := by simpa [hne.symm] using hd
    rw [wp_putData (u := ⟨s.mem dst, s.pinned dst, true⟩) (by simp [hold]),
      wp_bwrite (u := ⟨s.mem src, s.pinned dst, true⟩) (by simp) rfl,
      written_setBuf,
      wp_brelse (u := ⟨s.mem src, s.pinned src, true⟩)
        (by simp [written, emit, hold, hne]) rfl,
      wp_brelse (u := ⟨s.mem src, false, true⟩)
        (by simp [written, emit, hne.symm]) rfl]
    exact hR _ (wrote_of_held s _ hne hs hd' (Or.inl rfl))

theorem wp_writeLogBlock (hdst : s.log.start + tail + 1 = dst)
    (hsrc : (s.log.lh.getD tail 0).toNat = src)
    (hE : s.busy src ∨ s.busy dst ∨ src = dst → ∀ s', E .sleep s')
    (hR : ∀ s', Wrote s s' dst (s.mem src) → R () s') : wp (writeLogBlock tail) R E s := by
  simp only [writeLogBlock, wp_bind, wp_get, hsrc, hdst, wp_bread]
  refine ⟨fun h => hE (Or.inr (Or.inl h)) _, fun hd => ⟨fun h => hE ?_ _, fun hs => ?_⟩⟩
  · by_cases he : src = dst
    · exact Or.inr (Or.inr he)
    · exact Or.inl (by simpa [he] using h)
  · have hne : src ≠ dst := by
      rintro rfl
      simp at hs
    have hs' : s.busy src = false := by simpa [hne] using hs
    rw [wp_putData (u := ⟨s.mem dst, s.pinned dst, true⟩)
        (by simp [hold, hne.symm]),
      wp_bwrite (u := ⟨s.mem src, s.pinned dst, true⟩) (by simp) rfl,
      written_setBuf,
      wp_brelse (u := ⟨s.mem src, s.pinned src, true⟩)
        (by simp [written, emit, hold, hne]) rfl,
      wp_brelse (u := ⟨s.mem src, false, true⟩)
        (by simp [written, emit, hne.symm]) rfl]
    exact hR _ (wrote_of_held s _ hne hs' hd (Or.inr rfl))

theorem wp_writeHead (hE : s.busy s.log.start → ∀ s', E .sleep s')
    (hR : ∀ s', Wrote s s' s.log.start (setHeader (s.mem s.log.start) s.log.lh) → R () s') :
    wp writeHead R E s := by
  simp only [writeHead, wp_bind, wp_get, wp_bread]
  refine ⟨fun h => hE h _, fun hb => ?_⟩
  rw [wp_putData (u := ⟨s.mem s.log.start, s.pinned s.log.start, true⟩) (by simp [hold]),
    wp_bwrite (u := ⟨setHeader (s.mem s.log.start) s.log.lh, s.pinned s.log.start, true⟩)
      (by simp) rfl,
    written_setBuf,
    wp_brelse (u := ⟨setHeader (s.mem s.log.start) s.log.lh, false, true⟩)
      (by simp [written, emit]) rfl]
  apply hR
  constructor <;> simp [hb]

theorem wp_readHead {l : List UInt32} (hb : s.busy s.log.start = false)
    (hlen : l.length ≤ LOGSIZE) (hc : (headerCount (s.mem s.log.start)).toNat = l.length)
    (hl : headerBlocks (s.mem s.log.start) l.length = l)
    (hR : ∀ s', s'.disk = s.disk → s'.mem = s.mem → s'.busy = s.busy →
      s'.log = { s.log with lh := l } → s'.trace = s.trace → R () s') : wp readHead R E s := by
  simp only [LOGSIZE, MAXOPBLOCKS] at hlen
  simp only [readHead, wp_bind, wp_get, wp_bread, hb]
  refine ⟨fun h => absurd h (by simp), fun _ => ?_⟩
  rw [hc, hl, wp_ite]
  refine ⟨fun h => absurd h (by omega), fun _ => ?_⟩
  rw [wp_ite]
  refine ⟨fun h => absurd h (by simp only [LOGSIZE, MAXOPBLOCKS]; omega), fun _ => ?_⟩
  simp only [setLh, wp_bind, wp_modify]
  rw [wp_brelse (u := ⟨s.mem s.log.start, s.pinned s.log.start, true⟩)
    (by simp [LogState.hold, LogState.setLh]) rfl]
  have hviews : ∀ t : LogState ι, (t.setLh l).mem = t.mem ∧ (t.setLh l).busy = t.busy :=
    fun t => ⟨rfl, rfl⟩
  apply hR
  · rfl
  · simp [hviews]
  · simp [hviews, hb]
  · rfl
  · rfl

end Rounds

/-! ## What recovery of a disk produces -/

def InLog (start size b : ℕ) : Prop := start ≤ b ∧ b < start + size

/-- The header of `d` lists the blocks `l`, their contents in `T` are in the log, and every other
home block already has its contents in `T`. -/
structure Logged (start size : ℕ) (T d : ℕ → Block) (l : List UInt32) : Prop where
  length_le : l.length ≤ LOGSIZE
  length_lt : l.length < size
  home : ∀ b ∈ l, ¬ InLog start size b.toNat
  count : (headerCount (d start)).toNat = l.length
  blocks : headerBlocks (d start) l.length = l
  copy : ∀ i < l.length, d (start + i + 1) = T (l.getD i 0).toNat
  rest : ∀ b, ¬ InLog start size b → (∀ c ∈ l, c.toNat ≠ b) → d b = T b

def Recoverable (start size : ℕ) (T d : ℕ → Block) : Prop := ∃ l, Logged start size T d l

def Clean (start size : ℕ) (T d : ℕ → Block) : Prop :=
  headerCount (d start) = 0 ∧ ∀ b, ¬ InLog start size b → d b = T b

/-- The state in which a machine with log area `[start, start + size)` comes up. -/
def boot (start size : ℕ) (d : ℕ → Block) : LogState ι where
  disk := d
  bcache := fun _ => none
  log := { start := start, size := size, outstanding := 0, committing := false, lh := [] }
  trace := []

section Install

variable {start size : ℕ} {T d : ℕ → Block} {l : List UInt32}

theorem getD_home (h : Logged start size T d l) {i : ℕ} (hi : i < l.length) :
    ¬ InLog start size (l.getD i 0).toNat := by
  rw [getD_eq_getElem _ _ hi]
  exact h.home _ (getElem_mem hi)

theorem Clean.recoverable (hsize : 0 < size) (h : Clean start size T d) :
    Recoverable start size T d := by
  refine ⟨[], ?_⟩
  constructor
  · simp
  · simpa using hsize
  · simp
  · simp [h.1]
  · simp [headerBlocks]
  · simp
  · exact fun b hb _ => h.2 b hb

theorem Logged.install (h : Logged start size T d l) {i : ℕ} (hi : i < l.length) :
    Logged start size T (update d (l.getD i 0).toNat (T (l.getD i 0).toNat)) l := by
  have hout := getD_home h hi
  have hlt := h.length_lt
  have hne : ∀ c, InLog start size c → c ≠ (l.getD i 0).toNat := by
    rintro c hc rfl
    exact hout hc
  have hstart : start ≠ (l.getD i 0).toNat := hne start ⟨le_rfl, by omega⟩
  constructor
  · exact h.length_le
  · exact h.length_lt
  · exact h.home
  · rw [update_of_ne hstart, h.count]
  · rw [update_of_ne hstart, h.blocks]
  · intro j hj
    rw [update_of_ne (hne _ ⟨by omega, by omega⟩), h.copy j hj]
  · intro b hb hl
    have hb' : b ≠ (l.getD i 0).toNat := by
      rintro rfl
      rw [getD_eq_getElem _ _ hi] at hl
      exact hl _ (getElem_mem hi) rfl
    rw [update_of_ne hb', h.rest b hb hl]

theorem Logged.erase (h : Logged start size T d l)
    (hdone : ∀ i < l.length, d (l.getD i 0).toNat = T (l.getD i 0).toNat) (v : Block) :
    Clean start size T (update d start (setHeader v [])) := by
  have hlt := h.length_lt
  constructor
  · rw [update_self]
    apply UInt32.toNat_inj.mp
    rw [headerCount_setHeader v (by simp)]
    rfl
  · intro b hb
    have hne : b ≠ start := by
      rintro rfl
      exact hb ⟨le_rfl, by omega⟩
    rw [update_of_ne hne]
    by_cases hl : ∀ c ∈ l, c.toNat ≠ b
    · exact h.rest b hb hl
    · push Not at hl
      obtain ⟨c, hc, rfl⟩ := hl
      obtain ⟨i, hi, rfl⟩ := mem_iff_getElem.mp hc
      have hd := hdone i hi
      rwa [getD_eq_getElem _ _ hi] at hd

theorem Clean.commit {T' : ℕ → Block} (h : Clean start size T d) (hle : l.length ≤ LOGSIZE)
    (hlt : l.length < size) (hhome : ∀ b ∈ l, ¬ InLog start size b.toNat)
    (hcopy : ∀ i < l.length, d (start + i + 1) = T' (l.getD i 0).toNat)
    (hrest : ∀ b, ¬ InLog start size b → (∀ c ∈ l, c.toNat ≠ b) → T b = T' b) (v : Block) :
    Logged start size T' (update d start (setHeader v l)) l := by
  constructor
  · exact hle
  · exact hlt
  · exact hhome
  · rw [update_self, headerCount_setHeader v hle]
  · rw [update_self, headerBlocks_setHeader v hle]
  · intro i hi
    rw [update_of_ne (by omega), hcopy i hi]
  · intro b hb hl
    have hne : b ≠ start := by
      rintro rfl
      exact hb ⟨le_rfl, by omega⟩
    rw [update_of_ne hne, h.2 b hb, hrest b hb hl]

variable {C : LogState ι → Prop} {E : Stop → LogState ι → Prop} {s : LogState ι}

/-- The loop invariant of `install_trans` started in `s`: the first `j` blocks are in place. -/
structure Installing (s : LogState ι) (start size : ℕ) (T : ℕ → Block) (l : List UInt32) (j : ℕ)
    (t : LogState ι) : Prop where
  log : t.log = s.log
  busy : t.busy = s.busy
  trace : ∃ es, t.trace = s.trace ++ es
  logged : Logged start size T t.disk l
  mem : ∀ i < l.length, t.mem (start + i + 1) = T (l.getD i 0).toNat
  done : ∀ i < j, t.disk (l.getD i 0).toNat = T (l.getD i 0).toNat

theorem Installing.round {j : ℕ} {t t' : LogState ι} (h : Installing s start size T l j t)
    (hj : j < l.length) (hw : Wrote t t' (l.getD j 0).toNat (t.mem (start + j + 1))) :
    Installing s start size T l (j + 1) t' := by
  have hout := getD_home h.logged hj
  have hlt := h.logged.length_lt
  rw [h.mem j hj] at hw
  constructor
  · rw [hw.log, h.log]
  · rw [hw.busy, h.busy]
  · obtain ⟨es, he⟩ := h.trace
    exact ⟨es ++ [_], by rw [hw.trace, he, append_assoc]⟩
  · rw [hw.disk]
    exact h.logged.install hj
  · intro i hi
    have hne : start + i + 1 ≠ (l.getD j 0).toNat := by
      intro he
      exact hout (he ▸ ⟨by omega, by omega⟩)
    rw [hw.mem, update_of_ne hne, h.mem i hi]
  · intro i hi
    rw [hw.disk]
    by_cases he : (l.getD i 0).toNat = (l.getD j 0).toNat
    · rw [he, update_self]
    · have hij : i ≠ j := fun hij => he (by rw [hij])
      rw [update_of_ne he, h.done i (by omega)]

/-- The common end of `commit` and `recover_from_log`. At every point in it the disk recovers to
`T`, and after it the disk is clean. -/
theorem wpc_install_erase (hstart : s.log.start = start) (hlh : s.log.lh = l)
    (hd : Logged start size T s.disk l)
    (hmem : ∀ i < l.length, s.mem (start + i + 1) = T (l.getD i 0).toNat)
    (hE : (∀ b, s.busy b = false) ∨ ∀ s', E .sleep s')
    (hC : ∀ s', (∃ es, s'.trace = s.trace ++ es) → Recoverable start size T s'.disk → C s') :
    Prog.wpc C (fun _ s' => Clean start size T s'.disk) E
      (installTrans >>= fun _ => Prog.atom (setLh []) >>= fun _ => Prog.atom writeHead) s := by
  have hrec {j : ℕ} {t : LogState ι} (h : Installing s start size T l j t) : C t :=
    hC t h.trace ⟨l, h.logged⟩
  have h0 : Installing s start size T l 0 s :=
    ⟨rfl, rfl, ⟨[], by simp⟩, hd, hmem, by simp⟩
  have hn : s.log.lh.length = l.length := by rw [hlh]
  apply wpc_bind
  refine ⟨hrec h0, ?_⟩
  simp only [lhCount, wp_bind, wp_get, wp_pure, hn]
  apply wpc_upTo (J := Installing s start size T l)
  · intro j t _ hj h
    refine wpc_atom (hrec h) ?_
    have hout := getD_home h.logged (i := j) (by omega)
    apply wp_installBlock (start + j + 1) (l.getD j 0).toNat
    · rw [h.log, hstart]
    · rw [h.log, hlh]
    · intro hb
      rcases hE with hfree | hsleep
      · rw [h.busy, hfree, hfree] at hb
        have hlt := h.logged.length_lt
        have he : start + j + 1 = (l.getD j 0).toNat := by simpa using hb
        exact absurd ⟨by omega, by omega⟩ (he ▸ hout)
      · exact hsleep
    · intro t' hw
      have h' := h.round (by omega) hw
      exact ⟨hrec h', h'⟩
  · intro t h
    rw [Nat.zero_add] at h
    refine ⟨hrec h, wpc_bind (wpc_atom (hrec h) ?_)⟩
    simp only [setLh, wp_modify]
    have hC' : C (t.setLh []) := hC _ h.trace ⟨l, h.logged⟩
    refine ⟨hC', wpc_atom hC' ?_⟩
    apply wp_writeHead
    · intro hb
      rcases hE with hfree | hsleep
      · have hb' : t.busy t.log.start = true := hb
        rw [h.busy, hfree] at hb'
        cases hb'
      · exact hsleep
    · intro t' hw
      have hclean : Clean start size T t'.disk := by
        have hs : (t.setLh []).log.start = start := by rw [← hstart, ← h.log]; rfl
        rw [hw.disk, hs]
        exact h.logged.erase h.done _
      refine ⟨hC t' ?_ (hclean.recoverable (by have := hd.length_lt; omega)), hclean⟩
      obtain ⟨es, he⟩ := h.trace
      exact ⟨es ++ [_], by rw [hw.trace, ← append_assoc, ← he]; rfl⟩
  · exact h0

theorem wpc_recoverFromLog (hd : Recoverable start size T d) :
    Prog.wpc (fun s : LogState ι => Recoverable start size T s.disk)
      (fun _ s => Clean start size T s.disk) (fun _ _ => False) recoverFromLog
      (boot start size d) := by
  obtain ⟨l, hl⟩ := hd
  refine ⟨⟨l, hl⟩, ?_⟩
  have hmem₀ : (boot start size d : LogState ι).mem (boot start size d : LogState ι).log.start =
      d start := rfl
  apply wp_readHead (l := l) rfl hl.length_le
  · rw [hmem₀, hl.count]
  · rw [hmem₀, hl.blocks]
  intro s hdisk hmem hbusy hlog htrace
  have hfree : ∀ b, s.busy b = false := fun b => by rw [hbusy]; rfl
  have hlogged : Logged start size T s.disk l := hdisk ▸ hl
  apply wpc_install_erase (l := l)
  · rw [hlog]
    rfl
  · rw [hlog]
  · exact hlogged
  · intro i hi
    rw [hmem]
    exact hl.copy i hi
  · exact Or.inl hfree
  · exact fun s' _ h => h

end Install

/-! ## Crashes during a commit -/

/-- The memory in which `commit` starts: at most `log.size - 1` distinct home blocks are listed in a
header of `LOGSIZE` slots, and the log on disk is empty. -/
structure Transaction (s : LogState ι) : Prop where
  erased : headerCount (s.disk s.log.start) = 0
  nodup : s.log.lh.Nodup
  length_lt : s.log.lh.length < s.log.size
  length_le : s.log.lh.length ≤ LOGSIZE
  home : ∀ b ∈ s.log.lh, ¬ InLog s.log.start s.log.size b.toNat
  trace : s.trace = []

def LogState.updated (s : LogState ι) (b : ℕ) : Block :=
  if ∃ c ∈ s.log.lh, c.toNat = b then s.mem b else s.disk b

def HeaderWritten (start : ℕ) (s : LogState ι) : Prop := ∃ v, .bwrite start v ∈ s.trace

section Commit

variable {s : LogState ι}

variable {j : ℕ} {t : LogState ι}

theorem LogState.updated_getD (s : LogState ι) {i : ℕ} (hi : i < s.log.lh.length) :
    s.updated (s.log.lh.getD i 0).toNat = s.mem (s.log.lh.getD i 0).toNat := by
  rw [updated, if_pos]
  rw [getD_eq_getElem _ _ hi]
  exact ⟨_, getElem_mem hi, rfl⟩

/-- The loop invariant of `write_log`: `j` blocks have been copied to the log. -/
structure Copying (s : LogState ι) (j : ℕ) (t : LogState ι) : Prop where
  log : t.log = s.log
  trace : ¬ HeaderWritten s.log.start t
  disk : ∀ b, b ≤ s.log.start ∨ s.log.start + j < b → t.disk b = s.disk b
  mem : ∀ b, b ≤ s.log.start ∨ s.log.start + j < b → t.mem b = s.mem b
  copy : ∀ i < j, t.disk (s.log.start + i + 1) = s.mem (s.log.lh.getD i 0).toNat
  copyMem : ∀ i < j, t.mem (s.log.start + i + 1) = s.mem (s.log.lh.getD i 0).toNat

theorem Copying.clean (h : Transaction s) (hj : j < s.log.size)
    (hc : Copying s j t) : Clean s.log.start s.log.size s.disk t.disk := by
  constructor
  · rw [hc.disk _ (Or.inl le_rfl), h.erased]
  · intro b hb
    apply hc.disk
    by_contra hcon
    exact hb ⟨by omega, by omega⟩

theorem Copying.round (h : Transaction s) {t' : LogState ι} (hc : Copying s j t)
    (hj : j < s.log.lh.length)
    (hw : Wrote t t' (s.log.start + j + 1) (t.mem (s.log.lh.getD j 0).toNat)) :
    Copying s (j + 1) t' := by
  have hlt := h.length_lt
  have hsrc : t.mem (s.log.lh.getD j 0).toNat = s.mem (s.log.lh.getD j 0).toNat := by
    apply hc.mem
    have hout : ¬ InLog s.log.start s.log.size (s.log.lh.getD j 0).toNat := by
      rw [getD_eq_getElem _ _ hj]
      exact h.home _ (getElem_mem hj)
    by_contra hcon
    exact hout ⟨by omega, by omega⟩
  rw [hsrc] at hw
  constructor
  · rw [hw.log, hc.log]
  · rintro ⟨v, hv⟩
    rw [hw.trace, mem_append, mem_singleton] at hv
    rcases hv with hv | hv
    · exact hc.trace ⟨v, hv⟩
    · injection hv with hb
      omega
  · intro b hb
    rw [hw.disk, update_of_ne (by omega), hc.disk b (by omega)]
  · intro b hb
    rw [hw.mem, update_of_ne (by omega), hc.mem b (by omega)]
  · intro i hi
    rw [hw.disk]
    by_cases hij : i = j
    · rw [hij, update_self]
    · rw [update_of_ne (by omega), hc.copy i (by omega)]
  · intro i hi
    rw [hw.mem]
    by_cases hij : i = j
    · rw [hij, update_self]
    · rw [update_of_ne (by omega), hc.copyMem i (by omega)]

theorem Copying.commit (h : Transaction s) (hc : Copying s s.log.lh.length t) (v : Block) :
    Logged s.log.start s.log.size s.updated
      (update t.disk s.log.start (setHeader v s.log.lh)) s.log.lh := by
  have hlt := h.length_lt
  refine (hc.clean h hlt).commit h.length_le hlt h.home ?_ ?_ v
  · intro i hi
    rw [hc.copy i hi, s.updated_getD hi]
  · intro b _ hl
    have hnot : ¬ ∃ c ∈ s.log.lh, c.toNat = b := by
      rintro ⟨c, hm, he⟩
      exact hl c hm he
    rw [updated, if_neg hnot]

/-- What a crash can leave on disk, before and after the first header write. -/
def CommitCrash (s t : LogState ι) : Prop :=
  (¬ HeaderWritten s.log.start t ∧ Recoverable s.log.start s.log.size s.disk t.disk) ∨
    (HeaderWritten s.log.start t ∧ Recoverable s.log.start s.log.size s.updated t.disk)

theorem Copying.crash (h : Transaction s) (hj : j ≤ s.log.lh.length)
    (hc : Copying s j t) : CommitCrash s t := by
  have hlt := h.length_lt
  exact Or.inl ⟨hc.trace, (hc.clean h (by omega)).recoverable (by omega)⟩

theorem wpc_commit (h : Transaction s) :
    Prog.wpc (CommitCrash s) (fun _ _ => True) (fun _ _ => True) commit s := by
  have hlt := h.length_lt
  have h0 : Copying s 0 s := by
    refine ⟨rfl, ?_, fun b _ => rfl, fun b _ => rfl, by simp, by simp⟩
    rintro ⟨v, hv⟩
    simp [h.trace] at hv
  have hcrash0 : CommitCrash s s := h0.crash h (Nat.zero_le _)
  refine ⟨hcrash0, ?_⟩
  simp only [lhCount, wp_bind, wp_get, wp_pure, Prog.bind]
  split_ifs with hpos
  · apply Prog.wpc_bind
    refine ⟨hcrash0, ?_⟩
    simp only [lhCount, wp_bind, wp_get, wp_pure]
    apply Prog.wpc_upTo (J := Copying s)
    · intro j t _ hj hc
      refine Prog.wpc_atom (hc.crash h (by omega)) ?_
      apply wp_writeLogBlock (s.log.lh.getD j 0).toNat (s.log.start + j + 1)
      · rw [hc.log]
      · rw [hc.log]
      · exact fun _ _ => trivial
      · intro t' hw
        have hc' := hc.round h (by omega) hw
        exact ⟨hc'.crash h (by omega), hc'⟩
    · intro t hc
      rw [Nat.zero_add] at hc
      refine ⟨hc.crash h le_rfl, hc.crash h le_rfl, ?_⟩
      apply wp_writeHead (fun _ _ => trivial)
      intro t' hw
      rw [hc.log] at hw
      have hlogged : Logged s.log.start s.log.size s.updated t'.disk s.log.lh := by
        rw [hw.disk]
        exact hc.commit h _
      have hwritten : HeaderWritten s.log.start t' :=
        ⟨setHeader (t.mem s.log.start) s.log.lh, by rw [hw.trace]; simp⟩
      refine Prog.wpc_mono (wpc_install_erase (T := s.updated) (by rw [hw.log, hc.log])
        (by rw [hw.log, hc.log]) hlogged ?_ (Or.inr fun _ => trivial) ?_) (fun _ _ _ _ => trivial)
      · intro i hi
        rw [hw.mem, update_of_ne (by omega), hc.copyMem i hi, s.updated_getD hi]
      · rintro t'' ⟨es, hes⟩ hrec
        obtain ⟨v, hv⟩ := hwritten
        exact Or.inr ⟨⟨v, by rw [hes]; simp [hv]⟩, hrec⟩
    · exact h0
  · exact ⟨hcrash0, trivial⟩

/-- Crash atomicity. However far `commit` got, and however often recovery is cut short, the disk
ends with an empty log and with all of the transaction or none of it, and which of the two is
decided by the first header write. -/
theorem commit_crash_atomic (h : Transaction s) {p : LogProg ι Unit} {t : LogState ι}
    (hcut : Prog.Steps commit s p t) :
    (∃ d, Prog.Recovers (ε := Stop) (boot s.log.start s.log.size) LogState.disk
      (recoverFromLog (ι := ι)) t.disk d) ∧
    ∀ d, Prog.Recovers (boot s.log.start s.log.size) LogState.disk (recoverFromLog (ι := ι))
        t.disk d →
      headerCount (d s.log.start) = 0 ∧
      (¬ HeaderWritten s.log.start t → ∀ b, ¬ InLog s.log.start s.log.size b → d b = s.disk b) ∧
      (HeaderWritten s.log.start t → ∀ b, ¬ InLog s.log.start s.log.size b →
        d b = if ∃ c ∈ s.log.lh, c.toNat = b then s.mem b else s.disk b) := by
  have hrun (T : ℕ → Block) (d : ℕ → Block) (hd : Recoverable s.log.start s.log.size T d) :=
    wpc_recoverFromLog (ι := ι) hd
  rcases wpc_steps hcut (wpc_commit h) with ⟨hnot, hrec⟩ | ⟨hyes, hrec⟩
  · refine ⟨Prog.Recovers.exists_finish (hrun _) hrec, fun d hd => ?_⟩
    obtain ⟨hzero, hhome⟩ := Prog.Recovers.sound (hrun _) hd hrec
    exact ⟨hzero, fun _ => hhome, fun hy => absurd hy hnot⟩
  · refine ⟨Prog.Recovers.exists_finish (hrun _) hrec, fun d hd => ?_⟩
    obtain ⟨hzero, hhome⟩ := Prog.Recovers.sound (hrun _) hd hrec
    exact ⟨hzero, fun hn => absurd hyes hn, fun _ => hhome⟩

end Commit

/-- One block of an empty 30-block log, about to be committed. -/
def oneBlockTransaction : LogState Unit where
  disk := fun _ => Buffer.zero
  bcache := fun b =>
    if b = 100 then some { data := fun _ => 7, dirty := true, busy := false } else none
  log := { start := 2, size := 30, outstanding := 0, committing := true, lh := [100] }
  trace := []

theorem oneBlockTransaction_transaction : Transaction oneBlockTransaction := by
  constructor
  · exact Buffer.word_zero 0
  · simp [oneBlockTransaction]
  · simp [oneBlockTransaction]
  · simp [oneBlockTransaction, LOGSIZE, MAXOPBLOCKS]
  · simp [oneBlockTransaction, InLog]
  · rfl

/-- Cut right after the header write, the transaction survives. -/
theorem commit_crash_atomic_oneBlock : ∃ p t, Prog.Steps commit oneBlockTransaction p t ∧
    ∀ d, Prog.Recovers (boot 2 30) LogState.disk (recoverFromLog (ι := Unit)) t.disk d →
      headerCount (d 2) = 0 ∧ d 100 = fun _ => 7 := by
  refine ⟨_, _, .step rfl (.step rfl (.step rfl (.step rfl (.refl _ _)))), fun d hd => ?_⟩
  have hall := (commit_crash_atomic oneBlockTransaction_transaction
    (.step rfl (.step rfl (.step rfl (.step rfl (.refl _ _)))))).2 d hd
  refine ⟨hall.1, ?_⟩
  rw [hall.2.2 ⟨_, mem_append_right _ (mem_singleton_self _)⟩ 100
    (by simp [InLog, oneBlockTransaction])]
  rfl

end Xv6
