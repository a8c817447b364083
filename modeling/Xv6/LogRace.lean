import Xv6.LogGroup

/-!
# The capacity test of log_write is made without the lock

Two operations may pass the test of `log_write` together and then both add a block to the header.
The group has then one block more than the log, and `write_log` copies that block over the first
block behind the log.
-/

namespace Xv6

open Resumption ByteLayout Function List LogState Prog

variable {ι : Type} {n : ℕ} {s : LogState ι} {held l : List UInt32} {b : UInt32}

/-- `n` operations are open and have filled the blocks `l`, and the holders of the buffers `held` have filled
these and passed the test. -/
structure Racing (n : ℕ) (held l : List UInt32) (s : LogState ι) : Prop where
  disk : s.disk = fun _ => Buffer.zero
  log : s.log = ⟨2, LOGSIZE, n, false, l⟩
  mem : ∀ b ∈ l ++ held, s.mem b.toNat = ones
  busy : ∀ b, s.busy b = true ↔ ∃ c ∈ held, c.toNat = b

def passTest (i : ι) (b : UInt32) : LogProg ι Unit := do
  let _ ← Prog.atom (bread b.toNat)
  Prog.atom (modifyBlock i b fun _ => ones)
  Prog.atom logWriteTest

def takeSlot (i : ι) (b : UInt32) : LogProg ι Unit := do
  Prog.atom (logWriteLocked i b)
  Prog.atom (brelse b.toNat)

variable {i : ι}

theorem loggedWrites_fill_singleton (i : ι) (b : UInt32) (k : LogProg ι Unit) :
    (loggedWrites i (fill [b]) >>= fun _ => k) =
      (passTest i b >>= fun _ => takeSlot i b >>= fun _ => k) := rfl

theorem wp_passTest (h : Racing (n + 1) held l s) (hb : ∀ c ∈ held, c.toNat ≠ b.toNat)
    (hroom : l.length < LOGSIZE - 1) :
    wp (passTest i b).run (fun _ s' => Racing (n + 1) (b :: held) l s') (fun _ _ => False) s := by
  have hfree : s.busy b.toNat = false := by
    by_contra hc
    obtain ⟨c, hc, hcb⟩ := (h.busy b.toNat).mp (by simpa using hc)
    exact hb c hc hcb
  simp only [passTest, run_bind, atom, run_act, run_ret, bind_pure, wp_bind,
    wp_bread]
  refine ⟨fun hc => absurd hc (by simp [hfree]), fun _ => ?_⟩
  rw [wp_modifyBlock (u := ⟨s.mem b.toNat, s.pinned b.toNat, true⟩) (by simp [hold]),
    wp_logWriteTest (by simp [h.log]; omega) (by simp [h.log])]
  constructor
  · simpa using h.disk
  · simpa using h.log
  · intro c hc
    simp only [emit_mem, setBuf_mem, hold_mem]
    by_cases hcb : c.toNat = b.toNat
    · rw [hcb, update_self]
    · rw [update_of_ne hcb]
      apply h.mem
      have hne : c ≠ b := fun he => hcb (by rw [he])
      simpa [hne] using hc
  · intro c
    simp only [emit_busy, setBuf_busy, hold_busy,
      update_idem]
    by_cases hcb : c = b.toNat
    · rw [hcb, update_self]
      exact iff_of_true rfl ⟨b, by simp, rfl⟩
    · rw [update_of_ne hcb, h.busy c]
      simp [Ne.symm hcb]

theorem wp_takeSlot (h : Racing (n + 1) (b :: held) l s) (hb : ∀ c ∈ held, c.toNat ≠ b.toNat)
    (hl : b ∉ l) (hroom : l.length < LOGSIZE) :
    wp (takeSlot i b).run (fun _ s' => Racing (n + 1) held (l ++ [b]) s') (fun _ _ => False) s := by
  have habsorb : absorb s.log.lh b = l ++ [b] := by
    rw [h.log]
    exact if_neg hl
  have hbusy : s.busy b.toNat = true := (h.busy b.toNat).mpr ⟨b, by simp, rfl⟩
  obtain ⟨u, hu⟩ : ∃ u, s.bcache b.toNat = some u := by
    cases hc : s.bcache b.toNat with
    | none => simp [busy, hc] at hbusy
    | some u => exact ⟨u, rfl⟩
  have hub : u.busy = true := by simpa [busy, hu] using hbusy
  have hud : u.data = s.mem b.toNat := by simp [mem, hu]
  simp only [takeSlot, run_bind, atom, run_act, run_ret, bind_pure, wp_bind]
  rw [wp_logWriteLocked hu (by rw [habsorb, length_append, length_singleton]; omega),
    wp_brelse (u := { u with dirty := true }) (by simp) hub]
  constructor
  · simpa using h.disk
  · simp only [setBuf_log, emit_log, setLh_log, habsorb]
    rw [h.log]
  · intro c hc
    simp only [setBuf_mem, emit_mem, setLh_mem, hud,
      update_eq_self]
    apply h.mem
    simp only [mem_append, mem_cons, not_mem_nil, or_false] at hc ⊢
    tauto
  · intro c
    simp only [setBuf_busy, emit_busy, setLh_busy, update_idem]
    by_cases hcb : c = b.toNat
    · rw [hcb, update_self]
      refine iff_of_false (by simp) ?_
      rintro ⟨a, ha, hab⟩
      exact hb a ha hab
    · rw [update_of_ne hcb, h.busy c]
      simp [Ne.symm hcb]

theorem Filling.racing (h : Filling n l s) : Racing n [] l s := by
  constructor
  · exact h.disk
  · exact h.log
  · simpa using h.mem
  · intro c
    simp [h.busy c]

theorem wp_leaveOp_more (h : Racing (n + 2) [] l s) :
    wp (Prog.atom (leaveOp i)).run (fun last s' => last = false ∧ Racing (n + 1) [] l s')
      (fun _ _ => False) s := by
  have hmore : ¬ n + 2 - 1 = 0 := by omega
  simp only [atom, run_act, run_ret, bind_pure, leaveOp, wp_bind, wp_get, h.log,
    Bool.false_eq_true, if_false, if_neg hmore, wp_set, wp_pure, true_and]
  constructor
  · exact h.disk
  · rfl
  · exact h.mem
  · exact h.busy

structure Committing (l : List UInt32) (s : LogState ι) : Prop where
  disk : s.disk = fun _ => Buffer.zero
  log : s.log = ⟨2, LOGSIZE, 0, true, l⟩
  mem : ∀ b ∈ l, s.mem b.toNat = ones
  busy : ∀ b, s.busy b = false

theorem wp_leaveOp_last (h : Racing 1 [] l s) :
    wp (Prog.atom (leaveOp i)).run (fun last s' => last = true ∧ Committing l s')
      (fun _ _ => False) s := by
  simp only [atom, run_act, run_ret, bind_pure, leaveOp, wp_bind, wp_get, h.log,
    Bool.false_eq_true, if_false, Nat.sub_self, if_true, wp_set, wp_pure, true_and]
  constructor
  · exact h.disk
  · rfl
  · intro b hb
    exact h.mem b (by simpa using hb)
  · intro b
    have hfree : s.busy b = false := by
      by_contra hb
      obtain ⟨c, hc, _⟩ := (h.busy b).mp (by simpa using hb)
      cases hc
    exact hfree

theorem wp_writeLog_overrun (h : Committing l s) (hlen : l.length = LOGSIZE)
    (hdata : ∀ b ∈ l, 100 ≤ b.toNat) :
    wp writeLog.run (fun _ s' => s'.disk 2 = Buffer.zero ∧ s'.disk 32 = ones)
      (fun _ _ => False) s := by
  have hcount : s.log.lh.length = LOGSIZE := by
    rw [h.log]
    exact hlen
  let J : ℕ → LogState ι → Prop := fun j t => t.log = s.log ∧ (∀ b, t.busy b = false) ∧
    (∀ b ∈ l, t.mem b.toNat = ones) ∧ t.disk 2 = Buffer.zero ∧ (j = LOGSIZE → t.disk 32 = ones)
  apply wpc_run (C := fun _ => True)
  refine ⟨trivial, ?_⟩
  simp only [lhCount, wp_bind, wp_get, wp_pure, hcount]
  apply wpc_upTo (J := J)
  · intro j t _ hj ht
    obtain ⟨hlog, hbusy, hmem, hdisk, _⟩ := ht
    have hget : (l.getD j 0) ∈ l := by
      rw [getD_eq_getElem _ _ (by omega)]
      exact getElem_mem _
    have hge := hdata _ hget
    simp only [LOGSIZE, MAXOPBLOCKS] at hj
    apply wpc_atom trivial
    apply wp_writeLogBlock (l.getD j 0).toNat (2 + j + 1)
    · rw [hlog, h.log]
    · rw [hlog, h.log]
    · intro hb _
      simp only [hbusy, Bool.false_eq_true, false_or] at hb
      omega
    · intro t' hw
      refine ⟨trivial, by rw [hw.log, hlog], fun b => by rw [hw.busy, hbusy], ?_, ?_, ?_⟩
      · intro b hb
        have := hdata b hb
        rw [hw.mem, update_of_ne (by omega), hmem b hb]
      · rw [hw.disk, update_of_ne (by omega), hdisk]
      · intro hlast
        simp only [LOGSIZE, MAXOPBLOCKS] at hlast
        have hj29 : j = 29 := by omega
        rw [hw.disk, hmem _ hget, hj29, update_self]
  · intro t ht
    exact ⟨trivial, ht.2.2.2.1, ht.2.2.2.2 (Nat.zero_add _)⟩
  · exact ⟨rfl, h.busy, h.mem, by rw [h.disk], by intro h0; cases h0⟩

def overFull : List UInt32 := almostFull ++ [lastBlock 2] ++ [lastBlock 1]

theorem toNat_of_mem_fillBlocks {i : Fin 3} (h : b ∈ fillBlocks i) : 100 ≤ b.toNat := by
  obtain ⟨j, hj, rfl⟩ := mem_map.mp h
  have hj' : j < MAXOPBLOCKS := mem_range.mp hj
  have hi := i.isLt
  simp only [MAXOPBLOCKS] at hj' ⊢
  rw [UInt32.toNat_ofNat_of_lt' (by simp only [UInt32.size]; omega)]
  omega

theorem toNat_of_mem_overFull (h : b ∈ overFull) : 100 ≤ b.toNat := by
  have hlast : ∀ i : Fin 3, lastBlock i ∈ fillBlocks i := by
    intro i
    rw [fillBlocks_eq i]
    simp
  simp only [overFull, almostFull, mem_append, mem_singleton] at h
  obtain (((h | h) | h) | h) | h := h
  · exact toNat_of_mem_fillBlocks h
  · exact toNat_of_mem_fillBlocks (mem_of_mem_take h)
  · exact toNat_of_mem_fillBlocks (mem_of_mem_take h)
  · exact toNat_of_mem_fillBlocks (h ▸ hlast 2)
  · exact toNat_of_mem_fillBlocks (h ▸ hlast 1)

theorem race_reaches : ∃ c, LogReaches filling c ∧ Racing 3 [] overFull c.state ∧
    c.thread (.inl 0) = endOp 0 ∧ c.thread (.inl 1) = endOp 1 ∧ c.thread (.inl 2) = endOp 2 := by
  have hne : ∀ c ∈ [lastBlock 1], c.toNat ≠ (lastBlock 2).toNat := by
    intro c hc
    rw [mem_singleton.mp hc]
    decide
  obtain ⟨c, r, hs, t₀, t₁, t₂⟩ := filling_reaches
  rw [loggedWrites_fill_singleton] at t₁ t₂
  obtain ⟨_, c₁, r₁, s₁, t₁, o₁⟩ := logReaches_of_run t₁
    (wp_passTest hs.racing (by simp) (by decide))
  rw [← o₁ _ (by decide)] at t₀ t₂
  obtain ⟨_, c₂, r₂, s₂, t₂, o₂⟩ := logReaches_of_run t₂ (wp_passTest s₁ hne (by decide))
  rw [← o₂ _ (by decide)] at t₀ t₁
  obtain ⟨_, c₃, r₃, s₃, t₃, o₃⟩ := logReaches_of_run t₂
    (wp_takeSlot s₂ hne (by decide) (by decide))
  rw [← o₃ _ (by decide)] at t₀ t₁
  obtain ⟨_, c₄, r₄, s₄, t₄, o₄⟩ := logReaches_of_run t₁
    (wp_takeSlot s₃ (by simp) (by decide) (by decide))
  rw [← o₄ _ (by decide)] at t₀ t₃
  exact ⟨c₄, (((r.trans r₁).trans r₂).trans r₃).trans r₄, s₄, t₀, t₄, t₃⟩

theorem overrun_reaches : ∃ c, LogReaches filling c ∧ c.state.disk 2 = Buffer.zero ∧
    c.state.disk 32 = ones := by
  obtain ⟨c, r, hs, t₀, t₁, t₂⟩ := race_reaches
  obtain ⟨_, c₁, r₁, ⟨_, s₁⟩, _, o₁⟩ := logReaches_of_run t₀ (wp_leaveOp_more hs)
  rw [← o₁ _ (by decide)] at t₁ t₂
  obtain ⟨_, c₂, r₂, ⟨_, s₂⟩, _, o₂⟩ := logReaches_of_run t₁ (wp_leaveOp_more s₁)
  rw [← o₂ _ (by decide)] at t₂
  obtain ⟨_, c₃, r₃, ⟨rfl, s₃⟩, t₃, _⟩ := logReaches_of_run t₂ (wp_leaveOp_last s₂)
  have hcount : c₃.state.log.lh.length = LOGSIZE := by
    rw [s₃.log]
    rfl
  obtain ⟨_, c₄, r₄, ⟨rfl, s₄⟩, t₄, _⟩ := logReaches_of_run (p := atom lhCount)
    (Q := fun n s' => n = LOGSIZE ∧ s' = c₃.state) t₃ ⟨hcount, rfl⟩
  rw [← s₄] at s₃
  change c₄.thread (.inl 2) = (writeLog >>= fun _ => atom writeHead >>= fun _ =>
    installTrans >>= fun _ => atom (setLh []) >>= fun _ => atom writeHead) >>= fun _ =>
    atom endCommit at t₄
  rw [bind_assoc] at t₄
  obtain ⟨_, c₅, r₅, s₅, _, _⟩ := logReaches_of_run t₄ (wp_writeLog_overrun s₃ rfl
    fun b hb => toNat_of_mem_overFull hb)
  exact ⟨c₅, ((((r.trans r₁).trans r₂).trans r₃).trans r₄).trans r₅, s₅⟩

end Xv6
