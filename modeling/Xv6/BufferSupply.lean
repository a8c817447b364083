import Xv6.BufferTransparency
import Xv6.InodeModel

/-!
# Are there enough buffers?

`bget` gives up if every buffer is busy or waits for the log. The log is bounded by the reservations
of `begin_op`, but nothing bounds the processes that read outside an operation: `NBUF` of them that
hold one buffer each leave nothing for the next.
-/

namespace Xv6.Bio

open Resumption ByteLayout Function

variable {ι : Type} {d : Key → Block} {ls : ι → Loc} {s : State ι}

/-- The number of buffers that are busy or wait for the log, at most. -/
def State.crowd (s : State ι) : ℕ :=
  (Finset.univ.filter fun n => (s.buf n).busy = true).card + s.log.lh.length

theorem Inv.crowded (h : Inv d ls s)
    (hall : ∀ n, ¬ ((s.buf n).busy = false ∧ (s.buf n).dirty = false)) : NBUF ≤ s.crowd := by
  -- a dirty buffer that is not busy is listed in the header, each under its own number
  have hflush : ∀ n, (s.buf n).busy = false → ∀ j, (ls j).pc ≠ .flushing n := by
    intro n hb j hj
    have hp := h.pc j
    rw [hj] at hp
    rw [(h.busy n).mpr ⟨j, hp⟩] at hb
    cases hb
  let A := Finset.univ.filter fun n => (s.buf n).busy = true
  let B := Finset.univ.filter fun n => (s.buf n).busy = false
  have hB : B.card ≤ s.log.lh.length := by
    have hmaps : ∀ n ∈ B, (s.buf n).dev = logDev ∧ (s.buf n).blockno ∈ s.log.lh.toFinset := by
      intro n hn
      have hb : (s.buf n).busy = false := (Finset.mem_filter.mp hn).2
      have hd : (s.buf n).dirty = true := by
        by_contra hd
        exact hall n ⟨hb, by simpa using hd⟩
      rcases h.listed n hd with ⟨j, hj⟩ | ⟨h₁, h₂⟩
      · exact (hflush n hb j hj).elim
      · exact ⟨h₁, List.mem_toFinset.mpr h₂.1⟩
    refine (Finset.card_le_card_of_injOn (fun n => (s.buf n).blockno) (fun n hn => (hmaps n hn).2)
      ?_).trans (List.toFinset_card_le _)
    intro n hn n' hn' heq
    refine h.unique n n' ?_ (Prod.ext ((hmaps n hn).1.trans (hmaps n' hn').1.symm) heq)
    rw [(hmaps n hn).1]
    decide
  have huniv : A.card + B.card = NBUF := by
    have hfilter := Finset.card_filter_add_card_filter_not (s := Finset.univ)
      fun n => (s.buf n).busy = true
    simp only [Bool.not_eq_true, Finset.card_univ, Fintype.card_fin] at hfilter
    exact hfilter
  change NBUF ≤ A.card + s.log.lh.length
  omega

/-- The number of buffers that process `i` holds. -/
def State.holds (s : State ι) (i : ι) : ℕ := (Finset.univ.filter fun n => s.held i n ≠ none).card

/-- The file system's use of the cache: two buffers at a time and `MAXOPBLOCKS` logged blocks inside
an operation, and outside one block at a time, only to read. -/
def Modest : Usage ι := fun s i op =>
  Disciplined s i op ∧
  match op with
  | .bread _ _ => s.holds i < if s.inOp i then 2 else 1
  | .change _ _ => s.inOp i = true
  | .logWrite n => (absorb (s.logged i) (s.buf n).blockno).length ≤ MAXOPBLOCKS
  | .bwrite _ => False
  | .brelse _ => True
  | .beginOp => s.holds i = 0
  | .endOp => s.holds i = 0

variable [DecidableEq ι]

theorem Runs.mono {U U' : Usage ι} (hU : ∀ s i op, U s i op → U' s i op) {c c' : Config ι Stop (State ι)}
    (h : Runs U c c') : Runs U' c c' := by
  have hstep : ∀ a b : Config ι Stop (State ι), Step (fun _ s => s) (menu U) a b →
      Step (fun _ s => s) (menu U') a b := by
    intro a b h
    cases h with
    | act ht hm => exact .act ht hm
    | call ht hp =>
      obtain ⟨op, hop, hp⟩ := hp
      exact .call ht ⟨op, hU _ _ _ hop, hp⟩
  exact Relation.ReflTransGen.mono hstep c c' h

/-- While fewer than `NBUF` buffers are busy or wait for the log, `bread` finds one. -/
theorem buffer_found {start size : ℕ} {c : Config ι Stop (State ι)}
    (h : Runs Modest (system start size d) c) (hcrowd : c.state.crowd < NBUF) :
    (∀ dev blockno, c.state.lookup dev blockno ≠ none ∨ c.state.victim ≠ none) ∧
      ∀ i, ¬ c.Stops (fun _ s => s) i (.panic "bget: no buffers") := by
  have hdisc : Runs Disciplined (system start size d) c := Runs.mono (fun _ _ _ hop => hop.1) h
  obtain ⟨ls, hI⟩ := hdisc.inv
  have hvictim : c.state.victim ≠ none := by
    intro hv
    refine absurd (hI.crowded fun n hn => ?_) (by omega)
    have := List.find?_eq_none.mp hv n (List.mem_reverse.mpr (hI.mru n))
    simp only [decide_eq_true_eq] at this
    exact this hn
  exact ⟨fun _ _ => .inr hvictim, fun i hstop => hvictim (Each.stops (h.pinning i) hstop rfl)⟩

/-! ## Thirty readers -/

/-- The first `k` processes hold a block each. -/
def readers (k : ℕ) : State (Fin Fs.NPROC) :=
  { boot 2 LOGSIZE fun _ => .zero with
    buf := fun n => if n.val < k then ⟨1, UInt32.ofNat n, true, true, false, .zero⟩
      else ⟨NODEV, 0, false, false, false, .zero⟩
    held := fun i n => if i.val = n.val ∧ n.val < k then some .fetched else none
    trace := (List.range k).map fun a => .returned (1, UInt32.ofNat a) .zero }

theorem toNat_small {k : ℕ} (hk : k ≤ NBUF) : (UInt32.ofNat k).toNat = k := by
  have hsize : NBUF < UInt32.size := by decide
  exact UInt32.toNat_ofNat_of_lt' (hk.trans_lt hsize)

theorem readers_zero : readers 0 = boot 2 LOGSIZE fun _ => .zero := by
  simp only [readers, Nat.not_lt_zero, and_false, if_false, List.range_zero, List.map_nil]
  rfl

theorem readers_lookup (k : ℕ) (hk : k ≤ NBUF) : (readers k).lookup 1 (UInt32.ofNat k) = none := by
  refine List.find?_eq_none.mpr fun n _ => ?_
  rw [decide_eq_true_eq]
  rintro ⟨hdev, hblock⟩
  by_cases hn : n.val < k
  · simp only [readers, if_pos hn] at hblock
    have hval := congrArg UInt32.toNat hblock
    rw [toNat_small n.isLt.le, toNat_small hk] at hval
    omega
  · simp only [readers, if_neg hn] at hdev
    exact absurd hdev (by decide)

theorem readers_victim : ∀ k : Fin NBUF, (readers k).victim = some k := by decide +kernel

theorem readers_full : (readers NBUF).victim = none := by decide +kernel

theorem readers_holds (k : Fin NBUF) (i : Fin Fs.NPROC) (hi : k.val ≤ i.val) : (readers k).holds i = 0 := by
  refine Finset.card_eq_zero.mpr (Finset.filter_eq_empty_iff.mpr fun n _ => ?_)
  simp only [readers, ne_eq, not_not]
  exact if_neg fun hc => by omega

theorem readers_succ (k : Fin NBUF) (i : Fin Fs.NPROC) (hi : i.val = k.val) :
    ((((readers k).setBuf k ⟨1, UInt32.ofNat k, true, true, false, .zero⟩).hold i k (some .fetched)).emit
      (.returned (1, UInt32.ofNat k) .zero)) = readers (k + 1) := by
  have hbuf : update (readers k).buf k ⟨1, UInt32.ofNat k, true, true, false, .zero⟩ =
      (readers (k + 1)).buf := by
    funext n
    by_cases hn : n = k
    · rw [hn, update_self]
      exact (if_pos (Nat.lt_succ_self k.val)).symm
    · rw [update_of_ne hn]
      have hne : n.val ≠ k.val := fun hc => hn (Fin.ext hc)
      simp only [readers]
      exact if_congr (by omega) rfl rfl
  have hheld : update (readers k).held i (update ((readers k).held i) k (some .fetched)) =
      (readers (k + 1)).held := by
    funext j n
    by_cases hj : j = i
    · subst hj
      rw [update_self]
      by_cases hn : n = k
      · rw [hn, update_self]
        exact (if_pos ⟨hi, Nat.lt_succ_self k.val⟩).symm
      · rw [update_of_ne hn]
        have hne : n.val ≠ k.val := fun hc => hn (Fin.ext hc)
        simp only [readers]
        exact if_congr (by omega) rfl rfl
    · rw [update_of_ne hj]
      have hne : j.val ≠ i.val := fun hc => hj (Fin.ext hc)
      simp only [readers]
      exact if_congr (by omega) rfl rfl
  have htrace : (readers k).trace ++ [.returned (1, UInt32.ofNat k) .zero] = (readers (k + 1)).trace := by
    simp only [readers, List.range_succ, List.map_append, List.map_cons, List.map_nil]
  simp only [State.setBuf, State.hold, State.emit, hbuf, hheld, htrace]
  rfl

theorem readers_run (k : ℕ) (hk : k ≤ NBUF) :
    Runs Modest (system 2 LOGSIZE fun _ => .zero) ⟨readers k, fun _ => .ret ()⟩ := by
  induction k with
  | zero =>
    rw [readers_zero]
    exact .refl
  | succ k ih =>
    let n : Fin NBUF := ⟨k, hk⟩
    have hlt : k < Fs.NPROC := by
      have : NBUF < Fs.NPROC := by decide
      omega
    let i : Fin Fs.NPROC := ⟨k, hlt⟩
    have hsize : (UInt32.ofNat k).toNat < FSSIZE := by
      rw [toNat_small (by omega)]
      have : NBUF < FSSIZE := by decide
      omega
    have hread : ((Op.bread 1 (UInt32.ofNat k)).prog i).run (readers k) = .ok () (readers (k + 1)) := by
      rw [← readers_succ n i rfl]
      exact run_bread_disk (readers_lookup k (by omega)) (readers_victim n) (by decide) rfl hsize
    have hop : Modest (readers k) i (.bread 1 (UInt32.ofNat k)) := by
      refine ⟨⟨trivial, by change (1 : UInt32) < 2; decide⟩, ?_⟩
      change (readers n).holds i < _
      rw [readers_holds n i le_rfl]
      exact Nat.one_pos
    exact (ih (by omega)).trans
      (Runs.call (c := ⟨readers k, fun _ => .ret ()⟩) rfl hop hread)

theorem buffer_found_readers : (readers 1).crowd < NBUF ∧
    (∀ dev blockno, (readers 1).lookup dev blockno ≠ none ∨ (readers 1).victim ≠ none) ∧
      ∀ i : Fin Fs.NPROC, ¬ Config.Stops (fun _ s => s) ⟨readers 1, fun _ => .ret ()⟩ i (Stop.panic "bget: no buffers") := by
  have hcrowd : (readers 1).crowd < NBUF := by decide +kernel
  exact ⟨hcrowd, buffer_found (readers_run 1 (by decide)) hcrowd⟩

/-- With a block in the hands of each of `NBUF` processes, the next `bread` panics. -/
theorem readers_exhaust_buffers : ∃ (c : Config (Fin Fs.NPROC) Stop (State (Fin Fs.NPROC))) (i : Fin Fs.NPROC),
    Runs Modest (system 2 LOGSIZE fun _ => .zero) c ∧
      c.Stops (fun _ s => s) i (.panic "bget: no buffers") := by
  let i : Fin Fs.NPROC := ⟨NBUF, by decide⟩
  let p : P (Fin Fs.NPROC) Unit := (Op.bread 1 (UInt32.ofNat NBUF)).prog i
  have hop : Modest (readers NBUF) i (.bread 1 (UInt32.ofNat NBUF)) := by
    refine ⟨⟨trivial, by change (1 : UInt32) < 2; decide⟩, ?_⟩
    change (readers NBUF).holds i < 1
    decide +kernel
  have hcall : Step (fun _ s => s) (menu Modest) ⟨readers NBUF, fun _ => .ret ()⟩
      ⟨readers NBUF, update (fun _ => .ret ()) i p⟩ := .call rfl ⟨_, hop, rfl⟩
  refine ⟨_, i, (readers_run NBUF le_rfl).tail hcall, ?_⟩
  have hnext : p = .act (bget i 1 (UInt32.ofNat NBUF)) fun n => (Prog.atom (fill n) >>= fun _ =>
      Prog.ret n) >>= fun _ => Prog.ret () := rfl
  have hstop : bget i 1 (UInt32.ofNat NBUF) (readers NBUF) =
      .error (.panic "bget: no buffers") (readers NBUF) := by
    unfold bget
    simp only [bind, EStateM.bind, get, getThe, MonadStateOf.get, EStateM.get, readers_lookup NBUF le_rfl,
      readers_full]
    rfl
  have hthread : update (fun _ => Prog.ret ()) i p i = p := by rw [update_self]
  exact ⟨_, _, _, _, hthread.trans hnext, hstop⟩

end Xv6.Bio
