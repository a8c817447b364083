import Xv6.PipeRing

/-!
# What holds at the points of the pipe code

The proof outline of pipe.c. A reader may sleep while the pipe is empty and can still be written, a
writer while it is full and can still be read; who ends this has a `wakeup` to call before it gives up
the lock, unless it returns early.
-/

namespace Xv6.Pipe

open Monitor Function World

variable {ι : Type} [DecidableEq ι] {d d' : World ι} {i j : ι} {l l' : Loc}

def held : Loc → Bool
  | .writeLoop _ _ _ _ | .writeFull _ _ _ _ | .writeSleep _ _ _ | .writeWakeup _ | .writeRelease _ => true
  | .readTest _ | .readSleep _ | .readLoop _ _ | .readWakeup _ _ | .readRelease _ _ => true
  | .closeSet _ | .closeWakeup _ | .closeTest | .closeRelease _ => true
  | _ => false

/-- An end that somebody has is open, and the pipe is freed only when both ends are closed. -/
structure Inv (d : World ι) : Prop where
  ring : Ring d.pipe d.accepted d.delivered
  users : ∀ w, (d.users w).Nonempty → d.pipe.isOpen w = true ∧ d.closer w = none
  closer : ∀ w i, d.closer w = some i → d.pipe.isOpen w = true
  freer : ∀ i, d.freer = some i → ∀ w, d.pipe.isOpen w = false
  freed : d.freed = true → ∃ i, d.freer = some i

def ReadResult (n r : ℤ) (d : World ι) : Prop :=
  0 < n → r = 0 → d.pipe.writeopen = false ∧ d.delivered = d.accepted

def Asserts (i : ι) (l : Loc) (d : World ι) : Prop :=
  match l with
  | .out | .writeReturn _ => True
  | .writeAcquire _ _ | .writeLoop _ _ _ _ | .writeWakeup _ | .writeRelease _ => i ∈ d.users true
  | .writeFull _ _ _ _ | .writeSleep _ _ _ =>
      i ∈ d.users true ∧ d.pipe.Full ∧ d.pipe.readopen = true
  | .readAcquire _ | .readTest _ => i ∈ d.users false
  | .readSleep _ => i ∈ d.users false ∧ d.pipe.Empty ∧ d.pipe.writeopen = true
  | .readLoop _ got => i ∈ d.users false ∧ (got = [] → d.pipe.Empty → d.pipe.writeopen = false)
  | .readWakeup n got => i ∈ d.users false ∧ ReadResult n got.length d
  | .readRelease n r => i ∈ d.users false ∧ ReadResult n r d
  | .readReturn n r => ReadResult n r d
  | .drop w => i ∈ d.users w
  | .closeAcquire w | .closeSet w => d.closer w = some i
  | .closeWakeup _ | .closeTest => d.freer = none
  | .closeRelease last => if last then d.freer = some i ∧ d.freed = false else d.freer = none
  | .closeFree => d.freer = some i ∧ d.freed = false

def Waits (i : ι) (l : Loc) (d : World ι) : Prop :=
  match l with
  | .writeLoop _ _ _ false => i ∈ d.users true
  | .readTest _ => i ∈ d.users false
  | _ => False

def Reason (c : Chan) (d : World ι) : Prop :=
  d.silent = true ∨ match c with
    | .nread => d.pipe.Empty ∧ d.pipe.writeopen = true
    | .nwrite => d.pipe.Full ∧ d.pipe.readopen = true

def Owes (l : Loc) (c : Chan) : Prop :=
  match l with
  | .writeLoop _ _ _ true | .writeFull _ _ _ true | .writeWakeup _ => c = .nread
  | .readLoop _ _ | .readWakeup _ _ => c = .nwrite
  | .closeWakeup w => c = if w then .nread else .nwrite
  | _ => False

/-! ## Interference -/

structure Rely (i : ι) (d d' : World ι) : Prop where
  users : ∀ w, i ∈ d.users w → i ∈ d'.users w
  closer : ∀ w, d.closer w = some i → d'.closer w = some i
  freer : d.freer = some i → d.freed = false → d'.freer = some i ∧ d'.freed = false
  result : ∀ n r, ReadResult n r d → ReadResult n r d'

structure Outside (d d' : World ι) : Prop where
  pipe : d'.pipe = d.pipe
  freer : d'.freer = d.freer
  accepted : d'.accepted = d.accepted
  delivered : d'.delivered = d.delivered

theorem Asserts.rely (h : Asserts i l d) (hr : Rely i d d') (hl : held l = false) : Asserts i l d' := by
  cases l with
  | out | writeReturn r => trivial
  | writeAcquire addr n => exact hr.users true h
  | readAcquire n => exact hr.users false h
  | readReturn n r => exact hr.result n r h
  | drop w => exact hr.users w h
  | closeAcquire w => exact hr.closer w h
  | closeFree => exact hr.freer h.1 h.2
  | _ => cases hl

theorem Asserts.outside (h : Asserts i l d) (hr : Rely i d d') (ho : Outside d d') : Asserts i l d' := by
  cases hl : held l with
  | false => exact h.rely hr hl
  | true =>
    have hp := ho.pipe
    cases l with
    | writeLoop addr n k fresh | writeWakeup n | writeRelease r => exact hr.users true h
    | writeFull addr n k fresh | writeSleep addr n k =>
      refine ⟨hr.users true h.1, ?_⟩
      rw [hp]
      exact h.2
    | readTest n => exact hr.users false h
    | readSleep n | readLoop n got =>
      refine ⟨hr.users false h.1, ?_⟩
      rw [hp]
      exact h.2
    | readWakeup n got => exact ⟨hr.users false h.1, hr.result _ _ h.2⟩
    | readRelease n r => exact ⟨hr.users false h.1, hr.result _ _ h.2⟩
    | closeSet w => exact hr.closer w h
    | closeWakeup w | closeTest => exact ho.freer.trans h
    | closeRelease last =>
      cases last with
      | true => exact hr.freer h.1 h.2
      | false => exact ho.freer.trans h
    | _ => cases hl

theorem Waits.rely (h : Waits i l d) (hr : Rely i d d') : Waits i l d' := by
  cases l with
  | writeLoop addr n k fresh =>
    cases fresh with
    | false => exact hr.users true h
    | true => exact h
  | readTest n => exact hr.users false h
  | _ => exact h.elim

/-! ## The steps -/

theorem Inv.of_ring (h : Inv d) (hring : Ring d'.pipe d'.accepted d'.delivered)
    (hopen : ∀ w, d'.pipe.isOpen w = d.pipe.isOpen w) (husers : d'.users = d.users)
    (hcloser : d'.closer = d.closer) (hfreer : d'.freer = d.freer) (hfreed : d'.freed = d.freed) :
    Inv d' := by
  refine ⟨hring, fun w hw => ?_, fun w i hi => ?_, fun i hi w => ?_, fun hf => ?_⟩
  · rw [hopen, hcloser]
    exact h.users w (husers ▸ hw)
  · rw [hopen]
    exact h.closer w i (hcloser ▸ hi)
  · rw [hopen]
    exact h.freer i (hfreer ▸ hi) w
  · rw [hfreer]
    exact h.freed (hfreed ▸ hf)

theorem isOpen_put (p : Pipe) (c : UInt8) (w : Bool) : (p.put c).isOpen w = p.isOpen w := by
  cases w <;> rfl

theorem isOpen_get (p : Pipe) (w : Bool) : p.get.isOpen w = p.isOpen w := by
  cases w <;> rfl

theorem isOpen_shut_not (p : Pipe) (w : Bool) : (p.shut w).isOpen (!w) = p.isOpen (!w) := by
  cases w <;> rfl

section

variable (h : Inv d)
include h

theorem Inv.put (hfull : ¬ d.pipe.Full) (c : UInt8) : Inv (d.put c) :=
  h.of_ring (h.ring.put hfull c) (isOpen_put d.pipe c) rfl rfl rfl rfl

theorem Inv.get (hempty : ¬ d.pipe.Empty) : Inv d.get :=
  h.of_ring (h.ring.get hempty) (isOpen_get d.pipe) rfl rfl rfl rfl

theorem Inv.drop {w : Bool} (hi : i ∈ d.users w) : Inv (d.drop i w) := by
  obtain ⟨hopen, hnone⟩ := h.users w ⟨i, hi⟩
  refine ⟨h.ring, fun w' hw' => ?_, fun w' k hk => ?_, h.freer, h.freed⟩
  · simp only [World.drop] at hw' ⊢
    by_cases hww : w' = w
    · subst hww
      rw [update_self] at hw'
      refine ⟨hopen, ?_⟩
      rw [if_neg hw'.ne_empty]
      exact hnone
    · rw [update_of_ne hww] at hw'
      refine ⟨(h.users w' hw').1, ?_⟩
      split
      · rw [update_of_ne hww]
        exact (h.users w' hw').2
      · exact (h.users w' hw').2
  · simp only [World.drop] at hk ⊢
    by_cases hww : w' = w
    · subst hww
      exact hopen
    · refine h.closer w' k ?_
      split at hk
      · rwa [update_of_ne hww] at hk
      · exact hk

theorem Inv.shut {w : Bool} (hi : d.closer w = some i) : Inv (d.shut w) ∧ d.freer = none := by
  have hopen := h.closer w i hi
  have hfreer : d.freer = none := by
    cases hf : d.freer with
    | none => rfl
    | some k =>
      rw [h.freer k hf w] at hopen
      cases hopen
  have hempty : ¬ (d.users w).Nonempty := by
    intro hw
    rw [(h.users w hw).2] at hi
    cases hi
  have hother : ∀ w', w' ≠ w → (d.pipe.shut w).isOpen w' = d.pipe.isOpen w' := by
    intro w' hw'
    rw [Bool.eq_not.mpr hw']
    exact isOpen_shut_not d.pipe w
  refine ⟨⟨?_, fun w' hw' => ?_, fun w' k hk => ?_, fun k hk => ?_, h.freed⟩, hfreer⟩
  · cases w <;> exact ⟨h.ring.behind, h.ring.room, h.ring.nread, h.ring.nwrite, h.ring.data⟩
  · simp only [World.shut] at hw' ⊢
    have hww : w' ≠ w := by
      rintro rfl
      exact hempty hw'
    rw [hother w' hww, update_of_ne hww]
    exact h.users w' hw'
  · simp only [World.shut] at hk ⊢
    have hww : w' ≠ w := by
      rintro rfl
      rw [update_self] at hk
      cases hk
    rw [hother w' hww]
    rw [update_of_ne hww] at hk
    exact h.closer w' k hk
  · rw [World.shut, hfreer] at hk
    cases hk

theorem Inv.writeopen (hi : i ∈ d.users true) : d.pipe.writeopen = true :=
  (h.users true ⟨i, hi⟩).1

end

theorem Rely.refl (i : ι) (d : World ι) : Rely i d d :=
  ⟨fun _ => id, fun _ => id, fun hi hf => ⟨hi, hf⟩, fun _ _ => id⟩

structure StepOk (i : ι) (l : Loc) (d : World ι) (r : World ι × Loc) : Prop where
  inv : Inv r.1
  run : Asserts i r.2 r.1
  locked : held r.2 = held l
  owes : ∀ c, Owes l c → Reason c r.1 ∨ Owes r.2 c
  reason : ∀ c, Reason c d → Reason c r.1 ∨ Owes r.2 c
  rely : ∀ j, j ≠ i → Rely j d r.1
  outside : held l = false → Outside d r.1

section

variable (h : Inv d)
include h

theorem StepOk.same (hrun : Asserts i l' d) (hheld : held l' = held l) (hl : held l = true)
    (howes : ∀ c, Owes l c → Owes l' c) : StepOk i l d (d, l') where
  inv := h
  run := hrun
  locked := hheld
  owes c ho := .inr (howes c ho)
  reason _ hr := .inl hr
  rely j _ := .refl j d
  outside hf := by
    rw [hl] at hf
    cases hf

theorem stepOk_writeLoop (addr : ℕ → UInt8) (n : ℤ) (k : ℕ) (fresh killed : Bool)
    (hi : i ∈ d.users true) :
    StepOk i (.writeLoop addr n k fresh) d (writeLoop addr n k fresh killed d) := by
  rw [writeLoop]
  split
  · split
    · rename_i hfull
      split
      · -- the early return: the world is told if bytes were not announced
        refine ⟨h.of_ring h.ring (fun _ => rfl) rfl rfl rfl rfl, hi, rfl, fun c ho => ?_, fun c hr => ?_,
          fun j _ => ⟨fun _ => id, fun _ => id, fun hj hf => ⟨hj, hf⟩, fun _ _ => id⟩, nofun⟩
        · cases fresh with
          | true => exact .inl (.inl (Bool.or_true _))
          | false => exact ho.elim
        · rcases hr with hr | hr
          · exact .inl (.inl (by rw [hr, Bool.true_or]))
          · exact .inl (.inr hr)
      · rename_i hgo
        have hopen : d.pipe.readopen = true := by
          cases hr : d.pipe.readopen with
          | true => rfl
          | false => exact absurd (.inl hr) hgo
        refine .same h ⟨hi, hfull, hopen⟩ rfl rfl fun c ho => ?_
        cases fresh with
        | true => exact ho
        | false => exact ho.elim
    · rename_i hfull
      refine ⟨h.put hfull (addr k), hi, rfl, fun c ho => ?_, fun c hr => ?_, fun j _ => ?_, nofun⟩
      · cases fresh with
        | true => exact .inr ho
        | false => exact ho.elim
      · -- a sleeping reader will be told, and no writer sleeps with a reason
        rcases hr with hr | hr
        · exact .inl (.inl hr)
        · cases c with
          | nread => exact .inr rfl
          | nwrite => exact absurd hr.1 hfull
      · refine ⟨fun _ => id, fun _ => id, fun hj hf => ⟨hj, hf⟩, fun n' r hres hn hr => ?_⟩
        have hclosed := (hres hn hr).1
        rw [h.writeopen hi] at hclosed
        cases hclosed
  · refine .same h hi rfl rfl fun c ho => ?_
    cases fresh with
    | true => exact ho
    | false => exact ho.elim

theorem stepOk_readTest (n : ℤ) (killed : Bool) (hi : i ∈ d.users false) :
    StepOk i (.readTest n) d (readTest n killed d) := by
  rw [readTest]
  split
  · rename_i hempty
    split
    · exact .same h ⟨hi, nofun⟩ rfl rfl nofun
    · exact .same h ⟨hi, hempty⟩ rfl rfl nofun
  · rename_i hgo
    refine .same h ⟨hi, fun _ hempty => ?_⟩ rfl rfl nofun
    cases hw : d.pipe.writeopen with
    | false => rfl
    | true => exact absurd ⟨hempty, hw⟩ hgo

theorem stepOk_readLoop (n : ℤ) (got : List UInt8)
    (hi : Asserts i (.readLoop n got) d) : StepOk i (.readLoop n got) d (readLoop n got d) := by
  obtain ⟨hi, hgot⟩ := hi
  rw [readLoop]
  split
  · split
    · rename_i hempty
      refine .same h ⟨hi, fun _ hlen => ?_⟩ rfl rfl fun c ho => ho
      have hnil : got = [] := List.eq_nil_of_length_eq_zero (Int.ofNat_eq_zero.mp hlen)
      exact ⟨hgot hnil hempty, h.ring.empty_iff.mp hempty⟩
    · rename_i hempty
      refine ⟨h.get hempty, ⟨hi, fun hnil => ?_⟩, rfl, fun c ho => .inr ho, fun c hr => ?_, fun j _ => ?_,
        nofun⟩
      · simp at hnil
      · -- a sleeping writer will be told, and no reader sleeps with a reason
        rcases hr with hr | hr
        · exact .inl (.inl hr)
        · cases c with
          | nread => exact absurd hr.1 hempty
          | nwrite => exact .inr rfl
      · refine ⟨fun _ => id, fun _ => id, fun hj hf => ⟨hj, hf⟩, fun n' r hres hn hr => ?_⟩
        exact absurd (h.ring.empty_iff.mpr (hres hn hr).2) hempty
  · rename_i hn
    refine .same h ⟨hi, fun hpos hlen => ?_⟩ rfl rfl fun c ho => ho
    rw [hlen] at hn
    exact absurd hpos hn

theorem stepOk_drop (w : Bool) (hi : i ∈ d.users w) :
    StepOk i (.drop w) d (d.drop i w, if (d.users w).erase i = ∅ then .closeAcquire w else .out) := by
  refine ⟨h.drop hi, ?_, ?_, nofun, fun c hr => .inl hr, fun j hj => ⟨fun w' hw' => ?_, fun w' hw' => ?_,
    fun hj hf => ⟨hj, hf⟩, fun _ _ => id⟩, fun _ => ⟨rfl, rfl, rfl, rfl⟩⟩
  · split
    · rename_i hlast
      simp only [Asserts, drop, if_pos hlast, update_self]
    · trivial
  · split <;> rfl
  · simp only [drop]
    by_cases hww : w' = w
    · subst hww
      rw [update_self]
      exact Finset.mem_erase.mpr ⟨hj, hw'⟩
    · rwa [update_of_ne hww]
  · simp only [drop]
    by_cases hww : w' = w
    · subst hww
      rw [(h.users w' ⟨i, hi⟩).2] at hw'
      cases hw'
    · split
      · rwa [update_of_ne hww]
      · exact hw'

theorem stepOk_closeSet (w : Bool) (hi : d.closer w = some i) :
    StepOk i (.closeSet w) d (d.shut w, .closeWakeup w) := by
  obtain ⟨hinv, hfreer⟩ := h.shut hi
  refine ⟨hinv, hfreer, rfl, nofun, fun c hr => ?_, fun j hj => ⟨fun _ => id, fun w' hw' => ?_,
    fun hj hf => ⟨hj, hf⟩, fun n r hres hn hr => ?_⟩, nofun⟩
  · rcases hr with hr | hr
    · exact .inl (.inl hr)
    · cases w with
      | true =>
        cases c with
        | nread => exact .inr rfl
        | nwrite => exact .inl (.inr hr)
      | false =>
        cases c with
        | nread => exact .inl (.inr hr)
        | nwrite => exact .inr rfl
  · simp only [shut]
    have hww : w' ≠ w := by
      rintro rfl
      rw [hi] at hw'
      exact hj (Option.some.inj hw').symm
    rwa [update_of_ne hww]
  · obtain ⟨hclosed, hall⟩ := hres hn hr
    refine ⟨?_, hall⟩
    cases w with
    | true => rfl
    | false => exact hclosed

theorem stepOk_closeTest (hi : d.freer = none) : StepOk i .closeTest d (closeTest i d) := by
  rw [closeTest]
  split
  · rename_i hclosed
    have hfreed : d.freed = false := by
      cases hf : d.freed with
      | false => rfl
      | true =>
        obtain ⟨k, hk⟩ := h.freed hf
        rw [hi] at hk
        cases hk
    refine ⟨⟨h.ring, h.users, h.closer, fun k _ w => ?_, fun _ => ⟨i, rfl⟩⟩, ⟨rfl, hfreed⟩, rfl, nofun,
      fun c hr => .inl hr, fun j _ => ⟨fun _ => id, fun _ => id, fun hj => ?_, fun _ _ => id⟩, nofun⟩
    · cases w with
      | true => exact hclosed.2
      | false => exact hclosed.1
    · rw [hi] at hj
      cases hj
  · exact .same h hi rfl rfl nofun

theorem stepOk_closeFree (hi : d.freer = some i ∧ d.freed = false) :
    StepOk i .closeFree d ({ d with freed := true }, .out) := by
  refine ⟨⟨h.ring, h.users, h.closer, h.freer, fun _ => ⟨i, hi.1⟩⟩, trivial, rfl, nofun,
    fun c hr => .inl hr, fun j hj => ⟨fun _ => id, fun _ => id, fun hj' => ?_, fun _ _ => id⟩,
    fun _ => ⟨rfl, rfl, rfl, rfl⟩⟩
  rw [hi.1] at hj'
  exact absurd (Option.some.inj hj').symm hj

end

theorem stepOk {f : Bool → World ι → World ι × Loc} (killed : Bool) (hc : machine.code i l = .step f)
    (h : Inv d) (hi : Asserts i l d) : StepOk i l d (f killed d) := by
  cases l with
  | writeLoop addr n k fresh =>
    cases hc
    exact stepOk_writeLoop h addr n k fresh killed hi
  | readTest n =>
    cases hc
    exact stepOk_readTest h n killed hi
  | readLoop n got =>
    cases hc
    exact stepOk_readLoop h n got hi
  | drop w =>
    cases hc
    exact stepOk_drop h w hi
  | closeSet w =>
    cases hc
    exact stepOk_closeSet h w hi
  | closeTest =>
    cases hc
    exact stepOk_closeTest h hi
  | closeFree =>
    cases hc
    exact stepOk_closeFree h hi
  | _ => cases hc

theorem Inv.inherit (h : Inv d) {w : Bool} (hw : (d.users w).Nonempty) (j : ι) :
    Inv (d.inherit j w) := by
  refine ⟨h.ring, fun w' hw' => ?_, h.closer, h.freer, h.freed⟩
  simp only [World.inherit] at hw' ⊢
  by_cases hww : w' = w
  · subst hww
    exact h.users w' hw
  · rw [update_of_ne hww] at hw'
    exact h.users w' hw'

theorem rely_inherit (i j : ι) (d : World ι) (w : Bool) : Rely i d (d.inherit j w) := by
  refine ⟨fun w' hw' => ?_, fun _ => id, fun hi hf => ⟨hi, hf⟩, fun _ _ => id⟩
  simp only [inherit]
  by_cases hww : w' = w
  · subst hww
    rw [update_self]
    exact Finset.mem_insert_of_mem hw'
  · rwa [update_of_ne hww]

def outline : Outline (machine (ι := ι)) where
  held := held
  inv := Inv
  free _ := True
  run := Asserts
  wait := Waits
  reason := Reason
  owes := Owes
  call {i l l' d} hc hmenu _ _ := by
    cases l with
    | out =>
      cases l' with
      | writeAcquire addr n | readAcquire n | drop w => exact ⟨rfl, hmenu, nofun⟩
      | _ => cases hmenu
    | writeReturn r | readReturn n r =>
      cases l' with
      | out => exact ⟨rfl, trivial, nofun⟩
      | _ => cases hmenu
    | _ => cases hc
  env {d d'} he h := by
    obtain ⟨j, w, hw, rfl⟩ := he
    exact ⟨h.inherit hw j, id,
      fun i l hl => hl.outside (rely_inherit i j d w) ⟨rfl, rfl, rfl, rfl⟩,
      fun i l hl => hl.rely (rely_inherit i j d w), fun c hr => hr⟩
  acquire {i l l' d} hc _ _ hl := by
    cases l with
    | writeAcquire addr n | readAcquire n | closeAcquire w =>
      cases hc
      exact ⟨rfl, hl, nofun⟩
    | _ => cases hc
  release {i l l' d} hc _ hl := by
    cases l with
    | writeRelease r =>
      cases hc
      exact ⟨rfl, trivial, trivial, nofun⟩
    | readRelease n r =>
      cases hc
      exact ⟨rfl, trivial, hl.2, nofun⟩
    | closeRelease last =>
      cases hc
      cases last with
      | true => exact ⟨rfl, trivial, hl, nofun⟩
      | false => exact ⟨rfl, trivial, trivial, nofun⟩
    | _ => cases hc
  step k hc h hl := by
    have hok := stepOk k hc h hl
    exact ⟨hok.inv, fun _ => id, hok.run, hok.locked, hok.owes, hok.reason⟩
  stable_run {i j l l' f d} k hij hc h hj hexcl hl := by
    have hok := stepOk k hc h hj
    cases hheld : held l with
    | false => exact hl.rely (hok.rely i hij) hheld
    | true =>
      refine hl.outside (hok.rely i hij) (hok.outside ?_)
      exact Bool.eq_false_iff.mpr (hexcl hheld)
  stable_wait k hij hc h hj hl := hl.rely ((stepOk k hc h hj).rely _ hij)
  sleep {i l l' c d} hc _ hl := by
    cases l with
    | writeSleep addr n k =>
      cases hc
      exact ⟨rfl, trivial, hl.1, .inr hl.2, nofun⟩
    | readSleep n =>
      cases hc
      exact ⟨rfl, trivial, hl.1, .inr hl.2, nofun⟩
    | _ => cases hc
  wakeup {i l l' c d} hc _ hl := by
    cases l with
    | writeFull addr n k fresh =>
      cases hc
      refine ⟨rfl, hl, fun c' hne ho => ?_⟩
      cases fresh with
      | true => exact absurd ho hne
      | false => exact ho.elim
    | writeWakeup n =>
      cases hc
      exact ⟨rfl, hl, fun c' hne ho => absurd ho hne⟩
    | readWakeup n got =>
      cases hc
      exact ⟨rfl, hl, fun c' hne ho => absurd ho hne⟩
    | closeWakeup w =>
      cases hc
      exact ⟨rfl, hl, fun c' hne ho => absurd ho hne⟩
    | _ => cases hc
  resume {i l d} _ _ hw := by
    cases l with
    | writeLoop addr n k fresh =>
      cases fresh with
      | false => exact hw
      | true => exact hw.elim
    | readTest n => exact hw
    | _ => exact hw.elim

end Xv6.Pipe
