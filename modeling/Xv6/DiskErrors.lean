import Xv6.DiskErrorModel

/-!
# What a failed read leaves in the cache

The command of the device is always for the first buffer of the queue, and a buffer is read exactly once
after it was assigned to its block. So what `bread` returns is data of the block unless that read failed.
-/

namespace Xv6.Bio.DiskErrors

open Resumption Function List

variable {ι : Type} [DecidableEq ι]

/-! ## Histories of a buffer -/

/-- What has happened since the buffer was assigned to its block. -/
def since (n : Fin NBUF) (tr : List Event) : List Event :=
  tr.foldl (fun l e => match e with
    | .assigned m _ => if m = n then [] else l ++ [e]
    | _ => l ++ [e]) []

/-- The block that the buffer is assigned to. -/
def block (n : Fin NBUF) (tr : List Event) : Key :=
  tr.foldl (fun k e => match e with
    | .assigned m k' => if m = n then k' else k
    | _ => k) (NODEV, 0)

/-- Where the block is on the two disks. -/
def sector (k : Key) : Key := (k.1 &&& 1, k.2)

/-- The data of the buffer was transferred from or written to the block since the buffer was assigned to
it. -/
def Genuine (n : Fin NBUF) (k : Key) (tr : List Event) : Prop :=
  block n tr = k ∧ (.loaded n (sector k) ∈ since n tr ∨ .written n (sector k) ∈ since n tr)

variable {n m : Fin NBUF} {k : Key} {tr : List Event} {e : Event}

variable {b b' : Buf}

theorem since_append (n : Fin NBUF) (tr : List Event) (e : Event) : since n (tr ++ [e]) =
    match e with
    | .assigned m _ => if m = n then [] else since n tr ++ [e]
    | _ => since n tr ++ [e] := by
  unfold since
  rw [foldl_append]
  cases e <;> rfl

theorem block_append (n : Fin NBUF) (tr : List Event) (e : Event) : block n (tr ++ [e]) =
    match e with
    | .assigned m k => if m = n then k else block n tr
    | _ => block n tr := by
  unfold block
  rw [foldl_append]
  cases e <;> rfl

/-- A valid buffer was read once since it was assigned, and a buffer that is not valid was not. -/
structure Status (n : Fin NBUF) (b : Buf) (tr : List Event) : Prop where
  block : DiskErrors.block n tr = b.key
  fresh : b.valid = false → .failed n ∉ since n tr ∧ ∀ k, .loaded n k ∉ since n tr
  read : b.valid = true → (.loaded n b.sector ∈ since n tr ↔ .failed n ∉ since n tr)

def Event.Other (n : Fin NBUF) : Event → Prop
  | .assigned m _ | .loaded m _ | .failed m => m ≠ n
  | _ => True

section

variable (h : e.Other n)
include h

theorem Event.Other.since (tr : List Event) :
    DiskErrors.since n (tr ++ [e]) = DiskErrors.since n tr ++ [e] := by
  rw [since_append]
  cases e with
  | assigned m k => exact if_neg h
  | _ => rfl

theorem Event.Other.block (tr : List Event) :
    DiskErrors.block n (tr ++ [e]) = DiskErrors.block n tr := by
  rw [block_append]
  cases e with
  | assigned m k => exact if_neg h
  | _ => rfl

theorem Event.Other.ne_failed : e ≠ .failed n := by
  rintro rfl
  exact h rfl

theorem Event.Other.ne_loaded (k : Key) : e ≠ .loaded n k := by
  rintro rfl
  exact h rfl

end

theorem Status.other (h : Status n b tr) (he : e.Other n) : Status n b (tr ++ [e]) := by
  have hfailed := Ne.symm he.ne_failed
  have hloaded := fun k => Ne.symm (he.ne_loaded k)
  refine ⟨(he.block tr).trans h.block, fun hb => ?_, fun hb => ?_⟩
  · rw [he.since tr]
    simpa [hfailed, hloaded] using h.fresh hb
  · rw [he.since tr]
    simpa [hfailed, hloaded] using h.read hb

theorem Status.congr (h : Status n b tr) (hkey : b'.key = b.key) (hvalid : b'.valid = b.valid) :
    Status n b' tr := by
  have hsector : b'.sector = b.sector := congrArg sector hkey
  refine ⟨h.block.trans hkey.symm, fun hb => h.fresh (hvalid ▸ hb), fun hb => ?_⟩
  rw [hsector]
  exact h.read (hvalid ▸ hb)

theorem Status.assigned (hb : b.valid = false) : Status n b (tr ++ [.assigned n b.key]) := by
  have hsince : since n (tr ++ [.assigned n b.key]) = [] := by
    rw [since_append]
    exact if_pos rfl
  refine ⟨?_, fun _ => ?_, fun hb' => ?_⟩
  · rw [block_append]
    exact if_pos rfl
  · rw [hsince]
    exact ⟨not_mem_nil, fun k => not_mem_nil⟩
  · rw [hb] at hb'
    cases hb'

theorem Status.loaded (h : Status n b tr) (hb : b.valid = false) (hkey : b'.key = b.key)
    (hb' : b'.valid = true) : Status n b' (tr ++ [.loaded n b.sector]) := by
  have hsector : b'.sector = b.sector := congrArg sector hkey
  have hsince : since n (tr ++ [.loaded n b.sector]) = since n tr ++ [.loaded n b.sector] := since_append ..
  refine ⟨?_, fun h' => ?_, fun _ => ?_⟩
  · rw [block_append]
    exact h.block.trans hkey.symm
  · rw [hb'] at h'
    cases h'
  · rw [hsince, hsector]
    simp [(h.fresh hb).1]

theorem Status.failed (h : Status n b tr) (hb : b.valid = false) (hkey : b'.key = b.key)
    (hb' : b'.valid = true) : Status n b' (tr ++ [.failed n]) := by
  have hsince : since n (tr ++ [.failed n]) = since n tr ++ [.failed n] := since_append ..
  refine ⟨?_, fun h' => ?_, fun _ => ?_⟩
  · rw [block_append]
    exact h.block.trans hkey.symm
  · rw [hb'] at h'
    cases h'
  · rw [hsince]
    simp [(h.fresh hb).2]

/-- Whatever `bread` has returned is valid, and was read from its block or not at all. -/
def Returned (tr : List Event) : Prop :=
  ∀ before after n k v, tr = before ++ .returned n k v :: after → v = true ∧ block n before = k ∧
    (.loaded n (sector k) ∈ since n before ↔ .failed n ∉ since n before)

theorem Returned.append (h : Returned tr) (he : ∀ n k v, e = .returned n k v →
    v = true ∧ block n tr = k ∧ (.loaded n (sector k) ∈ since n tr ↔ .failed n ∉ since n tr)) :
    Returned (tr ++ [e]) := by
  intro before after n k v heq
  rcases eq_nil_or_concat after with rfl | ⟨rest, y, rfl⟩
  · obtain ⟨rfl, hlast⟩ := append_inj' heq rfl
    exact he n k v (singleton_inj.mp hlast)
  · have hsplit : tr ++ [e] = (before ++ .returned n k v :: rest) ++ [y] := by
      rw [heq, concat_eq_append, append_assoc, cons_append]
    exact h before rest n k v (append_inj' hsplit rfl).1

theorem Returned.skip (h : Returned tr) (he : ∀ n k v, e ≠ .returned n k v) : Returned (tr ++ [e]) :=
  h.append fun n k v heq => (he n k v heq).elim

/-! ## The invariant -/

/-- Where a thread is: outside, in `bread` with a buffer from `bget`, with one it has found valid, or in
`iderw`, and in `bwrite` or another call with its own buffer. -/
inductive Loc
  | out
  | got (n : Fin NBUF) (k : Key)
  | hit (n : Fin NBUF) (k : Key)
  | wait (n : Fin NBUF) (k : Key)
  | own (n : Fin NBUF)
  | flush (n : Fin NBUF)

def Loc.waits : Loc → Option (Fin NBUF)
  | .wait n _ | .flush n => some n
  | _ => none

def Loc.reads : Loc → Option (Fin NBUF)
  | .got n _ | .wait n _ => some n
  | _ => none

def At (s : State ι) (i : ι) : Loc → Prop
  | .out => True
  | .got n k | .wait n k => s.held i n = true ∧ (s.buf n).key = k
  | .hit n k => s.held i n = true ∧ (s.buf n).key = k ∧ (s.buf n).valid = true
  | .own n | .flush n => s.held i n = true

def Serves (s : State ι) (k : Key) (data : Option Block) : Prop :=
  ∃ n rest, s.queue = n :: rest ∧ k = (s.buf n).sector ∧ data.isSome = (s.buf n).dirty

def DeviceOk (s : State ι) : Prop :=
  match s.device with
  | .idle => s.queue = []
  | .busy k data => Serves s k data
  | .raised k data err => Serves s k data ∧ (data = none → err = false → s.reg.1 = k)

structure Core (ls : ι → Loc) (s : State ι) : Prop where
  excl : ∀ i j n, s.held i n = true → s.held j n = true → i = j
  busy : ∀ i n, s.held i n = true → (s.buf n).busy = true
  nodup : s.queue.Nodup
  queued : ∀ n ∈ s.queue, ∃ i, s.held i n = true ∧ (ls i).waits = some n
  waiting : ∀ n ∈ s.queue, ¬ ((s.buf n).valid = true ∧ (s.buf n).dirty = false)
  ready : ∀ i n, s.held i n = true → (ls i).reads ≠ some n → (s.buf n).valid = true
  clean : ∀ n, (s.buf n).dirty = true → (s.buf n).valid = true
  here : ∀ i, At s i (ls i)
  status : ∀ n, Status n (s.buf n) s.trace
  returned : Returned s.trace

structure Inv (ls : ι → Loc) (s : State ι) : Prop extends Core ls s where
  device : DeviceOk s

variable {ls : ι → Loc} {s s' : State ι} {i j : ι} {l : Loc} {b : Buf}

theorem At.mono (h : At s j l) (hb : ∀ n, s.held j n = true → s'.held j n = true ∧
    (s'.buf n).key = (s.buf n).key ∧ ((s.buf n).valid = true → (s'.buf n).valid = true)) : At s' j l := by
  cases l with
  | out => trivial
  | got n k => exact ⟨(hb n h.1).1, (hb n h.1).2.1.trans h.2⟩
  | hit n k => exact ⟨(hb n h.1).1, (hb n h.1).2.1.trans h.2.1, (hb n h.1).2.2 h.2.2⟩
  | wait n k => exact ⟨(hb n h.1).1, (hb n h.1).2.1.trans h.2⟩
  | own n => exact (hb n h).1
  | flush n => exact (hb n h).1

section

variable (h : Core ls s)
include h

theorem Core.not_queued (hi : s.held i n = true) (hw : (ls i).waits ≠ some n) : n ∉ s.queue := by
  intro hn
  obtain ⟨j, hj, hwj⟩ := h.queued n hn
  rw [h.excl j i n hj hi] at hwj
  exact hw hwj

theorem Core.not_held (hb : (s.buf n).busy = false) (i : ι) : s.held i n = false := by
  by_contra hi
  have := h.busy i n (Bool.eq_true_of_not_eq_false hi)
  rw [hb] at this
  cases this

theorem Core.not_queued_of_idle (hb : (s.buf n).busy = false) : n ∉ s.queue := by
  intro hn
  obtain ⟨j, hj, -⟩ := h.queued n hn
  rw [h.not_held hb j] at hj
  cases hj

theorem Core.relabel (hat : At s i l) (hw : ∀ n ∈ s.queue, (ls i).waits = some n → l.waits = some n)
    (hr : ∀ n, (ls i).reads = some n → l.reads = some n ∨ (s.buf n).valid = true) :
    Core (update ls i l) s := by
  refine ⟨h.excl, h.busy, h.nodup, fun n hn => ?_, h.waiting, fun j n hj hl => ?_, h.clean, fun j => ?_,
    h.status, h.returned⟩
  · obtain ⟨j, hj, hwj⟩ := h.queued n hn
    refine ⟨j, hj, ?_⟩
    by_cases hji : j = i
    · subst hji
      rw [update_self]
      exact hw n hn hwj
    · rw [update_of_ne hji]
      exact hwj
  · by_cases hji : j = i
    · subst hji
      rw [update_self] at hl
      by_cases hold : (ls j).reads = some n
      · exact (hr n hold).resolve_left hl
      · exact h.ready j n hj hold
    · rw [update_of_ne hji] at hl
      exact h.ready j n hj hl
  · by_cases hji : j = i
    · subst hji
      rw [update_self]
      exact hat
    · rw [update_of_ne hji]
      exact h.here j

end

theorem Inv.relabel (h : Inv ls s) (hat : At s i l)
    (hw : ∀ n ∈ s.queue, (ls i).waits = some n → l.waits = some n)
    (hr : ∀ n, (ls i).reads = some n → l.reads = some n ∨ (s.buf n).valid = true) :
    Inv (update ls i l) s := ⟨h.toCore.relabel hat hw hr, h.device⟩

theorem setBuf_self : (s.setBuf n b).buf n = b := update_self ..

theorem setBuf_of_ne (hm : m ≠ n) : (s.setBuf n b).buf m = s.buf m := update_of_ne hm ..

theorem DeviceOk.mono (h : DeviceOk s) (hdevice : s'.device = s.device) (hreg : s'.reg = s.reg)
    (hidle : s.queue = [] → s'.queue = []) (hserves : ∀ {k data}, Serves s k data → Serves s' k data) :
    DeviceOk s' := by
  unfold DeviceOk at h ⊢
  rw [hdevice, hreg]
  cases hd : s.device with
  | idle =>
    rw [hd] at h
    exact hidle h
  | busy k data =>
    rw [hd] at h
    exact hserves h
  | raised k data err =>
    rw [hd] at h
    exact ⟨hserves h.1, h.2⟩

theorem DeviceOk.setBuf (h : DeviceOk s) (hn : n ∉ s.queue) : DeviceOk (s.setBuf n b) := by
  refine h.mono rfl rfl id ?_
  rintro k data ⟨m, rest, hq, hk, hdata⟩
  have hm : m ≠ n := by
    rintro rfl
    exact hn (by rw [hq]; exact mem_cons_self)
  exact ⟨m, rest, hq, by rw [setBuf_of_ne hm]; exact hk, by rw [setBuf_of_ne hm]; exact hdata⟩

theorem Core.change (h : Core ls s) (hbuf : s'.buf = update s.buf n b) (hheld : s'.held = s.held)
    (hqueue : s'.queue.Nodup ∧ ∀ m ∈ s'.queue, m ∈ s.queue ∧ m ≠ n)
    (hn : ∀ i, s.held i n = true → b.busy = true ∧ b.key = (s.buf n).key ∧
      ((s.buf n).valid = true → b.valid = true)) (hclean : b.dirty = true → b.valid = true)
    (hstatus : Status n b s'.trace) (hother : ∀ m, m ≠ n → Status m (s.buf m) s'.trace)
    (hret : Returned s'.trace) : Core ls s' := by
  have hself : s'.buf n = b := by rw [hbuf, update_self]
  have hne : ∀ {m}, m ≠ n → s'.buf m = s.buf m := fun hm => by rw [hbuf, update_of_ne hm]
  refine ⟨fun i j m => ?_, fun i m hi => ?_, hqueue.1, fun m hm => ?_, fun m hm => ?_, fun i m hi hl => ?_,
    fun m => ?_, fun i => ?_, fun m => ?_, hret⟩
  · rw [hheld]
    exact h.excl i j m
  · rw [hheld] at hi
    by_cases hmn : m = n
    · subst hmn
      rw [hself]
      exact (hn i hi).1
    · rw [hne hmn]
      exact h.busy i m hi
  · rw [hheld]
    exact h.queued m (hqueue.2 m hm).1
  · rw [hne (hqueue.2 m hm).2]
    exact h.waiting m (hqueue.2 m hm).1
  · rw [hheld] at hi
    by_cases hmn : m = n
    · subst hmn
      rw [hself]
      exact (hn i hi).2.2 (h.ready i m hi hl)
    · rw [hne hmn]
      exact h.ready i m hi hl
  · by_cases hmn : m = n
    · rw [hmn, hself]
      exact hclean
    · rw [hne hmn]
      exact h.clean m
  · refine (h.here i).mono fun m hi => ⟨by rw [hheld]; exact hi, ?_⟩
    by_cases hmn : m = n
    · subst hmn
      rw [hself]
      exact (hn i hi).2
    · rw [hne hmn]
      exact ⟨rfl, id⟩
  · by_cases hmn : m = n
    · rw [hmn, hself]
      exact hstatus
    · rw [hne hmn]
      exact hother m hmn

theorem Core.queue_ne (h : Core ls s) (hn : n ∉ s.queue) :
    s.queue.Nodup ∧ ∀ m ∈ s.queue, m ∈ s.queue ∧ m ≠ n :=
  ⟨h.nodup, fun _ hm => ⟨hm, fun he => hn (he ▸ hm)⟩⟩

theorem Inv.setBuf (h : Inv ls s) (hn : n ∉ s.queue) (hkey : b.key = (s.buf n).key)
    (hvalid : b.valid = (s.buf n).valid) (hbusy : (∃ i, s.held i n = true) → b.busy = true)
    (hclean : b.dirty = true → b.valid = true) : Inv ls (s.setBuf n b) :=
  ⟨h.toCore.change rfl rfl (h.queue_ne hn) (fun i hi => ⟨hbusy ⟨i, hi⟩, hkey, hvalid.trans⟩) hclean
    ((h.status n).congr hkey hvalid) (fun m _ => h.status m) h.returned, h.device.setBuf hn⟩

theorem hold_self : (s.hold i n true).held i n = true := by
  simp [State.hold]

theorem hold_of_ne {v : Bool} (h : j ≠ i ∨ m ≠ n) : (s.hold i n v).held j m = s.held j m := by
  unfold State.hold
  by_cases hj : j = i
  · subst hj
    simp [h.resolve_left (absurd rfl)]
  · simp [update_of_ne hj]

theorem Inv.hold (h : Inv ls s) (hl : ls i = .out) (hnone : ∀ j, s.held j n = false)
    (hbusy : (s.buf n).busy = true) :
    Inv (update ls i (.got n (s.buf n).key)) (s.hold i n true) := by
  have hcases : ∀ j m, (s.hold i n true).held j m = true → s.held j m = true ∨ (j = i ∧ m = n) := by
    intro j m hj
    by_cases hne : j ≠ i ∨ m ≠ n
    · exact .inl (hold_of_ne hne ▸ hj)
    · exact .inr (by simpa [not_or] using hne)
  have hkeep : ∀ j m, s.held j m = true → (s.hold i n true).held j m = true := by
    intro j m hj
    have hm : m ≠ n := by
      rintro rfl
      rw [hnone j] at hj
      cases hj
    rw [hold_of_ne (.inr hm)]
    exact hj
  refine ⟨⟨fun j j' m hj hj' => ?_, fun j m hj => ?_, h.nodup, fun m hm => ?_, h.waiting, fun j m hj hr => ?_,
    h.clean, fun j => ?_, h.status, h.returned⟩, h.device⟩
  · rcases hcases j m hj with hold | ⟨rfl, rfl⟩ <;> rcases hcases j' m hj' with hold' | ⟨rfl, hm⟩
    · exact h.excl j j' m hold hold'
    · subst hm
      rw [hnone j] at hold
      cases hold
    · rw [hnone j'] at hold'
      cases hold'
    · rfl
  · rcases hcases j m hj with hj | ⟨-, rfl⟩
    · exact h.busy j m hj
    · exact hbusy
  · obtain ⟨j, hj, hw⟩ := h.queued m hm
    have hji : j ≠ i := by
      rintro rfl
      rw [hl] at hw
      cases hw
    exact ⟨j, hkeep j m hj, by rw [update_of_ne hji]; exact hw⟩
  · by_cases hji : j = i
    · subst hji
      rw [update_self] at hr
      rcases hcases j m hj with hj | ⟨-, rfl⟩
      · exact h.ready j m hj (by rw [hl]; exact nofun)
      · exact (hr rfl).elim
    · rw [update_of_ne hji] at hr
      rcases hcases j m hj with hj | ⟨rfl, -⟩
      · exact h.ready j m hj hr
      · exact (hji rfl).elim
  · by_cases hji : j = i
    · subst hji
      rw [update_self]
      exact ⟨hold_self, rfl⟩
    · rw [update_of_ne hji]
      exact (h.here j).mono fun m hj => ⟨hkeep j m hj, rfl, id⟩

theorem Inv.drop (h : Inv ls s) (hl : ls i = .out) : Inv ls (s.hold i n false) := by
  have hcases : ∀ j m, (s.hold i n false).held j m = true → s.held j m = true ∧ (j ≠ i ∨ m ≠ n) := by
    intro j m hj
    by_cases hne : j ≠ i ∨ m ≠ n
    · exact ⟨hold_of_ne hne ▸ hj, hne⟩
    · obtain ⟨rfl, rfl⟩ : j = i ∧ m = n := by simpa [not_or] using hne
      simp [State.hold] at hj
  refine ⟨⟨fun j j' m hj hj' => h.excl j j' m (hcases j m hj).1 (hcases j' m hj').1,
    fun j m hj => h.busy j m (hcases j m hj).1, h.nodup, fun m hm => ?_, h.waiting,
    fun j m hj => h.ready j m (hcases j m hj).1, h.clean, fun j => ?_, h.status, h.returned⟩, h.device⟩
  · obtain ⟨j, hj, hw⟩ := h.queued m hm
    have hji : j ≠ i := by
      rintro rfl
      rw [hl] at hw
      cases hw
    exact ⟨j, (hold_of_ne (.inl hji)).trans hj, hw⟩
  · by_cases hji : j = i
    · rw [hji, hl]
      trivial
    · exact (h.here j).mono fun m hj => ⟨(hold_of_ne (.inl hji)).trans hj, rfl, id⟩

theorem Inv.assign (h : Inv ls s) (hb : (s.buf n).busy = false) (hvalid : b.valid = false)
    (hdirty : b.dirty = false) : Inv ls ((s.setBuf n b).emit (.assigned n b.key)) := by
  have hn := h.not_queued_of_idle hb
  refine ⟨h.toCore.change (n := n) (b := b) rfl rfl (h.queue_ne hn) (fun j hj => ?_) (fun hd => ?_)
    (.assigned hvalid) (fun m hm => (h.status m).other hm.symm) (h.returned.skip (by simp)),
    h.device.setBuf hn⟩
  · rw [h.not_held hb j] at hj
    cases hj
  · rw [hdirty] at hd
    cases hd

theorem Inv.emit_returned (h : Inv ls s) (hv : (s.buf n).valid = true) :
    Inv ls (s.emit (.returned n (s.buf n).key true)) := by
  refine ⟨⟨h.excl, h.busy, h.nodup, h.queued, h.waiting, h.ready, h.clean, h.here,
    fun m => (h.status m).other trivial, ?_⟩, h.device⟩
  refine h.returned.append ?_
  rintro m k v ⟨⟩
  exact ⟨rfl, (h.status n).block, (h.status n).read hv⟩

/-! ## Steps -/

section Steps

variable {E : Stop → State ι → Prop}

variable {rest : List (Fin NBUF)}

theorem Inv.start (h : Core ls s) (hq : s.queue = n :: rest) (hE : ∀ e s, E e s) :
    wp (idestart n) (fun _ s' => Inv ls s') E s := by
  unfold idestart
  simp only [wp_bind, wp_get, wp_ite, wp_throw, wp_modify]
  refine ⟨fun _ => hE _ _, fun _ => ⟨⟨h.excl, h.busy, h.nodup, h.queued, h.waiting, h.ready, h.clean,
    h.here, h.status, h.returned⟩, n, rest, hq, rfl, ?_⟩⟩
  cases hd : (s.buf n).dirty <;> rfl

theorem wp_iderwStart (h : Inv ls s) (hi : s.held i n = true) (hat : At s i l)
    (hl : l.waits = some n) (hnone : (ls i).waits = none)
    (hr : ∀ n, (ls i).reads = some n → l.reads = some n) (hE : ∀ e s, E e s) :
    wp (iderwStart n) (fun _ s' => Inv (update ls i l) s') E s := by
  have hn := h.not_queued hi (by rw [hnone]; exact nofun)
  unfold iderwStart
  simp only [wp_bind, wp_get, wp_ite, wp_throw, wp_set, wp_pure]
  refine ⟨fun _ => hE _ _, fun _ => ⟨fun _ => hE _ _, fun hopen => ⟨fun _ => hE _ _, fun _ => ?_⟩⟩⟩
  have hcore : Core (update ls i l) { s with queue := s.queue ++ [n] } := by
    have hrel := h.toCore.relabel hat (fun m _ hm => by rw [hnone] at hm; cases hm)
      fun m hm => .inl (hr m hm)
    refine ⟨hrel.excl, hrel.busy, ?_, fun m hm => ?_, fun m hm => ?_, hrel.ready, hrel.clean, hrel.here,
      hrel.status, hrel.returned⟩
    · exact nodup_append.2 ⟨h.nodup, nodup_singleton n, by
        rintro a ha b hb rfl
        exact hn (mem_singleton.1 hb ▸ ha)⟩
    · rcases mem_append.1 hm with hm | hm
      · exact hrel.queued m hm
      · obtain rfl := mem_singleton.1 hm
        exact ⟨i, hi, by rw [update_self]; exact hl⟩
    · rcases mem_append.1 hm with hm | hm
      · exact hrel.waiting m hm
      · obtain rfl := mem_singleton.1 hm
        exact hopen
  refine ⟨fun hq => ?_, fun hq => ⟨hcore, ?_⟩⟩
  · exact Inv.start hcore (by rw [hq]; rfl) hE
  · -- the queue was not empty, so its head is what it was
    refine h.device.mono rfl rfl (fun hqs => (hq hqs).elim) ?_
    rintro k data ⟨m, rest, hqs, hk, hdata⟩
    exact ⟨m, rest ++ [n], by rw [hqs]; rfl, hk, hdata⟩

theorem wp_complete (h : Inv ls s) (err : Bool) (noise : Key × Block) (hE : ∀ e s, E e s) :
    wp (complete err noise) (fun _ s' => Inv ls s') E s := by
  have hdev := h.device
  unfold DeviceOk at hdev
  unfold complete
  simp only [wp_bind, wp_get]
  cases hd : s.device with
  | idle => exact hE _ _
  | raised k data err => exact hE _ _
  | busy k data =>
    rw [hd] at hdev
    have hcore : ∀ (dv : Device) (reg : Key × Block) (disk : Key → Block),
        Core ls { s with device := dv, reg := reg, disk := disk } := fun dv reg disk =>
      ⟨h.excl, h.busy, h.nodup, h.queued, h.waiting, h.ready, h.clean, h.here, h.status, h.returned⟩
    cases data with
    | none =>
      refine ⟨hcore _ _ s.disk, hdev, fun _ herr => ?_⟩
      subst herr
      rfl
    | some data => exact ⟨hcore _ _ _, hdev, by simp⟩

theorem Core.serve (h : Core ls s) (hq : s.queue = n :: rest)
    (hbuf : s'.buf = update s.buf n b) (hqueue : s'.queue = rest) (hheld : s'.held = s.held)
    (hkey : b.key = (s.buf n).key) (hbusy : b.busy = (s.buf n).busy) (hvalid : b.valid = true)
    (hn : Status n b s'.trace) (hother : ∀ m, m ≠ n → Status m (s.buf m) s'.trace)
    (hret : Returned s'.trace) : Core ls s' := by
  have hnodup := h.nodup
  rw [hq, nodup_cons] at hnodup
  refine h.change hbuf hheld ⟨by rw [hqueue]; exact hnodup.2, fun m hm => ?_⟩
    (fun i hi => ⟨hbusy.trans (h.busy i n hi), hkey, fun _ => hvalid⟩) (fun _ => hvalid) hn hother hret
  rw [hqueue] at hm
  refine ⟨by rw [hq]; exact mem_cons_of_mem n hm, ?_⟩
  rintro rfl
  exact hnodup.1 hm

section

variable (h : Inv ls s)
include h

theorem wp_ideintrTake {data : Option Block} {err : Bool}
    (hd : s.device = .raised k data err) (hq : s.queue = n :: rest) :
    wp (ideintrTake n rest k err) (fun _ s' => Core ls s' ∧ s'.queue = rest ∧ s'.device = .idle) E s := by
  have hdev := h.device
  unfold DeviceOk at hdev
  rw [hd] at hdev
  obtain ⟨⟨m, rest', hq', hk, hdata⟩, hreg⟩ := hdev
  obtain ⟨rfl, rfl⟩ : n = m ∧ rest = rest' := List.cons.inj (hq.symm.trans hq')
  have hopen := h.waiting n (by rw [hq]; exact mem_cons_self)
  have hother : ∀ e : Event, (∀ m, m ≠ n → e.Other m) → ∀ m, m ≠ n → Status m (s.buf m) (s.trace ++ [e]) :=
    fun e he m hm => (h.status m).other (he m hm)
  unfold ideintrTake
  simp only [wp_bind, wp_get, wp_ite, wp_set]
  refine ⟨?_, fun hload => ⟨fun hdirty => ?_, fun hdirty => ⟨fun herr => ?_, fun herr => ?_⟩⟩⟩
  · rintro ⟨hdirty, rfl⟩
    have hv : (s.buf n).valid = false := Bool.eq_false_of_not_eq_true fun hv => hopen ⟨hv, hdirty⟩
    have hnone : data = none := by
      rw [hdirty] at hdata
      exact Option.not_isSome_iff_eq_none.1 (by rw [hdata]; exact Bool.false_ne_true)
    refine ⟨h.toCore.serve hq rfl rfl rfl rfl rfl rfl ?_ ?_ (h.returned.skip (by simp)), rfl, rfl⟩
    · rw [hreg hnone rfl, hk]
      exact (h.status n).loaded hv rfl rfl
    · exact hother _ fun m hm => Ne.symm hm
  · have hv : (s.buf n).valid = false := Bool.eq_false_of_not_eq_true fun hv => hopen ⟨hv, hdirty⟩
    exact ⟨h.toCore.serve hq rfl rfl rfl rfl rfl rfl ((h.status n).failed hv rfl rfl)
      (hother _ fun m hm => Ne.symm hm) (h.returned.skip (by simp)), rfl, rfl⟩
  · -- a dirty buffer was valid before
    have hv := h.clean n (Bool.eq_true_of_not_eq_false hdirty)
    have hst : Status n { s.buf n with valid := true, dirty := false } s.trace :=
      (h.status n).congr rfl hv.symm
    exact ⟨h.toCore.serve hq rfl rfl rfl rfl rfl rfl (hst.other trivial) (hother _ fun m hm => trivial)
      (h.returned.skip (by simp)), rfl, rfl⟩
  · have hv := h.clean n (Bool.eq_true_of_not_eq_false hdirty)
    have hst : Status n { s.buf n with valid := true, dirty := false } s.trace :=
      (h.status n).congr rfl hv.symm
    exact ⟨h.toCore.serve hq rfl rfl rfl rfl rfl rfl hst (fun m _ => h.status m) h.returned, rfl, rfl⟩

theorem wp_ideintr (hE : ∀ e s, E e s) : wp ideintr (fun _ s' => Inv ls s') E s := by
  unfold ideintr
  simp only [wp_bind, wp_get]
  cases hd : s.device with
  | idle => exact hE _ _
  | busy k data => exact hE _ _
  | raised k data err =>
    cases hq : s.queue with
    | nil =>
      have hdev := h.device
      unfold DeviceOk at hdev
      rw [hd] at hdev
      obtain ⟨⟨m, rest, hq', -⟩, -⟩ := hdev
      rw [hq] at hq'
      cases hq'
    | cons n rest =>
      simp only [wp_bind]
      refine wp_mono (wp_ideintrTake (E := E) h hd hq) ?_ fun e s _ => hE e s
      rintro _ s' ⟨hcore, hq', hd'⟩
      cases rest with
      | nil =>
        refine ⟨hcore, ?_⟩
        unfold DeviceOk
        rw [hd']
        exact hq'
      | cons m rest => exact Inv.start hcore hq' hE

theorem wp_bget (hl : ls i = .out) (dev blockno : UInt32) (hE : ∀ e s, E e s) :
    wp (bget i dev blockno) (fun n s' => Inv (update ls i (.got n (dev, blockno))) s') E s := by
  unfold bget
  simp only [wp_bind, wp_get]
  cases hlook : s.lookup dev blockno with
  | some n =>
    simp only [wp_ite, wp_throw, wp_bind, wp_set, wp_pure]
    refine ⟨fun _ => hE _ _, fun hb => ?_⟩
    have hb : (s.buf n).busy = false := Bool.eq_false_of_not_eq_true hb
    have hkey : (s.buf n).dev = dev ∧ (s.buf n).blockno = blockno := by
      simpa using List.find?_some hlook
    have hset : Inv ls (s.setBuf n { s.buf n with busy := true }) :=
      h.setBuf (h.not_queued_of_idle hb) rfl rfl (fun _ => rfl) (h.clean n)
    have hhold := hset.hold (i := i) (n := n) hl (h.not_held hb) (by rw [setBuf_self])
    rwa [setBuf_self, show Buf.key { s.buf n with busy := true } = (dev, blockno) from
      Prod.ext hkey.1 hkey.2] at hhold
  | none =>
    cases hvictim : s.victim with
    | none => exact hE _ _
    | some n =>
      simp only [wp_bind, wp_set, wp_pure]
      have hidle : (s.buf n).busy = false ∧ (s.buf n).dirty = false := by
        simpa using List.find?_some hvictim
      have hassign : Inv ls ((s.setBuf n ⟨dev, blockno, true, false, false, (s.buf n).data⟩).emit
          (.assigned n (dev, blockno))) := h.assign hidle.1 rfl rfl
      have hself : (((s.setBuf n ⟨dev, blockno, true, false, false, (s.buf n).data⟩).emit
          (.assigned n (dev, blockno))).buf n) = ⟨dev, blockno, true, false, false, (s.buf n).data⟩ :=
        setBuf_self
      have hhold := hassign.hold (i := i) (n := n) hl (h.not_held hidle.1) (by rw [hself])
      rwa [hself] at hhold

theorem wp_iderwWait (hw : (ls i).waits = some n) (hr : ∀ m, (ls i).reads = some m → m = n)
    (hat : (s.buf n).valid = true → At s i l) (hE : ∀ e s, E e s) :
    wp (iderwWait n) (fun _ s' => Inv (update ls i l) s') E s := by
  unfold iderwWait
  simp only [wp_bind, wp_get, wp_ite, wp_throw, wp_pure]
  refine ⟨fun _ => hE _ _, fun hserved => ?_⟩
  rw [not_not] at hserved
  refine h.relabel (hat hserved.1) (fun m hm hwm => ?_) fun m hm => .inr ?_
  · obtain rfl : n = m := Option.some.inj (hw.symm.trans hwm)
    exact (h.waiting n hm hserved).elim
  · rw [hr m hm]
    exact hserved.1

theorem Inv.store (hl : ls i = .own n) (hkey : b.key = (s.buf n).key)
    (hvalid : b.valid = (s.buf n).valid) (hbusy : b.busy = (s.buf n).busy) : Inv ls (s.setBuf n b) := by
  have hi : s.held i n = true := by
    have := h.here i
    rwa [hl] at this
  refine h.setBuf (h.not_queued hi (by rw [hl]; exact nofun)) hkey hvalid (fun _ => ?_) fun _ => ?_
  · rw [hbusy]
    exact h.busy i n hi
  · rw [hvalid]
    exact h.ready i n hi (by rw [hl]; exact nofun)

theorem Inv.leave (hl : ls i = .own n) : Inv (update ls i .out) s :=
  h.relabel trivial (fun m _ hm => by rw [hl] at hm; cases hm) fun m hm => by rw [hl] at hm; cases hm

end

end Steps

/-! ## Threads -/

section Threads

def anything (_ : Stop) (_ : State ι) : Prop := True

abbrev Thread {α : Type} (i : ι) (Q : α → Loc → Prop) (p : P ι α) (l : Loc) : Prop :=
  Safe (fun _ s => s) Inv anything i Q p l

theorem Inv.at (h : Inv ls s) (hl : ls i = l) : At s i l := hl ▸ h.here i

theorem thread_fetch (i : ι) (n : Fin NBUF) (k : Key) :
    Thread i (fun _ l => l = .hit n k) (iderw n) (.got n k) := by
  refine Safe.atom_bind (g := fun _ => .wait n k) ?_ fun _ => Safe.atom (g := fun _ => .hit n k) ?_ fun _ => rfl
  · intro ls s hl h
    have hat : At s i (.got n k) := h.at hl
    exact wp_iderwStart h hat.1 (l := .wait n k) hat rfl (by rw [hl]; rfl) (by rw [hl]; exact fun _ => id)
      fun _ _ => trivial
  · intro ls s hl h
    have hat : At s i (.wait n k) := h.at hl
    refine wp_iderwWait h (by rw [hl]; rfl) (fun m hm => ?_) (fun hv => ⟨hat.1, hat.2, hv⟩) fun _ _ => trivial
    rw [hl] at hm
    exact (Option.some.inj hm).symm

theorem thread_flush (i : ι) (n : Fin NBUF) : Thread i (fun _ l => l = .own n) (iderw n) (.own n) := by
  refine Safe.atom_bind (g := fun _ => .flush n) ?_ fun _ => Safe.atom (g := fun _ => .own n) ?_ fun _ => rfl
  · intro ls s hl h
    have hat : At s i (.own n) := h.at hl
    exact wp_iderwStart h hat (l := .flush n) hat rfl (by rw [hl]; rfl) (by rw [hl]; exact nofun)
      fun _ _ => trivial
  · intro ls s hl h
    have hat : At s i (.flush n) := h.at hl
    refine wp_iderwWait h (by rw [hl]; rfl) (fun m hm => ?_) (fun _ => hat) fun _ _ => trivial
    rw [hl] at hm
    cases hm

theorem thread_bread (i : ι) (dev blockno : UInt32) :
    Thread i (fun _ l => l = .out) (bread i dev blockno) .out := by
  refine Safe.atom_bind (g := fun n => .got n (dev, blockno)) ?_ fun n => ?_
  · intro ls s hl h
    exact wp_bget h hl dev blockno fun _ _ => trivial
  refine Safe.atom_bind (g := fun valid => if valid then .hit n (dev, blockno) else .got n (dev, blockno))
    ?_ fun valid => ?_
  · intro ls s hl h
    have hat : At s i (.got n (dev, blockno)) := h.at hl
    change Inv (update ls i (if (s.buf n).valid then .hit n (dev, blockno)
      else .got n (dev, blockno))) s
    cases hv : (s.buf n).valid with
    | true =>
      refine h.relabel ⟨hat.1, hat.2, hv⟩ (fun m _ hm => ?_) fun m hm => ?_
      · rw [hl] at hm
        cases hm
      · rw [hl] at hm
        rw [← Option.some.inj hm]
        exact .inr hv
    | false =>
      rw [show (if false = true then Loc.hit n (dev, blockno) else .got n (dev, blockno)) = ls i from hl.symm,
        update_eq_self]
      exact h
  have hreturn : Thread i (fun _ l => l = .out) (Prog.atom (modify fun s : State ι =>
      s.emit (.returned n (dev, blockno) (s.buf n).valid))) (.hit n (dev, blockno)) := by
    refine Safe.atom (g := fun _ => .out) ?_ fun _ => rfl
    intro ls s hl h
    have hat : At s i (.hit n (dev, blockno)) := h.at hl
    have hemit := h.emit_returned hat.2.2
    rw [hat.2.1] at hemit
    change Inv (update ls i .out) (s.emit (.returned n (dev, blockno) (s.buf n).valid))
    rw [hat.2.2]
    refine hemit.relabel trivial (fun m _ hm => ?_) fun m hm => ?_
    · rw [hl] at hm
      cases hm
    · rw [hl] at hm
      cases hm
  cases valid with
  | true => exact hreturn
  | false =>
    refine Safe.bind ((thread_fetch i n (dev, blockno)).mono ?_)
    rintro _ l rfl
    exact hreturn

theorem thread_bwrite (i : ι) (n : Fin NBUF) : Thread i (fun _ l => l = .own n) (bwrite n) (.own n) := by
  refine Safe.atom_bind (g := fun _ => .own n) ?_ fun _ => thread_flush i n
  intro ls s hl h
  rw [← hl, update_eq_self]
  unfold markDirty
  simp only [wp_bind, wp_get, wp_ite, wp_throw, wp_set]
  exact ⟨fun _ => trivial, fun _ => h.store hl rfl rfl rfl⟩

theorem thread_change (i : ι) (n : Fin NBUF) (f : Block → Block) :
    Thread i (fun _ l => l = .own n) (Prog.atom (change n f)) (.own n) := by
  refine Safe.atom (g := fun _ => .own n) ?_ fun _ => rfl
  intro ls s hl h
  rw [← hl, update_eq_self]
  exact h.store hl rfl rfl rfl

theorem thread_pin (i : ι) (n : Fin NBUF) :
    Thread i (fun _ l => l = .own n) (Prog.atom (pin n)) (.own n) := by
  refine Safe.atom (g := fun _ => .own n) ?_ fun _ => rfl
  intro ls s hl h
  rw [← hl, update_eq_self]
  exact h.store hl rfl rfl rfl

theorem thread_brelse (i : ι) (n : Fin NBUF) :
    Thread i (fun _ l => l = .out) (Prog.atom (brelse i n)) (.own n) := by
  refine Safe.atom (g := fun _ => .out) ?_ fun _ => rfl
  intro ls s hl h
  have hi : s.held i n = true := h.at hl
  have hn := h.not_queued hi (by simp [hl, Loc.waits])
  unfold brelse
  simp only [wp_bind, wp_get, wp_ite, wp_throw, wp_set]
  refine ⟨fun _ => trivial, fun _ => ?_⟩
  have hdrop := (h.leave hl).drop (n := n) (update_self ..)
  -- nobody has the buffer any more when it stops being busy
  have hset := hdrop.setBuf (b := { s.buf n with busy := false }) hn rfl rfl
    ?_ (h.clean n)
  · exact ⟨⟨hset.excl, hset.busy, hset.nodup, hset.queued, hset.waiting, hset.ready, hset.clean, hset.here,
      hset.status, hset.returned⟩, hset.device⟩
  · rintro ⟨j, hj⟩
    refine absurd hj ?_
    by_cases hji : j = i
    · simp [State.hold, hji]
    · rw [hold_of_ne (.inl hji)]
      exact fun hj => hji (h.excl j i n hj hi)

theorem thread_complete (i : ι) (err : Bool) (noise : Key × Block) :
    Thread i (fun _ l => l = .out) (Prog.atom (complete err noise)) .out := by
  refine Safe.atom (g := fun _ => .out) ?_ fun _ => rfl
  intro ls s hl h
  rw [← hl, update_eq_self]
  exact wp_complete h err noise fun _ _ => trivial

theorem thread_ideintr (i : ι) : Thread i (fun _ l => l = .out) (Prog.atom ideintr) .out := by
  refine Safe.atom (g := fun _ => .out) ?_ fun _ => rfl
  intro ls s hl h
  rw [← hl, update_eq_self]
  exact wp_ideintr h fun _ _ => trivial

def Loc.Idle (l : Loc) : Prop := l.waits = none ∧ l.reads = none

theorem Inv.call (h : Inv ls s) (hidle : (ls i).Idle) (hat : At s i l) : Inv (update ls i l) s :=
  h.relabel hat (fun m _ hm => by rw [hidle.1] at hm; cases hm) fun m hm => by rw [hidle.2] at hm; cases hm

theorem Op.thread (op : Op) (h : Inv ls s) (hidle : (ls i).Idle) (hop : op.Allowed s i) :
    ∃ l, Inv (update ls i l) s ∧ Thread i (fun _ l => l.Idle) (op.prog i) l := by
  have hout : ∀ {l : Loc}, l = .out → l.Idle := by
    rintro _ rfl
    exact ⟨rfl, rfl⟩
  have hown : ∀ {n : Fin NBUF} {l : Loc}, l = .own n → l.Idle := by
    rintro n _ rfl
    exact ⟨rfl, rfl⟩
  cases op with
  | bread dev blockno => exact ⟨.out, h.call hidle trivial, (thread_bread i dev blockno).mono fun _ _ => hout⟩
  | change n f => exact ⟨.own n, h.call hidle hop, (thread_change i n f).mono fun _ _ => hown⟩
  | pin n => exact ⟨.own n, h.call hidle hop, (thread_pin i n).mono fun _ _ => hown⟩
  | bwrite n => exact ⟨.own n, h.call hidle hop, (thread_bwrite i n).mono fun _ _ => hown⟩
  | brelse n => exact ⟨.own n, h.call hidle hop, (thread_brelse i n).mono fun _ _ => hout⟩
  | complete err noise =>
    exact ⟨.out, h.call hidle trivial, (thread_complete i err noise).mono fun _ _ => hout⟩
  | ideintr => exact ⟨.out, h.call hidle trivial, (thread_ideintr i).mono fun _ _ => hout⟩

theorem inv_boot (disk : Key → Block) : Inv (fun _ : ι => .out) (boot disk) where
  excl := fun i j n hi => nomatch hi
  busy := fun i n hi => nomatch hi
  nodup := nodup_nil
  queued := fun n hn => nomatch hn
  waiting := fun n hn => nomatch hn
  ready := fun i n hi => nomatch hi
  clean := fun n hn => nomatch hn
  here := fun i => trivial
  status := fun n => ⟨rfl, fun _ => ⟨not_mem_nil, fun k => not_mem_nil⟩, fun hv => nomatch hv⟩
  returned := by
    intro before after n k v h
    simp [boot] at h
  device := rfl

theorem Runs.inv {disk : Key → Block} {c : Config ι Stop (State ι)} (h : Runs (system disk) c) :
    ∃ ls, Inv ls c.state := by
  have hsafe := Safe.reaches (I := Inv) (E := anything) (Q := fun _ _ l => Loc.Idle l)
    (fun i p ls s hI hidle hp => by
      obtain ⟨op, hop, rfl⟩ := hp
      exact op.thread hI hidle hop) h ⟨fun _ => .out, inv_boot disk, fun i => ⟨rfl, rfl⟩⟩
  obtain ⟨ls, hI, -⟩ := hsafe
  exact ⟨ls, hI⟩

end Threads

/-! ## What `bread` returns -/

/-- Along any run, with errors in any command: a buffer that `bread` returns has data of its block exactly
if the read of the block did not fail, or the block has been written since. -/
theorem bread_genuine_iff {disk : Key → Block} {c : Config ι Stop (State ι)} (h : Runs (system disk) c)
    {before after : List Event} {v : Bool} (htr : c.state.trace = before ++ .returned n k v :: after) :
    v = true ∧ block n before = k ∧
      (Genuine n k before ↔ (.failed n ∉ since n before ∨ .written n (sector k) ∈ since n before)) := by
  obtain ⟨ls, hI⟩ := h.inv
  obtain ⟨hv, hblock, hread⟩ := hI.returned before after n k v htr
  refine ⟨hv, hblock, ?_⟩
  unfold Genuine
  rw [hread]
  exact and_iff_right hblock

/-! ## A first read -/

section FirstRead

variable (disk : Key → Block) (err : Bool)

theorem lookup_boot : (boot disk : State ι).lookup 1 5 = none := by
  refine List.find?_eq_none.2 fun n _ => ?_
  simp [boot, NODEV]

theorem victim_boot : (boot disk : State ι).victim = some 0 := rfl

def assigned : State Bool :=
  (((boot disk).setBuf 0 ⟨1, 5, true, false, false, .zero⟩).hold true 0 true).emit (.assigned 0 (1, 5))

def asked : State Bool :=
  { assigned disk with
    queue := [0]
    device := .busy (sector (1, 5)) none }

def raised : State Bool :=
  { asked disk with
    device := .raised (sector (1, 5)) none err
    reg := if err then ((0, 0), .zero) else (sector (1, 5), disk (sector (1, 5))) }

def served : State Bool :=
  { (assigned disk).setBuf 0 ⟨1, 5, true, true, false, if err then .zero else disk (sector (1, 5))⟩ with
    reg := if err then ((0, 0), .zero) else (sector (1, 5), disk (sector (1, 5)))
    trace := [.assigned 0 (1, 5), if err then .failed 0 else .loaded 0 (sector (1, 5))] }

theorem bget_boot : bget true 1 5 (boot disk) = .ok 0 (assigned disk) := by
  have h : wp (bget true 1 5) (fun n s => n = 0 ∧ s = assigned disk) (fun _ _ => False) (boot disk) := by
    unfold bget
    simp only [wp_bind, wp_get, lookup_boot, victim_boot, wp_set, wp_pure]
    exact ⟨trivial, rfl⟩
  obtain ⟨n, s, hrun, rfl, rfl⟩ := wp_exists_ok h
  exact hrun

theorem iderwStart_assigned : iderwStart 0 (assigned disk) = .ok () (asked disk) := rfl

theorem complete_asked : complete err ((0, 0), .zero) (asked disk) = .ok () (raised disk err) := rfl

theorem ideintr_raised : ideintr (raised disk err) = .ok () (served disk err) := by
  cases err <;> rfl

theorem Runs.steps {c : Config ι Stop (State ι)} {p' : P ι Unit} (op : Op) (ht : c.thread i = .ret ())
    (hop : op.Allowed c.state i) (h : Prog.Steps (op.prog i) c.state p' s') :
    Runs c ⟨s', update c.thread i p'⟩ := by
  have hcall : Step (fun _ s => s) menu c ⟨c.state, update c.thread i (op.prog i)⟩ :=
    .call ht ⟨op, hop, rfl⟩
  have hsteps : Runs ⟨c.state, update c.thread i (op.prog i)⟩
      ⟨s', update (update c.thread i (op.prog i)) i p'⟩ :=
    Reaches.of_steps h (update_self ..) rfl
  rw [update_idem] at hsteps
  exact .head hcall hsteps

theorem runs_first : ∃ c, Runs (system disk : Config Bool Stop (State Bool)) c ∧
    c.state = (served disk err).emit (.returned 0 (1, 5) true) := by
  let rest : P Bool Unit := Prog.atom (iderwWait 0) >>= fun _ =>
    Prog.atom (modify fun s => s.emit (.returned 0 (1, 5) (s.buf 0).valid))
  let th : Bool → P Bool Unit := update (fun _ => .ret ()) true rest
  have hasked : Prog.Steps (bread true 1 5) (boot disk) rest (asked disk) :=
    .step (bget_boot disk) (.step (b := false) rfl (.step (iderwStart_assigned disk) (.refl _ _)))
  have hserved : Prog.Steps rest (served disk err) (.ret ()) ((served disk err).emit (.returned 0 (1, 5) true)) :=
    .step rfl (.step rfl (.refl _ _))
  have h₁ : Runs (system disk) ⟨asked disk, th⟩ := Runs.steps (.bread 1 5) rfl trivial hasked
  have h₂ : Runs ⟨asked disk, th⟩ ⟨raised disk err, update th false (.ret ())⟩ :=
    Runs.steps (.complete err ((0, 0), .zero)) rfl trivial (.step (complete_asked disk err) (.refl _ _))
  have h₃ : Runs ⟨raised disk err, update th false (.ret ())⟩
      ⟨served disk err, update (update th false (.ret ())) false (.ret ())⟩ :=
    Runs.steps .ideintr rfl trivial (.step (ideintr_raised disk err) (.refl _ _))
  exact ⟨_, (h₁.trans h₂).trans (h₃.trans (Reaches.of_steps (i := true) hserved rfl rfl)), rfl⟩

theorem bread_genuine_iff_first : ∃ c : Config Bool Stop (State Bool), Runs (system fun _ => .zero) c ∧
    Genuine 0 (1, 5) [.assigned 0 (1, 5), .loaded 0 (sector (1, 5))] := by
  obtain ⟨c, hc, hstate⟩ := runs_first (fun _ => .zero) false
  have htr : c.state.trace = [.assigned 0 (1, 5), .loaded 0 (sector (1, 5))] ++ .returned 0 (1, 5) true :: [] := by
    rw [hstate]
    rfl
  exact ⟨c, hc, (bread_genuine_iff hc htr).2.2.2 (.inl (by decide))⟩

/-- The first read of a block fails: `bread` returns the buffer as valid with its old contents. -/
theorem failed_read_returned : ∃ (disk : Key → Block) (c : Config Bool Stop (State Bool))
    (before : List Event), Runs (system disk) c ∧ c.state.trace = before ++ [.returned 0 (1, 5) true] ∧
      ¬ Genuine 0 (1, 5) before ∧ (c.state.buf 0).data ≠ disk (sector (1, 5)) := by
  obtain ⟨c, hc, hstate⟩ := runs_first (fun _ _ => 1) true
  refine ⟨_, c, [.assigned 0 (1, 5), .failed 0], hc, by rw [hstate]; rfl, ?_, ?_⟩
  · rintro ⟨-, h | h⟩
    · revert h
      decide
    · revert h
      decide
  · rw [hstate]
    intro h
    exact absurd (congrFun h 0) (show (0 : UInt8) ≠ 1 by decide)

end FirstRead

end Xv6.Bio.DiskErrors
