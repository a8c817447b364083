import Xv6.BufferCache
import Xv6.LogBudget

/-!
# What holds of the buffers

The invariant of the buffer cache under disciplined use: no block is cached twice, a buffer is busy
exactly if one process holds it, and what `bread` would return for a block is what was released for
it last. A thread is annotated with the gap it is in inside `bread`, `bwrite` or `log_write`, with the
stage of the commit it runs, and with the buffers that the rest of its program relies on.
-/

namespace Xv6.Bio

open Resumption ByteLayout Function List Finset Option Bool

/-! ## Histories -/

/-- The data most recently released for block `k`, or its initial contents. -/
def latest (d : Key → Block) (tr : List Event) (k : Key) : Block :=
  tr.foldl (fun x e =>
    match e with
    | .released k' y => if k' = k then y else x
    | .returned _ _ => x) (d k)

/-- Whatever `bread` has returned was the latest version. -/
def Faithful (d : Key → Block) (tr : List Event) : Prop :=
  ∀ before after k x, tr = before ++ .returned k x :: after → x = latest d before k

section History

variable {d : Key → Block} {tr : List Event} {k k' : Key} {x : Block}

theorem latest_returned : latest d (tr ++ [.returned k' x]) k = latest d tr k := by
  unfold latest
  rw [foldl_append]
  rfl

theorem latest_released : latest d (tr ++ [.released k' x]) k = if k' = k then x else latest d tr k := by
  unfold latest
  rw [foldl_append]
  rfl

theorem Faithful.append {e : Event} (h : Faithful d tr)
    (he : ∀ k x, e = .returned k x → x = latest d tr k) : Faithful d (tr ++ [e]) := by
  intro before after k x heq
  rcases eq_nil_or_concat after with rfl | ⟨rest, y, rfl⟩
  · obtain ⟨rfl, hlast⟩ := append_inj' heq rfl
    exact he k x (singleton_inj.mp hlast)
  · have hsplit : tr ++ [e] = (before ++ .returned k x :: rest) ++ [y] := by
      rw [heq, concat_eq_append, append_assoc, cons_append]
    exact h before rest k x (append_inj' hsplit rfl).1

theorem Faithful.returned (h : Faithful d tr) : Faithful d (tr ++ [.returned k (latest d tr k)]) :=
  h.append fun k' x he => by cases he; rfl

theorem Faithful.released (h : Faithful d tr) : Faithful d (tr ++ [.released k x]) :=
  h.append fun k' x he => by cases he

end History

/-! ## Locations -/

/-- The gap between the two halves of `bread`, `bwrite` or `log_write`, or the one before `begin_op` or
`end_op`. -/
inductive Pc
  | rest
  | entering
  | leaving
  | filling (n : Fin NBUF)
  | flushing (n : Fin NBUF)
  | logging (n : Fin NBUF)

inductive Stage
  | copying
  | installing (lh : List UInt32) (j : ℕ)

structure Loc where
  pc : Pc
  stage : Option Stage
  hands : Fin NBUF → Option (Mode × Key)

/-! ## The invariant -/

section Invariant

variable {ι : Type} {s s' : State ι} {ls : ι → Loc} {d : Key → Block} {i : ι} {n : Fin NBUF} {b b' : Buf}
  {m m' : Mode} {l l' : Loc}

/-- The buffer can be given to anybody and, unless it is dirty, be recycled. -/
structure Settled (d : Key → Block) (s : State ι) (b : Buf) : Prop where
  data : b.valid = true → b.data = latest d s.trace b.key
  disk : b.dirty = true ∨ s.disk b.key = latest d s.trace b.key

def ModeOk (d : Key → Block) (s : State ι) (b : Buf) : Mode → Prop
  | .fetched => Settled d s b
  | .modified => True
  | .logged => b.dirty = true
  | .written => s.disk b.key = b.data
  | .rewritten => True

def PcOk (s : State ι) (i : ι) : Pc → Prop
  | .rest => True
  | .entering => s.inOp i = false
  | .leaving => s.inOp i = true
  | .filling n => s.held i n = some .fetched
  | .flushing n => s.held i n ≠ none
  | .logging n => s.held i n ≠ none ∧ s.inOp i = true ∧ (s.buf n).dev = logDev

/-- The blocks that wait for the log: during `install_trans`, those behind the installed ones. -/
def Waiting (ls : ι → Loc) (s : State ι) (b : UInt32) : Prop :=
  b ∈ s.log.lh ∧ ∀ i lh j, (ls i).stage = some (.installing lh j) → b ∈ lh.drop j

structure Inv (d : Key → Block) (ls : ι → Loc) (s : State ι) : Prop where
  mru : ∀ n, n ∈ s.mru
  dev : ∀ n, (s.buf n).dev < 2 ∨
    (s.buf n).dev = NODEV ∧ (s.buf n).busy = false ∧ (s.buf n).dirty = false
  unique : ∀ n n', (s.buf n).dev < 2 → (s.buf n).key = (s.buf n').key → n = n'
  busy : ∀ n, (s.buf n).busy = true ↔ ∃ i, s.held i n ≠ none
  holder : ∀ i j n, s.held i n ≠ none → s.held j n ≠ none → i = j
  valid : ∀ n, (s.buf n).dev < 2 → (s.buf n).valid = true ∨ ∃ i, (ls i).pc = .filling n
  dirty : ∀ n, (s.buf n).dirty = true → (s.buf n).valid = true
  held : ∀ n i m, s.held i n = some m → ModeOk d s (s.buf n) m
  free : ∀ n, (s.buf n).dev < 2 → (s.buf n).busy = false → Settled d s (s.buf n)
  uncached : ∀ k : Key, k.1 < 2 → (∀ n, (s.buf n).key ≠ k) → s.disk k = latest d s.trace k
  listed : ∀ n, (s.buf n).dirty = true → (∃ i, (ls i).pc = .flushing n) ∨
    (s.buf n).dev = logDev ∧ Waiting ls s (s.buf n).blockno
  hands : ∀ i n m k, (ls i).hands n = some (m, k) → s.held i n = some m ∧ (s.buf n).key = k
  pc : ∀ i, PcOk s i (ls i).pc
  ops : ∃ F : Finset ι, (∀ i, i ∈ F ↔ s.inOp i = true) ∧ F.card = s.log.outstanding
  closed : s.log.committing = true → s.log.outstanding = 0
  stage : ∀ i, (ls i).stage ≠ none → s.log.committing = true
  single : ∀ i j, (ls i).stage ≠ none → (ls j).stage ≠ none → i = j
  lh : ∀ i lh j, (ls i).stage = some (.installing lh j) → s.log.lh = lh
  trace : Faithful d s.trace

theorem sector_eq (h : b.dev < 2) : b.sector = b.key := by
  have hlt : b.dev.toNat < 2 := UInt32.lt_iff_toNat_lt.mp h
  have hand : b.dev &&& 1 = b.dev := by
    apply UInt32.toNat_inj.mp
    rw [UInt32.toNat_and]
    change b.dev.toNat &&& (2 ^ 1 - 1) = _
    rw [Nat.and_two_pow_sub_one_eq_mod]
    omega
  unfold Buf.sector Buf.key
  rw [hand]

section

variable (h : Inv d ls s)
include h

theorem Inv.busy_of_held (hm : s.held i n = some m) : (s.buf n).busy = true :=
  (h.busy n).mpr ⟨i, by rw [hm]; simp⟩

theorem Inv.dev_of_held (hm : s.held i n = some m) : (s.buf n).dev < 2 := by
  rcases h.dev n with hd | ⟨-, hb, -⟩
  · exact hd
  · rw [h.busy_of_held hm] at hb
    cases hb

theorem Inv.not_committing (hi : s.inOp i = true) : s.log.committing = false := by
  by_contra hc
  obtain ⟨F, hF, hcard⟩ := h.ops
  rw [h.closed (by simpa using hc), card_eq_zero] at hcard
  have := (hF i).mpr hi
  rw [hcard] at this
  exact absurd this (notMem_empty i)

theorem Inv.no_stage (hi : s.inOp i = true) (j : ι) : (ls j).stage = none := by
  by_contra hj
  have := h.stage j hj
  rw [h.not_committing hi] at this
  cases this

end

theorem Settled.congr (h : Settled d s b) (hdisk : s'.disk b.key = s.disk b.key)
    (hlatest : latest d s'.trace b.key = latest d s.trace b.key) : Settled d s' b :=
  ⟨fun hv => by rw [hlatest]; exact h.data hv, by rw [hdisk, hlatest]; exact h.disk⟩

theorem ModeOk.congr (h : ModeOk d s b m) (hdisk : s'.disk b.key = s.disk b.key)
    (hlatest : latest d s'.trace b.key = latest d s.trace b.key) : ModeOk d s' b m := by
  cases m with
  | fetched => exact Settled.congr h hdisk hlatest
  | modified => trivial
  | logged => exact h
  | written => exact hdisk.trans h
  | rewritten => trivial

theorem Inv.key_ne {n' : Fin NBUF} (h : Inv d ls s) (hn : (s.buf n).dev < 2) (hne : n' ≠ n) :
    (s.buf n').key ≠ (s.buf n).key := fun hk => hne (h.unique n n' hn hk.symm).symm

theorem PcOk.congr {pc : Pc} (h : PcOk s j pc) (hop : s'.inOp j = s.inOp j)
    (hheld : ∀ n, s'.held j n = s.held j n)
    (hbuf : ∀ n, s.held j n ≠ none → (s'.buf n).dev = (s.buf n).dev) : PcOk s' j pc := by
  cases pc with
  | rest => trivial
  | entering => exact hop.trans h
  | leaving => exact hop.trans h
  | filling n => exact (hheld n).trans h
  | flushing n => exact fun hc => h ((hheld n).symm.trans hc)
  | logging n =>
    exact ⟨fun hc => h.1 ((hheld n).symm.trans hc), hop.trans h.2.1, (hbuf n h.1).trans h.2.2⟩

section Steps

variable [DecidableEq ι]

variable {o : Option Mode} {k : Key} {hands : Fin NBUF → Option (Mode × Key)} {dev blockno : UInt32}
  {st : Stage} {lh : List UInt32}

theorem stage_update (hstage : l'.stage = (ls i).stage) (j : ι) : (update ls i l' j).stage = (ls j).stage := by
  by_cases hj : j = i
  · rw [hj, update_self, hstage]
  · rw [update_of_ne hj]

section

variable (h : Inv d ls s)
include h

/-- Process `i` changes buffer `n`, which it holds or takes: its data and flags, the disk block under
it, and perhaps the block it is for. Afterwards `i` holds it in mode `m'`, or not at all. -/
theorem Inv.replace (hmine : ∀ j, j ≠ i → s.held j n = none)
    (hbuf : s'.buf = update s.buf n b') (hdev : b'.dev < 2)
    (hkey : b'.key = (s.buf n).key ∨ (∀ n', (s.buf n').key ≠ b'.key) ∧
      ((s.buf n).dev < 2 → s.disk (s.buf n).key = latest d s.trace (s.buf n).key))
    (hbusy : b'.busy = o.isSome) (hmru : ∀ a, a ∈ s'.mru)
    (hdisk : ∀ k, k ≠ b'.key → s'.disk k = s.disk k)
    (hlatest : ∀ k, k ≠ b'.key → latest d s'.trace k = latest d s.trace k)
    (hheld : s'.held = update s.held i (update (s.held i) n o))
    (hops : s'.inOp = s.inOp) (hlog : s'.log = s.log) (htrace : Faithful d s'.trace)
    (hmode : ∀ a, o = some a → ModeOk d s' b' a) (hfree : o = none → Settled d s' b')
    (hvalid : b'.valid = true ∨ l'.pc = .filling n) (hdirty : b'.dirty = true → b'.valid = true)
    (hlisted : b'.dirty = true →
      l'.pc = .flushing n ∨ b'.dev = logDev ∧ Waiting ls s b'.blockno)
    (hold : ∀ n', (ls i).pc = .filling n' ∨ (ls i).pc = .flushing n' → n' = n)
    (hstage : l'.stage = (ls i).stage)
    (hhands : ∀ n' a k, l'.hands n' = some (a, k) →
      n' = n ∧ o = some a ∧ k = b'.key ∨ n' ≠ n ∧ (ls i).hands n' = some (a, k))
    (hpc : PcOk s' i l'.pc) : Inv d (update ls i l') s' := by
  have hself : s'.buf n = b' := by rw [hbuf, update_self]
  have hother : ∀ n', n' ≠ n → s'.buf n' = s.buf n' := fun n' hn => by
    rw [hbuf, update_of_ne hn]
  have hfresh : ∀ n', n' ≠ n → (s.buf n').key ≠ b'.key := by
    intro n' hn
    rcases hkey with hk | ⟨hk, -⟩
    · rw [hk]
      have hold : (s.buf n).dev < 2 := by
        rw [← show b'.dev = (s.buf n).dev from congrArg Prod.fst hk]
        exact hdev
      exact h.key_ne hold hn
    · exact hk n'
  have hkeep : ∀ j n', j ≠ i ∨ n' ≠ n → s'.held j n' = s.held j n' := by
    intro j n' hne
    rw [hheld]
    by_cases hj : j = i
    · subst hj
      rw [update_self, update_of_ne (hne.resolve_left fun hc => hc rfl)]
    · rw [update_of_ne hj]
  have hgiven : s'.held i n = o := by rw [hheld, update_self, update_self]
  have hnone : ∀ j, j ≠ i → s'.held j n = none := fun j hj => by
    rw [hkeep j n (.inl hj), hmine j hj]
  have hls : ∀ j, j ≠ i → update ls i l' j = ls j := fun j hj => update_of_ne hj ..
  have hli : update ls i l' i = l' := update_self ..
  have hstages := stage_update hstage
  have hwaiting : ∀ b, Waiting ls s b → Waiting (update ls i l') s' b := by
    rintro b ⟨hb, hall⟩
    refine ⟨by rw [hlog]; exact hb, fun j lh a ha => ?_⟩
    rw [hstages] at ha
    exact hall j lh a ha
  refine ⟨hmru, ?_, ?_, ?_, ?_, ?_, ?_, ?_, ?_, ?_, ?_, ?_, ?_, ?_, ?_, ?_, ?_, ?_, htrace⟩
  · intro n'
    by_cases hn : n' = n
    · left
      rw [hn, hself]
      exact hdev
    · rw [hother n' hn]
      exact h.dev n'
  · intro a a' ha hk
    by_cases han : a = n
    · by_cases han' : a' = n
      · rw [han, han']
      · rw [han, hself, hother a' han'] at hk
        exact (hfresh a' han' hk.symm).elim
    · rw [hother a han] at ha hk
      by_cases han' : a' = n
      · rw [han', hself] at hk
        exact (hfresh a han hk).elim
      · rw [hother a' han'] at hk
        exact h.unique a a' ha hk
  · intro n'
    by_cases hn : n' = n
    · rw [hn, hself, hbusy, isSome_iff_ne_none]
      constructor
      · exact fun ho => ⟨i, by rw [hgiven]; exact ho⟩
      · rintro ⟨j, hj⟩
        by_cases hji : j = i
        · rwa [hji, hgiven] at hj
        · exact (hj (hnone j hji)).elim
    · rw [hother n' hn, h.busy]
      exact exists_congr fun j => by rw [hkeep j n' (.inr hn)]
  · intro a a' n' ha ha'
    by_cases hn : n' = n
    · subst hn
      have hi : ∀ j, s'.held j n' ≠ none → j = i := fun j hj => by
        by_contra hji
        exact hj (hnone j hji)
      rw [hi a ha, hi a' ha']
    · rw [hkeep a n' (.inr hn)] at ha
      rw [hkeep a' n' (.inr hn)] at ha'
      exact h.holder a a' n' ha ha'
  · intro n' hn'
    by_cases hn : n' = n
    · rw [hn, hself]
      exact hvalid.imp id fun hp => ⟨i, by rw [hli, hp]⟩
    · rw [hother n' hn] at hn' ⊢
      refine (h.valid n' hn').imp id ?_
      rintro ⟨j, hj⟩
      have hji : j ≠ i := by
        rintro rfl
        exact hn (hold n' (.inl hj))
      exact ⟨j, by rw [hls j hji, hj]⟩
  · intro n' hd
    by_cases hn : n' = n
    · rw [hn, hself] at hd ⊢
      exact hdirty hd
    · rw [hother n' hn] at hd ⊢
      exact h.dirty n' hd
  · intro n' j a ha
    by_cases hn : n' = n
    · subst hn
      have hj : j = i := by
        by_contra hji
        rw [hnone j hji] at ha
        cases ha
      rw [hj, hgiven] at ha
      rw [hself]
      exact hmode a ha
    · rw [hkeep j n' (.inr hn)] at ha
      rw [hother n' hn]
      exact (h.held n' j a ha).congr (hdisk _ (hfresh n' hn)) (hlatest _ (hfresh n' hn))
  · intro n' hd hb
    by_cases hn : n' = n
    · rw [hn, hself] at hb ⊢
      rw [hbusy] at hb
      exact hfree (isNone_iff_eq_none.mp (by simpa using hb))
    · rw [hother n' hn] at hd hb ⊢
      exact (h.free n' hd hb).congr (hdisk _ (hfresh n' hn)) (hlatest _ (hfresh n' hn))
  · intro k hk hno
    have hne : k ≠ b'.key := by
      rintro rfl
      exact hno n (by rw [hself])
    rw [hdisk k hne, hlatest k hne]
    by_cases hold : (s.buf n).key = k
    · rcases hkey with hsame | ⟨-, hdisk⟩
      · exact (hne (hold.symm.trans hsame.symm)).elim
      · rw [← hold]
        exact hdisk (by rw [← hold] at hk; exact hk)
    · refine h.uncached k hk fun n' => ?_
      by_cases hn : n' = n
      · rw [hn]
        exact hold
      · rw [← hother n' hn]
        exact hno n'
  · intro n' hd
    by_cases hn : n' = n
    · rw [hn, hself] at hd ⊢
      rcases hlisted hd with hfl | ⟨h₁, h₂⟩
      · exact .inl ⟨i, by rw [hli, hfl]⟩
      · exact .inr ⟨h₁, hwaiting _ h₂⟩
    · rw [hother n' hn] at hd ⊢
      rcases h.listed n' hd with ⟨j, hj⟩ | ⟨h₁, h₂⟩
      · have hji : j ≠ i := by
          rintro rfl
          exact hn (hold n' (.inr hj))
        exact .inl ⟨j, by rw [hls j hji, hj]⟩
      · exact .inr ⟨h₁, hwaiting _ h₂⟩
  · intro j n' a k ha
    by_cases hj : j = i
    · subst hj
      rw [hli] at ha
      rcases hhands n' a k ha with ⟨rfl, ho, rfl⟩ | ⟨hn, ha⟩
      · exact ⟨hgiven.trans ho, by rw [hself]⟩
      · rw [hkeep j n' (.inr hn), hother n' hn]
        exact h.hands j n' a k ha
    · rw [hls j hj] at ha
      obtain ⟨h₁, h₂⟩ := h.hands j n' a k ha
      have hn : n' ≠ n := by
        rintro rfl
        rw [hmine j hj] at h₁
        cases h₁
      rw [hkeep j n' (.inr hn), hother n' hn]
      exact ⟨h₁, h₂⟩
  · intro j
    by_cases hj : j = i
    · rw [hj, hli]
      exact hpc
    · rw [hls j hj]
      refine (h.pc j).congr (congrFun hops j) (fun n' => hkeep j n' (.inl hj)) fun n' hn' => ?_
      rw [hother n']
      rintro rfl
      exact hn' (hmine j hj)
  · rw [hops, hlog]
    exact h.ops
  · rw [hlog]
    exact h.closed
  · intro j hj
    rw [hstages] at hj
    rw [hlog]
    exact h.stage j hj
  · intro j j' hj hj'
    rw [hstages] at hj hj'
    exact h.single j j' hj hj'
  · intro j lh a ha
    rw [hstages] at ha
    rw [hlog]
    exact h.lh j lh a ha

/-! ## Annotations -/

theorem Inv.relabel (hold : ∀ n', (ls i).pc ≠ .filling n' ∧ (ls i).pc ≠ .flushing n')
    (hpc : PcOk s i l'.pc) (hstage : l'.stage = (ls i).stage)
    (hhands : ∀ n m k, l'.hands n = some (m, k) → s.held i n = some m ∧ (s.buf n).key = k) :
    Inv d (update ls i l') s := by
  have hls : ∀ j, j ≠ i → update ls i l' j = ls j := fun j hj => update_of_ne hj ..
  have hli : update ls i l' i = l' := update_self ..
  have hstages := stage_update hstage
  have hwaiting : ∀ b, Waiting ls s b → Waiting (update ls i l') s b := by
    rintro b ⟨hb, hall⟩
    refine ⟨hb, fun j lh a ha => ?_⟩
    rw [hstages] at ha
    exact hall j lh a ha
  refine { h with valid := ?_, listed := ?_, hands := ?_, pc := ?_, stage := ?_, single := ?_, lh := ?_ }
  · intro n hn
    refine (h.valid n hn).imp id ?_
    rintro ⟨j, hj⟩
    have hji : j ≠ i := by
      rintro rfl
      exact (hold n).1 hj
    exact ⟨j, by rw [hls j hji, hj]⟩
  · intro n hd
    refine (h.listed n hd).imp ?_ fun hw => ⟨hw.1, hwaiting _ hw.2⟩
    rintro ⟨j, hj⟩
    have hji : j ≠ i := by
      rintro rfl
      exact (hold n).2 hj
    exact ⟨j, by rw [hls j hji, hj]⟩
  · intro j n m k hk
    by_cases hj : j = i
    · rw [hj, hli] at hk
      rw [hj]
      exact hhands n m k hk
    · rw [hls j hj] at hk
      exact h.hands j n m k hk
  · intro j
    by_cases hj : j = i
    · rw [hj, hli]
      exact hpc
    · rw [hls j hj]
      exact h.pc j
  · intro j hj
    rw [hstages] at hj
    exact h.stage j hj
  · intro j j' hj hj'
    rw [hstages] at hj hj'
    exact h.single j j' hj hj'
  · intro j lh a ha
    rw [hstages] at ha
    exact h.lh j lh a ha

theorem Inv.mine (hm : s.held i n = some m) : ∀ j, j ≠ i → s.held j n = none := by
  intro j hj
  by_contra hne
  exact hj (h.holder j i n hne (by rw [hm]; simp))

theorem Inv.valid_of_held (hm : s.held i n = some m)
    (hpc : (ls i).pc ≠ .filling n) : (s.buf n).valid = true := by
  rcases h.valid n (h.dev_of_held hm) with hv | ⟨j, hj⟩
  · exact hv
  · have hp := h.pc j
    rw [hj] at hp
    have hji : j = i := h.holder j i n (by rw [show s.held j n = _ from hp]; simp) (by rw [hm]; simp)
    rw [hji] at hj
    exact (hpc hj).elim

end

def Loc.fetching (l : Loc) (n : Fin NBUF) (k : Key) : Loc :=
  { l with pc := .filling n, hands := Function.update l.hands n (some (.fetched, k)) }

/-- The location of a thread that has brought its buffer `n` for block `k` to mode `m`. -/
def Loc.bring (l : Loc) (n : Fin NBUF) (m : Mode) (k : Key) : Loc :=
  { l with pc := .rest, hands := Function.update l.hands n (some (m, k)) }

def Loc.drop (l : Loc) (n : Fin NBUF) : Loc := { l with hands := Function.update l.hands n none }

theorem hands_update (n' : Fin NBUF) (a : Mode) (k' : Key)
    (hk : update hands n (o.map fun m => (m, k)) n' = some (a, k')) :
    n' = n ∧ o = some a ∧ k' = k ∨ n' ≠ n ∧ hands n' = some (a, k') := by
  by_cases hn : n' = n
  · left
    rw [hn, update_self] at hk
    obtain ⟨m, rfl, hm⟩ := map_eq_some_iff.mp hk
    cases hm
    exact ⟨hn, rfl, rfl⟩
  · rw [update_of_ne hn] at hk
    exact .inr ⟨hn, hk⟩

theorem hands_same (hn : hands n = some (m, k))
    (n' : Fin NBUF) (a : Mode) (k' : Key) (hk : hands n' = some (a, k')) :
    n' = n ∧ some m = some a ∧ k' = k ∨ n' ≠ n ∧ hands n' = some (a, k') := by
  rw [← update_eq_self n hands, hn] at hk
  exact hands_update (o := some m) n' a k' hk

theorem rest_ne (hpc : l.pc = .rest) (n' : Fin NBUF) : l.pc ≠ .filling n' ∧ l.pc ≠ .flushing n' := by
  rw [hpc]
  exact ⟨fun hc => (by cases hc), fun hc => (by cases hc)⟩

theorem rest_only (hpc : l.pc = .rest) (n' : Fin NBUF)
    (h : l.pc = .filling n' ∨ l.pc = .flushing n') : n' = n := by
  rcases h with hc | hc
  · exact ((rest_ne hpc n').1 hc).elim
  · exact ((rest_ne hpc n').2 hc).elim

theorem Inv.mode (h : Inv d ls s) (hk : (ls i).hands n = some (m, k)) :
    s.held i n = some m ∧ (s.buf n).key = k ∧ ModeOk d s (s.buf n) m := by
  obtain ⟨hm, hkey⟩ := h.hands i n m k hk
  exact ⟨hm, hkey, h.held n i m hm⟩

theorem Inv.waiting (h : Inv d ls s) (hm : s.held i n = some m) (hpc : (ls i).pc ≠ .flushing n)
    (hd : (s.buf n).dirty = true) : (s.buf n).dev = logDev ∧ Waiting ls s (s.buf n).blockno := by
  rcases h.listed n hd with ⟨j, hj⟩ | hw
  · have hp := h.pc j
    rw [hj] at hp
    have hji : j = i := h.holder j i n hp (by rw [hm]; simp)
    rw [hji] at hj
    exact (hpc hj).elim
  · exact hw

/-! ## bio.c -/

theorem lookup_some (h : s.lookup dev blockno = some n) : (s.buf n).key = (dev, blockno) := by
  have := List.find?_some h
  simp only [decide_eq_true_eq] at this
  exact Prod.ext this.1 this.2

theorem Inv.lookup_none (h : Inv d ls s) (hl : s.lookup dev blockno = none) :
    ∀ n, (s.buf n).key ≠ (dev, blockno) := by
  intro n hk
  have := List.find?_eq_none.mp hl n (h.mru n)
  simp only [decide_eq_true_eq] at this
  exact this ⟨congrArg Prod.fst hk, congrArg Prod.snd hk⟩

theorem wp_bget (h : Inv d ls s) (hpc : (ls i).pc = .rest) (hdev : dev < 2) :
    wp (bget i dev blockno) (fun n s' => (ls i).hands n = none ∧
      Inv d (update ls i ((ls i).fetching n (dev, blockno))) s') (fun _ _ => True) s := by
  have hhands : ∀ n n' a k, ((ls i).fetching n (dev, blockno)).hands n' = some (a, k) →
      n' = n ∧ some Mode.fetched = some a ∧ k = (dev, blockno) ∨
        n' ≠ n ∧ (ls i).hands n' = some (a, k) :=
    fun n n' a k hk => hands_update (o := some .fetched) n' a k hk
  have hheld : ∀ n, ((s.hold i n (some .fetched)).held i n) = some .fetched := fun n =>
    (congrFun (update_self i _ s.held) n).trans (update_self n _ _)
  have hnone : ∀ n, (∀ j, s.held j n = none) → (ls i).hands n = none := by
    intro n hn
    rw [eq_none_iff_forall_ne_some]
    rintro ⟨m, k⟩ hk
    have hm := (h.hands i n m k hk).1
    rw [hn i] at hm
    cases hm
  unfold bget
  simp only [wp_bind, wp_get]
  cases hl : s.lookup dev blockno with
  | some n =>
    have hkey := lookup_some hl
    have hn : (s.buf n).dev < 2 := by
      rw [show (s.buf n).dev = dev from congrArg Prod.fst hkey]
      exact hdev
    by_cases hb : (s.buf n).busy = true
    · simp only [hb, if_true, wp_throw]
    · have hb' : (s.buf n).busy = false := by simpa using hb
      simp only [hb', false_eq_true, if_false, wp_bind, wp_set, wp_pure]
      have hnobody : ∀ j, s.held j n = none := by
        intro j
        by_contra hj
        exact hb ((h.busy n).mpr ⟨j, hj⟩)
      have hset : Settled d s (s.buf n) := h.free n hn hb'
      refine ⟨hnone n hnobody, ?_⟩
      refine h.replace (n := n) (o := some .fetched) (fun j _ => hnobody j) rfl hn (.inl rfl) rfl
        h.mru (fun _ _ => rfl) (fun _ _ => rfl) rfl rfl rfl h.trace ?_ (by simp) (.inr rfl)
        (h.dirty n) ?_ (rest_only hpc) rfl ?_ (hheld n)
      · rintro a ⟨⟩
        exact ⟨hset.data, hset.disk⟩
      · intro hd
        refine .inr ?_
        rcases h.listed n hd with ⟨j, hj⟩ | hw
        · have hp := h.pc j
          rw [hj] at hp
          exact (hp (hnobody j)).elim
        · exact hw
      · intro n' a k hk
        have := hhands n n' a k hk
        rwa [← hkey] at this
  | none =>
    have hno := h.lookup_none hl
    cases hv : s.victim with
    | none => simp only [wp_throw]
    | some n =>
      simp only [wp_bind, wp_set, wp_pure]
      have hclean : (s.buf n).busy = false ∧ (s.buf n).dirty = false := by
        have := List.find?_some hv
        simpa only [decide_eq_true_eq] using this
      have hnobody : ∀ j, s.held j n = none := by
        intro j
        by_contra hj
        rw [(h.busy n).mpr ⟨j, hj⟩] at hclean
        cases hclean.1
      refine ⟨hnone n hnobody, ?_⟩
      refine h.replace (n := n) (o := some .fetched) (fun j _ => hnobody j) rfl hdev (.inr ⟨hno, ?_⟩) rfl
        h.mru (fun _ _ => rfl) (fun _ _ => rfl) rfl rfl rfl h.trace ?_ (by simp) (.inr rfl)
        (by simp) (by simp) (rest_only hpc) rfl (hhands n) (hheld n)
      · intro hn
        have hset := h.free n hn hclean.1
        refine hset.disk.resolve_left ?_
        rw [hclean.2]
        decide
      · rintro a ⟨⟩
        exact ⟨fun hc => (by cases hc), .inr (h.uncached (dev, blockno) hdev hno)⟩

theorem wp_iderw {R : Unit → State ι → Prop}
    (hread : (s.buf n).valid = false → (s.buf n).dirty = false →
      R () (s.setBuf n { s.buf n with valid := true, data := s.disk (s.buf n).sector }))
    (hwrite : (s.buf n).dirty = true →
      R () { s.setBuf n { s.buf n with valid := true, dirty := false } with
        disk := update s.disk (s.buf n).sector (s.buf n).data }) :
    wp (iderw n) R (fun _ _ => True) s := by
  unfold iderw
  simp only [wp_bind, wp_get]
  rw [wp_ite]
  refine ⟨fun _ => trivial, fun _ => ?_⟩
  rw [wp_ite]
  refine ⟨fun _ => trivial, fun hdo => ?_⟩
  rw [wp_ite]
  refine ⟨fun _ => trivial, fun _ => ?_⟩
  rw [wp_ite]
  refine ⟨fun _ => trivial, fun _ => ?_⟩
  rw [wp_ite]
  refine ⟨fun hd => hwrite hd, fun hd => ?_⟩
  have hclean : (s.buf n).dirty = false := by simpa using hd
  refine hread ?_ hclean
  by_contra hv
  exact hdo ⟨by simpa using hv, hclean⟩

theorem held_eq (hm : s.held i n = some m) :
    s.held = update s.held i (update (s.held i) n (some m)) := by
  rw [← hm, update_eq_self, update_eq_self]

section

variable (h : Inv d ls s)
include h

theorem wp_fill (hpc : (ls i).pc = .filling n) (hk : (ls i).hands n = some (.fetched, k)) :
    wp (fill n) (fun _ s' => Inv d (update ls i { ls i with pc := .rest }) s') (fun _ _ => True) s := by
  obtain ⟨hm, hkey, hset⟩ := h.mode hk
  have hdev := h.dev_of_held hm
  have hbusy := h.busy_of_held hm
  have hold : ∀ n', (ls i).pc = .filling n' ∨ (ls i).pc = .flushing n' → n' = n := by
    rintro n' (hc | hc)
    · rw [hpc] at hc
      cases hc
      rfl
    · rw [hpc] at hc
      cases hc
  have hlisted := h.waiting hm (by rw [hpc]; simp)
  rw [← hkey] at hk
  unfold fill
  simp only [wp_bind, wp_get]
  by_cases hv : (s.buf n).valid = true
  · simp only [hv, if_true, wp_pure, wp_modify]
    have hdata := hset.data hv
    have htrace : Faithful d (s.trace ++ [.returned (s.buf n).key (s.buf n).data]) := by
      rw [hdata]
      exact h.trace.returned
    refine h.replace (o := some .fetched) (h.mine hm) (update_eq_self n s.buf).symm hdev
      (.inl rfl) hbusy h.mru (fun _ _ => rfl) (fun _ _ => latest_returned) (held_eq hm) rfl rfl htrace ?_
      (by simp) (.inl hv) (h.dirty n) (fun hd => .inr (hlisted hd)) hold rfl (hands_same hk) trivial
    rintro a ⟨⟩
    exact hset.congr rfl latest_returned
  · have hv' : (s.buf n).valid = false := by simpa using hv
    have hclean : (s.buf n).dirty = false := by
      by_contra hd
      exact hv (h.dirty n (by simpa using hd))
    have hdisk : s.disk (s.buf n).sector = latest d s.trace (s.buf n).key := by
      rw [sector_eq hdev]
      refine hset.disk.resolve_left ?_
      rw [hclean]
      decide
    simp only [hv', false_eq_true, if_false, wp_bind]
    apply wp_iderw
    · intro _ _
      rw [wp_modify]
      have htrace : Faithful d (s.trace ++ [.returned (s.buf n).key (s.disk (s.buf n).sector)]) := by
        rw [hdisk]
        exact h.trace.returned
      have hself : (s.setBuf n { s.buf n with valid := true, data := s.disk (s.buf n).sector }).buf n =
          { s.buf n with valid := true, data := s.disk (s.buf n).sector } := update_self ..
      rw [hself]
      refine h.replace (o := some .fetched) (h.mine hm) rfl hdev (.inl rfl) hbusy h.mru (fun _ _ => rfl)
        (fun _ _ => latest_returned) (held_eq hm) rfl rfl htrace ?_ (by simp) (.inl rfl)
        (fun _ => rfl) (fun hd => .inr (hlisted hd)) hold rfl (hands_same hk) trivial
      rintro a ⟨⟩
      refine ⟨fun _ => ?_, .inr ?_⟩
      · exact hdisk.trans latest_returned.symm
      · have hhome : s.disk (s.buf n).key = s.disk (s.buf n).sector := by rw [sector_eq hdev]
        exact hhome.trans (hdisk.trans latest_returned.symm)
    · intro hd
      rw [hclean] at hd
      cases hd

theorem wp_markDirty (hpc : (ls i).pc = .rest) (hk : (ls i).hands n = some (m, k)) :
    wp (markDirty n) (fun _ s' => Inv d (update ls i { ls i with pc := .flushing n }) s')
      (fun _ _ => True) s := by
  obtain ⟨hm, hkey, hmode⟩ := h.mode hk
  have hdev := h.dev_of_held hm
  have hbusy := h.busy_of_held hm
  have hvalid := h.valid_of_held hm (rest_ne hpc n).1
  unfold markDirty
  simp only [wp_bind, wp_get, hbusy, true_eq_false, if_false, wp_set]
  refine h.replace (o := some m) (h.mine hm) rfl hdev (.inl rfl) rfl h.mru (fun _ _ => rfl)
    (fun _ _ => rfl) (held_eq hm) rfl rfl h.trace ?_ (by simp) (.inl hvalid)
    (fun _ => hvalid) (fun _ => .inl rfl) (rest_only hpc) rfl (hands_same (by rw [hk, ← hkey]; rfl)) ?_
  · rintro a ⟨⟩
    cases m with
    | fetched => exact ⟨hmode.data, .inl rfl⟩
    | modified => trivial
    | logged => rfl
    | written => exact hmode
    | rewritten => trivial
  · change s.held i n ≠ none
    rw [hm]
    simp

theorem wp_flush (hpc : (ls i).pc = .flushing n) (hk : (ls i).hands n = some (m, k)) :
    wp (flush i n) (fun _ s' => Inv d (update ls i ((ls i).bring n .written k)) s' ∧
      (s'.buf n).dirty = false ∧ s'.log = s.log) (fun _ _ => True) s := by
  obtain ⟨hm, hkey, hmode⟩ := h.mode hk
  have hdev := h.dev_of_held hm
  have hbusy := h.busy_of_held hm
  have hvalid := h.valid_of_held hm (by rw [hpc]; simp)
  unfold flush
  simp only [wp_bind, wp_modify]
  apply wp_iderw
  · intro hv
    rw [hvalid] at hv
    cases hv
  · intro _
    refine ⟨?_, ?_, rfl⟩
    · refine h.replace (o := some .written) (h.mine hm) rfl hdev (.inl rfl) hbusy h.mru ?_
        (fun _ _ => rfl) rfl rfl rfl h.trace ?_ (by simp) (.inl rfl) (fun _ => rfl)
        (by simp) ?_ rfl ?_ trivial
      · intro k' hk'
        exact update_of_ne (by rw [sector_eq hdev]; exact hk') ..
      · rintro a ⟨⟩
        change update s.disk (s.buf n).sector (s.buf n).data (s.buf n).key = (s.buf n).data
        rw [sector_eq hdev, update_self]
      · rintro n' (hc | hc)
        · rw [hpc] at hc
          cases hc
        · rw [hpc] at hc
          cases hc
          rfl
      · intro n' a k' hk'
        rw [← hkey] at hk'
        exact hands_update (o := some .written) n' a k' hk'
    · have hself : (s.setBuf n { s.buf n with valid := true, dirty := false }).buf n =
          { s.buf n with valid := true, dirty := false } := update_self ..
      change ((s.setBuf n { s.buf n with valid := true, dirty := false }).buf n).dirty = false
      rw [hself]

theorem wp_change {f : Block → Block} (hpc : (ls i).pc = .rest) (hk : (ls i).hands n = some (m, k)) :
    wp (change i n f) (fun _ s' => Inv d (update ls i ((ls i).bring n m.change k)) s')
      (fun _ _ => True) s := by
  obtain ⟨hm, hkey, hmode⟩ := h.mode hk
  have hdev := h.dev_of_held hm
  have hbusy := h.busy_of_held hm
  have hvalid := h.valid_of_held hm (rest_ne hpc n).1
  unfold change
  rw [wp_modify, hm]
  refine h.replace (o := some m.change) (h.mine hm) rfl hdev (.inl rfl) hbusy h.mru (fun _ _ => rfl)
    (fun _ _ => rfl) rfl rfl rfl h.trace ?_ nofun (.inl hvalid) (fun _ => hvalid)
    (fun hd => .inr (h.waiting hm (rest_ne hpc n).2 hd)) (rest_only hpc) rfl ?_ trivial
  · rintro a ⟨⟩
    cases m with
    | fetched => trivial
    | modified => trivial
    | logged => exact hmode
    | written => trivial
    | rewritten => trivial
  · intro n' a k' hk'
    rw [← hkey] at hk'
    exact hands_update (o := some m.change) n' a k' hk'

theorem wp_brelse (hpc : (ls i).pc = .rest)
    (hk : (ls i).hands n = some (m, k)) (hsaved : m.saved = true) :
    wp (brelse i n) (fun _ s' => Inv d (update ls i ((ls i).drop n)) s') (fun _ _ => True) s := by
  obtain ⟨hm, hkey, hmode⟩ := h.mode hk
  have hdev := h.dev_of_held hm
  have hbusy := h.busy_of_held hm
  have hvalid := h.valid_of_held hm (rest_ne hpc n).1
  have hmru : ∀ a, a ∈ n :: s.mru.erase n := by
    intro a
    by_cases han : a = n
    · rw [han]
      exact mem_cons_self
    · exact mem_cons_of_mem n ((mem_erase_of_ne han).mpr (h.mru a))
  have hlisted := h.waiting hm (rest_ne hpc n).2
  have hhands : ∀ n' a k', ((ls i).drop n).hands n' = some (a, k') →
      n' = n ∧ (none : Option Mode) = some a ∧ k' = (s.buf n).key ∨
        n' ≠ n ∧ (ls i).hands n' = some (a, k') :=
    fun n' a k' hk' => hands_update (o := none) n' a k' hk'
  have hpcOk : ∀ s' : State ι, PcOk s' i ((ls i).drop n).pc := by
    intro s'
    change PcOk s' i (ls i).pc
    rw [hpc]
    trivial
  unfold brelse
  simp only [wp_bind, wp_get, hbusy, true_eq_false, if_false, wp_set, hm, map_some,
    getD_some]
  by_cases hwrote : m.wrote = true
  · -- the released data become the latest version
    have hlatest : latest d (s.trace ++ [.released (s.buf n).key (s.buf n).data]) (s.buf n).key =
        (s.buf n).data := by rw [latest_released, if_pos rfl]
    simp only [hwrote, if_true]
    refine h.replace (o := none) (h.mine hm) rfl hdev (.inl rfl) rfl hmru (fun _ _ => rfl) ?_ rfl rfl rfl
      h.trace.released (by simp) ?_ (.inl hvalid) (fun _ => hvalid)
      (fun hd => .inr (hlisted hd)) (rest_only hpc) rfl hhands (hpcOk _)
    · intro k' hk'
      exact latest_released.trans (if_neg (Ne.symm hk'))
    · refine fun _ => ⟨fun _ => hlatest.symm, ?_⟩
      cases m with
      | logged => exact .inl hmode
      | written => exact .inr (Eq.trans hmode hlatest.symm)
      | fetched => cases hwrote
      | modified => cases hwrote
      | rewritten => cases hsaved
  · have hfetched : m = .fetched := by
      cases m with
      | fetched => rfl
      | modified => cases hsaved
      | logged => exact (hwrote rfl).elim
      | written => exact (hwrote rfl).elim
      | rewritten => exact (hwrote rfl).elim
    subst hfetched
    simp only [Mode.wrote, false_eq_true, if_false]
    exact h.replace (o := none) (h.mine hm) rfl hdev (.inl rfl) rfl hmru (fun _ _ => rfl)
      (fun _ _ => rfl) rfl rfl rfl h.trace (by simp)
      (fun _ => ⟨hmode.data, hmode.disk⟩) (.inl hvalid) (fun _ => hvalid)
      (fun hd => .inr (hlisted hd)) (rest_only hpc) rfl hhands (hpcOk _)

/-! ## log.c -/

theorem Inv.relog {log : Log} {inOp : ι → Bool} {logged : ι → List UInt32}
    (hold : ∀ n', (ls i).pc ≠ .filling n' ∧ (ls i).pc ≠ .flushing n') (hpc : l'.pc = .rest)
    (hhands : l'.hands = (ls i).hands) (hnone : ∀ j, j ≠ i → (ls j).stage = none)
    (hinOp : ∀ j, j ≠ i → inOp j = s.inOp j)
    (hops : ∃ F : Finset ι, (∀ i, i ∈ F ↔ inOp i = true) ∧ F.card = log.outstanding)
    (hclosed : log.committing = true → log.outstanding = 0)
    (hstage : l'.stage ≠ none → log.committing = true)
    (hlh : ∀ lh j, l'.stage = some (.installing lh j) → log.lh = lh)
    (hlisted : ∀ n, (s.buf n).dirty = true → (s.buf n).dev = logDev → Waiting ls s (s.buf n).blockno →
      (s.buf n).blockno ∈ log.lh ∧
        ∀ lh j, l'.stage = some (.installing lh j) → (s.buf n).blockno ∈ lh.drop j) :
    Inv d (update ls i l') { s with log := log, inOp := inOp, logged := logged } := by
  have hls : ∀ j, j ≠ i → update ls i l' j = ls j := fun j hj => update_of_ne hj ..
  have hli : update ls i l' i = l' := update_self ..
  have hmine : ∀ j, (update ls i l' j).stage ≠ none → j = i := by
    intro j hj
    by_contra hji
    rw [hls j hji] at hj
    exact hj (hnone j hji)
  have hinstalling : ∀ j lh a, (update ls i l' j).stage = some (.installing lh a) →
      l'.stage = some (.installing lh a) := by
    intro j lh a hj
    rw [hmine j (by rw [hj]; simp), hli] at hj
    exact hj
  refine { mru := h.mru, dev := h.dev, unique := h.unique, busy := h.busy, holder := h.holder
           valid := ?_, dirty := h.dirty, held := fun n j m hm => (h.held n j m hm).congr rfl rfl
           free := fun n hd hb => (h.free n hd hb).congr rfl rfl, uncached := h.uncached
           listed := ?_, hands := ?_, pc := ?_, ops := hops, closed := hclosed, stage := ?_
           single := ?_, lh := ?_, trace := h.trace }
  · intro n hn
    refine (h.valid n hn).imp id ?_
    rintro ⟨j, hj⟩
    have hji : j ≠ i := by
      rintro rfl
      exact (hold n).1 hj
    exact ⟨j, by rw [hls j hji, hj]⟩
  · intro n hd
    rcases h.listed n hd with ⟨j, hj⟩ | ⟨hdev, hw⟩
    · have hji : j ≠ i := by
        rintro rfl
        exact (hold n).2 hj
      exact .inl ⟨j, by rw [hls j hji, hj]⟩
    · obtain ⟨hmem, hrest⟩ := hlisted n hd hdev hw
      exact .inr ⟨hdev, hmem, fun j lh a hj => hrest lh a (hinstalling j lh a hj)⟩
  · intro j n m k hk
    by_cases hj : j = i
    · rw [hj, hli, hhands] at hk
      rw [hj]
      exact h.hands i n m k hk
    · rw [hls j hj] at hk
      exact h.hands j n m k hk
  · intro j
    by_cases hj : j = i
    · rw [hj, hli, hpc]
      trivial
    · rw [hls j hj]
      exact (h.pc j).congr (hinOp j hj) (fun _ => rfl) fun _ _ => rfl
  · intro j hj
    have hji := hmine j hj
    rw [hji, hli] at hj
    exact hstage hj
  · intro j j' hj hj'
    rw [hmine j hj, hmine j' hj']
  · intro j lh a hj
    exact hlh lh a (hinstalling j lh a hj)

theorem Inv.others (hi : (ls i).stage = some st) (j : ι) (hj : j ≠ i) : (ls j).stage = none := by
  by_contra hne
  exact hj (h.single j i hne (by rw [hi]; simp))

theorem Inv.quiet (hc : s.log.committing = false) (j : ι) : (ls j).stage = none := by
  by_contra hne
  have := h.stage j hne
  rw [hc] at this
  cases this

end

theorem apart (hpc : l.pc = .rest ∨ l.pc = .entering ∨ l.pc = .leaving ∨ l.pc = .logging n)
    (n' : Fin NBUF) : l.pc ≠ .filling n' ∧ l.pc ≠ .flushing n' := by
  constructor
  · intro hc
    simp [hc] at hpc
  · intro hc
    simp [hc] at hpc

section

variable (h : Inv d ls s)
include h

theorem wp_beginOp (hpc : (ls i).pc = .entering) :
    wp (beginOp i) (fun _ s' => Inv d (update ls i { ls i with pc := .rest }) s')
      (fun _ _ => True) s := by
  have hin : s.inOp i = false := by
    have hp := h.pc i
    rw [hpc] at hp
    exact hp
  unfold beginOp
  simp only [wp_bind, wp_get]
  rw [wp_ite]
  refine ⟨fun _ => trivial, fun hc => ?_⟩
  have hquiet := h.quiet (by simpa using hc)
  rw [wp_ite]
  refine ⟨fun _ => trivial, fun _ => ?_⟩
  rw [wp_set]
  refine h.relog (apart (n := 0) (.inr (.inl hpc))) rfl rfl (fun j _ => hquiet j)
    (fun j hj => update_of_ne hj ..) ?_ (fun hcom => (hc hcom).elim)
    (fun hs => (hs (hquiet i)).elim) (fun lh j hs => ?_) (fun n _ _ hw => ⟨hw.1, fun lh j hs => ?_⟩)
  · obtain ⟨F, hF, hcard⟩ := h.ops
    have hi : i ∉ F := by
      rw [hF, hin]
      decide
    refine ⟨insert i F, fun j => ?_, by rw [card_insert_of_notMem hi, hcard]⟩
    by_cases hj : j = i
    · rw [hj, update_self]
      exact ⟨fun _ => rfl, fun _ => mem_insert_self i F⟩
    · rw [update_of_ne hj, mem_insert, hF]
      exact or_iff_right hj
  · change (ls i).stage = _ at hs
    rw [hquiet i] at hs
    cases hs
  · change (ls i).stage = _ at hs
    rw [hquiet i] at hs
    cases hs

theorem wp_leaveOp (hpc : (ls i).pc = .leaving) :
    wp (leaveOp i) (fun last s' => Inv d (update ls i
      { ls i with pc := .rest, stage := if last then some .copying else none }) s')
      (fun _ _ => True) s := by
  have hin : s.inOp i = true := by
    have hp := h.pc i
    rw [hpc] at hp
    exact hp
  unfold leaveOp
  simp only [wp_bind, wp_get]
  rw [wp_ite]
  refine ⟨fun _ => trivial, fun _ => ?_⟩
  simp only [wp_bind, wp_set, wp_pure]
  refine h.relog (apart (n := 0) (.inr (.inr (.inl hpc)))) rfl rfl (fun j _ => h.no_stage hin j)
    (fun j hj => update_of_ne hj ..) ?_ ?_ ?_ ?_ ?_
  · obtain ⟨F, hF, hcard⟩ := h.ops
    refine ⟨F.erase i, fun j => ?_, by rw [card_erase_of_mem ((hF i).mpr hin), hcard]⟩
    by_cases hj : j = i
    · rw [hj, update_self]
      simp
    · rw [update_of_ne hj, mem_erase, hF]
      exact and_iff_right hj
  · intro hlast
    simpa using hlast
  · intro hs
    by_contra hne
    rw [if_neg hne] at hs
    exact hs rfl
  · intro lh j hs
    split at hs
    · cases hs
    · cases hs
  · intro n _ _ hw
    refine ⟨hw.1, fun lh j hs => ?_⟩
    split at hs
    · cases hs
    · cases hs

section

variable (hpc : (ls i).pc = .rest)
include hpc

theorem wp_endCommit (hst : (ls i).stage = some st) :
    wp endCommit (fun _ s' => Inv d (update ls i { ls i with stage := none }) s')
      (fun _ _ => True) s := by
  unfold endCommit
  rw [wp_modify]
  exact h.relog (rest_ne hpc) hpc rfl (h.others hst) (fun _ _ => rfl) h.ops
    nofun (fun hs => (hs rfl).elim) nofun
    (fun n _ _ hw => ⟨hw.1, nofun⟩)

theorem wp_clearLh (hst : (ls i).stage = some (.installing lh lh.length)) :
    wp clearLh (fun _ s' => Inv d (update ls i { ls i with stage := some .copying }) s')
      (fun _ _ => True) s := by
  unfold clearLh
  rw [wp_modify]
  refine h.relog (rest_ne hpc) hpc rfl (h.others hst) (fun _ _ => rfl) h.ops h.closed
    (fun _ => h.stage i (by rw [hst]; simp)) nofun ?_
  intro n _ _ hw
  have := hw.2 i lh lh.length hst
  rw [drop_length] at this
  cases this

theorem Inv.install (hst : (ls i).stage = some .copying) :
    Inv d (update ls i { ls i with stage := some (.installing s.log.lh 0) }) s := by
  change Inv d _ { s with log := s.log, inOp := s.inOp, logged := s.logged }
  refine h.relog (rest_ne hpc) hpc rfl (h.others hst) (fun _ _ => rfl) h.ops h.closed (fun _ => h.stage i (by rw [hst]; simp)) (fun lh j hs => by cases hs; rfl) ?_
  intro n _ _ hw
  refine ⟨hw.1, fun lh j hs => ?_⟩
  cases hs
  exact hw.1

theorem Inv.advance {j : ℕ} (hst : (ls i).stage = some (.installing lh j))
    (hkey : (s.buf n).key = (logDev, lh.getD j 0)) (hclean : (s.buf n).dirty = false) :
    Inv d (update ls i { ls i with stage := some (.installing lh (j + 1)) }) s := by
  change Inv d _ { s with log := s.log, inOp := s.inOp, logged := s.logged }
  refine h.relog (rest_ne hpc) hpc rfl (h.others hst) (fun _ _ => rfl) h.ops h.closed (fun _ => h.stage i (by rw [hst]; simp)) ?_ ?_
  · intro lh' j' hs
    cases hs
    exact h.lh i lh j hst
  · intro n' hd hdev hw
    refine ⟨hw.1, fun lh' j' hs => ?_⟩
    cases hs
    have hmem := hw.2 i lh j hst
    have hj : j < lh.length := by
      by_contra hj
      rw [drop_eq_nil_of_le (by omega)] at hmem
      cases hmem
    rw [drop_eq_getElem_cons hj] at hmem
    rcases mem_cons.mp hmem with heq | hmem
    · -- the buffer that was just written is the only one for this block
      have hsame : (s.buf n').key = (s.buf n).key := by
        rw [hkey]
        refine Prod.ext hdev (heq.trans ?_)
        rw [getD_eq_getElem _ _ hj]
      have hn : n' = n := h.unique n' n (by rw [hdev]; decide) hsame
      rw [hn, hclean] at hd
      cases hd
    · exact hmem

end

theorem wp_logWriteLocked (hpc : (ls i).pc = .logging n) (hk : (ls i).hands n = some (m, k)) :
    wp (logWriteLocked i n) (fun _ s' => Inv d (update ls i ((ls i).bring n .logged k)) s')
      (fun _ _ => True) s := by
  obtain ⟨hm, hkey, -⟩ := h.mode hk
  have hp := h.pc i
  rw [hpc] at hp
  obtain ⟨-, hin, hlogDev⟩ := hp
  have hne := apart (.inr (.inr (.inr hpc)))
  have hvalid := h.valid_of_held hm (hne n).1
  unfold logWriteLocked
  simp only [wp_bind, wp_get]
  rw [wp_ite]
  refine ⟨fun _ => trivial, fun _ => ?_⟩
  rw [wp_set]
  -- first the header grows, then the buffer is pinned
  have hgrow : Inv d (update ls i { ls i with pc := .rest }) { s with
      log := { s.log with lh := absorb s.log.lh (s.buf n).blockno }
      inOp := s.inOp
      logged := update s.logged i (absorb (s.logged i) (s.buf n).blockno) } :=
    h.relog hne rfl rfl (fun j _ => h.no_stage hin j) (fun _ _ => rfl) h.ops h.closed
    (fun hs => (hs (h.no_stage hin i)).elim)
    (fun lh j hs => by rw [show (ls i).stage = none from h.no_stage hin i] at hs; cases hs)
    (fun n' _ _ hw => ⟨mem_absorb.mpr (.inl hw.1), fun lh j hs => by
      rw [show (ls i).stage = none from h.no_stage hin i] at hs; cases hs⟩)
  have hstages : ∀ j, (update ls i { ls i with pc := .rest } j).stage = none := by
    intro j
    by_cases hj : j = i
    · rw [hj, update_self]
      exact h.no_stage hin i
    · rw [update_of_ne hj]
      exact h.no_stage hin j
  have hli : update ls i { ls i with pc := .rest } i = { ls i with pc := .rest } :=
    update_self ..
  have hfinal : Inv d (update (update ls i { ls i with pc := .rest }) i
      ((ls i).bring n .logged k))
      { (s.setBuf n { s.buf n with dirty := true }).hold i n (some .logged) with
        log := { s.log with lh := absorb s.log.lh (s.buf n).blockno }
        logged := update s.logged i (absorb (s.logged i) (s.buf n).blockno) } := by
    refine hgrow.replace (i := i) (n := n) (o := some .logged) (h.mine hm) rfl (h.dev_of_held hm)
      (.inl rfl) (h.busy_of_held hm) h.mru (fun _ _ => rfl) (fun _ _ => rfl) rfl rfl rfl h.trace ?_
      (by simp) (.inl hvalid) (fun _ => hvalid) ?_ ?_ ?_ ?_ trivial
    · rintro a ⟨⟩
      rfl
    · refine fun _ => .inr ⟨hlogDev, mem_absorb.mpr (.inr rfl), fun j lh a hs => ?_⟩
      rw [hstages j] at hs
      cases hs
    · rw [hli]
      exact rest_only rfl
    · rw [hli]
      rfl
    · intro n' a k' hk'
      rw [hli]
      rw [← hkey] at hk'
      exact hands_update (o := some .logged) n' a k' hk'
  rwa [update_idem] at hfinal

end

end Steps

end Invariant

end Xv6.Bio
