import Xv6.LogContents

/-!
# Operations and readers

The steps of `Contents` outside a commit: taking and releasing buffers, modifying and logging a
block, entering and leaving an operation.
-/

namespace Xv6

open Resumption ByteLayout Function List LogState

variable {ι κ : Type} {start size : ℕ} {ws : ι → List Write} {d : ℕ → Block}
  {done pend : List (ι × Write)} {ls : ι ⊕ κ → Loc} {s s' : LogState ι}

variable [DecidableEq ι] [DecidableEq κ]

variable {l : Loc} {i : ι} {e : List Write} {b : UInt32} {u : Buf} {log : Log}

theorem Contents.view (h : Contents start size d done pend ls s) (hv : SameView s s') (x : ι ⊕ κ)
    (l : Loc) (hx : ¬ (ls x).InCommit) (hl : ¬ l.InCommit) (hopen : (ls x).IsOpen → l.IsOpen)
    (hxm : ∀ e b, ls x ≠ .holding e b .modified) (hlm : ∀ e b, l ≠ .holding e b .modified)
    (hhome : ∀ e b k, l = .holding e b k → ¬ InLog start size b.toNat)
    (hholders : Holders (update ls x l) s'.busy) :
    Contents start size d done pend (update ls x l) s' := by
  have hmodified : ∀ y e b, update ls x l y = .holding e b .modified ↔
      ls y = .holding e b .modified := by
    intro y e b
    by_cases hy : y = x
    · rw [hy, update_self]
      exact iff_of_false (hlm e b) (hxm e b)
    · rw [update_of_ne hy]
  have hother : ∀ y, y = x ∨ update ls x l y = ls y := by
    intro y
    by_cases hy : y = x
    · exact Or.inl hy
    · exact Or.inr (update_of_ne hy _ _)
  constructor
  · constructor
    · exact hholders
    · intro i e b k hi
      by_cases hxi : .inl i = x
      · rw [hxi, update_self] at hi
        exact hhome e b k hi
      · rw [update_of_ne hxi] at hi
        exact h.cache.home i e b k hi
    · rw [hv.log]
      exact h.cache.listed
    · rw [hv.log, hv.pinned]
      exact h.cache.pinned
    · intro b hb hno
      rw [hv.pinned] at hb
      rw [hv.mem, hv.disk]
      exact h.cache.sync b hb fun i e c hi => hno i e c ((hmodified _ _ _).mpr hi)
  · constructor
    · rw [hv.trace]
      exact h.pending.split
    · rw [hv.trace]
      exact h.pending.durable
    · rw [hv.trace]
      exact h.pending.fresh
    · intro m hm
      rw [hv.trace]
      cases h.pending.members m hm with
      | inl hg => exact Or.inl hg
      | inr ho =>
          right
          cases hother (.inl m.1) with
          | inl he =>
              rw [he] at ho ⊢
              rw [update_self]
              exact hopen ho
          | inr he => rwa [he]
    · intro m hm
      rw [hv.log]
      cases h.pending.logged m hm with
      | inl hg => exact Or.inl hg
      | inr ho =>
          obtain ⟨e, he⟩ := ho
          exact Or.inr ⟨e, (hmodified _ _ _).mpr he⟩
  · rw [hv.log]
    exact h.short
  · rw [hv.mem]
    exact h.mem
  · intro hhot
    rw [hv.disk]
    apply h.clean
    intro y hy
    cases hother y with
    | inl he => exact hx (he ▸ hy.inCommit)
    | inr he => exact hhot y (by rwa [he])
  · intro y
    cases hother y with
    | inl he =>
        rw [he, update_self]
        exact Loc.Progress.of_not_inCommit hl
    | inr he =>
        rw [he]
        have hp := h.progress y
        cases hly : ls y with
        | commit st =>
            rw [hly] at hp
            cases st with
            | copying n j =>
                simp only [Loc.Progress, hv.disk, hv.mem, hv.log]
                exact hp
            | installing n j =>
                simp only [Loc.Progress, hv.disk, hv.pinned, hv.log]
                exact hp
            | cleared =>
                simp only [Loc.Progress, hv.disk]
                exact hp
            | erased => exact hp
        | _ => exact trivial

theorem not_inCommit_update (hno : ∀ x, ¬ (ls x).InCommit) (x : ι ⊕ κ)
    (hl : ¬ l.InCommit) (y : ι ⊕ κ) : ¬ (update ls x l y).InCommit := by
  by_cases hy : y = x
  · rwa [hy, update_self]
  · rw [update_of_ne hy]
    exact hno y

omit [DecidableEq ι] [DecidableEq κ] in
theorem Cache.cached (h : Cache start size ls s) {x : ι ⊕ κ} {b : ℕ}
    (hx : (ls x).holds = some b) : ∃ u, s.bcache b = some u := by
  have hb := h.holders.1 x b hx
  cases hu : s.bcache b with
  | none => simp [LogState.busy, hu] at hb
  | some u => exact ⟨u, rfl⟩

theorem Contents.modify (hp : Protocol start size ls s) (hh : History start ws ls s)
    (h : Contents start size d done pend ls s) {f : Block → Block}
    (hl : ls (.inl i) = .holding e b .fetched) (hu : s.bcache b.toNat = some u) :
    Contents start size d done (pend ++ [(i, b, f)])
      (update ls (.inl i) (.holding (e ++ [(b, f)]) b .modified))
      ((s.setBuf b.toNat (some { u with data := f u.data })).emit (.modify i b f)) := by
  have ho : (ls (.inl i)).IsOpen := by
    rw [hl]
    exact trivial
  have hclean := h.clean_of_open hp ho
  have hno := not_inCommit_update (hp.no_commit ho) (.inl i)
    (l := .holding (e ++ [(b, f)]) b .modified) id
  have hmem : s.mem b.toNat = u.data := by simp [LogState.mem, hu]
  have hbusy : u.busy = s.busy b.toNat := by simp [LogState.busy, hu]
  have hpin : u.dirty = s.pinned b.toNat := by simp [LogState.pinned, hu]
  have hother : ∀ j, j ≠ i → update ls (.inl i) (.holding (e ++ [(b, f)]) b .modified)
      (.inl j) = ls (.inl j) := by
    intro j hj
    rw [update_of_ne (by simpa using hj)]
  constructor
  · constructor
    · simp only [emit_busy, setBuf_busy, hbusy, update_eq_self]
      exact h.cache.holders.keep _ _ (by rw [hl]; rfl)
    · intro j e' c k hj
      by_cases hji : j = i
      · rw [hji, update_self] at hj
        injection hj with _ hbc
        rw [← hbc]
        exact h.cache.home i e b _ hl
      · rw [hother j hji] at hj
        exact h.cache.home j e' c k hj
    · exact h.cache.listed
    · simp only [emit_pinned, setBuf_pinned, hpin, update_eq_self]
      exact h.cache.pinned
    · intro c hc hchange
      have hcb : c ≠ b.toNat := fun hcb => hchange i _ b (update_self ..) hcb.symm
      simp only [emit_pinned, setBuf_pinned, hpin, update_eq_self] at hc
      simp only [emit_mem, setBuf_mem, emit_disk, setBuf_disk,
        update_of_ne hcb]
      apply h.cache.sync c hc
      intro j e' a hj
      have hji : j ≠ i := by
        rintro rfl
        rw [hl] at hj
        cases hj
      exact hchange j e' a (by rw [hother j hji, hj])
  · constructor
    · simp [h.pending.split, LogEvent.modification]
    · simpa [committedOps, historyStep] using h.pending.durable
    · intro m hm
      have hcom : committedOps start ((s.setBuf b.toNat (some { u with data := f u.data })).emit
          (.modify i b f)).trace = committedOps start s.trace := by
        simp [committedOps, historyStep]
      rw [hcom]
      cases mem_append.mp hm with
      | inl hm => exact h.pending.fresh m hm
      | inr hm =>
          rw [mem_singleton.mp hm]
          intro hi
          have hleft := hh.committed i hi
          rw [hl] at hleft
          exact hleft
    · intro m hm
      have hgroup : groupOps start ((s.setBuf b.toNat (some { u with data := f u.data })).emit
          (.modify i b f)).trace = groupOps start s.trace := by
        simp [groupOps, historyStep]
      rw [hgroup]
      by_cases hmi : m.1 = i
      · right
        rw [hmi, update_self]
        exact trivial
      · rw [hother m.1 hmi]
        cases mem_append.mp hm with
        | inl hm => exact h.pending.members m hm
        | inr hm => exact absurd (by rw [mem_singleton.mp hm]) hmi
    · intro m hm
      cases mem_append.mp hm with
      | inr hm =>
          right
          rw [mem_singleton.mp hm]
          exact ⟨_, update_self ..⟩
      | inl hm =>
          cases h.pending.logged m hm with
          | inl hin => exact Or.inl hin
          | inr hheld =>
              obtain ⟨e', he'⟩ := hheld
              have hmi : m.1 ≠ i := by
                intro hmi
                rw [hmi, hl] at he'
                cases he'
              exact Or.inr ⟨e', by rw [hother m.1 hmi, he']⟩
  · exact h.short
  · intro c hc
    rw [map_append, applyWrites_append]
    simp only [emit_mem, setBuf_mem, map_cons, map_nil, applyWrites,
      foldl_cons, foldl_nil]
    by_cases hcb : c = b.toNat
    · have hb := h.mem b.toNat (hcb ▸ hc)
      rw [hcb, update_self, update_self, ← hmem, hb]
      rfl
    · rw [update_of_ne hcb, update_of_ne hcb]
      exact h.mem c hc
  · exact fun _ => hclean
  · exact fun y => Loc.Progress.of_not_inCommit (hno y)

theorem Contents.logged (hp : Protocol start size ls s) (h : Contents start size d done pend ls s)
    (hl : ls (.inl i) = .holding e b .modified)
    (hu : s.bcache b.toNat = some u) (hlen : (absorb s.log.lh b).length ≤ LOGSIZE) :
    Contents start size d done pend (update ls (.inl i) (.holding e b .logged))
      (((s.setBuf b.toNat (some { u with dirty := true })).setLh (absorb s.log.lh b)).emit
        (.logWrite i b)) := by
  have ho : (ls (.inl i)).IsOpen := by
    rw [hl]
    exact trivial
  have hclean := h.clean_of_open hp ho
  have hno := not_inCommit_update (hp.no_commit ho) (.inl i) (l := .holding e b .logged) id
  have hmem : u.data = s.mem b.toNat := by simp [LogState.mem, hu]
  have hbusy : u.busy = s.busy b.toNat := by simp [LogState.busy, hu]
  have hother : ∀ j, j ≠ i → update ls (.inl i) (.holding e b .logged) (.inl j) =
      ls (.inl j) := by
    intro j hj
    rw [update_of_ne (by simpa using hj)]
  constructor
  · constructor
    · simp only [emit_busy, setLh_busy, setBuf_busy, hbusy,
        update_eq_self]
      exact h.cache.holders.keep _ _ (by rw [hl]; rfl)
    · intro j e' c k hj
      by_cases hji : j = i
      · rw [hji, update_self] at hj
        injection hj with _ hbc
        rw [← hbc]
        exact h.cache.home i e b _ hl
      · rw [hother j hji] at hj
        exact h.cache.home j e' c k hj
    · intro c hc
      cases mem_absorb.mp hc with
      | inl hc => exact h.cache.listed c hc
      | inr hc =>
          rw [hc]
          exact h.cache.home i e b _ hl
    · intro c hc
      simp only [emit_pinned, setLh_pinned, setBuf_pinned] at hc
      by_cases hcb : c = b.toNat
      · exact ⟨b, mem_absorb.mpr (Or.inr rfl), hcb.symm⟩
      · rw [update_of_ne hcb] at hc
        obtain ⟨a, ha, hac⟩ := h.cache.pinned c hc
        exact ⟨a, mem_absorb.mpr (Or.inl ha), hac⟩
    · intro c hc hchange
      simp only [emit_pinned, setLh_pinned, setBuf_pinned] at hc
      have hcb : c ≠ b.toNat := by
        rintro rfl
        simp at hc
      rw [update_of_ne hcb] at hc
      simp only [emit_mem, setLh_mem, setBuf_mem, emit_disk,
        setLh_disk, setBuf_disk, update_of_ne hcb]
      apply h.cache.sync c hc
      intro j e' a hj
      by_cases hji : j = i
      · rw [hji, hl] at hj
        injection hj with _ hba
        rw [← hba]
        exact hcb.symm
      · exact hchange j e' a (by rw [hother j hji, hj])
  · constructor
    · simpa [LogEvent.modification] using h.pending.split
    · simpa [committedOps, historyStep] using h.pending.durable
    · simpa [committedOps, historyStep] using h.pending.fresh
    · intro m hm
      by_cases hmi : m.1 = i
      · right
        rw [hmi, update_self]
        exact trivial
      · rw [hother m.1 hmi]
        simpa [groupOps, historyStep] using h.pending.members m hm
    · intro m hm
      have hin : m.2.1 ∈ absorb s.log.lh b ∨ ∃ e', ls (.inl m.1) = .holding e' m.2.1 .modified := by
        cases h.pending.logged m hm with
        | inl hin => exact Or.inl (mem_absorb.mpr (Or.inl hin))
        | inr hheld => exact Or.inr hheld
      cases hin with
      | inl hin => exact Or.inl hin
      | inr hheld =>
          obtain ⟨e', he'⟩ := hheld
          by_cases hmi : m.1 = i
          · -- the modification whose `log_write` this is
            rw [hmi, hl] at he'
            injection he' with _ hbm
            exact Or.inl (mem_absorb.mpr (Or.inr hbm.symm))
          · exact Or.inr ⟨e', by rw [hother m.1 hmi, he']⟩
  · exact hlen
  · simp only [emit_mem, setLh_mem, setBuf_mem, hmem,
      update_eq_self]
    exact h.mem
  · exact fun _ => hclean
  · exact fun y => Loc.Progress.of_not_inCommit (hno y)

theorem Contents.bracket (hno : ∀ x, ¬ (ls x).InCommit) (h : Contents start size d done pend ls s)
    {ev : LogEvent ι} (hx : ∀ e b k, ls (.inl i) ≠ .holding e b k)
    (hl : ∀ e b k, l ≠ .holding e b k) (hholds : l.holds = (ls (.inl i)).holds)
    (hstage : ∀ st, l ≠ .commit st) (hlh : log.lh = s.log.lh) (hmod : ev.modification = none)
    (hcom : committedOps start (s.trace ++ [ev]) = committedOps start s.trace)
    (hmembers : ∀ m ∈ pend, m.1 ∈ groupOps start (s.trace ++ [ev]) ∨
      (update ls (.inl i) l (.inl m.1)).IsOpen) :
    Contents start size d done pend (update ls (.inl i) l)
      ({ s with log := log }.emit ev) := by
  have hholding : ∀ j e b k, update ls (.inl i) l (.inl j) = .holding e b k ↔
      ls (.inl j) = .holding e b k := by
    intro j e' b k
    by_cases hj : j = i
    · rw [hj, update_self]
      exact iff_of_false (hl e' b k) (hx e' b k)
    · rw [update_of_ne (by simpa using hj)]
  constructor
  · constructor
    · exact h.cache.holders.keep _ _ hholds
    · intro j e' c k hj
      exact h.cache.home j e' c k ((hholding j e' c k).mp hj)
    · intro c hc
      exact h.cache.listed c (hlh ▸ hc)
    · intro c hc
      obtain ⟨a, ha, hac⟩ := h.cache.pinned c hc
      exact ⟨a, hlh.symm ▸ ha, hac⟩
    · intro c hc hchange
      exact h.cache.sync c hc fun j e' a hj => hchange j e' a ((hholding j e' a _).mpr hj)
  · constructor
    · simpa [hmod] using h.pending.split
    · rw [emit_trace, hcom]
      exact h.pending.durable
    · rw [emit_trace, hcom]
      exact h.pending.fresh
    · exact hmembers
    · intro m hm
      cases h.pending.logged m hm with
      | inl hin => exact Or.inl (hlh.symm ▸ hin)
      | inr hheld =>
          obtain ⟨e', he'⟩ := hheld
          exact Or.inr ⟨e', (hholding _ _ _ _).mpr he'⟩
  · change log.lh.length ≤ LOGSIZE
    rw [hlh]
    exact h.short
  · exact h.mem
  · intro _
    exact h.clean fun y hy => hno y hy.inCommit
  · intro y
    by_cases hy : y = .inl i
    · rw [hy, update_self]
      cases l with
      | commit st => exact absurd rfl (hstage st)
      | _ => exact trivial
    · rw [update_of_ne hy]
      exact Loc.Progress.of_not_inCommit (hno y)

theorem Contents.begin (hp : Protocol start size ls s) (h : Contents start size d done pend ls s)
    (hcom : s.log.committing = false) (hl : ls (.inl i) = .before) (hlh : log.lh = s.log.lh) :
    Contents start size d done pend (update ls (.inl i) (.running []))
      ({ s with log := log }.emit (.beginOp i)) := by
  have hno : ∀ x, ¬ (ls x).InCommit := by
    intro x hx
    rw [(hp.committer x hx).1] at hcom
    cases hcom
  apply h.bracket hno (by simp [hl]) (by simp) (by rw [hl]; rfl) (by simp) hlh rfl
  · simp [committedOps, historyStep]
  · intro m hm
    by_cases hmi : m.1 = i
    · right
      rw [hmi, update_self]
      exact trivial
    · rw [update_of_ne (by simpa using hmi)]
      simpa [groupOps, historyStep] using h.pending.members m hm

theorem Contents.leave (hp : Protocol start size ls s) (h : Contents start size d done pend ls s)
    (hl : ls (.inl i) = .running e) (hl' : l = .entered ∨ l = .finished) (hlh : log.lh = s.log.lh) :
    Contents start size d done pend (update ls (.inl i) l)
      ({ s with log := log }.emit (.endOp i)) := by
  have ho : (ls (.inl i)).IsOpen := by
    rw [hl]
    exact trivial
  have hshape : l.holds = none ∧ (∀ e b k, l ≠ .holding e b k) ∧ ∀ st, l ≠ .commit st := by
    cases hl' with
    | inl hl' => rw [hl']; exact ⟨rfl, by simp, by simp⟩
    | inr hl' => rw [hl']; exact ⟨rfl, by simp, by simp⟩
  apply h.bracket (hp.no_commit ho) (by simp [hl]) hshape.2.1 (by rw [hl, hshape.1]; rfl)
    hshape.2.2 hlh rfl
  · simp [committedOps, historyStep]
  · intro m hm
    have hgroup : groupOps start (s.trace ++ [.endOp i]) = groupOps start s.trace ++ [i] := by
      simp [groupOps, historyStep]
    rw [hgroup, mem_append, mem_singleton]
    by_cases hmi : m.1 = i
    · exact Or.inl (Or.inr hmi)
    · rw [update_of_ne (by simpa using hmi)]
      have := h.pending.members m hm
      tauto

end Xv6
