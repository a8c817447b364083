import Xv6.LogUsers

/-!
# The committing thread

The steps of `Contents` in a commit. The header write moves all modifications of the group from the
pending to the durable ones at once; before it the disk is clean, after it the log has the copies.
-/

namespace Xv6

open Resumption ByteLayout Function List

variable {ι κ : Type} {start size : ℕ} {ws : ι → List Write} {d : ℕ → Block}
  {done pend : List (ι × Write)} {ls : ι ⊕ κ → Loc} {s s' : LogState ι}

variable [DecidableEq ι] [DecidableEq κ]

variable {x : ι ⊕ κ} {l : Loc} {b n j : ℕ} {i : ι}

theorem Cache.move (h : Cache start size ls s) (hx : (ls x).InCommit)
    (hl : l.holds = none) (hbusy : s'.busy = s.busy)
    (hlisted : ∀ b ∈ s'.log.lh, ¬ InLog start size b.toNat)
    (hpinned : ∀ b, s'.pinned b = true → ∃ c ∈ s'.log.lh, c.toNat = b)
    (hsync : ∀ b, s'.pinned b = false → s'.mem b = s'.disk b ∨
      (s.pinned b = false ∧ s'.mem b = s.mem b ∧ s'.disk b = s.disk b)) :
    Cache start size (update ls x l) s' := by
  have hholding : ∀ y e b k, update ls x l y = .holding e b k ↔ ls y = .holding e b k := by
    intro y e b k
    by_cases hy : y = x
    · rw [hy, update_self]
      refine iff_of_false ?_ (not_holding_of_inCommit hx e b k)
      rintro rfl
      cases hl
    · rw [update_of_ne hy]
  have hnone : (ls x).holds = none := by
    cases hlx : ls x with
    | holding e b k => exact absurd hlx (not_holding_of_inCommit hx e b k)
    | reading b =>
        rw [hlx] at hx
        exact hx.elim
    | _ => rfl
  constructor
  · rw [hbusy]
    exact h.holders.keep _ _ (by rw [hl, hnone])
  · intro j e b k hj
    exact h.home j e b k ((hholding _ e b k).mp hj)
  · exact hlisted
  · exact hpinned
  · intro b hb hchange
    cases hsync b hb with
    | inl he => exact he
    | inr he =>
        rw [he.2.1, he.2.2]
        exact h.sync b he.1 fun j e c hj => hchange j e c ((hholding _ e c _).mpr hj)

theorem Cache.wrote (h : Cache start size ls s) {v : Block} (hx : (ls x).InCommit)
    (hl : l.holds = none) (hw : Wrote s s' b v) : Cache start size (update ls x l) s' := by
  apply h.move hx hl hw.busy
  · rw [hw.log]
    exact h.listed
  · intro c hc
    rw [hw.pinned] at hc
    rw [hw.log]
    by_cases hcb : c = b
    · rw [hcb, update_self] at hc
      cases hc
    · rw [update_of_ne hcb] at hc
      exact h.pinned c hc
  · intro c hc
    rw [hw.pinned] at hc
    rw [hw.mem, hw.disk]
    by_cases hcb : c = b
    · rw [hcb, update_self, update_self]
      exact Or.inl rfl
    · rw [update_of_ne hcb] at hc
      rw [update_of_ne hcb, update_of_ne hcb]
      exact Or.inr ⟨hc, rfl, rfl⟩

section

variable (hp : Protocol start size ls s)
include hp

theorem Pending.move (h : Pending start done pend ls s)
    (hx : (ls x).InCommit)
    (hmods : modifications s'.trace = modifications s.trace)
    (hhist : pend = [] ∧ committedOps start s'.trace = committedOps start s.trace ∨
      history start s'.trace = history start s.trace ∧ s'.log.lh = s.log.lh) :
    Pending start done pend (update ls x l) s' := by
  have hcom : committedOps start s'.trace = committedOps start s.trace := by
    cases hhist with
    | inl hhist => exact hhist.2
    | inr hhist => rw [committedOps, hhist.1, committedOps]
  constructor
  · rw [hmods]
    exact h.split
  · rw [hcom]
    exact h.durable
  · rw [hcom]
    exact h.fresh
  · intro m hm
    cases hhist with
    | inl hhist =>
        rw [hhist.1] at hm
        cases hm
    | inr hhist =>
        rw [groupOps, hhist.1]
        exact Or.inl (h.closed hp hx m hm).1
  · intro m hm
    cases hhist with
    | inl hhist =>
        rw [hhist.1] at hm
        cases hm
    | inr hhist =>
        rw [hhist.2]
        exact Or.inl (h.closed hp hx m hm).2

theorem Contents.move
    (hx : (ls x).InCommit) (hcache : Cache start size (update ls x l) s')
    (hpending : Pending start done pend (update ls x l) s')
    (hshort : s'.log.lh.length ≤ LOGSIZE)
    (hmem : ∀ b, ¬ InLog start size b →
      s'.mem b = applyWrites (applyWrites d (done.map Prod.snd)) (pend.map Prod.snd) b)
    (hclean : ¬ l.Hot → Clean start size (applyWrites d (done.map Prod.snd)) s'.disk)
    (hprogress : l.Progress start size (applyWrites d (done.map Prod.snd)) pend s') :
    Contents start size d done pend (update ls x l) s' := by
  constructor
  · exact hcache
  · exact hpending
  · exact hshort
  · exact hmem
  · intro hhot
    apply hclean
    have := hhot x
    rwa [update_self] at this
  · intro y
    by_cases hy : y = x
    · rw [hy, update_self]
      exact hprogress
    · rw [update_of_ne hy]
      exact Loc.Progress.of_not_inCommit fun hc => hy (hp.unique y x hc hx)

theorem Contents.enter (h : Contents start size d done pend ls s) (hl : ls (.inl i) = .entered) :
    Contents start size d done pend (update ls (.inl i)
      (.commit (if s.log.lh.length = 0 then .erased else .copying s.log.lh.length 0))) s := by
  have hx : (ls (.inl i)).InCommit := by
    rw [hl]
    exact trivial
  have hclean : Clean start size (applyWrites d (done.map Prod.snd)) s.disk :=
    h.clean_of_commit hp hx (by rw [hl]; exact id)
  apply Contents.move hp hx
  · exact h.cache.move hx rfl rfl h.cache.listed h.cache.pinned
      fun b hb => Or.inr ⟨hb, rfl, rfl⟩
  · exact h.pending.move hp hx rfl (Or.inr ⟨rfl, rfl⟩)
  · exact h.short
  · exact h.mem
  · exact fun _ => hclean
  · split_ifs with hn
    · have hnil := length_eq_zero_iff.mp hn
      apply eq_nil_iff_forall_not_mem.mpr
      intro m hm
      have hin := (h.pending.closed hp hx m hm).2
      rw [hnil] at hin
      cases hin
    · exact ⟨Nat.pos_of_ne_zero hn, by simp⟩

theorem Cache.sync_of_commit (h : Cache start size ls s)
    (hx : (ls x).InCommit) (hb : s.pinned b = false) : s.mem b = s.disk b := by
  apply h.sync b hb
  intro i e c hi
  have := hp.no_open hx i
  rw [hi] at this
  exact absurd trivial this

end

theorem Cache.unpinned_of_inLog (h : Cache start size ls s) (hb : InLog start size b) :
    s.pinned b = false := by
  by_contra hc
  obtain ⟨c, hc, hcb⟩ := h.pinned b (by simpa using hc)
  exact h.listed c hc (hcb ▸ hb)

theorem Cache.listed_getD (h : Cache start size ls s) {k : ℕ} (hk : k < s.log.lh.length) :
    ¬ InLog start size (s.log.lh.getD k 0).toNat := by
  rw [getD_eq_getElem _ _ hk]
  exact h.listed _ (getElem_mem hk)

section

variable (hp : Protocol start size ls s)
include hp

section

variable (h : Contents start size d done pend ls s)
include h

theorem Contents.writeLog (hj : j < n)
    (hl : ls (.inl i) = .commit (.copying n j)) (hfit : s.log.lh.length < size)
    (hw : Wrote s s' (start + j + 1) (s.mem (s.log.lh.getD j 0).toNat)) :
    Contents start size d done pend
      (update ls (.inl i) (.commit (.copying n (j + 1)))) s' := by
  have hx : (ls (.inl i)).InCommit := by
    rw [hl]
    exact trivial
  have hn : s.log.lh.length = n := hp.count (.inl i) n (by rw [hl]; exact rfl)
  have hp₀ := h.progress (.inl i)
  rw [hl] at hp₀
  have hlog : InLog start size (start + j + 1) := ⟨by omega, by omega⟩
  have hhome : ∀ b, ¬ InLog start size b → b ≠ start + j + 1 := by
    rintro b hb rfl
    exact hb hlog
  have hclean : Clean start size (applyWrites d (done.map Prod.snd)) s.disk :=
    h.clean_of_commit hp hx (by rw [hl]; exact id)
  apply Contents.move hp hx
  · exact h.cache.wrote hx rfl hw
  · apply h.pending.move hp hx
    · simp [hw.trace, LogEvent.modification]
    · right
      rw [hw.trace, history_append, historyStep_bwrite (Or.inl (by omega)), hw.log]
      exact ⟨rfl, rfl⟩
  · rw [hw.log]
    exact h.short
  · intro b hb
    rw [hw.mem, update_of_ne (hhome b hb)]
    exact h.mem b hb
  · intro _
    rw [hw.disk]
    constructor
    · rw [update_of_ne (by omega)]
      exact hclean.1
    · intro b hb
      rw [update_of_ne (hhome b hb)]
      exact hclean.2 b hb
  · refine ⟨hp₀.1, fun k hk => ?_⟩
    have hout := h.cache.listed_getD (k := k) (by omega)
    rw [hw.disk, hw.mem, hw.log, update_of_ne (hhome _ hout)]
    by_cases hkj : k = j
    · rw [hkj, update_self]
    · rw [update_of_ne (by omega)]
      exact hp₀.2 k (by omega)

theorem Contents.writeHead (hl : ls (.inl i) = .commit (.copying n n))
    (hfit : s.log.lh.length < size) (hw : Wrote s s' start (setHeader (s.mem start) s.log.lh)) :
    Contents start size d (done ++ pend) []
      (update ls (.inl i) (.commit (.installing n 0))) s' := by
  have hx : (ls (.inl i)).InCommit := by
    rw [hl]
    exact trivial
  have hn : s.log.lh.length = n := hp.count (.inl i) n (by rw [hl]; exact rfl)
  have hp₀ := h.progress (.inl i)
  rw [hl] at hp₀
  have hstart : InLog start size start := ⟨le_rfl, by omega⟩
  have hcount : headerCount (setHeader (s.mem start) s.log.lh) ≠ 0 := by
    intro hz
    have := headerCount_setHeader (s.mem start) h.short
    rw [hz, hn] at this
    exact hp₀.1.ne this
  have hclean : Clean start size (applyWrites d (done.map Prod.snd)) s.disk :=
    h.clean_of_commit hp hx (by rw [hl]; exact id)
  have hT : applyWrites d ((done ++ pend).map Prod.snd) =
      applyWrites (applyWrites d (done.map Prod.snd)) (pend.map Prod.snd) := by
    rw [map_append, applyWrites_append]
  have hcommitted : committedOps start s'.trace =
      committedOps start s.trace ++ groupOps start s.trace := by
    simp [committedOps, groupOps, hw.trace, historyStep, hcount]
  apply Contents.move hp hx
  · exact h.cache.wrote hx rfl hw
  · constructor
    · simp [hw.trace, LogEvent.modification, h.pending.split]
    · intro m hm
      rw [hcommitted, mem_append]
      cases mem_append.mp hm with
      | inl hm => exact Or.inl (h.pending.durable m hm)
      | inr hm => exact Or.inr (h.pending.closed hp hx m hm).1
    · intro m hm
      cases hm
    · intro m hm
      cases hm
    · intro m hm
      cases hm
  · rw [hw.log]
    exact h.short
  · intro b hb
    have hne : b ≠ start := by
      rintro rfl
      exact hb hstart
    rw [hw.mem, update_of_ne hne, hT]
    exact h.mem b hb
  · exact fun hhot => absurd trivial hhot
  · refine ⟨rfl, ?_, by simp, ?_⟩
    · rw [hw.disk, hw.log, hT]
      apply hclean.commit h.short hfit h.cache.listed
      · intro k hk
        rw [hp₀.2 k (by omega)]
        exact h.mem _ (h.cache.listed_getD hk)
      · intro b _ hb
        apply (applyWrites_of_notMem _ _ _).symm
        intro w hw'
        obtain ⟨m, hm, rfl⟩ := mem_map.mp hw'
        exact hb _ (h.pending.closed hp hx m hm).2
    · intro b hb
      have hne : b ≠ start := by
        rintro rfl
        rw [hw.pinned, update_self] at hb
        cases hb
      rw [hw.pinned, update_of_ne hne] at hb
      obtain ⟨c, hc, hcb⟩ := h.cache.pinned b hb
      obtain ⟨k, hk, hkc⟩ := mem_iff_getElem.mp hc
      refine ⟨k, Nat.zero_le k, by omega, ?_⟩
      rw [hw.log, getD_eq_getElem _ _ hk, hkc, hcb]

theorem Contents.install (hj : j < n) (hl : ls (.inl i) = .commit (.installing n j))
    (hw : Wrote s s' (s.log.lh.getD j 0).toNat (s.mem (start + j + 1))) :
    Contents start size d done pend
      (update ls (.inl i) (.commit (.installing n (j + 1)))) s' := by
  have hx : (ls (.inl i)).InCommit := by
    rw [hl]
    exact trivial
  have hn : s.log.lh.length = n := hp.count (.inl i) n (by rw [hl]; exact rfl)
  have hp₀ := h.progress (.inl i)
  rw [hl] at hp₀
  obtain ⟨hpend, hlogged, hdone, hpinned⟩ := hp₀
  have hlt := hlogged.length_lt
  have hout := h.cache.listed_getD (k := j) (by omega)
  -- the log block is read as it is on disk
  have hval : s.mem (start + j + 1) =
      applyWrites d (done.map Prod.snd) (s.log.lh.getD j 0).toNat := by
    have hin : InLog start size (start + j + 1) := ⟨by omega, by omega⟩
    rw [h.cache.sync_of_commit hp hx (h.cache.unpinned_of_inLog hin)]
    exact hlogged.copy j (by omega)
  rw [hval] at hw
  apply Contents.move hp hx
  · exact h.cache.wrote hx rfl hw
  · apply h.pending.move hp hx
    · simp [hw.trace, LogEvent.modification]
    · left
      refine ⟨hpend, ?_⟩
      have hne : (s.log.lh.getD j 0).toNat ≠ start := fun he => hout (he ▸ ⟨le_rfl, by omega⟩)
      rw [committedOps, hw.trace, history_append, historyStep_bwrite (Or.inl hne)]
      rfl
  · rw [hw.log]
    exact h.short
  · intro b hb
    rw [hw.mem]
    by_cases hbj : b = (s.log.lh.getD j 0).toNat
    · rw [hbj, update_self, hpend]
      rfl
    · rw [update_of_ne hbj]
      exact h.mem b hb
  · exact fun hhot => absurd trivial hhot
  · refine ⟨hpend, ?_, ?_, ?_⟩
    · rw [hw.disk, hw.log]
      exact hlogged.install (by omega)
    · intro k hk
      rw [hw.disk, hw.log]
      by_cases hkj : (s.log.lh.getD k 0).toNat = (s.log.lh.getD j 0).toNat
      · rw [hkj, update_self]
      · have hne : k ≠ j := fun he => hkj (by rw [he])
        rw [update_of_ne hkj]
        exact hdone k (by omega)
    · intro b hb
      rw [hw.pinned] at hb
      by_cases hbj : b = (s.log.lh.getD j 0).toNat
      · rw [hbj, update_self] at hb
        cases hb
      · rw [update_of_ne hbj] at hb
        obtain ⟨k, hjk, hkn, hkb⟩ := hpinned b hb
        have hne : k ≠ j := fun he => hbj (by rw [← hkb, he])
        exact ⟨k, by omega, hkn, by rw [hw.log, hkb]⟩

theorem Contents.clear (hl : ls (.inl i) = .commit (.installing n n)) :
    Contents start size d done pend (update ls (.inl i) (.commit .cleared))
      (s.setLh []) := by
  have hx : (ls (.inl i)).InCommit := by
    rw [hl]
    exact trivial
  have hn : s.log.lh.length = n := hp.count (.inl i) n (by rw [hl]; exact rfl)
  have hp₀ := h.progress (.inl i)
  rw [hl] at hp₀
  obtain ⟨hpend, hlogged, hdone, hpinned⟩ := hp₀
  apply Contents.move hp hx
  · refine h.cache.move hx rfl rfl ?_ ?_ ?_
    · intro b hb
      cases hb
    · intro b hb
      obtain ⟨k, hk₁, hk₂, _⟩ := hpinned b hb
      omega
    · exact fun b hb => Or.inr ⟨hb, rfl, rfl⟩
  · exact h.pending.move hp hx rfl (Or.inl ⟨hpend, rfl⟩)
  · simp
  · exact h.mem
  · exact fun hhot => absurd trivial hhot
  · exact ⟨hpend, s.log.lh, hlogged, fun k hk => hdone k (by omega)⟩

theorem Contents.erase
    (hl : ls (.inl i) = .commit .cleared) (hw : Wrote s s' start (setHeader (s.mem start) s.log.lh)) :
    Contents start size d done pend (update ls (.inl i) (.commit .erased)) s' := by
  have hx : (ls (.inl i)).InCommit := by
    rw [hl]
    exact trivial
  have hlh : s.log.lh = [] := hp.gone (.inl i) (by rw [hl]; exact trivial)
  have hp₀ := h.progress (.inl i)
  rw [hl] at hp₀
  obtain ⟨hpend, l, hlogged, hdone⟩ := hp₀
  have hlt := hlogged.length_lt
  rw [hlh] at hw
  have hclean : Clean start size (applyWrites d (done.map Prod.snd)) s'.disk := by
    rw [hw.disk]
    exact hlogged.erase hdone _
  have hzero : headerCount (setHeader (s.mem start) []) = 0 := by
    have := hclean.1
    rwa [hw.disk, update_self] at this
  apply Contents.move hp hx
  · exact h.cache.wrote hx rfl hw
  · apply h.pending.move hp hx
    · simp [hw.trace, LogEvent.modification]
    · left
      refine ⟨hpend, ?_⟩
      rw [committedOps, hw.trace, history_append, historyStep_bwrite (Or.inr hzero)]
      rfl
  · rw [hw.log]
    exact h.short
  · intro b hb
    have hne : b ≠ start := by
      rintro rfl
      exact hb ⟨le_rfl, by omega⟩
    rw [hw.mem, update_of_ne hne]
    exact h.mem b hb
  · exact fun _ => hclean
  · exact hpend

theorem Contents.endCommit {log : Log}
    (hl : ls (.inl i) = .commit .erased) (hlh : log.lh = s.log.lh) :
    Contents start size d done pend (update ls (.inl i) .finished)
      ({ s with log := log }.emit .commitDone) := by
  have hx : (ls (.inl i)).InCommit := by
    rw [hl]
    exact trivial
  have hp₀ := h.progress (.inl i)
  rw [hl] at hp₀
  have hpend : pend = [] := hp₀
  have hclean : Clean start size (applyWrites d (done.map Prod.snd)) s.disk :=
    h.clean_of_commit hp hx (by rw [hl]; exact id)
  apply Contents.move hp hx
  · refine h.cache.move hx rfl rfl ?_ ?_ ?_
    · intro b hb
      exact h.cache.listed b (hlh ▸ hb)
    · intro b hb
      obtain ⟨c, hc, hcb⟩ := h.cache.pinned b hb
      exact ⟨c, hlh.symm ▸ hc, hcb⟩
    · exact fun b hb => Or.inr ⟨hb, rfl, rfl⟩
  · apply h.pending.move hp hx
    · simp [LogEvent.modification]
    · left
      refine ⟨hpend, ?_⟩
      simp [committedOps, historyStep]
  · change log.lh.length ≤ LOGSIZE
    rw [hlh]
    exact h.short
  · exact h.mem
  · exact fun _ => hclean
  · exact trivial

end

end

end Xv6
