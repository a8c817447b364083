import Xv6.LogHistory

/-!
# What the cache and the disk hold

`Contents` splits the modifications made so far into those of committed operations, which recovery
of the disk reproduces, and those of the current group, which are only in memory. While an
operation is open no block of the group reaches its home location.
-/

namespace Xv6

open Resumption ByteLayout Function LogState

variable {ι κ : Type}

namespace Loc

def holds : Loc → Option ℕ
  | holding _ b _ => some b.toNat
  | reading b => some b
  | _ => none

def Hot : Loc → Prop
  | commit (.installing _ _) | commit .cleared => True
  | _ => False

theorem Hot.inCommit {l : Loc} (h : l.Hot) : l.InCommit := by
  cases l with
  | commit st => exact trivial
  | entered => exact trivial
  | _ => exact h

end Loc

def Holders (ls : ι ⊕ κ → Loc) (busy : ℕ → Bool) : Prop :=
  (∀ x b, (ls x).holds = some b → busy b = true) ∧
    ∀ x y b, (ls x).holds = some b → (ls y).holds = some b → x = y

/-- Only logged blocks are pinned, and an unpinned buffer that nobody is changing agrees with
the disk. -/
structure Cache (start size : ℕ) (ls : ι ⊕ κ → Loc) (s : LogState ι) : Prop where
  holders : Holders ls s.busy
  home : ∀ i d b h, ls (.inl i) = .holding d b h → ¬ InLog start size b.toNat
  listed : ∀ b ∈ s.log.lh, ¬ InLog start size b.toNat
  pinned : ∀ b, s.pinned b = true → ∃ c ∈ s.log.lh, c.toNat = b
  sync : ∀ b, s.pinned b = false →
    (∀ i d c, ls (.inl i) = .holding d c .modified → c.toNat ≠ b) → s.mem b = s.disk b

/-- The modifications of the current group are all by operations of the group, and each of them is
in the header unless its `log_write` is still to come. -/
structure Pending (start : ℕ) (done pend : List (ι × Write)) (ls : ι ⊕ κ → Loc) (s : LogState ι) :
    Prop where
  split : modifications s.trace = done ++ pend
  durable : ∀ m ∈ done, m.1 ∈ committedOps start s.trace
  fresh : ∀ m ∈ pend, m.1 ∉ committedOps start s.trace
  members : ∀ m ∈ pend, m.1 ∈ groupOps start s.trace ∨ (ls (.inl m.1)).IsOpen
  logged : ∀ m ∈ pend, m.2.1 ∈ s.log.lh ∨ ∃ d, ls (.inl m.1) = .holding d m.2.1 .modified

/-- What a committing thread has achieved on disk; `T` is what recovery produces. -/
def Loc.Progress (start size : ℕ) (T : ℕ → Block) (pend : List (ι × Write)) (s : LogState ι) :
    Loc → Prop
  | commit (.copying n j) => 0 < n ∧
      ∀ k < j, s.disk (start + k + 1) = s.mem (s.log.lh.getD k 0).toNat
  | commit (.installing n j) => pend = [] ∧ Logged start size T s.disk s.log.lh ∧
      (∀ k < j, s.disk (s.log.lh.getD k 0).toNat = T (s.log.lh.getD k 0).toNat) ∧
      ∀ b, s.pinned b = true → ∃ k, j ≤ k ∧ k < n ∧ (s.log.lh.getD k 0).toNat = b
  | commit .cleared => pend = [] ∧ ∃ l, Logged start size T s.disk l ∧
      ∀ k < l.length, s.disk (l.getD k 0).toNat = T (l.getD k 0).toNat
  | commit .erased => pend = []
  | _ => True

variable {x : ι ⊕ κ} {busy : ℕ → Bool} {b : ℕ}

theorem Loc.Progress.of_not_inCommit {start size : ℕ} {T : ℕ → Block} {pend : List (ι × Write)}
    {s : LogState ι} {l : Loc} (h : ¬ l.InCommit) : l.Progress start size T pend s := by
  cases l with
  | commit st => exact absurd trivial h
  | _ => exact trivial

structure Contents (start size : ℕ) (d : ℕ → Block) (done pend : List (ι × Write))
    (ls : ι ⊕ κ → Loc) (s : LogState ι) : Prop where
  cache : Cache start size ls s
  pending : Pending start done pend ls s
  short : s.log.lh.length ≤ LOGSIZE
  mem : ∀ b, ¬ InLog start size b →
    s.mem b = applyWrites (applyWrites d (done.map Prod.snd)) (pend.map Prod.snd) b
  clean : (∀ x, ¬ (ls x).Hot) → Clean start size (applyWrites d (done.map Prod.snd)) s.disk
  progress : ∀ x, (ls x).Progress start size (applyWrites d (done.map Prod.snd)) pend s

variable {start size : ℕ} {ws : ι → List Write} {d : ℕ → Block} {done pend : List (ι × Write)} {ls : ι ⊕ κ → Loc}
  {s s' : LogState ι}

theorem Contents.boot (hd : headerCount (d start) = 0) :
    Contents start size d [] [] (Sum.elim (fun _ : ι => .before) fun _ : κ => .idle)
      (boot start size d) := by
  constructor
  · constructor
    · constructor
      · rintro (x | x) b hb <;> cases hb
      · rintro (x | x) y b hb <;> cases hb
    · intro i d b h hl
      cases hl
    · intro b hb
      cases hb
    · intro b hb
      cases hb
    · intro b _ _
      rfl
  · constructor
    · rfl
    · intro m hm
      cases hm
    · intro m hm
      cases hm
    · intro m hm
      cases hm
    · intro m hm
      cases hm
  · simp [Xv6.boot]
  · intro b _
    rfl
  · intro _
    exact ⟨hd, fun b _ => rfl⟩
  · rintro (x | x) <;> exact trivial

theorem Contents.recoverable (h : Contents start size d done pend ls s) (hsize : 0 < size) :
    Recoverable start size (applyWrites d (done.map Prod.snd)) s.disk := by
  by_cases hhot : ∃ x, (ls x).Hot
  · obtain ⟨x, hx⟩ := hhot
    have hp := h.progress x
    cases hl : ls x with
    | commit st =>
        rw [hl] at hx hp
        cases st with
        | installing n j => exact ⟨_, hp.2.1⟩
        | cleared =>
            obtain ⟨l, hlog, _⟩ := hp.2
            exact ⟨l, hlog⟩
        | copying n j => exact hx.elim
        | erased => exact hx.elim
    | _ =>
        rw [hl] at hx
        exact hx.elim
  · push Not at hhot
    exact (h.clean hhot).recoverable hsize

/-! ## Steps of users and readers -/

structure SameView (s s' : LogState ι) : Prop where
  disk : s'.disk = s.disk
  mem : s'.mem = s.mem
  pinned : s'.pinned = s.pinned
  log : s'.log = s.log
  trace : s'.trace = s.trace

theorem SameView.hold (s : LogState ι) (b : ℕ) : SameView s (s.hold b) := by
  constructor <;> simp

section Atomic

variable {R : Unit → LogState ι → Prop} {E : Stop → LogState ι → Prop} {b : ℕ}

theorem wp_brelse_view (hE : E (.panic "brelse") s)
    (hR : ∀ s', SameView s s' → s'.busy = update s.busy b false → R () s') :
    wp (brelse b) R E s := by
  cases h : s.bcache b with
  | none => simpa [brelse, h] using hE
  | some u =>
      have hmem : s.mem b = u.data := by simp [mem, h]
      have hpin : s.pinned b = u.dirty := by simp [pinned, h]
      cases hu : u.busy with
      | false => simpa [brelse, h, hu] using hE
      | true =>
          rw [wp_brelse h hu]
          apply hR
          · constructor
            · simp
            · simp [← hmem]
            · simp [← hpin]
            · simp
            · simp
          · simp

theorem wp_recycle_view (hsync : s.pinned b = false → s.busy b = false → s.mem b = s.disk b)
    (hE : E .sleep s) (hR : ∀ s', SameView s s' → s'.busy = s.busy → R () s') :
    wp (recycle b) R E s := by
  cases h : s.bcache b with
  | none => simpa [recycle, h] using hE
  | some u =>
      by_cases hu : u.busy = true ∨ u.dirty = true
      · simpa [recycle, h, hu] using hE
      · have hbusy : s.busy b = false := by simpa [busy, h] using fun hb => hu (Or.inl hb)
        have hpin : s.pinned b = false := by
          simpa [pinned, h] using fun hb => hu (Or.inr hb)
        have hmem := hsync hpin hbusy
        have hset : R () (s.setBuf b none) := by
          apply hR
          · constructor
            · rfl
            · funext c
              by_cases hc : c = b
              · rw [hc, hmem]
                simp [mem]
              · simp [mem, hc]
            · funext c
              by_cases hc : c = b
              · rw [hc, hpin]
                simp [pinned]
              · simp [pinned, hc]
            · rfl
            · rfl
          · funext c
            by_cases hc : c = b
            · rw [hc, hbusy]
              simp [busy]
            · simp [busy, hc]
        simpa [recycle, h, hu] using hset

end Atomic

theorem Contents.clean_of_open (hp : Protocol start size ls s)
    (h : Contents start size d done pend ls s) {i : ι} (ho : (ls (.inl i)).IsOpen) :
    Clean start size (applyWrites d (done.map Prod.snd)) s.disk :=
  h.clean fun x hx => hp.no_commit ho x hx.inCommit

theorem not_holding_of_inCommit (hx : (ls x).InCommit) (e : List Write) (b : UInt32)
    (k : Holding) : ls x ≠ .holding e b k := by
  intro h
  rw [h] at hx
  exact hx

theorem Pending.closed (hp : Protocol start size ls s) (h : Pending start done pend ls s)
    (hx : (ls x).InCommit) : ∀ m ∈ pend, m.1 ∈ groupOps start s.trace ∧ m.2.1 ∈ s.log.lh := by
  intro m hm
  have hclosed := hp.no_open hx m.1
  constructor
  · cases h.members m hm with
    | inl hg => exact hg
    | inr ho => exact absurd ho hclosed
  · cases h.logged m hm with
    | inl hin => exact hin
    | inr hheld =>
        obtain ⟨e, he⟩ := hheld
        rw [he] at hclosed
        exact absurd trivial hclosed

theorem Contents.clean_of_commit (hp : Protocol start size ls s)
    (h : Contents start size d done pend ls s) (hx : (ls x).InCommit)
    (hcold : ¬ (ls x).Hot) : Clean start size (applyWrites d (done.map Prod.snd)) s.disk := by
  apply h.clean
  intro y hy
  rw [hp.unique y x hy.inCommit hx] at hy
  exact hcold hy

variable [DecidableEq ι] [DecidableEq κ]

theorem Holders.acquire (h : Holders ls busy) (x : ι ⊕ κ) (l : Loc) (hfree : busy b = false)
    (hl : l.holds = some b) : Holders (update ls x l) (update busy b true) := by
  have hnot : ∀ y c, (ls y).holds = some c → c ≠ b := by
    rintro y c hy rfl
    rw [h.1 y c hy] at hfree
    cases hfree
  constructor
  · intro y c hy
    by_cases hyx : y = x
    · rw [hyx, update_self, hl] at hy
      injection hy with hbc
      rw [← hbc, update_self]
    · rw [update_of_ne hyx] at hy
      rw [update_of_ne (hnot y c hy)]
      exact h.1 y c hy
  · intro y z c hy hz
    by_cases hyx : y = x
    · by_cases hzx : z = x
      · rw [hyx, hzx]
      · rw [hyx, update_self, hl] at hy
        injection hy with hbc
        rw [update_of_ne hzx] at hz
        exact absurd hbc.symm (hnot z c hz)
    · rw [update_of_ne hyx] at hy
      by_cases hzx : z = x
      · rw [hzx, update_self, hl] at hz
        injection hz with hbc
        exact absurd hbc.symm (hnot y c hy)
      · rw [update_of_ne hzx] at hz
        exact h.2 y z c hy hz

theorem Holders.release (h : Holders ls busy) (x : ι ⊕ κ) (l : Loc) (hx : (ls x).holds = some b)
    (hl : l.holds = none) : Holders (update ls x l) (update busy b false) := by
  have hold : ∀ y c, (update ls x l y).holds = some c → y ≠ x ∧ (ls y).holds = some c := by
    intro y c hy
    by_cases hyx : y = x
    · rw [hyx, update_self, hl] at hy
      cases hy
    · rw [update_of_ne hyx] at hy
      exact ⟨hyx, hy⟩
  constructor
  · intro y c hy
    obtain ⟨hyx, hy⟩ := hold y c hy
    have hcb : c ≠ b := by
      rintro rfl
      exact hyx (h.2 y x c hy hx)
    rw [update_of_ne hcb]
    exact h.1 y c hy
  · intro y z c hy hz
    exact h.2 y z c (hold y c hy).2 (hold z c hz).2

theorem Holders.keep (h : Holders ls busy) (x : ι ⊕ κ) (l : Loc)
    (hl : l.holds = (ls x).holds) : Holders (update ls x l) busy := by
  have hold : ∀ y, (update ls x l y).holds = (ls y).holds := by
    intro y
    by_cases hyx : y = x
    · rw [hyx, update_self, hl]
    · rw [update_of_ne hyx]
  constructor
  · intro y c hy
    exact h.1 y c (hold y ▸ hy)
  · intro y z c hy hz
    exact h.2 y z c (hold y ▸ hy) (hold z ▸ hz)

end Xv6
