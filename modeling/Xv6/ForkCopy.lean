import Xv6.CopyOut
import Xv6.SizeChanges

/-!
# A copy of an address space

The child that `fork` makes with `copyuvm` has the parent's pages, with the same permissions and
contents, in pages of its own. Since no page is shared, neither process ever sees a store of the
other: after any sequence of stores by both, each one sees what its own stores alone leave.
-/

namespace Xv6.Vm

open Resumption ByteLayout Custody Mem Option

/-! ## Stores -/

/-- A store of one byte by the process with directory `dir`. -/
structure Write where
  dir : ℕ
  addr : ℕ
  byte : UInt8

/-- The page must be present, and the user must be allowed to write it; otherwise the store traps. -/
def Mem.poke (m : Mem) (w : Write) : Mem :=
  match m.pte w.dir (w.addr / PGSIZE) with
  | none => m
  | some e =>
    if e &&& PTE_W = 0 ∨ e &&& PTE_U = 0 then m
    else m.setPage (PTE_ADDR e) ((m.page (PTE_ADDR e)).write (w.addr % PGSIZE) 1 fun _ => w.byte)

def Mem.writes (m : Mem) (l : List Write) : Mem := l.foldl Mem.poke m

variable [Link] {m m' m₁ m₂ : Mem} {c d src u : ℕ} {F F' G : Set ℕ} {w : Write}

/-- The child `d` of `src` after `copyuvm`; `G` are the pages of others. -/
structure ForkCopy (src d : ℕ) (G : Set ℕ) (m m' : Mem) : Prop where
  flags : ∀ u < 2 ^ 19, (m'.pte d u).map PTE_FLAGS = (m.pte src u).map PTE_FLAGS
  contents : ∀ u < 2 ^ 19, m'.view d u = m.view src u
  disjoint : ∀ pg ∈ m'.Pages d, pg ∉ m.Pages src ∧ pg ∉ G ∧ pg ∉ m'.freelist
  kernel : ∀ v, 2 ^ 19 ≤ v → m'.pte d v = kernelPte v
  parent : m'.tab src = m.tab src ∧ m'.pte src = m.pte src ∧
    ∀ pg ∈ m.Pages src, m'.page pg = m.page pg
  independent : ∀ l : List Write, (∀ w ∈ l, w.dir = src ∨ w.dir = d) → ∀ u < 2 ^ 19,
    (m'.writes l).view src u = (m.writes (l.filter fun w => w.dir = src)).view src u ∧
    (m'.writes l).view d u = (m'.writes (l.filter fun w => w.dir = d)).view d u

/-! ## Two address spaces -/

omit [Link] in
theorem Mem.poke_eq (hw : w.dir = d) :
    m.poke w = m ∨ ∃ v pg x, m.userPage d v = some pg ∧ m.poke w = m.setPage pg x := by
  unfold Mem.poke
  rw [hw]
  cases he : m.pte d (w.addr / PGSIZE) with
  | none => exact .inl rfl
  | some e =>
    simp only
    by_cases hp : e &&& PTE_W = 0 ∨ e &&& PTE_U = 0
    · rw [if_pos hp]
      exact .inl rfl
    · rw [if_neg hp]
      have hu : e &&& PTE_U ≠ 0 := fun hz => hp (.inr hz)
      refine .inr ⟨w.addr / PGSIZE, PTE_ADDR e, _, ?_, rfl⟩
      unfold Mem.userPage
      rw [he, bind_some, if_neg hu]

omit [Link] in
theorem Mem.pages_congr (htab : m'.tab d = m.tab d) (hpte : m'.pte d = m.pte d) :
    m'.Pages d = m.Pages d := by
  ext pg
  refine exists_congr fun a => ?_
  rcases a with _ | i | v
  · exact Iff.rfl
  · simp only [Mem.Holds, htab]
  · simp only [Mem.Holds, hpte]

structure Apart (c d : ℕ) (F F' : Set ℕ) (m : Mem) : Prop where
  left : SpaceOk m c F
  right : SpaceOk m d F'
  disjoint : ∀ pg ∈ m.Pages c, pg ∉ m.Pages d

section

variable (h : Apart c d F F' m)
include h

theorem Apart.symm : Apart d c F' F m :=
  ⟨h.right, h.left, fun pg hd hc => h.disjoint pg hc hd⟩

theorem Apart.ne : c ≠ d := by
  rintro rfl
  exact h.disjoint c ⟨.dir, rfl⟩ ⟨.dir, rfl⟩

theorem Apart.poke (hw : w.dir = c) :
    Apart c d F F' (m.poke w) ∧ (m.poke w).Pages d = m.Pages d ∧
      ∀ pg ∈ m.Pages d, (m.poke w).page pg = m.page pg := by
  rcases poke_eq (m := m) hw with he | ⟨v, pg, x, hpg, he⟩
  · rw [he]
    exact ⟨h, rfl, fun _ _ => rfl⟩
  · rw [he]
    obtain ⟨hok, htab, hpte⟩ := h.left.userPage_store hpg (x := x)
    have hmem : pg ∈ m.Pages c := by
      obtain ⟨e, hentry, -, haddr⟩ := exists_of_userPage hpg
      exact ⟨.user v, h.left.userPage_lt hpg, by rw [hentry, map_some, haddr]⟩
    have hout : ∀ q ∈ m.Pages d, (m.setPage pg x).page q = m.page q := by
      intro q hq
      refine setPage_page_ne ?_
      rintro rfl
      exact h.disjoint q hmem hq
    obtain ⟨htab', hpte'⟩ := tab_pte_of_pages hout
    have hpages := pages_congr htab' hpte'
    refine ⟨⟨hok, h.right.congr rfl htab' hpte' rfl, ?_⟩, hpages, hout⟩
    rw [pages_congr htab hpte, hpages]
    exact h.disjoint

end

def Agree (d : ℕ) (m₁ m₂ : Mem) : Prop := ∀ pg ∈ m₁.Pages d, m₂.page pg = m₁.page pg

omit [Link] in
theorem Agree.view (h : Agree d m₁ m₂) (hu : u < 2 ^ 19) : m₂.view d u = m₁.view d u := by
  unfold Mem.view
  rw [(tab_pte_of_pages h).2]
  cases he : m₁.pte d u with
  | none => rfl
  | some e =>
    rw [map_some, map_some, h (PTE_ADDR e) ⟨.user u, hu, by rw [he]; rfl⟩]

theorem Agree.poke (h : Agree d m₁ m₂) (hok : SpaceOk m₁ d F) (hw : w.dir = d) :
    Agree d (m₁.poke w) (m₂.poke w) := by
  have hpte := (tab_pte_of_pages h).2
  unfold Mem.poke
  rw [hw, hpte]
  cases he : m₁.pte d (w.addr / PGSIZE) with
  | none => exact h
  | some e =>
    simp only
    by_cases hp : e &&& PTE_W = 0 ∨ e &&& PTE_U = 0
    · rw [if_pos hp, if_pos hp]
      exact h
    · rw [if_neg hp, if_neg hp]
      have hu : e &&& PTE_U ≠ 0 := fun hz => hp (.inr hz)
      have hv : w.addr / PGSIZE < 2 ^ 19 := by
        by_contra hge
        exact hu (hok.kernel _ e (by omega) he)
      obtain ⟨-, hnd, hnt⟩ := hok.user_page hv he
      intro pg hpg
      rw [pages_congr (tab_setPage hnd.symm) (pte_setPage hnd.symm hnt)] at hpg
      by_cases hx : pg = PTE_ADDR e
      · subst hx
        rw [setPage_page_self, setPage_page_self, h _ hpg]
      · rw [setPage_page_ne hx, setPage_page_ne hx, h pg hpg]

theorem Apart.writes (h : Apart c d F F' m₁) (ha : Agree d m₁ m₂) (l : List Write)
    (hl : ∀ w ∈ l, w.dir = c ∨ w.dir = d) :
    Agree d (m₁.writes l) (m₂.writes (l.filter fun w => w.dir = d)) := by
  induction l generalizing m₁ m₂ with
  | nil => exact ha
  | cons w l ih =>
    have hrest : ∀ w ∈ l, w.dir = c ∨ w.dir = d := fun w hw => hl w (List.mem_cons_of_mem _ hw)
    rcases hl w List.mem_cons_self with hw | hw
    · obtain ⟨hap, hpages, hsame⟩ := h.poke hw
      have hne : ¬ w.dir = d := hw ▸ h.ne
      rw [List.filter_cons_of_neg (by simpa using hne)]
      refine ih hap (fun pg hpg => ?_) hrest
      rw [hpages] at hpg
      rw [hsame pg hpg, ha pg hpg]
    · rw [List.filter_cons_of_pos (by simpa using hw)]
      exact ih (h.symm.poke hw).1.symm (ha.poke h.right hw) hrest

/-! ## copyuvm -/

omit [Link] in
theorem PTE_FLAGS_or_present {e : UInt32} (he : e &&& PTE_P ≠ 0) :
    PTE_FLAGS e ||| PTE_P = PTE_FLAGS e := by
  have hbit : (PTE_FLAGS e).toNat.testBit 0 = true := by
    rw [← and_flag e (by decide)] at he
    by_contra hb
    refine he ?_
    rw [← UInt32.toNat_inj, UInt32.toNat_and]
    change (PTE_FLAGS e).toNat &&& 1 = 0
    rw [Nat.testBit_zero, decide_eq_true_eq] at hb
    rw [Nat.and_one_is_mod]
    omega
  rw [← UInt32.toNat_inj, UInt32.toNat_or]
  refine Nat.eq_of_testBit_eq fun i => ?_
  rw [Nat.testBit_or]
  change ((PTE_FLAGS e).toNat.testBit i || Nat.testBit 1 i) = _
  cases i with
  | zero => rw [hbit, Bool.true_or]
  | succ i =>
    have hone : Nat.testBit 1 (i + 1) = false := by
      rw [Nat.testBit_succ]
      exact Nat.zero_testBit i
    rw [hone, Bool.or_false]

theorem SpaceOk.beside (h : SpaceOk m src G) (hok : SpaceOk m' d F)
    (hfree : ∀ pg ∈ m'.freelist, pg ∈ m.freelist)
    (hpages : ∀ pg ∈ m.Pages src, m'.page pg = m.page pg) : SpaceOk m' src G := by
  obtain ⟨htab, hpte⟩ := tab_pte_of_pages hpages
  have hsub : ∀ a pg, m'.Holds src a pg → m.Holds src a pg := by
    rintro (_ | _ | i | v) pg hp
    · exact hfree pg hp
    · exact hp
    · simpa only [Mem.Holds, htab] using hp
    · simpa only [Mem.Holds, hpte] using hp
  exact ⟨hok.nodup, h.excl.mono hsub, fun a pg hp => h.frame a pg (hsub a pg hp),
    fun a pg hp => h.range a pg (hsub a pg hp), hpte ▸ h.kernel, hok.single⟩

section Copy

variable {n : ℕ} (h : SpaceOk m src G) (hb : Built F d m m₁)
  (hg : Gains (CopyOf m src) d F 0 n m₁ m') (hsrc : ∀ pg ∈ m.Pages src, pg ∈ F)
  (huser : ∀ u < 2 ^ 19, m.pte src u ≠ none ↔ u < n)
include hg

theorem Gains.child_page (hn : n ≤ 2 ^ 19) (hu : u < n) :
    ∃ e e', m.pte src u = some e ∧ m'.pte d u = some e' ∧ PTE_FLAGS e' = PTE_FLAGS e ∧
      m'.page (PTE_ADDR e') = m.page (PTE_ADDR e) := by
  obtain ⟨pg, perm, he', haddr, e, he, rfl, hpage⟩ := hg.new u (Nat.zero_le u) hu
  obtain ⟨-, -, -, hp⟩ := pte_eq_some he
  have hpg := (hg.ok.range (some (.user u)) pg
    ⟨by omega, by rw [he', map_some, haddr]⟩).2
  rw [PTE_FLAGS_or_present hp] at he' haddr
  refine ⟨e, _, he, he', ?_, by rw [haddr, hpage]⟩
  exact PTE_FLAGS_mkPte (hpg.trans (by decide)) (PTE_FLAGS_lt e)

include hb

theorem Gains.child_above (hu : ¬ u < n) : m'.pte d u = kernelPte u := by
  rw [hg.same u (by omega), hb.pte]

include h

theorem Gains.parent_page {pg : ℕ} (hpg : pg ∈ m.Pages src) : m'.page pg = m.page pg := by
  have hfree : pg ∉ m.freelist := by
    obtain ⟨a, ha⟩ := hpg
    intro hf
    cases h.excl (some a) none pg ha hf
  have hstock : pg ∉ m₁.Stock d := by
    rw [hb.opened.stock]
    exact hfree
  rw [hg.contents pg hstock, hb.opened.contents pg hfree]

include hsrc

theorem Gains.apart : Apart src d G F m' := by
  have hpages : ∀ pg ∈ m.Pages src, m'.page pg = m.page pg :=
    fun pg hpg => hg.parent_page h hb hpg
  obtain ⟨htab, hpte⟩ := tab_pte_of_pages hpages
  refine ⟨h.beside hg.ok (fun pg hp => hb.opened.free_sub pg (hg.free pg hp)) hpages, hg.ok, ?_⟩
  rw [pages_congr htab hpte]
  rintro pg hpg ⟨a, ha⟩
  exact hg.ok.frame (some a) pg ha (hsrc pg hpg)

include huser

theorem Gains.forkCopy (hG : G ⊆ F) (hn : n ≤ 2 ^ 19) : ForkCopy src d G m m' := by
  have hpages : ∀ pg ∈ m.Pages src, m'.page pg = m.page pg :=
    fun pg hpg => hg.parent_page h hb hpg
  have hapart := hg.apart h hb hsrc
  have hnone : ∀ u < 2 ^ 19, ¬ u < n → m.pte src u = none ∧ m'.pte d u = none := by
    intro u hu hge
    refine ⟨?_, by rw [hg.child_above hb hge, kernelPte_low hu]⟩
    by_contra hp
    exact hge ((huser u hu).mp hp)
  refine ⟨?_, ?_, ?_, fun v hv => hg.child_above hb (by omega), ?_, ?_⟩
  · intro u hu
    by_cases hlt : u < n
    · obtain ⟨e, e', he, he', hflags, -⟩ := hg.child_page hn hlt
      rw [he, he', map_some, map_some, hflags]
    · rw [(hnone u hu hlt).1, (hnone u hu hlt).2]
  · intro u hu
    unfold Mem.view
    by_cases hlt : u < n
    · obtain ⟨e, e', he, he', -, hpage⟩ := hg.child_page hn hlt
      rw [he, he', map_some, map_some, hpage]
    · rw [(hnone u hu hlt).1, (hnone u hu hlt).2]
      rfl
  · rintro pg ⟨a, ha⟩
    refine ⟨fun hp => hg.ok.frame (some a) pg ha (hsrc pg hp),
      fun hp => hg.ok.frame (some a) pg ha (hG hp), fun hp => ?_⟩
    cases hg.ok.excl (some a) none pg ha hp
  · exact ⟨(tab_pte_of_pages hpages).1, (tab_pte_of_pages hpages).2, hpages⟩
  · intro l hl u hu
    have hparent : Agree src m' m := by
      intro pg hpg
      rw [pages_congr (tab_pte_of_pages hpages).1 (tab_pte_of_pages hpages).2] at hpg
      exact (hpages pg hpg).symm
    refine ⟨?_, ?_⟩
    · exact ((hapart.symm.writes hparent l fun w hw => (hl w hw).symm).view hu).symm
    · exact ((hapart.writes (fun _ _ => rfl) l hl).view hu).symm

end Copy

/-- `copyuvm` fails only if a request is refused; otherwise the child is a copy. -/
theorem copyuvm_copies {sz : UInt32} (h : SpaceOk m src G)
    (huser : ∀ u < 2 ^ 19, m.pte src u ≠ none ↔ u < pagesOf sz) :
    ∃ r m', copyuvm src sz m = .ok r m' ∧
      match r with
      | none => ∃ k ≤ 66 + 2 * pagesOf sz, m.FirstRefused k
      | some d => ForkCopy src d G m m' := by
  have hn := pagesOf_le (h.size_lt huser)
  have hpool : PoolOk m (m.Pages src ∪ G) := by
    refine ⟨h.nodup, ?_, fun pg hp => h.range none pg hp, h.single⟩
    rintro pg hp (⟨a, ha⟩ | hG)
    · cases h.excl (some a) none pg ha hp
    · exact h.frame none pg hp hG
  obtain ⟨r, m', hrun, hpost⟩ := wp_exists_ok (wp_copyuvm hpool (fun _ hp => .inl hp) hn
    fun u hu => (huser u (by omega)).mpr hu)
  refine ⟨r, m', hrun, ?_⟩
  cases r with
  | none =>
    obtain ⟨k, hk, hdecl⟩ := hpost
    exact ⟨k, hk, hdecl.first⟩
  | some d =>
    obtain ⟨m₁, hb, hg⟩ := hpost
    exact hg.forkCopy h hb (fun _ hp => .inl hp) huser (fun _ hp => .inr hp) hn

omit [Link] in
/-- The first process can be copied. -/
theorem copyuvm_copies_init : ∃ s d c m',
    @main smallKernel [] 0 (State.off (fun _ => .zero) fun _ => false) = .ok () s ∧
    @copyuvm smallKernel d (s.proc s.cur).sz s.mem = .ok (some c) m' ∧
      @ForkCopy smallKernel d c (s.Owned (mine (some s.cur))) s.mem m' := by
  obtain ⟨s, d, hboot, hok, href, hf⟩ := @exists_fresh smallKernel
  obtain ⟨h, -, huser, hsz⟩ := @Fresh.space smallKernel _ _ _ hok hf
  obtain ⟨r, m', hrun, hpost⟩ := @copyuvm_copies smallKernel _ _ _ _ h huser
  cases r with
  | some c => exact ⟨s, d, c, m', hboot, hrun, hpost⟩
  | none =>
    obtain ⟨k, hk, hfirst⟩ := hpost
    have hle := Mem.Ample.not_first ⟨href, @Fresh.length smallKernel _ _ _ hf⟩ hfirst
    rw [hsz] at hk
    have : pagesOf (UInt32.ofNat PGSIZE) = 1 := by decide
    omega

end Xv6.Vm
