import Xv6.SparseSpace

/-!
# Growing and shrinking

`allocuvm` either adds all the pages up to a new size or none, whatever request is refused. `sbrk`
adds a signed amount to the size of the process. For this it relies on `allocuvm` and `deallocuvm`,
which return the new size, or 0 for an error; a process cannot shrink to nothing, and a size below
zero wraps around to one that `deallocuvm` ignores.
-/

namespace Xv6.Vm

open Resumption ByteLayout Custody UInt32 Option Finset

/-- What the process has at virtual page `u`. -/
def Mem.view (m : Mem) (d u : ℕ) : Option Page := (m.pte d u).map fun e => m.page (PTE_ADDR e)

/-- The user translations are the same, and a page that left the free list has become a table. -/
structure RolledBack (d : ℕ) (m m' : Mem) : Prop where
  pte : ∀ u < 2 ^ 19, m'.pte d u = m.pte d u
  free : ∀ pg ∈ m.freelist, pg ∈ m'.freelist ∨ ∃ i, m.tab d i = none ∧ m'.tab d i = some pg

/-- The user pages end at `newsz`; those from `oldsz` on are empty and may be written by the user. -/
structure Grown (d : ℕ) (oldsz newsz : UInt32) (m m' : Mem) : Prop where
  user : ∀ u < 2 ^ 19, m'.pte d u ≠ none ↔ u < pagesOf newsz
  new : ∀ u, pagesOf oldsz ≤ u → u < pagesOf newsz → ∃ e, m'.pte d u = some e ∧
    e &&& PTE_W ≠ 0 ∧ e &&& PTE_U ≠ 0 ∧ m'.page (PTE_ADDR e) = .zero
  old : ∀ u < pagesOf oldsz, m'.pte d u = m.pte d u ∧ m'.view d u = m.view d u

variable [Link] {m m' : Mem} {d u lo hi : ℕ} {F : Set ℕ} {oldsz newsz sz : UInt32}

variable {n : Int32} {s s' : State} {sz' : UInt32} {ok : Bool}

omit [Link] in
theorem pagesOf_zero : pagesOf 0 = 0 := by decide

omit [Link] in
theorem pagesOf_mono (h : oldsz.toNat ≤ newsz.toNat) : pagesOf oldsz ≤ pagesOf newsz := by
  unfold pagesOf
  exact Nat.div_le_div_right (by omega)

/-! ## What a change leaves -/

theorem view_congr (h : SpaceOk m d F) (hu : u < 2 ^ 19) (hpte : m'.pte d u = m.pte d u)
    (hpage : ∀ pg, pg ∉ m.freelist → pg ≠ d → (∀ i, m.tab d i ≠ some pg) → m'.page pg = m.page pg) :
    m'.view d u = m.view d u := by
  unfold Mem.view
  rw [hpte]
  cases he : m.pte d u with
  | none => rfl
  | some e =>
    obtain ⟨hfree, hdir, htab⟩ := h.user_page hu he
    rw [map_some, map_some, hpage _ hfree hdir htab]

theorem Keeps.rolledBack (h : SpaceOk m d F) (hk : Keeps d F m m')
    (hpte : ∀ u < 2 ^ 19, m'.pte d u = m.pte d u) : RolledBack d m m' := by
  refine ⟨hpte, fun pg hpg => ?_⟩
  have hstock : pg ∈ m'.Stock d := by
    rw [hk.stock]
    exact ⟨none, hpg⟩
  rcases mem_stock.mp hstock with hfree | rfl | ⟨i, hi⟩ | ⟨v, hv, hp⟩
  · exact .inl hfree
  · cases h.excl none (some .dir) pg hpg rfl
  · refine .inr ⟨i, ?_, hi⟩
    cases ht : m.tab d i with
    | none => rfl
    | some t =>
      obtain rfl : t = pg := Option.some.inj ((hk.keep i t ht).symm.trans hi)
      cases h.excl none (some (.tab i)) t hpg ht
  · rw [hpte v hv] at hp
    cases h.excl none (some (.user v)) pg hpg ⟨hv, hp⟩

theorem Gains.grown (h : SpaceOk m d F) (hold : ∀ u < 2 ^ 19, m.pte d u ≠ none ↔ u < pagesOf oldsz)
    (hle : pagesOf oldsz ≤ pagesOf newsz) (hnew : newsz.toNat < KERNBASE)
    (hg : Gains FreshPage d F (pagesOf oldsz) (pagesOf newsz) m m') : Grown d oldsz newsz m m' := by
  have hlast := pagesOf_le hnew
  refine ⟨?_, ?_, ?_⟩
  · intro u hu
    by_cases hin : pagesOf oldsz ≤ u ∧ u < pagesOf newsz
    · exact iff_of_true (hg.pte_new hin.1 hin.2) hin.2
    · rw [hg.same u hin, hold u hu]
      omega
  · intro u h₁ h₂
    obtain ⟨pg, perm, he, haddr, rfl, hzero⟩ := hg.new u h₁ h₂
    have hpg := (hg.ok.range (some (.user u)) pg ⟨by omega, by rw [he, map_some, haddr]⟩).2
    have hlt : pg < 2 ^ 20 := hpg.trans (by decide)
    refine ⟨_, he, ?_, ?_, by rw [haddr]; exact hzero⟩
    · rw [mkPte_flag hlt (by decide) (by decide)]
      decide
    · rw [mkPte_flag hlt (by decide) (by decide)]
      decide
  · intro u hu
    have hsame := hg.same u (by omega)
    exact ⟨hsame, view_congr h (by omega) hsame hg.user⟩

/-- `sys_sbrk`; `none` if `argint` fails. -/
def sys_sbrk (arg : Option Int32) : M Int32 := do
  match arg with
  | none => return -1
  | some n =>
    let p ← getProc
    let addr := p.sz.toInt32
    if ← growproc n then return addr else return -1

/-- The size has changed by `n` and so have the pages, or -1 is returned and nothing has changed. -/
def SbrkExact (d : ℕ) (n : Int32) (s : State) (r : Int32) (s' : State) : Prop :=
  r = (s.proc s.cur).sz.toInt32 ∧ 0 ≤ (s.proc s.cur).sz.toNat + n.toInt ∧
      (s.proc s.cur).sz.toNat + n.toInt < KERNBASE ∧
      (s'.proc s.cur).sz.toNat = (s.proc s.cur).sz.toNat + n.toInt ∧
      (∀ u < 2 ^ 19, s'.mem.view d u = if u < pagesOf (s'.proc s.cur).sz then
        if u < pagesOf (s.proc s.cur).sz then s.mem.view d u else some .zero else none) ∨
  r = -1 ∧ (s'.proc s.cur).sz = (s.proc s.cur).sz ∧ ∀ u < 2 ^ 19, s'.mem.view d u = s.mem.view d u

/-- The size does not fall to 0 or below it, unless it is 0. -/
def StaysPositive (sz : UInt32) (n : Int32) : Prop :=
  0 ≤ n.toInt ∨ sz = 0 ∨ 0 < sz.toNat + n.toInt

omit [Link] in
theorem toNat_add_toUInt32 (sz : UInt32) (n : Int32) :
    ((sz + n.toUInt32).toNat : ℤ) = (sz.toNat + n.toInt) % 2 ^ 32 := by
  have hn : n.toInt = n.toUInt32.toNat ∨ n.toInt = n.toUInt32.toNat - 2 ^ 32 := by
    have hcond := BitVec.toInt_eq_toNat_cond n.toBitVec
    rw [Int32.toInt_toBitVec, Int32.toNat_toBitVec] at hcond
    split_ifs at hcond
    · exact .inl hcond
    · exact .inr hcond
  rw [UInt32.toNat_add]
  omega

theorem SpaceOk.pages_le {n : ℕ} (h : SpaceOk m d F) (hn : n ≤ 2 ^ 19)
    (huser : ∀ u < n, m.pte d u ≠ none) : n ≤ PHYSTOP / PGSIZE := by
  have hpage : ∀ u < n, ∃ pg, m.Holds d (some (.user u)) pg := by
    intro u hu
    obtain ⟨e, he⟩ := ne_none_iff_exists'.mp (huser u hu)
    exact ⟨PTE_ADDR e, by omega, by rw [he]; rfl⟩
  choose! page hpage using hpage
  have hcard := card_le_card_of_injOn page (s := Finset.range n)
    (t := Finset.range (PHYSTOP / PGSIZE)) ?_ ?_
  · rwa [card_range, card_range] at hcard
  · intro u hu
    rw [mem_coe, mem_range] at hu ⊢
    exact (h.range _ _ (hpage u hu)).2
  · intro u hu v hv huv
    rw [mem_coe, mem_range] at hu hv
    have := h.excl _ _ _ (hpage u hu) (huv ▸ hpage v hv)
    simpa using this

theorem SpaceOk.size_lt (h : SpaceOk m d F)
    (huser : ∀ u < 2 ^ 19, m.pte d u ≠ none ↔ u < pagesOf sz) : sz.toNat < KERNBASE := by
  by_contra hge
  have hall : 2 ^ 19 ≤ pagesOf sz := by
    unfold pagesOf
    simp only [PGSIZE, KERNBASE] at *
    omega
  have := h.pages_le le_rfl fun u hu => (huser u hu).mpr (by omega)
  exact absurd this (by decide)

/-- What becomes of the memory of a process and of its size, before a size of 0 is taken for an
error. -/
inductive Resize (d : ℕ) (F : Set ℕ) (sz : UInt32) (n : Int32) (m : Mem) : UInt32 → Mem → Prop
  | denied (m' : Mem) (hpos : 0 < n.toInt) (hres : Restored d F m m') : Resize d F sz n m 0 m'
  | grown (m' : Mem) (hpos : 0 < n.toInt) (hlt : sz.toNat + n.toInt < KERNBASE)
      (hg : Gains FreshPage d F (pagesOf sz) (pagesOf (sz + n.toUInt32)) m m') :
      Resize d F sz n m (sz + n.toUInt32) m'
  | shrunk (m' : Mem) (hneg : n.toInt < 0) (hge : 0 ≤ sz.toNat + n.toInt)
      (hs : Shrinks d F (pagesOf (sz + n.toUInt32)) sz.toNat m m') :
      Resize d F sz n m (sz + n.toUInt32) m'
  | wrapped (hneg : n.toInt < 0) (hlt : sz.toNat + n.toInt < 0) : Resize d F sz n m sz m
  | same (hzero : n.toInt = 0) : Resize d F sz n m sz m

/-- The result and the state once the memory is `m'` and the size would become `sz'`. -/
def Settled (n : Int32) (s : State) (sz' : UInt32) (m' : Mem) (ok : Bool) (s' : State) : Prop :=
  n ≠ 0 ∧ sz' = 0 ∧ ok = false ∧ s' = { s with mem := m' } ∨
  ¬ (n ≠ 0 ∧ sz' = 0) ∧ ok = true ∧
    s' = { s with mem := m' }.setProc s.cur { s.proc s.cur with sz := sz' }

omit [Link] in
theorem wp_settled {m' : Mem} {E : Stop → State → Prop} (sz' : UInt32) :
    wp (if n ≠ 0 ∧ sz' = 0 then return false
      else do
        let s ← get
        setProc s.cur { s.proc s.cur with sz := sz' }
        return true : M Bool) (Settled n s sz' m') E { s with mem := m' } := by
  by_cases hc : n ≠ 0 ∧ sz' = 0
  · rw [if_pos hc, wp_pure]
    exact .inl ⟨hc.1, hc.2, rfl, rfl⟩
  · rw [if_neg hc]
    simp only [setProc, wp_bind, wp_get, wp_modify, wp_pure]
    exact .inr ⟨hc, rfl, rfl⟩

section Sbrk

variable {s : State} {n : Int32} {E : Stop → State → Prop} (h : SpaceOk s.mem d F)
  (hd : (s.proc s.cur).pgdir = some d)
  (huser : ∀ u < 2 ^ 19, s.mem.pte d u ≠ none ↔ u < pagesOf (s.proc s.cur).sz)
include h hd huser

theorem wp_growproc_resize : wp (growproc n) (fun ok s' => ∃ sz' m',
    Resize d F (s.proc s.cur).sz n s.mem sz' m' ∧ Settled n s sz' m' ok s') E s := by
  have hsize := h.size_lt huser
  have hadd := toNat_add_toUInt32 (s.proc s.cur).sz n
  have hmax := Int32.toInt_lt n
  have hmin := Int32.le_toInt n
  simp only [KERNBASE] at hsize
  have hnone : ∀ u, pagesOf (s.proc s.cur).sz ≤ u → u < 2 ^ 19 → s.mem.pte d u = none := by
    intro u h₁ h₂
    by_contra hp
    have := (huser u h₂).mp hp
    omega
  have hend : ∀ sz' m', Resize d F (s.proc s.cur).sz n s.mem sz' m' →
      wp (if n ≠ 0 ∧ sz' = 0 then return false
        else do
          let s ← get
          setProc s.cur { s.proc s.cur with sz := sz' }
          return true : M Bool) (fun ok s' => ∃ sz' m', Resize d F (s.proc s.cur).sz n s.mem sz' m' ∧
            Settled n s sz' m' ok s') E { s with mem := m' } :=
    fun sz' m' hr => wp_post (wp_settled sz') (fun ok s' hs => ⟨sz', m', hr, hs⟩)
  unfold growproc getProc
  simp only [wp_bind, wp_get, wp_pure, hd]
  by_cases hpos : n > 0
  · have hpos' : 0 < n.toInt := Int32.lt_iff_toInt_lt.mp hpos
    rw [if_pos hpos, wp_bind, wp_onMem]
    refine wp_post (wp_allocuvm h hsize hnone) ?_
    rintro r m' (⟨rfl, hres, -⟩ | ⟨hlt, -, -⟩ | ⟨-, hnew, rfl, hg⟩)
    · exact hend 0 m' (.denied m' hpos' hres)
    · have := UInt32.lt_iff_toNat_lt.mp hlt
      omega
    · refine hend _ m' (.grown m' hpos' ?_ hg)
      simp only [KERNBASE] at hnew ⊢
      omega
  rw [if_neg hpos]
  have hpos' : ¬ 0 < n.toInt := fun hp => hpos (Int32.lt_iff_toInt_lt.mpr hp)
  by_cases hneg : n < 0
  · have hneg' : n.toInt < 0 := Int32.lt_iff_toInt_lt.mp hneg
    rw [if_pos hneg, wp_bind, wp_onMem]
    by_cases hwrap : (s.proc s.cur).sz.toNat + n.toInt < 0
    · have hge : (s.proc s.cur).sz + n.toUInt32 ≥ (s.proc s.cur).sz := by
        refine UInt32.le_iff_toNat_le.mpr ?_
        omega
      unfold deallocuvm
      rw [if_pos hge, wp_pure]
      exact hend _ s.mem (.wrapped hneg' hwrap)
    · have hlt : (s.proc s.cur).sz + n.toUInt32 < (s.proc s.cur).sz := by
        refine UInt32.lt_iff_toNat_lt.mpr ?_
        omega
      have hseg : s.mem.Segment d (pagesOf ((s.proc s.cur).sz + n.toUInt32)) := by
        intro a b _ hba ha hp
        have := (huser a ha).mp hp
        exact (huser b (by omega)).mpr (by omega)
      refine wp_post (wp_deallocuvm h hsize.le hseg) ?_
      rintro r m' ⟨rfl, hs⟩
      rw [if_neg (UInt32.not_le.mpr hlt)]
      exact hend _ m' (.shrunk m' hneg' (by omega) hs)
  · have hneg' : ¬ n.toInt < 0 := fun hp => hneg (Int32.lt_iff_toInt_lt.mpr hp)
    rw [if_neg hneg, wp_bind, wp_pure]
    exact hend _ s.mem (.same (by omega))

theorem wp_sys_sbrk : wp (sys_sbrk (some n)) (fun r s' => ∃ sz' m' ok,
    Resize d F (s.proc s.cur).sz n s.mem sz' m' ∧ Settled n s sz' m' ok s' ∧
      r = if ok then (s.proc s.cur).sz.toInt32 else -1) E s := by
  unfold sys_sbrk getProc
  simp only [wp_bind, wp_get, wp_pure]
  refine wp_post (wp_growproc_resize h hd huser) ?_
  rintro ok s' ⟨sz', m', hr, hs⟩
  cases ok <;> exact ⟨sz', m', _, hr, hs, rfl⟩

end Sbrk

theorem Shrinks.view {size : ℕ} (hs : Shrinks d F lo size m m') (hu : u < 2 ^ 19) :
    m'.view d u = if lo ≤ u ∧ u * PGSIZE < size then none else m.view d u := by
  unfold Mem.view
  have hpte := hs.pte u
  split_ifs at hpte ⊢ with hin
  · rw [hpte]
    rfl
  · cases he : m.pte d u with
    | none =>
      rw [hpte, he]
      rfl
    | some e =>
      rw [he] at hpte
      obtain ⟨hfree, -, htab⟩ := hs.ok.user_page hu hpte
      rw [hpte, map_some, map_some, hs.contents _ hfree (hs.tab ▸ htab)]

theorem Gains.view_old {New : ℕ → UInt32 → Page → Prop} (h : SpaceOk m d F)
    (hg : Gains New d F lo hi m m') (hu : u < 2 ^ 19) (hout : ¬ (lo ≤ u ∧ u < hi)) :
    m'.view d u = m.view d u :=
  view_congr h hu (hg.same u hout) hg.user

theorem Gains.view_new (hg : Gains FreshPage d F lo hi m m') (hlo : lo ≤ u) (hhi : u < hi) :
    m'.view d u = some .zero := by
  obtain ⟨pg, perm, he, haddr, -, hzero⟩ := hg.new u hlo hhi
  unfold Mem.view
  rw [he, map_some, haddr, hzero]

omit [Link] in
theorem Settled.fails (hs : Settled n s sz' m' ok s') (hn : n.toInt ≠ 0) (hz : sz' = 0) :
    ok = false ∧ s' = { s with mem := m' } := by
  have hn' : n ≠ 0 := by
    rintro rfl
    exact hn Int32.toInt_zero
  rcases hs with ⟨-, -, hok, hs'⟩ | ⟨hc, -, -⟩
  · exact ⟨hok, hs'⟩
  · exact (hc ⟨hn', hz⟩).elim

omit [Link] in
theorem Settled.succeeds (hs : Settled n s sz' m' ok s') (hc : n.toInt = 0 ∨ sz' ≠ 0) :
    ok = true ∧ s'.mem = m' ∧ (s'.proc s.cur).sz = sz' := by
  rcases hs with ⟨hn, hz, -, -⟩ | ⟨-, hok, rfl⟩
  · rcases hc with hc | hc
    · exact (hn (Int32.toInt_inj.mp (hc.trans Int32.toInt_zero.symm))).elim
    · exact (hc hz).elim
  · exact ⟨hok, rfl, by simp only [State.setProc, Function.update_self]⟩

section Exact

variable {s s' : State} {n : Int32} {m' : Mem} {sz' : UInt32} {ok : Bool} (h : SpaceOk s.mem d F)
  (huser : ∀ u < 2 ^ 19, s.mem.pte d u ≠ none ↔ u < pagesOf (s.proc s.cur).sz)
  (hr : Resize d F (s.proc s.cur).sz n s.mem sz' m') (hs : Settled n s sz' m' ok s')
include h huser hr hs

theorem Resize.exact (hpos : StaysPositive (s.proc s.cur).sz n) :
    SbrkExact d n s (if ok then (s.proc s.cur).sz.toInt32 else -1) s' := by
  have hsize := h.size_lt huser
  have hadd := toNat_add_toUInt32 (s.proc s.cur).sz n
  have hnone : ∀ u < 2 ^ 19, ¬ u < pagesOf (s.proc s.cur).sz → s.mem.view d u = none := by
    intro u hu hge
    have hno : s.mem.pte d u = none := by
      by_contra hp
      exact hge ((huser u hu).mp hp)
    unfold Mem.view
    rw [hno, Option.map_none]
  cases hr with
  | denied m' hn hres =>
    obtain ⟨rfl, rfl⟩ := hs.fails hn.ne' rfl
    exact .inr ⟨rfl, rfl, fun u hu => view_congr h hu (hres.pte u) hres.user⟩
  | grown m' hn hlt hg =>
    have hnew : (((s.proc s.cur).sz + n.toUInt32).toNat : ℤ) = (s.proc s.cur).sz.toNat + n.toInt := by
      simp only [KERNBASE] at hlt
      omega
    obtain ⟨rfl, rfl, hsz⟩ := hs.succeeds (.inr fun hz => by rw [hz, UInt32.toNat_zero] at hnew; omega)
    have hle : pagesOf (s.proc s.cur).sz ≤ pagesOf ((s.proc s.cur).sz + n.toUInt32) :=
      pagesOf_mono (by omega)
    refine .inl ⟨rfl, by omega, hlt, by rw [hsz, hnew], fun u hu => ?_⟩
    rw [hsz]
    split_ifs with h₁ h₂
    · exact hg.view_old h hu (by omega)
    · exact hg.view_new (by omega) h₁
    · rw [hg.view_old h hu (by omega), hnone u hu (by omega)]
  | shrunk m' hn hge hsh =>
    have hnew : (((s.proc s.cur).sz + n.toUInt32).toNat : ℤ) = (s.proc s.cur).sz.toNat + n.toInt := by
      simp only [KERNBASE] at hsize
      omega
    have hne : (s.proc s.cur).sz + n.toUInt32 ≠ 0 := by
      intro hz
      rw [hz, UInt32.toNat_zero] at hnew
      rcases hpos with hp | hp | hp
      · omega
      · rw [hp, UInt32.toNat_zero] at hnew
        omega
      · omega
    obtain ⟨rfl, rfl, hsz⟩ := hs.succeeds (.inr hne)
    have hle : pagesOf ((s.proc s.cur).sz + n.toUInt32) ≤ pagesOf (s.proc s.cur).sz :=
      pagesOf_mono (by omega)
    refine .inl ⟨rfl, hge, by omega, by rw [hsz, hnew], fun u hu => ?_⟩
    rw [hsz, hsh.view hu]
    by_cases hlt : u < pagesOf ((s.proc s.cur).sz + n.toUInt32)
    · rw [if_pos hlt, if_pos (hlt.trans_le hle), if_neg (by omega)]
    · rw [if_neg hlt]
      split_ifs with hin
      · rfl
      · refine hnone u hu fun hlt' => hin ⟨by omega, ?_⟩
        unfold pagesOf at hlt'
        simp only [PGSIZE] at hlt' ⊢
        omega
  | wrapped hn hlt =>
    have hz : (s.proc s.cur).sz = 0 := by
      rcases hpos with hp | hp | hp
      · omega
      · exact hp
      · omega
    obtain ⟨rfl, rfl⟩ := hs.fails hn.ne hz
    exact .inr ⟨rfl, rfl, fun u _ => rfl⟩
  | same hn =>
    obtain ⟨rfl, hmem, hsz⟩ := hs.succeeds (.inl hn)
    refine .inl ⟨rfl, by omega, by omega, by rw [hsz]; omega, fun u hu => ?_⟩
    rw [hsz, hmem]
    split_ifs with h₁
    · rfl
    · exact hnone u hu h₁

theorem Resize.inexact (hpos : ¬ StaysPositive (s.proc s.cur).sz n) :
    ¬ SbrkExact d n s (if ok then (s.proc s.cur).sz.toInt32 else -1) s' := by
  have hsize := h.size_lt huser
  have hadd := toNat_add_toUInt32 (s.proc s.cur).sz n
  have hne : (s.proc s.cur).sz.toInt32 ≠ -1 := by
    intro he
    have hconv := congrArg Int32.toUInt32 he
    rw [UInt32.toUInt32_toInt32] at hconv
    rw [hconv] at hsize
    exact absurd hsize (by decide)
  unfold StaysPositive at hpos
  simp only [not_or] at hpos
  obtain ⟨hn, hz, hle⟩ := hpos
  cases hr with
  | denied m' hn' _ => omega
  | grown m' hn' _ _ => omega
  | shrunk m' _ hge hsh =>
    -- the size would become 0: the pages are gone, but the size remains
    have hnew : (s.proc s.cur).sz + n.toUInt32 = 0 := by
      rw [← UInt32.toNat_inj, UInt32.toNat_zero]
      omega
    obtain ⟨rfl, rfl⟩ := hs.fails (by omega) hnew
    rintro (⟨he, -⟩ | ⟨-, -, hview⟩)
    · exact hne he.symm
    · have hpos : 0 < (s.proc s.cur).sz.toNat :=
        Nat.pos_of_ne_zero fun h0 => hz (UInt32.toNat_inj.mp h0)
      have hfirst : 0 < pagesOf (s.proc s.cur).sz := by
        unfold pagesOf
        simp only [PGSIZE]
        omega
      have hgone := hview 0 (by decide)
      rw [hsh.view (by decide), hnew, pagesOf_zero, if_pos ⟨le_rfl, by rwa [Nat.zero_mul]⟩] at hgone
      refine (huser 0 (by decide)).mpr hfirst ?_
      exact Option.map_eq_none_iff.mp hgone.symm
  | wrapped _ hlt =>
    obtain ⟨rfl, -, -⟩ := hs.succeeds (.inr hz)
    rintro (⟨-, hge, -⟩ | ⟨he, -⟩)
    · omega
    · exact hne he
  | same hn' => omega

end Exact

/-- `sbrk` is exact or has no effect, unless it asks for nothing to be left. -/
theorem sbrk_exact_iff {s : State} {n : Int32} (h : SpaceOk s.mem d F)
    (hd : (s.proc s.cur).pgdir = some d)
    (huser : ∀ u < 2 ^ 19, s.mem.pte d u ≠ none ↔ u < pagesOf (s.proc s.cur).sz) :
    ∃ r s', sys_sbrk (some n) s = .ok r s' ∧
      (SbrkExact d n s r s' ↔ StaysPositive (s.proc s.cur).sz n) := by
  obtain ⟨_, s', hrun, sz', m', ok, hr, hs, rfl⟩ := wp_exists_ok (wp_sys_sbrk h hd huser (n := n))
  refine ⟨_, s', hrun, fun hex => ?_, hr.exact h huser hs⟩
  by_contra hpos
  exact hr.inexact h huser hs hpos hex

theorem Fresh.space {n : ℕ} (hok : SystemOk s) (hf : Fresh s d n) :
    SpaceOk s.mem d (s.Owned (mine (some s.cur))) ∧ (s.proc s.cur).pgdir = some d ∧
      (∀ u < 2 ^ 19, s.mem.pte d u ≠ none ↔ u < pagesOf (s.proc s.cur).sz) ∧
      (s.proc s.cur).sz = UInt32.ofNat PGSIZE := by
  have hpgdir : (s.proc s.cur).pgdir = some d := by
    rw [hf.cur]
    exact hf.pgdir
  have hsz : (s.proc s.cur).sz = ofNat PGSIZE := by
    rw [hf.cur]
    exact hf.sz
  have hlive : (s.proc s.cur).state ≠ .unused := by
    rw [hf.cur, hf.state]
    decide
  refine ⟨hok.space (State.dir_some.mpr ⟨hlive, hpgdir⟩), hpgdir, ?_, hsz⟩
  rw [hsz]
  exact hf.shape.user

omit [Link] in
theorem sbrk_exact_iff_boot : ∃ s d, @main smallKernel [] 0 (State.off (fun _ => .zero) fun _ => false)
      = .ok () s ∧ ∃ r s', @sys_sbrk smallKernel (some 5000) s = .ok r s' ∧ SbrkExact d 5000 s r s' := by
  obtain ⟨s, d, hboot, hok, -, hf⟩ := @exists_fresh smallKernel
  obtain ⟨h, hd, huser, -⟩ := @Fresh.space smallKernel _ _ _ hok hf
  obtain ⟨r, s', hrun, hiff⟩ := @sbrk_exact_iff smallKernel _ _ _ 5000 h hd huser
  exact ⟨s, d, hboot, r, s', hrun, hiff.mpr (.inl (by decide))⟩

theorem Fresh.sbrk_inexact {k : ℕ} (hok : SystemOk s) (hf : Fresh s d k) (hn : n.toInt ≤ -4096) :
    ∃ r s', sys_sbrk (some n) s = .ok r s' ∧ ¬ SbrkExact d n s r s' := by
  obtain ⟨h, hd, huser, hsz⟩ := hf.space hok
  obtain ⟨_, s', hrun, sz', m', ok, hr, hs, rfl⟩ := wp_exists_ok (wp_sys_sbrk h hd huser (n := n))
  refine ⟨_, s', hrun, hr.inexact h huser hs ?_⟩
  unfold StaysPositive
  have hnat : (ofNat PGSIZE).toNat = 4096 := by decide
  have hpos : ofNat PGSIZE ≠ 0 := by decide
  rw [hsz, hnat]
  rintro (hp | hp | hp)
  · omega
  · exact hpos hp
  · omega

omit [Link] in
/-- The first process has 4096 bytes. It may ask to give back 8192, or all of them. -/
theorem sbrk_below_zero : ∃ s d, @main smallKernel [] 0 (State.off (fun _ => .zero) fun _ => false)
      = .ok () s ∧
    (∃ r s', @sys_sbrk smallKernel (some (-8192)) s = .ok r s' ∧ ¬ SbrkExact d (-8192) s r s') ∧
    ∃ r s', @sys_sbrk smallKernel (some (-4096)) s = .ok r s' ∧ ¬ SbrkExact d (-4096) s r s' := by
  obtain ⟨s, d, hboot, hok, -, hf⟩ := @exists_fresh smallKernel
  exact ⟨s, d, hboot, @Fresh.sbrk_inexact smallKernel _ _ _ _ hok hf (by decide),
    @Fresh.sbrk_inexact smallKernel _ _ _ _ hok hf (by decide)⟩

end Xv6.Vm
