import Xv6.SystemRun

/-!
# Booting

`main` frees the pages below 4 MB, builds the kernel's directory with them, frees the others and makes
the first process. Nothing that is freed later is in use before: all pages that are held are below
the next one to be freed.
-/

namespace Xv6.Vm

open Resumption ByteLayout Custody List State Mem Set

variable [Link] {s : State} {m m' : Mem} {d lo hi : ℕ} {F : Set ℕ} {E : Stop → Mem → Prop}

/-- The machine before `main`. -/
def State.off (page : ℕ → Page) (refuse : ℕ → Bool) : State where
  mem := { page, freelist := [], calls := 0, refuse, doubleFree := false }
  kpgdir := none
  proc := fun _ => ⟨.unused, none, none, none, 0, 0, 0, []⟩
  pipe := fun _ => none
  cur := initproc

/-! ## Freeing ranges -/

variable {i pg n ncpu : ℕ} {refuse : ℕ → Bool} {initcode : List UInt8} {R : Unit → State → Prop}
  {kpgdir : Option ℕ}

theorem wp_freerange {J : ℕ → Mem → Prop} (hlo : Link.endPage ≤ lo) (hle : lo ≤ hi)
    (hhi : hi ≤ PHYSTOP / PGSIZE)
    (hstep : ∀ i m, (Link.endPage ≤ i ∧ i < PHYSTOP / PGSIZE) → J i m → J (i + 1) (m.free i))
    (h : J lo m) : wp (freerange lo hi) (fun _ m' => J hi m') E m := by
  have hloop : wp ((List.range' lo (hi - lo)).forM kfree)
      (fun _ m' => J (lo + (hi - lo)) m') E m := by
    apply wp_forM_range'
    · intro i m' h₁ h₂ hJ
      have hr : Link.endPage ≤ i ∧ i < PHYSTOP / PGSIZE := by omega
      exact wp_kfree hr (hstep i m' hr hJ)
    · exact h
  rwa [Nat.add_sub_cancel' hle] at hloop

omit [Link] in
theorem ici_diff (i : ℕ) : Set.Ici (i + 1) ⊆ Set.Ici i \ {i} := by
  intro q hq
  rw [mem_Ici] at hq
  refine ⟨by rw [mem_Ici]; omega, ?_⟩
  rintro rfl
  omega

theorem SpaceOk.free (h : SpaceOk m d (Set.Ici i)) (hr : Link.endPage ≤ i ∧ i < PHYSTOP / PGSIZE) :
    SpaceOk (m.free i) d (Set.Ici (i + 1)) ∧ (m.free i).pte d = m.pte d := by
  have hins : insert i (Set.Ici (i + 1)) ⊆ Set.Ici i := by
    rintro q (rfl | hq)
    · exact self_mem_Ici
    · exact (ici_diff i hq).1
  obtain ⟨hd, ht⟩ := h.frame_ne (self_mem_Ici (a := i))
  refine ⟨SpaceOk.give (h.mono hins) (fun hq => (ici_diff i hq).2 rfl) hr, ?_⟩
  exact pte_setPage hd ht

/-! ## The kernel without processes -/

structure Idle (s : State) : Prop where
  procs : ∀ p, (s.proc p).state = .unused
  pipes : ∀ pg, s.pipe pg = none

omit [Link] in
theorem Idle.holds (h : Idle s) {a : Holder} (hpg : s.Holds a pg) :
    a = .free ∧ pg ∈ s.mem.freelist ∨
      ∃ b d, a = .space none b ∧ s.kpgdir = some d ∧ s.mem.Holds d (some b) pg := by
  cases a with
  | free => exact .inl ⟨rfl, hpg⟩
  | pipe => exact (hpg (h.pipes pg)).elim
  | kstack p => exact (hpg.1 (h.procs p)).elim
  | space o b =>
    obtain ⟨d, hd, hpg⟩ := hpg
    cases o with
    | none => exact .inr ⟨b, d, rfl, hd, hpg⟩
    | some p => exact ((dir_some.mp hd).1 (h.procs p)).elim

theorem Idle.ok_none (h : Idle s) (hk : s.kpgdir = none) (hpool : PoolOk s.mem F) : SystemOk s := by
  have hfree : ∀ a pg, s.Holds a pg → a = .free ∧ pg ∈ s.mem.freelist := by
    intro a pg hpg
    rcases h.holds hpg with hf | ⟨b, d, -, hd, -⟩
    · exact hf
    · rw [hk] at hd
      cases hd
  refine ⟨?_, hpool.nodup, hpool.single, fun a pg hpg => hpool.range pg (hfree a pg hpg).2,
    fun p hp => (hp (h.procs p)).elim, fun d hd => ?_⟩
  · intro a b pg ha hb
    rw [(hfree a pg ha).1, (hfree b pg hb).1]
  · rw [hk] at hd
    cases hd

theorem Idle.ok_some (h : Idle s) (hk : s.kpgdir = some d) (hok : SpaceOk s.mem d F)
    (hpte : ∀ v, s.mem.pte d v = kernelPte v) : SystemOk s := by
  have hlocal : ∀ a pg, s.Holds a pg → ∃ b : Option Part,
      a = b.elim .free (.space none) ∧ s.mem.Holds d b pg := by
    intro a pg hpg
    rcases h.holds hpg with ⟨rfl, hf⟩ | ⟨b, d', rfl, hd, hpg⟩
    · exact ⟨none, rfl, hf⟩
    · obtain rfl := Option.some.inj (hd.symm.trans hk)
      exact ⟨some b, rfl, hpg⟩
  refine ⟨?_, hok.nodup, hok.single, ?_, fun p hp => (hp (h.procs p)).elim, ?_⟩
  · intro a b pg ha hb
    obtain ⟨a', ha', hold⟩ := hlocal a pg ha
    obtain ⟨b', hb', hold'⟩ := hlocal b pg hb
    rw [ha', hb', hok.excl a' b' pg hold hold']
  · intro a pg hpg
    obtain ⟨b, -, hold⟩ := hlocal a pg hpg
    exact hok.range b pg hold
  · intro d' hd' v
    obtain rfl := Option.some.inj (hd'.symm.trans hk)
    exact hpte v

/-! ## The first process -/

/-- A request was refused although at least `n` pages were left or there were none. -/
def Denied (refuse : ℕ → Bool) (n : ℕ) : Prop :=
  ∃ m : Mem, m.refuse = refuse ∧ m.Refuses ∧ n ≤ m.freelist.length

omit [Link] in
theorem not_denied (hn : 0 < n) : ¬ Denied (fun _ => false) n := by
  rintro ⟨m, href, hr | hr, hlen⟩
  · rw [href] at hr
    cases hr
  · rw [hr, length_nil] at hlen
    omega

omit [Link] in
theorem Paid.denied (h : Paid m m') (hr : m'.Refuses)
    (hn : n + (m'.calls - m.calls) ≤ m.freelist.length) : Denied m.refuse n := by
  have hspent := h.spent
  have hle := h.le
  exact ⟨m', h.refuse, hr, by omega⟩

def FirstPage (m : Mem) (d : ℕ) : Prop :=
  ∃ pg, m.pte d 0 = some (mkPte pg (PTE_W ||| PTE_U ||| PTE_P)) ∧
    PTE_ADDR (mkPte pg (PTE_W ||| PTE_U ||| PTE_P)) = pg

theorem wp_inituvm {m₁ : Mem} {init : List UInt8} (hb : Built F d m m₁) :
    wp (inituvm d init) (fun _ m' => SpaceOk m' d F ∧
        (∀ pg, pg ∉ m.freelist → m'.page pg = m.page pg) ∧ m'.refuse = m.refuse ∧
        Mapped m' d (UInt32.ofNat PGSIZE) ∧ (Denied m.refuse (m.freelist.length - 67) ∨
          m'.freelist.length + 67 = m.freelist.length ∧ FirstPage m' d ∧
            Shape m' d (UInt32.ofNat PGSIZE)))
      (fun _ _ => PGSIZE ≤ init.length ∨ Denied m.refuse (m.freelist.length - 67)) m₁ := by
  have hcalls := hb.calls
  unfold inituvm
  by_cases hlen : init.length ≥ PGSIZE
  · rw [if_pos hlen]
    exact .inl hlen
  rw [if_neg hlen, wp_bind]
  apply wp_kalloc
  · intro hr
    have hspent := hb.paid.spent
    exact .inr (hb.paid.denied hr (by omega))
  intro pg rest hl hm
  rw [wp_bind]
  apply wp_memset
  rw [ofBytes_zero, wp_bind]
  have hpaid : Paid m ((m₁.taken rest).setPage pg .zero) := hb.paid.trans (.take hl hm rfl rfl rfl)
  have hcalls' : ((m₁.taken rest).setPage pg .zero).calls = m.calls + 66 := by
    change m₁.calls + 1 = _
    omega
  have hno : m₁.pte d 0 = none := by rw [hb.pte, kernelPte_low (by omega)]
  have hg₀ : Gains FreshPage d F 0 0 m₁ m₁ := .refl hb.opened.ok
  have hone : mappages d 0 PGSIZE (pg * PGSIZE) (PTE_W ||| PTE_U) =
      mappages d (0 * PGSIZE) PGSIZE (pg * PGSIZE) (PTE_W ||| PTE_U) := by rw [Nat.zero_mul]
  rw [hone]
  apply hg₀.map hl hm le_rfl (by omega) hno (by decide) ⟨rfl, rfl⟩
  · intro _ hr
    rw [wp_modify]
    obtain ⟨hok, htab, hpte, -⟩ := hb.opened.ok.filled hl (x := .zero)
    obtain ⟨hd, hnt⟩ := hok.frame_ne (mem_insert pg F)
    have hdenied : Denied m.refuse (m.freelist.length - 67) := by
      have hspent := hpaid.spent
      exact hpaid.denied hr (by omega)
    have hpg : pg ∈ m.freelist := by
      apply hb.opened.free_sub
      rw [hl]
      exact mem_cons_self
    have hother : ∀ q, q ≠ pg → ((m₁.taken rest).setPage pg .zero).page q = m₁.page q :=
      fun q hq => setPage_page_ne hq
    generalize (m₁.taken rest).setPage pg .zero = m₂ at *
    generalize (m₂.asked.page pg).write 0 init.length (fun i => init.getD i 0) = x
    have hok' : SpaceOk (m₂.asked.setPage pg x) d (insert pg F) :=
      (hok.setPage hd hnt).congr rfl rfl rfl rfl
    have hpte' : (m₂.asked.setPage pg x).pte d = m₁.pte d :=
      (pte_setPage (m := m₂.asked) hd hnt).trans hpte
    refine ⟨hok'.mono (subset_insert pg F), ?_, hpaid.refuse, ⟨by decide, .inr ?_, ?_⟩,
      .inl hdenied⟩
    · intro q hq
      have hne : q ≠ pg := by
        rintro rfl
        exact hq hpg
      rw [setPage_page_ne hne]
      exact (hother q hne).trans (hb.opened.contents q hq)
    · intro v hv
      rw [hpte', hb.pte, kernelPte_low hv]
    · intro v _
      rw [hpte', hb.pte]
  · intro m₂ hg he
    rw [wp_modify]
    have himg : Image F d (UInt32.ofNat PGSIZE) m m₂ :=
      ⟨hg.opened hb.opened, hg.shape hb.image.shape (by decide) (by decide),
        hg.refuse.trans hb.paid.refuse⟩
    have haddr : PTE_ADDR (mkPte pg (PTE_W ||| PTE_U ||| PTE_P)) = pg :=
      (present_mkPte (hb.opened.ok.head hl).2.2 (by decide)).2
    generalize (m₂.page pg).write 0 init.length (fun i => init.getD i 0) = x
    have hw := himg.write (x := x) (show 0 < 2 ^ 19 by omega) he
    rw [haddr] at hw
    obtain ⟨-, hnd, hnt⟩ := himg.opened.ok.user_page (show 0 < 2 ^ 19 by omega) he
    rw [haddr] at hnd hnt
    refine ⟨hw.opened.ok, hw.opened.contents, hw.refuse, hw.shape.mapped, .inr ⟨?_, ⟨pg, ?_, haddr⟩,
      hw.shape⟩⟩
    · have hlen₂ : (m₂.setPage pg x).freelist = m₂.freelist := rfl
      have hc := hb.card_tables hg (by omega)
      have hspent := (hb.paid.trans hg.paid).spent
      rw [hlen₂]
      omega
    · rw [pte_setPage (Ne.symm hnd) hnt]
      exact he

/-- The state after a boot in which the first process got all the memory it asked for. -/
structure Fresh (s : State) (d n : ℕ) : Prop where
  cur : s.cur = initproc
  state : (s.proc initproc).state = .runnable
  pgdir : (s.proc initproc).pgdir = some d
  sz : (s.proc initproc).sz = UInt32.ofNat PGSIZE
  others : ∀ p, p ≠ initproc → (s.proc p).state = .unused
  shape : Shape s.mem d (UInt32.ofNat PGSIZE)
  page : FirstPage s.mem d
  length : n ≤ s.mem.freelist.length

omit [Link] in
theorem Idle.firstUnused (h : Idle s) : s.firstUnused = some initproc := by
  unfold State.firstUnused
  simp only [h.procs, decide_true]
  decide

omit [Link] in
theorem Denied.mono {n' : ℕ} (h : Denied refuse n') (hle : n ≤ n') : Denied refuse n := by
  obtain ⟨m, h₁, h₂, h₃⟩ := h
  exact ⟨m, h₁, h₂, by omega⟩

theorem wp_userinit (h : SystemOk s) (hidle : Idle s)
    (hcur : s.cur = initproc) (hn : n + 68 ≤ s.mem.freelist.length) :
    wp (userinit initcode) (fun _ s' => SystemOk s' ∧ s'.mem.refuse = s.mem.refuse ∧
        (Denied s.mem.refuse n ∨ ∃ d, Fresh s' d n))
      (fun _ _ => PGSIZE ≤ initcode.length ∨ Denied s.mem.refuse n) s := by
  unfold userinit
  rw [wp_bind]
  apply wp_allocproc
  · intro hfull
    rw [hidle.firstUnused] at hfull
    cases hfull
  · exact fun _ _ hr => .inr ⟨s.mem, rfl, hr, by omega⟩
  intro p k rest hp hl hm
  obtain rfl : initproc = p := Option.some.inj (hidle.firstUnused.symm.trans hp)
  have hk : k ∈ s.mem.freelist := by
    rw [hl]
    exact mem_cons_self
  have hlen : (s.mem.taken rest).freelist.length + 1 = s.mem.freelist.length := by
    rw [hl, length_cons]
    rfl
  have hout : ∀ x ∈ s.Owned {.free}, x ∉ (s.mem.taken rest).freelist := by
    intro x hx hx'
    refine h.not_free hx ?_
    rw [hl]
    exact mem_cons_of_mem _ hx'
  have hrefuse : (s.mem.taken rest).refuse = s.mem.refuse := rfl
  have hpool : PoolOk (s.mem.taken rest) (insert k (s.Owned {.free})) := h.pool.take hl
  have hborn : ∀ m' x, { s.born initproc k rest with mem := m' }.setProc initproc x =
      { s with mem := m' }.setProc initproc x := fun _ _ => born_setProc
  have hmem : (s.born initproc k rest).mem = s.mem.taken rest := rfl
  have hself : (s.born initproc k rest).proc initproc =
      { s.proc initproc with kstack := some k, state := .embryo } := born_proc
  generalize s.born initproc k rest = s₁ at *
  rw [wp_bind, wp_onMem, hmem]
  apply wp_setupkvm hpool
  · exact fun hr => .inr ⟨_, hrefuse, hr, by omega⟩
  · intro d m₁ hlost
    have hlast := hlost.last
    have hdenied : Denied (s.mem.taken rest).refuse n := hlost.paid.denied hlost.refused (by omega)
    exact .inr hdenied
  · intro d m₁ hb
    simp only [wp_bind, wp_onMem, wp_get, setProc, wp_modify, hself]
    have hle : n ≤ (s.mem.taken rest).freelist.length - 67 := by omega
    refine wp_mono (wp_inituvm hb) ?_ ?_
    · rintro _ m' ⟨hok, hcont, href, hmap, hres⟩
      have hset := hborn m'
      rw [hset]
      refine ⟨?_, href, ?_⟩
      · apply h.withProc (hidle.procs initproc) hok hk
        · intro pg hpg
          exact hcont pg (hout pg hpg)
        · rfl
        · rfl
        · rfl
        · exact hmap
      · rcases hres with hd | ⟨hlen', hpage, hshape⟩
        · exact .inl (hd.mono hle)
        · refine .inr ⟨d, hcur, ?_, ?_, ?_, ?_, hshape, hpage, ?_⟩
          · rw [setProc_self]
          · rw [setProc_self]
          · rw [setProc_self]
          · intro q hq
            have hother : ({ s with mem := m' }.setProc initproc
                { s.proc initproc with
                  kstack := some k, state := .runnable, pgdir := some d, sz := UInt32.ofNat PGSIZE,
                  eip := 0, esp := UInt32.ofNat PGSIZE }).proc q = s.proc q :=
              Function.update_of_ne hq ..
            rw [hother]
            exact hidle.procs q
          · change n ≤ m'.freelist.length
            omega
    · rintro e m' (he | hd)
      · exact .inl he
      · exact .inr (hd.mono hle)

/-! ## main -/

omit [Link] in
theorem wp_startothers {E : Stop → State → Prop}
    {J : Mem → Prop} (hJ : J s.mem) (hasked : ∀ m, J m → J m.asked)
    (htaken : ∀ m pg rest, J m → m.freelist = pg :: rest → J (m.taken rest))
    (hR : ∀ m', J m' → R () { s with mem := m' }) : wp (startothers ncpu) R E s := by
  unfold startothers
  rw [wp_onMem]
  have hloop : wp ((List.range ncpu).forM fun _ => do let _ ← kalloc) (fun _ m => J m)
      (fun e m => E e { s with mem := m }) s.mem := by
    apply wp_forM_range
    · intro _ m _ hm
      rw [wp_bind]
      apply wp_kalloc
      · exact fun _ => hasked m hm
      · exact fun pg rest hl _ => htaken m pg rest hm hl
    · exact hJ
  exact wp_post hloop (fun _ m hm => hR m hm)

/-- The pages that the first part of `main` leaves: all in use or free below 4 MB. -/
structure Started (refuse : ℕ → Bool) (kpgdir : Option ℕ) (lo i : ℕ) (m : Mem) : Prop where
  ok : match kpgdir with
    | none => PoolOk m (Set.Ici i)
    | some d => SpaceOk m d (Set.Ici i) ∧ ∀ v, m.pte d v = kernelPte v
  refuse : m.refuse = refuse
  length : i ≤ m.freelist.length + lo

theorem Started.free
    (h : Started refuse kpgdir lo i m) (hr : Link.endPage ≤ i ∧ i < PHYSTOP / PGSIZE) :
    Started refuse kpgdir lo (i + 1) (m.free i) := by
  have hlen : (m.free i).freelist.length = m.freelist.length + 1 := rfl
  have := h.length
  refine ⟨?_, h.refuse, by omega⟩
  cases kpgdir with
  | none => exact (PoolOk.give h.ok self_mem_Ici hr).mono (ici_diff i)
  | some d =>
    obtain ⟨hok, hpte⟩ := h.ok
    obtain ⟨hok', hpte'⟩ := hok.free hr
    exact ⟨hok', fun v => by rw [hpte', hpte]⟩

theorem Started.asked (h : Started refuse kpgdir i i m) : Started refuse kpgdir i i m.asked := by
  refine ⟨?_, h.refuse, by omega⟩
  cases kpgdir with
  | none => exact PoolOk.asked h.ok
  | some d => exact ⟨h.ok.1.congr rfl rfl rfl rfl, h.ok.2⟩

theorem Started.taken {rest : List ℕ} (h : Started refuse kpgdir i i m)
    (hl : m.freelist = pg :: rest) : Started refuse kpgdir i i (m.taken rest) := by
  refine ⟨?_, h.refuse, by omega⟩
  cases kpgdir with
  | none => exact (PoolOk.take h.ok hl).mono (subset_insert pg _)
  | some d => exact ⟨(h.ok.1.take hl).mono (subset_insert pg _), h.ok.2⟩

theorem wp_kvmalloc {E : Stop → State → Prop} (h : PoolOk s.mem (Set.Ici lo))
    (hR : ∀ k m', Started s.mem.refuse k lo lo m' → R () { s with mem := m', kpgdir := k }) :
    wp kvmalloc R E s := by
  unfold kvmalloc
  simp only [wp_bind, wp_onMem, wp_modify]
  apply wp_setupkvm h
  · exact fun _ => hR none _ ⟨h.asked, rfl, by omega⟩
  · intro d m' hl
    exact hR none _ ⟨hl.opened.ok.pool.asked, hl.paid.refuse, by omega⟩
  · intro d m' hb
    exact hR (some d) m' ⟨⟨hb.opened.ok, hb.pte⟩, hb.paid.refuse, by omega⟩

theorem Started.system {k : Option ℕ} (hidle : Idle s)
    (hk : s.kpgdir = k) (h : Started refuse k lo i s.mem) : SystemOk s := by
  cases k with
  | none => exact hidle.ok_none hk h.ok
  | some d => exact hidle.ok_some hk h.ok.1 h.ok.2

theorem wp_main {page : ℕ → Page} :
    wp (main initcode ncpu) (fun _ s => SystemOk s ∧ s.mem.refuse = refuse ∧
        (Denied refuse 56000 ∨ ∃ d, Fresh s d 56000))
      (fun _ _ => PGSIZE ≤ initcode.length ∨ Denied refuse 56000) (State.off page refuse) := by
  have hend := Link.end_lt
  have hidle : ∀ m k, Idle { off page refuse with mem := m, kpgdir := k } :=
    fun _ _ => ⟨fun _ => rfl, fun _ => rfl⟩
  have hoff : PoolOk (off page refuse).mem (Set.Ici Link.endPage) :=
    ⟨nodup_nil, fun pg hpg => (by cases hpg), fun pg hpg => (by cases hpg), rfl⟩
  have hcur : (off page refuse).cur = initproc := rfl
  have hrefuse : (off page refuse).mem.refuse = refuse := rfl
  generalize off page refuse = s₀ at *
  unfold main
  rw [wp_bind, wp_onMem]
  have hfirst : wp (freerange Link.endPage (4 * 1024 * 1024 / PGSIZE))
      (fun _ m => PoolOk m (Set.Ici 1024) ∧ m.refuse = refuse)
      (fun _ _ => PGSIZE ≤ initcode.length ∨ Denied refuse 56000) s₀.mem := by
    apply wp_freerange (J := fun i m => PoolOk m (Set.Ici i) ∧ m.refuse = refuse) le_rfl
    · simp only [PGSIZE]
      omega
    · simp only [PHYSTOP, PGSIZE]
      omega
    · intro i m hr hJ
      exact ⟨(hJ.1.give self_mem_Ici hr).mono (ici_diff i), hJ.2⟩
    · exact ⟨hoff, hrefuse⟩
  refine wp_post hfirst ?_
  rintro _ m₁ ⟨hpool, href⟩
  rw [wp_bind]
  apply wp_kvmalloc hpool
  intro k m₂ hstart
  rw [wp_bind]
  apply wp_startothers (J := Started m₁.refuse k 1024 1024) hstart (fun m hm => hm.asked)
    (fun m pg rest hm hl => hm.taken hl)
  intro m₃ hstart₃
  rw [wp_bind, wp_onMem]
  have hsecond : wp (freerange (4 * 1024 * 1024 / PGSIZE) (PHYSTOP / PGSIZE))
      (fun _ m => Started m₁.refuse k 1024 (PHYSTOP / PGSIZE) m)
      (fun _ _ => PGSIZE ≤ initcode.length ∨ Denied refuse 56000) m₃ := by
    apply wp_freerange
    · simp only [PGSIZE]
      omega
    · simp only [PHYSTOP, PGSIZE]
      omega
    · exact le_rfl
    · exact fun i m hr hJ => hJ.free hr
    · exact hstart₃
  refine wp_post hsecond ?_
  intro _ m₄ h₄
  have hlen := h₄.length
  simp only [PHYSTOP, PGSIZE] at hlen
  have href₄ : m₄.refuse = refuse := h₄.refuse.trans href
  have hsys := h₄.system (hidle m₄ k) rfl
  rw [← href₄]
  apply wp_userinit hsys (hidle m₄ k) hcur
  change 56000 + 68 ≤ m₄.freelist.length
  omega

end Xv6.Vm
