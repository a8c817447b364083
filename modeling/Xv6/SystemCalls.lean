import Xv6.Ownership

/-!
# The calls keep the system in order

Each call is followed from one state that is in order to the next, whatever requests for memory are
refused on the way. A process that has given up all its memory makes no call except that it exits,
and `exec` is given no argument as long as the device space.
-/

namespace Xv6.Vm

open Resumption ByteLayout Custody Function UInt32 State Holder

section Lift

variable {α : Type} {s : State} {f : MemM α} {R : α → State → Prop} {E : Stop → State → Prop}

theorem wp_onMem : wp (onMem f) R E s ↔
    wp f (fun a m => R a { s with mem := m }) (fun e m => E e { s with mem := m }) s.mem := by
  unfold wp onMem
  cases f s.mem <;> rfl

end Lift

/-- What stops a call for good reasons: a parent waits for its children, and `init` must not exit. -/
def Expected (e : Stop) (_ : State) : Prop := e = .sleep ∨ e = .panic "init exiting"

/-- The running process has a page it can execute. -/
def CanRun (s : State) : Prop :=
  ∃ d v e, (s.proc s.cur).pgdir = some d ∧ v < 2 ^ 19 ∧ s.mem.pte d v = some e ∧ e &&& PTE_U ≠ 0

variable [Link] {s s' : State} {m m' : Mem} {p : Fin NPROC} {d : ℕ} {sz newsz : UInt32} {F : Set ℕ}

variable {n : Int32} {E : Stop → State → Prop} {x : Proc} {k c : ℕ} {rest : List ℕ}
  {R : Option (Fin NPROC) → State → Prop} {G : Set ℕ} {path : List UInt8} {file : Option ElfFile}
  {argv : List (List UInt8)}

theorem Mapped.shape (h : Mapped m d sz) {v : ℕ} (hv : v < 2 ^ 19) (hp : m.pte d v ≠ none) :
    Shape m d sz := by
  refine ⟨h.size, ?_, h.kernel⟩
  rcases h.user with hu | hu
  · exact hu
  · exact (hp (hu v hv)).elim

/-- The address space of the running process. -/
structure Running (s : State) (d : ℕ) : Prop where
  live : (s.proc s.cur).state ≠ .unused
  pgdir : (s.proc s.cur).pgdir = some d
  shape : Shape s.mem d (s.proc s.cur).sz
  space : SpaceOk s.mem d (s.Owned (mine (some s.cur)))

theorem SystemOk.running (h : SystemOk s) (hcur : (s.proc s.cur).state = .runnable)
    (hrun : CanRun s) : ∃ d, Running s d := by
  obtain ⟨d, v, e, hd, hv, he, -⟩ := hrun
  have hlive : (s.proc s.cur).state ≠ .unused := by
    rw [hcur]
    decide
  obtain ⟨d', hd', hmap⟩ := (h.procs s.cur hlive).dir
  obtain rfl : d' = d := Option.some.inj (hd'.symm.trans hd)
  refine ⟨d', hlive, hd, hmap.shape hv (by rw [he]; simp), ?_⟩
  exact h.space (dir_some.mpr ⟨hlive, hd⟩)

/-! ## sbrk -/

theorem Shrinks.mapped (h : Shape m d sz) (hs : Shrinks d F (pagesOf newsz) sz.toNat m m') :
    (newsz < sz → Mapped m' d newsz) ∧ (sz ≤ newsz → Mapped m' d sz) ∧
      (newsz = 0 → Mapped m' d sz) := by
  have hsize := h.size
  have hkernel : ∀ v, 2 ^ 19 ≤ v → m'.pte d v = kernelPte v := by
    intro v hv
    rw [hs.pte, if_neg, h.kernel v hv]
    simp only [PGSIZE, KERNBASE] at hsize ⊢
    omega
  refine ⟨?_, ?_, ?_⟩
  · intro hlt
    have hlt' : newsz.toNat < sz.toNat := lt_iff_toNat_lt.mp hlt
    refine ⟨by omega, .inl fun v hv => ?_, hkernel⟩
    rw [hs.pte]
    by_cases hc : pagesOf newsz ≤ v ∧ v * PGSIZE < sz.toNat
    · rw [if_pos hc]
      simp only [ne_eq, not_true_eq_false, false_iff]
      omega
    · rw [if_neg hc, h.user v hv]
      unfold pagesOf at hc ⊢
      simp only [PGSIZE] at hc ⊢
      omega
  · intro hle
    have hle' : sz.toNat ≤ newsz.toNat := le_iff_toNat_le.mp hle
    refine ⟨hsize, .inl fun v hv => ?_, hkernel⟩
    rw [hs.pte, if_neg, h.user v hv]
    unfold pagesOf
    simp only [PGSIZE]
    omega
  · rintro rfl
    refine ⟨hsize, .inr fun v hv => ?_, hkernel⟩
    have hzero : pagesOf 0 = 0 := rfl
    rw [hs.pte, hzero]
    by_cases hc : v * PGSIZE < sz.toNat
    · rw [if_pos ⟨Nat.zero_le v, hc⟩]
    · rw [if_neg (fun hc' => hc hc'.2)]
      by_contra hp
      have := (h.user v hv).mp hp
      unfold pagesOf at this
      simp only [PGSIZE] at this hc
      omega

section

variable (h : SystemOk s)
include h

theorem Keeps.owned (hd : s.dir (some p) = some d) (hk : Keeps d (s.Owned (mine (some p))) s.mem m') :
    ∀ pg ∈ s.Owned (mine (some p)), m'.page pg = s.mem.page pg := by
  intro pg hpg
  apply hk.contents
  rintro ⟨a, ha⟩
  exact (h.space hd).frame a pg ha hpg

section

variable (hr : Running s d)
include hr

theorem SystemOk.grown
    (hk : Keeps d (s.Owned (mine (some s.cur))) s.mem m') (hmap : Mapped m' d newsz) :
    SystemOk ({ s with mem := m' }.setProc s.cur { s.proc s.cur with sz := newsz }) :=
  h.withSpace hr.live hk.ok (hk.owned h (dir_some.mpr ⟨hr.live, hr.pgdir⟩)) rfl rfl hr.pgdir hmap

theorem SystemOk.grown_same (hk : Keeps d (s.Owned (mine (some s.cur))) s.mem m')
    (hmap : Mapped m' d (s.proc s.cur).sz) : SystemOk { s with mem := m' } := by
  have hset := h.grown hr hk hmap
  have heq : { s with mem := m' }.setProc s.cur { s.proc s.cur with sz := (s.proc s.cur).sz } =
      { s with mem := m' } := by
    unfold State.setProc
    simp only [update_eq_self]
  rwa [heq] at hset

theorem wp_growproc_end {r : UInt32} (hk : Keeps d (s.Owned (mine (some s.cur))) s.mem m')
    (hzero : n ≠ 0 ∧ r = 0 → Mapped m' d (s.proc s.cur).sz)
    (hpos : ¬ (n ≠ 0 ∧ r = 0) → Mapped m' d r) :
    wp (if n ≠ 0 ∧ r = 0 then return false
      else do
        let s ← get
        setProc s.cur { s.proc s.cur with sz := r }
        return true : M Bool) (fun _ s' => SystemOk s') E { s with mem := m' } := by
  by_cases hc : n ≠ 0 ∧ r = 0
  · rw [if_pos hc, wp_pure]
    exact h.grown_same hr hk (hzero hc)
  · rw [if_neg hc]
    simp only [setProc, wp_bind, wp_get, wp_modify, wp_pure]
    exact h.grown hr hk (hpos hc)

theorem wp_growproc : wp (growproc n) (fun _ s' => SystemOk s') Expected s := by
  have hsize := hr.shape.size
  unfold growproc getProc
  simp only [wp_bind, wp_get, wp_pure, hr.pgdir]
  by_cases hpos : n > 0
  · have hne : n ≠ 0 := by
      rintro rfl
      exact absurd hpos (by decide)
    rw [if_pos hpos, wp_bind, wp_onMem]
    refine wp_post (wp_allocuvm hr.space hsize hr.shape.none_above) ?_
    rintro r m' (⟨rfl, hres, -⟩ | ⟨-, rfl, rfl⟩ | ⟨hle, hnew, rfl, hg⟩)
    · exact wp_growproc_end h hr hres.toKeeps (fun _ => (hres.shape hr.shape).mapped)
        (fun hc => (hc ⟨hne, rfl⟩).elim)
    · exact wp_growproc_end h hr (.refl hr.space) (fun _ => hr.shape.mapped)
        (fun _ => hr.shape.mapped)
    · have hshape := hg.shape hr.shape hnew hle
      refine wp_growproc_end h hr hg.toKeeps ?_ (fun _ => hshape.mapped)
      rintro ⟨-, hz⟩
      have hsz : (s.proc s.cur).sz = (s.proc s.cur).sz + n.toUInt32 := by
        rw [hz] at hle ⊢
        exact UInt32.le_antisymm hle (UInt32.zero_le)
      rw [hsz]
      exact hshape.mapped
  rw [if_neg hpos]
  by_cases hneg : n < 0
  · rw [if_pos hneg, wp_bind, wp_onMem]
    have hseg := hr.shape.segment.mono (Nat.zero_le (pagesOf ((s.proc s.cur).sz + n.toUInt32)))
    refine wp_post (wp_deallocuvm hr.space hsize.le hseg) ?_
    rintro r m' ⟨hret, hs⟩
    obtain ⟨hlt, hle, hzero⟩ := hs.mapped hr.shape
    by_cases hge : (s.proc s.cur).sz + n.toUInt32 ≥ (s.proc s.cur).sz
    · rw [if_pos hge] at hret
      subst hret
      exact wp_growproc_end h hr hs.keeps (fun _ => hle hge) (fun _ => hle hge)
    · rw [if_neg hge] at hret
      subst hret
      exact wp_growproc_end h hr hs.keeps (fun hc => hzero hc.2)
        (fun _ => hlt (UInt32.not_le.mp hge))
  · rw [if_neg hneg, wp_bind, wp_pure]
    exact wp_growproc_end h hr (.refl hr.space) (fun _ => hr.shape.mapped) (fun _ => hr.shape.mapped)

end

end

/-! ## fork -/

omit [Link] in
theorem State.setProc_self : (s.setProc p x).proc p = x := update_self ..

omit [Link] in
theorem wp_getProc {R : Proc → State → Prop} :
    wp getProc R E s ↔ R (s.proc s.cur) s := Iff.rfl

def State.born (s : State) (p : Fin NPROC) (k : ℕ) (rest : List ℕ) : State :=
  { s with mem := s.mem.taken rest }.setProc p { s.proc p with kstack := some k, state := .embryo }

omit [Link] in
theorem State.born_setProc :
    { s.born p k rest with mem := m' }.setProc p x = { s with mem := m' }.setProc p x := by
  unfold born setProc
  simp only [update_idem]

omit [Link] in
theorem State.born_proc :
    (s.born p k rest).proc p = { s.proc p with kstack := some k, state := .embryo } :=
  update_self ..

/-- The slot that `allocproc` finds. -/
def State.firstUnused (s : State) : Option (Fin NPROC) :=
  (List.finRange NPROC).find? fun p => decide ((s.proc p).state = .unused)

omit [Link] in
theorem State.firstUnused_some (h : s.firstUnused = some p) : (s.proc p).state = .unused := by
  simpa using List.find?_some h

omit [Link] in
theorem State.firstUnused_none : s.firstUnused = none ↔ ∀ p, (s.proc p).state ≠ .unused := by
  unfold firstUnused
  rw [List.find?_eq_none]
  simp

omit [Link] in
theorem wp_allocproc
    (hfull : s.firstUnused = none → R none s)
    (hnone : ∀ p, s.firstUnused = some p → s.mem.Refuses →
      R none ({ s with mem := s.mem.asked }.setProc p
        { s.proc p with kstack := none, state := .unused }))
    (hsome : ∀ p k rest, s.firstUnused = some p → s.mem.freelist = k :: rest →
      ¬ s.mem.Refuses → R (some p) (s.born p k rest)) :
    wp allocproc R E s := by
  unfold allocproc
  simp only [wp_bind, wp_get]
  rw [← firstUnused]
  cases hf : s.firstUnused with
  | none => exact hfull hf
  | some p =>
    simp only [wp_bind, wp_onMem]
    apply wp_kalloc
    · intro hr
      simp only [setProc, wp_bind, wp_modify, wp_pure]
      exact hnone p hf hr
    · intro k rest hl hm
      simp only [setProc, wp_bind, wp_modify, wp_pure]
      exact hsome p k rest hf hl hm

theorem SystemOk.withFree (h : SystemOk s) (hunused : (s.proc p).state = .unused)
    (hx : x.state = .unused) (hpool : PoolOk m' (s.Owned {.free}))
    (hpages : ∀ pg ∈ s.Owned {.free}, m'.page pg = s.mem.page pg) :
    SystemOk ({ s with mem := m' }.setProc p x) := by
  refine h.withPool (X := {free}) hpool hpages rfl ?_ rfl ?_ rfl ?_
  · intro a ha hne
    exact (hne ha).elim
  · intro a ha
    cases ha
  · intro q
    by_cases hq : q = p
    · subst hq
      exact .inr (by rw [setProc_self, hx])
    · exact .inl ⟨fun a ha => (by cases ha), update_of_ne hq ..⟩

theorem SystemOk.not_free (h : SystemOk s) {pg : ℕ} (hpg : pg ∈ s.Owned {.free}) :
    pg ∉ s.mem.freelist := fun hf => h.pool.frame pg hf hpg

theorem Gains.copied {New : ℕ → UInt32 → Page → Prop} {m₁ : Mem} (hb : Built F d m m₁)
    (hg : Gains New d F 0 (pagesOf sz) m₁ m') (hsize : sz.toNat < KERNBASE) : Shape m' d sz :=
  hg.shape hb.image.shape hsize UInt32.zero_le

theorem wp_fork (h : SystemOk s)
    (hr : Running s d) (hfull : s.firstUnused = none → R none s)
    (hstack : ∀ p, s.firstUnused = some p → s.mem.Refuses →
      R none ({ s with mem := s.mem.asked }.setProc p
        { s.proc p with kstack := none, state := .unused }))
    (hcopy : ∀ p k rest x m' j, s.firstUnused = some p → s.mem.freelist = k :: rest →
      ¬ s.mem.Refuses → x.state = .unused → j ≤ 66 + 2 * pagesOf (s.proc s.cur).sz →
      Declined (insert k (s.Owned {.free}))
        (CopyLoses (pagesOf (s.proc s.cur).sz) j) j (s.mem.taken rest) m' →
      R none ({ s with mem := m'.free k }.setProc p x))
    (hchild : ∀ p k rest m₁ m' d', s.firstUnused = some p → s.mem.freelist = k :: rest →
      ¬ s.mem.Refuses → Built (insert k (s.Owned {.free})) d' (s.mem.taken rest) m₁ →
      Gains (CopyOf (s.mem.taken rest) d) d' (insert k (s.Owned {.free})) 0
        (pagesOf (s.proc s.cur).sz) m₁ m' →
      R (some p) ({ s with mem := m' }.setProc p
        { s.proc s.cur with
          kstack := some k, pgdir := some d', parent := some s.cur, state := .runnable })) :
    wp fork R E s := by
  unfold fork
  rw [wp_bind]
  apply wp_allocproc
  · exact hfull
  · exact hstack
  intro p k rest hp hl hm
  have hcur : s.cur ≠ p := by
    rintro rfl
    exact hr.live (firstUnused_some hp)
  have hpool : PoolOk (s.mem.taken rest) (insert k (s.Owned {.free})) := h.pool.take hl
  have hkr : Link.endPage ≤ k ∧ k < PHYSTOP / PGSIZE := by
    apply h.range .free
    change k ∈ s.mem.freelist
    rw [hl]
    exact List.mem_cons_self
  have htaken : (s.mem.taken rest).tab d = s.mem.tab d ∧ (s.mem.taken rest).pte d = s.mem.pte d :=
    tab_pte_of_pages fun pg _ => rfl
  have hsrc : ∀ pg ∈ (s.mem.taken rest).Pages d, pg ∈ insert k (s.Owned {.free}) := by
    rintro pg ⟨a, ha⟩
    refine Set.mem_insert_of_mem k ⟨.space (some s.cur) a, fun hc => (by cases hc), d, ?_, ?_⟩
    · exact dir_some.mpr ⟨hr.live, hr.pgdir⟩
    · exact (holds_congr htaken.1 htaken.2).mp ha
  have hpres : ∀ u < pagesOf (s.proc s.cur).sz, (s.mem.taken rest).pte d u ≠ none := by
    intro u hu
    have hlim := pagesOf_le hr.shape.size
    rw [htaken.2]
    exact (hr.shape.user u (by omega)).mpr hu
  have hborn : ∀ m' x, { s.born p k rest with mem := m' }.setProc p x =
      { s with mem := m' }.setProc p x := fun _ _ => born_setProc
  have hmem : (s.born p k rest).mem = s.mem.taken rest := rfl
  have hself : (s.born p k rest).proc p = { s.proc p with kstack := some k, state := .embryo } :=
    born_proc
  have hparent : (s.born p k rest).proc (s.born p k rest).cur = s.proc s.cur :=
    update_of_ne hcur ..
  have hcur' : (s.born p k rest).cur = s.cur := rfl
  generalize s.born p k rest = s₁ at *
  rw [wp_bind, wp_getProc, hparent, hr.pgdir]
  simp only [wp_bind, wp_onMem, hmem]
  refine wp_post (wp_copyuvm hpool hsrc (pagesOf_le hr.shape.size) hpres) ?_
  intro r m' hpost
  cases r with
  | none =>
    obtain ⟨j, hj, hdecl⟩ := hpost
    simp only [wp_bind, wp_get, hself, wp_onMem]
    apply wp_kfree hkr
    simp only [setProc, wp_modify, wp_pure]
    have hset := hborn (m'.free k)
    rw [hset]
    exact hcopy p k rest _ m' j hp hl hm rfl hj hdecl
  | some d' =>
    obtain ⟨m₁, hb, hg⟩ := hpost
    simp only [setProc, wp_bind, wp_get, wp_modify, wp_pure, hself]
    have hset := hborn m'
    rw [hset, hcur']
    exact hchild p k rest m₁ m' d' hp hl hm hb hg

theorem SystemOk.fork (h : SystemOk s) (hr : Running s d) :
    wp Vm.fork (fun _ s' => SystemOk s') Expected s := by
  have hfree : ∀ {k rest}, s.mem.freelist = k :: rest →
      k ∈ s.mem.freelist ∧ ∀ x ∈ s.Owned {.free}, x ∉ (s.mem.taken rest).freelist ∧ x ≠ k := by
    intro k rest hl
    have hk : k ∈ s.mem.freelist := by
      rw [hl]
      exact List.mem_cons_self
    refine ⟨hk, fun x hx => ⟨fun hx' => h.not_free hx ?_, ?_⟩⟩
    · rw [hl]
      exact List.mem_cons_of_mem _ hx'
    · rintro rfl
      exact h.not_free hx hk
  apply wp_fork h hr
  · exact fun _ => h
  · intro p hp _
    exact h.withFree (firstUnused_some hp) rfl h.pool.asked fun pg _ => rfl
  · intro p k rest x m' j hp hl _ hx _ hdecl
    obtain ⟨hk, hout⟩ := hfree hl
    have hkout : k ∉ s.Owned {.free} := fun hko => (hout k hko).2 rfl
    refine h.withFree (firstUnused_some hp) hx ((hdecl.pool.give (Set.mem_insert k _) (h.range .free k hk)).mono ?_) ?_
    · intro pg hpg
      exact ⟨Set.mem_insert_of_mem k hpg, (hout pg hpg).2⟩
    · intro pg hpg
      rw [Mem.free_page (hout pg hpg).2, hdecl.contents pg (hout pg hpg).1]
      rfl
  · intro p k rest m₁ m' d' hp hl _ hb hg
    obtain ⟨hk, hout⟩ := hfree hl
    refine h.withProc (firstUnused_some hp) hg.ok hk ?_ rfl rfl rfl (hg.copied hb hr.shape.size).mapped
    intro pg hpg
    have ho : Opened _ d' (s.mem.taken rest) m' := hg.opened hb.opened
    rw [ho.contents pg (hout pg hpg).1]
    rfl

/-! ## exec -/

theorem SpaceOk.shrink (h : SpaceOk m d F) (htab : m'.tab d = m.tab d)
    (hpte : m'.pte d = m.pte d) (hfree : ∀ pg ∈ m'.freelist, pg ∈ m.freelist)
    (hpool : m'.freelist.Nodup) (hsingle : m'.doubleFree = false)
    (hG : ∀ pg ∈ G, pg ∈ F ∨ pg ∈ m.freelist ∧ pg ∉ m'.freelist) : SpaceOk m' d G := by
  have hsub : ∀ a pg, m'.Holds d a pg → m.Holds d a pg := by
    rintro (_ | a) pg hpg
    · exact hfree pg hpg
    · exact (holds_congr htab hpte).mp hpg
  refine ⟨hpool, h.excl.mono hsub, ?_, fun a pg hpg => h.range a pg (hsub a pg hpg), ?_, hsingle⟩
  · intro a pg hpg hin
    rcases hG pg hin with hF | ⟨hf, hnf⟩
    · exact h.frame a pg (hsub a pg hpg) hF
    · have := h.excl a none pg (hsub a pg hpg) hf
      subst this
      exact hnf hpg
  · rw [hpte]
    exact h.kernel

theorem Freed.other {H : Set ℕ} (hf : Freed c G m m') (h : SpaceOk m d F)
    (hpages : ∀ pg ∈ m.Pages d, pg ∈ G) (hG : H ⊆ G) (hF : H ⊆ F) :
    SpaceOk m' d H ∧ m'.pte d = m.pte d := by
  have hout : ∀ a pg, m.Holds d (some a) pg → pg ∉ m'.freelist :=
    fun a pg ha hfree => hf.pool.frame pg hfree (hpages pg ⟨a, ha⟩)
  obtain ⟨htab, hpte⟩ : m'.tab d = m.tab d ∧ m'.pte d = m.pte d := by
    apply tab_pte_of_pages
    rintro pg ⟨a, ha⟩
    exact hf.contents pg (hout a pg ha)
  have hpart : ∀ {a pg}, m'.Holds d (some a) pg → m.Holds d (some a) pg :=
    fun hpg => (holds_congr htab hpte).mp hpg
  refine ⟨⟨hf.pool.nodup, ?_, ?_, ?_, by rw [hpte]; exact h.kernel, hf.pool.single⟩, hpte⟩
  · rintro (_ | a) (_ | b) pg ha hb
    · rfl
    · exact (hout b pg (hpart hb) ha).elim
    · exact (hout a pg (hpart ha) hb).elim
    · exact h.excl _ _ pg (hpart ha) (hpart hb)
  · rintro (_ | a) pg ha hin
    · exact hf.pool.frame pg ha (hG hin)
    · exact h.frame (some a) pg (hpart ha) (hF hin)
  · rintro (_ | a) pg ha
    · exact hf.pool.range pg ha
    · exact h.range (some a) pg (hpart ha)

section

variable (h : SystemOk s)
include h

theorem Running.beside (hr : Running s c) (ho : Opened (s.Owned {.free}) d s.mem m') :
    SpaceOk m' c (s.Owned (mine (some s.cur)) ∪ m'.Pages d) ∧ m'.pte c = s.mem.pte c := by
  have hdir := dir_some.mpr ⟨hr.live, hr.pgdir⟩
  obtain ⟨htab, hpte⟩ : m'.tab c = s.mem.tab c ∧ m'.pte c = s.mem.pte c := by
    apply frame (X := {free}) (o := some s.cur)
    · exact fun pg hpg => ho.contents pg (h.not_free hpg)
    · exact nofun
    · exact hdir
  refine ⟨hr.space.shrink htab hpte ho.free_sub ho.ok.nodup ho.ok.single ?_, hpte⟩
  rintro pg (hpg | ⟨a, ha⟩)
  · exact .inl hpg
  · refine .inr ⟨?_, fun hf => by cases ho.ok.excl (some a) none pg ha hf⟩
    have hst : pg ∈ m'.Stock d := ⟨some a, ha⟩
    rw [ho.stock] at hst
    exact hst

theorem wp_exec {R : Bool → State → Prop}
 (hr : Running s c)
    (hargs : ShortArgs argv) (hfile : file.bind readHeader = none → R false s)
    (hdecl : ∀ j m', file.bind readHeader ≠ none → j < 65 →
      Declined (s.Owned {.free}) (SetupLoses j) j s.mem m' → R false { s with mem := m' })
    (hback : ∀ d m₁ m₂ m', file.bind readHeader ≠ none → Built (s.Owned {.free}) d s.mem m₁ →
      Opened (s.Owned {.free}) d s.mem m₂ → Freed d (s.Owned {.free}) m₂ m' →
      R false { s with mem := m' })
    (hnew : ∀ d sz m₁ m₂ m' x, Built (s.Owned {.free}) d s.mem m₁ →
      Image (s.Owned {.free}) d sz s.mem m₂ →
      Freed c (s.Owned (mine (some s.cur)) ∪ m₂.Pages d) m₂ m' →
      x.state = (s.proc s.cur).state → x.kstack = (s.proc s.cur).kstack → x.pgdir = some d →
      x.sz = sz → R true ({ s with mem := m' }.setProc s.cur x)) :
    wp (exec path file argv) R E s := by
  unfold exec
  cases file with
  | none => exact hfile rfl
  | some f =>
    simp only
    simp only [Option.bind_some] at hfile hdecl hback
    cases hf : readHeader f with
    | none => exact hfile hf
    | some elf =>
      have hne : readHeader f ≠ none := by
        rw [hf]
        simp
      simp only [wp_bind, wp_getProc, hr.pgdir, wp_onMem]
      refine wp_post (wp_newImage h.pool hargs) ?_
      intro r m₂ hpost
      cases r with
      | none =>
        rcases hpost with ⟨j, hj, hd⟩ | ⟨d, m₁, m₃, hb, ho, hf⟩
        · exact hdecl j m₂ hne hj hd
        · exact hback d m₁ m₃ m₂ hne hb ho hf
      | some x =>
        obtain ⟨d, sz, sp⟩ := x
        obtain ⟨⟨m₁, hb⟩, himg⟩ := hpost
        obtain ⟨hold, hpte⟩ := hr.beside h himg.opened
        have hseg : m₂.Segment c 0 := by
          unfold Mem.Segment
          rw [hpte]
          exact hr.shape.segment
        simp only [setProc, wp_bind, wp_get, wp_modify, wp_onMem]
        refine wp_post (wp_freevm hold hseg) ?_
        intro _ m' hfreed
        rw [wp_pure]
        exact hnew d sz m₁ m₂ m' _ hb himg hfreed rfl rfl rfl rfl

theorem SystemOk.exec (hr : Running s c) (hargs : ShortArgs argv) :
    wp (Vm.exec path file argv) (fun _ s' => SystemOk s') Expected s := by
  have hpool : ∀ m', PoolOk m' (s.Owned {.free}) →
      (∀ pg, pg ∉ s.mem.freelist → m'.page pg = s.mem.page pg) → SystemOk { s with mem := m' } := by
    intro m' hp hpages
    refine h.withPool (X := {free}) hp (fun pg hpg => hpages pg (h.not_free hpg)) rfl ?_ rfl
      ?_ rfl ?_
    · intro a ha hne
      exact (hne ha).elim
    · intro a ha
      cases ha
    · exact fun q => .inl ⟨fun a ha => (by cases ha), rfl⟩
  apply wp_exec h hr hargs
  · exact fun _ => h
  · exact fun j m' _ _ hd => hpool m' hd.pool hd.contents
  · intro d m₁ m₂ m' _ _ ho hf
    obtain ⟨hp, hpages, -⟩ := hf.back ho
    exact hpool m' hp hpages
  · intro d sz m₁ m₂ m' x hb himg hf hstate hkstack hpgdir hsz
    have hsub : s.Owned (mine (some s.cur)) ⊆ s.Owned {.free} := by
      rintro pg ⟨a, ha, hpg⟩
      exact ⟨a, fun hc => ha (.inl hc), hpg⟩
    obtain ⟨hok, hpte⟩ := hf.other himg.opened.ok (fun pg hpg => .inr hpg)
      Set.subset_union_left hsub
    refine h.withSpace hr.live hok ?_ hstate hkstack hpgdir ?_
    · intro pg hpg
      have hout : pg ∉ m'.freelist := fun hfree => hf.pool.frame pg hfree (.inl hpg)
      rw [hf.contents pg hout, himg.opened.contents pg (h.not_free (hsub hpg))]
    · rw [hsz]
      exact himg.shape.mapped.congr hpte

/-! ## wait and exit -/

theorem SystemOk.bury (hlive : (s.proc p).state ≠ .unused)
    (hk : (s.proc p).kstack = some k) (hd : (s.proc p).pgdir = some d) (hx : x.state = .unused)
    (hf : Freed d (s.Owned (insert (.kstack p) (mine (some p)))) (s.mem.free k) m') :
    SystemOk ({ s with mem := m' }.setProc p x) := by
  have hself : ({ s with mem := m' }.setProc p x).proc p = x := update_self ..
  have hkh : s.Holds (.kstack p) k := ⟨hlive, hk⟩
  refine h.withPool (X := insert (kstack p) (mine (some p))) hf.pool ?_ (.inr (.inl rfl)) ?_ rfl ?_
    rfl ?_
  · intro pg hpg
    have hne : pg ≠ k := by
      rintro rfl
      obtain ⟨a, ha, hpg⟩ := hpg
      exact ha (.inl (h.excl a _ pg hpg hkh))
    have hout : pg ∉ m'.freelist := fun hfree => hf.pool.frame pg hfree hpg
    change m'.page pg = s.mem.page pg
    rw [hf.contents pg hout, Mem.free_page hne]
  · rintro a (rfl | rfl | ⟨b, rfl⟩) hne pg hpg
    · have hst := hpg.1
      rw [hself] at hst
      exact hst hx
    · exact hne rfl
    · obtain ⟨d', hd', -⟩ := hpg
      have hst := (dir_some.mp hd').1
      rw [hself] at hst
      exact hst hx
  · rintro a (hc | hc | ⟨b, hb⟩)
    · cases hc
    · cases hc
    · cases hb
  · intro q
    by_cases hq : q = p
    · subst hq
      exact .inr (by rw [hself, hx])
    · refine .inl ⟨?_, update_of_ne hq ..⟩
      rintro a (hc | hc)
      · cases hc
      · exact not_mem_mine hq a hc

theorem SystemOk.wait : wp Vm.wait (fun _ s' => SystemOk s') Expected s := by
  unfold Vm.wait
  simp only [wp_bind, wp_get]
  cases hf : (List.finRange NPROC).find? fun p =>
      decide ((s.proc p).parent = some s.cur ∧ (s.proc p).state = .zombie) with
  | none =>
    simp only
    rw [wp_ite]
    exact ⟨fun _ => .inl rfl, fun _ => h⟩
  | some p =>
    have hp : (s.proc p).state = .zombie := by
      have := List.find?_some hf
      simp only [decide_eq_true_eq] at this
      exact this.2
    have hlive : (s.proc p).state ≠ .unused := by
      rw [hp]
      decide
    obtain ⟨-, ⟨d, hd, hmap⟩, k, hk⟩ := h.procs p hlive
    have hsp := h.space (dir_some.mpr ⟨hlive, hd⟩)
    have hkh : s.Holds (.kstack p) k := ⟨hlive, hk⟩
    have hkr := h.range _ k hkh
    simp only [hk, hd, wp_bind, wp_onMem]
    apply wp_kfree hkr
    have hkout : k ∉ s.Owned (insert (.kstack p) (mine (some p))) := by
      rintro ⟨a, ha, hpg⟩
      exact ha (.inl (h.excl a _ k hpg hkh))
    have hok : SpaceOk (s.mem.free k) d (s.Owned (insert (.kstack p) (mine (some p)))) := by
      refine SpaceOk.give (hsp.mono ?_) hkout hkr
      rintro pg (rfl | ⟨a, ha, hpg⟩)
      · refine ⟨.kstack p, ?_, hkh⟩
        rintro (hc | ⟨b, hb⟩)
        · cases hc
        · cases hb
      · exact ⟨a, fun hc => ha (.inr hc), hpg⟩
    have hpte : (s.mem.free k).pte d = s.mem.pte d := by
      have hkd : k ∈ s.Owned (mine (some p)) := by
        refine ⟨.kstack p, ?_, hkh⟩
        rintro (hc | ⟨b, hb⟩)
        · cases hc
        · cases hb
      obtain ⟨hne, hno⟩ := hsp.frame_ne hkd
      exact Mem.pte_setPage hne hno
    have hseg : (s.mem.free k).Segment d 0 := by
      unfold Mem.Segment
      rw [hpte]
      exact hmap.segment
    refine wp_post (wp_freevm hok hseg) ?_
    intro _ m' hfreed
    simp only [setProc, wp_modify, wp_pure]
    exact h.bury hlive hk hd rfl hfreed

theorem SystemOk.congr (hmem : s'.mem = s.mem) (hkernel : s'.kpgdir = s.kpgdir)
    (hpipe : s'.pipe = s.pipe) (hproc : ∀ q, ((s'.proc q).state = .unused ↔ (s.proc q).state = .unused) ∧
      (s'.proc q).kstack = (s.proc q).kstack ∧ (s'.proc q).pgdir = (s.proc q).pgdir ∧
      (s'.proc q).sz = (s.proc q).sz)
    (hstate : ∀ q, (s'.proc q).state ≠ .unused →
      (s'.proc q).state = .runnable ∨ (s'.proc q).state = .zombie) : SystemOk s' := by
  have hdir : s'.dir = s.dir := by
    funext o
    cases o with
    | none => exact hkernel
    | some q =>
      obtain ⟨h₁, -, h₃, -⟩ := hproc q
      simp only [dir, h₁, h₃]
  have hholds : s'.Holds = s.Holds := by
    funext a pg
    cases a with
    | free => simp only [State.Holds, hmem]
    | pipe => simp only [State.Holds, hpipe]
    | kstack q =>
      obtain ⟨h₁, h₂, -, -⟩ := hproc q
      simp only [State.Holds, ne_eq, h₁, h₂]
    | space o b => simp only [State.Holds, hdir, hmem]
  refine ⟨hholds ▸ h.excl, hmem ▸ h.nodup, hmem ▸ h.single, hholds ▸ h.range, ?_,
    by rw [hmem, hkernel]; exact h.kernel⟩
  intro q hq
  obtain ⟨h₁, h₂, h₃, h₄⟩ := hproc q
  obtain ⟨-, ⟨d, hd, hmap⟩, hk⟩ := h.procs q fun hu => hq (h₁.mpr hu)
  exact ⟨hstate q hq, ⟨d, h₃.trans hd, by rw [hmem, h₄]; exact hmap⟩, by rw [h₂]; exact hk⟩

theorem SystemOk.exit (hcur : (s.proc s.cur).state = .runnable) :
    wp Vm.exit (fun _ s' => SystemOk s') Expected s := by
  unfold Vm.exit
  simp only [wp_bind, wp_get]
  rw [wp_ite]
  refine ⟨fun _ => .inr rfl, fun _ => ?_⟩
  rw [wp_modify]
  refine h.congr rfl rfl rfl ?_ ?_
  · intro q
    by_cases hq : q = s.cur
    · subst hq
      by_cases hpar : (s.proc s.cur).parent = some s.cur <;> simp [hpar, hcur]
    · by_cases hpar : (s.proc q).parent = some s.cur <;> simp [hpar, hq]
  · intro q
    by_cases hq : q = s.cur
    · intro _
      exact .inr (by simp [hq])
    · intro hlive
      have hsame : (if q = s.cur then
          { (if (s.proc q).parent = some s.cur then { s.proc q with parent := some initproc }
            else s.proc q) with state := .zombie }
          else if (s.proc q).parent = some s.cur then { s.proc q with parent := some initproc }
          else s.proc q).state = (s.proc q).state := by
        rw [if_neg hq]
        by_cases hpar : (s.proc q).parent = some s.cur <;> simp [hpar]
      have hlive' : (s.proc q).state ≠ .unused := by
        rw [← hsame]
        exact hlive
      have hst := (h.procs q hlive').state
      rw [← hsame] at hst
      exact hst

end

end Xv6.Vm
