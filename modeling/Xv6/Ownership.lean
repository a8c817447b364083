import Xv6.ExecImage

/-!
# Who has which page

Every page of the allocator is on the free list, is a kernel stack or a pipe, or belongs to an address
space as its directory, one of its tables or a user page. A system is in order if no page has two
holders and every process has an address space of the shape its size says.

The functions of `vm.c` are specified for one directory against a set of pages of others. Here that
set is everything that somebody else holds, and what a call does to one address space is put together
with what it leaves alone.
-/

namespace Xv6.Vm

open Resumption ByteLayout Custody Function State

/-! ## Holders -/

/-- `space none` is the kernel's own directory. -/
inductive Holder
  | free
  | pipe
  | kstack (p : Fin NPROC)
  | space (o : Option (Fin NPROC)) (a : Part)

namespace State

/-- The directory of a process that exists, or of the kernel. -/
def dir (s : State) : Option (Fin NPROC) → Option ℕ
  | none => s.kpgdir
  | some p => if (s.proc p).state = .unused then none else (s.proc p).pgdir

def Holds (s : State) : Holder → ℕ → Prop
  | .free, pg => pg ∈ s.mem.freelist
  | .pipe, pg => s.pipe pg ≠ none
  | .kstack p, pg => (s.proc p).state ≠ .unused ∧ (s.proc p).kstack = some pg
  | .space o a, pg => ∃ d, s.dir o = some d ∧ s.mem.Holds d (some a) pg

/-- The pages of all holders outside `X`. -/
def Owned (s : State) (X : Set Holder) : Set ℕ := { pg | ∃ h, h ∉ X ∧ s.Holds h pg }

theorem dir_some {s : State} {p : Fin NPROC} {d : ℕ} :
    s.dir (some p) = some d ↔ (s.proc p).state ≠ .unused ∧ (s.proc p).pgdir = some d := by
  unfold dir
  by_cases h : (s.proc p).state = .unused
  · simp [h]
  · simp [h]

theorem frame {s : State} {m' : Mem} {X : Set Holder} {o : Option (Fin NPROC)} {d : ℕ}
    (hpages : ∀ pg ∈ s.Owned X, m'.page pg = s.mem.page pg) (hX : ∀ a, Holder.space o a ∉ X)
    (hd : s.dir o = some d) : m'.tab d = s.mem.tab d ∧ m'.pte d = s.mem.pte d := by
  apply tab_pte_of_pages
  rintro pg ⟨a, ha⟩
  exact hpages pg ⟨.space o a, hX a, d, hd, ha⟩

end State

/-- The holders that a call on the address space of `o` works with. -/
def mine (o : Option (Fin NPROC)) : Set Holder := { h | h = .free ∨ ∃ a, h = .space o a }

variable [Link] {s s' : State} {m m' : Mem} {p : Fin NPROC} {d : ℕ} {sz : UInt32}
  {o : Option (Fin NPROC)}

/-- Directory `d` maps the user pages below `sz`, or none at all: then the process has given up all
its memory and cannot run any more. -/
structure Mapped (m : Mem) (d : ℕ) (sz : UInt32) : Prop where
  size : sz.toNat < KERNBASE
  user : (∀ v < 2 ^ 19, m.pte d v ≠ none ↔ v < pagesOf sz) ∨ ∀ v < 2 ^ 19, m.pte d v = none
  kernel : ∀ v, 2 ^ 19 ≤ v → m.pte d v = kernelPte v

structure ProcOk (m : Mem) (x : Proc) : Prop where
  state : x.state = .runnable ∨ x.state = .zombie
  dir : ∃ d, x.pgdir = some d ∧ Mapped m d x.sz
  kstack : ∃ k, x.kstack = some k

structure SystemOk (s : State) : Prop where
  excl : Exclusive s.Holds
  nodup : s.mem.freelist.Nodup
  single : s.mem.doubleFree = false
  range : ∀ h pg, s.Holds h pg → Link.endPage ≤ pg ∧ pg < PHYSTOP / PGSIZE
  procs : ∀ p, (s.proc p).state ≠ .unused → ProcOk s.mem (s.proc p)
  kernel : ∀ d, s.kpgdir = some d → ∀ v, s.mem.pte d v = kernelPte v

variable {v : ℕ} {e : UInt32} {x : Proc} {X : Set Holder}

theorem kernelPte_user (h : kernelPte v = some e) : e &&& PTE_U = 0 := by
  have hend := Link.data_le
  have hlim := Link.end_lt
  unfold kernelPte at h
  split_ifs at h with h₁ h₂ h₃ h₄ <;> cases h
  · rw [mkPte_flag (by omega) (by decide) (by decide)]
    decide
  · rw [mkPte_flag (by omega) (by decide) (by decide)]
    decide
  · rw [mkPte_flag (by omega) (by decide) (by decide)]
    decide
  · rw [mkPte_flag (by omega) (by decide) (by decide)]
    decide

theorem Mapped.congr (h : Mapped m d sz) (hpte : m'.pte d = m.pte d) : Mapped m' d sz :=
  ⟨h.size, by rw [hpte]; exact h.user, by rw [hpte]; exact h.kernel⟩

theorem Mapped.segment (h : Mapped m d sz) : m.Segment d 0 := by
  intro a b _ hab ha hpa
  rcases h.user with hu | hu
  · have := (hu a ha).mp hpa
    exact (hu b (by omega)).mpr (by omega)
  · exact (hpa (hu a ha)).elim

theorem Shape.mapped (h : Shape m d sz) : Mapped m d sz := ⟨h.size, .inl h.user, h.kernel⟩

/-! ## From the system to one address space -/

theorem SystemOk.pages_kernel (h : SystemOk s) (hd : s.dir o = some d)
    (hv : 2 ^ 19 ≤ v) (he : s.mem.pte d v = some e) : e &&& PTE_U = 0 := by
  cases o with
  | none =>
    rw [h.kernel d hd] at he
    exact kernelPte_user he
  | some p =>
    obtain ⟨hlive, hd⟩ := dir_some.mp hd
    obtain ⟨d', hd', hmap⟩ := (h.procs p hlive).dir
    obtain rfl : d' = d := Option.some.inj (hd'.symm.trans hd)
    rw [hmap.kernel v hv] at he
    exact kernelPte_user he

theorem SystemOk.space (h : SystemOk s) (hd : s.dir o = some d) :
    SpaceOk s.mem d (s.Owned (mine o)) := by
  let f : Option Part → Holder := fun a => a.elim .free (.space o)
  have hhold : ∀ a pg, s.mem.Holds d a pg → s.Holds (f a) pg := by
    rintro (_ | a) pg hpg
    · exact hpg
    · exact ⟨d, hd, hpg⟩
  have hinj : ∀ a b, f a = f b → a = b := by
    rintro (_ | a) (_ | b) hab
    · rfl
    · cases hab
    · cases hab
    · cases hab
      rfl
  have hmine : ∀ a, f a ∈ mine o := by
    rintro (_ | a)
    · exact .inl rfl
    · exact .inr ⟨a, rfl⟩
  refine ⟨h.nodup, ?_, ?_, fun a pg hpg => h.range _ _ (hhold a pg hpg),
    fun v e hv he => h.pages_kernel hd hv he, h.single⟩
  · intro a b pg ha hb
    exact hinj a b (h.excl _ _ pg (hhold a pg ha) (hhold b pg hb))
  · rintro a pg hpg ⟨k, hk, hkpg⟩
    have := h.excl _ _ pg (hhold a pg hpg) hkpg
    exact hk (this ▸ hmine a)

theorem SystemOk.pool (h : SystemOk s) : PoolOk s.mem (s.Owned {.free}) := by
  refine ⟨h.nodup, ?_, fun pg hpg => h.range .free pg hpg, h.single⟩
  rintro pg hpg ⟨k, hk, hkpg⟩
  exact hk (h.excl k .free pg hkpg hpg)

/-! ## Back to the system -/

omit [Link] in
theorem holds_congr {a : Part} {pg : ℕ} (htab : m'.tab d = m.tab d) (hpte : m'.pte d = m.pte d) :
    m'.Holds d (some a) pg ↔ m.Holds d (some a) pg := by
  cases a with
  | dir => exact Iff.rfl
  | tab i => simp only [Mem.Holds, htab]
  | user v => simp only [Mem.Holds, hpte]

theorem ProcOk.congr (h : ProcOk m x) (hpte : ∀ d, x.pgdir = some d → m'.pte d = m.pte d) :
    ProcOk m' x := by
  obtain ⟨d, hd, hmap⟩ := h.dir
  exact ⟨h.state, ⟨d, hd, hmap.congr (hpte d hd)⟩, h.kstack⟩

inductive Renews (s s' : State) (X : Set Holder) (q : Fin NPROC) : Prop
  | same (hspace : ∀ a, Holder.space (some q) a ∉ X) (hproc : s'.proc q = s.proc q)
  | gone (hstate : (s'.proc q).state = .unused)
  | renewed (hspace : ∀ a, Holder.space (some q) a ∈ X) (hok : ProcOk s'.mem (s'.proc q))
      (hkstack : Holder.kstack q ∈ X ∨
        (s.proc q).state ≠ .unused ∧ (s'.proc q).kstack = (s.proc q).kstack)

/-- The holders `X` are rearranged. The new state is in order if they are so among themselves and have
none of the pages of the others, and if these have the same pages with the same contents as
before. -/
theorem SystemOk.renew (h : SystemOk s) (hexcl : Exclusive fun a pg => a ∈ X ∧ s'.Holds a pg)
    (hout : ∀ a pg, a ∈ X → s'.Holds a pg → pg ∉ s.Owned X)
    (hrange : ∀ a pg, a ∈ X → s'.Holds a pg → Link.endPage ≤ pg ∧ pg < PHYSTOP / PGSIZE)
    (hnodup : s'.mem.freelist.Nodup) (hsingle : s'.mem.doubleFree = false)
    (hpages : ∀ pg ∈ s.Owned X, s'.mem.page pg = s.mem.page pg) (hfree : Holder.free ∈ X)
    (hpipe : Holder.pipe ∈ X ∨ s'.pipe = s.pipe) (hnone : ∀ a, Holder.space none a ∉ X)
    (hkernel : s'.kpgdir = s.kpgdir) (hprocs : ∀ q, Renews s s' X q) : SystemOk s' := by
  have hold : ∀ a pg, a ∉ X → s'.Holds a pg → s.Holds a pg := by
    rintro (_ | _ | q | ⟨_ | q, b⟩) pg ha hpg
    · exact (ha hfree).elim
    · have hp := hpipe.resolve_left ha
      simp only [State.Holds, hp] at hpg
      exact hpg
    · cases hprocs q with
      | same _ hproc =>
        simp only [State.Holds, hproc] at hpg
        exact hpg
      | gone hstate => exact (hpg.1 hstate).elim
      | renewed _ _ hk =>
        obtain ⟨hlive, hk⟩ := hk.resolve_left ha
        exact ⟨hlive, by rw [← hk]; exact hpg.2⟩
    · obtain ⟨d, hd, hpg⟩ := hpg
      have hd' : s.dir none = some d := by
        rw [← hd]
        exact hkernel.symm
      obtain ⟨htab, hpte⟩ := frame hpages hnone hd'
      exact ⟨d, hd', (holds_congr htab hpte).mp hpg⟩
    · obtain ⟨d, hd, hpg⟩ := hpg
      obtain ⟨hlive, hdir⟩ := dir_some.mp hd
      cases hprocs q with
      | same hspace hproc =>
        rw [hproc] at hlive hdir
        have hd' := dir_some.mpr ⟨hlive, hdir⟩
        obtain ⟨htab, hpte⟩ := frame hpages hspace hd'
        exact ⟨d, hd', (holds_congr htab hpte).mp hpg⟩
      | gone hstate => exact (hlive hstate).elim
      | renewed hspace _ _ => exact (ha (hspace b)).elim
  have hrest : Exclusive fun a pg => a ∉ X ∧ s'.Holds a pg :=
    h.excl.mono fun a pg hpg => hold a pg hpg.1 hpg.2
  have hin : ∀ a pg, a ∉ X ∧ s'.Holds a pg → pg ∈ s.Owned X :=
    fun a pg hpg => ⟨a, hpg.1, hold a pg hpg.1 hpg.2⟩
  refine ⟨hexcl.combine hrest (fun a pg hpg => hout a pg hpg.1 hpg.2) hin ?_, hnodup, hsingle, ?_,
    ?_, ?_⟩
  · intro a pg hpg
    by_cases ha : a ∈ X
    · exact .inl ⟨ha, hpg⟩
    · exact .inr ⟨ha, hpg⟩
  · intro a pg hpg
    by_cases ha : a ∈ X
    · exact hrange a pg ha hpg
    · exact h.range a pg (hold a pg ha hpg)
  · intro q hq
    cases hprocs q with
    | same hspace hproc =>
      rw [hproc] at hq ⊢
      refine (h.procs q hq).congr fun d hd => ?_
      exact (frame hpages hspace (dir_some.mpr ⟨hq, hd⟩)).2
    | gone hstate => exact (hq hstate).elim
    | renewed _ hok _ => exact hok
  · intro d hd v
    have hd' : s.dir none = some d := hkernel.symm.trans hd
    rw [← h.kernel d hd' v]
    exact congrFun (frame hpages hnone hd').2 v

/-! ### One address space -/

omit [Link] in
theorem not_mem_mine {q : Fin NPROC} (hq : q ≠ p) (a : Part) :
    Holder.space (some q) a ∉ mine (some p) := by
  rintro (hc | ⟨b, hb⟩)
  · cases hc
  · cases hb
    exact hq rfl

theorem SystemOk.withSpace (h : SystemOk s) (hlive : (s.proc p).state ≠ .unused)
    (hok : SpaceOk m' d (s.Owned (mine (some p))))
    (hpages : ∀ pg ∈ s.Owned (mine (some p)), m'.page pg = s.mem.page pg)
    (hstate : x.state = (s.proc p).state) (hkstack : x.kstack = (s.proc p).kstack)
    (hpgdir : x.pgdir = some d) (hmap : Mapped m' d x.sz) :
    SystemOk ({ s with mem := m' }.setProc p x) := by
  have hself : ({ s with mem := m' }.setProc p x).proc p = x := update_self ..
  have hlocal : ∀ a pg, a ∈ mine (some p) → ({ s with mem := m' }.setProc p x).Holds a pg →
      ∃ b : Option Part, a = b.elim .free (.space (some p)) ∧ m'.Holds d b pg := by
    rintro a pg (rfl | ⟨b, rfl⟩) hpg
    · exact ⟨none, rfl, hpg⟩
    · obtain ⟨d', hd', hpg⟩ := hpg
      have hx := (dir_some.mp hd').2
      rw [hself, hpgdir] at hx
      obtain rfl := Option.some.inj hx
      exact ⟨some b, rfl, hpg⟩
  refine h.renew (X := mine (some p)) ?_ ?_ ?_ hok.nodup hok.single hpages (.inl rfl) (.inr rfl)
    ?_ rfl ?_
  · rintro a b pg ⟨ha, hpa⟩ ⟨hb, hpb⟩
    obtain ⟨a', ha', hold⟩ := hlocal a pg ha hpa
    obtain ⟨b', hb', hold'⟩ := hlocal b pg hb hpb
    rw [ha', hb', hok.excl a' b' pg hold hold']
  · intro a pg ha hpg
    obtain ⟨b, -, hold⟩ := hlocal a pg ha hpg
    exact hok.frame b pg hold
  · intro a pg ha hpg
    obtain ⟨b, -, hold⟩ := hlocal a pg ha hpg
    exact hok.range b pg hold
  · rintro a (hc | ⟨b, hb⟩)
    · cases hc
    · cases hb
  · intro q
    by_cases hq : q = p
    · subst hq
      obtain ⟨hst, -, hk⟩ := h.procs q hlive
      refine .renewed (fun a => .inr ⟨a, rfl⟩) ?_ (.inr ⟨hlive, by rw [hself, hkstack]⟩)
      rw [hself]
      exact ⟨hstate ▸ hst, ⟨d, hpgdir, hmap⟩, hkstack ▸ hk⟩
    · exact .same (not_mem_mine hq) (update_of_ne hq ..)

theorem SystemOk.withPool (h : SystemOk s) (hpool : PoolOk s'.mem (s.Owned X))
    (hpages : ∀ pg ∈ s.Owned X, s'.mem.page pg = s.mem.page pg) (hfree : Holder.free ∈ X)
    (hX : ∀ a ∈ X, a ≠ .free → ∀ pg, ¬ s'.Holds a pg) (hpipe : s'.pipe = s.pipe)
    (hnone : ∀ a, Holder.space none a ∉ X) (hkernel : s'.kpgdir = s.kpgdir)
    (hprocs : ∀ q, (∀ a, Holder.space (some q) a ∉ X) ∧ s'.proc q = s.proc q ∨
      (s'.proc q).state = .unused) : SystemOk s' := by
  have hlocal : ∀ a pg, a ∈ X → s'.Holds a pg → a = .free ∧ pg ∈ s'.mem.freelist := by
    intro a pg ha hpg
    by_cases hf : a = .free
    · subst hf
      exact ⟨rfl, hpg⟩
    · exact (hX a ha hf pg hpg).elim
  refine h.renew (X := X) ?_ ?_ ?_ hpool.nodup hpool.single hpages hfree (.inr hpipe) hnone hkernel ?_
  · rintro a b pg ⟨ha, hpa⟩ ⟨hb, hpb⟩
    rw [(hlocal a pg ha hpa).1, (hlocal b pg hb hpb).1]
  · exact fun a pg ha hpg => hpool.frame pg (hlocal a pg ha hpg).2
  · exact fun a pg ha hpg => hpool.range pg (hlocal a pg ha hpg).2
  · intro q
    rcases hprocs q with ⟨hspace, hproc⟩ | hgone
    · exact .same hspace hproc
    · exact .gone hgone

theorem SystemOk.withProc {k : ℕ} (h : SystemOk s)
    (hunused : (s.proc p).state = .unused) (hok : SpaceOk m' d (insert k (s.Owned {.free})))
    (hk : k ∈ s.mem.freelist) (hpages : ∀ pg ∈ s.Owned {.free}, m'.page pg = s.mem.page pg)
    (hstate : x.state = .runnable) (hkstack : x.kstack = some k) (hpgdir : x.pgdir = some d)
    (hmap : Mapped m' d x.sz) : SystemOk ({ s with mem := m' }.setProc p x) := by
  have hself : ({ s with mem := m' }.setProc p x).proc p = x := update_self ..
  let X : Set Holder := { a | a = .free ∨ a = .kstack p ∨ ∃ b, a = .space (some p) b }
  have hold : ∀ a ∈ X, ∀ pg, s.Holds a pg → a = .free := by
    rintro a (rfl | rfl | ⟨b, rfl⟩) pg hpg
    · rfl
    · exact (hpg.1 hunused).elim
    · obtain ⟨d', hd', -⟩ := hpg
      exact ((dir_some.mp hd').1 hunused).elim
  have howned : s.Owned X = s.Owned {.free} := by
    ext pg
    constructor
    · rintro ⟨a, ha, hpg⟩
      exact ⟨a, fun hf => ha (.inl hf), hpg⟩
    · rintro ⟨a, ha, hpg⟩
      exact ⟨a, fun hX => ha (hold a hX pg hpg), hpg⟩
  have hkout : k ∉ s.Owned {.free} := by
    rintro ⟨a, ha, hpg⟩
    exact ha (h.excl a .free k hpg hk)
  have hlocal : ∀ a pg, a ∈ X → ({ s with mem := m' }.setProc p x).Holds a pg →
      a = .kstack p ∧ pg = k ∨
        ∃ b : Option Part, a = b.elim .free (.space (some p)) ∧ m'.Holds d b pg := by
    rintro a pg (rfl | rfl | ⟨b, rfl⟩) hpg
    · exact .inr ⟨none, rfl, hpg⟩
    · have hx := hpg.2
      rw [hself, hkstack] at hx
      exact .inl ⟨rfl, (Option.some.inj hx).symm⟩
    · obtain ⟨d', hd', hpg⟩ := hpg
      have hx := (dir_some.mp hd').2
      rw [hself, hpgdir] at hx
      obtain rfl := Option.some.inj hx
      exact .inr ⟨some b, rfl, hpg⟩
  have hne : ∀ b, ¬ m'.Holds d b k := fun b hb => hok.frame b k hb (Set.mem_insert k _)
  refine h.renew (X := X) ?_ ?_ ?_ hok.nodup hok.single ?_ (.inl rfl) (.inr rfl) ?_ rfl ?_
  · rintro a b pg ⟨ha, hpa⟩ ⟨hb, hpb⟩
    rcases hlocal a pg ha hpa with ⟨rfl, rfl⟩ | ⟨a', ha', hold⟩
    · rcases hlocal b pg hb hpb with ⟨rfl, -⟩ | ⟨b', hb', hold'⟩
      · rfl
      · exact (hne b' hold').elim
    · rcases hlocal b pg hb hpb with ⟨rfl, rfl⟩ | ⟨b', hb', hold'⟩
      · exact (hne a' hold).elim
      · rw [ha', hb', hok.excl a' b' pg hold hold']
  · intro a pg ha hpg
    rw [howned]
    rcases hlocal a pg ha hpg with ⟨rfl, rfl⟩ | ⟨b, -, hold⟩
    · exact hkout
    · exact fun hF => hok.frame b pg hold (Set.mem_insert_of_mem _ hF)
  · intro a pg ha hpg
    rcases hlocal a pg ha hpg with ⟨rfl, rfl⟩ | ⟨b, -, hold⟩
    · exact h.range .free pg hk
    · exact hok.range b pg hold
  · rw [howned]
    exact hpages
  · rintro a (hc | hc | ⟨b, hb⟩)
    · cases hc
    · cases hc
    · cases hb
  · intro q
    by_cases hq : q = p
    · subst hq
      refine .renewed (fun a => .inr (.inr ⟨a, rfl⟩)) ?_ (.inl (.inr (.inl rfl)))
      rw [hself]
      exact ⟨.inl hstate, ⟨d, hpgdir, hmap⟩, ⟨k, hkstack⟩⟩
    · refine .same ?_ (update_of_ne hq ..)
      rintro a (hc | hc | ⟨b, hb⟩)
      · cases hc
      · cases hc
      · cases hb
        exact hq rfl

end Xv6.Vm
