import Xv6.Isolation

/-!
# What failed calls lose

`fork`, `exec` and `sbrk` return -1 when a request for memory is refused on the way. `sbrk` gives back
what it has taken, but for page tables that stay in use. `setupkvm` drops the directory and the tables
it has made so far if the request for one more table is refused, and `copyuvm` drops the page it was
about to map. So whether `fork` or `exec` loses pages depends on which request is refused first.
-/

namespace Xv6.Vm

open Resumption ByteLayout Custody List State Call

variable {s s' : State} {m m' : Mem} {d : ℕ} {F : Set ℕ}

/-- The calls that can run out of memory. -/
inductive Call.Allocates : Call → Prop
  | fork : Allocates .fork
  | exec (path : List UInt8) (file : Option ElfFile) (argv : List (List UInt8)) :
    Allocates (.exec path file argv)
  | sbrk (n : Int32) : Allocates (.sbrk n)

/-- Every page that was free is free or has become a table of directory `d`. -/
def Returned (m m' : Mem) (d : ℕ) : Prop :=
  ∀ pg ∈ m.freelist, pg ∈ m'.freelist ∨ ∃ i, m'.tab d i = some pg

/-- Nothing has been lost by a failed call: after `fork` and `exec`, as many pages are free as
before. -/
def Call.Lossless (m m' : Mem) (d : ℕ) : Call → Prop
  | .sbrk _ => Returned m m' d
  | _ => Returned m m' d ∧ m'.freelist.length = m.freelist.length

/-- The call loses pages: the first request that is refused is one for the tables of `setupkvm`, or in
`fork` one for a table of user pages. Request 0 of `fork` is the kernel stack, and request 0 of
`setupkvm` the directory. -/
def Call.Loses (s : State) : Call → Prop
  | .fork => s.firstUnused ≠ none ∧
    ∃ k, s.mem.FirstRefused (k + 1) ∧ CopyLoses (pagesOf (s.proc s.cur).sz) k
  | .exec _ file _ => file.bind readHeader ≠ none ∧ ∃ k, s.mem.FirstRefused k ∧ SetupLoses k
  | _ => False

variable [Link]

/-! ## Free lists before and after -/

theorem lossless_iff {c : Call} (hc : ∀ n, c ≠ .sbrk n) (hpool : PoolOk m F) (hpool' : PoolOk m' F)
    (hd : ∀ i pg, m'.tab d i = some pg → pg ∈ F) (hsub : ∀ pg ∈ m'.freelist, pg ∈ m.freelist) :
    c.Lossless m m' d ↔ ∀ pg ∈ m.freelist, pg ∈ m'.freelist := by
  have hiff : c.Lossless m m' d ↔
      Returned m m' d ∧ m'.freelist.length = m.freelist.length := by
    cases c with
    | sbrk n => exact (hc n rfl).elim
    | _ => exact Iff.rfl
  rw [hiff]
  constructor
  · rintro ⟨hret, -⟩ pg hpg
    rcases hret pg hpg with hf | ⟨i, hi⟩
    · exact hf
    · exact (hpool.frame pg hpg (hd i pg hi)).elim
  · intro hback
    refine ⟨fun pg hpg => .inl (hback pg hpg), ?_⟩
    apply List.Perm.length_eq
    rw [perm_ext_iff_of_nodup hpool'.nodup hpool.nodup]
    exact fun pg => ⟨hsub pg, hback pg⟩

theorem Running.tables_owned (h : SystemOk s) (hr : Running s d)
    (hpages : ∀ pg, pg ∉ s.mem.freelist → m'.page pg = s.mem.page pg) :
    ∀ i pg, m'.tab d i = some pg → pg ∈ s.Owned {.free} := by
  intro i pg hi
  have hdir := dir_some.mpr ⟨hr.live, hr.pgdir⟩
  have hkeep : m'.tab d = s.mem.tab d := by
    refine (frame (X := {Holder.free}) (o := some s.cur) ?_ nofun hdir).1
    exact fun pg hpg => hpages pg (h.not_free hpg)
  rw [hkeep] at hi
  exact ⟨.space (some s.cur) (.tab i), fun hc => (by cases hc), d, hdir, hi⟩

/-! ## fork -/

theorem lossless_fork (h : SystemOk s) (hr : Running s d) :
    wp Vm.fork (fun r s' => r = none → (Call.fork.Lossless s.mem s'.mem d ↔ ¬ Call.fork.Loses s))
      (fun _ _ => True) s := by
  have hsame : ∀ m' : Mem, m'.page = s.mem.page → m'.freelist = s.mem.freelist →
      Call.fork.Lossless s.mem m' d := by
    intro m' hpage hfree
    exact ⟨fun pg hpg => .inl (by rw [hfree]; exact hpg), by rw [hfree]⟩
  apply wp_fork h hr
  · intro hfull _
    exact ⟨fun _ hl => hl.1 hfull, fun _ => hsame s.mem rfl rfl⟩
  · intro p hp hrefuse _
    refine ⟨fun _ hl => ?_, fun _ => hsame _ rfl rfl⟩
    obtain ⟨-, k, hk, -⟩ := hl
    have hzero : s.mem.FirstRefused 0 := (Paid.refl s.mem).firstRefused hrefuse rfl
    have := hk.unique hzero
    omega
  · intro p k rest x m' j hp hl hm _ _ hdecl _
    have hsome : s.firstUnused ≠ none := by
      rw [hp]
      simp
    have hsucc : (s.mem.taken rest).FirstRefused j ↔ s.mem.FirstRefused (j + 1) :=
      Mem.FirstRefused.succ hl hm rfl rfl rfl
    have hfirst := hsucc.mp hdecl.first
    have hloses : Call.fork.Loses s ↔ CopyLoses (pagesOf (s.proc s.cur).sz) j := by
      refine ⟨?_, fun hj => ⟨hsome, j, hfirst, hj⟩⟩
      rintro ⟨-, i, hi, hci⟩
      obtain rfl : i = j := by
        have := hi.unique hfirst
        omega
      exact hci
    have hk : k ∈ s.mem.freelist := by
      rw [hl]
      exact List.mem_cons_self
    have hpool' : PoolOk (m'.free k) (s.Owned {.free}) := by
      refine (hdecl.pool.give (Set.mem_insert k _) (h.range .free k hk)).mono fun pg hpg => ⟨?_, ?_⟩
      · exact Set.mem_insert_of_mem k hpg
      · rintro rfl
        exact h.not_free hpg hk
    have hpages : ∀ pg, pg ∉ s.mem.freelist → (m'.free k).page pg = s.mem.page pg := by
      intro pg hpg
      rw [hl, List.mem_cons, not_or] at hpg
      rw [Mem.free_page hpg.1]
      exact hdecl.contents pg hpg.2
    have hfree : ∀ pg, pg ∈ (m'.free k).freelist ↔ pg = k ∨ pg ∈ m'.freelist := fun pg =>
      List.mem_cons
    have hiff := lossless_iff (c := .fork) (d := d) (fun n hn => by cases hn) h.pool hpool'
      (hr.tables_owned h hpages) (fun pg hpg => by
        rw [hl, List.mem_cons]
        rcases (hfree pg).mp hpg with rfl | hpg
        · exact .inl rfl
        · exact .inr (hdecl.sub pg hpg))
    change Call.fork.Lossless s.mem (m'.free k) d ↔ _
    rw [hiff, hloses, ← hdecl.back]
    constructor
    · intro hall pg hpg
      have hin : pg ∈ s.mem.freelist := by
        rw [hl]
        exact List.mem_cons_of_mem k hpg
      have hne : pg ≠ k := by
        rintro rfl
        have hnodup := h.nodup
        rw [hl, List.nodup_cons] at hnodup
        exact hnodup.1 hpg
      exact ((hfree pg).mp (hall pg hin)).resolve_left hne
    · intro hall pg hpg
      rw [hl, List.mem_cons] at hpg
      rw [hfree]
      exact hpg.imp id (hall pg)
  · intro p k rest m₁ m' d' _ _ _ _ _ hnone
    cases hnone

/-! ## exec -/

theorem lossless_exec {path : List UInt8} {file : Option ElfFile} {argv : List (List UInt8)}
    (h : SystemOk s) (hr : Running s d) (hargs : ShortArgs argv) :
    wp (Vm.exec path file argv) (fun r s' => r = false →
      ((Call.exec path file argv).Lossless s.mem s'.mem d ↔ ¬ (Call.exec path file argv).Loses s))
      (fun _ _ => True) s := by
  apply wp_exec h hr hargs
  · intro hnone _
    exact ⟨fun _ hl => hl.1 hnone, fun _ => ⟨fun pg hpg => .inl hpg, rfl⟩⟩
  · intro j m' hfile _ hdecl _
    have hloses : (Call.exec path file argv).Loses s ↔ SetupLoses j := by
      refine ⟨?_, fun hj => ⟨hfile, j, hdecl.first, hj⟩⟩
      rintro ⟨-, i, hi, hsi⟩
      rwa [hi.unique hdecl.first] at hsi
    change (Call.exec path file argv).Lossless s.mem m' d ↔ _
    rw [lossless_iff (fun n hn => by cases hn) h.pool hdecl.pool
      (hr.tables_owned h hdecl.contents) hdecl.sub, hloses, hdecl.back]
  · intro d' m₁ m₂ m' hfile hb ho hf _
    obtain ⟨hpool, hpages, hfree⟩ := hf.back ho
    change (Call.exec path file argv).Lossless s.mem m' d ↔ _
    rw [lossless_iff (fun n hn => by cases hn) h.pool hpool (hr.tables_owned h hpages)
      fun pg hpg => (hfree pg).mp hpg]
    refine ⟨?_, fun _ pg hpg => (hfree pg).mpr hpg⟩
    -- all 65 requests of `setupkvm` were granted
    rintro - ⟨-, k, hk, -, hle⟩
    have := hk.le hb.paid hb.calls
    omega
  · intro _ _ _ _ _ _ _ _ _ _ _ _ _ hfalse
    cases hfalse

/-! ## sbrk -/

theorem Keeps.returned (h : SpaceOk m d F) (hk : Keeps d F m m')
    (hpte : ∀ v e, m'.pte d v = some e → m.pte d v = some e) : Returned m m' d := by
  intro pg hpg
  have hst : pg ∈ m'.Stock d := by
    rw [hk.stock]
    exact ⟨none, hpg⟩
  rcases mem_stock.mp hst with hf | hd | ht | ⟨v, hv, hu⟩
  · exact .inl hf
  · cases h.excl none (some .dir) pg hpg hd
  · exact .inr ht
  · obtain ⟨e, he, hpe⟩ := Option.map_eq_some_iff.mp hu
    have hold : m.Holds d (some (.user v)) pg := ⟨hv, by rw [hpte v e he, Option.map_some, hpe]⟩
    cases h.excl none (some (.user v)) pg hpg hold

theorem lossless_sbrk {n : Int32} (hr : Running s d) :
    wp (growproc n) (fun r s' => r = false → (Call.sbrk n).Lossless s.mem s'.mem d)
      (fun _ _ => True) s := by
  have hend : ∀ (r : UInt32) (m' : Mem), (n ≠ 0 ∧ r = 0 → Returned s.mem m' d) →
      wp (if n ≠ 0 ∧ r = 0 then return false
        else do
          let s ← get
          setProc s.cur { s.proc s.cur with sz := r }
          return true : M Bool)
        (fun r s' => r = false → (sbrk n).Lossless s.mem s'.mem d) (fun _ _ => True)
        { s with mem := m' } := by
    intro r m' hret
    by_cases hc : n ≠ 0 ∧ r = 0
    · rw [if_pos hc, wp_pure]
      exact fun _ => hret hc
    · rw [if_neg hc]
      simp only [setProc, wp_bind, wp_get, wp_modify, wp_pure]
      exact fun hfalse => by cases hfalse
  have hrefl : Returned s.mem s.mem d := fun pg hpg => .inl hpg
  unfold growproc getProc
  simp only [wp_bind, wp_get, wp_pure, hr.pgdir]
  by_cases hpos : n > 0
  · rw [if_pos hpos, wp_bind, wp_onMem]
    refine wp_post (wp_allocuvm hr.space hr.shape.size hr.shape.none_above) ?_
    rintro r m' (⟨rfl, hres, -⟩ | ⟨-, rfl, rfl⟩ | ⟨hle, -, rfl, hg⟩)
    · refine hend 0 m' fun _ => hres.toKeeps.returned hr.space fun v e he => ?_
      rw [← hres.pte, he]
    · exact hend _ _ fun _ => hrefl
    · refine hend _ m' fun hzero => hg.toKeeps.returned hr.space fun v e he => ?_
      rw [hzero.2] at hg
      rw [← hg.same v (by rintro ⟨-, hlt⟩; exact absurd hlt (Nat.not_lt_zero v)), he]
  rw [if_neg hpos]
  by_cases hneg : n < 0
  · rw [if_pos hneg, wp_bind, wp_onMem]
    have hseg := hr.shape.segment.mono (Nat.zero_le (pagesOf ((s.proc s.cur).sz + n.toUInt32)))
    refine wp_post (wp_deallocuvm hr.space hr.shape.size.le hseg) ?_
    rintro r m' ⟨-, hs⟩
    exact hend r m' fun _ pg hpg => .inl (hs.free pg hpg)
  · rw [if_neg hneg, wp_bind, wp_pure]
    exact hend _ _ fun _ => hrefl

/-! ## Failed calls -/

/-- A failed call loses pages exactly if `Call.Loses` says so. -/
theorem failed_call_lossless_iff {c : Call} (h : SystemOk s)
    (hcur : (s.proc s.cur).state = .runnable) (hready : c.Ready s) (hshort : c.Short)
    (halloc : c.Allocates) (hd : (s.proc s.cur).pgdir = some d) (hc : c.run s = .ok false s') :
    c.Lossless s.mem s'.mem d ↔ ¬ c.Loses s := by
  have hdir : ∀ {c'}, Running s c' → Running s d := by
    intro c' hr
    obtain rfl := Option.some.inj (hr.pgdir.symm.trans hd)
    exact hr
  cases halloc with
  | fork =>
    obtain ⟨c', hr⟩ := h.running hcur hready
    have hw : wp Call.fork.run (fun r s' => r = false →
        (Call.fork.Lossless s.mem s'.mem d ↔ ¬ Call.fork.Loses s)) (fun _ _ => True) s := by
      simp only [Call.run, wp_map]
      refine wp_post (lossless_fork h (hdir hr)) ?_
      intro r s' hpost hr
      exact hpost (Option.isNone_iff_eq_none.mp (by simpa using hr))
    exact (wp_of_ok hc).mp hw rfl
  | exec path file argv =>
    obtain ⟨c', hr⟩ := h.running hcur hready.1
    exact (wp_of_ok hc).mp (lossless_exec h (hdir hr) hshort) rfl
  | sbrk n =>
    obtain ⟨c', hr⟩ := h.running hcur hready
    have hret : (Call.sbrk n).Lossless s.mem s'.mem d := (wp_of_ok hc).mp (lossless_sbrk (hdir hr)) rfl
    exact ⟨fun _ hl => hl, fun _ => hret⟩

/-- From request `k` on, no memory is given out any more. -/
def State.refusing (s : State) (k : ℕ) : State :=
  { s with mem := { s.mem with refuse := fun j => decide (s.mem.calls + k ≤ j) } }

theorem SystemOk.refusing (h : SystemOk s) (k : ℕ) : SystemOk (s.refusing k) := by
  obtain ⟨h₁, h₂, h₃, h₄, h₅, h₆⟩ := h
  exact ⟨h₁, h₂, h₃, h₄, fun p hp => (h₅ p hp).congr fun d _ => rfl, h₆⟩

omit [Link] in
theorem State.firstRefused {k : ℕ} (hlen : k ≤ s.mem.freelist.length) :
    (s.refusing k).mem.FirstRefused k := by
  refine ⟨fun j hj => ⟨?_, ?_⟩, .inl ?_⟩
  · change decide (s.mem.calls + k ≤ s.mem.calls + j) = false
    rw [decide_eq_false_iff_not]
    omega
  · exact lt_of_lt_of_le hj hlen
  · change decide (s.mem.calls + k ≤ s.mem.calls + k) = true
    rw [decide_eq_true_iff]

theorem Fresh.fork_refused {k : ℕ} (h : SystemOk s) (hf : Fresh s d 56000) (hk : k ≤ 65) :
    Call.fork.Ready (s.refusing k) ∧ ∃ s', Call.fork.run (s.refusing k) = .ok false s' ∧
      (Call.fork.Lossless (s.refusing k).mem s'.mem d ↔ ¬ Call.fork.Loses (s.refusing k)) := by
  have hlen := hf.length
  have hfirst : (s.refusing k).mem.FirstRefused k := State.firstRefused (by omega)
  have hok := h.refusing k
  obtain ⟨pg, hpte, hpg⟩ := hf.page
  obtain ⟨x, e, he, -, hu, -⟩ := mkPte_userPage hpg hpte
  have hd : ((s.refusing k).proc (s.refusing k).cur).pgdir = some d := by
    change (s.proc s.cur).pgdir = some d
    rw [hf.cur]
    exact hf.pgdir
  have hlive : ((s.refusing k).proc (s.refusing k).cur).state = .runnable := by
    change (s.proc s.cur).state = .runnable
    rw [hf.cur]
    exact hf.state
  have hcan : CanRun (s.refusing k) := ⟨d, 0, e, hd, by omega, he, hu⟩
  obtain ⟨c, hr⟩ := hok.running hlive hcan
  obtain rfl := Option.some.inj (hr.pgdir.symm.trans hd)
  refine ⟨hcan, ?_⟩
  have hfails : wp Vm.fork (fun r _ => r = none) (fun _ _ => False) (s.refusing k) := by
    apply wp_fork hok hr
    · exact fun _ => rfl
    · exact fun _ _ _ => rfl
    · exact fun _ _ _ _ _ _ _ _ _ _ _ _ => rfl
    · intro p q rest m₁ m' d' _ hl hm hb _
      have htake : Paid (s.refusing k).mem ((s.refusing k).mem.taken rest) := .take hl hm rfl rfl rfl
      have hle := hfirst.le (htake.trans hb.paid) (hb.calls.trans (Nat.add_assoc _ 1 65))
      omega
  have hw : wp Call.fork.run (fun r s' => r = false ∧
      (Call.fork.Lossless (s.refusing k).mem s'.mem c ↔ ¬ Call.fork.Loses (s.refusing k)))
      (fun _ _ => False) (s.refusing k) := by
    simp only [Call.run, wp_map]
    refine wp_mono (wp_and hfails (lossless_fork hok hr)) ?_ (fun _ _ he => he.1)
    rintro r s' ⟨rfl, hiff⟩
    exact ⟨rfl, hiff rfl⟩
  obtain ⟨r, s', hrun, rfl, hiff⟩ := wp_exists_ok hw
  exact ⟨s', hrun, hiff⟩

omit [Link] in
theorem failed_call_lossless_iff_stack : ∃ s d s',
    @main smallKernel [] 0 (State.off (fun _ => .zero) fun _ => false) = .ok () s ∧
      @Call.run smallKernel .fork (s.refusing 0) = .ok false s' ∧
      Call.fork.Lossless (s.refusing 0).mem s'.mem d := by
  let _ : Link := smallKernel
  obtain ⟨s, d, hboot, hok, href, hf⟩ := @exists_fresh smallKernel
  obtain ⟨hready, s', hrun, -⟩ := @Fresh.fork_refused s d smallKernel 0 hok hf (by omega)
  have hcur : (s.refusing 0).cur = initproc := hf.cur
  have hd : ((s.refusing 0).proc initproc).pgdir = some d := hf.pgdir
  have hlive : ((s.refusing 0).proc initproc).state = .runnable := hf.state
  refine ⟨s, d, s', hboot, hrun, ?_⟩
  refine (@failed_call_lossless_iff (s.refusing 0) s' d smallKernel .fork
    (@SystemOk.refusing s smallKernel hok 0) (by rw [hcur, hlive]) hready trivial .fork
    (by rw [hcur, hd]) hrun).mpr ?_
  rintro ⟨-, k, hk, -⟩
  have := hk.unique (firstRefused (Nat.zero_le _))
  omega

omit [Link] in
/-- The third request of `fork` is refused: the directory is lost. -/
theorem fork_loses_page : ∃ s d s',
    @main smallKernel [] 0 (State.off (fun _ => .zero) fun _ => false) = .ok () s ∧
      ((s.refusing 2).proc (s.refusing 2).cur).pgdir = some d ∧
      @Call.run smallKernel .fork (s.refusing 2) = .ok false s' ∧
      ¬ Call.fork.Lossless (s.refusing 2).mem s'.mem d := by
  let _ : Link := smallKernel
  obtain ⟨s, d, hboot, hok, href, hf⟩ := @exists_fresh smallKernel
  obtain ⟨-, s', hrun, hiff⟩ := @Fresh.fork_refused s d smallKernel 2 hok hf (by omega)
  have hlen := hf.length
  have hunused : (s.refusing 2).firstUnused ≠ none := fun hnone =>
    firstUnused_none.mp hnone 1 (hf.others 1 (by decide))
  refine ⟨s, d, s', hboot, ?_, hrun, fun hl => hiff.mp hl ⟨hunused, 1, ?_, ?_⟩⟩
  · change (s.proc s.cur).pgdir = some d
    rw [hf.cur]
    exact hf.pgdir
  · exact firstRefused (by omega)
  · exact .inl ⟨le_rfl, by omega⟩

end Xv6.Vm
