import Xv6.SystemCalls

/-!
# Runs of the system

The kernel boots, and then processes make calls in any order. A call is made by a process that can
run; a pipe is closed through an end that is open. Along every run without overlong arguments to
`exec`, no page has two holders and every address space has the shape its size says.
-/

namespace Xv6.Vm

open Resumption ByteLayout Custody Function State Set Call Holder

variable [Link] {s s' : State} {m m' : Mem} {p : Fin NPROC} {d pg : ℕ}

/-! ## Pipes -/

theorem SystemOk.withPipes {t : ℕ → Option PipeEnds} (h : SystemOk s)
    (hpool : PoolOk m' (s.Owned {.free, .pipe} ∪ { q | t q ≠ none }))
    (hpages : ∀ q ∈ s.Owned {.free, .pipe}, m'.page q = s.mem.page q)
    (hsub : ∀ q, t q ≠ none → s.Holds .free q ∨ s.Holds .pipe q) :
    SystemOk { s with mem := m', pipe := t } := by
  have hX : ∀ {a}, a ∈ ({Holder.free, Holder.pipe} : Set Holder) ↔ a = .free ∨ a = .pipe := Iff.rfl
  have hnot : ∀ o a, Holder.space o a ∉ ({Holder.free, Holder.pipe} : Set Holder) := by
    rintro o a (hc | hc) <;> cases hc
  have hpipe : ∀ q, t q ≠ none → q ∉ s.Owned {.free, .pipe} := by
    rintro q hq ⟨a, ha, hpg⟩
    rcases hsub q hq with hf | hp
    · exact ha (.inl (h.excl a .free q hpg hf))
    · exact ha (.inr (h.excl a .pipe q hpg hp))
  refine h.renew (X := {Holder.free, Holder.pipe}) ?_ ?_ ?_ hpool.nodup hpool.single hpages (.inl rfl)
    (.inl (.inr rfl)) (hnot none) rfl ?_
  · rintro a b q ⟨ha, hqa⟩ ⟨hb, hqb⟩
    rcases hX.mp ha with rfl | rfl
    · rcases hX.mp hb with rfl | rfl
      · rfl
      · exact (hpool.frame q hqa (.inr hqb)).elim
    · rcases hX.mp hb with rfl | rfl
      · exact (hpool.frame q hqb (.inr hqa)).elim
      · rfl
  · intro a q ha hq
    rcases hX.mp ha with rfl | rfl
    · exact fun ho => hpool.frame q hq (.inl ho)
    · exact hpipe q hq
  · intro a q ha hq
    rcases hX.mp ha with rfl | rfl
    · exact hpool.range q hq
    · rcases hsub q hq with hf | hp
      · exact h.range .free q hf
      · exact h.range .pipe q hp
  · exact fun q => .same (hnot (some q)) rfl

omit [Link] in
theorem State.owned_pipes : s.Owned {.free, .pipe} ⊆ s.Owned {.free} := by
  rintro pg ⟨a, ha, hpg⟩
  exact ⟨a, fun hc => ha (.inl hc), hpg⟩

theorem SystemOk.pipealloc (h : SystemOk s) :
    wp Vm.pipealloc (fun _ s' => SystemOk s') Expected s := by
  have hsub : ∀ q, s.pipe q ≠ none → q ∈ s.Owned {.free} :=
    fun q hq => ⟨.pipe, fun hc => (by cases hc), hq⟩
  unfold Vm.pipealloc
  rw [wp_bind, wp_onMem]
  apply wp_kalloc
  · intro _
    rw [wp_pure]
    refine h.withPipes (t := s.pipe) (h.pool.asked.mono ?_) (fun _ _ => rfl) fun q hq => .inr hq
    exact union_subset owned_pipes hsub
  · intro pg rest hl _
    simp only [wp_bind, wp_modify, wp_pure]
    have hfree : pg ∈ s.mem.freelist := by
      rw [hl]
      exact List.mem_cons_self
    have hnew : ∀ q, update s.pipe pg (some ⟨true, true⟩) q ≠ none →
        q = pg ∨ s.pipe q ≠ none := by
      intro q hq
      by_cases hqp : q = pg
      · exact .inl hqp
      · rw [update_of_ne hqp] at hq
        exact .inr hq
    refine h.withPipes ((h.pool.take hl).mono ?_) (fun _ _ => rfl) ?_
    · rintro q (hq | hq)
      · exact mem_insert_of_mem pg (owned_pipes hq)
      · rcases hnew q hq with rfl | hq
        · exact mem_insert q _
        · exact mem_insert_of_mem pg (hsub q hq)
    · intro q hq
      rcases hnew q hq with rfl | hq
      · exact .inl hfree
      · exact .inr hq

theorem SystemOk.pipeclose {writable : Bool} (h : SystemOk s) (hopen : s.pipe pg ≠ none) :
    wp (Vm.pipeclose pg writable) (fun _ s' => SystemOk s') Expected s := by
  have hin : ∀ q, s.pipe q ≠ none → q ∈ s.Owned {.free} :=
    fun q hq => ⟨.pipe, fun hc => (by cases hc), hq⟩
  obtain ⟨e, he⟩ := Option.ne_none_iff_exists'.mp hopen
  unfold Vm.pipeclose
  simp only [wp_bind, wp_get, he]
  generalize (if writable then { e with writeopen := false } else { e with readopen := false } :
    PipeEnds) = e'
  rw [wp_ite]
  refine ⟨fun _ => ?_, fun _ => ?_⟩
  · rw [wp_bind, wp_modify, wp_onMem]
    have hr := h.range .pipe pg hopen
    apply wp_kfree hr
    have hold : ∀ q, update s.pipe pg none q ≠ none → q ≠ pg ∧ s.pipe q ≠ none := by
      intro q hq
      by_cases hqp : q = pg
      · rw [hqp, update_self] at hq
        exact (hq rfl).elim
      · rw [update_of_ne hqp] at hq
        exact ⟨hqp, hq⟩
    have hne : ∀ q ∈ s.Owned {.free, .pipe}, q ≠ pg := by
      rintro q ⟨a, ha, hq⟩ rfl
      exact ha (.inr (h.excl a .pipe q hq hopen))
    refine h.withPipes ((h.pool.give (hin pg hopen) hr).mono ?_) ?_ ?_
    · rintro q (hq | hq)
      · exact ⟨owned_pipes hq, hne q hq⟩
      · exact ⟨hin q (hold q hq).2, (hold q hq).1⟩
    · exact fun q hq => Mem.free_page (hne q hq)
    · exact fun q hq => .inr (hold q hq).2
  · rw [wp_modify]
    have hold : ∀ q, update s.pipe pg (some e') q ≠ none → s.pipe q ≠ none := by
      intro q hq
      by_cases hqp : q = pg
      · rwa [hqp]
      · rwa [update_of_ne hqp] at hq
    refine h.withPipes (h.pool.mono ?_) (fun _ _ => rfl) fun q hq => .inr (hold q hq)
    exact union_subset owned_pipes fun q hq => hin q (hold q hq)

/-! ## Stores of the process itself -/

theorem SystemOk.store {v : Fin (2 ^ 20)} {x : Page} (h : SystemOk s) (hr : Running s d) :
    wp (Vm.store v x) (fun _ s' => SystemOk s') Expected s := by
  unfold Vm.store
  simp only [wp_bind, wp_getProc, hr.pgdir, wp_onMem]
  apply wp_walkpgdir_read v.isLt
  cases ht : s.mem.tab d (v / NPTENTRIES) with
  | none => exact h
  | some t =>
    simp only [Option.map_some, wp_bind, wp_onMem, word, wp_get, wp_pure]
    rw [wp_ite]
    refine ⟨fun _ => h, fun hflags => ?_⟩
    push Not at hflags
    obtain ⟨hp, -, hu⟩ := hflags
    simp only [wp_bind, wp_onMem, wp_modify, wp_pure]
    have he : s.mem.pte d v = some ((s.mem.page t).word (v % NPTENTRIES)) := by
      unfold Mem.pte present
      rw [ht, Option.bind_some, if_pos hp]
    generalize (s.mem.page t).word (v % NPTENTRIES) = e at *
    have hv : (v : ℕ) < 2 ^ 19 := by
      by_contra hv
      exact hu (hr.space.kernel v e (by omega) he)
    obtain ⟨-, hnd, hnt⟩ := hr.space.user_page hv he
    have hpte : (s.mem.setPage (PTE_ADDR e) x).pte d = s.mem.pte d :=
      Mem.pte_setPage (Ne.symm hnd) hnt
    have hset := h.withSpace (x := s.proc s.cur) hr.live (hr.space.setPage (Ne.symm hnd) hnt) ?_ rfl rfl
      hr.pgdir (hr.shape.mapped.congr hpte)
    · have heq : { s with mem := s.mem.setPage (PTE_ADDR e) x }.setProc s.cur (s.proc s.cur) =
          { s with mem := s.mem.setPage (PTE_ADDR e) x } := by
        unfold State.setProc
        simp only [update_eq_self]
      rwa [heq] at hset
    · intro pg hpg
      apply Mem.setPage_page_ne
      rintro rfl
      exact hr.space.frame (some (.user v)) _ ⟨hv, by rw [he]; rfl⟩ hpg

/-! ## Steps -/

/-- The string `str` with its terminator lies at address `a` of directory `d`, below `sz`. -/
def StringAt (m : Mem) (d : ℕ) (sz : UInt32) (str : List UInt8) (a : ℕ) : Prop :=
  a + str.length < sz.toNat ∧ ∀ i ≤ str.length, ∃ e, m.pte d ((a + i) / PGSIZE) = some e ∧
    (m.page (PTE_ADDR e)).byte ((a + i) % PGSIZE) = (str ++ [0]).getD i 0

/-- The running process can make the call: it can execute instructions, its arguments are in its
memory, and the end of a pipe is closed only if it is open. A process without memory of its own is
killed when it should run, and exits. -/
def Call.Ready (s : State) : Call → Prop
  | .exit => True
  | .pipeclose pg writable =>
    ∃ e, s.pipe pg = some e ∧ (if writable then e.writeopen else e.readopen) = true
  | .exec _ _ argv => CanRun s ∧ ∀ str ∈ argv, ∃ d a, (s.proc s.cur).pgdir = some d ∧
      StringAt s.mem d (s.proc s.cur).sz str a
  | _ => CanRun s

/-- No argument of `exec` is as long as the device space. -/
def Call.Short : Call → Prop
  | .exec _ _ argv => ShortArgs argv
  | _ => True

theorem SystemOk.call {c : Call} (h : SystemOk s) (hcur : (s.proc s.cur).state = .runnable)
    (hready : c.Ready s) (hshort : c.Short) : wp c.run (fun _ s' => SystemOk s') Expected s := by
  cases c with
  | fork =>
    obtain ⟨d, hr⟩ := h.running hcur hready
    simp only [run, wp_map]
    exact h.fork hr
  | exec path file argv =>
    obtain ⟨d, hr⟩ := h.running hcur hready.1
    exact h.exec hr hshort
  | sbrk n =>
    obtain ⟨d, hr⟩ := h.running hcur hready
    exact wp_growproc h hr
  | exit =>
    simp only [run, wp_bind, wp_pure]
    exact h.exit hcur
  | wait =>
    simp only [run, wp_map]
    exact h.wait
  | pipe =>
    simp only [run, wp_map]
    exact h.pipealloc
  | pipeclose pg writable =>
    obtain ⟨e, he, -⟩ := hready
    simp only [run, wp_bind, wp_pure]
    exact h.pipeclose (by rw [he]; simp)
  | store v x =>
    obtain ⟨d, hr⟩ := h.running hcur hready
    exact h.store hr

/-- Process `p` runs and makes a call that returns; `P` restricts the calls. -/
inductive Step (P : Call → Prop) (s s' : State) : Prop
  | call (p : Fin NPROC) (c : Call) (b : Bool) (hrun : (s.proc p).state = .runnable)
      (hready : c.Ready { s with cur := p }) (hP : P c)
      (hc : c.run { s with cur := p } = .ok b s')

abbrev Runs (P : Call → Prop) : State → State → Prop := Relation.ReflTransGen (Step P)

theorem SystemOk.schedule (h : SystemOk s) (p : Fin NPROC) : SystemOk { s with cur := p } :=
  h.congr rfl rfl rfl (fun _ => ⟨Iff.rfl, rfl, rfl, rfl⟩) fun q hq => (h.procs q hq).state

theorem SystemOk.step (h : SystemOk s) (hs : Step Call.Short s s') : SystemOk s' := by
  cases hs with
  | call p c b hrun hready hshort hc =>
    have hw := (h.schedule p).call hrun hready hshort
    exact (wp_of_ok hc).mp hw

theorem SystemOk.runs (h : SystemOk s) (hs : Runs Call.Short s s') : SystemOk s' := by
  induction hs with
  | refl => exact h
  | tail _ hstep ih => exact ih.step hstep

end Xv6.Vm
