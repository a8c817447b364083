import Xv6.OverlongArgument

/-!
# Isolation

From boot on, whatever calls the processes make and whatever requests for memory are refused, every
page has one role, and the size of a process says which of its pages are present. This holds as long
as no argument of `exec` reaches into the device space; the run with an overlong one breaks both.
-/

namespace Xv6.Vm

open Resumption ByteLayout Custody

variable [Link] {s s' : State} {initcode : List UInt8} {ncpu : ℕ} {page : ℕ → Page}
  {refuse : ℕ → Bool}

theorem SystemOk.boot (hboot : main initcode ncpu (State.off page refuse) = .ok () s) : SystemOk s :=
  ((wp_of_ok hboot).mp wp_main).1

/-! ## Pages -/

/-- No page has two roles or has one twice, none has been freed twice, and an entry with `PTE_U` leads
to a page that its address space has as a user page and nobody else has. -/
structure Isolated (s : State) : Prop where
  roles : Exclusive s.Holds
  once : s.mem.freelist.Nodup
  single : s.mem.doubleFree = false
  range : ∀ h pg, s.Holds h pg → Link.endPage ≤ pg ∧ pg < PHYSTOP / PGSIZE
  user : ∀ o d v e, s.dir o = some d → s.mem.pte d v = some e → e &&& PTE_U ≠ 0 →
    s.Holds (.space o (.user v)) (PTE_ADDR e)

theorem SystemOk.isolated (h : SystemOk s) : Isolated s := by
  refine ⟨h.excl, h.nodup, h.single, h.range, ?_⟩
  intro o d v e hd he hu
  have hv : v < 2 ^ 19 := by
    by_contra hv
    exact hu (h.pages_kernel hd (by omega) he)
  exact ⟨d, hd, hv, by rw [he]; rfl⟩

theorem pages_isolated (hboot : main initcode ncpu (State.off page refuse) = .ok () s)
    (hrun : Runs Call.Short s s') : Isolated s' :=
  ((SystemOk.boot hboot).runs hrun).isolated

/-- A kernel of 1.2 MB. -/
@[reducible] def smallKernel : Link := ⟨264, 300, by decide, by decide, by decide⟩

omit [Link] in
theorem pages_isolated_fork : ∃ s s' : State,
    @main smallKernel [] 0 (State.off (fun _ => .zero) fun _ => false) = .ok () s ∧
      @Step smallKernel Call.Short s s' ∧ @Isolated smallKernel s' := by
  obtain ⟨s, d, hboot, hok, href, hfresh⟩ := @exists_fresh smallKernel
  obtain ⟨s', p, d', t, hstep, -⟩ :=
    @Fresh.fork d smallKernel s Call.Short trivial hok hfresh href
  exact ⟨s, s', hboot, hstep, @pages_isolated smallKernel _ _ _ _ _ _ hboot (.single hstep)⟩

omit [Link] in
theorem exec_breaks_isolation : ∃ s s' : State,
    @main smallKernel [] 0 (State.off (fun _ => .zero) fun _ => false) = .ok () s ∧
      @Runs smallKernel (fun _ => True) s s' ∧ ¬ Exclusive s'.Holds := by
  obtain ⟨s, s', p, d, hboot, hrun, hstate, hpgdir, -, hpte⟩ := @exists_overlong_run smallKernel
  refine ⟨s, s', hboot, hrun, fun hexcl => ?_⟩
  have hdir : s'.dir (some p) = some d := State.dir_some.mpr ⟨by rw [hstate]; decide, hpgdir⟩
  have hheld : ∀ v < NPTENTRIES, s'.Holds (.space (some p) (.user v)) (PTE_ADDR 0x07070707) := by
    intro v hv
    refine ⟨d, hdir, by simp only [NPTENTRIES] at hv; omega, ?_⟩
    rw [hpte v hv]
    rfl
  cases hexcl _ _ _ (hheld 0 (by decide)) (hheld 1 (by decide))

/-! ## Sizes -/

/-- For a process that can run, the user pages below its size are present and no others. -/
def SizesRight (s : State) : Prop :=
  ∀ p d, (s.proc p).state = .runnable → CanRun { s with cur := p } → (s.proc p).pgdir = some d →
    ∀ v < 2 ^ 19, s.mem.pte d v ≠ none ↔ v * PGSIZE < (PGROUNDUP (s.proc p).sz).toNat

/-- The panics of functions that rely on sizes. -/
def sizePanics : List Stop :=
  [.panic "copyuvm: pte should exist", .panic "copyuvm: page not present",
    .panic "loaduvm: address should exist", .panic "clearpteu"]

theorem SystemOk.sizes (h : SystemOk s) : SizesRight s := by
  intro p d hstate hcan hd v hv
  obtain ⟨d', hr⟩ := (h.schedule p).running hstate hcan
  obtain rfl := Option.some.inj (hr.pgdir.symm.trans hd)
  have hsize := hr.shape.size
  simp only [KERNBASE] at hsize
  rw [toNat_PGROUNDUP (by omega)]
  refine (hr.shape.user v hv).trans ?_
  exact (Nat.mul_lt_mul_right (show 0 < PGSIZE by decide)).symm

theorem sizes_right (hboot : main initcode ncpu (State.off page refuse) = .ok () s)
    (hrun : Runs Call.Short s s') :
    SizesRight s' ∧ ∀ p (c : Call) e s'', (s'.proc p).state = .runnable →
      c.Ready { s' with cur := p } → c.Short → c.run { s' with cur := p } = .error e s'' →
      e ∉ sizePanics := by
  have hok := (SystemOk.boot hboot).runs hrun
  refine ⟨hok.sizes, ?_⟩
  intro p c e s'' hstate hready hshort hc
  have hexpected : Expected e s'' := wp_error ((hok.schedule p).call hstate hready hshort) hc
  rcases hexpected with rfl | rfl
  · decide
  · decide

omit [Link] in
theorem sizes_right_fork : ∃ s s' : State,
    @main smallKernel [] 0 (State.off (fun _ => .zero) fun _ => false) = .ok () s ∧
      @Step smallKernel Call.Short s s' ∧ SizesRight s' := by
  obtain ⟨s, d, hboot, hok, href, hfresh⟩ := @exists_fresh smallKernel
  obtain ⟨s', p, d', t, hstep, -⟩ :=
    @Fresh.fork d smallKernel s Call.Short trivial hok hfresh href
  exact ⟨s, s', hboot, hstep, (@sizes_right smallKernel _ _ _ _ _ _ hboot (.single hstep)).1⟩

omit [Link] in
theorem exec_breaks_sizes : ∃ s s' : State,
    @main smallKernel [] 0 (State.off (fun _ => .zero) fun _ => false) = .ok () s ∧
      @Runs smallKernel (fun _ => True) s s' ∧ ¬ SizesRight s' := by
  obtain ⟨s, s', p, d, hboot, hrun, hstate, hpgdir, hsz, hpte⟩ := @exists_overlong_run smallKernel
  refine ⟨s, s', hboot, hrun, fun hsizes => ?_⟩
  have hcan : CanRun { s' with cur := p } :=
    ⟨d, 0, 0x07070707, hpgdir, by omega, hpte 0 (by decide), by decide⟩
  have hpage := (hsizes p d hstate hcan hpgdir 1 (by omega)).mp (by rw [hpte 1 (by decide)]; simp)
  rw [hsz] at hpage
  exact absurd hpage (by decide)

end Xv6.Vm
