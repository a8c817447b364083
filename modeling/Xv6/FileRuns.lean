import Xv6.FileSteps

/-!
# Runs of the file calls

The references and tokens of all processes together are what the kernel counts, in every state of every
run. Between calls a process has no references but its descriptors and no tokens, and the statements about
the file table and the pipes follow.
-/

namespace Xv6.Ftable

open Fs (NFILE NOFILE FileType)
open Function List Nat Finset Kernel Pc Proc
open scoped BigOperators

variable {ι : Type} [Fintype ι] [DecidableEq ι]

namespace State

def refs (s : State ι) (f : Fin NFILE) : ℕ := ∑ i, (s.proc i).own f

def tokens (s : State ι) (q : ℕ × Token) : ℕ := ∑ i, (s.proc i).pc.tokens.count q

theorem refs_setProc (s : State ι) (i : ι) (p : Proc ι) (f : Fin NFILE) :
    (s.setProc i p).refs f + (s.proc i).own f = s.refs f + p.own f :=
  sum_update_add (fun x : Proc ι => x.own f) s.proc i p

theorem tokens_setProc (s : State ι) (i : ι) (p : Proc ι) (q : ℕ × Token) :
    (s.setProc i p).tokens q + (s.proc i).pc.tokens.count q = s.tokens q + p.pc.tokens.count q :=
  sum_update_add (fun x : Proc ι => x.pc.tokens.count q) s.proc i p

omit [Fintype ι] in
theorem proc_setPc_self (s : State ι) (i : ι) (pc : Pc ι) : (s.setPc i pc).proc i = ⟨(s.proc i).ofile, pc⟩ :=
  update_self _ _ _

omit [Fintype ι] in
theorem proc_setPc_ne (s : State ι) {i j : ι} (h : j ≠ i) (pc : Pc ι) : (s.setPc i pc).proc j = s.proc j :=
  update_of_ne h _ _

theorem own_le_refs (s : State ι) (i : ι) (f : Fin NFILE) : (s.proc i).own f ≤ s.refs f :=
  single_le_sum (f := fun i => (s.proc i).own f) (fun _ _ => zero_le _) (mem_univ i)

theorem own_add_own_le (s : State ι) {i j : ι} (h : i ≠ j) (f : Fin NFILE) :
    (s.proc i).own f + (s.proc j).own f ≤ s.refs f := by
  have hpair := sum_le_sum_of_subset (f := fun i => (s.proc i).own f) (subset_univ {i, j})
  rwa [sum_pair h] at hpair

theorem count_le_tokens (s : State ι) (i : ι) (q : ℕ × Token) :
    (s.proc i).pc.tokens.count q ≤ s.tokens q :=
  single_le_sum (f := fun i => (s.proc i).pc.tokens.count q) (fun _ _ => zero_le _)
    (mem_univ i)

end State

/-- The table of a forked process is filled by its parent, from the first descriptor to the last. -/
def Forking (s : State ι) : Prop :=
  ∀ i j rest, (s.proc i).pc = .forking j rest →
    (s.proc j).pc = .embryo i ∧ rest.Nodup ∧ ∀ fd ∈ rest, (s.proc j).ofile fd = none

structure Inv (s : State ι) : Prop where
  kernel : s.kernel.Ok
  count : ∀ f, (s.kernel.file f).ref = s.refs f
  tokens : ∀ q, s.kernel.ends q + s.tokens q = s.kernel.due q
  knows : ∀ i, Knows s.kernel (s.proc i)
  forking : Forking s

/-! ## A step of one process -/

variable {s : State ι} {i j init : ι} {k : Kernel} {p : ℕ} {pc : Pc ι} {rest : List (Fin NOFILE)}
  {fd : Fin NOFILE} {x : Pipe}

theorem Inv.setProc (h : Inv s) {p : Proc ι} (hok : k.Ok)
    (hcount : ∀ f, (k.file f).ref + (s.proc i).own f = (s.kernel.file f).ref + p.own f)
    (htokens : ∀ q, k.ends q + p.pc.tokens.count q + s.kernel.due q =
      s.kernel.ends q + (s.proc i).pc.tokens.count q + k.due q)
    (hp : Knows k p) (hothers : ∀ j, j ≠ i → Knows k (s.proc j))
    (hforking : Forking ((s.setKernel k).setProc i p)) : Inv ((s.setKernel k).setProc i p) where
  kernel := hok
  count f := by
    have hrefs : ((s.setKernel k).setProc i p).refs f + (s.proc i).own f = s.refs f + p.own f :=
      State.refs_setProc (s.setKernel k) i p f
    have hstep := hcount f
    have hold := h.count f
    change (k.file f).ref = _
    omega
  tokens q := by
    have htoks : ((s.setKernel k).setProc i p).tokens q + (s.proc i).pc.tokens.count q =
        s.tokens q + p.pc.tokens.count q := State.tokens_setProc (s.setKernel k) i p q
    have hstep := htokens q
    have hold := h.tokens q
    change k.ends q + _ = k.due q
    omega
  knows j := by
    change Knows k (update s.proc i p j)
    by_cases hji : j = i
    · rw [hji, update_self]
      exact hp
    · rw [update_of_ne hji]
      exact hothers j hji
  forking := hforking

theorem Inv.act (h : Inv s) {p : Proc ι}
    (hact : Act s.kernel (s.proc i) k p) : Inv ((s.setKernel k).setProc i p) := by
  have hle : ∀ f, (s.proc i).own f ≤ (s.kernel.file f).ref := fun f => h.count f ▸ s.own_le_refs i f
  have hdue : ∀ q, s.kernel.ends q + (s.proc i).pc.tokens.count q ≤ s.kernel.due q := by
    intro q
    have := s.count_le_tokens i q
    have := h.tokens q
    omega
  have hok := hact.ok h.kernel (h.knows i) hle hdue
  refine h.setProc hok.ok hok.count hok.tokens hok.knows (fun j hji => ?_) ?_
  · have hboth := fun f => h.count f ▸ s.own_add_own_le hji f
    refine (h.knows j).congr ?_ ?_
    · intro f hf
      have hmine := own_of_hand (mem_hand_of_fresh hf)
      have hone := ((h.knows j).fresh f hf).1
      have := hboth f
      exact hok.foreign f (by omega) (by omega)
    · intro f hf
      have := hboth f
      exact hok.shared f (by omega)
  · intro a j rest ha
    have hai : a ≠ i := by
      rintro rfl
      change (update s.proc a p a).pc = _ at ha
      rw [update_self] at ha
      exact hact.not_forking j rest ha
    change (update s.proc i p a).pc = _ at ha
    rw [update_of_ne hai] at ha
    obtain ⟨hchild, hnodup, hfree⟩ := h.forking a j rest ha
    have hji : j ≠ i := by
      rintro rfl
      exact hact.not_embryo a hchild
    change (update s.proc i p j).pc = _ ∧ _ ∧ ∀ fd ∈ rest, (update s.proc i p j).ofile fd = _
    rw [update_of_ne hji]
    exact ⟨hchild, hnodup, hfree⟩

/-! ## fork and wait -/

omit [Fintype ι] in
theorem Forking.setPc (h : Forking s)
    (hnew : ∀ j rest, pc = .forking j rest → j ≠ i ∧
      (s.proc j).pc = .embryo i ∧ rest.Nodup ∧ ∀ fd ∈ rest, (s.proc j).ofile fd = none)
    (hold : ∀ a rest, a ≠ i → (s.proc a).pc ≠ .forking i rest) : Forking (s.setPc i pc) := by
  intro a j rest ha
  by_cases hai : a = i
  · subst hai
    rw [s.proc_setPc_self] at ha
    obtain ⟨hji, hchild⟩ := hnew j rest ha
    rw [s.proc_setPc_ne hji]
    exact hchild
  · rw [s.proc_setPc_ne hai] at ha
    have hji : j ≠ i := by
      rintro rfl
      exact hold a rest hai ha
    rw [s.proc_setPc_ne hji]
    exact h a j rest ha

theorem Forking.not_child (h : Forking s) (hi : (s.proc i).pc = pc) (hpc : ∀ a, pc ≠ .embryo a)
    (a : ι) (rest : List (Fin NOFILE)) (_ : a ≠ i) : (s.proc a).pc ≠ .forking i rest :=
  fun ha => hpc a (hi.symm.trans (h a i rest ha).1)

theorem Forking.child_ne (h : Forking s) (hi : (s.proc i).pc = .forking j rest) : j ≠ i := by
  rintro rfl
  exact absurd (hi.symm.trans (h j j rest hi).1) nofun

section

variable (h : Inv s)
include h

theorem Inv.setPc {old : Pc ι} (hi : (s.proc i).pc = old)
    (hold : old.Plain) (hnew : pc.Plain) (hknows : Knows s.kernel ⟨(s.proc i).ofile, pc⟩)
    (hforking : Forking (s.setPc i pc)) : Inv (s.setPc i pc) := by
  subst hi
  refine h.setProc (k := s.kernel) h.kernel (fun f => ?_) (fun q => ?_) hknows (fun j _ => h.knows j) hforking
  · rw [own_of_plain hold, own_of_plain hnew]
  · rw [hold.tokens, hnew.tokens]

theorem Inv.fork (hi : (s.proc i).pc = .user) (hj : (s.proc j).pc = .unused) :
    Inv ((s.setPc j (.embryo i)).setPc i (.forking j (List.finRange NOFILE))) := by
  have hji : j ≠ i := by
    rintro rfl
    exact absurd (hi.symm.trans hj) nofun
  have hembryo : Inv (s.setPc j (.embryo i)) :=
    h.setPc hj ⟨rfl, rfl, rfl⟩ ⟨rfl, rfl, rfl⟩ (.quiet rfl rfl rfl rfl (mem_left _))
      (h.forking.setPc nofun (h.forking.not_child hj nofun))
  have hparent : ((s.setPc j (.embryo i)).proc i).pc = .user := by
    rw [s.proc_setPc_ne hji.symm, hi]
  refine hembryo.setPc hparent ⟨rfl, rfl, rfl⟩ ⟨rfl, rfl, rfl⟩ (.quiet rfl rfl rfl rfl (mem_left _))
    (hembryo.forking.setPc ?_ (hembryo.forking.not_child hparent nofun))
  intro b rest hb
  obtain ⟨rfl, rfl⟩ := forking.inj hb
  rw [s.proc_setPc_self]
  refine ⟨hji, rfl, nodup_finRange _, fun fd _ => (h.knows j).left fd ?_⟩
  rw [hj]
  exact not_mem_nil

theorem Inv.advance
    (hi : (s.proc i).pc = .forking j (fd :: rest)) : Inv (s.setPc i (.forking j rest)) := by
  refine h.setPc hi ⟨rfl, rfl, rfl⟩ ⟨rfl, rfl, rfl⟩ (.quiet rfl rfl rfl rfl (mem_left _))
    (h.forking.setPc ?_ (h.forking.not_child hi nofun))
  intro b rest' hb
  obtain ⟨rfl, rfl⟩ := forking.inj hb
  obtain ⟨hchild, hnodup, hfree⟩ := h.forking i j (fd :: rest) hi
  exact ⟨h.forking.child_ne hi, hchild, (nodup_cons.1 hnodup).2,
    fun x hx => hfree x (mem_cons_of_mem _ hx)⟩

theorem Inv.forkDone (hi : (s.proc i).pc = .forking j []) :
    Inv ((s.setPc i .user).setPc j .user) := by
  have hparent : Inv (s.setPc i .user) :=
    h.setPc hi ⟨rfl, rfl, rfl⟩ ⟨rfl, rfl, rfl⟩ (.quiet rfl rfl rfl rfl (mem_left _))
      (h.forking.setPc nofun (h.forking.not_child hi nofun))
  have hchild : ((s.setPc i .user).proc j).pc = .embryo i := by
    rw [s.proc_setPc_ne (h.forking.child_ne hi), (h.forking i j [] hi).1]
  refine hparent.setPc hchild ⟨rfl, rfl, rfl⟩ ⟨rfl, rfl, rfl⟩ (.quiet rfl rfl rfl rfl (mem_left _))
    (hparent.forking.setPc nofun ?_)
  intro a rest _ ha
  -- the child has only one parent, and that is no longer in `fork`
  have hembryo := (hparent.forking a j rest ha).1
  obtain rfl : i = a := embryo.inj (hchild.symm.trans hembryo)
  rw [s.proc_setPc_self] at ha
  exact absurd ha nofun

theorem Inv.reap (hj : (s.proc j).pc = .zombie) : Inv (s.setPc j .unused) := by
  refine h.setPc hj ⟨rfl, rfl, rfl⟩ ⟨rfl, rfl, rfl⟩ (.quiet rfl rfl rfl rfl fun fd _ => ?_)
    (h.forking.setPc nofun (h.forking.not_child hj nofun))
  refine (h.knows j).left fd ?_
  rw [hj]
  exact not_mem_nil

theorem Inv.copy {f : Fin NFILE} (hi : (s.proc i).pc = .forking j rest)
    (hfd : (s.proc i).ofile fd = some f) (hrest : fd ∉ rest) (hfree : (s.proc j).ofile fd = none) :
    Inv ((s.setKernel (s.kernel.setRef f ((s.kernel.file f).ref + 1))).setProc j
      ⟨update (s.proc j).ofile fd (some f), (s.proc j).pc⟩) := by
  have hchild := (h.forking i j rest hi).1
  have hheld : (s.proc i).held fd = some f := by
    rw [held, hi]
    exact hfd
  have hmine : 0 < (s.proc i).own f := own_of_held hheld
  have hpos : 0 < (s.kernel.file f).ref := h.count f ▸ lt_of_lt_of_le hmine (s.own_le_refs i f)
  have hown : ∀ g, own ⟨update (s.proc j).ofile fd (some f), (s.proc j).pc⟩ g =
      (s.proc j).own g + [f].count g := by
    intro g
    rw [own, own, held, held, hchild]
    exact congrArg (· + 0) (slots_put hfree f g)
  refine h.setProc (h.kernel.setFile (by simp) (h.kernel.sides f)) (fun g => ?_) (fun q => ?_) ?_
    (fun a haj => ?_) ?_
  · rw [hown g]
    by_cases hg : g = f
    · rw [hg, setRef, file_setFile_self, count_singleton_self]
      dsimp only
      omega
    · rw [setRef, file_setFile_ne _ hg, count_self_ne hg, add_zero]
  · have hends := s.kernel.ends_setFile f { s.kernel.file f with ref := (s.kernel.file f).ref + 1 } q
    have hsame : File.ends { s.kernel.file f with ref := (s.kernel.file f).ref + 1 } q =
        (s.kernel.file f).ends q := by
      simp only [File.ends, hpos, succ_pos, true_and]
    change (s.kernel.setFile f _).ends q + (s.proc j).pc.tokens.count q + s.kernel.due q =
      _ + _ + s.kernel.due q
    omega
  · rw [hchild]
    exact .quiet rfl rfl rfl rfl (mem_left _)
  · refine (h.knows a).congr (fun g hg => ?_) fun g _ => ?_
    · -- a file that is being set up has one owner, and `f` belongs to the parent
      refine file_setFile_ne _ ?_ _
      rintro rfl
      have hai : a ≠ i := by
        rintro rfl
        rw [hi] at hg
        exact absurd hg not_mem_nil
      have hboth := h.count g ▸ s.own_add_own_le hai g
      have hother := own_of_hand (mem_hand_of_fresh hg)
      have hone := ((h.knows a).fresh g hg).1
      omega
    · by_cases hg : g = f
      · rw [hg, setRef, file_setFile_self]
        exact ⟨rfl, rfl⟩
      · rw [setRef, file_setFile_ne _ hg]
        exact ⟨rfl, rfl⟩
  · intro a b rest' ha
    have haj : a ≠ j := by
      rintro rfl
      change (update s.proc a _ a).pc = _ at ha
      rw [update_self, hchild] at ha
      exact absurd ha (by simp)
    change (update s.proc j _ a).pc = _ at ha
    rw [update_of_ne haj] at ha
    obtain ⟨hembryo, hnodup, hnone⟩ := h.forking a b rest' ha
    change (update s.proc j _ b).pc = _ ∧ _ ∧ ∀ x ∈ rest', (update s.proc j _ b).ofile x = _
    by_cases hbj : b = j
    · subst hbj
      obtain rfl : i = a := embryo.inj (hchild.symm.trans hembryo)
      obtain ⟨-, rfl⟩ := forking.inj (hi.symm.trans ha)
      rw [update_self]
      refine ⟨hembryo, hnodup, fun x hx => ?_⟩
      dsimp only
      rw [update_of_ne (ne_of_mem_of_not_mem hx hrest), hnone x hx]
    · rw [update_of_ne hbj]
      exact ⟨hembryo, hnodup, hnone⟩

theorem Inv.step {s' : State ι} (hstep : Step init s s') : Inv s' := by
  cases hstep with
  | act hact _ => exact h.act hact
  | fork hi hj => exact h.fork hi hj
  | forkSkip hi _ => exact h.advance hi
  | @forkCopy i j f fd rest hi hfd _ =>
    obtain ⟨hchild, hnodup, hfree⟩ := h.forking i j (fd :: rest) hi
    have hji := h.forking.child_ne hi
    have hcopy := (h.advance hi).copy (i := i) (j := j) (f := f)
      (by rw [s.proc_setPc_self]) (by rw [s.proc_setPc_self]; exact hfd) (nodup_cons.1 hnodup).1
      (by rw [s.proc_setPc_ne hji]; exact hfree fd mem_cons_self)
    rw [s.proc_setPc_ne hji] at hcopy
    exact hcopy
  | forkDone hi => exact h.forkDone hi
  | reap hj => exact h.reap hj

end

theorem inv_boot (init : ι) : Inv (boot init) := by
  have hplain : ∀ i, ((boot init).proc i).pc.Plain := by
    intro i
    dsimp only [boot]
    split_ifs
    · exact ⟨rfl, rfl, rfl⟩
    · exact ⟨rfl, rfl, rfl⟩
  refine ⟨⟨fun _ _ => rfl, nofun, nofun, rfl⟩, ?_, ?_, ?_, ?_⟩
  · intro f
    refine (Finset.sum_eq_zero fun i _ => ?_).symm
    rw [Proc.own_of_plain (hplain i), slots]
    simp [boot]
  · intro q
    have hends : (boot init).kernel.ends q = 0 :=
      Finset.sum_eq_zero fun f _ => File.ends_of_free rfl q
    have htokens : (boot init).tokens q = 0 :=
      Finset.sum_eq_zero fun i _ => by rw [(hplain i).tokens, count_nil]
    rw [hends, htokens]
    rfl
  · intro i
    dsimp only [boot]
    split_ifs
    · exact .quiet rfl rfl rfl rfl fun _ _ => rfl
    · exact .quiet rfl rfl rfl rfl fun _ _ => rfl
  · intro i j rest hi
    dsimp only [boot] at hi
    split_ifs at hi

theorem Reachable.inv (h : Reachable init s) : Inv s := by
  induction h with
  | refl => exact inv_boot init
  | tail _ hstep ih => exact ih.step hstep

/-! ## Between calls -/

theorem State.Quiet.plain (h : s.Quiet) (i : ι) : (s.proc i).pc.Plain := by
  rcases h i with h | h | h
  · rw [h]; exact ⟨rfl, rfl, rfl⟩
  · rw [h]; exact ⟨rfl, rfl, rfl⟩
  · rw [h]; exact ⟨rfl, rfl, rfl⟩

theorem State.Quiet.refs_eq (h : s.Quiet) (f : Fin NFILE) :
    s.refs f = (Finset.univ.filter fun x : ι × Fin NOFILE => (s.proc x.1).ofile x.2 = some f).card := by
  rw [card_filter, Fintype.sum_prod_type]
  refine sum_congr rfl fun i _ => ?_
  rw [own_of_plain (h.plain i), slots]

theorem State.Quiet.tokens_eq (h : s.Quiet) (q : ℕ × Token) : s.tokens q = 0 :=
  sum_eq_zero fun i _ => by rw [(h.plain i).tokens, count_nil]

theorem Kernel.due_eq (hx : k.pipes[p]? = some x) (t : Token) : k.due (p, t) = x.due t := by
  simp [due, hx]

theorem Kernel.ends_pos_iff {w : Bool} :
    0 < k.ends (p, .side w) ↔ ∃ f, 0 < (k.file f).ref ∧ (k.file f).type = .pipe ∧
      (k.file f).pipe = p ∧ (k.file f).writable = w := by
  constructor
  · intro h
    obtain ⟨f, -, hf⟩ := exists_ne_zero_of_sum_ne_zero h.ne'
    simp only [File.ends, ne_eq, ite_eq_right_iff, one_ne_zero, imp_false, not_not, Prod.mk.injEq,
      Token.side.injEq] at hf
    exact ⟨f, hf.1, hf.2.1, hf.2.2.1.symm, hf.2.2.2.symm⟩
  · rintro ⟨f, href, htype, rfl, rfl⟩
    exact ends_pos href htype

theorem Inv.isOpen_iff (h : Inv s) (hquiet : s.Quiet) (hx : s.kernel.pipes[p]? = some x) (w : Bool) :
    x.isOpen w = true ↔ ∃ f, 0 < (s.kernel.file f).ref ∧ (s.kernel.file f).type = .pipe ∧
      (s.kernel.file f).pipe = p ∧ (s.kernel.file f).writable = w := by
  have htokens := h.tokens (p, .side w)
  rw [hquiet.tokens_eq, add_zero, due_eq hx] at htokens
  rw [← ends_pos_iff, htokens, Pipe.due]
  split_ifs with hopen <;> simp [hopen]

theorem Kernel.ends_page (k : Kernel) (p : ℕ) : k.ends (p, .page) = 0 :=
  sum_eq_zero fun f _ => by simp [File.ends]

theorem Inv.kfrees_iff (h : Inv s) (hquiet : s.Quiet)
    (hx : s.kernel.pipes[p]? = some x) : x.kfrees = 1 ↔ x.closed = true := by
  have hdue := h.tokens (p, .page)
  rw [hquiet.tokens_eq, ends_page, due_eq hx, Pipe.due] at hdue
  have hpending : ¬ (x.closed = true ∧ x.kfrees = 0) := fun hboth => by simp [hboth] at hdue
  rcases h.kernel.freed p x hx with hzero | ⟨hone, hclosed⟩
  · have hopen : ¬ x.closed = true := fun hclosed => hpending ⟨hclosed, hzero⟩
    simp [hzero, hopen]
  · simp [hone, hclosed]

namespace Kernel

/-- The file is in use and is the read end of the pipe. -/
def ReadEnd (k : Kernel) (f : Fin NFILE) (p : ℕ) : Prop :=
  0 < (k.file f).ref ∧ (k.file f).type = .pipe ∧ (k.file f).pipe = p ∧ (k.file f).readable = true

/-- The file is in use and is the write end of the pipe. -/
def WriteEnd (k : Kernel) (f : Fin NFILE) (p : ℕ) : Prop :=
  0 < (k.file f).ref ∧ (k.file f).type = .pipe ∧ (k.file f).pipe = p ∧ (k.file f).writable = true

end Kernel

theorem Inv.readopen_iff (h : Inv s) (hquiet : s.Quiet)
    (hx : s.kernel.pipes[p]? = some x) : x.readopen = true ↔ ∃ f, s.kernel.ReadEnd f p := by
  refine (h.isOpen_iff hquiet hx false).trans (exists_congr fun f => ?_)
  refine and_congr_right fun _ => and_congr_right fun htype => and_congr_right fun _ => ?_
  rw [h.kernel.sides f htype, Bool.not_eq_true']

/-- The file table and the pipes in every run. Between calls `ref` is the number of descriptors that point
to the file, a free file has no type, an end of a pipe is open just if a file in use is that end, and the
page of a pipe has been freed just if both ends are closed. At no time has a page been freed twice or with
an end still open, or been used after that. -/
theorem refs_and_pipes {init : ι} {s : State ι} (h : Reachable init s) :
    (s.Quiet →
      (∀ f, (s.kernel.file f).ref =
          (Finset.univ.filter fun x : ι × Fin NOFILE => (s.proc x.1).ofile x.2 = some f).card ∧
        ((s.kernel.file f).ref = 0 → (s.kernel.file f).type = .none)) ∧
      ∀ (p : ℕ) (x : Pipe), s.kernel.pipes[p]? = some x →
        (x.readopen = true ↔ ∃ f, s.kernel.ReadEnd f p) ∧
        (x.writeopen = true ↔ ∃ f, s.kernel.WriteEnd f p) ∧
        (x.kfrees = 1 ↔ x.readopen = false ∧ x.writeopen = false)) ∧
    (∀ (p : ℕ) (x : Pipe), s.kernel.pipes[p]? = some x →
      x.kfrees = 0 ∨ x.kfrees = 1 ∧ x.readopen = false ∧ x.writeopen = false) ∧
    s.kernel.touched = false := by
  have hinv := h.inv
  have hclosed : ∀ x : Pipe, x.closed = true ↔ x.readopen = false ∧ x.writeopen = false := by
    intro x
    simp [Pipe.closed]
  refine ⟨fun hquiet => ⟨fun f => ?_, fun p x hx => ?_⟩, fun p x hx => ?_, hinv.kernel.untouched⟩
  · exact ⟨(hinv.count f).trans (hquiet.refs_eq f), hinv.kernel.idle f⟩
  · exact ⟨hinv.readopen_iff hquiet hx, hinv.isOpen_iff hquiet hx true,
      (hinv.kfrees_iff hquiet hx).trans (hclosed x)⟩
  · rcases hinv.kernel.freed p x hx with hzero | ⟨hone, hboth⟩
    · exact .inl hzero
    · exact .inr ⟨hone, (hclosed x).1 hboth⟩

theorem first_file (h : (k.file 0).ref = 0) : k.filealloc = some 0 := by
  have hlist : List.finRange NFILE = 0 :: (List.finRange 99).map Fin.succ := finRange_succ
  rw [filealloc, hlist, List.find?_cons_of_pos]
  simpa using h

theorem second_file (h0 : (k.file 0).ref ≠ 0) (h1 : (k.file 1).ref = 0) : k.filealloc = some 1 := by
  have hlist : List.finRange NFILE = 0 :: 1 :: ((List.finRange 98).map Fin.succ).map Fin.succ := by
    rw [show List.finRange NFILE = 0 :: (List.finRange 99).map Fin.succ from finRange_succ,
      finRange_succ]
    rfl
  rw [filealloc, hlist, List.find?_cons_of_neg (by simpa using h0), List.find?_cons_of_pos]
  simpa using h1

omit [Fintype ι] in
theorem Reachable.act (h : Reachable init s) {p p' : Proc ι}
    (hi : s.proc i = p) (hact : Act s.kernel p k p') (hexit : MayExit init i p'.pc) :
    Reachable init ((s.setKernel k).setProc i p') := by
  subst hi
  exact h.tail (.act hact hexit)

theorem piped_reached : ∃ s : State (Fin 2), Reachable 0 s ∧ s.Quiet ∧
    s.kernel.pipes[0]? = some ⟨true, true, 0⟩ := by
  have hboot : Reachable (0 : Fin 2) (boot 0) := .refl
  have hcall := hboot.act (i := 0) rfl .pipe trivial
  have hread := hcall.act (i := 0) rfl (.pipeRead (first_file rfl)) trivial
  have hwrite := hread.act (i := 0) rfl (.pipeWrite (second_file one_ne_zero rfl)) trivial
  have hpage := hwrite.act (i := 0) rfl .pipePage trivial
  have hset0 := hpage.act (i := 0) rfl .setRead trivial
  have hset1 := hset0.act (i := 0) rfl .setWrite trivial
  have hfd0 := hset1.act (i := 0) rfl (.pipeFd0 (rfl : fdalloc _ = some 0)) trivial
  have hfd1 := hfd0.act (i := 0) rfl (.pipeFd1 (rfl : fdalloc _ = some 1)) trivial
  refine ⟨_, hfd1, ?_, rfl⟩
  intro i
  fin_cases i
  · exact .inr (.inl rfl)
  · exact .inl rfl

theorem refs_and_pipes_piped : ∃ s : State (Fin 2), Reachable 0 s ∧ s.Quiet ∧
    (∃ f, s.kernel.ReadEnd f 0) ∧ (∃ f, s.kernel.WriteEnd f 0) ∧ s.kernel.touched = false := by
  obtain ⟨s, hs, hquiet, hpipe⟩ := piped_reached
  obtain ⟨hbetween, -, htouched⟩ := refs_and_pipes hs
  obtain ⟨hread, hwrite, -⟩ := (hbetween hquiet).2 0 _ hpipe
  exact ⟨s, hs, hquiet, hread.1 rfl, hwrite.1 rfl, htouched⟩

/-- Neither `filedup` nor `fileclose` panics in any run, nor does a call read or write a file that is
closed: the file it works on has references. -/
theorem file_calls_never_panic (h : Reachable init s) (i : ι) (f : Fin NFILE)
    (hf : (∃ c, (s.proc i).pc = .fileclose f c) ∨ (∃ arg fd, (s.proc i).pc = .dupRef f arg fd) ∨
      (∃ arg p, (s.proc i).pc = .piping f arg p) ∨
      ∃ j fd rest, (s.proc i).pc = .forking j (fd :: rest) ∧ (s.proc i).ofile fd = some f) :
    1 ≤ (s.kernel.file f).ref := by
  have hknows := (h.inv.knows i).arg
  rw [h.inv.count f]
  refine le_trans ?_ (s.own_le_refs i f)
  rcases hf with ⟨c, hpc⟩ | ⟨arg, fd, hpc⟩ | ⟨arg, p, hpc⟩ | ⟨j, fd, rest, hpc, hfd⟩
  · exact own_of_hand (by rw [hpc]; exact mem_cons_self)
  · exact own_of_held (hknows (arg, f) (by rw [hpc]; rfl))
  · exact own_of_held (hknows (arg, f) (by rw [hpc]; rfl))
  · have hheld : (s.proc i).held fd = some f := by
      rw [Proc.held, hpc]
      exact hfd
    exact own_of_held hheld

theorem file_calls_never_panic_noPage : ∃ s : State (Fin 2), Reachable 0 s ∧
    (s.proc 0).pc = .fileclose 0 (.files [1]) ∧ 1 ≤ (s.kernel.file 0).ref := by
  have hboot : Reachable (0 : Fin 2) (boot 0) := .refl
  have hcall := hboot.act (i := 0) rfl .pipe trivial
  have hread := hcall.act (i := 0) rfl (.pipeRead (first_file rfl)) trivial
  have hwrite := hread.act (i := 0) rfl (.pipeWrite (second_file one_ne_zero rfl)) trivial
  have hclose := hwrite.act (i := 0) rfl .pipeNoPage trivial
  exact ⟨_, hclose, rfl, file_calls_never_panic hclose 0 0 (.inl ⟨_, rfl⟩)⟩

end Xv6.Ftable
