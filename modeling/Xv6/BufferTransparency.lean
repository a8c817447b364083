import Xv6.BufferInvariant

/-!
# Processes on the buffer cache

The programs of the processes and of the commit, annotated step by step, and what follows for every
interleaving of processes that keep to the protocol.
-/

namespace Xv6.Bio

open Resumption ByteLayout Function Prog State Option Safe

variable {ι : Type} [DecidableEq ι] {d : Key → Block} {i : ι} {n : Fin NBUF} {m : Mode} {k : Key}
  {l : Loc} {lh : List UInt32} {st : Stage}

abbrev Keeps {α : Type} (d : Key → Block) (i : ι) (Q : α → Loc → Prop) (p : P ι α) (l : Loc) : Prop :=
  Safe (fun _ s => s) (Inv d) (fun _ _ => True) i Q p l

/-! ## Annotated programs -/

variable {dev blockno : UInt32} {α : Type} {pc : Pc} {op : Op} {start size : ℕ}
  {c : Config ι Stop (State ι)} {s' : State ι} {U : Usage ι} {f : State ι → α}

section

variable (hpc : l.pc = .rest)
include hpc

theorem keeps_bread (hdev : dev < 2) :
    Keeps d i (fun n l' => l.hands n = none ∧ l' = l.bring n .fetched (dev, blockno))
      (bread i dev blockno) l := by
  rintro ls s rfl hI
  refine wp_mono (wp_bget hI hpc hdev) ?_ (fun _ _ _ => trivial)
  rintro n s' ⟨hnone, hI'⟩
  refine ⟨_, hI', ?_⟩
  refine atom_bind (g := fun _ => (ls i).bring n .fetched (dev, blockno)) ?_ fun _ => ⟨hnone, rfl⟩
  intro ls' t hl hJ
  have hfill := wp_fill (n := n) (k := (dev, blockno)) hJ (by rw [hl]; rfl)
    (by rw [hl]; exact update_self ..)
  rw [hl] at hfill
  exact hfill

theorem keeps_breadLog :
    Keeps d i (fun n l' => l.hands n = none ∧ l' = l.bring n .fetched (logDev, blockno))
      (bread i logDev blockno) l := keeps_bread hpc (by decide)

theorem keeps_bwrite (hk : l.hands n = some (m, k)) :
    Keeps d i (fun _ l' => l' = l.bring n .written k) (bwrite i n) l := by
  refine atom_bind (g := fun _ => { l with pc := .flushing n }) ?_ fun _ => ?_
  · rintro ls s rfl hI
    exact wp_markDirty hI hpc hk
  · refine atom (g := fun _ => l.bring n .written k) ?_ fun _ => rfl
    intro ls s hl hI
    have hflush := wp_flush (n := n) (m := m) (k := k) hI (by rw [hl]) (by rw [hl]; exact hk)
    rw [hl] at hflush
    exact wp_mono hflush (fun _ _ hw => hw.1) (fun _ _ _ => trivial)

theorem keeps_bwrite_install {j : ℕ} (hst : l.stage = some (.installing lh j))
    (hk : l.hands n = some (m, (logDev, lh.getD j 0))) :
    Keeps d i (fun _ l' => l' = { l.bring n .written (logDev, lh.getD j 0) with
      stage := some (.installing lh (j + 1)) }) (bwrite i n) l := by
  refine atom_bind (g := fun _ => { l with pc := .flushing n }) ?_ fun _ => ?_
  · rintro ls s rfl hI
    exact wp_markDirty hI hpc hk
  · refine atom (g := fun _ => { l.bring n .written (logDev, lh.getD j 0) with
      stage := some (.installing lh (j + 1)) }) ?_ fun _ => rfl
    intro ls s hl hI
    have hflush := wp_flush (n := n) (m := m) (k := (logDev, lh.getD j 0)) hI (by rw [hl])
      (by rw [hl]; exact hk)
    rw [hl] at hflush
    refine wp_mono hflush ?_ (fun _ _ _ => trivial)
    rintro _ s' ⟨hI', hclean, -⟩
    change Inv d (update ls i (l.bring n .written (logDev, lh.getD j 0))) s' at hI'
    have hself : update ls i (l.bring n .written (logDev, lh.getD j 0)) i =
        l.bring n .written (logDev, lh.getD j 0) := update_self ..
    have hkey := (hI'.hands i n .written (logDev, lh.getD j 0)
      (by rw [hself]; exact update_self ..)).2
    have hnext := hI'.advance (i := i) (by rw [hself]; rfl) (by rw [hself]; exact hst) hkey hclean
    rw [hself, update_idem] at hnext
    exact hnext

section

variable (hk : l.hands n = some (m, k))
include hk

theorem keeps_brelse (hsaved : m.saved = true) :
    Keeps d i (fun _ l' => l' = l.drop n) (Prog.atom (brelse i n)) l := by
  refine atom (g := fun _ => l.drop n) ?_ fun _ => rfl
  rintro ls s rfl hI
  exact wp_brelse hI hpc hk hsaved

theorem keeps_change {f : Block → Block} :
    Keeps d i (fun _ l' => l' = l.bring n m.change k) (Prog.atom (change i n f)) l := by
  refine atom (g := fun _ => l.bring n m.change k) ?_ fun _ => rfl
  rintro ls s rfl hI
  exact wp_change hI hpc hk

theorem keeps_copyBuf {src : Fin NBUF} :
    Keeps d i (fun _ l' => l' = l.bring n m.change k) (Prog.atom (copyBuf i n src)) l := by
  refine atom (g := fun _ => l.bring n m.change k) ?_ fun _ => rfl
  rintro ls s rfl hI
  unfold copyBuf
  rw [wp_bind, wp_get]
  exact wp_change hI hpc hk

theorem keeps_fillHeader :
    Keeps d i (fun _ l' => l' = l.bring n m.change k) (Prog.atom (fillHeader i n)) l := by
  refine atom (g := fun _ => l.bring n m.change k) ?_ fun _ => rfl
  rintro ls s rfl hI
  unfold fillHeader
  rw [wp_bind, wp_get]
  exact wp_change hI hpc hk

end

end

theorem keeps_read {β : Type} {q : α → P ι β} {Q : β → Loc → Prop} (h : ∀ a, Keeps d i Q (q a) l) :
    Keeps d i Q (Prog.atom (do return f (← get)) >>= q) l := by
  refine atom_bind (g := fun _ => l) ?_ h
  rintro ls s rfl hI
  rw [wp_bind, wp_get, wp_pure, update_eq_self]
  exact hI

section Commit

variable {m' : Mode} {k' : Key} {n' : Fin NBUF}

theorem bring_self : (l.bring n m' k').hands n = some (m', k') :=
  update_self ..

theorem bring_other (h : n' ≠ n) :
    (l.bring n m' k').hands n' = l.hands n' := update_of_ne h ..

theorem drop_other (h : n' ≠ n) : (l.drop n).hands n' = l.hands n' :=
  update_of_ne h ..

theorem keeps_writeLogBlock (tail : ℕ) (hpc : l.pc = .rest) :
    Keeps d i (fun _ l' => l'.pc = .rest ∧ l'.stage = l.stage) (writeLogBlock i tail) l := by
  refine keeps_read fun b => ?_
  refine bind (mono (keeps_breadLog hpc) ?_)
  rintro dst _ ⟨-, rfl⟩
  refine bind (mono (keeps_breadLog rfl) ?_)
  rintro src _ ⟨hsrc, rfl⟩
  have hne : dst ≠ src := by
    rintro rfl
    rw [bring_self] at hsrc
    cases hsrc
  refine bind (mono (keeps_copyBuf rfl ((bring_other hne).trans bring_self)) ?_)
  rintro _ _ rfl
  refine bind (mono (keeps_bwrite rfl bring_self) ?_)
  rintro _ _ rfl
  refine bind (mono (keeps_brelse rfl
    ((bring_other hne.symm).trans ((bring_other hne.symm).trans bring_self)) rfl) ?_)
  rintro _ _ rfl
  refine mono (keeps_brelse rfl ((drop_other hne).trans bring_self) rfl) ?_
  rintro _ _ rfl
  exact ⟨rfl, rfl⟩

section

variable (hpc : l.pc = .rest)
include hpc

theorem keeps_writeHead :
    Keeps d i (fun _ l' => l'.pc = .rest ∧ l'.stage = l.stage) (writeHead i) l := by
  refine keeps_read fun b => ?_
  refine bind (mono (keeps_breadLog hpc) ?_)
  rintro n _ ⟨-, rfl⟩
  refine bind (mono (keeps_fillHeader rfl bring_self) ?_)
  rintro _ _ rfl
  refine bind (mono (keeps_bwrite rfl bring_self) ?_)
  rintro _ _ rfl
  refine mono (keeps_brelse rfl bring_self rfl) ?_
  rintro _ _ rfl
  exact ⟨rfl, rfl⟩

theorem keeps_installBlock {j : ℕ} (hst : l.stage = some (.installing lh j)) :
    Keeps d i (fun _ l' => l'.pc = .rest ∧ l'.stage = some (.installing lh (j + 1)))
      (installBlock i j) l := by
  unfold installBlock
  rw [atom_bind]
  rintro ls s rfl hI
  unfold slot
  rw [wp_bind, wp_get, wp_pure, hI.lh i lh j hst]
  refine ⟨ls i, by rwa [update_eq_self], ?_⟩
  refine bind (mono (keeps_breadLog hpc) ?_)
  rintro lbuf _ ⟨-, rfl⟩
  refine bind (mono (keeps_breadLog rfl) ?_)
  rintro dbuf _ ⟨hdbuf, rfl⟩
  have hne : lbuf ≠ dbuf := by
    rintro rfl
    rw [bring_self] at hdbuf
    cases hdbuf
  refine bind (mono (keeps_copyBuf rfl bring_self) ?_)
  rintro _ _ rfl
  refine bind (mono (keeps_bwrite_install rfl hst bring_self) ?_)
  rintro _ _ rfl
  refine bind (mono (keeps_brelse rfl
    ((bring_other hne).trans ((bring_other hne).trans ((bring_other hne).trans bring_self))) rfl) ?_)
  rintro _ _ rfl
  refine mono (keeps_brelse rfl ((drop_other hne.symm).trans bring_self) rfl) ?_
  rintro _ _ rfl
  exact ⟨rfl, rfl⟩

theorem keeps_writeLog :
    Keeps d i (fun _ l' => l'.pc = .rest ∧ l'.stage = l.stage) (writeLog i) l := by
  refine keeps_read fun count => ?_
  refine upTo (J := fun _ l' => l'.pc = .rest ∧ l'.stage = l.stage) ?_ (fun _ h => h) ⟨hpc, rfl⟩
  rintro j l' - - ⟨hrest, hstage⟩
  rw [← hstage]
  exact keeps_writeLogBlock j hrest

theorem keeps_installTrans (hst : l.stage = some .copying) :
    Keeps d i (fun _ l' => l'.pc = .rest ∧ ∃ lh, l'.stage = some (.installing lh lh.length))
      (installTrans i) l := by
  unfold installTrans
  rw [atom_bind]
  rintro ls s rfl hI
  unfold lhCount
  rw [wp_bind, wp_get, wp_pure]
  refine ⟨_, hI.install hpc hst, ?_⟩
  refine upTo (J := fun j l' => l'.pc = .rest ∧ l'.stage = some (.installing s.log.lh j)) ?_ ?_
    ⟨hpc, rfl⟩
  · rintro j l' - - ⟨hrest, hstage⟩
    exact keeps_installBlock hrest hstage
  · rintro l' ⟨hrest, hstage⟩
    rw [Nat.zero_add] at hstage
    exact ⟨hrest, _, hstage⟩

theorem keeps_commit (hst : l.stage = some .copying) :
    Keeps d i (fun _ l' => l'.pc = .rest ∧ l'.stage = some .copying) (commit i) l := by
  refine keeps_read fun count => ?_
  by_cases hcount : count > 0
  · rw [if_pos hcount]
    refine bind (mono (keeps_writeLog hpc) ?_)
    rintro _ l₁ ⟨hpc₁, hst₁⟩
    refine bind (mono (keeps_writeHead hpc₁) ?_)
    rintro _ l₂ ⟨hpc₂, hst₂⟩
    refine bind (mono (keeps_installTrans hpc₂ (hst₂.trans (hst₁.trans hst))) ?_)
    rintro _ l₃ ⟨hpc₃, lh, hst₃⟩
    refine atom_bind (g := fun _ => { l₃ with stage := some .copying }) ?_ fun _ => ?_
    · rintro ls s rfl hI
      exact wp_clearLh hI hpc₃ hst₃
    · exact keeps_writeHead hpc₃
  · rw [if_neg hcount]
    exact ⟨hpc, hst⟩

end

end Commit

def Loc.Idle (l : Loc) : Prop := l.pc = .rest ∧ l.stage = none

theorem keeps_endOp (hpc : l.pc = .leaving) : Keeps d i (fun _ l' => l'.Idle) (endOp i) l := by
  refine atom_bind
    (g := fun last => { l with pc := .rest, stage := if last then some .copying else none }) ?_
    fun last => ?_
  · rintro ls s rfl hI
    exact wp_leaveOp hI hpc
  · cases last with
    | false => exact ⟨rfl, rfl⟩
    | true =>
      refine bind (mono (keeps_commit rfl rfl) ?_)
      rintro _ l' ⟨hrest, hstage⟩
      refine atom (g := fun _ => { l' with stage := none }) ?_ fun _ => ⟨hrest, rfl⟩
      rintro ls s rfl hI
      exact wp_endCommit hI hrest hstage

theorem keeps_logWrite (hpc : l.pc = .logging n) (hk : l.hands n = some (m, k)) :
    Keeps d i (fun _ l' => l' = l.bring n .logged k) (logWrite i n) l := by
  refine atom_bind (g := fun _ => l) ?_ fun _ => ?_
  · rintro ls s rfl hI
    unfold logWriteTest
    simp only [wp_bind, wp_get]
    rw [wp_ite]
    refine ⟨fun _ => trivial, fun _ => ?_⟩
    rw [wp_ite]
    refine ⟨fun _ => trivial, fun _ => ?_⟩
    rw [wp_pure, update_eq_self]
    exact hI
  · refine atom (g := fun _ => l.bring n .logged k) ?_ fun _ => rfl
    rintro ls s rfl hI
    exact wp_logWriteLocked hI hpc hk

/-! ## Calls -/

def Loc.free (pc : Pc) : Loc := ⟨pc, none, fun _ => none⟩

def Loc.using (pc : Pc) (n : Fin NBUF) (m : Mode) (k : Key) : Loc :=
  { (Loc.free pc).bring n m k with pc := pc }

variable {ls : ι → Loc} {s : State ι}

theorem Inv.using (h : Inv d ls s) (hidle : (ls i).Idle) (hm : s.held i n = some m)
    (hpc : PcOk s i pc) : Inv d (update ls i (.using pc n m (s.buf n).key)) s := by
  refine h.relabel (rest_ne hidle.1) hpc hidle.2.symm ?_
  intro n' m' k' hk
  rcases hands_update (o := some m) n' m' k' hk with ⟨rfl, hm', rfl⟩ | ⟨-, hno⟩
  · exact ⟨hm.trans hm', rfl⟩
  · cases hno

theorem using_self : (Loc.using pc n m k).hands n = some (m, k) := bring_self

theorem keeps_op (h : Inv d ls s) (hidle : (ls i).Idle) (hop : Disciplined s i op) :
    ∃ l', Inv d (update ls i l') s ∧ Keeps d i (fun _ l => l.Idle) (op.prog i) l' := by
  have hsame : Inv d (update ls i (ls i)) s := by rwa [update_eq_self]
  have hnone : ∀ pc, PcOk s i pc → Inv d (update ls i (.free pc)) s :=
    fun pc hpc => h.relabel (rest_ne hidle.1) hpc hidle.2.symm fun n m k hk => by cases hk
  cases op with
  | bread dev blockno =>
    refine ⟨ls i, hsame, bind (mono (keeps_bread hidle.1 hop.2) ?_)⟩
    rintro n _ ⟨-, rfl⟩
    exact ⟨rfl, hidle.2⟩
  | change n f =>
    obtain ⟨m, hm⟩ := ne_none_iff_exists'.mp hop.1
    refine ⟨.using .rest n m (s.buf n).key, h.using hidle hm trivial, mono (keeps_change rfl using_self) ?_⟩
    rintro _ _ rfl
    exact ⟨rfl, rfl⟩
  | logWrite n =>
    obtain ⟨m, hm⟩ := ne_none_iff_exists'.mp hop.1
    refine ⟨.using (.logging n) n m (s.buf n).key, h.using hidle hm ⟨hop.1, hop.2⟩,
      mono (keeps_logWrite rfl using_self) ?_⟩
    rintro _ _ rfl
    exact ⟨rfl, rfl⟩
  | bwrite n =>
    obtain ⟨m, hm⟩ := ne_none_iff_exists'.mp hop.1
    refine ⟨.using .rest n m (s.buf n).key, h.using hidle hm trivial, mono (keeps_bwrite rfl using_self) ?_⟩
    rintro _ _ rfl
    exact ⟨rfl, rfl⟩
  | brelse n =>
    obtain ⟨m, hm⟩ := ne_none_iff_exists'.mp hop.1
    refine ⟨.using .rest n m (s.buf n).key, h.using hidle hm trivial,
      mono (keeps_brelse rfl using_self (hop.2 m hm)) ?_⟩
    rintro _ _ rfl
    exact ⟨rfl, rfl⟩
  | beginOp =>
    refine ⟨_, hnone .entering hop.1, ?_⟩
    refine atom (g := fun _ => .free .rest) ?_ fun _ => ⟨rfl, rfl⟩
    intro ls' t hl hI
    have hbegin := wp_beginOp (i := i) hI (by rw [hl]; rfl)
    rwa [hl] at hbegin
  | endOp => exact ⟨_, hnone .leaving hop.1, keeps_endOp rfl⟩

theorem inv_boot (start size : ℕ) : Inv d (fun _ : ι => .free .rest) (boot start size d) where
  mru n := List.mem_reverse.mpr (List.mem_finRange n)
  dev n := .inr ⟨rfl, rfl, rfl⟩
  unique n n' hn := absurd hn (by change ¬ NODEV < 2; decide)
  busy n := ⟨fun hb => (by cases hb), fun ⟨_, hi⟩ => (hi rfl).elim⟩
  holder i j n hi := (hi rfl).elim
  valid n hn := absurd hn (by change ¬ NODEV < 2; decide)
  dirty n hd := by cases hd
  held n i m hm := by cases hm
  free n hn := absurd hn (by change ¬ NODEV < 2; decide)
  uncached k _ _ := rfl
  listed n hd := by cases hd
  hands i n m k hk := by cases hk
  pc i := trivial
  ops := ⟨∅, fun i => ⟨fun hi => (by cases hi), fun hi => (by cases hi)⟩, rfl⟩
  closed _ := rfl
  stage i hi := (hi rfl).elim
  single i j hi := (hi rfl).elim
  lh i lh j hi := by cases hi
  trace before after k x h := by
    have hlen := congrArg List.length h
    simp [boot] at hlen

theorem Runs.inv (h : Runs Disciplined (system start size d) c) : ∃ ls, Inv d ls c.state := by
  obtain ⟨ls, hI, -⟩ := reaches (I := Inv d) (E := fun _ _ => True)
    (Q := fun _ _ l => l.Idle) (fun i p ls s hI hidle ⟨op, hop, hp⟩ => hp ▸ keeps_op hI hidle hop) h
    ⟨_, inv_boot start size, fun i => ⟨rfl, rfl⟩⟩
  exact ⟨ls, hI⟩

/-! ## Recycling -/

/-- No buffer that waits for the log is given another block. -/
def Pins (s s' : State ι) : Prop :=
  ∀ n, (s.buf n).dirty = true → (s.buf n).busy = false → (s'.buf n).key = (s.buf n).key

def Starved (s : State ι) (e : Stop) : Prop := e = .panic "bget: no buffers" → s.victim = none

theorem pins_of_key {b : Buf} (hbuf : s'.buf = update s.buf n b)
    (hb : b.key = (s.buf n).key) : Pins s s' := by
  intro n' _ _
  rw [hbuf]
  by_cases hn : n' = n
  · rw [hn, update_self, hb]
  · rw [update_of_ne hn]

theorem pins_of_buf (hbuf : s'.buf = s.buf) : Pins s s' :=
  fun n' _ _ => by rw [hbuf]

theorem starved_of_ne {e : Stop} (h : e ≠ .panic "bget: no buffers") : Starved s e := fun he => (h he).elim

theorem bget_pins (dev blockno : UInt32) :
    wp (bget i dev blockno) (fun _ s' => Pins s s') (fun e _ => Starved s e) s := by
  unfold bget
  simp only [wp_bind, wp_get]
  cases s.lookup dev blockno with
  | some n =>
    simp only
    rw [wp_ite]
    refine ⟨fun _ => starved_of_ne (by decide), fun _ => ?_⟩
    simp only [wp_bind, wp_set, wp_pure]
    exact pins_of_key (n := n) rfl rfl
  | none =>
    cases hv : s.victim with
    | none => exact fun _ => hv
    | some n =>
      simp only [wp_bind, wp_set, wp_pure]
      have hclean : (s.buf n).busy = false ∧ (s.buf n).dirty = false := by
        have := List.find?_some hv
        simpa only [decide_eq_true_eq] using this
      intro n' hd _
      have hn : n' ≠ n := by
        rintro rfl
        rw [hclean.2] at hd
        cases hd
      exact congrArg Buf.key (update_of_ne hn ..)

theorem iderw_pins {Q : Unit → State ι → Prop} {E : Stop → State ι → Prop}
    (hq : ∀ s' b, s'.buf = update s.buf n b → b.key = (s.buf n).key → Q () s')
    (he : ∀ e, Starved s e → E e s) : wp (iderw n) Q E s := by
  unfold iderw
  simp only [wp_bind, wp_get]
  rw [wp_ite]
  refine ⟨fun _ => he _ (starved_of_ne (by decide)), fun _ => ?_⟩
  rw [wp_ite]
  refine ⟨fun _ => he _ (starved_of_ne (by decide)), fun hdo => ?_⟩
  rw [wp_ite]
  refine ⟨fun _ => he _ (starved_of_ne (by decide)), fun _ => ?_⟩
  rw [wp_ite]
  refine ⟨fun _ => he _ (starved_of_ne (by decide)), fun _ => ?_⟩
  rw [wp_ite]
  exact ⟨fun _ => hq _ _ rfl rfl, fun _ => hq _ _ rfl rfl⟩

abbrev Pinning {α : Type} (p : P ι α) : Prop := Each Pins Starved p

theorem pinning_bread (dev blockno : UInt32) : Pinning (bread i dev blockno) := by
  refine (Each.atom fun s => bget_pins dev blockno).bind fun n => ?_
  refine (Each.atom fun s => ?_).bind fun _ => trivial
  unfold fill
  simp only [wp_bind, wp_get]
  rw [wp_ite]
  refine ⟨fun _ => pins_of_buf rfl, fun _ => ?_⟩
  rw [wp_bind]
  apply iderw_pins
  · intro s' b hbuf hkey
    exact pins_of_key hbuf hkey
  · exact fun _ he => he

theorem pinning_bwrite : Pinning (bwrite i n) := by
  refine (Each.atom fun s => ?_).bind fun _ => Each.atom fun s => ?_
  · unfold markDirty
    simp only [wp_bind, wp_get]
    rw [wp_ite]
    exact ⟨fun _ => starved_of_ne (by decide), fun _ => pins_of_key (n := n) rfl rfl⟩
  · unfold flush
    rw [wp_bind]
    apply iderw_pins
    · intro s' b hbuf hkey
      exact pins_of_key hbuf hkey
    · exact fun _ he => he

theorem pinning_brelse : Pinning (Prog.atom (brelse i n)) := by
  refine Each.atom fun s => ?_
  unfold brelse
  simp only [wp_bind, wp_get]
  rw [wp_ite]
  refine ⟨fun _ => starved_of_ne (by decide), fun _ => ?_⟩
  rw [wp_set]
  split
  · exact pins_of_key (n := n) rfl rfl
  · exact pins_of_key (n := n) rfl rfl

theorem pinning_change {f : State ι → Block → Block} :
    Pinning (Prog.atom (do let s ← get; change i n (f s))) :=
  Each.atom fun _ => pins_of_key (n := n) rfl rfl

theorem pinning_modify {f : State ι → State ι} (h : ∀ s, (f s).buf = s.buf) :
    Pinning (Prog.atom (modify f : M ι Unit)) := Each.atom fun s => pins_of_buf (h s)

theorem pinning_read :
    Pinning (Prog.atom (do return f (← get) : M ι α)) := Each.atom fun _ => pins_of_buf rfl

theorem pinning_installBlock (tail : ℕ) : Pinning (installBlock i tail) :=
  pinning_read.bind fun _ => (pinning_bread _ _).bind fun _ => (pinning_bread _ _).bind fun _ =>
    pinning_change.bind fun _ => pinning_bwrite.bind fun _ => pinning_brelse.bind fun _ => pinning_brelse

theorem pinning_writeLogBlock (tail : ℕ) : Pinning (writeLogBlock i tail) :=
  pinning_read.bind fun _ => (pinning_bread _ _).bind fun _ => (pinning_bread _ _).bind fun _ =>
    pinning_change.bind fun _ => pinning_bwrite.bind fun _ => pinning_brelse.bind fun _ => pinning_brelse

theorem pinning_writeHead : Pinning (writeHead i) :=
  pinning_read.bind fun _ => (pinning_bread _ _).bind fun _ => pinning_change.bind fun _ =>
    pinning_bwrite.bind fun _ => pinning_brelse

theorem pinning_commit : Pinning (commit i) := by
  refine pinning_read.bind fun n => ?_
  split
  · refine (pinning_read.bind fun _ => Each.upTo pinning_writeLogBlock _ _).bind fun _ => ?_
    refine pinning_writeHead.bind fun _ => ?_
    refine (pinning_read.bind fun _ => Each.upTo pinning_installBlock _ _).bind fun _ => ?_
    exact (pinning_modify fun _ => rfl).bind fun _ => pinning_writeHead
  · trivial

theorem pinning_op (op : Op) : Pinning (op.prog i) := by
  cases op with
  | bread dev blockno => exact (pinning_bread dev blockno).bind fun _ => trivial
  | change n f => exact Each.atom fun _ => pins_of_key (n := n) rfl rfl
  | logWrite n =>
    refine (Each.atom fun s => ?_).bind fun _ => Each.atom fun s => ?_
    · unfold logWriteTest
      simp only [wp_bind, wp_get]
      rw [wp_ite]
      refine ⟨fun _ => starved_of_ne (by decide), fun _ => ?_⟩
      rw [wp_ite]
      exact ⟨fun _ => starved_of_ne (by decide), fun _ => pins_of_buf rfl⟩
    · unfold logWriteLocked
      simp only [wp_bind, wp_get]
      rw [wp_ite]
      exact ⟨fun _ => starved_of_ne (by decide), fun _ => pins_of_key (n := n) rfl rfl⟩
  | bwrite n => exact pinning_bwrite
  | brelse n => exact pinning_brelse
  | beginOp =>
    refine Each.atom fun s => ?_
    unfold beginOp
    simp only [wp_bind, wp_get]
    rw [wp_ite]
    refine ⟨fun _ => starved_of_ne (by decide), fun _ => ?_⟩
    rw [wp_ite]
    exact ⟨fun _ => starved_of_ne (by decide), fun _ => pins_of_buf rfl⟩
  | endOp =>
    refine (Each.atom fun s => ?_).bind fun last => ?_
    · unfold leaveOp
      simp only [wp_bind, wp_get]
      rw [wp_ite]
      exact ⟨fun _ => starved_of_ne (by decide), fun _ => pins_of_buf rfl⟩
    · split
      · exact pinning_commit.bind fun _ => pinning_modify fun _ => rfl
      · trivial

theorem Runs.pinning (h : Runs U (system start size d) c) (i : ι) : Pinning (c.thread i) := by
  refine Each.reaches ?_ h (fun _ => trivial) i
  rintro s j _ ⟨op, -, rfl⟩
  exact pinning_op op

/-! ## Runs of single calls -/

theorem Runs.call (ht : c.thread i = .ret ()) (hop : U c.state i op)
    (h : (op.prog i).run c.state = .ok () s') : Runs U c ⟨s', c.thread⟩ := by
  have hcall : Step (fun _ s => s) (menu U) c ⟨c.state, update c.thread i (op.prog i)⟩ :=
    .call ht ⟨op, hop, rfl⟩
  have hwp : wp (op.prog i).run (fun _ t => t = s') (fun _ _ => False) c.state := (wp_of_ok h).mpr rfl
  obtain ⟨_, t, rfl, hsteps⟩ := steps_of_run (k := ret) hwp
  have hret : (op.prog i >>= ret) = op.prog i := by
    induction op.prog i with
    | ret a => rfl
    | act m k ih => rw [act_bind, funext ih]
  rw [hret] at hsteps
  have hrun : Reaches (fun _ s => s) (menu U) ⟨c.state, update c.thread i (op.prog i)⟩
      ⟨_, update (update c.thread i (op.prog i)) i (.ret ())⟩ :=
    Reaches.of_steps hsteps (update_self ..) rfl
  rw [update_idem, show ret () = c.thread i from ht.symm, update_eq_self] at hrun
  exact .head hcall hrun

theorem run_eq_ok {p : P ι Unit}
    (h : wp p.run (fun _ t => t = s') (fun _ _ => False) s) : p.run s = .ok () s' := by
  obtain ⟨_, t, hrun, rfl⟩ := wp_exists_ok h
  exact hrun

theorem run_bread_disk (hl : s.lookup dev blockno = none)
    (hv : s.victim = some n) (hdev : dev < 2) (hdisk : s.havedisk1 = true) (hb : blockno.toNat < FSSIZE) :
    ((Op.bread dev blockno).prog i).run s = .ok () (((s.setBuf n
      ⟨dev, blockno, true, true, false, s.disk (dev, blockno)⟩).hold i n (some .fetched)).emit
        (.returned (dev, blockno) (s.disk (dev, blockno)))) := by
  have hsector : s.disk (Buf.sector ⟨dev, blockno, true, false, false, (s.buf n).data⟩) =
      s.disk (dev, blockno) := congrArg s.disk (sector_eq hdev)
  apply run_eq_ok
  unfold Op.prog bread bget fill iderw
  simp only [run_bind, run_atom, wp_bind, wp_get, hl, hv, wp_set, wp_pure, pure_eq,
    run_ret]
  simp only [setBuf, hold, emit, update_self, hdisk, hb, hsector,
    update_idem, Bool.false_eq_true, Bool.true_eq_false, and_false, and_true, false_and, if_false,
    ge_iff_le, Nat.not_le.mpr hb, wp_bind, wp_get, wp_set, wp_modify, Buf.key]

theorem run_bread_cached (hl : s.lookup dev blockno = some n)
    (hbusy : (s.buf n).busy = false) (hvalid : (s.buf n).valid = true) :
    ((Op.bread dev blockno).prog i).run s = .ok () (((s.setBuf n
      { s.buf n with busy := true }).hold i n (some .fetched)).emit
        (.returned (dev, blockno) (s.buf n).data)) := by
  have hkey := lookup_some hl
  apply run_eq_ok
  unfold Op.prog bread bget fill
  simp only [run_bind, run_atom, wp_bind, wp_get, hl, hbusy, wp_set, wp_pure, pure_eq,
    run_ret, Bool.false_eq_true, if_false]
  simp only [setBuf, hold, emit, update_self, hvalid, if_true, wp_pure,
    wp_modify]
  rw [← hkey]
  rfl

/-! ## Transparency -/

/-- What the users of the cache rely on, in one state. -/
structure Transparent (d : Key → Block) (s : State ι) : Prop where
  unique : ∀ n n', (s.buf n).dev ≠ NODEV → (s.buf n).key = (s.buf n').key → n = n'
  busy : ∀ n, (s.buf n).busy = true ↔ ∃ i, s.held i n ≠ none
  holder : ∀ i j n, s.held i n ≠ none → s.held j n ≠ none → i = j
  waiting : ∀ n, (s.buf n).dirty = true → (s.buf n).busy = false → (s.buf n).blockno ∈ s.log.lh
  faithful : Faithful d s.trace

theorem Inv.transparent (h : Inv d ls s) : Transparent d s where
  unique n n' hn hk := h.unique n n' ((h.dev n).resolve_right fun hno => hn hno.1) hk
  busy := h.busy
  holder := h.holder
  waiting n hd hb := by
    rcases h.listed n hd with ⟨j, hj⟩ | ⟨-, hw⟩
    · have hp := h.pc j
      rw [hj] at hp
      rw [(h.busy n).mpr ⟨j, hp⟩] at hb
      cases hb
    · exact hw.1
  faithful := h.trace

theorem transparent_of_disciplined {start size : ℕ} {c : Config ι Stop (State ι)}
    (h : Runs Disciplined (system start size d) c) : Transparent d c.state ∧
      ∀ c', Step (fun _ s => s) (menu Disciplined) c c' → Pins c.state c'.state := by
  obtain ⟨ls, hI⟩ := h.inv
  exact ⟨hI.transparent, fun c' hstep => Each.step h.pinning hstep fun _ => pins_of_buf rfl⟩

theorem transparent_of_disciplined_bread : ∃ c : Config Unit Stop (State Unit),
    c.state.trace = [.returned (1, 5) .zero] ∧ Transparent (fun _ => .zero) c.state ∧
      ∀ c', Step (fun _ s => s) (menu Disciplined) c c' → Pins c.state c'.state := by
  let s : State Unit := (((boot 2 LOGSIZE fun _ => .zero).setBuf 0 ⟨1, 5, true, true, false, .zero⟩).hold
    () 0 (some .fetched)).emit (.returned (1, 5) .zero)
  have hbread : ((Op.bread 1 5).prog ()).run (boot 2 LOGSIZE fun _ => .zero) = .ok () s :=
    run_bread_disk rfl rfl (by decide) rfl (by decide)
  have hop : Disciplined (boot 2 LOGSIZE fun _ => .zero) () (.bread 1 5) := ⟨trivial, by decide⟩
  have hrun : Runs Disciplined (system 2 LOGSIZE fun _ => .zero) ⟨s, fun _ => .ret ()⟩ :=
    Runs.call (c := system 2 LOGSIZE fun _ => .zero) rfl hop hbread
  exact ⟨_, rfl, transparent_of_disciplined hrun⟩

/-- One process changes a block, calls neither `log_write` nor `bwrite`, and reads the block again. -/
theorem unsaved_change_returned : ∃ c : Config Unit Stop (State Unit),
    Runs Holding (system 2 LOGSIZE fun _ => .zero) c ∧ ¬ Faithful (fun _ => .zero) c.state.trace := by
  let d : Key → Block := fun _ => .zero
  let ones : Block := fun _ => 1
  let s₁ : State Unit := (((boot 2 LOGSIZE d).setBuf 0 ⟨1, 5, true, true, false, d (1, 5)⟩).hold () 0
    (some .fetched)).emit (.returned (1, 5) (d (1, 5)))
  let s₂ : State Unit := (s₁.setBuf 0 { s₁.buf 0 with data := ones }).hold () 0 (some .modified)
  let s₃ : State Unit := { (s₂.setBuf 0 { s₂.buf 0 with busy := false }).hold () 0 none with
    mru := 0 :: s₂.mru.erase 0 }
  let s₄ : State Unit := ((s₃.setBuf 0 { s₃.buf 0 with busy := true }).hold () 0 (some .fetched)).emit
    (.returned (1, 5) (s₃.buf 0).data)
  have h₁ : ((Op.bread 1 5).prog ()).run (boot 2 LOGSIZE d) = .ok () s₁ :=
    run_bread_disk rfl rfl (by decide) rfl (by decide)
  have h₂ : ((Op.change 0 fun _ => ones).prog ()).run s₁ = .ok () s₂ := rfl
  have h₃ : ((Op.brelse 0).prog ()).run s₂ = .ok () s₃ := rfl
  have h₄ : ((Op.bread 1 5).prog ()).run s₃ = .ok () s₄ := run_bread_cached rfl rfl rfl
  have hchange : Holding s₁ () (.change 0 fun _ => ones) := Option.some_ne_none _
  have hbrelse : Holding s₂ () (.brelse 0) := Option.some_ne_none _
  have r₁ : Runs Holding (system 2 LOGSIZE d) ⟨s₁, fun _ => .ret ()⟩ :=
    Runs.call (c := system 2 LOGSIZE d) rfl (show Holding _ () (.bread 1 5) from trivial) h₁
  have r₂ : Runs Holding ⟨s₁, fun _ => .ret ()⟩ ⟨s₂, fun _ => .ret ()⟩ :=
    Runs.call (c := ⟨s₁, fun _ => .ret ()⟩) rfl hchange h₂
  have r₃ : Runs Holding ⟨s₂, fun _ => .ret ()⟩ ⟨s₃, fun _ => .ret ()⟩ :=
    Runs.call (c := ⟨s₂, fun _ => .ret ()⟩) rfl hbrelse h₃
  have r₄ : Runs Holding ⟨s₃, fun _ => .ret ()⟩ ⟨s₄, fun _ => .ret ()⟩ :=
    Runs.call (c := ⟨s₃, fun _ => .ret ()⟩) rfl (show Holding _ () (.bread 1 5) from trivial) h₄
  refine ⟨_, r₁.trans (r₂.trans (r₃.trans r₄)), fun hf => ?_⟩
  have hones : ones = .zero := hf [.returned (1, 5) .zero] [] (1, 5) ones rfl
  exact absurd (congrFun hones 0) (by decide)

end Xv6.Bio
