import Xv6.ConsoleRing
import Xv6.Outline

/-!
# The line discipline

Invariant of console.c: the indices follow the keystrokes that were accepted, what was read is a prefix of
what was committed, and each read has ended for one of the reasons that `consoleread` has.
-/

namespace Xv6.Console

open Monitor List UInt32 World

variable {ι : Type} [DecidableEq ι]

/-- What a read takes from the ring: its characters, and a `^D` in front of which it has none. -/
def Read.uses (x : Read) : List UInt8 :=
  match x.why with
  | .eof _ => if x.got = [] then [ctrlD] else x.got
  | _ => x.got

/-- The result of `consoleread`. -/
def Read.result (x : Read) : ℤ :=
  match x.why with
  | .killed => -1
  | _ => x.got.length

/-- How a read may end, `done` being what was committed. -/
def Read.Ok (done : List UInt8) (x : Read) : Prop :=
  ctrlD ∉ x.got ∧
    match x.why with
    | .full => x.got.length = x.n.toNat ∧ NL ∉ x.got
    | .newline => x.got.length ≤ x.n.toNat ∧ ∃ l, x.got = l ++ [NL] ∧ NL ∉ l
    | .eof pos => x.got.length < x.n.toNat ∧ NL ∉ x.got ∧ done[pos]? = some ctrlD
    | .killed => x.got.length < x.n.toNat ∧ NL ∉ x.got

theorem Read.Ok.mono {done done' : List UInt8} {x : Read} (h : x.Ok done) (hle : done <+: done') : x.Ok done' := by
  unfold Read.Ok at h ⊢
  refine ⟨h.1, ?_⟩
  have h2 := h.2
  cases hwhy : x.why with
  | eof pos =>
    rw [hwhy] at h2
    obtain ⟨hlen, hnl, hpos⟩ := h2
    obtain ⟨hlt, -⟩ := List.getElem?_eq_some_iff.1 hpos
    refine ⟨hlen, hnl, ?_⟩
    rw [← hpos]
    exact (prefix_iff_getElem?.1 hle pos hlt).trans (List.getElem?_eq_getElem hlt).symm
  | full | newline | killed =>
    rw [hwhy] at h2
    exact h2

/-- The bytes that process `i` took. -/
def World.mine (d : World ι) (i : ι) : List UInt8 := (d.taken.filter (·.1 = i)).map Prod.snd

/-- The reads that it has finished. -/
def World.readsOf (d : World ι) (i : ι) : List Read := (d.reads.filter (·.1 = i)).map Prod.snd

def Holds (i : ι) (got : List UInt8) (d : World ι) : Prop := d.mine i = (d.readsOf i).flatMap Read.uses ++ got

def Returns (i : ι) (r : ℤ) (d : World ι) : Prop := (d.readsOf i).getLast?.map Read.result = some r

abbrev World.done (d : World ι) : List UInt8 := (replay d.strokes).1

abbrev World.line (d : World ι) : List UInt8 := (replay d.strokes).2

structure Inv (d : World ι) : Prop where
  slots : Slots d.input d.done d.line d.taken.length
  full : d.done.length + d.line.length = d.taken.length + INPUT_BUF → d.line = []
  plain : NL ∉ d.line
  taken : d.taken.map Prod.snd = d.done.take d.taken.length
  reads : ∀ x ∈ d.reads, x.2.Ok d.done

structure Going (n : ℤ) (got : List UInt8) : Prop where
  length : got.length ≤ n.toNat
  newline : NL ∉ got
  eof : ctrlD ∉ got

def held : Loc → Bool
  | .intrLoop _ | .intrWakeup _ | .readLoop _ _ | .readSleep _ _ | .readRelease _ => true
  | _ => false

def Asserts (i : ι) (l : Loc) (d : World ι) : Prop :=
  match l with
  | .readLoop n got => Holds i got d ∧ Going n got
  | .readSleep n got => Holds i got d ∧ Going n got ∧ d.input.r = d.input.w
  | .readRelease r | .readReturn r => Holds i [] d ∧ Returns i r d
  | _ => Holds i [] d

def Waits (i : ι) (l : Loc) (d : World ι) : Prop :=
  match l with
  | .readLoop n got => Holds i got d ∧ Going n got
  | _ => False

def Reason (_ : Unit) (d : World ι) : Prop := d.input.r = d.input.w

def Owes (l : Loc) (_ : Unit) : Prop :=
  match l with
  | .intrWakeup _ => True
  | _ => False

variable {d d' : World ι} {i j : ι} {l : Loc} {n : ℤ} {got : List UInt8} {c : UInt8}

/-! ## Characters -/

structure Same (i : ι) (d d' : World ι) : Prop where
  mine : d'.mine i = d.mine i
  readsOf : d'.readsOf i = d.readsOf i

theorem Same.trans {d₁ d₂ d₃ : World ι} (h : Same i d₁ d₂) (h' : Same i d₂ d₃) : Same i d₁ d₃ :=
  ⟨h'.mine.trans h.mine, h'.readsOf.trans h.readsOf⟩

theorem Same.holds (h : Same i d d') (hi : Holds i got d) : Holds i got d' := by
  unfold Holds at hi ⊢
  rw [h.mine, h.readsOf, hi]

theorem Same.returns {r : ℤ} (h : Same i d d') (hi : Returns i r d) : Returns i r d' := by
  unfold Returns at hi ⊢
  rw [h.readsOf, hi]

theorem same_key (c : UInt8) (i : ι) (d : World ι) : Same i d (key c d).1 := by
  unfold key
  dsimp only
  split_ifs <;> exact ⟨rfl, rfl⟩

theorem Inv.strokes (h : Inv d) {p : Input} {k : Stroke}
    (hslots : Slots p (edit (d.done, d.line) k).1 (edit (d.done, d.line) k).2 d.taken.length)
    (hfull : (edit (d.done, d.line) k).1.length + (edit (d.done, d.line) k).2.length =
      d.taken.length + INPUT_BUF → (edit (d.done, d.line) k).2 = [])
    (hplain : NL ∉ (edit (d.done, d.line) k).2) :
    Inv { d with input := p, strokes := d.strokes ++ [k] } := by
  have hedit : replay (d.strokes ++ [k]) = edit (d.done, d.line) k := replay_append ..
  have hle : d.done <+: (edit (d.done, d.line) k).1 := done_prefix_edit (d.done, d.line) k
  obtain ⟨more, hmore⟩ := hle
  constructor <;> simp only [done, line, hedit]
  · exact hslots
  · exact hfull
  · exact hplain
  · rw [← hmore, take_append_of_le_length h.slots.behind]
    exact h.taken
  · exact fun x hx => (h.reads x hx).mono ⟨more, hmore⟩

theorem Inv.kill (h : Inv d) : Inv { d with
    input := d.input.killLine (d.input.e - d.input.w).toNat, strokes := d.strokes ++ [.kill] } := by
  refine h.strokes (h.slots.killLine h.plain ?_) (fun _ => rfl) not_mem_nil
  rw [h.slots.used.2.1]

theorem Inv.erase (h : Inv d) : Inv { d with input := d.input.backspace, strokes := d.strokes ++ [.erase] } := by
  refine h.strokes h.slots.backspace (fun hlen => ?_) fun hmem => h.plain (dropLast_subset _ hmem)
  have hroom := h.slots.room
  simp only [edit, length_dropLast] at hlen ⊢
  rw [h.full (by omega)]
  rfl

theorem full_iff {p : Input} {done line : List UInt8} {R : ℕ} (h : Slots p done line R) :
    p.e = p.r + 128 ↔ done.length + line.length = R + INPUT_BUF := by
  have hroom := h.room
  have hbehind := h.behind
  have hadd : ofNat R + 128 = ofNat (R + INPUT_BUF) := ofNat_add .. |>.symm
  rw [h.e, h.r, hadd]
  refine ofNat_inj hroom ?_
  omega

theorem Inv.typed (h : Inv d) (c : UInt8) (hroom : d.input.e - d.input.r < 128) :
    let p := d.input.put (norm c)
    let full := decide (p.e = p.r + 128)
    Inv { d with
      input := if norm c = NL ∨ norm c = ctrlD ∨ full = true then p.commit else p
      strokes := d.strokes ++ [.typed c full] } := by
  intro p full
  have hlt : d.done.length + d.line.length < d.taken.length + INPUT_BUF := by
    have hnat := lt_iff_toNat_lt.1 hroom
    rw [h.slots.used.2.2] at hnat
    have hbehind := h.slots.behind
    have h128 : (128 : UInt32).toNat = INPUT_BUF := rfl
    omega
  have hput : Slots p d.done (d.line ++ [norm c]) d.taken.length := h.slots.put hlt _
  by_cases hc : norm c = NL ∨ norm c = ctrlD ∨ full = true
  · rw [if_pos hc]
    apply h.strokes <;> simp only [edit, if_pos hc]
    · exact hput.commit
    · exact fun _ => trivial
    · exact not_mem_nil
  · rw [if_neg hc]
    obtain ⟨hnl, -, hnot⟩ := not_or.1 hc |>.imp_right not_or.1
    have hnofull : ¬ p.e = p.r + 128 := fun heq => hnot (decide_eq_true heq)
    apply h.strokes <;> simp only [edit, if_neg hc]
    · exact hput
    · exact fun heq => absurd ((full_iff hput).2 heq) hnofull
    · rw [mem_append, mem_singleton]
      exact fun hmem => hmem.elim h.plain fun heq => hnl heq.symm

theorem Inv.key (h : Inv d) (c : UInt8) : Inv (key c d).1 := by
  unfold Console.key
  dsimp only
  split_ifs with hP hU hH hroom hcommit
  · exact h
  · exact h.kill
  · exact h.erase
  · have hty := h.typed c hroom.2
    dsimp only at hty
    rwa [if_pos hcommit] at hty
  · have hty := h.typed c hroom.2
    dsimp only at hty
    rwa [if_neg hcommit] at hty
  · exact h

theorem killLine_rw (p : Input) (k : ℕ) : (p.killLine k).r = p.r ∧ (p.killLine k).w = p.w := by
  induction k generalizing p with
  | zero => exact ⟨rfl, rfl⟩
  | succ k ih =>
    unfold Input.killLine
    split
    · exact ih _
    · exact ⟨rfl, rfl⟩

theorem key_quiet (hquiet : (key c d).2 = false) :
    (key c d).1.input.r = d.input.r ∧ (key c d).1.input.w = d.input.w := by
  unfold key at hquiet ⊢
  dsimp only at hquiet ⊢
  split_ifs at hquiet ⊢ with hP hU hH hroom hcommit
  · exact ⟨rfl, rfl⟩
  · exact killLine_rw ..
  · unfold Input.backspace
    split <;> exact ⟨rfl, rfl⟩
  · exact ⟨rfl, rfl⟩
  · exact ⟨rfl, rfl⟩

/-! ## Reads -/

theorem Inv.front (h : Inv d) (hne : d.input.r ≠ d.input.w) :
    d.taken.length < d.done.length ∧ d.done[d.taken.length]? = some (d.input.buf (Input.slot d.input.r)) := by
  have hlt : d.taken.length < d.done.length :=
    lt_of_le_of_ne h.slots.behind fun heq => hne (h.slots.empty_iff.2 heq)
  refine ⟨hlt, ?_⟩
  rw [h.slots.front hlt]
  exact List.getElem?_eq_getElem hlt

theorem Inv.take (h : Inv d) (hne : d.input.r ≠ d.input.w) (i : ι) :
    Inv (d.take i (d.input.buf (Input.slot d.input.r))) := by
  obtain ⟨hlt, hfront⟩ := h.front hne
  have hlen : (d.taken ++ [(i, d.input.buf (Input.slot d.input.r))]).length = d.taken.length + 1 := by
    rw [length_append, length_singleton]
  refine ⟨?_, fun hfull => ?_, h.plain, ?_, h.reads⟩
  · simp only [World.take, hlen]
    exact h.slots.advance hlt
  · change d.done.length + d.line.length = (d.taken ++ _).length + INPUT_BUF at hfull
    have := h.slots.room
    omega
  · simp only [World.take, hlen, map_append, map_cons, map_nil, h.taken]
    rw [take_add_one, hfront]
    rfl

theorem Inv.finish (h : Inv d) {why : End} (hok : Read.Ok d.done ⟨n, got, why⟩) : Inv (d.finish i n got why) := by
  refine ⟨h.slots, h.full, h.plain, h.taken, fun x hx => ?_⟩
  rcases mem_append.1 hx with hx | hx
  · exact h.reads x hx
  · rw [mem_singleton.1 hx]
    exact hok

theorem holds_take_self (h : Holds i got d) (c : UInt8) : Holds i (got ++ [c]) (d.take i c) := by
  unfold Holds World.mine World.readsOf at h ⊢
  simp only [World.take, filter_append, map_append, h]
  simp

theorem same_take (hij : i ≠ j) (d : World ι) (c : UInt8) : Same i d (d.take j c) := by
  constructor
  · simp [World.mine, World.take, filter_append, hij.symm]
  · rfl

theorem finish_self {why : End} (h : Holds i (Read.uses ⟨n, got, why⟩) d) :
    Holds i [] (d.finish i n got why) ∧ Returns i (Read.result ⟨n, got, why⟩) (d.finish i n got why) := by
  have hreads : (d.finish i n got why).readsOf i = d.readsOf i ++ [⟨n, got, why⟩] := by
    simp [readsOf, finish, filter_append]
  constructor
  · unfold Holds at h ⊢
    rw [hreads, flatMap_append, append_nil, flatMap_singleton]
    exact h
  · unfold Returns
    rw [hreads, List.getLast?_append]
    rfl

theorem same_finish (hij : i ≠ j) (d : World ι) {m : ℤ} {more : List UInt8} {why : End} :
    Same i d (d.finish j m more why) := by
  constructor
  · rfl
  · simp [readsOf, finish, filter_append, hij.symm]

structure ReadOk (i : ι) (d : World ι) (out : World ι × Loc) : Prop where
  inv : Inv out.1
  run : Asserts i out.2 out.1
  locked : held out.2 = true
  reason : d.input.r = d.input.w → out.1.input.r = out.1.input.w
  others : ∀ j, j ≠ i → Same j d out.1

theorem readOk (h : Inv d) (hi : Holds i got d) (hgo : Going n got) (killed : Bool) :
    ReadOk i d (readLoop i n got killed d) := by
  unfold readLoop
  by_cases hn : (got.length : ℤ) < n
  · have hlt : got.length < n.toNat := by omega
    rw [if_pos hn]
    by_cases hempty : d.input.r = d.input.w
    · rw [if_pos hempty]
      split
      · exact ⟨h.finish ⟨hgo.eof, hlt, hgo.newline⟩, finish_self hi, rfl, id,
          fun j hj => same_finish hj d⟩
      · exact ⟨h, ⟨hi, hgo, hempty⟩, rfl, id, fun j hj => ⟨rfl, rfl⟩⟩
    · rw [if_neg hempty]
      have hfront := (h.front hempty).2
      have htake := h.take hempty i
      dsimp only
      generalize d.input.buf (Input.slot d.input.r) = c at hfront htake ⊢
      by_cases heof : c = ctrlD
      · rw [if_pos heof]
        have hok : Read.Ok d.done ⟨n, got, .eof d.taken.length⟩ := ⟨hgo.eof, hlt, hgo.newline, heof ▸ hfront⟩
        by_cases hgot : got = []
        · rw [if_neg (not_not.2 hgot)]
          subst hgot heof
          exact ⟨htake.finish hok, finish_self (holds_take_self hi _), rfl,
            fun heq => absurd heq hempty, fun j hj => (same_take hj d _).trans (same_finish hj _)⟩
        · rw [if_pos hgot]
          refine ⟨h.finish hok, finish_self ?_, rfl, id, fun j hj => same_finish hj d⟩
          unfold Read.uses
          dsimp only
          rwa [if_neg hgot]
      · rw [if_neg heof]
        have hlen : (got ++ [c]).length ≤ n.toNat := by
          rw [length_append, length_singleton]
          omega
        have heof' : ctrlD ∉ got ++ [c] := by
          rw [mem_append, mem_singleton]
          exact fun hmem => hmem.elim hgo.eof fun heq => heof heq.symm
        by_cases hnl : c = NL
        · rw [if_pos hnl]
          have hok : Read.Ok d.done ⟨n, got ++ [c], .newline⟩ :=
            ⟨heof', hlen, got, by rw [hnl], hgo.newline⟩
          exact ⟨htake.finish hok, finish_self (holds_take_self hi c), rfl,
            fun heq => absurd heq hempty, fun j hj => (same_take hj d c).trans (same_finish hj _)⟩
        · rw [if_neg hnl]
          have hnl' : NL ∉ got ++ [c] := by
            rw [mem_append, mem_singleton]
            exact fun hmem => hmem.elim hgo.newline fun heq => hnl heq.symm
          exact ⟨htake, ⟨holds_take_self hi c, hlen, hnl', heof'⟩, rfl,
            fun heq => absurd heq hempty, fun j hj => same_take hj d c⟩
  · rw [if_neg hn]
    have hlen : got.length = n.toNat := by
      have := hgo.length
      omega
    exact ⟨h.finish ⟨hgo.eof, hlen, hgo.newline⟩, finish_self hi, rfl, id,
      fun j hj => same_finish hj d⟩

/-! ## The outline -/

theorem same_step {f : Bool → World ι → World ι × Loc} (killed : Bool) (hc : machine.code j l = .step f)
    (h : Inv d) (hj : Asserts j l d) (hij : i ≠ j) : Same i d (f killed d).1 := by
  cases l with
  | intrLoop cs =>
    cases cs with
    | nil => cases hc
    | cons c cs =>
      cases hc
      exact same_key c i d
  | readLoop n got' =>
    cases hc
    exact (readOk h hj.1 hj.2 killed).others i hij
  | _ => cases hc

theorem held_of_step {f : Bool → World ι → World ι × Loc} (hc : machine.code j l = .step f) : held l = true := by
  cases l with
  | intrLoop | readLoop => rfl
  | _ => cases hc

def outline : Outline (machine (ι := ι)) where
  held := held
  inv := Inv
  free _ := True
  run := Asserts
  wait := Waits
  reason := Reason
  owes := Owes
  call {i l l' d} hc hmenu _ hl := by
    cases l with
    | out =>
      cases l' with
      | intrAcquire cs | readAcquire n => exact ⟨rfl, hl, nofun⟩
      | _ => cases hmenu
    | readReturn r =>
      cases l' with
      | out => exact ⟨rfl, hl.1, nofun⟩
      | _ => cases hmenu
    | intrLoop cs => cases cs <;> cases hc
    | _ => cases hc
  env he := he.elim
  acquire {i l l' d} hc _ _ hl := by
    cases l with
    | intrAcquire cs =>
      cases hc
      exact ⟨rfl, hl, nofun⟩
    | readAcquire n =>
      cases hc
      exact ⟨rfl, ⟨hl, Nat.zero_le _, List.not_mem_nil, List.not_mem_nil⟩, nofun⟩
    | intrLoop cs => cases cs <;> cases hc
    | _ => cases hc
  release {i l l' d} hc _ hl := by
    cases l with
    | intrLoop cs =>
      cases cs with
      | nil =>
        cases hc
        exact ⟨rfl, trivial, hl, nofun⟩
      | cons c cs => cases hc
    | readRelease r =>
      cases hc
      exact ⟨rfl, trivial, hl, nofun⟩
    | _ => cases hc
  step {i l f d} k hc h hl := by
    cases l with
    | intrLoop cs =>
      cases cs with
      | nil => cases hc
      | cons c cs =>
        cases hc
        dsimp only
        cases hwake : (key c d).2 with
        | true => exact ⟨h.key c, fun _ => id, (same_key c i d).holds hl, rfl, nofun, fun _ _ => .inr trivial⟩
        | false =>
          refine ⟨h.key c, fun _ => id, (same_key c i d).holds hl, rfl, nofun, fun _ hr => .inl ?_⟩
          obtain ⟨hr', hw'⟩ := key_quiet hwake
          exact hr'.trans (hr.trans hw'.symm)
    | readLoop n got =>
      cases hc
      have hok := readOk h hl.1 hl.2 k
      exact ⟨hok.inv, fun _ => id, hok.run, hok.locked, nofun, fun _ hr => .inl (hok.reason hr)⟩
    | _ => cases hc
  stable_run {i j l l' f d} k hij hc h hj hexcl hl := by
    have hsame := same_step k hc h hj hij
    cases l with
    | readLoop n got | readSleep n got => exact (hexcl rfl (held_of_step hc)).elim
    | readRelease r | readReturn r => exact ⟨hsame.holds hl.1, hsame.returns hl.2⟩
    | _ => exact hsame.holds hl
  stable_wait {i j l l' f d} k hij hc h hj hl := by
    cases l with
    | readLoop n got => exact ⟨(same_step k hc h hj hij).holds hl.1, hl.2⟩
    | _ => exact hl.elim
  sleep {i l l' c d} hc _ hl := by
    cases l with
    | readSleep n got =>
      cases hc
      exact ⟨rfl, trivial, ⟨hl.1, hl.2.1⟩, hl.2.2, nofun⟩
    | intrLoop cs => cases cs <;> cases hc
    | _ => cases hc
  wakeup {i l l' c d} hc _ hl := by
    cases l with
    | intrWakeup cs =>
      cases hc
      exact ⟨rfl, hl, fun c' hne _ => absurd rfl hne⟩
    | intrLoop cs => cases cs <;> cases hc
    | _ => cases hc
  resume {i l d} _ _ hw := by
    cases l with
    | readLoop n got => exact hw
    | _ => exact hw.elim

end Xv6.Console
