import Xv6.FileRefs

/-!
# The steps of the file calls

Each step of a process moves references and tokens and loses none, and what the process knows at its next
place is true there.
-/

namespace Xv6.Ftable

open Fs (NFILE NOFILE FileType)
open Function List Nat Option Kernel Pipe Pc Proc
open scoped BigOperators

variable {ι : Type}

variable {o : Ofile} {fd arg : Fin NOFILE} {x : Pipe} {k k' : Kernel} {p p' : Proc ι}
  {f : Fin NFILE} {c : Cont} {q : ℕ × Token} {w : Bool} {g : Pipe → Pipe} {rest : List (Fin NOFILE)}

theorem update_none (h : o fd = none) : update o fd none = o := by
  rw [← h, update_eq_self]

/-! ## Files -/

theorem File.ends_of_type {x : File} (h : x.type ≠ .pipe) (q : ℕ × Token) : x.ends q = 0 :=
  if_neg fun hx => h hx.2.1

theorem File.ends_of_free {x : File} (h : x.ref = 0) (q : ℕ × Token) : x.ends q = 0 :=
  if_neg fun hx => absurd hx.1 (by omega)

theorem File.ends_eq {x : File} (href : 0 < x.ref) (htype : x.type = .pipe) (q : ℕ × Token) :
    x.ends q = [(x.pipe, Token.side x.writable)].count q := by
  by_cases hq : (x.pipe, Token.side x.writable) = q
  · simp [File.ends, href, htype, hq]
  · simp [File.ends, href, htype, hq, Ne.symm hq]

theorem ActOk.alloc (hk : k.Ok) (hf : k.filealloc = some f) (hle : ∀ g, p.own g ≤ (k.file g).ref)
    (hown : ∀ g, p'.own g = p.own g + [f].count g) (htokens : p'.pc.tokens = p.pc.tokens)
    (hknows : Knows (k.setRef f 1) p') : ActOk k p (k.setRef f 1) p' := by
  have hfree := filealloc_free hf
  have hidle := hk.idle f hfree
  have hnone : p.own f = 0 := le_zero.1 (hfree ▸ hle f)
  refine ActOk.setFile hk ?_ ?_ ?_ (fun _ => hfree) (by omega) (fun h => absurd h one_ne_zero)
    (hk.sides f) hknows
  · rw [hown f, hnone, hfree, count_singleton_self]
  · intro g hg
    rw [hown g, count_self_ne hg, add_zero]
  · intro q
    rw [htokens, File.ends_of_type (by simp [hidle]), File.ends_of_type (by simp [hidle])]

theorem ActOk.fill {x : File} (hk : k.Ok) (hfresh : (k.file f).ref = 1 ∧ (k.file f).type = .none)
    (hmine : 0 < p.own f) (href : x.ref = (k.file f).ref) (hown : ∀ g, p'.own g = p.own g)
    (htokens : ∀ q, x.ends q + p'.pc.tokens.count q = p.pc.tokens.count q)
    (hsides : x.type = .pipe → x.readable = !x.writable) (hknows : Knows (k.setFile f x) p') :
    ActOk k p (k.setFile f x) p' := by
  refine ActOk.setFile hk ?_ (fun g _ => hown g) ?_ ?_ ?_ ?_ hsides hknows
  · rw [href, hown f]
  · intro q
    rw [htokens q, File.ends_of_type (by simp [hfresh.2]), zero_add]
  · intro h
    omega
  · intro h
    omega
  · intro h
    omega

theorem fresh_setRef (hk : k.Ok) (hf : k.filealloc = some f) :
    ((k.setRef f 1).file f).ref = 1 ∧ ((k.setRef f 1).file f).type = .none := by
  rw [setRef, k.file_setFile_self]
  exact ⟨rfl, hk.idle f (filealloc_free hf)⟩

theorem ActOk.dupRef (hk : k.Ok)
    (hp : Knows k (⟨o, .dupRef f arg fd⟩ : Proc ι)) (href : ¬ (k.file f).ref < 1) :
    ActOk k (⟨o, .dupRef f arg fd⟩ : Proc ι) (k.setRef f ((k.file f).ref + 1)) ⟨o, .user⟩ := by
  have hslot : o fd = some f := hp.slot (fd, f) rfl
  have hpos : 0 < own (⟨o, .dupRef f arg fd⟩ : Proc ι) f :=
    lt_of_lt_of_le (slots_pos (hp.arg (arg, f) rfl)) (le_add_right _ _)
  have hown : ∀ g, own (⟨o, .user⟩ : Proc ι) g =
      own (⟨o, .dupRef f arg fd⟩ : Proc ι) g + [f].count g := by
    intro g
    simp only [own_mk, away, hand, lend, count_nil, add_zero]
    exact (slots_take hslot g).symm
  refine ActOk.setFile hk ?_ ?_ ?_ ?_ ?_ ?_ (hk.sides f) (.quiet rfl rfl rfl rfl (mem_left o))
  · rw [hown f, count_singleton_self]
    dsimp only
    omega
  · intro g hg
    rw [hown g, count_self_ne hg, add_zero]
  · intro q
    simp [File.ends, tokens, one_le_iff_ne_zero.1 (not_lt.1 href), pos_iff_ne_zero]
  · intro h
    omega
  · intro _
    exact ⟨rfl, rfl⟩
  · intro h
    simp at h

theorem own_fileclose (o : Ofile) (f : Fin NFILE) (c : Cont) (g : Fin NFILE) :
    Proc.own (⟨o, .fileclose f c⟩ : Proc ι) g = Proc.own (⟨o, c.pc⟩ : Proc ι) g + [f].count g := by
  rw [own_mk, own_mk, Cont.away_pc, Cont.hand_pc, hand, away, count_cons_eq]
  omega

theorem ActOk.release (hk : k.Ok)
    (hp : Knows k (⟨o, .fileclose f c⟩ : Proc ι)) (href : (k.file f).ref - 1 > 0) :
    ActOk k (⟨o, .fileclose f c⟩ : Proc ι) (k.setRef f ((k.file f).ref - 1)) ⟨o, c.pc⟩ := by
  refine ActOk.setFile hk ?_ ?_ ?_ ?_ ?_ ?_ (hk.sides f) (.cont hp.left)
  · rw [own_fileclose, count_singleton_self]
    dsimp only
    omega
  · intro g hg
    rw [own_fileclose, count_self_ne hg, add_zero]
  · intro q
    have hpos : 0 < (k.file f).ref := by omega
    rw [Cont.tokens_pc]
    simp only [File.ends, tokens, hpos, href]
  · intro h
    rw [own_fileclose, count_singleton_self] at h
    omega
  · intro _
    exact ⟨rfl, rfl⟩
  · intro h
    dsimp only at h
    omega

/-- Where `fileclose` goes on after it dropped the last reference to the file `x`. -/
def closeNext (x : File) (c : Cont) : Pc ι :=
  if x.type = .pipe then .pipeclose x.pipe x.writable c else c.pc

theorem own_closeNext (o : Ofile) (x : File) (c : Cont) (g : Fin NFILE) :
    Proc.own (⟨o, closeNext x c⟩ : Proc ι) g = Proc.own (⟨o, c.pc⟩ : Proc ι) g := by
  unfold closeNext
  split_ifs
  · rw [own_mk, own_mk, Cont.away_pc, Cont.hand_pc, hand, away]
  · rfl

theorem tokens_closeNext {x : File} (href : 0 < x.ref) (c : Cont) (q : ℕ × Token) :
    (closeNext x c : Pc ι).tokens.count q = x.ends q := by
  unfold closeNext
  split_ifs with h
  · exact (File.ends_eq href h q).symm
  · rw [Cont.tokens_pc, File.ends_of_type h, count_nil]

theorem Knows.closeNext (x : File)
    (hleft : ∀ fd ∉ c.left, o fd = none) : Knows k (⟨o, Ftable.closeNext x c⟩ : Proc ι) := by
  unfold Ftable.closeNext
  split_ifs
  · exact .quiet rfl rfl rfl rfl hleft
  · exact .cont hleft

theorem ActOk.releaseLast (hk : k.Ok) (hp : Knows k (⟨o, .fileclose f c⟩ : Proc ι))
    (hle : ∀ g, Proc.own (⟨o, .fileclose f c⟩ : Proc ι) g ≤ (k.file g).ref)
    (hpanic : ¬ (k.file f).ref < 1) (href : ¬ (k.file f).ref - 1 > 0) :
    ActOk k (⟨o, .fileclose f c⟩ : Proc ι) (k.drop f) ⟨o, closeNext (k.file f) c⟩ := by
  have hone : (k.file f).ref = 1 := by omega
  have hself := own_fileclose (ι := ι) o f c f
  rw [count_singleton_self] at hself
  have hlef := hle f
  refine ActOk.setFile hk ?_ ?_ ?_ ?_ ?_ (fun _ => rfl) nofun (.closeNext _ hp.left)
  · rw [own_closeNext, hself]
    dsimp only
    omega
  · intro g hg
    rw [own_closeNext, own_fileclose, count_self_ne hg, add_zero]
  · intro q
    rw [tokens_closeNext (by omega), File.ends_of_free rfl, zero_add]
    rfl
  · intro h
    omega
  · intro h
    omega

/-! ## Pipes -/

theorem Kernel.exists_of_due (h : 0 < k.due q) : ∃ x, k.pipes[q.1]? = some x ∧ 0 < x.due q.2 := by
  unfold due at h
  cases hx : k.pipes[q.1]? with
  | none => simp [hx] at h
  | some x => exact ⟨x, rfl, by simpa [hx] using h⟩

theorem Pipe.due_side (h : 0 < x.due (.side w)) : x.isOpen w = true := by
  by_contra hw
  simp [due, hw] at h

theorem Pipe.not_closed_of_isOpen (h : x.isOpen w = true) : x.closed = false := by
  cases w <;> simp_all [isOpen, closed]

theorem Kernel.Ok.not_freed (hk : k.Ok) {p : ℕ} (h : 0 < k.due (p, .side w)) :
    ∃ x, k.pipes[p]? = some x ∧ x.isOpen w = true ∧ x.kfrees = 0 := by
  obtain ⟨x, hx, hdue⟩ := exists_of_due h
  have hopen := due_side hdue
  rcases hk.freed p x hx with hfree | ⟨-, hclosed⟩
  · exact ⟨x, hx, hopen, hfree⟩
  · rw [not_closed_of_isOpen hopen] at hclosed
    exact absurd hclosed Bool.false_ne_true

theorem Kernel.Ok.touch (hk : k.Ok) {p : ℕ} (h : 0 < k.due (p, .side w)) : k.touch p = k := by
  obtain ⟨x, hx, -, hfree⟩ := hk.not_freed h
  simp [Kernel.touch, hx, hfree]

theorem count_token (p : ℕ) (t t' : Token) : [(p, t)].count (p, t') = if t = t' then 1 else 0 := by
  by_cases h : t = t' <;> simp [h]

theorem Pipe.due_shut (hopen : x.isOpen w = true) (hfree : x.kfrees = 0) (t : Token) :
    (x.shut w).due t + (if Token.side w = t then 1 else 0) =
      x.due t + (if (x.shut w).closed ∧ Token.page = t then 1 else 0) := by
  have hclosed := not_closed_of_isOpen hopen
  obtain ⟨r, v, n⟩ := x
  subst hfree
  rcases t with (_ | _) | _ <;> cases w <;> cases r <;> cases v <;>
    simp_all [due, shut, isOpen, closed]

theorem Kernel.due_modify_ne {p : ℕ} (h : p ≠ q.1) :
    Kernel.due { k with pipes := k.pipes.modify p g } q = k.due q := by
  simp [due, h]

theorem Kernel.due_shut {p : ℕ} (hx : k.pipes[p]? = some x)
    (hopen : x.isOpen w = true) (hfree : x.kfrees = 0) (q : ℕ × Token) :
    (k.shut p w).due q + [(p, Token.side w)].count q =
      k.due q + (if (k.shut p w).closed p then [(p, Token.page)] else []).count q := by
  have hself : (k.shut p w).pipes[p]? = some (x.shut w) := by
    simp [Kernel.shut, hx]
  by_cases hq : p = q.1
  · obtain ⟨p', t⟩ := q
    obtain rfl : p = p' := hq
    have hdue := Pipe.due_shut hopen hfree t
    simp only [Kernel.due, Kernel.closed, hself, hx, Option.map_some, Option.getD_some, Option.any_some]
    rw [count_token, hdue]
    cases hc : (x.shut w).closed with
    | true => simp only [true_and, if_true, count_token]
    | false => simp
  · have hne : ∀ t : Token, (p, t) ≠ q := fun t h => hq (congrArg Prod.fst h)
    rw [Kernel.shut, Kernel.due_modify_ne hq]
    split_ifs <;> simp [hne]

theorem Kernel.due_kfree {p : ℕ} (hx : k.pipes[p]? = some x)
    (hclosed : x.closed = true) (hfree : x.kfrees = 0) (q : ℕ × Token) :
    (k.kfree p).due q + [(p, Token.page)].count q = k.due q := by
  by_cases hq : p = q.1
  · obtain ⟨p', t⟩ := q
    obtain rfl : p = p' := hq
    have hself : (k.kfree p).pipes[p]? = some { x with kfrees := x.kfrees + 1 } := by
      simp [Kernel.kfree, hx]
    simp only [Kernel.due, hself, hx, Option.map_some, Option.getD_some]
    cases t with
    | side w =>
      rw [count_token]
      cases w <;> rfl
    | page => simp [Pipe.due, Pipe.closed, hfree] at hclosed ⊢; exact hclosed
  · have hne : (p, Token.page) ≠ q := fun h => hq (congrArg Prod.fst h)
    rw [Kernel.kfree, Kernel.due_modify_ne hq]
    simp [hne]

theorem ActOk.setPipes (hfile : k'.file = k.file) (hown : ∀ f, p'.own f = p.own f)
    (htokens : ∀ q, p'.pc.tokens.count q + k.due q = p.pc.tokens.count q + k'.due q) (hk : k'.Ok)
    (hknows : Knows k' p') : ActOk k p k' p' where
  count f := by rw [hown f, hfile]
  tokens q := by
    have hends : k'.ends q = k.ends q := by rw [ends, hfile, ends]
    have hq := htokens q
    omega
  foreign f _ _ := by rw [hfile]
  shared f _ := by rw [hfile]; exact ⟨rfl, rfl⟩
  ok := hk
  knows := hknows

theorem Kernel.Ok.modify (hk : k.Ok) {p : ℕ}
    (hx : k.pipes[p]? = some x) (hg : (g x).kfrees = 0 ∨ (g x).kfrees = 1 ∧ (g x).closed) :
    Kernel.Ok { k with pipes := k.pipes.modify p g } where
  idle := hk.idle
  sides := hk.sides
  freed := by
    intro p' y hy
    by_cases h : p = p'
    · subst h
      rw [List.getElem?_modify_eq, hx] at hy
      obtain rfl : g x = y := by simpa using hy
      exact hg
    · rw [List.getElem?_modify_ne _ _ h] at hy
      exact hk.freed p' y hy
  untouched := hk.untouched

theorem Pipe.kfrees_shut (x : Pipe) (w : Bool) : (x.shut w).kfrees = x.kfrees := by
  cases w <;> rfl

def shutNext (k : Kernel) (p : ℕ) (c : Cont) : Pc ι := if k.closed p then .kfree p c else c.pc

theorem ActOk.pipeclose {p : ℕ} (hk : k.Ok)
    (hp : Knows k (⟨o, .pipeclose p w c⟩ : Proc ι)) (hdue : 0 < k.due (p, .side w)) :
    ActOk k (⟨o, .pipeclose p w c⟩ : Proc ι) ((k.touch p).shut p w) ⟨o, shutNext (k.shut p w) p c⟩ := by
  obtain ⟨x, hx, hopen, hfree⟩ := hk.not_freed hdue
  rw [hk.touch hdue]
  refine ActOk.setPipes rfl ?_ ?_ (hk.modify hx (.inl ?_)) ?_
  · intro f
    unfold shutNext
    split_ifs
    · rfl
    · rw [own_mk, own_mk, Cont.away_pc, Cont.hand_pc, hand, away]
  · intro q
    have hq := due_shut hx hopen hfree q
    have hnext : (shutNext (k.shut p w) p c : Pc ι).tokens =
        if (k.shut p w).closed p then [(p, Token.page)] else [] := by
      unfold shutNext
      split_ifs
      · rfl
      · exact c.tokens_pc
    rw [hnext]
    simp only [tokens]
    omega
  · rw [kfrees_shut, hfree]
  · unfold shutNext
    split_ifs
    · exact .quiet rfl rfl rfl rfl hp.left
    · exact .cont hp.left

theorem ActOk.kfree {p : ℕ} (hk : k.Ok) (hp : Knows k (⟨o, .kfree p c⟩ : Proc ι))
    (hdue : 0 < k.due (p, .page)) : ActOk k (⟨o, .kfree p c⟩ : Proc ι) (k.kfree p) ⟨o, c.pc⟩ := by
  obtain ⟨x, hx, hpage⟩ : ∃ x, k.pipes[p]? = some x ∧ 0 < x.due .page := Kernel.exists_of_due hdue
  have hboth : x.closed = true ∧ x.kfrees = 0 := by
    by_contra h
    simp [Pipe.due, h] at hpage
  refine ActOk.setPipes rfl ?_ ?_ (hk.modify hx (.inr ⟨by rw [hboth.2], hboth.1⟩)) (.cont hp.left)
  · intro f
    rw [own_mk, own_mk, Cont.away_pc, Cont.hand_pc, Pc.hand, Pc.away]
  · intro q
    have hq := Kernel.due_kfree hx hboth.1 hboth.2 q
    rw [Cont.tokens_pc]
    simp only [Pc.tokens, count_nil]
    omega

theorem Kernel.Ok.newPipe (hk : k.Ok) : k.newPipe.Ok where
  idle := hk.idle
  sides := hk.sides
  freed := by
    intro p x hx
    rcases lt_trichotomy p k.pipes.length with h | rfl | h
    · rw [Kernel.newPipe, List.getElem?_append_left h] at hx
      exact hk.freed p x hx
    · rw [Kernel.newPipe, List.getElem?_concat_length] at hx
      obtain rfl := Option.some.inj hx
      exact .inl rfl
    · rw [Kernel.newPipe, List.getElem?_eq_none (by simp; omega)] at hx
      exact absurd hx (by simp)
  untouched := hk.untouched

/-! ## All steps -/

theorem Knows.piping (harg : o arg = some f)
    (ht : (k.file f).type = .pipe) : Knows k (⟨o, .piping f arg (k.file f).pipe⟩ : Proc ι) where
  slot := nofun
  arg q hq := by
    obtain rfl := Option.some.inj hq
    exact harg
  left := mem_left o
  fresh := nofun
  pipe q hq := by
    obtain rfl := Option.some.inj hq
    exact ⟨ht, rfl⟩

theorem left_of_cons
    (h : ∀ x ∉ fd :: rest, o x = none) (hfd : o fd = none) : ∀ x ∉ rest, o x = none := by
  intro x hx
  by_cases hxfd : x = fd
  · rw [hxfd, hfd]
  · exact h x (by simp [hxfd, hx])

theorem left_of_clear
    (h : ∀ x ∉ fd :: rest, o x = none) : ∀ x ∉ rest, update o fd none x = none := by
  have hclear : ∀ x ∉ fd :: rest, update o fd none x = none := by
    intro x hx
    rw [update_of_ne (ne_of_not_mem_cons hx), h x hx]
  exact left_of_cons hclear (update_self _ _ _)

theorem own_of_hand (h : f ∈ p.pc.hand) : 0 < p.own f :=
  lt_of_lt_of_le (count_pos_iff.2 h) (le_add_left _ _)

theorem own_of_held (h : p.held fd = some f) : 0 < p.own f :=
  lt_of_lt_of_le (slots_pos h) (le_add_right _ _)

theorem Kernel.ends_pos (href : 0 < (k.file f).ref)
    (htype : (k.file f).type = .pipe) : 0 < k.ends ((k.file f).pipe, .side (k.file f).writable) := by
  refine Finset.sum_pos' (fun _ _ => zero_le _) ⟨f, Finset.mem_univ f, ?_⟩
  rw [File.ends_eq href htype, count_singleton_self]
  exact one_pos

theorem Act.ok (h : Act k p k' p') (hk : k.Ok) (hp : Knows k p)
    (hle : ∀ f, p.own f ≤ (k.file f).ref) (hdue : ∀ q, k.ends q + p.pc.tokens.count q ≤ k.due q) :
    ActOk k p k' p' := by
  have hheld : ∀ q ∈ p.pc.tokens, 0 < k.due q := fun q hq =>
    lt_of_lt_of_le (count_pos_iff.2 hq) (le_trans (le_add_left _ _) (hdue q))
  cases h with
  | «open» | openNoFile | openNoFd | exit | pipe | pipeNoRead | pipeNoWrite | pipeNoPage | pipeNoFd0
  | «return» =>
    exact .private hk (fun _ => rfl) rfl (.quiet rfl rfl rfl rfl (mem_left _))
  | exitDone => exact .private hk (fun _ => rfl) rfl (.quiet rfl rfl rfl rfl hp.left)
  | exitSkip hfd =>
    exact .private hk (fun _ => rfl) rfl (.quiet rfl rfl rfl rfl (left_of_cons hp.left hfd))
  | exitClose hfd =>
    exact .private hk (fun g => slots_take hfd g) rfl (.quiet rfl rfl rfl rfl hp.left)
  | exitClear =>
    exact .private hk (fun _ => rfl) rfl (.quiet rfl rfl rfl rfl (left_of_clear hp.left))
  | close hfd =>
    exact .private hk (fun g => slots_take hfd g) rfl (.quiet rfl rfl rfl rfl (mem_left _))
  | @openFile o f hf =>
    refine .alloc hk hf hle (fun _ => rfl) rfl (.new nofun rfl rfl rfl ?_)
    intro g hg
    rw [mem_singleton.1 hg]
    exact fresh_setRef hk hf
  | @openFd o f fd hfd =>
    have hfree := fdalloc_none hfd
    refine .private hk ?_ rfl (.new ?_ rfl rfl rfl hp.fresh)
    · intro g
      simp only [own_mk, away, hand, lend, update_idem, update_none hfree]
    · intro q hq
      obtain rfl := Option.some.inj hq
      exact update_self _ _ _
  | @openSet o f fd r w =>
    have hslot : o fd = some f := hp.slot (fd, f) rfl
    refine .fill hk (hp.fresh f (mem_singleton_self f)) (own_of_hand (mem_singleton_self f)) rfl
      ?_ ?_ nofun (.quiet rfl rfl rfl rfl (mem_left _))
    · intro g
      simp only [own_mk, away, hand, lend, count_nil, add_zero]
      exact (slots_take hslot g).symm
    · intro q
      rw [File.ends_of_type (by simp), zero_add]
      rfl
  | @dup o f arg fd harg hfd =>
    have hfree := fdalloc_none hfd
    have hheld : held (⟨update o fd (some f), .dupRef f arg fd⟩ : Proc ι) = o := by
      simp only [held, away, lend, update_idem, update_none hfree]
    refine .private hk ?_ rfl ⟨?_, ?_, mem_left _, nofun, nofun⟩
    · intro g
      rw [own, hheld]
      rfl
    · intro q hq
      obtain rfl := Option.some.inj hq
      exact update_self _ _ _
    · intro q hq
      obtain rfl := Option.some.inj hq
      rw [hheld]
      exact harg
  | dupRef href => exact .dupRef hk hp href
  | release _ href => exact .release hk hp href
  | releaseLast hpanic href => exact .releaseLast hk hp hle hpanic href
  | pipeclose => exact .pipeclose hk hp (hheld _ (mem_singleton_self _))
  | kfree => exact .kfree hk hp (hheld _ (mem_singleton_self _))
  | @pipeRead o rf hf =>
    refine .alloc hk hf hle (fun _ => rfl) rfl (.new nofun rfl rfl rfl ?_)
    intro g hg
    rw [mem_singleton.1 hg]
    exact fresh_setRef hk hf
  | @pipeWrite o rf wf hf =>
    have hrf := hp.fresh rf (mem_singleton_self rf)
    have hne : rf ≠ wf := by
      rintro rfl
      rw [filealloc_free hf] at hrf
      exact absurd hrf.1 (by omega)
    refine .alloc hk hf hle ?_ rfl (.new nofun rfl rfl rfl ?_)
    · intro g
      simp only [own_mk, away, hand]
      rw [count_cons_eq]
      omega
    · intro g hg
      rcases mem_pair.1 hg with rfl | rfl
      · rw [setRef, k.file_setFile_ne hne]
        exact hrf
      · exact fresh_setRef hk hf
  | @pipePage o rf wf =>
    refine .setPipes rfl (fun _ => rfl) ?_ hk.newPipe (.new nofun rfl rfl rfl hp.fresh)
    intro q
    rw [due_newPipe]
    simp only [tokens, count_nil]
    omega
  | @setRead o rf wf x =>
    have hrf := hp.fresh rf (by simp [fresh])
    have hne : wf ≠ rf := by
      rintro rfl
      have htwo : own (⟨o, .setRead wf wf x⟩ : Proc ι) wf ≤ (k.file wf).ref := hle wf
      simp [own_mk, hand, hrf.1] at htwo
    refine .fill hk hrf (own_of_hand (by simp [hand])) rfl (fun _ => rfl) ?_ (fun _ => rfl)
      (.new nofun rfl rfl rfl ?_)
    · intro q
      rw [File.ends_eq (by dsimp only; omega) rfl]
      exact (count_cons_eq _ q _).symm
    · intro g hg
      rw [mem_singleton.1 hg, k.file_setFile_ne hne]
      exact hp.fresh wf (by simp [fresh])
  | @setWrite o rf wf x =>
    have hwf := hp.fresh wf (mem_singleton_self wf)
    refine .fill hk hwf (own_of_hand (by simp [hand])) rfl (fun _ => rfl) ?_ (fun _ => rfl)
      (.quiet rfl rfl rfl rfl (mem_left _))
    intro q
    rw [File.ends_eq (by dsimp only; omega) rfl]
    rfl
  | @pipeFd0 o rf wf fd0 hfd =>
    refine .private hk ?_ rfl (.new ?_ rfl rfl rfl nofun)
    · intro g
      simp only [own_mk, away, hand, lend]
      rw [slots_put (fdalloc_none hfd), count_cons_eq rf g [wf]]
      omega
    · intro q hq
      obtain rfl := Option.some.inj hq
      exact update_self _ _ _
  | @pipeNoFd1 o rf wf fd0 hfd =>
    have hslot : o fd0 = some rf := hp.slot (fd0, rf) rfl
    refine .private hk ?_ rfl (.quiet rfl rfl rfl rfl (mem_left _))
    intro g
    simp only [own_mk, away, hand, lend, Cont.away, Cont.hand]
    rw [count_cons_eq rf g [wf], ← slots_take hslot g]
    omega
  | @pipeFd1 o rf wf fd0 fd1 hfd =>
    refine .private hk ?_ rfl (.quiet rfl rfl rfl rfl (mem_left _))
    intro g
    simp only [own_mk, away, hand, lend, count_nil, add_zero]
    exact slots_put (fdalloc_none hfd) wf g
  | piperead harg _ ht => exact .private hk (fun _ => rfl) rfl (.piping harg ht)
  | pipewrite harg _ ht => exact .private hk (fun _ => rfl) rfl (.piping harg ht)
  | @access o f arg x =>
    have hpipe : (k.file f).type = .pipe ∧ (k.file f).pipe = x := hp.pipe (f, x) rfl
    have href : 0 < (k.file f).ref := lt_of_lt_of_le (own_of_held (hp.arg (arg, f) rfl)) (hle f)
    have hends := ends_pos href hpipe.1
    have hopen := hdue ((k.file f).pipe, .side (k.file f).writable)
    rw [hpipe.2] at hends hopen
    rw [hk.touch (w := (k.file f).writable) (by omega)]
    exact .private hk (fun _ => rfl) rfl hp

/-! ## Steps of others -/

theorem Pc.mem_hand_of_fresh {pc : Pc ι} (h : f ∈ pc.fresh) : f ∈ pc.hand := by
  cases pc <;> simp_all [fresh, hand]

theorem Knows.congr (h : Knows k p)
    (hfresh : ∀ f ∈ p.pc.fresh, k'.file f = k.file f)
    (hpipe : ∀ f, 0 < p.own f →
      (k'.file f).type = (k.file f).type ∧ (k'.file f).pipe = (k.file f).pipe) : Knows k' p where
  slot := h.slot
  arg := h.arg
  left := h.left
  fresh f hf := by
    rw [hfresh f hf]
    exact h.fresh f hf
  pipe := by
    intro q hq
    have hown : 0 < p.own q.1 := by
      obtain ⟨o, pc⟩ := p
      cases pc <;> simp only [pipeOf, mem_def, reduceCtorEq] at hq
      obtain rfl := Option.some.inj hq
      exact own_of_held (h.arg _ rfl)
    rw [(hpipe q.1 hown).1, (hpipe q.1 hown).2]
    exact h.pipe q hq

theorem Act.not_embryo (h : Act k p k' p') (a : ι) : p.pc ≠ .embryo a := by
  cases h <;> exact nofun

theorem Cont.pc_not_forking (c : Cont) (j : ι) (rest : List (Fin NOFILE)) : c.pc ≠ Pc.forking j rest := by
  obtain (_ | _) | _ := c <;> exact nofun

theorem Act.not_forking (h : Act k p k' p') (j : ι)
    (rest : List (Fin NOFILE)) : p'.pc ≠ .forking j rest := by
  cases h with
  | @release _ _ c => exact c.pc_not_forking j rest
  | @releaseLast _ _ c =>
    dsimp only
    split_ifs
    · exact nofun
    · exact c.pc_not_forking j rest
  | @pipeclose _ _ _ c =>
    dsimp only
    split_ifs
    · exact nofun
    · exact c.pc_not_forking j rest
  | @kfree _ _ c => exact c.pc_not_forking j rest
  | _ => exact nofun

structure Pc.Plain (pc : Pc ι) : Prop where
  away : pc.away = none
  hand : pc.hand = []
  tokens : pc.tokens = []

theorem Proc.own_of_plain (h : p.pc.Plain) (f : Fin NFILE) : p.own f = slots p.ofile f := by
  rw [own, held, h.away, h.hand, count_nil, add_zero, lend]

end Xv6.Ftable
