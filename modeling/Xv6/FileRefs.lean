import Xv6.FileTable

/-!
# Who holds what in the file table

Two things are conserved by every step. A reference to a file is either a descriptor or in the hands of a
call (`Proc.own`), and `ref` counts them. An end of a pipe, and a closed pipe whose page is still to be
freed, are tokens: a token belongs to a file with references or to a call (`Pc.tokens`), and the pipe
object says which tokens there are (`Kernel.due`).
-/

namespace Xv6.Ftable

open Fs (NFILE NOFILE FileType)
open Function List Finset
open scoped BigOperators

/-! ## References -/

def Cont.hand : Cont → List (Fin NFILE)
  | .files fs => fs
  | .exit _ _ => []

def Cont.left : Cont → List (Fin NOFILE)
  | .files _ => List.finRange NOFILE
  | .exit fd rest => fd :: rest

def Cont.away : Cont → Option (Fin NOFILE)
  | .files _ => none
  | .exit fd _ => some fd

variable {ι : Type}

namespace Pc

def hand : Pc ι → List (Fin NFILE)
  | openFd f | openSet f _ | pipeWrite f => [f]
  | pipePage rf wf | setRead rf wf _ | setWrite rf wf _ | pipeFd0 rf wf => [rf, wf]
  | pipeFd1 _ wf _ => [wf]
  | fileclose f c => f :: c.hand
  | pipeclose _ _ c | kfree _ c => c.hand
  | _ => []

/-- A descriptor that is set although its reference is not counted: `dup` stores the file before it
counts the reference, and `exit` clears the descriptor after the reference is gone. -/
def away : Pc ι → Option (Fin NOFILE)
  | openSet _ fd | dupRef _ _ fd | exitClear fd _ => some fd
  | fileclose _ c | pipeclose _ _ c | kfree _ c => c.away
  | _ => none

def fresh : Pc ι → List (Fin NFILE)
  | openFd f | openSet f _ | pipeWrite f => [f]
  | pipePage rf wf | setRead rf wf _ => [rf, wf]
  | setWrite _ wf _ => [wf]
  | _ => []

end Pc

variable {α : Type} {o : Ofile} {fd : Fin NOFILE} {f : Fin NFILE} {k : Kernel} {pc : Pc ι}
  {p p' : Proc ι} {x : File}

@[simp] theorem Cont.hand_pc (c : Cont) : (c.pc : Pc ι).hand = c.hand := by
  obtain (_ | _) | _ := c <;> rfl

@[simp] theorem Cont.away_pc (c : Cont) : (c.pc : Pc ι).away = c.away := by
  obtain (_ | _) | _ := c <;> rfl

@[simp] theorem Cont.fresh_pc (c : Cont) : (c.pc : Pc ι).fresh = [] := by
  obtain (_ | _) | _ := c <;> rfl

@[irreducible] def slots (o : Ofile) (f : Fin NFILE) : ℕ := ∑ fd, if o fd = some f then 1 else 0

def lend (o : Ofile) : Option (Fin NOFILE) → Ofile
  | none => o
  | some fd => Function.update o fd none

namespace Proc

def held (p : Proc ι) : Ofile := lend p.ofile p.pc.away

def own (p : Proc ι) (f : Fin NFILE) : ℕ := slots p.held f + p.pc.hand.count f

end Proc

theorem own_mk (o : Ofile) (pc : Pc ι) (f : Fin NFILE) :
    Proc.own ⟨o, pc⟩ f = slots (lend o pc.away) f + pc.hand.count f := rfl

theorem sum_update_add {β : Type} [Fintype α] [DecidableEq α] (w : β → ℕ) (x : α → β) (a : α) (b : β) :
    (∑ c, w (update x a b c)) + w (x a) = (∑ c, w (x c)) + w b := by
  have hnew := add_sum_erase Finset.univ (fun c => w (update x a b c)) (mem_univ a)
  have hold := add_sum_erase Finset.univ (fun c => w (x c)) (mem_univ a)
  have hrest : ∑ c ∈ Finset.univ.erase a, w (update x a b c) =
      ∑ c ∈ Finset.univ.erase a, w (x c) :=
    sum_congr rfl fun c hc => by rw [update_of_ne (ne_of_mem_erase hc)]
  rw [update_self] at hnew
  omega

theorem slots_take (h : o fd = some f) (g : Fin NFILE) :
    slots (update o fd none) g + [f].count g = slots o g := by
  have := sum_update_add (fun x => if x = some g then 1 else 0) o fd none
  simp only [h, Option.some.injEq, reduceCtorEq, if_false] at this
  simpa [slots, count_cons] using this

theorem slots_put (h : o fd = none) (f g : Fin NFILE) :
    slots (update o fd (some f)) g = slots o g + [f].count g := by
  have := sum_update_add (fun x => if x = some g then 1 else 0) o fd (some f)
  simp only [h, Option.some.injEq, reduceCtorEq, if_false] at this
  simpa [slots, count_cons] using this

theorem slots_pos (h : o fd = some f) : 0 < slots o f := by
  unfold slots
  exact sum_pos' (fun _ _ => Nat.zero_le _) ⟨fd, mem_univ fd, by simp [h]⟩

theorem fdalloc_none (h : fdalloc o = some fd) : o fd = none := by
  simpa using List.find?_some h

theorem filealloc_free (h : k.filealloc = some f) : (k.file f).ref = 0 := by
  simpa using List.find?_some h

theorem count_cons_eq [BEq α] (f g : α) (l : List α) :
    (f :: l).count g = [f].count g + l.count g := by
  rw [← count_append, singleton_append]

theorem count_self_ne {g : Fin NFILE} (h : g ≠ f) : [f].count g = 0 := by
  simp [h.symm]

/-! ## Tokens -/

inductive Token
  | side (writable : Bool)
  | page
  deriving DecidableEq

def Pc.tokens : Pc ι → List (ℕ × Token)
  | .setRead _ _ p => [(p, .side false), (p, .side true)]
  | .setWrite _ _ p => [(p, .side true)]
  | .pipeclose p w _ => [(p, .side w)]
  | .kfree p _ => [(p, .page)]
  | _ => []

@[simp] theorem Cont.tokens_pc (c : Cont) : (c.pc : Pc ι).tokens = [] := by
  obtain (_ | _) | _ := c <;> rfl

def File.ends (x : File) (q : ℕ × Token) : ℕ :=
  if 0 < x.ref ∧ x.type = .pipe ∧ q = (x.pipe, .side x.writable) then 1 else 0

def Pipe.due (x : Pipe) : Token → ℕ
  | .side w => if x.isOpen w then 1 else 0
  | .page => if x.closed ∧ x.kfrees = 0 then 1 else 0

namespace Kernel

def ends (k : Kernel) (q : ℕ × Token) : ℕ := ∑ f, (k.file f).ends q

def due (k : Kernel) (q : ℕ × Token) : ℕ := (k.pipes[q.1]?.map fun x => x.due q.2).getD 0

theorem ends_setFile (k : Kernel) (f : Fin NFILE) (x : File) (q : ℕ × Token) :
    (k.setFile f x).ends q + (k.file f).ends q = k.ends q + x.ends q :=
  sum_update_add (fun y : File => y.ends q) k.file f x

theorem file_setFile_self (k : Kernel) (f : Fin NFILE) (x : File) : (k.setFile f x).file f = x :=
  update_self _ _ _

theorem file_setFile_ne (k : Kernel) {f g : Fin NFILE} (h : g ≠ f) (x : File) :
    (k.setFile f x).file g = k.file g :=
  update_of_ne h _ _

theorem due_newPipe (k : Kernel) (q : ℕ × Token) :
    k.newPipe.due q = k.due q + [(k.pipes.length, Token.side false), (k.pipes.length, .side true)].count q := by
  obtain ⟨p, t⟩ := q
  simp only [due, newPipe]
  rcases lt_trichotomy p k.pipes.length with h | rfl | h
  · rw [List.getElem?_append_left h]
    simp [h.ne']
  · rw [List.getElem?_concat_length, List.getElem?_eq_none (le_refl _)]
    rcases t with (_ | _) | _ <;> simp [Pipe.due, Pipe.isOpen, Pipe.closed]
  · rw [List.getElem?_eq_none (by simp; omega), List.getElem?_eq_none h.le]
    simp [h.ne]

end Kernel

/-! ## One step -/

/-- The pages of the pipes are freed at most once, after both ends are closed, and not used afterwards. -/
structure Kernel.Ok (k : Kernel) : Prop where
  idle : ∀ f, (k.file f).ref = 0 → (k.file f).type = .none
  sides : ∀ f, (k.file f).type = .pipe → (k.file f).readable = !(k.file f).writable
  freed : ∀ (p : ℕ) (x : Pipe), k.pipes[p]? = some x → x.kfrees = 0 ∨ x.kfrees = 1 ∧ x.closed
  untouched : k.touched = false

namespace Pc

def slot : Pc ι → Option (Fin NOFILE × Fin NFILE)
  | openSet f fd | dupRef f _ fd => some (fd, f)
  | pipeFd1 rf _ fd0 => some (fd0, rf)
  | _ => none

def arg : Pc ι → Option (Fin NOFILE × Fin NFILE)
  | dupRef f arg _ | piping f arg _ => some (arg, f)
  | _ => none

def pipeOf : Pc ι → Option (Fin NFILE × ℕ)
  | piping f _ p => some (f, p)
  | _ => none

def left : Pc ι → List (Fin NOFILE)
  | unused | zombie => []
  | exiting rest => rest
  | exitClear fd rest => fd :: rest
  | fileclose _ c | pipeclose _ _ c | kfree _ c => c.left
  | _ => List.finRange NOFILE

end Pc

structure Knows (k : Kernel) (p : Proc ι) : Prop where
  slot : ∀ q ∈ p.pc.slot, p.ofile q.1 = some q.2
  arg : ∀ q ∈ p.pc.arg, p.held q.1 = some q.2
  left : ∀ fd ∉ p.pc.left, p.ofile fd = none
  fresh : ∀ f ∈ p.pc.fresh, (k.file f).ref = 1 ∧ (k.file f).type = .none
  pipe : ∀ q ∈ p.pc.pipeOf, (k.file q.1).type = .pipe ∧ (k.file q.1).pipe = q.2

structure Guar (k : Kernel) (p : Proc ι) (k' : Kernel) (p' : Proc ι) : Prop where
  count : ∀ f, (k'.file f).ref + p.own f = (k.file f).ref + p'.own f
  tokens : ∀ q, k'.ends q + p'.pc.tokens.count q + k.due q = k.ends q + p.pc.tokens.count q + k'.due q
  foreign : ∀ f, p.own f = 0 → 0 < (k.file f).ref → k'.file f = k.file f
  shared : ∀ f, p.own f < (k.file f).ref →
    (k'.file f).type = (k.file f).type ∧ (k'.file f).pipe = (k.file f).pipe

structure ActOk (k : Kernel) (p : Proc ι) (k' : Kernel) (p' : Proc ι) : Prop extends Guar k p k' p' where
  ok : k'.Ok
  knows : Knows k' p'

theorem mem_left (o : Ofile) : ∀ fd ∉ List.finRange NOFILE, o fd = none :=
  fun fd h => absurd (mem_finRange fd) h

theorem Knows.new (hslot : ∀ q, pc.slot = some q → o q.1 = some q.2)
    (harg : pc.arg = none) (hpipe : pc.pipeOf = none) (hleft : pc.left = List.finRange NOFILE)
    (hfresh : ∀ f ∈ pc.fresh, (k.file f).ref = 1 ∧ (k.file f).type = .none) : Knows k ⟨o, pc⟩ :=
  ⟨hslot, by simp [harg], by simp [hleft], hfresh, by simp [hpipe]⟩

theorem Knows.quiet (hslot : pc.slot = none) (harg : pc.arg = none) (hfresh : pc.fresh = [])
    (hpipe : pc.pipeOf = none) (hleft : ∀ fd ∉ pc.left, o fd = none) : Knows k ⟨o, pc⟩ :=
  ⟨by simp [hslot], by simp [harg], hleft, by simp [hfresh], by simp [hpipe]⟩

theorem Knows.cont {c : Cont} (hleft : ∀ fd ∉ c.left, o fd = none) :
    Knows k (⟨o, c.pc⟩ : Proc ι) := by
  obtain (_ | _) | _ := c <;> exact .quiet rfl rfl rfl rfl hleft

theorem ActOk.private (hk : k.Ok) (hown : ∀ f, p'.own f = p.own f)
    (htokens : p'.pc.tokens = p.pc.tokens) (hknows : Knows k p') : ActOk k p k p' where
  count f := by rw [hown f]
  tokens q := by rw [htokens]
  foreign _ _ _ := rfl
  shared _ _ := ⟨rfl, rfl⟩
  ok := hk
  knows := hknows

theorem Kernel.Ok.setFile (hk : k.Ok)
    (hidle : x.ref = 0 → x.type = .none) (hsides : x.type = .pipe → x.readable = !x.writable) :
    (k.setFile f x).Ok where
  idle := by
    intro g hg
    by_cases h : g = f
    · subst h
      rw [k.file_setFile_self] at hg ⊢
      exact hidle hg
    · rw [k.file_setFile_ne h] at hg ⊢
      exact hk.idle g hg
  sides := by
    intro g hg
    by_cases h : g = f
    · subst h
      rw [k.file_setFile_self] at hg ⊢
      exact hsides hg
    · rw [k.file_setFile_ne h] at hg ⊢
      exact hk.sides g hg
  freed := hk.freed
  untouched := hk.untouched

theorem ActOk.setFile (hk : k.Ok)
    (hown : x.ref + p.own f = (k.file f).ref + p'.own f) (hne : ∀ g, g ≠ f → p'.own g = p.own g)
    (htokens : ∀ q, x.ends q + p'.pc.tokens.count q = (k.file f).ends q + p.pc.tokens.count q)
    (hforeign : p.own f = 0 → (k.file f).ref = 0)
    (hshared : p.own f < (k.file f).ref → x.type = (k.file f).type ∧ x.pipe = (k.file f).pipe)
    (hidle : x.ref = 0 → x.type = .none) (hsides : x.type = .pipe → x.readable = !x.writable)
    (hknows : Knows (k.setFile f x) p') :
    ActOk k p (k.setFile f x) p' where
  count g := by
    by_cases h : g = f
    · rw [h, k.file_setFile_self, hown]
    · rw [k.file_setFile_ne h, hne g h]
  tokens q := by
    have hends := k.ends_setFile f x q
    have hq := htokens q
    change _ + _ + k.due q = _ + _ + k.due q
    omega
  foreign g hg href := by
    have h : g ≠ f := by
      rintro rfl
      have := hforeign hg
      omega
    exact k.file_setFile_ne h x
  shared g hg := by
    by_cases h : g = f
    · subst h
      rw [k.file_setFile_self]
      exact hshared hg
    · rw [k.file_setFile_ne h]
      exact ⟨rfl, rfl⟩
  ok := hk.setFile hidle hsides
  knows := hknows

end Xv6.Ftable
