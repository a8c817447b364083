import Xv6.ShellModel

/-!
# The tokens of a line

`gettoken` takes the first token from the list of tokens of the rest of the line, and `peek` looks at it.
-/

namespace Xv6.Sh

variable {s r toks : List UInt8} {c : UInt8} {t : Tok}

theorem skip_length_le (s : List UInt8) : (skip s).length ≤ s.length :=
  (List.dropWhile_suffix _).length_le

theorem skip_skip (s : List UInt8) : skip (skip s) = skip s := List.dropWhile_idempotent _ s

def Tok.char : Tok → Option UInt8
  | .pipe => some (ch '|')
  | .lparen => some (ch '(')
  | .rparen => some (ch ')')
  | .semi => some (ch ';')
  | .amp => some (ch '&')
  | .lt => some (ch '<')
  | .gt => some (ch '>')
  | .append => some (ch '>')
  | .word _ => none

theorem gettoken_of_nil (h : skip s = []) : gettoken s = (none, []) := by
  simp only [gettoken, h]

theorem gettoken_of_cons (h : skip s = c :: r) : ∃ t r', gettoken s = (some t, r') ∧
    r'.length < s.length ∧ t.char = if symbols.contains c then some c else none := by
  have hlen : r.length < s.length := by
    have := skip_length_le s
    rw [h, List.length_cons] at this
    omega
  have hr := skip_length_le r
  simp only [gettoken, h]
  by_cases h₁ : c = ch '|'
  · exact ⟨.pipe, skip r, by rw [if_pos h₁], by omega, by subst h₁; rfl⟩
  by_cases h₂ : c = ch '('
  · exact ⟨.lparen, skip r, by rw [if_neg h₁, if_pos h₂], by omega, by subst h₂; rfl⟩
  by_cases h₃ : c = ch ')'
  · exact ⟨.rparen, skip r, by rw [if_neg h₁, if_neg h₂, if_pos h₃], by omega, by subst h₃; rfl⟩
  by_cases h₄ : c = ch ';'
  · exact ⟨.semi, skip r, by rw [if_neg h₁, if_neg h₂, if_neg h₃, if_pos h₄], by omega, by subst h₄; rfl⟩
  by_cases h₅ : c = ch '&'
  · exact ⟨.amp, skip r, by rw [if_neg h₁, if_neg h₂, if_neg h₃, if_neg h₄, if_pos h₅], by omega,
      by subst h₅; rfl⟩
  by_cases h₆ : c = ch '<'
  · exact ⟨.lt, skip r, by rw [if_neg h₁, if_neg h₂, if_neg h₃, if_neg h₄, if_neg h₅, if_pos h₆], by omega,
      by subst h₆; rfl⟩
  rw [if_neg h₁, if_neg h₂, if_neg h₃, if_neg h₄, if_neg h₅, if_neg h₆]
  by_cases h₇ : c = ch '>'
  · rw [if_pos h₇]
    subst h₇
    cases r with
    | nil => exact ⟨.gt, [], rfl, by simp at hlen ⊢; omega, rfl⟩
    | cons c' r' =>
      dsimp only
      by_cases hc' : c' = ch '>'
      · have := skip_length_le r'
        rw [List.length_cons] at hlen
        exact ⟨.append, skip r', by rw [if_pos hc'], by omega, rfl⟩
      · exact ⟨.gt, skip (c' :: r'), by rw [if_neg hc'], by omega, rfl⟩
  · rw [if_neg h₇]
    have hsym : symbols.contains c = false := by
      simp [symbols, h₁, h₂, h₃, h₄, h₅, h₆, h₇]
    have hspace : whitespace.contains c = false := by
      have hhead := List.head?_dropWhile_not (fun c => whitespace.contains c) s
      rw [show s.dropWhile (fun c => whitespace.contains c) = c :: r from h] at hhead
      simpa using hhead
    have hword : wordChar c = true := by rw [wordChar, hsym, hspace]; rfl
    refine ⟨_, _, rfl, ?_, by rw [hsym]; rfl⟩
    have hdrop : (c :: r).dropWhile wordChar = r.dropWhile wordChar := by
      rw [List.dropWhile_cons_of_pos hword]
    rw [hdrop]
    have h1 := skip_length_le (r.dropWhile wordChar)
    have h2 := (List.dropWhile_suffix (l := r) wordChar).length_le
    omega

theorem gettoken_lt (h : gettoken s = (some t, r)) : r.length < s.length := by
  cases hs : skip s with
  | nil =>
    rw [gettoken_of_nil hs] at h
    simp at h
  | cons c r' =>
    obtain ⟨t', r'', hg, hlt, -⟩ := gettoken_of_cons hs
    rw [hg] at h
    obtain ⟨-, rfl⟩ := Prod.mk.inj h
    exact hlt

/-- The line as a list of tokens. -/
def tokens (s : List UInt8) : List Tok :=
  match _h : gettoken s with
  | (none, _) => []
  | (some t, r) => t :: tokens r
termination_by s.length
decreasing_by exact gettoken_lt _h

def next (s : List UInt8) : List UInt8 := (gettoken s).2

theorem tokens_cons (h : gettoken s = (some t, r)) : tokens s = t :: tokens r := by
  rw [tokens]
  split
  · next h' => rw [h'] at h; simp at h
  · next h' =>
    rw [h'] at h
    obtain ⟨ht, rfl⟩ := Prod.mk.inj h
    rw [Option.some.inj ht]

theorem tokens_nil (h : skip s = []) : tokens s = [] := by
  rw [tokens]
  split
  · rfl
  · next h' =>
    rw [gettoken_of_nil h] at h'
    simp at h'

theorem gettoken_eq (s : List UInt8) : gettoken s = ((tokens s).head?, next s) := by
  cases hs : skip s with
  | nil =>
    rw [tokens_nil hs, next, gettoken_of_nil hs]
    rfl
  | cons c r =>
    obtain ⟨t, r', hg, -, -⟩ := gettoken_of_cons hs
    rw [tokens_cons hg, next, hg]
    rfl

theorem tokens_next (s : List UInt8) : tokens (next s) = (tokens s).tail := by
  cases hs : skip s with
  | nil =>
    rw [tokens_nil hs, next, gettoken_of_nil hs]
    exact tokens_nil rfl
  | cons c r =>
    obtain ⟨t, r', hg, -, -⟩ := gettoken_of_cons hs
    rw [tokens_cons hg, next, hg]
    rfl

theorem gettoken_skip (s : List UInt8) : gettoken (skip s) = gettoken s := by
  simp only [gettoken, skip_skip]

theorem next_skip (s : List UInt8) : next (skip s) = next s := by rw [next, gettoken_skip, next]

theorem tokens_skip (s : List UInt8) : tokens (skip s) = tokens s := by
  cases hs : skip s with
  | nil => rw [tokens_nil hs, tokens_nil rfl]
  | cons c r =>
    obtain ⟨t, r', hg, -, -⟩ := gettoken_of_cons hs
    rw [tokens_cons hg, ← hs]
    exact tokens_cons ((gettoken_skip s).trans hg)

theorem skip_eq_nil : skip s = [] ↔ tokens s = [] := by
  refine ⟨tokens_nil, fun h => ?_⟩
  cases hs : skip s with
  | nil => rfl
  | cons c r =>
    obtain ⟨t, r', hg, -, -⟩ := gettoken_of_cons hs
    rw [tokens_cons hg] at h
    simp at h

theorem tokens_length_le (s : List UInt8) : (tokens s).length ≤ s.length := by
  induction hl : s.length using Nat.strong_induction_on generalizing s with
  | h l ih =>
    cases hs : skip s with
    | nil =>
      rw [tokens_nil hs]
      exact Nat.zero_le _
    | cons c r =>
      obtain ⟨t, r', hg, hlt, -⟩ := gettoken_of_cons hs
      have := ih _ (by omega) r' rfl
      rw [tokens_cons hg, List.length_cons]
      omega

def Tok.isIn (toks : List UInt8) (t : Tok) : Bool := t.char.any toks.contains

theorem peek_eq (htoks : ∀ c ∈ toks, symbols.contains c) (s : List UInt8) :
    peek s toks = ((tokens s).head?.any (Tok.isIn toks), skip s) := by
  cases hs : skip s with
  | nil => simp [peek, hs, tokens_nil hs]
  | cons c r =>
    obtain ⟨t, r', hg, -, hchar⟩ := gettoken_of_cons hs
    have hin : Tok.isIn toks t = toks.contains c := by
      unfold Tok.isIn
      rw [hchar]
      by_cases hsym : symbols.contains c = true
      · rw [if_pos hsym]
        rfl
      · rw [if_neg hsym]
        have hno : c ∉ toks := fun hc => hsym (htoks c hc)
        simp [hno]
    simp only [peek, hs, tokens_cons hg, List.head?_cons, Option.any_some, hin]

end Xv6.Sh
