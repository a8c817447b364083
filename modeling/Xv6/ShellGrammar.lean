import Xv6.ShellTokens

/-!
# The grammar of the shell

    Line   ::= Pipe '&'* [';' Line]
    Pipe   ::= Exec ['|' Pipe]
    Exec   ::= '(' Line ')' Redirs | Redirs (word Redirs)*
    Redirs ::= (('<' | '>' | '>>') word)*

A derivation gives the tokens and the command they stand for. The loops of the parser are correct for the
repetitions of the grammar.
-/

namespace Xv6.Sh

open List Option

structure Redir where
  file : List UInt8
  mode : Mode
  fd : ℕ

/-- The redirections around a command, in the order they are met. -/
def wrap (cmd : Cmd) (rs : List Redir) : Cmd := rs.foldl (fun cmd r => .redir cmd r.file r.mode r.fd) cmd

def Tok.isRedir : Tok → Bool
  | .lt | .gt | .append => true
  | _ => false

/-- What a redirection does to the command. -/
def Tok.redir (t : Tok) (q : List UInt8) : Redir :=
  match t with
  | .lt => ⟨q, .rdonly, 0⟩
  | _ => ⟨q, .wronlyCreate, 1⟩

inductive Redirs : List Tok → List Redir → Prop
  | nil : Redirs [] []
  | cons {t q ts rs} (ht : t.isRedir = true) (h : Redirs ts rs) :
      Redirs (t :: .word q :: ts) (t.redir q :: rs)

/-- The words of a simple command and the redirections between them. -/
inductive Words : List Tok → List Redir → List (List UInt8) → Prop
  | nil : Words [] [] []
  | cons {q ts rs ts' rs' ws} (hr : Redirs ts rs) (hw : Words ts' rs' ws) :
      Words (.word q :: (ts ++ ts')) (rs ++ rs') (q :: ws)

inductive Kind
  | line
  | pipe
  | exec

/-- A command in the background once for every `&`. -/
def backs (k : ℕ) (cmd : Cmd) : Cmd := Cmd.back^[k] cmd

inductive Derives : Kind → List Tok → Cmd → Prop
  | line {ts c} (k : ℕ) (hp : Derives .pipe ts c) :
      Derives .line (ts ++ List.replicate k .amp) (backs k c)
  | list {ts c ts' c'} (k : ℕ) (hp : Derives .pipe ts c) (hl : Derives .line ts' c') :
      Derives .line (ts ++ List.replicate k .amp ++ .semi :: ts') (.list (backs k c) c')
  | command {ts c} (he : Derives .exec ts c) : Derives .pipe ts c
  | pipe {ts c ts' c'} (he : Derives .exec ts c) (hp : Derives .pipe ts' c') :
      Derives .pipe (ts ++ .pipe :: ts') (.pipe c c')
  | block {ts c ts' rs} (hl : Derives .line ts c) (hr : Redirs ts' rs) :
      Derives .exec (.lparen :: ts ++ .rparen :: ts') (wrap c rs)
  | exec {ts rs ts' rs' ws} (hr : Redirs ts rs) (hw : Words ts' rs' ws) (hn : ws.length ≤ MAXARGS - 1) :
      Derives .exec (ts ++ ts') (wrap (.exec ws) (rs ++ rs'))

/-! ## Commands and trees -/

variable {cmd : Cmd} {q : List UInt8} {rs : List Redir} {s : List UInt8} {n : ℕ}

variable {m : Parse} {f : Cmd × List UInt8 → Parse} {Q R : Cmd → List UInt8 → Prop}
  {rest ts : List Tok} {t : Tok} {argc : ℕ}

theorem wrap_append (cmd : Cmd) (rs rs' : List Redir) : wrap cmd (rs ++ rs') = wrap (wrap cmd rs) rs' :=
  foldl_append

theorem addArg_wrap (q : List UInt8) (cmd : Cmd) (rs : List Redir) :
    (wrap cmd rs).addArg q = wrap (cmd.addArg q) rs := by
  induction rs generalizing cmd with
  | nil => rfl
  | cons r rs ih => exact ih _

theorem backs_succ (k : ℕ) (cmd : Cmd) : backs (k + 1) cmd = backs k (.back cmd) :=
  Function.iterate_succ_apply _ k cmd

/-! ## What `peek` sees -/

def Tok.isStop : Tok → Bool
  | .pipe | .rparen | .amp | .semi => true
  | _ => false

theorem peek_any {toks : List UInt8} {p : Tok → Bool} (htoks : ∀ c ∈ toks, symbols.contains c)
    (hp : ∀ t, Tok.isIn toks t = p t) (s : List UInt8) :
    peek s toks = ((tokens s).head?.any p, skip s) := by
  rw [peek_eq htoks, funext hp]

theorem peek_amp (s : List UInt8) : peek s [ch '&'] = ((tokens s).head?.any (· = .amp), skip s) :=
  peek_any (by simp [symbols]) (fun t => by cases t <;> rfl) s

theorem peek_semi (s : List UInt8) : peek s [ch ';'] = ((tokens s).head?.any (· = .semi), skip s) :=
  peek_any (by simp [symbols]) (fun t => by cases t <;> rfl) s

theorem peek_pipe (s : List UInt8) : peek s [ch '|'] = ((tokens s).head?.any (· = .pipe), skip s) :=
  peek_any (by simp [symbols]) (fun t => by cases t <;> rfl) s

theorem peek_lparen (s : List UInt8) : peek s [ch '('] = ((tokens s).head?.any (· = .lparen), skip s) :=
  peek_any (by simp [symbols]) (fun t => by cases t <;> rfl) s

theorem peek_rparen (s : List UInt8) : peek s [ch ')'] = ((tokens s).head?.any (· = .rparen), skip s) :=
  peek_any (by simp [symbols]) (fun t => by cases t <;> rfl) s

theorem peek_redir (s : List UInt8) : peek s [ch '<', ch '>'] = ((tokens s).head?.any Tok.isRedir, skip s) :=
  peek_any (by simp [symbols]) (fun t => by cases t <;> rfl) s

theorem peek_stop (s : List UInt8) :
    peek s [ch '|', ch ')', ch '&', ch ';'] = ((tokens s).head?.any Tok.isStop, skip s) :=
  peek_any (by simp [symbols]) (fun t => by cases t <;> rfl) s

/-! ## Outcomes -/

/-- The parser does not run out of depth, and a command it returns satisfies the postcondition. -/
def Post (Q : Cmd → List UInt8 → Prop) : Parse → Prop
  | .ok (cmd, s) => Q cmd s
  | .error (.panic _) => True
  | .error .depth => False

theorem Post.bind (h : Post Q m)
    (hf : ∀ cmd s, Q cmd s → Post R (f (cmd, s))) : Post R (m >>= f) := by
  match m, h with
  | .ok (cmd, s), h => exact hf cmd s h
  | .error (.panic _), _ => exact trivial

theorem Post.mono (h : Post Q m) (hqr : ∀ cmd s, Q cmd s → R cmd s) : Post R m := by
  match m, h with
  | .ok (cmd, s), h => exact hqr cmd s h
  | .error (.panic _), _ => exact trivial

def Returns (m : Parse) (cmd : Cmd) (rest : List Tok) : Prop :=
  ∃ s, m = .ok (cmd, s) ∧ tokens s = rest

theorem Returns.bind {cmd' : Cmd} {rest' : List Tok}
    (h : Returns m cmd rest) (hf : ∀ s, tokens s = rest → Returns (f (cmd, s)) cmd' rest') :
    Returns (m >>= f) cmd' rest' := by
  obtain ⟨s, rfl, hs⟩ := h
  exact hf s hs

/-! ## Redirections -/

theorem tokens_next_of_cons (h : tokens s = t :: ts) : tokens (next s) = ts := by
  rw [tokens_next, h]
  rfl

theorem parseredirs_stop (h : (tokens s).head?.any Tok.isRedir = false) :
    parseredirs (n + 1) cmd s = .ok (cmd, skip s) := by
  rw [parseredirs, peek_redir, h]
  rfl

theorem parseredirs_missing (h : tokens s = t :: ts) (ht : t.isRedir = true)
    (hts : ∀ q ts', ts ≠ .word q :: ts') :
    parseredirs (n + 1) cmd s = .error (.panic "missing file for redirection") := by
  have hnext := tokens_next_of_cons h
  rw [parseredirs, peek_redir, h, List.head?_cons, any_some, ht]
  simp only [gettoken_skip, gettoken_eq s, gettoken_eq (next s), hnext, if_true]
  split
  · next q s' heq =>
    have hhead := (Prod.mk.inj heq).1
    obtain ⟨ts', rfl⟩ := List.head?_eq_some_iff.1 hhead
    exact absurd rfl (hts q ts')
  · rfl

theorem parseredirs_step (h : tokens s = t :: .word q :: ts) (ht : t.isRedir = true) :
    parseredirs (n + 1) cmd s = parseredirs n (wrap cmd [t.redir q]) (next (next s)) := by
  have hnext := tokens_next_of_cons h
  rw [parseredirs, peek_redir, h, List.head?_cons, any_some, ht]
  simp only [gettoken_skip, gettoken_eq s, gettoken_eq (next s), hnext, h, if_true, List.head?_cons]
  cases t <;> first | rfl | cases ht

theorem parseredirs_sound (hn : (tokens s).length < n) : Post (fun c s' => ∃ ts rs, Redirs ts rs ∧
    c = wrap cmd rs ∧ tokens s = ts ++ tokens s') (parseredirs n cmd s) := by
  induction n generalizing cmd s with
  | zero => omega
  | succ n ih =>
    by_cases hstop : (tokens s).head?.any Tok.isRedir = false
    · rw [parseredirs_stop hstop]
      exact ⟨[], [], .nil, rfl, by rw [tokens_skip]; rfl⟩
    · obtain ⟨t, ht, hr⟩ := (any_eq_true _ _).1 (Bool.eq_true_of_not_eq_false hstop)
      obtain ⟨ts, hts⟩ := List.head?_eq_some_iff.1 ht
      by_cases hw : ∃ q ts', ts = .word q :: ts'
      · obtain ⟨q, ts', rfl⟩ := hw
        have hrest : tokens (next (next s)) = ts' := tokens_next_of_cons (tokens_next_of_cons hts)
        rw [parseredirs_step hts hr]
        have hlen : (tokens (next (next s))).length < n := by
          rw [hts, length_cons, length_cons] at hn
          rw [hrest]
          omega
        refine (ih hlen).mono ?_
        rintro c s' ⟨ts₁, rs, hrs, rfl, htok⟩
        exact ⟨_, _, .cons hr hrs, rfl, by rw [hts, ← hrest, htok]; rfl⟩
      · rw [parseredirs_missing hts hr fun q ts' h => hw ⟨q, ts', h⟩]
        trivial

theorem parseredirs_complete (cmd : Cmd) (h : Redirs ts rs) (hs : tokens s = ts ++ rest)
    (hrest : rest.head?.any Tok.isRedir = false) (hn : ts.length < n) :
    Returns (parseredirs n cmd s) (wrap cmd rs) rest := by
  induction h generalizing n cmd s with
  | nil =>
    obtain ⟨n, rfl⟩ : ∃ m, n = m + 1 := ⟨n - 1, by omega⟩
    exact ⟨_, parseredirs_stop (by rw [hs]; exact hrest), by rw [tokens_skip]; exact hs⟩
  | cons ht h ih =>
    obtain ⟨n, rfl⟩ : ∃ m, n = m + 1 := ⟨n - 1, by omega⟩
    rw [length_cons, length_cons] at hn
    rw [parseredirs_step hs ht]
    exact ih _ (tokens_next_of_cons (tokens_next_of_cons hs)) (by omega)

/-! ## Words -/

theorem parseargs_stop (n : ℕ) (cmd : Cmd) (argc : ℕ) (h : (tokens s).head?.all Tok.isStop = true) :
    Returns (parseargs (n + 1) cmd argc s) cmd (tokens s) := by
  rw [parseargs, peek_stop]
  cases hts : tokens s with
  | nil =>
    simp only [gettoken_skip, gettoken_eq s, hts]
    exact ⟨_, rfl, by rw [tokens_next, hts]; rfl⟩
  | cons t ts =>
    rw [hts] at h
    simp only [List.head?_cons, any_some, show t.isStop = true from h]
    exact ⟨_, rfl, by rw [tokens_skip, hts]⟩

theorem parseargs_step (h : tokens s = .word q :: ts) :
    parseargs (n + 1) cmd argc s = if argc + 1 ≥ MAXARGS then .error (.panic "too many args") else
      parseredirs n (cmd.addArg q) (next s) >>= fun r => parseargs n r.1 (argc + 1) r.2 := by
  rw [parseargs, peek_stop]
  simp only [gettoken_skip, gettoken_eq s, h]
  rfl

theorem parseargs_grammatical (h : tokens s = t :: ts) (ht : t.isStop = false)
    (hw : ∀ q, t ≠ .word q) : parseargs (n + 1) cmd argc s = .error (.panic "syntax") := by
  rw [parseargs, peek_stop]
  simp only [gettoken_skip, gettoken_eq s, h, List.head?_cons, any_some, ht]
  cases t <;> first | rfl | exact absurd rfl (hw _)

theorem parseargs_sound (ws : List (List UInt8)) (rs : List Redir) (hn : (tokens s).length < n)
    (hws : ws.length ≤ MAXARGS - 1) : Post (fun c s' => ∃ ts rs' ws', Words ts rs' ws' ∧
      (ws ++ ws').length ≤ MAXARGS - 1 ∧ c = wrap (.exec (ws ++ ws')) (rs ++ rs') ∧
      tokens s = ts ++ tokens s') (parseargs n (wrap (.exec ws) rs) ws.length s) := by
  induction n generalizing ws rs s with
  | zero => omega
  | succ n ih =>
    by_cases hstop : (tokens s).head?.all Tok.isStop = true
    · obtain ⟨s', hret, hs'⟩ := parseargs_stop n (wrap (.exec ws) rs) ws.length hstop
      rw [hret]
      exact ⟨[], [], [], .nil, by simpa using hws, by simp, hs'.symm⟩
    cases hts : tokens s with
    | nil =>
      rw [hts] at hstop
      exact absurd rfl hstop
    | cons t ts =>
      rw [hts, List.head?_cons, all_some, Bool.not_eq_true] at hstop
      by_cases hw : ∃ q, t = .word q
      · obtain ⟨q, rfl⟩ := hw
        have hnext := tokens_next_of_cons hts
        rw [hts, length_cons] at hn
        rw [parseargs_step hts, addArg_wrap]
        split
        · trivial
        refine (parseredirs_sound (by rw [hnext]; omega)).bind ?_
        rintro c s₁ ⟨ts₁, rs₁, hrs₁, rfl, htok₁⟩
        have hlen₁ : (tokens s₁).length < n := by
          rw [hnext] at htok₁
          rw [htok₁, length_append] at hn
          omega
        rw [← wrap_append]
        have hws' : (ws ++ [q]).length = ws.length + 1 := by simp
        rw [← hws']
        refine (ih _ _ hlen₁ (by rw [hws']; omega)).mono ?_
        rintro c s₂ ⟨ts₂, rs₂, ws₂, hw₂, hlen₂, rfl, htok₂⟩
        refine ⟨_, _, _, .cons (q := q) hrs₁ hw₂, ?_, ?_, ?_⟩
        · simpa using hlen₂
        · simp
        · rw [← hnext, htok₁, htok₂]
          simp
      · rw [parseargs_grammatical hts hstop fun q h => hw ⟨q, h⟩]
        trivial

theorem parseargs_complete {ws ws' : List (List UInt8)} {rs' : List Redir}
    (h : Words ts rs' ws') (hs : tokens s = ts ++ rest) (hrest : rest.head?.all Tok.isStop = true)
    (hn : ts.length < n) (hlen : (ws ++ ws').length ≤ MAXARGS - 1) :
    Returns (parseargs n (wrap (.exec ws) rs) ws.length s) (wrap (.exec (ws ++ ws')) (rs ++ rs')) rest := by
  induction h generalizing n ws rs s with
  | nil =>
    obtain ⟨n, rfl⟩ : ∃ m, n = m + 1 := ⟨n - 1, by omega⟩
    rw [append_nil, append_nil, ← show tokens s = rest from hs]
    exact parseargs_stop n _ _ (by rw [hs]; exact hrest)
  | @cons q ts₁ rs₁ ts₂ rs₂ ws₂ hr hw ih =>
    obtain ⟨n, rfl⟩ : ∃ m, n = m + 1 := ⟨n - 1, by omega⟩
    rw [length_cons, length_append] at hn
    rw [length_append, length_cons] at hlen
    rw [parseargs_step hs, addArg_wrap, if_neg (by omega)]
    have hfirst : ((ts₂ ++ rest).head?).any Tok.isRedir = false := by
      cases hw with
      | nil =>
        cases rest with
        | nil => rfl
        | cons t rest =>
          cases t <;> first | rfl | cases hrest
      | cons => rfl
    have hs' : tokens (next s) = ts₁ ++ (ts₂ ++ rest) := by
      rw [tokens_next_of_cons hs]
      exact append_assoc _ _ _
    refine (parseredirs_complete (wrap (.exec (ws ++ [q])) rs) hr hs' hfirst (by omega)).bind fun s₁ hs₁ => ?_
    have hrec : Returns (parseargs n (wrap (.exec (ws ++ [q])) (rs ++ rs₁)) (ws ++ [q]).length s₁)
        (wrap (.exec (ws ++ [q] ++ ws₂)) (rs ++ rs₁ ++ rs₂)) rest :=
      ih hs₁ (by omega) (by simp at hlen ⊢; omega)
    simpa [wrap_append] using hrec

/-! ## Background -/

theorem parsebacks_stop (h : (tokens s).head?.any (· = .amp) = false) :
    parsebacks (n + 1) cmd s = .ok (cmd, skip s) := by
  rw [parsebacks, peek_amp, h]
  rfl

theorem parsebacks_step (h : tokens s = .amp :: ts) :
    parsebacks (n + 1) cmd s = parsebacks n (.back cmd) (next s) := by
  rw [parsebacks, peek_amp, h]
  simp only [gettoken_skip, gettoken_eq s]
  rfl

theorem parsebacks_sound (hn : (tokens s).length < n) : Post (fun c s' => ∃ k, c = backs k cmd ∧
    tokens s = List.replicate k .amp ++ tokens s') (parsebacks n cmd s) := by
  induction n generalizing cmd s with
  | zero => omega
  | succ n ih =>
    by_cases hstop : (tokens s).head?.any (· = .amp) = false
    · rw [parsebacks_stop hstop]
      exact ⟨0, rfl, by rw [tokens_skip]; rfl⟩
    · obtain ⟨t, ht, hamp⟩ := (any_eq_true _ _).1 (Bool.eq_true_of_not_eq_false hstop)
      obtain ⟨ts, hts⟩ := List.head?_eq_some_iff.1 ht
      obtain rfl : t = .amp := by simpa using hamp
      have hnext := tokens_next_of_cons hts
      rw [hts, length_cons] at hn
      rw [parsebacks_step hts]
      refine (ih (by rw [hnext]; omega)).mono ?_
      rintro c s' ⟨k, rfl, htok⟩
      refine ⟨k + 1, (backs_succ k cmd).symm, ?_⟩
      rw [hts, ← hnext, htok, replicate_succ]
      rfl

theorem parsebacks_complete {k : ℕ} (hs : tokens s = List.replicate k .amp ++ rest)
    (hrest : rest.head?.any (· = .amp) = false) (hn : k < n) :
    Returns (parsebacks n cmd s) (backs k cmd) rest := by
  induction k generalizing n cmd s with
  | zero =>
    obtain ⟨n, rfl⟩ : ∃ m, n = m + 1 := ⟨n - 1, by omega⟩
    exact ⟨_, parsebacks_stop (by rw [hs]; exact hrest), by rw [tokens_skip]; exact hs⟩
  | succ k ih =>
    obtain ⟨n, rfl⟩ : ∃ m, n = m + 1 := ⟨n - 1, by omega⟩
    rw [replicate_succ] at hs
    rw [parsebacks_step hs, backs_succ]
    exact ih (tokens_next_of_cons hs) (by omega)

end Xv6.Sh
