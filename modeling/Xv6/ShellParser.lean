import Xv6.ShellGrammar

/-!
# The parser accepts its grammar

Every function of the parser consumes the tokens of a derivation and returns its command (soundness), and
on the tokens of a derivation with a fitting token behind them it finds that derivation (completeness).
-/

namespace Xv6.Sh

open List Kind

variable {s : List UInt8} {n : ℕ}

/-! ## One call -/

variable {p q : Tok → Bool} {ts rest ts' : List Tok} {rs : List Redir} {ws : List (List UInt8)}
  {c c' : Cmd}

theorem parseline_succ (n : ℕ) (s : List UInt8) : parseline (n + 1) s =
    parsepipe n s >>= fun r => parsebacks n r.1 r.2 >>= fun r =>
      if (tokens r.2).head?.any (· = .semi) then
        parseline n (next r.2) >>= fun r' => .ok (.list r.1 r'.1, r'.2)
      else .ok (r.1, skip r.2) := by
  simp only [parseline, peek_semi, gettoken_skip]
  rfl

theorem parsepipe_succ (n : ℕ) (s : List UInt8) : parsepipe (n + 1) s =
    parseexec n s >>= fun r =>
      if (tokens r.2).head?.any (· = .pipe) then
        parsepipe n (next r.2) >>= fun r' => .ok (.pipe r.1 r'.1, r'.2)
      else .ok (r.1, skip r.2) := by
  simp only [parsepipe, peek_pipe, gettoken_skip]
  rfl

theorem parseblock_succ (n : ℕ) (s : List UInt8) : parseblock (n + 1) s =
    if (tokens s).head?.any (· = .lparen) then
      parseline n (next s) >>= fun r =>
        if (tokens r.2).head?.any (· = .rparen) then parseredirs n r.1 (next r.2)
        else .error (.panic "syntax - missing )")
    else .error (.panic "parseblock") := by
  simp only [parseblock, peek_lparen, peek_rparen, gettoken_skip]
  cases (tokens s).head?.any (· = .lparen)
  · rfl
  · simp only [not_true, if_true, if_false]
    congr 1
    funext r
    cases (tokens r.2).head?.any (· = .rparen) <;> rfl

theorem parseexec_succ (n : ℕ) (s : List UInt8) : parseexec (n + 1) s =
    if (tokens s).head?.any (· = .lparen) then parseblock n (skip s)
    else parseredirs n (.exec []) (skip s) >>= fun r => parseargs n r.1 0 r.2 := by
  simp only [parseexec, peek_lparen]

theorem cons_of_any (h : ts.head?.any p = true) : ∃ t ts', ts = t :: ts' ∧ p t = true := by
  obtain ⟨t, ht, hp⟩ := (Option.any_eq_true _ _).1 h
  obtain ⟨ts', hts⟩ := List.head?_eq_some_iff.1 ht
  exact ⟨t, ts', hts, hp⟩

theorem tokens_of_any {t : Tok} (h : (tokens s).head?.any (· = t) = true) :
    tokens s = t :: tokens (next s) := by
  obtain ⟨t', ts, hts, ht⟩ := cons_of_any h
  obtain rfl : t' = t := by simpa using ht
  rw [tokens_next, hts]
  rfl

/-! ## Soundness -/

def Parsed (k : Kind) (s : List UInt8) (cmd : Cmd) (s' : List UInt8) : Prop :=
  ∃ ts, Derives k ts cmd ∧ tokens s = ts ++ tokens s'

theorem parseline_step (hpipe : ∀ s, 4 * (tokens s).length + 3 ≤ n → Post (Parsed .pipe s) (parsepipe n s))
    (hline : ∀ s, 4 * (tokens s).length + 4 ≤ n → Post (Parsed .line s) (parseline n s))
    (hn : 4 * (tokens s).length + 4 ≤ n + 1) : Post (Parsed .line s) (parseline (n + 1) s) := by
  rw [parseline_succ]
  refine (hpipe s (by omega)).bind ?_
  rintro c s₁ ⟨ts, hts, htok⟩
  dsimp only
  have hlen₁ : (tokens s).length = ts.length + (tokens s₁).length := by rw [htok, length_append]
  refine (parsebacks_sound (by omega)).bind ?_
  rintro c' s₂ ⟨k, rfl, htok₂⟩
  dsimp only
  by_cases hsemi : (tokens s₂).head?.any (· = .semi) = true
  · have htok₃ := tokens_of_any hsemi
    have hlen₂ : (tokens s₁).length = k + ((tokens (next s₂)).length + 1) := by
      rw [htok₂, htok₃, length_append, length_replicate, length_cons]
    rw [if_pos hsemi]
    refine (hline _ (by omega)).bind ?_
    rintro c' s₄ ⟨ts', hts', htok₄⟩
    refine ⟨_, .list k hts hts', ?_⟩
    rw [htok, htok₂, htok₃, htok₄]
    simp
  · rw [if_neg hsemi]
    refine ⟨_, .line k hts, ?_⟩
    rw [htok, htok₂, tokens_skip]
    simp

theorem parsepipe_step (hexec : ∀ s, 4 * (tokens s).length + 2 ≤ n → Post (Parsed .exec s) (parseexec n s))
    (hpipe : ∀ s, 4 * (tokens s).length + 3 ≤ n → Post (Parsed .pipe s) (parsepipe n s))
    (hn : 4 * (tokens s).length + 3 ≤ n + 1) : Post (Parsed .pipe s) (parsepipe (n + 1) s) := by
  rw [parsepipe_succ]
  refine (hexec s (by omega)).bind ?_
  rintro c s₁ ⟨ts, hts, htok⟩
  dsimp only
  by_cases hbar : (tokens s₁).head?.any (· = .pipe) = true
  · have htok₁ := tokens_of_any hbar
    have hlen : (tokens s).length = ts.length + ((tokens (next s₁)).length + 1) := by
      rw [htok, htok₁, length_append, length_cons]
    rw [if_pos hbar]
    refine (hpipe _ (by omega)).bind ?_
    rintro c' s₂ ⟨ts', hts', htok₂⟩
    refine ⟨_, .pipe hts hts', ?_⟩
    rw [htok, htok₁, htok₂]
    simp
  · rw [if_neg hbar]
    exact ⟨_, .command hts, by rw [htok, tokens_skip]⟩

theorem parseblock_step (hline : ∀ s, 4 * (tokens s).length + 4 ≤ n → Post (Parsed .line s) (parseline n s))
    (hn : 4 * (tokens s).length + 1 ≤ n + 1) : Post (Parsed .exec s) (parseblock (n + 1) s) := by
  rw [parseblock_succ]
  by_cases hl : (tokens s).head?.any (· = .lparen) = true
  · have htok := tokens_of_any hl
    have hlen : (tokens s).length = (tokens (next s)).length + 1 := by rw [htok, length_cons]
    rw [if_pos hl]
    refine (hline _ (by omega)).bind ?_
    rintro c s₁ ⟨ts, hts, htok₁⟩
    dsimp only
    by_cases hr : (tokens s₁).head?.any (· = .rparen) = true
    · have htok₂ := tokens_of_any hr
      have hlen₁ : (tokens (next s)).length = ts.length + ((tokens (next s₁)).length + 1) := by
        rw [htok₁, htok₂, length_append, length_cons]
      rw [if_pos hr]
      refine (parseredirs_sound (by omega)).mono ?_
      rintro c' s₂ ⟨ts', rs, hrs, rfl, htok₃⟩
      refine ⟨_, .block hts hrs, ?_⟩
      rw [htok, htok₁, htok₂, htok₃]
      simp
    · rw [if_neg hr]
      trivial
  · rw [if_neg hl]
    trivial

theorem parseexec_step (hblock : ∀ s, 4 * (tokens s).length + 1 ≤ n → Post (Parsed .exec s) (parseblock n s))
    (hn : 4 * (tokens s).length + 2 ≤ n + 1) : Post (Parsed .exec s) (parseexec (n + 1) s) := by
  rw [parseexec_succ]
  by_cases hl : (tokens s).head?.any (· = .lparen) = true
  · rw [if_pos hl]
    refine (hblock _ (by rw [tokens_skip]; omega)).mono ?_
    rintro c s' ⟨ts, hts, htok⟩
    exact ⟨ts, hts, by rw [← tokens_skip, htok]⟩
  · rw [if_neg hl]
    refine (parseredirs_sound (by rw [tokens_skip]; omega)).bind ?_
    rintro c s₁ ⟨ts, rs, hrs, rfl, htok⟩
    dsimp only
    rw [tokens_skip] at htok
    have hlen : (tokens s).length = ts.length + (tokens s₁).length := by rw [htok, length_append]
    refine (parseargs_sound [] rs (by omega) (Nat.zero_le _)).mono ?_
    rintro c s₂ ⟨ts', rs', ws, hws, hlen', rfl, htok₁⟩
    refine ⟨_, .exec hrs hws hlen', ?_⟩
    rw [htok, htok₁, append_assoc]

theorem parse_sound (n : ℕ) :
    (∀ s, 4 * (tokens s).length + 4 ≤ n → Post (Parsed .line s) (parseline n s)) ∧
    (∀ s, 4 * (tokens s).length + 3 ≤ n → Post (Parsed .pipe s) (parsepipe n s)) ∧
    (∀ s, 4 * (tokens s).length + 2 ≤ n → Post (Parsed .exec s) (parseexec n s)) ∧
    ∀ s, 4 * (tokens s).length + 1 ≤ n → Post (Parsed .exec s) (parseblock n s) := by
  induction n with
  | zero => exact ⟨fun s h => by omega, fun s h => by omega, fun s h => by omega, fun s h => by omega⟩
  | succ n ih =>
    obtain ⟨hline, hpipe, hexec, hblock⟩ := ih
    exact ⟨fun s => parseline_step hpipe hline, fun s => parsepipe_step hexec hpipe,
      fun s => parseexec_step hblock, fun s => parseblock_step hline⟩

/-! ## Completeness -/

def Kind.follow : Kind → Tok → Bool
  | .line, t => t = .rparen
  | .pipe, t => t = .rparen || t = .amp || t = .semi
  | .exec, t => t.isStop

def Kind.depth : Kind → ℕ
  | .line => 4
  | .pipe => 3
  | .exec => 2

def parse : Kind → ℕ → List UInt8 → Parse
  | .line => parseline
  | .pipe => parsepipe
  | .exec => parseexec

/-- The function for the kind finds the command, whatever fitting token stands behind it. -/
def Finds (k : Kind) (ts : List Tok) (cmd : Cmd) : Prop :=
  ∀ n s rest, tokens s = ts ++ rest → rest.head?.all k.follow = true → 4 * ts.length + k.depth ≤ n →
    Returns (parse k n s) cmd rest

theorem Redirs.head_ne (h : Redirs ts rs) (hp : ∀ t, t.isRedir = true → p t = false)
    (hrest : rest.head?.any p = false) : (ts ++ rest).head?.any p = false := by
  cases h with
  | nil => exact hrest
  | cons ht h => exact hp _ ht

theorem Words.head_ne (h : Words ts rs ws) (hp : ∀ q, p (.word q) = false)
    (hrest : rest.head?.any p = false) : (ts ++ rest).head?.any p = false := by
  cases h with
  | nil => exact hrest
  | cons hr hw => exact hp _

theorem any_of_all (h : ts.head?.all q = true)
    (hpq : ∀ t, q t = true → p t = false) : ts.head?.any p = false := by
  cases ts with
  | nil => rfl
  | cons t ts => exact hpq t h

theorem all_of_all (h : ts.head?.all q = true)
    (hpq : ∀ t, q t = true → p t = true) : ts.head?.all p = true := by
  cases ts with
  | nil => rfl
  | cons t ts => exact hpq t h

theorem Finds.line (k : ℕ) (hp : Finds .pipe ts c) :
    Finds .line (ts ++ List.replicate k .amp) (backs k c) := by
  intro n s rest hs hrest hn
  obtain ⟨n, rfl⟩ : ∃ m, n = m + 1 := ⟨n - 1, by simp only [depth] at hn; omega⟩
  simp only [length_append, length_replicate, depth] at hn
  rw [append_assoc] at hs
  have hfollow : (List.replicate k Tok.amp ++ rest).head?.all pipe.follow = true := by
    cases k with
    | zero => exact all_of_all hrest (by intro t; cases t <;> simp [follow])
    | succ k => rfl
  change Returns (parseline (n + 1) s) _ _
  rw [parseline_succ]
  refine (hp n s _ hs hfollow (by simp only [depth]; omega)).bind fun s₁ hs₁ => ?_
  refine (parsebacks_complete hs₁ (any_of_all hrest ?_) (by omega)).bind fun s₂ hs₂ => ?_
  · intro t
    cases t <;> simp [follow]
  · have hsemi : (tokens s₂).head?.any (· = .semi) = false := by
      rw [hs₂]
      exact any_of_all hrest (by intro t; cases t <;> simp [follow])
    simp only [hsemi]
    exact ⟨_, rfl, by rw [tokens_skip, hs₂]⟩

theorem Finds.list (k : ℕ) (hp : Finds .pipe ts c) (hl : Finds .line ts' c') :
    Finds .line (ts ++ List.replicate k .amp ++ .semi :: ts') (.list (backs k c) c') := by
  intro n s rest hs hrest hn
  obtain ⟨n, rfl⟩ : ∃ m, n = m + 1 := ⟨n - 1, by simp only [depth] at hn; omega⟩
  simp only [length_append, length_replicate, length_cons, depth] at hn
  rw [append_assoc, append_assoc] at hs
  have hfollow : (List.replicate k Tok.amp ++ (Tok.semi :: ts' ++ rest)).head?.all pipe.follow = true := by
    cases k with
    | zero => rfl
    | succ k => rfl
  change Returns (parseline (n + 1) s) _ _
  rw [parseline_succ]
  refine (hp n s _ hs hfollow (by simp only [depth]; omega)).bind fun s₁ hs₁ => ?_
  refine (parsebacks_complete hs₁ rfl (by omega)).bind fun s₂ hs₂ => ?_
  rw [if_pos (by rw [hs₂]; rfl)]
  refine (hl n (next s₂) rest (tokens_next_of_cons hs₂) hrest
    (by simp only [depth]; omega)).bind fun s₃ hs₃ => ?_
  exact ⟨s₃, rfl, hs₃⟩

theorem Finds.command (he : Finds .exec ts c) : Finds .pipe ts c := by
  intro n s rest hs hrest hn
  obtain ⟨n, rfl⟩ : ∃ m, n = m + 1 := ⟨n - 1, by simp only [depth] at hn; omega⟩
  simp only [depth] at hn
  change Returns (parsepipe (n + 1) s) _ _
  rw [parsepipe_succ]
  have hfollow : rest.head?.all exec.follow = true :=
    all_of_all hrest (by intro t; cases t <;> simp [follow, Tok.isStop])
  refine (he n s rest hs hfollow (by simp only [depth]; omega)).bind fun s₁ hs₁ => ?_
  have hbar : (tokens s₁).head?.any (· = .pipe) = false := by
    rw [hs₁]
    exact any_of_all hrest (by intro t; cases t <;> simp [follow])
  simp only [hbar]
  exact ⟨_, rfl, by rw [tokens_skip, hs₁]⟩

theorem Finds.pipe (he : Finds .exec ts c) (hp : Finds .pipe ts' c') :
    Finds .pipe (ts ++ .pipe :: ts') (.pipe c c') := by
  intro n s rest hs hrest hn
  obtain ⟨n, rfl⟩ : ∃ m, n = m + 1 := ⟨n - 1, by simp only [depth] at hn; omega⟩
  simp only [length_append, length_cons, depth] at hn
  rw [append_assoc] at hs
  change Returns (parsepipe (n + 1) s) _ _
  rw [parsepipe_succ]
  refine (he n s _ hs rfl (by simp only [depth]; omega)).bind fun s₁ hs₁ => ?_
  rw [if_pos (by rw [hs₁]; rfl)]
  refine (hp n (next s₁) rest (tokens_next_of_cons hs₁) hrest
    (by simp only [depth]; omega)).bind fun s₂ hs₂ => ?_
  exact ⟨s₂, rfl, hs₂⟩

theorem Finds.block (hl : Finds .line ts c)
    (hr : Redirs ts' rs) : Finds .exec (.lparen :: ts ++ .rparen :: ts') (wrap c rs) := by
  intro n s rest hs hrest hn
  -- one level for `parseexec` and one for `parseblock`
  obtain ⟨n, rfl⟩ : ∃ m, n = m + 1 + 1 := ⟨n - 2, by simp only [depth] at hn; omega⟩
  simp only [cons_append, length_append, length_cons, depth] at hn
  rw [append_assoc] at hs
  have hlparen : (tokens s).head?.any (· = .lparen) = true := by
    rw [hs]
    rfl
  change Returns (parseexec (n + 1 + 1) s) _ _
  rw [parseexec_succ, if_pos hlparen, parseblock_succ, tokens_skip, if_pos hlparen, next_skip]
  refine (hl n (next s) _ (tokens_next_of_cons hs) rfl
    (by simp only [depth]; omega)).bind fun s₁ hs₁ => ?_
  rw [if_pos (by rw [hs₁]; rfl)]
  exact parseredirs_complete c hr (tokens_next_of_cons hs₁)
    (any_of_all hrest (by intro t; cases t <;> simp [follow, Tok.isStop, Tok.isRedir])) (by omega)

theorem Finds.exec {rs' : List Redir} (hr : Redirs ts rs) (hw : Words ts' rs' ws)
    (hws : ws.length ≤ MAXARGS - 1) : Finds .exec (ts ++ ts') (wrap (.exec ws) (rs ++ rs')) := by
  intro n s rest hs hrest hn
  obtain ⟨n, rfl⟩ : ∃ m, n = m + 1 := ⟨n - 1, by simp only [depth] at hn; omega⟩
  simp only [length_append, depth] at hn
  rw [append_assoc] at hs
  have hlparen : (tokens s).head?.any (· = .lparen) = false := by
    rw [hs]
    refine hr.head_ne (by intro t; cases t <;> simp [Tok.isRedir]) ?_
    refine hw.head_ne (by simp) ?_
    exact any_of_all hrest (by intro t; cases t <;> simp [follow, Tok.isStop])
  have hredir : (ts' ++ rest).head?.any Tok.isRedir = false :=
    hw.head_ne (fun q => rfl)
      (any_of_all hrest (by intro t; cases t <;> simp [follow, Tok.isStop, Tok.isRedir]))
  change Returns (parseexec (n + 1) s) _ _
  rw [parseexec_succ, hlparen, if_neg Bool.false_ne_true]
  refine (parseredirs_complete (.exec []) hr ((tokens_skip s).trans hs) hredir
    (by omega)).bind fun s₁ hs₁ => ?_
  exact parseargs_complete hw hs₁ hrest (by omega) (show ([] ++ ws).length ≤ _ from hws)

theorem Derives.finds {k : Kind} {cmd : Cmd} (h : Derives k ts cmd) : Finds k ts cmd := by
  induction h with
  | line k hp ih => exact ih.line k
  | list k hp hl ihp ihl => exact ihp.list k ihl
  | command he ih => exact ih.command
  | pipe he hp ihe ihp => exact ihe.pipe ihp
  | block hl hr ih => exact ih.block hr
  | exec hr hw hn => exact .exec hr hw hn

/-! ## The whole line -/

theorem parsecmd_eq (line : List UInt8) : parsecmd line = parseline (4 * line.length + 4) line >>= fun r =>
    if tokens r.2 = [] then .ok r.1 else .error (.panic "syntax") := by
  have hpeek : ∀ s : List UInt8, (peek s []).2 = skip s := by
    intro s
    unfold peek
    cases skip s <;> rfl
  simp only [parsecmd, hpeek, ne_eq, skip_eq_nil, ite_not]
  rfl

/-- The parser returns on every line, with a command exactly if the tokens derive one, and then with the
command of the derivation. -/
theorem parsecmd_grammar (line : List UInt8) : parsecmd line ≠ .error .depth ∧
    ∀ cmd, parsecmd line = .ok cmd ↔ Derives .line (tokens line) cmd := by
  have hlen := tokens_length_le line
  have hsound := (parse_sound (4 * line.length + 4)).1 line (by omega)
  rw [parsecmd_eq]
  constructor
  · match parseline (4 * line.length + 4) line, hsound with
    | .ok (cmd, s), _ =>
      change (if tokens s = [] then _ else _) ≠ _
      split <;> simp
    | .error (.panic msg), _ => simp [bind, Except.bind]
  · refine fun cmd => ⟨fun h => ?_, fun h => ?_⟩
    · match parseline (4 * line.length + 4) line, hsound, h with
      | .ok (c, s), ⟨ts, hts, htok⟩, h =>
        change (if tokens s = [] then Except.ok c else _) = _ at h
        by_cases hs : tokens s = []
        · rw [if_pos hs] at h
          rw [htok, hs, append_nil, ← Except.ok.inj h]
          exact hts
        · rw [if_neg hs] at h
          cases h
      | .error (.panic msg), _, h => cases h
    · obtain ⟨s, hret, hs⟩ := h.finds (4 * line.length + 4) line [] (append_nil _).symm rfl
        (by simp only [depth]; omega)
      rw [show parseline (4 * line.length + 4) line = _ from hret]
      change (if tokens s = [] then Except.ok cmd else _) = _
      rw [if_pos hs]

end Xv6.Sh
