import Mathlib

/-!
# The parser of the shell

`gettoken`, `peek` and the parsing functions of `sh.c` on the rest of the line, without the NUL at its
end. `nulterminate` cuts the line behind every word, so a word in a command is its text. `n` bounds the
depth of calls and loops; `parsecmd` starts with more than any line needs.
-/

namespace Xv6.Sh

abbrev MAXARGS : ℕ := 10

/-- The code of an ASCII character. -/
def ch (c : Char) : UInt8 := UInt8.ofNat c.toNat

def whitespace : List UInt8 := [ch ' ', ch '\t', ch '\r', ch '\n', 11]

def symbols : List UInt8 := [ch '<', ch '|', ch '>', ch '&', ch ';', ch '(', ch ')']

inductive Tok
  | pipe
  | lparen
  | rparen
  | semi
  | amp
  | lt
  | gt
  | append
  | word (text : List UInt8)
  deriving DecidableEq

inductive Mode
  | rdonly
  | wronlyCreate
  deriving DecidableEq

inductive Cmd
  | exec (argv : List (List UInt8))
  | redir (cmd : Cmd) (file : List UInt8) (mode : Mode) (fd : ℕ)
  | pipe (left right : Cmd)
  | list (left right : Cmd)
  | back (cmd : Cmd)
  deriving DecidableEq

/-- `cmd->argv[argc] = q`: the command itself is under the redirections that wrap it. -/
def Cmd.addArg (q : List UInt8) : Cmd → Cmd
  | .exec argv => .exec (argv ++ [q])
  | .redir cmd file mode fd => .redir (cmd.addArg q) file mode fd
  | cmd => cmd

inductive Err
  | panic (msg : String)
  | depth
  deriving DecidableEq

/-! ## Tokens -/

def skip (s : List UInt8) : List UInt8 := s.dropWhile fun c => whitespace.contains c

def wordChar (c : UInt8) : Bool := !whitespace.contains c && !symbols.contains c

/-- The token, or `none` at the end of the line, and the rest of the line. -/
def gettoken (s : List UInt8) : Option Tok × List UInt8 :=
  match skip s with
  | [] => (none, [])
  | c :: r =>
    if c = ch '|' then (some .pipe, skip r)
    else if c = ch '(' then (some .lparen, skip r)
    else if c = ch ')' then (some .rparen, skip r)
    else if c = ch ';' then (some .semi, skip r)
    else if c = ch '&' then (some .amp, skip r)
    else if c = ch '<' then (some .lt, skip r)
    else if c = ch '>' then
      match r with
      | [] => (some .gt, [])
      | c' :: r' => if c' = ch '>' then (some .append, skip r') else (some .gt, skip (c' :: r'))
    else (some (.word ((c :: r).takeWhile wordChar)), skip ((c :: r).dropWhile wordChar))

def peek (s toks : List UInt8) : Bool × List UInt8 :=
  match skip s with
  | [] => (false, [])
  | c :: r => (toks.contains c, c :: r)

/-! ## Commands -/

abbrev Parse := Except Err (Cmd × List UInt8)

def parseredirs : ℕ → Cmd → List UInt8 → Parse
  | 0, _, _ => .error .depth
  | n + 1, cmd, s =>
    let (redir, s) := peek s [ch '<', ch '>']
    if redir then
      let (tok, s) := gettoken s
      match gettoken s with
      | (some (.word q), s) =>
        match tok with
        | some .lt => parseredirs n (.redir cmd q .rdonly 0) s
        | some .gt => parseredirs n (.redir cmd q .wronlyCreate 1) s
        | some .append => parseredirs n (.redir cmd q .wronlyCreate 1) s
        | _ => parseredirs n cmd s
      | _ => .error (.panic "missing file for redirection")
    else .ok (cmd, s)

/-- The loop over the words in `parseexec`. -/
def parseargs : ℕ → Cmd → (argc : ℕ) → List UInt8 → Parse
  | 0, _, _, _ => .error .depth
  | n + 1, ret, argc, s =>
    let (stop, s) := peek s [ch '|', ch ')', ch '&', ch ';']
    if stop then .ok (ret, s)
    else
      match gettoken s with
      | (none, s) => .ok (ret, s)
      | (some (.word q), s) =>
        if argc + 1 ≥ MAXARGS then .error (.panic "too many args")
        else do
          let (ret, s) ← parseredirs n (ret.addArg q) s
          parseargs n ret (argc + 1) s
      | _ => .error (.panic "syntax")

/-- The loop over `&` in `parseline`. -/
def parsebacks : ℕ → Cmd → List UInt8 → Parse
  | 0, _, _ => .error .depth
  | n + 1, cmd, s =>
    let (amp, s) := peek s [ch '&']
    if amp then
      let (_, s) := gettoken s
      parsebacks n (.back cmd) s
    else .ok (cmd, s)

mutual

def parseline : ℕ → List UInt8 → Parse
  | 0, _ => .error .depth
  | n + 1, s => do
    let (cmd, s) ← parsepipe n s
    let (cmd, s) ← parsebacks n cmd s
    let (semi, s) := peek s [ch ';']
    if semi then
      let (_, s) := gettoken s
      let (right, s) ← parseline n s
      return (.list cmd right, s)
    else return (cmd, s)

def parsepipe : ℕ → List UInt8 → Parse
  | 0, _ => .error .depth
  | n + 1, s => do
    let (cmd, s) ← parseexec n s
    let (bar, s) := peek s [ch '|']
    if bar then
      let (_, s) := gettoken s
      let (right, s) ← parsepipe n s
      return (.pipe cmd right, s)
    else return (cmd, s)

def parseblock : ℕ → List UInt8 → Parse
  | 0, _ => .error .depth
  | n + 1, s => do
    let (lparen, s) := peek s [ch '(']
    if ¬ lparen then .error (.panic "parseblock")
    else
      let (_, s) := gettoken s
      let (cmd, s) ← parseline n s
      let (rparen, s) := peek s [ch ')']
      if ¬ rparen then .error (.panic "syntax - missing )")
      else
        let (_, s) := gettoken s
        parseredirs n cmd s

def parseexec : ℕ → List UInt8 → Parse
  | 0, _ => .error .depth
  | n + 1, s => do
    let (lparen, s) := peek s [ch '(']
    if lparen then parseblock n s
    else
      let (ret, s) ← parseredirs n (.exec []) s
      parseargs n ret 0 s

end

def parsecmd (line : List UInt8) : Except Err Cmd := do
  let (cmd, s) ← parseline (4 * line.length + 4) line
  let (_, s) := peek s []
  if s ≠ [] then .error (.panic "syntax")
  else return cmd

end Xv6.Sh
