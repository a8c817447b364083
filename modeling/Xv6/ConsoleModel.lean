import Xv6.Outline

/-!
# The console input

`consoleintr` and `consoleread` of console.c as code for the monitor whose lock is `cons.lock`. Any thread
can be the one that runs the interrupt handler, with the characters that `getc` will return. The inode's
lock, which `consoleread` gives up and takes again around the monitor, the echo and the process listing
are left out.

`strokes`, `taken` and `reads` are not kernel state: they record what was typed, what was taken out of the
ring, and how reads ended.
-/

namespace Xv6.Console

open Monitor

abbrev INPUT_BUF : ℕ := 128

abbrev NL : UInt8 := 10

abbrev CR : UInt8 := 13

abbrev DEL : UInt8 := 0x7f

/-- `C(x)`: the control character of a capital letter. -/
abbrev ctrlD : UInt8 := 4

abbrev ctrlH : UInt8 := 8

abbrev ctrlP : UInt8 := 16

abbrev ctrlU : UInt8 := 21

structure Input where
  buf : Fin INPUT_BUF → UInt8
  r : UInt32
  w : UInt32
  e : UInt32

/-- A keystroke that has an effect; `full` says that the ring was full with it. -/
inductive Stroke
  | typed (c : UInt8) (full : Bool)
  | erase
  | kill

/-- How a read ended; a ^D is at this place of the stream. -/
inductive End
  | full
  | newline
  | eof (pos : ℕ)
  | killed

structure Read where
  n : ℤ
  got : List UInt8
  why : End

structure World (ι : Type) where
  input : Input
  strokes : List Stroke
  taken : List (ι × UInt8)
  reads : List (ι × Read)

/-- Points of the code; `got` are the characters that this read has copied. -/
inductive Loc
  | out
  | intrAcquire (cs : List UInt8)
  | intrLoop (cs : List UInt8)
  | intrWakeup (cs : List UInt8)
  | readAcquire (n : ℤ)
  | readLoop (n : ℤ) (got : List UInt8)
  | readSleep (n : ℤ) (got : List UInt8)
  | readRelease (r : ℤ)
  | readReturn (r : ℤ)

namespace Input

/-- The place in the ring of an index. -/
def slot (k : UInt32) : Fin INPUT_BUF := Fin.ofNat INPUT_BUF k.toNat

/-- The loop of kill-line, which goes on while `e` is not `w`. -/
def killLine (p : Input) : ℕ → Input
  | 0 => p
  | k + 1 => if p.e ≠ p.w ∧ p.buf (slot (p.e - 1)) ≠ NL then killLine { p with e := p.e - 1 } k else p

def backspace (p : Input) : Input := if p.e ≠ p.w then { p with e := p.e - 1 } else p

/-- `input.buf[input.e++ % INPUT_BUF] = c`. -/
def put (p : Input) (c : UInt8) : Input :=
  { p with buf := Function.update p.buf (slot p.e) c, e := p.e + 1 }

def commit (p : Input) : Input := { p with w := p.e }

end Input

variable {ι : Type} [DecidableEq ι]

def norm (c : UInt8) : UInt8 := if c = CR then NL else c

/-- One character in `consoleintr`; the second result says that `wakeup` comes next. -/
def key (c : UInt8) (d : World ι) : World ι × Bool :=
  let p := d.input
  if c = ctrlP then (d, false)
  else if c = ctrlU then
    ({ d with input := p.killLine (p.e - p.w).toNat, strokes := d.strokes ++ [.kill] }, false)
  else if c = ctrlH ∨ c = DEL then ({ d with input := p.backspace, strokes := d.strokes ++ [.erase] }, false)
  else if c ≠ 0 ∧ p.e - p.r < 128 then
    let p' := p.put (norm c)
    let full := decide (p'.e = p'.r + 128)
    let d' := { d with strokes := d.strokes ++ [Stroke.typed c full] }
    if norm c = NL ∨ norm c = ctrlD ∨ full = true then ({ d' with input := p'.commit }, true)
    else ({ d' with input := p' }, false)
  else (d, false)

def World.finish (d : World ι) (i : ι) (n : ℤ) (got : List UInt8) (why : End) : World ι :=
  { d with reads := d.reads ++ [(i, ⟨n, got, why⟩)] }

/-- `input.r++` for good. -/
def World.take (d : World ι) (i : ι) (c : UInt8) : World ι :=
  { d with input := { d.input with r := d.input.r + 1 }, taken := d.taken ++ [(i, c)] }

/-- One round of the loop in `consoleread`. -/
def readLoop (i : ι) (n : ℤ) (got : List UInt8) (killed : Bool) (d : World ι) : World ι × Loc :=
  if (got.length : ℤ) < n then
    if d.input.r = d.input.w then
      if killed = true then (d.finish i n got .killed, .readRelease (-1)) else (d, .readSleep n got)
    else
      let c := d.input.buf (Input.slot d.input.r)
      if c = ctrlD then
        -- with something to return, the ^D is left for the next read
        if got ≠ [] then (d.finish i n got (.eof d.taken.length), .readRelease got.length)
        else ((d.take i c).finish i n got (.eof d.taken.length), .readRelease got.length)
      else if c = NL then ((d.take i c).finish i n (got ++ [c]) .newline, .readRelease (got ++ [c]).length)
      else (d.take i c, .readLoop n (got ++ [c]))
  else (d.finish i n got .full, .readRelease got.length)

def machine : Machine ι Unit (World ι) Loc where
  code i l := match l with
    | .out | .readReturn _ => .idle
    | .intrAcquire cs => .acquire (.intrLoop cs)
    | .intrLoop [] => .release .out
    | .intrLoop (c :: cs) => .step fun _ d =>
        ((key c d).1, if (key c d).2 then .intrWakeup cs else .intrLoop cs)
    | .intrWakeup cs => .wakeup () (.intrLoop cs)
    | .readAcquire n => .acquire (.readLoop n [])
    | .readLoop n got => .step fun killed d => readLoop i n got killed d
    | .readSleep n got => .sleep () (.readLoop n got)
    | .readRelease r => .release (.readReturn r)
  menu _ _ l l' := match l, l' with
    | .out, .intrAcquire _ | .out, .readAcquire _ | .readReturn _, .out => True
    | _, _ => False
  env _ _ := False

/-- After boot. -/
def boot (buf : Fin INPUT_BUF → UInt8) : World ι := ⟨⟨buf, 0, 0, 0⟩, [], [], []⟩

abbrev Runs (procs : List ι) (buf : Fin INPUT_BUF → UInt8) (f : Fine ι Unit (World ι) Loc) : Prop :=
  FineReaches machine procs (Fine.start (boot buf) fun _ => .out) f

end Xv6.Console
