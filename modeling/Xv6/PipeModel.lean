import Xv6.Outline

/-!
# Pipes

pipe.c on one pipe, as code for the monitor whose lock is `p->lock`. A process may write while it has
the write end open and read while it has the read end open; it may close an end, and the last one to do
so runs `pipeclose`. The descriptors of an end are the set of processes that have it; `fork` and `dup`
can only hand on an end that is open.
-/

namespace Xv6.Pipe

open Monitor

abbrev PIPESIZE : ℕ := 512

/-- `struct pipe` without its lock. -/
structure Pipe where
  data : Fin PIPESIZE → UInt8
  nread : UInt32
  nwrite : UInt32
  readopen : Bool
  writeopen : Bool

/-- `p->nread` and `p->nwrite` as places to sleep on. -/
inductive Chan
  | nread
  | nwrite
  deriving DecidableEq

/-- The pipe and what is known about it. An end is `true` for the write end. `closer` has dropped the
last descriptor of an end and not yet closed it; `freer` has found both ends closed; `freed` says that
`kfree(p)` was called. `accepted` and `delivered` are the bytes copied in and out, in this order.
`silent` says that some `pipewrite` returned early with bytes that it had not announced. -/
structure World (ι : Type) where
  pipe : Pipe
  users : Bool → Finset ι
  closer : Bool → Option ι
  freer : Option ι
  freed : Bool
  accepted : List UInt8
  delivered : List UInt8
  silent : Bool

/-- Points of the code. In `pipewrite`, `i` bytes of `addr` are copied, and `fresh` says that some of
them were copied after the last `wakeup(&p->nread)`; in `piperead`, `got` are the bytes copied so far. -/
inductive Loc
  | out
  | writeAcquire (addr : ℕ → UInt8) (n : ℤ)
  | writeLoop (addr : ℕ → UInt8) (n : ℤ) (i : ℕ) (fresh : Bool)
  | writeFull (addr : ℕ → UInt8) (n : ℤ) (i : ℕ) (fresh : Bool)
  | writeSleep (addr : ℕ → UInt8) (n : ℤ) (i : ℕ)
  | writeWakeup (n : ℤ)
  | writeRelease (r : ℤ)
  | writeReturn (r : ℤ)
  | readAcquire (n : ℤ)
  | readTest (n : ℤ)
  | readSleep (n : ℤ)
  | readLoop (n : ℤ) (got : List UInt8)
  | readWakeup (n : ℤ) (got : List UInt8)
  | readRelease (n r : ℤ)
  | readReturn (n r : ℤ)
  | drop (writable : Bool)
  | closeAcquire (writable : Bool)
  | closeSet (writable : Bool)
  | closeWakeup (writable : Bool)
  | closeTest
  | closeRelease (last : Bool)
  | closeFree

variable {ι : Type} [DecidableEq ι]

namespace Pipe

/-- The place in the ring of the `k`-th byte. -/
def slot (k : UInt32) : Fin PIPESIZE := Fin.ofNat PIPESIZE k.toNat

/-- `p->nread == p->nwrite`. -/
def Empty (p : Pipe) : Prop := p.nread = p.nwrite

/-- `p->nwrite == p->nread + PIPESIZE`. -/
def Full (p : Pipe) : Prop := p.nwrite = p.nread + 512

instance (p : Pipe) : Decidable p.Empty := inferInstanceAs (Decidable (p.nread = p.nwrite))

instance (p : Pipe) : Decidable p.Full := inferInstanceAs (Decidable (p.nwrite = p.nread + 512))

/-- `p->data[p->nwrite++ % PIPESIZE] = c`. -/
def put (p : Pipe) (c : UInt8) : Pipe :=
  { p with data := Function.update p.data (slot p.nwrite) c, nwrite := p.nwrite + 1 }

/-- `p->data[p->nread++ % PIPESIZE]`: the byte. -/
def front (p : Pipe) : UInt8 := p.data (slot p.nread)

/-- `p->data[p->nread++ % PIPESIZE]`: the pipe after it. -/
def get (p : Pipe) : Pipe := { p with nread := p.nread + 1 }

def isOpen (p : Pipe) : Bool → Bool
  | true => p.writeopen
  | false => p.readopen

def shut (p : Pipe) : Bool → Pipe
  | true => { p with writeopen := false }
  | false => { p with readopen := false }

end Pipe

namespace World

def put (d : World ι) (c : UInt8) : World ι :=
  { d with pipe := d.pipe.put c, accepted := d.accepted ++ [c] }

def get (d : World ι) : World ι :=
  { d with pipe := d.pipe.get, delivered := d.delivered ++ [d.pipe.front] }

/-- `fileclose` up to the call of `pipeclose`. -/
def drop (d : World ι) (i : ι) (w : Bool) : World ι :=
  { d with
    users := Function.update d.users w ((d.users w).erase i)
    closer := if (d.users w).erase i = ∅ then Function.update d.closer w (some i) else d.closer }

def shut (d : World ι) (w : Bool) : World ι :=
  { d with pipe := d.pipe.shut w, closer := Function.update d.closer w none }

/-- A process is given a descriptor by one that has it. -/
def inherit (d : World ι) (j : ι) (w : Bool) : World ι :=
  { d with users := Function.update d.users w (insert j (d.users w)) }

end World

/-- One round of the loop of `pipewrite`. -/
def writeLoop (addr : ℕ → UInt8) (n : ℤ) (i : ℕ) (fresh killed : Bool) (d : World ι) : World ι × Loc :=
  if (i : ℤ) < n then
    if d.pipe.Full then
      if d.pipe.readopen = false ∨ killed = true then
        ({ d with silent := d.silent || fresh }, .writeRelease (-1))
      else (d, .writeFull addr n i fresh)
    else (d.put (addr i), .writeLoop addr n (i + 1) true)
  else (d, .writeWakeup n)

/-- The test in the first loop of `piperead`. -/
def readTest (n : ℤ) (killed : Bool) (d : World ι) : World ι × Loc :=
  if d.pipe.Empty ∧ d.pipe.writeopen = true then
    if killed = true then (d, .readRelease n (-1)) else (d, .readSleep n)
  else (d, .readLoop n [])

/-- One round of the second loop of `piperead`. -/
def readLoop (n : ℤ) (got : List UInt8) (d : World ι) : World ι × Loc :=
  if (got.length : ℤ) < n then
    if d.pipe.Empty then (d, .readWakeup n got) else (d.get, .readLoop n (got ++ [d.pipe.front]))
  else (d, .readWakeup n got)

/-- The last test of `pipeclose`. -/
def closeTest (i : ι) (d : World ι) : World ι × Loc :=
  if d.pipe.readopen = false ∧ d.pipe.writeopen = false then
    ({ d with freer := some i }, .closeRelease true)
  else (d, .closeRelease false)

def machine : Machine ι Chan (World ι) Loc where
  code i l := match l with
    | .out => .idle
    | .writeAcquire addr n => .acquire (.writeLoop addr n 0 false)
    | .writeLoop addr n k fresh => .step fun killed d => writeLoop addr n k fresh killed d
    | .writeFull addr n k _ => .wakeup .nread (.writeSleep addr n k)
    | .writeSleep addr n k => .sleep .nwrite (.writeLoop addr n k false)
    | .writeWakeup n => .wakeup .nread (.writeRelease n)
    | .writeRelease r => .release (.writeReturn r)
    | .writeReturn _ => .idle
    | .readAcquire n => .acquire (.readTest n)
    | .readTest n => .step fun killed d => readTest n killed d
    | .readSleep n => .sleep .nread (.readTest n)
    | .readLoop n got => .step fun _ d => readLoop n got d
    | .readWakeup n got => .wakeup .nwrite (.readRelease n got.length)
    | .readRelease n r => .release (.readReturn n r)
    | .readReturn _ _ => .idle
    | .drop w => .step fun _ d =>
        (d.drop i w, if (d.users w).erase i = ∅ then .closeAcquire w else .out)
    | .closeAcquire w => .acquire (.closeSet w)
    | .closeSet w => .step fun _ d => (d.shut w, .closeWakeup w)
    | .closeWakeup w => .wakeup (if w then .nread else .nwrite) .closeTest
    | .closeTest => .step fun _ d => closeTest i d
    | .closeRelease last => .release (if last then .closeFree else .out)
    | .closeFree => .step fun _ d => ({ d with freed := true }, .out)
  menu i d l l' := match l, l' with
    | .out, .writeAcquire _ _ => i ∈ d.users true
    | .out, .readAcquire _ => i ∈ d.users false
    | .out, .drop w => i ∈ d.users w
    | .writeReturn _, .out => True
    | .readReturn _ _, .out => True
    | _, _ => False
  env d d' := ∃ j w, (d.users w).Nonempty ∧ d' = d.inherit j w

/-- After `pipealloc`; the ring is not cleared. -/
def alloc (data : Fin PIPESIZE → UInt8) (i : ι) : World ι where
  pipe := ⟨data, 0, 0, true, true⟩
  users _ := {i}
  closer _ := none
  freer := none
  freed := false
  accepted := []
  delivered := []
  silent := false

abbrev Runs (procs : List ι) (data : Fin PIPESIZE → UInt8) (i : ι) (f : Fine ι Chan (World ι) Loc) :
    Prop :=
  FineReaches machine procs (Fine.start (alloc data i) fun _ => .out) f

end Xv6.Pipe
