import Xv6.Outline

/-!
# The queued disk driver and the memory disk

ide.c's `iderw`, `idestart` and `ideintr` as code for the monitor whose lock is `idelock`, with the
device beside it, and memide.c's `iderw`. Buffers are named by `β` and a block of data is an `α`.

A process takes a buffer for itself before it calls `iderw` (this is what `B_BUSY` is for), may change
it, and gives it back. Any thread can also be the one that runs the interrupt handler: an interrupt that
comes while a process runs other code is a second thread here.
-/

namespace Xv6.Ide

open Monitor

abbrev FSSIZE : ℕ := 1000

/-- `struct buf` without its links; the flags are `B_BUSY`, `B_VALID` and `B_DIRTY`. -/
structure Buf (α : Type) where
  busy : Bool
  valid : Bool
  dirty : Bool
  dev : ℕ
  blockno : ℕ
  data : α

/-- What `idestart` puts into the registers 0x1f3 to 0x1f6, and the data of a write. -/
structure Cmd (α : Type) where
  r3 : ℕ
  r4 : ℕ
  r5 : ℕ
  r6 : ℕ
  data : Option α

namespace Cmd

variable {α : Type}

/-- The sector that the device reads out of its registers. -/
def lba (c : Cmd α) : ℕ := c.r3 + c.r4 * 2 ^ 8 + c.r5 * 2 ^ 16 + (c.r6 &&& 0x0f) * 2 ^ 24

def drive (c : Cmd α) : Bool := c.r6.testBit 4

end Cmd

/-- The command for a buffer; with `BSIZE = SECTOR_SIZE` a block is one sector. -/
def Buf.cmd {α : Type} (b : Buf α) : Cmd α where
  r3 := b.blockno &&& 0xff
  r4 := (b.blockno >>> 8) &&& 0xff
  r5 := (b.blockno >>> 16) &&& 0xff
  r6 := 0xe0 ||| ((b.dev &&& 1) <<< 4) ||| ((b.blockno >>> 24) &&& 0x0f)
  data := if b.dirty then some b.data else none

/-- Whose turn it is: the device has nothing to do, works on a command, has raised its interrupt, the
handler has taken it, or somebody who holds the lock has to start the next command. -/
inductive Phase (ι : Type)
  | idle
  | busy
  | raised
  | taken (i : ι)
  | starting (i : ι)

/-- Changes of buffers by their owners, and requests in the order of their service. -/
inductive Event (β α : Type)
  | set (n : β) (b : Buf α)
  | serve (n : β) (b : Buf α)

def Event.request {β α : Type} : Event β α → Option β
  | .set _ _ => none
  | .serve n _ => some n

/-- `queue` is `idequeue`, `cmds` the commands that the device has got and not completed, `reg` its data
register, `irq` the interrupts it has raised. The rest is bookkeeping: who has which buffer, whose turn
it is, the requests in the order of arrival and of service, and what happened to the buffers. -/
structure World (ι β α : Type) where
  bufs : β → Buf α
  queue : List β
  cmds : List (Cmd α)
  reg : α
  irq : ℕ
  drives : Bool → ℕ → α
  havedisk1 : Bool
  users : β → Option ι
  phase : Phase ι
  arrivals : List β
  served : List β
  trace : List (Event β α)

/-- Points of the code; `t` is the number of a request in the order of arrival. -/
inductive Loc (β α : Type)
  | out
  | claim (n : β)
  | own (n : β)
  | fill (n : β) (b : Buf α)
  | drop (n : β)
  | call (n : β)
  | acquire (n : β)
  | append (n : β)
  | start (n : β) (t : ℕ)
  | test (n : β) (t : ℕ)
  | doze (n : β) (t : ℕ)
  | release (n : β) (t : ℕ)
  | returned (n : β) (t : ℕ)
  | poll
  | intrAcquire
  | intrTake
  | intrWakeup (n : β)
  | intrNext
  | intrRelease
  | panic (msg : String)
  | panicLocked (msg : String)

variable {ι β α : Type} [DecidableEq ι] [DecidableEq β]

namespace World

def setBuf (d : World ι β α) (n : β) (b : Buf α) : World ι β α :=
  { d with bufs := Function.update d.bufs n b }

/-- A buffer is changed by its owner, outside the driver. -/
def change (d : World ι β α) (n : β) (b : Buf α) : World ι β α :=
  { d.setBuf n b with trace := d.trace ++ [.set n b] }

/-- The device completes the command it works on and raises its interrupt. -/
def complete (d : World ι β α) (c : Cmd α) (rest : List (Cmd α)) : World ι β α :=
  { d with
    cmds := rest
    irq := d.irq + 1
    phase := .raised
    reg := match c.data with
      | some _ => d.reg
      | none => d.drives c.drive c.lba
    drives := match c.data with
      | some v => Function.update d.drives c.drive (Function.update (d.drives c.drive) c.lba v)
      | none => d.drives }

end World

/-- The tests at the head of `iderw`. -/
def rwTest (n : β) (d : World ι β α) : Loc β α :=
  let b := d.bufs n
  if b.busy = false then .panic "iderw: buf not busy"
  else if b.valid = true ∧ b.dirty = false then .panic "iderw: nothing to do"
  else if b.dev ≠ 0 ∧ d.havedisk1 = false then .panic "iderw: ide disk 1 not present"
  else .acquire n

/-- Append to `idequeue`; the first one has to start the device. -/
def rwAppend (i : ι) (n : β) (d : World ι β α) : World ι β α × Loc β α :=
  let queue := d.queue ++ [n]
  let d' := { d with
    queue := queue
    arrivals := d.arrivals ++ [n]
    phase := if queue.head? = some n then .starting i else d.phase }
  (d', if queue.head? = some n then .start n d.arrivals.length else .test n d.arrivals.length)

/-- `idestart` on a buffer; `next` is where the caller goes on. The wait for the device to become ready
is left out: it has no command when this is called. -/
def idestart (n : β) (next : Loc β α) (d : World ι β α) : World ι β α × Loc β α :=
  if (d.bufs n).blockno ≥ FSSIZE then (d, .panicLocked "incorrect blockno")
  else ({ d with cmds := d.cmds ++ [(d.bufs n).cmd], phase := .busy }, next)

/-- The condition of the loop in `iderw`. -/
def rwLoop (n : β) (t : ℕ) (d : World ι β α) : Loc β α :=
  if ¬ ((d.bufs n).valid = true ∧ (d.bufs n).dirty = false) then .doze n t else .release n t

/-- `ideintr` up to `wakeup`: the first buffer of the queue is served. -/
def intrTake (i : ι) (d : World ι β α) : World ι β α × Loc β α :=
  match d.queue with
  | [] => (d, .intrRelease)
  | n :: rest =>
    let b := d.bufs n
    let b' := { b with
      data := if b.dirty then b.data else d.reg
      valid := true
      dirty := false }
    ({ d.setBuf n b' with
        queue := rest
        phase := .starting i
        served := d.served ++ [n]
        trace := d.trace ++ [.serve n b] }, .intrWakeup n)

/-- `ideintr` after `wakeup`. -/
def intrNext (d : World ι β α) : World ι β α × Loc β α :=
  match d.queue with
  | [] => ({ d with phase := .idle }, .intrRelease)
  | n :: _ => idestart n .intrRelease d

def machine : Machine ι β (World ι β α) (Loc β α) where
  code i l := match l with
    | .out | .own _ | .returned _ _ | .panic _ | .panicLocked _ => .idle
    | .claim n => .step fun _ d =>
        if d.users n = none then
          ({ d.change n { d.bufs n with busy := true } with
              users := Function.update d.users n (some i) }, .own n)
        else (d, .out)
    | .fill n b => .step fun _ d => (d.change n { b with busy := true }, .own n)
    | .drop n => .step fun _ d =>
        ({ d.change n { d.bufs n with busy := false } with
            users := Function.update d.users n none }, .out)
    | .call n => .step fun _ d => (d, rwTest n d)
    | .acquire n => .acquire (.append n)
    | .append n => .step fun _ d => rwAppend i n d
    | .start n t => .step fun _ d => idestart n (.test n t) d
    | .test n t => .step fun _ d => (d, rwLoop n t d)
    | .doze n t => .sleep n (.test n t)
    | .release n t => .release (.returned n t)
    | .poll => .step fun _ d =>
        if d.irq = 0 then (d, .out) else ({ d with irq := d.irq - 1, phase := .taken i }, .intrAcquire)
    | .intrAcquire => .acquire .intrTake
    | .intrTake => .step fun _ d => intrTake i d
    | .intrWakeup n => .wakeup n .intrNext
    | .intrNext => .step fun _ d => intrNext d
    | .intrRelease => .release .out
  menu _ d l l' := match l, l' with
    | .out, .claim _ | .out, .poll => True
    | .own n, .fill n' _ => n' = n
    | .own n, .drop n' => n' = n
    | .own n, .call n' => n' = n ∧ (d.bufs n).blockno < FSSIZE
    | .returned n _, .own n' => n' = n
    | _, _ => False
  env d d' := ∃ c rest, d.cmds = c :: rest ∧ d' = d.complete c rest

/-! ## memide.c -/

structure Mem (β α : Type) where
  bufs : β → Buf α
  disk : ℕ → α

/-- memide.c's `iderw`; `none` for a panic. -/
def Mem.iderw (disksize : ℕ) (m : Mem β α) (n : β) : Option (Mem β α) :=
  let b := m.bufs n
  if b.busy = false then none
  else if b.valid = true ∧ b.dirty = false then none
  else if b.dev ≠ 1 then none
  else if b.blockno ≥ disksize then none
  else if b.dirty = true then some
    { bufs := Function.update m.bufs n { b with dirty := false, valid := true }
      disk := Function.update m.disk b.blockno b.data }
  else some
    { m with bufs := Function.update m.bufs n { b with data := m.disk b.blockno, valid := true } }

/-- The same changes of the buffers, with the memory disk's `iderw` for every request. -/
def Mem.run (disksize : ℕ) (m : Mem β α) (e : Event β α) : Option (Mem β α) :=
  match e with
  | .set n b => some { m with bufs := Function.update m.bufs n b }
  | .serve n _ => m.iderw disksize n

/-- Everybody is outside the driver, the device is idle. -/
def boot (bufs : β → Buf α) (reg : α) (drives : Bool → ℕ → α) (havedisk1 : Bool) : World ι β α where
  bufs := bufs
  queue := []
  cmds := []
  reg := reg
  irq := 0
  drives := drives
  havedisk1 := havedisk1
  users _ := none
  phase := .idle
  arrivals := []
  served := []
  trace := []

abbrev Runs (procs : List ι) (bufs : β → Buf α) (reg : α) (drives : Bool → ℕ → α) (havedisk1 : Bool)
    (f : Fine ι β (World ι β α) (Loc β α)) : Prop :=
  FineReaches machine procs (Fine.start (boot bufs reg drives havedisk1) fun _ => .out) f

end Xv6.Ide
