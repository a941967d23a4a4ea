import Xv6.Kernel.Proc
import Xv6.Lib.RingBuffer
import Xv6.Lib.Transition

/-!
# Pipes

`pipe.c`: any number of processes call `piperead`, `pipewrite` and `pipeclose` on
one pipe, and any of them can be killed at any moment.  A step is one iteration of
a loop, or one call of `acquire`, `release`, `wakeup` or `sleep`; `sleep` gives up
the pipe's lock and falls asleep at once.

The counters are free-running unsigned 32-bit words.
-/

namespace Xv6

/-- The number of bytes a pipe holds. -/
abbrev pipesize : Nat := 512

structure Pipe where
  data : Fin pipesize → UInt8
  nread : Uint
  nwrite : Uint
  readopen : Bool
  writeopen : Bool

namespace Pipe

/-- The test of `pipewrite`. -/
def Full (p : Pipe) : Prop := p.nwrite = p.nread + Fin.ofNat (2 ^ 32) pipesize

/-- The test of `piperead`. -/
def Empty (p : Pipe) : Prop := p.nread = p.nwrite

instance (p : Pipe) : Decidable p.Full := inferInstanceAs (Decidable (_ = _))

instance (p : Pipe) : Decidable p.Empty := inferInstanceAs (Decidable (_ = _))

/-- `p->data[p->nwrite++ % PIPESIZE] = byte`. -/
def store (p : Pipe) (byte : UInt8) : Pipe :=
  { p with
    data := Function.update p.data (RingBuffer.cell p.nwrite) byte
    nwrite := p.nwrite + 1 }

/-- The byte `piperead` copies out next. -/
def front (p : Pipe) : UInt8 := p.data (RingBuffer.cell p.nread)

/-- `p->nread++`. -/
def drop (p : Pipe) : Pipe := { p with nread := p.nread + 1 }

/-- The bytes `data[nread % PIPESIZE .. nwrite % PIPESIZE)`. -/
def contents (p : Pipe) : List UInt8 := RingBuffer.contents p.data p.nread p.nwrite

/-- The difference of the counters. -/
def count (p : Pipe) : Nat := RingBuffer.count p.nread p.nwrite

/-- `pipealloc`, on a page with any contents. -/
def alloc (data : Fin pipesize → UInt8) : Pipe where
  data := data
  nread := 0
  nwrite := 0
  readopen := true
  writeopen := true

end Pipe

/-- The two channels of a pipe, `&p->nread` and `&p->nwrite`. -/
inductive PipeChan where
  | nread
  | nwrite
  deriving DecidableEq, Repr

/-- Where a process is.  In `pipewrite`, `rest` are the bytes not yet stored; in
`piperead`, `i` bytes have been copied. -/
inductive PipePc where
  | idle
  /-- At `acquire`, on entry and when `sleep` returns. -/
  | writeEnter (n : Int) (rest : List UInt8)
  | writeLoop (n : Int) (rest : List UInt8)
  /-- The pipe is full: before `wakeup`, and before `sleep`. -/
  | writeFull (n : Int) (rest : List UInt8)
  | writeSleep (n : Int) (rest : List UInt8)
  | readEnter (n : Int)
  | readLoop (n : Int)
  | readSleep (n : Int)
  | readCopy (n : Int) (i : Nat)
  | closeEnter (writable : Bool)
  | closeBody (writable : Bool)
  | closeWake (writable : Bool)
  | closeEnd
  /-- At the last `release`, with the result. -/
  | unlock (result : Int)
  deriving DecidableEq, Repr

/-- The places under the pipe's lock. -/
def PipePc.holds : PipePc → Bool
  | .idle | .writeEnter _ _ | .readEnter _ | .closeEnter _ => false
  | _ => true

/-- A pipe and its users.  `live` tells whether the page of the pipe is allocated,
`asleep` on which channel a process is sleeping. -/
structure PipeSystem (Process : Type) where
  pipe : Pipe
  live : Bool
  lock : Option Process
  pc : Process → PipePc
  asleep : Process → Option PipeChan
  killed : Process → Bool

inductive PipeAction (Process : Type) where
  | write (self : Process) (n : Int) (bytes : List UInt8)
  | read (self : Process) (n : Int)
  | close (self : Process) (writable : Bool)
  | run (self : Process)
  | kill (target : Process)

namespace PipeSystem

variable {Process : Type} [DecidableEq Process]

def goto (s : PipeSystem Process) (self : Process) (pc : PipePc) : PipeSystem Process :=
  { s with pc := Function.update s.pc self pc }

/-- `acquire(&p->lock)` of a pipe that still exists. -/
def acquire (s : PipeSystem Process) (self : Process) (pc : PipePc) :
    Option (PipeSystem Process) :=
  if s.live = true ∧ s.lock = none then some ({ s with lock := some self }.goto self pc)
  else none

/-- `release(&p->lock)`. -/
def release (s : PipeSystem Process) (self : Process) (pc : PipePc) : PipeSystem Process :=
  { s with lock := none }.goto self pc

def wakeup (s : PipeSystem Process) (chan : PipeChan) : PipeSystem Process :=
  { s with asleep := fun process =>
      if s.asleep process = some chan then none else s.asleep process }

/-- `sleep(chan, &p->lock)`, which goes on at `pc` with an `acquire`. -/
def sleep (s : PipeSystem Process) (self : Process) (chan : PipeChan) (pc : PipePc) :
    PipeSystem Process :=
  { s with lock := none, asleep := Function.update s.asleep self (some chan) }.goto self pc

/-- One iteration of the loops of `pipewrite`. -/
def writeLoop (s : PipeSystem Process) (self : Process) (n : Int) :
    List UInt8 → PipeSystem Process
  | [] => (s.wakeup .nread).goto self (.unlock n)
  | byte :: rest =>
    if s.pipe.Full then
      if s.pipe.readopen = false ∨ s.killed self = true then s.goto self (.unlock (-1))
      else s.goto self (.writeFull n (byte :: rest))
    else
      { s with pipe := s.pipe.store byte }.goto self (.writeLoop n rest)

/-- The loop of `piperead` that waits for data. -/
def readLoop (s : PipeSystem Process) (self : Process) (n : Int) : PipeSystem Process :=
  if s.pipe.Empty ∧ s.pipe.writeopen = true then
    if s.killed self = true then s.goto self (.unlock (-1))
    else s.goto self (.readSleep n)
  else
    s.goto self (.readCopy n 0)

/-- One iteration of the loop of `piperead` that copies. -/
def readCopy (s : PipeSystem Process) (self : Process) (n : Int) (i : Nat) :
    PipeSystem Process :=
  if i < n ∧ ¬s.pipe.Empty then
    { s with pipe := s.pipe.drop }.goto self (.readCopy n (i + 1))
  else
    (s.wakeup .nwrite).goto self (.unlock i)

/-- The assignment of `pipeclose`. -/
def closeBody (s : PipeSystem Process) (self : Process) (writable : Bool) :
    PipeSystem Process :=
  { s with pipe :=
      if writable then { s.pipe with writeopen := false }
      else { s.pipe with readopen := false } }.goto self (.closeWake writable)

/-- The end of `pipeclose`, which frees the page once both ends are closed. -/
def closeEnd (s : PipeSystem Process) (self : Process) : PipeSystem Process :=
  { s with
    live := s.live && (s.pipe.readopen || s.pipe.writeopen) }.release self .idle

/-- The next step of a process. -/
def advance (s : PipeSystem Process) (self : Process) : Option (PipeSystem Process) :=
  match s.pc self with
  | .idle => none
  | .writeEnter n rest => s.acquire self (.writeLoop n rest)
  | .writeLoop n rest => some (s.writeLoop self n rest)
  | .writeFull n rest => some ((s.wakeup .nread).goto self (.writeSleep n rest))
  | .writeSleep n rest => some (s.sleep self .nwrite (.writeEnter n rest))
  | .readEnter n => s.acquire self (.readLoop n)
  | .readLoop n => some (s.readLoop self n)
  | .readSleep n => some (s.sleep self .nread (.readEnter n))
  | .readCopy n i => some (s.readCopy self n i)
  | .closeEnter writable => s.acquire self (.closeBody writable)
  | .closeBody writable => some (s.closeBody self writable)
  | .closeWake writable =>
    some ((s.wakeup (if writable then .nread else .nwrite)).goto self .closeEnd)
  | .closeEnd => some (s.closeEnd self)
  | .unlock _ => some (s.release self .idle)

/-- A call, by a process that is not in one. -/
def call (s : PipeSystem Process) (self : Process) (pc : PipePc) :
    Option (PipeSystem Process) :=
  if s.pc self = .idle then some (s.goto self pc) else none

def step (s : PipeSystem Process) : PipeAction Process → Option (PipeSystem Process)
  | .write self n bytes =>
    if bytes.length = n.toNat then s.call self (.writeEnter n bytes) else none
  | .read self n => s.call self (.readEnter n)
  | .close self writable => s.call self (.closeEnter writable)
  | .run self => if s.asleep self = none then s.advance self else none
  | .kill target =>
    some { s with
      killed := Function.update s.killed target true
      asleep := Function.update s.asleep target none }

/-- A new pipe, before anybody uses it. -/
def start (data : Fin pipesize → UInt8) : PipeSystem Process where
  pipe := .alloc data
  live := true
  lock := none
  pc := fun _ => .idle
  asleep := fun _ => none
  killed := fun _ => false

/-- The byte a step stores. -/
def stores (entry : PipeSystem Process × PipeAction Process) : List UInt8 :=
  match entry.2 with
  | .run self =>
    match entry.1.pc self with
    | .writeLoop _ (byte :: _) => if entry.1.pipe.Full then [] else [byte]
    | _ => []
  | _ => []

/-- The byte a step copies out. -/
def copies (entry : PipeSystem Process × PipeAction Process) : List UInt8 :=
  match entry.2 with
  | .run self =>
    match entry.1.pc self with
    | .readCopy n i => if i < n ∧ ¬entry.1.pipe.Empty then [entry.1.pipe.front] else []
    | _ => []
  | _ => []

/-- All bytes stored in a run, in the order of the stores. -/
def stored (trace : List (PipeSystem Process × PipeAction Process)) : List UInt8 :=
  trace.flatMap stores

/-- All bytes copied out in a run. -/
def copied (trace : List (PipeSystem Process × PipeAction Process)) : List UInt8 :=
  trace.flatMap copies

end PipeSystem

end Xv6
