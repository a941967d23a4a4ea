import Xv6.Kernel.System

/-!
# Processors, locks and context switches

The kernel on any number of processors, with `ptable.lock`, any other spin locks
and the context switches between the scheduler of a processor and the processes.
Where `Kernel` takes a section under `ptable.lock` as one step, here acquiring
the lock, the body of the section, `sched` and releasing the lock are steps of
their own, and the processors interleave between them.  The bodies are the
functions on the process table of `ProcTable`.

A lock belongs to a processor, as in `spinlock.c`: `ptable.lock` is acquired by a
process and released by the scheduler or by the next process on the same
processor.  `ncli` counts the locks a processor holds, and `sched` panics unless
it is one.  A panic, like a lock that is not free, admits no step.
-/

namespace Xv6.Smp

/-! ## Where a processor is -/

/-- Where a process left off: the place at which it called `sched`, or `forkret`
for one that has not run.  A null lock pointer in `sleep` stands for
`ptable.lock`. -/
inductive Site (Lock : Type) where
  | forkret
  | yield
  | sleep (lk : Option Lock)
  | wait
  | join
  | park
  | exit
  deriving DecidableEq, Repr

/-- The calls that take `ptable.lock`.  `locked` is any other code that runs under
it. -/
inductive Call (Lock : Type) where
  | yield
  | sleep (chan : Chan) (lk : Lock)
  | wakeup (chan : Chan)
  | setpark
  | park
  | unpark (pid : Int)
  | kill (pid : Int)
  | exit
  | wait
  | join
  | spawn (kind : Spawn)
  | locked
  deriving DecidableEq, Repr

/-- The calls an interrupt handler makes, which come at any place of a process. -/
def Call.fromInterrupt {Lock : Type} : Call Lock → Bool
  | .yield | .wakeup _ => true
  | _ => false

/-- Where a process is while a processor runs it. -/
inductive Phase (Lock : Type) where
  /-- Outside the code that takes `ptable.lock`. -/
  | run
  /-- At the `acquire(&ptable.lock)` of a call. -/
  | enter (call : Call Lock)
  | body (call : Call Lock)
  /-- In `sleep`, before `release(lk)`. -/
  | unlock (chan : Chan) (lk : Lock)
  /-- In `sleep`, before the assignments to `chan` and `state`. -/
  | doze (chan : Chan) (site : Site Lock)
  /-- In `sched`. -/
  | swtch (site : Site Lock)
  /-- After `sched`. -/
  | back (site : Site Lock)
  /-- In other code under `ptable.lock`. -/
  | held
  /-- At the `release(&ptable.lock)` that ends a call. -/
  | leave
  /-- In `sleep`, before `release(&ptable.lock)`, and before `acquire(lk)`. -/
  | tidied (lk : Lock)
  | relock (lk : Lock)
  deriving DecidableEq, Repr

/-- Where a processor is.  The first five are an interrupt handler that runs while
no process is on the processor, and the scheduler around it. -/
inductive CpuPc (Lock : Type) where
  | idle
  | irq
  | irqEnter (chan : Chan)
  | irqBody (chan : Chan)
  | irqLeave
  /-- In the loop of the scheduler. -/
  | scan (index : Nat)
  /-- In the scheduler, after `swtch` has come back. -/
  | returned
  | exec (phase : Phase Lock)
  deriving DecidableEq, Repr

/-- `struct cpu`, with the variable `proc` of the processor and the scheduler's
loop variable. -/
structure CpuState (Lock : Type) where
  proc : Option Slot := none
  pc : CpuPc Lock := .idle
  ncli : Nat := 0
  cursor : Nat := 0
  deriving DecidableEq, Repr

/-- `place` is where a process is in `fork` or `clone`, `context` what `swtch` has
saved of it. -/
structure Machine (Cpu Lock : Type) where
  pt : Ptable
  place : Slot → KernelPc
  context : Slot → Site Lock
  cpu : Cpu → CpuState Lock
  ptlock : Option Cpu
  lock : Lock → Option Cpu

/-- What a processor does next, where there is a choice.  The arguments of the
unlocked stretches of `fork` and `clone` are the answers of the memory
allocator. -/
inductive Choice (Lock : Type) where
  | next
  | interrupt
  | irqWakeup (chan : Chan)
  | call (call : Call Lock)
  | acquire (lk : Lock)
  | release (lk : Lock)
  | wakeup1 (chan : Chan)
  | sleep (chan : Chan)
  | kstack (page : Nat)
  | copyuvm (pgdir : Nat)
  | share
  | copyout (mapped : Bool)
  | publish
  deriving DecidableEq, Repr

namespace Machine

variable {Cpu Lock : Type} [DecidableEq Cpu] [DecidableEq Lock]

/-! ## Locks -/

/-- Replace the state of a processor. -/
def setCpu (m : Machine Cpu Lock) (c : Cpu) (state : CpuState Lock) : Machine Cpu Lock :=
  { m with cpu := Function.update m.cpu c state }

/-- Send a processor to another place. -/
def goto (m : Machine Cpu Lock) (c : Cpu) (pc : CpuPc Lock) : Machine Cpu Lock :=
  m.setCpu c { m.cpu c with pc := pc }

/-- `acquire(&ptable.lock)`, which waits until the lock is free. -/
def acquirePt (m : Machine Cpu Lock) (c : Cpu) (pc : CpuPc Lock) :
    Option (Machine Cpu Lock) :=
  if m.ptlock = none then
    some ({ m with ptlock := some c }.setCpu c
      { m.cpu c with pc := pc, ncli := (m.cpu c).ncli + 1 })
  else none

/-- `release(&ptable.lock)`, which panics on another processor's lock. -/
def releasePt (m : Machine Cpu Lock) (c : Cpu) (pc : CpuPc Lock) :
    Option (Machine Cpu Lock) :=
  if m.ptlock = some c then
    some ({ m with ptlock := none }.setCpu c
      { m.cpu c with pc := pc, ncli := (m.cpu c).ncli - 1 })
  else none

/-- `acquire` of another lock. -/
def acquire (m : Machine Cpu Lock) (c : Cpu) (lk : Lock) (pc : CpuPc Lock) :
    Option (Machine Cpu Lock) :=
  if m.lock lk = none then
    some ({ m with lock := Function.update m.lock lk (some c) }.setCpu c
      { m.cpu c with pc := pc, ncli := (m.cpu c).ncli + 1 })
  else none

/-- `release` of another lock. -/
def release (m : Machine Cpu Lock) (c : Cpu) (lk : Lock) (pc : CpuPc Lock) :
    Option (Machine Cpu Lock) :=
  if m.lock lk = some c then
    some ({ m with lock := Function.update m.lock lk none }.setCpu c
      { m.cpu c with pc := pc, ncli := (m.cpu c).ncli - 1 })
  else none

/-! ## The scheduler -/

/-- One iteration of the loop of `scheduler`: pass over a slot, or switch to its
process, which goes on where it left off. -/
def scan (m : Machine Cpu Lock) (c : Cpu) (index : Nat) : Option (Machine Cpu Lock) :=
  if bound : index < nproc then
    if (m.pt.proc ⟨index, bound⟩).state ≠ .runnable then
      some (m.goto c (.scan (index + 1)))
    else
      some ({ m with pt := m.pt.dispatch ⟨index, bound⟩ }.setCpu c
        { m.cpu c with
          proc := some ⟨index, bound⟩
          cursor := index
          pc := .exec (.back (m.context ⟨index, bound⟩)) })
  else
    m.releasePt c .idle

/-- The scheduler after `swtch` has come back: `proc = 0`. -/
def returned (m : Machine Cpu Lock) (c : Cpu) : Machine Cpu Lock :=
  m.setCpu c { m.cpu c with proc := none, pc := .scan ((m.cpu c).cursor + 1) }

/-- `sched`, with its checks, and the switch to the scheduler. -/
def sched (m : Machine Cpu Lock) (c : Cpu) (self : Slot) (site : Site Lock) :
    Option (Machine Cpu Lock) :=
  if m.ptlock = some c ∧ (m.cpu c).ncli = 1 ∧ (m.pt.proc self).state ≠ .running then
    some ({ m with context := Function.update m.context self site }.goto c .returned)
  else none

/-! ## Processes -/

/-- Install a table and go on. -/
def table (m : Machine Cpu Lock) (c : Cpu) (pt : Ptable) (phase : Phase Lock) :
    Machine Cpu Lock :=
  { m with pt := pt }.goto c (.exec phase)

/-- Move a process to another place of `fork` and `clone`. -/
def setPlace (m : Machine Cpu Lock) (self : Slot) (place : KernelPc) : Machine Cpu Lock :=
  { m with place := Function.update m.place self place }

/-- Where a call goes once it has `ptable.lock`. -/
def entered : Call Lock → Phase Lock
  | .sleep chan lk => .unlock chan lk
  | .locked => .held
  | call => .body call

/-- One pass of `wait` or `join`. -/
def scanned (m : Machine Cpu Lock) (c : Cpu) (self : Slot) (site : Site Lock)
    (outcome : Ptable × Ptable.Scan) : Machine Cpu Lock :=
  if outcome.2 = .sleeps then m.goto c (.exec (.doze (.proc self) site))
  else m.table c outcome.1 .leave

/-- The bodies of the sections under `ptable.lock`.  `initproc` panics in `exit`,
and signed overflow of `nextpid` is undefined. -/
def body (m : Machine Cpu Lock) (c : Cpu) (self : Slot) :
    Call Lock → Option (Machine Cpu Lock)
  | .yield => some (m.table c (m.pt.yield self) (.swtch .yield))
  | .wakeup chan => some (m.table c (m.pt.wakeup chan) .leave)
  | .setpark => some (m.table c (m.pt.setpark self).1 .leave)
  | .park =>
    some (m.table c (m.pt.park self)
      (if ((m.pt.park self).proc self).state = .sleeping then .swtch .park else .leave))
  | .unpark pid => some (m.table c (m.pt.unpark pid).1 .leave)
  | .kill pid => some (m.table c (m.pt.kill pid).1 .leave)
  | .exit =>
    if self = m.pt.initproc then none
    else some (m.table c (m.pt.exit self) (.swtch .exit))
  | .wait => some (m.scanned c self .wait (m.pt.waitScan self))
  | .join => some (m.scanned c self .join (m.pt.joinScan self))
  | .spawn kind =>
    if m.pt.nextpid < intMax then
      match m.pt.allocproc with
      | none => some (m.goto c (.exec .leave))
      | some (np, pt) => some ((m.table c pt .leave).setPlace self (.kstack np kind))
    else none
  | .sleep _ _ | .locked => none

/-- What follows a return of `sched`.  `sleep` clears the channel; `wait` and
`join` scan the table again; a zombie panics. -/
def resume (m : Machine Cpu Lock) (c : Cpu) (self : Slot) :
    Site Lock → Option (Machine Cpu Lock)
  | .forkret | .yield | .park => some (m.goto c (.exec .leave))
  | .sleep (some lk) => some (m.table c (m.pt.awake self) (.tidied lk))
  | .sleep none => some (m.table c (m.pt.awake self) .held)
  | .wait => some (m.table c (m.pt.awake self) (.body .wait))
  | .join => some (m.table c (m.pt.awake self) (.body .join))
  | .exit => none

/-- The stretches of `fork` and `clone` without the lock. -/
def spawning (m : Machine Cpu Lock) (c : Cpu) (self : Slot) :
    KernelPc → Choice Lock → Option (Machine Cpu Lock)
  | .kstack np kind, .kstack page =>
    match m.pt.kalloc page with
    | none => none
    | some pt =>
      if page = 0 then
        some ((m.table c (pt.allocKstack np page) .run).setPlace self .user)
      else
        some (({ m with context := Function.update m.context np .forkret }.table c
          (pt.allocKstack np page) .run).setPlace self (.copy np kind))
  | .copy np .fork, .copyuvm pgdir =>
    match m.pt.kalloc pgdir with
    | none => none
    | some pt =>
      if pgdir = 0 then
        some ((m.table c (pt.abandonFork np) .run).setPlace self .user)
      else
        some ((m.table c (pt.forkCopy self np pgdir) .run).setPlace self (.publish np))
  | .copy np (.clone fn ustack), .share =>
    some ((m.table c (m.pt.cloneCopy self np) .run).setPlace self (.copyout np fn ustack))
  | .copyout np fn ustack, .copyout mapped =>
    if mapped then
      some ((m.table c (m.pt.cloneStack np fn ustack) .run).setPlace self (.publish np))
    else
      some ((m.table c (m.pt.abandon np) .run).setPlace self .user)
  | .publish np, .publish =>
    some ((m.table c (m.pt.publish self np) .run).setPlace self .user)
  | _, _ => none

/-- A process outside the code that takes `ptable.lock`. -/
def outside (m : Machine Cpu Lock) (c : Cpu) (self : Slot) :
    Choice Lock → Option (Machine Cpu Lock)
  | .call call =>
    if m.place self = .user ∨ call.fromInterrupt = true then
      some (m.goto c (.exec (.enter call)))
    else none
  | .acquire lk => m.acquire c lk (.exec .run)
  | .release lk => m.release c lk (.exec .run)
  | choice => m.spawning c self (m.place self) choice

/-- A process on a processor. -/
def exec (m : Machine Cpu Lock) (c : Cpu) (self : Slot) :
    Phase Lock → Choice Lock → Option (Machine Cpu Lock)
  | .run, choice => m.outside c self choice
  | .enter call, .next => m.acquirePt c (.exec (entered call))
  | .body call, .next => m.body c self call
  | .unlock chan lk, .next => m.release c lk (.exec (.doze chan (.sleep (some lk))))
  | .doze chan site, .next => some (m.table c (m.pt.sleep self chan) (.swtch site))
  | .swtch site, .next => m.sched c self site
  | .back site, .next => m.resume c self site
  | .held, .next => m.releasePt c (.exec .run)
  | .held, .wakeup1 chan => some (m.table c (m.pt.wakeup chan) .held)
  | .held, .sleep chan => some (m.goto c (.exec (.doze chan (.sleep none))))
  | .leave, .next => m.releasePt c (.exec .run)
  | .tidied lk, .next => m.releasePt c (.exec (.relock lk))
  | .relock lk, .next => m.acquire c lk (.exec .run)
  | _, _ => none

/-- A step of one processor. -/
def step (m : Machine Cpu Lock) : Cpu × Choice Lock → Option (Machine Cpu Lock)
  | (c, choice) =>
    match (m.cpu c).pc, choice with
    | .idle, .next => m.acquirePt c (.scan 0)
    | .idle, .interrupt => some (m.goto c .irq)
    | .irq, .next => if (m.cpu c).ncli = 0 then some (m.goto c .idle) else none
    | .irq, .irqWakeup chan => some (m.goto c (.irqEnter chan))
    | .irq, .acquire lk => m.acquire c lk .irq
    | .irq, .release lk => m.release c lk .irq
    | .irqEnter chan, .next => m.acquirePt c (.irqBody chan)
    | .irqBody chan, .next => some ({ m with pt := m.pt.wakeup chan }.goto c .irqLeave)
    | .irqLeave, .next => m.releasePt c .irq
    | .scan index, .next => m.scan c index
    | .returned, .next => some (m.returned c)
    | .exec phase, choice =>
      match (m.cpu c).proc with
      | none => none
      | some self => m.exec c self phase choice
    | _, _ => none

/-! ## Boot -/

/-- The state in which the schedulers start: the first process is ready, every
processor is idle and every lock is free. -/
def Boot (m : Machine Cpu Lock) : Prop :=
  ∃ k : Kernel, k.Boot ∧ m = {
    pt := k.pt
    place := fun _ => .user
    context := fun _ => .forkret
    cpu := fun _ => {}
    ptlock := none
    lock := fun _ => none }

/-- The runs of the machine. -/
abbrev Run (start : Machine Cpu Lock) :
    List (Machine Cpu Lock × (Cpu × Choice Lock)) → Machine Cpu Lock → Prop :=
  Transition.Run step (fun _ _ => True) start

end Machine

end Xv6.Smp
