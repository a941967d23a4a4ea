import Xv6.Kernel.ProcTable
import Xv6.Lib.Transition

/-!
# The kernel as a transition system

Any number of processes run system calls concurrently.  A step is one section
under `ptable.lock`, or one stretch of `fork`, `clone`, `exec` and `sys_sbrk`
that runs without it, so that the states of the system are the states in which
the lock is free.

Where a process is inside the kernel is recorded in `pc`.  Kernel code can be
preempted wherever no lock is held, so a process may yield at every place; a
process that sleeps resumes at the place where it called `sched`.
-/

namespace Xv6

/-- Which call is creating a slot. -/
inductive Spawn where
  | fork
  | clone (fn ustack : Nat)
  deriving DecidableEq, Repr

/-- Where a process is in the kernel. -/
inductive KernelPc where
  /-- At a system call boundary. -/
  | user
  /-- In `sleep`, called by a system call other than `wait` and `join`. -/
  | sleep
  | park
  /-- In the `sleep` of `wait`, or of `join`. -/
  | wait
  | join
  /-- In `fork` or `clone`, after the locked section of `allocproc`. -/
  | kstack (np : Slot) (spawn : Spawn)
  /-- After `allocproc`, before the caller's data is copied. -/
  | copy (np : Slot) (spawn : Spawn)
  /-- In `clone`, before the `copyout` to the new stack. -/
  | copyout (np : Slot) (fn ustack : Nat)
  /-- Before the new slot is made runnable. -/
  | publish (np : Slot)
  /-- In `sys_sbrk`, between the read of `proc->sz` and `growproc`. -/
  | sbrk (n : Int) (addr : Nat)
  deriving DecidableEq, Repr

/-- The slot a process is creating. -/
def KernelPc.creates : KernelPc → Option Slot
  | .kstack np _ | .copy np _ | .copyout np _ _ | .publish np => some np
  | _ => none

structure Kernel where
  pt : Ptable
  pc : Slot → KernelPc

/-- The steps.  Arguments other than the acting process are the arguments of the
system call or the answers of the memory allocator. -/
inductive Action where
  | dispatch (slot : Slot)
  | yield (self : Slot)
  | spawn (self : Slot) (kind : Spawn)
  | kstack (self : Slot) (page : Nat)
  | copyuvm (self : Slot) (pgdir : Nat)
  | share (self : Slot)
  | copyout (self : Slot) (mapped : Bool)
  | publish (self : Slot)
  | exit (self : Slot)
  | wait (self : Slot)
  | join (self : Slot)
  | exec (self : Slot) (image : Ptable.Image)
  | sbrk (self : Slot) (n : Int)
  | growproc (self : Slot) (memory : Bool)
  | setpark (self : Slot)
  | park (self : Slot)
  | unpark (self : Slot) (pid : Int)
  | kill (self : Slot) (pid : Int)
  | sleep (self : Slot) (object : KernelObject)
  | wakeup (object : KernelObject)

namespace Kernel

/-- A process runs at a given place. -/
def At (k : Kernel) (self : Slot) (pc : KernelPc) : Prop :=
  (k.pt.proc self).state = .running ∧ k.pc self = pc

instance (k : Kernel) (self : Slot) (pc : KernelPc) : Decidable (k.At self pc) :=
  inferInstanceAs (Decidable (_ ∧ _))

/-- Move a process to another place. -/
def goto (k : Kernel) (self : Slot) (pc : KernelPc) : Kernel :=
  { k with pc := Table.set k.pc self fun _ => pc }

/-- Install the outcome of one pass of `wait` or `join`. -/
def scanned (k : Kernel) (self : Slot) (asleep : KernelPc)
    (outcome : Ptable × Ptable.Scan) : Kernel :=
  { k with pt := outcome.1 }.goto self
    (if outcome.2 = Ptable.Scan.sleeps then asleep else .user)

/-- The scheduler gives a processor to a process, which goes on where it left
off.  `sleep` clears the channel; `wait` and `join` scan the table again before
they let go of the lock. -/
def resume (k : Kernel) (slot : Slot) : Kernel :=
  let pt := k.pt.dispatch slot
  match k.pc slot with
  | .sleep => { k with pt := pt.awake slot }.goto slot .user
  | .park => { k with pt := pt }.goto slot .user
  | .wait => k.scanned slot .wait ((pt.awake slot).waitScan slot)
  | .join => k.scanned slot .join ((pt.awake slot).joinScan slot)
  | _ => { k with pt := pt }

/-- `fork` and `clone` begin with `allocproc`.  Signed overflow of `nextpid` is
undefined, so that no step is taken there. -/
def spawn (k : Kernel) (self : Slot) (kind : Spawn) : Option Kernel :=
  if k.At self .user ∧ k.pt.nextpid < intMax then
    match k.pt.allocproc with
    | none => some k
    | some (np, pt) =>
      some (({ k with pt := pt }.goto np .user).goto self (.kstack np kind))
  else none

/-- The rest of `allocproc`. -/
def kstack (k : Kernel) (self : Slot) (page : Nat) : Option Kernel :=
  match k.pc self, k.pt.kalloc page with
  | .kstack np kind, some pt =>
    if (k.pt.proc self).state = .running then
      some ({ k with pt := pt.allocKstack np page }.goto self
        (if page = 0 then .user else .copy np kind))
    else none
  | _, _ => none

/-- `fork` calls `copyuvm`, which returns a new page directory or null. -/
def copyuvm (k : Kernel) (self : Slot) (pgdir : Nat) : Option Kernel :=
  match k.pc self, k.pt.kalloc pgdir with
  | .copy np .fork, some pt =>
    if (k.pt.proc self).state = .running then
      if pgdir = 0 then
        some ({ k with pt := pt.abandonFork np }.goto self .user)
      else
        some ({ k with pt := pt.forkCopy self np pgdir }.goto self (.publish np))
    else none
  | _, _ => none

/-- `clone` copies the caller's data. -/
def share (k : Kernel) (self : Slot) : Option Kernel :=
  match k.pc self with
  | .copy np (.clone fn ustack) =>
    if (k.pt.proc self).state = .running then
      some ({ k with pt := k.pt.cloneCopy self np }.goto self (.copyout np fn ustack))
    else none
  | _ => none

/-- `clone` writes to the new stack, which may not be mapped. -/
def copyout (k : Kernel) (self : Slot) (mapped : Bool) : Option Kernel :=
  match k.pc self with
  | .copyout np fn ustack =>
    if (k.pt.proc self).state = .running then
      if mapped then
        some ({ k with pt := k.pt.cloneStack np fn ustack }.goto self (.publish np))
      else
        some ({ k with pt := k.pt.abandon np }.goto self .user)
    else none
  | _ => none

/-- The new slot becomes runnable and the call returns its pid. -/
def publish (k : Kernel) (self : Slot) : Option Kernel :=
  match k.pc self with
  | .publish np =>
    if (k.pt.proc self).state = .running then
      some ({ k with pt := k.pt.publish self np }.goto self .user)
    else none
  | _ => none

/-- `exec` commits to a new image; a failing `exec` does not change the table.  The
size of the image is a result of `allocuvm`. -/
def exec (k : Kernel) (self : Slot) (image : Ptable.Image) : Option Kernel :=
  match k.pt.kalloc image.pgdir with
  | some pt =>
    if k.At self .user ∧ image.pgdir ≠ 0 ∧ image.sz ≤ usertop then
      some { k with pt := pt.exec self image }
    else none
  | none => none

/-- `sys_sbrk` calls `growproc`. -/
def growproc (k : Kernel) (self : Slot) (memory : Bool) : Option Kernel :=
  match k.pc self with
  | .sbrk n _ =>
    if (k.pt.proc self).state = .running then
      some ({ k with pt := (k.pt.growproc self n memory).1 }.goto self .user)
    else none
  | _ => none

/-- A call that is one locked section. -/
def call (k : Kernel) (self : Slot) (pt : Ptable) : Option Kernel :=
  if k.At self .user then some { k with pt := pt } else none

def step (k : Kernel) : Action → Option Kernel
  | .dispatch slot =>
    if (k.pt.proc slot).state = .runnable then some (k.resume slot) else none
  | .yield self =>
    if (k.pt.proc self).state = .running then some { k with pt := k.pt.yield self }
    else none
  | .spawn self kind => k.spawn self kind
  | .kstack self page => k.kstack self page
  | .copyuvm self pgdir => k.copyuvm self pgdir
  | .share self => k.share self
  | .copyout self mapped => k.copyout self mapped
  | .publish self => k.publish self
  -- `initproc` panics in `exit`
  | .exit self => if self = k.pt.initproc then none else k.call self (k.pt.exit self)
  | .wait self =>
    if k.At self .user then some (k.scanned self .wait (k.pt.waitScan self)) else none
  | .join self =>
    if k.At self .user then some (k.scanned self .join (k.pt.joinScan self)) else none
  | .exec self image => k.exec self image
  | .sbrk self n =>
    if k.At self .user ∧ IsInt n then
      some (k.goto self (.sbrk n (k.pt.proc self).sz))
    else none
  | .growproc self memory => k.growproc self memory
  | .setpark self => k.call self (k.pt.setpark self).1
  | .park self =>
    if k.At self .user then
      some ({ k with pt := k.pt.park self }.goto self
        (if ((k.pt.park self).proc self).state = ProcState.sleeping then .park else .user))
    else none
  | .unpark self pid => k.call self (k.pt.unpark pid).1
  | .kill self pid => k.call self (k.pt.kill pid).1
  | .sleep self object =>
    if k.At self .user then
      some ({ k with pt := k.pt.sleep self (.object object) }.goto self .sleep)
    else none
  | .wakeup object => some { k with pt := k.pt.wakeup (.object object) }

/-! ## Boot -/

/-- The table before the first process: all bytes zero. -/
def zeroed (past : Proc) : Ptable where
  proc := fun _ => {}
  past := past
  initproc := 0
  nextpid := 1
  pages := fun _ => false

/-- `userinit`, with the pages it allocates. -/
def userinit (pt : Ptable) (kstack pgdir : Nat) : Option Ptable :=
  match pt.allocproc with
  | none => none
  | some (np, pt) =>
    match pt.kalloc kstack with
    | none => none
    | some pt =>
      match (pt.allocKstack np kstack).kalloc pgdir with
      | none => none
      | some pt =>
        if kstack = 0 ∨ pgdir = 0 then none
        else
          some { pt.modify np fun entry =>
            { entry with
              pgdir := pgdir
              sz := pgsize
              tf := { cs := 0x23, ds := 0x2b, es := 0x2b, ss := 0x2b,
                      eflags := 0x200, esp := pgsize, eip := 0 }
              name := "initcode"
              cwd := some 0
              state := .runnable } with
            initproc := np }

/-- The states in which the scheduler starts. -/
def Boot (k : Kernel) : Prop :=
  ∃ past kstack pgdir, userinit (zeroed past) kstack pgdir = some k.pt ∧
    k.pc = fun _ => .user

/-- One such state, with the first process on pages 1 and 2. -/
def firstBoot : Kernel where
  pt := (userinit (zeroed {}) 1 2).getD (zeroed {})
  pc := fun _ => .user

theorem boot_firstBoot : Boot firstBoot := ⟨{}, 1, 2, rfl, rfl⟩

/-- The states reached from boot by steps that meet a guard. -/
def Reachable (guard : Kernel → Action → Prop) (k : Kernel) : Prop :=
  ∃ start trace, Boot start ∧ Transition.Run step guard start trace k

/-- The first process forks a child, and the child runs. -/
def withChild : List Action :=
  [.dispatch 0, .spawn 0 .fork, .kstack 0 3, .copyuvm 0 4, .publish 0, .dispatch 1]

/-- The child then starts a thread. -/
def withThread : List Action :=
  withChild ++ [.spawn 1 (.clone 100 8192), .kstack 1 5, .share 1, .copyout 1 true, .publish 1]

theorem reachable_exec {guard : Kernel → Action → Prop} {property : Kernel → Prop}
    [DecidablePred property] (actions : List Action)
    (allowed : ∀ entry ∈ Transition.traceOf step firstBoot actions, guard entry.1 entry.2)
    (met : (Transition.exec step firstBoot actions).any (decide <| property ·) = true) :
    ∃ k, Reachable guard k ∧ property k := by
  obtain ⟨k, run, holds⟩ := Transition.Run.of_exec_met actions allowed met
  exact ⟨k, ⟨firstBoot, _, boot_firstBoot, run⟩, holds⟩

end Kernel

end Xv6
