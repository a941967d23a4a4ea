import Xv6.Kernel.Park
import Xv6.User.Program

/-!
# Threads that use the library, on the kernel

The threads of one process share the memory of their locks.  They run on the
kernel model: `setpark`, `park` and `unpark` are steps of the kernel, a thread
executes an instruction when the kernel has it running in user mode, and in
between the scheduler, all other processes and the threads outside the library take
steps of their own.
-/

namespace Xv6

/-- The process that makes a step by itself.  The scheduler and interrupts act for
nobody. -/
def Action.actor : Action → Option Slot
  | .dispatch _ | .yield _ | .wakeup _ => none
  | .spawn self _ | .kstack self _ | .copyuvm self _ | .share self | .copyout self _
  | .publish self | .exit self | .wait self | .join self | .exec self _ | .sbrk self _
  | .growproc self _ | .setpark self | .park self | .unpark self _ | .kill self _
  | .sleep self _ => some self

namespace User

structure System where
  k : Kernel
  /-- The spinlocks. -/
  locked : Obj → Bool
  queue : Obj → PidQueue
  flag : MutexId → Bool
  value : Nat → Int
  pc : Slot → Pc
  /-- The client's mutexes a thread is allowed to unlock: those for which it has
  returned from `mutex_lock` and not called `mutex_unlock` since. -/
  held : Slot → Finset Nat

inductive Act where
  /-- A thread executes its next instruction. -/
  | run (self : Slot)
  | call (self : Slot) (op : Op)
  /-- A thread of the process exits. -/
  | exit (self : Slot)
  /-- Any other step of the kernel: of the scheduler, of another process, or of a
  thread in the client's code. -/
  | kernel (action : Action)

namespace System

def pid (s : System) (self : Slot) : Int := (s.k.pt.proc self).pid

/-- The effect of an instruction on the memory and the kernel, and its answer. -/
def execute (s : System) (self : Slot) : Instr → Option (System × Answer)
  -- a thread that does not get the lock tries again
  | .spinLock o =>
    if s.locked o then none
    else some ({ s with locked := Function.update s.locked o true }, {})
  | .spinUnlock o => some ({ s with locked := Function.update s.locked o false }, {})
  | .testFlag m => some (s, { test := !s.flag m })
  | .setFlag m value => some ({ s with flag := Function.update s.flag m value }, {})
  | .queueEmpty o => some (s, { test := (s.queue o).empty })
  | .queueAdd o =>
    some ({ s with queue := Function.update s.queue o ((s.queue o).add (s.pid self)) }, {})
  | .queueRemove o =>
    some ({ s with queue := Function.update s.queue o (s.queue o).remove.2 },
      { pid := (s.queue o).remove.1 })
  | .setpark => (s.k.step (.setpark self)).map fun k => ({ s with k := k }, {})
  | .park => (s.k.step (.park self)).map fun k => ({ s with k := k }, {})
  | .resume => some (s, {})
  | .unpark pid => (s.k.step (.unpark self pid)).map fun k => ({ s with k := k }, {})
  | .testValue n => some (s, { test := decide (s.value n ≤ 0) })
  | .readValue n => some (s, { value := s.value n })
  | .writeValue n value => some ({ s with value := Function.update s.value n value }, {})

/-- Move a thread to another instruction. -/
def goto (s : System) (self : Slot) (pc : Pc) (held : Finset Nat) : System :=
  { s with
    pc := Function.update s.pc self pc
    held := Function.update s.held self held }

/-- Execute the next instruction of a thread that runs in user mode. -/
def run (s : System) (self : Slot) : Option System :=
  match (s.pc self).instr with
  | none => none
  | some instr =>
    if s.k.At self .user then
      (s.execute self instr).map fun outcome =>
        outcome.1.goto self ((s.pc self).next outcome.2)
          ((s.pc self).heldAfter (s.held self))
    else none

/-- The client calls an operation. -/
def call (s : System) (self : Slot) (op : Op) : Option System :=
  if s.k.At self .user ∧ s.pc self = .idle ∧ op.needs.all (· ∈ s.held self) then
    some (s.goto self op.entry (op.heldAfter (s.held self)))
  else none

/-- The threads use the park protocol through the library only.  Their other system
calls come from the client's code. -/
def allows (s : System) : Action → Bool
  | .exit self | .exec self _ | .setpark self | .park self | .unpark self _ =>
    decide (s.pc self = .outside)
  | action => action.actor.all fun self => decide (s.pc self = .outside ∨ s.pc self = .idle)

def step (s : System) : Act → Option System
  | .run self => s.run self
  | .call self op => s.call self op
  | .exit self =>
    if s.pc self = .outside then none
    else (s.k.step (.exit self)).map fun k =>
      { s with k := k }.goto self .outside (s.held self)
  | .kernel action =>
    if s.allows action then
      (s.k.step action).map fun k => { s with k := k }
    else none

/-- The states in which the threads start, on any state of the kernel: each thread in
the client's code, with clear park flags and not killed, and all locks initialised
and free. -/
structure Start (s : System) : Prop where
  kernel : Kernel.Reachable (fun _ _ => True) s.k
  locked : ∀ o, s.locked o = false
  queue : ∀ o, s.queue o = []
  flag : ∀ m, s.flag m = false
  value : ∀ n, IsInt (s.value n)
  held : ∀ self, s.held self = ∅
  thread : ∀ self, s.pc self ≠ .outside → s.pc self = .idle ∧
    (s.k.pt.proc self).state.Live ∧ (s.k.pt.proc self).isParked = false ∧
    (s.k.pt.proc self).setPark = false ∧ (s.k.pt.proc self).immediateUnpark = false ∧
    (s.k.pt.proc self).killed = false

/-- The first process creates a thread. -/
def cloneActions (kstack : Nat) : List Action :=
  [.spawn 0 (.clone 0 0), .kstack 0 kstack, .share 0, .copyout 0 true, .publish 0]

/-- The first process has created three threads, which run. -/
def threadActions : List Action :=
  .dispatch 0 :: (cloneActions 3 ++ cloneActions 4 ++ cloneActions 5) ++
    [.dispatch 1, .dispatch 2, .dispatch 3]

def threadKernel : Kernel :=
  (Transition.exec Kernel.step Kernel.firstBoot threadActions).get (by decide +kernel)

theorem reachable_threadKernel : Kernel.Reachable (fun _ _ => True) threadKernel := by
  have executed : Transition.exec Kernel.step Kernel.firstBoot threadActions =
      some threadKernel := (Option.some_get _).symm
  exact ⟨Kernel.firstBoot, _, Kernel.boot_firstBoot, .of_exec executed fun _ _ => trivial⟩

/-- Three threads that are about to use the library. -/
def threeThreads : System where
  k := threadKernel
  locked := fun _ => false
  queue := fun _ => []
  flag := fun _ => false
  value := fun _ => 0
  pc := fun self => if self = 1 ∨ self = 2 ∨ self = 3 then .idle else .outside
  held := fun _ => ∅

theorem start_threeThreads : threeThreads.Start where
  kernel := reachable_threadKernel
  locked _ := rfl
  queue _ := rfl
  flag _ := rfl
  value _ := show IsInt 0 by decide
  held _ := rfl
  thread := by decide +kernel

end System

end User

end Xv6
