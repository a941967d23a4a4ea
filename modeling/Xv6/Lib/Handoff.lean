import Xv6.Lib.Numerals

/-!
# Locks that are handed over by waking a thread

Mutexes and condition variables that put their waiters to sleep, as a protocol.
Each of them has a spinlock and a queue.  A waiter enters its key into the queue,
announces that it is about to park, lets go of the spinlock and parks; another
thread takes the key from the queue and unparks the waiter, which may not have
parked yet.  A mutex stays taken while it passes to the thread that is woken up.

What a program does is described by events.  A thread is described by what the
protocol needs to know about it, its view; `Effect` says which events are
admitted in a view and what the view is afterwards.
-/

namespace Handoff

variable {Thread Key Mutex Cond : Type}

inductive Obj (Mutex Cond : Type) where
  | mutex (m : Mutex)
  | condvar (c : Cond)
  deriving DecidableEq, Repr

/-! ## Park flags -/

/-- What is recorded about the parking of a thread. -/
structure Flags where
  isParked : Bool := false
  setPark : Bool := false
  immediateUnpark : Bool := false
  deriving DecidableEq, Repr

namespace Flags

def setpark (flags : Flags) : Flags :=
  if flags.immediateUnpark = false ∧ flags.setPark = false then
    { flags with setPark := true }
  else flags

def park (flags : Flags) : Flags :=
  if flags.immediateUnpark then { flags with immediateUnpark := false, setPark := false }
  else { flags with isParked := true, setPark := false }

def unpark (flags : Flags) : Flags :=
  if flags.setPark = true ∧ flags.isParked = false then
    { flags with immediateUnpark := true }
  else { flags with isParked := false }

end Flags

/-- How far a waiter has got. -/
inductive Stage where
  /-- Its key is in the queue. -/
  | listed
  /-- It has announced that it is about to park. -/
  | armed
  | parked
  deriving DecidableEq, Repr

/-- The flags of a waiter, while its wake-up is pending and after it. -/
def Stage.flags : Stage → Bool → Flags
  | .listed, _ => {}
  | .armed, pending => { setPark := true, immediateUnpark := !pending }
  | .parked, pending => { isParked := pending }

@[simp] theorem setpark_listed (pending : Bool) :
    (Stage.listed.flags pending).setpark = Stage.armed.flags true := rfl

@[simp] theorem park_armed (pending : Bool) :
    (Stage.armed.flags pending).park = Stage.parked.flags pending := by
  cases pending <;> rfl

theorem unpark_pending {stage : Stage} (announced : stage ≠ .listed) :
    (stage.flags true).unpark = stage.flags false := by
  cases stage with
  | listed => exact absurd rfl announced
  | armed => rfl
  | parked => rfl

/-! ## Views -/

/-- What a thread has found out about an object and relies on. -/
inductive Fact (Mutex Cond : Type) where
  | free (m : Mutex)
  | taken (m : Mutex)
  | empty (o : Obj Mutex Cond)
  | nonempty (o : Obj Mutex Cond)

def Fact.obj : Fact Mutex Cond → Obj Mutex Cond
  | .free m | .taken m => .mutex m
  | .empty o | .nonempty o => o

structure View (Key Mutex Cond : Type) where
  /-- The spinlock the thread holds. -/
  inside : Option (Obj Mutex Cond) := none
  /-- The object for which the thread has entered its key into the queue. -/
  waits : Option (Obj Mutex Cond × Stage) := none
  /-- A key that the thread has taken from a queue and not woken up yet. -/
  carries : Option (Obj Mutex Cond × Key) := none
  knows : Option (Fact Mutex Cond) := none
  owns : Mutex → Bool

inductive Event (Key Mutex Cond : Type) where
  | acquire (o : Obj Mutex Cond)
  | release (o : Obj Mutex Cond)
  | look (fact : Fact Mutex Cond)
  | take (m : Mutex)
  | clear (m : Mutex)
  | enqueue (o : Obj Mutex Cond)
  | dequeue (o : Obj Mutex Cond) (key : Key)
  | setpark
  | park
  | resume
  | unpark (key : Key)
  | silent

section
variable [DecidableEq Mutex]

/-- The events a thread may cause, and its view afterwards. -/
inductive Effect : Event Key Mutex Cond → View Key Mutex Cond → View Key Mutex Cond → Prop
    where
  | acquire {view : View Key Mutex Cond} {o : Obj Mutex Cond} : view.inside = none →
      Effect (.acquire o) view { view with inside := some o }
  | release {view : View Key Mutex Cond} {o : Obj Mutex Cond} : view.inside = some o →
      view.knows = none → view.carries = none →
      (∀ other, view.waits ≠ some (other, .listed)) →
      Effect (.release o) view { view with inside := none }
  | look {view : View Key Mutex Cond} {fact : Fact Mutex Cond}
      {knows : Option (Fact Mutex Cond)} : view.inside = some fact.obj →
      knows = none ∨ knows = some fact →
      Effect (.look fact) view { view with knows := knows }
  | take {view : View Key Mutex Cond} {m : Mutex} : view.inside = some (.mutex m) →
      view.knows = some (.free m) →
      Effect (.take m) view
        { view with knows := none, owns := Function.update view.owns m true }
  | clear {view : View Key Mutex Cond} {m : Mutex} : view.inside = some (.mutex m) →
      view.knows = some (.empty (.mutex m)) → view.owns m = true →
      Effect (.clear m) view
        { view with knows := none, owns := Function.update view.owns m false }
  | enqueue {view : View Key Mutex Cond} {o : Obj Mutex Cond} : view.inside = some o →
      view.waits = none → view.carries = none →
      (∀ m, o = .mutex m → view.knows = some (.taken m)) →
      Effect (.enqueue o) view { view with knows := none, waits := some (o, .listed) }
  | handOver {view : View Key Mutex Cond} {m : Mutex} {key : Key} :
      view.inside = some (.mutex m) → view.knows = some (.nonempty (.mutex m)) →
      view.owns m = true → view.carries = none →
      (∀ stage, view.waits ≠ some (.mutex m, stage)) →
      Effect (.dequeue (.mutex m) key) view
        { view with
          knows := none
          carries := some (.mutex m, key)
          owns := Function.update view.owns m false }
  | signal {view : View Key Mutex Cond} {c : Cond} {key : Key} :
      view.inside = some (.condvar c) → view.knows = some (.nonempty (.condvar c)) →
      view.carries = none → (∀ stage, view.waits ≠ some (.condvar c, stage)) →
      Effect (.dequeue (.condvar c) key) view
        { view with knows := none, carries := some (.condvar c, key) }
  | unpark {view : View Key Mutex Cond} {o : Obj Mutex Cond} {key : Key} :
      view.inside = some o → view.carries = some (o, key) → view.knows = none →
      Effect (.unpark key) view { view with carries := none }
  | setpark {view : View Key Mutex Cond} {o : Obj Mutex Cond} : view.inside = some o →
      view.waits = some (o, .listed) →
      Effect .setpark view { view with waits := some (o, .armed) }
  | park {view : View Key Mutex Cond} {o : Obj Mutex Cond} :
      view.waits = some (o, .armed) →
      Effect .park view { view with waits := some (o, .parked) }
  /-- A woken waiter of a mutex has it. -/
  | inherit {view : View Key Mutex Cond} {m : Mutex} :
      view.waits = some (.mutex m, .parked) →
      Effect .resume view
        { view with waits := none, owns := Function.update view.owns m true }
  | wake {view : View Key Mutex Cond} {c : Cond} :
      view.waits = some (.condvar c, .parked) →
      Effect .resume view { view with waits := none }
  | silent {view : View Key Mutex Cond} : Effect .silent view view

end

/-- A thread that takes no part in the protocol at the moment, apart from the mutexes
it may have. -/
structure View.Idle (view : View Key Mutex Cond) : Prop where
  inside : view.inside = none
  waits : view.waits = none
  carries : view.carries = none
  knows : view.knows = none

/-! ## States -/

structure State (Thread Key Mutex Cond : Type) where
  /-- The threads that use the objects. -/
  member : Thread → Bool
  key : Thread → Key
  flags : Thread → Flags
  view : Thread → View Key Mutex Cond
  locked : Obj Mutex Cond → Bool
  queue : Obj Mutex Cond → List Key
  /-- Whether a mutex is taken. -/
  flag : Mutex → Bool

namespace State

def Holds (s : State Thread Key Mutex Cond) : Fact Mutex Cond → Prop
  | .free m => s.flag m = false
  | .taken m => s.flag m = true
  | .empty o => s.queue o = []
  | .nonempty o => s.queue o ≠ []

/-- When an event can happen: a spinlock has to be free, a test has the outcome it
finds, keys leave a queue at its head, and a parked thread does not run. -/
def Enabled (s : State Thread Key Mutex Cond) (self : Thread) :
    Event Key Mutex Cond → Prop
  | .acquire o => s.locked o = false
  | .look fact => s.Holds fact
  | .dequeue o key => ∃ rest, s.queue o = key :: rest
  | .resume => (s.flags self).isParked = false
  | _ => True

variable [DecidableEq Thread] [DecidableEq Key] [DecidableEq Mutex] [DecidableEq Cond]

/-- The effect of an event apart from that on the view of the thread. -/
def act (s : State Thread Key Mutex Cond) (self : Thread) :
    Event Key Mutex Cond → State Thread Key Mutex Cond
  | .acquire o => { s with locked := Function.update s.locked o true }
  | .release o => { s with locked := Function.update s.locked o false }
  | .take m => { s with flag := Function.update s.flag m true }
  | .clear m => { s with flag := Function.update s.flag m false }
  | .enqueue o => { s with queue := Function.update s.queue o (s.queue o ++ [s.key self]) }
  | .dequeue o _ => { s with queue := Function.update s.queue o (s.queue o).tail }
  | .setpark => { s with flags := Function.update s.flags self (s.flags self).setpark }
  | .park => { s with flags := Function.update s.flags self (s.flags self).park }
  | .unpark key =>
    { s with
      flags := fun thread =>
        if s.member thread = true ∧ s.key thread = key then (s.flags thread).unpark
        else s.flags thread }
  | .look _ | .resume | .silent => s

/-- Give a thread another view. -/
def see (s : State Thread Key Mutex Cond) (self : Thread) (view : View Key Mutex Cond) :
    State Thread Key Mutex Cond :=
  { s with view := Function.update s.view self view }

end State

section
variable [DecidableEq Thread] [DecidableEq Key] [DecidableEq Mutex] [DecidableEq Cond]

/-- A thread causes an event or stops to use the objects, or something happens to
threads that do not use them. -/
inductive Step (s : State Thread Key Mutex Cond) : State Thread Key Mutex Cond → Prop where
  | exec {self : Thread} {event : Event Key Mutex Cond} {view : View Key Mutex Cond} :
      s.member self = true → s.Enabled self event → Effect event (s.view self) view →
      Step s ((s.act self event).see self view)
  | leave {self : Thread} : (s.view self).Idle →
      Step s { s with member := Function.update s.member self false }
  | foreign {key : Thread → Key} {flags : Thread → Flags} :
      (∀ thread, s.member thread = true →
        key thread = s.key thread ∧ flags thread = s.flags thread) →
      Step s { s with key := key, flags := flags }

end

end Handoff
