import Xv6.Kernel.Proc
import Xv6.Lib.Handoff

/-!
# The thread library

The locks of the user library: spinlocks, the mutexes, condition variables and
semaphores built on them and on `setpark`, `park` and `unpark`, and the queues of
pids.

A call is executed one instruction at a time.  An instruction is one access to
shared memory, one operation on a queue or one system call; `Pc` says which
instruction of which function comes next and where the function returns to, and
`Pc.next` is the control flow.
-/

namespace Xv6.User

/-! ## Objects -/

/-- A mutex of the client, or the one inside a semaphore. -/
inductive MutexId where
  | user (m : Nat)
  | sem (n : Nat)
  deriving DecidableEq, Repr

/-- A condition variable of the client, or the one inside a semaphore. -/
inductive CondId where
  | user (c : Nat)
  | sem (n : Nat)
  deriving DecidableEq, Repr

/-- What has a spinlock and a queue of pids: a mutex, whose spinlock is its guard,
or a condition variable, whose spinlock is the one in its queue. -/
abbrev Obj := Handoff.Obj MutexId CondId

/-! ## Queues of pids

The linked list of `pidqueue.c`, from head to tail. -/

abbrev PidQueue := List Int

def PidQueue.add (q : PidQueue) (pid : Int) : PidQueue := q ++ [pid]

def PidQueue.empty (q : PidQueue) : Bool := q.isEmpty

/-- The pid at the head and what is left; an empty queue answers -1. -/
def PidQueue.remove : PidQueue → Int × PidQueue
  | [] => (-1, [])
  | pid :: rest => (pid, rest)

theorem PidQueue.remove_snd (q : PidQueue) : q.remove.2 = q.tail := by
  cases q <;> rfl

/-! ## Instructions -/

/-- Wrap an integer to the range of an `int`. -/
def toInt (value : Int) : Int := Int.bmod value (2 ^ 32)

variable {value : Int}

theorem toInt_of_isInt (isInt : IsInt value) : toInt value = value := by
  have bounds : -2 ^ 31 ≤ value ∧ value ≤ intMax := isInt
  simp only [intMax] at bounds
  apply Int.bmod_eq_of_le <;> omega

theorem isInt_toInt (value : Int) : IsInt (toInt value) := by
  have lower := Int.le_bmod (x := value) (m := 2 ^ 32) (by decide)
  have upper := Int.bmod_lt (x := value) (m := 2 ^ 32) (by decide)
  simp only [IsInt, toInt, intMax]
  omega

theorem toInt_le (lower : -2 ^ 31 ≤ value) : toInt value ≤ value := by
  by_cases isInt : IsInt value
  · exact (toInt_of_isInt isInt).le
  · have upper := (isInt_toInt value).2
    simp only [IsInt, intMax] at isInt upper
    omega

inductive Instr where
  | spinLock (o : Obj)
  | spinUnlock (o : Obj)
  /-- `mtx->flag == 0` -/
  | testFlag (m : MutexId)
  | setFlag (m : MutexId) (value : Bool)
  | queueEmpty (o : Obj)
  /-- `queue_add(q, getpid())` -/
  | queueAdd (o : Obj)
  | queueRemove (o : Obj)
  | setpark
  | park
  /-- The return from `park`. -/
  | resume
  | unpark (pid : Int)
  /-- `sem->value <= 0` -/
  | testValue (n : Nat)
  | readValue (n : Nat)
  | writeValue (n : Nat) (value : Int)
  deriving DecidableEq, Repr

/-- What an instruction tells the thread: the outcome of a test, a pid, a value. -/
structure Answer where
  test : Bool := false
  pid : Int := 0
  value : Int := 0
  deriving DecidableEq, Repr

/-! ## Calls

A function of the library is called by the client or by another function of the
library. -/

/-- A call of `cv_wait`. -/
inductive CvWait where
  | client (c m : Nat)
  | semWait (n : Nat)
  deriving DecidableEq, Repr

def CvWait.cv : CvWait → CondId
  | .client c _ => .user c
  | .semWait n => .sem n

def CvWait.mtx : CvWait → MutexId
  | .client _ m => .user m
  | .semWait n => .sem n

/-- The mutex of the client, if it is the client that calls. -/
def CvWait.client? : CvWait → Option Nat
  | .client _ m => some m
  | .semWait _ => none

/-- A call of `mutex_lock` or of `mutex_unlock`. -/
inductive MutexCall where
  | client (m : Nat)
  | cvWait (call : CvWait)
  | semWait (n : Nat)
  | semPost (n : Nat)
  deriving DecidableEq, Repr

def MutexCall.mtx : MutexCall → MutexId
  | .client m => .user m
  | .cvWait call => call.mtx
  | .semWait n | .semPost n => .sem n

/-- The mutex of the client, if it is the client that calls, or the client's
`cv_wait`. -/
def MutexCall.client? : MutexCall → Option Nat
  | .client m => some m
  | .cvWait call => call.client?
  | .semWait _ | .semPost _ => none

/-- A call of `cv_signal`. -/
inductive CvSignal where
  | client (c : Nat)
  | semPost (n : Nat)
  deriving DecidableEq, Repr

def CvSignal.cv : CvSignal → CondId
  | .client c => .user c
  | .semPost n => .sem n

/-! ## Program counters -/

/-- Places in `mutex_lock`. -/
inductive LockPc where
  | guard
  | test
  | take
  /-- `spin_unlock` after taking the flag. -/
  | leave
  | add
  | setpark
  /-- `spin_unlock` before `park`. -/
  | unguard
  | park
  /-- In `park`, or back from it. -/
  | parked
  deriving DecidableEq, Repr

/-- Places in `mutex_unlock`. -/
inductive UnlockPc where
  | guard
  | test
  | clear
  | remove
  | unpark (pid : Int)
  | unguard
  deriving DecidableEq, Repr

/-- Places in `cv_wait`, apart from the calls of `mutex_unlock` and `mutex_lock`. -/
inductive WaitPc where
  | clock
  | add
  | setpark
  | unclock
  | park
  | parked
  deriving DecidableEq, Repr

/-- Places in `cv_signal` and in `cv_broadcast`. -/
inductive SignalPc where
  | clock
  | test
  | remove
  | unpark (pid : Int)
  | unclock
  deriving DecidableEq, Repr

inductive Pc where
  /-- Not a thread that uses these objects. -/
  | outside
  /-- In the client's own code. -/
  | idle
  | lock (call : MutexCall) (place : LockPc)
  | unlock (call : MutexCall) (place : UnlockPc)
  | wait (call : CvWait) (place : WaitPc)
  | signal (call : CvSignal) (place : SignalPc)
  | broadcast (c : Nat) (place : SignalPc)
  /-- The loop test of `sem_wait`, the first time or after a `cv_wait`. -/
  | semTest (n : Nat) (again : Bool)
  /-- `sem->value--`, before and after the value is read. -/
  | semDecrement (n : Nat) (read : Option Int)
  /-- `sem->value++`, before and after the value is read. -/
  | semIncrement (n : Nat) (read : Option Int)
  deriving DecidableEq, Repr

/-- Where `mutex_lock` returns to. -/
def MutexCall.lockReturn : MutexCall → Pc
  | .client _ => .idle
  | .cvWait (.client _ _) => .idle
  | .cvWait (.semWait n) => .semTest n true
  | .semWait n => .semTest n false
  | .semPost n => .semIncrement n none

/-- Where `mutex_unlock` returns to. -/
def MutexCall.unlockReturn : MutexCall → Pc
  | .cvWait call => .wait call .park
  | .client _ | .semWait _ | .semPost _ => .idle

/-- Where `cv_signal` returns to. -/
def CvSignal.return : CvSignal → Pc
  | .client _ => .idle
  | .semPost n => .unlock (.semPost n) .guard

namespace Pc

/-- The next instruction. -/
def instr : Pc → Option Instr
  | .outside | .idle => none
  | .lock call place =>
    match place with
    | .guard => some (.spinLock (.mutex call.mtx))
    | .test => some (.testFlag call.mtx)
    | .take => some (.setFlag call.mtx true)
    | .leave => some (.spinUnlock (.mutex call.mtx))
    | .add => some (.queueAdd (.mutex call.mtx))
    | .setpark => some .setpark
    | .unguard => some (.spinUnlock (.mutex call.mtx))
    | .park => some .park
    | .parked => some .resume
  | .unlock call place =>
    match place with
    | .guard => some (.spinLock (.mutex call.mtx))
    | .test => some (.queueEmpty (.mutex call.mtx))
    | .clear => some (.setFlag call.mtx false)
    | .remove => some (.queueRemove (.mutex call.mtx))
    | .unpark pid => some (.unpark pid)
    | .unguard => some (.spinUnlock (.mutex call.mtx))
  | .wait call place =>
    match place with
    | .clock => some (.spinLock (.condvar call.cv))
    | .add => some (.queueAdd (.condvar call.cv))
    | .setpark => some .setpark
    | .unclock => some (.spinUnlock (.condvar call.cv))
    | .park => some .park
    | .parked => some .resume
  | .signal call place =>
    match place with
    | .clock => some (.spinLock (.condvar call.cv))
    | .test => some (.queueEmpty (.condvar call.cv))
    | .remove => some (.queueRemove (.condvar call.cv))
    | .unpark pid => some (.unpark pid)
    | .unclock => some (.spinUnlock (.condvar call.cv))
  | .broadcast c place =>
    match place with
    | .clock => some (.spinLock (.condvar (.user c)))
    | .test => some (.queueEmpty (.condvar (.user c)))
    | .remove => some (.queueRemove (.condvar (.user c)))
    | .unpark pid => some (.unpark pid)
    | .unclock => some (.spinUnlock (.condvar (.user c)))
  | .semTest n _ => some (.testValue n)
  | .semDecrement n none | .semIncrement n none => some (.readValue n)
  | .semDecrement n (some value) => some (.writeValue n (toInt (value - 1)))
  | .semIncrement n (some value) => some (.writeValue n (toInt (value + 1)))

/-- Where a thread goes from an instruction. -/
def next (pc : Pc) (answer : Answer) : Pc :=
  match pc with
  | .outside => .outside
  | .idle => .idle
  | .lock call place =>
    match place with
    | .guard => .lock call .test
    | .test => .lock call (if answer.test then .take else .add)
    | .take => .lock call .leave
    | .leave => call.lockReturn
    | .add => .lock call .setpark
    | .setpark => .lock call .unguard
    | .unguard => .lock call .park
    | .park => .lock call .parked
    | .parked => call.lockReturn
  | .unlock call place =>
    match place with
    | .guard => .unlock call .test
    | .test => .unlock call (if answer.test then .clear else .remove)
    | .clear => .unlock call .unguard
    | .remove => .unlock call (.unpark answer.pid)
    | .unpark _ => .unlock call .unguard
    | .unguard => call.unlockReturn
  | .wait call place =>
    match place with
    | .clock => .wait call .add
    | .add => .wait call .setpark
    | .setpark => .wait call .unclock
    | .unclock => .unlock (.cvWait call) .guard
    | .park => .wait call .parked
    | .parked => .lock (.cvWait call) .guard
  | .signal call place =>
    match place with
    | .clock => .signal call .test
    | .test => .signal call (if answer.test then .unclock else .remove)
    | .remove => .signal call (.unpark answer.pid)
    | .unpark _ => .signal call .unclock
    | .unclock => call.return
  | .broadcast c place =>
    match place with
    | .clock => .broadcast c .test
    | .test => .broadcast c (if answer.test then .unclock else .remove)
    | .remove => .broadcast c (.unpark answer.pid)
    | .unpark _ => .broadcast c .test
    | .unclock => .idle
  | .semTest n _ =>
    if answer.test then .wait (.semWait n) .clock else .semDecrement n none
  | .semDecrement n none => .semDecrement n (some answer.value)
  | .semDecrement n (some _) => .unlock (.semWait n) .guard
  | .semIncrement n none => .semIncrement n (some answer.value)
  | .semIncrement n (some _) => .signal (.semPost n) .clock

/-- The client's mutex for which `mutex_lock`, or `cv_wait` after it, returns to the
client with this instruction. -/
def returns : Pc → Option Nat
  | .lock call .leave | .lock call .parked => call.client?
  | _ => none

/-- The client's mutex for which `cv_wait` calls `mutex_unlock` after this
instruction. -/
def releases : Pc → Option Nat
  | .wait call .unclock => call.client?
  | _ => none

/-- The client's mutexes a thread holds after an instruction. -/
def heldAfter (pc : Pc) (held : Finset Nat) : Finset Nat :=
  match pc.returns, pc.releases with
  | some m, _ => insert m held
  | none, some m => held.erase m
  | none, none => held

end Pc

/-! ## Operations of the client -/

inductive Op where
  | mutexLock (m : Nat)
  | mutexUnlock (m : Nat)
  | cvWait (c m : Nat)
  | cvSignal (c : Nat)
  | cvBroadcast (c : Nat)
  | semWait (n : Nat)
  | semPost (n : Nat)
  deriving DecidableEq, Repr

namespace Op

/-- The first instruction. -/
def entry : Op → Pc
  | .mutexLock m => .lock (.client m) .guard
  | .mutexUnlock m => .unlock (.client m) .guard
  | .cvWait c m => .wait (.client c m) .clock
  | .cvSignal c => .signal (.client c) .clock
  | .cvBroadcast c => .broadcast c .clock
  | .semWait n => .lock (.semWait n) .guard
  | .semPost n => .lock (.semPost n) .guard

/-- The mutex the caller has to hold: `mutex_unlock` is for the thread that last
returned from `mutex_lock`. -/
def needs : Op → Option Nat
  | .mutexUnlock m | .cvWait _ m => some m
  | _ => none

/-- The client's mutexes a thread holds once it has called the operation. -/
def heldAfter (op : Op) (held : Finset Nat) : Finset Nat :=
  match op with
  | .mutexUnlock m => held.erase m
  | _ => held

end Op

end Xv6.User
