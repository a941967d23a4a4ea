import Xv6.User.Program

/-!
# The library follows the hand-over protocol

What the protocol needs to know about a thread can be read off its program
counter and the mutexes it holds.  Every instruction of the library is an event
that the protocol admits at that place, and the control flow leads to the view
that the protocol asks for.
-/

namespace Xv6.User

open Function

open Handoff (Fact Stage Event View Effect)

/-- The `cv_wait` that calls. -/
def MutexCall.cvWait? : MutexCall → Option CvWait
  | .cvWait call => some call
  | .client _ | .semWait _ | .semPost _ => none

/-- The mutex of the semaphore that calls. -/
def CvWait.sem? : CvWait → Option MutexId
  | .client _ _ => none
  | .semWait n => some (.sem n)

/-- The mutex of the semaphore that calls. -/
def CvSignal.sem? : CvSignal → Option MutexId
  | .client _ => none
  | .semPost n => some (.sem n)

namespace Pc

/-- The spinlock a thread holds. -/
def spinlock : Pc → Option Obj
  | .lock call place =>
    match place with
    | .guard | .park | .parked => none
    | .test | .take | .leave | .add | .setpark | .unguard => some (.mutex call.mtx)
  | .unlock call place =>
    match place with
    | .guard => none
    | .test | .clear | .remove | .unpark _ | .unguard => some (.mutex call.mtx)
  | .wait call place =>
    match place with
    | .clock | .park | .parked => none
    | .add | .setpark | .unclock => some (.condvar call.cv)
  | .signal call place =>
    match place with
    | .clock => none
    | .test | .remove | .unpark _ | .unclock => some (.condvar call.cv)
  | .broadcast c place =>
    match place with
    | .clock => none
    | .test | .remove | .unpark _ | .unclock => some (.condvar (.user c))
  | .outside | .idle | .semTest _ _ | .semDecrement _ _ | .semIncrement _ _ => none

/-- The object in whose queue a thread has entered its pid, until it is back from
`park`.  `cv_wait` calls `mutex_unlock` in between. -/
def waits : Pc → Option (Obj × Stage)
  | .lock call .setpark => some (.mutex call.mtx, .listed)
  | .lock call .unguard | .lock call .park => some (.mutex call.mtx, .armed)
  | .lock call .parked => some (.mutex call.mtx, .parked)
  | .wait call .setpark => some (.condvar call.cv, .listed)
  | .wait call .unclock | .wait call .park => some (.condvar call.cv, .armed)
  | .wait call .parked => some (.condvar call.cv, .parked)
  | .unlock call _ => call.cvWait?.map fun call => (.condvar call.cv, .armed)
  | _ => none

/-- The pid that a thread has taken from a queue and not unparked yet. -/
def carries : Pc → Option (Obj × Int)
  | .unlock call (.unpark pid) => some (.mutex call.mtx, pid)
  | .signal call (.unpark pid) => some (.condvar call.cv, pid)
  | .broadcast c (.unpark pid) => some (.condvar (.user c), pid)
  | _ => none

/-- The outcome of the last test, while the thread relies on it. -/
def knows : Pc → Option (Fact MutexId CondId)
  | .lock call .take => some (.free call.mtx)
  | .lock call .add => some (.taken call.mtx)
  | .unlock call .clear => some (.empty (.mutex call.mtx))
  | .unlock call .remove => some (.nonempty (.mutex call.mtx))
  | .signal call .remove => some (.nonempty (.condvar call.cv))
  | .broadcast c .remove => some (.nonempty (.condvar (.user c)))
  | _ => none

/-- The mutex of a semaphore between the return from `mutex_lock` and the call of
`mutex_unlock` in `sem_wait`, `sem_post` and the `cv_wait` in between. -/
def critical : Pc → Option MutexId
  | .semTest n _ | .semDecrement n _ | .semIncrement n _ => some (.sem n)
  | .signal call _ => call.sem?
  | .wait call .clock | .wait call .add | .wait call .setpark
  | .wait call .unclock => call.sem?
  | _ => none

/-- The mutex that a call of the library has: in `mutex_lock` once the flag is taken,
in `mutex_unlock` until the guarded section has given it away, and in the
functions of semaphores. -/
def owns : Pc → Option MutexId
  | .lock call .leave => some call.mtx
  | .unlock call .guard | .unlock call .test | .unlock call .clear
  | .unlock call .remove => some call.mtx
  | pc => pc.critical

/-- The client's mutex that `cv_wait` is going to unlock. -/
def reserves : Pc → Option Nat
  | .wait call .clock | .wait call .add | .wait call .setpark
  | .wait call .unclock => call.client?
  | _ => none

end Pc

/-- The mutexes the client of a thread holds. -/
def clientOwns (held : Finset Nat) : MutexId → Bool
  | .user m => decide (m ∈ held)
  | .sem _ => false

/-- The mutexes a thread owns: those the client holds and that of the current
call. -/
def owned (pc : Pc) (held : Finset Nat) : MutexId → Bool :=
  match pc.owns with
  | none => clientOwns held
  | some m => Function.update (clientOwns held) m true

def view (pc : Pc) (held : Finset Nat) : View Int MutexId CondId where
  inside := pc.spinlock
  waits := pc.waits
  carries := pc.carries
  knows := pc.knows
  owns := owned pc held

/-- `cv_wait` is called with the mutex held, and a mutex that a call has is not held
by the client as well. -/
structure Disciplined (pc : Pc) (held : Finset Nat) : Prop where
  reserves : ∀ m, pc.reserves = some m → m ∈ held
  owns : ∀ m, pc.owns = some (.user m) → m ∉ held

/-- An instruction as an event of the protocol. -/
def Instr.event (answer : Answer) : Instr → Event Int MutexId CondId
  | .spinLock o => .acquire o
  | .spinUnlock o => .release o
  | .testFlag m => .look (if answer.test then .free m else .taken m)
  | .setFlag m value => if value then .take m else .clear m
  | .queueEmpty o => .look (if answer.test then .empty o else .nonempty o)
  | .queueAdd o => .enqueue o
  | .queueRemove o => .dequeue o answer.pid
  | .setpark => .setpark
  | .park => .park
  | .resume => .resume
  | .unpark pid => .unpark pid
  | .testValue _ | .readValue _ | .writeValue _ _ => .silent

section
variable {pc : Pc} {held : Finset Nat} {instr : Instr} {answer : Answer} {call : MutexCall}

theorem clientOwns_insert (held : Finset Nat) (m : Nat) :
    clientOwns (insert m held) = update (clientOwns held) (.user m) true := by
  funext other
  cases other with
  | user n => by_cases same : n = m <;> simp [clientOwns, same]
  | sem n => simp [clientOwns]

theorem clientOwns_erase (held : Finset Nat) (m : Nat) :
    clientOwns (held.erase m) = update (clientOwns held) (.user m) false := by
  funext other
  cases other with
  | user n => by_cases same : n = m <;> simp [clientOwns, same]
  | sem n => simp [clientOwns]

theorem owned_iff {m : MutexId} : owned pc held m = true ↔
    (∃ n ∈ held, m = .user n) ∨ pc.owns = some m := by
  have client : clientOwns held m = true ↔ ∃ n ∈ held, m = .user n := by
    cases m <;> simp [clientOwns]
  cases owns : pc.owns with
  | none => simp [owned, owns, client]
  | some other =>
    by_cases same : m = other
    · simp [owned, owns, same]
    · simp [owned, owns, update_of_ne same, client, Ne.symm same]

theorem view_lockReturn (call : MutexCall) (held : Finset Nat) :
    view call.lockReturn ((Pc.lock call .leave).heldAfter held) =
      { owns := update (clientOwns held) call.mtx true } := by
  have client : ∀ m, view .idle (insert m held) =
      { owns := update (clientOwns held) (.user m) true } := by
    intro m
    rw [← clientOwns_insert]
    rfl
  cases call with
  | client m => exact client m
  | cvWait call =>
    cases call with
    | client c m => exact client m
    | semWait n => rfl
  | semWait n | semPost n => rfl

theorem Disciplined.given {place : UnlockPc} (disciplined : Disciplined (.unlock call place) held)
    (owns : (Pc.unlock call place).owns = some call.mtx) :
    update (update (clientOwns held) call.mtx true) call.mtx false =
      clientOwns held := by
  have unheld : clientOwns held call.mtx = false := by
    cases isUser : call.mtx with
    | user m =>
      simpa [clientOwns] using disciplined.owns m (owns.trans (congrArg some isUser))
    | sem n => rfl
  rw [update_idem, ← unheld, update_eq_self]

theorem Disciplined.released {call : CvWait}
    (disciplined : Disciplined (.wait call .unclock) held) :
    owned (.unlock (.cvWait call) .guard) ((Pc.wait call .unclock).heldAfter held) =
      owned (.wait call .unclock) held := by
  cases call with
  | client c m =>
    have isHeld := disciplined.reserves m rfl
    change update (clientOwns (held.erase m)) (.user m) true = clientOwns held
    rw [clientOwns_erase, update_idem]
    exact update_eq_self_iff.mpr (decide_eq_true isHeld).symm
  | semWait n => rfl

private theorem view_lock {place : LockPc} (executes : (Pc.lock call place).instr = some instr) :
    Effect (instr.event answer) (view (.lock call place) held)
      (view ((Pc.lock call place).next answer) ((Pc.lock call place).heldAfter held)) := by
  cases place with
  | guard => cases executes; exact .acquire rfl
  | test =>
    cases executes
    cases test : answer.test with
    | true => simpa [Instr.event, Pc.next, test] using .look rfl (.inr rfl)
    | false => simpa [Instr.event, Pc.next, test] using .look rfl (.inr rfl)
  | take => cases executes; exact .take rfl rfl
  | leave =>
    cases executes
    change Effect _ _ (view call.lockReturn _)
    rw [view_lockReturn]
    exact .release rfl rfl rfl (by simp [view, Pc.waits])
  | add =>
    cases executes
    exact .enqueue rfl rfl rfl (by rintro m ⟨rfl⟩; rfl)
  | setpark => cases executes; exact .setpark rfl rfl
  | unguard => cases executes; exact .release rfl rfl rfl (by simp [view, Pc.waits])
  | park => cases executes; exact .park rfl
  | parked =>
    cases executes
    change Effect _ _ (view call.lockReturn ((Pc.lock call .leave).heldAfter held))
    rw [view_lockReturn]
    exact .inherit rfl

private theorem view_unlock {place : UnlockPc} (disciplined : Disciplined (.unlock call place) held)
    (executes : (Pc.unlock call place).instr = some instr) :
    Effect (instr.event answer) (view (.unlock call place) held)
      (view ((Pc.unlock call place).next answer) held) := by
  have elsewhere : ∀ place stage,
      (view (.unlock call place) held).waits ≠ some (.mutex call.mtx, stage) := by
    intro place stage
    cases call <;> simp [view, Pc.waits, MutexCall.cvWait?]
  cases place with
  | guard => cases executes; exact .acquire rfl
  | test =>
    cases executes
    cases test : answer.test with
    | true => simpa [Instr.event, Pc.next, test] using .look rfl (.inr rfl)
    | false => simpa [Instr.event, Pc.next, test] using .look rfl (.inr rfl)
  | clear =>
    cases executes
    have effect : Effect (.clear call.mtx) (view (.unlock call .clear) held)
        { view (.unlock call .clear) held with
          knows := none
          owns := update (update (clientOwns held) call.mtx true)
            call.mtx false } := .clear rfl rfl (by simp [view, owned, Pc.owns])
    rw [disciplined.given rfl] at effect
    exact effect
  | remove =>
    cases executes
    have effect : Effect (.dequeue (.mutex call.mtx) answer.pid)
        (view (.unlock call .remove) held)
        { view (.unlock call .remove) held with
          knows := none
          carries := some (.mutex call.mtx, answer.pid)
          owns := update (update (clientOwns held) call.mtx true)
            call.mtx false } :=
      .handOver rfl rfl (by simp [view, owned, Pc.owns]) rfl (elsewhere _)
    rw [disciplined.given rfl] at effect
    exact effect
  | unpark pid => cases executes; exact .unpark rfl rfl rfl
  | unguard =>
    cases executes
    have notListed : ∀ o, (view (.unlock call .unguard) held).waits ≠
        some (o, .listed) := by
      intro o
      cases call <;> simp [view, Pc.waits, MutexCall.cvWait?]
    cases call with
    | client | cvWait | semWait | semPost => exact .release rfl rfl rfl notListed

private theorem view_wait {call : CvWait} {place : WaitPc}
    (disciplined : Disciplined (.wait call place) held)
    (executes : (Pc.wait call place).instr = some instr) :
    Effect (instr.event answer) (view (.wait call place) held)
      (view ((Pc.wait call place).next answer) ((Pc.wait call place).heldAfter held)) := by
  cases place with
  | clock => cases executes; exact .acquire rfl
  | add => cases executes; exact .enqueue rfl rfl rfl (by simp)
  | setpark => cases executes; exact .setpark rfl rfl
  | unclock =>
    cases executes
    have effect : Effect (.release (.condvar call.cv)) (view (.wait call .unclock) held)
        { view (.wait call .unclock) held with inside := none } :=
      .release rfl rfl rfl (by simp [view, Pc.waits])
    change Effect _ _ { view (.wait call .unclock) held with
      inside := none
      owns := owned (.unlock (.cvWait call) .guard)
        ((Pc.wait call .unclock).heldAfter held) }
    rw [disciplined.released]
    exact effect
  | park => cases executes; exact .park rfl
  | parked => cases executes; exact .wake rfl

private theorem view_signals {place : SignalPc}
    (calls : (∃ call, pc = .signal call place) ∨ ∃ c, pc = .broadcast c place)
    (executes : pc.instr = some instr) :
    Effect (instr.event answer) (view pc held) (view (pc.next answer) held) := by
  rcases calls with ⟨_ | _, rfl⟩ | ⟨c, rfl⟩
  all_goals
    cases place with
    | clock => cases executes; exact .acquire rfl
    | test =>
      cases executes
      cases test : answer.test with
      | true => simpa [Instr.event, Pc.next, test] using .look rfl (.inl rfl)
      | false => simpa [Instr.event, Pc.next, test] using .look rfl (.inr rfl)
    | remove => cases executes; exact .signal rfl rfl rfl (by simp [view, Pc.waits])
    | unpark pid => cases executes; exact .unpark rfl rfl rfl
    | unclock => cases executes; exact .release rfl rfl rfl (by simp [view, Pc.waits])

theorem view_step (answer : Answer) (disciplined : Disciplined pc held)
    (executes : pc.instr = some instr) :
    Effect (instr.event answer) (view pc held)
      (view (pc.next answer) (pc.heldAfter held)) := by
  cases pc with
  | outside | idle => cases executes
  | lock call place => exact view_lock executes
  | unlock call place => exact view_unlock disciplined executes
  | wait call place => exact view_wait disciplined executes
  | signal call place => exact view_signals (.inl ⟨call, rfl⟩) executes
  | broadcast c place => exact view_signals (.inr ⟨c, rfl⟩) executes
  | semTest n again =>
    cases executes
    cases test : answer.test with
    | true => simpa [Pc.next, test] using .silent
    | false => simpa [Pc.next, test] using .silent
  | semDecrement n read | semIncrement n read =>
    cases read with
    | none | some value => cases executes; exact .silent

theorem view_entry {op : Op} (needs : op.needs.all (· ∈ held) = true) :
    view op.entry (op.heldAfter held) = view .idle held := by
  cases op with
  | mutexUnlock m =>
    have isHeld : m ∈ held := by simpa [Op.needs] using needs
    have owns : owned (.unlock (.client m) .guard) (held.erase m) = owned .idle held := by
      change update (clientOwns (held.erase m)) (.user m) true = clientOwns held
      rw [clientOwns_erase, update_idem]
      exact update_eq_self_iff.mpr (decide_eq_true isHeld).symm
    simp only [view, Op.entry, Op.heldAfter, owns]
    rfl
  | _ => rfl

/-! ## Discipline of the callers -/

theorem disciplined_of_none (reserves : pc.reserves = none)
    (owns : ∀ m, pc.owns ≠ some (.user m)) : Disciplined pc held :=
  ⟨by simp [reserves], fun m isOwner => absurd isOwner (owns m)⟩

theorem disciplined_entry {op : Op} (needs : op.needs.all (· ∈ held) = true) :
    Disciplined op.entry (op.heldAfter held) := by
  cases op with
  | mutexUnlock m =>
    constructor
    · simp [Op.entry, Pc.reserves]
    · rintro n ⟨rfl⟩
      simp [Op.heldAfter]
  | cvWait c m =>
    constructor
    · rintro n ⟨rfl⟩
      simpa [Op.needs, Op.heldAfter] using needs
    · simp [Op.entry, Pc.owns, Pc.critical, CvWait.sem?]
  | _ =>
    exact disciplined_of_none rfl (by simp [Op.entry, Pc.owns, Pc.critical, CvSignal.sem?])

private theorem disciplined_lock {place : LockPc}
    (free : ∀ m, (Pc.lock call place).knows = some (.free (.user m)) → m ∉ held) :
    Disciplined ((Pc.lock call place).next answer)
      ((Pc.lock call place).heldAfter held) := by
  have returns : ∀ held, Disciplined call.lockReturn held := by
    intro held
    cases call with
    | cvWait call =>
      cases call <;>
        exact disciplined_of_none rfl (by simp [MutexCall.lockReturn, Pc.owns, Pc.critical])
    | client | semWait | semPost =>
      exact disciplined_of_none rfl (by simp [MutexCall.lockReturn, Pc.owns, Pc.critical])
  cases place with
  | take =>
    constructor
    · simp [Pc.next, Pc.reserves]
    · intro m isOwner
      exact free m (by simpa [Pc.next, Pc.owns, Pc.knows] using isOwner)
  | leave | parked => exact returns _
  | test =>
    cases test : answer.test <;>
      exact disciplined_of_none (by simp [Pc.next, Pc.reserves])
        (by simp [Pc.next, test, Pc.owns, Pc.critical])
  | _ => exact disciplined_of_none rfl (by simp [Pc.next, Pc.owns, Pc.critical])

private theorem disciplined_unlock {place : UnlockPc}
    (disciplined : Disciplined (.unlock call place) held) :
    Disciplined ((Pc.unlock call place).next answer) held := by
  cases place with
  | guard => exact ⟨by simp [Pc.next, Pc.reserves], disciplined.owns⟩
  | test =>
    refine ⟨by simp [Pc.next, Pc.reserves], ?_⟩
    cases test : answer.test <;> simpa [Pc.next, test, Pc.owns] using disciplined.owns
  | unguard =>
    cases call <;>
      exact disciplined_of_none rfl
        (by simp [Pc.next, MutexCall.unlockReturn, Pc.owns, Pc.critical])
  | _ => exact disciplined_of_none rfl (by simp [Pc.next, Pc.owns, Pc.critical])

private theorem disciplined_wait {call : CvWait} {place : WaitPc}
    (disciplined : Disciplined (.wait call place) held) :
    Disciplined ((Pc.wait call place).next answer)
      ((Pc.wait call place).heldAfter held) := by
  cases place with
  | unclock =>
    constructor
    · simp [Pc.next, Pc.reserves]
    · intro m isOwner
      cases call with
      | client c n =>
        obtain rfl : n = m := by simpa [Pc.next, Pc.owns, MutexCall.mtx, CvWait.mtx]
          using isOwner
        simp [Pc.heldAfter, Pc.returns, Pc.releases, CvWait.client?]
      | semWait n => simp [Pc.next, Pc.owns, MutexCall.mtx, CvWait.mtx] at isOwner
  | park | parked => exact disciplined_of_none rfl (by simp [Pc.next, Pc.owns, Pc.critical])
  | clock | add | setpark => exact ⟨disciplined.reserves, disciplined.owns⟩

theorem disciplined_step (disciplined : Disciplined pc held)
    (free : ∀ m, pc.knows = some (.free (.user m)) → m ∉ held) :
    Disciplined (pc.next answer) (pc.heldAfter held) := by
  cases pc with
  | outside | idle => exact disciplined
  | lock call place => exact disciplined_lock free
  | unlock call place => exact disciplined_unlock disciplined
  | wait call place => exact disciplined_wait disciplined
  | signal call place =>
    cases place with
    | unclock =>
      cases call <;>
        exact disciplined_of_none rfl
          (by simp [Pc.next, CvSignal.return, Pc.owns, Pc.critical, MutexCall.mtx])
    | clock | test | remove | unpark pid =>
      refine disciplined_of_none rfl ?_
      cases call <;> simp [Pc.next, Pc.owns, Pc.critical, CvSignal.sem?]
  | broadcast c place =>
    cases place <;> exact disciplined_of_none rfl (by simp [Pc.next, Pc.owns, Pc.critical])
  | semTest n again =>
    cases test : answer.test <;>
      exact disciplined_of_none (by simp [Pc.next, test, Pc.reserves, CvWait.client?])
        (by simp [Pc.next, test, Pc.owns, Pc.critical, CvWait.sem?])
  | semDecrement n read | semIncrement n read =>
    cases read <;>
      exact disciplined_of_none rfl
        (by simp [Pc.next, Pc.owns, Pc.critical, MutexCall.mtx, CvSignal.sem?])

end

end Xv6.User
