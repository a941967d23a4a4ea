import Xv6.User.Mutex

/-!
# Condition variables

`cv_wait` queues the pid of the thread, and its `park` returns once `cv_signal` or
`cv_broadcast` has taken the pid from the queue.  Between `setpark` and `park` the
thread calls `mutex_unlock`, and after `park` it may park again in `mutex_lock`.  All
of this uses the same flags of the process, and no wake-up gets lost or mixed up.
-/

namespace Xv6.User

variable {pid : Int}

namespace Pc

/-- The condition variable of `cv_signal` or `cv_broadcast`. -/
def signals : Pc → Option CondId
  | .signal call _ => some call.cv
  | .broadcast c _ => some (.user c)
  | _ => none

/-- What `cv_signal` and `cv_broadcast` have taken from the queue, given what was in
it at first. -/
def Removed (first taken : List Int) : Pc → Prop
  | .signal _ .test | .signal _ .remove => taken = []
  | .signal _ (.unpark _) | .signal _ .unclock => taken = first.take 1
  | .broadcast _ .unclock => taken = first
  | _ => True

variable {pc : Pc} {answer : Answer} {c : CondId}

theorem lockReturn_signals (call : MutexCall) : call.lockReturn.signals = none := by
  cases call with
  | cvWait call => cases call <;> rfl
  | _ => rfl

theorem unlockReturn_signals (call : MutexCall) : call.unlockReturn.signals = none := by
  cases call <;> rfl

theorem signals_next (signals : (pc.next answer).signals = some c)
    (inside : (pc.next answer).spinlock = some (.condvar c)) :
    pc.signals = some c ∧
      (pc.instr = some (.spinLock (.condvar c)) ∨ pc.spinlock = some (.condvar c)) := by
  cases pc with
  | lock call place =>
    cases place with
    | leave | parked => simp [next, lockReturn_signals] at signals
    | _ => cases signals
  | unlock call place =>
    cases place with
    | unguard => simp [next, unlockReturn_signals] at signals
    | _ => cases signals
  | wait call place => cases place <;> cases signals
  | signal call place =>
    cases place with
    | unclock => cases call <;> cases signals
    | clock =>
      cases signals
      exact ⟨rfl, .inl rfl⟩
    | _ =>
      cases signals
      exact ⟨rfl, .inr rfl⟩
  | broadcast c place =>
    cases place with
    | unclock => cases signals
    | clock =>
      cases signals
      exact ⟨rfl, .inl rfl⟩
    | _ =>
      cases signals
      exact ⟨rfl, .inr rfl⟩
  | semTest n again =>
    simp only [next] at signals
    split at signals <;> cases signals
  | semDecrement n read => cases read <;> cases signals
  | semIncrement n read =>
    cases read with
    | none => cases signals
    | some value => cases inside
  | outside | idle => cases signals

theorem signals_of_remove (executes : pc.instr = some (.queueRemove (.condvar c))) :
    pc.signals = some c ∧ pc.spinlock = some (.condvar c) := by
  cases pc with
  | lock call place | unlock call place | wait call place => cases place <;> cases executes
  | signal call place | broadcast c place =>
    cases place with
    | remove =>
      cases executes
      exact ⟨rfl, rfl⟩
    | _ => cases executes
  | semDecrement n read | semIncrement n read => cases read <;> cases executes
  | outside | idle | semTest => cases executes

theorem instr_of_carries {o : Obj} (carries : pc.carries = some (o, pid)) :
    pc.instr = some (.unpark pid) := by
  cases pc with
  | unlock call place | signal call place | broadcast c place =>
    cases place with
    | unpark => cases carries; rfl
    | _ => cases carries
  | _ => cases carries

theorem not_add_of_signals {o : Obj} (signals : pc.signals = some c) :
    pc.instr ≠ some (.queueAdd o) := by
  cases pc with
  | signal call place | broadcast c place => cases place <;> nofun
  | _ => cases signals

end Pc

namespace System

variable {s s' start first : System} {self : Slot} {act : Act} {c : CondId} {o : Obj}
  {trace inside : List (System × Act)}

/-! ## Critical sections of signals -/

/-- A thread has started the critical section of `cv_signal` or `cv_broadcast` in the
state `first`, and has been in it during the steps `inside`. -/
structure InSection (c : CondId) (thread : Slot) (first : System)
    (inside : List (System × Act)) : Prop where
  signals : (first.pc thread).signals = some c
  starts : (first.pc thread).instr = some (.spinLock (.condvar c))
  stays : ∀ entry ∈ inside, (entry.1.pc thread).spinlock = some (.condvar c)

/-- What such a thread has done up to the state `s`. -/
structure Section (c : CondId) (thread : Slot) (first : System)
    (inside : List (System × Act)) (s : System) : Prop extends
    InSection c thread first inside where
  added : added (.condvar c) inside = []
  queue : first.queue (.condvar c) = removed (.condvar c) inside ++ s.queue (.condvar c)
  removed : (s.pc thread).Removed (first.queue (.condvar c)) (removed (.condvar c) inside)

private theorem Section.extend (was : Section c self first inside s) (inv : Inv s)
    (taken : Taken s act s') (isInside : (s.pc self).spinlock = some (.condvar c))
    (noAdd : adds (.condvar c) (s, act) = none)
    (removed : (s'.pc self).Removed (first.queue (.condvar c))
      (System.removed (.condvar c) (inside ++ [(s, act)]))) :
    Section c self first (inside ++ [(s, act)]) s' where
  signals := was.signals
  starts := was.starts
  stays entry member := by
    rcases List.mem_append.mp member with before | last
    · exact was.stays entry before
    · rw [List.mem_singleton.mp last]
      exact isInside
  added := by
    have before : inside.filterMap (adds (.condvar c)) = [] := was.added
    simp [System.added, before, noAdd]
  queue := by
    have step := queue_step inv taken (.condvar c)
    rw [noAdd, Option.toList_none, List.append_nil] at step
    rw [was.queue, System.removed, System.removed, filterMap_snoc, List.append_assoc, step]
  removed := removed

private theorem removed_next {instr : Instr} {answer : Answer} {after : System}
    {before taken : List Int} (inv : Inv s) (signals : (s.pc self).signals = some c)
    (isInside : (s.pc self).spinlock = some (.condvar c))
    (executes : (s.pc self).instr = some instr)
    (executed : s.execute self instr = some (after, answer))
    (queue : before = taken ++ s.queue (.condvar c)) (removed : (s.pc self).Removed before taken) :
    ((s.pc self).next answer).Removed before
      (taken ++ (removes (.condvar c) (s, .run self)).toList) := by
  have noRemove : (s.pc self).instr ≠ some (.queueRemove (.condvar c)) →
      removes (.condvar c) (s, .run self) = none := fun other => if_neg other
  have isEmpty : instr = .queueEmpty (.condvar c) → answer.test = true →
      s.queue (.condvar c) = [] := by
    rintro rfl empty
    simp only [execute, Option.some.injEq, Prod.mk.injEq] at executed
    rw [← executed.2] at empty
    simpa [PidQueue.empty] using empty
  cases isAt : s.pc self with
  | signal call place =>
    rw [isAt] at signals isInside executes removed
    cases signals
    cases place with
    | clock => cases isInside
    | test =>
      rw [noRemove (by rw [isAt]; rintro ⟨⟩)]
      simp only [Pc.Removed] at removed
      subst removed
      cases executes
      cases empty : answer.test with
      | true => simp [Pc.next, empty, Pc.Removed, queue, isEmpty rfl empty]
      | false => simp [Pc.next, empty, Pc.Removed]
    | remove =>
      cases executes
      have isRemove : (s.pc self).instr = some (.queueRemove (.condvar call.cv)) := by
        rw [isAt]
        rfl
      obtain ⟨pid, rest, isQueue, -⟩ := removes_effect inv isRemove
      simp only [Pc.Removed] at removed
      simp [System.removes, isAt, Pc.instr, Pc.next, Pc.Removed, removed, queue, isQueue,
        PidQueue.remove]
    | unpark pid =>
      rw [noRemove (by rw [isAt]; rintro ⟨⟩)]
      simpa [Pc.next, Pc.Removed] using removed
    | unclock => cases call <;> trivial
  | broadcast c' place =>
    rw [isAt] at signals isInside executes
    cases signals
    cases place with
    | test =>
      rw [noRemove (by rw [isAt]; rintro ⟨⟩)]
      cases executes
      cases empty : answer.test with
      | true => simp [Pc.next, empty, Pc.Removed, queue, isEmpty rfl empty]
      | false => simp [Pc.next, empty, Pc.Removed]
    | _ => trivial
  | _ =>
    rw [isAt] at signals
    cases signals

private theorem Taken.signals (taken : Taken s (.run self) s')
    (signals : (s'.pc self).signals = some c)
    (isInside : (s'.pc self).spinlock = some (.condvar c)) :
    (s.pc self).signals = some c ∧ ((s.pc self).instr = some (.spinLock (.condvar c)) ∨
      (s.pc self).spinlock = some (.condvar c)) := by
  cases taken with
  | run executes here executed =>
    rw [goto_pc_self] at signals isInside
    exact Pc.signals_next signals isInside

private theorem Taken.pc_of_inside (taken : Taken s act s') (other : act ≠ .run self)
    (isInside : (s'.pc self).spinlock = some o) : s'.pc self = s.pc self := by
  refine taken.pc_of_ne other ?_ ?_
  · rintro op rfl
    cases taken with
    | call =>
      rw [goto_pc_self] at isInside
      cases op <;> cases isInside
  · rintro rfl
    cases taken with
    | exit =>
      rw [goto_pc_self] at isInside
      cases isInside

private theorem section_run_self (inv : Inv s) (taken : Taken s (.run self) s')
    (signals : (s.pc self).signals = some c) (isInside : (s.pc self).spinlock = some (.condvar c))
    (was : Section c self first inside s) :
    Section c self first (inside ++ [(s, .run self)]) s' := by
  refine was.extend inv taken isInside (if_neg (Pc.not_add_of_signals signals)) ?_
  cases taken with
  | run executes here executed =>
    rw [goto_pc_self, removed, filterMap_snoc]
    exact removed_next inv signals isInside executes executed was.queue was.removed

private theorem section_run_other (inv : Inv s) (taken : Taken s act s')
    (isInside : (s.pc self).spinlock = some (.condvar c)) (other : act ≠ .run self)
    (samePc : s'.pc self = s.pc self) (was : Section c self first inside s) :
    Section c self first (inside ++ [(s, act)]) s' := by
  obtain ⟨noAdd, noRemove⟩ := untouched inv isInside other
  refine was.extend inv taken isInside noAdd ?_
  rw [samePc, removed, filterMap_snoc, noRemove, Option.toList_none, List.append_nil]
  exact was.removed

private theorem section_starts (inv : Inv s) (taken : Taken s (.run self) s')
    (signals : (s.pc self).signals = some c)
    (starts : (s.pc self).instr = some (.spinLock (.condvar c))) : Section c self s [] s' where
  signals := signals
  starts := starts
  stays := by simp
  added := rfl
  queue := by
    have step := queue_step inv taken (.condvar c)
    simpa [adds, removes, starts, removed] using step.symm
  removed := by
    cases taken with
    | run executes here executed =>
      rw [goto_pc_self]
      generalize s.pc self = pc at signals starts
      cases pc with
      | signal call place =>
        cases place with
        | clock => exact List.filterMap_nil
        | _ => cases starts
      | broadcast c place =>
        cases place with
        | clock => trivial
        | _ => cases starts
      | _ => cases signals

theorem section_run (isStart : start.Start) (run : Transition.Run step Benign start trace s)
    (signals : (s.pc self).signals = some c) (isInside : (s.pc self).spinlock = some (.condvar c)) :
    ∃ before first inside, trace = before ++ (first, .run self) :: inside ∧
      Section c self first inside s := by
  revert signals isInside
  apply run.invariant
  · intro signals isInside
    rcases isStart.idle self with isAt | isAt <;> simp [isAt, Pc.signals] at signals
  · intro trace state act next before earlier benign taken signals isInside
    have inv := Inv.run isStart before
    have effect := step_taken taken
    have continues : (state.pc self).signals = some c →
        (state.pc self).spinlock = some (.condvar c) →
        (∀ {first inside}, Section c self first inside state →
          Section c self first (inside ++ [(state, act)]) next) →
        ∃ before first inside, trace ++ [(state, act)] =
          before ++ (first, .run self) :: inside ∧ Section c self first inside next := by
      intro signalled wasInside extend
      obtain ⟨past, first, inside, rfl, was⟩ := earlier signalled wasInside
      exact ⟨past, first, inside ++ [(state, act)], by simp, extend was⟩
    by_cases isRun : act = .run self
    · subst isRun
      obtain ⟨signalled, starts | wasInside⟩ := effect.signals signals isInside
      · exact ⟨trace, state, [], rfl, section_starts inv effect signalled starts⟩
      · exact continues signalled wasInside (section_run_self inv effect signalled wasInside)
    · have samePc := effect.pc_of_inside isRun isInside
      rw [samePc] at signals isInside
      exact continues signals isInside (section_run_other inv effect isInside isRun samePc)

/-! ## Wake-ups -/

/-- A signal that has started its critical section in the course of these steps has
taken a pid from the queue. -/
def Woken (c : CondId) (pid : Int) (steps : List (System × Act)) : Prop :=
  ∃ before first thread inside last after,
    steps = before ++ (first, .run thread) :: inside ++ (last, .run thread) :: after ∧
      InSection c thread first inside ∧
      removes (.condvar c) (last, .run thread) = some pid

theorem Woken.snoc {steps : List (System × Act)} (woken : Woken c pid steps)
    (entry : System × Act) : Woken c pid (steps ++ [entry]) := by
  obtain ⟨before, first, thread, inside, last, after, rfl, isInside, removes⟩ := woken
  exact ⟨before, first, thread, inside, last, after ++ [entry], by simp, isInside, removes⟩

private theorem earlier_of_notMem {α : Type} {before since past inside : List α}
    {early late : α} (same : before ++ early :: since = past ++ late :: inside)
    (notMem : early ∉ late :: inside) : ∃ between, since = between ++ late :: inside := by
  rcases List.append_eq_append_iff.mp same with ⟨between, -, split⟩ | ⟨between, -, split⟩
  · cases between with
    | nil =>
      cases split
      simp at notMem
    | cons head rest =>
      cases split
      exact ⟨rest, rfl⟩
  · exact absurd (split ▸ List.mem_append_right between (by simp)) notMem

private theorem woken_of_removes {before since : List (System × Act)} {queued : System}
    (isStart : start.Start)
    (run : Transition.Run step Benign start (before ++ (queued, .run self) :: since) s)
    (adds : (queued.pc self).instr = some (.queueAdd (.condvar c)))
    (removes : removes (.condvar c) (s, act) = some pid) : Woken c pid (since ++ [(s, act)]) := by
  obtain ⟨thread, rfl, executes, -⟩ := removes_some removes
  obtain ⟨signals, isInside⟩ := Pc.signals_of_remove executes
  obtain ⟨past, first, inside, split, sect⟩ := section_run isStart run signals isInside
  have notMem : (queued, .run self) ∉ (first, .run thread) :: inside := by
    rw [List.mem_cons]
    rintro (same | member)
    · cases same
      simp [sect.starts] at adds
    · have none := List.filterMap_eq_nil_iff.mp sect.added _ member
      simp [System.adds, adds] at none
  obtain ⟨between, rfl⟩ := earlier_of_notMem split notMem
  exact ⟨between, first, thread, inside, s, [], by simp, sect.toInSection, removes⟩

theorem woken_run (isStart : start.Start) (run : Transition.Run step Benign start trace s)
    (waits : s.WaitsOn self (.condvar c)) :
    ∃ before queued since, trace = before ++ (queued, .run self) :: since ∧
      (queued.pc self).instr = some (.queueAdd (.condvar c)) ∧
      (∀ entry ∈ since, entry.1.WaitsOn self (.condvar c)) ∧
      (s.pid self ∈ s.queue (.condvar c) ∨ Woken c (s.pid self) since) := by
  revert waits
  apply run.invariant
  · rintro ⟨stage, waits⟩
    rcases isStart.idle self with isAt | isAt <;> simp [isAt, Pc.waits] at waits
  · intro trace state act next before earlier benign taken waits
    have inv := Inv.run isStart before
    have effect := step_taken taken
    have inv' := inv_step inv benign effect
    obtain ⟨stage, isAt⟩ := waits
    rw [effect.pid inv inv' (member_of_waits isAt)]
    have queue := queue_step inv effect (.condvar c)
    rcases waitsOn_step inv effect ⟨stage, isAt⟩ with ⟨rfl, adds⟩ | waited
    · refine ⟨trace, state, [], rfl, adds, by simp, .inl ?_⟩
      have removes : removes (.condvar c) (state, .run self) = none := by
        simp [System.removes, adds]
      simp only [removes, System.adds, adds, if_pos, Option.toList_none, List.nil_append,
        Option.toList_some] at queue
      simp [queue]
    · obtain ⟨past, queued, since, rfl, adds, stays, woken⟩ := earlier waited
      refine ⟨past, queued, since ++ [(state, act)], by simp, adds, ?_, ?_⟩
      · intro entry member
        rcases List.mem_append.mp member with inSince | last
        · exact stays entry inSince
        · exact List.mem_singleton.mp last ▸ waited
      · rcases woken with listed | woken
        · have found := queue ▸ List.mem_append_left _ listed
          rcases List.mem_append.mp found with isRemoved | still
          · exact .inr (woken_of_removes isStart before adds (Option.mem_toList.mp isRemoved))
          · exact .inl still
        · exact .inr (woken.snoc _)

/-- Condition variables without `kill`.  A thread leaves the `park` of its `cv_wait` only
after a `cv_signal` or `cv_broadcast` whose critical section has started after the
thread has queued its pid has taken that pid from the queue.  For every object, the
removals of a pid from the queue and the returns of its thread from the `park` for
that object alternate, and between them the thread is unparked, at the latest with the
next instruction of the thread that has taken its pid.  `cv_signal` takes the pid that
has waited longest and `cv_broadcast` all of them.  `cv_wait` returns with the mutex. -/
theorem no_lost_or_spurious_wakeup (isStart : start.Start)
    (run : Transition.Run step Calm start trace s) :
    (∀ self c s', (s.pc self).waits = some (.condvar c, .parked) →
      s.step (.run self) = some s' →
      ∃ before queued since, trace = before ++ (queued, .run self) :: since ∧
        (queued.pc self).instr = some (.queueAdd (.condvar c)) ∧
        (∀ entry ∈ since, entry.1.WaitsOn self (.condvar c)) ∧
        Woken c (s.pid self) since) ∧
    (∀ o pid,
      s.Due o pid ∧ (removed o trace).count pid = (resumed o trace).count pid + 1 ∨
        ¬s.Due o pid ∧ (removed o trace).count pid = (resumed o trace).count pid) ∧
    (∀ self o, s.Dequeued self o →
      (∃ other, (s.pc other).instr = some (.unpark (s.pid self)) ∧
        (s.pc other).spinlock = some o) ∨ s.Unparked self o) ∧
    (∀ c, added (.condvar c) trace = removed (.condvar c) trace ++ s.queue (.condvar c)) ∧
    (∀ self call, s.pc self = .signal call .unclock →
      ∃ before first inside, trace = before ++ (first, .run self) :: inside ∧
        InSection call.cv self first inside ∧
        removed (.condvar call.cv) inside = (first.queue (.condvar call.cv)).take 1 ∧
        s.queue (.condvar call.cv) = (first.queue (.condvar call.cv)).drop 1) ∧
    (∀ self c, s.pc self = .broadcast c .unclock →
      ∃ before first inside, trace = before ++ (first, .run self) :: inside ∧
        InSection (.user c) self first inside ∧
        removed (.condvar (.user c)) inside = first.queue (.condvar (.user c)) ∧
        s.queue (.condvar (.user c)) = []) ∧
    (∀ self call place s', s.pc self = .lock (.cvWait call) place →
      s.step (.run self) = some s' → (∀ place, s'.pc self ≠ .lock (.cvWait call) place) →
      s'.Holds self call.mtx ∧ s'.flag call.mtx = true ∧
        ∀ other, s'.Owns other call.mtx → other = self) := by
  have benign := calm_run isStart run
  have inv := Inv.run isStart benign
  refine ⟨?_, balanced_run isStart benign, ?_, fun c => fifo_run isStart benign _, ?_, ?_, ?_⟩
  · intro self c s' waits taken
    have resumes : resumes (.condvar c) (s, .run self) = some (s.pid self) := if_pos waits
    obtain ⟨thread, same, -, -, unlisted⟩ := resumed_dequeued inv (step_taken taken) resumes
    cases same
    obtain ⟨before, queued, since, split, adds, stays, woken⟩ :=
      woken_run isStart benign ⟨_, waits⟩
    exact ⟨before, queued, since, split, adds, stays, woken.resolve_left unlisted⟩
  · intro self o dequeued
    refine (Dequeued.unparked inv dequeued).imp_left fun ⟨other, carries⟩ => ?_
    exact ⟨other, Pc.instr_of_carries carries,
      (inv.protocol.guarded.consistent other).carries carries⟩
  · intro self call isAt
    have signals : (s.pc self).signals = some call.cv := by rw [isAt]; rfl
    obtain ⟨before, first, inside, split, sect⟩ :=
      section_run isStart benign signals (by rw [isAt]; rfl)
    have taken : removed (.condvar call.cv) inside = (first.queue (.condvar call.cv)).take 1 := by
      simpa [isAt, Pc.Removed] using sect.removed
    have queue := sect.queue
    rw [taken] at queue
    refine ⟨before, first, inside, split, sect.toInSection, taken, ?_⟩
    exact List.append_cancel_left (queue.symm.trans (List.take_append_drop 1 _).symm)
  · intro self c isAt
    have signals : (s.pc self).signals = some (.user c) := by rw [isAt]; rfl
    obtain ⟨before, first, inside, split, sect⟩ :=
      section_run isStart benign signals (by rw [isAt]; rfl)
    have taken : removed (.condvar (.user c)) inside = first.queue (.condvar (.user c)) := by
      simpa [isAt, Pc.Removed] using sect.removed
    have queue := sect.queue
    rw [taken] at queue
    exact ⟨before, first, inside, split, sect.toInSection, taken,
      List.self_eq_append_right.mp queue⟩
  · intro self call place s' isAt taken returned
    have holds := holds_of_return (step_taken taken) isAt returned
    have owns := owns_iff_abs.mp holds.owns
    have calm : s.Calm (.run self) := trivial
    have inv' := Inv.run isStart (calm_run isStart (.snoc run calm taken))
    have token := inv'.protocol.token call.mtx
    exact ⟨holds, token.flag_of_claims owns, fun other isOwner =>
      token.owner_unique (owns_iff_abs.mp isOwner) owns⟩

/-- A thread waits on a condition variable, is signalled and is about to leave `park`. -/
theorem no_lost_or_spurious_wakeup_signalled : ∃ s s' trace before queued since,
    Transition.Run step Calm threeThreads trace s ∧ s.step (.run 1) = some s' ∧
      trace = before ++ (queued, .run 1) :: since ∧
      (queued.pc 1).instr = some (.queueAdd (.condvar (.user 0))) ∧
      Woken (.user 0) (s.pid 1) since := by
  obtain ⟨s, run, waits, enabled⟩ : ∃ s, Transition.Run step Calm threeThreads _ s ∧
      (s.pc 1).waits = some (.condvar (.user 0), .parked) ∧
      (s.step (.run 1)).isSome = true :=
    Transition.Run.of_exec_met
      (lockActs 1 0 ++ .call 1 (.cvWait 0 0) :: List.replicate 9 (.run 1) ++
        .call 3 (.cvSignal 0) :: List.replicate 4 (.run 3) ++ [.kernel (.dispatch 1)])
      (by decide +kernel) (by decide +kernel)
  obtain ⟨s', taken⟩ := Option.isSome_iff_exists.mp enabled
  obtain ⟨before, queued, since, split, adds, -, woken⟩ :=
    (no_lost_or_spurious_wakeup start_threeThreads run).1 1 (.user 0) s' waits taken
  exact ⟨s, s', _, before, queued, since, run, taken, split, adds, woken⟩

end System

end Xv6.User
