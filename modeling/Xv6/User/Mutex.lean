import Xv6.User.Order

/-!
# Mutexes

Mutual exclusion and the hand-over of a mutex from the thread that unlocks it to the
first thread in its queue.
-/

namespace Xv6.User.System

/-- A thread is between its return from `mutex_lock` and its call of `mutex_unlock`. -/
def Holds (s : System) (self : Slot) (m : MutexId) : Prop :=
  (∃ n ∈ s.held self, m = .user n) ∨ (s.pc self).critical = some m

/-- A thread has a mutex: from taking the flag or returning from `park` until the
guarded section of its `mutex_unlock`. -/
def Owns (s : System) (self : Slot) (m : MutexId) : Prop :=
  (∃ n ∈ s.held self, m = .user n) ∨ (s.pc self).owns = some m

variable {s start : System} {self other : Slot} {m : MutexId} {trace : List (System × Act)}

theorem owns_iff_abs : s.Owns self m ↔ s.abs.Claims m (.owner self) :=
  owned_iff.symm

theorem Holds.owns (holds : s.Holds self m) : s.Owns self m := by
  rcases holds with held | critical
  · exact .inl held
  · refine .inr ?_
    generalize s.pc self = pc at critical ⊢
    cases pc with
    | lock | unlock => cases critical
    | _ => exact critical

private theorem holds_lockReturn (call : MutexCall) (isAt : s.pc self = call.lockReturn)
    (held : ∀ m, call.client? = some m → m ∈ s.held self) : s.Holds self call.mtx := by
  cases call with
  | client m => exact .inl ⟨m, held m rfl, rfl⟩
  | cvWait call =>
    cases call with
    | client c m => exact .inl ⟨m, held m rfl, rfl⟩
    | semWait n => exact .inr (by rw [isAt]; rfl)
  | semWait n | semPost n => exact .inr (by rw [isAt]; rfl)

theorem holds_of_return {s' : System} {call : MutexCall} {place : LockPc}
    (taken : Taken s (.run self) s') (isAt : s.pc self = .lock call place)
    (returned : ∀ place, s'.pc self ≠ .lock call place) : s'.Holds self call.mtx := by
  cases taken with
  | run executes here executed =>
    rw [goto_pc_self, isAt] at returned
    cases place with
    | leave | parked =>
      apply holds_lockReturn
      · rw [goto_pc_self, isAt]
        rfl
      · intro m isClient
        rw [goto_held_self, isAt]
        simp [Pc.heldAfter, Pc.returns, isClient]
    | _ => exact absurd rfl (returned _)

theorem not_carried (inv : Inv s) {o : Obj} (free : s.locked o = false) (pid : Int) :
    (s.pc self).carries ≠ some (o, pid) := by
  intro carries
  have inside := (inv.protocol.guarded.consistent self).carries carries
  have locked : s.locked o = true := inv.protocol.guarded.locked inside
  simp [free] at locked

theorem unparked_iff_abs (inv : Inv s) (free : s.locked (.mutex m) = false) :
    s.Unparked self (.mutex m) ↔ s.abs.Claims m (.heir self) := by
  constructor
  · exact fun unparked => unparked.1
  · intro dequeued
    rcases Dequeued.unparked inv (dequeued_abs.mp dequeued) with ⟨carrier, carries⟩ | unparked
    · exact absurd carries (not_carried inv free _)
    · exact unparked

theorem in_charge (inv : Inv s) (free : s.locked (.mutex m) = false) :
    (s.flag m = false → s.queue (.mutex m) = [] ∧
      ∀ self, ¬s.Owns self m ∧ ¬s.Unparked self (.mutex m)) ∧
    (s.flag m = true → ∃! self, s.Owns self m ∨ s.Unparked self (.mutex m)) := by
  have token := inv.protocol.token m
  constructor
  · intro flag
    refine ⟨token.queue flag, fun self => ⟨fun owns => ?_, fun unparked => ?_⟩⟩
    · exact token.free flag _ (owns_iff_abs.mp owns)
    · exact token.free flag _ ((unparked_iff_abs inv free).mp unparked)
  · intro flag
    obtain ⟨claim, only⟩ := token.taken flag
    have claims : s.abs.Claims m claim := (only claim).mpr rfl
    have isClaim : ∀ {self}, s.Owns self m ∨ s.Unparked self (.mutex m) →
        claim = .owner self ∨ claim = .heir self := by
      rintro self (owns | unparked)
      · exact .inl ((only _).mp (owns_iff_abs.mp owns)).symm
      · exact .inr ((only _).mp ((unparked_iff_abs inv free).mp unparked)).symm
    cases claim with
    | owner self =>
      refine ⟨self, .inl (owns_iff_abs.mpr claims), fun other charge => ?_⟩
      simpa [eq_comm] using isClaim charge
    | heir self =>
      refine ⟨self, .inr ((unparked_iff_abs inv free).mpr claims), fun other charge => ?_⟩
      simpa [eq_comm] using isClaim charge

theorem handover_order (isStart : start.Start)
    (run : Transition.Run step Benign start trace s) (m : MutexId) :
    ∃ next : List Slot, next.length ≤ 1 ∧
      (∀ self, self ∈ next ↔ s.abs.Dequeued (.mutex m) self) ∧
      added (.mutex m) trace =
        resumed (.mutex m) trace ++ next.map s.pid ++ s.queue (.mutex m) := by
  have token := (Inv.run isStart run).protocol.token m
  rw [fifo_run isStart run]
  rcases handover_run isStart run m with ⟨heir, isHeir, order⟩ | ⟨unclaimed, order⟩
  · refine ⟨[heir], le_rfl, fun self => ?_, by rw [order]; rfl⟩
    rw [List.mem_singleton]
    exact ⟨fun same => same ▸ isHeir, fun dequeued => token.heir_unique dequeued isHeir⟩
  · exact ⟨[], Nat.zero_le 1, fun self => by simp [unclaimed self], by simp [order]⟩

/-- Threads that are not killed exclude each other with a mutex.  Whenever its
spinlock is free, the mutex is free, nobody waits for it and nobody has it, or exactly
one thread has it or is on its way out of `park` with it.  The threads that queue for
it get it in the order in which they have queued. -/
theorem mutex_exclusion_handoff (isStart : start.Start)
    (run : Transition.Run step Calm start trace s) (m : MutexId) :
    (∀ self other, s.Holds self m → s.Holds other m → self = other) ∧
    (s.locked (.mutex m) = false →
      (s.flag m = false → s.queue (.mutex m) = [] ∧ ∀ self, ¬s.Owns self m) ∧
      (s.flag m = true → ∃! self, s.Owns self m ∨ s.Unparked self (.mutex m))) ∧
    ∃ next : List Slot, next.length ≤ 1 ∧
      (s.locked (.mutex m) = false → ∀ self, self ∈ next ↔ s.Unparked self (.mutex m)) ∧
      added (.mutex m) trace =
        resumed (.mutex m) trace ++ next.map s.pid ++ s.queue (.mutex m) := by
  have benign := calm_run isStart run
  have inv := Inv.run isStart benign
  have token := inv.protocol.token m
  refine ⟨fun self other holds otherHolds => ?_, fun free => ?_, ?_⟩
  · exact token.owner_unique (owns_iff_abs.mp holds.owns) (owns_iff_abs.mp otherHolds.owns)
  · have charge := in_charge inv free
    exact ⟨fun flag => ⟨(charge.1 flag).1, fun self => ((charge.1 flag).2 self).1⟩, charge.2⟩
  · obtain ⟨next, short, isNext, order⟩ := handover_order isStart benign m
    refine ⟨next, short, fun free self => ?_, order⟩
    exact (isNext self).trans (unparked_iff_abs inv free).symm

/-- A thread locks a mutex that is free. -/
def lockActs (self : Slot) (m : Nat) : List Act :=
  .call self (.mutexLock m) :: List.replicate 4 (.run self)

/-- A thread queues for a mutex that is taken, and parks. -/
def queueActs (self : Slot) (m : Nat) : List Act :=
  .call self (.mutexLock m) :: List.replicate 6 (.run self)

/-- A thread unlocks a mutex for which another one waits. -/
def unlockActs (self : Slot) (m : Nat) : List Act :=
  .call self (.mutexUnlock m) :: List.replicate 5 (.run self)

/-- The first of two waiters is on its way out of `park` with the mutex. -/
theorem mutex_exclusion_handoff_queued : ∃ s trace,
    Transition.Run step Calm threeThreads trace s ∧ s.locked (.mutex (.user 0)) = false ∧
    s.queue (.mutex (.user 0)) ≠ [] ∧
    ∃! self, s.Owns self (.user 0) ∨ s.Unparked self (.mutex (.user 0)) := by
  obtain ⟨s, run, free, queue, flag⟩ : ∃ s, Transition.Run step Calm threeThreads _ s ∧
      s.locked (.mutex (.user 0)) = false ∧ s.queue (.mutex (.user 0)) ≠ [] ∧
      s.flag (.user 0) = true :=
    Transition.Run.of_exec_met
      (lockActs 1 0 ++ queueActs 2 0 ++ queueActs 3 0 ++ unlockActs 1 0)
      (by decide +kernel) (by decide +kernel)
  exact ⟨s, _, run, free, queue,
    ((mutex_exclusion_handoff start_threeThreads run (.user 0)).2.1 free).2 flag⟩

end Xv6.User.System
