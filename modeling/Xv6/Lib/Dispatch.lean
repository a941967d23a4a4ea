import Xv6.Lib.Numerals

/-!
# Processors that share tasks under one lock

Any number of processors run tasks.  A processor puts a task on itself, and takes
it off again, only while it owns the lock; a task that is about to leave its
processor stops counting as running before it is taken off, and the lock may be
given up only when the owner's task is running.  Whenever the lock is free, the
running tasks are then exactly those that some processor has, and no task is on
two processors.

Ownership of the lock belongs to a processor, so the protocol covers a lock that
is acquired by one task and released by the next one on the same processor.
-/

namespace Dispatch

universe u v

/-- The owner of the lock, the task each processor has, and the tasks that count
as running. -/
structure State (Cpu : Type u) (Task : Type v) where
  owner : Option Cpu
  on : Cpu → Option Task
  running : Task → Prop

variable {Cpu : Type u} {Task : Type v} {s s' : State Cpu Task} {task : Task} {cpu : Cpu}

/-- What a step changes: each case lists the three components afterwards. -/
inductive Step (s s' : State Cpu Task) : Prop where
  | stutter (owner : s'.owner = s.owner) (on : ∀ cpu, s'.on cpu = s.on cpu)
      (running : ∀ task, s'.running task ↔ s.running task)
  | acquire (cpu : Cpu) (free : s.owner = none) (owner : s'.owner = some cpu)
      (on : ∀ cpu, s'.on cpu = s.on cpu)
      (running : ∀ task, s'.running task ↔ s.running task)
  | release (cpu : Cpu) (held : s.owner = some cpu)
      (settled : ∀ task, s.on cpu = some task → s.running task)
      (owner : s'.owner = none) (on : ∀ cpu, s'.on cpu = s.on cpu)
      (running : ∀ task, s'.running task ↔ s.running task)
  | dispatch (cpu : Cpu) (task : Task) (held : s.owner = some cpu)
      (idle : s.on cpu = none) (ready : ¬s.running task)
      (owner : s'.owner = some cpu) (self : s'.on cpu = some task)
      (others : ∀ other, other ≠ cpu → s'.on other = s.on other)
      (running : ∀ other, s'.running other ↔ other = task ∨ s.running other)
  | stop (cpu : Cpu) (task : Task) (held : s.owner = some cpu)
      (has : s.on cpu = some task)
      (owner : s'.owner = some cpu) (on : ∀ cpu, s'.on cpu = s.on cpu)
      (running : ∀ other, s'.running other ↔ other ≠ task ∧ s.running other)
  | remove (cpu : Cpu) (task : Task) (held : s.owner = some cpu)
      (has : s.on cpu = some task) (stopped : ¬s.running task)
      (owner : s'.owner = some cpu) (self : s'.on cpu = none)
      (others : ∀ other, other ≠ cpu → s'.on other = s.on other)
      (running : ∀ task, s'.running task ↔ s.running task)

/-- The invariant: a task on a processor runs unless that processor owns the lock,
a running task is on some processor, and no task is on two. -/
structure Inv (s : State Cpu Task) : Prop where
  settled : ∀ cpu task, s.on cpu = some task → s.running task ∨ s.owner = some cpu
  placed : ∀ task, s.running task → ∃ cpu, s.on cpu = some task
  alone : ∀ cpu other task, s.on cpu = some task → s.on other = some task → cpu = other

section
variable (inv : Inv s)
include inv

/-- A task that does not run is on no processor but the owner of the lock. -/
theorem Inv.owner_of_stopped
    (has : s.on cpu = some task) (stopped : ¬s.running task) : s.owner = some cpu :=
  (inv.settled cpu task has).resolve_left stopped

/-- The invariant reads the state through its three components. -/
private theorem Inv.of_eq
    (settled : ∀ cpu task, s.on cpu = some task → s.running task ∨ s'.owner = some cpu)
    (on : ∀ cpu, s'.on cpu = s.on cpu)
    (running : ∀ task, s'.running task ↔ s.running task) : Inv s' where
  settled := by
    intro cpu task has
    rw [on] at has
    rw [running]
    exact settled cpu task has
  placed := by
    intro task runs
    obtain ⟨cpu, has⟩ := inv.placed task ((running task).mp runs)
    exact ⟨cpu, by rw [on, has]⟩
  alone := by
    intro cpu other task has has'
    rw [on] at has has'
    exact inv.alone cpu other task has has'

private theorem Inv.dispatch
    (held : s.owner = some cpu) (idle : s.on cpu = none) (ready : ¬s.running task)
    (owner : s'.owner = some cpu) (self : s'.on cpu = some task)
    (others : ∀ other, other ≠ cpu → s'.on other = s.on other)
    (running : ∀ other, s'.running other ↔ other = task ∨ s.running other) : Inv s' := by
  -- the new task was on no other processor: it did not run and the lock is here
  have unplaced : ∀ other, s.on other ≠ some task := by
    intro other has
    have same : some cpu = some other := held.symm.trans (inv.owner_of_stopped has ready)
    obtain rfl := Option.some.inj same
    rw [idle] at has
    cases has
  have back : ∀ other running, s'.on other = some running →
      (other = cpu ∧ running = task) ∨ (other ≠ cpu ∧ s.on other = some running) := by
    intro other running has
    by_cases same : other = cpu
    · subst same
      rw [self] at has
      exact .inl ⟨rfl, (Option.some.inj has).symm⟩
    · rw [others other same] at has
      exact .inr ⟨same, has⟩
  refine ⟨?_, ?_, ?_⟩
  · intro other runner has
    rw [running, owner]
    rcases back other runner has with ⟨-, same⟩ | ⟨different, had⟩
    · exact .inl (.inl same)
    · rcases inv.settled other runner had with runs | owns
      · exact .inl (.inr runs)
      · exact .inr (held.symm.trans owns)
  · intro runner runs
    rcases (running runner).mp runs with rfl | before
    · exact ⟨cpu, self⟩
    · obtain ⟨other, has⟩ := inv.placed runner before
      refine ⟨other, ?_⟩
      rw [others other ?_, has]
      rintro rfl
      rw [idle] at has
      cases has
  · intro one two runner has has'
    rcases back one runner has with ⟨first, same⟩ | ⟨-, had⟩
    · rcases back two runner has' with ⟨second, -⟩ | ⟨-, had'⟩
      · exact first.trans second.symm
      · subst same
        exact absurd had' (unplaced two)
    · rcases back two runner has' with ⟨-, same⟩ | ⟨-, had'⟩
      · subst same
        exact absurd had (unplaced one)
      · exact inv.alone one two runner had had'

private theorem Inv.stop (has : s.on cpu = some task) (owner : s'.owner = some cpu)
    (held : s.owner = some cpu) (on : ∀ cpu, s'.on cpu = s.on cpu)
    (running : ∀ other, s'.running other ↔ other ≠ task ∧ s.running other) : Inv s' where
  settled := by
    intro other runner had
    rw [on] at had
    rw [running, owner]
    by_cases same : runner = task
    · subst same
      exact .inr (congrArg some (inv.alone cpu other runner has had))
    · rcases inv.settled other runner had with runs | owns
      · exact .inl ⟨same, runs⟩
      · exact .inr (held.symm.trans owns)
  placed := by
    intro runner runs
    obtain ⟨other, had⟩ := inv.placed runner ((running runner).mp runs).2
    exact ⟨other, by rw [on, had]⟩
  alone := by
    intro one two runner had had'
    rw [on] at had had'
    exact inv.alone one two runner had had'

private theorem Inv.remove (has : s.on cpu = some task) (stopped : ¬s.running task)
    (owner : s'.owner = some cpu) (held : s.owner = some cpu) (self : s'.on cpu = none)
    (others : ∀ other, other ≠ cpu → s'.on other = s.on other)
    (running : ∀ task, s'.running task ↔ s.running task) : Inv s' := by
  have back : ∀ other runner, s'.on other = some runner → s.on other = some runner := by
    intro other runner had
    rw [← others other ?_]
    · exact had
    · rintro rfl
      rw [self] at had
      cases had
  refine ⟨?_, ?_, ?_⟩
  · intro other runner had
    rw [running, owner]
    exact (inv.settled other runner (back other runner had)).imp_right held.symm.trans
  · intro runner runs
    have before := (running runner).mp runs
    obtain ⟨other, had⟩ := inv.placed runner before
    refine ⟨other, ?_⟩
    rw [others other ?_, had]
    rintro rfl
    have same : task = runner := Option.some.inj (has.symm.trans had)
    exact stopped (same ▸ before)
  · intro one two runner had had'
    exact inv.alone one two runner (back one runner had) (back two runner had')

theorem Inv.step (taken : Step s s') : Inv s' := by
  cases taken with
  | stutter owner on running =>
    refine inv.of_eq ?_ on running
    intro cpu task has
    rw [owner]
    exact inv.settled cpu task has
  | acquire cpu free owner on running =>
    refine inv.of_eq ?_ on running
    intro other task has
    refine .inl ((inv.settled other task has).resolve_right ?_)
    rw [free]
    exact nofun
  | release cpu held settled owner on running =>
    refine inv.of_eq ?_ on running
    intro other task has
    left
    rcases inv.settled other task has with runs | owns
    · exact runs
    · have same : some cpu = some other := held.symm.trans owns
      obtain rfl := Option.some.inj same
      exact settled task has
  | dispatch cpu task held idle ready owner self others running =>
    exact inv.dispatch held idle ready owner self others running
  | stop cpu task held has owner on running => exact inv.stop has owner held on running
  | remove cpu task held has stopped owner self others running =>
    exact inv.remove has stopped owner held self others running

/-- While the lock is free, a task runs if and only if it is on exactly one
processor. -/
theorem Inv.running_iff (free : s.owner = none)
    (task : Task) : s.running task ↔ ∃! cpu, s.on cpu = some task := by
  constructor
  · intro runs
    obtain ⟨cpu, has⟩ := inv.placed task runs
    exact ⟨cpu, has, fun other has' => inv.alone other cpu task has' has⟩
  · rintro ⟨cpu, has, -⟩
    refine (inv.settled cpu task has).resolve_right ?_
    rw [free]
    exact nofun

end

end Dispatch
