import Xv6.Kernel.PipeFifo

/-!
# Who sleeps on a pipe

A reader should sleep only while the pipe is empty and can still be written to, a
writer only while it is full and can still be read.  The code keeps this with one
exception: the early return of `pipewrite`, taken when the pipe is full and the
read end is closed or the caller is killed, leaves without a `wakeup(&p->nread)`
although bytes may have been stored since the caller got the lock.
-/

namespace Xv6

open Function

/-- The places of the lock's holder with a `wakeup(&p->nread)` still to come. -/
def PipePc.wakesReaders : PipePc → Bool
  | .writeLoop _ _ | .writeFull _ _ | .closeWake true => true
  | _ => false

/-- The places of the lock's holder with a `wakeup(&p->nwrite)` still to come. -/
def PipePc.wakesWriters : PipePc → Bool
  | .readCopy _ _ | .closeWake false => true
  | _ => false

/-- What the holder of the lock has found out about the pipe. -/
def PipePc.Knows (p : Pipe) : PipePc → Prop
  | .readSleep _ => p.Empty ∧ p.writeopen = true
  | .writeFull _ _ | .writeSleep _ _ => p.Full ∧ p.readopen = true
  | _ => True

namespace PipeSystem

variable {Process : Type}

/-- A reader sleeps only while it has to. -/
def ReadersWait (s : PipeSystem Process) : Prop :=
  ∀ reader, s.asleep reader = some .nread → s.pipe.Empty ∧ s.pipe.writeopen = true

/-- A writer sleeps only while it has to. -/
def WritersWait (s : PipeSystem Process) : Prop :=
  ∀ writer, s.asleep writer = some .nwrite → s.pipe.Full ∧ s.pipe.readopen = true

/-- The next step of a process is the early return of `pipewrite`: it has bytes left,
the pipe is full, and the read end is closed or the process is killed. -/
def leavesEarly (s : PipeSystem Process) (self : Process) : Bool :=
  match s.pc self with
  | .writeLoop _ (_ :: _) =>
    decide s.pipe.Full && (!s.pipe.readopen || s.killed self)
  | _ => false

/-- The early return of `pipewrite` finds no reader asleep. -/
def NoStranding (s : PipeSystem Process) : PipeAction Process → Prop
  | .run self => s.leavesEarly self = true → ∀ reader, s.asleep reader ≠ some .nread
  | _ => True

instance {size : Nat} (s : PipeSystem (Fin size)) (action : PipeAction (Fin size)) :
    Decidable (s.NoStranding action) :=
  match action with
  | .run self =>
    inferInstanceAs (Decidable (s.leavesEarly self = true → ∀ _, _ ≠ _))
  | .write _ _ _ | .read _ _ | .close _ _ | .kill _ => inferInstanceAs (Decidable True)

/-- The invariant: under the lock the two conditions may fail while the wake-up is
still to come. -/
structure Sleepers (s : PipeSystem Process) : Prop where
  locked : ∀ process, s.lock = some process ↔ (s.pc process).holds = true
  knows : ∀ process, s.lock = some process → (s.pc process).Knows s.pipe
  readers : s.ReadersWait ∨ ∃ writer, s.lock = some writer ∧
    (s.pc writer).wakesReaders = true
  writers : s.WritersWait ∨ ∃ reader, s.lock = some reader ∧
    (s.pc reader).wakesWriters = true

section Rules

variable [DecidableEq Process] {s t s' : PipeSystem Process} {self : Process} {pc : PipePc}

section
variable (inv : s.Sleepers)
include inv

section
omit [DecidableEq Process]

theorem Sleepers.readersWait (mine : s.lock = some self)
    (quiet : (s.pc self).wakesReaders = false) : s.ReadersWait := by
  rcases inv.readers with calm | ⟨writer, holder, wakes⟩
  · exact calm
  · obtain rfl := Option.some.inj (mine.symm.trans holder)
    rw [quiet] at wakes
    cases wakes

theorem Sleepers.writersWait (mine : s.lock = some self)
    (quiet : (s.pc self).wakesWriters = false) : s.WritersWait := by
  rcases inv.writers with calm | ⟨reader, holder, wakes⟩
  · exact calm
  · obtain rfl := Option.some.inj (mine.symm.trans holder)
    rw [quiet] at wakes
    cases wakes

end

theorem Sleepers.keep (mine : s.lock = some self)
    (lock : t.lock = s.lock) (pcs : t.pc = s.pc) (holds : pc.holds = true)
    (knows : pc.Knows t.pipe) (readers : t.ReadersWait ∨ pc.wakesReaders = true)
    (writers : t.WritersWait ∨ pc.wakesWriters = true) : (t.goto self pc).Sleepers := by
  have owner : (t.goto self pc).lock = some self := lock.trans mine
  refine ⟨?_, ?_, ?_, ?_⟩
  · intro process
    rw [owner]
    by_cases same : process = self
    · subst same
      simp [goto, holds]
    · have others := inv.locked process
      rw [mine] at others
      simpa [goto, same, pcs, Ne.symm same] using others
  · intro process holder
    obtain rfl := Option.some.inj (owner.symm.trans holder)
    simpa [goto] using knows
  · exact readers.imp_right fun wakes => ⟨self, owner, by simpa [goto] using wakes⟩
  · exact writers.imp_right fun wakes => ⟨self, owner, by simpa [goto] using wakes⟩

theorem Sleepers.giveUp (mine : s.lock = some self)
    (lock : t.lock = none) (pcs : t.pc = s.pc) (leaves : pc.holds = false)
    (readers : t.ReadersWait) (writers : t.WritersWait) : (t.goto self pc).Sleepers := by
  refine ⟨?_, ?_, .inl readers, .inl writers⟩
  · intro process
    by_cases same : process = self
    · subst same
      simp [goto, lock, leaves]
    · have others := inv.locked process
      rw [mine] at others
      simpa [goto, lock, same, pcs, Ne.symm same] using others
  · intro process holder
    rw [show (t.goto self pc).lock = none from lock] at holder
    cases holder

theorem Sleepers.take (taken : s.acquire self pc = some s')
    (holds : pc.holds = true) (knows : pc.Knows s.pipe) : s'.Sleepers := by
  simp only [acquire, Option.ite_none_right_eq_some, Option.some.injEq] at taken
  obtain ⟨⟨-, free⟩, rfl⟩ := taken
  have unheld : ∀ process, s.lock ≠ some process := by simp [free]
  refine ⟨?_, ?_, ?_, ?_⟩
  · intro process
    by_cases same : process = self
    · subst same
      simp [goto, holds]
    · have others := inv.locked process
      simpa [goto, same, Ne.symm same, free] using others
  · intro process holder
    obtain rfl := Option.some.inj holder
    simpa [goto] using knows
  · exact .inl (inv.readers.resolve_right fun held =>
      held.elim fun process inside => unheld process inside.1)
  · exact .inl (inv.writers.resolve_right fun held =>
      held.elim fun process inside => unheld process inside.1)

theorem Sleepers.outside (before : (s.pc self).holds = false)
    (after : pc.holds = false) : (s.goto self pc).Sleepers := by
  have other : ∀ process, s.lock = some process → process ≠ self := by
    rintro process holder rfl
    rw [(inv.locked process).mp holder] at before
    cases before
  have place : ∀ process, s.lock = some process → (s.goto self pc).pc process = s.pc process :=
    fun process holder => by simp [goto, other process holder]
  refine ⟨?_, ?_, ?_, ?_⟩
  · intro process
    by_cases same : process = self
    · subst same
      have free : s.lock ≠ some process := fun holder => other process holder rfl
      simp [goto, after, free]
    · simpa [goto, same] using inv.locked process
  · intro process holder
    rw [place process holder]
    exact inv.knows process holder
  · refine inv.readers.imp_right fun ⟨process, holder, wakes⟩ => ⟨process, holder, ?_⟩
    rw [place process holder, wakes]
  · refine inv.writers.imp_right fun ⟨process, holder, wakes⟩ => ⟨process, holder, ?_⟩
    rw [place process holder, wakes]

end

section
omit [DecidableEq Process]

theorem readersWait_wakeup (s : PipeSystem Process) : (s.wakeup .nread).ReadersWait := by
  intro reader asleep
  simp only [wakeup] at asleep
  split at asleep
  next => cases asleep
  next awake => exact absurd asleep awake

theorem writersWait_wakeup (s : PipeSystem Process) : (s.wakeup .nwrite).WritersWait := by
  intro writer asleep
  simp only [wakeup] at asleep
  split at asleep
  next => cases asleep
  next awake => exact absurd asleep awake

theorem asleep_of_wakeup {chan chan' : PipeChan} {process : Process}
    (asleep : (s.wakeup chan).asleep process = some chan') : s.asleep process = some chan' := by
  simp only [wakeup] at asleep
  split at asleep
  next => cases asleep
  next => exact asleep

end

section
variable (inv : s.Sleepers) {n : Int} {writable : Bool}
include inv

section
variable (mine : s.lock = some self)
include mine

theorem Sleepers.writeLoop {rest : List UInt8} (place : s.pc self = .writeLoop n rest)
    (guard : s.NoStranding (.run self)) : (s.writeLoop self n rest).Sleepers := by
  have writers := inv.writersWait mine (by rw [place]; rfl)
  cases rest with
  | nil =>
    refine inv.keep mine rfl rfl rfl trivial (.inl (readersWait_wakeup s)) (.inl ?_)
    exact fun writer asleep => writers writer (asleep_of_wakeup asleep)
  | cons byte rest =>
    simp only [PipeSystem.writeLoop]
    split
    next full =>
      split
      next leaves =>
        have nobody := guard (by simpa [leavesEarly, place, full] using leaves)
        refine inv.keep mine rfl rfl rfl trivial (.inl ?_) (.inl writers)
        exact fun reader asleep => absurd asleep (nobody reader)
      next stays =>
        have knows : s.pipe.Full ∧ s.pipe.readopen = true := by
          refine ⟨full, ?_⟩
          simpa using fun closed => stays (.inl closed)
        exact inv.keep mine rfl rfl rfl knows (.inr rfl) (.inl writers)
    next room =>
      refine inv.keep mine rfl rfl rfl trivial (.inr rfl) (.inl ?_)
      exact fun writer asleep => absurd (writers writer asleep).1 room

theorem Sleepers.readLoop (place : s.pc self = .readLoop n) : (s.readLoop self n).Sleepers := by
  have readers := inv.readersWait mine (by rw [place]; rfl)
  have writers := inv.writersWait mine (by rw [place]; rfl)
  unfold PipeSystem.readLoop
  split
  next empty =>
    split
    next => exact inv.keep mine rfl rfl rfl trivial (.inl readers) (.inl writers)
    next => exact inv.keep mine rfl rfl rfl empty (.inl readers) (.inl writers)
  next => exact inv.keep mine rfl rfl rfl trivial (.inl readers) (.inl writers)

theorem Sleepers.readCopy {i : Nat} (place : s.pc self = .readCopy n i) :
    (s.readCopy self n i).Sleepers := by
  have readers := inv.readersWait mine (by rw [place]; rfl)
  unfold PipeSystem.readCopy
  split
  next copies =>
    refine inv.keep mine rfl rfl rfl trivial (.inl ?_) (.inr rfl)
    exact fun reader asleep => absurd (readers reader asleep).1 copies.2
  next =>
    refine inv.keep mine rfl rfl rfl trivial (.inl ?_) (.inl (writersWait_wakeup s))
    exact fun reader asleep => readers reader (asleep_of_wakeup asleep)

theorem Sleepers.closeBody (place : s.pc self = .closeBody writable) :
    (s.closeBody self writable).Sleepers := by
  have readers := inv.readersWait mine (by rw [place]; rfl)
  have writers := inv.writersWait mine (by rw [place]; rfl)
  cases writable with
  | true => exact inv.keep mine rfl rfl rfl trivial (.inr rfl) (.inl writers)
  | false => exact inv.keep mine rfl rfl rfl trivial (.inl readers) (.inr rfl)

theorem Sleepers.closeWake (place : s.pc self = .closeWake writable) :
    ((s.wakeup (if writable then .nread else .nwrite)).goto self .closeEnd).Sleepers := by
  cases writable with
  | true =>
    have writers := inv.writersWait mine (by rw [place]; rfl)
    refine inv.keep mine rfl rfl rfl trivial (.inl (readersWait_wakeup s)) (.inl ?_)
    exact fun writer asleep => writers writer (asleep_of_wakeup asleep)
  | false =>
    have readers := inv.readersWait mine (by rw [place]; rfl)
    refine inv.keep mine rfl rfl rfl trivial (.inl ?_) (.inl (writersWait_wakeup s))
    exact fun reader asleep => readers reader (asleep_of_wakeup asleep)

theorem Sleepers.sleep {chan : PipeChan}
    (leaves : pc.holds = false) (readers : s.ReadersWait) (writers : s.WritersWait)
    (empty : chan = .nread → s.pipe.Empty ∧ s.pipe.writeopen = true)
    (full : chan = .nwrite → s.pipe.Full ∧ s.pipe.readopen = true) :
    (s.sleep self chan pc).Sleepers := by
  refine inv.giveUp mine rfl rfl leaves ?_ ?_
  · intro reader asleep
    by_cases same : reader = self
    · subst same
      exact empty (by simpa using asleep)
    · exact readers reader (by simpa [same] using asleep)
  · intro writer asleep
    by_cases same : writer = self
    · subst same
      exact full (by simpa using asleep)
    · exact writers writer (by simpa [same] using asleep)

end

theorem Sleepers.advance (guard : s.NoStranding (.run self))
    (taken : s.advance self = some s') : s'.Sleepers := by
  have mine : (s.pc self).holds = true → s.lock = some self := (inv.locked self).mpr
  simp only [PipeSystem.advance] at taken
  cases place : s.pc self with
  | idle => simp [place] at taken
  | writeEnter | readEnter | closeEnter =>
    simp only [place] at taken
    exact inv.take taken rfl trivial
  | writeLoop n rest =>
    simp only [place, Option.some.injEq] at taken
    exact taken ▸ inv.writeLoop (mine (by rw [place]; rfl)) place guard
  | writeFull n rest =>
    simp only [place, Option.some.injEq] at taken
    subst taken
    have held := mine (by rw [place]; rfl)
    have knows := inv.knows self held
    rw [place] at knows
    refine inv.keep held rfl rfl rfl knows (.inl (readersWait_wakeup s)) (.inl ?_)
    exact fun _ _ => knows
  | writeSleep n rest =>
    simp only [place, Option.some.injEq] at taken
    subst taken
    have held := mine (by rw [place]; rfl)
    have knows := inv.knows self held
    rw [place] at knows
    exact inv.sleep held rfl (inv.readersWait held (by rw [place]; rfl))
      (inv.writersWait held (by rw [place]; rfl)) (by rintro ⟨⟩) fun _ => knows
  | readLoop n =>
    simp only [place, Option.some.injEq] at taken
    exact taken ▸ inv.readLoop (mine (by rw [place]; rfl)) place
  | readSleep n =>
    simp only [place, Option.some.injEq] at taken
    subst taken
    have held := mine (by rw [place]; rfl)
    have knows := inv.knows self held
    rw [place] at knows
    exact inv.sleep held rfl (inv.readersWait held (by rw [place]; rfl))
      (inv.writersWait held (by rw [place]; rfl)) (fun _ => knows) (by rintro ⟨⟩)
  | readCopy n i =>
    simp only [place, Option.some.injEq] at taken
    exact taken ▸ inv.readCopy (mine (by rw [place]; rfl)) place
  | closeBody writable =>
    simp only [place, Option.some.injEq] at taken
    exact taken ▸ inv.closeBody (mine (by rw [place]; rfl)) place
  | closeWake writable =>
    simp only [place, Option.some.injEq] at taken
    exact taken ▸ inv.closeWake (mine (by rw [place]; rfl)) place
  | closeEnd | unlock =>
    simp only [place, Option.some.injEq] at taken
    subst taken
    have held := mine (by rw [place]; rfl)
    exact inv.giveUp held rfl rfl rfl (inv.readersWait held (by rw [place]; rfl))
      (inv.writersWait held (by rw [place]; rfl))

theorem Sleepers.call (outside : pc.holds = false)
    (taken : s.call self pc = some s') : s'.Sleepers := by
  simp only [PipeSystem.call, Option.ite_none_right_eq_some, Option.some.injEq] at taken
  obtain ⟨idle, rfl⟩ := taken
  exact inv.outside (by rw [idle]; rfl) outside

theorem Sleepers.kill (target : Process) :
    PipeSystem.Sleepers { s with
      killed := update s.killed target true
      asleep := update s.asleep target none } := by
  have awake : ∀ {process chan},
      update s.asleep target none process = some chan →
      s.asleep process = some chan := by
    intro process chan asleep
    by_cases same : process = target
    · subst same
      simp at asleep
    · simpa [same] using asleep
  exact ⟨inv.locked, inv.knows,
    inv.readers.imp_left fun readers reader asleep => readers reader (awake asleep),
    inv.writers.imp_left fun writers writer asleep => writers writer (awake asleep)⟩

theorem Sleepers.step {action : PipeAction Process}
    (guard : s.NoStranding action) (taken : s.step action = some s') : s'.Sleepers := by
  cases action with
  | write self n bytes =>
    simp only [PipeSystem.step, Option.ite_none_right_eq_some] at taken
    exact inv.call rfl taken.2
  | read self n => exact inv.call rfl taken
  | close self writable => exact inv.call rfl taken
  | run self =>
    simp only [PipeSystem.step, Option.ite_none_right_eq_some] at taken
    exact inv.advance guard taken.2
  | kill target =>
    simp only [PipeSystem.step, Option.some.injEq] at taken
    exact taken ▸ inv.kill target

end

omit [DecidableEq Process] in
theorem sleepers_start (data : Fin pipesize → UInt8) : (start data : PipeSystem Process).Sleepers :=
  ⟨by simp [start, PipePc.holds], by simp [start], .inl nofun, .inl nofun⟩

end Rules

variable [DecidableEq Process] {s : PipeSystem Process}

/-- While no reader is stranded by an early return of `pipewrite`: whenever the lock
is free, a process asleep on `&p->nread` means an empty pipe that can be written to,
and one asleep on `&p->nwrite` a full pipe that can be read. -/
theorem sleepers_have_to_wait {data : Fin pipesize → UInt8}
    {trace : List (PipeSystem Process × PipeAction Process)}
    (run : Transition.Run step NoStranding (start data) trace s) (free : s.lock = none) :
    (∀ reader, s.asleep reader = some .nread →
      s.pipe.nread = s.pipe.nwrite ∧ s.pipe.writeopen = true) ∧
    (∀ writer, s.asleep writer = some .nwrite →
      s.pipe.nwrite = s.pipe.nread + Fin.ofNat (2 ^ 32) pipesize ∧
        s.pipe.readopen = true) := by
  have inv : s.Sleepers := by
    apply run.stateInvariant (sleepers_start data)
    intro state action next inv guard taken
    exact inv.step guard taken
  have unheld : ∀ process, s.lock ≠ some process := by simp [free]
  exact ⟨inv.readers.resolve_right fun ⟨process, holder, _⟩ => unheld process holder,
    inv.writers.resolve_right fun ⟨process, holder, _⟩ => unheld process holder⟩

/-- A reader waits for data on an empty pipe. -/
theorem sleepers_have_to_wait_reading : ∃ s : PipeSystem (Fin 2), ∃ trace,
    Transition.Run step NoStranding (start fun _ => 0) trace s ∧ s.lock = none ∧
      s.asleep 0 = some .nread ∧ s.pipe.nread = s.pipe.nwrite := by
  have waiting : ∃ s : PipeSystem (Fin 2), Transition.Run step NoStranding (start fun _ => 0)
      (Transition.traceOf step (start fun _ => 0) (.read 0 1 :: List.replicate 3 (.run 0))) s ∧
      s.lock = none ∧ s.asleep 0 = some .nread :=
    Transition.Run.of_exec_met _ (by decide +kernel) (by decide +kernel)
  obtain ⟨s, run, free, asleep⟩ := waiting
  exact ⟨s, _, run, free, asleep, ((sleepers_have_to_wait run free).1 0 asleep).1⟩

/-- A reader falls asleep on the empty pipe; a writer that is killed in `pipewrite`
fills it and returns early. -/
def strandingActs : List (PipeAction (Fin 2)) :=
  .read 0 1 :: List.replicate 3 (.run 0) ++
    .write 1 513 (List.replicate 513 0) :: .kill 1 :: List.replicate 515 (.run 1)

/-- The reader is left asleep next to 512 bytes. -/
theorem reader_stranded : ∃ s : PipeSystem (Fin 2), ∃ trace,
    Transition.Run step (fun _ _ => True) (start fun _ => 0) trace s ∧ s.lock = none ∧
      s.asleep 0 = some .nread ∧ s.pipe.nread ≠ s.pipe.nwrite :=
  Transition.Run.exists_met strandingActs (by simp) (by decide +kernel)

end PipeSystem

end Xv6
