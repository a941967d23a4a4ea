import Xv6.Kernel.Invariant
import Xv6.Kernel.WaitJoin

/-!
# What becomes of the children of a process that exits

`exit` hands the children of a process to `initproc`, whose only way to get rid of a
zombie is `wait`.  A slot that has been handed over keeps its parent and its kind
until it is reaped, so that the kind it had when its parent exited decides whether
it is ever freed.
-/

namespace Xv6

variable {thread : Bool}

namespace Ptable

/-- The table after a number of passes of `wait`, one after the other. -/
def waits (pt : Ptable) (parent : Slot) : Nat → Ptable
  | 0 => pt
  | calls + 1 => ((pt.waitScan parent).1).waits parent calls

/-- Some number of `wait` calls frees a slot. -/
def WaitReaps (pt : Ptable) (parent child : Slot) : Prop :=
  ∃ calls, ((pt.waits parent calls).proc child).state = .unused

/-- The zombies that a scan for one kind of children may pick. -/
def deadChildren (pt : Ptable) (caller : Slot) (thread : Bool) : Finset Slot :=
  Finset.univ.filter (pt.DeadChild caller thread)

theorem mem_deadChildren {pt : Ptable} {caller child : Slot} :
    child ∈ pt.deadChildren caller thread ↔ pt.DeadChild caller thread child := by
  simp [deadChildren]

section Wait

variable {pt pt' : Ptable} {parent child other : Slot}

theorem Reaps.deadChild (reaps : pt.Reaps pt' other) (different : child ≠ other) :
    pt'.DeadChild parent thread child ↔ pt.DeadChild parent thread child := by
  simp only [DeadChild, ChildOf, reaps.others child different]

theorem Reaps.card_lt (reaps : pt.Reaps pt' other) (dead : pt.DeadChild parent thread other) :
    (pt'.deadChildren parent thread).card < (pt.deadChildren parent thread).card := by
  apply Finset.card_lt_card
  refine Finset.ssubset_iff_of_subset ?_ |>.mpr ⟨other, mem_deadChildren.mpr dead, ?_⟩
  · intro slot member
    have stillDead := mem_deadChildren.mp member
    have different : slot ≠ other := by
      rintro rfl
      exact absurd (stillDead.2.symm.trans reaps.freed) (by decide)
    exact mem_deadChildren.mpr ((reaps.deadChild different).mp stillDead)
  · intro member
    have stillDead := mem_deadChildren.mp member
    exact absurd (stillDead.2.symm.trans reaps.freed) (by decide)

theorem waitReaps_of_deadChild (dead : pt.DeadChild parent false child) :
    pt.WaitReaps parent child := by
  -- every pass frees one zombie child, so their number bounds the passes
  induction bound : (pt.deadChildren parent false).card using Nat.strong_induction_on
    generalizing pt with
  | _ count ih =>
    obtain ⟨picked, stack, pickedDead, -, reaps⟩ :=
      (pt.waitScan_for parent).of_dead ⟨child, dead⟩
    by_cases same : child = picked
    · subst same
      exact ⟨1, reaps.freed⟩
    · obtain ⟨calls, freed⟩ :=
        ih _ (bound ▸ reaps.card_lt pickedDead) ((reaps.deadChild same).mpr dead) rfl
      exact ⟨calls + 1, freed⟩

theorem waitScan_thread (dead : pt.DeadChild parent true child) (different : child ≠ parent) :
    ((pt.waitScan parent).1).DeadChild parent true child := by
  rcases pt.scan_cases parent (fun entry => !entry.isThread) (fun _ => true) (fun child =>
      (((pt.kfree (pt.proc child).kstack).freevm (pt.proc child).pgdir).modify child release,
        .reaped (pt.proc child).pid 0)) with ⟨picked, -, -, process, result⟩ | ⟨-, result | result⟩
  · have notPicked : child ≠ picked := by
      rintro rfl
      simp [dead.1.2] at process
    rw [waitScan, result]
    simpa [DeadChild, ChildOf, modify_of_ne notPicked] using dead
  · rw [waitScan, result]
    exact dead
  · rw [waitScan, result]
    simpa [DeadChild, ChildOf, sleep, modify_of_ne different] using dead

theorem not_waitReaps_of_thread (dead : pt.DeadChild parent true child)
    (different : child ≠ parent) : ¬pt.WaitReaps parent child := by
  rintro ⟨calls, freed⟩
  induction calls generalizing pt with
  | zero => exact absurd (dead.2.symm.trans freed) (by decide)
  | succ calls ih => exact ih (waitScan_thread dead different) freed

end Wait

end Ptable

namespace Kernel

/-- A slot in use that belongs to `initproc`. -/
structure Adopted (k : Kernel) (child : Slot) (thread : Bool) : Prop where
  used : (k.pt.proc child).state ≠ .unused
  ready : (k.pt.proc child).state ≠ .embryo
  parent : (k.pt.proc child).parent = some k.pt.initproc
  kind : (k.pt.proc child).isThread = thread

/-- A child that exists: its slot is neither free nor being filled. -/
def HasOffspring (k : Kernel) (self child : Slot) : Prop :=
  (k.pt.proc child).parent = some self ∧ (k.pt.proc child).state ≠ .unused ∧
    (k.pt.proc child).state ≠ .embryo

instance (k : Kernel) (self child : Slot) : Decidable (k.HasOffspring self child) :=
  inferInstanceAs (Decidable (_ ∧ _ ∧ _))

section Step

variable {k k' : Kernel} {self child : Slot} {action : Action}

theorem adopted_of_exit (wf : Wf k) (offspring : k.HasOffspring self child)
    (taken : k.step (.exit self) = some k') : Adopted k' child (k.pt.proc child).isThread := by
  obtain ⟨parent, used, ready⟩ := offspring
  have running : k.At self .user ∧ k' = { k with pt := k.pt.exit self } := by
    simp only [step, call] at taken
    split at taken
    · cases taken
    · split at taken
      next here => exact ⟨here, (Option.some.inj taken).symm⟩
      · cases taken
  obtain ⟨here, rfl⟩ := running
  have different : child ≠ self := by
    rintro rfl
    exact wf.other child parent
  have entry : (k.pt.exit self).proc child = _ := Ptable.exit_other different here.1
  refine ⟨?_, ?_, ?_, ?_⟩
  · simp only [entry]
    split
    · decide
    · exact used
  · simp only [entry]
    split
    · decide
    · exact ready
  · simp only [entry, Ptable.heir, if_pos parent]
    rfl
  · simp only [entry]

theorem adopted_step (wf : Wf k) (adopted : Adopted k child thread)
    (taken : k.step action = some k') (kept : (k'.pt.proc child).state ≠ .unused) :
    Adopted k' child thread := by
  have step := step_effect taken
  have move := step_move step wf.creates child
  have root := (step_frame step).1
  obtain ⟨used, ready, parent, kind⟩ := adopted
  suffices ∀ {entry pc}, Move k k' child action entry pc → entry.state ≠ .unused →
      entry.state ≠ .embryo ∧ entry.parent = some k.pt.initproc ∧
        entry.isThread = thread by
    obtain ⟨stillReady, stillParent, stillKind⟩ := this move kept
    exact ⟨kept, stillReady, root ▸ stillParent, stillKind⟩
  intro entry pc move kept
  have heir : ∀ self, k.pt.heir self (k.pt.proc child) = some k.pt.initproc := by
    intro self
    unfold Ptable.heir
    split
    · rfl
    · exact parent
  cases move with
  | taken unused => exact absurd unused used
  | @forked self _ here => exact absurd (wf.creates self child (by simp [here.2])) ready
  | @cloned self _ _ here => exact absurd (wf.creates self child (by simp [here.2])) ready
  | reaped | abandoned => exact absurd rfl kept
  | exits => exact ⟨by simp, heir _, kind⟩
  | orphaned =>
    refine ⟨?_, heir _, kind⟩
    change (if _ then _ else _) ≠ _
    split
    · decide
    · exact ready
  | killed =>
    refine ⟨?_, parent, kind⟩
    change (if _ then _ else _) ≠ _
    split
    · decide
    · exact ready
  | resumes | wakes | leavesPark | waits | yields | published | parks | unparked | sleeps
  | woken => exact ⟨by simp, parent, kind⟩
  | _ => exact ⟨ready, parent, kind⟩

end Step

/-- After `exit` each former child that has become a zombie, and has not been reaped in
between, belongs to `initproc`, and `wait` calls of `initproc` free its slot if and
only if it is no thread. -/
theorem orphan_reaped_iff {k exited later : Kernel} {self child : Slot}
    {trace : List (Kernel × Action)} (reachable : Reachable (fun _ _ => True) k)
    (exits : k.step (.exit self) = some exited) (offspring : k.HasOffspring self child)
    (run : Transition.Run step (fun _ _ => True) exited trace later)
    (kept : ∀ entry ∈ trace, (entry.1.pt.proc child).state ≠ .unused)
    (dead : (later.pt.proc child).state = .zombie) :
    (later.pt.proc child).parent = some later.pt.initproc ∧
      (later.pt.WaitReaps later.pt.initproc child ↔ (k.pt.proc child).isThread = false) := by
  have wf := reachable.wf
  have adopted : Wf later ∧ ((later.pt.proc child).state ≠ .unused →
      Adopted later child (k.pt.proc child).isThread) := by
    have unreaped := run.restrict (fun state _ => (state.pt.proc child).state ≠ .unused) kept
    apply unreaped.stateInvariant
    · exact ⟨wf_step wf exits, fun _ => adopted_of_exit wf offspring exits⟩
    · rintro state action next ⟨wf, adopted⟩ ⟨-, used⟩ taken
      exact ⟨wf_step wf taken, adopted_step wf (adopted used) taken⟩
  obtain ⟨laterWf, adopted⟩ := adopted
  obtain ⟨-, -, parent, kind⟩ := adopted (by simp [dead])
  refine ⟨parent, ?_⟩
  cases isThread : (k.pt.proc child).isThread with
  | false =>
    rw [isThread] at kind
    exact iff_of_true (Ptable.waitReaps_of_deadChild ⟨⟨parent, kind⟩, dead⟩) rfl
  | true =>
    rw [isThread] at kind
    have different : child ≠ later.pt.initproc := by
      rintro rfl
      exact laterWf.other _ parent
    exact iff_of_false (Ptable.not_waitReaps_of_thread ⟨⟨parent, kind⟩, dead⟩ different)
      (by decide)

/-! ## A process and a thread that outlive their parent -/

/-- `initproc` forks, and its child creates one more slot. -/
def grandchild : Spawn → List Action
  | .fork => [.spawn 1 .fork, .kstack 1 5, .copyuvm 1 6, .publish 1]
  | .clone fn ustack =>
    [.spawn 1 (.clone fn ustack), .kstack 1 5, .share 1, .copyout 1 true, .publish 1]

/-- The middle process can exit, and the last one exit after it. -/
def Outlives (k : Kernel) (thread : Bool) : Prop :=
  k.HasOffspring 1 2 ∧ (k.pt.proc 2).isThread = thread ∧
    (k.step (.exit 1)).any (fun exited =>
      decide (∀ entry ∈ Transition.traceOf step exited [.dispatch 2, .exit 2],
        (entry.1.pt.proc 2).state ≠ .unused) &&
      (Transition.exec step exited [.dispatch 2, .exit 2]).any
        fun later => decide (later.pt.DeadChild later.pt.initproc thread 2 ∧
          (2 : Slot) ≠ later.pt.initproc)) = true

instance (k : Kernel) (thread : Bool) : Decidable (k.Outlives thread) :=
  inferInstanceAs (Decidable (_ ∧ _ ∧ _))

theorem Outlives.run {k : Kernel} (outlives : k.Outlives thread) :
    ∃ exited trace later, k.step (.exit 1) = some exited ∧ k.HasOffspring 1 2 ∧
      Transition.Run step (fun _ _ => True) exited trace later ∧
      (∀ entry ∈ trace, (entry.1.pt.proc 2).state ≠ .unused) ∧
      later.pt.DeadChild later.pt.initproc thread 2 ∧ (2 : Slot) ≠ later.pt.initproc := by
  obtain ⟨offspring, -, met⟩ := outlives
  obtain ⟨exited, exits, met⟩ := (Option.any_eq_true _ _).mp met
  obtain ⟨kept, met⟩ := Bool.and_eq_true_iff.mp met
  obtain ⟨later, executed, met⟩ := (Option.any_eq_true _ _).mp met
  exact ⟨exited, _, later, exits, offspring,
    Transition.Run.of_exec executed (fun _ _ => trivial), of_decide_eq_true kept,
    of_decide_eq_true met⟩

/-- A process whose parent has exited is freed by `initproc`. -/
theorem orphan_reaped_forked :
    ∃ k exited trace later, Reachable (fun _ _ => True) k ∧
      k.step (.exit 1) = some exited ∧ k.HasOffspring 1 2 ∧
      Transition.Run step (fun _ _ => True) exited trace later ∧
      (later.pt.proc 2).state = .zombie ∧ later.pt.WaitReaps later.pt.initproc 2 := by
  obtain ⟨k, reachable, outlives⟩ :
      ∃ k, Reachable (fun _ _ => True) k ∧ k.Outlives false :=
    reachable_exec (withChild ++ grandchild .fork) (fun _ _ => trivial) (by decide +kernel)
  obtain ⟨exited, trace, later, exits, offspring, run, kept, dead, -⟩ := outlives.run
  exact ⟨k, exited, trace, later, reachable, exits, offspring, run, dead.2,
    (orphan_reaped_iff reachable exits offspring run kept dead.2).2.mpr outlives.2.1⟩

/-- A thread that exits after the process that created it stays a zombie, however often
`initproc` calls `wait`. -/
theorem orphaned_thread_stays_zombie :
    ∃ k exited trace later, Reachable (fun _ _ => True) k ∧
      k.step (.exit 1) = some exited ∧ k.HasOffspring 1 2 ∧
      Transition.Run step (fun _ _ => True) exited trace later ∧
      (∀ entry ∈ trace, (entry.1.pt.proc 2).state ≠ .unused) ∧
      (later.pt.proc 2).state = .zombie ∧
      (later.pt.proc 2).parent = some later.pt.initproc ∧
      ¬later.pt.WaitReaps later.pt.initproc 2 := by
  obtain ⟨k, reachable, outlives⟩ :
      ∃ k, Reachable (fun _ _ => True) k ∧ k.Outlives true :=
    reachable_exec (withChild ++ grandchild (.clone 0 pgsize)) (fun _ _ => trivial)
      (by decide +kernel)
  obtain ⟨exited, trace, later, exits, offspring, run, kept, dead, different⟩ := outlives.run
  exact ⟨k, exited, trace, later, reachable, exits, offspring, run, kept, dead.2, dead.1.1,
    Ptable.not_waitReaps_of_thread dead different⟩

end Kernel

end Xv6
