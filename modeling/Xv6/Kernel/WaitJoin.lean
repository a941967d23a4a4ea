import Xv6.Kernel.System

/-!
# What one scan of `wait` and `join` sees

`wait` is meant for child processes and `join` for child threads.  Both reap only
their own kind, but they decide whether to sleep by a looser test: `wait` counts
every slot whose parent pointer is the caller, `join` every such slot with
`isThread` set.  Neither looks at the state, so that a thread keeps `wait` asleep
and a slot left behind by a failing `fork` or `clone` keeps both asleep.
-/

namespace Xv6

namespace Ptable

/-- A child slot of one kind: a thread or a process. -/
def ChildOf (pt : Ptable) (caller : Slot) (thread : Bool) (child : Slot) : Prop :=
  (pt.proc child).parent = some caller ∧ (pt.proc child).isThread = thread

instance (pt : Ptable) (caller : Slot) (thread : Bool) (child : Slot) :
    Decidable (pt.ChildOf caller thread child) :=
  inferInstanceAs (Decidable (_ ∧ _))

/-- A child of the kind that can be reaped. -/
def DeadChild (pt : Ptable) (caller : Slot) (thread : Bool) (child : Slot) : Prop :=
  pt.ChildOf caller thread child ∧ (pt.proc child).state = .zombie

instance (pt : Ptable) (caller : Slot) (thread : Bool) (child : Slot) :
    Decidable (pt.DeadChild caller thread child) :=
  inferInstanceAs (Decidable (_ ∧ _))

/-- A child slot of the kind is in use. -/
def HasChild (pt : Ptable) (caller : Slot) (thread : Bool) : Prop :=
  ∃ child, pt.ChildOf caller thread child ∧ (pt.proc child).state ≠ .unused

instance (pt : Ptable) (caller : Slot) (thread : Bool) : Decidable (pt.HasChild caller thread) :=
  inferInstanceAs (Decidable (∃ _, _))

/-- The table after a scan has reaped a child: that slot is free, the others are
as they were. -/
structure Reaps (pt pt' : Ptable) (child : Slot) : Prop where
  freed : (pt'.proc child).state = .unused
  others : ∀ slot, slot ≠ child → pt'.proc slot = pt.proc slot

/-- A scan that sees exactly the children of one kind. -/
structure ScanExact (pt : Ptable) (caller : Slot) (thread : Bool)
    (outcome : Ptable × Scan) : Prop where
  reaps : (∃ child, pt.DeadChild caller thread child) →
    ∃ child stack, pt.DeadChild caller thread child ∧
      outcome.2 = .reaped (pt.proc child).pid stack ∧ pt.Reaps outcome.1 child
  fails : (¬∃ child, pt.DeadChild caller thread child) →
    (outcome.2 = .failed ↔ (pt.proc caller).killed = true ∨ ¬pt.HasChild caller thread)
  sleeps : outcome.2 = .sleeps →
    ∃ child, pt.ChildOf caller thread child ∧ (pt.proc child).state ≠ .unused ∧
      (pt.proc child).state ≠ .zombie

/-- The slots that keep a scan from failing: every child for `wait`, every thread
for `join`. -/
def Counted (pt : Ptable) (caller : Slot) (thread : Bool) (slot : Slot) : Prop :=
  (pt.proc slot).parent = some caller ∧ (thread = true → (pt.proc slot).isThread = true)

instance (pt : Ptable) (caller : Slot) (thread : Bool) (slot : Slot) :
    Decidable (pt.Counted caller thread slot) :=
  inferInstanceAs (Decidable (_ ∧ _))

/-- The decision to sleep is made on a child of the right kind that is in use. -/
def Decided (pt : Ptable) (caller : Slot) (thread : Bool) : Prop :=
  (∃ slot, pt.Counted caller thread slot) →
    (pt.proc caller).killed = true ∨ pt.HasChild caller thread

instance (pt : Ptable) (caller : Slot) (thread : Bool) :
    Decidable (pt.Decided caller thread) :=
  inferInstanceAs (Decidable (_ → _))

variable {thread : Bool} {pt : Ptable}

theorem DeadChild.hasChild {caller child : Slot}
    (dead : pt.DeadChild caller thread child) : pt.HasChild caller thread := by
  refine ⟨child, dead.1, ?_⟩
  rw [dead.2]
  decide

theorem HasChild.counted {caller : Slot}
    (has : pt.HasChild caller thread) : ∃ slot, pt.Counted caller thread slot := by
  obtain ⟨child, mine, -⟩ := has
  exact ⟨child, mine.1, fun kind => mine.2.trans kind⟩

/-- What makes a scan one for children of a kind: it picks zombies of the kind,
counts what `Counted` counts, and reaping touches one slot. -/
structure ScansFor (pt : Ptable) (caller : Slot) (thread : Bool) (wanted counts : Proc → Bool)
    (reap : Slot → Ptable × Scan) : Prop where
  picks : ∀ child, wanted (pt.proc child) = true ↔ (pt.proc child).isThread = thread
  counted : ∀ child, (pt.proc child).parent = some caller ∧ counts (pt.proc child) = true ↔
    pt.Counted caller thread child
  reaps : ∀ child, ∃ stack, (reap child).2 = .reaped (pt.proc child).pid stack ∧
    pt.Reaps (reap child).1 child

section Scan

variable {caller : Slot} {wanted counts : Proc → Bool} {reap : Slot → Ptable × Scan}

section
variable (scans : pt.ScansFor caller thread wanted counts reap)
include scans

theorem ScansFor.of_dead (dead : ∃ child, pt.DeadChild caller thread child) :
    ∃ child stack, pt.DeadChild caller thread child ∧
      (pt.scan caller wanted counts reap).2 = .reaped (pt.proc child).pid stack ∧
      pt.Reaps (pt.scan caller wanted counts reap).1 child := by
  obtain ⟨found, ⟨parent, kind⟩, zombie⟩ := dead
  rcases pt.scan_cases caller wanted counts reap with
    ⟨child, parent', zombie', picked, result⟩ | ⟨none, -⟩
  · obtain ⟨stack, pid, reaps⟩ := scans.reaps child
    rw [result]
    exact ⟨child, stack, ⟨⟨parent', (scans.picks child).mp picked⟩, zombie'⟩, pid, reaps⟩
  · have picked := (scans.picks found).mpr kind
    rw [none found parent zombie] at picked
    cases picked

theorem ScansFor.of_none (none : ¬∃ child, pt.DeadChild caller thread child) :
    (pt.scan caller wanted counts reap).2 =
      if (¬∃ slot, pt.Counted caller thread slot) ∨ (pt.proc caller).killed = true then
        Scan.failed
      else .sleeps := by
  have absent : pt.zombieChild caller wanted = Option.none := by
    rw [zombieChild, Table.find_eq_none]
    intro child
    by_contra met
    simp only [Bool.not_eq_false, Bool.and_eq_true, decide_eq_true_eq] at met
    exact none ⟨child, ⟨met.1.1, (scans.picks child).mp met.2⟩, met.1.2⟩
  have same : (∃ slot, (pt.proc slot).parent = some caller ∧ counts (pt.proc slot) = true) ↔
      ∃ slot, pt.Counted caller thread slot :=
    exists_congr scans.counted
  simp only [scan, absent, same]
  split <;> rfl

theorem ScansFor.exact_iff :
    pt.ScanExact caller thread (pt.scan caller wanted counts reap) ↔ pt.Decided caller thread := by
  constructor
  · intro exact' counted
    by_contra unjustified
    have childless : ¬pt.HasChild caller thread := fun has => unjustified (.inr has)
    have none : ¬∃ child, pt.DeadChild caller thread child :=
      fun ⟨child, dead⟩ => childless dead.hasChild
    have fails := (exact'.fails none).mpr (.inr childless)
    rw [scans.of_none none, if_neg] at fails
    · cases fails
    · rintro (uncounted | killed)
      · exact uncounted counted
      · exact unjustified (.inl killed)
  · intro decided
    refine ⟨scans.of_dead, ?_, ?_⟩
    · intro none
      rw [scans.of_none none]
      by_cases killed : (pt.proc caller).killed = true
      · simp [killed]
      · have counts : (∃ slot, pt.Counted caller thread slot) ↔ pt.HasChild caller thread :=
          ⟨fun counted => (decided counted).resolve_left killed, HasChild.counted⟩
        simp [killed, counts]
    · intro sleeps
      by_cases dead : ∃ child, pt.DeadChild caller thread child
      · obtain ⟨child, stack, -, reaped, -⟩ := scans.of_dead dead
        rw [reaped] at sleeps
        cases sleeps
      · rw [scans.of_none dead] at sleeps
        split at sleeps
        · cases sleeps
        next awake =>
          have counted := not_not.mp (mt Or.inl awake)
          obtain ⟨child, mine, used⟩ :=
            (decided counted).resolve_left (mt Or.inr awake)
          exact ⟨child, mine, used, fun zombie => dead ⟨child, mine, zombie⟩⟩

end

end Scan

theorem waitScan_for (pt : Ptable) (caller : Slot) :
    pt.ScansFor caller false (fun entry => !entry.isThread) (fun _ => true) fun child =>
      (((pt.kfree (pt.proc child).kstack).freevm (pt.proc child).pgdir).modify child release,
        .reaped (pt.proc child).pid 0) where
  picks := by simp
  counted := by simp [Counted]
  reaps := fun child => ⟨0, rfl, by simp [release], fun _ other => modify_of_ne other⟩

theorem joinScan_for (pt : Ptable) (caller : Slot) :
    pt.ScansFor caller true (fun entry => entry.isThread) (fun entry => entry.isThread)
      fun child =>
        ((pt.kfree (pt.proc child).kstack).modify child release,
          .reaped (pt.proc child).pid (pt.proc child).bsp) where
  picks := by simp
  counted := by simp [Counted]
  reaps := fun child =>
    ⟨(pt.proc child).bsp, rfl, by simp [release], fun _ other => modify_of_ne other⟩

end Ptable

/-- `wait` sees exactly the caller's child processes, and `join` its threads, in
the tables where a counted slot means that the caller is killed or has a child of
that kind in use. -/
theorem wait_join_exact_iff (pt : Ptable) (caller : Slot) :
    (pt.ScanExact caller false (pt.waitScan caller) ↔ pt.Decided caller false) ∧
    (pt.ScanExact caller true (pt.joinScan caller) ↔ pt.Decided caller true) :=
  ⟨(pt.waitScan_for caller).exact_iff, (pt.joinScan_for caller).exact_iff⟩

namespace Kernel

/-- `initproc` calls `clone`, whose `copyout` succeeds or not. -/
def cloneAttempt (mapped : Bool) : List Action :=
  [.dispatch 0, .spawn 0 (.clone 0 pgsize), .kstack 0 3, .share 0, .copyout 0 mapped]

/-- `wait` sleeps for a thread although the caller has no child process; `join`
sleeps for the slot of a failed `clone` although the caller has no thread. -/
theorem wait_join_sleep_for_leftovers :
    (∃ k, Reachable (fun _ _ => True) k ∧ k.At 0 .user ∧
      ¬k.pt.ScanExact 0 false (k.pt.waitScan 0)) ∧
    (∃ k, Reachable (fun _ _ => True) k ∧ k.At 0 .user ∧
      ¬k.pt.ScanExact 0 true (k.pt.joinScan 0)) := by
  have cloned : ∃ k, Reachable (fun _ _ => True) k ∧ k.At 0 .user ∧ ¬k.pt.Decided 0 false :=
    reachable_exec (cloneAttempt true ++ [.publish 0]) (by decide +kernel)
      (by decide +kernel)
  have failed : ∃ k, Reachable (fun _ _ => True) k ∧ k.At 0 .user ∧ ¬k.pt.Decided 0 true :=
    reachable_exec (cloneAttempt false) (by decide +kernel) (by decide +kernel)
  constructor
  · obtain ⟨k, reachable, running, undecided⟩ := cloned
    exact ⟨k, reachable, running, mt (k.pt.waitScan_for 0).exact_iff.mp undecided⟩
  · obtain ⟨k, reachable, running, undecided⟩ := failed
    exact ⟨k, reachable, running, mt (k.pt.joinScan_for 0).exact_iff.mp undecided⟩

end Kernel

end Xv6
