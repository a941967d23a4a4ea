import Xv6.Kernel.Invariant

/-!
# The calls that name a process by its pid

`unpark` and `kill` search the table for a pid and look at nothing else.  The pid of a
slot that nobody uses is 0 after a reap, and that of the last attempt to use it where
`allocproc`, `fork` or `clone` has failed; and the search of `unpark` ends behind the
table if no slot has the pid.
-/

namespace Xv6

namespace Ptable

variable {pt : Ptable} {pid : Int} {slot : Slot}

/-- The slot at which a search for a pid stops. -/
def lookup (pt : Ptable) (pid : Int) : Option Slot :=
  Table.find fun slot => decide ((pt.proc slot).pid = pid)

theorem lookup_pid (found : pt.lookup pid = some slot) : (pt.proc slot).pid = pid :=
  of_decide_eq_true (Table.find_some found)

theorem lookup_eq_none : pt.lookup pid = none ↔ ∀ slot, (pt.proc slot).pid ≠ pid := by
  simp [lookup, Table.find_eq_none]

theorem exists_lookup (has : (pt.proc slot).pid = pid) : ∃ first, pt.lookup pid = some first := by
  cases found : pt.lookup pid with
  | none => exact absurd has (lookup_eq_none.mp found slot)
  | some first => exact ⟨first, rfl⟩

/-! ## Unparking -/

/-- The process has announced a `park`, and no `unpark` has come since. -/
def Announced (entry : Proc) : Prop :=
  entry.setPark = true ∧ entry.isParked = false ∧ entry.immediateUnpark = false

instance (entry : Proc) : Decidable (Announced entry) :=
  inferInstanceAs (Decidable (_ ∧ _ ∧ _))

/-- What `unpark` should do: it does not look at the memory behind the table or write to
it, it changes only a process that has the pid, and it returns -1 if it has changed
nothing and else 0. -/
structure UnparkReports (pt : Ptable) (pid : Int) : Prop where
  inside : ∀ past, ({ pt with past := past } : Ptable).unpark pid =
    ({ (pt.unpark pid).1 with past := past }, (pt.unpark pid).2)
  only : ∀ slot, (pt.unpark pid).1.proc slot ≠ pt.proc slot →
    (pt.proc slot).state ≠ .unused ∧ (pt.proc slot).pid = pid
  failed : (pt.unpark pid).2 = -1 ↔ (pt.unpark pid).1 = pt
  result : (pt.unpark pid).2 = -1 ∨ (pt.unpark pid).2 = 0

theorem unpark1_cases (pt : Ptable) (pid : Int) :
    pt.unpark1 pid = (pt, -1) ∨
      ∃ slot, (pt.proc slot).state = .sleeping ∧ (pt.proc slot).pid = pid ∧
        pt.unpark1 pid =
          (pt.modify slot fun entry => { entry with state := .runnable, isParked := false },
            pid) := by
  unfold unpark1
  split
  next slot found =>
    have met := of_decide_eq_true (Table.find_some found)
    exact .inr ⟨slot, met.1, met.2.2, rfl⟩
  · exact .inl rfl

theorem unpark1_past (past : Proc) : ({ pt with past := past } : Ptable).unpark1 pid =
      ({ (pt.unpark1 pid).1 with past := past }, (pt.unpark1 pid).2) := by
  unfold unpark1
  dsimp only
  generalize Table.find _ = found
  cases found with
  | none => rfl
  | some slot => rfl

theorem unpark_found (found : pt.lookup pid = some slot) :
    pt.unpark pid =
      if (pt.proc slot).setPark = false ∧ (pt.proc slot).isParked = false then (pt, -1)
      else if (pt.proc slot).setPark = true ∧ (pt.proc slot).isParked = false then
        (pt.modify slot fun entry => { entry with immediateUnpark := true }, -1)
      else ((pt.unpark1 pid).1, if (pt.unpark1 pid).2 ≠ -1 then 0 else -1) := by
  unfold lookup at found
  simp only [unpark, found]

theorem modify_noted (noted : (pt.proc slot).immediateUnpark = true) :
    (pt.modify slot fun entry => { entry with immediateUnpark := true }) = pt := by
  have same : ∀ entry : Proc, entry.immediateUnpark = true →
      { entry with immediateUnpark := true } = entry := by
    rintro ⟨⟩ rfl
    rfl
  have unchanged : (pt.modify slot fun entry => { entry with immediateUnpark := true }) =
      pt.modify slot id := modify_congr (same _ noted)
  have kept : Table.set pt.proc slot id = pt.proc := by
    funext other
    simp [Table.set]
  rw [unchanged, modify, kept]

theorem not_inside (absent : pt.lookup pid = none) : ¬UnparkReports pt pid := by
  intro reports
  have written := congrArg (fun outcome => outcome.1.past.immediateUnpark)
    (reports.inside { setPark := true })
  unfold lookup at absent
  simp [unpark, absent] at written

theorem unpark_inside (found : pt.lookup pid = some slot) (past : Proc) :
    ({ pt with past := past } : Ptable).unpark pid =
      ({ (pt.unpark pid).1 with past := past }, (pt.unpark pid).2) := by
  rw [unpark_found found,
    unpark_found (show ({ pt with past := past } : Ptable).lookup pid = some slot from found),
    unpark1_past]
  dsimp only
  split_ifs <;> rfl

theorem unpark_quiet (pids : ∀ slot, 0 ≤ (pt.proc slot).pid) (found : pt.lookup pid = some slot)
    (quiet : ¬Announced (pt.proc slot)) :
    pt.unpark pid = (pt, -1) ∨
      ∃ other, (pt.proc other).state = .sleeping ∧ (pt.proc other).pid = pid ∧
        pt.unpark pid = (pt.modify other fun entry =>
          { entry with state := .runnable, isParked := false }, 0) := by
  rw [unpark_found found]
  by_cases idle : (pt.proc slot).setPark = false ∧ (pt.proc slot).isParked = false
  · simp [idle]
  rw [if_neg idle]
  by_cases announced : (pt.proc slot).setPark = true ∧ (pt.proc slot).isParked = false
  · rw [if_pos announced, modify_noted (by simpa [Announced, announced] using quiet)]
    exact .inl rfl
  rw [if_neg announced]
  rcases unpark1_cases pt pid with same | ⟨other, asleep, isPid, woken⟩
  · simp [same]
  · have := pids other
    exact .inr ⟨other, asleep, isPid, by rw [woken, if_pos (by dsimp only; omega)]⟩

theorem unparkReports_iff (pids : ∀ slot, 0 ≤ (pt.proc slot).pid) :
    UnparkReports pt pid ↔ ∃ slot, pt.lookup pid = some slot ∧ ¬Announced (pt.proc slot) := by
  cases found : pt.lookup pid with
  | none => simp [not_inside found]
  | some slot =>
    simp only [Option.some.injEq, exists_eq_left']
    have outcome := unpark_found found
    constructor
    · rintro reports ⟨announced, awake, unnoted⟩
      have noted : (pt.unpark pid).2 = -1 := by simp [outcome, announced, awake]
      have same := congrArg (fun table => (table.proc slot).immediateUnpark)
        (reports.failed.mp noted)
      simp [outcome, announced, awake, unnoted] at same
    · intro quiet
      have ways := unpark_quiet pids found quiet
      refine ⟨unpark_inside found, ?_, ?_, ?_⟩
      all_goals rcases ways with same | ⟨other, asleep, isPid, woken⟩
      · simp [same]
      · intro changed differs
        rw [woken] at differs
        by_cases here : changed = other
        · subst here
          exact ⟨by simp [asleep], isPid⟩
        · exact absurd (modify_of_ne here) differs
      · simp [same]
      · rw [woken]
        refine iff_of_false (by simp) fun same => ?_
        have := congrArg (fun table => (table.proc other).state) same
        simp [asleep] at this
      · simp [same]
      · simp [woken]

/-! ## Killing -/

/-- What `kill` should do: it returns 0 exactly if a process has the pid, and then changes
its slot and no other; a slot that nobody uses it never changes. -/
structure KillsLive (pt : Ptable) (pid : Int) : Prop where
  result : (pt.kill pid).2 = 0 ↔ ∃ slot, (pt.proc slot).state ≠ .unused ∧ (pt.proc slot).pid = pid
  only : (pt.kill pid).2 = 0 → ∃ slot, (pt.proc slot).state ≠ .unused ∧ (pt.proc slot).pid = pid ∧
    (∀ other, other ≠ slot → (pt.kill pid).1.proc other = pt.proc other)
  unused : ∀ slot, (pt.proc slot).state = .unused → (pt.kill pid).1.proc slot = pt.proc slot

theorem kill_none (absent : pt.lookup pid = none) : pt.kill pid = (pt, -1) := by
  unfold lookup at absent
  simp only [kill, absent]

theorem kill_some (found : pt.lookup pid = some slot) :
    (pt.kill pid).2 = 0 ∧
      ∀ other, other ≠ slot → (pt.kill pid).1.proc other = pt.proc other := by
  unfold lookup at found
  simp only [kill, found]
  exact ⟨trivial, fun _ different => modify_of_ne different⟩

theorem killsLive_iff (unique : ∀ slot other, (pt.proc slot).pid = (pt.proc other).pid →
      (pt.proc slot).pid ≠ 0 → slot = other)
    (used : ∀ slot, (pt.proc slot).state ≠ .unused → (pt.proc slot).pid ≠ 0) :
    KillsLive pt pid ↔ ∀ slot, (pt.proc slot).state = .unused → (pt.proc slot).pid ≠ pid := by
  constructor
  · intro kills slot free isPid
    obtain ⟨first, found⟩ := exists_lookup isPid
    obtain ⟨other, inUse, isOther⟩ := kills.result.mp (kill_some found).1
    have same := unique other slot (isOther.trans isPid.symm) (used other inUse)
    exact inUse (same ▸ free)
  · intro stale
    cases found : pt.lookup pid with
    | none =>
      have absent := lookup_eq_none.mp found
      refine ⟨iff_of_false (by simp [kill_none found]) ?_, ?_, by simp [kill_none found]⟩
      · rintro ⟨slot, -, isPid⟩
        exact absent slot isPid
      · simp [kill_none found]
    | some slot =>
      have isPid := lookup_pid found
      have inUse : (pt.proc slot).state ≠ .unused := fun free => stale slot free isPid
      obtain ⟨zero, others⟩ := kill_some found
      refine ⟨iff_of_true zero ⟨slot, inUse, isPid⟩, fun _ => ⟨slot, inUse, isPid, others⟩, ?_⟩
      intro other free
      exact others other fun same => inUse (same ▸ free)

end Ptable

namespace Kernel

/-! ## In the running system -/

/-- In every reachable state, `unpark` stays inside the table and reports what it did
exactly if some slot has the pid and the first such slot has not announced a `park` that
no `unpark` has met yet. -/
theorem unpark_reports_iff {k : Kernel} (reachable : Reachable (fun _ _ => True) k) (pid : Int) :
    Ptable.UnparkReports k.pt pid ↔
      ∃ slot, Table.find (fun slot => decide ((k.pt.proc slot).pid = pid)) = some slot ∧
        ¬Ptable.Announced (k.pt.proc slot) :=
  Ptable.unparkReports_iff fun slot => (reachable.wf.pidBound slot).1

/-- The first process after boot has announced nothing. -/
theorem unpark_reports_first :
    ∃ k, Reachable (fun _ _ => True) k ∧ Ptable.UnparkReports k.pt 1 := by
  obtain ⟨k, reachable, found⟩ :
      ∃ k, Reachable (fun _ _ => True) k ∧
        (∃ slot, Table.find (fun slot => decide ((k.pt.proc slot).pid = 1)) = some slot ∧
          ¬Ptable.Announced (k.pt.proc slot)) :=
    reachable_exec [.dispatch 0] (by simp) (by decide +kernel)
  exact ⟨k, reachable, (unpark_reports_iff reachable 1).mpr found⟩

/-- The first process calls `setpark`.  An `unpark` of it is recorded and returns -1, and
one of a pid that no slot has looks behind the table. -/
theorem unpark_misreports :
    ∃ k, Reachable (fun _ _ => True) k ∧
      (k.pt.unpark 1).2 = -1 ∧ ((k.pt.unpark 1).1.proc 0).immediateUnpark = true ∧
      (k.pt.proc 0).immediateUnpark = false ∧ ¬Ptable.UnparkReports k.pt 1 ∧
      ¬Ptable.UnparkReports k.pt 7 := by
  obtain ⟨k, reachable, result, noted, unnoted, absent⟩ :
      ∃ k, Reachable (fun _ _ => True) k ∧ (k.pt.unpark 1).2 = -1 ∧
        ((k.pt.unpark 1).1.proc 0).immediateUnpark = true ∧
        (k.pt.proc 0).immediateUnpark = false ∧ k.pt.lookup 7 = none :=
    reachable_exec [.dispatch 0, .setpark 0] (by simp) (by decide +kernel)
  refine ⟨k, reachable, result, noted, unnoted, fun reports => ?_, Ptable.not_inside absent⟩
  rw [reports.failed.mp result, unnoted] at noted
  exact Bool.false_ne_true noted

/-- In every reachable state, `kill` affects processes only exactly if no slot without a
process has the pid. -/
theorem kill_live_iff {k : Kernel} (reachable : Reachable (fun _ _ => True) k) (pid : Int) :
    Ptable.KillsLive k.pt pid ↔
      ∀ slot, (k.pt.proc slot).state = .unused → (k.pt.proc slot).pid ≠ pid :=
  Ptable.killsLive_iff reachable.wf.pidUnique reachable.wf.pidUsed

theorem kill_live_first : ∃ k, Reachable (fun _ _ => True) k ∧ Ptable.KillsLive k.pt 1 := by
  obtain ⟨k, reachable, fresh⟩ :
      ∃ k, Reachable (fun _ _ => True) k ∧
        ∀ slot, (k.pt.proc slot).state = .unused → (k.pt.proc slot).pid ≠ 1 :=
    reachable_exec [.dispatch 0] (by simp) (by decide +kernel)
  exact ⟨k, reachable, (kill_live_iff reachable 1).mpr fresh⟩

/-- The steps of `fork`, `clone`, `exit`, `wait`, `join` and `kill`, and of the
scheduler. -/
def ProcessCalls (_ : Kernel) : Action → Prop
  | .dispatch _ | .yield _ | .spawn _ _ | .kstack _ _ | .copyuvm _ _ | .share _ | .copyout _ _
  | .publish _ | .exit _ | .wait _ | .join _ | .kill _ _ => True
  | _ => False

instance (k : Kernel) (action : Action) : Decidable (ProcessCalls k action) := by
  apply Action.casesOn (motive := fun action => Decidable (ProcessCalls k action)) action <;>
    intros <;> unfold ProcessCalls <;> infer_instance

/-- A `fork` fails for want of a kernel stack and leaves its pid behind.  A `kill` of that
pid returns 0 and marks the slot, and the next process in it is born killed. -/
theorem kill_stale_pid :
    (∃ k, Reachable ProcessCalls k ∧ (k.pt.proc 1).state = .unused ∧
      (k.pt.kill 2).2 = 0 ∧ ((k.pt.kill 2).1.proc 1).killed = true ∧
      ¬Ptable.KillsLive k.pt 2) ∧
    ∃ k, Reachable ProcessCalls k ∧ (k.pt.proc 1).state = .runnable ∧
      (k.pt.proc 1).pid = 3 ∧ (k.pt.proc 1).killed = true := by
  constructor
  · obtain ⟨k, reachable, free, isPid, result, marked, unmarked⟩ :
        ∃ k, Reachable ProcessCalls k ∧ (k.pt.proc 1).state = .unused ∧ (k.pt.proc 1).pid = 2 ∧
          (k.pt.kill 2).2 = 0 ∧ ((k.pt.kill 2).1.proc 1).killed = true ∧
          (k.pt.proc 1).killed = false :=
      reachable_exec [.dispatch 0, .spawn 0 .fork, .kstack 0 0] (by decide +kernel)
        (by decide +kernel)
    refine ⟨k, reachable, free, result, marked, fun kills => ?_⟩
    rw [kills.unused 1 free, unmarked] at marked
    exact Bool.false_ne_true marked
  · exact reachable_exec [.dispatch 0, .spawn 0 .fork, .kstack 0 0, .kill 0 2, .spawn 0 .fork,
      .kstack 0 3, .copyuvm 0 4, .publish 0] (by decide +kernel) (by decide +kernel)

end Kernel

end Xv6
