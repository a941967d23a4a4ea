import Xv6.User.Refinement

/-!
# The order of events in a run

Pids enter a queue, are taken from it and belong to threads that come back from
`park`.  What is recorded about this in the trace of a run is related to the state
the run leads to.
-/

namespace Xv6.User.System

/-! ## Events -/

section
variable (o : Obj)

/-- The pid that a step enters into a queue. -/
def adds : System × Act → Option Int
  | (s, .run self) =>
    if (s.pc self).instr = some (.queueAdd o) then some (s.pid self) else none
  | _ => none

/-- The pid that a step takes from a queue. -/
def removes : System × Act → Option Int
  | (s, .run self) =>
    if (s.pc self).instr = some (.queueRemove o) then some (s.queue o).remove.1 else none
  | _ => none

/-- The pid of the thread that returns from the `park` for an object. -/
def resumes : System × Act → Option Int
  | (s, .run self) =>
    if (s.pc self).waits = some (o, .parked) then some (s.pid self) else none
  | _ => none

def added (trace : List (System × Act)) : List Int := trace.filterMap (adds o)

def removed (trace : List (System × Act)) : List Int := trace.filterMap (removes o)

def resumed (trace : List (System × Act)) : List Int := trace.filterMap (resumes o)

end

variable {s s' start : System} {self thread : Slot} {act : Act} {o : Obj}
  {trace : List (System × Act)} {pid : Int} {answer : Answer} {instr : Instr}

theorem filterMap_snoc {α β : Type} (f : α → Option β) (list : List α) (last : α) :
    (list ++ [last]).filterMap f = list.filterMap f ++ (f last).toList := by
  rw [List.filterMap_append]
  cases found : f last <;> simp [found]

theorem instr_resume_iff {pc : Pc} :
    pc.instr = some .resume ↔ ∃ o, pc.waits = some (o, .parked) := by
  cases pc with
  | lock call place | wait call place => cases place <;> simp [Pc.instr, Pc.waits]
  | unlock call place => cases place <;> simp [Pc.instr, Pc.waits]
  | signal call place | broadcast c place => cases place <;> simp [Pc.instr, Pc.waits]
  | semDecrement n read | semIncrement n read => cases read <;> simp [Pc.instr, Pc.waits]
  | _ => simp [Pc.instr, Pc.waits]

theorem queue_step (inv : Inv s) (taken : Taken s act s') (o : Obj) :
    (removes o (s, act)).toList ++ s'.queue o = s.queue o ++ (adds o (s, act)).toList := by
  cases taken with
  | @run self instr answer after executes here executed =>
    obtain ⟨enabled, isAfter⟩ :=
      execute_abs inv (member_of_executes executes) executes here executed
    have queue : after.queue o = (s.abs.act self (instr.event answer)).queue o :=
      congrFun (congrArg Handoff.State.queue isAfter) o
    change (removes o (s, .run self)).toList ++ after.queue o = _
    rw [queue]
    cases instr with
    | queueAdd o' =>
      by_cases here : o = o'
      · subst here
        simp [removes, adds, executes, Instr.event, Handoff.State.act]
      · simp [removes, adds, executes, Instr.event, Handoff.State.act,
          Function.update_of_ne here, Ne.symm here]
    | queueRemove o' =>
      obtain ⟨rest, cons⟩ := enabled
      by_cases here : o = o'
      · subst here
        rw [abs_queue] at cons
        simp [removes, adds, executes, Instr.event, Handoff.State.act, cons,
          PidQueue.remove]
      · simp [removes, adds, executes, Instr.event, Handoff.State.act,
          Function.update_of_ne here, Ne.symm here]
    | setFlag m value =>
      cases value <;> simp [removes, adds, executes, Instr.event, Handoff.State.act]
    | _ => simp [removes, adds, executes, Instr.event, Handoff.State.act]
  | call | exit | kernel => simp [removes, adds, goto]

theorem fifo_run (isStart : start.Start) (run : Transition.Run step Benign start trace s)
    (o : Obj) : added o trace = removed o trace ++ s.queue o := by
  apply run.invariant
  · simp [added, removed, isStart.queue]
  · intro trace state act next before fifo benign taken
    have queue := queue_step (Inv.run isStart before) (step_taken taken) o
    simp only [added, removed, filterMap_snoc] at fifo ⊢
    rw [fifo, List.append_assoc, ← queue, ← List.append_assoc]

theorem event_resume_iff : instr.event answer = .resume ↔ instr = .resume := by
  cases instr with
  | setFlag m value => cases value <;> simp [Instr.event]
  | _ => simp [Instr.event]

theorem event_dequeue_iff {key : Int} :
    instr.event answer = .dequeue o key ↔ instr = .queueRemove o ∧ answer.pid = key := by
  cases instr with
  | setFlag m value => cases value <;> simp [Instr.event]
  | queueRemove o' =>
    simp only [Instr.event, Handoff.Event.dequeue.injEq, Instr.queueRemove.injEq]
  | _ => simp [Instr.event]

theorem event_enqueue_iff : instr.event answer = .enqueue o ↔ instr = .queueAdd o := by
  cases instr with
  | setFlag m value => cases value <;> simp [Instr.event]
  | _ => simp [Instr.event]

private theorem dequeued_run {after : System} (inv : Inv s)
    (executes : (s.pc self).instr = some instr) (here : s.k.At self .user)
    (executed : s.execute self instr = some (after, answer)) :
    (after.goto self ((s.pc self).next answer)
        ((s.pc self).heldAfter (s.held self))).abs.Dequeued o thread ↔
      s.abs.Dequeued o thread ∧ resumes o (s, .run self) ≠ some (s.pid thread) ∨
        removes o (s, .run self) = some (s.pid thread) ∧
          ∃ stage, (s.pc thread).waits = some (o, stage) := by
  have member := member_of_executes executes
  obtain ⟨enabled, isAfter⟩ := execute_abs inv member executes here executed
  rw [abs_goto _ _ ((execute_frame executed).1 ▸ member) (next_ne_outside answer member),
    isAfter]
  refine (Handoff.dequeued_exec inv.protocol.queued (by simpa using member) enabled
    (view_step _ (inv.disciplined self) executes)).trans (or_congr ?_ (and_congr_left' ?_))
  · refine and_congr_right fun dequeued => not_congr ?_
    obtain ⟨⟨stage, waits⟩, -⟩ := dequeued
    have isMember := inv.protocol.queued.member_of_waits waits
    rw [abs_view, view_waits] at waits
    rw [event_resume_iff]
    constructor
    · rintro ⟨rfl, rfl⟩
      obtain ⟨o', parked⟩ := instr_resume_iff.mp executes
      obtain ⟨rfl, rfl⟩ : o = o' ∧ stage = _ := by simpa [waits] using parked
      simp [resumes, waits]
    · intro resumed
      simp only [resumes, Option.ite_none_right_eq_some, Option.some.injEq] at resumed
      have same : thread = self :=
        inv.protocol.queued.keys isMember (by simpa using member) resumed.2.symm
      have isResume := instr_resume_iff.mpr ⟨o, resumed.1⟩
      rw [executes, Option.some.injEq] at isResume
      exact ⟨isResume, same⟩
  · rw [event_dequeue_iff, abs_key]
    simp only [removes, executes, Option.some.injEq, Option.ite_none_right_eq_some]
    refine and_congr_right ?_
    rintro rfl
    simp only [execute, Option.some.injEq, Prod.mk.injEq] at executed
    rw [← executed.2]

theorem member_of_waits {o : Obj} {stage : Handoff.Stage}
    (waits : (s.pc thread).waits = some (o, stage)) : s.pc thread ≠ .outside := by
  intro outside
  rw [outside] at waits
  cases waits

private theorem dequeued_same (samePc : s'.pc thread = s.pc thread)
    (pid : s'.pc thread ≠ .outside → s'.pid thread = s.pid thread)
    (queue : s'.queue o = s.queue o) : s'.abs.Dequeued o thread ↔ s.abs.Dequeued o thread := by
  simp only [Handoff.State.Dequeued, abs_view, abs_key, abs_queue, view_waits, queue, samePc]
  refine and_congr_right fun waiting => ?_
  obtain ⟨stage, waits⟩ := waiting
  rw [pid (samePc ▸ member_of_waits waits)]

theorem dequeued_step (inv : Inv s) (benign : s.Benign act) (taken : Taken s act s') :
    s'.abs.Dequeued o thread ↔
      s.abs.Dequeued o thread ∧ resumes o (s, act) ≠ some (s.pid thread) ∨
        removes o (s, act) = some (s.pid thread) ∧
          ∃ stage, (s.pc thread).waits = some (o, stage) := by
  have pid : s'.pc thread ≠ .outside → s'.pid thread = s.pid thread :=
    taken.pid inv (inv_step inv benign taken)
  cases taken with
  | run executes here executed => exact dequeued_run inv executes here executed
  | call _ idle needs =>
    rw [abs_call idle needs]
    simp [resumes, removes]
  | @exit self k member taken =>
    refine Iff.trans ?_ (by simp [resumes, removes] : s.abs.Dequeued o thread ↔ _)
    by_cases same : thread = self
    · subst same
      have idle : (s.pc thread).waits = none := benign.2.1
      have outside : Pc.outside.waits = none := rfl
      simp [Handoff.State.Dequeued, idle, outside]
    · exact dequeued_same (goto_pc_of_ne same _ _) pid rfl
  | kernel _ taken =>
    refine Iff.trans ?_ (by simp [resumes, removes] : s.abs.Dequeued o thread ↔ _)
    exact dequeued_same rfl pid rfl

/-! ## Waiters -/

/-- A thread has queued its pid for an object and is not back from `park` yet. -/
def WaitsOn (s : System) (self : Slot) (o : Obj) : Prop :=
  ∃ stage, (s.pc self).waits = some (o, stage)

instance (s : System) (self : Slot) (o : Obj) : Decidable (s.WaitsOn self o) :=
  decidable_of_iff ((s.pc self).waits.map Prod.fst = some o) (by simp [WaitsOn])

/-- A thread waits for an object and its pid has been taken from the queue. -/
def Dequeued (s : System) (self : Slot) (o : Obj) : Prop :=
  s.WaitsOn self o ∧ s.pid self ∉ s.queue o

instance (s : System) (self : Slot) (o : Obj) : Decidable (s.Dequeued self o) :=
  inferInstanceAs (Decidable (_ ∧ _))

theorem dequeued_abs : s.abs.Dequeued o thread ↔ s.Dequeued thread o := Iff.rfl

theorem waitsOn_step (inv : Inv s) (taken : Taken s act s') (waits : s'.WaitsOn self o) :
    act = .run self ∧ (s.pc self).instr = some (.queueAdd o) ∨ s.WaitsOn self o := by
  obtain ⟨stage, waits⟩ := waits
  by_cases isRun : act = .run self
  · subst isRun
    cases taken with
    | @run _ instr answer _ executes =>
      rw [goto_pc_self, ← view_waits _ ((s.pc self).heldAfter (s.held self))] at waits
      have effect := view_step answer (inv.disciplined self) executes
      rcases effect.waits_from waits with enqueues | waited
      · exact .inl ⟨rfl, event_enqueue_iff.mp enqueues ▸ executes⟩
      · exact .inr waited
  · refine .inr ⟨stage, ?_⟩
    rwa [taken.pc_of_ne isRun ?_ ?_] at waits
    · rintro op rfl
      cases taken with
      | call =>
        rw [goto_pc_self] at waits
        cases op <;> cases waits
    · rintro rfl
      cases taken with
      | exit =>
        rw [goto_pc_self] at waits
        cases waits

/-- A thread that waits for an object has been taken from the queue and unparked: its
next `park` returns at once, or it is in `park` and ready to run. -/
def Unparked (s : System) (self : Slot) (o : Obj) : Prop :=
  s.Dequeued self o ∧
    ((s.pc self).waits = some (o, .armed) ∧ (s.k.pt.proc self).immediateUnpark = true ∨
      (s.pc self).waits = some (o, .parked) ∧ (s.k.pt.proc self).isParked = false ∧
        ((s.k.pt.proc self).state = .runnable ∨ (s.k.pt.proc self).state = .running))

theorem Dequeued.unparked (inv : Inv s) (dequeued : s.Dequeued thread o) :
    (∃ other, (s.pc other).carries = some (o, s.pid thread)) ∨ s.Unparked thread o := by
  by_cases carried : ∃ other, (s.pc other).carries = some (o, s.pid thread)
  · exact .inl carried
  · obtain ⟨⟨stage, waits⟩, unlisted⟩ := dequeued
    obtain ⟨pending, iff, flags⟩ := inv.protocol.queued.waiting waits
    have settled : ¬s.abs.Pending o thread := fun isPending =>
      isPending.elim unlisted carried
    obtain rfl : pending = false := by simpa [settled] using iff
    refine .inr ⟨⟨⟨stage, waits⟩, unlisted⟩, ?_⟩
    cases stage with
    | listed => exact absurd (inv.protocol.queued.listed waits) unlisted
    | armed => exact .inl ⟨waits, congrArg Handoff.Flags.immediateUnpark flags⟩
    | parked =>
      have member := member_of_waits waits
      have awake : (s.k.pt.proc thread).isParked = false :=
        congrArg Handoff.Flags.isParked flags
      have notIdle : s.pc thread ≠ .idle := by
        intro idle
        rw [idle] at waits
        cases waits
      have notAsleep : (s.k.pt.proc thread).state ≠ .sleeping := by
        intro asleep
        simp [(inv.asleep thread member notIdle).2 asleep] at awake
      refine .inr ⟨waits, awake, ?_⟩
      rcases inv.live thread member with asleep | ready
      · exact absurd asleep notAsleep
      · exact ready

/-! ## Queues and their spinlocks -/

theorem adds_some (adds : adds o (s, act) = some pid) :
    ∃ self, act = .run self ∧ (s.pc self).instr = some (.queueAdd o) ∧ pid = s.pid self := by
  cases act with
  | run self =>
    simp only [System.adds, Option.ite_none_right_eq_some, Option.some.injEq] at adds
    exact ⟨self, rfl, adds.1, adds.2.symm⟩
  | _ => cases adds

theorem removes_some (removes : removes o (s, act) = some pid) :
    ∃ self, act = .run self ∧ (s.pc self).instr = some (.queueRemove o) ∧
      pid = (s.queue o).remove.1 := by
  cases act with
  | run self =>
    simp only [System.removes, Option.ite_none_right_eq_some, Option.some.injEq] at removes
    exact ⟨self, rfl, removes.1, removes.2.symm⟩
  | _ => cases removes

theorem resumes_some (resumes : resumes o (s, act) = some pid) :
    ∃ self, act = .run self ∧ (s.pc self).waits = some (o, .parked) ∧ pid = s.pid self := by
  cases act with
  | run self =>
    simp only [System.resumes, Option.ite_none_right_eq_some, Option.some.injEq] at resumes
    exact ⟨self, rfl, resumes.1, resumes.2.symm⟩
  | _ => cases resumes

theorem removes_effect (inv : Inv s) (executes : (s.pc self).instr = some (.queueRemove o)) :
    ∃ pid rest, s.queue o = pid :: rest ∧
      Handoff.Effect (.dequeue o pid) (s.abs.view self)
        (view ((s.pc self).next { pid := pid }) ((s.pc self).heldAfter (s.held self))) := by
  have effect : ∀ pid, Handoff.Effect (.dequeue o pid) (s.abs.view self)
      (view ((s.pc self).next { pid := pid }) ((s.pc self).heldAfter (s.held self))) :=
    fun pid => view_step { pid := pid } (inv.disciplined self) executes
  have nonempty : s.queue o ≠ [] := inv.protocol.guarded.known (effect 0).dequeues.2.1
  cases queue : s.queue o with
  | nil => exact absurd queue nonempty
  | cons pid rest => exact ⟨pid, rest, rfl, effect pid⟩

theorem untouched (inv : Inv s) (inside : (s.pc self).spinlock = some o)
    (other : act ≠ .run self) : adds o (s, act) = none ∧ removes o (s, act) = none := by
  constructor
  · cases adds : adds o (s, act) with
    | none => rfl
    | some pid =>
      obtain ⟨actor, rfl, executes, -⟩ := adds_some adds
      have effect : Handoff.Effect (.enqueue o) _ _ :=
        view_step {} (inv.disciplined actor) executes
      exact absurd (inv.protocol.guarded.exclusive effect.enqueues inside ▸ rfl) other
  · cases removes : removes o (s, act) with
    | none => rfl
    | some pid =>
      obtain ⟨actor, rfl, executes, -⟩ := removes_some removes
      obtain ⟨_, _, -, effect⟩ := removes_effect inv executes
      exact absurd (inv.protocol.guarded.exclusive effect.dequeues.1 inside ▸ rfl) other

theorem removed_waiter (inv : Inv s) (removes : removes o (s, act) = some pid) :
    ∃ waiter stage, s.pid waiter = pid ∧ (s.pc waiter).waits = some (o, stage) := by
  obtain ⟨self, rfl, executes, rfl⟩ := removes_some removes
  obtain ⟨pid, rest, queue, -⟩ := removes_effect inv executes
  rw [queue]
  have listed : pid ∈ s.abs.queue o := by simp [queue]
  exact inv.protocol.queued.waiter listed

theorem resumed_dequeued (inv : Inv s) (taken : Taken s act s')
    (resumes : resumes o (s, act) = some pid) :
    ∃ self, act = .run self ∧ pid = s.pid self ∧ s.abs.Dequeued o self := by
  obtain ⟨self, rfl, waits, rfl⟩ := resumes_some resumes
  cases taken with
  | run executes here executed =>
    refine ⟨self, rfl, rfl, ⟨_, waits⟩, fun listed => ?_⟩
    have awake := (inv.parking self (member_of_waits waits)).awake (by simp [here.1])
    exact inv.protocol.queued.resumed waits awake (.inl listed)

/-! ## Every removal leads to one return from `park` -/

/-- The return of the thread with this pid from the `park` for an object is due. -/
def Due (s : System) (o : Obj) (pid : Int) : Prop :=
  ∃ self, s.pid self = pid ∧ s.Dequeued self o

theorem due_step (inv : Inv s) (benign : s.Benign act) (taken : Taken s act s') :
    s'.Due o pid ↔
      s.Due o pid ∧ resumes o (s, act) ≠ some pid ∨ removes o (s, act) = some pid := by
  have inv' := inv_step inv benign taken
  have samePid : ∀ {thread}, s'.Dequeued thread o → s'.pid thread = s.pid thread := by
    rintro thread ⟨⟨stage, waits⟩, -⟩
    exact taken.pid inv inv' (member_of_waits waits)
  have dequeued : ∀ {thread}, s'.Dequeued thread o ↔ _ := dequeued_step inv benign taken
  constructor
  · rintro ⟨thread, rfl, isDequeued⟩
    rw [samePid isDequeued]
    rcases dequeued.mp isDequeued with ⟨was, notResumed⟩ | ⟨removed, -⟩
    · exact .inl ⟨⟨thread, rfl, was⟩, notResumed⟩
    · exact .inr removed
  · rintro (⟨⟨thread, rfl, was⟩, notResumed⟩ | removed)
    · have isDequeued := dequeued.mpr (.inl ⟨was, notResumed⟩)
      exact ⟨thread, samePid isDequeued, isDequeued⟩
    · obtain ⟨waiter, stage, rfl, waits⟩ := removed_waiter inv removed
      have isDequeued := dequeued.mpr (.inr ⟨removed, stage, waits⟩)
      exact ⟨waiter, samePid isDequeued, isDequeued⟩

theorem not_due_of_removes (inv : Inv s) (removes : removes o (s, act) = some pid) :
    ¬s.Due o pid := by
  rintro ⟨thread, rfl, -, unlisted⟩
  obtain ⟨self, rfl, executes, isHead⟩ := removes_some removes
  obtain ⟨pid, rest, queue, -⟩ := removes_effect inv executes
  rw [queue] at isHead unlisted
  exact unlisted (isHead ▸ List.mem_cons_self)

theorem removes_of_resumes (resumes : resumes o (s, act) = some pid) :
    removes o (s, act) = none := by
  obtain ⟨self, rfl, waits, -⟩ := resumes_some resumes
  have executes := instr_resume_iff.mpr ⟨o, waits⟩
  simp [removes, executes]

theorem balanced_run (isStart : start.Start)
    (run : Transition.Run step Benign start trace s) (o : Obj) (pid : Int) :
    s.Due o pid ∧ (removed o trace).count pid = (resumed o trace).count pid + 1 ∨
      ¬s.Due o pid ∧ (removed o trace).count pid = (resumed o trace).count pid := by
  apply run.invariant
  · refine .inr ⟨?_, rfl⟩
    rintro ⟨thread, -, ⟨stage, waits⟩, -⟩
    rcases isStart.idle thread with isAt | isAt <;> simp [isAt, Pc.waits] at waits
  · intro trace state act next before balanced benign taken
    have inv := Inv.run isStart before
    have effect := step_taken taken
    have due : next.Due o pid ↔ _ := due_step inv benign effect
    simp only [removed, resumed, filterMap_snoc, List.count_append] at balanced ⊢
    by_cases isRemoved : removes o (state, act) = some pid
    · have notDue := not_due_of_removes inv isRemoved
      have noResume : resumes o (state, act) = none := by
        cases isResumed : resumes o (state, act) with
        | none => rfl
        | some pid => simp [removes_of_resumes isResumed] at isRemoved
      simpa [due, isRemoved, noResume, notDue] using balanced
    · have noRemove : (removes o (state, act)).toList.count pid = 0 := by
        rw [List.count_eq_zero]
        exact fun member => isRemoved (Option.mem_toList.mp member)
      by_cases isResumed : resumes o (state, act) = some pid
      · obtain ⟨self, rfl, rfl, dequeued⟩ := resumed_dequeued inv effect isResumed
        have wasDue : state.Due o (state.pid self) := ⟨self, rfl, dequeued⟩
        simpa [due, isRemoved, isResumed, wasDue, noRemove] using balanced
      · have noResume : (resumes o (state, act)).toList.count pid = 0 := by
          rw [List.count_eq_zero]
          exact fun member => isResumed (Option.mem_toList.mp member)
        simpa [due, isRemoved, isResumed, noRemove, noResume] using balanced

/-! ## Hand-over of a mutex -/

theorem handover_run (isStart : start.Start)
    (run : Transition.Run step Benign start trace s) (m : MutexId) :
    (∃ heir, s.abs.Dequeued (.mutex m) heir ∧
      removed (.mutex m) trace = resumed (.mutex m) trace ++ [s.pid heir]) ∨
    (∀ thread, ¬s.abs.Dequeued (.mutex m) thread) ∧
      removed (.mutex m) trace = resumed (.mutex m) trace := by
  apply run.invariant
  · refine .inr ⟨fun thread dequeued => ?_, rfl⟩
    exact (isStart.inv.protocol.token m).free (isStart.flag m) (.heir thread) dequeued
  · intro trace state act next before order benign taken
    have inv := Inv.run isStart before
    have effect := step_taken taken
    have inv' := inv_step inv benign effect
    have heirs : ∀ thread, next.abs.Dequeued (.mutex m) thread ↔ _ :=
      fun thread => dequeued_step inv benign effect
    have samePid : ∀ {thread}, next.abs.Dequeued (.mutex m) thread →
        next.pid thread = state.pid thread := by
      rintro thread ⟨⟨stage, waits⟩, -⟩
      exact effect.pid inv inv' (member_of_waits waits)
    have token := inv.protocol.token m
    simp only [removed, resumed, filterMap_snoc] at order ⊢
    cases removes : removes (.mutex m) (state, act) with
    | some pid =>
      obtain ⟨waiter, stage, rfl, waits⟩ := removed_waiter inv removes
      obtain ⟨self, rfl, executes, -⟩ := removes_some removes
      have dequeued := (heirs waiter).mpr (.inr ⟨removes, stage, waits⟩)
      have unclaimed : ∀ thread, ¬state.abs.Dequeued (.mutex m) thread := by
        intro thread
        obtain ⟨pid, rest, -, handOver⟩ := removes_effect inv executes
        exact token.no_heir handOver.handsOver.1
      have noResume : resumes (.mutex m) (state, .run self) = none := by
        cases resumes : resumes (.mutex m) (state, .run self) with
        | none => rfl
        | some pid =>
          obtain ⟨thread, -, -, dequeued⟩ := resumed_dequeued inv effect resumes
          exact absurd dequeued (unclaimed thread)
      refine .inl ⟨waiter, dequeued, ?_⟩
      rcases order with ⟨heir, isHeir, -⟩ | ⟨-, order⟩
      · exact absurd isHeir (unclaimed heir)
      · simp [noResume, order, samePid dequeued]
    | none =>
      cases resumes : resumes (.mutex m) (state, act) with
      | some pid =>
        obtain ⟨self, rfl, rfl, dequeued⟩ := resumed_dequeued inv effect resumes
        refine .inr ⟨fun thread isHeir => ?_, ?_⟩
        · rcases (heirs thread).mp isHeir with ⟨before, other⟩ | ⟨removed, -⟩
          · exact other (token.heir_unique dequeued before ▸ resumes)
          · simp [removes] at removed
        · rcases order with ⟨heir, isHeir, order⟩ | ⟨unclaimed, -⟩
          · simp [order, token.heir_unique isHeir dequeued]
          · exact absurd dequeued (unclaimed self)
      | none =>
        have same : ∀ thread, next.abs.Dequeued (.mutex m) thread ↔
            state.abs.Dequeued (.mutex m) thread := by
          intro thread
          rw [heirs thread, removes, resumes]
          simp
        rcases order with ⟨heir, isHeir, order⟩ | ⟨unclaimed, order⟩
        · have still := (same heir).mpr isHeir
          exact .inl ⟨heir, still, by simp [order, samePid still]⟩
        · exact .inr ⟨fun thread => mt (same thread).mp (unclaimed thread), by simp [order]⟩

end Xv6.User.System
