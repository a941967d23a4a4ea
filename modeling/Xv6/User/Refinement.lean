import Xv6.Lib.HandoffSafety
import Xv6.User.Protocol
import Xv6.User.System

/-!
# The threads and the kernel refine the hand-over protocol

The state of the protocol is read off the state of the system: the views off the
program counters, the park flags off the process table.  Every step of the system
is then some steps of the protocol, provided that nobody else unparks a thread and
a thread is killed, or exits, only while it takes no part in the protocol.
-/

namespace Xv6

open Function

/-! ## Park flags in the process table -/

/-- The park flags of a process. -/
def Proc.parkFlags (entry : Proc) : Handoff.Flags where
  isParked := entry.isParked
  setPark := entry.setPark
  immediateUnpark := entry.immediateUnpark

namespace Kernel

variable {k k' : Kernel} {self slot : Slot} {action : Action} {entry : Proc} {pc : KernelPc}

theorem parkFlags_move (move : Move k k' slot action entry pc)
    (setpark : action ≠ .setpark slot) (park : action ≠ .park slot)
    (unpark : ∀ self, action ≠ .unpark self (k.pt.proc slot).pid) :
    entry.parkFlags = (k.pt.proc slot).parkFlags := by
  cases move with
  | arms => exact absurd rfl setpark
  | parks | skipsPark => exact absurd rfl park
  | @noted self _ isPid | @unparked self _ isPid => exact absurd (by rw [isPid]) (unpark self)
  | _ => rfl

theorem killed_move (move : Move k k' slot action entry pc) (killed : entry.killed = true) :
    (k.pt.proc slot).killed = true ∨ ∃ self, action = .kill self (k.pt.proc slot).pid := by
  cases move with
  | @killed self _ found =>
    exact .inr ⟨self, by rw [of_decide_eq_true (Table.find_some found)]⟩
  | reaped => cases killed
  | _ => exact .inl killed

theorem setpark_effect (taken : k.step (.setpark self) = some k') (slot : Slot) :
    (k'.pt.proc slot).pid = (k.pt.proc slot).pid ∧
      (k'.pt.proc slot).parkFlags =
        update (fun slot => (k.pt.proc slot).parkFlags) self
          (k.pt.proc self).parkFlags.setpark slot := by
  simp only [step, call, Option.ite_none_right_eq_some, Option.some.injEq] at taken
  obtain ⟨-, rfl⟩ := taken
  by_cases same : slot = self
  · subst same
    unfold Ptable.setpark Handoff.Flags.setpark
    by_cases clear : (k.pt.proc slot).immediateUnpark = false ∧ (k.pt.proc slot).setPark = false
    · simp [clear, Proc.parkFlags]
    · simp [clear, Proc.parkFlags]
  · unfold Ptable.setpark
    split <;> simp [Ptable.modify_of_ne same, update_of_ne same]

theorem park_effect (taken : k.step (.park self) = some k') (slot : Slot) :
    (k'.pt.proc slot).pid = (k.pt.proc slot).pid ∧
      (k'.pt.proc slot).parkFlags =
        update (fun slot => (k.pt.proc slot).parkFlags) self
          (k.pt.proc self).parkFlags.park slot := by
  simp only [step, Option.ite_none_right_eq_some, Option.some.injEq] at taken
  obtain ⟨-, rfl⟩ := taken
  by_cases same : slot = self
  · subst same
    cases noted : (k.pt.proc slot).immediateUnpark <;>
      simp [Ptable.park, noted, Proc.parkFlags, Handoff.Flags.park]
  · simp [Ptable.park, Ptable.modify_of_ne same, update_of_ne same]

theorem unpark_effect {pid : Int} (wf : Wf k) (parking : Parking (k.pt.proc slot))
    (isPid : (k.pt.proc slot).pid = pid) (used : pid ≠ 0)
    (taken : k.step (.unpark self pid) = some k') (other : Slot) :
    (k'.pt.proc other).pid = (k.pt.proc other).pid ∧
      (k'.pt.proc other).parkFlags =
        if other = slot then (k.pt.proc other).parkFlags.unpark
        else (k.pt.proc other).parkFlags := by
  subst isPid
  simp only [step, call, Option.ite_none_right_eq_some, Option.some.injEq] at taken
  obtain ⟨-, rfl⟩ := taken
  have unique : ∀ other, (k.pt.proc other).pid = (k.pt.proc slot).pid → other = slot :=
    fun other same => (wf.pidUnique slot other same.symm used).symm
  have found : Table.find (fun other => decide
      ((k.pt.proc other).pid = (k.pt.proc slot).pid)) = some slot := by
    apply Table.find_unique
    · simp
    · exact fun other same => unique other (of_decide_eq_true same)
  by_cases parked : (k.pt.proc slot).isParked = true
  · have asleep : Table.find (fun other => decide ((k.pt.proc other).state = .sleeping ∧
        (k.pt.proc other).isParked = true ∧
        (k.pt.proc other).pid = (k.pt.proc slot).pid)) = some slot := by
      apply Table.find_unique
      · simp [(parking.parked parked).1, parked]
      · exact fun other met => unique other (of_decide_eq_true met).2.2
    have woken : (k.pt.unpark (k.pt.proc slot).pid).1 = k.pt.modify slot fun entry =>
        { entry with state := .runnable, isParked := false } := by
      unfold Ptable.unpark Ptable.unpark1
      simp only [found, asleep]
      rw [if_neg (by simp [parked]), if_neg (by simp [parked])]
    simp only [woken]
    by_cases same : other = slot
    · subst same
      simp [parked, Proc.parkFlags, Handoff.Flags.unpark]
    · simp [same, Ptable.modify_of_ne same]
  · by_cases same : other = slot
    · subst same
      cases set : (k.pt.proc other).setPark <;>
        simp [Ptable.unpark, found, parked, set, Proc.parkFlags, Handoff.Flags.unpark]
    · cases set : (k.pt.proc slot).setPark <;>
        simp [Ptable.unpark, found, parked, set, same, Ptable.modify_of_ne same]

end Kernel

/-! ## The state of the protocol -/

namespace User.System

open Handoff (State Step)

/-- A system as a state of the protocol. -/
def abs (s : System) : State Slot Int MutexId CondId where
  member self := decide (s.pc self ≠ .outside)
  key := s.pid
  flags self := (s.k.pt.proc self).parkFlags
  view self := view (s.pc self) (s.held self)
  locked := s.locked
  queue := s.queue
  flag := s.flag

@[simp] theorem abs_queue (s : System) : s.abs.queue = s.queue := rfl

@[simp] theorem abs_key (s : System) : s.abs.key = s.pid := rfl

@[simp] theorem abs_view (s : System) (self : Slot) :
    s.abs.view self = view (s.pc self) (s.held self) := rfl

@[simp] theorem abs_member (s : System) (self : Slot) :
    s.abs.member self = true ↔ s.pc self ≠ .outside := by
  simp [abs]

@[simp] theorem view_waits (pc : Pc) (held : Finset Nat) : (view pc held).waits = pc.waits :=
  rfl

/-- A thread that is in the client's code, or has called the library and still waits
for a spinlock without having done anything yet. -/
def Detached (s : System) (self : Slot) : Prop :=
  (s.pc self).spinlock = none ∧ (s.pc self).waits = none ∧ (s.pc self).owns = none

instance (s : System) (self : Slot) : Decidable (s.Detached self) :=
  inferInstanceAs (Decidable (_ ∧ _ ∧ _))

/-- A thread that moreover has no mutex. -/
def Harmless (s : System) (self : Slot) : Prop :=
  s.Detached self ∧ s.held self = ∅

instance (s : System) (self : Slot) : Decidable (s.Harmless self) :=
  inferInstanceAs (Decidable (_ ∧ _))

/-- Steps that leave the protocol alone: only the library unparks its threads,
threads exit while they are detached and are killed while they are harmless, and a
killed thread takes no more spinlocks. -/
def Benign (s : System) : Act → Prop
  | .kernel (.kill _ pid) => ∀ self, s.pc self ≠ .outside → s.pid self = pid → s.Harmless self
  | .kernel (.unpark _ pid) => ∀ self, s.pc self ≠ .outside → s.pid self ≠ pid
  | .exit self => s.Detached self
  | .run self => (s.k.pt.proc self).killed = true →
      ∀ o, (s.pc self).instr ≠ some (.spinLock o)
  | _ => True

/-- The states of the system. -/
structure Inv (s : System) : Prop where
  kernel : s.k.Wf
  parking : ∀ self, s.pc self ≠ .outside → Kernel.Parking (s.k.pt.proc self)
  live : ∀ self, s.pc self ≠ .outside → (s.k.pt.proc self).state.Live
  /-- A thread in the library sleeps nowhere but in `park`. -/
  asleep : ∀ self, s.pc self ≠ .outside → s.pc self ≠ .idle →
    Kernel.SleepsParked (s.k.pt.proc self)
  killed : ∀ self, s.pc self ≠ .outside → (s.k.pt.proc self).killed = true → s.Harmless self
  disciplined : ∀ self, Disciplined (s.pc self) (s.held self)
  protocol : Handoff.Inv s.abs

variable {s s' : System} {self : Slot} {act : Act} {answer : Answer} {after : System} {k : Kernel}
  {trace : List (System × Act)} {other : Slot} {op : Op} {action : Action} {start : System}

theorem spinlock_none {pc : Pc} (outside : pc.spinlock = none) :
    pc.carries = none ∧ pc.knows = none := by
  cases pc with
  | lock call place | unlock call place | wait call place | signal call place
  | broadcast c place => cases place <;> first | exact ⟨rfl, rfl⟩ | cases outside
  | outside | idle | semTest | semDecrement | semIncrement => exact ⟨rfl, rfl⟩

theorem Detached.idle (detached : s.Detached self) : (s.abs.view self).Idle := by
  obtain ⟨spinlock, waits, -⟩ := detached
  obtain ⟨carries, knows⟩ := spinlock_none spinlock
  exact ⟨spinlock, waits, carries, knows⟩

theorem Harmless.owns (harmless : s.Harmless self) (m : MutexId) :
    (s.abs.view self).owns m = false := by
  obtain ⟨⟨-, -, owns⟩, held⟩ := harmless
  simp only [abs, view, owned, owns, held]
  cases m <;> simp [clientOwns]

theorem harmless_of_idle (idle : (s.abs.view self).Idle)
    (unowned : ∀ m, (s.abs.view self).owns m = false) : s.Harmless self := by
  have owns : (s.pc self).owns = none := by
    cases isOwner : (s.pc self).owns with
    | none => rfl
    | some m =>
      have := unowned m
      simp [abs, view, owned, isOwner] at this
  refine ⟨⟨idle.inside, idle.waits, owns⟩,
    Finset.eq_empty_of_forall_notMem fun m held => ?_⟩
  have := unowned (.user m)
  simp [abs, view, owned, owns, clientOwns, held] at this

theorem Detached.instr {instr : Instr} (detached : s.Detached self)
    (executes : (s.pc self).instr = some instr) : ∃ o, instr = .spinLock o := by
  obtain ⟨spinlock, waits, owns⟩ := detached
  generalize s.pc self = pc at spinlock waits owns executes
  cases pc with
  | lock call place =>
    cases place with
    | guard => exact ⟨_, (Option.some.inj executes).symm⟩
    | park | parked => cases waits
    | _ => cases spinlock
  | unlock call place =>
    cases place with
    | guard => cases owns
    | _ => cases spinlock
  | wait call place =>
    cases place with
    | clock => exact ⟨_, (Option.some.inj executes).symm⟩
    | park | parked => cases waits
    | _ => cases spinlock
  | signal call place | broadcast c place =>
    cases place with
    | clock => exact ⟨_, (Option.some.inj executes).symm⟩
    | _ => cases spinlock
  | outside | idle => cases executes
  | semTest | semDecrement | semIncrement => cases owns

theorem run_some (taken : s.run self = some s') :
    ∃ instr answer after, (s.pc self).instr = some instr ∧ s.k.At self .user ∧
      s.execute self instr = some (after, answer) ∧
      s' = after.goto self ((s.pc self).next answer)
        ((s.pc self).heldAfter (s.held self)) := by
  unfold run at taken
  cases executes : (s.pc self).instr with
  | none => simp [executes] at taken
  | some instr =>
    simp only [executes, Option.ite_none_right_eq_some, Option.map_eq_some_iff] at taken
    obtain ⟨here, ⟨after, answer⟩, executed, rfl⟩ := taken
    exact ⟨instr, answer, after, rfl, here, executed, rfl⟩

theorem call_some (taken : s.call self op = some s') :
    s.k.At self .user ∧ s.pc self = .idle ∧ op.needs.all (· ∈ s.held self) = true ∧
      s' = s.goto self op.entry (op.heldAfter (s.held self)) := by
  simp only [call, Option.ite_none_right_eq_some, Option.some.injEq] at taken
  obtain ⟨⟨here, idle, needs⟩, rfl⟩ := taken
  exact ⟨here, idle, needs, rfl⟩

/-- The effects of the steps. -/
inductive Taken (s : System) : Act → System → Prop where
  | run {self : Slot} {instr : Instr} {answer : Answer} {after : System} :
      (s.pc self).instr = some instr → s.k.At self .user →
      s.execute self instr = some (after, answer) →
      Taken s (.run self)
        (after.goto self ((s.pc self).next answer) ((s.pc self).heldAfter (s.held self)))
  | call {self : Slot} {op : Op} : s.k.At self .user → s.pc self = .idle →
      op.needs.all (· ∈ s.held self) = true →
      Taken s (.call self op) (s.goto self op.entry (op.heldAfter (s.held self)))
  | exit {self : Slot} {k : Kernel} : s.pc self ≠ .outside →
      s.k.step (.exit self) = some k →
      Taken s (.exit self) (System.goto { s with k := k } self .outside (s.held self))
  | kernel {action : Action} {k : Kernel} :
      s.allows action = true →
      s.k.step action = some k → Taken s (.kernel action) { s with k := k }

theorem step_taken (taken : s.step act = some s') : Taken s act s' := by
  cases act with
  | run self =>
    obtain ⟨instr, answer, after, executes, here, executed, rfl⟩ := run_some taken
    exact .run executes here executed
  | call self op =>
    obtain ⟨here, idle, needs, rfl⟩ := call_some taken
    exact .call here idle needs
  | exit self =>
    simp only [step, Option.ite_none_left_eq_some, Option.map_eq_some_iff] at taken
    obtain ⟨member, k, taken, rfl⟩ := taken
    exact .exit member taken
  | kernel action =>
    simp only [step, Option.ite_none_right_eq_some, Option.map_eq_some_iff] at taken
    obtain ⟨allows, k, taken, rfl⟩ := taken
    exact .kernel allows taken

theorem member_of_executes {instr : Instr} (executes : (s.pc self).instr = some instr) :
    s.pc self ≠ .outside := by
  intro outside
  rw [outside] at executes
  cases executes

theorem execute_frame {instr : Instr} (executed : s.execute self instr = some (after, answer)) :
    after.pc = s.pc ∧ after.held = s.held := by
  cases instr with
  | spinLock o =>
    simp only [execute, Option.ite_none_left_eq_some, Option.some.injEq,
      Prod.mk.injEq] at executed
    obtain ⟨-, rfl, -⟩ := executed
    exact ⟨rfl, rfl⟩
  | setpark | park | unpark =>
    simp only [execute, Option.map_eq_some_iff, Prod.mk.injEq] at executed
    obtain ⟨k, -, rfl, -⟩ := executed
    exact ⟨rfl, rfl⟩
  | _ =>
    cases executed
    exact ⟨rfl, rfl⟩

theorem execute_kernel {instr : Instr} (executed : s.execute self instr = some (after, answer)) :
    after.k = s.k ∨ ∃ action, s.k.step action = some after.k ∧
      (action = .setpark self ∨ action = .park self ∨ ∃ pid, action = .unpark self pid) := by
  cases instr with
  | spinLock o =>
    simp only [execute, Option.ite_none_left_eq_some, Option.some.injEq,
      Prod.mk.injEq] at executed
    obtain ⟨-, rfl, -⟩ := executed
    exact .inl rfl
  | setpark | park | unpark pid =>
    simp only [execute, Option.map_eq_some_iff, Prod.mk.injEq] at executed
    obtain ⟨k, taken, rfl, -⟩ := executed
    exact .inr ⟨_, taken, by simp⟩
  | _ =>
    cases executed
    exact .inl rfl

/-! ## Instructions -/

theorem abs_goto (pc : Pc) (held : Finset Nat) (member : s.pc self ≠ .outside)
    (still : pc ≠ .outside) : (s.goto self pc held).abs = s.abs.see self (view pc held) := by
  simp only [abs, goto, State.see, State.mk.injEq]
  refine ⟨?_, rfl, trivial, ?_, trivial, trivial, trivial⟩
  · funext other
    by_cases same : other = self
    · subst same
      simp [member, still]
    · simp [update_of_ne same]
  · funext other
    by_cases same : other = self
    · subst same
      simp
    · simp [update_of_ne same]

private theorem lockReturn_ne_outside (call : MutexCall) : call.lockReturn ≠ .outside := by
  cases call with
  | cvWait call => cases call <;> simp [MutexCall.lockReturn]
  | client | semWait | semPost => simp [MutexCall.lockReturn]

theorem next_ne_outside {pc : Pc} (answer : Answer) (member : pc ≠ .outside) :
    pc.next answer ≠ .outside := by
  cases pc with
  | outside => exact absurd rfl member
  | lock call place =>
    cases place with
    | leave | parked => exact lockReturn_ne_outside call
    | _ => simp [Pc.next]
  | unlock call place =>
    cases place with
    | unguard => cases call <;> simp [Pc.next, MutexCall.unlockReturn]
    | _ => simp [Pc.next]
  | wait call place => cases place <;> simp [Pc.next]
  | signal call place =>
    cases place with
    | unclock => cases call <;> simp [Pc.next, CvSignal.return]
    | _ => simp [Pc.next]
  | broadcast c place => cases place <;> simp [Pc.next]
  | semTest n again => cases test : answer.test <;> simp [Pc.next, test]
  | semDecrement n read | semIncrement n read => cases read <;> simp [Pc.next]
  | idle => exact member

private theorem abs_kernel {flags : Slot → Handoff.Flags}
    (effect : ∀ slot, (k.pt.proc slot).pid = (s.k.pt.proc slot).pid ∧
      (k.pt.proc slot).parkFlags = flags slot) :
    { s with k := k }.abs = { s.abs with flags := flags } := by
  simp only [abs, State.mk.injEq]
  exact ⟨trivial, funext fun slot => (effect slot).1, funext fun slot => (effect slot).2,
    trivial, trivial, trivial, trivial⟩

theorem execute_abs {instr : Instr} (inv : Inv s)
    (member : s.pc self ≠ .outside) (executes : (s.pc self).instr = some instr)
    (here : s.k.At self .user) (executed : s.execute self instr = some (after, answer)) :
    s.abs.Enabled self (instr.event answer) ∧
      after.abs = s.abs.act self (instr.event answer) := by
  have effect : Handoff.Effect (instr.event answer) (s.abs.view self) _ :=
    view_step _ (inv.disciplined self) executes
  cases instr with
  | spinLock o =>
    simp only [execute, Option.ite_none_left_eq_some, Option.some.injEq,
      Prod.mk.injEq] at executed
    obtain ⟨free, rfl, rfl⟩ := executed
    exact ⟨by simpa [Instr.event, State.Enabled, abs] using free, rfl⟩
  | testFlag m =>
    cases executed
    refine ⟨?_, rfl⟩
    cases flag : s.flag m <;> simp [Instr.event, State.Enabled, State.Holds, abs, flag]
  | setFlag m value =>
    cases executed
    cases value <;> exact ⟨trivial, rfl⟩
  | queueEmpty o =>
    cases executed
    refine ⟨?_, rfl⟩
    cases queue : s.queue o <;>
      simp [Instr.event, State.Enabled, State.Holds, abs, PidQueue.empty, queue]
  | queueRemove o =>
    cases executed
    have nonempty : s.queue o ≠ [] := inv.protocol.guarded.known effect.dequeues.2.1
    constructor
    · cases queue : s.queue o with
      | nil => exact absurd queue nonempty
      | cons pid rest => exact ⟨rest, by simp [abs, queue, PidQueue.remove]⟩
    · rw [PidQueue.remove_snd]
      rfl
  | setpark =>
    simp only [execute, Option.map_eq_some_iff, Prod.mk.injEq] at executed
    obtain ⟨k, taken, rfl, rfl⟩ := executed
    exact ⟨trivial, abs_kernel (Kernel.setpark_effect taken)⟩
  | park =>
    simp only [execute, Option.map_eq_some_iff, Prod.mk.injEq] at executed
    obtain ⟨k, taken, rfl, rfl⟩ := executed
    exact ⟨trivial, abs_kernel (Kernel.park_effect taken)⟩
  | resume =>
    cases executed
    exact ⟨(inv.parking self member).awake (by simp [here.1]), rfl⟩
  | unpark pid =>
    simp only [execute, Option.map_eq_some_iff, Prod.mk.injEq] at executed
    obtain ⟨k, taken, rfl, rfl⟩ := executed
    obtain ⟨o, carries⟩ := effect.unparks
    obtain ⟨-, waiter, stage, isPid, waits, -⟩ := inv.protocol.queued.carried carries
    have isMember := inv.protocol.queued.member_of_waits waits
    have waiterIn : s.pc waiter ≠ .outside := by simpa [abs] using isMember
    have used : (s.k.pt.proc waiter).pid ≠ 0 :=
      inv.kernel.pidUsed waiter (inv.live waiter waiterIn).ne_unused
    refine ⟨trivial, abs_kernel fun slot => ?_⟩
    have effect := Kernel.unpark_effect inv.kernel (inv.parking waiter waiterIn) isPid
      (isPid ▸ used) taken slot
    refine ⟨effect.1, effect.2.trans (if_congr ?_ rfl rfl)⟩
    constructor
    · rintro rfl
      exact ⟨isMember, isPid⟩
    · rintro ⟨slotMember, same⟩
      exact inv.protocol.queued.keys slotMember isMember (same.trans isPid.symm)
  | spinUnlock | queueAdd | testValue | readValue | writeValue =>
    cases executed
    exact ⟨trivial, rfl⟩

/-! ## Steps -/

private theorem kept (inv : Inv s)
    (taken : s.k.step action = some k) (member : s.pc self ≠ .outside) (alive : action ≠ .exit self)
    (awake : ∀ other, action = .kill other (s.pid self) → s.Harmless self) :
    Kernel.Parking (k.pt.proc self) ∧ (k.pt.proc self).state.Live ∧
      (k.pt.proc self).pid = (s.k.pt.proc self).pid ∧
      ((k.pt.proc self).killed = true → s.Harmless self) := by
  have move := Kernel.step_move (Kernel.step_effect taken) inv.kernel.creates self
  have live := inv.live self member
  have live' := Kernel.live_kept move inv.kernel live alive
  refine ⟨?_, live', Kernel.pid_kept move live.ne_unused live'.ne_unused, fun killed => ?_⟩
  · refine Kernel.parking_move inv.kernel move (fun other kills => ?_) (inv.parking self member)
    have idle := (awake other kills).1.idle
    have quiet := inv.protocol.queued.quiet (by simpa [abs] using member) idle.waits
    exact congrArg Handoff.Flags.isParked quiet
  · rcases Kernel.killed_move move killed with before | ⟨other, kills⟩
    · exact inv.killed self member before
    · exact awake other kills

private theorem simulates_run {instr : Instr}
    (inv : Inv s) (executes : (s.pc self).instr = some instr) (here : s.k.At self .user)
    (executed : s.execute self instr = some (after, answer)) :
    Relation.ReflTransGen Step s.abs
      (after.goto self ((s.pc self).next answer)
        ((s.pc self).heldAfter (s.held self))).abs := by
  have member := member_of_executes executes
  obtain ⟨enabled, isAfter⟩ := execute_abs inv member executes here executed
  obtain ⟨samePc, -⟩ := execute_frame executed
  rw [abs_goto _ _ (samePc ▸ member) (next_ne_outside answer member), isAfter]
  exact .single (.exec (by simpa [abs] using member) enabled
    (view_step _ (inv.disciplined self) executes))

theorem entry_ne_outside (op : Op) : op.entry ≠ .outside := by
  cases op <;> simp [Op.entry]

theorem abs_call (idle : s.pc self = .idle) (needs : op.needs.all (· ∈ s.held self) = true) :
    (s.goto self op.entry (op.heldAfter (s.held self))).abs = s.abs := by
  rw [abs_goto _ _ (by simp [idle]) (entry_ne_outside op), view_entry needs, ← idle]
  exact congrArg (fun view => { s.abs with view := view }) (update_eq_self self _)

private theorem simulates_exit (inv : Inv s) (detached : s.Detached self)
    (taken : s.k.step (.exit self) = some k) :
    Relation.ReflTransGen Step s.abs
      (System.goto { s with k := k } self .outside (s.held self)).abs := by
  refine .tail (.single (.leave detached.idle)) ?_
  have after : (System.goto { s with k := k } self .outside (s.held self)).abs =
      { s.abs with
        member := update s.abs.member self false
        key := fun slot => (k.pt.proc slot).pid
        flags := fun slot => (k.pt.proc slot).parkFlags } := by
    obtain ⟨spinlock, waits, owns⟩ := detached
    obtain ⟨carries, knows⟩ := spinlock_none spinlock
    simp only [abs, goto, State.mk.injEq]
    refine ⟨?_, rfl, trivial, ?_, trivial, trivial, trivial⟩
    · funext other
      by_cases same : other = self
      · subst same
        simp
      · simp [update_of_ne same]
    · funext other
      by_cases same : other = self
      · subst same
        simp only [update_self, view, owned, spinlock, waits, carries, knows, owns]
        rfl
      · simp [update_of_ne same]
  rw [after]
  refine .foreign fun thread isMember => ?_
  have different : thread ≠ self := by
    rintro rfl
    simp at isMember
  have member : s.pc thread ≠ .outside := by
    simpa [abs, update_of_ne different] using isMember
  have move := Kernel.step_move (Kernel.step_effect taken) inv.kernel.creates thread
  have same := kept inv taken member (by simpa using different.symm) (by simp)
  exact ⟨same.2.2.1, Kernel.parkFlags_move move (by simp) (by simp) (by simp)⟩

private theorem kept_foreign (inv : Inv s) (benign : s.Benign (.kernel action))
    (allows : s.allows action = true)
    (taken : s.k.step action = some k) (member : s.pc self ≠ .outside) :
    (Kernel.Parking (k.pt.proc self) ∧ (k.pt.proc self).state.Live ∧
      (k.pt.proc self).pid = (s.k.pt.proc self).pid ∧
      ((k.pt.proc self).killed = true → s.Harmless self)) ∧
      (k.pt.proc self).parkFlags = (s.k.pt.proc self).parkFlags := by
  have other : ∀ {own : Action}, s.allows own = false → action ≠ own := by
    rintro own forbidden rfl
    simp [forbidden] at allows
  have outside : decide (s.pc self = .outside) = false := by simpa using member
  have move := Kernel.step_move (Kernel.step_effect taken) inv.kernel.creates self
  constructor
  · refine kept inv taken member (other outside) ?_
    rintro killer rfl
    exact benign self member rfl
  · refine Kernel.parkFlags_move move (other outside) (other outside) ?_
    rintro caller rfl
    exact benign self member rfl

theorem simulates (inv : Inv s) (benign : s.Benign act)
    (taken : Taken s act s') : Relation.ReflTransGen Step s.abs s'.abs := by
  cases taken with
  | run executes here executed => exact simulates_run inv executes here executed
  | call _ idle needs => rw [abs_call idle needs]
  | exit _ taken => exact simulates_exit inv benign taken
  | kernel allows taken =>
    refine .single (.foreign fun thread isMember => ?_)
    have member : s.pc thread ≠ .outside := by simpa [abs] using isMember
    have same := kept_foreign inv benign allows taken member
    exact ⟨same.1.2.2.1, same.2⟩

/-! ## Invariance -/

@[simp] theorem goto_k (pc : Pc) (held : Finset Nat) : (s.goto self pc held).k = s.k := rfl

@[simp] theorem goto_pc_self (pc : Pc) (held : Finset Nat) :
    (s.goto self pc held).pc self = pc := by
  simp [goto]

@[simp] theorem goto_held_self (pc : Pc) (held : Finset Nat) :
    (s.goto self pc held).held self = held := by
  simp [goto]

section
variable (different : other ≠ self) (pc : Pc) (held : Finset Nat)
include different pc held

theorem goto_pc_of_ne : (s.goto self pc held).pc other = s.pc other := by
  simp [goto, update_of_ne different]

theorem goto_held_of_ne : (s.goto self pc held).held other = s.held other := by
  simp [goto, update_of_ne different]

theorem Harmless.goto_of_ne
    (harmless : s.Harmless other) : (s.goto self pc held).Harmless other := by
  unfold Harmless Detached at harmless ⊢
  rw [goto_pc_of_ne different, goto_held_of_ne different]
  exact harmless

end

private theorem Inv.unheld (inv : Inv s) {m : Nat}
    (knows : (s.pc self).knows = some (.free (.user m))) : m ∉ s.held self := by
  intro held
  have free : s.abs.Holds (.free (.user m)) := inv.protocol.guarded.known knows
  have claims := (inv.protocol.token (.user m)).free free (.owner self)
  exact claims (owned_iff.mpr (.inl ⟨m, held, rfl⟩))

private theorem inv_run {instr : Instr} (inv : Inv s)
    (benign : s.Benign (.run self)) (executes : (s.pc self).instr = some instr)
    (here : s.k.At self .user) (executed : s.execute self instr = some (after, answer)) :
    Inv (after.goto self ((s.pc self).next answer)
      ((s.pc self).heldAfter (s.held self))) := by
  have protocol := inv.protocol.steps (simulates_run inv executes here executed)
  have member := member_of_executes executes
  obtain ⟨samePc, sameHeld⟩ := execute_frame executed
  have still : ∀ {thread}, (after.goto self ((s.pc self).next answer)
      ((s.pc self).heldAfter (s.held self))).pc thread ≠ .outside →
      s.pc thread ≠ .outside := by
    intro thread isMember
    by_cases same : thread = self
    · exact same ▸ member
    · rwa [goto_pc_of_ne same, samePc] at isMember
  have kernel : after.k.Wf ∧ ∀ thread, s.pc thread ≠ .outside →
      Kernel.Parking (after.k.pt.proc thread) ∧ (after.k.pt.proc thread).state.Live ∧
        (s.pc thread ≠ .idle → Kernel.SleepsParked (after.k.pt.proc thread)) ∧
        ((after.k.pt.proc thread).killed = true → (s.k.pt.proc thread).killed = true) := by
    rcases execute_kernel executed with same | ⟨action, step, call⟩
    · rw [same]
      exact ⟨inv.kernel, fun thread isMember => ⟨inv.parking thread isMember,
        inv.live thread isMember, inv.asleep thread isMember, id⟩⟩
    · refine ⟨Kernel.wf_step inv.kernel step, fun thread isMember => ?_⟩
      have noKill : ∀ other pid, action ≠ .kill other pid := by
        rcases call with rfl | rfl | ⟨pid, rfl⟩ <;> simp
      have noExit : action ≠ .exit thread := by
        rcases call with rfl | rfl | ⟨pid, rfl⟩ <;> simp
      have same := kept inv step isMember noExit fun other kills => absurd kills (noKill _ _)
      have move := Kernel.step_move (Kernel.step_effect step) inv.kernel.creates thread
      refine ⟨same.1, same.2.1, fun inside => ?_, fun killed => ?_⟩
      · refine Kernel.sleepsParked_move inv.kernel move ?_ ?_ ?_
          (inv.asleep thread isMember inside) <;>
          rcases call with rfl | rfl | ⟨pid, rfl⟩ <;> simp
      · rcases Kernel.killed_move move killed with before | ⟨other, kills⟩
        · exact before
        · exact absurd kills (noKill _ _)
  refine ⟨kernel.1, fun thread isMember => (kernel.2 thread (still isMember)).1,
    fun thread isMember => (kernel.2 thread (still isMember)).2.1, ?_, ?_, ?_, protocol⟩
  · intro thread isMember inside
    refine (kernel.2 thread (still isMember)).2.2.1 ?_
    by_cases same : thread = self
    · intro idle
      rw [← same, idle] at executes
      cases executes
    · rwa [goto_pc_of_ne same, samePc] at inside
  · intro thread isMember killed
    have before := (kernel.2 thread (still isMember)).2.2.2 killed
    have harmless := inv.killed thread (still isMember) before
    by_cases same : thread = self
    · subst same
      obtain ⟨o, rfl⟩ := harmless.1.instr executes
      exact absurd executes (benign before o)
    · refine Harmless.goto_of_ne same _ _ ?_
      unfold Harmless Detached at harmless ⊢
      rwa [samePc, sameHeld]
  · intro thread
    by_cases same : thread = self
    · subst same
      rw [goto_pc_self, goto_held_self]
      exact disciplined_step (inv.disciplined thread) fun m => inv.unheld
    · rw [goto_pc_of_ne same, goto_held_of_ne same, samePc, sameHeld]
      exact inv.disciplined thread

private theorem inv_call (inv : Inv s) (here : s.k.At self .user)
    (idle : s.pc self = .idle) (needs : op.needs.all (· ∈ s.held self) = true) :
    Inv (s.goto self op.entry (op.heldAfter (s.held self))) := by
  have sameAbs := abs_call idle needs
  have still : ∀ {thread}, (s.goto self op.entry (op.heldAfter (s.held self))).pc thread ≠
      .outside → s.pc thread ≠ .outside := by
    intro thread isMember
    by_cases same : thread = self
    · simp [same, idle]
    · rwa [goto_pc_of_ne same] at isMember
  refine ⟨inv.kernel, fun thread isMember => inv.parking thread (still isMember),
    fun thread isMember => inv.live thread (still isMember), ?_, ?_, ?_,
    sameAbs ▸ inv.protocol⟩
  · intro thread isMember inside
    by_cases same : thread = self
    · subst same
      exact Kernel.sleepsParked_of_running inv.kernel here.1
    · rw [goto_pc_of_ne same] at isMember inside
      exact inv.asleep thread isMember inside
  · intro thread isMember killed
    have harmless := inv.killed thread (still isMember) killed
    exact harmless_of_idle (sameAbs ▸ harmless.1.idle) (sameAbs ▸ harmless.owns)
  · intro thread
    by_cases same : thread = self
    · subst same
      rw [goto_pc_self, goto_held_self]
      exact disciplined_entry needs
    · rw [goto_pc_of_ne same, goto_held_of_ne same]
      exact inv.disciplined thread

private theorem inv_exit (inv : Inv s) (detached : s.Detached self)
    (taken : s.k.step (.exit self) = some k) :
    Inv (System.goto { s with k := k } self .outside (s.held self)) := by
  have still : ∀ {thread}, (System.goto { s with k := k } self .outside
      (s.held self)).pc thread ≠ .outside → thread ≠ self ∧ s.pc thread ≠ .outside := by
    intro thread isMember
    by_cases same : thread = self
    · simp [same] at isMember
    · exact ⟨same, by rwa [goto_pc_of_ne same] at isMember⟩
  have others : ∀ {thread}, (System.goto { s with k := k } self .outside
      (s.held self)).pc thread ≠ .outside → _ := fun {thread} isMember =>
    kept inv taken (still isMember).2 (by simpa using (still isMember).1.symm) (by simp)
  refine ⟨Kernel.wf_step inv.kernel taken, fun thread isMember => (others isMember).1,
    fun thread isMember => (others isMember).2.1, ?_, ?_, ?_,
    inv.protocol.steps (simulates_exit inv detached taken)⟩
  · intro thread isMember inside
    have move := Kernel.step_move (Kernel.step_effect taken) inv.kernel.creates thread
    obtain ⟨different, wasMember⟩ := still isMember
    rw [goto_pc_of_ne different] at inside
    exact Kernel.sleepsParked_move inv.kernel move (by simp) (by simp) (by simp)
      (inv.asleep thread wasMember inside)
  · intro thread isMember killed
    exact Harmless.goto_of_ne (still isMember).1 _ _ ((others isMember).2.2.2 killed)
  · intro thread
    by_cases same : thread = self
    · subst same
      rw [goto_pc_self, goto_held_self]
      exact disciplined_of_none rfl (by simp [Pc.owns, Pc.critical])
    · rw [goto_pc_of_ne same, goto_held_of_ne same]
      exact inv.disciplined thread

theorem inv_step (inv : Inv s) (benign : s.Benign act) (taken : Taken s act s') : Inv s' := by
  have protocol := inv.protocol.steps (simulates inv benign taken)
  cases taken with
  | run executes here executed => exact inv_run inv benign executes here executed
  | call here idle needs => exact inv_call inv here idle needs
  | exit _ taken => exact inv_exit inv benign taken
  | @kernel action _ allows taken =>
    have others : ∀ {thread}, s.pc thread ≠ .outside → _ := fun {thread} isMember =>
      (kept_foreign inv benign allows taken isMember).1
    refine ⟨Kernel.wf_step inv.kernel taken, fun thread isMember => (others isMember).1,
      fun thread isMember => (others isMember).2.1, fun thread isMember inside => ?_,
      fun thread isMember => (others isMember).2.2.2, inv.disciplined, protocol⟩
    have move := Kernel.step_move (Kernel.step_effect taken) inv.kernel.creates thread
    have other : ∀ {own : Action}, s.allows own = false → action ≠ own := by
      rintro own forbidden rfl
      simp [forbidden] at allows
    have forbidden : (decide (s.pc thread = .outside ∨ s.pc thread = .idle)) = false := by
      simpa using ⟨isMember, inside⟩
    exact Kernel.sleepsParked_move inv.kernel move (fun _ => other forbidden)
      (other forbidden) (other forbidden) (inv.asleep thread isMember inside)

theorem Start.idle (start : s.Start) (self : Slot) : s.pc self = .outside ∨ s.pc self = .idle := by
  by_cases outside : s.pc self = .outside
  · exact .inl outside
  · exact .inr (start.thread self outside).1

theorem Start.inv (start : s.Start) : Inv s := by
  have harmless : ∀ self, s.Harmless self := by
    intro self
    rcases start.idle self with isAt | isAt <;>
      exact ⟨⟨by rw [isAt]; rfl, by rw [isAt]; rfl, by rw [isAt]; rfl⟩, start.held self⟩
  have wf : s.k.Wf := start.kernel.wf
  refine ⟨wf, ?_, fun self member => (start.thread self member).2.1,
    fun self member inside => absurd (start.thread self member).1 inside,
    fun self _ _ => harmless self, ?_, ?_⟩
  · intro self member
    obtain ⟨-, -, isParked, -, noted, -⟩ := start.thread self member
    exact ⟨by simp [isParked], by simp [noted]⟩
  · intro self
    rcases start.idle self with isAt | isAt <;>
      exact isAt ▸ disciplined_of_none rfl (by simp [Pc.owns, Pc.critical])
  · apply Handoff.inv_start
    · exact fun self => (harmless self).1.idle
    · exact fun self => (harmless self).owns
    · exact start.queue
    · exact start.flag
    · intro self member
      obtain ⟨-, -, isParked, setPark, noted, -⟩ := start.thread self (by simpa [abs] using member)
      simp [abs, Proc.parkFlags, isParked, setPark, noted]
    · intro self other member otherMember same
      have live := (start.thread self (by simpa [abs] using member)).2.1
      exact wf.pidUnique self other same (wf.pidUsed self live.ne_unused)

theorem Inv.run (isStart : start.Start)
    (run : Transition.Run step Benign start trace s) : Inv s := by
  apply run.stateInvariant
  · exact isStart.inv
  · intro state act next inv benign taken
    exact inv_step inv benign (step_taken taken)

section
variable (taken : Taken s act s')
include taken

theorem Taken.kernelStep :
    s'.k = s.k ∨ ∃ action, s.k.step action = some s'.k ∧
      (act = .kernel action ∨ ∀ killer pid, action ≠ .kill killer pid) := by
  cases taken with
  | run executes here executed =>
    rcases execute_kernel executed with same | ⟨action, step, call⟩
    · exact .inl same
    · refine .inr ⟨action, step, .inr ?_⟩
      rcases call with rfl | rfl | ⟨pid, rfl⟩ <;> simp
  | call => exact .inl rfl
  | exit _ taken => exact .inr ⟨_, taken, .inr (by simp)⟩
  | kernel _ taken => exact .inr ⟨_, taken, .inl rfl⟩

theorem Taken.pc_of_ne (run : act ≠ .run self)
    (call : ∀ op, act ≠ .call self op) (exit : act ≠ .exit self) : s'.pc self = s.pc self := by
  cases taken with
  | @run actor _ _ _ _ _ executed =>
    rw [goto_pc_of_ne (by rintro rfl; exact run rfl), (execute_frame executed).1]
  | @call actor op => exact goto_pc_of_ne (by rintro rfl; exact call op rfl) _ _
  | @exit actor => exact goto_pc_of_ne (by rintro rfl; exact exit rfl) _ _
  | kernel => rfl

theorem Taken.member (member : s'.pc self ≠ .outside) : s.pc self ≠ .outside := by
  cases taken with
  | @run actor _ _ _ executes _ executed =>
    by_cases same : self = actor
    · exact same ▸ member_of_executes executes
    · rwa [goto_pc_of_ne same, (execute_frame executed).1] at member
  | @call actor _ _ idle =>
    by_cases same : self = actor
    · simp [same, idle]
    · rwa [goto_pc_of_ne same] at member
  | @exit actor =>
    by_cases same : self = actor
    · simp [same] at member
    · rwa [goto_pc_of_ne same] at member
  | kernel => exact member

theorem Taken.killed (inv : Inv s) (killed : (s'.k.pt.proc self).killed = true) :
    (s.k.pt.proc self).killed = true ∨
      ∃ killer, act = .kernel (.kill killer (s.pid self)) := by
  rcases taken.kernelStep with same | ⟨action, step, origin⟩
  · exact .inl (same ▸ killed)
  · have move := Kernel.step_move (Kernel.step_effect step) inv.kernel.creates self
    rcases Kernel.killed_move move killed with before | ⟨killer, rfl⟩
    · exact .inl before
    · rcases origin with rfl | noKill
      · exact .inr ⟨killer, rfl⟩
      · exact absurd rfl (noKill _ _)

theorem Taken.pid (inv : Inv s) (inv' : Inv s')
    (member : s'.pc self ≠ .outside) : s'.pid self = s.pid self := by
  rcases taken.kernelStep with same | ⟨action, step, -⟩
  · simp only [System.pid, same]
  · have move := Kernel.step_move (Kernel.step_effect step) inv.kernel.creates self
    exact Kernel.pid_kept move (inv.live self (taken.member member)).ne_unused
      (inv'.live self member).ne_unused

end

/-! ## Runs without `kill` -/

/-- Steps without `kill` of a thread: nobody unparks one other than through the
library, and a thread exits where the client calls `exit`. -/
def Calm (s : System) : Act → Prop
  | .kernel (.kill _ pid) | .kernel (.unpark _ pid) =>
    ∀ self, s.pc self ≠ .outside → s.pid self ≠ pid
  | .exit self => s.pc self = .idle
  | _ => True

instance (s : System) (act : Act) : Decidable (s.Calm act) := by
  apply Act.casesOn (motive := fun act => Decidable (s.Calm act)) act
  case kernel =>
    intro action
    apply Action.casesOn (motive := fun action => Decidable (s.Calm (.kernel action))) action <;>
      intros <;> unfold Calm <;> infer_instance
  all_goals intros; unfold Calm; infer_instance

/-- No thread has been killed. -/
def Spared (s : System) : Prop :=
  ∀ self, s.pc self ≠ .outside → (s.k.pt.proc self).killed = false

theorem calm_run (isStart : start.Start) (run : Transition.Run step Calm start trace s) :
    Transition.Run step Benign start trace s := by
  have benign : ∀ {state : System} {act}, state.Spared → state.Calm act →
      state.Benign act := by
    intro state act spared calm
    cases act with
    | run self =>
      intro killed o executes
      simp [spared self (member_of_executes executes)] at killed
    | kernel action =>
      cases action with
      | kill killer pid => exact fun self member isPid => absurd isPid (calm self member)
      | unpark => exact calm
      | _ => trivial
    | call => trivial
    | exit self =>
      have idle : state.pc self = .idle := calm
      simp [Benign, Detached, idle, Pc.spinlock, Pc.waits, Pc.owns, Pc.critical]
  apply run.weaken fun state => Inv state ∧ state.Spared
  · exact ⟨isStart.inv, fun self member => (isStart.thread self member).2.2.2.2.2⟩
  · rintro state act next ⟨inv, spared⟩ calm taken
    have effect := step_taken taken
    refine ⟨inv_step inv (benign spared calm) effect, fun self member => ?_⟩
    by_contra killed
    rcases effect.killed inv (by simpa using killed) with before | ⟨killer, rfl⟩
    · simp [spared self (effect.member member)] at before
    · exact calm self (effect.member member) rfl
  · exact fun harmed calm => benign harmed.2 calm

end User.System

end Xv6
