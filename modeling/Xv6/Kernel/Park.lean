import Xv6.Kernel.Invariant

/-!
# The park protocol

`park` puts a process to sleep without a channel.  Nothing but `unpark` may then
make it runnable, which rests on every wake-up using a channel that is not null;
and `setpark` announces a `park`, so that an `unpark` that comes too early is
noted instead of lost.  `kill` wakes up every sleeper and is left out.
-/

namespace Xv6.Kernel

/-- Steps other than `kill`. -/
def NoKill (_ : Kernel) : Action → Prop
  | .kill _ _ => False
  | _ => True

instance (k : Kernel) (action : Action) : Decidable (NoKill k action) := by
  apply Action.casesOn (motive := fun action => Decidable (NoKill k action)) action <;> intros <;>
    unfold NoKill <;> infer_instance

/-- The combinations of the park flags that occur. -/
structure Parking (entry : Proc) : Prop where
  parked : entry.isParked = true → entry.state = .sleeping ∧ entry.chan = .null ∧
    entry.setPark = false ∧ entry.immediateUnpark = false
  noted : entry.immediateUnpark = true → entry.setPark = true ∧ entry.isParked = false

variable {pid : Int} {self : Slot}

section Step

variable {k k' : Kernel} {slot : Slot} {action : Action} {entry : Proc} {pc : KernelPc}

theorem Parking.awake (parking : Parking entry) (state : entry.state ≠ .sleeping) :
    entry.isParked = false := by
  by_contra parked
  exact state (parking.parked (by simpa using parked)).1

theorem Parking.congr {entry' : Proc} (parking : Parking entry)
    (unparked : entry.isParked = false) (isParked : entry'.isParked = entry.isParked)
    (setPark : entry'.setPark = entry.setPark)
    (immediateUnpark : entry'.immediateUnpark = entry.immediateUnpark) : Parking entry' where
  parked := by simp [isParked, unparked]
  noted := by
    rw [immediateUnpark, setPark, isParked]
    exact parking.noted

theorem exit_chan (wf : Wf k) (here : k.At self .user)
    (other : self ≠ k.pt.initproc) : Chan.ofParent (k.pt.proc self).parent ≠ .null := by
  have parent := wf.parent self other (by simp [here.1]) (by simp [here.1])
  cases isParent : (k.pt.proc self).parent with
  | none => exact absurd isParent parent
  | some parent => simp [Chan.ofParent]

theorem not_exitWakes (wf : Wf k) (here : k.At self .user)
    (other : self ≠ k.pt.initproc) (chan : (k.pt.proc slot).chan = .null) :
    ¬k.pt.ExitWakes self (k.pt.proc slot) := by
  rintro ⟨-, onParent | ⟨onInit, -⟩⟩
  · exact exit_chan wf here other (onParent ▸ chan)
  · rw [chan] at onInit
    cases onInit

/-- A process that sleeps in no system call but `park`. -/
def SleepsParked (entry : Proc) : Prop :=
  entry.chan = .null ∧ (entry.state = .sleeping → entry.isParked = true)

theorem sleepsParked_of_running (wf : Wf k) (running : (k.pt.proc slot).state = .running) :
    SleepsParked (k.pt.proc slot) :=
  ⟨(wf.placed slot).chan_of_running running, by simp [running]⟩

theorem sleepsParked_move (wf : Wf k) (move : Move k k' slot action entry pc)
    (sleep : ∀ object, action ≠ .sleep slot object) (wait : action ≠ .wait slot)
    (join : action ≠ .join slot) (before : SleepsParked (k.pt.proc slot)) : SleepsParked entry := by
  obtain ⟨chan, parked⟩ := before
  cases move with
  | wakes => exact ⟨rfl, nofun⟩
  | resumes | leavesPark | reaped | yields | taken | abandoned | published | exits | unparked
  | woken =>
    exact ⟨chan, nofun⟩
  | @waits _ thread here _ caller =>
    rcases caller with runnable | isWait | isJoin
    · rcases here with ⟨-, place⟩ | here
      · have placed := wf.placed slot
        cases thread <;> simp [Placed, place, scanPc, chan] at placed
      · simp [here.1] at runnable
    · exact absurd isWait wait
    · exact absurd isJoin join
  | sleeps => exact absurd rfl (sleep _)
  | @orphaned self =>
    by_cases woken : k.pt.ExitWakes self (k.pt.proc slot)
    · exact ⟨chan, by simp [woken]⟩
    · exact ⟨chan, by simpa [woken] using parked⟩
  | killed =>
    refine ⟨chan, fun asleep => ?_⟩
    by_cases before : (k.pt.proc slot).state = .sleeping <;> simp [before] at asleep
  | parks => exact ⟨chan, fun _ => rfl⟩
  | _ => exact ⟨chan, parked⟩

theorem parking_move (wf : Wf k) (move : Move k k' slot action entry pc)
    (allowed : ∀ self, action = .kill self (k.pt.proc slot).pid →
      (k.pt.proc slot).isParked = false) (parking : Parking (k.pt.proc slot)) : Parking entry := by
  cases move with
  | stays => exact parking
  | resumes state | wakes state | leavesPark state | reaped state | yields state
  | taken state =>
    exact parking.congr (parking.awake (by simp [state])) rfl rfl rfl
  | waits here =>
    refine parking.congr ?_ rfl rfl rfl
    rcases here with here | here
    · exact parking.awake (by simp [here.1])
    · exact parking.awake (by simp [here.1])
  | exits here | sleeps here | execs here =>
    exact parking.congr (parking.awake (by simp [here.1])) rfl rfl rfl
  | @abandoned _ self _ creating =>
    have embryo := wf.creates self slot creating
    exact parking.congr (parking.awake (by simp [embryo])) rfl rfl rfl
  | @published self here =>
    have embryo := wf.creates self slot (by simp [here.2])
    exact parking.congr (parking.awake (by simp [embryo])) rfl rfl rfl
  | @orphaned self here different other =>
    by_cases woken : k.pt.ExitWakes self (k.pt.proc slot)
    · refine parking.congr ?_ rfl rfl rfl
      by_contra parked
      have chan := (parking.parked (by simpa using parked)).2.1
      exact not_exitWakes wf here other chan woken
    · simp only [if_neg woken]
      exact ⟨parking.parked, parking.noted⟩
  | arms here clear =>
    have awake := parking.awake (by simp [here.1])
    exact ⟨by simp [awake], by simp [clear]⟩
  | parks here clear =>
    exact ⟨fun _ => ⟨rfl, (wf.placed slot).chan_of_running here.1, rfl, clear⟩,
      by simp [clear]⟩
  | skipsPark here =>
    have awake := parking.awake (by simp [here.1])
    exact ⟨by simp [awake], by simp⟩
  | noted isPid set awake => exact ⟨by simp [awake], by simp [set, awake]⟩
  | unparked isPid asleep parked =>
    have clear := (parking.parked parked).2.2.2
    exact ⟨by simp, by simp [clear]⟩
  | @killed self _ found =>
    have isPid := of_decide_eq_true (Table.find_some found)
    exact parking.congr (allowed self (by rw [isPid])) rfl rfl rfl
  | woken asleep chan =>
    refine parking.congr ?_ rfl rfl rfl
    by_contra parked
    simp [(parking.parked (by simpa using parked)).2.1] at chan
  | _ => exact ⟨parking.parked, parking.noted⟩

theorem parking_step (wf : Wf k) (allowed : NoKill k action)
    (taken : k.step action = some k') (parking : ∀ slot, Parking (k.pt.proc slot)) :
    ∀ slot, Parking (k'.pt.proc slot) := by
  intro slot
  refine parking_move wf (step_move (step_effect taken) wf.creates slot) ?_ (parking slot)
  rintro self rfl
  exact allowed.elim

theorem unparked_move (wf : Wf k) (move : Move k k' slot action entry pc)
    (allowed : NoKill k action) (parking : Parking (k.pt.proc slot))
    (parked : (k.pt.proc slot).isParked = true) (runnable : entry.state = .runnable) :
    ∃ self, action = .unpark self (k.pt.proc slot).pid := by
  obtain ⟨asleep, chan, -, -⟩ := parking.parked parked
  cases move with
  | @unparked self _ isPid => exact ⟨self, by rw [isPid]⟩
  | yields state => simp [asleep] at state
  | @published self here => simp [wf.creates self slot (by simp [here.2])] at asleep
  | orphaned here different other =>
    simp [not_exitWakes wf here other chan, asleep] at runnable
  | killed => exact allowed.elim
  | woken _ object => simp [chan] at object
  | resumes | wakes | leavesPark | waits | reaped | taken | abandoned | exits | parks
  | sleeps => cases runnable
  | _ => simp [asleep] at runnable

theorem noted_move (move : Move k k' slot action entry pc) (other : action ≠ .park slot)
    (noted : (k.pt.proc slot).immediateUnpark = true) : entry.immediateUnpark = true := by
  cases move with
  | skipsPark => exact absurd rfl other
  | noted => rfl
  | _ => exact noted

theorem armed_move (move : Move k k' slot action entry pc) (other : action ≠ .park slot)
    (armed : (k.pt.proc slot).setPark = true) : entry.setPark = true := by
  cases move with
  | parks | skipsPark => exact absurd rfl other
  | arms => rfl
  | _ => exact armed

theorem given_step (wf : Wf k) (taken : k.step action = some k')
    (given : 0 < pid ∧ pid < k.pt.nextpid) : 0 < pid ∧ pid < k'.pt.nextpid := by
  rcases pid_step wf (step_effect taken) with ⟨nextpid, -⟩ | ⟨nextpid, -⟩ <;> omega

theorem pid_gone_step (wf : Wf k) (taken : k.step action = some k')
    (given : 0 < pid ∧ pid < k.pt.nextpid) (gone : (k.pt.proc slot).pid ≠ pid) :
    (k'.pt.proc slot).pid ≠ pid := by
  rcases pid_step wf (step_effect taken) with ⟨-, pids⟩ | ⟨-, np, isNew, others⟩
  · rcases pids slot with ⟨same, -⟩ | ⟨zero, -⟩ <;> omega
  · by_cases new : slot = np
    · subst new
      omega
    · rw [others slot new]
      exact gone

end Step

theorem unpark_armed {k : Kernel} {slot : Slot} (wf : Wf k)
    (used : (k.pt.proc slot).pid ≠ 0) (armed : (k.pt.proc slot).setPark = true)
    (awake : (k.pt.proc slot).isParked = false) :
    ((k.pt.unpark (k.pt.proc slot).pid).1.proc slot).immediateUnpark = true := by
  have found : Table.find (fun other => decide
      ((k.pt.proc other).pid = (k.pt.proc slot).pid)) = some slot := by
    apply Table.find_unique
    · simp
    · intro other same
      exact (wf.pidUnique slot other (of_decide_eq_true same).symm used).symm
  simp [Ptable.unpark, found, armed, awake]

theorem setpark_succeeds {k k' : Kernel}
    (taken : k.step (.setpark self) = some k') (succeeds : (k.pt.setpark self).2 = 0) :
    (k.pt.proc self).state = .running ∧ (k'.pt.proc self).setPark = true := by
  simp only [step, call, Option.ite_none_right_eq_some, Option.some.injEq] at taken
  obtain ⟨here, rfl⟩ := taken
  refine ⟨here.1, ?_⟩
  unfold Ptable.setpark at succeeds ⊢
  split
  · simp
  next set => simp [set] at succeeds

section Run

variable {start k k' : Kernel} {trace : List (Kernel × Action)}
  {guard : Kernel → Action → Prop} {target : Slot}

theorem armed_run (wf : Wf start) (run : Transition.Run step guard start trace k)
    (noPark : ∀ entry ∈ trace, entry.2 ≠ .park target) :
    ((start.pt.proc target).setPark = true → (k.pt.proc target).setPark = true) ∧
      ((start.pt.proc target).immediateUnpark = true →
        (k.pt.proc target).immediateUnpark = true) := by
  apply And.right (a := Wf k)
  apply (run.restrict (fun _ action => action ≠ .park target) noPark).stateInvariant
  · exact ⟨wf, id, id⟩
  · rintro state action next ⟨wf, armed, noted⟩ allowed taken
    have move := step_move (step_effect taken) wf.creates target
    exact ⟨wf_step wf taken, fun before => armed_move move allowed.2 (armed before),
      fun before => noted_move move allowed.2 (noted before)⟩

theorem given_run (wf : Wf start) (run : Transition.Run step guard start trace k)
    (given : 0 < pid ∧ pid < start.pt.nextpid) : 0 < pid ∧ pid < k.pt.nextpid := by
  apply And.right (a := Wf k)
  apply run.stateInvariant
  · exact ⟨wf, given⟩
  · rintro state action next ⟨wf, given⟩ _ taken
    exact ⟨wf_step wf taken, given_step wf taken given⟩

theorem pid_run (wf : Wf start)
    (run : Transition.Run step guard start trace k) (given : 0 < pid ∧ pid < start.pt.nextpid)
    (gone : (start.pt.proc target).pid ≠ pid) : (k.pt.proc target).pid ≠ pid := by
  apply And.right (a := Wf k ∧ 0 < pid ∧ pid < k.pt.nextpid)
  apply run.stateInvariant
  · exact ⟨⟨wf, given⟩, gone⟩
  · rintro state action next ⟨⟨wf, given⟩, gone⟩ _ taken
    exact ⟨⟨wf_step wf taken, given_step wf taken given⟩, pid_gone_step wf taken given gone⟩

theorem parking_run (wf : Wf start) (parking : ∀ slot, Parking (start.pt.proc slot))
    (run : Transition.Run step NoKill start trace k) : Wf k ∧ ∀ slot, Parking (k.pt.proc slot) := by
  apply run.stateInvariant
  · exact ⟨wf, parking⟩
  · rintro state action next ⟨wf, parking⟩ allowed taken
    exact ⟨wf_step wf taken, parking_step wf allowed taken parking⟩

theorem parking_boot (boot : Boot start) (slot : Slot) : Parking (start.pt.proc slot) := by
  obtain ⟨-, -, -, kstack, pgdir, -, -, -, first, others, -⟩ := boot_table boot
  by_cases zero : slot = 0
  · rw [zero, first]
    exact ⟨by simp [initcode], by simp [initcode]⟩
  · rw [others slot zero]
    exact ⟨by simp, by simp⟩

theorem noted_run {armed noted : Kernel} {caller : Slot}
    {before between after : List (Kernel × Action)} (boot : Boot start)
    (run : Transition.Run step NoKill start
      (before ++ (armed, .setpark target) :: (between ++ (noted, .unpark caller pid) :: after))
      k) (succeeds : (armed.pt.setpark target).2 = 0) (isPid : (armed.pt.proc target).pid = pid)
    (still : (k.pt.proc target).pid = pid)
    (noPark : ∀ entry ∈ between ++ after, entry.2 ≠ .park target) :
    (k.pt.proc target).immediateUnpark = true := by
  obtain ⟨first, allowed, set, armedStep, rest⟩ := run.split
  obtain ⟨middle, unparkAllowed, woken, unparkStep, last⟩ := rest.split
  obtain ⟨wf, parking⟩ := parking_run (wf_boot boot) (parking_boot boot) first
  have wfSet := wf_step wf armedStep
  obtain ⟨wfNoted, parkingNoted⟩ :=
    parking_run wfSet (parking_step wf allowed armedStep parking) middle
  obtain ⟨running, setPark⟩ := setpark_succeeds armedStep succeeds
  have nonzero : (armed.pt.proc target).pid ≠ 0 := wf.pidUsed target (by simp [running])
  have given : 0 < pid ∧ pid < armed.pt.nextpid := by
    have := wf.pidBound target
    omega
  have givenNoted := given_run wfSet middle (given_step wf armedStep given)
  have isPidNoted : (noted.pt.proc target).pid = pid := by
    by_contra gone
    have tail := (Transition.Run.snoc .nil unparkAllowed unparkStep).append last
    exact pid_run wfNoted tail givenNoted gone still
  have armedNoted : (noted.pt.proc target).setPark = true :=
    (armed_run wfSet middle fun entry member =>
      noPark entry (List.mem_append_left _ member)).1 setPark
  have awake : (noted.pt.proc target).isParked = false := by
    by_contra parked
    have := ((parkingNoted target).parked (by simpa using parked)).2.2.1
    simp [armedNoted] at this
  have immediate : (woken.pt.proc target).immediateUnpark = true := by
    simp only [step, call, Option.ite_none_right_eq_some, Option.some.injEq] at unparkStep
    rw [← unparkStep.2, ← isPidNoted]
    exact unpark_armed wfNoted (by omega) armedNoted awake
  exact (armed_run (wf_step wfNoted unparkStep) last fun entry member =>
    noPark entry (List.mem_append_right _ member)).2 immediate

/-- Once a slot has a pid, `allocproc` never gives that pid out again, and a slot that has it
later is the same one and has kept it at every step in between. -/
theorem pid_names_one_process {slot : Slot} (reachable : Reachable guard k)
    (run : Transition.Run step guard k trace k') (nonzero : (k.pt.proc slot).pid ≠ 0) :
    (∀ np pt, k'.pt.allocproc = some (np, pt) → (pt.proc np).pid ≠ (k.pt.proc slot).pid) ∧
    ∀ target, (k'.pt.proc target).pid = (k.pt.proc slot).pid →
      target = slot ∧ ∀ entry ∈ trace, (entry.1.pt.proc slot).pid = (k.pt.proc slot).pid := by
  have wf := reachable.wf
  obtain ⟨positive, bound⟩ := wf.pidBound slot
  have given : 0 < (k.pt.proc slot).pid ∧ (k.pt.proc slot).pid < k.pt.nextpid :=
    ⟨by omega, bound⟩
  constructor
  · intro np pt allocated
    rw [(Ptable.allocproc_some allocated).2.1]
    exact (given_run wf run given).2.ne'
  · intro target same
    have here : target = slot := by
      by_contra different
      refine pid_run wf run given (fun kept => ?_) same
      exact different (wf.pidUnique target slot kept (kept ▸ nonzero))
    refine ⟨here, fun entry member => ?_⟩
    obtain ⟨before, after, rfl⟩ := List.append_of_mem member
    obtain ⟨first, -, middle, taken, rest⟩ := run.split
    have wfEntry : Wf entry.1 := first.stateInvariant wf fun wf _ taken => wf_step wf taken
    have givenEntry := given_run wf first given
    by_contra gone
    exact pid_run (wf_step wfEntry taken) rest (given_step wfEntry taken givenEntry)
      (pid_gone_step wfEntry taken givenEntry gone) (here ▸ same)

/-- Pid 2 is the first child: later it is the pid of slot 1 or of none, and not given out. -/
theorem pid_names_one_process_child : ∃ k, Reachable NoKill k ∧ ∀ trace k',
    Transition.Run step NoKill k trace k' →
      (∀ np pt, k'.pt.allocproc = some (np, pt) → (pt.proc np).pid ≠ 2) ∧
      ∀ target, (k'.pt.proc target).pid = 2 → target = 1 := by
  obtain ⟨k, reachable, isPid⟩ : ∃ k, Reachable NoKill k ∧ (k.pt.proc 1).pid = 2 :=
    reachable_exec withChild (by decide +kernel) (by decide +kernel)
  refine ⟨k, reachable, fun trace k' run => ?_⟩
  have nonzero : (k.pt.proc 1).pid ≠ 0 := by simp [isPid]
  have named := pid_names_one_process reachable run nonzero
  rw [isPid] at named
  exact ⟨named.1, fun target same => (named.2 target same).1⟩

end Run

/-- The park protocol without `kill`: how the flags go together, that a parked
process is woken up by an `unpark` of its pid and by nothing else, that `exit`
never wakes up the null channel, and that an `unpark` between `setpark` and
`park` makes that `park` return at once. -/
theorem park_protocol {start k : Kernel} {trace : List (Kernel × Action)}
    (boot : Boot start) (run : Transition.Run step NoKill start trace k) :
    (∀ slot, (k.pt.proc slot).isParked = true →
      (k.pt.proc slot).state = .sleeping ∧ (k.pt.proc slot).chan = .null ∧
        (k.pt.proc slot).setPark = false ∧ (k.pt.proc slot).immediateUnpark = false) ∧
    (∀ slot, (k.pt.proc slot).immediateUnpark = true →
      (k.pt.proc slot).setPark = true ∧ (k.pt.proc slot).isParked = false) ∧
    (∀ slot action k', NoKill k action → k.step action = some k' →
      (k.pt.proc slot).isParked = true → (k'.pt.proc slot).state = .runnable →
      ∃ self, action = .unpark self (k.pt.proc slot).pid) ∧
    (∀ self k', k.step (.exit self) = some k' →
      Chan.ofParent (k.pt.proc self).parent ≠ .null) ∧
    (∀ target caller pid armed noted before between after k',
      trace = before ++ (armed, .setpark target) ::
        (between ++ (noted, .unpark caller pid) :: after) →
      (armed.pt.setpark target).2 = 0 → (armed.pt.proc target).pid = pid →
      (∀ entry ∈ between ++ after, entry.2 ≠ .park target) →
      (k.pt.proc target).pid = pid → k.step (.park target) = some k' →
      k'.At target .user) := by
  obtain ⟨wf, parking⟩ := parking_run (wf_boot boot) (parking_boot boot) run
  refine ⟨fun slot => (parking slot).parked, fun slot => (parking slot).noted, ?_, ?_, ?_⟩
  · intro slot action k' allowed taken parked runnable
    have move := step_move (step_effect taken) wf.creates slot
    exact unparked_move wf move allowed (parking slot) parked runnable
  · intro self k' taken
    simp only [step, call, Option.ite_none_left_eq_some, Option.ite_none_right_eq_some]
      at taken
    exact exit_chan wf taken.2.1 taken.1
  · rintro target caller pid armed noted before between after k' rfl succeeds isPid noPark
      still taken
    have pending := noted_run boot run succeeds isPid still noPark
    simp only [step, Option.ite_none_right_eq_some, Option.some.injEq] at taken
    obtain ⟨here, rfl⟩ := taken
    constructor
    · simp [Ptable.park, pending, here.1]
    · simp [Ptable.park, pending, here.1]

/-- A child announces a `park`, is unparked and parks. -/
theorem park_protocol_unparked_early :
    ∃ k k', Reachable NoKill k ∧ k.step (.park 1) = some k' ∧ k'.At 1 .user := by
  obtain ⟨armed, ⟨start, before, boot, run⟩, succeeds, isPid, met⟩ :
      ∃ k, Reachable NoKill k ∧ (k.pt.setpark 1).2 = 0 ∧ (k.pt.proc 1).pid = 2 ∧
        (k.step (.setpark 1)).any (fun noted => (noted.step (.unpark 0 2)).any fun k =>
          decide ((k.pt.proc 1).pid = 2) && (k.step (.park 1)).isSome) = true :=
    reachable_exec withChild (by decide +kernel) (by decide +kernel)
  simp only [Option.any_eq_true, Bool.and_eq_true, decide_eq_true_eq,
    Option.isSome_iff_exists] at met
  obtain ⟨noted, armedStep, k, unparkStep, still, k', parkStep⟩ := met
  have announced : Transition.Run step NoKill start _ noted := .snoc run (by trivial) armedStep
  have whole : Transition.Run step NoKill start _ k := .snoc announced (by trivial) unparkStep
  refine ⟨k, k', ⟨start, _, boot, whole⟩, parkStep, ?_⟩
  exact (park_protocol boot whole).2.2.2.2 1 0 2 armed noted before [] [] k' (by simp)
    succeeds isPid (by simp) still parkStep

end Xv6.Kernel
