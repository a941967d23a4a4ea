import Xv6.Kernel.SmpSafety

/-!
# No wake-up is lost

A process that calls `sleep(chan, lk)` holds `lk` until it has `ptable.lock`, and
`ptable.lock` until it is off its processor.  A waker that holds `lk` therefore
finds the process before the call or asleep on `chan`, never between the two.

The calls of `sleep` are those of `sleep(chan, lk)` for a lock other than
`ptable.lock`, and those under `ptable.lock`, of which `wait` and `join` are the
instances in the kernel.  A wake-up is a run of `wakeup1`: in `wakeup`, called by a
process or an interrupt handler, in `exit`, or in other code under `ptable.lock`.
-/

namespace Xv6.Smp

variable {Cpu Lock : Type}

/-- The sites inside `sleep`. -/
def Site.sleeps : Site Lock → Bool
  | .sleep _ | .wait | .join => true
  | _ => false

/-- The places at which a process's channel is null: all but those in `sleep`
between the assignment to `chan` and its removal. -/
def Phase.quiet : Phase Lock → Bool
  | .swtch site | .back site => !site.sleeps
  | _ => true

/-- The places in `sleep` before the process is asleep. -/
def Phase.dozing : Phase Lock → Bool
  | .enter (.sleep _ _) | .unlock _ _ | .doze _ _ => true
  | _ => false

namespace Machine

/-- The process `self` of a processor calls `sleep(chan, lk)`, a null lock standing
for `ptable.lock`. -/
inductive SleepCall (m : Machine Cpu Lock) (c : Cpu) (caller : Slot) :
    Choice Lock → Chan → Option Lock → Prop where
  | sleep (chan : Chan) (lk : Lock) (pc : (m.cpu c).pc = .exec .run) :
      SleepCall m c caller (.call (.sleep chan lk)) chan (some lk)
  | held (chan : Chan) (pc : (m.cpu c).pc = .exec .held) :
      SleepCall m c caller (.sleep chan) chan none
  | wait (pc : (m.cpu c).pc = .exec (.body .wait))
      (sleeps : (m.pt.waitScan caller).2 = .sleeps) :
      SleepCall m c caller .next (.proc caller) none
  | join (pc : (m.cpu c).pc = .exec (.body .join))
      (sleeps : (m.pt.joinScan caller).2 = .sleeps) :
      SleepCall m c caller .next (.proc caller) none

/-- The call of `sleep` that a step makes, with its arguments. -/
def sleepCall (m : Machine Cpu Lock) (c : Cpu) (caller : Slot) (choice : Choice Lock) :
    Option (Chan × Option Lock) :=
  match (m.cpu c).pc, choice with
  | .exec .run, .call (.sleep chan lk) => some (chan, some lk)
  | .exec .held, .sleep chan => some (chan, none)
  | .exec (.body .wait), .next =>
    if (m.pt.waitScan caller).2 = .sleeps then some (.proc caller, none) else none
  | .exec (.body .join), .next =>
    if (m.pt.joinScan caller).2 = .sleeps then some (.proc caller, none) else none
  | _, _ => none

variable {chan : Chan} {lk : Option Lock}

theorem sleepCall_eq_some {m : Machine Cpu Lock} {c : Cpu} {caller : Slot} {choice : Choice Lock} :
    m.sleepCall c caller choice = some (chan, lk) ↔ SleepCall m c caller choice chan lk := by
  constructor
  · intro calls
    unfold sleepCall at calls
    split at calls
    next pc =>
      cases calls
      exact .sleep _ _ pc
    next pc =>
      cases calls
      exact .held _ pc
    next pc =>
      split at calls
      next sleeps =>
        cases calls
        exact .wait pc sleeps
      next => cases calls
    next pc =>
      split at calls
      next sleeps =>
        cases calls
        exact .join pc sleeps
      next => cases calls
    next => cases calls
  · intro call
    cases call with
    | sleep _ _ pc | held _ pc => simp [sleepCall, pc]
    | wait pc sleeps | join pc sleeps => simp [sleepCall, pc, sleeps]

/-- A processor runs `wakeup1(chan)`. -/
inductive WakeCall (m : Machine Cpu Lock) (c : Cpu) : Choice Lock → Chan → Prop where
  | wakeup (chan : Chan) (pc : (m.cpu c).pc = .exec (.body (.wakeup chan))) :
      WakeCall m c .next chan
  | held (chan : Chan) (pc : (m.cpu c).pc = .exec .held) : WakeCall m c (.wakeup1 chan) chan
  | interrupt (chan : Chan) (pc : (m.cpu c).pc = .irqBody chan) : WakeCall m c .next chan
  | exit (caller : Slot) (on : (m.cpu c).proc = some caller)
      (pc : (m.cpu c).pc = .exec (.body .exit)) :
      WakeCall m c .next (Chan.ofParent (m.pt.proc caller).parent)
  | inherit (caller child : Slot) (on : (m.cpu c).proc = some caller)
      (pc : (m.cpu c).pc = .exec (.body .exit))
      (parent : (m.pt.proc child).parent = some caller)
      (dead : (m.pt.proc child).state = .zombie) :
      WakeCall m c .next (.proc m.pt.initproc)

/-- A processor holds a lock. -/
def Holds (m : Machine Cpu Lock) (c : Cpu) : Option Lock → Prop
  | none => m.ptlock = some c
  | some lk => m.lock lk = some c

/-- A process is asleep on a channel. -/
def SleepsOn (m : Machine Cpu Lock) (slot : Slot) (chan : Chan) : Prop :=
  (m.pt.proc slot).state = .sleeping ∧ (m.pt.proc slot).chan = chan

/-- A step by which a process calls `sleep`. -/
def CallsSleep (slot : Slot) (m : Machine Cpu Lock) (action : Cpu × Choice Lock) : Prop :=
  (m.cpu action.1).proc = some slot ∧
    ∃ chan lk, SleepCall m action.1 slot action.2 chan lk

instance (slot : Slot) (m : Machine Cpu Lock) (action : Cpu × Choice Lock) :
    Decidable (CallsSleep slot m action) :=
  decidable_of_iff ((m.cpu action.1).proc = some slot ∧
    (m.sleepCall action.1 slot action.2).isSome = true) (by
      rw [CallsSleep, and_congr_right_iff, Option.isSome_iff_exists]
      intro _
      simp only [Prod.exists, sleepCall_eq_some])

/-- The next step of a processor is the last one of its process's `sleep`. -/
inductive SleepReturns (m : Machine Cpu Lock) (c : Cpu) : Option Lock → Prop where
  | relock (lk : Lock) (pc : (m.cpu c).pc = .exec (.relock lk)) : SleepReturns m c (some lk)
  | back (site : Site Lock) (pc : (m.cpu c).pc = .exec (.back site))
      (within : site = .sleep none ∨ site = .wait ∨ site = .join) : SleepReturns m c none

/-! ## The steps of a process -/

/-- How a process moves on: into `sleep`, through it, out of it, or elsewhere. -/
inductive Goes (m : Machine Cpu Lock) (c : Cpu) (self : Slot) (choice : Choice Lock)
    (after : Proc) : Phase Lock → Phase Lock → Prop where
  | calls (chan : Chan) (lk : Lock)
      (call : SleepCall m c self choice chan (some lk))
      (same : after.chan = (m.pt.proc self).chan) :
      Goes m c self choice after .run (.enter (.sleep chan lk))
  | enters (chan : Chan) (lk : Lock)
      (same : after.chan = (m.pt.proc self).chan) :
      Goes m c self choice after (.enter (.sleep chan lk)) (.unlock chan lk)
  | unlocks (chan : Chan) (lk : Lock)
      (same : after.chan = (m.pt.proc self).chan) :
      Goes m c self choice after (.unlock chan lk) (.doze chan (.sleep (some lk)))
  | keeps (phase : Phase Lock) (chan : Chan) (site : Site Lock) (sleeps : site.sleeps = true)
      (call : SleepCall m c self choice chan none) (quiet : phase.quiet = true)
      (same : after.chan = (m.pt.proc self).chan) :
      Goes m c self choice after phase (.doze chan site)
  | dozes (chan : Chan) (site : Site Lock) (asleep : after.state = .sleeping) :
      Goes m c self choice after (.doze chan site) (.swtch site)
  | wakes (site : Site Lock) (phase : Phase Lock) (sleeps : site.sleeps = true)
      (quiet : phase.quiet = true) (awake : phase.dozing = false)
      (clear : after.chan = .null) :
      Goes m c self choice after (.back site) phase
  | other (phase phase' : Phase Lock) (quiet : phase.quiet = true)
      (quiet' : phase'.quiet = true) (awake : phase'.dozing = false)
      (same : after.chan = (m.pt.proc self).chan) :
      Goes m c self choice after phase phase'

variable {phase : Phase Lock} {action : Cpu × Choice Lock} {other : Cpu} {slot : Slot}
  {call : Call Lock} {pt : Ptable}

section Own

variable [DecidableEq Cpu] [DecidableEq Lock]
  {m m' : Machine Cpu Lock} {c : Cpu} {self : Slot} {choice : Choice Lock} {pc : CpuPc Lock}
  {lk : Lock}

/-- The processor still has its process, which is at another place. -/
def Moves (m m' : Machine Cpu Lock) (c : Cpu) (self : Slot) (choice : Choice Lock)
    (phase : Phase Lock) : Prop :=
  (m'.cpu c).proc = some self ∧
    ((∃ site, phase = .swtch site ∧ (m'.cpu c).pc = .returned ∧ m'.context self = site ∧
        m'.pt = m.pt) ∨
      ∃ phase', (m'.cpu c).pc = .exec phase' ∧
        Goes m c self choice (m'.pt.proc self) phase phase')

section
variable (on : (m.cpu c).proc = some self) {phase' : Phase Lock}
include on

section
omit [DecidableEq Lock]

theorem moves_goto (goes : Goes m c self choice (m.pt.proc self) phase phase') :
    Moves m (m.goto c (.exec phase')) c self choice phase :=
  ⟨by simpa [goto] using on, .inr ⟨phase', by simp [goto], goes⟩⟩

theorem moves_table (goes : Goes m c self choice (pt.proc self) phase phase') :
    Moves m (m.table c pt phase') c self choice phase :=
  ⟨by simpa [table, goto] using on, .inr ⟨phase', by simp [table, goto], goes⟩⟩

/-- `acquire` and `release` of any lock. -/
theorem moves_locks {cond : Prop} {_ : Decidable cond} {locked : Machine Cpu Lock} {ncli : Nat}
    (taken : (if cond then
        some (locked.setCpu c { m.cpu c with pc := .exec phase', ncli := ncli })
      else none) = some m') (same : locked.pt = m.pt)
    (goes : Goes m c self choice (m.pt.proc self) phase phase') :
    Moves m m' c self choice phase := by
  simp only [Option.ite_none_right_eq_some, Option.some.injEq] at taken
  obtain ⟨-, rfl⟩ := taken
  exact ⟨by simpa using on, .inr ⟨phase', by simp, by simpa [same] using goes⟩⟩

theorem moves_body (pc : (m.cpu c).pc = .exec (.body call)) (next : choice = .next)
    (running : (m.pt.proc self).state = .running)
    (taken : m.body c self call = some m') : Moves m m' c self choice (.body call) := by
  have touched : ∀ {pt : Ptable}, (∀ slot, Touch (m.pt.proc slot) (pt.proc slot)) →
      Moves m (m.table c pt .leave) c self choice (.body call) :=
    fun touch => moves_table on (.other _ _ rfl rfl rfl (touch self).chan)
  subst next
  cases call with
  | yield =>
    cases taken
    exact moves_table on (.other _ _ rfl rfl rfl (by simp [Ptable.yield]))
  | sleep chan lk => cases taken
  | wakeup chan =>
    cases taken
    exact touched (m.pt.touch_wakeup chan)
  | setpark =>
    cases taken
    exact touched (m.pt.touch_setpark self)
  | park =>
    cases taken
    have same : ((m.pt.park self).proc self).chan = (m.pt.proc self).chan := by
      simp only [Ptable.park, Ptable.modify_self]
      split <;> rfl
    split
    next => exact moves_table on (.other _ _ rfl rfl rfl same)
    next => exact moves_table on (.other _ _ rfl rfl rfl same)
  | unpark pid =>
    cases taken
    exact touched (m.pt.touch_unpark pid)
  | kill pid =>
    cases taken
    exact touched (m.pt.touch_kill pid)
  | exit =>
    simp only [body] at taken
    split at taken
    next => cases taken
    next =>
      cases taken
      exact moves_table on (.other _ _ rfl rfl rfl (by simp [Ptable.exit_self]))
  | wait =>
    simp only [body, scanned] at taken
    split at taken
    next sleeps =>
      cases taken
      exact moves_goto on (.keeps _ _ _ rfl (.wait pc sleeps) rfl rfl)
    next awake =>
      cases taken
      exact touched (Ptable.touch_waitScan awake)
  | join =>
    simp only [body, scanned] at taken
    split at taken
    next sleeps =>
      cases taken
      exact moves_goto on (.keeps _ _ _ rfl (.join pc sleeps) rfl rfl)
    next awake =>
      cases taken
      exact touched (Ptable.touch_joinScan awake)
  | spawn kind =>
    simp only [body] at taken
    split at taken
    next =>
      split at taken
      next =>
        cases taken
        exact moves_goto on (.other _ _ rfl rfl rfl rfl)
      next np pt allocated =>
        cases taken
        obtain ⟨free, -, others⟩ := Ptable.allocproc_some allocated
        have apart : self ≠ np := by
          rintro rfl
          rw [free] at running
          cases running
        refine ⟨by simpa [table, goto, setPlace] using on,
          .inr ⟨.leave, by simp [table, goto, setPlace], .other _ _ rfl rfl rfl ?_⟩⟩
        exact congrArg Proc.chan (others self apart)
    next => cases taken
  | locked => cases taken

theorem moves_resume {site : Site Lock}
    (taken : m.resume c self site = some m') : Moves m m' c self choice (.back site) := by
  have awakes : ∀ {phase : Phase Lock}, site.sleeps = true → phase.quiet = true →
      phase.dozing = false →
      Moves m (m.table c (m.pt.awake self) phase) c self choice (.back site) :=
    fun sleeps quiet awake =>
      moves_table on (.wakes _ _ sleeps quiet awake (by simp [Ptable.awake]))
  cases site with
  | forkret | yield | park =>
    cases taken
    exact moves_goto on (.other _ _ rfl rfl rfl rfl)
  | sleep lk =>
    cases lk with
    | none =>
      cases taken
      exact awakes rfl rfl rfl
    | some lk =>
      cases taken
      exact awakes rfl rfl rfl
  | wait | join =>
    cases taken
    exact awakes rfl rfl rfl
  | exit => cases taken

end

end

theorem moves_outside (ok : m.Ok) (on : (m.cpu c).proc = some self)
    (pc : (m.cpu c).pc = .exec .run) (taken : m.outside c self choice = some m') :
    Moves m m' c self choice .run := by
  unfold outside at taken
  split at taken
  next call =>
    split at taken
    next =>
      cases taken
      cases call with
      | sleep chan lk => exact moves_goto on (.calls chan lk (.sleep chan lk pc) rfl)
      | _ => exact moves_goto on (.other _ _ rfl rfl rfl rfl)
    next => cases taken
  next lk => exact moves_locks on taken rfl (.other _ _ rfl rfl rfl rfl)
  next lk => exact moves_locks on taken rfl (.other _ _ rfl rfl rfl rfl)
  next =>
    cases stretch_spawning taken with
    | mk np pt place context creates built goes saved =>
      have apart : self ≠ np := by
        rintro rfl
        have running := ((ok.cpus c).running self on).mpr (by rw [pc]; rfl)
        exact ok.embryo_not_running creates running
      refine ⟨by simpa [table, goto, setPlace] using on,
        .inr ⟨.run, by simp [table, goto, setPlace], .other _ _ rfl rfl rfl ?_⟩⟩
      exact congrArg Proc.chan (built.others self apart)

theorem Ok.moves (ok : m.Ok) (on : (m.cpu c).proc = some self)
    (pc : (m.cpu c).pc = .exec phase) (taken : m.step (c, choice) = some m') :
    Moves m m' c self choice phase := by
  have running := ((ok.cpus c).running self on).mpr
  simp only [Machine.step, pc, on] at taken
  rw [pc] at running
  unfold exec at taken
  split at taken
  next => exact moves_outside ok on pc taken
  next call =>
    cases call with
    | sleep chan lk => exact moves_locks on taken rfl (.enters chan lk rfl)
    | _ => exact moves_locks on taken rfl (.other _ _ rfl rfl rfl rfl)
  next call => exact moves_body on pc rfl (running rfl) taken
  next chan lk => exact moves_locks on taken rfl (.unlocks chan lk rfl)
  next chan site =>
    cases taken
    exact moves_table on (.dozes chan site (by simp [Ptable.sleep]))
  next site =>
    unfold sched at taken
    split at taken
    next =>
      cases taken
      exact ⟨by simpa [goto] using on, .inl ⟨site, rfl, by simp [goto], by simp [goto], rfl⟩⟩
    next => cases taken
  next site => exact moves_resume on taken
  next => exact moves_locks on taken rfl (.other _ _ rfl rfl rfl rfl)
  next chan =>
    cases taken
    exact moves_table on (.other _ _ rfl rfl rfl (m.pt.touch_wakeup chan self).chan)
  next chan =>
    cases taken
    exact moves_goto on (.keeps _ chan _ rfl (.held chan pc) rfl rfl)
  next => exact moves_locks on taken rfl (.other _ _ rfl rfl rfl rfl)
  next lk => exact moves_locks on taken rfl (.other _ _ rfl rfl rfl rfl)
  next lk => exact moves_locks on taken rfl (.other _ _ rfl rfl rfl rfl)
  next => cases taken

omit [DecidableEq Lock] in
/-- Where a processor goes that takes or releases a lock. -/
theorem pc_of_locks {test : Prop} [Decidable test] {base : Machine Cpu Lock} {cpu : CpuState Lock}
    (taken : (if test then some (base.setCpu c cpu) else none) = some m') :
    (m'.cpu c).pc = cpu.pc := by
  simp only [Option.ite_none_right_eq_some, Option.some.injEq] at taken
  rw [← taken.2, setCpu_self]

omit [DecidableEq Lock] in
theorem scan_dispatches {index : Nat}
    (taken : m.scan c index = some m') (pc : (m'.cpu c).pc = .exec phase) :
    ∃ slot, (m.pt.proc slot).state = .runnable ∧ (m'.cpu c).proc = some slot ∧
      phase = .back (m.context slot) := by
  unfold scan at taken
  split at taken
  next bound =>
    split at taken
    next =>
      cases taken
      simp [goto] at pc
    next ready =>
      cases taken
      simp only [setCpu_self, CpuPc.exec.injEq] at pc
      exact ⟨⟨index, bound⟩, not_not.mp ready, by simp, pc.symm⟩
  next =>
    rw [pc_of_locks taken] at pc
    cases pc

theorem step_dispatches (idle : ∀ phase, (m.cpu c).pc ≠ .exec phase)
    (taken : m.step (c, choice) = some m') (pc : (m'.cpu c).pc = .exec phase) :
    ∃ slot index, (m.cpu c).pc = .scan index ∧ (m.pt.proc slot).state = .runnable ∧
      (m'.cpu c).proc = some slot ∧ phase = .back (m.context slot) := by
  generalize here : (m.cpu c).pc = place at taken idle
  simp only [step, here] at taken
  split at taken
  next =>
    rw [pc_of_locks taken] at pc
    cases pc
  next =>
    cases taken
    simp [goto] at pc
  next =>
    simp only [Option.ite_none_right_eq_some, Option.some.injEq] at taken
    rw [← taken.2] at pc
    simp [goto] at pc
  next =>
    cases taken
    simp [goto] at pc
  next =>
    rw [pc_of_locks taken] at pc
    cases pc
  next =>
    rw [pc_of_locks taken] at pc
    cases pc
  next =>
    rw [pc_of_locks taken] at pc
    cases pc
  next =>
    cases taken
    simp [goto] at pc
  next =>
    rw [pc_of_locks taken] at pc
    cases pc
  next index =>
    obtain ⟨slot, ready, on, goes⟩ := scan_dispatches taken pc
    exact ⟨slot, index, rfl, ready, on, goes⟩
  next =>
    cases taken
    simp [returned] at pc
  next phase => exact absurd rfl (idle phase)
  next => cases taken

end Own

/-! ## Channels -/

section Channels

variable {m m' : Machine Cpu Lock}

/-- The states of a slot without a process that can run. -/
def Dormant (entry : Proc) : Prop :=
  entry.state = .unused ∨ entry.state = .embryo ∨ entry.state = .zombie

/-- A slot whose process is not on a processor, or has just left it. -/
def Saved (m : Machine Cpu Lock) (slot : Slot) : Prop :=
  ∀ c phase, (m.cpu c).proc = some slot → (m.cpu c).pc ≠ .exec phase

/-- Outside `sleep` the channel of a process is null. -/
structure Quiet (m : Machine Cpu Lock) : Prop where
  exec : ∀ c self phase, (m.cpu c).proc = some self → (m.cpu c).pc = .exec phase →
    phase.quiet = true → (m.pt.proc self).chan = .null
  saved : ∀ slot, m.Saved slot → (m.context slot).sleeps = false →
    (m.pt.proc slot).chan = .null
  dormant : ∀ slot, Dormant (m.pt.proc slot) → (m.pt.proc slot).chan = .null
  doze : ∀ c chan site, (m.cpu c).pc = .exec (.doze chan site) → site.sleeps = true

/-- What a step does to a process that its processor does not have. -/
structure Slack (m m' : Machine Cpu Lock) (slot : Slot) : Prop where
  chan : (m'.pt.proc slot).chan = (m.pt.proc slot).chan
  asleep : (m'.pt.proc slot).state = .sleeping → (m.pt.proc slot).state = .sleeping
  dormant : Dormant (m'.pt.proc slot) → Dormant (m.pt.proc slot)
  context : m'.context slot = m.context slot ∨ (m.pt.proc slot).state = .embryo

theorem Slack.of_touch (touch : Touch (m.pt.proc slot) (m'.pt.proc slot))
    (context : m'.context slot = m.context slot) : Slack m m' slot := by
  refine ⟨touch.chan, ?_, ?_, .inl context⟩
  · intro asleep
    rcases touch.state with same | ⟨-, woken⟩ | ⟨-, freed⟩
    · exact same ▸ asleep
    · rw [woken] at asleep
      cases asleep
    · rw [freed] at asleep
      cases asleep
  · intro dormant
    rcases touch.state with same | ⟨-, woken⟩ | ⟨dead, -⟩
    · unfold Dormant at dormant ⊢
      rwa [same] at dormant
    · simp [Dormant, woken] at dormant
    · exact .inr (.inr dead)

variable [DecidableEq Cpu] [DecidableEq Lock] {c : Cpu} {self : Slot} {choice : Choice Lock}
  {state : CpuState Lock}

theorem Effect.slack (ok : m.Ok) (effect : Effect m c state m')
    (elsewhere : (m.cpu c).proc ≠ some slot) : Slack m m' slot := by
  cases effect with
  | plain | acquirePt | releasePt | acquire | release | remove =>
    exact ⟨rfl, id, id, .inl rfl⟩
  | table pt proc similar held holds kept => exact .of_touch (kept.others slot elsewhere) rfl
  | stop acting site pt on proc held runs pc stopped =>
    refine .of_touch (stopped.others slot ?_) rfl
    rintro rfl
    exact elsewhere on
  | sched acting site on pc proc back =>
    refine ⟨rfl, id, id, .inl ?_⟩
    have apart : slot ≠ acting := by
      rintro rfl
      exact elsewhere on
    simp [apart]
  | dispatch chosen index pc ready proc back =>
    by_cases same : slot = chosen
    · subst same
      exact ⟨by simp [Ptable.dispatch], by simp [Ptable.dispatch],
        by simp [Ptable.dispatch, Dormant], .inl rfl⟩
    · refine .of_touch ?_ rfl
      simp only [setCpu_pt, Ptable.dispatch, Ptable.modify_of_ne same]
      exact .refl _
  | spawn acting np kind pt on pc allocated proc leaves =>
    obtain ⟨free, taken, others⟩ := Ptable.allocproc_some allocated
    by_cases same : slot = np
    · subst same
      refine ⟨?_, ?_, fun _ => .inl free, .inl rfl⟩
      · change (pt.proc slot).chan = _
        rw [taken]
      · intro asleep
        change (pt.proc slot).state = .sleeping at asleep
        rw [taken] at asleep
        cases asleep
    · refine .of_touch ?_ rfl
      change Touch _ (pt.proc slot)
      rw [others slot same]
      exact .refl _
  | build acting np pt place context on pc creates built goes saved proc runs =>
    by_cases same : slot = np
    · subst same
      have embryo := ok.embryo acting slot creates
      refine ⟨built.chan, ?_, fun _ => .inr (.inl embryo), .inr embryo⟩
      intro asleep
      change (pt.proc slot).state = .sleeping at asleep
      rcases goes with ⟨-, kept⟩ | ⟨-, freed | ready⟩
      · rw [kept] at asleep
        exact asleep
      · rw [freed] at asleep
        cases asleep
      · rw [ready] at asleep
        cases asleep
    · refine .of_touch ?_ ?_
      · change Touch _ (pt.proc slot)
        rw [built.others slot same]
        exact .refl _
      · change context slot = m.context slot
        rcases saved with rfl | rfl
        · rfl
        · simp [same]

omit [DecidableEq Cpu] [DecidableEq Lock] in
theorem Ok.exec_or_returned (ok : m.Ok) (on : (m.cpu c).proc = some self) :
    (∃ phase, (m.cpu c).pc = .exec phase) ∨ (m.cpu c).pc = .returned := by
  have has := (ok.cpus c).proc.mp (by rw [on]; exact nofun)
  cases pc : (m.cpu c).pc with
  | exec phase => exact .inl ⟨phase, rfl⟩
  | returned => exact .inr rfl
  | _ =>
    rw [pc] at has
    cases has

theorem step_returned (pc : (m.cpu c).pc = .returned)
    (taken : m.step (c, choice) = some m') : m' = m.returned c := by
  cases choice <;> simp_all [step]

omit [DecidableEq Cpu] [DecidableEq Lock] in
theorem Ok.saved (ok : m.Ok) (held : m.ptlock = some c)
    (stopped : (m.pt.proc slot).state ≠ .running)
    (idle : ∀ phase, (m.cpu c).pc ≠ .exec phase) : m.Saved slot := by
  intro other phase on pc
  have owns := ok.view.owner_of_stopped on stopped
  obtain rfl := Option.some.inj (held.symm.trans owns)
  exact idle phase pc

/-- Where a process that executes after a step was before it: on a processor that did not take
the step, at the place from which it went on, or not yet dispatched. -/
theorem Ok.executes (ok : m.Ok) (taken : m.step (c, choice) = some m')
    (pc : (m'.cpu other).pc = .exec phase) :
    (other ≠ c ∧ m'.cpu other = m.cpu other) ∨ other = c ∧
      ((∃ acting old, (m.cpu c).proc = some acting ∧ (m.cpu c).pc = .exec old ∧
          (m'.cpu c).proc = some acting ∧ Goes m c acting choice (m'.pt.proc acting) old phase) ∨
        (∀ old, (m.cpu c).pc ≠ .exec old) ∧ ∃ slot index, (m.cpu c).pc = .scan index ∧
          (m.pt.proc slot).state = .runnable ∧ (m'.cpu c).proc = some slot ∧
          phase = .back (m.context slot)) := by
  obtain ⟨state, effect⟩ := ok.effect taken
  by_cases same : other = c
  · subst same
    refine .inr ⟨rfl, ?_⟩
    by_cases busy : ∃ old, (m.cpu other).pc = .exec old
    · obtain ⟨old, before⟩ := busy
      obtain ⟨acting, acts⟩ := Option.ne_none_iff_exists'.mp
        ((ok.cpus other).proc.mpr (by rw [before]; rfl))
      obtain ⟨on, ⟨site, -, gone, -⟩ | ⟨phase', pc', goes⟩⟩ := ok.moves acts before taken
      · rw [gone] at pc
        cases pc
      · rw [pc', CpuPc.exec.injEq] at pc
        subst pc
        exact .inl ⟨acting, old, acts, before, on, goes⟩
    · push Not at busy
      exact .inr ⟨busy, step_dispatches busy taken pc⟩
  · exact .inl ⟨same, effect.cpu_other same⟩

section
variable (quiet : m.Quiet) (ok : m.Ok)
include quiet ok

section
variable (taken : m.step (c, choice) = some m')
include taken

theorem Quiet.exec_step (other : Cpu) (self : Slot)
    (phase : Phase Lock) (on : (m'.cpu other).proc = some self)
    (pc : (m'.cpu other).pc = .exec phase) (still : phase.quiet = true) :
    (m'.pt.proc self).chan = .null := by
  obtain ⟨state, effect⟩ := ok.effect taken
  obtain ⟨different, same⟩ | ⟨rfl, ⟨acting, old, acts, before, on', goes⟩ |
    ⟨busy, slot, index, before, ready, on', rfl⟩⟩ := ok.executes taken pc
  · rw [same] at on pc
    have elsewhere : (m.cpu c).proc ≠ some self := fun has =>
      different (ok.view.alone other c self on has)
    rw [(effect.slack ok elsewhere).chan]
    exact quiet.exec other self phase on pc still
  · obtain rfl := Option.some.inj (on.symm.trans on')
    have null : old.quiet = true → (m.pt.proc self).chan = .null :=
      quiet.exec other self old acts before
    cases goes with
    | calls chan lk call same | enters chan lk same | unlocks chan lk same =>
      exact same.trans (null rfl)
    | keeps _ chan site sleeps call quiet same => exact same.trans (null quiet)
    | dozes chan site asleep =>
      simp [Phase.quiet, quiet.doze other chan site before] at still
    | wakes site _ sleeps quiet awake clear => exact clear
    | other _ _ quiet quiet' awake same => exact same.trans (null quiet)
  · obtain rfl := Option.some.inj (on.symm.trans on')
    have stopped : (m.pt.proc self).state ≠ .running := by simp [ready]
    have held := ok.owns (c := other) (by rw [before]; rfl)
    have elsewhere : (m.cpu other).proc ≠ some self := by
      intro has
      have place := (ok.cpus other).proc.mp (by rw [has]; exact nofun)
      rw [before] at place
      cases place
    rw [(effect.slack ok elsewhere).chan]
    refine quiet.saved self (ok.saved held stopped busy) ?_
    simpa [Phase.quiet] using still

theorem Quiet.saved_step (slot : Slot) (saved : m'.Saved slot)
    (out : (m'.context slot).sleeps = false) : (m'.pt.proc slot).chan = .null := by
  obtain ⟨state, effect⟩ := ok.effect taken
  by_cases own : (m.cpu c).proc = some slot
  · rcases ok.exec_or_returned own with ⟨phase, pc⟩ | pc
    · obtain ⟨on', ⟨site, rfl, -, context, table⟩ | ⟨phase', pc', -⟩⟩ := ok.moves own pc taken
      · rw [table]
        refine quiet.exec c slot _ own pc ?_
        rw [context] at out
        simp [Phase.quiet, out]
      · exact absurd pc' (saved c phase' on')
    · obtain rfl := step_returned pc taken
      refine quiet.saved slot ?_ out
      intro other phase on pc'
      obtain rfl := ok.view.alone c other slot own on
      rw [pc] at pc'
      cases pc'
  · have slack := effect.slack ok own
    rw [slack.chan]
    rcases slack.context with same | embryo
    · rw [same] at out
      refine quiet.saved slot ?_ out
      intro other phase on pc
      have different : other ≠ c := by
        rintro rfl
        exact own on
      rw [← effect.cpu_other different] at on pc
      exact saved other phase on pc
    · exact quiet.dormant slot (.inr (.inl embryo))

theorem Quiet.dormant_step (slot : Slot)
    (dormant : Dormant (m'.pt.proc slot)) : (m'.pt.proc slot).chan = .null := by
  obtain ⟨state, effect⟩ := ok.effect taken
  by_cases own : (m.cpu c).proc = some slot
  · rcases ok.exec_or_returned own with ⟨phase, pc⟩ | pc
    · have null : phase.quiet = true → (m.pt.proc slot).chan = .null :=
        quiet.exec c slot phase own pc
      obtain ⟨on', ⟨site, rfl, -, -, table⟩ | ⟨phase', pc', goes⟩⟩ := ok.moves own pc taken
      · rw [table] at dormant ⊢
        exact quiet.dormant slot dormant
      · cases goes with
        | calls chan lk call same | enters chan lk same | unlocks chan lk same =>
          exact same.trans (null rfl)
        | keeps _ chan site sleeps call quiet same => exact same.trans (null quiet)
        | dozes chan site asleep => simp [Dormant, asleep] at dormant
        | wakes site _ sleeps quiet awake clear => exact clear
        | other _ _ quiet quiet' awake same => exact same.trans (null quiet)
    · obtain rfl := step_returned pc taken
      exact quiet.dormant slot dormant
  · have slack := effect.slack ok own
    rw [slack.chan]
    exact quiet.dormant slot (slack.dormant dormant)

theorem Quiet.doze_step (other : Cpu) (chan : Chan) (site : Site Lock)
    (pc : (m'.cpu other).pc = .exec (.doze chan site)) : site.sleeps = true := by
  obtain ⟨-, same⟩ | ⟨-, ⟨_, _, -, -, -, goes⟩ | ⟨-, _, _, -, -, -, goes⟩⟩ :=
    ok.executes taken pc
  · rw [same] at pc
    exact quiet.doze other chan site pc
  · cases goes with
    | unlocks => rfl
    | keeps _ _ _ sleeps => exact sleeps
    | wakes _ _ _ _ awake => cases awake
    | other _ _ _ _ awake => cases awake
  · cases goes

end

theorem Quiet.step (taken : m.step action = some m') : m'.Quiet := by
  obtain ⟨c, choice⟩ := action
  exact ⟨quiet.exec_step ok taken, quiet.saved_step ok taken, quiet.dormant_step ok taken,
    quiet.doze_step ok taken⟩

end

omit [DecidableEq Cpu] [DecidableEq Lock] in
theorem quiet_boot (boot : m.Boot) : m.Quiet := by
  obtain ⟨k, booted, rfl⟩ := boot
  obtain ⟨-, -, -, kstack, pgdir, -, -, -, first, rest, -⟩ := Kernel.boot_table booted
  have null : ∀ slot, (k.pt.proc slot).chan = .null := by
    intro slot
    by_cases same : slot = 0
    · subst same
      simp [first, Kernel.initcode]
    · simp [rest slot same]
  exact ⟨by rintro c self phase ⟨⟩, fun slot _ _ => null slot, fun slot _ => null slot,
    by rintro c chan site ⟨⟩⟩

theorem quiet_run {start : Machine Cpu Lock} {trace : List (Machine Cpu Lock × (Cpu × Choice Lock))}
    (boot : start.Boot) (run : Run start trace m) : m.Quiet := by
  induction run with
  | nil => exact quiet_boot boot
  | snoc before _ taken ih => exact ih.step (ok_run boot before) taken

end Channels

/-! ## Between the call of `sleep` and the sleep -/

section Window

variable [DecidableEq Cpu] [DecidableEq Lock] {m m' : Machine Cpu Lock} {c : Cpu}
  {choice : Choice Lock} {state : CpuState Lock} {self : Slot}

/-- A process has called `sleep(chan, lk)` and is not yet asleep: it still holds
`lk`, or is about to become asleep under `ptable.lock`. -/
inductive Window (m : Machine Cpu Lock) (c : Cpu) (chan : Chan) : Option Lock → Prop where
  | enter (lk : Lock) (pc : (m.cpu c).pc = .exec (.enter (.sleep chan lk)))
      (held : m.lock lk = some c) : Window m c chan (some lk)
  | unlock (lk : Lock) (pc : (m.cpu c).pc = .exec (.unlock chan lk))
      (held : m.lock lk = some c) : Window m c chan (some lk)
  | doze (lk : Option Lock) (site : Site Lock)
      (pc : (m.cpu c).pc = .exec (.doze chan site)) : Window m c chan lk

/-- A process is not on its way into `sleep`. -/
def Past (m : Machine Cpu Lock) (slot : Slot) : Prop :=
  ∀ c phase, (m.cpu c).proc = some slot → (m.cpu c).pc = .exec phase → phase.dozing = false

theorem Effect.lock_other (effect : Effect m c state m') (different : other ≠ c) (lk : Lock) :
    m'.lock lk = some other ↔ m.lock lk = some other := by
  cases effect with
  | acquire taken free =>
    by_cases same : lk = taken
    · subst same
      simp [free, different.symm]
    · simp [same]
  | release given held =>
    by_cases same : lk = given
    · subst same
      simp [held, different.symm]
    · simp [same]
  | _ => exact Iff.rfl

theorem window_of_call (on : (m.cpu c).proc = some slot)
    (call : SleepCall m c slot choice chan lk) (holds : m.Holds c lk)
    (taken : m.step (c, choice) = some m') : (m'.cpu c).proc = some slot ∧ Window m' c chan lk := by
  have stays : ∀ pc, ((m.goto c pc).cpu c).proc = some slot := by
    intro pc
    simpa [goto] using on
  cases call with
  | sleep _ lk pc =>
    simp only [step, pc, on, exec, outside, Option.ite_none_right_eq_some,
      Option.some.injEq] at taken
    obtain ⟨-, rfl⟩ := taken
    exact ⟨stays _, .enter lk (by simp [goto]) holds⟩
  | held _ pc =>
    simp only [step, pc, on, exec, Option.some.injEq] at taken
    subst taken
    exact ⟨stays _, .doze none (.sleep none) (by simp [goto])⟩
  | wait pc sleeps =>
    simp only [step, pc, on, exec, body, scanned, sleeps, if_true, Option.some.injEq] at taken
    subst taken
    exact ⟨stays _, .doze none .wait (by simp [goto])⟩
  | join pc sleeps =>
    simp only [step, pc, on, exec, body, scanned, sleeps, if_true, Option.some.injEq] at taken
    subst taken
    exact ⟨stays _, .doze none .join (by simp [goto])⟩

theorem lock_of_enter (pc : (m.cpu c).pc = .exec (.enter call))
    (taken : m.step (c, choice) = some m') : m'.lock = m.lock := by
  simp only [step, pc] at taken
  split at taken
  next => cases taken
  next self on =>
    cases choice with
    | next =>
      simp only [exec, acquirePt, Option.ite_none_right_eq_some, Option.some.injEq] at taken
      rw [← taken.2, setCpu_lock]
    | _ => cases taken

section
omit [DecidableEq Cpu] [DecidableEq Lock]

theorem past_of_phase (ok : m.Ok) (on : (m.cpu c).proc = some slot)
    (pc : (m.cpu c).pc = .exec phase) (awake : phase.dozing = false) : m.Past slot := by
  intro other phase' on' pc'
  obtain rfl := ok.view.alone c other slot on on'
  rw [pc, CpuPc.exec.injEq] at pc'
  exact pc' ▸ awake

theorem Window.no_call {chan' : Chan} {lk' : Option Lock} (window : Window m c chan lk)
    (call : SleepCall m c slot choice chan' lk') : False := by
  cases window with
  | enter _ here | unlock _ here | doze _ _ here =>
    cases call with
    | sleep _ _ pc | held _ pc | wait pc | join pc =>
      rw [here] at pc
      cases pc

end

theorem Window.step (window : Window m c chan lk) (ok : m.Ok)
    (on : (m.cpu c).proc = some slot) (taken : m.step (other, choice) = some m') :
    ((m'.cpu c).proc = some slot ∧ Window m' c chan lk) ∨ m'.Past slot := by
  obtain ⟨state, effect⟩ := ok.effect taken
  have ok' := ok.step taken
  by_cases different : c ≠ other
  · have same := effect.cpu_other different
    refine .inl ⟨by rw [same, on], ?_⟩
    cases window with
    | enter lk pc held =>
      exact .enter lk (by rw [same, pc]) ((effect.lock_other different lk).mpr held)
    | unlock lk pc held =>
      exact .unlock lk (by rw [same, pc]) ((effect.lock_other different lk).mpr held)
    | doze lk site pc => exact .doze lk site (by rw [same, pc])
  · obtain rfl := not_not.mp different
    have before : ∃ phase, (m.cpu c).pc = .exec phase := by
      cases window with
      | enter _ pc | unlock _ pc | doze _ _ pc => exact ⟨_, pc⟩
    obtain ⟨phase, pc⟩ := before
    obtain ⟨on', ⟨site, rfl, -⟩ | ⟨phase', pc', goes⟩⟩ := ok.moves on pc taken
    · cases window with
      | enter _ here | unlock _ here | doze _ _ here =>
        rw [here] at pc
        cases pc
    · cases goes with
      | calls _ _ call | keeps _ _ _ _ call => exact (window.no_call call).elim
      | enters _ _ same =>
        cases window with
        | enter lk here held =>
          rw [here] at pc
          cases pc
          exact .inl ⟨on', .unlock _ pc' (by rw [lock_of_enter here taken, held])⟩
        | unlock _ here | doze _ _ here =>
          rw [here] at pc
          cases pc
      | unlocks _ _ same =>
        cases window with
        | unlock lk here held =>
          rw [here] at pc
          cases pc
          exact .inl ⟨on', .doze _ _ pc'⟩
        | enter _ here | doze _ _ here =>
          rw [here] at pc
          cases pc
      | dozes => exact .inr (past_of_phase ok' on' pc' rfl)
      | wakes _ _ _ _ awake => exact .inr (past_of_phase ok' on' pc' awake)
      | other _ _ _ _ awake => exact .inr (past_of_phase ok' on' pc' awake)

theorem Past.step (past : m.Past slot) (ok : m.Ok)
    (once : ¬CallsSleep slot m action) (taken : m.step action = some m') : m'.Past slot := by
  obtain ⟨c, choice⟩ := action
  intro other phase on pc
  obtain ⟨-, same⟩ | ⟨rfl, ⟨acting, old, acts, before, on', goes⟩ | ⟨-, _, _, -, -, -, rfl⟩⟩ :=
    ok.executes taken pc
  · rw [same] at on pc
    exact past other phase on pc
  · obtain rfl := Option.some.inj (on.symm.trans on')
    have awake := past other old acts before
    cases goes with
    | calls chan lk call | keeps _ chan _ _ call => exact absurd ⟨acts, chan, _, call⟩ once
    | enters | unlocks => cases awake
    | dozes => rfl
    | wakes _ _ _ _ awake => exact awake
    | other _ _ _ _ awake => exact awake
  · rfl

/-! ## The wake-up -/

section
omit [DecidableEq Cpu] [DecidableEq Lock]

theorem WakeCall.holds (wakes : WakeCall m c choice chan) : (m.cpu c).pc.holds = true := by
  cases wakes with
  | wakeup _ pc | held _ pc | interrupt _ pc | exit _ _ pc | inherit _ _ _ pc =>
    rw [pc]
    rfl

theorem Window.excluded (window : Window m c chan lk) (ok : m.Ok)
    (wakes : WakeCall m other choice chan) (holds : m.Holds other lk) : False := by
  have same : c = other := by
    cases window with
    | enter lk pc held | unlock lk pc held =>
      exact Option.some.inj (held.symm.trans holds)
    | doze lk site pc =>
      have mine := ok.owns (c := c) (by rw [pc]; rfl)
      exact Option.some.inj (mine.symm.trans (ok.owns wakes.holds))
  subst same
  cases window with
  | enter _ here | unlock _ here | doze _ _ here =>
    cases wakes with
    | wakeup _ pc | held _ pc | interrupt _ pc | exit _ _ pc | inherit _ _ _ pc =>
      rw [here] at pc
      cases pc

theorem wakeup_awake (pt : Ptable) (chan : Chan) (slot : Slot) :
    ¬(((pt.wakeup chan).proc slot).state = .sleeping ∧
      ((pt.wakeup chan).proc slot).chan = chan) := by
  change ¬((Ptable.wakeup1 pt.proc chan slot).state = .sleeping ∧
    (Ptable.wakeup1 pt.proc chan slot).chan = chan)
  rw [Ptable.wakeup1_apply, Ptable.wakeOn_eq]
  simp only [not_and]
  intro asleep on
  split at asleep
  next => cases asleep
  next awake => exact awake ⟨asleep, on⟩

theorem exit_awake (running : (pt.proc self).state = .running)
    (wakes : ∀ entry : Proc, entry.state = .sleeping → entry.chan = chan →
      pt.ExitWakes self entry) (slot : Slot) :
    ¬(((pt.exit self).proc slot).state = .sleeping ∧
      ((pt.exit self).proc slot).chan = chan) := by
  by_cases same : slot = self
  · subst same
    simp [Ptable.exit_self]
  · rw [Ptable.exit_other same running]
    simp only [not_and]
    intro asleep on
    split at asleep
    next => cases asleep
    next awake => exact awake (wakes _ asleep on)

end

theorem WakeCall.awake (wakes : WakeCall m c choice chan) (ok : m.Ok)
    (taken : m.step (c, choice) = some m') (slot : Slot) : ¬m'.SleepsOn slot chan := by
  have exits : ∀ {caller}, (m.cpu c).proc = some caller →
      (m.cpu c).pc = .exec (.body .exit) → choice = .next →
      (m.pt.proc caller).state = .running ∧ m'.pt = m.pt.exit caller := by
    intro caller on pc next
    subst next
    simp only [step, pc, on, exec, body, Option.ite_none_left_eq_some,
      Option.some.injEq] at taken
    refine ⟨((ok.cpus c).running caller on).mpr (by rw [pc]; rfl), ?_⟩
    rw [← taken.2]
    rfl
  cases wakes with
  | wakeup _ pc =>
    obtain ⟨self, on⟩ := Option.ne_none_iff_exists'.mp
      ((ok.cpus c).proc.mpr (by rw [pc]; rfl))
    simp only [step, pc, on, exec, body, Option.some.injEq] at taken
    subst taken
    exact wakeup_awake m.pt chan slot
  | held _ pc =>
    obtain ⟨self, on⟩ := Option.ne_none_iff_exists'.mp
      ((ok.cpus c).proc.mpr (by rw [pc]; rfl))
    simp only [step, pc, on, exec, Option.some.injEq] at taken
    subst taken
    exact wakeup_awake m.pt chan slot
  | interrupt _ pc =>
    simp only [step, pc, Option.some.injEq] at taken
    subst taken
    exact wakeup_awake m.pt chan slot
  | exit caller on pc =>
    obtain ⟨running, table⟩ := exits on pc rfl
    unfold SleepsOn
    rw [table]
    exact exit_awake running (fun _ asleep on => ⟨asleep, .inl on⟩) slot
  | inherit caller child on pc parent dead =>
    obtain ⟨running, table⟩ := exits on pc rfl
    unfold SleepsOn
    rw [table]
    exact exit_awake running
      (fun _ asleep on => ⟨asleep, .inr ⟨on, child, parent, dead⟩⟩) slot

theorem awake_step (awake : ¬m.SleepsOn slot chan)
    (past : m.Past slot) (ok : m.Ok) (quiet : m.Quiet) (channel : chan ≠ .null)
    (once : ¬CallsSleep slot m action) (taken : m.step action = some m') :
    ¬m'.SleepsOn slot chan := by
  obtain ⟨c, choice⟩ := action
  obtain ⟨state, effect⟩ := ok.effect taken
  rintro ⟨asleep, on⟩
  by_cases own : (m.cpu c).proc = some slot
  · rcases ok.exec_or_returned own with ⟨phase, pc⟩ | pc
    · have null : phase.quiet = true → (m.pt.proc slot).chan = .null :=
        quiet.exec c slot phase own pc
      have stays := past c phase own pc
      obtain ⟨-, ⟨site, -, -, -, table⟩ | ⟨phase', pc', goes⟩⟩ := ok.moves own pc taken
      · rw [table] at asleep on
        exact awake ⟨asleep, on⟩
      · cases goes with
        | calls chan' lk call | keeps _ chan' _ _ call =>
          exact once ⟨own, chan', _, call⟩
        | enters | unlocks | dozes => cases stays
        | wakes _ _ _ _ _ clear => exact channel (on.symm.trans clear)
        | other _ _ still _ _ same => exact channel (on.symm.trans (same.trans (null still)))
    · obtain rfl := step_returned pc taken
      exact awake ⟨asleep, on⟩
  · have slack := effect.slack ok own
    exact awake ⟨slack.asleep asleep, slack.chan.symm.trans on⟩

theorem holds_of_return (returns : SleepReturns m c lk) (ok : m.Ok)
    (quiet : m.Quiet) (on : (m.cpu c).proc = some self) (taken : m.step (c, choice) = some m') :
    m'.Holds c lk ∧ (m'.pt.proc self).chan = .null := by
  cases returns with
  | relock lk pc =>
    have null := quiet.exec c self _ on pc rfl
    simp only [step, pc, on] at taken
    cases choice with
    | next =>
      simp only [exec, acquire, Option.ite_none_right_eq_some, Option.some.injEq] at taken
      obtain ⟨-, rfl⟩ := taken
      exact ⟨by simp [Holds], null⟩
    | _ => cases taken
  | back site pc within =>
    have held := ok.owns (c := c) (by rw [pc]; rfl)
    simp only [step, pc, on] at taken
    cases choice with
    | next =>
      have table : m'.ptlock = m.ptlock ∧ m'.pt = m.pt.awake self := by
        rcases within with rfl | rfl | rfl
        all_goals
          simp only [exec, resume, Option.some.injEq] at taken
          subst taken
          exact ⟨rfl, rfl⟩
      refine ⟨table.1.trans held, ?_⟩
      rw [table.2]
      simp [Ptable.awake]
    | _ => cases taken

omit [DecidableEq Cpu] [DecidableEq Lock] in
theorem WakeCall.not_callsSleep (wakes : WakeCall m c choice chan) :
    ¬CallsSleep slot m (c, choice) := by
  rintro ⟨-, chan', lk, call⟩
  cases wakes with
  | wakeup _ here | held _ here | interrupt _ here | exit _ _ here | inherit _ _ _ here =>
    cases call with
    | _ => simp_all

end Window

/-! ## No wake-up is lost -/

section Runs

variable [DecidableEq Cpu] [DecidableEq Lock] {start m : Machine Cpu Lock}
  {trace : List (Machine Cpu Lock × (Cpu × Choice Lock))}

theorem window_run (ok : start.Ok) {c : Cpu} (on : (start.cpu c).proc = some slot)
    (window : Window start c chan lk)
    (run : Transition.Run step (fun m action => True ∧ ¬CallsSleep slot m action)
      start trace m) :
    m.Ok ∧ (((m.cpu c).proc = some slot ∧ Window m c chan lk) ∨ m.Past slot) := by
  induction run with
  | nil => exact ⟨ok, .inl ⟨on, window⟩⟩
  | snoc before allowed taken ih =>
    obtain ⟨ok, ⟨on, window⟩ | past⟩ := ih
    · exact ⟨ok.step taken, window.step ok on taken⟩
    · exact ⟨ok.step taken, .inr (past.step ok allowed.2 taken)⟩

theorem awake_run (channel : chan ≠ .null) (ok : start.Ok)
    (quiet : start.Quiet) (past : start.Past slot) (awake : ¬start.SleepsOn slot chan)
    (run : Transition.Run step (fun m action => True ∧ ¬CallsSleep slot m action)
      start trace m) : (m.Ok ∧ m.Quiet) ∧ m.Past slot ∧ ¬m.SleepsOn slot chan := by
  induction run with
  | nil => exact ⟨⟨ok, quiet⟩, past, awake⟩
  | snoc before allowed taken ih =>
    obtain ⟨⟨ok, quiet⟩, past, awake⟩ := ih
    exact ⟨⟨ok.step taken, quiet.step ok taken⟩, past.step ok allowed.2 taken,
      awake_step awake past ok quiet channel allowed.2 taken⟩

/-- If a process calls `sleep(chan, lk)` holding `lk`, and later a processor that
holds `lk` runs `wakeup1(chan)`, then the process is not asleep on `chan` until it
calls `sleep` again.  When `sleep` returns the caller holds `lk` and its channel is
null. -/
theorem no_lost_wakeup (boot : start.Boot) (run : Run start trace m) :
    (∀ before called c choice middle waking c' choice' after slot chan lk,
      trace = before ++ (called, (c, choice)) :: (middle ++ (waking, (c', choice')) :: after) →
      (called.cpu c).proc = some slot → SleepCall called c slot choice chan lk →
      called.Holds c lk → WakeCall waking c' choice' chan → waking.Holds c' lk →
      chan ≠ .null → (∀ entry ∈ middle ++ after, ¬CallsSleep slot entry.1 entry.2) →
      ¬m.SleepsOn slot chan) ∧
    (∀ c self lk choice m', (m.cpu c).proc = some self → SleepReturns m c lk →
      m.step (c, choice) = some m' →
      m'.Holds c lk ∧ (m'.pt.proc self).chan = .null) := by
  constructor
  · intro before called c choice middle waking c' choice' after slot chan lk split on call
      holds wakes held channel once
    subst split
    obtain ⟨prior, -, opened, entered, rest⟩ := run.split
    obtain ⟨between, -, woken, wakened, final⟩ := rest.split
    obtain ⟨on', window⟩ := window_of_call on call holds entered
    have between' := between.restrict (fun m action => ¬CallsSleep slot m action)
      fun entry member => once entry (List.mem_append_left _ member)
    have final' := final.restrict (fun m action => ¬CallsSleep slot m action)
      fun entry member => once entry (List.mem_append_right _ member)
    obtain ⟨ok, inside⟩ :=
      window_run ((ok_run boot prior).step entered) on' window between'
    have past : waking.Past slot := by
      rcases inside with ⟨-, window⟩ | past
      · exact (window.excluded ok wakes held).elim
      · exact past
    have quiet : waking.Quiet :=
      quiet_run boot (Transition.Run.append (.snoc prior trivial entered) between)
    exact (awake_run channel (ok.step wakened) (quiet.step ok wakened)
      (past.step ok wakes.not_callsSleep wakened) (wakes.awake ok wakened slot) final').2.2
  · intro c self lk choice m' on returns taken
    exact holds_of_return returns (ok_run boot run) (quiet_run boot run) on taken

end Runs

/-! The first process forks a second one, which runs on the other processor; the
first one sleeps on the tick counter and the second one wakes it up. -/

/-- Up to the call of `sleep`. -/
def beforeSleep : List (Fin 2 × Choice Unit) :=
  List.replicate 4 (0, .next) ++
    (0, .call (.spawn .fork)) :: List.replicate 3 (0, .next) ++
    [(0, .kstack 3), (0, .copyuvm 4), (0, .publish)] ++
    List.replicate 5 (1, .next) ++ [(0, .acquire ())]

/-- From the call of `sleep` to the wake-up. -/
def beforeWakeup : List (Fin 2 × Choice Unit) :=
  (0, .call (.sleep (.object .ticks) ())) :: List.replicate 2 (0, .next) ++
    (1, .acquire ()) :: List.replicate 67 (0, .next) ++
    [(1, .call (.wakeup (.object .ticks))), (1, .next)]

/-- From the wake-up until `sleep` is about to return. -/
def beforeReturn : List (Fin 2 × Choice Unit) :=
  List.replicate 2 (1, .next) ++ (1, .release ()) :: List.replicate 4 (0, .next)

/-- What is evaluated about this run. -/
def Scripted (called waking m : Machine (Fin 2) Unit) : Prop :=
  ((called.cpu 0).proc = some 0 ∧ (called.cpu 0).pc = .exec .run ∧
    called.lock () = some 0) ∧
  ((waking.cpu 1).pc = .exec (.body (.wakeup (.object .ticks))) ∧
    waking.lock () = some 1) ∧
  ((m.cpu 0).proc = some 0 ∧ (m.cpu 0).pc = .exec (.relock ()) ∧
    (m.step (0, .next)).isSome = true) ∧
  ∀ entry ∈ (Transition.traceOf step called beforeWakeup).tail ++
      (Transition.traceOf step waking beforeReturn).tail,
    ¬CallsSleep 0 entry.1 entry.2

instance (called waking m : Machine (Fin 2) Unit) : Decidable (Scripted called waking m) :=
  inferInstanceAs (Decidable (_ ∧ _ ∧ _ ∧ _))

theorem no_lost_wakeup_scripted : ∃ m m' : Machine (Fin 2) Unit, ∃ trace,
    Run twoCpus trace m ∧ ¬m.SleepsOn 0 (.object .ticks) ∧
      m.step (0, .next) = some m' ∧ m'.Holds 0 (some ()) ∧ (m'.pt.proc 0).chan = .null := by
  have scripted : (Transition.exec step twoCpus beforeSleep).any (fun called =>
      (Transition.exec step called beforeWakeup).any fun waking =>
        (Transition.exec step waking beforeReturn).any fun m =>
          decide (Scripted called waking m)) = true := by
    decide +kernel
  obtain ⟨called, first, scripted⟩ := (Option.any_eq_true _ _).mp scripted
  obtain ⟨waking, second, scripted⟩ := (Option.any_eq_true _ _).mp scripted
  obtain ⟨m, third, scripted⟩ := (Option.any_eq_true _ _).mp scripted
  obtain ⟨⟨on, runs, holds⟩, ⟨wakes, held⟩, ⟨on', relock, enabled⟩, once⟩ :=
    of_decide_eq_true scripted
  have run : Run twoCpus _ m :=
    (Transition.Run.of_exec first (by simp)).append
      ((Transition.Run.of_exec second (by simp)).append
        (Transition.Run.of_exec third (by simp)))
  obtain ⟨m', taken⟩ := Option.isSome_iff_exists.mp enabled
  have main := no_lost_wakeup boot_twoCpus run
  refine ⟨m, m', _, run, ?_, taken, main.2 0 0 (some ()) .next m' on' (.relock () relock) taken⟩
  exact main.1 _ called 0 _ _ waking 1 _ _ 0 (.object .ticks) (some ()) rfl on
    (.sleep _ () runs) holds (.wakeup _ wakes) held (by decide) once

end Machine

end Xv6.Smp
