import Xv6.Kernel.SmpStep
import Xv6.Kernel.Invariant
import Xv6.Lib.Dispatch

/-!
# A process never runs on two processors

The machine follows the protocol of `Dispatch`: a processor puts a process on
itself, and takes it off, under `ptable.lock`, and a process counts as running
while its state is `running`.  What has to be shown for the code is that the
place of a processor tells whether it holds the lock and whether its process is
still running, and that `fork` and `clone`, which write the state of a new slot
without the lock, write to an embryo.
-/

namespace Xv6.Smp

namespace Machine

variable {Cpu Lock : Type}

/-- The machine as processors that share processes under `ptable.lock`. -/
def view (m : Machine Cpu Lock) : Dispatch.State Cpu Slot where
  owner := m.ptlock
  on := fun c => (m.cpu c).proc
  running := fun slot => (m.pt.proc slot).state = .running

/-- What the place of a processor tells about the lock and its process. -/
structure Local (m : Machine Cpu Lock) (c : Cpu) : Prop where
  owner : m.ptlock = some c ↔ (m.cpu c).pc.holds = true
  proc : (m.cpu c).proc ≠ none ↔ (m.cpu c).pc.hasProc = true
  running : ∀ self, (m.cpu c).proc = some self →
    ((m.pt.proc self).state = .running ↔ (m.cpu c).pc.stopped = false)

/-- The invariant of the machine.  A slot that is being created is an embryo, and
one process creates it. -/
structure Ok (m : Machine Cpu Lock) : Prop where
  cpus : ∀ c, m.Local c
  view : Dispatch.Inv m.view
  embryo : ∀ self np, (m.place self).creates = some np → (m.pt.proc np).state = .embryo
  creators : ∀ self other np, (m.place self).creates = some np →
    (m.place other).creates = some np → self = other

variable {m m' : Machine Cpu Lock} {c : Cpu} {state : CpuState Lock}

theorem Ok.owns (ok : m.Ok) (holds : (m.cpu c).pc.holds = true) : m.ptlock = some c :=
  (ok.cpus c).owner.mpr holds

theorem Ok.embryo_not_running (ok : m.Ok) {self np : Slot}
    (creates : (m.place self).creates = some np) : (m.pt.proc np).state ≠ .running := by
  rw [ok.embryo self np creates]
  decide

variable [DecidableEq Cpu]

theorem view_on_same (base : Machine Cpu Lock) (cpu : base.cpu = m.cpu)
    (proc : state.proc = (m.cpu c).proc) (other : Cpu) :
    (base.setCpu c state).view.on other = m.view.on other := by
  by_cases same : other = c
  · subst same
    simp [view, proc]
  · simp [view, setCpu_of_ne same, cpu]

theorem Local.similar (before : m.Local c) {base : Machine Cpu Lock}
    (proc : state.proc = (m.cpu c).proc) (similar : (m.cpu c).pc.Similar state.pc)
    (owner : base.ptlock = some c ↔ state.pc.holds = true)
    (kept : ∀ self, (m.cpu c).proc = some self →
      (base.pt.proc self).state = (m.pt.proc self).state) : (base.setCpu c state).Local c := by
  refine ⟨?_, ?_, ?_⟩
  · simpa using owner
  · rw [setCpu_self, proc, similar.hasProc]
    exact before.proc
  · intro self on
    rw [setCpu_self, proc] at on
    rw [setCpu_self, setCpu_pt, kept self on, similar.stopped]
    exact before.running self on

variable [DecidableEq Lock] {other : Cpu}

theorem Ok.effect (ok : m.Ok) {choice : Choice Lock}
    (taken : m.step (c, choice) = some m') : ∃ state, Effect m c state m' := by
  refine step_effect (fun self on => ((ok.cpus c).running self on).mpr) ?_ taken
  intro idle
  by_contra has
  rw [(ok.cpus c).proc.mp has] at idle
  cases idle

/-! ## Refinement of the protocol -/

theorem Effect.refines (ok : m.Ok) (effect : Effect m c state m') :
    Dispatch.Step m.view m'.view := by
  cases effect with
  | plain proc | acquire lk free proc | release lk held proc =>
    exact .stutter rfl (view_on_same _ rfl proc) fun _ => Iff.rfl
  | acquirePt free proc => exact .acquire c free rfl (view_on_same _ rfl proc) fun _ => Iff.rfl
  | releasePt held proc similar runs =>
    refine .release c held ?_ rfl (view_on_same _ rfl proc) fun _ => Iff.rfl
    intro self on
    exact ((ok.cpus c).running self on).mpr (similar.stopped.symm.trans runs)
  | table pt proc similar held holds kept =>
    refine .stutter rfl (view_on_same _ rfl proc) ?_
    intro slot
    change (pt.proc slot).state = .running ↔ (m.pt.proc slot).state = .running
    by_cases own : (m.cpu c).proc = some slot
    · rw [(kept.own slot own).1]
    · exact (kept.others slot own).running
  | stop self site pt on proc held runs pc stopped =>
    refine .stop c self (ok.owns held) on (ok.owns held)
      (view_on_same _ rfl (proc.trans on.symm)) ?_
    intro slot
    change (pt.proc slot).state = .running ↔ slot ≠ self ∧ (m.pt.proc slot).state = .running
    by_cases same : slot = self
    · subst same
      rcases stopped.own with own | own | own <;> simp [own]
    · simp [same, (stopped.others slot same).running]
  | sched self site on pc proc back =>
    exact .stutter rfl (view_on_same _ rfl (proc.trans on.symm)) fun _ => Iff.rfl
  | dispatch slot index pc ready proc back =>
    have held := ok.owns (c := c) (by rw [pc]; rfl)
    have idle : (m.cpu c).proc = none := by
      by_contra has
      have := (ok.cpus c).proc.mp has
      rw [pc] at this
      cases this
    refine .dispatch c slot held idle (by simp [view, ready]) held (by simp [view, proc]) ?_ ?_
    · intro other different
      simp [view, setCpu_of_ne different]
    · intro other
      simp only [view, setCpu_pt, Ptable.dispatch]
      by_cases same : other = slot
      · subst same
        simp
      · simp [Ptable.modify_of_ne same, same]
  | remove index pc proc back =>
    have held := ok.owns (c := c) (by rw [pc]; rfl)
    obtain ⟨self, on⟩ := Option.ne_none_iff_exists'.mp
      ((ok.cpus c).proc.mpr (by rw [pc]; rfl))
    refine .remove c self held on ?_ held (by simp [view, proc]) ?_ fun _ => Iff.rfl
    · intro running
      have := ((ok.cpus c).running self on).mp running
      rw [pc] at this
      cases this
    · intro other different
      simp [view, setCpu_of_ne different]
  | spawn self np kind pt on pc allocated proc leaves =>
    refine .stutter rfl (view_on_same _ rfl (proc.trans on.symm)) ?_
    intro slot
    change (pt.proc slot).state = .running ↔ (m.pt.proc slot).state = .running
    obtain ⟨free, taken, others⟩ := Ptable.allocproc_some allocated
    by_cases same : slot = np
    · subst same
      simp [free, taken]
    · rw [others slot same]
  | build self np pt place context on pc creates built goes saved proc runs =>
    refine .stutter rfl (view_on_same _ rfl (proc.trans on.symm)) ?_
    intro slot
    change (pt.proc slot).state = .running ↔ (m.pt.proc slot).state = .running
    by_cases same : slot = np
    · subst same
      have dormant := ok.embryo_not_running creates
      rcases goes with ⟨-, kept⟩ | ⟨-, freed | ready⟩
      · rw [kept]
      · simp [freed, dormant]
      · simp [ready, dormant]
    · rw [built.others slot same]

/-! ## What the other processors see -/

theorem Effect.cpu_other (effect : Effect m c state m')
    (different : other ≠ c) : m'.cpu other = m.cpu other := by
  cases effect <;> exact setCpu_of_ne different

theorem Effect.owner_other (effect : Effect m c state m')
    (different : other ≠ c) : m'.ptlock = some other ↔ m.ptlock = some other := by
  cases effect with
  | acquirePt free => simp [free, different.symm]
  | releasePt held => simp [held, different.symm]
  | _ => exact Iff.rfl

section
variable (ok : m.Ok)
include ok

theorem Effect.running_other (effect : Effect m c state m')
    (different : other ≠ c) {self : Slot} (on : (m.cpu other).proc = some self) :
    (m'.pt.proc self).state = .running ↔ (m.pt.proc self).state = .running := by
  have elsewhere : (m.cpu c).proc ≠ some self := by
    intro here
    exact different (ok.view.alone other c self on here)
  cases effect with
  | plain | acquirePt | releasePt | acquire | release | sched | remove => exact Iff.rfl
  | table pt proc similar held holds kept => exact (kept.others self elsewhere).running
  | stop acting site pt acts proc held runs pc stopped =>
    refine (stopped.others self ?_).running
    rintro rfl
    exact elsewhere acts
  | dispatch slot index pc ready proc back =>
    have held := ok.owns (c := c) (by rw [pc]; rfl)
    have apart : self ≠ slot := by
      rintro rfl
      have stopped : ¬(m.pt.proc self).state = .running := by simp [ready]
      have owns := ok.view.owner_of_stopped on stopped
      exact different (Option.some.inj (owns.symm.trans held))
    simp [Ptable.dispatch, Ptable.modify_of_ne apart]
  | spawn acting np kind pt acts pc allocated proc leaves =>
    obtain ⟨free, taken, others⟩ := Ptable.allocproc_some allocated
    change (pt.proc self).state = .running ↔ _
    by_cases same : self = np
    · subst same
      simp [free, taken]
    · rw [others self same]
  | build acting np pt place context acts pc creates built goes saved proc runs =>
    change (pt.proc self).state = .running ↔ _
    by_cases same : self = np
    · subst same
      have dormant := ok.embryo_not_running creates
      rcases goes with ⟨-, kept⟩ | ⟨-, freed | ready⟩
      · rw [kept]
      · simp [freed, dormant]
      · simp [ready, dormant]
    · rw [built.others self same]

theorem Effect.local_other (effect : Effect m c state m')
    (different : other ≠ c) : m'.Local other := by
  have before := ok.cpus other
  refine ⟨?_, ?_, ?_⟩
  · rw [effect.owner_other different, effect.cpu_other different]
    exact before.owner
  · rw [effect.cpu_other different]
    exact before.proc
  · intro self on
    rw [effect.cpu_other different] at on ⊢
    rw [effect.running_other ok different on]
    exact before.running self on

/-! ## The invariant -/

theorem Effect.local_self (effect : Effect m c state m') : m'.Local c := by
  have before := ok.cpus c
  cases effect with
  | plain proc similar holds =>
    exact before.similar proc similar (by rw [holds]; exact before.owner) fun _ _ => rfl
  | acquirePt free proc similar holds =>
    exact before.similar proc similar (by simp [holds]) fun _ _ => rfl
  | releasePt held proc similar runs holds =>
    exact before.similar proc similar (by simp [holds]) fun _ _ => rfl
  | acquire lk free proc similar holds =>
    exact before.similar proc similar (by rw [holds]; exact before.owner) fun _ _ => rfl
  | release lk held proc similar holds =>
    exact before.similar proc similar (by rw [holds]; exact before.owner) fun _ _ => rfl
  | table pt proc similar held holds kept =>
    exact before.similar proc similar (by simp [holds, ok.owns held])
      fun self on => (kept.own self on).1
  | stop self site pt on proc held runs pc stopped =>
    refine ⟨by simp [pc, ok.owns held, CpuPc.holds, Phase.holds],
      by simp [pc, proc, CpuPc.hasProc], ?_⟩
    intro other on'
    rw [setCpu_self, proc] at on'
    cases on'
    rw [setCpu_self, setCpu_pt, pc]
    rcases stopped.own with own | own | own <;> simp [own, CpuPc.stopped]
  | sched self site on pc proc back =>
    have held := ok.owns (c := c) (by rw [pc]; rfl)
    refine ⟨by simp [back, held, CpuPc.holds], by simp [proc, back, CpuPc.hasProc], ?_⟩
    intro other on'
    rw [setCpu_self, proc, ← on] at on'
    rw [setCpu_self, setCpu_pt, back, before.running other on', pc]
    rfl
  | dispatch slot index pc ready proc back =>
    have held := ok.owns (c := c) (by rw [pc]; rfl)
    refine ⟨by simp [back, held, CpuPc.holds, Phase.holds],
      by simp [proc, back, CpuPc.hasProc], ?_⟩
    intro other on'
    rw [setCpu_self, proc] at on'
    cases on'
    simp [back, Ptable.dispatch, CpuPc.stopped]
  | remove index pc proc back =>
    have held := ok.owns (c := c) (by rw [pc]; rfl)
    refine ⟨by simp [back, held, CpuPc.holds], by simp [proc, back, CpuPc.hasProc], ?_⟩
    intro other on'
    rw [setCpu_self, proc] at on'
    cases on'
  | spawn self np kind pt on pc allocated proc leaves =>
    have held := ok.owns (c := c) (by rw [pc]; rfl)
    obtain ⟨free, -, others⟩ := Ptable.allocproc_some allocated
    refine before.similar (proc.trans on.symm) (by rw [pc, leaves]; exact ⟨rfl, rfl⟩) ?_ ?_
    · rw [leaves]
      exact ⟨fun _ => rfl, fun _ => held⟩
    · intro other on'
      change (pt.proc other).state = _
      rw [others other]
      rintro rfl
      have running := (before.running other on').mpr (by rw [pc]; rfl)
      rw [free] at running
      cases running
  | build self np pt place context on pc creates built goes saved proc runs =>
    have free : m.ptlock ≠ some c := by
      intro owns
      have := before.owner.mp owns
      rw [pc] at this
      cases this
    refine before.similar (proc.trans on.symm) (by rw [pc, runs]; exact ⟨rfl, rfl⟩) ?_ ?_
    · rw [runs]
      exact ⟨fun owns => absurd owns free, by rintro ⟨⟩⟩
    · intro other on'
      change (pt.proc other).state = _
      rw [built.others other]
      rintro rfl
      have running := (before.running other on').mpr (by rw [pc]; rfl)
      exact ok.embryo_not_running creates running

theorem Effect.embryo (effect : Effect m c state m') (self np : Slot)
    (creates : (m'.place self).creates = some np) : (m'.pt.proc np).state = .embryo := by
  cases effect with
  | plain | acquirePt | releasePt | acquire | release | sched | remove =>
    exact ok.embryo self np creates
  | table pt proc similar held holds kept =>
    have before := ok.embryo self np creates
    by_cases own : (m.cpu c).proc = some np
    · exact (kept.own np own).1.trans before
    · exact (kept.others np own).embryo.mpr before
  | stop acting site pt acts proc held runs pc stopped =>
    have before := ok.embryo self np creates
    refine (stopped.others np ?_).embryo.mpr before
    rintro rfl
    exact ok.embryo_not_running creates (((ok.cpus c).running np acts).mpr runs)
  | dispatch slot index pc ready proc back =>
    have before := ok.embryo self np creates
    have apart : np ≠ slot := by
      rintro rfl
      rw [ready] at before
      cases before
    simp [Ptable.dispatch, Ptable.modify_of_ne apart, before]
  | spawn acting fresh kind pt acts pc allocated proc leaves =>
    obtain ⟨free, taken, others⟩ := Ptable.allocproc_some allocated
    simp only [setCpu_place, setPlace] at creates
    change (pt.proc np).state = .embryo
    by_cases same : self = acting
    · subst same
      simp only [Function.update_self, KernelPc.creates, Option.some.injEq] at creates
      exact creates ▸ congrArg Proc.state taken
    · rw [Function.update_of_ne same] at creates
      have before := ok.embryo self np creates
      rw [others np]
      · exact before
      · rintro rfl
        rw [free] at before
        cases before
  | build acting fresh pt place context acts pc created built goes saved proc runs =>
    simp only [setCpu_place, setPlace] at creates
    change (pt.proc np).state = .embryo
    by_cases same : self = acting
    · subst same
      rw [Function.update_self] at creates
      rcases goes with ⟨again, kept⟩ | ⟨done, -⟩
      · obtain rfl := Option.some.inj (again.symm.trans creates)
        exact kept.trans (ok.embryo self fresh created)
      · rw [done] at creates
        cases creates
    · rw [Function.update_of_ne same] at creates
      rw [built.others np]
      · exact ok.embryo self np creates
      · rintro rfl
        exact same (ok.creators self acting np creates created)

theorem Effect.creators (effect : Effect m c state m') (self other np : Slot)
    (creates : (m'.place self).creates = some np)
    (creates' : (m'.place other).creates = some np) : self = other := by
  cases effect with
  | spawn acting fresh kind pt acts pc allocated proc leaves =>
    obtain ⟨free, -⟩ := Ptable.allocproc_some allocated
    have unclaimed : ∀ creator, (m.place creator).creates ≠ some fresh := by
      intro creator claims
      have before := ok.embryo creator fresh claims
      rw [free] at before
      cases before
    simp only [setCpu_place, setPlace, Function.update_apply] at creates creates'
    split at creates
    next first =>
      cases creates
      split at creates'
      next second => exact first.trans second.symm
      next => exact absurd creates' (unclaimed other)
    next =>
      split at creates'
      next =>
        cases creates'
        exact absurd creates (unclaimed self)
      next => exact ok.creators self other np creates creates'
  | build acting fresh pt place context acts pc created built goes saved proc runs =>
    have back : ∀ creator, ((Function.update m.place acting place) creator).creates = some np →
        (m.place creator).creates = some np := by
      intro creator claims
      by_cases same : creator = acting
      · subst same
        rw [Function.update_self] at claims
        rcases goes with ⟨again, -⟩ | ⟨done, -⟩
        · exact created.trans (again.symm.trans claims)
        · rw [done] at claims
          cases claims
      · rwa [Function.update_of_ne same] at claims
    exact ok.creators self other np (back self creates) (back other creates')
  | _ => exact ok.creators self other np creates creates'

theorem Ok.step {action : Cpu × Choice Lock} (taken : m.step action = some m') : m'.Ok := by
  obtain ⟨c, choice⟩ := action
  obtain ⟨state, effect⟩ := ok.effect taken
  refine ⟨?_, ok.view.step (effect.refines ok), effect.embryo ok, effect.creators ok⟩
  intro other
  by_cases same : other = c
  · subst same
    exact effect.local_self ok
  · exact effect.local_other ok same

end

omit [DecidableEq Cpu] [DecidableEq Lock] in
theorem ok_boot (boot : m.Boot) : m.Ok := by
  obtain ⟨k, booted, rfl⟩ := boot
  obtain ⟨-, -, -, kstack, pgdir, -, -, -, first, rest, -⟩ := Kernel.boot_table booted
  have idle : ∀ slot, (k.pt.proc slot).state ≠ .running := by
    intro slot
    by_cases same : slot = 0
    · subst same
      simp [first, Kernel.initcode]
    · simp [rest slot same]
  refine ⟨fun c => ?_, ⟨?_, ?_, ?_⟩, ?_, ?_⟩
  · exact ⟨by simp [CpuPc.holds], by simp [CpuPc.hasProc], by simp⟩
  · simp [view]
  · intro slot running
    exact absurd running (idle slot)
  · simp [view]
  · simp [KernelPc.creates]
  · simp [KernelPc.creates]

theorem ok_run {start : Machine Cpu Lock} {trace : List (Machine Cpu Lock × (Cpu × Choice Lock))}
    (boot : start.Boot) (run : Run start trace m) : m.Ok := by
  apply run.stateInvariant (ok_boot boot)
  intro state action next ok _ taken
  exact ok.step taken

omit [DecidableEq Cpu] [DecidableEq Lock] in
theorem Ok.off_cpu (ok : m.Ok) {self slot : Slot} (held : m.ptlock = some c)
    (on : (m.cpu c).proc = some self) (different : slot ≠ self)
    (stopped : (m.pt.proc slot).state ≠ .running) (other : Cpu) :
    (m.cpu other).proc ≠ some slot := by
  intro has
  have owns := ok.view.owner_of_stopped has stopped
  obtain rfl := Option.some.inj (held.symm.trans owns)
  exact different (Option.some.inj (has.symm.trans on))

/-- Whenever `ptable.lock` is free, a slot is running if and only if it is the process of
exactly one processor, two processors do not have the same process, and a slot in any other
state is on no processor. -/
structure OnOneCpu (m : Machine Cpu Lock) : Prop where
  running : m.ptlock = none →
    ∀ slot, (m.pt.proc slot).state = .running ↔ ∃! c, (m.cpu c).proc = some slot
  alone : m.ptlock = none → ∀ c other slot, (m.cpu c).proc = some slot →
    (m.cpu other).proc = some slot → c = other
  stopped : m.ptlock = none →
    ∀ slot, (m.pt.proc slot).state ≠ .running → ∀ c, (m.cpu c).proc ≠ some slot
  /-- A zombie that `wait` or `join` can find is on no processor, though the lock is held. -/
  reaped : ∀ c child, (m.cpu c).pc = .exec (.body .wait) ∨ (m.cpu c).pc = .exec (.body .join) →
    (m.pt.proc child).state = .zombie → ∀ other, (m.cpu other).proc ≠ some child

theorem onOneCpu_run {start : Machine Cpu Lock}
    {trace : List (Machine Cpu Lock × (Cpu × Choice Lock))} (boot : start.Boot)
    (run : Run start trace m) : m.OnOneCpu := by
  have ok := ok_run boot run
  constructor
  · exact ok.view.running_iff
  · exact fun _ => ok.view.alone
  · intro free slot stopped c has
    have owns := ok.view.owner_of_stopped has stopped
    rw [show m.view.owner = none from free] at owns
    cases owns
  · intro c child scanning dead
    have place : (m.cpu c).pc.holds = true ∧ (m.cpu c).pc.hasProc = true ∧
        (m.cpu c).pc.stopped = false := by
      rcases scanning with waits | joins
      · rw [waits]
        exact ⟨rfl, rfl, rfl⟩
      · rw [joins]
        exact ⟨rfl, rfl, rfl⟩
    obtain ⟨self, on⟩ := Option.ne_none_iff_exists'.mp ((ok.cpus c).proc.mpr place.2.1)
    have running := ((ok.cpus c).running self on).mpr place.2.2
    refine ok.off_cpu (ok.owns place.1) on ?_ (by rw [dead]; decide)
    rintro rfl
    rw [dead] at running
    cases running

/-- Two processors at boot. -/
def twoCpus : Machine (Fin 2) Unit where
  pt := Kernel.firstBoot.pt
  place := fun _ => .user
  context := fun _ => .forkret
  cpu := fun _ => {}
  ptlock := none
  lock := fun _ => none

theorem boot_twoCpus : twoCpus.Boot := ⟨Kernel.firstBoot, Kernel.boot_firstBoot, rfl⟩

end Machine

end Xv6.Smp
