import Xv6.Kernel.Smp

/-!
# What a step of the machine can do

Every step of a processor is one of a dozen effects on the machine.  The
invariants of the machine are proved once for each effect.
-/

namespace Xv6

namespace Smp

variable {Cpu Lock : Type} {before after : Proc}

/-! ## What a place tells -/

/-- The places of a process under `ptable.lock`. -/
def Phase.holds : Phase Lock → Bool
  | .run | .enter _ | .relock _ => false
  | _ => true

/-- The places of a processor under `ptable.lock`. -/
def CpuPc.holds : CpuPc Lock → Bool
  | .idle | .irq | .irqEnter _ => false
  | .exec phase => phase.holds
  | _ => true

/-- The places at which a processor has a process. -/
def CpuPc.hasProc : CpuPc Lock → Bool
  | .exec _ | .returned => true
  | _ => false

/-- The places at which that process has changed its state to leave. -/
def CpuPc.stopped : CpuPc Lock → Bool
  | .exec (.swtch _) | .returned => true
  | _ => false

/-- Two places with and without a process alike, and in the same relation to its
state. -/
structure CpuPc.Similar (pc pc' : CpuPc Lock) : Prop where
  hasProc : pc'.hasProc = pc.hasProc
  stopped : pc'.stopped = pc.stopped

/-! ## Changes of the table -/

/-- What another process's code does to a slot under the lock. -/
structure Touch (before after : Proc) : Prop where
  chan : after.chan = before.chan
  state : after.state = before.state ∨
    (before.state = .sleeping ∧ after.state = .runnable) ∨
    (before.state = .zombie ∧ after.state = .unused)

theorem Touch.refl (entry : Proc) : Touch entry entry := ⟨rfl, .inl rfl⟩

theorem Touch.running (touch : Touch before after) :
    after.state = .running ↔ before.state = .running := by
  rcases touch.state with same | ⟨asleep, woken⟩ | ⟨dead, freed⟩
  · rw [same]
  · simp [asleep, woken]
  · simp [dead, freed]

theorem Touch.state_of_running (touch : Touch before after)
    (running : before.state = .running) : after.state = before.state := by
  rw [touch.running.mpr running, running]

theorem Touch.embryo (touch : Touch before after) :
    after.state = .embryo ↔ before.state = .embryo := by
  rcases touch.state with same | ⟨asleep, woken⟩ | ⟨dead, freed⟩
  · rw [same]
  · simp [asleep, woken]
  · simp [dead, freed]

/-- A section that leaves the acting process running. -/
structure Kept (pt pt' : Ptable) (acting : Option Slot) : Prop where
  own : ∀ slot, acting = some slot → (pt'.proc slot).state = (pt.proc slot).state ∧
    ((pt'.proc slot).chan = (pt.proc slot).chan ∨ (pt'.proc slot).chan = .null)
  others : ∀ slot, acting ≠ some slot → Touch (pt.proc slot) (pt'.proc slot)

/-- A section that ends with the acting process in another state. -/
structure Stopped (pt pt' : Ptable) (acting : Slot) : Prop where
  own : (pt'.proc acting).state = .runnable ∨ (pt'.proc acting).state = .sleeping ∨
    (pt'.proc acting).state = .zombie
  others : ∀ slot, slot ≠ acting → Touch (pt.proc slot) (pt'.proc slot)

/-- A stretch of `fork` or `clone` that writes to the new slot only. -/
structure Built (pt pt' : Ptable) (np : Slot) : Prop where
  chan : (pt'.proc np).chan = (pt.proc np).chan
  others : ∀ slot, slot ≠ np → pt'.proc slot = pt.proc slot

end Smp

namespace Ptable

open Smp

variable {pt : Ptable} {self : Slot} {change : Proc → Proc} {pt' : Ptable} {np : Slot}

theorem kept_of_touch {acting : Option Slot}
    (running : ∀ slot, acting = some slot → (pt.proc slot).state = .running)
    (touch : ∀ slot, Touch (pt.proc slot) (pt'.proc slot)) : Kept pt pt' acting where
  own := fun slot acts =>
    ⟨(touch slot).state_of_running (running slot acts), .inl (touch slot).chan⟩
  others := fun slot _ => touch slot

theorem touch_modify {slot : Slot}
    (touch : Touch (pt.proc slot) (change (pt.proc slot))) (other : Slot) :
    Touch (pt.proc other) ((pt.modify slot change).proc other) := by
  rw [modify_proc]
  split
  next same => exact same ▸ touch
  next => exact .refl _

/-- `wakeup` touches a slot by waking it up, if at all. -/
theorem touch_wakeup (pt : Ptable) (chan : Chan) (slot : Slot) :
    Touch (pt.proc slot) ((pt.wakeup chan).proc slot) := by
  change Touch _ (wakeup1 pt.proc chan slot)
  rw [wakeup1_apply, wakeOn_eq]
  refine ⟨rfl, ?_⟩
  by_cases asleep : (pt.proc slot).state = .sleeping ∧ (pt.proc slot).chan = chan
  · exact .inr (.inl ⟨asleep.1, by simp [asleep]⟩)
  · exact .inl (by simp [asleep])

theorem touch_setpark (pt : Ptable) (self slot : Slot) :
    Touch (pt.proc slot) ((pt.setpark self).1.proc slot) := by
  unfold setpark
  split
  · exact touch_modify ⟨rfl, .inl rfl⟩ slot
  · exact .refl _

theorem touch_unpark (pt : Ptable) (pid : Int) (slot : Slot) :
    Touch (pt.proc slot) ((pt.unpark pid).1.proc slot) := by
  rcases pt.unpark_cases pid with same | past | ⟨other, -, -, -, noted⟩ |
    ⟨other, -, asleep, -, woken⟩
  · rw [same]
    exact .refl _
  · rw [past]
    exact .refl _
  · rw [noted]
    exact touch_modify ⟨rfl, .inl rfl⟩ slot
  · rw [woken]
    exact touch_modify ⟨rfl, .inr (.inl ⟨asleep, rfl⟩)⟩ slot

theorem touch_kill (pt : Ptable) (pid : Int) (slot : Slot) :
    Touch (pt.proc slot) ((pt.kill pid).1.proc slot) := by
  rcases pt.kill_cases pid with same | ⟨other, -, -, killed⟩
  · rw [same]
    exact .refl _
  · rw [killed]
    refine touch_modify ⟨rfl, ?_⟩ slot
    by_cases asleep : (pt.proc other).state = .sleeping
    · exact .inr (.inl ⟨asleep, by simp [asleep]⟩)
    · exact .inl (by simp [asleep])

theorem touch_scan {wanted counts : Proc → Bool} {reap : Slot → Ptable × Scan}
    (reaps : ∀ child, (pt.proc child).state = .zombie →
      ∀ slot, Touch (pt.proc slot) ((reap child).1.proc slot))
    (awake : (pt.scan self wanted counts reap).2 ≠ .sleeps) (slot : Slot) :
    Touch (pt.proc slot) ((pt.scan self wanted counts reap).1.proc slot) := by
  rcases pt.scan_cases self wanted counts reap with
    ⟨child, -, dead, -, result⟩ | ⟨-, failed | sleeps⟩
  · rw [result]
    exact reaps child dead slot
  · rw [failed]
    exact .refl _
  · rw [sleeps] at awake
    exact absurd rfl awake

theorem touch_release {child : Slot} (same : pt'.proc = pt.proc)
    (dead : (pt.proc child).state = .zombie) (slot : Slot) :
    Touch (pt.proc slot) ((pt'.modify child release).proc slot) := by
  rw [← same] at dead ⊢
  exact touch_modify ⟨rfl, .inr (.inr ⟨dead, rfl⟩)⟩ slot

theorem touch_waitScan (awake : (pt.waitScan self).2 ≠ .sleeps) (slot : Slot) :
    Touch (pt.proc slot) ((pt.waitScan self).1.proc slot) :=
  touch_scan (fun _ dead => touch_release rfl dead) awake slot

theorem touch_joinScan (awake : (pt.joinScan self).2 ≠ .sleeps) (slot : Slot) :
    Touch (pt.proc slot) ((pt.joinScan self).1.proc slot) :=
  touch_scan (fun _ dead => touch_release rfl dead) awake slot

/-- A process that is back from `sleep` still runs. -/
theorem kept_awake (pt : Ptable) (self : Slot) : Kept pt (pt.awake self) (some self) where
  own := by
    rintro slot ⟨⟩
    exact ⟨by simp [awake], .inr (by simp [awake])⟩
  others := by
    intro slot different
    have other : slot ≠ self := fun same => different (congrArg some same.symm)
    rw [awake, modify_of_ne other]
    exact .refl _

theorem stopped_modify (leaves : (change (pt.proc self)).state = .runnable ∨
      (change (pt.proc self)).state = .sleeping ∨ (change (pt.proc self)).state = .zombie) :
    Stopped pt (pt.modify self change) self where
  own := by simpa using leaves
  others := by
    intro slot different
    rw [modify_of_ne different]
    exact .refl _

theorem stopped_exit (running : (pt.proc self).state = .running) :
    Stopped pt (pt.exit self) self where
  own := by simp [exit_self]
  others := by
    intro slot different
    rw [exit_other different running]
    refine ⟨rfl, ?_⟩
    by_cases wakes : pt.ExitWakes self (pt.proc slot)
    · exact .inr (.inl ⟨wakes.1, by simp [wakes]⟩)
    · exact .inl (by simp [wakes])

theorem built_modify
    (same : pt'.proc = pt.proc) (chan : (change (pt.proc np)).chan = (pt.proc np).chan) :
    Built pt (pt'.modify np change) np where
  chan := by simpa [same] using chan
  others := by
    intro slot different
    rw [modify_of_ne different, same]

end Ptable

namespace Smp

namespace Machine

variable {Cpu Lock : Type} [DecidableEq Cpu]

section SetCpu

variable (m : Machine Cpu Lock) (c : Cpu) (state : CpuState Lock)

@[simp] theorem setCpu_self : (m.setCpu c state).cpu c = state := by simp [setCpu]

theorem setCpu_of_ne {m : Machine Cpu Lock} {c other : Cpu} {state : CpuState Lock}
    (different : other ≠ c) : (m.setCpu c state).cpu other = m.cpu other := by
  simp [setCpu, different]

@[simp] theorem setCpu_pt : (m.setCpu c state).pt = m.pt := rfl

@[simp] theorem setCpu_place : (m.setCpu c state).place = m.place := rfl

@[simp] theorem setCpu_context : (m.setCpu c state).context = m.context := rfl

@[simp] theorem setCpu_ptlock : (m.setCpu c state).ptlock = m.ptlock := rfl

@[simp] theorem setCpu_lock : (m.setCpu c state).lock = m.lock := rfl

end SetCpu

/-- What a step does.  In each case the processor moves to `state`, and the case
lists what else changes. -/
inductive Effect [DecidableEq Lock] (m : Machine Cpu Lock) (c : Cpu)
    (state : CpuState Lock) : Machine Cpu Lock → Prop where
  | plain (proc : state.proc = (m.cpu c).proc) (similar : (m.cpu c).pc.Similar state.pc)
      (holds : state.pc.holds = (m.cpu c).pc.holds) :
      Effect m c state (m.setCpu c state)
  | acquirePt (free : m.ptlock = none) (proc : state.proc = (m.cpu c).proc)
      (similar : (m.cpu c).pc.Similar state.pc) (holds : state.pc.holds = true) :
      Effect m c state ({ m with ptlock := some c }.setCpu c state)
  | releasePt (held : m.ptlock = some c) (proc : state.proc = (m.cpu c).proc)
      (similar : (m.cpu c).pc.Similar state.pc) (runs : state.pc.stopped = false)
      (holds : state.pc.holds = false) :
      Effect m c state ({ m with ptlock := none }.setCpu c state)
  | acquire (lk : Lock) (free : m.lock lk = none) (proc : state.proc = (m.cpu c).proc)
      (similar : (m.cpu c).pc.Similar state.pc)
      (holds : state.pc.holds = (m.cpu c).pc.holds) :
      Effect m c state
        ({ m with lock := Function.update m.lock lk (some c) }.setCpu c state)
  | release (lk : Lock) (held : m.lock lk = some c) (proc : state.proc = (m.cpu c).proc)
      (similar : (m.cpu c).pc.Similar state.pc)
      (holds : state.pc.holds = (m.cpu c).pc.holds) :
      Effect m c state ({ m with lock := Function.update m.lock lk none }.setCpu c state)
  | table (pt : Ptable) (proc : state.proc = (m.cpu c).proc)
      (similar : (m.cpu c).pc.Similar state.pc) (held : (m.cpu c).pc.holds = true)
      (holds : state.pc.holds = true) (kept : Kept m.pt pt (m.cpu c).proc) :
      Effect m c state ({ m with pt := pt }.setCpu c state)
  | stop (self : Slot) (site : Site Lock) (pt : Ptable) (on : (m.cpu c).proc = some self)
      (proc : state.proc = some self) (held : (m.cpu c).pc.holds = true)
      (runs : (m.cpu c).pc.stopped = false)
      (pc : state.pc = .exec (.swtch site)) (stopped : Stopped m.pt pt self) :
      Effect m c state ({ m with pt := pt }.setCpu c state)
  | sched (self : Slot) (site : Site Lock) (on : (m.cpu c).proc = some self)
      (pc : (m.cpu c).pc = .exec (.swtch site)) (proc : state.proc = some self)
      (back : state.pc = .returned) :
      Effect m c state
        ({ m with context := Function.update m.context self site }.setCpu c state)
  | dispatch (slot : Slot) (index : Nat) (pc : (m.cpu c).pc = .scan index)
      (ready : (m.pt.proc slot).state = .runnable) (proc : state.proc = some slot)
      (back : state.pc = .exec (.back (m.context slot))) :
      Effect m c state ({ m with pt := m.pt.dispatch slot }.setCpu c state)
  | remove (index : Nat) (pc : (m.cpu c).pc = .returned) (proc : state.proc = none)
      (back : state.pc = .scan index) :
      Effect m c state (m.setCpu c state)
  | spawn (self np : Slot) (kind : Spawn) (pt : Ptable) (on : (m.cpu c).proc = some self)
      (pc : (m.cpu c).pc = .exec (.body (.spawn kind)))
      (allocated : m.pt.allocproc = some (np, pt)) (proc : state.proc = some self)
      (leaves : state.pc = .exec .leave) :
      Effect m c state (({ m with pt := pt }.setPlace self (.kstack np kind)).setCpu c state)
  | build (self np : Slot) (pt : Ptable) (place : KernelPc) (context : Slot → Site Lock)
      (on : (m.cpu c).proc = some self) (pc : (m.cpu c).pc = .exec .run)
      (creates : (m.place self).creates = some np) (built : Built m.pt pt np)
      (goes : (place.creates = some np ∧ (pt.proc np).state = (m.pt.proc np).state) ∨
        (place.creates = none ∧
          ((pt.proc np).state = .unused ∨ (pt.proc np).state = .runnable)))
      (saved : context = m.context ∨ context = Function.update m.context np .forkret)
      (proc : state.proc = some self) (runs : state.pc = .exec .run) :
      Effect m c state
        (({ m with pt := pt, context := context }.setPlace self place).setCpu c state)

/-! ## Every step is such an effect -/

omit [DecidableEq Cpu] in
theorem similar_entered (call call' : Call Lock) :
    (CpuPc.exec (.enter call)).Similar (.exec (entered call')) := by
  cases call' <;> exact ⟨rfl, rfl⟩

omit [DecidableEq Cpu] in
theorem holds_entered (call : Call Lock) : (CpuPc.exec (entered call)).holds = true := by
  cases call <;> rfl

section Effects

variable [DecidableEq Lock] {m m' : Machine Cpu Lock} {c : Cpu} {self : Slot} {pc : CpuPc Lock}
  {choice : Choice Lock} {phase : Phase Lock} {lk : Lock}

theorem effect_goto (similar : (m.cpu c).pc.Similar pc)
    (holds : pc.holds = (m.cpu c).pc.holds) : ∃ state, Effect m c state (m.goto c pc) :=
  ⟨_, .plain rfl similar holds⟩

theorem effect_acquirePt (taken : m.acquirePt c pc = some m')
    (similar : (m.cpu c).pc.Similar pc) (holds : pc.holds = true) :
    ∃ state, Effect m c state m' := by
  unfold acquirePt at taken
  split at taken
  next free =>
    cases taken
    exact ⟨_, .acquirePt free rfl similar holds⟩
  next => cases taken

theorem effect_releasePt (taken : m.releasePt c pc = some m')
    (similar : (m.cpu c).pc.Similar pc) (runs : pc.stopped = false)
    (holds : pc.holds = false) : ∃ state, Effect m c state m' := by
  unfold releasePt at taken
  split at taken
  next held =>
    cases taken
    exact ⟨_, .releasePt held rfl similar runs holds⟩
  next => cases taken

theorem effect_acquire (taken : m.acquire c lk pc = some m')
    (similar : (m.cpu c).pc.Similar pc) (holds : pc.holds = (m.cpu c).pc.holds) :
    ∃ state, Effect m c state m' := by
  unfold acquire at taken
  split at taken
  next free =>
    cases taken
    exact ⟨_, .acquire lk free rfl similar holds⟩
  next => cases taken

theorem effect_release (taken : m.release c lk pc = some m')
    (similar : (m.cpu c).pc.Similar pc) (holds : pc.holds = (m.cpu c).pc.holds) :
    ∃ state, Effect m c state m' := by
  unfold release at taken
  split at taken
  next held =>
    cases taken
    exact ⟨_, .release lk held rfl similar holds⟩
  next => cases taken

/-- The loop of `scheduler`. -/
theorem effect_scan {index : Nat} (pc : (m.cpu c).pc = .scan index)
    (taken : m.scan c index = some m') : ∃ state, Effect m c state m' := by
  unfold scan at taken
  split at taken
  next bound =>
    split at taken
    next =>
      cases taken
      exact effect_goto (by rw [pc]; exact ⟨rfl, rfl⟩) (by rw [pc]; rfl)
    next ready =>
      cases taken
      exact ⟨_, .dispatch _ index pc (not_not.mp ready) rfl rfl⟩
  next => exact effect_releasePt taken (by rw [pc]; exact ⟨rfl, rfl⟩) rfl rfl

section
variable (on : (m.cpu c).proc = some self) {site : Site Lock} {call : Call Lock} {pt : Ptable}
include on

theorem effect_table {phase phase' : Phase Lock} (pc : (m.cpu c).pc = .exec phase)
    (held : phase.holds = true) (holds : phase'.holds = true)
    (similar : (CpuPc.exec phase).Similar (.exec phase')) (kept : Kept m.pt pt (some self)) :
    ∃ state, Effect m c state (m.table c pt phase') :=
  ⟨_, .table pt rfl (by rw [pc]; exact similar) (by rw [pc]; exact held) holds
    (by rw [on]; exact kept)⟩

theorem effect_stop (pc : (m.cpu c).pc = .exec phase)
    (held : phase.holds = true) (runs : (CpuPc.exec phase).stopped = false)
    (stopped : Stopped m.pt pt self) : ∃ state, Effect m c state (m.table c pt (.swtch site)) :=
  ⟨_, .stop self site pt on on (by rw [pc]; exact held) (by rw [pc]; exact runs) rfl stopped⟩

theorem effect_scanned {outcome : Ptable × Ptable.Scan} (pc : (m.cpu c).pc = .exec (.body call))
    (running : (m.pt.proc self).state = .running)
    (touch : outcome.2 ≠ .sleeps → ∀ slot, Touch (m.pt.proc slot) (outcome.1.proc slot)) :
    ∃ state, Effect m c state (m.scanned c self site outcome) := by
  unfold scanned
  split
  next => exact effect_goto (by rw [pc]; exact ⟨rfl, rfl⟩) (by rw [pc]; rfl)
  next awake =>
    refine effect_table on pc rfl rfl ⟨rfl, rfl⟩ (Ptable.kept_of_touch ?_ (touch awake))
    rintro slot ⟨⟩
    exact running

/-- The critical sections. -/
theorem effect_body (pc : (m.cpu c).pc = .exec (.body call))
    (running : (m.pt.proc self).state = .running) (taken : m.body c self call = some m') :
    ∃ state, Effect m c state m' := by
  have kept : ∀ {pt}, (∀ slot, Touch (m.pt.proc slot) (pt.proc slot)) →
      ∃ state, Effect m c state (m.table c pt .leave) := by
    intro pt touch
    refine effect_table on pc rfl rfl ⟨rfl, rfl⟩ (Ptable.kept_of_touch ?_ touch)
    rintro slot ⟨⟩
    exact running
  cases call with
  | yield =>
    cases taken
    exact effect_stop on pc rfl rfl (Ptable.stopped_modify (.inl rfl))
  | sleep chan lk => cases taken
  | wakeup chan =>
    cases taken
    exact kept (m.pt.touch_wakeup chan)
  | setpark =>
    cases taken
    exact kept (m.pt.touch_setpark self)
  | park =>
    cases taken
    cases ready : (m.pt.proc self).immediateUnpark with
    | false =>
      have asleep : ((m.pt.park self).proc self).state = .sleeping := by
        simp [Ptable.park, ready]
      rw [if_pos asleep]
      refine effect_stop on pc rfl rfl (Ptable.stopped_modify (.inr (.inl ?_)))
      simp [ready]
    | true =>
      have awake : ((m.pt.park self).proc self).state ≠ .sleeping := by
        simp [Ptable.park, ready, running]
      rw [if_neg awake]
      refine kept (Ptable.touch_modify ?_)
      simp only [ready, Bool.true_eq_false, if_false]
      exact ⟨rfl, .inl rfl⟩
  | unpark pid =>
    cases taken
    exact kept (m.pt.touch_unpark pid)
  | kill pid =>
    cases taken
    exact kept (m.pt.touch_kill pid)
  | exit =>
    simp only [body] at taken
    split at taken
    next => cases taken
    next =>
      cases taken
      exact effect_stop on pc rfl rfl (Ptable.stopped_exit running)
  | wait =>
    cases taken
    exact effect_scanned on pc running Ptable.touch_waitScan
  | join =>
    cases taken
    exact effect_scanned on pc running Ptable.touch_joinScan
  | spawn kind =>
    simp only [body] at taken
    split at taken
    next =>
      split at taken
      next =>
        cases taken
        exact effect_goto (by rw [pc]; exact ⟨rfl, rfl⟩) (by rw [pc]; rfl)
      next np pt allocated =>
        cases taken
        exact ⟨_, .spawn self np kind pt on pc allocated on rfl⟩
    next => cases taken
  | locked => cases taken

theorem effect_resume
    (pc : (m.cpu c).pc = .exec (.back site)) (taken : m.resume c self site = some m') :
    ∃ state, Effect m c state m' := by
  have goes : ∃ state, Effect m c state (m.goto c (.exec .leave)) :=
    effect_goto (by rw [pc]; exact ⟨rfl, rfl⟩) (by rw [pc]; rfl)
  have awakes : ∀ {phase : Phase Lock}, phase.holds = true →
      (CpuPc.exec (.back site)).Similar (.exec phase) →
      ∃ state, Effect m c state (m.table c (m.pt.awake self) phase) :=
    fun holds similar => effect_table on pc rfl holds similar (m.pt.kept_awake self)
  cases site with
  | forkret | yield | park =>
    cases taken
    exact goes
  | sleep lk =>
    cases lk with
    | none =>
      cases taken
      exact awakes rfl ⟨rfl, rfl⟩
    | some lk =>
      cases taken
      exact awakes rfl ⟨rfl, rfl⟩
  | wait | join =>
    cases taken
    exact awakes rfl ⟨rfl, rfl⟩
  | exit => cases taken

end

/-- The stretches of `fork` and `clone` without the lock: they write to the new
slot only, which stays an embryo, is given up or becomes runnable. -/
inductive Stretch (m : Machine Cpu Lock) (c : Cpu) (self : Slot) :
    Machine Cpu Lock → Prop where
  | mk (np : Slot) (pt : Ptable) (place : KernelPc) (context : Slot → Site Lock)
      (creates : (m.place self).creates = some np) (built : Built m.pt pt np)
      (goes : (place.creates = some np ∧ (pt.proc np).state = (m.pt.proc np).state) ∨
        (place.creates = none ∧
          ((pt.proc np).state = .unused ∨ (pt.proc np).state = .runnable)))
      (saved : context = m.context ∨ context = Function.update m.context np .forkret) :
      Stretch m c self
        (({ m with context := context }.table c pt .run).setPlace self place)

omit [DecidableEq Lock] in
theorem stretch_spawning
    (taken : m.spawning c self (m.place self) choice = some m') : Stretch m c self m' := by
  generalize here : m.place self = place at taken
  have creates : (m.place self).creates = place.creates := by rw [here]
  unfold spawning at taken
  split at taken
  next np kind page =>
    split at taken
    next => cases taken
    next pt allocated =>
      have same := (Ptable.kalloc_some allocated).1
      split at taken
      next null =>
        cases taken
        refine Stretch.mk _ _ _ _ creates ?_ (.inr ⟨rfl, .inl ?_⟩) (.inl rfl)
        · rw [Ptable.allocKstack, if_pos null]
          exact Ptable.built_modify same rfl
        · simp [Ptable.allocKstack, null]
      next valid =>
        cases taken
        refine Stretch.mk _ _ _ _ creates ?_ (.inl ⟨rfl, ?_⟩) (.inr rfl)
        · rw [Ptable.allocKstack, if_neg valid]
          exact Ptable.built_modify same rfl
        · simp [Ptable.allocKstack, valid, same]
  next np pgdir =>
    split at taken
    next => cases taken
    next pt allocated =>
      have same := (Ptable.kalloc_some allocated).1
      split at taken
      next =>
        cases taken
        refine Stretch.mk _ _ _ _ creates (Ptable.built_modify same rfl)
          (.inr ⟨rfl, .inl ?_⟩) (.inl rfl)
        simp [Ptable.abandonFork]
      next =>
        cases taken
        refine Stretch.mk _ _ _ _ creates (Ptable.built_modify same rfl)
          (.inl ⟨rfl, ?_⟩) (.inl rfl)
        simp [Ptable.forkCopy, same]
  next np fn ustack =>
    cases taken
    refine Stretch.mk _ _ _ _ creates (Ptable.built_modify rfl rfl) (.inl ⟨rfl, ?_⟩) (.inl rfl)
    simp [Ptable.cloneCopy]
  next np fn ustack mapped =>
    split at taken
    next =>
      cases taken
      refine Stretch.mk _ _ _ _ creates (Ptable.built_modify rfl rfl)
        (.inl ⟨rfl, ?_⟩) (.inl rfl)
      simp [Ptable.cloneStack]
    next =>
      cases taken
      refine Stretch.mk _ _ _ _ creates (Ptable.built_modify rfl rfl)
        (.inr ⟨rfl, .inl ?_⟩) (.inl rfl)
      simp [Ptable.abandon]
  next np =>
    cases taken
    refine Stretch.mk _ _ _ _ creates (Ptable.built_modify rfl rfl)
      (.inr ⟨rfl, .inr ?_⟩) (.inl rfl)
    simp [Ptable.publish]
  next => cases taken

theorem Stretch.effect (stretch : Stretch m c self m') (on : (m.cpu c).proc = some self)
    (pc : (m.cpu c).pc = .exec .run) : ∃ state, Effect m c state m' := by
  cases stretch with
  | mk np pt place context creates built goes saved =>
    exact ⟨_, .build self np pt place context on pc creates built goes saved on rfl⟩

theorem effect_outside (on : (m.cpu c).proc = some self)
    (pc : (m.cpu c).pc = .exec .run) (taken : m.outside c self choice = some m') :
    ∃ state, Effect m c state m' := by
  unfold outside at taken
  split at taken
  next call =>
    split at taken
    next =>
      cases taken
      exact effect_goto (by rw [pc]; exact ⟨rfl, rfl⟩) (by rw [pc]; rfl)
    next => cases taken
  next lk => exact effect_acquire taken (by rw [pc]; exact ⟨rfl, rfl⟩) (by rw [pc])
  next lk => exact effect_release taken (by rw [pc]; exact ⟨rfl, rfl⟩) (by rw [pc])
  next => exact (stretch_spawning taken).effect on pc

/-- A processor that runs a process. -/
theorem effect_exec (on : (m.cpu c).proc = some self) (pc : (m.cpu c).pc = .exec phase)
    (running : (CpuPc.exec phase).stopped = false → (m.pt.proc self).state = .running)
    (taken : m.exec c self phase choice = some m') : ∃ state, Effect m c state m' := by
  unfold exec at taken
  split at taken
  next => exact effect_outside on pc taken
  next call =>
    exact effect_acquirePt taken (by rw [pc]; exact similar_entered call call)
      (holds_entered call)
  next call => exact effect_body on pc (running rfl) taken
  next chan lk =>
    exact effect_release taken (by rw [pc]; exact ⟨rfl, rfl⟩) (by rw [pc]; rfl)
  next chan site =>
    cases taken
    exact effect_stop on pc rfl rfl (Ptable.stopped_modify (.inr (.inl rfl)))
  next site =>
    unfold sched at taken
    split at taken
    next =>
      cases taken
      exact ⟨_, .sched self site on pc on rfl⟩
    next => cases taken
  next site => exact effect_resume on pc taken
  next => exact effect_releasePt taken (by rw [pc]; exact ⟨rfl, rfl⟩) rfl rfl
  next chan =>
    cases taken
    refine effect_table on pc rfl rfl ⟨rfl, rfl⟩
      (Ptable.kept_of_touch ?_ (m.pt.touch_wakeup chan))
    rintro slot ⟨⟩
    exact running rfl
  next chan =>
    cases taken
    exact effect_goto (by rw [pc]; exact ⟨rfl, rfl⟩) (by rw [pc]; rfl)
  next => exact effect_releasePt taken (by rw [pc]; exact ⟨rfl, rfl⟩) rfl rfl
  next lk => exact effect_releasePt taken (by rw [pc]; exact ⟨rfl, rfl⟩) rfl rfl
  next lk => exact effect_acquire taken (by rw [pc]; exact ⟨rfl, rfl⟩) (by rw [pc]; rfl)
  next => cases taken

/-- Every step is one of the effects. -/
theorem step_effect (running : ∀ self, (m.cpu c).proc = some self → (m.cpu c).pc.stopped = false →
      (m.pt.proc self).state = .running)
    (idle : (m.cpu c).pc.hasProc = false → (m.cpu c).proc = none)
    (taken : m.step (c, choice) = some m') : ∃ state, Effect m c state m' := by
  generalize here : (m.cpu c).pc = pc at taken running idle
  simp only [step, here] at taken
  split at taken
  next => exact effect_acquirePt taken (by rw [here]; exact ⟨rfl, rfl⟩) rfl
  next =>
    cases taken
    exact effect_goto (by rw [here]; exact ⟨rfl, rfl⟩) (by rw [here]; rfl)
  next =>
    split at taken
    next =>
      cases taken
      exact effect_goto (by rw [here]; exact ⟨rfl, rfl⟩) (by rw [here]; rfl)
    next => cases taken
  next =>
    cases taken
    exact effect_goto (by rw [here]; exact ⟨rfl, rfl⟩) (by rw [here]; rfl)
  next => exact effect_acquire taken (by rw [here]; exact ⟨rfl, rfl⟩) (by rw [here])
  next => exact effect_release taken (by rw [here]; exact ⟨rfl, rfl⟩) (by rw [here])
  next => exact effect_acquirePt taken (by rw [here]; exact ⟨rfl, rfl⟩) rfl
  next chan =>
    cases taken
    refine ⟨_, .table _ rfl (by rw [here]; exact ⟨rfl, rfl⟩) (by rw [here]; rfl) rfl ?_⟩
    rw [idle rfl]
    exact Ptable.kept_of_touch (by simp) (m.pt.touch_wakeup chan)
  next => exact effect_releasePt taken (by rw [here]; exact ⟨rfl, rfl⟩) rfl rfl
  next index => exact effect_scan here taken
  next =>
    cases taken
    exact ⟨_, .remove _ here rfl rfl⟩
  next phase =>
    split at taken
    next => cases taken
    next self on => exact effect_exec on here (running self on) taken
  next => cases taken

end Effects

end Machine

end Smp

end Xv6
