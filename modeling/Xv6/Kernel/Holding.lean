import Xv6.Kernel.SmpSafety

/-!
# The test of `ptable.lock` in `setpark`, `park` and `unpark`

These calls begin with `holding(&ptable.lock)` and take the lock only if the answer is 0.
`holding` runs with interrupts on: it loads `lock->cpu`, and then `cpu` to compare with.
A process that is preempted between the two goes on, perhaps, on the processor that held
the lock at the first, and takes itself for the holder.  Here the two loads are steps of
their own, on top of the machine of `Smp`, whose calls these three make otherwise.
-/

namespace Xv6.Smp

variable {Cpu Lock : Type}

/-- The calls that begin with `holding(&ptable.lock)`. -/
def Call.testsLock : Call Lock → Bool
  | .setpark | .park | .unpark _ => true
  | _ => false

/-- `loaded` is the call that a process has begun, and the processor that held
`ptable.lock` when `holding` loaded `lock->locked` and `lock->cpu`. -/
structure HoldingMachine (Cpu Lock : Type) where
  machine : Machine Cpu Lock
  loaded : Slot → Option (Call Lock × Option Cpu)

inductive HoldingChoice (Lock : Type) where
  /-- Begin a call with the loads of `lock->locked` and `lock->cpu`. -/
  | load (call : Call Lock)
  /-- Load `cpu`, and go on with the answer of `holding`. -/
  | compare
  | other (choice : Choice Lock)
  deriving DecidableEq, Repr

namespace HoldingMachine

variable [DecidableEq Cpu] [DecidableEq Lock]

/-- The process that a processor runs outside the code that takes `ptable.lock`. -/
def outside (m : HoldingMachine Cpu Lock) (c : Cpu) : Option Slot :=
  if (m.machine.cpu c).pc = .exec .run then (m.machine.cpu c).proc else none

def load (m : HoldingMachine Cpu Lock) (self : Slot) (call : Call Lock) :
    Option (HoldingMachine Cpu Lock) :=
  if call.testsLock = true ∧ m.loaded self = none ∧ m.machine.place self = .user then
    some { m with loaded := Function.update m.loaded self (some (call, m.machine.ptlock)) }
  else none

/-- With `wasHolding` the call does not release the lock at its end. -/
def keepLock (m : Machine Cpu Lock) (c : Cpu) : Machine Cpu Lock :=
  if (m.cpu c).pc = .exec .leave then m.goto c (.exec .run) else m

def compare (m : HoldingMachine Cpu Lock) (c : Cpu) (self : Slot) :
    Option (HoldingMachine Cpu Lock) :=
  match m.loaded self with
  | none => none
  | some (call, holder) =>
    if holder = some c then
      (m.machine.body c self call).map fun next =>
        ⟨keepLock next c, Function.update m.loaded self none⟩
    else
      (m.machine.outside c self (.call call)).map fun next =>
        ⟨next, Function.update m.loaded self none⟩

/-- The answer of `holding` on a processor. -/
def holding (m : HoldingMachine Cpu Lock) (c : Cpu) : Bool :=
  ((m.machine.cpu c).proc.bind m.loaded).any fun entry => decide (entry.2 = some c)

/-- A process inside `holding` makes no other call, but interrupts come there as well. -/
def allows (m : HoldingMachine Cpu Lock) (c : Cpu) : Choice Lock → Bool
  | .call call =>
    !call.testsLock && (((m.machine.cpu c).proc.bind m.loaded).isNone || call.fromInterrupt)
  | _ => true

def step (m : HoldingMachine Cpu Lock) :
    Cpu × HoldingChoice Lock → Option (HoldingMachine Cpu Lock)
  | (c, .load call) => (m.outside c).bind fun self => m.load self call
  | (c, .compare) => (m.outside c).bind fun self => m.compare c self
  | (c, .other choice) =>
    if m.allows c choice then
      (m.machine.step (c, choice)).map fun next => { m with machine := next }
    else none

def Boot (m : HoldingMachine Cpu Lock) : Prop :=
  m.machine.Boot ∧ m.loaded = fun _ => none

/-- `holding` answers 0 where it is asked: the process is outside the code under the lock. -/
def NotMisled (m : HoldingMachine Cpu Lock) : Cpu × HoldingChoice Lock → Prop
  | (c, .compare) => m.holding c = false
  | _ => True

instance (m : HoldingMachine Cpu Lock) : DecidablePred m.NotMisled
  | (c, .compare) => inferInstanceAs (Decidable (m.holding c = false))
  | (_, .load _) | (_, .other _) => inferInstanceAs (Decidable True)

variable {start m m' : HoldingMachine Cpu Lock} {c : Cpu} {self : Slot}

omit [DecidableEq Cpu] in
theorem outside_some (found : m.outside c = some self) :
    (m.machine.cpu c).pc = .exec .run ∧ (m.machine.cpu c).proc = some self := by
  unfold outside at found
  split_ifs at found with running
  exact ⟨running, found⟩

/-- Where `holding` answers 0, a step is one of `Smp`, or only loads. -/
theorem simulates_step {action : Cpu × HoldingChoice Lock} (allowed : m.NotMisled action)
    (taken : m.step action = some m') :
    m'.machine = m.machine ∨ ∃ action', m.machine.step action' = some m'.machine := by
  obtain ⟨c, load | _ | choice⟩ := action
  · left
    obtain ⟨self, -, loads⟩ := Option.bind_eq_some_iff.mp taken
    unfold HoldingMachine.load at loads
    split_ifs at loads
    cases loads
    rfl
  · right
    obtain ⟨self, found, compares⟩ := Option.bind_eq_some_iff.mp taken
    obtain ⟨running, on⟩ := outside_some found
    simp only [NotMisled, holding, on, Option.bind_some] at allowed
    unfold HoldingMachine.compare at compares
    split at compares
    · cases compares
    next call holder begun =>
      rw [if_neg (by simpa [begun] using allowed)] at compares
      obtain ⟨next, calls, rfl⟩ := Option.map_eq_some_iff.mp compares
      refine ⟨(c, .call call), ?_⟩
      simpa only [Machine.step, running, on, Machine.exec] using calls
  · right
    simp only [step] at taken
    split_ifs at taken
    obtain ⟨next, moves, rfl⟩ := Option.map_eq_some_iff.mp taken
    exact ⟨_, moves⟩

/-- As long as `holding` is not misled, a process never runs on two processors. -/
theorem process_on_one_cpu {trace : List (HoldingMachine Cpu Lock × (Cpu × HoldingChoice Lock))}
    (boot : start.Boot) (run : Transition.Run step NotMisled start trace m) :
    m.machine.OnOneCpu := by
  have simulated : True ∧ ∃ trace', Machine.Run start.machine trace' m.machine :=
    run.simulate machine (fun _ => True) trivial fun _ allowed taken =>
      ⟨trivial, (simulates_step allowed taken).imp_right
        (Exists.imp fun _ taken => ⟨trivial, taken⟩)⟩
  obtain ⟨-, trace', run'⟩ := simulated
  exact Machine.onOneCpu_run boot.1 run'

/-- Two processors at boot. -/
def atBoot : HoldingMachine (Fin 2) Unit := ⟨Machine.twoCpus, fun _ => none⟩

theorem boot_atBoot : atBoot.Boot := ⟨Machine.boot_twoCpus, rfl⟩

/-- A processor takes the first process and lets it go on. -/
def takesFirst (c : Fin 2) : List (Fin 2 × HoldingChoice Unit) :=
  List.replicate 4 (c, .other .next)

/-- The first process calls `setpark`, which takes the lock and releases it. -/
theorem process_on_one_cpu_setpark :
    ∃ m trace, Transition.Run step NotMisled atBoot trace m ∧
      m.machine.ptlock = none ∧ (m.machine.pt.proc 0).setPark = true ∧
      ((m.machine.pt.proc 0).state = .running ↔ ∃! c, (m.machine.cpu c).proc = some 0) := by
  have ran : ∃ m, Transition.Run step NotMisled atBoot
      (Transition.traceOf step atBoot (takesFirst 0 ++
        [(0, .load .setpark), (0, .compare), (0, .other .next), (0, .other .next),
          (0, .other .next)])) m ∧
      m.machine.ptlock = none ∧ (m.machine.pt.proc 0).setPark = true :=
    Transition.Run.of_exec_met _ (by decide +kernel) (by decide +kernel)
  obtain ⟨m, run, free, noted⟩ := ran
  exact ⟨m, _, run, free, noted, (process_on_one_cpu boot_atBoot run).running free 0⟩

/-- The first process, on processor 0, calls `park` while processor 1 scans the table with
`ptable.lock`.  After the loads it is preempted, and processor 1 goes on with it. -/
def misled : List (Fin 2 × HoldingChoice Unit) :=
  takesFirst 0 ++ [(1, .other .next), (0, .load .park)] ++
    List.replicate 65 (1, .other .next) ++ (0, .other (.call .yield)) ::
    List.replicate 68 (0, .other .next) ++ takesFirst 1 ++ [(1, .compare)]

/-- `park` then sets its process to `SLEEPING` without the lock, on processor 1. -/
theorem park_sleeps_without_lock :
    ∃ m trace, Transition.Run step (fun _ _ => True) atBoot trace m ∧
      m.machine.ptlock = none ∧ (m.machine.pt.proc 0).state = .sleeping ∧
      (m.machine.cpu 1).proc = some 0 :=
  Transition.Run.exists_met misled (by simp) (by decide +kernel)

end HoldingMachine

end Xv6.Smp
