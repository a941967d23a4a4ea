import Xv6.User.Mutex

/-!
# Mutexes and `kill`

The queue of a mutex holds pids, a killed waiter leaves its pid behind, and
`mutex_unlock` does not look at what `unpark` returns.  A mutex can thus be handed to
a thread that is gone.  It is not as long as `kill` spares the threads that are queued
or inside a section of the library.
-/

namespace Xv6.User.System

variable {s s' start : System} {self : Slot} {act : Act} {m : MutexId} {trace : List (System × Act)}

instance (s : System) (self : Slot) (m : MutexId) : Decidable (s.Owns self m) :=
  inferInstanceAs (Decidable ((∃ n ∈ s.held self, m = .user n) ∨ _))

instance (s : System) (self : Slot) (o : Obj) : Decidable (s.Unparked self o) :=
  inferInstanceAs (Decidable (_ ∧ (_ ∨ _)))

/-- Threads are killed while they do not own a given mutex.  They exit because they have
been killed, and nobody unparks one other than through the library. -/
def KillsOthers (m : MutexId) (s : System) : Act → Prop
  | .kernel (.kill _ pid) => ∀ self, s.pc self ≠ .outside → s.pid self = pid → ¬s.Owns self m
  | .kernel (.unpark _ pid) => ∀ self, s.pc self ≠ .outside → s.pid self ≠ pid
  | .exit self => (s.k.pt.proc self).killed = true
  | _ => True

instance (m : MutexId) (s : System) (act : Act) : Decidable (s.KillsOthers m act) := by
  apply Act.casesOn (motive := fun act => Decidable (s.KillsOthers m act)) act
  case kernel =>
    intro action
    apply Action.casesOn
      (motive := fun action => Decidable (s.KillsOthers m (.kernel action))) action <;>
      intros <;> unfold KillsOthers <;> infer_instance
  all_goals intros; unfold KillsOthers; infer_instance

/-- Threads are killed while they are harmless, and a killed thread does not take a
spinlock any more. -/
def KillsHarmless (s : System) : Act → Prop
  | .kernel (.kill _ pid) => ∀ self, s.pc self ≠ .outside → s.pid self = pid → s.Harmless self
  | .run self => (s.k.pt.proc self).killed = true →
      ∀ o, (s.pc self).instr ≠ some (.spinLock o)
  | _ => True

private def taken? : Instr → Option Obj
  | .spinLock o => some o
  | _ => none

private theorem taken?_iff (instr : Option Instr) :
    instr.bind taken? = none ↔ ∀ o, instr ≠ some (.spinLock o) := by
  cases instr with
  | none => simp
  | some instr => cases instr <;> simp [taken?]

instance (pc : Pc) : Decidable (∀ o, pc.instr ≠ some (.spinLock o)) :=
  decidable_of_iff _ (taken?_iff pc.instr)

instance (s : System) (act : Act) : Decidable (s.KillsHarmless act) := by
  apply Act.casesOn (motive := fun act => Decidable (s.KillsHarmless act)) act
  case kernel =>
    intro action
    apply Action.casesOn
      (motive := fun action => Decidable (s.KillsHarmless (.kernel action))) action <;>
      intros <;> unfold KillsHarmless <;> infer_instance
  all_goals intros; unfold KillsHarmless; infer_instance

/-- A thread that is gone has left no mutex locked. -/
def LeavesUnlocked (s : System) : Prop := ∀ self, s.pc self = .outside → s.held self = ∅

theorem Harmless.not_owns (harmless : s.Harmless self) : ¬s.Owns self m := by
  intro owns
  have unowned := harmless.owns m
  rw [owns_iff_abs.mp owns] at unowned
  cases unowned

theorem Harmless.not_unparked {o : Obj} (harmless : s.Harmless self) : ¬s.Unparked self o := by
  rintro ⟨⟨⟨stage, waits⟩, -⟩, -⟩
  rw [harmless.1.2.1] at waits
  cases waits

private theorem leavesUnlocked_step (unlocked : s.LeavesUnlocked) (taken : Taken s act s')
    (harmless : ∀ self, act = .exit self → s.Harmless self) : s'.LeavesUnlocked := by
  intro thread outside
  cases taken with
  | @run actor _ answer _ executes _ executed =>
    by_cases same : thread = actor
    · subst same
      rw [goto_pc_self] at outside
      exact absurd outside (next_ne_outside answer (member_of_executes executes))
    · rw [goto_pc_of_ne same, (execute_frame executed).1] at outside
      rw [goto_held_of_ne same, (execute_frame executed).2]
      exact unlocked thread outside
  | @call actor op =>
    by_cases same : thread = actor
    · subst same
      rw [goto_pc_self] at outside
      exact absurd outside (entry_ne_outside op)
    · rw [goto_pc_of_ne same] at outside
      rw [goto_held_of_ne same]
      exact unlocked thread outside
  | @exit actor =>
    by_cases same : thread = actor
    · subst same
      rw [goto_held_self]
      exact (harmless thread rfl).2
    · rw [goto_pc_of_ne same] at outside
      rw [goto_held_of_ne same]
      exact unlocked thread outside
  | kernel => exact unlocked thread outside

private theorem harmless_of_exit (inv : Inv s) (unlocked : s.LeavesUnlocked)
    (killed : (s.k.pt.proc self).killed = true) : s.Harmless self := by
  by_cases outside : s.pc self = .outside
  · refine ⟨?_, unlocked self outside⟩
    simp [Detached, outside, Pc.spinlock, Pc.waits, Pc.owns, Pc.critical]
  · exact inv.killed self outside killed

private theorem benign_run (isStart : start.Start)
    (run : Transition.Run step (fun s act => s.KillsOthers m act ∧ s.KillsHarmless act) start
      trace s) : Transition.Run step Benign start trace s ∧ s.LeavesUnlocked := by
  have initial : Inv start ∧ start.LeavesUnlocked :=
    ⟨isStart.inv, fun self _ => isStart.held self⟩
  have benign : ∀ {state : System} {act}, Inv state ∧ state.LeavesUnlocked →
      state.KillsOthers m act ∧ state.KillsHarmless act → state.Benign act := by
    rintro state act ⟨inv, unlocked⟩ ⟨others, harmless⟩
    cases act with
    | run self => exact harmless
    | call => trivial
    | exit self => exact (harmless_of_exit inv unlocked others).1
    | kernel action =>
      cases action with
      | kill => exact harmless
      | unpark => exact others
      | _ => trivial
  have preserved : ∀ {state : System} {act next}, Inv state ∧ state.LeavesUnlocked →
      state.KillsOthers m act ∧ state.KillsHarmless act → state.step act = some next →
      Inv next ∧ next.LeavesUnlocked := by
    intro state act next inv guard taken
    refine ⟨inv_step inv.1 (benign inv guard) (step_taken taken), ?_⟩
    refine leavesUnlocked_step inv.2 (step_taken taken) ?_
    rintro self rfl
    exact harmless_of_exit inv.1 inv.2 guard.1
  have kept : Inv s ∧ s.LeavesUnlocked := by
    apply run.stateInvariant
    · exact initial
    · exact preserved
  exact ⟨run.weaken _ initial preserved benign, kept.2⟩

/-- A mutex is not handed to a thread that is gone, or about to go, if `kill` hits
threads only while they are harmless: whenever its spinlock is free and it is taken,
a thread that is alive and has not been killed owns it or is on its way out of `park`
with it. -/
theorem mutex_held_by_live_thread (isStart : start.Start)
    (run : Transition.Run step (fun s act => s.KillsOthers m act ∧ s.KillsHarmless act) start
      trace s)
    (free : s.locked (.mutex m) = false) (flag : s.flag m = true) :
    ∃ self, s.pc self ≠ .outside ∧ (s.k.pt.proc self).state.Live ∧
      (s.k.pt.proc self).killed = false ∧ (s.Owns self m ∨ s.Unparked self (.mutex m)) := by
  obtain ⟨benign, unlocked⟩ := benign_run isStart run
  have inv := Inv.run isStart benign
  obtain ⟨self, charge, -⟩ := (in_charge inv free).2 flag
  have member : s.pc self ≠ .outside := by
    intro outside
    rcases charge with owns | ⟨⟨⟨stage, waits⟩, -⟩, -⟩
    · rcases owns with ⟨n, held, -⟩ | owns
      · simp [unlocked self outside] at held
      · rw [outside] at owns
        cases owns
    · exact member_of_waits waits outside
  refine ⟨self, member, inv.live self member, ?_, charge⟩
  by_contra killed
  have harmless := inv.killed self member (by simpa using killed)
  exact charge.elim harmless.not_owns harmless.not_unparked

/-- A thread waits for a mutex while another one, in the client's code, is killed. -/
def killIdleActs : List Act :=
  lockActs 1 0 ++ queueActs 2 0 ++
    [.kernel (.kill 0 4), .exit 3] ++ unlockActs 1 0

theorem mutex_held_by_live_thread_handed : ∃ s trace,
    Transition.Run step (fun s act => s.KillsOthers (.user 0) act ∧ s.KillsHarmless act)
      threeThreads trace s ∧ s.pc 3 = .outside ∧
    ∃ self, s.pc self ≠ .outside ∧ (s.k.pt.proc self).state.Live ∧
      (s.k.pt.proc self).killed = false ∧
      (s.Owns self (.user 0) ∨ s.Unparked self (.mutex (.user 0))) := by
  obtain ⟨s, run, gone, free, flag⟩ : ∃ s, Transition.Run step
      (fun s act => s.KillsOthers (.user 0) act ∧ s.KillsHarmless act) threeThreads _ s ∧
      s.pc 3 = .outside ∧ s.locked (.mutex (.user 0)) = false ∧ s.flag (.user 0) = true :=
    Transition.Run.of_exec_met killIdleActs (by decide +kernel) (by decide +kernel)
  exact ⟨s, _, run, gone, mutex_held_by_live_thread start_threeThreads run free flag⟩

/-- A thread is killed while it waits for a mutex, and exits before the mutex is
unlocked. -/
def killWaiterActs : List Act :=
  lockActs 1 0 ++ queueActs 2 0 ++
    [.kernel (.kill 0 3), .kernel (.dispatch 2), .exit 2] ++ unlockActs 1 0

/-- The mutex is handed to the dead waiter and stays taken. -/
theorem mutex_handed_to_dead_thread : ∃ s trace,
    Transition.Run step (KillsOthers (.user 0)) threeThreads trace s ∧
      s.locked (.mutex (.user 0)) = false ∧ s.flag (.user 0) = true ∧
      ∀ self, s.pc self ≠ .outside →
        ¬s.Owns self (.user 0) ∧ ¬s.Unparked self (.mutex (.user 0)) :=
  Transition.Run.exists_met killWaiterActs (by decide +kernel) (by decide +kernel)

end Xv6.User.System
