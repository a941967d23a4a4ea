import Xv6.Lib.Transition

/-!
# Interrupts across locks and context switches

`pushcli` and `popcli` of `spinlock.c` keep their counter `ncli` and the saved flag `intena` in
the CPU, while the nesting they count belongs to the context that runs there: a process, or
the CPU's scheduler.  Any number of processes run on any number of CPUs; each takes and gives
back locks in any order, and changes context through `sched` and the scheduler's `swtch` only.

`acquire` is `pushcli` and then, when its loop ends, `take`; `release` is `drop` and then
`popcli`.
-/

namespace Xv6.Interrupts

open Function (update update_of_ne)

inductive Context (Cpu Process : Type) where
  | process (p : Process)
  | scheduler (c : Cpu)
  deriving DecidableEq

/-- Where a context is: it runs on a CPU, or has switched away, or has not run yet. -/
inductive Place (Cpu : Type) where
  | on (c : Cpu)
  | away
  | fresh
  deriving DecidableEq

/-- The fields of `struct cpu`, with the interrupt flag `iflag` of `%eflags`. -/
structure CpuState (Cpu Process : Type) where
  ncli : Int
  intena : Bool
  iflag : Bool
  current : Context Cpu Process

/-- What a context has nested: the locks it has taken and the other calls of `pushcli`.
`saved` is the local `intena` of `sched`.  `began` is no variable of the source: it is the
interrupt flag at the time the context began its nesting, if it was the context itself that
began it. -/
structure Nest (Cpu Lock : Type) where
  locks : List Lock
  pushes : Nat
  saved : Bool
  began : Option Bool
  place : Place Cpu

/-- `owner` is the field `cpu` of a lock that is locked. -/
structure State (Cpu Process Lock : Type) where
  cpu : Cpu → CpuState Cpu Process
  nest : Context Cpu Process → Nest Cpu Lock
  owner : Lock → Option Cpu

/-- `flag` is `cli`, `sti`, the entry to a trap or the return from it. -/
inductive Action (Cpu Process Lock : Type) where
  | flag (c : Cpu) (enabled : Bool)
  | pushcli (c : Cpu)
  | popcli (c : Cpu)
  | take (c : Cpu) (lk : Lock)
  | drop (c : Cpu) (lk : Lock)
  | sched (c : Cpu)
  | dispatch (c : Cpu) (p : Process)

variable {Cpu Process Lock : Type}

namespace CpuState

def pushcli (k : CpuState Cpu Process) : CpuState Cpu Process :=
  { k with
    ncli := k.ncli + 1
    intena := if k.ncli = 0 then k.iflag else k.intena
    iflag := false }

/-- `none` is a panic. -/
def popcli (k : CpuState Cpu Process) : Option (CpuState Cpu Process) :=
  if k.iflag then none
  else if k.ncli - 1 < 0 then none
  else some { k with ncli := k.ncli - 1, iflag := decide (k.ncli - 1 = 0) && k.intena }

end CpuState

def Nest.depth (n : Nest Cpu Lock) : Nat :=
  n.locks.length + n.pushes

namespace State

variable [DecidableEq Cpu] [DecidableEq Process]

/-- The running context changes the CPU and its own nesting. -/
def set (s : State Cpu Process Lock) (c : Cpu) (k : CpuState Cpu Process) (n : Nest Cpu Lock) :
    State Cpu Process Lock :=
  { s with cpu := update s.cpu c k, nest := update s.nest (s.cpu c).current n }

/-- A switch to another context, which goes on with `intena` and the nesting `m`. -/
def switch (s : State Cpu Process Lock) (c : Cpu) (n : Nest Cpu Lock) (y : Context Cpu Process)
    (intena : Bool) (m : Nest Cpu Lock) : State Cpu Process Lock :=
  { s with
    cpu := update s.cpu c { s.cpu c with current := y, intena := intena }
    nest := update (update s.nest (s.cpu c).current { n with place := .away }) y
      { m with place := .on c } }

variable [DecidableEq Lock]

/-- One step on one CPU, `none` when it cannot be taken.  `popcli`, `drop` and `sched` are
called as the nesting allows: after a `pushcli`, for a lock the context has, and with
`ptable.lock` (`table`) as the only thing nested. -/
def step (table : Lock) (s : State Cpu Process Lock) :
    Action Cpu Process Lock → Option (State Cpu Process Lock)
  | .flag c enabled =>
    let k := s.cpu c
    let n := s.nest k.current
    if n.depth = 0 then some (s.set c { k with iflag := enabled } n) else none
  | .pushcli c =>
    let k := s.cpu c
    let n := s.nest k.current
    some (s.set c k.pushcli { n with
      pushes := n.pushes + 1
      began := if n.depth = 0 then some k.iflag else n.began })
  | .popcli c =>
    let k := s.cpu c
    let n := s.nest k.current
    if 0 < n.pushes then k.popcli.map fun k' => s.set c k' { n with pushes := n.pushes - 1 }
    else none
  | .take c lk =>
    let n := s.nest (s.cpu c).current
    if 0 < n.pushes ∧ s.owner lk = none then
      some { s.set c (s.cpu c) { n with locks := lk :: n.locks, pushes := n.pushes - 1 } with
        owner := update s.owner lk (some c) }
    else none
  | .drop c lk =>
    let n := s.nest (s.cpu c).current
    if lk ∈ n.locks ∧ s.owner lk = some c then
      some { s.set c (s.cpu c) { n with locks := n.locks.erase lk, pushes := n.pushes + 1 } with
        owner := update s.owner lk none }
    else none
  | .sched c =>
    let k := s.cpu c
    let n := s.nest k.current
    if k.current ≠ .scheduler c ∧ n.locks = [table] ∧ n.pushes = 0 ∧ s.owner table = some c ∧
        k.ncli = 1 ∧ k.iflag = false then
      some (s.switch c { n with saved := k.intena } (.scheduler c) k.intena
        (s.nest (.scheduler c)))
    else none
  | .dispatch c p =>
    let k := s.cpu c
    let n := s.nest k.current
    let m := s.nest (.process p)
    if k.current = .scheduler c ∧ n.locks = [table] ∧ n.pushes = 0 ∧ s.owner table = some c ∧
        (m.place = .away ∨ m.place = .fresh) then
      -- A new process starts in `forkret`, behind the assignment of `sched`.
      some (s.switch c { n with began := none } (.process p)
        (if m.place = .away then m.saved else k.intena) m)
    else none

/-- Every CPU enters its scheduler; a process that has not run will find `ptable.lock` taken by
the scheduler that starts it. -/
def boot (table : Lock) : State Cpu Process Lock where
  cpu c := ⟨0, false, false, .scheduler c⟩
  nest
    | .process _ => ⟨[table], 0, false, none, .fresh⟩
    | .scheduler c => ⟨[], 0, false, none, .on c⟩
  owner _ := none

end State

/-- What the CPU's fields say about the nesting of the running context. -/
structure Counts (k : CpuState Cpu Process) (n : Nest Cpu Lock) : Prop where
  off : 0 < k.ncli → k.iflag = false
  depth : k.ncli = n.depth
  began {enabled : Bool} : 0 < k.ncli → n.began = some enabled → k.intena = enabled

variable {k k' : CpuState Cpu Process} {n n' : Nest Cpu Lock}

theorem Counts.pushcli (counts : Counts k n) (deeper : n'.depth = n.depth + 1)
    (began : n'.began = if n.depth = 0 then some k.iflag else n.began) : Counts k.pushcli n' := by
  have depth := counts.depth
  refine ⟨fun _ => rfl, ?_, fun {enabled} _ same => ?_⟩
  · simp only [CpuState.pushcli]
    omega
  · rw [began] at same
    by_cases outermost : n.depth = 0
    · simpa [outermost, CpuState.pushcli, depth] using same
    · have nested : 0 < k.ncli := by omega
      rw [if_neg outermost] at same
      simpa [CpuState.pushcli, nested.ne'] using counts.began nested same

theorem Counts.popcli_eq (counts : Counts k n) (nested : 0 < n.depth) :
    k.popcli =
      some { k with ncli := k.ncli - 1, iflag := decide (k.ncli - 1 = 0) && k.intena } := by
  have depth := counts.depth
  simp [CpuState.popcli, counts.off (by omega), show ¬ k.ncli - 1 < 0 by omega]

theorem Counts.popcli (counts : Counts k n) (began : n'.began = n.began)
    (deeper : n.depth = n'.depth + 1) (popped : k.popcli = some k') :
    Counts k' n' ∧ k'.current = k.current ∧
      (n'.depth = 0 → ∀ enabled, n.began = some enabled → k'.iflag = enabled) := by
  have depth := counts.depth
  rw [counts.popcli_eq (by omega), Option.some_inj] at popped
  subst popped
  refine ⟨⟨fun nested => ?_, ?_, fun nested same => ?_⟩, rfl, fun outermost enabled same => ?_⟩
  · simp only [Bool.and_eq_false_imp, decide_eq_true_eq] at nested ⊢
    omega
  · simp only
    omega
  · exact counts.began (by omega) (began ▸ same)
  · have last : k.ncli - 1 = 0 := by omega
    simpa [last] using counts.began (by omega) same

namespace State

/-- What holds on a CPU. -/
structure At (s : State Cpu Process Lock) (c : Cpu) : Prop where
  counts : Counts (s.cpu c) (s.nest (s.cpu c).current)
  here : (s.nest (s.cpu c).current).place = .on c
  own {c' : Cpu} : (s.cpu c).current = .scheduler c' → c' = c
  parked : (s.cpu c).current ≠ .scheduler c →
    (s.nest (.scheduler c)).place = .away ∧ (s.nest (.scheduler c)).began = none

/-- A context that does not run has nested `ptable.lock` only. -/
structure Resting (table : Lock) (n : Nest Cpu Lock) : Prop where
  alone : n.place = .away ∨ n.place = .fresh → n.locks = [table] ∧ n.pushes = 0
  saved {enabled : Bool} : n.place = .away → n.began = some enabled → n.saved = enabled
  fresh : n.place = .fresh → n.began = none

structure Sound (table : Lock) (s : State Cpu Process Lock) : Prop where
  running (c : Cpu) : At s c
  resting (x : Context Cpu Process) : Resting table (s.nest x)

variable {table : Lock} {s s' : State Cpu Process Lock} {c : Cpu}

theorem Resting.of_on (here : n.place = .on c) : Resting table n :=
  ⟨by simp [here], by simp [here], by simp [here]⟩

theorem Sound.boot : Sound table (boot table : State Cpu Process Lock) where
  running c :=
    { counts := ⟨by simp [State.boot], rfl, by simp [State.boot]⟩
      here := rfl
      own := fun same => (Context.scheduler.inj same).symm
      parked := fun other => absurd rfl other }
  resting x := by
    cases x with
    | process p => exact ⟨fun _ => ⟨rfl, rfl⟩, by simp [State.boot], fun _ => rfl⟩
    | scheduler c => exact .of_on rfl

/-- A step on one CPU keeps the invariant if it changes only contexts that are neither the
running one nor the scheduler of another CPU. -/
theorem Sound.of_local (sound : Sound table s) (cpus : ∀ c' ≠ c, s'.cpu c' = s.cpu c')
    (nests : ∀ c' ≠ c, ∀ x, x = (s.cpu c').current ∨ x = .scheduler c' →
      x ≠ (s.cpu c).current → x ≠ .scheduler c → s'.nest x = s.nest x)
    (running : At s' c) (resting : ∀ x, s'.nest x = s.nest x ∨ Resting table (s'.nest x)) :
    Sound table s' := by
  have apart : ∀ c' ≠ c, ∀ x, x = (s.cpu c').current ∨ x = .scheduler c' →
      s'.nest x = s.nest x := by
    intro c' other x there
    refine nests c' other x there (fun alike => other ?_) fun alike => other ?_
    · obtain rfl | rfl := there
      · exact Place.on.inj (((sound.running c').here.symm.trans (by rw [alike])).trans
          (sound.running c).here)
      · exact (sound.running c).own alike.symm
    · obtain rfl | rfl := there
      · exact ((sound.running c').own alike).symm
      · exact Context.scheduler.inj alike
  refine ⟨fun c' => ?_, fun x => ?_⟩
  · by_cases other : c' = c
    · exact other ▸ running
    · have before := sound.running c'
      refine ⟨?_, ?_, ?_, ?_⟩ <;>
        simp only [cpus c' other, apart c' other _ (.inl rfl), apart c' other _ (.inr rfl)]
      · exact before.counts
      · exact before.here
      · exact before.own
      · exact before.parked
  · obtain same | resting := resting x
    · exact same ▸ sound.resting x
    · exact resting

variable [DecidableEq Cpu] [DecidableEq Process]

/-- A step of the running context keeps the invariant if it keeps the counts. -/
theorem Sound.set (sound : Sound table s) (owner : Lock → Option Cpu)
    (same : k.current = (s.cpu c).current) (stays : n.place = (s.nest (s.cpu c).current).place)
    (counts : Counts k n) : Sound table { s.set c k n with owner := owner } := by
  have here : n.place = .on c := stays.trans (sound.running c).here
  refine sound.of_local (fun c' other => update_of_ne other ..)
    (fun c' other x there notCurrent _ => update_of_ne notCurrent ..) ?_ fun x => ?_
  · refine ⟨?_, ?_, ?_, ?_⟩ <;> simp only [State.set, Function.update_self, same]
    · exact counts
    · exact here
    · exact (sound.running c).own
    · intro moved
      simpa only [update_of_ne moved.symm] using (sound.running c).parked moved
  · by_cases at_x : x = (s.cpu c).current
    · right
      simpa [State.set, at_x] using Resting.of_on here
    · exact .inl (update_of_ne at_x ..)

/-- A switch keeps the invariant if what it leaves behind is at rest and what it goes on with
agrees with the CPU. -/
theorem Sound.switch (sound : Sound table s) {y : Context Cpu Process} {intena : Bool}
    {m : Nest Cpu Lock} (gone : ∀ c', (s.nest y).place ≠ .on c')
    (leaves : Resting table ({ n with place := .away } : Nest Cpu Lock))
    (counts : Counts { s.cpu c with current := y, intena := intena } m)
    (own : ∀ {c'}, y = .scheduler c' → c' = c)
    (parked : y ≠ .scheduler c → (s.cpu c).current = .scheduler c ∧ n.began = none) :
    Sound table (s.switch c n y intena m) := by
  have moved : (s.cpu c).current ≠ y := by
    rintro rfl
    exact gone c (sound.running c).here
  refine sound.of_local (fun c' other => update_of_ne other ..) ?_ ?_ fun x => ?_
  · intro c' other x there notCurrent notScheduler
    have notNext : x ≠ y := by
      rintro rfl
      obtain alike | alike := there
      · exact gone c' (alike ▸ (sound.running c').here)
      · exact other (own alike)
    simp only [State.switch, update_of_ne notNext, update_of_ne notCurrent]
  · refine ⟨?_, ?_, ?_, ?_⟩ <;> simp only [State.switch, Function.update_self]
    · exact ⟨counts.off, counts.depth, counts.began⟩
    · exact own
    · intro process
      obtain ⟨scheduler, unknown⟩ := parked process
      simp only [scheduler, update_of_ne process.symm, Function.update_self]
      exact ⟨trivial, unknown⟩
  · by_cases isNext : x = y
    · right
      simpa [State.switch, isNext] using Resting.of_on (c := c) rfl
    by_cases isCurrent : x = (s.cpu c).current
    · right
      simpa [State.switch, isCurrent, update_of_ne moved] using leaves
    · left
      simp only [State.switch, update_of_ne isNext, update_of_ne isCurrent]

variable [DecidableEq Lock]

section
variable (sound : Sound table s)
include sound

theorem Sound.sched (taken : s.step table (.sched c) = some s') : Sound table s' := by
  simp only [step, Option.ite_none_right_eq_some, Option.some_inj] at taken
  obtain ⟨⟨moved, locks, pushes, -, one, off⟩, rfl⟩ := taken
  obtain ⟨away, unknown⟩ := (sound.running c).parked moved
  obtain ⟨schedLocks, schedPushes⟩ := (sound.resting _).alone (.inl away)
  refine sound.switch (by simp [away]) ?_ ?_ (fun same => (Context.scheduler.inj same).symm)
    fun other => absurd rfl other
  · -- What `sched` saves is the flag noted when the nesting began.
    exact ⟨fun _ => ⟨locks, pushes⟩, fun _ noted => (sound.running c).counts.began (by omega) noted,
      by simp⟩
  · exact ⟨fun _ => off, by simp [one, Nest.depth, schedLocks, schedPushes], by simp [unknown]⟩

theorem Sound.dispatch {p : Process}
    (taken : s.step table (.dispatch c p) = some s') : Sound table s' := by
  simp only [step, Option.ite_none_right_eq_some, Option.some_inj] at taken
  obtain ⟨⟨current, locks, pushes, -, gone⟩, rfl⟩ := taken
  have resting := sound.resting (.process p)
  obtain ⟨procLocks, procPushes⟩ := resting.alone gone
  have counts := (sound.running c).counts
  have one : (s.cpu c).ncli = 1 := by simpa [Nest.depth, locks, pushes] using counts.depth
  refine sound.switch (fun c' here => by simp [here] at gone)
    ⟨fun _ => ⟨locks, pushes⟩, by simp, fun _ => rfl⟩ ⟨fun _ => counts.off (by omega), ?_, ?_⟩
    (by simp) fun _ => ⟨current, rfl⟩
  · simp [one, Nest.depth, procLocks, procPushes]
  · intro enabled _ noted
    obtain away | fresh := gone
    · simpa [away] using resting.saved away noted
    · simp [resting.fresh fresh] at noted

/-- `popcli`, also the one of `release`, restores the flag when it ends the nesting. -/
theorem step_popcli (taken : s.step table (.popcli c) = some s') :
    Sound table s' ∧ ((s'.nest (s.cpu c).current).depth = 0 → ∀ enabled,
      (s.nest (s.cpu c).current).began = some enabled → (s'.cpu c).iflag = enabled) := by
  simp only [step, Option.ite_none_right_eq_some, Option.map_eq_some_iff] at taken
  obtain ⟨pushed, k', popped, rfl⟩ := taken
  generalize next : ({ s.nest (s.cpu c).current with
    pushes := (s.nest (s.cpu c).current).pushes - 1 } : Nest Cpu Lock) = n
  obtain ⟨counts, same, restored⟩ : Counts k' n ∧ _ := (sound.running c).counts.popcli
    (by rw [← next]) (by simp only [← next, Nest.depth]; omega) popped
  exact ⟨sound.set _ same (by rw [← next]) counts, by simpa [State.set] using restored⟩

theorem Sound.step {action : Action Cpu Process Lock}
    (taken : s.step table action = some s') : Sound table s' := by
  cases action with
  | popcli c => exact (step_popcli sound taken).1
  | sched c => exact sound.sched taken
  | dispatch c p => exact sound.dispatch taken
  | flag c enabled =>
    simp only [State.step, Option.ite_none_right_eq_some, Option.some_inj] at taken
    obtain ⟨outermost, rfl⟩ := taken
    have counts := (sound.running c).counts
    have zero : (s.cpu c).ncli = 0 := by simpa [outermost] using counts.depth
    exact sound.set _ rfl rfl ⟨by simp [zero], counts.depth, by simp [zero]⟩
  | pushcli c =>
    simp only [State.step, Option.some_inj] at taken
    subst taken
    refine sound.set _ rfl rfl ((sound.running c).counts.pushcli ?_ rfl)
    simp only [Nest.depth]
    omega
  | take c lk =>
    simp only [State.step, Option.ite_none_right_eq_some, Option.some_inj] at taken
    obtain ⟨⟨pushed, -⟩, rfl⟩ := taken
    have counts := (sound.running c).counts
    refine sound.set _ rfl rfl ⟨counts.off, counts.depth.trans ?_, counts.began⟩
    simp only [Nest.depth, List.length_cons]
    omega
  | drop c lk =>
    simp only [State.step, Option.ite_none_right_eq_some, Option.some_inj] at taken
    obtain ⟨⟨member, -⟩, rfl⟩ := taken
    have counts := (sound.running c).counts
    have := List.length_pos_of_mem member
    refine sound.set _ rfl rfl ⟨counts.off, counts.depth.trans ?_, counts.began⟩
    simp only [Nest.depth, List.length_erase_of_mem member]
    omega

end

/-- The interrupt flag is restored exactly: in every run it is off while a CPU counts a nesting,
no `popcli` of a nesting panics, and the `popcli`, of `release` or not, that ends a process's
nesting leaves it, on the CPU the process then runs on, as it was when the process began the
nesting. -/
theorem interrupts_restored {trace : List (State Cpu Process Lock × Action Cpu Process Lock)}
    (run : Transition.Run (step table) (fun _ _ => True) (boot table) trace s) (c : Cpu) :
    (0 < (s.cpu c).ncli → (s.cpu c).iflag = false) ∧
    (0 < (s.nest (s.cpu c).current).depth → (s.cpu c).popcli ≠ none) ∧
    ∀ p s', (s.cpu c).current = .process p → s.step table (.popcli c) = some s' →
      (s'.nest (.process p)).depth = 0 → ∀ enabled,
      (s.nest (.process p)).began = some enabled →
      ((s'.cpu c).iflag = true ↔ enabled = true) := by
  have sound : Sound table s := run.stateInvariant .boot fun sound _ taken => sound.step taken
  have counts := (sound.running c).counts
  refine ⟨counts.off, fun nested => ?_, fun p s' current taken zero enabled began => ?_⟩
  · simp [counts.popcli_eq nested]
  · have restored := (step_popcli sound taken).2
    rw [current] at restored
    rw [restored zero enabled began]

/-- A process acquires `ptable.lock` (`false`) with interrupts enabled, leaves CPU 0 through
`sched`, and releases the lock on CPU 1. -/
theorem interrupts_restored_moved : ∃ (s s' : State (Fin 2) Unit Bool),
    s.step false (.popcli 1) = some s' ∧ (s.nest (.process ())).began = some true ∧
      (s'.cpu 1).iflag = true := by
  obtain ⟨s, run, current, began, met⟩ : ∃ s, Transition.Run (step false) (fun _ _ => True)
      (boot false) (Transition.traceOf (step false) _
        [.pushcli 0, .take 0 false, .dispatch 0 (), .drop 0 false, .popcli 0, .flag 0 true,
          .pushcli 0, .take 0 false, .sched 0, .drop 0 false, .popcli 0,
          .pushcli 1, .take 1 false, .dispatch 1 (), .drop 1 false]) s ∧
      (s.cpu 1).current = Context.process () ∧ (s.nest (.process ())).began = some true ∧
      (s.step false (.popcli 1)).any
        (fun s' : State (Fin 2) Unit Bool => decide ((s'.nest (.process ())).depth = 0)) = true :=
    Transition.Run.of_exec_met _ (fun _ _ => trivial) (by decide +kernel)
  obtain ⟨s', taken, zero⟩ := (Option.any_eq_true _ _).mp met
  have restored := (interrupts_restored run 1).2.2 () s' current taken (of_decide_eq_true zero)
    true began
  exact ⟨s, s', taken, began, restored.mpr rfl⟩

end State

end Xv6.Interrupts
