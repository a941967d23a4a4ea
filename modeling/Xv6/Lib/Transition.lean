import Xv6.Lib.Numerals

/-!
# Runs of partial step functions

A transition system is given by a partial step function: `step state action` is
`none` when the action cannot be taken in the state.  A run records, for every
step, the state in which the step was taken and its action, so that a statement
about the order of events in a run is a statement about a list.

Runs are restricted by a guard on the steps.  The guard `fun _ _ => True` gives
all runs; a stronger one states an assumption about how the system is driven.
-/

namespace Transition

universe u v

variable {State : Type u} {Action : Type v}

/-- `Run step guard start trace state`: the steps recorded in `trace` lead from
`start` to `state`, and each of them meets `guard` where it is taken. -/
inductive Run (step : State → Action → Option State)
    (guard : State → Action → Prop) (start : State) :
    List (State × Action) → State → Prop where
  | nil : Run step guard start [] start
  | snoc {trace : List (State × Action)} {state next : State} {action : Action} :
      Run step guard start trace state → guard state action →
      step state action = some next →
      Run step guard start (trace ++ [(state, action)]) next

/-- Execute a list of actions, failing at the first one that is not enabled. -/
def exec (step : State → Action → Option State) :
    State → List Action → Option State
  | state, [] => some state
  | state, action :: rest =>
    match step state action with
    | none => none
    | some next => exec step next rest

/-- The steps of an execution, each with the state it is taken in. -/
def traceOf (step : State → Action → Option State) :
    State → List Action → List (State × Action)
  | _, [] => []
  | state, action :: rest =>
    (state, action) ::
      match step state action with
      | none => []
      | some next => traceOf step next rest

variable {step : State → Action → Option State}
  {guard stronger : State → Action → Prop} {start state next : State}
  {trace : List (State × Action)} {action : Action}

namespace Run

/-- The invariant rule: what holds at the start and is kept by every step of a
run holds at its end.  The invariant may speak about the trace. -/
theorem invariant {inv : List (State × Action) → State → Prop} (initial : inv [] start)
    (preserved : ∀ {trace state action next},
      Run step guard start trace state → inv trace state → guard state action →
      step state action = some next → inv (trace ++ [(state, action)]) next)
    (run : Run step guard start trace state) : inv trace state := by
  induction run with
  | nil => exact initial
  | snoc before allowed taken ih => exact preserved before ih allowed taken

/-- The invariant rule for a predicate on states alone. -/
theorem stateInvariant {inv : State → Prop} (initial : inv start)
    (preserved : ∀ {state action next}, inv state → guard state action →
      step state action = some next → inv next)
    (run : Run step guard start trace state) : inv state := by
  induction run with
  | nil => exact initial
  | snoc _ allowed taken ih => exact preserved ih allowed taken

/-- A run whose steps meet one guard meets every guard that follows from it in
the states of the run. -/
theorem weaken (inv : State → Prop) (initial : inv start)
    (preserved : ∀ {state action next}, inv state → stronger state action →
      step state action = some next → inv next)
    (implies : ∀ {state action}, inv state → stronger state action →
      guard state action) (run : Run step stronger start trace state) :
    Run step guard start trace state := by
  induction run with
  | nil => exact .nil
  | snoc before allowed taken ih =>
    exact .snoc ih (implies (before.stateInvariant initial preserved) allowed) taken

/-- What each step of a run meets can be added to its guard. -/
theorem restrict (extra : State → Action → Prop) (run : Run step guard start trace state)
    (met : ∀ entry ∈ trace, extra entry.1 entry.2) :
    Run step (fun state action => guard state action ∧ extra state action) start trace
      state := by
  induction run with
  | nil => exact .nil
  | snoc before allowed taken ih =>
    refine .snoc (ih fun entry member => met entry ?_) ⟨allowed, ?_⟩ taken
    · exact List.mem_append_left _ member
    · exact met (_, _) (by simp)

variable {before after : List (State × Action)}

theorem split (run : Run step guard start (before ++ (state, action) :: after) next) :
    Run step guard start before state ∧ guard state action ∧
      ∃ middle, step state action = some middle ∧
        Run step guard middle after next := by
  generalize whole : before ++ (state, action) :: after = trace at run
  induction run generalizing after with
  | nil => simp at whole
  | @snoc trace last next' action' prior allowed taken ih =>
    rcases List.eq_nil_or_concat after with rfl | ⟨after', final, rfl⟩
    · have parts := List.append_inj' whole rfl
      simp only [List.cons.injEq, Prod.mk.injEq, and_true] at parts
      obtain ⟨rfl, rfl, rfl⟩ := parts
      exact ⟨prior, allowed, next', taken, .nil⟩
    · rw [List.concat_eq_append, ← List.cons_append, ← List.append_assoc] at whole
      have parts := List.append_inj' whole rfl
      obtain ⟨initialRun, firstAllowed, middle, firstTaken, rest⟩ := ih parts.1
      simp only [List.cons.injEq, and_true] at parts
      obtain ⟨-, rfl⟩ := parts
      rw [List.concat_eq_append]
      exact ⟨initialRun, firstAllowed, middle, firstTaken,
        .snoc rest allowed taken⟩

theorem append {middle : State} (first : Run step guard start before middle)
    (second : Run step guard middle after next) : Run step guard start (before ++ after) next := by
  induction second with
  | nil => simpa using first
  | snoc _ allowed taken ih =>
    rw [← List.append_assoc]
    exact .snoc ih allowed taken

/-- The simulation rule: where every step that meets the guard leaves the view of the state
as it is or is a step of another system, the views of a run are a run of that system. -/
theorem simulate {State' : Type u} {Action' : Type v}
    {step' : State' → Action' → Option State'} {guard' : State' → Action' → Prop}
    (view : State → State') (inv : State → Prop) (initial : inv start)
    (simulates : ∀ {state action next}, inv state → guard state action →
      step state action = some next → inv next ∧ (view next = view state ∨
        ∃ action', guard' (view state) action' ∧
          step' (view state) action' = some (view next)))
    (run : Run step guard start trace state) :
    inv state ∧ ∃ trace', Run step' guard' (view start) trace' (view state) := by
  induction run with
  | nil => exact ⟨initial, [], .nil⟩
  | snoc _ allowed taken ih =>
    obtain ⟨kept, trace', before⟩ := ih
    obtain ⟨next, same | ⟨action', allowed', taken'⟩⟩ := simulates kept allowed taken
    · exact ⟨next, trace', same ▸ before⟩
    · exact ⟨next, _, .snoc before allowed' taken'⟩

/-- An execution is a run under every guard that its steps meet. -/
theorem of_exec {actions : List Action} (executed : exec step start actions = some state)
    (allowed : ∀ entry ∈ traceOf step start actions, guard entry.1 entry.2) :
    Run step guard start (traceOf step start actions) state := by
  induction actions generalizing start with
  | nil =>
    obtain rfl : start = state := by simpa [exec] using executed
    exact .nil
  | cons action rest ih =>
    cases taken : step start action with
    | none => simp [exec, taken] at executed
    | some middle =>
      simp only [exec, taken] at executed
      simp only [traceOf, taken, List.mem_cons, forall_eq_or_imp] at allowed ⊢
      have first : Run step guard start ([] ++ [(start, action)]) middle :=
        .snoc .nil allowed.1 taken
      exact first.append (ih executed allowed.2)

/-- What can be evaluated about an execution holds at the end of a run. -/
theorem of_exec_met {property : State → Prop} [DecidablePred property] (actions : List Action)
    (allowed : ∀ entry ∈ traceOf step start actions, guard entry.1 entry.2)
    (met : (exec step start actions).any (decide <| property ·) = true) :
    ∃ state, Run step guard start (traceOf step start actions) state ∧ property state := by
  obtain ⟨state, executed, holds⟩ := (Option.any_eq_true _ _).mp met
  exact ⟨state, of_exec executed allowed, of_decide_eq_true holds⟩

theorem exists_met {property : State → Prop} [DecidablePred property] (actions : List Action)
    (allowed : ∀ entry ∈ traceOf step start actions, guard entry.1 entry.2)
    (met : (exec step start actions).any (decide <| property ·) = true) :
    ∃ state trace, Run step guard start trace state ∧ property state := by
  obtain ⟨state, run, holds⟩ := of_exec_met actions allowed met
  exact ⟨state, _, run, holds⟩

end Run

end Transition
