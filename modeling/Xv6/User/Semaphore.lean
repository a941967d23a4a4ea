import Xv6.User.Condvar

/-!
# Semaphores

The value of a semaphore counts the increments and decrements, and no waiter is left
behind: while threads are queued, every unit of the value is accounted for by a thread
that has been woken up and tests the value again, that has found the value positive
and is about to decrement it, or that is about to wake up a waiter.
-/

namespace Xv6.User

/-! ## The value -/

namespace Pc

/-- What a thread in `sem_wait` or `sem_post` has found out about the value and relies
on. -/
def Relies (value : Nat → Int) : Pc → Prop
  | .semDecrement n none => 0 < value n
  | .semDecrement n (some read) => read = value n ∧ 0 < read
  | .semIncrement n (some read) => read = value n
  | .wait (.semWait n) .clock | .wait (.semWait n) .add => value n ≤ 0
  | _ => True

/-- The write of `sem->value++`. -/
def increments (n : Nat) : Pc → Bool
  | .semIncrement m (some _) => decide (m = n)
  | _ => false

/-- The write of `sem->value--`. -/
def decrements (n : Nat) : Pc → Bool
  | .semDecrement m (some _) => decide (m = n)
  | _ => false

/-- A thread that has been woken up in `sem_wait` and is about to test the value
again. -/
def retests (n : Nat) : Pc → Bool
  | .lock (.cvWait (.semWait m)) _ | .semTest m true => decide (m = n)
  | _ => false

/-- A thread that has found the value positive and not decremented it yet. -/
def passed (n : Nat) : Pc → Bool
  | .semDecrement m _ => decide (m = n)
  | _ => false

/-- A thread between its `sem->value++` and the end of the following `cv_signal`. -/
def posting (n : Nat) : Pc → Bool
  | .signal (.semPost m) _ => decide (m = n)
  | _ => false

/-- A thread that may still wake up a waiter after its `sem->value++`. -/
def announces (n : Nat) : Pc → Bool
  | .signal (.semPost m) .clock | .signal (.semPost m) .test
  | .signal (.semPost m) .remove => decide (m = n)
  | _ => false

def vouches (n : Nat) (pc : Pc) : Bool := pc.retests n || pc.passed n || pc.announces n

variable {pc : Pc} {answer : Answer} {value value' : Nat → Int} {n : Nat}

theorem increments_iff : pc.increments n = true ↔ ∃ read, pc = .semIncrement n (some read) := by
  cases pc with
  | semIncrement m read => cases read <;> simp [increments]
  | _ => simp [increments]

theorem decrements_iff : pc.decrements n = true ↔ ∃ read, pc = .semDecrement n (some read) := by
  cases pc with
  | semDecrement m read => cases read <;> simp [decrements]
  | _ => simp [decrements]

theorem Relies.congr (relies : pc.Relies value)
    (same : ∀ n, pc.critical = some (.sem n) → value' n = value n) : pc.Relies value' := by
  cases pc with
  | semDecrement n read =>
    cases read <;> simpa only [Relies, same n rfl] using relies
  | semIncrement n read =>
    cases read with
    | none => trivial
    | some value => simpa only [Relies, same n rfl] using relies
  | wait call place =>
    cases call with
    | client c m => trivial
    | semWait n =>
      cases place with
      | clock | add => simpa only [Relies, same n rfl] using relies
      | _ => trivial
  | _ => trivial

theorem posting_of_announces (announces : pc.announces n = true) : pc.posting n = true := by
  cases pc with
  | signal call place =>
    cases call with
    | client c => cases place <;> cases announces
    | semPost m => cases place <;> first | exact announces | cases announces
  | _ => cases announces

theorem vouches_lockReturn : (MutexCall.cvWait (.semWait n)).lockReturn.vouches n = true := by
  simp [MutexCall.lockReturn, vouches, retests]

theorem vouches_next (answer : Answer) (vouches : pc.vouches n = true) :
    (pc.next answer).vouches n = true ∨
      pc = .semTest n true ∧ answer.test = true ∨
      (∃ read, pc = .semDecrement n (some read)) ∨
      pc = .signal (.semPost n) .test ∧ answer.test = true ∨
      pc = .signal (.semPost n) .remove := by
  cases pc with
  | lock call place =>
    cases call with
    | cvWait call =>
      cases call with
      | client c m => cases vouches
      | semWait m =>
        obtain rfl : m = n := by simpa [Pc.vouches, retests, passed, announces] using vouches
        cases place with
        | leave | parked => exact .inl vouches_lockReturn
        | _ => exact .inl vouches
    | _ => cases vouches
  | semTest m again =>
    cases again with
    | false => cases vouches
    | true =>
      obtain rfl : m = n := by simpa [Pc.vouches, retests, passed, announces] using vouches
      cases test : answer.test with
      | true => exact .inr (.inl ⟨rfl, rfl⟩)
      | false => simp [next, test, Pc.vouches, passed]
  | semDecrement m read =>
    obtain rfl : m = n := by simpa [Pc.vouches, retests, passed, announces] using vouches
    cases read with
    | none => exact .inl vouches
    | some read => exact .inr (.inr (.inl ⟨read, rfl⟩))
  | signal call place =>
    cases call with
    | client c => cases place <;> cases vouches
    | semPost m =>
      cases place with
      | clock => exact .inl vouches
      | test =>
        obtain rfl : m = n := by
          simpa [Pc.vouches, retests, passed, announces] using vouches
        cases test : answer.test with
        | true => exact .inr (.inr (.inr (.inl ⟨rfl, rfl⟩)))
        | false => simp [next, test, Pc.vouches, announces]
      | remove =>
        obtain rfl : m = n := by
          simpa [Pc.vouches, retests, passed, announces] using vouches
        simp
      | unpark | unclock => cases vouches
  | outside | idle | unlock | wait | broadcast | semIncrement => cases vouches

theorem relies_lockReturn (call : MutexCall) : call.lockReturn.Relies value := by
  cases call with
  | cvWait call => cases call <;> trivial
  | _ => trivial

theorem relies_unlockReturn (call : MutexCall) : call.unlockReturn.Relies value := by
  cases call with
  | cvWait call => cases call <;> trivial
  | _ => trivial

end Pc

namespace System

variable {s s' start : System} {self : Slot} {act : Act} {n : Nat}
  {trace : List (System × Act)} {answer : Answer} {after : System} {instr : Instr} {pc : Pc}
  {value : Int}

section
variable (n : Nat)

/-- A step completes `sem->value++`. -/
def isIncrement : System × Act → Bool
  | (s, .run self) => (s.pc self).increments n
  | _ => false

/-- A step completes `sem->value--`. -/
def isDecrement : System × Act → Bool
  | (s, .run self) => (s.pc self).decrements n
  | _ => false

def increments (trace : List (System × Act)) : Nat := trace.countP (isIncrement n)

def decrements (trace : List (System × Act)) : Nat := trace.countP (isDecrement n)

end

theorem execute_value (executed : s.execute self instr = some (after, answer)) :
    after.value = s.value ∨
      ∃ n value, instr = .writeValue n value ∧
        after.value = Function.update s.value n value := by
  cases instr with
  | spinLock o =>
    simp only [execute, Option.ite_none_left_eq_some, Option.some.injEq,
      Prod.mk.injEq] at executed
    obtain ⟨-, rfl, -⟩ := executed
    exact .inl rfl
  | setpark | park | unpark =>
    simp only [execute, Option.map_eq_some_iff, Prod.mk.injEq] at executed
    obtain ⟨k, -, rfl, -⟩ := executed
    exact .inl rfl
  | writeValue n value =>
    cases executed
    exact .inr ⟨n, value, rfl, rfl⟩
  | _ =>
    cases executed
    exact .inl rfl

theorem instr_writeValue (executes : pc.instr = some (.writeValue n value)) :
    (∃ read, pc = .semIncrement n (some read) ∧ value = toInt (read + 1)) ∨
      ∃ read, pc = .semDecrement n (some read) ∧ value = toInt (read - 1) := by
  cases pc with
  | lock call place | unlock call place | wait call place => cases place <;> cases executes
  | signal call place | broadcast c place => cases place <;> cases executes
  | semIncrement m read =>
    cases read with
    | none => cases executes
    | some read =>
      cases executes
      exact .inl ⟨read, rfl, rfl⟩
  | semDecrement m read =>
    cases read with
    | none => cases executes
    | some read =>
      cases executes
      exact .inr ⟨read, rfl, rfl⟩
  | outside | idle | semTest => cases executes

theorem value_step (relies : ∀ self, (s.pc self).Relies s.value) (taken : Taken s act s')
    (n : Nat) :
    isIncrement n (s, act) = false ∧ isDecrement n (s, act) = false ∧
        s'.value n = s.value n ∨
      isIncrement n (s, act) = true ∧ isDecrement n (s, act) = false ∧
        s'.value n = toInt (s.value n + 1) ∨
      isIncrement n (s, act) = false ∧ isDecrement n (s, act) = true ∧ 0 < s.value n ∧
        s'.value n = toInt (s.value n - 1) := by
  cases taken with
  | @run self instr answer after executes here executed =>
    have rely := relies self
    by_cases writes : ∃ value, instr = .writeValue n value
    · obtain ⟨value, rfl⟩ := writes
      have written : after.value n = value := by
        simp only [execute, Option.some.injEq, Prod.mk.injEq] at executed
        rw [← executed.1]
        simp
      rcases instr_writeValue executes with ⟨read, isAt, isValue⟩ | ⟨read, isAt, isValue⟩
      · rw [isAt] at rely
        obtain rfl : read = s.value n := rely
        exact .inr (.inl ⟨by simp [isIncrement, isAt, Pc.increments],
          by simp [isDecrement, isAt, Pc.decrements],
          written.trans isValue⟩)
      · rw [isAt] at rely
        obtain ⟨rfl, positive⟩ : read = s.value n ∧ 0 < read := rely
        exact .inr (.inr ⟨by simp [isIncrement, isAt, Pc.increments],
          by simp [isDecrement, isAt, Pc.decrements], positive,
          written.trans isValue⟩)
    · have same : after.value n = s.value n := by
        rcases execute_value executed with same | ⟨m, value, rfl, isAfter⟩
        · rw [same]
        · have different : n ≠ m := by
            rintro rfl
            exact writes ⟨value, rfl⟩
          rw [isAfter, Function.update_of_ne different]
      refine .inl ⟨?_, ?_, same⟩
      · by_contra increments
        obtain ⟨read, isAt⟩ := Pc.increments_iff.mp (Bool.eq_true_of_not_eq_false increments)
        rw [isAt] at executes
        exact writes ⟨_, (Option.some.inj executes).symm⟩
      · by_contra decrements
        obtain ⟨read, isAt⟩ := Pc.decrements_iff.mp (Bool.eq_true_of_not_eq_false decrements)
        rw [isAt] at executes
        exact writes ⟨_, (Option.some.inj executes).symm⟩
  | call | exit | kernel => exact .inl ⟨rfl, rfl, rfl⟩

private theorem relies_next (executes : (s.pc self).instr = some instr)
    (executed : s.execute self instr = some (after, answer)) (rely : (s.pc self).Relies s.value) :
    ((s.pc self).next answer).Relies after.value := by
  generalize s.pc self = pc at executes rely
  cases pc with
  | lock call place =>
    cases place with
    | leave | parked => exact Pc.relies_lockReturn call
    | _ => trivial
  | unlock call place =>
    cases place with
    | unguard => exact Pc.relies_unlockReturn call
    | _ => trivial
  | wait call place =>
    cases place with
    | clock =>
      cases executes
      simp only [execute, Option.ite_none_left_eq_some, Option.some.injEq,
        Prod.mk.injEq] at executed
      obtain ⟨-, rfl, -⟩ := executed
      cases call with
      | client c m => trivial
      | semWait n => exact rely
    | _ => cases call <;> trivial
  | signal call place =>
    cases place with
    | unclock => cases call <;> trivial
    | _ => trivial
  | broadcast c place => cases place <;> trivial
  | semTest n again =>
    cases executes
    cases executed
    by_cases empty : s.value n ≤ 0
    · simp [Pc.next, empty, Pc.Relies]
    · simp only [Pc.next, decide_eq_true_eq, if_neg empty]
      exact Int.not_le.mp empty
  | semDecrement n read =>
    cases read with
    | some read => trivial
    | none =>
      cases executes
      cases executed
      exact ⟨rfl, rely⟩
  | semIncrement n read =>
    cases read with
    | some read => trivial
    | none =>
      cases executes
      cases executed
      exact rfl
  | outside | idle => trivial

theorem value_kept (inv : Inv s) (taken : Taken s act s')
    (relies : ∀ self, (s.pc self).Relies s.value) (other : act ≠ .run self)
    (critical : (s.pc self).critical = some (.sem n)) : s'.value n = s.value n := by
  have writer : ∀ actor, act = .run actor → (s.pc actor).critical ≠ some (.sem n) := by
    rintro actor rfl owns
    have first : s.Owns actor (.sem n) := Holds.owns (.inr owns)
    have second : s.Owns self (.sem n) := Holds.owns (.inr critical)
    have same := (inv.protocol.token (.sem n)).owner_unique (owns_iff_abs.mp first)
      (owns_iff_abs.mp second)
    exact other (by rw [same])
  rcases value_step relies taken n with ⟨-, -, same⟩ | ⟨increments, -⟩ | ⟨-, decrements, -⟩
  · exact same
  · cases act with
    | run actor =>
      obtain ⟨read, isAt⟩ := Pc.increments_iff.mp increments
      exact absurd (by rw [isAt]; rfl) (writer actor rfl)
    | _ => cases increments
  · cases act with
    | run actor =>
      obtain ⟨read, isAt⟩ := Pc.decrements_iff.mp decrements
      exact absurd (by rw [isAt]; rfl) (writer actor rfl)
    | _ => cases decrements

theorem relies_step (inv : Inv s) (taken : Taken s act s')
    (relies : ∀ self, (s.pc self).Relies s.value) (self : Slot) : (s'.pc self).Relies s'.value := by
  by_cases isRun : act = .run self
  · subst isRun
    cases taken with
    | @run _ _ answer after executes here executed =>
      rw [goto_pc_self]
      change ((s.pc self).next answer).Relies after.value
      exact relies_next executes executed (relies self)
  by_cases isCall : ∃ op, act = .call self op
  · obtain ⟨op, rfl⟩ := isCall
    cases taken with
    | call =>
      rw [goto_pc_self]
      cases op <;> trivial
  by_cases isExit : act = .exit self
  · subst isExit
    cases taken with
    | exit =>
      rw [goto_pc_self]
      trivial
  rw [taken.pc_of_ne isRun (fun op same => isCall ⟨op, same⟩) isExit]
  exact (relies self).congr fun n critical => value_kept inv taken relies isRun critical

section
variable (isStart : start.Start) (run : Transition.Run step Benign start trace s)
include isStart run

theorem relies_run : ∀ self, (s.pc self).Relies s.value := by
  apply run.invariant
  · intro self
    rcases isStart.idle self with isAt | isAt <;> rw [isAt] <;> trivial
  · intro trace state act next before relies benign taken
    exact relies_step (Inv.run isStart before) (step_taken taken) relies

theorem value_run (bound : start.value n + increments n trace ≤ intMax) :
    s.value n = start.value n + increments n trace - decrements n trace ∧
      min (start.value n) 0 ≤ s.value n := by
  revert bound
  apply run.invariant
  · intro _
    simp [increments, decrements]
  · intro trace state act next before earlier benign taken bound
    have isInt := isStart.value n
    have exact : ∀ {value : Int}, min (start.value n) 0 ≤ value →
        value ≤ start.value n + increments n (trace ++ [(state, act)]) →
        toInt value = value := by
      intro value lower upper
      apply toInt_of_isInt
      simp only [IsInt, intMax] at isInt bound ⊢
      omega
    have counts : increments n (trace ++ [(state, act)]) =
          increments n trace + (if isIncrement n (state, act) then 1 else 0) ∧
        decrements n (trace ++ [(state, act)]) =
          decrements n trace + (if isDecrement n (state, act) then 1 else 0) := by
      simp [increments, decrements, List.countP_append, List.countP_singleton]
    obtain ⟨value, lower⟩ := earlier (by omega)
    rcases value_step (relies_run isStart before) (step_taken taken) n with
      ⟨noIncrement, noDecrement, value'⟩ | ⟨increment, noDecrement, value'⟩ |
      ⟨noIncrement, decrement, positive, value'⟩
    · simp only [noIncrement, noDecrement, Bool.false_eq_true, if_false] at counts
      omega
    · simp only [increment, noDecrement, Bool.false_eq_true, if_true, if_false] at counts
      rw [value', exact (by omega) (by omega)]
      omega
    · simp only [noIncrement, decrement, Bool.false_eq_true, if_true, if_false] at counts
      rw [value', exact (by omega) (by omega)]
      omega

theorem isInt_run (n : Nat) : IsInt (s.value n) := by
  apply run.invariant
  · exact isStart.value n
  · intro trace state act next before isInt benign taken
    rcases value_step (relies_run isStart before) (step_taken taken) n with
      ⟨-, -, value⟩ | ⟨-, -, value⟩ | ⟨-, -, -, value⟩
    · rwa [value]
    · exact value ▸ isInt_toInt _
    · exact value ▸ isInt_toInt _

end

/-! ## Waiters -/

/-- The threads that have been taken from the queue of the condition variable and have
not tested the value again. -/
def retesting (s : System) (n : Nat) : Finset Slot :=
  Finset.univ.filter fun self =>
    s.Dequeued self (.condvar (.sem n)) ∨ (s.pc self).retests n = true

/-- The threads that have found the value positive and not decremented it yet. -/
def passing (s : System) (n : Nat) : Finset Slot :=
  Finset.univ.filter fun self => (s.pc self).passed n = true

/-- The threads that vouch for a unit of the value: it is going to be tested, to be
taken or to be announced. -/
def vouchers (s : System) (n : Nat) : Finset Slot :=
  Finset.univ.filter fun self =>
    s.Dequeued self (.condvar (.sem n)) ∨ (s.pc self).vouches n = true

theorem mem_vouchers : self ∈ s.vouchers n ↔
    s.Dequeued self (.condvar (.sem n)) ∨ (s.pc self).vouches n = true := by
  simp [vouchers]

theorem not_mem_vouchers_of_idle (idle : s.pc self = .idle) : self ∉ s.vouchers n := by
  rw [mem_vouchers, idle]
  rintro (⟨⟨stage, waits⟩, -⟩ | vouches)
  · rw [idle] at waits
    cases waits
  · cases vouches

theorem vouchers_kept (inv : Inv s) (calm : s.Calm act) (benign : s.Benign act)
    (taken : Taken s act s') (other : act ≠ .run self) (vouches : self ∈ s.vouchers n) :
    self ∈ s'.vouchers n := by
  have samePc : s'.pc self = s.pc self := by
    refine taken.pc_of_ne other ?_ ?_
    · rintro op rfl
      cases taken with
      | call _ idle => exact absurd vouches (not_mem_vouchers_of_idle idle)
    · rintro rfl
      exact absurd vouches (not_mem_vouchers_of_idle calm)
  rw [mem_vouchers] at vouches ⊢
  rcases vouches with dequeued | vouches
  · refine .inl ((dequeued_step inv benign taken).mpr (.inl ⟨dequeued, fun resumes => ?_⟩))
    obtain ⟨actor, rfl, waits, samePid⟩ := resumes_some resumes
    obtain ⟨stage, waiting⟩ := dequeued.1
    have same : self = actor := inv.protocol.queued.keys
      (inv.protocol.queued.member_of_waits waiting)
      (inv.protocol.queued.member_of_waits waits) samePid
    exact other (by rw [same])
  · exact .inr (samePc ▸ vouches)

theorem wait_of_parked (waits : pc.waits = some (.condvar (.sem n), .parked)) :
    pc = .wait (.semWait n) .parked := by
  cases pc with
  | wait call place =>
    cases call with
    | client c m => cases place <;> cases waits
    | semWait m => cases place <;> cases waits; rfl
  | lock call place => cases place <;> cases waits
  | unlock call place =>
    cases call with
    | cvWait call => cases call <;> cases waits
    | _ => cases waits
  | _ => cases waits

theorem wait_of_add (executes : pc.instr = some (.queueAdd (.condvar (.sem n)))) :
    pc = .wait (.semWait n) .add := by
  cases pc with
  | lock call place | unlock call place => cases place <;> cases executes
  | wait call place =>
    cases call with
    | client c m => cases place <;> cases executes
    | semWait m => cases place <;> cases executes; rfl
  | signal call place | broadcast c place => cases place <;> cases executes
  | semDecrement m read | semIncrement m read => cases read <;> cases executes
  | outside | idle | semTest => cases executes

theorem waiter_not_vouches {stage : Handoff.Stage}
    (waits : pc.waits = some (.condvar (.sem n), stage)) : ¬pc.vouches n = true := by
  intro vouches
  cases pc with
  | lock call place => cases place <;> cases waits
  | semTest | semDecrement | signal => cases waits
  | _ => cases vouches

private theorem retests_of_resumes (taken : Taken s (.run self) s')
    (resumes : resumes (.condvar (.sem n)) (s, .run self) ≠ none) : self ∈ s'.vouchers n := by
  obtain ⟨pid, resumes⟩ := Option.ne_none_iff_exists'.mp resumes
  obtain ⟨actor, same, waits, -⟩ := resumes_some resumes
  cases same
  cases taken with
  | run =>
    rw [mem_vouchers, goto_pc_self, wait_of_parked waits]
    exact .inr (by simp [Pc.next, Pc.vouches, Pc.retests])

private theorem vouchers_run
    (inv : Inv s) (benign : s.Benign (.run self)) (executes : (s.pc self).instr = some instr)
    (here : s.k.At self .user) (executed : s.execute self instr = some (after, answer))
    (vouches : self ∈ s.vouchers n) :
    self ∈ (after.goto self ((s.pc self).next answer)
        ((s.pc self).heldAfter (s.held self))).vouchers n ∨
      s.value n ≤ 0 ∨ (∃ read, s.pc self = .semDecrement n (some read)) ∨
      s.queue (.condvar (.sem n)) = [] ∨ s.pc self = .signal (.semPost n) .remove := by
  have taken : Taken s (.run self) _ := .run executes here executed
  rw [mem_vouchers] at vouches
  rcases vouches with dequeued | vouches
  · left
    by_cases resumes : resumes (.condvar (.sem n)) (s, .run self) = none
    · rw [mem_vouchers]
      refine .inl ((dequeued_step inv benign taken).mpr (.inl ⟨dequeued, ?_⟩))
      simp [resumes]
    · exact retests_of_resumes taken resumes
  · rcases Pc.vouches_next answer vouches with
      still | ⟨isAt, test⟩ | isAt | ⟨isAt, test⟩ | isAt
    · left
      rw [mem_vouchers, goto_pc_self]
      exact .inr still
    · rw [isAt] at executes
      cases executes
      simp only [execute, Option.some.injEq, Prod.mk.injEq] at executed
      rw [← executed.2] at test
      exact .inr (.inl (of_decide_eq_true test))
    · exact .inr (.inr (.inl isAt))
    · rw [isAt] at executes
      cases executes
      simp only [execute, Option.some.injEq, Prod.mk.injEq] at executed
      rw [← executed.2] at test
      exact .inr (.inr (.inr (.inl (List.isEmpty_iff.mp test))))
    · exact .inr (.inr (.inr (.inr isAt)))

private theorem queued_before (inv : Inv s) (taken : Taken s act s')
    (relies : ∀ self, (s.pc self).Relies s.value) (positive : 0 < s.value n)
    (queued : s'.queue (.condvar (.sem n)) ≠ []) : s.queue (.condvar (.sem n)) ≠ [] := by
  intro empty
  have queue := queue_step inv taken (.condvar (.sem n))
  cases adds : adds (.condvar (.sem n)) (s, act) with
  | none =>
    rw [adds, empty] at queue
    exact queued (List.append_eq_nil_iff.mp queue).2
  | some pid =>
    obtain ⟨self, rfl, executes, -⟩ := adds_some adds
    have rely := relies self
    rw [wait_of_add executes] at rely
    exact absurd positive (Int.not_lt.mpr rely)

private theorem vouchers_signal (inv : Inv s) (calm : s.Calm (.run self))
    (benign : s.Benign (.run self)) (taken : Taken s (.run self) s')
    (isAt : s.pc self = .signal (.semPost n) .remove) :
    (s.vouchers n).card ≤ (s'.vouchers n).card := by
  have executes : (s.pc self).instr = some (.queueRemove (.condvar (.sem n))) := by
    rw [isAt]
    rfl
  have removes : removes (.condvar (.sem n)) (s, .run self) =
      some (s.queue (.condvar (.sem n))).remove.1 := if_pos executes
  obtain ⟨waiter, stage, samePid, waits⟩ := removed_waiter inv removes
  have fresh : waiter ∉ s.vouchers n := by
    rw [mem_vouchers]
    rintro (dequeued | vouches)
    · exact not_due_of_removes inv removes ⟨waiter, samePid, dequeued⟩
    · exact waiter_not_vouches waits vouches
  have enters : waiter ∈ s'.vouchers n := by
    rw [mem_vouchers]
    exact .inl ((dequeued_step inv benign taken).mpr (.inr ⟨samePid ▸ removes, stage, waits⟩))
  have subset : insert waiter ((s.vouchers n).erase self) ⊆ s'.vouchers n := by
    intro other member
    rcases Finset.mem_insert.mp member with rfl | member
    · exact enters
    · obtain ⟨different, member⟩ := Finset.mem_erase.mp member
      exact vouchers_kept inv calm benign taken (by simpa using different.symm) member
  calc (s.vouchers n).card ≤ ((s.vouchers n).erase self).card + 1 :=
        Nat.sub_le_iff_le_add.mp Finset.pred_card_le_card_erase
    _ = (insert waiter ((s.vouchers n).erase self)).card := by
        rw [Finset.card_insert_of_notMem]
        exact fun member => fresh (Finset.mem_of_mem_erase member)
    _ ≤ (s'.vouchers n).card := Finset.card_le_card subset

private theorem queue_of_write {o : Obj} (inv : Inv s) (taken : Taken s (.run self) s')
    (executes : (s.pc self).instr = some (.writeValue n value)) : s'.queue o = s.queue o := by
  simpa [adds, removes, executes] using queue_step inv taken o

private theorem vouched_step (inv : Inv s) (calm : s.Calm act) (benign : s.Benign act)
    (taken : Taken s act s') (relies : ∀ self, (s.pc self).Relies s.value)
    (isInt : IsInt (s.value n))
    (vouched : s.queue (.condvar (.sem n)) ≠ [] → s.value n ≤ (s.vouchers n).card)
    (queued : s'.queue (.condvar (.sem n)) ≠ []) : s'.value n ≤ (s'.vouchers n).card := by
  have others : ∀ {self other}, act = .run self → other ≠ self → other ∈ s.vouchers n →
      other ∈ s'.vouchers n := by
    rintro self other rfl different member
    exact vouchers_kept inv calm benign taken (by simpa using different.symm) member
  have lower : -2 ^ 31 ≤ s.value n := isInt.1
  rcases value_step relies taken n with
    ⟨-, noDecrement, value⟩ | ⟨increment, -, value⟩ | ⟨-, decrement, positive, value⟩
  · rw [value]
    by_cases positive : 0 < s.value n
    · have wasQueued := queued_before inv taken relies positive queued
      refine (vouched wasQueued).trans (Int.ofNat_le.mpr ?_)
      cases act with
      | run self =>
        cases taken with
        | run executes here executed =>
          by_cases isVoucher : self ∈ s.vouchers n
          · rcases vouchers_run inv benign executes here executed isVoucher with
              still | empty | ⟨read, isAt⟩ | unqueued | isAt
            · refine Finset.card_le_card fun other member => ?_
              by_cases same : other = self
              · exact same ▸ still
              · exact others rfl same member
            · exact absurd positive (Int.not_lt.mpr empty)
            · simp [isDecrement, isAt, Pc.decrements] at noDecrement
            · exact absurd unqueued wasQueued
            · exact vouchers_signal inv calm benign (.run executes here executed) isAt
          · refine Finset.card_le_card fun other member => ?_
            exact others rfl (by rintro rfl; exact isVoucher member) member
      | call | exit | kernel =>
        exact Finset.card_le_card fun other =>
          vouchers_kept inv calm benign taken (by simp)
    · exact (Int.not_lt.mp positive).trans (Int.natCast_nonneg _)
  · cases act with
    | run self =>
      obtain ⟨read, isAt⟩ := Pc.increments_iff.mp increment
      rw [queue_of_write inv taken (by rw [isAt]; rfl)] at queued
      have fresh : self ∉ s.vouchers n := by
        rw [mem_vouchers]
        rintro (⟨⟨stage, waits⟩, -⟩ | vouches)
        · rw [isAt] at waits
          cases waits
        · rw [isAt] at vouches
          cases vouches
      have enters : self ∈ s'.vouchers n := by
        cases taken with
        | run =>
          rw [mem_vouchers, goto_pc_self, isAt]
          exact .inr (by simp [Pc.next, Pc.vouches, Pc.announces])
      have more : (s.vouchers n).card + 1 ≤ (s'.vouchers n).card := by
        rw [← Finset.card_insert_of_notMem fresh]
        refine Finset.card_le_card fun other member => ?_
        rcases Finset.mem_insert.mp member with rfl | isVoucher
        · exact enters
        · exact others rfl (by rintro rfl; exact fresh isVoucher) isVoucher
      have bounded := toInt_le (by omega : -2 ^ 31 ≤ s.value n + 1)
      have before := vouched queued
      omega
    | _ => cases increment
  · cases act with
    | run self =>
      obtain ⟨read, isAt⟩ := Pc.decrements_iff.mp decrement
      rw [queue_of_write inv taken (by rw [isAt]; rfl)] at queued
      have fewer : ((s.vouchers n).erase self).card ≤ (s'.vouchers n).card := by
        refine Finset.card_le_card fun other member => ?_
        obtain ⟨different, member⟩ := Finset.mem_erase.mp member
        exact others rfl different member
      have one := Finset.pred_card_le_card_erase (s := s.vouchers n) (a := self)
      have bounded := toInt_le (by omega : -2 ^ 31 ≤ s.value n - 1)
      have before := vouched queued
      omega
    | _ => cases decrement

theorem vouched_run (isStart : start.Start) (run : Transition.Run step Calm start trace s)
    (n : Nat) (queued : s.queue (.condvar (.sem n)) ≠ []) : s.value n ≤ (s.vouchers n).card := by
  revert queued
  apply run.invariant
  · intro queued
    exact absurd (isStart.queue _) queued
  · intro trace state act next before vouched calm taken
    have benign := calm_run isStart before
    have after := calm_run isStart (.snoc before calm taken)
    exact vouched_step (Inv.run isStart benign) calm after.split.2.1 (step_taken taken)
      (relies_run isStart benign) (isInt_run isStart benign n) vouched

theorem card_vouchers_le (quiet : ∀ self, (s.pc self).posting n = false) :
    (s.vouchers n).card ≤ (s.retesting n).card + (s.passing n).card := by
  have subset : s.vouchers n ⊆ s.retesting n ∪ s.passing n := by
    intro self member
    rw [mem_vouchers, Pc.vouches, Bool.or_eq_true, Bool.or_eq_true] at member
    simp only [retesting, passing, Finset.mem_union, Finset.mem_filter, Finset.mem_univ,
      true_and]
    rcases member with dequeued | (retests | passed) | announces
    · exact .inl (.inl dequeued)
    · exact .inl (.inr retests)
    · exact .inr passed
    · have posting := Pc.posting_of_announces announces
      simp [quiet self] at posting
  exact (Finset.card_le_card subset).trans (Finset.card_union_le _ _)

/-- Semaphores without `kill`.  The value is the initial one plus the increments minus
the decrements, there are at most as many decrements as the initial value and the
increments allow, and the value does not become negative.  While a thread is queued
and none is between an increment and the end of the signal for it, the value is at
most the number of threads that have been woken up and not tested the value again, plus
those that have found it positive and not decremented it yet. -/
theorem semaphore_counts (isStart : start.Start)
    (run : Transition.Run step Calm start trace s) (n : Nat)
    (bound : start.value n + increments n trace < 2 ^ 31) :
    s.value n = start.value n + increments n trace - decrements n trace ∧
    (decrements n trace : Int) ≤ max (start.value n) 0 + increments n trace ∧
    (0 ≤ start.value n → 0 ≤ s.value n) ∧
    ((∀ self, (s.pc self).posting n = false) → s.queue (.condvar (.sem n)) ≠ [] →
      s.value n ≤ (s.retesting n).card + (s.passing n).card) := by
  have benign := calm_run isStart run
  obtain ⟨value, lower⟩ := value_run isStart benign (n := n) (by simp only [intMax]; omega)
  refine ⟨value, by omega, by omega, fun quiet queued => ?_⟩
  have vouched := vouched_run isStart run n queued
  have vouchers := card_vouchers_le quiet
  omega

/-- A thread calls `sem_wait` on an empty semaphore and parks. -/
def semWaitActs (self : Slot) (n : Nat) : List Act :=
  .call self (.semWait n) :: List.replicate 14 (.run self)

/-- A thread calls `sem_post` while another one waits. -/
def semPostActs (self : Slot) (n : Nat) : List Act :=
  .call self (.semPost n) :: List.replicate 15 (.run self)

/-- Two threads wait, a third one posts, and the first one is back in the loop. -/
def semActs : List Act :=
  semWaitActs 1 0 ++ semWaitActs 2 0 ++ semPostActs 3 0 ++
    .kernel (.dispatch 1) :: List.replicate 6 (.run 1)

/-- A thread that has found the value positive has not decremented it yet: another
thread is queued, the value is positive and no thread is on its way to test it. -/
theorem semaphore_unit_untested : ∃ s trace,
    Transition.Run step Calm threeThreads trace s ∧
      threeThreads.value 0 + increments 0 trace < 2 ^ 31 ∧
      (∀ self, (s.pc self).posting 0 = false) ∧ s.queue (.condvar (.sem 0)) ≠ [] ∧
      (s.retesting 0).card < s.value 0 := by
  obtain ⟨s, run, met⟩ : ∃ s, Transition.Run step Calm threeThreads _ s ∧
      (∀ self, (s.pc self).posting 0 = false) ∧ s.queue (.condvar (.sem 0)) ≠ [] ∧
      (s.retesting 0).card < s.value 0 :=
    Transition.Run.of_exec_met semActs (by decide +kernel) (by decide +kernel)
  exact ⟨s, _, run, by decide +kernel, met⟩

/-- In that state the thread that is about to take the unit is counted. -/
theorem semaphore_counts_passed : ∃ s trace,
    Transition.Run step Calm threeThreads trace s ∧ 0 < s.value 0 ∧
      s.queue (.condvar (.sem 0)) ≠ [] ∧
      s.value 0 ≤ (s.retesting 0).card + (s.passing 0).card := by
  obtain ⟨s, run, positive, quiet, queued⟩ :
      ∃ s, Transition.Run step Calm threeThreads _ s ∧ 0 < s.value 0 ∧
        (∀ self, (s.pc self).posting 0 = false) ∧ s.queue (.condvar (.sem 0)) ≠ [] :=
    Transition.Run.of_exec_met semActs (by decide +kernel) (by decide +kernel)
  exact ⟨s, _, run, positive, queued,
    (semaphore_counts start_threeThreads run 0 (by decide +kernel)).2.2.2 quiet queued⟩

end System

end Xv6.User
