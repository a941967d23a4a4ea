import Xv6.Kernel.Invariant

/-!
# No exit of a child is lost

`wait` and `join` sleep on the channel of the caller, and `exit` wakes up that
channel before the exiting process is a zombie.  The invariant says that a
process asleep in one of the two calls has no zombie child that the call would
reap.
-/

namespace Xv6.Kernel

/-- A process sleeps inside a call. -/
def SleepsIn (k : Kernel) (self : Slot) (pc : KernelPc) : Prop :=
  (k.pt.proc self).state = .sleeping ∧ k.pc self = pc

instance (k : Kernel) (self : Slot) (pc : KernelPc) : Decidable (k.SleepsIn self pc) :=
  inferInstanceAs (Decidable (_ ∧ _))

/-- A zombie that its parent has not reaped, thread or not. -/
def DeadChild (k : Kernel) (self child : Slot) (thread : Bool) : Prop :=
  (k.pt.proc child).parent = some self ∧ (k.pt.proc child).state = .zombie ∧
    (k.pt.proc child).isThread = thread

instance (k : Kernel) (self child : Slot) (thread : Bool) :
    Decidable (k.DeadChild self child thread) :=
  inferInstanceAs (Decidable (_ ∧ _ ∧ _))

/-- No process sleeps in a call that would reap one of its children. -/
def NoLostExit (k : Kernel) : Prop :=
  ∀ self child thread, k.SleepsIn self (scanPc thread) → ¬k.DeadChild self child thread

section Step

variable {k k' : Kernel} {slot : Slot} {action : Action} {entry : Proc} {pc : KernelPc}

theorem zombie_move (move : Move k k' slot action entry pc)
    (other : ∀ self, action ≠ .exit self) (dead : entry.state = .zombie) (wf : Wf k) :
    (k.pt.proc slot).state = .zombie ∧ entry.parent = (k.pt.proc slot).parent ∧
      entry.isThread = (k.pt.proc slot).isThread := by
  cases move with
  | @forked self _ here =>
    have embryo := wf.creates self slot (by simp [here.2])
    simp [embryo] at dead
  | @cloned self _ _ here =>
    have embryo := wf.creates self slot (by simp [here.2])
    simp [embryo] at dead
  | killed =>
    by_cases asleep : (k.pt.proc slot).state = .sleeping
    · simp [asleep] at dead
    · exact ⟨by simpa [asleep] using dead, rfl, rfl⟩
  | exits | orphaned => exact absurd rfl (other _)
  | resumes | wakes | leavesPark | waits | reaped | yields | taken | abandoned | published
  | parks | unparked | sleeps | woken => simp [Ptable.release] at dead
  | _ => exact ⟨dead, rfl, rfl⟩

theorem scanning_move {thread : Bool} (move : Move k k' slot action entry pc)
    (asleep : entry.state = .sleeping) (scanning : pc = scanPc thread) :
    k.SleepsIn slot (scanPc thread) ∨ ∀ child, ¬k.DeadChild slot child thread := by
  cases move with
  | @waits _ kind here none =>
    obtain rfl : kind = thread := by
      cases kind <;> cases thread <;> simp_all [scanPc]
    exact .inr fun child found =>
      none child found.1 found.2.1 found.2.2
  | killed =>
    by_cases before : (k.pt.proc slot).state = .sleeping
    · simp [before] at asleep
    · simp [before] at asleep
  | orphaned =>
    split at asleep
    · cases asleep
    · exact .inl ⟨asleep, scanning⟩
  | resized way =>
    rcases way with rfl | ⟨-, -, rfl⟩
    · exact .inl ⟨asleep, scanning⟩
    · cases thread <;> cases scanning
  | getsStack | copies | shares | maps | spawns | parks | sleeps | returns | sbrks
  | skipsPark => cases thread <;> cases scanning
  | resumes | wakes | leavesPark | reaped | yields | taken | abandoned | published | exits
  | unparked | woken => cases asleep
  | _ => exact .inl ⟨asleep, scanning⟩

theorem exit_noLostExit {self : Slot} (wf : Wf k) (inv : NoLostExit k)
    (here : k.At self .user) : NoLostExit { k with pt := k.pt.exit self } := by
  rintro parent child thread ⟨asleep, scanning⟩ ⟨childOf, dead, kind⟩
  have different : parent ≠ self := by
    rintro rfl
    simp [Ptable.exit_self] at asleep
  simp only [Ptable.exit_other different here.1] at asleep
  split at asleep
  · cases asleep
  next unwoken =>
    have chan : (k.pt.proc parent).chan = .proc parent := by
      have placed := wf.placed parent
      simp only [show k.pc parent = scanPc thread from scanning] at placed
      cases thread
      · exact placed.1
      · exact placed.1
    have notParent : (k.pt.proc self).parent ≠ some parent := fun isParent =>
      unwoken ⟨asleep, .inl (by rw [chan, isParent, Chan.ofParent])⟩
    by_cases same : child = self
    · subst same
      simp only [Ptable.exit_self, Ptable.heir, if_neg (wf.other child)] at childOf
      exact notParent childOf
    · simp only [Ptable.exit_other same here.1] at childOf dead kind
      have dead' : (k.pt.proc child).state = .zombie := by
        split at dead
        · cases dead
        · exact dead
      by_cases inherited : (k.pt.proc child).parent = some self
      · simp only [Ptable.heir, if_pos inherited, Option.some.injEq] at childOf
        exact unwoken ⟨asleep, .inr ⟨by rw [chan, childOf], child, inherited, dead'⟩⟩
      · simp only [Ptable.heir, if_neg inherited] at childOf
        exact inv parent child thread ⟨asleep, scanning⟩ ⟨childOf, dead', kind⟩

theorem noLostExit_step (wf : Wf k) (inv : NoLostExit k)
    (taken : k.step action = some k') : NoLostExit k' := by
  have step := step_effect taken
  by_cases exiting : ∃ self, action = .exit self
  · obtain ⟨self, rfl⟩ := exiting
    cases step with
    | exits here => exact exit_noLostExit wf inv here
    | @scans _ thread _ _ call => cases thread <;> cases call
  · rintro self child thread ⟨asleep, scanning⟩ ⟨parent, dead, kind⟩
    have move := step_move step wf.creates
    obtain ⟨dead', parent', kind'⟩ :=
      zombie_move (move child) (fun self same => exiting ⟨self, same⟩) dead wf
    have before : k.DeadChild self child thread := ⟨parent' ▸ parent, dead', kind' ▸ kind⟩
    rcases scanning_move (move self) asleep scanning with scanning | none
    · exact inv self child thread scanning before
    · exact none child before

end Step

theorem Reachable.noLostExit {guard : Kernel → Action → Prop} {k : Kernel}
    (reachable : Reachable guard k) : NoLostExit k := by
  obtain ⟨start, trace, boot, run⟩ := reachable
  apply And.right (a := Wf k)
  apply run.stateInvariant
  · refine ⟨wf_boot boot, ?_⟩
    rintro self child thread ⟨asleep, scanning⟩
    rw [(boot_table boot).1] at scanning
    cases thread <;> cases scanning
  · rintro state action next ⟨wf, inv⟩ _ taken
    exact ⟨wf_step wf taken, noLostExit_step wf inv taken⟩

/-- In no reachable state does a process sleep in `wait` while it has a zombie
child that is no thread, or in `join` while it has a zombie thread. -/
theorem no_lost_child_exit {k : Kernel} (reachable : Reachable (fun _ _ => True) k) :
    ∀ self child,
      ¬(k.SleepsIn self .wait ∧ k.DeadChild self child false) ∧
      ¬(k.SleepsIn self .join ∧ k.DeadChild self child true) := by
  intro self child
  constructor
  · rintro ⟨asleep, dead⟩
    exact reachable.noLostExit self child false asleep dead
  · rintro ⟨asleep, dead⟩
    exact reachable.noLostExit self child true asleep dead

/-- A child exits while its parent is in `wait`. -/
theorem no_lost_child_exit_forked :
    ∃ k, Reachable (fun _ _ => True) k ∧ k.pc 0 = .wait ∧ k.DeadChild 0 1 false ∧
      ¬k.SleepsIn 0 .wait := by
  obtain ⟨k, reachable, waiting, dead⟩ :
      ∃ k, Reachable (fun _ _ => True) k ∧ k.pc 0 = .wait ∧ k.DeadChild 0 1 false :=
    reachable_exec [.dispatch 0, .spawn 0 .fork, .kstack 0 3, .copyuvm 0 4, .publish 0,
      .wait 0, .dispatch 1, .exit 1] (fun _ _ => trivial) (by decide +kernel)
  exact ⟨k, reachable, waiting, dead, fun asleep =>
    (no_lost_child_exit reachable 0 1).1 ⟨asleep, dead⟩⟩

end Xv6.Kernel
