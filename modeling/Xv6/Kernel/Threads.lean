import Xv6.Kernel.FreeVm
import Xv6.Kernel.WaitJoin

/-!
# Slots before and after a thread

A thread keeps the stack it was created with until `join` reaps it.  A slot that is not in
use has no parent and no open files, unless a `clone` that could not write to the new stack
has given it up.
-/

namespace Xv6

namespace Ptable

/-- The slots not in use have no parent and no open files. -/
def Clean (pt : Ptable) : Prop :=
  ∀ slot, (pt.proc slot).state = .unused →
    (pt.proc slot).parent = none ∧ ∀ fd, (pt.proc slot).ofile fd = none

end Ptable

namespace Kernel

variable {k k' later : Kernel} {slot joiner : Slot} {action : Action} {entry : Proc}
  {pc : KernelPc} {pid : Int} {stack : Nat}

/-! ## The stack of a thread -/

/-- A process or thread that exists, with its pid and its stack. -/
structure HasStack (entry : Proc) (pid : Int) (stack : Nat) : Prop where
  used : entry.state ≠ .unused
  ready : entry.state ≠ .embryo
  isPid : entry.pid = pid
  isStack : entry.bsp = stack

theorem hasStack_move (wf : Wf k) (has : HasStack (k.pt.proc slot) pid stack)
    (move : Move k k' slot action entry pc) (kept : entry.state ≠ .unused) :
    HasStack entry pid stack := by
  obtain ⟨used, ready, isPid, isStack⟩ := has
  cases move with
  | taken unused => exact absurd unused used
  | @started self _ _ here => exact absurd (wf.creates self slot (by simp [here.2])) ready
  | reaped | abandoned => exact absurd rfl kept
  | orphaned | killed =>
    refine ⟨kept, ?_, isPid, isStack⟩
    change (if _ then _ else _) ≠ _
    split
    · decide
    · exact ready
  | resumes | wakes | leavesPark | waits | yields | published | parks | unparked | sleeps
  | woken | exits => exact ⟨by simp, by simp, isPid, isStack⟩
  | _ => exact ⟨kept, ready, isPid, isStack⟩

theorem joinScan_hasStack {trace : List (Kernel × Action)} (wf : Wf k)
    (has : HasStack (k.pt.proc slot) pid stack)
    (run : Transition.Run step (fun _ _ => True) k trace later)
    (kept : ∀ entry ∈ trace, (entry.1.pt.proc slot).state ≠ .unused)
    (picked : later.pt.zombieChild joiner (fun entry => entry.isThread) = some slot) :
    (later.pt.joinScan joiner).2 = .reaped pid stack := by
  have still : Wf later ∧ ((later.pt.proc slot).state ≠ .unused →
      HasStack (later.pt.proc slot) pid stack) := by
    have unreaped := run.restrict (fun state _ => (state.pt.proc slot).state ≠ .unused) kept
    apply unreaped.stateInvariant
    · exact ⟨wf, fun _ => has⟩
    · rintro state action next ⟨wf, has⟩ ⟨-, used⟩ taken
      exact ⟨wf_step wf taken,
        hasStack_move wf (has used) (step_move (step_effect taken) wf.creates slot)⟩
  have dead := Table.find_some picked
  simp only [Bool.and_eq_true, decide_eq_true_eq] at dead
  obtain ⟨-, -, isPid, isStack⟩ := still.2 (by simp [dead.1.2])
  simp [Ptable.joinScan, Ptable.scan, picked, isPid, isStack]

/-! ## Slots that are not in use -/

/-- No `clone` fails to write to the new stack. -/
def StacksMapped (_ : Kernel) (action : Action) : Prop :=
  ∀ self, action ≠ .copyout self false

/-- An entry has nothing of its last user and, as long as it is `raw`, nothing of its next
one. -/
structure Cleared (entry : Proc) (raw : Prop) : Prop where
  parent : entry.state = .unused ∨ raw → entry.parent = none
  files : entry.state = .unused ∨ entry.state = .zombie ∨ raw → ∀ fd, entry.ofile fd = none

theorem Cleared.of_used {raw : Prop} (used : entry.state ≠ .unused) (alive : entry.state ≠ .zombie)
    (filled : ¬raw) : Cleared entry raw :=
  ⟨fun idle => (idle.elim used filled).elim,
    fun idle => (idle.elim used (·.elim alive filled)).elim⟩

theorem Cleared.congr {entry' : Proc} {raw raw' : Prop} (cleared : Cleared entry raw)
    (state : entry'.state = entry.state) (parent : entry.parent = none → entry'.parent = none)
    (files : entry'.ofile = entry.ofile) (before : raw' → entry.state = .unused ∨ raw) :
    Cleared entry' raw' := by
  refine ⟨fun idle => parent (cleared.parent ?_), fun idle => ?_⟩
  · rw [state] at idle
    exact idle.elim .inl before
  · rw [state] at idle
    rw [files]
    apply cleared.files
    rcases idle with unused | dead | isRaw
    · exact .inl unused
    · exact .inr (.inl dead)
    · exact (before isRaw).imp id .inr

theorem raw_of_creates {self : Slot} (wf : Wf k) (creating : (k.pc self).creates = some slot)
    (empty : (k.pc self).fills = none) : Raw k slot := by
  refine ⟨wf.creates self slot creating, fun other filling => ?_⟩
  rw [wf.creator other self slot (creates_of_fills filling) creating, empty] at filling
  cases filling

theorem cleared_move (wf : Wf k) (mapped : StacksMapped k action)
    (move : Move k k' slot action entry pc) (cleared : Cleared (k.pt.proc slot) (Raw k slot))
    (embryo : Raw k' slot → entry.state = .embryo)
    (before : Raw k' slot → (k.pt.proc slot).state = .unused ∨ Raw k slot) :
    Cleared entry (Raw k' slot) := by
  cases move with
  | reaped dead => exact ⟨fun _ => rfl, fun _ => cleared.files (.inr (.inl dead))⟩
  | taken unused =>
    exact ⟨fun _ => cleared.parent (.inl unused), fun _ => cleared.files (.inl unused)⟩
  | @abandoned _ self _ creating _ _ place =>
    have isRaw : Raw k slot := by
      rcases place with ⟨kind, here⟩ | ⟨kind, here⟩ | refused
      · exact raw_of_creates wf creating (by simp [here, KernelPc.fills])
      · exact raw_of_creates wf creating (by simp [here, KernelPc.fills])
      · exact absurd refused (mapped self)
    exact ⟨fun _ => cleared.parent (.inr isRaw), fun _ => cleared.files (.inr (.inr isRaw))⟩
  | @forked self _ here filled =>
    have creating := wf.creates self slot (by simp [here.2])
    exact .of_used (by simp [creating]) (by simp [creating]) fun isRaw =>
      isRaw.2 self (by simp [filled])
  | @cloned self _ _ here filled =>
    have creating := wf.creates self slot (by simp [here.2])
    exact .of_used (by simp [creating]) (by simp [creating]) fun isRaw =>
      isRaw.2 self (by simp [filled])
  | @started self _ _ here =>
    have creating := wf.creates self slot (by simp [here.2])
    refine .of_used (by simp [creating]) (by simp [creating]) fun isRaw => ?_
    rcases before isRaw with unused | wasRaw
    · simp [creating] at unused
    · exact wasRaw.2 self (by simp [here.2])
  | exits =>
    exact ⟨fun idle => absurd (idle.elim (by simp) embryo) (by simp), fun _ _ => rfl⟩
  | @orphaned self here different other =>
    by_cases wakes : k.pt.ExitWakes self (k.pt.proc slot)
    · simp only [if_pos wakes] at embryo ⊢
      exact .of_used (by simp) (by simp) fun isRaw => by simpa using embryo isRaw
    · simp only [if_neg wakes]
      refine cleared.congr rfl (fun none => ?_) rfl before
      simp [Ptable.heir, none]
  | killed =>
    by_cases asleep : (k.pt.proc slot).state = .sleeping
    · simp only [if_pos asleep] at embryo ⊢
      exact .of_used (by simp) (by simp) fun isRaw => by simpa using embryo isRaw
    · simp only [if_neg asleep]
      exact cleared.congr rfl id rfl before
  | resumes | wakes | leavesPark | waits | yields | published | parks | unparked | sleeps
  | woken => exact .of_used (by simp) (by simp) fun isRaw => by simpa using embryo isRaw
  | _ => exact cleared.congr rfl id rfl before

theorem Reachable.clean (reachable : Reachable StacksMapped k) : k.pt.Clean := by
  obtain ⟨start, trace, boot, run⟩ := reachable
  suffices inv : Wf k ∧ ∀ slot, Cleared (k.pt.proc slot) (Raw k slot) from fun slot unused =>
    ⟨(inv.2 slot).parent (.inl unused), (inv.2 slot).files (.inl unused)⟩
  apply run.stateInvariant
  · refine ⟨wf_boot boot, fun slot => ?_⟩
    obtain ⟨-, -, -, kstack, pgdir, -, -, -, first, others, -⟩ := boot_table boot
    by_cases zero : slot = 0
    · rw [zero, first]
      exact ⟨fun _ => rfl, fun _ _ => rfl⟩
    · rw [others slot zero]
      exact ⟨fun _ => rfl, fun _ _ => rfl⟩
  · rintro state action next ⟨wf, cleared⟩ mapped taken
    have step := step_effect taken
    refine ⟨wf_step wf taken, fun slot => ?_⟩
    refine cleared_move wf mapped (step_move step wf.creates slot) (cleared slot)
      (fun isRaw => isRaw.1) fun isRaw => ?_
    rcases (raw_origin wf step isRaw).2 with before | ⟨-, found⟩
    · exact .inr before
    · have unused := Table.find_some found
      exact .inl (by simpa using unused)

end Kernel

end Xv6
