import Xv6.Kernel.AddressSpace

/-!
# When an address space is freed

`wait` calls `freevm` on the page directory of the process it reaps, and `exec`
on the one it replaces.  Nobody else may still have that page directory in its
slot: neither a thread, nor a slot under creation that has not been given a page
directory yet and still holds the one of its previous user.
-/

namespace Xv6.Kernel

/-- A slot under creation that still has the page directory of its previous user. -/
def Raw (k : Kernel) (np : Slot) : Prop :=
  (k.pt.proc np).state = .embryo ∧ ∀ self, (k.pc self).fills ≠ some np

instance (k : Kernel) (np : Slot) : Decidable (Raw k np) :=
  inferInstanceAs (Decidable (_ ∧ _))

/-- The page directory left over in a slot that `allocproc` takes is not in use,
and a page directory that `fork` or `exec` gets is left over in no other slot
under creation. -/
def FreshSpace (k : Kernel) : Action → Prop
  | .spawn _ _ => ∀ np,
      Table.find (fun slot => decide ((k.pt.proc slot).state = .unused)) = some np →
      ∀ slot, HasSpace k slot → (k.pt.proc np).pgdir ≠ (k.pt.proc slot).pgdir
  | .copyuvm self pgdir => ∀ np, Raw k np → (k.pc self).creates ≠ some np →
      (k.pt.proc np).pgdir ≠ pgdir
  | .exec _ image => ∀ np, Raw k np → (k.pt.proc np).pgdir ≠ image.pgdir
  | _ => True

instance (k : Kernel) (action : Action) : Decidable (FreshSpace k action) := by
  apply Action.casesOn (motive := fun action => Decidable (FreshSpace k action)) action <;>
    intros <;> unfold FreshSpace <;> infer_instance

/-- The steps that keep every address space to its users: a process exits or
replaces its image only when none of its threads is alive, a thread does not
replace its image, and page directories left over in slots are not in use. -/
def KeepsSpace (k : Kernel) (action : Action) : Prop :=
  SoleUser k action ∧ FreshSpace k action

instance (k : Kernel) (action : Action) : Decidable (KeepsSpace k action) :=
  inferInstanceAs (Decidable (_ ∧ _))

section Step

variable {k k' : Kernel} {slot np : Slot} {action : Action} {entry : Proc} {pc : KernelPc}

theorem embryo_origin (move : Move k k' np action entry pc) (embryo : entry.state = .embryo) :
    (k.pt.proc np).state = .embryo ∧
        (entry.pgdir = (k.pt.proc np).pgdir ∨ ∃ self, (k'.pc self).fills = some np) ∨
      (∃ self kind, action = .spawn self kind) ∧ (k.pt.proc np).state = .unused ∧
        entry.pgdir = (k.pt.proc np).pgdir := by
  cases move with
  | taken unused => exact .inr ⟨⟨_, _, rfl⟩, unused, rfl⟩
  | @forked self _ here filled => exact .inl ⟨embryo, .inr ⟨self, by simp [filled]⟩⟩
  | @cloned self _ _ here filled => exact .inl ⟨embryo, .inr ⟨self, by simp [filled]⟩⟩
  | orphaned =>
    split at embryo
    · cases embryo
    · exact .inl ⟨embryo, .inl rfl⟩
  | killed =>
    split at embryo
    · cases embryo
    · exact .inl ⟨embryo, .inl rfl⟩
  | execs here => simp [here.1] at embryo
  | resumes | wakes | leavesPark | waits | reaped | yields | abandoned | published | exits
  | parks | unparked | sleeps | woken => simp [Ptable.release] at embryo
  | _ => exact .inl ⟨embryo, .inl rfl⟩

theorem raw_origin (wf : Wf k) (step : Step k action k') (raw : Raw k' np) :
    (k'.pt.proc np).pgdir = (k.pt.proc np).pgdir ∧
      (Raw k np ∨ (∃ self kind, action = .spawn self kind) ∧
        Table.find (fun slot => decide ((k.pt.proc slot).state = .unused)) = some np) := by
  have move := step_move step wf.creates
  obtain ⟨embryo, unfilled⟩ := raw
  rcases embryo_origin (move np) embryo with
    ⟨before, pgdir⟩ | ⟨⟨self, kind, rfl⟩, unused, pgdir⟩
  · refine ⟨?_, .inl ⟨before, fun self filling => ?_⟩⟩
    · rcases pgdir with same | ⟨self, filled⟩
      · exact same
      · exact absurd filled (unfilled self)
    · exact unfilled self (fills_kept wf (move self) filling embryo)
  · refine ⟨pgdir, .inr ⟨⟨self, kind, rfl⟩, ?_⟩⟩
    cases step with
    | full => simp [unused] at embryo
    | @takes _ np' _ here bound found free =>
      by_cases same : np = np'
      · rw [same]
        exact found
      · simp [Ptable.modify_of_ne same, unused] at embryo
    | @scans _ thread _ _ call => cases thread <;> cases call

theorem raw_step (wf : Wf k) (allowed : FreshSpace k action) (step : Step k action k')
    (apart : ∀ np slot, Raw k np → HasSpace k slot →
      (k.pt.proc np).pgdir ≠ (k.pt.proc slot).pgdir) :
    ∀ np slot, Raw k' np → HasSpace k' slot →
      (k'.pt.proc np).pgdir ≠ (k'.pt.proc slot).pgdir := by
  intro np slot raw has
  obtain ⟨pgdir, before | ⟨⟨self, kind, rfl⟩, found⟩⟩ := raw_origin wf step raw
  · rw [pgdir]
    cases origin : space_origin wf step has with
    | kept hadSpace thread same =>
      rw [same]
      exact apart np slot before hadSpace
    | forked here =>
      apply allowed np before
      intro creating
      rw [here.2, creates_copy] at creating
      obtain rfl := Option.some.inj creating
      rcases has with live | ⟨dead, -⟩ | ⟨self, filling⟩
      · rw [raw.1] at live
        simp at live
      · simp [raw.1] at dead
      · exact raw.2 self filling
    | @cloned self _ _ _ here thread same =>
      rw [same]
      exact apart np self before (.inl (by simp [here.1]))
    | execs here thread same =>
      rw [same]
      exact allowed np before
  · rw [pgdir]
    cases space_origin wf step has with
    | kept hadSpace thread same =>
      rw [same]
      exact allowed np found slot hadSpace

end Step

variable {k : Kernel}

theorem Reachable.raw (reachable : Reachable KeepsSpace k) :
    ∀ np slot, Raw k np → HasSpace k slot →
      (k.pt.proc np).pgdir ≠ (k.pt.proc slot).pgdir := by
  obtain ⟨start, trace, boot, run⟩ := reachable
  apply And.right (a := Wf k)
  apply run.stateInvariant
  · refine ⟨wf_boot boot, ?_⟩
    intro np slot raw
    obtain ⟨-, -, -, kstack, pgdir, -, -, -, first, others, -⟩ := boot_table boot
    have embryo := raw.1
    by_cases zero : np = 0
    · rw [zero, first] at embryo
      cases embryo
    · rw [others np zero] at embryo
      cases embryo
  · rintro state action next ⟨wf, apart⟩ allowed taken
    exact ⟨wf_step wf taken, raw_step wf allowed.2 (step_effect taken) apart⟩

end Xv6.Kernel
