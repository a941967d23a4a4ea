import Xv6.Kernel.Invariant

/-!
# The control flags of a new process

`allocproc` clears none of the flags of the slot it takes, and `wait` and `join`
clear only `killed`.  A new process therefore starts with the flags its slot was
left with: clean ones if every process exits with its park flags clear and no
`kill` hits a slot that nobody uses yet.
-/

namespace Xv6.Kernel

/-- No park flag is set. -/
def ParkClear (entry : Proc) : Prop :=
  entry.isParked = false ∧ entry.setPark = false ∧ entry.immediateUnpark = false

instance (entry : Proc) : Decidable (ParkClear entry) :=
  inferInstanceAs (Decidable (_ ∧ _ ∧ _))

/-- A process exits with its park flags clear, and the slot that `kill` finds
holds a process. -/
def LeavesClean (k : Kernel) : Action → Prop
  | .exit self => ParkClear (k.pt.proc self)
  | .kill _ pid => ∀ slot,
      Table.find (fun slot => decide ((k.pt.proc slot).pid = pid)) = some slot →
      (k.pt.proc slot).state ≠ .unused ∧ (k.pt.proc slot).state ≠ .embryo
  | _ => True

instance (k : Kernel) (action : Action) : Decidable (LeavesClean k action) := by
  apply Action.casesOn (motive := fun action => Decidable (LeavesClean k action)) action <;>
    intros <;> unfold LeavesClean <;> infer_instance

/-- The flags of a slot without a running program. -/
structure CleanSlot (entry : Proc) : Prop where
  park : entry.state = .unused ∨ entry.state = .embryo ∨ entry.state = .zombie →
    ParkClear entry
  killed : entry.state = .unused ∨ entry.state = .embryo → entry.killed = false

section Step

variable {k k' : Kernel} {slot : Slot} {action : Action} {entry : Proc} {pc : KernelPc}

theorem CleanSlot.of_live (unused : entry.state ≠ .unused) (embryo : entry.state ≠ .embryo)
    (zombie : entry.state ≠ .zombie) : CleanSlot entry where
  park := by simp [unused, embryo, zombie]
  killed := by simp [unused, embryo]

theorem CleanSlot.keep {entry' : Proc} (clean : CleanSlot entry)
    (idle : entry.state = .unused ∨ entry.state = .embryo)
    (park : entry'.isParked = entry.isParked ∧ entry'.setPark = entry.setPark ∧
      entry'.immediateUnpark = entry.immediateUnpark)
    (killed : entry'.killed = entry.killed) : CleanSlot entry' where
  park := by
    intro _
    unfold ParkClear
    rw [park.1, park.2.1, park.2.2]
    exact clean.park (idle.imp_right .inl)
  killed := by
    intro _
    rw [killed]
    exact clean.killed idle

theorem cleanSlot_move (wf : Wf k) (move : Move k k' slot action entry pc)
    (allowed : LeavesClean k action) (clean : CleanSlot (k.pt.proc slot)) : CleanSlot entry := by
  cases move with
  | resumes | wakes | leavesPark | waits | yields | published | parks | unparked | sleeps
  | woken => exact .of_live (by simp) (by simp) (by simp)
  | execs here | arms here | skipsPark here =>
    exact .of_live (by simp [here.1]) (by simp [here.1]) (by simp [here.1])
  | reaped dead =>
    have park := clean.park (.inr (.inr dead))
    exact ⟨fun _ => park, fun _ => rfl⟩
  | taken unused => exact clean.keep (.inl unused) ⟨rfl, rfl, rfl⟩ rfl
  | @abandoned _ self _ creating =>
    exact clean.keep (.inr (wf.creates self slot creating)) ⟨rfl, rfl, rfl⟩ rfl
  | exits here =>
    refine ⟨fun _ => allowed, ?_⟩
    rintro (unused | embryo)
    · cases unused
    · cases embryo
  | @orphaned self here =>
    by_cases woken : k.pt.ExitWakes self (k.pt.proc slot)
    · exact .of_live (by simp [woken]) (by simp [woken]) (by simp [woken])
    · simp only [if_neg woken]
      exact ⟨clean.park, clean.killed⟩
  | noted isPid set awake =>
    constructor
    · intro idle
      have := (clean.park idle).2.1
      simp [set] at this
    · exact clean.killed
  | killed found =>
    obtain ⟨used, ready⟩ := allowed slot found
    by_cases asleep : (k.pt.proc slot).state = .sleeping
    · exact .of_live (by simp [asleep]) (by simp [asleep]) (by simp [asleep])
    · simp only [if_neg asleep]
      exact ⟨clean.park, by simp [used, ready]⟩
  | _ => exact ⟨clean.park, clean.killed⟩

end Step

theorem Reachable.cleanSlot {k : Kernel} (reachable : Reachable LeavesClean k)
    (slot : Slot) : CleanSlot (k.pt.proc slot) := by
  obtain ⟨start, trace, boot, run⟩ := reachable
  suffices inv : Wf k ∧ ∀ slot, CleanSlot (k.pt.proc slot) from inv.2 slot
  apply run.stateInvariant
  · refine ⟨wf_boot boot, fun slot => ?_⟩
    obtain ⟨-, -, -, kstack, pgdir, -, -, -, first, others, -⟩ := boot_table boot
    by_cases zero : slot = 0
    · rw [zero, first]
      exact ⟨fun _ => ⟨rfl, rfl, rfl⟩, fun _ => rfl⟩
    · rw [others slot zero]
      exact ⟨fun _ => ⟨rfl, rfl, rfl⟩, fun _ => rfl⟩
  · rintro state action next ⟨wf, clean⟩ allowed taken
    refine ⟨wf_step wf taken, fun slot => ?_⟩
    exact cleanSlot_move wf (step_move (step_effect taken) wf.creates slot) allowed
      (clean slot)

theorem publish_entry {k k' : Kernel} {self np : Slot} (creating : k.pc self = .publish np)
    (taken : k.step (.publish self) = some k') :
    k'.pt.proc np =
      let entry := k.pt.proc np
      { entry with state := .runnable, name := (k.pt.proc self).name } := by
  simp only [step, publish, creating, Option.ite_none_right_eq_some, Option.some.injEq]
    at taken
  obtain ⟨-, rfl⟩ := taken
  simp [Ptable.publish]

/-- A child that is killed while it is parked leaves its slot with `isParked` set,
and the next child starts with it. -/
theorem stale_isParked :
    ∃ k self np k', Reachable (fun _ _ => True) k ∧ k.pc self = .publish np ∧
      k.step (.publish self) = some k' ∧ (k'.pt.proc np).state = .runnable ∧
      (k'.pt.proc np).isParked = true := by
  obtain ⟨k, reachable, creating, stale, enabled⟩ :
      ∃ k, Reachable (fun _ _ => True) k ∧ k.pc 0 = .publish 1 ∧
        (k.pt.proc 1).isParked = true ∧ (k.step (.publish 0)).isSome = true :=
    reachable_exec (withChild ++ [.setpark 1, .park 1, .kill 0 2, .dispatch 1, .exit 1, .wait 0,
      .spawn 0 .fork, .kstack 0 3, .copyuvm 0 4]) (fun _ _ => trivial) (by decide +kernel)
  obtain ⟨k', taken⟩ := Option.isSome_iff_exists.mp enabled
  have entry := publish_entry creating taken
  exact ⟨k, 0, 1, k', reachable, creating, taken, by rw [entry], by rw [entry, ← stale]⟩

/-- If processes exit with their park flags clear and `kill` hits no slot without
a process, whatever else happens, every slot that `fork` and `clone` make
runnable has clean flags. -/
theorem new_process_clean {k k' : Kernel} {self np : Slot}
    (reachable : Reachable LeavesClean k) (creating : k.pc self = .publish np)
    (taken : k.step (.publish self) = some k') :
    (k'.pt.proc np).state = .runnable ∧ (k'.pt.proc np).killed = false ∧
      (k'.pt.proc np).isParked = false ∧ (k'.pt.proc np).setPark = false ∧
      (k'.pt.proc np).immediateUnpark = false := by
  have embryo := reachable.wf.creates self np (by simp [creating])
  have clean := reachable.cleanSlot np
  rw [publish_entry creating taken]
  exact ⟨rfl, clean.killed (.inr embryo), clean.park (.inr (.inl embryo))⟩

/-- A child parks, is unparked, exits and is reaped; its slot is used again. -/
theorem new_process_clean_reused :
    ∃ k k', Reachable LeavesClean k ∧ k.step (.publish 0) = some k' ∧
      (k'.pt.proc 1).pid = 3 ∧ (k'.pt.proc 1).isParked = false := by
  obtain ⟨k, reachable, creating, isPid, enabled⟩ :
      ∃ k, Reachable LeavesClean k ∧ k.pc 0 = .publish 1 ∧ (k.pt.proc 1).pid = 3 ∧
        (k.step (.publish 0)).isSome = true :=
    reachable_exec (withChild ++ [.setpark 1, .park 1, .unpark 0 2, .dispatch 1, .kill 0 2, .exit 1,
      .wait 0, .spawn 0 .fork, .kstack 0 3, .copyuvm 0 4]) (by decide +kernel) (by decide +kernel)
  obtain ⟨k', taken⟩ := Option.isSome_iff_exists.mp enabled
  refine ⟨k, k', reachable, taken, ?_, ?_⟩
  · rw [publish_entry creating taken, ← isPid]
  · exact (new_process_clean reachable creating taken).2.2.1

end Xv6.Kernel
