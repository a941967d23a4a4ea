import Xv6.Kernel.AddressSpace

/-!
# The size of a shared address space

Every slot has its own copy of the size of its address space.  `growproc` rewrites
the copies it finds through the `parent` and `isThread` fields: those of the
caller's threads, of the parent of a calling thread, and of the threads of the
caller's parent.  These are the users of the caller's address space as long as
families are flat: only processes that are no threads create threads, they join
them before they exit or replace their image, and a process whose parent has
threads does not change its size.
-/

namespace Xv6.Kernel

/-- No slot is a thread of a process, not even a dead one. -/
def NoThread (k : Kernel) (self : Slot) : Prop :=
  ∀ slot, (k.pt.proc slot).parent = some self → (k.pt.proc slot).isThread = false

instance (k : Kernel) (self : Slot) : Decidable (NoThread k self) :=
  inferInstanceAs (Decidable (∀ _, _))

/-- The steps that keep families flat. -/
def FlatFamilies (k : Kernel) : Action → Prop
  | .spawn self (.clone _ _) => (k.pt.proc self).isThread = false
  -- the stack passed to `clone` is mapped
  | .copyout _ mapped => mapped = true
  | .exit self => NoThread k self
  | .exec self _ => (k.pt.proc self).isThread = false ∧ NoThread k self
  | .growproc self _ => (k.pt.proc self).isThread = false →
      ∀ slot, (k.pt.proc slot).isThread = true →
        (k.pt.proc slot).parent ≠ (k.pt.proc self).parent
  | _ => True

instance (k : Kernel) (action : Action) : Decidable (FlatFamilies k action) := by
  apply Action.casesOn (motive := fun action => Decidable (FlatFamilies k action)) action
  case spawn =>
    intro self kind
    apply Spawn.casesOn (motive := fun kind => Decidable (FlatFamilies k (.spawn self kind))) kind
      <;> unfold FlatFamilies <;> infer_instance
  all_goals intros; unfold FlatFamilies; infer_instance

/-- The parent of a thread is a living process that is no thread and has the same
page directory; slots that nobody uses have no parent. -/
structure Families (k : Kernel) : Prop where
  settled : ∀ slot parent, (k.pt.proc slot).parent = some parent →
    (k.pt.proc slot).state ≠ .unused ∧
      ((k.pt.proc slot).state = .embryo → ∃ self, (k.pc self).fills = some slot)
  flat : ∀ slot parent, (k.pt.proc slot).parent = some parent →
    (k.pt.proc slot).isThread = true →
    (k.pt.proc parent).isThread = false ∧ (k.pt.proc parent).state.Live ∧
      (k.pt.proc slot).pgdir = (k.pt.proc parent).pgdir
  cloner : ∀ self np fn ustack,
    k.pc self = .kstack np (.clone fn ustack) ∨ k.pc self = .copy np (.clone fn ustack) →
    (k.pt.proc self).isThread = false

/-- Users of one address space have the same size. -/
def Sized (k : Kernel) : Prop :=
  ∀ slot other, HasSpace k slot → HasSpace k other →
    (k.pt.proc slot).pgdir = (k.pt.proc other).pgdir →
    (k.pt.proc slot).sz = (k.pt.proc other).sz

section Step

variable {k k' : Kernel} {slot parent : Slot} {action : Action} {entry : Proc} {pc : KernelPc}
  {self : Slot} {fn ustack : Nat} {memory : Bool}

theorem FlatFamilies.soleUser (allowed : FlatFamilies k action) : SoleUser k action := by
  have dead : ∀ self, NoThread k self → NoLiveThread k self := by
    intro self none slot childOf thread
    simp [none slot childOf] at thread
  cases action with
  | exit self => exact dead self allowed
  | exec self image => exact ⟨allowed.1, dead self allowed.2⟩
  | _ => trivial

theorem isThread_kept (move : Move k k' slot action entry pc) (wf : Wf k)
    (live : (k.pt.proc slot).state.Live) : entry.isThread = (k.pt.proc slot).isThread := by
  have grown : ∀ self, (k.pc self).creates ≠ some slot := by
    intro self creating
    rw [wf.creates self slot creating] at live
    simp at live
  cases move with
  | @forked self _ here => exact absurd (by simp [here.2]) (grown self)
  | @cloned self _ _ here => exact absurd (by simp [here.2]) (grown self)
  | _ => rfl

theorem settled_move (wf : Wf k) (families : Families k) (allowed : FlatFamilies k action)
    (move : Move k k' slot action entry pc) (childOf : entry.parent = some parent) :
    entry.state ≠ .unused ∧ ((∃ self, (k'.pc self).fills = some slot) ∨
      (entry.state = .embryo → ∃ self, (k.pc self).fills = some slot)) := by
  have heir : ∀ self, k.pt.heir self (k.pt.proc slot) = some parent →
      ∃ before, (k.pt.proc slot).parent = some before := by
    intro self same
    cases old : (k.pt.proc slot).parent with
    | none => simp [Ptable.heir, old] at same
    | some before => exact ⟨before, rfl⟩
  cases move with
  | reaped => cases childOf
  | taken unused => exact absurd unused (families.settled slot parent childOf).1
  | @forked self _ here filled =>
    have embryo := wf.creates self slot (by simp [here.2])
    exact ⟨by simp [embryo], .inl ⟨self, by simp [filled]⟩⟩
  | @cloned self _ _ here filled =>
    have embryo := wf.creates self slot (by simp [here.2])
    exact ⟨by simp [embryo], .inl ⟨self, by simp [filled]⟩⟩
  | @abandoned _ self _ creating done _ way =>
    have embryo := wf.creates self slot creating
    obtain ⟨other, filling⟩ := (families.settled slot parent childOf).2 embryo
    obtain rfl := wf.creator other self slot (creates_of_fills filling) creating
    rcases way with ⟨kind, place⟩ | ⟨kind, place⟩ | rfl
    · simp [place, KernelPc.fills] at filling
    · simp [place, KernelPc.fills] at filling
    · cases allowed
  | exits => exact ⟨by simp, .inr (by simp)⟩
  | @orphaned self here =>
    obtain ⟨before, childOf⟩ := heir self childOf
    have settled := families.settled slot before childOf
    by_cases woken : k.pt.ExitWakes self (k.pt.proc slot)
    · simp [woken]
    · simp only [if_neg woken]
      exact ⟨settled.1, .inr settled.2⟩
  | killed =>
    have settled := families.settled slot parent childOf
    by_cases asleep : (k.pt.proc slot).state = .sleeping
    · simp [asleep]
    · simp only [if_neg asleep]
      exact ⟨settled.1, .inr settled.2⟩
  | resumes | wakes | leavesPark | waits | yields | published | parks | unparked | sleeps
  | woken => exact ⟨by simp, .inr (by simp)⟩
  | _ => exact (families.settled slot parent childOf).imp_right .inr

theorem settled_step (wf : Wf k) (families : Families k)
    (allowed : FlatFamilies k action) (step : Step k action k')
    (childOf : (k'.pt.proc slot).parent = some parent) :
    (k'.pt.proc slot).state ≠ .unused ∧
      ((k'.pt.proc slot).state = .embryo → ∃ self, (k'.pc self).fills = some slot) := by
  have move := step_move step wf.creates
  obtain ⟨used, filled | before⟩ := settled_move wf families allowed (move slot) childOf
  · exact ⟨used, fun _ => filled⟩
  · refine ⟨used, fun embryo => ?_⟩
    obtain ⟨self, filling⟩ := before embryo
    exact ⟨self, fills_kept wf (move self) filling embryo⟩

theorem thread_origin (move : Move k k' slot action entry pc) (allowed : FlatFamilies k action)
    (used : entry.state ≠ .unused) (childOf : entry.parent = some parent)
    (thread : entry.isThread = true) :
    ((k.pt.proc slot).isThread = true ∧ entry.pgdir = (k.pt.proc slot).pgdir ∧
        ((k.pt.proc slot).parent = some parent ∨
          ∃ self, action = .exit self ∧ (k.pt.proc slot).parent = some self)) ∨
      (∃ fn ustack, k.At parent (.copy slot (.clone fn ustack))) ∧ action = .share parent ∧
        entry.pgdir = (k.pt.proc parent).pgdir := by
  cases move with
  | reaped => cases childOf
  | forked => cases thread
  | abandoned => exact absurd rfl used
  | cloned here =>
    cases childOf
    exact .inr ⟨⟨_, _, here⟩, rfl, rfl⟩
  | execs here =>
    rw [allowed.1] at thread
    cases thread
  | exits here =>
    refine .inl ⟨thread, rfl, ?_⟩
    rcases heir_origin k slot slot with same | child
    · exact .inl (same ▸ childOf)
    · exact .inr ⟨slot, rfl, child⟩
  | @orphaned self here =>
    refine .inl ⟨thread, rfl, ?_⟩
    rcases heir_origin k slot self with same | child
    · exact .inl (same ▸ childOf)
    · exact .inr ⟨self, rfl, child⟩
  | _ => exact .inl ⟨thread, rfl, .inl childOf⟩

theorem flat_step (wf : Wf k) (families : Families k) (allowed : FlatFamilies k action)
    (step : Step k action k') (used : (k'.pt.proc slot).state ≠ .unused)
    (childOf : (k'.pt.proc slot).parent = some parent)
    (thread : (k'.pt.proc slot).isThread = true) :
    (k'.pt.proc parent).isThread = false ∧ (k'.pt.proc parent).state.Live ∧
      (k'.pt.proc slot).pgdir = (k'.pt.proc parent).pgdir := by
  have move := step_move step wf.creates
  rcases thread_origin (move slot) allowed used childOf thread with
    ⟨thread, pgdir, before⟩ | ⟨⟨fn, ustack, here⟩, rfl, pgdir⟩
  · have childOf : (k.pt.proc slot).parent = some parent := by
      rcases before with same | ⟨self, rfl, childOf⟩
      · exact same
      · simp [allowed slot childOf] at thread
    obtain ⟨process, live, shared⟩ := families.flat slot parent childOf thread
    have stays : action ≠ .exit parent := by
      rintro rfl
      simp [allowed slot childOf] at thread
    have keeps : ∀ image, action ≠ .exec parent image := by
      rintro image rfl
      simp [allowed.2 slot childOf] at thread
    refine ⟨?_, live_kept (move parent) wf live stays, ?_⟩
    · rw [isThread_kept (move parent) wf live, process]
    · rw [pgdir, pgdir_kept (move parent) wf live keeps, shared]
  · have live : (k.pt.proc parent).state.Live := by simp [here.1]
    refine ⟨?_, live_kept (move parent) wf live (by simp), ?_⟩
    · rw [isThread_kept (move parent) wf live]
      exact families.cloner parent slot fn ustack (.inr here.2)
    · rw [pgdir, pgdir_kept (move parent) wf live (by simp)]

theorem cloning_origin {np : Slot} (move : Move k k' slot action entry pc)
    (cloning : pc = .kstack np (.clone fn ustack) ∨ pc = .copy np (.clone fn ustack)) :
    (k.pc slot = .kstack np (.clone fn ustack) ∨ k.pc slot = .copy np (.clone fn ustack)) ∨
      k.At slot .user ∧ action = .spawn slot (.clone fn ustack) := by
  cases move with
  | spawns here =>
    simp only [KernelPc.kstack.injEq, reduceCtorEq, or_false] at cloning
    exact .inr ⟨here, by rw [cloning.2]⟩
  | getsStack here =>
    simp only [KernelPc.copy.injEq, reduceCtorEq, false_or] at cloning
    rw [cloning.1, cloning.2] at here
    exact .inl (.inl here.2)
  | @waits _ thread => cases thread <;> simp [scanPc] at cloning
  | resized way =>
    rcases way with rfl | ⟨-, -, rfl⟩
    · exact .inl cloning
    · simp at cloning
  | wakes | leavesPark | returns | sbrks | parks | skipsPark | sleeps | taken | copies
  | shares | maps => simp at cloning
  | _ => exact .inl cloning

theorem cloner_step {self np : Slot} (wf : Wf k) (families : Families k)
    (allowed : FlatFamilies k action) (step : Step k action k')
    (cloning : k'.pc self = .kstack np (.clone fn ustack) ∨
      k'.pc self = .copy np (.clone fn ustack)) : (k'.pt.proc self).isThread = false := by
  have move := step_move step wf.creates self
  rcases cloning_origin move cloning with before | ⟨here, rfl⟩
  · have live := (wf.placed self).busy (by rcases before with place | place <;> simp [place])
    rw [isThread_kept move wf live]
    exact families.cloner self np fn ustack before
  · rw [isThread_kept move wf (by simp [here.1])]
    exact allowed

theorem families_step (wf : Wf k) (families : Families k) (allowed : FlatFamilies k action)
    (taken : k.step action = some k') : Families k' where
  settled := fun _ _ => settled_step wf families allowed (step_effect taken)
  flat := fun _ _ childOf =>
    flat_step wf families allowed (step_effect taken)
      (settled_step wf families allowed (step_effect taken) childOf).1 childOf
  cloner := fun _ _ _ _ => cloner_step wf families allowed (step_effect taken)

/-! ## Growing -/

section
variable (families : Families k) (spaces : Spaces k)
include families spaces

theorem Families.root (has : HasSpace k slot) :
    ∃ owner, HasSpace k owner ∧ (k.pt.proc owner).isThread = false ∧
      (k.pt.proc owner).pgdir = (k.pt.proc slot).pgdir ∧
      (slot = owner ∨ (k.pt.proc slot).isThread = true ∧
        (k.pt.proc slot).parent = some owner) := by
  cases thread : (k.pt.proc slot).isThread with
  | false => exact ⟨slot, has, thread, rfl, .inl rfl⟩
  | true =>
    obtain ⟨parent, childOf, live, shared, -⟩ := spaces.family slot has thread
    have process := (families.flat slot parent childOf thread).1
    exact ⟨parent, .inl live, process, shared.symm, .inr ⟨rfl, childOf⟩⟩

theorem Families.resizes_shares (running : (k.pt.proc self).state = .running)
    (only : (k.pt.proc self).isThread = false → ∀ slot, (k.pt.proc slot).isThread = true →
      (k.pt.proc slot).parent ≠ (k.pt.proc self).parent)
    (rewritten : Ptable.Resizes self (k.pt.proc self) slot (k.pt.proc slot)) :
    (k.pt.proc slot).pgdir = (k.pt.proc self).pgdir := by
  rcases rewritten with ⟨childOf, thread⟩ | ⟨thread, childOf⟩ | ⟨sibling, thread⟩
  · exact (families.flat slot self childOf thread).2.2
  · exact (families.flat self slot childOf thread).2.2.symm
  · cases calling : (k.pt.proc self).isThread with
    | false => exact absurd sibling (only calling slot thread)
    | true =>
      obtain ⟨parent, childOf, -, shared, -⟩ :=
        spaces.family self (.inl (by simp [running])) calling
      rw [shared]
      exact (families.flat slot parent (sibling.trans childOf) thread).2.2

theorem Families.shares_resizes
    (running : (k.pt.proc self).state = .running) (has : HasSpace k slot)
    (shared : (k.pt.proc slot).pgdir = (k.pt.proc self).pgdir) :
    slot = self ∨ Ptable.Resizes self (k.pt.proc self) slot (k.pt.proc slot) := by
  obtain ⟨owner, hasOwner, process, pgdir, mine⟩ := families.root spaces has
  have hasSelf : HasSpace k self := .inl (by simp [running])
  obtain ⟨caller, hasCaller, process', pgdir', callers⟩ := families.root spaces hasSelf
  obtain rfl : owner = caller :=
    spaces.owner_unique hasOwner process hasCaller process' (by rw [pgdir, shared, pgdir'])
  rcases mine with rfl | ⟨thread, childOf⟩
  · rcases callers with rfl | ⟨thread', childOf'⟩
    · exact .inl rfl
    · exact .inr (.inr (.inl ⟨thread', childOf'⟩))
  · rcases callers with rfl | ⟨thread', childOf'⟩
    · exact .inr (.inl ⟨childOf, thread⟩)
    · exact .inr (.inr (.inr ⟨childOf.trans childOf'.symm, thread⟩))

end

theorem growproc_step (taken : k.step (.growproc self memory) = some k') :
    (k.pt.proc self).state = .running ∧
      ((∀ slot, (k'.pt.proc slot).sz = (k.pt.proc slot).sz) ∨
        ∃ sz, ∀ slot, (k'.pt.proc slot).sz =
          if slot = self ∨ Ptable.Resizes self (k.pt.proc self) slot (k.pt.proc slot) then sz
          else (k.pt.proc slot).sz) := by
  cases step_effect taken with
  | ungrown here => exact ⟨here.1, .inl fun slot => rfl⟩
  | @grows _ n addr _ here succeeds =>
    refine ⟨here.1, .inr ⟨Ptable.grownSize (k.pt.proc self).sz n memory, fun slot => ?_⟩⟩
    rw [goto_pt, Ptable.growproc_proc succeeds]
  | @scans _ thread _ _ call => cases thread <;> cases call

theorem growproc_sized (wf : Wf k) (spaces : Spaces k)
    (families : Families k) (allowed : FlatFamilies k (.growproc self memory))
    (sized : Sized k) (taken : k.step (.growproc self memory) = some k') : Sized k' := by
  obtain ⟨running, grown⟩ := growproc_step taken
  intro slot other has has' shared
  have kept : ∀ slot, HasSpace k' slot →
      HasSpace k slot ∧ (k'.pt.proc slot).pgdir = (k.pt.proc slot).pgdir := by
    intro slot has
    cases space_origin wf (step_effect taken) has with
    | kept before thread pgdir => exact ⟨before, pgdir⟩
  obtain ⟨before, pgdir⟩ := kept slot has
  obtain ⟨before', pgdir'⟩ := kept other has'
  rw [pgdir, pgdir'] at shared
  rcases grown with same | ⟨sz, sizes⟩
  · rw [same, same]
    exact sized slot other before before' shared
  · rw [sizes, sizes]
    by_cases mine : (k.pt.proc slot).pgdir = (k.pt.proc self).pgdir
    · rw [if_pos (families.shares_resizes spaces running before mine),
        if_pos (families.shares_resizes spaces running before' (shared ▸ mine))]
    · have untouched : ∀ slot, (k.pt.proc slot).pgdir ≠ (k.pt.proc self).pgdir →
          ¬(slot = self ∨ Ptable.Resizes self (k.pt.proc self) slot (k.pt.proc slot)) := by
        rintro slot different (rfl | rewritten)
        · exact different rfl
        · exact different (families.resizes_shares spaces running allowed rewritten)
      rw [if_neg (untouched slot mine), if_neg (untouched other (shared ▸ mine))]
      exact sized slot other before before' shared

theorem size_origin (wf : Wf k) (step : Step k action k')
    (other : ∀ self memory, action ≠ .growproc self memory) (has : HasSpace k' slot) :
    (∃ before, HasSpace k before ∧ (k'.pt.proc slot).pgdir = (k.pt.proc before).pgdir ∧
        (k'.pt.proc slot).sz = (k.pt.proc before).sz) ∨
      Gains k action (.space slot) (k'.pt.proc slot).pgdir := by
  cases origin : space_origin wf step has with
  | kept before thread pgdir sz =>
    rcases sz with sz | ⟨self, memory, growing⟩
    · exact .inl ⟨slot, before, pgdir, sz⟩
    · exact absurd growing (other self memory)
  | forked here nonnull => exact .inr (.fork here.2 nonnull)
  | @cloned self _ _ _ here thread pgdir sz =>
    exact .inl ⟨self, .inl (by simp [here.1]), pgdir, sz⟩
  | execs here thread pgdir =>
    rw [pgdir]
    exact .inr .exec

theorem sized_step (wf : Wf k) (spaces : Spaces k) (families : Families k)
    (allowed : FlatFamilies k action) (sized : Sized k) (taken : k.step action = some k') :
    Sized k' := by
  by_cases growing : ∃ self memory, action = .growproc self memory
  · obtain ⟨self, memory, rfl⟩ := growing
    exact growproc_sized wf spaces families allowed sized taken
  · have other : ∀ self memory, action ≠ .growproc self memory := fun self memory same =>
      growing ⟨self, memory, same⟩
    have step := step_effect taken
    have apart : ∀ slot before, HasSpace k before →
        Gains k action (.space slot) (k'.pt.proc slot).pgdir →
        (k'.pt.proc slot).pgdir ≠ (k.pt.proc before).pgdir := by
      intro slot before has gains same
      have free := (gained_step spaces allowed.soleUser step gains).1
      rw [same, spaces.allocated wf has] at free
      cases free
    intro slot other' has has' shared
    rcases size_origin wf step other has with ⟨before, had, pgdir, sz⟩ | gains
    · rcases size_origin wf step other has' with
        ⟨before', had', pgdir', sz'⟩ | gains'
      · rw [sz, sz']
        exact sized before before' had had' (by rw [← pgdir, ← pgdir', shared])
      · exact absurd (shared.symm.trans pgdir) (apart other' before had gains')
    · rcases size_origin wf step other has' with
        ⟨before', had', pgdir', sz'⟩ | gains'
      · exact absurd (shared.trans pgdir') (apart slot before' had' gains)
      · cases gains.unique gains'
        rfl

end Step

theorem Reachable.families {k : Kernel} (reachable : Reachable FlatFamilies k) :
    Wf k ∧ Spaces k ∧ Families k ∧ Sized k := by
  obtain ⟨start, trace, boot, run⟩ := reachable
  apply run.stateInvariant
  · obtain ⟨idle, -, -, kstack, pgdir, -, -, -, first, others, -⟩ := boot_table boot
    have none : ∀ slot, (start.pt.proc slot).parent = none := by
      intro slot
      by_cases zero : slot = 0
      · rw [zero, first]
        rfl
      · rw [others slot zero]
    have only : ∀ slot, HasSpace start slot → slot = 0 := by
      intro slot has
      by_contra other
      exact not_hasSpace_unused (wf_boot boot) (by rw [others slot other]) has
    refine ⟨wf_boot boot, spaces_boot boot, ⟨?_, ?_, ?_⟩, ?_⟩
    · simp [none]
    · simp [none]
    · simp [idle]
    · intro slot other has has' _
      rw [only slot has, only other has']
  · rintro state action next ⟨wf, spaces, families, sized⟩ allowed taken
    exact ⟨wf_step wf taken, spaces_step wf spaces allowed.soleUser taken,
      families_step wf families allowed taken,
      sized_step wf spaces families allowed sized taken⟩

/-- While families are flat, living slots with the same page directory have the same
size, and `growproc` changes no size but those of slots with the caller's page
directory. -/
theorem sharers_agree {k : Kernel} (reachable : Reachable FlatFamilies k) :
    (∀ slot other, (k.pt.proc slot).state.Live → (k.pt.proc other).state.Live →
      (k.pt.proc slot).pgdir = (k.pt.proc other).pgdir →
      (k.pt.proc slot).sz = (k.pt.proc other).sz) ∧
    (∀ self memory k', FlatFamilies k (.growproc self memory) →
      k.step (.growproc self memory) = some k' →
      ∀ slot, (k.pt.proc slot).pgdir ≠ (k.pt.proc self).pgdir →
        (k'.pt.proc slot).sz = (k.pt.proc slot).sz) := by
  obtain ⟨wf, spaces, families, sized⟩ := reachable.families
  constructor
  · intro slot other live live' shared
    exact sized slot other (.inl live) (.inl live') shared
  · intro self memory k' allowed taken slot different
    obtain ⟨running, same | ⟨sz, sizes⟩⟩ := growproc_step taken
    · exact same slot
    · rw [sizes, if_neg]
      rintro (rfl | rewritten)
      · exact different rfl
      · exact different (families.resizes_shares spaces running allowed rewritten)

/-- A thread grows the address space of its process. -/
theorem sharers_agree_grown :
    ∃ k, Reachable FlatFamilies k ∧ (k.pt.proc 2).sz = 8192 ∧
      (k.pt.proc 1).sz = (k.pt.proc 2).sz := by
  obtain ⟨k, reachable, live, live', shared, grown⟩ :
      ∃ k, Reachable FlatFamilies k ∧ (k.pt.proc 1).state.Live ∧ (k.pt.proc 2).state.Live ∧
        (k.pt.proc 1).pgdir = (k.pt.proc 2).pgdir ∧ (k.pt.proc 2).sz = 8192 :=
    reachable_exec (withThread ++ [.dispatch 2, .sbrk 2 4096, .growproc 2 true])
      (by decide +kernel) (by decide +kernel)
  exact ⟨k, reachable, grown, (sharers_agree reachable).1 1 2 live live' shared⟩

/-- The thread of a thread misses the growth of the process; and the growth of a
child reaches the threads of its parent, which have another page directory. -/
theorem sizes_diverge :
    (∃ k, Reachable (fun _ _ => True) k ∧ (k.pt.proc 1).state.Live ∧
      (k.pt.proc 3).state.Live ∧ (k.pt.proc 1).pgdir = (k.pt.proc 3).pgdir ∧
      (k.pt.proc 1).sz ≠ (k.pt.proc 3).sz) ∧
    (∃ k k', Reachable (fun _ _ => True) k ∧ k.step (.growproc 3 true) = some k' ∧
      (k.pt.proc 2).pgdir ≠ (k.pt.proc 3).pgdir ∧
      (k'.pt.proc 2).sz ≠ (k.pt.proc 2).sz) := by
  constructor
  · exact reachable_exec (withThread ++ [.dispatch 2, .spawn 2 (.clone 100 12288), .kstack 2 6,
      .share 2, .copyout 2 true, .publish 2, .sbrk 1 4096, .growproc 1 true])
      (fun _ _ => trivial) (by decide +kernel)
  · obtain ⟨k, reachable, different, met⟩ :
        ∃ k, Reachable (fun _ _ => True) k ∧ (k.pt.proc 2).pgdir ≠ (k.pt.proc 3).pgdir ∧
          (k.step (.growproc 3 true)).any
            (fun k' => decide ((k'.pt.proc 2).sz ≠ (k.pt.proc 2).sz)) = true :=
      reachable_exec (withThread ++ [.spawn 1 .fork, .kstack 1 6, .copyuvm 1 7, .publish 1,
        .dispatch 3, .sbrk 3 4096]) (fun _ _ => trivial) (by decide +kernel)
    obtain ⟨k', taken, changed⟩ := (Option.any_eq_true _ _).mp met
    exact ⟨k, k', reachable, taken, different, of_decide_eq_true changed⟩

end Xv6.Kernel
