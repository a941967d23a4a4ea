import Xv6.Kernel.Invariant
import Xv6.Lib.Ownership

/-!
# Who uses an address space

Threads share the page directory of the process that created them, without a
reference count: `wait` frees the page directory of every process it reaps and
`exec` the one it replaces.  The invariant behind the results is that every
thread has a living parent with the same page directory, so that the users of an
address space form a tree below the process that owns it, and that owners share
no pages.  It is kept as long as a process exits or replaces its image only when
no thread of it is alive.
-/

namespace Xv6.Kernel

/-! ## Users of an address space -/

/-- A slot whose page directory is in use: it has a program, or it is a process
that `wait` has not freed yet, or a new slot that already has its creator's data. -/
def HasSpace (k : Kernel) (slot : Slot) : Prop :=
  (k.pt.proc slot).state.Live ∨
    ((k.pt.proc slot).state = .zombie ∧ (k.pt.proc slot).isThread = false) ∨
    ∃ self, (k.pc self).fills = some slot

instance (k : Kernel) (slot : Slot) : Decidable (HasSpace k slot) :=
  inferInstanceAs (Decidable (_ ∨ _ ∨ _))

/-- Where the page directory in use by a slot comes from, in terms of the state
before a step. -/
inductive SpaceOrigin (k : Kernel) (slot : Slot) : Action → Proc → Prop where
  | kept {action : Action} {entry : Proc} : HasSpace k slot →
      entry.isThread = (k.pt.proc slot).isThread → entry.pgdir = (k.pt.proc slot).pgdir →
      entry.sz = (k.pt.proc slot).sz ∨ (∃ self memory, action = .growproc self memory) →
      entry.parent = (k.pt.proc slot).parent ∨
        (∃ self, action = .exit self ∧ (k.pt.proc slot).parent = some self) →
      SpaceOrigin k slot action entry
  | forked {self : Slot} {entry : Proc} : k.At self (.copy slot .fork) → entry.pgdir ≠ 0 →
      entry.isThread = false → SpaceOrigin k slot (.copyuvm self entry.pgdir) entry
  | cloned {self : Slot} {fn ustack : Nat} {entry : Proc} :
      k.At self (.copy slot (.clone fn ustack)) → entry.isThread = true →
      entry.pgdir = (k.pt.proc self).pgdir → entry.sz = (k.pt.proc self).sz →
      entry.parent = some self → SpaceOrigin k slot (.share self) entry
  | execs {image : Ptable.Image} {entry : Proc} : k.At slot .user →
      entry.isThread = (k.pt.proc slot).isThread → entry.pgdir = image.pgdir →
      entry.parent = (k.pt.proc slot).parent →
      SpaceOrigin k slot (.exec slot image) entry

section Origin

variable {k k' : Kernel} {slot : Slot} {action : Action} {entry : Proc} {pc : KernelPc}

theorem heir_origin (k : Kernel) (slot self : Slot) :
    k.pt.heir self (k.pt.proc slot) = (k.pt.proc slot).parent ∨
      (k.pt.proc slot).parent = some self := by
  unfold Ptable.heir
  split
  next child => exact .inr child
  next => exact .inl rfl

theorem live_origin (wf : Wf k) (move : Move k k' slot action entry pc)
    (live : entry.state.Live) : SpaceOrigin k slot action entry := by
  cases move with
  | resumes state | wakes state | leavesPark state | yields state | woken state =>
    exact .kept (.inl (by simp [state])) rfl rfl (.inl rfl) (.inl rfl)
  | waits here =>
    refine .kept (.inl ?_) rfl rfl (.inl rfl) (.inl rfl)
    rcases here with here | here
    · simp [here.1]
    · simp [here.1]
  | parks here | sleeps here => exact .kept (.inl (by simp [here.1])) rfl rfl (.inl rfl) (.inl rfl)
  | unparked isPid state => exact .kept (.inl (by simp [state])) rfl rfl (.inl rfl) (.inl rfl)
  | @published self here =>
    exact .kept (.inr (.inr ⟨self, by simp [here.2]⟩)) rfl rfl (.inl rfl) (.inl rfl)
  | @forked self _ here =>
    rw [wf.creates self slot (by simp [here.2])] at live
    simp at live
  | @cloned self _ _ here =>
    rw [wf.creates self slot (by simp [here.2])] at live
    simp at live
  | execs here => exact .execs here rfl rfl rfl
  | @orphaned self here =>
    refine .kept (.inl ?_) rfl rfl (.inl rfl)
      ((heir_origin k slot self).imp_right fun child => ⟨self, rfl, child⟩)
    by_cases woken : k.pt.ExitWakes self (k.pt.proc slot)
    · simp [woken.1]
    · simpa [woken] using live
  | killed =>
    refine .kept (.inl ?_) rfl rfl (.inl rfl) (.inl rfl)
    by_cases asleep : (k.pt.proc slot).state = .sleeping
    · simp [asleep]
    · simpa [asleep] using live
  | reaped | taken | abandoned | exits => simp [Ptable.release] at live
  | resized => exact .kept (.inl live) rfl rfl (.inr ⟨_, _, rfl⟩) (.inl rfl)
  | _ => exact .kept (.inl live) rfl rfl (.inl rfl) (.inl rfl)

theorem zombie_origin (wf : Wf k) (move : Move k k' slot action entry pc)
    (dead : entry.state = .zombie) (process : entry.isThread = false) :
    SpaceOrigin k slot action entry := by
  cases move with
  | exits here =>
    exact .kept (.inl (by simp [here.1])) rfl rfl (.inl rfl)
      ((heir_origin k slot slot).imp_right fun child => ⟨slot, rfl, child⟩)
  | @orphaned self here =>
    refine .kept (.inr (.inl ⟨?_, process⟩)) rfl rfl (.inl rfl)
      ((heir_origin k slot self).imp_right fun child => ⟨self, rfl, child⟩)
    by_cases woken : k.pt.ExitWakes self (k.pt.proc slot)
    · simp [woken] at dead
    · simpa [woken] using dead
  | killed =>
    refine .kept (.inr (.inl ⟨?_, process⟩)) rfl rfl (.inl rfl) (.inl rfl)
    by_cases asleep : (k.pt.proc slot).state = .sleeping
    · simp [asleep] at dead
    · simpa [asleep] using dead
  | @forked self _ here => simp [wf.creates self slot (by simp [here.2])] at dead
  | @cloned self _ _ here => simp [wf.creates self slot (by simp [here.2])] at dead
  | execs here => simp [here.1] at dead
  | resumes | wakes | leavesPark | waits | reaped | yields | taken | abandoned | published
  | parks | unparked | sleeps | woken => simp [Ptable.release] at dead
  | resized => exact .kept (.inr (.inl ⟨dead, process⟩)) rfl rfl (.inr ⟨_, _, rfl⟩) (.inl rfl)
  | _ => exact .kept (.inr (.inl ⟨dead, process⟩)) rfl rfl (.inl rfl) (.inl rfl)

/-- Where the address space of a slot comes from. -/
theorem space_origin (wf : Wf k) (step : Step k action k') (has : HasSpace k' slot) :
    SpaceOrigin k slot action (k'.pt.proc slot) := by
  have move := step_move step wf.creates
  rcases has with live | ⟨dead, process⟩ | ⟨self, filling⟩
  · exact live_origin wf (move slot) live
  · exact zombie_origin wf (move slot) dead process
  · cases fills_move (move self) filling with
    | before before =>
      obtain ⟨thread, pgdir, sz, parent⟩ :=
        filled_move wf (move slot) before (creates_of_fills filling)
      refine .kept (.inr (.inr ⟨self, before⟩)) thread pgdir sz ?_
      exact parent.imp_right fun exiting => ⟨self, exiting, (wf.filled self slot before).1⟩
    | forks here nonnull parent process pgdir =>
      subst pgdir
      exact .forked here nonnull process
    | clones here parent thread pgdir sz => exact .cloned here thread pgdir sz parent

end Origin

/-! ## Pages -/

/-- What a page belongs to: the kernel stack of a slot, or the address space of a
process. -/
inductive PageOwner where
  | stack (slot : Slot)
  | space (slot : Slot)

inductive Holds (k : Kernel) : PageOwner → Nat → Prop where
  | stack {slot : Slot} : (k.pt.proc slot).kstack ≠ 0 →
      Holds k (.stack slot) (k.pt.proc slot).kstack
  | space {slot : Slot} : HasSpace k slot → (k.pt.proc slot).isThread = false →
      Holds k (.space slot) (k.pt.proc slot).pgdir

/-- The pages a step acquires. -/
inductive Gains (k : Kernel) : Action → PageOwner → Nat → Prop where
  | stack {self np : Slot} {kind : Spawn} {page : Nat} : k.pc self = .kstack np kind →
      page ≠ 0 → Gains k (.kstack self page) (.stack np) page
  | fork {self np : Slot} {pgdir : Nat} : k.pc self = .copy np .fork → pgdir ≠ 0 →
      Gains k (.copyuvm self pgdir) (.space np) pgdir
  | exec {self : Slot} {image : Ptable.Image} :
      Gains k (.exec self image) (.space self) image.pgdir

/-- No thread created by a process is alive. -/
def NoLiveThread (k : Kernel) (self : Slot) : Prop :=
  ∀ slot, (k.pt.proc slot).parent = some self → (k.pt.proc slot).isThread = true →
    ¬(k.pt.proc slot).state.Live

instance (k : Kernel) (self : Slot) : Decidable (NoLiveThread k self) :=
  inferInstanceAs (Decidable (∀ _, _))

/-- A process exits or replaces its image only when none of its threads is alive,
and a thread does not replace its image. -/
def SoleUser (k : Kernel) : Action → Prop
  | .exit self => NoLiveThread k self
  | .exec self _ => (k.pt.proc self).isThread = false ∧ NoLiveThread k self
  | _ => True

instance (k : Kernel) (action : Action) : Decidable (SoleUser k action) := by
  apply Action.casesOn (motive := fun action => Decidable (SoleUser k action)) action <;> intros <;>
    unfold SoleUser <;> infer_instance

/-- The users of every address space, and the pages of all slots. -/
structure Spaces (k : Kernel) : Prop where
  null : k.pt.pages 0 = false
  pages : Ownership.Exclusive k.pt.pages (Holds k)
  family : ∀ slot, HasSpace k slot → (k.pt.proc slot).isThread = true →
    ∃ parent, (k.pt.proc slot).parent = some parent ∧ (k.pt.proc parent).state.Live ∧
      (k.pt.proc slot).pgdir = (k.pt.proc parent).pgdir ∧
      (k.pt.proc parent).pid < (k.pt.proc slot).pid

section Pages

variable {k k' : Kernel} {slot : Slot} {action : Action} {entry : Proc} {pc : KernelPc}
  {owner : PageOwner} {page : Nat}

theorem Gains.unique {other : PageOwner} {page' : Nat} (first : Gains k action owner page)
    (second : Gains k action other page') : owner = other := by
  cases first with
  | stack here =>
    cases second with
    | stack here' =>
      rw [here] at here'
      cases here'
      rfl
  | fork here =>
    cases second with
    | fork here' =>
      rw [here] at here'
      cases here'
      rfl
  | exec =>
    cases second
    rfl

theorem stack_origin (move : Move k k' slot action entry pc) (stack : entry.kstack ≠ 0) :
    entry.kstack = (k.pt.proc slot).kstack ∨
      Gains k action (.stack slot) entry.kstack := by
  cases move with
  | stacked here => exact .inr (.stack here stack)
  | reaped | abandoned => exact absurd rfl stack
  | _ => exact .inl rfl

/-- A page that is held was held before, or the step has allocated it. -/
theorem holds_origin (wf : Wf k) (step : Step k action k') (holds : Holds k' owner page) :
    Holds k owner page ∨ Gains k action owner page := by
  cases holds with
  | @stack slot stack =>
    rcases stack_origin (step_move step wf.creates slot) stack with same | gained
    · left
      rw [same] at stack ⊢
      exact .stack stack
    · exact .inr gained
  | @space slot has process =>
    cases origin : space_origin wf step has with
    | kept has thread pgdir =>
      left
      rw [pgdir]
      exact .space has (thread ▸ process)
    | forked here nonnull => exact .inr (.fork here.2 nonnull)
    | cloned here thread => simp [thread] at process
    | execs here thread pgdir =>
      right
      rw [pgdir]
      exact .exec

theorem not_hasSpace_unused (wf : Wf k) (unused : (k.pt.proc slot).state = .unused) :
    ¬HasSpace k slot := by
  rintro (live | ⟨dead, -⟩ | ⟨self, filling⟩)
  · simp [unused] at live
  · simp [unused] at dead
  · simp [wf.creates self slot (creates_of_fills filling)] at unused

theorem not_holds_stack (none : (k.pt.proc slot).kstack = 0) : ¬Holds k (.stack slot) page := by
  intro holds
  cases holds with
  | stack stack => exact stack none

theorem Holds.space_page (holds : Holds k (.space slot) page) : page = (k.pt.proc slot).pgdir := by
  cases holds with
  | space => rfl

theorem not_holds_space (unused : ¬HasSpace k slot) : ¬Holds k (.space slot) page := by
  intro holds
  cases holds with
  | space has => exact unused has

private theorem scans_freed {base : Ptable} {self : Slot} {thread : Bool} (wf' : Wf k')
    (scans : Scans { k with pt := base } self thread k')
    (running : (base.proc self).state = .running)
    (others : ∀ other, other ≠ self → base.proc other = k.pt.proc other)
    (pages : base.pages = k.pt.pages) (null : k.pt.pages 0 = false)
    (before : k.pt.pages page = true) :
    k'.pt.pages page = true ∨ ∃ owner, Holds k owner page ∧ ¬Holds k' owner page := by
  cases scans with
  | @reaps child parent dead kind =>
    have different : child ≠ self := by
      rintro rfl
      simp [running] at dead
    simp only [others child different] at dead kind
    by_cases stack : page = (k.pt.proc child).kstack
    · subst stack
      refine .inr ⟨.stack child, .stack ?_, not_holds_stack (by simp [Ptable.release])⟩
      intro zero
      simp [zero, null] at before
    · by_cases space : thread = false ∧ page = (k.pt.proc child).pgdir
      · obtain ⟨rfl, rfl⟩ := space
        refine .inr ⟨.space child, .space (.inr (.inl ⟨dead, kind⟩)) kind, ?_⟩
        exact not_holds_space (not_hasSpace_unused wf' (by simp [Ptable.release]))
      · left
        cases thread with
        | true => simp [reapPages, Ptable.kfree, others child different, stack, pages, before]
        | false =>
          have other : page ≠ (k.pt.proc child).pgdir := fun same => space ⟨rfl, same⟩
          simp [reapPages, Ptable.kfree, Ptable.freevm, others child different, stack,
            other, pages, before]
  | fails none => exact .inl (by simpa [pages] using before)
  | sleeps none => exact .inl (by simpa [Ptable.sleep, pages] using before)

/-- A page is freed only where it stops being held. -/
theorem freed_step (wf' : Wf k') (spaces : Spaces k) (allowed : SoleUser k action)
    (step : Step k action k') (before : k.pt.pages page = true) :
    k'.pt.pages page = true ∨ ∃ owner, Holds k owner page ∧ ¬Holds k' owner page := by
  have abandons : ∀ np, (k'.pt.proc np).kstack = 0 →
      k'.pt.pages = (k.pt.kfree (k.pt.proc np).kstack).pages →
      k'.pt.pages page = true ∨ ∃ owner, Holds k owner page ∧ ¬Holds k' owner page := by
    intro np none pages
    by_cases stack : page = (k.pt.proc np).kstack
    · subst stack
      refine .inr ⟨.stack np, .stack ?_, not_holds_stack none⟩
      intro zero
      simp [zero, spaces.null] at before
    · left
      simp [pages, Ptable.kfree, stack, before]
  cases step with
  | @rescans slot thread _ runnable pc scans =>
    refine scans_freed wf' scans (by simp [Ptable.dispatch, Ptable.awake]) ?_
      (by simp [Ptable.dispatch, Ptable.awake]) spaces.null before
    intro other different
    simp [Ptable.dispatch, Ptable.awake, Ptable.modify_of_ne different]
  | scans call here scans =>
    exact scans_freed wf' scans here.1 (fun _ _ => rfl) rfl spaces.null before
  | @uncopied self np here =>
    exact abandons np (by simp [Ptable.abandonFork]) rfl
  | @unmapped self np fn ustack here =>
    exact abandons np (by simp [Ptable.abandon]) rfl
  | stacked here nonnull allocated | copies here nonnull allocated =>
    left
    have pages := (Ptable.kalloc_some allocated).2.2.2.2.2 page
    simp [Ptable.forkCopy, pages, before]
  | @execs self image pt here nonnull bound allocated =>
    have table := Ptable.kalloc_some allocated
    by_cases old : page = (k.pt.proc self).pgdir
    · subst old
      refine .inr ⟨.space self, .space (.inl (by simp [here.1])) allowed.1, ?_⟩
      intro holds
      have same : (k.pt.proc self).pgdir = image.pgdir := by
        simpa [Ptable.exec, table.1] using holds.space_page
      simp [same, table.2.2.2.2.1 nonnull] at before
    · left
      simp [Ptable.exec, Ptable.freevm, Ptable.kfree, table.1, old,
        table.2.2.2.2.2 page, before]
  | @grows self n addr memory here succeeds =>
    rw [Ptable.growproc, if_neg succeeds]
    exact .inl before
  | _ => exact .inl before

/-- A page that is allocated was free. -/
theorem gained_step (spaces : Spaces k) (allowed : SoleUser k action)
    (step : Step k action k') (gains : Gains k action owner page) :
    k.pt.pages page = false ∧ k'.pt.pages page = true := by
  cases gains with
  | stack here nonnull =>
    cases step with
    | stackless => exact absurd rfl nonnull
    | stacked here nonnull allocated =>
      have table := Ptable.kalloc_some allocated
      exact ⟨table.2.2.2.2.1 nonnull, by simp [table.2.2.2.2.2, nonnull]⟩
    | @scans _ thread _ _ call => cases thread <;> cases call
  | fork here nonnull =>
    cases step with
    | uncopied => exact absurd rfl nonnull
    | copies here nonnull allocated =>
      have table := Ptable.kalloc_some allocated
      exact ⟨table.2.2.2.2.1 nonnull,
        by simp [Ptable.forkCopy, table.2.2.2.2.2, nonnull]⟩
    | @scans _ thread _ _ call => cases thread <;> cases call
  | @exec self image =>
    cases step with
    | execs here nonnull bound allocated =>
      have table := Ptable.kalloc_some allocated
      have fresh := table.2.2.2.2.1 nonnull
      have old := spaces.pages.backed (.space (.inl (by simp [here.1])) allowed.1)
      have different : image.pgdir ≠ (k.pt.proc self).pgdir := by
        intro same
        simp [same, old] at fresh
      refine ⟨fresh, ?_⟩
      simp [Ptable.exec, Ptable.freevm, Ptable.kfree, table.1, different,
        table.2.2.2.2.2, nonnull]
    | @scans _ thread _ _ call => cases thread <;> cases call

/-- No page is held twice. -/
theorem exclusive_step (wf : Wf k) (wf' : Wf k') (spaces : Spaces k)
    (allowed : SoleUser k action) (step : Step k action k') :
    Ownership.Exclusive k'.pt.pages (Holds k') := by
  apply spaces.pages.change (Gains k action)
  · intro owner page gains
    exact (gained_step spaces allowed step gains).1
  · intro owner other page first second
    exact first.unique second
  · intro owner page holds
    rcases holds_origin wf step holds with old | gains
    · rcases freed_step wf' spaces allowed step (spaces.pages.backed old) with
        kept | ⟨other, held, dropped⟩
      · exact kept
      · exact (spaces.pages.unheld held dropped old holds).elim
    · exact (gained_step spaces allowed step gains).2
  · exact holds_origin wf step

theorem null_step (spaces : Spaces k) (step : Step k action k') : k'.pt.pages 0 = false := by
  have null := spaces.null
  cases step with
  | @rescans slot thread _ runnable pc scans =>
    cases scans with
    | reaps => cases thread <;> simp [reapPages, Ptable.kfree, Ptable.freevm,
        Ptable.dispatch, Ptable.awake, null]
    | fails | sleeps => exact null
  | @scans _ thread _ _ call here scans =>
    cases scans with
    | reaps => cases thread <;> simp [reapPages, Ptable.kfree, Ptable.freevm, null]
    | fails | sleeps => exact null
  | uncopied | unmapped => simp [Ptable.abandonFork, Ptable.abandon, Ptable.kfree, null]
  | stacked here nonnull allocated | copies here nonnull allocated =>
    simp [Ptable.forkCopy, (Ptable.kalloc_some allocated).2.2.2.2.2, null, Ne.symm nonnull]
  | execs here nonnull bound allocated =>
    simp [Ptable.exec, Ptable.freevm, Ptable.kfree,
      (Ptable.kalloc_some allocated).2.2.2.2.2, null, Ne.symm nonnull]
  | @grows self n addr memory here succeeds =>
    rw [Ptable.growproc, if_neg succeeds]
    exact null
  | _ => exact null

end Pages

/-! ## Families -/

section Family

variable {k k' : Kernel} {slot parent : Slot} {action : Action} {entry : Proc} {pc : KernelPc}

theorem HasSpace.ne_unused (wf : Wf k) (has : HasSpace k slot) :
    (k.pt.proc slot).state ≠ .unused := fun unused =>
  not_hasSpace_unused wf unused has

theorem pgdir_kept (move : Move k k' slot action entry pc) (wf : Wf k)
    (live : (k.pt.proc slot).state.Live) (other : ∀ image, action ≠ .exec slot image) :
    entry.pgdir = (k.pt.proc slot).pgdir := by
  have grown : ∀ self, (k.pc self).creates ≠ some slot := by
    intro self creating
    rw [wf.creates self slot creating] at live
    simp at live
  cases move with
  | @forked self _ here => exact absurd (by simp [here.2]) (grown self)
  | @cloned self _ _ here => exact absurd (by simp [here.2]) (grown self)
  | @abandoned _ self _ creating => exact absurd creating (grown self)
  | execs => exact absurd rfl (other _)
  | _ => rfl

theorem parent_stays (wf : Wf k) (allowed : SoleUser k action) (step : Step k action k')
    (has : HasSpace k slot) (thread : (k.pt.proc slot).isThread = true)
    (childOf : (k.pt.proc slot).parent = some parent) :
    action ≠ .exit parent ∧ ∀ image, action ≠ .exec parent image := by
  have busy : k.At parent .user → NoLiveThread k parent → False := by
    intro here none
    rcases has with live | ⟨-, process⟩ | ⟨self, filling⟩
    · exact none slot childOf thread live
    · simp [thread] at process
    · have creator := (wf.filled self slot filling).1
      rw [childOf] at creator
      cases creator
      simp [here.2, KernelPc.fills] at filling
  constructor
  · rintro rfl
    cases step with
    | exits here => exact busy here allowed
    | @scans _ thread _ _ call => cases thread <;> cases call
  · rintro image rfl
    cases step with
    | execs here => exact busy here allowed.2
    | @scans _ thread _ _ call => cases thread <;> cases call

/-- A thread has a live parent with its page directory. -/
theorem family_step (wf : Wf k) (wf' : Wf k') (spaces : Spaces k)
    (allowed : SoleUser k action) (step : Step k action k') (has : HasSpace k' slot)
    (thread : (k'.pt.proc slot).isThread = true) :
    ∃ parent, (k'.pt.proc slot).parent = some parent ∧ (k'.pt.proc parent).state.Live ∧
      (k'.pt.proc slot).pgdir = (k'.pt.proc parent).pgdir ∧
      (k'.pt.proc parent).pid < (k'.pt.proc slot).pid := by
  have move := step_move step wf.creates
  cases space_origin wf step has with
  | kept before sameThread pgdir _ sameParent =>
    rw [sameThread] at thread
    obtain ⟨parent, childOf, live, shared, older⟩ := spaces.family slot before thread
    obtain ⟨stays, keeps⟩ := parent_stays wf allowed step before thread childOf
    have live' := live_kept (move parent) wf live stays
    refine ⟨parent, ?_, live', ?_, ?_⟩
    · rcases sameParent with same | ⟨self, exiting, childOf'⟩
      · rw [same, childOf]
      · rw [childOf] at childOf'
        cases childOf'
        exact absurd exiting stays
    · rw [pgdir, pgdir_kept (move parent) wf live keeps, shared]
    · rw [pid_kept (move parent) live.ne_unused live'.ne_unused,
        pid_kept (move slot) (before.ne_unused wf) (has.ne_unused wf')]
      exact older
  | forked here nonnull process => simp [process] at thread
  | @cloned self _ _ _ here isThread pgdir _ childOf =>
    have live : (k.pt.proc self).state.Live := by simp [here.1]
    have live' := live_kept (move self) wf live (by simp)
    have creating : (k.pc self).creates = some slot := by simp [here.2]
    have embryo := wf.creates self slot creating
    refine ⟨self, childOf, live', ?_, ?_⟩
    · rw [pgdir, pgdir_kept (move self) wf live (by simp)]
    · rw [pid_kept (move self) live.ne_unused live'.ne_unused,
        pid_kept (move slot) (by simp [embryo]) (has.ne_unused wf')]
      exact wf.older self slot creating
  | execs here sameThread =>
    rw [sameThread, allowed.1] at thread
    cases thread

/-- A step keeps address spaces apart if nobody else uses the one it replaces. -/
theorem spaces_step (wf : Wf k) (spaces : Spaces k) (allowed : SoleUser k action)
    (taken : k.step action = some k') : Spaces k' where
  null := null_step spaces (step_effect taken)
  pages := exclusive_step wf (wf_step wf taken) spaces allowed (step_effect taken)
  family := fun _ => family_step wf (wf_step wf taken) spaces allowed (step_effect taken)

theorem spaces_boot {start : Kernel} (boot : Boot start) : Spaces start := by
  obtain ⟨idle, -, -, kstack, pgdir, stack, space, different, first, others, pages⟩ :=
    boot_table boot
  have only : ∀ slot, HasSpace start slot → slot = 0 := by
    intro slot has
    by_contra other
    exact not_hasSpace_unused (wf_boot boot) (by rw [others slot other]) has
  have held : ∀ {owner page}, Holds start owner page →
      owner = .stack 0 ∧ page = kstack ∨ owner = .space 0 ∧ page = pgdir := by
    intro owner page holds
    cases holds with
    | @stack slot nonnull =>
      have zero : slot = 0 := by
        by_contra other
        exact nonnull (by rw [others slot other])
      rw [zero, first]
      exact .inl ⟨rfl, rfl⟩
    | @space slot has process =>
      rw [only slot has, first]
      exact .inr ⟨rfl, rfl⟩
  refine ⟨?_, ⟨?_, ?_⟩, ?_⟩
  · by_contra allocated
    rcases (pages 0).mp (by simpa using allocated) with zero | zero
    · exact stack zero.symm
    · exact space zero.symm
  · intro owner page holds
    rcases held holds with ⟨-, rfl⟩ | ⟨-, rfl⟩
    · exact (pages page).mpr (.inl rfl)
    · exact (pages page).mpr (.inr rfl)
  · intro owner other page holds holds'
    rcases held holds with ⟨rfl, rfl⟩ | ⟨rfl, rfl⟩
    · rcases held holds' with ⟨rfl, -⟩ | ⟨-, same⟩
      · rfl
      · exact absurd same different
    · rcases held holds' with ⟨-, same⟩ | ⟨rfl, -⟩
      · exact absurd same.symm different
      · rfl
  · intro slot has thread
    rw [only slot has, first] at thread
    cases thread

theorem Reachable.spaces {guard : Kernel → Action → Prop} {k : Kernel}
    (reachable : Reachable guard k) (implies : ∀ k action, guard k action → SoleUser k action) :
    Spaces k := by
  obtain ⟨start, trace, boot, run⟩ := reachable
  apply And.right (a := Wf k)
  apply run.stateInvariant
  · exact ⟨wf_boot boot, spaces_boot boot⟩
  · rintro state action next ⟨wf, spaces⟩ allowed taken
    exact ⟨wf_step wf taken, spaces_step wf spaces (implies _ _ allowed) taken⟩

/-- Every address space in use is that of a process. -/
theorem Spaces.owner (wf : Wf k) (spaces : Spaces k) (has : HasSpace k slot) :
    ∃ owner, HasSpace k owner ∧ (k.pt.proc owner).isThread = false ∧
      (k.pt.proc owner).pgdir = (k.pt.proc slot).pgdir ∧
      (slot = owner ∨ (k.pt.proc owner).state.Live ∧
        ∃ thread, HasSpace k thread ∧ (k.pt.proc thread).isThread = true ∧
          (k.pt.proc thread).parent = some owner) := by
  induction measure : (k.pt.proc slot).pid.toNat using Nat.strong_induction_on
    generalizing slot with
  | _ pid ih =>
    cases thread : (k.pt.proc slot).isThread with
    | false => exact ⟨slot, has, thread, rfl, .inl rfl⟩
    | true =>
      obtain ⟨parent, childOf, live, shared, older⟩ := spaces.family slot has thread
      have bound := wf.pidBound parent
      obtain ⟨owner, hasOwner, process, pgdir, way⟩ :=
        ih (k.pt.proc parent).pid.toNat (by omega) (.inl live) rfl
      refine ⟨owner, hasOwner, process, pgdir.trans shared.symm, .inr ?_⟩
      rcases way with rfl | further
      · exact ⟨live, slot, has, thread, childOf⟩
      · exact further

theorem Spaces.allocated (wf : Wf k) (spaces : Spaces k) (has : HasSpace k slot) :
    k.pt.pages (k.pt.proc slot).pgdir = true := by
  obtain ⟨owner, hasOwner, process, pgdir, -⟩ := spaces.owner wf has
  rw [← pgdir]
  exact spaces.pages.backed (.space hasOwner process)

theorem Spaces.owner_unique {other : Slot} (spaces : Spaces k) (has : HasSpace k slot)
    (process : (k.pt.proc slot).isThread = false) (has' : HasSpace k other)
    (process' : (k.pt.proc other).isThread = false)
    (shared : (k.pt.proc slot).pgdir = (k.pt.proc other).pgdir) : slot = other := by
  have holds := Holds.space has' process'
  rw [← shared] at holds
  cases spaces.pages.single (.space has process) holds
  rfl

end Family

end Xv6.Kernel
