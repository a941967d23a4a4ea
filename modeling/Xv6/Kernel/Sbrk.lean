import Xv6.Kernel.Size

/-!
# The memory that `sbrk` hands out

`sys_sbrk` returns the size it read before it called `growproc`, which takes the
lock.  The regions returned to the threads of one process are disjoint exactly if
no other thread grows the address space between the two.
-/

namespace Xv6.Kernel

/-! ## Sizes -/

variable {n : Int} {memory : Bool}

theorem grownSize_le {sz : Nat} (bound : sz ≤ usertop) :
    Ptable.grownSize sz n memory ≤ usertop := by
  unfold Ptable.grownSize
  split
  · unfold Ptable.allocuvm
    split
    · exact Nat.zero_le _
    · split
      · exact bound
      · split <;> omega
  · split
    · unfold Ptable.deallocuvm
      split <;> omega
    · exact bound

theorem grownSize_pos {sz : Nat} (bound : sz ≤ usertop)
    (positive : 0 < n) (isInt : IsInt n) (succeeds : Ptable.grownSize sz n memory ≠ 0) :
    Ptable.grownSize sz n memory = sz + n.toNat := by
  have small : (sz : Int) + n < 2 ^ 32 := by
    have := isInt.2
    unfold usertop at bound
    unfold intMax at this
    omega
  have exact : toUint (sz + n) = sz + n.toNat := by
    rw [toUint, Int.emod_eq_of_lt (by omega) small]
    omega
  simp only [Ptable.grownSize, positive, if_true, exact, Ptable.allocuvm] at succeeds ⊢
  split at succeeds
  · exact absurd rfl succeeds
  next fits =>
    rw [if_neg fits]
    split at succeeds
    · omega
    next grows =>
      rw [if_neg grows]
      split at succeeds
      · exact absurd rfl succeeds
      next enough => rw [if_neg enough]

/-- Every size fits the user address space. -/
def Bounded (k : Kernel) : Prop := ∀ slot, (k.pt.proc slot).sz ≤ usertop

section Step

variable {k k' : Kernel} {slot : Slot} {action : Action} {entry : Proc} {pc : KernelPc}

theorem bounded_move (bounded : Bounded k) (move : Move k k' slot action entry pc) :
    entry.sz ≤ usertop := by
  cases move with
  | @forked self => exact bounded self
  | @cloned self => exact bounded self
  | execs here bound => exact bound
  | @resized self _ _ _ _ size =>
    rcases size with rfl | ⟨n, rfl⟩
    · exact bounded slot
    · exact grownSize_le (bounded self)
  | _ => exact bounded slot

theorem bounded_step (wf : Wf k) (bounded : Bounded k) (taken : k.step action = some k') :
    Bounded k' := fun slot =>
  bounded_move bounded (step_move (step_effect taken) wf.creates slot)

theorem bounded_boot (boot : Boot k) : Bounded k := by
  obtain ⟨-, -, -, kstack, pgdir, -, -, -, first, others, -⟩ := boot_table boot
  intro slot
  by_cases zero : slot = 0
  · rw [zero, first]
    exact show pgsize ≤ usertop by decide
  · rw [others slot zero]
    exact Nat.zero_le _

theorem Reachable.bounded {guard : Kernel → Action → Prop} (reachable : Reachable guard k) :
    Bounded k := by
  obtain ⟨start, trace, boot, run⟩ := reachable
  apply And.right (a := Wf k)
  apply run.stateInvariant ⟨wf_boot boot, bounded_boot boot⟩
  rintro state action next ⟨wf, bounded⟩ _ taken
  exact ⟨wf_step wf taken, bounded_step wf bounded taken⟩

theorem sz_move (wf : Wf k) (move : Move k k' slot action entry pc)
    (inside : k.pc slot ≠ .user) (other : ∀ self memory, action ≠ .growproc self memory) :
    entry.sz = (k.pt.proc slot).sz := by
  have outside : ∀ self, (k.pc self).creates ≠ some slot := by
    intro self creating
    have embryo := wf.creates self slot creating
    apply inside
    apply And.left
    apply (wf.placed slot).user_of_idle <;> simp [embryo]
  cases move with
  | @forked self _ here => exact absurd (by simp [here.2]) (outside self)
  | @cloned self _ _ here => exact absurd (by simp [here.2]) (outside self)
  | execs here => exact absurd here.2 inside
  | resized => exact absurd rfl (other _ _)
  | _ => rfl

theorem sbrk_origin {addr : Nat} (move : Move k k' slot action entry pc)
    (pending : pc = .sbrk n addr) :
    k.pc slot = .sbrk n addr ∨
      action = .sbrk slot n ∧ IsInt n ∧ addr = (k.pt.proc slot).sz ∧
        entry = k.pt.proc slot := by
  cases move with
  | sbrks here isInt =>
    cases pending
    exact .inr ⟨rfl, isInt, rfl, rfl⟩
  | @waits _ thread => cases thread <;> cases pending
  | resized way =>
    rcases way with rfl | ⟨-, -, rfl⟩
    · exact .inl pending
    · cases pending
  | wakes | leavesPark | returns | parks | skipsPark | sleeps | taken | spawns | getsStack
  | copies | shares | maps => cases pending
  | _ => exact .inl pending

end Step

/-! ## Regions -/

/-- The region that a step returns from `sys_sbrk` to a caller with a given page
directory: its address and its length. -/
def granted (pgdir : Nat) : Kernel × Action → Option (Nat × Nat)
  | (k, .growproc self memory) =>
    match k.pc self with
    | .sbrk n addr =>
      if (k.pt.proc self).pgdir = pgdir ∧ (k.pt.growproc self n memory).2 = 0 then
        some (addr, n.toNat)
      else none
    | _ => none
  | _ => none

/-- The regions returned in a run. -/
def grants (pgdir : Nat) (trace : List (Kernel × Action)) : List (Nat × Nat) :=
  trace.filterMap (granted pgdir)

/-- Two regions have no address in common. -/
def Apart (region other : Nat × Nat) : Prop :=
  region.1 + region.2 ≤ other.1 ∨ other.1 + other.2 ≤ region.1

/-- A successful `growproc` finds the size that its caller read. -/
def Undisturbed (pgdir : Nat) : Kernel × Action → Prop
  | (k, .growproc self memory) =>
    ∀ region ∈ granted pgdir (k, .growproc self memory), (k.pt.proc self).sz = region.1
  | _ => True

instance (pgdir : Nat) (entry : Kernel × Action) : Decidable (Undisturbed pgdir entry) := by
  apply Action.casesOn (motive := fun action => Decidable (Undisturbed pgdir (entry.1, action)))
    entry.2 <;> intros <;> unfold Undisturbed <;> infer_instance

/-- Steps with flat families in which the users of one address space call `sbrk` with
positive arguments, and its page directory is not allocated anew. -/
def Growing (pgdir : Nat) (k : Kernel) (action : Action) : Prop :=
  FlatFamilies k action ∧
    match action with
    | .sbrk self n => (k.pt.proc self).pgdir = pgdir → 0 < n
    | .copyuvm _ page => page ≠ pgdir
    | .exec _ image => image.pgdir ≠ pgdir
    | _ => True

instance (pgdir : Nat) (k : Kernel) (action : Action) : Decidable (Growing pgdir k action) := by
  apply Action.casesOn (motive := fun action => Decidable (Growing pgdir k action)) action <;>
    intros <;> unfold Growing <;> infer_instance

/-- What holds of the regions returned so far, if no call was disturbed.  A size read
by a call that is not finished yet is outdated only if it lies in one of them. -/
structure Ledger (pgdir : Nat) (regions : List (Nat × Nat)) (k : Kernel) : Prop where
  apart : regions.Pairwise Apart
  inside : ∀ region ∈ regions, ∀ slot, HasSpace k slot → (k.pt.proc slot).pgdir = pgdir →
    region.1 + region.2 ≤ (k.pt.proc slot).sz
  pending : ∀ self n addr, k.pc self = .sbrk n addr → (k.pt.proc self).pgdir = pgdir →
    0 < n ∧ IsInt n ∧ addr ≤ (k.pt.proc self).sz ∧
      (addr = (k.pt.proc self).sz ∨
        ∃ region ∈ regions, region.1 ≤ addr ∧ addr < region.1 + region.2)

/-- Everything the argument needs about one state. -/
structure Tidy (k : Kernel) : Prop where
  wf : Wf k
  spaces : Spaces k
  families : Families k
  sized : Sized k
  bounded : Bounded k

theorem tidy_step {k k' : Kernel} {action : Action} (tidy : Tidy k)
    (allowed : FlatFamilies k action) (taken : k.step action = some k') : Tidy k' where
  wf := wf_step tidy.wf taken
  spaces := spaces_step tidy.wf tidy.spaces allowed.soleUser taken
  families := families_step tidy.wf tidy.families allowed taken
  sized := sized_step tidy.wf tidy.spaces tidy.families allowed tidy.sized taken
  bounded := bounded_step tidy.wf tidy.bounded taken

theorem Reachable.tidy {k : Kernel} (reachable : Reachable FlatFamilies k) : Tidy k := by
  obtain ⟨wf, spaces, families, sized⟩ := reachable.families
  exact ⟨wf, spaces, families, sized, reachable.bounded⟩

section Ledger

variable {k k' : Kernel} {slot self : Slot} {action : Action} {pgdir : Nat}
  {regions : List (Nat × Nat)} {addr : Nat}

theorem pending_hasSpace (wf : Wf k) (pending : k.pc self = .sbrk n addr) : HasSpace k self := by
  have placed := wf.placed self
  rw [pending] at placed
  rcases placed.2 with running | runnable
  · exact .inl (by simp [running])
  · exact .inl (by simp [runnable])

section
variable (tidy : Tidy k)
include tidy

theorem growproc_grows (taken : k.step (.growproc self memory) = some k')
    (pending : k.pc self = .sbrk n addr) (positive : 0 < n) (isInt : IsInt n)
    (has : HasSpace k slot) (shared : (k.pt.proc slot).pgdir = (k.pt.proc self).pgdir) :
    (k'.pt.proc slot).sz = (k.pt.proc slot).sz +
      if (k.pt.growproc self n memory).2 = 0 then n.toNat else 0 := by
  cases step_effect taken with
  | @ungrown _ n' addr' _ here fails =>
    rw [here.2] at pending
    cases pending
    have failed : (k.pt.growproc self n memory).2 = -1 := by
      rw [Ptable.growproc, if_pos fails]
    simp [failed]
  | @grows _ n' addr' _ here succeeds =>
    rw [here.2] at pending
    cases pending
    have result : (k.pt.growproc self n memory).2 = 0 := by
      rw [Ptable.growproc, if_neg succeeds]
    have nonzero : Ptable.grownSize (k.pt.proc self).sz n memory ≠ 0 := fun zero =>
      succeeds ⟨by omega, zero⟩
    have hasSelf : HasSpace k self := .inl (by simp [here.1])
    have rewritten := tidy.families.shares_resizes tidy.spaces here.1 has shared
    rw [goto_pt, Ptable.growproc_proc succeeds]
    simp only [if_pos rewritten, result, if_true]
    rw [grownSize_pos (tidy.bounded self) positive isInt nonzero,
      tidy.sized slot self has hasSelf shared]
  | @scans _ thread _ _ call => cases thread <;> cases call

theorem growproc_other (allowed : FlatFamilies k (.growproc self memory))
    (taken : k.step (.growproc self memory) = some k')
    (different : (k.pt.proc slot).pgdir ≠ (k.pt.proc self).pgdir) :
    (k'.pt.proc slot).sz = (k.pt.proc slot).sz := by
  obtain ⟨running, same | ⟨sz, sizes⟩⟩ := growproc_step taken
  · exact same slot
  · rw [sizes, if_neg]
    rintro (rfl | rewritten)
    · exact different rfl
    · exact different (tidy.families.resizes_shares tidy.spaces running allowed rewritten)

theorem other_ledger (allowed : Growing pgdir k action) (taken : k.step action = some k')
    (other : ∀ self memory, action ≠ .growproc self memory) (ledger : Ledger pgdir regions k) :
    Ledger pgdir regions k' where
  apart := ledger.apart
  inside := by
    intro region member slot has shared
    rcases size_origin tidy.wf (step_effect taken) other has with
      ⟨before, had, same, sz⟩ | gains
    · rw [sz]
      exact ledger.inside region member before had (same ▸ shared)
    · rw [shared] at gains
      cases gains with
      | fork => exact absurd rfl allowed.2
      | exec => exact absurd rfl allowed.2
  pending := by
    intro self n addr pending shared
    have move := step_move (step_effect taken) tidy.wf.creates self
    rcases sbrk_origin move pending with before | ⟨rfl, isInt, read, same⟩
    · have inside : k.pc self ≠ .user := by simp [before]
      rw [pgdir_move tidy.wf move inside] at shared
      rw [sz_move tidy.wf move inside other]
      exact ledger.pending self n addr before shared
    · rw [same] at shared ⊢
      exact ⟨allowed.2 shared, isInt, read.le, .inl read⟩

theorem growproc_pending {other : Slot} {m : Int} {read : Nat}
    (taken : k.step (.growproc self memory) = some k') (pending : k'.pc other = .sbrk m read) :
    k.pc other = .sbrk m read ∧ (k'.pt.proc other).pgdir = (k.pt.proc other).pgdir := by
  have move := step_move (step_effect taken) tidy.wf.creates other
  rcases sbrk_origin move pending with before | ⟨absurd, -⟩
  · exact ⟨before, pgdir_move tidy.wf move (by simp [before])⟩
  · cases absurd

theorem foreign_ledger (allowed : FlatFamilies k (.growproc self memory))
    (taken : k.step (.growproc self memory) = some k')
    (foreign : (k.pt.proc self).pgdir ≠ pgdir) (ledger : Ledger pgdir regions k) :
    Ledger pgdir regions k' where
  apart := ledger.apart
  inside := by
    intro region member slot has shared
    cases space_origin tidy.wf (step_effect taken) has with
    | kept before thread same =>
      rw [same] at shared
      rw [growproc_other tidy allowed taken (by rw [shared]; exact Ne.symm foreign)]
      exact ledger.inside region member slot before shared
  pending := by
    intro other n addr pending shared
    obtain ⟨before, same⟩ := growproc_pending tidy taken pending
    rw [same] at shared
    rw [growproc_other tidy allowed taken (by rw [shared]; exact Ne.symm foreign)]
    exact ledger.pending other n addr before shared

theorem own_ledger (taken : k.step (.growproc self memory) = some k')
    (calling : k.pc self = .sbrk n addr) (own : (k.pt.proc self).pgdir = pgdir)
    (ledger : Ledger pgdir regions k) (result : (k.pt.growproc self n memory).2 = 0)
    (undisturbed : (k.pt.proc self).sz = addr) :
    Ledger pgdir (regions ++ [(addr, n.toNat)]) k' := by
  obtain ⟨positive, isInt, -, -⟩ := ledger.pending self n addr calling own
  have hasSelf := pending_hasSpace tidy.wf calling
  have grown : ∀ slot, HasSpace k slot → (k.pt.proc slot).pgdir = pgdir →
      (k.pt.proc slot).sz = addr ∧ (k'.pt.proc slot).sz = addr + n.toNat := by
    intro slot has shared
    have same := tidy.sized slot self has hasSelf (shared.trans own.symm)
    have sum := growproc_grows tidy taken calling positive isInt has (shared.trans own.symm)
    rw [result, if_pos rfl] at sum
    exact ⟨same.trans undisturbed, by rw [sum, same, undisturbed]⟩
  refine ⟨?_, ?_, ?_⟩
  · rw [List.pairwise_append]
    refine ⟨ledger.apart, List.pairwise_singleton _ _, ?_⟩
    intro region member last isLast
    rw [List.mem_singleton.mp isLast]
    left
    rw [← undisturbed]
    exact ledger.inside region member self hasSelf own
  · intro region member slot has shared
    cases space_origin tidy.wf (step_effect taken) has with
    | kept before thread same =>
      rw [same] at shared
      obtain ⟨old, new⟩ := grown slot before shared
      rw [new]
      rcases List.mem_append.mp member with earlier | isLast
      · have := ledger.inside region earlier slot before shared
        omega
      · rw [List.mem_singleton.mp isLast]
  · intro other m read pending shared
    obtain ⟨before, same⟩ := growproc_pending tidy taken pending
    rw [same] at shared
    obtain ⟨positive', isInt', bound, source⟩ := ledger.pending other m read before shared
    obtain ⟨old, new⟩ := grown other (pending_hasSpace tidy.wf before) shared
    refine ⟨positive', isInt', by omega, .inr ?_⟩
    rcases source with current | ⟨region, member, within⟩
    · exact ⟨(addr, n.toNat), by simp, by omega, by omega⟩
    · exact ⟨region, by simp [member], within⟩

theorem failed_ledger (taken : k.step (.growproc self memory) = some k')
    (calling : k.pc self = .sbrk n addr) (own : (k.pt.proc self).pgdir = pgdir)
    (ledger : Ledger pgdir regions k) (result : (k.pt.growproc self n memory).2 ≠ 0) :
    Ledger pgdir regions k' := by
  obtain ⟨positive, isInt, -, -⟩ := ledger.pending self n addr calling own
  have kept : ∀ slot, HasSpace k slot → (k.pt.proc slot).pgdir = pgdir →
      (k'.pt.proc slot).sz = (k.pt.proc slot).sz := by
    intro slot has shared
    have sum := growproc_grows tidy taken calling positive isInt has (shared.trans own.symm)
    rw [if_neg result] at sum
    exact sum
  refine ⟨ledger.apart, ?_, ?_⟩
  · intro region member slot has shared
    cases space_origin tidy.wf (step_effect taken) has with
    | kept before thread same =>
      rw [same] at shared
      rw [kept slot before shared]
      exact ledger.inside region member slot before shared
  · intro other m read pending shared
    obtain ⟨before, same⟩ := growproc_pending tidy taken pending
    rw [same] at shared
    rw [kept other (pending_hasSpace tidy.wf before) shared]
    exact ledger.pending other m read before shared

end

theorem disturbed_overlap (calling : k.pc self = .sbrk n addr)
    (own : (k.pt.proc self).pgdir = pgdir) (ledger : Ledger pgdir regions k)
    (disturbed : (k.pt.proc self).sz ≠ addr) : ¬(regions ++ [(addr, n.toNat)]).Pairwise Apart := by
  intro apart
  obtain ⟨positive, isInt, bound, source⟩ := ledger.pending self n addr calling own
  rcases source with current | ⟨region, member, within⟩
  · exact disturbed current.symm
  · have := (List.pairwise_append.mp apart).2.2 region member (addr, n.toNat) (by simp)
    rcases this with before | after
    · omega
    · simp only at after
      omega

theorem ledger_step (tidy : Tidy k) (allowed : Growing pgdir k action)
    (taken : k.step action = some k') (ledger : Ledger pgdir regions k) :
    (Undisturbed pgdir (k, action) ∧
        Ledger pgdir (regions ++ (granted pgdir (k, action)).toList) k') ∨
      ¬Undisturbed pgdir (k, action) ∧
        ¬(regions ++ (granted pgdir (k, action)).toList).Pairwise Apart := by
  by_cases growing : ∃ self memory, action = .growproc self memory
  · obtain ⟨self, memory, rfl⟩ := growing
    obtain ⟨n, addr, calling⟩ : ∃ n addr, k.pc self = .sbrk n addr := by
      cases step_effect taken with
      | ungrown here => exact ⟨_, _, here.2⟩
      | grows here => exact ⟨_, _, here.2⟩
      | @scans _ thread _ _ call => cases thread <;> cases call
    by_cases own : (k.pt.proc self).pgdir = pgdir
    · by_cases result : (k.pt.growproc self n memory).2 = 0
      · have region : granted pgdir (k, .growproc self memory) = some (addr, n.toNat) := by
          simp [granted, calling, own, result]
        rw [region]
        by_cases undisturbed : (k.pt.proc self).sz = addr
        · refine .inl ⟨?_, own_ledger tidy taken calling own ledger result undisturbed⟩
          intro other same
          rw [region] at same
          cases same
          exact undisturbed
        · refine .inr ⟨?_, disturbed_overlap calling own ledger undisturbed⟩
          intro all
          exact undisturbed (all _ region)
      · have none : granted pgdir (k, .growproc self memory) = none := by
          simp [granted, calling, result]
        rw [none]
        refine .inl ⟨by simp [Undisturbed, none], ?_⟩
        simpa using failed_ledger tidy taken calling own ledger result
    · have none : granted pgdir (k, .growproc self memory) = none := by
        simp [granted, calling, own]
      rw [none]
      refine .inl ⟨by simp [Undisturbed, none], ?_⟩
      simpa using foreign_ledger tidy allowed.1 taken own ledger
  · have other : ∀ self memory, action ≠ .growproc self memory := fun self memory same =>
      growing ⟨self, memory, same⟩
    have none : granted pgdir (k, action) = none := by
      cases action <;> first | rfl | exact absurd rfl (other _ _)
    have free : Undisturbed pgdir (k, action) := by
      cases action <;> first | trivial | exact absurd rfl (other _ _)
    rw [none]
    refine .inl ⟨free, ?_⟩
    simpa using other_ledger tidy allowed taken other ledger

end Ledger

theorem grants_snoc (pgdir : Nat) (trace : List (Kernel × Action)) (entry : Kernel × Action) :
    grants pgdir (trace ++ [entry]) = grants pgdir trace ++ (granted pgdir entry).toList := by
  unfold grants
  cases region : granted pgdir entry <;> simp [region]

theorem ledger_run {start k : Kernel} {trace : List (Kernel × Action)} {pgdir : Nat}
    (reachable : Reachable FlatFamilies start) (idle : ∀ self n addr, start.pc self = .sbrk n addr →
      (start.pt.proc self).pgdir ≠ pgdir)
    (run : Transition.Run step (Growing pgdir) start trace k) :
    Tidy k ∧ ((∀ entry ∈ trace, Undisturbed pgdir entry) ∧ Ledger pgdir (grants pgdir trace) k ∨
      (¬∀ entry ∈ trace, Undisturbed pgdir entry) ∧ ¬(grants pgdir trace).Pairwise Apart) := by
  apply run.invariant
  · refine ⟨reachable.tidy, .inl ⟨by simp, .nil, by simp [grants], ?_⟩⟩
    intro self n addr pending shared
    exact absurd shared (idle self n addr pending)
  · rintro trace state action next _ ⟨tidy, so_far⟩ allowed taken
    refine ⟨tidy_step tidy allowed.1 taken, ?_⟩
    rw [grants_snoc]
    simp only [List.mem_append, List.mem_singleton]
    rcases so_far with ⟨clean, ledger⟩ | ⟨disturbed, overlap⟩
    · rcases ledger_step tidy allowed taken ledger with ⟨free, ledger⟩ | ⟨disturbed, overlap⟩
      · refine .inl ⟨?_, ledger⟩
        rintro entry (earlier | rfl)
        · exact clean entry earlier
        · exact free
      · exact .inr ⟨fun all => disturbed (all _ (.inr rfl)), overlap⟩
    · refine .inr ⟨fun all => disturbed fun entry member => all entry (.inl member), ?_⟩
      intro apart
      exact overlap (List.pairwise_append.mp apart).1

/-- The threads of flat families call `sbrk` with positive arguments in any
interleaving.  The regions they get are disjoint and inside the final size exactly if
every successful call finds the size that it read. -/
theorem sbrk_regions_disjoint_iff {start k : Kernel} {trace : List (Kernel × Action)}
    {pgdir : Nat} (reachable : Reachable FlatFamilies start)
    (idle : ∀ self n addr, start.pc self = .sbrk n addr →
      (start.pt.proc self).pgdir ≠ pgdir)
    (run : Transition.Run step (Growing pgdir) start trace k) :
    ((grants pgdir trace).Pairwise Apart ∧
      ∀ region ∈ grants pgdir trace, ∀ slot, (k.pt.proc slot).state.Live →
        (k.pt.proc slot).pgdir = pgdir → region.1 + region.2 ≤ (k.pt.proc slot).sz) ↔
    ∀ entry ∈ trace, Undisturbed pgdir entry := by
  obtain ⟨-, ⟨clean, ledger⟩ | ⟨disturbed, overlap⟩⟩ := ledger_run reachable idle run
  · refine ⟨fun _ => clean, fun _ => ⟨ledger.apart, ?_⟩⟩
    intro region member slot live shared
    exact ledger.inside region member slot (.inl live) shared
  · exact ⟨fun disjoint => absurd disjoint.1 overlap, fun all => absurd all disturbed⟩

/-- A process and its thread grow the address space one after the other. -/
theorem sbrk_regions_disjoint_sequential :
    ∃ start trace k, Reachable FlatFamilies start ∧
      Transition.Run step (Growing 4) start trace k ∧
      grants 4 trace = [(4096, 4096), (8192, 8192)] ∧ (grants 4 trace).Pairwise Apart := by
  obtain ⟨start, reachable, user, met, allowed, clean, regions⟩ :
      ∃ k, Reachable FlatFamilies k ∧ (∀ self, k.pc self = .user) ∧
        (Transition.exec step k
          [.sbrk 1 4096, .growproc 1 true, .sbrk 2 8192, .growproc 2 true]).isSome = true ∧
        (∀ entry ∈ Transition.traceOf step k
          [.sbrk 1 4096, .growproc 1 true, .sbrk 2 8192, .growproc 2 true],
          Growing 4 entry.1 entry.2) ∧
        (∀ entry ∈ Transition.traceOf step k
          [.sbrk 1 4096, .growproc 1 true, .sbrk 2 8192, .growproc 2 true],
          Undisturbed 4 entry) ∧
        grants 4 (Transition.traceOf step k
          [.sbrk 1 4096, .growproc 1 true, .sbrk 2 8192, .growproc 2 true]) =
          [(4096, 4096), (8192, 8192)] :=
    reachable_exec (withThread ++ [.dispatch 2]) (by decide +kernel) (by decide +kernel)
  obtain ⟨k, executed⟩ := Option.isSome_iff_exists.mp met
  have run := Transition.Run.of_exec executed allowed
  refine ⟨start, _, k, reachable, run, regions, ?_⟩
  exact ((sbrk_regions_disjoint_iff reachable (by simp [user]) run).mpr clean).1

/-- A process and its thread both read the size before one of them grows the address
space: both get the same region. -/
theorem sbrk_regions_overlap :
    ∃ start trace k, Reachable FlatFamilies start ∧ (∀ self, start.pc self = .user) ∧
      Transition.Run step (Growing 4) start trace k ∧
      grants 4 trace = [(4096, 4096), (4096, 4096)] ∧ ¬(grants 4 trace).Pairwise Apart := by
  obtain ⟨start, reachable, user, met, allowed, regions⟩ :
      ∃ k, Reachable FlatFamilies k ∧ (∀ self, k.pc self = .user) ∧
        (Transition.exec step k
          [.sbrk 1 4096, .sbrk 2 4096, .growproc 1 true, .growproc 2 true]).isSome = true ∧
        (∀ entry ∈ Transition.traceOf step k
          [.sbrk 1 4096, .sbrk 2 4096, .growproc 1 true, .growproc 2 true],
          Growing 4 entry.1 entry.2) ∧
        grants 4 (Transition.traceOf step k
          [.sbrk 1 4096, .sbrk 2 4096, .growproc 1 true, .growproc 2 true]) =
          [(4096, 4096), (4096, 4096)] :=
    reachable_exec (withThread ++ [.dispatch 2]) (by decide +kernel) (by decide +kernel)
  obtain ⟨k, executed⟩ := Option.isSome_iff_exists.mp met
  refine ⟨start, _, k, reachable, user, .of_exec executed allowed, regions, ?_⟩
  rw [regions]
  simp [Apart]

end Xv6.Kernel
