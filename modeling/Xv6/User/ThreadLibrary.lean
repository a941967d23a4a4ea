import Xv6.User.Allocator

/-!
# `thread_create` and `thread_join`

`threads.c`, for one process.  The kernel keeps the stack of a thread in `bsp`, and `join`
gives it back through its parameter; if it returns -1 the parameter is as it was.  Neither
function looks at the results of `malloc`, `clone` and `join`.
-/

namespace Xv6

/-- The heap of a process, and its threads that `join` has not reaped, with their stacks. -/
structure ThreadLibrary where
  allocator : Allocator
  threads : List (Nat × Nat)

inductive ThreadCall where
  /-- `thread_create`, with the answers of `sbrk` to `malloc`, and the thread that `clone`
  makes. -/
  | create (answers : List (Option Nat)) (fuel : Nat) (clone : Option Nat)
  /-- `thread_join`, with the thread that `join` reaps, and the value of the variable
  `stackPage` before. -/
  | join (reaped : Option Nat) (stackPage fuel : Nat)

namespace ThreadLibrary

/-- The result of `malloc(4096)`. -/
def obtained (base : Nat) (s : ThreadLibrary) (answers : List (Option Nat)) (fuel : Nat) :
    Option Nat :=
  match s.allocator.malloc base fuel 4096 answers with
  | some (.returned ap _ _) => some ap
  | _ => none

/-- What `thread_join` passes to `free`. -/
def freed (s : ThreadLibrary) (reaped : Option Nat) (stackPage : Nat) : Option Nat :=
  match reaped with
  | none => some stackPage
  | some pid => s.threads.lookup pid

/-- One call.  There is no step if `free` is called with a pointer that is not allocated. -/
def step (base : Nat) (s : ThreadLibrary) : ThreadCall → Option ThreadLibrary
  | .create answers fuel clone =>
    match s.obtained base answers fuel, s.allocator.step base (.malloc 4096 answers fuel) with
    | some ap, some allocator =>
      match clone with
      | none => some ⟨allocator, s.threads⟩
      | some pid =>
        if s.threads.lookup pid = none then some ⟨allocator, (pid, ap) :: s.threads⟩
        else none
    | _, _ => none
  | .join reaped stackPage fuel =>
    match s.freed reaped stackPage with
    | none => none
    | some ap => (s.allocator.step base (.free ap fuel)).map fun allocator =>
      ⟨allocator, s.threads.filter fun thread => some thread.1 ≠ reaped⟩

/-- Before the first call. -/
def start (ptr size : Nat → Nat) : ThreadLibrary := ⟨.start ptr size, []⟩

/-! ## What should hold -/

/-- `free` is called with the stack of the thread that `join` has just reaped, which is
allocated, and a `thread_create` that returns -1 leaves the heap as it was. -/
def Proper (base : Nat) (s : ThreadLibrary) : ThreadCall → Prop
  | .create answers fuel clone => clone = none →
      ∀ s', s.step base (.create answers fuel clone) = some s' → s'.allocator = s.allocator
  | .join reaped stackPage _ => ∀ ap, s.freed reaped stackPage = some ap →
      (∃ pid, reaped = some pid ∧ s.threads.lookup pid = some ap) ∧
        (s.allocator.owner ap).isSome = true

/-- The stack of every thread is allocated, and no two threads have the same. -/
structure OwnedOnce (s : ThreadLibrary) : Prop where
  live : ∀ thread ∈ s.threads, (s.allocator.owner thread.2).isSome = true
  once : (s.threads.map Prod.snd).Nodup

/-- `join` reaps a thread.  `malloc` and `clone` both succeed, or both fail when the list of
free blocks has been created. -/
def Succeeds (base : Nat) (s : ThreadLibrary) : ThreadCall → Prop
  | .create answers fuel clone =>
    clone ≠ none ∧ s.obtained base answers fuel ≠ some 0 ∨
    clone = none ∧ s.obtained base answers fuel = some 0 ∧ s.allocator.heap.freep ≠ 0
  | .join reaped _ _ => reaped ≠ none

instance (base : Nat) (s : ThreadLibrary) (call : ThreadCall) : Decidable (s.Succeeds base call) :=
  ThreadCall.casesOn call (fun _ _ _ => inferInstanceAs (Decidable (_ ∨ _)))
    fun _ _ _ => inferInstanceAs (Decidable (_ ≠ _))

/-! ## The calls -/

variable {base : Nat} {s s' : ThreadLibrary} {answers : List (Option Nat)} {fuel : Nat}
  {clone reaped : Option Nat} {stackPage ap : Nat}

theorem create_cases (taken : s.step base (.create answers fuel clone) = some s') :
    ∃ ap h arena, s.allocator.malloc base fuel 4096 answers = some (.returned ap h arena) ∧
      s.obtained base answers fuel = some ap ∧
      s'.allocator = ⟨h, arena.regions, if ap = 0 then s.allocator.live
        else ⟨ap - headerSize, headerSize * h.size (ap - headerSize)⟩ :: s.allocator.live⟩ ∧
      s.allocator.step base (.malloc 4096 answers fuel) = some s'.allocator ∧
      (clone = none ∧ s'.threads = s.threads ∨
        ∃ pid, clone = some pid ∧ s'.threads = (pid, ap) :: s.threads) := by
  simp only [step] at taken
  split at taken
  next ap allocator obtained allocated =>
    have ran := obtained
    unfold ThreadLibrary.obtained at ran
    split at ran
    next ap' h arena ran' =>
      cases ran
      have heap := allocated
      simp only [Allocator.step, ran', if_pos (show 4096 < 2 ^ 30 by decide)] at heap
      cases heap
      cases clone with
      | none =>
        cases taken
        exact ⟨_, h, arena, ran', obtained, rfl, allocated, .inl ⟨rfl, rfl⟩⟩
      | some pid =>
        dsimp only at taken
        by_cases unused : s.threads.lookup pid = none
        case neg =>
          rw [if_neg unused] at taken
          cases taken
        rw [if_pos unused] at taken
        cases taken
        exact ⟨_, h, arena, ran', obtained, rfl, allocated, .inr ⟨pid, rfl, rfl⟩⟩
    · cases ran
  · cases taken

theorem join_cases (taken : s.step base (.join reaped stackPage fuel) = some s') :
    ∃ ap, s.freed reaped stackPage = some ap ∧
      s.allocator.step base (.free ap fuel) = some s'.allocator ∧
      s'.threads = s.threads.filter fun thread => some thread.1 ≠ reaped := by
  simp only [step] at taken
  split at taken
  · cases taken
  next ap found =>
    obtain ⟨allocator, ran, rfl⟩ := Option.map_eq_some_iff.mp taken
    exact ⟨ap, found, ran, rfl⟩

/-! ## Runs -/

/-- The heap is sound, and every thread has a stack of its own. -/
structure Inv (base : Nat) (s : ThreadLibrary) : Prop where
  allocator : Allocator.Inv base s.allocator
  live : ∀ thread ∈ s.threads, ∃ b ∈ s.allocator.live, thread.2 = b.start + headerSize
  once : (s.threads.map Prod.snd).Nodup

theorem owner_isSome {s : Allocator} {b : Block} (member : b ∈ s.live) :
    (s.owner (b.start + headerSize)).isSome = true :=
  List.find?_isSome.mpr ⟨b, member, decide_eq_true rfl⟩

theorem Inv.ownedOnce (inv : Inv base s) : OwnedOnce s where
  live thread member := by
    obtain ⟨b, live, same⟩ := inv.live thread member
    rw [same]
    exact owner_isSome live
  once := inv.once

theorem fresh_block {allocator : Allocator} {b c : Block} {blocks rest : List Block}
    (sound : Allocator.Sound base allocator blocks) (isLive : allocator.live = b :: rest)
    (member : c ∈ rest) : c.start ≠ b.start := by
  intro same
  have inside : b ∈ allocator.live := by simp [isLive]
  have other : c ∈ allocator.live := by simp [isLive, member]
  have first : b.at_ b.start = 1 := Block.at_start (sound.positive b inside)
  have second : c.at_ b.start = 1 := same ▸ Block.at_start (sound.positive c other)
  have tiled := sound.tiled b.start
  have once := sound.once b.start
  have covered := Block.at_le_count member b.start
  rw [isLive, Block.count_cons] at tiled
  omega

theorem mem_of_lookup {threads : List (Nat × Nat)} {pid : Nat}
    (found : threads.lookup pid = some ap) : (pid, ap) ∈ threads := by
  induction threads with
  | nil => simp at found
  | cons thread rest ih =>
    obtain ⟨pid', ap'⟩ := thread
    rw [List.lookup_cons] at found
    by_cases same : pid = pid'
    · subst same
      simp_all
    · have other : (pid == pid') = false := by simpa using same
      rw [other] at found
      exact List.mem_cons_of_mem _ (ih found)

section
variable (inv : Inv base s) (positive : 0 < base) (low : base < 2 ^ 32) {call : ThreadCall}
include inv positive low

theorem Inv.create (succeeds : s.Succeeds base (.create answers fuel clone))
    (taken : s.step base (.create answers fuel clone) = some s') : Inv base s' := by
  obtain ⟨ap, h, arena, ran, obtained, isHeap, allocated, result⟩ := create_cases taken
  obtain ⟨initialised, blocks, sound⟩ := inv.allocator.step positive low allocated
  have kept : ∀ thread ∈ s.threads, ∃ b ∈ s'.allocator.live, thread.2 = b.start + headerSize := by
    intro thread member
    obtain ⟨b, live, same⟩ := inv.live thread member
    refine ⟨b, ?_, same⟩
    rw [isHeap]
    split_ifs
    · exact live
    · exact List.mem_cons_of_mem _ live
  rcases result with ⟨-, threads⟩ | ⟨pid, rfl, threads⟩
  · refine ⟨⟨fun _ => initialised, blocks, sound⟩, ?_, ?_⟩ <;> rw [threads]
    · exact kept
    · exact inv.once
  have nonzero : ap ≠ 0 := by
    rintro rfl
    obtain ⟨-, other⟩ | ⟨wrong, -⟩ := succeeds
    · exact other obtained
    · cases wrong
  have live : s'.allocator.live = _ := congrArg Allocator.live isHeap
  rw [if_neg nonzero] at live
  have first : ⟨ap - headerSize, headerSize * h.size (ap - headerSize)⟩ ∈ s'.allocator.live := by
    simp [live]
  have header : ap = ap - headerSize + headerSize := by
    have := (sound.inside (sound.positive _ first) (sound.part_live first)).1
    simp only [headerSize] at this ⊢
    omega
  refine ⟨⟨fun _ => initialised, blocks, sound⟩, ?_, ?_⟩ <;> rw [threads]
  · exact List.forall_mem_cons.mpr ⟨⟨_, first, header⟩, kept⟩
  · refine List.nodup_cons.mpr ⟨fun member => ?_, inv.once⟩
    obtain ⟨thread, inside, same⟩ := List.mem_map.mp member
    obtain ⟨b, old, place⟩ := inv.live thread inside
    exact fresh_block sound live old (by simp only at *; omega)

theorem Inv.join (succeeds : s.Succeeds base (.join reaped stackPage fuel))
    (taken : s.step base (.join reaped stackPage fuel) = some s') : Inv base s' := by
  obtain ⟨ap, found, ran, threads⟩ := join_cases taken
  obtain ⟨initialised, blocks, sound⟩ := inv.allocator.step positive low ran
  cases reaped with
  | none => exact absurd rfl succeeds
  | some pid =>
    have mine := mem_of_lookup found
    refine ⟨⟨fun _ => initialised, blocks, sound⟩, ?_, ?_⟩ <;> rw [threads]
    · intro thread member
      obtain ⟨inside, other⟩ := List.mem_filter.mp member
      obtain ⟨b, live, same⟩ := inv.live thread inside
      refine ⟨b, ?_, same⟩
      simp only [Allocator.step] at ran
      split at ran
      · cases ran
      next c owned =>
        obtain ⟨h, -, isHeap⟩ := Option.map_eq_some_iff.mp ran
        rw [← isHeap]
        refine (List.mem_erase_of_ne ?_).mpr live
        rintro rfl
        have equal : thread = (pid, ap) := List.inj_on_of_nodup_map inv.once inside mine
          (same.trans (Allocator.owner_some owned).2.symm)
        simp [equal] at other
    · exact inv.once.sublist (List.filter_sublist.map _)

theorem Inv.step
    (succeeds : s.Succeeds base call) (taken : s.step base call = some s') : Inv base s' := by
  cases call with
  | create answers fuel clone => exact inv.create positive low succeeds taken
  | join reaped stackPage fuel => exact inv.join positive low succeeds taken

theorem Inv.proper (succeeds : s.Succeeds base call) : s.Proper base call := by
  cases call with
  | create answers fuel clone =>
    intro failed s' taken
    obtain ⟨ap, h, arena, ran, obtained, isHeap, -, -⟩ := create_cases taken
    obtain ⟨isSome, -⟩ | ⟨-, zero, nonzero⟩ := succeeds
    · exact absurd failed isSome
    obtain rfl : ap = 0 := by simpa [obtained] using zero
    obtain ⟨-, blocks, sound⟩ := inv.allocator
    obtain ⟨rfl, regions⟩ := (sound.malloc_returned positive low (by decide) ran).2 rfl
    rw [isHeap, if_pos rfl, regions, Heap.init, if_neg nonzero]
  | join reaped stackPage fuel =>
    intro ap found
    cases reaped with
    | none => exact absurd rfl succeeds
    | some pid =>
      obtain ⟨b, live, same⟩ := inv.live _ (mem_of_lookup found)
      refine ⟨⟨pid, rfl, found⟩, ?_⟩
      rw [show ap = b.start + headerSize from same]
      exact owner_isSome live

end

variable {ptr size : Nat → Nat} {trace : List (ThreadLibrary × ThreadCall)}

/-- In a run in which `join` always reaps a thread, and `malloc` and `clone` both succeed or
both fail, every stack has one owner, and every further such call is as it should be. -/
theorem stacks_owned_once (positive : 0 < base) (low : base < 2 ^ 32)
    (run : Transition.Run (step base) (Succeeds base) (start ptr size) trace s) :
    OwnedOnce s ∧ ∀ call, s.Succeeds base call → s.Proper base call := by
  have inv : Inv base s := by
    apply run.stateInvariant
    · exact ⟨⟨fun wrong => absurd rfl wrong, [], Allocator.sound_start ptr size⟩, by simp [start],
        by simp [start]⟩
    · exact fun inv succeeds taken => inv.step positive low succeeds taken
  exact ⟨inv.ownedOnce, fun call succeeds => inv.proper positive low succeeds⟩

/-- One thread is created and joined. -/
theorem stacks_owned_once_joined : ∃ s,
    Transition.Run (step 16) (Succeeds 16) (start (fun _ => 0) fun _ => 0)
      (Transition.traceOf (step 16) (start (fun _ => 0) fun _ => 0)
        [.create [some 4096] 10 (some 5)]) s ∧
      s.threads = [(5, 32768)] ∧ OwnedOnce s ∧ s.Proper 16 (.join (some 5) 0 10) := by
  have ran : ∃ s, Transition.Run (step 16) (Succeeds 16) (start (fun _ => 0) fun _ => 0)
      (Transition.traceOf (step 16) (start (fun _ => 0) fun _ => 0)
        [.create [some 4096] 10 (some 5)]) s ∧ s.threads = [(5, 32768)] :=
    Transition.Run.of_exec_met _ (by decide +kernel) (by decide +kernel)
  obtain ⟨s, run, threads⟩ := ran
  obtain ⟨owned, proper⟩ := stacks_owned_once (by decide) (by decide) run
  exact ⟨s, run, threads, owned, proper _ (show some 5 ≠ none by simp)⟩

/-- The only thread has been joined, and `thread_join` is called again while its variable
still has the same value: `join` returns -1, and the stack is freed once more.  And the
block of a `thread_create` for which `clone` fails stays allocated. -/
theorem stack_freed_twice :
    (∃ s, Transition.Run (step 16) (fun _ _ => True) (start (fun _ => 0) fun _ => 0)
      (Transition.traceOf (step 16) (start (fun _ => 0) fun _ => 0)
        [.create [some 4096] 10 (some 5), .join (some 5) 0 10]) s ∧
      s.threads = [] ∧ s.freed none 32768 = some 32768 ∧ s.allocator.owner 32768 = none ∧
      ¬s.Proper 16 (.join none 32768 10)) ∧
    ∃ s, (start (fun _ => 0) fun _ => 0).step 16 (.create [some 4096] 10 none) = some s ∧
      s.threads = [] ∧ s.allocator.live = [⟨32760, 4104⟩] := by
  constructor
  · have ran : ∃ s, Transition.Run (step 16) (fun _ _ => True) (start (fun _ => 0) fun _ => 0)
        (Transition.traceOf (step 16) (start (fun _ => 0) fun _ => 0)
          [.create [some 4096] 10 (some 5), .join (some 5) 0 10]) s ∧
        s.threads = [] ∧ s.freed none 32768 = some 32768 ∧ s.allocator.owner 32768 = none :=
      Transition.Run.of_exec_met _ (fun _ _ => trivial) (by decide +kernel)
    obtain ⟨s, run, threads, freed, owner⟩ := ran
    refine ⟨s, run, threads, freed, owner, fun proper => ?_⟩
    obtain ⟨pid, isNone, -⟩ := (proper 32768 freed).1
    cases isNone
  · have leaked : ((start (fun _ => 0) fun _ => 0).step 16 (.create [some 4096] 10 none)).any
        (fun s => decide (s.threads = [] ∧ s.allocator.live = [⟨32760, 4104⟩])) = true := by
      decide +kernel
    obtain ⟨s, taken, holds⟩ := (Option.any_eq_true _ _).mp leaked
    exact ⟨s, taken, of_decide_eq_true holds⟩

end ThreadLibrary

end Xv6
