import Xv6.Vm.UserMemory
import Xv6.Kernel.Sbrk

/-!
# User code cannot reach kernel memory

The page directories of all processes as a system: directories are built, grown, shrunk,
copied and taken down in any order, with any allocator, and user programs store into the
pages they can write.  In every state that is reached, the entries with `PTE_U` map user
pages to frames allocated for them, no two of them the same frame, and the pages above
`usertop` are mapped to themselves for the kernel only.
-/

namespace Xv6

open Program

/-- The memory, the kernel's page directory and those of the processes. -/
structure VmSystem where
  memory : Memory
  kpgdir : Nat
  dirs : List Nat

/-- A call of a function of `vm.c` with the answers of its calls of `kalloc`, or a store
by a user program. -/
inductive VmAction where
  | setupkvm (answers : List (Option Nat))
  | inituvm (pgdir : Nat) (init : Fin nptentries → Pte) (sz : Nat) (answers : List (Option Nat))
  | allocuvm (pgdir oldsz newsz : Nat) (answers : List (Option Nat))
  | deallocuvm (pgdir oldsz newsz : Nat)
  | copyuvm (pgdir sz : Nat) (answers : List (Option Nat))
  | freevm (pgdir : Nat)
  | store (pgdir va : Nat) (index : Fin nptentries) (word : Pte)

namespace VmSystem

variable (layout : Layout) {memory : Memory}

/-- A page directory in use. -/
def Live (s : VmSystem) (d : Nat) : Prop := d = s.kpgdir ∨ d ∈ s.dirs

/-- The result of a call, if it does not end in a panic or a fault. -/
def call {α : Type} (s : VmSystem) (answers : List (Option Nat)) (program : VmProgram α) :
    Option (α × Memory) :=
  match program.run ⟨s.memory, answers, []⟩ with
  | .ok (value, vm) => some (value, vm.toMemory)
  | .error _ => none

/-- One call or store.  The callers pass page directories of processes. -/
def step (s : VmSystem) : VmAction → Option VmSystem
  | .setupkvm answers =>
    (s.call answers (setupkvm layout)).map fun (d, memory) =>
      { s with memory := memory, dirs := d.toList ++ s.dirs }
  | .inituvm pgdir init sz answers =>
    if pgdir ∈ s.dirs then
      (s.call answers (inituvm layout s.kpgdir pgdir init sz)).map fun (_, memory) =>
        { s with memory := memory }
    else none
  | .allocuvm pgdir oldsz newsz answers =>
    if pgdir ∈ s.dirs then
      (s.call answers (allocuvm layout pgdir oldsz newsz)).map fun (_, memory) =>
        { s with memory := memory }
    else none
  | .deallocuvm pgdir oldsz newsz =>
    if pgdir ∈ s.dirs then
      (s.call [] (deallocuvm layout pgdir oldsz newsz)).map fun (_, memory) =>
        { s with memory := memory }
    else none
  | .copyuvm pgdir sz answers =>
    if pgdir ∈ s.dirs then
      (s.call answers (copyuvm layout pgdir sz)).map fun (d, memory) =>
        { s with memory := memory, dirs := d.toList ++ s.dirs }
    else none
  | .freevm pgdir =>
    if pgdir ∈ s.dirs then
      (s.call [] (freevm layout pgdir)).map fun (_, memory) =>
        { s with memory := memory, dirs := s.dirs.filter (· ≠ pgdir) }
    else none
  | .store pgdir va index word =>
    let pte := s.memory.entry pgdir va
    if pgdir ∈ s.dirs ∧ va < 2 ^ 32 ∧ pte.present ∧ pte.user ∧ pte.writable then
      some { s with memory := s.memory.setEntry pte.frame index word }
    else none

/-- The state after `kvmalloc`: no page was in use before. -/
def Boot (s : VmSystem) : Prop :=
  ∃ page answers vm, (setupkvm layout).run ⟨⟨page, fun _ => none⟩, answers, []⟩ =
    .ok (some s.kpgdir, vm) ∧ s.memory = vm.toMemory ∧ s.dirs = []

/-- The arguments of the callers: `growproc` passes the size of a process to
`deallocuvm`. -/
def CallerArgs (_ : VmSystem) : VmAction → Prop
  | .deallocuvm _ oldsz _ => ∃ k slot, Kernel.Reachable (fun _ _ => True) k ∧
      oldsz = (k.pt.proc slot).sz
  | _ => True

/-- The states that can be reached. -/
def Reachable (s : VmSystem) : Prop :=
  ∃ start trace, Boot layout start ∧ Transition.Run (step layout) CallerArgs start trace s

/-! ## The invariant -/

/-- The page tables are sound, user memory has its page table, and the kernel's own
directory maps no user memory. -/
structure Inv (s : VmSystem) : Prop where
  sound : Sound layout s.Live s.memory
  table : ∀ {d}, d ∈ s.dirs → (s.memory.page d 0).present = true
  kernel : s.kpgdir ∉ s.dirs
  empty : (s.memory.entry s.kpgdir 0).present = false

section Step

variable {layout} {s s' : VmSystem} {d : Nat} {answers : List (Option Nat)} {vm vm' : Vm}
  {oldsz newsz : Nat}

theorem call_inv {α : Type} {program : VmProgram α} {value : α} (property : α → Memory → Prop)
    (ran : s.call answers program = some (value, memory))
    (wp : Wp program (fun value vm => property value vm.toMemory) (fun _ => True)
      ⟨s.memory, answers, []⟩) : property value memory := by
  unfold call at ran
  split at ran
  next value' vm ended =>
    obtain ⟨rfl, rfl⟩ := Prod.mk.inj (Option.some.inj ran)
    exact wp.ok ended
  · nomatch ran

section
variable (inv : Inv layout s)
include inv

theorem Inv.ne_kpgdir (member : d ∈ s.dirs) : d ≠ s.kpgdir := by
  rintro rfl
  exact inv.kernel member

theorem Inv.kept (member : d ∈ s.dirs)
    (before : vm.toMemory = s.memory) (kept : Kept layout s.Live d vm vm')
    (table : (vm'.page d 0).present = true) : Inv layout { s with memory := vm'.toMemory } where
  sound := kept.sound
  table {d'} member' := by
    by_cases same : d' = d
    · exact same ▸ table
    · rw [kept.page (.inr member') same, before]
      exact inv.table member'
  kernel := inv.kernel
  empty := by
    rw [kept.entry (.inl rfl) (inv.ne_kpgdir member).symm (by decide), before]
    exact inv.empty

theorem Inv.still (sound : Sound layout s.Live memory)
    (page : ∀ {d}, s.Live d → memory.page d = s.memory.page d)
    (entry : ∀ {d va}, s.Live d → va < 2 ^ 32 → memory.entry d va = s.memory.entry d va) :
    Inv layout { s with memory := memory } where
  sound := sound
  table member := by
    rw [page (.inr member)]
    exact inv.table member
  kernel := inv.kernel
  empty := by
    rw [entry (.inl rfl) (by decide)]
    exact inv.empty

theorem Inv.added (before : vm.toMemory = s.memory)
    (kept : Kept layout (fun d' => d' = d ∨ s.Live d') d vm vm') (fresh : vm.owner d = none)
    (table : (vm'.page d 0).present = true) :
    Inv layout { s with memory := vm'.toMemory, dirs := d :: s.dirs } := by
  have different : ∀ {d'}, s.Live d' → d' ≠ d := by
    rintro d' isLive rfl
    rw [before, inv.sound.directory isLive] at fresh
    nomatch fresh
  refine ⟨kept.sound.narrow ?_, ?_, ?_, ?_⟩
  · rintro d' (rfl | member)
    · exact .inr (.inl rfl)
    · exact (List.mem_cons.mp member).imp_right .inr
  · intro d' member
    rcases List.mem_cons.mp member with rfl | old
    · exact table
    · rw [kept.page (.inr (.inr old)) (different (.inr old)), before]
      exact inv.table old
  · intro member
    rcases List.mem_cons.mp member with same | old
    · exact different (.inl rfl) same
    · exact inv.kernel old
  · rw [kept.entry (.inr (.inl rfl)) (different (.inl rfl)) (by decide), before]
    exact inv.empty

theorem inv_setupkvm (taken : s.step layout (.setupkvm answers) = some s') : Inv layout s' := by
  simp only [step, Option.map_eq_some_iff] at taken
  obtain ⟨⟨value, memory⟩, ran, rfl⟩ := taken
  apply call_inv (fun value memory => Inv layout
    { s with memory := memory, dirs := value.toList ++ s.dirs }) ran
  refine wp_setupkvm inv.sound (fun vm' _ kept => ?_) fun vm' d built => ?_
  · exact inv.still (kept 0).sound
      (fun {d} isLive => (kept (d + 1)).page isLive d.lt_succ_self.ne)
      (fun {d va} isLive => (kept (d + 1)).entry isLive d.lt_succ_self.ne)
  · have table := (built.tables 0).mpr (.inl (by decide))
    exact inv.added rfl built.toKept built.fresh table

theorem inv_copyuvm {sz : Nat}
    (taken : s.step layout (.copyuvm d sz answers) = some s') : Inv layout s' := by
  simp only [step, Option.ite_none_right_eq_some, Option.map_eq_some_iff] at taken
  obtain ⟨-, ⟨value, memory⟩, ran, rfl⟩ := taken
  apply call_inv (fun value memory => Inv layout
    { s with memory := memory, dirs := value.toList ++ s.dirs }) ran
  refine wp_copyuvm inv.sound (fun _ => trivial) (fun vm' sound page entry => ?_)
    fun vm' d kept fresh table => ?_
  · exact inv.still sound page entry
  · exact inv.added rfl kept fresh table

theorem inv_inituvm {init : Fin nptentries → Pte} {sz : Nat}
    (taken : s.step layout (.inituvm d init sz answers) = some s') : Inv layout s' := by
  simp only [step, Option.ite_none_right_eq_some, Option.map_eq_some_iff] at taken
  obtain ⟨member, ⟨value, memory⟩, ran, rfl⟩ := taken
  apply call_inv (fun _ memory => Inv layout { s with memory := memory }) ran
  exact wp_inituvm inv.sound (.inr member) (inv.table member) (.inl rfl) inv.empty
    (fun _ => trivial) fun vm' kept table => inv.kept member rfl kept table

theorem Inv.dropped (member : d ∈ s.dirs) {low high : Nat}
    (before : vm.toMemory = s.memory) (dropped : Dropped layout s.Live d low high vm vm') :
    Inv layout { s with memory := vm'.toMemory } where
  sound := dropped.sound
  table member' := by
    rw [dropped.page (.inr member'), before]
    exact inv.table member'
  kernel := inv.kernel
  empty := by
    rw [dropped.entry (.inl rfl) (by decide), before,
      if_neg fun here => inv.ne_kpgdir member here.1.symm]
    exact inv.empty

theorem inv_deallocuvm (bound : oldsz ≤ usertop)
    (taken : s.step layout (.deallocuvm d oldsz newsz) = some s') : Inv layout s' := by
  simp only [step, Option.ite_none_right_eq_some, Option.map_eq_some_iff] at taken
  obtain ⟨member, ⟨value, memory⟩, ran, rfl⟩ := taken
  apply call_inv (fun _ memory => Inv layout { s with memory := memory }) ran
  exact wp_deallocuvm inv.sound (.inr member) bound fun vm' dropped =>
    inv.dropped member rfl dropped

theorem inv_allocuvm
    (taken : s.step layout (.allocuvm d oldsz newsz answers) = some s') : Inv layout s' := by
  simp only [step, Option.ite_none_right_eq_some, Option.map_eq_some_iff] at taken
  obtain ⟨member, ⟨value, memory⟩, ran, rfl⟩ := taken
  apply call_inv (fun _ memory => Inv layout { s with memory := memory }) ran
  have grown : ∀ {low high vm'}, Grown layout s.Live d low high ⟨s.memory, answers, []⟩ vm' →
      Inv layout { s with memory := vm'.toMemory } := fun grown =>
    inv.kept member rfl grown.toKept ((grown.tables 0).trans (inv.table member))
  refine wp_allocuvm inv.sound (.inr member) (inv.table member) (fun _ _ _ _ _ => trivial)
    (fun _ => inv) (fun _ _ => inv) (fun vm₁ vm' high _ _ _ first _ dropped => ?_)
    fun vm' _ _ first _ => grown first
  exact (grown first).dropped member rfl dropped

theorem inv_freevm (taken : s.step layout (.freevm d) = some s') : Inv layout s' := by
  simp only [step, Option.ite_none_right_eq_some, Option.map_eq_some_iff] at taken
  obtain ⟨member, ⟨value, memory⟩, ran, rfl⟩ := taken
  apply call_inv (fun _ memory => Inv layout
    { s with memory := memory, dirs := s.dirs.filter (· ≠ d) }) ran
  refine wp_freevm inv.sound (.inr member) fun vm' freed => ⟨freed.sound.narrow ?_, ?_, ?_, ?_⟩
  · rintro d' (rfl | left)
    · exact ⟨.inl rfl, (inv.ne_kpgdir member).symm⟩
    · have := List.mem_filter.mp left
      exact ⟨.inr this.1, by simpa using this.2⟩
  · intro d' left
    have := List.mem_filter.mp left
    rw [freed.page (.inr this.1) (by simpa using this.2)]
    exact inv.table this.1
  · exact fun left => inv.kernel (List.mem_filter.mp left).1
  · rw [freed.entry (.inl rfl) (inv.ne_kpgdir member).symm (by decide)]
    exact inv.empty

theorem inv_store {va : Nat} {index : Fin nptentries} {word : Pte}
    (taken : s.step layout (.store d va index word) = some s') : Inv layout s' := by
  simp only [step, Option.ite_none_right_eq_some, Option.some.injEq] at taken
  obtain ⟨⟨member, small, present, user, -⟩, rfl⟩ := taken
  have plain : s.memory.Plain s.Live (s.memory.entry d va).frame := by
    rcases inv.sound.entry (.inr member) small with zero | ⟨-, allowed⟩
    · simp [zero] at present
    · unfold Pte.Allowed at allowed
      split_ifs at allowed
      · exact inv.sound.plain_of_user allowed.2
      · simp [user] at allowed
  exact inv.still (inv.sound.setPage plain _) (Sound.page_setPage plain)
    fun isLive _ => inv.sound.entry_setPage plain _ isLive

end

theorem inv_step {action : VmAction} (inv : Inv layout s) (args : CallerArgs s action)
    (taken : s.step layout action = some s') : Inv layout s' := by
  cases action with
  | setupkvm => exact inv_setupkvm inv taken
  | inituvm => exact inv_inituvm inv taken
  | allocuvm => exact inv_allocuvm inv taken
  | deallocuvm =>
    obtain ⟨k, slot, reachable, rfl⟩ := args
    exact inv_deallocuvm inv (reachable.bounded slot) taken
  | copyuvm => exact inv_copyuvm inv taken
  | freevm => exact inv_freevm inv taken
  | store => exact inv_store inv taken

theorem sound_nothing (page : Nat → Fin nptentries → Pte) :
    Sound layout (fun _ => False) ⟨page, fun _ => none⟩ where
  directory := nofun
  table := nofun
  entry := nofun
  pool := nofun

theorem inv_boot (boot : Boot layout s) : Inv layout s := by
  obtain ⟨page, answers, vm, ran, memory, none⟩ := boot
  have built : Built layout (fun _ => False) s.kpgdir ⟨⟨page, fun _ => .none⟩, answers, []⟩ vm :=
    (wp_setupkvm (sound_nothing page) (fun _ _ _ => nofun)
      (fun vm' d built same => Option.some.inj same ▸ built) :
      Wp (setupkvm layout) (fun value vm => value = some s.kpgdir →
        Built layout (fun _ => False) s.kpgdir _ vm) (fun _ => True) _).ok ran rfl
  refine ⟨?_, ?_, ?_, ?_⟩
  · rw [memory]
    refine built.sound.narrow ?_
    rintro d (rfl | member)
    · exact .inl rfl
    · simp [none] at member
  · simp [none]
  · simp [none]
  · rw [memory, ← Bool.not_eq_true, built.present 0 (by decide)]
    decide

theorem Reachable.inv (reachable : Reachable layout s) : Inv layout s := by
  obtain ⟨start, trace, boot, run⟩ := reachable
  exact run.stateInvariant (inv_boot boot) inv_step

end Step

/-! ## Isolation -/

variable {layout}

/-- In every state that is reached, an entry with `PTE_U` maps a page below `usertop` to
a frame that `kalloc` returned for it, no other entry with `PTE_U` of any directory maps
the frame, and a page from `usertop` on is mapped to itself without `PTE_U`. -/
theorem user_memory_isolated {s : VmSystem} (reachable : Reachable layout s) {d page : Nat}
    (directory : s.Live d) (small : page * pgsize < 2 ^ 32)
    (present : (s.memory.entry d (page * pgsize)).present = true) :
    ((s.memory.entry d (page * pgsize)).user = true →
      page * pgsize < usertop ∧
      layout.InPool (s.memory.entry d (page * pgsize)).frame ∧
      s.memory.owner (s.memory.entry d (page * pgsize)).frame = some (.user d page) ∧
      ∀ d' page', s.Live d' → page' * pgsize < 2 ^ 32 →
        (s.memory.entry d' (page' * pgsize)).present = true →
        (s.memory.entry d' (page' * pgsize)).user = true →
        (s.memory.entry d' (page' * pgsize)).frame = (s.memory.entry d (page * pgsize)).frame →
        d' = d ∧ page' = page) ∧
    (usertop ≤ page * pgsize →
      (s.memory.entry d (page * pgsize)).user = false ∧
      (s.memory.entry d (page * pgsize)).frame = page) := by
  have sound := reachable.inv.sound
  have number : ∀ page, page * pgsize / pgsize = page := by simp [pgsize]
  -- An entry with `PTE_U` belongs to the page that its frame was allocated for.
  have user : ∀ {d page}, s.Live d → page * pgsize < 2 ^ 32 →
      (s.memory.entry d (page * pgsize)).present = true →
      (s.memory.entry d (page * pgsize)).user = true →
      page * pgsize < usertop ∧
        s.memory.owner (s.memory.entry d (page * pgsize)).frame = some (.user d page) := by
    intro d page directory small present user
    rcases sound.entry directory small with zero | ⟨-, allowed⟩
    · simp [zero] at present
    · unfold Pte.Allowed at allowed
      split_ifs at allowed with below
      · exact ⟨below, by rw [allowed.2, number]⟩
      · simp [user] at allowed
  constructor
  · intro isUser
    obtain ⟨below, owned⟩ := user directory small present isUser
    refine ⟨below, sound.pool owned, owned, ?_⟩
    intro d' page' directory' small' present' isUser' same
    have owned' := (user directory' small' present' isUser').2
    rw [same, owned] at owned'
    simp only [Option.some.injEq, Owner.user.injEq] at owned'
    exact ⟨owned'.1.symm, owned'.2.symm⟩
  · intro above
    rcases sound.entry directory small with zero | ⟨-, allowed⟩
    · simp [zero] at present
    · simpa [Pte.Allowed, not_lt.mpr above, number] using allowed

/-! ## Runs -/

/-- The first frame that `kinit` frees. -/
def firstFrame (layout : Layout) : Nat := (layout.kernelEnd + pgsize - 1) / pgsize

theorem inPool_of_le {frame : Nat} (low : firstFrame layout ≤ frame) (high : frame < 4096) :
    layout.InPool frame := by
  simp only [firstFrame, Layout.InPool, pgsize, phystop] at *
  omega

theorem firstFrame_le : firstFrame layout ≤ 1024 := by
  have := layout.small
  simp only [firstFrame, pgsize]
  omega

/-- The answers that hand out `n` frames in order. -/
def frames (first n : Nat) : List (Option Nat) := (List.range' first n).map some

theorem setupkvm_supplied {live : Nat → Prop} {first : Nat}
    (sound : Sound layout live memory) (low : firstFrame layout ≤ first)
    (high : first + setupPages ≤ 4096) (free : ∀ frame, first ≤ frame → memory.owner frame = none) :
    ∃ vm d, (setupkvm layout).run ⟨memory, frames first setupPages, []⟩ = .ok (some d, vm) ∧
      Built layout live d ⟨memory, frames first setupPages, []⟩ vm ∧
      ∀ frame, first + setupPages ≤ frame → vm.owner frame = none := by
  have supply : Supply layout setupPages ⟨memory, frames first setupPages, []⟩ :=
    .range rfl fun frame from' below =>
      ⟨inPool_of_le (by omega) (by omega), free frame from'⟩
  have wp : Wp (setupkvm layout) (fun value vm => ∃ d, value = some d ∧
      Built layout live d ⟨memory, frames first setupPages, []⟩ vm) (fun _ => False)
      ⟨memory, frames first setupPages, []⟩ :=
    wp_setupkvm sound (fun _ starved _ => absurd supply starved)
      fun vm d built => ⟨d, rfl, built⟩
  obtain ⟨_, vm, ran, d, rfl, built⟩ := wp.ends
  refine ⟨vm, d, ran, built, fun frame above => ?_⟩
  cases owned : vm.owner frame with
  | none => rfl
  | some use =>
    rcases built.taken owned with old | answer
    · simp [free frame (by omega)] at old
    · simp only [frames, List.mem_map, Option.some.injEq, exists_eq_right,
        List.mem_range'_1] at answer
      omega

theorem exists_process (layout : Layout) : ∃ s d, Reachable layout s ∧ d ∈ s.dirs ∧
    (∀ va < usertop, (s.memory.entry d va).present = false) ∧
    ∀ frame, firstFrame layout + 2 * setupPages ≤ frame → s.memory.owner frame = none := by
  have few : firstFrame layout ≤ 1024 := firstFrame_le
  have nothing : Sound layout (fun _ => False) ⟨fun _ _ => .zero, fun _ => none⟩ :=
    sound_nothing _
  obtain ⟨vm, kpgdir, ran, built, free⟩ := setupkvm_supplied nothing le_rfl
    (by simp only [setupPages]; omega) fun _ _ => rfl
  have boot : Boot layout ⟨vm.toMemory, kpgdir, []⟩ := ⟨_, _, vm, ran, rfl, rfl⟩
  obtain ⟨vm', d, ran', built', free'⟩ := setupkvm_supplied (inv_boot boot).sound
    (Nat.le_add_right _ setupPages) (by simp only [setupPages]; omega) free
  let action : VmAction := .setupkvm (frames (firstFrame layout + setupPages) setupPages)
  have taken : step layout ⟨vm.toMemory, kpgdir, []⟩ action =
      some ⟨vm'.toMemory, kpgdir, [d]⟩ := by
    simp [action, step, call, ran']
  have args : CallerArgs ⟨vm.toMemory, kpgdir, []⟩ action := trivial
  refine ⟨_, d, ⟨_, _, boot, .snoc .nil args taken⟩, by simp, ?_, ?_⟩
  · intro va below
    rw [← Bool.not_eq_true, built'.present va (lt_of_lt_usertop below)]
    simp only [usertop, phystop] at below ⊢
    omega
  · intro frame above
    exact free' frame (by omega)

/-- A process gets its first page. -/
theorem user_memory_isolated_page : ∃ layout s d, Reachable layout s ∧ s.Live d ∧
    (s.memory.entry d (0 * pgsize)).present = true ∧
    s.memory.owner (s.memory.entry d (0 * pgsize)).frame = some (.user d 0) := by
  let layout : Layout := ⟨0x101000, 0x101000, rfl, by decide, le_rfl, by decide⟩
  obtain ⟨s, d, ⟨start, trace, boot, run⟩, member, empty, free⟩ := exists_process layout
  have inv := Reachable.inv ⟨start, trace, boot, run⟩
  let first := firstFrame layout + 2 * setupPages
  have supply : Supply layout (pagesBetween (pgroundup 0) pgsize)
      ⟨s.memory, frames first 1, []⟩ := by
    have few : firstFrame layout ≤ 1024 := firstFrame_le
    refine .range rfl fun frame low high => ⟨inPool_of_le (by omega) ?_, free frame low⟩
    simp only [first, setupPages, show pagesBetween (pgroundup 0) pgsize = 1 by decide] at high
    omega
  have wp : Wp (allocuvm layout d 0 pgsize) (fun _ vm =>
      (vm.entry d (0 * pgsize)).present = true) (fun _ => False)
      ⟨s.memory, frames first 1, []⟩ := by
    refine wp_allocuvm inv.sound (.inr member) (inv.table member) ?_ ?_ ?_ ?_ ?_
    · intro va _ _ below present
      simp [empty va below] at present
    · simp [pgsize, usertop]
    · simp
    · exact fun _ _ _ _ _ starved => absurd supply starved
    · intro vm _ _ grown _
      exact (grown.inside (0 * pgsize) (by simp) (by simp [pgroundup, pgsize])
        (by simp [pgsize])).1
  obtain ⟨_, vm, ran, present⟩ := wp.ends
  have taken : s.step layout (.allocuvm d 0 pgsize (frames first 1)) =
      some { s with memory := vm.toMemory } := by
    simp [step, member, call, ran]
  have args : CallerArgs s (.allocuvm d 0 pgsize (frames first 1)) := trivial
  have reachable : Reachable layout { s with memory := vm.toMemory } :=
    ⟨start, _, boot, run.snoc args taken⟩
  have isUser := (reachable.inv.sound.allowed_of_present (.inr member) (by decide) present).1
  exact ⟨layout, _, d, reachable, .inr member, present,
    ((user_memory_isolated reachable (.inr member) (by decide) present).1 isUser).2.2.1⟩

end VmSystem

end Xv6
