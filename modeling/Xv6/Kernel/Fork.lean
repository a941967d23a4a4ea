import Xv6.Kernel.Growproc
import Xv6.Vm.Copying

/-!
# `fork` copies an address space or gives it back

Every page that `fork` takes is given back when it fails, with one exception: `setupkvm`
returns without freeing the page directory and the page tables it has made so far.
-/

namespace Xv6

open Program Function

variable {layout : Layout} {live : Nat → Prop} {pgdir d sz : Nat} {ram ram' : Ram} {frame : Nat}

/-! ## Taking a page for something else -/

theorem AddressSpace.grant {memory : Memory} {purpose : Owner}
    (space : AddressSpace layout live memory d sz) (pool : layout.InPool frame)
    (free : memory.owner frame = none) :
    AddressSpace layout live (memory.grant purpose frame) d sz :=
  ⟨space.sound.grant pool free, space.isLive, space.table, space.covers⟩

/-- What a copy of an address space should be: the same pages, in fresh frames of their own,
with equal contents, shared with nobody. -/
structure ExactCopy (layout : Layout) (live : Nat → Prop) (pgdir d : Nat) (ram ram' : Ram) :
    Prop where
  pages : ∀ {va}, va < usertop → (ram'.entry d va).present = (ram.entry pgdir va).present
  fresh : ∀ {va}, va < usertop → (ram'.entry d va).present = true →
    layout.InPool (ram'.entry d va).frame ∧ ram.owner (ram'.entry d va).frame = none
  distinct : ∀ {va va'}, va < usertop → va' < usertop → (ram'.entry d va).present = true →
    (ram'.entry d va').present = true → (ram'.entry d va).frame = (ram'.entry d va').frame →
    va / pgsize = va' / pgsize
  contents : ∀ {va}, va < usertop → (ram'.entry d va).present = true →
    ram'.byte (ram'.entry d va).frame = ram.byte (ram.entry pgdir va).frame
  unshared : ∀ {d' va va'}, live d' → va < usertop → va' < usertop →
    (ram'.entry d va).present = true → (ram'.entry d' va').present = true →
    (ram'.entry d' va').frame ≠ (ram'.entry d va).frame

theorem Copied.exactCopy (copied : Copied layout live pgdir d sz ram ram')
    (space : AddressSpace layout live ram.toMemory pgdir sz) :
    ExactCopy layout live pgdir d ram ram' := by
  have user : ∀ {va}, va < usertop → (ram'.entry d va).present = true →
      ram'.owner (ram'.entry d va).frame = some (.user d (va / pgsize)) := fun below present =>
    copied.space.sound.user_of_present (.inl rfl) below present
  refine ⟨fun {va} below => ?_, fun below present => ⟨copied.space.sound.pool (user below present),
    copied.frames below present⟩, ?_, copied.contents, ?_⟩
  · rw [Bool.eq_iff_iff, copied.space.covers va below, space.covers va below]
  · intro va va' below below' present present' same
    have owned := user below present
    rw [same, user below' present'] at owned
    simpa [eq_comm] using owned
  · intro d' va va' isLive below below' present present' same
    have owned := copied.space.sound.user_of_present (.inr isLive) below' present'
    rw [same, user below present] at owned
    simp only [Option.some.injEq, Owner.user.injEq] at owned
    have fresh := copied.fresh
    rw [owned.1, space.sound.directory isLive] at fresh
    cases fresh

namespace Os

variable {self np : Slot} {os os' : Os} {stops : Halt → Prop} {slot : Slot} {pt : Ptable}

/-! ## `allocproc` -/

/-- The state after `allocproc` has taken a slot and a page. -/
def taken (os : Os) (np : Slot) (pt : Ptable) (frame : Nat) (answers : List (Option Nat)) : Os :=
  { os with
    pt := pt.allocKstack np frame
    ram := { os.ram with
      toMemory := os.ram.toMemory.grant kernelStack frame
      answers := answers
      granted := (kernelStack, frame) :: os.ram.granted } }

/-- What `allocproc` finds. -/
structure Takes (layout : Layout) (os : Os) (np : Slot) (pt : Ptable) (frame : Nat)
    (answers : List (Option Nat)) : Prop where
  found : os.pt.allocproc = some (np, pt)
  next : os.ram.answers = some frame :: answers
  pool : layout.InPool frame
  free : os.ram.owner frame = none

theorem wp_allocproc {post : Option Slot → Os → Prop} (full : os.pt.allocproc = none → post none os)
    (starves : ∀ np pt answers, os.pt.allocproc = some (np, pt) →
      ¬Supply layout 1 os.ram.toVm →
      post none { os with
        pt := pt.allocKstack np 0
        ram := { os.ram with answers := answers } })
    (takes : ∀ np pt frame answers, Takes layout os np pt frame answers →
      post (some np) (os.taken np pt frame answers)) :
    Wp (allocproc layout) post stops os := by
  rw [allocproc, wp_bind, wp_get]
  rcases found : os.pt.allocproc with _ | ⟨np, pt⟩
  · exact full found
  · simp only [wp_bind, wp_modifyPt]
    rw [wp_liftRam, Ram.wp_lift]
    refine wp_kalloc (fun answers _ starved => ?_) fun frame answers next pool free => ?_
    · exact starves np pt answers found starved
    · exact takes np pt frame answers ⟨found, next, pool, free⟩

theorem allocproc_eq_none : pt.allocproc = none ↔ ∀ slot, (pt.proc slot).state ≠ .unused := by
  unfold Ptable.allocproc
  split
  next none =>
    have absent := Table.find_eq_none.mp none
    simpa using absent
  next np found =>
    have met := Table.find_some found
    simp only [decide_eq_true_eq] at met
    exact iff_of_false (by simp) fun used => used np met

theorem allocKstack_of_ne {kstack : Nat} (different : slot ≠ np) :
    (pt.allocKstack np kstack).proc slot = pt.proc slot := by
  unfold Ptable.allocKstack
  split_ifs <;> exact Ptable.modify_of_ne different

/-! ## References -/

/-- The descriptors of a process for a file. -/
def descriptors (caller : Proc) (fds : List (Fin nofile)) (file : Nat) : Nat :=
  fds.countP fun fd => decide (caller.ofile fd = some file)

/-- Every open file of a process has a reference. -/
def FilesHeld (os : Os) (caller : Proc) : Prop :=
  ∀ fd file, caller.ofile fd = some file → 0 < os.fileRef file

theorem wp_dupFiles {caller : Proc} {fds : List (Fin nofile)} {post : Unit → Os → Prop}
    (held : os.FilesHeld caller) (dups : post ()
      { os with fileRef := fun file => os.fileRef file + descriptors caller fds file }) :
    Wp (dupFiles caller fds) post stops os := by
  induction fds generalizing os with
  | nil => simpa [dupFiles, descriptors] using dups
  | cons fd rest ih =>
    rw [dupFiles]
    rcases isOpen : caller.ofile fd with _ | file
    · refine ih held ?_
      simpa [descriptors, isOpen] using dups
    · have positive := held fd file isOpen
      simp only [wp_bind, filedup, wp_get, if_neg (show ¬os.fileRef file < 1 by omega)]
      rw [wp_modify]
      refine ih ?_ ?_
      · intro fd' file' isOpen'
        have := held fd' file' isOpen'
        simp only [update_apply]
        split_ifs <;> omega
      · refine (congrArg (post ()) ?_).mp dups
        congr 1
        funext other
        by_cases same : other = file
        · subst same
          simp only [descriptors, List.countP_cons, isOpen, decide_true, if_true,
            update_self]
          omega
        · have different : file ≠ other := fun equal => same equal.symm
          simp [descriptors, isOpen, different, same]

/-- A process that is in a system call: it has an address space, a reference for each of its
open files and a working directory. -/
structure Caller (layout : Layout) (live : Nat → Prop) (os : Os) (caller : Slot) : Prop where
  space : AddressSpace layout live os.ram.toMemory (os.pt.proc caller).pgdir
    (os.pt.proc caller).sz
  bound : (os.pt.proc caller).sz ≤ usertop
  used : (os.pt.proc caller).state ≠ .unused
  held : os.FilesHeld (os.pt.proc caller)
  cwd : (os.pt.proc caller).cwd ≠ none
  pids : 0 < os.pt.nextpid

/-! ## `fork` -/

/-- What a `fork` that fails should leave: the same free pages, an unused slot, and nothing
else changed. -/
structure GivenBack (os os' : Os) : Prop where
  free : ∀ frame, os'.ram.owner frame = none ↔ os.ram.owner frame = none
  slot : ∀ np pt, os.pt.allocproc = some (np, pt) → (os'.pt.proc np).state = .unused
  others : ∀ slot, (∀ np pt, os.pt.allocproc = some (np, pt) → slot ≠ np) →
    os'.pt.proc slot = os.pt.proc slot
  files : os'.fileRef = os.fileRef
  inodes : os'.inodeRef = os.inodeRef

/-- What `fork` should do. -/
structure ForkExact (layout : Layout) (live : Nat → Prop) (self : Slot) (os : Os)
    (result : Int) (os' : Os) : Prop where
  copies : result ≠ -1 → ∃ np, (os.pt.proc np).state = .unused ∧
    (os'.pt.proc np).state = .runnable ∧ (os'.pt.proc np).pid = result ∧
    (os'.pt.proc np).sz = (os.pt.proc self).sz ∧
    ExactCopy layout live (os.pt.proc self).pgdir (os'.pt.proc np).pgdir os.ram os'.ram
  fails : result = -1 → GivenBack os os'

/-- The memory runs out while `setupkvm` makes the page tables: there is a slot, and there
are pages for the kernel stack and the page directory but not for the page tables. -/
def SetupStarves (layout : Layout) (os : Os) : Prop :=
  os.pt.allocproc ≠ none ∧ Supply layout 2 os.ram.toVm ∧
    ¬Supply layout (1 + directoryPages) os.ram.toVm

theorem wp_giveUp {abandon : Ptable → Ptable} {post : Int → Os → Prop}
    (kstack : (os.pt.proc np).kstack = frame) (pool : layout.InPool frame)
    (owned : os.ram.owner frame = some kernelStack) (leaves : post (-1) { os with
      pt := abandon os.pt
      ram := { os.ram with toMemory := os.ram.toMemory.release frame } }) :
    Wp (giveUp layout np abandon) post stops os := by
  rw [giveUp, wp_bind, wp_get, wp_bind, wp_liftRam, Ram.wp_lift, kstack]
  exact wp_kfree pool owned leaves

section Taken

variable {answers : List (Option Nat)}

variable (takes : Takes layout os np pt frame answers)
include takes

namespace Takes

theorem nonzero : frame ≠ 0 := by
  rintro rfl
  have pool := takes.pool
  have := layout.text
  have := layout.ordered
  simp only [Layout.InPool] at pool
  omega

theorem proc_self : (os.taken np pt frame answers).pt.proc np =
    { pt.proc np with kstack := frame } := by
  simp [taken, Ptable.allocKstack, takes.nonzero]

theorem kstack : ((os.taken np pt frame answers).pt.proc np).kstack = frame := by
  rw [takes.proc_self]

theorem proc_of_ne (different : slot ≠ np) :
    (os.taken np pt frame answers).pt.proc slot = os.pt.proc slot :=
  (allocKstack_of_ne different).trans ((Ptable.allocproc_some takes.found).2.2 slot different)

theorem ne_of_used (used : (os.pt.proc slot).state ≠ .unused) : slot ≠ np := by
  rintro rfl
  exact used (Ptable.allocproc_some takes.found).1

omit takes in
theorem owner_self : (os.taken np pt frame answers).ram.owner frame = some kernelStack :=
  update_self _ _ _

omit takes in
theorem owner_of_ne {other : Nat} (different : other ≠ frame) :
    (os.taken np pt frame answers).ram.owner other = os.ram.owner other :=
  update_of_ne different _ _

theorem supply {k : Nat} : Supply layout k (os.taken np pt frame answers).ram.toVm ↔
    Supply layout (k + 1) os.ram.toVm :=
  Supply.cons_iff takes.next takes.pool takes.free rfl

theorem starves_iff : SetupStarves layout os ↔
    Supply layout 1 (os.taken np pt frame answers).ram.toVm ∧
      ¬Supply layout directoryPages (os.taken np pt frame answers).ram.toVm := by
  rw [SetupStarves, takes.supply, takes.supply, takes.found, Nat.add_comm directoryPages]
  simp

theorem givenBack {os' : Os}
    (free : ∀ frame, os'.ram.owner frame = none ↔ os.ram.owner frame = none)
    (unused : (os'.pt.proc np).state = .unused) (others : ∀ slot, slot ≠ np →
      os'.pt.proc slot = (os.taken np pt frame answers).pt.proc slot)
    (files : os'.fileRef = os.fileRef) (inodes : os'.inodeRef = os.inodeRef) :
    GivenBack os os' := by
  refine ⟨free, ?_, fun slot different => ?_, files, inodes⟩
  · intro np' pt' found
    rw [takes.found] at found
    cases found
    exact unused
  · have apart := different np pt takes.found
    exact (others slot apart).trans (takes.proc_of_ne apart)

theorem free_release {ram : Ram} (same : ram.owner = (os.taken np pt frame answers).ram.owner)
    (other : Nat) : (ram.toMemory.release frame).owner other = none ↔
      os.ram.owner other = none := by
  by_cases here : other = frame
  · subst here
    simp [Memory.release, takes.free]
  · rw [Sound.owner_release_of_ne here, same, owner_of_ne here]

theorem space (before : AddressSpace layout live os.ram.toMemory
    (os.pt.proc slot).pgdir (os.pt.proc slot).sz) :
    AddressSpace layout live (os.taken np pt frame answers).ram.toMemory
      (os.pt.proc slot).pgdir (os.pt.proc slot).sz :=
  before.grant takes.pool takes.free

omit takes in
theorem exactCopy (copy : ExactCopy layout live pgdir d (os.taken np pt frame answers).ram ram') :
    ExactCopy layout live pgdir d os.ram ram' := by
  refine ⟨copy.pages, fun below present => ?_, copy.distinct, copy.contents, copy.unshared⟩
  obtain ⟨pool, free⟩ := copy.fresh below present
  refine ⟨pool, ?_⟩
  rwa [owner_of_ne] at free
  rintro same
  rw [same, owner_self] at free
  cases free

end Takes

end Taken

theorem wp_fork (caller : Caller layout live os self) :
    Wp (fork layout self) (fun result os' =>
      (¬SetupStarves layout os → ForkExact layout live self os result os') ∧
      (SetupStarves layout os → result = -1 ∧
        ∃ frame, os.ram.owner frame = none ∧ os'.ram.owner frame ≠ none)) stops os := by
  obtain ⟨space, bound, used, held, cwd, pids⟩ := caller
  rw [fork, wp_bind]
  refine wp_allocproc (fun full => ?_) (fun np pt answers found starved => ?_)
    fun np pt frame answers takes => ?_
  · refine ⟨fun _ => ⟨fun failed => absurd rfl failed, fun _ => ?_⟩, fun starves => ?_⟩
    · refine ⟨fun _ => Iff.rfl, fun np pt found => ?_, fun _ _ => rfl, rfl, rfl⟩
      simp [full] at found
    · exact absurd full starves.1
  · refine ⟨fun _ => ⟨fun failed => absurd rfl failed, fun _ => ?_⟩, fun starves => ?_⟩
    · refine ⟨fun _ => Iff.rfl, fun np' pt' found' => ?_, fun slot different => ?_, rfl, rfl⟩
      · rw [found] at found'
        cases found'
        simp [Ptable.allocKstack]
      · have apart := different np pt found
        change (pt.allocKstack np 0).proc slot = os.pt.proc slot
        rw [allocKstack_of_ne apart, (Ptable.allocproc_some found).2.2 slot apart]
    · exact absurd (starves.2.1.mono (by decide)) starved
  have apart := takes.ne_of_used used
  rw [wp_bind, wp_get, takes.proc_of_ne apart, wp_bind, wp_liftRam]
  refine Ram.wp_copyuvm (takes.space space) bound (fun ram' d copied => ?_)
    (fun ram' restored enough => ?_) fun ram' leaked first starved free allocated keeps => ?_
  · obtain ⟨inode, cwd⟩ := Option.ne_none_iff_exists'.mp cwd
    rw [wp_bind]
    refine wp_dupFiles held ?_
    rw [wp_bind, cwd, idup, wp_modify, wp_bind, wp_modifyPt, wp_bind, wp_get, wp_pure]
    have child := takes.proc_self
    obtain ⟨unused, isPid, -⟩ := Ptable.allocproc_some takes.found
    refine ⟨fun _ => ⟨fun _ => ⟨np, unused, ?_, rfl, ?_, ?_⟩, fun failed => ?_⟩, fun starves => ?_⟩
    · simp [Ptable.publish]
    · simp [Ptable.publish, Ptable.forkCopy, takes.proc_of_ne apart]
    · have copy := Takes.exactCopy (copied.exactCopy (takes.space space))
      simpa [Ptable.publish, Ptable.forkCopy] using copy
    · simp only [Ptable.publish, Ptable.forkCopy, Ptable.modify_self, child, isPid] at failed
      omega
    · exact absurd copied.enough (takes.starves_iff.mp starves).2
  · refine wp_giveUp takes.kstack takes.pool ?_
      ⟨fun _ => ⟨fun failed => absurd rfl failed, fun _ => ?_⟩, fun starves => ?_⟩
    · exact (congrFun restored.owner frame).trans Takes.owner_self
    · refine takes.givenBack (takes.free_release restored.owner) ?_ (fun slot different => ?_)
        rfl rfl
      · simp [Ptable.abandonFork]
      · exact Ptable.modify_of_ne different
    · obtain ⟨first, starved⟩ := takes.starves_iff.mp starves
      exact (enough.elim (absurd first) fun supply => absurd supply starved)
  · have starves := takes.starves_iff.mpr ⟨first, starved⟩
    refine wp_giveUp takes.kstack takes.pool (keeps Takes.owner_self)
      ⟨fun contrary => absurd starves contrary, fun _ => ⟨rfl, leaked, ?_, ?_⟩⟩
    all_goals
      have different : leaked ≠ frame := by
        rintro rfl
        rw [Takes.owner_self] at free
        cases free
    · exact (Takes.owner_of_ne different).symm.trans free
    · exact fun freed => allocated ((Sound.owner_release_of_ne different).symm.trans freed)

/-- Whenever `copyuvm` succeeds, the new page directory is an exact and independent copy; and
`fork` makes such a copy or gives everything back if and only if the memory does not run out
while `setupkvm` makes the page tables of the child. -/
theorem fork_exact_iff (caller : Caller layout live os self) :
    (∀ d ram', (Ram.copyuvm layout (os.pt.proc self).pgdir (os.pt.proc self).sz).run os.ram =
        .ok (some d, ram') → ExactCopy layout live (os.pt.proc self).pgdir d os.ram ram') ∧
    ((∃ result os', (fork layout self).run os = .ok (result, os') ∧
        ForkExact layout live self os result os') ↔ ¬SetupStarves layout os) := by
  refine ⟨fun d ram' ran => ?_, ?_⟩
  · have copies : Wp (Ram.copyuvm layout (os.pt.proc self).pgdir (os.pt.proc self).sz)
        (fun result ram' => ∀ d, result = some d →
          ExactCopy layout live (os.pt.proc self).pgdir d os.ram ram') (fun _ => False) os.ram := by
      refine Ram.wp_copyuvm caller.space caller.bound (fun ram' d copied => ?_) (fun _ _ _ => ?_)
        fun _ _ _ _ _ _ _ => ?_
      · rintro d' same
        obtain rfl := Option.some.inj same
        exact copied.exactCopy caller.space
      · rintro d ⟨⟩
      · rintro d ⟨⟩
    exact copies.ok ran d rfl
  · obtain ⟨result, os', ran, exactly, leaks⟩ :=
      (wp_fork caller).ends
    constructor
    · rintro ⟨result', os'', ran', exactly'⟩ starves
      rw [ran] at ran'
      cases ran'
      obtain ⟨failed, frame, free, allocated⟩ := leaks starves
      obtain ⟨-, fails⟩ := exactly'
      exact allocated (((fails failed).free frame).mpr free)
    · exact fun enough => ⟨result, os', ran, exactly enough⟩

theorem caller_withSize (space : AddressSpace layout live ram.toMemory d sz) (fits : sz ≤ usertop) :
    Caller layout live (withSize self d sz ram) self := by
  obtain ⟨isDir, isSize⟩ := withSize_proc self d sz ram
  refine ⟨?_, isSize.le.trans fits, ?_, ?_, ?_, ?_⟩
  · rw [isDir, isSize]
    exact space
  · simp [withSize]
  · intro fd file isOpen
    simp [withSize] at isOpen
  · simp [withSize]
  · simp [withSize]

/-- A process of any size, with `n` free pages. -/
theorem exists_caller (sz n : Nat) (fits : sz ≤ usertop) (few : n ≤ 1000) :
    ∃ (live : Nat → Prop) (ram : Ram) (d : Nat), AddressSpace smallLayout live ram.toMemory d sz ∧
      Caller smallLayout live (withSize 0 d sz ram) 0 ∧ Supply smallLayout n ram.toVm ∧
      ram.answers = VmSystem.frames 1000 n := by
  obtain ⟨live, start, d, space, free⟩ := exists_addressSpace_of_size sz fits
  exact ⟨live, { start with answers := VmSystem.frames 1000 n }, d, space,
    caller_withSize space fits, supply_frames free few, rfl⟩

/-- A process with one page forks while there is no free page. -/
theorem fork_exact_starved : ∃ (live : Nat → Prop) (ram : Ram) (d : Nat),
    AddressSpace smallLayout live ram.toMemory d pgsize ∧
    ∃ result os', (fork smallLayout 0).run (withSize 0 d pgsize ram) = .ok (result, os') ∧
      ForkExact smallLayout live 0 (withSize 0 d pgsize ram) result os' := by
  obtain ⟨live, ram, d, space, caller, -, none⟩ := exists_caller pgsize 0 (by decide) (by decide)
  have starved : ¬Supply smallLayout 2 ram.toVm := by
    rintro ⟨frames, rest, answers, length, -⟩
    have empty : frames = [] := by
      have := (List.append_eq_nil_iff.mp (answers.symm.trans none)).1
      simpa using this
    simp [empty] at length
  exact ⟨live, ram, d, space, (fork_exact_iff caller).2.mpr fun starves => starved starves.2.1⟩

/-- With two free pages, `fork` fails and the page directory it has taken is lost. -/
theorem fork_leaks_directory : ∃ (live : Nat → Prop) (ram : Ram) (d : Nat),
    AddressSpace smallLayout live ram.toMemory d pgsize ∧
    ∃ os', (fork smallLayout 0).run (withSize 0 d pgsize ram) = .ok (-1, os') ∧
      ∃ frame, ram.owner frame = none ∧ os'.ram.owner frame ≠ none := by
  obtain ⟨live, ram, d, space, caller, supply, two⟩ :=
    exists_caller pgsize 2 (by decide) (by decide)
  have starves : SetupStarves smallLayout (withSize 0 d pgsize ram) := by
    refine ⟨?_, supply, ?_⟩
    · rw [Ne, allocproc_eq_none]
      exact fun used => used 1 (by simp [withSize])
    · rintro ⟨frames, rest, answers, length, -⟩
      have bound := congrArg List.length answers
      simp [withSize, two, VmSystem.frames, length, directoryPages] at bound
      omega
  obtain ⟨result, os', ran, -, leaks⟩ := (wp_fork caller).ends
  obtain ⟨rfl, lost⟩ := leaks starves
  exact ⟨live, ram, d, space, os', ran, lost⟩

end Os

end Xv6
