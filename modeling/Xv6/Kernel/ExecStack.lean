import Xv6.Kernel.Exec

/-!
# The stack that `exec` leaves

The arguments of a program are to lie in the one page that `exec` allocates for its stack.
They do if they fit in it.
-/

namespace Xv6

open Program

variable {layout : Layout} {live : Nat → Prop} {d va : Nat} {ram : Ram}

theorem Ram.Holds.of_append {first rest : List UInt8} (holds : ram.Holds d va (first ++ rest)) :
    ram.Holds d va first ∧ ram.Holds d (va + first.length) rest := by
  simp only [Ram.Holds, List.length_append] at *
  constructor
  · intro a low high
    rw [holds a low (by omega), List.getD_append _ _ _ _ (by omega)]
  · intro a low high
    rw [holds a (by omega) (by omega), List.getD_append_right _ _ _ _ (by omega), Nat.sub_sub]

/-- Memory with the given contents of user pages. -/
def Ram.withContents (ram : Ram) (contents : Nat → UInt8) : Ram :=
  { ram with
    byte := fun frame j => match ram.owner frame with
      | some (.user _ page) => contents (page * pgsize + j)
      | _ => 0 }

theorem AddressSpace.at_withContents {sz a : Nat} {contents : Nat → UInt8}
    (space : AddressSpace layout live ram.toMemory d sz) (fits : sz ≤ usertop) (below : a < sz) :
    (ram.withContents contents).at d a = contents a := by
  have small : a < 2 ^ 32 := by
    simp only [usertop] at fits
    omega
  have user : ram.UserPage d a := (space.userPage_iff fits small).mpr
    (lt_of_le_of_lt (Nat.div_mul_le_self ..) below)
  have owned := (space.sound.owner_of_userPage space.isLive small user).2
  rw [Ram.at, Ram.withContents]
  simp only [owned]
  rw [Nat.div_add_mod']

namespace Os

variable {self : Slot} {os os' : Os} {stops : Halt → Prop} {ip : Nat} {file : Executable}
  {path : FileTree.Path} {args : List Argument} {inodes : Inodes}

/-- The strings of an argument list are in the memory of the caller, and a table of their
addresses is at `uargv`, so that `sys_exec` passes them to `exec`. -/
structure Passed (os : Os) (self : Slot) (uargv : Nat) (args : List Argument)
    (addresses : List Nat) : Prop where
  few : args.length < maxarg
  nonzero : 0 ∉ addresses
  table : uargv + 4 * (args.length + 1) ≤ (os.pt.proc self).sz
  words : os.ram.Holds (os.pt.proc self).pgdir uargv ((addresses ++ [0]).flatMap wordBytes)
  strings : List.Forall₂ (fun arg address =>
    address + arg.bytes.length ≤ (os.pt.proc self).sz ∧
      os.ram.Holds (os.pt.proc self).pgdir address arg.bytes) args addresses

/-- A range is in the last page of the memory of a process. -/
def InStackPage (p : Proc) (va len : Nat) : Prop := p.sz - pgsize ≤ va ∧ va + len ≤ p.sz

/-- What `exec` should leave: the words and the strings of the arguments, all of them in the
stack page, and below it the segments of the file. -/
structure StackPage (self : Slot) (file : Executable) (args : List Argument) (os' : Os) : Prop where
  user : os'.ram.UserRange (os'.pt.proc self).pgdir 0 (os'.pt.proc self).sz
  aligned : (os'.pt.proc self).tf.esp % 4 = 0
  inside : InStackPage (os'.pt.proc self) (os'.pt.proc self).tf.esp 12
  arguments : ∃ argv pointers,
    os'.ram.Holds (os'.pt.proc self).pgdir (os'.pt.proc self).tf.esp
      ([0xffffffff, args.length, argv].flatMap wordBytes) ∧
    InStackPage (os'.pt.proc self) argv (4 * (args.length + 1)) ∧
    os'.ram.Holds (os'.pt.proc self).pgdir argv ((pointers ++ [0]).flatMap wordBytes) ∧
    List.Forall₂ (fun arg pointer => InStackPage (os'.pt.proc self) pointer arg.bytes.length ∧
      os'.ram.Holds (os'.pt.proc self).pgdir pointer arg.bytes) args pointers
  below : ∀ a < (os'.pt.proc self).sz - pgsize,
    os'.ram.at (os'.pt.proc self).pgdir a = file.image a

theorem Started.stackPage (started : Started self file args os') (fits : stackSize args ≤ pgsize) :
    StackPage self file args os' := by
  obtain ⟨⟨aligned, size, pointers, strings, words⟩, large, user, image⟩ := started
  have total : stackSize args = stringsSize args + 4 * (args.length + 4) := rfl
  rw [List.append_assoc, List.flatMap_append] at words
  obtain ⟨first, table⟩ := words.of_append
  refine ⟨user, aligned, ⟨by omega, by omega⟩, ⟨_, pointers, first, ⟨by omega, by omega⟩, table,
    strings.imp fun arg pointer string => ?_⟩, fun a less => image a (by omega)⟩
  obtain ⟨above, inside, holds⟩ := string
  exact ⟨⟨by omega, inside⟩, holds⟩

theorem started_of_exec (caller : Caller layout live os self) (opens : os.Opens self path file)
    (regular : ∀ ph ∈ file.loads, ph.Regular)
    (ran : (exec layout self path args).run os = .ok (0, os')) : Started self file args os' := by
  have only : ∀ file', os.Opens self path file' → file' = file := by
    rintro file' ⟨ip', os₂, leads', rfl⟩
    obtain ⟨ip, os₁, leads, rfl⟩ := opens
    cases leads.symm.trans leads'
    rfl
  have ends : Wp (exec layout self path args) _ _ os :=
    wp_exec caller fun file' opens' => only file' opens' ▸ regular
  rcases ends.ok ran with ⟨failed, -⟩ | ⟨-, file', opens', started⟩
  · exact absurd failed (by decide)
  · exact only file' opens' ▸ started

/-! ## A small program -/

/-- A program of one page, of which the file has nothing. -/
def bssProgram : Executable :=
  ⟨oneSegment [0, 0, 0, 0] [0, 0, 0, 0] [0, 0x10, 0, 0], by decide⟩

theorem regular_bssProgram : ∀ ph ∈ bssProgram.loads, ph.Regular := by
  decide +kernel

theorem image_bssProgram {a : Nat} : bssProgram.image a = 0 := by
  have loads : bssProgram.loads = [⟨elfProgLoad, 0, 0, 0, 4096⟩] := by decide +kernel
  simp [Executable.image, loads, Proghdr.Covers]

theorem wp_loadSegments_bssProgram {start : Ram} (building : Building layout live d 0 start ram)
    (supply : Supply layout 2 ram.toVm) :
    Wp (Ram.loadSegments layout d bssProgram bssProgram.phnum bssProgram.phoff 0)
      (fun result ram' => result = some 4096 ∧ Supply layout 1 ram'.toVm) (fun _ => False) ram := by
  have header : bssProgram.proghdr bssProgram.phoff = ⟨elfProgLoad, 0, 0, 0, 4096⟩ := by
    decide +kernel
  have complete : (if bssProgram.phoff.val ≤ bssProgram.size.val then
      ((min proghdrSize (bssProgram.size.val - bssProgram.phoff.val) : Nat) : Int) else -1) =
        proghdrSize := by
    decide +kernel
  rw [show bssProgram.phnum = 0 + 1 by decide +kernel, Ram.loadSegments, wp_bind, Ram.wp_lift]
  refine wp_read (by decide) fun _ _ => ?_
  rw [complete, header]
  dsimp only
  rw [if_neg (not_not.mpr rfl), if_neg (not_not.mpr rfl), if_neg (by decide), wp_bind]
  refine (building.space.wp_allocuvm_supply (by decide) (by decide)).imp fun sz ram' => ?_
  rintro ⟨succeeds, left⟩
  obtain rfl := succeeds (supply.mono (by decide))
  rw [if_neg (by decide), wp_bind, Ram.loaduvm, if_neg (by decide), Ram.loadLoop,
    dif_neg (by decide)]
  exact ⟨rfl, left supply⟩

theorem wp_execFile_bssProgram (caller : Caller layout live os self)
    (free : os.inodeBusy ip = false) (supply : Supply layout (2 + setupPages) os.ram.toVm)
    (room : stackSize args ≤ 8192) (few : args.length ≤ maxarg) :
    Wp (execFile layout self path ip bssProgram args) (fun result _ => result = 0)
      (fun _ => False) (os.locked ip os.ram inodes) := by
  have sound := caller.space.sound
  rw [execFile, wp_bind, wp_liftRam, Ram.wp_lift]
  refine wp_read (by decide) fun _ _ => ?_
  rw [wp_ite]
  refine ⟨fun short => absurd short (by decide +kernel), fun _ => ?_⟩
  rw [wp_ite]
  refine ⟨fun wrong => absurd (by decide +kernel) wrong, fun _ => ?_⟩
  rw [wp_bind, wp_liftRam, Ram.wp_lift]
  refine wp_setupkvm_exact sound (fun vm _ starved => absurd (supply.mono (by decide)) starved)
    (fun vm d _ starved _ _ _ _ => absurd (supply.mono (by decide)) starved) fun vm₁ d made => ?_
  have building : Building layout (fun d' => d' = d ∨ live d') d 0 { os.ram with toVm := vm₁ } _ :=
    building_of_made made
  rw [wp_bind, wp_liftRam]
  have loads : Wp (Ram.loadSegments layout d bssProgram bssProgram.phnum bssProgram.phoff 0) _
      (fun _ => False) { os.ram with toVm := vm₁ } :=
    building.wp_loadSegments Ram.image_empty (fun _ _ => rfl) regular_bssProgram
  refine (loads.and (wp_loadSegments_bssProgram building (made.supply supply))).mono ?_
    fun _ => And.left
  rintro - ram₂ ⟨⟨size, filled, loaded⟩, rfl, left⟩
  obtain ⟨rfl, isImage, zero⟩ := loaded _ rfl
  rw [wp_bind]
  refine wp_iunlockput free fun _ => ?_
  rw [wp_bind, wp_liftRam]
  refine (filled.wp_buildStack isImage zero).imp ?_
  rintro result ram₃ ⟨size, finished, succeeds, -⟩
  cases result with
  | none => exact absurd rfl (succeeds ⟨left, by decide, room, few⟩)
  | some outcome =>
    obtain ⟨sz, sp⟩ := outcome
    rw [wp_bind, wp_get, wp_bind, wp_modifyPt, wp_bind, wp_liftRam, Ram.wp_lift]
    exact (wp_freevm_exact finished.grew.sound (.inr caller.space.isLive)).imp fun _ _ _ => rfl

theorem wp_exec_bssProgram {sz : Nat}
    (space : AddressSpace layout live ram.toMemory d sz) (fits : sz ≤ usertop)
    (supply : Supply layout (2 + setupPages) ram.toVm) (room : stackSize args ≤ 8192)
    (few : args.length ≤ maxarg) :
    Wp (exec layout 0 sh args) (fun result _ => result = 0) (fun _ => False)
      (withProgram d sz ram bssProgram) := by
  have free : (withProgram d sz ram bssProgram).inodeBusy 7 = false := rfl
  exact wp_exec_sh fun _ =>
    wp_execFile_bssProgram (caller_withProgram space fits) free supply room few

/-! ## Arguments that fit and arguments that do not -/

/-- A successful `exec` leaves the arguments in the stack page if and only if they fit in a
page. -/
theorem exec_stackPage_iff (caller : Caller layout live os self)
    (opens : os.Opens self path file) (regular : ∀ ph ∈ file.loads, ph.Regular)
    (ran : (exec layout self path args).run os = .ok (0, os')) :
    StackPage self file args os' ↔ stackSize args ≤ pgsize := by
  have started := started_of_exec caller opens regular ran
  refine ⟨?_, started.stackPage⟩
  rintro ⟨-, -, ⟨above, -⟩, -, -⟩
  obtain ⟨⟨-, size, -⟩, large, -, -⟩ := started
  omega

/-- A single short argument. -/
theorem exec_stackPage_short : ∃ (live : Nat → Prop) (ram : Ram) (d : Nat),
    AddressSpace smallLayout live ram.toMemory d pgsize ∧
    ∃ os', (exec smallLayout 0 sh [⟨[115, 104], by decide, by decide⟩]).run
        (withProgram d pgsize ram bssProgram) = .ok (0, os') ∧
      StackPage 0 bssProgram [⟨[115, 104], by decide, by decide⟩] os' := by
  obtain ⟨live, ram, d, space, -, supply, -⟩ :=
    exists_caller pgsize (2 + setupPages) (by decide) (by decide)
  have succeeds : Wp (exec smallLayout 0 sh [⟨[115, 104], by decide, by decide⟩]) _ _ _ :=
    wp_exec_bssProgram space (by decide) supply (by decide) (by decide)
  obtain ⟨result, os', ran, rfl⟩ := succeeds.ends
  exact ⟨live, ram, d, space, os', ran, (exec_stackPage_iff (caller_withProgram space (by decide))
    (opens_sh.mpr rfl) regular_bssProgram ran).mpr (by decide)⟩

/-- A string of `n` times the same letter. -/
def repeated (n : Nat) (short : n < usertop) : Argument where
  text := List.replicate n 97
  noZero := by simp
  short := by simpa using short

theorem length_repeated {n : Nat} {short : n < usertop} :
    (repeated n short).bytes.length = n + 1 := by
  simp [Argument.bytes, repeated]

theorem getD_repeated {n k : Nat} {short : n < usertop} :
    (repeated n short).bytes.getD k 0 = if k < n then 97 else 0 := by
  rw [Argument.bytes, repeated]
  by_cases less : k < n
  · rw [List.getD_append _ _ _ _ (by simpa using less), List.getD_replicate _ less, if_pos less]
  · rw [List.getD_append_right _ _ _ _ (by simpa using less), if_neg less]
    cases k - (List.replicate n (97 : UInt8)).length <;> rfl

/-- An argument that fits in a page, but not together with the words below it. -/
def longArgument : Argument := repeated 4087 (by decide)

/-- User memory that starts with a table of one argument, a string of `n` letters which
follows the table. -/
def argumentMemory (n a : Nat) : UInt8 := if a = 0 then 8 else if 8 ≤ a ∧ a < 8 + n then 97 else 0

theorem passed_repeated {n sz : Nat} {short : n < usertop}
    (space : AddressSpace layout live ram.toMemory d sz) (fits : sz ≤ usertop) (room : n + 9 ≤ sz) :
    Passed (withProgram d sz (ram.withContents (argumentMemory n)) file) 0 0 [repeated n short]
      [8] := by
  obtain ⟨isDir, isSize⟩ := withSize_proc 0 d sz (ram.withContents (argumentMemory n))
  have bytes : ∀ a < sz, (ram.withContents (argumentMemory n)).at d a = argumentMemory n a :=
    fun a => space.at_withContents fits
  refine ⟨show 1 < maxarg by decide, by decide, ?_, fun a _ below => ?_, .cons ⟨?_, ?_⟩ .nil⟩
  · rw [withProgram, isSize, List.length_singleton]
    omega
  · have below : a < 8 := below
    rw [withProgram, isDir]
    refine (bytes a (by omega)).trans ?_
    interval_cases a <;> rfl
  · rw [withProgram, isSize, length_repeated]
    omega
  · intro a low high
    rw [length_repeated] at high
    rw [withProgram, isDir]
    refine (bytes a (by omega)).trans ?_
    rw [getD_repeated, argumentMemory, if_neg (by omega)]
    refine if_congr ?_ rfl rfl
    omega

/-- The string takes nearly a page, and the words below it are put in the page of the
program. -/
theorem exec_overwrites_program : ∃ (live : Nat → Prop) (ram : Ram) (d : Nat),
    AddressSpace smallLayout live ram.toMemory d pgsize ∧
    Passed (withProgram d pgsize ram bssProgram) 0 0 [longArgument] [8] ∧
    (∀ ph ∈ bssProgram.loads, ph.Regular) ∧
    ∃ os', (exec smallLayout 0 sh [longArgument]).run (withProgram d pgsize ram bssProgram) =
        .ok (0, os') ∧
      (os'.pt.proc 0).tf.esp < (os'.pt.proc 0).sz - pgsize ∧
      os'.ram.at (os'.pt.proc 0).pgdir (os'.pt.proc 0).tf.esp ≠
        bssProgram.image (os'.pt.proc 0).tf.esp ∧
      ¬StackPage 0 bssProgram [longArgument] os' := by
  obtain ⟨live, start, d, space, free⟩ := exists_addressSpace_of_size pgsize (by decide)
  let ram : Ram :=
    Ram.withContents { start with answers := VmSystem.frames 1000 (2 + setupPages) }
      (argumentMemory 4087)
  have size : stackSize [longArgument] = 4108 := by
    rw [stackSize, stringsSize_cons, stringsSize_nil, longArgument, length_repeated]
    rfl
  have supply : Supply smallLayout (2 + setupPages) ram.toVm := supply_frames free (by decide)
  have space : AddressSpace smallLayout live ram.toMemory d pgsize := space
  have succeeds : Wp (exec smallLayout 0 sh [longArgument]) _ _ _ :=
    wp_exec_bssProgram space (by decide) supply (by rw [size]; decide) (by decide)
  obtain ⟨result, os', ran, rfl⟩ := succeeds.ends
  obtain ⟨⟨-, top, pointers, -, words⟩, large, -, -⟩ :=
    started_of_exec (caller_withProgram space (by decide)) (opens_sh.mpr rfl)
      regular_bssProgram ran
  have low : (os'.pt.proc 0).tf.esp < (os'.pt.proc 0).sz - pgsize := by
    simp only [pgsize] at *
    omega
  refine ⟨live, ram, d, space, passed_repeated space (by decide) (by decide), regular_bssProgram,
    os', ran, low, ?_, fun page => ?_⟩
  · have first := words (os'.pt.proc 0).tf.esp le_rfl (by simp [wordBytes])
    rw [Ram.at, first, image_bssProgram, Nat.sub_self]
    exact show (255 : UInt8) ≠ 0 by decide
  · obtain ⟨-, -, ⟨above, -⟩, -, -⟩ := page
    omega

end Os

end Xv6
