import Xv6.Kernel.Fork
import Xv6.Kernel.Threads

/-!
# `clone`

A `clone` that finds a slot and a page for the kernel stack first fills the slot and takes
the references, and only then writes to the new stack.  If the pages it writes to are not
the user's it gives back the slot and the page, but neither the references nor what it has
put in the slot.
-/

namespace Xv6

open Program

variable {layout : Layout} {live : Nat → Prop} {d sz va : Nat} {ram ram' : Ram}

namespace Os

variable {self np : Slot} {os os' : Os} {stops : Halt → Prop} {fn arg ustack : Nat}
  {pt pt' : Ptable} {caller : Proc}

/-! ## The arguments -/

/-- The arguments that `sys_clone` passes on. -/
def Accepted (caller : Proc) (fn arg ustack : Nat) : Prop :=
  (argptr caller fn && argptr caller arg && argptr caller ustack) = true ∧
    ¬(fn > caller.sz ∨ ustack > caller.sz)

theorem sysClone_run (accepted : Accepted (os.pt.proc self) fn arg ustack) :
    (sysClone layout self fn arg ustack).run os = (clone layout self fn arg ustack).run os := by
  obtain ⟨pointers, bounds⟩ := accepted
  have unread : (sysClone layout self fn arg ustack).run os =
      (if (argptr (os.pt.proc self) fn && argptr (os.pt.proc self) arg &&
          argptr (os.pt.proc self) ustack) = false then pure (-1)
        else if fn > (os.pt.proc self).sz ∨ ustack > (os.pt.proc self).sz then pure (-1)
        else clone layout self fn arg ustack : OsProgram Int).run os := rfl
  rw [unread, if_neg (by simp [pointers]), if_neg bounds]

theorem Accepted.lt (accepted : Accepted caller fn arg ustack) : ustack < caller.sz := by
  obtain ⟨pointers, -⟩ := accepted
  simp only [argptr, Bool.and_eq_true, Bool.not_eq_true', decide_eq_false_iff_not] at pointers
  omega

/-- The pages that `clone` writes to belong to the user. -/
def StackMapped (caller : Proc) (ustack : Nat) : Prop :=
  (ustack + 4095) / pgsize * pgsize < caller.sz

theorem StackMapped.iff_userRange (space : AddressSpace layout live ram.toMemory
      (os.pt.proc self).pgdir (os.pt.proc self).sz)
    (fits : (os.pt.proc self).sz ≤ usertop) (inside : ustack < (os.pt.proc self).sz) :
    ram.UserRange (os.pt.proc self).pgdir (ustack + 4084) 12 ↔
      StackMapped (os.pt.proc self) ustack := by
  have below : ustack < usertop := lt_of_lt_of_le inside fits
  simp only [usertop] at below
  constructor
  · intro range
    exact (space.userPage_iff fits (by omega)).mp
      (range (ustack + 4095) (by omega) (by omega))
  · intro mapped a low high
    refine (space.userPage_iff fits (by omega)).mpr (lt_of_le_of_lt ?_ mapped)
    exact Nat.mul_le_mul_right _ (Nat.div_le_div_right (by omega))

/-! ## What `clone` does -/

/-- The references that `fork` and `clone` take. -/
def withReferences (os : Os) (caller : Proc) : Os :=
  { os with
    fileRef := fun file => os.fileRef file + descriptors caller (List.finRange nofile) file
    inodeRef := fun inode => os.inodeRef inode + if caller.cwd = some inode then 1 else 0 }

theorem withReferences_eq {inode : Nat} (cwd : caller.cwd = some inode) :
    os.withReferences caller = { os with
      fileRef := fun file => os.fileRef file + descriptors caller (List.finRange nofile) file
      inodeRef := Function.update os.inodeRef inode (os.inodeRef inode + 1) } := by
  rw [withReferences]
  congr 1
  funext other
  by_cases same : other = inode
  · simp [cwd, same]
  · simp [cwd, same, Ne.symm same]

/-- The state that a `clone` leaves that cannot write to the new stack. -/
def refused (os : Os) (self np : Slot) (frame : Nat) (ram : Ram) : Os :=
  { os.withReferences (os.pt.proc self) with
    pt := (os.pt.cloneCopy self np).abandon np
    ram := { ram with toMemory := ram.toMemory.release frame } }

/-- The state that a `clone` leaves that has created a thread. -/
def cloned (os : Os) (self np : Slot) (fn ustack : Nat) (ram : Ram) : Os :=
  { os.withReferences (os.pt.proc self) with
    pt := ((os.pt.cloneCopy self np).cloneStack np fn ustack).publish self np
    ram := ram }

theorem wp_clone {post : Int → Os → Prop} (caller : Caller layout live os self)
    (inside : ustack < (os.pt.proc self).sz) (full : os.pt.allocproc = none → post (-1) os)
    (starves : ∀ np pt answers, os.pt.allocproc = some (np, pt) →
      ¬Supply layout 1 os.ram.toVm →
      post (-1) { os with
        pt := pt.allocKstack np 0
        ram := { os.ram with answers := answers } })
    (refuses : ∀ np pt frame answers ram', Takes layout os np pt frame answers →
      ¬StackMapped (os.pt.proc self) ustack →
      Wrote (os.pt.proc self).pgdir (ustack + 4084) 12 (os.taken np pt frame answers).ram ram' →
      post (-1) ((os.taken np pt frame answers).refused self np frame ram'))
    (creates : ∀ np pt frame answers ram', Takes layout os np pt frame answers →
      StackMapped (os.pt.proc self) ustack →
      CopiedOut (os.pt.proc self).pgdir (ustack + 4084) (threadStack arg)
        (os.taken np pt frame answers).ram 0 ram' →
      post os.pt.nextpid ((os.taken np pt frame answers).cloned self np fn ustack ram')) :
    Wp (clone layout self fn arg ustack) post stops os := by
  obtain ⟨space, bound, used, held, cwd, pids⟩ := caller
  rw [clone, wp_bind]
  refine wp_allocproc full starves fun np pt frame answers takes => ?_
  have apart := takes.ne_of_used used
  have after := takes.space space
  have mine := takes.proc_of_ne apart
  have below : ustack < usertop := lt_of_lt_of_le inside bound
  simp only [usertop] at below
  have sp : toUint (ustack + 4096 - 12) = ustack + 4084 := by
    simp only [toUint]
    omega
  rw [wp_bind, wp_get, mine, wp_bind]
  refine wp_dupFiles held ?_
  obtain ⟨inode, cwd⟩ := Option.ne_none_iff_exists'.mp cwd
  rw [wp_bind, cwd, idup, wp_modify, wp_bind, wp_modifyPt, wp_bind, wp_liftRam, sp]
  have length : (threadStack arg).length = 12 := rfl
  have table : ∀ a, ustack + 4084 ≤ a → a < ustack + 4084 + (threadStack arg).length →
      ((os.taken np pt frame answers).ram.page (os.pt.proc self).pgdir (PDX a)).present =
        true := by
    intro a low high
    have first : PDX a = 0 := PDX_of_lt (by omega)
    rw [first]
    exact after.table
  refine (Ram.wp_copyout after.sound after.isLive (by omega) table).mono
    (fun result ram' copied => ?_) fun _ => id
  have range := StackMapped.iff_userRange after bound inside
  rcases copied.outcome with rfl | rfl
  · rw [if_neg (by decide), wp_bind, wp_modifyPt, wp_bind, wp_get, wp_pure]
    have created := creates np pt frame answers ram' takes (range.mp (copied.returns.mp rfl)) copied
    have isPid : (((((os.taken np pt frame answers).pt.cloneCopy self np).cloneStack np fn
        ustack).publish self np).proc np).pid = os.pt.nextpid := by
      simp [Ptable.publish, Ptable.cloneStack, Ptable.cloneCopy, takes.proc_self,
        (Ptable.allocproc_some takes.found).2.1]
    rw [cloned, mine, withReferences_eq cwd, ← isPid] at created
    exact created
  · have unmapped : ¬StackMapped (os.pt.proc self) ustack := fun mapped => by
      have zero := copied.returns.mpr (range.mpr mapped)
      cases zero
    have refusal := refuses np pt frame answers ram' takes unmapped copied.wrote
    rw [refused, mine, withReferences_eq cwd] at refusal
    have kstack : (((os.taken np pt frame answers).pt.cloneCopy self np).proc np).kstack =
        frame := by
      simp [Ptable.cloneCopy, takes.proc_self]
    rw [if_pos (by decide)]
    refine wp_giveUp kstack takes.pool ?_ refusal
    rw [copied.wrote.vm]
    exact Takes.owner_self

/-- A slot, a page and the stack are all that `clone` needs. -/
def Creates (layout : Layout) (os : Os) (self : Slot) (ustack : Nat) : Prop :=
  os.pt.allocproc ≠ none ∧ Supply layout 1 os.ram.toVm ∧ StackMapped (os.pt.proc self) ustack

theorem Takes.supply_one {pt : Ptable} {frame : Nat} {answers : List (Option Nat)}
    (takes : Takes layout os np pt frame answers) : Supply layout 1 os.ram.toVm :=
  takes.supply.mp .zero

/-! ## A `clone` that fails -/

/-- What a `clone` that fails should leave. -/
structure NoTrace (os os' : Os) : Prop where
  files : os'.fileRef = os.fileRef
  inodes : os'.inodeRef = os.inodeRef
  clean : os'.pt.Clean
  free : ∀ frame, os'.ram.owner frame = none ↔ os.ram.owner frame = none

theorem clean_withSize : (withSize self d sz ram).pt.Clean := by
  intro slot unused
  by_cases same : slot = self
  · subst same
    simp [withSize] at unused
  · simp [withSize, same]

theorem clean_allocKstack (found : pt.allocproc = some (np, pt')) :
    (pt'.allocKstack np 0).Clean ↔ pt.Clean := by
  have entry : ∀ slot, ((pt'.allocKstack np 0).proc slot).state = (pt.proc slot).state ∧
      ((pt'.allocKstack np 0).proc slot).parent = (pt.proc slot).parent ∧
      ((pt'.allocKstack np 0).proc slot).ofile = (pt.proc slot).ofile := by
    intro slot
    by_cases same : slot = np
    · subst same
      obtain ⟨unused, new, -⟩ := Ptable.allocproc_some found
      simp [Ptable.allocKstack, new, unused]
    · rw [allocKstack_of_ne same, (Ptable.allocproc_some found).2.2 slot same]
      simp
  simp only [Ptable.Clean, entry]

/-- A `clone` that fails leaves no trace if and only if it has found no slot or no page, and
no trace was there before.  In a table that is reached without a `clone` that failed later
than that, there was none. -/
theorem failed_clone_noTrace_iff (caller : Caller layout live os self)
    (accepted : Accepted (os.pt.proc self) fn arg ustack) :
    ∃ result os', (sysClone layout self fn arg ustack).run os = .ok (result, os') ∧
      (result = -1 ↔ ¬Creates layout os self ustack) ∧
      (result = -1 → (NoTrace os os' ↔
        (os.pt.allocproc = none ∨ ¬Supply layout 1 os.ram.toVm) ∧ os.pt.Clean)) ∧
      ∀ k, Kernel.Reachable Kernel.StacksMapped k → k.pt = os.pt → os.pt.Clean := by
  suffices ends : Wp (clone layout self fn arg ustack) (fun result os' =>
      (result = -1 ↔ ¬Creates layout os self ustack) ∧ (result = -1 → (NoTrace os os' ↔
        (os.pt.allocproc = none ∨ ¬Supply layout 1 os.ram.toVm) ∧ os.pt.Clean)))
      (fun _ => False) os by
    obtain ⟨result, os', ran, fails, trace⟩ := ends.ends
    exact ⟨result, os', (sysClone_run accepted).trans ran, fails, trace,
      fun k reachable same => same ▸ reachable.clean⟩
  obtain ⟨inode, cwd⟩ := Option.ne_none_iff_exists'.mp caller.cwd
  refine wp_clone caller accepted.lt (fun full => ?_) (fun np pt answers found starved => ?_)
    (fun np pt frame answers ram' takes unmapped wrote => ?_)
    fun np pt frame answers ram' takes mapped copied => ?_
  · refine ⟨by simp [Creates, full], fun _ => ⟨fun trace => ⟨.inl full, trace.clean⟩, ?_⟩⟩
    exact fun clean => ⟨rfl, rfl, clean.2, fun _ => Iff.rfl⟩
  · refine ⟨by simp [Creates, starved], fun _ => ⟨fun trace => ⟨.inr starved, ?_⟩, fun clean => ?_⟩⟩
    · exact (clean_allocKstack found).mp trace.clean
    · exact ⟨rfl, rfl, (clean_allocKstack found).mpr clean.2, fun _ => Iff.rfl⟩
  · refine ⟨by simp [Creates, unmapped], fun _ => iff_of_false (fun trace => ?_) ?_⟩
    · have counted := congrFun trace.inodes inode
      have mine := takes.proc_of_ne (takes.ne_of_used caller.used)
      simp only [refused, withReferences, mine, cwd, if_true] at counted
      exact absurd counted (Nat.succ_ne_self _)
    · rintro ⟨full | starved, -⟩
      · simp [takes.found] at full
      · exact starved takes.supply_one
  · have := caller.pids
    refine ⟨iff_of_false (by omega) ?_, fun failed => by omega⟩
    simp [Creates, takes.found, takes.supply_one, mapped]

theorem accepted_withSize (fits : sz ≤ usertop) (fnBelow : fn < sz) (argBelow : arg < sz)
    (stackBelow : ustack < sz) :
    Accepted ((withSize self d sz ram).pt.proc self) fn arg ustack := by
  have bound := fits
  simp only [usertop] at bound
  have pointer : ∀ {word : Nat}, word < sz → ¬(sz ≤ word ∨ sz < toUint (word + 1)) := by
    intro word below
    simp only [toUint]
    omega
  simp only [Accepted, argptr, withSize, Function.update_self, Bool.and_eq_true,
    Bool.not_eq_true', decide_eq_false_iff_not, ge_iff_le, gt_iff_lt]
  exact ⟨⟨⟨pointer fnBelow, pointer argBelow⟩, pointer stackBelow⟩, by omega⟩

/-- A process without free memory cannot create a thread. -/
theorem failed_clone_noTrace_starved : ∃ (live : Nat → Prop) (ram : Ram) (d : Nat),
    AddressSpace smallLayout live ram.toMemory d pgsize ∧
    ∃ os', (sysClone smallLayout 0 0 0 0).run (withSize 0 d pgsize ram) = .ok (-1, os') ∧
      NoTrace (withSize 0 d pgsize ram) os' := by
  obtain ⟨live, ram, d, space, caller, -, none⟩ := exists_caller pgsize 0 (by decide) (by decide)
  have starved : ¬Supply smallLayout 1 ram.toVm := by
    rintro ⟨frames, rest, answers, length, -⟩
    have empty := (List.append_eq_nil_iff.mp (answers.symm.trans none)).1
    simp_all
  have accepted : Accepted ((withSize 0 d pgsize ram).pt.proc 0) 0 0 0 :=
    accepted_withSize (by decide) (by decide) (by decide) (by decide)
  obtain ⟨result, os', ran, fails, trace, -⟩ := failed_clone_noTrace_iff caller accepted
  have failed := fails.mpr fun creates => starved creates.2.1
  subst failed
  exact ⟨live, ram, d, space, os', ran, (trace rfl).mpr ⟨.inr starved, clean_withSize⟩⟩

/-- The stack ends in the page after the last one.  `clone` fails, and the reference to the
working directory is not given back; the slot keeps its parent. -/
theorem failed_clone_leaves_reference : ∃ (live : Nat → Prop) (ram : Ram) (d : Nat),
    AddressSpace smallLayout live ram.toMemory d pgsize ∧
    ∃ os', (sysClone smallLayout 0 0 0 4000).run (withSize 0 d pgsize ram) = .ok (-1, os') ∧
      os'.inodeRef 0 = (withSize 0 d pgsize ram).inodeRef 0 + 1 ∧
      ∃ slot, (os'.pt.proc slot).state = .unused ∧ (os'.pt.proc slot).parent = some 0 := by
  obtain ⟨live, ram, d, space, caller, supply, -⟩ :=
    exists_caller pgsize 1 (by decide) (by decide)
  have accepted : Accepted ((withSize 0 d pgsize ram).pt.proc 0) 0 0 4000 :=
    accepted_withSize (by decide) (by decide) (by decide) (by decide)
  suffices ends : Wp (clone smallLayout 0 0 0 4000) (fun result os' => result = -1 ∧
      os'.inodeRef 0 = (withSize 0 d pgsize ram).inodeRef 0 + 1 ∧
      ∃ slot, (os'.pt.proc slot).state = .unused ∧ (os'.pt.proc slot).parent = some 0)
      (fun _ => False) (withSize 0 d pgsize ram) by
    obtain ⟨result, os', ran, rfl, trace⟩ := ends.ends
    exact ⟨live, ram, d, space, os', (sysClone_run accepted).trans ran, trace⟩
  refine wp_clone caller accepted.lt (fun full => ?_) (fun np pt answers found starved => ?_)
    (fun np pt frame answers ram' takes unmapped wrote => ?_)
    fun np pt frame answers ram' takes mapped copied => ?_
  · rw [allocproc_eq_none] at full
    exact absurd (by simp [withSize]) (full 1)
  · exact absurd supply starved
  · have mine := takes.proc_of_ne (takes.ne_of_used caller.used)
    refine ⟨rfl, ?_, np, ?_, ?_⟩
    · simp only [refused, withReferences, mine]
      simp [withSize, taken]
    · simp [refused, Ptable.abandon]
    · simp [refused, Ptable.abandon, Ptable.cloneCopy]
  · simp [StackMapped, withSize, pgsize] at mapped

/-! ## A `clone` that creates a thread -/

theorem creates_withSize (supply : Supply smallLayout 1 ram.toVm)
    (mapped : (ustack + 4095) / pgsize * pgsize < sz) :
    Creates smallLayout (withSize 0 d sz ram) 0 ustack := by
  refine ⟨?_, supply, ?_⟩
  · rw [Ne, allocproc_eq_none]
    exact fun used => used 1 (by simp [withSize])
  · simpa [StackMapped, withSize] using mapped

/-- What a `clone` that returns the pid `result` should have done. -/
structure ThreadMade (live : Nat → Prop) (self : Slot) (fn arg ustack : Nat) (os : Os)
    (result : Int) (os' : Os) (np : Slot) : Prop where
  isSlot : (os.pt.proc np).state = .unused ∧ (os'.pt.proc np).state = .runnable ∧
    (os'.pt.proc np).pid = result
  space : (os'.pt.proc np).pgdir = (os.pt.proc self).pgdir ∧
    (os'.pt.proc np).sz = (os.pt.proc self).sz
  parent : (os'.pt.proc np).parent = some self
  isThread : (os'.pt.proc np).isThread = true
  trapframe : (os'.pt.proc np).tf =
    { (os.pt.proc self).tf with eip := fn, esp := ustack + 4096 - 12 }
  words : os'.ram.Holds (os.pt.proc self).pgdir (ustack + 4096 - 12)
    (wordBytes 0xffffffff ++ wordBytes arg ++ wordBytes 0)
  tables : os'.ram.page = os.ram.page
  memory : ∀ {d va}, live d → va < usertop → (os.ram.entry d va).present = true →
    ¬(d = (os.pt.proc self).pgdir ∧ ustack + 4096 - 12 ≤ va ∧ va < ustack + 4096) →
    os'.ram.byte (os.ram.entry d va).frame (va % pgsize) =
      os.ram.byte (os.ram.entry d va).frame (va % pgsize)
  files : (os'.pt.proc np).ofile = (os.pt.proc self).ofile ∧ ∀ file, os'.fileRef file =
    os.fileRef file + descriptors (os.pt.proc self) (List.finRange nofile) file
  cwd : (os'.pt.proc np).cwd = (os.pt.proc self).cwd ∧ ∀ inode, os'.inodeRef inode =
    os.inodeRef inode + if (os.pt.proc self).cwd = some inode then 1 else 0
  joined : ∀ {k later : Kernel} {trace joiner}, k.pt = os'.pt → Kernel.Wf k →
    Transition.Run Kernel.step (fun _ _ => True) k trace later →
    (∀ entry ∈ trace, (entry.1.pt.proc np).state ≠ .unused) →
    later.pt.zombieChild joiner (fun entry => entry.isThread) = some np →
    (later.pt.joinScan joiner).2 = .reaped result ustack
  inside : ustack + 4096 ≤ (os.pt.proc self).sz

/-- The slot that is taken has no open files where the caller has none. -/
def NoLeftover (os : Os) (self : Slot) : Prop :=
  ∀ np pt, os.pt.allocproc = some (np, pt) →
    ∀ fd, (os.pt.proc self).ofile fd = none → (os.pt.proc np).ofile fd = none

theorem noLeftover_of_clean (clean : os.pt.Clean) : NoLeftover os self :=
  fun np _ found fd _ => (clean np (Ptable.allocproc_some found).1).2 fd

section Made

variable {frame : Nat} {answers : List (Option Nat)}

theorem cloned_proc (takes : Takes layout os np pt frame answers) (apart : self ≠ np) :
    ((os.taken np pt frame answers).cloned self np fn ustack ram').pt.proc np =
      { os.pt.proc np with
        state := .runnable
        pid := os.pt.nextpid
        kstack := frame
        isThread := true
        pgdir := (os.pt.proc self).pgdir
        sz := (os.pt.proc self).sz
        parent := some self
        tf := { (os.pt.proc self).tf with eip := fn, esp := toUint (ustack + 4096 - 12) }
        ofile := Ptable.dupFiles (os.pt.proc self) (os.pt.proc np)
        cwd := (os.pt.proc self).cwd
        bsp := ustack
        name := (os.pt.proc self).name } := by
  have mine := takes.proc_of_ne apart
  simp only [cloned, Ptable.publish, Ptable.cloneStack, Ptable.cloneCopy, Ptable.modify_self,
    Ptable.modify_of_ne apart, takes.proc_self, (Ptable.allocproc_some takes.found).2.1, mine]
  rfl

theorem cloned_of_ne (takes : Takes layout os np pt frame answers) {slot : Slot}
    (different : slot ≠ np) :
    ((os.taken np pt frame answers).cloned self np fn ustack ram').pt.proc slot =
      os.pt.proc slot := by
  simp only [cloned, Ptable.publish, Ptable.cloneStack, Ptable.cloneCopy,
    Ptable.modify_of_ne different, takes.proc_of_ne different]

theorem memory_of_copiedOut {source : List UInt8} {va d' a : Nat}
    (sound : Sound layout live ram.toMemory) (isLive : live d) (isLive' : live d')
    (top : va + source.length ≤ 2 ^ 32)
    (copied : CopiedOut d va source ram 0 ram') (below : a < usertop)
    (present : (ram.entry d' a).present = true)
    (apart : ¬(d' = d ∧ va ≤ a ∧ a < va + source.length)) :
    ram'.byte (ram.entry d' a).frame (a % pgsize) =
      ram.byte (ram.entry d' a).frame (a % pgsize) := by
  apply copied.wrote.outside
  rintro b low high ⟨frame, offset⟩
  have user := sound.owner_of_userPage isLive (by omega) (copied.returns.mp rfl b low high)
  have owned := sound.user_of_present isLive' below present
  rw [frame, owned] at user
  simp only [Option.some.injEq, Owner.user.injEq] at user
  obtain ⟨-, same, page⟩ := user
  have : b = a := by
    rw [← Nat.div_add_mod b pgsize, ← Nat.div_add_mod a pgsize, page, offset]
  exact apart ⟨same, by omega, by omega⟩

theorem threadMade_cloned (caller : Caller layout live os self)
    (takes : Takes layout os np pt frame answers)
    (copied : CopiedOut (os.pt.proc self).pgdir (ustack + 4084) (threadStack arg)
      (os.taken np pt frame answers).ram 0 ram')
    (inside : ustack + 4096 ≤ (os.pt.proc self).sz) (clean : NoLeftover os self) :
    ThreadMade live self fn arg ustack os os.pt.nextpid
      ((os.taken np pt frame answers).cloned self np fn ustack ram') np := by
  have apart := takes.ne_of_used caller.used
  have mine := takes.proc_of_ne apart
  have thread : ((os.taken np pt frame answers).cloned self np fn ustack ram').pt.proc np = _ :=
    cloned_proc takes apart
  have after := takes.space caller.space
  have bound := inside.trans caller.bound
  simp only [usertop] at bound
  have sp : toUint (ustack + 4096 - 12) = ustack + 4096 - 12 := by
    simp only [toUint]
    omega
  have files : Ptable.dupFiles (os.pt.proc self) (os.pt.proc np) = (os.pt.proc self).ofile := by
    funext fd
    unfold Ptable.dupFiles
    cases isOpen : (os.pt.proc self).ofile fd with
    | none => exact clean np pt takes.found fd isOpen
    | some file => rfl
  refine ⟨⟨(Ptable.allocproc_some takes.found).1, ?_, ?_⟩, ⟨?_, ?_⟩, ?_, ?_, ?_, copied.holds rfl,
    ?_, ?_, ⟨?_, ?_⟩, ⟨?_, ?_⟩, ?_, inside⟩
  any_goals rw [thread]
  · rw [sp]
  · have tables : ram'.page = (os.taken np pt frame answers).ram.page := by rw [copied.wrote.vm]
    exact tables
  · intro d va isLive below present other
    have length : (threadStack arg).length = 12 := rfl
    have unchanged := memory_of_copiedOut after.sound after.isLive isLive (by omega) copied below
      present (by omega)
    exact unchanged
  · exact files
  · intro file
    simp only [cloned, withReferences, mine]
    rfl
  · intro inode
    simp only [cloned, withReferences, mine]
    rfl
  · intro k later trace joiner same wf run kept picked
    refine Kernel.joinScan_hasStack wf ?_ run kept picked
    rw [same, thread]
    exact ⟨by simp, by simp, rfl, rfl⟩

end Made

/-- `clone` creates a thread as it should if and only if the whole stack lies in the memory of
the process and the slot has no open files left over. -/
theorem clone_threadMade_iff (caller : Caller layout live os self)
    (accepted : Accepted (os.pt.proc self) fn arg ustack) :
    ∃ result os', (sysClone layout self fn arg ustack).run os = .ok (result, os') ∧
      (result ≠ -1 ↔ Creates layout os self ustack) ∧
      (result ≠ -1 → ((∃ np, ThreadMade live self fn arg ustack os result os' np) ↔
        ustack + 4096 ≤ (os.pt.proc self).sz ∧ NoLeftover os self)) := by
  rw [sysClone_run accepted]
  apply Wp.ends
  refine wp_clone caller accepted.lt (fun full => ?_) (fun np pt answers found starved => ?_)
    (fun np pt frame answers ram' takes unmapped wrote => ?_)
    fun np pt frame answers ram' takes mapped copied => ?_
  · exact ⟨by simp [Creates, full], fun failed => absurd rfl failed⟩
  · exact ⟨by simp [Creates, starved], fun failed => absurd rfl failed⟩
  · exact ⟨by simp [Creates, unmapped], fun failed => absurd rfl failed⟩
  · have := caller.pids
    refine ⟨iff_of_true (by omega) ?_, fun _ => ⟨?_, fun fits => ?_⟩⟩
    · exact ⟨by simp [takes.found], takes.supply_one, mapped⟩
    · rintro ⟨thread, ⟨unused, runnable, -⟩, -, -, -, -, -, -, -, ⟨files, -⟩, -, -, inside⟩
      have apart := takes.ne_of_used caller.used
      have same : thread = np := by
        by_contra other
        rw [cloned_of_ne takes other, unused] at runnable
        cases runnable
      refine ⟨inside, fun np' pt' found fd isNone => ?_⟩
      rw [takes.found] at found
      cases found
      rw [same, cloned_proc takes apart] at files
      have leftover := congrFun files fd
      simpa [Ptable.dupFiles, isNone] using leftover
    · exact ⟨np, threadMade_cloned caller takes copied fits.1 fits.2⟩

/-- The second page of a process as the stack of a thread. -/
theorem clone_threadMade_secondPage : ∃ (live : Nat → Prop) (ram : Ram) (d : Nat),
    AddressSpace smallLayout live ram.toMemory d 8192 ∧
    ∃ result os', (sysClone smallLayout 0 0 0 4096).run (withSize 0 d 8192 ram) =
        .ok (result, os') ∧ result ≠ -1 ∧
      ∃ np, ThreadMade live 0 0 0 4096 (withSize 0 d 8192 ram) result os' np := by
  obtain ⟨live, ram, d, space, caller, supply, -⟩ :=
    exists_caller 8192 1 (by decide) (by decide)
  have accepted : Accepted ((withSize 0 d 8192 ram).pt.proc 0) 0 0 4096 :=
    accepted_withSize (by decide) (by decide) (by decide) (by decide)
  obtain ⟨result, os', ran, creates, made⟩ := clone_threadMade_iff caller accepted
  have succeeds := creates.mpr (creates_withSize supply (by decide))
  refine ⟨live, ram, d, space, result, os', ran, succeeds, (made succeeds).mpr ⟨?_, ?_⟩⟩
  · simp [withSize]
  · exact noLeftover_of_clean clean_withSize

/-- A thread is created on a stack that ends behind the memory of the process. -/
theorem clone_stack_outside : ∃ (live : Nat → Prop) (ram : Ram) (d : Nat),
    AddressSpace smallLayout live ram.toMemory d 5000 ∧
    ∃ result os', (sysClone smallLayout 0 0 0 1000).run (withSize 0 d 5000 ram) =
        .ok (result, os') ∧ result ≠ -1 ∧
      ∃ np, (os'.pt.proc np).pid = result ∧ (os'.pt.proc np).bsp = 1000 ∧
        (os'.pt.proc np).sz < 1000 + 4096 := by
  obtain ⟨live, ram, d, space, caller, supply, -⟩ :=
    exists_caller 5000 1 (by decide) (by decide)
  have accepted : Accepted ((withSize 0 d 5000 ram).pt.proc 0) 0 0 1000 :=
    accepted_withSize (by decide) (by decide) (by decide) (by decide)
  obtain ⟨hasSlot, supply, mapped⟩ : Creates smallLayout (withSize 0 d 5000 ram) 0 1000 :=
    creates_withSize supply (by decide)
  suffices ends : Wp (clone smallLayout 0 0 0 1000) (fun result os' => result ≠ -1 ∧
      ∃ np, (os'.pt.proc np).pid = result ∧ (os'.pt.proc np).bsp = 1000 ∧
        (os'.pt.proc np).sz < 1000 + 4096) (fun _ => False) (withSize 0 d 5000 ram) by
    obtain ⟨result, os', ran, made⟩ := ends.ends
    exact ⟨live, ram, d, space, result, os', (sysClone_run accepted).trans ran, made⟩
  refine wp_clone caller accepted.lt (fun full => absurd full hasSlot)
    (fun _ _ _ _ starved => absurd supply starved)
    (fun _ _ _ _ _ _ unmapped _ => absurd mapped unmapped)
    fun np pt frame answers ram' takes _ copied => ⟨?_, np, ?_⟩
  · simp [withSize]
  · rw [cloned_proc takes (takes.ne_of_used caller.used)]
    simp [withSize]

end Os

end Xv6
