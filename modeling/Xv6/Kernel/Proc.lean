import Xv6.Lib.Table

/-!
# The process table

The data of `proc.h` and of the table in `proc.c`.  A pointer to a `struct proc`
is a slot number; a null pointer is `none`.  The flag fields are only ever
assigned 0 and 1 and are Booleans here.

Page-sized memory is tracked only for the pages the process table itself points
to, the kernel stacks and the page directories.
-/

namespace Xv6

/-! ## Parameters -/

/-- Maximum number of processes. -/
abbrev nproc : Nat := 64

/-- Open files per process. -/
abbrev nofile : Nat := 16

/-- End of the user address space. -/
def usertop : Nat := 0xA0000

def pgsize : Nat := 4096

/-- Round a size up to a page boundary. -/
def pgroundup (size : Nat) : Nat := (size + pgsize - 1) / pgsize * pgsize

theorem le_pgroundup {size : Nat} : size ≤ pgroundup size := by
  simp only [pgroundup, pgsize]
  omega

theorem pgroundup_mono {oldsz newsz : Nat} (order : oldsz ≤ newsz) :
    pgroundup oldsz ≤ pgroundup newsz := by
  simp only [pgroundup, pgsize]
  omega

/-- An unsigned 32-bit word. -/
abbrev Uint := Fin (2 ^ 32)

/-- Wrap an integer to the range of an unsigned 32-bit word. -/
def toUint (value : Int) : Nat := (value % 2 ^ 32).toNat

/-- The largest `int`. -/
def intMax : Int := 2 ^ 31 - 1

/-- The values of type `int`. -/
def IsInt (value : Int) : Prop := -2 ^ 31 ≤ value ∧ value ≤ intMax

instance (value : Int) : Decidable (IsInt value) := inferInstanceAs (Decidable (_ ∧ _))

/-! ## Data -/

abbrev Slot := Fin nproc

inductive ProcState where
  | unused
  | embryo
  | sleeping
  | runnable
  | running
  | zombie
  deriving DecidableEq, Repr

/-- The states of a process that has a program to run. -/
def ProcState.Live (state : ProcState) : Prop :=
  state = .sleeping ∨ state = .runnable ∨ state = .running

instance (state : ProcState) : Decidable state.Live :=
  inferInstanceAs (Decidable (_ ∨ _ ∨ _))

namespace ProcState

@[simp] theorem live_sleeping : sleeping.Live := .inl rfl

@[simp] theorem live_runnable : runnable.Live := .inr (.inl rfl)

@[simp] theorem live_running : running.Live := .inr (.inr rfl)

@[simp] theorem not_live_unused : ¬unused.Live := by simp [Live]

@[simp] theorem not_live_embryo : ¬embryo.Live := by simp [Live]

@[simp] theorem not_live_zombie : ¬zombie.Live := by simp [Live]

theorem Live.ne_unused {state : ProcState} (live : state.Live) : state ≠ .unused := by
  rintro rfl
  simp at live

end ProcState

/-- The kernel objects whose addresses are passed to `sleep` and `wakeup`: the
tick counter, disk buffers, cached inodes, the two ends of a pipe and the
console input buffer. -/
inductive KernelObject where
  | ticks
  | buf (index : Nat)
  | inode (index : Nat)
  | pipeRead (index : Nat)
  | pipeWrite (index : Nat)
  | consoleInput
  deriving DecidableEq, Repr

/-- A sleep channel, an untyped pointer in the source.  `wait` and `join` sleep
on the address of the caller's own slot. -/
inductive Chan where
  | null
  | proc (slot : Slot)
  | object (object : KernelObject)
  deriving DecidableEq, Repr

/-- A possibly null slot pointer used as a channel. -/
def Chan.ofParent : Option Slot → Chan
  | none => .null
  | some slot => .proc slot

/-- The saved user registers. -/
structure Trapframe where
  edi : Nat := 0
  esi : Nat := 0
  ebp : Nat := 0
  ebx : Nat := 0
  edx : Nat := 0
  ecx : Nat := 0
  eax : Nat := 0
  es : Nat := 0
  ds : Nat := 0
  eip : Nat := 0
  cs : Nat := 0
  eflags : Nat := 0
  esp : Nat := 0
  ss : Nat := 0
  deriving DecidableEq, Repr

/-- `struct proc`, initially zero.  Open files and the working directory are the
numbers of their entries in the file table and the inode cache. -/
structure Proc where
  sz : Nat := 0
  pgdir : Nat := 0
  kstack : Nat := 0
  state : ProcState := .unused
  pid : Int := 0
  parent : Option Slot := none
  tf : Trapframe := {}
  chan : Chan := .null
  killed : Bool := false
  ofile : Fin nofile → Option Nat := fun _ => none
  cwd : Option Nat := none
  name : String := ""
  isParked : Bool := false
  immediateUnpark : Bool := false
  setPark : Bool := false
  isThread : Bool := false
  bsp : Nat := 0

/-- The table with the variables next to it.  `past` is the memory behind the
last slot, read as one more `struct proc`: `unpark` reaches it when no slot has
the pid it looks for.  `pages` tells which pages are allocated. -/
structure Ptable where
  proc : Slot → Proc
  past : Proc
  initproc : Slot
  nextpid : Int
  pages : Nat → Bool

namespace Ptable

/-- Change one slot. -/
def modify (pt : Ptable) (slot : Slot) (change : Proc → Proc) : Ptable :=
  { pt with proc := Table.set pt.proc slot change }

section Modify

variable {pt : Ptable} (slot : Slot) (change : Proc → Proc)

theorem modify_proc (other : Slot) :
    (pt.modify slot change).proc other =
      if other = slot then change (pt.proc other) else pt.proc other := rfl

@[simp] theorem modify_self : (pt.modify slot change).proc slot = change (pt.proc slot) := by
  simp [modify]

theorem modify_of_ne {slot other : Slot} {change : Proc → Proc} (different : other ≠ slot) :
    (pt.modify slot change).proc other = pt.proc other :=
  Table.set_of_ne different

theorem modify_congr {slot : Slot} {change change' : Proc → Proc}
    (agree : change (pt.proc slot) = change' (pt.proc slot)) :
    pt.modify slot change = pt.modify slot change' := by
  simp only [modify, mk.injEq, and_true]
  funext other
  by_cases same : other = slot
  · subst same
    simpa using agree
  · simp [Table.set_of_ne same]

@[simp] theorem modify_past : (pt.modify slot change).past = pt.past := rfl

@[simp] theorem modify_initproc : (pt.modify slot change).initproc = pt.initproc := rfl

@[simp] theorem modify_nextpid : (pt.modify slot change).nextpid = pt.nextpid := rfl

@[simp] theorem modify_pages : (pt.modify slot change).pages = pt.pages := rfl

end Modify

/-! ## Pages -/

/-- `kalloc` returns null or some page that is not allocated; which one is the
choice of the free list and an argument here.  A page that is already allocated
is no possible result. -/
def kalloc (pt : Ptable) (page : Nat) : Option Ptable :=
  if page = 0 then
    some pt
  else if pt.pages page then
    none
  else
    some { pt with pages := fun other => if other = page then true else pt.pages other }

/-- Give a page back. -/
def kfree (pt : Ptable) (page : Nat) : Ptable :=
  { pt with pages := fun other => if other = page then false else pt.pages other }

/-- Free an address space.  Its user frames and page tables are not tracked; the
page directory is. -/
def freevm (pt : Ptable) (pgdir : Nat) : Ptable := pt.kfree pgdir

@[simp] theorem kfree_proc (pt : Ptable) (page : Nat) : (pt.kfree page).proc = pt.proc := rfl

@[simp] theorem freevm_proc (pt : Ptable) (pgdir : Nat) : (pt.freevm pgdir).proc = pt.proc := rfl

theorem kalloc_some {pt pt' : Ptable} {page : Nat} (allocated : pt.kalloc page = some pt') :
    pt'.proc = pt.proc ∧ pt'.past = pt.past ∧ pt'.initproc = pt.initproc ∧
      pt'.nextpid = pt.nextpid ∧
      (page ≠ 0 → pt.pages page = false) ∧
      ∀ other, pt'.pages other =
        if page ≠ 0 ∧ other = page then true else pt.pages other := by
  unfold kalloc at allocated
  split at allocated
  · cases allocated
    simp_all
  · split at allocated
    · cases allocated
    · cases allocated
      simp_all

end Ptable

end Xv6
