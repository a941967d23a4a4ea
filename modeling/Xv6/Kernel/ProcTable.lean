import Xv6.Kernel.Proc

/-!
# The operations of `proc.c`

Every operation is a function on the process table that performs one section the
source runs under `ptable.lock`, or one stretch of `fork` and `clone` between
two such sections.  The acting process, `proc` in the source, is the argument
`self`.  Results that depend on memory (`kalloc`, `copyuvm`, `allocuvm`,
`copyout`) are arguments.
-/

namespace Xv6.Ptable

/-! ## Creating processes and threads -/

/-- The locked section of `allocproc`: take the first unused slot. -/
def allocproc (pt : Ptable) : Option (Slot × Ptable) :=
  match Table.find fun slot => decide ((pt.proc slot).state = .unused) with
  | none => none
  | some np =>
    some (np, { pt.modify np fun entry =>
      { entry with state := .embryo, pid := pt.nextpid } with
        nextpid := pt.nextpid + 1 })

/-- The rest of `allocproc`, with the result of `kalloc`. -/
def allocKstack (pt : Ptable) (np : Slot) (kstack : Nat) : Ptable :=
  if kstack = 0 then
    pt.modify np fun entry => { entry with kstack := 0, state := .unused }
  else
    pt.modify np fun entry => { entry with kstack := kstack }

/-- The failure path of `clone`. -/
def abandon (pt : Ptable) (np : Slot) : Ptable :=
  (pt.kfree (pt.proc np).kstack).modify np fun entry =>
    { entry with kstack := 0, state := .unused }

/-- The failure path of `fork`, which has stored the null page directory. -/
def abandonFork (pt : Ptable) (np : Slot) : Ptable :=
  (pt.kfree (pt.proc np).kstack).modify np fun entry =>
    { entry with pgdir := 0, kstack := 0, state := .unused }

/-- Descriptors are copied only where the caller has one, so that leftovers of
the slot's previous user survive elsewhere. -/
def dupFiles (caller entry : Proc) (fd : Fin nofile) : Option Nat :=
  match caller.ofile fd with
  | some file => some file
  | none => entry.ofile fd

/-- `fork` from `copyuvm`, which returned `pgdir`, to the copy of `cwd`. -/
def forkCopy (pt : Ptable) (self np : Slot) (pgdir : Nat) : Ptable :=
  pt.modify np fun entry =>
    { entry with
      pgdir := pgdir
      sz := (pt.proc self).sz
      parent := some self
      tf := { (pt.proc self).tf with eax := 0 }
      isThread := false
      ofile := dupFiles (pt.proc self) entry
      cwd := (pt.proc self).cwd }

/-- `clone` from the assignment of `isThread` to the copy of `cwd`. -/
def cloneCopy (pt : Ptable) (self np : Slot) : Ptable :=
  pt.modify np fun entry =>
    { entry with
      isThread := true
      pgdir := (pt.proc self).pgdir
      sz := (pt.proc self).sz
      parent := some self
      tf := (pt.proc self).tf
      ofile := dupFiles (pt.proc self) entry
      cwd := (pt.proc self).cwd }

/-- `clone` after a successful `copyout` of the three stack words. -/
def cloneStack (pt : Ptable) (np : Slot) (fn ustack : Nat) : Ptable :=
  pt.modify np fun entry =>
    { entry with
      tf := { entry.tf with eip := fn, esp := toUint (ustack + 4096 - 12) }
      bsp := ustack }

/-- The last assignments of `fork` and `clone`. -/
def publish (pt : Ptable) (self np : Slot) : Ptable :=
  pt.modify np fun entry =>
    { entry with state := .runnable, name := (pt.proc self).name }

/-! ## Sleeping and waking -/

/-- The iteration of the loop of `wakeup1` for one slot. -/
def wakeOn (chan : Chan) (entry : Proc) : Proc :=
  if entry.state = .sleeping ∧ entry.chan = chan then { entry with state := .runnable }
  else entry

/-- Wake up all processes sleeping on a channel. -/
def wakeup1 (table : Slot → Proc) (chan : Chan) : Slot → Proc :=
  Table.loop (fun slot table => Table.set table slot (wakeOn chan)) table

def wakeup (pt : Ptable) (chan : Chan) : Ptable :=
  { pt with proc := wakeup1 pt.proc chan }

/-- The part of `sleep` before `sched`. -/
def sleep (pt : Ptable) (self : Slot) (chan : Chan) : Ptable :=
  pt.modify self fun entry => { entry with chan := chan, state := .sleeping }

/-- The part of `sleep` after `sched`. -/
def awake (pt : Ptable) (self : Slot) : Ptable :=
  pt.modify self fun entry => { entry with chan := .null }

/-- The scheduler switches to a process. -/
def dispatch (pt : Ptable) (slot : Slot) : Ptable :=
  pt.modify slot fun entry => { entry with state := .running }

def yield (pt : Ptable) (self : Slot) : Ptable :=
  pt.modify self fun entry => { entry with state := .runnable }

/-! ## Exit and its observers -/

/-- One iteration of the loop of `exit` that hands the children over. -/
def reparent (self initproc : Slot) (slot : Slot) (table : Slot → Proc) : Slot → Proc :=
  if (table slot).parent = some self then
    let table := Table.set table slot fun entry => { entry with parent := some initproc }
    if (table slot).state = .zombie then wakeup1 table (.proc initproc) else table
  else
    table

/-- `exit` of a process other than `initproc`. -/
def exit (pt : Ptable) (self : Slot) : Ptable :=
  let closed := Table.set pt.proc self fun entry =>
    { entry with ofile := fun _ => none, cwd := none }
  let woken := wakeup1 closed (Chan.ofParent (closed self).parent)
  let orphaned := Table.loop (reparent self pt.initproc) woken
  { pt with proc := Table.set orphaned self fun entry => { entry with state := .zombie } }

/-- What one pass of the loops of `wait` and `join` ends in. -/
inductive Scan where
  | reaped (pid : Int) (stack : Nat)
  | failed
  | sleeps
  deriving DecidableEq, Repr

/-- The assignments `wait` and `join` make to the slot they reap. -/
def release (entry : Proc) : Proc :=
  { entry with
    kstack := 0, state := .unused, pid := 0, parent := none, name := "", killed := false }

/-- The first zombie child of the wanted kind. -/
def zombieChild (pt : Ptable) (self : Slot) (wanted : Proc → Bool) : Option Slot :=
  Table.find fun slot => decide ((pt.proc slot).parent = some self ∧
    (pt.proc slot).state = .zombie) && wanted (pt.proc slot)

/-- One pass of the loops of `wait` and `join`: reap the first zombie child of
the wanted kind, else fail if no child counts or the caller is killed, else
sleep. -/
def scan (pt : Ptable) (self : Slot) (wanted counts : Proc → Bool)
    (reap : Slot → Ptable × Scan) : Ptable × Scan :=
  match pt.zombieChild self wanted with
  | some child => reap child
  | none =>
    if (¬∃ slot, (pt.proc slot).parent = some self ∧ counts (pt.proc slot) = true) ∨
        (pt.proc self).killed then
      (pt, .failed)
    else
      (pt.sleep self (.proc self), .sleeps)

/-- One pass of `wait`.  Every child counts, a thread too. -/
def waitScan (pt : Ptable) (self : Slot) : Ptable × Scan :=
  pt.scan self (fun entry => !entry.isThread) (fun _ => true) fun child =>
    (((pt.kfree (pt.proc child).kstack).freevm (pt.proc child).pgdir).modify child release,
      .reaped (pt.proc child).pid 0)

/-- One pass of `join`, which keeps the address space and returns the thread's
stack. -/
def joinScan (pt : Ptable) (self : Slot) : Ptable × Scan :=
  pt.scan self (fun entry => entry.isThread) (fun entry => entry.isThread) fun child =>
    ((pt.kfree (pt.proc child).kstack).modify child release,
      .reaped (pt.proc child).pid (pt.proc child).bsp)

/-! ## Address spaces -/

/-- What `exec` installs: the new page directory, its size, the entry point, the
stack pointer and the program name. -/
structure Image where
  pgdir : Nat
  sz : Nat
  entry : Nat
  sp : Nat
  name : String

/-- The commit of `exec`. -/
def exec (pt : Ptable) (self : Slot) (image : Image) : Ptable :=
  (pt.modify self fun entry =>
    { entry with
      name := image.name
      pgdir := image.pgdir
      sz := image.sz
      tf := { entry.tf with eip := image.entry, esp := image.sp } }).freevm
    (pt.proc self).pgdir

/-- The size `allocuvm` returns; `memory` tells whether every `kalloc` succeeds. -/
def allocuvm (oldsz newsz : Nat) (memory : Bool) : Nat :=
  if newsz > usertop then 0
  else if newsz < oldsz then oldsz
  else if pgroundup oldsz < newsz ∧ memory = false then 0
  else newsz

/-- The size `deallocuvm` returns. -/
def deallocuvm (oldsz newsz : Nat) : Nat :=
  if newsz ≥ oldsz then oldsz else newsz

/-- The size `growproc` computes before it updates the table; zero is failure. -/
def grownSize (sz : Nat) (n : Int) (memory : Bool) : Nat :=
  if n > 0 then allocuvm sz (toUint (sz + n)) memory
  else if n < 0 then deallocuvm sz (toUint (sz + n))
  else sz

/-- The iteration of the loop of `growproc` for one slot. -/
def resize (self : Slot) (caller : Proc) (sz : Nat) (slot : Slot) (entry : Proc) : Proc :=
  let entry :=
    if entry.parent = some self ∧ entry.isThread = true then { entry with sz := sz }
    else entry
  let entry :=
    if caller.isThread = true ∧ caller.parent = some slot then { entry with sz := sz }
    else entry
  if entry.parent = caller.parent ∧ entry.isThread = true then { entry with sz := sz }
  else entry

/-- `growproc` and its result. -/
def growproc (pt : Ptable) (self : Slot) (n : Int) (memory : Bool) : Ptable × Int :=
  let sz := grownSize (pt.proc self).sz n memory
  if n ≠ 0 ∧ sz = 0 then
    (pt, -1)
  else
    let grown := Table.set pt.proc self fun entry => { entry with sz := sz }
    ({ pt with proc := Table.loop (fun slot table =>
        Table.set table slot (resize self (pt.proc self) sz slot)) grown }, 0)

/-! ## Parking -/

def setpark (pt : Ptable) (self : Slot) : Ptable × Int :=
  if (pt.proc self).immediateUnpark = false ∧ (pt.proc self).setPark = false then
    (pt.modify self fun entry => { entry with setPark := true }, 0)
  else
    (pt, -1)

/-- `park` up to the call of `sched`, which is made only if the process is now
sleeping. -/
def park (pt : Ptable) (self : Slot) : Ptable :=
  pt.modify self fun entry =>
    if entry.immediateUnpark = false then
      { entry with state := .sleeping, isParked := true, setPark := false }
    else
      { entry with immediateUnpark := false, setPark := false }

/-- Wake up the parked process with a given pid. -/
def unpark1 (pt : Ptable) (pid : Int) : Ptable × Int :=
  match Table.find fun slot => decide ((pt.proc slot).state = .sleeping ∧
      (pt.proc slot).isParked = true ∧ (pt.proc slot).pid = pid) with
  | some slot =>
    (pt.modify slot fun entry => { entry with state := .runnable, isParked := false }, pid)
  | none => (pt, -1)

/-- `unpark`.  When no slot has the pid the search pointer ends behind the table
and is never null, so the flags are read from, and written to, what lies there. -/
def unpark (pt : Ptable) (pid : Int) : Ptable × Int :=
  let found := Table.find fun slot => decide ((pt.proc slot).pid = pid)
  let entry := match found with
    | some slot => pt.proc slot
    | none => pt.past
  if entry.setPark = false ∧ entry.isParked = false then
    (pt, -1)
  else if entry.setPark = true ∧ entry.isParked = false then
    match found with
    | some slot => (pt.modify slot fun entry => { entry with immediateUnpark := true }, -1)
    | none => ({ pt with past := { pt.past with immediateUnpark := true } }, -1)
  else
    let (woken, result) := pt.unpark1 pid
    (woken, if result ≠ -1 then 0 else -1)

def kill (pt : Ptable) (pid : Int) : Ptable × Int :=
  match Table.find fun slot => decide ((pt.proc slot).pid = pid) with
  | some slot =>
    (pt.modify slot fun entry =>
      { entry with
        killed := true
        state := if entry.state = .sleeping then .runnable else entry.state }, 0)
  | none => (pt, -1)

/-! ## What the loops do

The three loops that write to every slot, in closed form. -/

theorem wakeup1_apply (table : Slot → Proc) (chan : Chan) (slot : Slot) :
    wakeup1 table chan slot = wakeOn chan (table slot) := by
  rw [wakeup1, Table.loop_set fun _ => wakeOn chan]

theorem wakeOn_eq (chan : Chan) (entry : Proc) :
    wakeOn chan entry =
      { entry with
        state :=
          if entry.state = .sleeping ∧ entry.chan = chan then .runnable
          else entry.state } := by
  unfold wakeOn
  split <;> rfl

@[simp] theorem wakeOn_zombie {chan : Chan} {entry : Proc} :
    (wakeOn chan entry).state = .zombie ↔ entry.state = .zombie := by
  unfold wakeOn
  split
  next sleeps => simp [sleeps.1]
  next => rfl

theorem reparent_apply (self initproc head : Slot) (table : Slot → Proc) (slot : Slot) :
    reparent self initproc head table slot =
      let entry := table slot
      { entry with
        parent :=
          if slot = head ∧ entry.parent = some self then some initproc else entry.parent
        state :=
          if (entry.state = .sleeping ∧ entry.chan = .proc initproc) ∧
              (table head).parent = some self ∧ (table head).state = .zombie then .runnable
          else entry.state } := by
  by_cases child : (table head).parent = some self
  · by_cases dead : (table head).state = .zombie
    · by_cases same : slot = head
      · subst same
        simp [reparent, child, dead, wakeup1_apply, wakeOn_eq]
      · simp [reparent, child, dead, wakeup1_apply, wakeOn_eq, same, Table.set_of_ne]
    · by_cases same : slot = head
      · subst same
        simp [reparent, child, dead]
      · simp [reparent, child, dead, same, Table.set_of_ne]
  · by_cases same : slot = head
    · subst same
      simp [reparent, child]
    · simp [reparent, child, same]

/-- What the loop of `exit` has done to the table once it has visited the slots
in `handled`. -/
def orphaned (self initproc : Slot) (handled : List Slot) (table : Slot → Proc)
    (slot : Slot) : Proc :=
  let entry := table slot
  { entry with
    parent :=
      if slot ∈ handled ∧ entry.parent = some self then some initproc else entry.parent
    state :=
      if (entry.state = .sleeping ∧ entry.chan = .proc initproc) ∧
          ∃ child ∈ handled, (table child).parent = some self ∧
            (table child).state = .zombie then .runnable
      else entry.state }

private theorem foldl_reparent (self initproc : Slot) (slots : List Slot)
    (nodup : slots.Nodup) (table : Slot → Proc) :
    slots.foldl (fun table slot => reparent self initproc slot table) table =
      orphaned self initproc slots table := by
  induction slots generalizing table with
  | nil =>
    funext slot
    simp [orphaned]
  | cons head rest ih =>
    obtain ⟨fresh, restNodup⟩ := List.nodup_cons.mp nodup
    have later : ∀ child ∈ rest,
        ((reparent self initproc head table child).parent = some self ∧
          (reparent self initproc head table child).state = .zombie ↔
        (table child).parent = some self ∧ (table child).state = .zombie) := by
      intro child member
      have different : child ≠ head := fun same => fresh (same ▸ member)
      rw [reparent_apply]
      simp only [different, false_and, if_false]
      split
      next woken => simp [woken.1.1]
      next => rfl
    have laterDead : (∃ child ∈ rest,
        (reparent self initproc head table child).parent = some self ∧
          (reparent self initproc head table child).state = .zombie) ↔
        ∃ child ∈ rest, (table child).parent = some self ∧
          (table child).state = .zombie :=
      exists_congr fun child => and_congr_right (later child)
    rw [List.foldl_cons, ih restNodup]
    funext slot
    simp only [orphaned, laterDead]
    simp only [reparent_apply]
    congr 1
    · by_cases asleep : (table slot).state = .sleeping ∧
          (table slot).chan = .proc initproc
      · by_cases dead : (table head).parent = some self ∧ (table head).state = .zombie
        · simp [asleep, dead]
        · simp [asleep, dead]
      · simp [asleep]
    · by_cases same : slot = head
      · subst same
        simp [fresh]
      · simp [same]

theorem loop_reparent (self initproc : Slot) (table : Slot → Proc) :
    Table.loop (reparent self initproc) table =
      orphaned self initproc (List.finRange nproc) table := by
  exact foldl_reparent self initproc _ (List.nodup_finRange nproc) table

/-- The parent of an entry after `exit`. -/
def heir (pt : Ptable) (self : Slot) (entry : Proc) : Option Slot :=
  if entry.parent = some self then some pt.initproc else entry.parent

/-- The sleepers that `exit` wakes up: on the channel of the parent, and on that
of `initproc` if it inherits a zombie. -/
def ExitWakes (pt : Ptable) (self : Slot) (entry : Proc) : Prop :=
  entry.state = .sleeping ∧
    (entry.chan = Chan.ofParent (pt.proc self).parent ∨
      entry.chan = .proc pt.initproc ∧
        ∃ child, (pt.proc child).parent = some self ∧ (pt.proc child).state = .zombie)

instance (pt : Ptable) (self : Slot) (entry : Proc) : Decidable (pt.ExitWakes self entry) :=
  inferInstanceAs (Decidable (_ ∧ _))

theorem exit_self (pt : Ptable) (self : Slot) :
    (pt.exit self).proc self =
      let entry := pt.proc self
      { entry with
        ofile := fun _ => none
        cwd := none
        parent := pt.heir self entry
        state := .zombie } := by
  simp [exit, loop_reparent, orphaned, wakeup1_apply, wakeOn_eq, heir]

variable {pt : Ptable}

theorem exit_other {self slot : Slot} (different : slot ≠ self)
    (running : (pt.proc self).state = .running) :
    (pt.exit self).proc slot =
      let entry := pt.proc slot
      { entry with
        parent := pt.heir self entry
        state := if pt.ExitWakes self entry then .runnable else entry.state } := by
  have dead : ∀ child,
      ((wakeup1 (Table.set pt.proc self fun entry =>
          { entry with ofile := fun _ => none, cwd := none })
        (Chan.ofParent (pt.proc self).parent) child).parent = some self ∧
      (wakeup1 (Table.set pt.proc self fun entry =>
          { entry with ofile := fun _ => none, cwd := none })
        (Chan.ofParent (pt.proc self).parent) child).state = .zombie ↔
      (pt.proc child).parent = some self ∧ (pt.proc child).state = .zombie) := by
    intro child
    rw [wakeup1_apply, wakeOn_zombie]
    by_cases same : child = self
    · subst same
      simp [wakeOn_eq, running]
    · simp [wakeOn_eq, Table.set_of_ne same]
  simp only [exit, loop_reparent, Table.set_self, Table.set_of_ne different, orphaned, dead,
    List.mem_finRange, true_and]
  simp only [wakeup1_apply, wakeOn_eq, Table.set_of_ne different, heir, ExitWakes]
  congr 1
  by_cases asleep : (pt.proc slot).state = .sleeping
  · by_cases parent : (pt.proc slot).chan = Chan.ofParent (pt.proc self).parent
    · simp [asleep, parent]
    · simp [asleep, parent]
  · simp [asleep]

/-- The slots whose size the loop of `growproc` rewrites: the caller's threads,
the parent of a calling thread, and the threads of the caller's parent. -/
def Resizes (self : Slot) (caller : Proc) (slot : Slot) (entry : Proc) : Prop :=
  (entry.parent = some self ∧ entry.isThread = true) ∨
    (caller.isThread = true ∧ caller.parent = some slot) ∨
    (entry.parent = caller.parent ∧ entry.isThread = true)

instance (self : Slot) (caller : Proc) (slot : Slot) (entry : Proc) :
    Decidable (Resizes self caller slot entry) :=
  inferInstanceAs (Decidable (_ ∨ _ ∨ _))

theorem resize_eq (self : Slot) (caller : Proc) (sz : Nat) (slot : Slot) (entry : Proc) :
    resize self caller sz slot entry =
      { entry with sz := if Resizes self caller slot entry then sz else entry.sz } := by
  by_cases own : entry.parent = some self ∧ entry.isThread = true
  · simp [resize, Resizes, own]
  · by_cases up : caller.isThread = true ∧ caller.parent = some slot
    · simp [resize, Resizes, own, up]
    · by_cases sibling : entry.parent = caller.parent ∧ entry.isThread = true
      · have rewritten : Resizes self caller slot entry := .inr (.inr sibling)
        simp only [resize, if_neg own, if_neg up, if_pos sibling, if_pos rewritten]
      · have kept : ¬Resizes self caller slot entry := by
          rintro (case | case | case)
          · exact own case
          · exact up case
          · exact sibling case
        simp only [resize, if_neg own, if_neg up, if_neg sibling, if_neg kept]

/-- `allocproc` takes an unused slot, gives it the next pid and changes no other. -/
theorem allocproc_some {pt' : Ptable} {np : Slot} (taken : pt.allocproc = some (np, pt')) :
    (pt.proc np).state = .unused ∧
      pt'.proc np = { pt.proc np with state := .embryo, pid := pt.nextpid } ∧
      ∀ slot, slot ≠ np → pt'.proc slot = pt.proc slot := by
  unfold allocproc at taken
  split at taken
  · cases taken
  next slot found =>
    cases taken
    refine ⟨of_decide_eq_true (Table.find_some found), by simp, fun slot different => ?_⟩
    simp only [modify_of_ne different]

theorem growproc_proc {self : Slot} {n : Int} {memory : Bool}
    (succeeds : ¬(n ≠ 0 ∧ grownSize (pt.proc self).sz n memory = 0)) (slot : Slot) :
    ((pt.growproc self n memory).1).proc slot =
      let entry := pt.proc slot
      { entry with
        sz :=
          if slot = self ∨ Resizes self (pt.proc self) slot entry then
            grownSize (pt.proc self).sz n memory
          else entry.sz } := by
  rw [growproc, if_neg succeeds]
  simp only [Table.loop_set, resize_eq]
  by_cases same : slot = self
  · subst same
    simp
  · simp [Table.set_of_ne same, same]

/-! ## What the searches can find -/

theorem scan_cases (pt : Ptable) (self : Slot) (wanted counts : Proc → Bool)
    (reap : Slot → Ptable × Scan) :
    (∃ child, (pt.proc child).parent = some self ∧ (pt.proc child).state = .zombie ∧
      wanted (pt.proc child) = true ∧ pt.scan self wanted counts reap = reap child) ∨
    ((∀ child, (pt.proc child).parent = some self → (pt.proc child).state = .zombie →
        wanted (pt.proc child) = false) ∧
      (pt.scan self wanted counts reap = (pt, .failed) ∨
        pt.scan self wanted counts reap = (pt.sleep self (.proc self), .sleeps))) := by
  unfold scan
  split
  next child found =>
    have met := Table.find_some found
    simp only [Bool.and_eq_true, decide_eq_true_eq] at met
    exact .inl ⟨child, met.1.1, met.1.2, met.2, rfl⟩
  next found =>
    have unmet := Table.find_eq_none.mp found
    refine .inr ⟨?_, ?_⟩
    · intro child parent dead
      simpa [parent, dead] using unmet child
    · split
      · exact .inl rfl
      · exact .inr rfl

theorem unpark_cases (pt : Ptable) (pid : Int) :
    ((pt.unpark pid).1 = pt) ∨
    ((pt.unpark pid).1 = { pt with past := { pt.past with immediateUnpark := true } }) ∨
    (∃ slot, (pt.proc slot).pid = pid ∧ (pt.proc slot).setPark = true ∧
      (pt.proc slot).isParked = false ∧
      (pt.unpark pid).1 =
        pt.modify slot fun entry => { entry with immediateUnpark := true }) ∨
    (∃ slot, (pt.proc slot).pid = pid ∧ (pt.proc slot).state = .sleeping ∧
      (pt.proc slot).isParked = true ∧
      (pt.unpark pid).1 =
        pt.modify slot fun entry =>
          { entry with state := .runnable, isParked := false }) := by
  have wakes : (pt.unpark1 pid).1 = pt ∨
      ∃ slot, (pt.proc slot).pid = pid ∧ (pt.proc slot).state = .sleeping ∧
        (pt.proc slot).isParked = true ∧
        (pt.unpark1 pid).1 = pt.modify slot fun entry =>
          { entry with state := .runnable, isParked := false } := by
    unfold unpark1
    split
    next slot found =>
      have met := of_decide_eq_true (Table.find_some found)
      exact .inr ⟨slot, met.2.2, met.1, met.2.1, rfl⟩
    next => exact .inl rfl
  unfold unpark
  cases found : Table.find fun slot => decide ((pt.proc slot).pid = pid) with
  | none =>
    simp only
    split
    · exact .inl rfl
    · split
      · exact .inr (.inl rfl)
      · rcases wakes with same | woken
        · exact .inl same
        · exact .inr (.inr (.inr woken))
  | some slot =>
    have met := of_decide_eq_true (Table.find_some found)
    simp only
    split
    · exact .inl rfl
    · split
      next armed => exact .inr (.inr (.inl ⟨slot, met, armed.1, armed.2, rfl⟩))
      next =>
        rcases wakes with same | woken
        · exact .inl same
        · exact .inr (.inr (.inr woken))

theorem kill_cases (pt : Ptable) (pid : Int) :
    (pt.kill pid).1 = pt ∨
    ∃ slot, Table.find (fun slot => decide ((pt.proc slot).pid = pid)) = some slot ∧
      (pt.proc slot).pid = pid ∧
      (pt.kill pid).1 = pt.modify slot fun entry =>
        { entry with
          killed := true
          state := if entry.state = .sleeping then .runnable else entry.state } := by
  unfold kill
  split
  next slot found =>
    exact .inr ⟨slot, found, of_decide_eq_true (Table.find_some found), rfl⟩
  next => exact .inl rfl

end Xv6.Ptable
