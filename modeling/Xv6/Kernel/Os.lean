import Xv6.Fs.InodeCache
import Xv6.Fs.Tree
import Xv6.Vm.Copyout

/-!
# The process table and the memory together

`growproc`, `fork` and `clone` as they run from their first to their last statement, with
the page tables, the contents of user memory and the reference counts they change.  Each
call runs without another one in between.
-/

namespace Xv6

open Program

/-! ## The state -/

theorem Executable.empty_small : ([] : List UInt8).length ≤ maxfile * bsize := Nat.zero_le _

/-- A file without bytes. -/
def Executable.empty : Executable := ⟨[], empty_small⟩

/-- The inodes of the disk: the flag `I_VALID` of the copy in the cache, what directories
have in them, and what files have. -/
structure Inodes where
  ninodes : Nat := 200
  valid : Nat → Bool := fun _ => false
  node : FileTree.Nodes := fun _ => {}
  data : Nat → Executable := fun _ => .empty

/-- The process table, the memory, the reference counts of open files and of inodes by their
numbers, with the flag `I_BUSY` of the inodes, and the inodes themselves. -/
structure Os where
  pt : Ptable
  ram : Ram
  fileRef : Nat → Nat
  inodeRef : Nat → Nat
  inodeBusy : Nat → Bool := fun _ => false
  inodes : Inodes := {}

/-- Why a call does not return. -/
inductive Halt where
  | vm (stop : Stop)
  /-- The panic `filedup`. -/
  | filedup
  /-- A null inode is used. -/
  | nullInode
  /-- The panic `ilock`. -/
  | ilock
  /-- The panic `iunlock`. -/
  | iunlock
  /-- The panic `iput busy`. -/
  | iputBusy
  /-- `ilock` sleeps until another process unlocks the inode. -/
  | sleeps
  /-- The panic `ilock: no type`. -/
  | noType
  /-- The panic `iget: no inodes`. -/
  | noInodes
  /-- `readi` calls the function of a device. -/
  | device
  deriving DecidableEq

abbrev OsProgram := Program Os Halt

namespace Os

/-- A function on the memory. -/
def liftRam {α : Type} (x : RamProgram α) : OsProgram α := fun os =>
  match x.run os.ram with
  | .ok (value, ram) => .ok (value, { os with ram := ram })
  | .error stop => .error (.vm stop)

/-- A change of the process table. -/
def modifyPt (change : Ptable → Ptable) : OsProgram Unit :=
  modify fun os => { os with pt := change os.pt }

variable {stops : Halt → Prop}

theorem wp_liftRam {α : Type} {x : RamProgram α} {post : α → Os → Prop}
    {os : Os} : Wp (liftRam x) post stops os ↔
      Wp x (fun value ram => post value { os with ram := ram }) (fun stop => stops (.vm stop))
        os.ram := by
  simp only [Wp, liftRam, StateT.run]
  cases x os.ram <;> rfl

@[simp] theorem wp_modifyPt {change : Ptable → Ptable} {post : Unit → Os → Prop} {os : Os} :
    Wp (modifyPt change) post stops os ↔ post () { os with pt := change os.pt } :=
  Iff.rfl

variable (layout : Layout)

/-! ## `growproc` -/

/-- The assignments to `sz` at the end of `growproc`. -/
def resized (pt : Ptable) (self : Slot) (sz : Nat) : Ptable :=
  let grown := Table.set pt.proc self fun entry => { entry with sz := sz }
  { pt with proc := Table.loop (fun slot table =>
      Table.set table slot (Ptable.resize self (pt.proc self) sz slot)) grown }

/-- The end of `growproc`, with the size that `allocuvm` or `deallocuvm` returned. -/
def finishGrowproc (self : Slot) (n : Int) (sz : Nat) : OsProgram Int :=
  if n ≠ 0 ∧ sz = 0 then pure (-1)
  else do
    modifyPt fun pt => resized pt self sz
    pure 0

def growproc (self : Slot) (n : Int) : OsProgram Int := do
  let caller := (← get).pt.proc self
  let sz ←
    if n > 0 then
      liftRam (Ram.allocuvm layout caller.pgdir caller.sz (toUint (caller.sz + n)))
    else if n < 0 then
      liftRam (Ram.lift (deallocuvm layout caller.pgdir caller.sz (toUint (caller.sz + n))))
    else pure caller.sz
  finishGrowproc self n sz

/-! ## `fork` and `clone` -/

/-- What the kernel stacks are allocated for: each is, like a page directory, a page of its
own. -/
def kernelStack : Owner := .directory

def allocproc : OsProgram (Option Slot) := do
  match (← get).pt.allocproc with
  | none => pure none
  | some (np, pt) =>
    modifyPt fun _ => pt
    match ← liftRam (Ram.lift (kalloc layout kernelStack)) with
    | none =>
      modifyPt (·.allocKstack np 0)
      pure none
    | some kstack =>
      modifyPt (·.allocKstack np kstack)
      pure (some np)

def filedup (file : Nat) : OsProgram Unit := do
  if (← get).fileRef file < 1 then throw .filedup
  modify fun os => { os with fileRef := Function.update os.fileRef file (os.fileRef file + 1) }

def idup : Option Nat → OsProgram Unit
  | none => throw .nullInode
  | some inode => modify fun os =>
    { os with inodeRef := Function.update os.inodeRef inode (os.inodeRef inode + 1) }

/-- The loop of `fork` and `clone` over the descriptors. -/
def dupFiles (caller : Proc) : List (Fin nofile) → OsProgram Unit
  | [] => pure ()
  | fd :: rest => do
      match caller.ofile fd with
      | none => pure ()
      | some file => filedup file
      dupFiles caller rest

/-- The way out of `fork` and `clone` when they fail. -/
def giveUp (np : Slot) (abandon : Ptable → Ptable) : OsProgram Int := do
  let kstack := ((← get).pt.proc np).kstack
  liftRam (Ram.lift (kfree layout kstack))
  modifyPt abandon
  pure (-1)

def fork (self : Slot) : OsProgram Int := do
  match ← allocproc layout with
  | none => pure (-1)
  | some np =>
    let caller := (← get).pt.proc self
    match ← liftRam (Ram.copyuvm layout caller.pgdir caller.sz) with
    | none => giveUp layout np (·.abandonFork np)
    | some pgdir =>
      dupFiles caller (List.finRange nofile)
      idup caller.cwd
      modifyPt fun pt => (pt.forkCopy self np pgdir).publish self np
      pure ((← get).pt.proc np).pid

/-- The words that `clone` puts on the new stack. -/
def threadStack (arg : Nat) : List UInt8 :=
  wordBytes 0xffffffff ++ wordBytes arg ++ wordBytes 0

def clone (self : Slot) (fn arg ustack : Nat) : OsProgram Int := do
  match ← allocproc layout with
  | none => pure (-1)
  | some np =>
    let caller := (← get).pt.proc self
    dupFiles caller (List.finRange nofile)
    idup caller.cwd
    modifyPt fun pt => pt.cloneCopy self np
    let sp := toUint (ustack + 4096 - 12)
    if (← liftRam (Ram.copyout layout caller.pgdir sp (threadStack arg))) < 0 then
      giveUp layout np (·.abandon np)
    else
      modifyPt fun pt => (pt.cloneStack np fn ustack).publish self np
      pure ((← get).pt.proc np).pid

/-- `argptr` for a value that takes one byte. -/
def argptr (caller : Proc) (word : Nat) : Bool :=
  !decide (word ≥ caller.sz ∨ toUint (word + 1) > caller.sz)

/-- `sys_clone`, with the words it finds on the user stack. -/
def sysClone (self : Slot) (fn arg ustack : Nat) : OsProgram Int := do
  let caller := (← get).pt.proc self
  if (argptr caller fn && argptr caller arg && argptr caller ustack) = false then pure (-1)
  else if fn > caller.sz ∨ ustack > caller.sz then pure (-1)
  else clone layout self fn arg ustack

end Os

end Xv6
