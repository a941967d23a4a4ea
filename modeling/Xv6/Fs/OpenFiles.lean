import Xv6.Kernel.Proc
import Xv6.Lib.Holders
import Xv6.Lib.Program
import Xv6.Lib.Transition

/-!
# Open files

The table of open files, the descriptors of all processes, and the system calls that
create, copy and drop references: `open`, `dup`, `close`, `pipe`, `fork`, `clone` and
`exit`.  System calls run one after the other.  Where a call can fail outside of
`file.c`, `pipe.c` and `sysfile.c` (a path that is not found, a page that `kalloc`
does not have, an address space that cannot be copied), the call is given the outcome.

The page of a pipe comes from `kalloc` and goes back with `kfree`; two counters record
how often each page was taken for a pipe and how often it was given back.
-/

namespace Xv6

abbrev nfile : Nat := 100

abbrev FileIndex := Fin nfile

inductive FdType where
  | none
  | pipe
  | inode
  deriving DecidableEq

/-- `struct file` without `ip` and `off`, which only reads and writes use. -/
structure File (Page : Type) where
  type : FdType
  ref : Nat
  readable : Bool
  writable : Bool
  pipe : Page

/-- Which ends of a pipe are open. -/
structure PipeEnds where
  readopen : Bool
  writeopen : Bool
  deriving DecidableEq

namespace PipeEnds

def isOpen (ends : PipeEnds) (writable : Bool) : Bool :=
  if writable then ends.writeopen else ends.readopen

def close (ends : PipeEnds) (writable : Bool) : PipeEnds :=
  if writable then { ends with writeopen := false } else { ends with readopen := false }

theorem isOpen_close (ends : PipeEnds) (writable other : Bool) :
    (ends.close writable).isOpen other = (ends.isOpen other && other != writable) := by
  cases writable <;> cases other <;> simp [close, isOpen]

end PipeEnds

structure Ftable (Page : Type) where
  file : FileIndex → File Page
  /-- The contents of a page, as a `struct pipe`. -/
  pipe : Page → PipeEnds
  /-- `ofile[fd]` of every slot of the process table. -/
  ofile : Slot × Fin nofile → Option FileIndex
  state : Slot → ProcState
  kallocs : Page → Nat
  kfrees : Page → Nat

inductive FilePanic where
  | filedup
  | fileclose
  deriving DecidableEq

abbrev FileProgram (Page : Type) := Program (Ftable Page) FilePanic

namespace Ftable

variable {Page : Type}

/-! ## `file.c` -/

def withFile (s : Ftable Page) (f : FileIndex) (change : File Page → File Page) :
    Ftable Page :=
  { s with file := Table.set s.file f change }

def setFile (f : FileIndex) (change : File Page → File Page) : FileProgram Page Unit :=
  modify fun s => s.withFile f change

def setOfile (slot : Slot) (fd : Fin nofile) (value : Option FileIndex) :
    FileProgram Page Unit :=
  modify fun s => { s with ofile := Function.update s.ofile (slot, fd) value }

def setState (slot : Slot) (state : ProcState) : FileProgram Page Unit :=
  modify fun s => { s with state := Function.update s.state slot state }

def filealloc : FileProgram Page (Option FileIndex) := do
  let s ← get
  match Table.find fun f => (s.file f).ref == 0 with
  | none => pure none
  | some f =>
    setFile f fun file => { file with ref := 1 }
    pure (some f)

def filedup (f : FileIndex) : FileProgram Page Unit := do
  if ((← get).file f).ref < 1 then throw .filedup
  setFile f fun file => { file with ref := file.ref + 1 }

variable [DecidableEq Page]

def setPipe (page : Page) (ends : PipeEnds) : FileProgram Page Unit :=
  modify fun s => { s with pipe := Function.update s.pipe page ends }

def kfree (page : Page) : FileProgram Page Unit :=
  modify fun s => { s with kfrees := Function.update s.kfrees page (s.kfrees page + 1) }

def pipeclose (page : Page) (writable : Bool) : FileProgram Page Unit := do
  let ends := ((← get).pipe page).close writable
  setPipe page ends
  if ends.readopen = false ∧ ends.writeopen = false then kfree page

def fileclose (f : FileIndex) : FileProgram Page Unit := do
  let ff := (← get).file f
  if ff.ref < 1 then throw .fileclose
  if ff.ref > 1 then
    setFile f fun file => { file with ref := file.ref - 1 }
  else
    setFile f fun file => { file with ref := 0, type := .none }
    if ff.type = .pipe then pipeclose ff.pipe ff.writable

/-! ## `pipe.c` -/

/-- `pipealloc`; `page` is what `kalloc` returns. -/
def pipealloc (page : Option Page) : FileProgram Page (Option (FileIndex × FileIndex)) := do
  match ← filealloc with
  | none => pure none
  | some f0 =>
    match ← filealloc with
    | none => do
        fileclose f0
        pure none
    | some f1 =>
      match page with
      | none => do
          fileclose f0
          fileclose f1
          pure none
      | some page => do
          modify fun s => { s with
            kallocs := Function.update s.kallocs page (s.kallocs page + 1) }
          setPipe page ⟨true, true⟩
          setFile f0 fun file =>
            { file with type := .pipe, readable := true, writable := false, pipe := page }
          setFile f1 fun file =>
            { file with type := .pipe, readable := false, writable := true, pipe := page }
          pure (some (f0, f1))

/-! ## `sysfile.c` -/

def argfd (s : Ftable Page) (slot : Slot) (fd : Int) : Option (Fin nofile × FileIndex) :=
  if bound : 0 ≤ fd ∧ fd < nofile then
    have small : fd.toNat < nofile := by omega
    (s.ofile (slot, ⟨fd.toNat, small⟩)).map fun f => (⟨fd.toNat, small⟩, f)
  else none

def fdalloc (slot : Slot) (f : FileIndex) : FileProgram Page (Option (Fin nofile)) := do
  let s ← get
  match Table.find fun fd => s.ofile (slot, fd) == none with
  | none => pure none
  | some fd =>
    setOfile slot fd (some f)
    pure (some fd)

def sysDup (slot : Slot) (fd : Int) : FileProgram Page Unit := do
  match argfd (← get) slot fd with
  | none => pure ()
  | some (_, f) =>
    match ← fdalloc slot f with
    | none => pure ()
    | some _ => filedup f

def sysClose (slot : Slot) (fd : Int) : FileProgram Page Unit := do
  match argfd (← get) slot fd with
  | none => pure ()
  | some (fd, f) =>
    setOfile slot fd none
    fileclose f

/-- `sys_open` once the arguments are fetched.  `found` says whether the path leads to
an inode that may be opened like this. -/
def sysOpen (slot : Slot) (found readable writable : Bool) : FileProgram Page Unit := do
  if found then
    match ← filealloc with
    | none => pure ()
    | some f =>
      match ← fdalloc slot f with
      | none => fileclose f
      | some _ =>
        setFile f fun file =>
          { file with type := .inode, readable := readable, writable := writable }

/-- `sys_pipe`; `argument` says whether the argument passes `argptr`. -/
def sysPipe (slot : Slot) (argument : Bool) (page : Option Page) : FileProgram Page Unit := do
  if argument then
    match ← pipealloc page with
    | none => pure ()
    | some (rf, wf) =>
      match ← fdalloc slot rf with
      | none => do
          fileclose rf
          fileclose wf
      | some fd0 =>
        match ← fdalloc slot wf with
        | none => do
            setOfile slot fd0 none
            fileclose rf
            fileclose wf
        | some _ => pure ()

/-! ## `proc.c` -/

/-- One iteration of the loop in `fork` and `clone` that copies the descriptors. -/
def copyFile (slot child : Slot) (fd : Fin nofile) : FileProgram Page Unit := do
  match (← get).ofile (slot, fd) with
  | none => pure ()
  | some f => do
      filedup f
      setOfile child fd (some f)

/-- `fork` with memory for the child, and `clone`: take an unused slot and copy the
descriptors. -/
def spawn (slot : Slot) : FileProgram Page Unit := do
  let s ← get
  match Table.find fun child => s.state child == .unused with
  | none => pure ()
  | some child => do
      setState child .embryo
      (List.finRange nofile).forM (copyFile slot child)
      setState child .runnable

/-- `fork`; without memory for the kernel stack or the address space of the child, the
slot is unused again. -/
def fork (slot : Slot) (memory : Bool) : FileProgram Page Unit :=
  if memory then spawn slot else pure ()

/-- One iteration of the loop in `exit` that closes the descriptors. -/
def closeFile (slot : Slot) (fd : Fin nofile) : FileProgram Page Unit := do
  match (← get).ofile (slot, fd) with
  | none => pure ()
  | some f => do
      fileclose f
      setOfile slot fd none

def exit (slot : Slot) : FileProgram Page Unit := do
  (List.finRange nofile).forM (closeFile slot)
  setState slot .zombie

/-! ## Runs -/

end Ftable

inductive FileCall (Page : Type) where
  | open (found readable writable : Bool)
  | dup (fd : Int)
  | close (fd : Int)
  | pipe (argument : Bool) (page : Option Page)
  | fork (memory : Bool)
  | clone
  | exit
  /-- `wait` or `join` finds this zombie and frees its slot. -/
  | reap (child : Slot)

namespace Ftable

variable {Page : Type} [DecidableEq Page]

def call (slot : Slot) : FileCall Page → FileProgram Page Unit
  | .open found readable writable => sysOpen slot found readable writable
  | .dup fd => sysDup slot fd
  | .close fd => sysClose slot fd
  | .pipe argument page => sysPipe slot argument page
  | .fork memory => fork slot memory
  | .clone => spawn slot
  | .exit => exit slot
  | .reap child => setState child .unused

/-- When a call can be made: by a live process; `kalloc` returns only pages that are
not in use; and only a zombie is reaped. -/
def Enabled (s : Ftable Page) (slot : Slot) : FileCall Page → Prop
  | .pipe _ (some page) => (s.state slot).Live ∧ s.kallocs page = s.kfrees page
  | .reap child => (s.state slot).Live ∧ s.state child = .zombie
  | _ => (s.state slot).Live

instance (s : Ftable Page) (slot : Slot) : (call : FileCall Page) →
    Decidable (s.Enabled slot call)
  | .pipe _ (some page) =>
    inferInstanceAs (Decidable ((s.state slot).Live ∧ s.kallocs page = s.kfrees page))
  | .reap child => inferInstanceAs (Decidable ((s.state slot).Live ∧ s.state child = .zombie))
  | .pipe _ none | .open _ _ _ | .dup _ | .close _ | .fork _ | .clone | .exit =>
    inferInstanceAs (Decidable (s.state slot).Live)

/-- One system call of one process, if it completes. -/
def step (s : Ftable Page) (action : Slot × FileCall Page) : Option (Ftable Page) :=
  if s.Enabled action.1 action.2 then
    match (call action.1 action.2).run s with
    | .ok (_, s') => some s'
    | .error _ => none
  else none

/-- After boot: one process, no open files. -/
def start (page : Page) (pipe : Page → PipeEnds) : Ftable Page where
  file _ := ⟨.none, 0, false, false, page⟩
  pipe := pipe
  ofile _ := none
  state slot := if slot = 0 then .runnable else .unused
  kallocs _ := 0
  kfrees _ := 0

end Ftable

end Xv6
