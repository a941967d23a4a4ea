import Xv6.Kernel.Proc
import Xv6.Lib.Program
import Xv6.Lib.Transition

/-!
# Page tables

The functions of `vm.c` that build and take down page directories, over the pages they
live in, with `kalloc` and `kfree` of `kalloc.c`.  A frame is a page of physical memory,
named by its number; a page directory is named by the frame that holds it.  Every page
directory maps the kernel's memory to itself, so the kernel writes a page it got from
`kalloc` at its own frame.
-/

namespace Xv6

/-! ## Memory -/

/-- Entries of a page directory or a page table. -/
abbrev nptentries : Nat := 1024

/-- End of the physical memory that is used. -/
def phystop : Nat := 0x1000000

def PDX (va : Nat) : Fin nptentries := ⟨va / 2 ^ 22 % nptentries, Nat.mod_lt _ (by decide)⟩

def PTX (va : Nat) : Fin nptentries := ⟨va / 2 ^ 12 % nptentries, Nat.mod_lt _ (by decide)⟩

def pgrounddown (va : Nat) : Nat := va / pgsize * pgsize

/-- Where the linker puts the kernel: `data` and `end`.  The image starts at 1 MB. -/
structure Layout where
  data : Nat
  kernelEnd : Nat
  aligned : data % pgsize = 0
  text : 0x100000 < data
  ordered : data ≤ kernelEnd
  small : kernelEnd ≤ 0x400000

/-- An entry of a page directory or a page table: `PTE_ADDR`, as a frame, and the flags
`PTE_P`, `PTE_W` and `PTE_U`. -/
structure Pte where
  frame : Nat
  present : Bool
  writable : Bool
  user : Bool
  deriving DecidableEq

/-- The entry 0. -/
def Pte.zero : Pte := ⟨0, false, false, false⟩

@[simp] theorem Pte.present_zero : Pte.zero.present = false := rfl

/-- The entry that `kfree` leaves all over a page. -/
def Pte.junk : Pte := ⟨0x01010, true, false, false⟩

/-- What a page was allocated for. -/
inductive Owner where
  | directory
  | table (pgdir : Nat) (index : Fin nptentries)
  | user (pgdir page : Nat)
  deriving DecidableEq

/-- Physical memory as page tables see it, and what each page is allocated for: `none`
for a page that `kalloc` may return. -/
structure Memory where
  page : Nat → Fin nptentries → Pte
  owner : Nat → Option Owner

/-- The memory with its allocator.  The answers say which pages the calls of `kalloc` to
come return, and `granted` records what the calls so far returned. -/
structure Vm extends Memory where
  answers : List (Option Nat)
  granted : List (Owner × Nat)

/-- Why the kernel stops.  All but the last two are calls of `panic`. -/
inductive Stop where
  | remap
  | kfree
  /-- `inituvm: more than a page` -/
  | moreThanAPage
  /-- `loaduvm: addr must be page aligned` -/
  | notAligned
  /-- `loaduvm: address should exist` -/
  | addressShouldExist
  /-- `freevm: no pgdir` -/
  | noPgdir
  /-- `copyuvm: pte should exist` -/
  | pteShouldExist
  /-- `copyuvm: page not present` -/
  | pageNotPresent
  /-- `bmap: out of range` -/
  | outOfRange
  /-- A page fault in the kernel. -/
  | fault
  /-- A page is freed that is not allocated, which ruins the free list. -/
  | notAllocated
  deriving DecidableEq

abbrev VmProgram := Program Vm Stop

namespace Memory

variable (memory : Memory)

/-- The entry for an address, 0 where there is no page table. -/
def entry (pgdir va : Nat) : Pte :=
  if (memory.page pgdir (PDX va)).present then
    memory.page (memory.page pgdir (PDX va)).frame (PTX va)
  else .zero

/-- Fill a page. -/
def setPage (frame : Nat) (contents : Fin nptentries → Pte) : Memory :=
  { memory with page := Function.update memory.page frame contents }

/-- Write one entry. -/
def setEntry (frame : Nat) (index : Fin nptentries) (pte : Pte) : Memory :=
  memory.setPage frame (Function.update (memory.page frame) index pte)

/-- Allocate a page. -/
def grant (purpose : Owner) (frame : Nat) : Memory :=
  { memory with owner := Function.update memory.owner frame (some purpose) }

/-- Free a page, which fills it with junk. -/
def release (frame : Nat) : Memory :=
  { memory.setPage frame fun _ => .junk with
    owner := Function.update memory.owner frame none }

end Memory

/-- Write to the memory. -/
def store (change : Memory → Memory) : VmProgram Unit :=
  modify fun vm => { vm with toMemory := change vm.toMemory }

/-- The frames that `kinit` puts on the free list. -/
def Layout.InPool (layout : Layout) (frame : Nat) : Prop :=
  layout.kernelEnd ≤ frame * pgsize ∧ frame * pgsize + pgsize ≤ phystop

instance (layout : Layout) (frame : Nat) : Decidable (layout.InPool frame) :=
  inferInstanceAs (Decidable (_ ∧ _))

/-! ## The allocator -/

variable (layout : Layout)

/-- `kalloc`.  It fails if the next answer is not a free page. -/
def kalloc (purpose : Owner) : VmProgram (Option Nat) := do
  let vm ← get
  match vm.answers with
  | [] => pure none
  | none :: answers =>
    set { vm with answers := answers }
    pure none
  | some frame :: answers =>
    if layout.InPool frame ∧ vm.owner frame = none then
      set { toMemory := vm.grant purpose frame, answers := answers,
            granted := (purpose, frame) :: vm.granted : Vm }
      pure (some frame)
    else
      set { vm with answers := answers }
      pure none

def kfree (frame : Nat) : VmProgram Unit := do
  if frame * pgsize < layout.kernelEnd ∨ phystop ≤ frame * pgsize then throw .kfree
  if (← get).owner frame = none then throw .notAllocated
  store (·.release frame)

/-! ## Mapping -/

/-- `walkpgdir`: the place of an entry. -/
def walkpgdir (pgdir va : Nat) (create : Bool) :
    VmProgram (Option (Nat × Fin nptentries)) := do
  let pde := (← get).page pgdir (PDX va)
  if pde.present then pure (some (pde.frame, PTX va))
  else if create = false then pure none
  else
    match ← kalloc layout (.table pgdir (PDX va)) with
    | none => pure none
    | some pgtab =>
      store (·.setPage pgtab fun _ => .zero)
      store (·.setEntry pgdir (PDX va) ⟨pgtab, true, true, true⟩)
      pure (some (pgtab, PTX va))

/-- The flags for `mappages`. -/
structure Perm where
  writable : Bool
  user : Bool

/-- The entry `pa | perm | PTE_P`. -/
def Perm.pte (perm : Perm) (pa : Nat) : Pte := ⟨pa / pgsize, true, perm.writable, perm.user⟩

/-- One round of the loop of `mappages`. -/
def mapPage (pgdir : Nat) (perm : Perm) (a pa : Nat) : VmProgram Bool := do
  match ← walkpgdir layout pgdir a true with
  | none => pure false
  | some (pgtab, index) =>
    if ((← get).page pgtab index).present then throw .remap
    store (·.setEntry pgtab index (perm.pte pa))
    pure true

/-- The loop of `mappages`, with `n` pages left after the one at `a`. -/
def mapLoop (pgdir : Nat) (perm : Perm) : Nat → Nat → Nat → VmProgram Bool
  | 0, a, pa => mapPage layout pgdir perm a pa
  | n + 1, a, pa => do
      if ← mapPage layout pgdir perm a pa then
        mapLoop pgdir perm n (toUint (a + pgsize)) (toUint (pa + pgsize))
      else pure false

def mappages (pgdir la size pa : Nat) (perm : Perm) : VmProgram Bool :=
  let a := pgrounddown la
  let last := pgrounddown (toUint (la + size - 1))
  mapLoop layout pgdir perm (toUint (last - a) / pgsize) a pa

/-- The table `kmap`: start, end and permissions.  The device range ends at 0, that is
at the end of the address space. -/
def kmap : List (Nat × Nat × Perm) :=
  [(usertop, 0x100000, ⟨true, false⟩), (0x100000, layout.data, ⟨false, false⟩),
    (layout.data, phystop, ⟨true, false⟩), (0xFE000000, 0, ⟨true, false⟩)]

/-- The loop of `setupkvm`. -/
def mapKernel (pgdir : Nat) : List (Nat × Nat × Perm) → VmProgram Bool
  | [] => pure true
  | (p, e, perm) :: rest => do
      if ← mappages layout pgdir p (toUint (e - p)) p perm then mapKernel pgdir rest
      else pure false

def setupkvm : VmProgram (Option Nat) := do
  match ← kalloc layout .directory with
  | none => pure none
  | some pgdir =>
    store (·.setPage pgdir fun _ => .zero)
    if ← mapKernel layout pgdir (kmap layout) then pure (some pgdir) else pure none

/-! ## User memory -/

/-- The permissions of user pages. -/
def userPerm : Perm := ⟨true, true⟩

/-- `inituvm`, with the kernel's page directory loaded and `init` the page it sets up.
The result of `kalloc` is not checked: if it fails, the page at address 0 is cleared,
which the processor lets happen only if the loaded directory maps it. -/
def inituvm (kpgdir pgdir : Nat) (init : Fin nptentries → Pte) (sz : Nat) :
    VmProgram Unit := do
  if sz ≥ pgsize then throw .moreThanAPage
  let mem := (← kalloc layout (.user pgdir 0)).getD 0
  let target := (← get).entry kpgdir (mem * pgsize)
  if target.present = false then throw .fault
  store (·.setPage target.frame fun _ => .zero)
  let _ ← mappages layout pgdir 0 pgsize (mem * pgsize) userPerm
  store (·.setPage target.frame init)

/-- One round of the loop of `deallocuvm`. -/
def deallocPage (pgdir a : Nat) : VmProgram Unit := do
  match ← walkpgdir layout pgdir a false with
  | none => pure ()
  | some (pgtab, index) =>
    let pte := (← get).page pgtab index
    if pte.present then
      if pte.frame = 0 then throw .kfree
      kfree layout pte.frame
      store (·.setEntry pgtab index .zero)

/-- The loop of `deallocuvm`. -/
def deallocLoop (pgdir oldsz a : Nat) : VmProgram Unit := do
  if _more : a < oldsz then
    deallocPage layout pgdir a
    deallocLoop pgdir oldsz (a + pgsize)
  termination_by oldsz - a
  decreasing_by
    simp only [pgsize]
    omega

def deallocuvm (pgdir oldsz newsz : Nat) : VmProgram Nat := do
  if newsz ≥ oldsz then pure oldsz
  else
    deallocLoop layout pgdir oldsz (pgroundup newsz)
    pure newsz

/-- The loop of `allocuvm`; the result is false if the memory runs out. -/
def allocLoop (pgdir newsz a : Nat) : VmProgram Bool := do
  if _more : a < newsz then
    match ← kalloc layout (.user pgdir (a / pgsize)) with
    | none => pure false
    | some mem =>
      store (·.setPage mem fun _ => .zero)
      let _ ← mappages layout pgdir a pgsize (mem * pgsize) userPerm
      allocLoop pgdir newsz (a + pgsize)
  else pure true
  termination_by newsz - a
  decreasing_by
    simp only [pgsize]
    omega

def allocuvm (pgdir oldsz newsz : Nat) : VmProgram Nat := do
  if newsz > usertop then pure 0
  else if newsz < oldsz then pure oldsz
  else if ← allocLoop layout pgdir newsz (pgroundup oldsz) then pure newsz
  else
    let _ ← deallocuvm layout pgdir newsz oldsz
    pure 0

/-- The loop of `freevm` over the page tables. -/
def freeTables (pgdir : Nat) : List (Fin nptentries) → VmProgram Unit
  | [] => pure ()
  | index :: rest => do
      let pde := (← get).page pgdir index
      if pde.present then kfree layout pde.frame
      freeTables pgdir rest

def freevm (pgdir : Nat) : VmProgram Unit := do
  if pgdir = 0 then throw .noPgdir
  let _ ← deallocuvm layout pgdir usertop 0
  freeTables layout pgdir (List.finRange nptentries)
  kfree layout pgdir

/-- The loop of `copyuvm` into the new directory `d`; the result is false if the memory
runs out. -/
def copyPages (pgdir d sz i : Nat) : VmProgram Bool := do
  if _more : i < sz then
    match ← walkpgdir layout pgdir i false with
    | none => throw .pteShouldExist
    | some (pgtab, index) =>
      let pte := (← get).page pgtab index
      if pte.present = false then throw .pageNotPresent
      match ← kalloc layout (.user d (i / pgsize)) with
      | none => pure false
      | some mem =>
        store fun memory => memory.setPage mem (memory.page pte.frame)
        if ← mappages layout d i pgsize (mem * pgsize) userPerm then
          copyPages pgdir d sz (i + pgsize)
        else pure false
  else pure true
  termination_by sz - i
  decreasing_by
    simp only [pgsize]
    omega

def copyuvm (pgdir sz : Nat) : VmProgram (Option Nat) := do
  match ← setupkvm layout with
  | none => pure none
  | some d =>
    if ← copyPages layout pgdir d sz 0 then pure (some d)
    else
      freevm layout d
      pure none

end Xv6
