import Xv6.Vm.UserMemory

/-!
# User memory with its contents

The pages of user memory hold bytes that processes see.  `Ram` is the memory of the page
tables together with these bytes, and the functions of `vm.c` that fill user pages are
given here with what they write.  The others are taken over as they are: they write only
to page directories and page tables, and to pages that they free.
-/

namespace Xv6

open Program

/-- The memory with the bytes of each frame.  `ignored` records the results of `mappages`
that `allocuvm` does not look at. -/
structure Ram extends Vm where
  byte : Nat → Nat → UInt8
  ignored : List Bool

abbrev RamProgram := Program Ram Stop

variable {stops : Stop → Prop} {ram : Ram}

namespace Ram

/-- A function that does not look at the bytes. -/
def lift {α : Type} (x : VmProgram α) : RamProgram α := fun ram =>
  (x.run ram.toVm).map fun result => (result.1, { ram with toVm := result.2 })

theorem wp_lift {α : Type} {x : VmProgram α} {post : α → Ram → Prop} : Wp (lift x) post stops ram ↔
      Wp x (fun value vm => post value { ram with toVm := vm }) stops ram.toVm := by
  simp only [Wp, lift, StateT.run]
  cases x ram.toVm <;> rfl

/-- Fill a page, as the page tables see it and with its bytes. -/
def fill (frame : Nat) (page : Memory → Fin nptentries → Pte) (bytes : Ram → Nat → UInt8) :
    RamProgram Unit :=
  modify fun ram => { ram with
    toMemory := ram.toMemory.setPage frame (page ram.toMemory)
    byte := Function.update ram.byte frame (bytes ram) }

/-- `memset(mem, 0, PGSIZE)` -/
def clear (mem : Nat) : RamProgram Unit := fill mem (fun _ _ => .zero) fun _ _ => 0

/-- `memmove(mem, pa, PGSIZE)` -/
def copy (mem frame : Nat) : RamProgram Unit := fill mem (·.page frame) (·.byte frame)

variable (layout : Layout)

/-- The loop of `allocuvm`; the result is false if the memory runs out. -/
def allocLoop (pgdir newsz a : Nat) : RamProgram Bool := do
  if _more : a < newsz then
    match ← lift (kalloc layout (.user pgdir (a / pgsize))) with
    | none => pure false
    | some mem =>
      clear mem
      let result ← lift (mappages layout pgdir a pgsize (mem * pgsize) userPerm)
      modify fun ram => { ram with ignored := result :: ram.ignored }
      allocLoop pgdir newsz (a + pgsize)
  else pure true
  termination_by newsz - a
  decreasing_by
    simp only [pgsize]
    omega

def allocuvm (pgdir oldsz newsz : Nat) : RamProgram Nat := do
  if newsz > usertop then pure 0
  else if newsz < oldsz then pure oldsz
  else if ← allocLoop layout pgdir newsz (pgroundup oldsz) then pure newsz
  else
    let _ ← lift (deallocuvm layout pgdir newsz oldsz)
    pure 0

/-- The loop of `copyuvm` into the new directory `d`; the result is false if the memory
runs out. -/
def copyPages (pgdir d sz i : Nat) : RamProgram Bool := do
  if _more : i < sz then
    match ← lift (walkpgdir layout pgdir i false) with
    | none => throw .pteShouldExist
    | some (pgtab, index) =>
      let pte := (← get).page pgtab index
      if pte.present = false then throw .pageNotPresent
      match ← lift (kalloc layout (.user d (i / pgsize))) with
      | none => pure false
      | some mem =>
        copy mem pte.frame
        if ← lift (mappages layout d i pgsize (mem * pgsize) userPerm) then
          copyPages pgdir d sz (i + pgsize)
        else pure false
  else pure true
  termination_by sz - i
  decreasing_by
    simp only [pgsize]
    omega

def copyuvm (pgdir sz : Nat) : RamProgram (Option Nat) := do
  match ← lift (setupkvm layout) with
  | none => pure none
  | some d =>
    if ← copyPages layout pgdir d sz 0 then pure (some d)
    else
      lift (freevm layout d)
      pure none

end Ram

/-! ## Without the contents

Leaving the bytes out gives the functions on page tables. -/

/-- A program on memory with contents does to the page tables what another one does. -/
def Refines {α : Type} (x : RamProgram α) (y : VmProgram α) : Prop :=
  ∀ ram, (x.run ram).map (fun result => (result.1, result.2.toVm)) = y.run ram.toVm

namespace Refines

variable {α β : Type} {x : RamProgram α} {y : VmProgram α} {f : α → RamProgram β}
  {g : α → VmProgram β}

theorem pure (value : α) : Refines (pure value) (pure value) := fun _ => rfl

theorem lift (y : VmProgram α) : Refines (Ram.lift y) y := by
  intro ram
  simp only [Ram.lift, StateT.run]
  cases y ram.toVm <;> rfl

theorem bind (first : Refines x y) (rest : ∀ value, Refines (f value) (g value)) :
    Refines (x >>= f) (y >>= g) := by
  intro ram
  have start := first ram
  simp only [StateT.run_bind]
  rw [← start]
  cases x.run ram with
  | error stop => rfl
  | ok result => exact rest result.1 result.2

theorem ite {test : Prop} [Decidable test] {x' : RamProgram α} {y' : VmProgram α}
    (yes : Refines x y) (no : Refines x' y') :
    Refines (if test then x else x') (if test then y else y') := by
  split_ifs
  · exact yes
  · exact no

theorem wp {post : α → Vm → Prop} (refines : Refines x y) (holds : Wp y post stops ram.toVm) :
    Wp x (fun value ram' => post value ram'.toVm) stops ram := by
  have same := refines ram
  unfold Wp at holds ⊢
  rw [← same] at holds
  cases ran : x.run ram with
  | error stop => simpa [ran, Except.map] using holds
  | ok result => simpa [ran, Except.map] using holds

theorem fill (frame : Nat) (page : Memory → Fin nptentries → Pte) (bytes : Ram → Nat → UInt8) :
    Refines (Ram.fill frame page bytes) (store fun memory => memory.setPage frame (page memory)) :=
  fun _ => rfl

theorem ignore (result : Bool) {x : RamProgram α} (rest : Refines x y) :
    Refines (do modify fun ram => { ram with ignored := result :: ram.ignored }; x) y :=
  fun _ => rest _

end Refines

namespace Ram

variable (layout : Layout)

theorem allocLoop_refines (pgdir newsz a : Nat) :
    Refines (allocLoop layout pgdir newsz a) (Xv6.allocLoop layout pgdir newsz a) := by
  induction left : newsz - a using Nat.strong_induction_on generalizing a with
  | _ count ih =>
    rw [allocLoop, Xv6.allocLoop]
    split_ifs with more
    · refine (Refines.lift _).bind fun answer => ?_
      cases answer with
      | none => exact .pure _
      | some mem =>
        refine (Refines.fill _ _ _).bind fun _ => (Refines.lift _).bind fun result => ?_
        refine .ignore result (ih _ ?_ _ rfl)
        simp only [pgsize]
        omega
    · exact .pure _

theorem allocuvm_refines (pgdir oldsz newsz : Nat) :
    Refines (allocuvm layout pgdir oldsz newsz) (Xv6.allocuvm layout pgdir oldsz newsz) := by
  refine .ite (.pure _) (.ite (.pure _) ?_)
  refine (allocLoop_refines layout _ _ _).bind fun done => .ite (.pure _) ?_
  exact (Refines.lift _).bind fun _ => .pure _

end Ram

end Xv6
