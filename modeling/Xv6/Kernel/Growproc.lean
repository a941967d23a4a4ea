import Xv6.Kernel.Os

/-!
# When `growproc` fails

The size 0 is both a size and the failure of `allocuvm` and `deallocuvm`.  Growing never
gives a process the size 0, but shrinking can: then `growproc` has taken all pages back
and reports a failure.  A call that asks for more pages back than there are changes no page,
but it still copies the size of the caller to the slots that its loop takes for threads of
the same process.
-/

namespace Xv6

open Program

namespace Os

variable {layout : Layout} {live : Nat → Prop} {self : Slot} {n : Int} {os os' : Os} {ram : Ram}
  {post : Int → Os → Prop}

/-- The size that a successful `growproc` leaves. -/
def newSize (sz : Nat) (n : Int) : Nat := if sz + n < 0 then sz else (sz + n).toNat

/-- What a call of `growproc` should do: a failure changes nothing, a success gives the
pages for the new size and tells the slots of the process about it, and a call that asks
for too much back changes nothing. -/
structure GrowprocExact (layout : Layout) (live : Nat → Prop) (self : Slot) (n : Int)
    (os : Os) (result : Int) (os' : Os) : Prop where
  outcome : result = -1 ∨ result = 0
  fails : result = -1 → (∀ slot, (os'.pt.proc slot).sz = (os.pt.proc slot).sz) ∧
    Restored layout live os.ram os'.ram
  succeeds : result = 0 →
    (∀ slot, (os'.pt.proc slot).sz =
      if slot = self ∨ Ptable.Resizes self (os.pt.proc self) slot (os.pt.proc slot) then
        newSize (os.pt.proc self).sz n
      else (os.pt.proc slot).sz) ∧
    AddressSpace layout live os'.ram.toMemory (os.pt.proc self).pgdir
      (newSize (os.pt.proc self).sz n)
  tooMuch : n < 0 → (os.pt.proc self).sz + n < 0 →
    (∀ slot, (os'.pt.proc slot).sz = (os.pt.proc slot).sz) ∧
    Restored layout live os.ram os'.ram

/-- The call asks for more back than there is, and some slot that it resizes has another
size than the caller. -/
def Overwrites (self : Slot) (n : Int) (pt : Ptable) : Prop :=
  n < 0 ∧ (pt.proc self).sz + n < 0 ∧ (pt.proc self).sz ≠ 0 ∧
    ∃ slot, Ptable.Resizes self (pt.proc self) slot (pt.proc slot) ∧
      (pt.proc slot).sz ≠ (pt.proc self).sz

theorem resized_sz (pt : Ptable) (self : Slot) (sz : Nat) (slot : Slot) :
    ((resized pt self sz).proc slot).sz =
      if slot = self ∨ Ptable.Resizes self (pt.proc self) slot (pt.proc slot) then sz
      else (pt.proc slot).sz := by
  simp only [resized, Table.loop_set, Ptable.resize_eq]
  by_cases same : slot = self
  · subst same
    simp
  · simp [Table.set_of_ne same, same]

theorem wp_finishGrowproc {sz : Nat} {stops : Halt → Prop} (fails : n ≠ 0 → sz = 0 → post (-1) os)
    (succeeds : (n ≠ 0 → sz ≠ 0) → post 0 { os with pt := resized os.pt self sz }) :
    Wp (finishGrowproc self n sz) post stops os := by
  rw [finishGrowproc, wp_ite]
  exact ⟨fun both => fails both.1 both.2, fun neither =>
    succeeds fun nonzero zero => neither ⟨nonzero, zero⟩⟩

namespace GrowprocExact

theorem of_restored (restored : Restored layout live os.ram ram) :
    GrowprocExact layout live self n os (-1) { os with ram := ram } where
  outcome := .inl rfl
  fails _ := ⟨fun _ => rfl, restored⟩
  succeeds done := absurd done (by decide)
  tooMuch _ _ := ⟨fun _ => rfl, restored⟩

theorem of_space (space : AddressSpace layout live ram.toMemory (os.pt.proc self).pgdir
      (newSize (os.pt.proc self).sz n))
    (tooMuch : n < 0 → (os.pt.proc self).sz + n < 0 →
      (∀ slot, ((resized os.pt self (newSize (os.pt.proc self).sz n)).proc slot).sz =
        (os.pt.proc slot).sz) ∧ Restored layout live os.ram ram) :
    GrowprocExact layout live self n os 0
      { os with pt := resized os.pt self (newSize (os.pt.proc self).sz n), ram := ram } where
  outcome := .inr rfl
  fails failed := absurd failed (by decide)
  succeeds _ := ⟨resized_sz _ _ _, space⟩
  tooMuch := tooMuch

end GrowprocExact

section Cases

variable {stops : Halt → Prop}

theorem restored_of_shrank {d low high : Nat} {vm : Vm}
    (shrank : Shrank layout live d low high ram.toVm vm) (aligned : low % pgsize = 0)
    (empty : high ≤ low) : Restored layout live ram { ram with toVm := vm } := by
  have none : ∀ {va}, ¬InPages low high va := by
    intro va
    simp only [InPages, pgsize] at aligned ⊢
    omega
  refine ⟨shrank.sound, shrank.page, ?_, ?_, fun _ => rfl⟩
  · intro d' va other small
    change vm.entry d' va = _
    rw [shrank.entry other small, if_neg fun here => none here.2]
  · funext frame
    exact shrank.others fun va _ inside => absurd inside none

section
variable (space : AddressSpace layout live os.ram.toMemory (os.pt.proc self).pgdir
    (os.pt.proc self).sz) (bound : (os.pt.proc self).sz ≤ usertop)
include space bound

theorem wp_growproc_grow (isInt : IsInt n) (positive : n > 0) :
    Wp (growproc layout self n) (GrowprocExact layout live self n os) stops os := by
  have larger : toUint ((os.pt.proc self).sz + n) = newSize (os.pt.proc self).sz n ∧
      (os.pt.proc self).sz ≤ newSize (os.pt.proc self).sz n ∧
      newSize (os.pt.proc self).sz n ≠ 0 := by
    simp only [toUint, newSize, IsInt, intMax, usertop] at *
    rw [if_neg (by omega)]
    omega
  obtain ⟨newsz, larger, nonzero⟩ := larger
  simp only [growproc, wp_bind, wp_get, if_pos positive, newsz]
  rw [wp_liftRam]
  by_cases fits : newSize (os.pt.proc self).sz n ≤ usertop
  · refine (Ram.wp_allocuvm space larger fits).imp ?_
    rintro sz ram' ⟨-, ⟨rfl, grew⟩ | ⟨rfl, restored⟩⟩
    · refine wp_finishGrowproc (fun _ zero => absurd zero nonzero) fun _ => ?_
      exact .of_space (space.grew larger grew) fun negative => by omega
    · exact wp_finishGrowproc (fun _ _ => .of_restored restored)
        fun nonzero => absurd rfl (nonzero (by omega))
  · rw [Ram.allocuvm, if_pos (by omega), wp_pure]
    exact wp_finishGrowproc (fun _ _ => .of_restored (.refl space.sound))
      fun nonzero => absurd rfl (nonzero (by omega))

theorem wp_growproc_shrink (negative : n < 0)
    (shrinks : ∀ vm, Shrank layout live (os.pt.proc self).pgdir
        (pgroundup (toUint ((os.pt.proc self).sz + n))) (os.pt.proc self).sz os.ram.toVm vm →
      Wp (finishGrowproc self n
        (min (os.pt.proc self).sz (toUint ((os.pt.proc self).sz + n)))) post stops
        { os with ram := { os.ram with toVm := vm } }) :
    Wp (growproc layout self n) post stops os := by
  simp only [growproc, wp_bind, wp_get, if_neg (show ¬n > 0 by omega), if_pos negative]
  rw [wp_liftRam, Ram.wp_lift]
  refine (wp_deallocuvm_exact space.sound space.isLive bound).imp ?_
  rintro sz vm ⟨rfl, shrank⟩
  exact shrinks vm shrank

/-- Where more is asked back than there is, the difference wraps above the old size, and no
page is taken. -/
theorem wp_growproc_tooMuch (isInt : IsInt n) (negative : n < 0)
    (less : (os.pt.proc self).sz + n < 0)
    (fails : ∀ ram', (os.pt.proc self).sz = 0 → Restored layout live os.ram ram' →
      post (-1) { os with ram := ram' })
    (succeeds : ∀ ram', (os.pt.proc self).sz ≠ 0 → Restored layout live os.ram ram' →
      post 0 { os with pt := resized os.pt self (os.pt.proc self).sz, ram := ram' }) :
    Wp (growproc layout self n) post stops os := by
  refine wp_growproc_shrink space bound negative fun vm shrank => ?_
  have wraps : (os.pt.proc self).sz ≤ toUint ((os.pt.proc self).sz + n) := by
    simp only [toUint, IsInt, usertop] at *
    omega
  have restored := restored_of_shrank shrank pgroundup_mod (le_trans wraps le_pgroundup)
  rw [min_eq_left wraps]
  exact wp_finishGrowproc (fun _ zero => fails _ zero restored)
    fun nonzero => succeeds _ (nonzero negative.ne) restored

theorem wp_growproc_exact (isInt : IsInt n)
    (leaves : ¬(n < 0 ∧ (os.pt.proc self).sz + n = 0)) (keeps : ¬Overwrites self n os.pt) :
    Wp (growproc layout self n) (GrowprocExact layout live self n os) stops os := by
  rcases lt_trichotomy n 0 with negative | rfl | positive
  · by_cases tooMuch : (os.pt.proc self).sz + n < 0
    · have stays : newSize (os.pt.proc self).sz n = (os.pt.proc self).sz := if_pos tooMuch
      refine wp_growproc_tooMuch space bound isInt negative tooMuch
        (fun ram' _ restored => .of_restored restored) fun ram' used restored => ?_
      have same : ∀ slot, ((resized os.pt self (newSize (os.pt.proc self).sz n)).proc slot).sz =
          (os.pt.proc slot).sz := by
        intro slot
        rw [resized_sz, stays]
        split_ifs with resizes
        · by_contra differs
          refine keeps ⟨negative, tooMuch, used, slot, resizes.resolve_left ?_, Ne.symm differs⟩
          rintro rfl
          exact differs rfl
        · rfl
      have after := space.restored restored
      rw [← stays] at after
      have done := GrowprocExact.of_space after fun _ _ => ⟨same, restored⟩
      rwa [stays] at done
    · refine wp_growproc_shrink space bound negative fun vm shrank => ?_
      have shrunk : toUint ((os.pt.proc self).sz + n) = newSize (os.pt.proc self).sz n ∧
          newSize (os.pt.proc self).sz n ≤ (os.pt.proc self).sz ∧
          newSize (os.pt.proc self).sz n ≠ 0 := by
        simp only [toUint, newSize, IsInt, usertop] at *
        rw [if_neg tooMuch]
        omega
      obtain ⟨same, less, nonzero⟩ := shrunk
      rw [same, min_eq_right less]
      rw [same] at shrank
      refine wp_finishGrowproc (fun _ zero => absurd zero nonzero) fun _ => ?_
      exact .of_space (space.shrank less shrank) fun _ less => absurd less tooMuch
  · simp only [growproc, wp_bind, wp_get, gt_iff_lt, lt_irrefl, if_false, wp_pure]
    refine wp_finishGrowproc (fun nonzero => absurd rfl nonzero) fun _ => ?_
    have stays : newSize (os.pt.proc self).sz 0 = (os.pt.proc self).sz := by
      simp [newSize]
    rw [← stays] at space
    have done := GrowprocExact.of_space space fun negative => absurd negative (by decide)
    rwa [stays] at done
  · exact wp_growproc_grow space bound isInt positive

theorem wp_growproc_nothing (negative : n < 0) (nothing : (os.pt.proc self).sz + n = 0) :
    Wp (growproc layout self n) (fun result os' => result = -1 ∧
      ¬Restored layout live os.ram os'.ram) stops os := by
  have zero : toUint ((os.pt.proc self).sz + n) = 0 := by simp [toUint, nothing]
  refine wp_growproc_shrink space bound negative fun vm shrank => ?_
  rw [zero] at shrank ⊢
  refine wp_finishGrowproc (fun _ _ => ⟨rfl, fun restored => ?_⟩) fun nonzero => ?_
  · have used : 0 < (os.pt.proc self).sz := by omega
    have gone : vm.entry (os.pt.proc self).pgdir 0 = os.ram.entry (os.pt.proc self).pgdir 0 :=
      restored.entry space.isLive (by decide)
    have there := (space.covers 0 (by decide)).mpr (by simpa using used)
    rw [shrank.entry space.isLive (by decide), if_pos (by simpa [pgroundup, pgsize] using used)]
      at gone
    simp [← gone] at there
  · exact absurd (by simp) (nonzero (by omega))

end

end Cases

/-- For every process whose user pages cover its size, every `n` and every behaviour of
`kalloc`, `growproc` returns, and it changes nothing when it fails or is asked for too much
back, and leaves exactly the pages of the new size when it succeeds, if and only if it is
not asked to take the whole memory away and does not overwrite another size. -/
theorem growproc_exact_iff
    (space : AddressSpace layout live os.ram.toMemory (os.pt.proc self).pgdir
      (os.pt.proc self).sz)
    (bound : (os.pt.proc self).sz ≤ usertop) (isInt : IsInt n) :
    (∃ result os', (growproc layout self n).run os = .ok (result, os') ∧
      GrowprocExact layout live self n os result os') ↔
      ¬(n < 0 ∧ (os.pt.proc self).sz + n = 0) ∧ ¬Overwrites self n os.pt := by
  constructor
  · rintro ⟨result, os', ran, -, unchanged, -, tooMuch⟩
    constructor
    · rintro ⟨negative, nothing⟩
      have fails : Wp (growproc layout self n) _ (fun _ => True) os :=
        wp_growproc_nothing space bound negative nothing
      obtain ⟨failed, changed⟩ := fails.ok ran
      exact changed (unchanged failed).2
    · rintro ⟨negative, less, used, slot, resizes, differs⟩
      have done : Wp (growproc layout self n)
          (fun _ os' => os'.pt = resized os.pt self (os.pt.proc self).sz) (fun _ => True) os :=
        wp_growproc_tooMuch space bound isInt negative less
          (fun _ zero => absurd zero used) fun _ _ _ => rfl
      have size := (tooMuch negative less).1 slot
      rw [done.ok ran, resized_sz, if_pos (.inr resizes)] at size
      exact differs size.symm
  · exact fun fine => (wp_growproc_exact space bound isInt fine.1 fine.2).ends

/-- A single process of a given size. -/
def withSize (self : Slot) (pgdir sz : Nat) (ram : Ram) : Os where
  pt :=
    { proc := Function.update (fun _ => {}) self
        { state := .running, pid := 1, pgdir := pgdir, sz := sz, cwd := some 0 }
      past := {}
      initproc := self
      nextpid := 2
      pages := fun _ => false }
  ram := ram
  fileRef := fun _ => 0
  inodeRef := fun _ => 0

theorem withSize_proc (self : Slot) (pgdir sz : Nat) (ram : Ram) :
    ((withSize self pgdir sz ram).pt.proc self).pgdir = pgdir ∧
      ((withSize self pgdir sz ram).pt.proc self).sz = sz := by
  simp [withSize]

/-- A process of one page gives half of it back. -/
theorem growproc_exact_half : ∃ (live : Nat → Prop) (ram : Ram) (d : Nat),
    AddressSpace smallLayout live ram.toMemory d pgsize ∧
    ∃ result os', (growproc smallLayout 0 (-2048)).run (withSize 0 d pgsize ram) =
        .ok (result, os') ∧
      GrowprocExact smallLayout live 0 (-2048) (withSize 0 d pgsize ram) result os' := by
  obtain ⟨live, ram, d, space, -⟩ := exists_addressSpace_of_size pgsize (by decide)
  obtain ⟨isDir, isSize⟩ := withSize_proc 0 d pgsize ram
  refine ⟨live, ram, d, space, (growproc_exact_iff ?_ ?_ (by decide)).mpr ⟨?_, ?_⟩⟩
  · rw [isDir, isSize]
    exact space
  · rw [isSize]
    decide
  · rw [isSize]
    decide
  · rintro ⟨-, less, -⟩
    rw [isSize] at less
    exact absurd less (by decide)

theorem growproc_all {d sz : Nat}
    (space : AddressSpace layout live ram.toMemory d sz) (used : 0 < sz) (fits : sz ≤ usertop) :
    ∃ os', (growproc layout self (-sz)).run (withSize self d sz ram) = .ok (-1, os') ∧
      ¬Restored layout live ram os'.ram := by
  obtain ⟨isDir, isSize⟩ := withSize_proc self d sz ram
  have start : AddressSpace layout live (withSize self d sz ram).ram.toMemory
      ((withSize self d sz ram).pt.proc self).pgdir ((withSize self d sz ram).pt.proc self).sz := by
    rw [isDir, isSize]
    exact space
  obtain ⟨result, os', ran, rfl, changed⟩ :=
    (wp_growproc_nothing start (isSize.le.trans fits) (by omega : -(sz : Int) < 0)
      (by rw [isSize]; omega)).ends
  exact ⟨os', ran, changed⟩

/-- A process of one page that was forked by the process in slot 1, whose thread in slot 2
has two pages. -/
def besideThread (pgdir : Nat) (ram : Ram) : Os :=
  let os := withSize 0 pgdir pgsize ram
  let forked := os.pt.modify 0 fun entry => { entry with parent := some 1 }
  { os with pt := forked.modify 2 fun _ =>
      { state := .running, pid := 3, parent := some 1, isThread := true, sz := 2 * pgsize } }

/-- A process of one page gives all of it back: the page is freed and `growproc` fails.  And
one that asks for more back than there is changes the size of a thread of its parent. -/
theorem growproc_frees_and_fails : ∃ (live : Nat → Prop) (ram : Ram) (d : Nat),
    AddressSpace smallLayout live ram.toMemory d pgsize ∧ IsInt (-pgsize) ∧
    (∃ os', (growproc smallLayout 0 (-pgsize)).run (withSize 0 d pgsize ram) = .ok (-1, os') ∧
      ¬Restored smallLayout live ram os'.ram) ∧
    ∃ os', (growproc smallLayout 0 (-5000)).run (besideThread d ram) = .ok (0, os') ∧
      ((besideThread d ram).pt.proc 2).sz = 8192 ∧ (os'.pt.proc 2).sz = 4096 := by
  obtain ⟨live, ram, d, space, -⟩ := exists_addressSpace_of_size pgsize (by decide)
  refine ⟨live, ram, d, space, by simp [IsInt, intMax, pgsize],
    growproc_all space (by decide) (by decide), ?_⟩
  have isSize : ((besideThread d ram).pt.proc 0).sz = pgsize := rfl
  have resizes : Ptable.Resizes 0 ((besideThread d ram).pt.proc 0) 2
      ((besideThread d ram).pt.proc 2) := .inr (.inr ⟨rfl, rfl⟩)
  obtain ⟨result, os', ran, rfl, size⟩ : ∃ result os',
      (growproc smallLayout 0 (-5000)).run (besideThread d ram) = .ok (result, os') ∧
        result = 0 ∧ (os'.pt.proc 2).sz = pgsize := by
    refine (wp_growproc_tooMuch space (by rw [isSize]; decide) (by decide) (by decide)
      (by rw [isSize]; decide) (fun _ zero => ?_) fun _ _ _ => ⟨rfl, ?_⟩).ends
    · cases isSize.symm.trans zero
    · rw [resized_sz, if_pos (.inr resizes), isSize]
  exact ⟨os', ran, rfl, size⟩

end Os

end Xv6
