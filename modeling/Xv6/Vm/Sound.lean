import Xv6.Vm.PageTable

/-!
# Page directories that keep user memory apart

The invariant of the page tables, and the changes to the memory that keep it: granting
a page, filling a page that is no page table, adding a page table, writing an entry and
freeing a page.  `live` are the page directories that the invariant is about; one that
is being built or taken down is not among them.
-/

namespace Xv6

open Function

/-! ## Addresses -/

variable {va va' : Nat} {pte : Pte}

theorem page_eq_iff (small : va < 2 ^ 32) (small' : va' < 2 ^ 32) :
    PDX va = PDX va' ∧ PTX va = PTX va' ↔ va / pgsize = va' / pgsize := by
  simp only [PDX, PTX, Fin.mk.injEq, pgsize, nptentries]
  omega

theorem lt_of_lt_usertop {va : Nat} (below : va < usertop) : va < 2 ^ 32 := by
  simp only [usertop] at below
  omega

theorem PDX_of_lt_usertop {va : Nat} (below : va < usertop) : PDX va = 0 := by
  simp only [usertop] at below
  simp only [PDX, nptentries, Fin.ext_iff, Fin.coe_ofNat_eq_mod]
  omega

theorem Memory.entry_congr (memory : Memory) (d : Nat) (small : va < 2 ^ 32)
    (small' : va' < 2 ^ 32) (same : va / pgsize = va' / pgsize) :
    memory.entry d va = memory.entry d va' := by
  obtain ⟨directory, table⟩ := (page_eq_iff small small').mpr same
  rw [entry, entry, directory, table]

/-! ## The invariant -/

/-- What a present entry may be: a user page below `usertop`, in a frame that was
allocated for it, or a page of the kernel mapped to itself. -/
def Pte.Allowed (pte : Pte) (owner : Nat → Option Owner) (pgdir va : Nat) : Prop :=
  if va < usertop then pte.user = true ∧ owner pte.frame = some (.user pgdir (va / pgsize))
  else pte.user = false ∧ pte.frame = va / pgsize

theorem Pte.Allowed.mono {owner owner' : Nat → Option Owner} {pgdir va : Nat}
    (allowed : pte.Allowed owner pgdir va)
    (keeps : ∀ use, owner pte.frame = some use → owner' pte.frame = some use) :
    pte.Allowed owner' pgdir va := by
  unfold Allowed at allowed ⊢
  split_ifs at allowed ⊢
  · exact ⟨allowed.1, keeps _ allowed.2⟩
  · exact allowed

theorem Pte.Allowed.samePage {owner : Nat → Option Owner} {pgdir va va' : Nat}
    (allowed : pte.Allowed owner pgdir va) (same : va' / pgsize = va / pgsize) :
    pte.Allowed owner pgdir va' := by
  have below : va' < usertop ↔ va < usertop := by
    simp only [usertop, pgsize] at same ⊢
    omega
  simpa [Pte.Allowed, below, same] using allowed

variable {layout : Layout}

/-- The invariant of the memory for the page directories that are `live`. -/
structure Sound (layout : Layout) (live : Nat → Prop) (memory : Memory) : Prop where
  directory : ∀ {d}, live d → memory.owner d = some .directory
  table : ∀ {d i}, live d → (memory.page d i).present = true →
    memory.owner (memory.page d i).frame = some (.table d i)
  entry : ∀ {d va}, live d → va < 2 ^ 32 → memory.entry d va = .zero ∨
    (memory.entry d va).present = true ∧ (memory.entry d va).Allowed memory.owner d va
  pool : ∀ {frame use}, memory.owner frame = some use → layout.InPool frame

/-- The memory after `walkpgdir` has made a page table. -/
def Memory.addTable (memory : Memory) (d : Nat) (i : Fin nptentries) (pgtab : Nat) :
    Memory :=
  ((memory.grant (.table d i) pgtab).setPage pgtab fun _ => .zero).setEntry d i
    ⟨pgtab, true, true, true⟩

/-- A frame that holds no live page directory and no page table of one. -/
def Memory.Plain (memory : Memory) (live : Nat → Prop) (frame : Nat) : Prop :=
  ∀ d, live d → frame ≠ d ∧ ∀ i, memory.owner frame ≠ some (.table d i)

namespace Sound

variable {live : Nat → Prop} {memory : Memory} {d d' frame pgtab : Nat} {i : Fin nptentries}
  {purpose : Owner} {other : Nat} {use : Owner}

section
variable (sound : Sound layout live memory)
include sound

theorem plain_of_free (free : memory.owner frame = none) : memory.Plain live frame := by
  intro d isLive
  refine ⟨?_, by simp [free]⟩
  rintro rfl
  simp [sound.directory isLive] at free

theorem plain_of_user {page : Nat}
    (owned : memory.owner frame = some (.user d page)) : memory.Plain live frame := by
  intro d isLive
  refine ⟨?_, by simp [owned]⟩
  rintro rfl
  simp [sound.directory isLive] at owned

theorem table_ne (isLive : live d) (present : (memory.page d i).present = true) (other : live d') :
    (memory.page d i).frame ≠ d' := by
  intro same
  have table := sound.table isLive present
  rw [same, sound.directory other] at table
  simp at table

theorem table_inj (isLive : live d) (other : live d')
    {i' : Fin nptentries} (present : (memory.page d i).present = true)
    (present' : (memory.page d' i').present = true)
    (same : (memory.page d i).frame = (memory.page d' i').frame) : d = d' ∧ i = i' := by
  have table := sound.table isLive present
  rw [same, sound.table other present'] at table
  simpa [eq_comm] using table

theorem zero_of_absent (isLive : live d)
    (small : va < 2 ^ 32) (absent : (memory.entry d va).present = false) :
    memory.entry d va = .zero := by
  refine (sound.entry isLive small).resolve_right fun there => ?_
  simp [absent] at there

end

/-! ### Granting a page -/

theorem owner_grant (free : memory.owner frame = none) (owned : memory.owner other = some use) :
    (memory.grant purpose frame).owner other = some use := by
  have different : other ≠ frame := by
    rintro rfl
    simp [free] at owned
  simp [Memory.grant, different, owned]

theorem grant (sound : Sound layout live memory) (pool : layout.InPool frame)
    (free : memory.owner frame = none) : Sound layout live (memory.grant purpose frame) where
  directory isLive := owner_grant free (sound.directory isLive)
  table isLive present := owner_grant free (sound.table isLive present)
  entry isLive small := (sound.entry isLive small).imp_right fun ⟨present, allowed⟩ =>
    ⟨present, allowed.mono fun _ => owner_grant free⟩
  pool {other use} owned := by
    by_cases same : other = frame
    · exact same ▸ pool
    · exact sound.pool (by simpa [Memory.grant, same] using owned)

/-! ### Filling a page -/

theorem entry_setPage (sound : Sound layout live memory) (plain : memory.Plain live frame)
    (contents : Fin nptentries → Pte) (isLive : live d) :
    (memory.setPage frame contents).entry d va = memory.entry d va := by
  obtain ⟨notDirectory, notTable⟩ := plain d isLive
  simp only [Memory.entry, Memory.setPage, update_of_ne notDirectory.symm]
  split_ifs with present
  · have different : (memory.page d (PDX va)).frame ≠ frame := by
      intro same
      exact notTable _ (same ▸ sound.table isLive present)
    rw [update_of_ne different]
  · rfl

theorem page_setPage (plain : memory.Plain live frame) {contents : Fin nptentries → Pte}
    (isLive : live d) : (memory.setPage frame contents).page d = memory.page d :=
  update_of_ne (plain d isLive).1.symm _ _

theorem setPage (sound : Sound layout live memory) (plain : memory.Plain live frame)
    (contents : Fin nptentries → Pte) : Sound layout live (memory.setPage frame contents) where
  directory isLive := sound.directory isLive
  table isLive present := by
    rw [page_setPage plain isLive] at present ⊢
    exact sound.table isLive present
  entry isLive small := by
    rw [sound.entry_setPage plain contents isLive]
    exact sound.entry isLive small
  pool owned := sound.pool owned

/-! ### Adding a page table -/

theorem page_addTable (sound : Sound layout live memory)
    (free : memory.owner pgtab = none) (other : live d') :
    (memory.addTable d i pgtab).page d' =
      if d' = d then update (memory.page d) i ⟨pgtab, true, true, true⟩
      else memory.page d' := by
  have distinct := (sound.plain_of_free free d' other).1.symm
  by_cases same : d' = d
  · subst same
    simp [Memory.addTable, Memory.setEntry, Memory.setPage, Memory.grant, distinct]
  · simp [Memory.addTable, Memory.setEntry, Memory.setPage, Memory.grant, same, distinct]

theorem page_addTable_of_ne (notDirectory : frame ≠ d) (notTable : frame ≠ pgtab) :
    (memory.addTable d i pgtab).page frame = memory.page frame := by
  simp [Memory.addTable, Memory.setEntry, Memory.setPage, Memory.grant, notDirectory, notTable]

theorem owner_addTable (free : memory.owner pgtab = none) (owned : memory.owner other = some use) :
    (memory.addTable d i pgtab).owner other = some use :=
  owner_grant free owned

section
variable (sound : Sound layout live memory)
include sound

section
variable (isLive : live d)
include isLive

theorem entry_addTable
    (absent : (memory.page d i).present = false) (free : memory.owner pgtab = none)
    (other : live d') : (memory.addTable d i pgtab).entry d' va = memory.entry d' va := by
  have distinct := (sound.plain_of_free free d isLive).1
  rw [Memory.entry, Memory.entry, sound.page_addTable free other]
  by_cases here : d' = d ∧ PDX va = i
  · obtain ⟨rfl, rfl⟩ := here
    simp [absent, Memory.addTable, Memory.setEntry, Memory.setPage, Memory.grant, distinct]
  · have same : (if d' = d then update (memory.page d) i ⟨pgtab, true, true, true⟩
        else memory.page d') (PDX va) = memory.page d' (PDX va) := by
      split_ifs with equal
      · subst equal
        exact update_of_ne (fun index => here ⟨rfl, index⟩) _ _
      · rfl
    rw [same]
    split_ifs with present
    · have owned := sound.table other present
      have notTable : (memory.page d' (PDX va)).frame ≠ pgtab := by
        intro equal
        simp [equal, free] at owned
      rw [page_addTable_of_ne (sound.table_ne other present isLive) notTable]
    · rfl

theorem addTable (absent : (memory.page d i).present = false) (pool : layout.InPool pgtab)
    (free : memory.owner pgtab = none) : Sound layout live (memory.addTable d i pgtab) where
  directory other := owner_addTable free (sound.directory other)
  table {d' i'} other present := by
    rw [sound.page_addTable free other] at present ⊢
    by_cases here : d' = d ∧ i' = i
    · obtain ⟨rfl, rfl⟩ := here
      simp [Memory.addTable, Memory.setEntry, Memory.setPage, Memory.grant]
    · have same : (if d' = d then update (memory.page d) i ⟨pgtab, true, true, true⟩
          else memory.page d') i' = memory.page d' i' := by
        split_ifs with equal
        · subst equal
          exact update_of_ne (fun index => here ⟨rfl, index⟩) _ _
        · rfl
      rw [same] at present ⊢
      exact owner_addTable free (sound.table other present)
  entry other small := by
    rw [sound.entry_addTable isLive absent free other]
    exact (sound.entry other small).imp_right fun ⟨present, allowed⟩ =>
      ⟨present, allowed.mono fun _ => owner_addTable free⟩
  pool owned := (sound.grant pool free).pool owned

/-! ### Writing an entry -/

theorem entry_setEntry
    (present : (memory.page d (PDX va)).present = true) (small : va < 2 ^ 32) (other : live d')
    (small' : va' < 2 ^ 32) :
    (memory.setEntry (memory.page d (PDX va)).frame (PTX va) pte).entry d' va' =
      if d' = d ∧ va' / pgsize = va / pgsize then pte else memory.entry d' va' := by
  have notTable := (sound.table_ne isLive present other).symm
  simp only [Memory.entry, Memory.setEntry, Memory.setPage, update_of_ne notTable]
  by_cases there : (memory.page d' (PDX va')).present = true
  · rw [if_pos there, if_pos there]
    by_cases same : (memory.page d' (PDX va')).frame = (memory.page d (PDX va)).frame
    · obtain ⟨rfl, index⟩ := sound.table_inj other isLive there present same
      rw [same, update_self, update_apply]
      simp [← page_eq_iff small' small, index]
    · have different : ¬(d' = d ∧ va' / pgsize = va / pgsize) := by
        rintro ⟨rfl, equal⟩
        rw [← page_eq_iff small' small] at equal
        exact same (by rw [equal.1])
      rw [update_of_ne same, if_neg different]
  · have different : ¬(d' = d ∧ va' / pgsize = va / pgsize) := by
      rintro ⟨rfl, equal⟩
      rw [← page_eq_iff small' small] at equal
      exact there (equal.1 ▸ present)
    rw [if_neg there, if_neg there, if_neg different]

theorem page_setEntry
    (present : (memory.page d i).present = true) (index : Fin nptentries) (pte : Pte)
    (other : live d') :
    (memory.setEntry (memory.page d i).frame index pte).page d' = memory.page d' :=
  update_of_ne (sound.table_ne isLive present other).symm _ _

theorem setEntry (present : (memory.page d (PDX va)).present = true) (small : va < 2 ^ 32)
    (fine : pte = .zero ∨ pte.present = true ∧ pte.Allowed memory.owner d va) :
    Sound layout live
      (memory.setEntry (memory.page d (PDX va)).frame (PTX va) pte) where
  directory other := sound.directory other
  table other there := by
    rw [sound.page_setEntry isLive present _ _ other] at there ⊢
    exact sound.table other there
  entry {d' va'} other small' := by
    rw [sound.entry_setEntry isLive present small other small']
    split_ifs with here
    · obtain ⟨rfl, equal⟩ := here
      exact fine.imp_right fun ⟨isPresent, allowed⟩ => ⟨isPresent, allowed.samePage equal⟩
    · exact sound.entry other small'
  pool owned := sound.pool owned

end

/-! ### Freeing a page -/

theorem entry_release (plain : memory.Plain live frame)
    (isLive : live d) : (memory.release frame).entry d va = memory.entry d va :=
  sound.entry_setPage plain _ isLive

end

theorem page_release (plain : memory.Plain live frame) (isLive : live d) :
    (memory.release frame).page d = memory.page d :=
  page_setPage plain isLive

theorem owner_release_of_ne (different : other ≠ frame) :
    (memory.release frame).owner other = memory.owner other :=
  update_of_ne different _ _

section
variable (sound : Sound layout live memory)
include sound

theorem release (plain : memory.Plain live frame)
    (unmapped : ∀ {d va}, live d → va < usertop → (memory.entry d va).present = true →
      (memory.entry d va).frame ≠ frame) : Sound layout live (memory.release frame) where
  directory {d} isLive := by
    rw [owner_release_of_ne (plain d isLive).1.symm]
    exact sound.directory isLive
  table {d i} isLive present := by
    rw [page_release plain isLive] at present ⊢
    have owned := sound.table isLive present
    have different : (memory.page d i).frame ≠ frame := fun same =>
      (plain d isLive).2 i (same ▸ owned)
    rw [owner_release_of_ne different]
    exact owned
  entry {d va} isLive small := by
    rw [sound.entry_release plain isLive]
    refine (sound.entry isLive small).imp_right fun ⟨present, allowed⟩ => ⟨present, ?_⟩
    unfold Pte.Allowed at allowed ⊢
    split_ifs at allowed ⊢ with below
    · rw [owner_release_of_ne (unmapped isLive below present)]
      exact allowed
    · exact allowed
  pool {other use} owned := by
    have different : other ≠ frame := by
      rintro rfl
      simp [Memory.release] at owned
    exact sound.pool ((owner_release_of_ne different).symm.trans owned)

/-! ### A new page directory -/

theorem newDirectory (pool : layout.InPool d) (free : memory.owner d = none) :
    Sound layout (fun d' => d' = d ∨ live d')
      ((memory.grant .directory d).setPage d fun _ => .zero) := by
  have empty : ∀ {i}, (((memory.grant .directory d).setPage d fun _ => .zero).page d i) =
      .zero := by
    simp [Memory.setPage]
  have before : Sound layout live ((memory.grant .directory d).setPage d fun _ => .zero) :=
    (sound.setPage (sound.plain_of_free free) _).grant pool free
  refine ⟨?_, ?_, ?_, before.pool⟩
  · rintro d' (rfl | isLive)
    · simp [Memory.setPage, Memory.grant]
    · exact before.directory isLive
  · rintro d' i (rfl | isLive) present
    · simp [empty] at present
    · exact before.table isLive present
  · rintro d' va (rfl | isLive) small
    · simp [Memory.entry, empty]
    · exact before.entry isLive small

theorem narrow {fewer : Nat → Prop}
    (implies : ∀ {d}, fewer d → live d) : Sound layout fewer memory where
  directory isLive := sound.directory (implies isLive)
  table isLive := sound.table (implies isLive)
  entry isLive := sound.entry (implies isLive)
  pool := sound.pool

end

end Sound

end Xv6
