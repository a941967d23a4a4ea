import Xv6.Vm.Accounts

/-!
# The frames of a page directory

Which frames `setupkvm` takes for a page directory and its page tables, and how many;
and which frames `freevm` gives back.  When the memory runs out in the middle of
`setupkvm`, what it has taken so far stays allocated.
-/

namespace Xv6

open Program Function

variable {layout : Layout} {live : Nat → Prop} {d : Nat} {vm vm' vm'' : Vm}
  {stops : Stop → Prop} {answers : List (Option Nat)} {i : Fin nptentries}

theorem Supply.cons_iff {frame k : Nat} {use : Owner}
    (next : vm.answers = some frame :: vm'.answers) (pool : layout.InPool frame)
    (free : vm.owner frame = none)
    (owner : vm'.owner = update vm.owner frame (some use)) :
    Supply layout k vm' ↔ Supply layout (k + 1) vm := by
  constructor
  · rintro ⟨frames, rest, all, length, nodup, isFree⟩
    have unused : frame ∉ frames := by
      intro member
      have := (isFree frame member).2
      rw [owner, update_self] at this
      cases this
    refine ⟨frame :: frames, rest, by simp [next, all], by simp [length],
      List.nodup_cons.mpr ⟨unused, nodup⟩, fun frame' member => ?_⟩
    rcases List.mem_cons.mp member with rfl | later
    · exact ⟨pool, free⟩
    · have different : frame' ≠ frame := by
        rintro rfl
        exact unused later
      have := isFree frame' later
      rwa [owner, update_of_ne different] at this
  · refine fun supply => supply.tail next rfl fun different => ?_
    rw [owner, update_of_ne different]

/-! ## Page tables that are made -/

/-- The page tables that a directory has. -/
def Memory.tables (memory : Memory) (d : Nat) : Finset (Fin nptentries) :=
  Finset.univ.filter fun i => (memory.page d i).present = true

theorem Memory.mem_tables {memory : Memory} :
    i ∈ memory.tables d ↔ (memory.page d i).present = true := by
  simp [tables]

/-- The directory is allocated and is not its own page table. -/
structure Memory.Directory (memory : Memory) (d : Nat) : Prop where
  allocated : memory.owner d ≠ none
  table : ∀ i ∈ memory.tables d, (memory.page d i).frame ≠ d

/-- The exact effect of making page tables of `d`, all of them among `wanted`. -/
structure Tabled (layout : Layout) (d : Nat) (wanted : Finset (Fin nptentries)) (vm vm' : Vm) :
    Prop where
  directory : vm'.Directory d
  grows : vm.tables d ⊆ vm'.tables d
  made : vm'.tables d ⊆ vm.tables d ∪ wanted
  kept : ∀ i ∈ vm.tables d, vm'.page d i = vm.page d i
  fresh : ∀ i ∈ vm'.tables d \ vm.tables d, vm.owner (vm'.page d i).frame = none
  owner : ∀ {frame}, (∀ i ∈ vm'.tables d \ vm.tables d, (vm'.page d i).frame ≠ frame) →
    vm'.owner frame = vm.owner frame
  users : ∀ {frame d' page}, vm'.owner frame = some (.user d' page) →
    vm.owner frame = some (.user d' page)
  supply : ∀ k, Supply layout k vm' ↔
    Supply layout (k + ((vm'.tables d).card - (vm.tables d).card)) vm

namespace Tabled

variable {wanted more : Finset (Fin nptentries)} {frame : Nat}

theorem refl (directory : vm.Directory d) : Tabled layout d wanted vm vm where
  directory := directory
  grows := subset_rfl
  made := Finset.subset_union_left
  kept _ _ := rfl
  fresh := by simp
  owner _ := rfl
  users := id
  supply k := by simp

theorem keeps (tabled : Tabled layout d wanted vm vm')
    (used : vm.owner frame ≠ none) : vm'.owner frame = vm.owner frame :=
  tabled.owner fun i new same => used (same ▸ tabled.fresh i new)

theorem trans (first : Tabled layout d wanted vm vm') (second : Tabled layout d wanted vm' vm'') :
    Tabled layout d wanted vm vm'' where
  directory := second.directory
  grows := first.grows.trans second.grows
  made := by
    refine second.made.trans (Finset.union_subset first.made Finset.subset_union_right)
  kept i member := (second.kept i (first.grows member)).trans (first.kept i member)
  fresh i new := by
    obtain ⟨there, absent⟩ := Finset.mem_sdiff.mp new
    by_cases early : i ∈ vm'.tables d
    · rw [second.kept i early]
      exact first.fresh i (Finset.mem_sdiff.mpr ⟨early, absent⟩)
    · by_contra used
      have late := second.fresh i (Finset.mem_sdiff.mpr ⟨there, early⟩)
      rw [first.keeps used] at late
      exact used late
  owner {frame} different := by
    rw [second.owner fun i new => ?_, first.owner fun i new => ?_]
    · obtain ⟨there, absent⟩ := Finset.mem_sdiff.mp new
      rw [← second.kept i there]
      exact different i (Finset.mem_sdiff.mpr ⟨second.grows there, absent⟩)
    · obtain ⟨there, absent⟩ := Finset.mem_sdiff.mp new
      exact different i (Finset.mem_sdiff.mpr ⟨there, fun old => absent (first.grows old)⟩)
  users owned := first.users (second.users owned)
  supply k := by
    have less := Finset.card_le_card first.grows
    have less' := Finset.card_le_card second.grows
    rw [second.supply, first.supply]
    exact iff_of_eq (congrArg (Supply layout · vm) (by omega))

theorem setEntry (directory : vm.Directory d) {i index : Fin nptentries} {pte : Pte}
    (table : i ∈ vm.tables d) :
    Tabled layout d wanted vm
      { vm with toMemory := vm.setEntry (vm.page d i).frame index pte } := by
  have same : (vm.setEntry (vm.page d i).frame index pte).page d = vm.page d :=
    update_of_ne (directory.table i table).symm _ _
  have tables : (vm.setEntry (vm.page d i).frame index pte).tables d = vm.tables d := by
    simp only [Memory.tables, same]
  refine ⟨⟨directory.allocated, ?_⟩, ?_, ?_, ?_, ?_, fun _ => rfl, id, fun k => ?_⟩
  · intro i' member
    change i' ∈ (vm.setEntry (vm.page d i).frame index pte).tables d at member
    rw [tables] at member
    rw [same]
    exact directory.table i' member
  · exact tables.symm.subset
  · exact tables.subset.trans Finset.subset_union_left
  · exact fun i' _ => congrFun same i'
  · intro i' new
    change i' ∈ (vm.setEntry (vm.page d i).frame index pte).tables d \ vm.tables d at new
    simp [tables] at new
  · change Supply layout k _ ↔ Supply layout (k +
      (((vm.setEntry (vm.page d i).frame index pte).tables d).card - (vm.tables d).card)) vm
    rw [tables, Nat.sub_self]
    exact Iff.rfl

theorem addTable (directory : vm.Directory d) (absent : i ∉ vm.tables d)
    (asked : i ∈ wanted) {granted : List (Owner × Nat)}
    (next : vm.answers = some frame :: answers) (pool : layout.InPool frame)
    (free : vm.owner frame = none) :
    Tabled layout d wanted vm
      { toMemory := vm.addTable d i frame, answers := answers, granted := granted } := by
  have distinct : frame ≠ d := by
    rintro rfl
    exact directory.allocated free
  have page : (vm.addTable d i frame).page d =
      update (vm.page d) i ⟨frame, true, true, true⟩ := by
    simp [Memory.addTable, Memory.setEntry, Memory.setPage, Memory.grant, distinct.symm]
  have tables : (vm.addTable d i frame).tables d = insert i (vm.tables d) := by
    ext i'
    rw [Memory.mem_tables, Finset.mem_insert, Memory.mem_tables, page, update_apply]
    split_ifs with here <;> simp [here]
  have owner : (vm.addTable d i frame).owner = update vm.owner frame (some (.table d i)) :=
    rfl
  have other : ∀ i' ∈ vm.tables d, (vm.addTable d i frame).page d i' = vm.page d i' := by
    intro i' member
    rw [page, update_of_ne]
    rintro rfl
    exact absent member
  have new : ∀ {i'}, i' ∈ (vm.addTable d i frame).tables d \ vm.tables d ↔ i' = i := by
    intro i'
    rw [tables, Finset.mem_sdiff, Finset.mem_insert]
    constructor
    · rintro ⟨here | old, notOld⟩
      · exact here
      · exact absurd old notOld
    · rintro rfl
      exact ⟨.inl rfl, absent⟩
  have here : ((vm.addTable d i frame).page d i).frame = frame := by
    rw [page, update_self]
  refine ⟨⟨?_, ?_⟩, ?_, ?_, other, ?_, ?_, ?_, fun k => ?_⟩
  · change (vm.addTable d i frame).owner d ≠ none
    rw [owner, update_of_ne distinct.symm]
    exact directory.allocated
  · intro i' member
    change i' ∈ (vm.addTable d i frame).tables d at member
    rw [tables, Finset.mem_insert] at member
    rcases member with rfl | old
    · exact here.trans_ne distinct
    · rw [other i' old]
      exact directory.table i' old
  · exact (Finset.subset_insert _ _).trans tables.symm.subset
  · refine tables.subset.trans (Finset.insert_subset ?_ Finset.subset_union_left)
    exact Finset.mem_union_right _ asked
  · intro i' member
    obtain rfl := new.mp member
    exact (congrArg vm.owner here).trans free
  · intro frame' different
    have := different i (new.mpr rfl)
    change (vm.addTable d i frame).owner frame' = _
    rw [owner, update_of_ne]
    rintro rfl
    exact this here
  · intro frame' d' page owned
    change (vm.addTable d i frame).owner frame' = _ at owned
    rw [owner, update_apply] at owned
    split_ifs at owned
    · cases owned
    · exact owned
  · have count : ((vm.addTable d i frame).tables d).card - (vm.tables d).card = 1 := by
      rw [tables, Finset.card_insert_of_notMem absent]
      omega
    change Supply layout k _ ↔
      Supply layout (k + (((vm.addTable d i frame).tables d).card - (vm.tables d).card)) vm
    rw [count]
    exact Supply.cons_iff next pool free owner

end Tabled

/-- The memory has run out with a page table still to be made. -/
def Short (layout : Layout) (d : Nat) (wanted : Finset (Fin nptentries)) (vm vm' : Vm) : Prop :=
  ∃ vm₁ : Vm, Tabled layout d wanted vm vm₁ ∧ vm'.toMemory = vm₁.toMemory ∧
    ¬Supply layout 1 vm₁ ∧ ∃ i ∈ wanted, i ∉ vm₁.tables d

/-- What mapping pages does to the page tables, by its result. -/
def TabledOrShort (layout : Layout) (d : Nat) (wanted : Finset (Fin nptentries)) (vm : Vm)
    (done : Bool) (vm' : Vm) : Prop :=
  if done then Tabled layout d wanted vm vm' else Short layout d wanted vm vm'

section Map

variable {wanted : Finset (Fin nptentries)} {perm : Perm}

theorem Tabled.then_ {done : Bool} (first : Tabled layout d wanted vm vm')
    (rest : TabledOrShort layout d wanted vm' done vm'') :
    TabledOrShort layout d wanted vm done vm'' := by
  cases done with
  | true => exact first.trans rest
  | false =>
    obtain ⟨vm₁, tabled, short⟩ := rest
    exact ⟨vm₁, first.trans tabled, short⟩

theorem wp_mapPage_tabled {a pa : Nat} (directory : vm.Directory d) (asked : PDX a ∈ wanted) :
    Wp (mapPage layout d perm a pa) (TabledOrShort layout d wanted vm) (fun _ => True) vm := by
  rw [mapPage, wp_bind, walkpgdir, wp_bind, wp_get]
  by_cases present : (vm.page d (PDX a)).present = true
  · rw [if_pos present, wp_pure, wp_bind, wp_get]
    split_ifs
    · trivial
    · exact Tabled.setEntry directory (Memory.mem_tables.mpr present)
  · have absent : PDX a ∉ vm.tables d := fun member => present (Memory.mem_tables.mp member)
    rw [if_neg present, if_neg (by simp), wp_bind]
    refine wp_kalloc (fun answers _ starved => ?_) fun frame answers next pool free => ?_
    · exact ⟨vm, .refl directory, rfl, starved, PDX a, asked, absent⟩
    · rw [wp_bind, wp_store, wp_bind, wp_store, wp_pure, wp_bind, wp_get]
      split_ifs
      · trivial
      · have made : Tabled layout d wanted vm
            { toMemory := vm.addTable d (PDX a) frame, answers := answers,
              granted := (.table d (PDX a), frame) :: vm.granted } :=
          .addTable directory absent asked next pool free
        have distinct : d ≠ frame := by
          rintro rfl
          exact directory.allocated free
        have here : (vm.addTable d (PDX a) frame).page d (PDX a) = ⟨frame, true, true, true⟩ := by
          simp [Memory.addTable, Memory.setEntry, Memory.setPage, Memory.grant, distinct]
        have written : Tabled layout d wanted
            { toMemory := vm.addTable d (PDX a) frame, answers := answers,
              granted := (.table d (PDX a), frame) :: vm.granted }
            { toMemory := (vm.addTable d (PDX a) frame).setEntry
                ((vm.addTable d (PDX a) frame).page d (PDX a)).frame (PTX a) (perm.pte pa)
              answers := answers
              granted := (.table d (PDX a), frame) :: vm.granted } :=
          .setEntry made.directory (Memory.mem_tables.mpr (congrArg Pte.present here))
        rw [here] at written
        exact made.trans written

theorem wp_mapLoop_tabled {n a pa : Nat} (directory : vm.Directory d)
    (small : a + n * pgsize < 2 ^ 32) (asked : ∀ k ≤ n, PDX (a + k * pgsize) ∈ wanted) :
    Wp (mapLoop layout d perm n a pa) (TabledOrShort layout d wanted vm) (fun _ => True) vm := by
  induction n generalizing a pa vm with
  | zero => exact wp_mapPage_tabled directory (by simpa using asked 0 le_rfl)
  | succ n ih =>
    have next : toUint (a + pgsize) = a + pgsize := by
      simp only [toUint, pgsize] at small ⊢
      omega
    have shift : ∀ k, a + pgsize + k * pgsize = a + (k + 1) * pgsize := fun k => by ring
    rw [mapLoop, wp_bind, next]
    refine (wp_mapPage_tabled directory (by simpa using asked 0 (by omega))).imp ?_
    intro done vm' first
    cases done with
    | false => exact first
    | true =>
      have tabled : Tabled layout d wanted vm vm' := first
      refine (ih tabled.directory (by rw [shift]; exact small) fun k le => ?_).imp ?_
      · rw [shift]
        exact asked (k + 1) (by omega)
      · exact fun done vm'' rest => tabled.then_ rest

theorem wp_mapKernel_tabled {ranges : List (Nat × Nat × Perm)}
    (isRange : ∀ range ∈ ranges, KernelRange range) (directory : vm.Directory d)
    (asked : ∀ i, NeedsTable ranges i → i ∈ wanted) :
    Wp (mapKernel layout d ranges) (TabledOrShort layout d wanted vm) (fun _ => True) vm := by
  induction ranges generalizing vm with
  | nil => exact Tabled.refl directory
  | cons range rest ih =>
    obtain ⟨p, e, perm⟩ := range
    obtain ⟨aligned, whole, nonempty, small, -, -⟩ := isRange _ List.mem_cons_self
    rw [mapKernel, wp_bind]
    change Wp (mappages layout d p (rangeSize (p, e, perm)) p perm) _ _ _
    rw [mappages_eq aligned whole nonempty small]
    refine (wp_mapLoop_tabled directory ?_ fun k le => asked _ ⟨_, List.mem_cons_self, ?_⟩).imp ?_
    · simp only [pgsize] at *
      omega
    · generalize rangeSize (p, e, perm) = size at *
      simp only [PDX, Fin.le_def, nptentries, pgsize] at *
      omega
    · intro done vm' first
      cases done with
      | false => exact first
      | true =>
        have tabled : Tabled layout d wanted vm vm' := first
        refine (ih (fun range member => isRange range (List.mem_cons_of_mem _ member))
          tabled.directory fun i needed => asked i ?_).imp ?_
        · obtain ⟨range, member, bounds⟩ := needed
          exact ⟨range, List.mem_cons_of_mem _ member, bounds⟩
        · exact fun done vm'' rest => tabled.then_ rest

end Map

/-! ## `setupkvm` -/

/-- The page tables that `kmap` needs. -/
def kernelTables : Finset (Fin nptentries) :=
  Finset.univ.filter fun i => i.val < 4 ∨ 1016 ≤ i.val

theorem card_kernelTables : kernelTables.card = 12 := by
  decide +kernel

/-- The pages that `setupkvm` takes: the directory and its page tables. -/
def directoryPages : Nat := 13

/-- The exact effect of a `setupkvm` that succeeds. -/
structure Made (layout : Layout) (live : Nat → Prop) (d : Nat) (vm vm' : Vm) : Prop
    extends Built layout live d vm vm' where
  unused : ∀ i ∈ vm'.tables d, vm.owner (vm'.page d i).frame = none
  others : ∀ {frame}, frame ≠ d → (∀ i ∈ vm'.tables d, (vm'.page d i).frame ≠ frame) →
    vm'.owner frame = vm.owner frame
  enough : Supply layout directoryPages vm

/-- The memory when `setupkvm` starts to map the kernel. -/
def Vm.newDirectory (vm : Vm) (d : Nat) (answers : List (Option Nat)) : Vm where
  toMemory := (vm.grant .directory d).setPage d fun _ => .zero
  answers := answers
  granted := (.directory, d) :: vm.granted

theorem tables_newDirectory : (vm.newDirectory d answers).tables d = ∅ := by
  simp [Memory.tables, Vm.newDirectory, Memory.setPage]

theorem owner_newDirectory :
    (vm.newDirectory d answers).owner = update vm.owner d (some .directory) := rfl

/-- How `setupkvm` ends, as far as page tables and free frames go. -/
def SetupTables (layout : Layout) (vm : Vm) : Option Nat → Vm → Prop
  | some d, vm' => ∃ answers, vm.answers = some d :: answers ∧ layout.InPool d ∧
      vm.owner d = none ∧ Tabled layout d kernelTables (vm.newDirectory d answers) vm'
  | none, vm' => vm'.toMemory = vm.toMemory ∧ ¬Supply layout 1 vm ∨
      ∃ d answers, vm.answers = some d :: answers ∧ layout.InPool d ∧ vm.owner d = none ∧
        Short layout d kernelTables (vm.newDirectory d answers) vm'

theorem wp_setupkvm_tables : Wp (setupkvm layout) (SetupTables layout vm) (fun _ => True) vm := by
  rw [setupkvm, wp_bind]
  refine wp_kalloc (fun answers _ starved => .inl ⟨rfl, starved⟩)
    fun d answers next pool free => ?_
  rw [wp_bind, wp_store, wp_bind]
  have directory : (vm.newDirectory d answers).Directory d := by
    refine ⟨?_, by simp [tables_newDirectory]⟩
    simp [owner_newDirectory]
  have asked : ∀ i, NeedsTable (kmap layout) i → i ∈ kernelTables := by
    intro i needed
    simpa [kernelTables] using needsTable_kmap.mp needed
  refine (wp_mapKernel_tabled kernelRange_kmap directory asked).imp fun done vm' outcome => ?_
  cases done with
  | true => exact ⟨answers, next, pool, free, outcome⟩
  | false => exact .inr ⟨d, answers, next, pool, free, outcome⟩

theorem Short.starved (next : vm.answers = some d :: answers)
    (pool : layout.InPool d) (free : vm.owner d = none)
    (short : Short layout d kernelTables (vm.newDirectory d answers) vm') :
    Supply layout 1 vm ∧ ¬Supply layout directoryPages vm ∧ vm'.owner d ≠ none ∧
      ∀ {frame d' page}, vm'.owner frame = some (.user d' page) →
        vm.owner frame = some (.user d' page) := by
  obtain ⟨vm₁, tabled, memory, starved, i, wanted, absent⟩ := short
  have shift : ∀ {k}, Supply layout k (vm.newDirectory d answers) ↔ Supply layout (k + 1) vm :=
    Supply.cons_iff next pool free owner_newDirectory
  have made : vm₁.tables d ⊆ kernelTables := by
    have := tabled.made
    rwa [tables_newDirectory, Finset.empty_union] at this
  have fewer : (vm₁.tables d).card < 12 := by
    rw [← card_kernelTables]
    refine Finset.card_lt_card (Finset.ssubset_iff_of_subset made |>.mpr ⟨i, wanted, absent⟩)
  rw [tabled.supply, tables_newDirectory, Finset.card_empty, shift] at starved
  refine ⟨shift.mp .zero, fun supply => starved (supply.mono ?_), ?_, fun owned => ?_⟩
  · simp only [directoryPages]
    omega
  · rw [memory]
    exact tabled.directory.allocated
  · rw [memory] at owned
    have before := tabled.users owned
    rw [owner_newDirectory, update_apply] at before
    split_ifs at before
    · cases before
    · exact before

theorem wp_setupkvm_exact (sound : Sound layout live vm.toMemory) {post : Option Nat → Vm → Prop}
    (fails : ∀ vm', vm'.toMemory = vm.toMemory → ¬Supply layout 1 vm → post none vm')
    (leaks : ∀ vm' d, Supply layout 1 vm → ¬Supply layout directoryPages vm →
      vm.owner d = none → vm'.owner d ≠ none → (∀ d, Kept layout live d vm vm') →
      (∀ {frame d' page}, vm'.owner frame = some (.user d' page) →
        vm.owner frame = some (.user d' page)) → post none vm')
    (builds : ∀ vm' d, Made layout live d vm vm' → post (some d) vm') :
    Wp (setupkvm layout) post stops vm := by
  have tables : Wp (setupkvm layout) (SetupTables layout vm) (fun _ => True) vm :=
    wp_setupkvm_tables
  have kept : Wp (setupkvm layout) (fun result vm' =>
      (result = none → ∀ d, Kept layout live d vm vm') ∧
      ∀ d, result = some d → Built layout live d vm vm') (fun _ => False) vm := by
    refine wp_setupkvm sound (fun vm' _ kept => ⟨fun _ => kept, ?_⟩) fun vm' d built => ⟨?_, ?_⟩
    · rintro d ⟨⟩
    · rintro ⟨⟩
    · rintro d' same
      obtain rfl := Option.some.inj same
      exact built
  refine (tables.and kept).mono (fun result vm' => ?_) fun _ both => both.2.elim
  rintro ⟨outcome, kept, built⟩
  cases result with
  | none =>
    rcases outcome with ⟨same, starved⟩ | ⟨d, answers, next, pool, free, short⟩
    · exact fails vm' same starved
    · obtain ⟨first, starved, leaked, users⟩ := short.starved next pool free
      exact leaks vm' d first starved free leaked (kept rfl) users
  | some d =>
    have built := built d rfl
    obtain ⟨answers, next, pool, free, tabled⟩ := outcome
    have new : vm'.tables d \ (vm.newDirectory d answers).tables d = vm'.tables d := by
      rw [tables_newDirectory, Finset.sdiff_empty]
    have all : vm'.tables d = kernelTables := by
      ext i
      rw [Memory.mem_tables, built.tables i]
      simp [kernelTables]
    have owner : ∀ {frame}, frame ≠ d → (vm.newDirectory d answers).owner frame =
        vm.owner frame := fun different => by
      rw [owner_newDirectory, update_of_ne different]
    refine builds vm' d ⟨built, fun i member => ?_, fun different untabled => ?_, ?_⟩
    · rw [← owner (tabled.directory.table i member)]
      exact tabled.fresh i (by rwa [new])
    · rw [tabled.owner (by rwa [new]), owner different]
    · have count : (vm'.tables d).card - ((vm.newDirectory d answers).tables d).card = 12 := by
        rw [tables_newDirectory, all, card_kernelTables]
        rfl
      have supply := (tabled.supply 0).mp .zero
      rw [count] at supply
      exact (Supply.cons_iff next pool free owner_newDirectory).mp supply

/-! ## `freevm` -/

/-- The exact effect of taking the directory `d` down: its frames, and no others, are free. -/
structure TakenDown (layout : Layout) (live : Nat → Prop) (d : Nat) (vm vm' : Vm) : Prop
    extends Freed layout live d vm vm' where
  self : vm'.owner d = none
  tables : ∀ i ∈ vm.tables d, vm'.owner (vm.page d i).frame = none
  pages : ∀ {va}, va < usertop → (vm.entry d va).present = true →
    vm'.owner (vm.entry d va).frame = none
  others : ∀ {frame}, frame ≠ d → (∀ i ∈ vm.tables d, (vm.page d i).frame ≠ frame) →
    (∀ va < usertop, (vm.entry d va).present = true → (vm.entry d va).frame ≠ frame) →
    vm'.owner frame = vm.owner frame

theorem wp_freeTables_exact {indices : List (Fin nptentries)} (nodup : indices.Nodup)
    (directory : vm.owner d = some .directory)
    (pool : ∀ {frame use}, vm.owner frame = some use → layout.InPool frame)
    (tables : ∀ i ∈ indices, i ∈ vm.tables d → vm.owner (vm.page d i).frame = some (.table d i)) :
    Wp (freeTables layout d indices) (fun _ vm' => vm'.owner = fun frame =>
      if ∃ i ∈ indices, i ∈ vm.tables d ∧ (vm.page d i).frame = frame then none
      else vm.owner frame) stops vm := by
  induction indices generalizing vm with
  | nil =>
    change vm.owner = _
    simp
  | cons i rest ih =>
    obtain ⟨unvisited, nodup⟩ := List.nodup_cons.mp nodup
    simp only [freeTables, wp_bind, wp_get]
    by_cases present : (vm.page d i).present = true
    · have member : i ∈ vm.tables d := Memory.mem_tables.mpr present
      have table := tables i List.mem_cons_self member
      have distinct : d ≠ (vm.page d i).frame := by
        intro same
        simp [← same, directory] at table
      have same : (vm.release (vm.page d i).frame).page d = vm.page d :=
        update_of_ne distinct _ _
      have sameTables : (vm.release (vm.page d i).frame).tables d = vm.tables d := by
        simp only [Memory.tables, same]
      rw [if_pos present, wp_bind]
      refine wp_kfree (pool table) table ?_
      refine (ih nodup ?_ ?_ ?_).imp fun _ vm' owner => ?_
      · exact (Sound.owner_release_of_ne distinct).trans directory
      · intro frame use owned
        refine pool ((Sound.owner_release_of_ne ?_).symm.trans owned)
        rintro rfl
        simp [Memory.release] at owned
      · intro i' later there
        change i' ∈ (vm.release (vm.page d i).frame).tables d at there
        rw [sameTables] at there
        have table' := tables i' (List.mem_cons_of_mem _ later) there
        change (vm.release _).owner ((vm.release (vm.page d i).frame).page d i').frame = _
        rw [same, Sound.owner_release_of_ne]
        · exact table'
        · intro equal
          rw [equal, table] at table'
          simp only [Option.some.injEq, Owner.table.injEq, true_and] at table'
          exact unvisited (table' ▸ later)
      · rw [owner]
        funext frame
        change (if ∃ i' ∈ rest, i' ∈ (vm.release (vm.page d i).frame).tables d ∧
            ((vm.release (vm.page d i).frame).page d i').frame = frame then none
          else (vm.release (vm.page d i).frame).owner frame) = _
        rw [sameTables, same]
        by_cases here : (vm.page d i).frame = frame
        · subst here
          rw [eq_comm, if_pos ⟨i, List.mem_cons_self, member, rfl⟩]
          split_ifs
          · rfl
          · simp [Memory.release]
        · rw [Sound.owner_release_of_ne fun equal => here equal.symm]
          refine if_congr ?_ rfl rfl
          simp [here]
    · have absent : i ∉ vm.tables d := fun member => present (Memory.mem_tables.mp member)
      rw [if_neg present]
      refine (ih nodup directory pool fun i' later => tables i' (List.mem_cons_of_mem _ later)).imp
        fun _ vm' owner => ?_
      rw [owner]
      funext frame
      refine if_congr ?_ rfl rfl
      simp [absent]

theorem wp_freevm_exact (sound : Sound layout live vm.toMemory) (isLive : live d) :
    Wp (freevm layout d) (fun _ vm' => TakenDown layout live d vm vm') stops vm := by
  have freed : Wp (freevm layout d) (fun _ vm' => Freed layout live d vm vm') (fun _ => False) vm :=
    wp_freevm sound isLive fun _ freed => freed
  have nonzero : d ≠ 0 := by
    rintro rfl
    have pool := sound.pool (sound.directory isLive)
    have := layout.text
    have := layout.ordered
    simp only [Layout.InPool] at pool
    omega
  suffices frames : Wp (freevm layout d) (fun _ vm' => vm'.owner d = none ∧
      (∀ i ∈ vm.tables d, vm'.owner (vm.page d i).frame = none) ∧
      (∀ va < usertop, (vm.entry d va).present = true → vm'.owner (vm.entry d va).frame = none) ∧
      ∀ frame, frame ≠ d → (∀ i ∈ vm.tables d, (vm.page d i).frame ≠ frame) →
        (∀ va < usertop, (vm.entry d va).present = true → (vm.entry d va).frame ≠ frame) →
        vm'.owner frame = vm.owner frame) (fun _ => True) vm by
    refine (freed.and frames).mono ?_ fun _ both => both.1.elim
    rintro - vm' ⟨freed, self, tables, pages, others⟩
    exact { freed with
      self := self
      tables := tables
      pages := fun below present => pages _ below present
      others := fun different untabled unmapped => others _ different untabled unmapped }
  rw [freevm, if_neg nonzero, wp_bind]
  refine (wp_deallocuvm_exact sound isLive le_rfl).imp fun _ vm₁ dropped => ?_
  have shrank := dropped.2
  have page := shrank.page isLive
  have tables : vm₁.tables d = vm.tables d := by simp only [Memory.tables, page]
  have directory := shrank.sound.directory isLive
  have nodup : (List.finRange nptentries).Nodup := List.nodup_finRange nptentries
  have all : ∀ i, i ∈ List.finRange nptentries := List.mem_finRange
  rw [wp_bind]
  generalize List.finRange nptentries = indices at nodup all
  refine (wp_freeTables_exact nodup directory shrank.sound.pool fun i _ member =>
    shrank.sound.table isLive (Memory.mem_tables.mp member)).imp fun _ vm₂ owner => ?_
  have tabled : ∀ {frame}, (∃ i ∈ indices, i ∈ vm₁.tables d ∧ (vm₁.page d i).frame = frame) ↔
      ∃ i ∈ vm.tables d, (vm.page d i).frame = frame := by
    intro frame
    rw [tables, page]
    constructor
    · rintro ⟨i, -, member, same⟩
      exact ⟨i, member, same⟩
    · rintro ⟨i, member, same⟩
      exact ⟨i, all i, member, same⟩
  have owner₂ : ∀ frame, vm₂.owner frame =
      if ∃ i ∈ vm.tables d, (vm.page d i).frame = frame then none else vm₁.owner frame := by
    intro frame
    rw [owner]
    exact if_congr tabled rfl rfl
  have directory₂ : vm₂.owner d = some .directory := by
    rw [owner₂, if_neg, directory]
    rintro ⟨i, member, same⟩
    have table := sound.table isLive (Memory.mem_tables.mp member)
    rw [same, sound.directory isLive] at table
    cases table
  refine wp_kfree (shrank.sound.pool directory) directory₂ ?_
  have final : ∀ {frame}, frame ≠ d → (vm₂.release d).owner frame = vm₂.owner frame :=
    Sound.owner_release_of_ne
  have stays : ∀ {frame}, vm₂.owner frame = none → (vm₂.release d).owner frame = none := by
    intro frame free
    by_cases same : frame = d
    · simp [same, Memory.release]
    · rw [final same, free]
  refine ⟨by simp [Memory.release], fun i member => stays ?_, fun va below present => stays ?_,
    fun frame different untabled unmapped => ?_⟩
  · rw [owner₂, if_pos ⟨i, member, rfl⟩]
  · rw [owner₂]
    split_ifs
    · rfl
    · refine shrank.freed below ?_ present
      simp only [InPages, pgroundup, usertop, pgsize] at *
      omega
  · change (vm₂.release d).owner frame = _
    rw [final different, owner₂, if_neg, shrank.others fun va below _ => unmapped va below]
    rintro ⟨i, member, same⟩
    exact untabled i member same

end Xv6
