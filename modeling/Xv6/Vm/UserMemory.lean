import Xv6.Vm.Mapping

/-!
# What the user memory functions do

The specifications of `deallocuvm`, `allocuvm`, `freevm`, `copyuvm` and `inituvm`.
-/

namespace Xv6

open Program Function

variable {layout : Layout} {live : Nat → Prop} {d va frame : Nat} {vm vm' vm'' : Vm}
  {stops : Stop → Prop} {post : Unit → Vm → Prop} {low high : Nat} {oldsz newsz : Nat}
  {vm₁ : Vm}

/-! ## Taking pages back -/

section Drop

variable {memory : Memory} {d' va' : Nat}

/-- The memory after the page of an address has been freed and its entry cleared. -/
def Memory.dropPage (memory : Memory) (d va : Nat) : Memory :=
  (memory.release (memory.entry d va).frame).setEntry (memory.page d (PDX va)).frame
    (PTX va) .zero

theorem Sound.allowed_of_present (sound : Sound layout live memory) (isLive : live d)
    (below : va < usertop) (present : (memory.entry d va).present = true) :
    (memory.entry d va).user = true ∧
      memory.owner (memory.entry d va).frame = some (.user d (va / pgsize)) := by
  rcases sound.entry isLive (lt_of_lt_usertop below) with zero | ⟨-, allowed⟩
  · simp [zero] at present
  · simpa only [Pte.Allowed, below, if_true] using allowed

theorem Sound.user_of_present (sound : Sound layout live memory) (isLive : live d)
    (below : va < usertop) (present : (memory.entry d va).present = true) :
    memory.owner (memory.entry d va).frame = some (.user d (va / pgsize)) :=
  (sound.allowed_of_present isLive below present).2

theorem Sound.present_of_entry (present : (memory.entry d va).present = true) :
    (memory.page d (PDX va)).present = true := by
  by_contra absent
  simp [Memory.entry, absent] at present

section
variable (sound : Sound layout live memory) (isLive : live d) (below : va < usertop)
  (present : (memory.entry d va).present = true)
include sound isLive below present

theorem Sound.dropPage_eq :
    memory.dropPage d va =
      (memory.setEntry (memory.page d (PDX va)).frame (PTX va) .zero).release
        (memory.entry d va).frame := by
  have table := sound.table isLive (Sound.present_of_entry present)
  have user := sound.user_of_present isLive below present
  have distinct : (memory.page d (PDX va)).frame ≠ (memory.entry d va).frame := by
    intro same
    simp [same, user] at table
  simp only [Memory.dropPage, Memory.release, Memory.setEntry, Memory.setPage,
    update_of_ne distinct, update_comm distinct]

theorem Sound.entry_dropPage (other : live d')
    (small' : va' < 2 ^ 32) : (memory.dropPage d va).entry d' va' =
      if d' = d ∧ va' / pgsize = va / pgsize then .zero else memory.entry d' va' := by
  have small := lt_of_lt_usertop below
  have table := Sound.present_of_entry present
  have cleared := sound.setEntry isLive table small (.inl rfl)
  have plain := cleared.plain_of_user (sound.user_of_present isLive below present)
  rw [sound.dropPage_eq isLive below present, cleared.entry_release plain other,
    sound.entry_setEntry isLive table small other small']

theorem Sound.page_dropPage (other : live d') :
    (memory.dropPage d va).page d' = memory.page d' := by
  have small := lt_of_lt_usertop below
  have table := Sound.present_of_entry present
  have cleared := sound.setEntry isLive table small (.inl rfl)
  have plain := cleared.plain_of_user (sound.user_of_present isLive below present)
  rw [sound.dropPage_eq isLive below present, Sound.page_release plain other,
    sound.page_setEntry isLive table _ _ other]

theorem Sound.dropPage : Sound layout live (memory.dropPage d va) := by
  have small := lt_of_lt_usertop below
  have table := Sound.present_of_entry present
  have user := sound.user_of_present isLive below present
  have cleared := sound.setEntry isLive table small (.inl rfl)
  rw [sound.dropPage_eq isLive below present]
  refine cleared.release (cleared.plain_of_user user) fun {d' va'} other below' present' => ?_
  have small' := lt_of_lt_usertop below'
  rw [sound.entry_setEntry isLive table small other small'] at present' ⊢
  split_ifs at present' ⊢ with here
  · simp at present'
  · intro same
    have user' := sound.user_of_present other below' present'
    rw [same, user] at user'
    simp only [Option.some.injEq, Owner.user.injEq] at user'
    exact here ⟨user'.1.symm, user'.2.symm⟩

end

end Drop

/-- What taking back the user pages of `d` from `low` to `high` does. -/
structure Dropped (layout : Layout) (live : Nat → Prop) (d low high : Nat) (vm vm' : Vm) :
    Prop where
  sound : Sound layout live vm'.toMemory
  owner : ∀ {frame use}, vm.owner frame = some use → (∀ page, use ≠ .user d page) →
    vm'.owner frame = some use
  granted : vm'.granted = vm.granted
  answers : vm'.answers = vm.answers
  page : ∀ {d'}, live d' → vm'.page d' = vm.page d'
  entry : ∀ {d' va}, live d' → va < 2 ^ 32 → vm'.entry d' va =
    if d' = d ∧ low / pgsize ≤ va / pgsize ∧ va / pgsize * pgsize < high then .zero
    else vm.entry d' va

section
variable (sound : Sound layout live vm.toMemory)
include sound

theorem wp_deallocPage {a : Nat} (isLive : live d) (below : a < usertop)
    (skips : (vm.entry d a).present = false → post () vm) (drops : (vm.entry d a).present = true →
      post () { vm with toMemory := vm.dropPage d a }) :
    Wp (deallocPage layout d a) post stops vm := by
  simp only [deallocPage, wp_bind, wp_walkpgdir]
  by_cases table : (vm.page d (PDX a)).present = true
  · have place : vm.page (vm.page d (PDX a)).frame (PTX a) = vm.entry d a := by
      rw [Memory.entry, if_pos table]
    simp only [if_pos table, wp_bind, wp_get, place]
    by_cases present : (vm.entry d a).present = true
    · have user := sound.user_of_present isLive below present
      have pool := sound.pool user
      have nonzero : (vm.entry d a).frame ≠ 0 := by
        intro zero
        have := layout.text
        have := layout.ordered
        simp only [Layout.InPool, zero] at pool
        omega
      simp only [if_pos present, if_neg nonzero, wp_bind]
      exact wp_kfree pool user (drops present)
    · simp only [if_neg present]
      exact skips (by simpa using present)
  · rw [if_neg table]
    exact skips (by simp [Memory.entry, table])

theorem Dropped.refl
    (aligned : low % pgsize = 0) (empty : high ≤ low) : Dropped layout live d low high vm vm where
  sound := sound
  owner owned _ := owned
  granted := rfl
  answers := rfl
  page _ := rfl
  entry {d' va} _ _ := by
    have outside : ¬(low / pgsize ≤ va / pgsize ∧ va / pgsize * pgsize < high) := by
      simp only [pgsize] at aligned ⊢
      omega
    rw [if_neg fun here => outside here.2]

theorem Dropped.step (isLive : live d)
    (aligned : low % pgsize = 0) (more : low < high) (below : low < usertop)
    (present : (vm.entry d low).present = true) (rest : Dropped layout live d (low + pgsize) high
      { vm with toMemory := vm.dropPage d low } vm') :
    Dropped layout live d low high vm vm' where
  sound := rest.sound
  owner {frame use} owned other := by
    refine rest.owner ?_ other
    have different : frame ≠ (vm.entry d low).frame := by
      rintro rfl
      rw [sound.user_of_present isLive below present] at owned
      exact other _ (Option.some.inj owned).symm
    exact (Sound.owner_release_of_ne different).trans owned
  granted := rest.granted
  answers := rest.answers
  page other := (rest.page other).trans (sound.page_dropPage isLive below present other)
  entry {d' va} other small := by
    rw [rest.entry other small]
    have first := sound.entry_dropPage isLive below present other small
    simp only [first, ← ite_or]
    refine if_congr ?_ rfl rfl
    simp only [pgsize] at *
    omega

theorem Dropped.skip (isLive : live d) (aligned : low % pgsize = 0) (below : low < usertop)
    (absent : (vm.entry d low).present = false)
    (rest : Dropped layout live d (low + pgsize) high vm vm') :
    Dropped layout live d low high vm vm' where
  sound := rest.sound
  owner := rest.owner
  granted := rest.granted
  answers := rest.answers
  page := rest.page
  entry {d' va} other small := by
    rw [rest.entry other small]
    by_cases first : d' = d ∧ va / pgsize = low / pgsize
    · obtain ⟨rfl, same⟩ := first
      have small' := lt_of_lt_usertop below
      have zero : vm.entry d' va = .zero := by
        rw [vm.entry_congr d' small small' same]
        exact sound.zero_of_absent isLive small' absent
      simp [zero]
    · refine if_congr (and_congr_right fun here => ?_) rfl rfl
      have later : va / pgsize ≠ low / pgsize := fun same => first ⟨here, same⟩
      simp only [pgsize] at *
      omega

theorem wp_deallocLoop {oldsz a : Nat} (isLive : live d)
    (aligned : a % pgsize = 0) (bound : oldsz ≤ usertop)
    (drops : ∀ vm', Dropped layout live d a oldsz vm vm' → post () vm') :
    Wp (deallocLoop layout d oldsz a) post stops vm := by
  induction left : oldsz - a using Nat.strong_induction_on generalizing a vm with
  | _ count ih =>
    rw [deallocLoop]
    split_ifs with more
    · have shorter : oldsz - (a + pgsize) < count := by
        simp only [pgsize]
        omega
      have below := lt_of_lt_of_le more bound
      rw [wp_bind]
      refine wp_deallocPage sound isLive below (fun absent => ?_) fun present => ?_
      · exact ih _ shorter sound (by simpa using aligned)
          (fun vm' rest => drops vm' (rest.skip sound isLive aligned below absent)) rfl
      · exact ih _ shorter (sound.dropPage isLive below present) (by simpa using aligned)
          (fun vm' rest => drops vm' (rest.step sound isLive aligned more below present)) rfl
    · exact drops vm (.refl sound aligned (by omega))

end

theorem pgroundup_mod {size : Nat} : pgroundup size % pgsize = 0 := by
  simp [pgroundup]

theorem wp_deallocuvm (sound : Sound layout live vm.toMemory)
    (isLive : live d) (bound : oldsz ≤ usertop) {post : Nat → Vm → Prop}
    (drops : ∀ vm', Dropped layout live d (pgroundup newsz) oldsz vm vm' →
      post (min oldsz newsz) vm') : Wp (deallocuvm layout d oldsz newsz) post stops vm := by
  rw [deallocuvm, wp_ite]
  refine ⟨fun grows => ?_, fun shrinks => ?_⟩
  · have same := drops vm (.refl sound pgroundup_mod (le_trans grows le_pgroundup))
    rwa [min_eq_left grows] at same
  · rw [wp_bind]
    refine wp_deallocLoop sound isLive pgroundup_mod bound fun vm' dropped => ?_
    have result := drops vm' dropped
    rwa [min_eq_right (by omega)] at result

/-! ## Taking a directory down -/

/-- What `freevm` does. -/
structure Freed (layout : Layout) (live : Nat → Prop) (d : Nat) (vm vm' : Vm) : Prop where
  sound : Sound layout (fun d' => live d' ∧ d' ≠ d) vm'.toMemory
  owner : ∀ {frame use}, vm.owner frame = some use → (∀ page, use ≠ .user d page) →
    (∀ i, use ≠ .table d i) → frame ≠ d → vm'.owner frame = some use
  granted : vm'.granted = vm.granted
  answers : vm'.answers = vm.answers
  page : ∀ {d'}, live d' → d' ≠ d → vm'.page d' = vm.page d'
  entry : ∀ {d' va}, live d' → d' ≠ d → va < 2 ^ 32 → vm'.entry d' va = vm.entry d' va

namespace Freed

theorem trans (first : Freed layout live d vm vm') (second : Freed layout live d vm' vm'') :
    Freed layout live d vm vm'' where
  sound := second.sound
  owner owned user table different :=
    second.owner (first.owner owned user table different) user table different
  granted := second.granted.trans first.granted
  answers := second.answers.trans first.answers
  page isLive different := (second.page isLive different).trans (first.page isLive different)
  entry isLive different small :=
    (second.entry isLive different small).trans (first.entry isLive different small)

theorem of_dropped (dropped : Dropped layout live d low high vm vm') :
    Freed layout live d vm vm' where
  sound := dropped.sound.narrow And.left
  owner owned user _ _ := dropped.owner owned user
  granted := dropped.granted
  answers := dropped.answers
  page isLive _ := dropped.page isLive
  entry isLive different small := by
    rw [dropped.entry isLive small, if_neg fun here => different here.1]

theorem of_release (sound : Sound layout (fun d' => live d' ∧ d' ≠ d) vm.toMemory)
    (own : frame = d ∧ vm.owner d = some .directory ∨ ∃ i, vm.owner frame = some (.table d i)) :
    Freed layout live d vm { vm with toMemory := vm.release frame } := by
  have plain : vm.Plain (fun d' => live d' ∧ d' ≠ d) frame := by
    intro d' isLive
    rcases own with ⟨rfl, directory⟩ | ⟨i, table⟩
    · exact ⟨isLive.2.symm, by simp [directory]⟩
    · refine ⟨?_, ?_⟩
      · rintro rfl
        simp [sound.directory isLive] at table
      · intro i' same
        rw [table] at same
        simp only [Option.some.injEq, Owner.table.injEq] at same
        exact isLive.2 same.1.symm
  have unmapped : ∀ {d' va}, (live d' ∧ d' ≠ d) → va < usertop →
      (vm.entry d' va).present = true → (vm.entry d' va).frame ≠ frame := by
    intro d' va isLive below present same
    have user := sound.user_of_present isLive below present
    rcases own with ⟨rfl, directory⟩ | ⟨i, table⟩
    · simp [same, directory] at user
    · simp [same, table] at user
  refine ⟨sound.release plain unmapped, ?_, rfl, rfl, ?_, ?_⟩
  · intro other use owned _ notTable different
    have distinct : other ≠ frame := by
      rintro rfl
      rcases own with ⟨same, -⟩ | ⟨i, table⟩
      · exact different same
      · exact notTable i (Option.some.inj (owned.symm.trans table))
    exact (Sound.owner_release_of_ne distinct).trans owned
  · exact fun isLive different => Sound.page_release plain ⟨isLive, different⟩
  · exact fun isLive different _ => sound.entry_release plain ⟨isLive, different⟩

end Freed

theorem wp_freeTables {indices : List (Fin nptentries)} (nodup : indices.Nodup)
    (sound : Sound layout (fun d' => live d' ∧ d' ≠ d) vm.toMemory)
    (directory : vm.owner d = some .directory)
    (tables : ∀ i ∈ indices, (vm.page d i).present = true →
      vm.owner (vm.page d i).frame = some (.table d i))
    (frees : ∀ vm', Freed layout live d vm vm' → vm'.owner d = some .directory → post () vm') :
    Wp (freeTables layout d indices) post stops vm := by
  induction indices generalizing vm with
  | nil =>
    refine frees vm ⟨sound, ?_, rfl, rfl, fun _ _ => rfl, fun _ _ _ => rfl⟩ directory
    exact fun owned _ _ _ => owned
  | cons i rest ih =>
    obtain ⟨unvisited, nodup⟩ := List.nodup_cons.mp nodup
    simp only [freeTables, wp_bind, wp_get]
    by_cases present : (vm.page d i).present = true
    · have table := tables i List.mem_cons_self present
      have freed := Freed.of_release sound (.inr ⟨i, table⟩)
      have distinct : (vm.page d i).frame ≠ d := by
        intro same
        simp [same, directory] at table
      have same : (vm.release (vm.page d i).frame).page d = vm.page d :=
        update_of_ne distinct.symm _ _
      rw [if_pos present, wp_bind]
      refine wp_kfree (sound.pool table) table ?_
      refine ih nodup freed.sound ?_ (fun i' member present' => ?_) fun vm' freed' directory' =>
        frees vm' (freed.trans freed') directory'
      · exact (Sound.owner_release_of_ne distinct.symm).trans directory
      · rw [same] at present' ⊢
        have table' := tables i' (List.mem_cons_of_mem _ member) present'
        have different : (vm.page d i').frame ≠ (vm.page d i).frame := by
          intro equal
          rw [equal, table] at table'
          simp only [Option.some.injEq, Owner.table.injEq, true_and] at table'
          exact unvisited (table' ▸ member)
        exact (Sound.owner_release_of_ne different).trans table'
    · rw [if_neg present]
      exact ih nodup sound directory
        (fun i' member => tables i' (List.mem_cons_of_mem _ member)) frees

theorem wp_freevm (sound : Sound layout live vm.toMemory) (isLive : live d)
    (frees : ∀ vm', Freed layout live d vm vm' → post () vm') :
    Wp (freevm layout d) post stops vm := by
  have nonzero : d ≠ 0 := by
    rintro rfl
    have pool := sound.pool (sound.directory isLive)
    have := layout.text
    have := layout.ordered
    simp only [Layout.InPool] at pool
    omega
  rw [freevm, if_neg nonzero, wp_bind]
  refine wp_deallocuvm sound isLive le_rfl fun vm₁ dropped => ?_
  have first := Freed.of_dropped dropped
  have nodup : (List.finRange nptentries).Nodup := List.nodup_finRange nptentries
  rw [wp_bind]
  generalize List.finRange nptentries = indices at nodup
  refine wp_freeTables nodup first.sound (dropped.sound.directory isLive)
    (fun i _ => dropped.sound.table isLive) fun vm₂ second directory => ?_
  have pool := second.sound.pool directory
  refine wp_kfree pool directory ?_
  exact frees _ ((first.trans second).trans (Freed.of_release second.sound (.inl ⟨rfl, directory⟩)))

/-! ## Adding pages -/

/-- The effect of allocating a page that is to be no page table, and of filling it. -/
structure Filled (layout : Layout) (live : Nat → Prop) (purpose : Owner) (mem : Nat)
    (vm vm' : Vm) : Prop where
  kept : ∀ d, Kept layout live d vm vm'
  page : ∀ {d}, live d → vm'.page d = vm.page d
  entry : ∀ {d va}, live d → vm'.entry d va = vm.entry d va
  owned : vm'.owner mem = some purpose
  obtained : (purpose, mem) ∈ vm'.granted
  supply : ∀ {n}, Supply layout (n + 1) vm → Supply layout n vm'

theorem filled_alloc (sound : Sound layout live vm.toMemory) {answers : List (Option Nat)}
    (next : vm.answers = some frame :: answers) (pool : layout.InPool frame)
    (free : vm.owner frame = none) (purpose : Owner) (contents : Fin nptentries → Pte) :
    Filled layout live purpose frame vm
      { toMemory := (vm.grant purpose frame).setPage frame contents, answers := answers,
        granted := (purpose, frame) :: vm.granted } := by
  have plain := sound.plain_of_free free
  refine ⟨fun d => ⟨?_, Sound.owner_grant free, ?_, List.mem_cons_of_mem _, ?_, ?_, ?_, ?_⟩,
    ?_, ?_, ?_, ?_, ?_⟩
  · exact (sound.setPage plain contents).grant pool free
  · exact fun owned => Memory.taken_grant owned (next ▸ List.mem_cons_self)
  · exact fun member => next ▸ List.mem_cons_of_mem _ member
  · exact fun member => (List.mem_cons.mp member).elim (fun same => .inr (by simp [same, next]))
      .inl
  · exact fun isLive _ => Sound.page_setPage plain isLive
  · exact fun isLive _ _ => sound.entry_setPage plain contents isLive
  · exact fun isLive => Sound.page_setPage plain isLive
  · exact fun isLive => sound.entry_setPage plain contents isLive
  · exact update_self _ _ _
  · exact List.mem_cons_self
  · exact fun supply => supply.tail next rfl fun different => update_of_ne different _ _

/-- The pages from `low` on that start below `high`. -/
def pagesBetween (low high : Nat) : Nat := (high + pgsize - 1) / pgsize - low / pgsize

/-- What adding the user pages of `d` from `low` to `high` does. -/
structure Grown (layout : Layout) (live : Nat → Prop) (d low high : Nat) (vm vm' : Vm) : Prop
    extends Kept layout live d vm vm' where
  tables : ∀ i, (vm'.page d i).present = (vm.page d i).present
  outside : ∀ va < 2 ^ 32, ¬(low / pgsize ≤ va / pgsize ∧ va / pgsize * pgsize < high) →
    vm'.entry d va = vm.entry d va
  inside : ∀ va < 2 ^ 32, low / pgsize ≤ va / pgsize → va / pgsize * pgsize < high →
    (vm'.entry d va).present = true ∧
      (.user d (va / pgsize), (vm'.entry d va).frame) ∈ vm'.granted

namespace Grown

theorem refl (sound : Sound layout live vm.toMemory) (aligned : low % pgsize = 0)
    (empty : high ≤ low) : Grown layout live d low high vm vm where
  toKept := .refl sound
  tables _ := rfl
  outside _ _ _ := rfl
  inside va _ from' below := by
    simp only [pgsize] at *
    omega

theorem cons (aligned : low % pgsize = 0) (more : low < high)
    (first : Grown layout live d low (low + pgsize) vm vm₁)
    (rest : Grown layout live d (low + pgsize) high vm₁ vm') :
    Grown layout live d low high vm vm' where
  toKept := first.toKept.trans rest.toKept
  tables i := (rest.tables i).trans (first.tables i)
  outside va small out := by
    rw [rest.outside va small, first.outside va small]
    all_goals
      simp only [pgsize] at *
      omega
  inside va small from' below := by
    by_cases here : va / pgsize = low / pgsize
    · rw [rest.outside va small (by simp only [pgsize] at *; omega)]
      have there := first.inside va small from' (by simp only [pgsize] at *; omega)
      exact ⟨there.1, rest.granted there.2⟩
    · exact rest.inside va small (by simp only [pgsize] at *; omega) below

end Grown

theorem wp_mappages_filled {mem a : Nat}
    (filled : Filled layout live (.user d (a / pgsize)) mem vm vm₁) (isLive : live d)
    (table : (vm.page d 0).present = true) (aligned : a % pgsize = 0) (below : a < usertop)
    {post : Bool → Vm → Prop} (remaps : (vm.entry d a).present = true → stops .remap)
    (maps : ∀ vm₂, Grown layout live d a (a + pgsize) vm vm₂ →
      vm₂.owner mem = some (.user d (a / pgsize)) →
      (∀ {n}, Supply layout (n + 1) vm → Supply layout n vm₂) → post true vm₂) :
    Wp (mappages layout d a pgsize (mem * pgsize) userPerm) post stops vm₁ := by
  have first := filled.kept d
  refine wp_mappages_user first.sound isLive aligned below filled.owned ?_ ?_
    fun vm₂ kept mapped => maps vm₂ ⟨first.trans kept, fun i => ?_, fun va small out => ?_,
      fun va small low high => ?_⟩ (kept.owner filled.owned) fun supply => mapped.supply ?_
  · rwa [filled.page isLive]
  · rwa [filled.entry isLive]
  · rw [Bool.eq_iff_iff, mapped.tables i, filled.page isLive, Nat.zero_mul, Nat.add_zero,
      PDX_of_lt_usertop below]
    refine or_iff_left_of_imp fun here => ?_
    rwa [le_antisymm here.2 here.1]
  · rw [mapped.entry small, if_neg fun here => out ?_, filled.entry isLive]
    simp only [pgsize] at *
    omega
  · have here : va / pgsize = a / pgsize := by
      simp only [pgsize] at *
      omega
    rw [mapped.entry small, if_pos (by omega), here]
    refine ⟨rfl, kept.granted ?_⟩
    simpa [Perm.pte, pgsize] using filled.obtained
  · have none : vm₁.missing d 0 = 0 := by simp [Memory.missing, filled.page isLive, table]
    rw [Memory.tablesFor_page, PDX_of_lt_usertop below, none]
    exact filled.supply supply

section
variable (sound : Sound layout live vm.toMemory)
include sound

section
variable (isLive : live d) (table : (vm.page d 0).present = true)
include isLive table

theorem wp_allocLoop {newsz a : Nat} (aligned : a % pgsize = 0) (bound : newsz ≤ usertop)
    {post : Bool → Vm → Prop}
    (remaps : ∀ va, a ≤ va → va < newsz → (vm.entry d va).present = true → stops .remap)
    (fails : ∀ vm' high, a ≤ high → high < newsz → ¬Supply layout (pagesBetween a newsz) vm →
      Grown layout live d a high vm vm' → post false vm')
    (grows : ∀ vm', Grown layout live d a newsz vm vm' →
      (∀ {n}, Supply layout (n + pagesBetween a newsz) vm → Supply layout n vm') →
      post true vm') : Wp (allocLoop layout d newsz a) post stops vm := by
  induction left : newsz - a using Nat.strong_induction_on generalizing a vm with
  | _ count ih =>
    rw [allocLoop]
    split_ifs with more
    · have below := lt_of_lt_of_le more bound
      rw [wp_bind]
      refine wp_kalloc (fun answers fewer starved => fails _ a le_rfl more (fun supply => ?_) ?_)
        fun mem answers next pool free => ?_
      · refine starved (supply.mono ?_)
        simp only [pagesBetween, pgsize]
        omega
      · exact { Kept.starved sound fewer, Grown.refl sound aligned le_rfl with }
      have filled := filled_alloc sound next pool free (.user d (a / pgsize)) (fun _ => .zero)
      rw [wp_bind, wp_store, wp_bind]
      refine wp_mappages_filled filled isLive table aligned below (remaps a le_rfl more)
        fun vm₂ first _ supplies => ?_
      have fewer : 1 + pagesBetween (a + pgsize) newsz = pagesBetween a newsz := by
        simp only [pagesBetween, pgsize] at aligned ⊢
        omega
      refine ih (newsz - (a + pgsize)) ?_ first.sound ?_ ?_ (fun va from' below' present => ?_)
        (fun vm' high le less starved rest => ?_) (fun vm' rest supplies' => ?_) rfl
      · simp only [pgsize]
        omega
      · rw [first.tables]
        exact table
      · simpa using aligned
      · rw [first.outside va (by simp only [usertop] at *; omega)
          (by simp only [pgsize] at *; omega)] at present
        exact remaps va (by omega) below' present
      · have : a < high := by
          simp only [pgsize] at le
          omega
        refine fails vm' high (by omega) less (fun supply => starved ?_)
          (first.cons aligned this rest)
        exact supplies (supply.mono (by omega))
      · exact grows vm' (first.cons aligned more rest) fun supply =>
          supplies' (supplies (supply.mono (by omega)))
    · exact grows vm (.refl sound aligned (by omega)) fun supply =>
        supply.mono (Nat.le_add_right _ _)

theorem wp_allocuvm {post : Nat → Vm → Prop}
    (remaps : ∀ va, pgroundup oldsz ≤ va → va < newsz → va < usertop →
      (vm.entry d va).present = true → stops .remap) (refuses : newsz > usertop → post 0 vm)
    (keeps : newsz < oldsz → newsz ≤ usertop → post oldsz vm)
    (fails : ∀ vm₁ vm' high, oldsz ≤ newsz → newsz ≤ usertop →
      ¬Supply layout (pagesBetween (pgroundup oldsz) newsz) vm →
      Grown layout live d (pgroundup oldsz) high vm vm₁ → high ≤ newsz →
      Dropped layout live d (pgroundup oldsz) newsz vm₁ vm' → post 0 vm')
    (grows : ∀ vm', oldsz ≤ newsz → newsz ≤ usertop →
      Grown layout live d (pgroundup oldsz) newsz vm vm' →
      (∀ {n}, Supply layout (n + pagesBetween (pgroundup oldsz) newsz) vm → Supply layout n vm') →
      post newsz vm') : Wp (allocuvm layout d oldsz newsz) post stops vm := by
  rw [allocuvm]
  split_ifs with tooLarge shrinks
  · exact refuses tooLarge
  · exact keeps shrinks (by omega)
  have fits : newsz ≤ usertop := by omega
  have order : oldsz ≤ newsz := by omega
  rw [wp_bind]
  refine wp_allocLoop sound isLive table pgroundup_mod fits
    (fun va from' below => remaps va from' below (lt_of_lt_of_le below fits))
    (fun vm₁ high _ less starved grown => ?_) fun vm' grown => grows vm' order fits grown
  simp only [Bool.false_eq_true, if_false, wp_bind]
  exact wp_deallocuvm grown.sound isLive fits fun vm' dropped =>
    fails vm₁ vm' high order fits starved grown less.le dropped

/-! ## Copying -/

theorem wp_copyPages {pgdir sz i : Nat} (aligned : i % pgsize = 0)
    (kernel : (vm.entry d usertop).present = true) (fits : i ≤ usertop)
    {post : Bool → Vm → Prop} (panics : ∀ stop, stops stop)
    (fails : ∀ vm', Kept layout live d vm vm' → post false vm')
    (copies : ∀ vm', Kept layout live d vm vm' → (vm'.page d 0).present = true → post true vm') :
    Wp (copyPages layout pgdir d sz i) post stops vm := by
  induction left : sz - i using Nat.strong_induction_on generalizing i vm with
  | _ count ih =>
    rw [copyPages]
    split_ifs with more
    · simp only [wp_bind, wp_walkpgdir]
      split
      · exact panics _
      next pgtab index _ =>
        rw [wp_bind, wp_get]
        split
        · exact panics _
        rw [wp_bind]
        refine wp_kalloc (fun answers fewer _ => fails _ (.starved sound fewer))
          fun mem answers next pool free => ?_
        have filled := filled_alloc sound next pool free (.user d (i / pgsize))
          (vm.page (vm.page pgtab index).frame)
        rw [wp_bind, wp_store, wp_bind]
        by_cases top : i = usertop
        · have small : i + pgsize ≤ 2 ^ 32 := by
            simp only [top, usertop, pgsize]
            omega
          rw [← top, ← filled.entry isLive] at kernel
          exact wp_mappages_remap aligned small kernel (panics _)
        have below : i < usertop := by omega
        have room : i + pgsize ≤ usertop := by
          simp only [usertop, pgsize] at aligned below ⊢
          omega
        refine wp_mappages_filled filled isLive table aligned below (fun _ => panics _)
          fun vm₂ first _ _ => ?_
        rw [if_pos rfl]
        refine ih (sz - (i + pgsize)) ?_ first.sound ?_ ?_ ?_ room
          (fun vm' kept => fails vm' (first.toKept.trans kept))
          (fun vm' kept => copies vm' (first.toKept.trans kept)) rfl
        · simp only [pgsize]
          omega
        · rw [first.tables]
          exact table
        · simpa using aligned
        · rw [first.outside usertop (by simp only [usertop]; omega)]
          · exact kernel
          · simp only [usertop, pgsize] at aligned room ⊢
            omega
    · exact copies vm (.refl sound) table

end

theorem wp_copyuvm {pgdir sz : Nat} {post : Option Nat → Vm → Prop} (panics : ∀ stop, stops stop)
    (fails : ∀ vm', Sound layout live vm'.toMemory →
      (∀ {d}, live d → vm'.page d = vm.page d) →
      (∀ {d va}, live d → va < 2 ^ 32 → vm'.entry d va = vm.entry d va) → post none vm')
    (copies : ∀ vm' d, Kept layout (fun d' => d' = d ∨ live d') d vm vm' → vm.owner d = none →
      (vm'.page d 0).present = true → post (some d) vm') :
    Wp (copyuvm layout pgdir sz) post stops vm := by
  rw [copyuvm, wp_bind]
  refine wp_setupkvm sound (fun vm' _ kept => fails vm' (kept 0).sound ?_ ?_)
    fun vm₁ d built => ?_
  · exact fun {d} isLive => (kept (d + 1)).page isLive d.lt_succ_self.ne
  · exact fun {d va} isLive => (kept (d + 1)).entry isLive d.lt_succ_self.ne
  have table : (vm₁.page d 0).present = true := (built.tables 0).mpr (.inl (by decide))
  have kernel : (vm₁.entry d usertop).present = true :=
    (built.present usertop (by decide)).mpr (.inl (by decide))
  rw [wp_bind]
  refine wp_copyPages built.sound (.inl rfl) table rfl kernel (Nat.zero_le _) panics
    (fun vm₂ kept => ?_) fun vm₂ kept table' => copies vm₂ d (built.toKept.trans kept)
      built.fresh table'
  simp only [Bool.false_eq_true, if_false, wp_bind]
  refine wp_freevm kept.sound (.inl rfl) fun vm' freed => ?_
  have different : ∀ {d'}, live d' → d' ≠ d := by
    rintro d' isLive rfl
    have fresh := built.fresh
    simp [sound.directory isLive] at fresh
  have all := built.toKept.trans kept
  refine fails vm' (freed.sound.narrow fun isLive => ⟨.inr isLive, different isLive⟩) ?_ ?_
  · exact fun isLive => (freed.page (.inr isLive) (different isLive)).trans
      (all.page (.inr isLive) (different isLive))
  · exact fun isLive small => (freed.entry (.inr isLive) (different isLive) small).trans
      (all.entry (.inr isLive) (different isLive) small)

/-! ## The first process -/

theorem wp_inituvm {kpgdir sz : Nat} {init : Fin nptentries → Pte} (isLive : live d)
    (table : (vm.page d 0).present = true) (kernel : live kpgdir)
    (empty : (vm.entry kpgdir 0).present = false) (panics : ∀ stop, stops stop)
    (sets : ∀ vm', Kept layout live d vm vm' → (vm'.page d 0).present = true → post () vm') :
    Wp (inituvm layout kpgdir d init sz) post stops vm := by
  rw [inituvm]
  split_ifs
  · exact panics _
  rw [wp_bind]
  refine wp_kalloc (fun answers _ _ => ?_) fun mem answers next pool free => ?_
  · simp only [Option.getD_none, Nat.zero_mul, wp_bind, wp_get]
    rw [if_pos empty]
    exact panics _
  simp only [Option.getD_some, wp_bind, wp_get]
  split_ifs with absent
  · exact panics _
  -- The page is above `usertop`, so the loaded directory maps it to itself.
  have high : mem * pgsize < 2 ^ 32 ∧ ¬mem * pgsize < usertop := by
    have := layout.text
    have := layout.ordered
    simp only [Layout.InPool, phystop, usertop] at pool ⊢
    omega
  have target : ((vm.grant (.user d 0) mem).entry kpgdir (mem * pgsize)).frame = mem := by
    have granted : Sound layout live (vm.grant (.user d 0) mem) := sound.grant pool free
    rcases granted.entry kernel high.1 with zero | ⟨-, allowed⟩
    · exact absurd (congrArg Pte.present zero) absent
    · simp only [Pte.Allowed, high.2, if_false] at allowed
      rw [allowed.2]
      simp [pgsize]
  have filled := filled_alloc sound next pool free (.user d 0) (fun _ => .zero)
  rw [wp_bind, wp_store, wp_bind]
  simp only [target]
  refine wp_mappages_filled filled isLive table rfl (by decide) (fun _ => panics _)
    fun vm₂ first owned _ => ?_
  have plain := first.sound.plain_of_user owned
  refine sets _ ⟨first.sound.setPage plain init, first.owner, first.taken, first.granted,
    first.answers, first.drawn, ?_, ?_⟩ ?_
  · exact fun other different => (Sound.page_setPage plain other).trans (first.page other different)
  · exact fun other different small => (first.sound.entry_setPage plain init other).trans
      (first.entry other different small)
  · refine (congrArg Pte.present (congrFun (Sound.page_setPage plain isLive) 0)).trans ?_
    rw [first.tables]
    exact table

end

end Xv6
