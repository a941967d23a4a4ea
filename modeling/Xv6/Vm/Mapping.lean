import Xv6.Vm.Sound

/-!
# What the page table functions do

The specifications of `walkpgdir`, `mappages` and `setupkvm`: the page directory they
work on gets the mappings asked for, all else stays as it is, and the invariant holds
whether they succeed or run out of memory.
-/

namespace Xv6

open Program Function

variable {layout : Layout} {live : Nat → Prop} {d va frame : Nat} {vm vm' vm'' : Vm}
  {stops : Stop → Prop} {post : Bool → Vm → Prop} {answers : List (Option Nat)} {perm : Perm}
  {n a pa : Nat}

/-! ## The allocator -/

@[simp] theorem wp_store {post : Unit → Vm → Prop} {change : Memory → Memory} :
    Wp (store change) post stops vm ↔ post () { vm with toMemory := change vm.toMemory } :=
  Iff.rfl

/-- The next `n` calls of `kalloc` succeed. -/
def Supply (layout : Layout) (n : Nat) (vm : Vm) : Prop :=
  ∃ (frames : List Nat) (rest : List (Option Nat)), vm.answers = frames.map some ++ rest ∧
    frames.length = n ∧ frames.Nodup ∧ ∀ frame ∈ frames, layout.InPool frame ∧ vm.owner frame = none

namespace Supply

theorem zero : Supply layout 0 vm := ⟨[], vm.answers, by simp⟩

theorem range {first n : Nat} (answers : vm.answers = (List.range' first n).map some)
    (free : ∀ frame, first ≤ frame → frame < first + n →
      layout.InPool frame ∧ vm.owner frame = none) : Supply layout n vm := by
  refine ⟨List.range' first n, [], by simp [answers], by simp, List.nodup_range', ?_⟩
  intro frame member
  obtain ⟨low, high⟩ := List.mem_range'_1.mp member
  exact free frame low high

theorem mono {n m : Nat} (supply : Supply layout n vm) (le : m ≤ n) : Supply layout m vm := by
  obtain ⟨frames, rest, answers, length, nodup, free⟩ := supply
  refine ⟨frames.take m, (frames.drop m).map some ++ rest, ?_, by simp [length, le],
    nodup.sublist (frames.take_sublist m), fun frame member => free frame ?_⟩
  · rw [answers, ← List.append_assoc, ← List.map_append, List.take_append_drop]
  · exact List.mem_of_mem_take member

theorem tail {n : Nat} (supply : Supply layout (n + 1) vm)
    (next : vm.answers = some frame :: answers) (rest : vm'.answers = answers)
    (owner : ∀ {other}, other ≠ frame → vm'.owner other = vm.owner other) :
    Supply layout n vm' := by
  obtain ⟨frames, more, all, length, nodup, free⟩ := supply
  cases frames with
  | nil => simp at length
  | cons first frames =>
    rw [next, List.map_cons, List.cons_append, List.cons.injEq] at all
    obtain ⟨same, answers⟩ := all
    obtain rfl := Option.some.inj same
    obtain ⟨unused, nodup⟩ := List.nodup_cons.mp nodup
    refine ⟨frames, more, rest.trans answers, by simpa using length, nodup, ?_⟩
    intro other member
    have different : other ≠ frame := by
      rintro rfl
      exact unused member
    rw [owner different]
    exact free other (List.mem_cons_of_mem _ member)

theorem head (supply : Supply layout 1 vm) : ∃ frame answers,
    vm.answers = some frame :: answers ∧ layout.InPool frame ∧ vm.owner frame = none := by
  obtain ⟨frames, rest, all, length, -, free⟩ := supply
  obtain ⟨frame, rfl⟩ := List.length_eq_one_iff.mp length
  exact ⟨frame, rest, by simpa using all, free frame (by simp)⟩

end Supply

theorem wp_kalloc {purpose : Owner} {post : Option Nat → Vm → Prop}
    (fails : ∀ answers, (∀ answer ∈ answers, answer ∈ vm.answers) → ¬Supply layout 1 vm →
      post none { vm with answers := answers })
    (grants : ∀ frame answers, vm.answers = some frame :: answers → layout.InPool frame →
      vm.owner frame = none →
      post (some frame) { toMemory := vm.grant purpose frame, answers := answers,
                          granted := (purpose, frame) :: vm.granted }) :
    Wp (kalloc layout purpose) post stops vm := by
  simp only [kalloc, wp_bind, wp_get]
  split
  next empty =>
    refine fails vm.answers (fun _ => id) fun supply => ?_
    obtain ⟨_, _, next, -⟩ := supply.head
    simp [empty] at next
  next answers failure =>
    refine fails answers (by simp_all) fun supply => ?_
    obtain ⟨_, _, next, -⟩ := supply.head
    simp [failure] at next
  next frame answers answer =>
    rw [wp_ite]
    refine ⟨fun both => grants frame answers answer both.1 both.2, fun taken => ?_⟩
    refine fails answers (by simp_all) fun supply => taken ?_
    obtain ⟨_, _, next, free⟩ := supply.head
    simp only [answer, List.cons.injEq, Option.some.injEq] at next
    exact next.1 ▸ free

theorem wp_kfree {post : Unit → Vm → Prop} (pool : layout.InPool frame)
    {use : Owner} (owned : vm.owner frame = some use)
    (frees : post () { vm with toMemory := vm.release frame }) :
    Wp (kfree layout frame) post stops vm := by
  have inside : ¬(frame * pgsize < layout.kernelEnd ∨ phystop ≤ frame * pgsize) := by
    simp only [Layout.InPool, pgsize] at pool ⊢
    omega
  simpa [kfree, inside, owned] using frees

/-! ## What is kept -/

theorem Memory.taken_grant {memory : Memory} {purpose use : Owner} {other : Nat}
    (owned : (memory.grant purpose frame).owner other = some use) (answer : some frame ∈ answers) :
    memory.owner other = some use ∨ some other ∈ answers := by
  by_cases same : other = frame
  · exact .inr (same ▸ answer)
  · exact .inl ((update_of_ne same _ _).symm.trans owned)

/-- What building the directory `d` keeps. -/
structure Kept (layout : Layout) (live : Nat → Prop) (d : Nat) (vm vm' : Vm) : Prop where
  sound : Sound layout live vm'.toMemory
  owner : ∀ {frame use}, vm.owner frame = some use → vm'.owner frame = some use
  taken : ∀ {frame use}, vm'.owner frame = some use →
    vm.owner frame = some use ∨ some frame ∈ vm.answers
  granted : ∀ {grant}, grant ∈ vm.granted → grant ∈ vm'.granted
  answers : ∀ {answer}, answer ∈ vm'.answers → answer ∈ vm.answers
  drawn : ∀ {grant}, grant ∈ vm'.granted → grant ∈ vm.granted ∨ some grant.2 ∈ vm.answers
  page : ∀ {d'}, live d' → d' ≠ d → vm'.page d' = vm.page d'
  entry : ∀ {d' va}, live d' → d' ≠ d → va < 2 ^ 32 → vm'.entry d' va = vm.entry d' va

namespace Kept

theorem refl (sound : Sound layout live vm.toMemory) : Kept layout live d vm vm where
  sound := sound
  owner := id
  taken := .inl
  granted := id
  answers := id
  drawn := .inl
  page _ _ := rfl
  entry _ _ _ := rfl

theorem trans (first : Kept layout live d vm vm') (second : Kept layout live d vm' vm'') :
    Kept layout live d vm vm'' where
  sound := second.sound
  owner owned := second.owner (first.owner owned)
  taken owned := (second.taken owned).elim first.taken fun answer => .inr (first.answers answer)
  granted member := second.granted (first.granted member)
  answers member := first.answers (second.answers member)
  drawn member := (second.drawn member).elim first.drawn fun answer => .inr (first.answers answer)
  page other different := (second.page other different).trans (first.page other different)
  entry other different small :=
    (second.entry other different small).trans (first.entry other different small)

theorem starved (sound : Sound layout live vm.toMemory)
    (fewer : ∀ answer ∈ answers, answer ∈ vm.answers) :
    Kept layout live d vm { vm with answers := answers } :=
  { Kept.refl sound with answers := fewer _ }

end Kept

/-! ## Walking -/

/-- The pages a walk that makes page tables allocates. -/
def Memory.missing (memory : Memory) (d : Nat) (i : Fin nptentries) : Nat :=
  if (memory.page d i).present then 0 else 1

/-- The effect of a walk that finds or makes the page table. -/
structure Walked (layout : Layout) (live : Nat → Prop) (d va : Nat) (vm vm' : Vm) : Prop
    extends Kept layout live d vm vm' where
  present : (vm'.page d (PDX va)).present = true
  tables : ∀ i, (vm'.page d i).present = true ↔ (vm.page d i).present = true ∨ i = PDX va
  same : ∀ va', vm'.entry d va' = vm.entry d va'
  supply : ∀ {n}, Supply layout (n + vm.missing d (PDX va)) vm → Supply layout n vm'

theorem walked_addTable (sound : Sound layout live vm.toMemory) (isLive : live d)
    (absent : (vm.page d (PDX va)).present = false)
    (next : vm.answers = some frame :: answers) (pool : layout.InPool frame)
    (free : vm.owner frame = none) (purpose : Owner) :
    Walked layout live d va vm
      { toMemory := vm.addTable d (PDX va) frame, answers := answers,
        granted := (purpose, frame) :: vm.granted } where
  sound := sound.addTable isLive absent pool free
  owner := Sound.owner_addTable free
  taken {frame use} owned := Memory.taken_grant owned (next ▸ List.mem_cons_self)
  granted := List.mem_cons_of_mem _
  answers member := next ▸ List.mem_cons_of_mem _ member
  drawn {grant} member := by
    rcases List.mem_cons.mp member with rfl | old
    · exact .inr (next ▸ List.mem_cons_self)
    · exact .inl old
  page other different := by simp [sound.page_addTable free other, different]
  entry other _ _ := sound.entry_addTable isLive absent free other
  present := by simp [sound.page_addTable free isLive]
  tables i := by
    by_cases here : i = PDX va <;> simp [sound.page_addTable free isLive, here]
  same va' := sound.entry_addTable isLive absent free isLive
  supply {n} supply := by
    rw [Memory.missing, absent] at supply
    exact supply.tail next rfl fun different => update_of_ne different _ _

theorem wp_walkpgdir_create (sound : Sound layout live vm.toMemory) (isLive : live d)
    {post : Option (Nat × Fin nptentries) → Vm → Prop}
    (fails : ∀ answers, (∀ answer ∈ answers, answer ∈ vm.answers) →
      ¬Supply layout (vm.missing d (PDX va)) vm → post none { vm with answers := answers })
    (finds : ∀ vm', Walked layout live d va vm vm' →
      post (some ((vm'.page d (PDX va)).frame, PTX va)) vm') :
    Wp (walkpgdir layout d va true) post stops vm := by
  rw [walkpgdir, wp_bind, wp_get]
  by_cases present : (vm.page d (PDX va)).present = true
  · rw [if_pos present]
    refine finds vm { Kept.refl sound with present := present, tables := ?_, same := ?_,
                                           supply := ?_ }
    · intro i
      by_cases here : i = PDX va <;> simp [here, present]
    · simp
    · exact fun supply => supply.mono (Nat.le_add_right _ _)
  · rw [if_neg present, if_neg (by simp), wp_bind]
    have absent : (vm.page d (PDX va)).present = false := by simpa using present
    have missing : vm.missing d (PDX va) = 1 := if_neg present
    refine wp_kalloc (by rwa [missing] at fails) fun frame answers next pool free => ?_
    have found := finds _ (walked_addTable sound isLive absent next pool free
      (.table d (PDX va)))
    simp only [sound.page_addTable free isLive, if_true, update_self] at found
    exact found

@[simp] theorem wp_walkpgdir {post : Option (Nat × Fin nptentries) → Vm → Prop} :
    Wp (walkpgdir layout d va false) post stops vm ↔
      post (if (vm.page d (PDX va)).present then
        some ((vm.page d (PDX va)).frame, PTX va) else none) vm := by
  simp only [walkpgdir, wp_bind, wp_get]
  split_ifs <;> simp

/-! ## Mapping -/

/-- The page tables that mapping the pages from `a` to `last` may have to make. -/
def Memory.tablesFor (memory : Memory) (d a last : Nat) : Nat :=
  (PDX last).val - (PDX a).val + memory.missing d (PDX a)

theorem Memory.tablesFor_page (memory : Memory) (d a : Nat) :
    memory.tablesFor d a (a + 0 * pgsize) = memory.missing d (PDX a) := by
  simp [tablesFor]

/-- The pages from `a` on, `n` after the first, have the permissions and frames asked
for, and the page tables for them are there. -/
structure Mapped (layout : Layout) (d : Nat) (perm : Perm) (n a pa : Nat) (vm vm' : Vm) :
    Prop where
  entry : ∀ {va}, va < 2 ^ 32 → vm'.entry d va =
    if a / pgsize ≤ va / pgsize ∧ va / pgsize ≤ a / pgsize + n then
      perm.pte (pa + (va / pgsize - a / pgsize) * pgsize)
    else vm.entry d va
  tables : ∀ i, (vm'.page d i).present = true ↔
    (vm.page d i).present = true ∨ PDX a ≤ i ∧ i ≤ PDX (a + n * pgsize)
  supply : ∀ {k}, Supply layout (k + vm.tablesFor d a (a + n * pgsize)) vm →
    Supply layout k vm'

section Write

variable {pte : Pte}

theorem kept_write (walked : Walked layout live d va vm vm') (isLive : live d) (small : va < 2 ^ 32)
    (fine : pte = .zero ∨ pte.present = true ∧ pte.Allowed vm'.owner d va) :
    Kept layout live d vm
      { vm' with toMemory := vm'.setEntry (vm'.page d (PDX va)).frame (PTX va) pte } where
  sound := walked.sound.setEntry isLive walked.present small fine
  owner := walked.owner
  taken := walked.taken
  granted := walked.granted
  answers := walked.answers
  drawn := walked.drawn
  page other different :=
    (walked.sound.page_setEntry isLive walked.present _ _ other).trans (walked.page other different)
  entry other different small' := by
    refine (walked.sound.entry_setEntry isLive walked.present small other small').trans ?_
    rw [if_neg fun same => different same.1]
    exact walked.entry other different small'

theorem entry_write (walked : Walked layout live d va vm vm') (isLive : live d)
    (small : va < 2 ^ 32) {va' : Nat} (small' : va' < 2 ^ 32) :
    (vm'.setEntry (vm'.page d (PDX va)).frame (PTX va) pte).entry d va' =
      if va' / pgsize = va / pgsize then pte else vm.entry d va' := by
  rw [walked.sound.entry_setEntry isLive walked.present small isLive small', walked.same]
  simp

end Write

theorem wp_mapPage (sound : Sound layout live vm.toMemory)
    (isLive : live d) (small : a < 2 ^ 32) (allowed : (perm.pte pa).Allowed vm.owner d a)
    (remaps : (vm.entry d a).present = true → stops .remap)
    (fails : ∀ vm', ¬Supply layout (vm.missing d (PDX a)) vm → Kept layout live d vm vm' →
      post false vm')
    (maps : ∀ vm', Kept layout live d vm vm' → Mapped layout d perm 0 a pa vm vm' → post true vm') :
    Wp (mapPage layout d perm a pa) post stops vm := by
  rw [mapPage, wp_bind]
  refine wp_walkpgdir_create sound isLive (fun answers fewer starved => ?_) fun vm' walked => ?_
  · exact fails _ starved (.starved sound fewer)
  have place : vm'.page (vm'.page d (PDX a)).frame (PTX a) = vm.entry d a := by
    rw [← walked.same, Memory.entry, if_pos walked.present]
  simp only [wp_bind, wp_get, place]
  split_ifs with present
  · exact remaps present
  refine maps _ (kept_write walked isLive small (.inr ⟨rfl, ?_⟩))
    ⟨fun {va} small' => ?_, fun i => ?_, fun {k} supply => walked.supply ?_⟩
  · exact allowed.mono fun _ => walked.owner
  · have here : a / pgsize ≤ va / pgsize ∧ va / pgsize ≤ a / pgsize + 0 ↔
        va / pgsize = a / pgsize := by omega
    rw [entry_write walked isLive small small', if_congr here rfl rfl]
    split_ifs with same
    · simp [same]
    · rfl
  · have same := congrFun
      (walked.sound.page_setEntry isLive walked.present (PTX a) (perm.pte pa) isLive) i
    rw [same, walked.tables i, Nat.zero_mul, Nat.add_zero]
    exact or_congr_right ⟨fun here => by simp [here], fun both => le_antisymm both.2 both.1⟩
  · rwa [← Memory.tablesFor_page]

theorem Mapped.tablesFor_succ
    (first : Mapped layout d perm 0 a pa vm vm') (small : a + (n + 1) * pgsize < 2 ^ 32) :
    vm'.tablesFor d (a + pgsize) (a + (n + 1) * pgsize) + vm.missing d (PDX a) ≤
      vm.tablesFor d a (a + (n + 1) * pgsize) := by
  have present : (vm'.page d (PDX a)).present = true := by
    rw [first.tables]
    simp
  have most : vm'.missing d (PDX (a + pgsize)) ≤ 1 := by
    unfold Memory.missing
    split_ifs <;> omega
  by_cases same : PDX (a + pgsize) = PDX a
  · simp [Memory.tablesFor, same, Memory.missing, present]
  · simp only [Memory.tablesFor]
    simp only [PDX, Fin.mk.injEq, nptentries, pgsize] at same most small ⊢
    omega

theorem Mapped.succ (first : Mapped layout d perm 0 a pa vm vm')
    (rest : Mapped layout d perm n (a + pgsize) (pa + pgsize) vm' vm'')
    (small : a + (n + 1) * pgsize < 2 ^ 32) : Mapped layout d perm (n + 1) a pa vm vm'' where
  entry {va} small' := by
    have next : (a + pgsize) / pgsize = a / pgsize + 1 := by
      simp only [pgsize]
      omega
    rw [rest.entry small', first.entry small', next]
    split_ifs with later here
    · congr 1
      rw [show va / pgsize - a / pgsize = va / pgsize - (a / pgsize + 1) + 1 by omega]
      ring
    all_goals first | rfl | omega
  tables i := by
    rw [rest.tables i, first.tables i, or_assoc]
    refine or_congr_right ?_
    simp only [PDX, Fin.le_def, pgsize, nptentries] at small ⊢
    omega
  supply {k} enough := by
    refine rest.supply (first.supply (enough.mono ?_))
    have fewer := first.tablesFor_succ small
    rw [show a + pgsize + n * pgsize = a + (n + 1) * pgsize by ring, Memory.tablesFor_page]
    omega

theorem wp_mapLoop (sound : Sound layout live vm.toMemory)
    (isLive : live d) (small : a + n * pgsize < 2 ^ 32) (small' : pa + n * pgsize < 2 ^ 32)
    (allowed : ∀ k ≤ n, (perm.pte (pa + k * pgsize)).Allowed vm.owner d (a + k * pgsize))
    (remaps : (∃ k ≤ n, (vm.entry d (a + k * pgsize)).present = true) → stops .remap)
    (fails : ∀ vm', ¬Supply layout (vm.tablesFor d a (a + n * pgsize)) vm →
      Kept layout live d vm vm' → post false vm')
    (maps : ∀ vm', Kept layout live d vm vm' → Mapped layout d perm n a pa vm vm' → post true vm') :
    Wp (mapLoop layout d perm n a pa) post stops vm := by
  induction n generalizing a pa vm with
  | zero =>
    refine wp_mapPage sound isLive (by omega) (by simpa using allowed 0 le_rfl) ?_
      (fun vm' starved => fails vm' (by rwa [Memory.tablesFor_page])) maps
    exact fun present => remaps ⟨0, le_rfl, by simpa using present⟩
  | succ n ih =>
    have next : toUint (a + pgsize) = a + pgsize := by
      simp only [toUint, pgsize] at small ⊢
      omega
    have next' : toUint (pa + pgsize) = pa + pgsize := by
      simp only [toUint, pgsize] at small' ⊢
      omega
    rw [mapLoop, wp_bind, next, next']
    refine wp_mapPage sound isLive (by omega) (by simpa using allowed 0 (by omega)) ?_
      (fun vm' starved => fails vm' fun supply => starved (supply.mono (Nat.le_add_left _ _)))
      fun vm' kept mapped => ?_
    · exact fun present => remaps ⟨0, by omega, by simpa using present⟩
    have shift : ∀ k, a + pgsize + k * pgsize = a + (k + 1) * pgsize := fun k => by ring
    have shift' : ∀ k, pa + pgsize + k * pgsize = pa + (k + 1) * pgsize := fun k => by ring
    refine ih kept.sound (by rw [shift]; exact small) (by rw [shift']; exact small')
      (fun k le => ?_) (fun found => ?_)
      (fun vm'' starved kept' => fails vm'' (fun supply => starved ?_) (kept.trans kept'))
      (fun vm'' kept' mapped' =>
        maps vm'' (kept.trans kept') (mapped.succ mapped' small))
    · rw [shift, shift']
      exact (allowed (k + 1) (by omega)).mono fun _ => kept.owner
    · obtain ⟨k, le, present⟩ := found
      refine remaps ⟨k + 1, by omega, ?_⟩
      have distinct : ¬(a + (k + 1) * pgsize) / pgsize ≤ a / pgsize + 0 := by
        simp only [pgsize]
        omega
      have below : a + (k + 1) * pgsize < 2 ^ 32 := by
        have := Nat.mul_le_mul_right pgsize (Nat.add_le_add_right le 1)
        omega
      rwa [shift, mapped.entry below, if_neg fun same => distinct same.2] at present
    · have fewer := mapped.tablesFor_succ small
      refine mapped.supply (supply.mono ?_)
      rwa [shift, Memory.tablesFor_page]

theorem mappages_eq {a size pa : Nat} (aligned : a % pgsize = 0)
    (whole : size % pgsize = 0) (nonempty : 0 < size) (small : a + size ≤ 2 ^ 32) :
    mappages layout d a size pa perm = mapLoop layout d perm (size / pgsize - 1) a pa := by
  have start : pgrounddown a = a := by
    simp only [pgrounddown, pgsize] at aligned ⊢
    omega
  have final : toUint (a + size - 1) = a + size - 1 := by
    simp only [toUint]
    omega
  have last : pgrounddown (a + size - 1) = a + size - pgsize := by
    simp only [pgrounddown, pgsize] at aligned whole ⊢
    omega
  have length : toUint ((a + size - pgsize : Nat) - a : Int) = size - pgsize := by
    simp only [toUint, pgsize] at whole ⊢
    omega
  have count : (size - pgsize) / pgsize = size / pgsize - 1 := by
    simp only [pgsize] at whole ⊢
    omega
  rw [mappages, start, final, last, length, count]

theorem wp_mappages_user {a mem : Nat} (sound : Sound layout live vm.toMemory) (isLive : live d)
    (aligned : a % pgsize = 0) (below : a < usertop)
    (owned : vm.owner mem = some (.user d (a / pgsize))) (table : (vm.page d 0).present = true)
    (remaps : (vm.entry d a).present = true → stops .remap)
    (maps : ∀ vm', Kept layout live d vm vm' →
      Mapped layout d userPerm 0 a (mem * pgsize) vm vm' → post true vm') :
    Wp (mappages layout d a pgsize (mem * pgsize) userPerm) post stops vm := by
  have small : a + pgsize ≤ 2 ^ 32 := by
    simp only [usertop, pgsize] at below ⊢
    omega
  rw [mappages_eq aligned (by simp) (by decide) small, show pgsize / pgsize - 1 = 0 from rfl,
    mapLoop]
  refine wp_mapPage sound isLive (lt_of_lt_usertop below) ?_ remaps (fun vm' absent _ => ?_) maps
  · simp [Pte.Allowed, Perm.pte, userPerm, below, owned, pgsize]
  · rw [Memory.missing, PDX_of_lt_usertop below, table] at absent
    exact absurd Supply.zero absent

theorem wp_mappages_remap (aligned : a % pgsize = 0)
    (small : a + pgsize ≤ 2 ^ 32) (present : (vm.entry d a).present = true)
    (panics : stops .remap) : Wp (mappages layout d a pgsize pa perm) post stops vm := by
  have table : (vm.page d (PDX a)).present = true := by
    by_contra absent
    simp [Memory.entry, absent] at present
  rw [Memory.entry, if_pos table] at present
  rw [mappages_eq aligned (by simp) (by decide) small, show pgsize / pgsize - 1 = 0 from rfl,
    mapLoop]
  simpa [mapPage, walkpgdir, table, present] using panics

/-! ## The kernel's part -/

/-- The size of a range of `kmap`. -/
def rangeSize (range : Nat × Nat × Perm) : Nat := toUint (range.2.1 - range.1)

/-- A range of the kernel's mappings, as in `kmap`. -/
structure KernelRange (range : Nat × Nat × Perm) : Prop where
  aligned : range.1 % pgsize = 0
  whole : rangeSize range % pgsize = 0
  nonempty : 0 < rangeSize range
  small : range.1 + rangeSize range ≤ 2 ^ 32
  above : usertop ≤ range.1
  kernel : range.2.2.user = false

/-- An address in one of the ranges. -/
def InRanges (ranges : List (Nat × Nat × Perm)) (va : Nat) : Prop :=
  ∃ range ∈ ranges, range.1 ≤ va ∧ va < range.1 + rangeSize range

/-- A page table that one of the ranges needs. -/
def NeedsTable (ranges : List (Nat × Nat × Perm)) (i : Fin nptentries) : Prop :=
  ∃ range ∈ ranges, PDX range.1 ≤ i ∧ i ≤ PDX (range.1 + rangeSize range - pgsize)

/-- The page tables a range may have to make. -/
def rangeTables (range : Nat × Nat × Perm) : Nat :=
  (PDX (range.1 + rangeSize range - pgsize)).val - (PDX range.1).val + 1

theorem wp_mappages_kernel {range : Nat × Nat × Perm} (isRange : KernelRange range)
    (sound : Sound layout live vm.toMemory) (isLive : live d)
    (clear : ∀ va, range.1 ≤ va → va < 2 ^ 32 → (vm.entry d va).present = false)
    (fails : ∀ vm', ¬Supply layout (rangeTables range) vm → Kept layout live d vm vm' →
      post false vm') (maps : ∀ vm', Kept layout live d vm vm' →
      (∀ va < 2 ^ 32, (vm'.entry d va).present = true ↔
        (vm.entry d va).present = true ∨ InRanges [range] va) →
      (∀ i, (vm'.page d i).present = true ↔
        (vm.page d i).present = true ∨ NeedsTable [range] i) →
      (∀ {k}, Supply layout (k + rangeTables range) vm → Supply layout k vm') → post true vm') :
    Wp (mappages layout d range.1 (rangeSize range) range.1 range.2.2) post stops vm := by
  obtain ⟨aligned, whole, nonempty, small, above, kernel⟩ := isRange
  have last : (rangeSize range / pgsize - 1) * pgsize = rangeSize range - pgsize := by
    simp only [pgsize] at whole ⊢
    omega
  have bound : range.1 + (rangeSize range / pgsize - 1) * pgsize < 2 ^ 32 := by
    rw [last]
    simp only [pgsize] at whole ⊢
    omega
  have same : range.1 + (rangeSize range - pgsize) = range.1 + rangeSize range - pgsize := by
    simp only [pgsize] at whole ⊢
    omega
  have tables : vm.tablesFor d range.1 (range.1 + (rangeSize range / pgsize - 1) * pgsize) ≤
      rangeTables range := by
    have most : vm.missing d (PDX range.1) ≤ 1 := by
      unfold Memory.missing
      split_ifs <;> omega
    rw [last, same, Memory.tablesFor, rangeTables]
    omega
  rw [mappages_eq aligned whole nonempty small]
  refine wp_mapLoop sound isLive bound bound (fun k le => ?_) (fun found => ?_)
    (fun vm' starved => fails vm' fun supply => starved (supply.mono tables))
    fun vm' kept mapped => maps vm' kept (fun va below => ?_) (fun i => ?_)
      fun supply => mapped.supply (supply.mono (Nat.add_le_add_left tables _))
  · have outside : ¬range.1 + k * pgsize < usertop := by omega
    simp [Pte.Allowed, outside, Perm.pte, kernel]
  · obtain ⟨k, le, present⟩ := found
    have below : range.1 + k * pgsize < 2 ^ 32 := by
      have := Nat.mul_le_mul_right pgsize le
      omega
    simp [clear _ (Nat.le_add_right _ _) below] at present
  · rw [mapped.entry below]
    have inside : range.1 / pgsize ≤ va / pgsize ∧
        va / pgsize ≤ range.1 / pgsize + (rangeSize range / pgsize - 1) ↔
        range.1 ≤ va ∧ va < range.1 + rangeSize range := by
      simp only [pgsize] at *
      omega
    rw [if_congr inside rfl rfl]
    split_ifs with here
    · simp [Perm.pte, InRanges, here]
    · simp [InRanges, here]
  · rw [mapped.tables i, last]
    simp [NeedsTable, same]

theorem wp_mapKernel {ranges : List (Nat × Nat × Perm)}
    (isRange : ∀ range ∈ ranges, KernelRange range)
    (ordered : ranges.Pairwise fun low high => low.1 + rangeSize low ≤ high.1)
    (sound : Sound layout live vm.toMemory) (isLive : live d)
    (clear : ∀ range ∈ ranges, ∀ va, range.1 ≤ va → va < 2 ^ 32 →
      (vm.entry d va).present = false)
    (fails : ∀ vm', ¬Supply layout (ranges.map rangeTables).sum vm → Kept layout live d vm vm' →
      post false vm') (maps : ∀ vm', Kept layout live d vm vm' →
      (∀ va < 2 ^ 32, (vm'.entry d va).present = true ↔
        (vm.entry d va).present = true ∨ InRanges ranges va) →
      (∀ i, (vm'.page d i).present = true ↔
        (vm.page d i).present = true ∨ NeedsTable ranges i) →
      (∀ {k}, Supply layout (k + (ranges.map rangeTables).sum) vm → Supply layout k vm') →
      post true vm') : Wp (mapKernel layout d ranges) post stops vm := by
  induction ranges generalizing vm with
  | nil => exact maps vm (.refl sound) (by simp [InRanges]) (by simp [NeedsTable]) (by simp)
  | cons range rest ih =>
    obtain ⟨p, e, perm⟩ := range
    rw [List.pairwise_cons] at ordered
    rw [mapKernel, wp_bind]
    refine wp_mappages_kernel (isRange _ List.mem_cons_self) sound isLive
      (clear _ List.mem_cons_self)
      (fun vm' starved => fails vm' fun supply => starved (supply.mono (by simp)))
      fun vm' kept entries tables supplies => ?_
    refine ih (fun range member => isRange range (List.mem_cons_of_mem _ member)) ordered.2
      kept.sound (fun range member va low small => ?_)
      (fun vm'' starved kept' => fails vm'' (fun supply => starved (supplies ?_))
        (kept.trans kept'))
      fun vm'' kept' entries' tables' supplies' => ?_
    · rw [Bool.eq_false_iff]
      intro present
      rcases (entries va small).mp present with old | new
      · simp [clear range (List.mem_cons_of_mem _ member) va low small] at old
      · have := ordered.1 range member
        simp only [InRanges, List.mem_singleton, exists_eq_left] at new
        omega
    · simpa [add_comm] using supply
    · refine maps vm'' (kept.trans kept') (fun va small => ?_) (fun i => ?_)
        fun {k} supply => supplies' (supplies ?_)
      · rw [entries' va small, entries va small]
        simp [InRanges, or_assoc]
      · rw [tables' i, tables i]
        simp [NeedsTable, or_assoc]
      · refine supply.mono (le_of_eq ?_)
        rw [List.map_cons, List.sum_cons]
        ring

theorem kernelRange_kmap : ∀ range ∈ kmap layout, KernelRange range := by
  have aligned := layout.aligned
  have text := layout.text
  have ordered := layout.ordered
  have small := layout.small
  simp only [kmap, List.forall_mem_cons, List.not_mem_nil, false_imp_iff, implies_true, and_true]
  simp only [pgsize] at aligned
  refine ⟨⟨?_, ?_, ?_, ?_, ?_, rfl⟩, ⟨?_, ?_, ?_, ?_, ?_, rfl⟩, ⟨?_, ?_, ?_, ?_, ?_, rfl⟩,
    ⟨?_, ?_, ?_, ?_, ?_, rfl⟩⟩
  all_goals simp only [rangeSize, toUint, usertop, phystop, pgsize]
  all_goals omega

theorem ordered_kmap : (kmap layout).Pairwise fun low high => low.1 + rangeSize low ≤ high.1 := by
  have text := layout.text
  have ordered := layout.ordered
  have small := layout.small
  simp only [kmap, List.pairwise_cons, List.forall_mem_cons, List.not_mem_nil, false_imp_iff,
    implies_true, and_true, List.Pairwise.nil, rangeSize, toUint, usertop, phystop]
  omega

theorem inRanges_kmap {va : Nat} (small : va < 2 ^ 32) : InRanges (kmap layout) va ↔
    usertop ≤ va ∧ va < phystop ∨ 0xFE000000 ≤ va := by
  have text := layout.text
  have ordered := layout.ordered
  have bound := layout.small
  simp only [InRanges, kmap, List.exists_mem_cons_iff, List.not_mem_nil, false_and, exists_false,
    or_false, rangeSize, toUint, usertop, phystop]
  omega

theorem needsTable_kmap {i : Fin nptentries} : NeedsTable (kmap layout) i ↔
    i.val < 4 ∨ 1016 ≤ i.val := by
  have text := layout.text
  have ordered := layout.ordered
  have bound := layout.small
  have aligned := layout.aligned
  have last := i.isLt
  simp only [NeedsTable, kmap, List.exists_mem_cons_iff, List.not_mem_nil, false_and,
    exists_false, or_false, rangeSize, toUint, usertop, phystop, PDX, Fin.le_def, nptentries,
    pgsize] at *
  omega

/-- The pages `setupkvm` takes at most: the directory and its page tables. -/
def setupPages : Nat := 15

theorem rangeTables_kmap : ((kmap layout).map rangeTables).sum < setupPages := by
  have text := layout.text
  have ordered := layout.ordered
  have bound := layout.small
  have hole : rangeTables (usertop, 0x100000, ⟨true, false⟩) = 1 := by decide
  have devices : rangeTables (0xFE000000, 0, ⟨true, false⟩) = 8 := by decide
  have text : rangeTables (0x100000, layout.data, ⟨false, false⟩) ≤ 1 := by
    simp only [rangeTables, rangeSize, toUint, PDX, nptentries, pgsize]
    omega
  have rest : rangeTables (layout.data, phystop, ⟨true, false⟩) ≤ 4 := by
    simp only [rangeTables, rangeSize, toUint, phystop, PDX, nptentries, pgsize]
    omega
  have total : ∀ x y : Nat, x ≤ 1 → y ≤ 4 → [1, x, y, 8].sum < setupPages := by
    intro x y few few'
    simp only [List.sum_cons, List.sum_nil, setupPages]
    omega
  rw [kmap, List.map_cons, List.map_cons, List.map_cons, List.map_cons, List.map_nil, hole,
    devices]
  exact total _ _ text rest

/-- The effect of `setupkvm`: a new directory with the kernel's mappings. -/
structure Built (layout : Layout) (live : Nat → Prop) (d : Nat) (vm vm' : Vm) : Prop
    extends Kept layout (fun d' => d' = d ∨ live d') d vm vm' where
  fresh : vm.owner d = none
  obtained : (.directory, d) ∈ vm'.granted
  present : ∀ va < 2 ^ 32, (vm'.entry d va).present = true ↔
    usertop ≤ va ∧ va < phystop ∨ 0xFE000000 ≤ va
  tables : ∀ i, (vm'.page d i).present = true ↔ i.val < 4 ∨ 1016 ≤ i.val
  supply : ∀ {n}, Supply layout (n + setupPages) vm → Supply layout n vm'

theorem wp_setupkvm (sound : Sound layout live vm.toMemory) {post : Option Nat → Vm → Prop}
    (fails : ∀ vm', ¬Supply layout setupPages vm → (∀ d, Kept layout live d vm vm') →
      post none vm') (builds : ∀ vm' d, Built layout live d vm vm' → post (some d) vm') :
    Wp (setupkvm layout) post stops vm := by
  rw [setupkvm, wp_bind]
  refine wp_kalloc (fun answers fewer starved => ?_) fun d answers next pool free => ?_
  · exact fails _ (fun supply => starved (supply.mono (by decide))) fun d =>
      .starved sound fewer
  simp only [wp_bind, wp_store]
  have plain := sound.plain_of_free free
  have first : Kept layout (fun d' => d' = d ∨ live d') d vm
      { toMemory := (vm.grant .directory d).setPage d fun _ => .zero, answers := answers,
        granted := (.directory, d) :: vm.granted } :=
    { sound := sound.newDirectory pool free
      owner := Sound.owner_grant free
      taken := fun owned => Memory.taken_grant owned (next ▸ List.mem_cons_self)
      granted := List.mem_cons_of_mem _
      answers := fun member => next ▸ List.mem_cons_of_mem _ member
      drawn := fun member => (List.mem_cons.mp member).elim
        (fun same => .inr (by simp [same, next])) .inl
      page := fun isLive different => update_of_ne different _ _
      entry := fun isLive different _ =>
        sound.entry_setPage plain _ (isLive.resolve_left different) }
  have supplies : ∀ {n}, Supply layout (n + setupPages) vm →
      Supply layout (n + ((kmap layout).map rangeTables).sum)
        { toMemory := (vm.grant .directory d).setPage d fun _ => .zero, answers := answers,
          granted := (.directory, d) :: vm.granted } := by
    intro n supply
    have fewer : ((kmap layout).map rangeTables).sum < setupPages := rangeTables_kmap
    generalize ((kmap layout).map rangeTables).sum = tables at fewer
    have enough : Supply layout (n + tables + 1) vm := supply.mono (by omega)
    exact enough.tail next rfl fun different => update_of_ne different _ _
  have empty : ∀ va, (((vm.grant .directory d).setPage d fun _ => .zero).entry d va).present =
      false := by
    simp [Memory.entry, Memory.setPage]
  refine wp_mapKernel kernelRange_kmap ordered_kmap first.sound (.inl rfl)
    (fun _ _ va _ _ => empty va) (fun vm' starved kept => ?_)
    fun vm' kept entries tables supplies' => ?_
  · have all := first.trans kept
    have notLive : ¬live d := fun isLive => (plain d isLive).1 rfl
    refine fails vm' (fun supply => starved ?_) fun d'' =>
      ⟨all.sound.narrow .inr, all.owner, all.taken, all.granted, all.answers, all.drawn, ?_, ?_⟩
    · have enough : Supply layout (0 + ((kmap layout).map rangeTables).sum) _ :=
        supplies (by simpa using supply)
      simpa using enough
    · intro d' isLive _
      exact all.page (.inr isLive) (by rintro rfl; exact notLive isLive)
    · intro d' va isLive _
      exact all.entry (.inr isLive) (by rintro rfl; exact notLive isLive)
  · refine builds vm' d { first.trans kept with
      fresh := free
      obtained := kept.granted List.mem_cons_self
      present := fun va small => ?_
      tables := fun i => ?_
      supply := fun supply => supplies' (supplies supply) }
    · rw [entries va small, inRanges_kmap small]
      simp [empty]
    · rw [tables i, needsTable_kmap]
      simp [Memory.setPage]

end Xv6
