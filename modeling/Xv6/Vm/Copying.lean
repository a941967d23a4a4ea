import Xv6.Vm.Directories

/-!
# Copying an address space

`copyuvm` gives a new page directory with a frame of its own for every page, of equal
contents, or gives back everything it took, unless the memory runs out while `setupkvm`
makes the page tables.
-/

namespace Xv6

open Program

variable {layout : Layout} {live : Nat → Prop} {pgdir d sz : Nat} {ram ram' : Ram}
  {stops : Stop → Prop} {vm vm' : Vm}

/-- The bytes of a page of an address space. -/
def Ram.pageBytes (ram : Ram) (d page : Nat) : Nat → UInt8 :=
  ram.byte (ram.entry d (page * pgsize)).frame

theorem Grew.congr_contents {low high : Nat} {contents contents' : Nat → Nat → UInt8}
    (grew : Grew layout live d low high contents ram ram')
    (same : ∀ page, low / pgsize ≤ page → page * pgsize < high →
      contents page = contents' page) : Grew layout live d low high contents' ram ram' := by
  refine { grew with filled := fun {va} small inside => ?_ }
  rw [grew.filled small inside, same _ inside.1 inside.2]

theorem Ram.wp_copyPages {i : Nat} (sound : Sound layout live ram.toMemory) (isLive : live d)
    (table : (ram.page d 0).present = true) (aligned : i % pgsize = 0) (bound : sz ≤ usertop)
    (absent : ∀ va, i ≤ va → va < sz → (ram.entry d va).present = false) (other : live pgdir)
    (different : pgdir ≠ d) (source : ∀ va < sz, (ram.entry pgdir va).present = true) :
    Wp (Ram.copyPages layout pgdir d sz i)
      (fun done ram' => ∃ high, min i sz ≤ high ∧ high ≤ sz ∧ (done = true → high = sz) ∧
        Grew layout live d i high (ram.pageBytes pgdir) ram ram') stops ram := by
  induction left : sz - i using Nat.strong_induction_on generalizing i ram with
  | _ count ih =>
    rw [Ram.copyPages]
    split_ifs with more
    · have below := lt_of_lt_of_le more bound
      have first : PDX i = 0 := PDX_of_lt_usertop below
      have there := source i more
      have sourceTable := Sound.present_of_entry there
      have place : ram.page (ram.page pgdir (PDX i)).frame (PTX i) = ram.entry pgdir i := by
        rw [Memory.entry, if_pos sourceTable]
      rw [wp_bind, Ram.wp_lift, wp_walkpgdir, if_pos sourceTable, wp_bind, wp_get, place]
      rw [if_neg (by simp [there]), wp_bind, Ram.wp_lift]
      refine wp_kalloc (fun answers _ _ => ?_) fun mem answers next pool free => ?_
      · refine ⟨i, min_le_left _ _, more.le, by simp, ?_⟩
        exact (Grew.refl sound aligned le_rfl).congr rfl rfl
      have addable : Addable layout live ram.toMemory d i mem :=
        ⟨sound, isLive, first ▸ table, below, pool, free⟩
      rw [wp_bind, Ram.copy, Ram.fill, wp_modify, wp_bind, Ram.wp_lift]
      refine wp_mappages_page aligned below addable.table_granted ?_ ?_
      · exact (congrArg Pte.present (addable.entry_granted isLive)).trans
          (absent i le_rfl more)
      rw [if_pos rfl]
      generalize state : (Ram.mk _ _ _) = ram₁
      have start : i / pgsize * pgsize = i := by
        simp only [pgsize] at aligned ⊢
        omega
      have memory : ram₁.toMemory = ram.addPage d i mem (ram.page (ram.entry pgdir i).frame) := by
        rw [← state]
        exact addable.eq_setEntry.symm
      have grew : Grew layout live d i (i + pgsize) (ram.pageBytes pgdir) ram ram₁ := by
        refine .one addable aligned memory ?_
        rw [← state, Ram.pageBytes, start]
      have kept : ∀ {va}, va < sz → ram₁.entry pgdir va = ram.entry pgdir va := fun less =>
        grew.outside other (lt_of_lt_usertop (lt_of_lt_of_le less bound))
          fun same => different same.1
      refine (ih (sz - (i + pgsize)) ?_ grew.sound ?_ ?_ (fun va from' below' => ?_)
        (fun va less => ?_) rfl).imp fun done ram' => ?_
      · simp only [pgsize]
        omega
      · rw [grew.page isLive]
        exact table
      · simpa using aligned
      · have small : va < 2 ^ 32 := lt_of_lt_usertop (lt_of_lt_of_le below' bound)
        rw [grew.outside isLive small]
        · exact absent va (by omega) below'
        · simp only [InPages, pgsize] at *
          omega
      · rw [kept less]
        exact source va less
      · rintro ⟨high, reached, fits, all, rest⟩
        have progress : i < high := by
          simp only [pgsize] at reached
          omega
        refine ⟨high, by omega, fits, all, grew.cons aligned progress isLive
          (rest.congr_contents fun page _ inside => ?_)⟩
        -- the pages that are still to be copied are as before
        have less : page * pgsize < sz := by omega
        have owned := sound.user_of_present other (lt_of_lt_of_le less bound) (source _ less)
        rw [Ram.pageBytes, Ram.pageBytes, kept less, grew.byte (by simp [owned])]
    · exact ⟨sz, min_le_right _ _, le_rfl, fun _ => rfl, .refl sound aligned (by omega)⟩

/-- An exact, independent copy of an address space. -/
structure Copied (layout : Layout) (live : Nat → Prop) (pgdir d sz : Nat) (ram ram' : Ram) :
    Prop where
  space : AddressSpace layout (fun d' => d' = d ∨ live d') ram'.toMemory d sz
  fresh : ram.owner d = none
  frames : ∀ {va}, va < usertop → (ram'.entry d va).present = true →
    ram.owner (ram'.entry d va).frame = none
  contents : ∀ {va}, va < usertop → (ram'.entry d va).present = true →
    ram'.byte (ram'.entry d va).frame = ram.byte (ram.entry pgdir va).frame
  page : ∀ {d'}, live d' → ram'.page d' = ram.page d'
  entry : ∀ {d' va}, live d' → va < 2 ^ 32 → ram'.entry d' va = ram.entry d' va
  byte : ∀ {frame}, ram.owner frame ≠ none → ram'.byte frame = ram.byte frame
  keeps : ∀ {frame}, ram.owner frame ≠ none → ram'.owner frame = ram.owner frame
  enough : Supply layout directoryPages ram.toVm

section
variable (made : Made layout live d vm vm')
include made

theorem Made.keeps {frame : Nat}
    (used : vm.owner frame ≠ none) : vm'.owner frame = vm.owner frame := by
  obtain ⟨use, owned⟩ := Option.ne_none_iff_exists'.mp used
  rw [owned]
  exact made.owner owned

theorem Made.ne (sound : Sound layout live vm.toMemory) {d' : Nat} (isLive : live d') : d' ≠ d := by
  rintro rfl
  have fresh := made.fresh
  simp [sound.directory isLive] at fresh

theorem Made.absent {va : Nat} (below : va < usertop) : (vm'.entry d va).present = false := by
  rw [← Bool.not_eq_true, made.present va (lt_of_lt_usertop below)]
  simp only [usertop, phystop] at *
  omega

end

section Copyuvm

variable {vm₁ : Vm}

theorem copied_of_grew (space : AddressSpace layout live ram.toMemory pgdir sz)
    (made : Made layout live d ram.toVm vm₁) (grew : Grew layout (fun d' => d' = d ∨ live d') d 0 sz
      (Ram.pageBytes { ram with toVm := vm₁ } pgdir) { ram with toVm := vm₁ } ram') :
    Copied layout live pgdir d sz ram ram' := by
  have different : ∀ {d'}, live d' → d' ≠ d := made.ne space.sound
  have inside : ∀ {va}, va < usertop → (ram'.entry d va).present = true → InPages 0 sz va := by
    intro va below present
    by_contra outside
    have same : ram'.entry d va = vm₁.entry d va :=
      grew.outside (.inl rfl) (lt_of_lt_usertop below) fun both => outside both.2
    simp [same, made.absent below] at present
  refine ⟨⟨grew.sound, .inl rfl, ?_, fun va below => ⟨fun present => (inside below present).2,
      fun less => ?_⟩⟩, made.fresh, ?_, ?_, ?_, ?_, ?_, ?_, made.enough⟩
  · rw [grew.page (.inl rfl)]
    exact (made.tables 0).mpr (.inl (by decide))
  · exact grew.mapped (lt_of_lt_usertop below) ⟨by simp, less⟩
  · intro va below present
    have free := grew.fresh (lt_of_lt_usertop below) (inside below present)
    by_contra used
    exact used ((made.keeps used).symm.trans free)
  · intro va below present
    have less := (inside below present).2
    have source := (space.covers va below).mpr less
    have start : va / pgsize * pgsize / pgsize = va / pgsize := by simp [pgsize]
    have small : va / pgsize * pgsize < 2 ^ 32 := by
      simp only [usertop, pgsize] at *
      omega
    have same : vm₁.entry pgdir (va / pgsize * pgsize) = ram.entry pgdir va := by
      rw [made.entry (.inr space.isLive) (different space.isLive) small]
      exact ram.entry_congr pgdir small (lt_of_lt_usertop below) start
    rw [grew.filled (lt_of_lt_usertop below) (inside below present)]
    exact congrArg (fun pte => ram.byte pte.frame) same
  · intro d' isLive
    exact (grew.page (.inr isLive)).trans (made.page (.inr isLive) (different isLive))
  · intro d' va isLive small
    exact (grew.outside (.inr isLive) small fun both => different isLive both.1).trans
      (made.entry (.inr isLive) (different isLive) small)
  · intro frame used
    exact grew.byte (by rw [made.keeps used]; exact used)
  · intro frame used
    exact (grew.keeps (by rw [made.keeps used]; exact used)).trans (made.keeps used)

theorem restored_of_takenDown {ram₂ : Ram} {vm₃ : Vm} {contents : Nat → Nat → UInt8} {high : Nat}
    (sound : Sound layout live ram.toMemory) (made : Made layout live d ram.toVm vm₁)
    (fits : high ≤ usertop) (grew : Grew layout (fun d' => d' = d ∨ live d') d 0 high contents
      { ram with toVm := vm₁ } ram₂)
    (down : TakenDown layout (fun d' => d' = d ∨ live d') d ram₂.toVm vm₃) :
    Restored layout live ram { ram₂ with toVm := vm₃ } := by
  have different : ∀ {d'}, live d' → d' ≠ d := made.ne sound
  have page : ram₂.page d = vm₁.page d := grew.page (.inl rfl)
  have tables : ram₂.tables d = vm₁.tables d := by simp only [Memory.tables, page]
  have untaken : ∀ {frame}, vm₁.owner frame = none → ram.owner frame = none := by
    intro frame free
    by_contra used
    exact used ((made.keeps used).symm.trans free)
  have added : ∀ {va}, va < usertop → (ram₂.entry d va).present = true → InPages 0 high va := by
    intro va below present
    by_contra outside
    have same : ram₂.entry d va = vm₁.entry d va :=
      grew.outside (.inl rfl) (lt_of_lt_usertop below) fun both => outside both.2
    simp [same, made.absent below] at present
  refine ⟨down.sound.narrow fun isLive => ⟨.inr isLive, different isLive⟩, ?_, ?_, ?_, ?_⟩
  · intro d' isLive
    exact (down.page (.inr isLive) (different isLive)).trans
      ((grew.page (.inr isLive)).trans (made.page (.inr isLive) (different isLive)))
  · intro d' va isLive small
    exact (down.entry (.inr isLive) (different isLive) small).trans
      ((grew.outside (.inr isLive) small fun both => different isLive both.1).trans
        (made.entry (.inr isLive) (different isLive) small))
  · funext frame
    change vm₃.owner frame = ram.owner frame
    by_cases isDirectory : frame = d
    · subst isDirectory
      exact down.self.trans made.fresh.symm
    by_cases isTable : ∃ i ∈ ram₂.tables d, (ram₂.page d i).frame = frame
    · obtain ⟨i, member, rfl⟩ := isTable
      rw [down.tables i member, page]
      exact (made.unused i (by rwa [← tables])).symm
    by_cases isPage : ∃ va < usertop, (ram₂.entry d va).present = true ∧
        (ram₂.entry d va).frame = frame
    · obtain ⟨va, below, present, rfl⟩ := isPage
      rw [down.pages below present]
      exact (untaken (grew.fresh (lt_of_lt_usertop below) (added below present))).symm
    rw [down.others isDirectory (fun i member same => isTable ⟨i, member, same⟩)
      fun va below present same => isPage ⟨va, below, present, same⟩]
    have below : ∀ {va}, InPages 0 high va → va < usertop := by
      intro va inside
      simp only [InPages, usertop, pgsize] at *
      omega
    refine (grew.owner fun va small inside same => isPage ⟨va, below inside,
      grew.mapped small inside, same⟩).trans (made.others isDirectory fun i member same => ?_)
    exact isTable ⟨i, by rwa [tables], by rwa [page]⟩
  · intro frame used
    exact grew.byte (by rw [made.keeps used]; exact used)

theorem Ram.wp_copyuvm (space : AddressSpace layout live ram.toMemory pgdir sz)
    (bound : sz ≤ usertop) {post : Option Nat → Ram → Prop}
    (copies : ∀ ram' d, Copied layout live pgdir d sz ram ram' → post (some d) ram')
    (restores : ∀ ram', Restored layout live ram ram' →
      ¬Supply layout 1 ram.toVm ∨ Supply layout directoryPages ram.toVm → post none ram')
    (leaks : ∀ ram' frame, Supply layout 1 ram.toVm → ¬Supply layout directoryPages ram.toVm →
      ram.owner frame = none → ram'.owner frame ≠ none →
      (∀ {frame use}, ram.owner frame = some use → ram'.owner frame = some use) →
      post none ram') : Wp (Ram.copyuvm layout pgdir sz) post stops ram := by
  rw [Ram.copyuvm, wp_bind, Ram.wp_lift]
  refine wp_setupkvm_exact space.sound (fun vm same starved => ?_)
    (fun vm d first starved free leaked kept _ =>
      leaks _ d first starved free leaked (kept d).owner)
    fun vm₁ d made => ?_
  · refine restores _ ⟨?_, ?_, ?_, ?_, fun _ => rfl⟩ (.inl starved)
    · exact same ▸ space.sound
    · exact fun _ => congrArg (Memory.page · _) same
    · exact fun _ _ => congrArg (Memory.entry · _ _) same
    · exact congrArg Memory.owner same
  have different := made.ne space.sound space.isLive
  rw [wp_bind]
  refine (Ram.wp_copyPages made.sound (.inl rfl) ((made.tables 0).mpr (.inl (by decide))) rfl bound
    (fun va _ less => made.absent (lt_of_lt_of_le less bound)) (.inr space.isLive) different
    fun va less => ?_).imp ?_
  · have below := lt_of_lt_of_le less bound
    refine (congrArg Pte.present (made.entry (.inr space.isLive) different
      (lt_of_lt_usertop below))).trans ((space.covers va below).mpr ?_)
    simp only [pgsize]
    omega
  · rintro done ram₂ ⟨high, -, most, all, grew⟩
    cases done with
    | true =>
      obtain rfl := all rfl
      exact copies ram₂ d (copied_of_grew space made grew)
    | false =>
      simp only [Bool.false_eq_true, if_false, wp_bind, Ram.wp_lift]
      refine (wp_freevm_exact grew.sound (.inl rfl)).imp fun _ vm₃ down => ?_
      exact restores _ (restored_of_takenDown space.sound made (most.trans bound) grew down)
        (.inr made.enough)

end Copyuvm

end Xv6
