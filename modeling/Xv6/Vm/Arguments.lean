import Xv6.Vm.Image

/-!
# The stack of a new program

`exec` copies the arguments to the new stack, one below the other, and the table of pointers
below them.  It has allocated one page for the stack but does not check that they fit:
`copyout` takes any page of the user, so that a long list of arguments runs over into the
pages of the program.
-/

namespace Xv6

open Program

variable {layout : Layout} {live : Nat → Prop} {d sz va sp : Nat} {start ram ram' : Ram}
  {stops : Stop → Prop} {image : Nat → UInt8} {args : List Argument} {pointers : List Nat}
  {top : Nat} {arg : Argument} {ram₀ : Ram} {source : List UInt8}

/-! ## Addresses of the stack -/

theorem Building.wp_copyout (building : Building layout live d sz start ram)
    (below : sp ≤ sz) (positive : 0 < source.length) (short : source.length ≤ usertop)
    (low : toUint (sp - source.length) < va + 4) (high : va ≤ toUint (sp - source.length)) :
    Wp (Ram.copyout layout d va source) (CopiedOut d va source ram) stops ram := by
  rcases stack_place (below.trans building.fits) short positive low high with
    inside | ⟨top, small, -⟩
  · refine Ram.wp_copyout building.grew.sound building.isLive ?_ fun a _ less => building.table ?_
    · simp only [usertop] at inside
      omega
    · simp only [usertop] at inside
      omega
  · have kernel : ¬ram.UserPage d va := by
      have fits := building.fits
      rw [building.userPage_iff small]
      simp only [usertop, pgsize] at *
      omega
    rw [Ram.wp_copyout_refused positive small (building.table (.inr (by omega))) kernel]
    refine ⟨.refl .., .inr rfl, ?_, fun _ _ => rfl, by simp⟩
    simp only [show (-1 : Int) ≠ 0 by decide, false_iff]
    exact fun all => kernel (all va le_rfl (by omega))

theorem Building.copied {result : Int}
    (building : Building layout live d sz start ram) (below : sp ≤ sz)
    (positive : 0 < source.length) (short : source.length ≤ usertop)
    (low : toUint (sp - source.length) < va + 4) (high : va ≤ toUint (sp - source.length))
    (copied : CopiedOut d va source ram result ram') :
    Building layout live d sz start ram' ∧ (result = 0 → va + source.length ≤ sp) := by
  have fits := building.fits
  have small : va < 2 ^ 32 := by
    simp only [toUint] at high
    omega
  by_cases user : ram.UserPage d va
  · have inside : va + source.length ≤ sp := by
      rw [building.userPage_iff small] at user
      simp only [toUint, usertop, pgsize] at *
      omega
    refine ⟨building.wrote copied.wrote ?_ fun a _ less => ?_, fun _ => inside⟩
    · simp only [usertop] at fits
      omega
    · exact lt_of_le_of_lt (Nat.div_mul_le_self ..) (by omega)
  · obtain rfl := copied.refused positive user
    refine ⟨building, fun zero => absurd (copied.returns.mp zero va le_rfl (by omega)) user⟩

/-! ## The strings -/

/-- The room that the strings take, each with its terminator and aligned to a word. -/
def stringsSize (args : List Argument) : Nat :=
  (args.map fun arg => (arg.bytes.length + 3) / 4 * 4).sum

/-- The room that the arguments take on the stack: the strings and, below them, the words. -/
def stackSize (args : List Argument) : Nat := stringsSize args + 4 * (args.length + 4)

@[simp] theorem stringsSize_nil : stringsSize [] = 0 := rfl

theorem stringsSize_cons :
    stringsSize (arg :: args) = (arg.bytes.length + 3) / 4 * 4 + stringsSize args := by
  simp [stringsSize]

theorem stringsSize_append {args args' : List Argument} :
    stringsSize (args ++ args') = stringsSize args + stringsSize args' := by
  simp [stringsSize]

/-- A string is on the stack. -/
structure StringAt (d sp top : Nat) (ram : Ram) (arg : Argument) (pointer : Nat) : Prop where
  above : sp ≤ pointer
  below : pointer + arg.bytes.length ≤ top
  holds : ram.Holds d pointer arg.bytes

/-- Strings have been pushed to the stack that ends at `top`. -/
structure Pushed (d top sp : Nat) (args : List Argument) (pointers : List Nat) (start ram : Ram) :
    Prop where
  wrote : Wrote d sp (top - sp) start ram
  aligned : sp % 4 = 0
  size : sp + stringsSize args = top
  strings : List.Forall₂ (StringAt d sp top ram) args pointers

theorem Wrote.comp {len : Nat} {ram₁ : Ram} (first : Wrote d va len ram ram₁)
    (second : Wrote d va len ram₁ ram') : Wrote d va len ram ram' where
  vm := second.vm.trans first.vm
  ignored := second.ignored.trans first.ignored
  outside := by
    intro frame j apart
    rw [second.outside fun a low high => ?_, first.outside apart]
    rw [show ram₁.entry d a = ram.entry d a by rw [first.vm]]
    exact apart a low high

theorem StringAt.kept {pointer top len : Nat}
    (building : Building layout live d sz start ram) (fits : top ≤ sz)
    (string : StringAt d sp top ram arg pointer) (wrote : Wrote d va len ram ram')
    (below : va + len ≤ sp) : StringAt d sp top ram' arg pointer := by
  obtain ⟨above, inside, holds⟩ := string
  have bound := building.fits
  simp only [usertop] at bound
  exact ⟨above, inside, wrote.holds building.grew.sound building.isLive holds
    (building.userRange (by omega)) (building.userRange (by omega)) (by omega) (by omega)
    (.inr (by omega))⟩

theorem Pushed.push (building : Building layout live d sz start ram) (fits : top ≤ sz)
    (pushed : Pushed d top sp args pointers ram₀ ram)
    (isPointer : va = toUint (sp - arg.bytes.length) / 4 * 4) (inside : va + arg.bytes.length ≤ sp)
    (copied : CopiedOut d va arg.bytes ram 0 ram') :
    Pushed d top va (args ++ [arg]) (pointers ++ [va]) ram₀ ram' := by
  obtain ⟨wrote, aligned, size, strings⟩ := pushed
  have bound := building.fits
  simp only [usertop] at bound
  have place : va = (sp - arg.bytes.length) / 4 * 4 := by
    simp only [toUint] at isPointer
    omega
  have both : Wrote d va (top - va) ram₀ ram' :=
    (wrote.mono (by omega) (by omega)).comp (copied.wrote.mono le_rfl (by omega))
  refine ⟨both, by omega, ?_, ?_⟩
  · rw [stringsSize_append, stringsSize_cons, stringsSize_nil]
    omega
  · refine List.rel_append (strings.imp fun _ _ string => ?_)
      (.cons ⟨le_rfl, by omega, copied.holds rfl⟩ .nil)
    obtain ⟨above, below, holds⟩ := string.kept building fits copied.wrote inside
    exact ⟨by omega, below, holds⟩

theorem Building.wp_pushArgs {args done : List Argument}
    (building : Building layout live d sz start ram) (fits : top ≤ sz)
    (pushed : Pushed d top sp done pointers ram₀ ram) (few : pointers.length ≤ maxarg) :
    Wp (Ram.pushArgs layout d args pointers sp) (fun result ram' =>
      Building layout live d sz start ram' ∧
      (stringsSize args ≤ sp → pointers.length + args.length ≤ maxarg → result ≠ none) ∧
      ∀ outcome, result = some outcome → outcome.1.length ≤ maxarg ∧
        Pushed d top outcome.2 (done ++ args) outcome.1 ram₀ ram') stops ram := by
  induction args generalizing done pointers sp ram with
  | nil =>
    refine ⟨building, by simp, fun outcome same => ?_⟩
    obtain rfl := Option.some.inj same
    simpa using ⟨few, pushed⟩
  | cons arg rest ih =>
    have stopped {ram' : Ram} (still : Building layout live d sz start ram')
        (tooLong : stringsSize (arg :: rest) ≤ sp →
          ¬pointers.length + (arg :: rest).length ≤ maxarg) :
        Building layout live d sz start ram' ∧
        (stringsSize (arg :: rest) ≤ sp → pointers.length + (arg :: rest).length ≤ maxarg →
          (none : Option (List Nat × Nat)) ≠ none) ∧
        ∀ outcome : List Nat × Nat, none = some outcome → outcome.1.length ≤ maxarg ∧
          Pushed d top outcome.2 (done ++ arg :: rest) outcome.1 ram₀ ram' :=
      ⟨still, fun room count => absurd count (tooLong room), by rintro outcome ⟨⟩⟩
    have length : arg.bytes.length = arg.text.length + 1 := by simp [Argument.bytes]
    have short := arg.short
    have below : sp ≤ sz := le_trans (by have := pushed.size; omega) fits
    rw [Ram.pushArgs, wp_ite]
    refine ⟨fun most => stopped building fun _ => ?_, fun fewer => ?_⟩
    · rw [List.length_cons]
      omega
    rw [← length]
    generalize isPointer : toUint (sp - (arg.bytes.length : Nat)) / 4 * 4 = va
    have low : toUint (sp - (arg.bytes.length : Nat)) < va + 4 := by omega
    have high : va ≤ toUint (sp - (arg.bytes.length : Nat)) := by omega
    rw [wp_bind]
    refine (building.wp_copyout below (by omega) (by omega) low high).imp
      fun result ram' copied => ?_
    obtain ⟨still, inside⟩ :=
      building.copied below (by omega) (by omega) low high copied
    have bound := building.fits
    simp only [usertop] at bound
    rw [wp_ite]
    refine ⟨fun failed => stopped still fun room => absurd (copied.returns.mpr ?_) (by omega),
      fun passed => ?_⟩
    · rw [stringsSize_cons] at room
      have place : va + arg.bytes.length ≤ sp := by
        simp only [toUint] at isPointer
        omega
      exact building.userRange (by omega)
    have zero : result = 0 := by
      have := copied.outcome
      omega
    subst zero
    have more := pushed.push building fits isPointer.symm (inside rfl) copied
    have next : va + (arg.bytes.length + 3) / 4 * 4 = sp := by
      have size := more.size
      have size' := pushed.size
      rw [stringsSize_append, stringsSize_cons, stringsSize_nil] at size
      omega
    have all := ih still more (by simp; omega)
    rw [List.append_assoc, List.singleton_append] at all
    refine all.imp fun outcome ram' => And.imp_right (And.imp_left fun succeeds room count => ?_)
    rw [stringsSize_cons] at room
    refine succeeds (by omega) ?_
    simp only [List.length_append, List.length_cons, List.length_nil] at count ⊢
    omega

/-! ## The whole stack -/

/-- The stack that a program starts with: a return address, `argc`, `argv`, which points to
the words after it, the pointers to the strings, and above them the strings. -/
structure LaidOut (d top sp : Nat) (args : List Argument) (ram : Ram) : Prop where
  aligned : sp % 4 = 0
  size : sp + stackSize args = top
  words : ∃ pointers,
    List.Forall₂ (StringAt d (sp + 4 * (args.length + 4)) top ram) args pointers ∧
    ram.Holds d sp (([0xffffffff, args.length, sp + 12] ++ pointers ++ [0]).flatMap wordBytes)

theorem length_flatMap_wordBytes {words : List Nat} :
    (words.flatMap wordBytes).length = words.length * 4 := by
  induction words with
  | nil => rfl
  | cons word rest ih =>
    rw [List.flatMap_cons, List.length_append, ih, List.length_cons]
    simp only [wordBytes, List.length_map, List.length_range]
    omega

theorem LaidOut.congr (laid : LaidOut d top sp args ram)
    (entry : ∀ a < top, ram'.entry d a = ram.entry d a) (byte : ram'.byte = ram.byte) :
    LaidOut d top sp args ram' := by
  obtain ⟨aligned, size, pointers, strings, words⟩ := laid
  have holds : ∀ {va source}, va + source.length ≤ top → ram.Holds d va source →
      ram'.Holds d va source := fun inside holds a low high => by
    rw [entry a (by omega), byte, holds a low high]
  refine ⟨aligned, size, pointers, strings.imp fun arg pointer string => ?_, holds ?_ words⟩
  · exact ⟨string.above, string.below, holds string.below string.holds⟩
  · have count : args.length = pointers.length := strings.length_eq
    rw [length_flatMap_wordBytes]
    simp only [List.length_append, List.length_cons, List.length_nil, stackSize] at size ⊢
    omega

theorem Ram.length_stackWords :
    ((Ram.stackWords pointers sp).flatMap wordBytes).length = (3 + pointers.length + 1) * 4 := by
  rw [length_flatMap_wordBytes]
  simp only [Ram.stackWords, List.length_append, List.length_cons, List.length_nil]

theorem Building.roundup (building : Building layout live d sz start ram) :
    Building layout live d (pgroundup sz) start ram := by
  obtain ⟨isLive, empty, tables, fits, grew⟩ := building
  have pages : ∀ {va}, InPages 0 (pgroundup sz) va ↔ InPages 0 sz va := by
    intro va
    simp only [InPages, pgroundup, pgsize]
    omega
  refine ⟨isLive, empty, tables, pgroundup_le_usertop fits, grew.sound, grew.page,
    fun other small out => grew.outside other small fun both => out ⟨both.1, pages.mpr both.2⟩,
    fun small inside => grew.mapped small (pages.mp inside),
    fun small inside => grew.fresh small (pages.mp inside),
    fun small inside => grew.owned small (pages.mp inside),
    fun small inside => grew.filled small (pages.mp inside),
    fun different => grew.owner fun va small inside => different va small (pages.mpr inside),
    grew.byte⟩

theorem Pushed.laidOut (building : Building layout live d sz start ram) (fits : top ≤ sz)
    (pushed : Pushed d top sp args pointers ram₀ ram)
    (isPointer : va = toUint (sp - ((3 + pointers.length + 1) * 4 : Nat)))
    (inside : va + (pointers.length + 4) * 4 ≤ sp)
    (copied : CopiedOut d va ((Ram.stackWords pointers sp).flatMap wordBytes) ram 0 ram') :
    LaidOut d top va args ram' ∧ Wrote d va (top - va) ram₀ ram' := by
  obtain ⟨wrote, aligned, size, strings⟩ := pushed
  have bound := building.fits
  simp only [usertop] at bound
  have count : args.length = pointers.length := strings.length_eq
  have place : va + (pointers.length + 4) * 4 = sp := by
    simp only [toUint] at isPointer
    omega
  have argv : toUint (sp - ((pointers.length + 1) * 4 : Nat)) = va + 12 := by
    simp only [toUint]
    omega
  have written := copied.wrote
  rw [Ram.length_stackWords] at written
  refine ⟨⟨by omega, ?_, pointers, ?_, ?_⟩,
    (wrote.mono (by omega) (by omega)).comp (written.mono le_rfl (by omega))⟩
  · simp only [stackSize]
    omega
  · refine strings.imp fun _ _ string => ?_
    have start : va + 4 * (args.length + 4) = sp := by omega
    rw [start]
    exact string.kept building fits written (by omega)
  · have holds := copied.holds rfl
    rwa [Ram.stackWords, argv, ← count] at holds

/-- There is a page for the stack, and the arguments fit in the whole of user memory. -/
structure HasRoom (layout : Layout) (args : List Argument) (sz : Nat) (vm : Vm) : Prop where
  supply : Supply layout 1 vm
  page : pgroundup sz + pgsize ≤ usertop
  room : stackSize args ≤ pgroundup sz + pgsize
  few : args.length ≤ maxarg

/-- The second half of `exec`. -/
theorem Building.wp_buildStack
    (building : Building layout live d sz start ram) (isImage : ram.Image d sz image)
    (zero : ∀ a, pgroundup sz ≤ a → image a = 0) :
    Wp (Ram.buildStack layout d args sz) (fun result ram' =>
      ∃ size, Building layout live d size start ram' ∧
        (HasRoom layout args sz ram.toVm → result ≠ none) ∧
        ∀ outcome, result = some outcome →
          outcome.1 = size ∧ size = pgroundup sz + pgsize ∧ LaidOut d size outcome.2 args ram' ∧
            ∀ a < outcome.2, ram'.at d a = image a) stops ram := by
  have stopped {ram' : Ram} {size : Nat} (still : Building layout live d size start ram')
      (full : ¬HasRoom layout args sz ram.toVm) :
      ∃ size, Building layout live d size start ram' ∧
        (HasRoom layout args sz ram.toVm → (none : Option (Nat × Nat)) ≠ none) ∧
        ∀ outcome : Nat × Nat, none = some outcome →
          outcome.1 = size ∧ size = pgroundup sz + pgsize ∧ LaidOut d size outcome.2 args ram' ∧
            ∀ a < outcome.2, ram'.at d a = image a :=
    ⟨size, still, fun room => absurd room full, by rintro outcome ⟨⟩⟩
  have idem : pgroundup (pgroundup sz) = pgroundup sz := by
    simp only [pgroundup, pgsize]
    omega
  have bound := pgroundup_le_usertop building.fits
  simp only [Ram.buildStack]
  have newsz_eq := Ram.pageEnd_eq bound
  generalize Ram.pageEnd (pgroundup sz) = newsz at newsz_eq ⊢
  have larger : pgroundup sz ≤ newsz ∧ newsz ≠ 0 ∧ newsz % 4 = 0 := by
    simp only [newsz_eq, pgroundup, pgsize]
    omega
  have one : pagesBetween (pgroundup (pgroundup sz)) newsz = 1 := by
    simp only [newsz_eq, pagesBetween, pgroundup, pgsize]
    omega
  have allocates : Wp (Ram.allocuvm layout d (pgroundup sz) newsz) _ stops ram :=
    building.roundup.wp_allocuvm (by rwa [Ram.Image, idem]) (by rwa [idem])
  have succeeds : Wp (Ram.allocuvm layout d (pgroundup sz) newsz) (fun size _ =>
      HasRoom layout args sz ram.toVm → size = newsz) (fun _ => True) ram := by
    by_cases room : HasRoom layout args sz ram.toVm
    · refine (building.roundup.space.wp_allocuvm_supply larger.1 ?_).mono
        (fun size _ enough _ => enough.1 ?_) fun _ => False.elim
      · exact newsz_eq.le.trans room.page
      · rw [one]
        exact room.supply
    · exact allocates.mono (fun _ _ _ room' => absurd room' room) fun _ _ => trivial
  rw [wp_bind]
  refine (allocates.and succeeds).mono ?_ fun _ => And.left
  rw [max_eq_right larger.1]
  rintro size ram₁ ⟨⟨rfl, still⟩ | ⟨rfl, fits, after, isImage₁⟩, grows⟩
  · rw [if_pos rfl]
    exact stopped still fun room => larger.2.1 (grows room).symm
  rw [if_neg larger.2.1, wp_bind]
  have nothing : Pushed d size size [] [] ram₁ ram₁ := ⟨.refl .., larger.2.2, rfl, .nil⟩
  refine (after.wp_pushArgs le_rfl nothing (Nat.zero_le _)).imp ?_
  rintro outcome ram₂ ⟨still, pushes, all⟩
  cases outcome with
  | none =>
    refine stopped still fun room => pushes ?_ ?_ rfl
    · exact le_trans (by simp [stackSize]) (newsz_eq ▸ room.room)
    · simpa using room.few
  | some outcome =>
    obtain ⟨pointers, sp⟩ := outcome
    obtain ⟨few, pushed⟩ : pointers.length ≤ maxarg ∧ Pushed d size sp args pointers ram₁ ram₂ :=
      all _ rfl
    have below : sp ≤ size := by
      have := pushed.size
      omega
    have length : ((Ram.stackWords pointers sp).flatMap wordBytes).length =
        (3 + pointers.length + 1) * 4 := Ram.length_stackWords
    have short : (3 + pointers.length + 1) * 4 ≤ usertop := by
      simp only [maxarg, usertop] at *
      omega
    simp only
    generalize isPointer : toUint (sp - ((3 + pointers.length + 1) * 4 : Nat)) = va
    have place : va = toUint (sp - ((Ram.stackWords pointers sp).flatMap wordBytes).length) := by
      rw [length, isPointer]
    rw [wp_bind]
    refine (still.wp_copyout below (by omega) (by omega) (by omega) place.le).imp
      fun result ram' copied => ?_
    obtain ⟨finished, inside⟩ :=
      still.copied below (by omega) (by omega) (by omega) place.le copied
    have bound := after.fits
    simp only [usertop] at bound
    have count : args.length = pointers.length := pushed.strings.length_eq
    rw [wp_ite]
    refine ⟨fun failed => stopped finished fun room => absurd (copied.returns.mpr ?_) (by omega),
      fun passed => ?_⟩
    · have fits := room.room
      have size_eq := pushed.size
      simp only [stackSize] at fits
      have place : va + (3 + pointers.length + 1) * 4 = sp := by
        simp only [toUint] at isPointer
        omega
      exact still.userRange (by omega)
    have zero : result = 0 := by
      have := copied.outcome
      omega
    subst zero
    have room := inside rfl
    obtain ⟨laid, wrote⟩ := pushed.laidOut still le_rfl isPointer.symm (by omega) copied
    refine ⟨size, finished, by simp, fun outcome same => ?_⟩
    obtain rfl := Option.some.inj same
    refine ⟨rfl, newsz_eq, laid, fun a less => ?_⟩
    have least : a < pgroundup size := lt_of_lt_of_le (by omega) le_pgroundup
    rw [after.at_outside wrote (by omega) (after.userRange (by omega)) least (by omega)]
    exact isImage₁ a least

end Xv6
