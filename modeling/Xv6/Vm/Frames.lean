import Xv6.Vm.Ram

/-!
# Every frame is accounted for

What the functions on user memory take from the free list and give back to it, frame by
frame.  `Grew` is the exact effect of adding user pages and `Shrank` that of taking them
back; one after the other they restore the mappings and the set of free frames.
-/

namespace Xv6

open Program Function

variable {layout : Layout} {live : Nat → Prop} {d a va mem low high : Nat}
  {stops : Stop → Prop} {vm : Vm} {ram : Ram}

/-- The addresses in the pages from `low` on that start below `high`. -/
def InPages (low high va : Nat) : Prop :=
  low / pgsize ≤ va / pgsize ∧ va / pgsize * pgsize < high

instance : Decidable (InPages low high va) := inferInstanceAs (Decidable (_ ∧ _))

/-- The user pages of a directory are exactly those that cover the first `sz` bytes. -/
def Memory.Covers (memory : Memory) (d sz : Nat) : Prop :=
  ∀ va < usertop, (memory.entry d va).present = true ↔ va / pgsize * pgsize < sz

/-! ## One page -/

/-- The memory after a user page has been allocated, filled and mapped. -/
def Memory.addPage (memory : Memory) (d a mem : Nat) (contents : Fin nptentries → Pte) :
    Memory :=
  ((memory.grant (.user d (a / pgsize)) mem).setPage mem contents).setEntry
    (memory.page d (PDX a)).frame (PTX a) (userPerm.pte (mem * pgsize))

section AddPage

variable {memory : Memory} {contents : Fin nptentries → Pte}

/-- What a page must meet to be added. -/
structure Addable (layout : Layout) (live : Nat → Prop) (memory : Memory) (d a mem : Nat) :
    Prop where
  sound : Sound layout live memory
  isLive : live d
  table : (memory.page d (PDX a)).present = true
  below : a < usertop
  pool : layout.InPool mem
  free : memory.owner mem = none

namespace Addable

variable (addable : Addable layout live memory d a mem) {d' : Nat}
include addable

theorem granted : Sound layout live
    ((memory.grant (.user d (a / pgsize)) mem).setPage mem contents) :=
  (addable.sound.setPage (addable.sound.plain_of_free addable.free) contents).grant
    addable.pool addable.free

theorem page_granted {d' : Nat} (other : live d') :
    ((memory.grant (.user d (a / pgsize)) mem).setPage mem contents).page d' =
      memory.page d' :=
  Sound.page_setPage (addable.sound.plain_of_free addable.free) other

theorem entry_granted (other : live d') :
    ((memory.grant (.user d (a / pgsize)) mem).setPage mem contents).entry d' va =
      memory.entry d' va :=
  addable.sound.entry_setPage (addable.sound.plain_of_free addable.free) contents other

theorem table_granted :
    (((memory.grant (.user d (a / pgsize)) mem).setPage mem contents).page d
      (PDX a)).present = true := by
  rw [addable.page_granted addable.isLive]
  exact addable.table

theorem eq_setEntry : memory.addPage d a mem contents =
    ((memory.grant (.user d (a / pgsize)) mem).setPage mem contents).setEntry
      (((memory.grant (.user d (a / pgsize)) mem).setPage mem contents).page d (PDX a)).frame
      (PTX a) (userPerm.pte (mem * pgsize)) := by
  rw [Memory.addPage, addable.page_granted addable.isLive]

theorem sound_addPage : Sound layout live (memory.addPage d a mem contents) := by
  rw [addable.eq_setEntry]
  refine addable.granted.setEntry addable.isLive addable.table_granted
    (lt_of_lt_usertop addable.below) (.inr ⟨rfl, ?_⟩)
  simp [Pte.Allowed, Perm.pte, userPerm, addable.below, Memory.setPage, Memory.grant, pgsize]

theorem entry_addPage (other : live d') (small : va < 2 ^ 32) :
    (memory.addPage d a mem contents).entry d' va =
      if d' = d ∧ va / pgsize = a / pgsize then userPerm.pte (mem * pgsize)
      else memory.entry d' va := by
  rw [addable.eq_setEntry, addable.granted.entry_setEntry addable.isLive addable.table_granted
    (lt_of_lt_usertop addable.below) other small, addable.entry_granted other]

theorem page_addPage {d' : Nat} (other : live d') :
    (memory.addPage d a mem contents).page d' = memory.page d' := by
  rw [addable.eq_setEntry, addable.granted.page_setEntry addable.isLive addable.table_granted
    _ _ other, addable.page_granted other]

end Addable

theorem owner_addPage : (memory.addPage d a mem contents).owner =
    update memory.owner mem (some (.user d (a / pgsize))) := rfl

end AddPage

theorem wp_mappages_page {pa : Nat} {perm : Perm} (aligned : a % pgsize = 0)
    (below : a < usertop) (table : (vm.page d (PDX a)).present = true)
    (absent : (vm.entry d a).present = false) {post : Bool → Vm → Prop} (maps : post true
      { vm with toMemory := vm.setEntry (vm.page d (PDX a)).frame (PTX a) (perm.pte pa) }) :
    Wp (mappages layout d a pgsize pa perm) post stops vm := by
  have small : a + pgsize ≤ 2 ^ 32 := by
    simp only [usertop, pgsize] at below ⊢
    omega
  rw [mappages_eq aligned (by simp) (by decide) small, show pgsize / pgsize - 1 = 0 from rfl,
    mapLoop]
  rw [Memory.entry, if_pos table] at absent
  simpa [mapPage, walkpgdir, table, absent] using maps

/-! ## Adding pages -/

/-- The exact effect of adding the user pages of `d` from `low` to `high`: each gets a
frame that was free, with the contents asked for, and no other frame is taken. -/
structure Grew (layout : Layout) (live : Nat → Prop) (d low high : Nat)
    (contents : Nat → Nat → UInt8) (ram ram' : Ram) : Prop where
  sound : Sound layout live ram'.toMemory
  page : ∀ {d'}, live d' → ram'.page d' = ram.page d'
  outside : ∀ {d' va}, live d' → va < 2 ^ 32 → ¬(d' = d ∧ InPages low high va) →
    ram'.entry d' va = ram.entry d' va
  mapped : ∀ {va}, va < 2 ^ 32 → InPages low high va → (ram'.entry d va).present = true
  fresh : ∀ {va}, va < 2 ^ 32 → InPages low high va →
    ram.owner (ram'.entry d va).frame = none
  owned : ∀ {va}, va < 2 ^ 32 → InPages low high va →
    ram'.owner (ram'.entry d va).frame = some (.user d (va / pgsize))
  filled : ∀ {va}, va < 2 ^ 32 → InPages low high va →
    ram'.byte (ram'.entry d va).frame = contents (va / pgsize)
  owner : ∀ {frame}, (∀ va < 2 ^ 32, InPages low high va → (ram'.entry d va).frame ≠ frame) →
    ram'.owner frame = ram.owner frame
  byte : ∀ {frame}, ram.owner frame ≠ none → ram'.byte frame = ram.byte frame

namespace Grew

variable {contents : Nat → Nat → UInt8} {ram₁ ram' : Ram} {ram'' : Ram}

theorem keeps (grew : Grew layout live d low high contents ram ram') {frame : Nat}
    (used : ram.owner frame ≠ none) : ram'.owner frame = ram.owner frame := by
  refine grew.owner fun va small inside same => used ?_
  rw [← same]
  exact grew.fresh small inside

theorem refl (sound : Sound layout live ram.toMemory) (aligned : low % pgsize = 0)
    (empty : high ≤ low) : Grew layout live d low high contents ram ram := by
  have none : ∀ {va}, ¬InPages low high va := by
    intro va
    simp only [InPages, pgsize] at aligned ⊢
    omega
  exact ⟨sound, fun _ => rfl, fun _ _ _ => rfl, fun _ inside => absurd inside none,
    fun _ inside => absurd inside none, fun _ inside => absurd inside none,
    fun _ inside => absurd inside none, fun _ => rfl, fun _ => rfl⟩

theorem rewrite {contents' : Nat → Nat → UInt8}
    (grew : Grew layout live d low high contents ram ram') (memory : ram''.toMemory = ram'.toMemory)
    (filled : ∀ {va}, va < 2 ^ 32 → InPages low high va →
      ram''.byte (ram'.entry d va).frame = contents' (va / pgsize))
    (byte : ∀ {frame}, ram.owner frame ≠ none → ram''.byte frame = ram'.byte frame) :
    Grew layout live d low high contents' ram ram'' := by
  have frames : ∀ {frame}, ram.owner frame ≠ none → ram''.byte frame = ram.byte frame :=
    fun used => (byte used).trans (grew.byte used)
  constructor
  case filled => rwa [memory]
  case byte => exact frames
  all_goals rw [memory]
  · exact grew.sound
  · exact grew.page
  · exact grew.outside
  · exact grew.mapped
  · exact grew.fresh
  · exact grew.owned
  · exact grew.owner

theorem congr (grew : Grew layout live d low high contents ram ram')
    (memory : ram''.toMemory = ram'.toMemory) (byte : ram''.byte = ram'.byte) :
    Grew layout live d low high contents ram ram'' :=
  grew.rewrite memory (by rw [byte]; exact grew.filled) fun _ => by rw [byte]

theorem one (addable : Addable layout live ram.toMemory d a mem) (aligned : a % pgsize = 0)
    {page : Fin nptentries → Pte} (memory : ram'.toMemory = ram.addPage d a mem page)
    (byte : ram'.byte = update ram.byte mem (contents (a / pgsize))) :
    Grew layout live d a (a + pgsize) contents ram ram' := by
  have here : ∀ {va}, InPages a (a + pgsize) va ↔ va / pgsize = a / pgsize := by
    intro va
    simp only [InPages, pgsize] at aligned ⊢
    omega
  have frame : ∀ {va}, va < 2 ^ 32 → va / pgsize = a / pgsize →
      ram'.entry d va = userPerm.pte (mem * pgsize) := by
    intro va small same
    rw [memory, addable.entry_addPage addable.isLive small, if_pos ⟨rfl, same⟩]
  have isMem : (userPerm.pte (mem * pgsize)).frame = mem := by
    simp [Perm.pte, pgsize]
  refine ⟨?_, ?_, ?_, ?_, ?_, ?_, ?_, ?_, ?_⟩
  · rw [memory]
    exact addable.sound_addPage
  · intro d' other
    rw [memory]
    exact addable.page_addPage other
  · intro d' va other small out
    rw [memory, addable.entry_addPage other small, if_neg]
    rwa [here] at out
  · intro va small inside
    rw [frame small (here.mp inside)]
    rfl
  · intro va small inside
    rw [frame small (here.mp inside), isMem]
    exact addable.free
  · intro va small inside
    rw [frame small (here.mp inside), isMem, memory, owner_addPage, here.mp inside,
      update_self]
  · intro va small inside
    rw [frame small (here.mp inside), isMem, byte, here.mp inside, update_self]
  · intro other different
    have distinct : other ≠ mem := by
      rintro rfl
      have small := lt_of_lt_usertop addable.below
      exact different a small (here.mpr rfl) ((frame small rfl).symm ▸ isMem)
    rw [memory, owner_addPage, update_of_ne distinct]
  · intro other used
    have distinct : other ≠ mem := by
      rintro rfl
      exact used addable.free
    rw [byte, update_of_ne distinct]

theorem append {mid low' : Nat} (isLive : live d)
    (split : ∀ {va}, InPages low high va ↔ InPages low mid va ∨ InPages low' high va)
    (apart : ∀ {va}, InPages low mid va → ¬InPages low' high va)
    (first : Grew layout live d low mid contents ram ram₁)
    (rest : Grew layout live d low' high contents ram₁ ram') :
    Grew layout live d low high contents ram ram' := by
  have kept : ∀ {va}, va < 2 ^ 32 → InPages low mid va →
      ram'.entry d va = ram₁.entry d va := fun small inside =>
    rest.outside isLive small fun here => apart inside here.2
  have used : ∀ {va}, va < 2 ^ 32 → InPages low mid va →
      ram₁.owner (ram₁.entry d va).frame ≠ none := by
    intro va small inside
    simp [first.owned small inside]
  refine ⟨rest.sound, fun other => (rest.page other).trans (first.page other), ?_, ?_, ?_, ?_,
    ?_, ?_, ?_⟩
  · intro d' va other small out
    rw [split] at out
    rw [rest.outside other small fun here => out ⟨here.1, .inr here.2⟩,
      first.outside other small fun here => out ⟨here.1, .inl here.2⟩]
  · intro va small inside
    rcases split.mp inside with here | later
    · rw [kept small here]
      exact first.mapped small here
    · exact rest.mapped small later
  · intro va small inside
    rcases split.mp inside with here | later
    · rw [kept small here]
      exact first.fresh small here
    · by_contra allocated
      have before := first.keeps allocated
      rw [rest.fresh small later] at before
      exact allocated before.symm
  · intro va small inside
    rcases split.mp inside with here | later
    · rw [kept small here, rest.keeps (used small here)]
      exact first.owned small here
    · exact rest.owned small later
  · intro va small inside
    rcases split.mp inside with here | later
    · rw [kept small here, rest.byte (used small here)]
      exact first.filled small here
    · exact rest.filled small later
  · intro frame different
    rw [rest.owner fun va small later => different va small (split.mpr (.inr later)),
      first.owner fun va small here => ?_]
    rw [← kept small here]
    exact different va small (split.mpr (.inl here))
  · intro frame allocated
    have before := first.keeps allocated
    rw [rest.byte (before ▸ allocated), first.byte allocated]

theorem cons (aligned : low % pgsize = 0) (more : low < high) (isLive : live d)
    (first : Grew layout live d low (low + pgsize) contents ram ram₁)
    (rest : Grew layout live d (low + pgsize) high contents ram₁ ram') :
    Grew layout live d low high contents ram ram' := by
  refine first.append isLive (fun {va} => ?_) (fun {va} => ?_) rest
  all_goals
    simp only [InPages, pgsize] at aligned ⊢
    omega

end Grew

theorem Ram.wp_allocLoop {newsz : Nat} (sound : Sound layout live ram.toMemory)
    (isLive : live d) (table : (ram.page d 0).present = true) (aligned : a % pgsize = 0)
    (bound : newsz ≤ usertop)
    (absent : ∀ va, a ≤ va → va < newsz → (ram.entry d va).present = false) :
    Wp (Ram.allocLoop layout d newsz a)
      (fun done ram' => ∃ high, min a newsz ≤ high ∧ high ≤ newsz ∧ (done = true → high = newsz) ∧
        Grew layout live d a high (fun _ _ => 0) ram ram' ∧
        ∃ count, ram'.ignored = List.replicate count true ++ ram.ignored) stops ram := by
  induction left : newsz - a using Nat.strong_induction_on generalizing a ram with
  | _ count ih =>
    rw [Ram.allocLoop]
    split_ifs with more
    · have below := lt_of_lt_of_le more bound
      have first : PDX a = 0 := PDX_of_lt_usertop below
      rw [wp_bind, Ram.wp_lift]
      refine wp_kalloc (fun answers _ _ => ?_) fun mem answers next pool free => ?_
      · refine ⟨a, min_le_left _ _, more.le, by simp, ?_, 0, rfl⟩
        exact (Grew.refl sound aligned le_rfl).congr rfl rfl
      have addable : Addable layout live ram.toMemory d a mem :=
        ⟨sound, isLive, first ▸ table, below, pool, free⟩
      rw [wp_bind, Ram.clear, Ram.fill, wp_modify, wp_bind, Ram.wp_lift]
      refine wp_mappages_page aligned below addable.table_granted ?_ ?_
      · exact (congrArg Pte.present (addable.entry_granted isLive)).trans
          (absent a le_rfl more)
      rw [wp_bind, wp_modify]
      generalize state : (Ram.mk _ _ _) = ram₁
      have memory : ram₁.toMemory = ram.addPage d a mem fun _ => .zero := by
        rw [← state]
        exact addable.eq_setEntry.symm
      have grew : Grew layout live d a (a + pgsize) (fun _ _ => 0) ram ram₁ :=
        .one addable aligned memory (by rw [← state])
      have heeded : ram₁.ignored = true :: ram.ignored := by rw [← state]
      refine (ih (newsz - (a + pgsize)) ?_ grew.sound ?_ ?_ (fun va from' below' => ?_) rfl).imp
        fun done ram' => ?_
      · simp only [pgsize]
        omega
      · rw [grew.page isLive]
        exact table
      · simpa using aligned
      · have small : va < 2 ^ 32 := lt_of_lt_usertop (lt_of_lt_of_le below' bound)
        rw [grew.outside isLive small]
        · exact absent va (by omega) below'
        · simp only [InPages, pgsize] at *
          omega
      · rintro ⟨high, reached, fits, all, rest, count, results⟩
        have progress : a < high := by
          simp only [pgsize] at reached
          omega
        refine ⟨high, by omega, fits, all, grew.cons aligned progress isLive rest,
          count + 1, ?_⟩
        rw [results, heeded, List.replicate_succ', List.append_assoc]
        rfl
    · exact ⟨newsz, min_le_right _ _, le_rfl, fun _ => rfl, .refl sound aligned (by omega), 0, rfl⟩

/-! ## Taking pages back -/

/-- The exact effect of taking back the user pages of `d` from `low` to `high`: their frames
are free, and no other frame is. -/
structure Shrank (layout : Layout) (live : Nat → Prop) (d low high : Nat) (vm vm' : Vm) : Prop
    extends Dropped layout live d low high vm vm' where
  freed : ∀ {va}, va < usertop → InPages low high va → (vm.entry d va).present = true →
    vm'.owner (vm.entry d va).frame = none
  others : ∀ {frame}, (∀ va < usertop, InPages low high va → (vm.entry d va).present = true →
    (vm.entry d va).frame ≠ frame) → vm'.owner frame = vm.owner frame

namespace Shrank

variable {vm' : Vm}

section
variable (sound : Sound layout live vm.toMemory)
include sound

theorem refl (aligned : low % pgsize = 0)
    (empty : high ≤ low) : Shrank layout live d low high vm vm where
  toDropped := .refl sound aligned empty
  freed := by
    intro va _ inside
    simp only [InPages, pgsize] at aligned inside
    omega
  others _ := rfl

theorem step (isLive : live d)
    (aligned : low % pgsize = 0) (more : low < high) (below : low < usertop)
    (present : (vm.entry d low).present = true) (rest : Shrank layout live d (low + pgsize) high
      { vm with toMemory := vm.dropPage d low } vm') :
    Shrank layout live d low high vm vm' := by
  have dropped := sound.dropPage isLive below present
  have owner : (vm.dropPage d low).owner = update vm.owner (vm.entry d low).frame none :=
    rfl
  -- the pages of the rest are mapped as before
  have later : ∀ {va}, va < usertop → InPages (low + pgsize) high va →
      (vm.dropPage d low).entry d va = vm.entry d va := by
    intro va below' inside
    rw [sound.entry_dropPage isLive below present isLive (lt_of_lt_usertop below'), if_neg]
    simp only [InPages, pgsize] at *
    omega
  refine { rest.toDropped.step sound isLive aligned more below present with
    freed := fun {va} below' inside present' => ?_
    others := fun {frame} different => ?_ }
  · by_cases here : va / pgsize = low / pgsize
    · rw [vm.entry_congr d (lt_of_lt_usertop below') (lt_of_lt_usertop below) here,
        rest.others fun va₁ below₁ _ present₁ same => ?_]
      · exact update_self _ _ _
      · have user := dropped.user_of_present isLive below₁ present₁
        rw [same, owner, update_self] at user
        cases user
    · have inside' : InPages (low + pgsize) high va := by
        simp only [InPages, pgsize] at *
        omega
      have freed := rest.freed below' inside'
      rw [later below' inside'] at freed
      exact freed present'
  · have distinct : frame ≠ (vm.entry d low).frame := by
      refine (different low below ?_ present).symm
      simp only [InPages, pgsize] at *
      omega
    rw [rest.others fun va below' inside => ?_]
    · exact update_of_ne distinct _ _
    · rw [later below' inside]
      refine different va below' ?_
      simp only [InPages, pgsize] at *
      omega

theorem skip (isLive : live d) (aligned : low % pgsize = 0) (below : low < usertop)
    (absent : (vm.entry d low).present = false)
    (rest : Shrank layout live d (low + pgsize) high vm vm') :
    Shrank layout live d low high vm vm' where
  toDropped := rest.toDropped.skip sound isLive aligned below absent
  freed := by
    intro va below' inside present
    refine rest.freed below' ?_ present
    have different : va / pgsize ≠ low / pgsize := by
      intro same
      rw [vm.entry_congr d (lt_of_lt_usertop below') (lt_of_lt_usertop below) same, absent]
        at present
      cases present
    simp only [InPages, pgsize] at *
    omega
  others := by
    intro frame different
    refine rest.others fun va below' inside => different va below' ?_
    simp only [InPages, pgsize] at *
    omega

end

end Shrank

theorem wp_deallocLoop_exact {oldsz : Nat} (sound : Sound layout live vm.toMemory)
    (isLive : live d) (aligned : a % pgsize = 0) (bound : oldsz ≤ usertop) :
    Wp (deallocLoop layout d oldsz a) (fun _ vm' => Shrank layout live d a oldsz vm vm') stops
      vm := by
  induction left : oldsz - a using Nat.strong_induction_on generalizing a vm with
  | _ count ih =>
    rw [deallocLoop]
    split_ifs with more
    · have shorter : oldsz - (a + pgsize) < count := by
        simp only [pgsize]
        omega
      have below := lt_of_lt_of_le more bound
      rw [wp_bind]
      refine wp_deallocPage sound isLive below (fun absent => ?_) fun present => ?_
      · exact (ih _ shorter sound (by simpa using aligned) rfl).imp fun _ _ rest =>
          rest.skip sound isLive aligned below absent
      · exact (ih _ shorter (sound.dropPage isLive below present) (by simpa using aligned)
          rfl).imp fun _ _ rest => rest.step sound isLive aligned more below present
    · exact .refl sound aligned (by omega)

theorem wp_deallocuvm_exact {oldsz newsz : Nat} (sound : Sound layout live vm.toMemory)
    (isLive : live d) (bound : oldsz ≤ usertop) :
    Wp (deallocuvm layout d oldsz newsz) (fun result vm' => result = min oldsz newsz ∧
      Shrank layout live d (pgroundup newsz) oldsz vm vm') stops vm := by
  rw [deallocuvm, wp_ite]
  refine ⟨fun grows => ?_, fun shrinks => ?_⟩
  · exact ⟨(min_eq_left grows).symm, .refl sound pgroundup_mod (le_trans grows le_pgroundup)⟩
  · rw [wp_bind]
    refine (wp_deallocLoop_exact sound isLive pgroundup_mod bound).imp fun _ vm' shrank => ?_
    exact ⟨(min_eq_right (by omega)).symm, shrank⟩

/-! ## Back again -/

/-- Nothing that a process can see has changed, and the same frames are free. -/
structure Restored (layout : Layout) (live : Nat → Prop) (ram ram' : Ram) : Prop where
  sound : Sound layout live ram'.toMemory
  page : ∀ {d}, live d → ram'.page d = ram.page d
  entry : ∀ {d va}, live d → va < 2 ^ 32 → ram'.entry d va = ram.entry d va
  owner : ram'.owner = ram.owner
  byte : ∀ {frame}, ram.owner frame ≠ none → ram'.byte frame = ram.byte frame

theorem Restored.refl (sound : Sound layout live ram.toMemory) : Restored layout live ram ram :=
  ⟨sound, fun _ => rfl, fun _ _ => rfl, rfl, fun _ => rfl⟩

theorem Grew.undone {contents : Nat → Nat → UInt8} {ram ram₁ : Ram} {top : Nat}
    (before : Sound layout live ram.toMemory)
    (grew : Grew layout live d low high contents ram ram₁) (isLive : live d)
    (absent : ∀ va, InPages low top va → va < usertop → (ram.entry d va).present = false)
    (order : high ≤ top) (bound : top ≤ usertop)
    (shrank : Shrank layout live d low top ram₁.toVm vm) :
    Restored layout live ram { ram₁ with toVm := vm } := by
  have below : ∀ {va}, InPages low top va → va < usertop := by
    intro va inside
    simp only [InPages, usertop, pgsize] at *
    omega
  have wider : ∀ {va}, InPages low high va → InPages low top va := by
    intro va inside
    simp only [InPages] at *
    omega
  refine ⟨shrank.sound, fun other => (shrank.page other).trans (grew.page other), ?_, ?_, ?_⟩
  · intro d' va other small
    change vm.entry d' va = _
    rw [shrank.entry other small]
    split_ifs with here
    · obtain ⟨rfl, inside⟩ := here
      exact (before.zero_of_absent isLive small (absent va inside (below inside))).symm
    · exact grew.outside other small fun both => here ⟨both.1, wider both.2⟩
  · funext frame
    by_cases taken : ∃ va < 2 ^ 32, InPages low high va ∧ (ram₁.entry d va).frame = frame
    · obtain ⟨va, small, inside, rfl⟩ := taken
      rw [grew.fresh small inside]
      exact shrank.freed (below (wider inside)) (wider inside) (grew.mapped small inside)
    · have untaken : ∀ va < 2 ^ 32, InPages low high va → (ram₁.entry d va).frame ≠ frame :=
        fun va small inside same => taken ⟨va, small, inside, same⟩
      refine (shrank.others fun va isUser inside present same => ?_).trans (grew.owner untaken)
      by_cases added : InPages low high va
      · exact untaken va (lt_of_lt_usertop isUser) added same
      · rw [grew.outside isLive (lt_of_lt_usertop isUser) fun both => added both.2,
          absent va inside isUser] at present
        cases present
  · exact grew.byte

end Xv6
