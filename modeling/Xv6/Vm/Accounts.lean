import Xv6.Vm.Frames
import Xv6.Vm.Isolation

/-!
# Growing and shrinking an address space

`allocuvm` either maps every page up to the new size to a fresh frame filled with zeros, or
leaves everything as it was; `deallocuvm` with the sizes swapped undoes it.
-/

namespace Xv6

open Program

variable {layout : Layout} {live : Nat → Prop} {d oldsz newsz : Nat} {stops : Stop → Prop}
  {ram : Ram}

/-- A page directory, with the page table for user memory that `setupkvm` makes, whose user
pages are exactly those that cover the first `sz` bytes. -/
structure AddressSpace (layout : Layout) (live : Nat → Prop) (memory : Memory) (d sz : Nat) :
    Prop where
  sound : Sound layout live memory
  isLive : live d
  table : (memory.page d 0).present = true
  covers : memory.Covers d sz

namespace AddressSpace

variable {memory : Memory} {ram' : Ram} {vm vm' : Vm}

theorem absent (space : AddressSpace layout live memory d oldsz) {va : Nat}
    (from' : pgroundup oldsz ≤ va) (below : va < usertop) :
    (memory.entry d va).present = false := by
  rw [← Bool.not_eq_true, space.covers va below]
  simp only [pgroundup, pgsize] at *
  omega

theorem absent_inPages (space : AddressSpace layout live memory d oldsz) {va : Nat}
    (inside : InPages (pgroundup oldsz) newsz va) (below : va < usertop) :
    (memory.entry d va).present = false := by
  refine space.absent ?_ below
  simp only [InPages, pgroundup, pgsize] at *
  omega

theorem grew {contents : Nat → Nat → UInt8}
    (space : AddressSpace layout live ram.toMemory d oldsz) (order : oldsz ≤ newsz)
    (grew : Grew layout live d (pgroundup oldsz) newsz contents ram ram') :
    AddressSpace layout live ram'.toMemory d newsz := by
  refine ⟨grew.sound, space.isLive, ?_, fun va below => ?_⟩
  · rw [grew.page space.isLive]
    exact space.table
  · have small := lt_of_lt_usertop below
    by_cases inside : InPages (pgroundup oldsz) newsz va
    · exact iff_of_true (grew.mapped small inside) inside.2
    · rw [grew.outside space.isLive small fun both => inside both.2, space.covers va below]
      simp only [InPages, pgroundup, pgsize] at *
      omega

theorem shrank (space : AddressSpace layout live vm.toMemory d oldsz) (order : newsz ≤ oldsz)
    (shrank : Shrank layout live d (pgroundup newsz) oldsz vm vm') :
    AddressSpace layout live vm'.toMemory d newsz := by
  refine ⟨shrank.sound, space.isLive, ?_, fun va below => ?_⟩
  · rw [shrank.page space.isLive]
    exact space.table
  · have covered := space.covers va below
    rw [shrank.entry space.isLive (lt_of_lt_usertop below)]
    split_ifs with inside
    · simp only [Pte.present_zero, pgroundup, pgsize] at *
      simp only [Bool.false_eq_true, false_iff]
      omega
    · rw [covered]
      simp only [true_and, pgroundup, pgsize] at *
      omega

theorem restored (space : AddressSpace layout live ram.toMemory d oldsz)
    (restored : Restored layout live ram ram') :
    AddressSpace layout live ram'.toMemory d oldsz := by
  refine ⟨restored.sound, space.isLive, ?_, fun va below => ?_⟩
  · rw [restored.page space.isLive]
    exact space.table
  · rw [restored.entry space.isLive (lt_of_lt_usertop below)]
    exact space.covers va below

end AddressSpace

/-- The results of `mappages` that were ignored in between were no failures. -/
def Ram.Heeded (ram ram' : Ram) : Prop :=
  ∃ count, ram'.ignored = List.replicate count true ++ ram.ignored

theorem Ram.wp_allocuvm (space : AddressSpace layout live ram.toMemory d oldsz)
    (order : oldsz ≤ newsz) (fits : newsz ≤ usertop) :
    Wp (Ram.allocuvm layout d oldsz newsz) (fun result ram' => ram.Heeded ram' ∧
      (result = newsz ∧ Grew layout live d (pgroundup oldsz) newsz (fun _ _ => 0) ram ram' ∨
        result = 0 ∧ Restored layout live ram ram')) stops ram := by
  rw [Ram.allocuvm, if_neg (by omega), if_neg (by omega), wp_bind]
  refine (Ram.wp_allocLoop space.sound space.isLive space.table pgroundup_mod fits
    fun va from' below => space.absent from' (lt_of_lt_of_le below fits)).imp ?_
  rintro done ram₁ ⟨high, -, most, all, grew, heeded⟩
  cases done with
  | true =>
    obtain rfl := all rfl
    exact ⟨heeded, .inl ⟨rfl, grew⟩⟩
  | false =>
    simp only [Bool.false_eq_true, if_false, wp_bind, Ram.wp_lift]
    refine (wp_deallocuvm_exact grew.sound space.isLive fits).imp ?_
    rintro - vm ⟨-, shrank⟩
    refine ⟨heeded, .inr ⟨rfl, grew.undone space.sound space.isLive ?_ most fits shrank⟩⟩
    exact fun va inside below => space.absent_inPages inside below

/-- With enough free pages `allocuvm` does not fail. -/
theorem AddressSpace.wp_allocuvm_supply (space : AddressSpace layout live ram.toMemory d oldsz)
    (order : oldsz ≤ newsz) (fits : newsz ≤ usertop) :
    Wp (Ram.allocuvm layout d oldsz newsz) (fun result ram' =>
      (Supply layout (pagesBetween (pgroundup oldsz) newsz) ram.toVm → result = newsz) ∧
      ∀ {n}, Supply layout (n + pagesBetween (pgroundup oldsz) newsz) ram.toVm →
        Supply layout n ram'.toVm) (fun _ => False) ram := by
  suffices holds : Wp (Xv6.allocuvm layout d oldsz newsz) (fun result vm' =>
      (Supply layout (pagesBetween (pgroundup oldsz) newsz) ram.toVm → result = newsz) ∧
      ∀ {n}, Supply layout (n + pagesBetween (pgroundup oldsz) newsz) ram.toVm →
        Supply layout n vm') (fun _ => False) ram.toVm from
    (Ram.allocuvm_refines layout d oldsz newsz).wp holds
  refine wp_allocuvm space.sound space.isLive space.table
    (fun va above below small present => ?_) (fun large => ?_) (fun less _ => ?_)
    (fun vm₁ vm' high _ _ starved _ _ _ => ?_) fun vm' _ _ _ supply => ?_
  · simp [space.absent above small] at present
  · omega
  · omega
  · exact ⟨fun supply => absurd supply starved, fun supply =>
      absurd (supply.mono (by omega)) starved⟩
  · exact ⟨fun _ => rfl, supply⟩

theorem exists_addressSpace (layout : Layout) : ∃ live memory d,
    AddressSpace layout live memory d 0 ∧
      ∀ frame, VmSystem.firstFrame layout + 2 * setupPages ≤ frame →
        memory.owner frame = none := by
  obtain ⟨s, d, reachable, member, empty, free⟩ := VmSystem.exists_process layout
  have inv := VmSystem.Reachable.inv reachable
  exact ⟨s.Live, s.memory, d,
    ⟨inv.sound, .inr member, inv.table member, fun va below => by simp [empty va below]⟩, free⟩

/-- The kernel with the smallest image. -/
def smallLayout : Layout := ⟨0x101000, 0x101000, rfl, by decide, le_rfl, by decide⟩

theorem supply_frames {n : Nat} (free : ∀ frame, 1000 ≤ frame → ram.owner frame = none)
    (few : n ≤ 1000) :
    Supply smallLayout n { ram.toVm with answers := VmSystem.frames 1000 n } := by
  refine .range rfl fun frame low high => ⟨?_, free frame low⟩
  simp only [Layout.InPool, smallLayout, phystop, pgsize]
  omega

theorem exists_addressSpace_of_size (sz : Nat) (fits : sz ≤ usertop) :
    ∃ (live : Nat → Prop) (ram : Ram) (d : Nat), AddressSpace smallLayout live ram.toMemory d sz ∧
      ∀ frame, 1000 ≤ frame → ram.owner frame = none := by
  obtain ⟨live, memory, d, space, free⟩ := exists_addressSpace smallLayout
  have few : pagesBetween (pgroundup 0) sz ≤ 160 := by
    simp only [pagesBetween, pgroundup, pgsize, usertop] at *
    omega
  have pool : ∀ frame, 300 ≤ frame → frame < 460 → smallLayout.InPool frame := by
    intro frame low high
    simp only [Layout.InPool, smallLayout, phystop, pgsize]
    omega
  let ram : Ram := ⟨⟨memory, VmSystem.frames 300 160, []⟩, fun _ _ => 0, []⟩
  have supply : Supply smallLayout 160 ram.toVm := by
    refine .range rfl fun frame low high => ⟨pool frame low high, free frame ?_⟩
    simp only [VmSystem.firstFrame, smallLayout, setupPages, pgsize]
    omega
  have grows : Wp (allocuvm smallLayout d 0 sz) (fun result vm => result = sz ∧
      ∀ frame, 1000 ≤ frame → vm.owner frame = none) (fun _ => False) ram.toVm := by
    refine wp_allocuvm space.sound space.isLive space.table ?_ ?_ ?_ ?_ ?_
    · intro va from' _ below present
      simp [ram, space.absent from' below] at present
    · omega
    · omega
    · exact fun _ _ _ _ _ starved => absurd (supply.mono few) starved
    · refine fun vm _ _ grown _ => ⟨rfl, fun frame above => ?_⟩
      rw [Option.eq_none_iff_forall_not_mem]
      rintro use owned
      rcases grown.taken owned with old | answer
      · rw [free frame (by simp only [VmSystem.firstFrame, smallLayout, setupPages, pgsize]; omega)]
          at old
        cases old
      · simp only [ram, VmSystem.frames, List.mem_map, Option.some.injEq, exists_eq_right,
          List.mem_range'_1] at answer
        omega
  have exactly : Wp (Ram.allocuvm smallLayout d 0 sz) _ (fun _ => False) ram :=
    Ram.wp_allocuvm space (Nat.zero_le _) fits
  have both := ((Ram.allocuvm_refines smallLayout d 0 sz).wp grows).and exactly
  obtain ⟨result, ram', -, ⟨rfl, free'⟩, -, outcome⟩ :=
    (both.mono (fun _ _ => id) fun _ => And.left).ends
  refine ⟨live, ram', d, ?_, free'⟩
  rcases outcome with ⟨-, grew⟩ | ⟨rfl, restored⟩
  · exact space.grew (Nat.zero_le _) grew
  · exact space.restored restored

/-- For every address space and all sizes `oldsz ≤ newsz ≤ usertop`, wherever the memory runs
out: `allocuvm` ends, no result of `mappages` that it ignores is a failure, and it either
returns `newsz`, with exactly the pages up to `newsz` added, each in a frame of its own that
was free and is filled with zeros, or, which it does only if there are not enough free pages,
returns 0 with the mappings and the free frames as before.  After a success `deallocuvm`
restores both. -/
theorem allocuvm_accounts_for_frames {ram : Ram}
    (space : AddressSpace layout live ram.toMemory d oldsz) (order : oldsz ≤ newsz)
    (fits : newsz ≤ usertop) :
    ∃ result ram', (Ram.allocuvm layout d oldsz newsz).run ram = .ok (result, ram') ∧
      ram.Heeded ram' ∧
      (Supply layout (pagesBetween (pgroundup oldsz) newsz) ram.toVm → result = newsz) ∧
      ((result = newsz ∧
          Grew layout live d (pgroundup oldsz) newsz (fun _ _ => 0) ram ram' ∧
          (∀ va va', va < 2 ^ 32 → va' < 2 ^ 32 → InPages (pgroundup oldsz) newsz va →
            InPages (pgroundup oldsz) newsz va' →
            (ram'.entry d va).frame = (ram'.entry d va').frame → va / pgsize = va' / pgsize) ∧
          (∀ va, va < 2 ^ 32 → InPages (pgroundup oldsz) newsz va →
            layout.InPool (ram'.entry d va).frame) ∧
          AddressSpace layout live ram'.toMemory d newsz ∧
          ∃ size ram'', (Ram.lift (deallocuvm layout d newsz oldsz)).run ram' =
              .ok (size, ram'') ∧ Restored layout live ram ram'') ∨
        result = 0 ∧ Restored layout live ram ram') := by
  have exactly : Wp (Ram.allocuvm layout d oldsz newsz) _ (fun _ => False) ram :=
    Ram.wp_allocuvm space order fits
  obtain ⟨result, ram', ran, ⟨heeded, outcome⟩, enough, -⟩ :=
    ((exactly.and (space.wp_allocuvm_supply order fits)).mono (fun _ _ => id)
      fun _ => And.left).ends
  refine ⟨result, ram', ran, heeded, enough, outcome.imp_left ?_⟩
  rintro ⟨rfl, grew⟩
  have back : Wp (Ram.lift (deallocuvm layout d result oldsz))
      (fun _ ram'' => Restored layout live ram ram'') (fun _ => False) ram' := by
    rw [Ram.wp_lift]
    refine (wp_deallocuvm_exact grew.sound space.isLive fits).imp ?_
    rintro - vm ⟨-, shrank⟩
    refine grew.undone space.sound space.isLive ?_ le_rfl fits shrank
    exact fun va inside below => space.absent_inPages inside below
  refine ⟨rfl, grew, fun va va' small small' inside inside' same => ?_, fun va small inside => ?_,
    space.grew order grew, back.ends⟩
  · have owned := grew.owned small inside
    rw [same, grew.owned small' inside'] at owned
    simpa [eq_comm] using owned
  · exact grew.sound.pool (grew.owned small inside)

/-- A new process grows to 5000 bytes. -/
theorem allocuvm_accounts_first_growth : ∃ live ram d ram',
    AddressSpace smallLayout live ram.toMemory d 0 ∧
      (Ram.allocuvm smallLayout d 0 5000).run ram = .ok (5000, ram') ∧ ram.Heeded ram' := by
  obtain ⟨live, start, d, space, free⟩ := exists_addressSpace_of_size 0 (by decide)
  obtain ⟨result, ram', ran, heeded, enough, -⟩ :=
    allocuvm_accounts_for_frames (show AddressSpace smallLayout live
      ({ start with answers := VmSystem.frames 1000 2 } : Ram).toMemory d 0 from space)
      (Nat.zero_le 5000) (by decide)
  obtain rfl := enough (supply_frames free (by decide))
  exact ⟨live, { start with answers := VmSystem.frames 1000 2 }, d, ram', space, ran, heeded⟩

end Xv6
