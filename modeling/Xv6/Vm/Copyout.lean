import Xv6.Vm.Accounts
import Xv6.Vm.Exec

/-!
# Writing to user memory

`copyout` with the bytes that it copies.  It goes from page to page and stops at the first
one that the user may not access, so that a failure can come after some of the bytes have
been written.
-/

namespace Xv6

open Program Function

namespace Ram

/-- Write bytes to a frame. -/
def write (ram : Ram) (frame offset : Nat) (bytes : List UInt8) : Ram :=
  { ram with byte := Function.update ram.byte frame fun j =>
      if offset ≤ j ∧ j < offset + bytes.length then bytes.getD (j - offset) 0
      else ram.byte frame j }

variable (layout : Layout)

/-- `copyout`, with the bytes that it copies. -/
def copyout (pgdir va : Nat) (source : List UInt8) : RamProgram Int := do
  if _more : source.length > 0 then
    let va0 := pgrounddown va
    let pa0 ← lift (uva2ka layout pgdir va0)
    if pa0 = 0 then pure (-1)
    else
      let n := min (pgsize - (va - va0)) source.length
      modify fun ram => ram.write pa0 (va - va0) (source.take n)
      copyout pgdir (toUint (va0 + pgsize)) (source.drop n)
  else pure 0
  termination_by source.length
  decreasing_by
    simp only [pgrounddown, pgsize, List.length_drop]
    omega

end Ram

/-- The bytes of a word, the lowest first. -/
def wordBytes (word : Nat) : List UInt8 :=
  (List.range 4).map fun i => UInt8.ofNat (word / 256 ^ i)

/-! ## What is written -/

variable {layout : Layout} {live : Nat → Prop} {d va : Nat} {ram ram' : Ram}
  {stops : Stop → Prop} {source : List UInt8} {memory : Memory} {bytes : List UInt8}
  {ram₁ : Ram} {post : Nat → Vm → Prop}

/-- The page of an address belongs to the user. -/
def Memory.UserPage (memory : Memory) (d va : Nat) : Prop :=
  (memory.entry d va).present = true ∧ (memory.entry d va).user = true

instance (memory : Memory) : Decidable (memory.UserPage d va) :=
  inferInstanceAs (Decidable (_ ∧ _))

theorem Sound.owner_of_userPage (sound : Sound layout live memory)
    (isLive : live d) (small : va < 2 ^ 32) (user : memory.UserPage d va) :
    va < usertop ∧ memory.owner (memory.entry d va).frame = some (.user d (va / pgsize)) := by
  rcases sound.entry isLive small with zero | ⟨-, allowed⟩
  · have present := user.1
    simp [zero] at present
  · unfold Pte.Allowed at allowed
    split_ifs at allowed with below
    · exact ⟨below, allowed.2⟩
    · simp [user.2] at allowed

theorem Sound.frame_ne_zero (sound : Sound layout live memory)
    (isLive : live d) (small : va < 2 ^ 32) (user : memory.UserPage d va) :
    (memory.entry d va).frame ≠ 0 := by
  have pool := sound.pool (sound.owner_of_userPage isLive small user).2
  have low := layout.text
  have ordered := layout.ordered
  have end_le := pool.1
  intro zero
  rw [zero] at end_le
  omega

theorem PDX_of_lt (low : va < 2 ^ 22) : PDX va = 0 := by
  apply Fin.ext
  simp only [PDX, nptentries, Fin.val_zero]
  omega

theorem AddressSpace.userPage_iff {sz : Nat}
    (space : AddressSpace layout live memory d sz) (fits : sz ≤ usertop) (small : va < 2 ^ 32) :
    memory.UserPage d va ↔ va / pgsize * pgsize < sz := by
  constructor
  · intro user
    have below := (space.sound.owner_of_userPage space.isLive small user).1
    exact (space.covers va below).mp user.1
  · intro inside
    have below : va < usertop := by
      simp only [usertop, pgsize] at *
      omega
    have present := (space.covers va below).mpr inside
    refine ⟨present, ?_⟩
    rcases space.sound.entry space.isLive small with zero | ⟨-, allowed⟩
    · simp [zero] at present
    · rw [Pte.Allowed, if_pos below] at allowed
      exact allowed.1

theorem Sound.userPage_inj (sound : Sound layout live memory) (isLive : live d)
    {va' : Nat} (small : va < 2 ^ 32) (small' : va' < 2 ^ 32) (user : memory.UserPage d va)
    (user' : memory.UserPage d va')
    (same : (memory.entry d va).frame = (memory.entry d va').frame) :
    va / pgsize = va' / pgsize := by
  have owned := (sound.owner_of_userPage isLive small user).2
  rw [same, (sound.owner_of_userPage isLive small' user').2] at owned
  simpa [eq_comm] using owned

theorem wp_uva2ka_table {vm : Vm} (table : (vm.page d (PDX va)).present = true)
    : Wp (uva2ka layout d va) post stops vm ↔
      post (if vm.UserPage d va then (vm.entry d va).frame else 0) vm := by
  have place : vm.page (vm.page d (PDX va)).frame (PTX va) = vm.entry d va := by
    rw [Memory.entry, if_pos table]
  simp only [uva2ka, wp_bind, wp_walkpgdir, if_pos table, wp_get, place]
  by_cases present : (vm.entry d va).present = true
  · by_cases user : (vm.entry d va).user = true
    · simp [Memory.UserPage, present, user]
    · simp [Memory.UserPage, present, user]
  · simp [Memory.UserPage, present]

theorem wp_uva2ka_start {vm : Vm} (small : va < 2 ^ 32)
    (table : (vm.page d (PDX va)).present = true) :
    Wp (uva2ka layout d (pgrounddown va)) post stops vm ↔
      post (if vm.UserPage d va then (vm.entry d va).frame else 0) vm := by
  have down : pgrounddown va < 2 ^ 32 := lt_of_le_of_lt (Nat.div_mul_le_self ..) small
  have same : pgrounddown va / pgsize = va / pgsize := by
    simp only [pgrounddown, pgsize]
    omega
  have directory := ((page_eq_iff down small).2 same).1
  have entry := vm.entry_congr d down small same
  have user : vm.UserPage d (pgrounddown va) ↔ vm.UserPage d va := by
    rw [Memory.UserPage, entry, ← Memory.UserPage]
  rw [wp_uva2ka_table (by rwa [directory])]
  simp only [user, entry]

/-- Only bytes at the `len` addresses from `va` on have changed. -/
structure Wrote (d va len : Nat) (ram ram' : Ram) : Prop where
  vm : ram'.toVm = ram.toVm
  ignored : ram'.ignored = ram.ignored
  outside : ∀ {frame j}, (∀ a, va ≤ a → a < va + len →
    ¬((ram.entry d a).frame = frame ∧ a % pgsize = j)) → ram'.byte frame j = ram.byte frame j

/-- All the pages of a range are user pages. -/
def Memory.UserRange (memory : Memory) (d va len : Nat) : Prop :=
  ∀ a, va ≤ a → a < va + len → memory.UserPage d a

/-- The bytes of a range are those of a list. -/
def Ram.Holds (ram : Ram) (d va : Nat) (source : List UInt8) : Prop :=
  ∀ a, va ≤ a → a < va + source.length →
    ram.byte (ram.entry d a).frame (a % pgsize) = source.getD (a - va) 0

theorem Wrote.refl (d va len : Nat) (ram : Ram) : Wrote d va len ram ram :=
  ⟨rfl, rfl, fun _ => rfl⟩

theorem Ram.wrote_write (inPage : va % pgsize + bytes.length ≤ pgsize)
    (small : va < 2 ^ 32) : Wrote d va bytes.length ram
      (ram.write (ram.entry d va).frame (va % pgsize) bytes) := by
  refine ⟨rfl, rfl, fun {frame j} apart => ?_⟩
  by_cases here : frame = (ram.entry d va).frame
  · subst here
    simp only [Ram.write, update_self, ite_eq_right_iff]
    rintro ⟨low, high⟩
    -- The address that has this byte is in the range.
    refine absurd ⟨?_, ?_⟩ (apart (va + (j - va % pgsize)) (by omega) (by omega))
    · have page : (va + (j - va % pgsize)) / pgsize = va / pgsize := by
        simp only [pgsize] at *
        omega
      have small' : va + (j - va % pgsize) < 2 ^ 32 := by
        simp only [pgsize] at *
        omega
      rw [Memory.entry_congr ram.toMemory d small' small page]
    · simp only [pgsize] at *
      omega
  · simp [Ram.write, update_of_ne here]

theorem Ram.holds_write (inPage : va % pgsize + bytes.length ≤ pgsize) (small : va < 2 ^ 32) :
    (ram.write (ram.entry d va).frame (va % pgsize) bytes).Holds d va bytes := by
  intro a low high
  have page : a / pgsize = va / pgsize := by
    simp only [pgsize] at *
    omega
  have small' : a < 2 ^ 32 := by
    simp only [pgsize] at *
    omega
  have offset : a % pgsize = va % pgsize + (a - va) := by
    simp only [pgsize] at *
    omega
  have same : (ram.entry d a).frame = (ram.entry d va).frame := by
    rw [Memory.entry_congr ram.toMemory d small' small page]
  have inside : va % pgsize ≤ a % pgsize ∧ a % pgsize < va % pgsize + bytes.length := by omega
  change update ram.byte _ _ (ram.entry d a).frame (a % pgsize) = _
  rw [same, update_self, if_pos inside]
  congr 1
  omega

theorem Wrote.trans {n len : Nat} (first : Wrote d va n ram ram₁)
    (rest : Wrote d (va + n) (len - n) ram₁ ram') (part : n ≤ len) : Wrote d va len ram ram' where
  vm := rest.vm.trans first.vm
  ignored := rest.ignored.trans first.ignored
  outside := by
    intro frame j apart
    have entries : ∀ a, ram₁.entry d a = ram.entry d a := fun a => by rw [first.vm]
    rw [rest.outside fun a low high => ?_, first.outside fun a low high => ?_]
    · exact apart a low (by omega)
    · rw [entries]
      exact apart a (by omega) (by omega)

theorem Wrote.holds {va' len : Nat} (sound : Sound layout live ram.toMemory) (isLive : live d)
    (wrote : Wrote d va' len ram ram₁) (holds : ram.Holds d va bytes)
    (user : ram.UserRange d va bytes.length) (user' : ram.UserRange d va' len)
    (top : va + bytes.length ≤ 2 ^ 32) (top' : va' + len ≤ 2 ^ 32)
    (apart : va + bytes.length ≤ va' ∨ va' + len ≤ va) : ram₁.Holds d va bytes := by
  intro a low high
  rw [show ram₁.entry d a = ram.entry d a by rw [wrote.vm], wrote.outside]
  · exact holds a low high
  · rintro b low' high' ⟨frame, offset⟩
    have page := sound.userPage_inj isLive (by omega) (by omega) (user' b low' high')
      (user a low high) frame
    have : b = a := by
      rw [← Nat.div_add_mod b pgsize, ← Nat.div_add_mod a pgsize, page, offset]
    omega

theorem Ram.Holds.append {n : Nat} (first : ram.Holds d va (source.take n))
    (rest : ram.Holds d (va + n) (source.drop n)) : ram.Holds d va source := by
  intro a low high
  simp only [Ram.Holds, List.length_take, List.length_drop] at first rest
  by_cases below : a < va + n
  · rw [first a low (by omega), List.getD_eq_getElem?_getD, List.getD_eq_getElem?_getD,
      List.getElem?_take_of_lt (by omega)]
  · rw [rest a (by omega) (by omega), List.getD_eq_getElem?_getD,
      List.getD_eq_getElem?_getD, List.getElem?_drop]
    congr 2
    omega

theorem Wrote.mono {va' len len' : Nat} (wrote : Wrote d va len ram ram') (low : va' ≤ va)
    (high : va + len ≤ va' + len') : Wrote d va' len' ram ram' :=
  ⟨wrote.vm, wrote.ignored, fun apart => wrote.outside fun a from' below =>
    apart a (by omega) (by omega)⟩

/-- How `copyout` of `source` to `va` ends: it copies all of it, and returns 0, if the user
may access every page of the range, and returns -1 if not.  If it is refused the first page
it does nothing. -/
structure CopiedOut (d va : Nat) (source : List UInt8) (ram : Ram) (result : Int) (ram' : Ram) :
    Prop where
  wrote : Wrote d va source.length ram ram'
  outcome : result = 0 ∨ result = -1
  returns : result = 0 ↔ ram.UserRange d va source.length
  refused : 0 < source.length → ¬ram.UserPage d va → ram' = ram
  holds : result = 0 → ram'.Holds d va source

theorem CopiedOut.nil : CopiedOut d va [] ram 0 ram := by
  refine ⟨.refl .., .inl rfl, ?_, fun _ _ => rfl, fun _ a low high => ?_⟩
  · simp only [true_iff]
    intro a low high
    simp only [List.length_nil] at high
    omega
  · simp only [List.length_nil] at high
    omega

theorem CopiedOut.cons {n : Nat} {result : Int}
    (sound : Sound layout live ram.toMemory) (isLive : live d)
    (top : va + source.length ≤ 2 ^ 32) (part : n ≤ source.length) (positive : 0 < n)
    (user : ram.UserRange d va n) (first : Wrote d va n ram ram₁)
    (held : ram₁.Holds d va (source.take n))
    (rest : CopiedOut d (va + n) (source.drop n) ram₁ result ram') :
    CopiedOut d va source ram result ram' := by
  have length : (source.take n).length = n := by simp [part]
  have left : (source.drop n).length = source.length - n := List.length_drop
  have wrote := rest.wrote
  rw [left] at wrote
  have sound₁ : Sound layout live ram₁.toMemory := by rwa [first.vm]
  have pages : ∀ a, ram₁.UserPage d a ↔ ram.UserPage d a := fun a => by
    simp only [Memory.UserPage, first.vm]
  refine ⟨first.trans wrote part, rest.outcome, ?_, fun _ refused =>
    absurd (user va le_rfl (by omega)) refused, fun zero => ?_⟩
  · rw [rest.returns, left]
    constructor
    · intro later a low high
      by_cases below : a < va + n
      · exact user a low below
      · exact (pages a).1 (later a (by omega) (by omega))
    · intro all a low high
      exact (pages a).2 (all a (by omega) (by omega))
  · have user₁ : ram₁.UserRange d va (source.take n).length := by
      rw [length]
      exact fun a low high => (pages a).2 (user a low high)
    have kept := rest.wrote.holds sound₁ isLive held user₁ (rest.returns.1 zero) (by omega)
      (by omega) (by omega)
    exact kept.append (rest.holds zero)

theorem Ram.wp_copyout_refused (more : 0 < source.length)
    (small : va < 2 ^ 32) (table : (ram.page d (PDX va)).present = true)
    (refused : ¬ram.UserPage d va) {post : Int → Ram → Prop} :
    Wp (Ram.copyout layout d va source) post stops ram ↔ post (-1) ram := by
  rw [Ram.copyout, dif_pos more]
  simp only [wp_bind, Ram.wp_lift]
  rw [wp_uva2ka_start small table]
  simp [refused]

theorem Ram.wp_copyout (sound : Sound layout live ram.toMemory)
    (isLive : live d) (top : va + source.length ≤ 2 ^ 32)
    (tables : ∀ a, va ≤ a → a < va + source.length → (ram.page d (PDX a)).present = true) :
    Wp (Ram.copyout layout d va source) (CopiedOut d va source ram) stops ram := by
  induction left : source.length using Nat.strong_induction_on generalizing va source ram with
  | _ count ih =>
    subst left
    by_cases more : source.length > 0
    case neg =>
      have empty : source = [] := List.length_eq_zero_iff.1 (by omega)
      subst empty
      rw [Ram.copyout, dif_neg (by simp), wp_pure]
      exact .nil
    have small : va < 2 ^ 32 := by omega
    have table := tables va le_rfl (by omega)
    by_cases user : ram.UserPage d va
    case neg =>
      rw [Ram.wp_copyout_refused more small table user]
      refine ⟨.refl .., .inr rfl, ?_, fun _ _ => rfl, by simp⟩
      simp only [show (-1 : Int) ≠ 0 by decide, false_iff]
      exact fun all => user (all va le_rfl (by omega))
    have nonzero := sound.frame_ne_zero isLive small user
    have offset : va - pgrounddown va = va % pgsize := by
      simp only [pgrounddown, pgsize]
      omega
    rw [Ram.copyout, dif_pos more]
    simp only [wp_bind, Ram.wp_lift]
    rw [wp_uva2ka_start small table, if_pos user, if_neg nonzero, wp_bind, wp_modify, offset]
    set n := min (pgsize - va % pgsize) source.length with n_eq
    have part : n ≤ source.length := min_le_right ..
    have positive : 0 < n := by
      simp only [pgsize] at n_eq
      omega
    have length : (source.take n).length = n := by simp [part]
    have inPage : va % pgsize + (source.take n).length ≤ pgsize := by
      simp only [pgsize] at *
      omega
    set ram₁ := ram.write (ram.entry d va).frame (va % pgsize) (source.take n) with ram₁_eq
    have first : Wrote d va (source.take n).length ram ram₁ := Ram.wrote_write inPage small
    have held : ram₁.Holds d va (source.take n) := Ram.holds_write inPage small
    rw [length] at first
    have users : ram.UserRange d va n := by
      intro a low high
      have same : a / pgsize = va / pgsize := by
        simp only [pgsize] at *
        omega
      rwa [Memory.UserPage, ram.entry_congr d (by omega) small same, ← Memory.UserPage]
    by_cases last : n = source.length
    · -- There is no rest, whatever the next address is.
      have empty : source.drop n = [] := by simp [last]
      rw [empty, Ram.copyout, dif_neg (by simp), wp_pure]
      refine CopiedOut.cons sound isLive top part positive users first held ?_
      rw [empty]
      exact .nil
    · have next : toUint (pgrounddown va + pgsize) = va + n := by
        simp only [toUint, pgrounddown, pgsize] at *
        omega
      have left : (source.drop n).length = source.length - n := List.length_drop
      have sound₁ : Sound layout live ram₁.toMemory := sound
      rw [next]
      refine (ih _ (by simp only [pgsize] at *; omega) sound₁ (by omega) ?_ rfl).mono
        (fun _ _ => CopiedOut.cons sound isLive top part positive users first held) fun _ => id
      exact fun a low high => tables a (by omega) (by omega)

end Xv6
