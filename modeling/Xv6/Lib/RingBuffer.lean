import Xv6.Lib.Numerals

/-!
# Ring buffers with free-running counters

A ring buffer stores its elements in `capacity` cells and counts insertions and
removals in two counters that wrap at `modulus`.  The element with number `i`
lives in cell `i % capacity`.  The cells between the counters hold the contents;
the buffer is full when the counters are `capacity` apart.

The capacity divides the modulus, so that numbers and cells stay in step when a
counter wraps, and is less than it, so that full and empty can be told apart.
-/

namespace RingBuffer

open Function

universe u

variable {α : Type u} {modulus capacity : Nat} [NeZero modulus] [NeZero capacity]
  {head tail : Fin modulus}

/-- The cell of the element with a given number. -/
def cell (number : Fin modulus) : Fin capacity := Fin.ofNat capacity number.val

/-- The number of elements between two counters. -/
def count (head tail : Fin modulus) : Nat := (tail - head).val

/-- The elements between two counters, oldest first. -/
def contents (data : Fin capacity → α) (head tail : Fin modulus) : List α :=
  (List.range (count head tail)).map fun offset => data (cell (head + Fin.ofNat modulus offset))

@[simp] theorem count_self (head : Fin modulus) : count head head = 0 := by
  simp [count]

@[simp] theorem contents_self (data : Fin capacity → α) (head : Fin modulus) :
    contents data head head = [] := by
  simp [contents]

theorem count_eq_zero : count head tail = 0 ↔ head = tail := by
  rw [count, Fin.val_eq_zero_iff, sub_eq_zero]
  exact eq_comm

/-- The number behind the last element is the second counter. -/
theorem add_count (head tail : Fin modulus) :
    head + Fin.ofNat modulus (count head tail) = tail := by
  have back : Fin.ofNat modulus (tail - head).val = tail - head := by simp
  rw [count, back]
  exact add_sub_cancel head tail

theorem count_succ (room : count head tail + 1 < modulus) :
    count head (tail + 1) = count head tail + 1 := by
  have moved : tail + 1 - head = tail - head + 1 := by
    rw [sub_add_eq_add_sub]
  have one : (1 : Fin modulus).val = 1 := by
    rw [Fin.val_one', Nat.mod_eq_of_lt (by omega)]
  rw [count, moved, Fin.val_add, one, Nat.mod_eq_of_lt]
  · rfl
  · exact room

theorem count_pred (filled : head ≠ tail) : count (head + 1) tail + 1 = count head tail := by
  have positive : count head tail ≠ 0 := mt count_eq_zero.mp filled
  have bound : count head tail < modulus := (tail - head).isLt
  have moved : tail - (head + 1) = tail - head - 1 := sub_add_eq_sub_sub tail head 1
  have one : (1 : Fin modulus).val = 1 := by
    rw [Fin.val_one', Nat.mod_eq_of_lt (by omega)]
  have le : (1 : Fin modulus) ≤ tail - head := by
    rw [Fin.le_def, one]
    exact Nat.one_le_iff_ne_zero.mpr positive
  rw [count, moved, Fin.sub_val_of_le le, one]
  exact Nat.sub_add_cancel (Nat.one_le_iff_ne_zero.mpr positive)

omit [NeZero capacity] in
theorem full_iff (small : capacity < modulus) :
    tail = head + Fin.ofNat modulus capacity ↔ count head tail = capacity := by
  constructor
  · rintro rfl
    rw [count, add_sub_cancel_left]
    exact Nat.mod_eq_of_lt small
  · intro full
    rw [← full, add_count]

section Cells

variable (divides : capacity ∣ modulus)
include divides

theorem cell_add (head : Fin modulus) (offset : Nat) :
    (cell (head + Fin.ofNat modulus offset) : Fin capacity).val =
      (head.val + offset) % capacity := by
  simp [cell, Fin.val_add, Nat.mod_mod_of_dvd _ divides, Nat.add_mod]

/-- Two elements less than a capacity apart have different cells. -/
theorem cell_ne (head : Fin modulus) {first second : Nat} (before : first < second)
    (near : second < first + capacity) :
    (cell (head + Fin.ofNat modulus first) : Fin capacity) ≠
      cell (head + Fin.ofNat modulus second) := by
  intro same
  have equal := congrArg Fin.val same
  rw [cell_add divides, cell_add divides] at equal
  have congruent : Nat.ModEq capacity first second := Nat.ModEq.add_left_cancel' _ equal
  have := (Nat.modEq_iff_dvd' before.le).mp congruent
  have := Nat.le_of_dvd (by omega) this
  omega

theorem contents_insert (small : capacity < modulus) (data : Fin capacity → α)
    (room : count head tail < capacity) (element : α) :
    contents (update data (cell tail) element) head (tail + 1) =
      contents data head tail ++ [element] := by
  have longer : count head (tail + 1) = count head tail + 1 := count_succ (by omega)
  simp only [contents, longer, List.range_succ, List.map_append, List.map_cons, List.map_nil,
    add_count, update_self]
  congr 1
  apply List.map_congr_left
  intro offset member
  have before := List.mem_range.mp member
  apply update_of_ne
  have apart : (cell (head + Fin.ofNat modulus offset) : Fin capacity) ≠ _ :=
    cell_ne divides head before (by omega)
  rwa [add_count] at apart

omit divides in
theorem contents_remove (data : Fin capacity → α) (filled : head ≠ tail) :
    contents data head tail = data (cell head) :: contents data (head + 1) tail := by
  have next : ∀ offset, head + Fin.ofNat modulus (offset + 1) =
      head + 1 + Fin.ofNat modulus offset := by
    intro offset
    apply Fin.ext
    simp [Fin.val_add, Nat.add_assoc, Nat.add_comm 1]
  simp only [contents, ← count_pred filled, List.range_succ_eq_map, List.map_cons,
    List.map_map]
  congr 1
  · simp
  · apply List.map_congr_left
    intro offset _
    simp only [Function.comp_apply, Nat.succ_eq_add_one, next]

end Cells

end RingBuffer
