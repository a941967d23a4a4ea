import Xv6.Lib.Numerals

/-!
# Counting the holders of a key

The entries of a finite table hold one key each, or nothing.  A key's count is the
number of entries that hold it, and a change of one entry moves the counts of the key
it gives up and of the key it takes.
-/

namespace Holders

open Function

universe u v

variable {Index : Type u} {Key : Type v} [Fintype Index] [DecidableEq Key]

/-- The number of entries that hold a key. -/
def count (table : Index → Option Key) (key : Key) : Nat :=
  (Finset.univ.filter fun index => table index = some key).card

variable {table : Index → Option Key} {index : Index} {key other : Key}

theorem count_pos (held : table index = some key) : 0 < count table key :=
  Finset.card_pos.mpr ⟨index, by simpa using held⟩

theorem count_eq_zero : count table key = 0 ↔ ∀ index, table index ≠ some key := by
  simp [count, Finset.filter_eq_empty_iff]

theorem count_eq_sum : count table key = ∑ index, if table index = some key then 1 else 0 :=
  Finset.card_filter _ _

variable [DecidableEq Index]

theorem sum_update (amount : Index → Nat) (index : Index) (value : Nat) :
    ∑ other, update amount index value other + amount index =
      ∑ other, amount other + value := by
  have whole := Finset.sum_eq_add_sum_sdiff_singleton_of_mem (Finset.mem_univ index) amount
  rw [Finset.sum_update_of_mem (Finset.mem_univ index), whole]
  omega

theorem add_le_sum (amount : Index → Nat) {first second : Index} (differ : first ≠ second) :
    amount first + amount second ≤ ∑ index, amount index := by
  rw [← Finset.sum_pair differ]
  exact Finset.sum_le_sum_of_subset (Finset.subset_univ _)

theorem count_update (table : Index → Option Key) (index : Index) (value : Option Key) (key : Key) :
    count (update table index value) key + (if table index = some key then 1 else 0) =
      count table key + (if value = some key then 1 else 0) := by
  have moved := sum_update (fun entry => if table entry = some key then 1 else 0) index
    (if value = some key then 1 else 0)
  have pointwise : update (fun entry => if table entry = some key then 1 else 0) index
      (if value = some key then 1 else 0) =
        fun entry => if update table index value entry = some key then 1 else 0 := by
    funext entry
    by_cases here : entry = index
    · subst here
      simp
    · simp [update_of_ne here]
  rw [pointwise] at moved
  rwa [count_eq_sum, count_eq_sum]

theorem count_take (empty : table index = none) :
    count (update table index (some key)) =
      update (count table) key (count table key + 1) := by
  funext other
  have moved := count_update table index (some key) other
  rw [if_neg (by simp [empty])] at moved
  by_cases same : other = key
  · subst same
    simpa using moved
  · rw [if_neg (by simpa using Ne.symm same)] at moved
    simpa [update_of_ne same] using moved

theorem count_drop (held : table index = some key) :
    count (update table index none) =
      update (count table) key (count table key - 1) := by
  funext other
  have moved := count_update table index none other
  by_cases same : other = key
  · subst same
    simp [held] at moved
    simp
    omega
  · have differs : table index ≠ some other := by
      rw [held]
      simpa using Ne.symm same
    simpa [differs, update_of_ne same] using moved

end Holders
