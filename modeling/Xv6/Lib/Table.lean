import Xv6.Lib.Numerals

/-!
# Scans of fixed-size tables

A table of `size` entries is a function on `Fin size`.  The two loops written
over such tables are the search for the first entry that meets a test and the
pass that runs a body on every entry in index order.
-/

namespace Table

universe u v

variable {size : Nat} {Entry : Type u} {State : Type v} {test : Fin size → Bool} {index : Fin size}

/-- The first index that meets a test, if there is one. -/
def find (test : Fin size → Bool) : Option (Fin size) :=
  (List.finRange size).find? test

theorem find_some (found : find test = some index) : test index = true :=
  List.find?_some found

theorem find_eq_none : find test = none ↔ ∀ index, test index = false := by
  simp [find]

theorem find_unique (met : test index = true) (only : ∀ other, test other = true → other = index) :
    find test = some index := by
  cases found : find test with
  | none => simp [find_eq_none.mp found index] at met
  | some other => rw [only other (find_some found)]

/-- Run a body on every index in order. -/
def loop (body : Fin size → State → State) (state : State) : State :=
  (List.finRange size).foldl (fun state index => body index state) state

/-- Replace one entry of a table. -/
def set (table : Fin size → Entry) (index : Fin size) (change : Entry → Entry) :
    Fin size → Entry :=
  fun other => if other = index then change (table other) else table other

@[simp] theorem set_self (table : Fin size → Entry) (index : Fin size)
    (change : Entry → Entry) : set table index change index = change (table index) := by
  simp [set]

theorem set_of_ne {table : Fin size → Entry} {index other : Fin size}
    {change : Entry → Entry} (different : other ≠ index) :
    set table index change other = table other := by
  simp [set, different]

private theorem foldl_set (change : Fin size → Entry → Entry)
    (indices : List (Fin size)) (nodup : indices.Nodup) (table : Fin size → Entry) :
    indices.foldl (fun table index => set table index (change index)) table =
      fun index => if index ∈ indices then change index (table index)
        else table index := by
  induction indices generalizing table with
  | nil => simp
  | cons head rest ih =>
    obtain ⟨fresh, restNodup⟩ := List.nodup_cons.mp nodup
    rw [List.foldl_cons, ih restNodup]
    funext index
    by_cases same : index = head
    · subst same
      simp [fresh]
    · simp [set_of_ne same, same]

/-- A loop whose body rewrites only the entry it visits, from that entry alone,
rewrites every entry independently. -/
theorem loop_set (change : Fin size → Entry → Entry) (table : Fin size → Entry) :
    loop (fun index table => set table index (change index)) table =
      fun index => change index (table index) := by
  rw [loop, foldl_set change _ (List.nodup_finRange size)]
  simp

end Table
