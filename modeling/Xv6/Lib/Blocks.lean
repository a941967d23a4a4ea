import Xv6.Lib.Numerals

/-!
# Free lists of memory blocks

Blocks of memory are intervals of addresses.  A free list keeps its blocks apart: in
increasing order, with at least one address between two of them.  A block is put back
with `insert`, which joins it to the blocks it touches.

How often an address is covered is additive: putting a block back adds its addresses,
and cutting a block into two moves addresses from one list to another.  So a division of
memory into blocks is stated by counting.
-/

/-- The addresses from `start` up to `start + len`. -/
structure Block where
  start : Nat
  len : Nat
  deriving DecidableEq

namespace Block

def stop (b : Block) : Nat := b.start + b.len

/-- One if the block covers the address. -/
def at_ (b : Block) (x : Nat) : Nat := if b.start ≤ x ∧ x < b.stop then 1 else 0

/-- How many blocks of a list cover an address. -/
def count (blocks : List Block) (x : Nat) : Nat := (blocks.map fun b => b.at_ x).sum

@[simp] theorem count_nil (x : Nat) : count [] x = 0 := rfl

@[simp] theorem count_cons (b : Block) (blocks : List Block) (x : Nat) :
    count (b :: blocks) x = b.at_ x + count blocks x := by
  simp [count]

@[simp] theorem count_append (left right : List Block) (x : Nat) :
    count (left ++ right) x = count left x + count right x := by
  simp [count]

theorem at_le_count {b : Block} {blocks : List Block} (member : b ∈ blocks) (x : Nat) :
    b.at_ x ≤ count blocks x := by
  induction blocks with
  | nil => simp at member
  | cons c rest ih =>
    rw [count_cons]
    rcases List.mem_cons.mp member with rfl | later
    · exact Nat.le_add_right _ _
    · exact Nat.le_trans (ih later) (Nat.le_add_left _ _)

theorem exists_of_count {blocks : List Block} {x : Nat} (covered : 0 < count blocks x) :
    ∃ b ∈ blocks, b.start ≤ x ∧ x < b.stop := by
  induction blocks with
  | nil => simp at covered
  | cons c rest ih =>
    by_cases here : c.start ≤ x ∧ x < c.stop
    · exact ⟨c, .head _, here⟩
    · rw [count_cons, at_, if_neg here, Nat.zero_add] at covered
      obtain ⟨b, member, inside⟩ := ih covered
      exact ⟨b, .tail _ member, inside⟩

theorem count_erase {b : Block} {blocks : List Block} (member : b ∈ blocks) (x : Nat) :
    count (blocks.erase b) x + b.at_ x = count blocks x := by
  induction blocks with
  | nil => simp at member
  | cons c rest ih =>
    by_cases same : c = b
    · subst same
      simp
      omega
    · have later : b ∈ rest := (List.mem_cons.mp member).resolve_left (Ne.symm same)
      rw [List.erase_cons_tail (by simpa using same), count_cons, count_cons, ← ih later]
      omega

theorem at_of_mem {b : Block} {x : Nat} (low : b.start ≤ x) (high : x < b.stop) : b.at_ x = 1 :=
  if_pos ⟨low, high⟩

theorem at_start {b : Block} (positive : 0 < b.len) : b.at_ b.start = 1 :=
  at_of_mem (Nat.le_refl _) (Nat.lt_add_of_pos_right positive)

theorem apart_of_count {b c : Block} (first : 0 < b.len) (second : 0 < c.len)
    (once : ∀ x, b.at_ x + c.at_ x ≤ 1) : c.stop ≤ b.start ∨ b.stop ≤ c.start := by
  rw [stop, stop]
  by_contra overlap
  rcases Nat.le_total b.start c.start with before | after
  · have := once c.start
    rw [at_of_mem before (by rw [stop]; omega), at_start second] at this
    omega
  · have := once b.start
    rw [at_start first, at_of_mem after (by rw [stop]; omega)] at this
    omega

/-! ## Putting a block back -/

/-- The blocks are in increasing order and do not touch. -/
def Apart (blocks : List Block) : Prop := blocks.Pairwise fun b c => b.stop < c.start

/-- A block in front of a list, joined to the first block if they touch. -/
def absorb (b : Block) : List Block → List Block
  | [] => [b]
  | c :: rest => if b.stop = c.start then ⟨b.start, b.len + c.len⟩ :: rest else b :: c :: rest

/-- A block at its place in a list, joined to the blocks that it touches. -/
def insert (b : Block) : List Block → List Block
  | [] => [b]
  | c :: rest =>
    if c.start < b.start then
      if c.stop = b.start then absorb ⟨c.start, c.len + b.len⟩ rest else c :: insert b rest
    else absorb b (c :: rest)

theorem at_join {b c : Block} (touch : b.stop = c.start) (x : Nat) :
    (⟨b.start, b.len + c.len⟩ : Block).at_ x = b.at_ x + c.at_ x := by
  unfold at_ stop at *
  dsimp only
  by_cases low : b.start ≤ x <;> by_cases middle : x < c.start <;>
    by_cases high : x < c.start + c.len <;> split_ifs <;> omega

theorem count_absorb (b : Block) (blocks : List Block) (x : Nat) :
    count (absorb b blocks) x = b.at_ x + count blocks x := by
  cases blocks with
  | nil => simp [absorb]
  | cons c rest =>
    simp only [absorb]
    split_ifs with touch
    · rw [count_cons, count_cons, at_join touch]
      omega
    · simp

theorem count_insert (b : Block) (blocks : List Block) (x : Nat) :
    count (insert b blocks) x = b.at_ x + count blocks x := by
  induction blocks with
  | nil => simp [insert]
  | cons c rest ih =>
    simp only [insert]
    split_ifs with before touch
    · rw [count_absorb, at_join touch, count_cons]
      omega
    · rw [count_cons, ih, count_cons]
      omega
    · exact count_absorb b (c :: rest) x

theorem apart_absorb {b : Block} {blocks : List Block} (apart : Apart blocks)
    (room : ∀ c ∈ blocks, b.stop ≤ c.start) : Apart (absorb b blocks) := by
  cases blocks with
  | nil => simp [absorb, Apart]
  | cons c rest =>
    obtain ⟨first, others⟩ := List.pairwise_cons.mp apart
    simp only [absorb]
    split_ifs with touch
    · refine List.pairwise_cons.mpr ⟨fun d later => ?_, others⟩
      have := first d later
      simp only [stop] at this touch ⊢
      omega
    · have before : b.stop < c.start := Nat.lt_of_le_of_ne (room c (.head _)) touch
      refine List.pairwise_cons.mpr ⟨fun d later => ?_, apart⟩
      rcases List.mem_cons.mp later with rfl | later
      · exact before
      · have := first d later
        simp only [stop] at this before ⊢
        omega

/-- Every block of the result starts and ends where a block did before. -/
theorem start_mem_absorb {b d : Block} {blocks : List Block} (member : d ∈ absorb b blocks) :
    d.start = b.start ∨ ∃ c ∈ blocks, d.start = c.start := by
  cases blocks with
  | nil =>
    rw [absorb, List.mem_singleton] at member
    exact .inl (member ▸ rfl)
  | cons c rest =>
    simp only [absorb] at member
    split_ifs at member
    · rcases List.mem_cons.mp member with rfl | later
      · exact .inl rfl
      · exact .inr ⟨d, .tail _ later, rfl⟩
    · rcases List.mem_cons.mp member with rfl | later
      · exact .inl rfl
      · exact .inr ⟨d, later, rfl⟩

theorem start_mem_insert {b d : Block} {blocks : List Block} (member : d ∈ insert b blocks) :
    d.start = b.start ∨ ∃ c ∈ blocks, d.start = c.start := by
  induction blocks with
  | nil =>
    rw [insert, List.mem_singleton] at member
    exact .inl (member ▸ rfl)
  | cons c rest ih =>
    simp only [insert] at member
    split_ifs at member
    · rcases start_mem_absorb member with first | ⟨e, later, same⟩
      · exact .inr ⟨c, .head _, first⟩
      · exact .inr ⟨e, .tail _ later, same⟩
    · rcases List.mem_cons.mp member with rfl | later
      · exact .inr ⟨d, .head _, rfl⟩
      · rcases ih later with first | ⟨e, later, same⟩
        · exact .inl first
        · exact .inr ⟨e, .tail _ later, same⟩
    · exact start_mem_absorb member

section
variable (b : Block) (blocks : List Block)
include b blocks

theorem length_absorb : (absorb b blocks).length ≤ blocks.length + 1 := by
  cases blocks with
  | nil => simp [absorb]
  | cons c rest =>
    simp only [absorb]
    split_ifs <;> simp

theorem length_insert : (insert b blocks).length ≤ blocks.length + 1 := by
  induction blocks with
  | nil => simp [insert]
  | cons c rest ih =>
    simp only [insert]
    split_ifs
    · exact Nat.le_succ_of_le (length_absorb _ rest)
    · simpa using ih
    · exact length_absorb b (c :: rest)

/-- A block that is put back is part of a block of the list. -/
theorem exists_absorb : ∃ c ∈ absorb b blocks, b.len ≤ c.len := by
  cases blocks with
  | nil => exact ⟨b, by simp [absorb], Nat.le_refl _⟩
  | cons c rest =>
    simp only [absorb]
    split_ifs
    · exact ⟨_, .head _, Nat.le_add_right _ _⟩
    · exact ⟨b, .head _, Nat.le_refl _⟩

theorem exists_insert : ∃ c ∈ insert b blocks, b.len ≤ c.len := by
  induction blocks with
  | nil => exact ⟨b, by simp [insert], Nat.le_refl _⟩
  | cons c rest ih =>
    simp only [insert]
    split_ifs
    · obtain ⟨d, member, large⟩ := exists_absorb ⟨c.start, c.len + b.len⟩ rest
      exact ⟨d, member, Nat.le_trans (Nat.le_add_left _ _) large⟩
    · obtain ⟨d, member, large⟩ := ih
      exact ⟨d, .tail _ member, large⟩
    · exact exists_absorb b (c :: rest)

end

theorem pos_absorb {b d : Block} {blocks : List Block} (positive : 0 < b.len)
    (positives : ∀ c ∈ blocks, 0 < c.len) (member : d ∈ absorb b blocks) : 0 < d.len := by
  cases blocks with
  | nil =>
    rw [absorb, List.mem_singleton] at member
    exact member ▸ positive
  | cons c rest =>
    simp only [absorb] at member
    split_ifs at member
    · rcases List.mem_cons.mp member with rfl | later
      · exact Nat.add_pos_left positive _
      · exact positives d (.tail _ later)
    · rcases List.mem_cons.mp member with rfl | later
      · exact positive
      · exact positives d later

theorem pos_insert {b d : Block} {blocks : List Block} (positive : 0 < b.len)
    (positives : ∀ c ∈ blocks, 0 < c.len) (member : d ∈ insert b blocks) : 0 < d.len := by
  induction blocks with
  | nil => exact pos_absorb positive positives member
  | cons c rest ih =>
    have others : ∀ e ∈ rest, 0 < e.len := fun e later => positives e (.tail _ later)
    simp only [insert] at member
    split_ifs at member
    · exact pos_absorb (Nat.add_pos_right _ positive) others member
    · rcases List.mem_cons.mp member with rfl | later
      · exact positives d (.head _)
      · exact ih others later
    · exact pos_absorb positive positives member

theorem apart_insert {b : Block} {blocks : List Block} (apart : Apart blocks)
    (positive : 0 < b.len) (positives : ∀ c ∈ blocks, 0 < c.len)
    (room : ∀ c ∈ blocks, c.stop ≤ b.start ∨ b.stop ≤ c.start) : Apart (insert b blocks) := by
  induction blocks with
  | nil => simp [insert, Apart]
  | cons c rest ih =>
    obtain ⟨first, others⟩ := List.pairwise_cons.mp apart
    have here := room c (.head _)
    have size := positives c (.head _)
    have later : ∀ d ∈ rest, d.stop ≤ b.start ∨ b.stop ≤ d.start := fun d member =>
      room d (.tail _ member)
    simp only [insert]
    split_ifs with before touch
    · refine apart_absorb others fun d member => ?_
      have after := first d member
      have room := later d member
      have := positives d (.tail _ member)
      simp only [stop] at after room touch ⊢
      omega
    · refine List.pairwise_cons.mpr ⟨fun d member => ?_,
        ih others (fun d member => positives d (.tail _ member)) later⟩
      rcases start_mem_insert member with new | ⟨e, old, same⟩
      · simp only [stop] at here touch ⊢
        omega
      · rw [same]
        exact first e old
    · refine apart_absorb apart fun d member => ?_
      rcases List.mem_cons.mp member with rfl | member
      · simp only [stop] at here ⊢
        omega
      · have := first d member
        simp only [stop] at here this ⊢
        omega

/-! ## Where a block is put -/

/-- Joining a block to the one before it commutes with joining it to the one after it. -/
theorem absorb_join {a b : Block} (touch : a.stop = b.start) (right : List Block) :
    ∃ len rest, absorb b right = ⟨b.start, len⟩ :: rest ∧
      absorb ⟨a.start, a.len + b.len⟩ right = ⟨a.start, a.len + len⟩ :: rest := by
  cases right with
  | nil => exact ⟨b.len, [], rfl, rfl⟩
  | cons c rest =>
    have same : (⟨a.start, a.len + b.len⟩ : Block).stop = b.stop := by
      simp only [stop] at touch ⊢
      omega
    by_cases next : b.stop = c.start
    · exact ⟨b.len + c.len, rest, by rw [absorb, if_pos next], by
        rw [absorb, same, if_pos next, Nat.add_assoc]⟩
    · exact ⟨b.len, c :: rest, by rw [absorb, if_neg next], by rw [absorb, same, if_neg next]⟩

theorem insert_skip {b : Block} {left right : List Block}
    (skips : ∀ c ∈ left, c.start < b.start ∧ c.stop ≠ b.start) :
    insert b (left ++ right) = left ++ insert b right := by
  induction left with
  | nil => rfl
  | cons c rest ih =>
    obtain ⟨before, gap⟩ := skips c (.head _)
    rw [List.cons_append, insert, if_pos before, if_neg gap,
      ih fun d member => skips d (.tail _ member), List.cons_append]

theorem insert_front {b : Block} {right : List Block}
    (after : ∀ c ∈ right, b.start ≤ c.start) : insert b right = absorb b right := by
  cases right with
  | nil => rfl
  | cons c rest => rw [insert, if_neg (Nat.not_lt.mpr (after c (.head _)))]

end Block
