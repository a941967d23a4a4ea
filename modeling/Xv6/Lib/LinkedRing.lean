import Xv6.Lib.Numerals

/-!
# Doubly linked rings

A ring of nodes linked in both directions through a head.  The nodes other than the head
are elements of a type, and `none` stands for the head, so that walking the links from the
head until it is reached again gives a list of elements.

A ring that holds a list is linked from each node to the next one, and back.  Putting a new
element in front and taking an element out keep a ring linked, and the two walks give the
list and its reverse.
-/

universe u

/-- The links of the nodes, in both directions. -/
structure LinkedRing (α : Type u) where
  next : Option α → Option α
  prev : Option α → Option α

namespace LinkedRing

open Function

variable {α : Type u}

/-- The elements met from a node on, until the head is reached or the fuel runs out. -/
def walk (link : Option α → Option α) : Nat → Option α → List α
  | 0, _ => []
  | fuel + 1, node =>
    match link node with
    | none => []
    | some element => element :: walk link fuel (some element)

/-! ## Operations -/

section Operations

variable [DecidableEq α]

/-- Link the head to itself. -/
def clear (ring : LinkedRing α) : LinkedRing α where
  next := Function.update ring.next none none
  prev := Function.update ring.prev none none

/-- Put an element in front. -/
def pushFront (ring : LinkedRing α) (element : α) : LinkedRing α where
  next := Function.update (Function.update ring.next (some element) (ring.next none)) none
    (some element)
  prev := Function.update (Function.update ring.prev (some element) none) (ring.next none)
    (some element)

/-- Link the neighbours of an element to each other. -/
def remove (ring : LinkedRing α) (element : α) : LinkedRing α where
  next := Function.update ring.next (ring.prev (some element)) (ring.next (some element))
  prev := Function.update ring.prev (ring.next (some element)) (ring.prev (some element))

end Operations

/-! ## Linked nodes -/

/-- From a node through a list of nodes to the last of them. -/
def Piece (next prev : Option α → Option α) : Option α → List (Option α) → Option α → Prop
  | first, [], last => first = last
  | first, node :: rest, last =>
    next first = node ∧ prev node = first ∧ Piece next prev node rest last

/-- The ring holds a list. -/
structure Holds (ring : LinkedRing α) (order : List α) : Prop where
  linked : Piece ring.next ring.prev none (order.map some ++ [none]) none
  nodup : order.Nodup

namespace Piece

variable {next prev : Option α → Option α} {first last node value : Option α}
  {nodes rest : List (Option α)}

theorem append_iff : Piece next prev first (nodes ++ rest) last ↔
    ∃ middle, Piece next prev first nodes middle ∧ Piece next prev middle rest last := by
  induction nodes generalizing first with
  | nil => simp [Piece]
  | cons node nodes ih => simp [Piece, ih, and_assoc]

theorem last_mem (piece : Piece next prev first nodes last) : last ∈ first :: nodes := by
  induction nodes generalizing first with
  | nil => simpa [Piece] using piece.symm
  | cons node nodes ih => exact List.mem_cons_of_mem _ (ih piece.2.2)

theorem reverse (piece : Piece next prev first (nodes ++ [last]) last) :
    Piece prev next last (nodes.reverse ++ [first]) first := by
  induction nodes generalizing first with
  | nil =>
    obtain ⟨forth, back, -⟩ := piece
    exact ⟨back, forth, rfl⟩
  | cons node nodes ih =>
    obtain ⟨forth, back, rest⟩ := piece
    rw [List.reverse_cons, append_iff]
    exact ⟨node, ih rest, back, forth, rfl⟩

variable [DecidableEq α]

/-- The link from the last node is not part of the piece. -/
theorem update_next (piece : Piece next prev first nodes last) (nodup : (first :: nodes).Nodup)
    (outside : node ∈ first :: nodes → node = last) :
    Piece (update next node value) prev first nodes last := by
  induction nodes generalizing first with
  | nil => exact piece
  | cons second nodes ih =>
    obtain ⟨forth, back, rest⟩ := piece
    obtain ⟨unseen, nodup⟩ := List.nodup_cons.mp nodup
    have different : first ≠ node := by
      rintro rfl
      rw [outside List.mem_cons_self] at unseen
      exact unseen rest.last_mem
    refine ⟨by rwa [update_of_ne different], back, ih rest nodup fun member => ?_⟩
    exact outside (List.mem_cons_of_mem _ member)

/-- Nor is the link back from the first one. -/
theorem update_prev (piece : Piece next prev first nodes last) (outside : node ∉ nodes) :
    Piece next (update prev node value) first nodes last := by
  induction nodes generalizing first with
  | nil => exact piece
  | cons second nodes ih =>
    obtain ⟨forth, back, rest⟩ := piece
    rw [List.mem_cons, not_or] at outside
    refine ⟨forth, ?_, ih rest outside.2⟩
    rwa [update_of_ne fun same => outside.1 same.symm]

end Piece

theorem walk_eq {next prev : Option α → Option α} {first : Option α} {order : List α} {fuel : Nat}
    (piece : Piece next prev first (order.map some ++ [none]) none) (enough : order.length < fuel) :
    walk next fuel first = order := by
  induction order generalizing first fuel with
  | nil =>
    obtain ⟨fuel, rfl⟩ := Nat.exists_eq_succ_of_ne_zero (Nat.ne_zero_of_lt enough)
    simp [walk, piece.1]
  | cons element order ih =>
    obtain ⟨fuel, rfl⟩ := Nat.exists_eq_succ_of_ne_zero (Nat.ne_zero_of_lt enough)
    have rest := ih piece.2.2 (Nat.lt_of_succ_lt_succ enough)
    have first : next first = some element := piece.1
    simp [walk, first, rest]

namespace Holds

variable {ring : LinkedRing α} {order : List α} {element : α} {fuel : Nat}

theorem walk_next (holds : ring.Holds order) (enough : order.length < fuel) :
    walk ring.next fuel none = order :=
  walk_eq holds.linked enough

theorem walk_prev (holds : ring.Holds order) (enough : order.length < fuel) :
    walk ring.prev fuel none = order.reverse := by
  have back := holds.linked.reverse
  rw [← List.map_reverse] at back
  exact walk_eq back (by simpa using enough)

theorem nodup_nodes (nodup : order.Nodup) : (order.map some ++ [none]).Nodup := by
  rw [List.nodup_append]
  simp [nodup.map (Option.some_injective α)]

variable [DecidableEq α]

theorem clear : ring.clear.Holds [] :=
  ⟨by simp [Piece, LinkedRing.clear], List.nodup_nil⟩

section
variable (holds : ring.Holds order)
include holds

theorem pushFront (fresh : element ∉ order) :
    (ring.pushFront element).Holds (element :: order) := by
  refine ⟨?_, List.nodup_cons.mpr ⟨fresh, holds.nodup⟩⟩
  have nodup := nodup_nodes holds.nodup
  have absent : some element ∉ order.map some ++ [none] := by simpa using fresh
  have linked := holds.linked
  -- The list with the head behind it is not empty; its first node is the old first one.
  cases nodes : order.map some ++ [none] with
  | nil => simp at nodes
  | cons node rest =>
    rw [nodes] at linked nodup absent
    obtain ⟨forth, -, tail⟩ := linked
    obtain ⟨unseen, -⟩ := List.nodup_cons.mp nodup
    obtain ⟨different, absentRest⟩ := not_or.mp (mt List.mem_cons.mpr absent)
    rw [List.map_cons, List.cons_append, nodes]
    simp only [LinkedRing.pushFront, forth]
    refine ⟨by simp, by simp [different], by simp, by simp, ?_⟩
    refine .update_prev (.update_prev ?_ absentRest) unseen
    refine .update_next (.update_next tail nodup ?_) nodup fun _ => rfl
    exact fun member => absurd member absent

theorem foldl_pushFront {elements : List α}
    (fresh : ∀ element ∈ elements, element ∉ order) (nodup : elements.Nodup) :
    (elements.foldl LinkedRing.pushFront ring).Holds (elements.reverse ++ order) := by
  induction elements generalizing ring order with
  | nil => exact holds
  | cons element elements ih =>
    obtain ⟨once, nodup⟩ := List.nodup_cons.mp nodup
    rw [List.foldl_cons, List.reverse_cons, List.append_assoc]
    refine ih (holds.pushFront (fresh element List.mem_cons_self)) (fun other member => ?_) nodup
    rw [List.singleton_append, List.mem_cons, not_or]
    refine ⟨?_, fresh other (List.mem_cons_of_mem _ member)⟩
    rintro rfl
    exact once member

theorem remove (member : element ∈ order) : (ring.remove element).Holds (order.erase element) := by
  refine ⟨?_, holds.nodup.erase element⟩
  obtain ⟨before, after, rfl⟩ := List.append_of_mem member
  obtain ⟨nodupBefore, nodupAfter, apart⟩ := List.nodup_append.mp holds.nodup
  have notBefore : element ∉ before := fun here => apart _ here _ List.mem_cons_self rfl
  have linked := holds.linked
  have nodup := nodup_nodes (List.nodup_cons.mp nodupAfter).2
  rw [List.erase_append_right _ notBefore, List.erase_cons_head, List.map_append,
    List.append_assoc]
  simp only [List.map_append, List.map_cons, List.append_assoc, List.cons_append] at linked
  obtain ⟨left, head, forth, back, tail⟩ := Piece.append_iff.mp linked
  cases nodes : after.map some ++ [none] with
  | nil => simp at nodes
  | cons right rest =>
    rw [nodes] at tail nodup
    obtain ⟨forth', -, tail⟩ := tail
    -- A node that is not the head is on one side only.
    have sides : ∀ node ∈ before.map some, node ∉ right :: rest := by
      intro node here there
      obtain ⟨other, inBefore, rfl⟩ := List.mem_map.mp here
      rw [← nodes] at there
      have inAfter : other ∈ after := by simpa using there
      exact apart _ inBefore _ (List.mem_cons_of_mem _ inAfter) rfl
    have outside : right ∉ before.map some := fun here => sides _ here List.mem_cons_self
    have ends : left ∈ right :: rest → left = none := fun there =>
      (List.mem_cons.mp head.last_mem).resolve_right fun here => sides _ here there
    simp only [LinkedRing.remove, back, forth']
    refine Piece.append_iff.mpr ⟨left, ?_, by simp, by simp, ?_⟩
    · refine .update_prev (.update_next head ?_ fun _ => rfl) outside
      simp [nodupBefore.map (Option.some_injective α)]
    · exact .update_prev (.update_next tail nodup ends) (List.nodup_cons.mp nodup).1

theorem moveFront (member : element ∈ order) :
    ((ring.remove element).pushFront element).Holds (element :: order.erase element) :=
  (holds.remove member).pushFront holds.nodup.not_mem_erase

end

end Holds

end LinkedRing
