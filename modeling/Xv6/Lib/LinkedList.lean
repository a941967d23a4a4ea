import Xv6.Lib.Numerals

/-!
# Singly linked lists

A walk follows the links from a node through a list of nodes.  A circular list is a walk
that ends where it began; it can be started at any of its nodes.  `search` is the loop
that follows the links until a node meets a test.

A chain is a list whose last link is null.
-/

namespace LinkedList

universe u

variable {Node : Type u}

/-- From `first`, the links lead through the nodes of the list to `last`. -/
def Walk (next : Node → Node) : Node → List Node → Node → Prop
  | first, [], last => first = last
  | first, node :: rest, last => first = node ∧ Walk next (next node) rest last

variable {next next' : Node → Node} {first last node : Node} {left right nodes : List Node}

theorem walk_append : Walk next first (left ++ right) last ↔
    ∃ middle, Walk next first left middle ∧ Walk next middle right last := by
  induction left generalizing first with
  | nil => simp [Walk]
  | cons node rest ih => simp [Walk, ih, and_assoc]

theorem walk_snoc : Walk next first (left ++ [node]) last ↔
    Walk next first left node ∧ next node = last := by
  simp [walk_append, Walk]

theorem Walk.next_eq (walk : Walk next first (left ++ node :: right) last) :
    next node = right.headD last := by
  obtain ⟨middle, _, rfl, rest⟩ := walk_append.mp walk
  cases right with
  | nil => exact rest
  | cons node rest' => exact rest.1

theorem Walk.congr (walk : Walk next first nodes last)
    (same : ∀ node ∈ nodes, next' node = next node) : Walk next' first nodes last := by
  induction nodes generalizing first with
  | nil => exact walk
  | cons node rest ih =>
    refine ⟨walk.1, ?_⟩
    rw [same node (.head _)]
    exact ih walk.2 fun other member => same other (.tail _ member)

theorem Walk.update [DecidableEq Node] (walk : Walk next first nodes last)
    (absent : node ∉ nodes) (target : Node) :
    Walk (Function.update next node target) first nodes last :=
  walk.congr fun _ member => Function.update_of_ne (ne_of_mem_of_not_mem member absent) _ _

/-- A circular list, started at another of its nodes. -/
theorem Walk.rotate (walk : Walk next first (left ++ node :: right) first) :
    Walk next node (node :: right ++ left) node := by
  obtain ⟨middle, before, rfl, after⟩ := walk_append.mp walk
  exact walk_append.mpr ⟨first, ⟨rfl, after⟩, before⟩

/-! ## Searching -/

/-- Follow the links until a node meets a test. -/
def search (next : Node → Node) (test : Node → Bool) : Nat → Node → Option Node
  | 0, _ => none
  | fuel + 1, node => if test node then some node else search next test fuel (next node)

variable {test : Node → Bool} {fuel : Nat} {start : Node}

theorem search_mono {fuel more : Nat}
    (found : search next test fuel start = some node) (enough : fuel ≤ more) :
    search next test more start = some node := by
  induction fuel generalizing start more with
  | zero => simp [search] at found
  | succ fuel ih =>
    obtain ⟨more, rfl⟩ : ∃ rest, more = rest + 1 := ⟨more - 1, by omega⟩
    rw [search] at found ⊢
    split_ifs at found ⊢ with met
    · exact found
    · exact ih found (Nat.le_of_succ_le_succ enough)

/-- A search along a walk finds the first node of the walk that meets the test. -/
theorem search_walk (walk : Walk next first nodes last)
    (enough : nodes.length ≤ fuel) (met : ∃ node ∈ nodes, test node = true) :
    search next test fuel first = nodes.find? test := by
  induction nodes generalizing first fuel with
  | nil => simp at met
  | cons node rest ih =>
    obtain ⟨rfl, walk⟩ := walk
    cases fuel with
    | zero => simp at enough
    | succ fuel =>
      by_cases here : test first = true
      · simp [search, here]
      · rw [search, if_neg here, List.find?_cons_of_neg here]
        refine ih walk (Nat.le_of_succ_le_succ enough) ?_
        obtain ⟨other, member, holds⟩ := met
        rcases List.mem_cons.mp member with rfl | member
        · exact absurd holds here
        · exact ⟨other, member, holds⟩

/-- In a circular list a search from any node finds a node, if one meets the test. -/
theorem search_some (walk : Walk next first nodes first)
    (member : start ∈ nodes) (enough : nodes.length ≤ fuel)
    (met : ∃ node ∈ nodes, test node = true) :
    ∃ node ∈ nodes, search next test fuel start = some node ∧ test node = true := by
  obtain ⟨left, right, rfl⟩ := List.append_of_mem member
  have same : ∀ other, other ∈ start :: right ++ left ↔ other ∈ left ++ start :: right := by
    intro other
    simp only [List.mem_append, or_comm]
  obtain ⟨node, inside, holds⟩ := met
  have ran : search next test fuel start = _ := search_walk walk.rotate
    (by simpa [Nat.add_comm, Nat.add_left_comm, Nat.add_assoc] using enough)
    ⟨node, (same node).mpr inside, holds⟩
  cases found : (start :: right ++ left).find? test with
  | none => exact absurd holds (List.find?_eq_none.mp found node ((same node).mpr inside))
  | some other =>
    exact ⟨other, (same other).mp (List.mem_of_find?_eq_some found), ran.trans found,
      List.find?_some found⟩

/-- In a circular list a search from any node finds the only node that meets the test. -/
theorem search_unique (walk : Walk next first nodes first)
    (member : start ∈ nodes) (enough : nodes.length ≤ fuel) (inside : node ∈ nodes)
    (met : test node = true) (only : ∀ other ∈ nodes, test other = true → other = node) :
    search next test fuel start = some node := by
  obtain ⟨other, found, ran, holds⟩ := search_some walk member enough ⟨node, inside, met⟩
  rw [ran, only other found holds]

/-- A search once around a circular list, from its first node: it ends before the first
node again, or earlier at a node that meets the test. -/
theorem search_around [DecidableEq Node] (test : Node → Bool) (walk : Walk next first nodes first)
    (nodup : nodes.Nodup) (nonempty : nodes ≠ []) (enough : nodes.length ≤ fuel) :
    ∃ node ∈ nodes, search next (fun node => test node || next node == first) fuel first =
      some node ∧ ((∃ other ∈ nodes, test other = true) → test node = true) := by
  obtain ⟨init, final, rfl⟩ := (List.eq_nil_or_concat nodes).resolve_left nonempty
  rw [List.concat_eq_append] at *
  have ends : next final = first := (walk_snoc.mp walk).2
  have ran : search next (fun node => test node || next node == first) fuel first = _ :=
    search_walk walk enough ⟨final, by simp, by simp [ends]⟩
  rw [ran, List.find?_append]
  cases found : init.find? fun node => test node || next node == first with
  | some node =>
    have member := List.mem_of_find?_eq_some found
    refine ⟨node, by simp [member], rfl, fun _ => ?_⟩
    -- a node other than the last one is not linked to the first one
    obtain ⟨left, right, rfl⟩ := List.append_of_mem member
    have walk' : Walk next first (left ++ node :: (right ++ [final])) first := by
      simpa using walk
    have later : next node ∈ right ++ [final] := by
      rw [walk'.next_eq]
      cases right <;> simp
    have differs : next node ≠ first := by
      intro same
      rw [same] at later
      cases left with
      | nil =>
        obtain rfl : first = node := walk.1
        simp only [List.nil_append, List.cons_append, List.nodup_cons] at nodup
        exact nodup.1 later
      | cons head rest =>
        obtain rfl : first = head := walk.1
        simp only [List.cons_append, List.append_assoc, List.nodup_cons] at nodup
        exact nodup.1 (List.mem_append_right _ (.tail _ later))
    simpa [differs] using List.find?_some found
  | none =>
    refine ⟨final, by simp, by simp [ends], fun ⟨other, member, holds⟩ => ?_⟩
    rcases List.mem_append.mp member with early | last
    · exact absurd (List.find?_eq_none.mp found other early) (by simp [holds])
    · exact List.mem_singleton.mp last ▸ holds

/-! ## Chains -/

section Chain

variable {link link' : Node → Option Node} {head : Option Node}

/-- From `head`, the links lead through the nodes of the list to the null link. -/
def Chain (link : Node → Option Node) : Option Node → List Node → Prop
  | head, [] => head = none
  | head, node :: rest => head = some node ∧ Chain link (link node) rest

section
variable (chain : Chain link head nodes)
include chain

theorem Chain.head_eq : head = nodes.head? := by
  cases nodes with
  | nil => exact chain
  | cons node rest => exact chain.1

theorem Chain.congr (same : ∀ node ∈ nodes, link' node = link node) : Chain link' head nodes := by
  induction nodes generalizing head with
  | nil => exact chain
  | cons node rest ih =>
    refine ⟨chain.1, ?_⟩
    rw [same node (.head _)]
    exact ih chain.2 fun other member => same other (.tail _ member)

theorem Chain.update [DecidableEq Node] (absent : node ∉ nodes) (target : Option Node) :
    Chain (Function.update link node target) head nodes :=
  chain.congr fun _ member => Function.update_of_ne (ne_of_mem_of_not_mem member absent) _ _

end

/-- A node is appended by setting the null link of the last node. -/
theorem Chain.snoc [DecidableEq Node] (chain : Chain link head (left ++ [last]))
    (nodup : (left ++ [last]).Nodup) (absent : node ∉ left ++ [last]) (ends : link node = none) :
    Chain (Function.update link last (some node)) head (left ++ [last] ++ [node]) := by
  induction left generalizing head with
  | nil =>
    have other : node ≠ last := by simpa using absent
    exact ⟨chain.1, by simp, by simpa [Chain, Function.update_of_ne other] using ends⟩
  | cons first rest ih =>
    obtain ⟨outside, nodup⟩ := List.nodup_cons.mp nodup
    have other : first ≠ last := fun same => outside (by simp [same])
    refine ⟨chain.1, ?_⟩
    rw [Function.update_of_ne other]
    exact ih chain.2 nodup fun member => absent (.tail _ member)

end Chain

end LinkedList
