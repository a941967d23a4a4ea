import Xv6.Lib.Blocks
import Xv6.User.Malloc

/-!
# The free list of the allocator

The headers stand for a list of blocks that are apart from each other, linked in a circle
through `base`.  `free` is `Block.insert` on that list, and `malloc` cuts a block off one
of its elements.
-/

namespace Xv6.Heap

open LinkedList Function

/-- The blocks of the free list, in increasing order. -/
structure Represents (base : Nat) (h : Heap) (blocks : List Block) : Prop where
  walk : Walk h.ptr base (base :: blocks.map Block.start) base
  size : ∀ b ∈ blocks, headerSize * h.size b.start = b.len
  baseSize : h.size base = 0
  apart : Block.Apart blocks
  above : ∀ b ∈ blocks, base < b.start
  positive : ∀ b ∈ blocks, 0 < b.len
  freep : h.freep ∈ base :: blocks.map Block.start

variable {base : Nat} {h : Heap} {blocks left right : List Block} {a b : Block}

/-! ## The order of the nodes -/

theorem Represents.sorted (rep : Represents base h blocks) :
    (base :: blocks.map Block.start).Pairwise (· < ·) := by
  rw [List.pairwise_cons, List.pairwise_map]
  constructor
  · intro node member
    obtain ⟨b, inside, rfl⟩ := List.mem_map.mp member
    exact rep.above b inside
  · refine rep.apart.imp fun {b c} before => ?_
    simp only [Block.stop] at before
    omega

theorem split_at (blocks : List Block) (apart : Block.Apart blocks) (x : Nat) :
    ∃ left right, blocks = left ++ right ∧ (∀ c ∈ left, c.start < x) ∧
      ∀ c ∈ right, x ≤ c.start := by
  induction blocks with
  | nil => exact ⟨[], [], rfl, by simp, by simp⟩
  | cons c rest ih =>
    obtain ⟨first, others⟩ := List.pairwise_cons.mp apart
    by_cases before : c.start < x
    · obtain ⟨left, right, rfl, lower, upper⟩ := ih others
      refine ⟨c :: left, right, rfl, fun d member => ?_, upper⟩
      rcases List.mem_cons.mp member with rfl | member
      · exact before
      · exact lower d member
    · refine ⟨[], c :: rest, rfl, by simp, fun d member => ?_⟩
      rcases List.mem_cons.mp member with rfl | member
      · omega
      · have := first d member
        simp only [Block.stop] at this
        omega

/-! ## The search of `free` -/

theorem place_iff {lower upper : List Nat} {p bp node : Nat}
    (walk : Walk h.ptr base (lower ++ p :: upper) base)
    (sorted : (lower ++ p :: upper).Pairwise (· < ·)) (first : base ≤ p)
    (before : p < bp) (after : ∀ node ∈ upper, bp < node)
    (member : node ∈ lower ++ p :: upper) : h.place bp node = true ↔ node = p := by
  obtain ⟨_, pSorted, cross⟩ := List.pairwise_append.mp sorted
  rcases List.mem_append.mp member with low | high
  · -- the next node is still before the block
    have below : node < p := cross node low p (.head _)
    obtain ⟨l1, l2, rfl⟩ := List.append_of_mem low
    have walk : Walk h.ptr base (l1 ++ node :: (l2 ++ p :: upper)) base := by simpa using walk
    have next := walk.next_eq
    have bounds : node < h.ptr node ∧ h.ptr node ≤ p := by
      cases l2 with
      | nil =>
        rw [next]
        exact ⟨below, Nat.le_refl _⟩
      | cons c rest =>
        have inside : c ∈ l1 ++ node :: c :: rest := by simp
        rw [next]
        refine ⟨?_, Nat.le_of_lt (cross c inside p (.head _))⟩
        simp only [List.append_assoc, List.cons_append, List.pairwise_append,
          List.pairwise_cons] at sorted
        exact sorted.2.1.1 c (.head _)
    simp only [place, Bool.or_eq_true, Bool.and_eq_true, decide_eq_true_eq]
    omega
  · rcases List.mem_cons.mp high with rfl | high
    · have next : h.ptr node = upper.headD base := walk.next_eq
      have bound : bp < h.ptr node ∨ h.ptr node ≤ node := by
        cases upper with
        | nil => exact .inr (next ▸ first)
        | cons c rest => exact .inl (next ▸ after c (.head _))
      simp only [place, Bool.or_eq_true, Bool.and_eq_true, decide_eq_true_eq, iff_true]
      omega
    · have beyond := after node high
      obtain ⟨l1, l2, rfl⟩ := List.append_of_mem high
      have walk : Walk h.ptr base ((lower ++ p :: l1) ++ node :: l2) base := by simpa using walk
      have next := walk.next_eq
      have bound : node < h.ptr node ∨ h.ptr node = base := by
        cases l2 with
        | nil => exact .inr next
        | cons c rest =>
          rw [next]
          simp only [List.pairwise_cons, List.pairwise_append] at pSorted
          exact .inl (pSorted.2.2.1.1 c (.head _))
      simp only [place, Bool.or_eq_true, Bool.and_eq_true, decide_eq_true_eq]
      omega

/-! ## `free` -/

/-- The first join puts the block in front of the blocks that follow. -/
structure Joined (base : Nat) (h h' : Heap) (b : Block) (right : List Block) : Prop where
  walk : Walk h'.ptr b.start ((b.absorb right).map Block.start) base
  size : ∀ c ∈ b.absorb right, headerSize * h'.size c.start = c.len
  ptr : ∀ node, node ≠ b.start → h'.ptr node = h.ptr node
  sizes : ∀ node, node ≠ b.start → h'.size node = h.size node

theorem joined_joinNext {p : Nat} (walk : Walk h.ptr (h.ptr p) (right.map Block.start) base)
    (sizes : ∀ c ∈ right, headerSize * h.size c.start = c.len)
    (size : headerSize * h.size b.start = b.len) (after : ∀ c ∈ right, b.start < c.start)
    (apart : Block.Apart right) (low : base < b.start)
    (exactly : ∀ node, node = base ∨ node ∈ right.map Block.start →
      (b.stop % 2 ^ 32 = node ↔ b.stop = node)) : Joined base h (h.joinNext b.start p) b right := by
  have stop : h.after b.start = b.stop % 2 ^ 32 := by rw [Heap.after, size, Block.stop]
  cases right with
  | nil =>
    have next : h.ptr p = base := walk
    have gap : h.after b.start ≠ h.ptr p := by
      rw [stop, next]
      intro same
      have := (exactly base (.inl rfl)).mp same
      simp only [Block.stop] at this
      omega
    rw [joinNext, if_neg gap]
    refine ⟨?_, ?_, ?_, fun _ _ => rfl⟩
    · simp [Block.absorb, Walk, setPtr, next]
    · simpa [Block.absorb, setPtr] using size
    · intro node differs
      exact update_of_ne differs _ _
  | cons c rest =>
    obtain ⟨next, more⟩ := walk
    have later := after c (.head _)
    have others : ∀ d ∈ rest, d.start ≠ b.start := fun d member =>
      (after d (.tail _ member)).ne'
    have absent : b.start ∉ rest.map Block.start := by
      intro member
      obtain ⟨d, inside, same⟩ := List.mem_map.mp member
      exact others d inside same
    have touch : h.after b.start = h.ptr p ↔ b.stop = c.start := by
      rw [stop, next]
      exact exactly c.start (.inr (by simp))
    by_cases touching : b.stop = c.start
    · rw [joinNext, if_pos (touch.mpr touching)]
      refine ⟨?_, ?_, ?_, ?_⟩
      · simp only [Block.absorb, if_pos touching, List.map_cons, setPtr, setSize, Walk,
          update_self, true_and, next]
        exact Walk.update more absent _
      · intro d member
        simp only [Block.absorb, if_pos touching, List.mem_cons] at member
        rcases member with rfl | member
        · simp only [setPtr, setSize, update_self, next, Nat.mul_add, size,
            sizes c (.head _)]
        · simp only [setPtr, setSize, update_of_ne (others d member)]
          exact sizes d (.tail _ member)
      · intro node differs
        exact update_of_ne differs _ _
      · intro node differs
        exact update_of_ne differs _ _
    · rw [joinNext, if_neg (mt touch.mp touching)]
      refine ⟨?_, ?_, ?_, fun _ _ => rfl⟩
      · simp only [Block.absorb, if_neg touching, List.map_cons, setPtr, Walk,
          update_self, true_and, next]
        rw [update_of_ne later.ne']
        exact Walk.update more absent _
      · intro d member
        simp only [Block.absorb, if_neg touching, List.mem_cons] at member
        rcases member with rfl | rfl | member
        · exact size
        · exact sizes d (.head _)
        · exact sizes d (.tail _ member)
      · intro node differs
        exact update_of_ne differs _ _

/-- What `free` needs to know about the block. -/
structure Fits (base : Nat) (h : Heap) (blocks : List Block) (b : Block) : Prop where
  size : headerSize * h.size b.start = b.len
  positive : 0 < b.len
  above : base < b.start
  room : ∀ c ∈ blocks, c.stop ≤ b.start ∨ b.stop ≤ c.start
  small : b.start < 2 ^ 32
  /-- The end of the block is not mistaken for another address. -/
  exactly : ∀ node ∈ base :: blocks.map Block.start, b.stop % 2 ^ 32 = node ↔ b.stop = node

/-- What `free` does to the list. -/
structure Freed (base : Nat) (h h' : Heap) (blocks : List Block) (b : Block) : Prop where
  rep : Represents base h' (b.insert blocks)
  sizes : ∀ node, node ≠ b.start → node ∉ blocks.map Block.start → h'.size node = h.size node

theorem Freed.of_first (rep : Represents base h blocks) (fits : Fits base h blocks b)
    (after : ∀ c ∈ blocks, b.start < c.start) (small : base < 2 ^ 32) :
    Freed base h (h.link b.start base) blocks b := by
  obtain ⟨_, walk⟩ := rep.walk
  have joined := joined_joinNext (p := base) walk rep.size fits.size after rep.apart fits.above
    fun node member => fits.exactly node (List.mem_cons.mpr member)
  have ne : base ≠ b.start := fits.above.ne
  have low : ∀ d ∈ b.absorb blocks, base < d.start := by
    intro d member
    rcases Block.start_mem_absorb member with same | ⟨c, inside, same⟩
    · exact same ▸ fits.above
    · exact same ▸ rep.above c inside
  have gap : (h.joinNext b.start base).after base ≠ b.start := by
    rw [Heap.after, joined.sizes base ne, rep.baseSize, Nat.mul_zero, Nat.add_zero,
      Nat.mod_eq_of_lt small]
    exact ne
  have same : h.link b.start base =
      { (h.joinNext b.start base).setPtr base b.start with freep := base } := by
    rw [link, joinPrev, if_neg gap]
  rw [same]
  refine ⟨?_, fun node differs _ => joined.sizes node differs⟩
  rw [Block.insert_front fun c member => (after c member).le]
  refine ⟨⟨rfl, ?_⟩, fun d member => joined.size d member, ?_, ?_, low,
    fun d member => Block.pos_absorb fits.positive rep.positive member, .head _⟩
  · simp only [setPtr, update_self]
    refine Walk.update joined.walk (fun member => ?_) _
    obtain ⟨d, inside, equal⟩ := List.mem_map.mp member
    exact absurd equal (low d inside).ne'
  · exact (joined.sizes base ne).trans rep.baseSize
  · refine Block.apart_absorb rep.apart fun c member => ?_
    refine (fits.room c member).resolve_left fun wrong => ?_
    have := after c member
    simp only [Block.stop] at wrong
    omega

/-- The block is put after the block `a`. -/
theorem Freed.of_after (rep : Represents base h (left ++ a :: right))
    (fits : Fits base h (left ++ a :: right) b) (before : ∀ c ∈ left, c.start < b.start)
    (next : a.start < b.start) (after : ∀ c ∈ right, b.start < c.start) :
    Freed base h (h.link b.start a.start) (left ++ a :: right) b := by
  have walk : Walk h.ptr base ((base :: left.map Block.start) ++ a.start :: right.map Block.start)
      base := by simpa using rep.walk
  have sorted : ((base :: left.map Block.start) ++ a.start :: right.map Block.start).Pairwise
      (· < ·) := by simpa using rep.sorted
  obtain ⟨_, start, rfl, rest⟩ := walk_append.mp walk
  have joined := joined_joinNext (p := a.start) rest
    (fun c member => rep.size c (by simp [member])) fits.size after
    (List.pairwise_append.mp rep.apart |>.2.1 |> List.pairwise_cons.mp |>.2) fits.above
    fun node member => fits.exactly node (by
      rcases member with rfl | member
      · exact .head _
      · simp only [List.map_append, List.map_cons, List.mem_cons, List.mem_append]
        exact .inr (.inr (.inr member)))
  -- the nodes before the block are linked as before
  have away : ∀ node ∈ base :: left.map Block.start, node ≠ a.start ∧ node ≠ b.start := by
    intro node member
    have lower := (List.pairwise_append.mp sorted).2.2 node member a.start (.head _)
    omega
  have ne : a.start ≠ b.start := next.ne
  have beyond : ∀ d ∈ b.absorb right, b.start ≤ d.start := by
    intro d member
    rcases Block.start_mem_absorb member with same | ⟨c, inside, same⟩
    · exact same.ge
    · exact same ▸ (after c inside).le
  have size := rep.size a (by simp)
  have stop : (h.joinNext b.start a.start).after a.start = a.stop := by
    rw [Heap.after, joined.sizes _ ne, size, ← Block.stop]
    refine Nat.mod_eq_of_lt (lt_of_le_of_lt ?_ fits.small)
    refine (fits.room a (by simp)).resolve_right fun wrong => ?_
    simp only [Block.stop] at wrong
    have := fits.positive
    omega
  have gaps : ∀ c ∈ left, c.start < b.start ∧ c.stop ≠ b.start := by
    intro c member
    have apart := (List.pairwise_append.mp rep.apart).2.2 c member a (.head _)
    refine ⟨before c member, fun wrong => ?_⟩
    omega
  have inserted : b.insert (left ++ a :: right) = left ++
      if a.stop = b.start then Block.absorb ⟨a.start, a.len + b.len⟩ right
      else a :: b.absorb right := by
    rw [Block.insert_skip gaps, Block.insert, if_pos next,
      Block.insert_front fun c member => (after c member).le]
  have baseNe : base ≠ a.start ∧ base ≠ b.start := away base (.head _)
  have others : ∀ c ∈ left, c.start ≠ a.start ∧ c.start ≠ b.start := fun c member =>
    away c.start (by simp only [List.mem_cons]; exact .inr (List.mem_map_of_mem member))
  have apart : Block.Apart (b.insert (left ++ a :: right)) :=
    Block.apart_insert rep.apart fits.positive rep.positive fits.room
  have positive : ∀ d ∈ b.insert (left ++ a :: right), 0 < d.len := fun d =>
    Block.pos_insert fits.positive rep.positive
  have above : ∀ d ∈ b.insert (left ++ a :: right), base < d.start := by
    intro d member
    rcases Block.start_mem_insert member with same | ⟨c, inside, same⟩
    · exact same ▸ fits.above
    · exact same ▸ rep.above c inside
  rw [inserted] at apart positive above
  by_cases touch : a.stop = b.start
  · obtain ⟨len, tail, split, merged⟩ := Block.absorb_join touch right
    rw [if_pos touch, merged] at apart positive above inserted
    rw [split] at beyond
    have linked := joined.walk
    have tailSize := joined.size
    rw [split] at linked tailSize
    obtain ⟨_, linked⟩ := linked
    have far : ∀ d ∈ tail, a.start < d.start := fun d member =>
      lt_of_lt_of_le next (beyond d (.tail _ member))
    have same : h.link b.start a.start =
        { ((h.joinNext b.start a.start).setSize a.start
            ((h.joinNext b.start a.start).size a.start +
              (h.joinNext b.start a.start).size b.start)).setPtr a.start
            ((h.joinNext b.start a.start).ptr b.start) with freep := a.start } := by
      rw [link, joinPrev, if_pos (stop.trans touch)]
    rw [same]
    refine ⟨?_, fun node differs absent => ?_⟩
    · rw [inserted]
      refine ⟨?_, ?_, ?_, apart, above, positive, ?_⟩
      · rw [List.map_append, List.map_cons, ← List.cons_append]
        refine walk_append.mpr ⟨a.start, start.congr fun node member => ?_, rfl, ?_⟩
        · simp only [setPtr, setSize, update_of_ne (away node member).1]
          exact joined.ptr node (away node member).2
        · simp only [setPtr, setSize, update_self]
          refine Walk.update linked (fun member => ?_) _
          obtain ⟨d, inside, equal⟩ := List.mem_map.mp member
          exact absurd equal (far d inside).ne'
      · intro c member
        rcases List.mem_append.mp member with old | new
        · simp only [setPtr, setSize, update_of_ne (others c old).1]
          rw [joined.sizes _ (others c old).2]
          exact rep.size c (by simp [old])
        · rcases List.mem_cons.mp new with rfl | new
          · simp only [setPtr, setSize, update_self, Nat.mul_add,
              tailSize _ (.head _), joined.sizes _ ne, size]
          · simp only [setPtr, setSize, update_of_ne (far c new).ne']
            exact tailSize c (.tail _ new)
      · simp only [setPtr, setSize, update_of_ne baseNe.1]
        exact (joined.sizes _ baseNe.2).trans rep.baseSize
      · simp
    · have notA : node ≠ a.start := by
        rintro rfl
        exact absent (by simp)
      simp only [setPtr, setSize, update_of_ne notA]
      exact joined.sizes node differs
  · rw [if_neg touch] at apart positive above inserted
    have same : h.link b.start a.start =
        { (h.joinNext b.start a.start).setPtr a.start b.start with freep := a.start } := by
      rw [link, joinPrev, if_neg (fun wrong => touch (stop.symm.trans wrong))]
    rw [same]
    refine ⟨?_, fun node differs _ => joined.sizes node differs⟩
    rw [inserted]
    refine ⟨?_, ?_, ?_, apart, above, positive, ?_⟩
    · rw [List.map_append, List.map_cons, ← List.cons_append]
      refine walk_append.mpr ⟨a.start, start.congr fun node member => ?_, rfl, ?_⟩
      · simp only [setPtr, update_of_ne (away node member).1]
        exact joined.ptr node (away node member).2
      · simp only [setPtr, update_self]
        refine Walk.update joined.walk (fun member => ?_) _
        obtain ⟨d, inside, equal⟩ := List.mem_map.mp member
        have := beyond d inside
        omega
    · intro c member
      rcases List.mem_append.mp member with old | new
      · exact (congrArg _ (joined.sizes _ (others c old).2)).trans (rep.size c (by simp [old]))
      · rcases List.mem_cons.mp new with rfl | new
        · exact (congrArg _ (joined.sizes _ ne)).trans size
        · exact joined.size c new
    · exact (joined.sizes _ baseNe.2).trans rep.baseSize
    · simp

theorem freewlock_freed (rep : Represents base h blocks) (fits : Fits base h blocks b)
    (small : base < 2 ^ 32) :
    ∃ h', (∀ fuel, blocks.length < fuel → freewlock fuel h (b.start + headerSize) = some h') ∧
      Freed base h h' blocks b := by
  obtain ⟨left, right, rfl, lower, upper⟩ := split_at blocks rep.apart b.start
  have after : ∀ c ∈ right, b.start < c.start := by
    intro c member
    have room := fits.room c (by simp [member])
    have := rep.positive c (by simp [member])
    have := fits.positive
    have := upper c member
    simp only [Block.stop] at room
    omega
  have afters : ∀ node ∈ right.map Block.start, b.start < node := by
    intro node member
    obtain ⟨c, inside, rfl⟩ := List.mem_map.mp member
    exact after c inside
  have sorted := rep.sorted
  have walk := rep.walk
  have found : ∀ (nodes : List Nat) (p : Nat), base :: (left ++ right).map Block.start =
      nodes ++ p :: right.map Block.start → p < b.start → base ≤ p →
      ∀ fuel, (left ++ right).length < fuel →
        freewlock fuel h (b.start + headerSize) = some (h.link b.start p) := by
    intro nodes p split before first fuel enough
    rw [split] at sorted walk
    rw [freewlock, Nat.add_sub_cancel]
    have member := rep.freep
    rw [split] at member
    have length : (nodes ++ p :: right.map Block.start).length ≤ fuel := by
      rw [← split]
      simp only [List.length_cons, List.length_map]
      omega
    have inside : p ∈ nodes ++ p :: right.map Block.start := by simp
    rw [search_unique walk member length inside
      ((place_iff walk sorted first before afters (by simp)).mpr rfl)
      fun other inside met => (place_iff walk sorted first before afters inside).mp met]
    rfl
  rcases List.eq_nil_or_concat left with rfl | ⟨before, a, rfl⟩
  · exact ⟨_, found [] base rfl fits.above (Nat.le_refl _),
      .of_first rep fits (by simpa using after) small⟩
  · rw [List.concat_eq_append] at lower rep fits found ⊢
    have low := rep.above a (by simp)
    refine ⟨_, found (base :: before.map Block.start) a.start (by simp)
      (lower a (by simp)) low.le, ?_⟩
    rw [List.append_assoc, List.singleton_append] at rep fits ⊢
    exact .of_after rep fits (fun c member => lower c (by simp [member])) (lower a (by simp)) after

/-! ## `malloc` -/

/-- A block of `nunits` units is cut off the free list, and `ap` points behind its
header. -/
structure Carved (base : Nat) (h' : Heap) (blocks blocks' : List Block) (nunits ap : Nat) :
    Prop where
  rep : Represents base h' blocks'
  header : headerSize ≤ ap
  size : h'.size (ap - headerSize) = nunits
  moved : ∀ x, Block.count blocks' x + (⟨ap - headerSize, headerSize * nunits⟩ : Block).at_ x =
    Block.count blocks x

theorem Represents.split (rep : Represents base h blocks) {prevp : Nat}
    (member : prevp ∈ base :: blocks.map Block.start) (next : h.ptr prevp ≠ base) :
    ∃ nodes left c right, blocks = left ++ c :: right ∧ h.ptr prevp = c.start ∧
      base :: left.map Block.start = nodes ++ [prevp] := by
  obtain ⟨nodes, after, split⟩ := List.append_of_mem member
  have walk := rep.walk
  rw [split] at walk
  cases after with
  | nil => exact absurd walk.next_eq next
  | cons x rest =>
    have shape : ∃ front, nodes ++ [prevp] = base :: front := by
      cases nodes with
      | nil =>
        obtain rfl : base = prevp := walk.1
        exact ⟨[], rfl⟩
      | cons head tail =>
        obtain rfl : base = head := walk.1
        exact ⟨tail ++ [prevp], rfl⟩
    obtain ⟨front, shape⟩ := shape
    have map : blocks.map Block.start = front ++ x :: rest := by
      rw [show nodes ++ prevp :: x :: rest = (nodes ++ [prevp]) ++ x :: rest by simp, shape,
        List.cons_append] at split
      exact (List.cons.inj split).2
    obtain ⟨left, later, rfl, rfl, tail⟩ := List.map_eq_append_iff.mp map
    obtain ⟨c, right, rfl, rfl, _⟩ := List.map_eq_cons_iff.mp tail
    exact ⟨nodes, left, c, right, rfl, walk.next_eq, shape.symm⟩

theorem carved_carve (rep : Represents base h blocks) {prevp nunits : Nat}
    (member : prevp ∈ base :: blocks.map Block.start) (positive : 0 < nunits)
    (enough : nunits ≤ h.size (h.ptr prevp)) :
    ∃ blocks', Carved base (h.carve nunits prevp).2 blocks blocks' nunits
      (h.carve nunits prevp).1 ∧
      ∀ node, node ∉ blocks.map Block.start → node ≠ (h.carve nunits prevp).1 - headerSize →
        (h.carve nunits prevp).2.size node = h.size node := by
  have next : h.ptr prevp ≠ base := by
    intro wrong
    rw [wrong, rep.baseSize] at enough
    omega
  obtain ⟨nodes, left, c, right, rfl, target, shape⟩ := rep.split member next
  rw [target] at enough
  have size := rep.size c (by simp)
  have walk : Walk h.ptr base ((nodes ++ [prevp]) ++ c.start :: right.map Block.start) base := by
    rw [← shape]
    simpa using rep.walk
  have sorted : ((nodes ++ [prevp]) ++ c.start :: right.map Block.start).Pairwise (· < ·) := by
    rw [← shape]
    simpa using rep.sorted
  obtain ⟨_, lower, rfl, upper⟩ := walk_append.mp walk
  obtain ⟨early, late, cross⟩ := List.pairwise_append.mp sorted
  have apart := rep.apart
  obtain ⟨leftApart, restApart, before⟩ := List.pairwise_append.mp apart
  obtain ⟨after, rightApart⟩ := List.pairwise_cons.mp restApart
  have keep : ∀ d ∈ left ++ right, d ∈ left ++ c :: right := by
    intro d inside
    rcases List.mem_append.mp inside with inside | inside
    · exact List.mem_append_left _ inside
    · exact List.mem_append_right _ (.tail _ inside)
  by_cases whole : h.size c.start = nunits
  · -- the whole block is taken out of the list
    have carved : h.carve nunits prevp =
        (c.start + headerSize, { h.setPtr prevp (h.ptr c.start) with freep := prevp }) := by
      simp only [carve, target, if_pos whole]
    rw [carved]
    refine ⟨left ++ right, ⟨⟨?_, ?_, rep.baseSize, ?_, ?_, ?_, ?_⟩, Nat.le_add_left _ _, ?_, ?_⟩,
      fun _ _ _ => rfl⟩
    · rw [List.map_append, ← List.cons_append, shape]
      have absent : prevp ∉ right.map Block.start := by
        intro wrong
        have := cross prevp (by simp) prevp (.tail _ wrong)
        omega
      refine walk_append.mpr ⟨h.ptr c.start, walk_snoc.mpr ⟨?_, ?_⟩, ?_⟩
      · refine Walk.update (walk_snoc.mp lower).1 (fun wrong => ?_) _
        have := (List.pairwise_append.mp early).2.2 prevp wrong prevp (.head _)
        omega
      · simp [setPtr]
      · exact Walk.update upper absent _
    · intro d inside
      exact rep.size d (keep d inside)
    · refine List.pairwise_append.mpr ⟨leftApart, rightApart, fun d inside e other => ?_⟩
      exact before d inside e (.tail _ other)
    · intro d inside
      exact rep.above d (keep d inside)
    · intro d inside
      exact rep.positive d (keep d inside)
    · rw [List.map_append, ← List.cons_append, shape]
      simp
    · simpa [setPtr] using whole
    · intro x
      have same : (⟨c.start + headerSize - headerSize, headerSize * nunits⟩ : Block) = c := by
        rw [Nat.add_sub_cancel, ← whole, size]
      rw [same]
      simp only [Block.count_append, Block.count_cons]
      omega
  · -- the end of the block is cut off
    have more : nunits < h.size c.start := lt_of_le_of_ne enough (Ne.symm whole)
    have carved : h.carve nunits prevp =
        (c.start + headerSize * (h.size c.start - nunits) + headerSize,
          { (h.setSize c.start (h.size c.start - nunits)).setSize
              (c.start + headerSize * (h.size c.start - nunits)) nunits with
            freep := prevp }) := by
      simp only [carve, target, if_neg whole]
    rw [carved]
    generalize rest : h.size c.start - nunits = keepUnits
    have split : h.size c.start = keepUnits + nunits := by omega
    have some : 0 < keepUnits := by omega
    have wide : 0 < headerSize * keepUnits := Nat.mul_pos (by decide) some
    have length : c.len = headerSize * keepUnits + headerSize * nunits := by
      rw [← size, split, Nat.mul_add]
    -- the new header lies inside the block, so it is no other node
    have inner : ∀ d ∈ left ++ right,
        d.start ≠ c.start + headerSize * keepUnits ∧ d.start ≠ c.start := by
      intro d inside
      rcases List.mem_append.mp inside with inside | inside
      · have := before d inside c (.head _)
        simp only [Block.stop] at this
        omega
      · have := after d inside
        simp only [Block.stop] at this
        omega
    have kept : ∀ d ∈ left ++ right, headerSize * ((h.setSize c.start keepUnits).setSize
        (c.start + headerSize * keepUnits) nunits).size d.start = d.len := by
      intro d inside
      simp only [setSize, update_of_ne (inner d inside).1, update_of_ne (inner d inside).2]
      exact rep.size d (keep d inside)
    have all : ∀ {P : Block → Prop}, (∀ d ∈ left ++ right, P d) →
        P ⟨c.start, headerSize * keepUnits⟩ →
        ∀ d ∈ left ++ ⟨c.start, headerSize * keepUnits⟩ :: right, P d := by
      intro P old new
      simp only [List.forall_mem_append, List.forall_mem_cons] at old ⊢
      exact ⟨old.1, new, old.2⟩
    have low := rep.above c (by simp)
    refine ⟨left ++ ⟨c.start, headerSize * keepUnits⟩ :: right,
      ⟨⟨?_, ?_, ?_, ?_, ?_, ?_, ?_⟩, Nat.le_add_left _ _, ?_, ?_⟩, fun node absent new => ?_⟩
    · simpa [setSize] using rep.walk
    · refine all kept ?_
      have differs : c.start ≠ c.start + headerSize * keepUnits := by omega
      simp only [setSize, update_of_ne differs, update_self]
    · have first : base ≠ c.start + headerSize * keepUnits := by omega
      simp only [setSize, update_of_ne first, update_of_ne low.ne]
      exact rep.baseSize
    · refine List.pairwise_append.mpr ⟨leftApart,
        List.pairwise_cons.mpr ⟨fun d inside => ?_, rightApart⟩, fun d inside e other => ?_⟩
      · have := after d inside
        simp only [Block.stop] at this ⊢
        omega
      · rcases List.mem_cons.mp other with rfl | other
        · exact before d inside c (.head _)
        · exact before d inside e (.tail _ other)
    · exact all (fun d inside => rep.above d (keep d inside)) low
    · exact all (fun d inside => rep.positive d (keep d inside)) wide
    · rw [List.map_append, List.map_cons, ← List.cons_append, shape]
      simp
    · simp [setSize]
    · intro x
      have joined : (⟨c.start, headerSize * keepUnits + headerSize * nunits⟩ : Block).at_ x =
          (⟨c.start, headerSize * keepUnits⟩ : Block).at_ x +
            (⟨c.start + headerSize * keepUnits, headerSize * nunits⟩ : Block).at_ x :=
        Block.at_join (b := ⟨c.start, headerSize * keepUnits⟩)
          (c := ⟨c.start + headerSize * keepUnits, headerSize * nunits⟩) rfl x
      rw [← length] at joined
      change c.at_ x = _ at joined
      rw [Nat.add_sub_cancel]
      simp only [Block.count_append, Block.count_cons, joined]
      omega
    · have notC : node ≠ c.start := by
        rintro rfl
        exact absent (by simp)
      rw [Nat.add_sub_cancel] at new
      simp only [setSize, update_of_ne new, update_of_ne notC]

/-! ### Fuel -/

theorem freewlock_mono {h' : Heap} {fuel more ap : Nat}
    (freed : freewlock fuel h ap = some h') (enough : fuel ≤ more) :
    freewlock more h ap = some h' := by
  obtain ⟨p, found, rfl⟩ := Option.map_eq_some_iff.mp freed
  rw [freewlock, search_mono found enough, Option.map_some]

section Malloc

variable {Break : Type} {sbrk : Break → Nat → Option Nat × Break} {writable : Break → Nat → Bool}
  {s s' : Break} {nunits fuel : Nat}

theorem mallocLoop_mono {ended : MallocEnd Break} {more : Nat}
    (ran : mallocLoop sbrk writable nunits fuel h s = some ended) (enough : fuel ≤ more) :
    mallocLoop sbrk writable nunits more h s = some ended := by
  induction fuel generalizing h s more with
  | zero => simp [mallocLoop] at ran
  | succ fuel ih =>
    obtain ⟨more, rfl⟩ : ∃ rest, more = rest + 1 := ⟨more - 1, by omega⟩
    have less : fuel ≤ more := Nat.le_of_succ_le_succ enough
    rw [mallocLoop] at ran ⊢
    cases found : search h.ptr (h.reached nunits) (fuel + 1) h.freep with
    | none => simp [found] at ran
    | some prevp =>
      simp only [found] at ran
      simp only [search_mono found enough]
      split_ifs at ran ⊢ with large
      · exact ran
      · obtain ⟨answer, s', asked⟩ : ∃ answer s',
            sbrk s (moreUnits nunits * headerSize % 2 ^ 32) = (answer, s') := ⟨_, _, rfl⟩
        simp only [asked] at ran ⊢
        cases answer with
        | none => exact ran
        | some hp =>
          dsimp only at ran ⊢
          split_ifs at ran ⊢
          · split at ran
            · simp at ran
            next freed =>
              simp only [freewlock_mono freed less]
              exact ih ran less
          · exact ran

section
variable (rep : Represents base h blocks)
include rep

theorem Represents.search_reached (nunits : Nat) (enough : blocks.length < fuel) :
    ∃ prevp ∈ base :: blocks.map Block.start,
      search h.ptr (h.reached nunits) fuel h.freep = some prevp ∧
      ((∃ c ∈ blocks, headerSize * nunits ≤ c.len) → nunits ≤ h.size (h.ptr prevp)) := by
  obtain ⟨left, right, shape⟩ := List.append_of_mem rep.freep
  have walk := rep.walk
  have sorted := rep.sorted
  rw [shape] at walk sorted
  have rotated := walk.rotate
  have same : ∀ node, node ∈ h.freep :: right ++ left ↔ node ∈ base :: blocks.map Block.start := by
    intro node
    rw [shape]
    simp only [List.mem_append, or_comm]
  have nodup : (h.freep :: right ++ left).Nodup := by
    have := sorted.imp fun {a b} (less : a < b) => less.ne
    exact (List.perm_append_comm.nodup_iff).mp this
  have length : (h.freep :: right ++ left).length ≤ fuel := by
    have := congrArg List.length shape
    simp only [List.length_cons, List.length_map, List.length_append] at this ⊢
    omega
  obtain ⟨prevp, member, ran, best⟩ := search_around
    (fun prevp => decide (nunits ≤ h.size (h.ptr prevp))) rotated nodup (by simp) length
  refine ⟨prevp, (same prevp).mp member, ran, fun ⟨c, inside, large⟩ => ?_⟩
  refine of_decide_eq_true (best ?_)
  -- the node before the large block
  obtain ⟨before, after, rfl⟩ := List.append_of_mem inside
  have whole : Walk h.ptr base ((base :: before.map Block.start) ++
      c.start :: after.map Block.start) base := by simpa using rep.walk
  obtain ⟨_, lower, rfl, _⟩ := walk_append.mp whole
  obtain ⟨nodes, last, split⟩ :=
    (List.eq_nil_or_concat (base :: before.map Block.start)).resolve_left (by simp)
  rw [List.concat_eq_append] at split
  rw [split] at lower
  refine ⟨last, (same last).mpr ?_, decide_eq_true ?_⟩
  · rw [List.map_append, ← List.cons_append, split]
    simp
  · rw [(walk_snoc.mp lower).2]
    have size := rep.size c (by simp)
    rw [← size] at large
    exact Nat.le_of_mul_le_mul_left large (by decide)

theorem mallocLoop_found (positive : 0 < nunits)
    (enough : blocks.length < fuel) (large : ∃ c ∈ blocks, headerSize * nunits ≤ c.len) :
    ∃ ap h' blocks', mallocLoop sbrk writable nunits fuel h s = some (.returned ap h' s) ∧
      Carved base h' blocks blocks' nunits ap ∧
      ∀ node, node ∉ blocks.map Block.start → node ≠ ap - headerSize →
        h'.size node = h.size node := by
  obtain ⟨prevp, member, ran, best⟩ := rep.search_reached nunits enough
  obtain ⟨blocks', carved, sizes⟩ := carved_carve rep member positive (best large)
  refine ⟨_, _, blocks', ?_, carved, sizes⟩
  cases fuel with
  | zero => omega
  | succ fuel => simp only [mallocLoop, ran, if_pos (best large)]

theorem mallocLoop_more (enough : blocks.length ≤ fuel)
    (small : ∀ c ∈ blocks, c.len < headerSize * nunits) (positive : 0 < nunits)
    {answer : Option Nat} (asked : sbrk s (moreUnits nunits * headerSize % 2 ^ 32) = (answer, s')) :
    (answer = none →
      mallocLoop sbrk writable nunits (fuel + 1) h s = some (.returned 0 h s')) ∧
    ∀ hp, answer = some hp →
      (writable s' hp = false →
        mallocLoop sbrk writable nunits (fuel + 1) h s = some (.fault s')) ∧
      ∀ h', writable s' hp = true →
        freewlock fuel (h.setSize hp (moreUnits nunits)) (hp + headerSize) = some h' →
        mallocLoop sbrk writable nunits (fuel + 1) h s =
          mallocLoop sbrk writable nunits fuel h' s' := by
  obtain ⟨prevp, member, ran, _⟩ := rep.search_reached nunits
    (show blocks.length < fuel + 1 by omega)
  have short : ¬nunits ≤ h.size (h.ptr prevp) := by
    intro wrong
    by_cases next : h.ptr prevp = base
    · rw [next, rep.baseSize] at wrong
      omega
    · obtain ⟨_, left, c, right, rfl, target, _⟩ := rep.split member next
      have := small c (by simp)
      rw [← rep.size c (by simp), ← target] at this
      exact absurd wrong (Nat.not_le.mpr (Nat.lt_of_mul_lt_mul_left this))
  simp only [mallocLoop, ran, if_neg short, asked]
  refine ⟨fun failed => by rw [failed],
    fun hp grown => ⟨fun faults => ?_, fun h' writes freed => ?_⟩⟩
  · simp [grown, faults]
  · simp [grown, writes, freed]

theorem Represents.setSize {hp : Nat} (absent : hp ∉ base :: blocks.map Block.start) (units : Nat) :
    Represents base (h.setSize hp units) blocks where
  walk := rep.walk
  size := by
    intro b member
    have differs : b.start ≠ hp := by
      rintro rfl
      exact absent (List.mem_cons_of_mem _ (List.mem_map_of_mem member))
    simpa [Heap.setSize, update_of_ne differs] using rep.size b member
  baseSize := by
    have differs : base ≠ hp := by
      rintro rfl
      exact absent (.head _)
    simpa [Heap.setSize, update_of_ne differs] using rep.baseSize
  apart := rep.apart
  above := rep.above
  positive := rep.positive
  freep := rep.freep

end

theorem moreUnits_ge (nunits : Nat) : nunits ≤ moreUnits nunits := by
  unfold moreUnits
  split_ifs <;> omega

theorem mallocLoop_grown (rep : Represents base h blocks) (enough : blocks.length + 2 < fuel)
    (small : ∀ c ∈ blocks, c.len < headerSize * nunits) (positive : 0 < nunits) {hp : Nat}
    (asked : sbrk s (moreUnits nunits * headerSize % 2 ^ 32) = (some hp, s'))
    (writes : writable s' hp = true) (absent : hp ∉ base :: blocks.map Block.start)
    (fits : Fits base (h.setSize hp (moreUnits nunits)) blocks
      ⟨hp, headerSize * moreUnits nunits⟩) (low : base < 2 ^ 32) :
    ∃ ap h' blocks', mallocLoop sbrk writable nunits fuel h s = some (.returned ap h' s') ∧
      Carved base h' (Block.insert ⟨hp, headerSize * moreUnits nunits⟩ blocks) blocks' nunits ap ∧
      ∀ node, node ∉ blocks.map Block.start → node ≠ hp → node ≠ ap - headerSize →
        h'.size node = h.size node := by
  obtain ⟨fuel, rfl⟩ : ∃ more, fuel = more + 1 := ⟨fuel - 1, by omega⟩
  obtain ⟨h2, ran, freed⟩ := freewlock_freed (rep.setSize absent _) fits low
  have length := Block.length_insert ⟨hp, headerSize * moreUnits nunits⟩ blocks
  have large : ∃ c ∈ Block.insert ⟨hp, headerSize * moreUnits nunits⟩ blocks,
      headerSize * nunits ≤ c.len := by
    obtain ⟨c, member, large⟩ := Block.exists_insert ⟨hp, headerSize * moreUnits nunits⟩ blocks
    exact ⟨c, member, le_trans (Nat.mul_le_mul_left _ (moreUnits_ge nunits)) large⟩
  have second : ∃ ap h' blocks', mallocLoop sbrk writable nunits fuel h2 s' = _ ∧ _ :=
    mallocLoop_found freed.rep positive (by omega) large
  obtain ⟨ap, h', blocks', found, carved, sizes⟩ := second
  refine ⟨ap, h', blocks', ?_, carved, fun node outside notHp notAp => ?_⟩
  · rw [← found]
    exact ((mallocLoop_more rep (by omega) small positive asked).2 hp rfl).2 h2 writes
      (ran fuel (by omega))
  · rw [sizes node (fun inside => ?_) notAp, freed.sizes node notHp outside, Heap.setSize]
    · exact update_of_ne notHp _ _
    · obtain ⟨c, member, rfl⟩ := List.mem_map.mp inside
      rcases Block.start_mem_insert member with same | ⟨d, old, same⟩
      · exact notHp same
      · exact outside (List.mem_map.mpr ⟨d, old, same.symm⟩)

end Malloc

end Xv6.Heap
