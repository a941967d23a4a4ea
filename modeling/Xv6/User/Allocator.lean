import Xv6.Lib.Transition
import Xv6.User.FreeList

/-!
# Runs of the allocator

Any sequence of calls of `malloc` and `free`, where `sbrk` fails or returns any region
above the ones it returned before.  After every call the free blocks and the live blocks
divide the memory that `sbrk` returned.
-/

namespace Xv6

open LinkedList

/-- What is known of `sbrk`: the regions it has returned, and its next answers. -/
structure Arena where
  regions : List Block
  answers : List (Option Nat)

namespace Arena

/-- A region above the static data and all earlier regions. -/
def Fresh (base : Nat) (regions : List Block) (addr n : Nat) : Prop :=
  base + headerSize ≤ addr ∧ (∀ r ∈ regions, r.stop ≤ addr) ∧ addr + n ≤ 2 ^ 32

instance (base : Nat) (regions : List Block) (addr n : Nat) :
    Decidable (Fresh base regions addr n) :=
  inferInstanceAs (Decidable (_ ∧ _ ∧ _))

/-- The next answer; one that is not a fresh region counts as a failure. -/
def sbrk (base : Nat) (arena : Arena) (n : Nat) : Option Nat × Arena :=
  match arena.answers with
  | [] => (none, arena)
  | none :: rest => (none, { arena with answers := rest })
  | some addr :: rest =>
    if Fresh base arena.regions addr n then
      (some addr, ⟨arena.regions ++ [⟨addr, n⟩], rest⟩)
    else (none, { arena with answers := rest })

theorem sbrk_cases {base n : Nat} {arena arena' : Arena} {answer : Option Nat}
    (asked : sbrk base arena n = (answer, arena')) :
    (answer = none ∧ arena'.regions = arena.regions) ∨
      ∃ addr, answer = some addr ∧ Fresh base arena.regions addr n ∧
        arena'.regions = arena.regions ++ [⟨addr, n⟩] := by
  unfold sbrk at asked
  split at asked
  · obtain ⟨rfl, rfl⟩ := Prod.mk.inj asked
    exact .inl ⟨rfl, rfl⟩
  · obtain ⟨rfl, rfl⟩ := Prod.mk.inj asked
    exact .inl ⟨rfl, rfl⟩
  next addr rest _ =>
    split at asked
    next fresh =>
      obtain ⟨rfl, rfl⟩ := Prod.mk.inj asked
      exact .inr ⟨addr, rfl, fresh, rfl⟩
    · obtain ⟨rfl, rfl⟩ := Prod.mk.inj asked
      exact .inl ⟨rfl, rfl⟩

end Arena

structure Allocator where
  heap : Heap
  regions : List Block
  /-- The blocks that are allocated, with their headers. -/
  live : List Block

inductive AllocatorCall where
  | malloc (nbytes : Nat) (answers : List (Option Nat)) (fuel : Nat)
  | free (ap fuel : Nat)

namespace Allocator

/-- The result of `malloc`. -/
def malloc (base fuel : Nat) (s : Allocator) (nbytes : Nat) (answers : List (Option Nat)) :
    Option (MallocEnd Arena) :=
  s.heap.malloc (Arena.sbrk base) (fun _ _ => true) base fuel ⟨s.regions, answers⟩ nbytes

/-- The live block that a pointer belongs to. -/
def owner (s : Allocator) (ap : Nat) : Option Block :=
  s.live.find? fun b => b.start + headerSize = ap

def step (base : Nat) (s : Allocator) : AllocatorCall → Option Allocator
  | .malloc nbytes answers fuel =>
    if nbytes < 2 ^ 30 then
      match s.malloc base fuel nbytes answers with
      | some (.returned ap h arena) =>
        some { heap := h, regions := arena.regions
               live := if ap = 0 then s.live
                 else ⟨ap - headerSize, headerSize * h.size (ap - headerSize)⟩ :: s.live }
      | _ => none
    else none
  | .free ap fuel =>
    match s.owner ap with
    | none => none
    | some b => (s.heap.freewlock fuel ap).map fun h => { s with heap := h, live := s.live.erase b }

/-- Before the first call: `freep` is null. -/
def start (ptr size : Nat → Nat) : Allocator := ⟨⟨ptr, size, 0⟩, [], []⟩

/-! ## The invariant -/

/-- The free list consists of `blocks`, and every address that `sbrk` returned belongs to
exactly one free or live block. -/
structure Sound (base : Nat) (s : Allocator) (blocks : List Block) : Prop where
  rep : (s.heap.init base).Represents base blocks
  size : ∀ b ∈ s.live, headerSize * (s.heap.init base).size b.start = b.len
  positive : ∀ b ∈ s.live, 0 < b.len
  tiled : ∀ x, Block.count blocks x + Block.count s.live x = Block.count s.regions x
  once : ∀ x, Block.count s.regions x ≤ 1
  bounds : ∀ r ∈ s.regions, base + headerSize ≤ r.start ∧ r.stop ≤ 2 ^ 32

variable {base fuel : Nat} {s s' : Allocator} {blocks : List Block} {b c : Block} {h : Heap}
  {nbytes ap : Nat}

section
variable (sound : Sound base s blocks)
include sound

theorem Sound.inside (positive : 0 < b.len) (part : ∀ x, b.at_ x ≤ Block.count s.regions x) :
    base + headerSize ≤ b.start ∧ b.stop ≤ 2 ^ 32 := by
  have first := part b.start
  rw [Block.at_start positive] at first
  obtain ⟨r, member, low, _⟩ := Block.exists_of_count first
  have last := part (b.stop - 1)
  rw [Block.at_of_mem (by rw [Block.stop]; omega) (by rw [Block.stop]; omega)] at last
  obtain ⟨q, member', _, high⟩ := Block.exists_of_count last
  have lower := (sound.bounds r member).1
  have upper := (sound.bounds q member').2
  have : 0 < b.stop := by rw [Block.stop]; omega
  omega

theorem Sound.part_free (member : b ∈ blocks) (x : Nat) : b.at_ x ≤ Block.count s.regions x := by
  have := Block.at_le_count member x
  have := sound.tiled x
  omega

theorem Sound.part_live (member : b ∈ s.live) (x : Nat) : b.at_ x ≤ Block.count s.regions x := by
  have := Block.at_le_count member x
  have := sound.tiled x
  omega

theorem Sound.disjoint (live : b ∈ s.live) (free : c ∈ blocks)
    (x : Nat) : b.at_ x + c.at_ x ≤ 1 := by
  have := Block.at_le_count live x
  have := Block.at_le_count free x
  have := sound.tiled x
  have := sound.once x
  omega

theorem Sound.no_node (live : b ∈ s.live) : b.start ∉ base :: blocks.map Block.start := by
  have positive := sound.positive b live
  have low := (sound.inside positive (sound.part_live live)).1
  intro member
  rcases List.mem_cons.mp member with same | member
  · simp only [headerSize] at low
    omega
  · obtain ⟨c, free, same⟩ := List.mem_map.mp member
    have := sound.disjoint live free b.start
    have size := sound.rep.positive c free
    rw [Block.at_start positive, ← same, Block.at_start size] at this
    omega

theorem Sound.exactly (positive : 0 < base) (low : base < 2 ^ 32)
    {stop : Nat} (small : stop ≤ 2 ^ 32) {node : Nat}
    (member : node ∈ base :: blocks.map Block.start) : stop % 2 ^ 32 = node ↔ stop = node := by
  have range : 0 < node ∧ node < 2 ^ 32 := by
    rcases List.mem_cons.mp member with rfl | member
    · exact ⟨positive, low⟩
    · obtain ⟨c, free, rfl⟩ := List.mem_map.mp member
      have size := sound.rep.positive c free
      have := sound.inside size (sound.part_free free)
      have : c.start < c.stop := by rw [Block.stop]; omega
      omega
  rcases Nat.lt_or_ge stop (2 ^ 32) with less | more
  · rw [Nat.mod_eq_of_lt less]
  · obtain rfl : stop = 2 ^ 32 := Nat.le_antisymm small more
    rw [Nat.mod_self]
    omega

end

/-! ## The calls -/

theorem init_eq (rep : h.Represents base blocks) (positive : 0 < base) : h.init base = h := by
  have initialised : h.freep ≠ 0 := by
    rcases List.mem_cons.mp rep.freep with same | member
    · omega
    · obtain ⟨c, free, same⟩ := List.mem_map.mp member
      have := rep.above c free
      omega
  rw [Heap.init, if_neg initialised]

section
variable (sound : Sound base s blocks)
include sound

theorem Sound.carve (positive : 0 < base)
    {blocks' : List Block} {nunits ap : Nat} {regions' : List Block} {whole : List Block}
    (carved : Heap.Carved base h whole blocks' nunits ap) (units : 0 < nunits)
    (sizes : ∀ b ∈ s.live, b.start ≠ ap - headerSize →
      h.size b.start = (s.heap.init base).size b.start)
    (tiled : ∀ x, Block.count whole x + Block.count s.live x = Block.count regions' x)
    (once : ∀ x, Block.count regions' x ≤ 1)
    (bounds : ∀ r ∈ regions', base + headerSize ≤ r.start ∧ r.stop ≤ 2 ^ 32) :
    Sound base ⟨h, regions',
      ⟨ap - headerSize, headerSize * h.size (ap - headerSize)⟩ :: s.live⟩ blocks' := by
  have wide : 0 < headerSize * nunits := Nat.mul_pos (by decide) units
  have apart : ∀ b ∈ s.live, b.start ≠ ap - headerSize := by
    intro b member same
    have old : b.at_ (ap - headerSize) = 1 := same ▸ Block.at_start (sound.positive b member)
    have new : (⟨ap - headerSize, headerSize * nunits⟩ : Block).at_ (ap - headerSize) = 1 :=
      Block.at_start wide
    have := Block.at_le_count member (ap - headerSize)
    have := carved.moved (ap - headerSize)
    have := tiled (ap - headerSize)
    have := once (ap - headerSize)
    omega
  constructor
  · rw [init_eq carved.rep positive]
    exact carved.rep
  · rw [init_eq carved.rep positive]
    intro b member
    rcases List.mem_cons.mp member with rfl | member
    · rfl
    · rw [sizes b member (apart b member)]
      exact sound.size b member
  · intro b member
    rcases List.mem_cons.mp member with rfl | member
    · rw [carved.size]
      exact wide
    · exact sound.positive b member
  · intro x
    have := carved.moved x
    have := tiled x
    change Block.count blocks' x + Block.count (_ :: s.live) x = Block.count regions' x
    rw [Block.count_cons, carved.size]
    omega
  · exact once
  · exact bounds

theorem Sound.grow {addr n : Nat} (fresh : Arena.Fresh base s.regions addr n) (x : Nat) :
    Block.count (s.regions ++ [⟨addr, n⟩]) x ≤ 1 := by
  obtain ⟨low, above, high⟩ := fresh
  rw [Block.count_append, Block.count_cons, Block.count_nil]
  by_cases covered : 0 < Block.count s.regions x
  · obtain ⟨r, member, _, before⟩ := Block.exists_of_count covered
    have := above r member
    have outside : (⟨addr, n⟩ : Block).at_ x = 0 := if_neg (by simp only; omega)
    have := sound.once x
    omega
  · have : (⟨addr, n⟩ : Block).at_ x ≤ 1 := by
      unfold Block.at_
      split_ifs <;> omega
    omega

theorem Sound.fits (positive : 0 < base) (low : base < 2 ^ 32) {addr units : Nat} (some : 0 < units)
    (fresh : Arena.Fresh base s.regions addr (headerSize * units)) :
    addr ∉ base :: blocks.map Block.start ∧
      Heap.Fits base ((s.heap.init base).setSize addr units) blocks
        ⟨addr, headerSize * units⟩ := by
  have wide : 0 < headerSize * units := Nat.mul_pos (by decide) some
  obtain ⟨bottom, above, high⟩ := fresh
  have before : ∀ c ∈ blocks, c.stop ≤ addr := by
    intro c member
    have size := sound.rep.positive c member
    have covered := sound.part_free member (c.stop - 1)
    rw [Block.at_of_mem (by rw [Block.stop]; omega) (by rw [Block.stop]; omega)] at covered
    obtain ⟨r, inside, _, last⟩ := Block.exists_of_count covered
    have := above r inside
    have : 0 < c.stop := by rw [Block.stop]; omega
    omega
  simp only [headerSize] at bottom
  refine ⟨fun member => ?_, ?_, wide, by simp only; omega, fun c member => .inl (before c member),
    by simp only; omega, fun node member => sound.exactly positive low high member⟩
  · rcases List.mem_cons.mp member with same | member
    · omega
    · obtain ⟨c, inside, same⟩ := List.mem_map.mp member
      have := before c inside
      have := sound.rep.positive c inside
      rw [Block.stop] at *
      omega
  · simp [Heap.setSize]

end

/-- What a call of `malloc` does, given enough fuel. -/
structure Allocated (base : Nat) (s : Allocator) (nbytes ap : Nat) (h : Heap)
    (arena : Arena) : Prop where
  /-- The state after the call. -/
  sound : ∃ blocks, Sound base ⟨h, arena.regions, if ap = 0 then s.live
    else ⟨ap - headerSize, headerSize * h.size (ap - headerSize)⟩ :: s.live⟩ blocks
  initialised : h.init base = h
  usable : ap ≠ 0 → ap + nbytes ≤ ap - headerSize + headerSize * h.size (ap - headerSize)

theorem usable {whole blocks' : List Block} (small : nbytes < 2 ^ 30)
    (carved : Heap.Carved base h whole blocks' (Heap.nunits nbytes) ap) :
    ap + nbytes ≤ ap - headerSize + headerSize * h.size (ap - headerSize) := by
  rw [carved.size]
  have := carved.header
  simp only [Heap.nunits, headerSize] at this ⊢
  rw [Nat.mod_eq_of_lt (by omega)]
  omega

theorem Sound.malloc (sound : Sound base s blocks) (positive : 0 < base) (low : base < 2 ^ 32)
    {nbytes : Nat} (small : nbytes < 2 ^ 30) (answers : List (Option Nat))
    (enough : blocks.length + 2 < fuel) :
    ∃ ap h arena, s.malloc base fuel nbytes answers = some (.returned ap h arena) ∧
      Allocated base s nbytes ap h arena ∧
      (ap = 0 → h = s.heap.init base ∧ arena.regions = s.regions) := by
  have units : 0 < Heap.nunits nbytes := Nat.succ_pos _
  have rep := sound.rep
  have initial : (s.heap.init base).init base = s.heap.init base := init_eq rep positive
  have nonzero : ∀ {h whole blocks' ap},
      Heap.Carved base h whole blocks' (Heap.nunits nbytes) ap → ap ≠ 0 := by
    intro h whole blocks' ap carved wrong
    have := carved.header
    simp only [headerSize] at this
    omega
  by_cases large : ∃ c ∈ blocks, headerSize * Heap.nunits nbytes ≤ c.len
  · have found : ∃ ap h' blocks', s.malloc base fuel nbytes answers = _ ∧ _ :=
      Heap.mallocLoop_found rep units (by omega) large
    obtain ⟨ap, h, blocks', ran, carved, sizes⟩ := found
    refine ⟨ap, h, _, ran, ⟨⟨blocks', ?_⟩, init_eq carved.rep positive,
      fun _ => usable small carved⟩, fun zero => absurd zero (nonzero carved)⟩
    rw [if_neg (nonzero carved)]
    exact sound.carve positive carved units (fun b member => sizes b.start fun node =>
      sound.no_node member (List.mem_cons_of_mem _ node)) sound.tiled sound.once sound.bounds
  · simp only [not_exists, not_and, Nat.not_le] at large
    obtain ⟨answer, arena, asked⟩ : ∃ answer arena, Arena.sbrk base ⟨s.regions, answers⟩
        (Heap.moreUnits (Heap.nunits nbytes) * headerSize % 2 ^ 32) = (answer, arena) :=
      ⟨_, _, rfl⟩
    have exact_ : Heap.moreUnits (Heap.nunits nbytes) * headerSize % 2 ^ 32 =
        headerSize * Heap.moreUnits (Heap.nunits nbytes) := by
      have : Heap.moreUnits (Heap.nunits nbytes) < 2 ^ 28 := by
        unfold Heap.moreUnits Heap.nunits
        simp only [headerSize]
        split_ifs <;> omega
      simp only [headerSize] at this ⊢
      omega
    rcases Arena.sbrk_cases asked with ⟨rfl, regions⟩ | ⟨addr, rfl, fresh, regions⟩
    · have failed : s.malloc base fuel nbytes answers =
          some (.returned 0 (s.heap.init base) arena) := by
        obtain ⟨fuel, rfl⟩ : ∃ more, fuel = more + 1 := ⟨fuel - 1, by omega⟩
        exact (Heap.mallocLoop_more rep (by omega) large units asked).1 rfl
      refine ⟨0, _, arena, failed, ⟨⟨blocks, ?_⟩, initial, fun wrong => absurd rfl wrong⟩,
        fun _ => ⟨rfl, regions⟩⟩
      rw [if_pos rfl, regions]
      refine ⟨?_, ?_, sound.positive, sound.tiled, sound.once, sound.bounds⟩
      · change ((s.heap.init base).init base).Represents base blocks
        rw [initial]
        exact rep
      · rw [initial]
        exact sound.size
    · rw [exact_] at fresh regions
      have more : 0 < Heap.moreUnits (Heap.nunits nbytes) :=
        lt_of_lt_of_le units (Heap.moreUnits_ge _)
      obtain ⟨absent, fits⟩ := sound.fits positive low more fresh
      have grown : ∃ ap h' blocks', s.malloc base fuel nbytes answers = _ ∧ _ :=
        Heap.mallocLoop_grown rep enough large units asked rfl absent fits low
      obtain ⟨ap, h, blocks', ran, carved, sizes⟩ := grown
      refine ⟨ap, h, arena, ran, ⟨⟨blocks', ?_⟩, init_eq carved.rep positive,
        fun _ => usable small carved⟩, fun zero => absurd zero (nonzero carved)⟩
      rw [if_neg (nonzero carved), regions]
      refine sound.carve positive carved units (fun b member => sizes b.start (fun node =>
        sound.no_node member (List.mem_cons_of_mem _ node)) fun wrong => ?_) (fun x => ?_)
        (sound.grow fresh) fun r member => ?_
      · -- a live block lies below the new region
        have size := sound.positive b member
        obtain ⟨r, inside, _, before⟩ := Block.exists_of_count
          (lt_of_lt_of_le (by rw [Block.at_start size]; exact Nat.one_pos)
            (sound.part_live member b.start))
        have := fresh.2.1 r inside
        omega
      · have := sound.tiled x
        change _ + _ = Block.count (s.regions ++ [_]) x
        rw [Block.count_insert, Block.count_append, Block.count_cons, Block.count_nil]
        omega
      · rcases List.mem_append.mp member with old | new
        · exact sound.bounds r old
        · obtain rfl := List.mem_singleton.mp new
          exact ⟨fresh.1, fresh.2.2⟩

theorem Sound.free (sound : Sound base s blocks) (positive : 0 < base) (low : base < 2 ^ 32)
    (initialised : s.heap.init base = s.heap) (member : b ∈ s.live) :
    ∃ h, (∀ fuel, blocks.length < fuel →
        s.heap.freewlock fuel (b.start + headerSize) = some h) ∧
      h.init base = h ∧
      ∃ blocks', Sound base { s with heap := h, live := s.live.erase b } blocks' := by
  have rep := sound.rep
  have size := sound.size b member
  have wide := sound.positive b member
  rw [initialised] at rep size
  obtain ⟨bottom, top⟩ := sound.inside wide (sound.part_live member)
  have fits : Heap.Fits base s.heap blocks b := by
    simp only [headerSize] at bottom
    refine ⟨size, wide, by omega, fun c free => ?_, ?_, fun node inside =>
      sound.exactly positive low top inside⟩
    · exact Block.apart_of_count wide (rep.positive c free) (sound.disjoint member free)
    · rw [Block.stop] at top
      omega
  obtain ⟨h, ran, freed⟩ := Heap.freewlock_freed rep fits low
  have init := init_eq freed.rep positive
  refine ⟨h, ran, init, b.insert blocks, ?_, ?_, ?_, fun x => ?_, sound.once, sound.bounds⟩
  · rw [init]
    exact freed.rep
  · intro c other
    have other : c ∈ s.live.erase b := other
    have live := List.mem_of_mem_erase other
    -- two live blocks have different headers
    have differs : c.start ≠ b.start := by
      intro same
      have := Block.count_erase member c.start
      have := Block.at_le_count other c.start
      have := sound.tiled c.start
      have := sound.once c.start
      have first : c.at_ c.start = 1 := Block.at_start (sound.positive c live)
      have second : b.at_ c.start = 1 := same ▸ Block.at_start wide
      omega
    rw [init, freed.sizes c.start differs fun node =>
      sound.no_node live (List.mem_cons_of_mem _ node), ← initialised]
    exact sound.size c live
  · exact fun c other => sound.positive c (List.mem_of_mem_erase other)
  · have := sound.tiled x
    have := Block.count_erase member x
    change Block.count (b.insert blocks) x + Block.count (s.live.erase b) x =
      Block.count s.regions x
    rw [Block.count_insert]
    omega

/-! ## Runs -/

theorem sound_start (ptr size : Nat → Nat) : Sound base (start ptr size) [] := by
  have init : (start ptr size).heap.init base =
      { ((start ptr size).heap.setPtr base base).setSize base 0 with freep := base } :=
    if_pos rfl
  refine ⟨?_, by simp [start], by simp [start], by simp [start], by simp [start],
    by simp [start]⟩
  rw [init]
  refine ⟨?_, by simp, ?_, .nil, by simp, by simp, by simp⟩
  · simp [Walk, Heap.setPtr, Heap.setSize]
  · simp [Heap.setPtr, Heap.setSize]

/-- The state is sound, and the list exists if memory was allocated. -/
def Inv (base : Nat) (s : Allocator) : Prop :=
  (s.live ≠ [] → s.heap.init base = s.heap) ∧ ∃ blocks, Sound base s blocks

theorem owner_some {ap : Nat} (owned : s.owner ap = some b) :
    b ∈ s.live ∧ ap = b.start + headerSize := by
  refine ⟨List.mem_of_find?_eq_some owned, ?_⟩
  have := List.find?_some owned
  exact (of_decide_eq_true this).symm

theorem Sound.malloc_returned (sound : Sound base s blocks) (positive : 0 < base)
    (low : base < 2 ^ 32) {answers : List (Option Nat)} {arena : Arena} (small : nbytes < 2 ^ 30)
    (ran : s.malloc base fuel nbytes answers = some (.returned ap h arena)) :
    Allocated base s nbytes ap h arena ∧
      (ap = 0 → h = s.heap.init base ∧ arena.regions = s.regions) := by
  have more : s.malloc base (max fuel (blocks.length + 3)) nbytes answers = _ :=
    Heap.mallocLoop_mono ran (le_max_left _ _)
  obtain ⟨ap', h', arena', ran', done⟩ := sound.malloc positive low small answers
    (lt_of_lt_of_le (Nat.lt_succ_self _) (le_max_right fuel (blocks.length + 3)))
  rw [more, Option.some.injEq, MallocEnd.returned.injEq] at ran'
  obtain ⟨rfl, rfl, rfl⟩ := ran'
  exact done

theorem Inv.step {call : AllocatorCall} (inv : Inv base s) (positive : 0 < base)
    (low : base < 2 ^ 32) (taken : Allocator.step base s call = some s') :
    s'.heap.init base = s'.heap ∧ ∃ blocks, Sound base s' blocks := by
  obtain ⟨created, blocks, sound⟩ := inv
  cases call with
  | malloc nbytes answers fuel =>
    simp only [Allocator.step] at taken
    split_ifs at taken with small
    split at taken
    next ap h arena ran =>
      obtain rfl := Option.some.inj taken
      have done := (sound.malloc_returned positive low small ran).1
      exact ⟨done.initialised, done.sound⟩
    · simp at taken
  | free ap fuel =>
    simp only [Allocator.step] at taken
    split at taken
    · simp at taken
    next b owned =>
      obtain ⟨h, ran, rfl⟩ := Option.map_eq_some_iff.mp taken
      obtain ⟨member, rfl⟩ := owner_some owned
      obtain ⟨h', ran', initialised, sound'⟩ := sound.free positive low
        (created (List.ne_nil_of_mem member)) member
      have more := Heap.freewlock_mono ran (le_max_left fuel (blocks.length + 1))
      rw [ran' _ (lt_of_lt_of_le (Nat.lt_succ_self _) (le_max_right fuel (blocks.length + 1))),
        Option.some.injEq] at more
      subst more
      exact ⟨initialised, sound'⟩

/-- The heap is well formed: the free list is a circle through `base` in increasing
order, no two free blocks touch or overlap, and the free and the live blocks cover every
address that `sbrk` returned exactly once, and no other address. -/
structure WellFormed (base : Nat) (s : Allocator) (blocks : List Block) : Prop where
  circle : Walk s.heap.ptr base (base :: blocks.map Block.start) base
  increasing : (base :: blocks.map Block.start).Pairwise (· < ·)
  freep : s.heap.freep ∈ base :: blocks.map Block.start
  free : ∀ b ∈ blocks, headerSize * s.heap.size b.start = b.len
  live : ∀ b ∈ s.live, headerSize * s.heap.size b.start = b.len
  apart : blocks.Pairwise fun b c => b.stop < c.start
  tiled : ∀ x, Block.count (blocks ++ s.live) x =
    if ∃ r ∈ s.regions, r.start ≤ x ∧ x < r.stop then 1 else 0

theorem Sound.wellFormed (sound : Sound base s blocks) (initialised : s.heap.init base = s.heap) :
    WellFormed base s blocks := by
  have rep := sound.rep
  have live := sound.size
  rw [initialised] at rep live
  refine ⟨rep.walk, rep.sorted, rep.freep, rep.size, live, rep.apart, fun x => ?_⟩
  rw [Block.count_append, sound.tiled]
  have := sound.once x
  split_ifs with covered
  · obtain ⟨r, member, low, high⟩ := covered
    have := Block.at_le_count member x
    rw [Block.at_of_mem low high] at this
    omega
  · by_contra positive
    exact covered (Block.exists_of_count (Nat.pos_of_ne_zero positive))

variable {ptr size : Nat → Nat} {trace : List (Allocator × AllocatorCall)}

/-- After every call the heap is well formed, and every further call ends: `malloc` with
0 or with at least as many usable bytes as were asked for, and `free` of any live block. -/
theorem heap_wellFormed (positive : 0 < base) (low : base < 2 ^ 32)
    (run : Transition.Run (step base) (fun _ _ => True) (start ptr size) trace s) :
    (trace ≠ [] → ∃ blocks, WellFormed base s blocks) ∧
    (∀ nbytes answers, nbytes < 2 ^ 30 → ∃ enough, ∀ fuel ≥ enough, ∃ ap h arena,
      s.malloc base fuel nbytes answers = some (.returned ap h arena) ∧
      (ap ≠ 0 → ap + nbytes ≤ ap - headerSize + headerSize * h.size (ap - headerSize))) ∧
    ∀ b ∈ s.live, ∃ enough, ∀ fuel ≥ enough,
      (step base s (.free (b.start + headerSize) fuel)).isSome := by
  have reached : ∀ {trace s}, Transition.Run (step base) (fun _ _ => True) (start ptr size)
      trace s → Inv base s := fun run =>
    run.stateInvariant ⟨fun wrong => absurd rfl wrong, [], sound_start ptr size⟩
      fun inv _ taken =>
        ⟨fun _ => (inv.step positive low taken).1, (inv.step positive low taken).2⟩
  obtain ⟨created, blocks, sound⟩ := reached run
  refine ⟨fun called => ?_, fun nbytes answers small => ⟨blocks.length + 3, fun fuel enough => ?_⟩,
    fun b member => ⟨blocks.length + 1, fun fuel enough => ?_⟩⟩
  · cases run with
    | nil => exact absurd rfl called
    | snoc before _ taken =>
      obtain ⟨initialised, blocks', sound'⟩ := (reached before).step positive low taken
      exact ⟨blocks', sound'.wellFormed initialised⟩
  · obtain ⟨ap, h, arena, ran, done, -⟩ := sound.malloc positive low small answers
      (show blocks.length + 2 < fuel by omega)
    exact ⟨ap, h, arena, ran, done.usable⟩
  · have owned : (s.owner (b.start + headerSize)).isSome :=
      List.find?_isSome.mpr ⟨b, member, decide_eq_true rfl⟩
    obtain ⟨c, found⟩ := Option.isSome_iff_exists.mp owned
    obtain ⟨live, same⟩ := owner_some found
    obtain ⟨h, ran, _⟩ := sound.free positive low (created (List.ne_nil_of_mem live)) live
    simp only [step, found]
    rw [same, ran fuel enough]
    rfl

/-- Three blocks are allocated from one region, and freed so that the middle one is joined
on both sides. -/
def threeBlocks : List AllocatorCall :=
  [.malloc 100 [some 4096] 10, .malloc 40 [] 10, .malloc 8 [none] 10, .free 36760 10,
    .free 36696 10, .free 36712 10]

theorem heap_wellFormed_threeBlocks :
    ∃ s, Transition.Run (step 16) (fun _ _ => True) (start (fun _ => 0) fun _ => 0)
      (Transition.traceOf (step 16) (start (fun _ => 0) fun _ => 0) threeBlocks) s ∧
      s.live = [] ∧ s.regions = [⟨4096, 32768⟩] ∧ s.heap.size 4096 = 4096 ∧
      ∃ blocks, WellFormed 16 s blocks := by
  have ran : ∃ s, Transition.Run (step 16) (fun _ _ => True) (start (fun _ => 0) fun _ => 0)
      (Transition.traceOf (step 16) (start (fun _ => 0) fun _ => 0) threeBlocks) s ∧
      s.live = [] ∧ s.regions = [⟨4096, 32768⟩] ∧ s.heap.size 4096 = 4096 :=
    Transition.Run.of_exec_met _ (fun _ _ => trivial) (by decide +kernel)
  obtain ⟨s, run, live, regions, size⟩ := ran
  exact ⟨s, run, live, regions, size,
    (heap_wellFormed (by decide) (by decide) run).1 (by simp [threeBlocks, Transition.traceOf])⟩

end Allocator

end Xv6
