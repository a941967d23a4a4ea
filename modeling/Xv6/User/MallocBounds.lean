import Xv6.Fs.Transfer
import Xv6.Kernel.Sbrk
import Xv6.User.FreeList

/-!
# `malloc` on the sizes of a process

`malloc` of any 32-bit number of bytes, with `sbrk` as the kernel implements it: the
request is taken as a signed number, so `growproc` may shrink the process.  A process has
its size and the end of the pages that are mapped for it; a write behind them faults.
-/

namespace Xv6

/-- The memory of a process. -/
structure UserSpace where
  sz : Nat
  /-- The end of the mapped pages. -/
  mapped : Nat

namespace UserSpace

/-- The pages after `growproc`.  The pages above a smaller size are freed also if
`growproc` then fails, because the new size is zero. -/
def remapped (space : UserSpace) (n : Int) (memory : Bool) : Nat :=
  if n > 0 then
    if Ptable.grownSize space.sz n memory = 0 then space.mapped
    else pgroundup (Ptable.grownSize space.sz n memory)
  else if n < 0 ∧ toUint (space.sz + n) < space.sz then pgroundup (toUint (space.sz + n))
  else space.mapped

/-- `sys_sbrk`; `memory` says whether `kalloc` finds pages. -/
def sbrk (memory : Bool) (space : UserSpace) (request : Nat) : Option Nat × UserSpace :=
  let n := toInt request
  let sz := Ptable.grownSize space.sz n memory
  if n ≠ 0 ∧ sz = 0 then (none, { space with mapped := space.remapped n memory })
  else (some space.sz, ⟨sz, space.remapped n memory⟩)

/-- The header of a block at this address can be written. -/
def writable (space : UserSpace) (hp : Nat) : Bool := hp + headerSize ≤ space.mapped

end UserSpace

namespace Heap

/-- A well-formed heap of a process: a free list and live blocks that do not overlap, all
of them in the memory of the process. -/
structure Within (base : Nat) (h : Heap) (space : UserSpace) (blocks live : List Block) :
    Prop where
  rep : (h.init base).Represents base blocks
  positive : ∀ b ∈ live, 0 < b.len
  once : ∀ x, Block.count blocks x + Block.count live x ≤ 1
  inside : ∀ b ∈ blocks ++ live, b.stop ≤ space.sz
  low : base < space.sz
  high : space.sz ≤ usertop
  mapped : space.mapped = pgroundup space.sz

/-- The process did not shrink and its live blocks are as before, and `malloc` returned 0
or `nbytes` bytes in the memory of the process that belong to no live block. -/
def Fine (base : Nat) (h : Heap) (space : UserSpace) (live : List Block) (nbytes : Nat) :
    MallocEnd UserSpace → Prop
  | .fault _ => False
  | .returned ap h' space' =>
    space.sz ≤ space'.sz ∧ space.mapped ≤ space'.mapped ∧
    (∀ b ∈ live, h'.size b.start = (h.init base).size b.start) ∧
    (ap = 0 ∨ ap + nbytes ≤ space'.sz ∧ ∀ b ∈ live, b.stop ≤ ap ∨ ap + nbytes ≤ b.start)

variable {base nunits ap fuel : Nat} {h h' : Heap} {space space' : UserSpace} {memory : Bool}
  {blocks live whole blocks' : List Block} {nbytes : Nat} {request : Nat}

/-! ## Requests that are not positive -/

theorem sbrk_nonpos {answer : Option Nat} (small : toInt request ≤ 0)
    (nonempty : 0 < space.sz) (asked : space.sbrk memory request = (answer, space')) :
    space'.sz ≤ space.sz ∧ 0 < space'.sz ∧ (answer = none → space'.mapped = 0) := by
  simp only [UserSpace.sbrk, UserSpace.remapped, Ptable.grownSize, Ptable.deallocuvm,
    if_neg (not_lt.mpr small)] at asked
  split_ifs at asked
  all_goals
    obtain ⟨rfl, rfl⟩ := Prod.mk.inj asked
    simp_all [pgroundup, pgsize]
  all_goals omega

theorem mallocLoop_nonpos (nonempty : 0 < space.sz)
    (small : toInt (moreUnits nunits * headerSize % 2 ^ 32) ≤ 0)
    (ran : mallocLoop (UserSpace.sbrk memory) UserSpace.writable nunits fuel h space =
      some (.returned ap h' space')) : space'.sz ≤ space.sz ∧ (ap = 0 → space'.mapped = 0) := by
  induction fuel generalizing h space with
  | zero => simp [mallocLoop] at ran
  | succ fuel ih =>
    rw [mallocLoop] at ran
    split at ran
    · simp at ran
    · split at ran
      · rw [Option.some.injEq, MallocEnd.returned.injEq] at ran
        obtain ⟨rfl, _, rfl⟩ := ran
        refine ⟨le_refl _, fun wrong => ?_⟩
        simp only [carve] at wrong
        split_ifs at wrong
      · rcases asked : space.sbrk memory (moreUnits nunits * headerSize % 2 ^ 32)
          with ⟨answer, middle⟩
        obtain ⟨shrunk, left, failed⟩ := sbrk_nonpos small nonempty asked
        simp only [asked] at ran
        cases answer with
        | none =>
          rw [Option.some.injEq, MallocEnd.returned.injEq] at ran
          obtain ⟨_, _, rfl⟩ := ran
          exact ⟨shrunk, fun _ => failed rfl⟩
        | some hp =>
          dsimp only at ran
          split_ifs at ran
          · split at ran
            · simp at ran
            · obtain ⟨less, lost⟩ := ih left ran
              exact ⟨less.trans shrunk, lost⟩
          · simp at ran

/-! ## Positive requests -/

theorem sbrk_pos (memory : Bool) (positive : 0 < request) (small : request < 2 ^ 31)
    (high : space.sz ≤ usertop) :
    (Ptable.grownSize space.sz request memory = 0 → space.sbrk memory request = (none, space)) ∧
    (Ptable.grownSize space.sz request memory ≠ 0 →
      space.sbrk memory request =
        (some space.sz, ⟨space.sz + request, pgroundup (space.sz + request)⟩) ∧
      space.sz + request ≤ usertop) := by
  have value : toInt request = request := by
    unfold toInt
    omega
  have isPos : (request : Int) > 0 := by omega
  constructor
  · intro failed
    simp [UserSpace.sbrk, UserSpace.remapped, value, failed, positive, positive.ne']
  · intro succeeds
    have isInt : IsInt request := by
      unfold IsInt intMax
      omega
    have grown := Kernel.grownSize_pos high isPos isInt succeeds
    rw [Int.toNat_natCast] at grown
    have bound : Ptable.grownSize space.sz request memory ≤ usertop := Kernel.grownSize_le high
    refine ⟨?_, grown ▸ bound⟩
    simp only [UserSpace.sbrk, UserSpace.remapped, value, isPos, if_true, if_neg succeeds]
    rw [if_neg (by simp [succeeds]), grown]

section
variable (within : Within base h space blocks live)
include within

theorem Within.no_node {b : Block} (member : b ∈ live) : b.start ∉ blocks.map Block.start := by
  intro node
  obtain ⟨c, free, same⟩ := List.mem_map.mp node
  have := within.once b.start
  have := Block.at_le_count member b.start
  have := Block.at_le_count free b.start
  have first := Block.at_start (within.positive b member)
  have second : c.at_ b.start = 1 := same ▸ Block.at_start (within.rep.positive c free)
  omega

theorem Within.fine (carved : Carved base h' whole blocks' nunits ap)
    (units : nbytes + headerSize ≤ headerSize * nunits)
    (cover : ∀ x, 0 < Block.count whole x → x < space'.sz)
    (once : ∀ x, Block.count whole x + Block.count live x ≤ 1)
    (sizes : ∀ b ∈ live, b.start ≠ ap - headerSize →
      h'.size b.start = (h.init base).size b.start)
    (grown : space.sz ≤ space'.sz) (mapped : space.mapped ≤ space'.mapped) :
    Fine base h space live nbytes (.returned ap h' space') := by
  have header := carved.header
  have wide : 0 < headerSize * nunits := by
    simp only [headerSize] at units ⊢
    omega
  have part : ∀ x, (⟨ap - headerSize, headerSize * nunits⟩ : Block).at_ x ≤
      Block.count whole x := fun x => by
    have := carved.moved x
    omega
  have apart : ∀ b ∈ live, b.stop ≤ ap - headerSize ∨
      ap - headerSize + headerSize * nunits ≤ b.start := by
    intro b member
    refine @Block.apart_of_count ⟨ap - headerSize, headerSize * nunits⟩ b wide
      (within.positive b member) fun x => ?_
    have := part x
    have := once x
    have := Block.at_le_count member x
    omega
  refine ⟨grown, mapped, fun b member => sizes b member fun wrong => ?_, .inr ⟨?_, ?_⟩⟩
  · have := apart b member
    have := within.positive b member
    rw [Block.stop] at *
    omega
  · have last := part (ap - headerSize + headerSize * nunits - 1)
    rw [Block.at_of_mem (by simp only; omega) (by simp only [Block.stop]; omega)] at last
    have := cover _ last
    omega
  · intro b member
    have := apart b member
    omega

/-! ## A region at the end of the process -/

theorem Within.stop_le {x : Nat}
    (covered : 0 < Block.count blocks x + Block.count live x) : x < space.sz := by
  rw [← Block.count_append] at covered
  obtain ⟨c, member, _, before⟩ := Block.exists_of_count covered
  exact lt_of_lt_of_le before (within.inside c member)

theorem Within.grown_once (len x : Nat) :
    Block.count (Block.insert ⟨space.sz, len⟩ blocks) x + Block.count live x ≤ 1 := by
  have once := within.once x
  have below := @Within.stop_le _ _ _ _ _ within x
  rw [Block.count_insert, Block.at_]
  simp only
  split_ifs <;> omega

theorem Within.grown_cover {len x : Nat}
    (covered : 0 < Block.count (Block.insert ⟨space.sz, len⟩ blocks) x) : x < space.sz + len := by
  have below := @Within.stop_le _ _ _ _ _ within x
  rw [Block.count_insert, Block.at_] at covered
  split_ifs at covered with inside
  · exact inside.2
  · have := below (by omega)
    omega

theorem Within.start_lt {node : Nat}
    (member : node ∈ base :: blocks.map Block.start) : node < space.sz := by
  rcases List.mem_cons.mp member with rfl | member
  · exact within.low
  · obtain ⟨c, free, rfl⟩ := List.mem_map.mp member
    have inside := within.inside c (by simp [free])
    have := within.rep.positive c free
    rw [Block.stop] at inside
    omega

theorem Within.fits {units : Nat} (positive : 0 < units)
    (top : space.sz + headerSize * units ≤ usertop) :
    Fits base ((h.init base).setSize space.sz units) blocks ⟨space.sz, headerSize * units⟩ := by
  refine ⟨by simp [Heap.setSize], Nat.mul_pos (by decide) positive, within.low,
    fun c member => .inl (within.inside c (by simp [member])),
    lt_of_le_of_lt within.high (by decide), fun node _ => ?_⟩
  rw [Block.stop, Nat.mod_eq_of_lt (lt_of_le_of_lt top (by decide))]

end

/-! ## The ends of `malloc` -/

/-- `malloc` of `nunits` units ends with a block that is fine for every request of at most
these units. -/
def Succeeds (base : Nat) (h : Heap) (space : UserSpace) (live : List Block) (memory : Bool)
    (nunits fuel : Nat) : Prop :=
  ∃ ap h' space', mallocLoop (UserSpace.sbrk memory) UserSpace.writable nunits fuel
      (h.init base) space = some (.returned ap h' space') ∧ ap ≠ 0 ∧ space'.sz ≤ usertop ∧
    ∀ nbytes, nbytes + headerSize ≤ headerSize * nunits →
      Fine base h space live nbytes (.returned ap h' space')

theorem Carved.ne_zero (carved : Carved base h' whole blocks' nunits ap) : ap ≠ 0 := by
  intro wrong
  have := carved.header
  simp only [headerSize] at this
  omega

section
variable (within : Within base h space blocks live)
include within

theorem Within.found (units : 0 < nunits)
    (enough : blocks.length + 2 < fuel) (large : ∃ c ∈ blocks, headerSize * nunits ≤ c.len) :
    Succeeds base h space live memory nunits fuel := by
  have found : ∃ ap h' blocks', mallocLoop (UserSpace.sbrk memory) UserSpace.writable nunits
      fuel (h.init base) space = _ ∧ _ :=
    mallocLoop_found within.rep units (by omega) large
  obtain ⟨ap, h', blocks', ran, carved, sizes⟩ := found
  refine ⟨ap, h', space, ran, carved.ne_zero, within.high, fun nbytes fits => ?_⟩
  exact within.fine carved fits (fun x covered => within.stop_le (by omega)) within.once
    (fun b member => sizes b.start (within.no_node member)) (le_refl _) (le_refl _)

theorem Within.grown (units : 0 < nunits)
    (enough : blocks.length + 2 < fuel) (short : ∀ c ∈ blocks, c.len < headerSize * nunits)
    (top : space.sz + headerSize * moreUnits nunits ≤ usertop)
    (asked : space.sbrk memory (moreUnits nunits * headerSize % 2 ^ 32) =
      (some space.sz, ⟨space.sz + headerSize * moreUnits nunits,
        pgroundup (space.sz + headerSize * moreUnits nunits)⟩)) :
    Succeeds base h space live memory nunits fuel := by
  have more : 0 < moreUnits nunits := lt_of_lt_of_le units (moreUnits_ge _)
  have writes : UserSpace.writable ⟨space.sz + headerSize * moreUnits nunits,
      pgroundup (space.sz + headerSize * moreUnits nunits)⟩ space.sz = true := by
    refine decide_eq_true (le_trans ?_ le_pgroundup)
    exact Nat.add_le_add_left (Nat.le_mul_of_pos_right _ more) _
  have grown : ∃ ap h' blocks', mallocLoop (UserSpace.sbrk memory) UserSpace.writable nunits
      fuel (h.init base) space = _ ∧ _ :=
    mallocLoop_grown within.rep enough short units asked writes
      (fun member => (within.start_lt member).false) (within.fits more top)
      (lt_trans within.low (lt_of_le_of_lt within.high (by decide)))
  obtain ⟨ap, h', blocks', ran, carved, sizes⟩ := grown
  refine ⟨ap, h', _, ran, carved.ne_zero, top, fun nbytes fits => ?_⟩
  have mapped : space.mapped ≤ pgroundup (space.sz + headerSize * moreUnits nunits) := by
    rw [within.mapped]
    exact pgroundup_mono (Nat.le_add_right _ _)
  refine within.fine carved fits (fun x covered => within.grown_cover covered)
    (within.grown_once _) (fun b member => sizes b.start (within.no_node member) ?_)
    (Nat.le_add_right _ _) mapped
  have inside := within.inside b (by simp [member])
  have := within.positive b member
  rw [Block.stop] at inside
  omega

theorem Within.malloc (memory : Bool) (units : 0 < nunits)
    (small : headerSize * nunits < 2 ^ 31) (enough : blocks.length + 2 < fuel) :
    ((∀ c ∈ blocks, c.len < headerSize * nunits) ∧
      Ptable.grownSize space.sz (moreUnits nunits * headerSize : Nat) memory = 0 ∧
      mallocLoop (UserSpace.sbrk memory) UserSpace.writable nunits fuel (h.init base) space =
        some (.returned 0 (h.init base) space)) ∨
    (((∃ c ∈ blocks, headerSize * nunits ≤ c.len) ∨
      Ptable.grownSize space.sz (moreUnits nunits * headerSize : Nat) memory ≠ 0) ∧
      Succeeds base h space live memory nunits fuel) := by
  by_cases large : ∃ c ∈ blocks, headerSize * nunits ≤ c.len
  · exact .inr ⟨.inl large, within.found units enough large⟩
  · have short : ∀ c ∈ blocks, c.len < headerSize * nunits := by
      simpa only [not_exists, not_and, Nat.not_le] using large
    have request : moreUnits nunits * headerSize < 2 ^ 31 := by
      unfold moreUnits
      simp only [headerSize] at small ⊢
      split_ifs <;> omega
    have more : 0 < moreUnits nunits := lt_of_lt_of_le units (moreUnits_ge _)
    have modulo : moreUnits nunits * headerSize % 2 ^ 32 = moreUnits nunits * headerSize :=
      Nat.mod_eq_of_lt (lt_trans request (by decide))
    have asks := sbrk_pos memory (Nat.mul_pos more (show 0 < headerSize by decide)) request
      within.high
    by_cases fails : Ptable.grownSize space.sz (moreUnits nunits * headerSize : Nat) memory = 0
    · left
      refine ⟨short, fails, ?_⟩
      obtain ⟨fuel, rfl⟩ : ∃ rest, fuel = rest + 1 := ⟨fuel - 1, by omega⟩
      exact (mallocLoop_more within.rep (by omega) short units (modulo.symm ▸ asks.1 fails)).1 rfl
    · obtain ⟨asked, top⟩ := asks.2 fails
      rw [Nat.mul_comm _ headerSize] at top
      refine .inr ⟨.inr fails, within.grown units enough short top ?_⟩
      rw [modulo, asked, Nat.mul_comm headerSize]

end

theorem nunits_of_le (small : nbytes ≤ 2 ^ 32 - 8) : Heap.nunits nbytes = (nbytes + 7) / 8 + 1 := by
  unfold Heap.nunits headerSize
  omega

theorem nunits_of_large (large : 2 ^ 32 - 7 ≤ nbytes) (uint : nbytes < 2 ^ 32) :
    Heap.nunits nbytes = 1 := by
  unfold Heap.nunits headerSize
  omega

theorem toInt_request_nonpos (large : 2 ^ 31 - 16 < nbytes) (small : nbytes ≤ 2 ^ 32 - 8) :
    toInt (moreUnits (Heap.nunits nbytes) * headerSize % 2 ^ 32) ≤ 0 := by
  rw [nunits_of_le small, moreUnits, if_neg (by omega)]
  unfold toInt headerSize
  omega

theorem Fine.zero_of_large (large : 2 ^ 31 - 16 < nbytes)
    (fine : Fine base h space live nbytes (.returned ap h' space'))
    (top : space'.sz ≤ usertop) : ap = 0 := by
  rcases fine.2.2.2 with zero | ⟨inside, _⟩
  · exact zero
  · unfold usertop at top
    omega

theorem Within.not_fine (within : Within base h space blocks live)
    (large : 2 ^ 31 - 16 < nbytes) (small : nbytes ≤ 2 ^ 32 - 8)
    (ran : Heap.malloc (UserSpace.sbrk memory) UserSpace.writable base fuel h space nbytes =
      some (.returned ap h' space')) : ¬Fine base h space live nbytes (.returned ap h' space') := by
  intro fine
  have nonempty : 0 < space.sz := Nat.zero_lt_of_lt within.low
  obtain ⟨shrunk, lost⟩ := mallocLoop_nonpos nonempty (toInt_request_nonpos large small) ran
  have kept := fine.2.1
  rw [lost (fine.zero_of_large large (shrunk.trans within.high)), within.mapped] at kept
  have : space.sz ≤ pgroundup space.sz := le_pgroundup
  omega

/-- `malloc` in a process with a well-formed heap does what it should for a request of at
most 2³¹ - 16 bytes.  For a larger request the amount that `sbrk` is asked for is not
positive, and the process shrinks or gets a block that is too small.  If `nbytes` is so
large that the rounding wraps around, one unit is taken, and `malloc` is right only if it
cannot get it. -/
theorem malloc_fine_iff (within : Within base h space blocks live) {nbytes : Nat}
    (uint : nbytes < 2 ^ 32) :
    (∃ enough ended, (∀ fuel, enough ≤ fuel →
        Heap.malloc (UserSpace.sbrk memory) UserSpace.writable base fuel h space nbytes =
          some ended) ∧ Fine base h space live nbytes ended) ↔
    nbytes ≤ 2 ^ 31 - 16 ∨
      2 ^ 32 - 7 ≤ nbytes ∧ blocks = [] ∧ Ptable.grownSize space.sz 32768 memory = 0 := by
  constructor
  · rintro ⟨enough, ended, ran, fine⟩
    by_contra neither
    rw [not_or] at neither
    obtain ⟨large, exact⟩ := neither
    rw [Nat.not_le] at large
    cases ended with
    | fault s => exact fine
    | returned ap h' space' =>
      by_cases small : nbytes ≤ 2 ^ 32 - 8
      · exact within.not_fine large small (ran enough (le_refl _)) fine
      · have wraps : Heap.nunits nbytes = 1 := nunits_of_large (by omega) uint
        have ended := ran (enough + blocks.length + 3) (by omega)
        rw [Heap.malloc, wraps] at ended
        have fuelled : blocks.length + 2 < enough + blocks.length + 3 := by omega
        rcases within.malloc memory Nat.one_pos (by decide) fuelled with
          ⟨short, fails, _⟩ | ⟨_, ap', h2, space2, ran2, nonzero, top, _⟩
        · refine exact ⟨by omega, List.eq_nil_iff_forall_not_mem.mpr fun c member => ?_, fails⟩
          have := short c member
          have := within.rep.positive c member
          have := within.rep.size c member
          simp only [headerSize] at *
          omega
        · rw [ended, Option.some.injEq, MallocEnd.returned.injEq] at ran2
          obtain ⟨rfl, _, rfl⟩ := ran2
          exact nonzero (fine.zero_of_large large top)
  · intro condition
    have units : 0 < Heap.nunits nbytes := Nat.succ_pos _
    have small : headerSize * Heap.nunits nbytes < 2 ^ 31 := by
      rcases condition with small | ⟨large, _⟩
      · rw [nunits_of_le (by omega), headerSize]
        omega
      · rw [nunits_of_large large uint]
        decide
    rcases within.malloc memory units small (Nat.lt_succ_self (blocks.length + 2)) with
      ⟨_, _, ran⟩ | ⟨gets, ap, h', space', ran, _, _, fine⟩
    · refine ⟨_, _, fun fuel enough => mallocLoop_mono ran enough, ?_⟩
      exact ⟨le_refl _, le_refl _, fun _ _ => rfl, .inl rfl⟩
    · refine ⟨_, _, fun fuel enough => mallocLoop_mono ran enough, fine nbytes ?_⟩
      rcases condition with small | ⟨large, rfl, fails⟩
      · rw [nunits_of_le (by omega), headerSize]
        omega
      · rw [nunits_of_large large uint] at gets
        exact absurd gets (by simp [moreUnits, headerSize, fails])

theorem within_fresh : Within 100 ⟨fun _ => 0, fun _ => 0, 0⟩ ⟨8000, 8192⟩ [] [] := by
  refine ⟨⟨?_, by simp, by decide, by simp [Block.Apart], by simp, by simp, ?_⟩, by simp,
    by simp [Block.count], by simp, by decide, by decide, by decide⟩
  · exact ⟨rfl, rfl⟩
  · decide

theorem malloc_fine_fresh : ∃ enough ended, (∀ fuel, enough ≤ fuel →
      Heap.malloc (UserSpace.sbrk true) UserSpace.writable 100 fuel
        ⟨fun _ => 0, fun _ => 0, 0⟩ ⟨8000, 8192⟩ 500 = some ended) ∧
      Fine 100 ⟨fun _ => 0, fun _ => 0, 0⟩ ⟨8000, 8192⟩ [] 500 ended :=
  (malloc_fine_iff within_fresh (by decide)).mpr (.inl (by decide))

/-- In a fresh process `malloc(2³² - 72)` shrinks the process and returns a pointer to its
end, and `malloc(2³² - 1)` returns a pointer to the end of the memory it gets. -/
theorem malloc_huge : Within 100 ⟨fun _ => 0, fun _ => 0, 0⟩ ⟨8000, 8192⟩ [] [] ∧
    (∃ ap h' space', Heap.malloc (UserSpace.sbrk true) UserSpace.writable 100 10
        ⟨fun _ => 0, fun _ => 0, 0⟩ ⟨8000, 8192⟩ (2 ^ 32 - 72) =
          some (.returned ap h' space') ∧ ap = 8008 ∧ space'.sz = 7936 ∧
        ¬Fine 100 ⟨fun _ => 0, fun _ => 0, 0⟩ ⟨8000, 8192⟩ [] (2 ^ 32 - 72)
          (.returned ap h' space')) ∧
    (∃ ap h' space', Heap.malloc (UserSpace.sbrk true) UserSpace.writable 100 10
        ⟨fun _ => 0, fun _ => 0, 0⟩ ⟨8000, 8192⟩ (2 ^ 32 - 1) =
          some (.returned ap h' space') ∧ ap = 40768 ∧ space'.sz = 40768 ∧
        ¬Fine 100 ⟨fun _ => 0, fun _ => 0, 0⟩ ⟨8000, 8192⟩ [] (2 ^ 32 - 1)
          (.returned ap h' space')) := by
  refine ⟨within_fresh, ⟨_, _, _, rfl, by decide, by decide, ?_⟩,
    _, _, _, rfl, by decide, by decide, ?_⟩
  · rintro ⟨larger, -⟩
    exact absurd larger (by decide)
  · rintro ⟨-, -, -, zero | ⟨inside, -⟩⟩
    · exact absurd zero (by decide)
    · exact absurd inside (by decide)

end Heap

end Xv6
