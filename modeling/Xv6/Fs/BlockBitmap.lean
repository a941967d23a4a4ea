import Xv6.Fs.Transfer
import Xv6.Lib.Program

/-!
# The block allocator

`balloc` of `fs.c` as a program that runs without interference, on the super block and the
bitmap.  Every write to a buffer in `fs.c` is followed by `bwrite`, so the buffers are left
out; a block of the bitmap is a row of bits.

`balloc` goes through the bitmap block by block and looks at all bits of each block.  The
last one has bits for blocks behind the end of the disk, which nobody sets: they are what
`balloc` finds on a full disk.
-/

namespace Xv6

open Program Function

structure Volume where
  /-- The super block. -/
  size : Uint
  ninodes : Uint
  bits : Nat → Nat → Bool

namespace Volume

/-- Inodes per block. -/
def ipb : Nat := 8

/-- Bitmap bits per block. -/
def bpb : Nat := bsize * 8

/-- The first number that is too large for an `int`. -/
@[irreducible] def intLimit : Nat := 2 ^ 31

theorem intLimit_eq : intLimit = 2 ^ 31 := by
  unfold intLimit
  rfl

/-- What stops the kernel. -/
inductive Stop where
  /-- `balloc: out of blocks` -/
  | outOfBlocks
  /-- Signed overflow in `balloc`. -/
  | overflow
  deriving DecidableEq

end Volume

abbrev FsProgram := Program Volume Volume.Stop

namespace Volume

/-! ## Blocks -/

def bblock (s : Volume) (b : Nat) : Nat := b / bpb + s.ninodes / ipb + 3

/-- The bit of a block is set. -/
def used (s : Volume) (b : Nat) : Bool := s.bits (s.bblock b) (b % bpb)

/-- Write the bit of a block. -/
def setBit (s : Volume) (b : Nat) (bit : Bool) : Volume :=
  { s with
    bits := Function.update s.bits (s.bblock b)
      (Function.update (s.bits (s.bblock b)) (b % bpb) bit) }

/-- The inner loop of `balloc`: the first bit that is clear. -/
def clearBit (row : Nat → Bool) : Nat → Nat → Option Nat
  | _, 0 => none
  | bi, k + 1 => if row bi = false then some bi else clearBit row (bi + 1) k

/-- The outer loop of `balloc`.  `b` is an `int`. -/
def ballocLoop : Nat → Nat → FsProgram Nat
  | 0, _ => throw .outOfBlocks
  | k + 1, b => do
      let s ← get
      if b < s.size then
        match clearBit (s.bits (s.bblock b)) 0 bpb with
        | some bi =>
          set (s.setBit (b + bi) true)
          pure (b + bi)
        | none => if b + bpb < intLimit then ballocLoop k (b + bpb) else throw .overflow
      else throw .outOfBlocks

def balloc : FsProgram Nat := do
  let s ← get
  ballocLoop (s.size / bpb + 2) 0

variable {s : Volume} {row : Nat → Bool} {b c : Nat}

/-! ## Bits -/

theorem bpb_pos : 0 < bpb := by decide

theorem setBit_bits (s : Volume) (b : Nat) (bit : Bool) (c : Nat) :
    (s.setBit b bit).used c = if c = b then bit else s.used c := by
  have apart : c ≠ b → ¬(s.bblock c = s.bblock b ∧ c % bpb = b % bpb) := by
    rintro differ ⟨block, index⟩
    have rows : c / bpb = b / bpb := by
      simp only [bblock] at block
      omega
    apply differ
    rw [← Nat.div_add_mod c bpb, ← Nat.div_add_mod b bpb, rows, index]
  change update s.bits (s.bblock b) _ (s.bblock c) (c % bpb) = _
  by_cases same : c = b
  · subst same
    simp
  · rw [if_neg same]
    by_cases row : s.bblock c = s.bblock b
    · rw [row, update_self, update_of_ne fun index => apart same ⟨row, index⟩]
      rw [used, row]
    · rw [update_of_ne row]
      rfl

@[simp] theorem used_setBit_self (s : Volume) (b : Nat) (bit : Bool) :
    (s.setBit b bit).used b = bit := by
  simp [setBit_bits]

theorem used_setBit_of_ne {bit : Bool} (differ : c ≠ b) : (s.setBit b bit).used c = s.used c := by
  simp [setBit_bits, differ]

theorem used_row {b bi : Nat} (aligned : b % bpb = 0) (inside : bi < bpb) :
    s.used (b + bi) = s.bits (s.bblock b) bi := by
  have index : (b + bi) % bpb = bi := by
    rw [Nat.add_mod, aligned, Nat.zero_add, Nat.mod_mod, Nat.mod_eq_of_lt inside]
  have row : (b + bi) / bpb = b / bpb := by
    rw [Nat.add_div bpb_pos, aligned, Nat.mod_eq_of_lt inside, Nat.div_eq_of_lt inside]
    simp [inside]
  rw [used, index, bblock, row]
  rfl

theorem clearBit_some {bi k c : Nat} (found : clearBit row bi k = some c) :
    bi ≤ c ∧ c < bi + k ∧ row c = false ∧ ∀ j, bi ≤ j → j < c → row j = true := by
  induction k generalizing bi with
  | zero => simp [clearBit] at found
  | succ k ih =>
    rw [clearBit] at found
    split_ifs at found with clear
    · obtain rfl := Option.some.inj found
      exact ⟨le_refl _, by omega, clear, fun j low high => by omega⟩
    · obtain ⟨low, high, isClear, before⟩ := ih found
      refine ⟨by omega, by omega, isClear, fun j from_ to_ => ?_⟩
      by_cases first : j = bi
      · simpa [first] using clear
      · exact before j (by omega) to_

theorem clearBit_none {bi k : Nat} (none : clearBit row bi k = none) :
    ∀ j, bi ≤ j → j < bi + k → row j = true := by
  induction k generalizing bi with
  | zero =>
    intro j low high
    omega
  | succ k ih =>
    rw [clearBit] at none
    split_ifs at none with clear
    intro j low high
    by_cases first : j = bi
    · simpa [first] using clear
    · exact ih none j (by omega) (by omega)

/-! ## The search -/

/-- The bitmap has a bit for the block in one of the blocks that `balloc` reads. -/
def Covered (s : Volume) (b : Nat) : Prop := b / bpb * bpb < s.size

theorem covered_of_lt {b : Nat} (inside : b < s.size) : s.Covered b :=
  lt_of_le_of_lt (Nat.div_mul_le_self b bpb) inside

theorem lt_of_covered (aligned : b % bpb = 0) (past : s.size ≤ b)
    (covered : s.Covered c) : c < b := by
  obtain ⟨rows, rfl⟩ := Nat.dvd_of_mod_eq_zero aligned
  have less : c / bpb < rows := by
    unfold Covered at covered
    by_contra more
    have := Nat.mul_le_mul_left bpb (Nat.not_lt.mp more)
    rw [Nat.mul_comm (c / bpb)] at covered
    omega
  exact lt_of_lt_of_le (Nat.lt_mul_div_succ c bpb_pos) (Nat.mul_le_mul_left bpb less)

/-- `balloc` takes the first free bit of the sectors that it looks at. -/
def Taken (s : Volume) (c : Nat) (s' : Volume) : Prop :=
  s' = s.setBit c true ∧ s.used c = false ∧ (∀ d, d < c → s.used d = true) ∧ s.Covered c ∧
    c < intLimit

def Stops (s : Volume) (stop : Stop) : Prop :=
  stop = .outOfBlocks ∧ s.size + bpb ≤ intLimit ∧ (∀ c, s.Covered c → s.used c = true) ∨
    stop = .overflow ∧ intLimit < s.size + bpb ∧ ∀ c, c < intLimit → s.used c = true

theorem wp_ballocLoop (k : Nat) {b : Nat} (aligned : b % bpb = 0) (enough : s.size < b + k * bpb)
    (low : b < intLimit) (full : ∀ c, c < b → s.used c = true) :
    Wp (ballocLoop k b) s.Taken s.Stops s := by
  induction k generalizing b with
  | zero =>
    refine .inl ⟨rfl, ?_, fun c covered => full c (lt_of_covered aligned (by omega) covered)⟩
    simp only [bpb, bsize, intLimit_eq] at aligned low ⊢
    omega
  | succ k ih =>
    have rows : b + bpb ≤ intLimit := by
      simp only [bpb, bsize, intLimit_eq] at aligned low ⊢
      omega
    simp only [ballocLoop, wp_bind, wp_get]
    refine wp_ite.mpr ⟨fun inside => ?_, fun past => .inl ⟨rfl, by omega, fun c covered =>
      full c (lt_of_covered aligned (by omega) covered)⟩⟩
    have covered : ∀ bi, bi < bpb → s.Covered (b + bi) := by
      intro bi within
      rw [Covered, Nat.add_div bpb_pos, aligned, Nat.mod_eq_of_lt within, Nat.div_eq_of_lt within]
      simpa [Nat.div_mul_cancel (Nat.dvd_of_mod_eq_zero aligned), Nat.not_le.mpr within]
        using inside
    split
    next bi found =>
      obtain ⟨-, within, clear, before⟩ := clearBit_some found
      rw [Nat.zero_add] at within
      simp only [wp_bind, wp_set, wp_pure]
      refine ⟨rfl, (used_row aligned within).trans clear, fun d less => ?_, covered bi within,
        by omega⟩
      by_cases early : d < b
      · exact full d early
      · have := used_row (s := s) aligned (show d - b < bpb by omega)
        rw [Nat.add_sub_cancel' (by omega)] at this
        rw [this]
        exact before (d - b) (Nat.zero_le _) (by omega)
    next none =>
      have all : ∀ c, c < b + bpb → s.used c = true := by
        intro c less
        by_cases early : c < b
        · exact full c early
        · have := used_row (s := s) aligned (show c - b < bpb by omega)
          rw [Nat.add_sub_cancel' (by omega)] at this
          rw [this]
          exact clearBit_none none (c - b) (Nat.zero_le _) (by omega)
      by_cases fits : b + bpb < intLimit
      · rw [if_pos fits]
        refine ih (by rw [Nat.add_mod_right, aligned]) ?_ fits all
        rw [Nat.add_mul] at enough
        omega
      · rw [if_neg fits]
        exact .inr ⟨rfl, by omega, fun c less => all c (by omega)⟩

theorem wp_balloc (s : Volume) :
    Wp balloc s.Taken s.Stops s := by
  simp only [balloc, wp_bind, wp_get]
  refine wp_ballocLoop _ (Nat.zero_mod _) ?_ (by simp [intLimit_eq]) fun c less =>
    absurd less (Nat.not_lt_zero c)
  have := Nat.lt_mul_div_succ s.size bpb_pos
  rw [Nat.mul_comm] at this
  rw [Nat.add_mul]
  rw [Nat.add_mul] at this
  omega

/-! ## Blocks of the disk -/

/-- What `balloc` should do: allocate a block of the disk that is free, if there is one, and
stop with `out of blocks` if not. -/
structure AllocatesInside (s : Volume) : Prop where
  found : (∃ b : Nat, b < s.size ∧ s.used b = false) →
    ∃ b s', balloc.run s = .ok (b, s') ∧ b < s.size ∧ s.used b = false ∧ s'.used b = true ∧
      (∀ c, c ≠ b → s'.used c = s.used c) ∧ s' = { s with bits := s'.bits }
  full : (∀ b : Nat, b < s.size → s.used b = true) → balloc.run s = .error .outOfBlocks

/-- `balloc` allocates blocks of the disk only, exactly if a block of the disk with a number
that is an `int` is free, or if the bits behind the end of the disk are set as well and the
search ends before the number overflows. -/
theorem balloc_inside_iff (s : Volume) :
    AllocatesInside s ↔
      (∃ b : Nat, b < s.size ∧ b < intLimit ∧ s.used b = false) ∨
        s.size + bpb ≤ intLimit ∧ ∀ b : Nat, b / bpb * bpb < s.size → s.used b = true := by
  have wp := wp_balloc s
  constructor
  · intro allocates
    by_cases free : ∃ b : Nat, b < s.size ∧ s.used b = false
    · obtain ⟨b, s', ran, inside, isFree, -⟩ := allocates.found free
      exact .inl ⟨b, inside, (wp.ok ran).2.2.2.2, isFree⟩
    · push Not at free
      simp only [ne_eq, Bool.not_eq_false] at free
      rcases wp.error (allocates.full free) with ⟨-, small, full⟩ | ⟨differ, -⟩
      · exact .inr ⟨small, full⟩
      · simp at differ
  · intro holds
    constructor
    · rintro ⟨b, inside, free⟩
      have taken : Wp balloc (fun c s' => s' = s.setBit c true ∧ s.used c = false ∧ c < s.size)
          (fun _ => False) s := by
        refine wp.mono ?_ ?_
        · rintro c s' ⟨rfl, isFree, before, -⟩
          refine ⟨rfl, isFree, lt_of_le_of_lt (Nat.not_lt.mp fun less => ?_) inside⟩
          simp [before b less] at free
        · rintro stop (⟨-, -, full⟩ | ⟨-, large, full⟩)
          · simp [full b (covered_of_lt inside)] at free
          · rcases holds with ⟨c, -, isInt, isFree⟩ | ⟨small, -⟩
            · simp [full c isInt] at isFree
            · omega
      obtain ⟨c, s', ran, rfl, isFree, below⟩ := taken.ends
      exact ⟨c, _, ran, below, isFree, used_setBit_self ..,
        fun d differ => used_setBit_of_ne differ, rfl⟩
    · intro full
      have stopped : Wp balloc (fun _ _ => False) (fun stop => stop = .outOfBlocks) s := by
        rcases holds with ⟨b, inside, -, free⟩ | ⟨small, all⟩
        · simp [full b inside] at free
        · refine wp.mono ?_ ?_
          · rintro c s' ⟨-, isFree, -, covered, -⟩
            simp [all c covered] at isFree
          · rintro stop (⟨rfl, -⟩ | ⟨-, large, -⟩)
            · rfl
            · omega
      obtain ⟨stop, ran, rfl⟩ := stopped.fails
      exact ran

/-- A disk of 1024 blocks, as `mkfs` makes it, with the given bits. -/
def bitmapDisk (bit : Nat → Bool) : Volume where
  size := 1024
  ninodes := 200
  bits := fun _ => bit

/-- All blocks of the disk are in use, and `balloc` returns the block behind the last. -/
theorem balloc_full_disk :
    (∀ b : Nat, b < (bitmapDisk (decide <| · < 1024)).size →
      (bitmapDisk (decide <| · < 1024)).used b = true) ∧
    balloc.run (bitmapDisk (decide <| · < 1024)) =
      .ok (1024, (bitmapDisk (decide <| · < 1024)).setBit 1024 true) ∧
    ¬AllocatesInside (bitmapDisk (decide <| · < 1024)) := by
  generalize disk : bitmapDisk (decide <| · < 1024) = s
  have size : (s.size : Nat) = 1024 := by
    rw [← disk]
    rfl
  have bit : ∀ b, b < bpb → s.used b = decide (b < 1024) := by
    intro b small
    rw [← disk, used, Nat.mod_eq_of_lt small]
    rfl
  have full : ∀ b : Nat, b < s.size → s.used b = true := by
    intro b inside
    rw [bit b (by simp only [bpb, bsize]; omega)]
    exact decide_eq_true (by omega)
  have taken : Wp balloc (fun c s' => s' = s.setBit c true ∧ c = 1024) (fun _ => False) s := by
    refine (wp_balloc s).mono ?_ ?_
    · rintro c s' ⟨rfl, free, before, -⟩
      refine ⟨rfl, ?_⟩
      have above : ¬c < 1024 := fun less => by simp [full c (by omega)] at free
      by_contra differ
      have := before 1024 (by omega)
      rw [bit 1024 (by decide)] at this
      simp at this
    · rintro stop (⟨-, -, all⟩ | ⟨-, large, -⟩)
      · have := all 1024 (by simp only [Covered, bpb, bsize]; omega)
        rw [bit 1024 (by decide)] at this
        simp at this
      · simp only [bpb, bsize, intLimit_eq] at large
        omega
  obtain ⟨c, s', ran, rfl, rfl⟩ := taken.ends
  refine ⟨full, ran, fun allocates => ?_⟩
  rw [allocates.full full] at ran
  cases ran

end Volume

end Xv6
