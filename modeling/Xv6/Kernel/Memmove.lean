import Xv6.Lib.Numerals

/-!
# The two `memmove`

`memmove` of `kernel/string.c` and of `user/ulib.c`.  Addresses have 32 bits and wrap around;
a loop is given by what memory holds after a number of rounds.
-/

namespace Xv6.Memmove

abbrev Bytes := Nat → UInt8

/-- `while(n-- > 0) *dst++ = *src++`, after `i` rounds. -/
def copyUp (memory : Bytes) (dst src : Nat) : Nat → Bytes
  | 0 => memory
  | i + 1 =>
    let before := copyUp memory dst src i
    Function.update before ((dst + i) % 2 ^ 32) (before ((src + i) % 2 ^ 32))

/-- `while(n-- > 0) *--d = *--s` from the ends of regions of `n` bytes, after `i` rounds. -/
def copyDown (memory : Bytes) (dst src n : Nat) : Nat → Bytes
  | 0 => memory
  | i + 1 =>
    let before := copyDown memory dst src n i
    Function.update before ((dst + n - (i + 1)) % 2 ^ 32) (before ((src + n - (i + 1)) % 2 ^ 32))

/-- The kernel's `memmove`. -/
def kernelMemmove (memory : Bytes) (dst src n : Nat) : Bytes :=
  if src < dst ∧ dst < (src + n) % 2 ^ 32 then copyDown memory dst src n n
  else copyUp memory dst src n

/-- The user library's `memmove`; its `n` is an `int`. -/
def userMemmove (memory : Bytes) (dst src : Nat) (n : Int) : Bytes :=
  copyUp memory dst src n.toNat

/-- The bytes of the source are at the destination, and all else is as before. -/
def Moved (memory : Bytes) (dst src n : Nat) (after : Bytes) : Prop :=
  (∀ i < n, after (dst + i) = memory (src + i)) ∧
    ∀ a, (a < dst ∨ dst + n ≤ a) → after a = memory a

variable {memory : Bytes} {dst src n i : Nat}

theorem copyUp_eq (dstFits : dst + n ≤ 2 ^ 32) (srcFits : src + n ≤ 2 ^ 32) (le : i ≤ n)
    (apart : dst ≤ src ∨ src + n ≤ dst) (a : Nat) :
    copyUp memory dst src i a =
      if dst ≤ a ∧ a < dst + i then memory (src + (a - dst)) else memory a := by
  induction i generalizing a with
  | zero => rw [if_neg (by omega), copyUp]
  | succ i ih =>
    have unread : copyUp memory dst src i (src + i) = memory (src + i) := by
      rw [ih (by omega), if_neg (by omega)]
    rw [copyUp, Nat.mod_eq_of_lt (by omega), Nat.mod_eq_of_lt (by omega), unread]
    by_cases here : a = dst + i
    · rw [here, Function.update_self, if_pos (by omega), Nat.add_sub_cancel_left]
    · rw [Function.update_of_ne here, ih (by omega)]
      exact if_congr (by omega) rfl rfl

theorem copyDown_eq (dstFits : dst + n ≤ 2 ^ 32) (srcFits : src + n ≤ 2 ^ 32) (le : i ≤ n)
    (below : src ≤ dst) (a : Nat) :
    copyDown memory dst src n i a =
      if dst + n - i ≤ a ∧ a < dst + n then memory (src + (a - dst)) else memory a := by
  induction i generalizing a with
  | zero => rw [if_neg (by omega), copyDown]
  | succ i ih =>
    have unread : copyDown memory dst src n i (src + n - (i + 1)) = memory (src + n - (i + 1)) := by
      rw [ih (by omega), if_neg (by omega)]
    rw [copyDown, Nat.mod_eq_of_lt (by omega), Nat.mod_eq_of_lt (by omega), unread]
    by_cases here : a = dst + n - (i + 1)
    · rw [here, Function.update_self, if_pos (by omega)]
      congr 1
      omega
    · rw [Function.update_of_ne here, ih (by omega)]
      exact if_congr (by omega) rfl rfl

theorem moved_of_eq {after : Bytes}
    (eq : ∀ a, after a = if dst ≤ a ∧ a < dst + n then memory (src + (a - dst)) else memory a) :
    Moved memory dst src n after := by
  refine ⟨fun i less => ?_, fun a outside => ?_⟩
  · rw [eq, if_pos (by omega), Nat.add_sub_cancel_left]
  · rw [eq, if_neg (by omega)]

theorem kernelMemmove_moved (dstFits : dst + n ≤ 2 ^ 32) (srcFits : src + n ≤ 2 ^ 32) :
    Moved memory dst src n (kernelMemmove memory dst src n) := by
  refine moved_of_eq fun a => ?_
  rw [kernelMemmove]
  by_cases overlap : src < dst ∧ dst < (src + n) % 2 ^ 32
  · rw [if_pos overlap, copyDown_eq dstFits srcFits le_rfl overlap.1.le, Nat.add_sub_cancel]
  · rw [if_neg overlap]
    refine copyUp_eq dstFits srcFits le_rfl ?_ a
    rcases Nat.lt_or_ge (src + n) (2 ^ 32) with small | large
    · rw [Nat.mod_eq_of_lt small] at overlap
      omega
    · omega

theorem copyUp_later {j a : Nat} (dstFits : dst + j ≤ 2 ^ 32) (le : i ≤ j) (before : a < dst + i) :
    copyUp memory dst src j a = copyUp memory dst src i a := by
  induction j, le using Nat.le_induction with
  | base => rfl
  | succ j le ih =>
    rw [copyUp, Nat.mod_eq_of_lt (by omega), Function.update_of_ne (by omega), ih (by omega)]

theorem copyUp_overlap (dstFits : dst + n ≤ 2 ^ 32) (srcFits : src + n ≤ 2 ^ 32)
    (after : src < dst) (overlap : dst < src + n) :
    copyUp memory dst src n (dst + (dst - src)) = memory src := by
  rw [copyUp_later (i := dst - src + 1) dstFits (by omega) (by omega), copyUp,
    Nat.mod_eq_of_lt (by omega), Function.update_self, Nat.mod_eq_of_lt (by omega),
    copyUp_eq (n := dst - src) (by omega) (by omega) le_rfl (.inr (by omega)), if_pos (by omega)]
  congr 1
  omega

/-- The kernel's `memmove` always meets its specification.  The user library's does so, for
every memory, if and only if the destination does not begin within the source. -/
theorem memmove_moved_iff (dstFits : dst + n ≤ 2 ^ 32) (srcFits : src + n ≤ 2 ^ 32) :
    (∀ memory, Moved memory dst src n (kernelMemmove memory dst src n)) ∧
      ((∀ memory, Moved memory dst src n (userMemmove memory dst src n)) ↔
        dst ≤ src ∨ src + n ≤ dst) := by
  refine ⟨fun memory => kernelMemmove_moved dstFits srcFits, fun moved => ?_, fun apart memory =>
    moved_of_eq (copyUp_eq dstFits srcFits le_rfl apart)⟩
  by_contra overlap
  -- a memory in which the first byte of the source differs from that of the destination
  let memory : Bytes := fun a => if a = src then 1 else 0
  have copied : copyUp memory dst src n (dst + (dst - src)) = memory (src + (dst - src)) :=
    (moved memory).1 (dst - src) (by omega)
  rw [copyUp_overlap dstFits srcFits (by omega) (by omega)] at copied
  simp [memory] at copied
  omega

/-- Both move two bytes to the front. -/
theorem memmove_moved_front :
    Moved UInt8.ofNat 0 1 2 (kernelMemmove UInt8.ofNat 0 1 2) ∧
      Moved UInt8.ofNat 0 1 2 (userMemmove UInt8.ofNat 0 1 2) := by
  have both := @memmove_moved_iff 0 1 2 (by decide) (by decide)
  exact ⟨both.1 _, both.2.mpr (.inl (Nat.zero_le 1)) _⟩

/-- Of two bytes that are moved up by one, the user library's `memmove` loses the second. -/
theorem userMemmove_overlap : 1 + 2 ≤ 2 ^ 32 ∧ 0 + 2 ≤ 2 ^ 32 ∧
    ¬Moved UInt8.ofNat 1 0 2 (userMemmove UInt8.ofNat 1 0 2) := by
  refine ⟨by decide, by decide, fun moved => ?_⟩
  exact absurd (moved.1 1 (by decide)) (by decide)

end Xv6.Memmove
