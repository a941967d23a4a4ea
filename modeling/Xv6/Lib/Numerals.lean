import Mathlib

/-!
# Numerals of bounded types

Literals of `Fin n` need that `n` is not zero.  For the bounds in use this is stated once,
so that every module writes its literals with the same instance.
-/

instance neZeroTwo : NeZero 2 := ⟨by decide⟩

instance neZeroSixtyFour : NeZero 64 := ⟨by decide⟩

instance neZeroWord : NeZero (2 ^ 32) := ⟨by decide⟩
