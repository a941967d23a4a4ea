import Xv6.Kernel.Proc

/-!
# Moving the data of an inode

`readi` and `writei` as far as the caller's memory is concerned: which addresses they
copy to or from, and what they return.  The sizes are unsigned words, and the count
the callers pass is an `int` that arrives as one.
-/

namespace Xv6

/-! ## Parameters -/

/-- Block size. -/
def bsize : Nat := 512

def ndirect : Nat := 12

/-- Block numbers in an indirect block. -/
def nindirect : Nat := bsize / 4

/-- Blocks in the largest file. -/
def maxfile : Nat := ndirect + nindirect

/-- The type of a device. -/
def tDev : Int := 3

/-- The major number of the console, the only device with functions of its own. -/
def console : Int := 1

/-- What `readi` and `writei` look at in a `struct inode`. -/
structure Inode where
  type : Int
  major : Int
  size : Uint
  deriving DecidableEq

/-! ## Transfers -/

/-- Pieces of memory, each an address and a length. -/
abbrev Pieces := List (Nat × Nat)

/-- The addresses in some pieces of memory. -/
def Touched (pieces : Pieces) (addr : Nat) : Prop :=
  ∃ piece ∈ pieces, piece.1 ≤ addr ∧ addr < piece.1 + piece.2

variable {x : Nat} {total : Int}

@[simp] theorem touched_nil : ¬Touched [] x := by
  simp [Touched]

@[simp] theorem touched_cons {piece : Nat × Nat} {pieces : Pieces} :
    Touched (piece :: pieces) x ↔ piece.1 ≤ x ∧ x < piece.1 + piece.2 ∨ Touched pieces x := by
  simp [Touched]

@[simp] theorem touched_append {pieces rest : Pieces} :
    Touched (pieces ++ rest) x ↔ Touched pieces x ∨ Touched rest x := by
  simp [Touched, or_and_right, exists_or]

/-- What a transfer does: the pieces of the caller's memory it copies to or from, in
order, and its result.  There is no result after a panic. -/
structure Transfer where
  pieces : Pieces
  result : Option Int

namespace Transfer

/-- A transfer that copies nothing. -/
def stop (result : Option Int) : Transfer := ⟨[], result⟩

/-- Copy one piece and go on. -/
def copy (addr length : Nat) (rest : Transfer) : Transfer :=
  ⟨(addr, length) :: rest.pieces, rest.result⟩

/-- Every address the transfer touches is below a bound. -/
def Inside (transfer : Transfer) (sz : Nat) : Prop :=
  ∀ addr, Touched transfer.pieces addr → addr < sz

variable {addr length sz : Nat} {result : Option Int} {rest : Transfer}

theorem inside_stop : (stop result).Inside sz := by
  simp [Inside, stop]

theorem inside_copy (fits : addr + length ≤ sz) (inside : rest.Inside sz) :
    (copy addr length rest).Inside sz := by
  intro x touched
  rcases touched_cons.mp touched with here | later
  · exact lt_of_lt_of_le here.2 fits
  · exact inside x later

theorem inside_iff {transfer : Transfer}
    (stretch : ∀ x, Touched transfer.pieces x ↔ addr ≤ x ∧ x < addr + length) :
    transfer.Inside sz ↔ length = 0 ∨ addr + length ≤ sz := by
  simp only [Inside, stretch]
  constructor
  · intro inside
    rcases Nat.eq_zero_or_pos length with zero | positive
    · exact .inl zero
    · have := inside (addr + length - 1) (by omega)
      exact .inr (by omega)
  · intro fits x here
    omega

end Transfer

open Transfer

/-- The loop of `readi` and `writei`, with `n` bytes to go.  `bmap` panics on a block
number that is too large; it finds or allocates every other block. -/
def copyLoop (total : Int) (addr off n : Nat) : Transfer :=
  if n = 0 then stop (some total)
  else if off / bsize ≥ maxfile then stop none
  else
    let m := min n (bsize - off % bsize)
    copy addr m (copyLoop total (addr + m) (off + m) (n - m))
  termination_by n
  decreasing_by
    have : off % bsize < bsize := Nat.mod_lt _ (by decide)
    omega

/-- The signed value of a word. -/
def toInt (word : Nat) : Int := (word + 2 ^ 31) % 2 ^ 32 - 2 ^ 31

/-- `consoleread`, with `n` bytes still wanted of the `target` asked for and the bytes
that are yet to be typed.  A process that waits for more is killed in the end. -/
def consoleread (target : Nat) : Nat → Nat → List UInt8 → Transfer
  | _, 0, _ => stop (some target)
  | _, _ + 1, [] => stop (some (-1))
  | dst, n + 1, c :: input =>
    if c = 4 then stop (some (target - (n + 1)))
    else if c = 10 then copy dst 1 (stop (some (target - n)))
    else copy dst 1 (consoleread target (dst + 1) n input)

def consolewrite (buf : Nat) (n : Int) : Transfer :=
  if 0 < n then copy buf n.toNat (stop (some n)) else stop (some n)

namespace Inode

variable (ip : Inode)

/-- The check that `readi` and `writei` share: the offset is beyond the end, or the end
of the transfer wraps around. -/
def Refuses (off : Uint) (n : Int) : Prop :=
  off > ip.size ∨ toUint (off + toUint n) < off

instance (off : Uint) (n : Int) : Decidable (ip.Refuses off n) :=
  inferInstanceAs (Decidable (_ ∨ _))

/-- `readi`.  The input is what a read of the console gets. -/
def readi (input : List UInt8) (dst : Nat) (off : Uint) (n : Int) : Transfer :=
  if ip.type = tDev then
    if ip.major = console then
      if 0 < n then consoleread n.toNat dst n.toNat input else stop (some 0)
    else stop (some (-1))
  else if ip.Refuses off n then stop (some (-1))
  else
    let n := if toUint (off + toUint n) > ip.size then ip.size - off.val else toUint n
    copyLoop (toInt n) dst off n

/-- `writei`.  The limit that the largest file sets is an unsigned difference. -/
def writei (src : Nat) (off : Uint) (n : Int) : Transfer :=
  if ip.type = tDev then
    if ip.major = console then consolewrite src n else stop (some (-1))
  else if ip.Refuses off n then stop (some (-1))
  else
    let n :=
      if toUint (off + toUint n) > maxfile * bsize then toUint (maxfile * bsize - off)
      else toUint n
    copyLoop (toInt n) src off n

end Inode

/-! ## The addresses touched -/

/-- The bytes the loop copies: those asked for, up to the end of the largest file. -/
def copied (off n : Nat) : Nat := min n (maxfile * bsize - off)

theorem copied_round {off n : Nat} (more : n ≠ 0) (block : off / bsize < maxfile) :
    let m := min n (bsize - off % bsize)
    0 < m ∧ copied off n = m + copied (off + m) (n - m) := by
  simp only [copied, show bsize = 512 from rfl, show maxfile = 140 from rfl] at block ⊢
  omega

theorem touched_copyLoop {addr off n x : Nat} :
    Touched (copyLoop total addr off n).pieces x ↔ addr ≤ x ∧ x < addr + copied off n := by
  induction n using Nat.strong_induction_on generalizing addr off with
  | _ n ih =>
    rw [copyLoop]
    by_cases done : n = 0
    · simp [done, copied, stop]
    by_cases beyond : off / bsize ≥ maxfile
    · have past : maxfile * bsize ≤ off :=
        le_trans (Nat.mul_le_mul_right bsize beyond) (Nat.div_mul_le_self off bsize)
      simp [done, beyond, copied, stop, Nat.sub_eq_zero_of_le past]
    · obtain ⟨positive, total⟩ := copied_round done (not_le.mp beyond)
      rw [if_neg done, if_neg beyond, copy, touched_cons, ih _ (by omega), total]
      omega

theorem result_copyLoop {addr off n : Nat} (fits : off + n ≤ maxfile * bsize) :
    (copyLoop total addr off n).result = some total := by
  induction n using Nat.strong_induction_on generalizing addr off with
  | _ n ih =>
    rw [copyLoop]
    by_cases done : n = 0
    · simp [done, stop]
    · have block : ¬off / bsize ≥ maxfile := by
        simp only [bsize, show maxfile = 140 from rfl] at fits ⊢
        omega
      have part : 0 < bsize - off % bsize := Nat.sub_pos_of_lt (Nat.mod_lt _ (by decide))
      rw [if_neg done, if_neg block]
      exact ih _ (by omega) (by omega)

theorem inside_consoleread {target dst n sz : Nat} {input : List UInt8}
    (fits : dst + n ≤ sz) : (consoleread target dst n input).Inside sz := by
  induction input generalizing dst n with
  | nil => cases n <;> exact inside_stop
  | cons c input ih =>
    cases n with
    | zero => exact inside_stop
    | succ n =>
      rw [consoleread]
      split_ifs
      · exact inside_stop
      · exact inside_copy (by omega) inside_stop
      · exact inside_copy (by omega) (ih (by omega))

theorem inside_consolewrite {buf sz : Nat} {n : Int} (fits : 0 ≤ n → buf + n.toNat ≤ sz) :
    (consolewrite buf n).Inside sz := by
  rw [consolewrite]
  split_ifs with positive
  · exact inside_copy (fits positive.le) inside_stop
  · exact inside_stop

namespace Inode

variable {ip : Inode} {off : Uint} {n : Int} {addr sz : Nat} {input : List UInt8}

theorem copied_readi (passes : ¬ip.Refuses off n) :
    copied off (if toUint (off + toUint n) > ip.size then ip.size - off.val else toUint n) =
      min (toUint n) (min ip.size.val (maxfile * bsize) - off) := by
  have offset := off.isLt
  simp only [Refuses, toUint, copied, gt_iff_lt, Fin.lt_def, not_or, not_lt] at passes ⊢
  split_ifs <;> omega

theorem copied_writei :
    copied off (if toUint (off + toUint n) > maxfile * bsize
      then toUint (maxfile * bsize - off) else toUint n) =
      min (toUint n) (maxfile * bsize - off) := by
  have offset := off.isLt
  simp only [toUint, copied, gt_iff_lt, show maxfile * bsize = 71680 from rfl,
    show (maxfile * bsize : Int) = 71680 from rfl]
  split_ifs <;> omega

theorem inside_readi (disk : ip.type ≠ tDev) :
    (ip.readi input addr off n).Inside sz ↔ ip.Refuses off n ∨
      min (toUint n) (min ip.size.val (maxfile * bsize) - off) = 0 ∨
      addr + min (toUint n) (min ip.size.val (maxfile * bsize) - off) ≤ sz := by
  rw [readi, if_neg disk]
  by_cases refused : ip.Refuses off n
  · simp [refused, inside_stop]
  · rw [if_neg refused, inside_iff fun _ => touched_copyLoop, copied_readi refused]
    simp [refused]

theorem inside_writei (disk : ip.type ≠ tDev) :
    (ip.writei addr off n).Inside sz ↔ ip.Refuses off n ∨
      min (toUint n) (maxfile * bsize - off) = 0 ∨
      addr + min (toUint n) (maxfile * bsize - off) ≤ sz := by
  rw [writei, if_neg disk]
  by_cases refused : ip.Refuses off n
  · simp [refused, inside_stop]
  · rw [if_neg refused, inside_iff fun _ => touched_copyLoop, copied_writei]
    simp [refused]

theorem inside_readi_device (device : ip.type = tDev) (fits : 0 ≤ n → addr + n.toNat ≤ sz) :
    (ip.readi input addr off n).Inside sz := by
  rw [readi, if_pos device]
  split_ifs with _ positive
  · exact inside_consoleread (fits positive.le)
  · exact inside_stop
  · exact inside_stop

theorem inside_writei_device (device : ip.type = tDev)
    (fits : 0 ≤ n → addr + n.toNat ≤ sz) : (ip.writei addr off n).Inside sz := by
  rw [writei, if_pos device]
  split_ifs
  · exact inside_consolewrite fits
  · exact inside_stop

end Inode

end Xv6
