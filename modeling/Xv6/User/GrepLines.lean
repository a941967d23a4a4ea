import Xv6.User.Match

/-!
# The lines that grep prints

The loop of `grep`.  A partial line at the end of the buffer is moved to its front, and the next
`read` puts its bytes behind it.  The buffer is then searched as a C string, although nothing
ends it behind the bytes that were read.
-/

namespace Xv6.Grep

def eol : UInt8 := 10

/-- `sizeof(buf)` -/
def bufsize : Nat := 1024

def bytes (w : List Chr) : List UInt8 := w.map Chr.byte

/-- The result of the inner loop: the buffer, what was written, and how far `p` got. -/
structure Scanned where
  buf : List UInt8
  out : List UInt8
  p : Nat

/-- The inner loop from `p` on, where `w` are the bytes that `strchr` has passed.  The memory
behind the buffer is zero. -/
def scan (re : List Chr) : List Chr → List UInt8 → Scanned
  | w, [] => ⟨bytes w, [], 0⟩
  | w, b :: text =>
    if nonzero : b ≠ 0 then
      if b = eol then
        let s := scan re [] text
        if match_ re w then
          ⟨bytes w ++ eol :: s.buf, bytes w ++ eol :: s.out, w.length + 1 + s.p⟩
        else ⟨bytes w ++ 0 :: s.buf, s.out, w.length + 1 + s.p⟩
      else scan re (w ++ [⟨b, nonzero⟩]) text
    else ⟨bytes w ++ b :: text, [], 0⟩

/-- What `read` returns for the space behind the first `m` bytes: at least one byte, if there is
one and room for it, and at most as many as `k` says. -/
def readSize (k : Nat → Nat) (m : Nat) (rest : List UInt8) : Nat :=
  min (max 1 (k rest.length)) (min (bufsize - m) rest.length)

/-- The outer loop with `rest` still to be read.  `none` is a fill index that gets negative. -/
def loop (re : List Chr) (k : Nat → Nat) : Nat → List UInt8 → Nat → List UInt8 →
    Option (List UInt8)
  | 0, _, _, _ => none
  | fuel + 1, buf, m, rest =>
    let n := readSize k m rest
    if n = 0 then some []
    else
      let s := scan re [] (buf.take m ++ rest.take n ++ buf.drop (m + n))
      if m + n < s.p then none
      else
        let m' := if s.p = 0 then 0 else m + n - s.p
        (loop re k fuel ((s.buf.drop s.p).take m' ++ s.buf.drop m') m' (rest.drop n)).map
          (s.out ++ ·)

def text (lines : List (List Chr)) : List UInt8 :=
  lines.flatMap fun w => bytes w ++ [eol]

/-- Lines without newline that are shorter than the buffer. -/
def Proper (lines : List (List Chr)) : Prop :=
  ∀ w ∈ lines, w.length < bufsize ∧ ∀ c ∈ w, c.byte ≠ eol

/-- The bytes behind the last newline. -/
def lastPart (l : List UInt8) : List UInt8 := (l.reverse.takeWhile (· ≠ eol)).reverse

/-- Every `read` returns a newline, and at least as many bytes, together with the partial line
`t` before them, as the complete lines in the buffer had before (`used`). -/
inductive Kept (k : Nat → Nat) : List UInt8 → Nat → List UInt8 → Prop where
  | done (t : List UInt8) (used : Nat) : Kept k t used []
  | round {t c rest : List UInt8} {used : Nat} (size : readSize k t.length (c ++ rest) = c.length)
      (line : eol ∈ c) (covers : used ≤ t.length + c.length)
      (later : Kept k (lastPart (t ++ c)) (t.length + c.length - (lastPart (t ++ c)).length) rest) :
      Kept k t used (c ++ rest)

variable {re v w : List Chr} {k : Nat → Nat} {lines ws : List (List Chr)}
  {buf t x y r c rest : List UInt8} {used fuel : Nat}

theorem text_cons : text (w :: lines) = bytes w ++ eol :: text lines := by simp [text]

theorem nonzero_of_mem_text {b : UInt8} (member : b ∈ text lines) : b ≠ 0 := by
  simp only [text, bytes, List.mem_flatMap, List.mem_append, List.mem_map, List.mem_singleton]
    at member
  obtain ⟨w, -, ⟨c, -, rfl⟩ | rfl⟩ := member
  · exact c.nonzero
  · decide

theorem text_eq_concat (some : ws ≠ []) : ∃ y, text ws = y ++ [eol] := by
  obtain ⟨init, w, rfl⟩ := (List.eq_nil_or_concat ws).resolve_left some
  exact ⟨text init ++ bytes w, by simp [text]⟩

theorem not_mem_bytes (proper : Proper (w :: lines)) : eol ∉ bytes w := by
  intro member
  obtain ⟨c, inside, same⟩ := List.mem_map.mp member
  exact (proper w (.head _)).2 c inside same

theorem lastPart_eq (none : eol ∉ r) : lastPart (x ++ eol :: r) = r := by
  have all : ∀ b ∈ r.reverse, decide (b ≠ eol) = true := by
    intro b member
    exact decide_eq_true fun same => none (same ▸ List.mem_reverse.mp member)
  simp only [lastPart, List.reverse_append, List.reverse_cons, List.append_assoc,
    List.takeWhile_append_of_pos all]
  simp

/-- A cut through the lines: the lines before it, the part of a line and the lines from it on. -/
theorem exists_cut (proper : Proper lines) (n : Nat) : ∃ ws us t, lines = ws ++ us ∧
    (text lines).take n = text ws ++ t ∧ t ++ (text lines).drop n = text us ∧ eol ∉ t ∧
    t.length < bufsize := by
  induction lines generalizing n with
  | nil => exact ⟨[], [], [], by simp [text, bufsize]⟩
  | cons w lines ih =>
    by_cases inside : n ≤ w.length
    · refine ⟨[], w :: lines, (bytes w).take n, rfl, ?_, ?_, ?_, ?_⟩
      · rw [text_cons, List.take_append_of_le_length (by simpa [bytes] using inside)]
        rfl
      · rw [text_cons, List.drop_append_of_le_length (by simpa [bytes] using inside),
          ← List.append_assoc, List.take_append_drop]
      · exact fun member => not_mem_bytes proper (List.mem_of_mem_take member)
      · have := (proper w (.head _)).1
        simp only [List.length_take, bytes, List.length_map]
        omega
    · obtain ⟨ws, us, t, rfl, before, after, none, short⟩ :=
        ih (fun w more => proper w (.tail _ more)) (n - (w.length + 1))
      have front : (bytes w ++ [eol]).length + (n - (w.length + 1)) = n := by
        simp only [bytes, List.length_append, List.length_map, List.length_singleton]
        omega
      have split : text (w :: (ws ++ us)) = bytes w ++ [eol] ++ text (ws ++ us) := by
        simp [text_cons]
      refine ⟨w :: ws, us, t, rfl, ?_, ?_, none, short⟩
      · rw [split, ← front, List.take_length_add_append, before, text_cons]
        simp
      · rw [split, ← front, List.drop_length_add_append, after]

/-! ## The inner loop -/

theorem scan_none (none : eol ∉ r) : scan re w r = ⟨bytes w ++ r, [], 0⟩ := by
  induction r generalizing w with
  | nil => simp [scan]
  | cons b r ih =>
    obtain ⟨other, none⟩ := not_or.mp (mt List.mem_cons.mpr none)
    rw [scan]
    split_ifs with nonzero isEol
    · exact absurd isEol.symm other
    · exact absurd isEol.symm other
    · rw [ih none]
      simp [bytes]
    · rfl

theorem scan_line (proper : eol ∉ bytes w) : scan re v (bytes w ++ eol :: r) =
    if match_ re (v ++ w) then ⟨bytes (v ++ w) ++ eol :: (scan re [] r).buf,
      bytes (v ++ w) ++ eol :: (scan re [] r).out, (v ++ w).length + 1 + (scan re [] r).p⟩
    else ⟨bytes (v ++ w) ++ 0 :: (scan re [] r).buf, (scan re [] r).out,
      (v ++ w).length + 1 + (scan re [] r).p⟩ := by
  induction w generalizing v with
  | nil => simp [bytes, scan, show eol ≠ 0 by decide]
  | cons c w ih =>
    obtain ⟨other, proper⟩ := not_or.mp (mt List.mem_cons.mpr proper)
    change scan re v (c.byte :: (bytes w ++ eol :: r)) = _
    rw [scan, dif_pos c.nonzero, if_neg (Ne.symm other), ih proper, List.append_assoc]
    rfl

theorem match_nil (w : List Chr) : match_ [] w = true := by
  cases w <;> simp [match_, search, matchhere]

/-- The complete lines in the buffer, in front of bytes without newline. -/
theorem scan_text (re : List Chr) (proper : Proper ws) (none : eol ∉ r) :
    ∃ marked, marked.length = (text ws).length ∧ (re = [] → marked = text ws) ∧
      scan re [] (text ws ++ r) =
        ⟨marked ++ r, text (ws.filter (match_ re)), (text ws).length⟩ := by
  induction ws with
  | nil => exact ⟨[], rfl, fun _ => rfl, scan_none none⟩
  | cons w ws ih =>
    obtain ⟨marked, length, all, scanned⟩ := ih fun w more => proper w (.tail _ more)
    rw [text_cons, List.append_assoc, List.cons_append, scan_line (not_mem_bytes proper), scanned]
    simp only [List.nil_append]
    split_ifs with matched
    · refine ⟨bytes w ++ eol :: marked, by simp [length], fun isNil => by rw [all isNil], ?_⟩
      simp [matched, text_cons, bytes]
      omega
    · refine ⟨bytes w ++ 0 :: marked, by simp [length], ?_, ?_⟩
      · rintro rfl
        exact absurd (match_nil w) matched
      · simp [matched, bytes]
        omega

/-- The buffer before a `read`: the partial line, and behind it no newline from `used` on. -/
structure Inv (buf t rest : List UInt8) (lines : List (List Chr)) (used : Nat) : Prop where
  front : buf.take t.length = t
  whole : t ++ rest = text lines
  noLine : eol ∉ t
  short : t.length < bufsize
  stale : eol ∉ buf.drop used
  proper : Proper lines

/-- The newline of the last complete line is still in the buffer, and can be reached. -/
def Ready (buf t : List UInt8) (used : Nat) : Prop :=
  t.length < used → ∃ a b, buf = a ++ eol :: b ∧ a.length + 1 = used ∧ ∀ x ∈ a, x ≠ 0

theorem Inv.round (inv : Inv buf t (c ++ rest) lines used) (re : List Chr) (fuel : Nat)
    (size : readSize k t.length (c ++ rest) = c.length) (line : eol ∈ c)
    (covers : used ≤ t.length + c.length) : ∃ ws us buf', lines = ws ++ us ∧
      t.length + c.length = (text ws).length + (lastPart (t ++ c)).length ∧
      Inv buf' (lastPart (t ++ c)) rest us (text ws).length ∧
      (re = [] → Ready buf' (lastPart (t ++ c)) (text ws).length) ∧
      loop re k (fuel + 1) buf t.length (c ++ rest) =
        (loop re k fuel buf' (lastPart (t ++ c)).length rest).map
          (text (ws.filter (match_ re)) ++ ·) := by
  obtain ⟨ws, us, t', rfl, before, after, none, short⟩ :=
    exists_cut inv.proper (t.length + c.length)
  rw [← inv.whole, List.take_length_add_append, List.take_left] at before
  rw [← inv.whole, List.drop_length_add_append, List.drop_left] at after
  have nonempty : ws ≠ [] := by
    rintro rfl
    have member := List.mem_append_right t line
    rw [before] at member
    exact none member
  obtain ⟨y, ends⟩ := text_eq_concat nonempty
  have last : lastPart (t ++ c) = t' := by
    rw [before, ends, List.append_assoc]
    exact lastPart_eq none
  have total : t.length + c.length = (text ws).length + t'.length := by
    simpa using congrArg List.length before
  have positive : 0 < (text ws).length := by simp [ends]
  have stale : eol ∉ t' ++ buf.drop (t.length + c.length) := by
    rw [List.mem_append, not_or]
    exact ⟨none, fun member => inv.stale (List.drop_subset_drop_left _ covers member)⟩
  obtain ⟨marked, length, all, scanned⟩ :=
    scan_text re (fun w member => inv.proper w (List.mem_append_left us member)) stale
  generalize behind : t' ++ buf.drop (t.length + c.length) = r at scanned stale
  rw [last]
  refine ⟨ws, us, t' ++ (marked ++ r).drop t'.length, rfl, total, ?_, fun isNil less => ?_, ?_⟩
  · refine ⟨List.take_left, after, none, short, fun member => ?_,
      fun w member => inv.proper w (List.mem_append_right ws member)⟩
    rw [List.drop_append, List.drop_drop, List.mem_append] at member
    obtain inside | inside := member
    · exact none (List.mem_of_mem_drop inside)
    · rw [List.drop_append, List.drop_eq_nil_of_le (by omega), List.nil_append] at inside
      exact stale (List.mem_of_mem_drop inside)
  · have small : t'.length ≤ y.length := by
      rw [ends, List.length_append, List.length_singleton] at less
      omega
    refine ⟨t' ++ y.drop t'.length, r, ?_, ?_, fun b member => ?_⟩
    · rw [all isNil, ends, List.append_assoc, List.drop_append_of_le_length small]
      simp
    · rw [ends]
      simp only [List.length_append, List.length_drop, List.length_singleton]
      omega
    · obtain inside | inside := List.mem_append.mp member
      · exact nonzero_of_mem_text (after ▸ List.mem_append_left rest inside)
      · exact nonzero_of_mem_text (ends ▸ List.mem_append_left _ (List.mem_of_mem_drop inside))
  · have filled : buf.take t.length ++ c ++ buf.drop (t.length + c.length) = text ws ++ r := by
      rw [inv.front, before, List.append_assoc, behind]
    have some : c.length ≠ 0 := fun empty => by simp [List.length_eq_zero_iff.mp empty] at line
    have moved : (marked ++ r).drop (text ws).length = r := by rw [← length, List.drop_left]
    rw [loop]
    simp only [size, List.take_left, List.drop_left, filled, scanned, if_neg some, moved,
      if_neg positive.ne']
    rw [if_neg (by omega), show t.length + c.length - (text ws).length = t'.length by omega,
      ← behind, List.take_left]

end Xv6.Grep
