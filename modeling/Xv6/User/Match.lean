import Xv6.Lib.Numerals

/-!
# The pattern matcher of grep

`match`, `matchhere` and `matchstar` of `grep.c`, on strings without their NUL, and what they
are for: a pattern is a sequence of items, and a text matches if a part of it is in the
language of the items.
-/

namespace Xv6.Grep

/-- A character of a string: a byte other than NUL. -/
structure Chr where
  byte : UInt8
  nonzero : byte ≠ 0
  deriving DecidableEq

def caret : Chr := ⟨94, by decide⟩
def dollar : Chr := ⟨36, by decide⟩
def star : Chr := ⟨42, by decide⟩
def dot : Chr := ⟨46, by decide⟩

/-- `matchstar(c, re, text)`, where `here` is `matchhere(re, ·)`. -/
def matchstar (c : Chr) (here : List Chr → Bool) : List Chr → Bool
  | [] => here []
  | t :: text => here (t :: text) || (t == c || c == dot) && matchstar c here text

def matchhere : List Chr → List Chr → Bool
  | [] => fun _ => true
  | [c] => fun text =>
    if c = dollar then text.isEmpty
    else
      match text with
      | [] => false
      | t :: _ => c == dot || c == t
  | c :: next :: re => fun text =>
    if next = star then matchstar c (matchhere re) text
    else
      match text with
      | [] => false
      | t :: text => (c == dot || c == t) && matchhere (next :: re) text

/-- The loop of `match`. -/
def search (re : List Chr) : List Chr → Bool
  | [] => matchhere re []
  | t :: text => matchhere re (t :: text) || search re text

def match_ (re text : List Chr) : Bool :=
  if re.head? = some caret then matchhere re.tail text else search re text

/-! ## The language of a pattern -/

/-- A character that stands once, or any number of times. -/
inductive Item where
  | one (c : Chr)
  | many (c : Chr)
  deriving DecidableEq

/-- The items of a pattern, from left to right. -/
def items : List Chr → List Item
  | [] => []
  | [c] => [.one c]
  | c :: next :: re => if next = star then .many c :: items re else .one c :: items (next :: re)

/-- What a character of a pattern stands for. -/
def Stands (c t : Chr) : Prop := c = dot ∨ c = t

def Item.Language : Item → List Chr → Prop
  | .one c, word => ∃ t, word = [t] ∧ Stands c t
  | .many c, word => ∀ t ∈ word, Stands c t

def Language : List Item → List Chr → Prop
  | [], word => word = []
  | item :: rest, word => ∃ left right, word = left ++ right ∧ item.Language left ∧
    Language rest right

/-- The items end with an unstarred `$`. -/
def AtEnd (items : List Item) : Prop := items.getLast? = some (.one dollar)

instance (items : List Item) : Decidable (AtEnd items) :=
  inferInstanceAs (Decidable (_ = _))

/-- The items without the mark of the end. -/
def body (items : List Item) : List Item := if AtEnd items then items.dropLast else items

/-- `text` starts with a word of the items, and ends with it if they say so. -/
def Starts (items : List Item) (text : List Chr) : Prop :=
  ∃ word rest, text = word ++ rest ∧ Language (body items) word ∧ (AtEnd items → rest = [])

/-- A part of `text` is in the language of the pattern. -/
def Accepts (re text : List Chr) : Prop :=
  ∃ before after, text = before ++ after ∧
    if re.head? = some caret then before = [] ∧ Starts (items re.tail) after
    else Starts (items re) after

variable {c t : Chr} {re text : List Chr} {item : Item} {rest : List Item}

theorem starts_nil : Starts [] text := ⟨[], text, rfl, rfl, by simp [AtEnd]⟩

theorem starts_dollar : Starts [.one dollar] text ↔ text = [] := by
  constructor
  · rintro ⟨word, rest, rfl, language, ends⟩
    obtain rfl : word = [] := language
    exact ends rfl
  · rintro rfl
    exact ⟨[], [], rfl, rfl, fun _ => rfl⟩

theorem starts_cons (inner : rest ≠ [] ∨ item ≠ .one dollar) : Starts (item :: rest) text ↔
    ∃ left right, text = left ++ right ∧ item.Language left ∧ Starts rest right := by
  have ends : AtEnd (item :: rest) ↔ AtEnd rest := by
    cases rest with
    | nil => simpa [AtEnd] using inner
    | cons next rest => simp [AtEnd, List.getLast?_cons_cons]
  have bodies : body (item :: rest) = item :: body rest := by
    rw [body, body, if_congr ends rfl rfl]
    split_ifs with last
    · cases rest with
      | nil => simp [AtEnd] at last
      | cons next rest => rfl
    · rfl
  rw [Starts, ends, bodies]
  constructor
  · rintro ⟨_, after, rfl, ⟨left, right, rfl, one, language⟩, last⟩
    exact ⟨left, right ++ after, by simp, one, right, after, rfl, language, last⟩
  · rintro ⟨left, _, rfl, one, right, after, rfl, language, last⟩
    exact ⟨left ++ right, after, by simp, ⟨left, right, rfl, one, language⟩, last⟩

theorem starts_one (inner : rest ≠ [] ∨ c ≠ dollar) : Starts (.one c :: rest) text ↔
    ∃ t right, text = t :: right ∧ Stands c t ∧ Starts rest right := by
  rw [starts_cons (inner.imp_right fun other same => other (Item.one.inj same))]
  constructor
  · rintro ⟨_, right, rfl, ⟨t, rfl, stands⟩, starts⟩
    exact ⟨t, right, rfl, stands, starts⟩
  · rintro ⟨t, right, rfl, stands, starts⟩
    exact ⟨[t], right, rfl, ⟨t, rfl, stands⟩, starts⟩

theorem items_ne_nil : items (c :: re) ≠ [] := by
  cases re with
  | nil => simp [items]
  | cons next re =>
    rw [items]
    split_ifs <;> simp

theorem stands_iff : (c == dot || c == t) = true ↔ Stands c t := by simp [Stands]

theorem matchstar_iff {here : List Chr → Bool} : matchstar c here text = true ↔
    ∃ left right, text = left ++ right ∧ (∀ t ∈ left, Stands c t) ∧ here right = true := by
  induction text with
  | nil => simp [matchstar]
  | cons t text ih =>
    have stands : (t == c || c == dot) = true ↔ Stands c t := by
      simp only [Stands, Bool.or_eq_true, beq_iff_eq]
      rw [or_comm, eq_comm (a := t)]
    rw [matchstar, Bool.or_eq_true, Bool.and_eq_true, ih, stands]
    constructor
    · rintro (now | ⟨one, left, right, rfl, all, later⟩)
      · exact ⟨[], t :: text, rfl, by simp, now⟩
      · exact ⟨t :: left, right, rfl, List.forall_mem_cons.mpr ⟨one, all⟩, later⟩
    · rintro ⟨left, right, split, all, matched⟩
      cases left with
      | nil => exact .inl (split ▸ matched)
      | cons first left =>
        obtain ⟨rfl, rfl⟩ := List.cons.inj split
        exact .inr ⟨all t (.head _), left, right, rfl, fun u more => all u (.tail _ more), matched⟩

theorem matchhere_iff : matchhere re text = true ↔ Starts (items re) text := by
  induction re using items.induct generalizing text with
  | case1 => simp [matchhere, items, starts_nil]
  | case2 c =>
    simp only [matchhere, items]
    by_cases last : c = dollar
    · simp [last, starts_dollar]
    · rw [if_neg last, starts_one (.inr last)]
      cases text with
      | nil => simp
      | cons t text => simpa [starts_nil] using stands_iff
  | case3 c re ih =>
    have inner : Item.many c ≠ .one dollar := by simp
    simp only [matchhere, items, if_true, matchstar_iff, ih]
    exact (starts_cons (.inr inner)).symm
  | case4 c next re isStar ih =>
    simp only [matchhere, items, if_neg isStar]
    rw [starts_one (.inl items_ne_nil)]
    cases text with
    | nil => simp
    | cons t text => simp [← ih, ← stands_iff]

theorem search_iff : search re text = true ↔
    ∃ before after, text = before ++ after ∧ matchhere re after = true := by
  induction text with
  | nil => simp [search]
  | cons t text ih =>
    rw [search, Bool.or_eq_true, ih]
    constructor
    · rintro (now | ⟨before, after, rfl, later⟩)
      · exact ⟨[], _, rfl, now⟩
      · exact ⟨t :: before, after, rfl, later⟩
    · rintro ⟨before, after, split, matched⟩
      cases before with
      | nil => exact .inl (split ▸ matched)
      | cons first before =>
        obtain ⟨rfl, rfl⟩ := List.cons.inj split
        exact .inr ⟨before, after, rfl, matched⟩

/-- `match` implements the meaning of patterns. -/
theorem match_iff (re text : List Chr) : match_ re text = true ↔ Accepts re text := by
  rw [match_, Accepts]
  split_ifs with anchored
  · rw [matchhere_iff]
    constructor
    · intro starts
      exact ⟨[], text, rfl, rfl, starts⟩
    · rintro ⟨_, after, rfl, rfl, starts⟩
      exact starts
  · simp only [search_iff, matchhere_iff]

end Xv6.Grep
