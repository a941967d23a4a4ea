import Xv6.Lib.Numerals

/-!
# The MP configuration table

`mp.c`: looking for the table, checking it, and the loop of `mpinit` over its entries.
Addresses have 32 bits and wrap around.  `written` are the elements of `cpus` that the loop
writes to.
-/

namespace Xv6.MpTable

abbrev Memory := Nat → UInt8

def ncpuMax : Nat := 8

/-- The little-endian number in `n` bytes. -/
def load (mem : Memory) (addr : Nat) : Nat → Nat
  | 0 => 0
  | n + 1 => (mem addr).toNat + 256 * load mem ((addr + 1) % 2 ^ 32) n

def sum (mem : Memory) (addr len : Nat) : UInt8 :=
  (List.range len).foldl (fun acc i => acc + mem ((addr + i) % 2 ^ 32)) 0

/-- `memcmp(p, text, n) == 0`. -/
def same (mem : Memory) (p : Nat) (text : List UInt8) : Bool :=
  (List.range text.length).map (fun i => mem ((p + i) % 2 ^ 32)) == text

/-- The loop of `mpsearch1`, in steps of `sizeof(struct mp)`. -/
def searchLoop (mem : Memory) (e : Nat) : Nat → Nat → Option Nat
  | 0, _ => none
  | rounds + 1, p =>
    if p < e then
      if same mem p [95, 77, 80, 95] && sum mem p 16 == 0 then some p
      else searchLoop mem e rounds ((p + 16) % 2 ^ 32)
    else none

def mpsearch1 (mem : Memory) (addr len : Nat) : Option Nat :=
  searchLoop mem ((addr + len) % 2 ^ 32) (len / 16 + 1) addr

def mpsearch (mem : Memory) : Option Nat :=
  let ebda := load mem 0x40e 2 * 16
  let first :=
    if ebda ≠ 0 then mpsearch1 mem ebda 1024
    else mpsearch1 mem ((load mem 0x413 2 * 1024 + 2 ^ 32 - 1024) % 2 ^ 32) 1024
  first.or (mpsearch1 mem 0xf0000 0x10000)

/-- `mpconfig`: the floating pointer structure and the table. -/
def mpconfig (mem : Memory) : Option (Nat × Nat) :=
  match mpsearch mem with
  | none => none
  | some mp =>
    let conf := load mem ((mp + 4) % 2 ^ 32) 4
    let version := mem ((conf + 6) % 2 ^ 32)
    if conf = 0 ∨ same mem conf [80, 67, 77, 80] = false ∨ version ≠ 1 ∧ version ≠ 4 ∨
      sum mem conf (load mem ((conf + 4) % 2 ^ 32) 2) ≠ 0 then none
    else some (mp, conf)

structure MpState where
  p : Nat
  ismp : Bool
  ncpu : Nat
  bcpu : Nat
  ioapicid : UInt8
  written : List Nat
  deriving DecidableEq

/-- What is added to `p` for an entry of a known type. -/
def entrySize (type : UInt8) : Nat := if type = 0 then 20 else 8

/-- One round of the loop of `mpinit`. -/
def scanEntry (mem : Memory) (s : MpState) : MpState :=
  let field (i : Nat) := mem ((s.p + i) % 2 ^ 32)
  let type := mem s.p
  let next := (s.p + entrySize type) % 2 ^ 32
  if type = 0 then
    { s with
      p := next
      ismp := s.ismp && s.ncpu == (field 1).toNat
      bcpu := if field 3 &&& 2 ≠ 0 then s.ncpu else s.bcpu
      written := s.written ++ [s.ncpu]
      ncpu := s.ncpu + 1 }
  else if type = 2 then { s with p := next, ioapicid := field 1 }
  else if type = 1 ∨ type = 3 ∨ type = 4 then { s with p := next }
  else { s with ismp := false }

/-- The loop, for a number of rounds; `none` if it has not ended. -/
def scanLoop (mem : Memory) (e : Nat) : Nat → MpState → Option MpState
  | 0, _ => none
  | rounds + 1, s => if s.p < e then scanLoop mem e rounds (scanEntry mem s) else some s

/-- Where the entries of a table start and end. -/
def firstEntry (conf : Nat) : Nat := (conf + 44) % 2 ^ 32

def tableEnd (mem : Memory) (conf : Nat) : Nat :=
  (conf + load mem ((conf + 4) % 2 ^ 32) 2) % 2 ^ 32

/-- `mpinit`, with a number of rounds for its loop. -/
def mpinit (mem : Memory) (rounds : Nat) : Option MpState :=
  match mpconfig mem with
  | none => some ⟨0, false, 0, 0, 0, []⟩
  | some (_, conf) =>
    (scanLoop mem (tableEnd mem conf) rounds ⟨firstEntry conf, true, 0, 0, 0, []⟩).map fun s =>
      if s.ismp then s else { s with ncpu := 1, ioapicid := 0 }

/-- The loop of `mpinit` ends, and writes to elements of `cpus` only. -/
def Bounded (mem : Memory) : Prop :=
  ∃ rounds s, mpinit mem rounds = some s ∧ ∀ i ∈ s.written, i < ncpuMax

/-- From `p` to the end, the table has entries of these types, all of them known. -/
def Entries (mem : Memory) (e : Nat) : Nat → List UInt8 → Prop
  | p, [] => e ≤ p
  | p, type :: rest => p < e ∧ mem p = type ∧ type ≤ 4 ∧
    Entries mem e ((p + entrySize type) % 2 ^ 32) rest

variable {mem : Memory} {e : Nat} {s s' : MpState} {types : List UInt8}

theorem known_cases {type : UInt8} (known : type ≤ 4) :
    type = 0 ∨ type = 2 ∨ type = 1 ∨ type = 3 ∨ type = 4 := by
  have small : type.toNat ≤ 4 := known
  simp only [← UInt8.toNat_inj, UInt8.reduceToNat]
  omega

theorem scanEntry_known (known : mem s.p ≤ 4) :
    (scanEntry mem s).p = (s.p + entrySize (mem s.p)) % 2 ^ 32 ∧
      (scanEntry mem s).written = s.written ++ List.range' s.ncpu ([mem s.p].count 0) ∧
      (scanEntry mem s).ncpu = s.ncpu + [mem s.p].count 0 := by
  rcases known_cases known with type | type | type | type | type <;> simp [scanEntry, type]

theorem scanEntry_unknown (unknown : ¬mem s.p ≤ 4) :
    scanEntry mem s = { s with ismp := false } := by
  have other : ∀ type : UInt8, type ≤ 4 → mem s.p ≠ type := fun type known same =>
    unknown (same ▸ known)
  simp [scanEntry, other 0 (by decide), other 1 (by decide), other 2 (by decide),
    other 3 (by decide), other 4 (by decide)]

theorem range'_cons_count (n : Nat) (type : UInt8) (types : List UInt8) :
    List.range' n ([type].count 0) ++ List.range' (n + [type].count 0) (types.count 0) =
      List.range' n ((type :: types).count 0) := by
  rw [List.range'_append_1, ← List.count_append, List.singleton_append]

theorem Entries.scanLoop (entries : Entries mem e s.p types) :
    ∃ s', scanLoop mem e (types.length + 1) s = some s' ∧
      s'.written = s.written ++ List.range' s.ncpu (types.count 0) := by
  induction types generalizing s with
  | nil => exact ⟨s, if_neg (not_lt.mpr entries), by simp⟩
  | cons type rest ih =>
    obtain ⟨inside, rfl, known, entries⟩ := entries
    obtain ⟨p, written, ncpu⟩ := scanEntry_known known
    rw [← p] at entries
    obtain ⟨s', ends, after⟩ := ih entries
    refine ⟨s', (if_pos inside).trans ends, ?_⟩
    rw [after, written, ncpu, List.append_assoc, range'_cons_count]

theorem entries_of_scanLoop {rounds : Nat} (ends : scanLoop mem e rounds s = some s') :
    ∃ types, Entries mem e s.p types ∧
      s'.written = s.written ++ List.range' s.ncpu (types.count 0) := by
  induction rounds generalizing s with
  | zero => cases ends
  | succ rounds ih =>
    rw [scanLoop] at ends
    split_ifs at ends with inside
    · obtain ⟨types, entries, after⟩ := ih ends
      by_cases known : mem s.p ≤ 4
      · obtain ⟨p, written, ncpu⟩ := scanEntry_known known
        rw [p] at entries
        refine ⟨mem s.p :: types, ⟨inside, rfl, known, entries⟩, ?_⟩
        rw [after, written, ncpu, List.append_assoc, range'_cons_count]
      · rw [scanEntry_unknown known] at entries after
        exact ⟨types, entries, after⟩
    · cases ends
      exact ⟨[], not_lt.mp inside, by simp⟩

theorem mpinit_some {mp conf rounds : Nat} (accepted : mpconfig mem = some (mp, conf)) :
    (∃ s, mpinit mem rounds = some s ∧ ∀ i ∈ s.written, i < ncpuMax) ↔
      ∃ s, scanLoop mem (tableEnd mem conf) rounds ⟨firstEntry conf, true, 0, 0, 0, []⟩ = some s ∧
        ∀ i ∈ s.written, i < ncpuMax := by
  have kept (s : MpState) :
      (if s.ismp then s else { s with ncpu := 1, ioapicid := 0 }).written = s.written := by
    split_ifs <;> rfl
  simp [mpinit, accepted, kept]

/-- For an accepted table, the loop ends and stays within `cpus` if and only if all entries
have known types and at most `NCPU` of them are processors. -/
theorem mpinit_bounded_iff {mp conf : Nat} (accepted : mpconfig mem = some (mp, conf)) :
    Bounded mem ↔ ∃ types, Entries mem (tableEnd mem conf) (firstEntry conf) types ∧
      types.count 0 ≤ ncpuMax := by
  simp only [Bounded, mpinit_some accepted]
  constructor
  · rintro ⟨rounds, s, ends, inside⟩
    obtain ⟨types, entries, written⟩ := entries_of_scanLoop ends
    refine ⟨types, entries, ?_⟩
    by_contra many
    have last : types.count 0 - 1 ∈ s.written := by
      rw [written]
      exact List.mem_range'_1.mpr ⟨Nat.zero_le _, by omega⟩
    have := inside _ last
    omega
  · rintro ⟨types, entries, few⟩
    obtain ⟨s, ends, written⟩ :=
      Entries.scanLoop (s := ⟨firstEntry conf, true, 0, 0, 0, []⟩) entries
    refine ⟨_, s, ends, fun i member => ?_⟩
    simp only [written, List.nil_append, List.mem_range'_1] at member
    omega

/-- A floating pointer structure at 16 and a table at 32 with one entry. -/
def oneEntry (length checksum : UInt8) (entry : List UInt8) : Memory := fun a =>
  if a = 0x40e then 1
  else if 16 ≤ a then
    ([95, 77, 80, 95, 32, 0, 0, 0, 1, 4, 128, 0, 0, 0, 0, 0, 80, 67, 77, 80, length, 0, 4, checksum]
      ++ List.replicate 36 0 ++ entry).getD (a - 16) 0
  else 0

/-- A table with one processor. -/
theorem mpinit_bounded_processor : mpconfig (oneEntry 64 138 [0, 0, 0, 2]) = some (16, 32) ∧
    Bounded (oneEntry 64 138 [0, 0, 0, 2]) := by
  have accepted : mpconfig (oneEntry 64 138 [0, 0, 0, 2]) = some (16, 32) := by decide +kernel
  refine ⟨accepted, (mpinit_bounded_iff accepted).mpr ⟨[0], ?_, by decide⟩⟩
  exact ⟨by decide +kernel, by decide +kernel, by decide,
    show tableEnd _ _ ≤ _ by decide +kernel⟩

/-- At an entry of type 5 the loop does not go on. -/
theorem mpinit_unknown_type : mpconfig (oneEntry 52 147 [5]) = some (16, 32) ∧
    ¬Bounded (oneEntry 52 147 [5]) := by
  have accepted : mpconfig (oneEntry 52 147 [5]) = some (16, 32) := by decide +kernel
  refine ⟨accepted, ?_⟩
  rintro ⟨rounds, bounded⟩
  obtain ⟨s, ends, -⟩ := (mpinit_some accepted).mp bounded
  obtain ⟨types, entries, -⟩ := entries_of_scanLoop ends
  cases types with
  | nil => exact absurd (show tableEnd _ _ ≤ _ from entries) (by decide +kernel)
  | cons type rest =>
    obtain ⟨-, rfl, known, -⟩ := entries
    exact absurd known (by decide +kernel)

end Xv6.MpTable
