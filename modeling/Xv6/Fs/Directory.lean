import Xv6.Fs.Transfer
import Xv6.Lib.Transition

/-!
# A directory as a map

`namecmp`, `dirlookup` and `dirlink` of `fs.c` on the entries of one directory, and the
critical sections of `create`, `sys_link` and `sys_unlink` that use them.  A critical
section runs with the directory locked, so that its effect on the directory is one step,
whoever takes it.

`dirlookup` reads whole blocks, and so also entries after the size of the directory.  The
slots of a directory are therefore given for all numbers; those after its last block are
zero.  `DirDisk` adds the other blocks of the disk.  A directory that grows gets a block
that may have belonged to another file, and reads free entries there because `bfree` zeroes
a block before it gives it back.
-/

namespace Xv6

open Function

/-- `DIRSIZ`. -/
def dirsiz : Nat := 14

/-- `sizeof(struct dirent)`. -/
def direntSize : Nat := 2 + dirsiz

theorem direntSize_eq : direntSize = 16 := rfl

/-- A `struct dirent`; the name has `DIRSIZ` bytes. -/
structure RawDirent where
  inum : Nat
  name : List UInt8
  deriving DecidableEq, Repr

def RawDirent.zero : RawDirent := ⟨0, List.replicate dirsiz 0⟩

/-! ## Names -/

/-- `strncmp`, with zeros after the end of a list. -/
def strncmp : Nat → List UInt8 → List UInt8 → Int
  | 0, _, _ => 0
  | n + 1, p, q =>
    if p.headD 0 ≠ 0 ∧ p.headD 0 = q.headD 0 then strncmp n p.tail q.tail
    else (p.headD 0).toNat - (q.headD 0).toNat

def strncpy : Nat → List UInt8 → List UInt8
  | 0, _ => []
  | n + 1, t =>
    if t.headD 0 = 0 then List.replicate (n + 1) 0 else t.headD 0 :: strncpy n t.tail

def namecmp (s t : List UInt8) : Int := strncmp dirsiz s t

/-- The first `n` bytes of a string, up to the zero. -/
def cstring : Nat → List UInt8 → List UInt8
  | 0, _ => []
  | n + 1, p => if p.headD 0 = 0 then [] else p.headD 0 :: cstring n p.tail

theorem strncmp_eq_zero (n : Nat) (p q : List UInt8) :
    strncmp n p q = 0 ↔ cstring n p = cstring n q := by
  induction n generalizing p q with
  | zero => simp [strncmp, cstring]
  | succ n ih =>
    rw [strncmp, cstring, cstring]
    generalize p.headD 0 = a
    generalize q.headD 0 = b
    by_cases same : a = b
    · subst same
      by_cases ended : a = 0
      · simp [ended]
      · simp [ended, ih]
    · have differ : (a.toNat : Int) - b.toNat ≠ 0 := by
        intro equal
        exact same (UInt8.toNat_inj.mp (by omega))
      rw [if_neg fun both => same both.2]
      split_ifs with first second second
      · exact absurd (first.trans second.symm) same
      · simp [differ]
      · simp [differ]
      · simp [differ, same]

theorem cstring_strncpy (n : Nat) (t : List UInt8) : cstring n (strncpy n t) = cstring n t := by
  induction n generalizing t with
  | zero => rfl
  | succ n ih =>
    by_cases ended : t.headD 0 = 0
    · rw [strncpy, if_pos ended, cstring, cstring, if_pos ended, List.replicate_succ]
      rfl
    · rw [strncpy, if_neg ended, cstring, cstring, if_neg ended, List.headD_cons, if_neg ended,
        List.tail_cons, ih]

/-- The part of a name that a directory keeps. -/
def nameKey (name : List UInt8) : List UInt8 := cstring dirsiz name

theorem namecmp_eq_zero {s t : List UInt8} : namecmp s t = 0 ↔ nameKey s = nameKey t :=
  strncmp_eq_zero dirsiz s t

theorem nameKey_strncpy (name : List UInt8) : nameKey (strncpy dirsiz name) = nameKey name :=
  cstring_strncpy dirsiz name

/-! ## Entries -/

@[ext] structure Directory where
  size : Nat
  slot : Nat → RawDirent

namespace Directory

/-- The entry is in use and has the name. -/
def Matches (d : Directory) (name : List UInt8) (n : Nat) : Prop :=
  (d.slot n).inum ≠ 0 ∧ namecmp name (d.slot n).name = 0

instance (d : Directory) (name : List UInt8) (n : Nat) : Decidable (d.Matches name n) :=
  inferInstanceAs (Decidable (_ ∧ _))

/-- The inner loop of `dirlookup`: the entries of a block. -/
def scanBlock (d : Directory) (name : List UInt8) : Nat → Nat → Option Nat
  | _, 0 => none
  | n, k + 1 => if d.Matches name n then some n else scanBlock d name (n + 1) k

/-- The outer loop of `dirlookup`. -/
def scan (d : Directory) (name : List UInt8) : Nat → Nat → Option Nat
  | _, 0 => none
  | off, k + 1 =>
    if off < d.size then
      match d.scanBlock name (off / direntSize) (bsize / direntSize) with
      | some n => some n
      | none => scan d name (off + bsize) k
    else none

/-- `dirlookup`: the number of the slot that has the name. -/
def dirlookup (d : Directory) (name : List UInt8) : Option Nat :=
  d.scan name 0 (d.size / bsize + 1)

/-- The inode that a name leads to. -/
def find (d : Directory) (name : List UInt8) : Option Nat :=
  (d.dirlookup name).map fun n => (d.slot n).inum

/-- What a critical section does: it writes an entry, or nothing, or it panics. -/
inductive Written where
  | done (n : Nat) (entry : RawDirent)
  | unchanged
  | panic
  deriving DecidableEq

def Written.isDone : Written → Bool
  | .done _ _ => true
  | _ => false

/-- The checks of `writei` of one entry. -/
def write (d : Directory) (n : Nat) (entry : RawDirent) : Written :=
  if n * direntSize > d.size ∨ n * direntSize + direntSize > maxfile * bsize then .panic
  else .done n entry

/-- The directory with an entry written to it. -/
def put (d : Directory) (n : Nat) (entry : RawDirent) : Directory :=
  ⟨max d.size (n * direntSize + direntSize), update d.slot n entry⟩

/-- The loop of `dirlink` that looks for a free entry.  It panics if an entry is cut off. -/
def freeSlot (d : Directory) : Nat → Nat → Option Nat
  | _, 0 => none
  | n, k + 1 =>
    if n * direntSize < d.size then
      if n * direntSize + direntSize > d.size then none
      else if (d.slot n).inum = 0 then some n else freeSlot d (n + 1) k
    else some n

def dirlink (d : Directory) (name : List UInt8) (inum : Nat) : Written :=
  match d.dirlookup name with
  | some _ => .unchanged
  | none =>
    match d.freeSlot 0 (d.size / direntSize + 1) with
    | none => .panic
    | some n => d.write n ⟨inum % 2 ^ 16, strncpy dirsiz name⟩

/-- `sys_unlink` in the directory; `refused` says that the name is that of a directory
which is not empty. -/
def unlink (d : Directory) (name : List UInt8) (refused : Bool) : Written :=
  if namecmp name [46] = 0 ∨ namecmp name [46, 46] = 0 then .unchanged
  else
    match d.dirlookup name with
    | none => .unchanged
    | some n => if refused then .unchanged else d.write n .zero

/-- A directory: two dots first, no name twice, and nothing after the end. -/
structure WellFormed (d : Directory) : Prop where
  whole : d.size % direntSize = 0
  dot : (d.slot 0).inum ≠ 0 ∧ nameKey (d.slot 0).name = [46]
  dotdot : (d.slot 1).inum ≠ 0 ∧ nameKey (d.slot 1).name = [46, 46]
  two : 2 * direntSize ≤ d.size
  unique : ∀ m n, (d.slot m).inum ≠ 0 → (d.slot n).inum ≠ 0 →
    nameKey (d.slot m).name = nameKey (d.slot n).name → m = n
  rest : ∀ n, d.size ≤ n * direntSize → (d.slot n).inum = 0

variable {d d' : Directory} {name other : List UInt8} {n k inum : Nat} {refused : Bool}
  {entry : RawDirent} {off : Nat}

/-! ## Lookups -/

theorem scanBlock_some (found : d.scanBlock name n k = some inum) :
    d.Matches name inum ∧ n ≤ inum ∧ inum < n + k := by
  induction k generalizing n with
  | zero => simp [scanBlock] at found
  | succ k ih =>
    rw [scanBlock] at found
    split_ifs at found with here
    · cases found
      exact ⟨here, Nat.le_refl _, by omega⟩
    · obtain ⟨names, low, high⟩ := ih found
      exact ⟨names, by omega, by omega⟩

theorem scanBlock_none (none : d.scanBlock name n k = none) :
    ∀ m, n ≤ m → m < n + k → ¬d.Matches name m := by
  induction k generalizing n with
  | zero =>
    intro m low high
    omega
  | succ k ih =>
    rw [scanBlock] at none
    split_ifs at none with here
    intro m low high
    by_cases first : m = n
    · exact first ▸ here
    · exact ih none m (by omega) (by omega)

theorem scan_some (found : d.scan name off k = some n) : d.Matches name n := by
  induction k generalizing off with
  | zero => simp [scan] at found
  | succ k ih =>
    rw [scan] at found
    split_ifs at found
    split at found
    next here =>
      cases found
      exact (scanBlock_some here).1
    · exact ih found

theorem scan_none (aligned : off % 16 = 0) (none : d.scan name off k = none)
    (enough : d.size ≤ off + k * 512) :
    ∀ m, off ≤ m * 16 → m * 16 < d.size → ¬d.Matches name m := by
  induction k generalizing off with
  | zero =>
    intro m low high
    omega
  | succ k ih =>
    intro m low high
    rw [scan] at none
    simp only [direntSize_eq, bsize] at none
    split_ifs at none with more
    · split at none
      · simp at none
      next clear =>
        by_cases here : m * 16 < off + 512
        · exact scanBlock_none clear m (by omega) (by omega)
        · exact ih (by omega) none (by omega) m (by omega) high
    · omega

theorem dirlookup_some (found : d.dirlookup name = some n) : d.Matches name n :=
  scan_some found

theorem dirlookup_none (none : d.dirlookup name = none) :
    ∀ m, m * 16 < d.size → ¬d.Matches name m := by
  intro m high
  refine scan_none (by decide) none ?_ m (by omega) high
  simp only [bsize]
  omega

namespace WellFormed

section
variable (formed : d.WellFormed)
include formed

theorem inside (used : (d.slot n).inum ≠ 0) : n * direntSize < d.size := by
  by_contra outside
  exact used (formed.rest n (Nat.le_of_not_lt outside))

theorem dirlookup_eq_none : d.dirlookup name = none ↔ ∀ m, ¬d.Matches name m := by
  constructor
  · intro result m names
    exact dirlookup_none result m (formed.inside names.1) names
  · intro absent
    cases result : d.dirlookup name with
    | none => rfl
    | some m => exact absurd (dirlookup_some result) (absent m)

end

end WellFormed

theorem freeSlot_spec (whole : d.size % 16 = 0) (found : d.freeSlot n k = some inum) :
    inum * 16 ≤ d.size ∧ (inum * 16 < d.size → (d.slot inum).inum = 0) ∨ d.size < n * 16 := by
  induction k generalizing n with
  | zero => simp [freeSlot] at found
  | succ k ih =>
    rw [freeSlot, direntSize_eq] at found
    split_ifs at found with more cut free
    · cases found
      exact .inl ⟨by omega, fun _ => free⟩
    · rcases ih found with spec | beyond
      · exact .inl spec
      · omega
    · obtain rfl := Option.some.inj found
      by_cases same : n * 16 = d.size
      · exact .inl ⟨by omega, fun _ => by omega⟩
      · exact .inr (by omega)

/-- An entry may be written that is not `.` or `..`, if no other has its name. -/
theorem WellFormed.put (formed : d.WellFormed) (first : n ≠ 0) (second : n ≠ 1)
    (low : n * 16 ≤ d.size) (alone : entry.inum ≠ 0 →
      ∀ m, (d.slot m).inum ≠ 0 → nameKey (d.slot m).name ≠ nameKey entry.name) :
    (d.put n entry).WellFormed := by
  have whole : d.size % 16 = 0 := formed.whole
  have two : 32 ≤ d.size := formed.two
  refine ⟨?_, ?_, ?_, ?_, fun m m' inUse inUse' equal => ?_, fun m beyond => ?_⟩
  · simp only [Directory.put, direntSize_eq]
    omega
  · simpa only [Directory.put, update_of_ne first.symm] using formed.dot
  · simpa only [Directory.put, update_of_ne second.symm] using formed.dotdot
  · simp only [Directory.put, direntSize_eq]
    omega
  · simp only [Directory.put, update_apply] at inUse inUse' equal
    split_ifs at inUse inUse' equal with here here' here'
    · exact here.trans here'.symm
    · exact absurd equal.symm (alone inUse m' inUse')
    · exact absurd equal (alone inUse' m inUse)
    · exact formed.unique m m' inUse inUse' equal
  · have beyond : max d.size (n * 16 + 16) ≤ m * 16 := beyond
    have other : m ≠ n := by
      rintro rfl
      omega
    simp only [Directory.put, update_of_ne other]
    exact formed.rest m ((le_max_left ..).trans beyond)

theorem write_done {m : Nat} {entry' : RawDirent} (written : d.write n entry = .done m entry') :
    m = n ∧ entry' = entry ∧ n * direntSize ≤ d.size := by
  unfold write at written
  split_ifs at written with bad
  cases written
  exact ⟨rfl, rfl, Nat.le_of_not_lt fun beyond => bad (.inl beyond)⟩

theorem dirlink_done (formed : d.WellFormed) (done : d.dirlink name inum = .done n entry) :
    (d.slot n).inum = 0 ∧ n * 16 ≤ d.size ∧ (∀ m, ¬d.Matches name m) ∧
      entry = ⟨inum % 2 ^ 16, strncpy dirsiz name⟩ := by
  unfold dirlink at done
  split at done
  · simp at done
  next absent =>
    split at done
    · simp at done
    next n' found =>
      obtain ⟨rfl, rfl, -⟩ := write_done done
      rcases freeSlot_spec formed.whole found with ⟨low, free⟩ | beyond
      · refine ⟨?_, low, formed.dirlookup_eq_none.mp absent, rfl⟩
        by_cases inside : n * 16 < d.size
        · exact free inside
        · exact formed.rest n (Nat.le_of_not_lt inside)
      · omega

theorem unlink_done (done : d.unlink name refused = .done n entry) :
    d.Matches name n ∧ namecmp name [46] ≠ 0 ∧ namecmp name [46, 46] ≠ 0 ∧ entry = .zero := by
  unfold unlink at done
  rcases found : d.dirlookup name with _ | n' <;> simp only [found] at done <;>
    split_ifs at done with dots
  rw [not_or] at dots
  obtain ⟨rfl, rfl, -⟩ := write_done done
  exact ⟨dirlookup_some found, dots.1, dots.2, rfl⟩

section
variable (formed : d.WellFormed)
include formed

theorem WellFormed.dirlink (done : d.dirlink name inum = .done n entry) :
    (d.put n entry).WellFormed := by
  obtain ⟨free, low, absent, rfl⟩ := dirlink_done formed done
  refine formed.put ?_ ?_ low fun _ m inUse equal => ?_
  · rintro rfl
    exact formed.dot.1 free
  · rintro rfl
    exact formed.dotdot.1 free
  · exact absent m ⟨inUse, namecmp_eq_zero.mpr (equal.trans (nameKey_strncpy name)).symm⟩

theorem WellFormed.unlink (done : d.unlink name refused = .done n entry) :
    (d.put n entry).WellFormed := by
  obtain ⟨names, notDot, notDotdot, rfl⟩ := unlink_done done
  refine formed.put ?_ ?_ (formed.inside names.1).le fun inUse => absurd rfl inUse
  · rintro rfl
    exact notDot (namecmp_eq_zero.mpr ((namecmp_eq_zero.mp names.2).trans formed.dot.2))
  · rintro rfl
    exact notDotdot (namecmp_eq_zero.mpr ((namecmp_eq_zero.mp names.2).trans formed.dotdot.2))

end

/-! ## Runs -/

/-- A critical section of process `p` in the directory. -/
inductive Action where
  | create (p : Nat) (name : List UInt8) (inum : Nat)
  | link (p : Nat) (name : List UInt8) (inum : Nat)
  | unlink (p : Nat) (name : List UInt8) (refused : Bool)

/-- `create`: `ialloc` gives `inum` if the name is not there. -/
def create (d : Directory) (name : List UInt8) (inum : Nat) : Written :=
  match d.dirlookup name with
  | some _ => .unchanged
  | none => d.dirlink name inum

def Action.run (d : Directory) : Action → Written
  | create _ name inum => d.create name inum
  | link _ name inum => d.dirlink name inum
  | unlink _ name refused => d.unlink name refused

def step (d : Directory) (action : Action) : Option Directory :=
  match action.run d with
  | .done n entry => some (d.put n entry)
  | .unchanged => some d
  | .panic => none

theorem create_done (done : d.create name inum = .done n entry) :
    d.dirlink name inum = .done n entry := by
  unfold create at done
  split at done
  · simp at done
  · exact done

theorem WellFormed.step {action : Action} (formed : d.WellFormed)
    (taken : d.step action = some d') : d'.WellFormed := by
  unfold Directory.step at taken
  split at taken
  next result =>
    cases taken
    cases action with
    | create p name inum => exact formed.dirlink (create_done result)
    | link p name inum => exact formed.dirlink result
    | unlink p name refused => exact formed.unlink result
  · exact Option.some.inj taken ▸ formed
  · simp at taken

theorem WellFormed.run_done {action : Action} (formed : d.WellFormed)
    (done : action.run d = .done n entry) : n * direntSize ≤ d.size := by
  cases action with
  | create p name inum => exact (dirlink_done formed (create_done done)).2.1
  | link p name inum => exact (dirlink_done formed done).2.1
  | unlink p name refused => exact (formed.inside (unlink_done done).1.1).le

/-- A new directory. -/
def fresh (ip dp : Nat) : Directory :=
  ⟨2 * direntSize, fun n => if n = 0 then ⟨ip, strncpy dirsiz [46]⟩ else
    if n = 1 then ⟨dp, strncpy dirsiz [46, 46]⟩ else .zero⟩

end Directory

/-! ## The blocks that a directory grows into -/

/-- Who has a block.  The bitmap tells only whether it is free. -/
inductive BlockOwner where
  | free
  | directory
  | other
  deriving DecidableEq, Repr

/-- A directory and the disk around it; `data` is what the blocks hold that are not the
directory's, seen as entries. -/
structure DirDisk where
  dir : Directory
  owner : Nat → BlockOwner
  data : Nat → Nat → RawDirent

namespace DirDisk

/-- The entries in a block. -/
def perBlock : Nat := bsize / direntSize

/-- The directory with a new last block. -/
def extend (d : Directory) (bn : Nat) (block : Nat → RawDirent) : Directory :=
  { d with slot := fun n => if n / perBlock = bn then block (n % perBlock) else d.slot n }

/-- `writei` of an entry.  If there is no block for it, `bmap` appends the block `b` that
`balloc` finds. -/
def writei (s : DirDisk) (n : Nat) (entry : RawDirent) (b : Nat) : Option DirDisk :=
  if n / perBlock * bsize < s.dir.size then some { s with dir := s.dir.put n entry }
  else if s.owner b = .free then
    some { s with
      dir := (extend s.dir (n / perBlock) (s.data b)).put n entry
      owner := update s.owner b .directory }
  else none

/-- The steps: a critical section in the directory, and what other files do with the blocks
they have. -/
inductive Action where
  | dir (action : Directory.Action) (b : Nat)
  | balloc (b : Nat)
  | store (b : Nat) (content : Nat → RawDirent)
  | bfree (b : Nat)

/-- The numbers that the calls pass to `dirlink`: `create` one of `ialloc`, which is below
`sb.ninodes`, and `link` one that was read from the `ushort` of an entry. -/
def passes (ninodes : Nat) : Directory.Action → Bool
  | .create _ _ inum => decide (0 < inum ∧ inum < ninodes)
  | .link _ _ inum => decide (0 < inum ∧ inum < 2 ^ 16)
  | .unlink _ _ _ => true

def step (ninodes : Nat) (s : DirDisk) : Action → Option DirDisk
  | .dir action b =>
    if passes ninodes action then
      match action.run s.dir with
      | .done n entry => s.writei n entry b
      | .unchanged => some s
      | .panic => none
    else none
  | .balloc b =>
    if s.owner b = .free then some { s with owner := update s.owner b .other } else none
  | .store b content =>
    if s.owner b = .other then some { s with data := update s.data b content } else none
  -- `bfree` calls `bzero` first
  | .bfree b =>
    if s.owner b = .other then
      some { s with owner := update s.owner b .free, data := update s.data b fun _ => .zero }
    else none

/-- Free blocks are zero, as `mkfs` leaves them, and so are the slots after the last block. -/
structure Sound (s : DirDisk) : Prop where
  zeroed : ∀ b, s.owner b = .free → s.data b = fun _ => .zero
  blank : ∀ n, s.dir.size ≤ n / perBlock * bsize → s.dir.slot n = .zero

variable {s s' : DirDisk} {n b ninodes : Nat} {entry : RawDirent}

namespace Sound

section
variable (sound : s.Sound)
include sound

theorem extend_eq {bn : Nat} (free : s.owner b = .free) (absent : s.dir.size ≤ bn * bsize) :
    extend s.dir bn (s.data b) = s.dir := by
  refine Directory.ext rfl (funext fun n => ?_)
  simp only [extend]
  split_ifs with here
  · rw [sound.zeroed b free, sound.blank n (here ▸ absent)]
  · rfl

theorem put (low : n * direntSize ≤ s.dir.size) (owner : Nat → BlockOwner)
    (zeroed : ∀ b, owner b = .free → s.data b = fun _ => .zero) :
    ({ s with dir := s.dir.put n entry, owner := owner } : DirDisk).Sound where
  zeroed := zeroed
  blank m beyond := by
    simp only [Directory.put, perBlock, direntSize_eq, bsize] at beyond
    have other : m ≠ n := by
      rintro rfl
      omega
    simp only [Directory.put, update_of_ne other]
    refine sound.blank m ?_
    simp only [perBlock, direntSize_eq, bsize]
    omega

theorem writei (low : n * direntSize ≤ s.dir.size) (written : s.writei n entry b = some s') :
    s'.Sound ∧ s'.dir = s.dir.put n entry := by
  unfold DirDisk.writei at written
  split_ifs at written with there free
  · cases written
    exact ⟨sound.put low s.owner sound.zeroed, rfl⟩
  · cases written
    rw [sound.extend_eq free (Nat.le_of_not_lt there)]
    refine ⟨sound.put low _ fun b' unowned => sound.zeroed b' ?_, rfl⟩
    by_cases same : b' = b
    · exact same ▸ free
    · simpa only [update_of_ne same] using unowned

/-- A step of the disk is a step of the directory, or leaves it as it is. -/
theorem step {action : Action} (formed : s.dir.WellFormed)
    (taken : s.step ninodes action = some s') :
    s'.Sound ∧ (s'.dir = s.dir ∨ ∃ action', s.dir.step action' = some s'.dir) := by
  cases action with
  | dir action b =>
    simp only [DirDisk.step] at taken
    split_ifs at taken
    split at taken
    next n entry result =>
      obtain ⟨sound', written⟩ := sound.writei (formed.run_done result) taken
      refine ⟨sound', .inr ⟨action, ?_⟩⟩
      rw [Directory.step, result, written]
    next =>
      cases taken
      exact ⟨sound, .inl rfl⟩
    next => cases taken
  | balloc b =>
    simp only [DirDisk.step] at taken
    split_ifs at taken with free
    cases taken
    refine ⟨⟨fun b' unowned => sound.zeroed b' ?_, sound.blank⟩, .inl rfl⟩
    by_cases same : b' = b
    · exact same ▸ free
    · simpa only [update_of_ne same] using unowned
  | store b content =>
    simp only [DirDisk.step] at taken
    split_ifs at taken with other
    cases taken
    refine ⟨⟨fun b' free => ?_, sound.blank⟩, .inl rfl⟩
    have different : b' ≠ b := by
      rintro rfl
      rw [other] at free
      cases free
    simpa only [update_of_ne different] using sound.zeroed b' free
  | bfree b =>
    simp only [DirDisk.step] at taken
    split_ifs at taken with other
    cases taken
    refine ⟨⟨fun b' free => ?_, sound.blank⟩, .inl rfl⟩
    by_cases same : b' = b
    · simp [same]
    · simp only [update_of_ne same] at free ⊢
      exact sound.zeroed b' free

end

end Sound

theorem sound_run {start : DirDisk} {trace : List (DirDisk × Action)} (sound : start.Sound)
    (formed : start.dir.WellFormed)
    (run : Transition.Run (step ninodes) (fun _ _ => True) start trace s) :
    s.Sound ∧ s.dir.WellFormed := by
  induction run with
  | nil => exact ⟨sound, formed⟩
  | snoc _ _ taken ih =>
    obtain ⟨sound', same | ⟨action, moved⟩⟩ := ih.1.step ih.2 taken
    · exact ⟨sound', same ▸ ih.2⟩
    · exact ⟨sound', ih.2.step moved⟩

/-- What a critical section that writes leaves. -/
theorem Sound.written {action : Directory.Action} (sound : s.Sound)
    (formed : s.dir.WellFormed) (done : (action.run s.dir).isDone = true)
    (taken : s.step ninodes (.dir action b) = some s') :
    ∃ n entry, passes ninodes action = true ∧ action.run s.dir = .done n entry ∧
      s'.dir = s.dir.put n entry := by
  simp only [DirDisk.step] at taken
  split_ifs at taken with passed
  cases result : action.run s.dir with
  | done n entry =>
    simp only [result] at taken
    exact ⟨n, entry, passed, rfl, (sound.writei (formed.run_done result) taken).2⟩
  | unchanged => simp [result, Directory.Written.isDone] at done
  | panic => simp [result, Directory.Written.isDone] at done

/-- The new directory 2 of the root directory, in block 40. -/
def newDirectory : DirDisk where
  dir := .fresh 2 1
  owner b := if b < 40 then .other else if b = 40 then .directory else .free
  data _ _ := .zero

/-- Another file gives block 41 back.  Then the directory grows into it, and a name of 15
bytes is added and another one removed. -/
def grows : List Action :=
  [.balloc 41, .store 41 fun _ => ⟨9, [97]⟩, .bfree 41] ++
    (List.range 30).map (fun n => .dir (.link 0 [98, UInt8.ofNat n + 1] 5) 41) ++
    [.dir (.create 0 [97] 6) 41, .dir (.link 1 (List.replicate 15 99) 7) 42,
      .dir (.unlink 0 [97] false) 42]

end DirDisk

end Xv6
