import Xv6.Fs.MkfsEntries

/-!
# The kernel reads what `mkfs` wrote

The kernel finds every path of the tree in the image, reads the bytes of every file, and
sees in the bitmap just the blocks that are in use.
-/

namespace Xv6.Mkfs

/-! ## Files -/

section Read

variable {s : State} {file : Nat → File} {count : Nat → Nat} {owner : Nat → Option Owner} {i : Nat}

section
variable (image : Image s file count owner) (used : s.Used i)
include image used

theorem Image.map_byte {off m : Nat}
    (inside : off % 512 + m ≤ 512) (most : off + m ≤ (file i).content.length)
    (below : off / 512 < count i) :
    (List.range m).map (fun j => s.disk.byte (s.addr i (off / 512)) (off % 512 + j)) =
      ((file i).content.drop off).take m := by
  refine List.ext_getElem ?_ fun j low high => ?_
  · simp only [List.length_map, List.length_range, List.length_take, List.length_drop]
    omega
  · have small : j < m := by simpa using low
    have position : 512 * (off / 512) + (off % 512 + j) = off + j := by omega
    rw [List.getElem_map, List.getElem_range, image.bytes i used _ below _ (by omega), position,
      List.getElem_take, List.getElem_drop, List.getD_eq_getElem?_getD,
      List.getElem?_eq_getElem (by omega), Option.getD_some]

theorem Image.readLoop_eq (fuel : Nat) :
    ∀ off left, left ≤ fuel → off + left ≤ (file i).content.length →
      s.disk.readLoop (s.disk.inode i) fuel off left =
        some (((file i).content.drop off).take left) := by
  have fits := image.fits i used
  induction fuel with
  | zero =>
    intro off left enough _
    obtain rfl : left = 0 := by omega
    simp [Disk.readLoop]
  | succ fuel ih =>
    intro off left enough most
    cases left with
    | zero => simp [Disk.readLoop]
    | succ left =>
      have below : off / 512 < count i := by omega
      have present : s.disk.bmap (s.disk.inode i) (off / 512) ≠ 0 := fun zero =>
        Nat.not_le.mpr below ((image.addrs_zero_iff used _).mp zero)
      generalize size : min (left + 1) (512 - off % 512) = m
      have bytes := image.map_byte used (m := m) (by omega) (by omega) below
      have split : left + 1 = m + (left + 1 - m) := by omega
      simp only [Disk.readLoop, size, if_neg present,
        ih (off + m) (left + 1 - m) (by omega) (by omega)]
      change some ((List.range m).map (fun j =>
        s.disk.byte (s.addr i (off / 512)) (off % 512 + j)) ++ _) = _
      rw [bytes]
      nth_rewrite 2 [split]
      rw [List.take_add, List.drop_drop]

theorem Image.readi_eq
    (whole : (file i).size = (file i).content.length) {n : Nat} (small : n < 2 ^ 32) :
    s.disk.readi (s.disk.inode i) 0 n = some ((file i).content.take n) := by
  have size := image.size i used
  rw [Disk.readi, if_neg (by omega)]
  simp only [Nat.zero_add, Nat.sub_zero]
  split_ifs with past
  · rw [image.readLoop_eq used _ _ _ (Nat.le_refl _) (by omega), List.drop_zero, size, whole,
      List.take_of_length_le (Nat.le_refl _), List.take_of_length_le (by omega)]
  · rw [image.readLoop_eq used _ _ _ (Nat.le_refl _) (by omega), List.drop_zero]

end

end Read

/-! ## Lookups -/

/-- The entry is in use and has the name. -/
def Fits (de : RawDirent) (name : List UInt8) : Prop := de.inum ≠ 0 ∧ namecmp name de.name = 0

section Scan

variable {disk : Disk} {block : Nat} {name : List UInt8}

theorem scanBlock_none {k left : Nat}
    (absent : ∀ j, k ≤ j → j < k + left → ¬ Fits (disk.dirent block j) name) :
    disk.scanBlock block name k left = none := by
  induction left generalizing k with
  | zero => rfl
  | succ left ih =>
    rw [Disk.scanBlock]
    refine (if_neg (absent k (Nat.le_refl k) (by omega))).trans ?_
    exact ih fun j low high => absent j (by omega) (by omega)

theorem scanBlock_some {k left n : Nat} (low : k ≤ n) (high : n < k + left)
    (fits : Fits (disk.dirent block n) name)
    (absent : ∀ j, k ≤ j → j < n → ¬ Fits (disk.dirent block j) name) :
    disk.scanBlock block name k left = some (disk.dirent block n).inum := by
  induction left generalizing k with
  | zero => omega
  | succ left ih =>
    rw [Disk.scanBlock]
    by_cases here : k = n
    · subst here
      exact if_pos fits
    · refine (if_neg (absent k (Nat.le_refl k) (by omega))).trans ?_
      exact ih (by omega) (by omega) fun j low high => absent j (by omega) high

theorem scan_some {dp : Dinode} {n : Nat} (inside : 16 * n < dp.size)
    (present : ∀ q, q ≤ n / 32 → disk.bmap dp q ≠ 0) (fits : Fits (disk.entry dp n) name)
    (absent : ∀ m, m < n → ¬ Fits (disk.entry dp m) name) (left : Nat) :
    ∀ q, q ≤ n / 32 → n / 32 < q + left →
      disk.scan dp name (512 * q) left = some (disk.entry dp n).inum := by
  have entry : ∀ q j, q ≤ n / 32 → j < 32 →
      disk.entry dp (32 * q + j) = disk.dirent (disk.bmap dp q) j := by
    intro q j most small
    have quotient : (32 * q + j) / 32 = q := by omega
    have remainder : (32 * q + j) % 32 = j := by omega
    rw [Disk.entry, quotient, remainder, if_neg (present q most)]
  induction left with
  | zero => intro q most enough; omega
  | succ left ih =>
    intro q most enough
    have number : 512 * q / 512 = q := by omega
    rw [Disk.scan, if_pos (by omega), number, if_neg (present q most)]
    by_cases last : q = n / 32
    · have target : disk.entry dp n = disk.dirent (disk.bmap dp q) (n % 32) := by
        rw [← entry q (n % 32) most (by omega)]
        congr 1
        omega
      have found : disk.scanBlock (disk.bmap dp q) name 0 32 =
          some (disk.dirent (disk.bmap dp q) (n % 32)).inum := by
        refine scanBlock_some (Nat.zero_le _) (by omega) (target ▸ fits) fun j _ before => ?_
        rw [← entry q j most (by omega)]
        exact absent _ (by omega)
      rw [found, target]
    · have notHere : disk.scanBlock (disk.bmap dp q) name 0 32 = none := by
        refine scanBlock_none fun j _ small => ?_
        rw [← entry q j most (by omega)]
        exact absent _ (by omega)
      rw [notHere]
      exact ih (q + 1) (by omega) (by omega)

end Scan

/-! ## Names -/

theorem cstring_eq_take (n : Nat) {name : List UInt8} (string : 0 ∉ name) :
    cstring n name = name.take n := by
  induction n generalizing name with
  | zero => simp [cstring]
  | succ n ih =>
    cases name with
    | nil => simp [cstring]
    | cons c rest =>
      rw [List.mem_cons, not_or] at string
      have nonzero : c ≠ 0 := fun h => string.1 h.symm
      simp [cstring, nonzero, ih string.2]

variable {elem name : List UInt8} {tree : HostTree}

theorem namecmp_take (stringE : 0 ∉ elem) (stringN : 0 ∉ name) :
    namecmp (elem.take dirsiz) (strncpy dirsiz name) = 0 ↔ elem.take dirsiz = name.take dirsiz := by
  have stringT : 0 ∉ elem.take dirsiz := fun h => stringE (List.mem_of_mem_take h)
  rw [namecmp_eq_zero, nameKey_strncpy, nameKey, nameKey, cstring_eq_take dirsiz stringT,
    cstring_eq_take dirsiz stringN, List.take_take, Nat.min_self]

theorem not_isDots_of_mem {list : HostList} {m : List UInt8 × HostTree} :
    m ∈ list.members → isDots m.1 = false := by
  match list with
  | .nil => intro listed; cases listed
  | .cons name tree rest =>
    intro listed
    rw [HostList.members] at listed
    split_ifs at listed with dots
    · exact not_isDots_of_mem listed
    · rcases List.mem_cons.mp listed with rfl | later
      · exact Bool.eq_false_iff.mpr dots
      · exact not_isDots_of_mem later

theorem take_ne_of_not_isDots {name dots : List UInt8} (differ : isDots name = false)
    (isDot : isDots dots = true) : name.take dirsiz ≠ dots := by
  intro equal
  have short : dots.length ≤ 2 := by
    simp only [isDots, Bool.or_eq_true, beq_iff_eq] at isDot
    rcases isDot with rfl | rfl <;> decide
  have length := congrArg List.length equal
  rw [List.length_take, dirsiz] at length
  rw [List.take_of_length_le (by rw [dirsiz]; omega)] at equal
  rw [equal, isDot] at differ
  cases differ

/-- The names in a directory of the host: strings, not empty, and distinct in the bytes that
the image keeps. -/
structure HostList.Named (entries : HostList) : Prop where
  nonempty : ∀ m ∈ entries.members, m.1 ≠ []
  string : ∀ m ∈ entries.members, 0 ∉ m.1
  distinct : (entries.members.map fun m => m.1.take dirsiz).Nodup

section Lookup

variable {s : State} {file : Nat → File} {count : Nat → Nat} {owner : Nat → Option Owner}
  {i parent : Nat}

theorem Image.entry_dots (image : Image s file count owner)
    (placed : tree.Placed file 1 s.freeinode parent i) (directory : tree.isFile = false) :
    (s.disk.entry (s.disk.inode i) 0).name = strncpy dirsiz [46] ∧
      (s.disk.entry (s.disk.inode i) 1).name = strncpy dirsiz [46, 46] := by
  obtain ⟨_, _, inums, content, _⟩ := placed.directory directory
  rw [image.entry_eq placed.bounds, image.entry_eq placed.bounds, content, entryAt_recordBytes,
    entryAt_recordBytes]
  exact ⟨rfl, rfl⟩

theorem Image.dirlookup_eq (image : Image s file count owner) (few : s.freeinode ≤ 65536)
    {entries : HostList} (named : entries.Named)
    (placed : (HostTree.dir entries).Placed file 1 s.freeinode parent i)
    {child : HostTree} (listed : (name, child) ∈ entries.members)
    (string : 0 ∉ elem) (same : elem.take dirsiz = name.take dirsiz) :
    ∃ c, s.disk.dirlookup (s.disk.inode i) (elem.take dirsiz) = some c ∧
      child.Placed file 1 s.freeinode i c := by
  have used : s.Used i := placed.bounds
  obtain ⟨n, here⟩ := List.getElem?_of_mem listed
  have slot := image.entry_member few placed rfl
  have found := slot n
  simp only [HostTree.members, here] at found
  obtain ⟨c, there, entry, inside⟩ := found
  have positive : c ≠ 0 := Nat.ne_of_gt there.bounds.1
  have fits : Fits (s.disk.entry (s.disk.inode i) (n + 2)) (elem.take dirsiz) := by
    rw [entry]
    exact ⟨positive, (namecmp_take string (named.string _ listed)).mpr same⟩
  -- the entry is in use, so its block and those before it are there
  have present : ∀ q, q ≤ (n + 2) / 32 → s.disk.bmap (s.disk.inode i) q ≠ 0 := by
    have last : s.disk.bmap (s.disk.inode i) ((n + 2) / 32) ≠ 0 := by
      intro zero
      rw [Disk.entry, if_pos zero] at entry
      exact positive (congrArg RawDirent.inum entry).symm
    have below := fun h => last ((image.addrs_zero_iff used _).mpr h)
    intro q most zero
    exact below (Nat.le_trans ((image.addrs_zero_iff used q).mp zero) most)
  have differs : ∀ dots, isDots dots = true → 0 ∉ dots → dots.take dirsiz = dots →
      ¬ namecmp (elem.take dirsiz) (strncpy dirsiz dots) = 0 := by
    intro dots isDot stringD short equal
    rw [namecmp_take string stringD, same, short] at equal
    exact take_ne_of_not_isDots (not_isDots_of_mem listed) isDot equal
  have absent : ∀ m, m < n + 2 →
      ¬ Fits (s.disk.entry (s.disk.inode i) m) (elem.take dirsiz) := by
    rintro m before ⟨inUse, equal⟩
    have dots := image.entry_dots placed rfl
    rcases m with _ | _ | k
    · exact differs [46] rfl (by decide) rfl (dots.1 ▸ equal)
    · exact differs [46, 46] rfl (by decide) rfl (dots.2 ▸ equal)
    · have other := slot k
      have earlier : k < n := by omega
      have length := (List.getElem?_eq_some_iff.mp here).1
      have atK : entries.members[k]? = some entries.members[k] :=
        List.getElem?_eq_getElem (Nat.lt_trans earlier length)
      simp only [HostTree.members, atK] at other
      obtain ⟨d, _, entryK, _⟩ := other
      rw [entryK, namecmp_take string (named.string _ (List.getElem_mem _)), same] at equal
      have bound : k < (entries.members.map fun m => m.1.take dirsiz).length := by
        rw [List.length_map]
        omega
      have equalAt : (entries.members.map fun m => m.1.take dirsiz)[k]? =
          (entries.members.map fun m => m.1.take dirsiz)[n]? := by
        rw [List.getElem?_map, List.getElem?_map, atK, here, Option.map_some,
          Option.map_some, equal]
      exact Nat.ne_of_lt earlier ((List.getElem?_inj bound named.distinct).mp equalAt)
  refine ⟨c, ?_, there⟩
  have scanned := scan_some (n := n + 2) (by omega) present fits absent
    ((s.disk.inode i).size / 512 + 1) 0 (Nat.zero_le _) (by omega)
  rw [entry] at scanned
  exact scanned

end Lookup

/-! ## Paths -/

/-- A string with the elements, and slashes before, between and after them. -/
inductive Spells : List UInt8 → List (List UInt8) → Prop where
  | done (n : Nat) : Spells (List.replicate n 47) []
  | elem (n : Nat) {e rest : List UInt8} {elems : List (List UInt8)} :
      e ≠ [] → 47 ∉ e → 0 ∉ e → (∀ c ∈ rest.head?, c = 47) → Spells rest elems →
        Spells (List.replicate n 47 ++ e ++ rest) (e :: elems)

theorem dropWhile_slashes (n : Nat) (l : List UInt8) :
    (List.replicate n 47 ++ l).dropWhile (· == 47) = l.dropWhile (· == 47) := by
  induction n with
  | zero => rfl
  | succ n ih => simp [List.replicate_succ]

theorem dropWhile_elem {e : List UInt8} (nonempty : e ≠ []) (noSlash : 47 ∉ e)
    (l : List UInt8) : (e ++ l).dropWhile (· == 47) = e ++ l := by
  cases e with
  | nil => exact absurd rfl nonempty
  | cons c rest =>
    have differ : c ≠ 47 := fun h => noSlash (h ▸ List.mem_cons_self ..)
    simp [differ]

variable {elems : List (List UInt8)} {e rest : List UInt8}

theorem Spells.dropWhile {path : List UInt8}
    (spells : Spells path elems) : Spells (path.dropWhile (· == 47)) elems := by
  cases spells with
  | done n =>
    have empty := dropWhile_slashes n []
    rw [List.append_nil] at empty
    rw [empty]
    exact .done 0
  | elem n nonempty noSlash string next rest =>
    rw [List.append_assoc, dropWhile_slashes, dropWhile_elem nonempty noSlash]
    exact .elem 0 nonempty noSlash string next rest

theorem skipelem_done (n : Nat) : Disk.skipelem (List.replicate n 47) = none := by
  have empty := dropWhile_slashes n []
  rw [List.append_nil] at empty
  simp [Disk.skipelem, empty]

theorem takeWhile_elem (noSlash : 47 ∉ e) (string : 0 ∉ e) (next : ∀ c ∈ rest.head?, c = 47) :
    (e ++ rest).takeWhile (fun c => c != 47 && c != 0) = e := by
  have all : ∀ c ∈ e, (c != 47 && c != 0) = true := by
    intro c inside
    have slash : c ≠ 47 := fun h => noSlash (h ▸ inside)
    have zero : c ≠ 0 := fun h => string (h ▸ inside)
    simp [slash, zero]
  have ends : rest.takeWhile (fun c => c != 47 && c != 0) = [] := by
    cases rest with
    | nil => rfl
    | cons c rest => simp [next c rfl]
  rw [List.takeWhile_append_of_pos all, ends, List.append_nil]

theorem skipelem_elem (n : Nat) (nonempty : e ≠ []) (noSlash : 47 ∉ e)
    (string : 0 ∉ e) (next : ∀ c ∈ rest.head?, c = 47) :
    Disk.skipelem (List.replicate n 47 ++ e ++ rest) =
      some (e.take dirsiz, rest.dropWhile (· == 47)) := by
  have head : (e ++ rest).headD 0 ≠ 0 := by
    cases e with
    | nil => exact absurd rfl nonempty
    | cons c e => exact fun h => string (h ▸ List.mem_cons_self ..)
  rw [Disk.skipelem, List.append_assoc, dropWhile_slashes, dropWhile_elem nonempty noSlash]
  simp only [if_neg head, takeWhile_elem noSlash string next, List.drop_left]

/-- The path leads from one tree to the other; its elements count up to `DIRSIZ` bytes. -/
inductive HostTree.Resolves : HostTree → List (List UInt8) → HostTree → Prop where
  | here (tree : HostTree) : HostTree.Resolves tree [] tree
  | step {entries : HostList} {name e : List UInt8} {elems : List (List UInt8)}
      {child tree : HostTree} :
      (name, child) ∈ entries.members → e.take dirsiz = name.take dirsiz →
        HostTree.Resolves child elems tree → HostTree.Resolves (.dir entries) (e :: elems) tree

variable {owner : Nat → Option Owner} {file : Nat → File} {count : Nat → Nat} {s : State}

theorem Image.namexLoop_eq (image : Image s file count owner) (few : s.freeinode ≤ 65536)
    {tree target : HostTree} (resolves : tree.Resolves elems target) :
    ∀ {path : List UInt8} {fuel inum parent : Nat}, Spells path elems → path.length < fuel →
      (∀ entries, (HostTree.dir entries).Within tree → entries.Named) →
      tree.Placed file 1 s.freeinode parent inum →
      ∃ c p, s.disk.namexLoop fuel inum path = some c ∧ target.Placed file 1 s.freeinode p c := by
  induction resolves with
  | here tree =>
    intro path fuel inum parent spells enough _ placed
    cases spells with
    | done n =>
      obtain ⟨fuel, rfl⟩ : ∃ f, fuel = f + 1 := ⟨fuel - 1, by omega⟩
      exact ⟨inum, parent, by rw [Disk.namexLoop, skipelem_done], placed⟩
  | @step entries name e elems child tree listed same _ ih =>
    intro path fuel inum parent spells enough named placed
    cases spells with
    | @elem n _ rest _ nonempty noSlash string next spelled =>
      obtain ⟨fuel, rfl⟩ : ∃ f, fuel = f + 1 := ⟨fuel - 1, by omega⟩
      obtain ⟨c, found, there⟩ := image.dirlookup_eq few (named entries (.refl _)) placed
        listed string same
      have type : (s.disk.inode inum).type = tDir :=
        (image.type inum placed.bounds).trans (placed.directory rfl).1
      have shorter : (rest.dropWhile (· == 47)).length < fuel := by
        have drop := (List.dropWhile_suffix (l := rest) (· == 47)).length_le
        have positive := List.length_pos_iff.mpr nonempty
        simp only [List.length_append] at enough
        omega
      obtain ⟨c', p, rest', target⟩ := ih spelled.dropWhile shorter
        (fun list within => named list (.member listed within)) there
      refine ⟨c', p, ?_, target⟩
      rw [Disk.namexLoop, skipelem_elem n nonempty noSlash string next]
      simp only [type, ne_eq, not_true_eq_false, if_false, found]
      exact rest'

/-! ## The bitmap -/

/-- An inode refers to the block, directly, as its indirect block or through that. -/
def Disk.Referenced (disk : Disk) (b : Nat) : Prop :=
  b ≠ 0 ∧ ∃ inum, inum < disk.sb.ninodes ∧
    ((∃ k, k ≤ ndirect ∧ (disk.inode inum).addrs k = b) ∨
      (disk.inode inum).addrs ndirect ≠ 0 ∧
        ∃ k, k < 128 ∧ disk.word ((disk.inode inum).addrs ndirect) k = b)

theorem Image.referenced_iff (image : Image s file count owner) (few : s.freeinode ≤ ninodes)
    (small : ∀ i, s.Used i → count i ≤ maxfile) (b : Nat) :
    s.disk.Referenced b ↔ 29 ≤ b ∧ b < s.freeblock := by
  rw [← image.range b]
  have number : s.disk.sb.ninodes = ninodes := by rw [image.sb]
  constructor
  · rintro ⟨nonzero, i, _, refers⟩
    have used : s.Used i := by
      by_contra unused
      rw [image.unused i unused] at refers
      rcases refers with ⟨k, _, equal⟩ | ⟨present, _⟩
      · exact nonzero equal.symm
      · exact present rfl
    -- a nonzero address is that of a block of the inode
    have data : ∀ k, s.addr i k = b → (owner b).isSome = true := by
      intro k equal
      have below : k < count i := Nat.not_le.mp fun past =>
        nonzero (equal.symm.trans (image.beyond i used k past))
      rw [← equal, image.data i used k below]
      rfl
    rcases refers with ⟨k, most, equal⟩ | ⟨present, k, _, equal⟩
    · by_cases last : k = 12
      · subst last
        have many : 12 < count i := Nat.not_le.mp fun h =>
          nonzero (equal.symm.trans (image.direct i used h))
        rw [← equal, image.indirect i used many]
        rfl
      · have direct : k < 12 := Nat.lt_of_le_of_ne most last
        exact data k ((Disk.bmap_direct _ _ direct).trans equal)
    · refine data (k + 12) ?_
      rw [State.addr, Disk.bmap_indirect _ _ (Nat.le_add_left _ _) present, Nat.add_sub_cancel]
      exact equal
  · intro owned
    obtain ⟨o, here⟩ := Option.isSome_iff_exists.mp owned
    refine ⟨Nat.ne_of_gt (Nat.lt_of_lt_of_le (by decide) (image.owner_range here).1), ?_⟩
    cases o with
    | data i k =>
      obtain ⟨used, below, equal⟩ := image.ownedData b i k here
      refine ⟨i, number ▸ Nat.lt_of_lt_of_le used.2 few, ?_⟩
      by_cases direct : k < 12
      · exact .inl ⟨k, Nat.le_of_lt direct, (Disk.bmap_direct _ _ direct).symm.trans equal⟩
      · have most := small i used
        have present : (s.disk.inode i).addrs 12 ≠ 0 := fun zero =>
          direct (Nat.lt_of_lt_of_le below ((image.indirect_zero_iff used).mp zero))
        refine .inr ⟨present, k - 12, ?_, ?_⟩
        · simp only [maxfile] at most
          omega
        · rw [← equal, State.addr, Disk.bmap_indirect _ _ (Nat.not_lt.mp direct) present]
          rfl
    | indirect i =>
      obtain ⟨used, _, equal⟩ := image.ownedIndirect b i here
      exact ⟨i, number ▸ Nat.lt_of_lt_of_le used.2 few, .inl ⟨12, Nat.le_refl _, equal⟩⟩

/-! ## The whole image -/

def HostTree.type (tree : HostTree) : Nat := if tree.isFile then tFile else tDir

theorem Image.type_eq (image : Image s file count owner)
    {parent i : Nat} (placed : tree.Placed file 1 s.freeinode parent i) :
    (s.disk.inode i).type = tree.type := by
  rw [image.type i placed.bounds]
  cases tree with
  | file chunks => rw [placed.2.2]; rfl
  | closed => exact (placed.directory rfl).1
  | dir entries => exact (placed.directory rfl).1

/-- On the image of a tree with at most 198 files and directories besides the root the kernel
finds every path of the tree and an inode of its type there, reads the bytes of every file,
and sees in the bitmap the blocks up to the bitmap and those that the inodes refer to. -/
theorem kernel_reads_back {root : Option HostList} {s : State} (run : main root = some s)
    (few : (rootTree root).count ≤ 199)
    (named : ∀ entries, (HostTree.dir entries).Within (rootTree root) → entries.Named) :
    (∀ path elems tree cwd, Spells path elems → path.headD 0 = 47 →
      (rootTree root).Resolves elems tree →
      ∃ inum, s.disk.namei cwd path = some inum ∧ (s.disk.inode inum).type = tree.type ∧
        ∀ chunks, tree = .file chunks →
          (s.disk.inode inum).size = chunks.flatten.length ∧
          ∀ n, n < 2 ^ 32 →
            s.disk.readi (s.disk.inode inum) 0 n = some (chunks.flatten.take n)) ∧
    ∀ b, b < 512 * 8 → (s.disk.bit (s.disk.bblock b) (b % (512 * 8)) = true ↔
      b ≤ s.disk.bblock 0 ∨ s.disk.Referenced b) := by
  obtain ⟨inodes, _, bits, file, ⟨count, owner, image, tight⟩, placed, _⟩ := main_spec run
  have low := image.low
  constructor
  · intro path elems tree cwd spells absolute resolves
    obtain ⟨inum, parent, found, there⟩ := image.namexLoop_eq (by omega) resolves spells
      (Nat.lt_succ_self _) named placed
    refine ⟨inum, ?_, image.type_eq there, ?_⟩
    · rw [Disk.namei, if_pos absolute]
      exact found
    · rintro chunks rfl
      have used : s.Used inum := there.bounds
      have content := there.2.2
      refine ⟨by rw [image.size inum used, content], fun n small => ?_⟩
      rw [image.readi_eq used (by rw [content]) small, content]
  · intro b small
    have sector : ∀ c, c < 512 * 8 → s.disk.bblock c = 28 := by
      intro c below
      rw [Disk.bblock, image.sb, Nat.div_eq_of_lt below]
      rfl
    have blocks : ∀ i, s.Used i → count i ≤ maxfile := by
      intro i used
      have length := (tight i used).short
      have countI := (tight i used).count_eq
      simp only [maxfile] at length ⊢
      omega
    rw [sector b small, sector 0 (by decide), Nat.mod_eq_of_lt small,
      image.referenced_iff (by simp only [ninodes]; omega) blocks,
      show (28 : Nat) = ninodes / ipb + 3 from rfl, bits b, decide_eq_true_iff, image.counters]
    change b < s.freeblock ↔ b ≤ 28 ∨ _
    omega

/-- The file `/d/a` of a tree with the directory `d`. -/
theorem kernel_reads_back_nested :
    ∃ s, main (some (.cons [100] (.dir (.cons [97] (.file [[1, 2], [3]]) .nil)) .nil)) = some s ∧
      ∃ inum, s.disk.namei 1 [47, 100, 47, 97] = some inum ∧
        s.disk.readi (s.disk.inode inum) 0 512 = some [1, 2, 3] := by
  obtain ⟨s, run⟩ := Option.isSome_iff_exists.mp (show (main (some (.cons [100]
    (.dir (.cons [97] (.file [[1, 2], [3]]) .nil)) .nil))).isSome = true by decide +kernel)
  have single : ∀ (c : UInt8) (tree : HostTree), c ≠ 0 → c ≠ 46 →
      (HostList.cons [c] tree .nil).members = [([c], tree)] := by
    intro c tree _ notDot
    simp [HostList.members, isDots, notDot]
  have namedOne : ∀ (c : UInt8) (tree : HostTree), c ≠ 0 → c ≠ 46 →
      (HostList.cons [c] tree .nil).Named := by
    intro c tree notZero notDot
    constructor <;> simp [single c tree notZero notDot, notZero.symm]
  obtain ⟨reads, _⟩ := kernel_reads_back run (by decide) fun entries within => by
    cases within with
    | refl => exact namedOne 100 _ (by decide) (by decide)
    | member listed below =>
      rw [single 100 _ (by decide) (by decide), List.mem_singleton] at listed
      cases listed
      cases below with
      | refl => exact namedOne 97 _ (by decide) (by decide)
      | member listed below =>
        rw [single 97 _ (by decide) (by decide), List.mem_singleton] at listed
        cases listed
        cases below
  have spells : Spells [47, 100, 47, 97] [[100], [97]] :=
    @Spells.elem 1 [100] [47, 97] _ (by decide) (by decide) (by decide) (by simp)
      (@Spells.elem 1 [97] [] _ (by decide) (by decide) (by decide) (by simp) (.done 0))
  obtain ⟨inum, found, _, bytes⟩ := reads [47, 100, 47, 97] [[100], [97]] (.file [[1, 2], [3]]) 1
    spells rfl (.step (List.mem_singleton.mpr rfl) rfl
      (.step (List.mem_singleton.mpr rfl) rfl (.here _)))
  exact ⟨s, run, inum, found, (bytes _ rfl).2 512 (by decide)⟩

end Xv6.Mkfs
