import Xv6.Fs.MkfsTree

/-!
# The directories of an image

The entries that the kernel finds in a directory of the image are those that `add_dir`
appended, followed by free ones.  From this follows for which trees the image keeps what the
kernel itself keeps: inode numbers below `ninodes`, link counts that count the
subdirectories, and a block for every part of a file below its size.
-/

namespace Xv6.Mkfs

/-! ## Entries as bytes -/

/-- Entry `n` of a directory with the given bytes. -/
def entryAt (content : List UInt8) (n : Nat) : RawDirent :=
  ⟨(content.getD (16 * n) 0).toNat + 256 * (content.getD (16 * n + 1) 0).toNat,
    (List.range dirsiz).map fun j => content.getD (16 * n + 2 + j) 0⟩

/-- Entry `n` of a directory on the disk; a block that is not there has free entries only. -/
def Disk.entry (disk : Disk) (ip : Dinode) (n : Nat) : RawDirent :=
  if disk.bmap ip (n / 32) = 0 then RawDirent.zero
  else disk.dirent (disk.bmap ip (n / 32)) (n % 32)

theorem entryAt_past {content : List UInt8} {n : Nat} (past : content.length ≤ 16 * n) :
    entryAt content n = RawDirent.zero := by
  have zero : ∀ m, 16 * n ≤ m → content.getD m 0 = 0 := fun m h =>
    getD_past content (Nat.le_trans past h)
  have names : ∀ j, content.getD (16 * n + 2 + j) 0 = 0 := fun j => zero _ (by omega)
  rw [entryAt, zero _ (Nat.le_refl _), zero _ (Nat.le_succ _)]
  simp only [names, List.map_const', List.length_range]
  rfl

variable {owner : Nat → Option Owner} {tree : HostTree} {file : Nat → File} {count : Nat → Nat}
  {s : State} {parent i : Nat} {root : Option HostList}

theorem Image.entry_eq {i : Nat} (image : Image s file count owner) (used : s.Used i)
    (n : Nat) : s.disk.entry (s.disk.inode i) n = entryAt (file i).content n := by
  rw [Disk.entry]
  change (if s.addr i (n / 32) = 0 then _ else s.disk.dirent (s.addr i (n / 32)) _) = _
  have fits := image.fits i used
  split_ifs with absent
  · have few := (image.addrs_zero_iff used (n / 32)).mp absent
    rw [entryAt_past (by omega)]
  · have below : n / 32 < count i := Nat.not_le.mp fun h =>
      absent ((image.addrs_zero_iff used (n / 32)).mpr h)
    have byte : ∀ t, t < 16 → s.disk.byte (s.addr i (n / 32)) (16 * (n % 32) + t) =
        (file i).content.getD (16 * n + t) 0 := by
      intro t small
      rw [image.bytes i used _ below _ (by omega)]
      congr 1
      omega
    rw [Disk.dirent, entryAt, byte 1 (by omega), show 16 * (n % 32) = 16 * (n % 32) + 0 from rfl,
      byte 0 (by omega)]
    congr 1
    refine List.map_congr_left fun j inside => ?_
    have small : j < 14 := List.mem_range.mp inside
    rw [Nat.add_zero, Nat.add_assoc, byte (2 + j) (by omega), Nat.add_assoc]

theorem length_strncpy (n : Nat) (name : List UInt8) : (strncpy n name).length = n := by
  induction n generalizing name with
  | zero => rfl
  | succ n ih =>
    rw [strncpy]
    split_ifs with ended
    · exact List.length_replicate
    · rw [List.length_cons, ih]

theorem length_direntBytes (inum : Nat) (name : List UInt8) :
    (direntBytes inum name).length = 16 := by
  rw [direntBytes, List.length_cons, List.length_cons, length_strncpy]
  rfl

/-- The bytes of a list of entries. -/
def recordBytes : List (Nat × List UInt8) → List UInt8
  | [] => []
  | (inum, name) :: rest => direntBytes inum name ++ recordBytes rest

theorem length_recordBytes (records : List (Nat × List UInt8)) :
    (recordBytes records).length = 16 * records.length := by
  induction records with
  | nil => rfl
  | cons record rest ih =>
    rw [recordBytes, List.length_append, length_direntBytes, ih, List.length_cons]
    omega

theorem getD_append_right (l r : List UInt8) (n : Nat) :
    (l ++ r).getD (l.length + n) 0 = r.getD n 0 := by
  rw [List.getD_eq_getElem?_getD, List.getElem?_append_right (Nat.le_add_right _ _),
    Nat.add_sub_cancel_left, List.getD_eq_getElem?_getD]

theorem entryAt_zero (inum : Nat) (name rest : List UInt8) :
    entryAt (direntBytes inum name ++ rest) 0 = ⟨inum % 65536, strncpy dirsiz name⟩ := by
  have number : inum % 256 + 256 * (inum / 256 % 256) = inum % 65536 := by omega
  have bytes : (List.range dirsiz).map (fun j => (strncpy dirsiz name ++ rest).getD j 0) =
      strncpy dirsiz name := by
    refine List.ext_getElem (by simp [length_strncpy]) fun j low high => ?_
    rw [List.getElem_map, List.getElem_range, List.getD_eq_getElem?_getD,
      List.getElem?_append_left high, List.getElem?_eq_getElem high, Option.getD_some]
  have second : ∀ j, (direntBytes inum name ++ rest).getD (16 * 0 + 2 + j) 0 =
      (strncpy dirsiz name ++ rest).getD j 0 := by
    intro j
    rw [Nat.mul_zero, Nat.zero_add, Nat.add_comm]
    rfl
  rw [entryAt]
  simp only [second, bytes]
  congr 1
  change (UInt8.ofNat (inum % 256)).toNat + 256 * (UInt8.ofNat (inum / 256 % 256)).toNat = _
  rw [UInt8.toNat_ofNat', UInt8.toNat_ofNat']
  omega

theorem entryAt_succ (inum : Nat) (name rest : List UInt8) (n : Nat) :
    entryAt (direntBytes inum name ++ rest) (n + 1) = entryAt rest n := by
  have shift : ∀ t, (direntBytes inum name ++ rest).getD (16 * (n + 1) + t) 0 =
      rest.getD (16 * n + t) 0 := by
    intro t
    have right := getD_append_right (direntBytes inum name) rest (16 * n + t)
    rwa [length_direntBytes, show 16 + (16 * n + t) = 16 * (n + 1) + t by omega] at right
  have first := shift 0
  simp only [Nat.add_zero] at first
  simp only [entryAt, first, shift, Nat.add_assoc]

theorem entryAt_recordBytes (records : List (Nat × List UInt8)) (n : Nat) :
    entryAt (recordBytes records) n =
      match records[n]? with
      | some (inum, name) => ⟨inum % 65536, strncpy dirsiz name⟩
      | none => RawDirent.zero := by
  induction records generalizing n with
  | nil => exact entryAt_past (Nat.zero_le _)
  | cons record rest ih =>
    cases n with
    | zero => exact entryAt_zero ..
    | succ n => rw [recordBytes, entryAt_succ, ih, List.getElem?_cons_succ]

/-! ## The entries of a placed directory -/

/-- The entries of a tree besides the dots. -/
def HostTree.members : HostTree → List (List UInt8 × HostTree)
  | .dir entries => entries.members
  | _ => []

def HostTree.isFile : HostTree → Bool
  | .file _ => true
  | _ => false

def records (cur parent : Nat) (members : List (List UInt8 × HostTree)) (inums : List Nat) :
    List (Nat × List UInt8) :=
  (cur, [46]) :: (parent, [46, 46]) :: inums.zip (members.map Prod.fst)

theorem entryBytes_eq (members : List (List UInt8 × HostTree)) (inums : List Nat) :
    entryBytes members inums = recordBytes (inums.zip (members.map Prod.fst)) := by
  induction members generalizing inums with
  | nil => cases inums <;> rfl
  | cons member rest ih =>
    cases inums with
    | nil => rfl
    | cons inum inums => rw [entryBytes, ih]; rfl

section Placed

variable {lo hi : Nat} {inum : Nat}

theorem HostList.Placed.forall₂ {cur : Nat} {list : HostList} {inums : List Nat}
    (placed : list.Placed file lo hi cur inums) :
    List.Forall₂ (fun m c => m.2.Placed file lo hi cur c) list.members inums := by
  cases list with
  | nil =>
    rw [show inums = [] from placed]
    exact .nil
  | cons name tree rest =>
    rw [HostList.Placed] at placed
    rw [HostList.members]
    split_ifs at placed ⊢ with dots
    · exact placed.forall₂
    · obtain ⟨child, tail, rfl, first, others⟩ := placed
      exact .cons first others.forall₂

theorem HostTree.Placed.bounds
    (placed : tree.Placed file lo hi parent inum) : lo ≤ inum ∧ inum < hi := by
  cases tree <;> exact ⟨placed.1, placed.2.1⟩

theorem HostTree.Placed.directory
    (placed : tree.Placed file lo hi parent inum) (directory : tree.isFile = false) :
    (file inum).type = tDir ∧ (file inum).content.length ≤ (file inum).size ∧
      ∃ inums, (file inum).content = recordBytes (records inum parent tree.members inums) ∧
        List.Forall₂ (fun m c => m.2.Placed file lo hi inum c) tree.members inums := by
  cases tree with
  | file chunks => cases directory
  | closed =>
    obtain ⟨_, _, equal⟩ := placed
    rw [equal]
    exact ⟨rfl, Nat.le_refl _, [], rfl, .nil⟩
  | dir entries =>
    obtain ⟨_, _, inums, equal, inside⟩ := placed
    rw [equal]
    refine ⟨rfl, ?_, inums, ?_, inside.forall₂⟩
    · simp only [List.length_append, dotBytes, length_direntBytes]
      omega
    · rw [entryBytes_eq, dotBytes, List.append_assoc]
      rfl

end Placed

theorem forall₂_getElem? {α β : Type} {r : α → β → Prop} {l : List α} {l' : List β}
    (related : List.Forall₂ r l l') {n : Nat} {a : α} (here : l[n]? = some a) :
    ∃ b, l'[n]? = some b ∧ r a b := by
  induction related generalizing n with
  | nil => simp at here
  | cons first _ ih =>
    cases n with
    | zero =>
      simp only [List.getElem?_cons_zero, Option.some.injEq] at here
      subst here
      exact ⟨_, rfl, first⟩
    | succ n => exact ih here

theorem Image.entry_member (image : Image s file count owner) (few : s.freeinode ≤ 65536)
    (placed : tree.Placed file 1 s.freeinode parent i) (directory : tree.isFile = false) (n : Nat) :
    match tree.members[n]? with
    | some m => ∃ c, m.2.Placed file 1 s.freeinode i c ∧
        s.disk.entry (s.disk.inode i) (n + 2) = ⟨c, strncpy dirsiz m.1⟩ ∧
        16 * (n + 2) + 16 ≤ (s.disk.inode i).size
    | none => s.disk.entry (s.disk.inode i) (n + 2) = RawDirent.zero := by
  have used : s.Used i := placed.bounds
  obtain ⟨_, fits, inums, content, related⟩ := placed.directory directory
  have size := image.size i used
  rw [image.entry_eq used, content, entryAt_recordBytes, records, List.getElem?_cons_succ,
    List.getElem?_cons_succ]
  rcases here : tree.members[n]? with _ | m
  · have short : (inums.zip (tree.members.map Prod.fst))[n]? = none := by
      rw [List.getElem?_eq_none_iff] at here ⊢
      rw [List.length_zip, List.length_map]
      omega
    simp only [short]
  · obtain ⟨c, atN, there⟩ := forall₂_getElem? related here
    have zipped : (inums.zip (tree.members.map Prod.fst))[n]? = some (c, m.1) := by
      rw [List.getElem?_zip_eq_some]
      exact ⟨atN, by rw [List.getElem?_map, here]; rfl⟩
    simp only [zipped]
    have bounds := there.bounds
    refine ⟨c, there, by rw [Nat.mod_eq_of_lt (by omega)], ?_⟩
    have inside : n < (inums.zip (tree.members.map Prod.fst)).length :=
      (List.getElem?_eq_some_iff.mp zipped).1
    rw [content, length_recordBytes, records, List.length_cons, List.length_cons] at fits
    omega

/-! ## What the kernel keeps -/

/-- The number of subdirectories: the entries after the dots that name a directory. -/
def Disk.subdirectories (disk : Disk) (ip : Dinode) : Nat :=
  (List.range (ip.size / 16)).countP fun n =>
    decide (2 ≤ n ∧ (disk.entry ip n).inum ≠ 0 ∧
      (disk.inode (disk.entry ip n).inum).type = tDir)

theorem Image.subdirectories_eq_zero (image : Image s file count owner) (few : s.freeinode ≤ 65536)
    (placed : tree.Placed file 1 s.freeinode parent i) (directory : tree.isFile = false) :
    s.disk.subdirectories (s.disk.inode i) = 0 ↔ ∀ m ∈ tree.members, m.2.isFile = true := by
  have slot := image.entry_member few placed directory
  rw [Disk.subdirectories, List.countP_eq_zero]
  constructor
  · intro noneCounted m listed
    obtain ⟨n, here⟩ := List.getElem?_of_mem listed
    have found := slot n
    simp only [here] at found
    obtain ⟨c, there, entry, inside⟩ := found
    by_contra notFile
    have type := (there.directory (Bool.eq_false_iff.mpr notFile)).1
    refine noneCounted (n + 2) (List.mem_range.mpr (by omega)) (decide_eq_true ?_)
    have bounds := there.bounds
    rw [entry, image.type c bounds]
    exact ⟨by omega, Nat.ne_of_gt bounds.1, type⟩
  · intro files n _ counted
    obtain ⟨past, present, type⟩ := of_decide_eq_true counted
    obtain ⟨k, rfl⟩ : ∃ k, n = k + 2 := ⟨n - 2, by omega⟩
    have found := slot k
    rcases here : tree.members[k]? with _ | m
    · simp only [here] at found
      rw [found] at present
      exact present rfl
    · simp only [here] at found
      obtain ⟨c, there, entry, _⟩ := found
      rw [entry, image.type c there.bounds] at type
      have isFile := files m (List.mem_of_getElem? here)
      rcases equal : m.2 with chunks | _ | entries
      · rw [equal] at there
        rw [there.2.2] at type
        cases type
      · rw [equal] at isFile
        cases isFile
      · rw [equal] at isFile
        cases isFile

/-- What the kernel keeps true of every image. -/
structure KernelInvariants (s : State) : Prop where
  inodes : ∀ i, s.Used i → i < s.disk.sb.ninodes
  links : ∀ i, s.Used i → (s.disk.inode i).type = tDir →
    (s.disk.inode i).nlink = 1 + s.disk.subdirectories (s.disk.inode i)
  blocks : ∀ i, s.Used i → ∀ k, k < ((s.disk.inode i).size + 511) / 512 →
    s.disk.bmap (s.disk.inode i) k ≠ 0

/-- At most 198 files besides the root, no directories, and entries of the root that do not
just fill its blocks. -/
def Plain (root : Option HostList) : Prop :=
  (rootTree root).count ≤ 199 ∧ (∀ m ∈ (rootTree root).members, m.2.isFile = true) ∧
    ∀ entries, root = some entries → (2 + entries.members.length) % 32 ≠ 0

theorem rootTree_isFile (root : Option HostList) : (rootTree root).isFile = false := by
  cases root <;> rfl

theorem Image.root_blocks (image : Image s file count owner)
    (tight : ∀ i, s.Used i → Tight (file i) (count i))
    (placed : (rootTree root).Placed file 1 s.freeinode parent i) :
    (∀ k, k < ((s.disk.inode i).size + 511) / 512 → s.addr i k ≠ 0) ↔
      ∀ entries, root = some entries → (2 + entries.members.length) % 32 ≠ 0 := by
  have used : s.Used i := placed.bounds
  have countI := (tight i used).count_eq
  have zeroIff := fun k => image.addrs_zero_iff used k
  rw [image.size i used]
  cases root with
  | none =>
    obtain ⟨_, _, equal⟩ := placed
    rw [equal] at countI ⊢
    simp only [dotBytes, List.length_append, length_direntBytes] at countI
    refine ⟨fun _ => nofun, fun _ k below zero => ?_⟩
    have past := (zeroIff k).mp zero
    change k < (32 + 511) / 512 at below
    omega
  | some entries =>
    obtain ⟨_, _, inums, equal, inside⟩ := placed
    have lengths := inside.forall₂.length_eq
    rw [equal] at countI ⊢
    have bytes : (entryBytes entries.members inums).length = 16 * entries.members.length := by
      rw [entryBytes_eq, length_recordBytes, List.length_zip, List.length_map]
      omega
    simp only [dotBytes, List.length_append, length_direntBytes, bytes] at countI ⊢
    constructor
    · intro present list same full
      obtain rfl : entries = list := by simpa using same
      exact present (count i) (by omega) ((zeroIff _).mpr (Nat.le_refl _))
    · intro open_ k below zero
      have past := (zeroIff k).mp zero
      have := open_ entries rfl
      omega

theorem within_of_files (files : ∀ m ∈ (rootTree root).members, m.2.isFile = true)
    (within : tree.Within (rootTree root)) : tree = rootTree root ∨ tree.isFile = true := by
  cases root with
  | none =>
    cases within
    exact .inl rfl
  | some entries =>
    cases within with
    | refl => exact .inl rfl
    | member listed below =>
      have isFile := files _ listed
      cases below with
      | refl => exact .inr isFile
      | member => cases isFile

/-- The image of a tree keeps what the kernel keeps exactly if the tree is plain. -/
theorem mkfs_keeps_iff {root : Option HostList} {s : State} (run : main root = some s) :
    KernelInvariants s ↔ Plain root := by
  obtain ⟨inodes, _, _, file, ⟨count, owner, image, tight⟩, placed, covered⟩ := main_spec run
  have usedRoot : s.Used 1 := placed.bounds
  have number : s.disk.sb.ninodes = 200 := by rw [image.sb]; rfl
  have directory := rootTree_isFile root
  constructor
  · intro keeps
    have last := keeps.inodes (s.freeinode - 1) ⟨by have := usedRoot.2; omega,
      by have := usedRoot.2; omega⟩
    have few : s.freeinode ≤ 65536 := by omega
    refine ⟨by omega, ?_, ?_⟩
    · rw [← image.subdirectories_eq_zero few placed directory]
      have links := keeps.links 1 usedRoot
        ((image.type 1 usedRoot).trans (placed.directory directory).1)
      rw [image.nlink 1 usedRoot] at links
      omega
    · exact (image.root_blocks tight placed).mp (keeps.blocks 1 usedRoot)
  · rintro ⟨small, files, notFull⟩
    have few : s.freeinode ≤ 65536 := by omega
    constructor
    case inodes =>
        intro i used
        have := used.2
        omega
    case links =>
        intro i used type
        obtain ⟨tree, parent, within, there⟩ := covered i used.1 used.2
        rw [image.nlink i used]
        rcases within_of_files files within with rfl | isFile
        · rw [(image.subdirectories_eq_zero few there directory).mpr files]
        · cases tree with
          | file chunks =>
            rw [image.type i used, there.2.2] at type
            cases type
          | closed => cases isFile
          | dir entries => cases isFile
    case blocks =>
        intro i used k below
        obtain ⟨tree, parent, within, there⟩ := covered i used.1 used.2
        rcases within_of_files files within with rfl | isFile
        · exact (image.root_blocks tight there).mpr notFull k below
        · cases tree with
          | file chunks =>
            rw [image.size i used, there.2.2] at below
            have countI := (tight i used).count_eq
            rw [there.2.2] at countI
            exact fun zero => Nat.not_le.mpr (countI ▸ below)
              ((image.addrs_zero_iff used k).mp zero)
          | closed => cases isFile
          | dir entries => cases isFile

/-- A root with one file is plain, and `mkfs` makes an image of it. -/
theorem mkfs_keeps_one_file :
    ∃ s, main (some (.cons [97] (.file [[1, 2, 3]]) .nil)) = some s ∧ KernelInvariants s := by
  obtain ⟨s, run⟩ := Option.isSome_iff_exists.mp (show
    (main (some (.cons [97] (.file [[1, 2, 3]]) .nil))).isSome = true by decide +kernel)
  refine ⟨s, run, (mkfs_keeps_iff run).mpr ⟨by decide, ?_, ?_⟩⟩
  · intro m listed
    obtain rfl : m = ([97], .file [[1, 2, 3]]) := List.mem_singleton.mp listed
    rfl
  · rintro entries same
    obtain rfl : _ = entries := Option.some.inj same
    decide

/-- A root with one empty directory: the link count of the root does not count it. -/
theorem subdirectory_not_counted :
    ∃ s, main (some (.cons [100] (.dir .nil) .nil)) = some s ∧
      (s.disk.inode 1).nlink = 1 ∧ s.disk.subdirectories (s.disk.inode 1) = 1 ∧
      ¬ KernelInvariants s := by
  have facts : (main (some (.cons [100] (.dir .nil) .nil))).any (fun s =>
      decide (1 < s.freeinode ∧ (s.disk.inode 1).type = tDir ∧ (s.disk.inode 1).nlink = 1 ∧
        s.disk.subdirectories (s.disk.inode 1) = 1)) = true := by
    decide +kernel
  obtain ⟨s, run, found⟩ := (Option.any_eq_true _ _).mp facts
  obtain ⟨used, type, nlink, subdirectories⟩ := of_decide_eq_true found
  refine ⟨s, run, nlink, subdirectories, fun keeps => ?_⟩
  have links := keeps.links 1 ⟨Nat.le_refl 1, used⟩ type
  omega

end Xv6.Mkfs
