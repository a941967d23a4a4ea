import Xv6.Fs.MkfsImage

/-!
# The tree in an image

What `add_dir` writes for a tree of the host: where its files and directories are in the
image, and how many inodes they take.
-/

namespace Xv6

open Function

namespace Mkfs

mutual

/-- The number of inodes for a tree. -/
def HostTree.count : HostTree → Nat
  | .file _ => 1
  | .closed => 1
  | .dir entries => 1 + entries.count

def HostList.count : HostList → Nat
  | .nil => 0
  | .cons name tree rest => if isDots name then rest.count else tree.count + rest.count

end

/-- The entries besides the dots. -/
def HostList.members : HostList → List (List UInt8 × HostTree)
  | .nil => []
  | .cons name tree rest =>
    if isDots name then rest.members else (name, tree) :: rest.members

/-- The entries of a directory in its file. -/
def entryBytes : List (List UInt8 × HostTree) → List Nat → List UInt8
  | (name, _) :: rest, inum :: inums => direntBytes inum name ++ entryBytes rest inums
  | _, _ => []

def dotBytes (cur parent : Nat) : List UInt8 :=
  direntBytes cur [46] ++ direntBytes parent [46, 46]

mutual

/-- The tree is in the files, at inode `inum` and in the inodes from `lo` to `hi`. -/
def HostTree.Placed (file : Nat → File) (lo hi parent inum : Nat) : HostTree → Prop
  | .file chunks => lo ≤ inum ∧ inum < hi ∧
      file inum = ⟨tFile, chunks.flatten, chunks.flatten.length⟩
  | .closed => lo ≤ inum ∧ inum < hi ∧ file inum = ⟨tDir, dotBytes inum parent, 32⟩
  | .dir entries => lo ≤ inum ∧ inum < hi ∧ ∃ inums,
      file inum = ⟨tDir, dotBytes inum parent ++ entryBytes entries.members inums,
        ((32 + (entryBytes entries.members inums).length) / 512 + 1) * 512⟩ ∧
      entries.Placed file lo hi inum inums

def HostList.Placed (file : Nat → File) (lo hi cur : Nat) : HostList → List Nat → Prop
  | .nil, inums => inums = []
  | .cons name tree rest, inums =>
    if isDots name then rest.Placed file lo hi cur inums
    else ∃ child tail, inums = child :: tail ∧ tree.Placed file lo hi cur child ∧
      rest.Placed file lo hi cur tail

end

/-- A tree in a tree. -/
inductive HostTree.Within : HostTree → HostTree → Prop where
  | refl (tree : HostTree) : HostTree.Within tree tree
  | member {entries : HostList} {name : List UInt8} {child tree : HostTree} :
      (name, child) ∈ entries.members → HostTree.Within tree child →
        HostTree.Within tree (.dir entries)

/-- Every inode from `lo` to `hi` is that of one of the trees. -/
def Covered (file : Nat → File) (lo hi : Nat) (trees : HostTree → Prop) : Prop :=
  ∀ j, lo ≤ j → j < hi → ∃ tree parent, trees tree ∧ tree.Placed file lo hi parent j

/-! ## What stays -/

section Frame

variable {file file' : Nat → File} {lo hi lo' hi' : Nat}

mutual

theorem HostTree.Placed.frame (same : ∀ j, lo ≤ j → j < hi → file' j = file j) (low : lo' ≤ lo)
    (high : hi ≤ hi') (parent inum : Nat) : ∀ tree : HostTree,
    tree.Placed file lo hi parent inum → tree.Placed file' lo' hi' parent inum
  | .file chunks, placed => by
      obtain ⟨start, upTo, equal⟩ := placed
      exact ⟨Nat.le_trans low start, Nat.lt_of_lt_of_le upTo high, (same _ start upTo).trans equal⟩
  | .closed, placed => by
      obtain ⟨start, upTo, equal⟩ := placed
      exact ⟨Nat.le_trans low start, Nat.lt_of_lt_of_le upTo high, (same _ start upTo).trans equal⟩
  | .dir entries, placed => by
      obtain ⟨start, upTo, inums, equal, inside⟩ := placed
      exact ⟨Nat.le_trans low start, Nat.lt_of_lt_of_le upTo high, inums,
        (same _ start upTo).trans equal,
        HostList.Placed.frame same low high inum entries inums inside⟩

theorem HostList.Placed.frame (same : ∀ j, lo ≤ j → j < hi → file' j = file j) (low : lo' ≤ lo)
    (high : hi ≤ hi') (cur : Nat) : ∀ (list : HostList) (inums : List Nat),
    list.Placed file lo hi cur inums → list.Placed file' lo' hi' cur inums
  | .nil, _, placed => placed
  | .cons name tree rest, inums, placed => by
      rw [HostList.Placed] at placed ⊢
      split_ifs at placed ⊢ with dots
      · exact HostList.Placed.frame same low high cur rest inums placed
      · obtain ⟨child, tail, equal, first, others⟩ := placed
        exact ⟨child, tail, equal, HostTree.Placed.frame same low high cur child tree first,
          HostList.Placed.frame same low high cur rest tail others⟩

end

end Frame

/-! ## Files -/

/-- The size is that of the bytes. -/
def File.Whole (f : File) : Prop := f.size = f.content.length

theorem File.Whole.append {f : File} (whole : f.Whole) (p : List UInt8) : (f.append p).Whole := by
  have equal : f.size = f.content.length := whole
  simp [File.Whole, File.append, File.resize, File.extend, equal]

theorem File.append_append (f : File) (p q : List UInt8) :
    (f.append p).append q = f.append (p ++ q) := by
  simp [File.append, File.resize, File.extend, Nat.add_assoc]

theorem File.append_nil (f : File) : f.append [] = f := by
  simp [File.append, File.resize, File.extend]

namespace Holds

variable {s s' : State} {file : Nat → File} {i : Nat}

theorem used_of_freeinode (inodes : s'.freeinode = s.freeinode) (used : s.Used i) : s'.Used i := by
  simpa only [State.Used, inodes] using used

theorem appendChunks_spec {chunks : List (List UInt8)} (holds : Holds s file) (used : s.Used i)
    (whole : (file i).Whole) (run : s.appendChunks i chunks = some s') :
    s'.freeinode = s.freeinode ∧
      Holds s' (update file i ((file i).append chunks.flatten)) := by
  induction chunks generalizing s file with
  | nil =>
    simp only [State.appendChunks, Option.some.injEq] at run
    subst run
    rw [List.flatten_nil, File.append_nil, update_eq_self]
    exact ⟨rfl, holds⟩
  | cons chunk rest ih =>
    rw [State.appendChunks] at run
    rcases first : s.iappend i chunk with _ | s₁
    · simp [first] at run
    simp only [first] at run
    obtain ⟨inodes, holds₁⟩ := holds.iappend_spec used whole first
    obtain ⟨inodes', holds'⟩ := ih holds₁ (used_of_freeinode inodes used)
      (by rw [update_self]; exact whole.append chunk) run
    rw [update_self, update_idem, File.append_append,
      ← List.flatten_cons] at holds'
    exact ⟨inodes'.trans inodes, holds'⟩

theorem addDots_spec {parent : Nat} (holds : Holds s file) (used : s.Used i)
    (whole : (file i).Whole) (run : s.addDots i parent = some s') :
    s'.freeinode = s.freeinode ∧
      Holds s' (update file i ((file i).append (dotBytes i parent))) := by
  rw [State.addDots] at run
  rcases first : s.iappend i (direntBytes i [46]) with _ | s₁
  · simp [first] at run
  simp only [first] at run
  obtain ⟨inodes, holds₁⟩ := holds.iappend_spec used whole first
  obtain ⟨inodes', holds'⟩ := holds₁.iappend_spec (used_of_freeinode inodes used)
    (by rw [update_self]; exact whole.append _) run
  rw [update_self, update_idem, File.append_append] at holds'
  exact ⟨inodes'.trans inodes, holds'⟩

theorem newDir_spec {cur child : Nat} {s₁ : State} (holds : Holds s file)
    (made : s.ialloc tDir = some (child, s₁)) (dots : s₁.addDots child cur = some s') :
    child = s.freeinode ∧ s'.freeinode = s.freeinode + 1 ∧
      Holds s' (update file child ⟨tDir, dotBytes child cur, 32⟩) ∧ s'.Used child := by
  have first : 1 ≤ s.freeinode := by
    obtain ⟨_, _, image, _⟩ := holds
    exact image.first
  obtain ⟨rfl, inodes, holds₁⟩ := holds.ialloc_spec made
  have used : s₁.Used s.freeinode := ⟨first, by omega⟩
  obtain ⟨inodes', holds'⟩ := holds₁.addDots_spec used (by rw [update_self]; rfl) dots
  rw [update_self, update_idem] at holds'
  exact ⟨rfl, inodes'.trans inodes, holds', used_of_freeinode inodes' used⟩

mutual

theorem addTree_spec (tree : HostTree) {s s' : State} {file : Nat → File} {cur child : Nat}
    (holds : Holds s file) (run : s.addTree cur tree = some (child, s')) :
    child = s.freeinode ∧ s'.freeinode = s.freeinode + tree.count ∧
      ∃ file', Holds s' file' ∧ (∀ j, j < s.freeinode → file' j = file j) ∧
        tree.Placed file' s.freeinode s'.freeinode cur child ∧
        Covered file' s.freeinode s'.freeinode fun t => t.Within tree := by
  have first : 1 ≤ s.freeinode := by
    obtain ⟨_, _, image, _⟩ := holds
    exact image.first
  cases tree with
  | file chunks =>
    rw [State.addTree] at run
    rcases made : s.ialloc tFile with _ | ⟨c, s₁⟩
    · simp [made] at run
    simp only [made] at run
    rcases filled : s₁.appendChunks c chunks with _ | s₂
    · simp [filled] at run
    simp only [filled, Option.some.injEq, Prod.mk.injEq] at run
    obtain ⟨rfl, rfl⟩ := run
    obtain ⟨rfl, inodes, holds₁⟩ := holds.ialloc_spec made
    obtain ⟨inodes', holds'⟩ := holds₁.appendChunks_spec ⟨first, by omega⟩
      (by rw [update_self]; rfl) filled
    rw [update_self, update_idem] at holds'
    have placed : (HostTree.file chunks).Placed (update file s.freeinode
        ((⟨tFile, [], 0⟩ : File).append chunks.flatten)) s.freeinode s₂.freeinode cur
        s.freeinode := by
      refine ⟨Nat.le_refl _, by omega, ?_⟩
      rw [update_self]
      simp [File.append, File.extend, File.resize]
    refine ⟨rfl, inodes'.trans inodes, _, holds', fun j below => ?_, placed,
      fun j low high => ?_⟩
    · rw [update_of_ne (Nat.ne_of_lt below)]
    · obtain rfl : j = s.freeinode := by omega
      exact ⟨_, cur, .refl _, placed⟩
  | closed =>
    rw [State.addTree] at run
    rcases made : s.ialloc tDir with _ | ⟨c, s₁⟩
    · simp [made] at run
    simp only [made] at run
    rcases dots : s₁.addDots c cur with _ | s₂
    · simp [dots] at run
    simp only [dots, Option.some.injEq, Prod.mk.injEq] at run
    obtain ⟨rfl, rfl⟩ := run
    obtain ⟨rfl, inodes, holds', _⟩ := holds.newDir_spec made dots
    have placed : HostTree.closed.Placed (update file s.freeinode
        ⟨tDir, dotBytes s.freeinode cur, 32⟩) s.freeinode s₂.freeinode cur s.freeinode := by
      refine ⟨Nat.le_refl _, by omega, ?_⟩
      rw [update_self]
    refine ⟨rfl, inodes, _, holds', fun j below => ?_, placed, fun j low high => ?_⟩
    · rw [update_of_ne (Nat.ne_of_lt below)]
    · obtain rfl : j = s.freeinode := by omega
      exact ⟨_, cur, .refl _, placed⟩
  | dir entries =>
    rw [State.addTree] at run
    rcases made : s.ialloc tDir with _ | ⟨c, s₁⟩
    · simp [made] at run
    simp only [made] at run
    rcases dots : s₁.addDots c cur with _ | s₂
    · simp [dots] at run
    simp only [dots] at run
    rcases filled : s₂.addEntries c entries with _ | s₃
    · simp [filled] at run
    simp only [filled] at run
    rcases fixed : s₃.fixSize c with _ | s₄
    · simp [fixed] at run
    simp only [fixed, Option.some.injEq, Prod.mk.injEq] at run
    obtain ⟨rfl, rfl⟩ := run
    obtain ⟨rfl, inodes, holds₂, used⟩ := holds.newDir_spec made dots
    obtain ⟨inodes₃, file₃, inums, holds₃, kept, placed, covered, content⟩ :=
      addEntries_spec entries holds₂ used (by rw [update_self]; rfl) filled
    have used₃ : s₃.Used s.freeinode := ⟨first, by omega⟩
    obtain ⟨inodes₄, holds₄⟩ := holds₃.fixSize_spec used₃ fixed
    rw [update_self] at content
    -- rounding the size changes no inode of the entries
    have same : ∀ j, s₂.freeinode ≤ j → j < s₃.freeinode →
        update file₃ s.freeinode ((file₃ s.freeinode).resize
          (((file₃ s.freeinode).size / 512 + 1) * 512)) j = file₃ j :=
      fun j low _ => update_of_ne (by omega) ..
    have root : (HostTree.dir entries).Placed (update file₃ s.freeinode
        ((file₃ s.freeinode).resize (((file₃ s.freeinode).size / 512 + 1) * 512)))
        s.freeinode s₄.freeinode cur s.freeinode := by
      refine ⟨Nat.le_refl _, by omega, inums, ?_,
        placed.frame same (by omega) (by omega) _ _ _⟩
      rw [update_self, content]
      rfl
    refine ⟨rfl, ?_, _, holds₄, fun j below => ?_, root, fun j low high => ?_⟩
    · rw [inodes₄, inodes₃, inodes, HostTree.count, Nat.add_assoc]
    · rw [update_of_ne (Nat.ne_of_lt below), kept j (by omega) (Nat.ne_of_lt below),
        update_of_ne (Nat.ne_of_lt below)]
    · by_cases itself : j = s.freeinode
      · exact ⟨_, cur, .refl _, itself ▸ root⟩
      · obtain ⟨t, parent, ⟨⟨name, child⟩, listed, within⟩, there⟩ :=
          covered j (by omega) (by omega)
        exact ⟨t, parent, .member listed within,
          there.frame same (by omega) (by omega) _ _ _⟩

theorem addEntries_spec (list : HostList) {s s' : State} {file : Nat → File} {cur : Nat}
    (holds : Holds s file) (used : s.Used cur) (whole : (file cur).Whole)
    (run : s.addEntries cur list = some s') :
    s'.freeinode = s.freeinode + list.count ∧
      ∃ file' inums, Holds s' file' ∧ (∀ j, j < s.freeinode → j ≠ cur → file' j = file j) ∧
        list.Placed file' s.freeinode s'.freeinode cur inums ∧
        Covered file' s.freeinode s'.freeinode (fun t => ∃ m ∈ list.members, t.Within m.2) ∧
        file' cur = (file cur).append (entryBytes list.members inums) := by
  cases list with
  | nil =>
    simp only [State.addEntries, Option.some.injEq] at run
    subst run
    exact ⟨rfl, file, [], holds, fun _ _ _ => rfl, rfl,
      fun j low high => absurd high (Nat.not_lt.mpr low), (File.append_nil _).symm⟩
  | cons name tree rest =>
    rw [State.addEntries] at run
    rw [HostList.count, HostList.members]
    by_cases dots : isDots name
    · rw [if_pos dots] at run
      obtain ⟨inodes, file', inums, holds', kept, placed, covered, content⟩ :=
        addEntries_spec rest holds used whole run
      refine ⟨by rw [if_pos dots, inodes], file', inums, holds', kept, ?_, ?_, ?_⟩
      · rwa [HostList.Placed, if_pos dots]
      · rwa [if_pos dots]
      · rw [if_pos dots, content]
    · rw [if_neg dots] at run
      rcases made : s.addTree cur tree with _ | ⟨child, s₁⟩
      · simp [made] at run
      simp only [made] at run
      rcases linked : s₁.iappend cur (direntBytes child name) with _ | s₂
      · simp [linked] at run
      simp only [linked] at run
      obtain ⟨_, inodes₁, file₁, holds₁, kept₁, placed₁, covered₁⟩ :=
        addTree_spec tree holds made
      have used₁ : s₁.Used cur := ⟨used.1, by have := used.2; omega⟩
      have same₁ := kept₁ cur used.2
      obtain ⟨inodes₂, holds₂⟩ := holds₁.iappend_spec used₁ (by rw [same₁]; exact whole) linked
      obtain ⟨inodes₃, file₃, inums, holds₃, kept₃, placed₃, covered₃, content₃⟩ := addEntries_spec
        rest holds₂ (used_of_freeinode inodes₂ used₁)
        (by rw [update_self, same₁]; exact whole.append _) run
      rw [update_self, same₁, File.append_append] at content₃
      have below := used.2
      have same₃ : ∀ j, s.freeinode ≤ j → j < s₁.freeinode → file₃ j = file₁ j := by
        intro j low high
        have differ : j ≠ cur := by omega
        rw [kept₃ j (by omega) differ, update_of_ne differ]
      refine ⟨?_, file₃, child :: inums, holds₃, fun j low differ => ?_, ?_,
        fun j low high => ?_, ?_⟩
      · rw [if_neg dots, inodes₃, inodes₂, inodes₁, Nat.add_assoc]
      · rw [kept₃ j (by omega) differ, update_of_ne differ, kept₁ j low]
      · rw [HostList.Placed, if_neg dots]
        exact ⟨child, inums, rfl, placed₁.frame same₃ (Nat.le_refl _) (by omega) _ _ _,
          placed₃.frame (fun _ _ _ => rfl) (by omega) (Nat.le_refl _) _ _ _⟩
      · rw [if_neg dots]
        by_cases inFirst : j < s₁.freeinode
        · obtain ⟨t, parent, within, there⟩ := covered₁ j low inFirst
          exact ⟨t, parent, ⟨(name, tree), List.mem_cons_self .., within⟩,
            there.frame same₃ (Nat.le_refl _) (by omega) _ _ _⟩
        · obtain ⟨t, parent, ⟨m, listed, within⟩, there⟩ := covered₃ j (by omega) high
          exact ⟨t, parent, ⟨m, List.mem_cons_of_mem _ listed, within⟩,
            there.frame (fun _ _ _ => rfl) (by omega) (Nat.le_refl _) _ _ _⟩
      · rw [if_neg dots, content₃]
        rfl

end

end Holds

/-! ## The whole program -/

/-- The root as a tree. -/
def rootTree : Option HostList → HostTree
  | none => .closed
  | some entries => .dir entries

/-- The image before the first inode. -/
def blank : State :=
  { disk := { sb := ⟨size, nblocks, ninodes⟩ }
    freeblock := 29
    usedblocks := 29 }

theorem blank_holds : Holds blank fun _ => ⟨0, [], 0⟩ := by
  have noneUsed : ∀ i, ¬ blank.Used i := fun i used =>
    absurd (Nat.lt_of_le_of_lt used.1 used.2) (Nat.lt_irrefl 1)
  refine ⟨fun _ => 0, fun _ => none, ?_, fun i used => absurd used (noneUsed i)⟩
  constructor
  case sb => rfl
  case counters => rfl
  case low => exact Nat.le_refl 29
  case first => exact Nat.le_refl 1
  case unused => exact fun _ _ => rfl
  case range => exact fun b => ⟨nofun, fun bounds => absurd bounds.2 (Nat.not_lt.mpr bounds.1)⟩
  case freshByte => exact fun _ _ _ => rfl
  case freshWord => exact fun _ _ _ => rfl
  case ownedData => exact nofun
  case ownedIndirect => exact nofun
  all_goals exact fun i used => absurd used (noneUsed i)

theorem main_eq (root : Option HostList) :
    main root = match blank.addTree 1 (rootTree root) with
      | none => none
      | some (_, s) => s.balloc s.usedblocks := by
  have made : mkfs nblocks ninodes size = some blank := rfl
  rcases new : blank.ialloc tDir with _ | ⟨child, s₁⟩
  · cases root <;> simp [main, made, new, rootTree, State.addTree]
  obtain ⟨rfl, _⟩ := blank_holds.ialloc_spec new
  rw [show blank.freeinode = 1 from rfl] at new
  rcases dots : s₁.addDots 1 1 with _ | s₂
  · cases root <;> simp [main, made, new, dots, rootTree, State.addTree]
  cases root with
  | none => simp [main, made, new, dots, rootTree, State.addTree]
  | some entries =>
    rcases filled : s₂.addEntries 1 entries with _ | s₃
    · simp [main, made, new, dots, filled, rootTree, State.addTree]
    rcases fixed : s₃.fixSize 1 with _ | s₄
    · simp [main, made, new, dots, filled, fixed, rootTree, State.addTree]
    simp [main, made, new, dots, filled, fixed, rootTree, State.addTree]

theorem Holds.balloc_spec {s s' : State} {file : Nat → File} {used : Nat} (holds : Holds s file)
    (run : s.balloc used = some s') :
    used < 512 * 8 ∧ s'.freeinode = s.freeinode ∧ s'.usedblocks = s.usedblocks ∧
      (∀ b, s'.disk.bit (ninodes / ipb + 3) b = decide (b < used)) ∧ Holds s' file := by
  obtain ⟨count, owner, image, tight⟩ := holds
  rw [State.balloc] at run
  split_ifs at run with small
  rw [Option.some.injEq] at run
  subst run
  refine ⟨small, rfl, rfl, fun b => by simp, count, owner, ?_, tight⟩
  exact ⟨image.sb, image.counters, image.low, image.first, image.type, image.nlink, image.size,
    image.unused, image.data, image.beyond, image.direct, image.indirect, image.ownedData,
    image.ownedIndirect, image.range, image.freshByte, image.freshWord, image.bytes, image.fits⟩

theorem main_spec {root : Option HostList} {s : State} (run : main root = some s) :
    s.freeinode = 1 + (rootTree root).count ∧ s.usedblocks < 512 * 8 ∧
      (∀ b, s.disk.bit (ninodes / ipb + 3) b = decide (b < s.usedblocks)) ∧
      ∃ file, Holds s file ∧ (rootTree root).Placed file 1 s.freeinode 1 1 ∧
        Covered file 1 s.freeinode fun t => t.Within (rootTree root) := by
  rw [main_eq] at run
  rcases added : blank.addTree 1 (rootTree root) with _ | ⟨child, s₁⟩
  · simp [added] at run
  simp only [added] at run
  obtain ⟨rfl, inodes, file, holds, _, placed, covered⟩ := Holds.addTree_spec _ blank_holds added
  obtain ⟨small, inodes', blocks, bits, holds'⟩ := holds.balloc_spec run
  refine ⟨inodes'.trans inodes, blocks ▸ small, blocks ▸ bits, file, holds', ?_⟩
  rw [inodes']
  exact ⟨placed, covered⟩

end Mkfs

end Xv6
