import Xv6.Fs.LockOrder

/-!
# The shape of the directory tree

A set of live directories is a tree: each of them starts with its two dots, the root is
its own parent, and every other one is named exactly once, by its parent.  The links to an
inode are counted over the live directories, with the dotdot of each.
-/

namespace Xv6.FileTree

open Function

/-- The number of entries of `d` after the dots that name `i`. -/
def named (node : Nodes) (d i : Nat) : Nat := ((node d).entries.drop 2).countP (·.inum == i)

/-- The live directories of an image are a tree. -/
structure IsTree (node : Nodes) (live : Finset Nat) (parent : Nat → Nat) : Prop where
  zero : (node 0).type = none
  root : rootino ∈ live
  rootParent : parent rootino = rootino
  dirs : ∀ d ∈ live, (node d).type = some .dir
  dots : ∀ d ∈ live, (node d).entries.take 2 = [⟨d, dot⟩, ⟨parent d, dotdot⟩]
  plain : ∀ d ∈ live, ∀ e ∈ (node d).entries.drop 2, e.inum ≠ 0 →
    e.name ≠ dot ∧ e.name ≠ dotdot
  inUse : ∀ d ∈ live, ∀ i, i ≠ 0 → 0 < named node d i → (node i).type ≠ none
  below : ∀ d ∈ live, ∀ i, i ≠ 0 → 0 < named node d i → (node i).type = some .dir →
    i ∈ live ∧ parent i = d ∧ i ≠ rootino ∧ named node d i = 1
  above : ∀ d ∈ live, d ≠ rootino → parent d ∈ live ∧ 0 < named node (parent d) d

/-- The entries other than dot of live directories that name `i`. -/
def linkCount (node : Nodes) (live : Finset Nat) (parent : Nat → Nat) (i : Nat) : Nat :=
  ∑ d ∈ live, ((if parent d = i then 1 else 0) + named node d i)

variable {node node' : Nodes} {live : Finset Nat} {parent : Nat → Nat} {d dp i ip off inum : Nat}
  {name : Name} {e : Dirent}

namespace IsTree

section
variable (tree : IsTree node live parent)
include tree

section
variable (member : d ∈ live)
include member

theorem ne_zero : d ≠ 0 := by
  rintro rfl
  have isDir := tree.dirs 0 member
  simp [tree.zero] at isDir

theorem parent_mem : parent d ∈ live := by
  by_cases isRoot : d = rootino
  · rw [isRoot, tree.rootParent]
    exact tree.root
  · exact (tree.above d member isRoot).1

theorem entries : (node d).entries = ⟨d, dot⟩ :: ⟨parent d, dotdot⟩ :: (node d).entries.drop 2 := by
  conv_lhs => rw [← List.take_append_drop 2 (node d).entries, tree.dots d member]
  rfl

theorem reached (entry : e ∈ (node d).entries) : e.inum ∈ live ∨ 0 < named node d e.inum := by
  rw [tree.entries member] at entry
  rcases List.mem_cons.mp entry with rfl | entry
  · exact .inl member
  · rcases List.mem_cons.mp entry with rfl | entry
    · exact .inl (tree.parent_mem member)
    · exact .inr (List.countP_pos_iff.mpr ⟨e, entry, beq_self_eq_true _⟩)

end

theorem change (entries : ∀ d ∈ live, (node' d).entries = (node d).entries)
    (zero : (node' 0).type = none) (dirs : ∀ d ∈ live, (node' d).type = (node d).type)
    (types : ∀ d ∈ live, ∀ i, 0 < named node d i → (node' i).type = (node i).type) :
    IsTree node' live parent := by
  have same : ∀ d ∈ live, ∀ i, named node' d i = named node d i := fun d member i => by
    rw [named, named, entries d member]
  refine ⟨zero, tree.root, tree.rootParent, fun d member => ?_, fun d member => ?_,
    fun d member => ?_, fun d member i used isNamed => ?_, fun d member i used isNamed isDir => ?_,
    fun d member notRoot => ?_⟩
  · rw [dirs d member]
    exact tree.dirs d member
  · rw [entries d member]
    exact tree.dots d member
  · rw [entries d member]
    exact tree.plain d member
  · rw [same d member] at isNamed
    rw [types d member i isNamed]
    exact tree.inUse d member i used isNamed
  · rw [same d member] at isNamed ⊢
    rw [types d member i isNamed] at isDir
    exact tree.below d member i used isNamed isDir
  · obtain ⟨inside, isNamed⟩ := tree.above d member notRoot
    exact ⟨inside, (same _ inside d).symm ▸ isNamed⟩

theorem setNlink (ip : Nat) (nlink : Int) : IsTree (setNlink node ip nlink) live parent :=
  tree.change (by simp) (by simpa using tree.zero) (by simp) (by simp)

theorem plain_of_dirlookup (member : dp ∈ live)
    (absent : dirlookup (node dp).entries name = none) : name ≠ dot ∧ name ≠ dotdot := by
  have notFound : ∀ e ∈ (node dp).entries, ¬e.names name := by
    unfold dirlookup at absent
    split at absent
    next none => simpa [List.findIdx?_eq_none_iff] using none
    · simp at absent
  rw [tree.entries member] at notFound
  constructor
  · rintro rfl
    refine notFound ⟨dp, dot⟩ (by simp) ?_
    simpa [Dirent.names] using tree.ne_zero member
  · rintro rfl
    refine notFound ⟨parent dp, dotdot⟩ (by simp) ?_
    simpa [Dirent.names] using tree.ne_zero (tree.parent_mem member)

end

end IsTree

/-! ## Adding an entry -/

theorem countP_addEntry (rest : List Dirent) (entry : Dirent) (used : i ≠ 0) :
    (addEntry rest entry).countP (·.inum == i) =
      rest.countP (·.inum == i) + if entry.inum = i then 1 else 0 := by
  induction rest with
  | nil => simp [addEntry, List.countP_cons]
  | cons first rest ih =>
    by_cases free : first.inum = 0
    · have other : ¬first.inum = i := by omega
      simp [addEntry, free, List.countP_cons, Ne.symm used]
    · rw [addEntry, if_neg free, List.countP_cons, List.countP_cons, ih]
      omega

section
variable (tree : IsTree node live parent) (member : dp ∈ live)
include tree member

theorem IsTree.addEntry (entry : Dirent) :
    addEntry (node dp).entries entry = ⟨dp, dot⟩ :: ⟨parent dp, dotdot⟩ ::
      addEntry ((node dp).entries.drop 2) entry := by
  conv_lhs => rw [tree.entries member]
  simp [FileTree.addEntry, tree.ne_zero member, tree.ne_zero (tree.parent_mem member)]

theorem IsTree.named_dirlink (used : i ≠ 0) :
    named (dirlink node dp name inum) d i =
      named node d i + if d = dp ∧ inum = i then 1 else 0 := by
  by_cases here : d = dp
  · subst here
    simp only [named, dirlink, update_self, Node.setEntries, true_and]
    rw [tree.addEntry member, List.drop_succ_cons, List.drop_succ_cons, List.drop_zero,
      countP_addEntry _ _ used]
  · simp [named, dirlink, here]

theorem IsTree.dirlink_dots (inside : d ∈ live) :
    (dirlink node dp name inum d).entries.take 2 = [⟨d, dot⟩, ⟨parent d, dotdot⟩] := by
  by_cases here : d = dp
  · subst here
    simp only [dirlink, update_self, Node.setEntries]
    rw [tree.addEntry member]
    rfl
  · rw [dirlink, update_of_ne here]
    exact tree.dots d inside

theorem IsTree.dirlink_plain (fresh : name ≠ dot ∧ name ≠ dotdot) (inside : d ∈ live) :
    ∀ e ∈ (dirlink node dp name inum d).entries.drop 2, e.inum ≠ 0 →
      e.name ≠ dot ∧ e.name ≠ dotdot := by
  intro e entry used
  by_cases here : d = dp
  · subst here
    simp only [dirlink, update_self, Node.setEntries] at entry
    rw [tree.addEntry member] at entry
    rcases mem_addEntry entry with old | rfl
    · exact tree.plain d inside e old used
    · exact fresh
  · rw [dirlink, update_of_ne here] at entry
    exact tree.plain d inside e entry used

theorem IsTree.link (absent : dirlookup (node dp).entries name = none) (notDir : NotDir node inum) :
    IsTree (dirlink node dp name inum) live parent := by
  have counted := fun {d i} => @IsTree.named_dirlink node live parent d dp i inum name tree member
  refine ⟨by simpa using tree.zero, tree.root, tree.rootParent, by simpa using tree.dirs,
    fun d inside => tree.dirlink_dots member inside,
    fun d inside => tree.dirlink_plain member (tree.plain_of_dirlookup member absent) inside,
    fun d inside i used isNamed => ?_, fun d inside i used isNamed isDir => ?_,
    fun d inside notRoot => ?_⟩
  · rw [counted used] at isNamed
    rw [dirlink_type]
    split_ifs at isNamed with new
    · exact new.2 ▸ notDir.1
    · exact tree.inUse d inside i used isNamed
  · rw [dirlink_type] at isDir
    have other : ¬(d = dp ∧ inum = i) := by
      rintro ⟨_, rfl⟩
      exact notDir.2 isDir
    rw [counted used, if_neg other] at isNamed ⊢
    exact tree.below d inside i used isNamed isDir
  · obtain ⟨up, isNamed⟩ := tree.above d inside notRoot
    rw [counted (tree.ne_zero inside)]
    exact ⟨up, Nat.add_pos_left isNamed _⟩

end

/-! ## Clearing an entry -/

/-- The entry in slot `off` of `dp` is cleared. -/
def clear (node : Nodes) (dp off : Nat) : Nodes :=
  Function.update node dp ((node dp).setEntries ((node dp).entries.set off .zero))

/-- Slot `off` of `dp` holds a name for `ip` that is not one of the dots. -/
def Slot (node : Nodes) (dp off ip : Nat) : Prop :=
  ip ≠ 0 ∧ ∃ e, (node dp).entries[off]? = some e ∧ e.inum = ip ∧ e.name ≠ dot ∧ e.name ≠ dotdot

section
variable (tree : IsTree node live parent) (member : dp ∈ live) (slot : Slot node dp off ip)
include tree member slot

theorem IsTree.two_le : 2 ≤ off := by
  obtain ⟨_, e, here, _, notDot, notDotdot⟩ := slot
  rw [tree.entries member] at here
  match off with
  | 0 =>
    obtain rfl : _ = e := by simpa using here
    exact absurd rfl notDot
  | 1 =>
    obtain rfl : _ = e := by simpa using here
    exact absurd rfl notDotdot
  | off + 2 => omega

theorem IsTree.slot_drop : ∃ e, ((node dp).entries.drop 2)[off - 2]? = some e ∧ e.inum = ip := by
  have far := tree.two_le member slot
  obtain ⟨_, e, here, same, _⟩ := slot
  refine ⟨e, ?_, same⟩
  rw [List.getElem?_drop, ← here]
  congr 1
  omega

theorem IsTree.named_slot : 0 < named node dp ip := by
  obtain ⟨e, here, same⟩ := tree.slot_drop member slot
  exact List.countP_pos_iff.mpr ⟨e, List.mem_of_getElem? here, by simp [same]⟩

end

theorem countP_set_zero {rest : List Dirent} {k : Nat} (here : rest[k]? = some e)
    (used : i ≠ 0) : (rest.set k .zero).countP (·.inum == i) + (if e.inum = i then 1 else 0) =
      rest.countP (·.inum == i) := by
  induction rest generalizing k with
  | nil => simp at here
  | cons first rest ih =>
    cases k with
    | zero =>
      obtain rfl : first = e := by simpa using here
      simp [List.countP_cons, Dirent.zero, Ne.symm used]
    | succ k =>
      have := ih (by simpa using here)
      simp only [List.set_cons_succ, List.countP_cons]
      omega

section
variable (tree : IsTree node live parent)
include tree

theorem IsTree.named_clear (member : dp ∈ live) (slot : Slot node dp off ip) (used : i ≠ 0) :
    named (clear node dp off) d i + (if d = dp ∧ ip = i then 1 else 0) = named node d i := by
  by_cases here : d = dp
  · subst here
    obtain ⟨e, inSlot, rfl⟩ := tree.slot_drop member slot
    have far := tree.two_le member slot
    simp only [named, clear, update_self, Node.setEntries, true_and]
    rw [List.drop_set, if_neg (by omega)]
    exact countP_set_zero inSlot used
  · simp [named, clear, here]

theorem IsTree.clear_dots (member : dp ∈ live) (slot : Slot node dp off ip) (inside : d ∈ live) :
    (clear node dp off d).entries.take 2 = [⟨d, dot⟩, ⟨parent d, dotdot⟩] := by
  by_cases here : d = dp
  · subst here
    have far := tree.two_le member slot
    simp only [clear, update_self, Node.setEntries]
    rw [List.take_set_of_le far]
    exact tree.dots d inside
  · rw [clear, update_of_ne here]
    exact tree.dots d inside

theorem IsTree.clear_plain (inside : d ∈ live) :
    ∀ e ∈ (clear node dp off d).entries.drop 2, e.inum ≠ 0 →
      e.name ≠ dot ∧ e.name ≠ dotdot := by
  intro e entry used
  by_cases here : d = dp
  · subst here
    simp only [clear, update_self, Node.setEntries] at entry
    rw [List.drop_set] at entry
    split_ifs at entry
    · exact tree.plain d inside e entry used
    · rcases List.mem_or_eq_of_mem_set entry with old | rfl
      · exact tree.plain d inside e old used
      · exact absurd rfl used
  · rw [clear, update_of_ne here] at entry
    exact tree.plain d inside e entry used

theorem IsTree.unlink (member : dp ∈ live)
    (slot : Slot node dp off ip) (notDir : (node ip).type ≠ some .dir) :
    IsTree (clear node dp off) live parent := by
  have counted := fun {d i} => @IsTree.named_clear node live parent d dp i ip off tree member slot
  have types := clear_type node dp off
  refine ⟨(types 0).trans tree.zero, tree.root, tree.rootParent,
    fun d inside => (types d).trans (tree.dirs d inside),
    fun d inside => tree.clear_dots member slot inside, fun d inside => tree.clear_plain inside,
    fun d inside i used isNamed => ?_, fun d inside i used isNamed isDir => ?_,
    fun d inside notRoot => ?_⟩
  · rw [clear, types]
    refine tree.inUse d inside i used (lt_of_lt_of_le isNamed ?_)
    rw [← counted used]
    exact Nat.le_add_right _ _
  · rw [clear, types] at isDir
    have other : ¬(d = dp ∧ ip = i) := by
      rintro ⟨_, rfl⟩
      exact notDir isDir
    have same := @counted d i used
    rw [if_neg other, Nat.add_zero] at same
    rw [same] at isNamed ⊢
    exact tree.below d inside i used isNamed isDir
  · obtain ⟨up, isNamed⟩ := tree.above d inside notRoot
    have other : ¬(parent d = dp ∧ ip = d) := by
      rintro ⟨_, rfl⟩
      exact notDir (tree.dirs ip inside)
    have same := @counted (parent d) d (tree.ne_zero inside)
    rw [if_neg other, Nat.add_zero] at same
    exact ⟨up, same ▸ isNamed⟩

/-! ## Directories come and go -/

theorem IsTree.mkdir (member : dp ∈ live)
    (absent : dirlookup (node dp).entries name = none) (isDir : (node ip).type = some .dir)
    (entries : (node ip).entries = [⟨ip, dot⟩, ⟨dp, dotdot⟩]) (outside : ip ∉ live)
    (unnamed : ∀ d ∈ live, named node d ip = 0) :
    IsTree (dirlink node dp name ip) (insert ip live) (update parent ip dp) := by
  have used : ip ≠ 0 := by
    rintro rfl
    simp [tree.zero] at isDir
  have counted := fun {d i} => @IsTree.named_dirlink node live parent d dp i ip name tree member
  have other : ∀ {d}, d ∈ live → d ≠ ip := by
    rintro d inside rfl
    exact outside inside
  have empty : ∀ i, named node ip i = 0 := fun i => by simp [named, entries]
  refine ⟨by simpa using tree.zero, Finset.mem_insert_of_mem tree.root, ?_, ?_, ?_, ?_, ?_, ?_, ?_⟩
  · rw [update_of_ne (other tree.root)]
    exact tree.rootParent
  · intro d inside
    rw [dirlink_type]
    rcases Finset.mem_insert.mp inside with rfl | inside
    · exact isDir
    · exact tree.dirs d inside
  · intro d inside
    rcases Finset.mem_insert.mp inside with rfl | inside
    · rw [dirlink, update_of_ne (other member).symm, update_self, entries]
      rfl
    · rw [update_of_ne (other inside)]
      exact tree.dirlink_dots member inside
  · intro d inside e entry
    rcases Finset.mem_insert.mp inside with rfl | inside
    · rw [dirlink, update_of_ne (other member).symm, entries] at entry
      simp at entry
    · exact tree.dirlink_plain member (tree.plain_of_dirlookup member absent) inside e entry
  · intro d inside i nonzero isNamed
    rw [counted nonzero] at isNamed
    rw [dirlink_type]
    by_cases new : ip = i
    · rw [← new, isDir]
      simp
    · rw [if_neg (fun both => new both.2), Nat.add_zero] at isNamed
      rcases Finset.mem_insert.mp inside with rfl | inside
      · simp [empty] at isNamed
      · exact tree.inUse d inside i nonzero isNamed
  · intro d inside i nonzero isNamed hasType
    rw [counted nonzero] at isNamed ⊢
    rw [dirlink_type] at hasType
    rcases Finset.mem_insert.mp inside with rfl | inside
    · have : d ≠ dp := (other member).symm
      simp [empty, this] at isNamed
    · by_cases new : ip = i
      · subst new
        rw [unnamed d inside] at isNamed ⊢
        split_ifs at isNamed with here
        · rw [if_pos here, update_self]
          exact ⟨Finset.mem_insert_self _ _, here.1.symm, (other tree.root).symm, rfl⟩
        · simp at isNamed
      · have old : ¬(d = dp ∧ ip = i) := fun both => new both.2
        rw [if_neg old, Nat.add_zero] at isNamed ⊢
        obtain ⟨inside, up, notRoot, once⟩ := tree.below d inside i nonzero isNamed hasType
        rw [update_of_ne (other inside)]
        exact ⟨Finset.mem_insert_of_mem inside, up, notRoot, once⟩
  · intro d inside notRoot
    rcases Finset.mem_insert.mp inside with rfl | inside
    · rw [update_self, counted used, if_pos ⟨rfl, rfl⟩]
      exact ⟨Finset.mem_insert_of_mem member, Nat.succ_pos _⟩
    · obtain ⟨up, isNamed⟩ := tree.above d inside notRoot
      rw [update_of_ne (other inside), counted (tree.ne_zero inside)]
      exact ⟨Finset.mem_insert_of_mem up, Nat.add_pos_left isNamed _⟩

end

theorem named_of_isdirempty (empty : isdirempty (node ip).entries = true) (used : i ≠ 0) :
    named node ip i = 0 := by
  rw [named, List.countP_eq_zero]
  intro e entry same
  simp only [isdirempty, List.all_eq_true, beq_iff_eq] at empty
  have := empty e entry
  simp_all

theorem IsTree.parent_ne (tree : IsTree node live parent)
    (empty : isdirempty (node ip).entries = true) (inside : d ∈ live) (notRoot : d ≠ rootino) :
    parent d ≠ ip := by
  intro up
  have isNamed := (tree.above d inside notRoot).2
  rw [up, named_of_isdirempty empty (tree.ne_zero inside)] at isNamed
  omega

theorem IsTree.rmdir (tree : IsTree node live parent) (member : dp ∈ live)
    (slot : Slot node dp off ip) (isDir : (node ip).type = some .dir)
    (empty : isdirempty (node ip).entries = true) :
    IsTree (clear node dp off) (live.erase ip) parent := by
  have counted := fun {d i} => @IsTree.named_clear node live parent d dp i ip off tree member slot
  have types := clear_type node dp off
  obtain ⟨inside, up, notRoot, once⟩ :=
    tree.below dp member ip slot.1 (tree.named_slot member slot) isDir
  -- no directory names it any more
  have unnamed : ∀ d ∈ live, named (clear node dp off) d ip = 0 := by
    intro d dInside
    have same := @counted d ip slot.1
    by_cases here : d = dp
    · subst here
      rw [once, if_pos ⟨rfl, rfl⟩] at same
      omega
    · rw [if_neg (fun both => here both.1), Nat.add_zero] at same
      rw [same]
      by_contra isNamed
      have := tree.below d dInside ip slot.1 (Nat.pos_of_ne_zero isNamed) isDir
      exact here (this.2.1.symm.trans up)
  have same : ∀ {d i}, i ≠ 0 → i ≠ ip → named (clear node dp off) d i = named node d i := by
    intro d i nonzero other
    have := @counted d i nonzero
    rwa [if_neg (fun both => other both.2.symm), Nat.add_zero] at this
  refine ⟨(types 0).trans tree.zero, Finset.mem_erase.mpr ⟨notRoot.symm, tree.root⟩,
    tree.rootParent, fun d left => (types d).trans (tree.dirs d (Finset.mem_of_mem_erase left)),
    fun d left => tree.clear_dots member slot (Finset.mem_of_mem_erase left),
    fun d left => tree.clear_plain (Finset.mem_of_mem_erase left),
    fun d left i used isNamed => ?_, fun d left i used isNamed hasType => ?_,
    fun d left isNotRoot => ?_⟩
  · have dInside := Finset.mem_of_mem_erase left
    have other : i ≠ ip := by
      rintro rfl
      simp [unnamed d dInside] at isNamed
    rw [same used other] at isNamed
    exact (types i).symm ▸ tree.inUse d dInside i used isNamed
  · have dInside := Finset.mem_of_mem_erase left
    have other : i ≠ ip := by
      rintro rfl
      simp [unnamed d dInside] at isNamed
    rw [same used other] at isNamed ⊢
    obtain ⟨iInside, rest⟩ := tree.below d dInside i used isNamed ((types i) ▸ hasType)
    exact ⟨Finset.mem_erase.mpr ⟨other, iInside⟩, rest⟩
  · obtain ⟨dOther, dInside⟩ := Finset.mem_erase.mp left
    obtain ⟨upInside, isNamed⟩ := tree.above d dInside isNotRoot
    rw [same (tree.ne_zero dInside) dOther]
    exact ⟨Finset.mem_erase.mpr ⟨tree.parent_ne empty dInside isNotRoot, upInside⟩, isNamed⟩

/-! ## Counting the links -/

theorem linkCount_congr (entries : ∀ d ∈ live, (node' d).entries = (node d).entries) :
    linkCount node' live parent i = linkCount node live parent i :=
  Finset.sum_congr rfl fun d member => by rw [named, named, entries d member]

theorem linkCount_setNlink (nlink : Int) :
    linkCount (setNlink node ip nlink) live parent i = linkCount node live parent i :=
  linkCount_congr (by simp)

theorem named_le_linkCount (member : d ∈ live) :
    (if parent d = i then 1 else 0) + named node d i ≤ linkCount node live parent i :=
  Finset.single_le_sum (f := fun d => (if parent d = i then 1 else 0) + named node d i)
    (fun _ _ => Nat.zero_le _) member

theorem sum_indicator (member : dp ∈ live) (amount : Nat) :
    ∑ d ∈ live, (if d = dp then amount else 0) = amount := by
  rw [Finset.sum_ite_eq' live dp fun _ => amount, if_pos member]

section
variable (tree : IsTree node live parent) (member : dp ∈ live)
include tree member

theorem IsTree.linkCount_dirlink
    (used : i ≠ 0) : linkCount (dirlink node dp name inum) live parent i =
      linkCount node live parent i + if inum = i then 1 else 0 := by
  rw [linkCount, linkCount, ← sum_indicator member (if inum = i then 1 else 0),
    ← Finset.sum_add_distrib]
  refine Finset.sum_congr rfl fun d _ => ?_
  rw [tree.named_dirlink member used, ite_and]
  omega

theorem IsTree.linkCount_clear (slot : Slot node dp off ip) (used : i ≠ 0) :
    linkCount (clear node dp off) live parent i + (if ip = i then 1 else 0) =
      linkCount node live parent i := by
  rw [linkCount, linkCount, ← sum_indicator member (if ip = i then 1 else 0),
    ← Finset.sum_add_distrib]
  refine Finset.sum_congr rfl fun d _ => ?_
  have := @IsTree.named_clear node live parent d dp i ip off tree member slot used
  rw [ite_and] at this
  omega

theorem IsTree.linkCount_mkdir
    (entries : (node ip).entries = [⟨ip, dot⟩, ⟨dp, dotdot⟩]) (outside : ip ∉ live) (used : i ≠ 0) :
    linkCount (dirlink node dp name ip) (insert ip live) (update parent ip dp) i =
      linkCount node live parent i + (if ip = i then 1 else 0) + if dp = i then 1 else 0 := by
  have other : ∀ {d}, d ∈ live → d ≠ ip := by
    rintro d inside rfl
    exact outside inside
  have first : named (dirlink node dp name ip) ip i = 0 := by
    rw [tree.named_dirlink member used, if_neg fun both => other member both.1.symm]
    simp [named, entries]
  have rest : ∑ d ∈ live, ((if update parent ip dp d = i then 1 else 0) +
      named (dirlink node dp name ip) d i) = linkCount (dirlink node dp name ip) live parent i :=
    Finset.sum_congr rfl fun d inside => by rw [update_of_ne (other inside)]
  rw [linkCount, Finset.sum_insert outside, update_self, first, rest,
    tree.linkCount_dirlink member used]
  omega

theorem IsTree.linkCount_rmdir (slot : Slot node dp off ip) (isDir : (node ip).type = some .dir)
    (empty : isdirempty (node ip).entries = true) (used : i ≠ 0) :
    linkCount (clear node dp off) (live.erase ip) parent i + (if dp = i then 1 else 0) +
      (if ip = i then 1 else 0) = linkCount node live parent i := by
  obtain ⟨inside, up, notRoot, once⟩ :=
    tree.below dp member ip slot.1 (tree.named_slot member slot) isDir
  have other : ip ≠ dp := by
    rintro rfl
    exact tree.parent_ne empty inside notRoot up
  have whole := tree.linkCount_clear member slot used
  have split := Finset.add_sum_erase live (fun d => (if parent d = i then 1 else 0) +
    named (clear node dp off) d i) inside
  have gone := tree.named_clear (d := ip) member slot used
  rw [if_neg (fun both => other both.1), Nat.add_zero, named_of_isdirempty empty used] at gone
  simp only [up, gone, Nat.add_zero] at split
  rw [linkCount] at whole ⊢
  omega

end

end Xv6.FileTree
