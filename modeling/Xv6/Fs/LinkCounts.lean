import Xv6.Fs.TreeShape
import Xv6.Lib.Holders

/-!
# The link counts

A link count is at least the number of entries of live directories that name the inode,
with the links that `sys_link` has counted and not entered yet and those that `sys_unlink`
has cleared and not discounted yet.  Then `iput` frees no inode that the tree names, and a
path never leads to a free inode.

This needs that a directory is removed only when no one else uses it: the dotdot of a
removed directory is no longer counted, and a process that is still in it could follow it
to a parent that is gone as well.
-/

namespace Xv6.FileTree

open Function

/-! ## What a process owes and what it relies on -/

def Goal.pending (i : Nat) : Goal → Nat
  | linkTo target => if target = i then 1 else 0
  | _ => 0

/-- The links to `i` that are counted without an entry. -/
def Job.pending (ip i : Nat) : Job → Nat
  | walk goal _ => goal.pending i
  | linkAt _ target => if target = i then 1 else 0
  | linkFailed target => if target = i then 1 else 0
  | linkBad => if ip = i then 1 else 0
  | unlinked => if ip = i then 1 else 0
  | _ => 0

def Pc.pending (i : Nat) : Pc → Nat
  | idle => 0
  | locking ip job | locked ip job => job.pending ip i

/-- The references that must lead into the tree: not those to a new inode and not those to
a removed one. -/
def Job.firm (ip : Nat) : Job → List Nat
  | unlinked => []
  | createIn _ dp _ => [dp]
  | job => job.refs ip

def Pc.firm : Pc → List Nat
  | idle => []
  | locking ip job | locked ip job => job.firm ip

def Proc.firm (me : Proc) : List Nat := me.cwd.toList ++ me.files ++ me.pc.firm

/-- The new inode of `create`. -/
def Pc.new : Pc → Option Nat
  | locking ip (.createIn _ _ _) | locked ip (.createIn _ _ _) => some ip
  | _ => none

/-- What the process has seen in an inode that it has locked. -/
def Job.Seen (node : Nodes) (files : List Nat) (ip : Nat) : Job → Prop
  | unlinkIn dp off => Slot node dp off ip
  | use => ip ∈ files
  | _ => True

def Pc.Seen (node : Nodes) (files : List Nat) : Pc → Prop
  | idle => True
  | locking ip job | locked ip job => job.Seen node files ip

/-- A new inode that is not in the tree. -/
structure Fresh (node : Nodes) (live : Finset Nat) (ip : Nat) (type : FileType) : Prop where
  isNew : node ip = ⟨some type, 0, []⟩
  outside : ip ∉ live
  unnamed : ∀ d ∈ live, named node d ip = 0

def Pc.Fresh (node : Nodes) (live : Finset Nat) : Pc → Prop
  | locking ip (.createIn type _ _) | locked ip (.createIn type _ _) =>
    FileTree.Fresh node live ip type
  | _ => True

variable {i : Nat} {me : Proc}

theorem Proc.mem_held :
    i ∈ me.held ↔ i ∈ me.cwd ∨ i ∈ me.files ∨ i ∈ me.drops ∨ i ∈ me.pc.refs := by
  simp [Proc.held]

theorem Proc.mem_firm : i ∈ me.firm ↔ i ∈ me.cwd ∨ i ∈ me.files ∨ i ∈ me.pc.firm := by
  simp [Proc.firm]

variable {job : Job} {ip : Nat}

theorem Job.refs_of_firm (member : i ∈ job.firm ip) : i ∈ job.refs ip := by
  cases job <;> simp_all [Job.firm, Job.refs]

theorem Proc.held_of_firm (member : i ∈ me.firm) : i ∈ me.held := by
  rw [Proc.mem_firm] at member
  rw [Proc.mem_held]
  rcases member with cwd | file | firm
  · exact .inl cwd
  · exact .inr (.inl file)
  · refine .inr (.inr (.inr ?_))
    cases pc : me.pc with
    | idle => simp [pc, Pc.firm] at firm
    | locking ip job | locked ip job =>
      rw [pc] at firm
      exact Job.refs_of_firm firm

/-- An inode to which a process in the tree can get. -/
def Reached (node : Nodes) (live : Finset Nat) (i : Nat) : Prop :=
  i ∈ live ∨ i ≠ 0 ∧ ∃ d ∈ live, 0 < named node d i

variable {node node' : Nodes} {live live' : Finset Nat} {parent parent' : Nat → Nat} {me' : Proc}
  {alone : Nat → Prop} {j : Nat} {name : Name} {dp off : Nat}

section
variable (tree : IsTree node live parent)
include tree

theorem IsTree.reached_used (reached : Reached node live i) : (node i).type ≠ none := by
  rcases reached with inside | ⟨used, d, inside, isNamed⟩
  · simp [tree.dirs i inside]
  · exact tree.inUse d inside i used isNamed

theorem IsTree.reached_dir (reached : Reached node live i)
    (isDir : (node i).type = some .dir) : i ∈ live := by
  rcases reached with inside | ⟨used, d, inside, isNamed⟩
  · exact inside
  · exact (tree.below d inside i used isNamed isDir).1

theorem IsTree.reached_lookup
    (member : dp ∈ live) (found : dirlookup (node dp).entries name = some (off, i)) :
    Reached node live i := by
  obtain ⟨e, here, rfl, used, _⟩ := mem_of_dirlookup found
  rcases tree.reached member (List.mem_of_getElem? here) with inside | isNamed
  · exact .inl inside
  · exact .inr ⟨used, dp, member, isNamed⟩

end

/-! ## Critical sections -/

/-- What a critical section does: to the tree, to the process itself, and to what the
other processes rely on.  `alone` are the inodes that no other process holds. -/
structure Outcome (node node' : Nodes) (me me' : Proc) (live live' : Finset Nat)
    (parent parent' : Nat → Nat) (alone : Nat → Prop) : Prop where
  tree : IsTree node' live' parent'
  short : ∀ i, (node' i).nlink < 2 ^ 15
  counts : ∀ i, (node i).type ≠ none →
    (linkCount node' live' parent' i + me'.pc.pending i : Int) + (node i).nlink ≤
      (node' i).nlink + linkCount node live parent i + me.pc.pending i
  fresh : ∀ i, (node i).type = none → (node' i).type ≠ none →
    linkCount node' live' parent' i = 0 ∧ me'.pc.pending i = 0 ∧ 0 ≤ (node' i).nlink
  types : ∀ i, (node i).type ≠ none → (node' i).type = (node i).type
  keeps : ∀ i, i ∈ live → ¬alone i → i ∈ live'
  frame : ∀ i, i ∉ me.pc.locks → (node i).type ≠ none → node' i = node i
  unseen : ∀ i, i ∉ me.held → (node i).type ≠ none → i ∉ live →
    (∀ d ∈ live, named node d i = 0) → i ∉ live' ∧ ∀ d ∈ live', named node' d i = 0
  held : ∀ i ∈ me'.held, i ∈ me.held ∨ Reached node live i ∨ (node i).type = none
  used : ∀ i ∈ me'.held, (node' i).type ≠ none
  firm : ∀ i ∈ me'.firm, (node' i).type = some .dir → i ∈ live'
  seen : me'.pc.Seen node' me'.files
  isFresh : me'.pc.Fresh node' live'
  new : ∀ i ∈ me'.pc.new, (node i).type = none
  locks : ∀ i ∈ me'.pc.locks, i ∈ me.pc.locks

/-- What a process knows when it enters a critical section. -/
structure Entry (node : Nodes) (live : Finset Nat) (parent : Nat → Nat) (me : Proc) : Prop where
  tree : IsTree node live parent
  short : ∀ i, (node i).nlink < 2 ^ 15
  drops : me.drops = []
  floor : ∀ i, (node i).type ≠ none →
    (linkCount node live parent i + me.pc.pending i : Int) ≤ (node i).nlink
  used : ∀ i ∈ me.held, (node i).type ≠ none
  firm : ∀ i ∈ me.firm, (node i).type = some .dir → i ∈ live

theorem Entry.quiet (entry : Entry node live parent me)
    (pending : ∀ i, me'.pc.pending i ≤ me.pc.pending i)
    (held : ∀ i ∈ me'.held, i ∈ me.held ∨ Reached node live i)
    (firm : ∀ i ∈ me'.firm, i ∈ me.firm ∨ Reached node live i)
    (seen : me'.pc.Seen node me'.files) (new : me'.pc.new = none)
    (locks : ∀ i ∈ me'.pc.locks, i ∈ me.pc.locks) :
    Outcome node node me me' live live parent parent alone := by
  have isFresh : me'.pc.Fresh node live := by
    unfold Pc.new at new
    unfold Pc.Fresh
    split at new <;> simp_all
  refine ⟨entry.tree, entry.short, fun i _ => ?_, fun i free used => absurd free used,
    fun _ _ => rfl, fun _ inside _ => inside, fun _ _ _ => rfl,
    fun _ _ _ out unnamed => ⟨out, unnamed⟩,
    fun i member => (held i member).imp_right .inl, fun i member => ?_, fun i member isDir => ?_,
    seen, isFresh, by simp [new], locks⟩
  · have := pending i
    omega
  · rcases held i member with own | reached
    · exact entry.used i own
    · exact entry.tree.reached_used reached
  · rcases firm i member with own | reached
    · exact entry.firm i own isDir
    · exact entry.tree.reached_dir reached isDir

section Enter

variable {goal : Goal} {path : Path} {files : List Nat}

theorem Proc.enter_cwd : (me.enter goal ip path).cwd = me.cwd := by
  unfold Proc.enter
  split
  · rfl
  · split_ifs <;> rfl

theorem Proc.enter_files : (me.enter goal ip path).files = me.files := by
  unfold Proc.enter
  split
  · rfl
  · split_ifs <;> rfl

theorem Goal.failed_refs : goal.failed.refs = goal.refs := by
  cases goal <;> rfl

theorem Goal.failed_firm : goal.failed.firm = goal.refs := by
  cases goal <;> rfl

theorem Goal.failed_pending : goal.failed.pending i = goal.pending i := by
  cases goal <;> rfl

theorem Goal.failed_seen : goal.failed.Seen node files := by
  cases goal <;> trivial

theorem Goal.failed_new : goal.failed.new = none := by
  cases goal <;> rfl

theorem Goal.failed_locks : goal.failed.locks = [] := by
  cases goal <;> rfl

theorem Proc.enter_refs (member : j ∈ (me.enter goal ip path).drops ∨
    j ∈ (me.enter goal ip path).pc.refs) : j ∈ me.drops ∨ j = ip ∨ j ∈ goal.refs := by
  unfold Proc.enter at member
  split at member
  · simpa [Pc.refs, Job.refs] using member
  · split_ifs at member with parents
    · simp only [Goal.failed_refs, List.mem_cons] at member
      tauto
    · cases goal <;> simp_all [Goal.found, Pc.refs, Job.refs, Goal.refs, Goal.wantsParent]

theorem Proc.enter_firm (member : j ∈ (me.enter goal ip path).pc.firm) :
    j = ip ∨ j ∈ goal.refs := by
  unfold Proc.enter at member
  split at member
  · simpa [Pc.firm, Job.firm, Job.refs] using member
  · split_ifs at member with parents
    · exact .inr (Goal.failed_firm ▸ member)
    · cases goal <;> simp_all [Goal.found, Pc.firm, Job.firm, Job.refs, Goal.wantsParent]

theorem Proc.enter_pending : (me.enter goal ip path).pc.pending i = goal.pending i := by
  unfold Proc.enter
  split
  · rfl
  · split_ifs with parents
    · exact Goal.failed_pending
    · cases goal <;> simp_all [Goal.found, Pc.pending, Job.pending, Goal.pending, Goal.wantsParent]

theorem Proc.enter_seen : (me.enter goal ip path).pc.Seen node files := by
  unfold Proc.enter
  split
  · trivial
  · split_ifs
    · exact Goal.failed_seen
    · cases goal <;> trivial

theorem Proc.enter_new : (me.enter goal ip path).pc.new = none := by
  unfold Proc.enter
  split
  · rfl
  · split_ifs
    · exact Goal.failed_new
    · cases goal <;> rfl

theorem Proc.enter_locks : (me.enter goal ip path).pc.locks = [] := by
  unfold Proc.enter
  split
  · rfl
  · split_ifs
    · exact Goal.failed_locks
    · cases goal <;> rfl

end Enter

section Body

variable {room : Bool} {rank : Nat → Nat} {drops : List Nat} {pc : Pc} {ninodes fresh : Nat}
  {value : Int}

theorem Entry.leave (entry : Entry node live parent me) (here : me.pc = .locked ip job)
    (held : ip ∈ job.refs ip) :
    Outcome node node me (me.leave ip) live live parent parent alone := by
  refine entry.quiet (fun i => Nat.zero_le _) (fun i member => ?_) (fun i member => ?_) trivial rfl
    (by simp [Proc.leave, Pc.locks])
  · simp only [Proc.leave, Proc.mem_held, Pc.refs, here, List.mem_singleton, List.not_mem_nil,
      or_false] at member ⊢
    rcases member with cwd | file | rfl
    · exact .inl (.inl cwd)
    · exact .inl (.inr (.inl file))
    · exact .inl (.inr (.inr (.inr held)))
  · simp only [Proc.leave, Proc.mem_firm, Pc.firm, List.not_mem_nil, or_false] at member
    rw [Proc.mem_firm]
    tauto

theorem Entry.openFile (entry : Entry node live parent me)
    (here : me.pc = .locked ip job) (held : ip ∈ job.firm ip) :
    Outcome node node me (Job.openFile me ip room) live live parent parent alone := by
  unfold Job.openFile
  split_ifs
  · refine entry.quiet (fun i => Nat.zero_le _) (fun i member => .inl ?_)
      (fun i member => .inl ?_) trivial rfl (by simp [Pc.locks])
    · rw [Proc.mem_held] at member ⊢
      rcases member with cwd | file | drop | ref
      · exact .inl cwd
      · rcases List.mem_cons.mp file with rfl | file
        · exact .inr (.inr (.inr (here ▸ Job.refs_of_firm held)))
        · exact .inr (.inl file)
      · exact .inr (.inr (.inl drop))
      · simp [Pc.refs] at ref
    · rw [Proc.mem_firm] at member ⊢
      rcases member with cwd | file | ref
      · exact .inl cwd
      · rcases List.mem_cons.mp file with rfl | file
        · exact .inr (.inr (here ▸ held))
        · exact .inr (.inl file)
      · simp [Pc.firm] at ref
  · exact entry.leave here (Job.refs_of_firm held)

section Sub

variable {goal : Goal} {path : Path} {next : Nat}

theorem enter_held_sub (reached : next ∈ me.firm ∨ Reached node live next)
    (dropped : ∀ i ∈ drops, i ∈ me.held) (refs : ∀ i ∈ goal.refs, i ∈ me.firm) :
    ∀ i ∈ ({ me with drops := drops }.enter goal next path).held,
      i ∈ me.held ∨ Reached node live i := by
  intro i member
  rw [Proc.mem_held, Proc.enter_cwd, Proc.enter_files] at member
  rcases member with cwd | file | ref
  · exact .inl (Proc.mem_held.mpr (.inl cwd))
  · exact .inl (Proc.mem_held.mpr (.inr (.inl file)))
  · rcases Proc.enter_refs ref with drop | rfl | target
    · exact .inl (dropped i drop)
    · exact reached.imp_left Proc.held_of_firm
    · exact .inl (Proc.held_of_firm (refs i target))

theorem enter_firm_sub (reached : next ∈ me.firm ∨ Reached node live next)
    (refs : ∀ i ∈ goal.refs, i ∈ me.firm) :
    ∀ i ∈ ({ me with drops := drops }.enter goal next path).firm,
      i ∈ me.firm ∨ Reached node live i := by
  intro i member
  rw [Proc.mem_firm, Proc.enter_cwd, Proc.enter_files] at member
  rcases member with cwd | file | ref
  · exact .inl (Proc.mem_firm.mpr (.inl cwd))
  · exact .inl (Proc.mem_firm.mpr (.inr (.inl file)))
  · rcases Proc.enter_firm ref with rfl | target
    · exact reached
    · exact .inl (refs i target)

theorem Entry.enter (entry : Entry node live parent me) (drops : List Nat)
    (reached : next ∈ me.firm ∨ Reached node live next)
    (dropped : ∀ i ∈ drops, i ∈ me.held) (refs : ∀ i ∈ goal.refs, i ∈ me.firm)
    (pending : ∀ i, goal.pending i ≤ me.pc.pending i) :
    Outcome node node me ({ me with drops := drops }.enter goal next path) live live parent parent
      alone :=
  entry.quiet (fun i => by rw [Proc.enter_pending]; exact pending i)
    (enter_held_sub reached dropped refs) (enter_firm_sub reached refs) Proc.enter_seen
    Proc.enter_new (by simp [Proc.enter_locks])

theorem IsTree.namex_start (tree : IsTree node live parent) (me : Proc) (path : Path) :
    (if path.head? = some slash then rootino else me.cwd.getD rootino) ∈ me.firm ∨
      Reached node live (if path.head? = some slash then rootino else me.cwd.getD rootino) := by
  split_ifs
  · exact .inr (.inl tree.root)
  · cases cwd : me.cwd with
    | none => exact .inr (.inl tree.root)
    | some dir => exact .inl (Proc.mem_firm.mpr (.inl cwd))

end Sub

theorem Proc.held_cases (member : i ∈ ({ me with pc := pc, drops := drops } : Proc).held) :
    i ∈ me.held ∨ i ∈ drops ∨ i ∈ pc.refs := by
  rcases Proc.mem_held.mp member with cwd | file | rest
  · exact .inl (Proc.mem_held.mpr (.inl cwd))
  · exact .inl (Proc.mem_held.mpr (.inr (.inl file)))
  · exact .inr rest

theorem Proc.firm_cases (member : i ∈ ({ me with pc := pc, drops := drops } : Proc).firm) :
    i ∈ me.firm ∨ i ∈ pc.firm := by
  rcases Proc.mem_firm.mp member with cwd | file | ref
  · exact .inl (Proc.mem_firm.mpr (.inl cwd))
  · exact .inl (Proc.mem_firm.mpr (.inr (.inl file)))
  · exact .inr ref

theorem Entry.move (entry : Entry node live parent me)
    (dropped : ∀ i ∈ drops, i ∈ me.held ∨ Reached node live i)
    (refs : ∀ i ∈ pc.refs, i ∈ me.held ∨ Reached node live i)
    (firm : ∀ i ∈ pc.firm, i ∈ me.firm ∨ Reached node live i)
    (pending : ∀ i, pc.pending i ≤ me.pc.pending i) (seen : pc.Seen node me.files)
    (new : pc.new = none) (locks : ∀ i ∈ pc.locks, i ∈ me.pc.locks) :
    Outcome node node me { me with pc := pc, drops := drops } live live parent parent alone := by
  refine entry.quiet pending (fun i member => ?_) (fun i member => ?_) seen new locks
  · rcases Proc.held_cases member with own | drop | ref
    · exact .inl own
    · exact dropped i drop
    · exact refs i ref
  · exact (Proc.firm_cases member).elim .inl (firm i)

theorem Entry.goto (entry : Entry node live parent me)
    (refs : ∀ i ∈ pc.refs, i ∈ me.held ∨ Reached node live i)
    (firm : ∀ i ∈ pc.firm, i ∈ me.firm ∨ Reached node live i)
    (pending : ∀ i, pc.pending i ≤ me.pc.pending i) (seen : pc.Seen node me.files)
    (new : pc.new = none) (locks : ∀ i ∈ pc.locks, i ∈ me.pc.locks) :
    Outcome node node me { me with pc := pc } live live parent parent alone :=
  entry.move (fun _ member => .inl (Proc.mem_held.mpr (.inr (.inr (.inl member))))) refs firm
    pending seen new locks

section
variable (here : me.pc = .locked ip job)
include here

theorem Proc.held_of_refs (member : j ∈ job.refs ip) : j ∈ me.held :=
  Proc.mem_held.mpr (.inr (.inr (.inr (here ▸ member))))

theorem Proc.firm_of_job (member : j ∈ job.firm ip) : j ∈ me.firm :=
  Proc.mem_firm.mpr (.inr (.inr (here ▸ member)))

theorem Proc.locks_of_job : ∀ i ∈ [ip], i ∈ me.pc.locks := by
  simp [here, Pc.locks]

end

theorem Entry.walk (entry : Entry node live parent me) {goal : Goal} {path : Path}
    (here : me.pc = .locked ip (.walk goal path))
    (result : Job.walkBody node me ip goal path = .next node' me') :
    Outcome node node' me me' live live parent parent alone := by
  have mine : ip ∈ me.firm := Proc.firm_of_job here (by simp [Job.firm, Job.refs])
  have targets : ∀ i ∈ goal.refs, i ∈ me.firm := fun i member =>
    Proc.firm_of_job here (by simp [Job.firm, Job.refs, member])
  have pending : ∀ i, goal.pending i ≤ me.pc.pending i := fun i => by
    rw [here]
    exact le_refl _
  have drop : ∀ i ∈ [ip], i ∈ me.held := fun i member => by
    rw [List.mem_singleton.mp member]
    exact Proc.held_of_firm mine
  have failed : Outcome node node me { me with pc := goal.failed, drops := [ip] } live live parent
      parent alone := by
    refine entry.move (fun i member => .inl (drop i member)) (fun i member => ?_)
      (fun i member => ?_) (fun i => ?_) Goal.failed_seen Goal.failed_new
      (by simp [Goal.failed_locks])
    · exact .inl (Proc.held_of_firm (targets i (Goal.failed_refs ▸ member)))
    · exact .inl (targets i (Goal.failed_firm ▸ member))
    · rw [Goal.failed_pending]
      exact pending i
  unfold Job.walkBody at result
  split_ifs at result with isDir
  · cases result
    exact failed
  · have inside : ip ∈ live := entry.firm ip mine (not_not.mp isDir)
    split at result
    · simp at result
    · split_ifs at result with last
      · cases result
        refine entry.goto (fun i member => .inl ?_) (fun i member => .inl ?_) (fun i => ?_) ?_ ?_
          (fun i member => ?_)
        · refine Proc.held_of_refs here ?_
          cases goal <;> simp_all [Goal.foundParent, Pc.refs, Job.refs, Goal.refs]
        · refine Proc.firm_of_job here ?_
          cases goal <;> simp_all [Goal.foundParent, Pc.firm, Job.firm, Job.refs, Goal.refs]
        · rw [here]
          cases goal <;> simp [Goal.foundParent, Pc.pending, Job.pending, Goal.pending]
        · cases goal <;> trivial
        · cases goal <;> rfl
        · cases goal <;> simp [Goal.foundParent, Pc.locks, Job.locks] at member
      · split at result <;> cases result
        · exact failed
        next found =>
          exact entry.enter [ip] (.inr (entry.tree.reached_lookup inside found)) drop targets
            pending

theorem Entry.unlinkAt (entry : Entry node live parent me)
    (here : me.pc = .locked ip (.unlinkAt name))
    (result : Job.unlinkAtBody node me ip name = .next node' me') :
    Outcome node node' me me' live live parent parent alone := by
  have mine : ip ∈ me.firm := Proc.firm_of_job here (by simp [Job.firm, Job.refs])
  have leave : Outcome node node me (me.leave ip) live live parent parent alone :=
    entry.leave here (by simp [Job.refs])
  unfold Job.unlinkAtBody at result
  split_ifs at result with dots isDir
  · cases result
    exact leave
  · split at result <;> cases result
    · exact leave
    next off next found =>
      have inside : ip ∈ live := entry.firm ip mine (not_not.mp isDir)
      have reached := entry.tree.reached_lookup inside found
      obtain ⟨e, inSlot, same, used, rfl⟩ := mem_of_dirlookup found
      rw [not_or] at dots
      refine entry.goto (fun i member => ?_) (fun i member => ?_) (fun i => Nat.zero_le _)
        ⟨used, e, inSlot, same, dots⟩ rfl (fun i member => ?_)
      · rcases List.mem_pair.mp member with rfl | rfl
        · exact .inr reached
        · exact .inl (Proc.held_of_firm mine)
      · rcases List.mem_pair.mp member with rfl | rfl
        · exact .inr reached
        · exact .inl mine
      · rw [here]
        simpa [Pc.locks, Job.locks] using member

/-! ## Critical sections that change inodes -/

theorem toShort_eq (low : -2 ^ 15 ≤ value) (high : value < 2 ^ 15) : toShort value = value := by
  unfold toShort
  omega

theorem setNlink_nlink (node : Nodes) (ip i : Nat) (value : Int) :
    (setNlink node ip value i).nlink = if i = ip then toShort value else (node i).nlink := by
  by_cases here : i = ip <;> simp [setNlink, Node.setNlink, update_apply, here]

section
variable (entry : Entry node live parent me)
include entry

theorem Entry.changed (tree : IsTree node' live' parent') (short : ∀ i, (node' i).nlink < 2 ^ 15)
    (counts : ∀ i, i ≠ 0 →
      (linkCount node' live' parent' i + me'.pc.pending i : Int) + (node i).nlink ≤
        (node' i).nlink + linkCount node live parent i + me.pc.pending i)
    (types : ∀ i, (node' i).type = (node i).type) (keeps : ∀ i, i ∈ live → ¬alone i → i ∈ live')
    (frame : ∀ i, i ∉ me.pc.locks → node' i = node i)
    (unseen : ∀ i, i ∉ me.held → i ≠ 0 → i ∉ live →
      (∀ d ∈ live, named node d i = 0) → i ∉ live' ∧ ∀ d ∈ live', named node' d i = 0)
    (held : ∀ i ∈ me'.held, i ∈ me.held ∨ Reached node live i)
    (firm : ∀ i ∈ me'.firm, (node i).type = some .dir → i ∈ live')
    (seen : me'.pc.Seen node' me'.files) (new : me'.pc.new = none)
    (locks : ∀ i ∈ me'.pc.locks, i ∈ me.pc.locks) :
    Outcome node node' me me' live live' parent parent' alone := by
  have isFresh : me'.pc.Fresh node' live' := by
    unfold Pc.new at new
    unfold Pc.Fresh
    split at new <;> simp_all
  have nonzero : ∀ i, (node i).type ≠ none → i ≠ 0 := by
    rintro i used rfl
    exact used entry.tree.zero
  refine ⟨tree, short, fun i used => counts i (nonzero i used),
    fun i free used => absurd free (types i ▸ used), fun i _ => types i, keeps,
    fun i out _ => frame i out, fun i out used => unseen i out (nonzero i used),
    fun i member => (held i member).imp_right .inl, fun i member => ?_, fun i member isDir => ?_,
    seen, isFresh, by simp [new], locks⟩
  · rw [types]
    rcases held i member with own | reached
    · exact entry.used i own
    · exact entry.tree.reached_used reached
  · exact firm i member (types i ▸ isDir)

theorem Entry.counted (low : -2 ^ 15 ≤ value) (high : value < 2 ^ 15) (mine : ip ∈ me.pc.locks)
    (counts : ∀ i, (me'.pc.pending i : Int) + (if i = ip then (node ip).nlink else 0) ≤
      (if i = ip then value else 0) + me.pc.pending i)
    (held : ∀ i ∈ me'.held, i ∈ me.held ∨ Reached node live i)
    (firm : ∀ i ∈ me'.firm, i ∈ me.firm ∨ Reached node live i)
    (seen : me'.pc.Seen (setNlink node ip value) me'.files) (new : me'.pc.new = none)
    (locks : ∀ i ∈ me'.pc.locks, i ∈ me.pc.locks) :
    Outcome node (setNlink node ip value) me me' live live parent parent alone := by
  refine entry.changed (entry.tree.setNlink _ _) (fun i => ?_) (fun i _ => ?_) (by simp)
    (fun _ inside _ => inside) (fun i out => ?_) (fun i _ _ out unnamed => ⟨out, ?_⟩) held
    (fun i member isDir => ?_) seen new locks
  · rw [setNlink_nlink, toShort_eq low high]
    split_ifs
    · exact high
    · exact entry.short i
  · have := counts i
    rw [linkCount_setNlink, setNlink_nlink, toShort_eq low high]
    split_ifs at this ⊢ with same
    · rw [same] at this ⊢
      omega
    · omega
  · have other : i ≠ ip := by
      rintro rfl
      exact out mine
    rw [setNlink, update_of_ne other]
  · simpa [named] using unnamed
  · rcases firm i member with own | reached
    · exact entry.firm i own isDir
    · exact entry.tree.reached_dir reached isDir

theorem Entry.discount (here : me.pc = .locked ip job) (held : ip ∈ job.refs ip)
    (pending : ∀ i, job.pending ip i = if ip = i then 1 else 0) :
    Outcome node (setNlink node ip ((node ip).nlink - 1)) me (me.leave ip) live live parent parent
      alone := by
  have used := entry.used ip (Proc.held_of_refs here held)
  have floor := entry.floor ip used
  have short := entry.short ip
  have owed : ∀ i, me.pc.pending i = if ip = i then 1 else 0 := fun i => by
    rw [here]
    exact pending i
  rw [owed ip, if_pos rfl] at floor
  have quiet : Outcome node node me (me.leave ip) live live parent parent alone :=
    entry.leave here held
  refine entry.counted (by omega) (by omega) (by simp [here, Pc.locks]) (fun i => ?_)
    (fun i member => ?_) (fun i member => ?_) trivial rfl (by simp [Proc.leave, Pc.locks])
  · rw [owed]
    simp only [Proc.leave, Pc.pending]
    by_cases same : i = ip
    · subst same
      simp only [if_true]
      omega
    · rw [if_neg same, if_neg same, if_neg (Ne.symm same)]
      omega
  · rcases quiet.held i member with own | reached | free
    · exact .inl own
    · exact .inr reached
    · exact absurd free (quiet.used i member)
  · rw [Proc.mem_firm] at member
    simp only [Proc.leave, Pc.firm, List.not_mem_nil, or_false] at member
    rw [Proc.mem_firm]
    tauto

theorem Entry.link {new : Path}
    (here : me.pc = .locked ip (.link new)) (room : (node ip).nlink < 2 ^ 15 - 1) :
    Outcome node (setNlink node ip ((node ip).nlink + 1)) me (me.namex (.linkTo ip) new) live live
      parent parent alone := by
  have mine : ip ∈ me.firm := Proc.firm_of_job here (by simp [Job.firm, Job.refs])
  have floor := entry.floor ip (entry.used ip (Proc.held_of_firm mine))
  have start := entry.tree.namex_start me new
  have refs : ∀ i ∈ (Goal.linkTo ip).refs, i ∈ me.firm := fun i member => by
    rwa [List.mem_singleton.mp member]
  have drops : ∀ i ∈ me.drops, i ∈ me.held := fun i member =>
    Proc.mem_held.mpr (.inr (.inr (.inl member)))
  refine entry.counted (by omega) (by omega) (by simp [here, Pc.locks]) (fun i => ?_)
    (enter_held_sub start drops refs) (enter_firm_sub start refs) Proc.enter_seen Proc.enter_new
    (by simp [Proc.namex, Proc.enter_locks])
  rw [Proc.namex, Proc.enter_pending, here]
  simp only [Goal.pending, Pc.pending, Job.pending]
  by_cases same : i = ip
  · subst same
    simp only [if_true]
    omega
  · rw [if_neg same, if_neg same, if_neg (Ne.symm same)]
    omega

end

theorem Proc.held_of_drops (refs : ∀ i ∈ drops, i ∈ me.held)
    (member : i ∈ ({ me with pc := .idle, drops := drops } : Proc).held) : i ∈ me.held := by
  rcases Proc.held_cases member with own | drop | ref
  · exact own
  · exact refs i drop
  · simp [Pc.refs] at ref

theorem Entry.linkAt (entry : Entry node live parent me) {target : Nat}
    (here : me.pc = .locked ip (.linkAt name target)) (notDir : NotDir node target)
    (result : Job.linkAtBody node me ip name target = .next node' me') :
    Outcome node node' me me' live live parent parent alone := by
  have mine : ip ∈ me.firm := Proc.firm_of_job here (by simp [Job.firm, Job.refs])
  have theirs : target ∈ me.firm := Proc.firm_of_job here (by simp [Job.firm, Job.refs])
  unfold Job.linkAtBody at result
  split_ifs at result with isDir
  have inside : ip ∈ live := entry.firm ip mine (not_not.mp isDir)
  split at result <;> cases result
  next found =>
    refine entry.move (fun i member => ?_) (fun i member => .inl ?_) (fun i member => .inl ?_)
      (fun i => by rw [here]; exact le_refl _) trivial rfl (fun i member => ?_)
    · rw [List.mem_singleton.mp member]
      exact .inr (entry.tree.reached_lookup inside found)
    · exact Proc.held_of_refs here member
    · exact Proc.firm_of_job here member
    · rw [here]
      exact member
  next absent =>
    refine entry.changed (entry.tree.link inside absent notDir) (by simpa using entry.short)
      (fun i nonzero => ?_) (by simp) (fun _ inside _ => inside) (fun i out => ?_)
      (fun i out used outside unnamed => ⟨outside, fun d member => ?_⟩)
      (fun i member => .inl ?_) (fun i member isDir => ?_) trivial rfl (by simp [Pc.locks])
    · rw [entry.tree.linkCount_dirlink inside nonzero, dirlink_nlink, here]
      simp only [Pc.pending, Job.pending]
      push_cast
      omega
    · have other : i ≠ ip := by
        rintro rfl
        exact out (by simp [here, Pc.locks])
      rw [dirlink, update_of_ne other]
    · have other : ¬(d = ip ∧ target = i) := by
        rintro ⟨_, rfl⟩
        exact out (Proc.held_of_firm theirs)
      rw [entry.tree.named_dirlink inside used, if_neg other, unnamed d member]
    · refine Proc.held_of_drops (fun j drop => ?_) member
      rcases List.mem_pair.mp drop with rfl | rfl
      · exact Proc.held_of_firm mine
      · exact Proc.held_of_firm theirs
    · exact entry.firm i ((Proc.firm_cases member).resolve_right (by simp [Pc.firm])) isDir

theorem clear_nlink (node : Nodes) (dp off i : Nat) :
    (clear node dp off i).nlink = (node i).nlink := by
  by_cases here : i = dp <;> simp [clear, Node.setEntries, update_apply, here]

theorem Proc.held_unlinked (here : me.pc = .locked ip (.unlinkIn dp off))
    (member : i ∈ ({ me with pc := .locked ip .unlinked, drops := [dp] } : Proc).held) :
    i ∈ me.held := by
  rcases Proc.held_cases member with own | drop | ref
  · exact own
  · rw [List.mem_singleton.mp drop]
    exact Proc.held_of_refs here (by simp [Job.refs])
  · rw [List.mem_singleton.mp ref]
    exact Proc.held_of_refs here (by simp [Job.refs])

section UnlinkIn

section
variable (entry : Entry node live parent me) (here : me.pc = .locked ip (.unlinkIn dp off))
  (slot : Slot node dp off ip)
include entry here slot

theorem Entry.unlinkFile (inside : dp ∈ live) (notDir : (node ip).type ≠ some .dir) :
    Outcome node (clear node dp off) me { me with pc := .locked ip .unlinked, drops := [dp] }
      live live parent parent alone := by
  refine entry.changed (entry.tree.unlink inside slot notDir)
    (fun i => by rw [clear_nlink]; exact entry.short i) (fun i nonzero => ?_)
    (clear_type node dp off) (fun _ inside _ => inside) (fun i out => ?_)
    (fun i out used outside unnamed => ⟨outside, fun d member => ?_⟩)
    (fun i member => .inl (Proc.held_unlinked here member)) (fun i member isDir => ?_) trivial rfl
    (Proc.locks_of_job here)
  · have counted := entry.tree.linkCount_clear inside slot nonzero
    rw [← counted, clear_nlink, here]
    simp only [Pc.pending, Job.pending]
    push_cast
    omega
  · have other : i ≠ dp := by
      rintro rfl
      exact out (by simp [here, Pc.locks, Job.locks])
    rw [clear, update_of_ne other]
  · have counted := @IsTree.named_clear node live parent d dp i ip off entry.tree inside slot used
    rw [unnamed d member] at counted
    omega
  · exact entry.firm i ((Proc.firm_cases member).resolve_right (by simp [Pc.firm, Job.firm])) isDir

theorem Entry.unlinkDir (inside : dp ∈ live) (isDir : (node ip).type = some .dir)
    (empty : isdirempty (node ip).entries = true) (unused : alone ip)
    (notMine : ip ∉ me.cwd ∧ ip ∉ me.files) :
    Outcome node (setNlink (clear node dp off) dp ((clear node dp off dp).nlink - 1)) me
      { me with pc := .locked ip .unlinked, drops := [dp] } live (live.erase ip) parent parent
      alone := by
  obtain ⟨isLive, up, notRoot, _⟩ :=
    entry.tree.below dp inside ip slot.1 (entry.tree.named_slot inside slot) isDir
  have types := clear_type node dp off
  -- the dotdot of the directory is counted in its parent
  have parentCount : (1 : Int) ≤ (node dp).nlink := by
    have counted : (if parent ip = dp then 1 else 0) + named node ip dp ≤
        linkCount node live parent dp := named_le_linkCount isLive
    rw [if_pos up] at counted
    have := entry.floor dp (by simp [entry.tree.dirs dp inside])
    omega
  have short := entry.short dp
  have exact' : toShort ((clear node dp off dp).nlink - 1) = (node dp).nlink - 1 := by
    rw [clear_nlink, toShort_eq (by omega) (by omega)]
  refine entry.changed ((entry.tree.rmdir inside slot isDir empty).setNlink _ _) (fun i => ?_)
    (fun i nonzero => ?_) (fun i => ?_) (fun i member shared => ?_) (fun i out => ?_)
    (fun i out used outside unnamed => ⟨fun left => outside (Finset.mem_of_mem_erase left),
      fun d left => ?_⟩)
    (fun i member => .inl (Proc.held_unlinked here member)) (fun i member isDir => ?_) trivial rfl
    (Proc.locks_of_job here)
  · rw [setNlink_nlink, exact', clear_nlink]
    split_ifs
    · omega
    · exact entry.short i
  · have counted := entry.tree.linkCount_rmdir inside slot isDir empty nonzero
    rw [← counted, linkCount_setNlink, setNlink_nlink, exact',
      clear_nlink, here]
    simp only [Pc.pending, Job.pending]
    by_cases same : i = dp
    · subst same
      simp only [if_true]
      push_cast
      omega
    · rw [if_neg same, if_neg (Ne.symm same)]
      push_cast
      omega
  · rw [setNlink_type]
    exact types i
  · refine Finset.mem_erase.mpr ⟨?_, member⟩
    rintro rfl
    exact shared unused
  · have other : i ≠ dp := by
      rintro rfl
      exact out (by simp [here, Pc.locks, Job.locks])
    rw [setNlink, update_of_ne other, clear, update_of_ne other]
  · have member := Finset.mem_of_mem_erase left
    have counted := @IsTree.named_clear node live parent d dp i ip off entry.tree inside slot used
    rw [unnamed d member] at counted
    simp only [named, setNlink_entries] at counted ⊢
    omega
  · rw [Proc.mem_firm] at member
    simp only [Pc.firm, Job.firm, List.not_mem_nil, or_false] at member
    refine Finset.mem_erase.mpr ⟨?_, entry.firm i ?_ isDir⟩
    · rintro rfl
      exact member.elim notMine.1 notMine.2
    · rw [Proc.mem_firm]
      tauto

theorem Entry.unlinkIn (isDir : (node dp).type = some .dir)
    (unused : (node ip).type = some .dir → isdirempty (node ip).entries = true →
      alone ip ∧ ip ∉ me.cwd ∧ ip ∉ me.files)
    (result : Job.unlinkInBody node me ip dp off = .next node' me') :
    ∃ live', Outcome node node' me me' live live' parent parent alone := by
  have inside : dp ∈ live :=
    entry.firm dp (Proc.firm_of_job here (by simp [Job.firm, Job.refs])) isDir
  unfold Job.unlinkInBody at result
  split_ifs at result with negative full hasDir
  · cases result
    refine ⟨live, entry.move (fun i member => .inl ?_) (fun i member => .inl ?_)
      (fun i member => .inl ?_) (fun i => Nat.zero_le _) trivial rfl
      (by simp [here, Pc.locks, Job.locks])⟩
    · rw [List.mem_singleton.mp member]
      exact Proc.held_of_refs here (by simp [Job.refs])
    · rw [List.mem_singleton.mp member]
      exact Proc.held_of_refs here (by simp [Job.refs])
    · rw [List.mem_singleton.mp member]
      exact Proc.firm_of_job here (by simp [Job.firm, Job.refs])
  · cases result
    have empty : isdirempty (node ip).entries = true := by
      by_contra notEmpty
      exact full ⟨hasDir, notEmpty⟩
    exact ⟨live.erase ip, entry.unlinkDir here slot inside hasDir empty (unused hasDir empty).1
      (unused hasDir empty).2⟩
  · cases result
    exact ⟨live, entry.unlinkFile here slot inside hasDir⟩

end

end UnlinkIn

section Create

variable {type : FileType}

theorem IsTree.linkCount_of_free (tree : IsTree node live parent) (free : (node i).type = none)
    (used : i ≠ 0) : linkCount node live parent i = 0 := by
  refine Finset.sum_eq_zero fun d member => ?_
  have notParent : parent d ≠ i := by
    rintro rfl
    simp [tree.dirs _ (tree.parent_mem member)] at free
  rw [if_neg notParent, Nat.zero_add]
  by_contra isNamed
  exact tree.inUse d member i used (Nat.pos_of_ne_zero isNamed) free

theorem Entry.alloc (entry : Entry node live parent me) {fresh : Nat}
    (here : me.pc = .locked ip (.createAt type name)) (positive : 0 < fresh)
    (free : (node fresh).type = none) :
    Outcome node (update node fresh ⟨some type, 0, []⟩) me
      { me with pc := .locking fresh (.createIn type ip name) } live live parent parent alone := by
  have other : ∀ {j}, (node j).type ≠ none → j ≠ fresh := by
    rintro j used rfl
    exact used free
  have outside : fresh ∉ live := fun member => other (by simp [entry.tree.dirs _ member]) rfl
  have entries : ∀ d ∈ live, (update node fresh ⟨some type, 0, []⟩ d).entries =
      (node d).entries := fun d member => by
    rw [update_of_ne (other (by simp [entry.tree.dirs d member]))]
  have unnamed : ∀ d ∈ live, named node d fresh = 0 := fun d member => by
    by_contra isNamed
    exact entry.tree.inUse d member fresh (by omega) (Nat.pos_of_ne_zero isNamed) free
  have unnamed' : ∀ i, (∀ d ∈ live, named node d i = 0) → ∀ d ∈ live,
      named (update node fresh ⟨some type, 0, []⟩) d i = 0 := fun i none d member => by
    rw [named, entries d member]
    exact none d member
  have held : ∀ i ∈ ({ me with pc := .locking fresh (.createIn type ip name) } : Proc).held,
      i ∈ me.held ∨ i = fresh := by
    intro i member
    rcases Proc.held_cases member with own | drop | ref
    · exact .inl own
    · exact .inl (Proc.mem_held.mpr (.inr (.inr (.inl drop))))
    · rcases List.mem_pair.mp ref with rfl | rfl
      · exact .inr rfl
      · exact .inl (Proc.held_of_refs here (by simp [Job.refs]))
  refine ⟨entry.tree.change entries ?_ (fun d member => ?_) (fun d member i isNamed => ?_),
    fun i => ?_, fun i used => ?_, fun i isFree allocated => ?_, fun i used => ?_,
    fun _ inside _ => inside, fun i _ used => ?_, fun i _ _ out none => ⟨out, unnamed' i none⟩,
    fun i member => ?_, fun i member => ?_, fun i member isDir => ?_, trivial,
    ⟨by simp, outside, unnamed' fresh unnamed⟩, fun i member => ?_, fun i member => ?_⟩
  · rw [update_of_ne (by omega)]
    exact entry.tree.zero
  · rw [update_of_ne (other (by simp [entry.tree.dirs d member]))]
  · have : i ≠ fresh := by
      rintro rfl
      simp [unnamed d member] at isNamed
    rw [update_of_ne this]
  · rw [update_apply]
    split_ifs
    · exact (by decide : (0 : Int) < 2 ^ 15)
    · exact entry.short i
  · rw [linkCount_congr entries, update_of_ne (other used)]
    simp only [Pc.pending, Job.pending]
    omega
  · have same : i = fresh := by
      by_contra elsewhere
      rw [update_of_ne elsewhere] at allocated
      exact allocated isFree
    subst same
    rw [linkCount_congr entries, entry.tree.linkCount_of_free free (by omega)]
    simp [Pc.pending, Job.pending]
  · rw [update_of_ne (other used)]
  · rw [update_of_ne (other used)]
  · rcases held i member with own | rfl
    · exact .inl own
    · exact .inr (.inr free)
  · rcases held i member with own | rfl
    · rw [update_of_ne (other (entry.used i own))]
      exact entry.used i own
    · simp
  · have own : i ∈ me.firm := by
      rcases Proc.firm_cases member with own | ref
      · exact own
      · rw [List.mem_singleton.mp ref]
        exact Proc.firm_of_job here (by simp [Job.firm, Job.refs])
    rw [update_of_ne (other (entry.used i (Proc.held_of_firm own)))] at isDir
    exact entry.firm i own isDir
  · obtain rfl : fresh = i := by simpa [Pc.new] using member
    exact free
  · rw [here]
    simpa [Pc.locks, Job.locks] using member

theorem Entry.createAt (entry : Entry node live parent me)
    (here : me.pc = .locked ip (.createAt type name))
    (result : Job.createAtBody node me ip type name ninodes fresh = .next node' me') :
    Outcome node node' me me' live live parent parent alone := by
  have mine : ip ∈ me.firm := Proc.firm_of_job here (by simp [Job.firm, Job.refs])
  unfold Job.createAtBody at result
  rcases lookup : dirlookup (node ip).entries name with _ | ⟨off, inum⟩ <;>
    simp only [lookup] at result <;> split_ifs at result with isDir
  next found =>
    cases result
    exact entry.alloc here found.1 found.2.2
  · cases result
    have inside : ip ∈ live := entry.firm ip mine (not_not.mp isDir)
    have reached := entry.tree.reached_lookup inside lookup
    refine entry.move (fun i member => .inl ?_) (fun i member => .inr ?_) (fun i member => .inr ?_)
      (fun i => Nat.zero_le _) trivial rfl (by simp [Pc.locks, Job.locks])
    · rw [List.mem_singleton.mp member]
      exact Proc.held_of_firm mine
    · rwa [List.mem_singleton.mp member]
    · rwa [List.mem_singleton.mp member]

theorem Proc.held_created (here : me.pc = .locked ip (.createIn type dp name))
    (member : i ∈ ({ me with pc := .locked ip (.created type), drops := [dp] } : Proc).held) :
    i ∈ me.held := by
  rcases Proc.held_cases member with own | drop | ref
  · exact own
  · rw [List.mem_singleton.mp drop]
    exact Proc.held_of_refs here (by simp [Job.refs])
  · rw [List.mem_singleton.mp ref]
    exact Proc.held_of_refs here (by simp [Job.refs])

theorem Proc.firm_created
    (member : i ∈ ({ me with pc := .locked ip (.created type), drops := [dp] } : Proc).firm) :
    i = ip ∨ i ∈ me.firm :=
  (Proc.firm_cases member).elim .inr fun ref => .inl (List.mem_singleton.mp ref)

theorem Entry.createFile (entry : Entry node live parent me)
    (here : me.pc = .locked ip (.createIn type dp name)) (fresh : Fresh node live ip type)
    (inside : dp ∈ live) (notDir : type ≠ .dir) (absent : dirlookup (node dp).entries name = none) :
    Outcome node (dirlink (setNlink node ip 1) dp name ip) me
      { me with pc := .locked ip (.created type), drops := [dp] } live live parent parent
      alone := by
  have tree : IsTree (setNlink node ip 1) live parent := entry.tree.setNlink ip 1
  have other : dp ≠ ip := by
    rintro rfl
    exact fresh.outside inside
  have isType : (node ip).type = some type := by rw [fresh.isNew]
  have newNotDir : NotDir (setNlink node ip 1) ip := by simp [NotDir, isType, notDir]
  refine entry.changed (tree.link inside (by simpa using absent) newNotDir)
    (fun i => ?_) (fun i nonzero => ?_) (by simp) (fun _ inside _ => inside) (fun i out => ?_)
    (fun i out used outside unnamed => ⟨outside, fun d member => ?_⟩)
    (fun i member => .inl (Proc.held_created here member)) (fun i member isDir => ?_) trivial rfl
    (Proc.locks_of_job here)
  · rw [dirlink_nlink, setNlink_nlink]
    split_ifs
    · decide
    · exact entry.short i
  · rw [tree.linkCount_dirlink inside nonzero, linkCount_setNlink,
      dirlink_nlink, setNlink_nlink, here]
    simp only [Pc.pending, Job.pending]
    by_cases same : i = ip
    · subst same
      have : (node i).nlink = 0 := by rw [fresh.isNew]
      simp only [if_true, this, show toShort 1 = 1 from rfl]
      push_cast
      omega
    · rw [if_neg same, if_neg (Ne.symm same)]
      push_cast
      omega
  · simp only [here, Pc.locks, Job.locks, List.mem_cons, List.not_mem_nil, or_false,
      not_or] at out
    rw [dirlink, update_of_ne out.2, setNlink, update_of_ne out.1]
  · have notNew : ¬(d = dp ∧ ip = i) := by
      rintro ⟨_, rfl⟩
      exact out (Proc.held_of_refs here (by simp [Job.refs]))
    rw [tree.named_dirlink inside used, if_neg notNew, Nat.add_zero]
    simpa [named] using unnamed d member
  · rcases Proc.firm_created member with rfl | own
    · rw [isType, Option.some.injEq] at isDir
      exact absurd isDir notDir
    · exact entry.firm i own isDir

/-- The new directory with its dots, before it gets a name. -/
def withDots (node : Nodes) (ip dp : Nat) : Nodes :=
  dirlink (dirlink (setNlink (setNlink node ip 1) dp ((setNlink node ip 1 dp).nlink + 1))
    ip dot ip) ip dotdot dp

theorem withDots_type (node : Nodes) (ip dp i : Nat) :
    (withDots node ip dp i).type = (node i).type := by
  simp [withDots]

theorem withDots_entries_of_ne (node : Nodes) (dp : Nat) (other : i ≠ ip) :
    (withDots node ip dp i).entries = (node i).entries := by
  rw [withDots, dirlink, update_of_ne other, dirlink, update_of_ne other]
  simp

theorem withDots_entries (node : Nodes) {ip : Nat} (dp : Nat) (empty : (node ip).entries = [])
    (used : ip ≠ 0) : (withDots node ip dp ip).entries = [⟨ip, dot⟩, ⟨dp, dotdot⟩] := by
  simp [withDots, dirlink, Node.setEntries, empty, addEntry, used]

theorem withDots_nlink (node : Nodes) {ip dp : Nat} (other : dp ≠ ip) (i : Nat) :
    (withDots node ip dp i).nlink = if i = dp then toShort ((node dp).nlink + 1) else
      if i = ip then 1 else (node i).nlink := by
  simp only [withDots, dirlink_nlink, setNlink_nlink, if_neg other]
  rfl

theorem Entry.createDir (entry : Entry node live parent me)
    (here : me.pc = .locked ip (.createIn .dir dp name)) (fresh : Fresh node live ip .dir)
    (inside : dp ∈ live) (room : (node dp).nlink < 2 ^ 15 - 1)
    (absent : dirlookup (withDots node ip dp dp).entries name = none) :
    Outcome node (dirlink (withDots node ip dp) dp name ip) me
      { me with pc := .locked ip (.created .dir), drops := [dp] } live (insert ip live) parent
      (update parent ip dp) alone := by
  have other : ∀ {d}, d ∈ live → d ≠ ip := by
    rintro d member rfl
    exact fresh.outside member
  have isType : (node ip).type = some .dir := by rw [fresh.isNew]
  have used : ip ≠ 0 := by
    rintro rfl
    simp [entry.tree.zero] at isType
  have sameEntries : ∀ d ∈ live, (withDots node ip dp d).entries = (node d).entries :=
    fun d member => withDots_entries_of_ne node dp (other member)
  have dots := withDots_entries node dp (show (node ip).entries = [] by rw [fresh.isNew]) used
  have tree : IsTree (withDots node ip dp) live parent :=
    entry.tree.change sameEntries (by rw [withDots_type]; exact entry.tree.zero)
      (fun d _ => withDots_type node ip dp d) (fun d _ i _ => withDots_type node ip dp i)
  have unnamed : ∀ {i}, (∀ d ∈ live, named node d i = 0) →
      ∀ d ∈ live, named (withDots node ip dp) d i = 0 := fun none d member => by
    rw [named, sameEntries d member]
    exact none d member
  have floor := entry.floor dp (by simp [entry.tree.dirs dp inside])
  have raised : toShort ((node dp).nlink + 1) = (node dp).nlink + 1 :=
    toShort_eq (by omega) (by omega)
  refine entry.changed
    (tree.mkdir inside absent ((withDots_type node ip dp ip).trans isType) dots fresh.outside
      (unnamed fresh.unnamed))
    (fun i => ?_) (fun i nonzero => ?_) (fun i => by rw [dirlink_type, withDots_type])
    (fun _ member _ => Finset.mem_insert_of_mem member) (fun i out => ?_)
    (fun i out nonzero outside none => ?_)
    (fun i member => .inl (Proc.held_created here member)) (fun i member isDir => ?_) trivial rfl
    (Proc.locks_of_job here)
  · rw [dirlink_nlink, withDots_nlink node (other inside), raised]
    split_ifs
    · omega
    · decide
    · exact entry.short i
  · rw [tree.linkCount_mkdir inside dots fresh.outside nonzero, linkCount_congr sameEntries,
      dirlink_nlink, withDots_nlink node (other inside), raised, here]
    simp only [Pc.pending, Job.pending]
    by_cases isParent : i = dp
    · subst isParent
      rw [if_pos rfl, if_pos rfl, if_neg (other inside).symm]
      push_cast
      omega
    · rw [if_neg isParent, if_neg (Ne.symm isParent)]
      by_cases isNew : i = ip
      · subst isNew
        have : (node i).nlink = 0 := by rw [fresh.isNew]
        rw [if_pos rfl, if_pos rfl, this]
        push_cast
        omega
      · rw [if_neg isNew, if_neg (Ne.symm isNew)]
        push_cast
        omega
  · simp only [here, Pc.locks, Job.locks, List.mem_cons, List.not_mem_nil, or_false,
      not_or] at out
    rw [dirlink, update_of_ne out.2, withDots, dirlink, update_of_ne out.1,
      dirlink, update_of_ne out.1, setNlink, update_of_ne out.2, setNlink,
      update_of_ne out.1]
  · have notNew : i ≠ ip := by
      rintro rfl
      exact out (Proc.held_of_refs here (by simp [Job.refs]))
    refine ⟨fun member => ?_, fun d member => ?_⟩
    · exact (Finset.mem_insert.mp member).elim notNew outside
    · rw [tree.named_dirlink inside nonzero, if_neg fun both => notNew both.2.symm, Nat.add_zero]
      rcases Finset.mem_insert.mp member with rfl | member
      · simp [named, dots]
      · exact unnamed none d member
  · rcases Proc.firm_created member with rfl | own
    · exact Finset.mem_insert_self _ _
    · exact Finset.mem_insert_of_mem (entry.firm i own isDir)

theorem Entry.createIn (entry : Entry node live parent me)
    (here : me.pc = .locked ip (.createIn type dp name)) (fresh : Fresh node live ip type)
    (isDir : (node dp).type = some .dir) (room : type = .dir → (node dp).nlink < 2 ^ 15 - 1)
    (result : Job.createInBody node me ip type dp name = .next node' me') :
    ∃ live' parent', Outcome node node' me me' live live' parent parent' alone := by
  have inside : dp ∈ live :=
    entry.firm dp (Proc.firm_of_job here (by simp [Job.firm])) isDir
  unfold Job.createInBody at result
  simp only at result
  split_ifs at result with directory _ _ present present <;>
    cases result
  · subst directory
    exact ⟨_, _, entry.createDir here fresh inside (room rfl)
      (Option.not_isSome_iff_eq_none.mp present)⟩
  · refine ⟨_, _, entry.createFile here fresh inside directory ?_⟩
    simpa [Option.isSome_iff_ne_none] using present

end Create

/-- A condition on the critical sections: a directory is removed only if the process in
`sys_unlink` has the only reference to it, and no link count runs over. -/
def Job.Careful (node : Nodes) (refs : Nat → Nat) (ip : Nat) : Job → Prop
  | unlinkIn _ _ => (node ip).type = some .dir → isdirempty (node ip).entries = true →
      refs ip = 1
  | link _ => (node ip).nlink < 2 ^ 15 - 1
  | createIn type dp _ => type = .dir → (node dp).nlink < 2 ^ 15 - 1
  | _ => True

instance (node : Nodes) (refs : Nat → Nat) (ip : Nat) (job : Job) :
    Decidable (job.Careful node refs ip) := by
  apply Job.casesOn (motive := fun job => Decidable (job.Careful node refs ip)) job <;>
    intros <;> unfold Job.Careful <;> infer_instance

def Pc.Careful (node : Nodes) (refs : Nat → Nat) : Pc → Prop
  | locked ip job => job.Careful node refs ip
  | _ => True

instance (node : Nodes) (refs : Nat → Nat) : (pc : Pc) → Decidable (pc.Careful node refs)
  | .locked ip job => inferInstanceAs (Decidable (job.Careful node refs ip))
  | .idle | .locking _ _ => isTrue trivial

theorem Entry.body (entry : Entry node live parent me)
    {refs : Nat → Nat} (here : me.pc = .locked ip job) (ordered : job.Ordered node rank ip)
    (seen : job.Seen node me.files ip) (isFresh : me.pc.Fresh node live)
    (careful : job.Careful node refs ip)
    (unused : ip ∈ job.refs ip → refs ip = 1 → alone ip ∧ ip ∉ me.cwd ∧ ip ∉ me.files)
    (result : job.body ninodes fresh room node me ip = .next node' me') :
    ∃ live' parent', Outcome node node' me me' live live' parent parent' alone := by
  cases job with
  | walk goal path => exact ⟨_, _, entry.walk here result⟩
  | linkAt name target => exact ⟨_, _, entry.linkAt here ordered result⟩
  | unlinkAt name => exact ⟨_, _, entry.unlinkAt here result⟩
  | unlinkIn dp off =>
    obtain ⟨live', outcome⟩ := entry.unlinkIn here seen ordered.1
      (fun isDir empty => unused (by simp [Job.refs]) (careful isDir empty)) result
    exact ⟨live', _, outcome⟩
  | createAt type name => exact ⟨_, _, entry.createAt here result⟩
  | createIn type dp name =>
    rw [here] at isFresh
    exact entry.createIn here isFresh ordered.1 careful result
  | link new =>
    simp only [Job.body] at result
    split_ifs at result <;> cases result
    · exact ⟨_, _, entry.leave here (by simp [Job.refs])⟩
    · exact ⟨_, _, entry.link here careful⟩
  | linkBad | unlinked =>
    cases result
    exact ⟨_, _, entry.discount here (by simp [Job.refs]) fun _ => rfl⟩
  | put =>
    cases result
    exact ⟨_, _, entry.leave here (by simp [Job.refs])⟩
  | use =>
    cases result
    exact ⟨_, _, entry.goto (by simp [Pc.refs]) (by simp [Pc.firm]) (fun _ => Nat.zero_le _)
      trivial rfl (by simp [Pc.locks])⟩
  | linkFailed target =>
    cases result
    refine ⟨_, _, entry.move (fun i member => .inl ?_) (fun i member => .inl ?_)
      (fun i member => .inl ?_) (fun i => by rw [here]; exact le_refl _) trivial rfl
      (by simp [Pc.locks, Job.locks])⟩
    · rw [List.mem_singleton.mp member]
      exact Proc.held_of_refs here (by simp [Job.refs])
    · rw [List.mem_singleton.mp member]
      exact Proc.held_of_refs here (by simp [Job.refs])
    · rw [List.mem_singleton.mp member]
      exact Proc.firm_of_job here (by simp [Job.firm, Job.refs])
  | chdir =>
    simp only [Job.body] at result
    split_ifs at result <;> cases result
    · exact ⟨_, _, entry.leave here (by simp [Job.refs])⟩
    · refine ⟨live, parent, entry.quiet (fun i => Nat.zero_le _) (fun i member => .inl ?_)
        (fun i member => .inl ?_) trivial rfl (by simp [Pc.locks])⟩
      · rcases Proc.mem_held.mp member with cwd | file | drop | ref
        · obtain rfl : ip = i := by simpa using cwd
          exact Proc.held_of_refs here (by simp [Job.refs])
        · exact Proc.mem_held.mpr (.inr (.inl file))
        · exact Proc.mem_held.mpr (.inl (by simpa using drop))
        · simp [Pc.refs] at ref
      · rcases Proc.mem_firm.mp member with cwd | file | ref
        · obtain rfl : ip = i := by simpa using cwd
          exact Proc.firm_of_job here (by simp [Job.firm, Job.refs])
        · exact Proc.mem_firm.mpr (.inr (.inl file))
        · simp [Pc.firm] at ref
  | _ =>
    simp only [Job.body] at result
    split_ifs at result <;> cases result <;>
      first
      | exact ⟨_, _, entry.leave here (by simp [Job.refs])⟩
      | exact ⟨_, _, entry.openFile here (by simp [Job.firm, Job.refs])⟩

theorem Entry.call (entry : Entry node live parent me) (idle : me.pc = .idle) (request : Call) :
    Outcome node node me (me.call request) live live parent parent alone := by
  have goes : ∀ goal path, goal.refs = [] → (∀ i, goal.pending i = 0) →
      Outcome node node me (me.namex goal path) live live parent parent alone := by
    intro goal path refs pending
    refine entry.enter me.drops (entry.tree.namex_start me path) (fun i member => ?_)
      (by simp [refs]) (fun i => by simp [pending])
    exact Proc.mem_held.mpr (.inr (.inr (.inl member)))
  have stays : Outcome node node me me live live parent parent alone :=
    entry.quiet (fun _ => le_refl _) (fun _ member => .inl member) (fun _ member => .inl member)
      (by rw [idle]; trivial) (by rw [idle]; rfl) (fun _ member => member)
  cases request with
  | «open» path create rdonly => cases create <;> exact goes _ _ rfl fun _ => rfl
  | use file =>
    simp only [Proc.call]
    split
    · exact stays
    next ip opened =>
      have member := List.mem_of_getElem? opened
      exact entry.goto (by simp [Pc.refs, Job.refs]) (by simp [Pc.firm, Job.firm, Job.refs])
        (fun _ => Nat.zero_le _) member rfl (by simp [Pc.locks, Job.locks])
  | close file =>
    simp only [Proc.call]
    split
    · exact stays
    next ip opened =>
      have erased : ∀ {i}, i ∈ me.files.eraseIdx file → i ∈ me.files := fun member =>
        List.mem_of_mem_eraseIdx member
      refine entry.quiet (fun _ => le_refl _) (fun i member => .inl ?_)
        (fun i member => .inl ?_) (by simp only [idle]; trivial) (by simp only [idle]; rfl)
        (fun _ member => member)
      · rcases Proc.mem_held.mp member with cwd | opens | drop | ref
        · exact Proc.mem_held.mpr (.inl cwd)
        · exact Proc.mem_held.mpr (.inr (.inl (erased opens)))
        · rw [List.mem_singleton.mp drop]
          exact Proc.mem_held.mpr (.inr (.inl (List.mem_of_getElem? opened)))
        · exact Proc.mem_held.mpr (.inr (.inr (.inr ref)))
      · rcases Proc.mem_firm.mp member with cwd | opens | ref
        · exact Proc.mem_firm.mpr (.inl cwd)
        · exact Proc.mem_firm.mpr (.inr (.inl (erased opens)))
        · exact Proc.mem_firm.mpr (.inr (.inr ref))
  | exit =>
    refine entry.quiet (fun _ => le_refl _) (fun i member => .inl ?_) (fun i member => .inl ?_)
      (by simp only [Proc.call, idle]; trivial) (by simp only [Proc.call, idle]; rfl)
      (fun _ member => member)
    · rcases Proc.mem_held.mp member with cwd | opens | drop | ref
      · simp [Proc.call] at cwd
      · simp [Proc.call] at opens
      · rcases List.mem_append.mp drop with opens | cwd
        · exact Proc.mem_held.mpr (.inr (.inl opens))
        · exact Proc.mem_held.mpr (.inl (by simpa using cwd))
      · exact Proc.mem_held.mpr (.inr (.inr (.inr ref)))
    · rcases Proc.mem_firm.mp member with cwd | opens | ref
      · simp [Proc.call] at cwd
      · simp [Proc.call] at opens
      · exact Proc.mem_firm.mpr (.inr (.inr ref))
  | _ => exact goes _ _ rfl fun _ => rfl

end Body

end Xv6.FileTree
