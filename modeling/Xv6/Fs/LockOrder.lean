import Xv6.Fs.Tree

/-!
# The order of the inode locks

A process that waits for an inode while it holds another one is in `sys_unlink` or in
`create`.  It holds a directory and waits for an inode that the directory names, or for a
new one.  Every directory has a rank that is above the rank of the directory that names
it, and a new inode gets a rank above all others.  So the ranks increase along a chain of
waiting processes, and there is no cycle.
-/

namespace Xv6.FileTree

open Function

/-- The ranks increase from a directory to the directories in it. -/
def Ranked (node : Nodes) (rank : Nat → Nat) : Prop :=
  ∀ d, ∀ e ∈ (node d).entries, e.inum ≠ 0 → e.name ≠ dot → e.name ≠ dotdot →
    (node e.inum).type = some .dir → rank d < rank e.inum

/-- The inode is in use and not a directory. -/
def NotDir (node : Nodes) (i : Nat) : Prop :=
  (node i).type ≠ none ∧ (node i).type ≠ some .dir

/-- A process may hold `dp` while it waits for `ip`. -/
def Above (node : Nodes) (rank : Nat → Nat) (dp ip : Nat) : Prop :=
  (node dp).type = some .dir ∧ ((node ip).type = some .dir → rank dp < rank ip)

def Goal.Ordered (node : Nodes) : Goal → Prop
  | linkTo target => NotDir node target
  | _ => True

def Job.Ordered (node : Nodes) (rank : Nat → Nat) (ip : Nat) : Job → Prop
  | walk goal _ => goal.Ordered node
  | linkAt _ target => NotDir node target
  | unlinkIn dp _ => Above node rank dp ip
  | createIn _ dp _ => Above node rank dp ip
  | _ => True

def Pc.Ordered (node : Nodes) (rank : Nat → Nat) : Pc → Prop
  | idle => True
  | locking ip job => job.Ordered node rank ip
  | locked ip job => job.Ordered node rank ip ∧ (ip ∈ job.refs ip → (node ip).type ≠ none)

variable {node node' : Nodes} {rank rank' : Nat → Nat} {name : Name} {job : Job} {me : Proc}
  {goal : Goal} {room : Bool} {ip : Nat} {i : Nat} {refs : List Nat} {fresh : Node} {bound : Nat}

/-! ## Changes of the inodes -/

/-- What a step leaves to a process with these references.  A rank changes only when the
inode is allocated, and is then above all others. -/
structure Kept (node node' : Nodes) (rank rank' : Nat → Nat) (refs : List Nat) : Prop where
  types : ∀ i ∈ refs, (node i).type ≠ none → (node' i).type = (node i).type
  ranks : ∀ i, (node i).type ≠ none → rank' i = rank i
  fresh : ∀ i j, (node i).type = none → (node' i).type ≠ none → (node j).type ≠ none →
    rank' j < rank' i

theorem Kept.of_types (same : ∀ i, (node' i).type = (node i).type) (refs : List Nat) :
    Kept node node' rank rank refs :=
  ⟨fun i _ _ => same i, fun _ _ => rfl, fun i _ free used _ => absurd (same i ▸ free) used⟩

theorem NotDir.kept (kept : Kept node node' rank rank' refs)
    (member : i ∈ refs) (notDir : NotDir node i) : NotDir node' i := by
  rw [NotDir, kept.types i member notDir.1]
  exact notDir

theorem Above.kept (kept : Kept node node' rank rank' refs) {dp ip : Nat}
    (first : dp ∈ refs) (second : ip ∈ refs) (above : Above node rank dp ip) :
    Above node' rank' dp ip := by
  have used : (node dp).type ≠ none := by simp [above.1]
  refine ⟨(kept.types dp first used).trans above.1, fun isDir => ?_⟩
  by_cases free : (node ip).type = none
  · exact kept.fresh ip dp free (by simp [isDir]) used
  · rw [kept.ranks dp used, kept.ranks ip free]
    exact above.2 (kept.types ip second free ▸ isDir)

theorem Job.Ordered.kept
    (kept : Kept node node' rank rank' (job.refs ip)) (ordered : job.Ordered node rank ip) :
    job.Ordered node' rank' ip := by
  cases job with
  | walk goal path =>
    cases goal with
    | linkTo target => exact NotDir.kept kept (by simp [Job.refs, Goal.refs]) ordered
    | _ => trivial
  | linkAt name target => exact NotDir.kept kept (by simp [Job.refs]) ordered
  | unlinkIn dp off => exact Above.kept kept (by simp [Job.refs]) (by simp [Job.refs]) ordered
  | createIn type dp name =>
    exact Above.kept kept (by simp [Job.refs]) (by simp [Job.refs]) ordered
  | _ => trivial

theorem Pc.Ordered.kept {pc : Pc} (kept : Kept node node' rank rank' pc.refs)
    (ordered : pc.Ordered node rank) : pc.Ordered node' rank' := by
  cases pc with
  | idle => trivial
  | locking ip job => exact Job.Ordered.kept kept ordered
  | locked ip job =>
    refine ⟨Job.Ordered.kept kept ordered.1, fun member => ?_⟩
    rw [kept.types ip member (ordered.2 member)]
    exact ordered.2 member

theorem Ranked.mono (ranked : Ranked node rank) (same : ∀ i, (node' i).type = (node i).type)
    (entries : ∀ d, ∀ e ∈ (node' d).entries, e ∈ (node d).entries ∨ e.inum = 0 ∨
      e.name = dot ∨ e.name = dotdot ∨ ((node e.inum).type = some .dir → rank d < rank e.inum)) :
    Ranked node' rank := by
  intro d e member used notDot notDotdot isDir
  rw [same] at isDir
  rcases entries d e member with old | zero | named | named | below
  · exact ranked d e old used notDot notDotdot isDir
  · exact absurd zero used
  · exact absurd named notDot
  · exact absurd named notDotdot
  · exact below isDir

theorem Ranked.setNlink (ranked : Ranked node rank) (ip : Nat) (nlink : Int) :
    Ranked (setNlink node ip nlink) rank :=
  ranked.mono (by simp) fun _ _ member => .inl (by simpa using member)

theorem Ranked.dirlink (ranked : Ranked node rank) {dp inum : Nat}
    (fits : name = dot ∨ name = dotdot ∨ ((node inum).type = some .dir → rank dp < rank inum)) :
    Ranked (dirlink node dp name inum) rank := by
  refine ranked.mono (by simp) fun d e member => ?_
  rcases mem_dirlink member with old | ⟨rfl, rfl⟩
  · exact .inl old
  · exact .inr (.inr fits)

theorem clear_type (node : Nodes) (dp off i : Nat) :
    (update node dp ((node dp).setEntries ((node dp).entries.set off .zero)) i).type =
      (node i).type := by
  by_cases here : i = dp <;> simp [Node.setEntries, update_apply, here]

theorem Ranked.clear (ranked : Ranked node rank) (dp off : Nat) :
    Ranked (update node dp
      ((node dp).setEntries ((node dp).entries.set off .zero))) rank := by
  refine ranked.mono (clear_type node dp off) fun d e member => ?_
  by_cases here : d = dp
  · subst here
    rw [update_self] at member
    rcases List.mem_or_eq_of_mem_set member with old | rfl
    · exact .inl old
    · exact .inr (.inl rfl)
  · rw [update_of_ne here] at member
    exact .inl member

theorem Ranked.replace (ranked : Ranked node rank) {i bound : Nat}
    (empty : fresh.entries = []) (bounded : ∀ j, rank j < bound) :
    Ranked (update node i fresh) (update rank i bound) := by
  intro d e member used notDot notDotdot isDir
  have other : d ≠ i := by
    rintro rfl
    simp [empty] at member
  rw [update_of_ne other] at member ⊢
  by_cases here : e.inum = i
  · rw [here, update_self]
    exact bounded d
  · rw [update_of_ne here] at isDir ⊢
    exact ranked d e member used notDot notDotdot isDir

theorem Ranked.free (ranked : Ranked node rank)
    (empty : fresh.entries = []) (isFree : fresh.type = none) :
    Ranked (update node i fresh) rank := by
  intro d e member used notDot notDotdot isDir
  have other : d ≠ i := by
    rintro rfl
    simp [empty] at member
  have still : e.inum ≠ i := by
    intro here
    simp [here, isFree] at isDir
  rw [update_of_ne other] at member
  rw [update_of_ne still] at isDir
  exact ranked d e member used notDot notDotdot isDir

/-! ## Critical sections -/

theorem Goal.ordered_failed (goal : Goal) : (goal.failed).Ordered node rank := by
  cases goal <;> trivial

theorem Goal.ordered_found (goal : Goal) (ip : Nat) : (goal.found ip).Ordered node rank := by
  cases goal <;> trivial

theorem Goal.Ordered.foundParent (ordered : goal.Ordered node) (dp : Nat)
    (name : Name) : (goal.foundParent dp name).Ordered node rank := by
  cases goal <;> trivial

theorem Goal.Ordered.enter (ordered : goal.Ordered node) (me : Proc) (ip : Nat)
    (path : Path) : (me.enter goal ip path).pc.Ordered node rank := by
  unfold Proc.enter
  split
  · exact ordered
  · split_ifs
    · exact goal.ordered_failed
    · exact goal.ordered_found ip

theorem Proc.ordered_openFile : (Job.openFile me ip room).pc.Ordered node rank := by
  unfold Job.openFile Proc.leave
  split_ifs <;> trivial

/-- The state after a critical section: the ranks, and the place of the process. -/
structure Ordered (node node' : Nodes) (rank : Nat → Nat) (me : Proc) : Prop where
  intro ::
  step : ∃ rank' bound, (∀ i, rank' i < bound) ∧ Ranked node' rank' ∧
    me.pc.Ordered node' rank' ∧ ∀ refs, Kept node node' rank rank' refs

theorem Ordered.of_types (bounded : ∀ i, rank i < bound)
    (ranked : Ranked node' rank) (same : ∀ i, (node' i).type = (node i).type)
    (ordered : me.pc.Ordered node' rank) : Ordered node node' rank me :=
  ⟨rank, bound, bounded, ranked, ordered, Kept.of_types same⟩

theorem Ordered.of_same (bounded : ∀ i, rank i < bound)
    (ranked : Ranked node rank) (ordered : me.pc.Ordered node rank) : Ordered node node rank me :=
  .of_types bounded ranked (fun _ => rfl) ordered

section Body

variable {me' : Proc}

theorem ordered_walk (bounded : ∀ i, rank i < bound) (ranked : Ranked node rank)
    {path : Path} (ordered : goal.Ordered node)
    (result : Job.walkBody node me ip goal path = .next node' me') :
    Ordered node node' rank me' := by
  unfold Job.walkBody at result
  split_ifs at result
  · cases result
    exact .of_same bounded ranked goal.ordered_failed
  · split at result
    · simp at result
    · split_ifs at result
      · cases result
        exact .of_same bounded ranked (ordered.foundParent _ _)
      · split at result <;> cases result
        · exact .of_same bounded ranked goal.ordered_failed
        · exact .of_same bounded ranked (ordered.enter _ _ _)

theorem mem_of_dirlookup {entries : List Dirent} {off inum : Nat}
    (found : dirlookup entries name = some (off, inum)) :
    ∃ e, entries[off]? = some e ∧ e.inum = inum ∧ inum ≠ 0 ∧ e.name = name := by
  unfold dirlookup at found
  split at found
  · simp at found
  next off' here =>
    rw [List.findIdx?_eq_some_iff_getElem] at here
    obtain ⟨inside, names, _⟩ := here
    simp only [Option.some.injEq, Prod.mk.injEq] at found
    obtain ⟨rfl, rfl⟩ := found
    simp only [Dirent.names, Bool.and_eq_true, bne_iff_ne, ne_eq, beq_iff_eq] at names
    refine ⟨entries[off'], List.getElem?_eq_getElem inside, ?_, ?_, names.2⟩
    · simp [List.getElem?_eq_getElem inside]
    · simpa [List.getElem?_eq_getElem inside] using names.1

section
variable (bounded : ∀ i, rank i < bound) (ranked : Ranked node rank) {ninodes fresh : Nat}
  {type : FileType}
include bounded ranked

theorem ordered_unlinkAt (result : Job.unlinkAtBody node me ip name = .next node' me') :
    Ordered node node' rank me' := by
  unfold Job.unlinkAtBody at result
  split_ifs at result with dots isDir
  · cases result
    exact .of_same bounded ranked trivial
  · split at result <;> cases result
    · exact .of_same bounded ranked trivial
    next off inum found =>
      obtain ⟨e, here, rfl, used, rfl⟩ := mem_of_dirlookup found
      rw [not_or] at dots
      refine .of_same bounded ranked ⟨not_not.mp isDir, ?_⟩
      exact ranked ip e (List.mem_of_getElem? here) used dots.1 dots.2

theorem ordered_unlinkIn {dp off : Nat}
    (above : Above node rank dp ip) (used : (node ip).type ≠ none)
    (result : Job.unlinkInBody node me ip dp off = .next node' me') :
    Ordered node node' rank me' := by
  unfold Job.unlinkInBody at result
  split_ifs at result with _ _ isDir
  · cases result
    exact .of_same bounded ranked ⟨trivial, fun _ => by simp [above.1]⟩
  · cases result
    refine .of_types bounded ((ranked.clear dp off).setNlink _ _) (fun i => ?_)
      ⟨trivial, fun _ => ?_⟩
    · rw [setNlink_type, clear_type]
    · rw [setNlink_type, clear_type]
      exact used
  · cases result
    refine .of_types bounded (ranked.clear dp off) (clear_type node dp off) ⟨trivial, fun _ => ?_⟩
    rw [clear_type]
    exact used

theorem ordered_linkAt {target : Nat} (notDir : NotDir node target)
    (result : Job.linkAtBody node me ip name target = .next node' me') :
    Ordered node node' rank me' := by
  unfold Job.linkAtBody at result
  split_ifs at result with isDir
  split at result <;> cases result
  · exact .of_same bounded ranked ⟨trivial, fun _ => by simp [not_not.mp isDir]⟩
  · refine .of_types bounded (ranked.dirlink (.inr (.inr fun isDir => ?_))) (by simp) trivial
    exact absurd isDir notDir.2

theorem ordered_createAt
    (result : Job.createAtBody node me ip type name ninodes fresh = .next node' me') :
    Ordered node node' rank me' := by
  unfold Job.createAtBody at result
  rcases lookup : dirlookup (node ip).entries name with _ | ⟨off, inum⟩ <;>
    simp only [lookup] at result <;> split_ifs at result with isDir
  rotate_left
  · cases result
    exact .of_same bounded ranked trivial
  next found =>
    cases result
    -- the new inode gets the highest rank
    have used : ∀ {j}, (node j).type ≠ none → j ≠ fresh := by
      rintro j notFree rfl
      exact notFree found.2.2
    have isDir : (node ip).type = some .dir := not_not.mp isDir
    have other : ip ≠ fresh := used (by simp [isDir])
    refine ⟨update rank fresh bound, bound + 1, fun i => ?_, ranked.replace rfl bounded,
      ⟨?_, fun _ => ?_⟩, fun refs => ⟨fun i _ notFree => ?_, fun i notFree => ?_,
        fun i j free allocated notFree => ?_⟩⟩
    · have := bounded i
      rw [update_apply]
      split_ifs <;> omega
    · rw [update_of_ne other]
      exact isDir
    · rw [update_of_ne other, update_self]
      exact bounded ip
    · rw [update_of_ne (used notFree)]
    · rw [update_of_ne (used notFree)]
    · have here : i = fresh := by
        by_contra elsewhere
        rw [update_of_ne elsewhere] at allocated
        exact allocated free
      rw [here, update_self, update_of_ne (used notFree)]
      exact bounded j

theorem ordered_createIn {dp : Nat} (above : Above node rank dp ip) (used : (node ip).type ≠ none)
    (result : Job.createInBody node me ip type dp name = .next node' me') :
    Ordered node node' rank me' := by
  unfold Job.createInBody at result
  simp only at result
  split_ifs at result <;> cases result
  · refine .of_types bounded (Ranked.dirlink ?_ (.inr (.inr fun isDir => ?_))) (by simp)
      ⟨trivial, fun _ => by simpa using used⟩
    · exact (((ranked.setNlink _ _).setNlink _ _).dirlink (.inl rfl)).dirlink (.inr (.inl rfl))
    · exact above.2 (by simpa using isDir)
  · refine .of_types bounded (Ranked.dirlink (ranked.setNlink _ _) (.inr (.inr fun isDir => ?_)))
      (by simp) ⟨trivial, fun _ => by simpa using used⟩
    exact above.2 (by simpa using isDir)

theorem ordered_body (ordered : job.Ordered node rank ip)
    (used : ip ∈ job.refs ip → (node ip).type ≠ none)
    (result : job.body ninodes fresh room node me ip = .next node' me') :
    Ordered node node' rank me' := by
  cases job with
  | walk goal path => exact ordered_walk bounded ranked ordered result
  | linkAt name target => exact ordered_linkAt bounded ranked ordered result
  | unlinkAt name => exact ordered_unlinkAt bounded ranked result
  | unlinkIn dp off =>
    exact ordered_unlinkIn bounded ranked ordered (used (by simp [Job.refs])) result
  | createAt type name => exact ordered_createAt bounded ranked result
  | createIn type dp name =>
    exact ordered_createIn bounded ranked ordered (used (by simp [Job.refs])) result
  | link new =>
    simp only [Job.body] at result
    split_ifs at result with isDir <;> cases result
    · exact .of_same bounded ranked trivial
    · refine .of_types bounded (ranked.setNlink _ _) (by simp) (Goal.Ordered.enter ?_ _ _ _)
      simpa [Goal.Ordered, NotDir] using And.intro (used (by simp [Job.refs])) isDir
  | linkBad | unlinked =>
    cases result
    exact .of_types bounded (ranked.setNlink _ _) (by simp) trivial
  | use | put | linkFailed target =>
    cases result
    exact .of_same bounded ranked trivial
  | _ =>
    simp only [Job.body] at result
    split_ifs at result <;> cases result <;>
      first
      | exact .of_same bounded ranked Proc.ordered_openFile
      | exact .of_same bounded ranked trivial

end

end Body

namespace State

variable {Pid : Type} [Fintype Pid] [DecidableEq Pid] {s s' : State Pid} {ninodes : Nat}
  {action : Action Pid} {p q : Pid}

/-! ## Runs -/

/-- The lock order: the ranks and the processes agree, and a free inode is not in the cache. -/
structure LockOrder (s : State Pid) (rank : Nat → Nat) : Prop where
  bounded : ∃ bound, ∀ i, rank i < bound
  ranked : Ranked s.node rank
  ordered : ∀ p, (s.procs p).pc.Ordered s.node rank
  valid : ∀ i, s.valid i = true → (s.node i).type ≠ none

section
variable (order : s.LockOrder rank)
include order

omit [Fintype Pid] in
theorem LockOrder.setProc
    (ordered : me.pc.Ordered s.node rank) : (s.setProc p me).LockOrder rank := by
  refine ⟨order.bounded, order.ranked, fun q => ?_, order.valid⟩
  by_cases own : q = p
  · subst own
    simpa [State.setProc] using ordered
  · simpa [State.setProc, update_of_ne own] using order.ordered q

omit [Fintype Pid] [DecidableEq Pid] in
theorem LockOrder.call (p : Pid) (request : Call) :
    ((s.procs p).call request).pc.Ordered s.node rank := by
  have stays : (s.procs p).pc.Ordered s.node rank := order.ordered p
  cases request with
  | «open» path create rdonly => cases create <;> (apply Goal.Ordered.enter; trivial)
  | use file | close file =>
    simp only [Proc.call]
    split <;> first | exact stays | trivial
  | exit => exact stays
  | _ =>
    apply Goal.Ordered.enter
    trivial

omit [DecidableEq Pid] in
theorem LockOrder.iput : (s.iput i).LockOrder rank := by
  unfold State.iput
  split_ifs with unused free
  · have absent : ∀ {q j}, j ∈ (s.procs q).pc.refs → j ≠ i := by
      rintro q j member rfl
      exact refs_eq_zero.mp unused q (List.mem_append_right _ member)
    refine ⟨order.bounded, order.ranked.free rfl rfl, fun q => (order.ordered q).kept
      ⟨fun j member _ => ?_, fun _ _ => rfl, fun j k isFree allocated _ => ?_⟩,
      fun j valid => ?_⟩
    · simp only [update_of_ne (absent member)]
    · refine absurd isFree ?_
      by_cases here : j = i
      · simp [here] at allocated
      · simpa only [update_of_ne here] using allocated
    · have other : j ≠ i := by
        rintro rfl
        simp at valid
      simp only [update_of_ne other] at valid ⊢
      exact order.valid j valid
  · refine ⟨order.bounded, order.ranked, order.ordered, fun j valid => order.valid j ?_⟩
    by_cases here : j = i
    · simp [here] at valid
    · simpa [update_of_ne here] using valid
  · exact order

omit [Fintype Pid] in
theorem LockOrder.ilock (here : (s.procs p).pc = .locking ip job)
    (running : (s.ilock p ip job).stop = none) : (s.ilock p ip job).LockOrder rank := by
  have ordered : job.Ordered s.node rank ip := by simpa [here, Pc.Ordered] using order.ordered p
  have used : (s.node ip).type ≠ none := by
    intro isFree
    cases valid : s.valid ip with
    | false => simp [State.ilock, isFree, valid] at running
    | true => exact order.valid ip valid isFree
  have moved : (s.setProc p { s.procs p with pc := .locked ip job }).LockOrder rank :=
    order.setProc ⟨ordered, fun _ => used⟩
  refine ⟨moved.bounded, moved.ranked, moved.ordered, fun j valid => ?_⟩
  by_cases here : j = ip
  · exact here ▸ used
  · exact order.valid j (by simpa [State.ilock, update_of_ne here] using valid)

omit [Fintype Pid] in
theorem LockOrder.run {ip fresh : Nat} {node : Nodes} (here : (s.procs p).pc = .locked ip job)
    (result : job.body ninodes fresh room s.node (s.procs p) ip = .next node me) :
    ∃ rank', State.LockOrder { s.setProc p me with node := node } rank' := by
  obtain ⟨bound, bounded⟩ := order.bounded
  have mine := order.ordered p
  rw [here] at mine
  obtain ⟨rank', bound', bounded', ranked', ordered', kept⟩ :=
    (ordered_body bounded order.ranked mine.1 mine.2 result).step
  refine ⟨rank', ⟨bound', bounded'⟩, ranked', fun q => ?_, fun j valid => ?_⟩
  · by_cases own : q = p
    · subst own
      simpa [State.setProc] using ordered'
    · simpa [State.setProc, update_of_ne own] using (order.ordered q).kept (kept _)
  · have used := order.valid j valid
    exact (kept [j]).types j (by simp) used ▸ used

theorem LockOrder.step (taken : Step ninodes s action s') (running : s'.stop = none) :
    ∃ rank', s'.LockOrder rank' := by
  cases taken with
  | @call p request => exact ⟨rank, order.setProc (order.call p request)⟩
  | lock here _ free => exact ⟨rank, order.ilock here running⟩
  | run here _ result => exact order.run here result
  | panic here _ result => simp at running
  | @drop p i rest here =>
    have moved : (s.setProc p { s.procs p with drops := rest }).LockOrder rank :=
      order.setProc (order.ordered p)
    exact ⟨rank, moved.iput⟩

end

/-! ## The waiting processes -/

/-- The part of the lock order that is left when the machine has stopped. -/
def WaitsOrdered (s : State Pid) (rank : Nat → Nat) : Prop :=
  ∀ p ip job, (s.procs p).pc = .locking ip job → job.Ordered s.node rank ip

omit [Fintype Pid] [DecidableEq Pid] in
theorem LockOrder.waitsOrdered (order : s.LockOrder rank) : s.WaitsOrdered rank := by
  intro p ip job here
  simpa [here, Pc.Ordered] using order.ordered p

omit [DecidableEq Pid] in
theorem iput_stop (s : State Pid) (i : Nat) : (s.iput i).stop = s.stop := by
  unfold iput
  split_ifs <;> rfl

theorem LockOrder.stopped (order : s.LockOrder rank)
    (taken : Step ninodes s action s') (wasRunning : s.stop = none) (stopped : s'.stop ≠ none) :
    s'.WaitsOrdered rank := by
  cases taken with
  | call _ _ => exact absurd wasRunning stopped
  | run _ _ _ => exact absurd wasRunning stopped
  | panic _ _ _ => exact order.waitsOrdered
  | drop _ =>
    rw [iput_stop] at stopped
    exact absurd wasRunning stopped
  | @lock p ip job here _ _ =>
    intro q j job' waiting
    by_cases own : q = p
    · subst own
      simp [State.ilock, State.setProc] at waiting
    · exact order.waitsOrdered q j job'
        (by simpa [State.ilock, State.setProc, update_of_ne own] using waiting)

section
omit [Fintype Pid] [DecidableEq Pid]

section
variable (order : s.WaitsOrdered rank)
include order

theorem WaitsOrdered.above {j : Nat}
    (waiting : (s.procs q).pc = .locking j job) (waits : s.Waits p q) :
    ∃ i before, (s.procs p).pc = .locking i before ∧ Above s.node rank i j := by
  obtain ⟨i, before, here, locked⟩ := waits
  refine ⟨i, before, here, ?_⟩
  have mine := order q j job waiting
  rw [waiting] at locked
  cases job with
  | unlinkIn dp off | createIn type dp name =>
    obtain rfl : i = dp := List.mem_singleton.mp locked
    exact mine
  | _ => simp [Pc.locks, Job.locks] at locked

theorem WaitsOrdered.transGen
    {j : Nat} (chain : Relation.TransGen s.Waits p q) (waiting : (s.procs q).pc = .locking j job) :
    ∃ i before, (s.procs p).pc = .locking i before ∧ Above s.node rank i j := by
  induction chain generalizing j job with
  | single waits => exact order.above waiting waits
  | tail chain waits ih =>
    obtain ⟨k, middle, here, isDir, less⟩ := order.above waiting waits
    obtain ⟨i, before, first, isDir', less'⟩ := ih here
    exact ⟨i, before, first, isDir', fun above => (less' isDir).trans (less above)⟩

theorem WaitsOrdered.acyclic (p : Pid) : ¬Relation.TransGen s.Waits p p := by
  intro cycle
  obtain ⟨_, ⟨i, job, here, _⟩, _⟩ := Relation.TransGen.head'_iff.mp cycle
  obtain ⟨j, job', again, isDir, less⟩ := order.transGen cycle here
  obtain ⟨rfl, _⟩ := Pc.locking.inj (here.symm.trans again)
  exact (less isDir).false

end

end

/-- An image in which no directory is below itself. -/
def Acyclic (image : Nodes) : Prop :=
  ∃ rank bound, (∀ i, rank i < bound) ∧ Ranked image rank

theorem lockOrder_run {image : Nodes} (acyclic : Acyclic image)
    {trace : List (State Pid × Action Pid)} {guard : State Pid → Action Pid → Prop}
    (run : Transition.Run (step ninodes) guard (start image) trace s)
    (running : s.stop = none) : ∃ rank, s.LockOrder rank := by
  induction run with
  | nil =>
    obtain ⟨rank, bound, bounded, ranked⟩ := acyclic
    refine ⟨rank, ⟨bound, bounded⟩, ranked, fun _ => trivial, fun _ valid => ?_⟩
    simp [start] at valid
  | snoc before _ taken ih =>
    obtain ⟨wasRunning, taken⟩ := Step.of_step taken
    obtain ⟨rank, order⟩ := ih wasRunning
    exact order.step taken running

/-- In every state of every run, no process waits for an inode lock that is held by a
process that waits, directly or through others, for a lock of its own. -/
theorem inode_locks_acyclic {image : Nodes} (acyclic : Acyclic image)
    {trace : List (State Pid × Action Pid)}
    (run : Transition.Run (step ninodes) (fun _ _ => True) (start image) trace s) (p : Pid) :
    ¬Relation.TransGen s.Waits p p := by
  cases run with
  | nil =>
    obtain ⟨rank, order⟩ := lockOrder_run acyclic (.nil : Transition.Run (step ninodes)
      (fun _ _ => True) (start image : State Pid) _ _) rfl
    exact order.waitsOrdered.acyclic p
  | snoc before _ taken =>
    obtain ⟨wasRunning, taken⟩ := Step.of_step taken
    obtain ⟨rank, order⟩ := lockOrder_run acyclic before wasRunning
    by_cases running : s.stop = none
    · obtain ⟨rank, order⟩ := order.step taken running
      exact order.waitsOrdered.acyclic p
    · exact (order.stopped taken wasRunning running).acyclic p

theorem acyclic_rootOnly : Acyclic rootOnly := by
  refine ⟨fun _ => 0, 1, fun _ => Nat.one_pos, fun d e member used notDot notDotdot isDir => ?_⟩
  unfold rootOnly at member
  split_ifs at member
  · rcases List.mem_pair.mp member with rfl | rfl
    · exact absurd rfl notDot
    · exact absurd rfl notDotdot
  · simp at member

/-- Process 0 creates `/a` and holds the root, which process 1 waits for. -/
def mkdirAndOpen : List (Action (Fin 2)) :=
  [.call 0 (.mkdir [slash, 97]), .lock 0, .run 0 0 true, .lock 0, .run 0 2 true,
    .call 1 (.open [slash, 97] false true)]

theorem inode_locks_acyclic_mkdir :
    ∃ s, Transition.Run (step 200) (fun _ _ => True) (start rootOnly)
      (Transition.traceOf (step 200) (start rootOnly) mkdirAndOpen) s ∧
      s.Waits 1 0 ∧ ∀ p, ¬Relation.TransGen s.Waits p p := by
  have ran : ∃ s, Transition.Run (step 200) (fun _ _ => True) (start rootOnly)
      (Transition.traceOf (step 200) (start rootOnly) mkdirAndOpen) s ∧
      (s.procs 1).pc = .locking 1 (.walk (.open true) [slash, 97]) ∧
      1 ∈ (s.procs 0).pc.locks :=
    Transition.Run.of_exec_met _ (fun _ _ => trivial) (by decide +kernel)
  obtain ⟨s, run, waiting, locked⟩ := ran
  exact ⟨s, run, ⟨1, _, waiting, locked⟩, inode_locks_acyclic acyclic_rootOnly run⟩

end State

end Xv6.FileTree
