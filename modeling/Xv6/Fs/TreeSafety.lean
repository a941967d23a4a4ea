import Xv6.Fs.LinkCounts

/-!
# Runs on the directory tree

In a run in which directories are removed only when nothing else holds them, the link
count of an inode is at least the number of its names in the tree, no inode is freed that
the tree names, and no path leads to a free inode.
-/

namespace Xv6.FileTree

open Function

namespace State

variable {Pid : Type} [Fintype Pid] [DecidableEq Pid] {s s' : State Pid} {ninodes : Nat}
  {live live' : Finset Nat} {parent parent' : Nat → Nat} {rank : Nat → Nat} {p : Pid}
  {i : Nat} {node : Nodes} {job : Job} {ip : Nat} {pc : Pc} {rest : List Nat} {node' : Nodes}
  {image : Nodes} {room : Bool} {me : Proc}

/-- The links to `i` that processes have counted without an entry. -/
def pending (s : State Pid) (i : Nat) : Nat := ∑ p, (s.procs p).pc.pending i

/-- The tree and the processes agree. -/
structure Sound (s : State Pid) (live : Finset Nat) (parent : Nat → Nat) : Prop where
  tree : IsTree s.node live parent
  short : ∀ i, (s.node i).nlink < 2 ^ 15
  counts : ∀ i, (s.node i).type ≠ none →
    (linkCount s.node live parent i + s.pending i : Int) ≤ (s.node i).nlink
  used : ∀ p, ∀ i ∈ (s.procs p).held, (s.node i).type ≠ none
  firm : ∀ p, ∀ i ∈ (s.procs p).firm, (s.node i).type = some .dir → i ∈ live
  seen : ∀ p, (s.procs p).pc.Seen s.node (s.procs p).files
  isFresh : ∀ p, (s.procs p).pc.Fresh s.node live
  alone : ∀ p q, p ≠ q → ∀ i ∈ (s.procs p).pc.new, i ∉ (s.procs q).held
  exclusive : ∀ p q, p ≠ q → ∀ i ∈ (s.procs p).pc.locks, i ∉ (s.procs q).pc.locks

theorem pending_setProc (s : State Pid) (p : Pid) (me : Proc) (i : Nat) :
    (s.setProc p me).pending i + (s.procs p).pc.pending i = s.pending i + me.pc.pending i := by
  have moved := Holders.sum_update (fun q => (s.procs q).pc.pending i) p (me.pc.pending i)
  rw [pending, pending, ← moved]
  congr 1
  refine Finset.sum_congr rfl fun q _ => ?_
  by_cases own : q = p <;> simp [setProc, own]

omit [DecidableEq Pid] in
theorem Sound.entry (sound : s.Sound live parent) (drops : (s.procs p).drops = []) :
    Entry s.node live parent (s.procs p) := by
  refine ⟨sound.tree, sound.short, drops, fun i used => ?_, sound.used p, sound.firm p⟩
  have counts := sound.counts i used
  have mine : (s.procs p).pc.pending i ≤ s.pending i :=
    Finset.single_le_sum (f := fun q => (s.procs q).pc.pending i) (fun _ _ => Nat.zero_le _)
      (Finset.mem_univ p)
  omega

omit [DecidableEq Pid] in
theorem Sound.locks_held (sound : s.Sound live parent)
    (member : i ∈ (s.procs p).pc.locks) : i ∈ (s.procs p).held := by
  have seen := sound.seen p
  cases pc : (s.procs p).pc with
  | idle => simp [pc, Pc.locks] at member
  | locking ip job =>
    rw [pc] at member
    refine Proc.mem_held.mpr (.inr (.inr (.inr ?_)))
    rw [pc]
    cases job <;> simp_all [Pc.locks, Job.locks, Pc.refs, Job.refs]
  | locked ip job =>
    rw [pc] at member seen
    cases job with
    | use =>
      rw [List.mem_singleton.mp member]
      exact Proc.mem_held.mpr (.inr (.inl seen))
    | _ =>
      refine Proc.held_of_refs pc ?_
      simp_all [Pc.locks, Job.locks, Job.refs]

omit [Fintype Pid] [DecidableEq Pid] in
theorem pending_held (owed : (s.procs p).pc.pending i ≠ 0) : i ∈ (s.procs p).held := by
  refine Proc.mem_held.mpr (.inr (.inr (.inr ?_)))
  cases pc : (s.procs p).pc with
  | idle => simp [pc, Pc.pending] at owed
  | locking ip job | locked ip job =>
    rw [pc] at owed
    cases job with
    | walk goal path =>
      cases goal <;> simp_all [Pc.pending, Job.pending, Goal.pending, Pc.refs, Job.refs, Goal.refs]
    | _ => simp_all [Pc.pending, Job.pending, Pc.refs, Job.refs]

omit [DecidableEq Pid] in
theorem pending_eq_zero (free : ∀ p, i ∉ (s.procs p).held) : s.pending i = 0 :=
  Finset.sum_eq_zero fun p _ => by_contra fun owed => free p (pending_held owed)

omit [Fintype Pid] [DecidableEq Pid] in
theorem seen_kept (seen : (s.procs p).pc.Seen s.node (s.procs p).files)
    (same : ∀ i ∈ (s.procs p).pc.locks, i ∈ (s.procs p).held → node' i = s.node i) :
    (s.procs p).pc.Seen node' (s.procs p).files := by
  cases pc : (s.procs p).pc with
  | idle => trivial
  | locking ip job | locked ip job =>
    rw [pc] at seen same
    cases job with
    | unlinkIn dp off =>
      have kept : node' dp = s.node dp := same dp (by simp [Pc.locks, Job.locks])
        (Proc.mem_held.mpr (.inr (.inr (.inr (by simp [pc, Pc.refs, Job.refs])))))
      change Slot node' dp off ip
      rw [Slot, kept]
      exact seen
    | use => exact seen
    | _ => trivial

theorem fresh_kept {node node' : Nodes} (isFresh : pc.Fresh node live)
    (kept : ∀ i ∈ pc.new, ∀ type, Fresh node live i type → Fresh node' live' i type) :
    pc.Fresh node' live' := by
  unfold Pc.Fresh at isFresh ⊢
  unfold Pc.new at kept
  split at isFresh <;> simp_all

theorem fresh_of_new (isFresh : pc.Fresh node live)
    (member : i ∈ pc.new) : ∃ type, Fresh node live i type := by
  unfold Pc.Fresh at isFresh
  unfold Pc.new at member
  split at isFresh <;> simp_all
  all_goals exact ⟨_, isFresh⟩

theorem refs_of_new (member : i ∈ pc.new) : i ∈ pc.refs := by
  unfold Pc.new at member
  split at member <;> simp_all [Pc.refs, Job.refs]

section
variable (sound : s.Sound live parent)
include sound

theorem Sound.outcome {me' : Proc}
    (outcome : Outcome s.node node' (s.procs p) me' live live' parent parent'
      fun i => ∀ q, q ≠ p → i ∉ (s.procs q).held) :
    Sound { s.setProc p me' with node := node' } live' parent' := by
  have mine : (s.setProc p me').procs p = me' := by simp [setProc]
  have theirs : ∀ {q}, q ≠ p → (s.setProc p me').procs q = s.procs q := fun other => by
    simp [setProc, update_of_ne other]
  -- what the other processes have locked or created is left alone
  have untouched : ∀ {q}, q ≠ p → ∀ i, i ∈ (s.procs q).pc.locks ∨ i ∈ (s.procs q).pc.new →
      i ∈ (s.procs q).held → node' i = s.node i := by
    intro q other i member held
    refine outcome.frame i (fun locked => ?_) (sound.used q i held)
    rcases member with locks | new
    · exact sound.exclusive q p other i locks locked
    · exact sound.alone q p other i new (sound.locks_held locked)
  refine ⟨outcome.tree, outcome.short, fun i used => ?_, fun q i member => ?_,
    fun q i member isDir => ?_, fun q => ?_, fun q => ?_, fun q r differ i member held => ?_,
    fun q r differ i member held => ?_⟩
  · have moved := pending_setProc s p me' i
    change (linkCount node' live' parent' i + (s.setProc p me').pending i : Int) ≤ (node' i).nlink
    by_cases free : (s.node i).type = none
    · obtain ⟨none, nothing, positive⟩ := outcome.fresh i free used
      have unowed : s.pending i = 0 :=
        pending_eq_zero fun q member => sound.used q i member free
      omega
    · have counts := sound.counts i free
      have change := outcome.counts i free
      omega
  · rcases eq_or_ne q p with rfl | other
    · exact outcome.used i (mine ▸ member)
    · have used := sound.used q i (theirs other ▸ member)
      exact (outcome.types i used).symm ▸ used
  · rcases eq_or_ne q p with rfl | other
    · exact outcome.firm i (mine ▸ member) isDir
    · have own : i ∈ (s.procs q).firm := theirs other ▸ member
      have held := Proc.held_of_firm own
      rw [outcome.types i (sound.used q i held)] at isDir
      exact outcome.keeps i (sound.firm q i own isDir) fun unused => unused q other held
  · rcases eq_or_ne q p with rfl | other
    · change ((s.setProc q me').procs q).pc.Seen node' ((s.setProc q me').procs q).files
      rw [mine]
      exact outcome.seen
    · change ((s.setProc p me').procs q).pc.Seen node' ((s.setProc p me').procs q).files
      rw [theirs other]
      exact seen_kept (sound.seen q) fun i member held => untouched other i (.inl member) held
  · rcases eq_or_ne q p with rfl | other
    · change ((s.setProc q me').procs q).pc.Fresh node' live'
      rw [mine]
      exact outcome.isFresh
    · change ((s.setProc p me').procs q).pc.Fresh node' live'
      rw [theirs other]
      refine fresh_kept (sound.isFresh q) fun i new type fresh => ?_
      have held : i ∈ (s.procs q).held :=
        Proc.mem_held.mpr (.inr (.inr (.inr (refs_of_new new))))
      obtain ⟨outside, unnamed⟩ := outcome.unseen i (sound.alone q p other i new)
        (sound.used q i held) fresh.outside fresh.unnamed
      exact ⟨(untouched other i (.inr new) held).trans fresh.isNew, outside, unnamed⟩
  · change i ∈ ((s.setProc p me').procs q).pc.new at member
    change i ∈ ((s.setProc p me').procs r).held at held
    rcases eq_or_ne q p with rfl | other
    · rw [mine] at member
      rw [theirs differ.symm] at held
      exact sound.used r i held (outcome.new i member)
    · rw [theirs other] at member
      rcases eq_or_ne r p with rfl | third
      · rw [mine] at held
        obtain ⟨type, fresh⟩ := fresh_of_new (sound.isFresh q) member
        rcases outcome.held i held with own | reached | free
        · exact sound.alone q r differ i member own
        · rcases reached with inside | ⟨_, d, inside, isNamed⟩
          · exact fresh.outside inside
          · exact isNamed.ne' (fresh.unnamed d inside)
        · rw [fresh.isNew] at free
          simp at free
      · rw [theirs third] at held
        exact sound.alone q r differ i member held
  · change i ∈ ((s.setProc p me').procs q).pc.locks at member
    change i ∈ ((s.setProc p me').procs r).pc.locks at held
    rcases eq_or_ne q p with rfl | other
    · rw [mine] at member
      rw [theirs differ.symm] at held
      exact sound.exclusive q r differ i (outcome.locks i member) held
    · rw [theirs other] at member
      rcases eq_or_ne r p with rfl | third
      · rw [mine] at held
        exact sound.exclusive q r differ i member (outcome.locks i held)
      · rw [theirs third] at held
        exact sound.exclusive q r differ i member held

/-! ## Steps -/

theorem Sound.ilock (here : (s.procs p).pc = .locking ip job) (free : ¬s.Busy ip) :
    (s.ilock p ip job).Sound live parent := by
  have mine : (s.ilock p ip job).procs p = { s.procs p with pc := .locked ip job } := by
    simp [State.ilock, setProc]
  have theirs : ∀ {q}, q ≠ p → (s.ilock p ip job).procs q = s.procs q := fun other => by
    simp [State.ilock, setProc, update_of_ne other]
  have held : ∀ q, ((s.ilock p ip job).procs q).held = (s.procs q).held := fun q => by
    rcases eq_or_ne q p with rfl | other
    · rw [mine, Proc.held, Proc.held, here]
      rfl
    · rw [theirs other]
  have firm : ∀ q, ((s.ilock p ip job).procs q).firm = (s.procs q).firm := fun q => by
    rcases eq_or_ne q p with rfl | other
    · rw [mine, Proc.firm, Proc.firm, here]
      rfl
    · rw [theirs other]
  have new : ∀ q, ((s.ilock p ip job).procs q).pc.new = (s.procs q).pc.new := fun q => by
    rcases eq_or_ne q p with rfl | other
    · rw [mine, here]
      cases job <;> rfl
    · rw [theirs other]
  have locks : ∀ {q i}, i ∈ ((s.ilock p ip job).procs q).pc.locks →
      i ∈ (s.procs q).pc.locks ∨ q = p ∧ i = ip := by
    intro q i member
    rcases eq_or_ne q p with rfl | other
    · rw [mine] at member
      rw [here]
      rcases List.mem_cons.mp member with rfl | member
      · exact .inr ⟨rfl, rfl⟩
      · exact .inl member
    · exact .inl (theirs other ▸ member)
  have pending : ∀ i, (s.ilock p ip job).pending i = s.pending i := fun i => by
    refine Finset.sum_congr rfl fun q _ => ?_
    rcases eq_or_ne q p with rfl | other
    · rw [mine, here]
      rfl
    · rw [theirs other]
  refine ⟨sound.tree, sound.short, fun i used => ?_, fun q i member => ?_, fun q i member => ?_,
    fun q => ?_, fun q => ?_, fun q r differ i member => ?_, fun q r differ i member again => ?_⟩
  · rw [pending]
    exact sound.counts i used
  · exact sound.used q i (held q ▸ member)
  · exact sound.firm q i (firm q ▸ member)
  · have seen := sound.seen q
    rcases eq_or_ne q p with rfl | other
    · rw [mine]
      rw [here] at seen
      exact seen
    · rw [theirs other]
      exact seen
  · have isFresh := sound.isFresh q
    rcases eq_or_ne q p with rfl | other
    · rw [mine]
      rw [here] at isFresh
      cases job <;> exact isFresh
    · rw [theirs other]
      exact isFresh
  · rw [held r]
    exact sound.alone q r differ i (new q ▸ member)
  · rcases locks member with first | ⟨isP, same⟩
    · rcases locks again with second | ⟨_, same⟩
      · exact sound.exclusive q r differ i first second
      · exact free ⟨q, same ▸ first⟩
    · rcases locks again with second | ⟨isP', _⟩
      · exact free ⟨r, same ▸ second⟩
      · exact differ (isP.trans isP'.symm)

omit [DecidableEq Pid] in
theorem Sound.unlinked (used : (s.node i).type ≠ none) (none : (s.node i).nlink = 0) :
    i ∉ live ∧ (∀ d ∈ live, named s.node d i = 0) ∧ ∀ d ∈ live, parent d ≠ i := by
  have counts := sound.counts i used
  have zero : linkCount s.node live parent i = 0 := by omega
  have each : ∀ d ∈ live, (if parent d = i then 1 else 0) + named s.node d i = 0 := by
    intro d member
    have part : (if parent d = i then 1 else 0) + named s.node d i ≤
      linkCount s.node live parent i := named_le_linkCount member
    omega
  have unnamed : ∀ d ∈ live, named s.node d i = 0 := fun d member => by
    have := each d member
    omega
  have notParent : ∀ d ∈ live, parent d ≠ i := fun d member up => by
    have := each d member
    rw [if_pos up] at this
    omega
  refine ⟨fun member => ?_, unnamed, notParent⟩
  by_cases isRoot : i = rootino
  · exact notParent i member (isRoot ▸ sound.tree.rootParent)
  · obtain ⟨inside, isNamed⟩ := sound.tree.above i member isRoot
    exact isNamed.ne' (unnamed _ inside)

omit [DecidableEq Pid] in
theorem Sound.iput (order : s.LockOrder rank) (i : Nat) : (s.iput i).Sound live parent := by
  unfold State.iput
  split_ifs with unused free
  · obtain ⟨outside, unnamed, _⟩ := sound.unlinked (order.valid i free.1) free.2
    have other : ∀ {q j}, j ∈ (s.procs q).held → j ≠ i := by
      rintro q j member rfl
      exact refs_eq_zero.mp unused q member
    have inside : ∀ {d}, d ∈ live → d ≠ i := by
      rintro d member rfl
      exact outside member
    have entries : ∀ d ∈ live, (update s.node i ⟨none, (s.node i).nlink, []⟩ d).entries =
        (s.node d).entries := fun d member => by rw [update_of_ne (inside member)]
    have kept : ∀ {j}, j ≠ i →
        update s.node i ⟨none, (s.node i).nlink, []⟩ j = s.node j := fun differs =>
      update_of_ne differs _ _
    refine ⟨sound.tree.change entries ?_ (fun d member => ?_) (fun d member j isNamed => ?_),
      fun j => ?_, fun j used => ?_, fun q j member => ?_, fun q j member isDir => ?_, fun q => ?_,
      fun q => ?_, sound.alone, sound.exclusive⟩
    · simp only [update_apply]
      split_ifs
      · rfl
      · exact sound.tree.zero
    · simp only [kept (inside member)]
    · have : j ≠ i := by
        rintro rfl
        exact isNamed.ne' (unnamed d member)
      simp only [kept this]
    · simp only [update_apply]
      split_ifs
      · exact sound.short i
      · exact sound.short j
    · have : j ≠ i := by
        rintro rfl
        simp at used
      simp only [kept this] at used ⊢
      rw [linkCount_congr entries]
      exact sound.counts j used
    · simp only [kept (other member)]
      exact sound.used q j member
    · simp only [kept (other (Proc.held_of_firm member))] at isDir
      exact sound.firm q j member isDir
    · exact seen_kept (s := s) (sound.seen q) fun j _ held => kept (other held)
    · refine fresh_kept (sound.isFresh q) fun j new type fresh => ?_
      have held : j ∈ (s.procs q).held :=
        Proc.mem_held.mpr (.inr (.inr (.inr (refs_of_new new))))
      refine ⟨(kept (other held)).trans fresh.isNew, fresh.outside, fun d member => ?_⟩
      rw [named, entries d member]
      exact fresh.unnamed d member
  · exact ⟨sound.tree, sound.short, sound.counts, sound.used, sound.firm, sound.seen,
      sound.isFresh, sound.alone, sound.exclusive⟩
  · exact sound

end

omit [Fintype Pid] in
theorem held_setProc_drops (here : (s.procs p).drops = i :: rest) {q : Pid} {j : Nat}
    (member : j ∈ ((s.setProc p { s.procs p with drops := rest }).procs q).held) :
    j ∈ (s.procs q).held := by
  rcases eq_or_ne q p with rfl | other
  · simp only [setProc, update_self] at member
    rcases Proc.mem_held.mp member with cwd | file | drop | ref
    · exact Proc.mem_held.mpr (.inl cwd)
    · exact Proc.mem_held.mpr (.inr (.inl file))
    · exact Proc.mem_held.mpr (.inr (.inr (.inl (here ▸ List.mem_cons_of_mem _ drop))))
    · exact Proc.mem_held.mpr (.inr (.inr (.inr ref)))
  · simpa [setProc, update_of_ne other] using member

theorem Sound.setDrops (sound : s.Sound live parent) (here : (s.procs p).drops = i :: rest) :
    (s.setProc p { s.procs p with drops := rest }).Sound live parent := by
  have pcs : ∀ q, ((s.setProc p { s.procs p with drops := rest }).procs q).pc =
      (s.procs q).pc := fun q => by
    rcases eq_or_ne q p with rfl | other <;> simp [setProc, *]
  have files : ∀ q, ((s.setProc p { s.procs p with drops := rest }).procs q).files =
      (s.procs q).files := fun q => by
    rcases eq_or_ne q p with rfl | other <;> simp [setProc, *]
  have cwds : ∀ q, ((s.setProc p { s.procs p with drops := rest }).procs q).cwd =
      (s.procs q).cwd := fun q => by
    rcases eq_or_ne q p with rfl | other <;> simp [setProc, *]
  refine ⟨sound.tree, sound.short, fun j used => ?_, fun q j member => ?_, fun q j member => ?_,
    fun q => ?_, fun q => ?_, fun q r differ j member held => ?_, fun q r differ j member => ?_⟩
  · have same : (s.setProc p { s.procs p with drops := rest }).pending j = s.pending j :=
      Finset.sum_congr rfl fun q _ => by rw [pcs]
    rw [same]
    exact sound.counts j used
  · exact sound.used q j (held_setProc_drops here member)
  · rw [Proc.firm, pcs, files, cwds] at member
    exact sound.firm q j member
  · rw [pcs, files]
    exact sound.seen q
  · rw [pcs]
    exact sound.isFresh q
  · exact sound.alone q r differ j (pcs q ▸ member) (held_setProc_drops here held)
  · rw [pcs] at member ⊢
    exact sound.exclusive q r differ j member

/-- The condition on the steps of a run. -/
def Careful (s : State Pid) : Action Pid → Prop
  | .run p _ _ => (s.procs p).pc.Careful s.node s.refs
  | _ => True

instance (s : State Pid) : (action : Action Pid) → Decidable (s.Careful action)
  | .run p _ _ => inferInstanceAs (Decidable ((s.procs p).pc.Careful s.node s.refs))
  | .call _ _ | .lock _ | .drop _ => isTrue trivial

theorem only_reference (here : (s.procs p).pc = .locked ip job)
    (held : ip ∈ job.refs ip) (once : s.refs ip = 1) :
    (∀ q, q ≠ p → ip ∉ (s.procs q).held) ∧ ip ∉ (s.procs p).cwd ∧ ip ∉ (s.procs p).files := by
  have mine : 1 ≤ (s.procs p).held.count ip :=
    List.count_pos_iff.mpr (Proc.held_of_refs here held)
  have whole := Holders.sum_update (fun q => (s.procs q).held.count ip) p 0
  have exactly : (s.procs p).held.count ip = 1 ∧ ∀ q, q ≠ p → (s.procs q).held.count ip = 0 := by
    rw [refs] at once
    refine ⟨?_, fun q other => ?_⟩
    · omega
    · have pair := Holders.add_le_sum (fun q => (s.procs q).held.count ip) other
      omega
  have parts : (s.procs p).cwd.toList.count ip + (s.procs p).files.count ip = 0 := by
    have total := exactly.1
    have last : 1 ≤ (s.procs p).pc.refs.count ip := by
      rw [here]
      exact List.count_pos_iff.mpr held
    simp only [Proc.held, List.count_append] at total
    omega
  refine ⟨fun q other member => ?_, fun member => ?_, fun member => ?_⟩
  · exact (List.count_pos_iff.mpr member).ne' (exactly.2 q other)
  · have := List.count_pos_iff.mpr (Option.mem_toList.mpr member)
    omega
  · have := List.count_pos_iff.mpr member
    omega

theorem Sound.body (sound : s.Sound live parent) (order : s.LockOrder rank) {ip fresh : Nat}
    (careful : s.Careful (.run p fresh room)) (here : (s.procs p).pc = .locked ip job)
    (drops : (s.procs p).drops = [])
    (result : job.body ninodes fresh room s.node (s.procs p) ip = .next node me) :
    ∃ live' parent', Outcome s.node node (s.procs p) me live live' parent parent'
      fun i => ∀ q, q ≠ p → i ∉ (s.procs q).held := by
  have ordered := order.ordered p
  have seen := sound.seen p
  rw [here] at ordered seen
  rw [State.Careful, here] at careful
  exact (sound.entry drops).body here ordered.1 seen (sound.isFresh p) careful
    (only_reference here) result

theorem Sound.step {action : Action Pid} (sound : s.Sound live parent) (order : s.LockOrder rank)
    (careful : s.Careful action) (taken : Step ninodes s action s') :
    ∃ live' parent', s'.Sound live' parent' := by
  cases taken with
  | @call p request idle drops =>
    exact ⟨live, parent, sound.outcome ((sound.entry drops).call idle request)⟩
  | lock here _ free => exact ⟨live, parent, sound.ilock here free⟩
  | run here drops result =>
    obtain ⟨live', parent', outcome⟩ := sound.body order careful here drops result
    exact ⟨live', parent', sound.outcome outcome⟩
  | panic here _ result =>
    exact ⟨live, parent, sound.tree, sound.short, sound.counts, sound.used, sound.firm,
      sound.seen, sound.isFresh, sound.alone, sound.exclusive⟩
  | @drop p i rest here =>
    have moved : (s.setProc p { s.procs p with drops := rest }).LockOrder rank :=
      order.setProc (order.ordered p)
    exact ⟨live, parent, (sound.setDrops here).iput moved i⟩

/-! ## Runs -/

/-- An image whose directories are a tree and whose link counts are exact. -/
structure Consistent (image : Nodes) (live : Finset Nat) (parent : Nat → Nat) : Prop where
  tree : IsTree image live parent
  acyclic : Acyclic image
  short : ∀ i, (image i).nlink < 2 ^ 15
  exact : ∀ i, (image i).type ≠ none → (image i).nlink = linkCount image live parent i

omit [DecidableEq Pid] in
theorem Consistent.sound (consistent : Consistent image live parent) :
    (start image : State Pid).Sound live parent := by
  refine ⟨consistent.tree, consistent.short, fun i used => ?_, fun p i member => ?_,
    fun p i member _ => ?_, fun _ => trivial, fun _ => trivial, fun p q _ i member => ?_,
    fun p q _ i member => ?_⟩
  · have none : (start image : State Pid).pending i = 0 := by simp [pending, start, Pc.pending]
    rw [none]
    exact le_of_eq (by simpa [start] using (consistent.exact i used).symm)
  · obtain rfl : rootino = i := by simpa [start, Proc.held, Pc.refs, eq_comm] using member
    simp [start, consistent.tree.dirs _ consistent.tree.root]
  · obtain rfl : rootino = i := by simpa [start, Proc.firm, Pc.firm, eq_comm] using member
    exact consistent.tree.root
  · simp [start, Pc.new] at member
  · simp [start, Pc.locks] at member

theorem sound_run (consistent : Consistent image live parent)
    {trace : List (State Pid × Action Pid)}
    (run : Transition.Run (step ninodes) Careful (start image) trace s) :
    ∃ live parent, s.Sound live parent := by
  induction run with
  | nil => exact ⟨live, parent, consistent.sound⟩
  | snoc before careful taken ih =>
    obtain ⟨running, taken⟩ := Step.of_step taken
    obtain ⟨rank, order⟩ := lockOrder_run consistent.acyclic before running
    obtain ⟨live, parent, sound⟩ := ih
    exact sound.step order careful taken

/-- The directories that can be reached from the root. -/
inductive InTree (node : Nodes) : Nat → Prop where
  | root : InTree node rootino
  | entry {d : Nat} {e : Dirent} : InTree node d → e ∈ (node d).entries → e.inum ≠ 0 →
      (node e.inum).type = some .dir → InTree node e.inum

/-- The number of entries other than dot that name `i`. -/
def names (entries : List Dirent) (i : Nat) : Nat :=
  entries.countP fun e => e.inum == i && e.name != dot

theorem InTree.mem_live {d : Nat} (tree : IsTree node live parent)
    (inTree : InTree node d) : d ∈ live := by
  induction inTree with
  | root => exact tree.root
  | entry _ member used isDir ih =>
    rcases tree.reached ih member with inside | isNamed
    · exact inside
    · exact tree.reached_dir (.inr ⟨used, _, ih, isNamed⟩) isDir

theorem names_le {d i : Nat} (tree : IsTree node live parent) (member : d ∈ live) :
    names (node d).entries i ≤ (if parent d = i then 1 else 0) + named node d i := by
  have rest : ((node d).entries.drop 2).countP (fun e => e.inum == i && e.name != dot) ≤
      named node d i := List.countP_mono_left fun e _ both => by simp_all
  rw [names, tree.entries member, List.countP_cons, List.countP_cons]
  have first : ¬((⟨d, dot⟩ : Dirent).inum == i && (⟨d, dot⟩ : Dirent).name != dot) = true := by
    simp
  rw [if_neg first]
  by_cases up : parent d = i
  · rw [if_pos up]
    split_ifs <;> omega
  · have second : ¬((⟨parent d, dotdot⟩ : Dirent).inum == i &&
        (⟨parent d, dotdot⟩ : Dirent).name != dot) = true := by simp [up]
    rw [if_neg second, if_neg up]
    omega

theorem body_panic {ninodes fresh : Nat}
    {why : Panic} (result : job.body ninodes fresh room node me ip = .panic why) :
    why ≠ .noType := by
  rintro rfl
  cases job <;>
    simp only [Job.body, Job.walkBody, Job.unlinkAtBody, Job.unlinkInBody, Job.linkAtBody,
      Job.createAtBody, Job.createInBody, reduceCtorEq] at result <;>
    repeat' split at result
  all_goals simp at result

omit [DecidableEq Pid] in
theorem Sound.locking (sound : s.Sound live parent)
    (here : (s.procs p).pc = .locking ip job) : (s.node ip).type ≠ none := by
  refine sound.used p ip ?_
  have seen := sound.seen p
  rw [here] at seen
  cases job with
  | use => exact Proc.mem_held.mpr (.inr (.inl seen))
  | _ => exact Proc.mem_held.mpr (.inr (.inr (.inr (by simp [here, Pc.refs, Job.refs]))))

theorem consistent_rootOnly : Consistent rootOnly {rootino} fun _ => rootino := by
  have entries : (rootOnly rootino).entries = [⟨rootino, dot⟩, ⟨rootino, dotdot⟩] := rfl
  have none : ∀ i, named rootOnly rootino i = 0 := fun i => by simp [named, entries]
  refine ⟨⟨rfl, by simp, rfl, ?_, ?_, ?_, ?_, ?_, ?_⟩, acyclic_rootOnly, fun i => ?_,
    fun i used => ?_⟩
  · intro d member
    rw [Finset.mem_singleton.mp member]
    rfl
  · intro d member
    rw [Finset.mem_singleton.mp member]
    rfl
  · intro d member e entry
    rw [Finset.mem_singleton.mp member, entries] at entry
    simp at entry
  · intro d member i _ isNamed
    rw [Finset.mem_singleton.mp member, none] at isNamed
    omega
  · intro d member i _ isNamed
    rw [Finset.mem_singleton.mp member, none] at isNamed
    omega
  · intro d member notRoot
    exact absurd (Finset.mem_singleton.mp member) notRoot
  · unfold rootOnly
    split_ifs <;> decide
  · have isRoot : i = rootino := by
      by_contra other
      simp [rootOnly, other] at used
    subst isRoot
    simp [linkCount, none]
    rfl

/-! ## Removed directories that are still in use -/

/-- A process walks along `n` path elements. -/
def walks (p : Pid) (n : Nat) : List (Action Pid) :=
  (List.replicate n [.lock p, .run p 0 true, .drop p]).flatten

/-- `mkdir` of a path with `depth` elements before the last, with inode `fresh`. -/
def mkdirs (p : Pid) (path : Path) (depth fresh : Nat) : List (Action Pid) :=
  .call p (.mkdir path) :: walks p depth ++
    [.lock p, .run p 0 true, .lock p, .run p fresh true, .lock p, .run p 0 true, .drop p,
      .run p 0 true, .drop p]

/-- `unlink` of a path with `depth` elements before the last. -/
def unlinks (p : Pid) (path : Path) (depth : Nat) : List (Action Pid) :=
  .call p (.unlink path) :: walks p depth ++
    [.lock p, .run p 0 true, .lock p, .run p 0 true, .lock p, .run p 0 true, .drop p,
      .run p 0 true, .drop p]

/-- Process 1 works in `/a/b` while process 0 removes `/a/b` and then `/a`. -/
def removedUnder : List (Action (Fin 2)) :=
  mkdirs 0 [slash, 97] 0 2 ++ mkdirs 0 [slash, 97, slash, 98] 1 3 ++
    .call 1 (.chdir [slash, 97, slash, 98]) :: walks 1 3 ++
    unlinks 0 [slash, 97, slash, 98] 1 ++ unlinks 0 [slash, 97] 0

/-- Then process 1 opens `../x`, and `namex` locks the free inode of `/a`. -/
theorem dotdot_of_removed :
    ∃ s, Transition.Run (step 200) (fun _ _ => True) (start rootOnly)
      (Transition.traceOf (step 200) (start rootOnly)
        (removedUnder ++ .call 1 (.open (dotdot ++ [slash, 120]) false true) :: walks 1 1 ++
          [.lock 1])) s ∧
      (s.procs 1).pc = .locked 2 (.walk (.open true) [120]) ∧ (s.node 2).type = none ∧
      s.stop = some .noType :=
  Transition.Run.of_exec_met _ (fun _ _ => trivial) (by decide +kernel)

/-- In a careful run no process finds a free inode, and `ilock` does not stop the
machine. -/
theorem ilock_in_use {image : Nodes} (consistent : Consistent image live parent)
    {trace : List (State Pid × Action Pid)}
    (run : Transition.Run (step ninodes) Careful (start image) trace s) :
    s.stop ≠ some .noType ∧
      ∀ p ip job, (s.procs p).pc = .locking ip job → (s.node ip).type ≠ none := by
  obtain ⟨live', parent', sound⟩ := sound_run consistent run
  refine ⟨?_, fun p ip job here => sound.locking here⟩
  cases run with
  | nil => simp [start]
  | snoc before _ taken =>
    obtain ⟨_, _, wasSound⟩ := sound_run consistent before
    obtain ⟨running, taken⟩ := Step.of_step taken
    cases taken with
    | call _ _ => simp [setProc, running]
    | lock here _ _ => simp [State.ilock, wasSound.locking here]
    | run _ _ _ => simp [setProc, running]
    | panic _ _ result => simpa using body_panic result
    | drop _ =>
      rw [iput_stop]
      simp [setProc, running]

/-- Process 0 makes `/a` and `/a/b`, process 1 visits them and leaves, and process 0
removes both. -/
def visited : List (Action (Fin 2)) :=
  mkdirs 0 [slash, 97] 0 2 ++ mkdirs 0 [slash, 97, slash, 98] 1 3 ++
    .call 1 (.chdir [slash, 97, slash, 98]) :: walks 1 3 ++
    .call 1 (.chdir [slash]) :: walks 1 1 ++
    unlinks 0 [slash, 97, slash, 98] 1 ++ unlinks 0 [slash, 97] 0

theorem ilock_in_use_visited :
    ∃ s, Transition.Run (step 200) Careful (start rootOnly)
      (Transition.traceOf (step 200) (start rootOnly) visited) s ∧
      (s.node 2).type = none ∧ (s.node 3).type = none ∧ s.stop ≠ some .noType ∧
      ∀ p ip job, (s.procs p).pc = .locking ip job → (s.node ip).type ≠ none := by
  have ran : ∃ s, Transition.Run (step 200) Careful (start rootOnly)
      (Transition.traceOf (step 200) (start rootOnly) visited) s ∧
      (s.node 2).type = none ∧ (s.node 3).type = none :=
    Transition.Run.of_exec_met _ (by decide +kernel) (by decide +kernel)
  obtain ⟨s, run, first, second⟩ := ran
  exact ⟨s, run, first, second, ilock_in_use consistent_rootOnly run⟩

omit [DecidableEq Pid] in
theorem iput_frees {i j : Nat} (used : (s.node i).type ≠ none)
    (freed : ((s.iput j).node i).type = none) : j = i ∧ (s.node i).nlink = 0 := by
  unfold State.iput at freed
  split_ifs at freed with unused free
  · by_cases same : i = j
    · exact ⟨same.symm, same ▸ free.2⟩
    · simp only [update_of_ne same] at freed
      exact absurd freed used
  · exact absurd freed used
  · exact absurd freed used

/-- In a careful run a link count is at least the number of names in the directories that
can be reached from the root, and `iput` frees no inode that one of them names. -/
theorem link_counts {image : Nodes} (consistent : Consistent image live parent)
    {trace : List (State Pid × Action Pid)}
    (run : Transition.Run (step ninodes) Careful (start image) trace s) :
    (∀ i, ∀ dirs : Finset Nat, i ≠ 0 → (∀ d ∈ dirs, InTree s.node d) →
      ((∑ d ∈ dirs, names (s.node d).entries i : Nat) : Int) ≤ (s.node i).nlink ∨
        (s.node i).type = none ∧ ∑ d ∈ dirs, names (s.node d).entries i = 0) ∧
    ∀ action s', s.Careful action → s.step ninodes action = some s' →
      ∀ i, (s.node i).type ≠ none → (s'.node i).type = none →
        ∀ d, InTree s.node d → ∀ e ∈ (s.node d).entries, e.inum ≠ i := by
  obtain ⟨live, parent, sound⟩ := sound_run consistent run
  constructor
  · intro i dirs used inTree
    have inside : dirs ⊆ live := fun d member => (inTree d member).mem_live sound.tree
    have bound : ∑ d ∈ dirs, names (s.node d).entries i ≤ linkCount s.node live parent i :=
      calc ∑ d ∈ dirs, names (s.node d).entries i
          ≤ ∑ d ∈ dirs, ((if parent d = i then 1 else 0) + named s.node d i) :=
            Finset.sum_le_sum fun d member => names_le sound.tree (inside member)
        _ ≤ linkCount s.node live parent i := Finset.sum_le_sum_of_subset inside
    by_cases free : (s.node i).type = none
    · rw [sound.tree.linkCount_of_free free used] at bound
      exact .inr ⟨free, Nat.eq_zero_of_le_zero bound⟩
    · have counts := sound.counts i free
      exact .inl (by omega)
  · intro action s' careful taken i used freed d inTree e member same
    have inside := inTree.mem_live sound.tree
    obtain ⟨running, taken⟩ := Step.of_step taken
    obtain ⟨rank, order⟩ := lockOrder_run consistent.acyclic run running
    cases taken with
    | call _ _ => exact used freed
    | lock _ _ _ => exact used freed
    | panic _ _ _ => exact used freed
    | run here drops result =>
      obtain ⟨_, _, outcome⟩ := sound.body order careful here drops result
      exact used ((outcome.types i used).symm.trans freed)
    | @drop p j rest _ =>
      have none : (s.node i).nlink = 0 :=
        (iput_frees (s := s.setProc p { s.procs p with drops := rest }) used freed).2
      obtain ⟨outside, unnamed, _⟩ := sound.unlinked used none
      rcases sound.tree.reached inside member with reached | isNamed
      · exact outside (same ▸ reached)
      · rw [same, unnamed d inside] at isNamed
        omega

theorem link_counts_visited :
    ∃ s, Transition.Run (step 200) Careful (start rootOnly)
      (Transition.traceOf (step 200) (start rootOnly) visited) s ∧
      (names (s.node rootino).entries rootino : Int) ≤ (s.node rootino).nlink ∧
      (s.node rootino).nlink = 1 := by
  have ran : ∃ s, Transition.Run (step 200) Careful (start rootOnly)
      (Transition.traceOf (step 200) (start rootOnly) visited) s ∧
      (s.node rootino).type = some .dir ∧ (s.node rootino).nlink = 1 :=
    Transition.Run.of_exec_met _ (by decide +kernel) (by decide +kernel)
  obtain ⟨s, run, isDir, count⟩ := ran
  have counted := (link_counts consistent_rootOnly run).1 rootino {rootino} (by decide)
    fun d member => Finset.mem_singleton.mp member ▸ .root
  rw [Finset.sum_singleton, isDir] at counted
  exact ⟨s, run, counted.resolve_right (by simp), count⟩

/-- In a careful run the directories stay a tree: one that can be reached from the root has
one name in one directory, to which its dotdot leads, and the root has none. -/
theorem directories_stay_tree {image : Nodes} (consistent : Consistent image live parent)
    {trace : List (State Pid × Action Pid)}
    (run : Transition.Run (step ninodes) Careful (start image) trace s)
    {d : Nat} (inTree : InTree s.node d) :
    ∃ above, InTree s.node above ∧ (d = rootino → above = rootino) ∧
      (s.node d).entries.take 2 = [⟨d, dot⟩, ⟨above, dotdot⟩] ∧
      ∀ other, InTree s.node other →
        named s.node other d = if d ≠ rootino ∧ other = above then 1 else 0 := by
  obtain ⟨live, parent, sound⟩ := sound_run consistent run
  have tree := sound.tree
  have member := inTree.mem_live tree
  have isDir := tree.dirs d member
  refine ⟨parent d, ?_, fun isRoot => isRoot ▸ tree.rootParent, tree.dots d member, ?_⟩
  · have entry : ⟨parent d, dotdot⟩ ∈ (s.node d).entries := by
      rw [tree.entries member]
      simp
    have above := tree.parent_mem member
    exact .entry inTree entry (tree.ne_zero above) (tree.dirs _ above)
  · intro other inside
    have once := tree.below other (inside.mem_live tree) d (tree.ne_zero member)
    split_ifs with here
    · obtain ⟨notRoot, rfl⟩ := here
      exact (once (tree.above d member notRoot).2 isDir).2.2.2
    · by_contra isNamed
      obtain ⟨-, same, notRoot, -⟩ := once (Nat.pos_of_ne_zero isNamed) isDir
      exact here ⟨notRoot, same.symm⟩

/-- Process 0 makes `/a`, which has one name. -/
theorem directories_stay_tree_mkdir : ∃ (s : State (Fin 2)) (trace : List _),
    Transition.Run (step 200) Careful (start rootOnly) trace s ∧ InTree s.node 2 ∧
      ∃ above, named s.node above 2 = 1 := by
  obtain ⟨s, run, entry, isDir⟩ : ∃ s : State (Fin 2),
      Transition.Run (step 200) Careful (start rootOnly) _ s ∧
      ⟨2, [97]⟩ ∈ (s.node rootino).entries ∧ (s.node 2).type = some .dir :=
    Transition.Run.of_exec_met (mkdirs 0 [slash, 97] 0 2) (by decide +kernel) (by decide +kernel)
  have inTree : InTree s.node 2 := .entry .root entry (by decide) isDir
  obtain ⟨above, inside, -, -, once⟩ := directories_stay_tree consistent_rootOnly run inTree
  exact ⟨s, _, run, inTree, above, by simpa [rootino] using once above inside⟩

/-- Process 0 gets the inode of `/a` for `/q`.  Before it locks it, process 1 creates
`../y` in it. -/
def createdUnder : List (Action (Fin 2)) :=
  removedUnder ++
    [.call 0 (.mkdir [slash, 113]), .lock 0, .run 0 0 true, .lock 0, .run 0 2 true] ++
    mkdirs 1 (dotdot ++ [slash, 121]) 1 4 ++
    [.lock 0, .run 0 0 true, .drop 0, .run 0 0 true, .drop 0]

/-- The root and `/q/y` name inode 2, whose link count is 1; and after `/q/y` is removed,
inode 2 is free while the root names it. -/
theorem named_twice :
    (∃ s, Transition.Run (step 200) (fun _ _ => True) (start rootOnly)
      (Transition.traceOf (step 200) (start rootOnly) createdUnder) s ∧
      InTree s.node 4 ∧ names (s.node rootino).entries 2 + names (s.node 4).entries 2 = 2 ∧
      (s.node 2).nlink = 1) ∧
    ∃ s, Transition.Run (step 200) (fun _ _ => True) (start rootOnly)
      (Transition.traceOf (step 200) (start rootOnly)
        (createdUnder ++ unlinks 0 [slash, 113, slash, 121] 1)) s ∧
      ⟨2, [113]⟩ ∈ (s.node rootino).entries ∧ (s.node 2).type = none := by
  constructor
  · have ran : ∃ s, Transition.Run (step 200) (fun _ _ => True) (start rootOnly)
        (Transition.traceOf (step 200) (start rootOnly) createdUnder) s ∧
        ⟨2, [113]⟩ ∈ (s.node rootino).entries ∧ (s.node 2).type = some .dir ∧
        ⟨4, [121]⟩ ∈ (s.node 2).entries ∧ (s.node 4).type = some .dir ∧
        names (s.node rootino).entries 2 + names (s.node 4).entries 2 = 2 ∧
        (s.node 2).nlink = 1 :=
      Transition.Run.of_exec_met _ (fun _ _ => trivial) (by decide +kernel)
    obtain ⟨s, run, first, firstDir, second, secondDir, twice, count⟩ := ran
    have inTree : InTree s.node 2 := .entry .root first (by decide) firstDir
    exact ⟨s, run, .entry inTree second (by decide) secondDir, twice, count⟩
  · exact Transition.Run.of_exec_met _ (fun _ _ => trivial) (by decide +kernel)

end State

end Xv6.FileTree
