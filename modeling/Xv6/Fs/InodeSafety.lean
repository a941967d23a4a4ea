import Xv6.Fs.InodeCache

/-!
# The invariant of the inode cache

Almost all of the invariant is about one slot and the inode on disk it stands for.  A
step works on one slot, so it has to be checked for that slot, and for the other slots
only that they stand for another inode.
-/

namespace Xv6

open Function

variable {Process : Type}

/-! ## The invariant -/

namespace CachedInode

variable [Fintype Process]

/-- The invariant of one slot.  `node` is the inode on disk. -/
structure Sound (c : CachedInode Process) (node : Dinode) : Prop where
  ref : c.ref = ∑ p, c.refs p
  /-- A process that holds the lock holds a reference. -/
  backed : ∀ {p}, c.hold p ≠ .none → 0 < c.refs p
  single : ∀ {p q}, c.hold p ≠ .none → c.hold q ≠ .none → p = q
  busy : c.busy = true ↔ ∃ p, c.hold p ≠ .none
  /-- The lock is handed out only with a valid copy. -/
  loaded : ∀ {p}, c.hold p ≠ .none → c.hold p ≠ .load → c.valid = true
  /-- Until `iput` frees it, a valid inode has a type, in the cache and on disk. -/
  typed : 0 < c.ref → c.valid = true → (∀ p, c.hold p ≠ .relock) →
    c.node.type ≠ 0 ∧ node.type ≠ 0
  agree : 0 < c.ref → c.valid = true → c.busy = false → node = c.node

end CachedInode

namespace Icache

variable [Fintype Process]

structure Inv (s : Icache Process) : Prop where
  unique : ∀ {i j}, 0 < (s.slot i).ref → 0 < (s.slot j).ref →
    (s.slot i).key = (s.slot j).key → i = j
  sound : ∀ i, (s.slot i).Sound (s.disk (s.slot i).key)

end Icache

/-! ## Changes to one slot -/

namespace CachedInode

variable [Fintype Process] [DecidableEq Process]
  {c : CachedInode Process} {node : Dinode} {p q : Process}

section
variable (sound : c.Sound node) {hold : InodeHold}
include sound

section
omit [DecidableEq Process]

theorem Sound.idle_of_ref (free : c.ref = 0) (p : Process) : c.refs p = 0 ∧ c.hold p = .none := by
  have none : c.refs p = 0 := by
    have zero := sound.ref.symm.trans free
    exact Finset.sum_eq_zero_iff.mp zero p (Finset.mem_univ p)
  refine ⟨none, ?_⟩
  by_contra held
  exact absurd none (sound.backed held).ne'

theorem Sound.refs_le (p : Process) : c.refs p ≤ c.ref := by
  rw [sound.ref]
  exact Finset.single_le_sum (fun _ _ => Nat.zero_le _) (Finset.mem_univ p)

theorem Sound.ref_pos (held : 0 < c.refs p) : 0 < c.ref := held.trans_le (sound.refs_le p)

end

theorem Sound.sole (one : c.ref = 1) (held : 0 < c.refs p) (locked : c.hold q ≠ .none) : q = p := by
  by_contra differs
  have both : c.refs p + c.refs q ≤ ∑ r, c.refs r :=
    Holders.add_le_sum c.refs (Ne.symm differs)
  have := sound.backed locked
  have := sound.ref
  omega

theorem Sound.take (fresh : c.ref = 0 → c.valid = false) : (c.take p).Sound node := by
  have positive : c.valid = true → 0 < c.ref := by
    intro valid
    by_contra free
    exact absurd (valid.symm.trans (fresh (Nat.eq_zero_of_not_pos free))) (by simp)
  refine ⟨?_, fun {q} held => ?_, sound.single, sound.busy, sound.loaded,
    fun _ valid => sound.typed (positive valid) valid,
    fun _ valid => sound.agree (positive valid) valid⟩
  · have moved := Holders.sum_update c.refs p (c.refs p + 1)
    have := sound.ref
    simp only [CachedInode.take]
    omega
  · have := sound.backed held
    by_cases same : q = p
    · simp [CachedInode.take, same]
    · simpa [CachedInode.take, update_of_ne same] using this

theorem Sound.drop (held : 0 < c.refs p) (spare : c.hold p = .none ∨ 1 < c.refs p) :
    (c.drop p).Sound node where
  ref := by
    have moved := Holders.sum_update c.refs p (c.refs p - 1)
    have := sound.ref
    simp only [CachedInode.drop]
    omega
  backed := by
    intro q locked
    by_cases same : q = p
    · subst same
      have := spare.resolve_left locked
      simp only [CachedInode.drop, update_self]
      omega
    · simpa [CachedInode.drop, update_of_ne same] using sound.backed locked
  single := sound.single
  busy := sound.busy
  loaded := sound.loaded
  typed := fun positive => sound.typed (positive.trans_le (Nat.sub_le _ _))
  agree := fun positive => sound.agree (positive.trans_le (Nat.sub_le _ _))

theorem Sound.give (held : 0 < c.refs p) (spare : c.hold p = .none ∨ 1 < c.refs p) (q : Process) :
    (c.give p q).Sound node where
  ref := by
    have less := Holders.sum_update c.refs p (c.refs p - 1)
    have more := Holders.sum_update (update c.refs p (c.refs p - 1)) q
      (update c.refs p (c.refs p - 1) q + 1)
    have := sound.ref
    simp only [CachedInode.give]
    omega
  backed := by
    intro r locked
    have kept := (sound.drop held spare).backed locked
    by_cases same : r = q
    · simp [CachedInode.give, same]
    · simpa [CachedInode.give, CachedInode.drop, update_of_ne same] using kept
  single := sound.single
  busy := sound.busy
  loaded := sound.loaded
  typed := sound.typed
  agree := sound.agree

theorem Sound.acquire (free : c.busy = false) (held : 0 < c.refs p) (taken : hold ≠ .none)
    (valid : hold ≠ .load → c.valid = true) :
    (({ c with busy := true }).goto p hold).Sound node := by
  have idle : ∀ q, c.hold q = .none := by
    intro q
    by_contra locked
    simp [sound.busy.mpr ⟨q, locked⟩] at free
  have only : ∀ q, update c.hold p hold q ≠ .none → q = p := by
    intro q locked
    by_contra differs
    rw [update_of_ne differs] at locked
    exact locked (idle q)
  constructor
  · exact sound.ref
  · intro q locked
    rw [only q locked]
    exact held
  · intro q r first second
    rw [only q first, only r second]
  · exact ⟨fun _ => ⟨p, by simpa [goto] using taken⟩, fun _ => rfl⟩
  · intro q locked loading
    obtain rfl := only q locked
    exact valid (by simpa [goto] using loading)
  · intro positive isValid _
    refine sound.typed positive isValid fun q => ?_
    rw [idle q]
    simp
  · intro _ _ wrong
    simp [goto] at wrong

theorem Sound.release (held : c.hold p ≠ .none) (valid : Bool)
    (agree : valid = true → c.valid = true ∧ c.hold p ≠ .relock ∧ node = c.node) :
    (({ c with busy := false, valid := valid }).goto p .none).Sound node := by
  have only : ∀ q, update c.hold p .none q = .none := by
    intro q
    by_cases same : q = p
    · simp [same]
    · rw [update_of_ne same]
      by_contra locked
      exact same (sound.single locked held)
  constructor
  · exact sound.ref
  · intro q locked
    exact absurd (only q) locked
  · intro q r locked
    exact absurd (only q) locked
  · simp [goto, only]
  · intro q locked
    exact absurd (only q) locked
  · intro positive isValid _
    obtain ⟨was, early, _⟩ := agree isValid
    refine sound.typed positive was fun q wrong => ?_
    have same := sound.single (by rw [wrong]; simp) held
    exact early (same ▸ wrong)
  · intro _ isValid _
    exact (agree isValid).2.2

theorem Sound.advance (held : c.hold p ≠ .none)
    (taken : hold ≠ .none) {copy node' : Dinode} {valid : Bool}
    (isValid : hold ≠ .load → valid = true)
    (typed : hold ≠ .relock → valid = true → copy.type ≠ 0 ∧ node'.type ≠ 0) :
    (({ c with node := copy, valid := valid }).goto p hold).Sound node' := by
  have only : ∀ q, update c.hold p hold q ≠ .none → q = p := by
    intro q locked
    by_contra differs
    rw [update_of_ne differs] at locked
    exact differs (sound.single locked held)
  constructor
  · exact sound.ref
  · intro q locked
    rw [only q locked]
    exact sound.backed held
  · intro q r first second
    rw [only q first, only r second]
  · exact ⟨fun _ => ⟨p, by simpa [goto] using taken⟩, fun _ => sound.busy.mpr ⟨p, held⟩⟩
  · intro q locked loading
    obtain rfl := only q locked
    exact isValid (by simpa [goto] using loading)
  · intro _ valid' early
    exact typed (by simpa [goto] using early p) valid'
  · intro _ _ free
    exact absurd (sound.busy.mpr ⟨p, held⟩) (by simpa [goto] using free)

section
omit [DecidableEq Process]

theorem Sound.of_free (free : c.ref = 0) (node' : Dinode) : c.Sound node' where
  ref := sound.ref
  backed := sound.backed
  single := sound.single
  busy := sound.busy
  loaded := sound.loaded
  typed positive := absurd free positive.ne'
  agree positive := absurd free positive.ne'

theorem Sound.claim (free : node.type = 0) (node' : Dinode) : c.Sound node' where
  ref := sound.ref
  backed := sound.backed
  single := sound.single
  busy := sound.busy
  loaded := sound.loaded
  typed := by
    intro positive valid early
    exact absurd free (sound.typed positive valid early).2
  agree := by
    intro positive valid unlocked
    refine absurd free (sound.typed positive valid fun p wrong => ?_).2
    have := sound.busy.mpr ⟨p, by rw [wrong]; simp⟩
    simp [this] at unlocked

end

end

end CachedInode

/-! ## Steps -/

namespace Icache

variable [Fintype Process] [DecidableEq Process]
  {s s' : Icache Process} {i : IcacheSlot} {p : Process} {c : CachedInode Process}
  {action : InodeAction Process}

section
variable (inv : s.Inv) {node : Dinode}
include inv

section
omit [DecidableEq Process]

theorem Inv.unique_update
    (new : ∀ j, j ≠ i → 0 < (s.slot j).ref → (s.slot j).key ≠ c.key) {j k : IcacheSlot}
    (first : 0 < (Function.update s.slot i c j).ref)
    (second : 0 < (Function.update s.slot i c k).ref)
    (same : (Function.update s.slot i c j).key = (Function.update s.slot i c k).key) : j = k := by
  simp only [update_apply] at first second same
  split_ifs at first second same with here there there
  · exact here.trans there.symm
  · exact absurd same.symm (new k there second)
  · exact absurd same (new j here first)
  · exact inv.unique first second same

theorem Inv.update (used : 0 < (s.slot i).ref)
    (sound : c.Sound node) (key : c.key = (s.slot i).key) :
    ((s.set i c).write (s.slot i).key node).Inv := by
  have elsewhere : ∀ j, j ≠ i → (s.slot j).ref = 0 ∨ (s.slot j).key ≠ (s.slot i).key := by
    intro j differs
    by_contra neither
    rw [not_or, not_not] at neither
    exact differs (inv.unique (Nat.pos_of_ne_zero neither.1) used neither.2)
  constructor
  · refine inv.unique_update fun j differs positive same => ?_
    exact (elsewhere j differs).resolve_left positive.ne' (same.trans key)
  · intro j
    simp only [write, set]
    by_cases here : j = i
    · rw [here, update_self, key, update_self]
      exact sound
    · rw [update_of_ne here]
      by_cases other : (s.slot j).key = (s.slot i).key
      · exact (inv.sound j).of_free ((elsewhere j here).resolve_right (not_not.mpr other)) _
      · rw [update_of_ne other]
        exact inv.sound j

theorem Inv.set (used : 0 < (s.slot i).ref)
    (sound : c.Sound (s.disk (s.slot i).key)) (key : c.key = (s.slot i).key) : (s.set i c).Inv := by
  have updated := inv.update used sound key
  simp only [write, Icache.set, update_eq_self] at updated ⊢
  exact updated

end

theorem Inv.iget {dev inum : Uint} (taken : s.iget p dev inum = .ok s') : s'.Inv := by
  unfold Icache.iget at taken
  split at taken
  next j found =>
    cases taken
    have here : 0 < (s.slot j).ref ∧ (s.slot j).key = (dev, inum) := by
      simpa using Table.find_some found
    exact inv.set here.1 ((inv.sound j).take fun free => absurd free here.1.ne') rfl
  next absent =>
    split at taken
    · simp at taken
    next j found =>
      cases taken
      have free : (s.slot j).ref = 0 := by simpa using Table.find_some found
      have new : ∀ k, ¬(0 < (s.slot k).ref ∧ (s.slot k).key = (dev, inum)) := by
        intro k
        simpa using Table.find_eq_none.mp absent k
      have idle := (inv.sound j).idle_of_ref free
      constructor
      · refine inv.unique_update ?_
        exact fun k _ positive same => new k ⟨positive, same⟩
      · intro k
        simp only [Icache.set]
        by_cases here : k = j
        · rw [here, update_self]
          refine CachedInode.Sound.take ⟨?_, ?_, ?_, ?_, ?_, ?_, ?_⟩ fun _ => rfl
          · exact (Finset.sum_eq_zero fun q _ => (idle q).1).symm
          · exact fun {q} held => absurd (idle q).2 held
          · exact fun {q _} held => absurd (idle q).2 held
          · simp [idle]
          · exact fun {q} held => absurd (idle q).2 held
          · simp
          · simp
        · rw [update_of_ne here]
          exact inv.sound k

theorem Inv.iput (held : 0 < (s.slot i).refs p)
    (spare : s.Spare p i) (taken : s.iput p i = .ok s') : s'.Inv := by
  have sound := inv.sound i
  have used := sound.ref_pos held
  simp only [Icache.iput] at taken
  split at taken
  next last =>
    split at taken
    · simp at taken
    next free =>
      cases taken
      exact inv.set used (sound.acquire (by simpa using free) held (by simp)
        fun _ => last.2.1) rfl
  · cases taken
    exact inv.set used (sound.drop held spare) rfl

theorem Inv.run (taken : s.run p i = .ok s') : s'.Inv := by
  have sound := inv.sound i
  simp only [Icache.run] at taken
  have used : (s.slot i).hold p ≠ .none → 0 < (s.slot i).ref := fun held =>
    sound.ref_pos (sound.backed held)
  cases hold : (s.slot i).hold p with
  | none => simp [hold] at taken
  | locked => simp [hold] at taken
  | load =>
    have held : (s.slot i).hold p ≠ .none := by simp [hold]
    simp only [hold] at taken
    split at taken
    next valid =>
      cases taken
      refine inv.set (used held)
        (sound.advance held (by simp) (fun _ => valid) fun _ _ => ?_) rfl
      refine sound.typed (used held) valid fun q wrong => ?_
      have same := sound.single (by rw [wrong]; simp) held
      simp [same, hold] at wrong
    · split at taken
      · simp at taken
      next typed =>
        cases taken
        exact inv.set (used held)
          (sound.advance held (by simp) (fun _ => rfl) fun _ _ => ⟨typed, typed⟩) rfl
  | trunc =>
    have held : (s.slot i).hold p ≠ .none := by simp [hold]
    simp only [hold] at taken
    cases taken
    have valid := sound.loaded held (by simp [hold])
    refine inv.update (used held)
      (sound.advance held (by simp) (fun _ => valid) fun _ _ => ?_) rfl
    have typed := sound.typed (used held) valid fun q wrong => by
      have same := sound.single (by rw [wrong]; simp) held
      simp [same, hold] at wrong
    exact ⟨typed.1, typed.1⟩
  | free =>
    have held : (s.slot i).hold p ≠ .none := by simp [hold]
    simp only [hold] at taken
    cases taken
    have valid := sound.loaded held (by simp [hold])
    exact inv.update (used held)
      (sound.advance held (by simp) (fun _ => valid) fun early => absurd rfl early) rfl
  | relock =>
    have held : (s.slot i).hold p ≠ .none := by simp [hold]
    simp only [hold] at taken
    cases taken
    have released := sound.release held false (by simp)
    exact inv.set (used held)
      (released.drop (sound.backed held) (.inl (by simp [CachedInode.goto]))) rfl

omit [DecidableEq Process] in
theorem Inv.locked (locked : (s.slot i).hold p = .locked) :
    0 < (s.slot i).ref ∧ (s.slot i).valid = true ∧ (s.slot i).node.type ≠ 0 ∧
      (s.disk (s.slot i).key).type ≠ 0 := by
  have sound := inv.sound i
  have held : (s.slot i).hold p ≠ .none := by simp [locked]
  have used := sound.ref_pos (sound.backed held)
  have valid := sound.loaded held (by simp [locked])
  refine ⟨used, valid, sound.typed used valid fun q wrong => ?_⟩
  have same := sound.single (by rw [wrong]; simp) held
  simp [same, locked] at wrong

theorem Inv.change (locked : (s.slot i).hold p = .locked)
    (typed : node.type ≠ 0) : (s.set i { s.slot i with node := node }).Inv := by
  obtain ⟨used, valid, _, diskTyped⟩ := inv.locked locked
  have changed := (inv.sound i).advance (p := p) (by simp [locked])
    (show InodeHold.locked ≠ .none by simp) (fun _ => valid) fun _ _ => ⟨typed, diskTyped⟩
  simp only [CachedInode.goto, ← locked, update_eq_self] at changed
  exact inv.set used changed rfl

theorem Inv.iupdate (locked : (s.slot i).hold p = .locked) :
    (s.write (s.slot i).key (s.slot i).node).Inv := by
  obtain ⟨used, valid, typed, _⟩ := inv.locked locked
  have written := (inv.sound i).advance (p := p) (by simp [locked])
    (show InodeHold.locked ≠ .none by simp) (fun _ => valid) fun _ _ => ⟨typed, typed⟩
  simp only [CachedInode.goto, ← locked, update_eq_self] at written
  have updated := inv.update used written rfl
  simp only [Icache.set, update_eq_self] at updated
  exact updated

theorem Inv.step (careful : s.Careful action)
    (taken : Icache.step s action = some s') : s'.Inv := by
  have taken : s.perform action = .ok s' := by
    unfold Icache.step at taken
    cases performed : s.perform action with
    | error => simp [performed, Except.toOption] at taken
    | ok => simpa [performed, Except.toOption] using taken
  cases action with
  | iget q dev inum => exact inv.iget taken
  | idup q j =>
    cases taken
    have used := (inv.sound j).ref_pos careful
    exact inv.set used ((inv.sound j).take fun free => absurd free used.ne') rfl
  | ilock q j =>
    simp only [perform, Icache.ilock] at taken
    split_ifs at taken with unused busy
    cases taken
    exact inv.set ((inv.sound j).ref_pos careful)
      ((inv.sound j).acquire (by simpa using busy) careful (by simp) (by simp)) rfl
  | iunlock q j =>
    simp only [perform, Icache.iunlock] at taken
    split_ifs at taken
    cases taken
    obtain ⟨locked, agree⟩ := careful
    have held : (s.slot j).hold q ≠ .none := by simp [locked]
    refine inv.set ((inv.sound j).ref_pos ((inv.sound j).backed held))
      ((inv.sound j).release held (s.slot j).valid fun valid => ⟨valid, ?_, agree⟩) rfl
    simp [locked]
  | iput q j => exact inv.iput careful.1 careful.2 taken
  | give q r j =>
    cases taken
    exact inv.set ((inv.sound j).ref_pos careful.1) ((inv.sound j).give careful.1 careful.2 r) rfl
  | claim dev inum type =>
    simp only [perform] at taken
    split_ifs at taken with free
    cases taken
    refine ⟨inv.unique, fun j => ?_⟩
    by_cases here : (s.slot j).key = (dev, inum)
    · simp only [write, here, update_self]
      exact (here ▸ inv.sound j).claim free.1 _
    · simp only [write, update_of_ne here]
      exact inv.sound j
  | change q j node =>
    cases taken
    exact inv.change careful.1 careful.2
  | iupdate q j =>
    cases taken
    exact inv.iupdate careful
  | run q j => exact inv.run taken

end

/-! ## Runs -/

omit [DecidableEq Process] in
theorem inv_start (disk : Uint × Uint → Dinode) : (start disk : Icache Process).Inv where
  unique := by
    intro i j used
    exact absurd used (by simp [start])
  sound := by
    intro i
    constructor <;> simp [start]

/-- What the cache guarantees to its callers. -/
structure Consistent (s : Icache Process) : Prop where
  unique : ∀ i j, 0 < (s.slot i).ref → 0 < (s.slot j).ref →
    (s.slot i).key = (s.slot j).key → i = j
  ref : ∀ i, (s.slot i).ref = ∑ p, (s.slot i).refs p
  /-- At most one process holds the lock, and `I_BUSY` says whether one does. -/
  lock : ∀ i, (∀ p q, (s.slot i).hold p ≠ .none → (s.slot i).hold q ≠ .none → p = q) ∧
    ((s.slot i).busy = true ↔ ∃ p, (s.slot i).hold p ≠ .none)
  agree : ∀ i, 0 < (s.slot i).ref → (s.slot i).valid = true → (s.slot i).busy = false →
    s.disk (s.slot i).key = (s.slot i).node

omit [DecidableEq Process] in
theorem Inv.consistent (inv : s.Inv) : s.Consistent where
  unique _ _ := inv.unique
  ref i := (inv.sound i).ref
  lock i := ⟨fun _ _ => (inv.sound i).single, (inv.sound i).busy⟩
  agree i := (inv.sound i).agree

theorem Inv.no_panic (inv : s.Inv) (careful : s.Careful action) :
    s.perform action ≠ .error .iputBusy ∧ s.perform action ≠ .error .iunlock := by
  cases action with
  | iget p dev inum =>
    simp only [perform, Icache.iget]
    split
    · simp
    · split <;> simp
  | idup p i => simp [perform]
  | ilock p i =>
    simp only [perform, Icache.ilock]
    split_ifs <;> simp
  | iunlock p i =>
    have held : (s.slot i).hold p ≠ .none := by simp [careful.1]
    have busy := (inv.sound i).busy.mpr ⟨p, held⟩
    have used := (inv.sound i).ref_pos ((inv.sound i).backed held)
    have fine : ¬((s.slot i).busy = false ∨ (s.slot i).ref < 1) := by
      rw [busy]
      simpa using Nat.ne_of_gt used
    simp only [perform, Icache.iunlock, if_neg fine]
    simp
  | iput p i =>
    simp only [perform, Icache.iput]
    split_ifs with last busy
    · obtain ⟨q, locked⟩ := (inv.sound i).busy.mp busy
      have same := (inv.sound i).sole last.1 careful.1 locked
      have many := careful.2.resolve_left (same ▸ locked)
      have few := (inv.sound i).refs_le p
      omega
    · simp
    · simp
  | give p q i => simp [perform]
  | claim dev inum type =>
    simp only [perform]
    split_ifs <;> simp
  | change p i node => simp [perform]
  | iupdate p i => simp [perform]
  | run p i =>
    simp only [perform, Icache.run]
    split
    · simp
    · simp
    · split_ifs <;> simp
    · simp
    · simp
    · simp

variable {disk : Uint × Uint → Dinode} {trace : List (Icache Process × InodeAction Process)}

/-- In every state of a run of careful callers the cache is consistent, and no call of
theirs ends in the panics of `iput` and `iunlock`. -/
theorem icache_consistent (run : Transition.Run step Careful (start disk) trace s) :
    s.Consistent ∧ ∀ action, s.Careful action →
      s.perform action ≠ .error .iputBusy ∧ s.perform action ≠ .error .iunlock := by
  have inv : s.Inv := run.stateInvariant (inv_start disk) fun inv careful taken =>
    inv.step careful taken
  exact ⟨inv.consistent, fun _ careful => inv.no_panic careful⟩

/-- Process 0 hands a reference over to its child, which drops it.  While process 0 then
frees the inode in `iput`, process 1 allocates it again and gets the same slot; it locks the
inode once process 0 is done. -/
def reused : List (InodeAction (Fin 2)) :=
  [.iget 0 1 5, .idup 0 0, .give 0 1 0, .iput 1 0, .ilock 0 0, .run 0 0,
    .change 0 0 { Dinode.fresh 2 with nlink := 0 }, .iupdate 0 0, .iunlock 0 0, .iput 0 0,
    .run 0 0, .run 0 0, .claim 1 5 2, .iget 1 1 5, .run 0 0, .ilock 1 0, .run 1 0]

theorem icache_consistent_reused :
    ∃ s : Icache (Fin 2), Transition.Run step Careful
      (start fun _ => { Dinode.fresh 2 with nlink := 1 })
      (Transition.traceOf step (start fun _ => { Dinode.fresh 2 with nlink := 1 }) reused) s ∧
      (s.slot 0).ref = 1 ∧ (s.slot 0).hold 1 = .locked ∧ s.Consistent := by
  have ran : ∃ s : Icache (Fin 2), Transition.Run step Careful
      (start fun _ => { Dinode.fresh 2 with nlink := 1 })
      (Transition.traceOf step (start fun _ => { Dinode.fresh 2 with nlink := 1 }) reused) s ∧
      (s.slot 0).ref = 1 ∧ (s.slot 0).hold 1 = .locked :=
    Transition.Run.of_exec_met _ (by decide +kernel) (by decide +kernel)
  obtain ⟨s, run, ref, locked⟩ := ran
  exact ⟨s, run, ref, locked, (icache_consistent run).1⟩

/-- A caller that drops its only reference while it holds the lock keeps to the rules but
ends in the panic of `iput`.  One that sets the type to 0 keeps to them as well, but then
`ialloc` takes the inode, and the copy in the cache no longer agrees with it. -/
theorem rules_not_enough :
    (∃ (s : Icache (Fin 1)) (trace : _), Transition.Run step Rules
      (start fun _ => Dinode.fresh 2) trace s ∧
      s.Rules (.iput 0 0) ∧ s.perform (.iput 0 0) = .error .iputBusy) ∧
    ∃ (s : Icache (Fin 1)) (trace : _), Transition.Run step Rules
      (start fun _ => Dinode.fresh 2) trace s ∧
      (s.slot 0).ref = 1 ∧ (s.slot 0).valid = true ∧ (s.slot 0).busy = false ∧
      s.disk (s.slot 0).key ≠ (s.slot 0).node := by
  constructor
  · have ran : ∃ s : Icache (Fin 1), Transition.Run step Rules (start fun _ => Dinode.fresh 2)
        (Transition.traceOf step (start fun _ => Dinode.fresh 2)
          [.iget 0 1 5, .ilock 0 0, .run 0 0]) s ∧
        s.Rules (.iput 0 0) ∧ s.stopped (.iput 0 0) = some .iputBusy :=
      Transition.Run.of_exec_met _ (by decide +kernel) (by decide +kernel)
    obtain ⟨s, run, rules, stopped⟩ := ran
    exact ⟨s, _, run, rules, stopped_eq_some.mp stopped⟩
  · exact Transition.Run.exists_met [.iget 0 1 5, .ilock 0 0, .run 0 0, .change 0 0 (.fresh 0),
      .iupdate 0 0, .iunlock 0 0, .claim 1 5 2] (by decide +kernel) (by decide +kernel)

end Icache

end Xv6
