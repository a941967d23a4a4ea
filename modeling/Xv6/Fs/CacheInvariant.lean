import Xv6.Fs.BufferCache

/-!
# The invariant of the buffer cache

It has three parts: the order of the buffers in the ring, who works on which buffer, and
where the data of a sector are.  The buffers that `binit` leaves look like buffers of
sector 0 of device -1.  Those that have not been used yet stay behind the used ones, so
that even this sector is in one used buffer at most.

Most steps are taken by one process on a buffer that no other process holds.  For these
the invariant has to be shown for that buffer only.
-/

namespace Xv6

/-- How far a call of `iderw` is. -/
inductive DiskPhase where
  | before
  | waiting
  | after
  deriving DecidableEq

namespace BufPc

/-- The buffer a process works on, the call and how far it is. -/
def work : BufPc → Option (BufIndex × DiskCall × DiskPhase)
  | .iderw b call => some (b, call, .before)
  | .wait b call _ => some (b, call, .waiting)
  | .returning b call => some (b, call, .after)
  | .idle | .bget _ _ _ => none

/-- The sector a process looks for. -/
def asks : BufPc → Option (Uint × Uint)
  | .bget dev sector _ => some (dev, sector)
  | _ => none

@[simp] theorem work_wake (b : BufIndex) (pc : BufPc) : (pc.wake b).work = pc.work := by
  cases pc with
  | bget dev sector chan => cases chan <;> rfl
  | _ => rfl

@[simp] theorem asks_wake (b : BufIndex) (pc : BufPc) : (pc.wake b).asks = pc.asks := by
  cases pc with
  | bget dev sector chan => cases chan <;> rfl
  | _ => rfl

@[simp] theorem work_awake (pc : BufPc) : pc.awake.work = pc.work := by
  cases pc <;> rfl

@[simp] theorem asks_awake (pc : BufPc) : pc.awake.asks = pc.asks := by
  cases pc <;> rfl

end BufPc

variable {call : DiskCall}

section Buf

variable {Data : Type} {buf : Buf Data}

/-- A buffer that has not been used since `binit`. -/
def Buf.Blank (buf : Buf Data) : Prop :=
  buf.busy = false ∧ buf.valid = false ∧ buf.key = (-1, 0)

/-- A call of `iderw` for the buffer has not been served. -/
def DiskCall.Requested : DiskCall → Buf Data → Prop
  | .bread _ _, buf => buf.valid = false ∧ buf.dirty = false
  | .bwrite, buf => buf.dirty = true

theorem DiskCall.Requested.not_synced (requested : call.Requested buf) : ¬buf.Synced := by
  intro synced
  cases call with
  | bread => exact absurd (requested.1.symm.trans synced.1) (by decide)
  | bwrite => exact absurd (synced.2.symm.trans requested) (by decide)

theorem Buf.not_blank_of_busy (busy : buf.busy = true) : ¬buf.Blank := by
  simp [Buf.Blank, busy]

theorem Buf.not_blank_of_valid (valid : buf.valid = true) : ¬buf.Blank := by
  simp [Buf.Blank, valid]

/-- The state of a disk that works on a buffer. -/
def Drive.Serves {Addr : Type} (address : Uint × Uint → Addr) (disk : Addr → Data)
    (buf : Buf Data) : Drive Addr Data → Prop
  | .idle => False
  | .reading addr => buf.dirty = false ∧ addr = address buf.key
  | .writing addr data => buf.dirty = true ∧ addr = address buf.key ∧ data = buf.data
  | .ready none => buf.dirty = true ∧ disk (address buf.key) = buf.data
  | .ready (some data) => buf.dirty = false ∧ data = disk (address buf.key)

theorem Buf.serves_command {Addr : Type} {address : Uint × Uint → Addr} {disk : Addr → Data}
    : (buf.command address).Serves address disk buf := by
  unfold Buf.command
  split_ifs with dirty
  · exact ⟨dirty, rfl, rfl⟩
  · exact ⟨by simpa using dirty, rfl⟩

end Buf

namespace Bcache

variable {Process Addr Data : Type} {s : Bcache Process Addr Data} {order : List BufIndex}

/-! ## The invariant -/

/-- The buffers in the order of the ring: of those for one sector only the first is in
use. -/
structure Ordered (s : Bcache Process Addr Data) (order : List BufIndex) : Prop where
  holds : s.ring.Holds order
  all : order.Perm (List.finRange nbuf)
  keys : order.Pairwise fun b b' => (s.buf b).key = (s.buf b').key → (s.buf b').Blank

/-- A buffer that nobody holds. -/
structure Free (s : Bcache Process Addr Data) (b : BufIndex) : Prop where
  busy : (s.buf b).busy = false
  dirty : (s.buf b).dirty = false
  queue : b ∉ s.idequeue
  saved : b ∉ s.unsaved
  used : (s.buf b).valid = true ∨ (s.buf b).Blank

/-- A buffer that the disk has no request for. -/
structure Settled (s : Bcache Process Addr Data) (b : BufIndex) : Prop where
  queue : b ∉ s.idequeue
  synced : (s.buf b).Synced

/-- A buffer with a request that has not been served. -/
structure Pending (s : Bcache Process Addr Data) (p : Process) (b : BufIndex)
    (call : DiskCall) : Prop where
  requested : call.Requested (s.buf b)
  place : (s.pc p).work = some (b, call, .before) ∧ b ∉ s.idequeue ∨
    (s.pc p).work = some (b, call, .waiting) ∧ b ∈ s.idequeue

/-- Who works on which buffer. -/
structure Owned (s : Bcache Process Addr Data) : Prop where
  busy : ∀ {p b}, b ∈ s.held p → (s.buf b).busy = true
  single : ∀ {p q b}, b ∈ s.held p → b ∈ s.held q → p = q
  worker : ∀ {p b call phase}, (s.pc p).work = some (b, call, phase) → b ∈ s.held p
  free : ∀ {b}, (∀ p, b ∉ s.held p) → s.Free b
  stage : ∀ {p b}, b ∈ s.held p → s.Settled b ∨ ∃ call, s.Pending p b call
  nodup : s.idequeue.Nodup

/-- A process is in `bwrite` with the buffer. -/
def Writing (s : Bcache Process Addr Data) (b : BufIndex) : Prop :=
  ∃ p phase, (s.pc p).work = some (b, .bwrite, phase)

/-- The disk works on the first buffer of the queue. -/
def Serves (address : Uint × Uint → Addr) (s : Bcache Process Addr Data) : Prop :=
  match s.idequeue with
  | [] => s.drive = .idle
  | b :: _ => s.drive.Serves address s.disk (s.buf b)

/-- Where the data of the sectors are, if the disk had `disk` at first. -/
structure Fresh (address : Uint × Uint → Addr) (sectors : Set (Uint × Uint))
    (disk : Addr → Data) (s : Bcache Process Addr Data) : Prop where
  asked : ∀ {p key}, (s.pc p).asks = some key → key ∈ sectors
  known : ∀ {b}, ¬(s.buf b).Blank → (s.buf b).key ∈ sectors
  wanted : ∀ {p b dev sector phase}, (s.pc p).work = some (b, .bread dev sector, phase) →
    (s.buf b).key = (dev, sector) ∧ b ∉ s.unsaved
  current : ∀ {b}, (s.buf b).valid = true → ¬s.Writing b → b ∉ s.unsaved →
    (s.buf b).data = s.lastWritten address disk (s.buf b).key
  stored : ∀ {key}, key ∈ sectors → (∀ b, (s.buf b).key = key → ¬s.Writing b) →
    s.disk (address key) = s.lastWritten address disk key
  flushed : ∀ {b}, s.Writing b → (s.buf b).dirty = false →
    s.disk (address (s.buf b).key) = (s.buf b).data
  serves : s.Serves address

structure Inv (address : Uint × Uint → Addr) (sectors : Set (Uint × Uint))
    (disk : Addr → Data) (s : Bcache Process Addr Data) : Prop where
  ordered : ∃ order, s.Ordered order
  owned : s.Owned
  fresh : s.Fresh address sectors disk

/-! ## What the invariant says -/

section
variable (ordered : s.Ordered order)
include ordered

theorem Ordered.mem (b : BufIndex) : b ∈ order :=
  ordered.all.mem_iff.mpr (List.mem_finRange b)

theorem Ordered.length_lt : order.length < nbuf + 1 := by
  simp [ordered.all.length_eq]

theorem Ordered.forward_eq : s.forward = order :=
  ordered.holds.walk_next ordered.length_lt

theorem Ordered.backward_eq : s.backward = order.reverse :=
  ordered.holds.walk_prev ordered.length_lt

theorem Ordered.unique {b b' : BufIndex}
    (same : (s.buf b).key = (s.buf b').key) (used : ¬(s.buf b).Blank)
    (used' : ¬(s.buf b').Blank) : b = b' := by
  have either : order.Pairwise fun b b' => (s.buf b).key = (s.buf b').key →
      (s.buf b).Blank ∨ (s.buf b').Blank :=
    ordered.keys.imp fun blank equal => .inr (blank equal)
  have : Std.Symm fun b b' => (s.buf b).key = (s.buf b').key →
      (s.buf b).Blank ∨ (s.buf b').Blank :=
    ⟨fun b b' blank equal => (blank equal.symm).symm⟩
  by_contra different
  rcases either.forall (ordered.mem b) (ordered.mem b') different same with blank | blank
  · exact used blank
  · exact used' blank

end

namespace Owned

variable {p q : Process} {b : BufIndex} {phase : DiskPhase}

section
variable (owned : s.Owned)
include owned

theorem not_held (idle : (s.buf b).busy = false) (p : Process) : b ∉ s.held p := by
  intro held
  simp [owned.busy held] at idle

theorem not_writing (unheld : ∀ p, b ∉ s.held p) : ¬s.Writing b := by
  rintro ⟨p, phase, work⟩
  exact unheld p (owned.worker work)

theorem settled (held : b ∈ s.held p)
    (other : ∀ call phase, (s.pc p).work = some (b, call, phase) → phase = .after) :
    s.Settled b := by
  refine (owned.stage held).resolve_right ?_
  rintro ⟨call, -, ⟨work, -⟩ | ⟨work, -⟩⟩
  · nomatch other _ _ work
  · nomatch other _ _ work

theorem not_writing_of_work (held : b ∈ s.held p)
    (other : ∀ phase, (s.pc p).work ≠ some (b, .bwrite, phase)) : ¬s.Writing b := by
  rintro ⟨q, phase, work⟩
  obtain rfl := owned.single held (owned.worker work)
  exact other phase work

theorem writing_iff (work : (s.pc p).work = some (b, call, phase)) :
    s.Writing b ↔ call = .bwrite := by
  constructor
  · rintro ⟨q, phase', working⟩
    obtain rfl := owned.single (owned.worker working) (owned.worker work)
    rw [work] at working
    simp_all
  · rintro rfl
    exact ⟨p, phase, work⟩

theorem waiting (queued : b ∈ s.idequeue) : ∃ p call, b ∈ s.held p ∧
    call.Requested (s.buf b) ∧ (s.pc p).work = some (b, call, .waiting) := by
  by_cases held : ∃ p, b ∈ s.held p
  · obtain ⟨p, held⟩ := held
    rcases owned.stage held with settled | ⟨call, requested, ⟨-, absent⟩ | ⟨work, -⟩⟩
    · exact absurd queued settled.queue
    · exact absurd queued absent
    · exact ⟨p, call, held, requested, work⟩
  · exact absurd queued (owned.free (not_exists.mp held)).queue

end

end Owned

/-! ## Steps of one process on one buffer -/

/-- A step of a process that concerns one buffer, which no other process holds. -/
structure Local (s s' : Bcache Process Addr Data) (p : Process) (b : BufIndex) : Prop where
  work : ∀ q ≠ p, (s'.pc q).work = (s.pc q).work
  asks : ∀ q ≠ p, (s'.pc q).asks = (s.pc q).asks
  held : ∀ q ≠ p, s'.held q = s.held q
  heldOther : ∀ b' ≠ b, (b' ∈ s'.held p ↔ b' ∈ s.held p)
  buf : ∀ b' ≠ b, s'.buf b' = s.buf b'
  queue : ∀ b' ≠ b, (b' ∈ s'.idequeue ↔ b' ∈ s.idequeue)
  unsaved : ∀ b' ≠ b, (b' ∈ s'.unsaved ↔ b' ∈ s.unsaved)
  mine : ∀ {b' call phase}, (s.pc p).work = some (b', call, phase) → b' = b
  mine' : ∀ {b' call phase}, (s'.pc p).work = some (b', call, phase) → b' = b
  alone : ∀ q, b ∈ s.held q → q = p

namespace Local

variable {s' : Bcache Process Addr Data} {p : Process} {b b' : BufIndex}

section
variable (near : Local s s' p b)
include near

theorem alone' {q : Process} (held : b ∈ s'.held q) : q = p := by
  by_contra other
  rw [near.held q other] at held
  exact other (near.alone q held)

theorem settled_iff (different : b' ≠ b) : s'.Settled b' ↔ s.Settled b' := by
  constructor
  · rintro ⟨queue, synced⟩
    exact ⟨mt (near.queue b' different).mpr queue, near.buf b' different ▸ synced⟩
  · rintro ⟨queue, synced⟩
    exact ⟨mt (near.queue b' different).mp queue, (near.buf b' different).symm ▸ synced⟩

theorem writing_iff (different : b' ≠ b) : s'.Writing b' ↔ s.Writing b' := by
  constructor
  · rintro ⟨q, phase, work⟩
    have other : q ≠ p := by
      rintro rfl
      exact different (near.mine' work)
    exact ⟨q, phase, near.work q other ▸ work⟩
  · rintro ⟨q, phase, work⟩
    have other : q ≠ p := by
      rintro rfl
      exact different (near.mine work)
    exact ⟨q, phase, (near.work q other).symm ▸ work⟩

theorem owned (owned : s.Owned)
    (worker : ∀ {call phase}, (s'.pc p).work = some (b, call, phase) → b ∈ s'.held p)
    (free : b ∉ s'.held p → s'.Free b) (held : b ∈ s'.held p → (s'.buf b).busy = true ∧
      (s'.Settled b ∨ ∃ call, s'.Pending p b call)) (nodup : s'.idequeue.Nodup) : s'.Owned where
  busy {q b'} member := by
    by_cases same : b' = b
    · subst same
      obtain rfl := near.alone' member
      exact (held member).1
    · rw [near.buf b' same]
      by_cases mine : q = p
      · subst mine
        exact owned.busy ((near.heldOther b' same).mp member)
      · exact owned.busy (near.held q mine ▸ member)
  single {q r b'} first second := by
    by_cases same : b' = b
    · subst same
      rw [near.alone' first, near.alone' second]
    · have before : ∀ {q}, b' ∈ s'.held q → b' ∈ s.held q := by
        intro q member
        by_cases mine : q = p
        · subst mine
          exact (near.heldOther b' same).mp member
        · exact near.held q mine ▸ member
      exact owned.single (before first) (before second)
  worker {q b' call phase} work := by
    by_cases mine : q = p
    · subst mine
      obtain rfl := near.mine' work
      exact worker work
    · rw [near.work q mine] at work
      exact (near.held q mine).symm ▸ owned.worker work
  free {b'} unheld := by
    by_cases same : b' = b
    · subst same
      exact free (unheld p)
    · have before : s.Free b' := by
        refine owned.free fun q member => unheld q ?_
        by_cases mine : q = p
        · subst mine
          exact (near.heldOther b' same).mpr member
        · exact (near.held q mine).symm ▸ member
      refine ⟨?_, ?_, mt (near.queue b' same).mp before.queue,
        mt (near.unsaved b' same).mp before.saved, ?_⟩
      all_goals rw [near.buf b' same]
      · exact before.busy
      · exact before.dirty
      · exact before.used
  stage {q b'} member := by
    by_cases same : b' = b
    · subst same
      obtain rfl := near.alone' member
      exact (held member).2
    · rw [near.settled_iff same]
      by_cases mine : q = p
      · subst mine
        refine .inl (owned.settled ((near.heldOther b' same).mp member) fun call phase work => ?_)
        exact absurd (near.mine work) same
      · refine (owned.stage (near.held q mine ▸ member)).imp_right ?_
        rintro ⟨call, requested, place⟩
        refine ⟨call, (near.buf b' same).symm ▸ requested, ?_⟩
        rwa [near.work q mine, near.queue b' same]
  nodup := nodup

end

variable {address : Uint × Uint → Addr} {sectors : Set (Uint × Uint)} {disk : Addr → Data}

theorem fresh (near : Local s s' p b) (owned : s.Owned) (fresh : s.Fresh address sectors disk)
    (sameDisk : s'.disk = s.disk) (sameWritten : s'.written = s.written)
    (asked : ∀ {key}, (s'.pc p).asks = some key → key ∈ sectors)
    (known : ¬(s'.buf b).Blank → (s'.buf b).key ∈ sectors)
    (wanted : ∀ {dev sector phase}, (s'.pc p).work = some (b, .bread dev sector, phase) →
      (s'.buf b).key = (dev, sector) ∧ b ∉ s'.unsaved)
    (current : (s'.buf b).valid = true → ¬s'.Writing b → b ∉ s'.unsaved →
      (s'.buf b).data = s.lastWritten address disk (s'.buf b).key)
    (writing : ((s'.buf b).key = (s.buf b).key → ¬s'.Writing b) → ¬s.Writing b)
    (flushed : s'.Writing b → (s'.buf b).dirty = false →
      s.disk (address (s'.buf b).key) = (s'.buf b).data)
    (serves : s'.Serves address) : s'.Fresh address sectors disk := by
  have sameLast : s'.lastWritten address disk = s.lastWritten address disk := by
    funext key
    rw [lastWritten, lastWritten, sameWritten]
  constructor
  case serves => exact serves
  case asked =>
    intro q key asks
    by_cases mine : q = p
    · subst mine
      exact asked asks
    · exact fresh.asked (near.asks q mine ▸ asks)
  case known =>
    intro b' used
    by_cases same : b' = b
    · subst same
      exact known used
    · rw [near.buf b' same] at used ⊢
      exact fresh.known used
  case wanted =>
    intro q b' dev sector phase work
    by_cases mine : q = p
    · subst mine
      obtain rfl := near.mine' work
      exact wanted work
    · rw [near.work q mine] at work
      have same : b' ≠ b := by
        rintro rfl
        exact mine (near.alone q (owned.worker work))
      rw [near.buf b' same, near.unsaved b' same]
      exact fresh.wanted work
  case current =>
    intro b' valid idle saved
    rw [sameLast]
    by_cases same : b' = b
    · subst same
      exact current valid idle saved
    · rw [near.writing_iff same] at idle
      rw [near.unsaved b' same] at saved
      rw [near.buf b' same] at valid ⊢
      exact fresh.current valid idle saved
  case stored =>
    intro key sector idle
    rw [sameDisk, sameLast]
    refine fresh.stored sector fun b' here => ?_
    by_cases same : b' = b
    · subst same
      exact writing fun equal => idle b' (equal.trans here)
    · rw [← near.writing_iff same]
      exact idle b' (near.buf b' same ▸ here)
  case flushed =>
    intro b' active clean
    rw [sameDisk]
    by_cases same : b' = b
    · subst same
      exact flushed active clean
    · rw [near.writing_iff same] at active
      rw [near.buf b' same] at clean ⊢
      exact fresh.flushed active clean

theorem fresh_same (near : Local s s' p b) (owned : s.Owned) (owned' : s'.Owned)
    (fresh : s.Fresh address sectors disk) {phase phase' : DiskPhase}
    (work : (s.pc p).work = some (b, call, phase))
    (work' : (s'.pc p).work = some (b, call, phase')) (asks : (s'.pc p).asks = none)
    (buf : s'.buf = s.buf) (unsaved : s'.unsaved = s.unsaved) (sameDisk : s'.disk = s.disk)
    (sameWritten : s'.written = s.written) (serves : s'.Serves address) :
    s'.Fresh address sectors disk := by
  have writing : s'.Writing b ↔ s.Writing b :=
    (owned'.writing_iff work').trans (owned.writing_iff work).symm
  refine near.fresh owned fresh sameDisk sameWritten ?_ ?_ ?_ ?_ ?_ ?_ serves
  · simp [asks]
  all_goals rw [buf]
  · exact fresh.known
  · intro dev sector phase working
    rw [work'] at working
    simp only [Option.some.injEq, Prod.mk.injEq, true_and] at working
    rw [unsaved]
    exact fresh.wanted (working.1 ▸ work)
  · rw [writing, unsaved]
    exact fresh.current
  · rw [writing]
    exact fun idle => idle rfl
  · rw [writing]
    exact fresh.flushed

end Local

end Bcache

end Xv6
