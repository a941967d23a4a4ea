import Xv6.Fs.CacheInvariant

/-!
# The steps of the buffer cache keep its invariant

One lemma for each thing that a process, the disk or the interrupt handler can do.
-/

namespace Xv6

open Function

namespace Bcache

variable {Process Addr Data : Type} {s : Bcache Process Addr Data}

/-! ## Steps that change no buffer -/

variable {address : Uint × Uint → Addr} {sectors : Set (Uint × Uint)} {disk : Addr → Data}
  {s' : Bcache Process Addr Data} {order : List BufIndex} {p : Process} {b : BufIndex}
  {buf : Buf Data}

theorem Ordered.congr (ordered : s.Ordered order) (ring : s'.ring = s.ring)
    (key : ∀ b, (s'.buf b).key = (s.buf b).key)
    (blank : ∀ b, (s.buf b).Blank → (s'.buf b).Blank) : s'.Ordered order := by
  refine ⟨ring ▸ ordered.holds, ordered.all, ordered.keys.imp fun {b b'} unused same => ?_⟩
  rw [key, key] at same
  exact blank b' (unused same)

theorem Inv.repc (inv : Inv address sectors disk s) {pc : Process → BufPc}
    (work : ∀ p, (pc p).work = (s.pc p).work)
    (asks : ∀ p key, (pc p).asks = some key → key ∈ sectors) :
    Inv address sectors disk { s with pc := pc } := by
  have writing : ∀ b, Writing { s with pc := pc } b ↔ s.Writing b := by
    simp [Writing, work]
  obtain ⟨⟨order, ordered⟩, owned, fresh⟩ := inv
  refine ⟨⟨order, ordered.congr rfl (fun _ => rfl) fun _ => id⟩, ?_, ?_⟩
  · refine ⟨owned.busy, owned.single, ?_, ?_, ?_, owned.nodup⟩
    · intro p b call phase working
      rw [work] at working
      exact owned.worker working
    · intro b unheld
      obtain ⟨busy, dirty, queue, saved, used⟩ := owned.free unheld
      exact ⟨busy, dirty, queue, saved, used⟩
    · intro p b held
      refine (owned.stage held).imp (fun settled => ⟨settled.queue, settled.synced⟩) ?_
      rintro ⟨call, requested, place⟩
      exact ⟨call, requested, by rwa [work]⟩
  · refine ⟨@asks, fresh.known, ?_, ?_, ?_, ?_, fresh.serves⟩
    · intro p b dev sector phase working
      rw [work] at working
      exact fresh.wanted working
    · intro b valid idle saved
      rw [writing] at idle
      exact fresh.current valid idle saved
    · intro key sector idle
      simp only [writing] at idle
      exact fresh.stored sector idle
    · intro b active
      rw [writing] at active
      exact fresh.flushed active

theorem Serves.congr (serves : s.Serves address) (queue : s'.idequeue = s.idequeue)
    (drive : s'.drive = s.drive) (sameDisk : s'.disk = s.disk)
    (buf : ∀ b ∈ s.idequeue, s'.buf b = s.buf b) : s'.Serves address := by
  unfold Serves at serves ⊢
  rw [queue, drive, sameDisk]
  cases head : s.idequeue with
  | nil => simpa only [head] using serves
  | cons first rest =>
    simp only [head] at serves ⊢
    rwa [buf first (head ▸ List.mem_cons_self)]

theorem Serves.head (serves : s.Serves address) (working : s.drive ≠ .idle) :
    ∃ first rest, s.idequeue = first :: rest ∧ s.drive.Serves address s.disk (s.buf first) := by
  unfold Serves at serves
  split at serves
  · exact absurd serves working
  next first rest queue => exact ⟨first, rest, queue, serves⟩

theorem Owned.alone (owned : s.Owned) (held : b ∈ s.held p) (q : Process) (other : b ∈ s.held q) :
    q = p :=
  owned.single other held

theorem ne_of_mem_queue {b' : BufIndex} (absent : b ∉ s.idequeue) (queued : b' ∈ s.idequeue) :
    b' ≠ b := by
  rintro rfl
  exact absent queued

theorem lastWritten_cons {key key' : Uint × Uint} {data : Data}
    (added : s'.written = (key', data) :: s.written) :
    s'.lastWritten address disk key =
      if key = key' then data else s.lastWritten address disk key := by
  rw [lastWritten, added, List.lookup_cons]
  by_cases same : key = key'
  · simp [same]
  · simp only [beq_eq_false_iff_ne.mpr same, if_neg same, lastWritten]

theorem Serves.setBuf (serves : s.Serves address) (absent : b ∉ s.idequeue) :
    (s.setBuf b buf).Serves address :=
  serves.congr rfl rfl rfl fun _ queued =>
    update_of_ne (ne_of_mem_queue absent queued) _ _

theorem key_setBuf (key : buf.key = (s.buf b).key) (b' : BufIndex) :
    ((s.setBuf b buf).buf b').key = (s.buf b').key := by
  by_cases same : b' = b
  · rw [same]
    simpa [setBuf] using key
  · simp [setBuf, same]

/-! ## The order of the buffers -/

section
variable (ordered : s.Ordered order)
include ordered

theorem Ordered.setBuf
    (key : buf.key = (s.buf b).key) (used : ¬(s.buf b).Blank) : (s.setBuf b buf).Ordered order := by
  refine ordered.congr rfl (key_setBuf key) fun b' blank => ?_
  have different : b' ≠ b := by
    rintro rfl
    exact used blank
  simpa [Bcache.setBuf, different] using blank

theorem Ordered.first {key : Uint × Uint}
    (found : (order.find? fun b => (s.buf b).key = key) = some b) :
    order.Pairwise fun x y => y = b → (s.buf x).key ≠ key := by
  obtain ⟨-, before, after, rfl, others⟩ := List.find?_eq_some_iff_append.mp found
  obtain ⟨-, nodup, apart⟩ := List.nodup_append.mp ordered.holds.nodup
  have notAfter := (List.nodup_cons.mp nodup).1
  refine List.pairwise_append.mpr ⟨?_, List.pairwise_cons.mpr ⟨?_, ?_⟩, ?_⟩
  · refine List.pairwise_of_forall_mem_list fun x _ y here same => ?_
    exact absurd same (apart y here b List.mem_cons_self)
  · exact fun y here same => absurd (same ▸ here) notAfter
  · refine List.pairwise_of_forall_mem_list fun x _ y here same => ?_
    exact absurd (same ▸ here) notAfter
  · exact fun x here _ _ _ => by simpa using others x here

theorem Ordered.hit (key : buf.key = (s.buf b).key)
    (found : (order.find? fun b' => (s.buf b').key = (s.buf b).key) = some b) :
    (s.setBuf b buf).Ordered order := by
  refine ⟨ordered.holds, ordered.all, ?_⟩
  refine (ordered.keys.and (ordered.first found)).imp fun {x y} ⟨blank, earlier⟩ same => ?_
  rw [key_setBuf key, key_setBuf key] at same
  have different : y ≠ b := by
    rintro rfl
    exact earlier rfl same
  simpa [Bcache.setBuf, different] using blank same

theorem Ordered.recycle
    (absent : ∀ b', (s.buf b').key ≠ buf.key) : (s.setBuf b buf).Ordered order := by
  refine ⟨ordered.holds, ordered.all, ?_⟩
  refine (ordered.keys.and ordered.holds.nodup).imp fun {x y} ⟨blank, different⟩ same => ?_
  by_cases here : x = b
  · subst here
    have other : y ≠ x := different.symm
    simp only [Bcache.setBuf, update_self, update_of_ne other] at same
    exact absurd same.symm (absent y)
  · by_cases there : y = b
    · subst there
      simp only [Bcache.setBuf, update_self, update_of_ne here] at same
      exact absurd same (absent x)
    · simp only [Bcache.setBuf, update_of_ne here, update_of_ne there] at same ⊢
      exact blank same

theorem Ordered.moveFront (used : ¬(s.buf b).Blank) (ring : s'.ring = (s.ring.remove b).pushFront b)
    (key : ∀ b', (s'.buf b').key = (s.buf b').key)
    (blank : ∀ b' ≠ b, (s.buf b').Blank → (s'.buf b').Blank) : s'.Ordered (b :: order.erase b) := by
  have member := ordered.mem b
  have different : ∀ {b'}, b' ∈ order.erase b → b' ≠ b := fun here =>
    (ordered.holds.nodup.mem_erase_iff.mp here).1
  refine ⟨ring ▸ ordered.holds.moveFront member, ?_, List.pairwise_cons.mpr ⟨?_, ?_⟩⟩
  · exact (List.perm_cons_erase member).symm.trans ordered.all
  · intro b' here same
    rw [key, key] at same
    refine blank b' (different here) (by_contra fun used' => different here ?_)
    exact (ordered.unique same used used').symm
  · refine (ordered.keys.sublist List.erase_sublist).imp_of_mem fun _ here unused same => ?_
    rw [key, key] at same
    exact blank _ (different here) (unused same)

end

/-! ## The disk and the data -/

theorem Inv.store (inv : Inv address sectors disk s) (held : b ∈ s.held p)
    (at_idle : s.pc p = .idle) (data : Data) : Inv address sectors disk
      { s.setBuf b { s.buf b with data := data } with unsaved := insert b s.unsaved } := by
  obtain ⟨⟨order, ordered⟩, owned, fresh⟩ := inv
  have none : (s.pc p).work = .none := by rw [at_idle]; rfl
  have settled := owned.settled held (by simp [none])
  have still : ¬s.Writing b := owned.not_writing_of_work held (by simp [none])
  have busy := owned.busy held
  have near : Local s { s.setBuf b { s.buf b with data := data } with
      unsaved := insert b s.unsaved } p b :=
    { work := fun _ _ => rfl
      asks := fun _ _ => rfl
      held := fun _ _ => rfl
      heldOther := fun _ _ => Iff.rfl
      buf := fun b' other => by simp [setBuf, other]
      queue := fun _ _ => Iff.rfl
      unsaved := fun b' other => by simp [other]
      mine := by simp [none]
      mine' := by simp [setBuf, none]
      alone := owned.alone held }
  have buf : (s.setBuf b { s.buf b with data := data }).buf b = { s.buf b with data := data } := by
    simp [setBuf]
  have ordered' : (s.setBuf b { s.buf b with data := data }).Ordered order :=
    ordered.setBuf rfl (Buf.not_blank_of_busy busy)
  refine ⟨⟨order, ordered'.congr rfl (fun _ => rfl) fun _ => id⟩, ?_, ?_⟩
  · refine near.owned owned (fun _ => held) (fun unheld => absurd held unheld)
      (fun _ => ⟨?_, .inl ⟨settled.queue, ?_⟩⟩) owned.nodup
    · rw [buf]
      exact busy
    · rw [buf]
      exact settled.synced
  · refine near.fresh owned fresh rfl rfl fresh.asked ?_ ?_ ?_ (fun _ => still) ?_
      (fresh.serves.setBuf settled.queue)
    · rw [buf]
      exact fun _ => fresh.known (Buf.not_blank_of_busy busy)
    · simp [setBuf, none]
    · simp
    · exact fun active => absurd active still

theorem Owned.setDisk (owned : s.Owned) (drive : Drive Addr Data) (contents : Addr → Data) :
    { s with drive := drive, disk := contents }.Owned := by
  refine ⟨owned.busy, owned.single, owned.worker, fun unheld => ?_, fun held => ?_, owned.nodup⟩
  · obtain ⟨busy, dirty, queue, saved, used⟩ := owned.free unheld
    exact ⟨busy, dirty, queue, saved, used⟩
  · refine (owned.stage held).imp (fun settled => ⟨settled.queue, settled.synced⟩) ?_
    rintro ⟨call, requested, place⟩
    exact ⟨call, requested, place⟩

theorem Owned.writing_of_dirty (owned : s.Owned) (queued : b ∈ s.idequeue)
    (dirty : (s.buf b).dirty = true) : s.Writing b := by
  obtain ⟨p, call, -, requested, work⟩ := owned.waiting queued
  cases call with
  | bread => simp [requested.2] at dirty
  | bwrite => exact ⟨p, .waiting, work⟩

section
variable (inv : Inv address sectors disk s)
include inv

theorem Inv.writing_apart {b b' : BufIndex}
    (active : s.Writing b) (active' : s.Writing b') (same : (s.buf b').key = (s.buf b).key) :
    b' = b := by
  obtain ⟨order, ordered⟩ := inv.ordered
  obtain ⟨p, phase, work⟩ := active
  obtain ⟨p', phase', work'⟩ := active'
  exact ordered.unique same
    (Buf.not_blank_of_busy (inv.owned.busy (inv.owned.worker work')))
    (Buf.not_blank_of_busy (inv.owned.busy (inv.owned.worker work)))

theorem Inv.sector_of_writing (active : s.Writing b) : (s.buf b).key ∈ sectors := by
  obtain ⟨p, phase, work⟩ := active
  exact inv.fresh.known (Buf.not_blank_of_busy (inv.owned.busy (inv.owned.worker work)))

theorem Inv.perform [DecidableEq Addr]
    (apart : Set.InjOn address sectors) (taken : s.perform = some s') :
    Inv address sectors disk s' := by
  obtain ⟨order, ordered⟩ := inv.ordered
  unfold Bcache.perform at taken
  split at taken
  next addr reading =>
    cases taken
    obtain ⟨first, rest, queue, serves⟩ := inv.fresh.serves.head (by simp [reading])
    rw [reading] at serves
    refine ⟨⟨order, ordered.congr rfl (fun _ => rfl) fun _ => id⟩, inv.owned.setDisk _ _,
      { inv.fresh with serves := ?_ }⟩
    simp only [Serves, queue]
    exact ⟨serves.1, congrArg s.disk serves.2⟩
  next addr data writing =>
    cases taken
    obtain ⟨first, rest, queue, serves⟩ := inv.fresh.serves.head (by simp [writing])
    rw [writing] at serves
    obtain ⟨dirty, rfl, rfl⟩ := serves
    have queued : first ∈ s.idequeue := queue ▸ List.mem_cons_self
    have active := inv.owned.writing_of_dirty queued dirty
    have sector := inv.sector_of_writing active
    refine ⟨⟨order, ordered.congr rfl (fun _ => rfl) fun _ => id⟩, inv.owned.setDisk _ _,
      { inv.fresh with stored := ?_, flushed := ?_, serves := ?_ }⟩
    · intro key here idle
      have different : address key ≠ address (s.buf first).key := fun same =>
        idle first (apart here sector same).symm active
      exact (update_of_ne different _ _).trans (inv.fresh.stored here idle)
    · intro b' active' clean
      have other : b' ≠ first := by
        rintro rfl
        simp [dirty] at clean
      have different : address (s.buf b').key ≠ address (s.buf first).key := fun same =>
        other (inv.writing_apart active active'
          (apart (inv.sector_of_writing active') sector same))
      exact (update_of_ne different _ _).trans (inv.fresh.flushed active' clean)
    · simp only [Serves, queue]
      exact ⟨dirty, update_self _ _ _⟩
  · nomatch taken

end

/-- The buffer after its request has been served. -/
def served (address : Uint × Uint → Addr) (s : Bcache Process Addr Data) (b : BufIndex) :
    Buf Data :=
  { s.buf b with data := s.disk (address (s.buf b).key), valid := true, dirty := false }

theorem Inv.serve (inv : Inv address sectors disk s) {rest : List BufIndex}
    (queue : s.idequeue = b :: rest) {drive : Drive Addr Data}
    (next : s' = { s.setBuf b (s.served address b) with idequeue := rest
                                                        drive := drive }.wakeup b)
    (serves : s'.Serves address) : Inv address sectors disk s' := by
  obtain ⟨⟨order, ordered⟩, owned, fresh⟩ := id inv
  have queued : b ∈ s.idequeue := queue ▸ List.mem_cons_self
  obtain ⟨p, call, held, requested, work⟩ := owned.waiting queued
  have used := Buf.not_blank_of_busy (owned.busy held)
  have nodup : b ∉ rest ∧ rest.Nodup := List.nodup_cons.mp (queue ▸ owned.nodup)
  have buf : s'.buf b = s.served address b := by simp [next, wakeup, setBuf]
  have samePc : ∀ q, (s'.pc q).work = (s.pc q).work ∧ (s'.pc q).asks = (s.pc q).asks := by
    simp [next, wakeup, setBuf]
  have work' : (s'.pc p).work = some (b, call, .waiting) := (samePc p).1.trans work
  have near : Local s s' p b :=
    { work := fun q _ => (samePc q).1
      asks := fun q _ => (samePc q).2
      held := fun _ _ => by rw [next]; rfl
      heldOther := fun _ _ => by rw [next]; rfl
      buf := fun b' other => by simp [next, wakeup, setBuf, other]
      queue := fun b' other => by simp [next, wakeup, queue, other]
      unsaved := fun _ _ => by rw [next]; rfl
      mine := by simp +contextual [work]
      mine' := by simp +contextual [work']
      alone := owned.alone held }
  have held' : b ∈ s'.held p := by rw [next]; exact held
  have owned' : s'.Owned := by
    refine near.owned owned (fun _ => held') (fun unheld => absurd held' unheld)
      (fun _ => ⟨?_, .inl ⟨?_, ?_⟩⟩) ?_
    · rw [buf]
      exact owned.busy held
    · rw [next]
      exact nodup.1
    · rw [buf]
      exact ⟨rfl, rfl⟩
    · rw [next]
      exact nodup.2
  have writing : s'.Writing b ↔ s.Writing b :=
    (owned'.writing_iff work').trans (owned.writing_iff work).symm
  refine ⟨⟨order, ?_⟩, owned', ?_⟩
  · have ordered' : (s.setBuf b (s.served address b)).Ordered order := ordered.setBuf rfl used
    rw [next]
    exact ordered'.congr rfl (fun _ => rfl) fun _ => id
  · refine near.fresh owned fresh (by rw [next]; rfl) (by rw [next]; rfl) ?_ ?_ ?_ ?_ ?_ ?_ serves
    · rw [(samePc p).2]
      exact fresh.asked
    · rw [buf]
      exact fun _ => fresh.known used
    · intro dev sector phase working
      rw [(samePc p).1] at working
      rw [buf, next]
      exact fresh.wanted working
    · rw [buf, writing]
      intro _ idle _
      refine fresh.stored (fresh.known used) fun b' same active => ?_
      obtain ⟨q, phase, working⟩ := id active
      have used' := Buf.not_blank_of_busy (owned.busy (owned.worker working))
      obtain rfl := ordered.unique same used' used
      exact idle active
    · rw [buf, writing]
      exact fun idle => idle rfl
    · rw [buf]
      exact fun _ _ => rfl

theorem Inv.ideintr (inv : Inv address sectors disk s) (taken : s.ideintr address = some s') :
    Inv address sectors disk s' := by
  obtain ⟨order, ordered⟩ := inv.ordered
  unfold Bcache.ideintr at taken
  split at taken
  next b rest data queue ready =>
    have serves := inv.fresh.serves
    simp only [Serves, queue, ready] at serves
    -- Whether it was a read or a write, the buffer and the disk agree.
    have agree : (if (s.buf b).dirty then (s.buf b).data else data.getD (s.buf b).data) =
        s.disk (address (s.buf b).key) := by
      cases data with
      | none => rw [if_pos serves.1, serves.2]
      | some data => rw [if_neg (by simp [serves.1])]; exact serves.2
    simp only [agree] at taken
    cases rest with
    | nil =>
      cases taken
      exact inv.serve queue rfl rfl
    | cons first rest =>
      cases taken
      exact inv.serve queue rfl Buf.serves_command
  · nomatch taken

/-! ## Processes -/

section Processes

variable [DecidableEq Process] {dev sector : Uint} {call : DiskCall} {pc : BufPc} {havedisk1 : Bool}

theorem Inv.goto (inv : Inv address sectors disk s)
    (work : pc.work = (s.pc p).work) (asks : ∀ key, pc.asks = some key → key ∈ sectors) :
    Inv address sectors disk (s.goto p pc) := by
  refine inv.repc (fun q => ?_) fun q key => ?_
  · by_cases mine : q = p
    · subst mine
      simpa using work
    · rw [update_of_ne mine]
  · by_cases mine : q = p
    · subst mine
      simpa using asks key
    · rw [update_of_ne mine]
      exact inv.fresh.asked

theorem Owned.near_goto (owned : s.Owned) {phase : DiskPhase}
    (work : (s.pc p).work = some (b, call, phase))
    (mine : ∀ {b' call phase}, pc.work = some (b', call, phase) → b' = b) :
    Local s (s.goto p pc) p b where
  work q other := by simp [goto, other]
  asks q other := by simp [goto, other]
  held _ _ := rfl
  heldOther _ _ := Iff.rfl
  buf _ _ := rfl
  queue _ _ := Iff.rfl
  unsaved _ _ := Iff.rfl
  mine working := by
    rw [work] at working
    simp_all
  mine' working := mine (by simpa [goto] using working)
  alone := owned.alone (owned.worker work)

section
variable (inv : Inv address sectors disk s)
include inv

theorem Inv.await {asleep : Bool}
    (at_wait : s.pc p = .wait b call asleep) : Inv address sectors disk (s.await p b call) := by
  have work : (s.pc p).work = some (b, call, .waiting) := by rw [at_wait]; rfl
  have held := inv.owned.worker work
  unfold Bcache.await
  split_ifs with synced
  · obtain ⟨⟨order, ordered⟩, owned, fresh⟩ := inv
    have near : Local s (s.goto p (.returning b call)) p b :=
      owned.near_goto work (by simp [BufPc.work])
    have settled : s.Settled b := by
      refine (owned.stage held).resolve_right ?_
      rintro ⟨call, requested, -⟩
      exact requested.not_synced synced
    have owned' := near.owned owned (fun _ => held) (fun unheld => absurd held unheld)
      (fun _ => ⟨owned.busy held, .inl ⟨settled.queue, settled.synced⟩⟩) owned.nodup
    have work' : ((s.goto p (.returning b call)).pc p).work = some (b, call, .after) := by
      simp [Bcache.goto, BufPc.work]
    exact ⟨⟨order, ordered.congr rfl (fun _ => rfl) fun _ => id⟩, owned',
      near.fresh_same owned owned' fresh work work' (by simp [Bcache.goto, BufPc.asks]) rfl rfl rfl
        rfl fresh.serves⟩
  · exact inv.goto work.symm nofun

theorem Inv.iderw
    (at_iderw : s.pc p = .iderw b call) (taken : s.iderw address havedisk1 p b call = some s') :
    Inv address sectors disk s' := by
  obtain ⟨⟨order, ordered⟩, owned, fresh⟩ := inv
  have work : (s.pc p).work = some (b, call, .before) := by rw [at_iderw]; rfl
  have held := owned.worker work
  unfold Bcache.iderw at taken
  split_ifs at taken with panics
  simp only [not_or] at panics
  have pending : call.Requested (s.buf b) ∧ b ∉ s.idequeue := by
    rcases owned.stage held with settled | ⟨call', requested, ⟨working, absent⟩ | ⟨working, -⟩⟩
    · exact absurd settled.synced panics.2.1
    · rw [work] at working
      simp_all
    · rw [work] at working
      simp at working
  obtain ⟨requested, absent⟩ := pending
  -- The disk is started if the queue was empty.
  obtain ⟨drive, rfl, serves⟩ : ∃ drive, s' = { s with idequeue := s.idequeue ++ [b]
                                                       drive := drive }.goto p (.wait b call true) ∧
      s'.Serves address := by
    cases taken
    have serves := fresh.serves
    cases queue : s.idequeue with
    | nil =>
      refine ⟨(s.buf b).command address, ?_, ?_⟩
      · simp [Bcache.await, idestart, panics.2.1]
      · simp only [Serves, List.nil_append, List.head?_cons, if_true]
        exact Buf.serves_command
    | cons first rest =>
      have different : ¬first = b := ne_of_mem_queue absent (queue ▸ List.mem_cons_self)
      refine ⟨s.drive, ?_, ?_⟩
      · simp [Bcache.await, different, panics.2.1]
      · simpa [Bcache.await, different, Serves, queue, Bcache.goto] using serves
  have goes : Local s (s.goto p (.wait b call true)) p b :=
    owned.near_goto work (by simp [BufPc.work])
  have near : Local s ({ s with idequeue := s.idequeue ++ [b]
                                drive := drive }.goto p (.wait b call true)) p b :=
    { goes with queue := fun b' different => by simp [Bcache.goto, different] }
  have work' : (({ s with idequeue := s.idequeue ++ [b]
                          drive := drive }.goto p (.wait b call true)).pc p).work =
      some (b, call, .waiting) := by
    simp [Bcache.goto, BufPc.work]
  have owned' := near.owned owned (fun _ => held) (fun unheld => absurd held unheld)
    (fun _ => ⟨owned.busy held, .inr ⟨call, requested, .inr ⟨work', by simp [Bcache.goto]⟩⟩⟩)
    (owned.nodup.append (List.nodup_singleton b) (by simpa using absent))
  exact ⟨⟨order, ordered.congr rfl (fun _ => rfl) fun _ => id⟩, owned',
    near.fresh_same owned owned' fresh work work' (by simp [Bcache.goto, BufPc.asks]) rfl rfl rfl
      rfl serves⟩

theorem Inv.finish_bread (at_return : s.pc p = .returning b (.bread dev sector)) :
    Inv address sectors disk (s.goto p .idle) := by
  obtain ⟨⟨order, ordered⟩, owned, fresh⟩ := inv
  have work : (s.pc p).work = some (b, .bread dev sector, .after) := by rw [at_return]; rfl
  have held := owned.worker work
  have settled := owned.settled held (by simp [work])
  have near : Local s (s.goto p .idle) p b := owned.near_goto work (by simp [BufPc.work])
  have work' : ((s.goto p .idle).pc p).work = none := by simp [Bcache.goto, BufPc.work]
  have owned' := near.owned owned (fun _ => held) (fun unheld => absurd held unheld)
    (fun _ => ⟨owned.busy held, .inl ⟨settled.queue, settled.synced⟩⟩) owned.nodup
  have still : ¬s.Writing b := by simp [owned.writing_iff work]
  refine ⟨⟨order, ordered.congr rfl (fun _ => rfl) fun _ => id⟩, owned', ?_⟩
  refine near.fresh owned fresh rfl rfl ?_ fresh.known ?_ ?_ (fun _ => still) ?_ fresh.serves
  · simp [Bcache.goto, BufPc.asks]
  · simp [work']
  · exact fun valid _ saved => fresh.current valid still saved
  · exact fun active => absurd active (owned'.not_writing_of_work held (by simp [work']))

theorem Inv.finish_bwrite (at_return : s.pc p = .returning b .bwrite) :
    Inv address sectors disk (s.finish p b .bwrite) := by
  obtain ⟨⟨order, ordered⟩, owned, fresh⟩ := inv
  have work : (s.pc p).work = some (b, .bwrite, .after) := by rw [at_return]; rfl
  have held := owned.worker work
  have settled := owned.settled held (by simp [work])
  have goes : Local s (s.goto p .idle) p b := owned.near_goto work (by simp [BufPc.work])
  have near : Local s (s.finish p b .bwrite) p b :=
    { goes with unsaved := fun b' different => by simp [Bcache.finish, Bcache.goto, different] }
  have work' : ((s.finish p b .bwrite).pc p).work = none := by
    simp [Bcache.finish, Bcache.goto, BufPc.work]
  have owned' := near.owned owned (fun _ => held) (fun unheld => absurd held unheld)
    (fun _ => ⟨owned.busy held, .inl ⟨settled.queue, settled.synced⟩⟩) owned.nodup
  have idle : ¬(s.finish p b .bwrite).Writing b :=
    owned'.not_writing_of_work held (by simp [work'])
  have last : ∀ key, (s.finish p b .bwrite).lastWritten address disk key =
      if key = (s.buf b).key then (s.buf b).data else s.lastWritten address disk key :=
    fun key => lastWritten_cons rfl
  have flushed := fresh.flushed ⟨p, .after, work⟩ settled.synced.2
  -- The buffer is the only one in use for its sector.
  have only : ∀ {b'}, b' ≠ b → ¬(s.buf b').Blank → (s.buf b').key ≠ (s.buf b).key :=
    fun different used same =>
      different (ordered.unique same used (Buf.not_blank_of_busy (owned.busy held)))
  refine ⟨⟨order, ordered.congr rfl (fun _ => rfl) fun _ => id⟩, owned', ?_⟩
  constructor
  case asked =>
    intro q key asks
    by_cases mine : q = p
    · subst mine
      simp [Bcache.finish, Bcache.goto, BufPc.asks] at asks
    · exact fresh.asked (near.asks q mine ▸ asks)
  case known => exact fresh.known
  case wanted =>
    intro q b' dev sector phase working
    by_cases mine : q = p
    · subst mine
      simp [work'] at working
    · rw [near.work q mine] at working
      obtain ⟨key, saved⟩ := fresh.wanted working
      exact ⟨key, mt Finset.mem_of_mem_erase saved⟩
  case current =>
    intro b' valid still saved
    rw [last]
    by_cases same : b' = b
    · rw [same]
      exact (if_pos rfl).symm
    · rw [near.writing_iff same] at still
      rw [near.unsaved b' same] at saved
      exact (fresh.current valid still saved).trans
        (if_neg (only same (Buf.not_blank_of_valid valid))).symm
  case stored =>
    intro key sector still
    rw [last]
    split_ifs with same
    · rw [same]
      exact flushed
    · refine fresh.stored sector fun b' here => ?_
      have different : b' ≠ b := by
        rintro rfl
        exact same here.symm
      rw [← near.writing_iff different]
      exact still b' here
  case flushed =>
    intro b' active
    have different : b' ≠ b := by
      rintro rfl
      exact idle active
    rw [near.writing_iff different] at active
    exact fresh.flushed active
  case serves => exact fresh.serves

end

theorem Owned.near_set (owned : s.Owned) (held : b ∈ s.held p) (at_idle : s.pc p = .idle)
    (mine : ∀ {b' call phase}, pc.work = some (b', call, phase) → b' = b) :
    Local s ((s.setBuf b buf).goto p pc) p b where
  work q other := by simp [Bcache.goto, setBuf, other]
  asks q other := by simp [Bcache.goto, setBuf, other]
  held _ _ := rfl
  heldOther _ _ := Iff.rfl
  buf b' other := by simp [Bcache.goto, setBuf, other]
  queue _ _ := Iff.rfl
  unsaved _ _ := Iff.rfl
  mine := by simp [at_idle, BufPc.work]
  mine' working := mine (by simpa [Bcache.goto] using working)
  alone := owned.alone held

section
variable (inv : Inv address sectors disk s) {chan : Option BufIndex}
include inv

theorem Inv.bwrite (held : b ∈ s.held p) (at_idle : s.pc p = .idle) : Inv address sectors disk
      ((s.setBuf b { s.buf b with dirty := true }).goto p (.iderw b .bwrite)) := by
  obtain ⟨⟨order, ordered⟩, owned, fresh⟩ := inv
  have settled := owned.settled held (by simp [at_idle, BufPc.work])
  have busy := owned.busy held
  have near : Local s ((s.setBuf b { s.buf b with dirty := true }).goto p (.iderw b .bwrite)) p b :=
    owned.near_set held at_idle (by simp [BufPc.work])
  have buf : ((s.setBuf b { s.buf b with dirty := true }).goto p (.iderw b .bwrite)).buf b =
      { s.buf b with dirty := true } := by
    simp [Bcache.goto, Bcache.setBuf]
  have work' : (((s.setBuf b { s.buf b with dirty := true }).goto p (.iderw b .bwrite)).pc p).work =
      some (b, .bwrite, .before) := by
    simp [Bcache.goto, BufPc.work]
  have ordered' : (s.setBuf b { s.buf b with dirty := true }).Ordered order :=
    ordered.setBuf rfl (Buf.not_blank_of_busy busy)
  refine ⟨⟨order, ordered'.congr rfl (fun _ => rfl) fun _ => id⟩, ?_, ?_⟩
  · refine near.owned owned (fun _ => held) (fun unheld => absurd held unheld)
      (fun _ => ⟨?_, .inr ⟨.bwrite, ?_, .inl ⟨work', settled.queue⟩⟩⟩) owned.nodup
    · rw [buf]
      exact busy
    · rw [buf]
      rfl
  · refine near.fresh owned fresh rfl rfl ?_ ?_ ?_ ?_ ?_ ?_ (fresh.serves.setBuf settled.queue)
    · simp [Bcache.goto, BufPc.asks]
    · rw [buf]
      exact fun _ => fresh.known (Buf.not_blank_of_busy busy)
    · simp [work']
    · exact fun _ idle => absurd ⟨p, .before, work'⟩ idle
    · rw [buf]
      exact fun idle => absurd ⟨p, .before, work'⟩ (idle rfl)
    · simp [buf]

theorem Inv.take (at_bget : s.pc p = .bget dev sector chan) (idle : (s.buf b).busy = false)
    (busy : buf.busy = true) (clean : buf.dirty = false) (key : buf.key = (dev, sector))
    (same : buf.valid = true →
      (s.buf b).valid = true ∧ buf.key = (s.buf b).key ∧ buf.data = (s.buf b).data)
    (ordered' : ∀ order, s.Ordered order → (s.setBuf b buf).Ordered order) :
    Inv address sectors disk (s.take p b buf) := by
  obtain ⟨⟨order, ordered⟩, owned, fresh⟩ := inv
  have unheld := owned.not_held idle
  have free := owned.free unheld
  have still := owned.not_writing unheld
  have none : (s.pc p).work = .none := by rw [at_bget]; rfl
  have work' : ((s.take p b buf).pc p).work =
      some (b, .bread buf.dev buf.sector, if buf.valid then .after else .before) := by
    simp only [Bcache.take, Bcache.goto, update_self]
    split_ifs <;> rfl
  have asks' : ((s.take p b buf).pc p).asks = .none := by
    simp only [Bcache.take, Bcache.goto, update_self]
    split_ifs <;> rfl
  have buf' : (s.take p b buf).buf b = buf := by
    simp [Bcache.take, Bcache.goto, Bcache.setBuf]
  have held' : b ∈ (s.take p b buf).held p := by
    simp [Bcache.take, Bcache.goto]
  have near : Local s (s.take p b buf) p b :=
    { work := fun q other => by simp [Bcache.take, Bcache.goto, Bcache.setBuf, other]
      asks := fun q other => by simp [Bcache.take, Bcache.goto, Bcache.setBuf, other]
      held := fun q other => by simp [Bcache.take, Bcache.goto, Bcache.setBuf, other]
      heldOther := fun b' other => by simp [Bcache.take, Bcache.goto, other]
      buf := fun b' other => by simp [Bcache.take, Bcache.goto, Bcache.setBuf, other]
      queue := fun _ _ => Iff.rfl
      unsaved := fun _ _ => Iff.rfl
      mine := by simp [none]
      mine' := by simp +contextual [work']
      alone := fun q held => absurd held (unheld q) }
  have owned' : (s.take p b buf).Owned := by
    refine near.owned owned (fun _ => held') (fun unheld => absurd held' unheld)
      (fun _ => ⟨buf'.symm ▸ busy, ?_⟩) owned.nodup
    cases valid : buf.valid with
    | true => exact .inl ⟨free.queue, buf'.symm ▸ ⟨valid, clean⟩⟩
    | false =>
      refine .inr ⟨.bread buf.dev buf.sector, ?_, .inl ⟨?_, free.queue⟩⟩
      · rw [buf']
        exact ⟨valid, clean⟩
      · rw [work', valid]
        rfl
  refine ⟨⟨order, (ordered' order ordered).congr rfl (fun _ => rfl) fun _ => id⟩, owned', ?_⟩
  refine near.fresh owned fresh rfl rfl ?_ ?_ ?_ ?_ (fun _ => still) ?_
    (fresh.serves.setBuf free.queue)
  · simp [asks']
  · rw [buf', key]
    exact fun _ => fresh.asked (by rw [at_bget]; rfl)
  · intro dev sector phase working
    rw [work'] at working
    simp only [Option.some.injEq, Prod.mk.injEq, DiskCall.bread.injEq, true_and] at working
    rw [buf', ← working.1.1, ← working.1.2]
    exact ⟨rfl, free.saved⟩
  · rw [buf']
    intro valid _ _
    obtain ⟨wasValid, sameKey, sameData⟩ := same valid
    rw [sameKey, sameData]
    exact fresh.current wasValid still free.saved
  · intro active
    rw [owned'.writing_iff work'] at active
    nomatch active

theorem Inv.bget
    (at_bget : s.pc p = .bget dev sector chan) (taken : s.bget p dev sector = some s') :
    Inv address sectors disk s' := by
  obtain ⟨order, ordered⟩ := inv.ordered
  unfold Bcache.bget at taken
  rw [ordered.forward_eq, ordered.backward_eq] at taken
  split at taken
  next b found =>
    have key : (s.buf b).key = (dev, sector) := by simpa using List.find?_some found
    split_ifs at taken with busy
    · cases taken
      refine inv.goto (by rw [at_bget]; rfl) fun key asks => ?_
      exact inv.fresh.asked (p := p) (by rw [at_bget]; exact asks)
    · cases taken
      have idle : (s.buf b).busy = false := by simpa using busy
      have free := inv.owned.free (inv.owned.not_held idle)
      refine inv.take at_bget idle rfl free.dirty key (fun valid => ⟨valid, rfl, rfl⟩)
        fun order' ordered' => ?_
      refine ordered'.hit rfl ?_
      rw [← ordered'.forward_eq, ordered.forward_eq, key]
      exact found
  next missing =>
    split at taken
    next b found =>
      cases taken
      have idle : (s.buf b).busy = false := by simpa using List.find?_some found
      refine inv.take at_bget idle rfl rfl rfl (by simp) fun order' ordered' =>
        ordered'.recycle fun b' same => ?_
      exact List.find?_eq_none.mp missing b' (ordered.mem b') (decide_eq_true same)
    · nomatch taken

theorem Inv.brelse (held : b ∈ s.held p) (saved : b ∉ s.unsaved) (at_idle : s.pc p = .idle) :
    Inv address sectors disk (s.brelse p b) := by
  obtain ⟨⟨order, ordered⟩, owned, fresh⟩ := inv
  have none : (s.pc p).work = .none := by rw [at_idle]; rfl
  have settled := owned.settled held (by simp [none])
  have still : ¬s.Writing b := owned.not_writing_of_work held (by simp [none])
  have used := Buf.not_blank_of_busy (owned.busy held)
  have buf : (s.brelse p b).buf b = { s.buf b with busy := false } := by
    simp [Bcache.brelse, wakeup, setBuf]
  have unheld : b ∉ (s.brelse p b).held p := by
    simp [Bcache.brelse, wakeup]
  have near : Local s (s.brelse p b) p b :=
    { work := fun q other => by simp [Bcache.brelse, wakeup, setBuf]
      asks := fun q other => by simp [Bcache.brelse, wakeup, setBuf]
      held := fun q other => by simp [Bcache.brelse, wakeup, setBuf, other]
      heldOther := fun b' other => by simp [Bcache.brelse, wakeup, other]
      buf := fun b' other => by simp [Bcache.brelse, wakeup, setBuf, other]
      queue := fun _ _ => Iff.rfl
      unsaved := fun _ _ => Iff.rfl
      mine := by simp [none]
      mine' := by simp [Bcache.brelse, wakeup, setBuf, none]
      alone := owned.alone held }
  have owned' : (s.brelse p b).Owned := by
    refine near.owned owned ?_ (fun _ => ?_) (fun held' => absurd held' unheld) owned.nodup
    · simp [Bcache.brelse, wakeup, setBuf, none]
    · refine ⟨?_, ?_, settled.queue, saved, .inl ?_⟩
      all_goals rw [buf]
      · exact settled.synced.2
      · exact settled.synced.1
  refine ⟨⟨b :: order.erase b, ordered.moveFront used rfl (key_setBuf rfl) ?_⟩, owned', ?_⟩
  · intro b' different blank
    rwa [near.buf b' different]
  · refine near.fresh owned fresh rfl rfl ?_ ?_ ?_ ?_ (fun _ => still) ?_ ?_
    · intro key asks
      simp [Bcache.brelse, wakeup, setBuf, at_idle, BufPc.wake, BufPc.asks] at asks
    · rw [buf]
      exact fun _ => fresh.known used
    · simp [Bcache.brelse, wakeup, setBuf, none]
    · rw [buf]
      exact fun valid _ _ => fresh.current valid still saved
    · exact fun active => absurd active
        (owned'.not_writing fun q held' => unheld (near.alone' held' ▸ held'))
    · exact fresh.serves.setBuf settled.queue

theorem Inv.step [DecidableEq Addr]
    (apart : Set.InjOn address sectors) {action : BufAction Process Data}
    (rules : s.Rules sectors action) (taken : s.step address havedisk1 action = some s') :
    Inv address sectors disk s' := by
  cases action with
  | bread p dev sector =>
    simp only [Bcache.step, Option.ite_none_right_eq_some, Option.some.injEq] at taken
    obtain ⟨at_idle, rfl⟩ := taken
    refine inv.goto (by rw [at_idle]; rfl) fun key asks => ?_
    simp only [BufPc.asks, Option.some.injEq] at asks
    exact asks ▸ rules
  | bwrite p b =>
    simp only [Bcache.step, Option.ite_none_right_eq_some, Option.some.injEq] at taken
    obtain ⟨⟨at_idle, -⟩, rfl⟩ := taken
    exact inv.bwrite rules at_idle
  | brelse p b =>
    simp only [Bcache.step, Option.ite_none_right_eq_some, Option.some.injEq] at taken
    obtain ⟨⟨at_idle, -⟩, rfl⟩ := taken
    exact inv.brelse rules.1 rules.2 at_idle
  | store p b data =>
    simp only [Bcache.step, Option.ite_none_right_eq_some, Option.some.injEq] at taken
    obtain ⟨at_idle, rfl⟩ := taken
    exact inv.store rules at_idle data
  | run p =>
    simp only [Bcache.step, Bcache.run] at taken
    split at taken
    next dev sector at_bget => exact inv.bget at_bget taken
    next b call at_iderw => exact inv.iderw at_iderw taken
    next b call at_wait =>
      cases taken
      exact inv.await at_wait
    next b call at_return =>
      cases taken
      cases call with
      | bread => exact inv.finish_bread at_return
      | bwrite => exact inv.finish_bwrite at_return
    · nomatch taken
  | kill p =>
    cases taken
    refine inv.goto (BufPc.work_awake _) fun key asks => ?_
    rw [BufPc.asks_awake] at asks
    exact inv.fresh.asked asks
  | disk => exact inv.perform apart taken
  | ideintr => exact inv.ideintr taken

end

end Processes

end Bcache

end Xv6
