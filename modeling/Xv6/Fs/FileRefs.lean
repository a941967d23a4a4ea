import Xv6.Fs.OpenFiles

/-!
# Reference counts of open files

Between system calls the reference count of an open file is the number of descriptors
that name it.  Inside a call the two differ by what the call has in hand, so the
invariant is stated for any assignment of counts to files, and each function says how
it changes that assignment.
-/

namespace Xv6

open Function

variable {Page : Type}

/-! ## The invariant -/

/-- The file is an end of the pipe in `page`: the one that is written to or the one that
is read from. -/
structure File.IsEnd (file : File Page) (page : Page) (writable : Bool) : Prop where
  type : file.type = .pipe
  page : file.pipe = page
  writable : file.writable = writable

namespace Ftable

open Program

/-- The page of a pipe was taken once more than it was given back as long as one of its
two files is open, and knows which of them are. -/
structure Pipes (s : Ftable Page) : Prop where
  unique : ∀ {page writable f g}, (s.file f).IsEnd page writable →
    (s.file g).IsEnd page writable → f = g
  opened : ∀ {page writable f}, (s.file f).IsEnd page writable →
    ∀ other, (s.pipe page).isOpen other = true ↔ ∃ g, (s.file g).IsEnd page other
  taken : ∀ {page writable f}, (s.file f).IsEnd page writable →
    s.kallocs page = s.kfrees page + 1
  returned : ∀ {page}, (∀ writable f, ¬(s.file f).IsEnd page writable) →
    s.kallocs page = s.kfrees page

/-- The reference counts are `refs`. -/
structure Counted (refs : FileIndex → Nat) (s : Ftable Page) : Prop where
  ref : ∀ f, (s.file f).ref = refs f
  closed : ∀ f, (s.file f).ref = 0 → (s.file f).type = .none
  pipes : s.Pipes

variable {s s' : Ftable Page} {refs : FileIndex → Nat} {f : FileIndex} {writable : Bool}
  {g : FileIndex}

@[simp] theorem withFile_self {change : File Page → File Page} :
    (s.withFile f change).file f = change (s.file f) := by
  simp [withFile]

theorem withFile_of_ne (different : g ≠ f) (change : File Page → File Page) :
    (s.withFile f change).file g = s.file g :=
  Table.set_of_ne different

theorem Pipes.congr (pipes : s.Pipes)
    (ends : ∀ page writable f, (s'.file f).IsEnd page writable ↔ (s.file f).IsEnd page writable)
    (pipe : s'.pipe = s.pipe) (kallocs : s'.kallocs = s.kallocs)
    (kfrees : s'.kfrees = s.kfrees) : s'.Pipes where
  unique := by
    simp only [ends]
    exact pipes.unique
  opened := by
    simp only [ends, pipe]
    exact pipes.opened
  taken := by
    simp only [ends, kallocs, kfrees]
    exact pipes.taken
  returned := by
    simp only [ends, kallocs, kfrees]
    exact pipes.returned

theorem Counted.withFile (counted : Counted refs s) (change : File Page → File Page)
    (same : ∀ page writable,
      (change (s.file f)).IsEnd page writable ↔ (s.file f).IsEnd page writable)
    (closed : (change (s.file f)).ref = 0 → (change (s.file f)).type = .none) :
    Counted (update refs f (change (s.file f)).ref) (s.withFile f change) where
  ref := by
    intro g
    by_cases here : g = f
    · subst here
      simp
    · rw [withFile_of_ne here, update_of_ne here, counted.ref]
  closed := by
    intro g
    by_cases here : g = f
    · subst here
      simpa using closed
    · rw [withFile_of_ne here]
      exact counted.closed g
  pipes := by
    refine counted.pipes.congr (fun page writable g => ?_) rfl rfl rfl
    by_cases here : g = f
    · subst here
      simpa using same page writable
    · rw [withFile_of_ne here]

theorem isEnd_iff {file : File Page} {page : Page} :
    file.IsEnd page writable ↔
      file.type = .pipe ∧ file.pipe = page ∧ file.writable = writable :=
  ⟨fun isEnd => ⟨isEnd.type, isEnd.page, isEnd.writable⟩, fun ⟨a, b, c⟩ => ⟨a, b, c⟩⟩

/-! ## `file.c` and `pipe.c` -/

variable {post : Unit → Ftable Page → Prop} {stops : FilePanic → Prop} {slot : Slot}

theorem Counted.setRef (counted : Counted refs s) {n : Nat} (positive : 0 < n) :
    Counted (update refs f n) (s.withFile f fun file => { file with ref := n }) :=
  counted.withFile (fun file => { file with ref := n })
    (fun _ _ => by simp [isEnd_iff]) (fun zero => absurd zero positive.ne')

theorem wp_filealloc {post : Option FileIndex → Ftable Page → Prop} (counted : Counted refs s)
    (fails : post none s) (succeeds : ∀ f, refs f = 0 → (s.file f).type = .none →
      post (some f) (s.withFile f fun file => { file with ref := 1 })) :
    Wp filealloc post stops s := by
  simp only [filealloc, wp_bind, wp_get]
  cases found : Table.find fun f => (s.file f).ref == 0 with
  | none => exact fails
  | some f =>
    have free : (s.file f).ref = 0 := by simpa using Table.find_some found
    exact succeeds f (counted.ref f ▸ free) (counted.closed f free)

theorem wp_filedup (counted : Counted refs s) (held : 0 < refs f)
    (succeeds : ∀ s', Counted (update refs f (refs f + 1)) s' → s'.ofile = s.ofile →
      s'.state = s.state → post () s') : Wp (filedup f) post stops s := by
  have positive : ¬(s.file f).ref < 1 := by
    rw [counted.ref f]
    exact Nat.not_lt.mpr held
  simp only [filedup, wp_bind, wp_get, if_neg positive]
  refine succeeds _ ?_ rfl rfl
  rw [← counted.ref f]
  exact counted.withFile (fun file => { file with ref := file.ref + 1 })
    (fun _ _ => by simp [isEnd_iff]) (fun zero => absurd zero (Nat.succ_ne_zero _))

/-- The file is closed; its end of a pipe is not yet. -/
def released (s : Ftable Page) (f : FileIndex) : Ftable Page :=
  s.withFile f fun file => { file with ref := 0, type := .none }

theorem isEnd_released {page : Page} :
    ((s.released f).file g).IsEnd page writable ↔ g ≠ f ∧ (s.file g).IsEnd page writable := by
  by_cases here : g = f
  · subst here
    simp [isEnd_iff, released]
  · simp [isEnd_iff, released, withFile_of_ne here, here]

theorem Counted.congr (counted : Counted refs s) (file : s'.file = s.file)
    (pipe : s'.pipe = s.pipe) (kallocs : s'.kallocs = s.kallocs)
    (kfrees : s'.kfrees = s.kfrees) : Counted refs s' := by
  refine ⟨?_, ?_, counted.pipes.congr (fun _ _ _ => by rw [file]) pipe kallocs kfrees⟩
  · rw [file]
    exact counted.ref
  · rw [file]
    exact counted.closed

theorem wp_fdalloc {post : Option (Fin nofile) → Ftable Page → Prop} (fails : post none s)
    (succeeds : ∀ fd, s.ofile (slot, fd) = none →
      post (some fd) { s with ofile := update s.ofile (slot, fd) (some f) }) :
    Wp (fdalloc slot f) post stops s := by
  simp only [fdalloc, wp_bind, wp_get]
  cases found : Table.find fun fd => s.ofile (slot, fd) == none with
  | none => exact fails
  | some fd => exact succeeds fd (by simpa using Table.find_some found)

/-- Between system calls. -/
structure Exact (s : Ftable Page) : Prop where
  counted : Counted (Holders.count s.ofile) s
  /-- A process that is gone has no open files. -/
  gone : ∀ slot, s.state slot = .unused ∨ s.state slot = .zombie →
    ∀ fd, s.ofile (slot, fd) = none

theorem argfd_some {fd : Int} {index : Fin nofile}
    (found : argfd s slot fd = some (index, f)) : s.ofile (slot, index) = some f := by
  unfold argfd at found
  split at found
  · obtain ⟨g, here, same⟩ := Option.map_eq_some_iff.mp found
    obtain ⟨rfl, rfl⟩ := Prod.mk.inj same
    exact here
  · simp at found

theorem Exact.of_counted (exact : s.Exact) (live : (s.state slot).Live)
    (counted : Counted (Holders.count s'.ofile) s') (state : s'.state = s.state)
    (others : ∀ other fd, other ≠ slot → s'.ofile (other, fd) = s.ofile (other, fd)) :
    s'.Exact where
  counted := counted
  gone := by
    intro other gone fd
    rw [state] at gone
    have differs : other ≠ slot := by
      rintro rfl
      rcases gone with unused | zombie
      · simp [unused] at live
      · simp [zombie] at live
    rw [others other fd differs]
    exact exact.gone other gone fd

variable [DecidableEq Page] {page : Page} {f0 f1 : FileIndex}

theorem Pipes.close (pipes : s.Pipes) (isEnd : (s.file f).IsEnd page writable)
    (kfrees : Page → Nat) (others : ∀ other, other ≠ page → kfrees other = s.kfrees other)
    (held : ∀ {other g}, ((s.released f).file g).IsEnd page other →
      kfrees page = s.kfrees page) (free : (∀ other g, ¬((s.released f).file g).IsEnd page other) →
      kfrees page = s.kfrees page + 1)
    (still : ∀ other, ((s.pipe page).close writable).isOpen other = true ↔
      ∃ g, ((s.released f).file g).IsEnd page other) :
    Pipes { s.released f with
      pipe := update s.pipe page ((s.pipe page).close writable)
      kfrees := kfrees } := by
  have elsewhere : ∀ {page' other g}, page' ≠ page →
      (((s.released f).file g).IsEnd page' other ↔ (s.file g).IsEnd page' other) := by
    intro page' other g differs
    rw [isEnd_released]
    refine ⟨And.right, fun found => ⟨?_, found⟩⟩
    rintro rfl
    exact differs (found.page.symm.trans isEnd.page)
  constructor
  · intro page' other g h first second
    exact pipes.unique (isEnd_released.mp first).2 (isEnd_released.mp second).2
  · intro page' other g found side
    by_cases here : page' = page
    · subst here
      simpa using still side
    · simp only [update_of_ne here, elsewhere here] at found ⊢
      exact pipes.opened found side
  · intro page' other g found
    by_cases here : page' = page
    · subst here
      exact (pipes.taken isEnd).trans (congrArg (· + 1) (held found).symm)
    · exact (pipes.taken ((elsewhere here).mp found)).trans
        (congrArg (· + 1) (others page' here).symm)
  · intro page' unheld
    by_cases here : page' = page
    · subst here
      exact (pipes.taken isEnd).trans (free unheld).symm
    · refine (pipes.returned fun other g found => ?_).trans (others page' here).symm
      exact unheld other g ((elsewhere here).mpr found)

theorem wp_pipeclose (pipes : s.Pipes) (isEnd : (s.file f).IsEnd page writable)
    (succeeds : ∀ s', s'.Pipes → s'.file = (s.released f).file → s'.ofile = s.ofile →
      s'.state = s.state → post () s') :
    Wp (pipeclose page writable) post stops (s.released f) := by
  -- an end is open afterwards iff another file than `f` is that end
  have still : ∀ other, ((s.pipe page).close writable).isOpen other = true ↔
      ∃ g, ((s.released f).file g).IsEnd page other := by
    intro other
    rw [PipeEnds.isOpen_close, Bool.and_eq_true, pipes.opened isEnd, bne_iff_ne]
    constructor
    · rintro ⟨⟨g, found⟩, differs⟩
      refine ⟨g, isEnd_released.mpr ⟨?_, found⟩⟩
      rintro rfl
      exact differs (found.writable.symm.trans isEnd.writable)
    · rintro ⟨g, found⟩
      obtain ⟨differs, found⟩ := isEnd_released.mp found
      refine ⟨⟨g, found⟩, ?_⟩
      rintro rfl
      exact differs (pipes.unique found isEnd)
  simp only [pipeclose, wp_bind, wp_get, wp_ite, setPipe, wp_modify, kfree, wp_pure]
  constructor
  · rintro ⟨reader, writer⟩
    refine succeeds _ (pipes.close isEnd _ (fun other differs => ?_) (fun {other g} found => ?_)
      (fun _ => ?_) still) rfl rfl rfl
    · exact update_of_ne differs _ _
    · have isOpen := (still other).mpr ⟨g, found⟩
      cases other with
      | true => exact absurd (writer.symm.trans isOpen) (by simp)
      | false => exact absurd (reader.symm.trans isOpen) (by simp)
    · exact update_self _ _ _
  · intro either
    refine succeeds _ (pipes.close isEnd s.kfrees (fun _ _ => rfl) (fun _ => rfl)
      (fun unheld => ?_) still) rfl rfl rfl
    refine absurd ⟨?_, ?_⟩ either
    · refine Bool.eq_false_iff.mpr fun isOpen => ?_
      obtain ⟨g, found⟩ := (still false).mp isOpen
      exact unheld _ g found
    · refine Bool.eq_false_iff.mpr fun isOpen => ?_
      obtain ⟨g, found⟩ := (still true).mp isOpen
      exact unheld _ g found

theorem wp_fileclose (counted : Counted refs s) (held : 0 < refs f)
    (succeeds : ∀ s', Counted (update refs f (refs f - 1)) s' → s'.ofile = s.ofile →
      s'.state = s.state → post () s') : Wp (fileclose f) post stops s := by
  have positive : ¬(s.file f).ref < 1 := by
    rw [counted.ref f]
    exact Nat.not_lt.mpr held
  simp only [fileclose, wp_bind, wp_get, if_neg positive]
  rw [wp_ite]
  constructor
  · intro more
    refine succeeds _ ?_ rfl rfl
    rw [← counted.ref f]
    exact counted.withFile (fun file => { file with ref := file.ref - 1 })
      (fun _ _ => by simp [isEnd_iff]) (fun zero => by simp at zero; omega)
  · intro last
    have one : refs f - 1 = 0 := by
      rw [← counted.ref f]
      omega
    rw [one] at succeeds
    simp only [wp_bind, setFile, wp_modify]
    rw [wp_ite]
    constructor
    · intro type
      refine wp_pipeclose counted.pipes ⟨type, rfl, rfl⟩ fun s' pipes file => succeeds s' ?_
      constructor
      · intro g
        rw [file]
        by_cases here : g = f
        · subst here
          simp [released]
        · rw [released, withFile_of_ne here, update_of_ne here, counted.ref]
      · intro g
        rw [file]
        by_cases here : g = f
        · subst here
          simp [released]
        · rw [released, withFile_of_ne here]
          exact counted.closed g
      · exact pipes
    · intro type
      refine succeeds _ ?_ rfl rfl
      exact counted.withFile (fun file => { file with ref := 0, type := .none })
        (fun _ _ => by simp [isEnd_iff, type]) (fun _ => rfl)

theorem Pipes.create (pipes : s.Pipes) (differ : f0 ≠ f1) (unused : s.kallocs page = s.kfrees page)
    (file : ∀ g, g ≠ f0 → g ≠ f1 → s'.file g = s.file g)
    (reader : (s'.file f0).IsEnd page false) (writer : (s'.file f1).IsEnd page true)
    (none0 : (s.file f0).type = .none) (none1 : (s.file f1).type = .none)
    (pipe : s'.pipe = update s.pipe page ⟨true, true⟩)
    (kallocs : s'.kallocs = update s.kallocs page (s.kallocs page + 1))
    (kfrees : s'.kfrees = s.kfrees) : s'.Pipes := by
  have fresh : ∀ {other g}, ¬(s.file g).IsEnd page other := by
    intro other g found
    have := pipes.taken found
    omega
  have ends : ∀ {page' other g}, (s'.file g).IsEnd page' other ↔
      (g = f0 ∧ page' = page ∧ other = false) ∨ (g = f1 ∧ page' = page ∧ other = true) ∨
        (s.file g).IsEnd page' other := by
    intro page' other g
    by_cases first : g = f0
    · subst first
      simp [isEnd_iff, reader.type, reader.page, reader.writable, differ, none0, eq_comm]
    · by_cases second : g = f1
      · subst second
        simp [isEnd_iff, writer.type, writer.page, writer.writable, first, none1, eq_comm]
      · simp [file g first second, first, second]
  constructor
  · intro page' other g h found found'
    rcases ends.mp found with ⟨rfl, rfl, rfl⟩ | ⟨rfl, rfl, rfl⟩ | old
    · rcases ends.mp found' with ⟨rfl, _⟩ | ⟨_, _, wrong⟩ | old'
      · rfl
      · simp at wrong
      · exact absurd old' fresh
    · rcases ends.mp found' with ⟨_, _, wrong⟩ | ⟨rfl, _⟩ | old'
      · simp at wrong
      · rfl
      · exact absurd old' fresh
    · rcases ends.mp found' with ⟨rfl, rfl, rfl⟩ | ⟨rfl, rfl, rfl⟩ | old'
      · exact absurd old fresh
      · exact absurd old fresh
      · exact pipes.unique old old'
  · intro page' other g found side
    by_cases here : page' = page
    · subst here
      have both : ∃ h, (s'.file h).IsEnd page' side := by
        cases side with
        | false => exact ⟨f0, reader⟩
        | true => exact ⟨f1, writer⟩
      cases side <;> simp [pipe, PipeEnds.isOpen, both]
    · simp only [ends, here, false_and, and_false, false_or] at found ⊢
      rw [pipe, update_of_ne here]
      exact pipes.opened found side
  · intro page' other g found
    rw [kallocs, kfrees]
    by_cases here : page' = page
    · subst here
      simp [unused]
    · simp only [ends, here, false_and, and_false, false_or] at found
      rw [update_of_ne here]
      exact pipes.taken found
  · intro page' unheld
    have here : page' ≠ page := by
      rintro rfl
      exact unheld _ _ reader
    rw [kallocs, kfrees, update_of_ne here]
    exact pipes.returned fun other g old => unheld other g (ends.mpr (.inr (.inr old)))

theorem wp_fileclose_both (counted : Counted (update (update refs f0 1) f1 1) s)
    (differ : f0 ≠ f1) (free0 : refs f0 = 0) (free1 : refs f1 = 0)
    (succeeds : ∀ s', Counted refs s' → s'.ofile = s.ofile → s'.state = s.state → post () s') :
    Wp (fileclose f0) (fun _ s' => Wp (fileclose f1) post stops s') stops s := by
  refine wp_fileclose counted (by simp [differ]) fun s' counted' ofile state => ?_
  refine wp_fileclose counted' (by simp [differ.symm]) fun s'' counted'' ofile' state' => ?_
  refine succeeds s'' ?_ (ofile'.trans ofile) (state'.trans state)
  have back : update (update (update
      (update refs f0 1) f1 1) f0 0) f1 0 = refs := by
    funext g
    by_cases second : g = f1
    · simp [second, free1]
    · by_cases first : g = f0
      · simp [first, differ, free0]
      · simp [first, second]
  simpa [differ, differ.symm, back] using counted''

theorem wp_pipealloc {post : Option (FileIndex × FileIndex) → Ftable Page → Prop}
    {page : Option Page} (counted : Counted refs s)
    (unused : ∀ found, page = some found → s.kallocs found = s.kfrees found)
    (fails : ∀ s', Counted refs s' → s'.ofile = s.ofile → s'.state = s.state → post none s')
    (succeeds : ∀ f0 f1 s', f0 ≠ f1 → refs f0 = 0 → refs f1 = 0 →
      Counted (update (update refs f0 1) f1 1) s' → s'.ofile = s.ofile →
      s'.state = s.state → post (some (f0, f1)) s') : Wp (pipealloc page) post stops s := by
  simp only [pipealloc, wp_bind]
  refine wp_filealloc counted (fails s counted rfl rfl) fun f0 free0 none0 => ?_
  have counted0 : Counted (update refs f0 1) _ :=
    counted.setRef (f := f0) Nat.one_pos
  have back0 : update (update refs f0 1) f0 (1 - 1) = refs := by
    rw [update_idem, Nat.sub_self, ← free0, update_eq_self]
  simp only [wp_bind]
  refine wp_filealloc counted0 ?_ fun f1 free1 none1 => ?_
  · simp only [wp_bind]
    refine wp_fileclose counted0 (by simp) fun s' counted' ofile state => ?_
    rw [update_self, back0] at counted'
    exact fails s' counted' ofile state
  · have differ : f0 ≠ f1 := by
      rintro rfl
      simp at free1
    have counted1 : Counted (update (update refs f0 1) f1 1) _ :=
      counted0.setRef (f := f1) Nat.one_pos
    rw [update_of_ne differ.symm] at free1
    rw [withFile_of_ne differ.symm] at none1
    cases page with
    | none =>
      simp only [wp_bind]
      exact wp_fileclose_both counted1 differ free0 free1 fails
    | some page =>
      simp only [wp_bind, wp_modify, setPipe, setFile, wp_pure]
      refine succeeds f0 f1 _ differ free0 free1 ⟨fun g => ?_, fun g => ?_, ?_⟩ rfl rfl
      · have := counted1.ref g
        by_cases second : g = f1
        · simp [second, Ftable.withFile, Table.set, differ.symm]
        · by_cases first : g = f0
          · subst first
            simpa [withFile_of_ne second] using this
          · simpa [withFile_of_ne, first, second] using this
      · have := counted1.closed g
        by_cases second : g = f1
        · simp [second, Ftable.withFile, Table.set, differ.symm]
        · by_cases first : g = f0
          · subst first
            simp [withFile_of_ne second]
          · simpa [withFile_of_ne, first, second] using this
      · refine counted.pipes.create differ (unused page rfl) (fun g first second => ?_)
          ?_ ?_ none0 none1 rfl rfl rfl
        · simp [withFile_of_ne, first, second]
        · simp [isEnd_iff, withFile_of_ne differ]
        · simp [isEnd_iff]

/-! ## System calls -/

section
variable (exact : s.Exact)
include exact

section
variable (live : (s.state slot).Live)
include live

theorem wp_sysOpen (found readable writable : Bool) :
    Wp (sysOpen slot found readable writable) (fun _ s' => s'.Exact) stops s := by
  cases found with
  | false => exact exact
  | true =>
    simp only [sysOpen, if_true, wp_bind]
    refine wp_filealloc exact.counted exact fun f free untyped => ?_
    have counted : Counted (update (Holders.count s.ofile) f 1) _ :=
      exact.counted.setRef (f := f) Nat.one_pos
    simp only [wp_bind]
    refine wp_fdalloc ?_ fun fd empty => ?_
    · refine wp_fileclose counted (by simp) fun s' counted' ofile state => ?_
      rw [update_self, update_idem, Nat.sub_self, ← free,
        update_eq_self] at counted'
      exact exact.of_counted live (ofile ▸ counted') state fun _ _ _ => by rw [ofile]; rfl
    · have opened := counted.withFile (f := f)
        (fun file => { file with type := .inode, readable := readable, writable := writable })
        (fun _ _ => by simp [isEnd_iff, untyped]) (by simp)
      refine exact.of_counted live ?_ rfl fun other fd' differs => ?_
      · simp only [withFile_self, update_idem] at opened
        have empty : s.ofile (slot, fd) = none := empty
        change Counted (Holders.count (update s.ofile (slot, fd) (some f))) _
        rw [Holders.count_take empty, free]
        exact opened.congr rfl rfl rfl rfl
      · exact update_of_ne (fun same => differs (congrArg Prod.fst same)) _ _

omit [DecidableEq Page] in
theorem wp_sysDup (fd : Int) : Wp (sysDup slot fd) (fun _ s' => s'.Exact) stops s := by
  simp only [sysDup, wp_bind, wp_get]
  cases found : argfd s slot fd with
  | none => exact exact
  | some entry =>
    obtain ⟨index, f⟩ := entry
    simp only [wp_bind]
    refine wp_fdalloc exact fun fd' empty => ?_
    refine wp_filedup (exact.counted.congr rfl rfl rfl rfl)
      (Holders.count_pos (argfd_some found)) fun s' counted ofile state => ?_
    refine exact.of_counted live ?_ state fun other fd'' differs => ?_
    · rw [ofile, Holders.count_take empty]
      exact counted
    · rw [ofile]
      exact update_of_ne (fun same => differs (congrArg Prod.fst same)) _ _

theorem wp_sysClose (fd : Int) : Wp (sysClose slot fd) (fun _ s' => s'.Exact) stops s := by
  simp only [sysClose, wp_bind, wp_get]
  cases found : argfd s slot fd with
  | none => exact exact
  | some entry =>
    obtain ⟨index, f⟩ := entry
    have held := argfd_some found
    simp only [wp_bind, setOfile, wp_modify]
    refine wp_fileclose (exact.counted.congr rfl rfl rfl rfl) (Holders.count_pos held)
      fun s' counted ofile state => ?_
    refine exact.of_counted live ?_ state fun other fd'' differs => ?_
    · rw [ofile, Holders.count_drop held]
      exact counted
    · rw [ofile]
      exact update_of_ne (fun same => differs (congrArg Prod.fst same)) _ _

theorem wp_sysPipe (argument : Bool) {page : Option Page}
    (unused : ∀ found, page = some found → s.kallocs found = s.kfrees found) :
    Wp (sysPipe slot argument page) (fun _ s' => s'.Exact) stops s := by
  cases argument with
  | false => exact exact
  | true =>
    simp only [sysPipe, if_true, wp_bind]
    refine wp_pipealloc exact.counted unused (fun s' counted ofile state => ?_)
      fun f0 f1 s' differ free0 free1 counted ofile state => ?_
    · exact exact.of_counted live (ofile ▸ counted) state fun _ _ _ => by rw [ofile]
    · simp only [wp_bind]
      refine wp_fdalloc ?_ fun fd0 empty0 => ?_
      · simp only [wp_bind]
        refine wp_fileclose_both counted differ free0 free1 fun s'' counted' ofile' state' => ?_
        exact exact.of_counted live (ofile'.trans ofile ▸ counted') (state'.trans state)
          fun _ _ _ => by rw [ofile', ofile]
      · simp only [wp_bind]
        refine wp_fdalloc ?_ fun fd1 empty1 => ?_
        · simp only [wp_bind, setOfile, wp_modify]
          refine wp_fileclose_both (counted.congr rfl rfl rfl rfl) differ free0 free1
            fun s'' counted' ofile' state' => ?_
          have back : s''.ofile = s.ofile := by
            rw [ofile', ← ofile, update_idem, ← empty0, update_eq_self]
          exact exact.of_counted live (back ▸ counted') (state'.trans state)
            fun _ _ _ => by rw [back]
        · refine exact.of_counted live ?_ state fun other fd' differs => ?_
          · have none1 : Holders.count s.ofile f1 = 0 := free1
            rw [show Holders.count _ = _ from Holders.count_take empty1,
              show Holders.count _ = _ from Holders.count_take empty0, ofile, free0,
              update_of_ne differ.symm, none1]
            exact counted.congr rfl rfl rfl rfl
          · have apart : ∀ fd'', (other, fd') ≠ (slot, fd'') := fun fd'' same =>
              differs (congrArg Prod.fst same)
            simp [update_of_ne, apart, ofile]

end

omit [DecidableEq Page] in
theorem wp_spawn : Wp (spawn slot) (fun _ s' => s'.Exact) stops s := by
  simp only [spawn, wp_bind, wp_get]
  cases found : Table.find fun child => s.state child == .unused with
  | none => exact exact
  | some child =>
    have unused : s.state child = .unused := by simpa using Table.find_some found
    simp only [wp_bind, setState, wp_modify]
    -- the descriptors that are still to be copied are closed in the child
    refine wp_forM (fun rest s' => rest.Nodup ∧ Counted (Holders.count s'.ofile) s' ∧
      s'.state = update s.state child .embryo ∧
      (∀ fd ∈ rest, s'.ofile (child, fd) = none) ∧
      ∀ other fd, other ≠ child → s'.ofile (other, fd) = s.ofile (other, fd))
      ?_ ⟨List.nodup_finRange _, exact.counted.congr rfl rfl rfl rfl, rfl,
        fun fd _ => exact.gone child (.inl unused) fd, fun _ _ _ => rfl⟩ ?_
    · rintro fd rest s' ⟨nodup, counted, state, closed, others⟩
      obtain ⟨fresh, nodup'⟩ := List.nodup_cons.mp nodup
      simp only [copyFile, wp_bind, wp_get]
      cases held : s'.ofile (slot, fd) with
      | none => exact ⟨nodup', counted, state, fun fd' more => closed fd' (.tail _ more), others⟩
      | some f =>
        simp only [wp_bind]
        refine wp_filedup counted (Holders.count_pos held) fun s'' counted' ofile state' => ?_
        have empty : s''.ofile (child, fd) = none := by
          rw [ofile]
          exact closed fd (.head _)
        refine ⟨nodup', ?_, state'.trans state, fun fd' more => ?_,
          fun other fd' differs => ?_⟩
        · change Counted (Holders.count (update s''.ofile (child, fd) (some f))) _
          rw [Holders.count_take empty, ofile]
          exact counted'.congr rfl rfl rfl rfl
        · have apart : (child, fd') ≠ (child, fd) := by
            rintro ⟨⟩
            exact fresh more
          exact (update_of_ne apart _ _).trans (ofile ▸ closed fd' (.tail _ more))
        · have apart : (other, fd') ≠ (child, fd) := fun same =>
            differs (congrArg Prod.fst same)
          exact (update_of_ne apart _ _).trans (ofile ▸ others other fd' differs)
    · rintro s' ⟨_, counted, state, _, others⟩
      refine ⟨counted.congr rfl rfl rfl rfl, fun other gone fd => ?_⟩
      by_cases here : other = child
      · simp [here] at gone
      · simp only [state, update_of_ne here] at gone
        exact (others other fd here).trans (exact.gone other gone fd)

theorem wp_exit : Wp (exit slot) (fun _ s' => s'.Exact) stops s := by
  simp only [exit, wp_bind, setState, wp_modify]
  refine wp_forM (fun rest s' => Counted (Holders.count s'.ofile) s' ∧
    s'.state = s.state ∧ (∀ fd, fd ∉ rest → s'.ofile (slot, fd) = none) ∧
    ∀ other fd, other ≠ slot → s'.ofile (other, fd) = s.ofile (other, fd))
    ?_ ⟨exact.counted, rfl, fun fd absent => absurd (List.mem_finRange fd) absent,
      fun _ _ _ => rfl⟩ ?_
  · rintro fd rest s' ⟨counted, state, closed, others⟩
    simp only [closeFile, wp_bind, wp_get]
    cases held : s'.ofile (slot, fd) with
    | none =>
      refine ⟨counted, state, fun fd' absent => ?_, others⟩
      by_cases same : fd' = fd
      · exact same ▸ held
      · exact closed fd' (by simp [same, absent])
    | some f =>
      simp only [wp_bind]
      refine wp_fileclose counted (Holders.count_pos held) fun s'' counted' ofile state' => ?_
      refine ⟨?_, state'.trans state, fun fd' absent => ?_, fun other fd' differs => ?_⟩
      · have held' : s''.ofile (slot, fd) = some f := ofile ▸ held
        change Counted (Holders.count (update s''.ofile (slot, fd) none)) _
        rw [Holders.count_drop held', ofile]
        exact counted'.congr rfl rfl rfl rfl
      · by_cases same : fd' = fd
        · exact same ▸ update_self _ _ _
        · have apart : (slot, fd') ≠ (slot, fd) := fun equal => same (congrArg Prod.snd equal)
          exact (update_of_ne apart _ _).trans
            (ofile ▸ closed fd' (by simp [same, absent]))
      · have apart : (other, fd') ≠ (slot, fd) := fun same =>
          differs (congrArg Prod.fst same)
        exact (update_of_ne apart _ _).trans (ofile ▸ others other fd' differs)
  · rintro s' ⟨counted, state, closed, others⟩
    refine ⟨counted.congr rfl rfl rfl rfl, fun other gone fd => ?_⟩
    by_cases here : other = slot
    · exact here ▸ closed fd (by simp)
    · simp only [state, update_of_ne here] at gone
      exact (others other fd here).trans (exact.gone other gone fd)

theorem wp_call (call : FileCall Page) (enabled : s.Enabled slot call) :
    Wp (Ftable.call slot call) (fun _ s' => s'.Exact) stops s := by
  cases call with
  | «open» found readable writable => exact wp_sysOpen exact enabled found readable writable
  | dup fd => exact wp_sysDup exact enabled fd
  | close fd => exact wp_sysClose exact enabled fd
  | pipe argument page =>
    cases page with
    | none => exact wp_sysPipe exact enabled argument (by simp)
    | some page =>
      refine wp_sysPipe exact enabled.1 argument fun found same => ?_
      cases same
      exact enabled.2
  | fork memory =>
    cases memory with
    | false => exact exact
    | true => exact wp_spawn exact
  | clone => exact wp_spawn exact
  | exit => exact wp_exit exact
  | reap child =>
    refine ⟨exact.counted.congr rfl rfl rfl rfl, fun other gone fd => ?_⟩
    by_cases here : other = child
    · exact here ▸ exact.gone child (.inr enabled.2) fd
    · simp only [update_of_ne here] at gone
      exact exact.gone other gone fd

end

/-! ## Runs -/

omit [DecidableEq Page] in
theorem exact_start (page : Page) (pipe : Page → PipeEnds) : (start page pipe).Exact where
  counted := by
    have none : Holders.count (start page pipe).ofile = fun _ => 0 := by
      funext f
      exact Holders.count_eq_zero.mpr fun _ => by simp [start]
    rw [none]
    refine ⟨fun _ => rfl, fun _ _ => rfl, ?_, ?_, ?_, fun _ => rfl⟩
    · intro page writable f g isEnd
      exact absurd isEnd.type (by simp [start])
    · intro page writable f isEnd
      exact absurd isEnd.type (by simp [start])
    · intro page writable f isEnd
      exact absurd isEnd.type (by simp [start])
  gone _ _ _ := rfl

theorem Exact.step {action : Slot × FileCall Page} (exact : s.Exact)
    (taken : Ftable.step s action = some s') : s'.Exact := by
  simp only [Ftable.step] at taken
  split at taken
  next enabled =>
    split at taken
    next ran =>
      cases taken
      have wp : Wp _ (fun _ s' => s'.Exact) (fun _ => True) s := wp_call exact action.2 enabled
      exact wp.ok ran
    · simp at taken
  · simp at taken

variable {trace : List (Ftable Page × (Slot × FileCall Page))} {pipe : Page → PipeEnds}

/-- Between system calls every reference count is exact and a file without references is
closed; a page is passed to `kfree` once for every time it was taken for a pipe, in the
call that drops the last reference to its files; and no call panics. -/
theorem file_refs_exact
    (run : Transition.Run step (fun _ _ => True) (start page pipe) trace s) :
    (∀ f, (s.file f).ref = Holders.count s.ofile f) ∧
    (∀ f, (s.file f).ref = 0 → (s.file f).type = .none) ∧
    (∀ page, s.kallocs page = s.kfrees page +
      if ∃ f, (s.file f).ref ≠ 0 ∧ (s.file f).type = .pipe ∧ (s.file f).pipe = page
      then 1 else 0) ∧
    ∀ slot call panic, s.Enabled slot call → (Ftable.call slot call).run s ≠ .error panic := by
  have exact : s.Exact := run.stateInvariant (exact_start page pipe)
    fun exact _ taken => exact.step taken
  refine ⟨exact.counted.ref, exact.counted.closed, fun page => ?_, fun slot call panic enabled
    failed => ?_⟩
  · split_ifs with referenced
    · obtain ⟨f, _, type, here⟩ := referenced
      exact exact.counted.pipes.taken ⟨type, here, rfl⟩
    · refine exact.counted.pipes.returned fun writable f isEnd => referenced ⟨f, ?_, isEnd.type,
        isEnd.page⟩
      intro closed
      exact absurd isEnd.type (by simp [exact.counted.closed f closed])
  · have wp : Wp _ (fun _ s' => s'.Exact) (fun _ => False) s := wp_call exact call enabled
    exact wp.error failed

/-- A parent and its child share a pipe, and both ends are closed on both sides. -/
def sharedPipe : List (Slot × FileCall Nat) :=
  [(0, .pipe true (some 7)), (0, .fork true), (0, .close 0), (1, .close 1), (0, .dup 1),
    (0, .exit), (1, .exit)]

theorem file_refs_exact_shared :
    ∃ s, Transition.Run step (fun _ _ => True) (start 0 fun _ => ⟨false, false⟩)
      (Transition.traceOf step (start 0 fun _ => ⟨false, false⟩) sharedPipe) s ∧
      s.kallocs 7 = 1 ∧ s.kfrees 7 = 1 ∧ ∀ f, (s.file f).ref = Holders.count s.ofile f := by
  have ran : ∃ s, Transition.Run step (fun _ _ => True) (start 0 fun _ => ⟨false, false⟩)
      (Transition.traceOf step (start 0 fun _ => ⟨false, false⟩) sharedPipe) s ∧
      s.kallocs 7 = 1 ∧ s.kfrees 7 = 1 :=
    Transition.Run.of_exec_met _ (fun _ _ => trivial) (by decide +kernel)
  obtain ⟨s, run, taken, returned⟩ := ran
  exact ⟨s, run, taken, returned, (file_refs_exact run).1⟩

end Ftable

end Xv6
