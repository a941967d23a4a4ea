import Xv6.Vm.Exec
import Xv6.Vm.Isolation

/-!
# Loading a segment

`exec` takes the addresses and sizes of the segments from the file.  It checks that the
file part of a segment is not larger than its memory part, but not that the address is on
a page boundary, nor that the end of the segment does not wrap around.  A segment can be
loaded if its pages are in the memory allocated by then; else `loaduvm` panics, or writes
to a frame that was not allocated for it.
-/

namespace Xv6

open Program

variable {layout : Layout} {live : Nat → Prop} {d : Nat} {vm vm' vm'' : Vm}
  {stops : Stop → Prop} {file : Executable} {post : Int × Pieces → Vm → Prop} {off : Uint}
  {sz i : Nat}

/-! ## Segments -/

/-- A segment that is loaded: its header and the end of the memory allocated by then. -/
structure Segment where
  header : Proghdr
  top : Nat

namespace Segment

/-- The memory allocated from the start of the segment on. -/
def room (seg : Segment) : Nat := seg.top - seg.header.va.val

/-- A segment of a file that can be loaded: it starts on a page boundary, and its file
part is within the memory allocated, or else the file ends before it gets beyond that
memory, at an address that has a page table. -/
def Loadable (size : Nat) (seg : Segment) : Prop :=
  seg.header.va.val % pgsize = 0 ∧
    (seg.header.filesz.val ≤ seg.room ∨
      ((PDX seg.header.va).val < 4 ∨ 1016 ≤ (PDX seg.header.va).val) ∧
        size ≤ seg.header.offset.val + seg.room)

instance (size : Nat) (seg : Segment) : Decidable (seg.Loadable size) :=
  inferInstanceAs (Decidable (_ ∧ _))

/-- The frame for the page where the memory of the segment ends: what is not mapped has
the address 0, and the kernel is mapped to itself. -/
def strayFrame (seg : Segment) : Nat :=
  if seg.header.va.val + seg.room < usertop then 0 else (seg.header.va.val + seg.room) / pgsize

/-- The file has all of the segment. -/
def Complete (size : Nat) (seg : Segment) : Prop :=
  seg.header.filesz.val = 0 ∨ seg.header.offset.val + seg.header.filesz.val ≤ size

instance (size : Nat) (seg : Segment) : Decidable (seg.Complete size) :=
  inferInstanceAs (Decidable (_ ∨ _))

end Segment

/-- The segments that `exec` comes to if there is enough memory, with `n` headers to go,
the next at `off`, and `sz` the size reached. -/
def Executable.plan (file : Executable) : Nat → Uint → Nat → List Segment
  | 0, _, _ => []
  | n + 1, off, sz =>
    let ph := file.proghdr off
    let newsz := (ph.va.plus ph.memsz).val
    let seg : Segment := ⟨ph, pgroundup (max sz newsz)⟩
    if file.size.val < off.val + proghdrSize then []
    else if ph.type ≠ elfProgLoad then file.plan n (off.plus proghdrSize) sz
    else if ph.memsz < ph.filesz ∨ newsz > usertop ∨ max sz newsz = 0 then []
    else
      seg :: if seg.Complete file.size then file.plan n (off.plus proghdrSize) (max sz newsz)
        else []

/-- The segments that `exec` comes to. -/
def Executable.segments (file : Executable) : List Segment :=
  if elfhdrSize ≤ file.size.val ∧ file.magic = elfMagic then
    file.plan file.phnum file.phoff 0
  else []

/-! ## Reading -/

theorem Executable.size_le : file.size.val ≤ 71680 := file.small

@[simp] theorem Executable.size_inode : file.inode.size = file.size := rfl

theorem Executable.refuses_iff {n : Nat} (few : n ≤ pgsize) :
    file.inode.Refuses off n ↔ file.size.val < off.val := by
  have bound := file.size_le
  have offset := off.isLt
  simp only [Inode.Refuses, Executable.inode, toUint, gt_iff_lt, Fin.lt_def, pgsize] at *
  omega

theorem wp_read {dst n : Nat} (few : n ≤ pgsize) (reads : ∀ pieces,
      (∀ x, Touched pieces x ↔ dst ≤ x ∧ x < dst + min n (file.size.val - off.val)) →
      post (if off.val ≤ file.size.val then (min n (file.size.val - off.val) : Nat) else -1,
        pieces) vm) : Wp (file.read dst off n) post stops vm := by
  have bound := file.size_le
  have offset := off.isLt
  have disk : ¬file.inode.type = tDev := show ¬(2 : Int) = 3 by decide
  by_cases refused : file.size.val < off.val
  · have result := reads [] (by simp [Nat.sub_eq_zero_of_le refused.le])
    rw [if_neg (by omega)] at result
    rw [Executable.read, Inode.readi, if_neg disk,
      if_pos ((Executable.refuses_iff few).mpr refused)]
    exact result
  · have word : toUint n = n ∧ toUint (off.val + n) = off.val + n := by
      simp only [toUint, pgsize] at few ⊢
      omega
    have count : (if toUint (off + toUint n) > file.inode.size.val
        then file.inode.size.val - off.val else toUint n) = min n (file.size.val - off.val) := by
      simp only [word, Executable.size_inode]
      split <;> omega
    have fits : off.val + min n (file.size.val - off.val) ≤ maxfile * bsize := by
      have : off.val + min n (file.size.val - off.val) ≤ file.size.val := by omega
      exact this.trans file.small
    have value : toInt (min n (file.size.val - off.val)) =
        (min n (file.size.val - off.val) : Nat) := by
      simp only [toInt]
      omega
    have result := reads (copyLoop (toInt (min n (file.size.val - off.val))) dst off
      (min n (file.size.val - off.val))).pieces fun x => by
        rw [touched_copyLoop, copied, min_eq_left (by omega)]
    rw [if_pos (by omega)] at result
    rw [Executable.read, Inode.readi, if_neg disk,
      if_neg (mt (Executable.refuses_iff few).mp refused)]
    simp only [count, result_copyLoop fits, value] at result ⊢
    exact result

/-! ## The new address space -/

/-- The address space that `exec` builds: the kernel's mappings, and user memory up to
`top` in pages that were allocated for it. -/
structure Space (layout : Layout) (live : Nat → Prop) (d top : Nat) (vm : Vm) : Prop where
  sound : Sound layout live vm.toMemory
  isLive : live d
  tables : ∀ i, (vm.page d i).present = true ↔ i.val < 4 ∨ 1016 ≤ i.val
  present : ∀ va < 2 ^ 32, (vm.entry d va).present = true ↔
    va < top ∨ usertop ≤ va ∧ va < phystop ∨ 0xFE000000 ≤ va
  backed : ∀ va < top, (.user d (va / pgsize), (vm.entry d va).frame) ∈ vm.granted
  aligned : top % pgsize = 0
  bound : top ≤ usertop

namespace Space

variable {top va : Nat}

section
variable (space : Space layout live d top vm)
include space

theorem table_iff : (vm.page d (PDX va)).present = true ↔ (PDX va).val < 4 ∨ 1016 ≤ (PDX va).val :=
  space.tables _

theorem table_user (below : va ≤ usertop) : (vm.page d (PDX va)).present = true := by
  rw [space.table_iff]
  left
  simp only [PDX, nptentries, usertop] at *
  omega

theorem frame_outside (small : va < 2 ^ 32)
    (outside : top ≤ va) (table : (vm.page d (PDX va)).present = true) :
    (vm.entry d va).frame = if va < usertop then 0 else va / pgsize := by
  split_ifs with below
  · have absent : ¬(vm.entry d va).present = true := by
      rw [space.present va small]
      simp only [usertop] at below ⊢
      omega
    rw [space.sound.zero_of_absent space.isLive small (by simpa using absent)]
    rfl
  · have present : (vm.entry d va).present = true := by
      rw [space.table_iff] at table
      rw [space.present va small]
      simp only [PDX, nptentries, phystop] at table ⊢
      omega
    rcases space.sound.entry space.isLive small with zero | ⟨-, allowed⟩
    · simp [zero] at present
    · simp only [Pte.Allowed, below, if_false] at allowed
      exact allowed.2

end

end Space

theorem Memory.page_of_table {memory : Memory} {va : Nat}
    (table : (memory.page d (PDX va)).present = true) :
    memory.page (memory.page d (PDX va)).frame (PTX va) = memory.entry d va := by
  rw [Memory.entry, if_pos table]

/-! ## Loading a segment -/

theorem loadCount_eq : (if sz - i < pgsize then sz - i else pgsize) = min (sz - i) pgsize := by
  split <;> omega

theorem wp_loadLoop {addr offset : Uint}
    (panics : stops .addressShouldExist) (ends : ∀ outcome, post outcome vm) :
    Wp (loadLoop layout d addr file offset sz i) post stops vm := by
  induction left : sz - i using Nat.strong_induction_on generalizing i post with
  | _ count ih =>
    rw [loadLoop]
    by_cases more : i < sz
    · rw [dif_pos more, wp_bind, wp_walkpgdir]
      by_cases table : (vm.page d (PDX (addr.plus i))).present = true
      · simp only [if_pos table, wp_bind, wp_get, loadCount_eq]
        refine wp_read (min_le_right _ _) fun pieces _ => ?_
        rw [wp_ite]
        refine ⟨fun _ => ends _, fun _ => ?_⟩
        rw [wp_bind]
        refine ih (sz - (i + pgsize)) ?_ (fun _ => ends _) rfl
        simp only [pgsize]
        omega
      · rw [if_neg table]
        exact panics
    · rw [dif_neg more]
      exact ends _

/-- What loading a segment does. -/
structure Segment.Loaded (seg : Segment) (size d : Nat) (vm : Vm) (outcome : Int × Pieces) :
    Prop where
  complete : seg.Loadable size → (0 ≤ outcome.1 ↔ seg.Complete size)
  confined : seg.Loadable size → ∀ x, Touched outcome.2 x →
    ∃ page, (.user d page, x / pgsize) ∈ vm.granted
  stray : ¬seg.Loadable size → ∃ x, Touched outcome.2 x ∧ x / pgsize = seg.strayFrame

section Segment

variable {seg : Segment}

theorem Segment.Loaded.append {size : Nat} {outcome : Int × Pieces} {pieces : Pieces}
    (rest : seg.Loaded size d vm outcome)
    (confined : ∀ x, Touched pieces x → ∃ page, (.user d page, x / pgsize) ∈ vm.granted) :
    seg.Loaded size d vm (outcome.1, pieces ++ outcome.2) where
  complete := rest.complete
  confined loadable x touched :=
    (touched_append.mp touched).elim (confined x) (rest.confined loadable x)
  stray bad := by
    obtain ⟨x, touched, frame⟩ := rest.stray bad
    exact ⟨x, touched_append.mpr (.inr touched), frame⟩

theorem div_of_piece {frame length x : Nat} (short : length ≤ pgsize)
    (inside : frame * pgsize ≤ x ∧ x < frame * pgsize + length) : x / pgsize = frame := by
  simp only [pgsize] at *
  omega

section
variable (space : Space layout live d seg.top vm)
include space

theorem Space.va_add_lt {i : Nat} (inside : i ≤ seg.room) : seg.header.va.val + i < 2 ^ 32 ∧
      (seg.header.va.plus i).val = seg.header.va.val + i := by
  have bound := space.bound
  have small := seg.header.va.isLt
  have lt : seg.header.va.val + i < 2 ^ 32 := by
    simp only [Segment.room, usertop] at *
    omega
  exact ⟨lt, Nat.mod_eq_of_lt lt⟩

theorem Space.table_outside :
    (vm.page d (PDX (seg.header.va.val + seg.room))).present = true ↔
      (PDX seg.header.va).val < 4 ∨ 1016 ≤ (PDX seg.header.va).val := by
  have bound := space.bound
  rcases Nat.eq_zero_or_pos seg.room with zero | positive
  · rw [zero, Nat.add_zero, space.table_iff]
  · have ends : seg.header.va.val + seg.room ≤ usertop := by
      simp only [Segment.room] at positive ⊢
      omega
    exact iff_of_true (space.table_user ends)
      (space.table_iff.mp (space.table_user (le_trans (Nat.le_add_right _ _) ends)))

theorem wp_loadLoop_outside
    (aligned : seg.header.va.val % pgsize = 0) (more : seg.room < seg.header.filesz.val)
    (so : seg.room = 0 ∨ seg.header.offset.val + seg.room ≤ file.size.val)
    (panics : ¬seg.Loadable file.size → stops .addressShouldExist)
    (ends : ∀ outcome, seg.Loaded file.size d vm outcome → post outcome vm) :
    Wp (loadLoop layout d seg.header.va file seg.header.offset seg.header.filesz seg.room)
      post stops vm := by
  obtain ⟨small, address⟩ := space.va_add_lt (le_refl seg.room)
  have offset : (seg.header.offset.plus seg.room).val = seg.header.offset.val + seg.room := by
    have := seg.header.offset.isLt
    have := file.size_le
    exact Nat.mod_eq_of_lt (by omega)
  rw [loadLoop, dif_pos more, wp_bind, wp_walkpgdir, address]
  by_cases table : (vm.page d (PDX (seg.header.va.val + seg.room))).present = true
  · have outside : seg.top ≤ seg.header.va.val + seg.room := by
      simp only [Segment.room]
      omega
    have frame : (vm.entry d (seg.header.va.val + seg.room)).frame = seg.strayFrame :=
      space.frame_outside small outside table
    simp only [if_pos table, wp_bind, wp_get, Memory.page_of_table table, frame, loadCount_eq]
    refine wp_read (min_le_right _ _) fun pieces touched => ?_
    rw [offset] at touched ⊢
    rw [wp_ite]
    by_cases loadable : seg.Loadable file.size
    · have ended : file.size.val ≤ seg.header.offset.val + seg.room :=
        (loadable.2.resolve_left (by omega)).2
      have nothing : ∀ x, ¬Touched pieces x := by
        intro x inside
        rw [touched, Nat.sub_eq_zero_of_le ended] at inside
        omega
      refine ⟨fun _ => ends _ ⟨fun _ => ?_, fun _ x inside => absurd inside (nothing x),
        fun bad => absurd loadable bad⟩, fun full => absurd full ?_⟩
      · simp only [Segment.Complete]
        omega
      · simp only [pgsize, Nat.sub_eq_zero_of_le ended]
        split <;> omega
    · have goesOn : seg.header.offset.val + seg.room < file.size.val := by
        have reaches := space.table_outside.mp table
        simp only [Segment.Loadable, aligned, reaches, true_and] at loadable
        omega
      have first : Touched pieces (seg.strayFrame * pgsize) := by
        rw [touched]
        simp only [pgsize]
        omega
      have number : seg.strayFrame * pgsize / pgsize = seg.strayFrame := by simp [pgsize]
      refine ⟨fun _ => ends _ ⟨fun good => absurd good loadable, fun good => absurd good loadable,
        fun _ => ⟨_, first, number⟩⟩, fun _ => ?_⟩
      rw [wp_bind]
      exact wp_loadLoop (panics loadable) fun outcome => ends _ ⟨fun good => absurd good loadable,
        fun good => absurd good loadable, fun _ => ⟨_, touched_append.mpr (.inl first), number⟩⟩
  · rw [if_neg table]
    exact panics fun loadable => table
      (space.table_outside.mpr (loadable.2.resolve_left (by omega)).1)

theorem wp_loadLoop_inside
    (aligned : seg.header.va.val % pgsize = 0) {i : Nat} (page : i % pgsize = 0)
    (inside : i ≤ seg.room)
    (so : i = 0 ∨ seg.header.offset.val + min i seg.header.filesz.val ≤ file.size.val)
    (panics : ¬seg.Loadable file.size → stops .addressShouldExist)
    (ends : ∀ outcome, seg.Loaded file.size d vm outcome → post outcome vm) :
    Wp (loadLoop layout d seg.header.va file seg.header.offset seg.header.filesz i)
      post stops vm := by
  induction left : seg.header.filesz.val - i using Nat.strong_induction_on
    generalizing i post with
  | _ count ih =>
    rcases Nat.lt_or_ge i seg.header.filesz.val with more | done
    · rcases Nat.lt_or_eq_of_le inside with here | rfl
      · obtain ⟨-, address⟩ := space.va_add_lt inside
        have below : seg.header.va.val + i < seg.top := by
          simp only [Segment.room] at here
          omega
        have next : i + pgsize ≤ seg.room := by
          have top := space.aligned
          simp only [Segment.room, pgsize] at *
          omega
        have table := space.table_user (below.le.trans space.bound)
        rw [loadLoop, dif_pos more, wp_bind, wp_walkpgdir, address, if_pos table]
        simp only [wp_bind, wp_get, Memory.page_of_table table, loadCount_eq]
        refine wp_read (min_le_right _ _) fun pieces touched => ?_
        have offset : (seg.header.offset.plus i).val = seg.header.offset.val + i := by
          have := seg.header.offset.isLt
          have := file.size_le
          exact Nat.mod_eq_of_lt (by omega)
        rw [offset] at touched ⊢
        have confined : ∀ x, Touched pieces x →
            ∃ page, (.user d page, x / pgsize) ∈ vm.granted := by
          intro x written
          rw [div_of_piece ((min_le_left _ _).trans (min_le_right _ _))
            ((touched x).mp written)]
          exact ⟨_, space.backed _ below⟩
        rw [wp_ite]
        refine ⟨fun short => ?_, fun full => ?_⟩
        · have ended : file.size.val <
              seg.header.offset.val + i + min (seg.header.filesz.val - i) pgsize := by
            split at short <;> omega
          have loadable : seg.Loadable file.size := by
            refine ⟨aligned, (le_or_gt _ _).imp_right fun beyond => ⟨?_, by omega⟩⟩
            exact space.table_iff.mp (space.table_user (by have := space.bound; omega))
          refine ends _ ⟨fun _ => ?_, fun _ => confined, fun bad => absurd loadable bad⟩
          simp only [Segment.Complete]
          omega
        · rw [wp_bind]
          refine ih _ ?_ ?_ next ?_ (fun outcome rest => ends _ (rest.append confined)) rfl
          · simp only [pgsize]
            omega
          · simpa using page
          · right
            split at full <;> omega
      · exact wp_loadLoop_outside space aligned more (by omega) panics ends
    · have loadable : seg.Loadable file.size := ⟨aligned, .inl (done.trans inside)⟩
      rw [loadLoop, dif_neg (not_lt.mpr done)]
      refine ends _ ⟨fun _ => iff_of_true le_rfl ?_, fun _ x nothing => ?_,
        fun bad => absurd loadable bad⟩
      · simp only [Segment.Complete]
        omega
      · exact absurd nothing touched_nil

end

theorem wp_loaduvm (seg : Segment) (space : Space layout live d seg.top vm)
    (panics : ¬seg.Loadable file.size → ∀ stop, stops stop)
    (ends : ∀ outcome, seg.Loaded file.size d vm outcome → post outcome vm) :
    Wp (loaduvm layout d seg.header.va file seg.header.offset seg.header.filesz)
      post stops vm := by
  by_cases aligned : seg.header.va.val % pgsize = 0
  · rw [loaduvm, if_neg (not_not.mpr aligned)]
    exact wp_loadLoop_inside space aligned (Nat.zero_mod _) (Nat.zero_le _) (.inl rfl)
      (fun bad => panics bad _) ends
  · rw [loaduvm, if_pos aligned]
    exact panics (fun loadable => aligned loadable.1) _

end Segment

end Xv6
