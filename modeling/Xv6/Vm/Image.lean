import Xv6.Vm.Copying
import Xv6.Vm.Copyout
import Xv6.Vm.Loading

/-!
# The memory of a new program

`exec` with the bytes that it reads from the file and those it puts on the stack.  What
`loaduvm` writes to a page table changes the table, so that a segment whose end wraps
around may overwrite the page directory that is being filled.
-/

namespace Xv6

open Program

/-! ## Writing over page tables -/

namespace Pte

/-- The word that an entry is stored as. -/
def word (pte : Pte) : Nat :=
  pte.frame * pgsize + (if pte.present then 1 else 0) + (if pte.writable then 2 else 0) +
    if pte.user then 4 else 0

/-- The entry that a word stands for. -/
def ofWord (word : Nat) : Pte where
  frame := word / pgsize
  present := decide (word % 2 = 1)
  writable := decide (word / 2 % 2 = 1)
  user := decide (word / 4 % 2 = 1)

end Pte

/-- The entries of a page when its first bytes are overwritten. -/
def overlay (page : Fin nptentries → Pte) (bytes : List UInt8) (i : Fin nptentries) : Pte :=
  if bytes.length ≤ 4 * i then page i
  else .ofWord (leValue ((List.range 4).map fun k =>
    bytes.getD (4 * i + k) ((wordBytes (page i).word).getD k 0)))

/-- A C string, without the byte 0 at its end, that fits in user memory. -/
structure Argument where
  text : List UInt8
  noZero : 0 ∉ text
  short : text.length < usertop

/-- The bytes of a string. -/
def Argument.bytes (arg : Argument) : List UInt8 := arg.text ++ [0]

namespace Ram

/-- Bytes read to the start of a page.  The entries of a page matter only if it is not a
page of user memory. -/
def load (ram : Ram) (frame : Nat) (bytes : List UInt8) : Ram :=
  { ram.write frame 0 bytes with
    toMemory := match ram.owner frame with
      | some (.user _ _) => ram.toMemory
      | _ => ram.toMemory.setPage frame (overlay (ram.page frame) bytes) }

variable (layout : Layout)

/-- The loop of `loaduvm`. -/
def loadLoop (pgdir : Nat) (addr : Uint) (file : Executable) (offset : Uint) (sz i : Nat) :
    RamProgram Int := do
  if _more : i < sz then
    match ← lift (walkpgdir layout pgdir (addr.plus i) false) with
    | none => throw .addressShouldExist
    | some (pgtab, index) =>
      let frame := ((← get).page pgtab index).frame
      let n := if sz - i < pgsize then sz - i else pgsize
      let (result, _) ← lift (file.read (frame * pgsize) (offset.plus i) n)
      modify fun ram => ram.load frame (file.slice (offset.plus i) result.toNat)
      if result ≠ n then pure (-1)
      else loadLoop pgdir addr file offset sz (i + pgsize)
  else pure 0
  termination_by sz - i
  decreasing_by
    simp only [pgsize]
    omega

def loaduvm (pgdir : Nat) (addr : Uint) (file : Executable) (offset : Uint) (sz : Nat) :
    RamProgram Int := do
  if addr.val % pgsize ≠ 0 then throw .notAligned
  loadLoop layout pgdir addr file offset sz 0

/-- The loop of `exec` over the program headers, with `n` of them to go, the next at
`off`.  There is no size if it goes to `bad`. -/
def loadSegments (pgdir : Nat) (file : Executable) : Nat → Uint → Nat → RamProgram (Option Nat)
  | 0, _, sz => pure (some sz)
  | n + 1, off, sz => do
      let (result, _) ← lift (file.read 0 off proghdrSize)
      if result ≠ proghdrSize then pure none
      else
        let ph := file.proghdr off
        if ph.type ≠ elfProgLoad then loadSegments pgdir file n (off.plus proghdrSize) sz
        else if ph.memsz < ph.filesz then pure none
        else
          let sz ← allocuvm layout pgdir sz (ph.va.plus ph.memsz)
          if sz = 0 then pure none
          else if (← loaduvm layout pgdir ph.va file ph.offset ph.filesz) < 0 then pure none
          else loadSegments pgdir file n (off.plus proghdrSize) sz

/-- The loop of `exec` over the arguments, with the pointers pushed so far.  It goes to
`bad` if there are too many or `copyout` fails. -/
def pushArgs (pgdir : Nat) :
    List Argument → List Nat → Nat → RamProgram (Option (List Nat × Nat))
  | [], pointers, sp => pure (some (pointers, sp))
  | arg :: rest, pointers, sp => do
      if pointers.length ≥ maxarg then pure none
      else
        let sp := toUint (sp - (arg.text.length + 1 : Nat)) / 4 * 4
        if (← copyout layout pgdir sp arg.bytes) < 0 then pure none
        else pushArgs pgdir rest (pointers ++ [sp]) sp

/-- The words below the strings: a return address, `argc`, `argv` and the pointers. -/
def stackWords (pointers : List Nat) (sp : Nat) : List Nat :=
  [0xffffffff, pointers.length, toUint (sp - ((pointers.length + 1) * 4 : Nat))] ++ pointers ++ [0]

/-- The end of a page that starts at `sz`, as a word. -/
@[irreducible] def pageEnd (sz : Nat) : Nat := toUint (sz + pgsize)

theorem pageEnd_eq {sz : Nat} (fits : sz ≤ usertop) : pageEnd sz = sz + pgsize := by
  unfold pageEnd
  simp only [toUint, usertop, pgsize] at *
  omega

/-- The second half of `exec`, with the size that the segments end at.  It gives the size
and the stack pointer of the new program, or goes to `bad`. -/
def buildStack (pgdir : Nat) (args : List Argument) (sz : Nat) :
    RamProgram (Option (Nat × Nat)) := do
  let sz := pgroundup sz
  let sz ← allocuvm layout pgdir sz (pageEnd sz)
  if sz = 0 then pure none
  else
    match ← pushArgs layout pgdir args [] sz with
    | none => pure none
    | some (pointers, sp) =>
      let words := (stackWords pointers sp).flatMap wordBytes
      let sp := toUint (sp - ((3 + pointers.length + 1) * 4 : Nat))
      if (← copyout layout pgdir sp words) < 0 then pure none
      else pure (some (sz, sp))

end Ram

/-! ## Loading a segment -/

variable {layout : Layout} {live : Nat → Prop} {d sz : Nat} {ram ram' : Ram} {stops : Stop → Prop}
  {file : Executable} {off n k : Nat}

theorem Executable.length_slice {off n : Nat} : (file.slice off n).length = n := by
  simp [Executable.slice]

theorem Executable.take_slice (le : k ≤ n) : (file.slice off n).take k = file.slice off k := by
  apply List.ext_getElem
  · simp [Executable.slice, le]
  · simp [Executable.slice]

theorem Executable.drop_slice : (file.slice off n).drop k = file.slice (off + k) (n - k) := by
  apply List.ext_getElem
  · simp [Executable.slice]
  · simp [Executable.slice, Nat.add_assoc]

theorem Ram.load_eq_write {frame page d : Nat} {bytes : List UInt8}
    (owned : ram.owner frame = some (.user d page)) :
    ram.load frame bytes = ram.write frame 0 bytes := by
  simp [Ram.load, owned, Ram.write]

/-- How loading the bytes from `off` on to `va` ends. -/
structure LoadedAt (file : Executable) (d va off len : Nat) (ram : Ram) (result : Int)
    (ram' : Ram) : Prop where
  wrote : Wrote d va len ram ram'
  outcome : result = 0 ∨ result = -1
  holds : result = 0 → ram'.Holds d va (file.slice off len)

theorem Ram.Holds.nil {va off : Nat} : ram.Holds d va (file.slice off 0) := by
  intro a low high
  rw [Executable.length_slice] at high
  omega

theorem LoadedAt.cons {ram₁ : Ram} {va off len : Nat} {result : Int}
    (sound : Sound layout live ram.toMemory) (isLive : live d) (top : va + len ≤ 2 ^ 32)
    (part : pgsize ≤ len) (user : ram.UserRange d va len)
    (first : Wrote d va pgsize ram ram₁) (held : ram₁.Holds d va (file.slice off pgsize))
    (rest : LoadedAt file d (va + pgsize) (off + pgsize) (len - pgsize) ram₁ result ram') :
    LoadedAt file d va off len ram result ram' := by
  have sound₁ : Sound layout live ram₁.toMemory := by rwa [first.vm]
  have pages : ∀ a, ram₁.UserPage d a ↔ ram.UserPage d a := fun a => by
    simp only [Memory.UserPage, first.vm]
  have length : (file.slice off pgsize).length = pgsize := Executable.length_slice
  refine ⟨first.trans rest.wrote part, rest.outcome, fun zero => ?_⟩
  have kept := rest.wrote.holds sound₁ isLive held
    (fun a low high => (pages a).mpr (user a low (by omega)))
    (fun a low high => (pages a).mpr (user a (by omega) (by omega))) (by omega) (by omega)
    (by omega)
  have later := rest.holds zero
  rw [← Executable.take_slice part] at kept
  rw [← Executable.drop_slice] at later
  exact kept.append later

theorem Ram.wp_loadLoop {addr offset : Uint} {len i : Nat}
    (sound : Sound layout live ram.toMemory) (isLive : live d)
    (aligned : (addr.val + i) % pgsize = 0) (fits : addr.val + len ≤ usertop) (started : i ≤ len)
    (user : ram.UserRange d (addr + i) (len - i)) :
    Wp (Ram.loadLoop layout d addr file offset len i)
      (LoadedAt file d (addr + i) (offset.plus i) (len - i) ram) stops ram := by
  induction left : len - i using Nat.strong_induction_on generalizing i ram with
  | _ count ih =>
    subst left
    by_cases more : i < len
    case neg =>
      rw [Ram.loadLoop, dif_neg more, wp_pure]
      have empty : len - i = 0 := by omega
      rw [empty]
      exact ⟨.refl .., .inl rfl, fun _ => .nil⟩
    have top : addr.val + len ≤ 2 ^ 32 := by
      simp only [usertop] at fits
      omega
    have positive : 0 < pgsize := by decide
    have small : addr.val + i < 2 ^ 32 := by omega
    have place : (addr.plus i).val = addr.val + i := by
      rw [Uint.val_plus, Nat.mod_eq_of_lt small]
    have here := user (addr + i) le_rfl (by omega)
    have owned := (sound.owner_of_userPage isLive small here).2
    have table := Sound.present_of_entry here.1
    rw [Ram.loadLoop, dif_pos more, wp_bind, Ram.wp_lift, wp_walkpgdir, place, if_pos table]
    simp only [wp_bind, wp_get, Memory.page_of_table table, loadCount_eq, Ram.wp_lift]
    refine wp_read (min_le_right _ _) fun pieces _ => ?_
    rw [wp_modify]
    set off := offset.plus i with off_eq
    set n := min (len - i) pgsize with n_eq
    have count : (if off.val ≤ file.size.val then
        ((min n (file.size.val - off.val) : Nat) : Int) else -1).toNat =
          min n (file.size.val - off.val) := by
      split <;> omega
    have most : min n (file.size.val - off.val) ≤ n := min_le_left ..
    have start : (addr.val + i) % pgsize + min n (file.size.val - off.val) ≤ pgsize := by
      omega
    rw [count, Ram.load_eq_write owned]
    set bytes := file.slice off (min n (file.size.val - off.val)) with bytes_eq
    have length : bytes.length = min n (file.size.val - off.val) := Executable.length_slice
    set ram₁ := ram.write (ram.entry d (addr + i)).frame 0 bytes with ram₁_eq
    have first : Wrote d (addr + i) bytes.length ram ram₁ := by
      have wrote : Wrote d (addr + i) bytes.length ram _ :=
        Ram.wrote_write (by rwa [length]) small
      rwa [aligned] at wrote
    have held : ram₁.Holds d (addr + i) bytes := by
      have holds : (ram.write _ _ bytes).Holds d (addr + i) bytes :=
        Ram.holds_write (by rwa [length]) small
      rwa [aligned] at holds
    rw [length] at first
    rw [wp_ite]
    refine ⟨fun _ => ⟨first.mono le_rfl (by omega), .inr rfl, by simp⟩, fun complete => ?_⟩
    have whole : min n (file.size.val - off.val) = n ∧ off.val + n ≤ file.size.val := by
      split at complete <;> omega
    rw [bytes_eq, whole.1] at held
    rw [whole.1] at first
    by_cases last : len - i ≤ pgsize
    · have all : n = len - i := min_eq_left last
      rw [all] at first held
      rw [Ram.loadLoop, dif_neg (by omega), wp_pure]
      exact ⟨first, .inl rfl, fun _ => held⟩
    · have page : n = pgsize := min_eq_right (by omega)
      have bound := file.size_le
      have next : (offset.plus (i + pgsize)).val = off.val + pgsize := by
        simp only [off_eq, Uint.val_plus, pgsize] at *
        omega
      rw [page] at first held
      have sound₁ : Sound layout live ram₁.toMemory := sound
      have users : ram₁.UserRange d (addr + (i + pgsize)) (len - (i + pgsize)) :=
        fun a low high => user a (by omega) (by omega)
      have rest := ih (len - (i + pgsize)) (by omega) sound₁
        (by rw [← Nat.add_assoc]; simpa using aligned) (by omega) users rfl
      rw [next, ← Nat.add_assoc, ← Nat.sub_sub] at rest
      exact rest.imp fun _ _ =>
        LoadedAt.cons sound isLive (by omega) (by omega) user first held

/-! ## The image of a file -/

namespace Proghdr

/-- The file part of a segment has an address. -/
def Covers (ph : Proghdr) (a : Nat) : Prop := ph.va.val ≤ a ∧ a < ph.va.val + ph.filesz.val

instance (ph : Proghdr) (a : Nat) : Decidable (ph.Covers a) :=
  inferInstanceAs (Decidable (_ ∧ _))

/-- A segment that starts on a page boundary and whose end does not wrap around. -/
def Regular (ph : Proghdr) : Prop :=
  ph.va.val % pgsize = 0 ∧ ph.va.val + ph.memsz.val < 2 ^ 32

instance (ph : Proghdr) : Decidable ph.Regular := inferInstanceAs (Decidable (_ ∧ _))

end Proghdr

namespace Executable

variable (file : Executable)

/-- The program headers of segments to load among the next `n`, up to the end of the file. -/
def loadsFrom : Nat → Uint → List Proghdr
  | 0, _ => []
  | n + 1, off =>
    let rest := loadsFrom n (off.plus proghdrSize)
    if file.size.val < off.val + proghdrSize then []
    else if (file.proghdr off).type = elfProgLoad then file.proghdr off :: rest
    else rest

/-- The program headers of all segments to load. -/
def loads : List Proghdr := file.loadsFrom file.phnum file.phoff

/-- The byte that a segment has for an address. -/
def segmentByte (ph : Proghdr) (a : Nat) : UInt8 :=
  file.bytes.getD (ph.offset.val + (a - ph.va.val)) 0

/-- A segment is loaded over what is in memory. -/
def overwrite (image : Nat → UInt8) (ph : Proghdr) (a : Nat) : UInt8 :=
  if ph.Covers a then file.segmentByte ph a else image a

/-- The byte that the last segment to load has whose file part covers an address, or 0 if
there is none. -/
def image (a : Nat) : UInt8 :=
  match file.loads.reverse.find? fun ph => decide (ph.Covers a) with
  | none => 0
  | some ph => file.segmentByte ph a

variable {file}

theorem loadsFrom_of_ne {off : Uint} (whole : off.val + proghdrSize ≤ file.size.val)
    (other : (file.proghdr off).type ≠ elfProgLoad) :
    file.loadsFrom (n + 1) off = file.loadsFrom n (off.plus proghdrSize) := by
  rw [loadsFrom, if_neg (not_lt.mpr whole), if_neg other]

theorem loadsFrom_of_eq {off : Uint} (whole : off.val + proghdrSize ≤ file.size.val)
    (load : (file.proghdr off).type = elfProgLoad) :
    file.loadsFrom (n + 1) off =
      file.proghdr off :: file.loadsFrom n (off.plus proghdrSize) := by
  rw [loadsFrom, if_neg (not_lt.mpr whole), if_pos load]

theorem getD_slice (below : k < n) : (file.slice off n).getD k 0 = file.bytes.getD (off + k) 0 := by
  simp [slice, List.getD_eq_getElem?_getD, below]

theorem image_eq_foldl (a : Nat) : file.loads.foldl file.overwrite (fun _ => 0) a =
    file.image a := by
  unfold image
  induction file.loads using List.reverseRecOn with
  | nil => rfl
  | append_singleton phs ph ih =>
    simp only [List.foldl_append, List.foldl_cons, List.foldl_nil, List.reverse_append,
      List.reverse_singleton, List.singleton_append, List.find?_cons]
    by_cases covered : ph.Covers a
    · simp [overwrite, covered]
    · simp [overwrite, covered, ih]

end Executable

/-! ## The new address space -/

/-- The byte at an address. -/
def Ram.at (ram : Ram) (d va : Nat) : UInt8 := ram.byte (ram.entry d va).frame (va % pgsize)

/-- The contents of an address space. -/
def Ram.Image (ram : Ram) (d sz : Nat) (image : Nat → UInt8) : Prop :=
  ∀ a < pgroundup sz, ram.at d a = image a

theorem Ram.image_empty {image : Nat → UInt8} : ram.Image d 0 image := by
  intro a below
  simp [pgroundup, pgsize] at below

/-- The page directory `d` has been filled up to `sz` since `start`, when `setupkvm` had just
made it. -/
structure Building (layout : Layout) (live : Nat → Prop) (d sz : Nat) (start ram : Ram) :
    Prop where
  isLive : live d
  empty : ∀ va < usertop, (start.entry d va).present = false
  tables : ∀ i, (start.page d i).present = true ↔ i.val < 4 ∨ 1016 ≤ i.val
  fits : sz ≤ usertop
  grew : Grew layout live d 0 sz (ram.pageBytes d) start ram

namespace Building

variable {start : Ram} {newsz va len : Nat} {image : Nat → UInt8} {a : Nat}

theorem inPages_iff : InPages 0 sz a ↔ a / pgsize * pgsize < sz := by
  simp [InPages]

theorem lt_pgroundup_iff : a < pgroundup sz ↔ a / pgsize * pgsize < sz := by
  simp only [pgroundup, pgsize]
  omega

theorem lt_of_lt_pgroundup (fits : sz ≤ usertop) (below : a < pgroundup sz) : a < 2 ^ 32 := by
  simp only [pgroundup, pgsize, usertop] at *
  omega

section
variable (building : Building layout live d sz start ram)
include building

theorem space : AddressSpace layout live ram.toMemory d sz := by
  obtain ⟨isLive, empty, tables, fits, grew⟩ := building
  refine ⟨grew.sound, isLive, ?_, fun va below => ?_⟩
  · rw [grew.page isLive, tables]
    exact .inl (by decide)
  · have small := lt_of_lt_usertop below
    by_cases inside : InPages 0 sz va
    · exact iff_of_true (grew.mapped small inside) (inPages_iff.mp inside)
    · rw [grew.outside isLive small fun both => inside both.2, empty va below]
      exact iff_of_false (by simp) (mt inPages_iff.mpr inside)

theorem userPage_iff (small : va < 2 ^ 32) : ram.UserPage d va ↔ va / pgsize * pgsize < sz :=
  building.space.userPage_iff building.fits small

theorem table (place : va < 2 ^ 24 ∨ 0xFE000000 ≤ va ∧ va < 2 ^ 32) :
    (ram.page d (PDX va)).present = true := by
  rw [building.grew.page building.isLive, building.tables]
  simp only [PDX, nptentries]
  omega

theorem userRange (inside : va + len ≤ sz) : ram.UserRange d va len := by
  intro a _ less
  have fits := building.fits
  simp only [usertop] at fits
  exact (building.userPage_iff (by omega)).mpr
    (lt_of_le_of_lt (Nat.div_mul_le_self ..) (by omega))

end

theorem byte_eq_pageBytes (small : va < 2 ^ 32) :
    ram.byte (ram.entry d va).frame = ram.pageBytes d (va / pgsize) := by
  have start : va / pgsize * pgsize / pgsize = va / pgsize := by simp [pgsize]
  have small' : va / pgsize * pgsize < 2 ^ 32 := by
    simp only [pgsize]
    omega
  rw [Ram.pageBytes, ram.entry_congr d small' small start]

section
variable (building : Building layout live d sz start ram)
include building

theorem wrote (wrote : Wrote d va len ram ram')
    (small : va + len ≤ 2 ^ 32) (inside : ∀ a, va ≤ a → a < va + len → a / pgsize * pgsize < sz) :
    Building layout live d sz start ram' := by
  have memory : ram'.toMemory = ram.toMemory := by rw [wrote.vm]
  have entries : ∀ a, ram'.entry d a = ram.entry d a := fun a => by rw [memory]
  obtain ⟨isLive, empty, tables, fits, grew⟩ := building
  refine ⟨isLive, empty, tables, fits, ?_⟩
  refine grew.rewrite memory (fun {a} small inside => ?_) fun {frame} used => ?_
  · rw [← entries]
    exact byte_eq_pageBytes small
  · funext j
    refine wrote.outside fun a low high same => used ?_
    rw [← same.1]
    exact grew.fresh (by omega) (inPages_iff.mpr (inside a low high))

theorem restored
    (restored : Restored layout live ram ram') : Building layout live d sz start ram' := by
  obtain ⟨isLive, empty, tables, fits, grew⟩ := building
  have entries : ∀ {va}, va < 2 ^ 32 → ram'.entry d va = ram.entry d va := fun small =>
    restored.entry isLive small
  refine ⟨isLive, empty, tables, fits, restored.sound, fun other =>
    (restored.page other).trans (grew.page other), fun other small out =>
    (restored.entry other small).trans (grew.outside other small out), ?_, ?_, ?_, ?_, ?_, ?_⟩
  · intro va small inside
    rw [entries small]
    exact grew.mapped small inside
  · intro va small inside
    rw [entries small]
    exact grew.fresh small inside
  · intro va small inside
    rw [entries small, restored.owner]
    exact grew.owned small inside
  · intro va small inside
    exact byte_eq_pageBytes small
  · intro frame different
    rw [restored.owner]
    exact grew.owner fun va small inside => entries small ▸ different va small inside
  · intro frame used
    rw [restored.byte (by rw [grew.keeps used]; exact used), grew.byte used]

theorem grown (order : sz ≤ newsz) (fits : newsz ≤ usertop)
    (grew : Grew layout live d (pgroundup sz) newsz (fun _ _ => 0) ram ram') :
    Building layout live d newsz start ram' := by
  have space := building.space
  obtain ⟨isLive, empty, tables, -, before⟩ := building
  have bytes : ∀ {va}, va < 2 ^ 32 → InPages 0 sz va →
      ram'.byte (ram.entry d va).frame = ram'.pageBytes d (va / pgsize) := by
    intro va small inside
    rw [← byte_eq_pageBytes small, grew.outside isLive small]
    simp only [InPages, pgroundup, pgsize] at inside ⊢
    omega
  have first : Grew layout live d 0 sz (ram'.pageBytes d) start ram :=
    before.rewrite rfl (fun {va} small inside => by
      rw [← bytes small inside, grew.byte (by simp [before.owned small inside])]) fun _ => rfl
  have rest : Grew layout live d (pgroundup sz) newsz (ram'.pageBytes d) ram ram' :=
    grew.rewrite rfl (fun small _ => byte_eq_pageBytes small) fun _ => rfl
  refine ⟨isLive, empty, tables, fits, first.append isLive (fun {va} => ?_) (fun {va} => ?_) rest⟩
  all_goals
    simp only [InPages, pgroundup, pgsize]
    omega

theorem wp_allocuvm (isImage : ram.Image d sz image) (zero : ∀ a, pgroundup sz ≤ a → image a = 0) :
    Wp (Ram.allocuvm layout d sz newsz) (fun result ram' =>
      result = 0 ∧ Building layout live d sz start ram' ∨
      result = max sz newsz ∧ newsz ≤ usertop ∧
        Building layout live d (max sz newsz) start ram' ∧ ram'.Image d (max sz newsz) image)
      stops ram := by
  by_cases large : newsz > usertop
  · rw [Ram.allocuvm, if_pos large, wp_pure]
    exact .inl ⟨rfl, building⟩
  by_cases less : newsz < sz
  · rw [Ram.allocuvm, if_neg large, if_pos less, wp_pure, max_eq_left less.le]
    exact .inr ⟨rfl, by omega, building, isImage⟩
  have order : sz ≤ newsz := by omega
  refine (Ram.wp_allocuvm building.space order (by omega)).imp ?_
  rintro result ram' ⟨-, ⟨rfl, grew⟩ | ⟨rfl, restored⟩⟩
  · have after := building.grown order (by omega) grew
    rw [max_eq_right order]
    refine .inr ⟨rfl, by omega, after, fun a below => ?_⟩
    have small := lt_of_lt_pgroundup (by omega) below
    by_cases old : a < pgroundup sz
    · have inside : InPages 0 sz a := inPages_iff.mpr (lt_pgroundup_iff.mp old)
      have apart : ¬InPages (pgroundup sz) result a := by
        simp only [InPages, pgroundup, pgsize] at *
        omega
      rw [Ram.at, grew.outside building.isLive small fun both => apart both.2,
        grew.byte (by simp [building.grew.owned small inside])]
      exact isImage a old
    · have inside : InPages (pgroundup sz) result a := by
        simp only [InPages, pgroundup, pgsize] at *
        omega
      rw [Ram.at, grew.filled small inside, zero a (by omega)]
  · exact .inl ⟨rfl, building.restored restored⟩

theorem at_outside (wrote : Wrote d va len ram ram') (small : va + len ≤ 2 ^ 32)
    (user : ram.UserRange d va len) (below : a < pgroundup sz)
    (outside : ¬(va ≤ a ∧ a < va + len)) : ram'.at d a = ram.at d a := by
  have small' := lt_of_lt_pgroundup building.fits below
  have mine := (building.userPage_iff small').mpr (lt_pgroundup_iff.mp below)
  rw [Ram.at, Ram.at, show ram'.entry d a = ram.entry d a by rw [wrote.vm], wrote.outside]
  rintro b low high ⟨frame, offset⟩
  have page := building.grew.sound.userPage_inj building.isLive (by omega) small'
    (user b low high) mine frame
  have : b = a := by
    rw [← Nat.div_add_mod b pgsize, ← Nat.div_add_mod a pgsize, page, offset]
  omega

section
variable (isImage : ram.Image d sz image)
include isImage

theorem image_wrote {source : List UInt8}
    (wrote : Wrote d va source.length ram ram') (holds : ram'.Holds d va source)
    (small : va + source.length ≤ 2 ^ 32) (user : ram.UserRange d va source.length) :
    ram'.Image d sz fun a =>
      if va ≤ a ∧ a < va + source.length then source.getD (a - va) 0 else image a := by
  intro a below
  beta_reduce
  split_ifs with inside
  · exact holds a inside.1 inside.2
  · rw [building.at_outside wrote small user below inside]
    exact isImage a below

theorem wp_loaduvm {ph : Proghdr} (aligned : ph.va.val % pgsize = 0)
    (inside : ph.va.val + ph.filesz.val ≤ sz) :
    Wp (Ram.loaduvm layout d ph.va file ph.offset ph.filesz) (fun result ram' =>
      Building layout live d sz start ram' ∧
        (0 ≤ result → ram'.Image d sz (file.overwrite image ph))) stops ram := by
  have top : ph.va.val + ph.filesz.val ≤ usertop := inside.trans building.fits
  have small : ph.va.val + ph.filesz.val ≤ 2 ^ 32 := by
    simp only [usertop] at top
    omega
  have pages : ∀ a, ph.va.val ≤ a → a < ph.va.val + ph.filesz.val → a / pgsize * pgsize < sz :=
    fun a _ high => lt_of_le_of_lt (Nat.div_mul_le_self ..) (by omega)
  have user : ram.UserRange d ph.va ph.filesz := fun a low high =>
    (building.userPage_iff (by omega)).mpr (pages a low high)
  rw [Ram.loaduvm, if_neg (by simp [aligned])]
  refine (Ram.wp_loadLoop building.grew.sound building.isLive (by simpa using aligned) top
    (Nat.zero_le _) (by simpa using user)).imp fun result ram' loaded => ?_
  obtain ⟨wrote, outcome, holds⟩ := loaded
  have offset : (ph.offset.plus 0).val = ph.offset.val := Nat.mod_eq_of_lt ph.offset.isLt
  simp only [Nat.add_zero, Nat.sub_zero, offset] at wrote holds
  refine ⟨building.wrote wrote small pages, fun passed => ?_⟩
  have zero : result = 0 := by omega
  have length : (file.slice ph.offset ph.filesz).length = ph.filesz := Executable.length_slice
  have written := building.image_wrote isImage (by rwa [length]) (holds zero)
    (by rwa [length]) (by rwa [length])
  intro a below
  rw [written a below, length, Executable.overwrite]
  beta_reduce
  split_ifs with range covered covered
  · exact Executable.getD_slice (by omega)
  · exact absurd range covered
  · exact absurd covered range
  · rfl

theorem wp_loadSegments {off : Uint} (zero : ∀ a, pgroundup sz ≤ a → image a = 0)
    (good : ∀ ph ∈ file.loadsFrom n off, ph.Regular) :
    Wp (Ram.loadSegments layout d file n off sz) (fun result ram' =>
      ∃ size, Building layout live d size start ram' ∧ ∀ top, result = some top → top = size ∧
        ram'.Image d size ((file.loadsFrom n off).foldl file.overwrite image) ∧
        ∀ a, pgroundup size ≤ a → (file.loadsFrom n off).foldl file.overwrite image a = 0)
      stops ram := by
  induction n generalizing off sz ram image with
  | zero =>
    refine ⟨sz, building, fun top same => ?_⟩
    obtain rfl := Option.some.inj same
    exact ⟨rfl, isImage, zero⟩
  | succ n ih =>
    have stopped {ram' : Ram} {size : Nat} (still : Building layout live d size start ram') :
        ∃ size, Building layout live d size start ram' ∧ ∀ top, none = some top → top = size ∧
          ram'.Image d size ((file.loadsFrom (n + 1) off).foldl file.overwrite image) ∧
          ∀ a, pgroundup size ≤ a →
            (file.loadsFrom (n + 1) off).foldl file.overwrite image a = 0 :=
      ⟨size, still, by rintro top ⟨⟩⟩
    rw [Ram.loadSegments, wp_bind, Ram.wp_lift]
    refine wp_read (by decide) fun _ _ => ?_
    rw [wp_ite]
    refine ⟨fun _ => stopped building, fun complete => ?_⟩
    have whole : off.val + proghdrSize ≤ file.size.val := by
      simp only [proghdrSize] at complete ⊢
      split at complete <;> omega
    rw [wp_ite]
    refine ⟨fun other => ?_, fun load => ?_⟩
    · rw [Executable.loadsFrom_of_ne whole other] at good ⊢
      exact ih building isImage zero good
    · have isLoad : (file.proghdr off).type = elfProgLoad := not_not.mp load
      obtain ⟨aligned, small⟩ := good (file.proghdr off) (by
        rw [Executable.loadsFrom_of_eq whole isLoad]
        exact List.mem_cons_self)
      rw [wp_ite]
      refine ⟨fun _ => stopped building, fun larger => ?_⟩
      have order : (file.proghdr off).filesz.val ≤ (file.proghdr off).memsz.val :=
        not_lt.mp larger
      have newsz : ((file.proghdr off).va.plus (file.proghdr off).memsz).val =
          (file.proghdr off).va.val + (file.proghdr off).memsz.val := by
        rw [Uint.val_plus, Nat.mod_eq_of_lt small]
      rw [wp_bind]
      refine (building.wp_allocuvm isImage zero).imp ?_
      rw [newsz]
      rintro size ram₁ (⟨rfl, still⟩ | ⟨rfl, fits, after, isImage₁⟩)
      · rw [if_pos rfl]
        exact stopped still
      rw [wp_ite]
      refine ⟨fun _ => stopped after, fun _ => ?_⟩
      rw [wp_bind]
      refine (after.wp_loaduvm isImage₁ aligned ?_).imp fun result ram₂ loaded => ?_
      · exact le_trans (by omega) (le_max_right _ _)
      rw [wp_ite]
      refine ⟨fun _ => stopped loaded.1, fun passed => ?_⟩
      rw [Executable.loadsFrom_of_eq whole isLoad] at good ⊢
      refine ih loaded.1 (loaded.2 (not_lt.mp passed)) (fun a above => ?_) fun ph member =>
        good ph (List.mem_cons_of_mem _ member)
      have higher : pgroundup sz ≤ a := (pgroundup_mono (le_max_left _ _)).trans above
      have beyond : (file.proghdr off).va.val + (file.proghdr off).memsz.val ≤ a :=
        (le_max_right _ _).trans (le_pgroundup.trans above)
      rw [Executable.overwrite, if_neg fun covered => by have := covered.2; omega, zero a higher]

end

end

end Building

end Xv6
