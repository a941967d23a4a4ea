import Xv6.Kernel.Fork
import Xv6.Vm.Arguments

/-!
# `exec`

`exec` follows its path, holds a reference to the file and its lock until the segments are
loaded, and a new page directory from then on, and has one way out for all failures, which
gives back what it has at that point.
-/

namespace Xv6

open Program Function

/-- `elf.entry`. -/
def Executable.entry (file : Executable) : Uint := file.uint 24

namespace Os

/-! ## Inodes -/

def iget (inum : Nat) : OsProgram Unit := do
  let os ← get
  if os.inodeRef inum = 0 ∧
      ninode ≤ (List.range os.inodes.ninodes).countP (0 < os.inodeRef ·) then throw .noInodes
  idup (some inum)

def ilock (ip : Nat) : OsProgram Unit := do
  let os ← get
  if os.inodeRef ip < 1 then throw .ilock
  if os.inodeBusy ip = true then throw .sleeps
  if os.inodes.valid ip = false ∧ (os.inodes.node ip).type = none then throw .noType
  set { os with
    inodeBusy := update os.inodeBusy ip true
    inodes := { os.inodes with valid := update os.inodes.valid ip true } }

def iunlock (ip : Nat) : OsProgram Unit := do
  let os ← get
  if os.inodeBusy ip = false ∨ os.inodeRef ip < 1 then throw .iunlock
  set { os with inodeBusy := update os.inodeBusy ip false }

/-- `iput` of the last reference to a file without a name: `itrunc`, the type 0 and no
flags. -/
def Inodes.freed (inodes : Inodes) (ip : Nat) : Inodes :=
  { inodes with
    valid := update inodes.valid ip false
    node := update inodes.node ip {}
    data := update inodes.data ip .empty }

def iput (ip : Nat) : OsProgram Unit := do
  let os ← get
  let last := os.inodeRef ip = 1 ∧ os.inodes.valid ip = true ∧ (os.inodes.node ip).nlink = 0
  if last ∧ os.inodeBusy ip = true then throw .iputBusy
  set { os with
    inodeRef := update os.inodeRef ip (os.inodeRef ip - 1)
    inodes := if last then Inodes.freed os.inodes ip else os.inodes }

def iunlockput (ip : Nat) : OsProgram Unit := do
  iunlock ip
  iput ip

/-! ## Paths -/

/-- The elements of a path, as `skipelem` finds them.  Each takes at least one byte. -/
def elements : Nat → FileTree.Path → List FileTree.Name
  | 0, _ => []
  | k + 1, path =>
    match FileTree.skipelem path with
    | none => []
    | some (name, rest) => name :: elements k rest

/-- The loop of `namex` for `namei`. -/
def namex (ip : Nat) : List FileTree.Name → OsProgram (Option Nat)
  | [] => pure (some ip)
  | name :: rest => do
    ilock ip
    let node := (← get).inodes.node ip
    if node.type ≠ some .dir then
      iunlockput ip
      pure none
    else
      match FileTree.dirlookup node.entries name with
      | none =>
        iunlockput ip
        pure none
      | some (_, inum) =>
        iget inum
        iunlockput ip
        namex inum rest

def namei (self : Slot) (path : FileTree.Path) : OsProgram (Option Nat) := do
  if path.head? = some FileTree.slash then
    iget FileTree.rootino
    namex FileTree.rootino (elements path.length path)
  else
    match ((← get).pt.proc self).cwd with
    | none => throw .nullInode
    | some cwd =>
      idup (some cwd)
      namex cwd (elements path.length path)

/-! ## `exec` -/

variable (layout : Layout)

/-- The name that a process gets: what comes after the last slash, cut to the size of the
field. -/
def programName (path : FileTree.Path) : String :=
  let last := (path.reverse.takeWhile (· != FileTree.slash)).reverse
  String.ofList ((last.take 15).map fun byte => Char.ofNat byte.toNat)

/-- The label `bad`, with the page directory and the locked file that `exec` has. -/
def bad (pgdir ip : Option Nat) : OsProgram Int := do
  match pgdir with
  | none => pure ()
  | some pgdir => liftRam (Ram.lift (freevm layout pgdir))
  match ip with
  | none => pure ()
  | some ip => iunlockput ip
  pure (-1)

/-- `exec` from the first `readi` to the return. -/
def execFile (self : Slot) (path : FileTree.Path) (ip : Nat) (file : Executable)
    (args : List Argument) : OsProgram Int := do
  let (result, _) ← liftRam (Ram.lift (file.read 0 0 elfhdrSize))
  if toUint result < elfhdrSize then bad layout none (some ip)
  else if file.magic ≠ elfMagic then bad layout none (some ip)
  else
    match ← liftRam (Ram.lift (setupkvm layout)) with
    | none => bad layout none (some ip)
    | some pgdir =>
      match ← liftRam (Ram.loadSegments layout pgdir file file.phnum file.phoff 0) with
      | none => bad layout (some pgdir) (some ip)
      | some sz =>
        iunlockput ip
        match ← liftRam (Ram.buildStack layout pgdir args sz) with
        | none => bad layout (some pgdir) none
        | some (sz, sp) =>
          let oldpgdir := ((← get).pt.proc self).pgdir
          modifyPt fun pt => pt.exec self
            { pgdir := pgdir, sz := sz, entry := file.entry, sp := sp,
              name := programName path }
          liftRam (Ram.lift (freevm layout oldpgdir))
          pure 0

def exec (self : Slot) (path : FileTree.Path) (args : List Argument) : OsProgram Int := do
  match ← namei self path with
  | none => pure (-1)
  | some ip =>
    ilock ip
    let inodes := (← get).inodes
    if (inodes.node ip).type = some .dev then throw .device
    execFile layout self path ip (inodes.data ip) args

/-! ## What a failure leaves -/

variable {layout} {live : Nat → Prop} {self : Slot} {os os' : Os} {stops : Halt → Prop}
  {ip : Nat} {file : Executable} {ram ram' ram₀ : Ram} {post : Int → Os → Prop}
  {args : List Argument} {d : Nat} {path : FileTree.Path} {inodes : Inodes}

/-- One more reference to an inode. -/
def referring (os : Os) (ip : Nat) : Os :=
  { os with inodeRef := update os.inodeRef ip (os.inodeRef ip + 1) }

/-- The state while a call has an inode locked. -/
def locked (os : Os) (ip : Nat) (ram : Ram) (inodes : Inodes) : Os :=
  { os.referring ip with ram := ram, inodeBusy := update os.inodeBusy ip true, inodes := inodes }

/-- The call waits for a lock, or the inode is one that `exec` cannot use. -/
def Halt.byInode : Halt → Prop
  | .sleeps | .noType | .noInodes | .device => True
  | _ => False

theorem referring_comm (os : Os) (a b : Nat) :
    (os.referring a).referring b = (os.referring b).referring a := by
  simp only [referring, Os.mk.injEq, true_and, and_true]
  funext i
  by_cases first : i = a <;> by_cases second : i = b <;> simp_all [update_apply]

theorem locked_referring (ip inum : Nat) :
    (os.locked ip ram inodes).referring inum = (os.referring inum).locked ip ram inodes := by
  have refs := congrArg Os.inodeRef (referring_comm os ip inum)
  simp only [referring] at refs
  simp only [locked, referring, refs]

theorem wp_ilock {post : Unit → Os → Prop} (opens : os.inodeBusy ip = false → post ()
      (os.locked ip os.ram { inodes with valid := update inodes.valid ip true })) :
    Wp (ilock ip) post Halt.byInode { os.referring ip with inodes := inodes } := by
  simp only [ilock, wp_bind, wp_get, referring, update_self]
  rw [if_neg (by omega), wp_ite]
  refine ⟨fun _ => trivial, fun free => ?_⟩
  rw [wp_ite]
  exact ⟨fun _ => trivial, fun _ => opens (by simpa using free)⟩

section
variable (free : os.inodeBusy ip = false)
include free

theorem wp_iunlockput {post : Unit → Os → Prop}
    (closes : ∀ inodes', post () { os with ram := ram, inodes := inodes' }) :
    Wp (iunlockput ip) post stops (os.locked ip ram inodes) := by
  have held : ¬((os.locked ip ram inodes).inodeBusy ip = false ∨
      (os.locked ip ram inodes).inodeRef ip < 1) := by
    simp [locked, referring]
  have refs : update (os.locked ip ram inodes).inodeRef ip
      ((os.locked ip ram inodes).inodeRef ip - 1) = os.inodeRef := by
    simp [locked, referring]
  have busy : update (os.locked ip ram inodes).inodeBusy ip false = os.inodeBusy := by
    simp only [locked, update_idem]
    rw [← free, update_eq_self]
  simp only [iunlockput, iunlock, iput, wp_bind, wp_get, if_neg held, wp_set, busy, free,
    Bool.false_eq_true, and_false, if_false]
  rw [refs]
  exact closes _

theorem wp_bad_file (ends : ∀ inodes', post (-1) { os with ram := ram, inodes := inodes' }) :
    Wp (bad layout none (some ip)) post stops (os.locked ip ram inodes) := by
  rw [bad, wp_bind]
  exact wp_iunlockput free ends

theorem wp_bad_both (ends : Wp (freevm layout d) (fun _ vm => ∀ inodes',
      post (-1) { os with ram := { ram with toVm := vm }, inodes := inodes' }) (fun _ => False)
      ram.toVm) :
    Wp (bad layout (some d) (some ip)) post stops (os.locked ip ram inodes) := by
  rw [bad, wp_bind, wp_liftRam, Ram.wp_lift]
  refine ends.mono (fun _ vm after => ?_) fun _ => False.elim
  rw [wp_bind]
  exact wp_iunlockput free after

end

/-- What following a path leaves: a reference to what it found, and nothing else. -/
def Walked (os : Os) : Option Nat → Os → Prop
  | none, os' => ∃ inodes, os' = { os with inodes := inodes }
  | some ip, os' => ∃ inodes, os' = { os.referring ip with inodes := inodes }

theorem wp_namex (names : List FileTree.Name) :
    Wp (namex ip names) (Walked os) Halt.byInode { os.referring ip with inodes := inodes } := by
  induction names generalizing ip inodes with
  | nil => exact ⟨inodes, rfl⟩
  | cons name rest ih =>
    rw [namex, wp_bind]
    refine wp_ilock fun free => ?_
    have gives : ∀ inodes', Wp (do iunlockput ip; pure none) (Walked os) Halt.byInode
        (os.locked ip os.ram inodes') := by
      intro inodes'
      rw [wp_bind]
      exact wp_iunlockput free fun inodes'' => ⟨inodes'', rfl⟩
    rw [wp_bind, wp_get, wp_ite]
    refine ⟨fun _ => gives _, fun _ => ?_⟩
    split
    · exact gives _
    next inum _ =>
      simp only [iget, wp_bind, wp_get]
      rw [wp_ite]
      refine ⟨fun _ => trivial, fun _ => ?_⟩
      -- the reference that `dirlookup` takes stays when the directory is given back
      change Wp (iunlockput ip) _ _ (Os.referring (os.locked ip os.ram _) inum)
      rw [locked_referring]
      have unlocked : (os.referring inum).inodeBusy ip = false := free
      exact wp_iunlockput unlocked fun inodes'' => ih

theorem wp_namei (cwd : (os.pt.proc self).cwd ≠ none) :
    Wp (namei self path) (Walked os) Halt.byInode os := by
  rw [namei, wp_ite]
  refine ⟨fun _ => ?_, fun _ => ?_⟩
  · simp only [iget, wp_bind, wp_get]
    rw [wp_ite]
    exact ⟨fun _ => trivial, fun _ => wp_namex _⟩
  · obtain ⟨dir, isDir⟩ := Option.ne_none_iff_exists'.mp cwd
    rw [wp_bind, wp_get, isDir, wp_bind]
    exact wp_namex _

theorem wp_bad_directory (ends : Wp (freevm layout d)
      (fun _ vm => post (-1) { os with ram := { os.ram with toVm := vm } }) (fun _ => False)
      os.ram.toVm) :
    Wp (bad layout (some d) none) post stops os := by
  rw [bad, wp_bind, wp_liftRam, Ram.wp_lift]
  exact ends.mono (fun _ vm after => after) fun _ => False.elim

/-- What a failing `exec` should leave as it was: the processes with their page directories,
sizes, trap frames and names, the contents of user memory, the references and locks of the
inodes, and the pages of user memory.  With enough memory for the page tables, all free
pages are as before. -/
structure Intact (layout : Layout) (live : Nat → Prop) (os os' : Os) : Prop where
  processes : os'.pt = os.pt
  pages : ∀ {d va}, live d → va < 2 ^ 32 → os'.ram.entry d va = os.ram.entry d va
  memory : ∀ {d va}, live d → va < usertop → (os.ram.entry d va).present = true →
    os'.ram.byte (os.ram.entry d va).frame = os.ram.byte (os.ram.entry d va).frame
  inodes : os'.inodeRef = os.inodeRef ∧ os'.inodeBusy = os.inodeBusy
  users : ∀ frame d page, os'.ram.owner frame = some (.user d page) ↔
    os.ram.owner frame = some (.user d page)
  free : Supply layout directoryPages os.ram.toVm → os'.ram.owner = os.ram.owner

theorem intact_of_restored (sound : Sound layout live os.ram.toMemory)
    (restored : Restored layout live os.ram ram') :
    Intact layout live os { os with ram := ram', inodes := inodes } := by
  refine ⟨rfl, restored.entry, fun isLive below present => ?_, ⟨rfl, rfl⟩, ?_, fun _ =>
    restored.owner⟩
  · exact restored.byte (by simp [sound.user_of_present isLive below present])
  · intro frame d page
    simp only [restored.owner]

theorem intact_of_takenDown {d sz : Nat} {vm₁ vm₃ : Vm}
    (sound : Sound layout live os.ram.toMemory) (made : Made layout live d os.ram.toVm vm₁)
    (building : Building layout (fun d' => d' = d ∨ live d') d sz { os.ram with toVm := vm₁ } ram)
    (down : TakenDown layout (fun d' => d' = d ∨ live d') d ram.toVm vm₃) :
    Intact layout live os { os with ram := { ram with toVm := vm₃ }, inodes := inodes } :=
  intact_of_restored sound (restored_of_takenDown sound made building.fits building.grew down)

theorem building_of_made {vm₁ : Vm} (made : Made layout live d ram.toVm vm₁) :
    Building layout (fun d' => d' = d ∨ live d') d 0 { ram with toVm := vm₁ }
      { ram with toVm := vm₁ } :=
  ⟨.inl rfl, fun _ below => made.absent below, made.tables, Nat.zero_le _,
    .refl made.sound rfl le_rfl⟩

theorem intact_of_kept {vm : Vm} (starved : ¬Supply layout directoryPages os.ram.toVm)
    (kept : ∀ d, Kept layout live d os.ram.toVm vm)
    (users : ∀ {frame d page}, vm.owner frame = some (.user d page) →
      os.ram.owner frame = some (.user d page)) :
    Intact layout live os { os with ram := { os.ram with toVm := vm }, inodes := inodes } where
  processes := rfl
  pages {d _} isLive small := (kept (d + 1)).entry isLive (by omega) small
  memory _ _ _ := rfl
  inodes := ⟨rfl, rfl⟩
  users _ _ _ := ⟨users, (kept 0).owner⟩
  free supply := absurd supply starved

/-! ## A program that starts -/

/-- What a successful `exec` leaves. -/
structure Started (self : Slot) (file : Executable) (args : List Argument) (os' : Os) : Prop where
  laidOut : LaidOut (os'.pt.proc self).pgdir (os'.pt.proc self).sz (os'.pt.proc self).tf.esp args
    os'.ram
  large : pgsize ≤ (os'.pt.proc self).sz
  user : os'.ram.UserRange (os'.pt.proc self).pgdir 0 (os'.pt.proc self).sz
  image : ∀ a < (os'.pt.proc self).tf.esp, os'.ram.at (os'.pt.proc self).pgdir a = file.image a

theorem started_of_takenDown {d sz sp : Nat} {vm : Vm} {image : Ptable.Image}
    (building : Building layout live d sz ram₀ ram) (large : pgsize ≤ sz)
    (laid : LaidOut d sz sp args ram) (isImage : ∀ a < sp, ram.at d a = file.image a)
    (down : TakenDown layout live (os.pt.proc self).pgdir ram.toVm vm)
    (different : d ≠ (os.pt.proc self).pgdir) (pgdir : image.pgdir = d) (size : image.sz = sz)
    (pointer : image.sp = sp) :
    Started self file args
      { os with pt := os.pt.exec self image, ram := { ram with toVm := vm } } := by
  have proc : (os.pt.exec self image).proc self =
      { os.pt.proc self with
        name := image.name
        pgdir := d
        sz := sz
        tf := { (os.pt.proc self).tf with eip := image.entry, esp := sp } } := by
    simp [Ptable.exec, Ptable.freevm, Ptable.modify, pgdir, size, pointer]
  have bound := building.fits
  simp only [usertop] at bound
  have entry : ∀ a < sz, vm.entry d a = ram.entry d a := fun a less =>
    down.entry building.isLive different (by omega)
  have le : sp ≤ sz := by
    have := laid.size
    omega
  refine ⟨?_, ?_, ?_, ?_⟩ <;> rw [proc]
  · exact laid.congr entry rfl
  · exact large
  · intro a _ less
    have less : a < sz := by simpa using less
    have all : ram.UserRange d 0 sz := building.userRange (by omega)
    have user := all a (Nat.zero_le _) (by omega)
    rwa [Memory.UserPage, ← entry a less] at user
  · intro a less
    have less : a < sp := less
    rw [← isImage a less, Ram.at, Ram.at]
    exact congrArg (fun pte => ram.byte pte.frame (a % pgsize)) (entry a (by omega))

theorem wp_execFile (caller : Caller layout live os self) (free : os.inodeBusy ip = false)
    (regular : ∀ ph ∈ file.loads, ph.Regular) :
    Wp (execFile layout self path ip file args) (fun result os' =>
      result = -1 ∧ Intact layout live os os' ∨ result = 0 ∧ Started self file args os') stops
      (os.locked ip os.ram inodes) := by
  have sound := caller.space.sound
  have unchanged : ∀ inodes', Intact layout live os { os with ram := os.ram, inodes := inodes' } :=
    fun _ => intact_of_restored sound (.refl sound)
  rw [execFile, wp_bind, wp_liftRam, Ram.wp_lift]
  refine wp_read (by decide) fun _ _ => ?_
  rw [wp_ite]
  refine ⟨fun _ => wp_bad_file free fun _ => .inl ⟨rfl, unchanged _⟩, fun _ => ?_⟩
  rw [wp_ite]
  refine ⟨fun _ => wp_bad_file free fun _ => .inl ⟨rfl, unchanged _⟩, fun _ => ?_⟩
  rw [wp_bind, wp_liftRam, Ram.wp_lift]
  refine wp_setupkvm_exact sound (fun vm same _ => ?_) (fun vm d first starved unused leaked kept
    users => ?_) fun vm₁ d made => ?_
  · refine wp_bad_file free fun _ => .inl ⟨rfl, intact_of_restored sound ?_⟩
    exact ⟨by rwa [same], fun _ => by rw [same], fun _ _ => by rw [same], by rw [same],
      fun _ => rfl⟩
  · exact wp_bad_file free fun _ => .inl ⟨rfl, intact_of_kept starved kept users⟩
  rw [wp_bind, wp_liftRam]
  have image : (file.loadsFrom file.phnum file.phoff).foldl file.overwrite (fun _ => 0) =
      file.image := funext Executable.image_eq_foldl
  refine ((building_of_made made).wp_loadSegments Ram.image_empty (fun _ _ => rfl) regular).imp ?_
  rw [image]
  rintro result ram₂ ⟨size, building, loaded⟩
  cases result with
  | none =>
    refine wp_bad_both free ?_
    refine (wp_freevm_exact building.grew.sound (.inl rfl)).imp fun _ vm₃ down _ => ?_
    exact .inl ⟨rfl, intact_of_takenDown sound made building down⟩
  | some sz =>
    obtain ⟨rfl, isImage, zero⟩ := loaded sz rfl
    rw [wp_bind]
    refine wp_iunlockput free fun _ => ?_
    rw [wp_bind, wp_liftRam]
    refine (building.wp_buildStack isImage zero).imp ?_
    rintro result ram₃ ⟨size, finished, -, stack⟩
    cases result with
    | none =>
      refine wp_bad_directory ?_
      refine (wp_freevm_exact finished.grew.sound (.inl rfl)).imp fun _ vm₃ down => ?_
      exact .inl ⟨rfl, intact_of_takenDown sound made finished down⟩
    | some outcome =>
      obtain ⟨sz', sp⟩ := outcome
      obtain ⟨rfl, isSize, laid, contents⟩ := stack _ rfl
      have different : d ≠ (os.pt.proc self).pgdir := by
        rintro rfl
        have := made.fresh
        simp [sound.directory caller.space.isLive] at this
      rw [wp_bind, wp_get, wp_bind, wp_modifyPt, wp_bind, wp_liftRam, Ram.wp_lift]
      refine (wp_freevm_exact finished.grew.sound (.inr caller.space.isLive)).imp
        fun _ vm₃ down => ?_
      exact .inr ⟨rfl, started_of_takenDown finished (by omega) laid contents
        down different rfl rfl rfl⟩

/-- What `exec` reads when its path leads to an inode. -/
def Opens (os : Os) (self : Slot) (path : FileTree.Path) (file : Executable) : Prop :=
  ∃ ip os₁, (namei self path).run os = .ok (some ip, os₁) ∧ file = os₁.inodes.data ip

theorem wp_exec (caller : Caller layout live os self)
    (regular : ∀ file, os.Opens self path file → ∀ ph ∈ file.loads, ph.Regular) :
    Wp (exec layout self path args) (fun result os' =>
      result = -1 ∧ Intact layout live os os' ∨
      result = 0 ∧ ∃ file, os.Opens self path file ∧ Started self file args os')
      Halt.byInode os := by
  have sound := caller.space.sound
  rw [exec, wp_bind]
  refine (wp_namei caller.cwd).ran.imp ?_
  rintro (_ | ip) os₁ ⟨ran, walked⟩
  · obtain ⟨inodes, rfl⟩ := walked
    exact .inl ⟨rfl, intact_of_restored sound (.refl sound)⟩
  · have opens : os.Opens self path (os₁.inodes.data ip) := ⟨ip, os₁, ran, rfl⟩
    obtain ⟨inodes, rfl⟩ := walked
    rw [wp_bind]
    refine wp_ilock fun free => ?_
    rw [wp_bind, wp_get, wp_ite]
    refine ⟨fun _ => trivial, fun _ => ?_⟩
    refine (wp_execFile caller free (regular _ opens)).imp fun result os' outcome => ?_
    exact outcome.imp_right fun started => ⟨started.1, _, opens, started.2⟩

/-- An `exec` that fails leaves the caller as it was.  If it does not wait for a lock, and
finds no inode that it cannot use, it fails or succeeds. -/
theorem failed_exec_intact (caller : Caller layout live os self)
    (regular : ∀ file, os.Opens self path file → ∀ ph ∈ file.loads, ph.Regular) :
    (∀ os', (exec layout self path args).run os = .ok (-1, os') → Intact layout live os os') ∧
    ((∃ result os', (exec layout self path args).run os = .ok (result, os') ∧
        (result = 0 ∨ result = -1)) ∨
      ∃ stop, (exec layout self path args).run os = .error stop ∧ Halt.byInode stop) := by
  have ends : Wp (exec layout self path args) _ _ os := wp_exec caller regular
  refine ⟨fun os' ran => ?_, ?_⟩
  · rcases ends.ok ran with ⟨-, intact⟩ | ⟨zero, -⟩
    · exact intact
    · exact absurd zero (by decide)
  · cases ran : (exec layout self path args).run os with
    | error stop => exact .inr ⟨stop, rfl, ends.error ran⟩
    | ok outcome =>
      refine .inl ⟨outcome.1, outcome.2, rfl, ?_⟩
      exact (ends.ok ran).elim (fun failed => .inr failed.1) fun started => .inl started.1

/-! ## A disk with one file -/

/-- The path `/sh`. -/
def sh : FileTree.Path := [47, 115, 104]

/-- The file `sh` in the root directory, with the inode number 7. -/
def oneFile (file : Executable) : Inodes where
  node := update (update (fun _ => {}) FileTree.rootino
    { type := some .dir, nlink := 1, entries := [⟨7, [115, 104]⟩] }) 7
    { type := some .file, nlink := 1 }
  data := update (fun _ => .empty) 7 file

/-- The directory has been read. -/
def searched (file : Executable) : Inodes :=
  { oneFile file with valid := update (fun _ => false) FileTree.rootino true }

/-- A process that runs on this disk. -/
def withProgram (pgdir sz : Nat) (ram : Ram) (file : Executable) : Os :=
  { withSize 0 pgdir sz ram with inodes := oneFile file }

section
variable {sz : Nat}

theorem caller_withProgram (space : AddressSpace layout live ram.toMemory d sz)
    (fits : sz ≤ usertop) : Caller layout live (withProgram d sz ram file) 0 := by
  have caller : Caller layout live (withSize 0 d sz ram) 0 := caller_withSize space fits
  obtain ⟨space, bound, used, held, cwd, pids⟩ := caller
  exact ⟨space, bound, used, held, cwd, pids⟩

theorem namei_sh : (namei 0 sh).run (withProgram d sz ram file) =
    .ok (some 7, { (withProgram d sz ram file).referring 7 with inodes := searched file }) := by
  obtain ⟨os₁, ran, refs, busy, rest⟩ : ∃ os₁ : Os,
      (namei 0 sh).run (withProgram d sz ram file) = .ok (some 7, os₁) ∧
      os₁.inodeRef = update (update (update (fun _ => 0) 1 1) 7 1) 1 0 ∧
      os₁.inodeBusy = update (update (fun _ => false) 1 true) 1 false ∧
      os₁ = { withProgram d sz ram file with inodeRef := os₁.inodeRef
                                             inodeBusy := os₁.inodeBusy
                                             inodes := searched file } :=
    ⟨_, rfl, rfl, rfl, rfl⟩
  rw [ran, rest, refs, busy, update_idem, update_eq_self, update_comm (by decide), update_idem,
    update_eq_self]
  rfl

theorem opens_sh {file' : Executable} :
    (withProgram d sz ram file).Opens 0 sh file' ↔ file' = file := by
  constructor
  · rintro ⟨ip, os₁, ran, rfl⟩
    cases namei_sh.symm.trans ran
    rfl
  · rintro rfl
    exact ⟨7, _, namei_sh, rfl⟩

theorem wp_exec_sh (runs : ∀ inodes, Wp (execFile layout 0 sh 7 file args) post stops
      ((withProgram d sz ram file).locked 7 ram inodes)) :
    Wp (exec layout 0 sh args) post stops (withProgram d sz ram file) := by
  rw [exec, wp_bind, Wp, namei_sh]
  exact runs { searched file with valid := update (searched file).valid 7 true }

end

/-- A file that is too short to have a header. -/
theorem failed_exec_intact_short : ∃ (live : Nat → Prop) (ram : Ram) (d : Nat),
    AddressSpace smallLayout live ram.toMemory d pgsize ∧
    ∃ os', (exec smallLayout 0 sh []).run (withProgram d pgsize ram .empty) =
        .ok (-1, os') ∧
      Intact smallLayout live (withProgram d pgsize ram .empty) os' := by
  obtain ⟨live, ram, d, space, -⟩ := exists_addressSpace_of_size pgsize (by decide)
  have short : Wp (exec smallLayout 0 sh []) (fun result _ => result = -1) (fun _ => False)
      (withProgram d pgsize ram .empty) := by
    have unlocked : (withProgram d pgsize ram .empty).inodeBusy 7 = false := rfl
    refine wp_exec_sh fun inodes => ?_
    rw [execFile, wp_bind, wp_liftRam, Ram.wp_lift]
    refine wp_read (by decide) fun _ _ => ?_
    rw [wp_ite]
    exact ⟨fun _ => wp_bad_file unlocked fun _ => rfl, fun enough => absurd (by decide) enough⟩
  obtain ⟨result, os', ran, rfl⟩ := short.ends
  refine ⟨live, ram, d, space, os', ran, (failed_exec_intact (caller_withProgram space (by decide))
    fun file opens => ?_).1 os' ran⟩
  rw [opens_sh.mp opens]
  simp [Executable.empty, Executable.loads, Executable.phnum, Executable.slice, leValue,
    Executable.loadsFrom]

end Os

end Xv6
