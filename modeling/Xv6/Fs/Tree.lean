import Xv6.Lib.Transition

/-!
# The directory tree and the system calls on it

The system calls of `sysfile.c` that change or follow the directory tree, with `namex`,
`dirlookup`, `dirlink`, `ialloc` and `iput` of `fs.c`, run by any number of processes.  A
step is what a process does between two points at which an inode lock is taken or a
reference is dropped: `ilock` is a step of its own, and so is the critical section up to
the next `ilock` or `iput`.

An inode is its number, with the type, the link count and the entries of the directory.
The copy in the inode cache and the one on the disk agree outside of the critical sections,
since every change is followed by `iupdate`; `valid` is the flag `I_VALID`.  The number of
references `ip->ref` is the number of places at which processes hold the inode.  The
numbers of inodes fit in the entries of the directories.

A full disk, a full directory and a full inode cache stop the machine.  They are left out,
so that a run of the machine is a run of the model up to this point.
-/

namespace Xv6.FileTree

open Function

/-- `T_DIR`, `T_FILE` and `T_DEV`. -/
inductive FileType where
  | dir
  | file
  | dev
  deriving DecidableEq, Repr

/-- A path element, cut to `DIRSIZ` bytes. -/
abbrev Name := List UInt8

abbrev Path := List UInt8

def dirsiz : Nat := 14

def slash : UInt8 := 47

def dot : Name := [46]

def dotdot : Name := [46, 46]

/-- `skipelem`: the next path element and the path after it. -/
def skipelem (path : Path) : Option (Name × Path) :=
  match path.dropWhile (· == slash) with
  | [] => none
  | byte :: rest =>
    let s := byte :: rest
    some ((s.takeWhile (· != slash)).take dirsiz,
      (s.dropWhile (· != slash)).dropWhile (· == slash))

/-- A directory entry.  It is free if the inode number is zero. -/
structure Dirent where
  inum : Nat
  name : Name
  deriving DecidableEq, Repr

/-- An entry that `sys_unlink` has cleared. -/
def Dirent.zero : Dirent := ⟨0, []⟩

/-- An inode; `type` is `none` if it is free. -/
structure Node where
  type : Option FileType := none
  nlink : Int := 0
  entries : List Dirent := []
  deriving DecidableEq, Repr

abbrev Nodes := Nat → Node

def rootino : Nat := 1

/-- A value stored in a `short`. -/
def toShort (value : Int) : Int := (value + 2 ^ 15) % 2 ^ 16 - 2 ^ 15

/-! ## Directories -/

/-- The entry has the name. -/
def Dirent.names (entry : Dirent) (name : Name) : Bool :=
  entry.inum != 0 && entry.name == name

/-- `dirlookup`: the slot of a name and the inode number in it. -/
def dirlookup (entries : List Dirent) (name : Name) : Option (Nat × Nat) :=
  match entries.findIdx? (·.names name) with
  | none => none
  | some off => some (off, (entries.getD off .zero).inum)

/-- The end of `dirlink`: use the first free slot, or a new one. -/
def addEntry (entries : List Dirent) (entry : Dirent) : List Dirent :=
  match entries with
  | [] => [entry]
  | first :: rest => if first.inum = 0 then entry :: rest else first :: addEntry rest entry

def isdirempty (entries : List Dirent) : Bool := (entries.drop 2).all (·.inum == 0)

namespace Node

def setNlink (node : Node) (nlink : Int) : Node := { node with nlink := toShort nlink }

def setEntries (node : Node) (entries : List Dirent) : Node := { node with entries := entries }

end Node

/-- `dirlink`, if the name is not there yet. -/
def dirlink (node : Nodes) (dp : Nat) (name : Name) (inum : Nat) : Nodes :=
  Function.update node dp ((node dp).setEntries (addEntry (node dp).entries ⟨inum, name⟩))

def setNlink (node : Nodes) (ip : Nat) (nlink : Int) : Nodes :=
  Function.update node ip ((node ip).setNlink nlink)

@[simp] theorem setNlink_type (node : Nodes) (ip : Nat) (nlink : Int) (i : Nat) :
    (setNlink node ip nlink i).type = (node i).type := by
  by_cases here : i = ip <;> simp [setNlink, Node.setNlink, update_apply, here]

@[simp] theorem setNlink_entries (node : Nodes) (ip : Nat) (nlink : Int) (i : Nat) :
    (setNlink node ip nlink i).entries = (node i).entries := by
  by_cases here : i = ip <;> simp [setNlink, Node.setNlink, update_apply, here]

@[simp] theorem dirlink_type (node : Nodes) (dp : Nat) (name : Name) (inum i : Nat) :
    (dirlink node dp name inum i).type = (node i).type := by
  by_cases here : i = dp <;> simp [dirlink, Node.setEntries, update_apply, here]

@[simp] theorem dirlink_nlink (node : Nodes) (dp : Nat) (name : Name) (inum i : Nat) :
    (dirlink node dp name inum i).nlink = (node i).nlink := by
  by_cases here : i = dp <;> simp [dirlink, Node.setEntries, update_apply, here]

theorem mem_addEntry {entries : List Dirent} {entry e : Dirent}
    (member : e ∈ addEntry entries entry) : e ∈ entries ∨ e = entry := by
  induction entries with
  | nil => exact .inr (List.mem_singleton.mp member)
  | cons first rest ih =>
    rw [addEntry] at member
    split_ifs at member
    · rcases List.mem_cons.mp member with rfl | member
      · exact .inr rfl
      · exact .inl (List.mem_cons_of_mem _ member)
    · rcases List.mem_cons.mp member with rfl | member
      · exact .inl List.mem_cons_self
      · exact (ih member).imp_left (List.mem_cons_of_mem _)

theorem mem_dirlink {node : Nodes} {dp inum i : Nat} {name : Name} {e : Dirent}
    (member : e ∈ (dirlink node dp name inum i).entries) :
    e ∈ (node i).entries ∨ i = dp ∧ e = ⟨inum, name⟩ := by
  by_cases here : i = dp
  · subst here
    simp only [dirlink, Node.setEntries, update_self] at member
    exact (mem_addEntry member).imp_right fun same => ⟨rfl, same⟩
  · rw [dirlink, update_of_ne here] at member
    exact .inl member

/-! ## Processes -/

/-- What a path is followed for.  The last three ask for the parent of the last element. -/
inductive Goal where
  | open (rdonly : Bool)
  | exec
  | chdir
  | link (new : Path)
  | linkTo (target : Nat)
  | unlink
  | create (type : FileType)
  deriving DecidableEq, Repr

/-- What a process does with an inode when it has locked it. -/
inductive Job where
  /-- One element of `namex`. -/
  | walk (goal : Goal) (path : Path)
  /-- `sys_open` after `namei`. -/
  | open (rdonly : Bool)
  /-- `sys_chdir` after `namei`. -/
  | chdir
  /-- `fileread`, `filewrite` and `filestat`. -/
  | use
  /-- `iunlockput`, after what does not change the tree. -/
  | put
  /-- `sys_link`: the inode is the one to link to. -/
  | link (new : Path)
  /-- `sys_link`: the inode is the directory. -/
  | linkAt (name : Name) (target : Nat)
  /-- `sys_link`: the directory has the name. -/
  | linkFailed (target : Nat)
  /-- `sys_link`: take the link count back. -/
  | linkBad
  /-- `sys_unlink`: the inode is the directory. -/
  | unlinkAt (name : Name)
  /-- `sys_unlink`: the inode is the one in slot `off` of the locked directory `dp`. -/
  | unlinkIn (dp off : Nat)
  /-- `sys_unlink`: the entry is cleared. -/
  | unlinked
  /-- `create`: the inode is the directory. -/
  | createAt (type : FileType) (name : Name)
  /-- `create`: the name was there. -/
  | existing (type : FileType)
  /-- `create`: the inode is the new one, `dp` is locked. -/
  | createIn (type : FileType) (dp : Nat) (name : Name)
  /-- `create` has returned. -/
  | created (type : FileType)
  deriving DecidableEq, Repr

inductive Pc where
  | idle
  /-- In `ilock`. -/
  | locking (ip : Nat) (job : Job)
  /-- After `ilock`. -/
  | locked (ip : Nat) (job : Job)
  deriving DecidableEq, Repr

/-- A process; `drops` are the references that it gives back with `iput` before it goes on. -/
structure Proc where
  cwd : Option Nat
  files : List Nat := []
  drops : List Nat := []
  pc : Pc := .idle
  deriving DecidableEq, Repr

namespace Goal

def refs : Goal → List Nat
  | linkTo target => [target]
  | _ => []

/-- `namei` has returned `ip`. -/
def found (ip : Nat) : Goal → Pc
  | .open rdonly => .locking ip (.open rdonly)
  | exec => .locking ip .put
  | chdir => .locking ip .chdir
  | link new => .locking ip (.link new)
  | _ => .idle

/-- `nameiparent` has returned `dp`. -/
def foundParent (dp : Nat) (name : Name) : Goal → Pc
  | linkTo target => .locking dp (.linkAt name target)
  | unlink => .locking dp (.unlinkAt name)
  | create type => .locking dp (.createAt type name)
  | _ => .idle

/-- `namex` has returned 0. -/
def failed : Goal → Pc
  | linkTo target => .locking target .linkBad
  | _ => .idle

/-- The goal asks for the parent of the last element. -/
def wantsParent : Goal → Bool
  | linkTo _ | unlink | create _ => true
  | _ => false

end Goal

namespace Proc

/-- The head of the loop in `namex`, with a reference to `ip`. -/
def enter (me : Proc) (goal : Goal) (ip : Nat) (path : Path) : Proc :=
  match skipelem path with
  | some _ => { me with pc := .locking ip (.walk goal path) }
  | none =>
    if goal.wantsParent then { me with pc := goal.failed, drops := ip :: me.drops }
    else { me with pc := goal.found ip }

/-- The start of `namex`. -/
def namex (me : Proc) (goal : Goal) (path : Path) : Proc :=
  me.enter goal (if path.head? = some slash then rootino else me.cwd.getD rootino) path

/-- The process unlocks `ip`, drops it and leaves the call. -/
def leave (me : Proc) (ip : Nat) : Proc := { me with pc := .idle, drops := [ip] }

end Proc

namespace Job

/-- The references that the process holds in a call, with the one to `ip`. -/
def refs (ip : Nat) : Job → List Nat
  | walk goal _ => ip :: goal.refs
  | use => []
  | linkAt _ target => [ip, target]
  | linkFailed target => [ip, target]
  | unlinkIn dp _ => [ip, dp]
  | createIn _ dp _ => [ip, dp]
  | _ => [ip]

/-- The inodes that stay locked while the process waits for the next one. -/
def locks : Job → List Nat
  | unlinkIn dp _ => [dp]
  | createIn _ dp _ => [dp]
  | _ => []

end Job

namespace Pc

def refs : Pc → List Nat
  | idle => []
  | locking ip job | locked ip job => job.refs ip

/-- The inodes whose `I_BUSY` the process holds. -/
def locks : Pc → List Nat
  | idle => []
  | locking _ job => job.locks
  | locked ip job => ip :: job.locks

end Pc

/-- The references of a process. -/
def Proc.held (me : Proc) : List Nat := me.cwd.toList ++ me.files ++ me.drops ++ me.pc.refs

/-! ## Critical sections -/

inductive Panic where
  | noType
  | notDir
  | nlink
  | createDots
  | createDirlink
  deriving DecidableEq, Repr

/-- What a critical section leads to.  It is not enabled if `ialloc` has not found `fresh`. -/
inductive Result where
  | next (node : Nodes) (me : Proc)
  | panic (why : Panic)
  | disabled

namespace Job

/-- `fileclose` and `filealloc` with a file for `ip`; `room` says whether there is one. -/
def openFile (me : Proc) (ip : Nat) (room : Bool) : Proc :=
  if room then { me with pc := .idle, files := ip :: me.files } else me.leave ip

/-- An element of `namex`. -/
def walkBody (node : Nodes) (me : Proc) (ip : Nat) (goal : Goal) (path : Path) : Result :=
  if (node ip).type ≠ some .dir then .next node { me with pc := goal.failed, drops := [ip] }
  else
    match skipelem path with
    | none => .disabled
    | some (name, rest) =>
      if goal.wantsParent && rest.isEmpty then
        .next node { me with pc := goal.foundParent ip name }
      else
        match dirlookup (node ip).entries name with
        | none => .next node { me with pc := goal.failed, drops := [ip] }
        | some (_, next) => .next node ({ me with drops := [ip] }.enter goal next rest)

/-- `sys_unlink` from `dirlookup` on. -/
def unlinkAtBody (node : Nodes) (me : Proc) (dp : Nat) (name : Name) : Result :=
  if name = dot ∨ name = dotdot then .next node (me.leave dp)
  else if (node dp).type ≠ some .dir then .panic .notDir
  else
    match dirlookup (node dp).entries name with
    | none => .next node (me.leave dp)
    | some (off, ip) => .next node { me with pc := .locking ip (.unlinkIn dp off) }

/-- `sys_unlink` with both inodes locked. -/
def unlinkInBody (node : Nodes) (me : Proc) (ip dp off : Nat) : Result :=
  if (node ip).nlink < 1 then .panic .nlink
  else if (node ip).type = some .dir ∧ ¬isdirempty (node ip).entries then
    .next node { me with pc := .locked dp .put, drops := [ip] }
  else
    let cleared := Function.update node dp
      ((node dp).setEntries ((node dp).entries.set off .zero))
    let node' := if (node ip).type = some .dir then setNlink cleared dp ((cleared dp).nlink - 1)
      else cleared
    .next node' { me with pc := .locked ip .unlinked, drops := [dp] }

/-- `sys_link` with the directory locked. -/
def linkAtBody (node : Nodes) (me : Proc) (dp : Nat) (name : Name) (target : Nat) : Result :=
  if (node dp).type ≠ some .dir then .panic .notDir
  else
    match dirlookup (node dp).entries name with
    | some (_, found) =>
      .next node { me with pc := .locked dp (.linkFailed target), drops := [found] }
    | none => .next (dirlink node dp name target) { me with pc := .idle, drops := [dp, target] }

/-- `create` with the directory locked. -/
def createAtBody (node : Nodes) (me : Proc) (dp : Nat) (type : FileType) (name : Name)
    (ninodes fresh : Nat) : Result :=
  if (node dp).type ≠ some .dir then .panic .notDir
  else
    match dirlookup (node dp).entries name with
    | some (_, ip) => .next node { me with pc := .locking ip (.existing type), drops := [dp] }
    | none =>
      -- `ialloc`
      if 0 < fresh ∧ fresh < ninodes ∧ (node fresh).type = none then
        .next (Function.update node fresh ⟨some type, 0, []⟩)
          { me with pc := .locking fresh (.createIn type dp name) }
      else .disabled

/-- `create` with both inodes locked. -/
def createInBody (node : Nodes) (me : Proc) (ip : Nat) (type : FileType) (dp : Nat)
    (name : Name) : Result :=
  let counted := setNlink node ip 1
  let me := { me with pc := .locked ip (.created type), drops := [dp] }
  if type = .dir then
    let raised := setNlink counted dp ((counted dp).nlink + 1)
    if (dirlookup (raised ip).entries dot).isSome then .panic .createDots
    else
      let dotted := dirlink raised ip dot ip
      if (dirlookup (dotted ip).entries dotdot).isSome then .panic .createDots
      else
        let dots := dirlink dotted ip dotdot dp
        if (dirlookup (dots dp).entries name).isSome then .panic .createDirlink
        else .next (dirlink dots dp name ip) me
  else if (dirlookup (counted dp).entries name).isSome then .panic .createDirlink
  else .next (dirlink counted dp name ip) me

/-- The critical section of a process that has locked `ip`. -/
def body (ninodes fresh : Nat) (room : Bool) (node : Nodes) (me : Proc) (ip : Nat) : Job → Result
  | walk goal path => walkBody node me ip goal path
  | .open rdonly =>
    if (node ip).type = some .dir ∧ ¬rdonly then .next node (me.leave ip)
    else .next node (openFile me ip room)
  | chdir =>
    if (node ip).type ≠ some .dir then .next node (me.leave ip)
    else .next node { me with pc := .idle, cwd := some ip, drops := me.cwd.toList }
  | use => .next node { me with pc := .idle }
  | put => .next node (me.leave ip)
  | link new =>
    if (node ip).type = some .dir then .next node (me.leave ip)
    else .next (setNlink node ip ((node ip).nlink + 1)) (me.namex (.linkTo ip) new)
  | linkAt name target => linkAtBody node me ip name target
  | linkFailed target => .next node { me with pc := .locking target .linkBad, drops := [ip] }
  | linkBad => .next (setNlink node ip ((node ip).nlink - 1)) (me.leave ip)
  | unlinkAt name => unlinkAtBody node me ip name
  | unlinkIn dp off => unlinkInBody node me ip dp off
  | unlinked => .next (setNlink node ip ((node ip).nlink - 1)) (me.leave ip)
  | createAt type name => createAtBody node me ip type name ninodes fresh
  | existing type =>
    if type = .file ∧ (node ip).type = some .file then .next node (openFile me ip room)
    else .next node (me.leave ip)
  | createIn type dp name => createInBody node me ip type dp name
  | created type =>
    if type = .file then .next node (openFile me ip room) else .next node (me.leave ip)

end Job

/-! ## Steps -/

/-- A system call; `close` and `use` name an open file by its place. -/
inductive Call where
  | open (path : Path) (create rdonly : Bool)
  | mkdir (path : Path)
  | mknod (path : Path)
  | link (old new : Path)
  | unlink (path : Path)
  | chdir (path : Path)
  | exec (path : Path)
  | use (file : Nat)
  | close (file : Nat)
  | exit
  deriving DecidableEq, Repr

/-- The process enters a system call. -/
def Proc.call (me : Proc) : Call → Proc
  | .open path create rdonly =>
    me.namex (if create then .create .file else .open rdonly) path
  | .mkdir path => me.namex (.create .dir) path
  | .mknod path => me.namex (.create .dev) path
  | .link old new => me.namex (.link new) old
  | .unlink path => me.namex .unlink path
  | .chdir path => me.namex .chdir path
  | .exec path => me.namex .exec path
  | .use file =>
    match me.files[file]? with
    | none => me
    | some ip => { me with pc := .locking ip .use }
  | .close file =>
    match me.files[file]? with
    | none => me
    | some ip => { me with files := me.files.eraseIdx file, drops := [ip] }
  | .exit => { me with cwd := none, files := [], drops := me.files ++ me.cwd.toList }

structure State (Pid : Type) where
  node : Nodes
  valid : Nat → Bool
  procs : Pid → Proc
  stop : Option Panic

/-- A step of process `p`.  In `run`, `fresh` is the inode that `ialloc` finds, and `room`
says whether there is a free file. -/
inductive Action (Pid : Type) where
  | call (p : Pid) (request : Call)
  | lock (p : Pid)
  | run (p : Pid) (fresh : Nat) (room : Bool)
  | drop (p : Pid)

namespace State

variable {Pid : Type} [Fintype Pid] [DecidableEq Pid]

/-- `ip->ref` -/
def refs (s : State Pid) (i : Nat) : Nat := ∑ p, (s.procs p).held.count i

/-- `I_BUSY` -/
def Busy (s : State Pid) (i : Nat) : Prop := ∃ p, i ∈ (s.procs p).pc.locks

instance (s : State Pid) (i : Nat) : Decidable (s.Busy i) :=
  inferInstanceAs (Decidable (∃ p, i ∈ (s.procs p).pc.locks))

def setProc (s : State Pid) (p : Pid) (me : Proc) : State Pid :=
  { s with procs := Function.update s.procs p me }

/-- `ilock` when the inode is not busy.  A free inode stops the machine. -/
def ilock (s : State Pid) (p : Pid) (ip : Nat) (job : Job) : State Pid :=
  { s.setProc p { s.procs p with pc := .locked ip job } with
    valid := Function.update s.valid ip true
    stop := if s.valid ip = false ∧ (s.node ip).type = none then some .noType else none }

/-- The end of `iput`, when the process no longer holds the reference. -/
def iput (s : State Pid) (i : Nat) : State Pid :=
  if s.refs i = 0 then
    { s with
      node := if s.valid i ∧ (s.node i).nlink = 0 then
        Function.update s.node i ⟨none, (s.node i).nlink, []⟩ else s.node
      valid := Function.update s.valid i false }
  else s

def step (ninodes : Nat) (s : State Pid) (action : Action Pid) : Option (State Pid) :=
  if s.stop.isSome then none
  else
    match action with
    | .call p request =>
      if (s.procs p).pc = .idle ∧ (s.procs p).drops = [] ∧ (s.procs p).cwd.isSome then
        some (s.setProc p ((s.procs p).call request))
      else none
    | .lock p =>
      match (s.procs p).pc with
      | .locking ip job =>
        if (s.procs p).drops = [] ∧ ¬s.Busy ip then some (s.ilock p ip job) else none
      | _ => none
    | .run p fresh room =>
      match (s.procs p).pc with
      | .locked ip job =>
        if (s.procs p).drops = [] then
          match job.body ninodes fresh room s.node (s.procs p) ip with
          | .next node me => some { s.setProc p me with node := node }
          | .panic why => some { s with stop := some why }
          | .disabled => none
        else none
      | _ => none
    | .drop p =>
      match (s.procs p).drops with
      | [] => none
      | i :: rest => some ((s.setProc p { s.procs p with drops := rest }).iput i)

/-- The steps, with what enables each of them. -/
inductive Step (ninodes : Nat) (s : State Pid) : Action Pid → State Pid → Prop where
  | call {p : Pid} {request : Call} :
      (s.procs p).pc = .idle → (s.procs p).drops = [] →
      Step ninodes s (.call p request) (s.setProc p ((s.procs p).call request))
  | lock {p : Pid} {ip : Nat} {job : Job} :
      (s.procs p).pc = .locking ip job → (s.procs p).drops = [] → ¬s.Busy ip →
      Step ninodes s (.lock p) (s.ilock p ip job)
  | run {p : Pid} {ip fresh : Nat} {room : Bool} {job : Job} {node : Nodes} {me : Proc} :
      (s.procs p).pc = .locked ip job → (s.procs p).drops = [] →
      job.body ninodes fresh room s.node (s.procs p) ip = .next node me →
      Step ninodes s (.run p fresh room) { s.setProc p me with node := node }
  | panic {p : Pid} {ip fresh : Nat} {room : Bool} {job : Job} {why : Panic} :
      (s.procs p).pc = .locked ip job → (s.procs p).drops = [] →
      job.body ninodes fresh room s.node (s.procs p) ip = .panic why →
      Step ninodes s (.run p fresh room) { s with stop := some why }
  | drop {p : Pid} {i : Nat} {rest : List Nat} :
      (s.procs p).drops = i :: rest →
      Step ninodes s (.drop p) ((s.setProc p { s.procs p with drops := rest }).iput i)

theorem Step.of_step {ninodes : Nat} {s s' : State Pid} {action : Action Pid}
    (taken : s.step ninodes action = some s') : s.stop = none ∧ Step ninodes s action s' := by
  unfold step at taken
  split_ifs at taken with stopped
  refine ⟨by simpa using stopped, ?_⟩
  cases action with
  | call p request =>
    simp only [Option.ite_none_right_eq_some, Option.some.injEq] at taken
    obtain ⟨⟨idle, none, _⟩, rfl⟩ := taken
    exact .call idle none
  | lock p =>
    simp only at taken
    split at taken
    next ip job here =>
      simp only [Option.ite_none_right_eq_some, Option.some.injEq] at taken
      obtain ⟨⟨none, free⟩, rfl⟩ := taken
      exact .lock here none free
    · simp at taken
  | run p fresh room =>
    simp only at taken
    split at taken
    next ip job here =>
      split_ifs at taken with none
      split at taken
      next node me result =>
        obtain rfl := Option.some.inj taken
        exact .run here none result
      next why result =>
        obtain rfl := Option.some.inj taken
        exact .panic here none result
      · simp at taken
    · simp at taken
  | drop p =>
    simp only at taken
    split at taken
    · simp at taken
    next i rest here =>
      obtain rfl := Option.some.inj taken
      exact .drop here

omit [DecidableEq Pid] in
theorem refs_eq_zero {s : State Pid} {i : Nat} : s.refs i = 0 ↔ ∀ p, i ∉ (s.procs p).held := by
  simp [refs, Finset.sum_eq_zero_iff, List.count_eq_zero]

/-- The machine after booting: no inode is in use, and every process is in the root. -/
def start (image : Nodes) : State Pid :=
  { node := image, valid := fun _ => false, procs := fun _ => ⟨some rootino, [], [], .idle⟩,
    stop := none }

/-- An image that holds the root directory only. -/
def rootOnly : Nodes := fun i =>
  if i = rootino then ⟨some .dir, 1, [⟨rootino, dot⟩, ⟨rootino, dotdot⟩]⟩ else {}

/-- Process `p` waits in `ilock` for an inode that process `q` has locked. -/
def Waits (s : State Pid) (p q : Pid) : Prop :=
  ∃ ip job, (s.procs p).pc = .locking ip job ∧ ip ∈ (s.procs q).pc.locks

end State

end Xv6.FileTree
