import Xv6.Fs.Transfer
import Xv6.Lib.Holders
import Xv6.Lib.Transition

/-!
# The inode cache

`iget`, `idup`, `ilock`, `iunlock`, `iput`, `ialloc` and `iupdate` of `fs.c`, called by
any number of processes.  A step is what happens under one hold of `icache.lock`, or one
access to the block of an inode on disk.  Each cache slot also records who holds its
references and its lock, which the source leaves to the callers.
-/

namespace Xv6

abbrev ninode : Nat := 50

abbrev IcacheSlot := Fin ninode

/-- `struct dinode`, and the copy of it in `struct inode`. -/
structure Dinode where
  type : Int
  major : Int
  minor : Int
  nlink : Int
  size : Uint
  addrs : Fin (ndirect + 1) → Uint
  deriving DecidableEq

namespace Dinode

/-- `ialloc`: all fields zero but the type. -/
def fresh (type : Int) : Dinode := ⟨type, 0, 0, 0, 0, fun _ => 0⟩

/-- The fields that `itrunc` clears. -/
def truncated (node : Dinode) : Dinode := { node with size := 0, addrs := fun _ => 0 }

end Dinode

/-- What a process does with the lock of an inode. -/
inductive InodeHold where
  | none
  /-- In `ilock`, about to read the inode unless it is valid. -/
  | load
  /-- `ilock` has returned. -/
  | locked
  /-- In `iput`, about to call `itrunc`. -/
  | trunc
  /-- In `iput`, about to write the type 0. -/
  | free
  /-- In `iput`, about to take `icache.lock` again. -/
  | relock
  deriving DecidableEq

structure CachedInode (Process : Type) where
  dev : Uint
  inum : Uint
  ref : Nat
  busy : Bool
  valid : Bool
  node : Dinode
  /-- The references that each process holds. -/
  refs : Process → Nat
  hold : Process → InodeHold

structure Icache (Process : Type) where
  slot : IcacheSlot → CachedInode Process
  disk : Uint × Uint → Dinode

inductive InodeAction (Process : Type) where
  | iget (p : Process) (dev inum : Uint)
  | idup (p : Process) (i : IcacheSlot)
  | ilock (p : Process) (i : IcacheSlot)
  | iunlock (p : Process) (i : IcacheSlot)
  | iput (p : Process) (i : IcacheSlot)
  /-- A process hands a reference over: a parent to its child (the current directory, the
  open files), or a process to the one that closes a file they share. -/
  | give (p q : Process) (i : IcacheSlot)
  /-- The part of `ialloc` before its call of `iget`: claim a free inode on disk. -/
  | claim (dev inum : Uint) (type : Int)
  /-- A process that holds the lock changes the inode. -/
  | change (p : Process) (i : IcacheSlot) (node : Dinode)
  | iupdate (p : Process) (i : IcacheSlot)
  /-- The next step of a process inside `ilock` or `iput`. -/
  | run (p : Process) (i : IcacheSlot)

inductive InodeStop where
  /-- The step cannot be taken now. -/
  | wait
  | noInodes
  | ilock
  | noType
  | iunlock
  | iputBusy
  deriving DecidableEq

variable {Process : Type}

def CachedInode.key (c : CachedInode Process) : Uint × Uint := (c.dev, c.inum)

namespace Icache

variable [DecidableEq Process]

def set (s : Icache Process) (i : IcacheSlot) (c : CachedInode Process) : Icache Process :=
  { s with slot := Function.update s.slot i c }

def write (s : Icache Process) (key : Uint × Uint) (node : Dinode) : Icache Process :=
  { s with disk := Function.update s.disk key node }

end Icache

namespace CachedInode

variable [DecidableEq Process]

/-- One more reference. -/
def take (c : CachedInode Process) (p : Process) : CachedInode Process :=
  { c with ref := c.ref + 1, refs := Function.update c.refs p (c.refs p + 1) }

/-- One reference less. -/
def drop (c : CachedInode Process) (p : Process) : CachedInode Process :=
  { c with ref := c.ref - 1, refs := Function.update c.refs p (c.refs p - 1) }

/-- A reference changes hands. -/
def give (c : CachedInode Process) (p q : Process) : CachedInode Process :=
  let rest := Function.update c.refs p (c.refs p - 1)
  { c with refs := Function.update rest q (rest q + 1) }

def goto (c : CachedInode Process) (p : Process) (hold : InodeHold) : CachedInode Process :=
  { c with hold := Function.update c.hold p hold }

end CachedInode

namespace Icache

variable [DecidableEq Process]

def iget (s : Icache Process) (p : Process) (dev inum : Uint) :
    Except InodeStop (Icache Process) :=
  match Table.find fun i => decide (0 < (s.slot i).ref ∧ (s.slot i).key = (dev, inum)) with
  | some i => .ok (s.set i ((s.slot i).take p))
  | none =>
    match Table.find fun i => (s.slot i).ref == 0 with
    | none => .error .noInodes
    | some i =>
      .ok (s.set i (({ s.slot i with
        dev := dev, inum := inum, ref := 0, busy := false, valid := false }).take p))

def ilock (s : Icache Process) (p : Process) (i : IcacheSlot) :
    Except InodeStop (Icache Process) :=
  if (s.slot i).ref < 1 then .error .ilock
  else if (s.slot i).busy then .error .wait
  else .ok (s.set i (({ s.slot i with busy := true }).goto p .load))

def iunlock (s : Icache Process) (p : Process) (i : IcacheSlot) :
    Except InodeStop (Icache Process) :=
  if (s.slot i).busy = false ∨ (s.slot i).ref < 1 then .error .iunlock
  else .ok (s.set i (({ s.slot i with busy := false }).goto p .none))

def iput (s : Icache Process) (p : Process) (i : IcacheSlot) :
    Except InodeStop (Icache Process) :=
  let c := s.slot i
  if c.ref = 1 ∧ c.valid = true ∧ c.node.nlink = 0 then
    if c.busy then .error .iputBusy
    else .ok (s.set i (({ c with busy := true }).goto p .trunc))
  else .ok (s.set i (c.drop p))

/-- The rest of `ilock` and `iput`, step by step. -/
def run (s : Icache Process) (p : Process) (i : IcacheSlot) :
    Except InodeStop (Icache Process) :=
  let c := s.slot i
  match c.hold p with
  | .none | .locked => .error .wait
  | .load =>
    if c.valid then .ok (s.set i (c.goto p .locked))
    else if (s.disk c.key).type = 0 then .error .noType
    else .ok (s.set i (({ c with node := s.disk c.key, valid := true }).goto p .locked))
  | .trunc =>
    .ok ((s.set i (({ c with node := c.node.truncated }).goto p .free)).write c.key
      c.node.truncated)
  | .free =>
    .ok ((s.set i (({ c with node := { c.node with type := 0 } }).goto p .relock)).write c.key
      { c.node with type := 0 })
  | .relock =>
    .ok (s.set i ((({ c with busy := false, valid := false }).drop p).goto p .none))

def perform (s : Icache Process) : InodeAction Process → Except InodeStop (Icache Process)
  | .iget p dev inum => s.iget p dev inum
  | .idup p i => .ok (s.set i ((s.slot i).take p))
  | .ilock p i => s.ilock p i
  | .iunlock p i => s.iunlock p i
  | .iput p i => s.iput p i
  | .give p q i => .ok (s.set i ((s.slot i).give p q))
  | .claim dev inum type =>
    if (s.disk (dev, inum)).type = 0 ∧ type ≠ 0 then
      .ok (s.write (dev, inum) (.fresh type))
    else .error .wait
  | .change _ i node => .ok (s.set i { s.slot i with node := node })
  | .iupdate _ i => .ok (s.write (s.slot i).key (s.slot i).node)
  | .run p i => s.run p i

/-- Why an action cannot be completed. -/
def stopped (s : Icache Process) (action : InodeAction Process) : Option InodeStop :=
  match s.perform action with
  | .ok _ => none
  | .error stop => some stop

theorem stopped_eq_some {s : Icache Process} {action : InodeAction Process}
    {stop : InodeStop} : s.stopped action = some stop ↔ s.perform action = .error stop := by
  unfold stopped
  cases s.perform action <;> simp

def step (s : Icache Process) (action : InodeAction Process) : Option (Icache Process) :=
  (s.perform action).toOption

/-- Callers work on inodes they hold a reference to, release and hand over only references
and locks they hold, change an inode only while they hold its lock, and call `iupdate` before they
unlock it. -/
def Rules (s : Icache Process) : InodeAction Process → Prop
  | .iget _ _ _ | .claim _ _ _ | .run _ _ => True
  | .idup p i | .ilock p i | .iput p i | .give p _ i => 0 < (s.slot i).refs p
  | .iunlock p i =>
    (s.slot i).hold p = .locked ∧ s.disk (s.slot i).key = (s.slot i).node
  | .change p i _ | .iupdate p i => (s.slot i).hold p = .locked

instance (s : Icache Process) (action : InodeAction Process) : Decidable (s.Rules action) := by
  apply InodeAction.casesOn (motive := fun action => Decidable (s.Rules action)) action <;>
    intros <;> unfold Rules <;> infer_instance

/-- The process keeps a reference to the slot when it gives one away, if it holds its lock
(the comment of `iput` asks for an unlocked inode). -/
def Spare (s : Icache Process) (p : Process) (i : IcacheSlot) : Prop :=
  (s.slot i).hold p = .none ∨ 1 < (s.slot i).refs p

instance (s : Icache Process) (p : Process) (i : IcacheSlot) : Decidable (s.Spare p i) :=
  inferInstanceAs (Decidable (_ ∨ _))

/-- In addition, callers do not give away their last reference to an inode they hold the
lock of, and leave the type of an inode nonzero. -/
def Careful (s : Icache Process) : InodeAction Process → Prop
  | .iput p i => s.Rules (.iput p i) ∧ s.Spare p i
  | .give p q i => s.Rules (.give p q i) ∧ s.Spare p i
  | .change p i node => s.Rules (.change p i node) ∧ node.type ≠ 0
  | action => s.Rules action

instance (s : Icache Process) (action : InodeAction Process) : Decidable (s.Careful action) := by
  apply InodeAction.casesOn (motive := fun action => Decidable (s.Careful action)) action <;>
    intros <;> unfold Careful <;> infer_instance

/-- At boot the cache is empty. -/
def start (disk : Uint × Uint → Dinode) : Icache Process where
  slot _ := ⟨0, 0, 0, false, false, .fresh 0, fun _ => 0, fun _ => .none⟩
  disk := disk

end Icache

end Xv6
