import Xv6.Kernel.Proc
import Xv6.Lib.LinkedRing
import Xv6.Lib.Transition

/-!
# The buffer cache

`bio.c` with the queue of the disk driver in `ide.c`.  Any number of processes call
`bread`, `bwrite` and `brelse`, and each of them can be killed, and so be woken, at any
moment.  What is done under `bcache.lock` or `idelock` is one step: the flags of a busy
buffer are changed only by its holder and, while that sleeps in `iderw`, by `ideintr`, so
that the two locks do not get in each other's way.

The disk carries out one command at a time and raises an interrupt when it is done.  It
is addressed through a function of the device and the sector number.
-/

namespace Xv6

/-- Size of the disk block cache. -/
abbrev nbuf : Nat := 10

/-- A buffer, by its place in `bcache.buf`. -/
abbrev BufIndex := Fin nbuf

/-- `struct buf`, with the flags `B_BUSY`, `B_VALID` and `B_DIRTY`. -/
structure Buf (Data : Type) where
  busy : Bool
  valid : Bool
  dirty : Bool
  dev : Uint
  sector : Uint
  data : Data

/-- The device and the sector of a buffer. -/
def Buf.key {Data : Type} (buf : Buf Data) : Uint × Uint := (buf.dev, buf.sector)

/-- The test at the end of `iderw`. -/
def Buf.Synced {Data : Type} (buf : Buf Data) : Prop := buf.valid = true ∧ buf.dirty = false

instance {Data : Type} (buf : Buf Data) : Decidable buf.Synced :=
  inferInstanceAs (Decidable (_ ∧ _))

/-- The calls that call `iderw`. -/
inductive DiskCall where
  | bread (dev sector : Uint)
  | bwrite
  deriving DecidableEq

/-- Where a process is. -/
inductive BufPc where
  | idle
  /-- At `loop` in `bget`, or asleep on a buffer. -/
  | bget (dev sector : Uint) (chan : Option BufIndex)
  /-- Before `iderw`. -/
  | iderw (b : BufIndex) (call : DiskCall)
  /-- In the loop of `iderw`, asleep or about to test the flags. -/
  | wait (b : BufIndex) (call : DiskCall) (asleep : Bool)
  /-- About to return. -/
  | returning (b : BufIndex) (call : DiskCall)
  deriving DecidableEq

/-- `wakeup(b)`, for one process. -/
def BufPc.wake (b : BufIndex) : BufPc → BufPc
  | .bget dev sector (some chan) => .bget dev sector (if chan = b then none else some chan)
  | .wait chan call asleep => .wait chan call (asleep && decide (chan ≠ b))
  | pc => pc

/-- A process that is killed is woken. -/
def BufPc.awake : BufPc → BufPc
  | .bget dev sector _ => .bget dev sector none
  | .wait b call _ => .wait b call false
  | pc => pc

/-- The disk: idle, carrying out a command, or done, with the data of a read. -/
inductive Drive (Addr Data : Type) where
  | idle
  | reading (addr : Addr)
  | writing (addr : Addr) (data : Data)
  | ready (data : Option Data)

/-- The command that `idestart` gives to the disk. -/
def Buf.command {Addr Data : Type} (buf : Buf Data) (address : Uint × Uint → Addr) :
    Drive Addr Data :=
  if buf.dirty then .writing (address buf.key) buf.data else .reading (address buf.key)

/-- The buffer cache, the disk and the processes.  `held` are the buffers that `bget`
returned and that were not released, `unsaved` those changed since the last `bwrite`, and
`written` what was written by the calls of `bwrite` that have returned, the last first. -/
structure Bcache (Process Addr Data : Type) where
  buf : BufIndex → Buf Data
  ring : LinkedRing BufIndex
  idequeue : List BufIndex
  drive : Drive Addr Data
  disk : Addr → Data
  pc : Process → BufPc
  held : Process → Finset BufIndex
  unsaved : Finset BufIndex
  written : List ((Uint × Uint) × Data)

/-- `run` lets a process go on in the function that it is in.  `store` changes the data of
a buffer, `disk` carries out the command of the disk. -/
inductive BufAction (Process Data : Type) where
  | bread (p : Process) (dev sector : Uint)
  | bwrite (p : Process) (b : BufIndex)
  | brelse (p : Process) (b : BufIndex)
  | store (p : Process) (b : BufIndex) (data : Data)
  | run (p : Process)
  | kill (p : Process)
  | disk
  | ideintr

namespace Bcache

variable {Process Addr Data : Type} [DecidableEq Process] [DecidableEq Addr]

/-- `binit`, whatever the links were. -/
def binit (ring : LinkedRing BufIndex) : LinkedRing BufIndex :=
  (List.finRange nbuf).foldl LinkedRing.pushFront ring.clear

/-- The buffers along `next`, as the first loop of `bget` finds them. -/
def forward (s : Bcache Process Addr Data) : List BufIndex :=
  LinkedRing.walk s.ring.next (nbuf + 1) none

/-- The buffers along `prev`. -/
def backward (s : Bcache Process Addr Data) : List BufIndex :=
  LinkedRing.walk s.ring.prev (nbuf + 1) none

def goto (s : Bcache Process Addr Data) (p : Process) (pc : BufPc) : Bcache Process Addr Data :=
  { s with pc := Function.update s.pc p pc }

def setBuf (s : Bcache Process Addr Data) (b : BufIndex) (buf : Buf Data) :
    Bcache Process Addr Data :=
  { s with buf := Function.update s.buf b buf }

def wakeup (s : Bcache Process Addr Data) (b : BufIndex) : Bcache Process Addr Data :=
  { s with pc := fun p => (s.pc p).wake b }

/-- `bget` returns the buffer to `bread`. -/
def take (s : Bcache Process Addr Data) (p : Process) (b : BufIndex) (buf : Buf Data) :
    Bcache Process Addr Data :=
  let call := DiskCall.bread buf.dev buf.sector
  { s.setBuf b buf with held := Function.update s.held p (insert b (s.held p)) }.goto p
    (if buf.valid then .returning b call else .iderw b call)

/-- `bget`, from `loop` on. -/
def bget (s : Bcache Process Addr Data) (p : Process) (dev sector : Uint) :
    Option (Bcache Process Addr Data) :=
  match s.forward.find? fun b => (s.buf b).key = (dev, sector) with
  | some b =>
    if (s.buf b).busy then some (s.goto p (.bget dev sector (some b)))
    else some (s.take p b { s.buf b with busy := true })
  | none =>
    match s.backward.find? fun b => (s.buf b).busy = false with
    | some b => some (s.take p b ⟨true, false, false, dev, sector, (s.buf b).data⟩)
    -- `bget: no buffers`
    | none => none

section Disk

variable (address : Uint × Uint → Addr) (havedisk1 : Bool)

def idestart (s : Bcache Process Addr Data) (b : BufIndex) : Bcache Process Addr Data :=
  { s with drive := (s.buf b).command address }

/-- The loop of `iderw`. -/
def await (s : Bcache Process Addr Data) (p : Process) (b : BufIndex) (call : DiskCall) :
    Bcache Process Addr Data :=
  s.goto p (if (s.buf b).Synced then .returning b call else .wait b call true)

/-- `iderw`, up to where it sleeps. -/
def iderw (s : Bcache Process Addr Data) (p : Process) (b : BufIndex) (call : DiskCall) :
    Option (Bcache Process Addr Data) :=
  if (s.buf b).busy = false ∨ (s.buf b).Synced ∨ (s.buf b).dev ≠ 0 ∧ havedisk1 = false then none
  else
    let s := { s with idequeue := s.idequeue ++ [b] }
    let s := if s.idequeue.head? = some b then s.idestart address b else s
    some (s.await p b call)

/-- `bread` or `bwrite` returns. -/
def finish (s : Bcache Process Addr Data) (p : Process) (b : BufIndex) :
    DiskCall → Bcache Process Addr Data
  | .bread _ _ => s.goto p .idle
  | .bwrite =>
    { s with
      unsaved := s.unsaved.erase b
      written := ((s.buf b).key, (s.buf b).data) :: s.written }.goto p .idle

/-- The body of `brelse`. -/
def brelse (s : Bcache Process Addr Data) (p : Process) (b : BufIndex) :
    Bcache Process Addr Data :=
  { s.setBuf b { s.buf b with busy := false } with
    ring := (s.ring.remove b).pushFront b
    held := Function.update s.held p ((s.held p).erase b) }.wakeup b

/-- `ideintr`, when the disk is done. -/
def ideintr (s : Bcache Process Addr Data) : Option (Bcache Process Addr Data) :=
  match s.idequeue, s.drive with
  | b :: rest, .ready data =>
    let buf := s.buf b
    let data := if buf.dirty then buf.data else data.getD buf.data
    let s := { s.setBuf b { buf with data := data, valid := true, dirty := false } with
               idequeue := rest
               drive := .idle }.wakeup b
    match rest with
    | [] => some s
    | b :: _ => some (s.idestart address b)
  | _, _ => none

/-- The disk carries out its command. -/
def perform (s : Bcache Process Addr Data) : Option (Bcache Process Addr Data) :=
  match s.drive with
  | .reading addr => some { s with drive := .ready (some (s.disk addr)) }
  | .writing addr data =>
    some { s with disk := Function.update s.disk addr data, drive := .ready none }
  | _ => none

/-- A process goes on. -/
def run (s : Bcache Process Addr Data) (p : Process) : Option (Bcache Process Addr Data) :=
  match s.pc p with
  | .bget dev sector none => s.bget p dev sector
  | .iderw b call => s.iderw address havedisk1 p b call
  | .wait b call false => some (s.await p b call)
  | .returning b call => some (s.finish p b call)
  | _ => none

def step (s : Bcache Process Addr Data) :
    BufAction Process Data → Option (Bcache Process Addr Data)
  | .bread p dev sector =>
    if s.pc p = .idle then some (s.goto p (.bget dev sector none)) else none
  | .bwrite p b =>
    if s.pc p = .idle ∧ (s.buf b).busy then
      some ((s.setBuf b { s.buf b with dirty := true }).goto p (.iderw b .bwrite))
    else none
  | .brelse p b => if s.pc p = .idle ∧ (s.buf b).busy then some (s.brelse p b) else none
  | .store p b data =>
    if s.pc p = .idle then
      some { s.setBuf b { s.buf b with data := data } with unsaved := insert b s.unsaved }
    else none
  | .run p => s.run address havedisk1 p
  | .kill p => some (s.goto p (s.pc p).awake)
  | .disk => s.perform
  | .ideintr => s.ideintr address

end Disk

/-- After `binit`, with no process in the cache. -/
def start (ring : LinkedRing BufIndex) (disk : Addr → Data) (data : BufIndex → Data) :
    Bcache Process Addr Data where
  buf b := ⟨false, false, false, -1, 0, data b⟩
  ring := binit ring
  idequeue := []
  drive := .idle
  disk := disk
  pc _ := .idle
  held _ := ∅
  unsaved := ∅
  written := []

/-- How the callers use the cache: they ask for sectors of the disk, they use a buffer
only between `bread` and `brelse`, and they write what they have changed before they
release it. -/
def Rules (sectors : Set (Uint × Uint)) (s : Bcache Process Addr Data) :
    BufAction Process Data → Prop
  | .bread _ dev sector => (dev, sector) ∈ sectors
  | .bwrite p b | .store p b _ => b ∈ s.held p
  | .brelse p b => b ∈ s.held p ∧ b ∉ s.unsaved
  | _ => True

instance (sectors : Set (Uint × Uint)) [DecidablePred (· ∈ sectors)]
    (s : Bcache Process Addr Data) (action : BufAction Process Data) :
    Decidable (s.Rules sectors action) := by
  apply BufAction.casesOn (motive := fun action => Decidable (s.Rules sectors action)) action <;>
    intros <;> unfold Rules <;> infer_instance

/-- The data of the last `bwrite` to a sector that has returned, or else what was on the
disk at first. -/
def lastWritten (address : Uint × Uint → Addr) (disk : Addr → Data)
    (s : Bcache Process Addr Data) (key : Uint × Uint) : Data :=
  (s.written.lookup key).getD (disk (address key))

end Bcache

/-! ## Addresses of the disk -/

/-- What `idestart` sends to the disk: one of two disks and 28 bits of the sector. -/
def ideAddress (key : Uint × Uint) : Fin 2 × Fin (2 ^ 28) :=
  (Fin.ofNat 2 key.1, Fin.ofNat (2 ^ 28) key.2)

/-- The sectors of the two disks. -/
def ideSectors : Set (Uint × Uint) := { key | key.1.val < 2 ∧ key.2.val < 2 ^ 28 }

instance : DecidablePred (· ∈ ideSectors) :=
  fun key => inferInstanceAs (Decidable (key.1.val < 2 ∧ key.2.val < 2 ^ 28))

end Xv6
