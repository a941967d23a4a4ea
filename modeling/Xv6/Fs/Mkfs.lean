import Xv6.Fs.Directory

/-!
# The image that `mkfs` writes

`tools/mkfs.c` writes a file system image from a directory tree of the host, and `fs.c`
reads it.  A sector of the image is read and written as inodes, as the bits of the bitmap,
as the addresses in an indirect block or as bytes; the image has one field for each of
these views.  That no sector is used in two of them is not assumed: it holds as long as the
inodes stay below `ninodes`, by `Image.sectors_apart`.  Numbers are kept as numbers: `mkfs`
stores them in the byte order in which the kernel reads them.

An `assert` that fails, and a read of a sector that is not in the image, end `mkfs` with an
error.  The sectors are all written before, so a sector in the image can be read.
-/

namespace Xv6.Mkfs

/-- `T_DIR` and `T_FILE` -/
def tDir : Nat := 1

def tFile : Nat := 2

/-- `struct dinode`, with the fields that `mkfs` sets. -/
structure Dinode where
  type : Nat := 0
  nlink : Nat := 0
  size : Nat := 0
  addrs : Nat → Nat := fun _ => 0

/-- `struct superblock` -/
structure Superblock where
  size : Nat
  nblocks : Nat
  ninodes : Nat

structure Disk where
  sb : Superblock
  dinode : Nat → Nat → Dinode := fun _ _ => {}
  bit : Nat → Nat → Bool := fun _ _ => false
  word : Nat → Nat → Nat := fun _ _ => 0
  byte : Nat → Nat → UInt8 := fun _ _ => 0

/-- The numbers of `main`: `mkfs(995, 200, 1024)`. -/
def nblocks : Nat := 995

def ninodes : Nat := 200

def size : Nat := 1024

def ipb : Nat := 8

def ndirect : Nat := 12

def maxfile : Nat := 140

/-- The state of the program. -/
structure State where
  disk : Disk
  freeblock : Nat
  usedblocks : Nat
  freeinode : Nat := 1

/-- `mkfs`: the boot block, the super block, the inodes and the bitmap are in use. -/
def mkfs (nblocks ninodes size : Nat) : Option State :=
  let bitblocks := size / (512 * 8) + 1
  let usedblocks := ninodes / ipb + 3 + bitblocks
  if nblocks + usedblocks = size then
    some { disk := { sb := ⟨size, nblocks, ninodes⟩ }, freeblock := usedblocks,
           usedblocks := usedblocks }
  else none

def i2b (inum : Nat) : Nat := inum / ipb + 2

namespace State

def rinode (s : State) (inum : Nat) : Option Dinode :=
  if i2b inum < size then some (s.disk.dinode (i2b inum) (inum % ipb)) else none

/-- Write an inode into its slot. -/
def setInode (s : State) (inum : Nat) (din : Dinode) : State :=
  { s with disk.dinode := fun sector slot =>
      if sector = i2b inum ∧ slot = inum % ipb then din else s.disk.dinode sector slot }

def winode (s : State) (inum : Nat) (din : Dinode) : Option State :=
  if i2b inum < size then some (s.setInode inum din) else none

def ialloc (s : State) (type : Nat) : Option (Nat × State) :=
  match s.winode s.freeinode { type := type, nlink := 1 } with
  | none => none
  | some s' => some (s.freeinode, { s' with freeinode := s.freeinode + 1 })

/-- `freeblock++` and `usedblocks++` -/
def take (s : State) : State :=
  { s with freeblock := s.freeblock + 1, usedblocks := s.usedblocks + 1 }

def setWord (s : State) (sector k value : Nat) : State :=
  { s with disk.word := fun b j => if b = sector ∧ j = k then value else s.disk.word b j }

/-- Copy bytes into a sector. -/
def copy (s : State) (sector off : Nat) (p : List UInt8) : State :=
  { s with disk.byte := fun b j =>
      if b = sector ∧ off ≤ j ∧ j < off + p.length then p.getD (j - off) 0 else s.disk.byte b j }

end State

def Dinode.setAddr (din : Dinode) (k value : Nat) : Dinode :=
  { din with addrs := Function.update din.addrs k value }

namespace State

/-- The indirect block of `iappend`, allocated if there is none. -/
def indirect (s : State) (din : Dinode) : Dinode × State :=
  if din.addrs ndirect = 0 then (din.setAddr ndirect s.freeblock, s.take) else (din, s)

/-- The block of `iappend` for file block `fbn`, allocated if there is none. -/
def block (s : State) (din : Dinode) (fbn : Nat) : Option (Nat × Dinode × State) :=
  if fbn < ndirect then
    if din.addrs fbn = 0 then some (s.freeblock, din.setAddr fbn s.freeblock, s.take)
    else some (din.addrs fbn, din, s)
  else
    match s.indirect din with
    | (din, s) =>
      if din.addrs ndirect < size then
        if s.disk.word (din.addrs ndirect) (fbn - ndirect) = 0 then
          some (s.freeblock, din,
            s.take.setWord (din.addrs ndirect) (fbn - ndirect) s.freeblock)
        else some (s.disk.word (din.addrs ndirect) (fbn - ndirect), din, s)
      else none

/-- The loop of `iappend`; each round copies at least one byte. -/
def iappendLoop : Nat → State → Dinode → Nat → List UInt8 → Option (State × Dinode × Nat)
  | _, s, din, off, [] => some (s, din, off)
  | 0, _, _, _, _ :: _ => none
  | fuel + 1, s, din, off, byte :: rest =>
    let p := byte :: rest
    let fbn := off / 512
    if fbn < maxfile then
      match s.block din fbn with
      | none => none
      | some (x, din, s) =>
        let n1 := min p.length ((fbn + 1) * 512 - off)
        if x < size then
          iappendLoop fuel (s.copy x (off - fbn * 512) (p.take n1)) din (off + n1) (p.drop n1)
        else none
    else none

def iappend (s : State) (inum : Nat) (p : List UInt8) : Option State :=
  match s.rinode inum with
  | none => none
  | some din =>
    match iappendLoop p.length s din din.size p with
    | none => none
    | some (s, din, off) => s.winode inum { din with size := off }

end State

/-- The bytes of a `struct dirent`. -/
def direntBytes (inum : Nat) (name : List UInt8) : List UInt8 :=
  UInt8.ofNat (inum % 256) :: UInt8.ofNat (inum / 256 % 256) :: strncpy dirsiz name

/-! ## The tree of the host -/

mutual

/-- A file is given by the chunks in which `read` returns its bytes.  A directory is closed
if `fdopendir` returns `NULL` for it. -/
inductive HostTree where
  | file (chunks : List (List UInt8))
  | closed
  | dir (entries : HostList)

/-- The entries of a directory in the order of `readdir`. -/
inductive HostList where
  | nil
  | cons (name : List UInt8) (tree : HostTree) (rest : HostList)

end

/-- The entries that `add_dir` passes over. -/
def isDots (name : List UInt8) : Bool := name == [46] || name == [46, 46]

namespace State

/-- The loop that copies a file. -/
def appendChunks (s : State) (inum : Nat) : List (List UInt8) → Option State
  | [] => some s
  | chunk :: rest =>
    match s.iappend inum chunk with
    | none => none
    | some s => s.appendChunks inum rest

/-- The start of `add_dir`: the two dots. -/
def addDots (s : State) (cur parent : Nat) : Option State :=
  match s.iappend cur (direntBytes cur [46]) with
  | none => none
  | some s => s.iappend cur (direntBytes parent [46, 46])

/-- The end of `add_dir`: the size is rounded up. -/
def fixSize (s : State) (cur : Nat) : Option State :=
  match s.rinode cur with
  | none => none
  | some din => s.winode cur { din with size := (din.size / 512 + 1) * 512 }

mutual

/-- One entry of the loop in `add_dir`: make the inode of the child and fill it. -/
def addTree (s : State) (cur : Nat) : HostTree → Option (Nat × State)
  | .file chunks =>
    match s.ialloc tFile with
    | none => none
    | some (child, s) =>
      match s.appendChunks child chunks with
      | none => none
      | some s => some (child, s)
  | .closed =>
    match s.ialloc tDir with
    | none => none
    | some (child, s) =>
      match s.addDots child cur with
      | none => none
      | some s => some (child, s)
  | .dir entries =>
    match s.ialloc tDir with
    | none => none
    | some (child, s) =>
      match s.addDots child cur with
      | none => none
      | some s =>
        match s.addEntries child entries with
        | none => none
        | some s =>
          match s.fixSize child with
          | none => none
          | some s => some (child, s)

/-- The loop in `add_dir`. -/
def addEntries (s : State) (cur : Nat) : HostList → Option State
  | .nil => some s
  | .cons name tree rest =>
    if isDots name then s.addEntries cur rest
    else
      match s.addTree cur tree with
      | none => none
      | some (child, s) =>
        match s.iappend cur (direntBytes child name) with
        | none => none
        | some s => s.addEntries cur rest

end

/-- `balloc`: mark the blocks below `used`. -/
def balloc (s : State) (used : Nat) : Option State :=
  if used < 512 * 8 then
    some { s with disk.bit := fun sector bit =>
      if sector = ninodes / ipb + 3 then decide (bit < used) else s.disk.bit sector bit }
  else none

end State

/-- `main`; the root is `none` if `opendir` returns `NULL`. -/
def main (root : Option HostList) : Option State :=
  match mkfs nblocks ninodes size with
  | none => none
  | some s =>
    match s.ialloc tDir with
    | none => none
    | some (inum, s) =>
      match s.addDots inum inum with
      | none => none
      | some s =>
        match root with
        | none => s.balloc s.usedblocks
        | some entries =>
          match s.addEntries inum entries with
          | none => none
          | some s =>
            match s.fixSize inum with
            | none => none
            | some s => s.balloc s.usedblocks

/-! ## The kernel's reading -/

namespace Disk

def iblock (inum : Nat) : Nat := inum / ipb + 2

def bblock (disk : Disk) (b : Nat) : Nat := b / (512 * 8) + disk.sb.ninodes / ipb + 3

/-- The inode that `ilock` reads. -/
def inode (disk : Disk) (inum : Nat) : Dinode := disk.dinode (iblock inum) (inum % ipb)

/-- `bmap`, without the allocation of a block. -/
def bmap (disk : Disk) (ip : Dinode) (bn : Nat) : Nat :=
  if bn < ndirect then ip.addrs bn
  else if ip.addrs ndirect = 0 then 0 else disk.word (ip.addrs ndirect) (bn - ndirect)

/-- The loop of `readi`, which is left if `bmap` would have to allocate a block. -/
def readLoop (disk : Disk) (ip : Dinode) : Nat → Nat → Nat → Option (List UInt8)
  | _, _, 0 => some []
  | 0, _, _ + 1 => none
  | fuel + 1, off, left + 1 =>
    let block := disk.bmap ip (off / 512)
    let m := min (left + 1) (512 - off % 512)
    if block = 0 then none
    else
      match readLoop disk ip fuel (off + m) (left + 1 - m) with
      | none => none
      | some rest => some ((List.range m).map (fun j => disk.byte block (off % 512 + j)) ++ rest)

/-- `readi` of a file or a directory. -/
def readi (disk : Disk) (ip : Dinode) (off n : Nat) : Option (List UInt8) :=
  if off > ip.size ∨ 2 ^ 32 ≤ off + n then none
  else
    let n := if off + n > ip.size then ip.size - off else n
    disk.readLoop ip n off n

/-- An entry in a block. -/
def dirent (disk : Disk) (block k : Nat) : RawDirent :=
  ⟨(disk.byte block (16 * k)).toNat + 256 * (disk.byte block (16 * k + 1)).toNat,
    (List.range dirsiz).map fun j => disk.byte block (16 * k + 2 + j)⟩

/-- The entries of a block in `dirlookup`. -/
def scanBlock (disk : Disk) (block : Nat) (name : List UInt8) : Nat → Nat → Option Nat
  | _, 0 => none
  | k, left + 1 =>
    let de := disk.dirent block k
    if de.inum ≠ 0 ∧ namecmp name de.name = 0 then some de.inum
    else disk.scanBlock block name (k + 1) left

/-- The blocks of `dirlookup`, left if `bmap` would have to allocate one. -/
def scan (disk : Disk) (dp : Dinode) (name : List UInt8) : Nat → Nat → Option Nat
  | _, 0 => none
  | off, left + 1 =>
    if off < dp.size then
      if disk.bmap dp (off / 512) = 0 then none
      else
        match disk.scanBlock (disk.bmap dp (off / 512)) name 0 32 with
        | some inum => some inum
        | none => disk.scan dp name (off + 512) left
    else none

def dirlookup (disk : Disk) (dp : Dinode) (name : List UInt8) : Option Nat :=
  disk.scan dp name 0 (dp.size / 512 + 1)

/-- `skipelem`: the next element of a path, cut to `DIRSIZ` bytes, and what follows it. -/
def skipelem (path : List UInt8) : Option (List UInt8 × List UInt8) :=
  let path := path.dropWhile (· == 47)
  if path.headD 0 = 0 then none
  else
    let elem := path.takeWhile fun c => c != 47 && c != 0
    some (elem.take dirsiz, (path.drop elem.length).dropWhile (· == 47))

/-- The loop of `namex`; each round takes at least one byte of the path. -/
def namexLoop (disk : Disk) : Nat → Nat → List UInt8 → Option Nat
  | 0, _, _ => none
  | fuel + 1, inum, path =>
    match skipelem path with
    | none => some inum
    | some (name, rest) =>
      if (disk.inode inum).type ≠ tDir then none
      else
        match disk.dirlookup (disk.inode inum) name with
        | none => none
        | some next => disk.namexLoop fuel next rest

/-- `namei`, from the root or from the working directory. -/
def namei (disk : Disk) (cwd : Nat) (path : List UInt8) : Option Nat :=
  disk.namexLoop (path.length + 1) (if path.headD 0 = 47 then 1 else cwd) path

end Disk

end Xv6.Mkfs
