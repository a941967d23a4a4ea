import Xv6.Fs.Transfer
import Xv6.Kernel.Sbrk

/-!
# The buffer arguments of read and write

`sys_read` and `sys_write` check the buffer and the count that a process passes on its
stack, and `fileread` and `filewrite` then use them.  The check adds the count as a
signed number; the transfer takes it as an unsigned one and cuts it down to what the
file has.  The two disagree on a negative count.
-/

namespace Xv6

/-- An open inode file. -/
structure InodeFile where
  readable : Bool
  writable : Bool
  ip : Inode
  off : Uint
  deriving DecidableEq

/-- A process that makes a system call: its size, its stack pointer, its memory a word
at a time and its open files. -/
structure Caller where
  sz : Uint
  esp : Uint
  word : Nat → Uint
  ofile : Fin nofile → Option InodeFile

namespace Caller

variable (caller : Caller)

def fetchint (addr : Nat) : Option Int :=
  if addr ≥ caller.sz ∨ toUint (addr + 4) > caller.sz then none
  else some (toInt (caller.word addr))

def argint (n : Nat) : Option Int :=
  caller.fetchint (toUint (caller.esp + 4 + 4 * n))

def argptr (n : Nat) (size : Int) : Option Nat := do
  let i ← caller.argint n
  if toUint i ≥ caller.sz ∨ toUint (toUint i + size) > caller.sz then none
  else some (toUint i)

def argfd (n : Nat) : Option InodeFile := do
  let fd ← caller.argint n
  if range : 0 ≤ fd ∧ fd.toNat < nofile then caller.ofile ⟨fd.toNat, range.2⟩ else none

/-- What `sys_read` and `sys_write` accept: the file, the count and the buffer. -/
def bufferArgs : Option (InodeFile × Int × Nat) := do
  let f ← caller.argfd 0
  let n ← caller.argint 2
  let p ← caller.argptr 1 n
  some (f, n, p)

end Caller

namespace InodeFile

variable (f : InodeFile)

def fileread (input : List UInt8) (addr : Nat) (n : Int) : Transfer :=
  if f.readable = false then .stop (some (-1)) else f.ip.readi input addr f.off n

def filewrite (addr : Nat) (n : Int) : Transfer :=
  if f.writable = false then .stop (some (-1)) else f.ip.writei addr f.off n

end InodeFile

def Caller.sysRead (caller : Caller) (input : List UInt8) : Transfer :=
  match caller.bufferArgs with
  | none => .stop (some (-1))
  | some (f, n, p) => f.fileread input p n

def Caller.sysWrite (caller : Caller) : Transfer :=
  match caller.bufferArgs with
  | none => .stop (some (-1))
  | some (f, n, p) => f.filewrite p n

/-! ## What is accepted -/

theorem toInt_isInt {word : Nat} : IsInt (toInt word) := by
  simp only [IsInt, toInt, intMax]
  omega

section
variable {caller : Caller} {f : InodeFile} {n : Int} {p : Nat}

/-- The facts about accepted arguments that the transfers depend on. -/
structure Caller.Accepted (sz : Nat) (n : Int) (p : Nat) : Prop where
  isInt : IsInt n
  inside : p < sz
  checked : toUint (p + n) ≤ sz

theorem Caller.argint_isInt {index : Nat} (fetched : caller.argint index = some n) : IsInt n := by
  simp only [argint, fetchint] at fetched
  split at fetched
  · nomatch fetched
  · exact Option.some.inj fetched ▸ toInt_isInt

theorem Caller.accepted_of_bufferArgs (accepted : caller.bufferArgs = some (f, n, p)) :
    Accepted caller.sz n p := by
  simp only [bufferArgs, Option.bind_eq_bind, Option.bind_eq_some_iff, Option.some.injEq,
    Prod.mk.injEq] at accepted
  obtain ⟨_, -, n, count, p, pointer, -, rfl, rfl⟩ := accepted
  simp only [argptr, Option.bind_eq_bind, Option.bind_eq_some_iff] at pointer
  obtain ⟨i, -, checked⟩ := pointer
  split at checked
  · nomatch checked
  next inside =>
    cases checked
    exact ⟨argint_isInt count, by omega, by omega⟩

end

/-! ## What is touched -/

/-- The conditions under which a transfer that ends at `limit` keeps to the caller's
memory, given that the arguments were accepted. -/
def InodeFile.Harmless (f : InodeFile) (limit sz : Nat) (n : Int) (p : Nat) : Prop :=
  f.ip.type = tDev ∨ 0 ≤ n ∨ f.ip.size < f.off ∨ -n ≤ f.off ∨ limit ≤ f.off + (sz - p)

instance (f : InodeFile) (limit sz : Nat) (n : Int) (p : Nat) :
    Decidable (f.Harmless limit sz n p) :=
  inferInstanceAs (Decidable (_ ∨ _))

section

open Transfer

variable {f : InodeFile} {n : Int} {p sz limit : Nat} {input : List UInt8}

theorem Caller.Accepted.fits (accepted : Accepted sz n p) (bound : sz ≤ usertop)
    (natural : 0 ≤ n) : p + n.toNat ≤ sz := by
  obtain ⟨isInt, inside, checked⟩ := accepted
  simp only [IsInt, intMax, toUint, usertop] at isInt checked bound
  omega

section
variable (accepted : Caller.Accepted sz n p) (bound : sz ≤ usertop)
include accepted bound

theorem harmless_iff (small : limit ≤ maxfile * bsize) (disk : f.ip.type ≠ tDev) :
    f.Harmless limit sz n p ↔ f.ip.Refuses f.off n ∨
      min (toUint n) (limit - f.off) = 0 ∨ p + min (toUint n) (limit - f.off) ≤ sz := by
  have offset := f.off.isLt
  simp only [InodeFile.Harmless, disk, false_or]
  rcases Int.lt_or_le n 0 with negative | natural
  · obtain ⟨isInt, inside, -⟩ := accepted
    simp only [IsInt, Inode.Refuses, toUint, gt_iff_lt, Fin.lt_def] at isInt ⊢
    simp only [show maxfile * bsize = 71680 from rfl] at small
    omega
  · have fits := accepted.fits bound natural
    obtain ⟨isInt, -, -⟩ := accepted
    have same : toUint n = n.toNat := by
      simp only [IsInt, intMax, toUint] at isInt ⊢
      omega
    rw [same]
    omega

theorem inside_fileread_iff :
    (f.fileread input p n).Inside sz ↔ f.readable = false ∨
      f.Harmless (min f.ip.size.val (maxfile * bsize)) sz n p := by
  rw [InodeFile.fileread]
  split_ifs with unreadable
  · simp [unreadable, inside_stop]
  by_cases device : f.ip.type = tDev
  · have inside : (f.ip.readi input p f.off n).Inside sz :=
      Inode.inside_readi_device device (accepted.fits bound)
    simp [inside, InodeFile.Harmless, device]
  · rw [Inode.inside_readi device, harmless_iff accepted bound (min_le_right _ _) device]
    simp [unreadable]

theorem inside_filewrite_iff :
    (f.filewrite p n).Inside sz ↔ f.writable = false ∨
      f.Harmless (maxfile * bsize) sz n p := by
  rw [InodeFile.filewrite]
  split_ifs with unwritable
  · simp [unwritable, inside_stop]
  by_cases device : f.ip.type = tDev
  · have inside : (f.ip.writei p f.off n).Inside sz :=
      Inode.inside_writei_device device (accepted.fits bound)
    simp [inside, InodeFile.Harmless, device]
  · rw [Inode.inside_writei device, harmless_iff accepted bound le_rfl device]
    simp [unwritable]

end

end

/-- A system call whose arguments were accepted touches only the memory of the process
exactly when the count is not negative, or the transfer is refused, ends in time or
goes to a device.  The size is that of a process in some state that can be reached. -/
theorem accepted_buffer_inside_iff {guard : Kernel → Action → Prop} {k : Kernel}
    (reachable : Kernel.Reachable guard k) (slot : Slot) {caller : Caller}
    (sized : caller.sz.val = (k.pt.proc slot).sz) {f : InodeFile} {n : Int} {p : Nat}
    (accepted : caller.bufferArgs = some (f, n, p)) (input : List UInt8) :
    ((caller.sysRead input).Inside caller.sz ↔
        f.readable = false ∨
          f.Harmless (min f.ip.size.val (maxfile * bsize)) caller.sz n p) ∧
      (caller.sysWrite.Inside caller.sz ↔
        f.writable = false ∨ f.Harmless (maxfile * bsize) caller.sz n p) := by
  have bound : caller.sz.val ≤ usertop := sized ▸ reachable.bounded slot
  have checked := Caller.accepted_of_bufferArgs accepted
  simp only [Caller.sysRead, Caller.sysWrite, accepted]
  exact ⟨inside_fileread_iff checked bound, inside_filewrite_iff checked bound⟩

/-- The first process, with an 8192-byte file open for reading and writing, passes a
buffer at 100 and a count. -/
def firstCall (n : Uint) : Caller where
  sz := 4096
  esp := 0
  word := fun addr => if addr = 8 then 100 else if addr = 12 then n else 0
  ofile := fun _ => some ⟨true, true, ⟨2, 0, 8192⟩, 0⟩

theorem accepted_buffer_inside_iff_ten :
    Kernel.Reachable (fun _ _ => True) Kernel.firstBoot ∧
      (firstCall 10).bufferArgs = some (⟨true, true, ⟨2, 0, 8192⟩, 0⟩, 10, 100) ∧
      ((firstCall 10).sysRead []).Inside 4096 ∧ (firstCall 10).sysWrite.Inside 4096 := by
  have reachable : Kernel.Reachable (fun _ _ => True) Kernel.firstBoot :=
    ⟨_, _, Kernel.boot_firstBoot, .nil⟩
  have accepted :
      (firstCall 10).bufferArgs = some (⟨true, true, ⟨2, 0, 8192⟩, 0⟩, 10, 100) := by
    decide +kernel
  have sized : (firstCall 10).sz.val = (Kernel.firstBoot.pt.proc 0).sz := by rfl
  obtain ⟨reads, writes⟩ := accepted_buffer_inside_iff reachable 0 sized accepted []
  have natural : (0 : Int) ≤ 10 := by decide
  exact ⟨reachable, accepted, reads.mpr (.inr (.inr (.inl natural))),
    writes.mpr (.inr (.inr (.inl natural)))⟩

/-- A count of -1 is accepted, and the whole file is copied over the memory beyond the
process; a write goes on to the end of the largest file. -/
theorem negative_count_leaves_process :
    Kernel.Reachable (fun _ _ => True) Kernel.firstBoot ∧
      (firstCall (-1)).sz.val = (Kernel.firstBoot.pt.proc 0).sz ∧
      (firstCall (-1)).bufferArgs = some (⟨true, true, ⟨2, 0, 8192⟩, 0⟩, -1, 100) ∧
      ¬((firstCall (-1)).sysRead []).Inside (firstCall (-1)).sz ∧
      ¬(firstCall (-1)).sysWrite.Inside (firstCall (-1)).sz := by
  have accepted :
      (firstCall (-1)).bufferArgs = some (⟨true, true, ⟨2, 0, 8192⟩, 0⟩, -1, 100) := by
    decide +kernel
  have checked := Caller.accepted_of_bufferArgs accepted
  have bound : (firstCall (-1)).sz.val ≤ usertop := by decide
  refine ⟨⟨_, _, Kernel.boot_firstBoot, .nil⟩, rfl, accepted, ?_, ?_⟩
  · rw [Caller.sysRead, accepted]
    simp only [inside_fileread_iff checked bound]
    decide +kernel
  · rw [Caller.sysWrite, accepted]
    simp only [inside_filewrite_iff checked bound]
    decide +kernel

end Xv6
