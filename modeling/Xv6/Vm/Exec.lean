import Xv6.Fs.Transfer
import Xv6.Vm.PageTable

/-!
# Loading a program

`exec`, with `loaduvm` and `copyout`, on a file of any content.  The pages that the
program and its arguments are copied to belong to the new address space, so what is
written there does not matter to the page tables; where it is written does, and the
functions return the pieces of physical memory that `loaduvm` writes.
-/

namespace Xv6

/-! ## Files -/

/-- A file that `exec` is called on. -/
structure Executable where
  bytes : List UInt8
  small : bytes.length ≤ maxfile * bsize

/-- The number that bytes stand for, the lowest first. -/
def leValue : List UInt8 → Nat
  | [] => 0
  | byte :: rest => byte.toNat + 256 * leValue rest

theorem leValue_lt (bytes : List UInt8) : leValue bytes < 256 ^ bytes.length := by
  induction bytes with
  | nil => simp [leValue]
  | cons byte rest ih =>
    have := byte.toNat_lt
    simp only [leValue, List.length_cons, Nat.pow_succ]
    omega

/-- A program header, as far as it is used. -/
structure Proghdr where
  type : Uint
  offset : Uint
  va : Uint
  filesz : Uint
  memsz : Uint
  deriving DecidableEq

namespace Executable

variable (file : Executable)

def size : Uint := ⟨file.bytes.length, lt_of_le_of_lt file.small (by decide)⟩

/-- The inode, of type `T_FILE`. -/
def inode : Inode := ⟨2, 0, file.size⟩

/-- The `n` bytes at an offset. -/
def slice (off n : Nat) : List UInt8 := List.ofFn fun i : Fin n => file.bytes.getD (off + i) 0

/-- The word at an offset. -/
def uint (off : Nat) : Uint :=
  ⟨leValue (file.slice off 4), by simpa [slice] using leValue_lt (file.slice off 4)⟩

/-- The program header at an offset. -/
def proghdr (off : Nat) : Proghdr where
  type := file.uint off
  offset := file.uint (off + 4)
  va := file.uint (off + 8)
  filesz := file.uint (off + 16)
  memsz := file.uint (off + 20)

/-- `elf.magic`. -/
def magic : Uint := file.uint 0

/-- `elf.phoff`. -/
def phoff : Uint := file.uint 28

/-- `elf.phnum`. -/
def phnum : Nat := leValue (file.slice 44 2)

end Executable

/-- `sizeof(struct elfhdr)` -/
def elfhdrSize : Nat := 52

/-- `sizeof(struct proghdr)` -/
def proghdrSize : Nat := 32

def elfMagic : Uint := 0x464C457F

def elfProgLoad : Uint := 1

/-- The most arguments of a program. -/
def maxarg : Nat := 32

/-- The sum of a word and an offset, as a word. -/
def Uint.plus (word : Uint) (offset : Nat) : Uint := Fin.ofNat _ (word.val + offset)

@[simp] theorem Uint.val_plus {word : Uint} {offset : Nat} :
    (word.plus offset).val = (word.val + offset) % 2 ^ 32 := rfl

/-! ## Loading -/

variable (layout : Layout)

/-- `readi` to an address of the kernel. -/
def Executable.read (file : Executable) (dst : Nat) (off : Uint) (n : Nat) :
    VmProgram (Int × Pieces) :=
  let transfer := file.inode.readi [] dst off n
  match transfer.result with
  | none => throw .outOfRange
  | some result => pure (result, transfer.pieces)

/-- The loop of `loaduvm`.  An entry is used even if it is not present. -/
def loadLoop (pgdir : Nat) (addr : Uint) (file : Executable) (offset : Uint) (sz i : Nat) :
    VmProgram (Int × Pieces) := do
  if _more : i < sz then
    match ← walkpgdir layout pgdir (addr.plus i) false with
    | none => throw .addressShouldExist
    | some (pgtab, index) =>
      let pa := ((← get).page pgtab index).frame * pgsize
      let n := if sz - i < pgsize then sz - i else pgsize
      let (result, pieces) ← file.read pa (offset.plus i) n
      if result ≠ n then pure (-1, pieces)
      else
        let (result, rest) ← loadLoop pgdir addr file offset sz (i + pgsize)
        pure (result, pieces ++ rest)
  else pure (0, [])
  termination_by sz - i
  decreasing_by
    simp only [pgsize]
    omega

def loaduvm (pgdir : Nat) (addr : Uint) (file : Executable) (offset : Uint) (sz : Nat) :
    VmProgram (Int × Pieces) := do
  if addr.val % pgsize ≠ 0 then throw .notAligned
  loadLoop layout pgdir addr file offset sz 0

/-- The loop of `exec` over the program headers, with `n` of them to go, the next at
`off`.  There is no size if it goes to `bad`. -/
def loadSegments (pgdir : Nat) (file : Executable) :
    Nat → Uint → Nat → VmProgram (Option Nat × Pieces)
  | 0, _, sz => pure (some sz, [])
  | n + 1, off, sz => do
      -- The header goes to the kernel's stack.
      let (result, _) ← file.read 0 off proghdrSize
      if result ≠ proghdrSize then pure (none, [])
      else
        let ph := file.proghdr off
        if ph.type ≠ elfProgLoad then
          loadSegments pgdir file n (off.plus proghdrSize) sz
        else if ph.memsz < ph.filesz then pure (none, [])
        else
          let sz ← allocuvm layout pgdir sz (ph.va.plus ph.memsz)
          if sz = 0 then pure (none, [])
          else
            let (result, pieces) ← loaduvm layout pgdir ph.va file ph.offset ph.filesz
            if result < 0 then pure (none, pieces)
            else
              let (size, rest) ← loadSegments pgdir file n (off.plus proghdrSize) sz
              pure (size, pieces ++ rest)

/-! ## Arguments -/

/-- `uva2ka`, which gives a frame, or 0.  It does not check that `walkpgdir` found an
entry. -/
def uva2ka (pgdir uva : Nat) : VmProgram Nat := do
  match ← walkpgdir layout pgdir uva false with
  | none => throw .fault
  | some (pgtab, index) =>
    let pte := (← get).page pgtab index
    if pte.present = false then pure 0
    else if pte.user = false then pure 0
    else pure pte.frame

def copyout (pgdir va len : Nat) : VmProgram Int := do
  if _more : len > 0 then
    let va0 := pgrounddown va
    let pa0 ← uva2ka layout pgdir va0
    if pa0 = 0 then pure (-1)
    else
      let n := min (pgsize - (va - va0)) len
      copyout pgdir (toUint (va0 + pgsize)) (len - n)
  else pure 0
  termination_by len
  decreasing_by
    simp only [pgrounddown, pgsize]
    omega

/-- The loop of `exec` over the arguments, given by the lengths of the strings.  It gives
the number of arguments and the stack pointer, or goes to `bad`. -/
def pushArgs (pgdir : Nat) : List (Fin usertop) → Nat → Nat → VmProgram (Option (Nat × Nat))
  | [], argc, sp => pure (some (argc, sp))
  | arg :: rest, argc, sp => do
      if argc ≥ maxarg then pure none
      else
        let sp := toUint (sp - (arg + 1 : Nat)) / 4 * 4
        if (← copyout layout pgdir sp (arg + 1)) < 0 then pure none
        else pushArgs pgdir rest (argc + 1) sp

/-! ## exec -/

/-- The second half of `exec`, with the size that the segments end at: the stack with the
arguments.  The result says whether the new image is complete. -/
def buildStack (pgdir : Nat) (args : List (Fin usertop)) : Option Nat → VmProgram Bool
  | none => pure false
  | some sz => do
      let sz := pgroundup sz
      let sz ← allocuvm layout pgdir sz (toUint (sz + pgsize))
      if sz = 0 then pure false
      else
        match ← pushArgs layout pgdir args 0 sz with
        | none => pure false
        | some (argc, sp) =>
          let ustack := (3 + argc + 1) * 4
          let result ← copyout layout pgdir (toUint (sp - ustack)) ustack
          pure (!decide (result < 0))

/-- `exec` on a file, for a process whose page directory is `oldpgdir`: the result, and
what `loaduvm` writes. -/
def exec (oldpgdir : Nat) (file : Executable) (args : List (Fin usertop)) :
    VmProgram (Int × Pieces) := do
  let (result, _) ← file.read 0 0 elfhdrSize
  -- The comparison with `sizeof` is unsigned.
  if toUint result < elfhdrSize then pure (-1, [])
  else if file.magic ≠ elfMagic then pure (-1, [])
  else
    match ← setupkvm layout with
    | none => pure (-1, [])
    | some pgdir =>
      let (sz, pieces) ← loadSegments layout pgdir file file.phnum file.phoff 0
      if ← buildStack layout pgdir args sz then
        freevm layout oldpgdir
        pure (0, pieces)
      else
        freevm layout pgdir
        pure (-1, pieces)

end Xv6
