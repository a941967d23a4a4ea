import Xv6.Fs.Mkfs

/-!
# The files of an image

`Image` says which files an image holds: for each inode the bytes that were appended to it,
the number of its blocks, and for each block of the image who owns it.  Every function of
`mkfs` that writes is described by what it does to the files.
-/

namespace Xv6

open Function

namespace Mkfs

/-- What an inode stands for.  The size of a directory is rounded up in the end, so it is
kept apart from the bytes. -/
structure File where
  type : Nat
  content : List UInt8
  size : Nat

/-- More bytes behind those of the file; `iappend` writes the size when it is done. -/
def File.extend (f : File) (p : List UInt8) : File := { f with content := f.content ++ p }

def File.resize (f : File) (size : Nat) : File := { f with size := size }

/-- What `iappend` makes of a file. -/
def File.append (f : File) (p : List UInt8) : File := (f.extend p).resize (f.size + p.length)

theorem File.extend_extend (f : File) (p q : List UInt8) :
    (f.extend p).extend q = f.extend (p ++ q) := by
  simp [File.extend]

theorem File.extend_nil (f : File) : f.extend [] = f := by
  simp [File.extend]

theorem File.length_extend (f : File) (p : List UInt8) :
    (f.extend p).content.length = f.content.length + p.length :=
  List.length_append

/-- The owner of a block: an inode for its file block `k`, or for its indirect block. -/
inductive Owner where
  | data (inum k : Nat)
  | indirect (inum : Nat)

variable {k : Nat} {p : List UInt8}

theorem Disk.bmap_congr {disk disk' : Disk} {ip ip' : Dinode}
    (direct : k < 12 → ip'.addrs k = ip.addrs k) (block : ip'.addrs 12 = ip.addrs 12)
    (word : 12 ≤ k → disk'.word (ip.addrs 12) (k - 12) = disk.word (ip.addrs 12) (k - 12)) :
    disk'.bmap ip' k = disk.bmap ip k := by
  rw [bmap, bmap, ndirect, block]
  split_ifs with few absent
  · exact direct few
  · rfl
  · exact word (Nat.not_lt.mp few)

theorem Disk.bmap_direct (disk : Disk) (ip : Dinode) (few : k < 12) :
    disk.bmap ip k = ip.addrs k := by
  rw [bmap, ndirect, if_pos few]

theorem Disk.bmap_indirect (disk : Disk) (ip : Dinode) (many : 12 ≤ k)
    (present : ip.addrs 12 ≠ 0) : disk.bmap ip k = disk.word (ip.addrs 12) (k - 12) := by
  rw [bmap, ndirect, if_neg (Nat.not_lt.mpr many), if_neg present]

theorem getD_past (l : List UInt8) {n : Nat} (past : l.length ≤ n) : l.getD n 0 = 0 := by
  rw [List.getD_eq_getElem?_getD, List.getElem?_eq_none past, Option.getD_none]

/-- Two inodes that differ in their addresses only. -/
structure SameFields (ip ip' : Dinode) : Prop where
  type : ip.type = ip'.type
  nlink : ip.nlink = ip'.nlink
  size : ip.size = ip'.size

namespace State

def Used (s : State) (inum : Nat) : Prop := 1 ≤ inum ∧ inum < s.freeinode

/-- The address of a file block. -/
def addr (s : State) (inum k : Nat) : Nat := s.disk.bmap (s.disk.inode inum) k

theorem inode_setInode (s : State) (inum : Nat) (din : Dinode) (other : Nat) :
    (s.setInode inum din).disk.inode other =
      if other = inum then din else s.disk.inode other := by
  have slots : (Disk.iblock other = i2b inum ∧ other % ipb = inum % ipb) ↔ other = inum := by
    simp only [Disk.iblock, i2b, ipb]
    omega
  simp only [Disk.inode, setInode, slots]

@[simp] theorem inode_setInode_self (s : State) (inum : Nat) (din : Dinode) :
    (s.setInode inum din).disk.inode inum = din := by
  rw [inode_setInode, if_pos rfl]

variable {inum other : Nat}

theorem inode_setInode_ne (s : State) (din : Dinode) (differ : other ≠ inum) :
    (s.setInode inum din).disk.inode other = s.disk.inode other := by
  rw [inode_setInode, if_neg differ]

theorem addr_setInode_ne (s : State) (din : Dinode) (k : Nat)
    (differ : other ≠ inum) : (s.setInode inum din).addr other k = s.addr other k := by
  rw [addr, addr, inode_setInode_ne s din differ]
  rfl

theorem addr_setInode_self (s : State) (inum : Nat) (din : Dinode) (k : Nat) :
    (s.setInode inum din).addr inum k = s.disk.bmap din k := by
  rw [addr, inode_setInode_self]
  rfl

theorem addr_setWord (s : State) {inum sector : Nat} (idx value k : Nat)
    (differ : (s.disk.inode inum).addrs 12 ≠ sector) :
    (s.setWord sector idx value).addr inum k = s.addr inum k := by
  change Disk.bmap _ (s.disk.inode inum) k = Disk.bmap _ (s.disk.inode inum) k
  refine Disk.bmap_congr (fun _ => rfl) rfl fun _ => ?_
  simp [setWord, differ]

end State

/-- The image holds the files. -/
structure Image (s : State) (file : Nat → File) (count : Nat → Nat)
    (owner : Nat → Option Owner) : Prop where
  sb : s.disk.sb = ⟨Mkfs.size, nblocks, ninodes⟩
  counters : s.usedblocks = s.freeblock
  low : 29 ≤ s.freeblock
  first : 1 ≤ s.freeinode
  type : ∀ i, s.Used i → (s.disk.inode i).type = (file i).type
  nlink : ∀ i, s.Used i → (s.disk.inode i).nlink = 1
  size : ∀ i, s.Used i → (s.disk.inode i).size = (file i).size
  unused : ∀ i, ¬ s.Used i → s.disk.inode i = {}
  data : ∀ i, s.Used i → ∀ k, k < count i → owner (s.addr i k) = some (.data i k)
  beyond : ∀ i, s.Used i → ∀ k, count i ≤ k → s.addr i k = 0
  direct : ∀ i, s.Used i → count i ≤ 12 → (s.disk.inode i).addrs 12 = 0
  indirect : ∀ i, s.Used i → 12 < count i →
    owner ((s.disk.inode i).addrs 12) = some (.indirect i)
  ownedData : ∀ b i k, owner b = some (.data i k) →
    s.Used i ∧ k < count i ∧ s.addr i k = b
  ownedIndirect : ∀ b i, owner b = some (.indirect i) →
    s.Used i ∧ 12 < count i ∧ (s.disk.inode i).addrs 12 = b
  range : ∀ b, (owner b).isSome ↔ 29 ≤ b ∧ b < s.freeblock
  freshByte : ∀ b, s.freeblock ≤ b → ∀ j, s.disk.byte b j = 0
  freshWord : ∀ b, s.freeblock ≤ b → ∀ j, s.disk.word b j = 0
  bytes : ∀ i, s.Used i → ∀ k, k < count i → ∀ j, j < 512 →
    s.disk.byte (s.addr i k) j = (file i).content.getD (512 * k + j) 0
  fits : ∀ i, s.Used i → (file i).content.length ≤ 512 * count i

namespace Image

variable {s s' : State} {file : Nat → File} {count : Nat → Nat} {owner : Nat → Option Owner}
  {i : Nat} {j : Nat}

theorem owner_range (image : Image s file count owner) {b : Nat} {o : Owner}
    (owned : owner b = some o) : 29 ≤ b ∧ b < s.freeblock :=
  (image.range b).mp (by rw [owned]; rfl)

theorem addr_range (image : Image s file count owner) (used : s.Used i)
    (below : k < count i) : 29 ≤ s.addr i k ∧ s.addr i k < s.freeblock :=
  image.owner_range (image.data i used k below)

theorem lt_grown : k < update count i (count i + 1) j ↔ k < count j ∨ j = i ∧ k = count i := by
  by_cases same : j = i
  · subst same
    rw [update_self]
    omega
  · rw [update_of_ne same]
    tauto

/-- An inode that got one more block, and before that its indirect block if it needs one. -/
theorem grow (image : Image s file count owner) (used : s.Used i)
    (inodes : s'.freeinode = s.freeinode) (sb : s'.disk.sb = s.disk.sb)
    (counters : s'.usedblocks = s'.freeblock)
    (others : ∀ j, j ≠ i → s'.disk.inode j = s.disk.inode j)
    (fields : SameFields (s'.disk.inode i) (s.disk.inode i))
    (kept : ∀ j, s.Used j → ∀ k, ¬ (j = i ∧ k = count i) → s'.addr j k = s.addr j k)
    (bytes : s'.disk.byte = s.disk.byte) (fresh : ∀ b, s'.freeblock ≤ b → ∀ j, s'.disk.word b j = 0)
    (last : s'.addr i (count i) + 1 = s'.freeblock)
    (one : count i ≠ 12 → (s'.disk.inode i).addrs 12 = (s.disk.inode i).addrs 12 ∧
      s'.addr i (count i) = s.freeblock)
    (two : count i = 12 → (s'.disk.inode i).addrs 12 = s.freeblock ∧
      s'.addr i (count i) = s.freeblock + 1) :
    ∃ owner', Image s' file (update count i (count i + 1)) owner' := by
  have usedIff : ∀ j, s'.Used j ↔ s.Used j := fun j => by simp only [State.Used, inodes]
  have atLeast : s.freeblock ≤ s'.addr i (count i) := by
    by_cases twelve : count i = 12
    · have := (two twelve).2
      omega
    · have := (one twelve).2
      omega
  refine ⟨fun b => if b = s'.addr i (count i) then some (.data i (count i))
    else if count i = 12 ∧ b = s.freeblock then some (.indirect i) else owner b, ?_⟩
  -- an old owner keeps its block: the new blocks are past all of them
  have old : ∀ b o, owner b = some o →
      (if b = s'.addr i (count i) then some (Owner.data i (count i))
        else if count i = 12 ∧ b = s.freeblock then some (.indirect i) else owner b) = some o := by
    intro b o owned
    have := image.owner_range owned
    rw [if_neg (by omega), if_neg (by omega), owned]
  have low := image.low
  constructor
  case sb => rw [sb, image.sb]
  case counters => exact counters
  case low => omega
  case first => rw [inodes]; exact image.first
  case type =>
      intro j usedJ
      by_cases same : j = i
      · rw [same, fields.type, image.type i used]
      · rw [others j same, image.type j ((usedIff j).mp usedJ)]
  case nlink =>
      intro j usedJ
      by_cases same : j = i
      · rw [same, fields.nlink, image.nlink i used]
      · rw [others j same, image.nlink j ((usedIff j).mp usedJ)]
  case size =>
      intro j usedJ
      by_cases same : j = i
      · rw [same, fields.size, image.size i used]
      · rw [others j same, image.size j ((usedIff j).mp usedJ)]
  case unused =>
      intro j unusedJ
      have unusedJ' : ¬ s.Used j := fun h => unusedJ ((usedIff j).mpr h)
      rw [others j fun same => unusedJ' (same ▸ used), image.unused j unusedJ']
  case data =>
      intro j usedJ k below
      by_cases new : j = i ∧ k = count i
      · simp [new.1, new.2]
      · rw [kept j ((usedIff j).mp usedJ) k new]
        exact old _ _ (image.data j ((usedIff j).mp usedJ) k
          ((lt_grown.mp below).resolve_right new))
  case beyond =>
      intro j usedJ k past
      have later := mt lt_grown.mpr (Nat.not_lt.mpr past)
      rw [kept j ((usedIff j).mp usedJ) k fun new => later (.inr new)]
      exact image.beyond j ((usedIff j).mp usedJ) k (Nat.not_lt.mp fun h => later (.inl h))
  case direct =>
      intro j usedJ few
      by_cases same : j = i
      · subst same
        rw [update_self] at few
        rw [(one (by omega)).1, image.direct j used (by omega)]
      · rw [update_of_ne same] at few
        rw [others j same, image.direct j ((usedIff j).mp usedJ) few]
  case indirect =>
      intro j usedJ many
      by_cases same : j = i
      · subst same
        rw [update_self] at many
        by_cases twelve : count j = 12
        · have := (two twelve).2
          rw [(two twelve).1, if_neg (by omega), if_pos ⟨twelve, rfl⟩]
        · rw [(one twelve).1]
          exact old _ _ (image.indirect j used (by omega))
      · rw [update_of_ne same] at many
        rw [others j same]
        exact old _ _ (image.indirect j ((usedIff j).mp usedJ) many)
  case ownedData =>
      intro b j k owned
      split_ifs at owned with new added
      · cases owned
        exact ⟨(usedIff i).mpr used, lt_grown.mpr (.inr ⟨rfl, rfl⟩), new.symm⟩
      · cases owned
      · obtain ⟨usedJ, below, equal⟩ := image.ownedData b j k owned
        have notNew : ¬ (j = i ∧ k = count i) := by
          rintro ⟨rfl, rfl⟩
          omega
        exact ⟨(usedIff j).mpr usedJ, lt_grown.mpr (.inl below),
          by rw [kept j usedJ k notNew, equal]⟩
  case ownedIndirect =>
      intro b j owned
      split_ifs at owned with new added
      · cases owned
      · cases owned
        exact ⟨(usedIff i).mpr used, by rw [update_self]; omega,
          (two added.1).1.trans added.2.symm⟩
      · obtain ⟨usedJ, many, equal⟩ := image.ownedIndirect b j owned
        refine ⟨(usedIff j).mpr usedJ, lt_grown.mpr (.inl many), ?_⟩
        by_cases same : j = i
        · subst same
          rw [(one (by omega)).1, equal]
        · rw [others j same, equal]
  case range =>
      intro b
      by_cases twelve : count i = 12
      · have added := (two twelve).2
        split_ifs with new other
        · simp; omega
        · simp; omega
        · rw [image.range b]
          have : b ≠ s.freeblock := fun h => other ⟨twelve, h⟩
          omega
      · have added := (one twelve).2
        split_ifs with new other
        · simp; omega
        · exact absurd other.1 twelve
        · rw [image.range b]
          omega
  case freshByte => intro b past j; rw [bytes, image.freshByte b (by omega)]
  case freshWord => exact fresh
  case bytes =>
      intro j usedJ k below n inside
      rw [bytes]
      by_cases new : j = i ∧ k = count i
      · obtain ⟨rfl, rfl⟩ := new
        have := image.fits j used
        rw [image.freshByte _ atLeast, getD_past _ (by omega)]
      · rw [kept j ((usedIff j).mp usedJ) k new]
        exact image.bytes j ((usedIff j).mp usedJ) k
          ((lt_grown.mp below).resolve_right new) n inside
  case fits =>
      intro j usedJ
      have := image.fits j ((usedIff j).mp usedJ)
      by_cases same : j = i
      · subst same
        rw [update_self]
        omega
      · rwa [update_of_ne same]

/-! ## Blocks of `iappend` -/

section Block

variable {din : Dinode}

theorem setAddr_self (k value : Nat) : (din.setAddr k value).addrs k = value :=
  update_self ..

theorem setAddr_ne (value : Nat) (differ : j ≠ k) : (din.setAddr k value).addrs j = din.addrs j :=
  update_of_ne differ ..

section
variable (image : Image s file count owner)
include image

theorem addrs_zero_iff (used : s.Used i) (k : Nat) : s.addr i k = 0 ↔ count i ≤ k := by
  constructor
  · intro zero
    by_contra below
    have := image.addr_range used (Nat.not_le.mp below)
    omega
  · exact image.beyond i used k

theorem indirect_zero_iff (used : s.Used i) : (s.disk.inode i).addrs 12 = 0 ↔ count i ≤ 12 := by
  constructor
  · intro zero
    by_contra many
    have := image.owner_range (image.indirect i used (Nat.not_le.mp many))
    omega
  · exact image.direct i used

theorem indirect_ne {j : Nat} (usedI : s.Used i)
    (usedJ : s.Used j) (differ : j ≠ i) (present : (s.disk.inode i).addrs 12 ≠ 0) :
    (s.disk.inode j).addrs 12 ≠ (s.disk.inode i).addrs 12 := by
  intro equal
  have manyI : 12 < count i := Nat.not_le.mp fun few => present (image.direct i usedI few)
  have manyJ : 12 < count j := Nat.not_le.mp fun few => present (equal ▸ image.direct j usedJ few)
  have ownerJ := image.indirect j usedJ manyJ
  rw [equal, image.indirect i usedI manyI] at ownerJ
  injection ownerJ with same
  injection same with same
  exact differ same.symm

theorem indirect_lt (used : s.Used i) : (s.disk.inode i).addrs 12 < s.freeblock := by
  have low := image.low
  by_cases few : count i ≤ 12
  · rw [image.direct i used few]
    omega
  · exact (image.owner_range (image.indirect i used (Nat.not_le.mp few))).2

end

section
variable (image : Image (s.setInode i din) file count owner) (used : s.Used i)
include image used

theorem block_direct (few : count i < 12) :
    ∃ owner', Image (s.take.setInode i (din.setAddr (count i) s.freeblock)) file
      (update count i (count i + 1)) owner' := by
  refine image.grow used rfl rfl ?_ ?_ ?_ ?_ rfl ?_ ?_ ?_ (by omega)
  · exact congrArg (· + 1) image.counters
  · intro j differ
    rw [State.inode_setInode_ne _ _ differ, State.inode_setInode_ne _ _ differ]
    rfl
  · rw [State.inode_setInode_self, State.inode_setInode_self]
    exact ⟨rfl, rfl, rfl⟩
  · intro j _ k old
    by_cases same : j = i
    · subst same
      rw [State.addr_setInode_self, State.addr_setInode_self]
      refine Disk.bmap_congr (fun _ => ?_) (setAddr_ne _ (by omega)) fun _ => rfl
      exact setAddr_ne _ fun h => old ⟨rfl, h⟩
    · rw [State.addr_setInode_ne _ _ _ same, State.addr_setInode_ne _ _ _ same]
      rfl
  · intro b past
    exact image.freshWord b (Nat.le_of_succ_le past)
  · rw [State.addr_setInode_self, Disk.bmap_direct _ _ few, setAddr_self]
    rfl
  · intro _
    rw [State.addr_setInode_self, Disk.bmap_direct _ _ few, setAddr_self,
      State.inode_setInode_self, State.inode_setInode_self, setAddr_ne _ (by omega)]
    exact ⟨rfl, rfl⟩

theorem block_first (twelve : count i = 12) :
    ∃ owner', Image ((s.take.take.setWord s.freeblock 0 (s.freeblock + 1)).setInode i
      (din.setAddr 12 s.freeblock)) file (update count i (count i + 1)) owner' := by
  have low : 29 ≤ s.freeblock := image.low
  have address : ((s.take.take.setWord s.freeblock 0 (s.freeblock + 1)).setInode i
      (din.setAddr 12 s.freeblock)).addr i (count i) = s.freeblock + 1 := by
    rw [State.addr_setInode_self, Disk.bmap_indirect _ _ (by omega)
      (by rw [setAddr_self]; omega), setAddr_self, twelve]
    simp [State.setWord]
  refine image.grow used rfl rfl ?_ ?_ ?_ ?_ rfl ?_ ?_ (by omega) ?_
  · exact congrArg (· + 2) image.counters
  · intro j differ
    rw [State.inode_setInode_ne _ _ differ, State.inode_setInode_ne _ _ differ]
    rfl
  · rw [State.inode_setInode_self, State.inode_setInode_self]
    exact ⟨rfl, rfl, rfl⟩
  · intro j usedJ k old
    by_cases same : j = i
    · subst same
      by_cases few : k < 12
      · rw [State.addr_setInode_self, State.addr_setInode_self, Disk.bmap_direct _ _ few,
          Disk.bmap_direct _ _ few, setAddr_ne _ (by omega)]
      · -- the rest of the new indirect block is zero
        have past : 12 < k := by omega
        rw [image.beyond j used k (by omega), State.addr_setInode_self,
          Disk.bmap_indirect _ _ (Nat.le_of_lt past) (by rw [setAddr_self]; omega), setAddr_self]
        have zero : s.disk.word s.freeblock (k - 12) = 0 :=
          image.freshWord s.freeblock (Nat.le_refl _) _
        have later : k - 12 ≠ 0 := by omega
        simpa [State.setInode, State.setWord, State.take, later] using zero
    · rw [State.addr_setInode_ne _ _ _ same, State.addr_setInode_ne _ _ _ same]
      have below := image.indirect_lt usedJ
      rw [State.inode_setInode_ne _ _ same] at below
      exact State.addr_setWord s.take.take _ _ _ (Nat.ne_of_lt below)
  · intro b past k
    have differ : b ≠ s.freeblock := Nat.ne_of_gt (Nat.lt_of_succ_lt past)
    have zero : s.disk.word b k = 0 := image.freshWord b (Nat.le_of_lt (Nat.lt_of_succ_lt past)) k
    simpa [State.setInode, State.setWord, State.take, differ] using zero
  · rw [address]
    rfl
  · intro _
    rw [address, State.inode_setInode_self, setAddr_self]
    exact ⟨rfl, rfl⟩

theorem block_indirect (many : 12 < count i) :
    ∃ owner', Image ((s.take.setWord (din.addrs 12) (count i - 12) s.freeblock).setInode i din)
      file (update count i (count i + 1)) owner' := by
  have present : din.addrs 12 ≠ 0 := by
    intro zero
    have few := (image.indirect_zero_iff used).mp (by rw [State.inode_setInode_self, zero])
    omega
  have below : din.addrs 12 < s.freeblock := by
    have lt := image.indirect_lt used
    rwa [State.inode_setInode_self] at lt
  have address : ((s.take.setWord (din.addrs 12) (count i - 12) s.freeblock).setInode i
      din).addr i (count i) = s.freeblock := by
    rw [State.addr_setInode_self, Disk.bmap_indirect _ _ (Nat.le_of_lt many) present]
    simp [State.setWord]
  refine image.grow used rfl rfl ?_ ?_ ?_ ?_ rfl ?_ ?_ ?_ (by omega)
  · exact congrArg (· + 1) image.counters
  · intro j differ
    rw [State.inode_setInode_ne _ _ differ, State.inode_setInode_ne _ _ differ]
    rfl
  · rw [State.inode_setInode_self, State.inode_setInode_self]
    exact ⟨rfl, rfl, rfl⟩
  · intro j usedJ k old
    by_cases same : j = i
    · subst same
      rw [State.addr_setInode_self, State.addr_setInode_self]
      refine Disk.bmap_congr (fun _ => rfl) rfl fun past => ?_
      have differ : k - 12 ≠ count j - 12 := by omega
      simp [State.setWord, State.take, differ]
    · rw [State.addr_setInode_ne _ _ _ same, State.addr_setInode_ne _ _ _ same]
      have apart := image.indirect_ne used usedJ same (by rwa [State.inode_setInode_self])
      rw [State.inode_setInode_ne _ _ same, State.inode_setInode_self] at apart
      exact State.addr_setWord s.take _ _ _ apart
  · intro b past k
    have differ : b ≠ din.addrs 12 := Nat.ne_of_gt (Nat.lt_trans below past)
    have zero : s.disk.word b k = 0 := image.freshWord b (Nat.le_of_succ_le past) k
    simpa [State.setInode, State.setWord, State.take, differ] using zero
  · rw [address]
    rfl
  · intro _
    rw [address, State.inode_setInode_self, State.inode_setInode_self]
    exact ⟨rfl, rfl⟩

theorem block_spec {fbn x : Nat} {din' : Dinode} (most : fbn ≤ count i)
    (run : s.block din fbn = some (x, din', s')) :
    s'.freeinode = s.freeinode ∧ (s'.setInode i din').addr i fbn = x ∧
      ∃ owner', Image (s'.setInode i din') file
        (update count i (max (count i) (fbn + 1))) owner' := by
  have zeroIff := image.addrs_zero_iff used fbn
  rw [State.addr_setInode_self] at zeroIff
  have indirectIff := image.indirect_zero_iff used
  rw [State.inode_setInode_self] at indirectIff
  -- with a new block the count grows by one, else it stays
  have grown : count i ≤ fbn → max (count i) (fbn + 1) = count i + 1 := by omega
  have kept : fbn < count i → update count i (max (count i) (fbn + 1)) = count := by
    intro below
    rw [Nat.max_eq_left below, update_eq_self]
  rw [State.block, ndirect] at run
  by_cases few : fbn < 12
  · rw [if_pos few] at run
    rw [Disk.bmap_direct _ _ few] at zeroIff
    split_ifs at run with zero
    · obtain ⟨rfl, rfl, rfl⟩ : s.freeblock = x ∧ din.setAddr fbn s.freeblock = din' ∧
          s.take = s' := by simpa using run
      have equal : fbn = count i := Nat.le_antisymm most (zeroIff.mp zero)
      subst equal
      refine ⟨rfl, ?_, ?_⟩
      · rw [State.addr_setInode_self, Disk.bmap_direct _ _ few, setAddr_self]
      · rw [grown (Nat.le_refl _)]
        exact image.block_direct used few
    · obtain ⟨rfl, rfl, rfl⟩ : din.addrs fbn = x ∧ din = din' ∧ s = s' := by simpa using run
      refine ⟨rfl, ?_, owner, ?_⟩
      · rw [State.addr_setInode_self, Disk.bmap_direct _ _ few]
      · rwa [kept (Nat.not_le.mp fun past => zero (zeroIff.mpr past))]
  · have past : 12 ≤ fbn := Nat.not_lt.mp few
    rw [if_neg few, State.indirect, ndirect] at run
    by_cases absent : din.addrs 12 = 0
    · have twelve : count i = 12 := Nat.le_antisymm (indirectIff.mp absent) (Nat.le_trans past most)
      have equal : fbn = 12 := by omega
      subst equal
      have zero : s.take.disk.word s.freeblock 0 = 0 :=
        image.freshWord s.freeblock (Nat.le_refl _) 0
      simp only [if_pos absent, setAddr_self, Nat.sub_self, zero, if_true] at run
      split_ifs at run with inside
      obtain ⟨rfl, rfl, rfl⟩ : s.take.freeblock = x ∧ din.setAddr 12 s.freeblock = din' ∧
          s.take.take.setWord s.freeblock 0 s.take.freeblock = s' := by simpa using run
      have low : 29 ≤ s.freeblock := image.low
      refine ⟨rfl, ?_, ?_⟩
      · rw [State.addr_setInode_self, Disk.bmap_indirect _ _ (Nat.le_refl _)
          (by rw [setAddr_self]; omega), setAddr_self]
        simp [State.setWord]
      · rw [grown (by omega)]
        exact image.block_first used twelve
    · have many : 12 < count i := Nat.not_le.mp fun h => absent (indirectIff.mpr h)
      rw [Disk.bmap_indirect _ _ past absent] at zeroIff
      simp only [if_neg absent] at run
      split_ifs at run with inside zero
      · obtain ⟨rfl, rfl, rfl⟩ : s.freeblock = x ∧ din = din' ∧
            s.take.setWord (din.addrs 12) (fbn - 12) s.freeblock = s' := by simpa using run
        have equal : fbn = count i := Nat.le_antisymm most (zeroIff.mp zero)
        subst equal
        refine ⟨rfl, ?_, ?_⟩
        · rw [State.addr_setInode_self, Disk.bmap_indirect _ _ past absent]
          simp [State.setWord]
        · rw [grown (Nat.le_refl _)]
          exact image.block_indirect used many
      · obtain ⟨rfl, rfl, rfl⟩ : s.disk.word (din.addrs 12) (fbn - 12) = x ∧ din = din' ∧
            s = s' := by simpa using run
        refine ⟨rfl, ?_, owner, ?_⟩
        · rw [State.addr_setInode_self, Disk.bmap_indirect _ _ past absent]
        · rwa [kept (Nat.not_le.mp fun h => zero (zeroIff.mpr h))]

end

end Block

section
variable (image : Image s file count owner)
include image

theorem sectors_apart (few : s.freeinode ≤ ninodes) (used : s.Used i) :
    i2b i < ninodes / ipb + 3 ∧
      (∀ k, k < count i → ninodes / ipb + 3 < s.addr i k) ∧
      (12 < count i → ninodes / ipb + 3 < (s.disk.inode i).addrs 12) ∧
      ∀ j, s.Used j → ∀ k, k < count j → 12 < count i →
        s.addr j k ≠ (s.disk.inode i).addrs 12 := by
  refine ⟨?_, fun k below => ?_, fun many => ?_, fun j usedJ k below many equal => ?_⟩
  · have last := used.2
    simp only [i2b, ninodes, ipb] at few ⊢
    omega
  · exact (image.addr_range used below).1
  · exact (image.owner_range (image.indirect i used many)).1
  · have ownerJ := image.data j usedJ k below
    rw [equal, image.indirect i used many] at ownerJ
    cases ownerJ

/-! ## Bytes and sizes -/

theorem addr_inj {j k l : Nat} (usedI : s.Used i)
    (usedJ : s.Used j) (belowI : k < count i) (belowJ : l < count j)
    (equal : s.addr j l = s.addr i k) : j = i ∧ l = k := by
  have ownerJ := image.data j usedJ l belowJ
  rw [equal, image.data i usedI k belowI] at ownerJ
  injection ownerJ with same
  injection same with same same'
  exact ⟨same.symm, same'.symm⟩

theorem copy_spec (used : s.Used i) {k o : Nat}
    (below : k < count i) (start : (file i).content.length = 512 * k + o)
    (inside : o + p.length ≤ 512) :
    Image (s.copy (s.addr i k) o p)
      (update file i ((file i).extend p)) count owner := by
  have addrRange := image.addr_range used below
  have other : ∀ j, j ≠ i →
      update file i ((file i).extend p) j = file j :=
    fun j differ => update_of_ne differ ..
  constructor
  case sb => exact image.sb
  case counters => exact image.counters
  case low => exact image.low
  case first => exact image.first
  case type =>
      intro j usedJ
      by_cases same : j = i
      · subst same
        rw [update_self]
        exact image.type j used
      · rw [other j same]
        exact image.type j usedJ
  case nlink => exact image.nlink
  case size =>
      intro j usedJ
      by_cases same : j = i
      · subst same
        rw [update_self]
        exact image.size j used
      · rw [other j same]
        exact image.size j usedJ
  case unused => exact image.unused
  case data => exact image.data
  case beyond => exact image.beyond
  case direct => exact image.direct
  case indirect => exact image.indirect
  case ownedData => exact image.ownedData
  case ownedIndirect => exact image.ownedIndirect
  case range => exact image.range
  case freshByte =>
      intro b past j
      have differ : b ≠ s.addr i k := Nat.ne_of_gt (Nat.lt_of_lt_of_le addrRange.2 past)
      simpa [State.copy, differ] using image.freshByte b past j
  case freshWord => exact image.freshWord
  case bytes =>
      intro j usedJ l belowJ n insideN
      change (if s.addr j l = s.addr i k ∧ o ≤ n ∧ n < o + p.length then p.getD (n - o) 0
        else s.disk.byte (s.addr j l) n) = _
      have old := image.bytes j usedJ l belowJ n insideN
      by_cases same : j = i
      · subst same
        rw [update_self]
        simp only [File.extend, List.getD_eq_getElem?_getD, List.getElem?_append] at old ⊢
        by_cases block : l = k
        · subst block
          by_cases copied : o ≤ n ∧ n < o + p.length
          · rw [if_pos ⟨rfl, copied⟩, if_neg (by omega), start]
            congr 2
            omega
          · rw [if_neg fun h => copied h.2, old]
            split_ifs with before
            · rfl
            · rw [List.getElem?_eq_none (by omega), List.getElem?_eq_none (by omega)]
        · have apart : s.addr j l ≠ s.addr j k := fun equal =>
            block (image.addr_inj used used below belowJ equal).2
          rw [if_neg fun h => apart h.1, old]
          split_ifs with before
          · rfl
          · rw [List.getElem?_eq_none (by omega), List.getElem?_eq_none (by omega)]
      · have apart : s.addr j l ≠ s.addr i k := fun equal =>
          same (image.addr_inj used usedJ below belowJ equal).1
        rw [other j same, if_neg fun h => apart h.1, old]
  case fits =>
      intro j usedJ
      by_cases same : j = i
      · subst same
        rw [update_self, File.length_extend, start]
        omega
      · rw [other j same]
        exact image.fits j usedJ

end

theorem setSize_spec {din : Dinode} (image : Image (s.setInode i din) file count owner)
    (used : s.Used i) (z : Nat) : Image (s.setInode i { din with size := z })
      (update file i ((file i).resize z)) count owner := by
  have other : ∀ j, j ≠ i → update file i ((file i).resize z) j = file j :=
    fun j differ => update_of_ne differ ..
  have addrs : ∀ j k, (s.setInode i { din with size := z }).addr j k =
      (s.setInode i din).addr j k := by
    intro j k
    by_cases same : j = i
    · subst same
      rw [State.addr_setInode_self, State.addr_setInode_self]
      rfl
    · rw [State.addr_setInode_ne _ _ _ same, State.addr_setInode_ne _ _ _ same]
  have indirects : ∀ j, ((s.setInode i { din with size := z }).disk.inode j).addrs =
      ((s.setInode i din).disk.inode j).addrs := by
    intro j
    rw [State.inode_setInode, State.inode_setInode]
    split_ifs <;> rfl
  have content : ∀ j, (update file i ((file i).resize z) j).content =
      (file j).content := by
    intro j
    by_cases same : j = i
    · rw [same, update_self]
      rfl
    · rw [other j same]
  constructor
  case sb => exact image.sb
  case counters => exact image.counters
  case low => exact image.low
  case first => exact image.first
  case type =>
      intro j usedJ
      have old := image.type j usedJ
      rw [State.inode_setInode] at old ⊢
      by_cases same : j = i
      · subst same
        rw [update_self]
        simpa [File.resize] using old
      · simpa [same, other j same] using old
  case nlink =>
      intro j usedJ
      have old := image.nlink j usedJ
      rw [State.inode_setInode] at old ⊢
      split_ifs at old ⊢ <;> exact old
  case size =>
      intro j usedJ
      have old := image.size j usedJ
      rw [State.inode_setInode] at old ⊢
      by_cases same : j = i
      · subst same
        rw [if_pos rfl, update_self]
        rfl
      · simpa [same, other j same] using old
  case unused =>
      intro j unusedJ
      have differ : j ≠ i := fun same => unusedJ (same ▸ used)
      rw [State.inode_setInode_ne _ _ differ]
      have old := image.unused j unusedJ
      rwa [State.inode_setInode_ne _ _ differ] at old
  case data => exact fun j usedJ k below => addrs j k ▸ image.data j usedJ k below
  case beyond => exact fun j usedJ k past => addrs j k ▸ image.beyond j usedJ k past
  case direct => exact fun j usedJ few => indirects j ▸ image.direct j usedJ few
  case indirect => exact fun j usedJ many => indirects j ▸ image.indirect j usedJ many
  case ownedData => exact fun b j k owned => addrs j k ▸ image.ownedData b j k owned
  case ownedIndirect => exact fun b j owned => indirects j ▸ image.ownedIndirect b j owned
  case range => exact image.range
  case freshByte => exact image.freshByte
  case freshWord => exact image.freshWord
  case bytes =>
      intro j usedJ k below n inside
      rw [addrs, content]
      exact image.bytes j usedJ k below n inside
  case fits =>
      intro j usedJ
      rw [content]
      exact image.fits j usedJ

/-- A new inode, the next after those in use. -/
theorem ialloc_image (image : Image s file count owner) (type : Nat) :
    Image { s.setInode s.freeinode { type := type, nlink := 1 } with
        freeinode := s.freeinode + 1 }
      (update file s.freeinode ⟨type, [], 0⟩) (update count s.freeinode 0)
      owner := by
  have first := image.first
  generalize child : s.freeinode = c at first
  have fresh : ¬ s.Used c := fun used => absurd (child ▸ used.2) (Nat.lt_irrefl c)
  have usedIff : ∀ j, State.Used { s.setInode c { type := type, nlink := 1 } with
      freeinode := c + 1 } j ↔ j = c ∨ s.Used j := by
    intro j
    simp only [State.Used, child]
    omega
  have differ : ∀ j, s.Used j → j ≠ c := fun j used same => fresh (same ▸ used)
  have inode : ∀ j, Disk.inode { s.setInode c { type := type, nlink := 1 } with
      freeinode := c + 1 }.disk j = if j = c then { type := type, nlink := 1 }
        else s.disk.inode j := fun j => State.inode_setInode ..
  have inodeOld : ∀ j, s.Used j → Disk.inode { s.setInode c { type := type, nlink := 1 } with
      freeinode := c + 1 }.disk j = s.disk.inode j :=
    fun j used => State.inode_setInode_ne _ _ (differ j used)
  have addrOld : ∀ j, s.Used j → ∀ k, State.addr { s.setInode c { type := type, nlink := 1 } with
      freeinode := c + 1 } j k = s.addr j k :=
    fun j used k => State.addr_setInode_ne s _ k (differ j used)
  have addrNew : ∀ k, State.addr { s.setInode c { type := type, nlink := 1 } with
      freeinode := c + 1 } c k = 0 := by
    intro k
    refine (State.addr_setInode_self s c _ k).trans ?_
    simp [Disk.bmap]
  constructor
  case sb => exact image.sb
  case counters => exact image.counters
  case low => exact image.low
  case first => exact Nat.succ_pos c
  case type =>
      intro j usedJ
      rcases (usedIff j).mp usedJ with rfl | old
      · rw [inode, if_pos rfl, update_self]
      · rw [inodeOld j old, update_of_ne (differ j old), image.type j old]
  case nlink =>
      intro j usedJ
      rcases (usedIff j).mp usedJ with rfl | old
      · rw [inode, if_pos rfl]
      · rw [inodeOld j old, image.nlink j old]
  case size =>
      intro j usedJ
      rcases (usedIff j).mp usedJ with rfl | old
      · rw [inode, if_pos rfl, update_self]
      · rw [inodeOld j old, update_of_ne (differ j old), image.size j old]
  case unused =>
      intro j unusedJ
      rw [usedIff, not_or] at unusedJ
      rw [inode, if_neg unusedJ.1, image.unused j unusedJ.2]
  case data =>
      intro j usedJ k below
      rcases (usedIff j).mp usedJ with rfl | old
      · rw [update_self] at below
        omega
      · rw [update_of_ne (differ j old)] at below
        rw [addrOld j old, image.data j old k below]
  case beyond =>
      intro j usedJ k past
      rcases (usedIff j).mp usedJ with rfl | old
      · exact addrNew k
      · rw [update_of_ne (differ j old)] at past
        rw [addrOld j old, image.beyond j old k past]
  case direct =>
      intro j usedJ few
      rcases (usedIff j).mp usedJ with rfl | old
      · rw [inode, if_pos rfl]
      · rw [update_of_ne (differ j old)] at few
        rw [inodeOld j old, image.direct j old few]
  case indirect =>
      intro j usedJ many
      rcases (usedIff j).mp usedJ with rfl | old
      · rw [update_self] at many
        omega
      · rw [update_of_ne (differ j old)] at many
        rw [inodeOld j old, image.indirect j old many]
  case ownedData =>
      intro b j k owned
      obtain ⟨old, below, equal⟩ := image.ownedData b j k owned
      refine ⟨(usedIff j).mpr (.inr old), ?_, by rw [addrOld j old, equal]⟩
      rwa [update_of_ne (differ j old)]
  case ownedIndirect =>
      intro b j owned
      obtain ⟨old, many, equal⟩ := image.ownedIndirect b j owned
      refine ⟨(usedIff j).mpr (.inr old), ?_, by rw [inodeOld j old, equal]⟩
      rwa [update_of_ne (differ j old)]
  case range => exact image.range
  case freshByte => exact image.freshByte
  case freshWord => exact image.freshWord
  case bytes =>
      intro j usedJ k below n inside
      rcases (usedIff j).mp usedJ with rfl | old
      · rw [update_self] at below
        omega
      · rw [update_of_ne (differ j old)] at below ⊢
        rw [addrOld j old]
        exact image.bytes j old k below n inside
  case fits =>
      intro j usedJ
      rcases (usedIff j).mp usedJ with rfl | old
      · rw [update_self, update_self]
        exact Nat.le_refl _
      · rw [update_of_ne (differ j old), update_of_ne (differ j old)]
        exact image.fits j old

end Image

/-! ## The functions of `mkfs` -/

/-- A file has as many blocks as it needs, and no more than a file can have. -/
structure Tight (f : File) (count : Nat) : Prop where
  count_eq : count = (f.content.length + 511) / 512
  short : f.content.length ≤ 512 * maxfile

/-- The image holds the files, in as many blocks as they need. -/
def Holds (s : State) (file : Nat → File) : Prop :=
  ∃ count owner, Image s file count owner ∧
    ∀ i, s.Used i → Tight (file i) (count i)

namespace Image

variable {s s' : State} {file : Nat → File} {i : Nat}

theorem iappendLoop_spec (fuel : Nat) : ∀ {s : State} {din : Dinode} {file : Nat → File}
    {count : Nat → Nat} {owner : Nat → Option Owner} {off : Nat} {p : List UInt8}
    {s' : State} {din' : Dinode} {off' : Nat},
    Image (s.setInode i din) file count owner → s.Used i → off = (file i).content.length →
    (∀ j, s.Used j → Tight (file j) (count j)) →
    State.iappendLoop fuel s din off p = some (s', din', off') →
    s'.freeinode = s.freeinode ∧ off' = off + p.length ∧
      ∃ count' owner', Image (s'.setInode i din')
        (update file i ((file i).extend p)) count' owner' ∧
        ∀ j, s.Used j → Tight (update file i ((file i).extend p) j) (count' j) := by
  induction fuel with
  | zero =>
    intro s din file count owner off p s' din' off' image used start tight run
    cases p with
    | nil =>
      cases run
      rw [File.extend_nil, update_eq_self]
      exact ⟨rfl, rfl, count, owner, image, tight⟩
    | cons byte rest => simp [State.iappendLoop] at run
  | succ fuel ih =>
    intro s din file count owner off p s' din' off' image used start tight run
    cases p with
    | nil =>
      cases run
      rw [File.extend_nil, update_eq_self]
      exact ⟨rfl, rfl, count, owner, image, tight⟩
    | cons byte rest =>
      rw [State.iappendLoop] at run
      generalize whole : byte :: rest = p at run ⊢
      have nonempty : 0 < p.length := by rw [← whole]; simp
      dsimp only at run
      split_ifs at run with small
      rcases found : s.block din (off / 512) with _ | ⟨x, din₁, s₁⟩
      · simp [found] at run
      simp only [found] at run
      split_ifs at run with inside
      have countI := (tight i used).count_eq
      obtain ⟨inodes, address, owner₁, image₁⟩ :=
        image.block_spec used (by omega) found
      set n1 := min p.length ((off / 512 + 1) * 512 - off) with n1Def
      have taken : (p.take n1).length = n1 := by rw [List.length_take]; omega
      have used₁ : s₁.Used i := by simpa only [State.Used, inodes] using used
      have copied := image₁.copy_spec (k := off / 512) (o := off - off / 512 * 512)
        (p := p.take n1) used₁ (by rw [update_self]; omega) (by omega) (by omega)
      rw [address] at copied
      change Image ((s₁.copy x (off - off / 512 * 512) (p.take n1)).setInode i din₁) _ _ _
        at copied
      have tight₁ : ∀ j, (s₁.copy x (off - off / 512 * 512) (p.take n1)).Used j →
          Tight (update file i ((file i).extend (p.take n1)) j)
            (update count i (max (count i) (off / 512 + 1)) j) := by
        intro j usedJ
        by_cases same : j = i
        · subst same
          rw [update_self, update_self]
          simp only [maxfile] at small
          constructor
          · rw [File.length_extend, taken, countI]
            omega
          · rw [File.length_extend, taken, maxfile]
            omega
        · rw [update_of_ne same, update_of_ne same]
          exact tight j (by simpa only [State.Used, State.copy, inodes] using usedJ)
      -- one round has appended the first bytes; the rest is the next rounds' work
      obtain ⟨inodes', offset, count', owner', image', tight'⟩ := ih copied used₁
        (by rw [update_self, File.length_extend, taken, start]) tight₁ run
      simp only [update_self, update_idem, File.extend_extend,
        List.take_append_drop] at image' tight'
      refine ⟨inodes'.trans inodes, ?_, count', owner', image', fun j usedJ => ?_⟩
      · rw [offset, List.length_drop]
        omega
      · exact tight' j (by simpa only [State.Used, State.copy, inodes] using usedJ)

end Image

namespace Holds

variable {s s' : State} {file : Nat → File} {i : Nat}

theorem setInode_inode (s : State) (i : Nat) : s.setInode i (s.disk.inode i) = s := by
  have table : (s.setInode i (s.disk.inode i)).disk.dinode = s.disk.dinode := by
    funext sector slot
    simp only [State.setInode]
    split_ifs with here
    · rw [here.1, here.2]
      rfl
    · rfl
  exact congrArg (fun table => { s with disk.dinode := table }) table

theorem iappend_spec (holds : Holds s file) (used : s.Used i)
    (whole : (file i).size = (file i).content.length) (run : s.iappend i p = some s') :
    s'.freeinode = s.freeinode ∧ Holds s' (update file i ((file i).append p)) := by
  obtain ⟨count, owner, image, tight⟩ := holds
  by_cases inside : i2b i < size
  case neg => simp [State.iappend, State.rinode, inside] at run
  have read : s.rinode i = some (s.disk.inode i) := by
    rw [State.rinode, if_pos inside]
    rfl
  simp only [State.iappend, read] at run
  rcases done : State.iappendLoop p.length s (s.disk.inode i) (s.disk.inode i).size p with
    _ | ⟨s₁, din, off⟩
  · simp [done] at run
  simp only [done, State.winode, inside, if_true, Option.some.injEq] at run
  subst run
  have sizeEq := image.size i used
  obtain ⟨inodes, offset, count', owner', image', tight'⟩ := Image.iappendLoop_spec p.length
    (by rwa [setInode_inode s i]) used (sizeEq.trans whole) tight done
  have used₁ : s₁.Used i := by simpa only [State.Used, inodes] using used
  have sized := image'.setSize_spec used₁ off
  rw [update_self, update_idem, offset, sizeEq] at sized
  refine ⟨inodes, count', owner', ?_, fun j usedJ => ?_⟩
  · rw [offset, sizeEq]
    exact sized
  · have countJ := tight' j (by simpa only [State.Used, State.setInode, inodes] using usedJ)
    by_cases same : j = i
    · subst same
      rw [update_self] at countJ ⊢
      exact ⟨countJ.count_eq, countJ.short⟩
    · rwa [update_of_ne same] at countJ ⊢

theorem fixSize_spec (holds : Holds s file) (used : s.Used i) (run : s.fixSize i = some s') :
    s'.freeinode = s.freeinode ∧
      Holds s' (update file i ((file i).resize (((file i).size / 512 + 1) * 512))) := by
  obtain ⟨count, owner, image, tight⟩ := holds
  rw [State.fixSize, State.rinode] at run
  split_ifs at run with inside
  change s.winode i { s.disk.inode i with size := ((s.disk.inode i).size / 512 + 1) * 512 } =
    some s' at run
  rw [State.winode, if_pos inside, Option.some.injEq] at run
  subst run
  have image' : Image (s.setInode i (s.disk.inode i)) file count owner := by
    rwa [setInode_inode s i]
  have sized := image'.setSize_spec used (((s.disk.inode i).size / 512 + 1) * 512)
  refine ⟨rfl, count, owner, ?_, fun j usedJ => ?_⟩
  · rw [image.size i used] at sized ⊢
    exact sized
  · by_cases same : j = i
    · subst same
      rw [update_self]
      exact ⟨(tight j used).count_eq, (tight j used).short⟩
    · rw [update_of_ne same]
      exact tight j usedJ

theorem ialloc_spec (holds : Holds s file) {type child : Nat}
    (run : s.ialloc type = some (child, s')) :
    child = s.freeinode ∧ s'.freeinode = s.freeinode + 1 ∧
      Holds s' (update file child ⟨type, [], 0⟩) := by
  obtain ⟨count, owner, image, tight⟩ := holds
  rw [State.ialloc, State.winode] at run
  split_ifs at run with inside
  simp only [Option.some.injEq, Prod.mk.injEq] at run
  obtain ⟨rfl, rfl⟩ := run
  exact ⟨rfl, rfl, update count s.freeinode 0, owner, image.ialloc_image type,
    fun j usedJ => by
      by_cases same : j = s.freeinode
      · rw [same, update_self, update_self]
        exact ⟨by simp, Nat.zero_le _⟩
      · rw [update_of_ne same, update_of_ne same]
        exact tight j ⟨usedJ.1, Nat.lt_of_le_of_ne (Nat.le_of_lt_succ usedJ.2) same⟩⟩

end Holds

end Mkfs

end Xv6
