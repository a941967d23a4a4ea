import Xv6.Kernel.Proc
import Xv6.Lib.LinkedList
import Xv6.Lib.Transition

/-!
# The queues of pids

`pidqueue.c` on an explicit heap: any number of queues, whose nodes are allocated and freed.
`malloc` returns any address that is not allocated, so that a node can come back right after
it was freed, and what is in memory that is no node may change at any time.
-/

namespace Xv6

open LinkedList Function

/-- A `pidStruct`. -/
structure PidNode where
  pid : Uint
  next : Option Nat
  deriving DecidableEq

/-- A `pidQueue`, without its lock. -/
structure PidQueue where
  head : Option Nat
  tail : Option Nat
  deriving DecidableEq

/-- What an allocated block is used for. -/
inductive BlockUse where
  | node
  | other
  deriving DecidableEq

/-- The memory with the queues; `ready` are those that `queue_init` was called for. -/
structure PidHeap (Queue : Type) where
  node : Nat → PidNode
  use : Nat → Option BlockUse
  queue : Queue → PidQueue
  ready : Queue → Bool

/-- `init` and `add` have the address that `malloc` returns.  `write` is a change to memory
that is not a node. -/
inductive QueueAction (Queue : Type) where
  | init (q : Queue) (clock : Nat)
  | add (q : Queue) (pid : Uint) (new : Nat)
  | remove (q : Queue)
  | write (address : Nat) (node : PidNode)

namespace PidHeap

variable {Queue : Type} [DecidableEq Queue]

def setQueue (s : PidHeap Queue) (q : Queue) (queue : PidQueue) : PidHeap Queue :=
  { s with queue := update s.queue q queue }

def setNext (s : PidHeap Queue) (a : Nat) (next : Option Nat) : PidHeap Queue :=
  { s with node := update s.node a { s.node a with next := next } }

/-- `malloc`, which returns `a`. -/
def malloc (s : PidHeap Queue) (a : Nat) (use : BlockUse) : Option (PidHeap Queue) :=
  if s.use a = none then some { s with use := update s.use a (some use) } else none

/-- `free` of a node; a block that is not allocated as one must not be freed. -/
def free (s : PidHeap Queue) (a : Nat) : Option (PidHeap Queue) :=
  if s.use a = some .node then some { s with use := update s.use a none } else none

def queueInit (s : PidHeap Queue) (q : Queue) (clock : Nat) : Option (PidHeap Queue) :=
  { s.setQueue q ⟨none, none⟩ with ready := update s.ready q true }.malloc clock .other

def queueRemove (s : PidHeap Queue) (q : Queue) : Option (Uint × PidHeap Queue) :=
  match (s.queue q).head with
  | none => some (-1, s)
  | some rem =>
    let queue : PidQueue :=
      if (s.queue q).head = (s.queue q).tail then ⟨none, none⟩
      else { s.queue q with head := (s.node rem).next }
    ((s.setQueue q queue).free rem).map ((s.node rem).pid, ·)

def queueAdd (s : PidHeap Queue) (q : Queue) (pid : Uint) (new : Nat) : Option (PidHeap Queue) :=
  match s.malloc new .node with
  | none => none
  | some s =>
    let s := { s with node := update s.node new { s.node new with pid := pid } }
    if (s.queue q).head = none ∧ (s.queue q).tail = none then
      some ((s.setQueue q ⟨some new, some new⟩).setNext new none)
    else
      match (s.queue q).tail with
      | none => none
      | some last =>
        let s := s.setNext last (some new)
        some ((s.setQueue q { s.queue q with tail := some new }).setNext new none)

def queueEmpty (s : PidHeap Queue) (q : Queue) : Bool :=
  (s.queue q).head == none && (s.queue q).tail == none

/-- A queue is used after it was initialised, which happens once. -/
def step (s : PidHeap Queue) : QueueAction Queue → Option (PidHeap Queue)
  | .init q clock => if s.ready q then none else s.queueInit q clock
  | .add q pid new => if s.ready q then s.queueAdd q pid new else none
  | .remove q => if s.ready q then (s.queueRemove q).map Prod.snd else none
  | .write a node =>
    if s.use a = some .node then none else some { s with node := update s.node a node }

/-- Any memory in which nothing is allocated. -/
def start (node : Nat → PidNode) (queue : Queue → PidQueue) : PidHeap Queue :=
  ⟨node, fun _ => none, queue, fun _ => false⟩

/-- The queues consist of the nodes in the lists: the links lead from `head` through them to
the null link behind `tail`, they are allocated, and no node is in two queues. -/
structure Holds (s : PidHeap Queue) (nodes : Queue → List Nat) : Prop where
  chain : ∀ q, s.ready q = true → Chain (fun a => (s.node a).next) (s.queue q).head (nodes q)
  tail : ∀ q, s.ready q = true → (s.queue q).tail = (nodes q).getLast?
  nodup : ∀ q, (nodes q).Nodup
  owned : ∀ a, s.use a = some .node ↔ ∃ q, a ∈ nodes q
  apart : ∀ q r a, a ∈ nodes q → a ∈ nodes r → q = r
  unready : ∀ q, s.ready q = false → nodes q = []

namespace Holds

variable {s s' : PidHeap Queue} {nodes : Queue → List Nat} {q : Queue} {first a new : Nat}
  {rest : List Nat}

omit [DecidableEq Queue] in
theorem start (node : Nat → PidNode) (queue : Queue → PidQueue) :
    (start node queue).Holds fun _ => [] := by
  constructor <;> simp [PidHeap.start]

section
variable (holds : s.Holds nodes)
include holds

section
omit [DecidableEq Queue]

theorem congr (ready : s'.ready = s.ready) (queue : s'.queue = s.queue)
    (use : ∀ a, s'.use a = some .node ↔ s.use a = some .node)
    (node : ∀ a, s.use a = some .node → (s'.node a).next = (s.node a).next) : s'.Holds nodes where
  chain q isReady := by
    rw [queue]
    exact (holds.chain q (ready ▸ isReady)).congr fun a member =>
      node a ((holds.owned a).mpr ⟨q, member⟩)
  tail q isReady := by rw [queue, holds.tail q (ready ▸ isReady)]
  nodup := holds.nodup
  owned a := (use a).trans (holds.owned a)
  apart := holds.apart
  unready q isReady := holds.unready q (ready ▸ isReady)

theorem not_mem (unused : s.use a = none) (q : Queue) : a ∉ nodes q := by
  intro member
  rw [(holds.owned a).mpr ⟨q, member⟩] at unused
  cases unused

end

theorem change (ready : s'.ready = update s.ready q true)
    (chain : Chain (fun a => (s'.node a).next) (s'.queue q).head rest)
    (tail : (s'.queue q).tail = rest.getLast?) (nodup : rest.Nodup)
    (others : ∀ r ≠ q, s'.queue r = s.queue r ∧
      ∀ a ∈ nodes r, (s'.node a).next = (s.node a).next ∧ a ∉ rest)
    (owned : ∀ a, s'.use a = some .node ↔ a ∈ rest ∨ s.use a = some .node ∧ a ∉ nodes q) :
    s'.Holds (update nodes q rest) := by
  have before : ∀ r ≠ q, s'.ready r = s.ready r := fun r other => by rw [ready, update_of_ne other]
  refine ⟨?_, ?_, ?_, fun a => ?_, fun r t a left right => ?_, ?_⟩
  · refine (forall_update_iff nodes fun r list => s'.ready r = true → Chain _ _ list).mpr
      ⟨fun _ => chain, fun r other isReady => ?_⟩
    rw [(others r other).1]
    exact (holds.chain r (before r other ▸ isReady)).congr fun a member =>
      ((others r other).2 a member).1
  · refine (forall_update_iff nodes fun r list => s'.ready r = true → _ = list.getLast?).mpr
      ⟨fun _ => tail, fun r other isReady => ?_⟩
    rw [(others r other).1, holds.tail r (before r other ▸ isReady)]
  · exact (forall_update_iff nodes fun _ list => list.Nodup).mpr ⟨nodup, fun r _ => holds.nodup r⟩
  · rw [owned, holds.owned]
    constructor
    · rintro (member | ⟨⟨r, member⟩, outside⟩)
      · exact ⟨q, by rwa [update_self]⟩
      · have other : r ≠ q := fun same => outside (same ▸ member)
        exact ⟨r, by rwa [update_of_ne other]⟩
    · rintro ⟨r, member⟩
      by_cases same : r = q
      · exact .inl (by rwa [same, update_self] at member)
      · rw [update_of_ne same] at member
        exact .inr ⟨⟨r, member⟩, fun mine => same (holds.apart r q a member mine)⟩
  · by_cases mine : r = q <;> by_cases yours : t = q
    · rw [mine, yours]
    · rw [mine, update_self] at left
      rw [update_of_ne yours] at right
      exact absurd left ((others t yours).2 a right).2
    · rw [yours, update_self] at right
      rw [update_of_ne mine] at left
      exact absurd right ((others r mine).2 a left).2
    · rw [update_of_ne mine] at left
      rw [update_of_ne yours] at right
      exact holds.apart r t a left right
  · refine (forall_update_iff nodes fun r list => s'.ready r = false → list = []).mpr
      ⟨fun isReady => ?_, fun r other isReady => holds.unready r (before r other ▸ isReady)⟩
    simp [ready] at isReady

theorem init {clock : Nat} (taken : s.queueInit q clock = some s')
    (isNew : s.ready q = false) : s'.Holds nodes := by
  unfold queueInit malloc at taken
  split at taken
  next unused =>
    have unused : s.use clock = none := unused
    cases taken
    have empty := holds.unready q isNew
    rw [← update_eq_self q nodes, empty]
    refine holds.change rfl (by simp [setQueue, Chain]) (by simp [setQueue]) .nil
      (fun r other => ⟨update_of_ne other _ _, fun a _ => ⟨rfl, List.not_mem_nil⟩⟩) fun a => ?_
    by_cases here : a = clock
    · simp [here, unused]
    · simp [setQueue, update_of_ne here, empty]
  next => cases taken

theorem queueAdd_eq (pid : Uint) (isReady : s.ready q = true)
    (unused : s.use new = none) : ∃ s', s.queueAdd q pid new = some s' ∧ s'.ready = s.ready ∧
      s'.use = update s.use new (some .node) ∧
      s'.queue = update s.queue q ⟨(nodes q ++ [new]).head?, some new⟩ ∧
      (s'.node new = ⟨pid, none⟩) ∧ ∀ a ≠ new, (s'.node a).pid = (s.node a).pid ∧
        (s'.node a).next = if (nodes q).getLast? = some a then some new else (s.node a).next := by
  have head := (holds.chain q isReady).head_eq
  have tail := holds.tail q isReady
  let made : PidHeap Queue := { s with
    use := update s.use new (some .node)
    node := update s.node new { s.node new with pid := pid } }
  rcases List.eq_nil_or_concat (nodes q) with empty | ⟨left, last, full⟩
  · rw [empty] at head tail
    refine ⟨(made.setQueue q ⟨some new, some new⟩).setNext new none,
      by simp [queueAdd, malloc, unused, head, tail, made], rfl, rfl, ?_, ?_, ?_⟩
    · simp [setNext, setQueue, empty, made]
    · simp [setNext, setQueue, made]
    · intro a other
      simp [setNext, setQueue, update_of_ne other, empty, made]
  · rw [List.concat_eq_append] at full
    have isLast : last ≠ new := fun same => holds.not_mem unused q (by simp [full, same])
    rw [full] at head tail
    simp only [List.getLast?_append, List.getLast?_singleton, Option.some_or] at tail
    refine ⟨((made.setNext last (some new)).setQueue q ⟨(s.queue q).head, some new⟩).setNext new
      none, by simp [queueAdd, malloc, unused, tail, made, setNext], rfl, rfl, ?_, ?_, ?_⟩
    · simp [setNext, setQueue, full, head, made]
    · simp [setNext, setQueue, update_of_ne isLast.symm, made]
    · intro a other
      by_cases here : a = last
      · simp [setNext, setQueue, here, full, update_of_ne isLast, made]
      · simp [setNext, setQueue, full, update_of_ne other, update_of_ne here, Ne.symm here, made]

theorem add (pid : Uint) (isReady : s.ready q = true) (unused : s.use new = none) :
    ∃ s', s.queueAdd q pid new = some s' ∧ s'.Holds (update nodes q (nodes q ++ [new])) ∧
      (s'.node new).pid = pid ∧ ∀ a ≠ new, (s'.node a).pid = (s.node a).pid := by
  obtain ⟨s', added, ready, use, queue, isNew, old⟩ := holds.queueAdd_eq pid isReady unused
  have absent := holds.not_mem unused
  refine ⟨s', added, ?_, by rw [isNew], fun a other => (old a other).1⟩
  refine holds.change ?_ ?_ ?_ ?_ (fun r other => ⟨?_, fun a member => ⟨?_, ?_⟩⟩) fun a => ?_
  · rw [ready, ← isReady, update_eq_self]
  · rw [queue, update_self]
    have chain := (holds.chain q isReady).update (absent q) none
    rw [(holds.chain q isReady).head_eq] at chain
    rcases List.eq_nil_or_concat (nodes q) with empty | ⟨left, last, full⟩
    · simp [empty, Chain, isNew]
    · rw [List.concat_eq_append] at full
      have nodup := holds.nodup q
      have outside := absent q
      rw [full] at chain nodup outside ⊢
      have linked := chain.snoc nodup outside (by simp)
      rw [show (left ++ [last] ++ [new]).head? = (left ++ [last]).head? by cases left <;> rfl]
      refine linked.congr fun a member => ?_
      have isLast : last ≠ new := fun same => outside (by simp [same])
      by_cases here : a = new
      · rw [here, isNew, update_of_ne isLast.symm, update_self]
      · rw [(old a here).2, full]
        by_cases final : a = last
        · simp [final]
        · simp [update_of_ne final, update_of_ne here, Ne.symm final]
  · simp [queue]
  · exact List.nodup_append_comm.mp (List.nodup_cons.mpr ⟨absent q, holds.nodup q⟩)
  · rw [queue, update_of_ne other]
  · have apart : a ≠ new := fun same => absent r (same ▸ member)
    rw [(old a apart).2, if_neg]
    intro final
    exact other (holds.apart r q a member (List.mem_of_getLast? final))
  · have apart : a ≠ new := fun same => absent r (same ▸ member)
    simpa [apart] using fun mine => other (holds.apart r q a member mine)
  · rw [use]
    by_cases here : a = new
    · simp [here]
    · have mine : a ∈ nodes q → s.use a = some .node := fun member =>
        (holds.owned a).mpr ⟨q, member⟩
      simp only [update_of_ne here, List.mem_append, List.mem_singleton, here, or_false]
      tauto

theorem remove (isReady : s.ready q = true) (full : nodes q = first :: rest) :
    ∃ s', s.queueRemove q = some ((s.node first).pid, s') ∧ s'.Holds (update nodes q rest) ∧
      s'.use = update s.use first none ∧ s'.node = s.node := by
  have chain := holds.chain q isReady
  have tail := holds.tail q isReady
  have nodup := holds.nodup q
  rw [full] at chain tail nodup
  obtain ⟨head, linked⟩ := chain
  obtain ⟨outside, nodup⟩ := List.nodup_cons.mp nodup
  have owned : s.use first = some .node := (holds.owned first).mpr ⟨q, by simp [full]⟩
  -- `head` and `tail` are equal exactly if this is the only node
  have unlinked : (if (s.queue q).head = (s.queue q).tail then ⟨none, none⟩
      else { s.queue q with head := (s.node first).next } : PidQueue) =
      ⟨rest.head?, rest.getLast?⟩ := by
    rw [head, tail]
    cases rest with
    | nil => simp
    | cons second rest =>
      have other : (first :: second :: rest).getLast? ≠ some first := by
        rw [List.getLast?_cons_cons]
        exact fun same => outside (List.mem_of_getLast? same)
      have next : (s.node first).next = some second := linked.1
      rw [if_neg fun same => other same.symm]
      simp only [next, tail, List.getLast?_cons_cons, List.head?_cons]
  refine ⟨{ s.setQueue q ⟨rest.head?, rest.getLast?⟩ with use := update s.use first none }, ?_, ?_,
    rfl, rfl⟩
  · have frees : ((s.setQueue q ⟨rest.head?, rest.getLast?⟩).use first) = some .node := owned
    simp only [queueRemove, head] at unlinked ⊢
    rw [unlinked, free, if_pos frees]
    rfl
  · refine holds.change ?_ ?_ ?_ nodup (fun r other => ⟨?_, fun a member => ⟨rfl, ?_⟩⟩) fun a => ?_
    · rw [← isReady, update_eq_self]
      rfl
    · have links := linked
      rw [linked.head_eq] at links
      simpa [setQueue] using links
    · simp [setQueue]
    · exact update_of_ne other _ _
    · exact fun mine => other (holds.apart r q a member (by simp [full, mine]))
    · have mine : a ∈ rest → s.use a = some .node := fun member =>
        (holds.owned a).mpr ⟨q, by simp [full, member]⟩
      by_cases here : a = first
      · simp [here, outside, full]
      · simp only [update_of_ne here, full, List.mem_cons, here, false_or]
        tauto

omit [DecidableEq Queue] in
theorem empty_iff (isReady : s.ready q = true) : s.queueEmpty q = true ↔ nodes q = [] := by
  rw [queueEmpty, (holds.chain q isReady).head_eq, holds.tail q isReady]
  cases nodes q <;> simp

theorem remove_empty (isReady : s.ready q = true) (empty : nodes q = []) :
    s.queueRemove q = some (-1, s) := by
  have head := (holds.chain q isReady).head_eq
  rw [empty] at head
  rw [queueRemove, head]
  rfl

theorem step {action : QueueAction Queue}
    (taken : s.step action = some s') : ∃ nodes, s'.Holds nodes := by
  cases action with
  | init q clock =>
    simp only [PidHeap.step, Option.ite_none_left_eq_some, Bool.not_eq_true] at taken
    exact ⟨nodes, holds.init taken.2 taken.1⟩
  | add q pid new =>
    simp only [PidHeap.step, Option.ite_none_right_eq_some] at taken
    have unused : s.use new = none := by
      by_contra used
      simp [queueAdd, malloc, used] at taken
    obtain ⟨after, added, kept, -⟩ := holds.add pid taken.1 unused
    obtain rfl := Option.some.inj (added.symm.trans taken.2)
    exact ⟨_, kept⟩
  | remove q =>
    simp only [PidHeap.step, Option.ite_none_right_eq_some] at taken
    obtain ⟨isReady, taken⟩ := taken
    cases full : nodes q with
    | nil =>
      rw [holds.remove_empty isReady full] at taken
      cases taken
      exact ⟨nodes, holds⟩
    | cons first rest =>
      obtain ⟨after, removed, kept, -⟩ := holds.remove isReady full
      rw [removed] at taken
      cases taken
      exact ⟨_, kept⟩
  | write a node =>
    simp only [PidHeap.step, Option.ite_none_left_eq_some, Option.some.injEq] at taken
    obtain ⟨unused, rfl⟩ := taken
    refine ⟨nodes, holds.congr rfl rfl (fun _ => Iff.rfl) fun b used => ?_⟩
    have other : b ≠ a := fun same => unused (same ▸ used)
    simp [update_of_ne other]

end

end Holds

/-- In every run each queue is a list of its own nodes, to which `queue_add` appends and from
which `queue_remove` takes the first. -/
theorem queues_fifo {node : Nat → PidNode} {queue : Queue → PidQueue}
    {trace : List (PidHeap Queue × QueueAction Queue)} {s : PidHeap Queue}
    (run : Transition.Run step (fun _ _ => True) (start node queue) trace s) :
    ∃ nodes, s.Holds nodes ∧ ∀ q, s.ready q = true →
      ((s.queue q).head = none ↔ (s.queue q).tail = none) ∧
      (s.queueEmpty q = true ↔ nodes q = []) ∧
      (nodes q = [] → s.queueRemove q = some (-1, s)) ∧
      (∀ first rest, nodes q = first :: rest → ∃ s',
        s.queueRemove q = some ((s.node first).pid, s') ∧ s'.Holds (update nodes q rest) ∧
          s'.use = update s.use first none ∧ s'.node = s.node) ∧
      ∀ pid new, s.use new = none → ∃ s', s.queueAdd q pid new = some s' ∧
        s'.Holds (update nodes q (nodes q ++ [new])) ∧ (s'.node new).pid = pid ∧
        ∀ a ≠ new, (s'.node a).pid = (s.node a).pid := by
  have kept : ∀ {s : PidHeap Queue} {action next}, (∃ nodes, s.Holds nodes) → True →
      s.step action = some next → ∃ nodes, next.Holds nodes := by
    rintro s action next ⟨nodes, holds⟩ - taken
    exact holds.step taken
  obtain ⟨nodes, holds⟩ := run.stateInvariant ⟨_, .start node queue⟩ kept
  refine ⟨nodes, holds, fun q isReady => ⟨?_, holds.empty_iff isReady, holds.remove_empty isReady,
    fun first rest full => holds.remove isReady full,
    fun pid new unused => holds.add pid isReady unused⟩⟩
  rw [(holds.chain q isReady).head_eq, holds.tail q isReady]
  cases nodes q <;> simp

/-- A node is freed and comes back at once as a node of another queue. -/
theorem queues_fifo_reused : ∃ (s : PidHeap Bool) (trace : _) (nodes : _),
    Transition.Run step (fun _ _ => True) (start (fun _ => ⟨0, some 5⟩) fun _ => ⟨none, none⟩) trace
      s ∧ s.Holds nodes ∧ nodes false = [] ∧ (nodes true).head? = some 5 := by
  obtain ⟨s, run, empty, head, ready⟩ : ∃ s, Transition.Run step (fun _ _ => True)
      (start (fun _ => ⟨0, some 5⟩) fun _ => ⟨none, none⟩)
      (Transition.traceOf step _ [.init false 1, .init true 2, .add false 7 5, .remove false,
        .add true 8 5]) s ∧ s.queueEmpty false = true ∧ (s.queue true).head = some 5 ∧
        ∀ q, s.ready q = true :=
    Transition.Run.of_exec_met _ (fun _ _ => trivial) (by decide +kernel)
  obtain ⟨nodes, holds, each⟩ := queues_fifo run
  exact ⟨s, _, nodes, run, holds, (each false (ready false)).2.1.mp empty,
    (holds.chain true (ready true)).head_eq.symm.trans head⟩

end PidHeap

end Xv6
