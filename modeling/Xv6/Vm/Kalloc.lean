import Xv6.Lib.LinkedList
import Xv6.Vm.PageTable

/-!
# The page allocator

`kalloc.c`.  The free list runs through the free pages themselves, and whoever has a page
overwrites the link in it.
-/

namespace Xv6

open Function LinkedList

/-- `next` is the first word of each page. -/
structure Kmem where
  freelist : Option Nat
  next : Nat → Option Nat

namespace Kmem

/-- `none` is the panic. -/
def kfree (layout : Layout) (m : Kmem) (v : Nat) : Option Kmem :=
  if v % pgsize ≠ 0 ∨ v < layout.kernelEnd ∨ phystop ≤ v then none
  else some ⟨some v, update m.next v m.freelist⟩

def kalloc (m : Kmem) : Option Nat × Kmem :=
  (m.freelist, { m with freelist := m.freelist.bind m.next })

/-- The loop of `kinit`, with at most `k` rounds. -/
def kinitLoop (layout : Layout) : Nat → Nat → Kmem → Option Kmem
  | 0, _, m => some m
  | k + 1, p, m =>
    if p + pgsize ≤ phystop then (m.kfree layout p).bind (kinitLoop layout k (p + pgsize))
    else some m

def kinit (layout : Layout) (next : Nat → Option Nat) : Option Kmem :=
  kinitLoop layout (phystop / pgsize) (pgroundup layout.kernelEnd) ⟨none, next⟩

/-- The allocator, and the pages that its callers have. -/
structure System where
  mem : Kmem
  out : List Nat

/-- `write` is the owner of a page writing to its first word. -/
inductive Action where
  | kalloc
  | kfree (v : Nat)
  | write (v : Nat) (word : Option Nat)

def step (layout : Layout) (s : System) : Action → Option System
  | .kalloc => some ⟨s.mem.kalloc.2, s.mem.kalloc.1.toList ++ s.out⟩
  | .kfree v => (s.mem.kfree layout v).map (⟨·, s.out.erase v⟩)
  | .write v word => some { s with mem.next := update s.mem.next v word }

/-- Callers free and write only pages that they have. -/
def Owned (s : System) : Action → Prop
  | .kalloc => True
  | .kfree v | .write v _ => v ∈ s.out

/-- The pages from the end of the kernel up to `top` are free or out, each once. -/
structure Parts (layout : Layout) (top : Nat) (s : System) (free : List Nat) : Prop where
  chain : Chain s.mem.next s.mem.freelist free
  nodup : (free ++ s.out).Nodup
  pages : ∀ v, v ∈ free ++ s.out ↔ v % pgsize = 0 ∧ layout.kernelEnd ≤ v ∧ v < top

variable {layout : Layout} {m : Kmem} {s s' : System} {free free' : List Nat} {top p k v : Nat}

theorem kfree_page (page : v % pgsize = 0 ∧ layout.kernelEnd ≤ v ∧ v < phystop) :
    m.kfree layout v = some ⟨some v, update m.next v m.freelist⟩ := by
  simp [kfree, page]

theorem kinitLoop_parts (parts : Parts layout p ⟨m, []⟩ free) (aligned : p % pgsize = 0)
    (above : layout.kernelEnd ≤ p) (below : p ≤ phystop) (enough : phystop ≤ p + k * pgsize) :
    ∃ m' free', kinitLoop layout k p m = some m' ∧ Parts layout phystop ⟨m', []⟩ free' := by
  induction k generalizing p m free with
  | zero =>
    obtain rfl : p = phystop := by omega
    exact ⟨m, free, rfl, parts⟩
  | succ k ih =>
    simp only [pgsize, phystop] at aligned below enough
    by_cases more : p + pgsize ≤ phystop
    · have inside : p < phystop := Nat.lt_of_lt_of_le (by simp [pgsize]) more
      have new : p ∉ free := fun member =>
        lt_irrefl p ((parts.pages p).mp (List.mem_append_left _ member)).2.2
      rw [kinitLoop, if_pos more, kfree_page ⟨aligned, above, inside⟩]
      have grown : Parts layout (p + pgsize) ⟨⟨some p, update m.next p m.freelist⟩, []⟩
          (p :: free) := by
        refine ⟨⟨rfl, by simpa using parts.chain.update new _⟩, ?_, fun v => ?_⟩
        · simpa [new] using parts.nodup
        · rw [List.cons_append, List.mem_cons, parts.pages v]
          simp only [pgsize]
          omega
      refine ih grown ?_ (by omega) more ?_
      all_goals
        simp only [pgsize, phystop]
        omega
    · obtain rfl : p = phystop := by simp only [pgsize, phystop] at more ⊢; omega
      exact ⟨m, free, by rw [kinitLoop, if_neg more], parts⟩

theorem Parts.absent (parts : Parts layout top s free) (isOut : v ∈ s.out) : v ∉ free :=
  fun member => (List.nodup_append.mp parts.nodup).2.2 v member v isOut rfl

theorem Parts.perm (parts : Parts layout top s free)
    (chain : Chain s'.mem.next s'.mem.freelist free')
    (same : (free' ++ s'.out).Perm (free ++ s.out)) : Parts layout top s' free' :=
  ⟨chain, same.nodup_iff.mpr parts.nodup, fun v => same.mem_iff.trans (parts.pages v)⟩

theorem Parts.step (parts : Parts layout top s free) {action : Action} (owned : Owned s action)
    (taken : step layout s action = some s') : ∃ free', Parts layout top s' free' := by
  cases action with
  | kalloc =>
    cases taken
    cases free with
    | nil =>
      have empty : s.mem.freelist = none := parts.chain
      exact ⟨[], parts.perm (by simp [kalloc, empty, Chain]) (by simp [kalloc, empty])⟩
    | cons r rest =>
      obtain ⟨first, chain⟩ := parts.chain
      refine ⟨rest, parts.perm (by simpa [kalloc, first] using chain) ?_⟩
      simp [kalloc, first, List.perm_middle]
  | kfree v =>
    obtain ⟨m, freed, rfl⟩ := Option.map_eq_some_iff.mp taken
    obtain ⟨-, ⟨⟩⟩ := Option.ite_none_left_eq_some.mp freed
    have chain := parts.chain.update (parts.absent owned) s.mem.freelist
    refine ⟨v :: free, parts.perm ⟨rfl, by simpa using chain⟩ ?_⟩
    exact List.perm_middle.symm.trans ((List.perm_cons_erase owned).symm.append_left free)
  | write v word =>
    cases taken
    exact ⟨free, parts.perm (parts.chain.update (parts.absent owned) word) .rfl⟩

theorem kinit_parts (layout : Layout) (next : Nat → Option Nat) :
    ∃ m free, kinit layout next = some m ∧ Parts layout phystop ⟨m, []⟩ free := by
  have small := layout.small
  have start : Parts layout (pgroundup layout.kernelEnd) ⟨⟨none, next⟩, []⟩ [] := by
    refine ⟨rfl, List.nodup_nil, fun v => ?_⟩
    simp only [List.append_nil, List.not_mem_nil, false_iff, pgroundup, pgsize]
    omega
  refine kinitLoop_parts start ?_ le_pgroundup ?_ ?_
  all_goals
    simp only [pgroundup, pgsize, phystop]
    omega

/-- `kinit` does not panic.  From then on, whatever is allocated, freed and written to, freeing
a page does not panic, and `kalloc` returns a page that nobody has unless all are out. -/
theorem pages_accounted (layout : Layout) (next : Nat → Option Nat) :
    ∃ m, kinit layout next = some m ∧ ∀ {trace s},
      Transition.Run (step layout) Owned ⟨m, []⟩ trace s →
      s.out.Nodup ∧ (∀ v ∈ s.out, s.mem.kfree layout v ≠ none) ∧
      (∀ v, s.mem.kalloc.1 = some v →
        v % pgsize = 0 ∧ layout.InPool (v / pgsize) ∧ v ∉ s.out) ∧
      (s.mem.kalloc.1 = none → ∀ frame, layout.InPool frame → frame * pgsize ∈ s.out) := by
  obtain ⟨m, free, booted, parts⟩ := kinit_parts layout next
  refine ⟨m, booted, fun {trace s} run => ?_⟩
  obtain ⟨free, parts⟩ : ∃ free, Parts layout phystop s free := by
    apply run.stateInvariant
    · exact ⟨free, parts⟩
    · rintro s action s' ⟨free, parts⟩ owned taken
      exact parts.step owned taken
  refine ⟨parts.nodup.of_append_right, fun v isOut => ?_, fun v first => ?_, ?_⟩
  · simp [kfree_page ((parts.pages v).mp (List.mem_append_right _ isOut))]
  · have member : v ∈ free := List.mem_of_head? (parts.chain.head_eq.symm.trans first)
    have page := (parts.pages v).mp (List.mem_append_left _ member)
    refine ⟨page.1, ?_, fun isOut => parts.absent isOut member⟩
    simp only [Layout.InPool, pgsize, phystop] at page ⊢
    omega
  · intro fails frame inPool
    obtain rfl := List.head?_eq_none_iff.mp (parts.chain.head_eq.symm.trans fails)
    refine (parts.pages _).mpr ?_
    simp only [Layout.InPool, pgsize, phystop] at inPool ⊢
    omega

end Kmem

end Xv6
