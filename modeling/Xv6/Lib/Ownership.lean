import Xv6.Lib.Numerals

/-!
# Exclusive ownership of allocated resources

Owners hold resources that come from an allocator.  Ownership is exclusive if
everything that is held is allocated and nothing is held by two owners.  One rule
covers acquiring and giving back: at most one owner may hold something new, which
the allocator had free, and what is held afterwards is still allocated.
-/

namespace Ownership

universe u v

variable {Owner : Type u} {Resource : Type v}

structure Exclusive (allocated : Resource → Bool) (holds : Owner → Resource → Prop) :
    Prop where
  backed : ∀ {owner resource}, holds owner resource → allocated resource = true
  single : ∀ {owner other resource}, holds owner resource → holds other resource →
    owner = other

variable {allocated allocated' : Resource → Bool} {holds holds' : Owner → Resource → Prop}

/-- What is held later was held before by the same owner, or is gained by the one
owner that gains something. -/
theorem Exclusive.change (exclusive : Exclusive allocated holds) (gains : Owner → Resource → Prop)
    (free : ∀ {owner resource}, gains owner resource → allocated resource = false)
    (one : ∀ {owner other resource}, gains owner resource → gains other resource →
      owner = other)
    (backed : ∀ {owner resource}, holds' owner resource → allocated' resource = true)
    (origin : ∀ {owner resource}, holds' owner resource →
      holds owner resource ∨ gains owner resource) : Exclusive allocated' holds' where
  backed := backed
  single := by
    intro owner other resource first second
    rcases origin first with old | new
    · rcases origin second with old' | new'
      · exact exclusive.single old old'
      · have := exclusive.backed old
        simp [free new'] at this
    · rcases origin second with old' | new'
      · have := exclusive.backed old'
        simp [free new] at this
      · exact one new new'

/-- A resource that one owner no longer holds is held by nobody. -/
theorem Exclusive.unheld {owner other : Owner} {resource : Resource}
    (exclusive : Exclusive allocated holds) (held : holds owner resource)
    (dropped : ¬holds' owner resource) (still : holds other resource)
    (after : holds' other resource) : False := by
  obtain rfl := exclusive.single held still
  exact dropped after

end Ownership
