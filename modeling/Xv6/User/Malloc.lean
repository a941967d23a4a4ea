import Xv6.Kernel.Proc
import Xv6.Lib.LinkedList

/-!
# The heap allocator

`umalloc.c`.  The headers of the blocks are two functions on addresses; `base` is the
address of the static header.  Pointers are compared as 32-bit numbers.

Both searches follow the circular list of free blocks without a bound, so they take fuel
and return nothing when it runs out.  The loop of `malloc` always has `p = prevp->s.ptr`,
so it is a search for `prevp`.

`sbrk` is a parameter: it works on a state of its own and answers a request for bytes
with an address or a failure.  Writing the header of the new region faults if the region
cannot be written.
-/

namespace Xv6

/-- `sizeof(Header)` -/
abbrev headerSize : Nat := 8

structure Heap where
  ptr : Nat → Nat
  size : Nat → Nat
  freep : Nat

namespace Heap

def setPtr (h : Heap) (p target : Nat) : Heap := { h with ptr := Function.update h.ptr p target }

def setSize (h : Heap) (p size : Nat) : Heap := { h with size := Function.update h.size p size }

/-- `p + p->s.size` -/
def after (h : Heap) (p : Nat) : Nat := (p + headerSize * h.size p) % 2 ^ 32

/-- The loops of `free` and `freewlock` stop at `p`. -/
def place (h : Heap) (bp p : Nat) : Bool :=
  (p < bp && bp < h.ptr p) || (h.ptr p ≤ p && (p < bp || bp < h.ptr p))

/-- The first join of `free`. -/
def joinNext (h : Heap) (bp p : Nat) : Heap :=
  if h.after bp = h.ptr p then
    (h.setSize bp (h.size bp + h.size (h.ptr p))).setPtr bp (h.ptr (h.ptr p))
  else h.setPtr bp (h.ptr p)

/-- The second join of `free`. -/
def joinPrev (h : Heap) (bp p : Nat) : Heap :=
  if h.after p = bp then (h.setSize p (h.size p + h.size bp)).setPtr p (h.ptr bp)
  else h.setPtr p bp

/-- `free` once the place is found. -/
def link (h : Heap) (bp p : Nat) : Heap := { (h.joinNext bp p).joinPrev bp p with freep := p }

/-- `freewlock`, and `free` inside its lock. -/
def freewlock (fuel : Nat) (h : Heap) (ap : Nat) : Option Heap :=
  (LinkedList.search h.ptr (h.place (ap - headerSize)) fuel h.freep).map
    (h.link (ap - headerSize))

/-- The loop of `malloc` stops: `prevp->s.ptr` is large enough, or the list ends. -/
def reached (h : Heap) (nunits prevp : Nat) : Bool :=
  nunits ≤ h.size (h.ptr prevp) || h.ptr prevp == h.freep

/-- Take `nunits` from the block after `prevp`. -/
def carve (h : Heap) (nunits prevp : Nat) : Nat × Heap :=
  let p := h.ptr prevp
  if h.size p = nunits then
    (p + headerSize, { h.setPtr prevp (h.ptr p) with freep := prevp })
  else
    let q := p + headerSize * (h.size p - nunits)
    (q + headerSize,
      { (h.setSize p (h.size p - nunits)).setSize q nunits with freep := prevp })

end Heap

/-- How a call of `malloc` ends. -/
inductive MallocEnd (Break : Type) where
  | fault (s : Break)
  | returned (ap : Nat) (h : Heap) (s : Break)

namespace Heap

/-- The number of units that `morecore` asks for. -/
def moreUnits (nunits : Nat) : Nat := if nunits < 4096 then 4096 else nunits

section Malloc

variable {Break : Type} (sbrk : Break → Nat → Option Nat × Break) (writable : Break → Nat → Bool)

def mallocLoop (nunits : Nat) : Nat → Heap → Break → Option (MallocEnd Break)
  | 0, _, _ => none
  | fuel + 1, h, s =>
    match LinkedList.search h.ptr (h.reached nunits) (fuel + 1) h.freep with
    | none => none
    | some prevp =>
      if nunits ≤ h.size (h.ptr prevp) then
        some (.returned (h.carve nunits prevp).1 (h.carve nunits prevp).2 s)
      else
        -- `morecore`
        match sbrk s (moreUnits nunits * headerSize % 2 ^ 32) with
        | (none, s) => some (.returned 0 h s)
        | (some hp, s) =>
          if writable s hp then
            match freewlock fuel (h.setSize hp (moreUnits nunits)) (hp + headerSize) with
            | none => none
            | some h => mallocLoop nunits fuel h s
          else some (.fault s)

/-- The number of units asked for, with the header. -/
def nunits (nbytes : Nat) : Nat := (nbytes + headerSize - 1) % 2 ^ 32 / headerSize + 1

/-- The list is created by the first call. -/
def init (h : Heap) (base : Nat) : Heap :=
  if h.freep = 0 then { (h.setPtr base base).setSize base 0 with freep := base } else h

def malloc (base fuel : Nat) (h : Heap) (s : Break) (nbytes : Nat) : Option (MallocEnd Break) :=
  mallocLoop sbrk writable (nunits nbytes) fuel (h.init base) s

end Malloc

end Heap

end Xv6
