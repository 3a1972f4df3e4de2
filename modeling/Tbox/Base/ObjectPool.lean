import Mathlib.Logic.Function.Basic

/-!
# Object pool

`base/object_pool.hpp`. Blocks are known by their addresses. The constructors and destructors are the user's, who may
call the pool there; exceptions and a failing `malloc` are left out.
-/

namespace Tbox

abbrev Address := Nat

namespace ObjectPool

/-- What a block holds: `next` while it is in the list of free ones. One that is not of the pool is `outside`. -/
inductive Block where
  | outside
  | free (next : Option Address)
  | object
  deriving DecidableEq, Repr

structure Stat where
  totalAllocTimes : Nat := 0
  totalFreeTimes : Nat := 0
  peakAllocNumber : Nat := 0
  peakFreeNumber : Nat := 0
  deriving DecidableEq, Repr

/-- Where the user's code runs that the pool has called. -/
inductive Call where
  | constructor (p : Address)
  | destructor (p : Address)
  deriving DecidableEq, Repr

def Call.object : Call → Address
  | .constructor p | .destructor p => p

def Call.isDestructor : Call → Bool
  | .constructor _ => false
  | .destructor _ => true

end ObjectPool

open ObjectPool (Block Stat Call)

structure ObjectPool where
  keepNumber : Nat := 2 ^ 64 - 1
  freeNumber : Nat := 0
  freeHeader : Option Address := none
  stat : Stat := {}
  blocks : Address → Block := fun _ => .outside
  /-- the objects that `alloc` has returned and that `free` has not been called with -/
  objects : List Address := []
  /-- the calls of the user's code that have not returned, innermost first -/
  calls : List Call := []
  /-- in `~ObjectPool` -/
  destroying : Bool := false
  /-- `next` has been read of a block that is not free, or a block released that is not of the pool -/
  fault : Bool := false

namespace ObjectPool

def setBlock (s : ObjectPool) (b : Address) (block : Block) : ObjectPool :=
  { s with blocks := Function.update s.blocks b block }

/-- `free_header_` becomes the `next` of that block. -/
def unlink (s : ObjectPool) (b : Address) : ObjectPool :=
  match s.blocks b with
  | .free next => { s with freeHeader := next }
  | _ => { s with fault := true }

/-- `::free`. -/
def release (s : ObjectPool) (b : Address) : ObjectPool :=
  if s.blocks b = .outside then { s with fault := true } else s.setBlock b .outside

/-- `alloc` up to the constructor; `fresh` is what `malloc` returns if it is called. -/
def alloc (s : ObjectPool) (fresh : Address) : ObjectPool :=
  match s.freeHeader with
  | none => { s.setBlock fresh .object with calls := .constructor fresh :: s.calls }
  | some b =>
    let s := s.unlink b
    { s.setBlock b .object with
      freeNumber := s.freeNumber - 1
      calls := .constructor b :: s.calls }

/-- The rest of `alloc`. -/
def allocated (s : ObjectPool) (p : Address) : ObjectPool :=
  let totalAllocTimes := s.stat.totalAllocTimes + 1
  let currAllocNumber := totalAllocTimes - s.stat.totalFreeTimes
  { s with
    objects := p :: s.objects
    stat := { s.stat with
      totalAllocTimes := totalAllocTimes
      peakAllocNumber := max s.stat.peakAllocNumber currAllocNumber } }

/-- `free` up to the destructor. -/
def free (s : ObjectPool) (p : Address) : ObjectPool :=
  { s with objects := s.objects.erase p, calls := .destructor p :: s.calls }

def push (s : ObjectPool) (b : Address) : ObjectPool :=
  let freeNumber := s.freeNumber + 1
  { s.setBlock b (.free s.freeHeader) with
    freeHeader := some b
    freeNumber := freeNumber
    stat := { s.stat with peakFreeNumber := max s.stat.peakFreeNumber freeNumber } }

/-- The rest of `free`. -/
def freed (s : ObjectPool) (p : Address) : ObjectPool :=
  let s := if s.freeNumber < s.keepNumber then s.push p else s.release p
  { s with stat := { s.stat with totalFreeTimes := s.stat.totalFreeTimes + 1 } }

inductive Action where
  | alloc (fresh : Address)
  | free (p : Address)
  /-- the constructor or destructor that was called last returns -/
  | returned
  | destroy
  /-- a round of the loop of `~ObjectPool` -/
  | destroyNext
  deriving DecidableEq, Repr

/-- `malloc` returns nothing that is in use, and `free` is called with what `alloc` has returned, once. -/
def step (s : ObjectPool) : Action → Option ObjectPool
  | .alloc fresh => if s.destroying = false ∧ s.blocks fresh = .outside then some (s.alloc fresh) else none
  | .free p => if s.destroying = false ∧ p ∈ s.objects then some (s.free p) else none
  | .returned =>
    match s.calls with
    | [] => none
    | .constructor p :: calls => some ({ s with calls }.allocated p)
    | .destructor p :: calls => some ({ s with calls }.freed p)
  | .destroy => if s.destroying = false ∧ s.calls = [] then some { s with destroying := true } else none
  | .destroyNext =>
    if s.destroying then s.freeHeader.map fun b => (s.unlink b).release b else none

end ObjectPool

end Tbox
