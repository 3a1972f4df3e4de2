import Tbox.Event.FdEvent

/-!
# The sets that `select` is given

`fillFdSets` and `removeInvalidFds` of `engines/select/loop.cpp`. The table of the descriptors is walked in an order
of its own; a set is the list of what was put into it, and its bound is left out.
-/

namespace Tbox.Event

structure FdSets where
  nfds : Int := 0
  readSet : List Int := []
  writeSet : List Int := []
  exceptSet : List Int := []
  deriving DecidableEq, Repr

/-- An event that `disable` is called of, and whether the iterator that has led to it was valid. -/
structure Visit where
  event : EventPtr
  isValid : Bool
  deriving DecidableEq, Repr

/-- The loop over `fd_events` of a record. -/
structure Walk where
  loop : FdLoop
  /-- what is left in the places behind the end: of every erasure the one that was last -/
  behind : List EventPtr := []
  visits : List Visit := []

namespace FdLoop

/-- `fcntl` is asked of what is not negative. -/
def isFdValid (alive : Int → Bool) (fd : Int) : Bool := if fd < 0 then false else alive fd

end FdLoop

/-- The iterator comes to the place `i`. An erasure makes it invalid; it leads to what has come to the place since. -/
def Walk.visit (w : Walk) (d : DataPtr) (i : Nat) : Walk :=
  let fdEvents := (w.loop.data d).fdEvents
  match (fdEvents ++ w.behind)[i]? with
  | none => w
  | some e =>
    match w.loop.event e with
    | none => w
    | some ev =>
      { loop := w.loop.disable .select e ev
        behind := if ev.isEnabled then fdEvents.getLast?.toList ++ w.behind else w.behind
        visits := w.visits ++ [⟨e, w.behind = []⟩] }

namespace FdLoop

def removeEvents (s : FdLoop) (d : DataPtr) : Walk :=
  (List.range (s.data d).fdEvents.length).foldl (fun w i => w.visit d i) { loop := s }

/-- One round of `removeInvalidFds`. -/
def removeInvalidFd (alive : Int → Bool) (s : FdLoop × List Visit) (fd : Int) : FdLoop × List Visit :=
  match s.1.fdDataMap fd with
  | none => s
  | some d =>
    if isFdValid alive fd then s
    else
      let w := s.1.removeEvents d
      (w.loop, s.2 ++ w.visits)

end FdLoop

end Tbox.Event
