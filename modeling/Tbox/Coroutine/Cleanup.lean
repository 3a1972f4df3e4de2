import Tbox.Coroutine.Resumption

/-!
# The cleanup of the scheduler

`Scheduler::cleanup` of `coroutine/scheduler.cpp` as one call. A turn is what a routine does from where it is switched
to up to where it gives its turn back; the turns are given in the order in which they are taken. The vector of cells
is not reallocated under a loop.
-/

namespace Tbox.Coroutine

open Cabinet (Cell Raw)

namespace Resumption

variable {V : Type}

def Action.isCall : Action V → Bool
  | .create _ | .resume _ | .cancel _ | .wait | .yield | .join _ | .add .. | .post .. | .waitCondition _ => true
  | .finish | .schedule | .switch | .cleanup | .cleanSwitch _ | .cleaned => false

def Action.isCreate : Action V → Bool
  | .create _ => true
  | _ => false

/-- The calls a routine makes before its entry returns, unless it gives its turn back before. -/
abbrev Turn (V : Type) := List { a : Action V // a.isCall = true }

end Resumption

open Resumption

/-- What a call of `cleanup` has done so far. -/
structure Cleanup (V : Type) where
  world : Resumption.World V
  /-- the routines it has deleted without having switched to them -/
  deleted : List RoutineToken := []
  /-- the routines it has switched to -/
  switched : List RoutineToken := []
  /-- the routines that have run to their ends -/
  ended : List RoutineToken := []

namespace Cleanup

variable {V : Type}

def cells (s : Cleanup V) : List (Cell RoutineToken) := s.world.cabinet.raw.cells

/-- The first loop: a routine that has not been started is deleted, another is cancelled. -/
def discard (obj : Option RoutineToken) (s : Cleanup V) : Cleanup V :=
  match obj with
  | some n =>
    match s.world.sch.routineCabinet n with
    | some routine =>
      if routine.isStarted then
        { s with world :=
          { s.world with sch := s.world.sch.modify n fun r => { r with isCanceled := true } } }
      else { s with world := s.world.free n, deleted := s.deleted ++ [n] }
    | none => s
  | none => s

variable [DecidableEq V]

def goOn (w : Resumption.World V) : Turn V → Resumption.World V
  | [] => w
  | call :: turn => if w.sch.currRoutine.isSome then goOn ((w.step call.val).getD w) turn else w

/-- The second loop: `switchToRoutine`, and what it does when the entry has returned. -/
def takeTurn (turns : Nat → Turn V) (obj : Option RoutineToken) (s : Cleanup V) : Cleanup V :=
  match obj with
  | some n =>
    let w := goOn (s.world.switchToRoutine none n) (turns s.switched.length)
    if w.sch.currRoutine.isSome then
      { s with world := w.finish n, switched := s.switched ++ [n], ended := s.ended ++ [n] }
    else { s with world := w, switched := s.switched ++ [n] }
  | none => s

/-- `while (!routine_cabinet.empty())`, if it is over after that many rounds -/
def whileNotEmpty (turns : Nat → Turn V) : Nat → Cleanup V → Option (Cleanup V)
  | 0, _ => none
  | rounds + 1, s =>
    if s.world.cabinet.size = 0 then some s
    else whileNotEmpty turns rounds (Raw.foreach cells (takeTurn turns) s)

/-- `Scheduler::cleanup`, if its loop is over after that many rounds -/
def cleanup (turns : Nat → Turn V) (rounds : Nat) (w : Resumption.World V) : Option (Cleanup V) :=
  (whileNotEmpty turns rounds (Raw.foreach cells discard { world := w })).map fun s =>
    { s with world := { s.world with cabinet := s.world.cabinet.clear } }

end Cleanup

end Tbox.Coroutine
