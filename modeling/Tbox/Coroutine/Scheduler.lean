import Mathlib.Logic.Function.Basic

/-!
# The coroutine scheduler

`coroutine/scheduler.cpp`. A routine runs until `wait`, `yield`, `join` or its end gives the turn back. Whatever makes
a routine ready posts a call of `schedule`, which takes the ready queue over and goes through it.
-/

namespace Tbox.Coroutine

abbrev RoutineToken := Nat

inductive RoutineState where
  | suspend | ready | running | dead
  deriving DecidableEq, Repr

structure Routine where
  state : RoutineState := .suspend
  isStarted : Bool := false
  isCanceled : Bool := false
  /-- the routine that waits for the end of this one -/
  joinToken : Option RoutineToken := none

structure Scheduler where
  routineCabinet : RoutineToken → Option Routine := fun _ => none
  allocated : Nat := 0
  /-- `none` in the main routine -/
  currRoutine : Option RoutineToken := none
  readyRoutines : List RoutineToken := []
  /-- what the call of `schedule` under way has yet to switch to -/
  tmp : List RoutineToken := []

namespace Scheduler

def modify (s : Scheduler) (t : RoutineToken) (f : Routine → Routine) : Scheduler :=
  { s with routineCabinet := Function.update s.routineCabinet t ((s.routineCabinet t).map f) }

def isCanceled (s : Scheduler) (t : RoutineToken) : Bool := (s.routineCabinet t).any Routine.isCanceled

def makeRoutineReady (s : Scheduler) (t : RoutineToken) (routine : Routine) : Scheduler :=
  if routine.state = .ready ∨ routine.state = .dead then s
  else { s.modify t fun r => { r with state := .ready } with readyRoutines := s.readyRoutines ++ [t] }

def create (s : Scheduler) (runNow : Bool) : Scheduler :=
  let t := s.allocated
  let s := { s with
    routineCabinet := Function.update s.routineCabinet t (some {})
    allocated := s.allocated + 1 }
  if runNow then s.makeRoutineReady t {} else s

def resume (s : Scheduler) (t : RoutineToken) : Scheduler :=
  match s.routineCabinet t with
  | some routine => s.makeRoutineReady t routine
  | none => s

def cancel (s : Scheduler) (t : RoutineToken) : Scheduler :=
  match s.routineCabinet t with
  | some routine => (s.modify t fun r => { r with isCanceled := true }).makeRoutineReady t routine
  | none => s

def suspend (s : Scheduler) (t : RoutineToken) : Scheduler :=
  { s.modify t fun r => { r with state := .suspend } with currRoutine := none }

def wait (s : Scheduler) (t : RoutineToken) : Scheduler := if s.isCanceled t then s else s.suspend t

def yield (s : Scheduler) (t : RoutineToken) : Scheduler :=
  if s.isCanceled t then s else { s.resume t with currRoutine := none }

def join (s : Scheduler) (t other : RoutineToken) : Scheduler :=
  if s.isCanceled t then s
  else
    match s.routineCabinet other with
    | none => s
    | some routine =>
      if routine.state = .dead ∨ routine.joinToken.isSome then s
      else (s.modify other fun r => { r with joinToken := some t }).suspend t

def finish (s : Scheduler) (t : RoutineToken) : Scheduler :=
  let joinToken := (s.routineCabinet t).bind Routine.joinToken
  let s := { s with routineCabinet := Function.update s.routineCabinet t none, currRoutine := none }
  match joinToken with
  | some other => s.resume other
  | none => s

def schedule (s : Scheduler) : Scheduler := { s with readyRoutines := [], tmp := s.readyRoutines }

def switchToRoutine (s : Scheduler) (t : RoutineToken) : Scheduler :=
  { s.modify t fun r => { r with state := .running, isStarted := true } with currRoutine := some t }

def queue (s : Scheduler) : List RoutineToken := s.readyRoutines ++ s.tmp

end Scheduler

end Tbox.Coroutine
