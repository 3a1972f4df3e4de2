import Mathlib.Data.Finset.Basic
import Tbox.Coroutine.Scheduler
import Tbox.Proof.CabinetWellFormed

/-!
# How routines are resumed

`coroutine/scheduler.cpp` with its cabinet, and `coroutine/condition.hpp`. Every entry of the ready queue is kept with
the call that has put it there, and every routine with what it was about when it gave its turn back.
-/

namespace Tbox.Coroutine.Resumption

open Cabinet (Token)

/-- `Condition::Logic`. -/
inductive Logic where
  | kAll | kAny
  deriving DecidableEq, Repr

inductive Call (V : Type) where
  | add (v : V)
  | post (v : V)
  deriving DecidableEq, Repr

structure Condition (V : Type) where
  logic : Logic
  conds : Finset V := ∅
  waitToken : Token := {}
  /-- what has been called since there was nothing to wait for last -/
  calls : List (Call V) := []

namespace Condition

variable {V : Type} [DecidableEq V]

def add (c : Condition V) (v : V) : Condition V :=
  { c with conds := insert v c.conds, calls := c.calls ++ [.add v] }

def missing (c : Condition V) (v : V) : Finset V :=
  match c.logic with
  | .kAll => c.conds.erase v
  | .kAny => ∅

def completes (c : Condition V) (v : V) : Bool := v ∈ c.conds ∧ c.missing v = ∅

def clear (c : Condition V) : Condition V := { c with conds := ∅, calls := [] }

/-- `post`, but for the resume. -/
def post (c : Condition V) (v : V) : Condition V :=
  if c.completes v then { c.clear with waitToken := {} }
  else { c with
    conds := if v ∈ c.conds then c.missing v else c.conds
    calls := c.calls ++ [.post v] }

def accepts (c : Condition V) : Bool := c.waitToken.isNull ∧ c.conds ≠ ∅

end Condition

abbrev ConditionId := Nat

inductive Wait (V : Type) where
  | plain
  | join (key : RoutineToken)
  /-- with the calls that have met the condition, if they have -/
  | condition (c : ConditionId) (met : Option (List (Call V)))
  deriving DecidableEq, Repr

inductive Stand (V : Type) where
  | created (runNow : Bool)
  | running
  | yielded
  | suspended (wait : Wait V)
  deriving DecidableEq, Repr

def Stand.isSuspended {V : Type} : Stand V → Bool
  | .created runNow => !runNow
  | .suspended _ => true
  | _ => false

def Stand.waitsFor {V : Type} (c : ConditionId) : Stand V → Bool
  | .suspended (.condition c' _) => c' = c
  | _ => false

inductive Cause where
  | create | resume | cancel | yield
  deriving DecidableEq, Repr

/-- The number of an entry of the ready queue, the routine it was made for, and the call that made it. -/
structure Entry where
  no : Nat
  made : RoutineToken
  cause : Cause
  deriving DecidableEq, Repr

inductive Event (V : Type) where
  /-- A routine is switched to, by an entry of the queue or by `cleanup`. -/
  | switched (entry : Option Entry) (target : RoutineToken) (stand : Stand V)
  /-- `join` returns; with whether the other routine has ended, and whether this one is cancelled. -/
  | joined (result ended canceled : Bool)
  /-- `Condition::wait` returns. -/
  | waited (logic : Logic) (result : Bool) (met : Option (List (Call V))) (canceled : Bool)
  deriving DecidableEq, Repr

structure World (V : Type) where
  sch : Scheduler := {}
  /-- `routine_cabinet` -/
  cabinet : Cabinet RoutineToken := .empty
  tokens : RoutineToken → Token := fun _ => {}
  stand : RoutineToken → Stand V := fun _ => .created false
  /-- what `tmp` and `ready_routines` hold, in this order -/
  entries : List Entry := []
  /-- the number of entries there have been -/
  pushed : Nat := 0
  conditions : ConditionId → Condition V
  /-- in the loop of `cleanup` -/
  cleaning : Bool := false
  log : List (Event V) := []

namespace World

variable {V : Type}

def initial (logic : ConditionId → Logic) : World V := { conditions := fun c => { logic := logic c } }

def call (w : World V) (sch : Scheduler) (cause : Cause) : World V :=
  let ready := sch.readyRoutines.drop w.sch.readyRoutines.length
  { w with
    sch := sch
    entries := w.entries ++ (ready.zipIdx w.pushed).map fun made => Entry.mk made.2 made.1 cause
    pushed := w.pushed + ready.length }

def create (w : World V) (runNow : Bool) : World V :=
  let n := w.sch.allocated
  let (token, cabinet) := w.cabinet.alloc (some n)
  { w with
    cabinet := cabinet
    tokens := Function.update w.tokens n token
    stand := Function.update w.stand n (.created runNow) }.call (w.sch.create runNow) .create

def resume (w : World V) (token : Token) : World V :=
  match w.cabinet.at? token with
  | some n => w.call (w.sch.resume n) .resume
  | none => w

def cancel (w : World V) (token : Token) : World V :=
  match w.cabinet.at? token with
  | some n => w.call (w.sch.cancel n) .cancel
  | none => w

def setStand (w : World V) (n : RoutineToken) (stand : Stand V) : World V :=
  { w with stand := Function.update w.stand n stand }

def wait (w : World V) (n : RoutineToken) : World V :=
  if w.sch.isCanceled n then w else { w.setStand n (.suspended .plain) with sch := w.sch.wait n }

def yield (w : World V) (n : RoutineToken) : World V :=
  if w.sch.isCanceled n then w else (w.setStand n .yielded).call (w.sch.yield n) .yield

def ended (w : World V) (key : RoutineToken) : Bool :=
  (w.sch.routineCabinet key).all fun routine => routine.state = .dead

/-- The routine that a `join` of that token is going to wait for. -/
def joinable (w : World V) (token : Token) : Option RoutineToken :=
  (w.cabinet.at? token).filter fun key =>
    (w.sch.routineCabinet key).any fun routine => routine.state ≠ .dead ∧ routine.joinToken = none

def join (w : World V) (n : RoutineToken) (token : Token) : World V :=
  if w.sch.isCanceled n then { w with log := w.log ++ [.joined false false true] }
  else
    match w.joinable token with
    | some key => { w.setStand n (.suspended (.join key)) with sch := w.sch.join n key }
    | none =>
      let ended := (w.cabinet.at? token).all w.ended
      let result := (w.cabinet.at? token).any w.ended
      { w with log := w.log ++ [.joined result ended false] }

def free (w : World V) (n : RoutineToken) : World V :=
  { w with
    cabinet := (w.cabinet.free (w.tokens n)).2
    sch := { w.sch with routineCabinet := Function.update w.sch.routineCabinet n none } }

/-- The routine's entry returns, and the one that has joined it is resumed by its token. -/
def finish (w : World V) (n : RoutineToken) : World V :=
  let joinToken := (w.sch.routineCabinet n).bind Routine.joinToken
  let w := { w.free n with sch := { (w.free n).sch with currRoutine := none } }
  match joinToken with
  | some other => w.resume (w.tokens other)
  | none => w

def setCondition (w : World V) (c : ConditionId) (condition : Condition V) : World V :=
  { w with conditions := Function.update w.conditions c condition }

/-- `Condition::wait` has returned from `Scheduler::wait`. -/
def leaveCondition (w : World V) (n : RoutineToken) (c : ConditionId) (met : Option (List (Call V))) :
    World V :=
  let canceled := w.sch.isCanceled n
  { w.setCondition c (w.conditions c).clear with
    log := w.log ++ [.waited (w.conditions c).logic (!canceled) met canceled] }

/-- `swapcontext` to a routine, which goes on in the call in which it had given its turn back. -/
def switchToRoutine (w : World V) (entry : Option Entry) (n : RoutineToken) : World V :=
  let stand := w.stand n
  let w := { w.setStand n .running with
    sch := w.sch.switchToRoutine n
    log := w.log ++ [.switched entry n stand] }
  match stand with
  | .suspended (.join key) =>
    { w with log := w.log ++ [.joined (!w.sch.isCanceled n) (w.ended key) (w.sch.isCanceled n)] }
  | .suspended (.condition c met) => w.leaveCondition n c met
  | _ => w

/-- The next turn of the loop of `schedule`. -/
def switch (w : World V) (entry : Entry) (entries : List Entry) (tmp : List RoutineToken) : World V :=
  let w := { w with sch := { w.sch with tmp := tmp }, entries := entries }
  match w.cabinet.at? (w.tokens entry.made) with
  | some n => w.switchToRoutine (some entry) n
  | none => w

/-- What `cleanup` does with a routine before its loop. -/
def discard (w : World V) (n : RoutineToken) : World V :=
  match w.sch.routineCabinet n with
  | none => w
  | some routine =>
    if routine.isStarted then
      { w with sch := w.sch.modify n fun r => { r with isCanceled := true } }
    else w.free n

def cleanup (w : World V) : World V :=
  { (List.range w.sch.allocated).foldl discard w with cleaning := true }

def meet (w : World V) (c : ConditionId) (token : Token) (calls : List (Call V)) : World V :=
  match w.cabinet.at? token with
  | some n => if (w.stand n).waitsFor c then w.setStand n (.suspended (.condition c (some calls))) else w
  | none => w

/-- The main routine makes calls only outside of `schedule` and of `cleanup`. -/
def mayCall (w : World V) : Bool :=
  w.sch.currRoutine.isSome || (w.sch.tmp.isEmpty && !w.cleaning)

variable [DecidableEq V]

def post (w : World V) (c : ConditionId) (v : V) : World V :=
  let condition := w.conditions c
  let w := w.setCondition c (condition.post v)
  if condition.completes v then
    (w.meet c condition.waitToken (condition.calls ++ [.post v])).resume condition.waitToken
  else w

/-- `Condition::wait`. -/
def waitCondition (w : World V) (n : RoutineToken) (c : ConditionId) : World V :=
  if (w.conditions c).accepts then
    let w := w.setCondition c { w.conditions c with waitToken := w.tokens n }
    if w.sch.isCanceled n then w.leaveCondition n c none
    else { w.setStand n (.suspended (.condition c none)) with sch := w.sch.wait n }
  else { w with log := w.log ++ [.waited (w.conditions c).logic false none (w.sch.isCanceled n)] }

end World

/-- What happens next: a routine makes a call, `schedule` is called or switches to a routine, and so `cleanup`. -/
inductive Action (V : Type) where
  | create (runNow : Bool)
  | resume (token : Token)
  | cancel (token : Token)
  | wait
  | yield
  | join (token : Token)
  /-- the current routine's entry returns -/
  | finish
  | add (c : ConditionId) (v : V)
  | post (c : ConditionId) (v : V)
  | waitCondition (c : ConditionId)
  | schedule
  | switch
  | cleanup
  /-- the loop of `cleanup` comes to that routine -/
  | cleanSwitch (n : RoutineToken)
  /-- the loop of `cleanup` is over -/
  | cleaned

namespace World

variable {V : Type} [DecidableEq V]

def step (w : World V) : Action V → Option (World V)
  | .create runNow => if w.mayCall then some (w.create runNow) else none
  | .resume token => if w.mayCall then some (w.resume token) else none
  | .cancel token => if w.mayCall then some (w.cancel token) else none
  | .wait => w.sch.currRoutine.map fun n => w.wait n
  | .yield => w.sch.currRoutine.map fun n => w.yield n
  | .join token => w.sch.currRoutine.map fun n => w.join n token
  | .finish => w.sch.currRoutine.map fun n => w.finish n
  | .add c v => if w.mayCall then some (w.setCondition c ((w.conditions c).add v)) else none
  | .post c v => if w.mayCall then some (w.post c v) else none
  | .waitCondition c => w.sch.currRoutine.map fun n => w.waitCondition n c
  | .schedule =>
    if w.sch.currRoutine = none ∧ w.sch.tmp = [] ∧ w.cleaning = false then
      some { w with sch := w.sch.schedule }
    else none
  | .switch =>
    match w.sch.currRoutine, w.sch.tmp, w.entries with
    | none, _ :: tmp, entry :: entries => some (w.switch entry entries tmp)
    | _, _, _ => none
  | .cleanup =>
    if w.sch.currRoutine = none ∧ w.sch.tmp = [] ∧ w.cleaning = false then some w.cleanup else none
  | .cleanSwitch n =>
    if w.sch.currRoutine = none ∧ w.cleaning = true ∧ (w.sch.routineCabinet n).isSome then
      some (w.switchToRoutine none n)
    else none
  | .cleaned =>
    if w.sch.currRoutine = none ∧ w.cleaning = true ∧ w.cabinet.size = 0 then
      some { w with cabinet := w.cabinet.clear, cleaning := false }
    else none

end World

end Tbox.Coroutine.Resumption
