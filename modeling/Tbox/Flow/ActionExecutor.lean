import Tbox.Lib.Run

/-!
# The action executor

`flow/action_executor.cpp`: three queues of actions, the first the most urgent, of which one action is to run at a
time. Whether an action finishes in a hook is its own choice; it then posts a call of `schedule`.
-/

namespace Tbox.Flow.Executor

abbrev ActionId := Nat

abbrev Prio := Fin 3

instance neZero_prios : NeZero 3 := ⟨by decide⟩

inductive ActionState where
  | idle | running | pause | finished | stoped
  deriving DecidableEq, Repr

structure Item where
  id : ActionId
  state : ActionState := .idle
  /-- whether the action finishes in the hook that is called after `n` others -/
  finishes : Nat → Bool
  hooks : Nat := 0

/-- The action's hook is called, and leaves it in the state it was called for unless it finishes. -/
def Item.invoke (item : Item) (state : ActionState) : Item :=
  { item with
    state := if item.finishes item.hooks then .finished else state
    hooks := item.hooks + 1 }

inductive Event where
  | appended (prio : Prio) (id : ActionId)
  /-- `start` and `action_started_cb_` -/
  | started (prio : Prio) (id : ActionId)
  | paused (prio : Prio) (id : ActionId)
  | resumed (prio : Prio) (id : ActionId)
  /-- `action_finished_cb_` -/
  | finished (prio : Prio) (id : ActionId)
  | allFinished
  deriving DecidableEq, Repr

structure ActionExecutor where
  actionDequeArray : Prio → List Item := fun _ => []
  actionIdAllocCounter : Nat := 0
  /-- `none` for -1 -/
  currActionDequeIndex : Option Prio := none
  /-- the actions whose finish callbacks the loop has yet to run -/
  posted : List ActionId := []
  /-- `front()` has been taken of an empty queue -/
  fault : Bool := false
  log : List Event := []

namespace ActionExecutor

def setDeque (w : ActionExecutor) (prio : Prio) (items : List Item) : ActionExecutor :=
  { w with actionDequeArray := Function.update w.actionDequeArray prio items }

def post (w : ActionExecutor) (item : Item) : ActionExecutor :=
  if item.state = .finished then { w with posted := w.posted ++ [item.id] } else w

def record (w : ActionExecutor) (event : Event) : ActionExecutor := { w with log := w.log ++ [event] }

def delete (w : ActionExecutor) (item : Item) : ActionExecutor :=
  { w with posted := w.posted.filter (· ≠ item.id) }

def preempt (w : ActionExecutor) (readyDequeIndex : Prio) : ActionExecutor :=
  match w.currActionDequeIndex with
  | none => w
  | some curr =>
    if readyDequeIndex < curr then
      match w.actionDequeArray curr with
      | [] => { w with fault := true }
      | item :: rest =>
        if item.state = .running then
          let item := item.invoke .pause
          ((w.setDeque curr (item :: rest)).post item).record (.paused curr item.id)
        else w
    else w

def retire (w : ActionExecutor) (prio : Prio) (item : Item) : ActionExecutor :=
  { (w.delete item).record (.finished prio item.id) with currActionDequeIndex := none }

/-- The inner loop, on what is left of the ready queue: it ends with an action that is running. -/
def serve (prio : Prio) : ActionExecutor → List Item → ActionExecutor × Bool
  | w, [] => (w.setDeque prio [], false)
  | w, item :: rest =>
    match item.state with
    | .idle =>
      let item := item.invoke .running
      let w := { (w.record (.started prio item.id)).post item with currActionDequeIndex := some prio }
      if item.state = .finished then serve prio (w.retire prio item) rest
      else (w.setDeque prio (item :: rest), true)
    | .pause =>
      let item := item.invoke .running
      let w := { (w.record (.resumed prio item.id)).post item with currActionDequeIndex := some prio }
      if item.state = .finished then serve prio (w.retire prio item) rest
      else (w.setDeque prio (item :: rest), true)
    | .finished | .stoped => serve prio (w.retire prio item) rest
    | .running => (w.setDeque prio (item :: rest), true)

/-- The outer loop: a round that does not end the call leaves its queue empty. -/
def scheduleFrom : ActionExecutor → List Prio → ActionExecutor
  | w, [] => w.record .allFinished
  | w, prio :: prios =>
    if w.actionDequeArray prio = [] then scheduleFrom w prios
    else
      let w := w.preempt prio
      match serve prio w (w.actionDequeArray prio) with
      | (w, true) => w
      | (w, false) => scheduleFrom w prios

def schedule (w : ActionExecutor) : ActionExecutor := w.scheduleFrom [0, 1, 2]

def append (w : ActionExecutor) (prio : Prio) (finishes : Nat → Bool) : ActionExecutor :=
  let id := w.actionIdAllocCounter + 1
  let w := { w with actionIdAllocCounter := id }
  ((w.setDeque prio (w.actionDequeArray prio ++ [{ id := id, finishes := finishes }])).record
    (.appended prio id)).schedule

def stop (item : Item) : Item :=
  if item.state = .running ∨ item.state = .pause then { item with state := .stoped } else item

def cancelCurrent (w : ActionExecutor) : ActionExecutor :=
  match w.currActionDequeIndex with
  | none => w
  | some curr =>
    match w.actionDequeArray curr with
    | [] => { w with fault := true }
    | item :: rest => ((w.delete item).setDeque curr rest).schedule

def find (w : ActionExecutor) (id : ActionId) : Option Prio :=
  [0, 1, 2].find? fun prio => (w.actionDequeArray prio).any fun item => item.id = id

def cancel (w : ActionExecutor) (id : ActionId) : ActionExecutor :=
  match w.find id with
  | none => w
  | some prio =>
    { (w.setDeque prio ((w.actionDequeArray prio).eraseP fun item => item.id = id)) with
      posted := w.posted.filter (· ≠ id) }.schedule

def cancelAll (w : ActionExecutor) : ActionExecutor :=
  { w with
    actionDequeArray := fun prio =>
      match w.actionDequeArray prio with
      | [] => []
      | item :: rest => stop item :: rest }

def size (w : ActionExecutor) : Nat :=
  (w.actionDequeArray 0).length + (w.actionDequeArray 1).length + (w.actionDequeArray 2).length

def mayFinish (item : Item) : Bool := item.state ≠ .finished && item.state ≠ .stoped

def finish (w : ActionExecutor) (id : ActionId) : ActionExecutor :=
  { w with
    actionDequeArray := fun prio => (w.actionDequeArray prio).map fun item =>
      if item.id = id then { item with state := .finished } else item
    posted := w.posted ++ [id] }

end ActionExecutor

inductive Input where
  | append (prio : Prio) (finishes : Nat → Bool)
  | cancelCurrent
  | cancel (id : ActionId)
  | cancelAll
  /-- an action calls `finish` -/
  | finish (id : ActionId)
  /-- the loop runs the callback of a finished action -/
  | deliver

namespace ActionExecutor

def step (w : ActionExecutor) : Input → Option ActionExecutor
  | .append prio finishes => some (w.append prio finishes)
  | .cancelCurrent => some w.cancelCurrent
  | .cancel id => some (w.cancel id)
  | .cancelAll => some w.cancelAll
  | .finish id =>
    if ∃ prio, ∃ item ∈ w.actionDequeArray prio, item.id = id ∧ mayFinish item then
      some (w.finish id)
    else none
  | .deliver =>
    match w.posted with
    | [] => none
    | _ :: posted => some { w with posted }.schedule

end ActionExecutor

end Tbox.Flow.Executor
