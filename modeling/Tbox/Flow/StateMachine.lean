import Tbox.Lib.Callbacks

/-!
# The hierarchical state machine

`flow/state_machine.cpp`. Machines are numbered, a sub machine below the one it is attached to, and their statuses are
the cells of the programs `start`, `stop` and `run`. A pointer to a state is its id. The result of `stop`, which has
none, tells whether it was let in.
-/

namespace Tbox.Flow

abbrev StateID := Int

abbrev EventID := Int

abbrev MachineId := Nat

def nullStateId : StateID := -1

def termStateId : StateID := 0

def anyEventId : EventID := 0

structure Event where
  id : EventID := 0
  extra : Nat := 0
  deriving DecidableEq, Repr

structure Route where
  eventId : EventID
  nextStateId : StateID
  /-- whether there is a guard; the function itself is the user's -/
  guard : Bool
  deriving DecidableEq, Repr

structure State where
  id : StateID
  subSm : Option MachineId := none
  routes : List Route := []
  /-- the keys of the map from events to their functions -/
  events : List EventID := []
  defaultEvent : Bool := false
  deriving DecidableEq, Repr

structure Machine where
  initStateId : StateID := nullStateId
  states : List State := []
  deriving DecidableEq, Repr

namespace Machine

def findState (m : Machine) (stateId : StateID) : Option State :=
  if stateId ≠ nullStateId then m.states.find? fun state => state.id = stateId else none

def modifyState (m : Machine) (stateId : StateID) (f : State → State) : Machine :=
  { m with states := m.states.map fun state => if state.id = stateId then f state else state }

def newState (m : Machine) (stateId : StateID) : Option Machine :=
  if m.states.any fun state => state.id = stateId then none
  else some {
    states := m.states ++ [{ id := stateId }]
    initStateId := if m.initStateId = nullStateId then stateId else m.initStateId }

def addRoute (m : Machine) (fromStateId : StateID) (eventId : EventID) (toStateId : StateID)
    (guard : Bool) : Option Machine :=
  if (m.findState fromStateId).isNone then none
  else if toStateId ≠ termStateId ∧ (m.findState toStateId).isNone then none
  else some (m.modifyState fromStateId fun state =>
    { state with routes := state.routes ++ [⟨eventId, toStateId, guard⟩] })

def addEvent (m : Machine) (stateId : StateID) (eventId : EventID) : Option Machine :=
  if (m.findState stateId).isNone then none
  else some (m.modifyState stateId fun state =>
    if eventId ≠ anyEventId then { state with events := eventId :: state.events }
    else { state with defaultEvent := true })

def setInitState (m : Machine) (initStateId : StateID) : Machine :=
  { m with initStateId := initStateId }

def setSubStateMachine (m : Machine) (stateId : StateID) (subSm : MachineId) : Option Machine :=
  if (m.findState stateId).isNone then none
  else some (m.modifyState stateId fun state => { state with subSm := some subSm })

inductive Built : Machine → Prop where
  | new : Built {}
  | newState {m m' : Machine} (stateId : StateID) (h : Built m) (heq : m.newState stateId = some m') :
      Built m'
  | addRoute {m m' : Machine} (fromStateId : StateID) (eventId : EventID) (toStateId : StateID)
      (guard : Bool) (h : Built m) (heq : m.addRoute fromStateId eventId toStateId guard = some m') :
      Built m'
  | addEvent {m m' : Machine} (stateId : StateID) (eventId : EventID) (h : Built m)
      (heq : m.addEvent stateId eventId = some m') : Built m'
  | setInitState {m : Machine} (initStateId : StateID) (h : Built m) : Built (m.setInitState initStateId)
  | setSubStateMachine {m m' : Machine} (stateId : StateID) (subSm : MachineId) (h : Built m)
      (heq : m.setSubStateMachine stateId subSm = some m') : Built m'

end Machine

structure Hierarchy where
  machine : MachineId → Machine
  built : ∀ m, (machine m).Built
  sub_lt : ∀ m, ∀ state ∈ (machine m).states, ∀ sub, state.subSm = some sub → sub < m

structure Status where
  isRunning : Bool := false
  lastState : Option StateID := none
  currState : Option StateID := none
  nextState : Option StateID := none
  cbLevel : Int := 0
  deriving DecidableEq, Repr

def Status.isTerminated (s : Status) : Prop := s.currState = some termStateId

instance (s : Status) : Decidable s.isTerminated := inferInstanceAs (Decidable (_ = _))

inductive Callback where
  | enter (m : MachineId) (state : StateID) (event : Event)
  | exit (m : MachineId) (state : StateID) (event : Event)
  | event (m : MachineId) (state : StateID) (event : Event)
  | defaultEvent (m : MachineId) (state : StateID) (event : Event)
  | guard (m : MachineId) (route : Route) (event : Event)
  | action (m : MachineId) (route : Route) (event : Event)
  | stateChanged (m : MachineId) (last curr : StateID) (event : Event)
  deriving DecidableEq, Repr

inductive Op where
  | start
  | stop
  | restart
  | run (event : Event)
  deriving DecidableEq, Repr

structure Call where
  machine : MachineId
  op : Op
  deriving DecidableEq, Repr

abbrev Prog (α : Type) := Lib.Prog MachineId Status Callback Call α

namespace Hierarchy

variable (H : Hierarchy)

/-- The object a pointer to a state points to: `_term_state_` if the user has not defined one. -/
def stateAt (m : MachineId) (stateId : StateID) : State :=
  ((H.machine m).findState stateId).getD { id := termStateId }

def status (m : MachineId) : Prog Status := .get m .pure

def modify (m : MachineId) (f : Status → Status) : Prog Unit :=
  .get m fun s => .set m (f s) (.pure ())

def callback (c : Callback) : Prog Int := .callback c .pure

/-- `++cb_level_` -/
def raise (m : MachineId) : Prog Unit := modify m fun s => { s with cbLevel := s.cbLevel + 1 }

/-- `--cb_level_` -/
def lower (m : MachineId) : Prog Unit := modify m fun s => { s with cbLevel := s.cbLevel - 1 }

/-- `*curr_state_` -/
def currState (m : MachineId) : Prog State := do
  match (← status m).currState with
  | some stateId => return H.stateAt m stateId
  | none => .crash

/-- `*curr_state_->sub_sm` -/
def currSub (m : MachineId) : Prog MachineId := do
  match (← H.currState m).subSm with
  | some sub => return sub
  | none => .crash

theorem currState_bind {α : Type} (m : MachineId) (f : State → Prog α) : H.currState m >>= f
      = status m >>= fun s => s.currState.elim .crash fun stateId => f (H.stateAt m stateId) := by
  refine congrArg (Lib.Prog.get m) (funext fun s => ?_)
  simp only [Lib.Prog.bind]
  cases s.currState <;> rfl

theorem currSub_bind {α : Type} (m : MachineId) (f : MachineId → Prog α) : H.currSub m >>= f
      = status m >>= fun s => s.currState.elim .crash fun stateId => (H.stateAt m stateId).subSm.elim .crash f := by
  refine congrArg (Lib.Prog.get m) (funext fun s => ?_)
  simp only [Lib.Prog.bind]
  cases s.currState with
  | none => rfl
  | some stateId =>
    simp only [pure, Lib.Prog.bind, Option.elim_some]
    cases (H.stateAt m stateId).subSm <;> rfl

/-- `start`, where the first argument exceeds the depth of the hierarchy below `m`. -/
def start : Nat → MachineId → Prog Bool
  | 0, _ => .crash
  | depth + 1, m => Lib.Prog.bracket ⟨m, .start⟩ do
      let s ← status m
      if s.isRunning then return false
      else if s.cbLevel ≠ 0 then return false
      else
        match (H.machine m).findState (H.machine m).initStateId with
        | none => return false
        | some initState => do
            modify m fun s => { s with isRunning := true, currState := some initState.id }
            raise m
            let _ ← callback (.enter m initState.id {})
            lower m
            match (← H.currState m).subSm with
            | none => return true
            | some _ => do
                let _ ← start depth (← H.currSub m)
                return true

def stop (m : MachineId) : Prog Bool := Lib.Prog.bracket ⟨m, .stop⟩ do
  let s ← status m
  if !s.isRunning then return false
  else if s.cbLevel ≠ 0 then return false
  else do
    raise m
    let _ ← callback (.exit m (← H.currState m).id {})
    lower m
    modify m fun s => { s with isRunning := false, currState := none }
    return true

/-- The `find_if` over the routes. -/
def findRoute (m : MachineId) (event : Event) : List Route → Prog (Option Route)
  | [] => return none
  | route :: routes =>
    if route.eventId ≠ anyEventId ∧ route.eventId ≠ event.id then findRoute m event routes
    else if route.guard then do
      let passed ← callback (.guard m route event)
      if passed = 0 then findRoute m event routes else return some route
    else return some route

def callHandler (m : MachineId) (event : Event) (curr : State) : Prog StateID :=
  if event.id ∈ curr.events then callback (.event m curr.id event)
  else if curr.defaultEvent then callback (.defaultEvent m curr.id event)
  else return nullStateId

def handleEvent (m : MachineId) (event : Event) : Prog StateID := do
  raise m
  let nextStateId ← callHandler m event (← H.currState m)
  lower m
  return nextStateId

def selectRoute (m : MachineId) (event : Event) : Prog (Option Route) := do
  raise m
  let route ← findRoute m event (← H.currState m).routes
  lower m
  return route

/-- `route_action(event)` -/
def takeRoute (m : MachineId) (event : Event) : Option Route → Prog Unit
  | none => return ()
  | some route => do
      let _ ← callback (.action m route event)
      return ()

/-- `state_changed_cb_(last_state_->id, curr_state_->id, event)` -/
def notifyChanged (m : MachineId) (event : Event) : Prog Unit := do
  match (← status m).lastState with
  | none => .crash
  | some last => do
      let _ ← callback (.stateChanged m (H.stateAt m last).id (← H.currState m).id event)
      return ()

def enterSub (startSub : MachineId → Prog Bool) (runSub : MachineId → Event → Prog Bool)
    (m : MachineId) (event : Event) : Prog Unit := do
  match (← H.currState m).subSm with
  | none => return ()
  | some _ => do
      let _ ← startSub (← H.currSub m)
      let _ ← runSub (← H.currSub m) event
      return ()

/-- `next_state_`, or none if there is no such state. -/
def knownState (m : MachineId) (stateId : StateID) : Option StateID :=
  if ((H.machine m).findState stateId).isSome ∨ stateId = termStateId then some stateId else none

/-- The part of `run` from the choice of `next_state_` on. -/
def changeState (startSub : MachineId → Prog Bool) (runSub : MachineId → Event → Prog Bool)
    (m : MachineId) (event : Event) (nextStateId : StateID) (route : Option Route) : Prog Bool := do
  modify m fun s => { s with nextState := H.knownState m nextStateId }
  match H.knownState m nextStateId with
  | none => return false
  | some _ => do
      raise m
      let _ ← callback (.exit m (← H.currState m).id event)
      modify m fun s => { s with lastState := s.currState, currState := none }
      takeRoute m event route
      modify m fun s => { s with currState := s.nextState, nextState := none }
      let _ ← callback (.enter m (← H.currState m).id event)
      H.notifyChanged m event
      H.enterSub startSub runSub m event
      lower m
      return true

/-- What `run` does with the current state itself. -/
def runCurrent (startSub : MachineId → Prog Bool) (runSub : MachineId → Event → Prog Bool)
    (m : MachineId) (event : Event) : Prog Bool := do
  let nextStateId ← H.handleEvent m event
  if nextStateId = nullStateId then
    match ← H.selectRoute m event with
    | none => return false
    | some route => H.changeState startSub runSub m event route.nextStateId (some route)
  else H.changeState startSub runSub m event nextStateId none

def run : Nat → MachineId → Event → Prog Bool
  | 0, _, _ => .crash
  | depth + 1, m, event => Lib.Prog.bracket ⟨m, .run event⟩ do
      let s ← status m
      if !s.isRunning then return false
      else if s.cbLevel ≠ 0 then return false
      else
        match (← H.currState m).subSm with
        | none => H.runCurrent (H.start depth) (run depth) m event
        | some sub => do
            let ret ← run depth sub event
            if (← status (← H.currSub m)).isTerminated then do
              let _ ← H.stop (← H.currSub m)
              H.runCurrent (H.start depth) (run depth) m event
            else return ret

def perform (call : Call) : Prog Bool :=
  match call.op with
  | .start => H.start (call.machine + 1) call.machine
  | .stop => H.stop call.machine
  | .restart => do
      let _ ← H.stop call.machine
      H.start (call.machine + 1) call.machine
  | .run event => H.run (call.machine + 1) call.machine event

end Hierarchy

end Tbox.Flow
