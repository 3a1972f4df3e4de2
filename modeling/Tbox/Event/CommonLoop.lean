import Tbox.Lib.Run

/-!
# The event loop's deferred tasks

`event/common_loop_run.cpp`, with what touches the task queues in `common_loop.cpp` and the engine's `runLoop`. An
action is one section under `lock_`, one step of the loop thread outside it, or one call that takes no lock; only the
cleanup of a session holds the lock while tasks run. The eventfd is its counter.
-/

namespace Tbox.Event

/-- A `RunId` is a `uint64_t`. -/
def runIdMod : Nat := 2 ^ 64

structure RunFuncItem where
  id : Nat
  func : Nat
  deriving DecidableEq, Repr

abbrev RunFuncQueue := List RunFuncItem

inductive Pc where
  | outside
  /-- in the wait for events -/
  | polling
  /-- among the callbacks of the events, `ready` if the eventfd's is still to come -/
  | dispatching (ready : Bool)
  /-- in the loop of `handleRunInLoopFunc` -/
  | drainingInLoop
  /-- in the loop of `handleNextFunc` -/
  | drainingNext
  /-- out of the loop of `runLoop` -/
  | ending
  /-- in `cleanupDeferredTasks` with its local queues, called at the end of a session or by
  `cleanup` -/
  | cleaning (runNextTasks runInLoopTasks : RunFuncQueue) (remainLoopCount : Nat) (atEnd : Bool)
  deriving DecidableEq, Repr

/-- A call of `run` between its two sections. -/
structure RunCall where
  inLoopThread : Bool
  canRunNext : Bool
  deriving DecidableEq, Repr

structure CommonLoop where
  hasCommitRunReq : Bool := false
  /-- `run_event_fd_` and `sp_run_read_event_`, which a session sets and resets together -/
  runEvent : Option Nat := none
  runInLoopIdAlloc : Nat := 0
  runNextIdAlloc : Nat := 1
  runInLoopFuncQueue : RunFuncQueue := []
  runNextFuncQueue : RunFuncQueue := []
  tmpFuncQueue : RunFuncQueue := []
  keepRunning : Bool := false
  pc : Pc := .outside
  runCalls : List RunCall := []
  -- what has become of the tasks
  submitted : List RunFuncItem := []
  begun : List RunFuncItem := []
  cancelled : List RunFuncItem := []
  deriving DecidableEq

namespace CommonLoop

def allocRunInLoopId (s : CommonLoop) : Nat :=
  let id := (s.runInLoopIdAlloc + 2) % runIdMod
  if id = 0 then (id + 2) % runIdMod else id

def allocRunNextId (s : CommonLoop) : Nat := (s.runNextIdAlloc + 2) % runIdMod

def commitRunRequest (s : CommonLoop) : CommonLoop :=
  if s.hasCommitRunReq then s
  else { s with runEvent := s.runEvent.map (· + 1), hasCommitRunReq := true }

def finishRunRequest (s : CommonLoop) : CommonLoop :=
  { s with runEvent := s.runEvent.map fun _ => 0, hasCommitRunReq := false }

def runInLoop (s : CommonLoop) : CommonLoop :=
  let runId := s.allocRunInLoopId
  let item := ⟨runId, s.submitted.length⟩
  let s := { s with
    runInLoopIdAlloc := runId
    runInLoopFuncQueue := s.runInLoopFuncQueue ++ [item]
    submitted := s.submitted ++ [item] }
  if s.runEvent.isSome then s.commitRunRequest else s

def runNext (s : CommonLoop) : CommonLoop :=
  let runId := s.allocRunNextId
  let item := ⟨runId, s.submitted.length⟩
  { s with
    runNextIdAlloc := runId
    runNextFuncQueue := s.runNextFuncQueue ++ [item]
    submitted := s.submitted ++ [item] }

/-- The locked section of `run`. -/
def runDecide (s : CommonLoop) (inLoopThread : Bool) : CommonLoop :=
  let canRunNext := !(s.runEvent.isSome && !inLoopThread)
  { s with runCalls := s.runCalls ++ [⟨inLoopThread, canRunNext⟩] }

def removeRunFuncItemById (runDeque : RunFuncQueue) (runId : Nat) : Bool × RunFuncQueue :=
  (runDeque.any fun item => item.id = runId, runDeque.filter fun item => item.id ≠ runId)

/-- The items `removeRunFuncItemById` takes out. -/
def removedItems (runDeque : RunFuncQueue) (runId : Nat) : RunFuncQueue :=
  runDeque.filter fun item => item.id = runId

def cancel (s : CommonLoop) (runId : Nat) : Bool × CommonLoop :=
  if runId = 0 then (false, s)
  else
    let (found, tmp) := removeRunFuncItemById s.tmpFuncQueue runId
    if found then
      (true, { s with
        tmpFuncQueue := tmp, cancelled := s.cancelled ++ removedItems s.tmpFuncQueue runId })
    else if runId % 2 = 1 then
      let (found, queue) := removeRunFuncItemById s.runNextFuncQueue runId
      (found, { s with
        runNextFuncQueue := queue
        cancelled := s.cancelled ++ removedItems s.runNextFuncQueue runId })
    else
      let (found, queue) := removeRunFuncItemById s.runInLoopFuncQueue runId
      (found, { s with
        runInLoopFuncQueue := queue
        cancelled := s.cancelled ++ removedItems s.runInLoopFuncQueue runId })

/-- `runThisBeforeLoop`, and the mode stored in `keep_running_`. -/
def beginRun (s : CommonLoop) (forever : Bool) : CommonLoop :=
  let s := { s with runEvent := some 0, keepRunning := forever, pc := .polling }
  if s.runInLoopFuncQueue ≠ [] then s.commitRunRequest else s

/-- The locked section of `handleRunInLoopFunc`. -/
def handleRunInLoopFunc (s : CommonLoop) : CommonLoop :=
  { s with
    runInLoopFuncQueue := s.tmpFuncQueue
    tmpFuncQueue := s.runInLoopFuncQueue
    pc := .drainingInLoop }.finishRunRequest

def handleNextFunc (s : CommonLoop) : CommonLoop :=
  { s with
    runNextFuncQueue := s.tmpFuncQueue
    tmpFuncQueue := s.runNextFuncQueue
    pc := .drainingNext }

/-- The head of the loop of `cleanupDeferredTasks`. -/
def cleanupRound (s : CommonLoop) (remainLoopCount : Nat) (atEnd : Bool) : CommonLoop :=
  { s with
    runNextFuncQueue := []
    runInLoopFuncQueue := []
    pc := .cleaning s.runNextFuncQueue s.runInLoopFuncQueue remainLoopCount atEnd }

/-- `cleanupDeferredTasks` returns; at the end of a session the rest of `runThisAfterLoop` follows. -/
def cleanupEnd (s : CommonLoop) (atEnd : Bool) : CommonLoop :=
  if atEnd then { s with runEvent := none, pc := .outside } else { s with pc := .outside }

/-- `lock_` is held between actions. -/
def locked (s : CommonLoop) : Bool :=
  match s.pc with
  | .cleaning _ _ _ atEnd => atEnd
  | _ => false

def inCallback (s : CommonLoop) : Bool :=
  match s.pc with
  | .polling | .ending => false
  | _ => true

def canLock (s : CommonLoop) (inLoopThread : Bool) : Bool :=
  if inLoopThread then s.inCallback else !s.locked

def canCall (s : CommonLoop) (inLoopThread : Bool) : Bool := !inLoopThread || s.inCallback

inductive Action where
  | runInLoop (inLoopThread : Bool)
  | runNext (inLoopThread : Bool)
  | runDecide (inLoopThread : Bool)
  /-- the second half of the given call of `run` -/
  | runCommit (call : Nat)
  | cancel (inLoopThread : Bool) (runId : Nat)
  | exitLoop
  | cleanup
  | beginRun (forever : Bool)
  /-- the wait returns, with or without the eventfd among the events -/
  | poll (ready : Bool)
  | handleRunInLoopFunc
  | handleNextFunc
  /-- the front of the queue in hand is popped and its function called -/
  | startTask
  | endDrain
  | endRun
  | cleanupRound
  | cleanupEnd
  deriving DecidableEq, Repr

def callStep (s : CommonLoop) : Action → Option CommonLoop
  | .runInLoop inLoopThread => if s.canLock inLoopThread then some s.runInLoop else none
  | .runNext inLoopThread => if s.canCall inLoopThread then some s.runNext else none
  | .runDecide inLoopThread =>
    if s.canLock inLoopThread then some (s.runDecide inLoopThread) else none
  | .runCommit call =>
    match s.runCalls[call]? with
    | none => none
    | some ⟨inLoopThread, canRunNext⟩ =>
      let t := { s with runCalls := s.runCalls.eraseIdx call }
      if canRunNext then
        if s.canCall inLoopThread then some t.runNext else none
      else
        if s.canLock inLoopThread then some t.runInLoop else none
  | .cancel inLoopThread runId =>
    if s.canCall inLoopThread ∧ (runId % 2 = 1 ∨ s.canLock inLoopThread) then
      some (s.cancel runId).2
    else none
  | .exitLoop => if s.inCallback then some { s with keepRunning := false } else none
  | .cleanup =>
    if s.pc = .outside then some { s with pc := .cleaning [] [] 100 false } else none
  | _ => none

def loopStep (s : CommonLoop) : Action → Option CommonLoop
  | .beginRun forever => if s.pc = .outside then some (s.beginRun forever) else none
  | .poll ready =>
    if s.pc = .polling ∧ (ready = true → s.runEvent ≠ some 0) then
      some { s with pc := .dispatching ready }
    else none
  | .handleRunInLoopFunc => if s.pc = .dispatching true then some s.handleRunInLoopFunc else none
  | .handleNextFunc => if s.pc = .dispatching false then some s.handleNextFunc else none
  | .startTask =>
    match s.pc, s.tmpFuncQueue with
    | .drainingInLoop, item :: rest
    | .drainingNext, item :: rest =>
      some { s with tmpFuncQueue := rest, begun := s.begun ++ [item] }
    | .cleaning (item :: rest) runInLoopTasks remainLoopCount atEnd, _ =>
      some { s with
        pc := .cleaning rest runInLoopTasks remainLoopCount atEnd, begun := s.begun ++ [item] }
    | .cleaning [] (item :: rest) remainLoopCount atEnd, _ =>
      some { s with pc := .cleaning [] rest remainLoopCount atEnd, begun := s.begun ++ [item] }
    | _, _ => none
  | .endDrain =>
    match s.pc, s.tmpFuncQueue with
    | .drainingInLoop, [] => some { s with pc := .dispatching false }
    | .drainingNext, [] => some { s with pc := if s.keepRunning then .polling else .ending }
    | _, _ => none
  | .endRun => if s.pc = .ending then some { s with pc := .cleaning [] [] 100 true } else none
  | .cleanupRound =>
    match s.pc with
    | .cleaning [] [] (remainLoopCount + 1) atEnd =>
      if s.runInLoopFuncQueue ≠ [] ∨ s.runNextFuncQueue ≠ [] then
        some (s.cleanupRound remainLoopCount atEnd)
      else none
    | _ => none
  | .cleanupEnd =>
    match s.pc with
    | .cleaning [] [] remainLoopCount atEnd =>
      if (s.runInLoopFuncQueue = [] ∧ s.runNextFuncQueue = []) ∨ remainLoopCount = 0 then
        some (s.cleanupEnd atEnd)
      else none
    | _ => none
  | _ => none

def step (s : CommonLoop) (a : Action) : Option CommonLoop := (s.callStep a).or (s.loopStep a)

end CommonLoop

end Tbox.Event
