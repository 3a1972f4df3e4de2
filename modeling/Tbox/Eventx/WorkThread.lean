import Tbox.Eventx.TaskLedger

/-!
# The work thread

`eventx/work_thread.cpp`: one thread and one queue. An action is a section under the lock, a step of the thread
outside it, or the unlocked write of `cleanup`. The section at the head of the loop is enabled when its predicate
holds.
-/

namespace Tbox.Eventx

open Cabinet (Token)

namespace WorkThread

/-- Where the thread is in `threadProc`. -/
inductive Pc where
  | head
  /-- out of the first section with what `popOneTask` returned -/
  | popped (item : Option TaskId)
  | executing (item : TaskId)
  /-- the body is over, the task is still in `doing_tasks_token` -/
  | finished (item : TaskId)
  | exited
  deriving DecidableEq, Repr

/-- Where a call of `cleanup` is. -/
inductive Cleanup where
  | idle
  | drained
  | joining
  deriving DecidableEq, Repr

end WorkThread

/-- `WorkThread::Data`, with the thread, and the tasks in the order of their submission and of their start. -/
structure WorkThread where
  /-- `d_` is not null -/
  isAlive : Bool := true
  undoTasksCabinet : Cabinet TaskId := .empty
  undoTasksTokenDeque : List Token := []
  doingTasksToken : Finset Token := ∅
  stopFlag : Bool := false
  -- the objects, the thread and the call in progress
  tasks : List Task := []
  started : List TaskId := []
  pc : WorkThread.Pc := .head
  cleaner : WorkThread.Cleanup := .idle
  mainLoop : List TaskId := []

namespace WorkThread

def setPhase (s : WorkThread) (item : TaskId) (phase : Phase) : WorkThread :=
  { s with tasks := s.tasks.modify item fun task => task.enter phase }

/-- Where `d_` is null the token is a null token. -/
def execute (s : WorkThread) (mainCb : Bool) : Token × WorkThread :=
  if s.isAlive then
    let (token, cabinet) := s.undoTasksCabinet.alloc (some s.tasks.length)
    (token,
      { s with
        undoTasksCabinet := cabinet
        undoTasksTokenDeque := s.undoTasksTokenDeque ++ [token]
        tasks := s.tasks ++ [{ token := token, mainCb := mainCb }] })
  else ({}, s)

def getTaskStatus (s : WorkThread) (token : Token) : ThreadPool.TaskStatus :=
  if !s.isAlive then .notFound
  else if (s.undoTasksCabinet.at? token).isSome then .waiting
  else if token ∈ s.doingTasksToken then .executing
  else .notFound

def freeTask (s : WorkThread) (token : Token) (phase : Phase) : WorkThread :=
  let (item, cabinet) := s.undoTasksCabinet.free token
  let s := { s with undoTasksCabinet := cabinet }
  match item with
  | some item => s.setPhase item phase
  | none => s

/-- `0`: cancelled, `1`: not found, `2`: the task is executing, `3`: `d_` is null. -/
def cancel (s : WorkThread) (token : Token) : Nat × WorkThread :=
  if !s.isAlive then (3, s)
  else if token ∈ s.doingTasksToken then (2, s)
  else if token ∈ s.undoTasksTokenDeque then
    (0, { s with undoTasksTokenDeque := s.undoTasksTokenDeque.erase token }.freeTask token .cancelled)
  else (1, s)

/-- The loop of `cleanup` over the waiting tokens. -/
def dropTasks (s : WorkThread) : List Token → WorkThread
  | [] => s
  | token :: tokens =>
    ({ s with undoTasksTokenDeque := tokens }.freeTask token .dropped).dropTasks tokens

def popOneTask (s : WorkThread) : Option TaskId × WorkThread :=
  match s.undoTasksTokenDeque with
  | [] => (none, s)
  | token :: tokens =>
    let (item, cabinet) := s.undoTasksCabinet.free token
    (item, { s with undoTasksTokenDeque := tokens, undoTasksCabinet := cabinet })

def shouldThreadExitWaiting (s : WorkThread) : Bool :=
  s.stopFlag || !s.undoTasksTokenDeque.isEmpty

def enterLoop (s : WorkThread) : WorkThread :=
  if s.stopFlag then { s with pc := .exited }
  else
    let (item, s) := s.popOneTask
    match item with
    | some item => { s.setPhase item .popped with pc := .popped (some item) }
    | none => { s with pc := .popped none }

def startTask (s : WorkThread) (item : TaskId) : WorkThread :=
  match s.tasks[item]? with
  | none => { s with pc := .executing item }
  | some task =>
    { s.setPhase item .executing with
      doingTasksToken := insert task.token s.doingTasksToken
      started := s.started ++ [item]
      pc := .executing item }

/-- The body is over and `main_cb`, if there is one, is given to the loop. -/
def finishBody (s : WorkThread) (item : TaskId) : WorkThread :=
  { s.setPhase item .finished with
    pc := .finished item
    mainLoop := s.mainLoop ++ (s.tasks[item]?.toList.filter Task.mainCb).map fun _ => item }

def endTask (s : WorkThread) (item : TaskId) : WorkThread :=
  match s.tasks[item]? with
  | none => { s with pc := .head }
  | some task =>
    { s.setPhase item .done with
      doingTasksToken := s.doingTasksToken.erase task.token
      pc := .head }

inductive Action where
  | execute (mainCb : Bool)
  | getTaskStatus (token : Token)
  | cancel (token : Token)
  /-- the locked section of `cleanup` -/
  | cleanupDrain
  | cleanupStopFlag
  /-- the thread is joined and `d_` deleted -/
  | cleanupJoin
  | enterLoop
  | startTask
  | finishBody
  | endTask
  deriving DecidableEq, Repr

def step (s : WorkThread) : Action → Option WorkThread
  | .execute mainCb => some (s.execute mainCb).2
  | .getTaskStatus _ => some s
  | .cancel token => some (s.cancel token).2
  | .cleanupDrain =>
    if s.isAlive ∧ s.cleaner = .idle then
      some { s.dropTasks s.undoTasksTokenDeque with cleaner := .drained }
    else none
  | .cleanupStopFlag =>
    if s.cleaner = .drained then some { s with stopFlag := true, cleaner := .joining } else none
  | .cleanupJoin =>
    if s.cleaner = .joining ∧ s.pc = .exited then
      some { s with isAlive := false, cleaner := .idle }
    else none
  | .enterLoop =>
    if s.pc = .head ∧ s.shouldThreadExitWaiting then some s.enterLoop else none
  | .startTask =>
    match s.pc with
    | .popped none => some { s with pc := .head }
    | .popped (some item) => some (s.startTask item)
    | _ => none
  | .finishBody =>
    match s.pc with
    | .executing item => some (s.finishBody item)
    | _ => none
  | .endTask =>
    match s.pc with
    | .finished item => some (s.endTask item)
    | _ => none

end WorkThread

end Tbox.Eventx
