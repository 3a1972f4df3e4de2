import Tbox.Proof.CabinetWellFormed
import Tbox.Lib.Run

/-!
# The thread pool

`eventx/thread_pool.cpp`. An action is one section under the pool lock, one step of a worker outside it, or one
unlocked write of `cleanup` and `initialize`. Evaluating the predicate of `cond_var.wait` and falling asleep are two
actions (`Pc.parking`), since the stop flag is written without the lock. `phase` and `started` are read by no
function.
-/

namespace Tbox.Eventx

open Cabinet (Token)

/-- `THREAD_POOL_PRIO_MIN`, `THREAD_POOL_PRIO_MAX`, `THREAD_POOL_PRIO_SIZE`. -/
def prioMin : Int := -2

def prioMax : Int := 2

def prioSize : Nat := 5

abbrev TaskId := Nat

abbrev ThreadId := Nat

inductive Phase where
  | queued | popped | executing | finished | done | cancelled | dropped
  deriving DecidableEq, Repr

/-- `ThreadPool::Task`, with its history. -/
structure Task where
  token : Token
  mainCb : Bool
  phase : Phase := .queued
  started : Nat := 0
  deriving DecidableEq, Repr

/-- Where a worker is in `threadProc`. -/
inductive Pc where
  /-- about to take the lock at the head of the loop -/
  | head
  /-- in `wait`, the predicate was false, the lock is still held -/
  | parking
  /-- asleep in `wait` -/
  | waiting
  /-- woken up in `wait`, about to take the lock again -/
  | notified
  /-- out of the first section with what `popOneTask` returned -/
  | popped (item : Option TaskId)
  /-- the task is in `doing_tasks_token` and its body runs -/
  | executing (item : TaskId)
  /-- the body is over, the task is still in `doing_tasks_token` -/
  | finished (item : TaskId)
  /-- out of the loop as a surplus worker, `let_main_loop_join_me` is set -/
  | leaving
  | exited
  deriving DecidableEq, Repr

structure Worker where
  token : Token
  pc : Pc := .head
  deriving DecidableEq, Repr

inductive Posted where
  | mainCb (item : TaskId)
  | joinAndDelete (thread : Option ThreadId)
  deriving DecidableEq, Repr

/-- Where a call of `cleanup` is, with its `thread_vec`. -/
inductive Cleanup where
  | idle
  | drained (threadVec : List (Option ThreadId))
  | flagged (threadVec : List (Option ThreadId))
  | joining (threadVec : List (Option ThreadId))
  deriving DecidableEq, Repr

structure ThreadPool where
  isReady : Bool := false
  minThreadNum : Nat := 0
  maxThreadNum : Nat := 0
  undoTasksCabinet : Cabinet TaskId := .empty
  undoTasksToken : List (List Token) := List.replicate prioSize []
  doingTasksToken : Finset Token := ∅
  idleThreadNum : Nat := 0
  threadsCabinet : Cabinet ThreadId := .empty
  allThreadsStopFlag : Bool := false
  undoTaskPeakNum : Nat := 0
  -- the objects, the threads and the calls in progress
  tasks : List Task := []
  workers : List Worker := []
  notifies : Nat := 0
  starting : Bool := false
  cleaner : Cleanup := .idle
  mainLoop : List Posted := []
  joined : List (Option ThreadId) := []

namespace ThreadPool

/-- No worker is inside `wait` with the lock held. -/
def lockFree (s : ThreadPool) : Bool := s.workers.all fun w => w.pc ≠ .parking

def setPc (s : ThreadPool) (thread : ThreadId) (pc : Pc) : ThreadPool :=
  { s with workers := s.workers.modify thread fun w => { w with pc := pc } }

def setPhase (s : ThreadPool) (item : TaskId) (phase : Phase) : ThreadPool :=
  { s with tasks := s.tasks.modify item fun task => { task with phase := phase } }

def createWorker (s : ThreadPool) : ThreadPool :=
  let (threadToken, threads) := s.threadsCabinet.alloc none
  { s with
    threadsCabinet := (threads.update threadToken (some s.workers.length)).2
    workers := s.workers ++ [⟨threadToken, .head⟩] }

def popToken : List (List Token) → Option (Token × List (List Token))
  | [] => none
  | [] :: rest => (popToken rest).map fun found => (found.1, [] :: found.2)
  | (token :: tokens) :: rest => some (token, tokens :: rest)

def eraseToken (token : Token) : List (List Token) → Option (List (List Token))
  | [] => none
  | tokens :: rest =>
    if token ∈ tokens then some (tokens.erase token :: rest)
    else (eraseToken token rest).map (tokens :: ·)

def popOneTask (s : ThreadPool) : Option TaskId × ThreadPool :=
  match popToken s.undoTasksToken with
  | none => (none, s)
  | some (token, tokens) =>
    let (item, tasks) := s.undoTasksCabinet.free token
    (item, { s with undoTasksToken := tokens, undoTasksCabinet := tasks })

def shouldThreadExitWaiting (s : ThreadPool) : Bool :=
  s.allThreadsStopFlag || s.undoTasksToken.any fun tokens => !tokens.isEmpty

def createWorkers (s : ThreadPool) : Nat → ThreadPool
  | 0 => s
  | n + 1 => (s.createWorker).createWorkers n

/-- `initialize` up to the end of its locked section. -/
def initializePool (s : ThreadPool) (minThreadNum maxThreadNum : Int) : ThreadPool :=
  if s.isReady then s
  else if maxThreadNum < 0 ∨ minThreadNum < 0 ∨ minThreadNum > maxThreadNum ∨ maxThreadNum = 0 then s
  else
    { s with
      minThreadNum := minThreadNum.toNat
      maxThreadNum := maxThreadNum.toNat
      starting := true }.createWorkers minThreadNum.toNat

/-- The last two statements of `initialize`. -/
def initializeEnd (s : ThreadPool) : ThreadPool :=
  { s with allThreadsStopFlag := false, isReady := true, starting := false }

def levelOf (prio : Int) : Nat :=
  let prio := if prio < prioMin then prioMin else if prio > prioMax then prioMax else prio
  (prio + prioMax).toNat

def enqueue (s : ThreadPool) (mainCb : Bool) (prio : Int) : ThreadPool :=
  let (token, cabinet) := s.undoTasksCabinet.alloc (some s.tasks.length)
  { s with
    undoTasksCabinet := cabinet
    undoTasksToken := s.undoTasksToken.modify (levelOf prio) (· ++ [token])
    tasks := s.tasks ++ [{ token := token, mainCb := mainCb }] }

def provideWorker (s : ThreadPool) : ThreadPool :=
  if s.undoTasksCabinet.size > s.idleThreadNum then
    if s.threadsCabinet.size < s.maxThreadNum then s.createWorker
    else if s.undoTaskPeakNum < s.undoTasksCabinet.size then
      { s with undoTaskPeakNum := s.undoTasksCabinet.size }
    else s
  else s

/-- `execute` up to the end of its locked section; `notify_one` is still to come. -/
def execute (s : ThreadPool) (mainCb : Bool) (prio : Int) : ThreadPool :=
  if s.isReady = false then s
  else { (s.enqueue mainCb prio).provideWorker with notifies := s.notifies + 1 }

inductive TaskStatus where
  | waiting | executing | notFound
  deriving DecidableEq, Repr

def getTaskStatus (s : ThreadPool) (token : Token) : TaskStatus :=
  if (s.undoTasksCabinet.at? token).isSome then .waiting
  else if token ∈ s.doingTasksToken then .executing
  else .notFound

/-- `0`: cancelled, `1`: not found, `2`: the task is executing. -/
def cancel (s : ThreadPool) (token : Token) : Nat × ThreadPool :=
  if token ∈ s.doingTasksToken then (2, s)
  else match eraseToken token s.undoTasksToken with
    | none => (1, s)
    | some tokens =>
      let (item, cabinet) := s.undoTasksCabinet.free token
      let s := { s with undoTasksToken := tokens, undoTasksCabinet := cabinet }
      (0, match item with
        | some item => s.setPhase item .cancelled
        | none => s)

/-- The loop of `cleanup` over the waiting tokens. -/
def dropTasks (s : ThreadPool) : List Token → ThreadPool
  | [] => s
  | token :: tokens =>
    let (item, cabinet) := s.undoTasksCabinet.free token
    let s := { s with undoTasksCabinet := cabinet }
    (match item with
      | some item => s.setPhase item .dropped
      | none => s).dropTasks tokens

/-- The locked section of `cleanup`. -/
def cleanupDrain (s : ThreadPool) : ThreadPool :=
  let s := s.dropTasks s.undoTasksToken.flatten
  { s with
    undoTasksToken := s.undoTasksToken.map fun _ => []
    threadsCabinet := s.threadsCabinet.clear
    cleaner := .drained s.threadsCabinet.objects }

/-- Out of `wait` with the lock held: the rest of the first locked section. -/
def leaveWait (s : ThreadPool) (thread : ThreadId) : ThreadPool :=
  let s := { s with idleThreadNum := s.idleThreadNum - 1 }
  if s.allThreadsStopFlag then s.setPc thread .exited
  else
    let (item, s) := s.popOneTask
    let s := s.setPc thread (.popped item)
    match item with
    | some item => s.setPhase item .popped
    | none => s

/-- `wait` evaluates its predicate. -/
def checkWait (s : ThreadPool) (thread : ThreadId) : ThreadPool :=
  if s.shouldThreadExitWaiting then s.leaveWait thread else s.setPc thread .parking

def enterLoop (s : ThreadPool) (thread : ThreadId) : ThreadPool :=
  if s.idleThreadNum ≥ s.undoTasksCabinet.size ∧ s.threadsCabinet.size > s.minThreadNum then
    s.setPc thread .leaving
  else { s with idleThreadNum := s.idleThreadNum + 1 }.checkWait thread

def startTask (s : ThreadPool) (thread : ThreadId) (item : TaskId) : ThreadPool :=
  let s := s.setPc thread (.executing item)
  match s.tasks[item]? with
  | none => s
  | some task =>
    { s with
      doingTasksToken := insert task.token s.doingTasksToken
      tasks := s.tasks.modify item fun task =>
        { task with phase := .executing, started := task.started + 1 } }

def finishBody (s : ThreadPool) (thread : ThreadId) (item : TaskId) : ThreadPool :=
  let s := (s.setPc thread (.finished item)).setPhase item .finished
  match s.tasks[item]? with
  | some task => if task.mainCb then { s with mainLoop := s.mainLoop ++ [.mainCb item] } else s
  | none => s

def endTask (s : ThreadPool) (thread : ThreadId) (item : TaskId) : ThreadPool :=
  let s := (s.setPc thread .head).setPhase item .done
  match s.tasks[item]? with
  | some task => { s with doingTasksToken := s.doingTasksToken.erase task.token }
  | none => s

def removeSelf (s : ThreadPool) (thread : ThreadId) (token : Token) : ThreadPool :=
  let (t, threads) := s.threadsCabinet.free token
  { s.setPc thread .exited with
    threadsCabinet := threads
    mainLoop := s.mainLoop ++ [.joinAndDelete t] }

inductive Action where
  | initializePool (minThreadNum maxThreadNum : Int)
  | initializeEnd
  | execute (mainCb : Bool) (prio : Int)
  /-- the `notify_one` of an `execute`, with the thread it wakes -/
  | notifyOne (wakes : Option ThreadId)
  | getTaskStatus (token : Token)
  | cancel (token : Token)
  | cleanupDrain
  | cleanupStopFlag
  | cleanupNotifyAll
  | cleanupJoin
  | cleanupEnd
  | enterLoop (thread : ThreadId)
  /-- the thread falls asleep and releases the lock -/
  | park (thread : ThreadId)
  /-- a spurious wakeup -/
  | wakeUp (thread : ThreadId)
  | checkWait (thread : ThreadId)
  | startTask (thread : ThreadId)
  | finishBody (thread : ThreadId)
  | endTask (thread : ThreadId)
  | removeSelf (thread : ThreadId)
  /-- the main loop runs the oldest posted function -/
  | runPosted
  deriving DecidableEq, Repr

def pcOf (s : ThreadPool) (thread : ThreadId) : Option Pc := s.workers[thread]?.map Worker.pc

def exited (s : ThreadPool) (thread : Option ThreadId) : Bool :=
  match thread with
  | some thread => s.pcOf thread = some .exited
  | none => false

def callerStep (s : ThreadPool) : Action → Option ThreadPool
  | .initializePool minThreadNum maxThreadNum =>
    if s.lockFree ∧ s.starting = false then
      some (s.initializePool minThreadNum maxThreadNum)
    else none
  | .initializeEnd => if s.starting then some s.initializeEnd else none
  | .execute mainCb prio => if s.lockFree then some (s.execute mainCb prio) else none
  | .notifyOne wakes =>
    if s.notifies = 0 then none
    else match wakes with
      | some thread =>
        if s.pcOf thread = some .waiting then
          some { s.setPc thread .notified with notifies := s.notifies - 1 }
        else none
      | none =>
        if s.workers.all fun w => w.pc ≠ .waiting then some { s with notifies := s.notifies - 1 }
        else none
  | .getTaskStatus _ => if s.lockFree then some s else none
  | .cancel token => if s.lockFree then some (s.cancel token).2 else none
  | .cleanupDrain =>
    if s.lockFree ∧ s.isReady = true ∧ s.cleaner = .idle then some s.cleanupDrain else none
  | .cleanupStopFlag =>
    match s.cleaner with
    | .drained threadVec => some { s with allThreadsStopFlag := true, cleaner := .flagged threadVec }
    | _ => none
  | .cleanupNotifyAll =>
    match s.cleaner with
    | .flagged threadVec =>
      some { s with
        workers := s.workers.map fun w => if w.pc = .waiting then { w with pc := .notified } else w
        cleaner := .joining threadVec }
    | _ => none
  | .cleanupJoin =>
    match s.cleaner with
    | .joining (thread :: threadVec) =>
      if s.exited thread then
        some { s with joined := s.joined ++ [thread], cleaner := .joining threadVec }
      else none
    | _ => none
  | .cleanupEnd =>
    if s.cleaner = .joining [] then some { s with isReady := false, cleaner := .idle } else none
  | .runPosted =>
    match s.mainLoop with
    | [] => none
    | .mainCb _ :: rest => some { s with mainLoop := rest }
    | .joinAndDelete thread :: rest =>
      if s.exited thread then some { s with mainLoop := rest, joined := s.joined ++ [thread] }
      else none
  | _ => none

def workerStep (s : ThreadPool) : Action → Option ThreadPool
  | .enterLoop thread =>
    if s.lockFree ∧ s.pcOf thread = some .head then some (s.enterLoop thread) else none
  | .park thread => if s.pcOf thread = some .parking then some (s.setPc thread .waiting) else none
  | .wakeUp thread => if s.pcOf thread = some .waiting then some (s.setPc thread .notified) else none
  | .checkWait thread =>
    if s.lockFree ∧ s.pcOf thread = some .notified then some (s.checkWait thread) else none
  | .startTask thread =>
    match s.pcOf thread with
    | some (.popped none) => some (s.setPc thread .head)
    | some (.popped (some item)) => if s.lockFree then some (s.startTask thread item) else none
    | _ => none
  | .finishBody thread =>
    match s.pcOf thread with
    | some (.executing item) => some (s.finishBody thread item)
    | _ => none
  | .endTask thread =>
    match s.pcOf thread with
    | some (.finished item) => if s.lockFree then some (s.endTask thread item) else none
    | _ => none
  | .removeSelf thread =>
    match s.workers[thread]? with
    | some ⟨token, .leaving⟩ => if s.lockFree then some (s.removeSelf thread token) else none
    | _ => none
  | _ => none

def step (s : ThreadPool) (a : Action) : Option ThreadPool :=
  (s.callerStep a).or (s.workerStep a)

end ThreadPool

end Tbox.Eventx
