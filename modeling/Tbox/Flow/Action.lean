import Mathlib.Tactic

/-!
# Trees of actions

`flow/action.cpp` and the assembled actions of `flow/actions`. Actions are numbered, a child below its parent. What a
child reports is posted to the loop and delivered later, in order. The hooks of a leaf are the user's.
-/

namespace Tbox.Flow.Action

abbrev ActionId := Nat

abbrev RunId := Nat

inductive State where
  | idle
  | running
  | pause
  | finished
  | stoped
  deriving DecidableEq, Repr

/-- Started, and neither finished nor stopped since. -/
def State.isUnderway : State → Bool
  | .running | .pause => true
  | _ => false

inductive Result where
  | unsure
  | success
  | fail
  deriving DecidableEq, Repr

structure Reason where
  code : Int := 0
  message : String := ""
  deriving DecidableEq, Repr

def actionTimeout : Reason := ⟨1, "ActionTimeout"⟩

def startChildFail : Reason := ⟨6, "StartChildFail"⟩

def repeatNoTimes : Reason := ⟨7, "RepeatNoTimes"⟩

def switchFail : Reason := ⟨8, "SwitchFail"⟩

def switchSkip : Reason := ⟨9, "SwitchSkip"⟩

def ifThenSkip : Reason := ⟨10, "IfThenSkip"⟩

/-- `SequenceAction::Mode` and `ParallelAction::Mode` -/
inductive Mode where
  | allFinish
  | anyFail
  | anySucc
  deriving DecidableEq, Repr

/-- `LoopAction::Mode` -/
inductive LoopMode where
  | forever
  | untilFail
  | untilSucc
  deriving DecidableEq, Repr

/-- `RepeatAction::Mode` -/
inductive RepeatMode where
  | noBreak
  | breakFail
  | breakSucc
  deriving DecidableEq, Repr

/-- `WrapperAction::Mode` -/
inductive WrapperMode where
  | normal
  | invert
  | alwaySucc
  | alwayFail
  deriving DecidableEq, Repr

inductive Kind where
  | leaf
  | sequence (mode : Mode) (children : List ActionId)
  | parallel (mode : Mode) (children : List ActionId)
  | ifThen (ifThenActions : List (ActionId × ActionId))
  | ifElse (ifAction : ActionId) (thenAction elseAction : Option ActionId)
  | switch (switchAction : ActionId) (defaultAction : Option ActionId)
      (caseActions : List (String × ActionId))
  | loop (child : ActionId) (mode : LoopMode)
  | loopIf (ifAction execAction : ActionId) (finishResult : Bool)
  | repeatTimes (child : ActionId) (times : Nat) (mode : RepeatMode)
  | wrapper (child : ActionId) (mode : WrapperMode)
  | composite (child : ActionId)
  deriving DecidableEq, Repr

/-- The children, in the order in which `onReset` visits them. -/
def Kind.children : Kind → List ActionId
  | .leaf => []
  | .sequence _ children | .parallel _ children => children
  | .ifThen ifThenActions => ifThenActions.flatMap fun item => [item.1, item.2]
  | .ifElse ifAction thenAction elseAction => ifAction :: (thenAction.toList ++ elseAction.toList)
  | .switch switchAction defaultAction caseActions =>
    switchAction :: (defaultAction.toList ++ caseActions.map Prod.snd)
  | .loopIf ifAction execAction _ => [ifAction, execAction]
  | .loop child _ | .repeatTimes child _ _ | .wrapper child _ | .composite child => [child]

/-- `Action`, `SerialAssembleAction` and `ParallelAction`, whose hooks the classes inherit. -/
inductive Assembly where
  | none
  | serial
  | parallel
  deriving DecidableEq, Repr

def Kind.assembly : Kind → Assembly
  | .leaf => .none
  | .parallel _ _ => .parallel
  | _ => .serial

structure Forest where
  kind : ActionId → Kind
  parent : ActionId → Option ActionId
  /-- whether the callbacks of an action that is nobody's child are set -/
  observed : ActionId → Bool
  mem_children_iff : ∀ p c, c ∈ (kind p).children ↔ parent c = some p
  nodup : ∀ p, (kind p).children.Nodup
  child_lt : ∀ p c, parent c = some p → c < p

/-- `child_finish_func_`: the handler called again, or `finish`. -/
inductive ChildFinishFunc where
  | handle (child : ActionId) (isSucc : Bool) (why : Reason)
  | finish (isSucc : Bool) (why : Reason)
  deriving DecidableEq, Repr

structure Fields where
  state : State := .idle
  result : Result := .unsure
  /-- `timer_ev_`, and whether it is enabled -/
  timer : Option Bool := none
  finishCbRunId : RunId := 0
  blockCbRunId : RunId := 0
  currAction : Option ActionId := none
  childFinishFunc : Option ChildFinishFunc := none
  index : Nat := 0
  remainTimes : Nat := 0
  finishedChildren : List (Nat × Bool) := []
  deriving DecidableEq, Repr

inductive Call where
  | finished (child : ActionId) (isSucc : Bool) (why : Reason)
  | blocked (child : ActionId) (why : Reason)
  | childFinishFunc (action : ActionId) (func : ChildFinishFunc)
  deriving DecidableEq, Repr

structure Posted where
  runId : RunId
  call : Call
  deriving DecidableEq, Repr

inductive Event where
  /-- the `onStart` of a leaf is called -/
  | started (leaf : ActionId)
  | finished (n : ActionId) (isSucc : Bool) (why : Reason)
  deriving DecidableEq, Repr

structure World where
  fields : ActionId → Fields := fun _ => {}
  queue : List Posted := []
  runNextIdAlloc : RunId := 1
  /-- what the actions have done so far -/
  log : List Event := []

namespace World

def state (w : World) (n : ActionId) : State := (w.fields n).state

def modify (w : World) (n : ActionId) (f : Fields → Fields) : World :=
  { w with fields := Function.update w.fields n (f (w.fields n)) }

def runNext (w : World) (call : Call) : World :=
  { w with
    queue := w.queue ++ [⟨w.runNextIdAlloc + 2, call⟩]
    runNextIdAlloc := w.runNextIdAlloc + 2 }

def record (w : World) (event : Event) : World := { w with log := w.log ++ [event] }

def cancel (w : World) (runId : RunId) : World :=
  if runId ≠ 0 then { w with queue := w.queue.filter fun posted => posted.runId ≠ runId } else w

def cancelDispatchedCallback (w : World) (n : ActionId) : World :=
  ((w.cancel (w.fields n).finishCbRunId).cancel (w.fields n).blockCbRunId).modify n fun a =>
    { a with finishCbRunId := 0, blockCbRunId := 0 }

def forEach (f : ActionId → World → World) : List ActionId → World → World
  | [], w => w
  | c :: cs, w => forEach f cs (f c w)

end World

def Fields.disableTimer (a : Fields) : Fields := { a with timer := a.timer.map fun _ => false }

def Fields.enableTimer (a : Fields) : Fields := { a with timer := a.timer.map fun _ => true }

/-- `finished_children_[index] = is_succ` -/
def Fields.setFinished (a : Fields) (index : Nat) (isSucc : Bool) : Fields :=
  { a with
    finishedChildren := (index, isSucc) :: a.finishedChildren.filter fun item => item.1 ≠ index }

inductive Next where
  | finish (isSucc : Bool) (why : Reason)
  /-- resets, then `startThisAction`; last what `finish` is called with if the child did not start -/
  | start (resets : List ActionId) (child : ActionId) (ifFails : Option (Bool × Reason))
  /-- `at` throws -/
  | outOfRange
  deriving DecidableEq, Repr

namespace Sequence

def startOtheriseFinish (children : List ActionId) (a : Fields) (isSucc : Bool) (why : Reason) :
    Next :=
  match children[a.index]? with
  | some child => .start [] child (some (false, startChildFail))
  | none => .finish isSucc why

def onStart (children : List ActionId) (a : Fields) : Fields × Next :=
  (a, startOtheriseFinish children a true {})

def onChildFinished (mode : Mode) (children : List ActionId) (a : Fields) (isSucc : Bool)
    (why : Reason) : Fields × Next :=
  if (mode = .anySucc ∧ isSucc) ∨ (mode = .anyFail ∧ !isSucc) then (a, .finish isSucc why)
  else
    let a := { a with index := a.index + 1 }
    (a, startOtheriseFinish children a isSucc why)

end Sequence

namespace IfThen

def doStart (ifThenActions : List (ActionId × ActionId)) (a : Fields) : Next :=
  match ifThenActions[a.index]? with
  | some item => .start [] item.1 none
  | none => .finish false ifThenSkip

def onStart (ifThenActions : List (ActionId × ActionId)) (a : Fields) : Fields × Next :=
  let a := { a with index := 0 }
  (a, doStart ifThenActions a)

def onIfActionFinished (ifThenActions : List (ActionId × ActionId)) (a : Fields) (isSucc : Bool) :
    Fields × Next :=
  if isSucc then
    match ifThenActions[a.index]? with
    | some item => (a, .start [] item.2 none)
    | none => (a, .outOfRange)
  else
    let a := { a with index := a.index + 1 }
    (a, doStart ifThenActions a)

end IfThen

def IfElse.onCondActionFinished (thenAction elseAction : Option ActionId) (isSucc : Bool)
    (why : Reason) : Next :=
  match if isSucc then thenAction else elseAction with
  | some child => .start [] child none
  | none => .finish true why

def Switch.onSwitchActionFinished (defaultAction : Option ActionId)
    (caseActions : List (String × ActionId)) (isSucc : Bool) (why : Reason) : Next :=
  if isSucc then
    match (caseActions.lookup why.message).or defaultAction with
    | some child => .start [] child none
    | none => .finish false switchSkip
  else .finish false switchFail

def Loop.onChildFinished (child : ActionId) (mode : LoopMode) (isSucc : Bool) (why : Reason) :
    Next :=
  if (mode = .untilSucc ∧ isSucc) ∨ (mode = .untilFail ∧ !isSucc) then .finish isSucc why
  else .start [child] child none

def LoopIf.onIfFinished (execAction : ActionId) (finishResult isSucc : Bool) (why : Reason) : Next :=
  if isSucc then .start [] execAction none else .finish finishResult why

def LoopIf.onExecFinished (ifAction execAction : ActionId) (finishResult : Bool) (why : Reason) :
    Next :=
  .start [ifAction, execAction] ifAction (some (finishResult, why))

namespace Repeat

/-- The subtraction is one of `size_t`. -/
def onStart (child : ActionId) (times : Nat) (a : Fields) : Fields × Next :=
  ({ a with remainTimes := (times + 2 ^ 64 - 1) % 2 ^ 64 }, .start [] child none)

def onChildFinished (child : ActionId) (mode : RepeatMode) (a : Fields) (isSucc : Bool)
    (why : Reason) : Fields × Next :=
  if (mode = .breakSucc ∧ isSucc) ∨ (mode = .breakFail ∧ !isSucc) then (a, .finish isSucc why)
  else if 0 < a.remainTimes then
    -- counted down after the start in the source; the child does not look at it
    ({ a with remainTimes := a.remainTimes - 1 }, .start [child] child none)
  else (a, .finish true repeatNoTimes)

end Repeat

def Wrapper.onChildFinished (mode : WrapperMode) (isSucc : Bool) (why : Reason) : Next :=
  match mode with
  | .normal => .finish isSucc why
  | .invert => .finish (!isSucc) why
  | .alwaySucc => .finish true why
  | .alwayFail => .finish false why

/-- `onStart` of the serial actions. -/
def Kind.onStart (a : Fields) : Kind → Fields × Next
  | .sequence _ children => Sequence.onStart children a
  | .ifThen ifThenActions => IfThen.onStart ifThenActions a
  | .repeatTimes child times _ => Repeat.onStart child times a
  | .ifElse child _ _ | .switch child _ _ | .loop child _ | .loopIf child _ _ | .wrapper child _
  | .composite child => (a, .start [] child none)
  | .leaf | .parallel _ _ => (a, .outOfRange)

/-- Whether the finish callback of the child is `onLastChildFinished`. -/
def Kind.isLast (c : ActionId) : Kind → Bool
  | .ifThen ifThenActions => ifThenActions.all fun item => item.1 ≠ c
  | .ifElse ifAction _ _ => ifAction ≠ c
  | .switch switchAction _ _ => switchAction ≠ c
  | .composite _ => true
  | _ => false

def Kind.onChildFinished (a : Fields) (c : ActionId) (isSucc : Bool) (why : Reason) (kind : Kind) :
    Fields × Next :=
  if kind.isLast c then (a, .finish isSucc why)
  else
    match kind with
    | .sequence mode children => Sequence.onChildFinished mode children a isSucc why
    | .ifThen ifThenActions => IfThen.onIfActionFinished ifThenActions a isSucc
    | .ifElse _ thenAction elseAction =>
      (a, IfElse.onCondActionFinished thenAction elseAction isSucc why)
    | .switch _ defaultAction caseActions =>
      (a, Switch.onSwitchActionFinished defaultAction caseActions isSucc why)
    | .loop child mode => (a, Loop.onChildFinished child mode isSucc why)
    | .loopIf ifAction execAction finishResult =>
      if c = ifAction then (a, LoopIf.onIfFinished execAction finishResult isSucc why)
      else (a, LoopIf.onExecFinished ifAction execAction finishResult why)
    | .repeatTimes child _ mode => Repeat.onChildFinished child mode a isSucc why
    | .wrapper _ mode => (a, Wrapper.onChildFinished mode isSucc why)
    | .composite _ | .leaf | .parallel _ _ => (a, .outOfRange)

def Kind.keptFunc (c : ActionId) (isSucc : Bool) (why : Reason) (kind : Kind) : ChildFinishFunc :=
  if kind.isLast c then .finish isSucc why else .handle c isSucc why

/-! ### The functions of an action

Each calls the same function of the children, so the first argument of those that recurse bounds the
depth below the action. -/

/-- What the `onStart` of a leaf does. -/
inductive LeafStart where
  | stays
  | finishes (isSucc : Bool) (why : Reason)
  | blocks (why : Reason)
  deriving DecidableEq, Repr

namespace Forest

open World (forEach)

variable (F : Forest)

def assembly (n : ActionId) : Assembly := (F.kind n).assembly

def children (n : ActionId) : List ActionId := (F.kind n).children

/-- `if (finish_cb_)`, `if (block_cb_)` -/
def hasCallback (n : ActionId) : Bool := (F.parent n).isSome || F.observed n

def stopCurrAction (stopChild : ActionId → World → World) (n : ActionId) (w : World) : World :=
  match (w.fields n).currAction with
  | some child => (stopChild child w).modify n fun a => { a with currAction := none }
  | none => w

def onStop (stopChild : ActionId → World → World) (n : ActionId) (w : World) : World :=
  match F.assembly n with
  | .none => w
  | .parallel => forEach stopChild (F.children n) w
  | .serial => (stopCurrAction stopChild n w).modify n fun a => { a with childFinishFunc := none }

def stop : Nat → ActionId → World → World
  | 0, _, w => w
  | depth + 1, n, w =>
    if (w.state n).isUnderway then
      F.onStop (stop depth) n (w.modify n fun a => { a with state := .stoped }.disableTimer)
    else w

def onPause (pauseChild : ActionId → World → World) (n : ActionId) (w : World) : World :=
  match F.assembly n with
  | .none => w
  | .parallel => forEach pauseChild (F.children n) w
  | .serial =>
    match (w.fields n).currAction with
    | some child => pauseChild child w
    | none => w

def pause : Nat → ActionId → World → World
  | 0, _, w => w
  | depth + 1, n, w =>
    if w.state n = .running then
      let w := F.onPause (pause depth) n w
      if w.state n = .running then w.modify n fun a => { a.disableTimer with state := .pause }
      else w
    else w

/-- `if (action->state() == State::kPause) action->resume()` -/
def resumePaused (resumeChild : ActionId → World → World) (n : ActionId) (w : World) : World :=
  if w.state n = .pause then resumeChild n w else w

def onResume (resumeChild : ActionId → World → World) (n : ActionId) (w : World) : World :=
  match F.assembly n with
  | .none => w
  | .parallel => forEach (resumePaused resumeChild) (F.children n) w
  | .serial =>
    match (w.fields n).currAction, (w.fields n).childFinishFunc with
    | some child, _ => resumeChild child w
    | none, some func =>
      (w.runNext (.childFinishFunc n func)).modify n fun a => { a with childFinishFunc := none }
    | none, none => w

def resume : Nat → ActionId → World → World
  | 0, _, w => w
  | depth + 1, n, w =>
    if w.state n = .pause then
      let w := F.onResume (resume depth) n w
      if w.state n = .pause then w.modify n fun a => { a.enableTimer with state := .running }
      else w
    else w

/-- `index_` is only one of `SequenceAction` and `IfThenAction`. -/
def onReset (resetChild : ActionId → World → World) (n : ActionId) (w : World) : World :=
  match F.assembly n with
  | .none => w
  | .parallel => (forEach resetChild (F.children n) w).modify n fun a =>
    { a with finishedChildren := [] }
  | .serial => (forEach resetChild (F.children n) w).modify n fun a =>
    { a with index := 0, currAction := none, childFinishFunc := none }

def reset : Nat → ActionId → World → World
  | 0, _, w => w
  | depth + 1, n, w =>
    if w.state n = .idle then w
    else
      let w := (F.onReset (reset depth) n w).modify n Fields.disableTimer
      (w.cancelDispatchedCallback n).modify n fun a => { a with state := .idle, result := .unsure }

/-- `Action::onFinished` -/
def dispatchFinish (n : ActionId) (isSucc : Bool) (why : Reason) (w : World) : World :=
  let w := w.modify n fun a => { a with result := if isSucc then .success else .fail }
  let w := w.record (.finished n isSucc why)
  if F.hasCallback n then
    let w := w.runNext (.finished n isSucc why)
    w.modify n fun a => { a with finishCbRunId := w.runNextIdAlloc }
  else w

def onFinished (n : ActionId) (isSucc : Bool) (why : Reason) (w : World) : World :=
  match F.kind n with
  | .composite _ => F.dispatchFinish n isSucc why (stopCurrAction (F.stop n) n w)
  | _ => F.dispatchFinish n isSucc why w

def finish (n : ActionId) (isSucc : Bool) (why : Reason) (w : World) : World :=
  if w.state n ≠ .finished ∧ w.state n ≠ .stoped then
    F.onFinished n isSucc why (w.modify n fun a => { a with state := .finished }.disableTimer)
  else w

def onBlock (n : ActionId) (why : Reason) (w : World) : World :=
  if F.hasCallback n then
    let w := w.runNext (.blocked n why)
    w.modify n fun a => { a with blockCbRunId := w.runNextIdAlloc }
  else w

def block (n : ActionId) (why : Reason) (w : World) : World :=
  if w.state n ≠ .finished ∧ w.state n ≠ .stoped then
    F.onBlock n why (w.modify n fun a => { a with state := .pause })
  else w

section Start

variable (startChild : ActionId → World → Bool × World)

def startThisAction (n child : ActionId) (w : World) : Bool × World :=
  let started := startChild child w
  if started.1 then
    (true, started.2.modify n fun a => { a with currAction := some child })
  else (false, started.2)

def proceed (n : ActionId) (next : Fields × Next) (w : World) : World :=
  let w := w.modify n fun _ => next.1
  match next.2 with
  | .finish isSucc why => F.finish n isSucc why w
  | .outOfRange => w
  | .start resets child ifFails =>
    let started := startThisAction startChild n child (forEach (F.reset n) resets w)
    match started.1, ifFails with
    | false, some (isSucc, why) => F.finish n isSucc why started.2
    | _, _ => started.2

def stopAllActions (n : ActionId) (w : World) : World := forEach (F.stop n) (F.children n) w

def pauseAllActions (n : ActionId) (w : World) : World := forEach (F.pause n) (F.children n) w

/-- The loop of `ParallelAction::onStart`; `true` if it has returned. -/
def startChildren (n : ActionId) (mode : Mode) : List (ActionId × Nat) → World → Bool × World
  | [], w => (false, w)
  | (child, index) :: rest, w =>
    let started := startChild child w
    if started.1 then startChildren n mode rest started.2
    else
      let w := started.2.modify n fun a => a.setFinished index false
      if mode = .anyFail then (true, F.stopAllActions n (F.finish n true {} w))
      else startChildren n mode rest w

def Parallel.onStart (n : ActionId) (mode : Mode) (children : List ActionId) (w : World) : World :=
  let left := F.startChildren startChild n mode children.zipIdx w
  if left.1 then left.2
  else if (left.2.fields n).finishedChildren.length = children.length then
    F.finish n true {} left.2
  else left.2

def onStart (leaves : ActionId → LeafStart) (n : ActionId) (w : World) : World :=
  match F.kind n with
  | .leaf =>
    let w := w.record (.started n)
    match leaves n with
    | .stays => w
    | .finishes isSucc why => F.finish n isSucc why w
    | .blocks why => F.block n why w
  | .parallel mode children => Parallel.onStart F startChild n mode children w
  | kind => F.proceed startChild n (kind.onStart (w.fields n)) w

end Start

def start (leaves : ActionId → LeafStart) : Nat → ActionId → World → Bool × World
  | 0, _, w => (false, w)
  | depth + 1, n, w =>
    match w.state n with
    | .running => (true, w)
    | .idle =>
      let w := F.onStart (start leaves depth) leaves n w
      if w.state n = .idle then
        (true, w.modify n fun a => { a.enableTimer with state := .running })
      else (true, w)
    | _ => (false, w)

/-- `handleChildFinishEvent` or `onLastChildFinished`, and what follows it. -/
def handleChildFinish (leaves : ActionId → LeafStart) (n child : ActionId) (isSucc : Bool)
    (why : Reason) (w : World) : World :=
  let w := w.modify n fun a => { a with currAction := none }
  match w.state n with
  | .running => F.proceed (F.start leaves n) n
      ((F.kind n).onChildFinished (w.fields n) child isSucc why) w
  | .pause => w.modify n fun a =>
    { a with childFinishFunc := some ((F.kind n).keptFunc child isSucc why) }
  | _ => w

def Parallel.onChildFinished (n : ActionId) (mode : Mode) (children : List ActionId) (index : Nat)
    (isSucc : Bool) (w : World) : World :=
  if w.state n = .running then
    let w := w.modify n fun a => a.setFinished index isSucc
    if (mode = .anySucc ∧ isSucc) ∨ (mode = .anyFail ∧ !isSucc) then
      F.finish n true {} (F.stopAllActions n w)
    else if (w.fields n).finishedChildren.length = children.length then F.finish n true {} w
    else w
  else w

def Parallel.onChildBlocked (n : ActionId) (why : Reason) (w : World) : World :=
  if w.state n = .running then F.block n why (F.pauseAllActions n w) else w

def onChildFinished (leaves : ActionId → LeafStart) (p child : ActionId) (isSucc : Bool)
    (why : Reason) (w : World) : World :=
  match F.kind p with
  | .parallel mode children =>
    Parallel.onChildFinished F p mode children (children.idxOf child) isSucc w
  | _ => F.handleChildFinish leaves p child isSucc why w

def onChildBlocked (p : ActionId) (why : Reason) (w : World) : World :=
  match F.kind p with
  | .parallel _ _ => Parallel.onChildBlocked F p why w
  | _ => F.block p why w

def invoke (leaves : ActionId → LeafStart) (call : Call) (w : World) : World :=
  match call with
  | .finished child isSucc why =>
    match F.parent child with
    | some p => F.onChildFinished leaves p child isSucc why w
    | none => w
  | .blocked child why =>
    match F.parent child with
    | some p => F.onChildBlocked p why w
    | none => w
  | .childFinishFunc n (.handle child isSucc why) => F.handleChildFinish leaves n child isSucc why w
  | .childFinishFunc n (.finish isSucc why) => F.finish n isSucc why w

end Forest

inductive Op where
  | start (n : ActionId)
  | pause (n : ActionId)
  | resume (n : ActionId)
  | stop (n : ActionId)
  | reset (n : ActionId)
  /-- the action itself calls `finish` -/
  | finish (n : ActionId) (isSucc : Bool) (why : Reason)
  /-- the action itself calls `block` -/
  | block (n : ActionId) (why : Reason)
  | setTimeout (n : ActionId)
  | resetTimeout (n : ActionId)
  /-- the timer set by `setTimeout` expires -/
  | timeout (n : ActionId)
  /-- the loop runs the first function that was posted -/
  | deliver
  deriving DecidableEq, Repr

structure Input where
  op : Op
  leaves : ActionId → LeafStart := fun _ => .stays

namespace Forest

variable (F : Forest)

def step (w : World) (input : Input) : Option World :=
  match input.op with
  | .start n => some (F.start input.leaves (n + 1) n w).2
  | .pause n => some (F.pause (n + 1) n w)
  | .resume n => some (F.resume (n + 1) n w)
  | .stop n => some (F.stop (n + 1) n w)
  | .reset n => some (F.reset (n + 1) n w)
  | .finish n isSucc why => some (F.finish n isSucc why w)
  | .block n why => some (F.block n why w)
  | .setTimeout n => some (w.modify n fun a => { a with timer := some (a.state = .running) })
  | .resetTimeout n => some (w.modify n fun a => { a with timer := none })
  | .timeout n =>
    if (w.fields n).timer = some true then
      some (F.finish n false actionTimeout (w.modify n Fields.disableTimer))
    else none
  | .deliver =>
    match w.queue with
    | posted :: rest => some (F.invoke input.leaves posted.call { w with queue := rest })
    | [] => none

end Forest

end Tbox.Flow.Action
