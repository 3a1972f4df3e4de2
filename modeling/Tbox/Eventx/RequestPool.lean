import Tbox.Proof.CabinetWellFormed
import Tbox.Proof.MonitorTicks

/-!
# The request pool

`eventx/request_pool.hpp`: a cabinet of contexts and a monitor of their tokens. The user has control outside
`onTimerTick` and in the timeout action. Tokens that wait have places in memory, so there are fewer than addresses.
-/

namespace Tbox.Eventx

open Cabinet (Token sizeMax)

namespace RequestPool

inductive Event (α : Type) where
  | created (token : Token) (ctx : Option α)
  | updated (token : Token) (ctx : Option α) (result : Bool)
  | removed (token : Token) (ctx : Option α)
  /-- the turn of the token at a tick, and what it takes out -/
  | expired (token : Token) (ctx : Option α)
  deriving DecidableEq, Repr

end RequestPool

structure RequestPool (α : Type) where
  reqCtxCabinet : Cabinet α := .empty
  /-- the monitor with the history of its work -/
  timeoutMonitor : TimeoutMonitor.Session Token
  /-- the context that the timeout action is called with, until it returns -/
  acting : Option α := none
  /-- what has happened, with the number of ticks that had begun -/
  log : List (RequestPool.Event α × Nat) := []

namespace RequestPool

variable {α : Type}

def note (s : RequestPool α) (event : Event α) : RequestPool α :=
  { s with log := s.log ++ [(event, s.timeoutMonitor.ticks)] }

def waitingNumber (s : RequestPool α) : Nat :=
  s.timeoutMonitor.monitor.size + s.timeoutMonitor.tobeHandle.length

/-- `initialize` with the number of checks, and `setTimeoutAction` -/
def start (checkTimes : Int) : RequestPool α where
  timeoutMonitor := .start checkTimes

def newRequest (s : RequestPool α) (ctx : Option α) : Option (RequestPool α) :=
  if s.waitingNumber < sizeMax then
    let (token, cabinet) := s.reqCtxCabinet.alloc ctx
    (s.timeoutMonitor.step (.add token)).map fun monitor =>
      { s.note (.created token ctx) with reqCtxCabinet := cabinet, timeoutMonitor := monitor }
  else none

def updateRequest (s : RequestPool α) (token : Token) (ctx : Option α) : RequestPool α :=
  let (result, cabinet) := s.reqCtxCabinet.update token ctx
  { s.note (.updated token ctx result) with reqCtxCabinet := cabinet }

def removeRequest (s : RequestPool α) (token : Token) : RequestPool α :=
  let (ctx, cabinet) := s.reqCtxCabinet.free token
  { s.note (.removed token ctx) with reqCtxCabinet := cabinet }

def onTimeout (s : RequestPool α) (token : Token) : RequestPool α :=
  let (ctx, cabinet) := s.reqCtxCabinet.free token
  { s.note (.expired token ctx) with reqCtxCabinet := cabinet, acting := ctx }

inductive Move (α : Type) where
  | newRequest (ctx : Option α)
  | updateRequest (token : Token) (ctx : Option α)
  | removeRequest (token : Token)
  /-- `onTimerTick` up to its loop -/
  | tick
  /-- the next turn of that loop, up to the call of the timeout action -/
  | report
  /-- the timeout action returns -/
  | returned
  deriving DecidableEq, Repr

def UserTurn (s : RequestPool α) : Prop := s.timeoutMonitor.tobeHandle = [] ∨ s.acting.isSome

instance (s : RequestPool α) : Decidable s.UserTurn := inferInstanceAs (Decidable (_ ∨ _))

def step (s : RequestPool α) : Move α → Option (RequestPool α)
  | .newRequest ctx => if s.UserTurn then s.newRequest ctx else none
  | .updateRequest token ctx => if s.UserTurn then some (s.updateRequest token ctx) else none
  | .removeRequest token => if s.UserTurn then some (s.removeRequest token) else none
  | .tick =>
    if s.acting.isNone then
      (s.timeoutMonitor.step .tick).map fun monitor => { s with timeoutMonitor := monitor }
    else none
  | .report =>
    match s.acting, s.timeoutMonitor.tobeHandle with
    | none, token :: _ =>
      (s.timeoutMonitor.step .report).map fun monitor => { s.onTimeout token with timeoutMonitor := monitor }
    | _, _ => none
  | .returned => if s.acting.isSome then some { s with acting := none } else none

end RequestPool

end Tbox.Eventx
