import Tbox.Eventx.TimeoutMonitor
import Tbox.Jsonrpc.Proto

/-!
# Remote procedure calls: the side that requests, and the side that responds

`jsonrpc/rpc.cpp`. A callback is known by the identifier of its request, and what has been called and has not returned
waits in `calling`. A `cleanup` out of a callback destroys what is running: nothing follows it. A second `initialize`,
and a request of an object that is not initialised, are not enabled.
-/

namespace Tbox.Jsonrpc

open Tbox.Eventx (TimeoutMonitor)

variable {J : Type} [Inhabited J]

/-- `ErrorCode::kRequestTimeout` -/
def requestTimeoutCode : Int := -32000

structure Rpc where
  /-- whether `proto_` is set -/
  isInitialized : Bool := false
  /-- `int id_alloc_` -/
  idAlloc : Int := 0
  /-- the keys of `request_callback_` -/
  requestCallback : List Int := []
  requestTimeout : TimeoutMonitor Int := TimeoutMonitor.setCallback {}
  deriving DecidableEq, Repr

namespace Rpc

def initializeRpc (rpc : Rpc) (timeoutSec : Int) : Rpc :=
  { rpc with
    requestTimeout := (rpc.requestTimeout.initializeMonitor timeoutSec).2
    isInitialized := true }

def cleanup (rpc : Rpc) : Rpc :=
  { rpc with
    requestTimeout := rpc.requestTimeout.cleanup
    requestCallback := []
    isInitialized := false }

/-- Up to the call of `sendRequest`, with the identifier it is given. -/
def request (rpc : Rpc) (withCallback : Bool) : Option (Int × Rpc) :=
  if withCallback then
    let id := (rpc.idAlloc + 1).bmod (2 ^ 32)
    (rpc.requestTimeout.add id).map fun requestTimeout =>
      (id, { rpc with
        idAlloc := id
        requestCallback := rpc.requestCallback.insert id
        requestTimeout := requestTimeout })
  else some (0, rpc)

def eraseCallback (rpc : Rpc) (id : Int) : Rpc :=
  { rpc with requestCallback := rpc.requestCallback.filter fun other => other ≠ id }

end Rpc

inductive Event (J : Type) where
  | request (id : Int) (method : String) (params : J)
  | respond (id errcode : Int) (result : J)
  | tick
  /-- the callback of the request is called -/
  | callback (id errcode : Int) (result : J)
  deriving DecidableEq, Repr

structure World (J : Type) where
  rpc : Rpc := {}
  /-- the callbacks that have been called and have not returned, innermost first -/
  calling : List Int := []
  /-- what the loop of the `onTimerTick` under way has yet to come to -/
  tobeHandle : List Int := []
  log : List (Event J) := []
  /-- `request_callback_` has been cleared under a callback that runs -/
  crashed : Bool := false
  deriving DecidableEq, Repr

namespace World

def record (w : World J) (event : Event J) : World J := { w with log := w.log ++ [event] }

def callBack (w : World J) (id errcode : Int) (result : J) : World J :=
  { w with calling := id :: w.calling }.record (.callback id errcode result)

def onRecvRespond (w : World J) (id errcode : Int) (result : J) : World J :=
  if id ∈ w.rpc.requestCallback then w.callBack id errcode result else w

def onRequestTimeout (w : World J) (id : Int) : World J :=
  if id ∈ w.rpc.requestCallback then w.callBack id requestTimeoutCode default else w

/-- The loop of `onTimerTick`, up to the next callback. -/
def handleTimeouts : List Int → World J → World J
  | [], w => w
  | id :: rest, w =>
    let w := { w with tobeHandle := rest }.onRequestTimeout id
    if w.calling = [] then handleTimeouts rest w else w

def returned (w : World J) : Option (World J) :=
  match w.calling with
  | [] => none
  | id :: outer =>
    let w := { w with rpc := w.rpc.eraseCallback id, calling := outer }
    some (if outer = [] then handleTimeouts w.tobeHandle w else w)

end World

inductive Input (J : Type) where
  | initializeRpc (timeoutSec : Int)
  | cleanup
  | request (withCallback : Bool) (method : String) (params : J)
  /-- the peer's result, or its error -/
  | respond (id errcode : Int) (result : J)
  /-- the timer of `request_timeout_` fires -/
  | tick
  /-- the innermost callback returns -/
  | returned
  deriving DecidableEq, Repr

def World.next (w : World J) : Input J → Option (World J)
  | .initializeRpc timeoutSec =>
    if w.calling = [] ∧ w.rpc.isInitialized = false then
      some { w with rpc := w.rpc.initializeRpc timeoutSec }
    else none
  | .cleanup =>
    if w.rpc.isInitialized then
      if w.calling = [] then some { w with rpc := w.rpc.cleanup } else some { w with crashed := true }
    else none
  | .request withCallback method params =>
    if w.rpc.isInitialized then
      (w.rpc.request withCallback).map fun sent =>
        { w with rpc := sent.2 }.record (.request sent.1 method params)
    else none
  | .respond id errcode result =>
    -- without `recv_respond_cb_` the message is dropped
    if w.rpc.isInitialized then
      some ((w.record (.respond id errcode result)).onRecvRespond id errcode result)
    else some w
  | .tick =>
    if w.calling = [] ∧ w.rpc.requestTimeout.timerEnabled then
      w.rpc.requestTimeout.onTimerTick.map fun ticked =>
        World.handleTimeouts ticked.1
          ({ w with
            rpc := { w.rpc with requestTimeout := ticked.2 }
            tobeHandle := ticked.1 }.record .tick)
    else none
  | .returned => w.returned

def step (w : World J) (input : Input J) : Option (World J) := if w.crashed then none else w.next input

/-- `ErrorCode::kMethodNotFound` -/
def methodNotFoundCode : Int32 := -32601

/-- What a service has done: whether it answers at once, its answer, and what it goes by at the next request. -/
structure ServiceAnswer (σ : Type) where
  isSync : Bool
  errcode : Int32 := 0
  result : Base.Json := .null
  state : σ

/-- The side that responds; `σ` is what the services share. -/
structure Responder (σ : Type) where
  methodServices : Lib.Bytes → Option (σ → Int32 → Base.Json → ServiceAnswer σ)
  tobeRespond : List Int32 := []
  respondTimeout : TimeoutMonitor Int32 := TimeoutMonitor.setCallback {}
  state : σ

namespace Responder

variable {σ : Type}

/-- `respond`, with what is handed to `proto_`. -/
def respond (r : Responder σ) (id errcode : Int32) (result : Base.Json) : Responder σ × List Base.Json :=
  if id = 0 then (r, [])
  else
    ({ r with tobeRespond := r.tobeRespond.filter (· ≠ id) },
      [if errcode = 0 then Proto.sendResult id result else Proto.sendError id errcode])

/-- Nothing where the monitor has not been initialised and a service answers later. -/
def onRecvRequest (r : Responder σ) (id : Int32) (method : Lib.Bytes) (params : Base.Json) :
    Option (Responder σ × List Base.Json) :=
  match r.methodServices method with
  | none => some (r, [Proto.sendError id methodNotFoundCode])
  | some service =>
    let served := service r.state id params
    let r := { r with state := served.state }
    if id = 0 then some (r, [])
    else
      let r := { r with tobeRespond := r.tobeRespond.insert id }
      if served.isSync then some (r.respond id served.errcode served.result)
      else (r.respondTimeout.add id).map fun respondTimeout => ({ r with respondTimeout }, [])

/-- What `proto_` calls, one after the other; `onRecvRespond` is the other side's. -/
def onRecvCalls (r : Responder σ) : List RecvCall → Option (Responder σ × List Base.Json)
  | [] => some (r, [])
  | .respond .. :: calls => r.onRecvCalls calls
  | .request id method params :: calls =>
    (r.onRecvRequest id method params).bind fun served =>
      (served.1.onRecvCalls calls).map fun later => (later.1, served.2 ++ later.2)

end Responder

end Tbox.Jsonrpc
