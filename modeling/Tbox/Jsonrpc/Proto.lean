import Tbox.Util.Json

/-!
# Messages of remote procedure calls

`jsonrpc/proto.cpp`: what is sent as a request, as a result and as an error, and what is called when such a message
has been received.
-/

namespace Tbox.Jsonrpc

open Tbox.Base (Json)
open Tbox.Lib (Bytes bytes)
open Tbox.Util (getField getString getInt)

/-- A call of `recv_request_cb_` or of `recv_respond_cb_`. -/
inductive RecvCall where
  | request (id : Int32) (method : Bytes) (params : Json)
  | respond (id errcode : Int32) (result : Json)
  deriving Repr

structure Proto where
  recvRequestCb : Bool := false
  recvRespondCb : Bool := false
  deriving DecidableEq, Repr

def ofInt (number : Int32) : Json := .numberInteger number.toInt64

namespace Proto

/-- What is handed to `sendJson`. Without parameters, `js_params` is null. -/
def sendRequest (id : Int32) (method : Bytes) (params : Json := .null) : Json :=
  let js : Json := .object [(bytes "jsonrpc", .string (bytes "2.0")), (bytes "method", .string method)]
  let js := if id ≠ 0 then js.assign (bytes "id") fun _ => ofInt id else js
  if !params.isNull then js.assign (bytes "params") fun _ => params else js

def sendResult (id : Int32) (result : Json) : Json :=
  .object [(bytes "jsonrpc", .string (bytes "2.0")), (bytes "id", ofInt id), (bytes "result", result)]

def sendError (id errcode : Int32) (message : Bytes := []) : Json :=
  let js : Json := .object [(bytes "jsonrpc", .string (bytes "2.0")), (bytes "id", ofInt id),
    (bytes "error", .object [(bytes "code", ofInt errcode)])]
  if !message.isEmpty then
    js.assign (bytes "error") fun error => error.assign (bytes "message") fun _ => .string message
  else js

def onRecvRequest (proto : Proto) (js : Json) : List RecvCall :=
  if !proto.recvRequestCb then []
  else
    match getField getString js (bytes "method") with
    | none => []
    | some method =>
      let id := (getField getInt js (bytes "id")).getD 0
      [.request id method ((js.find? (bytes "params")).getD .null)]

def onRecvResult (proto : Proto) (js : Json) : List RecvCall :=
  if !proto.recvRespondCb then []
  else
    match getField getInt js (bytes "id") with
    | none => []
    | some id => [.respond id 0 ((js.find? (bytes "result")).getD .null)]

def onRecvError (proto : Proto) (js : Json) : List RecvCall :=
  if !proto.recvRespondCb then []
  else
    let id := (getField getInt js (bytes "id")).getD 0
    match getField getInt ((js.find? (bytes "error")).getD .null) (bytes "code") with
    | none => []
    | some errcode => [.respond id errcode .null]

/-- `onRecvJson` of an object. -/
def onRecvObject (proto : Proto) (js : Json) : List RecvCall :=
  if getField getString js (bytes "jsonrpc") ≠ some (bytes "2.0") then []
  else if js.contains (bytes "method") then proto.onRecvRequest js
  else if js.contains (bytes "result") then proto.onRecvResult js
  else if js.contains (bytes "error") then proto.onRecvError js
  else []

mutual

def onRecvJson (proto : Proto) : Json → List RecvCall
  | .object fields => proto.onRecvObject (.object fields)
  | .array items => proto.onRecvItems items
  | _ => []

def onRecvItems (proto : Proto) : List Json → List RecvCall
  | [] => []
  | item :: items => proto.onRecvJson item ++ proto.onRecvItems items

end

end Proto

end Tbox.Jsonrpc
