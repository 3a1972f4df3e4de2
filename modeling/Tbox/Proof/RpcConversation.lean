import Tbox.Jsonrpc.Rpc
import Tbox.Proof.HeaderFrames
import Tbox.Proof.MessageRoundTrip

/-!
# Two ends of remote procedure calls

Requests go to one end as frames in a stream of bytes, and its answers go back as frames in another.
-/

open List Option

namespace Tbox.Jsonrpc

open Tbox.Base (Json)
open Lib (Bytes Intake)
open HeaderStreamProto (Sendable decodes sendJson onRecvData)

variable {σ : Type} {headerCode : UInt16} {library : JsonText Json} {r r' : Responder σ} {replies : List Json}

/-- `proto_` as `Rpc::initialize` sets it. -/
def rpcProto : Proto := { recvRequestCb := true, recvRespondCb := true }

structure Request where
  id : Int32
  method : Bytes
  params : Json

namespace Request

/-- What `Rpc::request` sends. -/
def json (q : Request) : Json := Proto.sendRequest q.id q.method q.params

def call (q : Request) : RecvCall := .request q.id q.method q.params

end Request

/-- What the requester is to be told: nothing for a notification and a request that is answered later. -/
def answers (services : Bytes → Option (σ → Int32 → Json → ServiceAnswer σ)) : List Request → σ → List RecvCall
  | [], _ => []
  | q :: later, state =>
    match services q.method with
    | none => .respond q.id methodNotFoundCode .null :: answers services later state
    | some service =>
      let served := service state q.id q.params
      (if q.id ≠ 0 ∧ served.isSync then
        [.respond q.id served.errcode (if served.errcode = 0 then served.result else .null)] else []) ++
        answers services later served.state

variable (headerCode library) in
/-- What `proto_` calls for these chunks of a stream. -/
def heard (chunks : List Bytes) : List RecvCall :=
  (Intake.receiveAll (verdict (onRecvData headerCode library)) chunks).messages.flatMap rpcProto.onRecvJson

theorem respond_spec {id errcode : Int32} {result : Json} (hid : id ≠ 0) :
    (r.respond id errcode result).1.methodServices = r.methodServices ∧
      (r.respond id errcode result).1.state = r.state ∧ (r.respond id errcode result).2.flatMap rpcProto.onRecvJson =
        [.respond id errcode (if errcode = 0 then result else .null)] := by
  rw [Responder.respond, if_neg hid, flatMap_singleton]
  refine ⟨rfl, rfl, ?_⟩
  by_cases herr : errcode = 0
  · rw [if_pos herr, if_pos herr, herr]
    exact Proto.onRecvJson_sendResult true id result
  · rw [if_neg herr, if_neg herr]
    exact Proto.onRecvJson_sendError true id errcode []

/-- What one request leads to, with the services as they are. -/
theorem onRecvRequest_answers {q : Request} (later : List Request)
    (hserve : r.onRecvRequest q.id q.method q.params = some (r', replies)) :
    r'.methodServices = r.methodServices ∧ replies.flatMap rpcProto.onRecvJson ++ answers r.methodServices later r'.state =
      answers r.methodServices (q :: later) r.state := by
  rw [Responder.onRecvRequest] at hserve
  rw [answers]
  cases hservice : r.methodServices q.method with
  | none =>
    rw [hservice] at hserve
    cases hserve
    rw [flatMap_singleton, rpcProto, Proto.onRecvJson_sendError]
    exact ⟨rfl, rfl⟩
  | some service =>
    rw [hservice] at hserve
    dsimp only at hserve ⊢
    by_cases hid : q.id = 0
    · rw [if_pos hid] at hserve
      cases hserve
      rw [if_neg fun h => h.1 hid]
      exact ⟨rfl, rfl⟩
    rw [if_neg hid] at hserve
    by_cases hsync : (service r.state q.id q.params).isSync = true
    · rw [if_pos hsync] at hserve
      obtain ⟨hservices, hstate, htold⟩ := respond_spec
        (r := { r with tobeRespond := _, state := (service r.state q.id q.params).state }) hid
      rw [some.inj hserve] at hservices hstate htold
      rw [if_pos ⟨hid, hsync⟩, htold, hstate]
      exact ⟨hservices, rfl⟩
    · rw [if_neg hsync] at hserve
      obtain ⟨monitor, -, hlater⟩ := map_eq_some_iff.mp hserve
      cases hlater
      rw [if_neg fun h => hsync h.2]
      exact ⟨rfl, rfl⟩

theorem onRecvCalls_answers (requests : List Request)
    (hserve : r.onRecvCalls (requests.map Request.call) = some (r', replies)) :
    replies.flatMap rpcProto.onRecvJson = answers r.methodServices requests r.state := by
  induction requests generalizing r replies with
  | nil =>
    cases hserve
    rfl
  | cons q later ih =>
    obtain ⟨⟨next, first⟩, hfirst, hrest⟩ := bind_eq_some_iff.mp hserve
    obtain ⟨⟨last, others⟩, hothers, heq⟩ := map_eq_some_iff.mp hrest
    cases heq
    obtain ⟨hservices, hanswers⟩ := onRecvRequest_answers later hfirst
    rw [flatMap_append, ih hothers, hservices]
    exact hanswers

theorem heard_requests {there : List Bytes} {requests : List Request} (h : ∀ q ∈ requests, Sendable library q.json)
    (hthere : there.flatten <+: (requests.map Request.json).flatMap (sendJson headerCode library)) :
    ∃ served later, requests = served ++ later ∧ heard headerCode library there = served.map Request.call ∧
      (there.flatten = (requests.map Request.json).flatMap (sendJson headerCode library) → later = []) := by
  have hdecodes : Intake.Decodes (verdict (onRecvData headerCode library)) (sendJson headerCode library)
      (requests.map Request.json) := by
    refine decodes fun js hjs => ?_
    obtain ⟨q, hq, rfl⟩ := List.mem_map.mp hjs
    exact h q hq
  obtain ⟨taken, rest, tail, hsplit, -, -, hreceived⟩ := hdecodes.receiveAll_eq hthere
  obtain ⟨served, later, rfl, rfl, rfl⟩ := map_eq_append_iff.mp hsplit
  refine ⟨served, later, rfl, ?_, fun hwhole => ?_⟩
  · rw [heard, hreceived, flatMap_map, ← flatMap_singleton' (served.map _), flatMap_map]
    exact flatMap_congr fun q _ => Proto.onRecvJson_sendRequest true q.id q.method q.params
  · have hall := congrArg Intake.messages (hreceived.symm.trans (hdecodes.receiveAll_whole hwhole))
    rw [map_append] at hall
    exact map_eq_nil_iff.mp (append_right_eq_self.mp hall.symm)

/-- **Each service is called with the requests for it, once and in their order, and the requester is told exactly what
they answer**, however the two streams are cut. -/
theorem conversation (headerCode : UInt16) (library : JsonText Json) (r r' : Responder σ) (requests : List Request)
    (replies : List Json) (there back : List Bytes) (hrequests : ∀ q ∈ requests, Sendable library q.json)
    (hthere : there.flatten <+: (requests.map Request.json).flatMap (sendJson headerCode library))
    (hserve : r.onRecvCalls (heard headerCode library there) = some (r', replies))
    (hreplies : ∀ js ∈ replies, Sendable library js)
    (hback : back.flatten <+: replies.flatMap (sendJson headerCode library)) :
    ∃ served later, requests = served ++ later ∧ heard headerCode library there = served.map Request.call ∧
      (there.flatten = (requests.map Request.json).flatMap (sendJson headerCode library) → later = []) ∧
      heard headerCode library back <+: answers r.methodServices served r.state ∧
      (back.flatten = replies.flatMap (sendJson headerCode library) →
        heard headerCode library back = answers r.methodServices served r.state) := by
  obtain ⟨served, later, hsplit, hheard, hwhole⟩ := heard_requests hrequests hthere
  rw [hheard] at hserve
  have hanswers := onRecvCalls_answers served hserve
  have hdecodes : Intake.Decodes (verdict (onRecvData headerCode library)) (sendJson headerCode library) replies :=
    decodes hreplies
  refine ⟨served, later, hsplit, hheard, hwhole, ?_, fun hall => ?_⟩
  · obtain ⟨taken, rest, tail, rfl, -, -, hreceived⟩ := hdecodes.receiveAll_eq hback
    rw [heard, hreceived, ← hanswers, flatMap_append]
    exact prefix_append _ _
  · rw [heard, hdecodes.receiveAll_whole hall]
    exact hanswers

/-- A service that counts its calls. -/
def counter : Responder Nat where
  methodServices method :=
    if method = Lib.bytes "count" then
      some fun calls _ _ => { isSync := true, result := .numberInteger (calls + 1).toInt64, state := calls + 1 }
    else none
  state := 0

def countRequest (id : Int32) : Request := ⟨id, Lib.bytes "count", .null⟩

/-- A library that knows what these two say to each other. -/
def countMessages : JsonText Json where
  dump js :=
    [if js.contains (Lib.bytes "method") then 1 else 2, ((Util.getField Util.getInt js (Lib.bytes "id")).getD 0).toUInt32.toUInt8]
  parse text :=
    if text = [1, 7] then some (countRequest 7).json
    else if text = [1, 0] then some (countRequest 0).json
    else if text = [1, 9] then some (countRequest 9).json
    else if text = [2, 7] then some (Proto.sendResult 7 (.numberInteger 1))
    else if text = [2, 9] then some (Proto.sendResult 9 (.numberInteger 3)) else none

/-- Between two requests there is a notification: it is counted, and nothing is told of it. -/
theorem counter_conversation :
    heard 0x5a5a countMessages [[0x5a], [0x5a, 0, 0, 0, 2, 2, 7, 0x5a, 0x5a], [0, 0, 0, 2, 2, 9]] =
      [.respond 7 0 (.numberInteger 1), .respond 9 0 (.numberInteger 3)] := by
  have hrequest : ∀ q ∈ [countRequest 7, countRequest 0, countRequest 9], Sendable countMessages q.json :=
    List.forall_mem_cons.mpr ⟨⟨by decide, rfl⟩, List.forall_mem_cons.mpr
      ⟨⟨by decide, rfl⟩, List.forall_mem_singleton.mpr ⟨by decide, rfl⟩⟩⟩
  have hreply : ∀ js ∈ [Proto.sendResult 7 (.numberInteger 1), Proto.sendResult 9 (.numberInteger 3)],
      Sendable countMessages js :=
    List.forall_mem_cons.mpr ⟨⟨by decide, rfl⟩, List.forall_mem_singleton.mpr ⟨by decide, rfl⟩⟩
  obtain ⟨served, later, hsplit, -, hwhole, -, hall⟩ := conversation 0x5a5a countMessages counter
    { counter with state := 3 } [countRequest 7, countRequest 0, countRequest 9] _
    [[0x5a, 0x5a, 0], [0, 0, 2, 1, 7, 0x5a, 0x5a, 0, 0, 0, 2, 1], [0, 0x5a, 0x5a, 0, 0, 0, 2, 1, 9]]
    [[0x5a], [0x5a, 0, 0, 0, 2, 2, 7, 0x5a, 0x5a], [0, 0, 0, 2, 2, 9]]
    hrequest ⟨[], by decide⟩ rfl hreply ⟨[], by decide⟩
  rw [hwhole (by decide), append_nil] at hsplit
  rw [hall (by decide), ← hsplit]
  rfl

end Tbox.Jsonrpc
