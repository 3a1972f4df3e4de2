import Tbox.Jsonrpc.Proto

/-!
# Messages come back as what they were

Which callback is called is told from the fields a message has. What the three senders build is told apart, and an
array is the messages in it, one after the other.
-/

open List Option

namespace Tbox.Jsonrpc.Proto

open Tbox.Base (Json)
open Lib (Bytes bytes)
open Util (getField getString getInt)

variable {proto : Proto} {id errcode : Int32} {method message : Bytes} {params result js : Json}

theorem getInt_ofInt (number : Int32) : getInt (ofInt number) = some number :=
  congrArg some (Int32.toInt32_toInt64 number)

def requestFields (id : Int32) (method : Bytes) (params : Json) : List (Bytes × Json) :=
  [(bytes "jsonrpc", .string (bytes "2.0")), (bytes "method", .string method)] ++
    (if id ≠ 0 then [(bytes "id", ofInt id)] else []) ++ (if params.isNull then [] else [(bytes "params", params)])

theorem sendRequest_eq (id : Int32) (method : Bytes) (params : Json) :
    sendRequest id method params = .object (requestFields id method params) := by
  rw [sendRequest, requestFields]
  by_cases hid : id ≠ 0
  · rw [if_pos hid, if_pos hid]
    cases params.isNull <;> rfl
  · rw [if_neg hid, if_neg hid]
    cases params.isNull <;> rfl

theorem find?_id_request : (getField getInt (.object (requestFields id method params)) (bytes "id")).getD 0 = id := by
  have hfound : Json.find? (bytes "id") (.object (requestFields id method params)) =
      if id ≠ 0 then some (ofInt id) else none := by
    rw [requestFields]
    by_cases hid : id ≠ 0
    · rw [if_pos hid, if_pos hid]
      rfl
    · rw [if_neg hid, if_neg hid]
      cases params.isNull <;> rfl
  rw [getField, hfound]
  by_cases hid : id ≠ 0
  · rw [if_pos hid, bind_some, getInt_ofInt]
    rfl
  · rw [if_neg hid]
    exact (not_not.mp hid).symm

theorem find?_params_request :
    (Json.find? (bytes "params") (.object (requestFields id method params))).getD .null = params := by
  have hfound : Json.find? (bytes "params") (.object (requestFields id method params)) =
      if params.isNull then none else some params := by
    rw [requestFields]
    by_cases hid : id ≠ 0
    · rw [if_pos hid]
      cases params.isNull <;> rfl
    · rw [if_neg hid]
      cases params.isNull <;> rfl
  rw [hfound]
  cases params <;> rfl

theorem onRecvObject_of_version (hversion : js.find? (bytes "jsonrpc") = some (.string (bytes "2.0"))) :
    proto.onRecvObject js = if js.contains (bytes "method") then proto.onRecvRequest js
      else if js.contains (bytes "result") then proto.onRecvResult js
      else if js.contains (bytes "error") then proto.onRecvError js else [] := by
  rw [onRecvObject, getField, hversion, bind_some, getString, if_neg (not_not_intro rfl)]

theorem onRecvJson_sendRequest (recvRespondCb : Bool) (id : Int32) (method : Bytes) (params : Json) :
    onRecvJson { recvRequestCb := true, recvRespondCb := recvRespondCb } (sendRequest id method params) =
      [.request id method params] := by
  have hmethod : Json.find? (bytes "method") (.object (requestFields id method params)) = some (.string method) := rfl
  rw [sendRequest_eq, onRecvJson, onRecvObject_of_version rfl, Json.contains, hmethod, isSome_some, if_pos rfl,
    onRecvRequest,
    getField, hmethod]
  rw [find?_id_request, find?_params_request]
  rfl

theorem onRecvJson_sendResult (recvRequestCb : Bool) (id : Int32) (result : Json) :
    onRecvJson { recvRequestCb := recvRequestCb, recvRespondCb := true } (sendResult id result) =
      [.respond id 0 result] := by
  have hid : getField getInt (sendResult id result) (bytes "id") = some id := getInt_ofInt id
  have hobject : onRecvObject { recvRequestCb := recvRequestCb, recvRespondCb := true } (sendResult id result) =
      onRecvResult { recvRequestCb := recvRequestCb, recvRespondCb := true } (sendResult id result) :=
    onRecvObject_of_version rfl
  refine hobject.trans ?_
  rw [onRecvResult, hid]
  rfl

theorem sendError_eq (id errcode : Int32) (message : Bytes) : sendError id errcode message =
    .object [(bytes "jsonrpc", .string (bytes "2.0")), (bytes "id", ofInt id), (bytes "error",
      .object ((bytes "code", ofInt errcode) ::
        (if message.isEmpty then [] else [(bytes "message", .string message)])))] := by
  cases message <;> rfl

theorem onRecvJson_sendError (recvRequestCb : Bool) (id errcode : Int32) (message : Bytes) :
    onRecvJson { recvRequestCb := recvRequestCb, recvRespondCb := true } (sendError id errcode message) =
      [.respond id errcode .null] := by
  rw [sendError_eq]
  generalize hfields : (if message.isEmpty then [] else [(bytes "message", Json.string message)]) = fields
  generalize hjs : Json.object [(bytes "jsonrpc", .string (bytes "2.0")), (bytes "id", ofInt id), (bytes "error",
    .object ((bytes "code", ofInt errcode) :: fields))] = js
  have hid : getField getInt js (bytes "id") = some id := by
    rw [← hjs]
    exact getInt_ofInt id
  have hcode : getField getInt ((js.find? (bytes "error")).getD .null) (bytes "code") = some errcode := by
    rw [← hjs]
    exact getInt_ofInt errcode
  have hobject : onRecvJson { recvRequestCb := recvRequestCb, recvRespondCb := true } js =
      onRecvError { recvRequestCb := recvRequestCb, recvRespondCb := true } js := by
    rw [← hjs, onRecvJson, onRecvObject_of_version rfl]
    rfl
  rw [hobject, onRecvError, hid, hcode]
  rfl

theorem length_onRecvRequest_le : (proto.onRecvRequest js).length ≤ 1 := by
  rw [onRecvRequest]
  split
  · exact Nat.zero_le _
  · split
    · exact Nat.zero_le _
    · exact Nat.le_refl _

theorem length_onRecvResult_le : (proto.onRecvResult js).length ≤ 1 := by
  rw [onRecvResult]
  split
  · exact Nat.zero_le _
  · split
    · exact Nat.zero_le _
    · exact Nat.le_refl _

theorem length_onRecvError_le : (proto.onRecvError js).length ≤ 1 := by
  rw [onRecvError]
  split
  · exact Nat.zero_le _
  dsimp only
  split
  · exact Nat.zero_le _
  · exact Nat.le_refl _

theorem length_onRecvObject_le : (proto.onRecvObject js).length ≤ 1 := by
  rw [onRecvObject]
  split_ifs
  · exact Nat.zero_le _
  · exact length_onRecvRequest_le
  · exact length_onRecvResult_le
  · exact length_onRecvError_le
  · exact Nat.zero_le _

theorem onRecvObject_of_no_version (h : js.find? (bytes "jsonrpc") ≠ some (.string (bytes "2.0"))) :
    proto.onRecvObject js = [] := by
  rw [onRecvObject, if_pos]
  intro hversion
  rw [getField] at hversion
  cases hfound : js.find? (bytes "jsonrpc") with
  | none =>
    rw [hfound] at hversion
    cases hversion
  | some value =>
    rw [hfound, bind_some] at hversion
    cases value with
    | string text => exact h (hfound.trans (congrArg (some ∘ Json.string) (some.inj hversion)))
    | _ => cases hversion

theorem onRecvObject_of_no_field (hmethod : js.contains (bytes "method") = false)
    (hresult : js.contains (bytes "result") = false) (herror : js.contains (bytes "error") = false) :
    proto.onRecvObject js = [] := by
  rw [onRecvObject, hmethod, hresult, herror]
  exact ite_self _

theorem onRecvItems_eq (proto : Proto) (items : List Json) :
    proto.onRecvItems items = items.flatMap proto.onRecvJson := by
  induction items with
  | nil => rw [onRecvItems, flatMap_nil]
  | cons item items ih => rw [onRecvItems, ih, flatMap_cons]

mutual

def leaves : Json → List Json
  | .array items => leavesOf items
  | js => [js]

def leavesOf : List Json → List Json
  | [] => []
  | item :: items => leaves item ++ leavesOf items

end

theorem leaves_of_not_array (h : ∀ items, js ≠ .array items) : leaves js = [js] := by
  cases js with
  | array items => exact absurd rfl (h items)
  | _ => rw [leaves]; exact h

mutual

theorem onRecvJson_leaves (proto : Proto) : ∀ js, proto.onRecvJson js = (leaves js).flatMap proto.onRecvJson
  | .array items => by
    rw [onRecvJson, leaves]
    exact onRecvItems_leaves proto items
  | .null | .boolean _ | .numberInteger _ | .numberUnsigned _ | .numberFloat _ | .string _ | .object _ => by
    rw [leaves_of_not_array (fun items => Json.noConfusion), flatMap_singleton]

theorem onRecvItems_leaves (proto : Proto) :
    ∀ items, proto.onRecvItems items = (leavesOf items).flatMap proto.onRecvJson
  | [] => by
    rw [onRecvItems, leavesOf, flatMap_nil]
  | item :: items => by
    rw [onRecvItems, leavesOf, flatMap_append, onRecvJson_leaves proto item, onRecvItems_leaves proto items]

end

/-- **What the three senders build is received as what it was, an array is what is in it, and no object calls twice, or
without its version and one of the three fields.** -/
theorem round_trip :
    (∀ recvRespondCb id method params,
      onRecvJson { recvRequestCb := true, recvRespondCb := recvRespondCb } (sendRequest id method params) =
        [.request id method params]) ∧
    (∀ recvRequestCb id result,
      onRecvJson { recvRequestCb := recvRequestCb, recvRespondCb := true } (sendResult id result) =
        [.respond id 0 result]) ∧
    (∀ recvRequestCb id errcode message,
      onRecvJson { recvRequestCb := recvRequestCb, recvRespondCb := true } (sendError id errcode message) =
        [.respond id errcode .null]) ∧
    ∀ proto : Proto, (∀ items, proto.onRecvJson (.array items) = items.flatMap proto.onRecvJson) ∧
      (∀ js, proto.onRecvJson js = (leaves js).flatMap proto.onRecvJson) ∧
      ∀ fields, (proto.onRecvJson (.object fields)).length ≤ 1 ∧
        (fields.lookup (bytes "jsonrpc") ≠ some (.string (bytes "2.0")) ∨
          (∀ name ∈ [bytes "method", bytes "result", bytes "error"], fields.lookup name = none) →
            proto.onRecvJson (.object fields) = []) := by
  refine ⟨onRecvJson_sendRequest, onRecvJson_sendResult, onRecvJson_sendError, fun proto =>
    ⟨fun items => ?_, onRecvJson_leaves proto, fun fields => ?_⟩⟩
  · rw [onRecvJson, onRecvItems_eq]
  · rw [onRecvJson]
    refine ⟨length_onRecvObject_le, ?_⟩
    rintro (hversion | hnone)
    · exact onRecvObject_of_no_version hversion
    · simp only [List.forall_mem_cons] at hnone
      obtain ⟨hmethod, hresult, herror, -⟩ := hnone
      have hcontains : ∀ name, fields.lookup name = none → (Json.object fields).contains name = false := by
        intro name hname
        rw [Json.contains, Json.find?_object, hname]
        rfl
      exact onRecvObject_of_no_field (hcontains _ hmethod) (hcontains _ hresult) (hcontains _ herror)

end Tbox.Jsonrpc.Proto
