import Tbox.Lib.Run
import Tbox.Eventx.TimeoutMonitor
import Tbox.Network.DnsMessage

/-!
# DNS requests

`network/dns_request.cpp`. A request is known by an id of 16 bits; its number, which the code does not have, tells it
from others that have had its id. A callback comes out of the loop, and its request is deleted when it returns.
-/

namespace Tbox.Network.Dns

open Tbox.Lib (Bytes)

open Tbox.Eventx (TimeoutMonitor)

structure Request where
  id : ReqId
  no : Nat
  cb : Bool
  responseCount : Nat := 0
  deriving DecidableEq, Repr

structure DnsRequest where
  dnsIpVec : List IPAddress
  reqIdAlloc : ReqId := 0
  requests : List Request := []
  /-- what waits in it are the ids, with the numbers of their requests -/
  timeoutMonitor : TimeoutMonitor (ReqId × Nat) := (TimeoutMonitor.setCallback {}).initializeMonitor 5 |>.2
  udpEnabled : Bool := false
  deriving DecidableEq, Repr

namespace DnsRequest

def findRequest (d : DnsRequest) (reqId : ReqId) : Option Request :=
  d.requests.find? fun req => req.id = reqId

def others (d : DnsRequest) (reqId : ReqId) : List Request :=
  d.requests.filter fun req => req.id ≠ reqId

def deleteRequest (d : DnsRequest) (reqId : ReqId) : Bool × DnsRequest :=
  match d.findRequest reqId with
  | none => (false, d)
  | some _ =>
    (true, { d with
      requests := d.others reqId
      udpEnabled := if d.others reqId = [] then false else d.udpEnabled })

/-- `requests_[req_id] = req` takes the place of one of that id. -/
def addRequest (d : DnsRequest) (req : Request) : Option DnsRequest :=
  (d.timeoutMonitor.add (req.id, req.no)).map fun timeoutMonitor =>
    { d with
      udpEnabled := if d.requests = [] then true else d.udpEnabled
      requests := d.others req.id ++ [req]
      timeoutMonitor := timeoutMonitor }

def isRunning (d : DnsRequest) (reqId : ReqId) : Bool := (d.findRequest reqId).isSome

end DnsRequest

/-- A call of a callback, with the servers there are then and those that have failed the request. -/
structure Outcome where
  result : Result
  /-- the request it comes from: the one a packet answers, if any, or that has waited its time -/
  source : Option Nat
  servers : List IPAddress
  failedBy : List IPAddress
  afterCancel : Bool
  deriving DecidableEq, Repr

structure Record where
  id : ReqId
  cb : Bool
  /-- the ticks since it was made -/
  age : Nat := 0
  /-- `cancel` has returned true -/
  cancelled : Bool := false
  /-- the servers whose failures have been counted, in order -/
  failedBy : List IPAddress := []
  outcomes : List Outcome := []
  deriving DecidableEq, Repr

structure World where
  dns : DnsRequest
  records : List Record := []
  /-- the id of the request whose callback is under way -/
  calling : Option ReqId := none
  /-- what the loop of the `onTimerTick` under way has yet to come to -/
  tobeHandle : List (ReqId × Nat) := []
  sent : List (IPAddress × Bytes) := []
  crashed : Bool := false
  deriving DecidableEq, Repr

structure Packet where
  data : Bytes
  memory : Memory := {}
  sender : IPAddress
  /-- the request that it is the answer to -/
  answers : Option Nat

namespace World

def modifyRecord (w : World) (no : Nat) (f : Record → Record) : World :=
  { w with records := w.records.modify no f }

def request (w : World) (domain : Bytes) (cb : Bool) : Option World :=
  if w.dns.dnsIpVec = [] then some w
  else
    let reqId := w.dns.reqIdAlloc + 1
    let dns := { w.dns with reqIdAlloc := reqId }
    (dns.addRequest { id := reqId, no := w.records.length, cb := cb }).map fun dns =>
      { w with
        dns := dns
        records := w.records ++ [{ id := reqId, cb := cb }]
        sent := w.sent ++ w.dns.dnsIpVec.map fun ip => (ip, query reqId domain) }

def cancel (w : World) (no : Nat) (record : Record) : World :=
  let (success, dns) := w.dns.deleteRequest record.id
  { w with dns := dns }.modifyRecord no fun r => { r with cancelled := r.cancelled || success }

def deliver (w : World) (req : Request) (result : Result) (source : Option Nat) : World :=
  if req.cb then
    { w with calling := some req.id }.modifyRecord req.no fun r =>
      { r with outcomes := r.outcomes ++ [Outcome.mk result source w.dns.dnsIpVec r.failedBy r.cancelled] }
  else { w with dns := (w.dns.deleteRequest req.id).2 }

def countResponse (w : World) (req : Request) (sender : IPAddress) : World :=
  let requests := w.dns.requests.map fun other =>
    if other.id = req.id then { other with responseCount := other.responseCount + 1 } else other
  { w with dns := { w.dns with requests := requests } }.modifyRecord req.no fun r =>
    { r with failedBy := r.failedBy ++ [sender] }

def onUdpRecv (w : World) (packet : Packet) : World :=
  if w.dns.requests = [] then w
  else
    let (header, parser) := readHeader packet.memory packet.data
    match w.dns.findRequest header.reqId with
    | none => w
    | some req =>
      if ¬header.isResponse then w
      else if header.rcode = 0 then
        match parseAnswer packet.memory parser with
        | some result => w.deliver req result packet.answers
        | none => { w with crashed := true }
      else if header.rcode = rcNameError then
        w.deliver req { status := .kDomainError } packet.answers
      else if header.rcode = rcFormatError then
        w.deliver req { status := .kFail } packet.answers
      else
        let w := w.countResponse req packet.sender
        if req.responseCount + 1 < w.dns.dnsIpVec.length then w
        else w.deliver req { status := .kAllDnsFail } packet.answers

def onRequestTimeout (w : World) (value : ReqId × Nat) : World :=
  match w.dns.findRequest value.1 with
  | none => w
  | some req => w.deliver req { status := .kTimeout } (some value.2)

/-- The loop of `onTimerTick`, up to the next callback. -/
def handleTimeouts : List (ReqId × Nat) → World → World
  | [], w => w
  | value :: rest, w =>
    let w := { w with tobeHandle := rest }.onRequestTimeout value
    if w.calling = none then handleTimeouts rest w else w

/-- The callback returns, its request is deleted, and the loop that had called it goes on. -/
def returned (w : World) : Option World :=
  w.calling.map fun reqId =>
    handleTimeouts w.tobeHandle
      { w with dns := (w.dns.deleteRequest reqId).2, calling := none }

def tick (w : World) : Option World :=
  w.dns.timeoutMonitor.onTimerTick.map fun ticked =>
    handleTimeouts ticked.1
      { w with
        dns := { w.dns with timeoutMonitor := ticked.2 }
        records := w.records.map fun r => { r with age := r.age + 1 }
        tobeHandle := ticked.1 }

end World

inductive Action where
  | setDnsIPAddresses (dnsIpVec : List IPAddress)
  | request (domain : Bytes) (cb : Bool)
  | cancel (no : Nat)
  | udpRecv (packet : Packet)
  | tick
  /-- the callback under way returns -/
  | returned

namespace World

def Answers (w : World) (packet : Packet) : Prop :=
  ∀ no ∈ packet.answers, (w.records[no]?).map Record.id
    = some (readHeader packet.memory packet.data).1.reqId

instance (w : World) (packet : Packet) : Decidable (w.Answers packet) :=
  inferInstanceAs (Decidable (∀ no ∈ packet.answers, _))

def step (w : World) (a : Action) : Option World :=
  if w.crashed then none
  else
    match a with
    | .setDnsIPAddresses dnsIpVec => some { w with dns := { w.dns with dnsIpVec := dnsIpVec } }
    | .request domain cb => w.request domain cb
    | .cancel no => (w.records[no]?).map fun record => w.cancel no record
    | .udpRecv packet =>
      if w.calling = none ∧ w.dns.udpEnabled ∧ w.Answers packet then some (w.onUdpRecv packet)
      else none
    | .tick => if w.calling = none ∧ w.dns.timeoutMonitor.timerEnabled then w.tick else none
    | .returned => w.returned

end World

end Tbox.Network.Dns
