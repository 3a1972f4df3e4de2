import Tbox.Lib.StdString

/-!
# The MQTT client

`mqtt/client.cpp`. What libmosquitto returns, and which callbacks it makes before, come with every action. The connect
thread posts its result to the loop and ends, so joining it waits for `mosquitto_connect_async`.
-/

namespace Tbox.Mqtt

open Tbox.Lib (Bytes bytes)

namespace Config

structure Broker where
  domain : Bytes := bytes "localhost"
  port : UInt16 := 1883
  deriving DecidableEq, Repr

structure Base where
  broker : Broker := {}
  keepalive : Int := 60
  deriving DecidableEq, Repr

structure TLS where
  enabled : Bool := false
  caFile : Bytes := []
  caPath : Bytes := []
  certFile : Bytes := []
  keyFile : Bytes := []
  isRequirePeerCert : Bool := true
  deriving DecidableEq, Repr

structure Will where
  enabled : Bool := false
  topic : Bytes := []
  deriving DecidableEq, Repr

end Config

structure Config where
  base : Config.Base := {}
  will : Config.Will := {}
  tls : Config.TLS := {}
  autoReconnectEnable : Bool := true
  autoReconnectWaitSec : Int := 0
  deriving DecidableEq, Repr

def Config.isValid (config : Config) : Bool :=
  if config.base.broker.domain = [] then false
  else if config.base.broker.port = 0 then false
  else if config.base.keepalive < 0 then false
  else if config.tls.enabled ∧ config.tls.isRequirePeerCert ∧ config.tls.caFile = [] ∧ config.tls.caPath = [] then false
  else if config.tls.enabled ∧ config.tls.certFile ≠ [] ∧ config.tls.keyFile = [] then false
  else if config.will.enabled ∧ config.will.topic = [] then false
  else true

inductive State where
  | kNone
  | kInited
  | kConnecting
  | kTcpConnected
  | kMqttConnected
  | kReconnWaiting
  | kEnd
  deriving DecidableEq, Repr

namespace State

/-- The client has been started, and has not been stopped since. -/
def isStarted : State → Bool
  | kNone | kInited => false
  | _ => true

def isConnected : State → Bool
  | kTcpConnected | kMqttConnected => true
  | _ => false

end State

structure Callbacks where
  connected : Bool := false
  connectFail : Bool := false
  disconnected : Bool := false
  messageRecv : Bool := false
  messagePub : Bool := false
  subscribed : Bool := false
  unsubscribed : Bool := false
  stateChanged : Bool := false
  deriving DecidableEq, Repr

inductive UserCallback where
  | connected
  | connectFail
  | disconnected
  | messageRecv
  | messagePub
  | subscribed
  | unsubscribed
  | stateChanged (state : State)
  deriving DecidableEq, Repr

def Callbacks.has (callbacks : Callbacks) : UserCallback → Bool
  | .connected => callbacks.connected
  | .connectFail => callbacks.connectFail
  | .disconnected => callbacks.disconnected
  | .messageRecv => callbacks.messageRecv
  | .messagePub => callbacks.messagePub
  | .subscribed => callbacks.subscribed
  | .unsubscribed => callbacks.unsubscribed
  | .stateChanged _ => callbacks.stateChanged

inductive MosqCallback where
  | connect (rc : Int)
  | disconnect (rc : Int)
  | publish
  | message (isNull : Bool)
  | subscribe
  | unsubscribe
  | log
  deriving DecidableEq, Repr

/-- A call of libmosquitto: the callbacks that it makes, then `mosquitto_socket` and `mosquitto_want_write`. -/
structure Mosq where
  callbacks : List MosqCallback := []
  socket : Int := -1
  wantWrite : Bool := false
  deriving DecidableEq, Repr

def MOSQ_ERR_SUCCESS : Int := 0

structure Thread where
  id : Nat
  session : Nat
  isReconnect : Bool
  /-- whether it has posted its result -/
  isFinished : Bool := false
  deriving DecidableEq, Repr

structure Posted where
  session : Nat
  isReconnect : Bool
  ret : Int
  deriving DecidableEq, Repr

def Thread.posts (thread : Thread) (ret : Int) : Posted := ⟨thread.session, thread.isReconnect, ret⟩

/-- A callback of the user that has been made: by which session, and whether that had been stopped. -/
structure Called where
  callback : UserCallback
  session : Option Nat
  isStopped : Bool
  deriving DecidableEq, Repr

structure Client where
  config : Config := {}
  callbacks : Callbacks := {}
  state : State := .kNone
  reconnectWaitRemainSec : Int := 0
  spThread : Option Thread := none
  isTimerEnabled : Bool := false
  isReadEnabled : Bool := false
  isWriteEnabled : Bool := false
  /-- what is still to be run in the loop -/
  posted : List Posted := []
  /-- how often the client has been started -/
  session : Nat := 0
  /-- the sessions for which `stop` has returned -/
  stopped : List Nat := []
  /-- how many threads there have been, and which have been joined -/
  threads : Nat := 0
  joined : List Nat := []
  /-- for every result that was applied, of which session it was and to which it was applied -/
  applied : List (Nat × Nat) := []
  called : List Called := []
  deriving DecidableEq, Repr

namespace Client

def call (client : Client) (session : Option Nat) (callback : UserCallback) : Client :=
  if client.callbacks.has callback then
    { client with called := client.called ++
      [⟨callback, session, session.any fun session => session ∈ client.stopped⟩] }
  else client

def updateStateTo (client : Client) (session : Option Nat) (newState : State) : Client :=
  call { client with state := newState } session (.stateChanged newState)

def enableSocketRead (client : Client) (mosq : Mosq) : Client :=
  if mosq.socket < 0 then client else { client with isReadEnabled := true }

def enableSocketWrite (client : Client) (mosq : Mosq) : Client :=
  if mosq.socket < 0 then client else { client with isWriteEnabled := true }

def enableSocketWriteIfNeed (client : Client) (mosq : Mosq) : Client :=
  if mosq.wantWrite then client.enableSocketWrite mosq else client

def tryReconnect (client : Client) (session : Option Nat) : Client :=
  if client.config.autoReconnectEnable then
    if 0 < client.config.autoReconnectWaitSec then
      updateStateTo { client with reconnectWaitRemainSec := client.config.autoReconnectWaitSec } session .kReconnWaiting
    else updateStateTo { client with reconnectWaitRemainSec := 0 } session .kConnecting
  else client.updateStateTo session .kEnd

def handleDisconnectEvent (client : Client) (session : Option Nat) : Client :=
  let client := { client with isReadEnabled := false, isWriteEnabled := false }
  if client.state.isConnected then
    let isMqttDisconnected := decide (client.state = .kMqttConnected)
    let client := client.tryReconnect session
    client.call session (if isMqttDisconnected then .disconnected else .connectFail)
  else client

def onConnected (client : Client) (session : Option Nat) (rc : Int) : Client :=
  if rc ≠ 0 then client
  else if client.state ≠ .kMqttConnected then (client.updateStateTo session .kMqttConnected).call session .connected
  else client

def onCallback (session : Option Nat) (client : Client) : MosqCallback → Client
  | .connect rc => client.onConnected session rc
  | .disconnect _ => client.handleDisconnectEvent session
  | .publish => client.call session .messagePub
  | .message isNull => if isNull then client else client.call session .messageRecv
  | .subscribe => client.call session .subscribed
  | .unsubscribe => client.call session .unsubscribed
  | .log => client

def onCallbacks (client : Client) (session : Option Nat) (callbacks : List MosqCallback) : Client :=
  callbacks.foldl (onCallback session) client

def newThread (client : Client) (isReconnect : Bool) : Client :=
  { client with
    spThread := some { id := client.threads, session := client.session, isReconnect := isReconnect }
    threads := client.threads + 1 }

def joinThread (client : Client) (joinRet : Int) : Client :=
  match client.spThread with
  | none => client
  | some thread =>
    { client with
      posted := if thread.isFinished then client.posted else client.posted ++ [thread.posts joinRet]
      joined := client.joined ++ [thread.id]
      spThread := none }

def applyResult (client : Client) (result : Posted) (mosq : Mosq) : Client :=
  if result.ret = MOSQ_ERR_SUCCESS then
    ((client.enableSocketRead mosq).enableSocketWriteIfNeed mosq).updateStateTo (some result.session) .kTcpConnected
  else (client.tryReconnect (some result.session)).call (some result.session) .connectFail

def onTcpConnectDone (client : Client) (result : Posted) (mosq : Mosq) (joinRet : Int) : Client :=
  match client.spThread with
  | none => client
  | some _ =>
    applyResult
      { client.joinThread joinRet with applied := client.applied ++ [(result.session, client.session)] } result mosq

def initializeClient (client : Client) (config : Config) (callbacks : Callbacks) : Client :=
  if client.state ≠ .kNone then client
  else if !config.isValid then client
  else updateStateTo { client with config := config, callbacks := callbacks } none .kInited

def start (client : Client) (reinitialiseRet : Int) : Client :=
  if client.state ≠ .kInited ∧ client.state ≠ .kEnd then client
  else if reinitialiseRet ≠ MOSQ_ERR_SUCCESS then client
  else
    let client := { client with session := client.session + 1 }
    let client := client.updateStateTo (some client.session) .kConnecting
    newThread { client with spThread := none } false

/-- What `mosquitto_disconnect` calls back, and what connecting returns if it has to be waited for. -/
structure Parting where
  callbacks : List MosqCallback := []
  joinRet : Int := 0
  deriving DecidableEq, Repr

/-- A connection that is there is closed, and the rest of it left to `onDisconnected`; connecting is waited for. -/
def leave (client : Client) (parting : Parting) : Client :=
  if client.state.isConnected then client.onCallbacks (some client.session) parting.callbacks
  else client.joinThread parting.joinRet

def stopSession (client : Client) (parting : Parting) : Client :=
  if !client.state.isStarted ∨ client.state = .kEnd then client
  else updateStateTo { client.leave parting with isTimerEnabled := false } (some client.session) .kInited

def stop (client : Client) (parting : Parting) : Client :=
  let next := client.stopSession parting
  { next with stopped := client.session :: client.stopped }

def cleanup (client : Client) (parting : Parting) : Client :=
  if client.state = .kNone then client
  else
    let client := client.stop parting
    updateStateTo { client with config := {}, callbacks := {} } none .kNone

/-- `subscribe`, `unsubscribe` or `publish` -/
def request (client : Client) (mosq : Mosq) : Client :=
  if client.state ≠ .kMqttConnected then client
  else (client.onCallbacks (some client.session) mosq.callbacks).enableSocketWriteIfNeed mosq

def onTimerTick (client : Client) (mosq : Mosq) : Client :=
  if client.state.isConnected then
    let client := client.onCallbacks (some client.session) mosq.callbacks
    if 0 < mosq.socket then client.enableSocketWriteIfNeed mosq else client
  else if client.state = .kConnecting then
    if client.spThread = none then client.newThread true else client
  else if client.state = .kReconnWaiting then
    if 0 < client.reconnectWaitRemainSec then
      let client := { client with reconnectWaitRemainSec := client.reconnectWaitRemainSec - 1 }
      if client.reconnectWaitRemainSec = 0 then client.updateStateTo (some client.session) .kConnecting else client
    else client
  else if client.state = .kEnd then { client with isTimerEnabled := false }
  else client

def onSocketRead (client : Client) (mosq : Mosq) : Client :=
  (client.onCallbacks (some client.session) mosq.callbacks).enableSocketWriteIfNeed mosq

def onSocketWrite (client : Client) (mosq : Mosq) : Client :=
  (client.onCallbacks (some client.session) mosq.callbacks).enableSocketWriteIfNeed mosq

def onConnectDone (client : Client) (result : Posted) (mosq : Mosq) (joinRet : Int) : Client :=
  let client := client.onTcpConnectDone result mosq joinRet
  if result.isReconnect then client else { client with isTimerEnabled := true }

end Client

inductive Action where
  | initializeClient (config : Config) (callbacks : Callbacks)
  | start (reinitialiseRet : Int)
  | stop (parting : Client.Parting)
  | cleanup (parting : Client.Parting)
  | request (mosq : Mosq)
  /-- `mosquitto_connect_async` or `mosquitto_reconnect_async` has returned in the thread -/
  | connectDone (ret : Int)
  /-- the loop gets to what was posted first -/
  | runPosted (mosq : Mosq) (joinRet : Int)
  | timerTick (mosq : Mosq)
  | socketRead (mosq : Mosq)
  | socketWrite (mosq : Mosq)

def Client.step (client : Client) : Action → Option Client
  | .initializeClient config callbacks => some (client.initializeClient config callbacks)
  | .start reinitialiseRet => some (client.start reinitialiseRet)
  | .stop parting => some (client.stop parting)
  | .cleanup parting => some (client.cleanup parting)
  | .request mosq => some (client.request mosq)
  | .connectDone ret =>
    match client.spThread with
    | none => none
    | some thread =>
      if thread.isFinished then none
      else
        some { client with
          posted := client.posted ++ [thread.posts ret]
          spThread := some { thread with isFinished := true } }
  | .runPosted mosq joinRet =>
    match client.posted with
    | [] => none
    | result :: later => some (onConnectDone { client with posted := later } result mosq joinRet)
  | .timerTick mosq => if client.isTimerEnabled then some (client.onTimerTick mosq) else none
  | .socketRead mosq => if client.isReadEnabled then some (client.onSocketRead mosq) else none
  -- the write event is for one time
  | .socketWrite mosq =>
    if client.isWriteEnabled then some (onSocketWrite { client with isWriteEnabled := false } mosq) else none

end Tbox.Mqtt
