import Tbox.Network.BufferedFd

/-!
# The TCP connector

`network/tcp_connector.cpp`. What the system answers to an attempt comes with the action. A callback with code behind
it waits on a stack until it returns; what it does to the connector are the actions before that.
-/

namespace Tbox.Network

namespace TcpConnector

inductive State where
  | kNone
  | kInited
  | kReconnectDelay
  | kConnecting
  deriving DecidableEq, Repr

/-- `SockAddr::Type` -/
inductive AddrType where
  | kNone
  | kIPv4
  | kLocal
  deriving DecidableEq, Repr

end TcpConnector

open TcpConnector

def EINTR : Errno := 4
def ENOENT : Errno := 2
def EADDRINUSE : Errno := 98
def EADDRNOTAVAIL : Errno := 99
def ENETUNREACH : Errno := 101
def EISCONN : Errno := 106
def ECONNREFUSED : Errno := 111
def EINPROGRESS : Errno := 115

/-- The write event is whether it is enabled, the callbacks whether they are set. -/
structure TcpConnector where
  state : State := .kNone
  serverAddr : AddrType := .kNone
  connectedCb : Bool := false
  connectFailCb : Bool := false
  reconnDelayCalcFunc : Bool := false
  tryTimes : Int := 0
  spWriteEv : Option Bool := none
  spDelayEv : Option Unit := none
  connFailTimes : Nat := 0
  deriving DecidableEq, Repr

namespace TcpConnector

inductive Attempt where
  | noSocket
  | answered (connErrno : Errno)
  deriving DecidableEq, Repr

inductive Callback where
  | connected
  | connectFail
  | delayCalc
  deriving DecidableEq, Repr

inductive Frame where
  | connectFail
  | delayCalc
  deriving DecidableEq, Repr

/-- What is going on on behalf of the last `start`. -/
inductive Series where
  | going
  | over
  /-- `stop` or `cleanup` has been called since -/
  | stopped
  deriving DecidableEq, Repr

structure Call where
  callback : Callback
  connector : TcpConnector
  series : Series
  deriving DecidableEq, Repr

/-- An attempt that failed: which one it was since `start`, and whether the failure was reported. -/
structure Failure where
  count : Nat
  tryTimes : Int
  connectFailCb : Bool
  reported : Bool
  deriving DecidableEq, Repr

structure World where
  connector : TcpConnector := {}
  stack : List Frame := []
  /-- the attempts that failed since the last `start` -/
  failed : Nat := 0
  series : Series := .over
  calls : List Call := []
  failures : List Failure := []
  /-- a null event has been dereferenced -/
  crashed : Bool := false
  deriving DecidableEq, Repr

def checkSettingAndTryEnterIdleState (c : TcpConnector) : TcpConnector :=
  if c.state = .kNone then
    if c.serverAddr ≠ .kNone ∧ c.connectedCb then { c with state := .kInited } else c
  else c

/-- `initialize` -/
def setServerAddr (c : TcpConnector) (serverAddr : AddrType) : TcpConnector :=
  { c with serverAddr := serverAddr }.checkSettingAndTryEnterIdleState

def setConnectedCallback (c : TcpConnector) (cb : Bool) : TcpConnector :=
  { c with connectedCb := cb }.checkSettingAndTryEnterIdleState

def createSocket (c : TcpConnector) (attempt : Attempt) : Attempt :=
  if c.serverAddr = .kNone then .noSocket else attempt

def InProgress (connErrno : Errno) : Prop :=
  connErrno = 0 ∨ connErrno = EINPROGRESS ∨ connErrno = EINTR ∨ connErrno = EISCONN

instance (connErrno : Errno) : Decidable (InProgress connErrno) :=
  inferInstanceAs (Decidable (_ ∨ _))

def MayRetry (connErrno : Errno) : Prop :=
  connErrno = EAGAIN ∨ connErrno = EADDRINUSE ∨ connErrno = EADDRNOTAVAIL
    ∨ connErrno = ECONNREFUSED ∨ connErrno = ENETUNREACH ∨ connErrno = ENOENT

instance (connErrno : Errno) : Decidable (MayRetry connErrno) :=
  inferInstanceAs (Decidable (_ ∨ _))

def LastTry (c : TcpConnector) : Prop := c.tryTimes > 0 ∧ (c.connFailTimes + 1 : Int) ≥ c.tryTimes

instance (c : TcpConnector) : Decidable c.LastTry := inferInstanceAs (Decidable (_ ∧ _))

namespace World

def call (w : World) (callback : Callback) : World :=
  { w with calls := w.calls ++ [⟨callback, w.connector, w.series⟩] }

def exitConnectingState (w : World) : World :=
  match w.connector.spWriteEv with
  | none => { w with crashed := true }
  | some _ => { w with connector := { w.connector with spWriteEv := none } }

def exitReconnectDelayState (w : World) : World :=
  match w.connector.spDelayEv with
  | none => { w with crashed := true }
  | some _ => { w with connector := { w.connector with spDelayEv := none } }

/-- `enterReconnectDelayState` behind the calculation of the delay -/
def startDelay (w : World) : World :=
  { w with connector := { w.connector with spDelayEv := some (), state := .kReconnectDelay } }

def enterReconnectDelayState (w : World) : World :=
  if w.connector.reconnDelayCalcFunc then
    { w.call .delayCalc with stack := .delayCalc :: w.stack }
  else w.startDelay

def failedAttempt (w : World) (reported : Bool) : World :=
  { w with
    failed := w.failed + 1
    failures := w.failures
      ++ [⟨w.failed + 1, w.connector.tryTimes, w.connector.connectFailCb, reported⟩] }

def onConnectFail (w : World) : World :=
  let reports := decide w.connector.LastTry
  let w := w.failedAttempt (reports && w.connector.connectFailCb)
  let w := { w with connector := { w.connector with connFailTimes := w.connector.connFailTimes + 1 } }
  if reports then
    let w := { w with series := .over }
    if w.connector.connectFailCb then { w.call .connectFail with stack := .connectFail :: w.stack }
    else { w with connector := { w.connector with state := .kInited } }
  else w.enterReconnectDelayState

def enterConnectingState (w : World) (attempt : Attempt) : World :=
  match w.connector.createSocket attempt with
  | .noSocket => { w.failedAttempt false with series := .over }
  | .answered connErrno =>
    if InProgress connErrno then
      { w with connector := { w.connector with spWriteEv := some true, state := .kConnecting } }
    else if MayRetry connErrno then w.onConnectFail
    else
      { w.failedAttempt false with
        connector := { w.connector with state := .kNone }, series := .over }

def start (w : World) (attempt : Attempt) : World :=
  if w.connector.state ≠ .kInited then w
  else
    { w with
      connector := { w.connector with connFailTimes := 0 }
      failed := 0
      series := .going }.enterConnectingState attempt

def stop (w : World) : World :=
  let w := { w with series := .stopped }
  match w.connector.state with
  | .kInited | .kNone => w
  | .kConnecting =>
    let w := w.exitConnectingState
    { w with connector := { w.connector with state := .kInited } }
  | .kReconnectDelay =>
    let w := w.exitReconnectDelayState
    { w with connector := { w.connector with state := .kInited } }

def cleanup (w : World) : World :=
  if w.connector.state = .kNone then { w with series := .stopped }
  else
    let w := w.stop
    { w with
      connector := { w.connector with
        connectedCb := false, connectFailCb := false, reconnDelayCalcFunc := false, tryTimes := 0,
        connFailTimes := 0, state := .kNone } }

/-- `onSocketWritable`, with what is read of SO_ERROR, if it can be read. The event fires once. -/
def onSocketWritable (w : World) (sockErrno : Option Errno) : World :=
  let w := { w with connector := { w.connector with spWriteEv := some false } }
  match sockErrno with
  | none => w
  | some 0 =>
    let w := w.exitConnectingState
    let w := { w with connector := { w.connector with state := .kInited } }
    let w := { w with series := .over }
    if w.connector.connectedCb then w.call .connected else w
  | some (_ + 1) => w.exitConnectingState.onConnectFail

def onDelayTimeout (w : World) (attempt : Attempt) : World :=
  w.exitReconnectDelayState.enterConnectingState attempt

def resume (w : World) : Frame → World
  | .connectFail => { w with connector := { w.connector with state := .kInited } }
  | .delayCalc => w.startDelay

end World

inductive Action where
  | setServerAddr (serverAddr : AddrType)
  | setConnectedCallback (cb : Bool)
  | setConnectFailCallback (cb : Bool)
  | setReconnectDelayCalcFunc
  | setTryTimes (tryTimes : Int)
  | start (attempt : Attempt)
  | stop
  | cleanup
  | writable (sockErrno : Option Errno)
  | delayTimeout (attempt : Attempt)
  /-- the innermost callback returns -/
  | returned
  deriving DecidableEq, Repr

namespace World

/-- The loop comes to the events when no callback is under way. Nothing follows on a crash. -/
def step (w : World) (a : Action) : Option World :=
  if w.crashed then none
  else
    match a with
    | .setServerAddr serverAddr => some { w with connector := w.connector.setServerAddr serverAddr }
    | .setConnectedCallback cb => some { w with connector := w.connector.setConnectedCallback cb }
    | .setConnectFailCallback cb => some { w with connector := { w.connector with connectFailCb := cb } }
    | .setReconnectDelayCalcFunc =>
      some { w with connector := { w.connector with reconnDelayCalcFunc := true } }
    | .setTryTimes tryTimes => some { w with connector := { w.connector with tryTimes := tryTimes } }
    | .start attempt => some (w.start attempt)
    | .stop => some w.stop
    | .cleanup => some w.cleanup
    | .writable sockErrno =>
      if w.stack = [] ∧ w.connector.spWriteEv = some true then some (w.onSocketWritable sockErrno)
      else none
    | .delayTimeout attempt =>
      if w.stack = [] ∧ w.connector.spDelayEv = some () then some (w.onDelayTimeout attempt)
      else none
    | .returned =>
      match w.stack with
      | [] => none
      | frame :: stack => some ({ w with stack := stack }.resume frame)

end World

end TcpConnector

end Tbox.Network
