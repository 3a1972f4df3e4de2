import Tbox.Network.TcpConnector

/-!
# The TCP client

`network/tcp_client.cpp`. The client owns its connector and sets no number of tries, callback for failures or delay.
The user's callbacks stand last, so what they do are the actions that follow. A connection is known by its number.
-/

namespace Tbox.Network

open TcpConnector (AddrType Attempt)

namespace TcpClient

abbrev ConnId := Nat

inductive State where
  | kNone
  | kInited
  | kConnecting
  | kConnected
  deriving DecidableEq, Repr

end TcpClient

structure TcpClient where
  state : TcpClient.State := .kNone
  reconnectEnabled : Bool := true
  spConnector : TcpConnector.World := {}
  spConnection : Option TcpClient.ConnId := none
  /-- the number of connections that have been made -/
  made : Nat := 0
  /-- the connections whose deletion has been given to the loop -/
  tobeDelete : List TcpClient.ConnId := []
  deriving DecidableEq, Repr

namespace TcpClient

def connector (c : TcpClient) : TcpConnector := c.spConnector.connector

def initializeClient (c : TcpClient) (serverAddr : AddrType) : TcpClient :=
  if c.state ≠ .kNone then c
  else
    let w := c.spConnector
    { c with
      spConnector := { w with connector := (w.connector.setServerAddr serverAddr).setConnectedCallback true }
      state := .kInited }

def setAutoReconnect (c : TcpClient) (enable : Bool) : TcpClient := { c with reconnectEnabled := enable }

/-- `attempt` is what the system answers to the connector. -/
def start (c : TcpClient) (attempt : Attempt) : TcpClient :=
  if c.state ≠ .kInited then c
  else { c with state := .kConnecting, spConnector := c.spConnector.start attempt }

def releaseConnection (c : TcpClient) : TcpClient :=
  { c with spConnection := none, tobeDelete := c.tobeDelete ++ c.spConnection.toList }

def stop (c : TcpClient) : TcpClient :=
  match c.state with
  | .kConnecting => { c with state := .kInited, spConnector := c.spConnector.stop }
  | .kConnected => { c.releaseConnection with state := .kInited }
  | .kNone | .kInited => c

def cleanup (c : TcpClient) : TcpClient :=
  if c.state = .kNone then c
  else
    let c := c.stop
    { c with spConnector := c.spConnector.cleanup, reconnectEnabled := true, state := .kNone }

/-- `onTcpConnected` up to the callback of the user. -/
def onTcpConnected (c : TcpClient) : TcpClient :=
  { c with spConnection := some c.made, made := c.made + 1, state := .kConnected }

/-- `onTcpDisconnected` up to the callback of the user. -/
def onTcpDisconnected (c : TcpClient) (attempt : Attempt) : TcpClient :=
  let c := { c.releaseConnection with state := .kInited }
  if c.reconnectEnabled then c.start attempt else c

/-- `TcpConnector::onSocketWritable`, with the callback of the connector. -/
def onSocketWritable (c : TcpClient) (sockErrno : Option Errno) : TcpClient :=
  let calls := c.spConnector.calls.length
  let c := { c with spConnector := c.spConnector.onSocketWritable sockErrno }
  if calls < c.spConnector.calls.length then c.onTcpConnected else c

/-- `TcpConnector::onDelayTimeout` -/
def onDelayTimeout (c : TcpClient) (attempt : Attempt) : TcpClient :=
  { c with spConnector := c.spConnector.onDelayTimeout attempt }

inductive Action where
  | initializeClient (serverAddr : AddrType)
  | setAutoReconnect (enable : Bool)
  | start (attempt : Attempt)
  | stop
  | cleanup
  /-- the socket of the connector is writable; what is read of SO_ERROR, if it can be read -/
  | writable (sockErrno : Option Errno)
  | delayTimeout (attempt : Attempt)
  /-- the connection is closed by the peer, or cannot be read -/
  | closed (attempt : Attempt)
  /-- the loop deletes the connections it has been given -/
  | runNext
  deriving DecidableEq, Repr

/-- The connector reports before anything else is done. Nothing follows on a crash. -/
def step (c : TcpClient) (a : Action) : Option TcpClient :=
  if c.spConnector.crashed then none
  else
    match a with
    | .initializeClient serverAddr => some (c.initializeClient serverAddr)
    | .setAutoReconnect enable => some (c.setAutoReconnect enable)
    | .start attempt => some (c.start attempt)
    | .stop => some c.stop
    | .cleanup => some c.cleanup
    | .writable sockErrno =>
      if c.connector.spWriteEv = some true then some (c.onSocketWritable sockErrno) else none
    | .delayTimeout attempt => if c.connector.spDelayEv = some () then some (c.onDelayTimeout attempt) else none
    | .closed attempt => if c.spConnection.isSome then some (c.onTcpDisconnected attempt) else none
    | .runNext => some { c with tobeDelete := [] }

end TcpClient

end Tbox.Network
