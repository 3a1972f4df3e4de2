import Tbox.Proof.CabinetWellFormed

/-!
# The TCP server

`tcp_server.cpp`, `tcp_connection.cpp` and what `tcp_acceptor.cpp` does with a new connection of `network`. A
`TcpConnection *` is the number of its `accept`. At most one callback of the user is running; what is done in it are
the actions that come before it returns.
-/

namespace Tbox.Network

open Cabinet (Token)

namespace TcpServer

abbrev ConnPtr := Nat

inductive State where
  | kNone
  | kInited
  | kRunning
  deriving DecidableEq, Repr

inductive Callback where
  | connected
  | received
  | sendCompleted
  | disconnected
  deriving DecidableEq, Repr

inductive Task where
  | deleteConn (conn : Option ConnPtr)
  | deleteFd (conn : ConnPtr)
  deriving DecidableEq, Repr

end TcpServer

structure TcpConnection where
  /-- the token that its callbacks are bound to -/
  token : Token := {}
  /-- whether `sp_buffered_fd_` is set: the descriptor is then enabled -/
  spBufferedFd : Bool := false
  /-- how often it has been deleted -/
  deleted : Nat := 0
  /-- how often its descriptor has been deleted -/
  fdDeleted : Nat := 0
  /-- whether `disconnect` or `stop` of the server has ended it -/
  ended : Bool := false
  deriving DecidableEq, Repr

structure TcpServer.DisconnectedCall where
  conn : ConnPtr
  tokenValid : Bool
  ended : Bool
  deriving DecidableEq, Repr

structure TcpServer where
  state : TcpServer.State := .kNone
  conns : Cabinet TcpServer.ConnPtr := .empty
  connection : TcpServer.ConnPtr → TcpConnection := fun _ => {}
  /-- the number of connections that have been accepted -/
  accepted : Nat := 0
  /-- the deletions that wait in the loop, in order -/
  tasks : List TcpServer.Task := []
  /-- the callback that is on the stack, and whose it is -/
  running : Option (TcpServer.Callback × TcpServer.ConnPtr) := none
  disconnectedCalls : List TcpServer.DisconnectedCall := []

namespace TcpServer

def setConnection (s : TcpServer) (c : ConnPtr) (conn : TcpConnection) : TcpServer :=
  { s with connection := Function.update s.connection c conn }

def runNext (s : TcpServer) (task : Task) : TcpServer := { s with tasks := s.tasks ++ [task] }

/-- `delete tmp` of what `sp_buffered_fd_` has pointed to -/
def deleteBufferedFd (s : TcpServer) (c : ConnPtr) : TcpServer :=
  s.setConnection c { s.connection c with fdDeleted := (s.connection c).fdDeleted + 1 }

/-- `~TcpConnection`, which deletes the descriptor if it is still there -/
def deleteConnection (s : TcpServer) (c : ConnPtr) : TcpServer :=
  let s := s.setConnection c { s.connection c with deleted := (s.connection c).deleted + 1 }
  if (s.connection c).spBufferedFd then
    (s.setConnection c { s.connection c with spBufferedFd := false }).deleteBufferedFd c
  else s

def swapBufferedFd (s : TcpServer) (c : ConnPtr) : TcpServer :=
  (s.setConnection c { s.connection c with spBufferedFd := false }).runNext (.deleteFd c)

/-- `TcpConnection::disconnect`, which only the server calls -/
def disconnectConnection (s : TcpServer) (c : ConnPtr) : TcpServer :=
  let s := s.setConnection c { s.connection c with ended := true }
  if (s.connection c).spBufferedFd then s.swapBufferedFd c else s

def initializeServer (s : TcpServer) (ok : Bool) : TcpServer :=
  if s.state ≠ .kNone then s
  else if ok then { s with state := .kInited } else s

def start (s : TcpServer) (ok : Bool) : TcpServer :=
  if s.state ≠ .kInited then s
  else if ok then { s with state := .kRunning } else s

/-- What `stop` does with each connection. -/
def stopConnection (s : TcpServer) : Option ConnPtr → TcpServer
  | some c => (s.disconnectConnection c).deleteConnection c
  | none => s

def stop (s : TcpServer) : TcpServer :=
  if s.state ≠ .kRunning then s
  else { s.conns.objects.foldl stopConnection s with conns := s.conns.clear, state := .kInited }

def cleanup (s : TcpServer) : TcpServer :=
  if s.state = .kNone then s
  else { s.stop with state := .kNone }

def disconnect (s : TcpServer) (client : Token) : TcpServer :=
  let (conn, conns) := s.conns.free client
  match conn with
  | some c => ({ s with conns := conns }.disconnectConnection c).runNext (.deleteConn (some c))
  | none => { s with conns := conns }

/-- `TcpAcceptor::onClientConnected` and `TcpServer::onTcpConnected`, as far as the callback of the user -/
def onTcpConnected (s : TcpServer) : TcpServer :=
  let c := s.accepted
  let (client, conns) := s.conns.alloc (some c)
  { s.setConnection c { token := client, spBufferedFd := true } with
    conns := conns, accepted := c + 1, running := some (.connected, c) }

/-- `TcpConnection::onSocketClosed` and `TcpServer::onTcpDisconnected`, as far as the callback of the user -/
def onSocketClosed (s : TcpServer) (c : ConnPtr) : TcpServer :=
  { s.swapBufferedFd c with
    running := some (.disconnected, c)
    disconnectedCalls := s.disconnectedCalls ++
      [⟨c, s.conns.at? (s.connection c).token == some c, (s.connection c).ended⟩] }

def onReturned (s : TcpServer) : Callback × ConnPtr → TcpServer
  | (.disconnected, c) =>
    let (conn, conns) := s.conns.free (s.connection c).token
    { s with conns := conns, running := none }.runNext (.deleteConn conn)
  | _ => { s with running := none }

def runTask (s : TcpServer) : Task → TcpServer
  | .deleteConn (some c) => s.deleteConnection c
  | .deleteConn none => s
  | .deleteFd c => s.deleteBufferedFd c

inductive Action where
  /-- `ok` is whether the acceptor can be initialized -/
  | initializeServer (ok : Bool)
  | start (ok : Bool)
  | stop
  | cleanup
  /-- `send` and `shutdown` leave the lifetime of the connection alone, whatever they return -/
  | send (client : Token)
  | shutdown (client : Token)
  | disconnect (client : Token)
  /-- the acceptor takes a new connection -/
  | accept
  /-- data has come for the connection -/
  | received (conn : ConnPtr)
  /-- the connection is writable, and there is nothing more to send -/
  | sendCompleted (conn : ConnPtr)
  /-- the peer has closed the connection, or it cannot be read -/
  | closed (conn : ConnPtr)
  /-- the callback of the user returns -/
  | returned
  /-- the loop runs the first of the deletions -/
  | runTask
  deriving DecidableEq, Repr

def Readable (s : TcpServer) (c : ConnPtr) : Prop := s.running = none ∧ (s.connection c).spBufferedFd = true

instance (s : TcpServer) (c : ConnPtr) : Decidable (s.Readable c) := inferInstanceAs (Decidable (_ ∧ _))

def step (s : TcpServer) : Action → Option TcpServer
  | .initializeServer ok => some (s.initializeServer ok)
  | .start ok => some (s.start ok)
  | .stop => some s.stop
  | .cleanup => if s.running = none then some s.cleanup else none
  | .send _ => some s
  | .shutdown _ => some s
  | .disconnect client => some (s.disconnect client)
  | .accept => if s.running = none ∧ s.state = .kRunning then some s.onTcpConnected else none
  | .received c => if s.Readable c then some { s with running := some (.received, c) } else none
  | .sendCompleted c => if s.Readable c then some { s with running := some (.sendCompleted, c) } else none
  | .closed c => if s.Readable c then some (s.onSocketClosed c) else none
  | .returned => s.running.map s.onReturned
  | .runTask =>
    match s.running, s.tasks with
    | none, task :: rest => some ({ s with tasks := rest }.runTask task)
    | _, _ => none

end TcpServer

end Tbox.Network
