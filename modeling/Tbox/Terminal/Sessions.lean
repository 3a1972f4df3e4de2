import Tbox.Terminal.KeyEvents
import Tbox.Terminal.Telnetd

/-!
# The sessions of a telnet server

`Telnetd::Impl` and `Terminal::Impl` with the connections between them and the tasks that wait in the loop. A session,
and the pointer to its context, is known by its token.
-/

namespace Tbox.Terminal

open Tbox.Lib (Bytes)

abbrev ConnToken := Nat

abbrev SessionToken := Nat

inductive Task where
  /-- of `executeExitCmd`, with the pointer to the context -/
  | exit (s : SessionToken)
  /-- of `Telnetd::Impl::endSession` -/
  | endSession (st : SessionToken) (ct : ConnToken)
  deriving DecidableEq, Repr

inductive Fault where
  /-- a context is used that has been deleted -/
  | freed
  /-- `at` throws `std::out_of_range` -/
  | lookup
  | aborted
  deriving DecidableEq, Repr

structure Service where
  /-- the connections, each with what it has received and not taken -/
  conns : ConnToken → Option Bytes := fun _ => none
  clientToSession : ConnToken → Option SessionToken := fun _ => none
  sessionToClient : SessionToken → Option ConnToken := fun _ => none
  sessions : SessionToken → Option SessionContext := fun _ => none
  nextConn : ConnToken := 0
  nextSession : SessionToken := 0
  tasks : List Task := []
  fault : Option Fault := none
  /-- the sessions that have left the maps, and those whose contexts have been freed -/
  ended : List SessionToken := []
  deleted : List SessionToken := []

namespace Service

def fail (w : Service) (fault : Fault) : Service := { w with fault := some fault }

def post (w : Service) (task : Task) : Service := { w with tasks := w.tasks ++ [task] }

/-- `erase` in both maps. -/
def erase (w : Service) (ct : ConnToken) (st : SessionToken) : Service :=
  { w with
    clientToSession := Function.update w.clientToSession ct none
    sessionToClient := Function.update w.sessionToClient st none
    ended := w.ended ++ if (w.sessionToClient st).isSome then [st] else [] }

/-- `Terminal::Impl::newSession`, with what `onTcpConnected` puts into the maps. -/
def newSession (w : Service) (ct : ConnToken) : Service :=
  { w with
    sessions := Function.update w.sessions w.nextSession (some {})
    clientToSession := Function.update w.clientToSession ct (some w.nextSession)
    sessionToClient := Function.update w.sessionToClient w.nextSession (some ct)
    nextSession := w.nextSession + 1 }

def deleteSession (w : Service) (st : SessionToken) : Service :=
  match w.sessions st with
  | none => w
  | some _ => { w with sessions := Function.update w.sessions st none, deleted := w.deleted ++ [st] }

/-- `Telnetd::Impl::send`. The connection may be gone. -/
def send (w : Service) (st : SessionToken) : Service :=
  match w.sessionToClient st with
  | none => w.fail .lookup
  | some _ => w

def endSession (w : Service) (st : SessionToken) : Service :=
  match w.sessionToClient st with
  | none => w.fail .lookup
  | some ct => w.post (.endSession st ct)

def perform (w : Service) (st : SessionToken) : Deed → Service
  | .send => w.send st
  | .endSession => w.endSession st
  | .exit => w.post (.exit st)
  | .abort => w.fail .aborted

def performAll (st : SessionToken) : List Deed → Service → Service
  | [], w => w
  | deed :: deeds, w =>
    let w := w.perform st deed
    if w.fault.isSome then w else performAll st deeds w

/-- `onTcpConnected`; `onBegin` sends a welcome and a prompt. -/
def onTcpConnected (w : Service) : Service :=
  let w' := ({ w with conns := Function.update w.conns w.nextConn (some []), nextConn := w.nextConn + 1 }).newSession
    w.nextConn
  performAll w.nextSession [.send, .send, .send] w'

/-- `onTcpDisconnected`, and then that of the `TcpServer`. -/
def onTcpDisconnected (w : Service) (ct : ConnToken) : Service :=
  match w.clientToSession ct with
  | none => w.fail .lookup
  | some st =>
    let w := (w.erase ct st).deleteSession st
    { w with conns := Function.update w.conns ct none }

end Service

def hear (nodes : Nodes) (s : SessionContext) : Telnetd.Effect → Pressed
  | .recvString str => onRecvString nodes s str
  | .send _ => (s, [])
  | .enableEcho => ({ s with options := s.options ||| kEnableEcho }, [])
  | .recvWindowSize width height => ({ s with windowWidth := width, windowHeight := height }, [])

def hearAll (nodes : Nodes) : List Telnetd.Effect → SessionContext → Pressed
  | [], s => (s, [])
  | effect :: effects, s =>
    let first := hear nodes s effect
    let rest := hearAll nodes effects first.1
    (rest.1, first.2 ++ rest.2)

def Telnetd.Call.asks : Telnetd.Call → Bool
  | .cmd _ => false
  | _ => true

namespace Service

def onCall (nodes : Nodes) (ct : ConnToken) (w : Service) (callback : Telnetd.Callback) : Service :=
  if callback.call.asks then
    match w.clientToSession ct with
    | none => w.fail .lookup
    | some st =>
      match w.sessions st with
      | none => w
      | some s =>
        let heard := hearAll nodes callback.effects s
        performAll st heard.2 { w with sessions := Function.update w.sessions st (some heard.1) }
  else w

def onCalls (nodes : Nodes) (ct : ConnToken) : List Telnetd.Callback → Service → Service
  | [], w => w
  | callback :: callbacks, w =>
    let w := w.onCall nodes ct callback
    if w.fault.isSome then w else onCalls nodes ct callbacks w

def onTcpReceived (w : Service) (nodes : Nodes) (ct : ConnToken) (received data : Bytes) : Service :=
  let after := Telnetd.onTcpReceived { rest := received } data
  onCalls nodes ct after.messages { w with conns := Function.update w.conns ct (some after.rest) }

def runTask (w : Service) : Task → Service
  | .exit s =>
    match w.sessions s with
    | none => w.fail .freed
    | some _ =>
      let w := w.endSession s
      if w.fault.isSome then w else w.deleteSession s
  | .endSession st ct =>
    let w := w.erase ct st
    { w with conns := Function.update w.conns ct none }

end Service

inductive Action where
  | connect
  | disconnect (ct : ConnToken)
  | receive (ct : ConnToken) (data : Bytes) (nodes : Nodes)
  /-- the task at that place -/
  | runTask (i : Nat)

def Service.step (w : Service) (action : Action) : Option Service :=
  if w.fault.isSome then none
  else
    match action with
    | .connect => some w.onTcpConnected
    | .disconnect ct => (w.conns ct).map fun _ => w.onTcpDisconnected ct
    | .receive ct data nodes => (w.conns ct).map fun received => w.onTcpReceived nodes ct received data
    | .runTask i => w.tasks[i]?.map fun task => runTask { w with tasks := w.tasks.eraseIdx i } task

end Tbox.Terminal
