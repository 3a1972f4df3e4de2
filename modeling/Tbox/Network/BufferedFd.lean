import Tbox.Lib.Run
import Tbox.Network.Buffer

/-!
# Buffered descriptors

`network/buffered_fd.cpp`. What a `write` or a `readv` answers comes with the action. Callbacks come last in the
functions that make them, so what they do is what is done next. A receiver may be the descriptor itself.
-/

namespace Tbox.Network

open Tbox.Lib (Bytes)

abbrev Errno := Nat

def EAGAIN : Errno := 11

inductive WriteResult where
  /-- at most all of what was given -/
  | wrote (size : Nat)
  | failed (errno : Errno)
  deriving DecidableEq, Repr

/-- The answer of a `readv` that has no bytes. -/
inductive ReadEnd where
  | zero
  | failed (errno : Errno)
  deriving DecidableEq, Repr

namespace BufferedFd

inductive State where
  | kEmpty
  | kInited
  | kRunning
  deriving DecidableEq, Repr

inductive Callback where
  | receive
  | sendComplete
  | readZero
  | readError
  | writeError
  deriving DecidableEq, Repr

/-- A call of one of them, or of `send` on a receiver that is not the descriptor itself. -/
inductive Call where
  | received (data : Bytes)
  | sendCompleted
  | readZero
  | readError (errno : Errno)
  | writeError (errno : Errno)
  | forwarded (data : Bytes)
  deriving DecidableEq, Repr

inductive Receiver where
  | self
  | other
  deriving DecidableEq, Repr

def kReadOnly : BitVec 16 := 1
def kWriteOnly : BitVec 16 := 2
def kReadWrite : BitVec 16 := 3

/-- `sizeof(extbuf)` -/
def extbufSize : Nat := 1024

end BufferedFd

open BufferedFd

structure BufferedFd where
  state : State := .kEmpty
  spReadEvent : Option Bool := none
  spWriteEvent : Option Bool := none
  sendBuff : Buffer := {}
  recvBuff : Buffer := {}
  callbacks : List Callback := []
  wpReceiver : Option Receiver := none
  receiveThreshold : Nat := 0
  deriving DecidableEq, Repr

def BufferedFd.initialize (fd : BufferedFd) (isNull : Bool) (events : BitVec 16) : BufferedFd × Bool :=
  if isNull then (fd, false)
  else if events = 0 then (fd, false)
  else if fd.state ≠ .kEmpty then (fd, false)
  else
    ({ fd with
        spReadEvent := if events &&& kReadOnly ≠ 0 then some false else none
        spWriteEvent := if events &&& kWriteOnly ≠ 0 then some false else none
        state := .kInited }, true)

namespace BufferedFd

def enable (fd : BufferedFd) : BufferedFd × Bool :=
  if fd.state = .kRunning then (fd, true)
  else if fd.state ≠ .kInited then (fd, false)
  else
    ({ fd with spReadEvent := fd.spReadEvent.map fun _ => true, state := .kRunning }, true)

def disable (fd : BufferedFd) : BufferedFd × Bool :=
  if fd.state = .kInited then (fd, true)
  else if fd.state ≠ .kRunning then (fd, false)
  else
    ({ fd with
        spReadEvent := fd.spReadEvent.map fun _ => false
        spWriteEvent := fd.spWriteEvent.map fun _ => false
        state := .kInited }, true)

end BufferedFd

namespace Buffer

/-- One `readv` into the free space and, behind it, into `extbuf`. -/
def receive (b : Buffer) (data : Bytes) : Buffer :=
  let writableSize := b.writableSize
  if data.length > writableSize then
    ((b.store (data.take writableSize)).hasWritten writableSize).append (data.drop writableSize)
  else (b.store data).hasWritten data.length

/-- The loop of `onReadCallback` over the `readv`s that gave bytes. -/
def receiveAll (b : Buffer) : List Bytes → Option Buffer
  | [] => some b
  | data :: rest =>
    if data = [] ∨ data.length > b.writableSize + extbufSize then none
    else (b.receive data).receiveAll rest

end Buffer

structure Stream where
  fd : BufferedFd := {}
  /-- the data of the sends that returned true -/
  accepted : Bytes := []
  /-- what the `write`s have taken -/
  written : Bytes := []
  /-- what the `readv`s have given -/
  read : Bytes := []
  /-- what has been taken out of `recv_buff_` -/
  consumed : Bytes := []
  calls : List Call := []
  deriving DecidableEq, Repr

namespace Stream

def call (s : Stream) (callback : Callback) (call : Call) : Stream :=
  if callback ∈ s.fd.callbacks then { s with calls := s.calls ++ [call] } else s

/-- `send`, with what the descriptor answers if it is written to. -/
def send (s : Stream) (data : Bytes) (result : WriteResult) : Stream × Bool :=
  if s.fd.spWriteEvent = none then (s, false)
  else
    let s := { s with accepted := s.accepted ++ data }
    if s.fd.state ≠ .kRunning ∨ s.fd.sendBuff.readableSize > 0 then
      ({ s with fd := { s.fd with sendBuff := s.fd.sendBuff.append data } }, true)
    else
      match result with
      | .wrote size =>
        let sendBuff :=
          if size < data.length then s.fd.sendBuff.append (data.drop size) else s.fd.sendBuff
        ({ s with
            fd := { s.fd with sendBuff := sendBuff, spWriteEvent := some true }
            written := s.written ++ data.take size }, true)
      | .failed errno =>
        if errno = EAGAIN then
          let sendBuff := s.fd.sendBuff.append data
          ({ s with fd := { s.fd with sendBuff := sendBuff, spWriteEvent := some true } }, true)
        else (s, true)

/-- `recv_buff_.hasRead`, by the user. -/
def consume (s : Stream) (size : Nat) : Stream :=
  { s with
    fd := { s.fd with recvBuff := s.fd.recvBuff.hasRead size }
    consumed := s.consumed ++ s.fd.recvBuff.readable.take size }

/-- `recv_buff_.hasReadAll` -/
def consumeAll (s : Stream) : Stream :=
  { s with
    fd := { s.fd with recvBuff := s.fd.recvBuff.hasReadAll }
    consumed := s.consumed ++ s.fd.recvBuff.readable }

def deliver (s : Stream) (result : WriteResult) : Stream :=
  match s.fd.wpReceiver with
  | some .self => (s.send s.fd.recvBuff.readable result).1.consumeAll
  | some .other =>
    { s with calls := s.calls ++ [Call.forwarded s.fd.recvBuff.readable] }.consumeAll
  | none =>
    if s.fd.recvBuff.readableSize ≥ s.fd.receiveThreshold then
      if .receive ∈ s.fd.callbacks then s.call .receive (.received s.fd.recvBuff.readable)
      else s.consumeAll
    else s

/-- The answers of the `readv`s that gave bytes, of the last one, and of a `write` if an echo makes
one. -/
def onReadCallback (s : Stream) (chunks : List Bytes) (last : ReadEnd) (result : WriteResult) :
    Option Stream :=
  match chunks with
  | [] =>
    match last with
    | .zero => some (s.call .readZero .readZero)
    | .failed errno =>
      if errno ≠ EAGAIN then some (s.call .readError (.readError errno)) else some s
  | chunk :: rest =>
    (s.fd.recvBuff.receiveAll (chunk :: rest)).map fun recvBuff =>
      { s with
        fd := { s.fd with recvBuff := recvBuff }
        read := s.read ++ (chunk :: rest).flatten }.deliver result

def onWriteCallback (s : Stream) (result : WriteResult) : Stream :=
  if s.fd.sendBuff.readableSize = 0 then
    { s with fd := { s.fd with spWriteEvent := some false } }.call .sendComplete .sendCompleted
  else
    match result with
    | .wrote size =>
      { s with
        fd := { s.fd with sendBuff := s.fd.sendBuff.hasRead size }
        written := s.written ++ s.fd.sendBuff.readable.take size }
    | .failed errno => s.call .writeError (.writeError errno)

end Stream

namespace BufferedFd

inductive Action where
  | init (isNull : Bool) (events : BitVec 16)
  | enable
  | disable
  | send (data : Bytes) (result : WriteResult)
  /-- the descriptor is readable -/
  | readReady (chunks : List Bytes) (last : ReadEnd) (result : WriteResult)
  /-- the descriptor is writable -/
  | writeReady (result : WriteResult)
  | consume (size : Nat)
  | shrinkRecvBuffer
  | shrinkSendBuffer
  /-- the callbacks that are set, with the threshold -/
  | setCallbacks (callbacks : List Callback) (threshold : Nat)
  | bind (receiver : Option Receiver)
  deriving DecidableEq, Repr

end BufferedFd

namespace Stream

def step (s : Stream) : Action → Option Stream
  | .init isNull events => some { s with fd := Prod.fst <| s.fd.initialize isNull events }
  | .enable => some { s with fd := s.fd.enable.1 }
  | .disable => some { s with fd := s.fd.disable.1 }
  | .send data result => some (s.send data result).1
  | .readReady chunks last result =>
    if s.fd.spReadEvent = some true then s.onReadCallback chunks last result else none
  | .writeReady result =>
    if s.fd.spWriteEvent = some true then some (s.onWriteCallback result) else none
  | .consume size => some (s.consume size)
  | .shrinkRecvBuffer => some { s with fd := { s.fd with recvBuff := s.fd.recvBuff.shrink } }
  | .shrinkSendBuffer => some { s with fd := { s.fd with sendBuff := s.fd.sendBuff.shrink } }
  | .setCallbacks callbacks threshold =>
    some { s with fd := { s.fd with callbacks := callbacks, receiveThreshold := threshold } }
  | .bind receiver => some { s with fd := { s.fd with wpReceiver := receiver } }

end Stream

end Tbox.Network
