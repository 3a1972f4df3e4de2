import Tbox.Lib.Chunking
import Tbox.Lib.StdString

/-!
# What a telnet client sends

`terminal/impl/service/telnetd.cpp`: the loop of `onTcpReceived` and what it calls. A callback is kept with the bytes
it reads. The session is taken to be there.
-/

namespace Tbox.Terminal.Telnetd

open Tbox.Lib (Bytes Verdict Intake)

namespace Cmd
def kSE : UInt8 := 240
def kNOP : UInt8 := 241
def kSB : UInt8 := 250
def kWILL : UInt8 := 251
def kWONT : UInt8 := 252
def kDO : UInt8 := 253
def kDONT : UInt8 := 254
def kIAC : UInt8 := 255
end Cmd

namespace Opt
def kECHO : UInt8 := 1
def kWINDOW : UInt8 := 31
end Opt

open Cmd Opt

inductive Call where
  | string (str : Bytes)
  | nego (cmd opt : UInt8)
  | cmd (cmd : UInt8)
  | sub (opt : UInt8) (data : Bytes)
  deriving DecidableEq, Repr

inductive Effect where
  /-- `TerminalInteract::onRecvString` -/
  | recvString (str : Bytes)
  | send (data : Bytes)
  | enableEcho
  /-- A size made of bytes that have not been received is none. -/
  | recvWindowSize (w h : Option UInt16)
  deriving DecidableEq, Repr

structure Callback where
  call : Call
  start : Nat
  reads : Nat
  effects : List Effect := []
  deriving DecidableEq, Repr

def sendNego (cmd opt : UInt8) : Effect := .send [kIAC, cmd, opt]

def sendCmd (cmd : UInt8) : Effect := .send [kIAC, cmd]

def onRecvString (str : Bytes) : Callback :=
  { call := .string str, start := 0, reads := str.length, effects := [.recvString str] }

def onRecvNego (cmd opt : UInt8) : Callback :=
  { call := .nego cmd opt
    start := 0
    reads := 3
    effects :=
      if cmd = kDONT then [sendNego kWONT opt]
      else if cmd = kDO then if opt = kECHO then [.enableEcho] else []
      else [] }

def onRecvCmd (cmd : UInt8) : Callback :=
  { call := .cmd cmd, start := 0, reads := 2, effects := if cmd = kNOP then [sendCmd kNOP] else [] }

/-- `p[0] << 8 | p[1]` -/
def word (p : Bytes) : Option UInt16 :=
  match p with
  | high :: low :: _ => some (high.toUInt16 <<< 8 ||| low.toUInt16)
  | _ => none

/-- `p` is all that can be read from there on, of which `s` bytes are handed over. They are logged. -/
def onRecvSub (opt : UInt8) (p : Bytes) (s : Nat) : Callback :=
  if opt = kWINDOW then
    { call := .sub opt (p.take s)
      start := 3
      reads := max s 4
      effects := [.recvWindowSize (word p) (word (p.drop 2))] }
  else { call := .sub opt (p.take s), start := 3, reads := s }

def isNego (cmd : UInt8) : Bool := cmd = kWILL ∨ cmd = kWONT ∨ cmd = kDO ∨ cmd = kDONT

def receiveRound (buff : Bytes) : Verdict Callback :=
  if buff.length = 0 then .more
  else
    let size := buff.idxOf kIAC
    if 0 < size then .took size (onRecvString (buff.take size))
    else if buff.length < 2 then .more
    else
      let cmd := buff.getD 1 0
      if isNego cmd then
        if buff.length < 3 then .more else .took 3 (onRecvNego cmd (buff.getD 2 0))
      else if cmd = kSB then
        if buff.length < 6 then .more
        else
          let opt := buff.getD 2 0
          let cmdEndIac := 4 + (buff.drop 4).idxOf kIAC
          if cmdEndIac = buff.length then .more
          else if cmdEndIac + 1 = buff.length then .more
          else .took (cmdEndIac + 2) (onRecvSub opt (buff.drop 3) (cmdEndIac - 3))
      else .took 2 (onRecvCmd cmd)

def onTcpReceived : Intake UInt8 Callback → Bytes → Intake UInt8 Callback := Intake.receive receiveRound

example : (onTcpReceived {} [104, 105, 255, 241, 255]).messages = [onRecvString [104, 105], onRecvCmd kNOP] := by
  decide

end Tbox.Terminal.Telnetd
