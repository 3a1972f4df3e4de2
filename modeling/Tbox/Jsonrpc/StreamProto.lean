import Tbox.Lib.Framing
import Tbox.Network.DnsMessage
import Tbox.Util.Json

/-!
# JSON over a stream

`jsonrpc/protos/header_stream_proto.cpp` and `raw_stream_proto.cpp`. The JSON library is a parameter. The
caller keeps a buffer and takes off its front what `onRecvData` says it has consumed.
-/

namespace Tbox.Jsonrpc

open Tbox.Lib (Bytes Fault Verdict)
open Tbox.Network.Dns (Deserializer)

/-- The library that writes and reads JSON. Where `parse` throws there is none. -/
structure JsonText (J : Type) where
  dump : J → Bytes
  parse : Bytes → Option J

/-- What `onRecvData` returns, and what it calls `onRecvJson` with. -/
structure Received (J : Type) where
  ret : Int
  js : Option J := none
  deriving DecidableEq, Repr

variable {J : Type}

namespace HeaderStreamProto

def kHeadSize : Nat := 6

/-- `Serializer::append` of an unsigned integer of so many bytes, of big endian. -/
def append : Nat → Nat → Bytes
  | 0, _ => []
  | size + 1, number => append size (number / 256) ++ [number.toUInt8]

def sendJson (headerCode : UInt16) (library : JsonText J) (js : J) : Bytes :=
  let jsonText := library.dump js
  append 2 headerCode.toNat ++ append 4 (jsonText.length % 2 ^ 32) ++ jsonText

/-- The sum with the size of the head is one of 32 bits. A string made of no pointer is left undefined. -/
def onRecvData (headerCode : UInt16) (library : JsonText J) (data : Bytes) : Except Fault (Received J) :=
  if data.length < kHeadSize then .ok { ret := 0 }
  else
    let (headerMagic, unpack) := Deserializer.fetchNumber {} { data := data } 2
    let (contentSize, unpack) := unpack.fetchNumber {} 4
    if headerMagic ≠ headerCode.toNat then .ok { ret := -2 }
    else if data.length < (contentSize + kHeadSize) % 2 ^ 32 then .ok { ret := 0 }
    else
      match unpack.fetch contentSize with
      | (none, _) => .error .nullPointer
      | (some jsonText, unpack) =>
        match library.parse jsonText with
        | none => .ok { ret := -1 }
        | some js => .ok { ret := unpack.pos, js := some js }

end HeaderStreamProto

namespace RawStreamProto

def sendJson (library : JsonText J) (js : J) : Bytes := library.dump js

def onRecvData (library : JsonText J) (data : Bytes) : Except Fault (Received J) :=
  if data.length < 2 then .ok { ret := 0 }
  else
    let strLen := Util.findEndPos data
    if 0 < strLen then
      match library.parse (data.take strLen.toNat) with
      | none => .ok { ret := -1 }
      | some js => .ok { ret := strLen, js := some js }
    else .ok { ret := 0 }

end RawStreamProto

def verdict (onRecvData : Bytes → Except Fault (Received J)) (data : Bytes) : Verdict J :=
  match onRecvData data with
  | .ok { ret, js := some js } => if 0 < ret then .took ret.toNat js else .failed
  | .ok { ret, js := none } => if ret = 0 then .more else .failed
  | .error _ => .failed

end Tbox.Jsonrpc
