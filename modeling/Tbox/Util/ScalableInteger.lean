import Tbox.Lib.Memory

/-!
# Integers of as many bytes as they need

`util/scalable_integer.cpp`. Seven bits go into a byte, the high ones first, and the last byte is the one without its
top bit. What fewer bytes can hold is not counted again.
-/

namespace Tbox.Util

open Tbox.Lib (Bytes Block)

def k1ByteMin : UInt64 := 0
def k1ByteMax : UInt64 := 0x7F
def k2ByteMin : UInt64 := k1ByteMax + 1
def k2ByteMax : UInt64 := k2ByteMin + 0x3FFF
def k3ByteMin : UInt64 := k2ByteMax + 1
def k3ByteMax : UInt64 := k3ByteMin + 0x1FFFFF
def k4ByteMin : UInt64 := k3ByteMax + 1
def k4ByteMax : UInt64 := k4ByteMin + 0xFFFFFFF
def k5ByteMin : UInt64 := k4ByteMax + 1
def k5ByteMax : UInt64 := k5ByteMin + 0x7FFFFFFFF
def k6ByteMin : UInt64 := k5ByteMax + 1
def k6ByteMax : UInt64 := k6ByteMin + 0x3FFFFFFFFFF
def k7ByteMin : UInt64 := k6ByteMax + 1
def k7ByteMax : UInt64 := k7ByteMin + 0x1FFFFFFFFFFFF
def k8ByteMin : UInt64 := k7ByteMax + 1
def k8ByteMax : UInt64 := k8ByteMin + 0xFFFFFFFFFFFFFF
def k9ByteMin : UInt64 := k8ByteMax + 1
def k9ByteMax : UInt64 := k9ByteMin + 0x7FFFFFFFFFFFFFFF
def k10ByteMin : UInt64 := k9ByteMax + 1

def minValueTbl : List UInt64 :=
  [0, k1ByteMin, k2ByteMin, k3ByteMin, k4ByteMin, k5ByteMin, k6ByteMin, k7ByteMin, k8ByteMin, k9ByteMin, k10ByteMin]

def maxValueTbl : List UInt64 :=
  [0, k1ByteMax, k2ByteMax, k3ByteMax, k4ByteMax, k5ByteMax, k6ByteMax, k7ByteMax, k8ByteMax, k9ByteMax]

def needBytes (inValue : UInt64) : Nat :=
  ((List.range' 1 9).find? fun needBytes => inValue ≤ maxValueTbl.getD needBytes 0).getD 10

def storeBytes : Nat → UInt64 → Bytes → Bytes
  | 0, _, stored => stored
  | pos + 1, storeValue, stored =>
    storeBytes pos (storeValue >>> 7) ((0x80 ||| (storeValue &&& 0x7f).toUInt8) :: stored)

def dumpedBytes (inValue : UInt64) : Bytes :=
  let needBytes := needBytes inValue
  let storeValue := if 1 < needBytes then inValue - minValueTbl.getD needBytes 0 else inValue
  storeBytes (needBytes - 1) (storeValue >>> 7) [(0x7f &&& storeValue).toUInt8]

def dumpScalableInteger (inValue : UInt64) (buffSize : Nat) : Option Bytes :=
  if buffSize < needBytes inValue then none else some (dumpedBytes inValue)

/-- The loop of `ParseScalableInteger`, which goes on for so many bytes at most. -/
def parseLoop : Nat → Nat → UInt64 → Bytes → Option (Nat × UInt64)
  | rounds + 1, readBytes, readValue, value :: buff =>
    let readValue := readValue <<< 7 ||| (value &&& 0x7F).toUInt64
    if value &&& 0x80 = 0 then some (readBytes, readValue)
    else parseLoop rounds (readBytes + 1) readValue buff
  | _, _, _, _ => none

/-- How many bytes have been read, and the value. What stands behind the table is no value. -/
def parseScalableInteger (buff : Bytes) : Option (Nat × Option UInt64) :=
  (parseLoop 11 1 0 buff).map fun (readBytes, readValue) =>
    (readBytes, minValueTbl[readBytes]?.map fun minValue => minValue + readValue)

/-- `byte_ptr[pos] = 0x80 | (store_value & 0x7f)` from that position down. -/
def storeDown : Nat → UInt64 → Block → Option Block
  | 0, _, buff => some buff
  | pos + 1, storeValue, buff => do
      let buff ← buff.store pos [0x80 ||| (storeValue &&& 0x7f).toUInt8]
      storeDown pos (storeValue >>> 7) buff

/-- `DumpScalableInteger`: what is returned, and the memory afterwards. -/
def dumpScalableIntegerTo (inValue : UInt64) (buff : Block) : Option (Nat × Block) :=
  let needBytes := needBytes inValue
  if buff.bytes.length < needBytes then some (0, buff)
  else do
    let storeValue := if 1 < needBytes then inValue - minValueTbl.getD needBytes 0 else inValue
    let buff ← buff.store (needBytes - 1) [(0x7f &&& storeValue).toUInt8]
    let buff ← storeDown (needBytes - 1) (storeValue >>> 7) buff
    return (needBytes, buff)

/-- The loop of `ParseScalableInteger`, with `i` in the rounds that are left of eleven. It need not be completed. -/
def parseLoopAt (buff : Block) : Nat → Nat → Nat → UInt64 → Option (Option (Nat × UInt64))
  | rounds + 1, i, readBytes, readValue =>
    if i < buff.bytes.length then do
      let byte ← buff.load i 1
      let value := byte.bytes.headD 0
      let readValue := readValue <<< 7 ||| (value &&& 0x7F).toUInt64
      if value &&& 0x80 = 0 then return some (readBytes, readValue)
      else parseLoopAt buff rounds (i + 1) (readBytes + 1) readValue
    else some none
  | 0, _, _, _ => some none

/-- `ParseScalableInteger`: what is returned, and `out_value` afterwards. Nothing, when it reads behind its table. -/
def parseScalableIntegerAt (buff : Block) (outValue : UInt64) : Option (Nat × UInt64) := do
  match ← parseLoopAt buff 11 0 1 0 with
  | none => return (0, outValue)
  | some (readBytes, readValue) =>
    let minValue ← minValueTbl[readBytes]?
    return (readBytes, minValue + readValue)

example : dumpScalableInteger 300 10 = some [0x81, 0x2c] := by decide

example : parseScalableInteger [0x81, 0x2c, 7] = some (2, some 300) := by decide

end Tbox.Util
