import Mathlib.Data.BitVec
import Tbox.Lib.StdString

/-!
# Internet checksums

`util/checksum.cpp`. Both functions add into an accumulator whose upper half is added to the lower one until it is
empty. `none` is an addition that overflows, or a loop that has not ended after so many rounds.
-/

namespace Tbox.Util

open Tbox.Lib (Bytes)

variable {w : Nat}

/-- `acc + n`. -/
def addChecked (acc n : BitVec w) : Option (BitVec w) :=
  if acc.toNat + n.toNat < 2 ^ w then some (acc + n) else none

/-- `while ((acc & high) != 0) acc = (acc & low) + (acc >> shift);` -/
def foldLoop (high low : BitVec w) (shift : Nat) : Nat → BitVec w → Option (BitVec w)
  | 0, _ => none
  | rounds + 1, acc =>
    if acc &&& high ≠ 0 then (addChecked (acc &&& low) (acc >>> shift)).bind (foldLoop high low shift rounds)
    else some acc

/-- `acc += n`, and the loop behind it. -/
def addFolded (high low : BitVec w) (shift rounds : Nat) (acc n : BitVec w) : Option (BitVec w) :=
  (addChecked acc n).bind (foldLoop high low shift rounds)

/-- The loop of `CalcCheckSum8`. -/
def sumBytes (rounds : Nat) : BitVec 16 → Bytes → Option (BitVec 16)
  | acc, [] => some acc
  | acc, byte :: bytes => do
      sumBytes rounds (← addFolded 0xff00 0xff 8 rounds acc (byte.toBitVec.setWidth 16)) bytes

def calcCheckSum8 (rounds : Nat) (data : Bytes) : Option UInt8 := do
  let acc ← sumBytes rounds 0 data
  return ~~~(UInt8.ofBitVec (acc.setWidth 8))

/-- The loop of `CalcCheckSum16`, and what is added behind it when a byte is left. -/
def sumWords (rounds : Nat) : BitVec 32 → Bytes → Option (BitVec 32)
  | acc, first :: second :: bytes => do
      sumWords rounds (← addFolded 0xffff0000 0x0000ffff 16 rounds acc
        (first.toBitVec.setWidth 32 <<< 8 ||| second.toBitVec.setWidth 32)) bytes
  | acc, [last] => addFolded 0xffff0000 0x0000ffff 16 rounds acc (last.toBitVec.setWidth 32 <<< 8)
  | acc, [] => some acc

def calcCheckSum16 (rounds : Nat) (data : Bytes) : Option UInt16 := do
  let acc ← sumWords rounds 0 data
  return ~~~(UInt16.ofBitVec (acc.setWidth 16))

end Tbox.Util
