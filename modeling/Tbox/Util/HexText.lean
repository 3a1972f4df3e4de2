import Tbox.Lib.Memory

/-!
# Bytes as hexadecimal text

`RawDataToHexStr` and `HexStrToRawData` of `util/string.cpp`. One decoder fills the memory of the caller, two a
vector. What they have put out before they throw stays there.
-/

namespace Tbox.Util

open Tbox.Lib (Bytes Block)
open Tbox.Lib.StdString

/-- What a decoder throws, `std::out_of_range` among it, or does that is not defined. -/
inductive HexFault
  | notAZaz09
  | moreThan2Char
  | outOfRange
  | outside
  | stuck
  deriving DecidableEq, Repr

/-- A digit as a stream puts it out under `hex`. -/
def hexDigitChar (uppercase : Bool) (digit : UInt8) : UInt8 :=
  if digit < 10 then 48 + digit else if uppercase then 65 + (digit - 10) else 97 + (digit - 10)

/-- `setw(2) << (int)ptr[i]` under `hex` and `setfill('0')` -/
def hexPair (uppercase : Bool) (byte : UInt8) : Bytes :=
  [hexDigitChar uppercase (byte >>> 4), hexDigitChar uppercase (byte &&& 0xF)]

/-- The loop of `RawDataToHexStr`. Nothing, where it reads behind the data. -/
def hexLoop (data : Bytes) (dataLen : UInt16) (uppercase : Bool) (delimiter : Bytes) (i : UInt16) (oss : Bytes) :
    Option Bytes :=
  if i < dataLen then
    match data[i.toNat]? with
    | none => none
    | some byte =>
      let oss := oss ++ hexPair uppercase byte
      let oss := if i.toNat < dataLen.toNat - 1 then oss ++ delimiter else oss
      hexLoop data dataLen uppercase delimiter (i + 1) oss
  else some oss
termination_by dataLen.toNat - i.toNat
decreasing_by
  have hlt := UInt16.lt_iff_toNat_lt.mp ‹i < dataLen›
  have hsucc : (i + 1).toNat = i.toNat + 1 := by
    have hbound := dataLen.toNat_lt
    rw [UInt16.toNat_add]
    exact Nat.mod_eq_of_lt (by simp; omega)
  omega

def rawDataToHexStr (data : Option Bytes) (dataLen : UInt16) (uppercase : Bool) (delimiter : Bytes) : Option Bytes :=
  match data with
  | none => some []
  | some data => if dataLen = 0 then some [] else hexLoop data dataLen uppercase delimiter 0 []

def hexCharToValue (hexChar : UInt8) : Except HexFault UInt8 :=
  if 48 ≤ hexChar ∧ hexChar ≤ 57 then .ok (hexChar - 48)
  else if 65 ≤ hexChar ∧ hexChar ≤ 70 then .ok (hexChar - 65 + 10)
  else if 97 ≤ hexChar ∧ hexChar ≤ 102 then .ok (hexChar - 97 + 10)
  else .error .notAZaz09

/-- `hex_str.at(pos)` -/
def charAt (hexStr : Bytes) (pos : Nat) : Except HexFault UInt8 :=
  match hexStr[pos]? with
  | none => .error .outOfRange
  | some c => .ok c

/-- `(hexCharToValue(h_char) << 4) | (hexCharToValue(l_char) & 0x0f)` -/
def pairValue (hChar lChar : UInt8) : Except HexFault UInt8 := do
  let high ← hexCharToValue hChar
  let low ← hexCharToValue lChar
  return high <<< 4 ||| (low &&& 0x0f)

/-- The loop into memory, with `i` in the rounds that are left of `out_len`. -/
def fixedLoop (hexStr : Bytes) : Nat → Nat → Nat → Block → Except HexFault Nat × Block
  | rounds + 1, i, dataLen, out =>
    if i * 2 + 1 < hexStr.length then
      match pairValue (hexStr.getD (2 * i) 0) (hexStr.getD (2 * i + 1) 0) with
      | .error e => (.error e, out)
      | .ok value =>
        match out.store i [value] with
        | none => (.error .outside, out)
        | some out => fixedLoop hexStr rounds (i + 1) (dataLen + 1) out
    else (.ok dataLen, out)
  | 0, _, dataLen, out => (.ok dataLen, out)

/-- `HexStrToRawData(const std::string &, void *, uint16_t)` -/
def hexStrToRawDataTo (hexStr : Bytes) (out : Option Block) (outLen : UInt16) :
    Except HexFault Nat × Option Block :=
  match out with
  | none => (.ok 0, none)
  | some out =>
    if outLen = 0 then (.ok 0, some out)
    else
      let (dataLen, out) := fixedLoop hexStr outLen.toNat 0 0 out
      (dataLen, some out)

def chipValue (hexStr : Bytes) (startPos len : Nat) : Except HexFault UInt8 :=
  if len = 1 then do
    let c ← charAt hexStr startPos
    hexCharToValue c
  else if len = 2 then do
    let hChar ← charAt hexStr startPos
    let high ← hexCharToValue hChar
    let lChar ← charAt hexStr (startPos + 1)
    let low ← hexCharToValue lChar
    return high <<< 4 ||| low
  else .error .moreThan2Char

/-- The loop of `_HexStrToRawDataWithDelimiter`; any character of the delimiter delimits. -/
def withDelimiterLoop (hexStr delimiter : Bytes) : Nat → Option Nat → Bytes → Option HexFault × Bytes
  | 0, _, out => (some .stuck, out)
  | _ + 1, none, out => (none, out)
  | rounds + 1, some startPos, out =>
    let endPos := (findFrom (fun c => delimiter.contains c) hexStr startPos).getD hexStr.length
    match chipValue hexStr startPos (endPos - startPos) with
    | .error e => (some e, out)
    | .ok value =>
      withDelimiterLoop hexStr delimiter rounds (findFrom (fun c => !delimiter.contains c) hexStr endPos)
        (out ++ [value])

def withDelimiter (hexStr delimiter : Bytes) : Option HexFault × Bytes :=
  withDelimiterLoop hexStr delimiter (hexStr.length + 1) (findFrom (fun c => !delimiter.contains c) hexStr 0) []

/-- A position as a `size_t`. -/
def sizeOf (pos : Option Nat) : UInt64 :=
  match pos with
  | none => 0xFFFFFFFFFFFFFFFF
  | some pos => .ofNat pos

/-- `" \t"` -/
def isSpaceOrTab (c : UInt8) : Bool := c == 32 || c == 9

/-- The loop of `_HexStrToRawDataWithoutDelimiter` -/
def withoutDelimiterLoop (hexStr : Bytes) (startPos endPos : UInt64) :
    Nat → UInt64 → Bytes → Option HexFault × Bytes
  | 0, _, out => (some .stuck, out)
  | rounds + 1, i, out =>
    if i * 2 < endPos - startPos then
      let value := do
        let hChar ← charAt hexStr (startPos + 2 * i).toNat
        let lChar ← charAt hexStr (startPos + 2 * i + 1).toNat
        pairValue hChar lChar
      match value with
      | .error e => (some e, out)
      | .ok value => withoutDelimiterLoop hexStr startPos endPos rounds (i + 1) (out ++ [value])
    else (none, out)

def withoutDelimiter (hexStr : Bytes) : Option HexFault × Bytes :=
  let startPos := sizeOf (findFrom (fun c => !isSpaceOrTab c) hexStr 0)
  let lastPos := (hexStr.reverse.findIdx? fun c => !isSpaceOrTab c).map (hexStr.length - 1 - ·)
  withoutDelimiterLoop hexStr startPos (sizeOf lastPos + 1) (hexStr.length + 1) 0 []

/-- `HexStrToRawData` with a delimiter: what is returned or thrown, and the vector. -/
def hexStrToRawData (hexStr delimiter : Bytes) : Except HexFault Nat × Bytes :=
  let (thrown, out) := if delimiter = [] then withoutDelimiter hexStr else withDelimiter hexStr delimiter
  match thrown with
  | some e => (.error e, out)
  | none => (.ok out.length, out)

example : hexStrToRawData [32, 49, 50, 51, 32, 32] [32] = (.error .moreThan2Char, []) := by decide

example : hexStrToRawData [49, 50, 32, 51] [] = (.error .notAZaz09, [0x12]) := by decide

end Tbox.Util
