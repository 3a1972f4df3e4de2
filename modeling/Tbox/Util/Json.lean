import Tbox.Base.Json

/-!
# Fields of JSON, and where a text of it ends

`Get`, `GetField` and `FindEndPos` of `util/json.cpp`. In `FindEndPos` the character before the one that is looked at
comes first in `before`. The levels are of type `int`, and wrap.
-/

namespace Tbox.Util

open Tbox.Base (Json)
open Tbox.Lib (Bytes)

/-- `Get` for a string. -/
def getString : Json → Option Bytes
  | .string value => some value
  | _ => none

/-- `Get` for an `int`. What does not fit is cut off. -/
def getInt : Json → Option Int32
  | .numberInteger value => some value.toInt32
  | .numberUnsigned value => some value.toInt64.toInt32
  | _ => none

def getField {α : Type} (get : Json → Option α) (js : Json) (fieldName : Bytes) : Option α :=
  (js.find? fieldName).bind get

namespace FindEndPos

def quote : UInt8 := 34
def backslash : UInt8 := 92

/-- `::isgraph` -/
def isgraph (ch : UInt8) : Bool := 33 ≤ ch ∧ ch ≤ 126

structure Scan where
  isStarted : Bool := false
  bracesLevel : Int := 0
  squareLevel : Int := 0
  inString : Bool := false
  deriving DecidableEq, Repr

/-- The loop that counts backslashes backwards. It does not look at the first character of all. -/
def flipped (inString : Bool) : Bytes → Bool
  | [] | [_] => inString
  | ch :: before => if ch = backslash then flipped (!inString) before else inString

def Scan.bracket (s : Scan) (ch : UInt8) : Scan :=
  if ch = 91 then { s with squareLevel := (s.squareLevel + 1).bmod (2 ^ 32) }
  else if ch = 93 then { s with squareLevel := (s.squareLevel - 1).bmod (2 ^ 32) }
  else if ch = 123 then { s with bracesLevel := (s.bracesLevel + 1).bmod (2 ^ 32) }
  else if ch = 125 then { s with bracesLevel := (s.bracesLevel - 1).bmod (2 ^ 32) }
  else s

inductive Step where
  | next (s : Scan)
  | ends
  | mismatch
  deriving DecidableEq, Repr

def Scan.check (s : Scan) : Step :=
  if s.bracesLevel = 0 ∧ s.squareLevel = 0 ∧ s.inString = false ∧ s.isStarted = true then .ends
  else if s.bracesLevel < 0 ∨ s.squareLevel < 0 then .mismatch
  else .next s

def Scan.step (s : Scan) (before : Bytes) (ch : UInt8) : Step :=
  let s := if !s.isStarted && isgraph ch then { s with isStarted := true } else s
  if ch = quote then
    if s.inString then Scan.check { s with inString := flipped false before }
    else Scan.check { s with inString := true }
  else if s.inString then .next s
  else (s.bracket ch).check

inductive Found where
  | no
  | at (size : Nat)
  | mismatch
  deriving DecidableEq, Repr

def loop : Scan → Bytes → Bytes → Found
  | _, _, [] => .no
  | s, before, ch :: rest =>
    match s.step before ch with
    | .next s => loop s (ch :: before) rest
    | .ends => .at (before.length + 1)
    | .mismatch => .mismatch

end FindEndPos

/-- The position is returned as an `int`. -/
def findEndPos (str : Bytes) : Int :=
  match FindEndPos.loop {} [] str with
  | .no => 0
  | .at size => Int.bmod size (2 ^ 32)
  | .mismatch => -1

example : findEndPos [91, 34, 92, 34, 93, 34, 93, 123] = 7 := by decide

end Tbox.Util
