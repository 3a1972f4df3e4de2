import Tbox.Terminal.Commands

/-!
# The keys of a terminal

`terminal/impl/key_event_scanner.cpp` and `terminal_key_events.cpp`, and `onRecvString` of `terminal.cpp`, which takes a
string apart into keys.
-/

namespace Tbox.Terminal

open Tbox.Lib (Bytes)

namespace KeyEventScanner

inductive Result where
  | kNone
  | kPrintable
  | kTab
  | kBackspace
  | kESC
  | kEnter
  | kAltPlus
  | kCtrlAltPlus
  | kMoveUp
  | kMoveDown
  | kMoveLeft
  | kMoveRight
  | kHome
  | kInsert
  | kDelete
  | kEnd
  | kPageUp
  | kPageDown
  /-- `kF1` to `kF12` -/
  | kF (n : Nat)
  deriving DecidableEq, Repr

/-- What `next` and `stop` come to. The step does not change where the key is known. -/
inductive Found where
  | unsure (step : KeyStep)
  | ensure (result : Result)
  | fail
  deriving DecidableEq, Repr

def isPrint (byte : UInt8) : Bool := 32 ≤ byte ∧ byte ≤ 126

def isLower (byte : UInt8) : Bool := 97 ≤ byte ∧ byte ≤ 122

def closing (byte : UInt8) (result : Result) : Found := if byte = 0x7e then .ensure result else .fail

def next (step : KeyStep) (byte : UInt8) : Found :=
  match step with
  | .kNone =>
    if byte = 0x09 then .ensure .kTab
    else if byte = 0x7f ∨ byte = 0x08 then .ensure .kBackspace
    else if byte = 0x0d then .unsure .k0d
    else if byte = 0x0a then .ensure .kEnter
    else if byte = 0x1b then .unsure .k1b
    else if byte = 0xc2 then .unsure .kc2
    else if isPrint byte then .ensure .kPrintable
    else .fail
  | .k0d => if byte = 0x00 ∨ byte = 0x0a then .ensure .kEnter else .fail
  | .kc2 => if 0x20 ≤ byte ∧ isLower (byte - 0x20) then .ensure .kCtrlAltPlus else .fail
  | .k1b =>
    if byte = 0x5b then .unsure .k1b5b
    else if byte = 0x4f then .unsure .k1b4f
    else if isPrint byte then .ensure .kAltPlus
    else .fail
  | .k1b5b =>
    if byte = 0x41 then .ensure .kMoveUp
    else if byte = 0x42 then .ensure .kMoveDown
    else if byte = 0x43 then .ensure .kMoveRight
    else if byte = 0x44 then .ensure .kMoveLeft
    else if byte = 0x31 then .unsure .k1b5b31
    else if byte = 0x32 then .unsure .k1b5b32
    else if byte = 0x33 then .unsure .k1b5b33
    else if byte = 0x34 then .unsure .k1b5b34
    else if byte = 0x35 then .unsure .k1b5b35
    else if byte = 0x36 then .unsure .k1b5b36
    else .fail
  | .k1b4f => if 0x50 ≤ byte ∧ byte ≤ 0x53 then .ensure (.kF (byte.toNat - 0x4f)) else .fail
  | .k1b5b31 =>
    if byte = 0x7e then .ensure .kHome
    else if byte = 0x35 then .unsure .k1b5b3135
    else if byte = 0x37 then .unsure .k1b5b3137
    else if byte = 0x38 then .unsure .k1b5b3138
    else if byte = 0x39 then .unsure .k1b5b3139
    else .fail
  | .k1b5b32 =>
    if byte = 0x7e then .ensure .kInsert
    else if byte = 0x30 then .unsure .k1b5b3230
    else if byte = 0x31 then .unsure .k1b5b3231
    else if byte = 0x33 then .unsure .k1b5b3233
    else if byte = 0x34 then .unsure .k1b5b3234
    else .fail
  | .k1b5b33 => closing byte .kDelete
  | .k1b5b34 => closing byte .kEnd
  | .k1b5b35 => closing byte .kPageUp
  | .k1b5b36 => closing byte .kPageDown
  | .k1b5b3135 => closing byte (.kF 5)
  | .k1b5b3137 => closing byte (.kF 6)
  | .k1b5b3138 => closing byte (.kF 7)
  | .k1b5b3139 => closing byte (.kF 8)
  | .k1b5b3230 => closing byte (.kF 9)
  | .k1b5b3231 => closing byte (.kF 10)
  | .k1b5b3233 => closing byte (.kF 11)
  | .k1b5b3234 => closing byte (.kF 12)

def stop (step : KeyStep) : Found :=
  match step with
  | .k1b => .ensure .kESC
  | .k0d => .ensure .kEnter
  | _ => .fail

end KeyEventScanner

open KeyEventScanner (Found Result)

abbrev Pressed := SessionContext × List Deed

def kHistoryMaxSize : Nat := 20

def onChar (s : SessionContext) (ch : UInt8) : Pressed :=
  let currInput :=
    if s.cursor = s.currInput.length then s.currInput ++ [ch]
    else s.currInput.take s.cursor ++ ch :: s.currInput.drop s.cursor
  let s := { s with currInput := currInput, cursor := s.cursor + 1 }
  let refreshes := decide (s.cursor < s.currInput.length)
  (s, if s.echoes then .send :: if refreshes then [.send] else [] else [])

def onEnterKey (nodes : Nodes) (s : SessionContext) : Pressed :=
  let outcome := execute nodes 2 s
  let after := outcome.session
  let history :=
    if outcome.result then
      let history := after.history ++ [after.currInput]
      if kHistoryMaxSize < history.length then history.drop 1 else history
    else after.history
  ({ after with history := history, currInput := [], cursor := 0, historyIndex := 0 },
    (if s.echoes then [.send] else []) ++ outcome.deeds ++ if after.isQuiet then [] else [.send])

def onBackspaceKey (s : SessionContext) : Pressed :=
  if s.cursor = 0 then (s, [])
  else
    let s := { s with currInput := s.currInput.eraseIdx (s.cursor - 1), cursor := s.cursor - 1 }
    (s, if s.echoes then [.send] else [])

def onDeleteKey (s : SessionContext) : Pressed :=
  if s.currInput.length ≤ s.cursor then (s, [])
  else ({ s with currInput := s.currInput.eraseIdx s.cursor }, if s.echoes then [.send] else [])

/-- `CleanupInput`: to the end of the line, and back over all of it. The cursor is set afterwards. -/
def cleanupInput (s : SessionContext) : List Deed :=
  List.replicate (s.currInput.length - s.cursor) .send ++ List.replicate (max s.cursor s.currInput.length) .send

def showHistory (s : SessionContext) (historyIndex : Nat) : SessionContext :=
  let currInput := if historyIndex = 0 then [] else s.history.getD (s.history.length - historyIndex) []
  { s with historyIndex := historyIndex, currInput := currInput, cursor := currInput.length }

def onMoveUpKey (s : SessionContext) : Pressed :=
  if s.historyIndex = s.history.length then (s, [])
  else (showHistory s (s.historyIndex + 1), cleanupInput s ++ [.send])

def onMoveDownKey (s : SessionContext) : Pressed :=
  if s.historyIndex = 0 then (s, []) else (showHistory s (s.historyIndex - 1), cleanupInput s ++ [.send])

def onMoveLeftKey (s : SessionContext) : Pressed :=
  if s.cursor = 0 then (s, []) else ({ s with cursor := s.cursor - 1 }, [.send])

def onMoveRightKey (s : SessionContext) : Pressed :=
  if s.currInput.length ≤ s.cursor then (s, []) else ({ s with cursor := s.cursor + 1 }, [.send])

def onHomeKey (s : SessionContext) : Pressed := ({ s with cursor := 0 }, List.replicate s.cursor .send)

def onEndKey (s : SessionContext) : Pressed :=
  ({ s with cursor := max s.cursor s.currInput.length }, List.replicate (s.currInput.length - s.cursor) .send)

def onKey (nodes : Nodes) (s : SessionContext) (c : UInt8) : Result → Pressed
  | .kPrintable => onChar s c
  | .kEnter => onEnterKey nodes s
  | .kBackspace => onBackspaceKey s
  | .kMoveUp => onMoveUpKey s
  | .kMoveDown => onMoveDownKey s
  | .kMoveLeft => onMoveLeftKey s
  | .kMoveRight => onMoveRightKey s
  | .kHome => onHomeKey s
  | .kEnd => onEndKey s
  | .kDelete => onDeleteKey s
  | _ => (s, [])

/-- The loop over the bytes. After the last of them the scanner is unsure of a key, or is not. -/
def feed (nodes : Nodes) (s : SessionContext) : Bytes → Bool → Pressed × Bool
  | [], unsure => ((s, []), unsure)
  | c :: str, _ =>
    match KeyEventScanner.next s.keyStep c with
    | .unsure step => feed nodes { s with keyStep := step } str true
    | .fail => feed nodes { s with keyStep := .kNone } str false
    | .ensure result =>
      let pressed := onKey nodes s c result
      let rest := feed nodes { pressed.1 with keyStep := .kNone } str false
      ((rest.1.1, pressed.2 ++ rest.1.2), rest.2)

def onRecvString (nodes : Nodes) (s : SessionContext) (str : Bytes) : Pressed :=
  let ((s, deeds), unsure) := feed nodes { s with keyStep := .kNone } str true
  if unsure then
    match KeyEventScanner.stop s.keyStep with
    | .ensure .kEnter =>
      let pressed := onEnterKey nodes s
      (pressed.1, deeds ++ pressed.2)
    | .ensure _ => (s, deeds)
    | _ => ({ s with keyStep := .kNone }, deeds)
  else (s, deeds)

end Tbox.Terminal
