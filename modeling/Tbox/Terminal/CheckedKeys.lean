import Tbox.Terminal.KeyEvents

/-!
# The keys with what could go wrong

The handlers of `terminal_key_events.cpp` step by step, with each access to a string or to the history: one that is out
of range has no result. What a command has done is given.
-/

namespace Tbox.Terminal

open Tbox.Lib (Bytes)
open Tbox.Lib.StdString (substr)

/-- What `execute` returns, and what it has made of the line and the path. -/
structure Executed where
  result : Bool
  currInput : Bytes
  path : Path
  deeds : List Deed
  deriving DecidableEq, Repr

inductive Key where
  | char (ch : UInt8)
  | enter (executed : Executed)
  | backspace
  | delete
  | moveUp
  | moveDown
  | moveLeft
  | moveRight
  | home
  | toEnd
  deriving DecidableEq, Repr

namespace Checked

/-- `insert(pos, 1, ch)`. -/
def insert (str : Bytes) (pos : Nat) (ch : UInt8) : Option Bytes :=
  if str.length < pos then none else some (str.take pos ++ ch :: str.drop pos)

/-- `erase(pos, 1)`. -/
def erase (str : Bytes) (pos : Nat) : Option Bytes := if str.length < pos then none else some (str.eraseIdx pos)

def popBack (str : Bytes) : Option Bytes := if str = [] then none else some str.dropLast

def popFront (history : List Bytes) : Option (List Bytes) := if history = [] then none else some history.tail

/-- The difference of two sizes, which wraps where it is negative: then nothing is that long, and no index. -/
def difference (a b : Nat) : Option Nat := if a < b then none else some (a - b)

def behindCursor (s : SessionContext) : Option (Bytes × Nat) :=
  (substr s.currInput s.cursor none).toOption.bind fun rest =>
    (difference s.currInput.length s.cursor).map fun back => (rest, back)

/-- `history[history.size() - history_index]`. -/
def fromHistory (s : SessionContext) : Option Bytes :=
  (difference s.history.length s.historyIndex).bind fun index => s.history[index]?

/-- `while (cursor < curr_input.size())`. -/
def moveToEnd (s : SessionContext) : Pressed :=
  if s.cursor < s.currInput.length then
    let rest := moveToEnd { s with cursor := s.cursor + 1 }
    (rest.1, .send :: rest.2)
  else (s, [])
termination_by s.currInput.length - s.cursor

/-- `while (cursor != 0)`. -/
def moveToFront (s : SessionContext) : Pressed :=
  if s.cursor = 0 then (s, [])
  else
    let rest := moveToFront { s with cursor := s.cursor - 1 }
    (rest.1, .send :: rest.2)
termination_by s.cursor

/-- `while (cursor--)`, which wraps at the end. -/
def wipe (s : SessionContext) : Pressed :=
  if s.cursor = 0 then ({ s with cursor := 2 ^ 64 - 1 }, [])
  else
    let rest := wipe { s with cursor := s.cursor - 1 }
    (rest.1, .send :: rest.2)
termination_by s.cursor

def cleanupInput (s : SessionContext) : Pressed :=
  let moved := moveToEnd s
  let wiped := wipe moved.1
  (wiped.1, moved.2 ++ wiped.2)

def resend (s : SessionContext) : Option Pressed :=
  if s.echoes then (behindCursor s).map fun _ => (s, [.send]) else some (s, [])

def onChar (s : SessionContext) (ch : UInt8) : Option Pressed :=
  let currInput :=
    if s.cursor = s.currInput.length then some (s.currInput ++ [ch]) else insert s.currInput s.cursor ch
  currInput.bind fun currInput =>
    let s := { s with currInput := currInput, cursor := s.cursor + 1 }
    if s.echoes then
      (behindCursor s).map fun behind => (s, .send :: if behind.1 ≠ [] ∨ behind.2 ≠ 0 then [.send] else [])
    else some (s, [])

def onEnterKey (s : SessionContext) (executed : Executed) : Option Pressed :=
  let after := { s with currInput := executed.currInput, path := executed.path }
  let history :=
    if executed.result then
      let history := after.history ++ [after.currInput]
      if kHistoryMaxSize < history.length then popFront history else some history
    else some after.history
  history.map fun history =>
    ({ after with history := history, currInput := [], cursor := 0, historyIndex := 0 },
      (if s.echoes then [.send] else []) ++ executed.deeds ++ if after.isQuiet then [] else [.send])

def onBackspaceKey (s : SessionContext) : Option Pressed :=
  if s.cursor = 0 then some (s, [])
  else
    let currInput := if s.cursor = s.currInput.length then popBack s.currInput else erase s.currInput (s.cursor - 1)
    currInput.bind fun currInput => resend { s with currInput := currInput, cursor := s.cursor - 1 }

def onDeleteKey (s : SessionContext) : Option Pressed :=
  if s.currInput.length ≤ s.cursor then some (s, [])
  else (erase s.currInput s.cursor).bind fun currInput => resend { s with currInput := currInput }

def onMoveUpKey (s : SessionContext) : Option Pressed :=
  if s.historyIndex = s.history.length then some (s, [])
  else
    let cleaned := cleanupInput s
    let s := { cleaned.1 with historyIndex := cleaned.1.historyIndex + 1 }
    (fromHistory s).map fun currInput =>
      ({ s with currInput := currInput, cursor := currInput.length }, cleaned.2 ++ [.send])

def onMoveDownKey (s : SessionContext) : Option Pressed :=
  if s.historyIndex = 0 then some (s, [])
  else
    let cleaned := cleanupInput s
    let s := { cleaned.1 with historyIndex := cleaned.1.historyIndex - 1 }
    if 0 < s.historyIndex then
      (fromHistory s).map fun currInput =>
        ({ s with currInput := currInput, cursor := currInput.length }, cleaned.2 ++ [.send])
    else some ({ s with currInput := [], cursor := 0 }, cleaned.2 ++ [.send])

def onMoveLeftKey (s : SessionContext) : Option Pressed :=
  if s.cursor = 0 then some (s, []) else some ({ s with cursor := s.cursor - 1 }, [.send])

def onMoveRightKey (s : SessionContext) : Option Pressed :=
  if s.currInput.length ≤ s.cursor then some (s, []) else some ({ s with cursor := s.cursor + 1 }, [.send])

def onKey (s : SessionContext) : Key → Option Pressed
  | .char ch => onChar s ch
  | .enter executed => onEnterKey s executed
  | .backspace => onBackspaceKey s
  | .delete => onDeleteKey s
  | .moveUp => onMoveUpKey s
  | .moveDown => onMoveDownKey s
  | .moveLeft => onMoveLeftKey s
  | .moveRight => onMoveRightKey s
  | .home => some (moveToFront s)
  | .toEnd => some (moveToEnd s)

end Checked

end Tbox.Terminal
