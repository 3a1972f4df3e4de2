import Tbox.Util.SplitCmdline
import Tbox.Util.StringOps

/-!
# The commands of a terminal

`terminal/impl/terminal_commands.cpp` with what it uses of `terminal_nodes.cpp`. What a command does is listed in
order; the texts that are sent are left out, but for that of `tree` in `Tbox.Terminal.Tree`.
-/

namespace Tbox.Terminal

open Tbox.Lib (Bytes bytes)
open Tbox.Lib.StdString (stoi)
open Tbox.Util (split splitCmdline)

abbrev NodeToken := Nat

abbrev Path := List (Bytes × NodeToken)

inductive SessionCall where
  | send
  | endSession
  deriving DecidableEq, Repr

inductive Node where
  | dir (children : List (Bytes × NodeToken))
  | func (run : List Bytes → List SessionCall)

structure Nodes where
  rootToken : NodeToken := 0
  at? : NodeToken → Option Node

namespace Nodes

def topToken (nodes : Nodes) (nodePath : Path) : NodeToken := (nodePath.getLast?.map Prod.snd).getD nodes.rootToken

def top (nodes : Nodes) (nodePath : Path) : Option Node := nodes.at? (nodes.topToken nodePath)

def walk (nodes : Nodes) : List Bytes → Path → Option Path
  | [], nodePath => some nodePath
  | nodeName :: names, nodePath =>
    if nodeName = bytes "." ∨ nodeName = [] then nodes.walk names nodePath
    else if nodeName = bytes ".." then
      if nodePath = [] then none else nodes.walk names nodePath.dropLast
    else
      match nodes.top nodePath with
      | some (.dir children) =>
        match children.lookup nodeName with
        | none => none
        | some next => nodes.walk names (nodePath ++ [(nodeName, next)])
      | _ => none

def findNode (nodes : Nodes) (pathStr : Bytes) (nodePath : Path) : Option Path :=
  match split pathStr (bytes "/") with
  | .ok ([] :: names) => nodes.walk names []
  | .ok names => nodes.walk names nodePath
  | .error _ => none

end Nodes

inductive Deed where
  | send
  /-- `Connection::endSession`, by a function of the application -/
  | endSession
  /-- the task that `executeExitCmd` posts -/
  | exit
  /-- an exception that nothing catches, or the last element of what is empty -/
  | abort
  deriving DecidableEq, Repr

def SessionCall.deed : SessionCall → Deed
  | .send => .send
  | .endSession => .endSession

def kEnableEcho : UInt32 := 1
def kQuietMode : UInt32 := 2

inductive KeyStep where
  | kNone
  | k0d
  | kc2
  | k1b
  | k1b5b
  | k1b5b31
  | k1b5b3135
  | k1b5b3137
  | k1b5b3138
  | k1b5b3139
  | k1b5b32
  | k1b5b3230
  | k1b5b3231
  | k1b5b3233
  | k1b5b3234
  | k1b5b33
  | k1b5b34
  | k1b5b35
  | k1b5b36
  | k1b4f
  deriving DecidableEq, Repr

structure SessionContext where
  options : UInt32 := 0
  currInput : Bytes := []
  cursor : Nat := 0
  path : Path := []
  history : List Bytes := []
  historyIndex : Nat := 0
  /-- `key_event_scanner_.step_` -/
  keyStep : KeyStep := .kNone
  windowWidth : Option UInt16 := some 0
  windowHeight : Option UInt16 := some 0
  deriving DecidableEq, Repr

namespace SessionContext

def echoes (s : SessionContext) : Bool := s.options &&& kEnableEcho ≠ 0

def isQuiet (s : SessionContext) : Bool := s.options &&& kQuietMode ≠ 0

end SessionContext

structure Outcome where
  result : Bool
  session : SessionContext
  deeds : List Deed := []
  deriving DecidableEq, Repr

section Commands

variable (nodes : Nodes)

def executeCdCmd (s : SessionContext) (args : List Bytes) : Outcome :=
  let s :=
    match nodes.findNode (args.getD 1 (bytes "/")) s.path with
    | none => s
    | some nodePath =>
      match nodes.top nodePath with
      | some (.dir _) => { s with path := nodePath }
      | _ => s
  { result := true, session := s, deeds := [.send] }

/-- `printHelp` has more to say where the keys are echoed. -/
def executeHelpCmd (s : SessionContext) (args : List Bytes) : Outcome :=
  let deeds := if args.length < 2 then if s.echoes then [.send, .send] else [.send] else [.send]
  { result := true, session := s, deeds := deeds }

def executeExitCmd (s : SessionContext) : Outcome :=
  { result := true, session := s, deeds := if s.isQuiet then [.exit] else [.send, .exit] }

/-- Where the node that is found is no directory, the last name of the path is asked for. -/
def executeTreeCmd (s : SessionContext) (args : List Bytes) : Outcome :=
  match nodes.findNode (args.getD 1 (bytes ".")) s.path with
  | none => { result := true, session := s, deeds := [.send] }
  | some nodePath =>
    match nodes.top nodePath with
    | some (.dir _) => { result := true, session := s, deeds := [.send] }
    | _ =>
      if nodePath = [] then { result := false, session := s, deeds := [.abort] }
      else { result := true, session := s, deeds := [.send] }

def executeUserCmd (s : SessionContext) (args : List Bytes) : Outcome :=
  match nodes.findNode (args.getD 0 []) s.path with
  | none => { result := true, session := s, deeds := [.send] }
  | some nodePath =>
    match nodes.top nodePath with
    | none => { result := true, session := s, deeds := [.send] }
    | some (.func run) => { result := true, session := s, deeds := (run args).map SessionCall.deed ++ [.send] }
    | some (.dir _) => { result := true, session := { s with path := nodePath }, deeds := [.send] }

def historyAt (history : List Bytes) (index : Int) : Option Bytes :=
  if 0 ≤ index then history[index.toNat]?
  else if (-index).toNat ≤ history.length then history[history.length - (-index).toNat]?
  else none

/-- With `execute` for the line that is taken from the history. -/
def executeRunHistoryCmd (execute : SessionContext → Outcome) (s : SessionContext) (args : List Bytes) : Outcome :=
  let subCmd := (args.getD 0 []).drop 1
  if subCmd = bytes "!" then
    match s.history.getLast? with
    | none => { result := false, session := s, deeds := [.abort] }
    | some line => execute { s with currInput := line }
  else
    match stoi subCmd with
    | .error .invalidArgument => { result := false, session := s, deeds := [.send] }
    | .error _ => { result := false, session := s, deeds := [.abort] }
    | .ok index =>
      match historyAt s.history index with
      | none => { result := false, session := s, deeds := [.send] }
      | some line =>
        let outcome := execute { s with currInput := line }
        { outcome with deeds := .send :: outcome.deeds }

def executeCmd (execute : SessionContext → Outcome) (s : SessionContext) (cmdline : Bytes) : Outcome :=
  if cmdline = [] then { result := false, session := s }
  else
    match splitCmdline cmdline with
    | none => { result := true, session := s, deeds := [.send] }
    | some [] => { result := true, session := s, deeds := [.send] }
    | some (cmd :: rest) =>
      if cmd = bytes "ls" then { result := true, session := s, deeds := [.send] }
      else if cmd = bytes "pwd" then { result := true, session := s, deeds := [.send] }
      else if cmd = bytes "cd" then executeCdCmd nodes s (cmd :: rest)
      else if cmd = bytes "help" then executeHelpCmd s (cmd :: rest)
      else if cmd = bytes "history" then { result := false, session := s, deeds := [.send] }
      else if cmd = bytes "exit" ∨ cmd = bytes "quit" then executeExitCmd s
      else if cmd = bytes "tree" then executeTreeCmd nodes s (cmd :: rest)
      else if cmd.head? = some 33 then executeRunHistoryCmd execute s (cmd :: rest)
      else executeUserCmd nodes s (cmd :: rest)

/-- The loop of `execute`, which the first command that fails ends. -/
def executeAll (executeCmd : SessionContext → Bytes → Outcome) : List Bytes → SessionContext → Outcome
  | [], s => { result := true, session := s }
  | cmdline :: cmdlines, s =>
    let first := executeCmd s cmdline
    if first.result then
      let rest := executeAll executeCmd cmdlines first.session
      { rest with deeds := first.deeds ++ rest.deeds }
    else first

def execute : Nat → SessionContext → Outcome
  | 0, s => { result := false, session := s, deeds := [.abort] }
  | depth + 1, s =>
    match split s.currInput (bytes ";") with
    | .error _ => { result := false, session := s, deeds := [.abort] }
    | .ok cmdlines => executeAll (executeCmd nodes (execute depth)) cmdlines s

end Commands

end Tbox.Terminal
