import Tbox.Lib.Rounds
import Tbox.Terminal.Commands

/-!
# How a tree is printed

`executeTreeCmd` of `terminal/impl/terminal_commands.cpp` with the text that it sends. A step is an iteration of one
of its three loops; an empty level has no front, and `indent_str` no more than is there to be erased.
-/

namespace Tbox.Terminal

open Tbox.Lib (Bytes bytes iterate)

/-- `name` and `token`. -/
abbrev NodeInfo := Bytes × NodeToken

/-- The loop whose condition is next. After a level was popped `last_level` still refers to it. -/
inductive TreePoint where
  | levels
  | nodes (isPopped : Bool)
  | cleanup (isPopped : Bool)
  | done
  deriving DecidableEq, Repr

structure TreeWalk where
  point : TreePoint := .levels
  /-- `node_token_stack`, the last level first -/
  stack : List (List NodeInfo)
  indentStr : Bytes := []
  ss : Bytes := []
  deriving DecidableEq, Repr

namespace TreeWalk

def isDone (t : TreeWalk) : Bool := t.point = .done

end TreeWalk

section Tree

variable (nodes : Nodes)

def isExpanded (token : NodeToken) : List (List NodeInfo) → Option Bool
  | [] => some false
  | [] :: _ => none
  | (front :: _) :: levels => if front.2 = token then some true else isExpanded token levels

/-- `is_repeat`, with the levels below the last one. -/
def isRepeat (token : NodeToken) (below : List (List NodeInfo)) : Option Bool :=
  if token = nodes.rootToken then some true else isExpanded token below.reverse

def visitNode (front : NodeInfo) (isLastNode : Bool) (below : List (List NodeInfo)) (t : TreeWalk) : Option TreeWalk :=
  let ss := t.ss ++ t.indentStr ++ (if isLastNode then bytes "`-- " else bytes "|-- ") ++ front.1
  match nodes.at? front.2 with
  | none => some { t with point := .cleanup false, ss := ss ++ bytes "(X)\r\n" }
  | some (.func _) => some { t with point := .cleanup false, ss := ss ++ bytes "\r\n" }
  | some (.dir children) =>
    (isRepeat nodes front.2 below).map fun isRepeat =>
      if isRepeat then { t with point := .cleanup false, ss := ss ++ bytes "(R)" ++ bytes "\r\n" }
      else if children = [] then { t with point := .cleanup false, ss := ss ++ bytes "\r\n" }
      else
        { point := .levels
          stack := children :: t.stack
          indentStr := t.indentStr ++ if isLastNode then bytes "    " else bytes "|   "
          ss := ss ++ bytes "\r\n" }

def cleanupNode (isPopped : Bool) (t : TreeWalk) : Option TreeWalk :=
  match t.stack with
  | [] => some { t with point := .nodes isPopped }
  | [] :: _ => none
  | [_] :: below =>
    if t.indentStr = [] then some { t with point := .cleanup true, stack := below }
    else if t.indentStr.length < 4 then none
    else
      some { t with
        point := .cleanup true
        stack := below
        indentStr := t.indentStr.take (t.indentStr.length - 4) }
  | (_ :: rest) :: below => some { t with point := .nodes isPopped, stack := rest :: below }

/-- Where a level that was popped still reads as empty, as it was. -/
def treeStep (t : TreeWalk) : Option TreeWalk :=
  match t.point with
  | .levels => some { t with point := if t.stack = [] then .done else .nodes false }
  | .nodes true => some { t with point := .levels }
  | .nodes false =>
    match t.stack with
    | [] => none
    | [] :: _ => some { t with point := .levels }
    | (front :: rest) :: below => visitNode nodes front (rest.isEmpty) below t
  | .cleanup isPopped => cleanupNode isPopped t
  | .done => some t

def treeStart (children : List NodeInfo) : TreeWalk := { stack := if children = [] then [] else [children] }

/-- A level that was popped is destroyed: what reading it gives is undefined. -/
def definedStep (t : TreeWalk) : Option TreeWalk := if t.point = .nodes true then none else treeStep nodes t

def textBy (step : TreeWalk → Option TreeWalk) (rounds : Nat) (s : SessionContext) (args : List Bytes) : Option Bytes :=
  let pathStr := args.getD 1 (bytes ".")
  match nodes.findNode pathStr s.path with
  | none => some (bytes "Error: cannot access '" ++ pathStr ++ bytes "'.\r\n")
  | some nodePath =>
    match nodes.top nodePath with
    | none => nodePath.getLast?.map fun last => last.1 ++ bytes " node has been deleted.\r\n"
    | some (.dir children) =>
      (iterate step TreeWalk.isDone rounds (treeStart children)).map TreeWalk.ss
    | some (.func _) => nodePath.getLast?.map fun last => last.1 ++ bytes " is a function.\r\n"

def treeText : Nat → SessionContext → List Bytes → Option Bytes := textBy nodes (treeStep nodes)

end Tree

end Tbox.Terminal
