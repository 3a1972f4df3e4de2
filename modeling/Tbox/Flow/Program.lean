import Tbox.Flow.Action
import Tbox.Lib.Script

/-!
# The programs that actions stand for

What a tree of serial actions means: a structured program whose calls are its leaves. Nothing is posted
here and nothing is paused.
-/

namespace Tbox.Flow.Action

open Lib (Script)

abbrev Outcome := Bool × Reason

abbrev Program := Script ActionId Outcome Outcome

namespace Program

def ifThen : List (Program × Program) → Program
  | [] => Script.pure (false, ifThenSkip)
  | (cond, body) :: rest => do
      let r ← cond
      if r.1 then body else ifThen rest

def ifElse (cond : Program) (thenBody elseBody : Option Program) : Program := do
  let r ← cond
  match if r.1 then thenBody else elseBody with
  | some body => body
  | none => Script.pure (true, r.2)

def switch (selector : Program) (default : Option Program) (cases : List (String × Program)) : Program := do
  let r ← selector
  if r.1 then
    match (cases.lookup r.2.message).or default with
    | some body => body
    | none => Script.pure (false, switchSkip)
  else Script.pure (false, switchFail)

def loopIf (finishResult : Bool) (cond body : Program) : Nat → Program
  | 0 => Script.halt .cutOff
  | rounds + 1 => do
      let r ← cond
      if r.1 then
        let _ ← body
        loopIf finishResult cond body rounds
      else Script.pure (finishResult, r.2)

end Program

def Mode.isLast (mode : Mode) (r : Outcome) : Bool :=
  match mode with
  | .allFinish => false
  | .anyFail => !r.1
  | .anySucc => r.1

def LoopMode.isLast (mode : LoopMode) (r : Outcome) : Bool :=
  match mode with
  | .forever => false
  | .untilFail => !r.1
  | .untilSucc => r.1

def WrapperMode.wrap (mode : WrapperMode) (isSucc : Bool) : Bool :=
  match mode with
  | .normal => isSucc
  | .invert => !isSucc
  | .alwaySucc => true
  | .alwayFail => false

def Kind.structured : Kind → Bool
  | .parallel _ _ | .repeatTimes _ _ _ => false
  | _ => true

def Kind.program (child : ActionId → Program) (rounds : Nat) (n : ActionId) : Kind → Program
  | .leaf => Script.call n
  | .sequence mode children => Script.sequence mode.isLast (children.map child) (true, {})
  | .ifThen ifThenActions =>
    Program.ifThen (ifThenActions.map fun item => (child item.1, child item.2))
  | .ifElse ifAction thenAction elseAction =>
    Program.ifElse (child ifAction) (thenAction.map child) (elseAction.map child)
  | .switch switchAction defaultAction caseActions =>
    Program.switch (child switchAction) (defaultAction.map child)
      (caseActions.map fun item => (item.1, child item.2))
  | .loop body mode => Script.loop mode.isLast (child body) rounds
  | .loopIf ifAction execAction finishResult =>
    Program.loopIf finishResult (child ifAction) (child execAction) rounds
  | .wrapper body mode => do
      let r ← child body
      Script.pure (mode.wrap r.1, r.2)
  | .composite body => child body
  | .parallel _ _ | .repeatTimes _ _ _ => Script.halt .cutOff

/-- The program of an action; the fuel bounds the depth of the tree and the rounds of the loops. -/
def Forest.program (F : Forest) : Nat → ActionId → Program
  | 0, _ => Script.halt .cutOff
  | fuel + 1, n => (F.kind n).program (F.program fuel) fuel n

end Tbox.Flow.Action
