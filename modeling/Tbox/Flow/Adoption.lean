import Mathlib.Tactic

/-!
# Giving an assembled action its children

`Action::setParent` and the functions of `flow/actions` that give an action a child, with the variables an action
finds through its parent. Of the log there is only the warning with too few arguments; the destructor of a replaced
child is left out.
-/

namespace Tbox.Flow.Adoption

abbrev ActionId := Nat

/-- `Variables *parent_` -/
inductive VarsPtr where
  | null
  /-- `vars_` of an action -/
  | action (n : ActionId)
  /-- variables that are not an action's -/
  | outside (scope : Nat)
  /-- `&(parent->vars_)` of a null `parent`: not null, and nothing is there -/
  | wild
  deriving DecidableEq, Repr

/-- `&(parent->vars_)` -/
def VarsPtr.ofParent : Option ActionId → VarsPtr
  | some parent => .action parent
  | none => .wild

inductive Callback where
  | user (no : Nat)
  | block (n : ActionId)
  | onLastChildFinished (n : ActionId)
  | onChildFinished (n : ActionId)
  | onCondActionFinished (n : ActionId)
  | onSwitchActionFinished (n : ActionId)
  | onIfActionFinished (n : ActionId)
  | onIfFinished (n : ActionId)
  | onExecFinished (n : ActionId)
  | onChildFinishedAt (n : ActionId) (index : Nat)
  | onChildBlockedAt (n : ActionId) (index : Nat)
  deriving DecidableEq, Repr

structure Action (V : Type) where
  parent : Option ActionId := none
  vars : List (String × V) := []
  varsParent : VarsPtr := .null
  finishCb : Option Callback := none
  blockCb : Option Callback := none

inductive Children where
  | sequence (children : List ActionId)
  | parallel (children : List ActionId)
  | ifThen (tmpFirst tmpSecond : Option ActionId) (ifThenActions : List (ActionId × ActionId))
  | ifElse (ifAction thenAction elseAction : Option ActionId)
  | switch (switchAction defaultAction : Option ActionId) (caseActions : List (String × ActionId))
  | loop (child : Option ActionId)
  | loopIf (ifAction execAction : Option ActionId)
  | repeatTimes (child : Option ActionId)
  | wrapper (child : Option ActionId)
  | composite (child : Option ActionId)
  deriving DecidableEq, Repr

def Children.members : Children → List ActionId
  | .sequence children | .parallel children => children
  | .ifThen tmpFirst tmpSecond ifThenActions =>
    tmpFirst.toList ++ tmpSecond.toList ++ ifThenActions.flatMap fun item => [item.1, item.2]
  | .ifElse ifAction thenAction elseAction => ifAction.toList ++ thenAction.toList ++ elseAction.toList
  | .switch switchAction defaultAction caseActions =>
    switchAction.toList ++ defaultAction.toList ++ caseActions.map Prod.snd
  | .loopIf ifAction execAction => ifAction.toList ++ execAction.toList
  | .loop child | .repeatTimes child | .wrapper child | .composite child => child.toList

structure World (V : Type) where
  action : ActionId → Action V := fun _ => {}
  children : ActionId → Children
  outside : Nat → String → Option V := fun _ _ => none
  /-- the children that have been deleted because others took their places -/
  deleted : List ActionId := []
  /-- whether anybody has `LogPrintfFunc` format what is logged -/
  hasLogChannel : Bool := false

variable {V : Type}

namespace World

def modify (w : World V) (n : ActionId) (f : Action V → Action V) : World V :=
  { w with action := Function.update w.action n (f (w.action n)) }

def setChildren (w : World V) (n : ActionId) (children : Children) : World V :=
  { w with children := Function.update w.children n children }

/-- `setFinishCallback`, then `setBlockCallback` -/
def setCallbacks (w : World V) (child : ActionId) (finishCb blockCb : Callback) : World V :=
  w.modify child fun a => { a with finishCb := some finishCb, blockCb := some blockCb }

/-- `CHECK_DELETE_RESET_OBJ` -/
def deleteObj (w : World V) (old : Option ActionId) : World V := { w with deleted := w.deleted ++ old.toList }

/-- `Variables::get`, where nothing is the answer if the chain of parents has no end or comes to where nothing is. -/
def get (w : World V) : Nat → VarsPtr → String → Option (Option V)
  | 0, _, _ => none
  | fuel + 1, ptr, name =>
    match ptr with
    | .null => some none
    | .wild => none
    | .outside scope => some (w.outside scope name)
    | .action n =>
      match (w.action n).vars.lookup name with
      | some value => some (some value)
      | none => w.get fuel (w.action n).varsParent name

def Finds (w : World V) (ptr : VarsPtr) (name : String) (answer : Option V) : Prop :=
  ∃ fuel, w.get fuel ptr name = some answer

/-- `Action::setParent` -/
def setParent (w : World V) (child : ActionId) (parent : Option ActionId) : Bool × World V :=
  if parent.isSome ∧ (w.action child).parent.isSome then (false, w)
  else (true, w.modify child fun a => { a with varsParent := .ofParent parent, parent := parent })

def take (w : World V) (n child : ActionId) (finishCb : Callback) (old : Option ActionId) (children : Children) :
    World V :=
  ((w.setCallbacks child finishCb (.block n)).deleteObj old).setChildren n children

/-- `child == nullptr`. The warning has three arguments for six directives, so what formatting it does is undefined. -/
def warnNull {α : Type} (w : World V) (answer : α) : Option (α × World V) :=
  if w.hasLogChannel then none else some (answer, w)

end World

def Sequence.addChild (n : ActionId) (children : List ActionId) (child : Option ActionId) (w : World V) :
    Option (Int × World V) :=
  match child with
  -- `return false` from a function whose value is an `int`
  | none => w.warnNull 0
  | some child => some <|
      let set := w.setParent child (some n)
      if set.1 then
        (children.length,
          (set.2.setCallbacks child (.onChildFinished n) (.block n)).setChildren n (.sequence (children ++ [child])))
      else (0, set.2)

def Parallel.addChild (n : ActionId) (children : List ActionId) (action : Option ActionId) (w : World V) :
    Option (Int × World V) :=
  match action with
  | none => w.warnNull (-1)
  | some action => some <|
      let set := w.setParent action (some n)
      if set.1 then
        let index := children.length
        (index, (set.2.setCallbacks action (.onChildFinishedAt n index) (.onChildBlockedAt n index)).setChildren n
          (.parallel (children ++ [action])))
      else (-1, set.2)

def IfThen.addChildAs (n : ActionId) (tmpFirst tmpSecond : Option ActionId) (ifThenActions : List (ActionId × ActionId))
    (child : Option ActionId) (role : String) (w : World V) : Option (Int × World V) :=
  match child with
  | none => w.warnNull (-1)
  | some child => some <|
      if role = "if" then
        match tmpFirst with
        | some _ => (-1, w)
        | none =>
          let set := w.setParent child (some n)
          if set.1 then
            (ifThenActions.length, (set.2.setCallbacks child (.onIfActionFinished n) (.block n)).setChildren n
              (.ifThen (some child) tmpSecond ifThenActions))
          else (-1, set.2)
      else if role = "then" then
        match tmpFirst with
        | none => (-1, w)
        | some first =>
          let set := w.setParent child (some n)
          if set.1 then
            (ifThenActions.length, (set.2.setCallbacks child (.onLastChildFinished n) (.block n)).setChildren n
              (.ifThen none none (ifThenActions ++ [(first, child)])))
          else (-1, set.2)
      else (-1, w)

def IfElse.setChildAs (n : ActionId) (ifAction thenAction elseAction : Option ActionId) (child : Option ActionId)
    (role : String) (w : World V) : Option (Bool × World V) :=
  match child with
  | none => w.warnNull false
  | some child => some <|
      let set := w.setParent child (some n)
      if set.1 then
        if role = "if" then
          (true, set.2.take n child (.onCondActionFinished n) ifAction (.ifElse (some child) thenAction elseAction))
        else if role = "succ" ∨ role = "then" then
          (true, set.2.take n child (.onLastChildFinished n) thenAction (.ifElse ifAction (some child) elseAction))
        else if role = "fail" ∨ role = "else" then
          (true, set.2.take n child (.onLastChildFinished n) elseAction (.ifElse ifAction thenAction (some child)))
        else (false, (set.2.setParent child none).2)
      else (false, set.2)

/-- `emplace` of a map whose keys are in order; nothing if the key is there. -/
def Switch.emplace (caseActions : List (String × ActionId)) (role : String) (child : ActionId) :
    Option (List (String × ActionId)) :=
  if (caseActions.lookup role).isSome then none
  else
    some (caseActions.takeWhile (fun item => item.1 < role) ++
      (role, child) :: caseActions.dropWhile fun item => item.1 < role)

def Switch.isCase (role : String) : Bool := "case:".toList.isPrefixOf role.toList

def Switch.setChildAs (n : ActionId) (switchAction defaultAction : Option ActionId)
    (caseActions : List (String × ActionId)) (child : Option ActionId) (role : String) (w : World V) :
    Option (Bool × World V) :=
  match child with
  | none => some (false, w)
  | some child => some <|
      let set := w.setParent child (some n)
      if set.1 then
        if role = "switch" then
          (true,
            set.2.take n child (.onSwitchActionFinished n) switchAction
              (.switch (some child) defaultAction caseActions))
        else if role = "default" then
          (true,
            set.2.take n child (.onLastChildFinished n) defaultAction (.switch switchAction (some child) caseActions))
        else
          match if isCase role then emplace caseActions role child else none with
          | some caseActions =>
            (true, set.2.take n child (.onLastChildFinished n) none (.switch switchAction defaultAction caseActions))
          | none => (false, (set.2.setParent child none).2)
      else (false, set.2)

def LoopIf.setChildAs (n : ActionId) (ifAction execAction : Option ActionId) (child : Option ActionId) (role : String)
    (w : World V) : Option (Bool × World V) :=
  match child with
  | none => w.warnNull false
  | some child => some <|
      let set := w.setParent child (some n)
      if set.1 then
        if role = "if" then
          (true, set.2.take n child (.onIfFinished n) ifAction (.loopIf (some child) execAction))
        else if role = "exec" then
          (true, set.2.take n child (.onExecFinished n) execAction (.loopIf ifAction (some child)))
        else (false, (set.2.setParent child none).2)
      else (false, set.2)

/-- The `setChild` of the actions that have one child. -/
def setOnlyChild (n : ActionId) (finishCb : Callback) (old : Option ActionId) (children : Option ActionId → Children)
    (child : Option ActionId) (w : World V) : Option (Bool × World V) :=
  match child with
  | none => w.warnNull false
  | some child => some <|
      let set := w.setParent child (some n)
      if set.1 then (true, set.2.take n child finishCb old (children (some child)))
      else (false, set.2)

def Loop.setChild (n : ActionId) (old : Option ActionId) : Option ActionId → World V → Option (Bool × World V) :=
  setOnlyChild n (.onChildFinished n) old .loop

def Repeat.setChild (n : ActionId) (old : Option ActionId) : Option ActionId → World V → Option (Bool × World V) :=
  setOnlyChild n (.onChildFinished n) old .repeatTimes

def Wrapper.setChild (n : ActionId) (old : Option ActionId) : Option ActionId → World V → Option (Bool × World V) :=
  setOnlyChild n (.onChildFinished n) old .wrapper

def Composite.setChild (n : ActionId) (old : Option ActionId) : Option ActionId → World V → Option (Bool × World V) :=
  setOnlyChild n (.onLastChildFinished n) old .composite

/-- The functions of `AssembleAction` that take a child. -/
inductive Offer where
  | addChild
  | addChildAs (role : String)
  | setChild
  | setChildAs (role : String)
  deriving DecidableEq, Repr

inductive Answer where
  | index (i : Int)
  | flag (isOk : Bool)
  deriving DecidableEq, Repr

def Answer.isFailure : Answer → Bool
  | .index i => i < 0
  | .flag isOk => !isOk

/-- The function that is called, where `AssembleAction` itself implements none. -/
def World.offer (w : World V) (n : ActionId) (offer : Offer) (child : Option ActionId) : Option (Answer × World V) :=
  match w.children n, offer with
  | .sequence children, .addChild => (Sequence.addChild n children child w).map (Prod.map .index id)
  | .parallel children, .addChild => (Parallel.addChild n children child w).map (Prod.map .index id)
  | .ifThen tmpFirst tmpSecond ifThenActions, .addChildAs role =>
    (IfThen.addChildAs n tmpFirst tmpSecond ifThenActions child role w).map (Prod.map .index id)
  | .ifElse ifAction thenAction elseAction, .setChildAs role =>
    (IfElse.setChildAs n ifAction thenAction elseAction child role w).map (Prod.map .flag id)
  | .switch switchAction defaultAction caseActions, .setChildAs role =>
    (Switch.setChildAs n switchAction defaultAction caseActions child role w).map (Prod.map .flag id)
  | .loopIf ifAction execAction, .setChildAs role =>
    (LoopIf.setChildAs n ifAction execAction child role w).map (Prod.map .flag id)
  | .loop old, .setChild => (Loop.setChild n old child w).map (Prod.map .flag id)
  | .repeatTimes old, .setChild => (Repeat.setChild n old child w).map (Prod.map .flag id)
  | .wrapper old, .setChild => (Wrapper.setChild n old child w).map (Prod.map .flag id)
  | .composite old, .setChild => (Composite.setChild n old child w).map (Prod.map .flag id)
  | _, .addChild | _, .addChildAs _ => some (.index (-1), w)
  | _, .setChild | _, .setChildAs _ => some (.flag false, w)

end Tbox.Flow.Adoption
