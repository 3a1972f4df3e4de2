import Mathlib.Tactic

/-!
# Modules

`main/module.cpp`: a tree of modules, each with the hooks its author overrides, which are brought up
and down from the top. What the hooks of the modules are called for is recorded in a log.
-/

namespace Tbox.Main

inductive State where
  /-- constructed only -/
  | none
  | inited
  | running
  deriving DecidableEq, Repr

variable {ι J : Type}

mutual

inductive Module (ι : Type) where
  | mk (id : ι) (name : String) (state : State) (children : Children ι)

/-- `children_`, each with whether it is required. -/
inductive Children (ι : Type) where
  | nil
  | cons (child : Module ι) (required : Bool) (rest : Children ι)

end

/-- What is asked of a configuration. -/
class Config (J : Type) where
  contains : J → String → Bool
  get : J → String → J

structure Hooks (ι J : Type) where
  onInit : ι → J → Bool
  onStart : ι → Bool

inductive Event (ι : Type) where
  | onInit (id : ι) (success : Bool)
  | onStart (id : ι) (success : Bool)
  | onStop (id : ι)
  | onCleanup (id : ι)
  deriving DecidableEq, Repr

namespace Module

def id : Module ι → ι
  | .mk id _ _ _ => id

def name : Module ι → String
  | .mk _ name _ _ => name

def state : Module ι → State
  | .mk _ _ state _ => state

def children : Module ι → Children ι
  | .mk _ _ _ children => children

end Module

namespace Children

def names : Children ι → List String
  | .nil => []
  | .cons child _ rest => child.name :: rest.names

/-- `emplace_back` -/
def push (child : Module ι) (required : Bool) : Children ι → Children ι
  | .nil => .cons child required .nil
  | .cons first needed rest => .cons first needed (rest.push child required)

end Children

namespace Module

def add : Module ι → Module ι → Bool → Bool × Module ι
  | .mk id name state children, child, required =>
    if state ≠ .none then (false, .mk id name state children)
    else if child.name ∈ children.names then (false, .mk id name state children)
    else (true, .mk id name state (children.push child required))

def rename (name : String) : Module ι → Module ι
  | .mk id _ state children => .mk id name state children

def addAs (parent child : Module ι) (name : String) (required : Bool) :
    Bool × Module ι × Module ι :=
  let (success, parent) := parent.add (child.rename name) required
  (success, if success then child.rename name else child, parent)

end Module

section Initialize

variable [Config J] (hooks : Hooks ι J)

mutual

def Module.initialize : Module ι → J → Bool × Module ι × List (Event ι)
  | .mk id name state children, jsParent =>
    if state ≠ .none then (false, .mk id name state children, [])
    else if name ≠ "" ∧ !Config.contains jsParent name then
      (false, .mk id name state children, [])
    else
      let jsThis := if name = "" then jsParent else Config.get jsParent name
      if hooks.onInit id jsThis then
        let (success, children, log) := children.initialize jsThis
        (success, .mk id name (if success then .inited else state) children,
          .onInit id true :: log)
      else (false, .mk id name state children, [.onInit id false])

def Children.initialize : Children ι → J → Bool × Children ι × List (Event ι)
  | .nil, _ => (true, .nil, [])
  | .cons child required rest, jsThis =>
    let (success, child, log) := child.initialize jsThis
    if !success && required then (false, .cons child required rest, log)
    else
      let (success, rest, log') := rest.initialize jsThis
      (success, .cons child required rest, log ++ log')

end

mutual

def Module.start : Module ι → Bool × Module ι × List (Event ι)
  | .mk id name state children =>
    if state ≠ .inited then (false, .mk id name state children, [])
    else if hooks.onStart id then
      let (success, children, log) := children.start
      (success, .mk id name (if success then .running else state) children,
        .onStart id true :: log)
    else (false, .mk id name state children, [.onStart id false])

def Children.start : Children ι → Bool × Children ι × List (Event ι)
  | .nil => (true, .nil, [])
  | .cons child required rest =>
    let (success, child, log) := child.start
    if !success && required then (false, .cons child required rest, log)
    else
      let (success, rest, log') := rest.start
      (success, .cons child required rest, log ++ log')

end

end Initialize

mutual

def Module.stop : Module ι → Module ι × List (Event ι)
  | .mk id name state children =>
    if state ≠ .running then (.mk id name state children, [])
    else
      let (children, log) := children.stop
      (.mk id name .inited children, log ++ [.onStop id])

def Children.stop : Children ι → Children ι × List (Event ι)
  | .nil => (.nil, [])
  | .cons child required rest =>
    let (rest, log) := rest.stop
    let (child, log') := child.stop
    (.cons child required rest, log ++ log')

end

mutual

@[simp]
theorem Module.sizeOf_stop : ∀ m : Module ι, sizeOf m.stop.1 = sizeOf m
  | .mk id name state children => by
    rw [Module.stop]
    split
    · rfl
    · have hchildren := children.sizeOf_stop
      cases state <;> simp [hchildren]

@[simp]
theorem Children.sizeOf_stop : ∀ cs : Children ι, sizeOf cs.stop.1 = sizeOf cs
  | .nil => rfl
  | .cons child required rest => by
    have hchild := child.sizeOf_stop
    have hrest := rest.sizeOf_stop
    simp [Children.stop, hchild, hrest]

end

theorem Module.sizeOf_children_lt (m : Module ι) : sizeOf m.children < sizeOf m := by
  cases m with
  | mk id name state children =>
    rw [Module.children, Module.mk.sizeOf_spec]
    omega

mutual

def Module.cleanup : Module ι → Module ι × List (Event ι)
  | .mk id name state children =>
    if state = .none then (.mk id name state children, [])
    else
      let stopped := (Module.mk id name state children).stop
      let (children, log) := stopped.1.children.cleanup
      (.mk id name .none children, stopped.2 ++ log ++ [.onCleanup id])
  termination_by m => sizeOf m
  decreasing_by
    rw [← Module.sizeOf_stop (Module.mk id name state children)]
    exact Module.sizeOf_children_lt _

def Children.cleanup : Children ι → Children ι × List (Event ι)
  | .nil => (.nil, [])
  | .cons child required rest =>
    let (rest, log) := rest.cleanup
    let (child, log') := child.cleanup
    (.cons child required rest, log ++ log')
  termination_by cs => sizeOf cs

end

end Tbox.Main
