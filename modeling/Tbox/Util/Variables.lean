import Mathlib.Data.List.AList
import Mathlib.Logic.Function.Basic
import Tbox.Lib.StdString

/-!
# Variables in scopes

`util/variables.cpp`: an object has variables of its own and a pointer to the enclosing scope, where names are looked
up next. A lookup with too few rounds has no result.
-/

namespace Tbox.Util

open Tbox.Lib (Bytes)

abbrev VariablesId := Nat

abbrev VariableMap (J : Type) := AList fun _ : Bytes => J

@[ext] structure Variables (J : Type) where
  parent : Option VariablesId := none
  varMap : Option (VariableMap J) := none
  notEmpty : ∀ map, varMap = some map → ∃ name, name ∈ map := by simp

namespace Variables

variable {J : Type}

/-- `var_map_->find(name)`, if there is a map. -/
def find (v : Variables J) (name : Bytes) : Option J := v.varMap.bind (·.lookup name)

def put (v : Variables J) (map : VariableMap J) (name : Bytes) (value : J) : Variables J :=
  { v with
    varMap := some (map.insert name value)
    notEmpty := fun _ heq => ⟨name, Option.some.inj heq ▸ (AList.mem_insert map).mpr (.inl rfl)⟩ }

def define (v : Variables J) (name : Bytes) (initValue : J) : Bool × Variables J :=
  let map := v.varMap.getD ∅
  if name ∈ map then (false, v) else (true, v.put map name initValue)

def undefine (v : Variables J) (name : Bytes) : Bool × Variables J :=
  match v.varMap with
  | none => (false, v)
  | some map =>
    if name ∉ map then (false, v)
    else
      match h : (map.erase name).keys with
      | [] => (true, { v with varMap := none, notEmpty := by simp })
      | first :: _ =>
        (true, { v with
          varMap := some (map.erase name)
          notEmpty := fun _ heq => ⟨first, Option.some.inj heq ▸ AList.mem_keys.mpr (h ▸ List.mem_cons_self)⟩ })

/-- The first half of `set`: `iter->second = js_new_value`, if the name is found. -/
def setHere (v : Variables J) (name : Bytes) (newValue : J) : Option (Variables J) :=
  match v.varMap with
  | none => none
  | some map => if name ∈ map then some (v.put map name newValue) else none

/-- `copy`. -/
def copy (v other : Variables J) : Variables J :=
  match h : other.varMap with
  | none => { v with parent := other.parent }
  | some map =>
    { v with
      parent := other.parent
      varMap := some map
      notEmpty := fun _ heq => other.notEmpty _ (h.trans heq) }

end Variables

abbrev Scopes (J : Type) := VariablesId → Variables J

namespace Scopes

variable {J : Type}

/-- What `has`, `get` and `set` share: the first object where something is found, as far as the lookup goes. -/
def lookup {β : Type} (found : VariablesId → Option β) (missing : β) (scopes : Scopes J) :
    Nat → VariablesId → Bool → Option β
  | 0, _, _ => none
  | rounds + 1, a, localOnly =>
    match found a with
    | some x => some x
    | none =>
      match localOnly, (scopes a).parent with
      | false, some parent => lookup found missing scopes rounds parent false
      | _, _ => some missing

def has (scopes : Scopes J) (rounds : Nat) (a : VariablesId) (name : Bytes) (localOnly : Bool) : Option Bool :=
  lookup (fun b => ((scopes b).find name).map fun _ => true) false scopes rounds a localOnly

def get (scopes : Scopes J) (rounds : Nat) (a : VariablesId) (name : Bytes) (localOnly : Bool) : Option (Option J) :=
  lookup (fun b => ((scopes b).find name).map some) none scopes rounds a localOnly

def set (scopes : Scopes J) (rounds : Nat) (a : VariablesId) (name : Bytes) (newValue : J) (localOnly : Bool) :
    Option (Bool × Scopes J) :=
  lookup (fun b => ((scopes b).setHere name newValue).map fun v => (true, Function.update scopes b v)) (false, scopes)
    scopes rounds a localOnly

/-- `a = b`. -/
def assign (scopes : Scopes J) (a b : VariablesId) : Scopes J :=
  if a ≠ b then Function.update scopes a ((scopes a).copy (scopes b)) else scopes

/-- The construction of `a` as a copy of `b`. -/
def construct (scopes : Scopes J) (a b : VariablesId) : Scopes J :=
  Function.update scopes a (Variables.copy {} (scopes b))

def define (scopes : Scopes J) (a : VariablesId) (name : Bytes) (initValue : J) : Scopes J :=
  Function.update scopes a ((scopes a).define name initValue).2

def undefine (scopes : Scopes J) (a : VariablesId) (name : Bytes) : Scopes J :=
  Function.update scopes a ((scopes a).undefine name).2

end Scopes

end Tbox.Util
