import Tbox.Lib.StdString

/-!
# Values of JSON

`base/json.hpp`, as much of it as is used elsewhere. A number is kept as it was written down: as an integer with or
without a sign, or else as a `double`, by its bits.
-/

namespace Tbox.Base

open Tbox.Lib (Bytes)

inductive Json where
  | null
  | boolean (value : Bool)
  | numberInteger (value : Int64)
  | numberUnsigned (value : UInt64)
  | numberFloat (bits : UInt64)
  | string (value : Bytes)
  | array (items : List Json)
  | object (fields : List (Bytes × Json))
  deriving Repr

namespace Json

variable {js : Json} {name : Bytes} {fields : List (Bytes × Json)} {f : Json → Json}

def isNull : Json → Bool
  | null => true
  | _ => false

def find? (name : Bytes) : Json → Option Json
  | object fields => fields.lookup name
  | _ => none

def contains (js : Json) (name : Bytes) : Bool := (js.find? name).isSome

def assignField (name : Bytes) (f : Json → Json) : List (Bytes × Json) → List (Bytes × Json)
  | [] => [(name, f null)]
  | (key, value) :: fields =>
    if key = name then (key, f value) :: fields else (key, value) :: assignField name f fields

/-- An assignment to `js[name]` or to a part of it. A value that can have no fields throws, and is left as it is. -/
def assign (js : Json) (name : Bytes) (f : Json → Json) : Json :=
  match js with
  | object fields => object (assignField name f fields)
  | null => object [(name, f null)]
  | js => js

@[simp] theorem find?_object (name : Bytes) (fields : List (Bytes × Json)) :
    (object fields).find? name = fields.lookup name := rfl

end Json

end Tbox.Base
