import Mathlib.Tactic

/-!
# The cabinet

`base/cabinet_token.h` and `base/cabinet.hpp`: a vector of cells with a free list threaded through them hands out a
token for every stored pointer (`none` is `nullptr`). `Raw` is the object as the code has it, and `Cabinet` carries
its well-formedness.
-/

namespace Tbox.Cabinet

abbrev Id := Nat

abbrev Pos := Nat

/-- `std::numeric_limits<size_t>::max()`: the last id, and the end marker of the free list. -/
def sizeMax : Nat := 2 ^ 64 - 1

/-- `cabinet::Token`. -/
structure Token where
  id : Id := 0
  pos : Pos := 0
  deriving DecidableEq, Repr, Inhabited

def Token.isNull (token : Token) : Bool := token.id == 0

/-- The union in a cell: a free cell holds `next_free`, an occupied one `obj_ptr`. -/
inductive Slot (α : Type) where
  | objPtr (obj : Option α)
  | nextFree (pos : Pos)
  deriving DecidableEq, Repr

/-- Reading the union as `obj_ptr`. -/
def Slot.obj {α : Type} : Slot α → Option α
  | .objPtr obj => obj
  | .nextFree _ => none

/-- Reading the union as `next_free`. -/
def Slot.next {α : Type} : Slot α → Pos
  | .objPtr _ => 0
  | .nextFree pos => pos

structure Cell (α : Type) where
  id : Id := 0
  slot : Slot α := .objPtr none
  deriving DecidableEq, Repr

structure Raw (α : Type) where
  lastId : Id := 0
  cells : List (Cell α) := []
  firstFree : Pos := sizeMax
  count : Nat := 0
  deriving DecidableEq, Repr

namespace Raw

variable {α σ : Type}

/-- The id counter skips `0`, which marks free cells and null tokens. -/
def allocId (c : Raw α) : Id × Raw α :=
  let lastId := if c.lastId = sizeMax then 0 else c.lastId
  (lastId + 1, { c with lastId := lastId + 1 })

def allocPos (c : Raw α) : Pos × Raw α :=
  if c.firstFree ≠ sizeMax then
    (c.firstFree,
      { c with firstFree := ((c.cells[c.firstFree]?).map fun cell => cell.slot.next).getD sizeMax })
  else
    (c.cells.length, { c with cells := c.cells ++ [{}] })

def alloc (c : Raw α) (obj : Option α) : Token × Raw α :=
  let (id, c) := c.allocId
  let (pos, c) := c.allocPos
  (⟨id, pos⟩, { c with cells := c.cells.set pos ⟨id, .objPtr obj⟩, count := c.count + 1 })

/-- The cell a token opens: the bounds and id checks that `update`, `free` and `at` share. -/
def cellOf (c : Raw α) (token : Token) : Option (Cell α) :=
  if token.isNull then none
  else match c.cells[token.pos]? with
    | none => none
    | some cell => if cell.id = token.id then some cell else none

def update (c : Raw α) (token : Token) (obj : Option α) : Bool × Raw α :=
  match c.cellOf token with
  | none => (false, c)
  | some cell => (true, { c with cells := c.cells.set token.pos { cell with slot := .objPtr obj } })

def free (c : Raw α) (token : Token) : Option α × Raw α :=
  match c.cellOf token with
  | none => (none, c)
  | some cell =>
    (cell.slot.obj,
      { c with
        cells := c.cells.set token.pos ⟨0, .nextFree c.firstFree⟩
        firstFree := token.pos
        count := c.count - 1 })

def clear (_ : Raw α) : Raw α := {}

def at? (c : Raw α) (token : Token) : Option α :=
  (c.cellOf token).bind fun cell => cell.slot.obj

def size (c : Raw α) : Nat := c.count

/-- One position of the `foreach` loop. The cells are read again, since `func` may have removed objects. -/
def visit (cellsOf : σ → List (Cell α)) (func : Option α → σ → σ) (s : σ) (pos : Pos) : σ :=
  match (cellsOf s)[pos]? with
  | some cell => if cell.id ≠ 0 then func cell.slot.obj s else s
  | none => s

/-- `foreach`, with `func` acting on any state that contains the cabinet. -/
def foreach (cellsOf : σ → List (Cell α)) (func : Option α → σ → σ) (s : σ) : σ :=
  (List.range (cellsOf s).length).foldl (visit cellsOf func) s

/-- The objects a `foreach` that changes nothing comes across, in order. -/
def objects (c : Raw α) : List (Option α) :=
  (c.cells.filter fun cell => cell.id ≠ 0).map fun cell => cell.slot.obj

end Raw

end Tbox.Cabinet
