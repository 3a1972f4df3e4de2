import Tbox.Lib.SharedHandles

/-!
# Tags that tell whether an object is still there

`base/lifetime_tag.hpp`: a tag lives in an object, and watchers ask whether it still does. Both share a detail that
counts the watchers, which never look whether the pointer they copy is null.
-/

namespace Tbox.LifetimeTag

open Tbox.Lib (Counting HandleOp Sharing)

structure Detail where
  alive : Bool := true
  watcherCounter : Int := 0
  deriving DecidableEq, Repr

structure Heap where
  /-- `none` has been deleted -/
  details : List (Option Detail) := []
  deleted : List Nat := []
  /-- the tags' pointers, `none` for a tag that has been destroyed -/
  tags : List (Option Nat) := []
  /-- a pointer was followed that is null or leads to a deleted detail, or a counter left the range of an int -/
  crashed : Bool := false
  deriving DecidableEq, Repr

namespace Heap

/-- `*d_` -/
def access (h : Heap) (d : Option Nat) (f : Nat → Detail → Heap) : Heap :=
  match d with
  | none => { h with crashed := true }
  | some p =>
    match h.details[p]? with
    | some (some detail) => f p detail
    | _ => { h with crashed := true }

def store (h : Heap) (p : Nat) (detail : Detail) : Heap := { h with details := h.details.set p (some detail) }

/-- `delete d_` -/
def delete (h : Heap) (p : Nat) : Heap :=
  { h with details := h.details.set p none, deleted := h.deleted ++ [p] }

/-- `++d_->watcher_counter` -/
def acquire (d : Option Nat) (h : Heap) : Heap :=
  h.access d fun p detail =>
    if detail.watcherCounter + 1 < 2 ^ 31 then h.store p { detail with watcherCounter := detail.watcherCounter + 1 }
    else { h with crashed := true }

/-- `Watcher::~Watcher` -/
def release (d : Option Nat) (h : Heap) : Heap :=
  if d ≠ none then
    h.access d fun p detail =>
      let detail := { detail with watcherCounter := detail.watcherCounter - 1 }
      if detail.watcherCounter = 0 ∧ !detail.alive then (h.store p detail).delete p else h.store p detail
  else h

def newTag (h : Heap) : Heap :=
  { h with details := h.details ++ [some {}], tags := h.tags ++ [some h.details.length] }

/-- `LifetimeTag::~LifetimeTag` -/
def destroyTag (h : Heap) (t : Nat) (d : Option Nat) : Heap :=
  { h.access d fun p detail =>
      if detail.watcherCounter = 0 then h.delete p else h.store p { detail with alive := false } with
    tags := h.tags.set t none }

/-- `Watcher::isNull` -/
def isNull (d : Option Nat) : Bool := d ≠ none

/-- `Watcher::isAlive`, none where it looks at a deleted detail. -/
def isAlive (h : Heap) (d : Option Nat) : Option Bool :=
  match d with
  | none => some false
  | some p => h.details[p]?.join.map Detail.alive

end Heap

def counting : Counting Heap := ⟨Heap.acquire, Heap.release⟩

abbrev World := Sharing Heap

inductive Action where
  | newTag
  /-- a tag from another, by copying or moving -/
  | copyTag (t : Nat)
  /-- one tag to another, by copying or moving -/
  | assignTag (t u : Nat)
  | destroyTag (t : Nat)
  /-- a new watcher from a tag, and `get()` -/
  | watch (t : Nat)
  | assignFromTag (i t : Nat)
  /-- what is done with watchers alone -/
  | watcher (op : HandleOp)
  | askNull (i : Nat)
  | askAlive (i : Nat)
  deriving DecidableEq, Repr

def start : World := { heap := {} }

namespace World

def tag? (w : World) (t : Nat) : Option Nat := w.heap.tags[t]?.join

end World

/-- An action, unless it is about a tag or a watcher that does not exist. -/
def step (w : World) : Action → Option World
  | .newTag => some { w with heap := w.heap.newTag }
  | .copyTag t => do
      let _ ← w.tag? t
      return { w with heap := w.heap.newTag }
  | .assignTag t u => do
      let _ ← w.tag? t
      let _ ← w.tag? u
      return w
  | .destroyTag t => do
      let p ← w.tag? t
      return { w with heap := w.heap.destroyTag t (some p) }
  | .watch t => do
      let p ← w.tag? t
      return { w.push (some p) with heap := w.heap.acquire (some p) }
  | .assignFromTag i t => do
      let old ← w.pointer? i
      let p ← w.tag? t
      return { w.put i (.holds (some p)) with heap := Heap.acquire (some p) (w.heap.release old) }
  | .watcher op => w.step counting op
  | .askNull i => do
      let _ ← w.pointer? i
      return w
  | .askAlive i => do
      let _ ← w.pointer? i
      return w

end Tbox.LifetimeTag
