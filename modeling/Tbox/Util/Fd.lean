import Tbox.Lib.SharedHandles

/-!
# File descriptors that are shared

`util/fd.cpp`: objects that share a descriptor by a counter. A function that closes is known by a number. `put`,
`asked` and the owner in `Closing` are no part of the program: they say what was put in and what was closed.
-/

namespace Tbox.Util.Fd

open Tbox.Lib (Counting HandleOp Sharing)

abbrev CloseFunc := Nat

/-- `Fd::Detail`. An empty `std::function` is `none`. -/
structure Detail where
  fd : Int := -1
  refCount : Int := 1
  closeFunc : Option CloseFunc := none
  deriving DecidableEq, Repr

structure Closing where
  owner : Nat
  fd : Int
  func : Option CloseFunc
  deriving DecidableEq, Repr

structure Heap where
  /-- `none` has been deleted -/
  details : List (Option Detail) := []
  deleted : List Nat := []
  closed : List Closing := []
  /-- a deleted detail was looked at, an assertion failed, or a counter left the range of an int -/
  crashed : Bool := false
  put : List (Int × Option CloseFunc) := []
  asked : List Nat := []
  deriving DecidableEq, Repr

namespace Heap

/-- `*detail_`, for a pointer that is not null. -/
def access (h : Heap) (p : Nat) (f : Detail → Heap) : Heap :=
  match h.details[p]? with
  | some (some detail) => f detail
  | _ => { h with crashed := true }

def store (h : Heap) (p : Nat) (detail : Option Detail) : Heap := { h with details := h.details.set p detail }

def closeFd (h : Heap) (p : Nat) (detail : Detail) : Heap :=
  { h with closed := h.closed ++ [⟨p, detail.fd, detail.closeFunc⟩] }

/-- `detail_ = new Detail` with a descriptor. -/
def newDetail (h : Heap) (fd : Int) (closeFunc : Option CloseFunc) : Heap :=
  { h with
    details := h.details ++ [some { fd := fd, closeFunc := closeFunc }]
    put := h.put ++ [(fd, closeFunc)] }

def acquire (d : Option Nat) (h : Heap) : Heap :=
  match d with
  | none => h
  | some p => h.access p fun detail =>
    if detail.refCount + 1 < 2 ^ 31 then h.store p (some { detail with refCount := detail.refCount + 1 })
    else { h with crashed := true }

def release (d : Option Nat) (h : Heap) : Heap :=
  match d with
  | none => h
  | some p => h.access p fun detail =>
    if detail.refCount ≤ 0 then { h with crashed := true }
    else
      let detail := { detail with refCount := detail.refCount - 1 }
      if detail.refCount = 0 then
        let h := if 0 ≤ detail.fd then h.closeFd p detail else h
        { h.store p none with deleted := h.deleted ++ [p] }
      else h.store p (some detail)

/-- `Fd::close`. -/
def close (d : Option Nat) (h : Heap) : Heap :=
  match d with
  | none => h
  | some p =>
    { h.access p fun detail =>
        if 0 ≤ detail.fd then (h.closeFd p detail).store p (some { detail with fd := -1, closeFunc := none })
        else h with
      asked := h.asked ++ [p] }

/-- `Fd::get`, none for a deleted detail. -/
def get (h : Heap) (d : Option Nat) : Option Int :=
  match d with
  | none => some (-1)
  | some p => h.details[p]?.join.map Detail.fd

end Heap

def counting : Counting Heap := ⟨Heap.acquire, Heap.release⟩

abbrev World := Sharing Heap

inductive Action where
  /-- a new object from a descriptor, with a function or without -/
  | open (fd : Int) (closeFunc : Option CloseFunc)
  | close (i : Nat)
  | handle (op : HandleOp)
  deriving DecidableEq, Repr

def start : World := { heap := {} }

/-- An action, unless it is about an object that does not exist. -/
def step (w : World) : Action → Option World
  | .open fd closeFunc =>
    some { w.push (some w.heap.details.length) with heap := w.heap.newDetail fd closeFunc }
  | .close i => do
      let d ← w.pointer? i
      return { w with heap := w.heap.close d }
  | .handle op => w.step counting op

end Tbox.Util.Fd
