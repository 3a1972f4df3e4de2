import Tbox.Lib.Run

/-!
# Events on file descriptors

`fd_event.cpp` of both engines, which differ in `reloadEpoll` only, with the tables of the two loops. All events on
one descriptor share a record, known by the number of its allocation; the place of a destroyed event is empty.
-/

namespace Tbox.Event

/-- The bits of `kReadEvent`, `kWriteEvent` and `kExceptEvent`, and those of `EPOLLIN`, `EPOLLOUT` and
`EPOLLERR`. -/
structure Kinds where
  read : Bool := false
  write : Bool := false
  except : Bool := false
  deriving DecidableEq, Repr, Inhabited

/-- `events_ & events`, as a condition. -/
def Kinds.meets (a b : Kinds) : Bool := a.read && b.read || a.write && b.write || a.except && b.except

abbrev EventPtr := Nat

abbrev DataPtr := Nat

structure FdEvent where
  fd : Int := -1
  events : Kinds := {}
  isEnabled : Bool := false
  isStopAfterTrigger : Bool := false
  d : Option DataPtr := none
  deriving DecidableEq, Repr, Inhabited

structure FdSharedData where
  ref : Int := 0
  /-- `ev.events`, in epoll only -/
  ev : Kinds := {}
  readEventNum : Int := 0
  writeEventNum : Int := 0
  exceptEventNum : Int := 0
  fdEvents : List EventPtr := []
  deriving DecidableEq, Repr, Inhabited

namespace FdSharedData

/-- What `enable` and `disable` do to the three counters. -/
def count (d : FdSharedData) (events : Kinds) (n : Int) : FdSharedData :=
  { d with
    readEventNum := if events.read then d.readEventNum + n else d.readEventNum
    writeEventNum := if events.write then d.writeEventNum + n else d.writeEventNum
    exceptEventNum := if events.except then d.exceptEventNum + n else d.exceptEventNum }

def asked (d : FdSharedData) : Kinds :=
  ⟨0 < d.readEventNum, 0 < d.writeEventNum, 0 < d.exceptEventNum⟩

end FdSharedData

inductive CtlOp where
  | add | mod | del
  deriving DecidableEq, Repr

/-- The epoll instance: the mask and the pointer of each descriptor, and whether it has refused a call (`EEXIST`,
`ENOENT`). -/
structure Epoll where
  interest : Int → Option (Kinds × DataPtr) := fun _ => none
  refused : Bool := false

def Epoll.ctl (k : Epoll) (op : CtlOp) (fd : Int) (ev : Kinds × DataPtr) : Epoll :=
  match op, k.interest fd with
  | .add, none => { k with interest := Function.update k.interest fd (some ev) }
  | .mod, some _ => { k with interest := Function.update k.interest fd (some ev) }
  | .del, some _ => { k with interest := Function.update k.interest fd none }
  | _, _ => { k with refused := true }

inductive Engine where
  | epoll | select
  deriving DecidableEq, Repr

structure FdLoop where
  fdDataMap : Int → Option DataPtr := fun _ => none
  /-- what the pointers of `fd_shared_data_pool_` point to -/
  data : DataPtr → FdSharedData := fun _ => {}
  dataAlloc : Nat := 0
  events : List (Option FdEvent) := []
  epoll : Epoll := {}

namespace FdLoop

def event (s : FdLoop) (e : EventPtr) : Option FdEvent := s.events[e]?.join

def setEvent (s : FdLoop) (e : EventPtr) (ev : Option FdEvent) : FdLoop :=
  { s with events := s.events.set e ev }

def setData (s : FdLoop) (d : DataPtr) (data : FdSharedData) : FdLoop :=
  { s with data := Function.update s.data d data }

def refFdSharedData (s : FdLoop) (fd : Int) : DataPtr × FdLoop :=
  match s.fdDataMap fd with
  | some d => (d, s.setData d { s.data d with ref := (s.data d).ref + 1 })
  | none =>
    (s.dataAlloc,
      { s.setData s.dataAlloc { ref := 1 } with
        fdDataMap := Function.update s.fdDataMap fd (some s.dataAlloc)
        dataAlloc := s.dataAlloc + 1 })

def unrefFdSharedData (s : FdLoop) (fd : Int) : FdLoop :=
  match s.fdDataMap fd with
  | none => s
  | some d =>
    let s := s.setData d { s.data d with ref := (s.data d).ref - 1 }
    if (s.data d).ref = 0 then { s with fdDataMap := Function.update s.fdDataMap fd none } else s

def reloadEpoll (s : FdLoop) (fd : Int) (d : DataPtr) : FdLoop :=
  let oldEvents := (s.data d).ev
  let newEvents := (s.data d).asked
  let s := s.setData d { s.data d with ev := newEvents }
  if oldEvents = {} then
    if newEvents ≠ {} then { s with epoll := s.epoll.ctl .add fd (newEvents, d) } else s
  else if newEvents ≠ {} then { s with epoll := s.epoll.ctl .mod fd (newEvents, d) }
  else { s with epoll := s.epoll.ctl .del fd (newEvents, d) }

def reload (s : FdLoop) (engine : Engine) (fd : Int) (d : DataPtr) : FdLoop :=
  match engine with
  | .epoll => s.reloadEpoll fd d
  | .select => s

/-- `newFdEvent`. -/
def construct (s : FdLoop) : FdLoop := { s with events := s.events ++ [some {}] }

/-- `initialize`, of the event `e` whose members are `ev`; so are the others. -/
def initializeEvent (s : FdLoop) (e : EventPtr) (ev : FdEvent) (fd : Int) (events : Kinds)
    (oneshot : Bool) : FdLoop :=
  if ev.isEnabled then s
  else if fd ≠ ev.fd then
    let (d, s) := (s.unrefFdSharedData ev.fd).refFdSharedData fd
    s.setEvent e (some { ev with
      fd, d, events, isStopAfterTrigger := ev.isStopAfterTrigger || oneshot })
  else
    s.setEvent e (some { ev with
      events, isStopAfterTrigger := ev.isStopAfterTrigger || oneshot })

def enable (s : FdLoop) (engine : Engine) (e : EventPtr) (ev : FdEvent) : FdLoop :=
  match ev.d with
  | none => s
  | some d =>
    if ev.isEnabled then s
    else
      let data := (s.data d).count ev.events 1
      ((s.setData d { data with fdEvents := data.fdEvents ++ [e] }).reload engine ev.fd d).setEvent e
        (some { ev with isEnabled := true })

def disable (s : FdLoop) (engine : Engine) (e : EventPtr) (ev : FdEvent) : FdLoop :=
  match ev.d with
  | none => s
  | some d =>
    if ¬ev.isEnabled then s
    else
      let data := (s.data d).count ev.events (-1)
      ((s.setData d { data with fdEvents := data.fdEvents.erase e }).reload engine ev.fd d).setEvent e
        (some { ev with isEnabled := false })

def destroy (s : FdLoop) (engine : Engine) (e : EventPtr) (ev : FdEvent) : FdLoop :=
  ((s.disable engine e ev).unrefFdSharedData ev.fd).setEvent e none

/-- `onEvent`, and whether it comes to the callback. -/
def onEvent (s : FdLoop) (engine : Engine) (e : EventPtr) (ev : FdEvent) (ready : Kinds) : Bool × FdLoop :=
  if ev.events.meets ready then (true, if ev.isStopAfterTrigger then s.disable engine e ev else s) else (false, s)

end FdLoop

inductive FdCall where
  | construct
  | initializeEvent (e : EventPtr) (fd : Int) (events : Kinds) (oneshot : Bool)
  | enable (e : EventPtr)
  | disable (e : EventPtr)
  | destroy (e : EventPtr)
  deriving DecidableEq, Repr

def FdCall.Legal : FdCall → Prop
  | .initializeEvent _ fd _ _ => 0 ≤ fd
  | _ => True

instance : ∀ call : FdCall, Decidable call.Legal
  | .initializeEvent _ fd _ _ => inferInstanceAs (Decidable (0 ≤ fd))
  | .construct | .enable _ | .disable _ | .destroy _ => inferInstanceAs (Decidable True)

def FdLoop.call (s : FdLoop) (engine : Engine) : FdCall → Option FdLoop
  | .construct => some s.construct
  | .initializeEvent e fd events oneshot =>
    (s.event e).map fun ev => s.initializeEvent e ev fd events oneshot
  | .enable e => (s.event e).map fun ev => s.enable engine e ev
  | .disable e => (s.event e).map fun ev => s.disable engine e ev
  | .destroy e => (s.event e).map fun ev => s.destroy engine e ev

inductive FdOp where
  | call (c : FdCall)
  | fire (e : EventPtr) (ready : Kinds)
  deriving DecidableEq, Repr

def FdLoop.perform (engine : Engine) (s : FdLoop) : FdOp → Option (Bool × FdLoop)
  | .call c => (s.call engine c).map fun s => (false, s)
  | .fire e ready => (s.event e).map fun ev => s.onEvent engine e ev ready

end Tbox.Event
