import Tbox.Event.FdEvent

/-!
# Dispatching what a wait has returned

The part of `runLoop` from the wait to the end of the batch, with `OnEventCallback` and `onEvent`. What is ready, and
every call that a callback makes, is the environment's choice; the record says what the loop has come across.
-/

namespace Tbox.Event

/-- An entry of the batch. Epoll also tells the pointer that was registered, and whether there was a
hangup. -/
structure Ready where
  fd : Int
  events : Kinds
  d : DataPtr := 0
  hup : Bool := false
  deriving DecidableEq, Repr

def Ready.tboxEvents (r : Ready) : Kinds := { r.events with read := r.events.read || r.hup }

inductive DispatchPc where
  | idle
  /-- in `handleExpiredTimers` -/
  | timers
  | dispatching
  /-- in the callback of an event -/
  | inCallback (e : EventPtr)
  /-- in undefined behaviour, or out of the loop with an exception -/
  | halted
  deriving DecidableEq, Repr

inductive DispatchEvent where
  /-- the record at `d` is read, which has or has not been released -/
  | opened (d : DataPtr) (live : Bool)
  /-- a descriptor is looked up, and found or not -/
  | lookedUp (fd : Int) (found : Bool)
  /-- `onEvent` is called of an event with these members, `none` for a destroyed one -/
  | entered (e : EventPtr) (ev : Option FdEvent) (ready : Kinds)
  deriving DecidableEq, Repr

structure DispatchWorld where
  loop : FdLoop := {}
  pc : DispatchPc := .idle
  batch : List Ready := []
  /-- what is left of `tmp`, the copy of `fd_events` -/
  tmp : List EventPtr := []
  /-- `tbox_events` -/
  ready : Kinds := {}
  log : List DispatchEvent := []

inductive DispatchInput where
  /-- a call, by a callback or between two iterations -/
  | call (c : FdCall)
  | wait (batch : List Ready)
  /-- the loop goes on -/
  | next
  /-- the callback returns -/
  | returned
  deriving DecidableEq, Repr

/-- What a wait may return: descriptors that are watched, each once, with kinds that are asked for, or
that epoll reports unasked. `select` has them in order. -/
def FdLoop.MayReturn (s : FdLoop) : Engine → List Ready → Prop
  | .epoll, batch => batch.Pairwise (fun r r' => r.fd ≠ r'.fd) ∧
      ∀ r ∈ batch, ∃ x ∈ s.epoll.interest r.fd, x.2 = r.d ∧
        (r.events.read → x.1.read) ∧ (r.events.write → x.1.write)
  | .select, batch => batch.Pairwise (fun r r' => r.fd < r'.fd) ∧
      ∀ r ∈ batch, r.events ≠ {} ∧ ∃ d ∈ s.fdDataMap r.fd,
        (r.events.read → 0 < (s.data d).readEventNum) ∧
        (r.events.write → 0 < (s.data d).writeEventNum) ∧
        (r.events.except → 0 < (s.data d).exceptEventNum)

instance (s : FdLoop) : ∀ engine batch, Decidable (s.MayReturn engine batch)
  | .epoll, batch => inferInstanceAs
      (Decidable (_ ∧ ∀ r ∈ batch, ∃ x ∈ s.epoll.interest r.fd, _ ∧ _ ∧ _))
  | .select, batch => inferInstanceAs
      (Decidable (_ ∧ ∀ r ∈ batch, _ ∧ ∃ d ∈ s.fdDataMap r.fd, _ ∧ _ ∧ _))

namespace DispatchWorld

/-- `OnEventCallback` comes to the next entry of the batch. A record has been released when its
descriptor no longer has it. -/
def onEventCallback (w : DispatchWorld) (engine : Engine) (r : Ready) (batch : List Ready) :
    DispatchWorld :=
  match engine with
  | .epoll =>
    if w.loop.fdDataMap r.fd = some r.d then
      { w with
        batch, tmp := (w.loop.data r.d).fdEvents, ready := r.tboxEvents
        log := w.log ++ [.opened r.d true] }
    else { w with pc := .halted, log := w.log ++ [.opened r.d false] }
  | .select =>
    match w.loop.fdDataMap r.fd with
    | some d =>
      { w with
        batch, tmp := (w.loop.data d).fdEvents, ready := r.events
        log := w.log ++ [.lookedUp r.fd true] }
    | none => { w with pc := .halted, log := w.log ++ [.lookedUp r.fd false] }

/-- `onEvent` of the next one in `tmp`, as far as its callback. -/
def onEvent (w : DispatchWorld) (engine : Engine) (e : EventPtr) (tmp : List EventPtr) :
    DispatchWorld :=
  match w.loop.event e with
  | none => { w with pc := .halted, log := w.log ++ [.entered e none w.ready] }
  | some ev =>
    let w := { w with tmp, log := w.log ++ [.entered e (some ev) w.ready] }
    if ev.events.meets w.ready then
      { w with
        loop := if ev.isStopAfterTrigger then w.loop.disable engine e ev else w.loop
        pc := .inCallback e }
    else w

def next (w : DispatchWorld) (engine : Engine) : DispatchWorld :=
  match w.tmp, w.batch with
  | e :: tmp, _ => w.onEvent engine e tmp
  | [], r :: batch => w.onEventCallback engine r batch
  | [], [] => { w with pc := .idle }

def step (engine : Engine) (w : DispatchWorld) : DispatchInput → Option DispatchWorld
  | .call c =>
    match w.pc with
    | .idle | .timers => (w.loop.call engine c).map fun loop => { w with loop }
    | .inCallback e =>
      if c = .destroy e then none else (w.loop.call engine c).map fun loop => { w with loop }
    | _ => none
  | .wait batch => if w.pc = .idle then some { w with pc := .timers, batch } else none
  | .next =>
    match w.pc with
    | .timers => some { w with pc := .dispatching }
    | .dispatching => some (w.next engine)
    | _ => none
  | .returned =>
    match w.pc with
    | .inCallback _ => some { w with pc := .dispatching }
    | _ => none

end DispatchWorld

end Tbox.Event
