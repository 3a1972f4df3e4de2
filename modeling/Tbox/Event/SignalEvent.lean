import Mathlib.Data.Finset.Image
import Mathlib.Data.Fintype.Basic
import Tbox.Lib.Run

/-!
# Events on signals

`signal_event_impl.cpp` with the tables in `common_loop_signal.cpp`. What the system answers comes with the call: the
descriptor of a pipe, and whether `sigaction` succeeds.
-/

namespace Tbox.Event

abbrev SignalEventPtr := Nat

inductive SignalHandler where
  | signalHandlerFunc
  /-- not of this library; the first is `SIG_DFL` -/
  | other (address : Nat)
  deriving DecidableEq, Repr

/-- There is an entry for every signal: the one that is made when there is none is the default one. -/
structure SignalCtx where
  writeFds : Finset Int := ∅
  oldHandler : SignalHandler := .other 0

/-- `all_signals_subscribers_` is what is in its sets: an entry goes with its last subscriber. So do the pipe and its
event. -/
structure SignalLoop where
  signalWriteFd : Option Int := none
  allSignalsSubscribers : Finset (Int × SignalEventPtr) := ∅

def SignalLoop.Subscribed (loop : SignalLoop) (signo : Int) : Prop := ∃ p ∈ loop.allSignalsSubscribers, p.1 = signo

instance (loop : SignalLoop) (signo : Int) : Decidable (loop.Subscribed signo) :=
  inferInstanceAs (Decidable (∃ p ∈ loop.allSignalsSubscribers, p.1 = signo))

structure SignalEvent (n : Nat) where
  wpLoop : Fin n
  isInited : Bool := false
  isEnabled : Bool := false
  sigset : List Int := []

/-- `std::set::insert`; the set is listed as it is traversed. -/
def insertSignal (sigset : List Int) (signo : Int) : List Int :=
  if signo ∈ sigset then sigset else sigset.orderedInsert (· ≤ ·) signo

namespace SignalEvent

variable {n : Nat}

def initializeOne (ev : SignalEvent n) (signo : Int) : SignalEvent n :=
  { ev with sigset := insertSignal ev.sigset signo, isInited := true }

def initializeSet (ev : SignalEvent n) (signos : List Int) : SignalEvent n :=
  { ev with sigset := signos.foldl insertSignal [], isInited := true }

def initializeList (ev : SignalEvent n) (signos : List Int) : SignalEvent n :=
  { ev with sigset := signos.foldl insertSignal ev.sigset, isInited := true }

end SignalEvent

structure Signals (n : Nat) where
  events : SignalEventPtr → Option (SignalEvent n) := fun _ => none
  loops : Fin n → SignalLoop := fun _ => {}
  signalCtxs : Int → SignalCtx := fun _ => {}
  /-- what the system calls on a signal -/
  handlers : Int → SignalHandler
  /-- the event of a pipe has been used that there is not -/
  crashed : Bool := false
  /-- what the last call has returned -/
  returned : Bool := true

namespace Signals

variable {n : Nat}

def setEvent (s : Signals n) (e : SignalEventPtr) (ev : Option (SignalEvent n)) : Signals n :=
  { s with events := Function.update s.events e ev }

def setLoop (s : Signals n) (l : Fin n) (loop : SignalLoop) : Signals n :=
  { s with loops := Function.update s.loops l loop }

def setCtx (s : Signals n) (signo : Int) (ctx : SignalCtx) : Signals n :=
  { s with signalCtxs := Function.update s.signalCtxs signo ctx }

def createSignalFds (s : Signals n) (l : Fin n) (fd : Option Int) : Option (Signals n) :=
  match (s.loops l).signalWriteFd with
  | some _ => some s
  | none => fd.map fun fd => s.setLoop l { s.loops l with signalWriteFd := some fd }

def closeSignalFds (s : Signals n) (l : Fin n) : Signals n :=
  if (s.loops l).allSignalsSubscribers ≠ ∅ then s
  else if (s.loops l).signalWriteFd = none then { s with crashed := true }
  else s.setLoop l { s.loops l with signalWriteFd := none }

def installHandler (s : Signals n) (signo : Int) (installs : Bool) : Option (Signals n) :=
  if (s.signalCtxs signo).writeFds ≠ ∅ then some s
  else if installs then
    some { s.setCtx signo { s.signalCtxs signo with oldHandler := s.handlers signo } with
      handlers := Function.update s.handlers signo .signalHandlerFunc }
  else none

def insertWriteFd (s : Signals n) (l : Fin n) (signo : Int) : Signals n :=
  s.setCtx signo { s.signalCtxs signo with
    writeFds := (s.signalCtxs signo).writeFds ∪ (s.loops l).signalWriteFd.toFinset }

def insertSubscriber (s : Signals n) (l : Fin n) (signo : Int) (who : SignalEventPtr) : Signals n :=
  s.setLoop l { s.loops l with allSignalsSubscribers := insert (signo, who) (s.loops l).allSignalsSubscribers }

def subscribeSignal (s : Signals n) (l : Fin n) (signo : Int) (who : SignalEventPtr) (fd : Option Int)
    (installs : Bool) : Signals n × Bool :=
  match s.createSignalFds l fd with
  | none => (s, false)
  | some s =>
    if (s.loops l).Subscribed signo then (s.insertSubscriber l signo who, true)
    else
      match s.installHandler signo installs with
      | none => (s.closeSignalFds l, false)
      | some s => ((s.insertWriteFd l signo).insertSubscriber l signo who, true)

def eraseSubscriber (s : Signals n) (l : Fin n) (signo : Int) (who : SignalEventPtr) : Signals n :=
  s.setLoop l { s.loops l with allSignalsSubscribers := (s.loops l).allSignalsSubscribers.erase (signo, who) }

def eraseWriteFd (s : Signals n) (l : Fin n) (signo : Int) (restores : Bool) : Signals n :=
  let ctx := s.signalCtxs signo
  let writeFds := ctx.writeFds \ (s.loops l).signalWriteFd.toFinset
  if writeFds ≠ ∅ then s.setCtx signo { ctx with writeFds := writeFds }
  else
    { s.setCtx signo {} with
      handlers := if restores then Function.update s.handlers signo ctx.oldHandler else s.handlers }

def unsubscribeSignal (s : Signals n) (l : Fin n) (signo : Int) (who : SignalEventPtr) (restores : Bool) :
    Signals n :=
  let s := s.eraseSubscriber l signo who
  if (s.loops l).Subscribed signo then s else (s.eraseWriteFd l signo restores).closeSignalFds l

/-- The loop of `enable`. -/
def subscribeAll (s : Signals n) (l : Fin n) (who : SignalEventPtr) (fd : Option Int) (installs : Int → Bool) :
    List Int → Signals n × Bool
  | [] => (s, true)
  | signo :: signos =>
    match s.subscribeSignal l signo who fd (installs signo) with
    | (s, true) => s.subscribeAll l who fd installs signos
    | (s, false) => (s, false)

/-- The loop of `disable`. -/
def unsubscribeAll (s : Signals n) (l : Fin n) (who : SignalEventPtr) (restores : Int → Bool) :
    List Int → Signals n
  | [] => s
  | signo :: signos => (s.unsubscribeSignal l signo who (restores signo)).unsubscribeAll l who restores signos

/-- `enable`, of the event `e` whose members are `ev`; so are the others. -/
def enable (s : Signals n) (e : SignalEventPtr) (ev : SignalEvent n) (fd : Option Int) (installs : Int → Bool) :
    Signals n :=
  let (s, subscribed) :=
    if ev.isInited then s.subscribeAll ev.wpLoop e fd installs ev.sigset else (s, true)
  if subscribed then { s.setEvent e (some { ev with isEnabled := true }) with returned := true }
  else { s with returned := false }

def disable (s : Signals n) (e : SignalEventPtr) (ev : SignalEvent n) (restores : Int → Bool) : Signals n :=
  let s := if ev.isEnabled then s.unsubscribeAll ev.wpLoop e restores ev.sigset else s
  { s.setEvent e (some { ev with isEnabled := false }) with returned := true }

/-- `~SignalEventImpl` -/
def destroy (s : Signals n) (e : SignalEventPtr) (ev : SignalEvent n) (restores : Int → Bool) : Signals n :=
  (s.disable e ev restores).setEvent e none

inductive Action (n : Nat) where
  | newSignalEvent (e : SignalEventPtr) (l : Fin n)
  | initializeOne (e : SignalEventPtr) (signo : Int)
  | initializeSet (e : SignalEventPtr) (signos : List Int)
  | initializeList (e : SignalEventPtr) (signos : List Int)
  /-- `fd` is the end of a pipe, if one can be had, and `installs` where `sigaction` succeeds -/
  | enable (e : SignalEventPtr) (fd : Option Int) (installs : Int → Bool)
  | disable (e : SignalEventPtr) (restores : Int → Bool)
  | destroy (e : SignalEventPtr) (restores : Int → Bool)

/-- Nothing follows on a crash. The system gives out a descriptor that is not in use. -/
def step (s : Signals n) (a : Action n) : Option (Signals n) :=
  if s.crashed then none
  else
    match a with
    | .newSignalEvent e l =>
      if (s.events e).isNone then some { s.setEvent e (some { wpLoop := l }) with returned := true } else none
    | .initializeOne e signo => (s.events e).map fun ev =>
      { s.setEvent e (some (ev.initializeOne signo)) with returned := true }
    | .initializeSet e signos => (s.events e).map fun ev =>
      { s.setEvent e (some (ev.initializeSet signos)) with returned := true }
    | .initializeList e signos => (s.events e).map fun ev =>
      { s.setEvent e (some (ev.initializeList signos)) with returned := true }
    | .enable e fd installs =>
      if ∀ l, fd ≠ none → (s.loops l).signalWriteFd ≠ fd then
        (s.events e).map fun ev => s.enable e ev fd installs
      else none
    | .disable e restores => (s.events e).map fun ev => s.disable e ev restores
    | .destroy e restores => (s.events e).map fun ev => s.destroy e ev restores

end Signals

end Tbox.Event
