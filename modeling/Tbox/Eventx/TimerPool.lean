import Tbox.Proof.CabinetWellFormed
import Tbox.Lib.Run

/-!
# The timer pool

`eventx/timer_pool.cpp`: a cabinet of the loop's timer events, known by their numbers. Whoever calls `cancel` names a
timer whose token it has: a later one may be given an equal token.
-/

namespace Tbox.Eventx

open Cabinet (Token)

abbrev TimerId := Nat

structure PoolTimer where
  oneshot : Bool
  token : Token
  isEnabled : Bool := true
  deleted : Bool := false
  fired : Nat := 0
  /-- not fired to the end (a one-shot), cancelled or cleaned up -/
  pending : Bool := true
  deriving DecidableEq, Repr

structure TimerPool where
  timers : Cabinet TimerId := .empty
  events : List PoolTimer := []
  loopIsRunning : Bool := false
  deferred : List (Option TimerId) := []
  /-- the timer whose callback runs -/
  firing : Option TimerId := none
  /-- what `cancel` has answered, with whether the timer was pending -/
  answers : List (Bool × Bool) := []

namespace TimerPool

def modify (p : TimerPool) (timer : Option TimerId) (f : PoolTimer → PoolTimer) : TimerPool :=
  match timer with
  | none => p
  | some timer => { p with events := p.events.modify timer f }

/-- `TimerEvent::disable`. -/
def disable (p : TimerPool) (timer : Option TimerId) : TimerPool :=
  p.modify timer fun event => { event with isEnabled := false }

def delete (p : TimerPool) (timer : Option TimerId) : TimerPool :=
  p.modify timer fun event => { event with isEnabled := false, deleted := true }

def runDelete (p : TimerPool) (timer : Option TimerId) : TimerPool :=
  if p.loopIsRunning then { p with deferred := p.deferred ++ [timer] } else p.delete timer

def start (p : TimerPool) (oneshot : Bool) : Token × TimerPool :=
  let (token, timers) := p.timers.alloc (some p.events.length)
  (token, { p with timers := timers, events := p.events ++ [{ oneshot := oneshot, token := token }] })

def doEvery (p : TimerPool) (cb : Bool) : Token × TimerPool :=
  if cb then p.start false else ({}, p)

def doAfter (p : TimerPool) (cb : Bool) : Token × TimerPool :=
  if cb then p.start true else ({}, p)

def doAt (p : TimerPool) (cb : Bool) : Token × TimerPool := p.doAfter cb

def cancel (p : TimerPool) (token : Token) : Bool × TimerPool :=
  match p.timers.free token with
  | (none, timers) => (false, { p with timers := timers })
  | (some timer, timers) =>
    (true, (({ p with timers := timers }.disable (some timer)).runDelete (some timer)))

def cleanup (p : TimerPool) : TimerPool :=
  let p := p.timers.objects.foldl (fun p timer => (p.disable timer).runDelete timer) p
  { p with timers := p.timers.clear }

/-- What the callback `doAfter` sets does after `cb`. -/
def release (p : TimerPool) (token : Token) : TimerPool :=
  let (timer, timers) := p.timers.free token
  { p with timers := timers, deferred := p.deferred ++ [timer] }

inductive Action where
  | doEvery (cb : Bool)
  | doAfter (cb : Bool)
  | doAt (cb : Bool)
  /-- with the token of that timer; a null token without one -/
  | cancel (timer : Option TimerId)
  | cleanup
  /-- an enabled timer expires: its callback begins -/
  | fire (timer : TimerId)
  /-- the callback returns -/
  | returned
  /-- the loop runs the oldest deletion -/
  | runDeferred
  | setLoopRunning (running : Bool)
  deriving DecidableEq, Repr

def tokenOf (p : TimerPool) (timer : Option TimerId) : Token :=
  ((timer.bind fun timer => p.events[timer]?).map PoolTimer.token).getD {}

def isPending (p : TimerPool) (timer : Option TimerId) : Bool :=
  ((timer.bind fun timer => p.events[timer]?).map PoolTimer.pending).getD false

def settle (p : TimerPool) (timer : Option TimerId) : TimerPool :=
  p.modify timer fun event => { event with pending := false }

def step (p : TimerPool) : Action → Option TimerPool
  | .doEvery cb => some (p.doEvery cb).2
  | .doAfter cb => some (p.doAfter cb).2
  | .doAt cb => some (p.doAt cb).2
  | .cancel timer =>
    let (result, q) := p.cancel (p.tokenOf timer)
    some { q.settle timer with answers := p.answers ++ [(result, p.isPending timer)] }
  | .cleanup =>
    let p := p.cleanup
    some { p with events := p.events.map fun event => { event with pending := false } }
  | .fire timer =>
    match p.events[timer]? with
    | none => none
    | some event =>
      if event.isEnabled ∧ p.loopIsRunning ∧ p.firing = none then
        some { p.modify (some timer) fun event =>
          { event with isEnabled := !event.oneshot, fired := event.fired + 1 } with
            firing := some timer }
      else none
  | .returned =>
    match p.firing with
    | none => none
    | some timer =>
      match p.events[timer]? with
      | none => none
      | some event =>
        let p := { p with firing := none }
        some (if event.oneshot then (p.release event.token).settle (some timer) else p)
  | .runDeferred =>
    match p.deferred with
    | [] => none
    | timer :: deferred =>
      if p.firing = none then some ({ p with deferred := deferred }.delete timer) else none
  | .setLoopRunning running =>
    if p.firing = none then some { p with loopIsRunning := running } else none

end TimerPool

end Tbox.Eventx
