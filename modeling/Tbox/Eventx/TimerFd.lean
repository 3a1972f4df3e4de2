import Tbox.Event.FdEvent

/-!
# Timers on descriptors

`eventx/timer_fd.cpp`, over an event on the descriptor of the timer. Whether there is a descriptor, and what a read of
it gives, is the system's choice. The callback and `remainTime` are left out.
-/

namespace Tbox.Eventx

open Event (Engine FdLoop FdEvent EventPtr Kinds)

/-- `struct itimerspec` -/
structure ItimerSpec where
  valueSec : Nat := 0
  valueNsec : Nat := 0
  intervalSec : Nat := 0
  intervalNsec : Nat := 0
  deriving DecidableEq, Repr

def nanosecsPerSecond : Nat := 1000000000

def ItimerSpec.ofNanosecs (first rep : Int) : ItimerSpec where
  valueSec := (first % 2 ^ 64).toNat / nanosecsPerSecond
  valueNsec := (first % 2 ^ 64).toNat % nanosecsPerSecond
  intervalSec := (rep % 2 ^ 64).toNat / nanosecsPerSecond
  intervalNsec := (rep % 2 ^ 64).toNat % nanosecsPerSecond

structure TimerFd where
  /-- the events of the loop, with `timer_fd_event` among them -/
  loop : FdLoop
  timerFdEvent : EventPtr
  timerFd : Int := -1
  isInited : Bool := false
  isEnabled : Bool := false
  isStopAfterTrigger : Bool := false
  ts : ItimerSpec := {}
  /-- what the timer of the system is set to; nothing is set if all is zero -/
  setting : ItimerSpec := {}

namespace TimerFd

def construct (loop : FdLoop) : TimerFd where
  loop := loop.construct
  timerFdEvent := loop.events.length

def enable (engine : Engine) (t : TimerFd) : TimerFd :=
  if !t.isInited then t
  else if t.isEnabled then t
  else
    match t.loop.event t.timerFdEvent with
    | none => t
    | some ev =>
      if ev.d.isNone then t
      else
        { t with
          loop := t.loop.enable engine t.timerFdEvent ev
          setting := t.ts
          isEnabled := true }

def disable (engine : Engine) (t : TimerFd) : TimerFd :=
  if !t.isInited then t
  else if !t.isEnabled then t
  else
    match t.loop.event t.timerFdEvent with
    | none => t
    | some ev =>
      { t with
        loop := t.loop.disable engine t.timerFdEvent ev
        setting := {}
        isEnabled := false }

def cleanup (engine : Engine) (t : TimerFd) : TimerFd :=
  if !t.isInited then t
  else { t.disable engine with timerFd := -1, isInited := false }

/-- `initialize`; `created` is the descriptor that `timerfd_create` has made, if it has. -/
def initializeTimer (engine : Engine) (first rep : Int) (created : Option Int) (t : TimerFd) : TimerFd :=
  let t := t.cleanup engine
  match created with
  | none => t
  | some fd =>
    match t.loop.event t.timerFdEvent with
    | none => t
    | some ev =>
      { t with
        timerFd := fd
        ts := .ofNanosecs first rep
        loop := t.loop.initializeEvent t.timerFdEvent ev fd { read := true } false
        isStopAfterTrigger := t.isStopAfterTrigger || rep = 0
        isInited := true }

/-- `onEvent`, with what the read gives, and whether it comes to the callback. -/
def onEvent (engine : Engine) (events : Kinds) (isRead : Bool) (t : TimerFd) : Bool × TimerFd :=
  if events.read && isRead then (true, if t.isStopAfterTrigger then t.disable engine else t) else (false, t)

end TimerFd

inductive TimerOp where
  | initializeTimer (first rep : Int) (created : Option Int)
  | cleanup
  | enable
  | disable
  | fire (ready : Kinds) (isRead : Bool)
  deriving DecidableEq, Repr

/-- What comes of it, and whether it comes to the callback. Of a descriptor that is closed nothing is read. -/
def TimerFd.perform (engine : Engine) (t : TimerFd) : TimerOp → Option (Bool × TimerFd)
  | .initializeTimer first rep created => some (false, t.initializeTimer engine first rep created)
  | .cleanup => some (false, t.cleanup engine)
  | .enable => some (false, t.enable engine)
  | .disable => some (false, t.disable engine)
  | .fire ready isRead =>
    if isRead = true ∧ t.isInited = false then none
    else
      (t.loop.event t.timerFdEvent).map fun ev =>
        let fired := t.loop.onEvent engine t.timerFdEvent ev ready
        if fired.1 then TimerFd.onEvent engine ready isRead { t with loop := fired.2 }
        else (false, { t with loop := fired.2 })

end Tbox.Eventx
