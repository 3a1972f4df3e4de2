import Tbox.Lib.BinaryHeap
import Tbox.Lib.Run
import Tbox.Proof.CabinetWellFormed

/-!
# The event loop's timers

`event/common_loop_timer.cpp`: a cabinet of the timers, and a heap of pointers to them. A pointer is the number of its
allocation. A run is a sequence of calls with the readings of the clock; what a callback calls are the inputs up to
its return.
-/

namespace Tbox.Event

open Cabinet (Token)
open Lib.BinaryHeap

/-- The readings, the intervals and the expiries are `uint64_t`. -/
def clockMod : Nat := 2 ^ 64

abbrev TimerPtr := Nat

structure Timer where
  token : Token := {}
  interval : Nat := 0
  expired : Nat := 0
  repeats : Nat := 0
  deriving DecidableEq, Repr, Inhabited

structure Timers where
  timerCabinet : Cabinet TimerPtr := Cabinet.empty
  timerMinHeap : List TimerPtr := []
  /-- what the pointers of `timer_object_pool_` point to -/
  timer : TimerPtr → Timer := fun _ => {}
  timerAlloc : Nat := 0

namespace Timers

/-- What `TimerCmp` compares: the heap is ordered by `>`, so its front is the least. -/
def expired (s : Timers) (t : TimerPtr) : Nat := (s.timer t).expired

def addTimer (s : Timers) (now interval repeats : Nat) : Token × Timers :=
  let t := s.timerAlloc
  let (token, timerCabinet) := s.timerCabinet.alloc (some t)
  let timer := Function.update s.timer t
    { token, interval, expired := (now + interval) % clockMod, repeats }
  (token,
    { timerCabinet, timer
      timerMinHeap := pushHeap (fun t => (timer t).expired) (s.timerMinHeap ++ [t])
      timerAlloc := s.timerAlloc + 1 })

/-- `expired = 0` brings the timer to the front, from where it is removed. -/
def deleteTimer (s : Timers) (token : Token) : Timers :=
  match s.timerCabinet.free token with
  | (none, timerCabinet) => { s with timerCabinet }
  | (some t, timerCabinet) =>
    let timer := Function.update s.timer t { s.timer t with expired := 0 }
    let key := fun t => (timer t).expired
    { s with
      timerCabinet, timer
      timerMinHeap := (popHeap key (makeHeap key s.timerMinHeap)).dropLast }

/-- The difference of two `uint64_t` is read as an `int64_t`. -/
def getWaitTime (s : Timers) (hasNextFunc : Bool) (now : Nat) : Int :=
  if hasNextFunc then 0
  else match s.timerMinHeap with
    | [] => -1
    | t :: _ =>
      let waitTime := Int.bmod (s.expired t - now) clockMod
      if waitTime < 0 then 0 else waitTime

/-- What a round of the loop does with the front `t`, which has expired. -/
def retire (s : Timers) (t : TimerPtr) : Timers :=
  let heap := popHeap s.expired s.timerMinHeap
  if (s.timer t).repeats = 1 then
    { s with
      timerMinHeap := heap.dropLast
      timerCabinet := (s.timerCabinet.free (s.timer t).token).2 }
  else
    let timer := Function.update s.timer t
      { s.timer t with
        expired := ((s.timer t).expired + (s.timer t).interval) % clockMod
        -- a persistent timer keeps its 0
        repeats := (s.timer t).repeats - 1 }
    { s with timer, timerMinHeap := pushHeap (fun t => (timer t).expired) heap }

end Timers

inductive TimerEvent where
  | added (t : TimerPtr) (token : Token) (now interval repeats : Nat)
  | deleted (token : Token)
  /-- `handleExpiredTimers` has read the clock -/
  | began (now : Nat)
  /-- the callback of `t`, which was to expire at `expired`, is run -/
  | run (t : TimerPtr) (expired : Nat)
  | ended (now : Nat)
  deriving DecidableEq, Repr

structure TimerWorld where
  timers : Timers := {}
  /-- the last reading of the clock -/
  clock : Nat := 0
  /-- the reading of the `handleExpiredTimers` of which a callback is running -/
  handling : Option Nat := none
  log : List TimerEvent := []

inductive TimerInput where
  | addTimer (now interval repeats : Nat)
  | deleteTimer (token : Token)
  | handleExpiredTimers (now : Nat)
  /-- the callback that is running returns -/
  | returned
  deriving DecidableEq, Repr

namespace TimerWorld

def round (w : TimerWorld) (now : Nat) : TimerWorld :=
  match w.timers.timerMinHeap with
  | [] => { w with handling := none, log := w.log ++ [.ended now] }
  | t :: _ =>
    if now < w.timers.expired t then
      { w with handling := none, log := w.log ++ [.ended now] }
    else
      { w with
        timers := w.timers.retire t
        handling := some now
        log := w.log ++ [.run t (w.timers.expired t)] }

def step (w : TimerWorld) : TimerInput → Option TimerWorld
  | .addTimer now interval repeats =>
    let (token, timers) := w.timers.addTimer now interval repeats
    some { w with
      timers
      clock := now
      log := w.log ++ [.added w.timers.timerAlloc token now interval repeats] }
  | .deleteTimer token =>
    some { w with timers := w.timers.deleteTimer token, log := w.log ++ [.deleted token] }
  | .handleExpiredTimers now =>
    if w.handling = none then
      some (round { w with clock := now, log := w.log ++ [.began now] } now)
    else none
  | .returned => w.handling.map w.round

def deleteTimers (w : TimerWorld) (tokens : List Token) : TimerWorld :=
  tokens.foldl (fun w token =>
    { w with timers := w.timers.deleteTimer token, log := w.log ++ [.deleted token] }) w

/-- The loop of `handleExpiredTimers`, so many rounds of it at most. Callbacks delete what `cb` says and add nothing. -/
def rounds (cb : List TimerEvent → List Token) (now : Nat) : Nat → TimerWorld → Option TimerWorld
  | 0, _ => none
  | fuel + 1, w =>
    let w := w.round now
    match w.handling with
    | none => some w
    | some _ => rounds cb now fuel (w.deleteTimers (cb w.log))

/-- `handleExpiredTimers`, with callbacks that add no timers. -/
def handleExpiredTimers (cb : List TimerEvent → List Token) (now fuel : Nat) (w : TimerWorld) : Option TimerWorld :=
  rounds cb now fuel { w with clock := now, log := w.log ++ [.began now] }

/-- The clock does not go back, its readings are positive, and an interval that is added to one does
not overflow. -/
def Legal (w : TimerWorld) : TimerInput → Prop
  | .addTimer now interval _ => 0 < now ∧ w.clock ≤ now ∧ now + interval < clockMod
  | .handleExpiredTimers now => 0 < now ∧ w.clock ≤ now ∧
      ∀ t ∈ w.timers.timerMinHeap, (w.timers.timer t).expired ≤ now →
        (w.timers.timer t).repeats ≠ 1 → now + (w.timers.timer t).interval < clockMod
  | _ => True

instance (w : TimerWorld) : ∀ input, Decidable (w.Legal input)
  | .addTimer _ _ _ => inferInstanceAs (Decidable (_ ∧ _ ∧ _))
  | .deleteTimer _ => inferInstanceAs (Decidable True)
  | .handleExpiredTimers _ => inferInstanceAs (Decidable (_ ∧ _ ∧ ∀ t ∈ _, _ → _ → _))
  | .returned => inferInstanceAs (Decidable True)

end TimerWorld

/-! ### How long the engines wait

The timeouts that `engines/epoll/loop.cpp` and `engines/select/loop.cpp` make of `getWaitTime()`, and
what the calls that they are handed to take them for. Durations are in microseconds, `⊤` is for ever. -/

section WaitTimeout

/-- The parameter of `epoll_wait` is an `int`. -/
def epollTimeout (waitTime : Int) : Int := waitTime.bmod (2 ^ 32)

/-- `epoll_wait` takes milliseconds, and any negative timeout for none. -/
def epollDuration (timeout : Int) : WithTop Nat :=
  if timeout < 0 then ⊤ else (timeout.toNat * 1000 : Nat)

structure Timeval where
  tvSec : Int
  tvUsec : Int
  deriving DecidableEq, Repr

def selectTimeout (waitMs : Int) : Option Timeval :=
  if waitMs ≠ -1 then some ⟨waitMs.tdiv 1000, waitMs.tmod 1000⟩ else none

/-- `select` takes seconds and microseconds. -/
def selectDuration : Option Timeval → WithTop Nat
  | none => ⊤
  | some tv => (tv.tvSec * 1000000 + tv.tvUsec).toNat

/-- Nothing while there are functions to run, else the milliseconds until the earliest timer expires,
if there is one. -/
def Timers.untilEarliest (s : Timers) (hasNextFunc : Bool) (now : Nat) : WithTop Nat :=
  if hasNextFunc then 0 else (s.timerMinHeap.map s.expired).minimum.map (· - now)

end WaitTimeout

end Tbox.Event
