import Mathlib.Logic.Function.Basic

/-!
# The watchdog of the loops

`eventx/loop_wdog.cpp`. A step is a section under `_mutex_lock`, which is not reentrant and is held by `Stop` while it
joins, or a read of `_keep_running` outside it. How long a loop takes is in the order of the steps.
-/

namespace Tbox.Eventx

namespace LoopWDog

abbrev InfoId := Nat

abbrev CallerId := Nat

inductive State where
  | kTobeCheck
  | kChecked
  | kTimeout
  deriving DecidableEq, Repr

structure LoopInfo where
  loop : Nat
  name : String
  state : State := .kChecked
  deriving DecidableEq, Repr

/-- Where the thread is in `ThreadProc`. -/
inductive Pc where
  /-- at `while (_keep_running)` -/
  | head
  /-- at the lock of `SendLoopFunc` -/
  | sendLock
  | sending (rest : List InfoId)
  | sleeping (i : Nat)
  /-- at `if (_keep_running)` -/
  | beforeCheck
  /-- at the lock of `CheckLoopTag` -/
  | checkLock
  | checking (rest : List InfoId)
  /-- in `_loop_die_cb` -/
  | blockCallback (name : String) (rest : List InfoId)
  /-- at the lock of a function of the watchdog that the callback has called -/
  | callbackLock (rest : List InfoId)
  | returned
  deriving DecidableEq, Repr

inductive Op where
  | start
  | stop
  | register (loop : Nat) (name : String)
  | unregister (loop : Nat)
  deriving DecidableEq, Repr

inductive Caller where
  | away
  /-- at the lock -/
  | calling (op : Op)
  /-- in `_sp_thread->join()` -/
  | joining
  deriving DecidableEq, Repr

inductive Owner where
  | caller (c : CallerId)
  | watchdog
  deriving DecidableEq, Repr

def Pc.Waits : Pc → Prop
  | .sendLock | .checkLock | .callbackLock _ => True
  | _ => False

def Pc.Holds : Pc → Prop
  | .sending _ | .checking _ | .blockCallback _ _ | .callbackLock _ => True
  | _ => False

instance : DecidablePred Pc.Waits := fun pc => by
  cases pc <;> unfold Pc.Waits <;> infer_instance

instance : DecidablePred Pc.Holds := fun pc => by
  cases pc <;> unfold Pc.Holds <;> infer_instance

end LoopWDog

structure LoopWDog where
  /-- the objects behind the shared pointers -/
  infos : List LoopWDog.LoopInfo := []
  loopInfoVec : List LoopWDog.InfoId := []
  keepRunning : Bool := false
  /-- `_sp_thread` -/
  thread : Option LoopWDog.Pc := none
  /-- who has `_mutex_lock` -/
  owner : Option LoopWDog.Owner := none
  callers : LoopWDog.CallerId → LoopWDog.Caller := fun _ => .away
  /-- the functions the loops have been given and have not run -/
  posted : List LoopWDog.InfoId := []
  /-- `Stop` has returned, and no `Start` has come after it -/
  ended : Bool := false

namespace LoopWDog

def setCaller (s : LoopWDog) (c : CallerId) (caller : Caller) : LoopWDog :=
  { s with callers := Function.update s.callers c caller }

def loopOf (s : LoopWDog) (id : InfoId) : Option Nat := s.infos[id]?.map LoopInfo.loop

def stateOf (s : LoopWDog) (id : InfoId) : Option State := s.infos[id]?.map LoopInfo.state

def setState (s : LoopWDog) (id : InfoId) (state : State) : LoopWDog :=
  { s with infos := s.infos.modify id fun info => { info with state := state } }

def start (s : LoopWDog) (c : CallerId) : LoopWDog :=
  let s := s.setCaller c .away
  if !s.keepRunning then { s with keepRunning := true, thread := some .head, ended := false } else s

/-- `Stop` up to the join, or to its return. -/
def stop (s : LoopWDog) (c : CallerId) : LoopWDog :=
  if s.keepRunning then { s.setCaller c .joining with keepRunning := false, owner := some (.caller c) }
  else { s.setCaller c .away with ended := true }

/-- The rest of `Stop`. -/
def joined (s : LoopWDog) (c : CallerId) : LoopWDog :=
  { s.setCaller c .away with thread := none, loopInfoVec := [], owner := none, ended := true }

def register (s : LoopWDog) (c : CallerId) (loop : Nat) (name : String) : LoopWDog :=
  let s := s.setCaller c .away
  if s.loopInfoVec.any fun id => s.loopOf id = some loop then s
  else { s with infos := s.infos ++ [{ loop := loop, name := name }], loopInfoVec := s.loopInfoVec ++ [s.infos.length] }

def unregister (s : LoopWDog) (c : CallerId) (loop : Nat) : LoopWDog :=
  { s.setCaller c .away with loopInfoVec := s.loopInfoVec.filter fun id => s.loopOf id ≠ some loop }

def perform (s : LoopWDog) (c : CallerId) : Op → LoopWDog
  | .start => s.start c
  | .stop => s.stop c
  | .register loop name => s.register c loop name
  | .unregister loop => s.unregister c loop

/-- One turn of the loop of `SendLoopFunc`. -/
def send (s : LoopWDog) (running : Bool) : List InfoId → LoopWDog
  | [] => { s with thread := some (.sleeping 0), owner := none }
  | id :: rest =>
    let s := { s with thread := some (.sending rest) }
    if running ∧ s.stateOf id = some .kChecked then
      { s.setState id .kTobeCheck with posted := s.posted ++ [id] }
    else s

/-- One turn of the loop of `CheckLoopTag`. -/
def check (s : LoopWDog) : List InfoId → LoopWDog
  | [] => { s with thread := some .head, owner := none }
  | id :: rest =>
    match s.infos[id]? with
    | some info =>
      if info.state = .kTobeCheck then
        { s.setState id .kTimeout with thread := some (.blockCallback info.name rest) }
      else { s with thread := some (.checking rest) }
    | none => { s with thread := some (.checking rest) }

/-- What the thread can do next: `running` is what `isRunning` says, `calls` whether the callback calls a function here.
-/
def advance (s : LoopWDog) (running calls : Bool) : Pc → Option LoopWDog
  | .head => some { s with thread := some (if s.keepRunning then .sendLock else .returned) }
  | .sendLock =>
    if s.owner = none then some { s with thread := some (.sending s.loopInfoVec), owner := some .watchdog } else none
  | .sending rest => some (s.send running rest)
  | .sleeping i =>
    some { s with thread := some (if i < 10 ∧ s.keepRunning = true then .sleeping (i + 1) else .beforeCheck) }
  | .beforeCheck => some { s with thread := some (if s.keepRunning then .checkLock else .head) }
  | .checkLock =>
    if s.owner = none then some { s with thread := some (.checking s.loopInfoVec), owner := some .watchdog } else none
  | .checking rest => some (s.check rest)
  | .blockCallback _ rest => some { s with thread := some (if calls then .callbackLock rest else .checking rest) }
  | .callbackLock _ => none
  | .returned => none

def loopFunc (s : LoopWDog) (k : Nat) (id : InfoId) : LoopWDog :=
  { s.setState id .kChecked with posted := s.posted.eraseIdx k }

inductive Action where
  | call (c : CallerId) (op : Op)
  /-- the caller gets the lock -/
  | enter (c : CallerId)
  /-- the caller returns from the join -/
  | join (c : CallerId)
  | thread (running calls : Bool)
  /-- a loop runs one of its functions -/
  | loopFunc (k : Nat)
  deriving DecidableEq, Repr

def step (s : LoopWDog) : Action → Option LoopWDog
  | .call c op => if s.callers c = .away then some (s.setCaller c (.calling op)) else none
  | .enter c =>
    match s.callers c with
    | .calling op => if s.owner = none then some (s.perform c op) else none
    | _ => none
  | .join c => if s.callers c = .joining ∧ s.thread = some .returned then some (s.joined c) else none
  | .thread running calls => s.thread.bind (s.advance running calls)
  | .loopFunc k => s.posted[k]?.map (s.loopFunc k)

end LoopWDog

end Tbox.Eventx
