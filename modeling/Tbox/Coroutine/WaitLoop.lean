import Tbox.Coroutine.Scheduler
import Tbox.Lib.Run

/-!
# Semaphore, channel, mutex and broadcast

`coroutine/semaphore.hpp`, `channel.hpp` and `mutex.hpp` differ in what there is to be had: a routine that finds
nothing queues its token and waits in a loop. In `broadcast.hpp` it waits once, and all of the queue is resumed.
-/

namespace Tbox.Coroutine

structure Resource (ρ β : Type) where
  /-- what there is to be had, `none` while the loop goes on -/
  front : ρ → Option β
  pop : RoutineToken → ρ → ρ
  push : β → ρ → ρ

/-- What the calls have come to; that something was given back by no routine means the main one. -/
inductive Event (β : Type) where
  | acquired (t : RoutineToken) (value : β)
  /-- the call has returned false -/
  | refused (t : RoutineToken)
  | released (t : Option RoutineToken) (value : β)

structure World (ρ β : Type) where
  sch : Scheduler := {}
  res : ρ
  /-- `token_` -/
  token : List RoutineToken := []
  /-- whether the routine is in the loop, where it goes on when it is switched to -/
  inLoop : RoutineToken → Bool := fun _ => false
  log : List (Event β) := []

/-- What happens next: a routine makes a call, or `schedule` is called or switches to the next routine. -/
inductive Input (β : Type) where
  | create (runNow : Bool)
  | resume (t : RoutineToken)
  | cancel (t : RoutineToken)
  | wait
  | yield
  | join (other : RoutineToken)
  /-- the current routine's entry returns -/
  | finish
  | acquire
  | release (value : β)
  | schedule
  | switch

namespace World

variable {ρ β : Type} (R : Resource ρ β)

def leaveLoop (w : World ρ β) (t : RoutineToken) : World ρ β :=
  { w with inLoop := Function.update w.inLoop t false }

def take (w : World ρ β) (t : RoutineToken) (value : β) : World ρ β :=
  { w with res := R.pop t w.res, log := w.log ++ [.acquired t value] }

def await (w : World ρ β) (t : RoutineToken) : World ρ β :=
  let w := { w with sch := w.sch.wait t }
  if w.sch.isCanceled t then { w.leaveLoop t with log := w.log ++ [.refused t] }
  else { w with inLoop := Function.update w.inLoop t true }

def acquire (w : World ρ β) (t : RoutineToken) : World ρ β :=
  match R.front w.res with
  | some value => w.take R t value
  | none => { w with token := w.token ++ [t] }.await t

/-- The loop goes on after `wait`. -/
def recheck (w : World ρ β) (t : RoutineToken) : World ρ β :=
  if w.sch.isCanceled t then { w.leaveLoop t with log := w.log ++ [.refused t] }
  else
    match R.front w.res with
    | some value => (w.leaveLoop t).take R t value
    | none => w.await t

def wake (w : World ρ β) : World ρ β :=
  match w.token with
  | t :: token => { w with token, sch := w.sch.resume t }
  | [] => w

def give (w : World ρ β) (t : Option RoutineToken) (value : β) : World ρ β :=
  { w with res := R.push value w.res, log := w.log ++ [.released t value] }

def release (w : World ρ β) (t : Option RoutineToken) (value : β) : World ρ β :=
  (if (R.front w.res).isNone then w.wake else w).give R t value

/-- The main routine makes calls only outside of `schedule`. -/
def mayCall (w : World ρ β) : Bool := w.sch.currRoutine.isSome || w.sch.tmp.isEmpty

def switch (w : World ρ β) (t : RoutineToken) (tmp : List RoutineToken) : World ρ β :=
  let w := { w with sch := { w.sch with tmp } }
  match w.sch.routineCabinet t with
  | none => w
  | some _ =>
    let w := { w with sch := w.sch.switchToRoutine t }
    if w.inLoop t then w.recheck R t else w

def step (w : World ρ β) : Input β → Option (World ρ β)
  | .create runNow => if w.mayCall then some { w with sch := w.sch.create runNow } else none
  | .resume t => if w.mayCall then some { w with sch := w.sch.resume t } else none
  | .cancel t => if w.mayCall then some { w with sch := w.sch.cancel t } else none
  | .release value => if w.mayCall then some (w.release R w.sch.currRoutine value) else none
  | .wait => w.sch.currRoutine.map fun t => { w with sch := w.sch.wait t }
  | .yield => w.sch.currRoutine.map fun t => { w with sch := w.sch.yield t }
  | .join other => w.sch.currRoutine.map fun t => { w with sch := w.sch.join t other }
  | .finish => w.sch.currRoutine.map fun t => { w with sch := w.sch.finish t }
  | .acquire => w.sch.currRoutine.map fun t => w.acquire R t
  | .schedule =>
    if w.sch.currRoutine.isNone && w.sch.tmp.isEmpty then some { w with sch := w.sch.schedule } else none
  | .switch =>
    match w.sch.currRoutine, w.sch.tmp with
    | none, t :: tmp => some (w.switch R t tmp)
    | _, _ => none

end World

namespace Semaphore

/-- `count_`. -/
def resource : Resource Int Unit where
  front count := if count = 0 then none else some ()
  pop _ count := count - 1
  push _ count := count + 1

def acquire (w : World Int Unit) (t : RoutineToken) : World Int Unit := w.acquire resource t

def release (w : World Int Unit) (t : Option RoutineToken) : World Int Unit := w.release resource t ()

def step (w : World Int Unit) (input : Input Unit) : Option (World Int Unit) := w.step resource input

end Semaphore

namespace Channel

variable {α : Type}

/-- `queue_`. -/
def resource : Resource (List α) α where
  front queue := queue.head?
  pop _ queue := queue.tail
  push value queue := queue ++ [value]

/-- `operator>>`. -/
def receive (w : World (List α) α) (t : RoutineToken) : World (List α) α := w.acquire resource t

/-- `operator<<`. -/
def send (w : World (List α) α) (t : Option RoutineToken) (value : α) : World (List α) α :=
  w.release resource t value

def step (w : World (List α) α) (input : Input α) : Option (World (List α) α) := w.step resource input

end Channel

namespace Mutex

/-- `hold_token_`. -/
def resource : Resource (Option RoutineToken) Unit where
  front hold := if hold.isSome then none else some ()
  pop t _ := some t
  push _ _ := none

def lock (w : World (Option RoutineToken) Unit) (t : RoutineToken) : World (Option RoutineToken) Unit :=
  if w.res = some t then { w with log := w.log ++ [.acquired t ()] } else w.acquire resource t

def unlock (w : World (Option RoutineToken) Unit) (t : RoutineToken) : World (Option RoutineToken) Unit :=
  if w.res = some t then (w.give resource (some t) ()).wake
  else { w with log := w.log ++ [.released (some t) ()] }

def step (w : World (Option RoutineToken) Unit) : Input Unit → Option (World (Option RoutineToken) Unit)
  | .acquire => w.sch.currRoutine.map fun t => lock w t
  | .release _ => w.sch.currRoutine.map fun t => unlock w t
  | input => w.step resource input

end Mutex

namespace Broadcast

/-- When `wait` goes on there is nothing it looks at but whether the routine is cancelled. -/
def resource : Resource Unit Unit where
  front _ := some ()
  pop _ _ := ()
  push _ _ := ()

def wait (w : World Unit Unit) (t : RoutineToken) : World Unit Unit := { w with token := w.token ++ [t] }.await t

def post (w : World Unit Unit) : World Unit Unit :=
  { w with sch := w.token.foldl Scheduler.resume w.sch, token := [] }

def step (w : World Unit Unit) : Input Unit → Option (World Unit Unit)
  | .acquire => w.sch.currRoutine.map fun t => wait w t
  | .release _ => if w.mayCall then some (post w) else none
  | input => w.step resource input

end Broadcast

end Tbox.Coroutine
