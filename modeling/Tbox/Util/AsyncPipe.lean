import Tbox.Lib.Run
import Tbox.Lib.StdString

/-!
# The asynchronous pipe

`util/async_pipe.cpp`. An action is one section under one of the four locks, or one step of a thread outside them;
`curr_buffer_mutex_` is held across several, by the thread in `holder`. An append to a pipe that is not initialised,
the end of a `cleanup` under an append and a second `initialize` are not enabled.
-/

namespace Tbox.Util

open Tbox.Lib (Bytes)

abbrev ThreadId := Nat

structure Buffer where
  capacity : Nat
  data : Bytes := []
  size_le : data.length ≤ capacity := by simp
  deriving DecidableEq, Repr

namespace Buffer

def isFull (b : Buffer) : Prop := b.capacity = b.data.length

instance (b : Buffer) : Decidable b.isFull := inferInstanceAs (Decidable (_ = _))

def reset (b : Buffer) : Buffer := { capacity := b.capacity }

/-- The `wsize` of `Buffer::append`. -/
def writeSize (b : Buffer) (dataSize : Nat) : Nat :=
  if b.data.length + dataSize > b.capacity then b.capacity - b.data.length else dataSize

theorem size_append_le (b : Buffer) (bytes : Bytes) :
    (b.data ++ bytes.take (b.writeSize bytes.length)).length ≤ b.capacity := by
  have hsize := b.size_le
  rw [List.length_append, List.length_take, writeSize]
  split <;> omega

def append (b : Buffer) (bytes : Bytes) : Nat × Buffer :=
  (b.writeSize bytes.length,
    ⟨b.capacity, b.data ++ bytes.take (b.writeSize bytes.length), b.size_append_le bytes⟩)

end Buffer

structure Config where
  buffSize : Nat := 1024
  buffMinNum : Nat := 2
  buffMaxNum : Nat := 10
  interval : Nat := 1000
  deriving DecidableEq, Repr

/-- The checks of `initialize`. -/
def Config.Accepted (cfg : Config) : Prop :=
  cfg.buffSize ≠ 0 ∧ cfg.buffMinNum ≠ 0 ∧ cfg.buffMinNum ≤ cfg.buffMaxNum ∧ cfg.interval ≠ 0

instance (cfg : Config) : Decidable cfg.Accepted := inferInstanceAs (Decidable (_ ∧ _))

/-- Where the holder of `curr_buffer_mutex_` is. -/
inductive FrontPc where
  /-- outside `appendLockless` -/
  | outside
  /-- in its loop, with these bytes to go -/
  | copying (remain : Bytes)
  /-- asleep in the wait for a free buffer -/
  | waiting (remain : Bytes)
  /-- about to look again whether there is one -/
  | woken (remain : Bytes)
  deriving DecidableEq, Repr

inductive BackPc where
  | head
  /-- asleep in `wait_for` -/
  | waiting
  /-- out of the wait, because of the time or of the stop signal or of a full buffer -/
  | awake (quit timeup : Bool)
  /-- in the loop over the full buffers -/
  | draining (quit : Bool)
  /-- with a buffer it is about to hand over -/
  | handing (buff : Buffer) (quit : Bool)
  /-- the callback has returned -/
  | handed (buff : Buffer) (quit : Bool)
  /-- it has decided to keep the buffer -/
  | freeing (buff : Buffer) (quit : Bool)
  | exited
  deriving DecidableEq, Repr

/-- Where a call of `cleanup` is. -/
inductive CleanupPc where
  | idle
  | stopping
  | joined
  deriving DecidableEq, Repr

structure AsyncPipe where
  cfg : Config := {}
  currBuffer : Option Buffer := none
  freeBuffers : List Buffer := []
  fullBuffers : List Buffer := []
  buffNum : Nat := 0
  inited : Bool := false
  stopSignal : Bool := false
  holder : Option ThreadId := none
  front : FrontPc := .outside
  back : BackPc := .exited
  cleaner : CleanupPc := .idle
  -- what was appended and what the callback was given, since the last `initialize`
  appended : Bytes := []
  delivered : Bytes := []
  /-- whether a thread has held the lock of the appenders since `cleanup` was called -/
  concurrent : Bool := false
  deriving DecidableEq

namespace AsyncPipe

def initializePipe (s : AsyncPipe) (cfg : Config) : AsyncPipe :=
  if cfg.Accepted then
    { s with
      cfg := cfg
      freeBuffers := s.freeBuffers ++ List.replicate cfg.buffMinNum { capacity := cfg.buffSize }
      buffNum := cfg.buffMinNum
      back := .head
      inited := true
      appended := []
      delivered := [] }
  else s

def appendLock (s : AsyncPipe) (thread : ThreadId) : AsyncPipe :=
  { s with holder := some thread, concurrent := true }

def appendUnlock (s : AsyncPipe) : AsyncPipe := { s with holder := none }

/-- The call of `appendLockless`, as far as its loop. -/
def appendLockless (s : AsyncPipe) (bytes : Bytes) : AsyncPipe :=
  { s with front := .copying bytes, appended := s.appended ++ bytes }

/-- `curr_buffer_ = free_buffers_.back(); free_buffers_.pop_back();` -/
def popFree (s : AsyncPipe) (remain : Bytes) : AsyncPipe :=
  { s with
    currBuffer := s.freeBuffers.getLast?
    freeBuffers := s.freeBuffers.dropLast
    front := .copying remain }

/-- The section under `free_buffers_mutex_`, up to the wait if there is nothing to take. -/
def takeBuffer (s : AsyncPipe) (remain : Bytes) : AsyncPipe :=
  if s.freeBuffers = [] then
    if s.buffNum < s.cfg.buffMaxNum then
      popFree { s with
        buffNum := s.buffNum + 1
        freeBuffers := s.freeBuffers ++ [{ capacity := s.cfg.buffSize }] } remain
    else { s with front := .waiting remain }
  else s.popFree remain

def retakeBuffer (s : AsyncPipe) (remain : Bytes) : AsyncPipe :=
  if s.freeBuffers = [] then { s with front := .waiting remain } else s.popFree remain

/-- One pass of the loop of `appendLockless` with a current buffer. -/
def copyChunk (s : AsyncPipe) (buff : Buffer) (remain : Bytes) : AsyncPipe :=
  let (size, buff) := buff.append remain
  let s := { s with front := .copying (remain.drop size) }
  if buff.isFull then { s with currBuffer := none, fullBuffers := s.fullBuffers ++ [buff] }
  else { s with currBuffer := some buff }

/-- The predicate of `wait_for`, with what it leaves in the two flags; `none` if the wait goes on. -/
def checkWait (s : AsyncPipe) (timeout : Bool) : Option BackPc :=
  if s.stopSignal then some (.awake true false)
  else if s.fullBuffers ≠ [] then some (.awake false false)
  else if timeout then some (.awake false true)
  else none

/-- The start of a pass of `threadFunc`, into the wait. -/
def backHead (s : AsyncPipe) : AsyncPipe :=
  if s.fullBuffers = [] then { s with back := (s.checkWait false).getD .waiting }
  else { s with back := .awake false false }

/-- The `try_lock` section of `threadFunc`. -/
def flushCurr (s : AsyncPipe) (quit timeup : Bool) : AsyncPipe :=
  if (timeup || quit) ∧ s.holder = none then
    { s with
      currBuffer := none
      fullBuffers := s.fullBuffers ++ s.currBuffer.toList
      back := .draining quit }
  else { s with back := .draining quit }

def popFull (s : AsyncPipe) (quit : Bool) : AsyncPipe :=
  match s.fullBuffers with
  | buff :: rest => { s with fullBuffers := rest, back := .handing buff quit }
  | [] => { s with back := if quit then .exited else .head }

/-- `cb_(buff->data(), buff->size())` and the reset. -/
def callback (s : AsyncPipe) (buff : Buffer) (quit : Bool) : AsyncPipe :=
  { s with delivered := s.delivered ++ buff.data, back := .handed buff.reset quit }

/-- The section under `buff_num_mutex_`. -/
def dropBuffer (s : AsyncPipe) (buff : Buffer) (quit : Bool) : AsyncPipe :=
  if s.buffNum > s.cfg.buffMinNum then { s with buffNum := s.buffNum - 1, back := .draining quit }
  else { s with back := .freeing buff quit }

/-- The buffer goes back to the free ones, and the appender that waits for one is woken. -/
def freeBuffer (s : AsyncPipe) (buff : Buffer) (quit : Bool) : AsyncPipe :=
  { s with
    freeBuffers := s.freeBuffers ++ [buff]
    front := match s.front with
      | .waiting remain => .woken remain
      | pc => pc
    back := .draining quit }

def cleanupStop (s : AsyncPipe) : AsyncPipe :=
  { s with stopSignal := true, cleaner := .stopping, concurrent := s.holder.isSome }

def cleanupJoin (s : AsyncPipe) : AsyncPipe := { s with stopSignal := false, cleaner := .joined }

/-- The end of `cleanup`, behind its assertion. -/
def cleanupEnd (s : AsyncPipe) : AsyncPipe :=
  { s with currBuffer := none, freeBuffers := [], inited := false, cleaner := .idle }

inductive Action where
  | initializePipe (cfg : Config)
  | appendLock (thread : ThreadId)
  | appendLockless (bytes : Bytes)
  | takeBuffer
  | wakeFront
  | retakeBuffer
  | copyChunk
  | appendReturn
  | appendUnlock
  | backHead
  | wakeBack (timeout : Bool)
  | flushCurr
  | popFull
  | callback
  | dropBuffer
  | freeBuffer
  | cleanupStop
  | cleanupJoin
  | cleanupEnd
  deriving DecidableEq, Repr

/-- One action, if the thread that performs it is where it belongs and no lock it needs is taken. -/
def step (s : AsyncPipe) : Action → Option AsyncPipe
  | .initializePipe cfg =>
    if s.inited ∧ cfg.Accepted then none else some (s.initializePipe cfg)
  | .appendLock thread =>
    if s.inited ∧ s.holder = none then some (s.appendLock thread) else none
  | .appendLockless bytes =>
    if s.holder ≠ none ∧ s.front = .outside then some (s.appendLockless bytes) else none
  | .takeBuffer =>
    match s.front with
    | .copying remain =>
      if s.currBuffer = none ∧ remain ≠ [] then some (s.takeBuffer remain) else none
    | _ => none
  | .wakeFront =>
    match s.front with
    | .waiting remain => some { s with front := .woken remain }
    | _ => none
  | .retakeBuffer =>
    match s.front with
    | .woken remain => some (s.retakeBuffer remain)
    | _ => none
  | .copyChunk =>
    match s.front, s.currBuffer with
    | .copying remain, some buff => if remain ≠ [] then some (s.copyChunk buff remain) else none
    | _, _ => none
  | .appendReturn =>
    if s.front = .copying [] then some { s with front := .outside } else none
  | .appendUnlock =>
    if s.holder ≠ none ∧ s.front = .outside then some s.appendUnlock else none
  | .backHead => if s.back = .head then some s.backHead else none
  | .wakeBack timeout =>
    if s.back = .waiting then
      some { s with back := (s.checkWait timeout).getD .waiting }
    else none
  | .flushCurr =>
    match s.back with
    | .awake quit timeup => some (s.flushCurr quit timeup)
    | _ => none
  | .popFull =>
    match s.back with
    | .draining quit => some (s.popFull quit)
    | _ => none
  | .callback =>
    match s.back with
    | .handing buff quit => some (s.callback buff quit)
    | _ => none
  | .dropBuffer =>
    match s.back with
    | .handed buff quit => some (s.dropBuffer buff quit)
    | _ => none
  | .freeBuffer =>
    match s.back with
    | .freeing buff quit => some (s.freeBuffer buff quit)
    | _ => none
  | .cleanupStop => if s.inited ∧ s.cleaner = .idle then some s.cleanupStop else none
  | .cleanupJoin =>
    if s.cleaner = .stopping ∧ s.back = .exited then some s.cleanupJoin else none
  | .cleanupEnd =>
    if s.cleaner = .joined ∧ s.fullBuffers = [] ∧ s.holder = none then some s.cleanupEnd else none

end AsyncPipe

end Tbox.Util
