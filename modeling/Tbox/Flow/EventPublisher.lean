import Mathlib.Tactic

/-!
# The event publisher

`flow/event_publisher_impl.cpp`: a vector of subscribers, which a publish walks a copy of. A subscriber
may do anything to the publisher while an event is being given to it, and publish another.
-/

namespace Tbox.Flow.Publisher

variable {S E : Type} [DecidableEq S]

/-- `std::remove`: the entries that are kept, with where they end. What stood behind that place stays there. -/
def remove (vec : List S) (value : S) : List S × Nat :=
  let kept := vec.filter fun entry => entry ≠ value
  (kept ++ vec.drop kept.length, kept.length)

structure EventPublisher (S : Type) where
  subscriberVec : List S := []
  tmpVec : List S := []
  deriving DecidableEq, Repr

namespace EventPublisher

def subscribe (p : EventPublisher S) (subscriber : S) : EventPublisher S :=
  let (vec, iter) := remove p.subscriberVec subscriber
  if iter = p.subscriberVec.length then { p with subscriberVec := vec ++ [subscriber] }
  else { p with subscriberVec := vec }

def unsubscribe (p : EventPublisher S) (subscriber : S) : EventPublisher S :=
  let (vec, iter) := remove p.subscriberVec subscriber
  let (tmp, iter') := remove p.tmpVec subscriber
  { subscriberVec := vec.take iter, tmpVec := tmp.take iter' }

end EventPublisher

/-- A call of `onEvent`, with who had been unsubscribed since the publish began. -/
structure Call (S : Type) where
  subscriber : S
  gone : List S
  deriving DecidableEq, Repr

/-- A publish under way: its own `tmp_vec_`, and what happens in it. -/
structure Publishing (S E : Type) where
  event : E
  tmpVec : List S
  /-- who was subscribed when it began -/
  present : List S
  /-- who has been unsubscribed since -/
  gone : List S := []
  calls : List (Call S) := []
  /-- what the calls have returned -/
  answers : List Bool := []
  deriving DecidableEq, Repr

namespace Publishing

/-- The loop of `publish` up to the next callback, if there is one. -/
def next (f : Publishing S E) : Option (Publishing S E) :=
  f.tmpVec.getLast?.map fun topSubscriber =>
    { f with calls := f.calls ++ [⟨topSubscriber, f.gone⟩] }

def popBack (f : Publishing S E) : Publishing S E := { f with tmpVec := f.tmpVec.dropLast }

end Publishing

/-- The publisher, the publishes under way with the innermost first, and those that have returned. -/
structure World (S E : Type) where
  publisher : EventPublisher S := {}
  stack : List (Publishing S E) := []
  finished : List (Publishing S E) := []
  /-- who has subscribed and not been unsubscribed since, in that order -/
  subscribed : List S := []
  deriving DecidableEq, Repr

inductive Action (S E : Type) where
  | subscribe (subscriber : S)
  | unsubscribe (subscriber : S)
  | publish (event : E)
  /-- the innermost callback returns -/
  | answer (handled : Bool)
  deriving DecidableEq, Repr

namespace World

def proceed (w : World S E) (f : Publishing S E) : World S E :=
  match f.next with
  | some f => { w with stack := f :: w.stack }
  | none => { w with finished := w.finished ++ [f] }

def step (w : World S E) : Action S E → Option (World S E)
  | .subscribe subscriber =>
    some { w with
      publisher := w.publisher.subscribe subscriber
      subscribed :=
        if subscriber ∈ w.subscribed then w.subscribed else w.subscribed ++ [subscriber] }
  | .unsubscribe subscriber =>
    some { w with
      publisher := w.publisher.unsubscribe subscriber
      subscribed := w.subscribed.filter fun other => other ≠ subscriber
      stack := w.stack.map fun f => { f with gone := f.gone ++ [subscriber] } }
  | .publish event =>
    some (w.proceed
      { event := event, tmpVec := w.publisher.subscriberVec, present := w.subscribed })
  | .answer handled =>
    match w.stack with
    | [] => none
    | f :: stack =>
      let f := { f with answers := f.answers ++ [handled] }
      if handled then some { w with stack := stack, finished := w.finished ++ [f] }
      else some ({ w with stack := stack }.proceed f.popBack)

end World

end Tbox.Flow.Publisher
