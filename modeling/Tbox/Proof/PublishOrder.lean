import Tbox.Lib.Run
import Tbox.Flow.EventPublisher

/-!
# Who is given an event

A publish walks a copy that nothing edits: `unsubscribe` edits the member `tmp_vec_`, and `subscribe` finds a
subscriber by removing it. The order holds where neither is noticed.
-/

open Option

namespace Tbox.Flow.Publisher

open Tbox.Lib

variable {S E : Type}

namespace Publishing

/-- Who has been called, in that order. -/
def called (f : Publishing S E) : List S := f.calls.map Call.subscriber

/-- Who was subscribed is called from the most recent to the oldest, but for those who were
unsubscribed before their turn. -/
structure Ordered (f : Publishing S E) : Prop where
  order : f.called.Sublist f.present.reverse
  current : ∀ call ∈ f.calls, call.subscriber ∉ call.gone
  skips : ∀ pre s post, f.present.reverse = pre ++ s :: post → s ∈ f.called →
    ∀ other ∈ pre, other ∈ f.called ∨ other ∈ f.gone

structure Open (f : Publishing S E) : Prop where
  length : f.calls.length = f.answers.length + 1
  answers : ∀ answer ∈ f.answers, answer = false

structure Done (f : Publishing S E) : Prop where
  length : f.calls.length = f.answers.length
  answers : ∀ answer ∈ f.answers.dropLast, answer = false
  ends : f.answers.getLast? = some true ∨ ∀ s ∈ f.present, s ∈ f.called ∨ s ∈ f.gone

end Publishing

/-- The subscriptions are what they are taken to be, and so is every publish. -/
structure World.Faithful (w : World S E) : Prop where
  list : w.publisher.subscriberVec = w.subscribed
  once : w.subscribed.Nodup
  under_way : ∀ f ∈ w.stack, f.Ordered ∧ f.Open
  finished : ∀ f ∈ w.finished, f.Ordered ∧ f.Done

/-- Nobody subscribes again unless it is the last who did, and nobody is unsubscribed while a publish
under way has still to call it. -/
def Quiet (w : World S E) : Action S E → Prop
  | .subscribe subscriber =>
    subscriber ∈ w.publisher.subscriberVec → w.publisher.subscriberVec.getLast? = some subscriber
  | .unsubscribe subscriber => ∀ f ∈ w.stack, subscriber ∉ f.tmpVec.dropLast
  | .publish _ | .answer _ => True

section Vector

variable [DecidableEq S]

theorem remove_of_not_mem {vec : List S} {value : S} (h : value ∉ vec) : remove vec value = (vec, vec.length) := by
  have hkept : vec.filter (fun entry => entry ≠ value) = vec := by
    rw [List.filter_eq_self]
    intro entry hentry
    exact decide_eq_true fun heq => h (heq ▸ hentry)
  rw [remove, hkept, List.drop_length, List.append_nil]

theorem remove_append_singleton {vec : List S} {value : S} (h : value ∉ vec) :
    remove (vec ++ [value]) value = (vec ++ [value], vec.length) := by
  have hkept : (vec ++ [value]).filter (fun entry => entry ≠ value) = vec := by
    rw [List.filter_append, List.filter_eq_self.mpr, List.filter_cons_of_neg, List.filter_nil, List.append_nil]
    · simp
    · intro entry hentry
      exact decide_eq_true fun heq => h (heq ▸ hentry)
  rw [remove, hkept, List.drop_left]

theorem take_remove (vec : List S) (value : S) :
    (remove vec value).1.take (remove vec value).2 = vec.filter fun entry => entry ≠ value := by
  rw [remove]
  exact List.take_left

theorem subscriberVec_unsubscribe (p : EventPublisher S) (subscriber : S) : (p.unsubscribe subscriber).subscriberVec
      = p.subscriberVec.filter fun entry => entry ≠ subscriber :=
  take_remove _ _

theorem subscriberVec_subscribe {p : EventPublisher S} {subscriber : S} (honce : p.subscriberVec.Nodup)
    (h : subscriber ∈ p.subscriberVec → p.subscriberVec.getLast? = some subscriber) :
    (p.subscribe subscriber).subscriberVec =
      if subscriber ∈ p.subscriberVec then p.subscriberVec else p.subscriberVec ++ [subscriber] := by
  rw [EventPublisher.subscribe]
  by_cases hmem : subscriber ∈ p.subscriberVec
  · obtain ⟨front, hfront⟩ := List.getLast?_eq_some_iff.mp (h hmem)
    rw [hfront] at honce
    have hnot : subscriber ∉ front := fun hin => (List.nodup_append.mp honce).2.2 _ hin _ (List.mem_singleton_self _) rfl
    have hne : ¬front.length = (front ++ [subscriber]).length := by
      rw [List.length_append, List.length_singleton]
      omega
    rw [if_pos hmem, hfront, remove_append_singleton hnot]
    dsimp only
    rw [if_neg hne]
  · rw [if_neg hmem, remove_of_not_mem hmem]
    dsimp only
    rw [if_pos rfl]

end Vector

namespace Publishing

structure Ready (f : Publishing S E) : Prop where
  once : f.present.Nodup
  walk : f.present.reverse = f.called ++ f.tmpVec.reverse
  left : ∀ s ∈ f.tmpVec, s ∉ f.gone
  current : ∀ call ∈ f.calls, call.subscriber ∉ call.gone
  length : f.calls.length = f.answers.length
  answers : ∀ answer ∈ f.answers, answer = false

structure Calling (f : Publishing S E) : Prop where
  once : f.present.Nodup
  walk : f.present.reverse = f.called ++ f.tmpVec.dropLast.reverse
  left : ∀ s ∈ f.tmpVec.dropLast, s ∉ f.gone
  current : ∀ call ∈ f.calls, call.subscriber ∉ call.gone
  length : f.calls.length = f.answers.length + 1
  answers : ∀ answer ∈ f.answers, answer = false

variable {f g : Publishing S E}

theorem mem_of_mem_initial {α : Type} {l pre post : List α} {x y : α} (hl : l <+: pre ++ x :: post)
    (honce : (pre ++ x :: post).Nodup) (hx : x ∈ l) (hy : y ∈ pre) : y ∈ l := by
  rcases List.prefix_or_prefix_of_prefix hl (List.prefix_append pre (x :: post)) with hle | hle
  · exact absurd rfl
      ((List.nodup_append.mp honce).2.2 x (hle.subset hx) x List.mem_cons_self)
  · exact hle.subset hy

theorem ordered_of_walk (honce : f.present.Nodup) (hwalk : f.called <+: f.present.reverse)
    (hcurrent : ∀ call ∈ f.calls, call.subscriber ∉ call.gone) : f.Ordered := by
  refine ⟨hwalk.sublist, hcurrent, ?_⟩
  intro pre s post hsplit hs other hother
  refine .inl (mem_of_mem_initial (hsplit ▸ hwalk) (hsplit ▸ ?_) hs hother)
  exact List.nodup_reverse.mpr honce

theorem Calling.ordered (h : f.Calling) : f.Ordered := ordered_of_walk h.once ⟨_, h.walk.symm⟩ h.current

theorem Calling.is_open (h : f.Calling) : f.Open := ⟨h.length, h.answers⟩

theorem Ready.calling (h : f.Ready) (hnext : f.next = some g) : g.Calling := by
  obtain ⟨top, htop, rfl⟩ := map_eq_some_iff.mp hnext
  obtain ⟨front, hfront⟩ := List.getLast?_eq_some_iff.mp htop
  have hwalk := h.walk
  have hleft := h.left
  rw [hfront] at hwalk hleft
  refine ⟨h.once, ?_, ?_, ?_, ?_, h.answers⟩
  · rw [List.reverse_append, List.reverse_singleton] at hwalk
    rw [hwalk, hfront, List.dropLast_concat, called, called, List.map_append, List.append_assoc]
    rfl
  · dsimp only
    rw [hfront, List.dropLast_concat]
    exact fun s hs => hleft s (List.mem_append_left _ hs)
  · intro call hcall
    rcases List.mem_append.mp hcall with hcall | hcall
    · exact h.current call hcall
    · rw [List.mem_singleton.mp hcall]
      exact hleft top (List.mem_append_right _ (List.mem_singleton_self _))
  · dsimp only
    rw [List.length_append, h.length, List.length_singleton]

theorem Ready.done (h : f.Ready) (hnext : f.next = none) : f.Ordered ∧ f.Done := by
  have hempty : f.tmpVec = [] := List.getLast?_eq_none_iff.mp (map_eq_none_iff.mp hnext)
  have hwalk := h.walk
  rw [hempty, List.reverse_nil, List.append_nil] at hwalk
  refine ⟨ordered_of_walk h.once (hwalk ▸ List.prefix_refl _) h.current, h.length, ?_, .inr ?_⟩
  · exact fun answer hanswer => h.answers answer (List.mem_of_mem_dropLast hanswer)
  · intro s hs
    rw [← hwalk]
    exact .inl (List.mem_reverse.mpr hs)

theorem Calling.done (h : f.Calling) : ({ f with answers := f.answers ++ [true] } : Publishing S E).Ordered ∧
      ({ f with answers := f.answers ++ [true] } : Publishing S E).Done := by
  have hordered := h.ordered
  refine ⟨{ hordered with }, ?_, ?_, .inl ?_⟩
  · dsimp only
    rw [h.length, List.length_append, List.length_singleton]
  · rw [List.dropLast_concat]
    exact h.answers
  · exact List.getLast?_concat

theorem Calling.ready (h : f.Calling) :
    ({ f with answers := f.answers ++ [false] } : Publishing S E).popBack.Ready := by
  refine ⟨h.once, h.walk, h.left, h.current, ?_, ?_⟩
  · dsimp only [popBack]
    rw [h.length, List.length_append, List.length_singleton]
  intro answer hanswer
  rcases List.mem_append.mp hanswer with hanswer | hanswer
  · exact h.answers answer hanswer
  · exact List.mem_singleton.mp hanswer

theorem Calling.unsubscribe (h : f.Calling) {subscriber : S} (hnot : subscriber ∉ f.tmpVec.dropLast) :
    ({ f with gone := f.gone ++ [subscriber] } : Publishing S E).Calling := by
  refine { h with left := ?_ }
  intro s hs hgone
  rcases List.mem_append.mp hgone with hgone | hgone
  · exact h.left s hs hgone
  · rw [List.mem_singleton.mp hgone] at hs
    exact hnot hs

end Publishing

namespace World

structure Kept (w : World S E) : Prop where
  list : w.publisher.subscriberVec = w.subscribed
  once : w.subscribed.Nodup
  calling : ∀ f ∈ w.stack, f.Calling
  finished : ∀ f ∈ w.finished, f.Ordered ∧ f.Done

variable {w t : World S E}

theorem Kept.faithful (h : w.Kept) : w.Faithful :=
  ⟨h.list, h.once, fun f hf => ⟨(h.calling f hf).ordered, (h.calling f hf).is_open⟩, h.finished⟩

theorem Kept.proceed (h : w.Kept) {f : Publishing S E} (hready : f.Ready) : (w.proceed f).Kept := by
  rw [World.proceed]
  cases hnext : f.next with
  | none =>
    refine ⟨h.list, h.once, h.calling, fun g hg => ?_⟩
    rcases List.mem_append.mp hg with hg | hg
    · exact h.finished g hg
    · rw [List.mem_singleton.mp hg]
      exact hready.done hnext
  | some g =>
    refine ⟨h.list, h.once, fun other hother => ?_, h.finished⟩
    rcases List.mem_cons.mp hother with rfl | hother
    · exact hready.calling hnext
    · exact h.calling other hother

theorem kept_new : ({} : World S E).Kept := ⟨rfl, List.nodup_nil, nofun, nofun⟩

variable [DecidableEq S]

theorem Kept.subscribe (h : w.Kept) {subscriber : S} (hquiet : Quiet w (.subscribe subscriber))
    (hstep : w.step (.subscribe subscriber) = some t) : t.Kept := by
  cases hstep
  have honce : w.publisher.subscriberVec.Nodup := h.list ▸ h.once
  refine ⟨?_, ?_, h.calling, h.finished⟩
  · rw [subscriberVec_subscribe honce hquiet, h.list]
  dsimp only
  split
  · exact h.once
  next hnot => exact List.concat_eq_append ▸ h.once.concat hnot

theorem Kept.unsubscribe (h : w.Kept) {subscriber : S} (hquiet : Quiet w (.unsubscribe subscriber))
    (hstep : w.step (.unsubscribe subscriber) = some t) : t.Kept := by
  cases hstep
  refine ⟨?_, h.once.filter _, ?_, h.finished⟩
  · rw [subscriberVec_unsubscribe, h.list]
  · intro g hg
    obtain ⟨f, hf, rfl⟩ := List.mem_map.mp hg
    exact (h.calling f hf).unsubscribe (hquiet f hf)

theorem Kept.publish (h : w.Kept) {event : E} (hstep : w.step (.publish event) = some t) : t.Kept := by
  cases hstep
  apply h.proceed
  refine ⟨h.once, ?_, fun _ _ => List.not_mem_nil, nofun, rfl, nofun⟩
  rw [h.list]
  rfl

theorem Kept.answer (h : w.Kept) {handled : Bool} (hstep : w.step (.answer handled) = some t) :
    t.Kept := by
  rw [step] at hstep
  split at hstep
  · cases hstep
  next f stack hstack =>
    have hcalling := h.calling
    rw [hstack] at hcalling
    have hbelow : ∀ g ∈ stack, g.Calling := fun g hg => hcalling g (List.mem_cons_of_mem _ hg)
    have hf := hcalling f List.mem_cons_self
    cases handled with
    | true =>
      cases hstep
      refine ⟨h.list, h.once, hbelow, fun g hg => ?_⟩
      rcases List.mem_append.mp hg with hg | hg
      · exact h.finished g hg
      · rw [List.mem_singleton.mp hg]
        exact hf.done
    | false =>
      cases hstep
      have hrest : ({ w with stack := stack } : World S E).Kept := ⟨h.list, h.once, hbelow, h.finished⟩
      exact hrest.proceed hf.ready

/-- A quiet step leaves to each publish under way whom it has still to call. -/
theorem Kept.step (h : w.Kept) {action : Action S E} (hquiet : Quiet w action)
    (hstep : w.step action = some t) : t.Kept := by
  cases action with
  | subscribe subscriber => exact h.subscribe hquiet hstep
  | unsubscribe subscriber => exact h.unsubscribe hquiet hstep
  | publish event => exact h.publish hstep
  | answer handled => exact h.answer hstep

/-- **Subscriptions and publishes are faithful** in a run that is quiet. -/
theorem faithful_of_run {actions : List (Action S E)} (hquiet : Along step Quiet {} actions)
    (hrun : run step {} actions = some w) : w.Faithful :=
  (run_invariant (fun _ _ _ h hq hstep => h.step hq hstep) kept_new hquiet hrun).faithful

/-- Of three, the second to be called unsubscribes itself and publishes another event, and ends the first with its
answer. -/
def threeSubscribers : List (Action Nat String) :=
  [.subscribe 1, .subscribe 2, .subscribe 3, .subscribe 3, .publish "outer", .answer false,
    .unsubscribe 2, .publish "inner", .answer false, .subscribe 4, .answer false, .answer true]

instance (w : World S E) (action : Action S E) : Decidable (Quiet w action) :=
  match action with
  | .subscribe subscriber =>
    inferInstanceAs (Decidable (subscriber ∈ w.publisher.subscriberVec →
      w.publisher.subscriberVec.getLast? = some subscriber))
  | .unsubscribe subscriber =>
    inferInstanceAs (Decidable (∀ f ∈ w.stack, subscriber ∉ f.tmpVec.dropLast))
  | .publish _ | .answer _ => .isTrue trivial

theorem threeSubscribers_faithful : ∃ w : World Nat String, run step {} threeSubscribers = some w ∧
    w.subscribed = [1, 3, 4] ∧ w.finished.map Publishing.called = [[3, 1], [3, 2]] ∧ w.Faithful := by
  have hrun : ∃ w : World Nat String, run step {} threeSubscribers = some w ∧
      w.subscribed = [1, 3, 4] ∧ w.finished.map Publishing.called = [[3, 1], [3, 2]] :=
    ⟨_, rfl, rfl, rfl⟩
  obtain ⟨w, hrun, hsubscribed, hcalled⟩ := hrun
  exact ⟨w, hrun, hsubscribed, hcalled, faithful_of_run (by decide) hrun⟩

/-- The first of two subscribes again: the second is there twice and the first is not. And one that
is unsubscribed by another is called all the same. -/
theorem subscriptions_fail :
    (∃ w : World Nat String, run step {} [.subscribe 1, .subscribe 2, .subscribe 1] = some w ∧
      w.subscribed = [1, 2] ∧ w.publisher.subscriberVec = [2, 2] ∧ ¬w.Faithful) ∧
    ∃ w : World Nat String, run step {}
        [.subscribe 1, .subscribe 2, .publish "event", .unsubscribe 1, .answer false] = some w ∧
      ¬w.Faithful := by
  refine ⟨⟨_, rfl, rfl, rfl, fun h => ?_⟩, ⟨_, rfl, fun h => ?_⟩⟩
  · exact absurd h.list (by decide)
  · exact (h.under_way _ List.mem_cons_self).1.current ⟨1, [1]⟩
      (List.mem_cons_of_mem _ List.mem_cons_self) List.mem_cons_self

end World

end Tbox.Flow.Publisher
