import Tbox.Event.FdDispatch
import Tbox.Proof.FdRegistration

/-!
# What is dispatched

The copy of a record's list and the batch are taken before the callbacks run, and are not looked at
again. They stay right as long as no callback takes away what is still to be come to.
-/

open List Option

namespace Tbox.Event

open FdLoop

variable {s s' : FdLoop} {engine : Engine} {w w' : DispatchWorld} {e f : EventPtr} {ev : FdEvent}
  {fd fd' : Int} {p : DataPtr} {r : Ready} {tmp : List EventPtr} {batch : List Ready}

/-- What the loop may come across: records that have not been released, descriptors that are in the
table, and events that have not been destroyed and are enabled if their callback is to be invoked. -/
def DispatchEvent.Fair : DispatchEvent → Prop
  | .opened _ live => live
  | .lookedUp _ found => found
  | .entered _ none _ => False
  | .entered _ (some ev) ready => ev.events.meets ready → ev.isEnabled

def DispatchWorld.Spares (w : DispatchWorld) (fd : Int) : Prop :=
  (w.loop.dataOf fd).ref = 1 → ∀ r ∈ w.batch, r.fd ≠ fd

/-- Descriptors are not negative, and a wait returns what it may. -/
def DispatchWorld.Legal (engine : Engine) (w : DispatchWorld) : DispatchInput → Prop
  | .call c => c.Legal
  | .wait batch => w.loop.MayReturn engine batch
  | _ => True

/-- No event is disabled or destroyed, and no descriptor left by its last event, that is still to be come to and is
ready. -/
def DispatchWorld.Careful (w : DispatchWorld) : DispatchInput → Prop
  | .call (.initializeEvent e fd events _) =>
    ∀ ev ∈ w.loop.event e, ev.isEnabled = false →
      (e ∈ w.tmp → ¬events.meets w.ready) ∧ (fd ≠ ev.fd → w.Spares ev.fd)
  | .call (.disable e) => ∀ ev ∈ w.loop.event e, e ∈ w.tmp → ¬ev.events.meets w.ready
  | .call (.destroy e) => e ∉ w.tmp ∧ ∀ ev ∈ w.loop.event e, w.Spares ev.fd
  | _ => True

instance : DecidablePred DispatchEvent.Fair
  | .opened _ _ => inferInstanceAs (Decidable (_ = true))
  | .lookedUp _ _ => inferInstanceAs (Decidable (_ = true))
  | .entered _ none _ => inferInstanceAs (Decidable False)
  | .entered _ (some _) _ => inferInstanceAs (Decidable (_ → _))

instance (w : DispatchWorld) (fd : Int) : Decidable (w.Spares fd) :=
  inferInstanceAs (Decidable (_ → ∀ r ∈ w.batch, r.fd ≠ fd))

instance (w : DispatchWorld) : ∀ input, Decidable (w.Legal engine input)
  | .call c => inferInstanceAs (Decidable c.Legal)
  | .wait batch => inferInstanceAs (Decidable (w.loop.MayReturn engine batch))
  | .next | .returned => inferInstanceAs (Decidable True)

instance (w : DispatchWorld) : ∀ input, Decidable (w.Careful input)
  | .call (.initializeEvent _ _ _ _) =>
    inferInstanceAs (Decidable (∀ ev ∈ w.loop.event _, _ → (_ → ¬_) ∧ (_ → w.Spares ev.fd)))
  | .call (.disable _) => inferInstanceAs (Decidable (∀ ev ∈ w.loop.event _, _ → ¬_))
  | .call (.destroy _) => inferInstanceAs (Decidable (_ ∧ ∀ ev ∈ w.loop.event _, w.Spares ev.fd))
  | .call .construct | .call (.enable _) | .wait _ | .next | .returned =>
    inferInstanceAs (Decidable True)

theorem reload_fdDataMap (s : FdLoop) (engine : Engine) (fd : Int) (p : DataPtr) :
    (s.reload engine fd p).fdDataMap = s.fdDataMap := by
  cases engine with
  | epoll =>
    rw [reload, reloadEpoll]
    split_ifs <;> rfl
  | select => rfl

theorem enable_frame (s : FdLoop) (engine : Engine) (e : EventPtr) (ev : FdEvent) :
    (∀ f, f ≠ e → (s.enable engine e ev).event f = s.event f) ∧ (s.enable engine e ev).fdDataMap = s.fdDataMap := by
  refine ⟨fun f hf => event_enable_of_ne hf, ?_⟩
  rw [enable]
  split
  · rfl
  · split_ifs
    · rfl
    · exact reload_fdDataMap _ _ _ _

theorem event_enable_self (he : s.event e = some ev) (engine : Engine) :
    ∃ ev', (s.enable engine e ev).event e = some ev' ∧ ev'.events = ev.events ∧ (ev.isEnabled → ev'.isEnabled) := by
  rcases hd : ev.d with _ | p
  · rw [enable, hd]
    exact ⟨ev, he, rfl, fun h => h⟩
  · exact ⟨_, event_enable he hd, rfl, fun _ => rfl⟩

theorem event_initializeEvent_self (he : s.event e = some ev) (fd : Int) (kinds : Kinds) (oneshot : Bool) :
    ∃ ev', (s.initializeEvent e ev fd kinds oneshot).event e = some ev' ∧
      (ev.isEnabled ∧ ev' = ev ∨ ev.isEnabled = false ∧ ev'.events = kinds) := by
  rw [initializeEvent]
  split_ifs with hon hne
  · exact ⟨ev, he, .inl ⟨hon, rfl⟩⟩
  · have hstill : ((s.unrefFdSharedData ev.fd).refFdSharedData fd).2.event e = some ev :=
      (event_congr ((ref_events fd).trans (unref_events ev.fd)) e).trans he
    exact ⟨_, event_setEvent_self hstill _, .inr ⟨Bool.eq_false_of_not_eq_true hon, rfl⟩⟩
  · exact ⟨_, event_setEvent_self he _, .inr ⟨Bool.eq_false_of_not_eq_true hon, rfl⟩⟩

theorem disable_frame (s : FdLoop) (engine : Engine) (e : EventPtr) (ev : FdEvent) :
    (∀ f, f ≠ e → (s.disable engine e ev).event f = s.event f) ∧ (s.disable engine e ev).fdDataMap = s.fdDataMap := by
  refine ⟨fun f hf => event_disable_of_ne hf, ?_⟩
  rw [disable]
  split
  · rfl
  · split_ifs
    · exact reload_fdDataMap _ _ _ _
    · rfl

theorem fdDataMap_unref (h : s.Mapped) (hp : s.fdDataMap fd' = some p) (hspares : (s.dataOf fd).ref = 1 → fd' ≠ fd) :
    (s.unrefFdSharedData fd).fdDataMap fd' = some p := by
  rcases hq : s.fdDataMap fd with _ | q
  · rw [unrefFdSharedData, hq]
    exact hp
  obtain ⟨-, hmap, -⟩ := unrefFdSharedData_spec h hq
  rw [hmap, if_neg, hp]
  rintro ⟨hsame, hzero⟩
  exact hspares (by omega) hsame

theorem fdDataMap_ref (h : s.fdDataMap fd' = some p) : (s.refFdSharedData fd).2.fdDataMap fd' = some p := by
  rw [refFdSharedData]
  split
  · exact h
  next hnone =>
    have hne : fd' ≠ fd := by
      rintro rfl
      rw [hnone] at h
      cases h
    dsimp only
    rw [Function.update_of_ne hne]
    exact h

theorem ref_disable (h : s.Tabled) (he : s.events[e]? = some (some ev)) (engine : Engine) (fd : Int) :
    ((s.disable engine e ev).dataOf fd).ref = (s.dataOf fd).ref := by
  rw [disable]
  split
  · rfl
  next p hp =>
    split_ifs with hon
    · obtain ⟨-, hmap, -⟩ := h.tallies_of_event he hp
      set d : FdSharedData := { (s.data p).count ev.events (-1) with
        fdEvents := ((s.data p).count ev.events (-1)).fdEvents.erase e } with hd
      have hmapped : (s.setData p d).Mapped := ⟨h.inj, h.fresh⟩
      obtain ⟨⟨mask, hdata⟩, -⟩ := reload_spec hmapped hmap engine
      refine (congrArg FdSharedData.ref (hdata fd)).trans ?_
      rw [dataOf_setData h.toMapped hmap, dataOf_setData h.toMapped hmap, if_pos rfl]
      split_ifs with hfd
      · rw [hfd, dataOf_of_some hmap]
        rfl
      · rfl
    · rfl

theorem initializeEvent_frame (h : s.Mapped) (e : EventPtr) (ev : FdEvent) (fd : Int) (kinds : Kinds)
    (oneshot : Bool) : (∀ f, f ≠ e → (s.initializeEvent e ev fd kinds oneshot).event f = s.event f) ∧
      ∀ fd' p, s.fdDataMap fd' = some p →
        (ev.isEnabled = false → fd ≠ ev.fd → (s.dataOf ev.fd).ref = 1 → fd' ≠ ev.fd) →
        (s.initializeEvent e ev fd kinds oneshot).fdDataMap fd' = some p := by
  rw [initializeEvent]
  split_ifs with hon hne
  · exact ⟨fun _ _ => rfl, fun _ _ hp _ => hp⟩
  · refine ⟨fun f hf => ?_, fun fd' p hp hspares => ?_⟩
    · dsimp only
      rw [event_setEvent_of_ne hf]
      exact event_congr ((ref_events fd).trans (unref_events ev.fd)) f
    · exact fdDataMap_ref (fdDataMap_unref h hp (hspares (Bool.eq_false_of_not_eq_true hon) hne))
  · exact ⟨fun f hf => event_setEvent_of_ne hf _, fun _ _ hp _ => hp⟩

theorem destroy_frame (h : s.Tabled) (he : s.events[e]? = some (some ev)) (engine : Engine) :
    (∀ f, f ≠ e → (s.destroy engine e ev).event f = s.event f) ∧
      ∀ fd' p, s.fdDataMap fd' = some p → ((s.dataOf ev.fd).ref = 1 → fd' ≠ ev.fd) →
        (s.destroy engine e ev).fdDataMap fd' = some p := by
  obtain ⟨hevent, hmap⟩ := disable_frame s engine e ev
  refine ⟨fun f hf => ?_, fun fd' p hp hspares => ?_⟩
  · rw [destroy, event_setEvent_of_ne hf, event_congr (unref_events ev.fd)]
    exact hevent f hf
  · refine fdDataMap_unref (h.disable engine he).toMapped (hmap ▸ hp) fun hone => hspares ?_
    rwa [ref_disable h he] at hone

structure Dispatching (engine : Engine) (w : DispatchWorld) : Prop where
  tabled : w.loop.Tabled
  watched : engine = .epoll → Watched w.loop
  nodup : w.tmp.Nodup
  tmp : ∀ e ∈ w.tmp, ∃ ev, w.loop.event e = some ev ∧ (ev.events.meets w.ready → ev.isEnabled)
  batch : ∀ r ∈ w.batch, ∃ p, w.loop.fdDataMap r.fd = some p ∧ (engine = .epoll → p = r.d)
  fair : ∀ entry ∈ w.log, entry.Fair

theorem Dispatching.withLoop (h : Dispatching engine w) {loop : FdLoop} {pc : DispatchPc}
    (htabled : loop.Tabled) (hwatched : engine = .epoll → Watched loop)
    (htmp : ∀ e ∈ w.tmp, ∀ ev, w.loop.event e = some ev → (ev.events.meets w.ready → ev.isEnabled) →
      ∃ ev', loop.event e = some ev' ∧ (ev'.events.meets w.ready → ev'.isEnabled))
    (hbatch : ∀ r ∈ w.batch, ∀ p, w.loop.fdDataMap r.fd = some p → loop.fdDataMap r.fd = some p) :
    Dispatching engine { w with loop, pc } where
  tabled := htabled
  watched := hwatched
  nodup := h.nodup
  tmp e he := by
    obtain ⟨ev, hev, hmeets⟩ := h.tmp e he
    exact htmp e he ev hev hmeets
  batch r hr := by
    obtain ⟨p, hp, hd⟩ := h.batch r hr
    exact ⟨p, hbatch r hr p hp, hd⟩
  fair := h.fair

theorem Dispatching.call (h : Dispatching engine w) {c : FdCall} (hlegal : c.Legal)
    (hcareful : w.Careful (.call c)) {loop : FdLoop} (hcall : w.loop.call engine c = some loop)
    (pc : DispatchPc) : Dispatching engine { w with loop, pc } := by
  have htabled : loop.Tabled :=
    (call_invariant (I := fun _ => True) (fun _ _ _ _ _ => trivial) h.tabled trivial hlegal hcall).1
  have hwatched : engine = .epoll → Watched loop := by
    rintro rfl
    exact (call_invariant (fun s s' htabled hwatched hmove => hwatched.move htabled hmove) h.tabled
      (h.watched rfl) hlegal hcall).2
  -- events other than the one that is called are as they were
  have hothers : ∀ e, (∀ f, f ≠ e → loop.event f = w.loop.event f) →
      (e ∈ w.tmp → ∀ ev, w.loop.event e = some ev → (ev.events.meets w.ready → ev.isEnabled) →
        ∃ ev', loop.event e = some ev' ∧ (ev'.events.meets w.ready → ev'.isEnabled)) →
      ∀ f ∈ w.tmp, ∀ ev, w.loop.event f = some ev → (ev.events.meets w.ready → ev.isEnabled) →
        ∃ ev', loop.event f = some ev' ∧ (ev'.events.meets w.ready → ev'.isEnabled) := by
    intro e hframe hself f hf ev hev hmeets
    by_cases hfe : f = e
    · subst hfe
      exact hself hf ev hev hmeets
    · exact ⟨ev, (hframe f hfe).trans hev, hmeets⟩
  cases c with
  | construct =>
    cases hcall
    refine h.withLoop htabled hwatched (fun e _ ev hev hmeets => ⟨ev, ?_, hmeets⟩) fun _ _ _ hp => hp
    rw [event_eq_some] at hev ⊢
    exact (getElem?_append_left (List.getElem?_eq_some_iff.mp hev).1).trans hev
  | initializeEvent e fd events oneshot =>
    obtain ⟨ev, hev, rfl⟩ := map_eq_some_iff.mp hcall
    obtain ⟨hevent, hmap⟩ := initializeEvent_frame h.tabled.toMapped e ev fd events oneshot
    refine h.withLoop htabled hwatched (hothers e hevent fun hin ev' hev' hmeets => ?_)
      fun r hr p hp => hmap r.fd p hp fun hoff hne hlast => ?_
    · obtain rfl : ev = ev' := some.inj (hev.symm.trans hev')
      obtain ⟨ev', hself, hcases⟩ := event_initializeEvent_self hev fd events oneshot
      refine ⟨ev', hself, fun hnew => ?_⟩
      rcases hcases with ⟨hon, rfl⟩ | ⟨hoff, hkinds⟩
      · exact hon
      · rw [hkinds] at hnew
        exact absurd hnew ((hcareful ev hev hoff).1 hin)
    · exact (hcareful ev hev hoff).2 hne hlast r hr
  | enable e =>
    obtain ⟨ev, hev, rfl⟩ := map_eq_some_iff.mp hcall
    obtain ⟨hevent, hmap⟩ := enable_frame w.loop engine e ev
    refine h.withLoop htabled hwatched (hothers e hevent fun _ ev' hev' hmeets => ?_) fun r _ p hp => hmap ▸ hp
    obtain rfl : ev = ev' := some.inj (hev.symm.trans hev')
    obtain ⟨ev', hself, hevents, hon⟩ := event_enable_self hev engine
    exact ⟨ev', hself, fun hnew => hon (hmeets (hevents ▸ hnew))⟩
  | disable e =>
    obtain ⟨ev, hev, rfl⟩ := map_eq_some_iff.mp hcall
    obtain ⟨hevent, hmap⟩ := disable_frame w.loop engine e ev
    refine h.withLoop htabled hwatched (hothers e hevent fun hin ev' hev' _ => ?_) fun r _ p hp => hmap ▸ hp
    obtain rfl : ev = ev' := some.inj (hev.symm.trans hev')
    have hself := disable_spec h.tabled engine (event_eq_some.mp hev)
    exact ⟨_, event_eq_some.mpr hself, fun hnew => absurd hnew (hcareful ev hev hin)⟩
  | destroy e =>
    obtain ⟨ev, hev, rfl⟩ := map_eq_some_iff.mp hcall
    obtain ⟨hevent, hmap⟩ := destroy_frame h.tabled (event_eq_some.mp hev) engine
    refine h.withLoop htabled hwatched (hothers e hevent fun hin => absurd hin hcareful.1)
      fun r hr p hp => hmap r.fd p hp fun hlast => ?_
    exact hcareful.2 ev hev hlast r hr

theorem DispatchEvent.fair_append {log : List DispatchEvent} {entry : DispatchEvent}
    (h : ∀ entry ∈ log, entry.Fair) (hnew : entry.Fair) : ∀ x ∈ log ++ [entry], x.Fair := by
  intro x hx
  rcases mem_append.mp hx with hx | hx
  · exact h x hx
  · exact mem_singleton.mp hx ▸ hnew

theorem Dispatching.wait (h : Dispatching engine w) (hmay : w.loop.MayReturn engine batch) :
    Dispatching engine { w with pc := .timers, batch } := by
  refine { h with batch := fun r hr => ?_ }
  cases engine with
  | epoll =>
    obtain ⟨x, hinterest, hd, -⟩ := hmay.2 r hr
    rw [mem_def, (h.watched rfl).interest] at hinterest
    split_ifs at hinterest
    obtain ⟨p, hp, heq⟩ := map_eq_some_iff.mp hinterest
    exact ⟨p, hp, fun _ => (congrArg Prod.snd heq).trans hd⟩
  | select =>
    obtain ⟨-, d, hd, -⟩ := hmay.2 r hr
    exact ⟨d, hd, nofun⟩

theorem Dispatching.opened (h : Dispatching engine w) (hp : w.loop.fdDataMap r.fd = some p)
    {kinds : Kinds} {entry : DispatchEvent} (hentry : entry.Fair)
    (hbatch : ∀ r ∈ batch, r ∈ w.batch) :
    Dispatching engine { w with
      batch, tmp := (w.loop.data p).fdEvents, ready := kinds, log := w.log ++ [entry] } := by
  have hpos : 0 ≤ r.fd := by
    by_contra hneg
    rw [h.tabled.negative r.fd (by omega)] at hp
    cases hp
  have htally := h.tabled.tallies r.fd hpos
  rw [dataOf_of_some hp] at htally
  refine ⟨h.tabled, h.watched, htally.nodup, fun e he => ?_, fun r hr => h.batch r (hbatch r hr),
    DispatchEvent.fair_append h.fair hentry⟩
  obtain ⟨ev, hev, hon⟩ := (htally.mem e).mp he
  rw [FdEvent.enabledOn, Bool.and_eq_true] at hon
  exact ⟨ev, event_eq_some.mpr hev, fun _ => hon.2⟩

theorem Dispatching.onEventCallback (h : Dispatching engine w) (hr : r ∈ w.batch)
    (hbatch : ∀ r ∈ batch, r ∈ w.batch) : Dispatching engine (w.onEventCallback engine r batch) := by
  obtain ⟨p, hp, hd⟩ := h.batch r hr
  cases engine with
  | epoll =>
    rw [hd rfl] at hp
    rw [DispatchWorld.onEventCallback, if_pos hp]
    exact h.opened hp rfl hbatch
  | select =>
    rw [DispatchWorld.onEventCallback, hp]
    exact h.opened hp rfl hbatch

theorem Dispatching.onEvent (h : Dispatching engine w) (htmp : w.tmp = e :: tmp) :
    Dispatching engine (w.onEvent engine e tmp) := by
  obtain ⟨ev, hev, hmeets⟩ := h.tmp e (htmp ▸ mem_cons_self)
  have hnodup := h.nodup
  rw [htmp, nodup_cons] at hnodup
  have hentered : Dispatching engine { w with
      tmp, log := w.log ++ [.entered e (some ev) w.ready] } :=
    ⟨h.tabled, h.watched, hnodup.2, fun f hf => h.tmp f (htmp ▸ mem_cons_of_mem e hf), h.batch,
      DispatchEvent.fair_append h.fair hmeets⟩
  rw [DispatchWorld.onEvent, hev]
  dsimp only
  split_ifs
  · -- a one-shot event is disabled, and it is not to be come to again
    obtain ⟨hevent, hmap⟩ := disable_frame w.loop engine e ev
    have hmove : Move engine w.loop (w.loop.disable engine e ev) := .disable e ev (event_eq_some.mp hev)
    refine hentered.withLoop (h.tabled.move hmove) ?_ (fun f hf ev' hev' hmeets' => ?_) fun r _ p hp => hmap ▸ hp
    · rintro rfl
      exact (h.watched rfl).move h.tabled hmove
    · exact ⟨ev', (hevent f (ne_of_mem_of_not_mem hf hnodup.1)).trans hev', hmeets'⟩
  · exact hentered.withLoop h.tabled h.watched (fun f _ ev' hev' hmeets' => ⟨ev', hev', hmeets'⟩)
      fun r _ p hp => hp
  · exact hentered

theorem Dispatching.next (h : Dispatching engine w) : Dispatching engine (w.next engine) := by
  rw [DispatchWorld.next]
  split
  · next e tmp _ htmp => exact h.onEvent htmp
  · next r batch _ hbatch =>
      refine h.onEventCallback (hbatch ▸ mem_cons_self) fun r' hr' => ?_
      exact hbatch ▸ mem_cons_of_mem r hr'
  · exact h.withLoop h.tabled h.watched (fun e _ ev hev hmeets => ⟨ev, hev, hmeets⟩)
      fun _ _ _ hp => hp

theorem Dispatching.withPc (h : Dispatching engine w) (pc : DispatchPc) : Dispatching engine { w with pc } :=
  { h with }

/-- A careful step keeps the rest of the batch in the table and the rest of the copy alive. -/
theorem Dispatching.step (h : Dispatching engine w) {input : DispatchInput}
    (hlegal : w.Legal engine input) (hcareful : w.Careful input) (hstep : w.step engine input = some w') :
    Dispatching engine w' := by
  cases input with
  | call c =>
    rw [DispatchWorld.step] at hstep
    split at hstep
    · obtain ⟨loop, hcall, rfl⟩ := map_eq_some_iff.mp hstep
      exact h.call hlegal hcareful hcall _
    · obtain ⟨loop, hcall, rfl⟩ := map_eq_some_iff.mp hstep
      exact h.call hlegal hcareful hcall _
    · split_ifs at hstep
      obtain ⟨loop, hcall, rfl⟩ := map_eq_some_iff.mp hstep
      exact h.call hlegal hcareful hcall _
    · cases hstep
  | wait batch =>
    rw [DispatchWorld.step] at hstep
    split_ifs at hstep
    cases hstep
    exact h.wait hlegal
  | next =>
    rw [DispatchWorld.step] at hstep
    split at hstep
    · cases hstep
      exact h.withPc _
    · cases hstep
      exact h.next
    · cases hstep
  | returned =>
    rw [DispatchWorld.step] at hstep
    split at hstep
    · cases hstep
      exact h.withPc _
    · cases hstep

end Tbox.Event
