import Tbox.Proof.FdTables
import Tbox.Event.FdDispatch
import Tbox.Eventx.TimerFd
import Tbox.Lib.Watch

/-!
# Initialised again

What an event on a descriptor and a timer on one show after `initialize` is that of a watch for the arguments, but for
one thing: that it is one-shot is remembered from the times before.
-/

open List Option

namespace Tbox.Event

open Lib (Alike Device Watch WatchOp run)

variable {s s' u : FdLoop} {engine : Engine} {e f : EventPtr} {ev ev' : FdEvent} {fd : Int} {kinds : Kinds}
  {oneshot oneshot' : Bool} {p : DataPtr}

namespace FdLoop

theorem event_initializeEvent_of_ne (hne : e ≠ f) :
    (s.initializeEvent f ev fd kinds oneshot).event e = s.event e := by
  rw [initializeEvent]
  split_ifs
  · rfl
  · rw [event_setEvent_of_ne hne]
    exact event_congr ((ref_events fd).trans (unref_events ev.fd)) e
  · exact event_setEvent_of_ne hne _

theorem event_destroy_of_ne (hne : e ≠ f) : (s.destroy engine f ev).event e = s.event e := by
  rw [destroy, event_setEvent_of_ne hne, event_congr (unref_events ev.fd)]
  exact event_disable_of_ne hne

theorem Tabled.initializeEvent (h : s.Tabled) (he : s.event e = some ev) (hfd : 0 ≤ fd) (kinds : Kinds)
    (oneshot : Bool) : (s.initializeEvent e ev fd kinds oneshot).Tabled := by
  have hcall : s.call .epoll (.initializeEvent e fd kinds oneshot) =
      some (s.initializeEvent e ev fd kinds oneshot) := by
    rw [call, he]
    rfl
  have hlegal : (FdCall.initializeEvent e fd kinds oneshot).Legal := hfd
  exact (call_invariant (I := fun _ => True) (fun _ _ _ _ _ => trivial) h trivial hlegal hcall).1

theorem event_initializeEvent (h : s.Tabled) (he : s.event e = some ev) (hoff : ev.isEnabled = false) (hfd : 0 ≤ fd) :
    ∃ p, (s.initializeEvent e ev fd kinds oneshot).event e =
      some ⟨fd, kinds, false, ev.isStopAfterTrigger || oneshot, some p⟩ := by
  have hnot : ¬ev.isEnabled = true := by
    rw [hoff]
    exact Bool.false_ne_true
  rw [initializeEvent, if_neg hnot]
  by_cases hsame : fd = ev.fd
  · rw [if_neg (not_not.mpr hsame)]
    rcases h.pointer e ev (event_eq_some.mp he) with ⟨hnone, -⟩ | ⟨-, p, hp, -⟩
    · omega
    · refine ⟨p, ?_⟩
      rw [event_setEvent_self he, hsame, hp, hoff]
  · rw [if_pos hsame]
    have hstill : ((s.unrefFdSharedData ev.fd).refFdSharedData fd).2.event e = some ev :=
      (event_congr ((ref_events fd).trans (unref_events ev.fd)) e).trans he
    refine ⟨((s.unrefFdSharedData ev.fd).refFdSharedData fd).1, ?_⟩
    rw [event_setEvent_self hstill, hoff]

end FdLoop

def FdOp.concerns (e : EventPtr) : FdOp → Option (WatchOp Kinds)
  | .call (.enable f) => if f = e then some .enable else none
  | .call (.disable f) => if f = e then some .disable else none
  | .fire f ready => if f = e then some (.fire ready) else none
  | _ => none

/-- Descriptors are not negative. -/
def FdOp.Legal : FdOp → Prop
  | .call c => c.Legal
  | .fire _ _ => True

instance FdOp.decidableLegal : ∀ op : FdOp, Decidable op.Legal
  | .call c => inferInstanceAs (Decidable c.Legal)
  | .fire _ _ => inferInstanceAs (Decidable True)

def FdOp.Spares (e : EventPtr) : FdOp → Prop
  | .call (.initializeEvent f _ _ _) | .call (.destroy f) => f ≠ e
  | _ => True

def FdLoop.device (engine : Engine) (e : EventPtr) : Device FdLoop FdOp (Int × Kinds) Kinds where
  step := FdLoop.perform engine
  armed s := (s.event e).bind fun ev => if ev.isEnabled then some (ev.fd, ev.events) else none
  concerns := FdOp.concerns e

structure FdLoop.Shows (e : EventPtr) (s : FdLoop) (x : Watch (Int × Kinds) Kinds) : Prop where
  event : ∃ ev p, s.event e = some ev ∧ ev.d = some p ∧ x.subject = (ev.fd, ev.events) ∧ x.due = ev.events.meets ∧
    x.isEnabled = ev.isEnabled ∧ (x.oneshot = ev.isStopAfterTrigger ∨ ev.events = {})

theorem Kinds.meets_self (h : kinds ≠ {}) : kinds.meets kinds = true := by
  obtain ⟨read, write, except⟩ := kinds
  revert h
  cases read <;> cases write <;> cases except <;> simp [Kinds.meets]

namespace FdLoop

variable {x : Watch (Int × Kinds) Kinds}

theorem Shows.congr (h : Shows e s x) (hsame : s'.event e = s.event e) : Shows e s' x := by
  obtain ⟨ev, p, he, hrest⟩ := h.event
  exact ⟨ev, p, hsame.trans he, hrest⟩

theorem Shows.enable (h : Shows e s x) (he : s.event e = some ev) :
    Shows e (s.enable engine e ev) (x.step .enable).2 := by
  obtain ⟨ev', p, he', hd, hsubject, hdue, -, honeshot⟩ := h.event
  cases he.symm.trans he'
  exact ⟨_, p, event_enable he hd, hd, hsubject, hdue, rfl, honeshot⟩

theorem Shows.disable (h : Shows e s x) (he : s.event e = some ev) :
    Shows e (s.disable engine e ev) (x.step .disable).2 := by
  obtain ⟨ev', p, he', hd, hsubject, hdue, -, honeshot⟩ := h.event
  cases he.symm.trans he'
  exact ⟨_, p, event_disable he hd, hd, hsubject, hdue, rfl, honeshot⟩

theorem Shows.onEvent (h : Shows e s x) (he : s.event e = some ev) (ready : Kinds) :
    (s.onEvent engine e ev ready).1 = (x.step (.fire ready)).1 ∧
      Shows e (s.onEvent engine e ev ready).2 (x.step (.fire ready)).2 := by
  obtain ⟨ev', p, he', hd, hsubject, hdue, hon, honeshot⟩ := h.event
  cases he.symm.trans he'
  rw [FdLoop.onEvent, Watch.step, hdue]
  by_cases hmeets : ev.events.meets ready = true
  · have hflag : x.oneshot = ev.isStopAfterTrigger := honeshot.resolve_right fun hnone => by
      rw [hnone] at hmeets
      cases hmeets
    rw [if_pos hmeets, if_pos hmeets]
    refine ⟨rfl, ?_⟩
    by_cases hstop : ev.isStopAfterTrigger = true
    · rw [if_pos hstop]
      refine ⟨_, p, event_disable he hd, hd, hsubject, rfl, ?_, honeshot⟩
      rw [hflag, hstop]
      exact Bool.and_false _
    · rw [if_neg hstop]
      refine ⟨ev, p, he, hd, hsubject, rfl, ?_, honeshot⟩
      rw [hflag, Bool.eq_false_of_not_eq_true hstop, hon]
      exact Bool.and_true _
  · rw [if_neg hmeets, if_neg hmeets]
    exact ⟨rfl, h⟩

theorem event_onEvent_of_ne (hne : e ≠ f) (ready : Kinds) : (s.onEvent engine f ev ready).2.event e = s.event e := by
  rw [onEvent]
  split_ifs
  · exact event_disable_of_ne hne
  · rfl
  · rfl

/-- **An event follows its watch**, whatever else is done to the loop. -/
theorem follows_device (engine : Engine) (e : EventPtr) : (device engine e).Follows (FdOp.Spares e) (Shows e) := by
  constructor
  · intro s x h
    obtain ⟨ev, p, he, -, hsubject, -, hon, -⟩ := h.event
    rw [device, Watch.armed, hsubject, hon]
    dsimp only
    rw [he]
    rfl
  · intro s x op called t h hspares hstep
    change s.perform engine op = some (called, t) at hstep
    change x.Meets (Shows e t) called (FdOp.concerns e op)
    cases op with
    | fire f ready =>
      obtain ⟨ev, he, hfired⟩ := map_eq_some_iff.mp hstep
      obtain ⟨rfl, rfl⟩ := Prod.mk.inj hfired
      by_cases hf : f = e
      · subst hf
        rw [FdOp.concerns, if_pos rfl]
        exact h.onEvent he ready
      · rw [FdOp.concerns, if_neg hf]
        exact h.congr (event_onEvent_of_ne (Ne.symm hf) ready)
    | call c =>
      obtain ⟨t', hcall, hcalled⟩ := map_eq_some_iff.mp hstep
      obtain ⟨rfl, rfl⟩ := Prod.mk.inj hcalled
      cases c with
      | construct =>
        cases hcall
        obtain ⟨ev, p, he, -⟩ := h.event
        exact h.congr ((event_construct he).trans he.symm)
      | initializeEvent f fd kinds oneshot =>
        obtain ⟨ev, he, rfl⟩ := map_eq_some_iff.mp hcall
        exact h.congr (event_initializeEvent_of_ne (Ne.symm hspares))
      | destroy f =>
        obtain ⟨ev, he, rfl⟩ := map_eq_some_iff.mp hcall
        exact h.congr (event_destroy_of_ne (Ne.symm hspares))
      | enable f =>
        obtain ⟨ev, he, rfl⟩ := map_eq_some_iff.mp hcall
        by_cases hf : f = e
        · subst hf
          rw [FdOp.concerns, if_pos rfl]
          exact ⟨rfl, h.enable he⟩
        · rw [FdOp.concerns, if_neg hf]
          exact h.congr (event_enable_of_ne (Ne.symm hf))
      | disable f =>
        obtain ⟨ev, he, rfl⟩ := map_eq_some_iff.mp hcall
        by_cases hf : f = e
        · subst hf
          rw [FdOp.concerns, if_pos rfl]
          exact ⟨rfl, h.disable he⟩
        · rw [FdOp.concerns, if_neg hf]
          exact h.congr (event_disable_of_ne (Ne.symm hf))

/-- A loop with a history: whatever has been called and has fired. -/
def Reached (engine : Engine) (s : FdLoop) : Prop :=
  ∃ ops : List FdOp, (∀ op ∈ ops, op.Legal) ∧ run (fun s op => (perform engine s op).map Prod.snd) {} ops = some s

theorem Tabled.perform {op : FdOp} {called : Bool} (h : s.Tabled) (hlegal : op.Legal)
    (hstep : s.perform engine op = some (called, s')) : s'.Tabled := by
  cases op with
  | call c =>
    obtain ⟨t, hcall, hcalled⟩ := map_eq_some_iff.mp hstep
    obtain ⟨-, rfl⟩ := Prod.mk.inj hcalled
    exact (call_invariant (I := fun _ => True) (fun _ _ _ _ _ => trivial) h trivial hlegal hcall).1
  | fire f ready =>
    obtain ⟨ev, he, hfired⟩ := map_eq_some_iff.mp hstep
    rw [FdLoop.onEvent] at hfired
    split_ifs at hfired
    · obtain ⟨-, rfl⟩ := Prod.mk.inj hfired
      exact h.disable engine (event_eq_some.mp he)
    · obtain ⟨-, rfl⟩ := Prod.mk.inj hfired
      exact h
    · obtain ⟨-, rfl⟩ := Prod.mk.inj hfired
      exact h

theorem Reached.tabled (h : Reached engine s) : s.Tabled := by
  obtain ⟨ops, hlegal, hrun⟩ := h
  refine Lib.run_invariant (I := Tabled) ?_ tabled_init (Lib.along_of_forall_mem hlegal) hrun
  intro s op s' hs hop hstep
  obtain ⟨⟨called, t⟩, hperform, rfl⟩ := map_eq_some_iff.mp hstep
  exact hs.perform hop hperform

/-- Initialised again, the event shows what a new one shows, in whatever loop, that is initialised like this. -/
def LikeFresh (engine : Engine) (s : FdLoop) (e : EventPtr) (ev : FdEvent) (fd : Int) (kinds : Kinds)
    (oneshot : Bool) : Prop :=
  ∀ u f, Reached engine u → u.event f = some {} →
    Alike (device engine e) (FdOp.Spares e) (s.initializeEvent e ev fd kinds oneshot)
      (device engine f) (FdOp.Spares f) (u.initializeEvent f {} fd kinds oneshot)

/-- The watch that the arguments ask for. -/
def asked (fd : Int) (kinds : Kinds) (oneshot : Bool) : Watch (Int × Kinds) Kinds where
  subject := (fd, kinds)
  due := kinds.meets
  oneshot := oneshot

theorem shows_initializeEvent (h : s.Tabled) (he : s.event e = some ev) (hoff : ev.isEnabled = false) (hfd : 0 ≤ fd)
    (honeshot : oneshot' = (ev.isStopAfterTrigger || oneshot) ∨ kinds = {}) :
    Shows e (s.initializeEvent e ev fd kinds oneshot) (asked fd kinds oneshot') := by
  obtain ⟨p, hp⟩ : ∃ p, (s.initializeEvent e ev fd kinds oneshot).event e =
    some ⟨fd, kinds, false, ev.isStopAfterTrigger || oneshot, some p⟩ := event_initializeEvent h he hoff hfd
  exact ⟨_, p, hp, rfl, rfl, rfl, rfl, honeshot⟩

theorem Shows.runs (h : Shows e s x) (ready : Kinds) :
    (run (device engine e).next s [.call (.enable e), .fire e ready]).isSome := by
  obtain ⟨ev, p, he, hd, -⟩ := h.event
  have hfirst : (device engine e).next s (.call (.enable e)) = some (s.enable engine e ev) := by
    simp [Device.next, device, perform, call, he]
  have hsecond : ((device engine e).next (s.enable engine e ev) (.fire e ready)).isSome := by
    simp [Device.next, device, perform, event_enable he hd]
  rw [Lib.run_cons, hfirst, bind_some, Lib.run_cons]
  obtain ⟨t, ht⟩ := isSome_iff_exists.mp hsecond
  rw [ht]
  rfl

theorem reached_construct (engine : Engine) : Reached engine (construct {}) :=
  ⟨[.call .construct], fun _ hop => mem_singleton.mp hop ▸ trivial, rfl⟩

theorem spares_enable_fire (e : EventPtr) (ready : Kinds) :
    ∀ op ∈ [FdOp.call (.enable e), .fire e ready], op.Spares e := by
  intro op hop
  obtain rfl | hop := mem_cons.mp hop
  · trivial
  · obtain rfl := mem_singleton.mp hop
    trivial

theorem filterMap_enable_fire (e : EventPtr) (ready : Kinds) :
    [FdOp.call (.enable e), .fire e ready].filterMap (FdOp.concerns e) = [.enable, .fire ready] := by
  simp [FdOp.concerns]

theorem observe_enable_fire (h : kinds ≠ {}) : (asked fd kinds oneshot).observe [.enable, .fire kinds] =
      [(false, some (fd, kinds)), (true, if oneshot then none else some (fd, kinds))] := by
  cases oneshot <;> simp [Watch.observe, Watch.step, Watch.armed, asked, Kinds.meets_self h]

/-- **An event that is initialised again** is as good as new exactly if it has not been one-shot before, or is to be so
again, or is to wait for nothing. -/
theorem likeFresh_iff (h : Reached engine s) (he : s.event e = some ev) (hoff : ev.isEnabled = false) (hfd : 0 ≤ fd) :
    LikeFresh engine s e ev fd kinds oneshot ↔ (ev.isStopAfterTrigger = true → oneshot = true ∨ kinds = {}) := by
  constructor
  · intro hlike hstop
    by_contra hnot
    obtain ⟨hmode, hkinds⟩ := not_or.mp hnot
    have hmode := Bool.eq_false_of_not_eq_true hmode
    have hold : Shows e (s.initializeEvent e ev fd kinds oneshot) (asked fd kinds true) :=
      shows_initializeEvent h.tabled he hoff hfd (.inl (by rw [hstop]; rfl))
    have hnew : Shows 0 ((construct {}).initializeEvent 0 {} fd kinds oneshot) (asked fd kinds false) :=
      shows_initializeEvent (reached_construct engine).tabled event_construct_self rfl hfd (.inl (by rw [hmode]; rfl))
    have hsame := hlike (construct {}) 0 (reached_construct engine) event_construct_self
      [.call (.enable e), .fire e kinds] [.call (.enable 0), .fire 0 kinds] (spares_enable_fire e kinds)
      (spares_enable_fire 0 kinds) (hold.runs kinds) (hnew.runs kinds)
      ((filterMap_enable_fire e kinds).trans (filterMap_enable_fire 0 kinds).symm)
    rw [(follows_device engine e).observe_eq hold (spares_enable_fire e kinds) (hold.runs kinds),
      (follows_device engine 0).observe_eq hnew (spares_enable_fire 0 kinds) (hnew.runs kinds)] at hsame
    change Watch.observe _ (List.filterMap (FdOp.concerns e) _) =
      Watch.observe _ (List.filterMap (FdOp.concerns 0) _) at hsame
    rw [filterMap_enable_fire, filterMap_enable_fire, observe_enable_fire hkinds, observe_enable_fire hkinds] at hsame
    cases hsame
  · intro hmode u f hu hf
    have hflag : oneshot = (ev.isStopAfterTrigger || oneshot) ∨ kinds = {} := by
      by_cases hstop : ev.isStopAfterTrigger = true
      · refine (hmode hstop).imp_left fun honeshot => ?_
        rw [honeshot, Bool.or_true]
      · rw [Bool.eq_false_of_not_eq_true hstop, Bool.false_or]
        exact .inl rfl
    exact (follows_device engine e).alike (follows_device engine f) (shows_initializeEvent h.tabled he hoff hfd hflag)
      (shows_initializeEvent hu.tabled hf rfl hfd (.inl (Bool.false_or oneshot).symm))

end FdLoop

end Tbox.Event

namespace Tbox.Eventx

open Event (Engine FdLoop FdEvent EventPtr Kinds)

open Lib (Alike Device Watch WatchOp run)

variable {engine : Engine} {t t' : TimerFd} {ev : FdEvent} {loop : FdLoop} {first rep fd : Int} {created : Option Int}
  {ready : Kinds} {isRead oneshot : Bool} {x : Watch ItimerSpec (Kinds × Bool)}

def TimerOp.concerns : TimerOp → Option (WatchOp (Kinds × Bool))
  | .enable => some .enable
  | .disable => some .disable
  | .fire ready isRead => some (.fire (ready, isRead))
  | _ => none

def TimerOp.Spares : TimerOp → Prop
  | .initializeTimer _ _ _ | .cleanup => False
  | _ => True

/-- Descriptors are not negative. -/
def TimerOp.Legal : TimerOp → Prop
  | .initializeTimer _ _ created => ∀ fd, created = some fd → 0 ≤ fd
  | _ => True

namespace TimerFd

def device (engine : Engine) : Device TimerFd TimerOp ItimerSpec (Kinds × Bool) where
  step := perform engine
  armed t := if t.isEnabled then some t.setting else none
  concerns := TimerOp.concerns

structure Wired (t : TimerFd) : Prop where
  tabled : t.loop.Tabled
  event : ∃ ev, t.loop.event t.timerFdEvent = some ev ∧ ev.isStopAfterTrigger = false ∧
    ev.isEnabled = t.isEnabled ∧ (t.isInited = true → ev.events = { read := true } ∧ ∃ p, ev.d = some p)
  inited : t.isEnabled = true → t.isInited = true
  setting : t.isEnabled = true → t.setting = t.ts

theorem not_not_of_eq_true {b : Bool} (h : b = true) : ¬(!b) = true := by
  rw [h]
  decide

theorem Wired.enable_eq (h : t.Wired) (hinited : t.isInited = true) :
    (t.enable engine).Wired ∧ (t.enable engine).isEnabled = true ∧ (t.enable engine).isInited = true ∧
      (t.enable engine).ts = t.ts ∧ (t.enable engine).isStopAfterTrigger = t.isStopAfterTrigger := by
  obtain ⟨ev, he, hpersist, hon, hevent⟩ := h.event
  obtain ⟨hevents, p, hd⟩ := hevent hinited
  have hsome : ¬ev.d.isNone = true := by
    rw [hd]
    exact nofun
  rw [enable, if_neg (not_not_of_eq_true hinited)]
  by_cases henabled : t.isEnabled = true
  · rw [if_pos henabled]
    exact ⟨h, henabled, hinited, rfl, rfl⟩
  rw [if_neg henabled, he]
  dsimp only
  rw [if_neg hsome]
  refine ⟨⟨h.tabled.enable engine (FdLoop.event_eq_some.mp he), ⟨_, FdLoop.event_enable he hd, hpersist, rfl,
    fun _ => ⟨hevents, p, hd⟩⟩, fun _ => hinited, fun _ => rfl⟩, rfl, hinited, rfl, rfl⟩

theorem disable_of_disabled (hoff : t.isEnabled = false) : t.disable engine = t := by
  rw [disable]
  split_ifs with hnot henabled
  · rfl
  · rfl
  · rw [hoff] at henabled
    exact absurd rfl henabled

theorem Wired.disable_eq (h : t.Wired) : (t.disable engine).Wired ∧ (t.disable engine).isEnabled = false ∧
      (t.disable engine).isInited = t.isInited ∧ (t.disable engine).ts = t.ts ∧
      (t.disable engine).isStopAfterTrigger = t.isStopAfterTrigger := by
  obtain ⟨ev, he, hpersist, hon, hevent⟩ := h.event
  by_cases henabled : t.isEnabled = true
  · have hinited := h.inited henabled
    obtain ⟨hevents, p, hd⟩ := hevent hinited
    rw [disable, if_neg (not_not_of_eq_true hinited), if_neg (not_not_of_eq_true henabled), he]
    exact ⟨⟨h.tabled.disable engine (FdLoop.event_eq_some.mp he), ⟨_, FdLoop.event_disable he hd, hpersist, rfl,
      fun _ => ⟨hevents, p, hd⟩⟩, nofun, nofun⟩, rfl, rfl, rfl, rfl⟩
  · have hoff := Bool.eq_false_of_not_eq_true henabled
    rw [disable_of_disabled hoff]
    exact ⟨h, hoff, rfl, rfl, rfl⟩

theorem Wired.cleanup_eq (h : t.Wired) : (t.cleanup engine).Wired ∧ (t.cleanup engine).isEnabled = false ∧
      (t.cleanup engine).isStopAfterTrigger = t.isStopAfterTrigger := by
  rw [cleanup]
  by_cases hinited : t.isInited = true
  · obtain ⟨hwired, hoff, -, -, hstop⟩ : (t.disable engine).Wired ∧ _ := h.disable_eq
    rw [if_neg (not_not_of_eq_true hinited)]
    obtain ⟨ev, he, hpersist, hon, -⟩ := hwired.event
    refine ⟨⟨hwired.tabled, ⟨ev, he, hpersist, hon, nofun⟩, fun henabled => ?_, fun henabled => ?_⟩, hoff, hstop⟩
    · exact nomatch hoff.symm.trans henabled
    · exact nomatch hoff.symm.trans henabled
  · have hoff : t.isEnabled = false := Bool.eq_false_iff.mpr fun henabled => hinited (h.inited henabled)
    have hnot : (!t.isInited) = true := by
      rw [Bool.eq_false_of_not_eq_true hinited]
      rfl
    rw [if_pos hnot]
    exact ⟨h, hoff, rfl⟩

theorem Wired.initializeTimer_eq (h : t.Wired) (hfd : 0 ≤ fd) : (t.initializeTimer engine first rep (some fd)).Wired ∧
      (t.initializeTimer engine first rep (some fd)).isInited = true ∧
      (t.initializeTimer engine first rep (some fd)).isEnabled = false ∧
      (t.initializeTimer engine first rep (some fd)).ts = .ofNanosecs first rep ∧
      (t.initializeTimer engine first rep (some fd)).isStopAfterTrigger =
        (t.isStopAfterTrigger || decide (rep = 0)) := by
  obtain ⟨hwired, hoff, hstop⟩ : (t.cleanup engine).Wired ∧ _ := h.cleanup_eq
  obtain ⟨ev, he, hpersist, hon, -⟩ := hwired.event
  have hdisabled : ev.isEnabled = false := hon.trans hoff
  obtain ⟨p, hp⟩ : ∃ p, ((t.cleanup engine).loop.initializeEvent (t.cleanup engine).timerFdEvent ev fd
      { read := true } false).event (t.cleanup engine).timerFdEvent =
        some ⟨fd, { read := true }, false, ev.isStopAfterTrigger || false, some p⟩ :=
    FdLoop.event_initializeEvent hwired.tabled he hdisabled hfd
  have htabled := hwired.tabled.initializeEvent he hfd { read := true } false
  unfold initializeTimer
  dsimp only
  rw [he]
  refine ⟨⟨htabled, ⟨_, hp, ?_, hoff.symm, fun _ => ⟨rfl, p, rfl⟩⟩, fun _ => rfl, fun henabled => ?_⟩, rfl, hoff, rfl,
    ?_⟩
  · rw [hpersist]
    rfl
  · exact nomatch hoff.symm.trans henabled
  · rw [hstop]

theorem Wired.perform_fire (h : t.Wired) (hread : isRead = true → t.isInited = true) :
    t.perform engine (.fire ready isRead) = some (onEvent engine ready isRead t) := by
  obtain ⟨ev, he, hpersist, hon, hevent⟩ := h.event
  have hopen : ¬(isRead = true ∧ t.isInited = false) := by
    rintro ⟨hisRead, hclosed⟩
    exact nomatch hclosed.symm.trans (hread hisRead)
  have hpersist' : ¬ev.isStopAfterTrigger = true := by
    rw [hpersist]
    exact Bool.false_ne_true
  rw [perform, if_neg hopen, he, map_some, FdLoop.onEvent, if_neg hpersist']
  by_cases hmeets : ev.events.meets ready = true
  · rw [if_pos hmeets]
    rfl
  have hnot : ¬(ready.read && isRead) = true := by
    rw [Bool.and_eq_true]
    rintro ⟨hready, hisRead⟩
    apply hmeets
    rw [(hevent (hread hisRead)).1, Kinds.meets, hready]
    rfl
  rw [if_neg hmeets, onEvent, if_neg hnot]
  rfl

theorem Wired.onEvent_eq (h : t.Wired) : (onEvent engine ready isRead t).2.Wired := by
  rw [onEvent]
  split_ifs
  · exact h.disable_eq.1
  · exact h
  · exact h

theorem Wired.perform {op : TimerOp} {called : Bool} (h : t.Wired) (hlegal : op.Legal)
    (hstep : t.perform engine op = some (called, t')) : t'.Wired := by
  cases op with
  | initializeTimer first rep created =>
    obtain ⟨-, rfl⟩ := Prod.mk.inj (some.inj hstep)
    cases created with
    | none => exact h.cleanup_eq.1
    | some fd => exact (h.initializeTimer_eq (hlegal fd rfl)).1
  | cleanup =>
    obtain ⟨-, rfl⟩ := Prod.mk.inj (some.inj hstep)
    exact h.cleanup_eq.1
  | enable =>
    obtain ⟨-, rfl⟩ := Prod.mk.inj (some.inj hstep)
    by_cases hinited : t.isInited = true
    · exact (h.enable_eq hinited).1
    have hnot : (!t.isInited) = true := by
      rw [Bool.eq_false_of_not_eq_true hinited]
      rfl
    rw [enable, if_pos hnot]
    exact h
  | disable =>
    obtain ⟨-, rfl⟩ := Prod.mk.inj (some.inj hstep)
    exact h.disable_eq.1
  | fire ready isRead =>
    have hread : isRead = true → t.isInited = true := by
      intro hisRead
      by_contra hnot
      rw [TimerFd.perform, if_pos ⟨hisRead, Bool.eq_false_of_not_eq_true hnot⟩] at hstep
      cases hstep
    rw [h.perform_fire hread] at hstep
    obtain rfl := congrArg Prod.snd (some.inj hstep)
    exact h.onEvent_eq

/-- A timer with a history, on a loop with one. -/
def Reached (engine : Engine) (t : TimerFd) : Prop :=
  ∃ loop, FdLoop.Reached engine loop ∧ ∃ ops : List TimerOp, (∀ op ∈ ops, op.Legal) ∧
    run (fun t op => (TimerFd.perform engine t op).map Prod.snd) (construct loop) ops = some t

theorem wired_construct (h : loop.Tabled) : (construct loop).Wired :=
  ⟨h.construct, ⟨{}, FdLoop.event_construct_self, rfl, rfl, nofun⟩, nofun, nofun⟩

theorem Reached.wired (h : Reached engine t) : t.Wired := by
  obtain ⟨loop, hloop, ops, hlegal, hrun⟩ := h
  refine Lib.run_invariant (I := Wired) ?_ (wired_construct hloop.tabled) (Lib.along_of_forall_mem hlegal) hrun
  intro t op t' ht hop hstep
  obtain ⟨⟨called, u⟩, hperform, rfl⟩ := map_eq_some_iff.mp hstep
  exact ht.perform hop hperform

structure Shows (t : TimerFd) (x : Watch ItimerSpec (Kinds × Bool)) : Prop where
  wired : t.Wired
  inited : t.isInited = true
  subject : x.subject = t.ts
  due : x.due = fun seen => seen.1.read && seen.2
  oneshot : x.oneshot = t.isStopAfterTrigger
  enabled : x.isEnabled = t.isEnabled

theorem Shows.armed (h : Shows t x) : (device engine).armed t = x.armed := by
  change (if t.isEnabled then some t.setting else none) = if x.isEnabled then some x.subject else none
  rw [h.enabled, h.subject]
  by_cases henabled : t.isEnabled = true
  · rw [if_pos henabled, if_pos henabled, h.wired.setting henabled]
  · rw [if_neg henabled, if_neg henabled]

theorem Shows.disabled (h : Shows t x) : Shows (t.disable engine) { x with isEnabled := false } := by
  obtain ⟨hwired, hoff, hinited, hts, hstop⟩ : (t.disable engine).Wired ∧ _ := h.wired.disable_eq
  exact ⟨hwired, hinited.trans h.inited, h.subject.trans hts.symm, h.due, h.oneshot.trans hstop.symm, hoff.symm⟩

theorem follows_device (engine : Engine) : (device engine).Follows TimerOp.Spares Shows where
  armed _ _ h := h.armed
  step := by
    intro t x op called t' h hop hstep
    change t.perform engine op = some (called, t') at hstep
    change x.Meets (Shows t') called op.concerns
    cases op with
    | initializeTimer first rep created => exact hop.elim
    | cleanup => exact hop.elim
    | enable =>
      obtain ⟨rfl, rfl⟩ := Prod.mk.inj (some.inj hstep)
      obtain ⟨hwired, hon, hinited, hts, hstop⟩ : (t.enable engine).Wired ∧ _ := h.wired.enable_eq h.inited
      exact ⟨rfl, hwired, hinited, h.subject.trans hts.symm, h.due, h.oneshot.trans hstop.symm, hon.symm⟩
    | disable =>
      obtain ⟨rfl, rfl⟩ := Prod.mk.inj (some.inj hstep)
      exact ⟨rfl, h.disabled⟩
    | fire ready isRead =>
      rw [h.wired.perform_fire fun _ => h.inited] at hstep
      have hfired := some.inj hstep
      rw [onEvent] at hfired
      change called = (x.step (.fire (ready, isRead))).1 ∧ Shows t' (x.step (.fire (ready, isRead))).2
      by_cases hdue : (ready.read && isRead) = true
      · have hfires : x.step (.fire (ready, isRead)) =
            (true, { x with isEnabled := x.isEnabled && !x.oneshot }) :=
          if_pos ((congrFun h.due (ready, isRead)).trans hdue)
        rw [if_pos hdue] at hfired
        obtain ⟨rfl, rfl⟩ := Prod.mk.inj hfired
        rw [hfires]
        refine ⟨rfl, ?_⟩
        by_cases hstop : t.isStopAfterTrigger = true
        · have hoff : (x.isEnabled && !x.oneshot) = false := by
            rw [h.oneshot.trans hstop, Bool.not_true, Bool.and_false]
          rw [if_pos hstop, hoff]
          exact h.disabled
        · have hon : (x.isEnabled && !x.oneshot) = x.isEnabled := by
            rw [h.oneshot.trans (Bool.eq_false_of_not_eq_true hstop), Bool.not_false, Bool.and_true]
          rw [if_neg hstop, hon]
          exact h
      · have hquiet : x.step (.fire (ready, isRead)) = (false, x) :=
          if_neg ((congrFun h.due (ready, isRead)).symm ▸ hdue)
        rw [if_neg hdue] at hfired
        obtain ⟨rfl, rfl⟩ := Prod.mk.inj hfired
        rw [hquiet]
        exact ⟨rfl, h⟩

/-- Initialised again, the timer shows what a new one shows, on whatever loop, that is initialised like this. -/
def LikeFresh (engine : Engine) (t : TimerFd) (first rep fd : Int) : Prop :=
  ∀ loop fd', FdLoop.Reached engine loop → 0 ≤ fd' →
    Alike (device engine) TimerOp.Spares (t.initializeTimer engine first rep (some fd))
      (device engine) TimerOp.Spares ((construct loop).initializeTimer engine first rep (some fd'))

/-- The watch that the arguments ask for. -/
def asked (first rep : Int) (oneshot : Bool) : Watch ItimerSpec (Kinds × Bool) where
  subject := .ofNanosecs first rep
  due := fun seen => seen.1.read && seen.2
  oneshot := oneshot

theorem shows_initializeTimer (h : t.Wired) (hfd : 0 ≤ fd)
    (hmode : oneshot = (t.isStopAfterTrigger || decide (rep = 0))) :
    Shows (t.initializeTimer engine first rep (some fd)) (asked first rep oneshot) := by
  obtain ⟨hwired, hinited, hoff, hts, hstop⟩ :
    (t.initializeTimer engine first rep (some fd)).Wired ∧ _ := h.initializeTimer_eq hfd
  exact ⟨hwired, hinited, hts.symm, rfl, hmode.trans hstop.symm, hoff.symm⟩

theorem Shows.runs (h : Shows t x) : (run (device engine).next t [.enable, .fire { read := true } true]).isSome := by
  obtain ⟨hwired, -, hinited, -⟩ : (t.enable engine).Wired ∧ _ := h.wired.enable_eq h.inited
  have hfirst : (device engine).next t .enable = some (t.enable engine) := rfl
  have hsecond : (device engine).next (t.enable engine) (.fire { read := true } true) =
      some (onEvent engine { read := true } true (t.enable engine)).2 := by
    change ((t.enable engine).perform engine (.fire { read := true } true)).map Prod.snd = _
    rw [hwired.perform_fire fun _ => hinited]
    rfl
  rw [Lib.run_cons, hfirst, bind_some, Lib.run_cons, hsecond]
  rfl

theorem spares_enable_fire : ∀ op ∈ [TimerOp.enable, .fire { read := true } true], op.Spares := by
  intro op hop
  obtain rfl | hop := mem_cons.mp hop
  · trivial
  · obtain rfl := mem_singleton.mp hop
    trivial

theorem observe_enable_fire : (asked first rep oneshot).observe [.enable, .fire ({ read := true }, true)] =
      [(false, some (.ofNanosecs first rep)), (true, if oneshot then none else some (.ofNanosecs first rep))] := by
  cases oneshot <;> rfl

/-- **A timer that is initialised again** is as good as new exactly if it has not been one-shot before, or is to be so
again. -/
theorem likeFresh_iff (h : Reached engine t) (hfd : 0 ≤ fd) :
    LikeFresh engine t first rep fd ↔ (t.isStopAfterTrigger = true → rep = 0) := by
  constructor
  · intro hlike hstop
    by_contra hrep
    have hold : Shows (t.initializeTimer engine first rep (some fd)) (asked first rep true) :=
      shows_initializeTimer h.wired hfd (by rw [hstop, Bool.true_or])
    have hnew : Shows ((construct (FdLoop.construct {})).initializeTimer engine first rep (some fd))
        (asked first rep false) :=
      shows_initializeTimer (wired_construct (FdLoop.reached_construct engine).tabled) hfd
        (by rw [decide_eq_false hrep]; rfl)
    have hsame := hlike _ fd (FdLoop.reached_construct engine) hfd _ _ spares_enable_fire spares_enable_fire hold.runs
      hnew.runs rfl
    rw [(follows_device engine).observe_eq hold spares_enable_fire hold.runs,
      (follows_device engine).observe_eq hnew spares_enable_fire hnew.runs] at hsame
    change (asked first rep true).observe [.enable, .fire ({ read := true }, true)] =
      (asked first rep false).observe [.enable, .fire ({ read := true }, true)] at hsame
    rw [observe_enable_fire, observe_enable_fire] at hsame
    cases hsame
  · intro hmode loop fd' hloop hfd'
    have hflag : decide (rep = 0) = (t.isStopAfterTrigger || decide (rep = 0)) := by
      by_cases hstop : t.isStopAfterTrigger = true
      · rw [decide_eq_true (hmode hstop), Bool.or_true]
      · rw [Bool.eq_false_of_not_eq_true hstop, Bool.false_or]
    exact (follows_device engine).alike (follows_device engine) (shows_initializeTimer h.wired hfd hflag)
      (shows_initializeTimer (wired_construct hloop.tabled) hfd' (Bool.false_or _).symm)

end TimerFd

/-- **Re-initialisation**: an event is as good as new exactly if it was not one-shot before, or is again, or waits for
nothing, and a timer exactly if it was not one-shot before, or is again. -/
theorem reinitialised_likeFresh_iff (engine : Engine) :
    (∀ s e ev fd kinds oneshot, FdLoop.Reached engine s → s.event e = some ev → ev.isEnabled = false → 0 ≤ fd →
      (FdLoop.LikeFresh engine s e ev fd kinds oneshot ↔
        (ev.isStopAfterTrigger = true → oneshot = true ∨ kinds = {}))) ∧
      ∀ t first rep fd, TimerFd.Reached engine t → 0 ≤ fd →
        (TimerFd.LikeFresh engine t first rep fd ↔ (t.isStopAfterTrigger = true → rep = 0)) :=
  ⟨fun _ _ _ _ _ _ hs he hoff hfd => FdLoop.likeFresh_iff hs he hoff hfd, fun _ _ _ _ ht hfd =>
    TimerFd.likeFresh_iff ht hfd⟩

/-- An event for descriptor 5 that has been made one-shot. -/
def oneshotEvent : FdEvent where
  fd := 5
  events := { read := true }
  isStopAfterTrigger := true
  d := some 0

def oneshotLoop : FdLoop := (FdLoop.construct {}).initializeEvent 0 {} 5 { read := true } true

theorem event_oneshotLoop : oneshotLoop.event 0 = some oneshotEvent := rfl

theorem reached_oneshotLoop (engine : Engine) : FdLoop.Reached engine oneshotLoop := by
  refine ⟨[.call .construct, .call (.initializeEvent 0 5 { read := true } true)], ?_, rfl⟩
  intro op hop
  obtain rfl | hop := mem_cons.mp hop
  · trivial
  · obtain rfl := mem_singleton.mp hop
    exact show (0 : Int) ≤ 5 by decide

def oneshotTimer (engine : Engine) : TimerFd := (TimerFd.construct {}).initializeTimer engine 1000 0 (some 5)

theorem reached_oneshotTimer (engine : Engine) : TimerFd.Reached engine (oneshotTimer engine) := by
  refine ⟨{}, ⟨[], nofun, rfl⟩, [.initializeTimer 1000 0 (some 5)], ?_, rfl⟩
  intro op hop
  obtain rfl := mem_singleton.mp hop
  exact fun fd hfd => some.inj hfd ▸ (show (0 : Int) ≤ 5 by decide)

theorem oneshot_madePersistent (engine : Engine) :
    (FdLoop.Reached engine oneshotLoop ∧ oneshotLoop.event 0 = some oneshotEvent ∧
      ¬FdLoop.LikeFresh engine oneshotLoop 0 oneshotEvent 5 { read := true } false) ∧
      TimerFd.Reached engine (oneshotTimer engine) ∧ ¬TimerFd.LikeFresh engine (oneshotTimer engine) 1000 1000 5 := by
  refine ⟨⟨reached_oneshotLoop engine, event_oneshotLoop, ?_⟩, reached_oneshotTimer engine, ?_⟩
  · rw [FdLoop.likeFresh_iff (reached_oneshotLoop engine) event_oneshotLoop rfl (by decide)]
    decide
  rw [TimerFd.likeFresh_iff (reached_oneshotTimer engine) (by decide)]
  intro h
  have hstop : (oneshotTimer engine).isStopAfterTrigger = true := rfl
  exact absurd (h hstop) (by decide)

/-- The event stays one-shot in both engines, and so does the timer. -/
theorem madePersistent_notLikeFresh :
    (¬FdLoop.LikeFresh .epoll oneshotLoop 0 oneshotEvent 5 { read := true } false ∧
      ¬FdLoop.LikeFresh .select oneshotLoop 0 oneshotEvent 5 { read := true } false) ∧
      ¬TimerFd.LikeFresh .epoll (oneshotTimer .epoll) 1000 1000 5 :=
  ⟨⟨(oneshot_madePersistent .epoll).1.2.2, (oneshot_madePersistent .select).1.2.2⟩, (oneshot_madePersistent .epoll).2.2⟩

/-- One-shot again, both are as good as new. -/
theorem oneshot_madeOneshot :
    FdLoop.LikeFresh .epoll oneshotLoop 0 oneshotEvent 5 { read := true } true ∧
      TimerFd.LikeFresh .epoll (oneshotTimer .epoll) 1000 0 5 :=
  ⟨((reinitialised_likeFresh_iff .epoll).1 oneshotLoop 0 oneshotEvent 5 { read := true } true
      (reached_oneshotLoop .epoll) event_oneshotLoop rfl (by decide)).mpr fun _ => .inl rfl,
    ((reinitialised_likeFresh_iff .epoll).2 (oneshotTimer .epoll) 1000 0 5 (reached_oneshotTimer .epoll)
      (by decide)).mpr fun _ => rfl⟩

end Tbox.Eventx
