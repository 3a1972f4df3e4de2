import Tbox.Eventx.TimerPool

/-!
# A timer ends by itself or through its own token

The cabinet holds exactly the pending timers, each under its own token, as long as nobody uses a token that another
timer has been given since. `clear` makes the ids begin again.
-/

open List Option

namespace Tbox.Eventx.TimerPool

open Cabinet (Token)

open Lib (run Along)

open Function (update_self update_of_ne update)

/-- Timers live as long as their owners think. -/
structure Isolated (p : TimerPool) : Prop where
  once : ∀ (k : TimerId) (event : PoolTimer), p.events[k]? = some event → event.oneshot = true → event.fired ≤ 1
  /-- a pending timer is going to fire, unless it is a one-shot whose callback runs -/
  lives : ∀ (k : TimerId) (event : PoolTimer), p.events[k]? = some event → event.pending = true →
    event.isEnabled = true ∨ event.oneshot = true ∧ p.firing = some k
  ends : ∀ (k : TimerId) (event : PoolTimer), p.events[k]? = some event → event.pending = false →
    event.isEnabled = false
  told : ∀ answer ∈ p.answers, answer.1 = answer.2

def Unshared (p : TimerPool) (timer : Option TimerId) : Prop :=
  ∀ (k : TimerId) (event : PoolTimer), p.events[k]? = some event → event.pending = true →
    event.token = p.tokenOf timer → timer = some k

/-- Neither `cancel` nor the end of a one-shot's callback comes with the token of another timer. -/
def OwnTokens (p : TimerPool) : Action → Prop
  | .cancel timer => p.Unshared timer
  | .returned => p.Unshared p.firing
  | _ => True

structure Kept (p : TimerPool) : Prop where
  stored : ∀ token obj, p.timers.view token = some obj →
    ∃ k, ∃ event : PoolTimer, obj = some k ∧ p.events[k]? = some event ∧ event.token = token ∧
      event.pending = true
  held : ∀ (k : TimerId) (event : PoolTimer), p.events[k]? = some event → event.pending = true →
    p.timers.view event.token = some (some k)
  once : ∀ (k : TimerId) (event : PoolTimer), p.events[k]? = some event → event.oneshot = true →
    event.fired = 0 ∨ event.fired = 1 ∧ event.isEnabled = false
  lives : ∀ (k : TimerId) (event : PoolTimer), p.events[k]? = some event → event.pending = true →
    event.isEnabled = true ∨ event.oneshot = true ∧ p.firing = some k
  ends : ∀ (k : TimerId) (event : PoolTimer), p.events[k]? = some event → event.pending = false →
    event.isEnabled = false
  bound : ∀ k, p.firing = some k → k < p.events.length
  running : ∀ (k : TimerId) (event : PoolTimer), p.firing = some k → p.events[k]? = some event →
    event.oneshot = true → event.isEnabled = false
  deferred : ∀ k, some k ∈ p.deferred → ∃ event : PoolTimer, p.events[k]? = some event ∧
    event.pending = false
  told : ∀ answer ∈ p.answers, answer.1 = answer.2

variable {p q : TimerPool} {k : TimerId} {event : PoolTimer} {token : Token}

theorem Kept.isolated (h : p.Kept) : p.Isolated := by
  refine ⟨fun k event hevent honeshot => ?_, h.lives, h.ends, h.told⟩
  rcases h.once k event hevent honeshot with hfired | ⟨hfired, -⟩ <;> omega

@[simp]
theorem events_modify (p : TimerPool) (timer : Option TimerId) (f : PoolTimer → PoolTimer)
    (j : TimerId) : (p.modify timer f).events[j]?
      = (p.events[j]?).map fun event => if timer = some j then f event else event := by
  cases timer with
  | none => simp [modify]
  | some timer =>
    simp only [modify, List.getElem?_modify, some.injEq]
    rfl

theorem modify_frame (p : TimerPool) (timer : Option TimerId) (f : PoolTimer → PoolTimer) :
    (p.modify timer f).timers = p.timers ∧ (p.modify timer f).deferred = p.deferred ∧
      (p.modify timer f).firing = p.firing ∧ (p.modify timer f).answers = p.answers ∧
      (p.modify timer f).loopIsRunning = p.loopIsRunning := by
  cases timer <;> exact ⟨rfl, rfl, rfl, rfl, rfl⟩

theorem discard_spec (p : TimerPool) (timer : Option TimerId) :
    ((p.disable timer).runDelete timer).timers = p.timers ∧ ((p.disable timer).runDelete timer).firing = p.firing ∧
      ((p.disable timer).runDelete timer).answers = p.answers ∧
      (∀ j, some j ∈ ((p.disable timer).runDelete timer).deferred → some j ∈ p.deferred ∨ timer = some j) ∧
      ∀ j, ∃ deleted : PoolTimer → Bool, ((p.disable timer).runDelete timer).events[j]?
        = (p.events[j]?).map fun event =>
          if timer = some j then { event with isEnabled := false, deleted := deleted event }
          else event := by
  obtain ⟨htimers, hdeferred, hfiring, hanswers, hrunning⟩ :=
    p.modify_frame timer fun event => { event with isEnabled := false }
  rw [disable, runDelete, hrunning]
  split
  · refine ⟨htimers, hfiring, hanswers, fun j hj => ?_, fun j => ⟨PoolTimer.deleted, ?_⟩⟩
    · rcases mem_append.mp hj with hj | hj
      · exact .inl (hdeferred ▸ hj)
      · exact .inr (mem_singleton.mp hj).symm
    · exact p.events_modify timer _ j
  · obtain ⟨htimers', hdeferred', hfiring', hanswers', -⟩ :=
      (p.modify timer fun event => { event with isEnabled := false }).modify_frame timer
        fun event => { event with isEnabled := false, deleted := true }
    rw [delete]
    refine ⟨htimers'.trans htimers, hfiring'.trans hfiring, hanswers'.trans hanswers,
      fun j hj => .inl (hdeferred ▸ hdeferred' ▸ hj), fun j => ⟨fun _ => true, ?_⟩⟩
    rw [events_modify, events_modify, Option.map_map]
    congr 1
    funext event
    by_cases hj : timer = some j
    · simp only [Function.comp_apply, if_pos hj]
    · simp only [Function.comp_apply, if_neg hj]

theorem Kept.of_change (h : p.Kept) (hback : ∀ (j : TimerId) (after : PoolTimer), q.events[j]? = some after →
      ∃ event, p.events[j]? = some event ∧ after.oneshot = event.oneshot ∧
        after.fired = event.fired ∧ (after.pending = true → after = event) ∧
        (after.isEnabled = true → event.isEnabled = true) ∧ (after.pending = false → after.isEnabled = false))
    (hview : ∀ token obj, q.timers.view token = some obj → p.timers.view token = some obj)
    (hkeep : ∀ (j : TimerId) (event : PoolTimer), p.events[j]? = some event → event.pending = true →
      q.events[j]? = some event ∧ q.timers.view event.token = p.timers.view event.token ∨
        q.timers.view event.token = none ∧ ∀ after : PoolTimer, q.events[j]? = some after → after.pending = false)
    (hfiring : ∀ (j : TimerId) (event : PoolTimer), q.events[j]? = some event → event.pending = true →
      event.oneshot = true → p.firing = some j → q.firing = some j)
    (hrunning : ∀ j, q.firing = some j → p.firing = some j) (hlength : q.events.length = p.events.length)
    (hdeferred : ∀ j, some j ∈ q.deferred → some j ∈ p.deferred ∨
      ∃ event : PoolTimer, q.events[j]? = some event ∧ event.pending = false)
    (htold : ∀ answer ∈ q.answers, answer.1 = answer.2) : q.Kept := by
  have hsame : ∀ (j : TimerId) (after : PoolTimer), q.events[j]? = some after → after.pending = true →
      p.events[j]? = some after := by
    intro j after hafter hpending
    obtain ⟨event, hevent, -, -, heq, -⟩ := hback j after hafter
    exact heq hpending ▸ hevent
  refine ⟨?_, ?_, ?_, ?_, ?_, fun k hfire => hlength ▸ h.bound k (hrunning k hfire), ?_, ?_, htold⟩
  · intro token obj hobj
    obtain ⟨k, event, rfl, hevent, htoken, hpending⟩ := h.stored token obj (hview token obj hobj)
    rcases hkeep k event hevent hpending with ⟨hevent', -⟩ | ⟨hnone, -⟩
    · exact ⟨k, event, rfl, hevent', htoken, hpending⟩
    · rw [htoken, hobj] at hnone
      cases hnone
  · intro k event hevent hpending
    have hbefore := hsame k event hevent hpending
    rcases hkeep k event hbefore hpending with ⟨-, hview'⟩ | ⟨-, hended⟩
    · rw [hview']
      exact h.held k event hbefore hpending
    · rw [hended event hevent] at hpending
      cases hpending
  · intro k after hafter honeshot
    obtain ⟨event, hevent, honeshot', hfired, -, hdisabled, -⟩ := hback k after hafter
    rcases h.once k event hevent (honeshot' ▸ honeshot) with hzero | ⟨hone, hoff⟩
    · exact .inl (hfired.trans hzero)
    refine .inr ⟨hfired.trans hone, ?_⟩
    rw [Bool.eq_false_iff]
    intro hon
    rw [hdisabled hon] at hoff
    cases hoff
  · intro k event hevent hpending
    rcases h.lives k event (hsame k event hevent hpending) hpending with hon | ⟨honeshot, hfire⟩
    · exact .inl hon
    · exact .inr ⟨honeshot, hfiring k event hevent hpending honeshot hfire⟩
  · intro k after hafter hended
    obtain ⟨event, -, -, -, -, -, hoff⟩ := hback k after hafter
    exact hoff hended
  · intro k after hfire hafter honeshot
    obtain ⟨event, hevent, honeshot', -, -, hdisabled, -⟩ := hback k after hafter
    have hoff := h.running k event (hrunning k hfire) hevent (honeshot' ▸ honeshot)
    rw [Bool.eq_false_iff]
    intro hon
    rw [hdisabled hon] at hoff
    cases hoff
  · intro k hdefer
    rcases hdeferred k hdefer with hdefer | hended
    · obtain ⟨event, hevent, hended⟩ := h.deferred k hdefer
      have hlt : k < q.events.length := hlength ▸ (List.getElem?_eq_some_iff.mp hevent).1
      have hafter := getElem?_eq_getElem hlt
      refine ⟨_, hafter, Bool.eq_false_iff.mpr fun hpending => ?_⟩
      cases hevent.symm.trans (hsame k _ hafter hpending)
      rw [hpending] at hended
      cases hended
    · exact hended

theorem tokenOf_some (h : p.events[k]? = some event) : p.tokenOf (some k) = event.token := by
  rw [tokenOf, bind_some, h]
  rfl

theorem isPending_some (h : p.events[k]? = some event) : p.isPending (some k) = event.pending := by
  rw [isPending, bind_some, h]
  rfl

variable {timer : Option TimerId}

theorem Kept.settled (h : p.Kept) (hown : p.Unshared timer)
    (hview : q.timers.view = update p.timers.view (p.tokenOf timer) none) (hevents : ∀ j, ∃ g : PoolTimer → PoolTimer,
      (∀ event, (g event).oneshot = event.oneshot ∧ (g event).fired = event.fired ∧ (g event).pending = false) ∧
      (∀ event, p.events[j]? = some event → timer = some j → (g event).isEnabled = false) ∧
      q.events[j]? = (p.events[j]?).map fun event => if timer = some j then g event else event)
    (hlength : q.events.length = p.events.length)
    (hfiring : ∀ j, timer ≠ some j → p.firing = some j → q.firing = some j)
    (hrunning : ∀ j, q.firing = some j → p.firing = some j)
    (hdeferred : ∀ j, some j ∈ q.deferred → some j ∈ p.deferred ∨ timer = some j ∧ j < p.events.length)
    (htold : ∀ answer ∈ q.answers, answer.1 = answer.2) : q.Kept := by
  have hended : ∀ (j : TimerId) (after : PoolTimer), q.events[j]? = some after → timer = some j →
      after.pending = false := by
    intro j after hafter htimer
    obtain ⟨g, hg, -, heq⟩ := hevents j
    rw [heq, map_eq_some_iff] at hafter
    obtain ⟨event, -, rfl⟩ := hafter
    rw [if_pos htimer]
    exact (hg event).2.2
  refine h.of_change ?_ ?_ ?_ ?_ hrunning hlength ?_ htold
  · intro j after hafter
    obtain ⟨g, hg, hoff, heq⟩ := hevents j
    rw [heq, map_eq_some_iff] at hafter
    obtain ⟨event, hevent, rfl⟩ := hafter
    refine ⟨event, hevent, ?_⟩
    by_cases htimer : timer = some j
    · rw [if_pos htimer, (hg event).1, (hg event).2.1, (hg event).2.2, hoff event hevent htimer]
      exact ⟨rfl, rfl, nofun, nofun, fun _ => rfl⟩
    · rw [if_neg htimer]
      exact ⟨rfl, rfl, fun _ => rfl, fun hon => hon, h.ends j event hevent⟩
  · intro token obj hobj
    rw [hview] at hobj
    by_cases htoken : token = p.tokenOf timer
    · rw [htoken, update_self] at hobj
      cases hobj
    · rwa [update_of_ne htoken] at hobj
  · intro j event hevent hpending
    obtain ⟨g, hg, -, heq⟩ := hevents j
    by_cases htimer : timer = some j
    · refine .inr ⟨?_, fun after hafter => hended j after hafter htimer⟩
      rw [hview, htimer, tokenOf_some hevent, update_self]
    have hne : event.token ≠ p.tokenOf timer := fun htoken => htimer (hown j event hevent hpending htoken)
    refine .inl ⟨?_, ?_⟩
    · rw [heq, hevent, map_some, if_neg htimer]
    · rw [hview, update_of_ne hne]
  · intro j event hevent hpending _ hfire
    refine hfiring j (fun htimer => ?_) hfire
    rw [hended j event hevent htimer] at hpending
    cases hpending
  · intro j hdefer
    rcases hdeferred j hdefer with hdefer | ⟨htimer, hlt⟩
    · exact .inl hdefer
    · have hafter := getElem?_eq_getElem (hlength.symm ▸ hlt)
      exact .inr ⟨_, hafter, hended j _ hafter htimer⟩

theorem Kept.start (h : p.Kept) (oneshot : Bool) : (p.start oneshot).2.Kept := by
  have hview := p.timers.view_alloc (some p.events.length)
  have hfresh := p.timers.view_alloc_fst (some p.events.length)
  rw [TimerPool.start]
  generalize p.timers.alloc (some p.events.length) = allocated at hview hfresh
  obtain ⟨token, timers⟩ := allocated
  have hlast : (p.events ++ [({ oneshot := oneshot, token := token } : PoolTimer)])[p.events.length]?
      = some { oneshot := oneshot, token := token } := getElem?_concat_length
  have hcases : ∀ (k : TimerId) (event : PoolTimer),
      (p.events ++ [({ oneshot := oneshot, token := token } : PoolTimer)])[k]? = some event →
        p.events[k]? = some event ∨ k = p.events.length ∧ event = { oneshot := oneshot, token := token } := by
    intro k event hevent
    by_cases hk : k < p.events.length
    · rw [getElem?_append_left hk] at hevent
      exact .inl hevent
    rw [getElem?_append_right (Nat.not_lt.mp hk), List.getElem?_singleton] at hevent
    split at hevent
    · next hzero =>
        have hk' : k = p.events.length := Nat.le_antisymm (Nat.sub_eq_zero_iff_le.mp hzero) (Nat.not_lt.mp hk)
        exact .inr ⟨hk', (some.inj hevent).symm⟩
    · cases hevent
  have hkept : ∀ (k : TimerId) (event : PoolTimer), p.events[k]? = some event →
      (p.events ++ [({ oneshot := oneshot, token := token } : PoolTimer)])[k]? = some event := by
    intro k event hevent
    rw [getElem?_append_left (List.getElem?_eq_some_iff.mp hevent).1]
    exact hevent
  refine ⟨?_, ?_, ?_, ?_, ?_, fun k hfire => ?_, ?_, ?_, h.told⟩
  · intro other obj hobj
    change timers.view other = some obj at hobj
    by_cases hother : other = token
    · rw [hview, hother, update_self] at hobj
      exact ⟨_, _, (some.inj hobj).symm, hlast, hother.symm, rfl⟩
    · rw [hview, update_of_ne hother] at hobj
      obtain ⟨k, event, rfl, hevent, htoken, hpending⟩ := h.stored other obj hobj
      exact ⟨k, event, rfl, hkept k event hevent, htoken, hpending⟩
  · intro k event hevent hpending
    change timers.view event.token = some (some k)
    rcases hcases k event hevent with hevent | ⟨rfl, rfl⟩
    · have hheld := h.held k event hevent hpending
      have hne : event.token ≠ token := by
        intro heq
        rw [heq, hfresh] at hheld
        cases hheld
      rw [hview, update_of_ne hne, hheld]
    · rw [hview, update_self]
  · intro k event hevent honeshot
    rcases hcases k event hevent with hevent | ⟨rfl, rfl⟩
    · exact h.once k event hevent honeshot
    · exact .inl rfl
  · intro k event hevent hpending
    rcases hcases k event hevent with hevent | ⟨rfl, rfl⟩
    · exact h.lives k event hevent hpending
    · exact .inl rfl
  · intro k event hevent hended
    rcases hcases k event hevent with hevent | ⟨rfl, rfl⟩
    · exact h.ends k event hevent hended
    · cases hended
  · rw [length_append]
    exact Nat.lt_add_right 1 (h.bound k hfire)
  · intro k event hfire hevent honeshot
    rcases hcases k event hevent with hevent | ⟨rfl, rfl⟩
    · exact h.running k event hfire hevent honeshot
    · exact absurd (h.bound _ hfire) (Nat.lt_irrefl _)
  · intro k hdefer
    obtain ⟨event, hevent, hended⟩ := h.deferred k hdefer
    exact ⟨event, hkept k event hevent, hended⟩

theorem Kept.free_cases (h : p.Kept) (hown : p.Unshared timer) :
    (p.timers.free (p.tokenOf timer)).1 = none ∧ p.isPending timer = false ∧
        (∀ j (event : PoolTimer), p.events[j]? = some event → timer = some j → event.isEnabled = false) ∨
      ∃ k, timer = some k ∧ (p.timers.free (p.tokenOf timer)).1 = some k ∧
        p.isPending timer = true ∧ k < p.events.length := by
  rw [Cabinet.free_fst, Cabinet.at?_eq_join_view]
  cases hview : p.timers.view (p.tokenOf timer) with
  | none =>
    have hended : ∀ j (event : PoolTimer), p.events[j]? = some event → timer = some j →
        event.pending = false := by
      rintro j event hevent rfl
      rw [tokenOf_some hevent] at hview
      rw [Bool.eq_false_iff]
      intro hpending
      rw [h.held j event hevent hpending] at hview
      cases hview
    refine .inl ⟨rfl, ?_, fun j event hevent htimer => h.ends j event hevent (hended j event hevent htimer)⟩
    cases timer with
    | none => rfl
    | some k =>
      cases hevent : p.events[k]? with
      | none =>
        rw [isPending, bind_some, hevent]
        rfl
      | some event => rw [isPending_some hevent, hended k event hevent rfl]
  | some obj =>
    obtain ⟨k, event, rfl, hevent, htoken, hpending⟩ := h.stored _ _ hview
    obtain rfl := hown k event hevent hpending htoken
    exact .inr ⟨k, rfl, rfl, (isPending_some hevent).trans hpending, (List.getElem?_eq_some_iff.mp hevent).1⟩

theorem length_modify (p : TimerPool) (timer : Option TimerId) (f : PoolTimer → PoolTimer) :
    (p.modify timer f).events.length = p.events.length := by
  cases timer with
  | none => rfl
  | some timer => exact List.length_modify _ _ _

theorem length_discard (p : TimerPool) (timer : Option TimerId) :
    ((p.disable timer).runDelete timer).events.length = p.events.length := by
  rw [runDelete]
  split
  · exact length_modify _ _ _
  · exact (length_modify _ _ _).trans (length_modify _ _ _)

theorem told_append (h : p.Kept) {answer : Bool × Bool} (hanswer : answer.1 = answer.2) :
    ∀ other ∈ p.answers ++ [answer], other.1 = other.2 := by
  intro other hother
  rcases mem_append.mp hother with hother | hother
  · exact h.told other hother
  · rw [mem_singleton.mp hother]
    exact hanswer

theorem cancel_of_none (h : (p.timers.free token).1 = none) :
    p.cancel token = (false, { p with timers := (p.timers.free token).2 }) := by
  rw [TimerPool.cancel]
  generalize p.timers.free token = freed at h
  obtain ⟨obj, timers⟩ := freed
  obtain rfl : obj = none := h
  rfl

theorem cancel_of_some (h : (p.timers.free token).1 = some k) :
    p.cancel token = (true, ({ p with timers := (p.timers.free token).2 }.disable (some k)).runDelete
      (some k)) := by
  rw [TimerPool.cancel]
  generalize p.timers.free token = freed at h
  obtain ⟨obj, timers⟩ := freed
  obtain rfl : obj = some k := h
  rfl

theorem step_cancel (timer : Option TimerId) : p.step (.cancel timer) =
    some { (p.cancel (p.tokenOf timer)).2.settle timer with
      answers := p.answers ++ [((p.cancel (p.tokenOf timer)).1, p.isPending timer)] } := rfl

theorem Kept.cancel (h : p.Kept) (hown : p.Unshared timer)
    (hstep : p.step (.cancel timer) = some q) : q.Kept := by
  rw [step_cancel] at hstep
  have hview := p.timers.view_free (p.tokenOf timer)
  rcases h.free_cases hown with ⟨hnone, hpending, hoff⟩ | ⟨k, htimer, hsome, hpending, hlt⟩
  · rw [cancel_of_none hnone] at hstep
    cases hstep
    obtain ⟨htimers, hdeferred, hfiring, -⟩ :=
      ({ p with timers := (p.timers.free (p.tokenOf timer)).2 } : TimerPool).modify_frame timer
        fun event => { event with pending := false }
    refine h.settled hown ((congrArg Cabinet.view htimers).trans hview) (fun j => ?_)
      (length_modify _ _ _) (fun j _ hj => hfiring.trans hj)
      (fun j hj => hfiring.symm.trans hj) (fun j hj => ?_)
      (told_append h hpending.symm)
    · refine ⟨fun event => { event with pending := false }, fun _ => ⟨rfl, rfl, rfl⟩,
        fun event hevent htimer => hoff j event hevent htimer, ?_⟩
      exact events_modify _ _ _ _
    · exact .inl (Eq.mp (congrArg (some j ∈ ·) hdeferred) hj)
  · rw [cancel_of_some hsome] at hstep
    cases hstep
    obtain ⟨htimers, hfiring, -, hdeferred, hevents⟩ :=
      ({ p with timers := (p.timers.free (p.tokenOf timer)).2 } : TimerPool).discard_spec (some k)
    have hlength := ({ p with timers := (p.timers.free (p.tokenOf timer)).2 } : TimerPool).length_discard (some k)
    generalize (({ p with timers := (p.timers.free (p.tokenOf timer)).2 } : TimerPool).disable
      (some k)).runDelete (some k) = discarded at htimers hfiring hdeferred hevents hlength
    obtain ⟨htimers', hdeferred', hfiring', -⟩ := discarded.modify_frame timer
      fun event => { event with pending := false }
    refine h.settled hown ?_ (fun j => ?_) ((length_modify _ _ _).trans hlength)
      (fun j _ hj => (hfiring'.trans hfiring).trans hj)
      (fun j hj => (hfiring'.trans hfiring).symm.trans hj) (fun j hj => ?_)
      (told_append h hpending.symm)
    · rw [← hview]
      exact congrArg Cabinet.view (htimers'.trans htimers)
    · obtain ⟨deleted, hj⟩ := hevents j
      refine ⟨fun event =>
        { event with isEnabled := false, deleted := deleted event, pending := false },
        fun _ => ⟨rfl, rfl, rfl⟩, fun _ _ _ => rfl, ?_⟩
      refine (events_modify discarded timer _ j).trans ?_
      rw [hj, Option.map_map, ← htimer]
      congr 1
      funext event
      by_cases htimer : timer = some j
      · simp only [Function.comp_apply, if_pos htimer]
      · simp only [Function.comp_apply, if_neg htimer]
    · rcases hdeferred j (Eq.mp (congrArg (some j ∈ ·) hdeferred') hj) with hj | hj
      · exact .inl hj
      · cases hj
        exact .inr ⟨htimer, hlt⟩

theorem Kept.returned (h : p.Kept) (hown : p.Unshared p.firing) (hstep : p.step .returned = some q) : q.Kept := by
  simp only [TimerPool.step] at hstep
  split at hstep
  · cases hstep
  next k hfire =>
    split at hstep
    · cases hstep
    next event hevent =>
      cases hstep
      rw [hfire] at hown
      have hview := p.timers.view_free event.token
      split
      · next honeshot =>
          have htoken := tokenOf_some hevent
          obtain ⟨htimers, hdeferred, hfiring, hanswers, -⟩ :=
            (({ p with firing := none } : TimerPool).release event.token).modify_frame (some k)
              fun event => { event with pending := false }
          refine h.settled hown ?_ (fun j => ?_) (length_modify _ _ _)
            (fun j hne hj => absurd (hfire.symm.trans hj) hne) (fun j hj => ?_) (fun j hj => ?_)
            fun answer hanswer => h.told answer (Eq.mp (congrArg (answer ∈ ·) hanswers) hanswer)
          · rw [htoken, ← hview]
            exact congrArg Cabinet.view htimers
          · refine ⟨fun event => { event with pending := false }, fun _ => ⟨rfl, rfl, rfl⟩, ?_, ?_⟩
            · intro other hother hj
              cases hj
              cases hevent.symm.trans hother
              exact h.running k event hfire hevent honeshot
            · exact events_modify _ _ _ _
          · cases hfiring.symm.trans hj
          have hmem : some j ∈ p.deferred ++ [(p.timers.free event.token).1] :=
            Eq.mp (congrArg (some j ∈ ·) hdeferred) hj
          rcases mem_append.mp hmem with hmem | hmem
          · exact .inl hmem
          rw [mem_singleton, ← htoken] at hmem
          rcases h.free_cases hown with ⟨hnone, -⟩ | ⟨i, hi, hsome, -, hlt⟩
          · rw [hnone] at hmem
            cases hmem
          · rw [hsome] at hmem
            cases hmem
            exact .inr ⟨hi, hlt⟩
      · next honeshot =>
          refine h.of_change (fun j after hafter => ?_) (fun _ _ hobj => hobj)
            (fun j event hevent _ => .inl ⟨hevent, rfl⟩) (fun j other hother _ hone hj => ?_) nofun rfl
            (fun j hj => .inl hj) h.told
          · exact ⟨after, hafter, rfl, rfl, fun _ => rfl, fun hon => hon, fun hended => h.ends j after hafter hended⟩
          · cases hfire.symm.trans hj
            cases hevent.symm.trans hother
            exact absurd hone honeshot

theorem Kept.fire (h : p.Kept) (hstep : p.step (.fire k) = some q) : q.Kept := by
  simp only [TimerPool.step] at hstep
  split at hstep
  · cases hstep
  next event hevent =>
    rw [ite_none_right_eq_some] at hstep
    obtain ⟨⟨hon, -, hidle⟩, hstep⟩ := hstep
    cases hstep
    have hpending : event.pending = true := by
      by_contra hended
      rw [h.ends k event hevent (Bool.not_eq_true _ ▸ hended)] at hon
      cases hon
    have hcases : ∀ (j : TimerId) (after : PoolTimer), (p.events.modify k fun event =>
          { event with isEnabled := !event.oneshot, fired := event.fired + 1 })[j]? = some after →
        j ≠ k ∧ p.events[j]? = some after ∨
          j = k ∧ after = { event with isEnabled := !event.oneshot, fired := event.fired + 1 } := by
      intro j after hafter
      by_cases hj : j = k
      · subst hj
        rw [getElem?_modify_eq, hevent] at hafter
        exact .inr ⟨rfl, (some.inj hafter).symm⟩
      · rw [List.getElem?_modify_ne _ _ (Ne.symm hj)] at hafter
        exact .inl ⟨hj, hafter⟩
    have hself := getElem?_modify_eq (fun event : PoolTimer =>
      { event with isEnabled := !event.oneshot, fired := event.fired + 1 }) k p.events
    rw [hevent] at hself
    refine ⟨?_, ?_, ?_, ?_, ?_, ?_, ?_, ?_, h.told⟩
    · intro token obj hobj
      obtain ⟨j, other, rfl, hother, htoken, hother'⟩ := h.stored token obj hobj
      by_cases hj : j = k
      · subst hj
        cases hevent.symm.trans hother
        exact ⟨j, _, rfl, hself, htoken, hother'⟩
      · exact ⟨j, other, rfl, (List.getElem?_modify_ne _ _ (Ne.symm hj)).trans hother, htoken, hother'⟩
    · intro j after hafter hafter'
      rcases hcases j after hafter with ⟨-, hbefore⟩ | ⟨rfl, rfl⟩
      · exact h.held j after hbefore hafter'
      · exact h.held j event hevent hpending
    · intro j after hafter honeshot
      rcases hcases j after hafter with ⟨-, hbefore⟩ | ⟨rfl, rfl⟩
      · exact h.once j after hbefore honeshot
      rcases h.once j event hevent honeshot with hzero | ⟨-, hoff⟩
      · refine .inr ⟨congrArg (· + 1) hzero, ?_⟩
        rw [honeshot]
        rfl
      · rw [hon] at hoff
        cases hoff
    · intro j after hafter hafter'
      rcases hcases j after hafter with ⟨-, hbefore⟩ | ⟨rfl, rfl⟩
      · rcases h.lives j after hbefore hafter' with hon' | ⟨-, hfire⟩
        · exact .inl hon'
        · rw [hidle] at hfire
          cases hfire
      · cases honeshot : event.oneshot with
        | false => exact .inl rfl
        | true => exact .inr ⟨rfl, rfl⟩
    · intro j after hafter hended
      rcases hcases j after hafter with ⟨-, hbefore⟩ | ⟨rfl, rfl⟩
      · exact h.ends j after hbefore hended
      · rw [show event.pending = false from hended] at hpending
        cases hpending
    · intro j hj
      cases hj
      exact (List.length_modify _ _ _).symm ▸ (List.getElem?_eq_some_iff.mp hevent).1
    · intro j after hj hafter honeshot
      cases hj
      rcases hcases k after hafter with ⟨hne, -⟩ | ⟨-, rfl⟩
      · exact absurd rfl hne
      · dsimp only at honeshot ⊢
        rw [honeshot]
        rfl
    · intro j hj
      obtain ⟨other, hother, hended⟩ := h.deferred j hj
      have hne : k ≠ j := by
        rintro rfl
        cases hevent.symm.trans hother
        rw [hpending] at hended
        cases hended
      exact ⟨other, (List.getElem?_modify_ne _ _ hne).trans hother, hended⟩

theorem foldl_discard_spec (objs : List (Option TimerId)) (p : TimerPool) :
    let q := objs.foldl (fun p timer => (p.disable timer).runDelete timer) p
    q.firing = p.firing ∧ q.answers = p.answers ∧ q.events.length = p.events.length ∧
      (∀ j, some j ∈ q.deferred → some j ∈ p.deferred ∨ some j ∈ objs) ∧
      ∀ (j : TimerId) (after : PoolTimer), q.events[j]? = some after →
        ∃ event, p.events[j]? = some event ∧ after.oneshot = event.oneshot ∧
          after.fired = event.fired ∧ (after.isEnabled = true → event.isEnabled = true) ∧
          (some j ∈ objs → after.isEnabled = false) := by
  induction objs generalizing p with
  | nil =>
    exact ⟨rfl, rfl, rfl, fun j hj => .inl hj, fun j after hafter => ⟨after, hafter, rfl, rfl, fun hon => hon, nofun⟩⟩
  | cons timer objs ih =>
    obtain ⟨-, hfiring, hanswers, hdeferred, hevents⟩ := p.discard_spec timer
    obtain ⟨hfiring', hanswers', hlength', hdeferred', hevents'⟩ := ih ((p.disable timer).runDelete timer)
    refine ⟨hfiring'.trans hfiring, hanswers'.trans hanswers,
      hlength'.trans (p.length_discard timer), fun j hj => ?_, fun j after hafter => ?_⟩
    · rcases hdeferred' j hj with hj | hj
      · rcases hdeferred j hj with hj | rfl
        · exact .inl hj
        · exact .inr mem_cons_self
      · exact .inr (mem_cons_of_mem _ hj)
    · obtain ⟨mid, hmid, honeshot, hfired, hon, hoff⟩ := hevents' j after hafter
      obtain ⟨deleted, heq⟩ := hevents j
      rw [heq, map_eq_some_iff] at hmid
      obtain ⟨event, hevent, rfl⟩ := hmid
      refine ⟨event, hevent, ?_⟩
      by_cases htimer : timer = some j
      · rw [if_pos htimer] at honeshot hfired hon
        have hoff' : after.isEnabled = false := Bool.eq_false_iff.mpr fun h => nomatch hon h
        exact ⟨honeshot, hfired, fun h => (nomatch hon h), fun _ => hoff'⟩
      rw [if_neg htimer] at honeshot hfired hon
      refine ⟨honeshot, hfired, hon, fun hmem => ?_⟩
      rcases mem_cons.mp hmem with hj | hmem
      · exact absurd hj.symm htimer
      · exact hoff hmem

theorem Kept.cleanup (h : p.Kept) (hstep : p.step .cleanup = some q) : q.Kept := by
  cases hstep
  obtain ⟨hfiring, hanswers, hlength, hdeferred, hevents⟩ := foldl_discard_spec p.timers.objects p
  have hended : ∀ (j : TimerId) (after : PoolTimer),
      (p.cleanup.events.map fun event => { event with pending := false })[j]? = some after →
        after.pending = false ∧ ∃ event, p.events[j]? = some event ∧ after.oneshot = event.oneshot ∧
          after.fired = event.fired ∧ (after.isEnabled = true → event.isEnabled = true) ∧
          after.isEnabled = false := by
    intro j after hafter
    rw [getElem?_map, map_eq_some_iff] at hafter
    obtain ⟨mid, hmid, rfl⟩ := hafter
    obtain ⟨event, hevent, honeshot, hfired, hon, hoff⟩ := hevents j mid hmid
    refine ⟨rfl, event, hevent, honeshot, hfired, hon, ?_⟩
    cases hpending : event.pending with
    | true =>
      exact hoff (Cabinet.mem_objects_iff.mpr ⟨event.token, h.held j event hevent hpending⟩)
    | false =>
      rw [Bool.eq_false_iff]
      intro h'
      have hoff' := h.ends j event hevent hpending
      rw [hon h'] at hoff'
      cases hoff'
  have hlength' : (p.cleanup.events.map fun event =>
      ({ event with pending := false } : PoolTimer)).length = p.events.length :=
    (length_map _).trans hlength
  refine h.of_change ?_ ?_ ?_ ?_ (fun j hj => hfiring.symm.trans hj) hlength' ?_
    fun answer hanswer => h.told answer (Eq.mp (congrArg (answer ∈ ·) hanswers) hanswer)
  · intro j after hafter
    obtain ⟨hpending, event, hevent, honeshot, hfired, hon, hoff⟩ := hended j after hafter
    refine ⟨event, hevent, honeshot, hfired, fun h' => ?_, hon, fun _ => hoff⟩
    rw [hpending] at h'
    cases h'
  · intro token obj hobj
    have hnone : p.timers.clear.view token = none := Cabinet.view_empty token
    cases hnone.symm.trans hobj
  · intro j event _ _
    exact .inr ⟨Cabinet.view_empty _, fun after hafter => (hended j after hafter).1⟩
  · intro j after hafter hpending
    rw [(hended j after hafter).1] at hpending
    cases hpending
  intro j hj
  have hlt : j < p.events.length := by
    rcases hdeferred j hj with hj | hj
    · obtain ⟨event, hevent, -⟩ := h.deferred j hj
      exact (List.getElem?_eq_some_iff.mp hevent).1
    obtain ⟨token, hview⟩ := Cabinet.mem_objects_iff.mp hj
    obtain ⟨k, event, hk, hevent, -⟩ := h.stored token _ hview
    cases hk
    exact (List.getElem?_eq_some_iff.mp hevent).1
  have hafter := getElem?_eq_getElem (hlength'.symm ▸ hlt)
  exact .inr ⟨_, hafter, (hended j _ hafter).1⟩

theorem Kept.runDeferred (h : p.Kept) (hstep : p.step .runDeferred = some q) : q.Kept := by
  simp only [TimerPool.step] at hstep
  split at hstep
  · cases hstep
  next timer deferred hdeferred =>
    rw [ite_none_right_eq_some] at hstep
    obtain ⟨-, hstep⟩ := hstep
    cases hstep
    have hended : ∀ (j : TimerId) (event : PoolTimer), p.events[j]? = some event → timer = some j →
        event.pending = false := by
      rintro j event hevent rfl
      obtain ⟨other, hother, hended⟩ := h.deferred j (hdeferred ▸ mem_cons_self)
      cases hevent.symm.trans hother
      exact hended
    obtain ⟨htimers, hrest, hfiring, hanswers, -⟩ :=
      ({ p with deferred := deferred } : TimerPool).modify_frame timer fun event =>
        { event with isEnabled := false, deleted := true }
    have hevents := ({ p with deferred := deferred } : TimerPool).events_modify timer fun event =>
      { event with isEnabled := false, deleted := true }
    refine h.of_change (fun j after hafter => ?_) (fun token obj hobj => ?_)
      (fun j event hevent hpending => .inl ⟨?_, ?_⟩)
      (fun j event _ _ _ hj => hfiring.trans hj) (fun j hj => hfiring.symm.trans hj)
      (length_modify _ _ _) (fun j hj => .inl ?_)
      fun answer hanswer => h.told answer (Eq.mp (congrArg (answer ∈ ·) hanswers) hanswer)
    · have hmap := (hevents j).symm.trans hafter
      rw [map_eq_some_iff] at hmap
      obtain ⟨event, hevent, rfl⟩ := hmap
      refine ⟨event, hevent, ?_⟩
      by_cases htimer : timer = some j
      · rw [if_pos htimer]
        refine ⟨rfl, rfl, fun hpending => ?_, nofun, fun _ => rfl⟩
        have hnot := hended j event hevent htimer
        rw [show event.pending = true from hpending] at hnot
        cases hnot
      · rw [if_neg htimer]
        exact ⟨rfl, rfl, fun _ => rfl, fun hon => hon, fun hnot => h.ends j event hevent hnot⟩
    · exact (congrFun (congrArg Cabinet.view htimers) token).symm.trans hobj
    · refine (hevents j).trans ?_
      have hne : timer ≠ some j := by
        intro htimer
        rw [hended j event hevent htimer] at hpending
        cases hpending
      rw [show ({ p with deferred := deferred } : TimerPool).events[j]? = some event from hevent,
        map_some, if_neg hne]
    · exact congrFun (congrArg Cabinet.view htimers) event.token
    · have hmem : some j ∈ deferred := Eq.mp (congrArg (some j ∈ ·) hrest) hj
      exact hdeferred ▸ mem_cons_of_mem _ hmem

/-- With tokens of one's own, a step ends no timer but the one it is about. -/
theorem Kept.step (h : p.Kept) {action : Action} (hown : p.OwnTokens action)
    (hstep : p.step action = some q) : q.Kept := by
  have hstart : ∀ oneshot cb : Bool, (if cb then p.start oneshot else ({}, p)).2.Kept := by
    intro oneshot cb
    cases cb with
    | true => exact h.start oneshot
    | false => exact h
  cases action with
  | doEvery cb => exact some.inj hstep ▸ hstart false cb
  | doAfter cb => exact some.inj hstep ▸ hstart true cb
  | doAt cb => exact some.inj hstep ▸ hstart true cb
  | cancel timer => exact h.cancel hown hstep
  | cleanup => exact h.cleanup hstep
  | fire timer => exact h.fire hstep
  | returned => exact h.returned hown hstep
  | runDeferred => exact h.runDeferred hstep
  | setLoopRunning running =>
    simp only [TimerPool.step, ite_none_right_eq_some] at hstep
    obtain ⟨-, hstep⟩ := hstep
    cases hstep
    exact { h with }

theorem kept_new : ({} : TimerPool).Kept := by
  refine ⟨fun token obj hobj => ?_, nofun, nofun, nofun, nofun, nofun, nofun, nofun, nofun⟩
  cases (Cabinet.view_empty token).symm.trans hobj

/-- **Timers are isolated** in a run where only own tokens come back. -/
theorem isolated_of_run {actions : List Action} (hown : Along step OwnTokens {} actions)
    (hrun : run step {} actions = some p) : p.Isolated :=
  (Lib.run_invariant (fun _ _ _ h hown hstep => h.step hown hstep) kept_new hown hrun).isolated

instance (p : TimerPool) (timer : Option TimerId) : Decidable (p.Unshared timer) :=
  decidable_of_iff (∀ k < p.events.length, ∀ event : PoolTimer, p.events[k]? = some event →
    event.pending = true → event.token = p.tokenOf timer → timer = some k) (by
    constructor
    · intro h k event hevent
      exact h k (List.getElem?_eq_some_iff.mp hevent).1 event hevent
    · exact fun h k _ => h k)

instance (p : TimerPool) : ∀ action, Decidable (p.OwnTokens action)
  | .cancel timer => inferInstanceAs (Decidable (p.Unshared timer))
  | .returned => inferInstanceAs (Decidable (p.Unshared p.firing))
  | .doEvery _ | .doAfter _ | .doAt _ | .cleanup | .fire _ | .runDeferred | .setLoopRunning _ =>
    .isTrue trivial

/-- A periodic timer cancels itself, a one-shot starts another, and its token is then used again. -/
def threeTimers : List Action :=
  [.setLoopRunning true, .doEvery true, .doAfter true, .fire 0, .cancel (some 0), .returned, .fire 1,
    .doAfter true, .returned, .cancel (some 1), .runDeferred, .fire 2]

theorem threeTimers_isolated : ∃ p : TimerPool, run step {} threeTimers = some p ∧
    p.answers = [(true, true), (false, false)] ∧
    p.events.map PoolTimer.pending = [false, false, true] ∧ p.Isolated := by
  obtain ⟨p, hrun, hp⟩ := (Option.any_eq_true _ _).mp (show Option.any
    (fun p : TimerPool => p.answers = [(true, true), (false, false)] ∧
      p.events.map PoolTimer.pending = [false, false, true])
    (run step {} threeTimers) = true by decide +kernel)
  obtain ⟨hanswers, hpending⟩ := of_decide_eq_true hp
  exact ⟨p, hrun, hanswers, hpending, isolated_of_run (by decide +kernel) hrun⟩

/-- The token of a timer that was cleaned up cancels the timer that was created next. -/
theorem stale_token_cancels : ∃ p : TimerPool,
    run step {} [.doAfter true, .cleanup, .doEvery true, .cancel (some 0)] = some p ∧
      ¬p.Isolated := by
  obtain ⟨p, hrun, hp⟩ := (Option.any_eq_true _ _).mp (show Option.any
    (fun p : TimerPool => p.answers = [(true, false)])
    (run step {} [.doAfter true, .cleanup, .doEvery true, .cancel (some 0)]) = true by decide +kernel)
  have hanswers := of_decide_eq_true hp
  refine ⟨p, hrun, fun h => ?_⟩
  have htold := h.told (true, false) (hanswers ▸ List.mem_cons_self)
  cases htold

end Tbox.Eventx.TimerPool
