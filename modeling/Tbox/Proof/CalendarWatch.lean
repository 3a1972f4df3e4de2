import Tbox.Alarm.WorkdayCalendar

/-!
# Which alarms a calendar watches

An alarm is subscribed before its timer is set, and what comes after does not undo it when there is no day to set
it for. The destructor does not either.
-/

open List Option

namespace Tbox.Alarms

open Lib (run Along Always)
open Function (update_self update_of_ne)

variable {α : Type} [DecidableEq α]

def WorkdayAlarm.HasDay (alarm : WorkdayAlarm) (days : Days) (currLocalTs : UInt32) : Prop :=
  ∃ i < 367,
    currLocalTs < (· + kSecondsOfDay)^[i] (secondsAt0000 currLocalTs + alarm.secondsOfDay) ∧
    alarm.workday = days.isWorkay ((currLocalTs / kSecondsOfDay).toNat + (i : Nat))

def WorkdayAlarm.Finds (alarm : WorkdayAlarm) (days : Days) (clock : Clock) : Prop :=
  ∃ now, clock.now = some now ∧ alarm.HasDay days (alarm.nextLocalStartSec clock now.sec)

def WorkdayAlarm.anew (alarm : WorkdayAlarm) : WorkdayAlarm := { alarm with targetUtcSec := 0 }

namespace Agenda

def isRunning (w : Agenda α) (a : α) : Bool := (w.alarms a).any fun alarm => alarm.state = .kRunning

/-- The calendar watches the alarms that run, each once, and no other. -/
def Subscribed (w : Agenda α) : Prop := ∀ a, w.calendar.watchAlarms.count a = if w.isRunning a then 1 else 0

def AllFind (w : Agenda α) (days : Days) (clock : α → Clock) : Prop :=
  ∀ a alarm, w.alarms a = some alarm → alarm.state = .kRunning → alarm.anew.Finds days (clock a)

/-- Wherever a day is looked for there is one, and no alarm is destroyed while it runs. -/
def Provided (w : Agenda α) : Action α → Prop
  | .enable a clock =>
    ∀ alarm, w.alarms a = some alarm → alarm.state = .kInited → alarm.Finds w.calendar.days clock
  | .refresh a clock =>
    ∀ alarm, w.alarms a = some alarm → alarm.state = .kRunning → alarm.anew.Finds w.calendar.days clock
  | .expire a clock => ∀ alarm, w.alarms a = some alarm → alarm.Finds w.calendar.days clock
  | .updateSpecialDays specialDays clock => w.AllFind { w.calendar.days with specialDays := specialDays } clock
  | .updateWeekMask weekMask clock => w.AllFind { w.calendar.days with weekMask := weekMask } clock
  | .destroy a => w.isRunning a = false
  | _ => True

/-- A timer is set only for an alarm that runs. -/
def Armed (w : Agenda α) : Prop := ∀ a alarm, w.alarms a = some alarm → alarm.timer ≠ none → alarm.state = .kRunning

end Agenda

variable {w t : Agenda α} {a b : α} {alarm : WorkdayAlarm} {days : Days} {clock : Clock}

theorem searchDays_isSome (willDo : Nat → Bool) (currLocalTs : UInt32) (rounds i : Nat) (nextLocalTs : UInt32) :
    (searchDays willDo currLocalTs rounds i nextLocalTs).isSome = true ↔
      ∃ j < rounds, currLocalTs < (· + kSecondsOfDay)^[j] nextLocalTs ∧ willDo (i + j) = true := by
  induction rounds generalizing i nextLocalTs with
  | zero =>
    refine ⟨fun h => Bool.noConfusion h, ?_⟩
    rintro ⟨j, hj, -⟩
    exact absurd hj (Nat.not_lt_zero j)
  | succ rounds ih =>
    rw [searchDays]
    split
    · rename_i hfound
      refine ⟨fun _ => ⟨0, Nat.succ_pos _, ?_⟩, fun _ => rfl⟩
      rw [Function.iterate_zero_apply, Nat.add_zero]
      exact hfound
    · rename_i hnone
      rw [ih]
      constructor
      · rintro ⟨j, hj, hlt, hday⟩
        refine ⟨j + 1, Nat.succ_lt_succ hj, ?_, ?_⟩
        · rw [Function.iterate_succ_apply]
          exact hlt
        · rwa [Nat.add_right_comm, Nat.add_assoc] at hday
      · rintro ⟨j, hj, hlt, hday⟩
        cases j with
        | zero =>
          rw [Function.iterate_zero_apply] at hlt
          exact absurd ⟨hlt, hday⟩ hnone
        | succ j =>
          rw [Function.iterate_succ_apply] at hlt
          refine ⟨j, Nat.lt_of_succ_lt_succ hj, hlt, ?_⟩
          rwa [Nat.add_right_comm, Nat.add_assoc]

theorem calculateNextLocalTimeSec_isSome (days : Days) (currLocalTs : UInt32) :
    (alarm.calculateNextLocalTimeSec days currLocalTs).isSome = true ↔ alarm.HasDay days currLocalTs := by
  refine (searchDays_isSome _ _ _ _ _).trans (exists_congr fun i => ?_)
  rw [Nat.zero_add, beq_iff_eq]

variable {next : UInt32 → Option UInt32}

theorem activeTimer_cases (base : Alarm) (clock : Clock)
    (hnext : ∀ currLocalTs, (next currLocalTs).isSome = true ↔ alarm.HasDay days currLocalTs)
    (hstart : ∀ sec, base.nextLocalStartSec clock sec = alarm.nextLocalStartSec clock sec) :
    (alarm.Finds days clock ∧ (base.activeTimer next clock).2.state = .kRunning) ∨
    (¬alarm.Finds days clock ∧ (base.activeTimer next clock).2 = base) := by
  rw [Alarm.activeTimer]
  cases hnow : clock.now with
  | none =>
    refine .inr ⟨?_, rfl⟩
    rintro ⟨now, hsome, -⟩
    rw [hnow] at hsome
    cases hsome
  | some now =>
    dsimp only
    cases hfound : next (base.nextLocalStartSec clock now.sec) with
    | none =>
      refine .inr ⟨?_, rfl⟩
      rintro ⟨other, hsome, hday⟩
      obtain rfl : now = other := some.inj (hnow.symm.trans hsome)
      rw [← hstart, ← hnext, hfound] at hday
      exact Bool.noConfusion hday
    | some nextLocalSec =>
      refine .inl ⟨⟨now, hnow, ?_⟩, rfl⟩
      rw [← hstart, ← hnext, hfound]
      rfl

theorem initializeAlarm_cases (alarm : WorkdayAlarm) (secondsOfDay : Int32) (withCalendar workday : Bool) :
    (alarm.initializeAlarm secondsOfDay withCalendar workday).2 = alarm ∨ alarm.state ≠ .kRunning ∧
        (alarm.initializeAlarm secondsOfDay withCalendar workday).2.state = .kInited ∧
        (alarm.initializeAlarm secondsOfDay withCalendar workday).2.timer = alarm.timer := by
  rw [WorkdayAlarm.initializeAlarm]
  split
  · exact .inl rfl
  rename_i hstopped
  split
  · exact .inl rfl
  · split
    · exact .inl rfl
    · exact .inr ⟨hstopped, rfl, rfl⟩

namespace Agenda

@[simp]
theorem alarms_put_self (w : Agenda α) (a : α) (alarm : WorkdayAlarm) : (w.put a alarm).alarms a = some alarm :=
  update_self _ _ _

theorem alarms_put_of_ne (hb : b ≠ a) : (w.put a alarm).alarms b = w.alarms b := update_of_ne hb _ _

theorem isRunning_put (w : Agenda α) (a b : α) (alarm : WorkdayAlarm) :
    (w.put a alarm).isRunning b = if b = a then decide (alarm.state = .kRunning) else w.isRunning b := by
  rw [isRunning]
  by_cases hb : b = a
  · rw [if_pos hb, hb, alarms_put_self]
    rfl
  · rw [if_neg hb, alarms_put_of_ne hb]
    rfl

omit [DecidableEq α] in
theorem isRunning_of_some (h : w.alarms a = some alarm) : w.isRunning a = decide (alarm.state = .kRunning) := by
  rw [isRunning, h]
  rfl

theorem Armed.put (h : w.Armed) (hnew : alarm.timer ≠ none → alarm.state = .kRunning) : (w.put a alarm).Armed := by
  intro b other hother htimer
  by_cases hb : b = a
  · rw [hb, alarms_put_self] at hother
    cases hother
    exact hnew htimer
  · rw [alarms_put_of_ne hb] at hother
    exact h b other hother htimer

theorem indicator_inj (p q : Bool) : ((if p then 1 else 0 : Nat) = if q then 1 else 0) ↔ p = q := by
  revert p q
  decide

theorem subscribed_of_isRunning (h : w.Subscribed) (a : α) (alarm : WorkdayAlarm) (calendar : WorkdayCalendar α)
    (hother : ∀ b, b ≠ a → calendar.watchAlarms.count b = w.calendar.watchAlarms.count b) :
    ({ w with calendar := calendar }.put a alarm).Subscribed ↔
      calendar.watchAlarms.count a = if decide (alarm.state = .kRunning) then 1 else 0 := by
  constructor
  · intro hput
    have ha := hput a
    rwa [isRunning_put, if_pos rfl] at ha
  intro ha b
  rw [isRunning_put]
  by_cases hb : b = a
  · rw [if_pos hb, hb]
    exact ha
  · rw [if_neg hb]
    exact (hother b hb).trans (h b)

theorem subscribed_put (h : w.Subscribed) :
    (w.put a alarm).Subscribed ↔ decide (alarm.state = .kRunning) = w.isRunning a := by
  have hput := subscribed_of_isRunning h a alarm w.calendar fun _ _ => rfl
  rw [h a, indicator_inj] at hput
  exact hput.trans eq_comm

theorem count_subscribe (calendar : WorkdayCalendar α) (a b : α) :
    (calendar.subscribe a).watchAlarms.count b = calendar.watchAlarms.count b + if b = a then 1 else 0 := by
  rw [WorkdayCalendar.subscribe, count_append, count_singleton]
  by_cases hb : b = a
  · rw [if_pos hb, if_pos (by rw [hb]; exact beq_self_eq_true a)]
  · rw [if_neg hb, if_neg (by rw [beq_iff_eq]; exact fun h => hb h.symm)]

theorem count_unsubscribe (calendar : WorkdayCalendar α) (a b : α) :
    (calendar.unsubscribe a).watchAlarms.count b = if b = a then 0 else calendar.watchAlarms.count b := by
  rw [WorkdayCalendar.unsubscribe]
  by_cases hb : b = a
  · rw [if_pos hb, hb, count_eq_zero]
    intro hmem
    exact of_decide_eq_true (mem_filter.mp hmem).2 rfl
  · rw [if_neg hb]
    exact count_filter (p := fun other => decide (other ≠ a)) (decide_eq_true hb)

theorem subscribed_enable (h : w.Subscribed) (ha : w.alarms a = some alarm) :
    (w.enable a alarm clock).Subscribed ↔ (alarm.state = .kInited → alarm.Finds w.calendar.days clock) := by
  rw [enable]
  split
  · rename_i hinited
    have hcount : w.calendar.watchAlarms.count a = 0 := by
      rw [h a, isRunning_of_some ha, hinited]
      rfl
    rw [subscribed_of_isRunning h a _ _ (fun b hb => by rw [count_subscribe, if_neg hb, Nat.add_zero]), count_subscribe,
      if_pos rfl, hcount]
    rcases activeTimer_cases alarm.toAlarm clock (calculateNextLocalTimeSec_isSome w.calendar.days)
      (fun _ => rfl) with ⟨hfinds, hstate⟩ | ⟨hnone, hsame⟩
    · rw [hstate]
      exact ⟨fun _ _ => hfinds, fun _ => rfl⟩
    · rw [hsame, hinited]
      exact ⟨fun heq => absurd heq (by decide), fun hfinds => absurd (hfinds rfl) hnone⟩
  · rename_i hinited
    exact ⟨fun _ hi => absurd hi hinited, fun _ => h⟩

theorem subscribed_disable (h : w.Subscribed) (a : α) (alarm : WorkdayAlarm) : (w.disable a alarm).Subscribed := by
  rw [disable]
  split
  · rename_i hrunning
    rw [subscribed_of_isRunning h a _ _ (fun b hb => by rw [count_unsubscribe, if_neg hb]), count_unsubscribe,
      if_pos rfl, Alarm.disable, if_pos hrunning]
    rfl
  · exact h

theorem alarms_disable (ha : w.alarms a = some alarm) :
    (w.disable a alarm).alarms a = some { alarm with toAlarm := alarm.toAlarm.disable.2 } := by
  rw [disable]
  split
  · exact alarms_put_self _ _ _
  · rename_i hrunning
    rw [Alarm.disable, if_neg hrunning]
    exact ha

theorem state_disable_ne (base : Alarm) : base.disable.2.state ≠ .kRunning := by
  rw [Alarm.disable]
  split
  · exact State.noConfusion
  · assumption

theorem subscribed_cleanup (h : w.Subscribed) (ha : w.alarms a = some alarm) : (w.cleanup a alarm).Subscribed := by
  have hstate : alarm.toAlarm.cleanup.state ≠ .kRunning := by
    rw [Alarm.cleanup]
    split
    · rename_i hnone
      rw [hnone]
      decide
    · exact State.noConfusion
  rw [cleanup, subscribed_put (subscribed_disable h a alarm), isRunning_of_some (alarms_disable ha)]
  exact (decide_eq_false hstate).trans (decide_eq_false (state_disable_ne _)).symm

theorem state_refresh (alarm : WorkdayAlarm) (days : Days) (clock : Clock) :
    (refreshed days clock alarm).state = .kRunning ↔ alarm.state = .kRunning ∧ alarm.anew.Finds days clock := by
  rw [refreshed, Alarm.refresh]
  by_cases hrunning : alarm.state = .kRunning
  · rw [if_pos hrunning]
    have hnext : ∀ currLocalTs, (alarm.calculateNextLocalTimeSec days currLocalTs).isSome = true ↔
        alarm.anew.HasDay days currLocalTs := calculateNextLocalTimeSec_isSome days
    rcases activeTimer_cases { alarm.toAlarm with state := .kInited, timer := none, targetUtcSec := 0 } clock hnext
      (fun _ => rfl) with ⟨hfinds, hstate⟩ | ⟨hnone, hsame⟩
    · exact ⟨fun _ => ⟨hrunning, hfinds⟩, fun _ => hstate⟩
    · rw [hsame]
      exact ⟨fun h => State.noConfusion h, fun h => absurd h.2 hnone⟩
  · rw [if_neg hrunning]
    exact ⟨fun h => absurd h hrunning, fun h => absurd h.1 hrunning⟩

theorem refreshed_of_not_running (h : alarm.state ≠ .kRunning) : refreshed days clock alarm = alarm := by
  rw [refreshed, Alarm.refresh, if_neg h]

theorem refreshAll_eq {watch : List α} {clock : α → Clock} {alarms : α → Option WorkdayAlarm} (hnodup : watch.Nodup)
    (hsome : ∀ a ∈ watch, (alarms a).isSome = true) : refreshAll days clock watch alarms =
      some fun a => if a ∈ watch then (alarms a).map (refreshed days (clock a)) else alarms a := by
  induction watch generalizing alarms with
  | nil => rfl
  | cons a rest ih =>
    obtain ⟨hnew, hrest⟩ := nodup_cons.mp hnodup
    obtain ⟨alarm, halarm⟩ := isSome_iff_exists.mp (hsome a mem_cons_self)
    rw [refreshAll, halarm]
    dsimp only
    rw [ih hrest]
    · congr 1
      funext b
      by_cases hb : b = a
      · rw [hb, if_neg hnew, if_pos mem_cons_self, update_self, halarm]
        rfl
      · rw [update_of_ne hb]
        exact if_congr (mem_cons.trans (or_iff_right hb)).symm rfl rfl
    · intro b hb
      have hne : b ≠ a := fun heq => hnew (heq ▸ hb)
      rw [update_of_ne hne]
      exact hsome b (mem_cons_of_mem _ hb)

theorem Subscribed.mem_iff (h : w.Subscribed) (a : α) : a ∈ w.calendar.watchAlarms ↔ w.isRunning a = true := by
  rw [← count_pos_iff, h a]
  cases w.isRunning a <;> decide

theorem Subscribed.nodup (h : w.Subscribed) : w.calendar.watchAlarms.Nodup := by
  rw [nodup_iff_count_le_one]
  intro a
  rw [h a]
  split <;> decide

omit [DecidableEq α] in
theorem isRunning_iff : w.isRunning a = true ↔ ∃ alarm, w.alarms a = some alarm ∧ alarm.state = .kRunning := by
  rw [isRunning, Option.any_eq_true]
  simp only [decide_eq_true_eq]

theorem updateDays_eq {clock : α → Clock} (h : w.Subscribed) : w.updateDays days clock =
    some { calendar := { w.calendar with days := days }
           alarms := fun a => (w.alarms a).map (refreshed days (clock a)) } := by
  rw [updateDays, refreshAll_eq h.nodup fun a ha => ?_, map_some]
  · congr 2
    funext a
    split
    · rfl
    rename_i hmem
    cases halarm : w.alarms a with
    | none => rfl
    | some alarm =>
      have hstate : alarm.state ≠ .kRunning := fun hrunning =>
        hmem ((h.mem_iff a).mpr (isRunning_iff.mpr ⟨alarm, halarm, hrunning⟩))
      rw [map_some, refreshed_of_not_running hstate]
  · obtain ⟨alarm, halarm, -⟩ := isRunning_iff.mp ((h.mem_iff a).mp ha)
    rw [halarm]
    rfl

theorem subscribed_updateDays {clock : α → Clock} (h : w.Subscribed) (hupdate : w.updateDays days clock = some t) :
    t.Subscribed ↔ w.AllFind days clock := by
  rw [updateDays_eq h] at hupdate
  cases hupdate
  have hrunning : ∀ a, isRunning
      { calendar := { w.calendar with days := days }
        alarms := fun a => (w.alarms a).map (refreshed days (clock a)) } a = true ↔
      ∃ alarm, w.alarms a = some alarm ∧ alarm.state = .kRunning ∧ alarm.anew.Finds days (clock a) := by
    intro a
    rw [isRunning_iff]
    constructor
    · rintro ⟨alarm, halarm, hstate⟩
      obtain ⟨before, hbefore, rfl⟩ := map_eq_some_iff.mp halarm
      exact ⟨before, hbefore, (state_refresh before days (clock a)).mp hstate⟩
    · rintro ⟨alarm, halarm, hstate⟩
      exact ⟨_, congrArg (Option.map _) halarm, (state_refresh alarm days (clock a)).mpr hstate⟩
  constructor
  · intro ht a alarm halarm hstate
    have hcount := (ht a).symm.trans (h a)
    rw [indicator_inj, isRunning_iff.mpr ⟨alarm, halarm, hstate⟩, hrunning] at hcount
    obtain ⟨other, hother, -, hfinds⟩ := hcount
    cases halarm.symm.trans hother
    exact hfinds
  · intro hall a
    refine (h a).trans ?_
    rw [indicator_inj, Bool.eq_iff_iff, isRunning_iff, hrunning]
    constructor
    · rintro ⟨alarm, halarm, hstate⟩
      exact ⟨alarm, halarm, hstate, hall a alarm halarm hstate⟩
    · rintro ⟨alarm, halarm, hstate, -⟩
      exact ⟨alarm, halarm, hstate⟩

theorem subscribed_destroy (h : w.Subscribed) : (w.destroy a).Subscribed ↔ w.isRunning a = false := by
  have hother : ∀ b, b ≠ a → (w.destroy a).isRunning b = w.isRunning b := by
    intro b hb
    rw [isRunning, destroy]
    dsimp only
    rw [update_of_ne hb]
    rfl
  have hgone : (w.destroy a).isRunning a = false := by
    rw [isRunning, destroy]
    dsimp only
    rw [update_self]
    rfl
  constructor
  · intro ht
    have hcount := (ht a).symm.trans (h a)
    rw [indicator_inj, hgone] at hcount
    exact hcount.symm
  · intro hstopped b
    by_cases hb : b = a
    · rw [hb, hgone]
      exact (h a).trans (by rw [hstopped])
    · rw [hother b hb]
      exact h b

theorem armed_activeTimer {base : Alarm}
    (h : base.timer ≠ none → base.state = .kRunning)
    (htimer : (base.activeTimer next clock).2.timer ≠ none) : (base.activeTimer next clock).2.state = .kRunning := by
  revert htimer
  rw [Alarm.activeTimer]
  split
  · exact h
  · split
    · exact h
    · exact fun _ => rfl

theorem armed_disable {base : Alarm} (h : base.timer ≠ none → base.state = .kRunning) :
    base.disable.2.timer = none := by
  rw [Alarm.disable]
  split
  · rfl
  · rename_i hrunning
    by_contra htimer
    exact hrunning (h htimer)

theorem armed_refresh {base : Alarm} (h : base.timer ≠ none → base.state = .kRunning)
    (htimer : (base.refresh next clock).timer ≠ none) : (base.refresh next clock).state = .kRunning := by
  revert htimer
  rw [Alarm.refresh]
  split
  · exact armed_activeTimer fun htimer => absurd rfl htimer
  · exact h

theorem armed_updateDays {clock : α → Clock} (harmed : w.Armed) (h : w.Subscribed)
    (hupdate : w.updateDays days clock = some t) : t.Armed := by
  rw [updateDays_eq h] at hupdate
  cases hupdate
  intro a alarm halarm
  obtain ⟨before, hbefore, rfl⟩ := map_eq_some_iff.mp halarm
  exact armed_refresh (harmed a before hbefore)

theorem armed_step {action : Action α} (harmed : w.Armed) (h : w.Subscribed) (hstep : step w action = some t) :
    t.Armed := by
  cases action with
  | construct a =>
    rw [step] at hstep
    split at hstep
    · cases hstep
      exact harmed.put fun htimer => absurd rfl htimer
    · cases hstep
  | initializeAlarm a secondsOfDay withCalendar workday =>
    obtain ⟨alarm, halarm, rfl⟩ := map_eq_some_iff.mp hstep
    refine harmed.put fun htimer => ?_
    revert htimer
    rcases initializeAlarm_cases alarm secondsOfDay withCalendar workday with hsame | ⟨hstopped, hinited, htimer⟩
    · rw [hsame]
      exact harmed a alarm halarm
    · rw [htimer]
      exact fun hset => absurd (harmed a alarm halarm hset) hstopped
  | setTimezone a offsetMinutes =>
    obtain ⟨alarm, halarm, rfl⟩ := map_eq_some_iff.mp hstep
    exact harmed.put (harmed a alarm halarm)
  | enable a clock =>
    obtain ⟨alarm, halarm, rfl⟩ := map_eq_some_iff.mp hstep
    rw [enable]
    split
    · exact Armed.put harmed (armed_activeTimer (harmed a alarm halarm))
    · exact harmed
  | disable a =>
    obtain ⟨alarm, halarm, rfl⟩ := map_eq_some_iff.mp hstep
    rw [disable]
    split
    · exact Armed.put harmed fun htimer => absurd (armed_disable (harmed a alarm halarm)) htimer
    · exact harmed
  | cleanup a =>
    obtain ⟨alarm, halarm, rfl⟩ := map_eq_some_iff.mp hstep
    have hdisabled : (w.disable a alarm).Armed := by
      rw [disable]
      split
      · exact Armed.put harmed fun htimer => absurd (armed_disable (harmed a alarm halarm)) htimer
      · exact harmed
    refine hdisabled.put fun htimer => ?_
    revert htimer
    rw [Alarm.cleanup]
    split
    · exact harmed a alarm halarm
    · exact fun htimer => absurd (armed_disable (harmed a alarm halarm)) htimer
  | refresh a clock =>
    obtain ⟨alarm, halarm, rfl⟩ := map_eq_some_iff.mp hstep
    exact harmed.put (armed_refresh (harmed a alarm halarm))
  | expire a clock =>
    obtain ⟨alarm, halarm, hexpire⟩ := bind_eq_some_iff.mp hstep
    split at hexpire
    · cases hexpire
    · cases hexpire
      exact harmed.put (armed_activeTimer fun htimer => absurd rfl htimer)
  | updateSpecialDays specialDays clock => exact armed_updateDays harmed h hstep
  | updateWeekMask weekMask clock => exact armed_updateDays harmed h hstep
  | destroy a =>
    obtain ⟨alarm, halarm, rfl⟩ := map_eq_some_iff.mp hstep
    intro b other hother
    by_cases hb : b = a
    · rw [destroy, hb] at hother
      dsimp only at hother
      rw [update_self] at hother
      cases hother
    · rw [destroy] at hother
      dsimp only at hother
      rw [update_of_ne hb] at hother
      exact harmed b other hother

/-- After a step the calendar watches the alarms that run exactly if the step was provided for. -/
theorem subscribed_step {action : Action α} (harmed : w.Armed) (h : w.Subscribed) (hstep : step w action = some t) :
    t.Subscribed ↔ w.Provided action := by
  cases action with
  | construct a =>
    rw [step] at hstep
    split at hstep
    · rename_i hnone
      cases hstep
      have hold : w.isRunning a = false := by
        rw [isRunning, hnone]
        rfl
      rw [subscribed_put h, hold]
      exact ⟨fun _ => trivial, fun _ => rfl⟩
    · cases hstep
  | initializeAlarm a secondsOfDay withCalendar workday =>
    obtain ⟨alarm, halarm, rfl⟩ := map_eq_some_iff.mp hstep
    rw [subscribed_put h, isRunning_of_some halarm]
    refine ⟨fun _ => trivial, fun _ => decide_eq_decide.mpr ?_⟩
    rcases initializeAlarm_cases alarm secondsOfDay withCalendar workday with hsame | ⟨hstopped, hinited, -⟩
    · rw [hsame]
    · rw [hinited]
      exact ⟨fun hnew => State.noConfusion hnew, fun hold => absurd hold hstopped⟩
  | setTimezone a offsetMinutes =>
    obtain ⟨alarm, halarm, rfl⟩ := map_eq_some_iff.mp hstep
    rw [subscribed_put h, isRunning_of_some halarm]
    exact ⟨fun _ => trivial, fun _ => rfl⟩
  | enable a clock =>
    obtain ⟨alarm, halarm, rfl⟩ := map_eq_some_iff.mp hstep
    rw [subscribed_enable h halarm]
    refine ⟨fun hfinds other hother => ?_, fun hfinds => hfinds alarm halarm⟩
    cases halarm.symm.trans hother
    exact hfinds
  | disable a =>
    obtain ⟨alarm, halarm, rfl⟩ := map_eq_some_iff.mp hstep
    exact ⟨fun _ => trivial, fun _ => subscribed_disable h a alarm⟩
  | cleanup a =>
    obtain ⟨alarm, halarm, rfl⟩ := map_eq_some_iff.mp hstep
    exact ⟨fun _ => trivial, fun _ => subscribed_cleanup h halarm⟩
  | refresh a clock =>
    obtain ⟨alarm, halarm, rfl⟩ := map_eq_some_iff.mp hstep
    rw [subscribed_put h, isRunning_of_some halarm, decide_eq_decide, state_refresh]
    constructor
    · intro hiff other hother hrunning
      cases halarm.symm.trans hother
      exact (hiff.mpr hrunning).2
    · intro hfinds
      exact ⟨fun hboth => hboth.1, fun hrunning => ⟨hrunning, hfinds alarm halarm hrunning⟩⟩
  | expire a clock =>
    obtain ⟨alarm, halarm, hexpire⟩ := bind_eq_some_iff.mp hstep
    split at hexpire
    · cases hexpire
    rename_i htimer
    cases hexpire
    rw [subscribed_put h, isRunning_of_some halarm, decide_eq_decide]
    have hrunning := harmed a alarm halarm htimer
    rcases activeTimer_cases { alarm.toAlarm with state := .kInited, timer := none } clock
      (calculateNextLocalTimeSec_isSome w.calendar.days) (fun _ => rfl) with ⟨hfinds, hstate⟩ | ⟨hnone, hsame⟩
    · refine ⟨fun _ other hother => ?_, fun _ => ⟨fun _ => hrunning, fun _ => hstate⟩⟩
      cases halarm.symm.trans hother
      exact hfinds
    refine ⟨fun hiff => ?_, fun hfinds => absurd (hfinds alarm halarm) hnone⟩
    have hstate := hiff.mpr hrunning
    rw [Alarm.onTimeExpired, hsame] at hstate
    exact State.noConfusion hstate
  | updateSpecialDays specialDays clock => exact subscribed_updateDays h hstep
  | updateWeekMask weekMask clock => exact subscribed_updateDays h hstep
  | destroy a =>
    obtain ⟨alarm, halarm, rfl⟩ := map_eq_some_iff.mp hstep
    exact subscribed_destroy h

/-- **The calendar watches exactly the alarms that run, all along, if and only if there is a day wherever one is
looked for and no alarm is destroyed while it runs.** -/
theorem subscribed_iff_provided (actions : List (Action α)) :
    Always step Subscribed {} actions ↔ Along step Provided {} actions := by
  refine Lib.always_iff_along (I := Armed) (b := fun _ _ => True)
    (fun s action t harmed _ h hstep => armed_step harmed h hstep)
    (fun s action t harmed _ h hstep => subscribed_step harmed h hstep) ?_ (Lib.along_of_forall fun _ _ => trivial) ?_
  · exact nofun
  · exact fun a => rfl

def destroyedRunning : List (Action Unit) :=
  [.construct (), .initializeAlarm () 0 true true, .enable () { now := some { sec := 1000000 } }, .destroy ()]

/-- It is still watched. -/
theorem not_subscribed_destroyed : ¬∀ actions : List (Action Unit), Always step Subscribed {} actions := by
  intro h
  have hend : (run step {} destroyedRunning).map
      (fun w : Agenda Unit => (w.calendar.watchAlarms.count (), w.isRunning ())) = some (1, false) := by
    rfl
  obtain ⟨w, hrun, hw⟩ := Option.map_eq_some_iff.mp hend
  obtain ⟨hcount, hstopped⟩ := Prod.mk.inj hw
  have hwatch := h destroyedRunning destroyedRunning (List.prefix_refl _) w hrun ()
  rw [hcount, hstopped] at hwatch
  exact absurd hwatch (by decide)

end Agenda

end Tbox.Alarms
