import Tbox.Alarm.Alarm
import Tbox.Lib.Run

/-!
# Alarms of workdays, and their calendar

`alarm/workday_alarm.cpp` and `alarm/workday_calendar.cpp`. Alarms are known by where they are in memory. A callback
of the user does nothing that could not be done after it.
-/

namespace Tbox.Alarms

variable {α : Type} [DecidableEq α]

structure Days where
  weekMask : UInt8 := 0x3e
  specialDays : Int → Option Bool := fun _ => none

/-- `isWorkay` -/
def Days.isWorkay (days : Days) (dayIndex : Int) : Bool :=
  match days.specialDays dayIndex with
  | some workday => workday
  | none => days.weekMask.toNat.testBit (Int.tmod (Int.tmod dayIndex 7 + 4) 7).toNat

structure WorkdayAlarm extends Alarm where
  secondsOfDay : TimeOfDay := default
  workday : Bool := true
  deriving DecidableEq, Repr

namespace WorkdayAlarm

def initializeAlarm (alarm : WorkdayAlarm) (secondsOfDay : Int32) (withCalendar workday : Bool) : Bool × WorkdayAlarm :=
  if alarm.state = .kRunning then (false, alarm)
  else
    match timeOfDay secondsOfDay with
    | none => (false, alarm)
    | some seconds =>
      if withCalendar = false then (false, alarm)
      else (true, { alarm with secondsOfDay := seconds, workday := workday, state := .kInited })

def calculateNextLocalTimeSec (alarm : WorkdayAlarm) (days : Days) (currLocalTs : UInt32) : Option UInt32 :=
  searchDays (fun i => alarm.workday == days.isWorkay ((currLocalTs / kSecondsOfDay).toNat + (i : Nat))) currLocalTs
    367 0 (secondsAt0000 currLocalTs + alarm.secondsOfDay)

end WorkdayAlarm

structure WorkdayCalendar (α : Type) where
  days : Days := {}
  watchAlarms : List α := []

def WorkdayCalendar.subscribe (calendar : WorkdayCalendar α) (alarm : α) : WorkdayCalendar α :=
  { calendar with watchAlarms := calendar.watchAlarms ++ [alarm] }

def WorkdayCalendar.unsubscribe (calendar : WorkdayCalendar α) (alarm : α) : WorkdayCalendar α :=
  { calendar with watchAlarms := calendar.watchAlarms.filter fun other => other ≠ alarm }

structure Agenda (α : Type) where
  calendar : WorkdayCalendar α := {}
  alarms : α → Option WorkdayAlarm := fun _ => none

namespace Agenda

def put (w : Agenda α) (a : α) (alarm : WorkdayAlarm) : Agenda α :=
  { w with alarms := Function.update w.alarms a (some alarm) }

/-- `enable`, with `onEnable` -/
def enable (w : Agenda α) (a : α) (alarm : WorkdayAlarm) (clock : Clock) : Agenda α :=
  if alarm.state = .kInited then
    { w with calendar := w.calendar.subscribe a }.put a
      { alarm with
        toAlarm := (alarm.toAlarm.activeTimer (alarm.calculateNextLocalTimeSec w.calendar.days) clock).2 }
  else w

/-- `disable`, with `onDisable` -/
def disable (w : Agenda α) (a : α) (alarm : WorkdayAlarm) : Agenda α :=
  if alarm.state = .kRunning then
    { w with calendar := w.calendar.unsubscribe a }.put a { alarm with toAlarm := alarm.toAlarm.disable.2 }
  else w

def cleanup (w : Agenda α) (a : α) (alarm : WorkdayAlarm) : Agenda α :=
  (w.disable a alarm).put a { alarm with toAlarm := alarm.toAlarm.cleanup }

def refreshed (days : Days) (clock : Clock) (alarm : WorkdayAlarm) : WorkdayAlarm :=
  { alarm with toAlarm := alarm.toAlarm.refresh (alarm.calculateNextLocalTimeSec days) clock }

/-- The loop over `watch_alarms_`. It must not come to an alarm that is no longer there. -/
def refreshAll (days : Days) (clock : α → Clock) :
    List α → (α → Option WorkdayAlarm) → Option (α → Option WorkdayAlarm)
  | [], alarms => some alarms
  | a :: rest, alarms =>
    match alarms a with
    | none => none
    | some alarm => refreshAll days clock rest (Function.update alarms a (some (refreshed days (clock a) alarm)))

def updateDays (w : Agenda α) (days : Days) (clock : α → Clock) : Option (Agenda α) :=
  (refreshAll days clock w.calendar.watchAlarms w.alarms).map fun alarms =>
    { calendar := { w.calendar with days := days }, alarms := alarms }

/-- The destructor. What is called in `cleanup` is `Alarm::onDisable`: by then there is no `WorkdayAlarm`. -/
def destroy (w : Agenda α) (a : α) : Agenda α :=
  { w with alarms := Function.update w.alarms a none }

end Agenda

inductive Action (α : Type) where
  | construct (a : α)
  | initializeAlarm (a : α) (secondsOfDay : Int32) (withCalendar workday : Bool)
  | setTimezone (a : α) (offsetMinutes : Int32)
  | enable (a : α) (clock : Clock)
  | disable (a : α)
  | cleanup (a : α)
  | refresh (a : α) (clock : Clock)
  /-- the timer fires -/
  | expire (a : α) (clock : Clock)
  | updateSpecialDays (specialDays : Int → Option Bool) (clock : α → Clock)
  | updateWeekMask (weekMask : UInt8) (clock : α → Clock)
  | destroy (a : α)

def step (w : Agenda α) : Action α → Option (Agenda α)
  | .construct a =>
    match w.alarms a with
    | none => some (w.put a {})
    | some _ => none
  | .initializeAlarm a secondsOfDay withCalendar workday =>
    (w.alarms a).map fun alarm => w.put a (alarm.initializeAlarm secondsOfDay withCalendar workday).2
  | .setTimezone a offsetMinutes =>
    (w.alarms a).map fun alarm => w.put a { alarm with toAlarm := alarm.toAlarm.setTimezone offsetMinutes }
  | .enable a clock => (w.alarms a).map fun alarm => w.enable a alarm clock
  | .disable a => (w.alarms a).map fun alarm => w.disable a alarm
  | .cleanup a => (w.alarms a).map fun alarm => w.cleanup a alarm
  | .refresh a clock => (w.alarms a).map fun alarm => w.put a (Agenda.refreshed w.calendar.days clock alarm)
  | .expire a clock =>
    (w.alarms a).bind fun alarm =>
      if alarm.timer = none then none
      else some (w.put a { alarm with
        toAlarm := alarm.toAlarm.onTimeExpired (alarm.calculateNextLocalTimeSec w.calendar.days) clock })
  | .updateSpecialDays specialDays clock =>
    w.updateDays { w.calendar.days with specialDays := specialDays } clock
  | .updateWeekMask weekMask clock => w.updateDays { w.calendar.days with weekMask := weekMask } clock
  | .destroy a => (w.alarms a).map fun _ => w.destroy a

end Tbox.Alarms
