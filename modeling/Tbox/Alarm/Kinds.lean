import Tbox.Alarm.WorkdayCalendar
import Tbox.Lib.StdString

/-!
# The kinds of alarms

`alarm/oneshot_alarm.cpp`, `weekly_alarm.cpp`, `workday_alarm.cpp` and `cron_alarm.cpp`, each as what it adds to an
alarm; and a log of what becomes of one alarm.
-/

namespace Tbox.Alarms

open Tbox.Lib (Bytes)

/-- What a kind is initialized with, what can be changed about it from without, and what its settings are. -/
structure Kind (ι υ σ : Type) where
  blank : σ
  /-- `initialize` of an alarm that does not run: whether it is accepted, and the settings afterwards -/
  accepts : ι → σ → Bool × σ
  changes : υ → σ → σ
  calculateNextLocalTimeSec : σ → UInt32 → Option UInt32
  /-- whether `onTimeExpired` is that of `Alarm` -/
  repeats : Bool := true

def oneshotAlarm : Kind Int32 Empty TimeOfDay where
  blank := default
  accepts secondsOfDay settings :=
    match timeOfDay secondsOfDay with
    | none => (false, settings)
    | some seconds => (true, seconds)
  changes change _ := change.elim
  calculateNextLocalTimeSec secondsOfDay currLocalTs :=
    let nextLocalTs := secondsAt0000 currLocalTs + secondsOfDay
    some (if nextLocalTs ≤ currLocalTs then nextLocalTs + kSecondsOfDay else nextLocalTs)
  repeats := false

def weekMask (text : Bytes) : UInt8 :=
  (List.range 7).foldl (fun mask i => if text.getD i 0 = 49 then mask ||| 1 <<< i.toUInt8 else mask) 0

structure WeeklySettings where
  secondsOfDay : TimeOfDay := default
  weekMask : UInt8 := 0
  deriving DecidableEq, Repr

def weeklyAlarm : Kind (Int32 × Bytes) Empty WeeklySettings where
  blank := {}
  accepts given settings :=
    match timeOfDay given.1 with
    | none => (false, settings)
    | some seconds =>
      if given.2.length ≠ 7 then (false, settings)
      else (true, { secondsOfDay := seconds, weekMask := weekMask given.2 })
  changes change _ := change.elim
  calculateNextLocalTimeSec settings currLocalTs :=
    let currWeek := (currLocalTs % kSecondsOfWeek / kSecondsOfDay + 4) % 7
    searchDays (fun i => settings.weekMask.toNat.testBit ((i + currWeek.toNat) % 7)) currLocalTs 8 0
      (secondsAt0000 currLocalTs + settings.secondsOfDay)

structure WorkdaySettings where
  alarm : WorkdayAlarm := {}
  days : Days := {}

def workdayAlarm : Kind (Int32 × Bool × Bool) Days WorkdaySettings where
  blank := {}
  accepts given settings :=
    let (accepted, alarm) := settings.alarm.initializeAlarm given.1 given.2.1 given.2.2
    (accepted, { settings with alarm := { secondsOfDay := alarm.secondsOfDay, workday := alarm.workday } })
  changes days settings := { settings with days := days }
  calculateNextLocalTimeSec settings currLocalTs :=
    settings.alarm.calculateNextLocalTimeSec settings.days currLocalTs

/-- What `ccronexpr` reads an expression as, good or bad, and the next date it finds, or -1. -/
structure Cron (ε : Type) where
  blank : ε
  parseExpr : Bytes → Bool × ε
  next : ε → UInt32 → Int

def cronAlarm {ε : Type} (cron : Cron ε) : Kind Bytes Empty ε where
  blank := cron.blank
  accepts text _ := cron.parseExpr text
  changes change _ := change.elim
  calculateNextLocalTimeSec expr currLocalTs := some (UInt32.ofInt (cron.next expr currLocalTs))

/-- What was seen when the next time was looked for, the target that was found, and the milliseconds to it. -/
structure Look (σ : Type) where
  settings : σ
  offset : Int
  now : Reading
  found : Option (Nat × Nat)

inductive Event (σ : Type) where
  | enabled (look : Look σ)
  | refreshed (look : Look σ)
  /-- the timer fired for that target, and the next one was looked for -/
  | fired (target : Nat) (look : Option (Look σ))
  | stopped

structure Career (σ : Type) where
  alarm : Alarm := {}
  settings : σ
  log : List (Event σ) := []

namespace Career

variable {ι υ σ : Type}

/-- How `activeTimer` came out. -/
def look (settings : σ) (clock : Clock) (after : Alarm) : Option (Look σ) :=
  clock.now.map fun now =>
    { settings := settings
      offset := (after.offset clock).toInt
      now := now
      found := if after.state = .kRunning then some (after.targetUtcSec.toNat, (after.timer.getD 0).toNat) else none }

def became (w : Career σ) (alarm : Alarm) (events : List (Event σ)) : Career σ :=
  { w with alarm := alarm, log := w.log ++ events }

def refresh (kind : Kind ι υ σ) (w : Career σ) (clock : Clock) : Career σ :=
  let after := w.alarm.refresh (kind.calculateNextLocalTimeSec w.settings) clock
  w.became after (if w.alarm.state = .kRunning then ((look w.settings clock after).map .refreshed).toList else [])

end Career

inductive Call (ι υ : Type) where
  | initializeAlarm (given : ι)
  | setTimezone (offsetMinutes : Int32)
  | enable (clock : Clock)
  | disable
  | cleanup
  | refresh (clock : Clock)
  | change (change : υ) (clock : Clock)
  | expire (clock : Clock)

def Kind.step {ι υ σ : Type} (kind : Kind ι υ σ) (w : Career σ) : Call ι υ → Option (Career σ)
  | .initializeAlarm given =>
    if w.alarm.state = .kRunning then some w
    else
      let (accepted, settings) := kind.accepts given w.settings
      let state := if accepted then .kInited else w.alarm.state
      some { w with settings := settings, alarm := { w.alarm with state := state } }
  | .setTimezone offsetMinutes => some { w with alarm := w.alarm.setTimezone offsetMinutes }
  | .enable clock =>
    let (enabled, after) := w.alarm.enable (kind.calculateNextLocalTimeSec w.settings) clock
    some (w.became after (if enabled then ((Career.look w.settings clock after).map .enabled).toList else []))
  | .disable => some (w.became w.alarm.disable.2 (if w.alarm.disable.1 then [.stopped] else []))
  | .cleanup => some (w.became w.alarm.cleanup (if w.alarm.disable.1 then [.stopped] else []))
  | .refresh clock => some (w.refresh kind clock)
  | .change change clock =>
    some (Career.refresh kind { w with settings := kind.changes change w.settings } clock)
  | .expire clock =>
    if w.alarm.timer = none then none
    else if kind.repeats then
      let after := w.alarm.onTimeExpired (kind.calculateNextLocalTimeSec w.settings) clock
      some (w.became after [.fired w.alarm.targetUtcSec.toNat (Career.look w.settings clock after)])
    else
      some (w.became { w.alarm with state := .kInited, timer := none }
        [.fired w.alarm.targetUtcSec.toNat none])

def Kind.start {ι υ σ : Type} (kind : Kind ι υ σ) : Career σ := { settings := kind.blank }

end Tbox.Alarms
