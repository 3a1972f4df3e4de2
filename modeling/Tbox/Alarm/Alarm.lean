import Mathlib.Tactic

/-!
# Alarms

`alarm/alarm.cpp`. A kind of alarm adds how the next local time is found. Times are seconds of 32 bits without a sign;
the timer is known by the milliseconds it has been given, while it is enabled.
-/

namespace Tbox.Alarms

def kSecondsOfDay : UInt32 := 60 * 60 * 24
def kSecondsOfWeek : UInt32 := kSecondsOfDay * 7

inductive State where
  | kNone
  | kInited
  | kRunning
  deriving DecidableEq, Repr

instance neZero_usec : NeZero 1000000 := ⟨by decide⟩

/-- What `gettimeofday` gives. -/
structure Reading where
  sec : UInt32
  usec : Fin 1000000 := 0
  deriving DecidableEq, Repr

/-- What is read when the next time is found: the time, unless that fails, and the offset of the system's time zone. -/
structure Clock where
  now : Option Reading
  systemOffset : Int32 := 0
  deriving DecidableEq, Repr

structure Alarm where
  state : State := .kNone
  usingIndependTimezone : Bool := false
  timezoneOffsetSeconds : Int32 := 0
  targetUtcSec : UInt32 := 0
  /-- `sp_timer_ev_` -/
  timer : Option UInt32 := none
  deriving DecidableEq, Repr

namespace Alarm

def setTimezone (alarm : Alarm) (offsetMinutes : Int32) : Alarm :=
  { alarm with timezoneOffsetSeconds := offsetMinutes * 60, usingIndependTimezone := true }

def offset (alarm : Alarm) (clock : Clock) : Int32 :=
  if alarm.usingIndependTimezone then alarm.timezoneOffsetSeconds else clock.systemOffset

def nextLocalStartSec (alarm : Alarm) (clock : Clock) (currUtcSec : UInt32) : UInt32 :=
  max currUtcSec alarm.targetUtcSec + (alarm.offset clock).toUInt32

def activeTimer (calculateNextLocalTimeSec : UInt32 → Option UInt32) (clock : Clock) (alarm : Alarm) : Bool × Alarm :=
  match clock.now with
  | none => (false, alarm)
  | some now =>
    match calculateNextLocalTimeSec (alarm.nextLocalStartSec clock now.sec) with
    | none => (false, alarm)
    | some nextLocalSec =>
      let nextUtcSec := nextLocalSec - (alarm.offset clock).toUInt32
      let remainSec := nextUtcSec - now.sec
      let remainUsec := remainSec * 1000 - now.usec.val.toUInt32 / 1000
      (true, { alarm with timer := some remainUsec, state := .kRunning, targetUtcSec := nextUtcSec })

/-- Without `onEnable`. -/
def enable (calculateNextLocalTimeSec : UInt32 → Option UInt32) (clock : Clock) (alarm : Alarm) : Bool × Alarm :=
  if alarm.state = .kInited then alarm.activeTimer calculateNextLocalTimeSec clock else (false, alarm)

/-- Without `onDisable`. -/
def disable (alarm : Alarm) : Bool × Alarm :=
  if alarm.state = .kRunning then (true, { alarm with state := .kInited, timer := none }) else (false, alarm)

def cleanup (alarm : Alarm) : Alarm :=
  if alarm.state = .kNone then alarm
  else
    { alarm.disable.2 with
      usingIndependTimezone := false
      timezoneOffsetSeconds := 0
      state := .kNone
      targetUtcSec := 0 }

def refresh (calculateNextLocalTimeSec : UInt32 → Option UInt32) (clock : Clock) (alarm : Alarm) : Alarm :=
  if alarm.state = .kRunning then
    ({ alarm with state := .kInited, timer := none, targetUtcSec := 0 }.activeTimer calculateNextLocalTimeSec clock).2
  else alarm

def onTimeExpired (calculateNextLocalTimeSec : UInt32 → Option UInt32) (clock : Clock) (alarm : Alarm) : Alarm :=
  ({ alarm with state := .kInited, timer := none }.activeTimer calculateNextLocalTimeSec clock).2

end Alarm

/-- The loop that goes from day to day, in its round `i`: what is still to come on a day that will do. -/
def searchDays (willDo : Nat → Bool) (currLocalTs : UInt32) : Nat → Nat → UInt32 → Option UInt32
  | 0, _, _ => none
  | rounds + 1, i, nextLocalTs =>
    if currLocalTs < nextLocalTs ∧ willDo i then some nextLocalTs
    else searchDays willDo currLocalTs rounds (i + 1) (nextLocalTs + kSecondsOfDay)

def secondsAt0000 (currLocalTs : UInt32) : UInt32 := currLocalTs - currLocalTs % kSecondsOfDay

abbrev TimeOfDay := { seconds : UInt32 // seconds < kSecondsOfDay }

instance : Inhabited TimeOfDay := ⟨0, by decide⟩

/-- The value of an `int`, from its bits. -/
theorem toInt_eq (number : Int32) : number.toInt =
    if 2 * number.toUInt32.toNat < 2 ^ 32 then (number.toUInt32.toNat : Int) else number.toUInt32.toNat - 2 ^ 32 :=
  BitVec.toInt_eq_toNat_cond number.toBitVec

theorem toUInt32_lt_kSecondsOfDay {seconds : Int32} (h : ¬(seconds < 0 ∨ kSecondsOfDay.toNat ≤ seconds.toInt)) :
    seconds.toUInt32 < kSecondsOfDay := by
  obtain ⟨hnonneg, hlt⟩ := not_or.mp h
  have hday : kSecondsOfDay.toNat = 86400 := rfl
  have hint : 0 ≤ seconds.toInt := not_lt.mp fun hneg => hnonneg (Int32.lt_iff_toInt_lt.mpr hneg)
  have heq := toInt_eq seconds
  have hword : seconds.toUInt32.toNat < 2 ^ 32 := seconds.toUInt32.toNat_lt
  apply UInt32.lt_iff_toNat_lt.mpr
  split at heq <;> omega

/-- The check of every `initialize` of a time of the day. -/
def timeOfDay (secondsOfDay : Int32) : Option TimeOfDay :=
  if h : secondsOfDay < 0 ∨ kSecondsOfDay.toNat ≤ secondsOfDay.toInt then none
  else some ⟨secondsOfDay.toUInt32, toUInt32_lt_kSecondsOfDay h⟩

end Tbox.Alarms
