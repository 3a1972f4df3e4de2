import Tbox.Proof.AlarmTargets

/-!
# How long an alarm waits

The milliseconds to the target are counted in 32 bits, which is enough for 49 days.
-/

namespace Tbox.Alarms

variable {ι υ σ : Type} {kind : Kind ι υ σ} {settings : σ} {alarm : Alarm} {clock : Clock}
  {now : Reading} {found : UInt32}

def Reading.millis (now : Reading) : Nat := now.sec.toNat * 1000 + now.usec.val / 1000

/-- The timer runs for as long as it is to the target. -/
def Alarm.WaitsExactly (after : Alarm) (now : Reading) : Prop :=
  ∃ delay, after.timer = some delay ∧ (delay.toNat : Int) = after.targetUtcSec.toNat * 1000 - now.millis

/-- The target is not over, and less than `2 ^ 32` milliseconds away. -/
def Reading.Reaches (now : Reading) (target : UInt32) : Prop :=
  now.millis ≤ target.toNat * 1000 ∧ target.toNat * 1000 < now.millis + 2 ^ 32

instance (now : Reading) (target : UInt32) : Decidable (now.Reaches target) := inferInstanceAs (Decidable (_ ∧ _))

theorem activeTimer_of_found (hnow : clock.now = some now)
    (hfound : kind.calculateNextLocalTimeSec settings (alarm.nextLocalStartSec clock now.sec) = some found) :
    alarm.activeTimer (kind.calculateNextLocalTimeSec settings) clock =
      (true, { alarm with
        timer := some ((found - (alarm.offset clock).toUInt32 - now.sec) * 1000 - now.usec.val.toUInt32 / 1000)
        state := .kRunning
        targetUtcSec := found - (alarm.offset clock).toUInt32 }) := by
  rw [Alarm.activeTimer, hnow]
  dsimp only
  rw [hfound]

/-- **The timer is armed exactly** if and only if the next time, when it is taken back to UTC, is not over and less
than `2 ^ 32` milliseconds away. -/
theorem waitsExactly_iff_reaches (hnow : clock.now = some now)
    (hfound : kind.calculateNextLocalTimeSec settings (alarm.nextLocalStartSec clock now.sec) = some found) :
    (alarm.activeTimer (kind.calculateNextLocalTimeSec settings) clock).2.WaitsExactly now ↔
      now.Reaches (found - (alarm.offset clock).toUInt32) := by
  rw [activeTimer_of_found hnow hfound]
  generalize found - (alarm.offset clock).toUInt32 = target
  have hdelay : (((target - now.sec) * 1000 - now.usec.val.toUInt32 / 1000).toNat : Int) =
      (target.toNat * 1000 - now.millis : Int) % 2 ^ 32 := by
    rw [toNat_delay_mod, Reading.millis]
    omega
  constructor
  · intro ⟨delay, hsome, hexact⟩
    obtain rfl := Option.some.inj hsome
    change _ = (target.toNat * 1000 - now.millis : Int) at hexact
    rw [hdelay] at hexact
    constructor <;> omega
  · intro ⟨hlater, hnear⟩
    refine ⟨_, rfl, hdelay.trans (Int.emod_eq_of_lt ?_ ?_)⟩ <;> omega

theorem reaches_of_soon (hlag : alarm.targetUtcSec ≤ now.sec) (hlater : alarm.nextLocalStartSec clock now.sec < found)
    (hsoon : found.toNat - (alarm.nextLocalStartSec clock now.sec).toNat ≤ 49 * 86400)
    (h32 : now.sec.toNat + 49 * 86400 < 2 ^ 32) : now.Reaches (found - (alarm.offset clock).toUInt32) := by
  have hmax : max now.sec alarm.targetUtcSec = now.sec := by
    apply UInt32.toNat_inj.mp
    rw [toNat_max]
    exact Nat.max_eq_left (UInt32.le_iff_toNat_le.mp hlag)
  have husec : now.usec.val < 1000000 := now.usec.isLt
  have hstart : (alarm.nextLocalStartSec clock now.sec).toNat =
      (now.sec.toNat + (alarm.offset clock).toUInt32.toNat) % 2 ^ 32 := by
    rw [Alarm.nextLocalStartSec, hmax, UInt32.toNat_add]
  have hfound : found.toNat < 2 ^ 32 := found.toNat_lt
  have hoffset := (alarm.offset clock).toUInt32.toNat_lt
  rw [UInt32.lt_iff_toNat_lt] at hlater
  rw [Reading.Reaches, UInt32.toNat_sub, Reading.millis]
  omega

/-- **An alarm for a time of day and a weekly alarm** that go on from the present wait for as long as it is to their
target. -/
theorem soon_waitsExactly (hnow : clock.now = some now) (hlag : alarm.targetUtcSec ≤ now.sec)
    (hutc : now.sec.toNat + 49 * 86400 < 2 ^ 32)
    (hlocal : (alarm.nextLocalStartSec clock now.sec).toNat + 367 * 86400 < 2 ^ 32) :
    (∀ seconds, (alarm.activeTimer (oneshotAlarm.calculateNextLocalTimeSec seconds) clock).2.WaitsExactly now) ∧
    ∀ settings found,
      weeklyAlarm.calculateNextLocalTimeSec settings (alarm.nextLocalStartSec clock now.sec) = some found →
        (alarm.activeTimer (weeklyAlarm.calculateNextLocalTimeSec settings) clock).2.WaitsExactly now := by
  constructor
  · intro seconds
    obtain ⟨found, hfound, ⟨hlater, -⟩, hleast⟩ := oneshotAlarm_next seconds hlocal
    have hlt := toNat_seconds_lt seconds
    have hsoon : (found.toNat : Int) ≤
        ((alarm.nextLocalStartSec clock now.sec).toNat / 86400 + 1) * 86400 + seconds.val.toNat :=
      hleast ⟨by omega, by omega, rfl⟩
    apply (waitsExactly_iff_reaches hnow hfound).mpr
    exact reaches_of_soon hlag (UInt32.lt_iff_toNat_lt.mpr (by omega)) (by omega) hutc
  · intro settings found hfound
    obtain ⟨hnext, hwithin⟩ := (weeklyAlarm_follows.next weeklyNature_seeks (by decide) hlocal settings).1 found hfound
    have hlater : ((alarm.nextLocalStartSec clock now.sec).toNat : Int) < found.toNat := hnext.1.1
    rw [Within] at hwithin
    apply (waitsExactly_iff_reaches hnow hfound).mpr
    exact reaches_of_soon hlag (UInt32.lt_iff_toNat_lt.mpr (by omega)) (by omega) hutc

/-- At the beginning of a Thursday, for noon of this day and of the next Wednesday. -/
theorem wednesday_waitsExactly :
    (Alarm.activeTimer (oneshotAlarm.calculateNextLocalTimeSec ⟨43200, by decide⟩) { now := some { sec := 0 } }
      { state := .kInited }).2.WaitsExactly { sec := 0 } ∧
    (Alarm.activeTimer (weeklyAlarm.calculateNextLocalTimeSec ⟨⟨43200, by decide⟩, 0x08⟩)
      { now := some { sec := 0 } } { state := .kInited }).2.WaitsExactly { sec := 0 } := by
  obtain ⟨honeshot, hweekly⟩ := @soon_waitsExactly { state := .kInited } { now := some { sec := 0 } } { sec := 0 }
    rfl (by decide) (by decide) (by decide)
  exact ⟨honeshot _, hweekly _ (6 * kSecondsOfDay + 43200) (by decide +kernel)⟩

/-- An alarm for midnight of the one day off in sixty days, on a calendar of workdays. -/
def sixtyDays : WorkdaySettings where
  alarm := { state := .kInited, workday := false }
  days := { weekMask := 0x7f, specialDays := fun day => if day = 60 then some false else none }

/-- It is to wait 5184000000 ms and waits 889032704. -/
theorem sixtyDays_waits :
    workdayAlarm.calculateNextLocalTimeSec sixtyDays 0 = some (60 * kSecondsOfDay) ∧
      (Alarm.activeTimer (workdayAlarm.calculateNextLocalTimeSec sixtyDays) { now := some { sec := 0 } }
        { state := .kInited }).2 =
        { state := .kRunning, timer := some 889032704, targetUtcSec := 5184000 } ∧
      ¬(Alarm.activeTimer (workdayAlarm.calculateNextLocalTimeSec sixtyDays) { now := some { sec := 0 } }
        { state := .kInited }).2.WaitsExactly { sec := 0 } := by
  have hafter : (Alarm.activeTimer (workdayAlarm.calculateNextLocalTimeSec sixtyDays) { now := some { sec := 0 } }
      { state := .kInited }).2 = { state := .kRunning, timer := some 889032704, targetUtcSec := 5184000 } := by
    decide +kernel
  refine ⟨by decide +kernel, hafter, ?_⟩
  rw [hafter]
  intro ⟨delay, hsome, hexact⟩
  obtain rfl := Option.some.inj hsome
  exact absurd hexact (by decide)

/-- In UTC+8 a quarter of a second before noon, an alarm for noon. -/
theorem noon_waits : (Alarm.activeTimer (oneshotAlarm.calculateNextLocalTimeSec ⟨43200, by decide⟩)
    { now := some { sec := 14399, usec := 750000 } }
    { state := .kInited, usingIndependTimezone := true, timezoneOffsetSeconds := 28800 }).2.WaitsExactly
      { sec := 14399, usec := 750000 } := by
  have hfound : oneshotAlarm.calculateNextLocalTimeSec ⟨43200, by decide⟩ (Alarm.nextLocalStartSec
      { state := .kInited, usingIndependTimezone := true, timezoneOffsetSeconds := 28800 }
      { now := some { sec := 14399, usec := 750000 } } 14399) = some 43200 := by decide +kernel
  exact (waitsExactly_iff_reaches rfl hfound).mpr (by decide +kernel)

end Tbox.Alarms
