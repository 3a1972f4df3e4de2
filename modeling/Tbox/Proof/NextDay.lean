import Tbox.Alarm.Kinds
import Tbox.Proof.CalendarWatch

/-!
# The next time an alarm is due

When a kind of alarm is due is a matter of the day and the time of the day, or of its cron expression. The loops find
the least such time after the one they are given, within their reach and 32 bits.
-/

open Option

namespace Tbox.Alarms

variable {ι υ σ ε : Type} {rounds i j : Nat} {curr nextLocalTs : UInt32} {willDo : Nat → Bool} {start n : Int}
  {seconds : TimeOfDay}

/-- The least time after the start that is due. -/
def IsNext (Due : Int → Prop) (start n : Int) : Prop := IsLeast { m | start < m ∧ Due m } n

structure Nature (σ : Type) where
  Due : σ → Int → Prop
  Sought : σ → Int → Int → Prop
  rejects : Bool

structure Kind.Follows (kind : Kind ι υ σ) (nature : Nature σ) : Prop where
  finds : ∀ (settings : σ) (start : UInt32) (n : Int), IsNext (nature.Due settings) start.toNat n →
    nature.Sought settings start.toNat n → n < 2 ^ 32 →
      kind.calculateNextLocalTimeSec settings start = some (UInt32.ofInt n)
  rejects : nature.rejects = true → ∀ (settings : σ) (start : UInt32),
    (∀ n : Int, start.toNat < n → nature.Sought settings start.toNat n → ¬nature.Due settings n) →
      kind.calculateNextLocalTimeSec settings start = none

def DueOn (seconds : TimeOfDay) (ok : Int → Bool) (n : Int) : Prop :=
  n % 86400 = seconds.val.toNat ∧ ok (n / 86400) = true

def Within (days : Nat) (start n : Int) : Prop := n / 86400 - start / 86400 < days

def oneshotNature : Nature TimeOfDay where
  Due seconds := DueOn seconds fun _ => true
  Sought _ _ _ := True
  rejects := false

/-- Day 0 was a Thursday. -/
def weeklyNature : Nature WeeklySettings where
  Due settings := DueOn settings.secondsOfDay fun day => settings.weekMask.toNat.testBit ((day + 4) % 7).toNat
  Sought _ := Within 8
  rejects := true

def workdayNature : Nature WorkdaySettings where
  Due settings := DueOn settings.alarm.secondsOfDay fun day => settings.alarm.workday == settings.days.isWorkay day
  Sought _ := Within 367
  rejects := true

theorem searchDays_of_first (hj : j < rounds) (hlt : curr < (· + kSecondsOfDay)^[j] nextLocalTs)
    (hwill : willDo (i + j) = true)
    (hfirst : ∀ k < j, ¬(curr < (· + kSecondsOfDay)^[k] nextLocalTs ∧ willDo (i + k) = true)) :
    searchDays willDo curr rounds i nextLocalTs = some ((· + kSecondsOfDay)^[j] nextLocalTs) := by
  induction j generalizing rounds i nextLocalTs with
  | zero =>
    cases rounds with
    | zero => exact absurd hj (Nat.lt_irrefl 0)
    | succ rounds =>
      rw [Function.iterate_zero_apply] at hlt ⊢
      rw [searchDays, if_pos ⟨hlt, hwill⟩]
  | succ j ih =>
    cases rounds with
    | zero => exact absurd hj (Nat.not_lt_zero _)
    | succ rounds =>
      have hnow : ¬(curr < nextLocalTs ∧ willDo i = true) := hfirst 0 (Nat.succ_pos j)
      rw [Function.iterate_succ_apply] at hlt ⊢
      rw [searchDays, if_neg hnow]
      refine ih (Nat.lt_of_succ_lt_succ hj) hlt ?_ fun k hk hboth => ?_
      · rwa [Nat.add_right_comm, Nat.add_assoc]
      · refine hfirst (k + 1) (Nat.succ_lt_succ hk) ?_
        rw [Function.iterate_succ_apply]
        rwa [Nat.add_right_comm, Nat.add_assoc] at hboth

theorem toNat_iterate (nextLocalTs : UInt32) (j : Nat) :
    ((· + kSecondsOfDay)^[j] nextLocalTs).toNat = (nextLocalTs.toNat + j * 86400) % 2 ^ 32 := by
  have hday : kSecondsOfDay.toNat = 86400 := rfl
  induction j with
  | zero =>
    rw [Function.iterate_zero_apply, Nat.zero_mul, Nat.add_zero]
    exact (Nat.mod_eq_of_lt nextLocalTs.toNat_lt).symm
  | succ j ih =>
    rw [Function.iterate_succ_apply', UInt32.toNat_add, ih, hday]
    omega

theorem toNat_secondsAt0000 (curr : UInt32) : (secondsAt0000 curr).toNat = curr.toNat - curr.toNat % 86400 := by
  have hmod : (curr % kSecondsOfDay).toNat = curr.toNat % 86400 := UInt32.toNat_mod _ _
  have hle : curr % kSecondsOfDay ≤ curr := by
    rw [UInt32.le_iff_toNat_le, hmod]
    exact Nat.mod_le _ _
  rw [secondsAt0000, UInt32.toNat_sub_of_le _ _ hle, hmod]

theorem toNat_ofDay (curr : UInt32) (seconds : TimeOfDay) (j : Nat) :
    ((· + kSecondsOfDay)^[j] (secondsAt0000 curr + seconds)).toNat =
      (curr.toNat / 86400 * 86400 + seconds.val.toNat + j * 86400) % 2 ^ 32 := by
  rw [toNat_iterate, UInt32.toNat_add, toNat_secondsAt0000]
  omega

theorem toNat_seconds_lt (seconds : TimeOfDay) : seconds.val.toNat < 86400 :=
  UInt32.lt_iff_toNat_lt.mp seconds.property

theorem toNat_ofInt (n : Int) : ((UInt32.ofInt n).toNat : Int) = n % 2 ^ 32 := by
  rw [UInt32.ofInt, UInt32.toNat_ofNat']
  omega

theorem searchDays_finds (ok : Int → Bool) (hwill : ∀ i, willDo i = ok ((curr.toNat / 86400 + i : Nat) : Int))
    (hnext : IsNext (DueOn seconds ok) curr.toNat n) (hwithin : Within rounds curr.toNat n) (hn : n < 2 ^ 32) :
    searchDays willDo curr rounds 0 (secondsAt0000 curr + seconds) = some (UInt32.ofInt n) := by
  obtain ⟨⟨hlater, hseconds, hok⟩, hleast⟩ := hnext
  have hlt := toNat_seconds_lt seconds
  obtain ⟨j, hj⟩ : ∃ j : Nat, n / 86400 = (curr.toNat / 86400 : Nat) + (j : Int) := by
    refine ⟨(n / 86400 - (curr.toNat / 86400 : Nat)).toNat, ?_⟩
    omega
  have hvalue : n = (curr.toNat / 86400 * 86400 + seconds.val.toNat + j * 86400 : Nat) := by
    omega
  have hfound : ((· + kSecondsOfDay)^[j] (secondsAt0000 curr + seconds)) = UInt32.ofInt n := by
    apply UInt32.toNat_inj.mp
    have hword := toNat_ofInt n
    rw [toNat_ofDay]
    omega
  rw [← hfound]
  apply searchDays_of_first
  · have hdays : n / 86400 - (curr.toNat : Int) / 86400 < rounds := hwithin
    omega
  · rw [UInt32.lt_iff_toNat_lt, toNat_ofDay]
    omega
  · rw [Nat.zero_add, hwill, Nat.cast_add, ← hj]
    exact hok
  rintro k hk ⟨hbefore, hwillk⟩
  rw [UInt32.lt_iff_toNat_lt, toNat_ofDay] at hbefore
  have hdue : n ≤ ((curr.toNat / 86400 * 86400 + seconds.val.toNat + k * 86400 : Nat) : Int) := by
    refine hleast ⟨by omega, by omega, ?_⟩
    rw [Nat.zero_add, hwill] at hwillk
    have hday : ((curr.toNat / 86400 * 86400 + seconds.val.toNat + k * 86400 : Nat) : Int) / 86400 =
        ((curr.toNat / 86400 + k : Nat) : Int) := by
      omega
    rwa [hday]
  omega

theorem searchDays_rejects (ok : Int → Bool) (hwill : ∀ i, willDo i = ok ((curr.toNat / 86400 + i : Nat) : Int))
    (hrounds : rounds ≤ 367) (hnone : ∀ n : Int, curr.toNat < n → Within rounds curr.toNat n → ¬DueOn seconds ok n) :
    searchDays willDo curr rounds 0 (secondsAt0000 curr + seconds) = none := by
  rw [← not_isSome_iff_eq_none, searchDays_isSome]
  rintro ⟨j, hj, hlater, hwillj⟩
  have hlt := toNat_seconds_lt seconds
  rw [UInt32.lt_iff_toNat_lt, toNat_ofDay] at hlater
  rw [Nat.zero_add, hwill] at hwillj
  have hday : ((curr.toNat / 86400 * 86400 + seconds.val.toNat + j * 86400 : Nat) : Int) / 86400 =
      ((curr.toNat / 86400 + j : Nat) : Int) := by
    omega
  refine hnone ((curr.toNat / 86400 * 86400 + seconds.val.toNat + j * 86400 : Nat) : Int) ?_ ?_ ⟨by omega, ?_⟩
  · have hword : curr.toNat < 2 ^ 32 := curr.toNat_lt
    omega
  · rw [Within, hday]
    omega
  · rwa [hday]

/-- A one-shot alarm finds the next time that has its second of the day. -/
theorem oneshotAlarm_follows : oneshotAlarm.Follows oneshotNature := by
  refine ⟨fun seconds start n hnext _ hn => ?_, fun h => Bool.noConfusion h⟩
  obtain ⟨⟨hlater, hseconds, -⟩, hleast⟩ := hnext
  have hlt := toNat_seconds_lt seconds
  have hword : ((UInt32.ofInt n).toNat : Int) = n % 2 ^ 32 := toNat_ofInt n
  have hstart : start.toNat < 2 ^ 32 := start.toNat_lt
  have htoday := toNat_ofDay start seconds 0
  have htomorrow := toNat_ofDay start seconds 1
  rw [Function.iterate_zero_apply] at htoday
  rw [Function.iterate_one] at htomorrow
  apply congrArg some
  by_cases hpast : start.toNat / 86400 * 86400 + seconds.val.toNat ≤ start.toNat
  · -- that of the next day
    have hsoon : n ≤ ((start.toNat / 86400 * 86400 + seconds.val.toNat + 86400 : Nat) : Int) :=
      hleast ⟨by omega, by omega, rfl⟩
    have hvalue : n = ((start.toNat / 86400 * 86400 + seconds.val.toNat + 86400 : Nat) : Int) := by
      omega
    have hle : secondsAt0000 start + seconds ≤ start := by
      rw [UInt32.le_iff_toNat_le, htoday]
      omega
    apply UInt32.toNat_inj.mp
    rw [if_pos hle, htomorrow]
    omega
  · have hnow : n ≤ ((start.toNat / 86400 * 86400 + seconds.val.toNat : Nat) : Int) :=
      hleast ⟨by omega, by omega, rfl⟩
    have hvalue : n = ((start.toNat / 86400 * 86400 + seconds.val.toNat : Nat) : Int) := by
      omega
    have hlater : ¬secondsAt0000 start + seconds ≤ start := by
      rw [UInt32.le_iff_toNat_le, htoday]
      omega
    apply UInt32.toNat_inj.mp
    rw [if_neg hlater, htoday]
    omega

/-- The search over the days of a week finds the least time that the mask allows. -/
theorem weeklyAlarm_follows : weeklyAlarm.Follows weeklyNature := by
  have hweek : ∀ (start : UInt32) (i : Nat), (i + ((start % kSecondsOfWeek / kSecondsOfDay + 4) % 7).toNat) % 7 =
        ((((start.toNat / 86400 + i : Nat) : Int) + 4) % 7).toNat := by
    intro start i
    have hweek : kSecondsOfWeek.toNat = 604800 := rfl
    have hday : kSecondsOfDay.toNat = 86400 := rfl
    have h4 : (4 : UInt32).toNat = 4 := rfl
    have h7 : (7 : UInt32).toNat = 7 := rfl
    rw [UInt32.toNat_mod, UInt32.toNat_add, UInt32.toNat_div, UInt32.toNat_mod, hweek, hday, h4, h7]
    omega
  constructor
  · intro settings start n hnext hsought hn
    exact searchDays_finds (fun day => settings.weekMask.toNat.testBit ((day + 4) % 7).toNat)
      (fun i => congrArg _ (hweek start i)) hnext hsought hn
  · intro _ settings start hnone
    exact searchDays_rejects (fun day => settings.weekMask.toNat.testBit ((day + 4) % 7).toNat)
      (fun i => congrArg _ (hweek start i)) (by decide) hnone

theorem workdayAlarm_follows : workdayAlarm.Follows workdayNature := by
  have hday : ∀ (start : UInt32) (i : Nat),
      ((start / kSecondsOfDay).toNat : Int) + (i : Int) = ((start.toNat / 86400 + i : Nat) : Int) := by
    intro start i
    rw [UInt32.toNat_div]
    exact (Nat.cast_add _ _).symm
  have hwill : ∀ (settings : WorkdaySettings) (start : UInt32) (i : Nat),
      (settings.alarm.workday == settings.days.isWorkay (((start / kSecondsOfDay).toNat : Int) + (i : Int))) =
        (settings.alarm.workday == settings.days.isWorkay ((start.toNat / 86400 + i : Nat) : Int)) := by
    intro settings start i
    rw [hday]
  constructor
  · intro settings start n hnext hsought hn
    exact searchDays_finds (fun day => settings.alarm.workday == settings.days.isWorkay day)
      (hwill settings start) hnext hsought hn
  · intro _ settings start hnone
    exact searchDays_rejects (fun day => settings.alarm.workday == settings.days.isWorkay day)
      (hwill settings start) (by decide) hnone

/-- An alarm of cron looks where `cron_next` has the right answer. It is asked nowhere else. -/
def cronNature (cron : Cron ε) (Due : ε → Int → Prop) : Nature ε where
  Due := Due
  Sought expr start n := ∀ curr : UInt32, (curr.toNat : Int) = start → cron.next expr curr = n
  rejects := false

theorem cronAlarm_follows (cron : Cron ε) (Due : ε → Int → Prop) : (cronAlarm cron).Follows (cronNature cron Due) := by
  refine ⟨fun expr start n _ hsought _ => ?_, fun h => Bool.noConfusion h⟩
  exact congrArg (fun date => some (UInt32.ofInt date)) (hsought start rfl)

/-! ### The next occurrence

What the loops return is the least time that is due, and they return nothing exactly if nothing is due as far as they
look. -/

section NextOccurrence

variable {ι υ σ : Type} {kind : Kind ι υ σ} {nature : Nature σ} {Due : Int → Prop} {start n m : Int}
  {curr : UInt32} {days : Nat}

theorem exists_isNext (hlater : start < m) (hdue : Due m) : ∃ n ≤ m, IsNext Due start n := by
  have hbounded : ∃ b, ∀ k, start < k ∧ Due k → b ≤ k := ⟨start, fun _ hk => hk.1.le⟩
  obtain ⟨n, hn, hleast⟩ := Int.exists_least_of_bdd hbounded ⟨m, hlater, hdue⟩
  exact ⟨n, hleast m ⟨hlater, hdue⟩, hn, fun k hk => hleast k hk⟩

theorem lt_of_within (hyear : curr.toNat + 367 * 86400 < 2 ^ 32) (hdays : days ≤ 367)
    (hwithin : Within days curr.toNat n) : n < 2 ^ 32 := by
  rw [Within] at hwithin
  omega

structure Nature.SeeksWithin (nature : Nature σ) (days : Nat) : Prop where
  sought : nature.Sought = fun _ => Within days
  rejects : nature.rejects = true

/-- **A kind that looks through so many days** finds the next time, and nothing exactly if nothing is due by then. -/
theorem Kind.Follows.next (h : kind.Follows nature) (hseeks : nature.SeeksWithin days) (hdays : days ≤ 367)
    (hyear : curr.toNat + 367 * 86400 < 2 ^ 32) (settings : σ) :
    (∀ found, kind.calculateNextLocalTimeSec settings curr = some found →
        IsNext (nature.Due settings) curr.toNat found.toNat ∧ Within days curr.toNat found.toNat) ∧
      (kind.calculateNextLocalTimeSec settings curr = none ↔
        ∀ n : Int, curr.toNat < n → Within days curr.toNat n → ¬nature.Due settings n) := by
  -- a time that is due is found, or an earlier one
  have hfinds : ∀ m : Int, curr.toNat < m → Within days curr.toNat m → nature.Due settings m →
      ∃ n : Int, IsNext (nature.Due settings) curr.toNat n ∧ Within days curr.toNat n ∧
        kind.calculateNextLocalTimeSec settings curr = some (UInt32.ofInt n) ∧ n < 2 ^ 32 := by
    intro m hlater hwithin hdue
    obtain ⟨n, hle, hnext⟩ := exists_isNext hlater hdue
    have hwithin' : Within days curr.toNat n := by
      rw [Within] at hwithin ⊢
      omega
    have hsought : nature.Sought settings curr.toNat n := by
      rw [hseeks.sought]
      exact hwithin'
    have h32 := lt_of_within hyear hdays hwithin'
    exact ⟨n, hnext, hwithin', h.finds settings curr n hnext hsought h32, h32⟩
  have hrejects : (∀ n : Int, curr.toNat < n → Within days curr.toNat n → ¬nature.Due settings n) →
      kind.calculateNextLocalTimeSec settings curr = none := by
    intro hnone
    apply h.rejects hseeks.rejects
    rw [hseeks.sought]
    exact hnone
  constructor
  · intro found hfound
    by_contra hnot
    have hnone : kind.calculateNextLocalTimeSec settings curr = none := by
      apply hrejects
      intro m hlater hwithin hdue
      obtain ⟨n, hnext, hwithin', hsame, h32⟩ := hfinds m hlater hwithin hdue
      have hvalue : (found.toNat : Int) = n := by
        rw [some.inj (hfound.symm.trans hsame), toNat_ofInt]
        exact Int.emod_eq_of_lt (hnext.1.1.le.trans' (Int.natCast_nonneg _)) h32
      exact hnot (hvalue ▸ ⟨hnext, hwithin'⟩)
    cases hfound.symm.trans hnone
  · constructor
    · intro hnone m hlater hwithin hdue
      obtain ⟨n, -, -, hsame, -⟩ := hfinds m hlater hwithin hdue
      cases hnone.symm.trans hsame
    · exact hrejects

theorem weeklyNature_seeks : weeklyNature.SeeksWithin 8 := ⟨rfl, rfl⟩

theorem workdayNature_seeks : workdayNature.SeeksWithin 367 := ⟨rfl, rfl⟩

theorem weekly_none_iff (settings : WeeklySettings) (curr : Int) :
    (∀ n : Int, curr < n → Within 8 curr n → ¬weeklyNature.Due settings n) ↔
      ∀ w < 7, settings.weekMask.toNat.testBit w = false := by
  have hlt := toNat_seconds_lt settings.secondsOfDay
  constructor
  · intro hnone w hw
    -- the day `w` of those from tomorrow on
    have hday : ((curr / 86400 + 1 + (w - (curr / 86400 + 5)) % 7 + 4) % 7).toNat = w := by omega
    apply Bool.eq_false_of_not_eq_true
    intro hbit
    apply hnone ((curr / 86400 + 1 + (w - (curr / 86400 + 5)) % 7) * 86400 + settings.secondsOfDay.val.toNat)
    · omega
    · rw [Within]
      omega
    refine ⟨by omega, ?_⟩
    have hindex :
        ((curr / 86400 + 1 + (w - (curr / 86400 + 5)) % 7) * 86400 + settings.secondsOfDay.val.toNat : Int) / 86400 =
          curr / 86400 + 1 + (w - (curr / 86400 + 5)) % 7 := by omega
    dsimp only
    rw [hindex, hday]
    exact hbit
  · intro hempty n _ _ hdue
    have hbit := hdue.2
    dsimp only at hbit
    rw [hempty _ (by omega)] at hbit
    cases hbit

theorem oneshotAlarm_next (seconds : TimeOfDay) (hyear : curr.toNat + 367 * 86400 < 2 ^ 32) :
    ∃ found, oneshotAlarm.calculateNextLocalTimeSec seconds curr = some found ∧
      IsNext (oneshotNature.Due seconds) curr.toNat found.toNat := by
  have hlt := toNat_seconds_lt seconds
  have hdue : oneshotNature.Due seconds ((curr.toNat / 86400 + 1) * 86400 + seconds.val.toNat : Nat) :=
    ⟨by omega, rfl⟩
  obtain ⟨n, hle, hnext⟩ := exists_isNext (show (curr.toNat : Int) < _ by omega) hdue
  have h32 : n < 2 ^ 32 := by omega
  refine ⟨UInt32.ofInt n, oneshotAlarm_follows.finds seconds curr n hnext trivial h32, ?_⟩
  have hvalue : ((UInt32.ofInt n).toNat : Int) = n := by
    rw [toNat_ofInt]
    exact Int.emod_eq_of_lt (hnext.1.1.le.trans' (Int.natCast_nonneg _)) h32
  rw [hvalue]
  exact hnext

/-- **The next occurrence is the least one** for the three kinds, and is missed only where there is none within their
search. -/
theorem nextOccurrence_isLeast (hyear : curr.toNat + 367 * 86400 < 2 ^ 32) :
    (∀ seconds, ∃ found, oneshotAlarm.calculateNextLocalTimeSec seconds curr = some found ∧
      IsNext (oneshotNature.Due seconds) curr.toNat found.toNat) ∧
    (∀ settings, (∀ found, weeklyAlarm.calculateNextLocalTimeSec settings curr = some found →
        IsNext (weeklyNature.Due settings) curr.toNat found.toNat) ∧
      (weeklyAlarm.calculateNextLocalTimeSec settings curr = none ↔
        ∀ w < 7, settings.weekMask.toNat.testBit w = false)) ∧
    ∀ settings, (∀ found, workdayAlarm.calculateNextLocalTimeSec settings curr = some found →
        IsNext (workdayNature.Due settings) curr.toNat found.toNat) ∧
      (workdayAlarm.calculateNextLocalTimeSec settings curr = none ↔
        ∀ n : Int, curr.toNat < n → n / 86400 ≤ curr.toNat / 86400 + 366 → ¬workdayNature.Due settings n) := by
  refine ⟨fun seconds => oneshotAlarm_next seconds hyear, fun settings => ?_, fun settings => ?_⟩
  · obtain ⟨hleast, hnone⟩ := weeklyAlarm_follows.next weeklyNature_seeks (by decide) hyear settings
    exact ⟨fun found hfound => (hleast found hfound).1, hnone.trans (weekly_none_iff settings curr.toNat)⟩
  · obtain ⟨hleast, hnone⟩ := workdayAlarm_follows.next workdayNature_seeks le_rfl hyear settings
    refine ⟨fun found hfound => (hleast found hfound).1, hnone.trans (forall₂_congr fun n _ => ?_)⟩
    rw [Within]
    exact imp_congr_left ⟨fun h => by omega, fun h => by omega⟩

/-- Ten in the morning from Monday to Friday, of a Tuesday evening. -/
theorem tuesdayEvening_next :
    IsNext (weeklyNature.Due { secondsOfDay := ⟨36000, by decide⟩, weekMask := 0x3e }) 1700000000 1700042400 :=
  have hyear : (1700000000 : UInt32).toNat + 367 * 86400 < 2 ^ 32 := by decide
  ((nextOccurrence_isLeast hyear).2.1 { secondsOfDay := ⟨36000, by decide⟩, weekMask := 0x3e }).1 1700042400
    (by decide +kernel)

end NextOccurrence

end Tbox.Alarms
