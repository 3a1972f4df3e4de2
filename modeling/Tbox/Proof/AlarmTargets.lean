import Tbox.Proof.NextDay

/-!
# What an alarm is armed for

An alarm goes on from its last target, so that it does not fire twice when the clock lags. Only a refresh and a
cleanup forget it: an alarm that is disabled and enabled again before it would have fired skips it.
-/

open List Option

namespace Tbox.Alarms

open Lib (run Along)

variable {ι υ σ ε : Type} {kind : Kind ι υ σ} {nature : Nature σ} {w t : Career σ} {alarm : Alarm} {clock : Clock}
  {now : Reading} {settings : σ} {call : Call ι υ}

def Look.Right (nature : Nature σ) (look : Look σ) (start : Nat) : Prop :=
  match look.found with
  | some (target, delay) =>
    IsNext (nature.Due look.settings) (start + look.offset) (target + look.offset) ∧
      (delay : Int) = (target - look.now.sec.toNat) * 1000 - (look.now.usec.val / 1000 : Nat)
  | none => ∀ n : Int, start + look.offset < n → nature.Sought look.settings (start + look.offset) n →
      ¬nature.Due look.settings n

namespace Event

/-- What the alarm is armed for afterwards. -/
def target : Event σ → Option Nat
  | .enabled look => look.found.map Prod.fst
  | .refreshed look => look.found.map Prod.fst
  | .fired _ look => look.bind fun look => look.found.map Prod.fst
  | .stopped => none

def Right (kind : Kind ι υ σ) (nature : Nature σ) : Event σ → Prop
  | .enabled look => look.found.isSome = true ∧ look.Right nature look.now.sec.toNat
  | .refreshed look => look.Right nature look.now.sec.toNat
  | .fired target (some look) => look.Right nature (max target look.now.sec.toNat)
  | .fired _ none => kind.repeats = false
  | .stopped => True

def Leads (event : Event σ) : Event σ → Prop
  | .fired target _ => event.target = some target
  | _ => True

def SkipsNone (nature : Nature σ) : Event σ → Event σ → Prop
  | .fired first (some look), .fired second _ => ∀ m : Int,
      first + look.offset < m → m < second + look.offset → nature.Due look.settings m →
        m ≤ look.now.sec.toNat + look.offset
  | _, _ => True

end Event

/-- The whole log of an alarm. -/
structure OnTarget (kind : Kind ι υ σ) (nature : Nature σ) (log : List (Event σ)) : Prop where
  right : ∀ event ∈ log, event.Right kind nature
  leads : log.IsChain Event.Leads
  neverTwice : ∀ firings : List (Nat × Option (Look σ)),
    (firings.map fun firing => Event.fired firing.1 firing.2) <:+: log → (firings.map Prod.fst).Pairwise (· < ·)
  skipsNone : log.IsChain (Event.SkipsNone nature)

structure Nature.Arms (nature : Nature σ) (settings : σ) (zone : Int) (start now : Nat) (n : Int) : Prop where
  next : IsNext (nature.Due settings) (start + zone) n
  sought : nature.Sought settings (start + zone) n
  local32 : n < 2 ^ 32
  utc32 : n - zone < 2 ^ 32
  delay32 : (n - zone - now) * 1000 < 2 ^ 32

def Nature.InReach (nature : Nature σ) (settings : σ) (zone : Int) (start now : Nat) : Prop :=
  0 ≤ start + zone ∧ start + zone < 2 ^ 32 ∧
    ((∃ n, nature.Arms settings zone start now n) ∨
      nature.rejects = true ∧ ∀ n : Int, start + zone < n → nature.Sought settings (start + zone) n →
        ¬nature.Due settings n)

/-- Nothing is due up to the target left from before, the clock can be read, and what is looked for is in reach. -/
def Kind.Heeds (kind : Kind ι υ σ) (nature : Nature σ) (w : Career σ) : Call ι υ → Prop
  | .enable clock => w.alarm.state = .kInited → ∀ now, clock.now = some now →
      (∀ m : Int, now.sec.toNat + (w.alarm.offset clock).toInt < m →
        m ≤ w.alarm.targetUtcSec.toNat + (w.alarm.offset clock).toInt → ¬nature.Due w.settings m) ∧
      nature.InReach w.settings (w.alarm.offset clock).toInt (max now.sec w.alarm.targetUtcSec).toNat now.sec.toNat
  | .refresh clock => w.alarm.state = .kRunning → ∀ now, clock.now = some now →
      nature.InReach w.settings (w.alarm.offset clock).toInt now.sec.toNat now.sec.toNat
  | .change change clock => w.alarm.state = .kRunning → ∀ now, clock.now = some now →
      nature.InReach (kind.changes change w.settings) (w.alarm.offset clock).toInt now.sec.toNat now.sec.toNat
  | .expire clock => kind.repeats = true → ∃ now, clock.now = some now ∧
      nature.InReach w.settings (w.alarm.offset clock).toInt (max now.sec w.alarm.targetUtcSec).toNat now.sec.toNat
  | _ => True

theorem toNat_max (a b : UInt32) : (max a b).toNat = max a.toNat b.toNat := by
  change (if a ≤ b then b else a).toNat = max a.toNat b.toNat
  split
  case isTrue hle => exact (Nat.max_eq_right (UInt32.le_iff_toNat_le.mp hle)).symm
  case isFalse hlt => exact (Nat.max_eq_left (Nat.le_of_lt (UInt32.lt_iff_toNat_lt.mp (UInt32.not_le.mp hlt)))).symm

theorem toNat_add_offset {a : UInt32} {offset : Int32} (hlow : 0 ≤ (a.toNat : Int) + offset.toInt)
    (hhigh : (a.toNat : Int) + offset.toInt < 2 ^ 32) :
    ((a + offset.toUInt32).toNat : Int) = a.toNat + offset.toInt := by
  have heq := toInt_eq offset
  rw [UInt32.toNat_add]
  split at heq <;> omega

theorem toNat_sub_offset {n : Int} {offset : Int32} (hlow : 0 ≤ n - offset.toInt) (hhigh : n - offset.toInt < 2 ^ 32) :
    ((UInt32.ofInt n - offset.toUInt32).toNat : Int) = n - offset.toInt := by
  have heq := toInt_eq offset
  have hword := toNat_ofInt n
  have hoffset := offset.toUInt32.toNat_lt
  rw [UInt32.toNat_sub]
  split at heq <;> omega

theorem toNat_delay_mod (now : Reading) (target : UInt32) :
    (((target - now.sec) * 1000 - now.usec.val.toUInt32 / 1000).toNat : Int) =
      ((target.toNat - now.sec.toNat) * 1000 - (now.usec.val / 1000 : Nat) : Int) % 2 ^ 32 := by
  have husec : now.usec.val < 1000000 := now.usec.isLt
  have hsec : now.sec.toNat < 2 ^ 32 := now.sec.toNat_lt
  have htarget : target.toNat < 2 ^ 32 := target.toNat_lt
  have hthousand : (1000 : UInt32).toNat = 1000 := rfl
  have hword : now.usec.val.toUInt32.toNat = now.usec.val := by
    rw [UInt32.toNat_ofNat']
    omega
  rw [UInt32.toNat_sub, UInt32.toNat_mul, UInt32.toNat_sub, UInt32.toNat_div, hword, hthousand]
  omega

theorem toNat_delay {target : UInt32} (hlater : now.sec.toNat < target.toNat)
    (hdelay : ((target.toNat : Int) - now.sec.toNat) * 1000 < 2 ^ 32) :
    (((target - now.sec) * 1000 - now.usec.val.toUInt32 / 1000).toNat : Int) =
      (target.toNat - now.sec.toNat) * 1000 - (now.usec.val / 1000 : Nat) := by
  have husec : now.usec.val < 1000000 := now.usec.isLt
  rw [toNat_delay_mod]
  omega

theorem activeTimer_of_arms (hfollows : kind.Follows nature) (hnow : clock.now = some now) {n : Int}
    (hlow : 0 ≤ ((max now.sec alarm.targetUtcSec).toNat : Int) + (alarm.offset clock).toInt)
    (hhigh : ((max now.sec alarm.targetUtcSec).toNat : Int) + (alarm.offset clock).toInt < 2 ^ 32)
    (harms : nature.Arms settings (alarm.offset clock).toInt (max now.sec alarm.targetUtcSec).toNat now.sec.toNat n) :
    ∃ target delay : UInt32, alarm.activeTimer (kind.calculateNextLocalTimeSec settings) clock =
        (true, { alarm with timer := some delay, state := .kRunning, targetUtcSec := target }) ∧
      (target.toNat : Int) + (alarm.offset clock).toInt = n ∧
      (delay.toNat : Int) = (target.toNat - now.sec.toNat) * 1000 - (now.usec.val / 1000 : Nat) := by
  obtain ⟨⟨⟨hlater, hdue⟩, hleast⟩, hsought, hlocal, hutc, hdelay⟩ := harms
  have hstart : ((alarm.nextLocalStartSec clock now.sec).toNat : Int) =
      (max now.sec alarm.targetUtcSec).toNat + (alarm.offset clock).toInt := toNat_add_offset hlow hhigh
  have hfound : kind.calculateNextLocalTimeSec settings (alarm.nextLocalStartSec clock now.sec) =
      some (UInt32.ofInt n) := by
    apply hfollows.finds
    · rw [hstart]
      exact ⟨⟨hlater, hdue⟩, hleast⟩
    · rw [hstart]
      exact hsought
    · exact hlocal
  have hmax : now.sec.toNat ≤ (max now.sec alarm.targetUtcSec).toNat := by
    rw [toNat_max]
    exact Nat.le_max_left _ _
  have htarget : ((UInt32.ofInt n - (alarm.offset clock).toUInt32).toNat : Int) = n - (alarm.offset clock).toInt :=
    toNat_sub_offset (by omega) hutc
  refine ⟨UInt32.ofInt n - (alarm.offset clock).toUInt32,
    (UInt32.ofInt n - (alarm.offset clock).toUInt32 - now.sec) * 1000 - now.usec.val.toUInt32 / 1000, ?_, by omega, ?_⟩
  · rw [Alarm.activeTimer, hnow]
    dsimp only
    rw [hfound]
  · apply toNat_delay <;> omega

theorem activeTimer_right (hfollows : kind.Follows nature) (hnow : clock.now = some now)
    (hstate : alarm.state ≠ .kRunning)
    (hreach : nature.InReach settings (alarm.offset clock).toInt (max now.sec alarm.targetUtcSec).toNat now.sec.toNat) :
    ∃ look, Career.look settings clock (alarm.activeTimer (kind.calculateNextLocalTimeSec settings) clock).2 =
      some look ∧ look.now = now ∧ look.settings = settings ∧ look.offset = (alarm.offset clock).toInt ∧
      look.Right nature (max now.sec alarm.targetUtcSec).toNat ∧ ((∃ target delay : UInt32,
        alarm.activeTimer (kind.calculateNextLocalTimeSec settings) clock =
          (true, { alarm with timer := some delay, state := .kRunning, targetUtcSec := target }) ∧
        look.found = some (target.toNat, delay.toNat)) ∨
      alarm.activeTimer (kind.calculateNextLocalTimeSec settings) clock = (false, alarm) ∧ look.found = none) := by
  obtain ⟨hlow, hhigh, ⟨n, harms⟩ | ⟨hrejects, hnone⟩⟩ := hreach
  · obtain ⟨target, delay, hactive, htarget, hdelay⟩ := activeTimer_of_arms hfollows hnow hlow hhigh harms
    refine ⟨⟨settings, (alarm.offset clock).toInt, now, some (target.toNat, delay.toNat)⟩, ?_, rfl, rfl, rfl,
      ⟨?_, hdelay⟩, .inl ⟨target, delay, hactive, rfl⟩⟩
    · rw [hactive, Career.look, hnow]
      rfl
    · rw [htarget]
      exact harms.next
  · have hstart : ((alarm.nextLocalStartSec clock now.sec).toNat : Int) =
        (max now.sec alarm.targetUtcSec).toNat + (alarm.offset clock).toInt := toNat_add_offset hlow hhigh
    have hrejected : kind.calculateNextLocalTimeSec settings (alarm.nextLocalStartSec clock now.sec) = none := by
      apply hfollows.rejects hrejects
      rw [hstart]
      exact hnone
    have hactive : alarm.activeTimer (kind.calculateNextLocalTimeSec settings) clock = (false, alarm) := by
      rw [Alarm.activeTimer, hnow]
      dsimp only
      rw [hrejected]
    refine ⟨⟨settings, (alarm.offset clock).toInt, now, none⟩, ?_, rfl, rfl, rfl, hnone, .inr ⟨hactive, rfl⟩⟩
    rw [hactive, Career.look, hnow, if_neg hstate]
    rfl

theorem Look.Right.sooner {look : Look σ} {start sooner : Nat} (h : look.Right nature start) (hle : sooner ≤ start)
    (hnone : ∀ m : Int, sooner + look.offset < m → m ≤ start + look.offset → ¬nature.Due look.settings m)
    (hfound : look.found.isSome = true) : look.Right nature sooner := by
  obtain ⟨⟨target, delay⟩, hsome⟩ := isSome_iff_exists.mp hfound
  rw [Look.Right, hsome] at h ⊢
  obtain ⟨⟨⟨hlater, hdue⟩, hleast⟩, hdelay⟩ := h
  refine ⟨⟨⟨by omega, hdue⟩, ?_⟩, hdelay⟩
  rintro m ⟨hm, hduem⟩
  refine hleast ⟨not_le.mp fun hbefore => hnone m hm hbefore hduem, hduem⟩

structure Aimed (kind : Kind ι υ σ) (nature : Nature σ) (w : Career σ) : Prop where
  right : ∀ event ∈ w.log, event.Right kind nature
  leads : w.log.IsChain Event.Leads
  waits : w.alarm.timer ≠ none → w.alarm.state = .kRunning
  target : w.alarm.state = .kRunning →
    ∃ event, w.log.getLast? = some event ∧ event.target = some w.alarm.targetUtcSec.toNat

namespace Aimed

theorem timer_eq_none (h : Aimed kind nature w) (hstate : w.alarm.state ≠ .kRunning) : w.alarm.timer = none :=
  Classical.not_not.mp fun htimer => hstate (h.waits htimer)

theorem quiet (h : Aimed kind nature w) (hlog : t.log = w.log)
    (htimer : t.alarm.timer ≠ none → t.alarm.state = .kRunning) (htarget : t.alarm.state = .kRunning →
      w.alarm.state = .kRunning ∧ t.alarm.targetUtcSec = w.alarm.targetUtcSec) : Aimed kind nature t := by
  refine ⟨hlog ▸ h.right, hlog ▸ h.leads, htimer, fun hstate => ?_⟩
  obtain ⟨hrunning, hsame⟩ := htarget hstate
  rw [hlog, hsame]
  exact h.target hrunning

theorem logged (h : Aimed kind nature w) (event : Event σ) (hright : event.Right kind nature)
    (hleads : ∀ last, w.log.getLast? = some last → last.Leads event)
    (htimer : alarm.timer ≠ none → alarm.state = .kRunning)
    (htarget : alarm.state = .kRunning → event.target = some alarm.targetUtcSec.toNat) :
    Aimed kind nature (w.became alarm [event]) := by
  refine ⟨?_, ?_, htimer, fun hstate => ⟨event, List.getLast?_concat, htarget hstate⟩⟩
  · intro other hother
    rcases mem_append.mp hother with hold | hnew
    · exact h.right other hold
    · rw [mem_singleton.mp hnew]
      exact hright
  · apply isChain_append.mpr
    refine ⟨h.leads, isChain_singleton event, ?_⟩
    rintro last hlast first hfirst
    obtain rfl : event = first := some.inj hfirst
    exact hleads last hlast

theorem searched (h : Aimed kind nature w) (event : Event σ) (hright : event.Right kind nature)
    (hleads : ∀ last, w.log.getLast? = some last → last.Leads event)
    (hstate : alarm.state ≠ .kRunning) (htimer : alarm.timer = none) {active : Bool × Alarm} {found : Option (Nat × Nat)}
    (hcases : (∃ target delay : UInt32,
        active = (true, { alarm with timer := some delay, state := .kRunning, targetUtcSec := target }) ∧
        found = some (target.toNat, delay.toNat)) ∨ active = (false, alarm) ∧ found = none)
    (hevent : event.target = found.map Prod.fst) : Aimed kind nature (w.became active.2 [event]) := by
  apply h.logged event hright hleads
  · obtain ⟨target, delay, rfl, -⟩ | ⟨rfl, -⟩ := hcases
    · exact fun _ => rfl
    · exact fun hset => absurd htimer hset
  · obtain ⟨target, delay, rfl, hfound⟩ | ⟨rfl, -⟩ := hcases
    · exact fun _ => hevent.trans (congrArg (Option.map Prod.fst) hfound)
    · exact fun hset => absurd hset hstate

theorem stopped (h : Aimed kind nature w) (hstate : alarm.state ≠ .kRunning) (htimer : alarm.timer = none) :
    Aimed kind nature (w.became alarm [.stopped]) :=
  h.logged .stopped trivial (fun _ _ => trivial) (fun hset => absurd htimer hset) fun hrunning => absurd hrunning hstate

theorem became_nil (h : Aimed kind nature w) (hstate : alarm.state ≠ .kRunning) (htimer : alarm.timer = none) :
    Aimed kind nature (w.became alarm []) :=
  h.quiet (append_nil _) (fun hset => absurd htimer hset) fun hrunning => absurd hrunning hstate

theorem became_self (h : Aimed kind nature w) : Aimed kind nature (w.became w.alarm []) :=
  h.quiet (append_nil _) h.waits fun hstate => ⟨hstate, rfl⟩

theorem enable (hfollows : kind.Follows nature) (h : Aimed kind nature w) (hheeds : kind.Heeds nature w (.enable clock))
    (hstep : kind.step w (.enable clock) = some t) : Aimed kind nature t := by
  have ht : t = w.became (w.alarm.enable (kind.calculateNextLocalTimeSec w.settings) clock).2
      (if (w.alarm.enable (kind.calculateNextLocalTimeSec w.settings) clock).1 then
        ((Career.look w.settings clock
          (w.alarm.enable (kind.calculateNextLocalTimeSec w.settings) clock).2).map .enabled).toList
      else []) := (some.inj hstep).symm
  rw [ht, Alarm.enable]
  by_cases hinited : w.alarm.state = .kInited
  · rw [if_pos hinited]
    have hstopped : w.alarm.state ≠ .kRunning := by
      rw [hinited]
      exact State.noConfusion
    cases hnow : clock.now with
    | none =>
      rw [Alarm.activeTimer, hnow]
      exact h.became_self
    | some now =>
      obtain ⟨hnone, hreach⟩ := hheeds hinited now hnow
      obtain ⟨look, hlook, hsec, hsettings, hoffset, hright, hcases⟩ :=
        activeTimer_right hfollows hnow hstopped hreach
      obtain ⟨target, delay, hactive, hfound⟩ | ⟨hactive, -⟩ := hcases
      · have hsome : look.found.isSome = true := by
          rw [hfound]
          rfl
        rw [hlook, hactive]
        refine h.logged (.enabled look) ⟨hsome, ?_⟩ (fun _ _ => trivial) (fun _ => rfl) fun _ => ?_
        · apply hright.sooner
          · rw [hsec, toNat_max]
            exact Nat.le_max_left _ _
          · intro m hlater hbefore
            rw [hsec, hoffset] at hlater
            rw [hoffset, toNat_max] at hbefore
            rw [hsettings]
            apply hnone m hlater
            omega
          · exact hsome
        · exact congrArg (Option.map Prod.fst) hfound
      · rw [hactive]
        exact h.became_self
  · rw [if_neg hinited]
    exact h.became_self

theorem refresh (hfollows : kind.Follows nature) (h : Aimed kind nature w)
    (hreach : w.alarm.state = .kRunning → ∀ now, clock.now = some now →
      nature.InReach w.settings (w.alarm.offset clock).toInt now.sec.toNat now.sec.toNat) :
    Aimed kind nature (w.refresh kind clock) := by
  rw [Career.refresh, Alarm.refresh]
  by_cases hrunning : w.alarm.state = .kRunning
  · rw [if_pos hrunning, if_pos hrunning]
    cases hnow : clock.now with
    | none =>
      rw [Alarm.activeTimer, hnow, Career.look, hnow]
      exact h.became_nil State.noConfusion rfl
    | some now =>
      have hmax : (max now.sec 0).toNat = now.sec.toNat := by
        rw [toNat_max]
        exact Nat.max_zero _
      have hfrom : nature.InReach w.settings (w.alarm.offset clock).toInt (max now.sec 0).toNat now.sec.toNat := by
        rw [hmax]
        exact hreach hrunning now hnow
      have hidle : ({ w.alarm with state := .kInited, timer := none, targetUtcSec := 0 } : Alarm).state ≠ .kRunning :=
        State.noConfusion
      obtain ⟨look, hlook, hsec, -, -, hright, hcases⟩ := activeTimer_right hfollows hnow hidle hfrom
      rw [hlook]
      rw [hmax, ← hsec] at hright
      exact h.searched (.refreshed look) hright (fun _ _ => trivial) hidle rfl hcases rfl
  · rw [if_neg hrunning, if_neg hrunning]
    exact h.became_self

theorem expire (hfollows : kind.Follows nature) (h : Aimed kind nature w) (hheeds : kind.Heeds nature w (.expire clock))
    (hstep : kind.step w (.expire clock) = some t) : Aimed kind nature t := by
  rw [Kind.step] at hstep
  by_cases htimer : w.alarm.timer = none
  · rw [if_pos htimer] at hstep
    cases hstep
  rw [if_neg htimer] at hstep
  obtain ⟨last, hlast, htarget⟩ := h.target (h.waits htimer)
  have hleads : ∀ look, ∀ other, w.log.getLast? = some other →
      other.Leads (.fired w.alarm.targetUtcSec.toNat look) := by
    intro look other hother
    obtain rfl : last = other := some.inj (hlast.symm.trans hother)
    exact htarget
  cases hrepeats : kind.repeats with
  | false =>
    rw [hrepeats] at hstep
    cases hstep
    exact h.logged _ hrepeats (hleads none) (fun hset => absurd rfl hset) fun hset => State.noConfusion hset
  | true =>
    rw [hrepeats] at hstep
    cases hstep
    obtain ⟨now, hnow, hreach⟩ := hheeds hrepeats
    have hidle : ({ w.alarm with state := .kInited, timer := none } : Alarm).state ≠ .kRunning := State.noConfusion
    obtain ⟨look, hlook, hsec, -, -, hright, hcases⟩ := activeTimer_right hfollows hnow hidle hreach
    rw [Alarm.onTimeExpired, hlook]
    rw [toNat_max, Nat.max_comm, ← hsec] at hright
    exact h.searched (.fired w.alarm.targetUtcSec.toNat (some look)) hright (hleads (some look)) hidle rfl hcases rfl

/-- A call that is heeded leaves the alarm aimed at the least time that is due. -/
theorem step (hfollows : kind.Follows nature) (h : Aimed kind nature w) (hheeds : kind.Heeds nature w call)
    (hstep : kind.step w call = some t) : Aimed kind nature t := by
  cases call with
  | initializeAlarm given =>
    rw [Kind.step] at hstep
    by_cases hrunning : w.alarm.state = .kRunning
    · rw [if_pos hrunning] at hstep
      exact some.inj hstep ▸ h
    rw [if_neg hrunning] at hstep
    cases hstep
    refine h.quiet rfl (fun hset => absurd (h.timer_eq_none hrunning) hset) fun hstate => ?_
    split at hstate
    · exact State.noConfusion hstate
    · exact absurd hstate hrunning
  | setTimezone offsetMinutes =>
    cases hstep
    exact h.quiet rfl h.waits fun hstate => ⟨hstate, rfl⟩
  | enable clock => exact h.enable hfollows hheeds hstep
  | disable =>
    cases hstep
    rw [Alarm.disable]
    by_cases hrunning : w.alarm.state = .kRunning
    · rw [if_pos hrunning]
      exact h.stopped State.noConfusion rfl
    · rw [if_neg hrunning]
      exact h.became_self
  | cleanup =>
    cases hstep
    rw [Alarm.cleanup, Alarm.disable]
    cases hstate : w.alarm.state with
    | kNone =>
      rw [if_pos rfl]
      exact h.became_self
    | kInited =>
      rw [if_neg State.noConfusion]
      refine h.became_nil State.noConfusion (h.timer_eq_none ?_)
      rw [hstate]
      exact State.noConfusion
    | kRunning =>
      rw [if_neg State.noConfusion]
      exact h.stopped State.noConfusion rfl
  | refresh clock =>
    cases hstep
    exact h.refresh hfollows hheeds
  | change change clock =>
    cases hstep
    exact Aimed.refresh (w := { w with settings := kind.changes change w.settings }) hfollows
      { h with } hheeds
  | expire clock => exact h.expire hfollows hheeds hstep

theorem run (hfollows : kind.Follows nature) {calls : List (Call ι υ)}
    (hheeds : Along kind.step (kind.Heeds nature) kind.start calls)
    (hrun : Lib.run kind.step kind.start calls = some w) : Aimed kind nature w := by
  refine Lib.run_invariant (I := Aimed kind nature) (fun _ _ _ h => h.step hfollows) ?_ hheeds hrun
  refine ⟨fun event hevent => absurd hevent not_mem_nil, isChain_nil, fun hset => absurd rfl hset, ?_⟩
  exact fun hstate => State.noConfusion hstate

end Aimed

namespace Event

variable {first second : Nat} {look look' : Option (Look σ)}

theorem found_of_leads (hright : (fired first look).Right kind nature)
    (hleads : (fired first look).Leads (fired second look')) : ∃ seen : Look σ, look = some seen ∧
      IsNext (nature.Due seen.settings) ((max first seen.now.sec.toNat : Nat) + seen.offset)
        (second + seen.offset) := by
  obtain ⟨seen, hseen, hfound⟩ := bind_eq_some_iff.mp hleads
  obtain ⟨⟨target, delay⟩, hsome, rfl⟩ := map_eq_some_iff.mp hfound
  refine ⟨seen, hseen, ?_⟩
  rw [hseen, Right, Look.Right, hsome] at hright
  exact hright.1

theorem lt_of_leads (hright : (fired first look).Right kind nature)
    (hleads : (fired first look).Leads (fired second look')) : first < second := by
  obtain ⟨seen, -, hnext⟩ := found_of_leads hright hleads
  have hlater := hnext.1.1
  omega

theorem skipsNone_of_leads {event next : Event σ} (hright : event.Right kind nature) (hleads : event.Leads next) :
    event.SkipsNone nature next := by
  cases event with
  | fired first look =>
    cases next with
    | fired second look' =>
      obtain ⟨seen, rfl, hnext⟩ := found_of_leads hright hleads
      intro m hlater hbefore hdue
      refine not_lt.mp fun hpassed => ?_
      have hleast : (second : Int) + seen.offset ≤ m := hnext.2 ⟨by omega, hdue⟩
      omega
    | enabled look' | refreshed look' | stopped => cases look <;> exact trivial
  | enabled look | refreshed look | stopped => exact trivial

end Event

theorem Aimed.onTarget (h : Aimed kind nature w) : OnTarget kind nature w.log := by
  refine ⟨h.right, h.leads, fun firings hinfix => ?_, h.leads.imp_of_mem_imp fun event _ hmem _ hleads => ?_⟩
  · have hchain : firings.IsChain fun one other => one.1 < other.1 := by
      have hleads := (isChain_map _).mp <| List.IsChain.infix h.leads hinfix
      refine hleads.imp_of_mem_imp fun one other hone _ hboth => ?_
      have hmem : Event.fired one.1 one.2 ∈ w.log := hinfix.subset (List.mem_map_of_mem hone)
      exact Event.lt_of_leads (h.right _ hmem) hboth
    exact isChain_iff_pairwise.mp ((isChain_map _).mpr hchain)
  · exact Event.skipsNone_of_leads (h.right event hmem) hleads

/-- **Targets.** -/
theorem onTarget_of_heeds (ε : Type) (cron : Cron ε) (Due : ε → Int → Prop) :
    (∀ (calls : List (Call Int32 Empty)) (w : Career TimeOfDay),
      Along oneshotAlarm.step (oneshotAlarm.Heeds oneshotNature) oneshotAlarm.start calls →
        run oneshotAlarm.step oneshotAlarm.start calls = some w → OnTarget oneshotAlarm oneshotNature w.log) ∧
    (∀ (calls : List (Call (Int32 × Lib.Bytes) Empty)) (w : Career WeeklySettings),
      Along weeklyAlarm.step (weeklyAlarm.Heeds weeklyNature) weeklyAlarm.start calls →
        run weeklyAlarm.step weeklyAlarm.start calls = some w → OnTarget weeklyAlarm weeklyNature w.log) ∧
    (∀ (calls : List (Call (Int32 × Bool × Bool) Days)) (w : Career WorkdaySettings),
      Along workdayAlarm.step (workdayAlarm.Heeds workdayNature) workdayAlarm.start calls →
        run workdayAlarm.step workdayAlarm.start calls = some w → OnTarget workdayAlarm workdayNature w.log) ∧
    (∀ (calls : List (Call Lib.Bytes Empty)) (w : Career ε),
      Along (cronAlarm cron).step ((cronAlarm cron).Heeds (cronNature cron Due)) (cronAlarm cron).start calls →
        run (cronAlarm cron).step (cronAlarm cron).start calls = some w →
          OnTarget (cronAlarm cron) (cronNature cron Due) w.log) := by
  refine ⟨fun _ _ hheeds hrun => ?_, fun _ _ hheeds hrun => ?_, fun _ _ hheeds hrun => ?_, fun _ _ hheeds hrun => ?_⟩
  · exact (Aimed.run oneshotAlarm_follows hheeds hrun).onTarget
  · exact (Aimed.run weeklyAlarm_follows hheeds hrun).onTarget
  · exact (Aimed.run workdayAlarm_follows hheeds hrun).onTarget
  · exact (Aimed.run (cronAlarm_follows cron Due) hheeds hrun).onTarget

theorem inReach_of_arms {zone n : Int} {start now : Nat} (hlow : 0 ≤ start + zone) (hhigh : start + zone < 2 ^ 32)
    (h : nature.Arms settings zone start now n) : nature.InReach settings zone start now := ⟨hlow, hhigh, .inl ⟨n, h⟩⟩

/-- Every day at ten seconds past midnight, by a clock that lags behind the timer. -/
def firedEarly : List (Call (Int32 × Lib.Bytes) Empty) :=
  [.initializeAlarm (10, List.replicate 7 49), .enable { now := some { sec := 0 } },
    .expire { now := some { sec := 9 } }]

def minutes : Cron Unit where
  blank := ()
  parseExpr _ := (true, ())
  next _ curr := (curr.toNat / 60 + 1) * 60

def firedOnMinute : List (Call Lib.Bytes Empty) :=
  [.initializeAlarm [], .enable { now := some { sec := 59 } }, .expire { now := some { sec := 61 } }]

theorem daily_arms {start now : Nat} {n : Int} (hlater : start < n) (hsoon : n ≤ start + 86400)
    (hseconds : n % 86400 = 10) (h32 : n < 2 ^ 32) (hdelay : (n - now) * 1000 < 2 ^ 32) :
    weeklyNature.Arms { secondsOfDay := ⟨10, by decide⟩, weekMask := 127 } 0 start now n := by
  have hevery : ∀ w < 7, Nat.testBit 127 w = true := by decide
  refine ⟨⟨⟨by omega, hseconds, hevery _ (by omega)⟩, ?_⟩, ?_, h32, by omega, by omega⟩
  · rintro m ⟨hm, hsame, -⟩
    change m % 86400 = 10 at hsame
    omega
  · show n / 86400 - (start + 0) / 86400 < 8
    omega

theorem minutes_arms {start now : Nat} {n : Int} (hlater : start < n) (hsoon : n ≤ start + 60) (hfull : n % 60 = 0)
    (h32 : n < 2 ^ 32) (hdelay : (n - now) * 1000 < 2 ^ 32) :
    (cronNature minutes fun _ n => n % 60 = 0).Arms () 0 start now n := by
  refine ⟨⟨⟨by omega, hfull⟩, ?_⟩, ?_, h32, by omega, by omega⟩
  · rintro m ⟨hm, hsame⟩
    change m % 60 = 0 at hsame
    omega
  · intro curr hcurr
    change ((curr.toNat : Int) / 60 + 1) * 60 = n
    omega

theorem firedEarly_onTarget : ∃ w v, run weeklyAlarm.step weeklyAlarm.start firedEarly = some w ∧
    OnTarget weeklyAlarm weeklyNature w.log ∧
      run (cronAlarm minutes).step (cronAlarm minutes).start firedOnMinute = some v ∧
        OnTarget (cronAlarm minutes) (cronNature minutes fun _ n => n % 60 = 0) v.log := by
  obtain ⟨-, hweekly, -, hcron⟩ := onTarget_of_heeds Unit minutes fun _ n => n % 60 = 0
  refine ⟨_, _, rfl, hweekly firedEarly _ ?_ rfl, rfl, hcron firedOnMinute _ ?_ rfl⟩
  · refine fun _ h₁ => ⟨trivial, ?_⟩
    obtain rfl := Option.some.inj h₁
    refine fun _ h₂ => ⟨fun _ now hnow => ?_, ?_⟩
    · obtain rfl := Option.some.inj hnow
      refine ⟨fun m hlater hbefore => absurd (hlater.trans_le hbefore) (by decide), ?_⟩
      exact inReach_of_arms (by decide) (by decide)
        (daily_arms (n := 10) (by decide) (by decide) (by decide) (by decide) (by decide))
    · obtain rfl := Option.some.inj h₂
      refine fun _ h₃ => ⟨fun _ => ⟨_, rfl, ?_⟩, trivial⟩
      exact inReach_of_arms (by decide) (by decide)
        (daily_arms (n := 86410) (by decide) (by decide) (by decide) (by decide) (by decide))
  · refine fun _ h₁ => ⟨trivial, ?_⟩
    obtain rfl := Option.some.inj h₁
    refine fun _ h₂ => ⟨fun _ now hnow => ?_, ?_⟩
    · obtain rfl := Option.some.inj hnow
      refine ⟨fun m hlater hbefore => absurd (hlater.trans_le hbefore) (by decide), ?_⟩
      exact inReach_of_arms (by decide) (by decide)
        (minutes_arms (n := 60) (by decide) (by decide) (by decide) (by decide) (by decide))
    · obtain rfl := Option.some.inj h₂
      refine fun _ h₃ => ⟨fun _ => ⟨_, rfl, ?_⟩, trivial⟩
      exact inReach_of_arms (by decide) (by decide)
        (minutes_arms (n := 120) (by decide) (by decide) (by decide) (by decide) (by decide))

/-- Every day at ten seconds past midnight, disabled before the first time and enabled again. -/
def enabledAgain : List (Call (Int32 × Lib.Bytes) Empty) :=
  [.initializeAlarm (10, List.replicate 7 49), .enable { now := some { sec := 0 } }, .disable,
    .enable { now := some { sec := 1 } }]

theorem skips_enabledAgain : ∃ w, run weeklyAlarm.step weeklyAlarm.start enabledAgain = some w ∧
    ¬OnTarget weeklyAlarm weeklyNature w.log := by
  refine ⟨_, rfl, fun h => ?_⟩
  obtain ⟨-, hnext, -⟩ := h.right _
    (List.mem_of_getLast? (a := .enabled ⟨⟨⟨10, by decide⟩, 127⟩, 0, ⟨1, 0⟩, some (86410, 86409000)⟩) rfl)
  -- ten past midnight of the first day is still to come
  have hsoon : (86410 : Int) + 0 ≤ 10 := hnext.2 ⟨by decide, by decide, by decide⟩
  exact absurd hsoon (by decide)

end Tbox.Alarms
