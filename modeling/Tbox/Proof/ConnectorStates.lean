import Tbox.Network.TcpConnector

/-!
# The state of the connector and its events

The state changes last, behind the callbacks, and so overwrites what a callback has done. A connector whose callbacks
are called out of `start` alone, and leave it at rest, is in the state its events say.
-/

open List Option

namespace Tbox.Network

open Tbox.Lib

namespace TcpConnector

structure Consistent (c : TcpConnector) : Prop where
  connecting : c.state = .kConnecting ↔ c.spWriteEv ≠ none
  delay : c.state = .kReconnectDelay ↔ c.spDelayEv ≠ none

def Failure.Told (f : Failure) : Prop :=
  f.reported = true ↔ f.connectFailCb = true ∧ 0 < f.tryTimes ∧ (f.count : Int) = f.tryTimes

/-- The connector is in the state its events say, and was so in every callback. -/
structure World.Sound (w : World) : Prop where
  alive : w.crashed = false
  connector : w.connector.Consistent
  calls : ∀ call ∈ w.calls, call.connector.Consistent ∧ call.series ≠ .stopped
  failures : ∀ f ∈ w.failures, f.Told
  reports : w.calls.countP (fun call => call.callback = .connectFail)
    = w.failures.countP fun f => f.reported

def Reports (c : TcpConnector) : Prop := c.LastTry ∧ c.connectFailCb = true

def CallsUser (c : TcpConnector) : Prop :=
  c.Reports ∨ ¬c.LastTry ∧ c.reconnDelayCalcFunc = true

/-- The attempt is under way; or has failed for now, out of `start` or without a word to the user; or has
failed for good, which is not the failure to report. -/
def Bearable (c : TcpConnector) (attempt : Attempt) : Prop :=
  match c.createSocket attempt with
  | .noSocket => c.state = .kInited ∧ ¬c.Reports
  | .answered connErrno =>
    InProgress connErrno ∨ MayRetry connErrno ∧ (c.state = .kInited ∨ ¬c.CallsUser) ∨
      ¬InProgress connErrno ∧ ¬MayRetry connErrno ∧ ¬c.Reports

/-- No failure out of the loop calls the user, a callback out of `start` leaves the connector at rest,
and the series of attempts that wants a delay is still going when the delay is known. -/
def LeftAtRest (w : World) : Action → Prop
  | .setTryTimes tryTimes =>
    w.series = .going → 0 < tryTimes → (w.connector.connFailTimes : Int) < tryTimes
  | .start attempt =>
    w.connector.state = .kInited → { w.connector with connFailTimes := 0 }.Bearable attempt
  | .writable (some (_ + 1)) => ¬w.connector.CallsUser
  | .delayTimeout attempt => w.connector.Bearable attempt
  | .returned =>
    match w.stack with
    | .connectFail :: _ => w.connector.state = .kInited ∨ w.connector.state = .kNone
    | .delayCalc :: _ => w.series = .going ∧ w.connector.state ≠ .kConnecting
    | [] => True
  | _ => True

namespace World

structure Kept (w : World) : Prop where
  sound : w.Sound
  count : w.series = .going → w.connector.connFailTimes = w.failed
  tolerated : w.series = .going → 0 < w.connector.tryTimes →
    (w.connector.connFailTimes : Int) < w.connector.tryTimes
  active : w.connector.state = .kConnecting ∨ w.connector.state = .kReconnectDelay →
    w.series = .going

structure Trying (w : World) : Prop where
  alive : w.crashed = false
  write : w.connector.spWriteEv = none
  delay : w.connector.spDelayEv = none
  calls : ∀ call ∈ w.calls, call.connector.Consistent ∧ call.series ≠ .stopped
  failures : ∀ f ∈ w.failures, f.Told
  reports : w.calls.countP (fun call => call.callback = .connectFail)
    = w.failures.countP fun f => f.reported
  going : w.series = .going
  count : w.connector.connFailTimes = w.failed
  tolerated : 0 < w.connector.tryTimes → (w.connector.connFailTimes : Int) < w.connector.tryTimes

variable {w u : World} {a : Action} {attempt : Attempt}

theorem not_active_of_rest {state : State} (h : state = .kInited ∨ state = .kNone) :
    ¬(state = .kConnecting ∨ state = .kReconnectDelay) := by
  rcases h with rfl | rfl <;> decide

theorem consistent_of_rest {c : TcpConnector} (hwrite : c.spWriteEv = none)
    (hdelay : c.spDelayEv = none) (hstate : c.state = .kInited ∨ c.state = .kNone) :
    c.Consistent := by
  have hne := not_or.mp (not_active_of_rest hstate)
  exact ⟨iff_of_false hne.1 (not_not.mpr hwrite), iff_of_false hne.2 (not_not.mpr hdelay)⟩

theorem Trying.lastTry_iff (h : w.Trying) :
    w.connector.LastTry ↔ 0 < w.connector.tryTimes ∧ ((w.failed + 1 : Nat) : Int) = w.connector.tryTimes := by
  rw [LastTry, ← h.count]
  constructor
  · intro ⟨hpos, hlast⟩
    have hmore := h.tolerated hpos
    push_cast
    exact ⟨hpos, by omega⟩
  · intro ⟨hpos, hlast⟩
    push_cast at hlast
    exact ⟨hpos, by omega⟩

theorem Trying.told_append (h : w.Trying) {reported : Bool} (hreported : reported = true ↔ w.connector.Reports) :
    ∀ f ∈ (w.failedAttempt reported).failures, f.Told := by
  intro f hf
  rcases mem_append.mp hf with hf | hf
  · exact h.failures f hf
  · rw [mem_singleton.mp hf, Failure.Told]
    rw [hreported, Reports, h.lastTry_iff, and_comm]

theorem calls_append {call : Call} (h : ∀ call ∈ w.calls, call.connector.Consistent ∧ call.series ≠ .stopped)
    (hcall : call.connector.Consistent ∧ call.series ≠ .stopped) :
    ∀ other ∈ w.calls ++ [call], other.connector.Consistent ∧ other.series ≠ .stopped := by
  intro other hother
  rcases mem_append.mp hother with hother | hother
  · exact h other hother
  · rw [mem_singleton.mp hother]
    exact hcall

theorem Trying.reports_append (h : w.Trying) (reported : Bool) :
    (w.failedAttempt reported).failures.countP (fun f => f.reported)
      = w.calls.countP (fun call => call.callback = .connectFail) + if reported then 1 else 0 := by
  rw [failedAttempt]
  rw [countP_append, ← h.reports, countP_singleton]

theorem Trying.kept_onConnectFail (h : w.Trying)
    (hquiet : w.connector.state = .kInited ∨ ¬w.connector.CallsUser) : w.onConnectFail.Kept := by
  by_cases hlast : w.connector.LastTry
  · cases hcb : w.connector.connectFailCb with
    | true =>
      have hstate : w.connector.state = .kInited := hquiet.resolve_right fun hcalls => hcalls (.inl ⟨hlast, hcb⟩)
      have hrest : ({ w.connector with connFailTimes := w.connector.connFailTimes + 1 } :
          TcpConnector).Consistent := consistent_of_rest h.write h.delay (.inl hstate)
      have heq : w.onConnectFail = { w.failedAttempt true with
          connector := { w.connector with connFailTimes := w.connector.connFailTimes + 1 }
          series := .over
          calls := w.calls ++ [⟨.connectFail,
            { w.connector with connFailTimes := w.connector.connFailTimes + 1 }, .over⟩]
          stack := .connectFail :: w.stack } := by
        simp [onConnectFail, hlast, hcb, call, failedAttempt]
      rw [heq]
      refine ⟨⟨h.alive, hrest, calls_append h.calls ⟨hrest, nofun⟩, ?_, ?_⟩, ?_, ?_, ?_⟩
      · exact h.told_append (iff_of_true rfl ⟨hlast, hcb⟩)
      · rw [h.reports_append true, countP_append]
        rfl
      · exact nofun
      · exact nofun
      · exact fun hactive => absurd hactive (not_active_of_rest (.inl hstate))
    | false =>
      have heq : w.onConnectFail = { w.failedAttempt false with
          connector := { w.connector with
            connFailTimes := w.connector.connFailTimes + 1, state := .kInited }
          series := .over } := by
        simp [onConnectFail, hlast, hcb, failedAttempt]
      rw [heq]
      refine ⟨⟨h.alive, consistent_of_rest h.write h.delay (.inl rfl), h.calls, ?_, ?_⟩, ?_, ?_, ?_⟩
      · refine h.told_append (iff_of_false Bool.false_ne_true fun hreports => ?_)
        exact absurd (hcb.symm.trans hreports.2) Bool.false_ne_true
      · exact (h.reports_append false).symm
      · exact nofun
      · exact nofun
      · exact fun hactive => absurd hactive (not_active_of_rest (.inl rfl))
  · have htold : ∀ f ∈ (w.failedAttempt false).failures, f.Told :=
      h.told_append (iff_of_false Bool.false_ne_true fun hreports => hlast hreports.1)
    have hmore : 0 < w.connector.tryTimes →
        ((w.connector.connFailTimes + 1 : Nat) : Int) < w.connector.tryTimes := by
      intro hpos
      have hnot : ¬(w.connector.connFailTimes + 1 : Int) ≥ w.connector.tryTimes := fun hge => hlast ⟨hpos, hge⟩
      push_cast
      omega
    cases hfunc : w.connector.reconnDelayCalcFunc with
    | true =>
      have hstate : w.connector.state = .kInited := hquiet.resolve_right fun hcalls => hcalls (.inr ⟨hlast, hfunc⟩)
      have hrest : ({ w.connector with connFailTimes := w.connector.connFailTimes + 1 } :
          TcpConnector).Consistent := consistent_of_rest h.write h.delay (.inl hstate)
      have heq : w.onConnectFail = { w.failedAttempt false with
          connector := { w.connector with connFailTimes := w.connector.connFailTimes + 1 }
          calls := w.calls ++ [⟨.delayCalc,
            { w.connector with connFailTimes := w.connector.connFailTimes + 1 }, w.series⟩]
          stack := .delayCalc :: w.stack } := by
        simp [onConnectFail, hlast, hfunc, call, failedAttempt, enterReconnectDelayState]
      rw [heq]
      refine ⟨⟨h.alive, hrest, calls_append h.calls ⟨hrest, ?_⟩, htold, ?_⟩, ?_, ?_, ?_⟩
      · exact fun hseries => absurd (h.going.symm.trans hseries) (by decide)
      · rw [h.reports_append false, countP_append]
        rfl
      · exact fun _ => congrArg (· + 1) h.count
      · exact fun _ => hmore
      · exact fun _ => h.going
    | false =>
      have heq : w.onConnectFail = { w.failedAttempt false with
          connector := { w.connector with
            connFailTimes := w.connector.connFailTimes + 1
            spDelayEv := some ()
            state := .kReconnectDelay } } := by
        simp [onConnectFail, hlast, hfunc, failedAttempt, enterReconnectDelayState, startDelay]
      rw [heq]
      refine ⟨⟨h.alive, ⟨?_, ?_⟩, h.calls, htold, ?_⟩, ?_, ?_, ?_⟩
      · exact iff_of_false nofun (not_not.mpr h.write)
      · exact iff_of_true rfl (some_ne_none ())
      · exact (h.reports_append false).symm
      · exact fun _ => congrArg (· + 1) h.count
      · exact fun _ => hmore
      · exact fun _ => h.going

theorem Trying.kept_enterConnectingState (h : w.Trying) (hattempt : w.connector.Bearable attempt) :
    (w.enterConnectingState attempt).Kept := by
  rw [Bearable] at hattempt
  rw [enterConnectingState]
  cases hanswer : w.connector.createSocket attempt with
  | noSocket =>
    rw [hanswer] at hattempt
    obtain ⟨hstate, hreports⟩ := hattempt
    refine ⟨⟨h.alive, consistent_of_rest h.write h.delay (.inl hstate), h.calls, ?_, ?_⟩, ?_, ?_, ?_⟩
    · exact h.told_append (iff_of_false Bool.false_ne_true hreports)
    · exact (h.reports_append false).symm
    · exact nofun
    · exact nofun
    · exact fun hactive => absurd hactive (not_active_of_rest (.inl hstate))
  | answered connErrno =>
    rw [hanswer] at hattempt
    dsimp only at hattempt ⊢
    split_ifs with hprogress hretry
    · refine ⟨{ h with connector := ⟨?_, ?_⟩ }, ?_, ?_, ?_⟩
      · exact iff_of_true rfl (some_ne_none true)
      · exact iff_of_false nofun (not_not.mpr h.delay)
      · exact fun _ => h.count
      · exact fun _ => h.tolerated
      · exact fun _ => h.going
    · rcases hattempt with hattempt | ⟨-, hquiet⟩ | ⟨-, hattempt, -⟩
      · exact absurd hattempt hprogress
      · exact h.kept_onConnectFail hquiet
      · exact absurd hretry hattempt
    · rcases hattempt with hattempt | ⟨hattempt, -⟩ | ⟨-, -, hreports⟩
      · exact absurd hattempt hprogress
      · exact absurd hattempt hretry
      refine ⟨⟨h.alive, consistent_of_rest h.write h.delay (.inr rfl), h.calls, ?_, ?_⟩, ?_, ?_, ?_⟩
      · exact h.told_append (iff_of_false Bool.false_ne_true hreports)
      · exact (h.reports_append false).symm
      · exact nofun
      · exact nofun
      · exact fun hactive => absurd hactive (not_active_of_rest (.inr rfl))

theorem kept_of_rest (halive : w.crashed = false) (hwrite : w.connector.spWriteEv = none)
    (hdelay : w.connector.spDelayEv = none)
    (hstate : w.connector.state = .kInited ∨ w.connector.state = .kNone)
    (hcalls : ∀ call ∈ w.calls, call.connector.Consistent ∧ call.series ≠ .stopped)
    (hfailures : ∀ f ∈ w.failures, f.Told)
    (hreports : w.calls.countP (fun call => call.callback = .connectFail)
      = w.failures.countP fun f => f.reported) (hseries : w.series ≠ .going) : w.Kept where
  sound := ⟨halive, consistent_of_rest hwrite hdelay hstate, hcalls, hfailures, hreports⟩
  count hgoing := absurd hgoing hseries
  tolerated hgoing := absurd hgoing hseries
  active hactive := absurd hactive (not_active_of_rest hstate)

theorem Kept.no_events (h : w.Kept) (hstate : w.connector.state = .kInited ∨ w.connector.state = .kNone) :
    w.connector.spWriteEv = none ∧ w.connector.spDelayEv = none := by
  obtain ⟨hwrite, hdelay⟩ := not_or.mp (not_active_of_rest hstate)
  exact ⟨not_not.mp fun hne => hwrite (h.sound.connector.connecting.mpr hne),
    not_not.mp fun hne => hdelay (h.sound.connector.delay.mpr hne)⟩

theorem Kept.connecting (h : w.Kept) (hwrite : w.connector.spWriteEv ≠ none) :
    w.connector.state = .kConnecting ∧ w.connector.spDelayEv = none := by
  have hstate := h.sound.connector.connecting.mpr hwrite
  refine ⟨hstate, not_not.mp fun hne => ?_⟩
  have hdelay := h.sound.connector.delay.mpr hne
  rw [hstate] at hdelay
  cases hdelay

theorem Kept.delaying (h : w.Kept) (hdelay : w.connector.spDelayEv ≠ none) :
    w.connector.state = .kReconnectDelay ∧ w.connector.spWriteEv = none := by
  have hstate := h.sound.connector.delay.mpr hdelay
  refine ⟨hstate, not_not.mp fun hne => ?_⟩
  have hwrite := h.sound.connector.connecting.mpr hne
  rw [hstate] at hwrite
  cases hwrite

theorem exitConnectingState_eq (h : w.connector.spWriteEv ≠ none) :
    w.exitConnectingState = { w with connector := { w.connector with spWriteEv := none } } := by
  obtain ⟨enabled, henabled⟩ := ne_none_iff_exists'.mp h
  rw [exitConnectingState, henabled]

theorem exitReconnectDelayState_eq (h : w.connector.spDelayEv ≠ none) :
    w.exitReconnectDelayState = { w with connector := { w.connector with spDelayEv := none } } := by
  obtain ⟨_, hevent⟩ := ne_none_iff_exists'.mp h
  rw [exitReconnectDelayState, hevent]

theorem Kept.stop_eq (h : w.Kept) :
    ∃ state, (state = .kInited ∨ state = .kNone) ∧ w.stop = { w with
      series := .stopped
      connector := { w.connector with spWriteEv := none, spDelayEv := none, state := state } } := by
  cases hstate : w.connector.state with
  | kNone =>
    obtain ⟨hwrite, hdelay⟩ := h.no_events (.inr hstate)
    have hstop : w.stop = { w with series := .stopped } := by simp only [World.stop, hstate]
    exact ⟨.kNone, .inr rfl, by rw [hstop, ← hwrite, ← hdelay, ← hstate]⟩
  | kInited =>
    obtain ⟨hwrite, hdelay⟩ := h.no_events (.inl hstate)
    have hstop : w.stop = { w with series := .stopped } := by simp only [World.stop, hstate]
    exact ⟨.kInited, .inl rfl, by rw [hstop, ← hwrite, ← hdelay, ← hstate]⟩
  | kConnecting =>
    have hevent := h.sound.connector.connecting.mp hstate
    have hexit : ({ w with series := .stopped } : World).exitConnectingState = { w with
        series := .stopped, connector := { w.connector with spWriteEv := none } } :=
      exitConnectingState_eq hevent
    have hstop : w.stop = { w with
        series := .stopped
        connector := { w.connector with spWriteEv := none, state := .kInited } } := by
      simp only [World.stop, hstate, hexit]
    exact ⟨.kInited, .inl rfl, by rw [hstop, ← (h.connecting hevent).2]⟩
  | kReconnectDelay =>
    have hevent := h.sound.connector.delay.mp hstate
    have hexit : ({ w with series := .stopped } : World).exitReconnectDelayState = { w with
        series := .stopped, connector := { w.connector with spDelayEv := none } } :=
      exitReconnectDelayState_eq hevent
    have hstop : w.stop = { w with
        series := .stopped
        connector := { w.connector with spDelayEv := none, state := .kInited } } := by
      simp only [World.stop, hstate, hexit]
    exact ⟨.kInited, .inl rfl, by rw [hstop, ← (h.delaying hevent).2]⟩

theorem Kept.stop (h : w.Kept) : w.stop.Kept := by
  obtain ⟨state, hstate, heq⟩ := h.stop_eq
  rw [heq]
  exact kept_of_rest h.sound.alive rfl rfl hstate h.sound.calls h.sound.failures h.sound.reports nofun

theorem Kept.cleanup (h : w.Kept) : w.cleanup.Kept := by
  obtain ⟨state, hstate, heq⟩ := h.stop_eq
  rw [World.cleanup]
  split_ifs with hnone
  · obtain ⟨hwrite, hdelay⟩ := h.no_events (.inr hnone)
    exact kept_of_rest h.sound.alive hwrite hdelay (.inr hnone) h.sound.calls h.sound.failures h.sound.reports nofun
  · rw [heq]
    exact kept_of_rest h.sound.alive rfl rfl (.inr rfl) h.sound.calls h.sound.failures h.sound.reports nofun

theorem Kept.start (h : w.Kept) (hguard : LeftAtRest w (.start attempt)) : (w.start attempt).Kept := by
  rw [World.start]
  split_ifs with hstate
  · exact h
  have hinited : w.connector.state = .kInited := not_not.mp hstate
  obtain ⟨hwrite, hdelay⟩ := h.no_events (.inl hinited)
  have htrying : ({ w with
      connector := { w.connector with connFailTimes := 0 }
      failed := 0
      series := .going } : World).Trying :=
    ⟨h.sound.alive, hwrite, hdelay, h.sound.calls, h.sound.failures, h.sound.reports, rfl, rfl, id⟩
  exact htrying.kept_enterConnectingState (hguard hinited)

theorem Kept.onSocketWritable (h : w.Kept) {sockErrno : Option Errno}
    (hevent : w.connector.spWriteEv = some true) (hguard : LeftAtRest w (.writable sockErrno)) :
    (w.onSocketWritable sockErrno).Kept := by
  obtain ⟨hstate, hdelay⟩ := h.connecting (hevent ▸ some_ne_none true)
  have hgoing := h.active (.inl hstate)
  have hexit : ({ w with connector := { w.connector with spWriteEv := some false } } :
      World).exitConnectingState = { w with connector := { w.connector with spWriteEv := none } } :=
    exitConnectingState_eq (some_ne_none false)
  rw [World.onSocketWritable.eq_def]
  rcases sockErrno with _ | _ | errno
  · refine { h with
    sound := ⟨h.sound.alive, ⟨?_, h.sound.connector.delay⟩, h.sound.calls, h.sound.failures, h.sound.reports⟩ }
    exact iff_of_true hstate (some_ne_none false)
  · dsimp only
    rw [hexit]
    have hrest : ({ w.connector with spWriteEv := none, state := .kInited } :
        TcpConnector).Consistent := consistent_of_rest rfl hdelay (.inl rfl)
    split_ifs with hcb
    · refine kept_of_rest h.sound.alive rfl hdelay (.inl rfl) ?_ h.sound.failures ?_
        nofun
      · exact calls_append h.sound.calls ⟨hrest, nofun⟩
      · rw [call]
        rw [countP_append, ← h.sound.reports]
        rfl
    · exact kept_of_rest h.sound.alive rfl hdelay (.inl rfl) h.sound.calls h.sound.failures
        h.sound.reports nofun
  · dsimp only
    rw [hexit]
    have htrying : ({ w with connector := { w.connector with spWriteEv := none } } : World).Trying :=
      ⟨h.sound.alive, rfl, hdelay, h.sound.calls, h.sound.failures, h.sound.reports, hgoing,
        h.count hgoing, h.tolerated hgoing⟩
    exact htrying.kept_onConnectFail (.inr hguard)

theorem Kept.onDelayTimeout (h : w.Kept) (hevent : w.connector.spDelayEv = some ())
    (hguard : LeftAtRest w (.delayTimeout attempt)) : (w.onDelayTimeout attempt).Kept := by
  have hne : w.connector.spDelayEv ≠ none := hevent ▸ some_ne_none ()
  obtain ⟨hstate, hwrite⟩ := h.delaying hne
  have hgoing := h.active (.inr hstate)
  rw [World.onDelayTimeout, exitReconnectDelayState_eq hne]
  have htrying : ({ w with connector := { w.connector with spDelayEv := none } } : World).Trying :=
    ⟨h.sound.alive, hwrite, rfl, h.sound.calls, h.sound.failures, h.sound.reports, hgoing,
      h.count hgoing, h.tolerated hgoing⟩
  exact htrying.kept_enterConnectingState hguard

theorem Kept.resume (h : w.Kept) {frame : Frame} {stack : List Frame} (hstack : w.stack = frame :: stack)
    (hguard : LeftAtRest w .returned) : ({ w with stack := stack }.resume frame).Kept := by
  rw [LeftAtRest, hstack] at hguard
  cases frame with
  | connectFail =>
    obtain ⟨hwrite, hdelay⟩ := h.no_events hguard
    refine ⟨⟨h.sound.alive, consistent_of_rest hwrite hdelay (.inl rfl), h.sound.calls,
      h.sound.failures, h.sound.reports⟩, h.count, h.tolerated, ?_⟩
    exact fun hactive => absurd hactive (not_active_of_rest (.inl rfl))
  | delayCalc =>
    obtain ⟨hgoing, hstate⟩ := hguard
    have hwrite : w.connector.spWriteEv = none := not_not.mp fun hne => hstate (h.sound.connector.connecting.mpr hne)
    refine ⟨⟨h.sound.alive, ⟨?_, ?_⟩, h.sound.calls, h.sound.failures, h.sound.reports⟩,
      h.count, h.tolerated, fun _ => hgoing⟩
    · exact iff_of_false nofun (not_not.mpr hwrite)
    · exact iff_of_true rfl (some_ne_none ())

theorem Kept.checkSetting (h : w.Kept) {c : TcpConnector} (hwrite : c.spWriteEv = w.connector.spWriteEv)
    (hdelay : c.spDelayEv = w.connector.spDelayEv) (hstate : c.state = w.connector.state)
    (htimes : c.tryTimes = w.connector.tryTimes) (hcount : c.connFailTimes = w.connector.connFailTimes) :
    ({ w with connector := c.checkSettingAndTryEnterIdleState } : World).Kept := by
  have hsame : ({ w with connector := c } : World).Kept := by
    refine ⟨⟨h.sound.alive, ⟨?_, ?_⟩, h.sound.calls, h.sound.failures, h.sound.reports⟩, ?_, ?_, ?_⟩
    · rw [hwrite, hstate]
      exact h.sound.connector.connecting
    · rw [hdelay, hstate]
      exact h.sound.connector.delay
    · rw [hcount]
      exact h.count
    · rw [htimes, hcount]
      exact h.tolerated
    · rw [hstate]
      exact h.active
  rw [checkSettingAndTryEnterIdleState]
  split_ifs with hnone
  · obtain ⟨hwrite, hdelay⟩ := hsame.no_events (.inr hnone)
    refine ⟨⟨h.sound.alive, consistent_of_rest hwrite hdelay (.inl rfl), h.sound.calls,
      h.sound.failures, h.sound.reports⟩, hsame.count, hsame.tolerated, ?_⟩
    exact fun hactive => absurd hactive (not_active_of_rest (.inl rfl))
  · exact hsame
  · exact hsame

/-- State, event and stack of callbacks stay together, one case for each action. -/
theorem Kept.step (h : w.Kept) (hguard : LeftAtRest w a) (hstep : w.step a = some u) : u.Kept := by
  rw [World.step.eq_def, ite_none_left_eq_some] at hstep
  replace hstep := hstep.2
  cases a with
  | setServerAddr serverAddr =>
    obtain rfl := some.inj hstep
    exact h.checkSetting rfl rfl rfl rfl rfl
  | setConnectedCallback cb =>
    obtain rfl := some.inj hstep
    exact h.checkSetting rfl rfl rfl rfl rfl
  | setConnectFailCallback cb =>
    obtain rfl := some.inj hstep
    exact ⟨⟨h.sound.alive, ⟨h.sound.connector.connecting, h.sound.connector.delay⟩, h.sound.calls,
      h.sound.failures, h.sound.reports⟩, h.count, h.tolerated, h.active⟩
  | setReconnectDelayCalcFunc =>
    obtain rfl := some.inj hstep
    exact ⟨⟨h.sound.alive, ⟨h.sound.connector.connecting, h.sound.connector.delay⟩, h.sound.calls,
      h.sound.failures, h.sound.reports⟩, h.count, h.tolerated, h.active⟩
  | setTryTimes tryTimes =>
    obtain rfl := some.inj hstep
    exact ⟨⟨h.sound.alive, ⟨h.sound.connector.connecting, h.sound.connector.delay⟩, h.sound.calls,
      h.sound.failures, h.sound.reports⟩, h.count, hguard, h.active⟩
  | start attempt =>
    obtain rfl := some.inj hstep
    exact h.start hguard
  | stop =>
    obtain rfl := some.inj hstep
    exact h.stop
  | cleanup =>
    obtain rfl := some.inj hstep
    exact h.cleanup
  | writable sockErrno =>
    obtain ⟨⟨-, hevent⟩, rfl⟩ := ite_some_none_eq_some.mp hstep
    exact h.onSocketWritable hevent hguard
  | delayTimeout attempt =>
    obtain ⟨⟨-, hevent⟩, rfl⟩ := ite_some_none_eq_some.mp hstep
    exact h.onDelayTimeout hevent hguard
  | returned =>
    dsimp only at hstep
    split at hstep
    · cases hstep
    · rename_i frame stack hstack
      obtain rfl := some.inj hstep
      exact h.resume hstack hguard

/-- **The state says which event there is**, no null event is dereferenced, connect-failed comes with the last failure
that is tolerated, and nothing after `stop`, while callbacks of failures come out of `start` and leave the connector at
rest. -/
theorem connector_sound_of_run {as : List Action} (hguard : Along step LeftAtRest {} as)
    (hrun : run step {} as = some w) : w.Sound := by
  have hinit : ({} : World).Kept := kept_of_rest rfl rfl rfl (.inr rfl) (List.forall_mem_nil _)
    (List.forall_mem_nil _) rfl (by decide)
  exact (run_invariant (fun _ _ _ h hguard hstep => h.step hguard hstep) hinit hguard hrun).sound

instance (c : TcpConnector) : Decidable c.Reports := inferInstanceAs (Decidable (_ ∧ _))

instance (c : TcpConnector) : Decidable c.CallsUser := inferInstanceAs (Decidable (_ ∨ _))

instance (c : TcpConnector) (attempt : Attempt) : Decidable (c.Bearable attempt) :=
  match h : c.createSocket attempt with
  | .noSocket =>
    decidable_of_iff (c.state = .kInited ∧ ¬c.Reports) (by rw [Bearable, h])
  | .answered connErrno =>
    decidable_of_iff (InProgress connErrno ∨ MayRetry connErrno ∧ (c.state = .kInited ∨ ¬c.CallsUser) ∨
      ¬InProgress connErrno ∧ ¬MayRetry connErrno ∧ ¬c.Reports) (by rw [Bearable, h])

instance (w : World) (a : Action) : Decidable (LeftAtRest w a) :=
  match a with
  | .setTryTimes tryTimes =>
    inferInstanceAs (Decidable (w.series = .going → 0 < tryTimes → _ < tryTimes))
  | .start attempt =>
    inferInstanceAs (Decidable (w.connector.state = .kInited →
      { w.connector with connFailTimes := 0 }.Bearable attempt))
  | .writable (some (_ + 1)) => inferInstanceAs (Decidable ¬w.connector.CallsUser)
  | .delayTimeout attempt => inferInstanceAs (Decidable (w.connector.Bearable attempt))
  | .returned =>
    match h : w.stack with
    | .connectFail :: _ =>
      decidable_of_iff (w.connector.state = .kInited ∨ w.connector.state = .kNone)
        (by rw [LeftAtRest, h])
    | .delayCalc :: _ =>
      decidable_of_iff (w.series = .going ∧ w.connector.state ≠ .kConnecting)
        (by rw [LeftAtRest, h])
    | [] => .isTrue (by rw [LeftAtRest, h]; trivial)
  | .writable none | .writable (some 0) | .setServerAddr _ | .setConnectedCallback _
  | .setConnectFailCallback _ | .setReconnectDelayCalcFunc | .stop | .cleanup => .isTrue trivial

/-- An attempt succeeds after one that was refused; then the callback that hears of a refusal stops the connector. -/
def twoSeries : List Action :=
  [.setServerAddr .kIPv4, .setConnectedCallback true, .setConnectFailCallback true, .setTryTimes 2,
    .start (.answered ECONNREFUSED), .delayTimeout (.answered EINPROGRESS), .writable (some 0),
    .setTryTimes 1, .start (.answered ENETUNREACH), .stop, .returned]

theorem twoSeries_sound : ∃ w, run step {} twoSeries = some w ∧
    w.calls.map Call.callback = [.connected, .connectFail] ∧ w.Sound := by
  obtain ⟨w, hrun, hw⟩ := (Option.any_eq_true _ _).mp (show Option.any
    (fun w : World => w.calls.map Call.callback = [.connected, .connectFail])
    (run step {} twoSeries) = true by decide +kernel)
  exact ⟨w, hrun, of_decide_eq_true hw, connector_sound_of_run (by decide +kernel) hrun⟩

/-- A callback that hears of a connection that came to nothing, and stops the connector, crashes. -/
theorem stopInConnectFail_crashes : ¬∀ as w, run step {} as = some w → w.Sound := by
  intro h
  obtain ⟨w, hrun, hw⟩ := (Option.any_eq_true _ _).mp (show Option.any (fun w : World => w.crashed)
    (run step {} [.setServerAddr .kIPv4, .setConnectedCallback true, .setConnectFailCallback true,
      .setTryTimes 1, .start (.answered EINPROGRESS), .writable (some ECONNREFUSED), .stop]) = true by
    decide +kernel)
  exact absurd (hw.symm.trans (h _ w hrun).alive) (by decide)

end World

end TcpConnector

end Tbox.Network
