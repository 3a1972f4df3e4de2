import Tbox.Network.TcpClient
import Tbox.Proof.ConnectorStates

/-!
# The client and its connector

The client goes to `kConnecting` before its connector has tried anything, and looks neither at what `start` returns
nor at the connector afterwards: an attempt may end without a word to it. While that does not happen the two agree.
-/

open List Option

namespace Tbox.Network

open Tbox.Lib

namespace TcpConnector

/-- What the client never sets. -/
structure Plain (c : TcpConnector) : Prop where
  connectFailCb : c.connectFailCb = false
  reconnDelayCalcFunc : c.reconnDelayCalcFunc = false
  tryTimes : c.tryTimes = 0

structure Idle (c : TcpConnector) : Prop where
  write : c.spWriteEv = none
  delay : c.spDelayEv = none

def Pursues (c : TcpConnector) : Prop :=
  c.state = .kConnecting ∧ c.spWriteEv = some true ∧ c.spDelayEv = none ∨
    c.state = .kReconnectDelay ∧ c.spWriteEv = none ∧ c.spDelayEv = some ()

def GoesOn (c : TcpConnector) (attempt : Attempt) : Prop :=
  match c.createSocket attempt with
  | .noSocket => False
  | .answered connErrno => InProgress connErrno ∨ MayRetry connErrno

theorem Plain.not_lastTry {c : TcpConnector} (h : c.Plain) : ¬c.LastTry := by
  intro hlast
  have hpos := hlast.1
  rw [h.tryTimes] at hpos
  omega

theorem checkSetting_eq (c : TcpConnector) : ∃ state, c.checkSettingAndTryEnterIdleState = { c with state := state } ∧
      (state = c.state ∨ state = .kInited ∧ c.connectedCb = true) := by
  rw [checkSettingAndTryEnterIdleState]
  split_ifs with hstate hset
  · exact ⟨.kInited, rfl, .inr ⟨rfl, hset.2⟩⟩
  · exact ⟨c.state, rfl, .inl rfl⟩
  · exact ⟨c.state, rfl, .inl rfl⟩

theorem initialized (c : TcpConnector) (serverAddr : AddrType) (hstate : c.state = .kNone) :
    ∃ state, (c.setServerAddr serverAddr).setConnectedCallback true =
        { c with serverAddr := serverAddr, connectedCb := true, state := state } ∧
      (state = .kNone ∨ state = .kInited) := by
  obtain ⟨first, hfirst, hcases⟩ := checkSetting_eq { c with serverAddr := serverAddr }
  obtain ⟨second, hsecond, hcases'⟩ := checkSetting_eq
    { c with serverAddr := serverAddr, connectedCb := true, state := first }
  refine ⟨second, ?_, ?_⟩
  · rw [setServerAddr, hfirst]
    exact hsecond
  · rcases hcases' with rfl | ⟨rfl, -⟩
    · exact hcases.imp (fun heq => heq.trans hstate) And.left
    · exact .inr rfl

namespace World

variable {w : World} {attempt : Attempt}

structure SameSettings (w u : World) : Prop where
  crashed : u.crashed = w.crashed
  calls : u.calls = w.calls
  plain : u.connector.Plain
  connectedCb : u.connector.connectedCb = w.connector.connectedCb

theorem onConnectFail_eq (h : w.connector.Plain) :
    w.onConnectFail = { w.failedAttempt false with
      connector := { w.connector with
        connFailTimes := w.connector.connFailTimes + 1, spDelayEv := some (), state := .kReconnectDelay } } := by
  have hlast : decide w.connector.LastTry = false := decide_eq_false h.not_lastTry
  rw [onConnectFail, hlast]
  simp only [Bool.false_and, Bool.false_eq_true, if_false, failedAttempt, enterReconnectDelayState,
    h.reconnDelayCalcFunc, startDelay]

theorem sameSettings_onConnectFail (h : w.connector.Plain) : w.SameSettings w.onConnectFail := by
  rw [onConnectFail_eq h]
  exact ⟨rfl, rfl, { h with }, rfl⟩

theorem pursues_onConnectFail (h : w.connector.Plain) (hidle : w.connector.Idle) :
    w.onConnectFail.connector.Pursues := by
  rw [onConnectFail_eq h]
  exact .inr ⟨rfl, hidle.write, rfl⟩

theorem sameSettings_enterConnectingState (attempt : Attempt) (h : w.connector.Plain) :
    w.SameSettings (w.enterConnectingState attempt) := by
  rw [enterConnectingState]
  split
  · exact ⟨rfl, rfl, h, rfl⟩
  split_ifs
  · exact ⟨rfl, rfl, { h with }, rfl⟩
  · exact sameSettings_onConnectFail h
  · exact ⟨rfl, rfl, { h with }, rfl⟩

theorem pursues_enterConnectingState (h : w.connector.Plain) (hidle : w.connector.Idle)
    (hattempt : w.connector.GoesOn attempt) : (w.enterConnectingState attempt).connector.Pursues := by
  rw [GoesOn] at hattempt
  rw [enterConnectingState]
  cases hanswer : w.connector.createSocket attempt with
  | noSocket =>
    rw [hanswer] at hattempt
    exact hattempt.elim
  | answered connErrno =>
    rw [hanswer] at hattempt
    dsimp only
    split_ifs with hprogress hretry
    · exact .inl ⟨rfl, rfl, hidle.delay⟩
    · exact pursues_onConnectFail h hidle
    · exact absurd hattempt (not_or.mpr ⟨hprogress, hretry⟩)

theorem idle_enterConnectingState (hidle : w.connector.Idle) (hattempt : ¬w.connector.GoesOn attempt) :
    (w.enterConnectingState attempt).connector.Idle := by
  rw [GoesOn] at hattempt
  rw [enterConnectingState]
  cases hanswer : w.connector.createSocket attempt with
  | noSocket => exact hidle
  | answered connErrno =>
    rw [hanswer] at hattempt
    obtain ⟨hprogress, hretry⟩ := not_or.mp hattempt
    dsimp only
    rw [if_neg hprogress, if_neg hretry]
    exact ⟨hidle.write, hidle.delay⟩

theorem stop_of_pursues (h : w.connector.Pursues) :
    w.stop = { w with
      series := .stopped
      connector := { w.connector with spWriteEv := none, spDelayEv := none, state := .kInited } } := by
  rcases h with ⟨hstate, hwrite, hdelay⟩ | ⟨hstate, hwrite, hdelay⟩
  · simp only [stop, hstate, exitConnectingState, hwrite]
    rw [← hdelay]
  · simp only [stop, hstate, exitReconnectDelayState, hdelay]
    rw [← hwrite]

theorem cleanup_of_idle (h : w.connector.Plain) (hidle : w.connector.Idle)
    (hstate : w.connector.state = .kNone ∨ w.connector.state = .kInited) :
    w.cleanup.crashed = w.crashed ∧ w.cleanup.connector.Plain ∧ w.cleanup.connector.state = .kNone ∧
      w.cleanup.connector.Idle := by
  rcases hstate with hstate | hstate
  · rw [cleanup, if_pos hstate]
    exact ⟨rfl, h, hstate, hidle⟩
  · have hstop : w.stop = { w with series := .stopped } := by simp only [stop, hstate]
    rw [cleanup, if_neg (by rw [hstate]; decide), hstop]
    exact ⟨rfl, ⟨rfl, rfl, rfl⟩, rfl, hidle.write, hidle.delay⟩

end World

end TcpConnector

namespace TcpClient

open TcpConnector

variable {c t : TcpClient} {a : Action} {attempt : Attempt}

/-- It is connected if there is a connection, and connecting if its connector is at it. -/
structure Agrees (c : TcpClient) : Prop where
  connected : c.state = .kConnected ↔ c.spConnection ≠ none
  connecting : c.state = .kConnecting ↔ c.connector.state = .kConnecting ∨ c.connector.state = .kReconnectDelay
  inProgress : c.state = .kConnecting → c.connector.spWriteEv = some true ∨ c.connector.spDelayEv = some ()

/-- The client is started when its connector has an address, no attempt ends for good, and SO_ERROR can be read. -/
def Heeds (c : TcpClient) : Action → Prop
  | .start attempt => c.state = .kInited → c.connector.state = .kInited ∧ c.connector.GoesOn attempt
  | .closed attempt => c.reconnectEnabled = true → c.connector.GoesOn attempt
  | .delayTimeout attempt => c.connector.GoesOn attempt
  | .writable sockErrno => sockErrno ≠ none
  | _ => True

def Stands : State → TcpConnector → Prop
  | .kNone, conn => conn.state = .kNone ∧ conn.Idle
  | .kInited, conn => (conn.state = .kNone ∨ conn.state = .kInited ∧ conn.connectedCb = true) ∧ conn.Idle
  | .kConnecting, conn => conn.Pursues ∧ conn.connectedCb = true
  | .kConnected, conn => (conn.state = .kInited ∧ conn.connectedCb = true) ∧ conn.Idle

structure Kept (c : TcpClient) : Prop where
  alive : c.spConnector.crashed = false
  plain : c.connector.Plain
  connection : c.state = .kConnected ↔ c.spConnection ≠ none
  stands : Stands c.state c.connector

theorem Kept.agrees (h : c.Kept) : c.Agrees := by
  have hstands := h.stands
  refine ⟨h.connection, ?_, ?_⟩
  · cases hstate : c.state with
    | kNone =>
      rw [hstate] at hstands
      rw [hstands.1]
      decide
    | kInited =>
      rw [hstate] at hstands
      obtain ⟨hconn | ⟨hconn, -⟩, -⟩ := hstands
      all_goals
        rw [hconn]
        decide
    | kConnecting =>
      rw [hstate] at hstands
      exact iff_of_true rfl (hstands.1.imp And.left And.left)
    | kConnected =>
      rw [hstate] at hstands
      rw [hstands.1.1]
      decide
  · intro hstate
    rw [hstate] at hstands
    exact hstands.1.imp (fun hwrite => hwrite.2.1) (fun hdelay => hdelay.2.2)

theorem kept_initial : Kept {} := ⟨rfl, ⟨rfl, rfl, rfl⟩, iff_of_false nofun (fun hne => hne rfl), rfl, rfl, rfl⟩

theorem Kept.initializeClient (h : c.Kept) (serverAddr : AddrType) : (c.initializeClient serverAddr).Kept := by
  rw [TcpClient.initializeClient]
  split_ifs with hstate
  · exact h
  replace hstate := not_not.mp hstate
  have hstands := h.stands
  rw [hstate] at hstands
  obtain ⟨state, heq, hcases⟩ := initialized c.connector serverAddr hstands.1
  refine ⟨h.alive, ?_, ?_, ?_⟩
  · rw [connector]
    dsimp only
    rw [show c.spConnector.connector = c.connector from rfl, heq]
    exact ⟨h.plain.connectFailCb, h.plain.reconnDelayCalcFunc, h.plain.tryTimes⟩
  · have hconnection := h.connection
    rw [hstate] at hconnection
    exact iff_of_false nofun (fun hne => nomatch hconnection.mpr hne)
  rw [connector]
  dsimp only
  rw [show c.spConnector.connector = c.connector from rfl, heq]
  exact ⟨hcases.imp_right fun hinited => ⟨hinited, rfl⟩, hstands.2.write, hstands.2.delay⟩

theorem start_eq (hstate : c.state = .kInited) (hconn : c.connector.state = .kInited) :
    c.start attempt = { c with
      state := .kConnecting
      spConnector := World.enterConnectingState { c.spConnector with
        connector := { c.connector with connFailTimes := 0 }, failed := 0, series := .going } attempt } := by
  have hconn : c.spConnector.connector.state = .kInited := hconn
  rw [start, if_neg (not_not.mpr hstate), World.start, if_neg (not_not.mpr hconn)]
  rfl

theorem Kept.start_of_inited (h : c.Kept) (hstate : c.state = .kInited) (hconn : c.connector.state = .kInited)
    (hattempt : c.connector.GoesOn attempt) : (c.start attempt).Kept := by
  have hstands := h.stands
  rw [hstate] at hstands
  have hcb : c.connector.connectedCb = true := by
    rcases hstands.1 with hnone | hinited
    · exact nomatch hnone.symm.trans hconn
    · exact hinited.2
  rw [start_eq hstate hconn]
  have hplain : ({ c.connector with connFailTimes := 0 } : TcpConnector).Plain :=
    ⟨h.plain.connectFailCb, h.plain.reconnDelayCalcFunc, h.plain.tryTimes⟩
  have hidle : ({ c.connector with connFailTimes := 0 } : TcpConnector).Idle := ⟨hstands.2.write, hstands.2.delay⟩
  have hsame := World.sameSettings_enterConnectingState attempt (w := { c.spConnector with
    connector := { c.connector with connFailTimes := 0 }, failed := 0, series := .going }) hplain
  refine ⟨hsame.crashed.trans h.alive, hsame.plain, ?_, ?_, hsame.connectedCb.trans hcb⟩
  · have hconnection := h.connection
    rw [hstate] at hconnection
    exact iff_of_false nofun (fun hne => nomatch hconnection.mpr hne)
  · exact World.pursues_enterConnectingState hplain hidle hattempt

theorem Kept.start_disagrees (h : c.Kept) (hstate : c.state = .kInited)
    (hnot : ¬(c.connector.state = .kInited ∧ c.connector.GoesOn attempt)) : ¬(c.start attempt).Agrees := by
  intro hagrees
  have hstands := h.stands
  rw [hstate] at hstands
  by_cases hconn : c.connector.state = .kInited
  · rw [start_eq hstate hconn] at hagrees
    have hidle := World.idle_enterConnectingState (w := { c.spConnector with
      connector := { c.connector with connFailTimes := 0 }, failed := 0, series := .going })
      ⟨hstands.2.write, hstands.2.delay⟩ (fun hattempt => hnot ⟨hconn, hattempt⟩)
    rcases hagrees.inProgress rfl with hwrite | hdelay
    · exact nomatch hidle.write.symm.trans hwrite
    · exact nomatch hidle.delay.symm.trans hdelay
  · have hsame : (c.start attempt).connector = c.connector := by
      have hconn : c.spConnector.connector.state ≠ .kInited := hconn
      rw [start, if_neg (not_not.mpr hstate), World.start, connector]
      rw [if_pos hconn]
      rfl
    have hconnecting : (c.start attempt).state = .kConnecting := by rw [start, if_neg (not_not.mpr hstate)]
    rcases hagrees.inProgress hconnecting with hwrite | hdelay
    · rw [hsame, hstands.2.write] at hwrite
      cases hwrite
    · rw [hsame, hstands.2.delay] at hdelay
      cases hdelay

theorem Kept.stop (h : c.Kept) : c.stop.Kept ∧ (c.state ≠ .kNone → c.stop.state = .kInited) := by
  have hstands := h.stands
  rw [TcpClient.stop.eq_def]
  cases hstate : c.state with
  | kNone => exact ⟨h, fun hne => absurd rfl hne⟩
  | kInited => exact ⟨h, fun _ => hstate⟩
  | kConnecting =>
    rw [hstate] at hstands
    have hconnection := h.connection
    rw [hstate] at hconnection
    rw [World.stop_of_pursues hstands.1]
    refine ⟨⟨h.alive, ⟨h.plain.connectFailCb, h.plain.reconnDelayCalcFunc, h.plain.tryTimes⟩, ?_, ?_, rfl, rfl⟩,
      fun _ => rfl⟩
    · exact iff_of_false nofun (fun hne => nomatch hconnection.mpr hne)
    · exact .inr ⟨rfl, hstands.2⟩
  | kConnected =>
    rw [hstate] at hstands
    refine ⟨⟨h.alive, h.plain, ?_, .inr hstands.1, hstands.2⟩, fun _ => rfl⟩
    exact iff_of_false nofun (fun hne => hne rfl)

theorem Kept.cleanup (h : c.Kept) : c.cleanup.Kept := by
  rw [TcpClient.cleanup]
  split_ifs with hstate
  · exact h
  obtain ⟨hstop, hinited⟩ := h.stop
  replace hinited := hinited hstate
  have hstands := hstop.stands
  rw [hinited] at hstands
  have hconnection := hstop.connection
  rw [hinited] at hconnection
  obtain ⟨hcrashed, hplain, hconn, hidle⟩ :=
    World.cleanup_of_idle hstop.plain hstands.2 (hstands.1.imp_right And.left)
  refine ⟨hcrashed.trans hstop.alive, hplain, ?_, hconn, hidle⟩
  exact iff_of_false nofun (fun hne => nomatch hconnection.mpr hne)

theorem Kept.disconnected (h : c.Kept) (hstate : c.state = .kConnected) :
    Kept { c.releaseConnection with state := .kInited } ∧ c.connector.state = .kInited := by
  have hstands := h.stands
  rw [hstate] at hstands
  refine ⟨⟨h.alive, h.plain, ?_, .inr hstands.1, hstands.2⟩, hstands.1.1⟩
  exact iff_of_false nofun (fun hne => hne rfl)

theorem Kept.onTcpDisconnected (h : c.Kept) (hstate : c.state = .kConnected) :
    (c.reconnectEnabled = true → c.connector.GoesOn attempt) → (c.onTcpDisconnected attempt).Kept := by
  intro hheeds
  obtain ⟨hkept, hconn⟩ := h.disconnected hstate
  rw [TcpClient.onTcpDisconnected]
  split_ifs with henabled
  · exact hkept.start_of_inited rfl hconn (hheeds henabled)
  · exact hkept

theorem Kept.onTcpDisconnected_disagrees (h : c.Kept) (hstate : c.state = .kConnected)
    (hnot : ¬(c.reconnectEnabled = true → c.connector.GoesOn attempt)) : ¬(c.onTcpDisconnected attempt).Agrees := by
  obtain ⟨henabled, hattempt⟩ := Classical.not_imp.mp hnot
  obtain ⟨hkept, hconn⟩ := h.disconnected hstate
  rw [TcpClient.onTcpDisconnected]
  rw [if_pos (show c.releaseConnection.reconnectEnabled = true from henabled)]
  exact hkept.start_disagrees rfl fun hgoes => hattempt hgoes.2

theorem Kept.of_writeEvent (h : c.Kept) (hevent : c.connector.spWriteEv = some true) :
    c.state = .kConnecting ∧ c.connector.state = .kConnecting ∧ c.connector.spDelayEv = none ∧
      c.connector.connectedCb = true := by
  have hstands := h.stands
  cases hstate : c.state with
  | kNone =>
    rw [hstate] at hstands
    exact nomatch hstands.2.write.symm.trans hevent
  | kInited =>
    rw [hstate] at hstands
    exact nomatch hstands.2.write.symm.trans hevent
  | kConnecting =>
    rw [hstate] at hstands
    obtain ⟨⟨hconn, -, hdelay⟩ | ⟨-, hwrite, -⟩, hcb⟩ := hstands
    · exact ⟨rfl, hconn, hdelay, hcb⟩
    · exact nomatch hwrite.symm.trans hevent
  | kConnected =>
    rw [hstate] at hstands
    exact nomatch hstands.2.write.symm.trans hevent

theorem Kept.of_delayEvent (h : c.Kept) (hevent : c.connector.spDelayEv = some ()) :
    c.state = .kConnecting ∧ c.connector.state = .kReconnectDelay ∧ c.connector.spWriteEv = none ∧
      c.connector.connectedCb = true := by
  have hstands := h.stands
  cases hstate : c.state with
  | kNone =>
    rw [hstate] at hstands
    exact nomatch hstands.2.delay.symm.trans hevent
  | kInited =>
    rw [hstate] at hstands
    exact nomatch hstands.2.delay.symm.trans hevent
  | kConnecting =>
    rw [hstate] at hstands
    obtain ⟨⟨-, -, hdelay⟩ | ⟨hconn, hwrite, -⟩, hcb⟩ := hstands
    · exact nomatch hdelay.symm.trans hevent
    · exact ⟨rfl, hconn, hwrite, hcb⟩
  | kConnected =>
    rw [hstate] at hstands
    exact nomatch hstands.2.delay.symm.trans hevent

theorem Kept.onSocketWritable (h : c.Kept) (hevent : c.connector.spWriteEv = some true) (errno : Errno) :
    (c.onSocketWritable (some errno)).Kept := by
  obtain ⟨hstate, hconn, hdelay, hcb⟩ := h.of_writeEvent hevent
  have hexit : ({ c.spConnector with connector := { c.connector with spWriteEv := some false } } :
      World).exitConnectingState = { c.spConnector with connector := { c.connector with spWriteEv := none } } :=
    World.exitConnectingState_eq (some_ne_none false)
  cases errno with
  | zero =>
    have hsome : c.spConnector.onSocketWritable (some 0) =
        World.call { c.spConnector with
          connector := { c.connector with spWriteEv := none, state := .kInited }, series := .over } .connected := by
      rw [World.onSocketWritable.eq_def]
      dsimp only
      rw [show c.spConnector.connector = c.connector from rfl, hexit]
      exact if_pos hcb
    have hcalls : c.spConnector.calls.length < (c.spConnector.onSocketWritable (some 0)).calls.length := by
      rw [hsome, World.call, length_append]
      exact Nat.lt_add_of_pos_right Nat.one_pos
    rw [TcpClient.onSocketWritable]
    rw [if_pos hcalls, hsome]
    exact ⟨h.alive, ⟨h.plain.connectFailCb, h.plain.reconnDelayCalcFunc, h.plain.tryTimes⟩,
      iff_of_true rfl (some_ne_none _), ⟨rfl, hcb⟩, rfl, hdelay⟩
  | succ errno =>
    have hfail : c.spConnector.onSocketWritable (some (errno + 1)) =
        World.onConnectFail { c.spConnector with connector := { c.connector with spWriteEv := none } } :=
      congrArg World.onConnectFail hexit
    have hplain : ({ c.connector with spWriteEv := none } : TcpConnector).Plain :=
      ⟨h.plain.connectFailCb, h.plain.reconnDelayCalcFunc, h.plain.tryTimes⟩
    have hsame := World.sameSettings_onConnectFail
      (w := { c.spConnector with connector := { c.connector with spWriteEv := none } }) hplain
    have hpursues := World.pursues_onConnectFail
      (w := { c.spConnector with connector := { c.connector with spWriteEv := none } }) hplain ⟨rfl, hdelay⟩
    rw [TcpClient.onSocketWritable, hfail]
    rw [if_neg (by rw [hsame.calls]; exact lt_irrefl _)]
    refine ⟨hsame.crashed.trans h.alive, hsame.plain, h.connection, ?_⟩
    rw [hstate]
    exact ⟨hpursues, hsame.connectedCb.trans hcb⟩

theorem Kept.onSocketWritable_disagrees (h : c.Kept) (hevent : c.connector.spWriteEv = some true) :
    ¬(c.onSocketWritable none).Agrees := by
  obtain ⟨hstate, -, hdelay, -⟩ := h.of_writeEvent hevent
  have hnone : c.onSocketWritable none = { c with spConnector := { c.spConnector with
      connector := { c.connector with spWriteEv := some false } } } := by
    rw [TcpClient.onSocketWritable]
    exact if_neg (lt_irrefl _)
  rw [hnone]
  intro hagrees
  rcases hagrees.inProgress hstate with hwrite | hdelay'
  · cases hwrite
  · exact nomatch hdelay.symm.trans hdelay'

theorem Kept.onDelayTimeout (h : c.Kept) (hevent : c.connector.spDelayEv = some ())
    (hattempt : c.connector.GoesOn attempt) : (c.onDelayTimeout attempt).Kept := by
  obtain ⟨hstate, -, hwrite, hcb⟩ := h.of_delayEvent hevent
  have hne : c.spConnector.connector.spDelayEv ≠ none := by
    intro hnone
    exact nomatch hevent.symm.trans hnone
  have hplain : ({ c.connector with spDelayEv := none } : TcpConnector).Plain :=
    ⟨h.plain.connectFailCb, h.plain.reconnDelayCalcFunc, h.plain.tryTimes⟩
  rw [TcpClient.onDelayTimeout, World.onDelayTimeout, World.exitReconnectDelayState_eq hne]
  have hsame := World.sameSettings_enterConnectingState attempt
    (w := { c.spConnector with connector := { c.connector with spDelayEv := none } }) hplain
  refine ⟨hsame.crashed.trans h.alive, hsame.plain, h.connection, ?_⟩
  rw [hstate]
  exact ⟨World.pursues_enterConnectingState hplain ⟨hwrite, rfl⟩ hattempt, hsame.connectedCb.trans hcb⟩

theorem Kept.onDelayTimeout_disagrees (h : c.Kept) (hevent : c.connector.spDelayEv = some ())
    (hattempt : ¬c.connector.GoesOn attempt) : ¬(c.onDelayTimeout attempt).Agrees := by
  obtain ⟨hstate, -, hwrite, -⟩ := h.of_delayEvent hevent
  have hne : c.spConnector.connector.spDelayEv ≠ none := by
    intro hnone
    cases hevent.symm.trans hnone
  rw [TcpClient.onDelayTimeout, World.onDelayTimeout, World.exitReconnectDelayState_eq hne]
  intro hagrees
  have hidle := World.idle_enterConnectingState
    (w := { c.spConnector with connector := { c.connector with spDelayEv := none } }) ⟨hwrite, rfl⟩ hattempt
  rcases hagrees.inProgress hstate with hwrite | hdelay
  · cases hidle.write.symm.trans hwrite
  · cases hidle.delay.symm.trans hdelay

/-- A heeded step keeps the two in agreement, and any other one ends it. -/
theorem Kept.step (h : c.Kept) (hstep : c.step a = some t) : (Heeds c a → t.Kept) ∧ (¬Heeds c a → ¬t.Agrees) := by
  rw [TcpClient.step.eq_def, if_neg (by rw [h.alive]; exact Bool.false_ne_true)] at hstep
  cases a with
  | initializeClient serverAddr =>
    cases some.inj hstep
    exact ⟨fun _ => h.initializeClient serverAddr, fun hnot => absurd trivial hnot⟩
  | setAutoReconnect enable =>
    cases some.inj hstep
    exact ⟨fun _ => { h with }, fun hnot => absurd trivial hnot⟩
  | start attempt =>
    cases some.inj hstep
    constructor
    · intro hheeds
      by_cases hstate : c.state = .kInited
      · obtain ⟨hconn, hattempt⟩ := hheeds hstate
        exact h.start_of_inited hstate hconn hattempt
      · rw [start, if_pos hstate]
        exact h
    · intro hnot
      obtain ⟨hstate, hnot⟩ := Classical.not_imp.mp hnot
      exact h.start_disagrees hstate hnot
  | stop =>
    cases some.inj hstep
    exact ⟨fun _ => h.stop.1, fun hnot => absurd trivial hnot⟩
  | cleanup =>
    cases some.inj hstep
    exact ⟨fun _ => h.cleanup, fun hnot => absurd trivial hnot⟩
  | writable sockErrno =>
    obtain ⟨hevent, rfl⟩ := ite_some_none_eq_some.mp hstep
    cases sockErrno with
    | none => exact ⟨fun hne => absurd rfl hne, fun _ => h.onSocketWritable_disagrees hevent⟩
    | some errno =>
      exact ⟨fun _ => h.onSocketWritable hevent errno, fun hnot => absurd (some_ne_none errno) hnot⟩
  | delayTimeout attempt =>
    obtain ⟨hevent, rfl⟩ := ite_some_none_eq_some.mp hstep
    exact ⟨h.onDelayTimeout hevent, h.onDelayTimeout_disagrees hevent⟩
  | closed attempt =>
    obtain ⟨hsome, rfl⟩ := ite_some_none_eq_some.mp hstep
    have hstate := h.connection.mpr (isSome_iff_ne_none.mp hsome)
    exact ⟨h.onTcpDisconnected hstate, h.onTcpDisconnected_disagrees hstate⟩
  | runNext =>
    cases some.inj hstep
    exact ⟨fun _ => { h with }, fun hnot => absurd trivial hnot⟩

/-- **The client agrees with its connector** in every state of a run exactly if every step is heeded. -/
theorem agrees_iff_heeds (as : List Action) :
    Always TcpClient.step Agrees {} as ↔ Along TcpClient.step Heeds {} as := by
  -- what is kept is lost with the agreement, and then nothing is asked
  refine always_iff_along (I := fun c => c.Agrees → c.Kept) (b := fun _ _ => True) ?_ ?_ (fun _ => kept_initial)
    (along_of_forall fun _ _ => trivial) kept_initial.agrees
  · intro c a t hc _ hagrees ht hnext
    obtain ⟨hheeds, hnot⟩ := (hc hagrees).step ht
    exact hheeds (Classical.byContradiction fun h => hnot h hnext)
  · intro c a t hc _ hagrees ht
    obtain ⟨hheeds, hnot⟩ := (hc hagrees).step ht
    exact ⟨fun hnext => Classical.byContradiction fun h => hnot h hnext, fun h => (hheeds h).agrees⟩

/-- The client is started when no socket can be had. -/
def startWithoutSocket : List Action := [.initializeClient .kIPv4, .start .noSocket]

theorem startWithoutSocket_disagrees : ¬Always TcpClient.step Agrees {} startWithoutSocket := by
  intro halways
  have hrun : ∃ c, run TcpClient.step {} startWithoutSocket = some c ∧ c.state = .kConnecting ∧
      c.connector.spWriteEv = none ∧ c.connector.spDelayEv = none := ⟨_, rfl, rfl, rfl, rfl⟩
  obtain ⟨c, hc, hstate, hwrite, hdelay⟩ := hrun
  rcases (halways _ (List.prefix_refl _) c hc).inProgress hstate with h | h
  · exact nomatch hwrite.symm.trans h
  · exact nomatch hdelay.symm.trans h

end TcpClient

end Tbox.Network
