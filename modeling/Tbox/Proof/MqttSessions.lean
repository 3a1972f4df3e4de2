import Tbox.Lib.Run
import Tbox.Mqtt.Client

/-!
# Sessions of the MQTT client

While `stop` finds nothing that it does not undo, a session that has been stopped is over: no result, no event and no
callback of it is left.
-/

open List Option

namespace Tbox.Mqtt

open Tbox.Lib (Along run)
open Client (Parting)

variable {client next : Client} {session : Option Nat} {mosq : Mosq} {callback : UserCallback} {state : State}

/-- Results are applied to their own session, events are enabled only while the client is started, threads are joined
once, and what has been stopped makes no callback. -/
structure Orderly (client : Client) : Prop where
  applied : ∀ pair ∈ client.applied, pair.1 = pair.2
  events : client.isTimerEnabled = true ∨ client.isReadEnabled = true ∨ client.isWriteEnabled = true →
    client.state.isStarted = true
  joined : ∀ id < client.threads, client.joined.count id = if client.spThread.map Thread.id = some id then 0 else 1
  called : ∀ called ∈ client.called, called.isStopped = false

def Quiet (client : Client) : Prop := client.isReadEnabled = false ∧ client.isWriteEnabled = false

instance (client : Client) : Decidable (Quiet client) := inferInstanceAs (Decidable (_ ∧ _))

def isDisconnect : MosqCallback → Bool
  | .disconnect _ => true
  | _ => false

/-- What `stop` does not undo is not there. -/
def Undoable (client : Client) (parting : Parting) : Prop :=
  (client.state = .kConnecting ∨ client.state = .kReconnWaiting →
    Quiet client ∧ client.spThread.all Thread.isReconnect = true) ∧
  (client.state.isConnected = true →
    client.spThread = none ∧ (Quiet client ∨ parting.callbacks.any isDisconnect = true)) ∧
  (client.state = .kEnd → client.spThread = none ∧ Quiet client)

instance (client : Client) (parting : Parting) : Decidable (Undoable client parting) :=
  inferInstanceAs (Decidable (_ ∧ _ ∧ _))

/-- That is so whenever a session is stopped, and all of the one before is over when the next one begins. -/
def Heeds (client : Client) : Action → Prop
  | .start reinitialiseRet => client.state = .kInited ∨ client.state = .kEnd → reinitialiseRet = MOSQ_ERR_SUCCESS →
      client.spThread = none ∧ client.posted = []
  | .stop parting => Undoable client parting
  | .cleanup parting => Undoable client parting ∧ (client.state = .kEnd → client.isTimerEnabled = false)
  | _ => True

instance decidableHeeds (client : Client) : ∀ action, Decidable (Heeds client action)
  | .start _ => inferInstanceAs (Decidable (_ → _ → _))
  | .stop _ => inferInstanceAs (Decidable (Undoable _ _))
  | .cleanup _ => inferInstanceAs (Decidable (_ ∧ _))
  | .initializeClient _ _ | .request _ | .connectDone _ | .runPosted _ _ | .timerTick _ | .socketRead _
  | .socketWrite _ => .isTrue trivial

structure Kept (client : Client) : Prop where
  orderly : Orderly client
  numbered : ∀ thread, client.spThread = some thread → thread.id < client.threads ∧ thread.session = client.session
  known : ∀ id ∈ client.joined, id < client.threads
  /-- what is posted is the result of the thread -/
  posted : ∀ thread, client.spThread = some thread →
    if thread.isFinished then ∃ ret, client.posted = [thread.posts ret] else client.posted = []
  /-- or of one that has been stopped -/
  left : client.spThread = none → client.posted ≠ [] →
    client.state.isStarted = false ∧ ∀ result ∈ client.posted, result.isReconnect = true
  resting : client.state.isStarted = false → client.spThread = none
  stopped : ∀ session ∈ client.stopped, session ≤ client.session
  ended : client.session ∈ client.stopped → client.state.isStarted = true →
    client.state = .kEnd ∧ client.spThread = none ∧ Quiet client

structure Live (session : Option Nat) (client : Client) : Prop where
  kept : Kept client
  started : client.state.isStarted = true
  current : client.session ∉ client.stopped
  session : ∀ k, session = some k → k ∉ client.stopped

theorem Kept.live (h : Kept client) (hstarted : client.state.isStarted = true)
    (hcurrent : ¬(client.state = .kEnd ∧ client.spThread = none ∧ Quiet client)) :
    Live (some client.session) client := by
  have hsession : client.session ∉ client.stopped := fun hmem => hcurrent (h.ended hmem hstarted)
  refine ⟨h, hstarted, hsession, fun k hk => ?_⟩
  rw [← some.inj hk]
  exact hsession

variable {thread : Thread}

theorem Kept.started_of_thread (h : Kept client) (hthread : client.spThread = some thread) :
    client.state.isStarted = true := by
  by_contra hfalse
  have hnone := h.resting (Bool.eq_false_iff.mpr hfalse)
  rw [hthread] at hnone
  cases hnone

theorem call_frame (client : Client) (session : Option Nat) (callback : UserCallback) :
    ∃ called, client.call session callback = { client with called := called } := by
  rw [Client.call]
  split
  · exact ⟨_, rfl⟩
  · exact ⟨client.called, rfl⟩

theorem called_call (h : ∀ called ∈ client.called, called.isStopped = false)
    (hsession : ∀ k, session = some k → k ∉ client.stopped) (callback : UserCallback) :
    ∀ called ∈ (client.call session callback).called, called.isStopped = false := by
  rw [Client.call]
  split
  · intro called hmem
    obtain hold | hnew := mem_append.mp hmem
    · exact h called hold
    rw [mem_singleton.mp hnew]
    cases session with
    | none => rfl
    | some k => exact decide_eq_false (hsession k rfl)
  · exact h

theorem Kept.call (h : Kept client) (hsession : ∀ k, session = some k → k ∉ client.stopped)
    (callback : UserCallback) : Kept (client.call session callback) := by
  have hcalled := called_call h.orderly.called hsession callback
  obtain ⟨called, hcall⟩ := call_frame client session callback
  rw [hcall] at hcalled ⊢
  exact { h with orderly := { h.orderly with called := hcalled } }

theorem Live.call (h : Live session client) (callback : UserCallback) :
    Live session (client.call session callback) := by
  have hkept := h.kept.call h.session callback
  obtain ⟨called, hcall⟩ := call_frame client session callback
  rw [hcall] at hkept ⊢
  exact { h with kept := hkept }

theorem Live.setState (h : Live session client) (hstate : state.isStarted = true) (remainSec : Int) :
    Live session { client with state := state, reconnectWaitRemainSec := remainSec } where
  kept :=
    { h.kept with
      orderly := { h.kept.orderly with events := fun _ => hstate }
      left := fun hnone hposted => Bool.noConfusion (h.started.symm.trans (h.kept.left hnone hposted).1)
      resting := fun hfalse => Bool.noConfusion (hstate.symm.trans hfalse)
      ended := fun hmem => absurd hmem h.current }
  started := hstate
  current := h.current
  session := h.session

theorem Live.updateStateTo (h : Live session client) (hstate : state.isStarted = true) :
    Live session (client.updateStateTo session state) :=
  (h.setState hstate client.reconnectWaitRemainSec).call (.stateChanged state)

theorem Live.tryReconnect (h : Live session client) : Live session (client.tryReconnect session) := by
  rw [Client.tryReconnect]
  split
  · split
    · exact (h.setState h.started client.config.autoReconnectWaitSec).updateStateTo rfl
    · exact (h.setState h.started 0).updateStateTo rfl
  · exact h.updateStateTo rfl

theorem Live.setEvents (h : Live session client) (isReadEnabled isWriteEnabled : Bool) :
    Live session { client with isReadEnabled := isReadEnabled, isWriteEnabled := isWriteEnabled } where
  kept :=
    { h.kept with
      orderly := { h.kept.orderly with events := fun _ => h.started }
      ended := fun hmem => absurd hmem h.current }
  started := h.started
  current := h.current
  session := h.session

theorem Live.handleDisconnectEvent (h : Live session client) : Live session (client.handleDisconnectEvent session) := by
  have hevents := h.setEvents false false
  rw [Client.handleDisconnectEvent]
  split
  · exact hevents.tryReconnect.call _
  · exact hevents

theorem Live.onCallback (h : Live session client) (callback : MosqCallback) :
    Live session (client.onCallback session callback) := by
  cases callback with
  | connect rc =>
    rw [Client.onCallback, Client.onConnected]
    split
    · exact h
    · split
      · exact (h.updateStateTo rfl).call _
      · exact h
  | disconnect rc => exact h.handleDisconnectEvent
  | publish => exact h.call _
  | message isNull =>
    rw [Client.onCallback]
    split
    · exact h
    · exact h.call _
  | subscribe => exact h.call _
  | unsubscribe => exact h.call _
  | log => exact h

theorem Live.onCallbacks (h : Live session client) (callbacks : List MosqCallback) :
    Live session (client.onCallbacks session callbacks) := by
  induction callbacks generalizing client with
  | nil => exact h
  | cons callback callbacks ih => exact ih (h.onCallback callback)

theorem Live.enableSocketWriteIfNeed (h : Live session client) (mosq : Mosq) :
    Live session (client.enableSocketWriteIfNeed mosq) := by
  rw [Client.enableSocketWriteIfNeed, Client.enableSocketWrite]
  split
  · split
    · exact h
    · exact h.setEvents client.isReadEnabled true
  · exact h

theorem Live.enableSocketRead (h : Live session client) (mosq : Mosq) :
    Live session (client.enableSocketRead mosq) := by
  rw [Client.enableSocketRead]
  split
  · exact h
  · exact h.setEvents true client.isWriteEnabled

structure Milder (client next : Client) : Prop where
  frame : ∃ state remainSec isReadEnabled isWriteEnabled called, next =
    { client with
      state := state
      reconnectWaitRemainSec := remainSec
      isReadEnabled := isReadEnabled
      isWriteEnabled := isWriteEnabled
      called := called }
  quiet : Quiet client → Quiet next

theorem Milder.refl (client : Client) : Milder client client := ⟨⟨_, _, _, _, _, rfl⟩, id⟩

theorem Milder.trans {last : Client} (h : Milder client next) (hlast : Milder next last) : Milder client last := by
  obtain ⟨⟨_, _, _, _, _, rfl⟩, hquiet⟩ := h
  obtain ⟨⟨_, _, _, _, _, rfl⟩, hquiet'⟩ := hlast
  exact ⟨⟨_, _, _, _, _, rfl⟩, fun h => hquiet' (hquiet h)⟩

theorem milder_call (client : Client) (session : Option Nat) (callback : UserCallback) :
    Milder client (client.call session callback) := by
  obtain ⟨called, hcall⟩ := call_frame client session callback
  rw [hcall]
  exact ⟨⟨_, _, _, _, _, rfl⟩, id⟩

theorem milder_setState (client : Client) (state : State) (remainSec : Int) :
    Milder client { client with state := state, reconnectWaitRemainSec := remainSec } :=
  ⟨⟨_, _, _, _, _, rfl⟩, id⟩

theorem milder_updateStateTo (client : Client) (session : Option Nat) (state : State) :
    Milder client (client.updateStateTo session state) :=
  (milder_setState client state client.reconnectWaitRemainSec).trans (milder_call _ session (.stateChanged state))

theorem milder_tryReconnect (client : Client) (session : Option Nat) :
    Milder client (client.tryReconnect session) := by
  rw [Client.tryReconnect]
  split
  · split
    · exact (milder_setState client client.state client.config.autoReconnectWaitSec).trans (milder_updateStateTo _ _ _)
    · exact (milder_setState client client.state 0).trans (milder_updateStateTo _ _ _)
  · exact milder_updateStateTo _ _ _

theorem milder_handleDisconnectEvent (client : Client) (session : Option Nat) :
    Milder client (client.handleDisconnectEvent session) ∧ Quiet (client.handleDisconnectEvent session) := by
  have hoff : Milder client { client with isReadEnabled := false, isWriteEnabled := false } :=
    ⟨⟨_, _, _, _, _, rfl⟩, fun _ => ⟨rfl, rfl⟩⟩
  rw [Client.handleDisconnectEvent]
  split
  · have hcalls := (milder_tryReconnect { client with isReadEnabled := false, isWriteEnabled := false } session).trans
      (milder_call _ session (if decide (client.state = .kMqttConnected) then .disconnected else .connectFail))
    exact ⟨hoff.trans hcalls, hcalls.quiet ⟨rfl, rfl⟩⟩
  · exact ⟨hoff, rfl, rfl⟩

theorem milder_onCallback (client : Client) (session : Option Nat) (callback : MosqCallback) :
    Milder client (client.onCallback session callback) := by
  cases callback with
  | connect rc =>
    rw [Client.onCallback, Client.onConnected]
    split
    · exact Milder.refl client
    · split
      · exact (milder_updateStateTo _ _ _).trans (milder_call _ _ _)
      · exact Milder.refl client
  | disconnect rc => exact (milder_handleDisconnectEvent client session).1
  | publish => exact milder_call _ _ _
  | message isNull =>
    rw [Client.onCallback]
    split
    · exact Milder.refl client
    · exact milder_call _ _ _
  | subscribe => exact milder_call _ _ _
  | unsubscribe => exact milder_call _ _ _
  | log => exact Milder.refl client

theorem milder_onCallbacks (client : Client) (session : Option Nat) (callbacks : List MosqCallback) :
    Milder client (client.onCallbacks session callbacks) := by
  induction callbacks generalizing client with
  | nil => exact Milder.refl client
  | cons callback callbacks ih => exact (milder_onCallback client session callback).trans (ih _)

theorem quiet_onCallbacks (session : Option Nat) {callbacks : List MosqCallback}
    (h : callbacks.any isDisconnect = true) : Quiet (client.onCallbacks session callbacks) := by
  induction callbacks generalizing client with
  | nil => cases h
  | cons callback callbacks ih =>
    rw [any_cons, Bool.or_eq_true] at h
    obtain hnow | hlater := h
    · apply (milder_onCallbacks _ session callbacks).quiet
      cases callback with
      | disconnect rc => exact (milder_handleDisconnectEvent client session).2
      | connect rc => cases hnow
      | publish => cases hnow
      | message isNull => cases hnow
      | subscribe => cases hnow
      | unsubscribe => cases hnow
      | log => cases hnow
    · exact ih hlater

theorem count_joinThread (h : Kept client) (hthread : client.spThread = some thread) :
    ∀ id < client.threads, (client.joined ++ [thread.id]).count id = 1 := by
  intro id hlt
  rw [count_append, h.orderly.joined id hlt, hthread, map_some, count_singleton]
  by_cases heq : thread.id = id
  · rw [if_pos (congrArg some heq), heq, beq_self_eq_true]
    rfl
  · rw [if_neg fun hsome => heq (some.inj hsome), beq_false_of_ne heq]
    rfl

theorem known_joinThread (h : Kept client) (hthread : client.spThread = some thread) :
    ∀ id ∈ client.joined ++ [thread.id], id < client.threads := by
  intro id hmem
  obtain hold | hnew := mem_append.mp hmem
  · exact h.known id hold
  · rw [mem_singleton.mp hnew]
    exact (h.numbered thread hthread).1

theorem Kept.newThread (h : Kept client) (hstarted : client.state.isStarted = true) (hnone : client.spThread = none)
    (hposted : client.posted = []) (hcurrent : client.session ∉ client.stopped) (isReconnect : Bool) :
    Kept (client.newThread isReconnect) where
  orderly :=
    { h.orderly with
      joined := by
        intro id hlt
        change client.joined.count id = if some client.threads = some id then 0 else 1
        obtain hold | hnew := Nat.lt_succ_iff_lt_or_eq.mp hlt
        · have hjoined := h.orderly.joined id hold
          rw [hnone] at hjoined
          rw [if_neg fun hsome => absurd (some.inj hsome) (Nat.ne_of_gt hold)]
          exact hjoined
        · rw [if_pos (congrArg some hnew.symm)]
          apply count_eq_zero.mpr
          intro hmem
          exact absurd hnew (Nat.ne_of_lt (h.known id hmem)) }
  numbered := by
    intro thread hthread
    cases hthread
    exact ⟨Nat.lt_succ_self _, rfl⟩
  known := fun id hmem => Nat.lt_succ_of_lt (h.known id hmem)
  posted := by
    intro thread hthread
    cases hthread
    exact hposted
  left := nofun
  resting := fun hfalse => Bool.noConfusion (hstarted.symm.trans hfalse)
  stopped := h.stopped
  ended := fun hmem => absurd hmem hcurrent

theorem Kept.join (h : Kept client) (hthread : client.spThread = some thread) :
    Live (some client.session)
      { client with
        posted := []
        joined := client.joined ++ [thread.id]
        spThread := none
        applied := client.applied ++ [(thread.session, client.session)] } := by
  have hstarted := h.started_of_thread hthread
  have hlive := h.live hstarted fun hend => by
    rw [hthread] at hend
    exact nomatch hend.2.1
  have happlied : ∀ pair ∈ client.applied ++ [(thread.session, client.session)], pair.1 = pair.2 := by
    intro pair hmem
    obtain hold | hnew := mem_append.mp hmem
    · exact h.orderly.applied pair hold
    · rw [mem_singleton.mp hnew]
      exact (h.numbered thread hthread).2
  refine ⟨?_, hstarted, hlive.current, hlive.session⟩
  exact
    { orderly := { h.orderly with applied := happlied, joined := count_joinThread h hthread }
      numbered := nofun
      known := known_joinThread h hthread
      posted := nofun
      left := fun _ hposted => absurd rfl hposted
      resting := fun _ => rfl
      stopped := h.stopped
      ended := fun hmem => absurd hmem hlive.current }

structure Idle (client : Client) : Prop where
  applied : ∀ pair ∈ client.applied, pair.1 = pair.2
  joined : ∀ id < client.threads, client.joined.count id = 1
  called : ∀ called ∈ client.called, called.isStopped = false
  known : ∀ id ∈ client.joined, id < client.threads
  thread : client.spThread = none
  quiet : Quiet client
  posted : ∀ result ∈ client.posted, result.isReconnect = true
  stopped : ∀ session ∈ client.stopped, session ≤ client.session

theorem Kept.idle (h : Kept client) (hnone : client.spThread = none) (hquiet : Quiet client) : Idle client where
  applied := h.orderly.applied
  joined := by
    intro id hlt
    have hjoined := h.orderly.joined id hlt
    rw [hnone] at hjoined
    exact hjoined
  called := h.orderly.called
  known := h.known
  thread := hnone
  quiet := hquiet
  posted := fun result hmem => (h.left hnone (ne_nil_of_mem hmem)).2 result hmem
  stopped := h.stopped

theorem Kept.idle_of_rest (h : Kept client) (hrest : client.state.isStarted = false) :
    Idle client ∧ client.isTimerEnabled = false := by
  have hoff : ∀ {isEnabled : Bool}, (isEnabled = true → client.state.isStarted = true) → isEnabled = false := by
    intro isEnabled hevent
    cases isEnabled with
    | false => rfl
    | true => exact Bool.noConfusion (hrest.symm.trans (hevent rfl))
  refine ⟨h.idle (h.resting hrest) ⟨?_, ?_⟩, ?_⟩
  · exact hoff fun hread => h.orderly.events (.inr (.inl hread))
  · exact hoff fun hwrite => h.orderly.events (.inr (.inr hwrite))
  · exact hoff fun htimer => h.orderly.events (.inl htimer)

theorem Idle.kept (h : Idle client) (hrest : client.state.isStarted = false)
    (htimer : client.isTimerEnabled = false) : Kept client where
  orderly :=
    { applied := h.applied
      events := by
        intro hevents
        rw [htimer, h.quiet.1, h.quiet.2] at hevents
        simp at hevents
      joined := by
        intro id hlt
        rw [h.thread]
        exact h.joined id hlt
      called := h.called }
  numbered := by
    intro thread hthread
    rw [h.thread] at hthread
    cases hthread
  known := h.known
  posted := by
    intro thread hthread
    rw [h.thread] at hthread
    cases hthread
  left := fun _ _ => ⟨hrest, h.posted⟩
  resting := fun _ => h.thread
  stopped := h.stopped
  ended := fun _ hstarted => Bool.noConfusion (hrest.symm.trans hstarted)

theorem Idle.stopped_inited (h : Idle client) (hcurrent : client.session ∉ client.stopped) :
    Kept
      { Client.updateStateTo { client with isTimerEnabled := false } (some client.session) .kInited with
        stopped := client.session :: client.stopped } := by
  have hcalled : ∀ called ∈ (Client.call { client with isTimerEnabled := false, state := .kInited }
      (some client.session) (.stateChanged .kInited)).called, called.isStopped = false := by
    apply called_call
    · exact h.called
    · intro k hk
      exact some.inj hk ▸ hcurrent
  obtain ⟨called, hcall⟩ := call_frame { client with isTimerEnabled := false, state := .kInited } (some client.session)
    (.stateChanged .kInited)
  rw [Client.updateStateTo]
  rw [hcall] at hcalled ⊢
  have hstopped : ∀ session ∈ client.session :: client.stopped, session ≤ client.session :=
    forall_mem_cons.mpr ⟨le_rfl, h.stopped⟩
  exact Idle.kept { h with called := hcalled, stopped := hstopped } rfl rfl

variable {parting : Parting}

theorem Kept.leave (h : Kept client) (hundoable : Undoable client parting)
    (hstarted : client.state.isStarted = true) (hend : client.state ≠ .kEnd) :
    Idle (client.leave parting) ∧ (client.leave parting).session = client.session ∧
      (client.leave parting).stopped = client.stopped := by
  have hlive := h.live hstarted fun hended => hend hended.1
  rw [Client.leave]
  by_cases hconnected : client.state.isConnected = true
  · obtain ⟨hnone, hquiet⟩ := hundoable.2.1 hconnected
    have hcallbacks := milder_onCallbacks client (some client.session) parting.callbacks
    have hkept := (hlive.onCallbacks parting.callbacks).kept
    have hoff : Quiet (client.onCallbacks (some client.session) parting.callbacks) := by
      obtain hquiet | hdisconnect := hquiet
      · exact hcallbacks.quiet hquiet
      · exact quiet_onCallbacks _ hdisconnect
    obtain ⟨⟨_, _, _, _, _, hframe⟩, -⟩ := hcallbacks
    rw [if_pos hconnected]
    refine ⟨hkept.idle ?_ hoff, ?_, ?_⟩
    · rw [hframe]
      exact hnone
    · rw [hframe]
    · rw [hframe]
  · have hconnecting : client.state = .kConnecting ∨ client.state = .kReconnWaiting := by
      cases hstate : client.state <;> rw [hstate] at hconnected hstarted hend
      case kConnecting => exact .inl rfl
      case kReconnWaiting => exact .inr rfl
      case kEnd => exact absurd rfl hend
      case kNone => exact nomatch hstarted
      case kInited => exact nomatch hstarted
      all_goals exact absurd rfl hconnected
    obtain ⟨hquiet, hreconnect⟩ := hundoable.1 hconnecting
    rw [if_neg hconnected, Client.joinThread]
    cases hthread : client.spThread with
    | none => exact ⟨h.idle hthread hquiet, rfl, rfl⟩
    | some thread =>
      refine ⟨?_, rfl, rfl⟩
      have hposted := h.posted thread hthread
      refine
        { applied := h.orderly.applied
          joined := count_joinThread h hthread
          called := h.orderly.called
          known := known_joinThread h hthread
          thread := rfl
          quiet := hquiet
          posted := ?_
          stopped := h.stopped }
      intro result hmem
      -- what is left in the loop is the result of the thread that has been joined
      have hposts : ∃ ret, result = thread.posts ret := by
        dsimp only at hmem
        split at hmem
        case isTrue hfinished =>
          rw [if_pos hfinished] at hposted
          obtain ⟨ret, hret⟩ := hposted
          rw [hret] at hmem
          exact ⟨ret, mem_singleton.mp hmem⟩
        case isFalse hfinished =>
          rw [if_neg hfinished] at hposted
          rw [hposted] at hmem
          exact ⟨_, mem_singleton.mp hmem⟩
      obtain ⟨ret, rfl⟩ := hposts
      rw [hthread] at hreconnect
      exact hreconnect

theorem stopSession_of_started (hstarted : client.state.isStarted = true)
    (hend : client.state ≠ .kEnd) : client.stopSession parting =
      Client.updateStateTo { client.leave parting with isTimerEnabled := false } (some client.session) .kInited := by
  rw [Client.stopSession, if_neg]
  rw [hstarted, not_or]
  exact ⟨Bool.false_ne_true, hend⟩

theorem stop_of_ended (h : client.state.isStarted = false ∨ client.state = .kEnd) :
    client.stop parting = { client with stopped := client.session :: client.stopped } := by
  rw [Client.stop, Client.stopSession, if_pos]
  rwa [Bool.not_eq_true']

theorem Kept.stop (h : Kept client) (hundoable : Undoable client parting) :
    Kept (client.stop parting) := by
  have hstopped : ∀ session ∈ client.session :: client.stopped, session ≤ client.session :=
    forall_mem_cons.mpr ⟨le_rfl, h.stopped⟩
  by_cases hstarted : client.state.isStarted = true
  · by_cases hend : client.state = .kEnd
    · rw [stop_of_ended (.inr hend)]
      exact { h with
        orderly := { h.orderly with }
        stopped := hstopped
        ended := fun _ _ => ⟨hend, hundoable.2.2 hend⟩ }
    · obtain ⟨hidle, hsession, hold⟩ := h.leave hundoable hstarted hend
      have hlive := h.live hstarted fun hended => hend hended.1
      rw [Client.stop, stopSession_of_started hstarted hend, ← hsession, ← hold]
      apply hidle.stopped_inited
      rw [hsession, hold]
      exact hlive.current
  · have hrest := Bool.eq_false_iff.mpr hstarted
    rw [stop_of_ended (.inl hrest)]
    exact { h with
      orderly := { h.orderly with }
      stopped := hstopped
      ended := fun _ hstart => Bool.noConfusion (hrest.symm.trans hstart) }

theorem Kept.cleanup (h : Kept client) (hundoable : Undoable client parting)
    (htimer : client.state = .kEnd → client.isTimerEnabled = false) : Kept (client.cleanup parting) := by
  rw [Client.cleanup]
  split
  · exact h
  have hstop := h.stop hundoable
  have hidle : Idle (client.stop parting) ∧ (client.stop parting).isTimerEnabled = false := by
    by_cases hend : client.state = .kEnd
    · rw [stop_of_ended (.inr hend)] at hstop ⊢
      obtain ⟨hnone, hquiet⟩ := hundoable.2.2 hend
      exact ⟨hstop.idle hnone hquiet, htimer hend⟩
    apply hstop.idle_of_rest
    by_cases hstarted : client.state.isStarted = true
    · obtain ⟨called, hcall⟩ := call_frame { client.leave parting with isTimerEnabled := false, state := .kInited }
        (some client.session) (.stateChanged .kInited)
      rw [Client.stop, stopSession_of_started hstarted hend, Client.updateStateTo, hcall]
      rfl
    · have hrest := Bool.eq_false_iff.mpr hstarted
      rw [stop_of_ended (.inl hrest)]
      exact hrest
  obtain ⟨hidle, htimer⟩ := hidle
  exact Idle.kept { hidle with } rfl htimer

theorem Kept.initializeClient (h : Kept client) (config : Config) (callbacks : Callbacks) :
    Kept (client.initializeClient config callbacks) := by
  rw [Client.initializeClient]
  split
  · exact h
  case isFalse hstate =>
    split
    · exact h
    have hrest : client.state.isStarted = false := by
      rw [not_not.mp hstate]
      rfl
    obtain ⟨hidle, htimer⟩ := h.idle_of_rest hrest
    have hinited : Kept { client with config := config, callbacks := callbacks, state := .kInited } :=
      Idle.kept { hidle with } rfl htimer
    apply hinited.call
    intro k hk
    cases hk

theorem Kept.start (h : Kept client) {reinitialiseRet : Int} (hheeds : Heeds client (.start reinitialiseRet)) :
    Kept (client.start reinitialiseRet) := by
  rw [Client.start]
  split
  · exact h
  case isFalse hstate =>
    split
    · exact h
    case isFalse hret =>
      have hbegins : client.state = .kInited ∨ client.state = .kEnd := by
        by_contra hneither
        exact hstate (not_or.mp hneither)
      obtain ⟨hnone, hposted⟩ := hheeds hbegins (not_not.mp hret)
      have hfresh : client.session + 1 ∉ client.stopped := fun hmem =>
        absurd (h.stopped _ hmem) (Nat.not_succ_le_self _)
      have hnobody : ∀ thread, client.spThread ≠ some thread := fun thread hsome => by
        rw [hnone] at hsome
        cases hsome
      have hlive : Live (some (client.session + 1))
          { client with session := client.session + 1, state := .kConnecting } := by
        refine ⟨?_, rfl, hfresh, fun k hk => some.inj hk ▸ hfresh⟩
        exact
          { orderly := { h.orderly with events := fun _ => rfl }
            numbered := fun thread hsome => absurd hsome (hnobody thread)
            known := h.known
            posted := fun thread hsome => absurd hsome (hnobody thread)
            left := fun _ hne => absurd hposted hne
            resting := fun hfalse => Bool.noConfusion hfalse
            stopped := fun k hmem => Nat.le_succ_of_le (h.stopped k hmem)
            ended := fun hmem => absurd hmem hfresh }
      have hcalled := hlive.call (.stateChanged .kConnecting)
      dsimp only
      rw [Client.updateStateTo]
      obtain ⟨called, hcall⟩ := call_frame { client with session := client.session + 1, state := .kConnecting }
        (some (client.session + 1)) (.stateChanged .kConnecting)
      rw [hcall] at hcalled ⊢
      exact hcalled.kept.newThread rfl hnone hposted hfresh false

theorem Live.enableTimer (h : Live session client) : Live session { client with isTimerEnabled := true } where
  kept := { h.kept with orderly := { h.kept.orderly with events := fun _ => h.started } }
  started := h.started
  current := h.current
  session := h.session

theorem Kept.connectDone (h : Kept client) (hthread : client.spThread = some thread)
    (hfinished : thread.isFinished = false) (ret : Int) :
    Kept
      { client with
        posted := client.posted ++ [thread.posts ret]
        spThread := some { thread with isFinished := true } } := by
  have hposted := h.posted thread hthread
  rw [hfinished] at hposted
  have hstarted := h.started_of_thread hthread
  have hjoined := h.orderly.joined
  rw [hthread] at hjoined
  refine
    { orderly := { h.orderly with joined := hjoined }
      numbered := ?_
      known := h.known
      posted := ?_
      left := nofun
      resting := fun hfalse => Bool.noConfusion (hstarted.symm.trans hfalse)
      stopped := h.stopped
      ended := ?_ }
  · intro other hother
    cases hother
    exact h.numbered thread hthread
  · intro other hother
    cases hother
    exact ⟨ret, congrArg (· ++ _) hposted⟩
  intro hmem _
  have hnone := (h.ended hmem hstarted).2.1
  rw [hthread] at hnone
  cases hnone

theorem Live.applyResult {result : Posted} (h : Live (some result.session) client) (mosq : Mosq) :
    Live (some result.session) (client.applyResult result mosq) := by
  rw [Client.applyResult]
  split
  · exact ((h.enableSocketRead mosq).enableSocketWriteIfNeed mosq).updateStateTo rfl
  · exact h.tryReconnect.call .connectFail

theorem Kept.onTcpConnectDone (h : Kept client) (hthread : client.spThread = some thread)
    (hfinished : thread.isFinished = true) (ret : Int) (mosq : Mosq) (joinRet : Int) : Live (some thread.session)
      (Client.onTcpConnectDone { client with posted := [] } (thread.posts ret) mosq joinRet) := by
  have hjoin : Client.joinThread { client with posted := [] } joinRet =
      { client with posted := [], joined := client.joined ++ [thread.id], spThread := none } := by
    rw [Client.joinThread]
    rw [hthread]
    dsimp only
    rw [if_pos hfinished]
  have happlied : Client.onTcpConnectDone { client with posted := [] } (thread.posts ret) mosq joinRet =
      Client.applyResult
        { Client.joinThread { client with posted := [] } joinRet with
          applied := client.applied ++ [(thread.session, client.session)] } (thread.posts ret) mosq := by
    rw [Client.onTcpConnectDone]
    rw [hthread]
    rfl
  have hjoined := h.join hthread
  rw [← (h.numbered thread hthread).2] at hjoined
  rw [happlied, hjoin, ← (h.numbered thread hthread).2]
  have hresult : Live (some (thread.posts ret).session) _ := hjoined
  exact hresult.applyResult mosq

theorem Kept.runPosted (h : Kept client) {result : Posted} {later : List Posted}
    (hposted : client.posted = result :: later) (mosq : Mosq) (joinRet : Int) :
    Kept (Client.onConnectDone { client with posted := later } result mosq joinRet) := by
  rw [Client.onConnectDone]
  obtain hthread | ⟨thread, hthread⟩ := eq_none_or_eq_some client.spThread
  · obtain ⟨hrest, hreconnect⟩ := h.left hthread (hposted ▸ cons_ne_nil _ _)
    rw [hposted] at hreconnect
    obtain ⟨hidle, htimer⟩ := h.idle_of_rest hrest
    have hlater : ∀ other ∈ later, other.isReconnect = true := fun other hmem =>
      hreconnect other (mem_cons_of_mem _ hmem)
    have hnothing : Client.onTcpConnectDone { client with posted := later } result mosq joinRet =
        { client with posted := later } := by
      rw [Client.onTcpConnectDone]
      rw [hthread]
    rw [hnothing, if_pos (hreconnect result mem_cons_self)]
    exact Idle.kept { hidle with posted := hlater } hrest htimer
  · obtain ⟨hfinished, ret, hone⟩ : thread.isFinished = true ∧ ∃ ret, client.posted = [thread.posts ret] := by
      have hthreads := h.posted thread hthread
      split at hthreads
      case isTrue hfinished => exact ⟨hfinished, hthreads⟩
      case isFalse =>
        rw [hposted] at hthreads
        cases hthreads
    rw [hposted] at hone
    obtain ⟨rfl, rfl⟩ := List.cons.inj hone
    have hdone := h.onTcpConnectDone hthread hfinished ret mosq joinRet
    split
    · exact hdone.kept
    · exact hdone.enableTimer.kept

theorem Kept.onTimerTick (h : Kept client) (htimer : client.isTimerEnabled = true) (mosq : Mosq) :
    Kept (client.onTimerTick mosq) := by
  have hstarted := h.orderly.events (.inl htimer)
  rw [Client.onTimerTick]
  by_cases hconnected : client.state.isConnected = true
  · have hlive := h.live hstarted fun hend => by
      rw [hend.1] at hconnected
      exact Bool.noConfusion hconnected
    have hcalled := hlive.onCallbacks mosq.callbacks
    rw [if_pos hconnected]
    split
    · exact (hcalled.enableSocketWriteIfNeed mosq).kept
    · exact hcalled.kept
  · rw [if_neg hconnected]
    by_cases hend : client.state = .kEnd
    · have hidle : Kept { client with isTimerEnabled := false } :=
        { h with orderly := { h.orderly with events := fun _ => hstarted } }
      rw [hend, if_neg (by decide), if_neg (by decide), if_pos rfl, ← hend]
      exact hidle
    · have hlive := h.live hstarted fun hended => hend hended.1
      split
      · split
        case isTrue hnone =>
          have hposted : client.posted = [] := by
            by_contra hne
            exact Bool.noConfusion (hstarted.symm.trans (h.left hnone hne).1)
          exact h.newThread hstarted hnone hposted hlive.current true
        case isFalse => exact h
      · split
        · split
          · have hwaited := hlive.setState hstarted (client.reconnectWaitRemainSec - 1)
            dsimp only
            split
            · exact (hwaited.updateStateTo rfl).kept
            · exact hwaited.kept
          · exact h
        · exact h

theorem Kept.onSocketEvent (h : Kept client) (hevent : client.isReadEnabled = true ∨ client.isWriteEnabled = true) :
    Live (some client.session) client := by
  have hstarted := h.orderly.events (.inr hevent)
  apply h.live hstarted
  rintro ⟨-, -, hread, hwrite⟩
  rw [hread, hwrite] at hevent
  exact hevent.elim Bool.false_ne_true Bool.false_ne_true

theorem Kept.request (h : Kept client) (mosq : Mosq) : Kept (client.request mosq) := by
  rw [Client.request]
  split
  · exact h
  case isFalse hstate =>
    have hmqtt := not_not.mp hstate
    have hlive := h.live (by rw [hmqtt]; rfl) fun hend => by
      rw [hmqtt] at hend
      exact nomatch hend.1
    exact ((hlive.onCallbacks mosq.callbacks).enableSocketWriteIfNeed mosq).kept

/-- A heeded step leaves events, threads and results to the session that they belong to. -/
theorem Kept.step {action : Action} (h : Kept client) (hheeds : Heeds client action)
    (hstep : client.step action = some next) : Kept next := by
  cases action with
  | initializeClient config callbacks =>
    cases hstep
    exact h.initializeClient config callbacks
  | start reinitialiseRet =>
    cases hstep
    exact h.start hheeds
  | stop parting =>
    cases hstep
    exact h.stop hheeds
  | cleanup parting =>
    cases hstep
    exact h.cleanup hheeds.1 hheeds.2
  | request mosq =>
    cases hstep
    exact h.request mosq
  | connectDone ret =>
    rw [Client.step] at hstep
    cases hthread : client.spThread with
    | none =>
      rw [hthread] at hstep
      cases hstep
    | some thread =>
      rw [hthread] at hstep
      dsimp only at hstep
      cases hfinished : thread.isFinished with
      | true =>
        rw [hfinished] at hstep
        cases hstep
      | false =>
        rw [hfinished] at hstep
        cases hstep
        exact h.connectDone hthread hfinished ret
  | runPosted mosq joinRet =>
    rw [Client.step] at hstep
    cases hposted : client.posted with
    | nil =>
      rw [hposted] at hstep
      cases hstep
    | cons result later =>
      rw [hposted] at hstep
      cases hstep
      exact h.runPosted hposted mosq joinRet
  | timerTick mosq =>
    rw [Client.step] at hstep
    split at hstep
    case isTrue htimer =>
      cases hstep
      exact h.onTimerTick htimer mosq
    case isFalse => exact nomatch hstep
  | socketRead mosq =>
    rw [Client.step] at hstep
    split at hstep
    case isTrue hread =>
      cases hstep
      have hlive := h.onSocketEvent (.inl hread)
      exact ((hlive.onCallbacks mosq.callbacks).enableSocketWriteIfNeed mosq).kept
    case isFalse => exact nomatch hstep
  | socketWrite mosq =>
    rw [Client.step] at hstep
    split at hstep
    case isTrue hwrite =>
      cases hstep
      have hlive := (h.onSocketEvent (.inr hwrite)).setEvents client.isReadEnabled false
      exact ((hlive.onCallbacks mosq.callbacks).enableSocketWriteIfNeed mosq).kept
    case isFalse => exact nomatch hstep

theorem kept_init : Kept {} where
  orderly := ⟨nofun, fun h => by simp at h, nofun, nofun⟩
  numbered := nofun
  known := nofun
  posted := nofun
  left := fun _ h => absurd rfl h
  resting := fun _ => rfl
  stopped := nofun
  ended := nofun

/-- **Sessions are over when they have been stopped.** -/
theorem orderly_of_heeds (actions : List Action) (hheeds : Along Client.step Heeds {} actions)
    (hrun : run Client.step {} actions = some client) : Orderly client :=
  (Tbox.Lib.run_invariant (fun _ _ _ => Kept.step) kept_init hheeds hrun).orderly

/-- Connecting fails at first; the second session is stopped while it waits to be connected again. -/
def twoSessions : List Action :=
  [.initializeClient {} { connectFail := true, stateChanged := true }, .start 0, .connectDone 14, .runPosted {} 0,
    .timerTick {}, .connectDone 0, .runPosted { socket := 3, wantWrite := true } 0, .socketWrite { socket := 3 },
    .socketRead { callbacks := [.connect 0], socket := 3 }, .stop { callbacks := [.disconnect 0] },
    .start 0, .connectDone 14, .runPosted {} 0, .timerTick {}, .stop { joinRet := 14 }, .runPosted {} 0]

theorem orderly_twoSessions : ∃ client, run Client.step {} twoSessions = some client ∧ client.session = 2 ∧
    client.joined = [0, 1, 2, 3] ∧ Orderly client := by
  have hends : (run Client.step {} twoSessions).map (fun client => (client.session, client.joined)) =
      some (2, [0, 1, 2, 3]) := by decide +kernel
  have hheeds : Along Client.step Heeds {} twoSessions := by decide +kernel
  obtain ⟨client, hrun, hboth⟩ := Option.map_eq_some_iff.mp hends
  obtain ⟨hsession, hjoined⟩ := Prod.mk.inj hboth
  exact ⟨client, hrun, hsession, hjoined, orderly_of_heeds twoSessions hheeds hrun⟩

/-- A session is stopped while its result is in the loop, and another one is started. -/
def lateResult : List Action :=
  [.initializeClient {} {}, .start 0, .connectDone 0, .stop {}, .start 0, .runPosted { socket := 3 } 14]

/-- The client is connected then before its thread is. -/
theorem not_orderly_lateResult : ∃ client, run Client.step {} lateResult = some client ∧ client.state = .kTcpConnected ∧
    client.applied = [(1, 2)] ∧ ¬Orderly client := by
  have hends : (run Client.step {} lateResult).map (fun client => (client.state, client.applied)) =
      some (.kTcpConnected, [(1, 2)]) := by decide +kernel
  obtain ⟨client, hrun, hboth⟩ := Option.map_eq_some_iff.mp hends
  obtain ⟨hstate, happlied⟩ := Prod.mk.inj hboth
  refine ⟨client, hrun, hstate, happlied, fun horderly => ?_⟩
  have hown := horderly.applied (1, 2) (happlied ▸ List.mem_cons_self)
  exact absurd hown (by decide)

end Tbox.Mqtt
