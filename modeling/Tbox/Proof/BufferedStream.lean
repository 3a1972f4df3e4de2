import Tbox.Network.BufferedFd

/-!
# Bytes through a buffered descriptor

`enable` starts the read event alone, so what waits to be written by then goes on waiting; and a `send` that finds
nothing waiting writes by itself, and forgets its data if the `write` fails. Where neither happens the streams are
whole.
-/

open List Option

namespace Tbox.Network

open Tbox.Lib

open BufferedFd

/-- While bytes wait on a descriptor that runs, its write event is enabled. -/
def BufferedFd.Flowing (fd : BufferedFd) : Prop :=
  fd.state = .kRunning → fd.sendBuff.readable ≠ [] → fd.spWriteEvent = some true

/-- The write event is not enabled on a descriptor that does not run. -/
def BufferedFd.Rested (fd : BufferedFd) : Prop :=
  fd.spWriteEvent = some true → fd.state = .kRunning

/-- Nothing waits to be written when the descriptor starts to run. -/
def NothingWaits (s : Stream) : Action → Prop
  | .enable => s.fd.state = .kInited → s.fd.sendBuff.readable = []
  | _ => True

/-- What was written and what waits is what was accepted, and what was taken and what waits is what was read. -/
structure Stream.Faithful (s : Stream) : Prop where
  sent : s.written ++ s.fd.sendBuff.readable = s.accepted
  received : s.consumed ++ s.fd.recvBuff.readable = s.read

/-- A `send` would write to the descriptor. -/
structure BufferedFd.WritesDirectly (fd : BufferedFd) : Prop where
  event : fd.spWriteEvent ≠ none
  state : fd.state = .kRunning
  empty : fd.sendBuff.readable = []

def WriteResult.Lost : WriteResult → Prop
  | .wrote _ => False
  | .failed errno => errno ≠ EAGAIN

/-- No `send` that writes by itself meets an error, be it the user's or that of an echo. -/
def NothingLost (s : Stream) : Action → Prop
  | .send data result => s.fd.WritesDirectly → result.Lost → data = []
  | .readReady chunks _ result =>
    chunks ≠ [] → s.fd.wpReceiver = some .self → s.fd.WritesDirectly → ¬result.Lost
  | _ => True

namespace Stream

variable {s t : Stream} {data : Bytes} {result : WriteResult}

inductive Sent (s : Stream) (data : Bytes) (result : WriteResult) : Stream × Bool → Prop
  | refused (hevent : s.fd.spWriteEvent = none) : Sent s data result (s, false)
  | queued (hevent : s.fd.spWriteEvent ≠ none)
      (hwaits : s.fd.state = .kRunning → s.fd.sendBuff.readable ≠ []) :
      Sent s data result ({ s with
        accepted := s.accepted ++ data
        fd := { s.fd with sendBuff := s.fd.sendBuff.append data } }, true)
  | written (taken : Bytes) (sendBuff : Buffer) (hdirect : s.fd.WritesDirectly)
      (hlost : ¬result.Lost) (hdata : taken ++ sendBuff.readable = data) :
      Sent s data result ({ s with
        accepted := s.accepted ++ data
        written := s.written ++ taken
        fd := { s.fd with sendBuff := sendBuff, spWriteEvent := some true } }, true)
  | lost (hdirect : s.fd.WritesDirectly) (hlost : result.Lost) :
      Sent s data result ({ s with accepted := s.accepted ++ data }, true)

theorem written_append_rest {b : Buffer} (hempty : b.readable = []) (data : Bytes) (size : Nat) :
    data.take size ++ (if size < data.length then b.append (data.drop size) else b).readable = data := by
  split_ifs with hsize
  · rw [Buffer.readable_append, hempty, nil_append, take_append_drop]
  · rw [hempty, append_nil, take_of_length_le (Nat.le_of_not_lt hsize)]

theorem sent_send (s : Stream) (data : Bytes) (result : WriteResult) : s.Sent data result (s.send data result) := by
  rw [send]
  by_cases hevent : s.fd.spWriteEvent = none
  · rw [if_pos hevent]
    exact .refused hevent
  rw [if_neg hevent]
  dsimp only
  split_ifs with hqueue
  · refine .queued hevent fun hstate hempty => ?_
    rcases hqueue with hqueue | hqueue
    · exact hqueue hstate
    · rw [Buffer.readable_eq_nil_iff.mp hempty] at hqueue
      omega
  · obtain ⟨hstate, hsize⟩ := not_or.mp hqueue
    have hempty : s.fd.sendBuff.readable = [] := Buffer.readable_eq_nil_iff.mpr (by omega)
    have hdirect : s.fd.WritesDirectly := ⟨hevent, not_not.mp hstate, hempty⟩
    cases result with
    | wrote size => exact .written _ _ hdirect id (written_append_rest hempty data size)
    | failed errno =>
      dsimp only
      split_ifs with herrno
      · have hdata : [] ++ (s.fd.sendBuff.append data).readable = data := by
          rw [Buffer.readable_append, hempty, nil_append, nil_append]
        have hsent : s.Sent data (.failed errno) ({ s with
            accepted := s.accepted ++ data
            written := s.written ++ []
            fd := { s.fd with sendBuff := s.fd.sendBuff.append data, spWriteEvent := some true } },
              true) := .written [] _ hdirect (fun hlost => hlost herrno) hdata
        rw [append_nil] at hsent
        exact hsent
      · exact .lost hdirect herrno

structure SameReceived (s t : Stream) : Prop where
  recvBuff : t.fd.recvBuff.readable = s.fd.recvBuff.readable
  read : t.read = s.read
  consumed : t.consumed = s.consumed

structure SameSent (s t : Stream) : Prop where
  state : t.fd.state = s.fd.state
  event : t.fd.spWriteEvent = s.fd.spWriteEvent
  sendBuff : t.fd.sendBuff.readable = s.fd.sendBuff.readable
  accepted : t.accepted = s.accepted
  written : t.written = s.written

theorem SameSent.refl (s : Stream) : s.SameSent s := ⟨rfl, rfl, rfl, rfl, rfl⟩

theorem SameReceived.received (h : s.SameReceived t) (hreceived : s.consumed ++ s.fd.recvBuff.readable = s.read) :
    t.consumed ++ t.fd.recvBuff.readable = t.read := by
  rw [h.consumed, h.recvBuff, h.read, hreceived]

theorem SameSent.sent_iff (h : s.SameSent t) : t.written ++ t.fd.sendBuff.readable = t.accepted
      ↔ s.written ++ s.fd.sendBuff.readable = s.accepted := by
  rw [h.written, h.sendBuff, h.accepted]

theorem SameSent.flowing (h : s.SameSent t) (hs : s.fd.Flowing) : t.fd.Flowing := by
  intro hstate hwaits
  rw [h.state] at hstate
  rw [h.sendBuff] at hwaits
  rw [h.event]
  exact hs hstate hwaits

theorem SameSent.rested (h : s.SameSent t) (hs : s.fd.Rested) : t.fd.Rested := by
  intro hevent
  rw [h.event] at hevent
  rw [h.state]
  exact hs hevent

variable {success : Bool}

theorem Sent.sameReceived (h : s.Sent data result (t, success)) : s.SameReceived t := by
  cases h <;> exact ⟨rfl, rfl, rfl⟩

theorem Sent.flowing (h : s.Sent data result (t, success)) (hs : s.fd.Flowing) :
    t.fd.Flowing := by
  cases h with
  | refused hevent => exact hs
  | queued hevent hwaits => exact fun hstate _ => hs hstate (hwaits hstate)
  | written taken sendBuff hdirect hlost hdata => exact fun _ _ => rfl
  | lost hdirect hlost => exact hs

theorem Sent.rested (h : s.Sent data result (t, success)) (hs : s.fd.Rested) :
    t.fd.Rested := by
  cases h with
  | refused hevent => exact hs
  | queued hevent hwaits => exact hs
  | written taken sendBuff hdirect hlost hdata => exact fun _ => hdirect.state
  | lost hdirect hlost => exact hs

theorem Sent.sent_iff (h : s.Sent data result (t, success))
    (hsent : s.written ++ s.fd.sendBuff.readable = s.accepted) : t.written ++ t.fd.sendBuff.readable = t.accepted
      ↔ (s.fd.WritesDirectly → result.Lost → data = []) := by
  cases h with
  | refused hevent => exact iff_of_true hsent fun hdirect => absurd hevent hdirect.event
  | queued hevent hwaits =>
    refine iff_of_true ?_ fun hdirect => absurd hdirect.empty (hwaits hdirect.state)
    rw [Buffer.readable_append, ← append_assoc, hsent]
  | written taken sendBuff hdirect hlost hdata =>
    refine iff_of_true ?_ fun _ hlost' => absurd hlost' hlost
    rw [hdirect.empty, append_nil] at hsent
    rw [append_assoc, hdata, hsent]
  | lost hdirect hlost =>
    rw [hsent]
    constructor
    · intro hdata _ _
      exact append_cancel_left (hdata.symm.trans (append_nil _).symm)
    · intro hdata
      rw [hdata hdirect hlost, append_nil]

theorem readable_receive {b : Buffer} (data : Bytes) : (b.receive data).readable = b.readable ++ data := by
  rw [Buffer.receive]
  split_ifs with hsize
  · have hfull : (data.take b.writableSize).length = b.writableSize := by
      rw [length_take]
      omega
    have hfirst := b.readable_hasWritten (data.take b.writableSize) hfull.le
    rw [hfull] at hfirst
    rw [Buffer.readable_append, hfirst, append_assoc, take_append_drop]
  · exact b.readable_hasWritten data (Nat.le_of_not_lt hsize)

variable {chunks : List Bytes}

theorem readable_receiveAll {b b' : Buffer}
    (h : b.receiveAll chunks = some b') : b'.readable = b.readable ++ chunks.flatten := by
  induction chunks generalizing b with
  | nil => rw [← some.inj h, flatten_nil, append_nil]
  | cons data rest ih =>
    rw [Buffer.receiveAll, ite_none_left_eq_some] at h
    rw [ih h.2, readable_receive, flatten_cons, append_assoc]

theorem ne_nil_of_receiveAll {b b' : Buffer} {data : Bytes} {rest : List Bytes}
    (h : b.receiveAll (data :: rest) = some b') : data ≠ [] := by
  rw [Buffer.receiveAll, ite_none_left_eq_some] at h
  exact fun hdata => h.1 (.inl hdata)

theorem sameSent_call (s : Stream) (callback : Callback) (call : Call) : s.SameSent (s.call callback call) := by
  rw [Stream.call]
  split_ifs <;> exact ⟨rfl, rfl, rfl, rfl, rfl⟩

theorem sameReceived_call (s : Stream) (callback : Callback) (call : Call) :
    s.SameReceived (s.call callback call) := by
  rw [Stream.call]
  split_ifs <;> exact ⟨rfl, rfl, rfl⟩

theorem sameSent_consumeAll (s : Stream) : s.SameSent s.consumeAll := ⟨rfl, rfl, rfl, rfl, rfl⟩

theorem received_consumeAll (h : s.consumed ++ s.fd.recvBuff.readable = s.read) :
    s.consumeAll.consumed ++ s.consumeAll.fd.recvBuff.readable = s.consumeAll.read := by
  rw [consumeAll]
  rw [Buffer.readable_hasReadAll, append_nil, h]

theorem deliver_sent (s : Stream) (result : WriteResult) : ∃ mid, mid.SameSent (s.deliver result) ∧
      (s.fd.wpReceiver ≠ some .self ∧ mid = s ∨ s.fd.wpReceiver = some .self ∧
          ∃ success, s.Sent s.fd.recvBuff.readable result (mid, success)) := by
  rw [deliver]
  cases hreceiver : s.fd.wpReceiver with
  | some receiver =>
    cases receiver with
    | self => exact ⟨_, sameSent_consumeAll _, .inr ⟨rfl, _, s.sent_send _ result⟩⟩
    | other => exact ⟨s, ⟨rfl, rfl, rfl, rfl, rfl⟩, .inl ⟨by decide, rfl⟩⟩
  | none =>
    refine ⟨s, ?_, .inl ⟨by decide, rfl⟩⟩
    split_ifs
    · exact s.sameSent_call _ _
    · exact s.sameSent_consumeAll
    · exact .refl s

theorem received_deliver (result : WriteResult) (h : s.consumed ++ s.fd.recvBuff.readable = s.read) :
    (s.deliver result).consumed ++ (s.deliver result).fd.recvBuff.readable = (s.deliver result).read := by
  rw [deliver]
  split
  · exact received_consumeAll ((s.sent_send _ result).sameReceived.received h)
  · exact received_consumeAll h
  split_ifs
  · exact (s.sameReceived_call _ _).received h
  · exact received_consumeAll h
  · exact h

def reading (s : Stream) (recvBuff : Buffer) (chunks : List Bytes) : Stream :=
  { s with fd := { s.fd with recvBuff := recvBuff }, read := s.read ++ chunks.flatten }

theorem onReadCallback_cases {last : ReadEnd}
    (h : s.onReadCallback chunks last result = some t) : chunks = [] ∧ s.SameSent t ∧ s.SameReceived t ∨
      chunks ≠ [] ∧ ∃ recvBuff : Buffer,
        recvBuff.readable = s.fd.recvBuff.readable ++ chunks.flatten ∧ recvBuff.readable ≠ [] ∧
          t = (s.reading recvBuff chunks).deliver result := by
  rw [onReadCallback.eq_def] at h
  cases chunks with
  | nil =>
    refine .inl ⟨rfl, ?_⟩
    cases last with
    | zero =>
      cases h
      exact ⟨s.sameSent_call _ _, s.sameReceived_call _ _⟩
    | failed errno =>
      dsimp only at h
      split_ifs at h
      · cases h
        exact ⟨s.sameSent_call _ _, s.sameReceived_call _ _⟩
      · cases h
        exact ⟨.refl s, rfl, rfl, rfl⟩
  | cons chunk rest =>
    obtain ⟨recvBuff, hreceive, rfl⟩ := map_eq_some_iff.mp h
    refine .inr ⟨cons_ne_nil _ _, recvBuff, readable_receiveAll hreceive, ?_, rfl⟩
    rw [readable_receiveAll hreceive, flatten_cons]
    intro hnil
    obtain ⟨-, hrest⟩ := append_eq_nil_iff.mp hnil
    exact ne_nil_of_receiveAll hreceive (append_eq_nil_iff.mp hrest).1

theorem faithful_onReadCallback_iff {last : ReadEnd} (hs : s.Faithful)
    (h : s.onReadCallback chunks last result = some t) :
    t.Faithful ↔ NothingLost s (.readReady chunks last result) := by
  rcases onReadCallback_cases h with ⟨hnil, hsent, hreceived⟩ | ⟨hne, recvBuff, hbytes, hsome, rfl⟩
  · refine iff_of_true ⟨hsent.sent_iff.mpr hs.sent, hreceived.received hs.received⟩ ?_
    exact fun hne => absurd hnil hne
  have hread : (s.reading recvBuff chunks).consumed
      ++ (s.reading recvBuff chunks).fd.recvBuff.readable = (s.reading recvBuff chunks).read := by
    rw [reading]
    rw [hbytes, ← append_assoc, hs.received]
  obtain ⟨mid, hrest, ⟨hreceiver, rfl⟩ | ⟨hreceiver, success, hecho⟩⟩ :=
    deliver_sent (s.reading recvBuff chunks) result
  · refine iff_of_true ⟨hrest.sent_iff.mpr hs.sent, received_deliver result hread⟩ ?_
    exact fun _ hself => absurd hself hreceiver
  have hiff := hecho.sent_iff hs.sent
  constructor
  · intro ht _ _ hdirect hlost
    exact hsome (hiff.mp (hrest.sent_iff.mp ht.sent)
      { hdirect with } hlost)
  · intro hguard
    refine ⟨hrest.sent_iff.mpr (hiff.mpr fun hdirect hlost => ?_), received_deliver result hread⟩
    exact absurd hlost (hguard hne hreceiver { hdirect with })

theorem faithful_onWriteCallback (hs : s.Faithful) (result : WriteResult) : (s.onWriteCallback result).Faithful := by
  rw [onWriteCallback.eq_def]
  split_ifs with hempty
  · exact ⟨(sameSent_call _ _ _).sent_iff.mpr hs.sent, (sameReceived_call _ _ _).received hs.received⟩
  cases result with
  | wrote size =>
    refine ⟨?_, hs.received⟩
    rw [Buffer.readable_hasRead, append_assoc, take_append_drop, hs.sent]
  | failed errno =>
    exact ⟨(sameSent_call _ _ _).sent_iff.mpr hs.sent, (sameReceived_call _ _ _).received hs.received⟩

theorem flowing_onWriteCallback (hs : s.fd.Flowing) (hevent : s.fd.spWriteEvent = some true)
    (result : WriteResult) : (s.onWriteCallback result).fd.Flowing := by
  rw [onWriteCallback.eq_def]
  split_ifs with hempty
  · refine (sameSent_call _ _ _).flowing fun _ hwaits => ?_
    exact absurd (Buffer.readable_eq_nil_iff.mpr hempty) hwaits
  · cases result with
    | wrote size => exact fun _ _ => hevent
    | failed errno => exact (sameSent_call _ _ _).flowing hs

theorem rested_onWriteCallback (hs : s.fd.Rested) (result : WriteResult) : (s.onWriteCallback result).fd.Rested := by
  rw [onWriteCallback.eq_def]
  split_ifs with hempty
  · refine (sameSent_call _ _ _).rested fun hevent => ?_
    exact absurd (some.inj hevent) Bool.false_ne_true
  · cases result with
    | wrote size => exact hs
    | failed errno => exact (sameSent_call _ _ _).rested hs

theorem events_onReadCallback {last : ReadEnd}
    (h : s.onReadCallback chunks last result = some t) (hflowing : s.fd.Flowing)
    (hrested : s.fd.Rested) : t.fd.Flowing ∧ t.fd.Rested := by
  rcases onReadCallback_cases h with ⟨-, hsent, -⟩ | ⟨-, recvBuff, -, -, rfl⟩
  · exact ⟨hsent.flowing hflowing, hsent.rested hrested⟩
  obtain ⟨mid, hrest, ⟨-, rfl⟩ | ⟨-, success, hecho⟩⟩ := deliver_sent (s.reading recvBuff chunks) result
  · exact ⟨hrest.flowing hflowing, hrest.rested hrested⟩
  · exact ⟨hrest.flowing (hecho.flowing hflowing), hrest.rested (hecho.rested hrested)⟩

end Stream

namespace BufferedFd

variable (fd : BufferedFd)

theorem initialize_cases (isNull : Bool) (events : BitVec 16) :
    (Prod.fst <| fd.initialize isNull events) = fd ∨ ∃ readEvent writeEvent, writeEvent ≠ some true ∧
        (Prod.fst <| fd.initialize isNull events) =
          { fd with spReadEvent := readEvent, spWriteEvent := writeEvent, state := .kInited } := by
  unfold BufferedFd.initialize
  by_cases hnull : isNull = true
  · rw [if_pos hnull]
    exact .inl rfl
  by_cases hevents : events = 0
  · rw [if_neg hnull, if_pos hevents]
    exact .inl rfl
  by_cases hstate : fd.state ≠ .kEmpty
  · rw [if_neg hnull, if_neg hevents, if_pos hstate]
    exact .inl rfl
  · rw [if_neg hnull, if_neg hevents, if_neg hstate]
    refine .inr ⟨_, _, ?_, rfl⟩
    split_ifs <;> decide

theorem enable_cases : fd.state ≠ .kInited ∧ fd.enable.1 = fd ∨ fd.state = .kInited ∧ ∃ readEvent,
        fd.enable.1 = { fd with spReadEvent := readEvent, state := .kRunning } := by
  rw [enable]
  cases hstate : fd.state with
  | kEmpty => exact .inl ⟨by decide, rfl⟩
  | kInited => exact .inr ⟨rfl, _, rfl⟩
  | kRunning => exact .inl ⟨by decide, rfl⟩

theorem disable_cases :
    fd.disable.1 = fd ∨ ∃ readEvent writeEvent, writeEvent ≠ some true ∧ fd.disable.1 =
        { fd with spReadEvent := readEvent, spWriteEvent := writeEvent, state := .kInited } := by
  rw [disable]
  cases hstate : fd.state with
  | kEmpty => exact .inl rfl
  | kInited => exact .inl rfl
  | kRunning =>
    refine .inr ⟨_, _, ?_, rfl⟩
    cases fd.spWriteEvent with
    | none => exact nofun
    | some enabled => exact nofun

end BufferedFd

namespace Stream

variable {s t : Stream} {a : Action}

theorem faithful_step_iff (hs : s.Faithful) (h : s.step a = some t) : t.Faithful ↔ NothingLost s a := by
  cases a with
  | init isNull events =>
    cases h
    refine iff_of_true ?_ trivial
    rcases s.fd.initialize_cases isNull events with heq | ⟨_, _, -, heq⟩
    · rw [heq]
      exact hs
    · rw [heq]
      exact ⟨hs.sent, hs.received⟩
  | enable =>
    cases h
    refine iff_of_true ?_ trivial
    rcases s.fd.enable_cases with ⟨-, heq⟩ | ⟨-, _, heq⟩
    · rw [heq]
      exact hs
    · rw [heq]
      exact ⟨hs.sent, hs.received⟩
  | disable =>
    cases h
    refine iff_of_true ?_ trivial
    rcases s.fd.disable_cases with heq | ⟨_, _, -, heq⟩
    · rw [heq]
      exact hs
    · rw [heq]
      exact ⟨hs.sent, hs.received⟩
  | send data result =>
    cases h
    have hsend := s.sent_send data result
    constructor
    · exact fun ht => (hsend.sent_iff hs.sent).mp ht.sent
    · intro hguard
      exact ⟨(hsend.sent_iff hs.sent).mpr hguard, hsend.sameReceived.received hs.received⟩
  | readReady chunks last result =>
    rw [step, ite_none_right_eq_some] at h
    exact faithful_onReadCallback_iff hs h.2
  | writeReady result =>
    rw [step, ite_none_right_eq_some] at h
    cases h.2
    exact iff_of_true (faithful_onWriteCallback hs result) trivial
  | consume size =>
    cases h
    refine iff_of_true ⟨hs.sent, ?_⟩ trivial
    rw [consume]
    rw [Buffer.readable_hasRead, append_assoc, take_append_drop, hs.received]
  | shrinkRecvBuffer =>
    cases h
    refine iff_of_true ⟨hs.sent, ?_⟩ trivial
    rw [Buffer.readable_shrink, hs.received]
  | shrinkSendBuffer =>
    cases h
    refine iff_of_true ⟨?_, hs.received⟩ trivial
    rw [Buffer.readable_shrink, hs.sent]
  | setCallbacks callbacks threshold =>
    cases h
    exact iff_of_true ⟨hs.sent, hs.received⟩ trivial
  | bind receiver =>
    cases h
    exact iff_of_true ⟨hs.sent, hs.received⟩ trivial

/-- Output goes on moving after a step exactly if it starts nothing over waiting bytes. -/
theorem events_step (hrested : s.fd.Rested) (hflowing : s.fd.Flowing) (h : s.step a = some t) :
    (t.fd.Flowing ↔ NothingWaits s a) ∧ t.fd.Rested := by
  cases a with
  | init isNull events =>
    cases h
    rcases s.fd.initialize_cases isNull events with heq | ⟨_, _, hevent, heq⟩
    · rw [heq]
      exact ⟨iff_of_true hflowing trivial, hrested⟩
    · rw [heq]
      exact ⟨iff_of_true nofun trivial, fun hevent' => absurd hevent' hevent⟩
  | enable =>
    cases h
    rcases s.fd.enable_cases with ⟨hstate, heq⟩ | ⟨hstate, _, heq⟩
    · rw [heq]
      exact ⟨iff_of_true hflowing fun hinited => absurd hinited hstate, hrested⟩
    rw [heq]
    have hoff : s.fd.spWriteEvent ≠ some true := by
      intro hevent
      have hrunning := hrested hevent
      rw [hstate] at hrunning
      exact absurd hrunning (by decide)
    refine ⟨⟨fun ht _ => ?_, fun hguard _ hwaits => absurd (hguard hstate) hwaits⟩, fun _ => rfl⟩
    by_contra hwaits
    exact hoff (ht rfl hwaits)
  | disable =>
    cases h
    rcases s.fd.disable_cases with heq | ⟨_, _, hevent, heq⟩
    · rw [heq]
      exact ⟨iff_of_true hflowing trivial, hrested⟩
    · rw [heq]
      exact ⟨iff_of_true nofun trivial, fun hevent' => absurd hevent' hevent⟩
  | send data result =>
    cases h
    have hsend := s.sent_send data result
    exact ⟨iff_of_true (hsend.flowing hflowing) trivial, hsend.rested hrested⟩
  | readReady chunks last result =>
    rw [step, ite_none_right_eq_some] at h
    obtain ⟨hflowing, hrested⟩ := events_onReadCallback h.2 hflowing hrested
    exact ⟨iff_of_true hflowing trivial, hrested⟩
  | writeReady result =>
    rw [step, ite_none_right_eq_some] at h
    obtain ⟨hevent, hstep⟩ := h
    cases hstep
    exact ⟨iff_of_true (flowing_onWriteCallback hflowing hevent result) trivial,
      rested_onWriteCallback hrested result⟩
  | shrinkSendBuffer =>
    cases h
    have hsame : s.SameSent { s with fd := { s.fd with sendBuff := s.fd.sendBuff.shrink } } :=
      ⟨rfl, rfl, s.fd.sendBuff.readable_shrink, rfl, rfl⟩
    exact ⟨iff_of_true (hsame.flowing hflowing) trivial, hsame.rested hrested⟩
  | consume | shrinkRecvBuffer | setCallbacks | bind =>
    cases h
    exact ⟨iff_of_true hflowing trivial, hrested⟩

/-- **Output moves** in every state of every run exactly when the descriptor is never started over bytes that wait. -/
theorem flowing_iff_nothingWaits (as : List Action) :
    Always step (fun s => s.fd.Flowing) {} as ↔ Along step NothingWaits {} as := by
  refine always_iff_along (I := fun s => s.fd.Rested) ?_ ?_ ?_ (along_of_forall fun _ _ => trivial) ?_
  · exact fun s a t hrested _ hflowing h => (events_step hrested hflowing h).2
  · exact fun s a t hrested _ hflowing h => (events_step hrested hflowing h).1
  · exact nofun
  · exact nofun

/-- A byte given to `send` before `enable` waits on a running descriptor with its write event off. -/
theorem sendThenEnable_not_flowing : ¬∀ as, Always step (fun s => s.fd.Flowing) {} as := by
  intro h
  have hflowing := h [.init false kReadWrite, .send [104] (.wrote 1), .enable] _ (List.prefix_refl _)
    { fd :=
        { state := .kRunning, spReadEvent := some true, spWriteEvent := some false,
          sendBuff := ({} : Buffer).append [104] }
      accepted := [104] } (by decide +kernel)
  exact absurd (hflowing rfl (by decide)) (by decide)

/-- **The streams are whole** exactly when no `send` that writes by itself meets an error: in every
state of every run, in both directions. -/
theorem faithful_iff_nothingLost (as : List Action) :
    Always step Faithful {} as ↔ Along step NothingLost {} as := by
  refine always_iff_along (I := fun _ => True) (fun _ _ _ _ _ _ _ => trivial) ?_ trivial
    (along_of_forall fun _ _ => trivial) ⟨rfl, rfl⟩
  exact fun s a t _ _ hs h => faithful_step_iff hs h

/-- A `send` that gets EPIPE returns true, and its byte is neither written nor waiting. -/
theorem sendFailed_not_faithful : ¬∀ as, Always step Faithful {} as := by
  intro h
  have hfaithful := h [.init false kReadWrite, .enable, .send [104] (.failed 32)] _
    (List.prefix_refl _)
    { fd := { state := .kRunning, spReadEvent := some true, spWriteEvent := some false }
      accepted := [104] } (by decide +kernel)
  exact absurd hfaithful.sent (by decide)

end Stream

end Tbox.Network
