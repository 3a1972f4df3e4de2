import Tbox.Lib.Framing

/-!
# A stream in chunks

A decoder for which what was made out is not changed by what comes later does the same with a stream in chunks as with
all of it at once.
-/

open List

namespace Tbox.Lib.Intake

variable {α β γ : Type*} {decode : List α → Verdict β} {buffer more : List α} {message : β} {size fuel other : Nat}

/-- All that can be taken is taken. -/
def drained (decode : List α → Verdict β) (buffer : List α) : Intake α β := drain decode (buffer.length + 1) buffer

def prepend (messages : List β) (intake : Intake α β) : Intake α β :=
  { intake with messages := messages ++ intake.messages }

/-- What is taken is something, and is there. -/
structure Sized (decode : List α → Verdict β) : Prop where
  nil : decode [] = .more
  took : ∀ {buffer size message}, decode buffer = .took size message → 0 < size ∧ size ≤ buffer.length

/-- What has been made out is not changed by what comes after it. -/
structure Stable (decode : List α → Verdict β) : Prop extends Sized decode where
  took_append : ∀ {buffer size message}, decode buffer = .took size message →
    ∀ more, decode (buffer ++ more) = .took size message
  failed_append : ∀ {buffer}, decode buffer = .failed → ∀ more, decode (buffer ++ more) = .failed

theorem Sized.length_drop_lt (h : Sized decode) (htook : decode buffer = .took size message) :
    (buffer.drop size).length < buffer.length := by
  have hsize := h.took htook
  rw [length_drop]
  omega

theorem Sized.drain_of_lt (h : Sized decode) (hfuel : buffer.length < fuel) (hother : buffer.length < other) :
    drain decode fuel buffer = drain decode other buffer := by
  induction fuel generalizing buffer other with
  | zero => exact absurd hfuel (Nat.not_lt_zero _)
  | succ fuel ih =>
    cases other with
    | zero => exact absurd hother (Nat.not_lt_zero _)
    | succ other =>
      rw [drain, drain]
      cases htook : decode buffer with
      | more => rfl
      | failed => rfl
      | took size message =>
        have hlt := h.length_drop_lt htook
        have heq : drain decode fuel (buffer.drop size) = drain decode other (buffer.drop size) :=
          ih (by omega) (by omega)
        dsimp only
        rw [heq]

theorem drained_of_more (hmore : decode buffer = .more) : drained decode buffer = { rest := buffer } := by
  rw [drained, drain, hmore]

theorem drained_of_failed (hfailed : decode buffer = .failed) :
    drained decode buffer = { rest := buffer, failed := true } := by
  rw [drained, drain, hfailed]

theorem Sized.drained_of_took (h : Sized decode) (htook : decode buffer = .took size message) :
    drained decode buffer = (drained decode (buffer.drop size)).prepend [message] := by
  have hlt := h.length_drop_lt htook
  rw [drained, drain, htook, drained]
  dsimp only
  rw [h.drain_of_lt hlt (Nat.lt_succ_self _)]
  rfl

theorem Sized.decode_rest (h : Sized decode) (buffer : List α) (hfailed : (drained decode buffer).failed = false) :
    decode (drained decode buffer).rest = .more := by
  induction hlength : buffer.length using Nat.strong_induction_on generalizing buffer with
  | _ length ih =>
    cases htook : decode buffer with
    | more =>
      rw [drained_of_more htook]
      exact htook
    | failed =>
      rw [drained_of_failed htook] at hfailed
      exact Bool.noConfusion hfailed
    | took size message =>
      rw [h.drained_of_took htook] at hfailed ⊢
      exact ih _ (hlength ▸ h.length_drop_lt htook) _ hfailed rfl

theorem Stable.drained_append (h : Stable decode) (buffer more : List α) :
    drained decode (buffer ++ more) =
      if (drained decode buffer).failed then
        { drained decode buffer with rest := (drained decode buffer).rest ++ more }
      else (drained decode ((drained decode buffer).rest ++ more)).prepend (drained decode buffer).messages := by
  induction hlength : buffer.length using Nat.strong_induction_on generalizing buffer with
  | _ length ih =>
    cases htook : decode buffer with
    | more =>
      rw [drained_of_more htook]
      rfl
    | failed =>
      rw [drained_of_failed htook, drained_of_failed (h.failed_append htook more)]
      rfl
    | took size message =>
      have hsize := h.took htook
      rw [h.drained_of_took (h.took_append htook more), h.drained_of_took htook,
        drop_append_of_le_length hsize.2, ih _ (hlength ▸ h.length_drop_lt htook) _ rfl]
      dsimp only [prepend]
      generalize drained decode (buffer.drop size) = taken
      obtain ⟨messages, rest, failed⟩ := taken
      cases failed with
      | true => rfl
      | false => simp only [Bool.false_eq_true, if_false, append_assoc]

/-- **In chunks or at once, it is the same.** -/
theorem Stable.receiveAll_eq (h : Stable decode) (chunks : List (List α)) :
    receiveAll decode chunks = drained decode chunks.flatten := by
  induction chunks using List.reverseRecOn with
  | nil => exact (drained_of_more h.nil).symm
  | append_singleton chunks chunk ih =>
    rw [receiveAll_concat, ih, flatten_append, flatten_singleton, h.drained_append, receive]
    dsimp only
    rw [← drained]
    generalize drained decode chunks.flatten = taken
    obtain ⟨messages, rest, failed⟩ := taken
    cases failed <;> rfl

/-- What has been encoded is taken when it is there, and waited for until then. -/
structure Undoes (decode : List α → Verdict β) (Ok : β → Prop) (encode : β → List α) : Prop where
  sized : Sized decode
  whole : ∀ message, Ok message → ∀ more, decode (encode message ++ more) = .took (encode message).length message
  part : ∀ message, Ok message → ∀ buffer, buffer <+: encode message → buffer.length < (encode message).length →
    decode buffer = .more

variable {encode : β → List α}

theorem Stable.undoes (h : Stable decode) {Ok : β → Prop}
    (whole : ∀ message, Ok message → ∀ more, decode (encode message ++ more) = .took (encode message).length message) :
    Undoes decode Ok encode := by
  refine ⟨h.toSized, whole, fun message hok buffer hbegins hlt => ?_⟩
  obtain ⟨more, hmore⟩ := hbegins
  have hwhole := whole message hok []
  rw [append_nil, ← hmore] at hwhole
  cases htook : decode buffer with
  | more => rfl
  | failed =>
    rw [h.failed_append htook more] at hwhole
    cases hwhole
  | took size other =>
    rw [h.took_append htook more] at hwhole
    obtain ⟨hsize, -⟩ := Verdict.took.inj hwhole
    have hle := (h.took htook).2
    rw [hsize, hmore] at hle
    omega

theorem Undoes.prefix_of_flatMap {Ok : β → Prop} (h : Undoes decode Ok encode)
    {messages dropped : List β} (hok : ∀ message ∈ messages, Ok message) (hdropped : ∀ message ∈ dropped, Ok message)
    (hbegins : dropped.flatMap encode <+: messages.flatMap encode) : dropped <+: messages := by
  induction dropped generalizing messages with
  | nil => exact nil_prefix
  | cons message dropped ih =>
    obtain ⟨hmessage, hothers⟩ := forall_mem_cons.mp hdropped
    obtain ⟨tail, htail⟩ := hbegins
    rw [flatMap_cons, append_assoc] at htail
    have htook := h.whole message hmessage (dropped.flatMap encode ++ tail)
    cases messages with
    | nil =>
      rw [htail, flatMap_nil, h.sized.nil] at htook
      cases htook
    | cons other messages =>
      obtain ⟨hother, hrest⟩ := forall_mem_cons.mp hok
      rw [htail, flatMap_cons, h.whole other hother] at htook
      obtain ⟨-, rfl⟩ := Verdict.took.inj htook
      rw [flatMap_cons] at htail
      exact (cons_prefix_cons).mpr ⟨rfl, ih hrest hothers ⟨tail, append_cancel_left htail⟩⟩

/-- Of the beginning of a stream, the messages that are there are taken, and the others are still to come. -/
theorem Undoes.drained_append {Ok : β → Prop} (h : Undoes decode Ok encode) {messages : List β}
    (hok : ∀ message ∈ messages, Ok message) {later : List α} (hstream : buffer ++ later = messages.flatMap encode) :
    ∃ taken, (drained decode buffer).messages = messages.take taken ∧ (drained decode buffer).failed = false ∧
      (drained decode buffer).rest ++ later = (messages.drop taken).flatMap encode := by
  induction messages generalizing buffer with
  | nil =>
    obtain ⟨rfl, rfl⟩ := append_eq_nil_iff.mp hstream
    rw [drained_of_more h.sized.nil]
    exact ⟨0, rfl, rfl, rfl⟩
  | cons message messages ih =>
    have hmessage := hok message mem_cons_self
    rw [flatMap_cons] at hstream
    by_cases hle : (encode message).length ≤ buffer.length
    · obtain ⟨tail, rfl⟩ : encode message <+: buffer :=
        prefix_of_prefix_length_le ⟨_, rfl⟩ (hstream ▸ prefix_append buffer later) hle
      rw [append_assoc] at hstream
      obtain ⟨taken, htaken, hfailed, hrest⟩ := ih (fun other hmem => hok other (mem_cons_of_mem _ hmem))
        (append_cancel_left hstream)
      rw [h.sized.drained_of_took (h.whole message hmessage tail), drop_left]
      refine ⟨taken + 1, ?_, hfailed, hrest⟩
      rw [prepend, htaken]
      rfl
    · have hpart : buffer <+: encode message :=
        prefix_of_prefix_length_le (hstream ▸ prefix_append buffer later) ⟨_, rfl⟩ (by omega)
      rw [drained_of_more (h.part message hmessage buffer hpart (by omega))]
      exact ⟨0, rfl, rfl, hstream⟩

/-- The next one begins where the first one has got to. -/
def andThen (decode : List α → Verdict β) (next : β → List α → Verdict γ) (buffer : List α) : Verdict γ :=
  match decode buffer with
  | .more => .more
  | .failed => .failed
  | .took size message =>
    match next message (buffer.drop size) with
    | .more => .more
    | .failed => .failed
    | .took other result => .took (size + other) result

variable {next : β → List α → Verdict γ} {result : γ}

theorem andThen_of_took (htook : decode buffer = .took size message)
    (hnext : next message (buffer.drop size) = .took other result) :
    andThen decode next buffer = .took (size + other) result := by
  rw [andThen, htook]
  dsimp only
  rw [hnext]

theorem andThen_append {front : List α}
    (htook : decode (front ++ more) = .took front.length message) (hnext : next message more = .took other result) :
    andThen decode next (front ++ more) = .took (front.length + other) result := by
  apply andThen_of_took htook
  rw [drop_left]
  exact hnext

theorem of_andThen_took
    (htook : andThen decode next buffer = .took size result) : ∃ first message second,
      decode buffer = .took first message ∧ next message (buffer.drop first) = .took second result ∧
        size = first + second := by
  rw [andThen] at htook
  cases hfirst : decode buffer with
  | more =>
    rw [hfirst] at htook
    cases htook
  | failed =>
    rw [hfirst] at htook
    cases htook
  | took first message =>
    rw [hfirst] at htook
    dsimp only at htook
    cases hsecond : next message (buffer.drop first) with
    | more =>
      rw [hsecond] at htook
      cases htook
    | failed =>
      rw [hsecond] at htook
      cases htook
    | took second other =>
      rw [hsecond] at htook
      obtain ⟨rfl, rfl⟩ := Verdict.took.inj htook
      exact ⟨first, message, second, rfl, hsecond, rfl⟩

theorem of_andThen_failed (hfailed : andThen decode next buffer = .failed) :
    decode buffer = .failed ∨
      ∃ first message, decode buffer = .took first message ∧ next message (buffer.drop first) = .failed := by
  rw [andThen] at hfailed
  cases hfirst : decode buffer with
  | more =>
    rw [hfirst] at hfailed
    cases hfailed
  | failed => exact .inl rfl
  | took first message =>
    rw [hfirst] at hfailed
    dsimp only at hfailed
    refine .inr ⟨first, message, rfl, ?_⟩
    cases hsecond : next message (buffer.drop first) with
    | more =>
      rw [hsecond] at hfailed
      cases hfailed
    | failed => rfl
    | took second other =>
      rw [hsecond] at hfailed
      cases hfailed

theorem Stable.andThen (h : Stable decode) (hnext : ∀ message, Stable (next message)) :
    Stable (andThen decode next) := by
  refine { nil := ?nil, took := ?took, took_append := ?took_append, failed_append := ?failed_append }
  case nil => rw [Intake.andThen, h.nil]
  case took =>
    intro buffer size result htook
    obtain ⟨first, message, second, hfirst, hsecond, rfl⟩ := of_andThen_took htook
    have hle := h.took hfirst
    have hother := (hnext message).took hsecond
    rw [length_drop] at hother
    omega
  case took_append =>
    intro buffer size result htook more
    obtain ⟨first, message, second, hfirst, hsecond, rfl⟩ := of_andThen_took htook
    apply andThen_of_took (h.took_append hfirst more)
    rw [drop_append_of_le_length (h.took hfirst).2]
    exact (hnext message).took_append hsecond more
  case failed_append =>
    intro buffer hfailed more
    rw [Intake.andThen]
    obtain hfirst | ⟨first, message, hfirst, hsecond⟩ := of_andThen_failed hfailed
    · rw [h.failed_append hfirst more]
    · rw [h.took_append hfirst more]
      dsimp only
      rw [drop_append_of_le_length (h.took hfirst).2, (hnext message).failed_append hsecond more]

theorem of_map_took {f : β → γ} {verdict : Verdict β} (h : verdict.map f = .took size result) :
    ∃ message, verdict = .took size message ∧ f message = result := by
  cases verdict with
  | more => cases h
  | failed => cases h
  | took other message =>
    obtain ⟨rfl, rfl⟩ := Verdict.took.inj h
    exact ⟨message, rfl, rfl⟩

theorem Stable.map (h : Stable decode) (f : β → γ) : Stable fun buffer => (decode buffer).map f := by
  refine { nil := ?nil, took := ?took, took_append := ?took_append, failed_append := ?failed_append }
  case nil =>
    rw [h.nil]
    rfl
  case took =>
    intro buffer size result htook
    obtain ⟨message, hmessage, -⟩ := of_map_took htook
    exact h.took hmessage
  case took_append =>
    intro buffer size result htook more
    obtain ⟨message, hmessage, rfl⟩ := of_map_took htook
    rw [h.took_append hmessage more]
    rfl
  case failed_append =>
    intro buffer hfailed more
    cases hdecode : decode buffer with
    | more =>
      rw [hdecode] at hfailed
      cases hfailed
    | failed =>
      rw [h.failed_append hdecode more]
      rfl
    | took size message =>
      rw [hdecode] at hfailed
      cases hfailed

/-- The buffer is kept with what has been made out of its front. -/
def keepBuffer (decode : List α → Verdict β) (buffer : List α) : Verdict (List α × β) :=
  (decode buffer).map fun message => (buffer, message)

theorem map_keepBuffer (decode : List α → Verdict β) (buffer : List α) :
    (keepBuffer decode buffer).map Prod.snd = decode buffer := by
  rw [keepBuffer]
  cases decode buffer <;> rfl

theorem receiveAll_keepBuffer (decode : List α → Verdict β) (chunks : List (List α)) :
    (receiveAll (keepBuffer decode) chunks).map Prod.snd = receiveAll decode chunks := by
  rw [map_receiveAll, funext (map_keepBuffer decode)]

theorem keepBuffer_of_took (h : decode buffer = .took size message) :
    keepBuffer decode buffer = .took size (buffer, message) := by
  rw [keepBuffer, h]
  rfl

theorem keepBuffer_of_more (h : decode buffer = .more) : keepBuffer decode buffer = .more := by
  rw [keepBuffer, h]
  rfl

theorem Sized.keepBuffer (h : Sized decode) : Sized (keepBuffer decode) := by
  refine ⟨by rw [Intake.keepBuffer, h.nil]; rfl, fun {buffer size message} htook => ?_⟩
  rw [Intake.keepBuffer] at htook
  cases hdecode : decode buffer with
  | took size' message' =>
    rw [hdecode] at htook
    obtain ⟨rfl, -⟩ := Verdict.took.inj htook
    exact h.took hdecode
  | more =>
    rw [hdecode] at htook
    cases htook
  | failed =>
    rw [hdecode] at htook
    cases htook

/-- Every message of `coarse` stands for what `decode` makes of the same bytes. -/
structure Spells (coarse : List α → Verdict γ) (spell : γ → List β) (decode : List α → Verdict β) : Prop where
  sized : Sized coarse
  took : ∀ {buffer size message}, coarse buffer = .took size message →
    drained decode buffer = (drained decode (buffer.drop size)).prepend (spell message)
  more : ∀ {buffer}, coarse buffer = .more → decode buffer = .more
  failed : ∀ {buffer}, coarse buffer = .failed → decode buffer = .failed

/-- What the messages stand for. -/
def spelled (spell : γ → List β) (intake : Intake α γ) : Intake α β :=
  { messages := intake.messages.flatMap spell, rest := intake.rest, failed := intake.failed }

variable {coarse : List α → Verdict γ} {spell : γ → List β}

theorem Spells.drained_eq (h : Spells coarse spell decode)
    (buffer : List α) : (drained coarse buffer).spelled spell = drained decode buffer := by
  induction hlength : buffer.length using Nat.strong_induction_on generalizing buffer with
  | _ length ih =>
    cases htook : coarse buffer with
    | more =>
      rw [drained_of_more htook, drained_of_more (h.more htook)]
      rfl
    | failed =>
      rw [drained_of_failed htook, drained_of_failed (h.failed htook)]
      rfl
    | took size message =>
      rw [h.sized.drained_of_took htook, h.took htook, ← ih _ (hlength ▸ h.sized.length_drop_lt htook) _ rfl]
      rfl

theorem Spells.receive_eq (h : Spells coarse spell decode)
    (intake : Intake α γ) (chunk : List α) :
    (receive coarse intake chunk).spelled spell = receive decode (intake.spelled spell) chunk := by
  obtain ⟨messages, rest, failed⟩ := intake
  rw [receive, receive]
  dsimp only [spelled]
  cases failed with
  | true => rfl
  | false =>
    rw [← drained, ← drained, ← h.drained_eq]
    simp only [Bool.false_eq_true, if_false, spelled, flatMap_append]

theorem Spells.receiveAll_eq (h : Spells coarse spell decode)
    (hstable : Stable decode) (chunks : List (List α)) :
    (receiveAll coarse chunks).spelled spell = drained decode chunks.flatten := by
  rw [← hstable.receiveAll_eq]
  induction chunks using List.reverseRecOn with
  | nil => rfl
  | append_singleton chunks chunk ih =>
    rw [receiveAll_concat, receiveAll_concat, h.receive_eq, ih]

end Tbox.Lib.Intake
