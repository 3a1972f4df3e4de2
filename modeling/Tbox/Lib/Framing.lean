import Mathlib.Tactic

/-!
# Messages out of a stream

After every chunk messages are taken off the front of the buffer for as long as there are any. If a decoder makes out
every frame whatever follows it, and waits on every part of a frame, then the chunks make no difference.
-/

open List

namespace Tbox.Lib

/-- What a decoder makes of the front of a buffer. -/
inductive Verdict (β : Type*) where
  | more
  | took (size : Nat) (message : β)
  | failed
  deriving DecidableEq, Repr

/-- What has been taken so far, and what is left in the buffer. -/
structure Intake (α β : Type*) where
  messages : List β := []
  rest : List α := []
  failed : Bool := false
  deriving DecidableEq, Repr

def Verdict.map {β γ : Type*} (f : β → γ) : Verdict β → Verdict γ
  | .more => .more
  | .took size message => .took size (f message)
  | .failed => .failed

section Map

variable {β γ : Type*} {f : β → γ} {verdict : Verdict β}

@[simp] theorem Verdict.map_eq_more : verdict.map f = .more ↔ verdict = .more := by
  cases verdict <;> simp [map]

@[simp] theorem Verdict.map_eq_failed : verdict.map f = .failed ↔ verdict = .failed := by
  cases verdict <;> simp [map]

@[simp] theorem Verdict.map_eq_took {size : Nat} {c : γ} :
    verdict.map f = .took size c ↔ ∃ message, verdict = .took size message ∧ f message = c := by
  cases verdict with
  | more => simp [map]
  | failed => simp [map]
  | took size' message =>
    simp only [map, Verdict.took.injEq]
    constructor
    · rintro ⟨rfl, rfl⟩
      exact ⟨message, ⟨rfl, rfl⟩, rfl⟩
    · rintro ⟨_, ⟨rfl, rfl⟩, rfl⟩
      exact ⟨rfl, rfl⟩

end Map

/-- The frame is kept with the message. -/
def keepFrame {α β : Type*} (decode : List α → Verdict β) (buffer : List α) : Verdict (List α × β) :=
  match decode buffer with
  | .more => .more
  | .took size message => .took size (buffer.take size, message)
  | .failed => .failed

theorem map_keepFrame {α β : Type*} (decode : List α → Verdict β) (buffer : List α) :
    (keepFrame decode buffer).map Prod.snd = decode buffer := by
  rw [keepFrame]
  cases decode buffer <;> rfl

namespace Intake

variable {α β : Type*} {decode : List α → Verdict β} {frame : β → List α} {messages later : List β}
  {buffer tail : List α} {message : β} {chunks : List (List α)} {fuel : Nat}

/-- The decoder is called until it asks for more. -/
def drain (decode : List α → Verdict β) : Nat → List α → Intake α β
  | 0, buffer => { rest := buffer }
  | fuel + 1, buffer =>
    match decode buffer with
    | .more => { rest := buffer }
    | .failed => { rest := buffer, failed := true }
    | .took size message =>
      let next := drain decode fuel (buffer.drop size)
      { next with messages := message :: next.messages }

/-- One chunk. After a failure nothing more is taken. -/
def receive (decode : List α → Verdict β) (intake : Intake α β) (chunk : List α) : Intake α β :=
  let buffer := intake.rest ++ chunk
  if intake.failed then { intake with rest := buffer }
  else
    let next := drain decode (buffer.length + 1) buffer
    { next with messages := intake.messages ++ next.messages }

def receiveAll (decode : List α → Verdict β) (chunks : List (List α)) : Intake α β :=
  chunks.foldl (receive decode) {}

def map {γ : Type*} (f : β → γ) (intake : Intake α β) : Intake α γ :=
  { messages := intake.messages.map f, rest := intake.rest, failed := intake.failed }

theorem map_drain {γ : Type*} (f : β → γ) (decode : List α → Verdict β) (fuel : Nat) (buffer : List α) :
    (drain decode fuel buffer).map f = drain (fun buffer => (decode buffer).map f) fuel buffer := by
  induction fuel generalizing buffer with
  | zero => rfl
  | succ fuel ih =>
    rw [drain, drain]
    cases decode buffer with
    | more => rfl
    | failed => rfl
    | took size message =>
      change _ = { drain (fun buffer => (decode buffer).map f) fuel (buffer.drop size) with
        messages := f message :: (drain (fun buffer => (decode buffer).map f) fuel (buffer.drop size)).messages }
      rw [← ih]
      rfl

theorem map_receive {γ : Type*} (f : β → γ) (decode : List α → Verdict β) (intake : Intake α β) (chunk : List α) :
    (receive decode intake chunk).map f = receive (fun buffer => (decode buffer).map f) (intake.map f) chunk := by
  obtain ⟨messages, rest, failed⟩ := intake
  cases failed with
  | true => rfl
  | false =>
    simp only [receive, map, Bool.false_eq_true, if_false, map_append, ← map_drain]

theorem receiveAll_concat (decode : List α → Verdict β) (chunks : List (List α)) (chunk : List α) :
    receiveAll decode (chunks ++ [chunk]) = receive decode (receiveAll decode chunks) chunk := by
  rw [receiveAll, List.foldl_append]
  rfl

theorem map_receiveAll {γ : Type*} (f : β → γ) (decode : List α → Verdict β) (chunks : List (List α)) :
    (receiveAll decode chunks).map f = receiveAll (fun buffer => (decode buffer).map f) chunks := by
  induction chunks using List.reverseRecOn with
  | nil => rfl
  | append_singleton chunks chunk ih =>
    rw [receiveAll_concat, receiveAll_concat, map_receive, ih]

/-- The frames of these messages are made out one by one. -/
structure Decodes (decode : List α → Verdict β) (frame : β → List α) (messages : List β) : Prop where
  ne_nil : ∀ message ∈ messages, frame message ≠ []
  took : ∀ message ∈ messages, ∀ tail, decode (frame message ++ tail) = .took (frame message).length message
  more : ∀ message ∈ messages, ∀ part, part <+: frame message → part ≠ frame message → decode part = .more
  nil : decode [] = .more

/-- What is left when all whole messages have been taken: the beginning of the next one, if there is one. -/
def Incomplete (frame : β → List α) : List β → List α → Prop
  | [], tail => tail = []
  | message :: _, tail => tail <+: frame message ∧ tail ≠ frame message

theorem Decodes.of_append (h : Decodes decode frame (messages ++ later)) : Decodes decode frame later :=
  ⟨fun m hm => h.ne_nil m (mem_append_right _ hm), fun m hm => h.took m (mem_append_right _ hm),
    fun m hm => h.more m (mem_append_right _ hm), h.nil⟩

theorem Decodes.more_of_incomplete (h : Decodes decode frame later) (htail : Incomplete frame later tail) :
    decode tail = .more := by
  cases later with
  | nil =>
    obtain rfl : tail = [] := htail
    exact h.nil
  | cons message rest => exact h.more message mem_cons_self tail htail.1 htail.2

theorem exists_split {part : List α} (h : part <+: messages.flatMap frame) :
    ∃ taken later tail, messages = taken ++ later ∧ part = taken.flatMap frame ++ tail ∧
      Incomplete frame later tail := by
  induction messages generalizing part with
  | nil => exact ⟨[], [], [], rfl, prefix_nil.mp h, rfl⟩
  | cons message rest ih =>
    rw [flatMap_cons] at h
    by_cases hwhole : frame message <+: part
    · obtain ⟨part, rfl⟩ := hwhole
      obtain ⟨taken, later, tail, rfl, rfl, htail⟩ := ih ((prefix_append_right_inj _).mp h)
      refine ⟨message :: taken, later, tail, rfl, ?_, htail⟩
      rw [flatMap_cons, append_assoc]
    · refine ⟨[], message :: rest, part, rfl, rfl, ?_, ?_⟩
      · rcases prefix_or_prefix_of_prefix h (prefix_append _ _) with hpart | hframe
        · exact hpart
        · exact absurd hframe hwhole
      · rintro rfl
        exact hwhole (prefix_refl _)

theorem length_le_flatMap (h : ∀ message ∈ messages, frame message ≠ []) :
    messages.length ≤ (messages.flatMap frame).length := by
  induction messages with
  | nil => exact Nat.zero_le _
  | cons message rest ih =>
    have hpos : 0 < (frame message).length := length_pos_iff.mpr (h message mem_cons_self)
    have hrest := ih fun m hm => h m (mem_cons_of_mem message hm)
    rw [flatMap_cons, List.length_append, length_cons]
    omega

theorem Decodes.drain_eq (h : Decodes decode frame (messages ++ later)) (htail : Incomplete frame later tail)
    (hfuel : messages.length < fuel) :
    drain decode fuel (messages.flatMap frame ++ tail) = { messages := messages, rest := tail } := by
  induction messages generalizing fuel with
  | nil =>
    obtain ⟨fuel, rfl⟩ := Nat.exists_eq_succ_of_ne_zero (Nat.ne_of_gt hfuel)
    rw [flatMap_nil, nil_append, drain, h.more_of_incomplete htail]
  | cons message rest ih =>
    obtain ⟨fuel, rfl⟩ := Nat.exists_eq_succ_of_ne_zero (Nat.ne_of_gt (Nat.zero_lt_of_lt hfuel))
    have hrest : Decodes decode frame (rest ++ later) := 
      Decodes.of_append (show Decodes decode frame ([message] ++ (rest ++ later)) from h)
    rw [flatMap_cons, append_assoc, drain, h.took message mem_cons_self]
    dsimp only
    rw [drop_left, ih hrest (Nat.lt_of_succ_lt_succ hfuel)]

theorem Decodes.receive_eq (h : Decodes decode frame later) (taken : List β) {chunk : List α}
    (hpart : tail ++ chunk <+: later.flatMap frame) :
    ∃ more rest tail', later = more ++ rest ∧ tail ++ chunk = more.flatMap frame ++ tail' ∧
      Incomplete frame rest tail' ∧
      receive decode { messages := taken, rest := tail } chunk = { messages := taken ++ more, rest := tail' } := by
  obtain ⟨more, rest, tail', rfl, hbuffer, htail'⟩ := exists_split hpart
  refine ⟨more, rest, tail', rfl, hbuffer, htail', ?_⟩
  have hlength : more.length < (tail ++ chunk).length + 1 := by
    have hle : more.length ≤ (more.flatMap frame).length :=
      length_le_flatMap fun m hm => h.ne_nil m (mem_append_left _ hm)
    rw [hbuffer, List.length_append]
    omega
  rw [receive]
  dsimp only
  rw [hbuffer] at hlength ⊢
  rw [if_neg Bool.false_ne_true, h.drain_eq htail' hlength]

/-- **However a stream is cut into chunks, what has come in whole is taken, in its order, and nothing else.** -/
theorem Decodes.receiveAll_eq (h : Decodes decode frame messages) (hpart : chunks.flatten <+: messages.flatMap frame) :
    ∃ taken later tail, messages = taken ++ later ∧ chunks.flatten = taken.flatMap frame ++ tail ∧
      Incomplete frame later tail ∧ receiveAll decode chunks = { messages := taken, rest := tail } := by
  induction chunks using List.reverseRecOn with
  | nil =>
    obtain ⟨taken, later, tail, rfl, hnil, htail⟩ := exists_split hpart
    obtain ⟨htaken, rfl⟩ := append_eq_nil_iff.mp hnil.symm
    have hempty : taken = [] := by
      refine eq_nil_iff_forall_not_mem.mpr fun m hm => ?_
      exact h.ne_nil m (mem_append_left _ hm) (flatMap_eq_nil_iff.mp htaken m hm)
    subst hempty
    exact ⟨[], later, [], rfl, rfl, htail, rfl⟩
  | append_singleton chunks chunk ih =>
    rw [flatten_append, flatten_singleton] at hpart
    obtain ⟨taken, later, tail, rfl, hbefore, -, heq⟩ := ih ((prefix_append _ _).trans hpart)
    rw [hbefore, append_assoc, flatMap_append] at hpart
    obtain ⟨more, rest, tail', rfl, hbuffer, htail', hreceive⟩ :=
      h.of_append.receive_eq taken ((prefix_append_right_inj _).mp hpart)
    refine ⟨taken ++ more, rest, tail', (append_assoc _ _ _).symm, ?_, htail', ?_⟩
    · rw [flatten_append, flatten_singleton, hbefore, append_assoc, hbuffer, flatMap_append, append_assoc]
    · rw [receiveAll_concat, heq]
      exact hreceive

theorem Decodes.receiveAll_whole (h : Decodes decode frame messages) (hall : chunks.flatten = messages.flatMap frame) :
    receiveAll decode chunks = { messages := messages } := by
  have hpart : chunks.flatten <+: messages.flatMap frame := by
    rw [hall]
  obtain ⟨taken, later, tail, rfl, hbuffer, htail, heq⟩ := h.receiveAll_eq hpart
  rw [hall, flatMap_append, append_cancel_left_eq] at hbuffer
  cases later with
  | nil =>
    obtain rfl : tail = [] := htail
    rw [heq, append_nil]
  | cons message rest =>
    rw [flatMap_cons] at hbuffer
    have hlength := htail.1.length_le
    rw [← hbuffer, List.length_append] at hlength
    refine absurd (htail.1.eq_of_length_le ?_) htail.2
    rw [← hbuffer, List.length_append]
    omega

end Intake

end Tbox.Lib
