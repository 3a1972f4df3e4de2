import Tbox.Terminal.Telnetd

/-!
# Elements of a telnet stream

A sub-negotiation ends with the first IAC after its option. `onTcpReceived` looks for it one byte later, and
`onRecvSub` takes a window size to have four bytes. How the stream has been cut never matters.
-/

open List

namespace Tbox.Terminal.Telnetd

open Lib (Bytes Verdict Intake)
open Lib.Intake
open Cmd Opt

/-- An element of the stream, with text character by character. -/
inductive Item where
  | char (ch : UInt8)
  | nego (cmd opt : UInt8)
  | cmd (cmd : UInt8)
  | sub (opt : UInt8) (data : Bytes)
  deriving DecidableEq, Repr

def front (place : Nat) (buff : Bytes) : Verdict Item :=
  match buff with
  | [] => .more
  | first :: rest =>
    if first ≠ kIAC then .took 1 (.char first)
    else
      match rest with
      | [] => .more
      | command :: rest =>
        if isNego command then
          match rest with
          | [] => .more
          | opt :: _ => .took 3 (.nego command opt)
        else if command = kSB then
          let ends := place + (buff.drop place).idxOf kIAC
          if buff.length < ends + 2 then .more
          else .took (ends + 2) (.sub (buff.getD 2 0) ((buff.drop 3).take (ends - 3)))
        else .took 2 (.cmd command)

abbrev element : Bytes → Verdict Item := front 3

def Call.spell : Call → List Item
  | .string str => str.map .char
  | .nego command opt => [.nego command opt]
  | .cmd command => [.cmd command]
  | .sub opt data => [.sub opt data]

/-- The bytes that a callback about the front of the buffer may read: where they begin, and how many they are. -/
def own (buff : Bytes) : Nat × Nat :=
  match element buff with
  | .took _ (.sub _ data) => (3, data.length)
  | .took _ (.char _) => (0, buff.idxOf kIAC)
  | .took size _ => (0, size)
  | _ => (0, 0)

def Callback.ReadsOwn (buff : Bytes) (callback : Callback) : Prop :=
  (own buff).1 ≤ callback.start ∧ callback.start + callback.reads ≤ (own buff).1 + (own buff).2

/-- However the stream is cut, it is told the same; callbacks read what is theirs; and what is left is part of an
element. -/
def Faithful (stream : Bytes) : Prop :=
  ∀ chunks : List Bytes, chunks.flatten = stream →
    (receiveAll receiveRound chunks).spelled (Call.spell ∘ Callback.call) =
      (receiveAll receiveRound [stream]).spelled (Call.spell ∘ Callback.call) ∧
    (∀ seen ∈ (receiveAll (keepBuffer receiveRound) chunks).messages, seen.2.ReadsOwn seen.1) ∧
    element (receiveAll receiveRound chunks).rest = .more

def Item.Ample : Item → Prop
  | .sub opt data => data ≠ [] ∧ (opt = kWINDOW → 4 ≤ data.length)
  | _ => True

instance (item : Item) : Decidable item.Ample := by
  cases item <;> (dsimp only [Item.Ample]; infer_instance)

/-- Every sub-negotiation of the stream has bytes enough. -/
def Sound (stream : Bytes) : Prop := ∀ item ∈ (drained element stream).messages, item.Ample

variable {place : Nat} {buff rest more data stream text : Bytes} {first cmd opt ch : UInt8} {item : Item}
  {size : Nat} {callback : Callback}

theorem front_char (h : first ≠ kIAC) : front place (first :: rest) = .took 1 (.char first) := if_pos h

theorem front_nego (h : isNego cmd = true) : front place (kIAC :: cmd :: opt :: rest) = .took 3 (.nego cmd opt) :=
  if_pos h

theorem front_negoPart (h : isNego cmd = true) : front place [kIAC, cmd] = .more := if_pos h

theorem front_cmd (h : isNego cmd = false) (hsub : cmd ≠ kSB) :
    front place (kIAC :: cmd :: rest) = .took 2 (.cmd cmd) := by
  cases rest <;> exact (if_neg (Bool.eq_false_iff.mp h)).trans (if_neg hsub)

def endOfSub (place : Nat) (buff : Bytes) : Nat := place + (buff.drop place).idxOf kIAC

theorem front_sub : front place (kIAC :: kSB :: rest) =
    if (kIAC :: kSB :: rest).length < endOfSub place (kIAC :: kSB :: rest) + 2 then .more
    else .took (endOfSub place (kIAC :: kSB :: rest) + 2)
      (.sub (rest.getD 0 0) ((rest.drop 1).take (endOfSub place (kIAC :: kSB :: rest) - 3))) := rfl

inductive Shape : Bytes → Prop where
  | nil : Shape []
  | char {first : UInt8} {rest : Bytes} (h : first ≠ kIAC) : Shape (first :: rest)
  | lone : Shape [kIAC]
  | negoPart {cmd : UInt8} (h : isNego cmd = true) : Shape [kIAC, cmd]
  | nego {cmd opt : UInt8} {rest : Bytes} (h : isNego cmd = true) : Shape (kIAC :: cmd :: opt :: rest)
  | sub {rest : Bytes} : Shape (kIAC :: kSB :: rest)
  | cmd {cmd : UInt8} {rest : Bytes} (h : isNego cmd = false) (hsub : cmd ≠ kSB) : Shape (kIAC :: cmd :: rest)

theorem shape (buff : Bytes) : Shape buff := by
  match buff with
  | [] => exact .nil
  | first :: rest =>
    by_cases hfirst : first = kIAC
    · subst hfirst
      match rest with
      | [] => exact .lone
      | cmd :: rest =>
        cases hnego : isNego cmd with
        | true =>
          match rest with
          | [] => exact .negoPart hnego
          | opt :: rest => exact .nego hnego
        | false =>
          by_cases hsub : cmd = kSB
          · subst hsub
            exact .sub
          · exact .cmd hnego hsub
    · exact .char hfirst

theorem getD_append_left {index : Nat} (h : index < data.length) :
    (data ++ more).getD index 0 = data.getD index 0 := by
  rw [getD_eq_getElem?_getD, getD_eq_getElem?_getD, getElem?_append_left h]

theorem endOfSub_append (hlength : endOfSub place buff + 2 ≤ buff.length) (more : Bytes) :
    endOfSub place (buff ++ more) = endOfSub place buff := by
  rw [endOfSub] at hlength
  have hmem : kIAC ∈ buff.drop place := by
    apply idxOf_lt_length_iff.mp
    rw [length_drop]
    omega
  rw [endOfSub, endOfSub, drop_append_of_le_length (by omega), idxOf_append_of_mem hmem]

/-- What the buffer begins with when an element is taken from it. -/
inductive Took (place : Nat) : Bytes → Nat → Item → Prop where
  | char {first : UInt8} {rest : Bytes} (h : first ≠ kIAC) : Took place (first :: rest) 1 (.char first)
  | nego {cmd opt : UInt8} {rest : Bytes} (h : isNego cmd = true) :
    Took place (kIAC :: cmd :: opt :: rest) 3 (.nego cmd opt)
  | cmd {cmd : UInt8} {rest : Bytes} (h : isNego cmd = false) (hsub : cmd ≠ kSB) :
    Took place (kIAC :: cmd :: rest) 2 (.cmd cmd)
  | sub {rest : Bytes} (h : endOfSub place (kIAC :: kSB :: rest) + 2 ≤ (kIAC :: kSB :: rest).length) :
    Took place (kIAC :: kSB :: rest) (endOfSub place (kIAC :: kSB :: rest) + 2)
      (.sub (rest.getD 0 0) ((rest.drop 1).take (endOfSub place (kIAC :: kSB :: rest) - 3)))

theorem took_of_front (h : front place buff = .took size item) : Took place buff size item := by
  cases shape buff with
  | nil => cases h
  | char hfirst =>
    rw [front_char hfirst] at h
    obtain ⟨rfl, rfl⟩ := Verdict.took.inj h
    exact .char hfirst
  | lone => cases h
  | negoPart hnego =>
    rw [front_negoPart hnego] at h
    cases h
  | nego hnego =>
    rw [front_nego hnego] at h
    obtain ⟨rfl, rfl⟩ := Verdict.took.inj h
    exact .nego hnego
  | sub =>
    rw [front_sub] at h
    split at h
    · cases h
    · rename_i hlength
      obtain ⟨rfl, rfl⟩ := Verdict.took.inj h
      exact .sub (Nat.le_of_not_lt hlength)
  | cmd hnego hsub =>
    rw [front_cmd hnego hsub] at h
    obtain ⟨rfl, rfl⟩ := Verdict.took.inj h
    exact .cmd hnego hsub

theorem sized_front (place : Nat) : Sized (front place) := by
  refine ⟨rfl, fun {buff size item} h => ?_⟩
  cases took_of_front h with
  | char | nego | cmd => exact ⟨by decide, Nat.le_add_left _ _⟩
  | sub hlength => exact ⟨Nat.succ_pos _, hlength⟩

theorem front_ne_failed : front place buff ≠ .failed := by
  intro h
  cases shape buff with
  | nil => cases h
  | char hfirst =>
    rw [front_char hfirst] at h
    cases h
  | lone => cases h
  | negoPart hnego =>
    rw [front_negoPart hnego] at h
    cases h
  | nego hnego =>
    rw [front_nego hnego] at h
    cases h
  | sub =>
    rw [front_sub] at h
    split at h <;> exact nomatch h
  | cmd hnego hsub =>
    rw [front_cmd hnego hsub] at h
    cases h

theorem front_append (hplace : 3 ≤ place) (h : front place buff = .took size item) (more : Bytes) :
    front place (buff ++ more) = .took size item := by
  cases took_of_front h with
  | char hfirst => exact front_char hfirst
  | nego hnego => exact front_nego hnego
  | cmd hnego hsub => exact front_cmd hnego hsub
  | @sub rest hlength =>
    have hends : endOfSub place (kIAC :: kSB :: (rest ++ more)) = endOfSub place (kIAC :: kSB :: rest) :=
      endOfSub_append hlength more
    have hplace' : place ≤ endOfSub place (kIAC :: kSB :: rest) := Nat.le_add_right _ _
    have hrest : endOfSub place (kIAC :: kSB :: rest) ≤ rest.length := Nat.le_of_add_le_add_right hlength
    rw [cons_append, cons_append, front_sub, hends, if_neg]
    · rw [getD_append_left (by omega), drop_append_of_le_length (by omega),
        take_append_of_le_length (by rw [length_drop]; omega)]
    · rw [length_cons, length_cons, length_append]
      omega

theorem stable_front (hplace : 3 ≤ place) : Stable (front place) :=
  { sized_front place with
    took_append := fun h more => front_append hplace h more
    failed_append := fun h _ => absurd h front_ne_failed }

theorem receiveRound_char (rest : Bytes) (h : first ≠ kIAC) : receiveRound (first :: rest) =
    .took ((first :: rest).idxOf kIAC) (onRecvString ((first :: rest).take ((first :: rest).idxOf kIAC))) := by
  have hpos : 0 < (first :: rest).idxOf kIAC := by
    rw [idxOf_cons_ne _ h]
    exact Nat.succ_pos _
  exact if_pos hpos

theorem receiveRound_iac : receiveRound (kIAC :: cmd :: rest) = if isNego cmd then
      if (kIAC :: cmd :: rest).length < 3 then .more else .took 3 (onRecvNego cmd (rest.getD 0 0))
    else if cmd = kSB then if (kIAC :: cmd :: rest).length < 6 then .more
      else if endOfSub 4 (kIAC :: cmd :: rest) = (kIAC :: cmd :: rest).length then .more
      else if endOfSub 4 (kIAC :: cmd :: rest) + 1 = (kIAC :: cmd :: rest).length then .more
      else .took (endOfSub 4 (kIAC :: cmd :: rest) + 2)
        (onRecvSub (rest.getD 0 0) (rest.drop 1) (endOfSub 4 (kIAC :: cmd :: rest) - 3))
    else .took 2 (onRecvCmd cmd) := by
  have hlength : ¬(kIAC :: cmd :: rest).length < 2 := by
    simp only [length_cons]
    omega
  rw [receiveRound, if_neg (show ¬(kIAC :: cmd :: rest).length = 0 from Nat.succ_ne_zero _)]
  rw [idxOf_cons_self, if_neg (Nat.lt_irrefl 0), if_neg hlength]
  rfl

theorem receiveRound_nego (h : isNego cmd = true) :
    receiveRound (kIAC :: cmd :: opt :: rest) = .took 3 (onRecvNego cmd opt) := by
  rw [receiveRound_iac, if_pos h, if_neg (by simp only [length_cons]; omega)]
  rfl

theorem receiveRound_negoPart (h : isNego cmd = true) : receiveRound [kIAC, cmd] = .more := by
  rw [receiveRound_iac, if_pos h]
  rfl

theorem receiveRound_cmd (h : isNego cmd = false) (hsub : cmd ≠ kSB) :
    receiveRound (kIAC :: cmd :: rest) = .took 2 (onRecvCmd cmd) := by
  rw [receiveRound_iac, if_neg (Bool.eq_false_iff.mp h), if_neg hsub]

theorem receiveRound_sub : receiveRound (kIAC :: kSB :: rest) =
    if (kIAC :: kSB :: rest).length < endOfSub 4 (kIAC :: kSB :: rest) + 2 then .more
    else .took (endOfSub 4 (kIAC :: kSB :: rest) + 2)
      (onRecvSub (rest.getD 0 0) (rest.drop 1) (endOfSub 4 (kIAC :: kSB :: rest) - 3)) := by
  have hends : 4 ≤ endOfSub 4 (kIAC :: kSB :: rest) := Nat.le_add_right _ _
  rw [receiveRound_iac, if_neg (by decide), if_pos rfl]
  by_cases hshort : (kIAC :: kSB :: rest).length < 6
  · rw [if_pos hshort, if_pos (by omega)]
  have hle : endOfSub 4 (kIAC :: kSB :: rest) ≤ (kIAC :: kSB :: rest).length := by
    have hidx : ((kIAC :: kSB :: rest).drop 4).idxOf kIAC ≤ ((kIAC :: kSB :: rest).drop 4).length := idxOf_le_length
    rw [length_drop] at hidx
    rw [endOfSub]
    omega
  rw [if_neg hshort]
  by_cases hend : endOfSub 4 (kIAC :: kSB :: rest) = (kIAC :: kSB :: rest).length
  · rw [if_pos hend, if_pos (by omega)]
  rw [if_neg hend]
  by_cases hlast : endOfSub 4 (kIAC :: kSB :: rest) + 1 = (kIAC :: kSB :: rest).length
  · rw [if_pos hlast, if_pos (by omega)]
  · rw [if_neg hlast, if_neg (by omega)]

def callbackOf (buff : Bytes) : Item → Callback
  | .char ch => onRecvString [ch]
  | .nego command opt => onRecvNego command opt
  | .cmd command => onRecvCmd command
  | .sub opt data => onRecvSub opt (buff.drop 3) data.length

theorem length_data (h : endOfSub place (kIAC :: kSB :: rest) + 2 ≤ (kIAC :: kSB :: rest).length) :
    ((rest.drop 1).take (endOfSub place (kIAC :: kSB :: rest) - 3)).length =
      endOfSub place (kIAC :: kSB :: rest) - 3 := by
  rw [length_cons, length_cons] at h
  rw [length_take, length_drop]
  omega

theorem receiveRound_cases (buff : Bytes) : (∃ first rest, buff = first :: rest ∧ first ≠ kIAC) ∨
      receiveRound buff = (front 4 buff).map (callbackOf buff) := by
  cases shape buff with
  | nil => exact .inr rfl
  | @char first rest hfirst => exact .inl ⟨first, rest, rfl, hfirst⟩
  | lone => exact .inr rfl
  | negoPart hnego =>
    rw [receiveRound_negoPart hnego, front_negoPart hnego]
    exact .inr rfl
  | nego hnego =>
    rw [receiveRound_nego hnego, front_nego hnego]
    exact .inr rfl
  | @sub rest =>
    refine .inr ?_
    rw [receiveRound_sub, front_sub]
    split
    · rfl
    rename_i hlength
    dsimp only [Verdict.map, callbackOf]
    rw [length_data (Nat.le_of_not_lt hlength)]
    rfl
  | cmd hnego hsub =>
    rw [receiveRound_cmd hnego hsub, front_cmd hnego hsub]
    exact .inr rfl

theorem sized_receiveRound : Sized receiveRound := by
  refine ⟨rfl, fun {buff size callback} h => ?_⟩
  rcases receiveRound_cases buff with ⟨first, rest, rfl, hfirst⟩ | hround
  · rw [receiveRound_char _ hfirst] at h
    obtain ⟨rfl, -⟩ := Verdict.took.inj h
    refine ⟨?_, idxOf_le_length⟩
    rw [idxOf_cons_ne _ hfirst]
    exact Nat.succ_pos _
  · rw [hround, Verdict.map_eq_took] at h
    obtain ⟨item, hfront, -⟩ := h
    exact (sized_front 4).took hfront

theorem not_mem_take_idxOf (buff : Bytes) : kIAC ∉ buff.take (buff.idxOf kIAC) := by
  induction buff with
  | nil => exact not_mem_nil
  | cons first rest ih =>
    by_cases hfirst : first = kIAC
    · rw [hfirst, idxOf_cons_self]
      exact not_mem_nil
    · rw [idxOf_cons_ne _ hfirst, take_succ_cons, mem_cons, not_or]
      exact ⟨Ne.symm hfirst, ih⟩

theorem drained_text (place : Nat) (htext : kIAC ∉ text) (tail : Bytes) :
    drained (front place) (text ++ tail) = (drained (front place) tail).prepend (text.map .char) := by
  induction text with
  | nil => rfl
  | cons first text ih =>
    obtain ⟨hfirst, hrest⟩ := not_or.mp (fun h => htext (mem_cons.mpr h))
    rw [cons_append, (sized_front place).drained_of_took (front_char (Ne.symm hfirst))]
    exact congrArg (prepend [Item.char first]) (ih hrest)

theorem drained_char (place : Nat) (buff : Bytes) : drained (front place) buff =
    (drained (front place) (buff.drop (buff.idxOf kIAC))).prepend ((buff.take (buff.idxOf kIAC)).map .char) := by
  have h := drained_text place (not_mem_take_idxOf buff) (buff.drop (buff.idxOf kIAC))
  rwa [take_append_drop] at h

theorem spell_onRecvSub (opt : UInt8) (p : Bytes) (s : Nat) :
    (onRecvSub opt p s).call.spell = [.sub opt (p.take s)] := by
  rw [onRecvSub]
  split <;> rfl

theorem spell_callbackOf (h : front place buff = .took size item) : (callbackOf buff item).call.spell = [item] := by
  cases took_of_front h with
  | char | nego | cmd => rfl
  | sub hlength =>
    rw [callbackOf, spell_onRecvSub, length_data hlength]
    rfl

theorem spells : Spells receiveRound (Call.spell ∘ Callback.call) (front 4) := by
  refine ⟨sized_receiveRound, fun {buff size callback} h => ?_, fun {buff} h => ?_, fun {buff} h => ?_⟩
  · rcases receiveRound_cases buff with ⟨first, rest, rfl, hfirst⟩ | hround
    · rw [receiveRound_char _ hfirst] at h
      obtain ⟨rfl, rfl⟩ := Verdict.took.inj h
      exact drained_char 4 (first :: rest)
    · rw [hround, Verdict.map_eq_took] at h
      obtain ⟨item, hfront, rfl⟩ := h
      rw [(sized_front 4).drained_of_took hfront, Function.comp_apply, spell_callbackOf hfront]
  · rcases receiveRound_cases buff with ⟨first, rest, rfl, hfirst⟩ | hround
    · rw [receiveRound_char _ hfirst] at h
      cases h
    · rwa [hround, Verdict.map_eq_more] at h
  · rcases receiveRound_cases buff with ⟨first, rest, rfl, hfirst⟩ | hround
    · rw [receiveRound_char _ hfirst] at h
      cases h
    · rwa [hround, Verdict.map_eq_failed] at h

theorem spelled_receiveAll (chunks : List Bytes) :
    (receiveAll receiveRound chunks).spelled (Call.spell ∘ Callback.call) = drained (front 4) chunks.flatten :=
  spells.receiveAll_eq (stable_front (by decide)) chunks

theorem endOfSub_le (rest : Bytes) : endOfSub 3 (kIAC :: kSB :: rest) ≤ endOfSub 4 (kIAC :: kSB :: rest) := by
  cases rest with
  | nil => decide
  | cons opt payload =>
    cases payload with
    | nil => exact Nat.le_succ 3
    | cons first payload =>
      change 3 + (first :: payload).idxOf kIAC ≤ 4 + payload.idxOf kIAC
      by_cases hfirst : first = kIAC
      · rw [hfirst, idxOf_cons_self]
        omega
      · rw [idxOf_cons_ne _ hfirst]
        omega

theorem endOfSub_eq {payload : Bytes} (h : first ≠ kIAC) :
    endOfSub 4 (kIAC :: kSB :: opt :: first :: payload) = endOfSub 3 (kIAC :: kSB :: opt :: first :: payload) := by
  change 4 + payload.idxOf kIAC = 3 + (first :: payload).idxOf kIAC
  rw [idxOf_cons_ne _ h]
  omega

theorem front_of_element_more (h : element buff = .more) : front 4 buff = .more := by
  cases shape buff with
  | @sub rest =>
    rw [element, front_sub] at h
    split at h
    · rename_i hlength
      have hle := endOfSub_le rest
      rw [front_sub, if_pos (by omega)]
    · cases h
  | nil => rfl
  | char hfirst =>
    rw [element, front_char hfirst] at h
    cases h
  | lone => rfl
  | negoPart hnego => exact front_negoPart hnego
  | nego hnego =>
    rw [element, front_nego hnego] at h
    cases h
  | cmd hnego hsub =>
    rw [element, front_cmd hnego hsub] at h
    cases h

theorem front_of_ample (h : element buff = .took size item) (hample : item.Ample) :
    front 4 buff = .took size item := by
  cases took_of_front h with
  | char hfirst => exact front_char hfirst
  | nego hnego => exact front_nego hnego
  | cmd hnego hsub => exact front_cmd hnego hsub
  | @sub rest hlength =>
    obtain ⟨opt, first, payload, rfl⟩ : ∃ opt first payload, rest = opt :: first :: payload := by
      match rest, hlength with
      | opt :: first :: payload, _ => exact ⟨opt, first, payload, rfl⟩
    have hfirst : first ≠ kIAC := by
      rintro rfl
      have hends : endOfSub 3 (kIAC :: kSB :: opt :: kIAC :: payload) = 3 := congrArg (3 + ·) idxOf_cons_self
      rw [hends] at hample
      exact hample.1 rfl
    rw [front_sub, endOfSub_eq hfirst, ← front_sub]
    exact h

theorem readsOwn_text (h : first ≠ kIAC) :
    (onRecvString ((first :: rest).take ((first :: rest).idxOf kIAC))).ReadsOwn (first :: rest) := by
  have hown : own (first :: rest) = (0, (first :: rest).idxOf kIAC) := by
    rw [own, element, front_char h]
  have hreads : ((first :: rest).take ((first :: rest).idxOf kIAC)).length ≤ (first :: rest).idxOf kIAC := by
    rw [length_take]
    exact Nat.min_le_left _ _
  rw [Callback.ReadsOwn, hown]
  exact ⟨Nat.le_refl _, Nat.add_le_add_left hreads 0⟩

theorem readsOwn_of_ample (h : element buff = .took size item) (hample : item.Ample)
    (hiac : ∀ first rest, buff = first :: rest → first = kIAC) : (callbackOf buff item).ReadsOwn buff := by
  rw [Callback.ReadsOwn, own, h]
  cases took_of_front h with
  | char hfirst => exact absurd (hiac _ _ rfl) hfirst
  | nego | cmd => exact ⟨Nat.le_refl _, Nat.le_refl _⟩
  | @sub rest =>
    rw [callbackOf, onRecvSub]
    by_cases hwindow : rest.getD 0 0 = kWINDOW
    · have hfour := hample.2 hwindow
      rw [if_pos hwindow]
      exact ⟨Nat.le_refl _, Nat.add_le_add_left (max_le (Nat.le_refl _) hfour) _⟩
    · rw [if_neg hwindow]
      exact ⟨Nat.le_refl _, Nat.le_refl _⟩

theorem reads_onRecvSub_ge (opt : UInt8) (p : Bytes) (s : Nat) :
    (onRecvSub opt p s).start = 3 ∧ s ≤ (onRecvSub opt p s).reads ∧
      (opt = kWINDOW → 4 ≤ (onRecvSub opt p s).reads) := by
  rw [onRecvSub]
  split
  · exact ⟨rfl, Nat.le_max_left _ _, fun _ => Nat.le_max_right _ _⟩
  · exact ⟨rfl, Nat.le_refl _, fun hwindow => absurd hwindow ‹_›⟩

theorem not_readsOwn (h : element buff = .took size item) (hample : ¬item.Ample) {taken : Nat}
    (hround : receiveRound buff = .took taken callback) : ¬callback.ReadsOwn buff := by
  rw [Callback.ReadsOwn, own, h]
  cases took_of_front h with
  | char | nego | cmd => exact absurd trivial hample
  | @sub rest =>
    rw [receiveRound_sub] at hround
    split at hround
    · cases hround
    obtain ⟨-, rfl⟩ := Verdict.took.inj hround
    obtain ⟨hstart, hreads, hwindow⟩ := reads_onRecvSub_ge (rest.getD 0 0) (rest.drop 1)
      (endOfSub 4 (kIAC :: kSB :: rest) - 3)
    have hends : 4 ≤ endOfSub 4 (kIAC :: kSB :: rest) := Nat.le_add_right _ _
    rintro ⟨-, hle⟩
    dsimp only at hle
    rw [hstart] at hle
    refine hample ⟨fun hnil => ?_, fun hopt => ?_⟩
    · rw [hnil, length_nil] at hle
      omega
    · have hfour := hwindow hopt
      omega

theorem sound_of_took (h : element buff = .took size item) : Sound buff ↔ item.Ample ∧ Sound (buff.drop size) := by
  rw [Sound, (sized_front 3).drained_of_took h]
  exact forall_mem_cons

theorem sound_of_text (buff : Bytes) : Sound buff ↔ Sound (buff.drop (buff.idxOf kIAC)) := by
  rw [Sound, drained_char 3 buff]
  refine forall_mem_append.trans (and_iff_right ?_)
  intro item hitem
  obtain ⟨ch, -, rfl⟩ := mem_map.mp hitem
  exact trivial

abbrev seen (buff : Bytes) : Intake UInt8 (Bytes × Callback) := drained (keepBuffer receiveRound) buff

theorem seen_of_took (h : receiveRound buff = .took size callback) :
    seen buff = (seen (buff.drop size)).prepend [(buff, callback)] :=
  sized_receiveRound.keepBuffer.drained_of_took (keepBuffer_of_took h)

theorem seen_of_more (h : receiveRound buff = .more) : seen buff = { rest := buff } :=
  drained_of_more (keepBuffer_of_more h)

def AllReadOwn (intake : Intake UInt8 (Bytes × Callback)) : Prop :=
  ∀ made ∈ intake.messages, made.2.ReadsOwn made.1

variable {intake : Intake UInt8 (Bytes × Callback)}

theorem allReadOwn_prepend {made : Bytes × Callback} :
    AllReadOwn (intake.prepend [made]) ↔ made.2.ReadsOwn made.1 ∧ AllReadOwn intake :=
  forall_mem_cons

theorem sound_of_more (h : element buff = .more) : Sound buff := by
  rw [Sound, drained_of_more h]
  exact fun item hitem => absurd hitem not_mem_nil

theorem receiveRound_of_element (hiac : ¬∃ first rest, buff = first :: rest ∧ first ≠ kIAC) :
    receiveRound buff = (front 4 buff).map (callbackOf buff) :=
  (receiveRound_cases buff).resolve_left hiac

theorem allReadOwn_of_sound (h : Sound buff) :
    AllReadOwn (seen buff) ∧ (seen buff).rest = (drained element buff).rest := by
  induction hlength : buff.length using Nat.strong_induction_on generalizing buff with
  | _ length ih =>
    by_cases htext : ∃ first rest, buff = first :: rest ∧ first ≠ kIAC
    · obtain ⟨first, rest, rfl, hfirst⟩ := htext
      have hround := receiveRound_char rest hfirst
      have hlt := sized_receiveRound.length_drop_lt hround
      obtain ⟨hown, hrest⟩ := ih _ (hlength ▸ hlt) ((sound_of_text _).mp h) rfl
      rw [seen_of_took hround, drained_char 3 (first :: rest), allReadOwn_prepend]
      exact ⟨⟨readsOwn_text hfirst, hown⟩, hrest⟩
    · cases helement : element buff with
      | failed => exact absurd helement front_ne_failed
      | more =>
        have hround : receiveRound buff = .more := by
          rw [receiveRound_of_element htext, front_of_element_more helement]
          rfl
        rw [seen_of_more hround, drained_of_more helement]
        exact ⟨fun made hmade => absurd hmade not_mem_nil, rfl⟩
      | took size item =>
        obtain ⟨hample, hlater⟩ := (sound_of_took helement).mp h
        have hround : receiveRound buff = .took size (callbackOf buff item) := by
          rw [receiveRound_of_element htext, front_of_ample helement hample]
          rfl
        have hiac : ∀ first rest, buff = first :: rest → first = kIAC := by
          intro first rest heq
          by_contra hfirst
          exact htext ⟨first, rest, heq, hfirst⟩
        have hlt := sized_receiveRound.length_drop_lt hround
        obtain ⟨hown, hrest⟩ := ih _ (hlength ▸ hlt) hlater rfl
        rw [seen_of_took hround, (sized_front 3).drained_of_took helement, allReadOwn_prepend]
        exact ⟨⟨readsOwn_of_ample helement hample hiac, hown⟩, hrest⟩

theorem sound_of_allReadOwn (hown : AllReadOwn (seen buff)) (hrest : element (seen buff).rest = .more) :
    Sound buff := by
  induction hlength : buff.length using Nat.strong_induction_on generalizing buff with
  | _ length ih =>
    by_cases htext : ∃ first rest, buff = first :: rest ∧ first ≠ kIAC
    · obtain ⟨first, rest, rfl, hfirst⟩ := htext
      have hround := receiveRound_char rest hfirst
      have hlt := sized_receiveRound.length_drop_lt hround
      rw [seen_of_took hround] at hown hrest
      exact (sound_of_text _).mpr (ih _ (hlength ▸ hlt) (allReadOwn_prepend.mp hown).2 hrest rfl)
    · cases helement : element buff with
      | failed => exact absurd helement front_ne_failed
      | more => exact sound_of_more helement
      | took size item =>
        cases hround : receiveRound buff with
        | failed =>
          rw [receiveRound_of_element htext, Verdict.map_eq_failed] at hround
          exact absurd hround front_ne_failed
        | more =>
          rw [seen_of_more hround] at hrest
          exact nomatch helement.symm.trans hrest
        | took taken callback =>
          have hlt := sized_receiveRound.length_drop_lt hround
          rw [seen_of_took hround] at hown hrest
          obtain ⟨hfirst, hlater⟩ := allReadOwn_prepend.mp hown
          have hample : item.Ample := by
            by_contra hample
            exact not_readsOwn helement hample hround hfirst
          have hsame : receiveRound buff = .took size (callbackOf buff item) := by
            rw [receiveRound_of_element htext, front_of_ample helement hample]
            rfl
          obtain ⟨rfl, -⟩ := Verdict.took.inj (hround.symm.trans hsame)
          exact (sound_of_took helement).mpr ⟨hample, ih _ (hlength ▸ hlt) hlater hrest rfl⟩

theorem failed_drained_front (place : Nat) (buff : Bytes) : (drained (front place) buff).failed = false := by
  induction hlength : buff.length using Nat.strong_induction_on generalizing buff with
  | _ length ih =>
    cases hfront : front place buff with
    | failed => exact absurd hfront front_ne_failed
    | more => rw [drained_of_more hfront]
    | took size item =>
      rw [(sized_front place).drained_of_took hfront]
      exact ih _ (hlength ▸ (sized_front place).length_drop_lt hfront) _ rfl

theorem drained_element_append (buff more : Bytes) : drained element (buff ++ more) =
    (drained element ((drained element buff).rest ++ more)).prepend (drained element buff).messages := by
  rw [(stable_front (Nat.le_refl 3)).drained_append, failed_drained_front, if_neg Bool.false_ne_true]

theorem sound_append : Sound (stream ++ more) ↔ Sound stream ∧ Sound ((drained element stream).rest ++ more) := by
  rw [Sound, drained_element_append]
  exact forall_mem_append

theorem failed_receiveAll (chunks : List Bytes) : (receiveAll (keepBuffer receiveRound) chunks).failed = false := by
  calc (receiveAll (keepBuffer receiveRound) chunks).failed
      = ((receiveAll (keepBuffer receiveRound) chunks).map Prod.snd).failed := rfl
    _ = ((receiveAll receiveRound chunks).spelled (Call.spell ∘ Callback.call)).failed := by
        rw [receiveAll_keepBuffer]
        rfl
    _ = false := by rw [spelled_receiveAll, failed_drained_front]

theorem receive_seen (hfailed : intake.failed = false) (chunk : Bytes) :
    receive (keepBuffer receiveRound) intake chunk = (seen (intake.rest ++ chunk)).prepend intake.messages := by
  rw [receive, hfailed]
  rfl

theorem seen_of_sound (chunks : List Bytes) (h : Sound chunks.flatten) :
    AllReadOwn (receiveAll (keepBuffer receiveRound) chunks) ∧
      (receiveAll (keepBuffer receiveRound) chunks).rest = (drained element chunks.flatten).rest := by
  induction chunks using List.reverseRecOn with
  | nil => exact ⟨fun made hmade => absurd hmade not_mem_nil, rfl⟩
  | append_singleton chunks chunk ih =>
    rw [flatten_append, flatten_singleton] at h ⊢
    obtain ⟨hbefore, hbuffer⟩ := sound_append.mp h
    obtain ⟨hown, hrest⟩ := ih hbefore
    rw [← hrest] at hbuffer
    obtain ⟨hownNow, hrestNow⟩ := allReadOwn_of_sound hbuffer
    rw [receiveAll_concat, receive_seen (failed_receiveAll chunks), drained_element_append, ← hrest]
    exact ⟨forall_mem_append.mpr ⟨hown, hownNow⟩, hrestNow⟩

theorem rest_receiveAll (chunks : List Bytes) :
    (receiveAll receiveRound chunks).rest = (receiveAll (keepBuffer receiveRound) chunks).rest := by
  rw [← receiveAll_keepBuffer]
  rfl

/-- **A stream is told the same however it is cut; and callbacks keep to their own bytes exactly when every
sub-negotiation has bytes enough.** -/
theorem faithful_iff_sound (stream : Bytes) : Faithful stream ↔ Sound stream := by
  constructor
  · intro h
    obtain ⟨-, hown, hrest⟩ := h [stream] (List.flatten_singleton)
    have hseen : receiveAll (keepBuffer receiveRound) [stream] = seen stream := rfl
    rw [rest_receiveAll, hseen] at hrest
    rw [hseen] at hown
    exact sound_of_allReadOwn hown hrest
  · rintro h chunks rfl
    obtain ⟨hown, hrest⟩ := seen_of_sound chunks h
    refine ⟨?_, hown, ?_⟩
    · rw [spelled_receiveAll, spelled_receiveAll, List.flatten_singleton]
    · rw [rest_receiveAll, hrest]
      exact (sized_front 3).decode_rest _ (failed_drained_front 3 _)

/-- A window size of one byte: three more are read than there are. -/
theorem unfaithful_window : ¬∀ stream, Faithful stream := by
  intro h
  have hsound := (faithful_iff_sound _).mp (h [kIAC, kSB, kWINDOW, 80, kIAC, kSE])
  have hample : (Item.sub kWINDOW [80]).Ample := hsound _ (by decide)
  exact absurd (hample.2 rfl) (by decide)

end Tbox.Terminal.Telnetd
