import Tbox.Jsonrpc.StreamProto

/-!
# Frames with a head

What `HeaderStreamProto` sends it makes out again, however the stream is cut: a head says how long its message
is, and until all of it has come the decoder waits.
-/

open List

namespace Tbox.Jsonrpc.HeaderStreamProto

open Lib (Bytes Intake)
open Network.Dns (Deserializer)

variable {J : Type} {headerCode : UInt16} {library : JsonText J} {js : J} {size number pos : Nat}
  {data tail text : Bytes} {p : Deserializer}

theorem length_append (size number : Nat) : (append size number).length = size := by
  induction size generalizing number with
  | zero => rfl
  | succ size ih => rw [append, List.length_append, ih, length_singleton]

theorem foldl_append (size number : Nat) :
    (append size number).foldl (fun number byte => number * 256 + byte.toNat) 0 = number % 256 ^ size := by
  induction size generalizing number with
  | zero => rw [pow_zero, Nat.mod_one]; rfl
  | succ size ih =>
    rw [append, List.foldl_append, ih, foldl_cons, foldl_nil, UInt8.toNat_ofNat', pow_succ' 256 size, Nat.mod_mul]
    omega

theorem fetchNumber_append (number : Nat) (tail : Bytes)
    (hdata : p.data.drop p.pos = append size number ++ tail) (hpos : p.pos ≤ p.data.length) : p.fetchNumber {} size =
      (number % 256 ^ size, { p with pos := p.pos + size, reads := p.reads + 1 }) := by
  have hlength : p.pos + size ≤ p.data.length := by
    have h := congrArg List.length hdata
    rw [length_drop, List.length_append, length_append] at h
    omega
  have hcheck : p.checkSize size = true := decide_eq_true hlength
  rw [Deserializer.fetchNumber, Deserializer.fetch, if_pos hcheck, hdata, take_left' (length_append size number)]
  exact Prod.ext (foldl_append size number) rfl

theorem fetchNumber_magic {magic : Nat} (hmagic : magic < 2 ^ 16) (text : Bytes) :
    Deserializer.fetchNumber {} { data := append 2 magic ++ append 4 size ++ text } 2 =
      (magic, { data := append 2 magic ++ append 4 size ++ text, pos := 2, reads := 1 }) := by
  refine (fetchNumber_append magic (append 4 size ++ text) ?_ (Nat.zero_le _)).trans ?_
  · rw [append_assoc]
    rfl
  · rw [show magic % 256 ^ 2 = magic from Nat.mod_eq_of_lt hmagic]

theorem length_head (magic size : Nat) (text : Bytes) :
    (append 2 magic ++ append 4 size ++ text).length = text.length + 6 := by
  rw [List.length_append, List.length_append, length_append, length_append]
  omega

theorem onRecvData_mismatch {magic : Nat} (hmagic : magic < 2 ^ 16) (hne : magic ≠ headerCode.toNat) (text : Bytes) :
    onRecvData headerCode library (append 2 magic ++ append 4 size ++ text) = .ok { ret := -2 } := by
  rw [onRecvData, if_neg (by rw [length_head, kHeadSize]; omega)]
  rw [fetchNumber_magic hmagic]
  dsimp only
  rw [if_pos hne]

theorem onRecvData_head (hsize : size < 2 ^ 32) (text : Bytes) :
    onRecvData headerCode library (append 2 headerCode.toNat ++ append 4 size ++ text) =
      if text.length + 6 < (size + 6) % 2 ^ 32 then .ok { ret := 0 }
      else if size ≤ text.length then
        match library.parse (text.take size) with
        | none => .ok { ret := -1 }
        | some js => .ok { ret := ((6 + size : Nat) : Int), js := some js }
      else .error .nullPointer := by
  have hsize' : size % 256 ^ 4 = size := Nat.mod_eq_of_lt hsize
  have hlength := length_head headerCode.toNat size text
  have hcontent : Deserializer.fetchNumber {}
      { data := append 2 headerCode.toNat ++ append 4 size ++ text, pos := 2, reads := 1 } 4 =
        (size, { data := append 2 headerCode.toNat ++ append 4 size ++ text, pos := 6, reads := 2 }) := by
    refine (fetchNumber_append size text ?_ ?_).trans ?_
    · rw [append_assoc]
      exact drop_left' (length_append 2 _)
    · change 2 ≤ List.length _
      rw [hlength]
      omega
    · rw [hsize']
  have hdrop : (append 2 headerCode.toNat ++ append 4 size ++ text).drop 6 = text := by
    refine drop_left' ?_
    rw [List.length_append, length_append, length_append]
  rw [onRecvData, if_neg (by rw [hlength, kHeadSize]; omega)]
  rw [fetchNumber_magic headerCode.toNat_lt]
  dsimp only
  rw [hcontent, if_neg (not_not_intro rfl), hlength, kHeadSize]
  refine if_congr Iff.rfl rfl ?_
  rw [Deserializer.fetch, Deserializer.checkSize, hlength]
  dsimp only
  by_cases hfits : size ≤ text.length
  · rw [if_pos (decide_eq_true (by omega)), if_pos hfits]
    cases hparse : library.parse (List.take size text) with
    | none => simp only [hdrop, hparse]
    | some js => simp only [hdrop, hparse]
  · rw [if_neg (by rw [decide_eq_true_eq]; omega), if_neg hfits]

theorem exists_append (data : Bytes) : ∃ number, number < 256 ^ data.length ∧ append data.length number = data := by
  induction data using List.reverseRecOn with
  | nil => exact ⟨0, by decide, rfl⟩
  | append_singleton data byte ih =>
    obtain ⟨number, hnumber, hdata⟩ := ih
    have hbyte : byte.toNat < 256 := byte.toNat_lt
    refine ⟨number * 256 + byte.toNat, ?_, ?_⟩
    · rw [List.length_append, length_singleton, pow_succ]
      omega
    have hhigh : (number * 256 + byte.toNat) / 256 = number := by omega
    have hlow : (number * 256 + byte.toNat).toUInt8 = byte := by
      apply UInt8.toNat_inj.mp
      rw [UInt8.toNat_ofNat']
      omega
    rw [List.length_append, length_singleton, append, hhigh, hlow, hdata]

theorem exists_append_of_length (data : Bytes) (count : Nat) (hlength : data.length = count) :
    ∃ number, number < 256 ^ count ∧ data = append count number := by
  obtain ⟨number, hnumber, hdata⟩ := exists_append data
  rw [hlength] at hnumber hdata
  exact ⟨number, hnumber, hdata.symm⟩

theorem exists_head (hlong : 6 ≤ data.length) : ∃ magic size text, magic < 2 ^ 16 ∧ size < 2 ^ 32 ∧
    data = append 2 magic ++ append 4 size ++ text := by
  obtain ⟨magic, hmagic, htwo⟩ := exists_append_of_length (data.take 2) 2 (by rw [length_take]; omega)
  obtain ⟨size, hsize, hfour⟩ := exists_append_of_length ((data.drop 2).take 4) 4
    (by rw [length_take, length_drop]; omega)
  refine ⟨magic, size, data.drop 6, hmagic, hsize, ?_⟩
  rw [← htwo, ← hfour, append_assoc, ← drop_drop (i := 4) (j := 2), take_append_drop, take_append_drop]

variable (headerCode library) in
/-- A message that can be sent: it is short enough for the length in its head, and the library reads what it has
written. -/
structure Sendable (js : J) : Prop where
  short : (library.dump js).length < 2 ^ 32 - 6
  inverse : library.parse (library.dump js) = some js

theorem sendJson_eq (h : Sendable library js) : sendJson headerCode library js =
    append 2 headerCode.toNat ++ append 4 (library.dump js).length ++ library.dump js := by
  have hshort := h.short
  rw [sendJson, Nat.mod_eq_of_lt (by omega)]

theorem length_sendJson (h : Sendable library js) :
    (sendJson headerCode library js).length = (library.dump js).length + 6 := by
  rw [sendJson_eq h, List.length_append, List.length_append, length_append, length_append]
  omega

theorem verdict_sendJson (h : Sendable library js) (tail : Bytes) :
    verdict (onRecvData headerCode library) (sendJson headerCode library js ++ tail) =
      .took (sendJson headerCode library js).length js := by
  have hshort := h.short
  have hreceived : onRecvData headerCode library (sendJson headerCode library js ++ tail) =
      .ok { ret := (((library.dump js).length + 6 : Nat) : Int), js := some js } := by
    rw [sendJson_eq h, append_assoc, onRecvData_head (by omega), List.length_append, if_neg (by omega),
      if_pos (by omega), take_left, h.inverse, Nat.add_comm]
  rw [verdict, hreceived]
  dsimp only
  rw [if_pos (by omega), Int.toNat_natCast, length_sendJson h]

theorem verdict_part {part : Bytes} (h : Sendable library js) (hpart : part <+: sendJson headerCode library js)
    (hne : part ≠ sendJson headerCode library js) : verdict (onRecvData headerCode library) part = .more := by
  have hshort := h.short
  have hreceived : onRecvData headerCode library part = .ok { ret := 0 } := by
    by_cases hhead : part.length < 6
    · rw [onRecvData, if_pos (show part.length < kHeadSize from hhead)]
    rw [sendJson_eq h] at hpart hne
    obtain ⟨text, rfl⟩ : append 2 headerCode.toNat ++ append 4 (library.dump js).length <+: part := by
      refine prefix_of_prefix_length_le (prefix_append _ _) hpart ?_
      rw [List.length_append, length_append, length_append]
      omega
    have htext : text <+: library.dump js := (prefix_append_right_inj _).mp hpart
    have hlt : text.length < (library.dump js).length := by
      refine lt_of_le_of_ne htext.length_le fun heq => hne ?_
      rw [htext.eq_of_length heq]
    rw [onRecvData_head (by omega), if_pos (by omega)]
  rw [verdict, hreceived]
  rfl

theorem decodes {messages : List J} (h : ∀ js ∈ messages, Sendable library js) :
    Intake.Decodes (verdict (onRecvData headerCode library)) (sendJson headerCode library) messages := by
  refine ⟨fun js hjs hnil => ?_, fun js hjs tail => verdict_sendJson (h js hjs) tail,
    fun js hjs part hpart hne => verdict_part (h js hjs) hpart hne, rfl⟩
  have hlength : (sendJson headerCode library js).length = _ := length_sendJson (h js hjs)
  rw [hnil] at hlength
  exact absurd hlength (Nat.succ_ne_zero _).symm

/-- **However the frames are cut, the messages come out as they were put in**: those that have come in whole, and
in the end all of them. -/
theorem delivers (headerCode : UInt16) (library : JsonText J) (messages : List J) (chunks : List Bytes)
    (h : ∀ js ∈ messages, Sendable library js) :
    (chunks.flatten <+: messages.flatMap (sendJson headerCode library) → ∃ taken later tail,
      messages = taken ++ later ∧ chunks.flatten = taken.flatMap (sendJson headerCode library) ++ tail ∧
      Intake.Incomplete (sendJson headerCode library) later tail ∧
      Intake.receiveAll (verdict (onRecvData headerCode library)) chunks =
        { messages := taken, rest := tail, failed := false }) ∧
    (chunks.flatten = messages.flatMap (sendJson headerCode library) →
      Intake.receiveAll (verdict (onRecvData headerCode library)) chunks =
        { messages := messages, rest := [], failed := false }) :=
  ⟨(decodes h).receiveAll_eq, (decodes h).receiveAll_whole⟩

/-- The two booleans, as JSON writes them. -/
def booleans : JsonText Bool where
  dump
    | true => [116, 114, 117, 101]
    | false => [102, 97, 108, 115, 101]
  parse text :=
    if text = [116, 114, 117, 101] then some true else if text = [102, 97, 108, 115, 101] then some false else none

theorem delivers_booleans :
    Intake.receiveAll (verdict (onRecvData 0x5a5a booleans))
      [[0x5a], [0x5a, 0, 0, 0, 4, 116, 114, 117, 101, 0x5a, 0x5a, 0], [0, 0, 5, 102, 97], [108, 115, 101]] =
        { messages := [true, false], rest := [], failed := false } := by
  refine (delivers 0x5a5a booleans [true, false] _ fun js _ => ?_).2 (by decide)
  cases js <;> exact ⟨by decide, by decide⟩

end Tbox.Jsonrpc.HeaderStreamProto
