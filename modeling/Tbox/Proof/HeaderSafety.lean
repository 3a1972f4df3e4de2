import Tbox.Proof.HeaderFrames
import Tbox.Proof.SerializerRoundTrip

/-!
# A head that lies

`onRecvData` over memory of which every read is checked. A sum of 32 bits is compared with the size of the buffer: a
length near the end of these numbers passes the check, and a string is made of a null pointer.
-/

open List Option

namespace Tbox.Network.Dns.Deserializer

open Lib (Bytes Block)
open Util (Endian)

variable {p : Deserializer} {d : Util.Deserializer} {memory : Memory} {size pos : Nat}

/-- The reader of a list does what the one of memory does, as long as no sum wraps. -/
structure Models (p : Deserializer) (d : Util.Deserializer) : Prop where
  data : p.data = d.block.bytes
  pos : p.pos = d.pos.toNat
  big : d.endian = .kBig

theorem Models.checkSize (h : Models p d) (hsum : p.pos + size < 2 ^ 64) :
    d.checkSize (.ofNat size) = p.checkSize size := by
  rw [Util.Deserializer.checkSize, Deserializer.checkSize, decide_eq_decide, UInt64.le_iff_toNat_le, UInt64.toNat_add,
    UInt64.toNat_ofNat', Block.toNat_size, ← h.data, ← h.pos]
  omega

theorem Models.advance (h : Models p d) (hsum : p.pos + size < 2 ^ 64) (reads : Nat) :
    Models { p with pos := p.pos + size, reads := reads } { d with pos := d.pos + .ofNat size } := by
  refine ⟨h.data, ?_, h.big⟩
  rw [UInt64.toNat_add, UInt64.toNat_ofNat', ← h.pos]
  show p.pos + size = _
  omega

theorem Models.setPos (h : Models p d) (hpos : pos < 2 ^ 64) : Models (p.setPos pos) (d.setPos (.ofNat pos)).2 := by
  have hlt : UInt64.ofNat pos < d.block.size ↔ pos < p.data.length := by
    rw [UInt64.lt_iff_toNat_lt, UInt64.toNat_ofNat', Nat.mod_eq_of_lt hpos, Block.toNat_size, h.data]
  rw [Deserializer.setPos, Util.Deserializer.setPos]
  by_cases hinside : pos < p.data.length
  · rw [if_pos hinside, if_pos (hlt.mpr hinside)]
    exact ⟨h.data, (UInt64.toNat_ofNat_of_lt' hpos).symm, h.big⟩
  · rw [if_neg hinside, if_neg (mt hlt.mp hinside)]
    exact h

theorem Models.skip (h : Models p d) (hsum : p.pos + size < 2 ^ 64) :
    Models (p.skip size) (d.skip (.ofNat size)).2 := by
  rw [Deserializer.skip, Util.Deserializer.skip, h.checkSize hsum]
  split
  · exact h.advance hsum p.reads
  · exact h

theorem Models.fetch (h : Models p d) (hsum : p.pos + size < 2 ^ 64) : ∃ value d',
    d.fetch (.ofNat size) = some (value, d') ∧ value.map Block.bytes = (p.fetch size).1 ∧ Models (p.fetch size).2 d' := by
  rw [Util.Deserializer.fetch, Util.Deserializer.fetchChecked, h.checkSize hsum, Deserializer.fetch]
  cases hcheck : p.checkSize size with
  | true =>
    have hload : d.block.load d.pos.toNat (UInt64.ofNat size).toNat = some (d.block.part p.pos size) := by
      rw [UInt64.toNat_ofNat', Nat.mod_eq_of_lt (by omega), ← h.pos, Block.load, ← h.data,
        if_pos (of_decide_eq_true hcheck)]
    rw [hload]
    refine ⟨_, _, rfl, ?_, h.advance hsum _⟩
    rw [map_some, h.data]
    rfl
  | false => exact ⟨none, d, rfl, rfl, ⟨h.data, h.pos, h.big⟩⟩

theorem foldl_shift (bytes : Bytes) (number : Nat) : bytes.foldl (fun out byte => out <<< 8 ||| byte.toNat) number =
    bytes.foldl (fun number byte => number * 256 + byte.toNat) number := by
  induction bytes generalizing number with
  | nil => rfl
  | cons byte bytes ih =>
    rw [foldl_cons, foldl_cons, ih, Nat.shiftLeft_eq, Nat.mul_comm, ← Nat.two_pow_add_eq_or_of_lt byte.toNat_lt]

/-- An integer of big endian is read from its bytes in their order. -/
theorem Models.fetchInteger (h : Models p d) (hsum : p.pos + size < 2 ^ 64) (little : List Nat) : ∃ value d',
    d.fetchInteger size (List.range' 0 size) little = some (value, d') ∧
      (∀ number, value = some number → (p.fetchNumber memory size).1 = number) ∧
      (value = none ↔ (p.fetch size).1 = none) ∧ Models (p.fetchNumber memory size).2 d' := by
  rw [Util.Deserializer.fetchInteger, h.big, Util.Deserializer.fetchChecked, h.checkSize hsum, fetchNumber,
    Deserializer.fetch]
  cases hcheck : p.checkSize size with
  | true =>
    have hinside : p.pos + size ≤ p.data.length := of_decide_eq_true hcheck
    have hlength : ((p.data.drop p.pos).take size).length = size := by rw [length_take, length_drop]; omega
    have hparts : d.block.bytes = p.data.take p.pos ++ (p.data.drop p.pos).take size ++ (p.data.drop p.pos).drop size := by
      rw [append_assoc, take_append_drop, take_append_drop, h.data]
    have hread := Block.takeBytes_ascending 0 hparts (show _ = d.pos.toNat + 0 by rw [length_take, ← h.pos]; omega)
    rw [hlength, foldl_shift] at hread
    dsimp only
    rw [if_pos rfl, if_pos rfl, hread]
    refine ⟨_, _, rfl, fun number hnumber => some.inj hnumber, ?_, h.advance hsum _⟩
    exact iff_of_false (some_ne_none _) (some_ne_none _)
  | false =>
    refine ⟨none, d, rfl, fun number hnumber => ?_, iff_of_true rfl rfl, ⟨h.data, h.pos, h.big⟩⟩
    cases hnumber

end Tbox.Network.Dns.Deserializer

namespace Tbox.Jsonrpc.HeaderStreamProto

open Lib (Bytes Block)
open Lib.Block (littleBytes)
open Util (Deserializer Endian)

variable {J : Type} {headerCode : UInt16} {library : JsonText J} {data : Block} {magic : UInt16} {content : UInt32}
  {text : Bytes}

/-- `std::string(ptr, size)`. Of a null pointer it can only be the empty one. -/
def stringOf (data : Block) : Option UInt64 → UInt32 → Option Bytes
  | none, size => if size = 0 then some [] else none
  | some ptr, size => (data.load ptr.toNat size.toNat).map Block.bytes

def onRecvBlock (headerCode : UInt16) (library : JsonText J) (data : Block) : Option (Received J) :=
  if data.size < 6 then some { ret := 0 }
  else do
    let (headerMagic, unpack) ← Deserializer.fetch16 { block := data }
    let (contentSize, unpack) ← unpack.fetch32
    let headerMagic := headerMagic.getD 0
    let contentSize := contentSize.getD 0
    if headerMagic ≠ headerCode then some { ret := -2 }
    else if (contentSize + 6).toUInt64 > data.size then some { ret := 0 }
    else do
      let (strPtr, unpack) := unpack.fetchNoCopy contentSize.toUInt64
      let jsonText ← stringOf data strPtr contentSize
      match library.parse jsonText with
      | none => some { ret := -1 }
      | some js => some { ret := unpack.pos.toNat, js := some js }

/-- It has returned, and what it may return. -/
def Safe (headerCode : UInt16) (library : JsonText J) (data : Block) : Prop :=
  ∃ received, onRecvBlock headerCode library data = some received ∧
    (received.ret = 0 ∨ received.ret = -1 ∨ received.ret = -2 ∨
      6 ≤ received.ret ∧ received.ret ≤ data.bytes.length)

def bigNumber (bytes : Bytes) : Nat := bytes.foldl (fun number byte => number * 256 + byte.toNat) 0

/-- The head is one of ours, and its length so near to the end of the numbers that the sum wraps, and is not of what
has come. -/
def Lies (headerCode : UInt16) (data : Bytes) : Prop :=
  let contentSize := bigNumber ((data.drop 2).take 4)
  6 ≤ data.length ∧ bigNumber (data.take 2) = headerCode.toNat ∧ 2 ^ 32 - 6 ≤ contentSize ∧
    data.length < contentSize + 6

theorem append_eq_reverse (n number : Nat) : append n number = (littleBytes n number).reverse := by
  induction n generalizing number with
  | zero => rfl
  | succ n ih =>
    have hbyte : (number &&& 0xff).toUInt8 = number.toUInt8 := by
      rw [show (0xff : Nat) = 2 ^ 8 - 1 from rfl, Nat.and_two_pow_sub_one_eq_mod]
      exact UInt8.toNat_inj.mp (by simp)
    rw [append, Block.littleBytes, reverse_cons, ih, hbyte, Nat.shiftRight_eq_div_pow]

theorem bigNumber_append (n number : Nat) : bigNumber (append n number) = number % 256 ^ n := foldl_append n number

theorem onRecvBlock_head (hdata : data.bytes = append 2 magic.toNat ++ append 4 content.toNat ++ text) :
    onRecvBlock headerCode library data = if magic ≠ headerCode then some { ret := -2 }
      else if text.length + 6 < (content.toNat + 6) % 2 ^ 32 then some { ret := 0 }
      else if content.toNat ≤ text.length then
        match library.parse (text.take content.toNat) with
        | none => some { ret := -1 }
        | some js => some { ret := ((6 + content.toNat : Nat) : Int), js := some js }
      else none := by
  have hlt := data.length_lt
  have hcontent := content.toNat_lt
  have hlength : data.bytes.length = text.length + 6 := by rw [hdata, length_head]
  have hmagic : Deserializer.Before { block := data } (Util.inOrder .kBig (littleBytes 2 magic.toNat))
      (append 4 content.toNat ++ text) :=
    ⟨[], by simp [hdata, append_eq_reverse, Util.inOrder], rfl⟩
  obtain ⟨d₁, hd₁, hreads₁, hendian₁⟩ := Deserializer.fetch16_spec hmagic
  have hsize : d₁.Before (Util.inOrder d₁.endian (littleBytes 4 content.toNat)) text := by
    refine ⟨append 2 magic.toNat, ?_, ?_⟩
    · rw [hreads₁.block, hendian₁, hdata, append_eq_reverse 4]
      rfl
    · rw [length_append, hreads₁.pos]
      rfl
  obtain ⟨d₂, hd₂, hreads₂, -⟩ := Deserializer.fetch32_spec hsize
  have hblock : d₂.block = data := hreads₂.block.trans hreads₁.block
  have hpos : d₂.pos.toNat = 6 := by rw [hreads₂.pos, hreads₁.pos]; rfl
  have hsum : (d₂.pos + content.toUInt64).toNat = 6 + content.toNat := by
    rw [UInt64.toNat_add, hpos, UInt32.toNat_toUInt64, Nat.mod_eq_of_lt (by omega)]
  have hcheck : d₂.checkSize content.toUInt64 = decide (content.toNat ≤ text.length) := by
    rw [Deserializer.checkSize, hblock, decide_eq_decide, UInt64.le_iff_toNat_le, hsum, Block.toNat_size]
    omega
  have hshort : ¬data.size < 6 := by
    rw [UInt64.lt_iff_toNat_lt, Block.toNat_size]
    exact Nat.not_lt.mpr (by rw [hlength]; exact Nat.le_add_left 6 _)
  have hwhole : (content + 6).toUInt64 > data.size ↔ text.length + 6 < (content.toNat + 6) % 2 ^ 32 := by
    rw [gt_iff_lt, UInt64.lt_iff_toNat_lt, Block.toNat_size, UInt32.toNat_toUInt64, UInt32.toNat_add, hlength]
    rfl
  rw [onRecvBlock, if_neg hshort, hd₁, bind_eq_bind, bind_some]
  dsimp only
  rw [hd₂, bind_eq_bind, bind_some]
  dsimp only [getD_some]
  refine if_congr Iff.rfl rfl (if_congr hwhole rfl ?_)
  by_cases hfits : content.toNat ≤ text.length
  · have hload : data.load 6 content.toNat = some (data.part 6 content.toNat) := by
      rw [Block.load, if_pos (by omega)]
    have hpart : (data.part 6 content.toNat).bytes = text.take content.toNat := by
      change (data.bytes.drop 6).take content.toNat = _
      rw [hdata, drop_left' (by simp [length_append])]
    rw [if_pos hfits, Deserializer.fetchNoCopy, hcheck, if_pos (decide_eq_true hfits)]
    dsimp only [stringOf]
    rw [hpos, hload, map_some, bind_eq_bind, bind_some, hpart]
    cases library.parse (text.take content.toNat) with
    | none => rfl
    | some js => simp only [hsum]
  · have hzero : content ≠ 0 := by
      rintro rfl
      exact hfits (Nat.zero_le _)
    rw [if_neg hfits, Deserializer.fetchNoCopy, hcheck, if_neg (by simpa using hfits)]
    dsimp only [stringOf]
    rw [if_neg hzero]
    rfl

theorem onRecvBlock_short (hshort : data.bytes.length < 6) :
    onRecvBlock headerCode library data = some { ret := 0 } := by
  have hsize : data.size < 6 := by
    rw [UInt64.lt_iff_toNat_lt, Block.toNat_size]
    exact hshort
  rw [onRecvBlock, if_pos hsize]

theorem exists_words (hlong : 6 ≤ data.bytes.length) : ∃ (magic : UInt16) (content : UInt32) (text : Bytes),
    data.bytes = append 2 magic.toNat ++ append 4 content.toNat ++ text := by
  obtain ⟨magic, content, text, hmagic, hcontent, hdata⟩ := exists_head hlong
  refine ⟨.ofNat magic, .ofNat content, text, ?_⟩
  rw [UInt16.toNat_ofNat', Nat.mod_eq_of_lt hmagic, UInt32.toNat_ofNat', Nat.mod_eq_of_lt hcontent, hdata]

/-- Over memory no other result comes out than over lists. -/
theorem onRecvBlock_eq (headerCode : UInt16) (library : JsonText J) (data : Block) :
    onRecvBlock headerCode library data = (onRecvData headerCode library data.bytes).toOption := by
  by_cases hshort : data.bytes.length < 6
  · rw [onRecvBlock_short hshort, onRecvData, kHeadSize, if_pos hshort]
    rfl
  obtain ⟨magic, content, text, hdata⟩ := exists_words (Nat.le_of_not_lt hshort)
  rw [onRecvBlock_head hdata, hdata]
  by_cases hmatch : magic = headerCode
  · subst hmatch
    rw [if_neg (not_not_intro rfl), onRecvData_head content.toNat_lt]
    split_ifs
    · rfl
    · cases library.parse (text.take content.toNat) <;> rfl
    · rfl
  · rw [if_pos hmatch, onRecvData_mismatch magic.toNat_lt (mt UInt16.toNat_inj.mp hmatch)]
    rfl

/-- **A buffer is read safely unless its head lies.** -/
theorem onRecvBlock_safe_iff (headerCode : UInt16) (library : JsonText J) (data : Block) :
    Safe headerCode library data ↔ ¬Lies headerCode data.bytes := by
  by_cases hshort : data.bytes.length < 6
  · exact iff_of_true ⟨_, onRecvBlock_short hshort, .inl rfl⟩ fun hlies => absurd hlies.1 (Nat.not_le.mpr hshort)
  obtain ⟨magic, content, text, hdata⟩ := exists_words (Nat.le_of_not_lt hshort)
  have hcontent := content.toNat_lt
  have hlength : data.bytes.length = text.length + 6 := by rw [hdata, length_head]
  have hlies : Lies headerCode data.bytes ↔
      magic = headerCode ∧ 2 ^ 32 - 6 ≤ content.toNat ∧ text.length < content.toNat := by
    have htwo : bigNumber (data.bytes.take 2) = magic.toNat := by
      rw [hdata, List.append_assoc, List.take_left' (length_append 2 _), bigNumber_append]
      exact Nat.mod_eq_of_lt magic.toNat_lt
    have hfour : bigNumber ((data.bytes.drop 2).take 4) = content.toNat := by
      rw [hdata, List.append_assoc, List.drop_left' (length_append 2 _), List.take_left' (length_append 4 _),
        bigNumber_append]
      exact Nat.mod_eq_of_lt hcontent
    rw [Lies, htwo, hfour, UInt16.toNat_inj]
    constructor
    · rintro ⟨-, hmatch, hlarge, hlong⟩
      exact ⟨hmatch, hlarge, by omega⟩
    · rintro ⟨hmatch, hlarge, hlong⟩
      exact ⟨by omega, hmatch, hlarge, by omega⟩
  rw [Safe, onRecvBlock_head hdata, hlies, hlength]
  by_cases hmatch : magic = headerCode
  · rw [if_neg (not_not_intro hmatch)]
    split_ifs with hmore hfits
    · refine iff_of_true ⟨_, rfl, .inl rfl⟩ ?_
      omega
    · refine iff_of_true ?_ (by omega)
      cases library.parse (text.take content.toNat) with
      | none => exact ⟨_, rfl, .inr (.inl rfl)⟩
      | some js => exact ⟨_, rfl, .inr (.inr (.inr ⟨by dsimp only; omega, by dsimp only; omega⟩))⟩
    · -- the sum has wrapped
      refine iff_of_false (fun hreturned => ?_) ?_
      · obtain ⟨received, hreceived, -⟩ := hreturned
        cases hreceived
      · exact not_not_intro ⟨hmatch, by omega, by omega⟩
  · rw [if_pos hmatch]
    exact iff_of_true ⟨_, rfl, .inr (.inr (.inl rfl))⟩ fun hlies => hmatch hlies.1

/-- Of the length it says a message has nothing has come. -/
theorem headAlone_not_safe : ¬Safe 0x5a5a booleans ⟨[0x5a, 0x5a, 0xff, 0xff, 0xff, 0xff], by decide⟩ := by
  have hnone : onRecvBlock 0x5a5a booleans ⟨[0x5a, 0x5a, 0xff, 0xff, 0xff, 0xff], by decide⟩ = none := by decide
  rintro ⟨received, hreceived, -⟩
  rw [hnone] at hreceived
  cases hreceived

end Tbox.Jsonrpc.HeaderStreamProto
