import Tbox.Util.Base64

/-!
# Base64 there and back

Three bytes are four characters. Both encoders put out the same text, group by group; a decoder that is given a
group has the three bytes again, and what is left over at the end is told by the padding.
-/

open List Option

namespace Tbox.Util.Base64

open Lib (Bytes Block)

variable {σ : Type} {put : UInt8 → σ → Option σ} {a b c i v l : UInt8} {text rawData before rest : Bytes}

def digit (index : UInt8) : UInt8 := base64en.getD index.toNat 0

def textOf : Bytes → Bytes
  | [] => []
  | [a] => [digit ((a >>> 2) &&& 0x3F), digit ((a &&& 0x3) <<< 4), base64Pad, base64Pad]
  | [a, b] =>
    [digit ((a >>> 2) &&& 0x3F), digit (((a &&& 0x3) <<< 4) ||| ((b >>> 4) &&& 0xF)),
      digit ((b &&& 0xF) <<< 2), base64Pad]
  | a :: b :: c :: rest =>
    digit ((a >>> 2) &&& 0x3F) :: digit (((a &&& 0x3) <<< 4) ||| ((b >>> 4) &&& 0xF)) ::
      digit (((b &&& 0xF) <<< 2) ||| ((c >>> 6) &&& 0x3)) :: digit (c &&& 0x3F) :: textOf rest

theorem length_textOf (rawData : Bytes) : (textOf rawData).length = (rawData.length + 2) / 3 * 4 := by
  fun_induction textOf rawData with
  | case1 => rfl
  | case2 => simp
  | case3 => simp
  | case4 a b c rest ih =>
    simp only [length_cons, ih]
    omega

theorem lt_of_masked (h : i &&& 0x3F = i) : i.toNat < 64 := by
  rw [← h, UInt8.toNat_and]
  exact Nat.lt_of_le_of_lt Nat.and_le_right (by decide)

theorem first_lt (a : UInt8) : ((a >>> 2) &&& 0x3F).toNat < 64 := by
  refine lt_of_masked (UInt8.toBitVec_inj.mp ?_)
  ext i hi
  simp

theorem second_lt (a b : UInt8) : (((a &&& 0x3) <<< 4) ||| ((b >>> 4) &&& 0xF)).toNat < 64 := by
  refine lt_of_masked (UInt8.toBitVec_inj.mp ?_)
  ext i hi
  simp only [UInt8.toBitVec_or, UInt8.toBitVec_shiftLeft, UInt8.toBitVec_shiftRight, UInt8.toBitVec_and]
  interval_cases i <;> simp

theorem third_lt (b c : UInt8) : (((b &&& 0xF) <<< 2) ||| ((c >>> 6) &&& 0x3)).toNat < 64 := by
  refine lt_of_masked (UInt8.toBitVec_inj.mp ?_)
  ext i hi
  simp only [UInt8.toBitVec_or, UInt8.toBitVec_shiftLeft, UInt8.toBitVec_shiftRight, UInt8.toBitVec_and]
  interval_cases i <;> simp

theorem fourth_lt (c : UInt8) : (c &&& 0x3F).toNat < 64 := by
  refine lt_of_masked (UInt8.toBitVec_inj.mp ?_)
  ext i hi
  simp

theorem lone_lt (a : UInt8) : ((a &&& 0x3) <<< 4).toNat < 64 := by simpa using second_lt a 0

theorem lone_pair_lt (b : UInt8) : ((b &&& 0xF) <<< 2).toNat < 64 := by simpa using third_lt b 0

theorem first_byte (a b : UInt8) :
    ((a >>> 2) &&& 0x3F) <<< 2 ||| (((a &&& 0x3) <<< 4) ||| ((b >>> 4) &&& 0xF)) >>> 4 = a := by
  apply UInt8.toBitVec_inj.mp
  ext i hi
  simp only [UInt8.toBitVec_or, UInt8.toBitVec_shiftLeft, UInt8.toBitVec_shiftRight, UInt8.toBitVec_and]
  interval_cases i <;> simp

theorem second_byte (a b c : UInt8) : (((a &&& 0x3) <<< 4) ||| ((b >>> 4) &&& 0xF)) <<< 4 |||
      (((b &&& 0xF) <<< 2) ||| ((c >>> 6) &&& 0x3)) >>> 2 = b := by
  apply UInt8.toBitVec_inj.mp
  ext i hi
  simp only [UInt8.toBitVec_or, UInt8.toBitVec_shiftLeft, UInt8.toBitVec_shiftRight, UInt8.toBitVec_and]
  interval_cases i <;> simp

theorem third_byte (b c : UInt8) : (((b &&& 0xF) <<< 2) ||| ((c >>> 6) &&& 0x3)) <<< 6 ||| (c &&& 0x3F) = c := by
  apply UInt8.toBitVec_inj.mp
  ext i hi
  simp only [UInt8.toBitVec_or, UInt8.toBitVec_shiftLeft, UInt8.toBitVec_shiftRight, UInt8.toBitVec_and]
  interval_cases i <;> simp

theorem lone_byte (a : UInt8) : ((a >>> 2) &&& 0x3F) <<< 2 ||| ((a &&& 0x3) <<< 4) >>> 4 = a := by
  simpa using first_byte a 0

theorem lone_pair_byte (a b : UInt8) :
    (((a &&& 0x3) <<< 4) ||| ((b >>> 4) &&& 0xF)) <<< 4 ||| ((b &&& 0xF) <<< 2) >>> 2 = b := by
  simpa using second_byte a b 0

theorem digit_spec (h : i.toNat < 64) : base64en[i.toNat]? = some (digit i) ∧ digitOf (digit i) = some i ∧
    digit i ≠ base64Pad ∧ i ≠ 255 := by
  have hall : ∀ n : Fin 64, base64en[(UInt8.ofNat n).toNat]? = some (digit (.ofNat n)) ∧
      digitOf (digit (.ofNat n)) = some (.ofNat n) ∧ digit (.ofNat n) ≠ base64Pad ∧ UInt8.ofNat n ≠ 255 := by
    decide
  have hi : UInt8.ofNat i.toNat = i := UInt8.ofNat_toNat
  have hspec := hall ⟨i.toNat, h⟩
  rwa [hi] at hspec

theorem putDigit_eq (put : UInt8 → σ → Option σ) (h : i.toNat < 64) (out : σ) :
    putDigit put i out = put (digit i) out := by
  rw [putDigit, (digit_spec h).1, bind_some]

theorem encodeWith_loop (put : UInt8 → σ → Option σ) (rawData : Bytes) (l : UInt8) (out : σ) :
    (rawData.foldlM (Encoding.next put) { s := 0, l, out }).bind (Encoding.finish put) =
      (textOf rawData).foldlM (fun out c => put c out) out := by
  fun_induction textOf rawData generalizing l out with
  | case1 => rfl
  | case2 a =>
    simp only [foldlM_cons, foldlM_nil, Encoding.next, putDigit_eq put (first_lt a)]
    cases hfirst : put (digit ((a >>> 2) &&& 0x3F)) out with
    | none => rfl
    | some out₁ => simp [Encoding.finish, putDigit_eq put (lone_lt a)]
  | case3 a b =>
    simp only [foldlM_cons, foldlM_nil, Encoding.next, putDigit_eq put (first_lt a)]
    cases hfirst : put (digit ((a >>> 2) &&& 0x3F)) out with
    | none => rfl
    | some out₁ =>
      simp [Encoding.finish, putDigit_eq put (second_lt a b), putDigit_eq put (lone_pair_lt b), bind_assoc]
  | case4 a b c rest ih =>
    simp only [foldlM_cons, Encoding.next, putDigit_eq put (first_lt a)]
    cases hfirst : put (digit ((a >>> 2) &&& 0x3F)) out with
    | none => rfl
    | some out₁ =>
      simp [putDigit_eq put (second_lt a b), putDigit_eq put (third_lt b c), putDigit_eq put (fourth_lt c),
        bind_assoc, ih]

theorem foldlM_push (text out : Bytes) : text.foldlM (fun out c => some (out ++ [c])) out = some (out ++ text) := by
  induction text generalizing out with
  | nil => simp
  | cons c text ih => simp [ih]

theorem foldlM_putAt {block : Block} {old after : Bytes} (text : Bytes) (hblock : block.bytes = before ++ old ++ after)
    (hold : old.length = text.length) : ∃ block', text.foldlM (fun out c => putAt c out) (block, before.length) =
      some (block', before.length + text.length) ∧ block'.bytes = before ++ text ++ after := by
  induction text generalizing before old block with
  | nil =>
    rw [length_nil, length_eq_zero_iff] at hold
    exact ⟨block, rfl, by rw [hblock, hold]⟩
  | cons c text ih =>
    obtain ⟨first, old, rfl⟩ := exists_cons_of_length_eq_add_one hold
    have hfirst : block.bytes = before ++ [first] ++ (old ++ after) := by simp [hblock]
    obtain ⟨block₁, hstore, hblock₁⟩ : ∃ block₁, block.store before.length [c] = some block₁ ∧
        block₁.bytes = before ++ [c] ++ (old ++ after) := Block.store_append hfirst rfl
    rw [← append_assoc] at hblock₁
    obtain ⟨block₂, hrest, hblock₂⟩ := ih hblock₁ (Nat.succ.inj hold)
    rw [length_append, length_singleton] at hrest
    refine ⟨block₂, ?_, by simp [hblock₂]⟩
    rw [foldlM_cons, putAt, hstore, map_some, bind_eq_bind, bind_some, hrest,
      length_cons, Nat.add_assoc, Nat.add_comm 1]

theorem encode_eq (rawData : Block) : encode rawData = some (textOf rawData.bytes) := by
  rw [encode]
  exact (encodeWith_loop _ rawData.bytes 0 []).trans (foldlM_push _ [])

theorem toNat_encodeLength {n : UInt64} (h : (n.toNat + 2) / 3 * 4 < 2 ^ 64) :
    (encodeLength n).toNat = (n.toNat + 2) / 3 * 4 := by
  have hsum : (n + 2).toNat = n.toNat + 2 := by
    rw [UInt64.toNat_add]
    exact Nat.mod_eq_of_lt (by simp; omega)
  rw [encodeLength, UInt64.toNat_mul, UInt64.toNat_div, hsum]
  exact Nat.mod_eq_of_lt (by simp; omega)

theorem encodeTo_eq {rawData base64 : Block} (hraw : (rawData.bytes.length + 2) / 3 * 4 < 2 ^ 64)
    (hsize : encodeLength rawData.size ≤ base64.size) :
    ∃ base64', encodeTo rawData base64 = some ((textOf rawData.bytes).length, base64') ∧
      base64'.bytes = textOf rawData.bytes ++ base64.bytes.drop (textOf rawData.bytes).length := by
  have hlength : (textOf rawData.bytes).length ≤ base64.bytes.length := by
    have hle := UInt64.le_iff_toNat_le.mp hsize
    rwa [toNat_encodeLength (by simpa using hraw), Block.toNat_size, Block.toNat_size, ← length_textOf] at hle
  have hsplit : base64.bytes = [] ++ base64.bytes.take (textOf rawData.bytes).length ++
      base64.bytes.drop (textOf rawData.bytes).length := by simp
  obtain ⟨base64', hput, hbytes⟩ := foldlM_putAt (textOf rawData.bytes) hsplit (by simpa using hlength)
  refine ⟨base64', ?_, hbytes⟩
  have hloop := (encodeWith_loop putAt rawData.bytes 0 (base64, 0)).trans hput
  rw [encodeTo, if_neg (UInt64.not_lt.mpr hsize), show encodeWith putAt rawData.bytes (base64, 0) = _ from hloop]
  simp

theorem and_three (n : Nat) : n &&& 0x3 = n % 4 := Nat.and_two_pow_sub_one_eq_mod n 2

theorem decodeLength_append {group : Bytes} (hgroup : group.length = 4) (hne : text ≠ [])
    (hfour : text.length % 4 = 0) : decodeLength (group ++ text) = 3 + decodeLength text := by
  have hpos := length_pos_iff.mpr hne
  have hlength : (group ++ text).length = 4 + text.length := by rw [length_append, hgroup]
  have hlast : ∀ k, k ≤ text.length → 0 < k → (group ++ text)[4 + text.length - k]? = text[text.length - k]? := by
    intro k hk hk'
    rw [getElem?_append_right (by omega), hgroup]
    refine congrArg (text[·]?) ?_
    omega
  have hlen : (4 + text.length) / 4 * 3 = text.length / 4 * 3 + 3 := by omega
  have hlarge : 3 ≤ text.length / 4 * 3 := by omega
  have hwhole : ¬(text.length = 0 ∨ text.length % 4 ≠ 0) := by omega
  have hwhole' : ¬(4 + text.length = 0 ∨ (4 + text.length) % 4 ≠ 0) := by omega
  rw [decodeLength, decodeLength, and_three, and_three, hlength, hlast 1 (by omega) (by omega),
    hlast 2 (by omega) (by omega), if_neg hwhole, if_neg hwhole', hlen]
  dsimp only
  generalize text.length / 4 * 3 = len at hlarge
  split_ifs <;> omega

theorem decodeLength_textOf (hne : rawData ≠ []) : decodeLength (textOf rawData) = rawData.length := by
  fun_induction textOf rawData with
  | case1 => exact absurd rfl hne
  | case2 a => simp [decodeLength]
  | case3 a b => simp [decodeLength, (digit_spec (lone_pair_lt b)).2.2.1]
  | case4 a b c rest ih =>
    by_cases hrest : rest = []
    · subst hrest
      simp [decodeLength, textOf, (digit_spec (fourth_lt c)).2.2.1, (digit_spec (third_lt b c)).2.2.1]
    have hlength := length_textOf rest
    have hpos := length_pos_iff.mpr hrest
    have hne' : textOf rest ≠ [] := ne_nil_of_length_pos (by omega)
    have hfour : (textOf rest).length % 4 = 0 := by omega
    refine (decodeLength_append (show [digit ((a >>> 2) &&& 0x3F), _, _, _].length = 4 from rfl) hne' hfour).trans ?_
    rw [ih hrest, length_cons, length_cons, length_cons]
    omega

theorem decodeLoop_digit {block : Block} {rPos wPos : Nat} (h : v.toNat < 64) (text : Bytes) :
    decodeLoop rPos (digit v :: text) block wPos =
      (storeDigit rPos v block wPos).bind fun out => decodeLoop (rPos + 1) text out.1 out.2 := by
  obtain ⟨-, hdigit, hpad, hused⟩ := digit_spec h
  rw [decodeLoop, if_neg hpad, hdigit, bind_eq_bind, bind_some, if_neg hused]
  rfl

variable {outLen : Nat}

theorem decodeVectorLoop_digit {s tmp : UInt8} (h : v.toNat < 64) (text rawData : Bytes) :
    decodeVectorLoop outLen s tmp (digit v :: text) rawData =
      decodeVectorLoop outLen ((s + 1) &&& 0x03) (pushDigit s v tmp rawData).1 text (pushDigit s v tmp rawData).2 := by
  obtain ⟨-, hdigit, hpad, hused⟩ := digit_spec h
  rw [decodeVectorLoop, if_neg hpad, hdigit, bind_eq_bind, bind_some, if_neg hused]

variable {tmp : UInt8}

theorem decodeVectorLoop_first (h : v.toNat < 64) (text rawData : Bytes) :
    decodeVectorLoop outLen 0 tmp (digit v :: text) rawData = decodeVectorLoop outLen 1 (v <<< 2) text rawData :=
  decodeVectorLoop_digit h text rawData

theorem decodeVectorLoop_second (h : v.toNat < 64) (text rawData : Bytes) :
    decodeVectorLoop outLen 1 tmp (digit v :: text) rawData =
      decodeVectorLoop outLen 2 (v <<< 4) text (rawData ++ [tmp ||| v >>> 4]) :=
  decodeVectorLoop_digit h text rawData

theorem decodeVectorLoop_third (h : v.toNat < 64) (text rawData : Bytes) :
    decodeVectorLoop outLen 2 tmp (digit v :: text) rawData =
      decodeVectorLoop outLen 3 (v <<< 6) text (rawData ++ [tmp ||| v >>> 2]) :=
  decodeVectorLoop_digit h text rawData

theorem decodeVectorLoop_fourth (h : v.toNat < 64) (text rawData : Bytes) :
    decodeVectorLoop outLen 3 tmp (digit v :: text) rawData =
      decodeVectorLoop outLen 0 (tmp ||| v) text (rawData ++ [tmp ||| v]) :=
  decodeVectorLoop_digit h text rawData

theorem decodeVectorLoop_textOf (outLen : Nat) (tmp : UInt8) (rawData before : Bytes) :
    decodeVectorLoop outLen 0 tmp (textOf rawData) before = some (outLen, before ++ rawData) := by
  fun_induction textOf rawData generalizing tmp before with
  | case1 => simp [decodeVectorLoop]
  | case2 a =>
    rw [decodeVectorLoop_first (first_lt a), decodeVectorLoop_second (lone_lt a), lone_byte, decodeVectorLoop,
      if_pos rfl]
  | case3 a b =>
    rw [decodeVectorLoop_first (first_lt a), decodeVectorLoop_second (second_lt a b), first_byte,
      decodeVectorLoop_third (lone_pair_lt b), lone_pair_byte, decodeVectorLoop, if_pos rfl, append_assoc]
    rfl
  | case4 a b c rest ih =>
    rw [decodeVectorLoop_first (first_lt a), decodeVectorLoop_second (second_lt a b), first_byte,
      decodeVectorLoop_third (third_lt b c), second_byte, decodeVectorLoop_fourth (fourth_lt c), third_byte, ih]
    simp

theorem orAt_spec {block : Block} {x : UInt8} {after : Bytes} (h : block.bytes = before ++ [x] ++ after) (v : UInt8) :
    ∃ block', orAt block before.length v = some block' ∧ block'.bytes = before ++ [x ||| v] ++ after := by
  obtain ⟨block', hstore, hbytes⟩ : ∃ block', block.store before.length [x ||| v] = some block' ∧
      block'.bytes = before ++ [x ||| v] ++ after := Block.store_append h rfl
  refine ⟨block', ?_, hbytes⟩
  rw [orAt, Block.load_byte h]
  exact hstore

theorem storePair_spec {block : Block} {x y : UInt8} {after : Bytes}
    (h : block.bytes = before ++ [x] ++ ([y] ++ after)) (high low : UInt8) :
    ∃ block', (do
        let block ← orAt block before.length high
        let block ← block.store (before.length + 1) [low]
        return (block, before.length + 1)) = some (block', before.length + 1) ∧
      block'.bytes = (before ++ [x ||| high]) ++ [low] ++ after := by
  obtain ⟨block₁, hor, hblock₁⟩ := orAt_spec h high
  rw [← append_assoc] at hblock₁
  obtain ⟨block₂, hstore, hblock₂⟩ : ∃ block₂, block₁.store (before ++ [x ||| high]).length [low] = some block₂ ∧
      block₂.bytes = (before ++ [x ||| high]) ++ [low] ++ after := Block.store_append hblock₁ rfl
  rw [length_append, length_singleton] at hstore
  exact ⟨block₂, by simp [hor, hstore], hblock₂⟩

section DecodeLoop

variable {block : Block} {x y : UInt8} {after : Bytes} {rPos : Nat}

theorem decodeLoop_first (h : v.toNat < 64) (hr : rPos % 4 = 0) (hblock : block.bytes = before ++ [x] ++ after)
    (text : Bytes) : ∃ block', decodeLoop rPos (digit v :: text) block before.length =
      decodeLoop (rPos + 1) text block' before.length ∧ block'.bytes = before ++ [v <<< 2] ++ after := by
  obtain ⟨block', hstore, hbytes⟩ : ∃ block', block.store before.length [v <<< 2] = some block' ∧
      block'.bytes = before ++ [v <<< 2] ++ after := Block.store_append hblock rfl
  refine ⟨block', ?_, hbytes⟩
  simp [decodeLoop_digit h, storeDigit, hr, hstore]

theorem decodeLoop_second (h : v.toNat < 64) (hr : rPos % 4 = 1)
    (hblock : block.bytes = before ++ [x] ++ ([y] ++ after)) (text : Bytes) :
    ∃ block', decodeLoop rPos (digit v :: text) block before.length =
      decodeLoop (rPos + 1) text block' (before ++ [x ||| v >>> 4]).length ∧
      block'.bytes = (before ++ [x ||| v >>> 4]) ++ [v <<< 4] ++ after := by
  obtain ⟨block', hstore, hbytes⟩ := storePair_spec hblock (v >>> 4) (v <<< 4)
  refine ⟨block', ?_, hbytes⟩
  simp only [decodeLoop_digit h, storeDigit, hr, hstore, bind_some, length_append, length_singleton]

theorem decodeLoop_pair (a b : UInt8) (hr : rPos % 4 = 0) (hblock : block.bytes = before ++ [x] ++ ([y] ++ after))
    (text : Bytes) : ∃ block', decodeLoop rPos (digit ((a >>> 2) &&& 0x3F) ::
        digit (((a &&& 0x3) <<< 4) ||| ((b >>> 4) &&& 0xF)) :: text) block before.length =
      decodeLoop (rPos + 1 + 1) text block' (before ++ [a]).length ∧
      block'.bytes = (before ++ [a]) ++ [(((a &&& 0x3) <<< 4) ||| ((b >>> 4) &&& 0xF)) <<< 4] ++ after := by
  have hsecond : (rPos + 1) % 4 = 1 := by omega
  obtain ⟨b₁, hb₁, hbytes₁⟩ := decodeLoop_first (first_lt a) hr hblock
    (digit (((a &&& 0x3) <<< 4) ||| ((b >>> 4) &&& 0xF)) :: text)
  obtain ⟨b₂, hb₂, hbytes₂⟩ := decodeLoop_second (second_lt a b) hsecond hbytes₁ text
  rw [first_byte] at hb₂ hbytes₂
  exact ⟨b₂, hb₁.trans hb₂, hbytes₂⟩

theorem decodeLoop_third (h : v.toNat < 64) (hr : rPos % 4 = 2)
    (hblock : block.bytes = before ++ [x] ++ ([y] ++ after)) (text : Bytes) :
    ∃ block', decodeLoop rPos (digit v :: text) block before.length =
      decodeLoop (rPos + 1) text block' (before ++ [x ||| v >>> 2]).length ∧
      block'.bytes = (before ++ [x ||| v >>> 2]) ++ [v <<< 6] ++ after := by
  obtain ⟨block', hstore, hbytes⟩ := storePair_spec hblock (v >>> 2) (v <<< 6)
  refine ⟨block', ?_, hbytes⟩
  simp only [decodeLoop_digit h, storeDigit, hr, hstore, bind_some, length_append, length_singleton]

theorem decodeLoop_fourth (h : v.toNat < 64) (hr : rPos % 4 = 3) (hblock : block.bytes = before ++ [x] ++ after)
    (text : Bytes) : ∃ block', decodeLoop rPos (digit v :: text) block before.length =
      decodeLoop (rPos + 1) text block' (before ++ [x ||| v]).length ∧
      block'.bytes = (before ++ [x ||| v]) ++ after := by
  obtain ⟨block', hor, hbytes⟩ := orAt_spec hblock v
  refine ⟨block', ?_, hbytes⟩
  simp [decodeLoop_digit h, storeDigit, hr, hor]

theorem decodeLoop_pad (text : Bytes) (wPos : Nat) :
    decodeLoop rPos (base64Pad :: text) block wPos = some (wPos, block) := by
  rw [decodeLoop, if_pos rfl]

end DecodeLoop

theorem decodeLoop_textOf {block : Block} {rPos : Nat} {old : Bytes} (hr : rPos % 4 = 0)
    (hblock : block.bytes = before ++ old) (hlong : rawData.length < old.length) :
    ∃ block' after, decodeLoop rPos (textOf rawData) block before.length =
      some (before.length + rawData.length, block') ∧ block'.bytes = before ++ rawData ++ after := by
  have hsecond : (rPos + 1) % 4 = 1 := by omega
  have hthird : (rPos + 1 + 1) % 4 = 2 := by omega
  have hfourth : (rPos + 1 + 1 + 1) % 4 = 3 := by omega
  fun_induction textOf rawData generalizing rPos before old block with
  | case1 => exact ⟨block, old, rfl, by simpa using hblock⟩
  | case2 a =>
    obtain ⟨x, y, after, rfl⟩ : ∃ x y after, old = x :: y :: after := by
      match old, hlong with
      | x :: y :: after, _ => exact ⟨x, y, after, rfl⟩
    obtain ⟨b₁, hb₁, hbytes₁⟩ := decodeLoop_first (first_lt a) hr
      (show block.bytes = before ++ [x] ++ ([y] ++ after) by simp [hblock]) _
    obtain ⟨b₂, hb₂, hbytes₂⟩ := decodeLoop_second (lone_lt a) hsecond hbytes₁ _
    rw [lone_byte] at hb₂ hbytes₂
    refine ⟨b₂, [(a &&& 0x3) <<< 4 <<< 4] ++ after, ?_, by simp [hbytes₂]⟩
    rw [hb₁, hb₂, decodeLoop_pad, length_append]
  | case3 a b =>
    obtain ⟨x, y, z, after, rfl⟩ : ∃ x y z after, old = x :: y :: z :: after := by
      match old, hlong with
      | x :: y :: z :: after, _ => exact ⟨x, y, z, after, rfl⟩
    obtain ⟨b₂, hb₂, hbytes₂⟩ := decodeLoop_pair a b hr
      (show block.bytes = before ++ [x] ++ ([y] ++ ([z] ++ after)) by simp [hblock]) _
    obtain ⟨b₃, hb₃, hbytes₃⟩ := decodeLoop_third (lone_pair_lt b) hthird hbytes₂ _
    rw [lone_pair_byte] at hb₃ hbytes₃
    refine ⟨b₃, [(b &&& 0xF) <<< 2 <<< 6] ++ after, ?_, by simp [hbytes₃]⟩
    rw [hb₂, hb₃, decodeLoop_pad]
    simp
  | case4 a b c rest ih =>
    obtain ⟨x, y, z, after, rfl⟩ : ∃ x y z after, old = x :: y :: z :: after := by
      match old, hlong with
      | x :: y :: z :: after, _ => exact ⟨x, y, z, after, rfl⟩
    obtain ⟨b₂, hb₂, hbytes₂⟩ := decodeLoop_pair a b hr
      (show block.bytes = before ++ [x] ++ ([y] ++ ([z] ++ after)) by simp [hblock]) _
    obtain ⟨b₃, hb₃, hbytes₃⟩ := decodeLoop_third (third_lt b c) hthird hbytes₂ _
    rw [second_byte] at hb₃ hbytes₃
    obtain ⟨b₄, hb₄, hbytes₄⟩ := decodeLoop_fourth (fourth_lt c) hfourth hbytes₃ _
    rw [third_byte] at hb₄ hbytes₄
    obtain ⟨b₅, tail, hb₅, hbytes₅⟩ := ih (show (rPos + 1 + 1 + 1 + 1) % 4 = 0 by omega) hbytes₄
      (by simpa using hlong) (by omega) (by omega) (by omega)
    refine ⟨b₅, tail, ?_, by simp [hbytes₅]⟩
    rw [hb₂, hb₃, hb₄, hb₅]
    simp only [length_append, length_cons, length_nil]
    refine congrArg some (Prod.ext ?_ rfl)
    omega

/-- **Both encoders put out the same text, and both decoders have the bytes again from it.** As that of any
string, the length of the text is a `size_t`. -/
theorem encode_decode (rawData base64 dest : Block) (rawVector : Bytes) (hne : rawData.bytes ≠ [])
    (hraw : (rawData.bytes.length + 2) / 3 * 4 < 2 ^ 64) (hbase64 : encodeLength rawData.size ≤ base64.size)
    (hdest : rawData.bytes.length < dest.bytes.length) :
    ∃ text base64' dest', encode rawData = some text ∧
      encodeTo rawData base64 = some (text.length, base64') ∧ base64'.bytes.take text.length = text ∧
      text.length = (encodeLength rawData.size).toNat ∧
      decodeLength text = rawData.bytes.length ∧
      decodeTo text dest = some (rawData.bytes.length, dest') ∧
      dest'.bytes.take rawData.bytes.length = rawData.bytes ∧
      decode text rawVector = some (rawData.bytes.length, rawVector ++ rawData.bytes) := by
  have hlength := length_textOf rawData.bytes
  have hdecode := decodeLength_textOf hne
  have hpos := List.length_pos_iff.mpr hne
  obtain ⟨base64', hencode, hbase64'⟩ := encodeTo_eq hraw hbase64
  obtain ⟨dest', after, hloop, hdest'⟩ := decodeLoop_textOf (Nat.zero_mod 4)
    (show dest.bytes = [] ++ dest.bytes from rfl) hdest
  refine ⟨textOf rawData.bytes, base64', dest', encode_eq rawData, hencode, ?_, ?_, hdecode, ?_, ?_, ?_⟩
  · rw [hbase64', List.take_left]
  · rw [toNat_encodeLength (by simpa using hraw), Block.toNat_size, hlength]
  · rw [decodeTo, and_three, if_neg (by omega), hdecode, if_neg (by omega)]
    simpa using hloop
  · rw [hdest', List.nil_append, List.take_left]
  · rw [decode, hdecode, if_neg (by omega)]
    exact decodeVectorLoop_textOf _ 0 rawData.bytes rawVector

/-- Four bytes, so that two are left over of the last group. -/
theorem fourBytes_encode_decode : ∃ text base64' dest', let rawData : Block := ⟨[0, 1, 0xfe, 0xff], by decide⟩
    encode rawData = some text ∧
    encodeTo rawData ⟨List.replicate 8 0, by decide⟩ = some (text.length, base64') ∧
    base64'.bytes.take text.length = text ∧ text.length = (encodeLength rawData.size).toNat ∧
    decodeLength text = 4 ∧ decodeTo text ⟨List.replicate 5 0, by decide⟩ = some (4, dest') ∧
    dest'.bytes.take 4 = rawData.bytes ∧ decode text [] = some (4, rawData.bytes) :=
  encode_decode ⟨[0, 1, 0xfe, 0xff], by decide⟩ ⟨List.replicate 8 0, by decide⟩ ⟨List.replicate 5 0, by decide⟩ []
    (by decide) (by decide) (by decide) (by decide)

end Tbox.Util.Base64
