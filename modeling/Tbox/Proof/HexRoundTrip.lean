import Tbox.Util.HexText

/-!
# Hexadecimal text there and back

Two digits are a byte. Each decoder finds the pairs in its own way: by what is no delimiter, by what is no blank, and
from the first character on.
-/

open List Option

namespace Tbox.Util

open Tbox.Lib (Bytes Block nibbles high_lt low_lt)
open Tbox.Lib.StdString

variable {uppercase : Bool} {byte digit c : UInt8} {data delimiter before out : Bytes} {rounds : Nat}

def isHexDigit (c : UInt8) : Bool :=
  (48 ≤ c && c ≤ 57) || (65 ≤ c && c ≤ 70) || (97 ≤ c && c ≤ 102)

theorem hexDigitChar_spec (uppercase : Bool) (h : digit.toNat < 16) :
    hexCharToValue (hexDigitChar uppercase digit) = .ok digit ∧ isHexDigit (hexDigitChar uppercase digit) = true ∧
      isSpaceOrTab (hexDigitChar uppercase digit) = false := by
  have hall : ∀ (uppercase : Bool) (n : Fin 16), hexCharToValue (hexDigitChar uppercase (.ofNat n)) = .ok (.ofNat n) ∧
        isHexDigit (hexDigitChar uppercase (.ofNat n)) = true ∧
        isSpaceOrTab (hexDigitChar uppercase (.ofNat n)) = false := by
    decide
  have hspec := hall uppercase ⟨digit.toNat, h⟩
  rwa [UInt8.ofNat_toNat] at hspec

theorem pairValue_hexPair (uppercase : Bool) (byte : UInt8) :
    pairValue (hexDigitChar uppercase (byte >>> 4)) (hexDigitChar uppercase (byte &&& 0xF)) = .ok byte := by
  have hmasked : byte &&& 0xF &&& 0xF = byte &&& 0xF := by
    rw [UInt8.and_assoc]
    rfl
  rw [pairValue, (hexDigitChar_spec uppercase (high_lt byte)).1, (hexDigitChar_spec uppercase (low_lt byte)).1]
  exact congrArg Except.ok ((congrArg _ hmasked).trans (nibbles byte))

def hexText (uppercase : Bool) (delimiter : Bytes) : Bytes → Bytes
  | [] => []
  | [byte] => hexPair uppercase byte
  | byte :: next :: rest => hexPair uppercase byte ++ delimiter ++ hexText uppercase delimiter (next :: rest)

theorem hexLoop_eq {dataLen i : UInt16} {oss : Bytes} (hlen : dataLen.toNat = data.length)
    (hi : i.toNat ≤ data.length) : hexLoop data dataLen uppercase delimiter i oss =
      some (oss ++ hexText uppercase delimiter (data.drop i.toNat)) := by
  fun_induction hexLoop data dataLen uppercase delimiter i oss with
  | case1 i oss hlt hnone =>
    have hbound := UInt16.lt_iff_toNat_lt.mp hlt
    rw [List.getElem?_eq_none_iff] at hnone
    omega
  | case2 i oss hlt byte hbyte oss₁ oss₂ ih =>
    have hbound := UInt16.lt_iff_toNat_lt.mp hlt
    have hsucc : (i + 1).toNat = i.toNat + 1 := by
      have hword := dataLen.toNat_lt
      rw [UInt16.toNat_add]
      exact Nat.mod_eq_of_lt (by simp; omega)
    obtain ⟨hlength, hget⟩ := List.getElem?_eq_some_iff.mp hbyte
    rw [ih (by omega), hsucc, drop_eq_getElem_cons hlength, hget]
    cases hrest : data.drop (i.toNat + 1) with
    | nil =>
      have hlast := drop_eq_nil_iff.mp hrest
      have hoss₂ : oss₂ = oss ++ hexPair uppercase byte := if_neg (by omega)
      rw [hoss₂, hexText, hexText, append_nil]
    | cons next rest =>
      have hmore : i.toNat + 1 < data.length := by
        by_contra hend
        rw [drop_eq_nil_of_le (Nat.not_lt.mp hend)] at hrest
        cases hrest
      have hoss₂ : oss₂ = oss ++ hexPair uppercase byte ++ delimiter := if_pos (by omega)
      rw [hoss₂, hexText]
      simp only [append_assoc]
  | case3 i oss hnlt =>
    have hbound := UInt16.not_lt.mp hnlt
    rw [UInt16.le_iff_toNat_le] at hbound
    rw [drop_eq_nil_of_le (by omega), hexText, append_nil]

theorem rawDataToHexStr_eq {dataLen : UInt16} (hlen : dataLen.toNat = data.length) (uppercase : Bool)
    (delimiter : Bytes) : rawDataToHexStr (some data) dataLen uppercase delimiter =
      some (hexText uppercase delimiter data) := by
  rw [rawDataToHexStr]
  split
  case isTrue hzero =>
    have hnil : data = [] := by
      rw [hzero] at hlen
      exact length_eq_zero_iff.mp hlen.symm
    rw [hnil, hexText]
  case isFalse =>
    rw [hexLoop_eq hlen (Nat.zero_le _)]
    rfl

theorem hexText_nil (uppercase : Bool) (data : Bytes) : hexText uppercase [] data = data.flatMap (hexPair uppercase) := by
  fun_induction hexText uppercase [] data with
  | case1 => rfl
  | case2 byte => exact (append_nil _).symm
  | case3 byte next rest ih => rw [ih, append_nil, ← flatMap_cons]

theorem length_flatMap_hexPair (uppercase : Bool) (data : Bytes) :
    (data.flatMap (hexPair uppercase)).length = 2 * data.length := by
  induction data with
  | nil => rfl
  | cons byte data ih =>
    rw [flatMap_cons, length_append, ih, length_cons]
    change 2 + _ = _
    omega

theorem chipValue_pair (before after : Bytes) (uppercase : Bool) (byte : UInt8) :
    chipValue (before ++ hexPair uppercase byte ++ after) before.length 2 = .ok byte := by
  have hhigh : charAt (before ++ hexPair uppercase byte ++ after) before.length =
      .ok (hexDigitChar uppercase (byte >>> 4)) := by
    simp [charAt, hexPair]
  have hlow : charAt (before ++ hexPair uppercase byte ++ after) (before.length + 1) =
      .ok (hexDigitChar uppercase (byte &&& 0xF)) := by
    simp [charAt, hexPair]
  rw [chipValue, if_neg (by decide), if_pos rfl, hhigh, hlow]
  simp only [Except.bind, bind, (hexDigitChar_spec uppercase (high_lt byte)).1,
    (hexDigitChar_spec uppercase (low_lt byte)).1, nibbles]
  rfl

section WithDelimiter

def Delimits (delimiter : Bytes) : Prop := ∀ c ∈ delimiter, isHexDigit c = false

theorem not_contains_of_isHexDigit (hdelimiter : Delimits delimiter) (hc : isHexDigit c = true) :
    delimiter.contains c = false := by
  by_contra hmem
  rw [Bool.not_eq_false, contains_iff_mem] at hmem
  exact absurd hc (Bool.eq_false_iff.mp (hdelimiter c hmem))

theorem not_contains_hexPair (hdelimiter : Delimits delimiter) (uppercase : Bool) (byte : UInt8) :
    ∀ c ∈ hexPair uppercase byte, delimiter.contains c = false := by
  refine forall_mem_cons.mpr ⟨?_, forall_mem_singleton.mpr ?_⟩
  · exact not_contains_of_isHexDigit hdelimiter (hexDigitChar_spec uppercase (high_lt byte)).2.1
  · exact not_contains_of_isHexDigit hdelimiter (hexDigitChar_spec uppercase (low_lt byte)).2.1

theorem hexText_cons (uppercase : Bool) (delimiter : Bytes) (byte : UInt8) (data : Bytes) :
    ∃ rest, hexText uppercase delimiter (byte :: data) = hexDigitChar uppercase (byte >>> 4) :: rest := by
  cases data with
  | nil => exact ⟨_, rfl⟩
  | cons next rest => exact ⟨_, rfl⟩

theorem withDelimiterLoop_hexText (before out : Bytes) (hdelimiter : Delimits delimiter) (hne : delimiter ≠ [])
    (byte : UInt8) (data : Bytes) (hrounds : data.length + 1 < rounds) :
    withDelimiterLoop (before ++ hexText uppercase delimiter (byte :: data)) delimiter rounds (some before.length) out =
      (none, out ++ byte :: data) := by
  induction data generalizing byte before rounds out with
  | nil =>
    obtain ⟨rounds, rfl⟩ := Nat.exists_eq_add_of_lt hrounds
    have hend : findFrom (fun c => delimiter.contains c) (before ++ hexPair uppercase byte) before.length = none :=
      findFrom_nowhere _ (not_contains_hexPair hdelimiter uppercase byte)
    have hnext : findFrom (fun c => !delimiter.contains c) (before ++ hexPair uppercase byte)
        (before ++ hexPair uppercase byte).length = none := by
      rw [findFrom, drop_length]
      rfl
    have hlen : (before ++ hexPair uppercase byte).length - before.length = 2 := by
      rw [length_append, Nat.add_sub_cancel_left]
      rfl
    have hvalue := chipValue_pair before [] uppercase byte
    rw [append_nil] at hvalue
    rw [hexText, length_nil, Nat.zero_add, withDelimiterLoop, hend]
    simp only [getD_none, hlen, hvalue, hnext]
    rw [Nat.add_comm, withDelimiterLoop]
  | cons next data ih =>
    obtain ⟨rounds, rfl⟩ := Nat.exists_eq_add_of_lt hrounds
    obtain ⟨d, delimiter', hcons⟩ := exists_cons_of_ne_nil hne
    obtain ⟨rest, hrest⟩ := hexText_cons uppercase delimiter next data
    have hend : findFrom (fun c => delimiter.contains c) (before ++ (hexPair uppercase byte ++
        (delimiter ++ hexText uppercase delimiter (next :: data)))) before.length = some (before.length + 2) := by
      nth_rewrite 2 [hcons]
      exact findFrom_behind before (not_contains_hexPair hdelimiter uppercase byte) (by simp [hcons])
    have hnext : findFrom (fun c => !delimiter.contains c) (before ++ (hexPair uppercase byte ++
        (delimiter ++ hexText uppercase delimiter (next :: data)))) (before.length + 2) =
        some (before.length + 2 + delimiter.length) := by
      have hlength : before.length + 2 = (before ++ hexPair uppercase byte).length := by
        rw [length_append]
        rfl
      rw [← append_assoc, hlength, hrest]
      refine findFrom_behind _ (fun c hc => ?_) ?_
      · rw [contains_iff_mem.mpr hc]
        rfl
      · rw [not_contains_of_isHexDigit hdelimiter (hexDigitChar_spec uppercase (high_lt next)).2.1]
        rfl
    have hvalue := chipValue_pair before (delimiter ++ hexText uppercase delimiter (next :: data)) uppercase byte
    rw [append_assoc] at hvalue
    have hlater := ih (before ++ hexPair uppercase byte ++ delimiter) (out ++ [byte]) next
      (show data.length + 1 < data.length + 1 + 1 + rounds by omega)
    rw [append_assoc, append_assoc, length_append, length_append] at hlater
    rw [hexText, append_assoc, length_cons, withDelimiterLoop, hend]
    simp only [getD_some, Nat.add_sub_cancel_left, hvalue, hnext]
    rw [append_assoc, singleton_append] at hlater
    exact hlater

theorem length_lt_hexText (uppercase : Bool) (delimiter : Bytes) (byte : UInt8) (data : Bytes) :
    data.length < (hexText uppercase delimiter (byte :: data)).length := by
  induction data generalizing byte with
  | nil => exact Nat.succ_pos 1
  | cons next data ih =>
    have hlater := ih next
    rw [hexText, length_append, length_append, length_cons]
    change data.length + 1 < 2 + _ + _
    omega

theorem withDelimiter_hexText (hdelimiter : Delimits delimiter) (hne : delimiter ≠ []) (uppercase : Bool)
    (data : Bytes) : withDelimiter (hexText uppercase delimiter data) delimiter = (none, data) := by
  cases data with
  | nil => rfl
  | cons byte data =>
    have hlength := length_lt_hexText uppercase delimiter byte data
    obtain ⟨rest, hrest⟩ := hexText_cons uppercase delimiter byte data
    have hfirst : findFrom (fun c => !delimiter.contains c) (hexText uppercase delimiter (byte :: data)) 0 = some 0 := by
      rw [hrest]
      refine findFrom_here [] rest ?_
      rw [not_contains_of_isHexDigit hdelimiter (hexDigitChar_spec uppercase (high_lt byte)).2.1]
      rfl
    rw [withDelimiter, hfirst]
    exact withDelimiterLoop_hexText [] [] hdelimiter hne byte data (Nat.succ_lt_succ hlength)

end WithDelimiter

theorem getElem?_pair (uppercase : Bool) {i : Nat} (h : data[i]? = some byte) :
    (data.flatMap (hexPair uppercase))[2 * i]? = some (hexDigitChar uppercase (byte >>> 4)) ∧
      (data.flatMap (hexPair uppercase))[2 * i + 1]? = some (hexDigitChar uppercase (byte &&& 0xF)) := by
  induction data generalizing i with
  | nil => cases h
  | cons first data ih =>
    cases i with
    | zero =>
      cases h
      exact ⟨rfl, rfl⟩
    | succ i => exact ih h

theorem not_blank_of_mem (h : c ∈ data.flatMap (hexPair uppercase)) : isSpaceOrTab c = false := by
  obtain ⟨byte, -, hc⟩ := mem_flatMap.mp h
  rcases mem_cons.mp hc with rfl | hc
  · exact (hexDigitChar_spec uppercase (high_lt byte)).2.2
  · rw [mem_singleton.mp hc]
    exact (hexDigitChar_spec uppercase (low_lt byte)).2.2

theorem toNat_double {i : UInt64} (h : i.toNat < 2 ^ 62) :
    (i * 2).toNat = 2 * i.toNat ∧ (0 + 2 * i).toNat = 2 * i.toNat ∧ (0 + 2 * i + 1).toNat = 2 * i.toNat + 1 ∧
      (i + 1).toNat = i.toNat + 1 := by
  have htwo : (2 : UInt64).toNat = 2 := rfl
  have hone : (1 : UInt64).toNat = 1 := rfl
  rw [UInt64.zero_add, UInt64.toNat_add, UInt64.toNat_add, UInt64.toNat_mul, UInt64.toNat_mul, htwo, hone]
  omega

theorem withoutDelimiterLoop_pairs (i : UInt64) (hlen : data.length < 2 ^ 16) (hi : i.toNat ≤ data.length)
    (hrounds : data.length - i.toNat < rounds) :
    withoutDelimiterLoop (data.flatMap (hexPair uppercase)) 0 (.ofNat (2 * data.length)) rounds i (data.take i.toNat) =
      (none, data) := by
  induction rounds generalizing i with
  | zero => exact absurd hrounds (Nat.not_lt_zero _)
  | succ rounds ih =>
    obtain ⟨hdouble, hfirst, hsecond, hsucc⟩ := toNat_double (show i.toNat < 2 ^ 62 by omega)
    have hend : (UInt64.ofNat (2 * data.length) - 0).toNat = 2 * data.length := by
      rw [UInt64.sub_zero, UInt64.toNat_ofNat', Nat.mod_eq_of_lt (by omega)]
    rw [withoutDelimiterLoop]
    by_cases hmore : i.toNat < data.length
    · have hbyte := getElem?_eq_getElem hmore
      obtain ⟨hhigh, hlow⟩ := getElem?_pair uppercase hbyte
      have hguard : i * 2 < UInt64.ofNat (2 * data.length) - 0 := by
        rw [UInt64.lt_iff_toNat_lt, hdouble, hend]
        omega
      rw [if_pos hguard, hfirst, hsecond, charAt, hhigh, charAt, hlow]
      simp only [Except.bind, bind, pairValue_hexPair]
      have htake : data.take i.toNat ++ [data[i.toNat]] = data.take (i + 1).toNat := by
        rw [hsucc, take_append_getElem]
      rw [htake]
      exact ih _ (by omega) (by omega)
    · have hguard : ¬i * 2 < UInt64.ofNat (2 * data.length) - 0 := by
        rw [UInt64.lt_iff_toNat_lt, hdouble, hend]
        omega
      rw [if_neg hguard, take_of_length_le (Nat.not_lt.mp hmore)]

theorem withoutDelimiter_hexText (hne : data ≠ []) (hlen : data.length < 2 ^ 16) (uppercase : Bool) :
    withoutDelimiter (hexText uppercase [] data) = (none, data) := by
  have hlength := length_flatMap_hexPair uppercase data
  have hpos := length_pos_iff.mpr hne
  have hfirst : ∀ text : Bytes, text ≠ [] → (∀ c ∈ text, isSpaceOrTab c = false) →
      text.findIdx? (fun c => !isSpaceOrTab c) = some 0 := by
    intro text htext hblank
    obtain ⟨c, rest, rfl⟩ := exists_cons_of_ne_nil htext
    rw [findIdx?_cons, hblank c mem_cons_self]
    rfl
  have htext : data.flatMap (hexPair uppercase) ≠ [] := ne_nil_of_length_pos (by omega)
  have hstart : findFrom (fun c => !isSpaceOrTab c) (data.flatMap (hexPair uppercase)) 0 = some 0 := by
    rw [findFrom, drop_zero, hfirst _ htext fun c hc => not_blank_of_mem hc]
    rfl
  have hlast : (data.flatMap (hexPair uppercase)).reverse.findIdx? (fun c => !isSpaceOrTab c) = some 0 :=
    hfirst _ (reverse_ne_nil_iff.mpr htext) fun c hc => not_blank_of_mem (mem_reverse.mp hc)
  have hsize : sizeOf (some (2 * data.length - 1 - 0)) + 1 = .ofNat (2 * data.length) := by
    apply UInt64.toNat_inj.mp
    have hone : (1 : UInt64).toNat = 1 := rfl
    rw [sizeOf, UInt64.toNat_add, UInt64.toNat_ofNat', UInt64.toNat_ofNat', hone]
    omega
  rw [hexText_nil, withoutDelimiter, hstart, hlast, map_some, hlength, hsize]
  exact withoutDelimiterLoop_pairs 0 hlen (Nat.zero_le _) (by change data.length - 0 < _; omega)

theorem fixedLoop_pairs (uppercase : Bool) (i : Nat) {mem : Block} {after : Bytes} (hi : i ≤ data.length)
    (hmem : mem.bytes = data.take i ++ after) (hrounds : rounds ≤ after.length) :
    ∃ mem', fixedLoop (data.flatMap (hexPair uppercase)) rounds i i mem = (.ok (min (i + rounds) data.length), mem') ∧
      mem'.bytes = data.take (i + rounds) ++ after.drop (min rounds (data.length - i)) := by
  induction rounds generalizing i mem after with
  | zero =>
    refine ⟨mem, ?_, ?_⟩
    · rw [fixedLoop, Nat.add_zero, Nat.min_eq_left hi]
    · rw [hmem, Nat.add_zero, Nat.zero_min, drop_zero]
  | succ rounds ih =>
    rw [fixedLoop, length_flatMap_hexPair]
    by_cases hmore : i < data.length
    · obtain ⟨x, after, rfl⟩ := exists_cons_of_length_pos (Nat.zero_lt_of_lt hrounds)
      have hbyte := getElem?_eq_getElem hmore
      obtain ⟨hhigh, hlow⟩ := getElem?_pair uppercase hbyte
      have hparts : mem.bytes = data.take i ++ [x] ++ after := by
        rw [hmem, append_assoc, singleton_append]
      have hsame : [x].length = [data[i]].length := rfl
      obtain ⟨mem₁, hstore, hmem₁⟩ := Block.store_append hparts hsame
      rw [length_take_of_le hi] at hstore
      rw [take_append_getElem] at hmem₁
      obtain ⟨mem', hloop, hmem'⟩ := ih (i + 1) hmore hmem₁ (Nat.le_of_succ_le_succ hrounds)
      have hsum : i + 1 + rounds = i + (rounds + 1) := by omega
      rw [hsum] at hloop hmem'
      refine ⟨mem', ?_, ?_⟩
      · rw [if_pos (by omega), getD_eq_getElem?_getD, getD_eq_getElem?_getD, hhigh, hlow, getD_some,
          getD_some, pairValue_hexPair]
        simp only [hstore]
        exact hloop
      · have hcount : min (rounds + 1) (data.length - i) = min rounds (data.length - (i + 1)) + 1 := by omega
        rw [hmem', hcount, drop_succ_cons]
    · refine ⟨mem, ?_, ?_⟩
      · rw [if_neg (by omega), Nat.min_eq_right (by omega), Nat.le_antisymm hi (Nat.not_lt.mp hmore)]
      · have hzero : min (rounds + 1) (data.length - i) = 0 := by omega
        rw [hmem, hzero, drop_zero, take_of_length_le (Nat.not_lt.mp hmore), take_of_length_le (by omega)]

theorem hexStrToRawDataTo_hexText (uppercase : Bool) (data : Bytes) {mem : Block} {outLen : UInt16}
    (hroom : outLen.toNat ≤ mem.bytes.length) : ∃ mem',
      hexStrToRawDataTo (hexText uppercase [] data) (some mem) outLen =
        (.ok (min outLen.toNat data.length), some mem') ∧
      mem'.bytes = data.take outLen.toNat ++ mem.bytes.drop (min outLen.toNat data.length) := by
  rw [hexStrToRawDataTo, hexText_nil]
  by_cases hzero : outLen = 0
  · refine ⟨mem, ?_, ?_⟩
    · rw [hzero]
      exact congrArg (fun n => (Except.ok n, some mem)) (Nat.zero_min _).symm
    · rw [hzero]
      change mem.bytes = data.take 0 ++ mem.bytes.drop (min 0 _)
      rw [Nat.zero_min, take_zero, nil_append, drop_zero]
  · have hmem : mem.bytes = data.take 0 ++ mem.bytes := rfl
    obtain ⟨mem', hloop, hmem'⟩ := fixedLoop_pairs uppercase 0 (Nat.zero_le _) hmem hroom
    rw [Nat.zero_add] at hloop hmem'
    refine ⟨mem', ?_, hmem'⟩
    simp only [if_neg hzero, hloop]

/-- The text of the data is read as the data again: whole into a vector, and as much as there is room for into memory. -/
def Recovers (data : Bytes) (uppercase : Bool) (delimiter : Bytes) : Prop :=
  (∃ text, rawDataToHexStr (some data) (.ofNat data.length) uppercase delimiter = some text ∧
    hexStrToRawData text delimiter = (.ok data.length, data)) ∧
  ∃ text, rawDataToHexStr (some data) (.ofNat data.length) uppercase [] = some text ∧
    ∀ (mem : Block) (outLen : UInt16), outLen.toNat ≤ mem.bytes.length → ∃ mem',
      hexStrToRawDataTo text (some mem) outLen = (.ok (min outLen.toNat data.length), some mem') ∧
        mem'.bytes = data.take outLen.toNat ++ mem.bytes.drop (min outLen.toNat data.length)

/-- **Hexadecimal text there and back**, but for no data without a delimiter. -/
theorem recovers_iff (data : Bytes) (uppercase : Bool) (delimiter : Bytes) (hlen : data.length ≤ 65535)
    (hdelimiter : ∀ c ∈ delimiter, isHexDigit c = false) :
    Recovers data uppercase delimiter ↔ data ≠ [] ∨ delimiter ≠ [] := by
  have hsize : (UInt16.ofNat data.length).toNat = data.length := by
    rw [UInt16.toNat_ofNat']
    exact Nat.mod_eq_of_lt (by omega)
  have htext := rawDataToHexStr_eq hsize uppercase delimiter
  have hfixed := rawDataToHexStr_eq hsize uppercase []
  constructor
  · rintro ⟨⟨text, hencode, hdecode⟩, -⟩
    by_contra hempty
    obtain ⟨rfl, rfl⟩ : data = [] ∧ delimiter = [] := by simpa using hempty
    obtain rfl := Option.some.inj (htext.symm.trans hencode)
    -- `npos` is taken for the position of a character
    have hthrown : hexStrToRawData [] [] = (.error .outOfRange, []) := by decide
    rw [hexText] at hdecode
    exact nomatch hthrown.symm.trans hdecode
  · intro hsome
    refine ⟨⟨_, htext, ?_⟩, _, hfixed, fun mem outLen hroom => hexStrToRawDataTo_hexText uppercase data hroom⟩
    by_cases hnil : delimiter = []
    · have hne := hsome.resolve_right (not_not.mpr hnil)
      rw [hnil, hexStrToRawData, if_pos rfl, withoutDelimiter_hexText hne (by omega)]
    · rw [hexStrToRawData, if_neg hnil, withDelimiter_hexText hdelimiter hnil]

theorem twoBytes_recovered : Recovers [0x0e, 0xa8] true [58, 32] :=
  (recovers_iff [0x0e, 0xa8] true [58, 32] (by decide) (by simp [isHexDigit])).mpr (.inl (by decide))

/-- The text of no data is empty, and from an empty text without a delimiter a character is taken. -/
theorem noData_not_recovered : rawDataToHexStr (some []) 0 false [] = some [] ∧
    hexStrToRawData [] [] = (.error .outOfRange, []) ∧
    ¬∀ data uppercase delimiter, data.length ≤ 65535 → (∀ c ∈ delimiter, isHexDigit c = false) →
      Recovers data uppercase delimiter := by
  have htext : rawDataToHexStr (some []) 0 false [] = some [] := rfl
  have hthrown : hexStrToRawData [] [] = (.error .outOfRange, []) := by decide
  refine ⟨htext, hthrown, fun hall => ?_⟩
  obtain ⟨⟨text, hencode, hdecode⟩, -⟩ := hall [] false [] (Nat.zero_le _) (List.forall_mem_nil _)
  obtain rfl := Option.some.inj (htext.symm.trans hencode)
  exact nomatch hthrown.symm.trans hdecode

end Tbox.Util
