import Mathlib.Data.List.TakeWhile
import Mathlib.Data.Nat.Bitwise
import Mathlib.Tactic.Ring
import Tbox.Util.ScalableInteger

/-!
# The codes of scalable integers

All bytes of a code but the last one have their top bit, so no code is the beginning of another. Ten bytes may hold a
number that does not fit in a word, and with ten continued bytes the loop ends behind the table.
-/

open List Option

namespace Tbox.Util

/-! ### A scalable integer is read as it was written

Whatever follows it. -/

section RoundTrip

open Tbox.Lib (Bytes)

variable {readBytes rounds pos : Nat} {readValue storeValue inValue : UInt64} {stored rest : Bytes}

theorem top_eq_zero_iff (value : UInt8) : value &&& 0x80 = 0 ↔ value.toNat < 128 := by
  have hvalue : value.toNat < 2 ^ 8 := value.toNat_lt
  rw [← UInt8.toNat_inj, UInt8.toNat_and]
  change value.toNat &&& 2 ^ 7 = 0 ↔ value.toNat < 128
  rw [Nat.and_comm, Nat.two_pow_and, Nat.testBit_eq_decide_div_mod_eq]
  by_cases hlt : value.toNat < 128
  · have hdiv : value.toNat / 2 ^ 7 % 2 = 0 := by omega
    rw [hdiv]
    exact iff_of_true rfl hlt
  · have hdiv : value.toNat / 2 ^ 7 % 2 = 1 := by omega
    rw [hdiv]
    exact iff_of_false (by decide) hlt

theorem toNat_pushed (readValue : UInt64) (value : UInt8) :
    (readValue <<< 7 ||| (value &&& 0x7F).toUInt64).toNat = (readValue.toNat * 128 + value.toNat % 128) % 2 ^ 64 := by
  have hlow : (value &&& 0x7F).toUInt64.toNat = value.toNat % 128 := by
    rw [UInt8.toNat_toUInt64, UInt8.toNat_and]
    exact Nat.and_two_pow_sub_one_eq_mod value.toNat 7
  have hshift : (readValue <<< 7).toNat = 2 ^ 7 * (readValue.toNat % 2 ^ 57) := by
    have hseven : 2 ^ ((7 : UInt64).toNat % 64) = 128 := rfl
    rw [UInt64.toNat_shiftLeft, Nat.shiftLeft_eq, hseven]
    omega
  have hlt : value.toNat % 128 < 2 ^ 7 := Nat.mod_lt _ (by decide)
  rw [UInt64.toNat_or, hlow, hshift, ← Nat.two_pow_add_eq_or_of_lt hlt]
  omega

theorem toNat_low (storeValue : UInt64) : (storeValue &&& 0x7f).toUInt8.toNat = storeValue.toNat % 128 := by
  have hlow : storeValue.toNat &&& 127 = storeValue.toNat % 128 := Nat.and_two_pow_sub_one_eq_mod storeValue.toNat 7
  rw [UInt64.toNat_toUInt8, UInt64.toNat_and]
  change (storeValue.toNat &&& 127) % 2 ^ 8 = _
  omega

theorem toNat_continued (storeValue : UInt64) :
    (0x80 ||| (storeValue &&& 0x7f).toUInt8).toNat = 128 + storeValue.toNat % 128 := by
  have hlt : storeValue.toNat % 128 < 2 ^ 7 := Nat.mod_lt _ (by decide)
  rw [UInt8.toNat_or, toNat_low]
  exact (Nat.two_pow_add_eq_or_of_lt hlt 1).symm

theorem toNat_shiftRight_seven (storeValue : UInt64) : (storeValue >>> 7).toNat = storeValue.toNat / 128 := by
  have hseven : (7 : UInt64).toNat % 64 = 7 := rfl
  rw [UInt64.toNat_shiftRight, hseven, Nat.shiftRight_eq_div_pow]

theorem parseLoop_cons (value : UInt8) (buff : Bytes) : parseLoop (rounds + 1) readBytes readValue (value :: buff) =
    if value.toNat < 128 then some (readBytes, UInt64.ofNat (readValue.toNat * 128 + value.toNat % 128))
    else parseLoop rounds (readBytes + 1) (UInt64.ofNat (readValue.toNat * 128 + value.toNat % 128)) buff := by
  have hvalue : readValue <<< 7 ||| (value &&& 0x7F).toUInt64 =
      UInt64.ofNat (readValue.toNat * 128 + value.toNat % 128) := by
    apply UInt64.toNat_inj.mp
    rw [toNat_pushed, UInt64.toNat_ofNat']
  rw [parseLoop, hvalue]
  exact if_congr (top_eq_zero_iff value) rfl rfl

/-- One digit more in front is one digit taken off behind. -/
theorem shifted_succ (m pos n : Nat) :
    m * 128 ^ (pos + 1) + n % 128 ^ (pos + 1) = (m * 128 ^ pos + n / 128 % 128 ^ pos) * 128 + n % 128 := by
  rw [Nat.pow_succ', Nat.mod_mul]
  ring

theorem parseLoop_storeBytes (readBytes rounds pos m : Nat) (storeValue : UInt64) (stored : Bytes) :
    parseLoop (rounds + pos) readBytes (UInt64.ofNat m) (storeBytes pos storeValue stored) =
      parseLoop rounds (readBytes + pos) (UInt64.ofNat (m * 128 ^ pos + storeValue.toNat % 128 ^ pos)) stored := by
  induction pos generalizing rounds storeValue stored with
  | zero =>
    rw [storeBytes, Nat.pow_zero, Nat.mod_one, Nat.mul_one]
    rfl
  | succ pos ih =>
    have hlast : parseLoop (rounds + 1) (readBytes + pos)
        (UInt64.ofNat (m * 128 ^ pos + (storeValue >>> 7).toNat % 128 ^ pos))
        ((0x80 ||| (storeValue &&& 0x7f).toUInt8) :: stored) =
        parseLoop rounds (readBytes + pos + 1)
          (UInt64.ofNat (m * 128 ^ (pos + 1) + storeValue.toNat % 128 ^ (pos + 1))) stored := by
      rw [parseLoop_cons, toNat_continued, if_neg (by omega)]
      congr 1
      apply UInt64.toNat_inj.mp
      rw [UInt64.toNat_ofNat', UInt64.toNat_ofNat', UInt64.toNat_ofNat', toNat_shiftRight_seven]
      rw [shifted_succ]
      omega
    have hrounds : rounds + (pos + 1) = rounds + 1 + pos := by omega
    rw [storeBytes, hrounds, ih (rounds + 1), hlast, Nat.add_assoc]

theorem length_storeBytes (pos : Nat) (storeValue : UInt64) (stored : Bytes) :
    (storeBytes pos storeValue stored).length = pos + stored.length := by
  induction pos generalizing storeValue stored with
  | zero => exact (Nat.zero_add _).symm
  | succ pos ih =>
    rw [storeBytes, ih, length_cons]
    omega

theorem needBytes_spec (inValue : UInt64) : 0 < needBytes inValue ∧ needBytes inValue ≤ 10 ∧
    (needBytes inValue < 10 → inValue ≤ maxValueTbl.getD (needBytes inValue) 0) ∧
      ∀ n, 0 < n → n < needBytes inValue → maxValueTbl.getD n 0 < inValue := by
  rw [needBytes]
  cases hfind : (List.range' 1 9).find? fun needBytes => decide (inValue ≤ maxValueTbl.getD needBytes 0) with
  | none =>
    refine ⟨by decide, le_rfl, fun h => absurd h (Nat.lt_irrefl 10), fun n hpos hlt => ?_⟩
    have hfalse := List.find?_range'_eq_none.mp hfind n hpos (by exact hlt)
    exact UInt64.not_le.mp (of_decide_eq_false (Bool.not_eq_true' _ ▸ hfalse))
  | some needBytes =>
    obtain ⟨htrue, hmem, hbefore⟩ := List.find?_range'_eq_some.mp hfind
    obtain ⟨hlow, hhigh⟩ := mem_range'_1.mp hmem
    refine ⟨hlow, by exact Nat.le_of_lt hhigh, fun _ => of_decide_eq_true htrue, fun n hpos hlt => ?_⟩
    exact UInt64.not_le.mp (of_decide_eq_false (Bool.not_eq_true' _ ▸ hbefore n hpos hlt))

theorem minValueTbl_succ : ∀ n < 9, (minValueTbl.getD (n + 2) 0).toNat = (maxValueTbl.getD (n + 1) 0).toNat + 1 := by
  decide

theorem maxValueTbl_eq : ∀ n < 9,
    (maxValueTbl.getD (n + 1) 0).toNat + 1 = (minValueTbl.getD (n + 1) 0).toNat + 128 ^ (n + 1) := by
  decide

theorem storeValue_lt (inValue : UInt64) : minValueTbl.getD (needBytes inValue) 0 ≤ inValue ∧
      (inValue - minValueTbl.getD (needBytes inValue) 0).toNat < 128 ^ needBytes inValue := by
  obtain ⟨hpos, hle, hmax, hmin⟩ := needBytes_spec inValue
  generalize needBytes inValue = n at hpos hle hmax hmin ⊢
  have hword : inValue.toNat < 2 ^ 64 := inValue.toNat_lt
  have hfits : minValueTbl.getD n 0 ≤ inValue := by
    rw [UInt64.le_iff_toNat_le]
    match n with
    | 1 => exact Nat.zero_le _
    | m + 2 =>
      have hbefore := UInt64.lt_iff_toNat_lt.mp (hmin (m + 1) (Nat.succ_pos m) (Nat.lt_succ_self _))
      rw [minValueTbl_succ m (by omega)]
      exact hbefore
  refine ⟨hfits, ?_⟩
  rw [UInt64.toNat_sub_of_le _ _ hfits]
  match n with
  | m + 1 =>
    by_cases hten : m + 1 = 10
    · rw [hten]
      exact (Nat.sub_le _ _).trans_lt (hword.trans (by decide))
    have heq := maxValueTbl_eq m (by omega)
    have hbound := UInt64.le_iff_toNat_le.mp (hmax (by omega))
    have hpow : 0 < 128 ^ m := Nat.pow_pos (by decide)
    omega

theorem length_dumpedBytes (inValue : UInt64) : (dumpedBytes inValue).length = needBytes inValue := by
  have hpos := (needBytes_spec inValue).1
  rw [dumpedBytes, length_storeBytes, length_singleton]
  omega

theorem storeBytes_append (pos : Nat) (storeValue : UInt64) (stored rest : Bytes) :
    storeBytes pos storeValue stored ++ rest = storeBytes pos storeValue (stored ++ rest) := by
  induction pos generalizing storeValue stored with
  | zero => rfl
  | succ pos ih => exact ih _ _

theorem dumpedBytes_eq (inValue : UInt64) : dumpedBytes inValue =
    storeBytes (needBytes inValue - 1) ((inValue - minValueTbl.getD (needBytes inValue) 0) >>> 7)
      [(0x7f &&& (inValue - minValueTbl.getD (needBytes inValue) 0)).toUInt8] := by
  have hpos := (needBytes_spec inValue).1
  rw [dumpedBytes]
  generalize needBytes inValue = n at hpos ⊢
  split
  · rfl
  · have hone : n = 1 := by omega
    have hzero : inValue - minValueTbl.getD 1 0 = inValue := UInt64.sub_zero inValue
    rw [hone, hzero]

/-- **Round trip.** -/
theorem parse_dumpedBytes (inValue : UInt64) (rest : Bytes) :
    parseScalableInteger (dumpedBytes inValue ++ rest) = some (needBytes inValue, some inValue) := by
  obtain ⟨hpos, hle, -, -⟩ := needBytes_spec inValue
  obtain ⟨-, hlt⟩ := storeValue_lt inValue
  rw [dumpedBytes_eq, storeBytes_append, parseScalableInteger]
  generalize needBytes inValue = n at hpos hle hlt ⊢
  generalize hstore : inValue - minValueTbl.getD n 0 = storeValue at hlt ⊢
  have hrounds : 11 = 11 - n + 1 + (n - 1) := by omega
  have hbytes : 1 + (n - 1) = n := by omega
  have hlast : (0x7f &&& storeValue).toUInt8.toNat = storeValue.toNat % 128 := by
    rw [UInt64.and_comm, toNat_low]
  -- the high digits of what is stored, and the last one
  have hsplit : storeValue.toNat / 128 % 128 ^ (n - 1) * 128 + storeValue.toNat % 128 = storeValue.toNat := by
    have hpow : 128 ^ n = 128 ^ (n - 1) * 128 := by
      rw [← Nat.pow_succ, Nat.succ_eq_add_one, Nat.sub_add_cancel hpos]
    have hdiv : storeValue.toNat / 128 < 128 ^ (n - 1) := (Nat.div_lt_iff_lt_mul (by decide)).mpr (hpow ▸ hlt)
    rw [Nat.mod_eq_of_lt hdiv]
    omega
  have hparsed : parseLoop 11 1 0 (storeBytes (n - 1) (storeValue >>> 7)
      ([(0x7f &&& storeValue).toUInt8] ++ rest)) = some (n, storeValue) := by
    have hloop := parseLoop_storeBytes 1 (11 - n + 1) (n - 1) 0 (storeValue >>> 7)
      ([(0x7f &&& storeValue).toUInt8] ++ rest)
    rw [← hrounds] at hloop
    refine hloop.trans ?_
    rw [singleton_append, parseLoop_cons, hlast, if_pos (Nat.mod_lt _ (by decide)), hbytes]
    congr 2
    apply UInt64.toNat_inj.mp
    rw [UInt64.toNat_ofNat', UInt64.toNat_ofNat', toNat_shiftRight_seven]
    have hword : storeValue.toNat < 2 ^ 64 := storeValue.toNat_lt
    omega
  have htable : minValueTbl[n]? = some (minValueTbl.getD n 0) := by
    have hlength : n < minValueTbl.length := Nat.lt_succ_of_le hle
    rw [getElem?_eq_getElem hlength, getD_eq_getElem _ _ hlength]
  rw [hparsed, map_some]
  dsimp only
  rw [htable, map_some, ← hstore, UInt64.add_comm, UInt64.sub_add_cancel]

end RoundTrip

open Tbox.Lib (Bytes Block)

variable {rounds readBytes pos number number' n : Nat} {readValue storeValue value value' outValue : UInt64}
  {last last' : UInt8} {front front' stored rest bytes : Bytes} {buff buff' : Block} {values : List UInt64}

def Continued (bytes : Bytes) : Prop := ∀ byte ∈ bytes, 128 ≤ byte.toNat

def groupsValue (number : Nat) (bytes : Bytes) : Nat := bytes.foldl (fun number byte => number * 128 + byte.toNat % 128) number

theorem groupsValue_mod (number : Nat) (bytes : Bytes) :
    groupsValue (number % 2 ^ 64) bytes % 2 ^ 64 = groupsValue number bytes % 2 ^ 64 := by
  induction bytes generalizing number with
  | nil => exact Nat.mod_mod _ _
  | cons byte bytes ih =>
    have hbyte : (number % 2 ^ 64 * 128 + byte.toNat % 128) % 2 ^ 64 =
        (number * 128 + byte.toNat % 128) % 2 ^ 64 := by omega
    calc groupsValue (number % 2 ^ 64 * 128 + byte.toNat % 128) bytes % 2 ^ 64
        = groupsValue ((number % 2 ^ 64 * 128 + byte.toNat % 128) % 2 ^ 64) bytes % 2 ^ 64 := (ih _).symm
      _ = groupsValue (number * 128 + byte.toNat % 128) bytes % 2 ^ 64 := by rw [hbyte, ih]

theorem continued_storeBytes (h : Continued stored) : Continued (storeBytes pos storeValue stored) := by
  induction pos generalizing storeValue stored with
  | zero => exact h
  | succ pos ih =>
    refine ih (forall_mem_cons.mpr ⟨?_, h⟩)
    rw [toNat_continued]
    exact Nat.le_add_right _ _

theorem exists_dumpedBytes (value : UInt64) :
    ∃ front last, dumpedBytes value = front ++ [last] ∧ Continued front ∧ last.toNat < 128 := by
  rw [dumpedBytes_eq]
  set storeValue := value - minValueTbl.getD (needBytes value) 0
  refine ⟨storeBytes (needBytes value - 1) (storeValue >>> 7) [], (0x7f &&& storeValue).toUInt8, ?_, ?_, ?_⟩
  · rw [storeBytes_append, nil_append]
  · exact continued_storeBytes nofun
  · rw [UInt64.and_comm, toNat_low]
    exact Nat.mod_lt _ (by decide)

theorem parseLoop_continued (h : Continued bytes) : parseLoop rounds readBytes readValue bytes = none := by
  induction bytes generalizing rounds readBytes readValue with
  | nil => cases rounds <;> rfl
  | cons value bytes ih =>
    obtain ⟨hvalue, hbytes⟩ := forall_mem_cons.mp h
    cases rounds with
    | zero => rfl
    | succ rounds =>
      rw [parseLoop_cons, if_neg (Nat.not_lt.mpr hvalue)]
      exact ih hbytes

theorem parseLoop_ended (hfront : Continued front) (hlast : last.toNat < 128) (rest : Bytes) :
    parseLoop rounds readBytes readValue (front ++ last :: rest) = if front.length < rounds then
        some (readBytes + front.length, UInt64.ofNat (groupsValue readValue.toNat (front ++ [last]))) else none := by
  induction front generalizing rounds readBytes readValue with
  | nil =>
    cases rounds with
    | zero => rfl
    | succ rounds =>
      rw [nil_append, parseLoop_cons, if_pos hlast]
      exact (if_pos (Nat.succ_pos rounds)).symm
  | cons byte front ih =>
    obtain ⟨hbyte, hfront⟩ := forall_mem_cons.mp hfront
    cases rounds with
    | zero => rfl
    | succ rounds =>
      have hgroups : UInt64.ofNat (groupsValue
          (UInt64.ofNat (readValue.toNat * 128 + byte.toNat % 128)).toNat (front ++ [last])) =
          UInt64.ofNat (groupsValue readValue.toNat (byte :: front ++ [last])) := by
        apply UInt64.toNat_inj.mp
        rw [UInt64.toNat_ofNat', UInt64.toNat_ofNat', UInt64.toNat_ofNat', groupsValue_mod]
        rfl
      rw [cons_append, parseLoop_cons, if_neg (Nat.not_lt.mpr hbyte), ih hfront, hgroups,
        length_cons, Nat.add_right_comm, Nat.add_assoc]
      exact if_congr Nat.succ_lt_succ_iff.symm rfl rfl

theorem storeDown_spec {old after : Bytes} (storeValue : UInt64) (h : buff.bytes = old ++ after) :
    ∃ buff', storeDown old.length storeValue buff = some buff' ∧
      buff'.bytes = storeBytes old.length storeValue after := by
  induction old using List.reverseRecOn generalizing storeValue buff after with
  | nil => exact ⟨buff, rfl, h⟩
  | append_singleton old byte ih =>
    obtain ⟨stored, hstore, hstored⟩ :
        ∃ stored, buff.store old.length [0x80 ||| (storeValue &&& 0x7f).toUInt8] = some stored ∧
          stored.bytes = old ++ [0x80 ||| (storeValue &&& 0x7f).toUInt8] ++ after := Block.store_append h rfl
    rw [append_assoc] at hstored
    obtain ⟨buff', hdown, hbytes⟩ := ih (storeValue >>> 7) hstored
    refine ⟨buff', ?_, ?_⟩
    · rw [length_append, length_singleton, storeDown, hstore]
      exact hdown
    · rw [length_append, length_singleton, storeBytes, hbytes]
      rfl

theorem dumpScalableIntegerTo_short (h : buff.bytes.length < (dumpedBytes value).length) :
    dumpScalableIntegerTo value buff = some (0, buff) := by
  rw [length_dumpedBytes] at h
  exact if_pos h

theorem dumpScalableIntegerTo_fits (h : (dumpedBytes value).length ≤ buff.bytes.length) :
    ∃ buff', dumpScalableIntegerTo value buff = some ((dumpedBytes value).length, buff') ∧
      buff'.bytes = dumpedBytes value ++ buff.bytes.drop (dumpedBytes value).length := by
  have hpos := (needBytes_spec value).1
  rw [length_dumpedBytes] at h ⊢
  rw [dumpScalableIntegerTo, dumpedBytes]
  generalize needBytes value = n at hpos h ⊢
  dsimp only
  generalize (if 1 < n then value - minValueTbl.getD n 0 else value) = storeValue
  have hparts : buff.bytes = buff.bytes.take (n - 1) ++ [buff.bytes[n - 1]] ++ buff.bytes.drop n := by
    have hdrop : buff.bytes.drop (n - 1) = buff.bytes[n - 1] :: buff.bytes.drop n := by
      rw [drop_eq_getElem_cons (by omega), Nat.sub_add_cancel hpos]
    rw [append_assoc, singleton_append, ← hdrop, take_append_drop]
  have hlength : (buff.bytes.take (n - 1)).length = n - 1 := by
    rw [length_take]
    omega
  obtain ⟨stored, hstore, hstored⟩ :
      ∃ stored, buff.store (buff.bytes.take (n - 1)).length [(0x7f &&& storeValue).toUInt8] = some stored ∧
        stored.bytes = buff.bytes.take (n - 1) ++ [(0x7f &&& storeValue).toUInt8] ++ buff.bytes.drop n :=
    Block.store_append hparts rfl
  rw [append_assoc] at hstored
  obtain ⟨buff', hdown, hbytes⟩ := storeDown_spec (storeValue >>> 7) hstored
  rw [hlength] at hstore hdown hbytes
  refine ⟨buff', ?_, ?_⟩
  · rw [if_neg (by omega), hstore]
    exact congrArg (Option.bind · _) hdown
  · rw [hbytes, storeBytes_append]

theorem parseLoopAt_eq (buff : Block) (rounds i readBytes : Nat) (readValue : UInt64) :
    parseLoopAt buff rounds i readBytes readValue = some (parseLoop rounds readBytes readValue (buff.bytes.drop i)) := by
  induction rounds generalizing i readBytes readValue with
  | zero => rfl
  | succ rounds ih =>
    rw [parseLoopAt]
    split
    case isTrue hi =>
      have hparts : buff.bytes = buff.bytes.take i ++ [buff.bytes[i]] ++ buff.bytes.drop (i + 1) := by
        rw [append_assoc, singleton_append, ← drop_eq_getElem_cons hi, take_append_drop]
      have hload := Block.load_byte hparts
      rw [length_take_of_le (Nat.le_of_lt hi)] at hload
      rw [hload, bind_eq_bind, bind_some, drop_eq_getElem_cons hi, parseLoop]
      by_cases htop : buff.bytes[i] &&& 0x80 = 0
      · exact (if_pos htop).trans (congrArg some (if_pos htop).symm)
      · exact (if_neg htop).trans ((ih _ _ _).trans (congrArg some (if_neg htop).symm))
    case isFalse hi =>
      rw [drop_eq_nil_of_le (Nat.not_lt.mp hi)]
      rfl

theorem parseScalableIntegerAt_eq (buff : Block) (outValue : UInt64) : parseScalableIntegerAt buff outValue =
    match parseScalableInteger buff.bytes with
    | none => some (0, outValue)
    | some (readBytes, parsed) => parsed.map fun value => (readBytes, value) := by
  rw [parseScalableIntegerAt, parseLoopAt_eq, parseScalableInteger, drop_zero]
  cases parseLoop 11 1 0 buff.bytes with
  | none => rfl
  | some result =>
    obtain ⟨readBytes, readValue⟩ := result
    dsimp only [map_some, bind_eq_bind, bind_some]
    cases minValueTbl[readBytes]? <;> rfl

def InRange (n : Nat) (value : UInt64) : Prop :=
  minValueTbl.getD n 0 ≤ value ∧ (n < 10 → value ≤ maxValueTbl.getD n 0)

theorem needBytes_mono (h : value ≤ value') : needBytes value ≤ needBytes value' := by
  obtain ⟨-, hle, -, hbefore⟩ := needBytes_spec value
  obtain ⟨hpos', -, hmax', -⟩ := needBytes_spec value'
  by_contra hlt
  have hfits := hmax' (by omega)
  have hbelow := hbefore (needBytes value') hpos' (by omega)
  exact UInt64.not_lt.mpr (UInt64.le_trans h hfits) hbelow

theorem parseScalableIntegerAt_code (h : buff.bytes = dumpedBytes value ++ rest) :
    parseScalableIntegerAt buff outValue = some ((dumpedBytes value).length, value) := by
  rw [parseScalableIntegerAt_eq, h, parse_dumpedBytes, length_dumpedBytes]
  rfl

theorem parseScalableIntegerAt_cut (hcut : buff.bytes <+: dumpedBytes value) (hne : buff.bytes ≠ dumpedBytes value) :
    parseScalableIntegerAt buff outValue = some (0, outValue) := by
  obtain ⟨front, last, hcode, hfront, -⟩ := exists_dumpedBytes value
  rw [hcode] at hcut hne
  have hbytes : buff.bytes <+: front := (prefix_concat_iff.mp hcut).resolve_left hne
  have hcontinued : Continued buff.bytes := fun byte hbyte => hfront byte (hbytes.subset hbyte)
  rw [parseScalableIntegerAt_eq, parseScalableInteger, parseLoop_continued hcontinued]
  rfl

theorem dumpedBytes_prefix (h : dumpedBytes value <+: dumpedBytes value') : value = value' := by
  obtain ⟨rest, hrest⟩ := h
  have hparse := parse_dumpedBytes value rest
  have hparse' := parse_dumpedBytes value' []
  rw [append_nil, ← hrest, hparse] at hparse'
  exact some.inj (Prod.mk.inj (some.inj hparse')).2

def parseValues : Nat → Block → Option (List UInt64)
  | 0, _ => none
  | rounds + 1, buff =>
    if buff.bytes = [] then some []
    else do
      let (readBytes, value) ← parseScalableIntegerAt buff 0
      if readBytes = 0 then none
      else do
        let values ← parseValues rounds (buff.part readBytes (buff.bytes.length - readBytes))
        return value :: values

/-- Every value takes a byte at least, so there are no more rounds than bytes. -/
def parseAll (buff : Block) : Option (List UInt64) := parseValues (buff.bytes.length + 1) buff

theorem length_le_flatMap_dumpedBytes (values : List UInt64) : values.length ≤ (values.flatMap dumpedBytes).length := by
  induction values with
  | nil => exact le_rfl
  | cons value values ih =>
    have hpos := (needBytes_spec value).1
    rw [flatMap_cons, length_append, length_dumpedBytes, length_cons]
    omega

theorem parseValues_codes (h : buff.bytes = values.flatMap dumpedBytes) (hrounds : values.length < rounds) :
    parseValues rounds buff = some values := by
  induction values generalizing buff rounds with
  | nil =>
    obtain ⟨rounds, rfl⟩ := Nat.exists_eq_succ_of_ne_zero (Nat.ne_of_gt hrounds)
    exact if_pos h
  | cons value values ih =>
    obtain ⟨rounds, rfl⟩ := Nat.exists_eq_succ_of_ne_zero (Nat.ne_of_gt (Nat.zero_lt_of_lt hrounds))
    rw [flatMap_cons] at h
    have hpos : 0 < (dumpedBytes value).length := by
      rw [length_dumpedBytes]
      exact (needBytes_spec value).1
    have hne : buff.bytes ≠ [] := by
      intro hnil
      rw [h, append_eq_nil_iff] at hnil
      exact (ne_nil_of_length_pos hpos) hnil.1
    have hrest : (buff.part (dumpedBytes value).length (buff.bytes.length - (dumpedBytes value).length)).bytes =
        values.flatMap dumpedBytes := by
      change (buff.bytes.drop _).take _ = _
      rw [h, length_append, Nat.add_sub_cancel_left, drop_left, take_length]
    rw [parseValues, if_neg hne, parseScalableIntegerAt_code h]
    dsimp only [bind_eq_bind, bind_some]
    rw [if_neg (Nat.ne_of_gt hpos), ih hrest (Nat.lt_of_succ_lt_succ hrounds)]
    rfl

/-- What the two functions do with a value and its code. -/
structure Coded (value : UInt64) (code : Bytes) : Prop where
  length_pos : 1 ≤ code.length
  length_le : code.length ≤ 10
  inRange : InRange code.length value
  least : ∀ n, 1 ≤ n → n < code.length → maxValueTbl.getD n 0 < value
  short : ∀ buff : Block, buff.bytes.length < code.length → dumpScalableIntegerTo value buff = some (0, buff)
  fits : ∀ buff : Block, code.length ≤ buff.bytes.length → ∃ buff', dumpScalableIntegerTo value buff =
    some (code.length, buff') ∧ buff'.bytes = code ++ buff.bytes.drop code.length
  parsed : ∀ (buff : Block) (rest : Bytes) (outValue : UInt64), buff.bytes = code ++ rest →
    parseScalableIntegerAt buff outValue = some (code.length, value)
  cut : ∀ (buff : Block) (outValue : UInt64), buff.bytes <+: code → buff.bytes ≠ code →
    parseScalableIntegerAt buff outValue = some (0, outValue)

theorem coded_dumpedBytes (value : UInt64) : Coded value (dumpedBytes value) where
  length_pos := by
    rw [length_dumpedBytes]
    exact (needBytes_spec value).1
  length_le := by
    rw [length_dumpedBytes]
    exact (needBytes_spec value).2.1
  inRange := by
    rw [length_dumpedBytes]
    exact ⟨(storeValue_lt value).1, (needBytes_spec value).2.2.1⟩
  least := by
    rw [length_dumpedBytes]
    exact (needBytes_spec value).2.2.2
  short _ h := dumpScalableIntegerTo_short h
  fits _ h := dumpScalableIntegerTo_fits h
  parsed _ _ _ h := parseScalableIntegerAt_code h
  cut _ _ hcut hne := parseScalableIntegerAt_cut hcut hne

/-- **Codes are read as they were written**, alone, before anything else and one behind the other. -/
theorem scalableIntegers_roundTrip :
    (∀ value, Coded value (dumpedBytes value)) ∧
      (∀ value value', value ≤ value' → (dumpedBytes value).length ≤ (dumpedBytes value').length) ∧
      (∀ value value', dumpedBytes value <+: dumpedBytes value' → value = value') ∧
      ∀ (values : List UInt64) (buff : Block), buff.bytes = values.flatMap dumpedBytes →
        parseAll buff = some values := by
  refine ⟨coded_dumpedBytes, fun value value' h => ?_, fun _ _ h => dumpedBytes_prefix h, fun values buff h => ?_⟩
  · rw [length_dumpedBytes, length_dumpedBytes]
    exact needBytes_mono h
  · exact parseValues_codes h (Nat.lt_succ_of_le (h ▸ length_le_flatMap_dumpedBytes values))

theorem groupsValue_lt (number : Nat) (bytes : Bytes) :
    groupsValue number bytes < (number + 1) * 128 ^ bytes.length := by
  induction bytes generalizing number with
  | nil => exact Nat.lt_of_lt_of_le (Nat.lt_succ_self _) (Nat.le_mul_of_pos_right _ Nat.one_pos)
  | cons byte bytes ih =>
    have hbyte : number * 128 + byte.toNat % 128 + 1 ≤ (number + 1) * 128 := by omega
    calc groupsValue (number * 128 + byte.toNat % 128) bytes
        < (number * 128 + byte.toNat % 128 + 1) * 128 ^ bytes.length := ih _
      _ ≤ (number + 1) * 128 * 128 ^ bytes.length := Nat.mul_le_mul_right _ hbyte
      _ = (number + 1) * 128 ^ (byte :: bytes).length := by rw [length_cons, Nat.pow_succ', Nat.mul_assoc]

theorem eq_of_groupsValue_eq (hfront : Continued front) (hfront' : Continued front') (hlast : last.toNat < 128)
    (hlast' : last'.toNat < 128) (hlength : front.length = front'.length)
    (h : groupsValue number (front ++ [last]) = groupsValue number' (front' ++ [last'])) :
    number = number' ∧ front = front' ∧ last = last' := by
  induction front generalizing front' number number' with
  | nil =>
    obtain rfl := length_eq_zero_iff.mp hlength.symm
    have hgroups : number * 128 + last.toNat % 128 = number' * 128 + last'.toNat % 128 := h
    exact ⟨by omega, rfl, UInt8.toNat_inj.mp (by omega)⟩
  | cons byte front ih =>
    obtain ⟨byte', front', rfl⟩ := exists_cons_of_length_eq_add_one hlength.symm
    obtain ⟨hbyte, hfront⟩ := forall_mem_cons.mp hfront
    obtain ⟨hbyte', hfront'⟩ := forall_mem_cons.mp hfront'
    obtain ⟨hnumber, rfl, rfl⟩ := ih hfront hfront' (Nat.succ.inj hlength) h
    have hgroups : number * 128 + byte.toNat % 128 = number' * 128 + byte'.toNat % 128 := hnumber
    have hlt := byte.toNat_lt
    have hlt' := byte'.toNat_lt
    have hsame : byte = byte' := UInt8.toNat_inj.mp (by omega)
    exact ⟨by omega, by rw [hsame], rfl⟩

theorem groupsValue_storeBytes (number pos : Nat) (storeValue : UInt64) (stored : Bytes) :
    groupsValue number (storeBytes pos storeValue stored) =
      groupsValue (number * 128 ^ pos + storeValue.toNat % 128 ^ pos) stored := by
  induction pos generalizing storeValue stored with
  | zero =>
    rw [storeBytes, Nat.pow_zero, Nat.mod_one, Nat.mul_one]
    rfl
  | succ pos ih =>
    rw [storeBytes, ih]
    change groupsValue (_ * 128 + _ % 128) stored = _
    rw [toNat_continued, toNat_shiftRight_seven, shifted_succ, Nat.add_mod_left, Nat.mod_mod]

theorem toNat_eq_groupsValue (value : UInt64) : value.toNat =
    (minValueTbl.getD (dumpedBytes value).length 0).toNat + groupsValue 0 (dumpedBytes value) := by
  obtain ⟨hpos, -, -, -⟩ := needBytes_spec value
  obtain ⟨hmin, hlt⟩ := storeValue_lt value
  rw [length_dumpedBytes, dumpedBytes_eq, groupsValue_storeBytes]
  have hsub := UInt64.toNat_sub_of_le _ _ hmin
  have hle := UInt64.le_iff_toNat_le.mp hmin
  generalize needBytes value = n at hpos hmin hlt hsub hle ⊢
  generalize hstore : value - minValueTbl.getD n 0 = storeValue at hlt hsub ⊢
  have hdiv : storeValue.toNat / 128 < 128 ^ (n - 1) := by
    have hpow : 128 ^ n = 128 ^ (n - 1) * 128 := by
      rw [← Nat.pow_succ, Nat.succ_eq_add_one, Nat.sub_add_cancel hpos]
    exact (Nat.div_lt_iff_lt_mul (by decide)).mpr (hpow ▸ hlt)
  have hgroups : groupsValue (0 * 128 ^ (n - 1) + (storeValue >>> 7).toNat % 128 ^ (n - 1))
      [(0x7f &&& storeValue).toUInt8] = storeValue.toNat / 128 * 128 + storeValue.toNat % 128 % 128 := by
    rw [toNat_shiftRight_seven, Nat.mod_eq_of_lt hdiv, UInt64.and_comm, Nat.zero_mul, Nat.zero_add]
    change _ * 128 + (storeValue &&& 0x7f).toUInt8.toNat % 128 = _
    rw [toNat_low]
  rw [hgroups]
  omega

theorem maxValueTbl_lt : ∀ n < 11, ∀ m < n, 0 < m → maxValueTbl.getD m 0 < minValueTbl.getD n 0 := by
  decide

theorem needBytes_eq_of_inRange (hpos : 0 < n) (hle : n ≤ 10) (h : InRange n value) : needBytes value = n := by
  obtain ⟨hneed, -, hmax, hbefore⟩ := needBytes_spec value
  rcases Nat.lt_trichotomy (needBytes value) n with hlt | heq | hgt
  · have hbelow := maxValueTbl_lt n (by omega) (needBytes value) hlt hneed
    have hvalue := UInt64.le_trans h.1 (hmax (by omega))
    exact absurd hbelow (UInt64.not_lt.mpr hvalue)
  · exact heq
  · have hten : n < 10 := hgt.trans_le (needBytes_spec value).2.1
    exact absurd (hbefore n hpos hgt) (UInt64.not_lt.mpr (h.2 hten))

def continuedBytes (bytes : Bytes) : Nat := (bytes.takeWhile fun byte => 128 ≤ byte.toNat).length

/-- If there is an end: not ten bytes come before it, and with nine the ten groups fit in a word. -/
def Fits (bytes : Bytes) : Prop :=
  continuedBytes bytes < bytes.length → continuedBytes bytes ≠ 10 ∧
    (continuedBytes bytes = 9 → k10ByteMin.toNat + groupsValue 0 (bytes.take 10) < 2 ^ 64)

/-- Nothing is read outside of the string or the table, and what is read is the code of the value. -/
def Canonical (buff : Block) : Prop :=
  ∀ outValue, ∃ n value, parseScalableIntegerAt buff outValue = some (n, value) ∧
    n ≤ buff.bytes.length ∧ n ≤ 10 ∧ (0 < n →
      value.toNat = (minValueTbl.getD n 0).toNat + groupsValue 0 (buff.bytes.take n) ∧
        ∀ dest : Block, n ≤ dest.bytes.length → ∃ dest', dumpScalableIntegerTo value dest = some (n, dest') ∧
          dest'.bytes = buff.bytes.take n ++ dest.bytes.drop n)

theorem continued_or_ended (bytes : Bytes) : (Continued bytes ∧ continuedBytes bytes = bytes.length) ∨
    ∃ front last rest, bytes = front ++ last :: rest ∧ Continued front ∧ last.toNat < 128 ∧
      continuedBytes bytes = front.length ∧ front.length < bytes.length := by
  have hfront : Continued (bytes.takeWhile fun byte => 128 ≤ byte.toNat) :=
    fun byte hbyte => by simpa using (List.all_eq_true.mp all_takeWhile) byte hbyte
  have hparts : (bytes.takeWhile fun byte => 128 ≤ byte.toNat) ++ (bytes.dropWhile fun byte => 128 ≤ byte.toNat) =
      bytes := takeWhile_append_dropWhile
  cases hdrop : bytes.dropWhile fun byte => 128 ≤ byte.toNat with
  | nil =>
    rw [hdrop, append_nil] at hparts
    exact .inl ⟨hparts ▸ hfront, congrArg List.length hparts⟩
  | cons last rest =>
    have hlast := List.head?_dropWhile_not (fun byte : UInt8 => decide (128 ≤ byte.toNat)) bytes
    rw [hdrop] at hlast hparts
    refine .inr ⟨_, last, rest, hparts.symm, hfront, Nat.not_le.mp (of_decide_eq_false hlast), rfl, ?_⟩
    have hlength := congrArg List.length hparts
    rw [length_append, length_cons] at hlength
    omega

theorem dumpedBytes_of_groups (hfront : Continued front) (hlast : last.toNat < 128) (hle : front.length < 10)
    (hvalue : value.toNat = (minValueTbl.getD (front.length + 1) 0).toNat + groupsValue 0 (front ++ [last])) :
    dumpedBytes value = front ++ [last] := by
  have hbound := groupsValue_lt 0 (front ++ [last])
  rw [length_append, length_singleton, Nat.zero_add, Nat.one_mul] at hbound
  have hinRange : InRange (front.length + 1) value := by
    refine ⟨UInt64.le_iff_toNat_le.mpr (by omega), fun hlt => UInt64.le_iff_toNat_le.mpr ?_⟩
    have hmax := maxValueTbl_eq front.length (by omega)
    omega
  have hneed := needBytes_eq_of_inRange (Nat.succ_pos _) hle hinRange
  have hgroups := toNat_eq_groupsValue value
  obtain ⟨front', last', hcode, hfront', hlast'⟩ := exists_dumpedBytes value
  have hlength := length_dumpedBytes value
  rw [hcode, length_append, length_singleton, hneed] at hlength
  rw [hcode, length_append, length_singleton, hlength] at hgroups
  obtain ⟨-, rfl, rfl⟩ := eq_of_groupsValue_eq hfront' hfront hlast' hlast (Nat.succ.inj hlength)
    (Nat.add_left_cancel (hgroups.symm.trans hvalue))
  exact hcode

theorem parseScalableIntegerAt_continued (h : Continued buff.bytes) :
    parseScalableIntegerAt buff outValue = some (0, outValue) := by
  rw [parseScalableIntegerAt_eq, parseScalableInteger, parseLoop_continued h]
  rfl

theorem parseScalableIntegerAt_ended (hbytes : buff.bytes = front ++ last :: rest) (hfront : Continued front)
    (hlast : last.toNat < 128) : parseScalableIntegerAt buff outValue =
      if front.length < 11 then
        minValueTbl[front.length + 1]?.map fun minValue =>
          (front.length + 1, minValue + UInt64.ofNat (groupsValue 0 (front ++ [last])))
      else some (0, outValue) := by
  rw [parseScalableIntegerAt_eq, hbytes, parseScalableInteger, parseLoop_ended hfront hlast, Nat.add_comm 1]
  by_cases hrounds : front.length < 11
  · rw [if_pos hrounds, if_pos hrounds, map_some]
    exact Option.map_map ..
  · rw [if_neg hrounds, if_neg hrounds]
    rfl

theorem groupsValue_word (hle : bytes.length ≤ 9) (hpos : 0 < bytes.length) :
    (minValueTbl.getD bytes.length 0).toNat + groupsValue 0 bytes < 2 ^ 64 := by
  have hbound := groupsValue_lt 0 bytes
  rw [Nat.zero_add, Nat.one_mul] at hbound
  obtain ⟨n, hn⟩ := Nat.exists_eq_add_of_lt hpos
  rw [Nat.zero_add] at hn
  rw [hn] at hbound ⊢
  have hmax := maxValueTbl_eq n (by omega)
  have hword := (maxValueTbl.getD (n + 1) 0).toNat_lt
  omega

theorem parseScalableIntegerAt_short (outValue : UInt64) (hbytes : buff.bytes = front ++ last :: rest)
    (hfront : Continued front) (hlast : last.toNat < 128) (hle : front.length < 10) : ∃ value,
      parseScalableIntegerAt buff outValue = some (front.length + 1, value) ∧
        ((minValueTbl.getD (front.length + 1) 0).toNat + groupsValue 0 (front ++ [last]) < 2 ^ 64 →
          value.toNat = (minValueTbl.getD (front.length + 1) 0).toNat + groupsValue 0 (front ++ [last])) := by
  have hlength : front.length + 1 < minValueTbl.length := Nat.succ_lt_succ hle
  refine ⟨minValueTbl.getD (front.length + 1) 0 + UInt64.ofNat (groupsValue 0 (front ++ [last])), ?_, fun hlt => ?_⟩
  · rw [parseScalableIntegerAt_ended hbytes hfront hlast, if_pos (by omega), getElem?_eq_getElem hlength,
      getD_eq_getElem _ _ hlength]
    rfl
  · rw [UInt64.toNat_add, UInt64.toNat_ofNat', Nat.add_mod_mod, Nat.mod_eq_of_lt hlt]

theorem take_ended (hbytes : bytes = front ++ last :: rest) : bytes.take (front.length + 1) = front ++ [last] := by
  rw [hbytes, append_cons, take_left' (by rw [length_append, length_singleton])]

theorem fits_iff_word (hbytes : bytes = front ++ last :: rest) (hlength : continuedBytes bytes = front.length)
    (hle : front.length < 10) : Fits bytes ↔
      (minValueTbl.getD (front.length + 1) 0).toNat + groupsValue 0 (front ++ [last]) < 2 ^ 64 := by
  have htake := take_ended hbytes
  have hlt : front.length < bytes.length := by
    rw [hbytes, length_append, length_cons]
    omega
  rw [Fits, hlength]
  constructor
  · intro hfits
    by_cases hnine : front.length = 9
    · have hword := (hfits hlt).2 hnine
      rw [hnine] at htake
      rwa [hnine, ← htake]
    have hnine' : (front ++ [last]).length ≤ 9 := by
      rw [length_append, length_singleton]
      omega
    have hword := groupsValue_word hnine' (by simp)
    rwa [length_append] at hword
  · refine fun hword _ => ⟨Nat.ne_of_lt hle, fun hnine => ?_⟩
    rw [hnine] at htake hword
    rwa [htake]

theorem canonical_iff_word (hbytes : buff.bytes = front ++ last :: rest) (hfront : Continued front)
    (hlast : last.toNat < 128) (hle : front.length < 10) : Canonical buff ↔
      (minValueTbl.getD (front.length + 1) 0).toNat + groupsValue 0 (front ++ [last]) < 2 ^ 64 := by
  have htake := take_ended hbytes
  constructor
  · intro hcanonical
    obtain ⟨n, value, hparse, -, -, hvalue⟩ := hcanonical 0
    obtain ⟨parsed, hparsed, -⟩ := parseScalableIntegerAt_short 0 hbytes hfront hlast hle
    obtain ⟨rfl, rfl⟩ := Prod.mk.inj (some.inj (hparse.symm.trans hparsed))
    have hnumber := (hvalue (Nat.succ_pos _)).1
    rw [htake] at hnumber
    exact hnumber ▸ value.toNat_lt
  · intro hword outValue
    obtain ⟨value, hparse, hvalue⟩ := parseScalableIntegerAt_short outValue hbytes hfront hlast hle
    have hcode := dumpedBytes_of_groups hfront hlast hle (hvalue hword)
    have hinside : front.length + 1 ≤ buff.bytes.length := by
      rw [hbytes, length_append, length_cons]
      omega
    refine ⟨_, value, hparse, hinside, hle, fun _ => ⟨htake ▸ hvalue hword, fun dest hdest => ?_⟩⟩
    have hdumped : (dumpedBytes value).length = front.length + 1 := by
      rw [hcode, length_append, length_singleton]
    obtain ⟨dest', hdump, hbytes'⟩ := dumpScalableIntegerTo_fits (hdumped.le.trans hdest)
    rw [hdumped] at hdump hbytes'
    rw [htake]
    exact ⟨dest', hdump, hcode ▸ hbytes'⟩

theorem canonical_of_refused (h : ∀ outValue, parseScalableIntegerAt buff outValue = some (0, outValue)) :
    Canonical buff := by
  intro outValue
  refine ⟨0, outValue, h outValue, Nat.zero_le _, Nat.zero_le _, fun hpos => ?_⟩
  exact absurd hpos (Nat.lt_irrefl 0)

theorem canonical_iff_fits (buff : Block) : Canonical buff ↔ Fits buff.bytes := by
  rcases continued_or_ended buff.bytes with
    ⟨hcontinued, hlength⟩ | ⟨front, last, rest, hbytes, hfront, hlast, hlength, hlt⟩
  · refine iff_of_true (canonical_of_refused fun outValue => ?_) fun hlt => absurd hlength (Nat.ne_of_lt hlt)
    exact parseScalableIntegerAt_continued hcontinued
  rcases Nat.lt_trichotomy front.length 10 with hshort | hten | hlong
  · rw [canonical_iff_word hbytes hfront hlast hshort, fits_iff_word hbytes hlength hshort]
  · -- the eleventh byte ends the number, and there is no eleventh length
    rw [Fits, hlength]
    refine iff_of_false (fun hcanonical => ?_) fun hfits => (hfits hlt).1 hten
    obtain ⟨n, value, hparse, -⟩ := hcanonical 0
    rw [parseScalableIntegerAt_ended hbytes hfront hlast, hten] at hparse
    cases hparse
  · rw [Fits, hlength]
    refine iff_of_true (canonical_of_refused fun outValue => ?_) fun _ => ⟨by omega, by omega⟩
    rw [parseScalableIntegerAt_ended hbytes hfront hlast, if_neg (by omega)]

theorem take_eq_dumpedBytes (hfits : Fits buff.bytes) (h : parseScalableIntegerAt buff outValue = some (n, value))
    (hpos : 0 < n) : buff.bytes.take n = dumpedBytes value := by
  obtain ⟨n', value', hparse, hle, -, hcode⟩ := (canonical_iff_fits buff).mpr hfits outValue
  obtain ⟨rfl, rfl⟩ := Prod.mk.inj (some.inj (hparse.symm.trans h))
  obtain ⟨dest, hdump, hbytes⟩ := (hcode hpos).2 buff hle
  rw [take_append_drop] at hbytes
  have hroom : (dumpedBytes value').length ≤ buff.bytes.length := by
    by_contra hshort
    rw [dumpScalableIntegerTo_short (Nat.not_le.mp hshort)] at hdump
    exact absurd (Prod.mk.inj (some.inj hdump)).1 (Nat.ne_of_lt hpos)
  obtain ⟨dest', hdump', hbytes'⟩ := dumpScalableIntegerTo_fits hroom
  obtain ⟨hlength, rfl⟩ := Prod.mk.inj (some.inj (hdump'.symm.trans hdump))
  rw [← hbytes, hbytes', ← hlength, take_left]

/-- **The strings that are read well**, and no two of them hold the same value. -/
theorem canonical_exactly (buff : Block) : (Canonical buff ↔ Fits buff.bytes) ∧
    ∀ (buff' : Block) (outValue outValue' value : UInt64) (n n' : Nat), Fits buff.bytes → Fits buff'.bytes →
      parseScalableIntegerAt buff outValue = some (n, value) → 0 < n →
      parseScalableIntegerAt buff' outValue' = some (n', value) → 0 < n' →
      buff.bytes.take n = buff'.bytes.take n' := by
  refine ⟨canonical_iff_fits buff, fun buff' outValue outValue' value n n' hfits hfits' h hpos h' hpos' => ?_⟩
  rw [take_eq_dumpedBytes hfits h hpos, take_eq_dumpedBytes hfits' h' hpos']

theorem canonical_twoBytes : Canonical ⟨[0x81, 0], by decide⟩ ∧ ([0x81, 0, 7] : Bytes).take 2 = [0x81, 0] :=
  have hfits : ∀ bytes ∈ [[0x81, 0], [0x81, 0, 7]], Fits bytes := by
    unfold Fits
    decide
  ⟨(canonical_exactly ⟨[0x81, 0], by decide⟩).1.mpr (hfits _ (by decide)),
    (canonical_exactly ⟨[0x81, 0, 7], by decide⟩).2 ⟨[0x81, 0], by decide⟩ 0 0 256 2 2 (hfits _ (by decide))
      (hfits _ (by decide)) (by decide) (by decide) (by decide) (by decide)⟩

/-- Ten continued bytes and an end: nothing stands in the table at 11. The greatest number of ten bytes is one of nine
once it has gone around. -/
theorem tenContinued_not_canonical :
    parseScalableIntegerAt ⟨List.replicate 10 0x80 ++ [0], by decide⟩ 0 = none ∧
      parseScalableIntegerAt ⟨List.replicate 9 0xFF ++ [0x7F], by decide⟩ 0 = some (10, k9ByteMax) ∧
      needBytes k9ByteMax = 9 ∧ ¬∀ buff : Block, Canonical buff := by
  refine ⟨by decide, by decide, by decide, fun hcanonical => ?_⟩
  obtain ⟨n, value, hparse, -⟩ := hcanonical ⟨List.replicate 10 0x80 ++ [0], by decide⟩ 0
  have hnone : parseScalableIntegerAt ⟨List.replicate 10 0x80 ++ [0], by decide⟩ 0 = none := by decide
  exact nomatch hnone.symm.trans hparse

end Tbox.Util
