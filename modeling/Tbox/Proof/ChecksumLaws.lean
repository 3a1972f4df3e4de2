import Tbox.Lib.EndAround
import Tbox.Lib.Rounds
import Tbox.Util.Checksum

/-!
# The laws of Internet checksums

The accumulator is the sum with its carries added back. It stays in its lower half, so no addition overflows, and one
round of the inner loop is enough each time.
-/

open List Option

namespace Tbox.Util

open Tbox.Lib

variable {h : Nat} {high low acc n : BitVec (h + h)} {data data' : Bytes}

structure Masks (high low : BitVec (h + h)) : Prop where
  pos : 0 < h
  high : high.toNat = (2 ^ h - 1) <<< h
  low : low.toNat = 2 ^ h - 1

theorem masks8 : Masks (h := 8) 0xff00 0xff := ⟨by decide, by decide, by decide⟩

theorem masks16 : Masks (h := 16) 0xffff0000 0x0000ffff := ⟨by decide, by decide, by decide⟩

theorem Masks.and_low (hm : Masks high low) : (acc &&& low).toNat = acc.toNat % 2 ^ h := by
  rw [BitVec.toNat_and, hm.low, Nat.and_two_pow_sub_one_eq_mod]

theorem Masks.and_high (hm : Masks high low) : acc &&& high = 0 ↔ acc.toNat < 2 ^ h := by
  rw [← BitVec.toNat_inj, BitVec.toNat_and, hm.high]
  have hlt : acc.toNat / 2 ^ h < 2 ^ h := Nat.div_lt_of_lt_mul (by rw [← pow_add]; exact acc.isLt)
  constructor
  · intro hand
    have hshift : (acc.toNat &&& (2 ^ h - 1) <<< h) >>> h = 0 := by
      rw [hand]
      exact Nat.zero_shiftRight h
    rw [Nat.shiftRight_and_distrib, Nat.shiftLeft_shiftRight, Nat.and_two_pow_sub_one_eq_mod,
      Nat.shiftRight_eq_div_pow, Nat.mod_eq_of_lt hlt] at hshift
    exact (Nat.div_eq_zero_iff_lt (Nat.two_pow_pos h)).mp hshift
  · intro hacc
    refine Nat.eq_of_testBit_eq fun i => ?_
    rw [Nat.testBit_and, Nat.testBit_shiftLeft]
    by_cases hi : h ≤ i
    · have hbit : acc.toNat.testBit i = false :=
        Nat.testBit_lt_two_pow (hacc.trans_le (Nat.pow_le_pow_right Nat.zero_lt_two hi))
      simp [hbit]
    · simp [hi]

theorem addChecked_eq (acc n : BitVec (h + h)) (hsum : acc.toNat + n.toNat < 2 ^ (h + h)) :
    addChecked acc n = some (acc + n) ∧ (acc + n).toNat = acc.toNat + n.toNat :=
  ⟨if_pos hsum, BitVec.toNat_add_of_lt hsum⟩

theorem foldLoop_gives (hm : Masks high low) (hacc : acc.toNat < 2 ^ h) :
    Gives (fun rounds => foldLoop high low h rounds acc) acc :=
  .of_succ rfl (fun _ => if_neg (not_not.mpr (hm.and_high.mpr hacc))) (gives_of_eq fun _ => rfl)

/-- **The addition with what follows it** puts the carry back. -/
theorem addFolded_gives (hm : Masks high low) (hacc : acc.toNat ≤ 2 ^ h - 1) (hn : n.toNat ≤ 2 ^ h - 1) :
    ∃ acc', acc'.toNat = endAround (2 ^ h - 1) acc.toNat n.toNat ∧
      Gives (fun rounds => addFolded high low h rounds acc n) acc' := by
  have hpos := Nat.two_pow_pos h
  have hdouble : 2 ^ h + 2 ^ h ≤ 2 ^ (h + h) := by
    rw [← Nat.two_mul, pow_add]
    exact Nat.mul_le_mul_right _ (Nat.le_pow hm.pos)
  obtain ⟨hsum, hvalue⟩ := addChecked_eq acc n (by omega)
  simp only [addFolded, hsum, bind_some]
  by_cases hle : acc.toNat + n.toNat ≤ 2 ^ h - 1
  · refine ⟨acc + n, ?_, foldLoop_gives hm (by omega)⟩
    rw [endAround, if_pos hle, hvalue]
  -- the carry is 1, and the lower half is what exceeds it
  have hlow : ((acc + n) &&& low).toNat = acc.toNat + n.toNat - 2 ^ h := by
    rw [hm.and_low, hvalue, Nat.mod_eq_sub_mod (by omega), Nat.mod_eq_of_lt (by omega)]
  have hcarry : ((acc + n) >>> h).toNat = 1 := by
    rw [BitVec.toNat_ushiftRight, hvalue, Nat.shiftRight_eq_div_pow]
    exact Nat.div_eq_of_lt_le (by omega) (by omega)
  obtain ⟨hfold, hfolded⟩ := addChecked_eq ((acc + n) &&& low) ((acc + n) >>> h) (by omega)
  have hround : ∀ rounds, foldLoop high low h (rounds + 1) (acc + n)
      = foldLoop high low h rounds (((acc + n) &&& low) + (acc + n) >>> h) := by
    intro rounds
    rw [foldLoop, if_pos (fun hzero => hle (by have := hm.and_high.mp hzero; omega)), hfold, bind_some]
  refine ⟨_, ?_, .of_succ rfl hround (foldLoop_gives hm (by omega))⟩
  rw [endAround, if_neg hle]
  omega

theorem toNat_byte (byte : UInt8) : (byte.toBitVec.setWidth 16).toNat = byte.toNat := by
  rw [BitVec.toNat_setWidth, UInt8.toNat_toBitVec, Nat.mod_eq_of_lt (byte.toNat_lt.trans (by decide))]

theorem sumBytes_gives (data : Bytes) {acc : BitVec 16} (hacc : acc.toNat ≤ 0xff) :
    ∃ acc', acc'.toNat = (data.map UInt8.toNat).foldl (endAround 0xff) acc.toNat ∧
      Gives (fun rounds => sumBytes rounds acc data) acc' := by
  induction data generalizing acc with
  | nil => exact ⟨acc, rfl, gives_of_eq fun _ => rfl⟩
  | cons byte bytes ih =>
    have hbyte : (byte.toBitVec.setWidth 16).toNat ≤ 0xff := by
      rw [toNat_byte]
      exact Nat.le_of_lt_succ byte.toNat_lt
    obtain ⟨next, hnext, hfirst⟩ := addFolded_gives masks8 hacc hbyte
    have hnextLe : next.toNat ≤ 0xff := hnext ▸ endAround_le hacc hbyte
    obtain ⟨acc', hacc', hrest⟩ := ih hnextLe
    refine ⟨acc', ?_, hfirst.bind hrest⟩
    rw [hacc', hnext, toNat_byte]
    rfl

/-- The numbers that `CalcCheckSum16` adds: two bytes each, the higher one first. An odd byte is the higher one. -/
def wordsOf : Bytes → List Nat
  | first :: second :: bytes => (first.toNat * 2 ^ 8 + second.toNat) :: wordsOf bytes
  | [last] => [last.toNat * 2 ^ 8]
  | [] => []

theorem toNat_highByte (byte : UInt8) : (byte.toBitVec.setWidth 32 <<< 8).toNat = byte.toNat * 2 ^ 8 := by
  have hlt := byte.toNat_lt
  rw [BitVec.toNat_shiftLeft, BitVec.toNat_setWidth, UInt8.toNat_toBitVec, Nat.shiftLeft_eq,
    Nat.mod_eq_of_lt (b := 2 ^ 32) (by omega), Nat.mod_eq_of_lt (by omega)]

theorem toNat_word (first second : UInt8) : (first.toBitVec.setWidth 32 <<< 8 ||| second.toBitVec.setWidth 32).toNat
      = first.toNat * 2 ^ 8 + second.toNat := by
  have hlt := second.toNat_lt
  rw [BitVec.toNat_or, toNat_highByte, BitVec.toNat_setWidth, UInt8.toNat_toBitVec, Nat.mod_eq_of_lt (by omega),
    ← Nat.shiftLeft_eq, Nat.shiftLeft_add_eq_or_of_lt hlt]

theorem le_of_mem_wordsOf (data : Bytes) : ∀ x ∈ wordsOf data, x ≤ 0xffff := by
  fun_induction wordsOf data with
  | case1 first second bytes ih =>
    have hfirst := first.toNat_lt
    have hsecond := second.toNat_lt
    exact forall_mem_cons.mpr ⟨by omega, ih⟩
  | case2 last =>
    have hlast := last.toNat_lt
    exact forall_mem_singleton.mpr (by omega)
  | case3 => exact forall_mem_nil _

theorem sumWords_gives (data : Bytes) {acc : BitVec 32} (hacc : acc.toNat ≤ 0xffff) :
    ∃ acc', acc'.toNat = (wordsOf data).foldl (endAround 0xffff) acc.toNat ∧
      Gives (fun rounds => sumWords rounds acc data) acc' := by
  fun_induction wordsOf data generalizing acc with
  | case1 first second bytes ih =>
    have hword : (first.toBitVec.setWidth 32 <<< 8 ||| second.toBitVec.setWidth 32).toNat ≤ 0xffff := by
      have hfirst := first.toNat_lt
      have hsecond := second.toNat_lt
      rw [toNat_word]
      omega
    obtain ⟨next, hnext, hfirst⟩ := addFolded_gives masks16 hacc hword
    have hnextLe : next.toNat ≤ 0xffff := hnext ▸ endAround_le hacc hword
    obtain ⟨acc', hacc', hrest⟩ := ih hnextLe
    refine ⟨acc', ?_, hfirst.bind hrest⟩
    rw [hacc', hnext, toNat_word]
    rfl
  | case2 last =>
    have hword : (last.toBitVec.setWidth 32 <<< 8).toNat ≤ 0xffff := by
      have hlast := last.toNat_lt
      rw [toNat_highByte]
      omega
    obtain ⟨acc', hacc', hlast⟩ := addFolded_gives masks16 hacc hword
    refine ⟨acc', ?_, hlast⟩
    rw [hacc', toNat_highByte]
    rfl
  | case3 => exact ⟨acc, rfl, gives_of_eq fun _ => rfl⟩

theorem calcCheckSum8_gives (data : Bytes) : Gives (fun rounds => calcCheckSum8 rounds data)
      (~~~UInt8.ofNat (endAroundSum 0xff (data.map UInt8.toNat))) := by
  have hzero : (0 : BitVec 16).toNat ≤ 0xff := by decide
  obtain ⟨acc, hacc, hgives⟩ := sumBytes_gives data hzero
  have hsum : UInt8.ofBitVec (acc.setWidth 8) = UInt8.ofNat (endAroundSum 0xff (data.map UInt8.toNat)) := by
    rw [← UInt8.toNat_inj, UInt8.toNat_ofBitVec, BitVec.toNat_setWidth, hacc, UInt8.toNat_ofNat']
    rfl
  rw [← hsum]
  exact hgives.bind (gives_of_eq fun _ => rfl)

theorem calcCheckSum16_gives (data : Bytes) :
    Gives (fun rounds => calcCheckSum16 rounds data) (~~~UInt16.ofNat (endAroundSum 0xffff (wordsOf data))) := by
  have hzero : (0 : BitVec 32).toNat ≤ 0xffff := by decide
  obtain ⟨acc, hacc, hgives⟩ := sumWords_gives data hzero
  have hsum : UInt16.ofBitVec (acc.setWidth 16) = UInt16.ofNat (endAroundSum 0xffff (wordsOf data)) := by
    rw [← UInt16.toNat_inj, UInt16.toNat_ofBitVec, BitVec.toNat_setWidth, hacc, UInt16.toNat_ofNat']
    rfl
  rw [← hsum]
  exact hgives.bind (gives_of_eq fun _ => rfl)

theorem le_of_mem_bytes (data : Bytes) : ∀ x ∈ data.map UInt8.toNat, x ≤ 0xff := by
  rw [List.forall_mem_map]
  exact fun byte _ => Nat.le_of_lt_succ byte.toNat_lt

theorem wordsOf_append (high low : UInt8) (heven : data.length % 2 = 0) :
    wordsOf (data ++ [high, low]) = wordsOf data ++ [high.toNat * 2 ^ 8 + low.toNat] := by
  fun_induction wordsOf data with
  | case1 first second bytes ih =>
    rw [cons_append, cons_append, wordsOf, ih ?_, cons_append]
    rw [length_cons, length_cons] at heven
    omega
  | case2 last => cases heven
  | case3 => rfl

/-- **Checksums verify**: they are the complement of the sum with its carries added back, whatever the order, and with
the checksum behind it a text has the checksum 0. -/
theorem checkSums_verify :
    (∀ data : Bytes, Gives (fun rounds => calcCheckSum8 rounds data)
        (~~~UInt8.ofNat (endAroundSum 0xff (data.map UInt8.toNat))) ∧
      (∀ data' sum, data'.Perm data → Gives (fun rounds => calcCheckSum8 rounds data) sum →
        Gives (fun rounds => calcCheckSum8 rounds data') sum) ∧
      ∀ sum, Gives (fun rounds => calcCheckSum8 rounds data) sum →
        Gives (fun rounds => calcCheckSum8 rounds (data ++ [sum])) 0) ∧
    ∀ data : Bytes,
      Gives (fun rounds => calcCheckSum16 rounds data) (~~~UInt16.ofNat (endAroundSum 0xffff (wordsOf data))) ∧
      (∀ data' sum, (wordsOf data').Perm (wordsOf data) → Gives (fun rounds => calcCheckSum16 rounds data) sum →
        Gives (fun rounds => calcCheckSum16 rounds data') sum) ∧
      ∀ sum, data.length % 2 = 0 → Gives (fun rounds => calcCheckSum16 rounds data) sum →
        Gives (fun rounds => calcCheckSum16 rounds (data ++ [(sum >>> 8).toUInt8, sum.toUInt8])) 0 := by
  refine ⟨fun data => ⟨calcCheckSum8_gives data, fun data' sum hperm hsum => ?_, fun sum hsum => ?_⟩,
    fun data => ⟨calcCheckSum16_gives data, fun data' sum hperm hsum => ?_, fun sum heven hsum => ?_⟩⟩
  · have hsame := endAroundSum_perm (by decide) (le_of_mem_bytes data) (hperm.map UInt8.toNat)
    rw [hsum.unique (calcCheckSum8_gives data), ← hsame]
    exact calcCheckSum8_gives data'
  · have hle := endAroundSum_le (m := 0xff) (by decide) (le_of_mem_bytes data)
    have hcomplement : sum.toNat = 0xff - endAroundSum 0xff (data.map UInt8.toNat) := by
      rw [hsum.unique (calcCheckSum8_gives data), UInt8.toNat_not, UInt8.toNat_ofNat_of_lt' (Nat.lt_succ_of_le hle)]
      rfl
    have hall := endAroundSum_complement (m := 0xff) (by decide) (le_of_mem_bytes data)
    have hgives := calcCheckSum8_gives (data ++ [sum])
    rw [List.map_append, List.map_singleton, hcomplement, hall] at hgives
    exact hgives
  · have hsame := endAroundSum_perm (by decide) (le_of_mem_wordsOf data) hperm
    rw [hsum.unique (calcCheckSum16_gives data), ← hsame]
    exact calcCheckSum16_gives data'
  · have hle := endAroundSum_le (m := 0xffff) (by decide) (le_of_mem_wordsOf data)
    have hcomplement : sum.toNat = 0xffff - endAroundSum 0xffff (wordsOf data) := by
      rw [hsum.unique (calcCheckSum16_gives data), UInt16.toNat_not, UInt16.toNat_ofNat_of_lt' (Nat.lt_succ_of_le hle)]
      rfl
    have hword : (sum >>> 8).toUInt8.toNat * 2 ^ 8 + sum.toUInt8.toNat = sum.toNat := by
      have hlt := sum.toNat_lt
      have hshift : (8 : UInt16).toNat % 16 = 8 := by decide
      rw [UInt16.toNat_toUInt8, UInt16.toNat_toUInt8, UInt16.toNat_shiftRight, hshift, Nat.shiftRight_eq_div_pow]
      omega
    have hall := endAroundSum_complement (m := 0xffff) (by decide) (le_of_mem_wordsOf data)
    have hgives := calcCheckSum16_gives (data ++ [(sum >>> 8).toUInt8, sum.toUInt8])
    rw [wordsOf_append _ _ heven, hword, hcomplement, hall] at hgives
    exact hgives

example : calcCheckSum16 2 [0x11, 0xff, 0xfe, 0xee, 0x34, 0xde, 0x01] = some 0xb933 := by decide

end Tbox.Util
