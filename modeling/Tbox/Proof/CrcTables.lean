import Tbox.Lib.ShiftRegister
import Tbox.Util.Crc

/-!
# The tables do what eight shifts do

A checksum of the code is that of a shift register with the polynomial, which is given the bits of the message one by
one.
-/

open List

namespace Tbox.Util

open Lib (Bytes ShiftRegister)

def highBitFirst (byte : UInt8) : List Bool := (List.range 8).map byte.toBitVec.getMsbD

def lowBitFirst (byte : UInt8) : List Bool := (List.range 8).map byte.toBitVec.getLsbD

/-- CRC-16/CCITT. -/
def ccitt16 : ShiftRegister 16 := .msbFirst 0x1021

/-- CRC-32-IEEE 802.3, with the bits of the polynomial reversed. -/
def ieee32 : ShiftRegister 32 := .lsbFirst 0xEDB88320

theorem ccitt16Table_eq (byte : UInt8) :
    (ccitt16Table.getD byte.toNat 0).toBitVec = ccitt16.run 0 (highBitFirst byte) := by
  have hall : ∀ n < 256, (ccitt16Table.getD n 0).toBitVec =
      ccitt16.run 0 ((List.range 8).map (BitVec.ofNat 8 n).getMsbD) := by
    decide +kernel
  have hentry := hall byte.toNat byte.toNat_lt
  rwa [BitVec.ofNat_uInt8ToNat] at hentry

theorem crc32Table_eq (byte : UInt8) : (crc32Table.getD byte.toNat 0).toBitVec = ieee32.run 0 (lowBitFirst byte) := by
  have hall : ∀ n < 256, (crc32Table.getD n 0).toBitVec =
      ieee32.run 0 ((List.range 8).map (BitVec.ofNat 8 n).getLsbD) := by
    decide +kernel
  have hentry := hall byte.toNat byte.toNat_lt
  rwa [BitVec.ofNat_uInt8ToNat] at hentry

theorem xor_and_byte (n : Nat) (byte : UInt8) : (n ^^^ byte.toNat) &&& 0xff = n % 256 ^^^ byte.toNat := by
  have hbyte : byte.toNat % 2 ^ 8 = byte.toNat := Nat.mod_eq_of_lt byte.toNat_lt
  rw [show 0xff = 2 ^ 8 - 1 from rfl, Nat.and_two_pow_sub_one_eq_mod, Nat.xor_mod_two_pow, hbyte]

theorem crc16Next_eq (crc : UInt16) (byte : UInt8) :
    (crc16Next crc byte).toBitVec = ccitt16.run crc.toBitVec (highBitFirst byte) := by
  -- the byte that is looked up
  have hindex : (((crc >>> 8) ^^^ byte.toUInt16) &&& 0xff).toNat = ((crc >>> 8).toUInt8 ^^^ byte).toNat := by
    simpa using xor_and_byte (crc.toNat >>> 8) byte
  -- its bits are those that the register compares
  have hbits : List.zipWith xor (highBitFirst byte) (ccitt16.outs crc.toBitVec 8) =
      highBitFirst ((crc >>> 8).toUInt8 ^^^ byte) := by
    rw [ccitt16, ShiftRegister.msbFirst_outs, highBitFirst, zipWith_map, zipWith_self, highBitFirst]
    refine map_congr_left fun i hi => ?_
    have hlt : i < 8 := mem_range.mp hi
    have hfrom : 8 + (7 - i) = 15 - i := by omega
    have hword : i < 16 := by omega
    have hlow : 7 - i < 8 := by omega
    simp [BitVec.getMsbD, hlt, hword, hlow, hfrom, Bool.xor_comm]
  have hrun := ccitt16.run_eq crc.toBitVec (highBitFirst byte)
  rw [show (highBitFirst byte).length = 8 from rfl, hbits, ← ccitt16Table_eq, ccitt16,
    ShiftRegister.msbFirst_shift] at hrun
  rw [crc16Next, hindex, UInt16.toBitVec_xor, ccitt16, hrun]
  rfl

theorem crc32Next_eq (crc : UInt32) (byte : UInt8) :
    (crc32Next crc byte).toBitVec = ieee32.run crc.toBitVec (lowBitFirst byte) := by
  have hindex : ((crc ^^^ byte.toUInt32) &&& 0xff).toNat = (crc.toUInt8 ^^^ byte).toNat := by
    simpa using xor_and_byte crc.toNat byte
  have hbits : List.zipWith xor (lowBitFirst byte) (ieee32.outs crc.toBitVec 8) =
      lowBitFirst (crc.toUInt8 ^^^ byte) := by
    rw [ieee32, ShiftRegister.lsbFirst_outs, lowBitFirst, zipWith_map, zipWith_self, lowBitFirst]
    refine map_congr_left fun i hi => ?_
    have hlt : i < 8 := mem_range.mp hi
    simp [hlt, Bool.xor_comm]
  have hrun := ieee32.run_eq crc.toBitVec (lowBitFirst byte)
  rw [show (lowBitFirst byte).length = 8 from rfl, hbits, ← crc32Table_eq, ieee32,
    ShiftRegister.lsbFirst_shift] at hrun
  rw [crc32Next, hindex, UInt32.toBitVec_xor, ieee32, hrun]
  rfl

theorem foldl_crc16Next (data : Bytes) (seed : UInt16) :
    (data.foldl crc16Next seed).toBitVec = ccitt16.run seed.toBitVec (data.flatMap highBitFirst) := by
  induction data generalizing seed with
  | nil => rfl
  | cons byte data ih =>
    rw [foldl_cons, ih, crc16Next_eq, flatMap_cons, ShiftRegister.run_append]

theorem foldl_crc32Next (data : Bytes) (seed : UInt32) :
    (data.foldl crc32Next seed).toBitVec = ieee32.run seed.toBitVec (data.flatMap lowBitFirst) := by
  induction data generalizing seed with
  | nil => rfl
  | cons byte data ih =>
    rw [foldl_cons, ih, crc32Next_eq, flatMap_cons, ShiftRegister.run_append]

/-- **The checksums are those of the bits**, and a message can be taken in parts. -/
theorem checksums_bitwise (a b : Bytes) (seed16 : UInt16) (seed32 : UInt32) :
    (calcCrc16 a seed16).toBitVec = ccitt16.run seed16.toBitVec (a.flatMap highBitFirst) ∧
    (calcCrc32 a seed32).toBitVec = ~~~ieee32.run seed32.toBitVec (a.flatMap lowBitFirst) ∧
    calcCrc16 (a ++ b) seed16 = calcCrc16 b (calcCrc16 a seed16) ∧
    calcCrc32 (a ++ b) seed32 = calcCrc32 b (~~~calcCrc32 a seed32) := by
  refine ⟨foldl_crc16Next a seed16, ?_, List.foldl_append, ?_⟩
  · rw [calcCrc32, UInt32.toBitVec_not, foldl_crc32Next]
  · rw [calcCrc32, calcCrc32, calcCrc32, UInt32.not_not, List.foldl_append]

example : calcCrc32 [0x31, 0x32, 0x33, 0x34, 0x35, 0x36, 0x37, 0x38, 0x39] 0xffffffff = 0xcbf43926 := by
  decide +kernel

end Tbox.Util
