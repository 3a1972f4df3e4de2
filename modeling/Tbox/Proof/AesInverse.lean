import Mathlib.Data.Fintype.EquivFin
import Mathlib.Data.Fintype.Pi
import Mathlib.Tactic.FinCases
import Tbox.Crypto.Aes

/-!
# Deciphering undoes enciphering

Each layer has its inverse, whatever the round keys are. What a round of the inverse cipher is given is a state of the
cipher that has been substituted and shifted.
-/

namespace Tbox.Crypto

variable {state k : Square} {x y : UInt8}

@[simp]
theorem Square.get_build (f : Fin 4 → Fin 4 → UInt8) (r c : Fin 4) : (build f).get r c = f r c := by
  simp [build, get]

theorem Square.ext {s t : Square} (h : ∀ r c, s.get r c = t.get r c) : s = t := by
  apply Vector.ext
  intro r hr
  apply Vector.ext
  intro c hc
  exact h ⟨r, hr⟩ ⟨c, hc⟩

theorem forall_byte {p : UInt8 → Prop} (h : ∀ n < 256, p (.ofNat n)) (x : UInt8) : p x := by
  have hx := h x.toNat x.toNat_lt
  rwa [UInt8.ofNat_toNat] at hx

theorem invSbox_sbox : ∀ x : UInt8, invSbox.getD (sbox.getD x.toNat 0).toNat 0 = x := forall_byte (by decide +kernel)

theorem high_bit_cases : ∀ x : UInt8, x &&& 0x80 = 0 ∨ x &&& 0x80 = 0x80 := forall_byte (by decide +kernel)

def carried (b : UInt8) : UInt8 := if b &&& 0x80 = 0 then 0 else 0x1b

theorem doubled_eq (b : UInt8) : doubled b = b <<< 1 ^^^ carried b := by
  rw [doubled, carried]
  split_ifs <;> simp_all

theorem carried_xor (x y : UInt8) : carried (x ^^^ y) = carried x ^^^ carried y := by
  have hhigh : (x ^^^ y) &&& 0x80 = (x &&& 0x80) ^^^ (y &&& 0x80) := by
    apply UInt8.toBitVec_inj.mp
    ext i hi
    simp [Bool.and_xor_distrib_right]
  rw [carried, carried, carried, hhigh]
  obtain hx | hx := high_bit_cases x <;> obtain hy | hy := high_bit_cases y <;> rw [hx, hy] <;> rfl

theorem doubled_xor (x y : UInt8) : doubled (x ^^^ y) = doubled x ^^^ doubled y := by
  have hshift : (x ^^^ y) <<< 1 = x <<< 1 ^^^ y <<< 1 :=
    UInt8.toBitVec_inj.mp (BitVec.shiftLeft_xor_distrib x.toBitVec y.toBitVec 1)
  rw [doubled_eq, doubled_eq, doubled_eq, hshift, carried_xor]
  ac_rfl

theorem ffMul_xor (a x y : UInt8) : ffMul a (x ^^^ y) = ffMul a x ^^^ ffMul a y := by
  simp only [ffMul, doubled_xor]
  split_ifs <;> simp <;> ac_rfl

theorem products : ∀ x : UInt8,
    ffMul 0x0e (ffMul 0x02 x) ^^^ ffMul 0x0b (ffMul 0x01 x) ^^^ ffMul 0x0d (ffMul 0x01 x) ^^^
      ffMul 0x09 (ffMul 0x03 x) = x ∧
    ffMul 0x0e (ffMul 0x03 x) ^^^ ffMul 0x0b (ffMul 0x02 x) ^^^ ffMul 0x0d (ffMul 0x01 x) ^^^
      ffMul 0x09 (ffMul 0x01 x) = 0 ∧
    ffMul 0x0e (ffMul 0x01 x) ^^^ ffMul 0x0b (ffMul 0x03 x) ^^^ ffMul 0x0d (ffMul 0x02 x) ^^^
      ffMul 0x09 (ffMul 0x01 x) = 0 ∧
    ffMul 0x0e (ffMul 0x01 x) ^^^ ffMul 0x0b (ffMul 0x01 x) ^^^ ffMul 0x0d (ffMul 0x03 x) ^^^
      ffMul 0x09 (ffMul 0x02 x) = 0 :=
  forall_byte (by decide +kernel)

theorem column_restored (x y z v : UInt8) :
    ffMul 0x0e (ffMul 0x02 x ^^^ ffMul 0x03 y ^^^ ffMul 0x01 z ^^^ ffMul 0x01 v) ^^^
      ffMul 0x0b (ffMul 0x02 y ^^^ ffMul 0x03 z ^^^ ffMul 0x01 v ^^^ ffMul 0x01 x) ^^^
      ffMul 0x0d (ffMul 0x02 z ^^^ ffMul 0x03 v ^^^ ffMul 0x01 x ^^^ ffMul 0x01 y) ^^^
      ffMul 0x09 (ffMul 0x02 v ^^^ ffMul 0x03 x ^^^ ffMul 0x01 y ^^^ ffMul 0x01 z) = x := by
  obtain ⟨hx, -⟩ := products x
  obtain ⟨-, hy, -⟩ := products y
  obtain ⟨-, -, hz, -⟩ := products z
  obtain ⟨-, -, -, hv⟩ := products v
  simp only [ffMul_xor]
  calc _ = (ffMul 0x0e (ffMul 0x02 x) ^^^ ffMul 0x0b (ffMul 0x01 x) ^^^ ffMul 0x0d (ffMul 0x01 x) ^^^
          ffMul 0x09 (ffMul 0x03 x)) ^^^
        (ffMul 0x0e (ffMul 0x03 y) ^^^ ffMul 0x0b (ffMul 0x02 y) ^^^ ffMul 0x0d (ffMul 0x01 y) ^^^
          ffMul 0x09 (ffMul 0x01 y)) ^^^
        (ffMul 0x0e (ffMul 0x01 z) ^^^ ffMul 0x0b (ffMul 0x03 z) ^^^ ffMul 0x0d (ffMul 0x02 z) ^^^
          ffMul 0x09 (ffMul 0x01 z)) ^^^
        (ffMul 0x0e (ffMul 0x01 v) ^^^ ffMul 0x0b (ffMul 0x01 v) ^^^ ffMul 0x0d (ffMul 0x03 v) ^^^
          ffMul 0x09 (ffMul 0x02 v)) := by ac_rfl
    _ = x := by rw [hx, hy, hz, hv, UInt8.xor_zero, UInt8.xor_zero, UInt8.xor_zero]

theorem invSubBytes_subBytes (state : Square) : invSubBytes (subBytes state) = state :=
  Square.ext fun r c => by simp only [invSubBytes, subBytes, Square.get_build, invSbox_sbox]

theorem invShiftRows_shiftRows (state : Square) : invShiftRows (shiftRows state) = state := by
  refine Square.ext fun r c => ?_
  have hback : c - r + 4 + r = c := by
    revert r c
    decide
  simp only [invShiftRows, shiftRows, Square.get_build, hback]
  split_ifs <;> rfl

theorem invMixColumns_mixColumns (state : Square) : invMixColumns (mixColumns state) = state := by
  refine Square.ext fun r c => ?_
  have hrows : r + 1 + 1 = r + 2 ∧ r + 1 + 2 = r + 3 ∧ r + 1 + 3 = r ∧ r + 2 + 1 = r + 3 ∧ r + 2 + 2 = r ∧
      r + 2 + 3 = r + 1 ∧ r + 3 + 1 = r ∧ r + 3 + 2 = r + 1 ∧ r + 3 + 3 = r + 2 := by
    revert r
    decide
  obtain ⟨h₁, h₂, h₃, h₄, h₅, h₆, h₇, h₈, h₉⟩ := hrows
  simp only [invMixColumns, mixColumns, Square.get_build, h₁, h₂, h₃, h₄, h₅, h₆, h₇, h₈, h₉]
  exact column_restored _ _ _ _

theorem addRoundKey_addRoundKey (state k : Square) : addRoundKey (addRoundKey state k) k = state :=
  Square.ext fun r c => by
    simp only [addRoundKey, Square.get_build, UInt8.xor_assoc, UInt8.xor_self, UInt8.xor_zero]

namespace AES

variable (aes : AES)

theorem load_save (state : Square) : load (save state) = state := by
  refine Square.ext fun r c => ?_
  rw [load, Square.get_build, save, Vector.getElem_ofFn]
  congr 1 <;> revert r c <;> decide

theorem save_load (block : Block16) : save (load block) = block := by
  apply Vector.ext
  intro i hi
  rw [save, Vector.getElem_ofFn, load, Square.get_build]
  have hindex : i / 4 % 4 * 4 + i % 4 % 4 = i := by omega
  simp only [Fin.val_ofNat, hindex]

/-- The state before the first round, and after so many. -/
def rounds (state : Square) (n : Nat) : Square :=
  (List.range' 1 n).foldl aes.round (addRoundKey state (aes.roundKey 0))

theorem rounds_succ (state : Square) (n : Nat) : aes.rounds state (n + 1) = aes.round (aes.rounds state n) (n + 1) := by
  rw [rounds, List.range'_1_concat, List.foldl_append, Nat.add_comm 1 n]
  rfl

theorem invRound_round {i : Nat} (hlast : i + 1 ≠ 10) (state : Square) :
    aes.invRound (shiftRows (subBytes (aes.round state (i + 1)))) (i + 1) = shiftRows (subBytes state) := by
  rw [invRound, invShiftRows_shiftRows, invSubBytes_subBytes, round, if_pos hlast, addRoundKey_addRoundKey,
    if_pos (Nat.succ_ne_zero i), invMixColumns_mixColumns]

theorem foldl_invRound (state : Square) {n : Nat} (hn : n < 10) :
    (List.range (n + 1)).reverse.foldl aes.invRound (shiftRows (subBytes (aes.rounds state n))) = state := by
  induction n with
  | zero =>
    have hfirst : aes.rounds state 0 = addRoundKey state (aes.roundKey 0) := rfl
    rw [hfirst]
    simp only [Nat.zero_add, List.range_one, List.reverse_singleton, List.foldl_cons, List.foldl_nil, invRound,
      invShiftRows_shiftRows, invSubBytes_subBytes, addRoundKey_addRoundKey, ne_eq, not_true_eq_false, if_false]
  | succ n ih =>
    rw [List.range_succ, List.reverse_append, List.reverse_singleton, List.singleton_append, List.foldl_cons,
      rounds_succ, invRound_round aes (by omega)]
    exact ih (by omega)

theorem invcipher_cipher (block : Block16) : aes.invcipher (aes.cipher block) = block := by
  have hcipher : aes.cipher block =
      save (addRoundKey (shiftRows (subBytes (aes.rounds (load block) 9))) (aes.roundKey 10)) :=
    congrArg save (aes.rounds_succ (load block) 9)
  rw [hcipher, invcipher, load_save, addRoundKey_addRoundKey, foldl_invRound aes _ (by decide), save_load]

end AES

/-- **Either cipher undoes the other.** There are finitely many blocks, so one direction is enough. -/
theorem ciphers_inverse (key block : Block16) :
    (AES.keyExpansion key).invcipher ((AES.keyExpansion key).cipher block) = block ∧
      (AES.keyExpansion key).cipher ((AES.keyExpansion key).invcipher block) = block := by
  have hleft : Function.LeftInverse (AES.keyExpansion key).invcipher (AES.keyExpansion key).cipher :=
    (AES.keyExpansion key).invcipher_cipher
  have hfinite : Finite Block16 := by
    refine Finite.of_injective (fun (block : Block16) (i : Fin 16) => block[i].toFin) fun a b h => Vector.ext fun i hi => ?_
    exact UInt8.toFin_inj.mp (congrFun h ⟨i, hi⟩)
  have hsurjective := Finite.injective_iff_surjective.mp hleft.injective
  exact ⟨hleft block, hleft.rightInverse_of_surjective hsurjective block⟩

example : (AES.keyExpansion #v[0, 1, 2, 3, 4, 5, 6, 7, 8, 9, 10, 11, 12, 13, 14, 15]).cipher
    #v[0, 0x11, 0x22, 0x33, 0x44, 0x55, 0x66, 0x77, 0x88, 0x99, 0xaa, 0xbb, 0xcc, 0xdd, 0xee, 0xff] =
      #v[0x69, 0xc4, 0xe0, 0xd8, 0x6a, 0x7b, 0x04, 0x30, 0xd8, 0xcd, 0xb7, 0x80, 0x70, 0xb4, 0xc5, 0x5a] := by
  decide +kernel

end Tbox.Crypto
