import Tbox.Lib.StdString

/-!
# AES

`crypto/aes.cpp`: one block under a key of 16 bytes. A state is four rows of four bytes.
-/

namespace Tbox.Crypto

open Tbox.Lib (Bytes)

/-- `uint8_t state[4][4]`, row by row. -/
abbrev Square := Vector (Vector UInt8 4) 4

/-- `uint8_t[16]` -/
abbrev Block16 := Vector UInt8 16

def Square.build (f : Fin 4 → Fin 4 → UInt8) : Square := .ofFn fun r => .ofFn fun c => f r c

/-- `state[r][c]` -/
def Square.get (state : Square) (r c : Fin 4) : UInt8 := state[r][c]

def sbox : Bytes :=
  [0x63, 0x7c, 0x77, 0x7b, 0xf2, 0x6b, 0x6f, 0xc5, 0x30, 0x01, 0x67, 0x2b, 0xfe, 0xd7, 0xab, 0x76,
   0xca, 0x82, 0xc9, 0x7d, 0xfa, 0x59, 0x47, 0xf0, 0xad, 0xd4, 0xa2, 0xaf, 0x9c, 0xa4, 0x72, 0xc0,
   0xb7, 0xfd, 0x93, 0x26, 0x36, 0x3f, 0xf7, 0xcc, 0x34, 0xa5, 0xe5, 0xf1, 0x71, 0xd8, 0x31, 0x15,
   0x04, 0xc7, 0x23, 0xc3, 0x18, 0x96, 0x05, 0x9a, 0x07, 0x12, 0x80, 0xe2, 0xeb, 0x27, 0xb2, 0x75,
   0x09, 0x83, 0x2c, 0x1a, 0x1b, 0x6e, 0x5a, 0xa0, 0x52, 0x3b, 0xd6, 0xb3, 0x29, 0xe3, 0x2f, 0x84,
   0x53, 0xd1, 0x00, 0xed, 0x20, 0xfc, 0xb1, 0x5b, 0x6a, 0xcb, 0xbe, 0x39, 0x4a, 0x4c, 0x58, 0xcf,
   0xd0, 0xef, 0xaa, 0xfb, 0x43, 0x4d, 0x33, 0x85, 0x45, 0xf9, 0x02, 0x7f, 0x50, 0x3c, 0x9f, 0xa8,
   0x51, 0xa3, 0x40, 0x8f, 0x92, 0x9d, 0x38, 0xf5, 0xbc, 0xb6, 0xda, 0x21, 0x10, 0xff, 0xf3, 0xd2,
   0xcd, 0x0c, 0x13, 0xec, 0x5f, 0x97, 0x44, 0x17, 0xc4, 0xa7, 0x7e, 0x3d, 0x64, 0x5d, 0x19, 0x73,
   0x60, 0x81, 0x4f, 0xdc, 0x22, 0x2a, 0x90, 0x88, 0x46, 0xee, 0xb8, 0x14, 0xde, 0x5e, 0x0b, 0xdb,
   0xe0, 0x32, 0x3a, 0x0a, 0x49, 0x06, 0x24, 0x5c, 0xc2, 0xd3, 0xac, 0x62, 0x91, 0x95, 0xe4, 0x79,
   0xe7, 0xc8, 0x37, 0x6d, 0x8d, 0xd5, 0x4e, 0xa9, 0x6c, 0x56, 0xf4, 0xea, 0x65, 0x7a, 0xae, 0x08,
   0xba, 0x78, 0x25, 0x2e, 0x1c, 0xa6, 0xb4, 0xc6, 0xe8, 0xdd, 0x74, 0x1f, 0x4b, 0xbd, 0x8b, 0x8a,
   0x70, 0x3e, 0xb5, 0x66, 0x48, 0x03, 0xf6, 0x0e, 0x61, 0x35, 0x57, 0xb9, 0x86, 0xc1, 0x1d, 0x9e,
   0xe1, 0xf8, 0x98, 0x11, 0x69, 0xd9, 0x8e, 0x94, 0x9b, 0x1e, 0x87, 0xe9, 0xce, 0x55, 0x28, 0xdf,
   0x8c, 0xa1, 0x89, 0x0d, 0xbf, 0xe6, 0x42, 0x68, 0x41, 0x99, 0x2d, 0x0f, 0xb0, 0x54, 0xbb, 0x16]

def invSbox : Bytes :=
  [0x52, 0x09, 0x6a, 0xd5, 0x30, 0x36, 0xa5, 0x38, 0xbf, 0x40, 0xa3, 0x9e, 0x81, 0xf3, 0xd7, 0xfb,
   0x7c, 0xe3, 0x39, 0x82, 0x9b, 0x2f, 0xff, 0x87, 0x34, 0x8e, 0x43, 0x44, 0xc4, 0xde, 0xe9, 0xcb,
   0x54, 0x7b, 0x94, 0x32, 0xa6, 0xc2, 0x23, 0x3d, 0xee, 0x4c, 0x95, 0x0b, 0x42, 0xfa, 0xc3, 0x4e,
   0x08, 0x2e, 0xa1, 0x66, 0x28, 0xd9, 0x24, 0xb2, 0x76, 0x5b, 0xa2, 0x49, 0x6d, 0x8b, 0xd1, 0x25,
   0x72, 0xf8, 0xf6, 0x64, 0x86, 0x68, 0x98, 0x16, 0xd4, 0xa4, 0x5c, 0xcc, 0x5d, 0x65, 0xb6, 0x92,
   0x6c, 0x70, 0x48, 0x50, 0xfd, 0xed, 0xb9, 0xda, 0x5e, 0x15, 0x46, 0x57, 0xa7, 0x8d, 0x9d, 0x84,
   0x90, 0xd8, 0xab, 0x00, 0x8c, 0xbc, 0xd3, 0x0a, 0xf7, 0xe4, 0x58, 0x05, 0xb8, 0xb3, 0x45, 0x06,
   0xd0, 0x2c, 0x1e, 0x8f, 0xca, 0x3f, 0x0f, 0x02, 0xc1, 0xaf, 0xbd, 0x03, 0x01, 0x13, 0x8a, 0x6b,
   0x3a, 0x91, 0x11, 0x41, 0x4f, 0x67, 0xdc, 0xea, 0x97, 0xf2, 0xcf, 0xce, 0xf0, 0xb4, 0xe6, 0x73,
   0x96, 0xac, 0x74, 0x22, 0xe7, 0xad, 0x35, 0x85, 0xe2, 0xf9, 0x37, 0xe8, 0x1c, 0x75, 0xdf, 0x6e,
   0x47, 0xf1, 0x1a, 0x71, 0x1d, 0x29, 0xc5, 0x89, 0x6f, 0xb7, 0x62, 0x0e, 0xaa, 0x18, 0xbe, 0x1b,
   0xfc, 0x56, 0x3e, 0x4b, 0xc6, 0xd2, 0x79, 0x20, 0x9a, 0xdb, 0xc0, 0xfe, 0x78, 0xcd, 0x5a, 0xf4,
   0x1f, 0xdd, 0xa8, 0x33, 0x88, 0x07, 0xc7, 0x31, 0xb1, 0x12, 0x10, 0x59, 0x27, 0x80, 0xec, 0x5f,
   0x60, 0x51, 0x7f, 0xa9, 0x19, 0xb5, 0x4a, 0x0d, 0x2d, 0xe5, 0x7a, 0x9f, 0x93, 0xc9, 0x9c, 0xef,
   0xa0, 0xe0, 0x3b, 0x4d, 0xae, 0x2a, 0xf5, 0xb0, 0xc8, 0xeb, 0xbb, 0x3c, 0x83, 0x53, 0x99, 0x61,
   0x17, 0x2b, 0x04, 0x7e, 0xba, 0x77, 0xd6, 0x26, 0xe1, 0x69, 0x14, 0x63, 0x55, 0x21, 0x0c, 0x7d]

/-- `bw[i]` out of `bw[i - 1]` -/
def doubled (b : UInt8) : UInt8 := if b &&& 0x80 ≠ 0 then (b <<< 1) ^^^ 0x1b else b <<< 1

/-- Only the four low bits of `a` count. -/
def ffMul (a b : UInt8) : UInt8 :=
  let bw1 := doubled b
  let bw2 := doubled bw1
  let bw3 := doubled bw2
  let res := if (a >>> 0) &&& 0x01 ≠ 0 then 0 ^^^ b else 0
  let res := if (a >>> 1) &&& 0x01 ≠ 0 then res ^^^ bw1 else res
  let res := if (a >>> 2) &&& 0x01 ≠ 0 then res ^^^ bw2 else res
  if (a >>> 3) &&& 0x01 ≠ 0 then res ^^^ bw3 else res

def subBytes (state : Square) : Square := .build fun r c => sbox.getD (state.get r c).toNat 0

/-- An index in `Fin 4` is taken modulo 4. -/
def shiftRows (state : Square) : Square :=
  .build fun r c => if 1 ≤ r then state.get r (c + r) else state.get r c

def mixColumns (state : Square) : Square :=
  .build fun r c => ffMul 0x02 (state.get r c) ^^^ ffMul 0x03 (state.get (r + 1) c) ^^^
    ffMul 0x01 (state.get (r + 2) c) ^^^ ffMul 0x01 (state.get (r + 3) c)

def addRoundKey (state k : Square) : Square := .build fun r c => state.get r c ^^^ k.get r c

def invSubBytes (state : Square) : Square := .build fun r c => invSbox.getD (state.get r c).toNat 0

def invShiftRows (state : Square) : Square :=
  .build fun r c => if 1 ≤ r then state.get r (c - r + 4) else state.get r c

def invMixColumns (state : Square) : Square :=
  .build fun r c => ffMul 0x0e (state.get r c) ^^^ ffMul 0x0b (state.get (r + 1) c) ^^^
    ffMul 0x0d (state.get (r + 2) c) ^^^ ffMul 0x09 (state.get (r + 3) c)

/-- `w[i]` out of `w[i - 1]`, with `rc[i - 1]`. The column that goes before the first one has been turned by a row. -/
def nextRoundKey (last : Square) (rc : UInt8) : Square :=
  let t : Fin 4 → UInt8 := fun r =>
    let substituted := sbox.getD (last.get (r + 1) 3).toNat 0
    if r = 0 then substituted ^^^ rc else substituted
  let column0 : Vector UInt8 4 := .ofFn fun r => last.get r 0 ^^^ t r
  let column1 : Vector UInt8 4 := .ofFn fun r => last.get r 1 ^^^ column0[r]
  let column2 : Vector UInt8 4 := .ofFn fun r => last.get r 2 ^^^ column1[r]
  let column3 : Vector UInt8 4 := .ofFn fun r => last.get r 3 ^^^ column2[r]
  .build fun r j => #v[column0, column1, column2, column3][j][r]

structure AES where
  w : List Square
  length_w : w.length = 11

namespace AES

def keyExpansion (key : Block16) : AES where
  w := List.scanl nextRoundKey (.build fun r c => key[r.val + c.val * 4])
    [0x01, 0x02, 0x04, 0x08, 0x10, 0x20, 0x40, 0x80, 0x1b, 0x36]
  length_w := by simp

/-- `w[i]`; no index goes beyond 10. -/
def roundKey (aes : AES) (i : Nat) : Square := aes.w.getD i (.build fun _ _ => 0)

def load (input : Block16) : Square := .build fun r c => input[c.val * 4 + r.val]

/-- `output[c * 4 + r] = state[r][c]` -/
def save (state : Square) : Block16 := .ofFn fun i => state.get (.ofNat 4 (i.val % 4)) (.ofNat 4 (i.val / 4))

/-- The body of the loop of `cipher`. -/
def round (aes : AES) (state : Square) (i : Nat) : Square :=
  let state := shiftRows (subBytes state)
  addRoundKey (if i ≠ 10 then mixColumns state else state) (aes.roundKey i)

def cipher (aes : AES) (input : Block16) : Block16 :=
  save ((List.range' 1 10).foldl aes.round (addRoundKey (load input) (aes.roundKey 0)))

/-- The body of the loop of `invcipher`. -/
def invRound (aes : AES) (state : Square) (i : Nat) : Square :=
  let state := addRoundKey (invSubBytes (invShiftRows state)) (aes.roundKey i)
  if i ≠ 0 then invMixColumns state else state

def invcipher (aes : AES) (input : Block16) : Block16 :=
  save ((List.range 10).reverse.foldl aes.invRound (addRoundKey (load input) (aes.roundKey 10)))

end AES

end Tbox.Crypto
