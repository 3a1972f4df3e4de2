import Tbox.Lib.Memory

/-!
# MD5

`crypto/md5.cpp`. The message comes in parts; what does not fill a block of 64 bytes is kept until more comes.
-/

namespace Tbox.Crypto

open Tbox.Lib (Bytes Block)

/-- `uint32_t state_[4]` -/
structure Words where
  a : UInt32
  b : UInt32
  c : UInt32
  d : UInt32
  deriving DecidableEq, Repr

/-- `F` -/
def nonlinearF (x y z : UInt32) : UInt32 := (x &&& y) ||| (~~~x &&& z)

/-- `G` -/
def nonlinearG (x y z : UInt32) : UInt32 := (x &&& z) ||| (y &&& ~~~z)

/-- `H` -/
def nonlinearH (x y z : UInt32) : UInt32 := x ^^^ y ^^^ z

/-- `I` -/
def nonlinearI (x y z : UInt32) : UInt32 := y ^^^ (x ||| ~~~z)

def rotateLeft (x n : UInt32) : UInt32 := (x <<< n) ||| (x >>> (32 - n))

/-- What the four steps have in common: `a` afterwards. -/
def mix (nonlinear : UInt32 → UInt32 → UInt32 → UInt32) (a b c d x s ac : UInt32) : UInt32 :=
  rotateLeft (a + (nonlinear b c d + x + ac)) s + b

def ff : (a b c d x s ac : UInt32) → UInt32 := mix nonlinearF

def gg : (a b c d x s ac : UInt32) → UInt32 := mix nonlinearG

def hh : (a b c d x s ac : UInt32) → UInt32 := mix nonlinearH

def ii : (a b c d x s ac : UInt32) → UInt32 := mix nonlinearI

def encode (input : List UInt32) : Bytes :=
  input.flatMap fun (number : UInt32) =>
    [(number &&& 0xFF).toUInt8, ((number >>> 8) &&& 0xFF).toUInt8, ((number >>> 16) &&& 0xFF).toUInt8,
      ((number >>> 24) &&& 0xFF).toUInt8]

/-- `output[i]` -/
def decode (input : Bytes) (i : Nat) : UInt32 :=
  let byte j := (input.getD (4 * i + j) 0).toUInt32
  byte 0 ||| (byte 1 <<< 8) ||| (byte 2 <<< 16) ||| (byte 3 <<< 24)

def transform (state : Words) (block : Bytes) : Words :=
  let x := decode block
  let a := state.a
  let b := state.b
  let c := state.c
  let d := state.d
  -- round 1
  let a := ff a b c d (x 0) 7 0xd76aa478
  let d := ff d a b c (x 1) 12 0xe8c7b756
  let c := ff c d a b (x 2) 17 0x242070db
  let b := ff b c d a (x 3) 22 0xc1bdceee
  let a := ff a b c d (x 4) 7 0xf57c0faf
  let d := ff d a b c (x 5) 12 0x4787c62a
  let c := ff c d a b (x 6) 17 0xa8304613
  let b := ff b c d a (x 7) 22 0xfd469501
  let a := ff a b c d (x 8) 7 0x698098d8
  let d := ff d a b c (x 9) 12 0x8b44f7af
  let c := ff c d a b (x 10) 17 0xffff5bb1
  let b := ff b c d a (x 11) 22 0x895cd7be
  let a := ff a b c d (x 12) 7 0x6b901122
  let d := ff d a b c (x 13) 12 0xfd987193
  let c := ff c d a b (x 14) 17 0xa679438e
  let b := ff b c d a (x 15) 22 0x49b40821
  -- round 2
  let a := gg a b c d (x 1) 5 0xf61e2562
  let d := gg d a b c (x 6) 9 0xc040b340
  let c := gg c d a b (x 11) 14 0x265e5a51
  let b := gg b c d a (x 0) 20 0xe9b6c7aa
  let a := gg a b c d (x 5) 5 0xd62f105d
  let d := gg d a b c (x 10) 9 0x2441453
  let c := gg c d a b (x 15) 14 0xd8a1e681
  let b := gg b c d a (x 4) 20 0xe7d3fbc8
  let a := gg a b c d (x 9) 5 0x21e1cde6
  let d := gg d a b c (x 14) 9 0xc33707d6
  let c := gg c d a b (x 3) 14 0xf4d50d87
  let b := gg b c d a (x 8) 20 0x455a14ed
  let a := gg a b c d (x 13) 5 0xa9e3e905
  let d := gg d a b c (x 2) 9 0xfcefa3f8
  let c := gg c d a b (x 7) 14 0x676f02d9
  let b := gg b c d a (x 12) 20 0x8d2a4c8a
  -- round 3
  let a := hh a b c d (x 5) 4 0xfffa3942
  let d := hh d a b c (x 8) 11 0x8771f681
  let c := hh c d a b (x 11) 16 0x6d9d6122
  let b := hh b c d a (x 14) 23 0xfde5380c
  let a := hh a b c d (x 1) 4 0xa4beea44
  let d := hh d a b c (x 4) 11 0x4bdecfa9
  let c := hh c d a b (x 7) 16 0xf6bb4b60
  let b := hh b c d a (x 10) 23 0xbebfbc70
  let a := hh a b c d (x 13) 4 0x289b7ec6
  let d := hh d a b c (x 0) 11 0xeaa127fa
  let c := hh c d a b (x 3) 16 0xd4ef3085
  let b := hh b c d a (x 6) 23 0x4881d05
  let a := hh a b c d (x 9) 4 0xd9d4d039
  let d := hh d a b c (x 12) 11 0xe6db99e5
  let c := hh c d a b (x 15) 16 0x1fa27cf8
  let b := hh b c d a (x 2) 23 0xc4ac5665
  -- round 4
  let a := ii a b c d (x 0) 6 0xf4292244
  let d := ii d a b c (x 7) 10 0x432aff97
  let c := ii c d a b (x 14) 15 0xab9423a7
  let b := ii b c d a (x 5) 21 0xfc93a039
  let a := ii a b c d (x 12) 6 0x655b59c3
  let d := ii d a b c (x 3) 10 0x8f0ccc92
  let c := ii c d a b (x 10) 15 0xffeff47d
  let b := ii b c d a (x 1) 21 0x85845dd1
  let a := ii a b c d (x 8) 6 0x6fa87e4f
  let d := ii d a b c (x 15) 10 0xfe2ce6e0
  let c := ii c d a b (x 6) 15 0xa3014314
  let b := ii b c d a (x 13) 21 0x4e0811a1
  let a := ii a b c d (x 4) 6 0xf7537e82
  let d := ii d a b c (x 11) 10 0xbd3af235
  let c := ii c d a b (x 2) 15 0x2ad7d2bb
  let b := ii b c d a (x 9) 21 0xeb86d391
  { a := state.a + a, b := state.b + b, c := state.c + c, d := state.d + d }

/-- `PADDING` -/
def padding : Block := ⟨0x80 :: List.replicate 63 0, by simp⟩

/-- `Transform` is all that looks at `state_`, so that can be of any type here. -/
structure MD5 (σ : Type) where
  count0 : UInt32 := 0
  count1 : UInt32 := 0
  state : σ
  buffer : Block
  isFinished : Bool := false

namespace MD5

section Update

variable {σ : Type} (transform : σ → Bytes → σ)

/-- `for (i = partlen; i + 64 <= plain_text_len; i += 64)`, for so many rounds at most. `i` has 32 bits. -/
def transformLoop (plainText : Block) : Nat → UInt32 → σ → Option (UInt32 × σ)
  | 0, _, _ => none
  | rounds + 1, i, state =>
    if (i + 64).toUInt64 ≤ plainText.size then do
      let block ← plainText.load i.toNat 64
      transformLoop plainText rounds (i + 64) (transform state block.bytes)
    else some (i, state)

/-- Nothing is returned when an assertion fails, memory is left, or the loop has not come to its end. -/
def update (rounds : Nat) (m : MD5 σ) (plainText : Block) : Option (MD5 σ) :=
  if m.isFinished then none
  else do
    let plainTextLen := plainText.size
    let index := (m.count0 >>> 3) &&& 0x3F
    let partlen := 64 - index
    let count0 := m.count0 + (plainTextLen <<< 3).toUInt32
    let count1 := if count0.toUInt64 < plainTextLen <<< 3 then m.count1 + 1 else m.count1
    let count1 := count1 + (plainTextLen >>> 29).toUInt32
    if partlen.toUInt64 ≤ plainTextLen then do
      let part ← plainText.load 0 partlen.toNat
      let buffer ← m.buffer.store index.toNat part.bytes
      let (i, state) ← transformLoop transform plainText rounds partlen (transform m.state buffer.bytes)
      let rest ← plainText.load i.toNat (plainTextLen - i.toUInt64).toNat
      let buffer ← buffer.store 0 rest.bytes
      return { m with count0, count1, state, buffer }
    else do
      let buffer ← m.buffer.store index.toNat plainText.bytes
      return { m with count0, count1, buffer }

/-- The two updates of `finish`. -/
def pad (rounds : Nat) (m : MD5 σ) : Option (MD5 σ) := do
  let index := (m.count0 >>> 3) &&& 0x3F
  let padlen := if index < 56 then 56 - index else 120 - index
  let bits : Block := ⟨encode [m.count0, m.count1], by simp [encode]⟩
  let zeros ← padding.load 0 padlen.toNat
  let m ← m.update transform rounds zeros
  m.update transform rounds bits

end Update

/-- Nothing has been written to `buffer_` yet. -/
def start {σ : Type} (state : σ) (buffer : Vector UInt8 64) : MD5 σ where
  state := state
  buffer := ⟨buffer.toList, by simp⟩

def initial : Words := { a := 0x67452301, b := 0xEFCDAB89, c := 0x98BADCFE, d := 0x10325476 }

/-- `MD5::MD5` -/
def new (buffer : Vector UInt8 64) : MD5 Words := start initial buffer

/-- `Encode(digest, state_, 16)` -/
def digestOf (state : Words) : Bytes := encode [state.a, state.b, state.c, state.d]

def finish (rounds : Nat) (m : MD5 Words) : Option (Bytes × MD5 Words) := do
  let m ← m.pad transform rounds
  return (digestOf m.state, { m with isFinished := true })

end MD5

end Tbox.Crypto
