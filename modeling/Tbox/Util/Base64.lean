import Tbox.Lib.Memory

/-!
# Base64

`util/base64.cpp`. Each direction is there twice, over memory of the caller and over a string or vector that grows.
The two encoders differ only in where a character goes; the decoders are written differently.
-/

namespace Tbox.Util.Base64

open Tbox.Lib (Bytes Block)

def base64Pad : UInt8 := 61

def base64en : Bytes :=
  ['A', 'B', 'C', 'D', 'E', 'F', 'G', 'H',
   'I', 'J', 'K', 'L', 'M', 'N', 'O', 'P',
   'Q', 'R', 'S', 'T', 'U', 'V', 'W', 'X',
   'Y', 'Z', 'a', 'b', 'c', 'd', 'e', 'f',
   'g', 'h', 'i', 'j', 'k', 'l', 'm', 'n',
   'o', 'p', 'q', 'r', 's', 't', 'u', 'v',
   'w', 'x', 'y', 'z', '0', '1', '2', '3',
   '4', '5', '6', '7', '8', '9', '+', '/'].map fun c => c.toNat.toUInt8

def base64de : Bytes :=
  [255, 255, 255, 255, 255, 255, 255, 255,
   255, 255, 255, 255, 255, 255, 255, 255,
   255, 255, 255, 255, 255, 255, 255, 255,
   255, 255, 255, 255, 255, 255, 255, 255,
   255, 255, 255, 255, 255, 255, 255, 255,
   255, 255, 255,  62, 255, 255, 255,  63,
    52,  53,  54,  55,  56,  57,  58,  59,
    60,  61, 255, 255, 255, 255, 255, 255,
   255,   0,   1,   2,   3,   4,   5,   6,
     7,   8,   9,  10,  11,  12,  13,  14,
    15,  16,  17,  18,  19,  20,  21,  22,
    23,  24,  25, 255, 255, 255, 255, 255,
   255,  26,  27,  28,  29,  30,  31,  32,
    33,  34,  35,  36,  37,  38,  39,  40,
    41,  42,  43,  44,  45,  46,  47,  48,
    49,  50,  51, 255, 255, 255, 255, 255]

def encodeLength (plainTextLength : UInt64) : UInt64 := (plainTextLength + 2) / 3 * 4

def decodeLength (base64 : Bytes) : Nat :=
  if base64.length = 0 ∨ base64.length &&& 0x3 ≠ 0 then 0
  else
    let len := base64.length / 4 * 3
    let len := if base64[base64.length - 1]? = some base64Pad then len - 1 else len
    if base64[base64.length - 2]? = some base64Pad then len - 1 else len

structure Encoding (σ : Type) where
  s : Nat := 0
  l : UInt8 := 0
  out : σ

section Encode

variable {σ : Type} (put : UInt8 → σ → Option σ)

def putDigit (index : UInt8) (out : σ) : Option σ := (base64en[index.toNat]?).bind fun c => put c out

def Encoding.next (e : Encoding σ) (c : UInt8) : Option (Encoding σ) :=
  match e.s with
  | 0 => do
      let out ← putDigit put ((c >>> 2) &&& 0x3F) e.out
      return { s := 1, l := c, out }
  | 1 => do
      let out ← putDigit put (((e.l &&& 0x3) <<< 4) ||| ((c >>> 4) &&& 0xF)) e.out
      return { s := 2, l := c, out }
  | 2 => do
      let out ← putDigit put (((e.l &&& 0xF) <<< 2) ||| ((c >>> 6) &&& 0x3)) e.out
      let out ← putDigit put (c &&& 0x3F) out
      return { s := 0, l := c, out }
  | _ => some { e with l := c }

def Encoding.finish (e : Encoding σ) : Option σ :=
  match e.s with
  | 1 => do
      let out ← putDigit put ((e.l &&& 0x3) <<< 4) e.out
      let out ← put base64Pad out
      put base64Pad out
  | 2 => do
      let out ← putDigit put ((e.l &&& 0xF) <<< 2) e.out
      put base64Pad out
  | _ => some e.out

def encodeWith (rawData : Bytes) (out : σ) : Option σ := do
  let e ← rawData.foldlM (Encoding.next put) { out }
  e.finish put

end Encode

/-- `base64_ptr[w_pos++] = c` -/
def putAt (c : UInt8) : Block × Nat → Option (Block × Nat)
  | (block, wPos) => (block.store wPos [c]).map fun block => (block, wPos + 1)

/-- `Encode(const void *, size_t, char *, size_t)`: what is returned, and the memory afterwards. -/
def encodeTo (rawData base64 : Block) : Option (Nat × Block) :=
  if encodeLength rawData.size > base64.size then some (0, base64)
  else (encodeWith putAt rawData.bytes (base64, 0)).map fun (base64, wPos) => (wPos, base64)

/-- `Encode(const void *, size_t)` -/
def encode (rawData : Block) : Option Bytes :=
  encodeWith (fun c base64Str => some (base64Str ++ [c])) rawData.bytes []

/-- `base64de[int(c)]`; a `char` from 128 on is negative, and there is no table before the table. -/
def digitOf (c : UInt8) : Option UInt8 := base64de[c.toNat]?

/-- `out_bytes[w_pos] |= v` -/
def orAt (block : Block) (wPos : Nat) (v : UInt8) : Option Block := do
  let byte ← block.load wPos 1
  block.store wPos [byte.bytes.headD 0 ||| v]

/-- The `switch` of the buffer form. -/
def storeDigit (rPos : Nat) (v : UInt8) (block : Block) (wPos : Nat) : Option (Block × Nat) :=
  match rPos % 4 with
  | 0 => do
      let block ← block.store wPos [v <<< 2]
      return (block, wPos)
  | 1 => do
      let block ← orAt block wPos (v >>> 4)
      let block ← block.store (wPos + 1) [v <<< 4]
      return (block, wPos + 1)
  | 2 => do
      let block ← orAt block wPos (v >>> 2)
      let block ← block.store (wPos + 1) [v <<< 6]
      return (block, wPos + 1)
  | _ => do
      let block ← orAt block wPos v
      return (block, wPos + 1)

def decodeLoop : Nat → Bytes → Block → Nat → Option (Nat × Block)
  | _, [], block, wPos => some (wPos, block)
  | rPos, c :: base64, block, wPos =>
    if c = base64Pad then some (wPos, block)
    else do
      let v ← digitOf c
      if v = 255 then some (0, block)
      else do
        let (block, wPos) ← storeDigit rPos v block wPos
        decodeLoop (rPos + 1) base64 block wPos

/-- `Decode(const char *, size_t, void *, size_t)` -/
def decodeTo (base64 : Bytes) (rawData : Block) : Option (Nat × Block) :=
  if base64.length &&& 0x3 ≠ 0 then some (0, rawData)
  else if decodeLength base64 > rawData.bytes.length then some (0, rawData)
  else decodeLoop 0 base64 rawData 0

/-- The `switch` of the vector form: `tmp` and the vector. -/
def pushDigit (s v tmp : UInt8) (rawData : Bytes) : UInt8 × Bytes :=
  if s = 0 then (v <<< 2, rawData)
  else if s = 1 then (v <<< 4, rawData ++ [tmp ||| v >>> 4])
  else if s = 2 then (v <<< 6, rawData ++ [tmp ||| v >>> 2])
  else (tmp ||| v, rawData ++ [tmp ||| v])

def decodeVectorLoop (outLen : Nat) : UInt8 → UInt8 → Bytes → Bytes → Option (Nat × Bytes)
  | _, _, [], rawData => some (outLen, rawData)
  | s, tmp, c :: base64, rawData =>
    if c = base64Pad then some (outLen, rawData)
    else do
      let v ← digitOf c
      if v = 255 then some (0, rawData)
      else
        let (tmp, rawData) := pushDigit s v tmp rawData
        decodeVectorLoop outLen ((s + 1) &&& 0x03) tmp base64 rawData

/-- `Decode(const std::string &, std::vector<uint8_t> &)`: what is returned, and the vector afterwards. -/
def decode (base64Str rawData : Bytes) : Option (Nat × Bytes) :=
  let outLen := decodeLength base64Str
  if outLen = 0 then some (0, rawData)
  else decodeVectorLoop outLen 0 0 base64Str rawData

end Tbox.Util.Base64
