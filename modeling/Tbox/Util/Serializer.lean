import Tbox.Lib.Memory

/-!
# Serialising

`util/serializer.cpp`. A serialiser writes into memory of a fixed size or into a vector; positions are of 64 bits, and
their sums wrap. Where bytes outside are touched there is no result.
-/

namespace Tbox.Util

open Tbox.Lib (Block)

inductive Endian
  | kBig
  | kLittle
  deriving DecidableEq, Repr

inductive Storage
  | kRaw
  | kVector
  deriving DecidableEq, Repr

/-- `block` is what `start_` points to: the memory, or what the vector holds. -/
structure Serializer where
  type : Storage
  block : Block
  endian : Endian := .kBig
  pos : UInt64 := 0
  deriving DecidableEq, Repr

namespace Serializer

def setEndian (s : Serializer) (e : Endian) : Serializer := { s with endian := e }

def extendSize (s : Serializer) (needSize : UInt64) : Bool × Serializer :=
  let wholeSize := s.pos + needSize
  match s.type with
  | .kRaw => (wholeSize ≤ s.block.size, s)
  | .kVector => (true, { s with block := s.block.resize wholeSize })

def appendChecked (size : UInt64) (write : Block → Option Block) (s : Serializer) : Option (Bool × Serializer) :=
  match s.extendSize size with
  | (false, s) => some (false, s)
  | (true, s) => (write s.block).map fun block => (true, { s with block, pos := s.pos + size })

/-- An integer of so many bytes, put at these places of it when the order is big and at those when it is little. -/
def appendInteger (width : Nat) (big little : List Nat) (number : Nat) (s : Serializer) :
    Option (Bool × Serializer) :=
  let places := match s.endian with
    | .kBig => big
    | .kLittle => little
  s.appendChecked (.ofNat width) (Block.putBytes s.pos.toNat places number)

def append8 (input : UInt8) : Serializer → Option (Bool × Serializer) :=
  appendInteger 1 [0] [0] input.toNat

def append16 (input : UInt16) : Serializer → Option (Bool × Serializer) :=
  appendInteger 2 [1, 0] [0, 1] input.toNat

def append32 (input : UInt32) : Serializer → Option (Bool × Serializer) :=
  appendInteger 4 [3, 2, 1, 0] [0, 1, 2, 3] input.toNat

def append64 (input : UInt64) : Serializer → Option (Bool × Serializer) :=
  appendInteger 8 [7, 6, 5, 4, 3, 2, 1, 0] [0, 1, 2, 3, 4, 5, 6, 7] input.toNat

/-- `append(const void *, size_t)` -/
def append (input : Block) (s : Serializer) : Option (Bool × Serializer) :=
  s.appendChecked input.size fun block => block.store s.pos.toNat input.bytes

def appendPOD (input : Block) (s : Serializer) : Option (Bool × Serializer) :=
  s.appendChecked input.size fun block =>
    match s.endian with
    | .kLittle => block.store s.pos.toNat input.bytes
    -- 倒序写入
    | .kBig => block.store s.pos.toNat input.backwards.bytes

end Serializer

structure Deserializer where
  block : Block
  endian : Endian := .kBig
  pos : UInt64 := 0
  deriving DecidableEq, Repr

namespace Deserializer

def setEndian (d : Deserializer) (e : Endian) : Deserializer := { d with endian := e }

def checkSize (d : Deserializer) (needSize : UInt64) : Bool := d.pos + needSize ≤ d.block.size

def setPos (pos : UInt64) (d : Deserializer) : Bool × Deserializer :=
  if pos < d.block.size then (true, { d with pos := pos }) else (false, d)

/-- What is read where the check is passed; `none` is `false`. -/
def fetchChecked {α : Type} (size : UInt64) (read : Option α) (d : Deserializer) :
    Option (Option α × Deserializer) :=
  if d.checkSize size then read.map fun value => (some value, { d with pos := d.pos + size })
  else some (none, d)

/-- An integer of so many bytes, read from these places of it when the order is big and from those when it is
little. -/
def fetchInteger (width : Nat) (big little : List Nat) (d : Deserializer) : Option (Option Nat × Deserializer) :=
  let places := match d.endian with
    | .kBig => big
    | .kLittle => little
  d.fetchChecked (.ofNat width) (d.block.takeBytes d.pos.toNat places 0)

def fetch8 (d : Deserializer) : Option (Option UInt8 × Deserializer) :=
  (d.fetchInteger 1 [0] [0]).map (Prod.map (Option.map UInt8.ofNat) id)

def fetch16 (d : Deserializer) : Option (Option UInt16 × Deserializer) :=
  (d.fetchInteger 2 [0, 1] [1, 0]).map (Prod.map (Option.map UInt16.ofNat) id)

def fetch32 (d : Deserializer) : Option (Option UInt32 × Deserializer) :=
  (d.fetchInteger 4 [0, 1, 2, 3] [3, 2, 1, 0]).map (Prod.map (Option.map UInt32.ofNat) id)

def fetch64 (d : Deserializer) : Option (Option UInt64 × Deserializer) :=
  (d.fetchInteger 8 [0, 1, 2, 3, 4, 5, 6, 7] [7, 6, 5, 4, 3, 2, 1, 0]).map (Prod.map (Option.map UInt64.ofNat) id)

/-- `fetch(void *, size_t)` -/
def fetch (size : UInt64) (d : Deserializer) : Option (Option Block × Deserializer) :=
  d.fetchChecked size (d.block.load d.pos.toNat size.toNat)

def fetchPOD (size : UInt64) (d : Deserializer) : Option (Option Block × Deserializer) :=
  d.fetchChecked size <| (d.block.load d.pos.toNat size.toNat).map fun object =>
    match d.endian with
    | .kLittle => object
    -- 倒序读出
    | .kBig => object.backwards

def fetchNoCopy (size : UInt64) (d : Deserializer) : Option UInt64 × Deserializer :=
  if d.checkSize size then (some d.pos, { d with pos := d.pos + size }) else (none, d)

def skip (size : UInt64) (d : Deserializer) : Bool × Deserializer :=
  if d.checkSize size then (true, { d with pos := d.pos + size }) else (false, d)

end Deserializer

/-- What can be streamed: a change of the order, an integer, a block of bytes or an object. -/
inductive Item
  | endian (e : Endian)
  | uint8 (value : UInt8)
  | int8 (value : Int8)
  | uint16 (value : UInt16)
  | int16 (value : Int16)
  | uint32 (value : UInt32)
  | int32 (value : Int32)
  | uint64 (value : UInt64)
  | int64 (value : Int64)
  | block (value : Block)
  | object (value : Block)
  deriving DecidableEq

def Serializer.put : Item → Serializer → Option (Bool × Serializer)
  | .endian e, s => some (true, s.setEndian e)
  | .uint8 value, s => s.append8 value
  | .int8 value, s => s.append8 value.toUInt8
  | .uint16 value, s => s.append16 value
  | .int16 value, s => s.append16 value.toUInt16
  | .uint32 value, s => s.append32 value
  | .int32 value, s => s.append32 value.toUInt32
  | .uint64 value, s => s.append64 value
  | .int64 value, s => s.append64 value.toUInt64
  | .block value, s => s.append value
  | .object value, s => s.appendPOD value

def received {α : Type} (item : α → Item) (reply : Option (Option α × Deserializer)) :
    Option (Option Item × Deserializer) :=
  reply.map (Prod.map (Option.map item) id)

def Deserializer.take : Item → Deserializer → Option (Option Item × Deserializer)
  | .endian e, d => some (some (.endian e), d.setEndian e)
  | .uint8 _, d => received .uint8 d.fetch8
  | .int8 _, d => received (fun value => .int8 value.toInt8) d.fetch8
  | .uint16 _, d => received .uint16 d.fetch16
  | .int16 _, d => received (fun value => .int16 value.toInt16) d.fetch16
  | .uint32 _, d => received .uint32 d.fetch32
  | .int32 _, d => received (fun value => .int32 value.toInt32) d.fetch32
  | .uint64 _, d => received .uint64 d.fetch64
  | .int64 _, d => received (fun value => .int64 value.toInt64) d.fetch64
  | .block value, d => received .block (d.fetch value.size)
  | .object value, d => received .object (d.fetchPOD value.size)

def Serializer.putAll : List Item → Serializer → Option (List Item × Serializer)
  | [], s => some ([], s)
  | item :: items, s => do
      let (done, s) ← s.put item
      let (later, s) ← s.putAll items
      return (if done then item :: later else later, s)

def Deserializer.takeAll : List Item → Deserializer → Option (List (Option Item) × Deserializer)
  | [], d => some ([], d)
  | item :: items, d => do
      let (value, d) ← d.take item
      let (later, d) ← d.takeAll items
      return (value :: later, d)

end Tbox.Util
