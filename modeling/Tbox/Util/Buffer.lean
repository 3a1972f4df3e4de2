import Tbox.Lib.Memory

/-!
# The byte buffer, with its arithmetic

`util/buffer.cpp` once more, with sums of 64 bits that wrap and memory of which every access is checked. An allocation
succeeds, whatever is asked for.
-/

namespace Tbox.Util.Machine

open Tbox.Lib (Bytes Block)

/-- `buffer` is what `buffer_ptr_` points to, of `buffer_size_` bytes; no pointer is no memory. -/
structure Buffer where
  buffer : Block := .empty
  readIndex : UInt64 := 0
  writeIndex : UInt64 := 0
  deriving DecidableEq, Repr

namespace Buffer

/-- `new uint8_t [size]` -/
def newArray (size : UInt64) : Block := ⟨List.replicate size.toNat 0, by simpa using size.toNat_lt⟩

def construct (reverseSize : UInt64) : Buffer := if reverseSize > 0 then { buffer := newArray reverseSize } else {}

def writableSize (b : Buffer) : UInt64 := b.buffer.size - b.writeIndex

def readableSize (b : Buffer) : UInt64 := b.writeIndex - b.readIndex

/-- The readable part, as `memmove` and `memcpy` take it. -/
def loadReadable (b : Buffer) : Option Block := b.buffer.load b.readIndex.toNat b.readableSize.toNat

def ensureWritableSize (writeSize : UInt64) (b : Buffer) : Option (Bool × Buffer) :=
  if writeSize = 0 then some (true, b)
  else if b.writableSize ≥ writeSize then some (true, b)
  else if b.writableSize + b.readIndex ≥ writeSize then do
    let readable ← b.loadReadable
    let buffer ← b.buffer.store 0 readable.bytes
    return (true, { buffer, readIndex := 0, writeIndex := b.writeIndex - b.readIndex })
  else do
    let newSize := (b.writeIndex + writeSize) <<< 1
    let readable ← b.loadReadable
    let buffer ← (newArray newSize).store b.readIndex.toNat readable.bytes
    return (true, { b with buffer })

/-- What a caller puts where `writableBegin` points, as far as there is room. -/
def write (data : Bytes) (b : Buffer) : Option Buffer :=
  (b.buffer.store b.writeIndex.toNat (data.take b.writableSize.toNat)).map fun buffer => { b with buffer }

def hasWritten (writeSize : UInt64) (b : Buffer) : Buffer :=
  if b.writeIndex + writeSize > b.buffer.size then { b with writeIndex := b.buffer.size }
  else { b with writeIndex := b.writeIndex + writeSize }

def append (data : Block) (b : Buffer) : Option (UInt64 × Buffer) := do
  let (ensured, b) ← b.ensureWritableSize data.size
  if ensured then
    let buffer ← b.buffer.store b.writeIndex.toNat data.bytes
    return (data.size, { b with buffer }.hasWritten data.size)
  else return (0, b)

def hasReadAll (b : Buffer) : Buffer := { b with readIndex := 0, writeIndex := 0 }

def hasRead (readSize : UInt64) (b : Buffer) : Buffer :=
  if b.readIndex + readSize > b.writeIndex then b.hasReadAll
  else if b.readIndex + readSize = b.writeIndex then b.hasReadAll
  else { b with readIndex := b.readIndex + readSize }

def fetch (buffSize : UInt64) (b : Buffer) : Option (Bytes × Buffer) := do
  let readSize := if buffSize > b.readableSize then b.readableSize else buffSize
  let bytes ← b.buffer.load b.readIndex.toNat readSize.toNat
  return (bytes.bytes, b.hasRead readSize)

def cloneFrom (other : Buffer) : Option Buffer :=
  if other.readableSize > 0 then do
    let readable ← other.loadReadable
    let buffer ← (newArray other.readableSize).store 0 readable.bytes
    return { buffer, readIndex := 0, writeIndex := other.readableSize }
  else some {}

def shrink (b : Buffer) : Option Buffer := cloneFrom b

inductive Op (ι : Type)
  | construct (i : ι) (reverseSize : UInt64)
  | append (i : ι) (data : Block)
  | ensureWritableSize (i : ι) (writeSize : UInt64)
  | write (i : ι) (data : Bytes)
  | hasWritten (i : ι) (writeSize : UInt64)
  | hasRead (i : ι) (readSize : UInt64)
  | hasReadAll (i : ι)
  | fetch (i : ι) (buffSize : UInt64)
  | shrink (i : ι)
  | copy (i other : ι)
  | move (i other : ι)
  | swap (i other : ι)

variable {ι : Type} [DecidableEq ι]

def step (buffers : ι → Buffer) : Op ι → Option (Bytes × (ι → Buffer))
  | .construct i reverseSize => some ([], Function.update buffers i (construct reverseSize))
  | .append i data => ((buffers i).append data).map fun r => ([], Function.update buffers i r.2)
  | .ensureWritableSize i writeSize =>
    ((buffers i).ensureWritableSize writeSize).map fun r => ([], Function.update buffers i r.2)
  | .write i data => ((buffers i).write data).map fun b => ([], Function.update buffers i b)
  | .hasWritten i writeSize => some ([], Function.update buffers i ((buffers i).hasWritten writeSize))
  | .hasRead i readSize => some ([], Function.update buffers i ((buffers i).hasRead readSize))
  | .hasReadAll i => some ([], Function.update buffers i (buffers i).hasReadAll)
  | .fetch i buffSize => ((buffers i).fetch buffSize).map fun r => (r.1, Function.update buffers i r.2)
  | .shrink i => ((buffers i).shrink).map fun b => ([], Function.update buffers i b)
  | .copy i other =>
    if i = other then some ([], buffers)
    else (cloneFrom (buffers other)).map fun b => ([], Function.update buffers i b)
  -- `reset` and `swap`, as for a buffer that is constructed from another
  | .move i other =>
    if i = other then some ([], buffers)
    else some ([], Function.update (Function.update buffers i (buffers other)) other (construct 0))
  | .swap i other =>
    some ([], Function.update (Function.update buffers i (buffers other)) other (buffers i))

end Buffer

end Tbox.Util.Machine
