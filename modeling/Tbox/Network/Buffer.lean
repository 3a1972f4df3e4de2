import Tbox.Lib.StdString

/-!
# The byte buffer

`util/buffer.cpp`, under the name `network` has it by. The readable bytes lie between the two indices;
every operation is described by what it does to them. Memory is there for the asking.
-/

open List

namespace Tbox.Network

open Tbox.Lib (Bytes)

structure Buffer where
  memory : Bytes := []
  readIndex : Nat := 0
  writeIndex : Nat := 0
  read_le : readIndex ≤ writeIndex := by simp
  write_le : writeIndex ≤ memory.length := by simp
  deriving DecidableEq, Repr

namespace Buffer

def readableSize (b : Buffer) : Nat := b.writeIndex - b.readIndex

def writableSize (b : Buffer) : Nat := b.memory.length - b.writeIndex

/-- The bytes from `readableBegin` on. -/
def readable (b : Buffer) : Bytes := (b.memory.take b.writeIndex).drop b.readIndex

theorem length_readable (b : Buffer) : b.readable.length = b.readableSize := by
  have hwrite := b.write_le
  rw [readable, length_drop, length_take, Nat.min_eq_left hwrite, readableSize]

/-- Bytes put where `writableBegin` points, as far as there is room. -/
def store (b : Buffer) (bytes : Bytes) : Buffer where
  memory := b.memory.take b.writeIndex ++ bytes.take b.writableSize
    ++ b.memory.drop (b.writeIndex + bytes.length)
  readIndex := b.readIndex
  writeIndex := b.writeIndex
  read_le := b.read_le
  write_le := by
    have hwrite := b.write_le
    rw [List.length_append, List.length_append, List.length_take]
    omega

def moveToFront (b : Buffer) : Buffer where
  memory := b.readable ++ b.memory.drop b.readableSize
  readIndex := 0
  writeIndex := b.writeIndex - b.readIndex
  read_le := Nat.zero_le _
  write_le := by
    rw [List.length_append, length_readable, readableSize]
    omega

def reallocate (b : Buffer) (newSize : Nat) (_ : b.writeIndex ≤ newSize) : Buffer where
  memory := List.replicate b.readIndex 0 ++ b.readable ++ List.replicate (newSize - b.writeIndex) 0
  readIndex := b.readIndex
  writeIndex := b.writeIndex
  read_le := b.read_le
  write_le := by
    have hread := b.read_le
    rw [List.length_append, List.length_append, List.length_replicate, length_readable,
      readableSize]
    omega

def ensureWritableSize (b : Buffer) (writeSize : Nat) : Buffer :=
  if writeSize = 0 then b
  else if b.writableSize ≥ writeSize then b
  else if b.writableSize + b.readIndex ≥ writeSize then b.moveToFront
  else b.reallocate ((b.writeIndex + writeSize) * 2) (by omega)

def hasWritten (b : Buffer) (writeSize : Nat) : Buffer :=
  if h : b.writeIndex + writeSize > b.memory.length then
    { b with writeIndex := b.memory.length, read_le := b.read_le.trans b.write_le, write_le := le_rfl }
  else
    { b with
      writeIndex := b.writeIndex + writeSize
      read_le := b.read_le.trans (Nat.le_add_right _ _)
      write_le := Nat.le_of_not_gt h }

def append (b : Buffer) (bytes : Bytes) : Buffer :=
  ((b.ensureWritableSize bytes.length).store bytes).hasWritten bytes.length

def hasReadAll (b : Buffer) : Buffer :=
  { b with readIndex := 0, writeIndex := 0, read_le := le_rfl, write_le := Nat.zero_le _ }

def hasRead (b : Buffer) (readSize : Nat) : Buffer :=
  if h : b.readIndex + readSize > b.writeIndex then b.hasReadAll
  else if b.readIndex + readSize = b.writeIndex then b.hasReadAll
  else { b with readIndex := b.readIndex + readSize, read_le := Nat.le_of_not_gt h }

def shrink (b : Buffer) : Buffer where
  memory := b.readable
  readIndex := 0
  writeIndex := b.readable.length
  read_le := Nat.zero_le _
  write_le := le_rfl

variable (b : Buffer) (bytes : Bytes)

theorem readable_eq_nil_iff {b : Buffer} : b.readable = [] ↔ b.readableSize = 0 := by
  rw [← length_eq_zero_iff, length_readable]

theorem length_store : (b.store bytes).memory.length = b.memory.length := by
  have hwrite := b.write_le
  rw [store, List.length_append, List.length_append, length_take, length_take, length_drop, writableSize]
  omega

theorem take_store : (b.store bytes).memory.take b.writeIndex = b.memory.take b.writeIndex := by
  have hwrite := b.write_le
  have hlength : (b.memory.take b.writeIndex).length = b.writeIndex := by
    rw [length_take, Nat.min_eq_left hwrite]
  rw [store]
  dsimp only
  rw [append_assoc]
  exact take_left' hlength

@[simp]
theorem readable_store : (b.store bytes).readable = b.readable :=
  congrArg (List.drop b.readIndex) (take_store b bytes)

theorem take_memory_store (h : bytes.length ≤ b.writableSize) :
    (b.store bytes).memory.take (b.writeIndex + bytes.length) = b.memory.take b.writeIndex ++ bytes := by
  have hwrite := b.write_le
  have hlength : (b.memory.take b.writeIndex ++ bytes).length = b.writeIndex + bytes.length := by
    rw [List.length_append, length_take, Nat.min_eq_left hwrite]
  rw [store]
  dsimp only
  rw [take_of_length_le h]
  exact take_left' hlength

/-- Bytes that were put into the writable part, and are then declared written, are at the end. -/
theorem readable_hasWritten (h : bytes.length ≤ b.writableSize) :
    ((b.store bytes).hasWritten bytes.length).readable = b.readable ++ bytes := by
  have hwrite := b.write_le
  have hread := b.read_le
  have hfits : ¬(b.store bytes).writeIndex + bytes.length > (b.store bytes).memory.length := by
    rw [length_store]
    rw [writableSize] at h
    exact Nat.not_lt.mpr (by omega : b.writeIndex + bytes.length ≤ b.memory.length)
  have hskip : b.readIndex ≤ (b.memory.take b.writeIndex).length := by
    rw [length_take]
    omega
  rw [hasWritten, dif_neg hfits]
  calc ((b.store bytes).memory.take (b.writeIndex + bytes.length)).drop b.readIndex
      = (b.memory.take b.writeIndex ++ bytes).drop b.readIndex := by
        rw [take_memory_store b bytes h]
    _ = b.readable ++ bytes := drop_append_of_le_length hskip

theorem readable_moveToFront : b.moveToFront.readable = b.readable := by
  have hlength : b.readable.length = b.writeIndex - b.readIndex := length_readable b
  rw [readable, moveToFront]
  dsimp only
  rw [drop_zero, take_left' hlength]

theorem readable_reallocate (newSize : Nat) (h : b.writeIndex ≤ newSize) :
    (b.reallocate newSize h).readable = b.readable := by
  have hread := b.read_le
  have hlength : (List.replicate b.readIndex (0 : UInt8) ++ b.readable).length = b.writeIndex := by
    rw [List.length_append, length_replicate, length_readable, readableSize]
    omega
  rw [readable, reallocate]
  dsimp only
  rw [take_left' hlength, drop_left' (length_replicate ..)]

@[simp]
theorem readable_ensureWritableSize (writeSize : Nat) : (b.ensureWritableSize writeSize).readable = b.readable := by
  rw [ensureWritableSize]
  split_ifs
  · rfl
  · rfl
  · exact readable_moveToFront b
  · exact readable_reallocate b _ _

theorem writableSize_ensureWritableSize (writeSize : Nat) :
    writeSize ≤ (b.ensureWritableSize writeSize).writableSize := by
  have hread := b.read_le
  have hwrite := b.write_le
  rw [ensureWritableSize]
  split_ifs with hzero hroom hmove
  · omega
  · exact hroom
  · refine hmove.trans ?_
    rw [writableSize, writableSize, moveToFront]
    dsimp only
    rw [List.length_append, length_drop, length_readable, readableSize]
    omega
  · rw [writableSize, reallocate]
    dsimp only
    rw [List.length_append, List.length_append, length_replicate, length_replicate, length_readable, readableSize]
    omega

@[simp]
theorem readable_append : (b.append bytes).readable = b.readable ++ bytes := by
  rw [append, readable_hasWritten _ _ (writableSize_ensureWritableSize b bytes.length), readable_ensureWritableSize]

@[simp]
theorem readable_hasReadAll : b.hasReadAll.readable = [] := rfl

@[simp]
theorem readable_hasRead (readSize : Nat) : (b.hasRead readSize).readable = b.readable.drop readSize := by
  have hlength : b.readable.length = b.writeIndex - b.readIndex := length_readable b
  rw [hasRead]
  split_ifs with hmore hall
  · rw [readable_hasReadAll, drop_eq_nil_of_le]
    omega
  · rw [readable_hasReadAll, drop_eq_nil_of_le]
    omega
  · rw [readable, readable, drop_drop]

@[simp]
theorem readable_shrink : b.shrink.readable = b.readable := by
  rw [readable, shrink]
  dsimp only
  rw [drop_zero, take_length]

end Buffer

end Tbox.Network
