import Tbox.Network.Buffer
import Tbox.Util.Buffer

/-!
# A buffer is a queue

As long as no sum of its indices wraps a buffer does what the one without a limit does, and that is a queue of bytes.
-/

open List Option

namespace Tbox.Util.Machine.Buffer

open Lib (Bytes Block)
open Function (update_self update_eq_self update)

variable {b b' : Buffer} {a : Network.Buffer} {n : UInt64} {queue : Bytes}

structure Represents (b : Buffer) (a : Network.Buffer) : Prop where
  memory : b.buffer.bytes = a.memory
  readIndex : b.readIndex.toNat = a.readIndex
  writeIndex : b.writeIndex.toNat = a.writeIndex

structure InOrder (b : Buffer) : Prop where
  read_le : b.readIndex.toNat ≤ b.writeIndex.toNat
  write_le : b.writeIndex.toNat ≤ b.buffer.bytes.length

def readable (b : Buffer) : Bytes := (b.buffer.bytes.take b.writeIndex.toNat).drop b.readIndex.toNat

def area (b : Buffer) : Bytes := b.buffer.bytes.drop b.writeIndex.toNat

def Holds (b : Buffer) (queue : Bytes) : Prop := b.InOrder ∧ b.readable = queue

theorem Represents.holds (h : Represents b a) : b.Holds a.readable := by
  refine ⟨⟨?_, ?_⟩, ?_⟩
  · rw [h.readIndex, h.writeIndex]
    exact a.read_le
  · rw [h.writeIndex, h.memory]
    exact a.write_le
  · rw [readable, h.memory, h.readIndex, h.writeIndex]
    rfl

theorem InOrder.exists_represents (h : b.InOrder) : ∃ a : Network.Buffer, Represents b a :=
  ⟨⟨b.buffer.bytes, b.readIndex.toNat, b.writeIndex.toNat, h.read_le, h.write_le⟩, rfl, rfl, rfl⟩

theorem Holds.exists_represents (h : b.Holds queue) : ∃ a : Network.Buffer, Represents b a ∧ a.readable = queue := by
  obtain ⟨a, ha⟩ := h.1.exists_represents
  exact ⟨a, ha, ha.holds.2.symm.trans h.2⟩

namespace Represents

variable (h : Represents b a)

include h

theorem memory_lt : a.memory.length < 2 ^ 64 := h.memory ▸ b.buffer.length_lt

theorem toNat_writableSize : b.writableSize.toNat = a.writableSize := by
  have hwrite := a.write_le
  rw [writableSize, UInt64.toNat_sub_of_le _ _ ?_, Block.toNat_size, h.memory, h.writeIndex]
  · rfl
  · rwa [UInt64.le_iff_toNat_le, Block.toNat_size, h.memory, h.writeIndex]

theorem toNat_readableSize : b.readableSize.toNat = a.readableSize := by
  have hread := a.read_le
  rw [readableSize, UInt64.toNat_sub_of_le _ _ ?_, h.writeIndex, h.readIndex]
  · rfl
  · rwa [UInt64.le_iff_toNat_le, h.writeIndex, h.readIndex]

theorem load_readable {count : Nat} (hcount : count ≤ a.readable.length) :
    ∃ block, b.buffer.load b.readIndex.toNat count = some block ∧ block.bytes = a.readable.take count := by
  have hwrite := a.write_le
  have hlength := a.length_readable
  rw [Network.Buffer.readableSize] at hlength
  refine ⟨b.buffer.part b.readIndex.toNat count, ?_, ?_⟩
  · rw [Block.load, h.memory, h.readIndex, if_pos]
    have hread := a.read_le
    omega
  · change (b.buffer.bytes.drop b.readIndex.toNat).take count = _
    rw [h.memory, h.readIndex, Network.Buffer.readable, drop_take, take_take, Nat.min_eq_left (by omega)]

theorem loadReadable : ∃ block, b.loadReadable = some block ∧ block.bytes = a.readable := by
  have hlength := a.length_readable
  obtain ⟨block, hload, hblock⟩ := h.load_readable le_rfl
  rw [take_length] at hblock
  refine ⟨block, ?_, hblock⟩
  rw [Buffer.loadReadable, h.toNat_readableSize, ← hlength, hload]

theorem toNat_writeIndex_add (hwrap : a.writeIndex + n.toNat < 2 ^ 64) :
    (b.writeIndex + n).toNat = a.writeIndex + n.toNat := by
  rw [UInt64.toNat_add, h.writeIndex, Nat.mod_eq_of_lt hwrap]

theorem toNat_readIndex_add (hwrap : a.readIndex + n.toNat < 2 ^ 64) :
    (b.readIndex + n).toNat = a.readIndex + n.toNat := by
  rw [UInt64.toNat_add, h.readIndex, Nat.mod_eq_of_lt hwrap]

theorem hasReadAll : Represents b.hasReadAll a.hasReadAll := ⟨h.memory, rfl, rfl⟩

theorem hasRead (hwrap : a.readIndex + n.toNat < 2 ^ 64) : Represents (b.hasRead n) (a.hasRead n.toNat) := by
  have hsum := h.toNat_readIndex_add hwrap
  have hmore : b.readIndex + n > b.writeIndex ↔ a.readIndex + n.toNat > a.writeIndex := by
    rw [gt_iff_lt, UInt64.lt_iff_toNat_lt, hsum, h.writeIndex]
  have hall : b.readIndex + n = b.writeIndex ↔ a.readIndex + n.toNat = a.writeIndex := by
    rw [← UInt64.toNat_inj, hsum, h.writeIndex]
  rw [Buffer.hasRead, Network.Buffer.hasRead]
  by_cases hmore' : a.readIndex + n.toNat > a.writeIndex
  · rw [if_pos (hmore.mpr hmore'), dif_pos hmore']
    exact h.hasReadAll
  rw [if_neg (hmore.not.mpr hmore'), dif_neg hmore']
  by_cases hall' : a.readIndex + n.toNat = a.writeIndex
  · rw [if_pos (hall.mpr hall'), if_pos hall']
    exact h.hasReadAll
  · rw [if_neg (hall.not.mpr hall'), if_neg hall']
    exact ⟨h.memory, hsum, h.writeIndex⟩

theorem hasWritten (hwrap : a.writeIndex + n.toNat < 2 ^ 64) :
    Represents (b.hasWritten n) (a.hasWritten n.toNat) := by
  have hsum := h.toNat_writeIndex_add hwrap
  have hmore : b.writeIndex + n > b.buffer.size ↔ a.writeIndex + n.toNat > a.memory.length := by
    rw [gt_iff_lt, UInt64.lt_iff_toNat_lt, hsum, Block.toNat_size, h.memory]
  rw [Buffer.hasWritten, Network.Buffer.hasWritten]
  by_cases hmore' : a.writeIndex + n.toNat > a.memory.length
  · rw [if_pos (hmore.mpr hmore'), dif_pos hmore']
    exact ⟨h.memory, h.readIndex, by rw [Block.toNat_size, h.memory]⟩
  · rw [if_neg (hmore.not.mpr hmore'), dif_neg hmore']
    exact ⟨h.memory, h.readIndex, hsum⟩

theorem store {data : Bytes} (hroom : data.length ≤ a.writableSize) :
    ∃ buffer, b.buffer.store b.writeIndex.toNat data = some buffer ∧ Represents { b with buffer } (a.store data) := by
  have hwrite := a.write_le
  have hfits : data.length ≤ a.memory.length - a.writeIndex := hroom
  have hsplit : b.buffer.bytes = a.memory.take a.writeIndex ++ (a.memory.drop a.writeIndex).take data.length ++
      a.memory.drop (a.writeIndex + data.length) := by
    rw [h.memory, append_assoc, ← drop_drop, take_append_drop, take_append_drop]
  have hlength : (a.memory.take a.writeIndex).length = a.writeIndex := by
    rw [length_take, Nat.min_eq_left hwrite]
  have hold : ((a.memory.drop a.writeIndex).take data.length).length = data.length := by
    rw [length_take, length_drop]
    omega
  obtain ⟨buffer, hstore, hbytes⟩ := Block.store_append hsplit hold
  rw [hlength, ← h.writeIndex] at hstore
  refine ⟨buffer, hstore, ?_, h.readIndex, h.writeIndex⟩
  rw [hbytes, Network.Buffer.store]
  dsimp only
  rw [take_of_length_le hroom]

end Represents

theorem load_moveToFront (h : Represents b a) : ∃ buffer, b.buffer.store 0 a.readable = some buffer ∧
    Represents { buffer, readIndex := 0, writeIndex := b.writeIndex - b.readIndex } a.moveToFront := by
  have hread := a.read_le
  have hwrite := a.write_le
  have hlength := a.length_readable
  have hsplit : b.buffer.bytes = [] ++ a.memory.take a.readableSize ++ a.memory.drop a.readableSize := by
    rw [h.memory, nil_append, take_append_drop]
  have hold : (a.memory.take a.readableSize).length = a.readable.length := by
    rw [length_take, hlength, Network.Buffer.readableSize]
    omega
  obtain ⟨buffer, hstore, hbytes⟩ := Block.store_append hsplit hold
  refine ⟨buffer, hstore, ?_, rfl, h.toNat_readableSize⟩
  rw [hbytes]
  rfl

theorem store_newArray {newSize : UInt64} (h : Represents b a) (hnew : a.writeIndex ≤ newSize.toNat) :
    ∃ buffer, (newArray newSize).store b.readIndex.toNat a.readable = some buffer ∧
      Represents { b with buffer } (a.reallocate newSize.toNat hnew) := by
  have hread := a.read_le
  have hlength := a.length_readable
  rw [Network.Buffer.readableSize] at hlength
  have hsplit : (newArray newSize).bytes = List.replicate a.readIndex 0 ++
      List.replicate a.readable.length 0 ++ List.replicate (newSize.toNat - a.writeIndex) 0 := by
    rw [newArray, replicate_append_replicate, replicate_append_replicate]
    refine congrArg (List.replicate · 0) ?_
    omega
  obtain ⟨buffer, hstore, hbytes⟩ := Block.store_append hsplit length_replicate
  rw [length_replicate, ← h.readIndex] at hstore
  exact ⟨buffer, hstore, hbytes, h.readIndex, h.writeIndex⟩

theorem toNat_newSize (h : Represents b a) (n : UInt64) :
    ((b.writeIndex + n) <<< 1).toNat = (a.writeIndex + n.toNat) * 2 % 2 ^ 64 := by
  rw [UInt64.toNat_shiftLeft, UInt64.toNat_add, h.writeIndex, Nat.shiftLeft_eq]
  simp

theorem toNat_movable (h : Represents b a) : (b.writableSize + b.readIndex).toNat = a.writableSize + a.readIndex := by
  have hread := a.read_le
  have hwrite := a.write_le
  have hlt := h.memory_lt
  rw [UInt64.toNat_add, h.toNat_writableSize, h.readIndex, Nat.mod_eq_of_lt]
  rw [Network.Buffer.writableSize]
  omega

theorem ensureWritableSize_moves (h : Represents b a) (hroom : n.toNat ≤ a.writableSize + a.readIndex) :
    ∃ b', b.ensureWritableSize n = some (true, b') ∧ Represents b' (a.ensureWritableSize n.toNat) := by
  have hzero : n = 0 ↔ n.toNat = 0 := by rw [← UInt64.toNat_inj, UInt64.toNat_zero]
  have hroomy : b.writableSize ≥ n ↔ a.writableSize ≥ n.toNat := by
    rw [ge_iff_le, UInt64.le_iff_toNat_le, h.toNat_writableSize]
  have hmovable : b.writableSize + b.readIndex ≥ n := by
    rw [ge_iff_le, UInt64.le_iff_toNat_le, toNat_movable h]
    exact hroom
  rw [ensureWritableSize, Network.Buffer.ensureWritableSize]
  by_cases hzero' : n.toNat = 0
  · rw [if_pos (hzero.mpr hzero'), if_pos hzero']
    exact ⟨b, rfl, h⟩
  rw [if_neg (hzero.not.mpr hzero'), if_neg hzero']
  by_cases hroomy' : a.writableSize ≥ n.toNat
  · rw [if_pos (hroomy.mpr hroomy'), if_pos hroomy']
    exact ⟨b, rfl, h⟩
  rw [if_neg (hroomy.not.mpr hroomy'), if_neg hroomy', if_pos hmovable,
    if_pos (show a.writableSize + a.readIndex ≥ n.toNat from hroom)]
  obtain ⟨readable, hload, hreadable⟩ := h.loadReadable
  obtain ⟨buffer, hstore, hrep⟩ := load_moveToFront h
  refine ⟨_, ?_, hrep⟩
  rw [hload, bind_eq_bind, bind_some, hreadable, hstore]
  rfl

theorem ensureWritableSize_reallocates (h : Represents b a) (hroom : a.writableSize + a.readIndex < n.toNat) :
    b.ensureWritableSize n = ((newArray ((b.writeIndex + n) <<< 1)).store b.readIndex.toNat a.readable).map
      fun buffer => (true, { b with buffer }) := by
  have hzero : n ≠ 0 := by
    rintro rfl
    exact absurd hroom (by simp)
  have hroomy : ¬b.writableSize ≥ n := by
    rw [ge_iff_le, UInt64.le_iff_toNat_le, h.toNat_writableSize]
    omega
  have hmovable : ¬b.writableSize + b.readIndex ≥ n := by
    rw [ge_iff_le, UInt64.le_iff_toNat_le, toNat_movable h]
    omega
  obtain ⟨readable, hload, hreadable⟩ := h.loadReadable
  rw [ensureWritableSize, if_neg hzero, if_neg hroomy, if_neg hmovable]
  rw [hload, bind_eq_bind, bind_some, hreadable]
  cases (newArray ((b.writeIndex + n) <<< 1)).store b.readIndex.toNat a.readable <;> rfl

def Overruns (b : Buffer) (n : UInt64) : Prop :=
  b.writableSize.toNat + b.readIndex.toNat < n.toNat ∧
    (b.writeIndex.toNat + n.toNat) * 2 % 2 ^ 64 < b.writeIndex.toNat

theorem ensureWritableSize_holds (h : Represents b a) (hfits : ¬b.Overruns n) :
    ∃ b', b.ensureWritableSize n = some (true, b') ∧ b'.Holds a.readable := by
  by_cases hroom : n.toNat ≤ a.writableSize + a.readIndex
  · obtain ⟨b', hensure, hrep⟩ := ensureWritableSize_moves h hroom
    refine ⟨b', hensure, ?_⟩
    rw [← Network.Buffer.readable_ensureWritableSize a n.toNat]
    exact hrep.holds
  · have hnew : a.writeIndex ≤ ((b.writeIndex + n) <<< 1).toNat := by
      rw [Overruns, h.toNat_writableSize, h.readIndex, h.writeIndex] at hfits
      rw [toNat_newSize h]
      omega
    obtain ⟨buffer, hstore, hrep⟩ := store_newArray h hnew
    refine ⟨{ b with buffer }, ?_, ?_⟩
    · rw [ensureWritableSize_reallocates h (by omega), hstore, map_some]
    · rw [← Network.Buffer.readable_reallocate a _ hnew]
      exact hrep.holds

theorem ensureWritableSize_overruns (h : Represents b a) (hover : b.Overruns n) : b.ensureWritableSize n = none := by
  have hread := a.read_le
  have hlength := a.length_readable
  rw [Overruns, h.toNat_writableSize, h.readIndex, h.writeIndex] at hover
  rw [Network.Buffer.readableSize] at hlength
  rw [ensureWritableSize_reallocates h hover.1, map_eq_none_iff, Block.store_eq_none_iff, h.readIndex]
  have hnew : (newArray ((b.writeIndex + n) <<< 1)).bytes.length = (a.writeIndex + n.toNat) * 2 % 2 ^ 64 := by
    rw [newArray, length_replicate, toNat_newSize h]
  omega

def Outgrows (b : Buffer) (n : UInt64) : Prop :=
  b.writableSize.toNat + b.readIndex.toNat < n.toNat ∧ 2 ^ 63 ≤ b.writeIndex.toNat + n.toNat

theorem ensureWritableSize_represents (h : Represents b a) (hfits : ¬b.Outgrows n) :
    ∃ b', b.ensureWritableSize n = some (true, b') ∧ Represents b' (a.ensureWritableSize n.toNat) := by
  by_cases hroom : n.toNat ≤ a.writableSize + a.readIndex
  · exact ensureWritableSize_moves h hroom
  rw [Outgrows, h.toNat_writableSize, h.readIndex, h.writeIndex] at hfits
  have hsize : ((b.writeIndex + n) <<< 1).toNat = (a.writeIndex + n.toNat) * 2 := by
    rw [toNat_newSize h]
    omega
  have hnew : a.writeIndex ≤ ((b.writeIndex + n) <<< 1).toNat := by omega
  obtain ⟨buffer, hstore, hrep⟩ := store_newArray h hnew
  refine ⟨{ b with buffer }, ?_, ?_⟩
  · rw [ensureWritableSize_reallocates h (by omega), hstore, map_some]
  · rw [Network.Buffer.ensureWritableSize, if_neg (by omega), if_neg (by omega), if_neg (by omega)]
    simpa only [hsize] using hrep

theorem append_holds {data : Block} (h : Represents b a) (hfits : ¬b.Outgrows data.size) :
    ∃ b', b.append data = some (data.size, b') ∧ b'.Holds (a.readable ++ data.bytes) := by
  obtain ⟨b₁, hensure, hrep₁⟩ := ensureWritableSize_represents h hfits
  rw [Block.toNat_size] at hrep₁
  have hroom := a.writableSize_ensureWritableSize data.bytes.length
  obtain ⟨buffer, hstore, hrep₂⟩ := hrep₁.store hroom
  have hlt := hrep₁.memory_lt
  have hwrap : ((a.ensureWritableSize data.bytes.length).store data.bytes).writeIndex + data.size.toNat < 2 ^ 64 := by
    have hwrite := (a.ensureWritableSize data.bytes.length).write_le
    rw [Network.Buffer.writableSize] at hroom
    rw [Block.toNat_size]
    change (a.ensureWritableSize data.bytes.length).writeIndex + _ < _
    omega
  have hrep₃ := hrep₂.hasWritten hwrap
  rw [Block.toNat_size] at hrep₃
  refine ⟨{ b₁ with buffer }.hasWritten data.size, ?_, ?_⟩
  · rw [append, hensure, bind_eq_bind, bind_some]
    dsimp only
    rw [if_pos rfl, hstore]
    rfl
  · rw [← a.readable_append]
    exact hrep₃.holds

theorem append_outgrows {data : Block} (h : Represents b a) (hout : b.Outgrows data.size) : b.append data = none := by
  have hwrite := a.write_le
  have hdata := data.length_lt
  rw [Outgrows, h.toNat_writableSize, h.readIndex, h.writeIndex, Block.toNat_size] at hout
  have hensure := ensureWritableSize_reallocates (n := data.size) h (by rw [Block.toNat_size]; exact hout.1)
  rw [append, hensure]
  cases hstore : (newArray ((b.writeIndex + data.size) <<< 1)).store b.readIndex.toNat a.readable with
  | none => rfl
  | some buffer =>
    have hlength : buffer.bytes.length = (a.writeIndex + data.bytes.length) * 2 % 2 ^ 64 := by
      rw [Block.length_of_store hstore, newArray, length_replicate, toNat_newSize h, Block.toNat_size]
    have hnone : buffer.store b.writeIndex.toNat data.bytes = none := by
      rw [Block.store_eq_none_iff, hlength, h.writeIndex]
      omega
    rw [map_some, bind_eq_bind, bind_some]
    dsimp only
    rw [if_pos rfl, hnone]
    rfl

theorem hasRead_holds (h : Represents b a) (hwrap : b.readIndex.toNat + n.toNat < 2 ^ 64) :
    (b.hasRead n).Holds (a.readable.drop n.toNat) := by
  rw [← a.readable_hasRead]
  exact (h.hasRead (h.readIndex ▸ hwrap)).holds

theorem hasRead_wraps (h : Represents b a) (hwrap : 2 ^ 64 ≤ b.readIndex.toNat + n.toNat) :
    ¬(b.hasRead n).Holds (a.readable.drop n.toNat) := by
  have hread := a.read_le
  have hwrite := a.write_le
  have hlt := h.memory_lt
  have hn := n.toNat_lt
  have hlength := a.length_readable
  rw [Network.Buffer.readableSize] at hlength
  rw [h.readIndex] at hwrap
  have hsum : (b.readIndex + n).toNat = a.readIndex + n.toNat - 2 ^ 64 := by
    rw [UInt64.toNat_add, h.readIndex]
    omega
  have hmore : ¬b.readIndex + n > b.writeIndex := by
    rw [gt_iff_lt, UInt64.lt_iff_toNat_lt, hsum, h.writeIndex]
    omega
  have hall : b.readIndex + n ≠ b.writeIndex := by
    rw [ne_eq, ← UInt64.toNat_inj, hsum, h.writeIndex]
    omega
  rintro ⟨hinOrder, hreadable⟩
  rw [hasRead, if_neg hmore, if_neg hall] at hreadable
  have hnil := congrArg List.length hreadable
  rw [length_drop, hlength, readable, length_drop, length_take, hsum, h.writeIndex, h.memory] at hnil
  omega

theorem readable_hasWritten (a : Network.Buffer) (n : Nat) :
    (a.hasWritten n).readable = a.readable ++ (a.memory.drop a.writeIndex).take n := by
  have hread := a.read_le
  have hwrite := a.write_le
  have hskip : a.readIndex ≤ (a.memory.take a.writeIndex).length := by
    rw [length_take]
    omega
  rw [Network.Buffer.hasWritten]
  split
  · have hall : (a.memory.drop a.writeIndex).take n = a.memory.drop a.writeIndex := by
      refine take_of_length_le ?_
      rw [length_drop]
      omega
    rw [hall, Network.Buffer.readable, Network.Buffer.readable, ← drop_append_of_le_length hskip, take_append_drop]
    rw [take_length]
  · rw [Network.Buffer.readable, Network.Buffer.readable, ← drop_append_of_le_length hskip, ← take_add]

theorem area_eq (h : Represents b a) : b.area = a.memory.drop a.writeIndex := by
  rw [area, h.memory, h.writeIndex]

theorem hasWritten_holds (h : Represents b a) (hwrap : b.writeIndex.toNat + n.toNat < 2 ^ 64) :
    (b.hasWritten n).Holds (a.readable ++ b.area.take n.toNat) := by
  rw [area_eq h, ← readable_hasWritten]
  exact (h.hasWritten (h.writeIndex ▸ hwrap)).holds

theorem hasWritten_wraps (h : Represents b a) (hwrap : 2 ^ 64 ≤ b.writeIndex.toNat + n.toNat) :
    ¬(b.hasWritten n).Holds (a.readable ++ b.area.take n.toNat) := by
  have hread := a.read_le
  have hwrite := a.write_le
  have hlength := a.length_readable
  rw [Network.Buffer.readableSize] at hlength
  have hback : (b.writeIndex + n).toNat < a.writeIndex := by
    have hn := n.toNat_lt
    rw [UInt64.toNat_add, h.writeIndex]
    rw [h.writeIndex] at hwrap
    have hlt := h.memory_lt
    omega
  have hmore : ¬b.writeIndex + n > b.buffer.size := by
    rw [gt_iff_lt, UInt64.lt_iff_toNat_lt, Block.toNat_size, h.memory]
    omega
  rintro ⟨hinOrder, hreadable⟩
  rw [hasWritten, if_neg hmore] at hreadable hinOrder
  have hle : b.readIndex.toNat ≤ (b.writeIndex + n).toNat := hinOrder.read_le
  have hlengths := congrArg List.length hreadable
  rw [h.readIndex] at hle
  rw [length_append, hlength, readable, length_drop, length_take, h.readIndex, h.memory] at hlengths
  dsimp only at hlengths
  omega

theorem write_holds (h : Represents b a) (data : Bytes) :
    ∃ b', b.write data = some b' ∧ b'.Holds a.readable ∧ data.take b.writableSize.toNat <+: b'.area := by
  have hroom : (data.take b.writableSize.toNat).length ≤ a.writableSize := by
    rw [h.toNat_writableSize, length_take]
    omega
  obtain ⟨buffer, hstore, hrep⟩ := h.store hroom
  refine ⟨{ b with buffer }, ?_, ?_, ?_⟩
  · rw [write, hstore, map_some]
  · rw [← a.readable_store (data.take b.writableSize.toNat)]
    exact hrep.holds
  have hmemory := a.take_memory_store _ hroom
  have hwrite := a.write_le
  rw [area_eq hrep, Network.Buffer.store]
  dsimp only
  rw [append_assoc, drop_left' (by rw [length_take, Nat.min_eq_left hwrite]), take_of_length_le hroom]
  exact prefix_append _ _

theorem fetch_holds (h : Represents b a) (n : UInt64) :
    ∃ b', b.fetch n = some (a.readable.take n.toNat, b') ∧ b'.Holds (a.readable.drop n.toNat) := by
  have hread := a.read_le
  have hwrite := a.write_le
  have hlt := h.memory_lt
  have hlength := a.length_readable
  rw [Network.Buffer.readableSize] at hlength
  have hsize : (if n > b.readableSize then b.readableSize else n).toNat = min n.toNat a.readable.length := by
    rw [hlength, ← Network.Buffer.readableSize, ← h.toNat_readableSize]
    split
    · next hmore =>
      rw [gt_iff_lt, UInt64.lt_iff_toNat_lt] at hmore
      omega
    · next hmore =>
      rw [gt_iff_lt, UInt64.lt_iff_toNat_lt] at hmore
      omega
  have htake : a.readable.take n.toNat = a.readable.take (min n.toNat a.readable.length) := by
    rw [take_eq_take_iff, Nat.min_assoc, Nat.min_self]
  have hdrop : a.readable.drop n.toNat = a.readable.drop (min n.toNat a.readable.length) := by
    rw [drop_eq_drop_iff, Nat.min_assoc, Nat.min_self]
  obtain ⟨block, hload, hblock⟩ := h.load_readable (Nat.min_le_right n.toNat a.readable.length)
  refine ⟨b.hasRead (if n > b.readableSize then b.readableSize else n), ?_, ?_⟩
  · rw [fetch, hsize, hload, htake, ← hblock]
    rfl
  rw [hdrop, ← hsize]
  refine hasRead_holds h ?_
  rw [hsize, h.readIndex]
  omega

theorem cloneFrom_holds (h : Represents b a) : ∃ b', b.cloneFrom = some b' ∧ b'.Holds a.readable := by
  have hlength := a.length_readable
  have hsize := h.toNat_readableSize
  by_cases hempty : b.readableSize > 0
  · obtain ⟨block, hload, hblock⟩ := h.loadReadable
    have hsplit : (newArray b.readableSize).bytes = [] ++ List.replicate a.readable.length 0 ++ [] := by
      rw [hlength, ← hsize, nil_append, append_nil]
      rfl
    obtain ⟨buffer, hstore, hbytes⟩ := Block.store_append hsplit length_replicate
    rw [nil_append, append_nil] at hbytes
    refine ⟨{ buffer, readIndex := 0, writeIndex := b.readableSize }, ?_, ⟨Nat.zero_le _, ?_⟩, ?_⟩
    · rw [cloneFrom, if_pos hempty, hload, bind_eq_bind, bind_some, hblock]
      simp only [length_nil] at hstore
      rw [hstore]
      rfl
    · rw [hbytes, hsize, hlength]
    · rw [readable, hbytes, hsize, ← hlength, take_length]
      rfl
  · have hnil : a.readable = [] := by
      rw [gt_iff_lt, UInt64.lt_iff_toNat_lt, hsize] at hempty
      rw [← length_eq_zero_iff, hlength]
      simpa using hempty
    refine ⟨{}, by rw [cloneFrom, if_neg hempty], ⟨le_rfl, Nat.zero_le _⟩, ?_⟩
    rw [hnil]
    rfl

section Runs

variable {ι : Type} [DecidableEq ι] {buffers buffers' : ι → Buffer} {queues : ι → Bytes} {op : Op ι}

def areaOf (buffers : ι → Buffer) : Op ι → Bytes
  | .hasWritten i _ => (buffers i).area
  | _ => []

/-- An operation on queues of bytes: what it puts out, and the queues afterwards. -/
def queueStep (area : Bytes) (queues : ι → Bytes) : Op ι → Bytes × (ι → Bytes)
  | .construct i _ => ([], update queues i [])
  | .append i data => ([], update queues i (queues i ++ data.bytes))
  | .hasWritten i writeSize => ([], update queues i (queues i ++ area.take writeSize.toNat))
  | .hasRead i readSize => ([], update queues i ((queues i).drop readSize.toNat))
  | .hasReadAll i => ([], update queues i [])
  | .fetch i buffSize =>
    ((queues i).take buffSize.toNat, update queues i ((queues i).drop buffSize.toNat))
  | .copy i other => ([], update queues i (queues other))
  | .move i other =>
    if i = other then ([], queues)
    else ([], update (update queues i (queues other)) other [])
  | .swap i other => ([], update (update queues i (queues other)) other (queues i))
  | .ensureWritableSize _ _ | .write _ _ | .shrink _ => ([], queues)

def Lands (buffers buffers' : ι → Buffer) : Op ι → Prop
  | .write i data => data.take (buffers i).writableSize.toNat <+: (buffers' i).area
  | _ => True

structure Follows (buffers : ι → Buffer) (queues : ι → Bytes) (op : Op ι) (out : Bytes) (buffers' : ι → Buffer) :
    Prop where
  out : out = (queueStep (areaOf buffers op) queues op).1
  holds : ∀ i, (buffers' i).Holds ((queueStep (areaOf buffers op) queues op).2 i)
  lands : Lands buffers buffers' op

/-- They do all along a run. -/
def AreQueues : List (Op ι) → (ι → Buffer) → (ι → Bytes) → Prop
  | [], _, _ => True
  | op :: ops, buffers, queues => ∃ out buffers', step buffers op = some (out, buffers') ∧
      Follows buffers queues op out buffers' ∧ AreQueues ops buffers' (queueStep (areaOf buffers op) queues op).2

/-- No sum of the operation wraps where that does harm. -/
def Meets (buffers : ι → Buffer) : Op ι → Prop
  | .append i data => ¬(buffers i).Outgrows data.size
  | .ensureWritableSize i writeSize => ¬(buffers i).Overruns writeSize
  | .hasWritten i writeSize => (buffers i).writeIndex.toNat + writeSize.toNat < 2 ^ 64
  | .hasRead i readSize => (buffers i).readIndex.toNat + readSize.toNat < 2 ^ 64
  | _ => True

def NoWrap : List (Op ι) → (ι → Buffer) → Prop
  | [], _ => True
  | op :: ops, buffers => Meets buffers op ∧
      ∀ out buffers', step buffers op = some (out, buffers') → NoWrap ops buffers'

theorem holds_construct (reverseSize : UInt64) : (construct reverseSize).Holds [] := by
  rw [construct]
  split <;> exact ⟨⟨le_rfl, Nat.zero_le _⟩, rfl⟩

theorem holds_update (hqueues : ∀ i, (buffers i).Holds (queues i)) {i : ι} (hb : b.Holds queue) (j : ι) :
    (update buffers i b j).Holds (update queues i queue j) := by
  by_cases hj : j = i
  · subst hj
    simpa using hb
  · simpa [hj] using hqueues j

theorem holds_update_same (hqueues : ∀ i, (buffers i).Holds (queues i)) {i : ι} (hb : b.Holds (queues i)) (j : ι) :
    (update buffers i b j).Holds (queues j) := by
  have hupdate := holds_update hqueues (i := i) hb j
  rwa [update_eq_self] at hupdate

/-- One operation does to a buffer what it does to the queue. -/
theorem step_follows (hqueues : ∀ i, (buffers i).Holds (queues i)) (hmeets : Meets buffers op) :
    ∃ out buffers', step buffers op = some (out, buffers') ∧ Follows buffers queues op out buffers' := by
  have hrep := fun i => (hqueues i).exists_represents
  cases op with
  | construct i reverseSize =>
    exact ⟨_, _, rfl, rfl, holds_update hqueues (holds_construct reverseSize), trivial⟩
  | hasReadAll i =>
    obtain ⟨a, ha, -⟩ := hrep i
    exact ⟨_, _, rfl, rfl, holds_update hqueues ha.hasReadAll.holds, trivial⟩
  | append i data =>
    obtain ⟨a, ha, hqueue⟩ := hrep i
    obtain ⟨b', hb', hholds⟩ := append_holds ha hmeets
    rw [hqueue] at hholds
    exact ⟨_, _, by rw [step, hb']; rfl, rfl, holds_update hqueues hholds, trivial⟩
  | ensureWritableSize i writeSize =>
    obtain ⟨a, ha, hqueue⟩ := hrep i
    obtain ⟨b', hb', hholds⟩ := ensureWritableSize_holds ha hmeets
    rw [hqueue] at hholds
    exact ⟨_, _, by rw [step, hb']; rfl, rfl, holds_update_same hqueues hholds, trivial⟩
  | write i data =>
    obtain ⟨a, ha, hqueue⟩ := hrep i
    obtain ⟨b', hb', hholds, hlands⟩ := write_holds ha data
    rw [hqueue] at hholds
    refine ⟨_, _, by rw [step, hb']; rfl, rfl, holds_update_same hqueues hholds, ?_⟩
    simpa [Lands] using hlands
  | hasWritten i writeSize =>
    obtain ⟨a, ha, hqueue⟩ := hrep i
    have hholds := hasWritten_holds ha hmeets
    rw [hqueue] at hholds
    exact ⟨_, _, rfl, rfl, holds_update hqueues hholds, trivial⟩
  | hasRead i readSize =>
    obtain ⟨a, ha, hqueue⟩ := hrep i
    have hholds := hasRead_holds ha hmeets
    rw [hqueue] at hholds
    exact ⟨_, _, rfl, rfl, holds_update hqueues hholds, trivial⟩
  | fetch i buffSize =>
    obtain ⟨a, ha, hqueue⟩ := hrep i
    obtain ⟨b', hb', hholds⟩ := fetch_holds ha buffSize
    rw [hqueue] at hholds hb'
    exact ⟨_, _, by rw [step, hb']; rfl, rfl, holds_update hqueues hholds, trivial⟩
  | shrink i =>
    obtain ⟨a, ha, hqueue⟩ := hrep i
    obtain ⟨b', hb', hholds⟩ := cloneFrom_holds ha
    rw [hqueue] at hholds
    exact ⟨_, _, by rw [step, shrink, hb']; rfl, rfl, holds_update_same hqueues hholds, trivial⟩
  | copy i other =>
    by_cases hself : i = other
    · subst hself
      refine ⟨_, _, if_pos rfl, rfl, fun j => ?_, trivial⟩
      simpa [queueStep] using hqueues j
    obtain ⟨a, ha, hqueue⟩ := hrep other
    obtain ⟨b', hb', hholds⟩ := cloneFrom_holds ha
    rw [hqueue] at hholds
    exact ⟨_, _, by rw [step, if_neg hself, hb']; rfl, rfl, holds_update hqueues hholds, trivial⟩
  | move i other =>
    by_cases hself : i = other
    · refine ⟨_, _, if_pos hself, ?_, ?_, trivial⟩
      · rw [queueStep, if_pos hself]
      · rw [queueStep, if_pos hself]
        exact hqueues
    · refine ⟨_, _, if_neg hself, ?_, ?_, trivial⟩
      · rw [queueStep, if_neg hself]
      · rw [queueStep, if_neg hself]
        exact holds_update (holds_update hqueues (hqueues other)) (holds_construct 0)
  | swap i other =>
    exact ⟨_, _, rfl, rfl, holds_update (holds_update hqueues (hqueues other)) (hqueues i), trivial⟩

theorem not_follows {out : Bytes} (hqueues : ∀ i, (buffers i).Holds (queues i)) (hmeets : ¬Meets buffers op)
    (hstep : step buffers op = some (out, buffers')) : ¬Follows buffers queues op out buffers' := by
  have hrep := fun i => (hqueues i).exists_represents
  cases op with
  | append i data =>
    obtain ⟨a, ha, -⟩ := hrep i
    rw [step, append_outgrows ha (not_not.mp hmeets)] at hstep
    cases hstep
  | ensureWritableSize i writeSize =>
    obtain ⟨a, ha, -⟩ := hrep i
    rw [step, ensureWritableSize_overruns ha (not_not.mp hmeets)] at hstep
    cases hstep
  | hasWritten i writeSize =>
    obtain ⟨a, ha, hqueue⟩ := hrep i
    cases hstep
    intro hfollows
    have hholds := hfollows.holds i
    simp only [queueStep, areaOf, update_self, ← hqueue] at hholds
    exact hasWritten_wraps ha (Nat.le_of_not_lt hmeets) hholds
  | hasRead i readSize =>
    obtain ⟨a, ha, hqueue⟩ := hrep i
    cases hstep
    intro hfollows
    have hholds := hfollows.holds i
    simp only [queueStep, update_self, ← hqueue] at hholds
    exact hasRead_wraps ha (Nat.le_of_not_lt hmeets) hholds
  | construct | hasReadAll | write | fetch | shrink | copy | move | swap => exact absurd trivial hmeets

/-- **Buffers are queues of bytes for as long as no sum of their indices wraps.** -/
theorem areQueues_iff_noWrap (sizes : ι → UInt64) (ops : List (Op ι)) :
    AreQueues ops (fun i => construct (sizes i)) (fun _ => []) ↔ NoWrap ops fun i => construct (sizes i) := by
  suffices h : ∀ (buffers : ι → Buffer) (queues : ι → Bytes), (∀ i, (buffers i).Holds (queues i)) →
      (AreQueues ops buffers queues ↔ NoWrap ops buffers) from h _ _ fun i => holds_construct (sizes i)
  induction ops with
  | nil => exact fun _ _ _ => Iff.rfl
  | cons op ops ih =>
    intro buffers queues hqueues
    rw [AreQueues, NoWrap]
    constructor
    · rintro ⟨out, buffers', hstep, hfollows, hrest⟩
      refine ⟨by_contra fun hmeets => not_follows hqueues hmeets hstep hfollows, ?_⟩
      intro out' buffers'' hstep'
      obtain ⟨rfl, rfl⟩ := Prod.mk.inj (Option.some.inj (hstep.symm.trans hstep'))
      exact (ih _ _ hfollows.holds).mp hrest
    · rintro ⟨hmeets, hrest⟩
      obtain ⟨out, buffers', hstep, hfollows⟩ := step_follows hqueues hmeets
      exact ⟨out, buffers', hstep, hfollows, (ih _ _ hfollows.holds).mpr (hrest out buffers' hstep)⟩

/-- Of three bytes one has been read. To read as many as there can be gives it back. -/
theorem hasRead_not_areQueues : ¬AreQueues
    [.append () ⟨[1, 2, 3], by decide⟩, .hasRead () 1, .hasRead () 0xffffffffffffffff]
    (fun _ : Unit => construct 4) (fun _ => []) := by
  have happend : (construct 4).append ⟨[1, 2, 3], by decide⟩ =
      some (3, { buffer := ⟨[1, 2, 3, 0], by decide⟩, readIndex := 0, writeIndex := 3 }) := by decide
  have hread : ((({ buffer := ⟨[1, 2, 3, 0], by decide⟩, readIndex := 0, writeIndex := 3 } : Buffer).hasRead 1).hasRead
      0xffffffffffffffff).readable = [1, 2, 3] := by decide
  rintro ⟨out₁, b₁, hstep₁, -, out₂, b₂, hstep₂, -, out₃, b₃, hstep₃, hfollows, -⟩
  rw [step, happend] at hstep₁
  cases hstep₁
  cases hstep₂
  cases hstep₃
  have hreadable := (hfollows.holds ()).2
  simp only [update_self, hread] at hreadable
  exact absurd hreadable (by decide)

end Runs

end Tbox.Util.Machine.Buffer
