import Tbox.Util.Serializer

/-!
# What is serialised is read again

Writer and reader meet at the bytes an item stands for in an order.
-/

open List Option

namespace Tbox.Util

open Lib (Bytes Block)
open Lib.Block (littleBytes)

variable {added : Bytes} {item : Item} {items : List Item} {s s' : Serializer} {d : Deserializer}

def inOrder : Endian → Bytes → Bytes
  | .kBig, bytes => bytes.reverse
  | .kLittle, bytes => bytes

@[simp]
theorem length_inOrder (e : Endian) (bytes : Bytes) : (inOrder e bytes).length = bytes.length := by
  cases e <;> simp [inOrder]

namespace Item

def bytes (e : Endian) : Item → Bytes
  | .endian _ => []
  | .uint8 value => inOrder e (littleBytes 1 value.toNat)
  | .int8 value => inOrder e (littleBytes 1 value.toUInt8.toNat)
  | .uint16 value => inOrder e (littleBytes 2 value.toNat)
  | .int16 value => inOrder e (littleBytes 2 value.toUInt16.toNat)
  | .uint32 value => inOrder e (littleBytes 4 value.toNat)
  | .int32 value => inOrder e (littleBytes 4 value.toUInt32.toNat)
  | .uint64 value => inOrder e (littleBytes 8 value.toNat)
  | .int64 value => inOrder e (littleBytes 8 value.toUInt64.toNat)
  | .block value => value.bytes
  | .object value => inOrder e value.bytes

def size : Item → Nat
  | .endian _ => 0
  | .uint8 _ | .int8 _ => 1
  | .uint16 _ | .int16 _ => 2
  | .uint32 _ | .int32 _ => 4
  | .uint64 _ | .int64 _ => 8
  | .block value | .object value => value.bytes.length

def endianAfter (e : Endian) : Item → Endian
  | .endian e' => e'
  | _ => e

@[simp]
theorem length_bytes (e : Endian) (item : Item) : (item.bytes e).length = item.size := by
  cases item <;> simp [bytes, size]

end Item

/-- The bytes of items one after the other. -/
def encode : Endian → List Item → Bytes
  | _, [] => []
  | e, item :: items => item.bytes e ++ encode (item.endianAfter e) items

def totalSize (items : List Item) : Nat := (items.map Item.size).sum

@[simp]
theorem length_encode (e : Endian) (items : List Item) : (encode e items).length = totalSize items := by
  induction items generalizing e with
  | nil => rfl
  | cons item items ih => simp [encode, totalSize, ih]

namespace Serializer

def raw (memory : Block) (e : Endian) : Serializer := { type := .kRaw, block := memory, endian := e }

/-- Over an empty vector. -/
def vector (e : Endian) : Serializer := { type := .kVector, block := .empty, endian := e }

/-- It has not left its memory, and a vector is as long as what has been written. -/
structure Inside (s : Serializer) : Prop where
  le : s.pos.toNat ≤ s.block.bytes.length
  vector : s.type = .kVector → s.block.bytes.length = s.pos.toNat

def written (s : Serializer) : Block := s.block.part 0 s.pos.toNat

/-- The memory behind what has been written. -/
def rest (s : Serializer) : Bytes := s.block.bytes.drop s.pos.toNat

structure Writes (s : Serializer) (bytes : Bytes) (s' : Serializer) : Prop where
  inside : s'.Inside
  type : s'.type = s.type
  written : s'.written.bytes = s.written.bytes ++ bytes
  rest : s'.rest = s.rest.drop bytes.length
  pos : s'.pos.toNat = s.pos.toNat + bytes.length

theorem Writes.trans {s'' : Serializer} {more : Bytes} (h : s.Writes added s') (h' : s'.Writes more s'') :
    s.Writes (added ++ more) s'' where
  inside := h'.inside
  type := h'.type.trans h.type
  written := by rw [h'.written, h.written, append_assoc]
  rest := by rw [h'.rest, h.rest, drop_drop, length_append]
  pos := by rw [h'.pos, h.pos, length_append, Nat.add_assoc]

def HasRoom (s : Serializer) (n : Nat) : Prop := s.type = .kRaw → n ≤ s.rest.length

theorem Writes.hasRoom {n : Nat} (h : s.Writes added s') (hroom : s.HasRoom (added.length + n)) : s'.HasRoom n := by
  intro htype
  have hle := hroom (h.type ▸ htype)
  rw [h.rest, length_drop]
  omega

theorem inside_raw (memory : Block) (e : Endian) : (raw memory e).Inside := ⟨by simp [raw], by simp [raw]⟩

theorem inside_vector (e : Endian) : (vector e).Inside := ⟨by simp [vector], by simp [vector, Block.empty]⟩

@[simp]
theorem rest_raw (memory : Block) (e : Endian) : (raw memory e).rest = memory.bytes := by simp [rest, raw]

theorem toNat_pos_add {size : UInt64} {n : Nat} (hsize : size.toNat = n) (hwrap : s.pos.toNat + n < 2 ^ 64) :
    (s.pos + size).toNat = s.pos.toNat + n := by
  rw [UInt64.toNat_add, hsize, Nat.mod_eq_of_lt hwrap]

def WritesAt (write : Block → Option Block) (pos : Nat) (added : Bytes) : Prop :=
  ∀ (b : Block) (before old after : Bytes), b.bytes = before ++ old ++ after → before.length = pos →
    old.length = added.length → ∃ b', write b = some b' ∧ b'.bytes = before ++ added ++ after

theorem writes_of {b : Block} {size : UInt64} {after : Bytes} (hs : s.Inside) (hsize : size.toNat = added.length)
    (hwrap : s.pos.toNat + added.length < 2 ^ 64) (hb : b.bytes = s.block.bytes.take s.pos.toNat ++ added ++ after)
    (hafter : after = s.rest.drop added.length) (hvector : s.type = .kVector → after = []) :
    s.Writes added { s with block := b, pos := s.pos + size } := by
  have hpos := toNat_pos_add hsize hwrap
  have htake : (s.block.bytes.take s.pos.toNat).length = s.pos.toNat := by
    rw [length_take, Nat.min_eq_left hs.le]
  have hlength : (s.block.bytes.take s.pos.toNat ++ added).length = s.pos.toNat + added.length := by
    rw [length_append, htake]
  refine ⟨⟨?_, fun hv => ?_⟩, rfl, ?_, ?_, hpos⟩
  · simp only [hpos, hb, length_append, htake]
    omega
  · simp only [hpos, hb, hvector hv, length_append, htake, length_nil]
    omega
  · simp only [written, Block.part, drop_zero, hpos, hb]
    exact take_left' hlength
  · simp only [rest, hpos, hb]
    rw [drop_left' hlength, hafter]
    rfl

theorem appendChecked_spec {size : UInt64} {write : Block → Option Block} (hs : s.Inside)
    (hsize : size.toNat = added.length) (hwrap : s.pos.toNat + added.length < 2 ^ 64)
    (hwrite : WritesAt write s.pos.toNat added) :
    (s.HasRoom added.length → ∃ s', s.appendChecked size write = some (true, s') ∧ s.Writes added s' ∧
      s'.endian = s.endian) ∧ (¬s.HasRoom added.length → s.appendChecked size write = some (false, s)) := by
  have hpos := toNat_pos_add hsize hwrap
  have htake : (s.block.bytes.take s.pos.toNat).length = s.pos.toNat := by
    rw [length_take, Nat.min_eq_left hs.le]
  cases htype : s.type with
  | kRaw =>
    have hextend : s.extendSize size = (decide (s.pos.toNat + added.length ≤ s.block.bytes.length), s) := by
      simp [extendSize, htype, UInt64.le_iff_toNat_le, hpos]
    have hroom : s.HasRoom added.length ↔ s.pos.toNat + added.length ≤ s.block.bytes.length := by
      have hle := hs.le
      simp only [HasRoom, htype, forall_const, rest, length_drop]
      omega
    rw [hroom, appendChecked, hextend]
    constructor
    · intro hfits
      obtain ⟨b, hb, hbytes⟩ := hwrite s.block (s.block.bytes.take s.pos.toNat) (s.rest.take added.length)
        (s.rest.drop added.length) (by simp [rest]) htake (by simp [rest]; omega)
      refine ⟨{ s with block := b, pos := s.pos + size }, ?_, ?_, rfl⟩
      · simp only [decide_eq_true hfits, hb, map_some]
      · exact writes_of hs hsize hwrap hbytes rfl (by simp [htype])
    · intro hfits
      rw [decide_eq_false hfits]
  | kVector =>
    have hlength := hs.vector htype
    have hroom : s.HasRoom added.length := by simp [HasRoom, htype]
    refine ⟨fun _ => ?_, fun hnone => absurd hroom hnone⟩
    have hresize : (s.block.resize (s.pos + size)).bytes =
        s.block.bytes.take s.pos.toNat ++ List.replicate added.length 0 ++ [] := by
      simp only [Block.resize, hpos, hlength, append_nil, Nat.add_sub_cancel_left]
      rw [take_of_length_le (by omega), take_of_length_le (by omega)]
    obtain ⟨b, hb, hbytes⟩ := hwrite _ _ _ _ hresize htake length_replicate
    refine ⟨{ s with block := b, pos := s.pos + size }, ?_, ?_, rfl⟩
    · simp only [appendChecked, extendSize, htype, hb, map_some]
    · refine writes_of hs hsize hwrap hbytes ?_ fun _ => rfl
      simp [rest, hlength]

theorem writesAt_store (pos : Nat) (added : Bytes) : WritesAt (fun b => b.store pos added) pos added := by
  rintro b before old after hb rfl hold
  exact Block.store_append hb hold

theorem writesAt_big (pos n number : Nat) :
    WritesAt (Block.putBytes pos (List.range n).reverse number) pos (inOrder .kBig (littleBytes n number)) := by
  rintro b before old after hb rfl hold
  exact Block.putBytes_descending number hb (by simpa using hold)

theorem writesAt_little (pos n number : Nat) :
    WritesAt (Block.putBytes pos (List.range' 0 n) number) pos (inOrder .kLittle (littleBytes n number)) := by
  rintro b before old after hb rfl hold
  exact Block.putBytes_ascending number hb (by simpa using hold) rfl

def Puts (put : Serializer → Option (Bool × Serializer)) (s : Serializer) (added : Bytes) : Prop :=
  (s.HasRoom added.length → ∃ s', put s = some (true, s') ∧ s.Writes added s' ∧ s'.endian = s.endian) ∧
    (¬s.HasRoom added.length → put s = some (false, s))

theorem appendInteger_puts {n : Nat} (hn : n ≤ 8) (number : Nat) (hs : s.Inside) (hwrap : s.pos.toNat + n < 2 ^ 64) :
    Puts (appendInteger n (List.range n).reverse (List.range' 0 n) number) s
      (inOrder s.endian (littleBytes n number)) := by
  have hsize : (UInt64.ofNat n).toNat = (inOrder s.endian (littleBytes n number)).length := by
    rw [UInt64.toNat_ofNat', length_inOrder, Block.length_littleBytes]
    omega
  refine appendChecked_spec hs hsize (by simpa using hwrap) ?_
  cases s.endian with
  | kBig => exact writesAt_big s.pos.toNat n number
  | kLittle => exact writesAt_little s.pos.toNat n number

theorem append_puts (input : Block) (hs : s.Inside) (hwrap : s.pos.toNat + input.bytes.length < 2 ^ 64) :
    Puts (append input) s input.bytes :=
  appendChecked_spec hs (Block.toNat_size input) hwrap (writesAt_store _ _)

theorem appendPOD_puts (input : Block) (hs : s.Inside) (hwrap : s.pos.toNat + input.bytes.length < 2 ^ 64) :
    Puts (appendPOD input) s (inOrder s.endian input.bytes) := by
  refine appendChecked_spec hs (by simp) (by simpa using hwrap) ?_
  cases s.endian with
  | kBig =>
    simp only [Block.bytes_backwards]
    exact writesAt_store _ _
  | kLittle => exact writesAt_store _ _

theorem put_spec (item : Item) (hs : s.Inside) (hwrap : s.pos.toNat + item.size < 2 ^ 64) :
    (s.HasRoom item.size → ∃ s', s.put item = some (true, s') ∧ s.Writes (item.bytes s.endian) s' ∧
      s'.endian = item.endianAfter s.endian) ∧ (¬s.HasRoom item.size → s.put item = some (false, s)) := by
  rw [← Item.length_bytes s.endian item]
  cases item with
  | endian e =>
    have hroom : s.HasRoom 0 := fun _ => Nat.zero_le _
    refine ⟨fun _ => ⟨s.setEndian e, rfl, ⟨⟨hs.le, hs.vector⟩, rfl, ?_, rfl, rfl⟩, rfl⟩,
      fun hnone => absurd hroom hnone⟩
    simp [Item.bytes, setEndian, written]
  | uint8 value => exact appendInteger_puts (by decide) _ hs hwrap
  | int8 value => exact appendInteger_puts (by decide) _ hs hwrap
  | uint16 value => exact appendInteger_puts (by decide) _ hs hwrap
  | int16 value => exact appendInteger_puts (by decide) _ hs hwrap
  | uint32 value => exact appendInteger_puts (by decide) _ hs hwrap
  | int32 value => exact appendInteger_puts (by decide) _ hs hwrap
  | uint64 value => exact appendInteger_puts (by decide) _ hs hwrap
  | int64 value => exact appendInteger_puts (by decide) _ hs hwrap
  | block value => exact append_puts value hs hwrap
  | object value => exact appendPOD_puts value hs hwrap

/-- Positions that do not wrap, for as long as the items are put. -/
def NoWrap : List Item → Serializer → Prop
  | [], _ => True
  | item :: items, s =>
    s.pos.toNat + item.size < 2 ^ 64 ∧ ∀ result, s.put item = some result → NoWrap items result.2

theorem putAll_spec (hs : s.Inside) (hwrap : NoWrap items s) :
    ∃ done s', s.putAll items = some (done, s') ∧ done.Sublist items ∧ s.Writes (encode s.endian done) s' ∧
      (s.HasRoom (totalSize items) → done = items) := by
  induction items generalizing s with
  | nil => exact ⟨[], s, rfl, .refl _, ⟨hs, rfl, by simp [encode], rfl, rfl⟩, fun _ => rfl⟩
  | cons item items ih =>
    obtain ⟨hfirst, hlater⟩ := hwrap
    obtain ⟨hput, hrefused⟩ := put_spec item hs hfirst
    by_cases hroom : s.HasRoom item.size
    · obtain ⟨s₁, hs₁, hwrites, hendian⟩ := hput hroom
      obtain ⟨done, s₂, hs₂, hsub, hwrites₂, hall⟩ := ih hwrites.inside (hlater _ hs₁)
      refine ⟨item :: done, s₂, by simp [putAll, hs₁, hs₂], hsub.cons_cons item, ?_, fun hroom' => ?_⟩
      · rw [encode, ← hendian]
        exact hwrites.trans hwrites₂
      · rw [hall (hwrites.hasRoom ?_)]
        simpa [totalSize] using hroom'
    · obtain ⟨done, s₂, hs₂, hsub, hwrites, hall⟩ := ih hs (hlater _ (hrefused hroom))
      refine ⟨done, s₂, by simp [putAll, hrefused hroom, hs₂], hsub.cons item, hwrites, fun hroom' => ?_⟩
      refine absurd (fun htype => ?_) hroom
      have hle := hroom' htype
      simp only [totalSize, map_cons, sum_cons] at hle
      omega

theorem noWrap_of_total (hs : s.Inside) (htotal : s.pos.toNat + totalSize items < 2 ^ 64) : NoWrap items s := by
  induction items generalizing s with
  | nil => trivial
  | cons item items ih =>
    simp only [totalSize, map_cons, sum_cons] at htotal
    have hfirst : s.pos.toNat + item.size < 2 ^ 64 := by omega
    obtain ⟨hput, hrefused⟩ := put_spec item hs hfirst
    refine ⟨hfirst, fun result hresult => ?_⟩
    by_cases hroom : s.HasRoom item.size
    · obtain ⟨s₁, hs₁, hwrites, -⟩ := hput hroom
      have hpos := hwrites.pos
      cases hs₁.symm.trans hresult
      refine ih hwrites.inside ?_
      rw [hpos, Item.length_bytes, totalSize]
      omega
    · cases (hrefused hroom).symm.trans hresult
      exact ih hs (show s.pos.toNat + totalSize items < 2 ^ 64 by rw [totalSize]; omega)

end Serializer

namespace Deserializer

variable {after : Bytes} {d' : Deserializer}

def Before (d : Deserializer) (added after : Bytes) : Prop :=
  ∃ before, d.block.bytes = before ++ added ++ after ∧ before.length = d.pos.toNat

structure Reads (d : Deserializer) (n : Nat) (d' : Deserializer) : Prop where
  block : d'.block = d.block
  pos : d'.pos.toNat = d.pos.toNat + n

theorem Before.next {n : Nat} {more : Bytes} (h : d.Before (added ++ more) after) (hn : added.length = n)
    (hreads : d.Reads n d') : d'.Before more after := by
  obtain ⟨before, hbytes, hlength⟩ := h
  refine ⟨before ++ added, ?_, ?_⟩
  · rw [hreads.block, hbytes]
    simp
  · rw [hreads.pos, length_append, hlength, hn]

theorem fetchChecked_spec {α : Type} {size : UInt64} {read : Option α} {value : α} {n : Nat}
    (h : d.Before added after) (hn : added.length = n) (hsize : size.toNat = n) (hread : read = some value) :
    ∃ d', d.fetchChecked size read = some (some value, d') ∧ d.Reads n d' ∧ d'.endian = d.endian := by
  obtain ⟨before, hbytes, hbefore⟩ := h
  have hlt := d.block.length_lt
  have hlength : d.pos.toNat + n ≤ d.block.bytes.length := by
    simp only [hbytes, length_append]
    omega
  have hpos : (d.pos + size).toNat = d.pos.toNat + n := by
    rw [UInt64.toNat_add, hsize, Nat.mod_eq_of_lt (by omega)]
  have hcheck : d.checkSize size = true := by
    simpa [checkSize, UInt64.le_iff_toNat_le, hpos] using hlength
  refine ⟨{ d with pos := d.pos + size }, ?_, ⟨rfl, hpos⟩, rfl⟩
  rw [fetchChecked, if_pos hcheck, hread, map_some]

theorem fetchInteger_spec {n number : Nat} (hn : n ≤ 8) (hnumber : number < 256 ^ n)
    (h : d.Before (inOrder d.endian (littleBytes n number)) after) :
    ∃ d', d.fetchInteger n (List.range' 0 n) (List.range n).reverse = some (some number, d') ∧ d.Reads n d' ∧
      d'.endian = d.endian := by
  refine fetchChecked_spec h (by simp) (by simp; omega) ?_
  obtain ⟨before, hbytes, hbefore⟩ := h
  rw [← Nat.mod_eq_of_lt hnumber, ← Block.foldl_littleBytes, ← hbefore]
  cases he : d.endian with
  | kBig =>
    rw [he] at hbytes
    have htaken := Block.takeBytes_ascending 0 hbytes (show before.length = before.length + 0 from rfl)
    simpa only [inOrder, length_reverse, Block.length_littleBytes] using htaken
  | kLittle =>
    rw [he] at hbytes
    have htaken := Block.takeBytes_descending 0 hbytes
    simpa only [inOrder, Block.length_littleBytes] using htaken

theorem fetch8_spec {value : UInt8} (h : d.Before (inOrder d.endian (littleBytes 1 value.toNat)) after) :
    ∃ d', d.fetch8 = some (some value, d') ∧ d.Reads 1 d' ∧ d'.endian = d.endian := by
  obtain ⟨d', hd', hreads⟩ := fetchInteger_spec (by decide) value.toNat_lt h
  refine ⟨d', ?_, hreads⟩
  rw [fetch8]
  exact (congrArg _ hd').trans (by simp)

theorem fetch16_spec {value : UInt16} (h : d.Before (inOrder d.endian (littleBytes 2 value.toNat)) after) :
    ∃ d', d.fetch16 = some (some value, d') ∧ d.Reads 2 d' ∧ d'.endian = d.endian := by
  obtain ⟨d', hd', hreads⟩ := fetchInteger_spec (by decide) value.toNat_lt h
  refine ⟨d', ?_, hreads⟩
  rw [fetch16]
  exact (congrArg _ hd').trans (by simp)

theorem fetch32_spec {value : UInt32} (h : d.Before (inOrder d.endian (littleBytes 4 value.toNat)) after) :
    ∃ d', d.fetch32 = some (some value, d') ∧ d.Reads 4 d' ∧ d'.endian = d.endian := by
  obtain ⟨d', hd', hreads⟩ := fetchInteger_spec (by decide) value.toNat_lt h
  refine ⟨d', ?_, hreads⟩
  rw [fetch32]
  exact (congrArg _ hd').trans (by simp)

theorem fetch64_spec {value : UInt64} (h : d.Before (inOrder d.endian (littleBytes 8 value.toNat)) after) :
    ∃ d', d.fetch64 = some (some value, d') ∧ d.Reads 8 d' ∧ d'.endian = d.endian := by
  obtain ⟨d', hd', hreads⟩ := fetchInteger_spec (by decide) value.toNat_lt h
  refine ⟨d', ?_, hreads⟩
  rw [fetch64]
  exact (congrArg _ hd').trans (by simp)

theorem fetch_spec {input : Block} (h : d.Before input.bytes after) :
    ∃ d', d.fetch input.size = some (some input, d') ∧ d.Reads input.bytes.length d' ∧ d'.endian = d.endian := by
  refine fetchChecked_spec h rfl (by simp) ?_
  obtain ⟨before, hbytes, hbefore⟩ := h
  rw [← hbefore, Block.toNat_size]
  exact Block.load_append hbytes

theorem fetchPOD_spec {input : Block} (h : d.Before (inOrder d.endian input.bytes) after) :
    ∃ d', d.fetchPOD input.size = some (some input, d') ∧ d.Reads input.bytes.length d' ∧ d'.endian = d.endian := by
  refine fetchChecked_spec h (by simp) (by simp) ?_
  obtain ⟨before, hbytes, hbefore⟩ := h
  rw [← hbefore, Block.toNat_size]
  cases he : d.endian with
  | kBig =>
    rw [he, inOrder, ← Block.bytes_backwards] at hbytes
    have hload := Block.load_append hbytes
    rw [Block.bytes_backwards, length_reverse] at hload
    rw [hload, map_some]
    exact congrArg some (Block.ext (by simp))
  | kLittle =>
    rw [he] at hbytes
    rw [Block.load_append hbytes, map_some]

theorem take_spec (item : Item) (h : d.Before (item.bytes d.endian) after) :
    ∃ d', d.take item = some (some item, d') ∧ d.Reads item.size d' ∧ d'.endian = item.endianAfter d.endian := by
  cases item with
  | endian e => exact ⟨d.setEndian e, rfl, ⟨rfl, rfl⟩, rfl⟩
  | uint8 value =>
    obtain ⟨d', hd', hreads⟩ := fetch8_spec h
    exact ⟨d', by simp [take, hd', received], hreads⟩
  | int8 value =>
    obtain ⟨d', hd', hreads⟩ := fetch8_spec h
    exact ⟨d', by simp [take, hd', received], hreads⟩
  | uint16 value =>
    obtain ⟨d', hd', hreads⟩ := fetch16_spec h
    exact ⟨d', by simp [take, hd', received], hreads⟩
  | int16 value =>
    obtain ⟨d', hd', hreads⟩ := fetch16_spec h
    exact ⟨d', by simp [take, hd', received], hreads⟩
  | uint32 value =>
    obtain ⟨d', hd', hreads⟩ := fetch32_spec h
    exact ⟨d', by simp [take, hd', received], hreads⟩
  | int32 value =>
    obtain ⟨d', hd', hreads⟩ := fetch32_spec h
    exact ⟨d', by simp [take, hd', received], hreads⟩
  | uint64 value =>
    obtain ⟨d', hd', hreads⟩ := fetch64_spec h
    exact ⟨d', by simp [take, hd', received], hreads⟩
  | int64 value =>
    obtain ⟨d', hd', hreads⟩ := fetch64_spec h
    exact ⟨d', by simp [take, hd', received], hreads⟩
  | block value =>
    obtain ⟨d', hd', hreads⟩ := fetch_spec h
    exact ⟨d', by simp [take, hd', received], hreads⟩
  | object value =>
    obtain ⟨d', hd', hreads⟩ := fetchPOD_spec h
    exact ⟨d', by simp [take, hd', received], hreads⟩

theorem takeAll_spec (h : d.Before (encode d.endian items) after) :
    ∃ d', d.takeAll items = some (items.map some, d') ∧ d.Reads (totalSize items) d' := by
  induction items generalizing d with
  | nil => exact ⟨d, rfl, rfl, rfl⟩
  | cons item items ih =>
    rw [encode] at h
    obtain ⟨before, hbytes, hbefore⟩ := h
    have hfirst : d.Before (item.bytes d.endian) (encode (item.endianAfter d.endian) items ++ after) :=
      ⟨before, by simp [hbytes], hbefore⟩
    obtain ⟨d₁, hd₁, hreads, hendian⟩ := take_spec item hfirst
    have hrest : d₁.Before (encode d₁.endian items) after := by
      rw [hendian]
      exact Before.next ⟨before, hbytes, hbefore⟩ (Item.length_bytes _ _) hreads
    obtain ⟨d₂, hd₂, hreads₂⟩ := ih hrest
    refine ⟨d₂, by simp [takeAll, hd₁, hd₂], hreads₂.block.trans hreads.block, ?_⟩
    rw [hreads₂.pos, hreads.pos, totalSize, totalSize, map_cons, sum_cons, Nat.add_assoc]

end Deserializer

/-- A reader of what has been written, in the order the writer began with, takes these items and no more. -/
def ReadsBack (s : Serializer) (items : List Item) (s' : Serializer) : Prop :=
  ∃ d : Deserializer,
    Deserializer.takeAll items { block := s'.written, endian := s.endian } = some (items.map some, d) ∧
      d.pos = s'.pos ∧ d.pos = s'.written.size

theorem readsBack {s s' : Serializer} (hpos : s.pos = 0) (hwrites : s.Writes (encode s.endian items) s') :
    ReadsBack s items s' := by
  have hwritten := hwrites.written
  have hempty : s.written.bytes = [] := by simp [Serializer.written, Block.part, hpos]
  rw [hempty, nil_append] at hwritten
  have hbefore : Deserializer.Before { block := s'.written, endian := s.endian } (encode s.endian items) [] :=
    ⟨[], by simp [hwritten], rfl⟩
  obtain ⟨d, hd, hreads⟩ := Deserializer.takeAll_spec hbefore
  have hlength : d.pos.toNat = totalSize items := by simpa using hreads.pos
  refine ⟨d, hd, UInt64.toNat_inj.mp ?_, UInt64.toNat_inj.mp ?_⟩
  · rw [hlength, hwrites.pos, hpos, length_encode, UInt64.toNat_zero, Nat.zero_add]
  · rw [hlength, Block.toNat_size, hwritten, length_encode]

/-- **What has been put comes out unchanged, to the last byte**; where an item does not fit nothing changes. -/
theorem items_readBack :
    (∀ (items : List Item) (e : Endian) (memory : Block), totalSize items ≤ memory.bytes.length →
      ∃ s', (Serializer.raw memory e).putAll items = some (items, s') ∧
        ReadsBack (Serializer.raw memory e) items s' ∧ s'.rest = memory.bytes.drop (totalSize items)) ∧
    (∀ (items : List Item) (e : Endian), totalSize items < 2 ^ 64 →
      ∃ s', (Serializer.vector e).putAll items = some (items, s') ∧
        ReadsBack (Serializer.vector e) items s' ∧ s'.block = s'.written) ∧
    (∀ (s : Serializer) (item : Item), s.type = .kRaw → s.Inside → s.pos.toNat + item.size < 2 ^ 64 →
      s.block.bytes.length < s.pos.toNat + item.size → s.put item = some (false, s)) ∧
    ∀ (items : List Item) (e : Endian) (memory : Block), (Serializer.raw memory e).NoWrap items →
      ∃ done s', (Serializer.raw memory e).putAll items = some (done, s') ∧ done.Sublist items ∧
        ReadsBack (Serializer.raw memory e) done s' ∧ s'.rest = memory.bytes.drop (totalSize done) := by
  refine ⟨fun items e memory htotal => ?_, fun items e htotal => ?_, fun s item htype hs hwrap hlong => ?_,
    fun items e memory hwrap => ?_⟩
  · have hlt := memory.length_lt
    have hwrap : (Serializer.raw memory e).NoWrap items :=
      Serializer.noWrap_of_total (Serializer.inside_raw memory e) (by simp [Serializer.raw]; omega)
    obtain ⟨done, s', hs', -, hwrites, hall⟩ := Serializer.putAll_spec (Serializer.inside_raw memory e) hwrap
    obtain rfl := hall fun _ => htotal
    exact ⟨s', hs', readsBack rfl hwrites, by simpa using hwrites.rest⟩
  · have hwrap : (Serializer.vector e).NoWrap items :=
      Serializer.noWrap_of_total (Serializer.inside_vector e) (by simpa [Serializer.vector] using htotal)
    obtain ⟨done, s', hs', -, hwrites, hall⟩ := Serializer.putAll_spec (Serializer.inside_vector e) hwrap
    obtain rfl := hall fun htype => by cases htype
    refine ⟨s', hs', readsBack rfl hwrites, Block.ext ?_⟩
    have hlength := hwrites.inside.vector hwrites.type
    simp [Serializer.written, Block.part, ← hlength]
  · refine (Serializer.put_spec item hs hwrap).2 fun hroom => ?_
    have hle := hroom htype
    rw [Serializer.rest, List.length_drop] at hle
    have hinside := hs.le
    omega
  · obtain ⟨done, s', hs', hsub, hwrites, -⟩ := Serializer.putAll_spec (Serializer.inside_raw memory e) hwrap
    exact ⟨done, s', hs', hsub, readsBack rfl hwrites, by simpa using hwrites.rest⟩

/-- A number of each order and a block, in memory that they fill. -/
theorem threeItems_readBack :
    let items : List Item := [.uint16 0x1234, .endian .kLittle, .int32 (-2), .block ⟨[7, 8], by decide⟩]
    let memory : Block := ⟨List.replicate 8 0, by decide⟩
    ∃ s', (Serializer.raw memory .kBig).putAll items = some (items, s') ∧
      ReadsBack (Serializer.raw memory .kBig) items s' ∧ s'.rest = [] :=
  items_readBack.1 _ .kBig _ (by decide)

end Tbox.Util
