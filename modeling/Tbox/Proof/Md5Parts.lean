import Tbox.Crypto.Md5
import Tbox.Lib.Blocks
import Tbox.Lib.Rounds

/-!
# A message in parts has the digest of the message

What `update` has done depends on the message only, as long as each part is short of 2^32 bytes and the carry of its
bits is counted once. For a part of 2^29 bytes or more one is always counted.
-/

open Option

namespace Tbox.Crypto.MD5

open Lib (Bytes Block blocks leftOver Gives Never)

variable {σ : Type} (transform : σ → Bytes → σ) {init state : σ} {m : MD5 σ} {message : Bytes} {part : Block}
  {parts : List Block} {before extra : Nat}

def paddedWith (message : Bytes) (bits : Nat) : Bytes :=
  message ++ (0x80 :: List.replicate ((119 - message.length % 64) % 64) 0) ++ Block.littleBytes 8 bits

def padded (message : Bytes) : Bytes := paddedWith message (8 * message.length)

def hash (transform : σ → Bytes → σ) (init : σ) (buffer : Vector UInt8 64) (rounds : Nat) (parts : List Block) :
    Option σ := do
  let m ← parts.foldlM (update transform rounds) (start init buffer)
  let m ← m.pad transform rounds
  return m.state

def digest (buffer : Vector UInt8 64) (rounds : Nat) (parts : List Block) : Option Bytes := do
  let m ← parts.foldlM (update Crypto.transform rounds) (new buffer)
  let (digest, _) ← m.finish rounds
  return digest

/-- The blocks of the padded message are transformed one after the other, and the digest is what comes of that. -/
def OneShot (buffer : Vector UInt8 64) (parts : List Block) : Prop :=
  let message := parts.flatMap (·.bytes)
  (∃ rounds, hash (fun transformed block => transformed ++ [block]) [] buffer rounds parts =
    some (blocks 64 (padded message))) ∧
  ∃ rounds, digest buffer rounds parts =
    some (digestOf ((blocks 64 (padded message)).foldl Crypto.transform initial))

def LoopEnds (before len : Nat) : Prop := len < 2 ^ 32 - 64 + (64 - before % 64) % 64

def CountsTwice (before len : Nat) : Prop := 2 ^ 29 ≤ len ∧ 8 * before % 2 ^ 32 + 8 * len % 2 ^ 32 < 2 ^ 32

instance (before len : Nat) : Decidable (LoopEnds before len) := inferInstanceAs (Decidable (_ < _))

instance (before len : Nat) : Decidable (CountsTwice before len) := inferInstanceAs (Decidable (_ ∧ _))

def Heeds (before : Nat) : List Block → Prop
  | [] => True
  | part :: parts => LoopEnds before part.bytes.length ∧ ¬CountsTwice before part.bytes.length ∧
      Heeds (before + part.bytes.length) parts

theorem toNat_add_64 {i : UInt32} : (i + 64).toUInt64.toNat = (i.toNat + 64) % 2 ^ 32 := by
  rw [UInt32.toNat_toUInt64, UInt32.toNat_add]
  rfl

theorem transformLoop_gives {k : Nat} {i : UInt32} (hi : i.toNat = k) (hk : k ≤ part.bytes.length)
    (hends : part.bytes.length < 2 ^ 32 - 64 + k % 64) (state : σ) :
    ∃ i' : UInt32, i'.toNat ≤ part.bytes.length ∧ part.bytes.drop i'.toNat = leftOver 64 (part.bytes.drop k) ∧
      Gives (fun rounds => transformLoop transform part rounds i state)
        (i', (blocks 64 (part.bytes.drop k)).foldl transform state) := by
  induction h : part.bytes.length - k using Nat.strongRecOn generalizing k i state with
  | ind left ih =>
    have hcond : (i + 64).toUInt64 ≤ part.size ↔ k + 64 ≤ part.bytes.length := by
      rw [UInt64.le_iff_toNat_le, toNat_add_64, Block.toNat_size, hi]
      omega
    by_cases hmore : k + 64 ≤ part.bytes.length
    · have hnext : (i + 64).toNat = k + 64 := by
        rw [UInt32.toNat_add, hi]
        exact Nat.mod_eq_of_lt (by simp; omega)
      have htext : part.bytes.drop k = (part.bytes.drop k).take 64 ++ part.bytes.drop (k + 64) := by
        rw [← List.drop_drop, List.take_append_drop]
      have hblock : ((part.bytes.drop k).take 64).length = 64 := List.length_take_of_le (by rw [List.length_drop]; omega)
      obtain ⟨i', hle, hrest, hgives⟩ := ih _ (by omega) hnext hmore (by omega)
        (transform state ((part.bytes.drop k).take 64)) rfl
      rw [htext, Lib.blocks_append_block (by decide) hblock, Lib.leftOver_append_block (by decide) hblock]
      refine ⟨i', hle, hrest, Gives.of_succ rfl (fun rounds => ?_) hgives⟩
      have hload : part.load i.toNat 64 = some (part.part k 64) := by rw [Block.load, hi, if_pos hmore]
      rw [transformLoop, if_pos (hcond.mpr hmore), hload]
      rfl
    · have hshort : (part.bytes.drop k).length < 64 := by
        rw [List.length_drop]
        omega
      rw [Lib.blocks_of_lt hshort, Lib.leftOver_of_lt hshort]
      refine ⟨i, by omega, by rw [hi], Gives.of_succ rfl (fun rounds => ?_) (Lib.gives_of_eq fun rounds => rfl)⟩
      rw [transformLoop, if_neg (hcond.not.mpr hmore)]
      rfl

theorem transformLoop_never {k : Nat} (hends : 2 ^ 32 - 64 + k % 64 ≤ part.bytes.length) (rounds : Nat) (i : UInt32)
    (hi : i.toNat % 64 = k % 64) (state : σ) : transformLoop transform part rounds i state = none := by
  induction rounds generalizing i state with
  | zero => rfl
  | succ rounds ih =>
    have hword : i.toNat < 2 ^ 32 := i.toNat_lt
    have hcond : (i + 64).toUInt64 ≤ part.size := by
      rw [UInt64.le_iff_toNat_le, toNat_add_64, Block.toNat_size]
      omega
    have hnext : (i + 64).toNat % 64 = k % 64 := by
      rw [UInt32.toNat_add, ← hi]
      simp
    rw [transformLoop, if_pos hcond]
    cases part.load i.toNat 64 with
    | none => rfl
    | some block => exact ih (i + 64) hnext _

structure Kept (init : σ) (message : Bytes) (extra : Nat) (m : MD5 σ) : Prop where
  bits : m.count0.toNat + 2 ^ 32 * m.count1.toNat = (8 * message.length + 2 ^ 32 * extra) % 2 ^ 64
  state : m.state = (blocks 64 message).foldl transform init
  buffer : ∃ after, m.buffer.bytes = leftOver 64 message ++ after
  length : m.buffer.bytes.length = 64
  isFinished : m.isFinished = false

def carriesTwice (before len : Nat) : Nat := if CountsTwice before len then 1 else 0

theorem bits_update (count0 count1 : UInt32) {len : UInt64} (hlen : len.toNat < 2 ^ 61) :
    (count0 + (len <<< 3).toUInt32).toNat + 2 ^ 32 *
      ((if (count0 + (len <<< 3).toUInt32).toUInt64 < len <<< 3 then count1 + 1 else count1) +
        (len >>> 29).toUInt32).toNat = (count0.toNat + 2 ^ 32 * count1.toNat + 8 * len.toNat +
        2 ^ 32 * if 2 ^ 29 ≤ len.toNat ∧ count0.toNat + 8 * len.toNat % 2 ^ 32 < 2 ^ 32 then 1 else 0) % 2 ^ 64 := by
  have hshift : (len <<< 3).toNat = 8 * len.toNat := by
    have hthree : (3 : UInt64).toNat % 64 = 3 := rfl
    rw [UInt64.toNat_shiftLeft, hthree, Nat.shiftLeft_eq]
    omega
  have hhigh : (len >>> 29).toUInt32.toNat = len.toNat / 2 ^ 29 := by
    have hnumber : (29 : UInt64).toNat % 64 = 29 := rfl
    rw [UInt64.toNat_toUInt32, UInt64.toNat_shiftRight, hnumber, Nat.shiftRight_eq_div_pow]
    omega
  have hlow : (count0 + (len <<< 3).toUInt32).toNat = (count0.toNat + 8 * len.toNat) % 2 ^ 32 := by
    rw [UInt32.toNat_add, UInt64.toNat_toUInt32, hshift]
    omega
  have hcarry : (count0 + (len <<< 3).toUInt32).toUInt64 < len <<< 3 ↔
      (count0.toNat + 8 * len.toNat) % 2 ^ 32 < 8 * len.toNat := by
    rw [UInt64.lt_iff_toNat_lt, UInt32.toNat_toUInt64, hlow, hshift]
  have hone : (count1 + 1).toNat = (count1.toNat + 1) % 2 ^ 32 := by
    rw [UInt32.toNat_add]
    rfl
  have hword := count0.toNat_lt
  have hword' := count1.toNat_lt
  rw [hlow, UInt32.toNat_add _ (len >>> 29).toUInt32, hhigh]
  by_cases hlt : (count0.toNat + 8 * len.toNat) % 2 ^ 32 < 8 * len.toNat
  · rw [if_pos (hcarry.mpr hlt), hone]
    split_ifs <;> omega
  · rw [if_neg (hcarry.not.mpr hlt)]
    split_ifs <;> omega

theorem Kept.toNat_index (h : Kept transform init message extra m) :
    ((m.count0 >>> 3) &&& 0x3F).toNat = message.length % 64 := by
  have hbits := h.bits
  have hword := m.count0.toNat_lt
  have hthree : (3 : UInt32).toNat % 32 = 3 := rfl
  have hmask : (0x3F : UInt32).toNat = 2 ^ 6 - 1 := rfl
  rw [UInt32.toNat_and, hmask, Nat.and_two_pow_sub_one_eq_mod, UInt32.toNat_shiftRight, hthree,
    Nat.shiftRight_eq_div_pow]
  omega

theorem Kept.toNat_partlen (h : Kept transform init message extra m) :
    ((64 : UInt32) - ((m.count0 >>> 3) &&& 0x3F)).toNat = 64 - message.length % 64 := by
  have hle : ((m.count0 >>> 3) &&& 0x3F) ≤ 64 := by
    rw [UInt32.le_iff_toNat_le, h.toNat_index]
    exact (Nat.mod_lt message.length (by decide)).le
  rw [UInt32.toNat_sub_of_le _ _ hle, h.toNat_index]
  rfl

theorem store_within {b : Block} {front after bytes : Bytes} (h : b.bytes = front ++ after)
    (hlength : bytes.length ≤ after.length) :
    ∃ b', b.store front.length bytes = some b' ∧ b'.bytes = front ++ bytes ++ after.drop bytes.length := by
  have hparts : b.bytes = front ++ after.take bytes.length ++ after.drop bytes.length := by
    rw [List.append_assoc, List.take_append_drop, h]
  exact Block.store_append hparts (List.length_take_of_le hlength)

/-- The bits are counted in either case of `update`. -/
def counted (m : MD5 σ) (len : UInt64) (state : σ) (buffer : Block) : MD5 σ :=
  let count0 := m.count0 + (len <<< 3).toUInt32
  { m with
    count0
    count1 := (if count0.toUInt64 < len <<< 3 then m.count1 + 1 else m.count1) + (len >>> 29).toUInt32
    state
    buffer }

theorem Kept.bits_counted (h : Kept transform init message extra m) (hlen : part.bytes.length < 2 ^ 61)
    (state : σ) (buffer : Block) :
    (counted m part.size state buffer).count0.toNat + 2 ^ 32 * (counted m part.size state buffer).count1.toNat =
      (8 * (message ++ part.bytes).length +
        2 ^ 32 * (extra + carriesTwice message.length part.bytes.length)) % 2 ^ 64 := by
  have hcount : m.count0.toNat = 8 * message.length % 2 ^ 32 := by
    have hbits := h.bits
    have hword := m.count0.toNat_lt
    omega
  rw [counted, bits_update m.count0 m.count1 (by rwa [Block.toNat_size]), h.bits, hcount, Block.toNat_size, carriesTwice,
    List.length_append]
  change ((8 * message.length + 2 ^ 32 * extra) % 2 ^ 64 + 8 * part.bytes.length +
    2 ^ 32 * if CountsTwice message.length part.bytes.length then 1 else 0) % 2 ^ 64 = _
  split_ifs <;> omega

theorem Kept.update_short (h : Kept transform init message extra m)
    (hshort : message.length % 64 + part.bytes.length < 64) :
    ∃ m', (∀ rounds, update transform rounds m part = some m') ∧
      Kept transform init (message ++ part.bytes) (extra + carriesTwice message.length part.bytes.length) m' := by
  obtain ⟨after, hbuffer⟩ := h.buffer
  have hleft : (leftOver 64 message).length = message.length % 64 := Lib.length_leftOver message
  have hafter : message.length % 64 + after.length = 64 := by
    rw [← hleft, ← List.length_append, ← hbuffer, h.length]
  obtain ⟨buffer, hstore, hbytes⟩ := store_within hbuffer (show part.bytes.length ≤ after.length by omega)
  have hfull : (leftOver 64 message ++ part.bytes).length < 64 := by
    rw [List.length_append, hleft]
    exact hshort
  have hbits := h.bits_counted transform (show part.bytes.length < 2 ^ 61 by omega) m.state buffer
  refine ⟨counted m part.size m.state buffer, fun rounds => ?_, hbits, ?_, ?_, ?_, h.isFinished⟩
  · have hpartlen : ¬((64 : UInt32) - ((m.count0 >>> 3) &&& 0x3F)).toUInt64 ≤ part.size := by
      rw [UInt64.le_iff_toNat_le, UInt32.toNat_toUInt64, h.toNat_partlen, Block.toNat_size]
      omega
    rw [update, if_neg (by simp [h.isFinished])]
    rw [if_neg hpartlen, h.toNat_index, ← hleft, hstore]
    rfl
  · rw [Lib.blocks_append (by decide), Lib.blocks_of_lt hfull, List.append_nil]
    exact h.state
  · rw [Lib.leftOver_append (by decide), Lib.leftOver_of_lt hfull]
    exact ⟨_, hbytes⟩
  · exact (Block.length_of_store hstore).trans h.length

theorem Kept.update_eq (h : Kept transform init message extra m)
    (hfills : 64 ≤ message.length % 64 + part.bytes.length) :
    ∃ buffer : Block, buffer.bytes = leftOver 64 message ++ part.bytes.take (64 - message.length % 64) ∧
      ∀ rounds, update transform rounds m part =
        transformLoop transform part rounds ((64 : UInt32) - ((m.count0 >>> 3) &&& 0x3F)) (transform m.state buffer.bytes) >>=
          fun out => do
            let rest ← part.load out.1.toNat (part.size - out.1.toUInt64).toNat
            let buffer ← buffer.store 0 rest.bytes
            return counted m part.size out.2 buffer := by
  obtain ⟨after, hbuffer⟩ := h.buffer
  have hleft : (leftOver 64 message).length = message.length % 64 := Lib.length_leftOver message
  have hafter : message.length % 64 + after.length = 64 := by
    rw [← hleft, ← List.length_append, ← hbuffer, h.length]
  have htake : (part.bytes.take (64 - message.length % 64)).length = after.length := by
    rw [List.length_take]
    omega
  obtain ⟨buffer, hstore, hbytes⟩ := store_within hbuffer htake.le
  rw [hleft] at hstore
  rw [htake, List.drop_length, List.append_nil] at hbytes
  have hload : part.load 0 (64 - message.length % 64) = some (part.part 0 (64 - message.length % 64)) := by
    rw [Block.load, if_pos (by omega)]
  have hpart : (part.part 0 (64 - message.length % 64)).bytes = part.bytes.take (64 - message.length % 64) := rfl
  have hpartlen : ((64 : UInt32) - ((m.count0 >>> 3) &&& 0x3F)).toUInt64 ≤ part.size := by
    rw [UInt64.le_iff_toNat_le, UInt32.toNat_toUInt64, h.toNat_partlen, Block.toNat_size]
    omega
  refine ⟨buffer, hbytes, fun rounds => ?_⟩
  rw [update, if_neg (by simp [h.isFinished])]
  rw [if_pos hpartlen, h.toNat_partlen, hload, h.toNat_index, bind_eq_bind, bind_some, hpart, hstore]
  rfl

theorem Kept.update_long (h : Kept transform init message extra m) (hlen : part.bytes.length < 2 ^ 61)
    (hfills : 64 ≤ message.length % 64 + part.bytes.length) (hends : LoopEnds message.length part.bytes.length) :
    ∃ m', Gives (fun rounds => update transform rounds m part) m' ∧
      Kept transform init (message ++ part.bytes) (extra + carriesTwice message.length part.bytes.length) m' := by
  obtain ⟨buffer, hbytes, hupdate⟩ := h.update_eq transform hfills
  have hleft : (leftOver 64 message).length = message.length % 64 := Lib.length_leftOver message
  have hblock : buffer.bytes.length = 64 := by
    rw [hbytes, List.length_append, hleft, List.length_take]
    omega
  obtain ⟨i, hle, hrest, hloop⟩ := transformLoop_gives transform h.toNat_partlen
    (show 64 - message.length % 64 ≤ part.bytes.length by omega)
    (show part.bytes.length < 2 ^ 32 - 64 + (64 - message.length % 64) % 64 from hends)
    (transform m.state buffer.bytes)
  -- what the loop has left is put at the front of the buffer
  have hcount : (part.size - i.toUInt64).toNat = part.bytes.length - i.toNat := by
    have hle' : i.toUInt64 ≤ part.size := by
      rw [UInt64.le_iff_toNat_le, UInt32.toNat_toUInt64, Block.toNat_size]
      exact hle
    rw [UInt64.toNat_sub_of_le _ _ hle', UInt32.toNat_toUInt64, Block.toNat_size]
  have hload : part.load i.toNat (part.bytes.length - i.toNat) =
      some (part.part i.toNat (part.bytes.length - i.toNat)) := by
    rw [Block.load, if_pos (by omega)]
  have hkept : (part.part i.toNat (part.bytes.length - i.toNat)).bytes =
      leftOver 64 (part.bytes.drop (64 - message.length % 64)) :=
    (List.take_of_length_le (by rw [List.length_drop])).trans hrest
  have hshort : (leftOver 64 (part.bytes.drop (64 - message.length % 64))).length < 64 := by
    rw [Lib.length_leftOver]
    exact Nat.mod_lt _ (by decide)
  have hroom : (leftOver 64 (part.bytes.drop (64 - message.length % 64))).length ≤ buffer.bytes.length := by omega
  obtain ⟨buffer', hstore, hbytes'⟩ := store_within (List.nil_append buffer.bytes).symm hroom
  -- the blocks of the message are those before, the first one and those of the loop
  have hsplit : leftOver 64 message ++ part.bytes = buffer.bytes ++ part.bytes.drop (64 - message.length % 64) := by
    rw [hbytes, List.append_assoc, List.take_append_drop]
  let state := (blocks 64 (part.bytes.drop (64 - message.length % 64))).foldl transform (transform m.state buffer.bytes)
  refine ⟨counted m part.size state buffer', ?_, h.bits_counted transform hlen state buffer', ?_, ?_, ?_,
    h.isFinished⟩
  · rw [funext hupdate]
    refine hloop.bind (Lib.gives_of_eq fun rounds => ?_)
    rw [hcount, hload, bind_eq_bind, bind_some, hkept]
    exact congrArg (· >>= _) hstore
  · rw [Lib.blocks_append (by decide), hsplit, Lib.blocks_append_block (by decide) hblock, List.foldl_append,
      List.foldl_cons, ← h.state]
    rfl
  · rw [Lib.leftOver_append (by decide), hsplit, Lib.leftOver_append_block (by decide) hblock]
    exact ⟨_, hbytes'⟩
  · exact (Block.length_of_store hstore).trans hblock

theorem Kept.update_never (h : Kept transform init message extra m)
    (hends : ¬LoopEnds message.length part.bytes.length) : Never fun rounds => update transform rounds m part := by
  have hlong : 2 ^ 32 - 64 + (64 - message.length % 64) % 64 ≤ part.bytes.length := Nat.le_of_not_lt hends
  obtain ⟨buffer, -, hupdate⟩ := h.update_eq transform (show 64 ≤ message.length % 64 + part.bytes.length by omega)
  rw [funext hupdate]
  exact Never.bind fun rounds => transformLoop_never transform hlong rounds _ (by rw [h.toNat_partlen]) _

theorem Kept.update_gives (h : Kept transform init message extra m) (hlen : part.bytes.length < 2 ^ 61)
    (hends : LoopEnds message.length part.bytes.length) :
    ∃ m', Gives (fun rounds => update transform rounds m part) m' ∧
      Kept transform init (message ++ part.bytes) (extra + carriesTwice message.length part.bytes.length) m' := by
  by_cases hfills : 64 ≤ message.length % 64 + part.bytes.length
  · exact h.update_long transform hlen hfills hends
  · obtain ⟨m', hupdate, hkept⟩ := h.update_short transform (Nat.lt_of_not_le hfills)
    exact ⟨m', Lib.gives_of_eq hupdate, hkept⟩

def carries (before : Nat) : List Block → Nat
  | [] => 0
  | part :: parts => carriesTwice before part.bytes.length + carries (before + part.bytes.length) parts

def LoopsEnd (before : Nat) : List Block → Prop
  | [] => True
  | part :: parts => LoopEnds before part.bytes.length ∧ LoopsEnd (before + part.bytes.length) parts

theorem heeds_iff (before : Nat) (parts : List Block) :
    Heeds before parts ↔ LoopsEnd before parts ∧ carries before parts = 0 := by
  induction parts generalizing before with
  | nil => simp [Heeds, LoopsEnd, carries]
  | cons part parts ih =>
    have hnone : carriesTwice before part.bytes.length = 0 ↔ ¬CountsTwice before part.bytes.length := by
      rw [carriesTwice]
      split_ifs with htwice <;> simp [htwice]
    rw [Heeds, LoopsEnd, carries, ih, Nat.add_eq_zero_iff, hnone]
    tauto

theorem carries_le (before : Nat) (parts : List Block) :
    2 ^ 29 * carries before parts ≤ (parts.flatMap (·.bytes)).length := by
  induction parts generalizing before with
  | nil => exact Nat.zero_le _
  | cons part parts ih =>
    have hrest := ih (before + part.bytes.length)
    rw [carries, List.flatMap_cons, List.length_append, carriesTwice]
    split_ifs with htwice
    · have hlong := htwice.1
      omega
    · omega

theorem Kept.parts_gives (h : Kept transform init message extra m)
    (hlen : (parts.flatMap (·.bytes)).length < 2 ^ 61) (hends : LoopsEnd message.length parts) :
    ∃ m', Gives (fun rounds => parts.foldlM (update transform rounds) m) m' ∧
      Kept transform init (message ++ parts.flatMap (·.bytes)) (extra + carries message.length parts) m' := by
  induction parts generalizing message extra m with
  | nil => exact ⟨m, Lib.gives_of_eq fun rounds => rfl, by simpa [carries] using h⟩
  | cons part parts ih =>
    rw [List.flatMap_cons, List.length_append] at hlen
    obtain ⟨m₁, hfirst, hkept₁⟩ := h.update_gives transform (by omega) hends.1
    obtain ⟨m₂, hrest, hkept₂⟩ := ih hkept₁ (by omega) (by rw [List.length_append]; exact hends.2)
    refine ⟨m₂, ?_, ?_⟩
    · simp only [List.foldlM_cons]
      exact hfirst.bind hrest
    · rw [List.append_assoc, List.length_append, Nat.add_assoc] at hkept₂
      exact hkept₂

theorem Kept.parts_never (h : Kept transform init message extra m)
    (hlen : (parts.flatMap (·.bytes)).length < 2 ^ 61) (hends : ¬LoopsEnd message.length parts) :
    Never fun rounds => parts.foldlM (update transform rounds) m := by
  induction parts generalizing message extra m with
  | nil => exact absurd trivial hends
  | cons part parts ih =>
    rw [List.flatMap_cons, List.length_append] at hlen
    simp only [List.foldlM_cons]
    by_cases hfirst : LoopEnds message.length part.bytes.length
    · obtain ⟨m₁, hgives, hkept⟩ := h.update_gives transform (by omega) hfirst
      refine hgives.bind_never (ih hkept (by omega) fun hrest => hends ⟨hfirst, ?_⟩)
      rwa [List.length_append] at hrest
    · exact Never.bind (h.update_never transform hfirst)

theorem littleBytes_succ (n number : Nat) :
    Block.littleBytes (n + 1) number = UInt8.ofNat number :: Block.littleBytes n (number / 256) := by
  have hbyte : (number &&& 0xff).toUInt8 = UInt8.ofNat number := by
    apply UInt8.toNat_inj.mp
    rw [show (0xff : Nat) = 2 ^ 8 - 1 from rfl, Nat.and_two_pow_sub_one_eq_mod]
    simp
  rw [Block.littleBytes, hbyte, Nat.shiftRight_eq_div_pow]

theorem encode_eq (low high : UInt32) :
    encode [low, high] = Block.littleBytes 8 (low.toNat + 2 ^ 32 * high.toNat) := by
  have hlow := low.toNat_lt
  have hbyte : ∀ number : UInt32, (number &&& 0xFF).toUInt8 = UInt8.ofNat number.toNat := fun number => by
    apply UInt8.toNat_inj.mp
    have hmask : (0xFF : UInt32).toNat = 2 ^ 8 - 1 := rfl
    rw [UInt32.toNat_toUInt8, UInt32.toNat_and, hmask, Nat.and_two_pow_sub_one_eq_mod]
    simp
  have hshift : ∀ number : UInt32, (number >>> 8).toNat = number.toNat / 256 ∧
      (number >>> 16).toNat = number.toNat / 65536 ∧ (number >>> 24).toNat = number.toNat / 16777216 :=
    fun number => ⟨by simp [Nat.shiftRight_eq_div_pow], by simp [Nat.shiftRight_eq_div_pow],
      by simp [Nat.shiftRight_eq_div_pow]⟩
  rw [littleBytes_succ, littleBytes_succ, littleBytes_succ, littleBytes_succ, littleBytes_succ, littleBytes_succ,
    littleBytes_succ, littleBytes_succ]
  simp only [encode, List.flatMap_cons, List.flatMap_nil, List.cons_append, List.nil_append, hbyte, hshift,
    Block.littleBytes, List.cons.injEq, ← UInt8.toNat_inj, UInt8.toNat_ofNat', and_true]
  omega

theorem Kept.toNat_padlen (h : Kept transform init message extra m) :
    let index := (m.count0 >>> 3) &&& 0x3F
    (if index < 56 then 56 - index else 120 - index : UInt32).toNat = (119 - message.length % 64) % 64 + 1 := by
  have hindex := h.toNat_index
  have hmod : message.length % 64 < 64 := Nat.mod_lt _ (by decide)
  dsimp only
  generalize (m.count0 >>> 3) &&& 0x3F = index at hindex
  by_cases hlt : message.length % 64 < 56
  · have hlt' : index < 56 := by
      rw [UInt32.lt_iff_toNat_lt, hindex]
      exact hlt
    rw [if_pos hlt', UInt32.toNat_sub_of_le _ _ (UInt32.le_of_lt hlt'), hindex]
    change 56 - message.length % 64 = _
    omega
  · have hlt' : ¬index < 56 := by
      rw [UInt32.lt_iff_toNat_lt, hindex]
      exact hlt
    have hle : index ≤ 120 := by
      rw [UInt32.le_iff_toNat_le, hindex]
      change _ ≤ 120
      omega
    rw [if_neg hlt', UInt32.toNat_sub_of_le _ _ hle, hindex]
    change 120 - message.length % 64 = _
    omega

theorem Kept.pad_gives (h : Kept transform init message extra m) :
    ∃ m', Gives (fun rounds => pad transform rounds m) m' ∧
      m'.state = (blocks 64 (paddedWith message ((8 * message.length + 2 ^ 32 * extra) % 2 ^ 64))).foldl
        transform init := by
  have hmod : (119 - message.length % 64) % 64 < 64 := Nat.mod_lt _ (by decide)
  let zeros : Block := padding.part 0 ((119 - message.length % 64) % 64 + 1)
  let bits : Block := ⟨encode [m.count0, m.count1], by simp [encode]⟩
  have hload : padding.load 0 ((119 - message.length % 64) % 64 + 1) = some zeros := if_pos (by simp [padding]; omega)
  have hzeros : zeros.bytes = 0x80 :: List.replicate ((119 - message.length % 64) % 64) 0 := by
    simp only [zeros, Block.part, padding, List.drop_zero, List.take_succ_cons, List.take_replicate]
    rw [Nat.min_eq_left (by omega)]
  have hbits : bits.bytes = Block.littleBytes 8 ((8 * message.length + 2 ^ 32 * extra) % 2 ^ 64) := by
    rw [← h.bits]
    exact encode_eq m.count0 m.count1
  have hlength : zeros.bytes.length ≤ 64 := by
    rw [hzeros, List.length_cons, List.length_replicate]
    omega
  have hlength' : bits.bytes.length = 8 := by rw [hbits, Block.length_littleBytes]
  obtain ⟨m₁, hgives₁, hkept₁⟩ := h.update_gives transform (show zeros.bytes.length < 2 ^ 61 by omega) (by rw [LoopEnds]; omega)
  obtain ⟨m₂, hgives₂, hkept₂⟩ := hkept₁.update_gives transform (show bits.bytes.length < 2 ^ 61 by omega) (by rw [LoopEnds]; omega)
  refine ⟨m₂, ?_, ?_⟩
  · have hpad : (fun rounds => pad transform rounds m) = fun rounds =>
        update transform rounds m zeros >>= fun m => update transform rounds m bits := by
      funext rounds
      rw [pad, h.toNat_padlen, hload]
      rfl
    rw [hpad]
    exact hgives₁.bind hgives₂
  · rw [hkept₂.state, hzeros, hbits]
    rfl

theorem kept_start (init : σ) (buffer : Vector UInt8 64) : Kept transform init [] 0 (start init buffer) where
  bits := rfl
  state := by
    rw [Lib.blocks_of_lt (by decide)]
    rfl
  buffer := by
    rw [Lib.leftOver_of_lt (by decide)]
    exact ⟨_, rfl⟩
  length := by simp [start]
  isFinished := rfl

theorem hash_gives (init : σ) (buffer : Vector UInt8 64) (hlen : (parts.flatMap (·.bytes)).length < 2 ^ 61)
    (hends : LoopsEnd 0 parts) : Gives (fun rounds => hash transform init buffer rounds parts)
      ((blocks 64 (paddedWith (parts.flatMap (·.bytes)) ((8 * (parts.flatMap (·.bytes)).length +
        2 ^ 32 * carries 0 parts) % 2 ^ 64))).foldl transform init) := by
  obtain ⟨m₁, hparts, hkept⟩ := (kept_start transform init buffer).parts_gives transform hlen hends
  obtain ⟨m₂, hpad, hstate⟩ := hkept.pad_gives transform
  rw [List.nil_append, List.length_nil, Nat.zero_add] at hstate
  rw [← hstate]
  exact hparts.bind (hpad.bind (Lib.gives_of_eq fun rounds => rfl))

theorem hash_never (init : σ) (buffer : Vector UInt8 64) (hlen : (parts.flatMap (·.bytes)).length < 2 ^ 61)
    (hends : ¬LoopsEnd 0 parts) : Never fun rounds => hash transform init buffer rounds parts :=
  ((kept_start transform init buffer).parts_never transform hlen hends).bind

theorem digest_eq (buffer : Vector UInt8 64) (rounds : Nat) (parts : List Block) :
    digest buffer rounds parts = (hash Crypto.transform initial buffer rounds parts).map digestOf := by
  rw [digest, hash, new]
  cases hparts : parts.foldlM (update Crypto.transform rounds) (start initial buffer) with
  | none => rfl
  | some m =>
    simp only [bind_eq_bind, bind_some, finish]
    cases hpad : pad Crypto.transform rounds m <;> rfl

theorem length_paddedWith (message : Bytes) (bits : Nat) : (paddedWith message bits).length % 64 = 0 := by
  simp only [paddedWith, List.length_append, List.length_cons, List.length_replicate, Block.length_littleBytes]
  omega

theorem eq_of_paddedWith {bits bits' : Nat} (hbits : bits < 2 ^ 64) (hbits' : bits' < 2 ^ 64)
    (h : paddedWith message bits = paddedWith message bits') : bits = bits' := by
  have hbytes := congrArg (fun bytes : Bytes => bytes.reverse.foldl (fun out byte => out <<< 8 ||| byte.toNat) 0)
    (List.append_cancel_left h)
  simp only [Block.foldl_littleBytes] at hbytes
  omega

theorem foldl_blocks (bs transformed : List Bytes) :
    bs.foldl (fun transformed block => transformed ++ [block]) transformed = transformed ++ bs := by
  induction bs generalizing transformed with
  | nil => simp
  | cons block bs ih => simp [ih]

theorem OneShot.heeds {buffer : Vector UInt8 64} (h : OneShot buffer parts)
    (hlen : (parts.flatMap (·.bytes)).length < 2 ^ 61) : Heeds 0 parts := by
  obtain ⟨⟨rounds, hhash⟩, -⟩ := h
  have hends : LoopsEnd 0 parts := by
    by_contra hends
    exact nomatch (hash_never _ [] buffer hlen hends rounds).symm.trans hhash
  -- the blocks that have been transformed tell how many bits have been counted
  have hblocks := (hash_gives (fun transformed block => transformed ++ [block]) [] buffer hlen hends).eq hhash
  rw [foldl_blocks, List.nil_append] at hblocks
  have hpadded := Lib.eq_of_blocks_eq (by decide) (length_paddedWith _ _) (length_paddedWith _ _) hblocks
  have hcounted := eq_of_paddedWith (by omega) (Nat.mod_lt _ (by decide)) hpadded
  have hle := carries_le 0 parts
  exact (heeds_iff 0 parts).mpr ⟨hends, by omega⟩

/-- **The digest of a message in parts is that of the message** as long as the loop over each part ends and no carry is
counted twice, and no longer. -/
theorem oneShot_iff_heeds (buffer : Vector UInt8 64) (parts : List Block)
    (hlen : (parts.flatMap (·.bytes)).length < 2 ^ 61) : OneShot buffer parts ↔ Heeds 0 parts := by
  refine ⟨fun h => h.heeds hlen, fun hheeds => ?_⟩
  obtain ⟨hends, hcarries⟩ := (heeds_iff 0 parts).mp hheeds
  have hcounted : (8 * (parts.flatMap (·.bytes)).length + 2 ^ 32 * carries 0 parts) % 2 ^ 64 =
      8 * (parts.flatMap (·.bytes)).length := by
    rw [hcarries]
    omega
  refine ⟨?_, ?_⟩
  · have hgives := hash_gives (fun transformed block => transformed ++ [block]) [] buffer hlen hends
    rw [hcounted, foldl_blocks, List.nil_append] at hgives
    exact hgives.exists
  · have hgives := hash_gives Crypto.transform initial buffer hlen hends
    rw [hcounted] at hgives
    simp only [digest_eq]
    exact (hgives.map digestOf).exists

/-- Three parts, one of them empty. -/
theorem threeParts_oneShot :
    OneShot (Vector.replicate 64 0) [⟨[0x61], by decide⟩, ⟨[], by decide⟩, ⟨[0x62, 0x63], by decide⟩] :=
  (oneShot_iff_heeds _ _ (by decide)).mpr
    ⟨by decide, by decide, by decide, by decide, by decide, by decide, trivial⟩

/-- So many bytes, all of them zero. -/
def zeroPart (n : Nat) (h : n < 2 ^ 64) : Block := ⟨List.replicate n 0, by rwa [List.length_replicate]⟩

theorem length_zeroPart {n : Nat} (h : n < 2 ^ 64) : (zeroPart n h).bytes.length = n := List.length_replicate

theorem length_single (part : Block) : ([part].flatMap (·.bytes)).length = part.bytes.length := by
  rw [List.flatMap_singleton]

/-- A part of 4 GiB is never done with, and with one of 512 MiB a carry is counted that there is not. -/
theorem longPart_not_oneShot :
    (∀ rounds, digest (Vector.replicate 64 0) rounds [zeroPart (2 ^ 32) (by decide)] = none) ∧
      ¬OneShot (Vector.replicate 64 0) [zeroPart (2 ^ 29) (by decide)] := by
  refine ⟨fun rounds => ?_, fun h => ?_⟩
  · have hlen : ([zeroPart (2 ^ 32) (by decide)].flatMap (·.bytes)).length < 2 ^ 61 := by
      rw [length_single, length_zeroPart]
      decide
    have hnever := hash_never Crypto.transform initial (Vector.replicate 64 0) hlen
      (by rw [LoopsEnd, length_zeroPart, LoopEnds]; omega)
    rw [digest_eq]
    exact congrArg (Option.map digestOf) (hnever rounds)
  · obtain ⟨-, htwice, -⟩ := h.heeds (by rw [length_single, length_zeroPart]; decide)
    exact htwice (by rw [length_zeroPart, CountsTwice]; omega)

end Tbox.Crypto.MD5
