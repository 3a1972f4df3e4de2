import Tbox.Lib.StdString

/-!
# Memory

A block of memory is as many bytes as a `size_t` can tell. Reading or writing outside of it is not defined, so
there `load` and `store` give nothing. A number is kept in several bytes, the low ones first or the high ones.
-/

open List Option

namespace Tbox.Lib

structure Block where
  bytes : Bytes
  length_lt : bytes.length < 2 ^ 64
  deriving DecidableEq, Repr

namespace Block

variable {b b' : Block} {before old after bytes : Bytes} {pos n k number : Nat}

def empty : Block := ⟨[], by decide⟩

def size (b : Block) : UInt64 := .ofNat b.bytes.length

/-- So many bytes from a position on. -/
def part (b : Block) (pos n : Nat) : Block where
  bytes := (b.bytes.drop pos).take n
  length_lt := lt_of_le_of_lt (by simp) b.length_lt

def load (b : Block) (pos n : Nat) : Option Block :=
  if pos + n ≤ b.bytes.length then some (b.part pos n) else none

def store (b : Block) (pos : Nat) (bytes : Bytes) : Option Block :=
  if h : pos + bytes.length ≤ b.bytes.length then
    some ⟨b.bytes.take pos ++ bytes ++ (b.bytes.drop pos).drop bytes.length, by
      have hlt := b.length_lt
      simp only [List.length_append, List.length_take, List.length_drop]
      omega⟩
  else none

/-- `std::vector::resize` -/
def resize (b : Block) (size : UInt64) : Block where
  bytes := b.bytes.take size.toNat ++ List.replicate (size.toNat - b.bytes.length) 0
  length_lt := by
    have hlt := size.toNat_lt
    simp only [List.length_append, List.length_take, List.length_replicate]
    omega

/-- `*p_out-- = *p_in++` from the last place of a copy on. -/
def backwards (b : Block) : Block where
  bytes := b.bytes.foldl (fun out byte => byte :: out) []
  length_lt := by simpa using b.length_lt

@[simp]
theorem bytes_backwards (b : Block) : b.backwards.bytes = b.bytes.reverse := by
  simp [backwards]

theorem ext (h : b.bytes = b'.bytes) : b = b' := by
  cases b
  cases b'
  simpa using h

@[simp]
theorem toNat_size (b : Block) : b.size.toNat = b.bytes.length := by
  rw [size, UInt64.toNat_ofNat', Nat.mod_eq_of_lt b.length_lt]

theorem store_eq_none_iff : b.store pos bytes = none ↔ b.bytes.length < pos + bytes.length := by
  simp [store]

theorem load_append (h : b.bytes = before ++ b'.bytes ++ after) : b.load before.length b'.bytes.length = some b' := by
  rw [load, if_pos (by simp [h])]
  refine congrArg some (ext ?_)
  simp only [part, h, append_assoc, drop_left, take_left]

theorem store_append (h : b.bytes = before ++ old ++ after) (hold : old.length = bytes.length) :
    ∃ b', b.store before.length bytes = some b' ∧ b'.bytes = before ++ bytes ++ after := by
  refine ⟨_, dif_pos (by simp [h, hold]), ?_⟩
  simp [h, append_assoc, ← hold]

theorem length_of_store (h : b.store pos bytes = some b') : b'.bytes.length = b.bytes.length := by
  rw [store] at h
  split at h
  · cases h
    simp only [length_append, length_take, length_drop]
    omega
  · cases h

/-- The bytes of a number, the low ones first. -/
def littleBytes : Nat → Nat → Bytes
  | 0, _ => []
  | n + 1, number => (number &&& 0xff).toUInt8 :: littleBytes n (number >>> 8)

/-- `p[i] = number & 0xff; number >>= 8;` for one place after the other. -/
def putBytes (pos : Nat) : List Nat → Nat → Block → Option Block
  | [], _, b => some b
  | i :: places, number, b => do
      let b ← b.store (pos + i) [(number &&& 0xff).toUInt8]
      putBytes pos places (number >>> 8) b

/-- `out <<= 8; out |= p[i];` for one place after the other. -/
def takeBytes (b : Block) (pos : Nat) : List Nat → Nat → Option Nat
  | [], out => some out
  | i :: places, out => do
      let byte ← b.load (pos + i) 1
      takeBytes b pos places (out <<< 8 ||| (byte.bytes.headD 0).toNat)

@[simp]
theorem length_littleBytes : (littleBytes n number).length = n := by
  induction n generalizing number with
  | zero => rfl
  | succ n ih => simp [littleBytes, ih]

theorem foldl_littleBytes : (littleBytes n number).reverse.foldl (fun out byte => out <<< 8 ||| byte.toNat) 0 =
    number % 256 ^ n := by
  induction n generalizing number with
  | zero => simp [littleBytes, Nat.mod_one]
  | succ n ih =>
    have hbyte : (number &&& 0xff).toUInt8.toNat = number % 256 := by
      rw [show (0xff : Nat) = 2 ^ 8 - 1 from rfl, Nat.and_two_pow_sub_one_eq_mod]
      simp
    rw [littleBytes, reverse_cons, foldl_append, ih, foldl_cons, foldl_nil, hbyte,
      ← Nat.shiftLeft_add_eq_or_of_lt (by omega), Nat.shiftRight_eq_div_pow, Nat.shiftLeft_eq,
      show (2 : Nat) ^ 8 = 256 from rfl, pow_succ' 256 n, Nat.mod_mul]
    omega

theorem putBytes_ascending (number : Nat) (h : b.bytes = before ++ old ++ after) (hold : old.length = n)
    (hpos : before.length = pos + k) : ∃ b', putBytes pos (List.range' k n) number b = some b' ∧
      b'.bytes = before ++ littleBytes n number ++ after := by
  induction n generalizing k number before old b with
  | zero =>
    rw [length_eq_zero_iff] at hold
    exact ⟨b, rfl, by rw [h, hold, littleBytes]⟩
  | succ n ih =>
    obtain ⟨first, rest, rfl⟩ := exists_cons_of_length_eq_add_one hold
    have hfirst : b.bytes = before ++ [first] ++ (rest ++ after) := by simp [h]
    obtain ⟨b₁, hstore, hb₁⟩ : ∃ b₁, b.store before.length [(number &&& 0xff).toUInt8] = some b₁ ∧
        b₁.bytes = before ++ [(number &&& 0xff).toUInt8] ++ (rest ++ after) := store_append hfirst rfl
    rw [← append_assoc] at hb₁
    obtain ⟨b₂, hput, hb₂⟩ := ih (number >>> 8) hb₁ (Nat.succ.inj hold)
      (show List.length _ = pos + (k + 1) by simp; omega)
    rw [hpos] at hstore
    refine ⟨b₂, ?_, ?_⟩
    · rw [List.range'_succ, putBytes, hstore]
      exact hput
    · simp [hb₂, littleBytes]

theorem putBytes_descending (number : Nat) (h : b.bytes = before ++ old ++ after) (hold : old.length = n) :
    ∃ b', putBytes before.length (List.range n).reverse number b = some b' ∧
      b'.bytes = before ++ (littleBytes n number).reverse ++ after := by
  induction n generalizing number old after b with
  | zero =>
    rw [length_eq_zero_iff] at hold
    exact ⟨b, rfl, by rw [h, hold, littleBytes, reverse_nil]⟩
  | succ n ih =>
    have hne : old ≠ [] := ne_nil_of_length_eq_add_one hold
    have hlength : old.dropLast.length = n := by simp [hold]
    have hlast : b.bytes = (before ++ old.dropLast) ++ [old.getLast hne] ++ after := by
      rw [append_assoc before, dropLast_append_getLast, h]
    obtain ⟨b₁, hstore, hb₁⟩ : ∃ b₁, b.store (before ++ old.dropLast).length [(number &&& 0xff).toUInt8] = some b₁ ∧
        b₁.bytes = (before ++ old.dropLast) ++ [(number &&& 0xff).toUInt8] ++ after := store_append hlast rfl
    rw [append_assoc] at hb₁
    obtain ⟨b₂, hput, hb₂⟩ := ih (number >>> 8) hb₁ hlength
    rw [length_append, hlength] at hstore
    refine ⟨b₂, ?_, by simp [hb₂, littleBytes]⟩
    rw [range_succ, reverse_append, reverse_singleton, singleton_append, putBytes, hstore]
    exact hput

theorem load_byte {byte : UInt8} (h : b.bytes = before ++ [byte] ++ after) :
    b.load before.length 1 = some ⟨[byte], by simp⟩ := by
  let loaded : Block := ⟨[byte], by simp⟩
  have hloaded : b.bytes = before ++ loaded.bytes ++ after := h
  exact load_append hloaded

theorem takeBytes_ascending (out : Nat) (h : b.bytes = before ++ bytes ++ after) (hpos : before.length = pos + k) :
    b.takeBytes pos (List.range' k bytes.length) out =
      some (bytes.foldl (fun out byte => out <<< 8 ||| byte.toNat) out) := by
  induction bytes generalizing before k out with
  | nil => rfl
  | cons byte bytes ih =>
    have hload := load_byte (show b.bytes = before ++ [byte] ++ (bytes ++ after) by simp [h])
    have hrest : b.bytes = (before ++ [byte]) ++ bytes ++ after := by simp [h]
    rw [length_cons, List.range'_succ, takeBytes, ← hpos, hload]
    exact ih _ hrest (by simp; omega)

theorem takeBytes_descending (out : Nat) (h : b.bytes = before ++ bytes ++ after) :
    b.takeBytes before.length (List.range bytes.length).reverse out =
      some (bytes.reverse.foldl (fun out byte => out <<< 8 ||| byte.toNat) out) := by
  induction bytes using List.reverseRecOn generalizing after out with
  | nil => rfl
  | append_singleton bytes byte ih =>
    have hload := load_byte (show b.bytes = (before ++ bytes) ++ [byte] ++ after by simp [h])
    have hrest : b.bytes = before ++ bytes ++ (byte :: after) := by simp [h]
    rw [length_append] at hload
    rw [length_append, length_singleton, range_succ, reverse_append, reverse_singleton,
      singleton_append, takeBytes, hload, reverse_append, reverse_singleton, singleton_append]
    exact ih _ hrest

theorem exists_takeBytes_iff {places : List Nat} (out : Nat) :
    (∃ value, b.takeBytes pos places out = some value) ↔ ∀ i ∈ places, pos + i < b.bytes.length := by
  induction places generalizing out with
  | nil => simp [takeBytes]
  | cons i places ih =>
    rw [forall_mem_cons, takeBytes]
    by_cases hi : pos + i < b.bytes.length
    · rw [load, if_pos (by omega), bind_eq_bind, bind_some, ih]
      simp [hi]
    · rw [load, if_neg (by omega)]
      simp [hi]

end Block

end Tbox.Lib
