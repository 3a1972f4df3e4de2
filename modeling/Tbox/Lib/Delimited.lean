import Mathlib.Data.List.TakeWhile
import Tbox.Lib.StdString

/-!
# Texts with a delimiter

A byte string that is cut at the first occurrence of a byte, and the string that a part and the
delimiter in front of it make up.
-/

open List Option

namespace Tbox.Lib.StdString

/-- What stands before the first `c`, and what stands after it. -/
def cutOff (c : UInt8) (str : Bytes) : Bytes × Option Bytes :=
  match cut [c] str with
  | none => (str, none)
  | some (left, right) => (left, some right)

/-- A part that may be missing, behind its delimiter. -/
def delimited (c : UInt8) (part : Option Bytes) : Bytes :=
  match part with
  | none => []
  | some part => c :: part

/-- The bytes from `start` on up to `stop`, and to the end when `stop` is not behind `start`. -/
def between (str : Bytes) (start : Nat) (stop : Option Nat) : Bytes :=
  match sizeSub stop start with
  | none => str.drop start
  | some count => (str.drop start).take count

variable {c d : UInt8} {str left mid right : Bytes} {part : Option Bytes}

@[simp]
theorem delimited_none : delimited c none = [] := rfl

@[simp]
theorem delimited_some : delimited c (some mid) = c :: mid := rfl

theorem mem_delimited : d ∈ delimited c part ↔ ∃ str, part = some str ∧ (d = c ∨ d ∈ str) := by
  cases part <;> simp [delimited]

theorem findFirstOf_eq_none_iff : findFirstOf str c 0 = none ↔ c ∉ str := by
  simp only [findFirstOf, findFrom, drop_zero, map_eq_none_iff, List.findIdx?_eq_none_iff, beq_eq_false_iff_ne]
  constructor
  · intro h hmem
    exact h c hmem rfl
  · intro h a ha heq
    exact h (heq ▸ ha)

theorem findFirstOf_append_cons (hleft : c ∉ left) : findFirstOf (left ++ c :: right) c 0 = some left.length := by
  have hnone : left.findIdx? (· == c) = none := by
    simp only [List.findIdx?_eq_none_iff, beq_eq_false_iff_ne]
    exact fun a ha heq => hleft (heq ▸ ha)
  simp [findFirstOf, findFrom, List.findIdx?_append, hnone, findIdx?_cons]

theorem findFirstOf_delimited (hleft : c ∉ left) (hright : part = none → c ∉ right) :
    findFirstOf (left ++ (delimited c part ++ right)) c 0 = part.map fun _ => left.length := by
  cases part with
  | none =>
    rw [map_none, findFirstOf_eq_none_iff]
    simpa using ⟨hleft, hright rfl⟩
  | some mid => exact findFirstOf_append_cons hleft

theorem cutOff_append_cons (hleft : c ∉ left) : cutOff c (left ++ c :: right) = (left, some right) := by
  have hcut : cut [c] (left ++ [c] ++ right) = some (left, right) := cut_line hleft
  rw [append_assoc, singleton_append] at hcut
  rw [cutOff, hcut]

theorem cutOff_of_not_mem (hstr : c ∉ str) : cutOff c str = (str, none) := by
  rw [cutOff, cut_of_not_mem hstr]

/-- A string is what is cut off with the delimiter between, and the first part has none. -/
theorem cutOff_spec (c : UInt8) (str : Bytes) : c ∉ (cutOff c str).1 ∧
    str = (cutOff c str).1 ++ delimited c (cutOff c str).2 := by
  by_cases hmem : c ∈ str
  · obtain ⟨left, right, rfl, hleft⟩ := eq_append_cons_of_mem hmem
    rw [cutOff_append_cons hleft]
    exact ⟨hleft, rfl⟩
  · rw [cutOff_of_not_mem hmem]
    exact ⟨hmem, by simp⟩

theorem cutOff_fst : (cutOff c str).1 = str.takeWhile (· != c) := by
  by_cases hmem : c ∈ str
  · obtain ⟨left, right, rfl, hleft⟩ := eq_append_cons_of_mem hmem
    rw [cutOff_append_cons hleft, takeWhile_append_of_pos]
    · simp
    · exact fun a ha => bne_iff_ne.mpr fun heq => hleft (heq ▸ ha)
  · rw [cutOff_of_not_mem hmem, takeWhile_eq_self_iff.mpr]
    exact fun a ha => bne_iff_ne.mpr fun heq => hmem (heq ▸ ha)

theorem cutOff_snd : (cutOff c str).2 = none ↔ c ∉ str := by
  by_cases hmem : c ∈ str
  · obtain ⟨left, right, rfl, hleft⟩ := eq_append_cons_of_mem hmem
    simp [cutOff_append_cons hleft]
  · simp [cutOff_of_not_mem hmem, hmem]

/-- The stop is at the end of `mid`, and may be missing where nothing follows it. -/
theorem between_append {start : Nat} {stop : Option Nat} (hstart : start = left.length)
    (hstop : stop = some (left.length + mid.length) ∨ stop = none ∧ right = []) :
    between (left ++ (mid ++ right)) start stop = mid := by
  subst hstart
  obtain rfl | ⟨rfl, rfl⟩ := hstop <;> simp [between, sizeSub]

theorem between_delimited {start : Nat} {stop : Option Nat} (hstart : start = left.length)
    (hstop : stop = some (left.length + 1 + mid.length) ∨ stop = none ∧ right = []) :
    between (left ++ (delimited c (some mid) ++ right)) (start + 1) stop = mid := by
  have htext : left ++ (delimited c (some mid) ++ right) = (left ++ [c]) ++ (mid ++ right) := by
    simp [delimited]
  rw [htext]
  apply between_append
  · simp [hstart]
  · simpa using hstop

end Tbox.Lib.StdString
