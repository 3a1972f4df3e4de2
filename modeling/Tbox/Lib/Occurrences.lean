import Mathlib.Data.List.Infix
import Tbox.Lib.StdString

/-!
# Occurrences of a string

Where a string stands in another one when it is looked for from left to right. What it has been found in is not
searched again, so no two of the places overlap.
-/

open List Option

namespace Tbox.Lib.StdString

variable {pat str left right : Bytes} {c : UInt8} {pos skip place : Nat}

/-- The places from `pos` on, with `skip` bytes of an occurrence still to be passed. -/
def found (pat : Bytes) : Nat → Nat → Bytes → List Nat
  | _, _, [] => []
  | pos, skip + 1, _ :: str => found pat (pos + 1) skip str
  | pos, 0, c :: str =>
    if pat <+: c :: str then pos :: found pat (pos + 1) (pat.length - 1) str else found pat (pos + 1) 0 str

theorem le_of_mem_found (h : place ∈ found pat pos skip str) : pos ≤ place := by
  induction str generalizing pos skip with
  | nil => cases skip <;> exact nomatch h
  | cons c str ih =>
    cases skip with
    | succ skip => exact Nat.le_of_succ_le (ih h)
    | zero =>
      rw [found] at h
      split at h
      · rcases mem_cons.mp h with heq | hmem
        · exact heq.ge
        · exact Nat.le_of_succ_le (ih hmem)
      · exact Nat.le_of_succ_le (ih h)

theorem found_skip (h : skip ≤ str.length) : found pat pos skip str = found pat (pos + skip) 0 (str.drop skip) := by
  induction str generalizing pos skip with
  | nil =>
    obtain rfl := Nat.le_zero.mp h
    rfl
  | cons c str ih =>
    cases skip with
    | zero => rfl
    | succ skip =>
      rw [found, ih (Nat.le_of_succ_le_succ h), drop_succ_cons, Nat.add_assoc, Nat.add_comm 1]

theorem length_found (pat str : Bytes) (pos pos' skip : Nat) :
    (found pat pos skip str).length = (found pat pos' skip str).length := by
  induction str generalizing pos pos' skip with
  | nil => cases skip <;> rfl
  | cons c str ih =>
    cases skip with
    | succ skip => exact ih _ _ _
    | zero =>
      rw [found, found]
      split
      · exact congrArg Nat.succ (ih _ _ _)
      · exact ih _ _ _

theorem cut_nil (hpat : pat ≠ []) : cut pat [] = none := by
  rw [cut, findSub, if_neg hpat]
  rfl

theorem cut_cons : cut pat (c :: str) = if pat <+: c :: str then some ([], (c :: str).drop pat.length)
    else (cut pat str).map fun s => (c :: s.1, s.2) := by
  rw [cut, findSub_cons]
  by_cases hbegins : pat <+: c :: str
  · rw [if_pos (List.isPrefixOf_iff_prefix.mpr hbegins), if_pos hbegins, map_some, Nat.zero_add, take_zero]
  · rw [if_neg (mt isPrefixOf_iff_prefix.mp hbegins), if_neg hbegins, cut, Option.map_map, Option.map_map]
    refine congrArg (Option.map · _) (funext fun i => ?_)
    simp only [Function.comp_apply, take_succ_cons, Nat.add_right_comm i 1, drop_succ_cons]

theorem not_infix_of_cut (hpat : pat ≠ []) (h : cut pat str = none) : ¬pat <:+: str := by
  induction str with
  | nil => exact fun hinfix => hpat (infix_nil.mp hinfix)
  | cons c str ih =>
    rw [cut_cons] at h
    split at h
    · cases h
    · next hbegins =>
      rintro hinfix
      rcases infix_cons_iff.mp hinfix with hfront | hinfix
      · exact hbegins hfront
      · exact ih (map_eq_none_iff.mp h) hinfix

theorem not_infix_left (hpat : pat ≠ []) (h : cut pat str = some (left, right)) : ¬pat <:+: left := by
  induction str generalizing left with
  | nil => exact nomatch (cut_nil hpat).symm.trans h
  | cons c str ih =>
    have hstr := cut_eq h
    rw [cut_cons] at h
    split at h
    · obtain ⟨rfl, -⟩ := Prod.mk.inj (some.inj h)
      exact fun hinfix => hpat (infix_nil.mp hinfix)
    · next hbegins =>
      obtain ⟨s, hs, heq⟩ := map_eq_some_iff.mp h
      obtain ⟨rfl, rfl⟩ := Prod.mk.inj heq
      intro hinfix
      rcases infix_cons_iff.mp hinfix with hfront | hinfix
      · refine hbegins (hfront.trans ?_)
        rw [hstr, append_assoc]
        exact prefix_append _ _
      · exact ih hs hinfix

theorem exists_cut (pat before after : Bytes) :
    ∃ left right, cut pat (before ++ pat ++ after) = some (left, right) ∧ left.length ≤ before.length := by
  induction before with
  | nil =>
    rw [nil_append]
    cases hstr : pat ++ after with
    | nil =>
      obtain ⟨rfl, rfl⟩ := append_eq_nil_iff.mp hstr
      exact ⟨[], [], rfl, le_rfl⟩
    | cons c str =>
      rw [cut_cons, if_pos (hstr ▸ prefix_append pat after)]
      exact ⟨[], _, rfl, le_rfl⟩
  | cons c before ih =>
    obtain ⟨left, right, hcut, hle⟩ := ih
    rw [cons_append, cons_append, cut_cons]
    split
    · exact ⟨[], _, rfl, Nat.zero_le _⟩
    · rw [hcut]
      exact ⟨c :: left, right, rfl, Nat.succ_le_succ hle⟩

theorem found_of_cut (hpat : pat ≠ []) (h : cut pat str = some (left, right)) :
    found pat pos 0 str = (pos + left.length) :: found pat (pos + left.length + pat.length) 0 right := by
  induction str generalizing pos left with
  | nil => exact nomatch (cut_nil hpat).symm.trans h
  | cons c str ih =>
    rw [cut_cons] at h
    rw [found]
    split at h
    · next hbegins =>
      obtain ⟨rfl, rfl⟩ := Prod.mk.inj (some.inj h)
      have hpos := length_pos_iff.mpr hpat
      have hlength := hbegins.length_le
      rw [length_cons] at hlength
      obtain ⟨n, hn⟩ := Nat.exists_eq_add_of_lt hpos
      rw [Nat.zero_add] at hn
      rw [if_pos hbegins, found_skip (by omega), hn, drop_succ_cons, Nat.add_sub_cancel, length_nil,
        Nat.add_zero, Nat.add_assoc, Nat.add_comm 1]
      rfl
    · next hbegins =>
      obtain ⟨s, hs, heq⟩ := map_eq_some_iff.mp h
      obtain ⟨rfl, rfl⟩ := Prod.mk.inj heq
      rw [if_neg hbegins, ih hs, length_cons, Nat.add_assoc pos 1, Nat.add_comm 1]

theorem found_of_cut_none (h : cut pat str = none) : found pat pos 0 str = [] := by
  induction str generalizing pos with
  | nil => rfl
  | cons c str ih =>
    rw [cut_cons] at h
    rw [found]
    split at h
    · cases h
    · next hbegins => rw [if_neg hbegins, ih (map_eq_none_iff.mp h)]

end Tbox.Lib.StdString
