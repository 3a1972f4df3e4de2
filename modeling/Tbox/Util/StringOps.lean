import Mathlib.Data.List.DropRight
import Tbox.Lib.StdString

/-!
# The string helpers of the util module

`Split`, `Join` and `Strip`. All are total: no call of them throws, and `Split` ends for every separator
but the empty one.
-/

open List

namespace Tbox.Util

open Tbox.Lib (Bytes Fault space)
open Tbox.Lib.StdString

/-- The loop of `Split`; each pass takes one chip. -/
def splitLoop (srcStr sep : Bytes) : Nat → Nat → List Bytes → Except Fault (List Bytes)
  | 0, _, _ => .error .stuck
  | fuel + 1, startPos, strVec => do
      let endPos := find srcStr sep startPos
      let strChip ← substr srcStr startPos (sizeSub endPos startPos)
      match endPos with
      | none => return strVec ++ [strChip]
      | some endPos => splitLoop srcStr sep fuel (endPos + sep.length) (strVec ++ [strChip])

def split (srcStr sep : Bytes) : Except Fault (List Bytes) :=
  splitLoop srcStr sep (srcStr.length + 1) 0 []

def join (strVec : List Bytes) (delimiter : Bytes) : Bytes :=
  (strVec.foldl (fun (tmp, isNeedInsertDelimiter) str =>
    ((if isNeedInsertDelimiter then tmp ++ delimiter else tmp) ++ str, true)) (([] : Bytes), false)).1

def strip (origStr : Bytes) : Except Fault Bytes :=
  match findFirstNotOf origStr space 0 with
  | none => .ok []
  | some startPos =>
    match findLastNotOf origStr space with
    | none => .ok []
    | some endPos => substr origStr startPos (some (endPos - startPos + 1))

def stripSpaces (str : Bytes) : Bytes :=
  (str.dropWhile (· == space)).rdropWhile (· == space)

variable {str sep : Bytes}

theorem splitLoop_ok (hsep : sep ≠ []) : ∀ (fuel startPos : Nat) (strVec : List Bytes),
    startPos ≤ str.length → str.length < fuel + startPos →
    ∃ parts, splitLoop str sep fuel startPos strVec = .ok parts := by
  intro fuel
  induction fuel with
  | zero =>
    intro startPos strVec hstart hfuel
    omega
  | succ fuel ih =>
    intro startPos strVec hstart hfuel
    obtain ⟨strChip, hchip⟩ : ∃ strChip,
        substr str startPos (sizeSub (find str sep startPos) startPos) = .ok strChip :=
      ⟨_, if_neg (Nat.not_lt.mpr hstart)⟩
    rw [splitLoop, hchip]
    cases hend : find str sep startPos with
    | none => exact ⟨_, rfl⟩
    | some endPos =>
      obtain ⟨offset, hoffset, rfl⟩ := Option.map_eq_some_iff.mp hend
      have hlength := le_length_of_findSub hoffset
      have hpositive := length_pos_iff.mpr hsep
      rw [length_drop] at hlength
      exact ih _ _ (by omega) (by omega)

theorem split_ok (str : Bytes) (hsep : sep ≠ []) : ∃ parts, split str sep = .ok parts :=
  splitLoop_ok hsep _ 0 [] (Nat.zero_le _) (by omega)

section Chip

variable {rest before left right : Bytes} {strVec : List Bytes} {rounds : Nat}

theorem splitLoop_cut (h : cut sep rest = some (left, right)) : splitLoop (before ++ rest) sep (rounds + 1) before.length
    strVec = splitLoop (before ++ left ++ sep ++ right) sep rounds (before ++ left ++ sep).length (strVec ++ [left]) := by
  have hrest := cut_eq h
  have hchip : substr (before ++ rest) before.length (sizeSub (some (before.length + left.length)) before.length) =
      .ok left := by
    simp [substr, sizeSub, hrest]
  have hsrc : before ++ rest = before ++ left ++ sep ++ right := by simp [hrest]
  rw [splitLoop, find_eq_cut, drop_left, h]
  simp only [Option.map_some, hchip, bind, Except.bind]
  rw [hsrc, List.length_append, List.length_append]

theorem splitLoop_last (h : cut sep rest = none) :
    splitLoop (before ++ rest) sep (rounds + 1) before.length strVec = .ok (strVec ++ [rest]) := by
  rw [splitLoop, find_eq_cut, drop_left, h]
  simp [substr, sizeSub, bind, Except.bind, pure, Except.pure]

end Chip

section Joined

variable {c : UInt8} {part : Bytes} {parts : List Bytes}

theorem splitLoop_joined {left : Bytes} {fuel : Nat} {strVec : List Bytes} (hpart : c ∉ part)
    (hparts : ∀ other ∈ parts, c ∉ other) (hfuel : parts.length < fuel) :
    splitLoop (left ++ (part ++ parts.flatMap (c :: ·))) [c] fuel left.length strVec =
      .ok (strVec ++ part :: parts) := by
  induction parts generalizing left part fuel strVec with
  | nil =>
    obtain ⟨fuel, rfl⟩ := Nat.exists_eq_add_of_lt hfuel
    rw [flatMap_nil, append_nil]
    exact splitLoop_last (cut_of_not_mem hpart)
  | cons next rest ih =>
    obtain ⟨fuel, rfl⟩ := Nat.exists_eq_add_of_lt hfuel
    have htext : part ++ (next :: rest).flatMap (c :: ·) =
        part ++ [c] ++ (next ++ rest.flatMap (c :: ·)) := by
      simp
    have hrest : splitLoop (left ++ part ++ [c] ++ (next ++ rest.flatMap (c :: ·))) [c]
        (rest.length + 1 + fuel) (left ++ part ++ [c]).length (strVec ++ [part]) =
          .ok (strVec ++ [part] ++ next :: rest) := by
      apply ih (hparts next mem_cons_self)
      · exact fun other hother => hparts other (mem_cons_of_mem next hother)
      · omega
    rw [htext, length_cons, splitLoop_cut (cut_line hpart), hrest, append_assoc, singleton_append]

theorem split_joined (hpart : c ∉ part) (hparts : ∀ other ∈ parts, c ∉ other) :
    split (part ++ parts.flatMap (c :: ·)) [c] = .ok (part :: parts) := by
  have hcount : parts.length ≤ (parts.flatMap (c :: ·)).length := by
    clear hparts
    induction parts with
    | nil => simp
    | cons next rest ih =>
      rw [flatMap_cons, List.length_append, length_cons, length_cons]
      omega
  have hjoined : splitLoop ([] ++ (part ++ parts.flatMap (c :: ·))) [c]
      ((part ++ parts.flatMap (c :: ·)).length + 1) ([] : Bytes).length [] = .ok ([] ++ part :: parts) := by
    apply splitLoop_joined hpart hparts
    rw [List.length_append]
    omega
  exact hjoined

end Joined

theorem rdropWhile_eq_take (p : UInt8 → Bool) (core : Bytes) :
    core.rdropWhile p = core.take (core.length - (core.reverse.takeWhile p).length) := by
  rw [List.rdropWhile, ← drop_length_takeWhile, reverse_drop, reverse_reverse, length_reverse]

/-- The spaces at the end of a string that begins with another byte are those at the end of any
string it ends. -/
theorem takeWhile_reverse_append {lead core : Bytes} (hcore : core.dropWhile (· == space) ≠ []) :
    (lead ++ core).reverse.takeWhile (· == space) = core.reverse.takeWhile (· == space) := by
  rw [reverse_append, takeWhile_append, if_neg]
  intro hlength
  have hspaces := takeWhile_eq_self_iff.mp ((List.takeWhile_prefix (· == space)).eq_of_length hlength)
  exact hcore (dropWhile_eq_nil_iff.mpr fun c hc => hspaces c (mem_reverse.mpr hc))

theorem findLastNotOf_eq (hstr : str.dropWhile (· == space) ≠ []) : findLastNotOf str space =
    some (str.length - 1 - (str.reverse.takeWhile (· == space)).length) := by
  have hreverse : str.reverse.dropWhile (· == space) ≠ [] := fun hnil =>
    hstr (dropWhile_eq_nil_iff.mpr fun c hc => dropWhile_eq_nil_iff.mp hnil c (mem_reverse.mpr hc))
  have hfind := findFrom_eq (· != space) str.reverse 0
  simp only [findFrom, drop_zero, Nat.zero_add, bne, Bool.not_not, Option.map_id', if_neg hreverse] at hfind
  rw [findLastNotOf]
  simp only [bne, hfind, Option.map_some]

theorem strip_eq : strip str = .ok (stripSpaces str) := by
  have hfirst := findFrom_eq (· != space) str 0
  simp only [drop_zero, Nat.zero_add, bne, Bool.not_not] at hfirst
  rw [strip, findFirstNotOf]
  simp only [bne]
  rw [hfirst, stripSpaces]
  generalize hcore : str.dropWhile (· == space) = core
  generalize hlead : str.takeWhile (· == space) = lead
  have hstr : lead ++ core = str := by
    rw [← hcore, ← hlead]
    exact takeWhile_append_dropWhile
  by_cases hnil : core = []
  · simp [hnil]
  have hcore' : core.dropWhile (· == space) ≠ [] := by
    rwa [← hcore, dropWhile_idempotent, hcore]
  have hnonempty : 0 < (stripSpaces str).length := by
    rw [stripSpaces, hcore, length_pos_iff, Ne, rdropWhile_eq_nil_iff]
    exact fun hspaces => hcore' (dropWhile_eq_nil_iff.mpr hspaces)
  rw [stripSpaces, hcore, rdropWhile_eq_take, length_take] at hnonempty
  rw [if_neg hnil, findLastNotOf_eq (hcore.trans_ne hnil), ← hstr,
    takeWhile_reverse_append hcore', rdropWhile_eq_take]
  simp only [substr, List.length_append]
  -- the substring ends where the trailing spaces of `core` begin
  rw [if_neg (by omega), drop_left]
  congr 2
  omega

theorem stripSpaces_dropWhile (str : Bytes) : stripSpaces (str.dropWhile (· == space)) = stripSpaces str := by
  rw [stripSpaces, dropWhile_idempotent, stripSpaces]

theorem dropWhile_word {core : Bytes} (hne : core ≠ []) (hcore : space ∉ core)
    (front back : Bytes) : (front ++ (core ++ back)).dropWhile (· == space) =
      front.dropWhile (· == space) ++ (core ++ back) := by
  rw [dropWhile_append]
  split
  · next hempty =>
    obtain ⟨c, core, rfl⟩ := exists_cons_of_ne_nil hne
    rw [List.isEmpty_iff.mp hempty, cons_append, dropWhile_cons_of_neg]
    · rfl
    · simpa using fun heq : c = space => hcore (heq ▸ mem_cons_self)
  · rfl

theorem stripSpaces_word {core : Bytes} (hne : core ≠ []) (hcore : space ∉ core)
    (lead trail : Bytes) : stripSpaces (lead ++ core ++ trail) =
      lead.dropWhile (· == space) ++ core ++ trail.rdropWhile (· == space) := by
  have hreverse := dropWhile_word (reverse_ne_nil_iff.mpr hne)
    (mt mem_reverse.mp hcore) trail.reverse (lead.dropWhile (· == space)).reverse
  rw [stripSpaces, append_assoc, dropWhile_word hne hcore, List.rdropWhile, List.rdropWhile]
  simp only [reverse_append, append_assoc] at hreverse ⊢
  rw [hreverse]
  simp

end Tbox.Util
