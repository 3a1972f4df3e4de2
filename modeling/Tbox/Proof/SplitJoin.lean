import Tbox.Lib.Occurrences
import Tbox.Util.StringOps

/-!
# Splitting and joining

Chips are what stands between the places where the separator is found. Joined they are the string again, and a joined
list is split again where the separator is found at the joints only.
-/

open List Option

namespace Tbox.Util

open Tbox.Lib (Bytes)
open Tbox.Lib.StdString

variable {sep srcStr rest before left right part : Bytes} {strVec chips list : List Bytes} {rounds startPos : Nat}

theorem join_cons (part : Bytes) (list : List Bytes) (sep : Bytes) :
    join (part :: list) sep = part ++ list.flatMap (sep ++ ·) := by
  have hfold : ∀ (list : List Bytes) (tmp : Bytes), (list.foldl (fun (tmp, isNeedInsertDelimiter) str =>
        ((if isNeedInsertDelimiter then tmp ++ sep else tmp) ++ str, true)) (tmp, true)).1 =
        tmp ++ list.flatMap (sep ++ ·) := by
    intro list
    induction list with
    | nil => exact fun tmp => (append_nil tmp).symm
    | cons str list ih =>
      intro tmp
      rw [foldl_cons, flatMap_cons]
      refine (ih _).trans ?_
      rw [if_pos rfl, append_assoc, append_assoc, append_assoc]
  rw [join, foldl_cons]
  exact hfold list part

theorem join_singleton (part sep : Bytes) : join [part] sep = part := by
  rw [join_cons, flatMap_nil, append_nil]

theorem join_cons_cons (part next : Bytes) (list : List Bytes) (sep : Bytes) :
    join (part :: next :: list) sep = part ++ sep ++ join (next :: list) sep := by
  rw [join_cons, join_cons, flatMap_cons, append_assoc, append_assoc]

def joints (sep : Bytes) : Nat → List Bytes → List Nat
  | pos, part :: next :: list => (pos + part.length) :: joints sep (pos + part.length + sep.length) (next :: list)
  | _, _ => []

theorem le_of_mem_joints {pos place : Nat} (h : place ∈ joints sep pos list) : pos ≤ place := by
  induction list generalizing pos with
  | nil => cases h
  | cons part list ih =>
    cases list with
    | nil => cases h
    | cons next list =>
      rcases mem_cons.mp h with rfl | hmem
      · exact Nat.le_add_right _ _
      · have hle := ih hmem
        omega

theorem length_le_join (hsep : sep ≠ []) (list : List Bytes) : list.length ≤ (join list sep).length + 1 := by
  have hpos := length_pos_iff.mpr hsep
  induction list with
  | nil => exact Nat.zero_le _
  | cons part list ih =>
    cases list with
    | nil => exact Nat.le_add_left _ _
    | cons next list =>
      rw [join_cons_cons, length_append, length_append, length_cons]
      omega

structure Chips (sep rest : Bytes) (chips : List Bytes) : Prop where
  free : ∀ chip ∈ chips, ¬sep <:+: chip
  joined : join chips sep = rest
  count : chips.length = (found sep 0 0 rest).length + 1

theorem Chips.exists_cons (h : Chips sep rest chips) : ∃ first more, chips = first :: more :=
  exists_cons_of_length_pos (h.count ▸ Nat.succ_pos _)

theorem splitLoop_chips (hsep : sep ≠ []) (h : splitLoop (before ++ rest) sep rounds before.length strVec = .ok chips) :
    ∃ more, chips = strVec ++ more ∧ Chips sep rest more := by
  induction rounds generalizing before rest strVec with
  | zero => cases h
  | succ rounds ih =>
    cases hcut : cut sep rest with
    | none =>
      rw [splitLoop_last hcut] at h
      cases h
      refine ⟨[rest], rfl, ⟨?_, join_singleton rest sep, ?_⟩⟩
      · rintro chip hchip
        rw [mem_singleton.mp hchip]
        exact not_infix_of_cut hsep hcut
      · rw [found_of_cut_none hcut]
        rfl
    | some s =>
      obtain ⟨left, right⟩ := s
      rw [splitLoop_cut hcut] at h
      obtain ⟨more, rfl, hmore⟩ := ih h
      obtain ⟨next, more, rfl⟩ := hmore.exists_cons
      refine ⟨left :: next :: more, by simp, ⟨?_, ?_, ?_⟩⟩
      · exact forall_mem_cons.mpr ⟨not_infix_left hsep hcut, hmore.free⟩
      · rw [join_cons_cons, hmore.joined, cut_eq hcut]
      · rw [found_of_cut hsep hcut, length_cons, hmore.count, length_cons, length_found sep right 0]

theorem split_chips (hsep : sep ≠ []) (srcStr : Bytes) :
    ∃ chips, split srcStr sep = .ok chips ∧ Chips sep srcStr chips := by
  obtain ⟨chips, hsplit⟩ := split_ok srcStr hsep
  have hsplit' : splitLoop ([] ++ srcStr) sep (srcStr.length + 1) ([] : Bytes).length [] = .ok chips := hsplit
  obtain ⟨more, hchips, hmore⟩ := splitLoop_chips hsep hsplit'
  rw [nil_append] at hchips
  exact ⟨chips, hsplit, hchips ▸ hmore⟩

theorem splitLoop_joined_list (before : Bytes) (hsep : sep ≠ []) (hne : list ≠ [])
    (hjoints : ∀ place ∈ found sep before.length 0 (join list sep), place ∈ joints sep before.length list)
    (hrounds : list.length ≤ rounds) :
    splitLoop (before ++ join list sep) sep rounds before.length strVec = .ok (strVec ++ list) := by
  induction list generalizing before strVec rounds with
  | nil => exact absurd rfl hne
  | cons part list ih =>
    obtain ⟨rounds, rfl⟩ := Nat.exists_eq_succ_of_ne_zero (Nat.ne_of_gt (Nat.zero_lt_of_lt hrounds))
    cases list with
    | nil =>
      have hcut : cut sep (join [part] sep) = none := by
        by_contra hsome
        obtain ⟨s, hs⟩ := ne_none_iff_exists'.mp hsome
        rw [found_of_cut hsep hs] at hjoints
        exact nomatch hjoints _ mem_cons_self
      rw [splitLoop_last hcut, join_singleton]
    | cons next list =>
      rw [join_cons_cons] at hjoints ⊢
      obtain ⟨left, right, hcut, hle⟩ := exists_cut sep part (join (next :: list) sep)
      rw [found_of_cut hsep hcut] at hjoints
      obtain ⟨hfirst, hlater⟩ := forall_mem_cons.mp hjoints
      -- the first place is that of a joint, and there is no joint before the first
      have hlength : left.length = part.length := by
        rcases mem_cons.mp hfirst with heq | hmem
        · exact Nat.add_left_cancel heq
        · have hbehind := le_of_mem_joints hmem
          omega
      have hparts := cut_eq hcut
      rw [append_assoc, append_assoc] at hparts
      obtain ⟨rfl, hbehind⟩ := append_inj hparts hlength.symm
      obtain rfl := append_cancel_left hbehind
      have hjoints' : ∀ place ∈ found sep (before ++ part ++ sep).length 0 (join (next :: list) sep),
          place ∈ joints sep (before ++ part ++ sep).length (next :: list) := by
        rw [length_append, length_append]
        intro place hplace
        have hpos := length_pos_iff.mpr hsep
        have hle := le_of_mem_found hplace
        exact (mem_cons.mp (hlater place hplace)).resolve_left (by omega)
      rw [splitLoop_cut hcut, ih _ (cons_ne_nil _ _) hjoints' (Nat.le_of_succ_le_succ hrounds),
        append_assoc, singleton_append]

theorem splitLoop_stuck (srcStr : Bytes) (rounds startPos : Nat) (strVec : List Bytes) (h : startPos ≤ srcStr.length) :
    splitLoop srcStr [] rounds startPos strVec = .error .stuck := by
  induction rounds generalizing strVec with
  | zero => rfl
  | succ rounds ih =>
    have hfind : findSub [] (srcStr.drop startPos) = some 0 := by
      cases srcStr.drop startPos <;> rfl
    have hchip : substr srcStr startPos (some 0) = .ok [] := by
      rw [substr, if_neg (Nat.not_lt.mpr h), take_zero]
    rw [splitLoop, find, hfind]
    simp only [map_some, sizeSub, bind_some, Nat.add_zero, Nat.le_refl, if_true, Nat.sub_self, hchip,
      bind, Except.bind, length_nil]
    exact ih _

/-- The loop ends for every string with its chips, and a list whose joints are the only places found is split again. -/
structure InvertsJoin (sep : Bytes) : Prop where
  ends : ∀ srcStr, ∃ rounds chips, splitLoop srcStr sep rounds 0 [] = .ok chips
  chips : sep ≠ [] → ∀ srcStr, ∃ chips, split srcStr sep = .ok chips ∧ Chips sep srcStr chips
  joined : ∀ list, list ≠ [] → (∀ place ∈ found sep 0 0 (join list sep), place ∈ joints sep 0 list) →
    split (join list sep) sep = .ok list

/-- **`Split` and `Join` are inverse to each other** for every separator but the empty one. -/
theorem invertsJoin_iff (sep : Bytes) : InvertsJoin sep ↔ sep ≠ [] := by
  constructor
  · rintro h rfl
    obtain ⟨rounds, chips, hsplit⟩ := h.ends []
    rw [splitLoop_stuck [] rounds 0 [] le_rfl] at hsplit
    cases hsplit
  · intro hsep
    refine ⟨fun srcStr => ?_, fun _ => split_chips hsep, fun list hne hjoints => ?_⟩
    · obtain ⟨chips, hsplit⟩ := split_ok srcStr hsep
      exact ⟨_, chips, hsplit⟩
    · exact splitLoop_joined_list [] hsep hne hjoints (length_le_join hsep list)

/-- Not even the empty string is split at nothing. -/
theorem emptySeparator_stuck : (∀ rounds, splitLoop [] [] rounds 0 [] = .error .stuck) ∧ ¬∀ sep, InvertsJoin sep := by
  refine ⟨fun rounds => splitLoop_stuck [] rounds 0 [] le_rfl, fun hall => ?_⟩
  obtain ⟨rounds, chips, hsplit⟩ := (hall []).ends []
  rw [splitLoop_stuck [] rounds 0 [] le_rfl] at hsplit
  cases hsplit

end Tbox.Util
