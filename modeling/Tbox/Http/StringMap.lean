import Tbox.Http.Common

/-!
# What a string map holds

A map is its entries: two maps with the same entries are equal, and what is stored last under a key
is what the map has there.
-/

open List

namespace Tbox.Http

open Tbox.Lib

namespace StringMap

def setAll (map : StringMap) (entries : List (Bytes × Bytes)) : StringMap :=
  entries.foldl (fun map entry => map.set entry.1 entry.2) map

def keys (map : StringMap) : List Bytes := map.entries.map (·.1)

end StringMap

variable {key value : Bytes} {entry : Bytes × Bytes} {entries : List (Bytes × Bytes)}
  {map other : StringMap}

theorem ne_of_compare {a b : Bytes} (h : compare a b = .lt) : a ≠ b := by
  rintro rfl
  have hself : compare a a = .eq := Std.ReflCmp.compare_self
  rw [hself] at h
  cases h

theorem Sorted.key_not_mem (h : Sorted (entry :: entries)) : entry.1 ∉ entries.map (·.1) := by
  intro hmem
  obtain ⟨later, hlater, hkey⟩ := List.mem_map.mp hmem
  exact ne_of_compare ((pairwise_cons.mp h).1 later hlater) hkey.symm

theorem Sorted.nodup (h : Sorted entries) : entries.Nodup := by
  induction entries with
  | nil => exact nodup_nil
  | cons entry entries ih =>
    apply nodup_cons.mpr
    exact ⟨fun hmem => h.key_not_mem (List.mem_map_of_mem hmem), ih (pairwise_cons.mp h).2⟩

theorem mem_insertEntry_iff (h : Sorted entries) : entry ∈ insertEntry key value entries ↔
    entry = (key, value) ∨ entry ∈ entries ∧ entry.1 ≠ key := by
  induction entries with
  | nil => simp [insertEntry]
  | cons head rest ih =>
    obtain ⟨hhead, hrest⟩ := pairwise_cons.mp h
    rw [insertEntry]
    split
    · next hlt =>
      have hne : ∀ entry ∈ head :: rest, entry.1 ≠ key := by
        intro entry hentry
        apply (ne_of_compare _).symm
        rcases mem_cons.mp hentry with rfl | hentry
        · exact hlt
        · exact Std.TransCmp.lt_trans hlt (hhead entry hentry)
      rw [mem_cons, and_iff_left_of_imp (hne entry)]
    · next heq =>
      obtain rfl := Std.LawfulEqOrd.eq_of_compare heq
      have hne : entry ∈ rest → entry.1 ≠ head.1 := fun hentry hkey =>
        h.key_not_mem (hkey ▸ List.mem_map_of_mem hentry)
      rw [mem_cons, mem_cons, or_and_right, and_iff_left_of_imp hne]
      have hself : ¬(entry = head ∧ entry.1 ≠ head.1) := fun h => h.2 (congrArg _ h.1)
      simp only [hself, false_or]
    · next hgt =>
      have hne : head.1 ≠ key := ne_of_compare (Std.OrientedCmp.lt_of_gt hgt)
      rw [mem_cons, mem_cons, ih hrest, or_and_right]
      have hself : entry = head ∧ entry.1 ≠ key ↔ entry = head := by
        apply and_iff_left_of_imp
        rintro rfl
        exact hne
      rw [hself]
      exact or_left_comm

namespace StringMap

theorem ext_mem (h : ∀ entry, entry ∈ map.entries ↔ entry ∈ other.entries) : map = other := by
  have hperm := (perm_ext_iff_of_nodup map.sorted.nodup other.sorted.nodup).mpr h
  apply StringMap.ext
  apply hperm.eq_of_pairwise _ map.sorted other.sorted
  intro a b _ _ hlt hgt
  exact absurd hgt (Std.OrientedCmp.not_lt_of_lt hlt)

theorem entries_eq_nil : map.entries = [] ↔ map = .empty := ⟨fun h => StringMap.ext h, fun h => congrArg entries h⟩

theorem mem_set : entry ∈ (map.set key value).entries ↔ entry = (key, value) ∨ entry ∈ map.entries ∧ entry.1 ≠ key :=
  mem_insertEntry_iff map.sorted

theorem mem_setAll (h : Sorted entries) : entry ∈ (map.setAll entries).entries ↔
    entry ∈ entries ∨ entry ∈ map.entries ∧ entry.1 ∉ entries.map (·.1) := by
  induction entries generalizing map with
  | nil => simp [setAll]
  | cons head rest ih =>
    have hkey := h.key_not_mem
    rw [setAll, foldl_cons, ← setAll, ih (pairwise_cons.mp h).2, mem_set]
    have hself : entry = head → entry.1 ∉ rest.map (·.1) := fun heq => heq ▸ hkey
    simp only [map_cons, mem_cons, not_or]
    tauto

theorem setAll_eq_iff : map.setAll other.entries = other ↔ ∀ key ∈ map.keys, key ∈ other.keys := by
  constructor
  · intro h key hkey
    obtain ⟨entry, hentry, rfl⟩ := List.mem_map.mp hkey
    by_contra hnot
    have hmem : entry ∈ (map.setAll other.entries).entries := (mem_setAll other.sorted).mpr (.inr ⟨hentry, hnot⟩)
    rw [h] at hmem
    exact hnot (List.mem_map_of_mem hmem)
  · intro h
    apply ext_mem
    intro entry
    rw [mem_setAll other.sorted]
    apply or_iff_left
    rintro ⟨hentry, hnot⟩
    exact hnot (h entry.1 (List.mem_map_of_mem hentry))

theorem set_ne_empty (map : StringMap) (key value : Bytes) : map.set key value ≠ .empty := by
  intro h
  have hmem : (key, value) ∈ (map.set key value).entries := mem_set.mpr (.inl rfl)
  rw [h] at hmem
  cases hmem

end StringMap

end Tbox.Http
