import Mathlib.Data.List.Pairwise
import Tbox.Lib.StdString

/-!
# The vocabulary of HTTP

Methods and versions with their tables, and the string map that headers, parameters and queries
are kept in.
-/

open List

namespace Tbox.Http

open Tbox.Lib

inductive HttpVer
  | kUnset
  | k1_0
  | k1_1
  | k2_0
  deriving DecidableEq, Repr

def httpVerMap : List (HttpVer × Bytes) :=
  [(.k1_0, bytes "HTTP/1.0"), (.k1_1, bytes "HTTP/1.1"), (.k2_0, bytes "HTTP/2.0")]

def stringToHttpVer (str : Bytes) : HttpVer :=
  ((httpVerMap.find? fun item => item.2 == str).map (·.1)).getD .kUnset

inductive Method
  | kUnset
  | kGet
  | kHead
  | kPut
  | kPost
  | kTrace
  | kOptions
  | kDelete
  deriving DecidableEq, Repr

def methodMap : List (Method × Bytes) :=
  [(.kGet, bytes "GET"), (.kHead, bytes "HEAD"), (.kPut, bytes "PUT"), (.kPost, bytes "POST"),
    (.kTrace, bytes "TRACE"), (.kOptions, bytes "OPTIONS"), (.kDelete, bytes "DELETE")]

def stringToMethod (str : Bytes) : Method :=
  ((methodMap.find? fun item => item.2 == str).map (·.1)).getD .kUnset

theorem mem_methodMap {str : Bytes} (h : stringToMethod str ≠ .kUnset) : ∃ method, (method, str) ∈ methodMap := by
  rw [stringToMethod] at h
  cases hfind : methodMap.find? fun item => item.2 == str with
  | none =>
    rw [hfind] at h
    exact absurd rfl h
  | some item =>
    obtain rfl : item.2 = str := by simpa using List.find?_some hfind
    exact ⟨item.1, List.mem_of_find?_eq_some hfind⟩

def insertEntry (key value : Bytes) : List (Bytes × Bytes) → List (Bytes × Bytes)
  | [] => [(key, value)]
  | entry :: rest => match compare key entry.1 with
      | .lt => (key, value) :: entry :: rest
      | .eq => (entry.1, value) :: rest
      | .gt => entry :: insertEntry key value rest

def Sorted (entries : List (Bytes × Bytes)) : Prop :=
  entries.Pairwise fun a b => compare a.1 b.1 = .lt

theorem mem_insertEntry {key value : Bytes} {entries : List (Bytes × Bytes)}
    {entry : Bytes × Bytes} (h : entry ∈ insertEntry key value entries) : entry = (key, value) ∨ entry ∈ entries := by
  induction entries with
  | nil => exact .inl (mem_singleton.mp h)
  | cons head rest ih =>
    rw [insertEntry] at h
    split at h
    · simpa using h
    · next heq =>
      rw [← Std.LawfulEqOrd.eq_of_compare heq] at h
      rcases mem_cons.mp h with rfl | hrest
      · exact .inl rfl
      · exact .inr (mem_cons_of_mem _ hrest)
    · rcases mem_cons.mp h with rfl | hrest
      · exact .inr mem_cons_self
      · exact (ih hrest).imp_right (mem_cons_of_mem _)

theorem Sorted.insertEntry {entries : List (Bytes × Bytes)} (h : Sorted entries)
    (key value : Bytes) : Sorted (insertEntry key value entries) := by
  induction entries with
  | nil => exact pairwise_singleton _ _
  | cons head rest ih =>
    obtain ⟨hhead, hrest⟩ := pairwise_cons.mp h
    rw [Http.insertEntry]
    split
    · next hlt =>
      refine pairwise_cons.mpr ⟨fun entry hentry => ?_, h⟩
      rcases mem_cons.mp hentry with rfl | hentry
      · exact hlt
      · exact Std.TransCmp.lt_trans hlt (hhead entry hentry)
    · exact pairwise_cons.mpr ⟨hhead, hrest⟩
    · next hgt =>
      refine pairwise_cons.mpr ⟨fun entry hentry => ?_, ih hrest⟩
      rcases mem_insertEntry hentry with rfl | hentry
      · exact Std.OrientedCmp.lt_of_gt hgt
      · exact hhead entry hentry

/-- `std::map<std::string, std::string>`: the entries in the order of their keys. -/
@[ext]
structure StringMap where
  entries : List (Bytes × Bytes)
  sorted : Sorted entries
  deriving DecidableEq

namespace StringMap

def empty : StringMap := ⟨[], List.Pairwise.nil⟩

/-- `map[key] = value` -/
def set (map : StringMap) (key value : Bytes) : StringMap :=
  ⟨insertEntry key value map.entries, map.sorted.insertEntry key value⟩

end StringMap

end Tbox.Http
