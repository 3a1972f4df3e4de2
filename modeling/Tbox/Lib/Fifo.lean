import Mathlib.Tactic

/-!
# A queue and its history

Items are submitted at the back, begun at the front, and may be withdrawn in between. `Fifo.Inv` says that every item
is in exactly one place and that they are begun in order, and every run of `Fifo.Step` keeps it.
-/

open List

namespace Tbox.Lib

open Relation (ReflTransGen)

@[ext]
structure Fifo (α : Type*) where
  submitted : List α
  begun : List α
  withdrawn : List α
  waiting : List α

namespace Fifo

variable {α : Type*} {q q' : Fifo α} {a : α}

inductive Step (q : Fifo α) : Fifo α → Prop
  | submit (a : α) : Step q
      { q with submitted := q.submitted ++ [a], waiting := q.waiting ++ [a] }
  | begin (a : α) (rest : List α) (hfront : q.waiting = a :: rest) : Step q
      { q with begun := q.begun ++ [a], waiting := rest }
  | withdraw (removed rest : List α) (hperm : q.waiting.Perm (removed ++ rest))
      (hrest : rest.Sublist q.waiting) : Step q
      { q with withdrawn := q.withdrawn ++ removed, waiting := rest }

structure Inv (q : Fifo α) : Prop where
  accounted : q.submitted.Perm (q.begun ++ q.withdrawn ++ q.waiting)
  ordered : (q.begun ++ q.waiting).Sublist q.submitted

/-- Wherever an item moves, it is in one place afterwards. -/
theorem Inv.step (hq : q.Inv) (h : q.Step q') : q'.Inv := by
  cases h with
  | submit a =>
    refine ⟨?_, ?_⟩
    · rw [← append_assoc]
      exact hq.accounted.append_right [a]
    · rw [← append_assoc]
      exact hq.ordered.append (List.Sublist.refl [a])
  | begin a rest hfront =>
    have haccounted := hq.accounted
    have hordered := hq.ordered
    rw [hfront] at haccounted hordered
    refine ⟨haccounted.trans ?_, ?_⟩
    · simp only [append_assoc, cons_append, nil_append]
      refine List.Perm.append_left q.begun ?_
      exact perm_middle
    · simpa using hordered
  | withdraw removed rest hperm hrest =>
    refine ⟨?_, ((append_sublist_append_left q.begun).mpr hrest).trans hq.ordered⟩
    refine hq.accounted.trans ?_
    simp only [append_assoc]
    exact (hperm.append_left q.withdrawn).append_left q.begun

/-- Nor does any number of steps put an item in two places. -/
theorem Inv.steps (hq : q.Inv) (h : ReflTransGen Step q q') : q'.Inv := by
  induction h with
  | refl => exact hq
  | tail _ hstep ih => exact ih.step hstep

section Nodup

variable (hq : q.Inv) (hnodup : q.submitted.Nodup)

include hq hnodup

theorem Inv.nodup : (q.begun ++ q.withdrawn ++ q.waiting).Nodup := hq.accounted.nodup_iff.mp hnodup

theorem Inv.mem_waiting_iff : a ∈ q.waiting ↔ a ∈ q.submitted ∧ a ∉ q.begun ∧ a ∉ q.withdrawn := by
  have hdisjoint := disjoint_of_nodup_append (hq.nodup hnodup)
  rw [hq.accounted.mem_iff, mem_append, mem_append]
  constructor
  · intro hwaiting
    exact ⟨.inr hwaiting, fun hbegun => hdisjoint (mem_append_left _ hbegun) hwaiting,
      fun hwithdrawn => hdisjoint (mem_append_right _ hwithdrawn) hwaiting⟩
  · rintro ⟨(hbegun | hwithdrawn) | hwaiting, hnotBegun, hnotWithdrawn⟩
    · exact absurd hbegun hnotBegun
    · exact absurd hwithdrawn hnotWithdrawn
    · exact hwaiting

theorem Inv.not_mem_begun_of_withdrawn (ha : a ∈ q.withdrawn) : a ∉ q.begun := fun hbegun =>
  disjoint_of_nodup_append (List.Nodup.of_append_left (hq.nodup hnodup)) hbegun ha

theorem Inv.nodup_waiting : q.waiting.Nodup := List.Nodup.of_append_right (hq.nodup hnodup)

end Nodup

theorem Step.withdrawn_subset (h : q.Step q') : q.withdrawn ⊆ q'.withdrawn := by
  cases h with
  | withdraw removed => exact subset_append_left _ _
  | _ => exact List.Subset.refl _

theorem withdrawn_subset_of_steps (h : ReflTransGen Step q q') : q.withdrawn ⊆ q'.withdrawn := by
  induction h with
  | refl => exact List.Subset.refl _
  | tail _ hstep ih => exact List.Subset.trans ih hstep.withdrawn_subset

theorem step_filter (q : Fifo α) (before middle after : List α) (p : α → Bool)
    (hwaiting : q.waiting = before ++ middle ++ after) : q.Step
      { q with
        withdrawn := q.withdrawn ++ middle.filter p
        waiting := before ++ middle.filter (fun a => !p a) ++ after } := by
  have hmiddle : middle.Perm (middle.filter p ++ middle.filter fun a => !p a) := (filter_append_perm p middle).symm
  refine .withdraw _ _ ?_ ?_
  · rw [hwaiting]
    refine ((hmiddle.append_left before).append_right after).trans ?_
    simp only [append_assoc]
    exact perm_append_comm_assoc _ _ _
  · rw [hwaiting]
    exact ((append_sublist_append_left before).mpr filter_sublist).append (List.Sublist.refl after)

end Fifo

end Tbox.Lib
