import Mathlib.Tactic

/-!
# The timeout monitor

`eventx/timeout_monitor_impl.hpp`: a ring of items that a timer goes round, and in each item the
values that were added while it was the current one. A full round later they are reported.
-/

open List

namespace Tbox.Eventx

structure TimeoutMonitor (τ : Type) where
  /-- the items in the order in which the ticks come to them, `curr_item_` last; none without one -/
  ring : List (List τ) := []
  /-- `int value_number_` -/
  valueNumber : Int := 0
  timerEnabled : Bool := false
  /-- whether `cb_` is set -/
  hasCallback : Bool := false
  deriving DecidableEq, Repr

namespace TimeoutMonitor

variable {τ : Type}

def setCallback (m : TimeoutMonitor τ) : TimeoutMonitor τ := { m with hasCallback := true }

def initializeMonitor (m : TimeoutMonitor τ) (checkTimes : Int) : Bool × TimeoutMonitor τ :=
  if checkTimes < 1 then (false, m)
  else (true, { m with timerEnabled := false, ring := List.replicate checkTimes.toNat [] })

/-- Nothing where `curr_item_` is null, or where the next number does not fit an `int`. -/
def add (m : TimeoutMonitor τ) (value : τ) : Option (TimeoutMonitor τ) :=
  match m.ring.getLast? with
  | none => none
  | some items =>
    if m.valueNumber < 2 ^ 31 - 1 then
      some { m with
        ring := m.ring.dropLast ++ [items ++ [value]]
        timerEnabled := if m.valueNumber = 0 then true else m.timerEnabled
        valueNumber := m.valueNumber + 1 }
    else none

def cleanup (m : TimeoutMonitor τ) : TimeoutMonitor τ :=
  if m.ring = [] then m
  else
    { m with
      timerEnabled := if 0 < m.valueNumber then false else m.timerEnabled
      valueNumber := 0
      ring := []
      hasCallback := false }

/-- With the values that `cb_` is called for. -/
def onTimerTick (m : TimeoutMonitor τ) : Option (List τ × TimeoutMonitor τ) :=
  match m.ring with
  | [] => none
  | tobeHandle :: rest =>
    let valueNumber := m.valueNumber - tobeHandle.length
    some (if m.hasCallback then tobeHandle else [],
      { m with
        ring := rest ++ [[]]
        valueNumber := valueNumber
        timerEnabled := if valueNumber = 0 then false else m.timerEnabled })

/-- The values that are reported at the tick that follows `k` others. -/
def slot (m : TimeoutMonitor τ) (k : Nat) : List τ := m.ring.getD k []

def size (m : TimeoutMonitor τ) : Nat := (m.ring.map List.length).sum

structure Counted (m : TimeoutMonitor τ) : Prop where
  number : m.valueNumber = m.size
  enabled : m.timerEnabled ↔ 0 < m.size

variable {m m' : TimeoutMonitor τ} {value : τ} {k : Nat} {handled : List τ}

theorem size_pos_of_mem (h : value ∈ m.slot k) : 0 < m.size := by
  unfold slot at h
  rw [getD_eq_getElem?_getD] at h
  cases hget : m.ring[k]? with
  | none =>
    rw [hget] at h
    cases h
  | some items =>
    rw [hget, Option.getD_some] at h
    have hle : items.length ≤ m.size :=
      single_le_sum (fun _ _ => Nat.zero_le _) _
        (List.mem_map.mpr ⟨items, mem_of_getElem? hget, rfl⟩)
    exact (length_pos_of_mem h).trans_le hle

theorem add_spec (h : m.add value = some m') :
    m'.ring.length = m.ring.length ∧ m'.hasCallback = m.hasCallback ∧ m'.size = m.size + 1 ∧
      (∀ k, m'.slot k = if k + 1 = m.ring.length then m.slot k ++ [value] else m.slot k) ∧
      (m.Counted → m'.Counted) := by
  unfold add at h
  split at h
  · cases h
  · next items hlast =>
      obtain ⟨front, hring⟩ := List.getLast?_eq_some_iff.mp hlast
      obtain ⟨-, rfl⟩ := Option.ite_some_none_eq_some.mp h
      have hsize : ((m.ring.dropLast ++ [items ++ [value]]).map List.length).sum = m.size + 1 := by
        simp only [size, hring, dropLast_concat, map_append, map_cons, map_nil,
          sum_append, sum_cons, sum_nil, List.length_append, length_cons,
          length_nil]
        omega
      refine ⟨?_, rfl, hsize, fun k => ?_, fun hcounted => ⟨?_, ?_⟩⟩
      · simp [hring]
      · simp only [slot, hring, dropLast_concat, List.length_append, length_singleton,
          getD_eq_getElem?_getD, List.getElem?_append]
        by_cases hk : k < front.length
        · rw [if_pos hk, if_pos hk, if_neg (by omega)]
        · rw [if_neg hk, if_neg hk]
          by_cases hk' : k = front.length
          · simp [hk']
          · have hpos : k - front.length ≠ 0 := by omega
            rw [if_neg (by omega)]
            simp [hpos]
      · have hnumber : m.valueNumber + 1 = ((m.size + 1 : Nat) : Int) := by
          rw [hcounted.number, Nat.cast_succ]
        exact hnumber.trans (congrArg Nat.cast hsize.symm)
      · rw [size, hsize]
        dsimp only
        refine iff_of_true ?_ (Nat.succ_pos _)
        split
        · rfl
        · next hne =>
            refine hcounted.enabled.mpr (Nat.pos_of_ne_zero fun hzero => hne ?_)
            rw [hcounted.number, hzero]
            rfl

theorem onTimerTick_spec (h : m.onTimerTick = some (handled, m')) :
    m.ring ≠ [] ∧ handled = (if m.hasCallback then m.slot 0 else []) ∧
      m'.ring.length = m.ring.length ∧ m'.hasCallback = m.hasCallback ∧
      (∀ k, m'.slot k = m.slot (k + 1)) ∧ (m.Counted → m'.Counted) := by
  unfold onTimerTick at h
  split at h
  · cases h
  · next items rest hring =>
      obtain ⟨rfl, rfl⟩ := Prod.mk.inj (Option.some.inj h)
      have hsize : ((rest ++ [[]]).map List.length).sum = m.size - items.length := by
        simp [size, hring]
      have hle : items.length ≤ m.size := by
        simp [size, hring]
      refine ⟨by rw [hring]; nofun, ?_, ?_, rfl, fun k => ?_, fun hcounted => ⟨?_, ?_⟩⟩
      · rw [slot, hring]
        rfl
      · simp [hring]
      · simp only [slot, hring, getD_eq_getElem?_getD, List.getElem?_append, List.getElem?_cons_succ]
        by_cases hk : k < rest.length
        · rw [if_pos hk]
        · rw [if_neg hk, List.getElem?_eq_none (Nat.le_of_not_lt hk), List.getElem?_singleton]
          split <;> rfl
      · have hnumber : m.valueNumber - items.length = ((m.size - items.length : Nat) : Int) := by
          rw [hcounted.number, Nat.cast_sub hle]
        exact hnumber.trans (congrArg Nat.cast hsize.symm)
      · rw [size, hsize]
        dsimp only
        have hnumber := hcounted.number
        split
        · next hzero =>
            constructor
            · nofun
            · intro hpos
              omega
        · next hne =>
            rw [hcounted.enabled]
            constructor <;> intro hpos <;> omega

theorem cleanup_spec (h : m.Counted) : m.cleanup.ring = [] ∧ m.cleanup.Counted := by
  unfold cleanup
  split
  · next hring => exact ⟨hring, h⟩
  · refine ⟨rfl, rfl, ?_⟩
    refine iff_of_false ?_ (Nat.lt_irrefl 0)
    dsimp only
    split
    · nofun
    · next hnumber =>
        rw [h.enabled]
        rw [h.number] at hnumber
        omega

theorem initializeMonitor_spec {times : Int} (h : 1 ≤ times) (hnumber : m.valueNumber = 0) :
    (m.initializeMonitor times).2.ring.length = times.toNat ∧
      (∀ k, (m.initializeMonitor times).2.slot k = []) ∧ (m.initializeMonitor times).2.Counted := by
  rw [initializeMonitor, if_neg (by omega)]
  have hsize : ((List.replicate times.toNat ([] : List τ)).map List.length).sum = 0 := by simp
  refine ⟨length_replicate, fun k => ?_, ?_, ?_⟩
  · simp only [slot, getD_eq_getElem?_getD, List.getElem?_replicate]
    split <;> rfl
  · rw [size, hsize]
    exact hnumber
  · rw [size, hsize]
    simp

end TimeoutMonitor

end Tbox.Eventx
