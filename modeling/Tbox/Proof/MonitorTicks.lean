import Tbox.Lib.Run
import Tbox.Eventx.TimeoutMonitor

/-!
# Every value is reported at its own tick

A monitor is driven by its timer and by whoever adds values, out of a callback or not. What the tick under way has
still to call `cb_` for is kept apart.
-/

open List Option

namespace Tbox.Eventx.TimeoutMonitor

open Tbox.Lib

variable {τ : Type}

/-- A monitor at work, with what has been added to it and what it has reported. -/
structure Session (τ : Type) where
  monitor : TimeoutMonitor τ
  /-- what the tick under way still calls `cb_` for -/
  tobeHandle : List τ := []
  ticks : Nat := 0
  /-- each value with the number of ticks that had begun -/
  added : List (τ × Nat) := []
  /-- each call of `cb_` with the number of the tick that made it -/
  reported : List (τ × Nat) := []
  deriving DecidableEq, Repr

inductive Move (τ : Type) where
  | add (value : τ)
  /-- `onTimerTick` up to its loop -/
  | tick
  /-- the next turn of that loop -/
  | report
  deriving DecidableEq, Repr

namespace Session

def step (s : Session τ) : Move τ → Option (Session τ)
  | .add value =>
    (s.monitor.add value).map fun monitor =>
      { s with monitor := monitor, added := s.added ++ [(value, s.ticks)] }
  | .tick =>
    match s.tobeHandle with
    | [] =>
      s.monitor.onTimerTick.map fun ticked =>
        { s with monitor := ticked.2, tobeHandle := ticked.1, ticks := s.ticks + 1 }
    | _ :: _ => none
  | .report =>
    match s.tobeHandle with
    | [] => none
    | value :: rest =>
      some { s with tobeHandle := rest, reported := s.reported ++ [(value, s.ticks)] }

/-- A new monitor that is given its check times and its callback. -/
def start (checkTimes : Int) : Session τ where
  monitor := ((({} : TimeoutMonitor τ).initializeMonitor checkTimes).2).setCallback

/-- What has been added and is due by the given tick, with the tick it is due at. -/
def due (s : Session τ) (n tick : Nat) : List (τ × Nat) :=
  (s.added.filter fun entry => entry.2 + n ≤ tick).map fun entry => (entry.1, entry.2 + n)

/-- With `n` items in the ring, the item that the ticks come to after `k` others holds what is due
then. -/
structure Timely (n : Nat) (s : Session τ) : Prop where
  length : s.monitor.ring.length = n
  hasCallback : s.monitor.hasCallback = true
  counted : s.monitor.Counted
  /-- values are added in the order of the ticks -/
  sorted : s.added.Pairwise fun first second => first.2 ≤ second.2
  begun : ∀ entry ∈ s.added, entry.2 ≤ s.ticks
  slot : ∀ k < n, s.monitor.slot k
    = (s.added.filter fun entry => entry.2 + n = s.ticks + k + 1).map Prod.fst
  reported : s.reported ++ s.tobeHandle.map (fun value => (value, s.ticks)) = s.due n s.ticks
  number : s.monitor.valueNumber + s.reported.length + s.tobeHandle.length = s.added.length

end Session

theorem filter_le_succ {f : α → Nat} {l : List α}
    (hsorted : l.Pairwise fun first second => f first ≤ f second) (t : Nat) :
    l.filter (fun x => f x ≤ t + 1) = l.filter (fun x => f x ≤ t) ++ l.filter fun x => f x = t + 1 := by
  calc l.filter (fun x => f x ≤ t + 1)
      = (l.filter fun x => f x ≤ t + 1).filter (fun x => f x ≤ t) ++
          (l.filter fun x => f x ≤ t + 1).filter (fun x => t < f x) :=
        (Lib.filter_le_append_filter_lt (hsorted.filter _) t).symm
    _ = l.filter (fun x => f x ≤ t) ++ l.filter fun x => f x = t + 1 := by
        rw [List.filter_filter, List.filter_filter]
        congr 1 <;> apply filter_congr <;> intro x _
        · rw [← Bool.decide_and, decide_eq_decide]
          omega
        · rw [← Bool.decide_and, decide_eq_decide]
          omega

theorem add_valueNumber {m m' : TimeoutMonitor τ} {value : τ} (h : m.add value = some m') :
    m'.valueNumber = m.valueNumber + 1 := by
  unfold add at h
  split at h
  · cases h
  · obtain ⟨-, rfl⟩ := ite_some_none_eq_some.mp h
    rfl

theorem onTimerTick_valueNumber {m m' : TimeoutMonitor τ} {handled : List τ}
    (h : m.onTimerTick = some (handled, m')) (hcallback : m.hasCallback = true) :
    m'.valueNumber + handled.length = m.valueNumber := by
  unfold onTimerTick at h
  split at h
  · cases h
  · obtain ⟨rfl, rfl⟩ := Prod.mk.inj (some.inj h)
    rw [if_pos hcallback]
    exact sub_add_cancel _ _

namespace Session

variable {n : Nat} {s t : Session τ}

theorem Timely.add (h : s.Timely n) (hn : 0 < n) {value : τ} (hstep : s.step (.add value) = some t) : t.Timely n := by
  obtain ⟨monitor, hadd, rfl⟩ := map_eq_some_iff.mp hstep
  obtain ⟨hlength, hcallback, -, hslot, hcounted⟩ := add_spec hadd
  refine ⟨hlength.trans h.length, hcallback.trans h.hasCallback, hcounted h.counted, ?_, ?_, ?_, ?_, ?_⟩
  · rw [pairwise_append]
    refine ⟨h.sorted, pairwise_singleton _ _, ?_⟩
    intro entry hentry last hlast
    rw [mem_singleton.mp hlast]
    exact h.begun entry hentry
  · intro entry hentry
    rcases mem_append.mp hentry with hentry | hentry
    · exact h.begun entry hentry
    · rw [mem_singleton.mp hentry]
  · intro k hk
    rw [hslot k, h.length, h.slot k hk, filter_append, map_append]
    by_cases hlast : k + 1 = n
    · have hnow : s.ticks + n = s.ticks + k + 1 := by omega
      rw [if_pos hlast]
      simp [hnow]
    · have hlater : s.ticks + n ≠ s.ticks + k + 1 := by omega
      rw [if_neg hlast]
      simp [hlater]
  · have hlater : ¬s.ticks + n ≤ s.ticks := by omega
    refine h.reported.trans ?_
    simp [due, hlater]
  have hnumber := h.number
  rw [add_valueNumber hadd, length_append, length_singleton]
  push_cast
  omega

theorem Timely.tick (h : s.Timely n) (hn : 0 < n) (hstep : s.step .tick = some t) : t.Timely n := by
  simp only [step] at hstep
  split at hstep
  · next hdone =>
      obtain ⟨⟨handled, monitor⟩, htick, rfl⟩ := map_eq_some_iff.mp hstep
      obtain ⟨-, hhandled, hlength, hcallback, hslot, hcounted⟩ := onTimerTick_spec htick
      rw [if_pos h.hasCallback, h.slot 0 hn] at hhandled
      refine ⟨hlength.trans h.length, hcallback.trans h.hasCallback, hcounted h.counted, h.sorted,
        fun entry hentry => (h.begun entry hentry).trans (Nat.le_succ _), ?_, ?_, ?_⟩
      · intro k hk
        rw [hslot k]
        by_cases hlast : k + 1 = n
        · have hnone : s.added.filter (fun entry => entry.2 + n = s.ticks + 1 + k + 1) = [] := by
            rw [filter_eq_nil_iff]
            intro entry hentry
            have := h.begun entry hentry
            simp only [decide_eq_true_eq]
            omega
          have hend : s.monitor.ring[k + 1]? = none := getElem?_eq_none (by rw [h.length]; omega)
          rw [hnone, TimeoutMonitor.slot, getD_eq_getElem?_getD, hend]
          rfl
        · have hsame : s.ticks + (k + 1) + 1 = s.ticks + 1 + k + 1 := by omega
          rw [h.slot (k + 1) (by omega), hsame]
      · have hnow : (s.added.filter fun entry => entry.2 + n = s.ticks + 1).map
            (fun entry => (entry.1, entry.2 + n)) = handled.map fun value => (value, s.ticks + 1) := by
          rw [hhandled, List.map_map]
          apply map_congr_left
          intro entry hentry
          have hat := of_decide_eq_true (mem_filter.mp hentry).2
          exact congrArg (Prod.mk entry.1) hat
        have hbefore := h.reported
        rw [hdone, map_nil, append_nil] at hbefore
        have hsorted : s.added.Pairwise fun first second => first.2 + n ≤ second.2 + n :=
          h.sorted.imp fun hle => Nat.add_le_add_right hle n
        change s.reported ++ handled.map (fun value => (value, s.ticks + 1)) = s.due n (s.ticks + 1)
        rw [due, filter_le_succ hsorted, map_append, hnow, hbefore, due]
      · have hnumber := h.number
        have hless := onTimerTick_valueNumber htick h.hasCallback
        rw [hdone, length_nil] at hnumber
        dsimp only
        omega
  · cases hstep

theorem Timely.report (h : s.Timely n) (hstep : s.step .report = some t) : t.Timely n := by
  simp only [step] at hstep
  split at hstep
  · cases hstep
  next value rest hrest =>
    cases hstep
    have hreported := h.reported
    have hnumber := h.number
    rw [hrest] at hreported hnumber
    refine { h with reported := ?_, number := ?_ }
    · rw [← append_cons]
      exact hreported
    rw [length_cons] at hnumber
    rw [length_append, length_singleton]
    push_cast at hnumber ⊢
    omega

/-- An addition, a tick and a report keep every value at its own tick. -/
theorem Timely.step (hn : 0 < n) (h : s.Timely n) {move : Move τ} (hstep : s.step move = some t) : t.Timely n := by
  cases move with
  | add value => exact h.add hn hstep
  | tick => exact h.tick hn hstep
  | report => exact h.report hstep

theorem timely_start {checkTimes : Int} (h : 1 ≤ checkTimes) :
    (start checkTimes : Session τ).Timely checkTimes.toNat := by
  obtain ⟨hlength, hslot, hcounted⟩ := initializeMonitor_spec (m := ({} : TimeoutMonitor τ)) h rfl
  refine ⟨hlength, rfl, ⟨hcounted.number, hcounted.enabled⟩, List.Pairwise.nil, nofun, ?_, rfl, ?_⟩
  · intro k _
    exact hslot k
  have hnumber : (start checkTimes : Session τ).monitor.valueNumber = 0 := by
    rw [start, setCallback, initializeMonitor, if_neg (by omega)]
  rw [hnumber]
  rfl

/-- **Every value is reported at its own tick**, in the order of the additions: the one that comes `checkTimes` after
those begun when it was added. The others, which no tick has taken yet, are counted, and the timer runs while there are
any. -/
theorem reports_exactly {checkTimes : Int} (hn : 1 ≤ checkTimes) {moves : List (Move τ)}
    (hrun : run Session.step (start checkTimes) moves = some s) :
    s.reported ++ s.tobeHandle.map (fun value => (value, s.ticks)) = s.due checkTimes.toNat s.ticks ∧
      s.monitor.valueNumber + s.reported.length + s.tobeHandle.length = s.added.length ∧
      (s.monitor.timerEnabled ↔ 0 < s.monitor.valueNumber) := by
  have hpos : 0 < checkTimes.toNat := by omega
  have htimely := run_invariant_of_step (fun _ _ _ h => Timely.step hpos h) (timely_start hn) hrun
  refine ⟨htimely.reported, htimely.number, ?_⟩
  rw [htimely.counted.enabled, htimely.counted.number]
  omega

/-- A ring of two items; the first tick with something due adds another value in its callback. -/
def twoChecks : List (Move Nat) :=
  [.add 10, .tick, .add 11, .tick, .report, .add 12, .tick, .report, .tick]

theorem twoChecks_reports_exactly : ∃ s, run Session.step (start 2) twoChecks = some s ∧
    s.reported = [(10, 2), (11, 3)] ∧ s.tobeHandle = [12] ∧
    s.reported ++ s.tobeHandle.map (fun value => (value, s.ticks)) = s.due 2 s.ticks ∧
    s.monitor.valueNumber + s.reported.length + s.tobeHandle.length = s.added.length ∧
    (s.monitor.timerEnabled ↔ 0 < s.monitor.valueNumber) := by
  have htwo : (1 : Int) ≤ 2 := by decide
  have hrun : ∃ s, run Session.step (start 2) twoChecks = some s ∧
      s.reported = [(10, 2), (11, 3)] ∧ s.tobeHandle = [12] := ⟨_, rfl, rfl, rfl⟩
  obtain ⟨s, hrun, hreported, htobe⟩ := hrun
  exact ⟨s, hrun, hreported, htobe, reports_exactly htwo hrun⟩

/-- While the callback is called for the only value, the value has not been reported, and is neither counted nor does
the timer run. -/
theorem tick_takes_first : ∃ s, run Session.step (start 1) [.add 10, .tick] = some s ∧ s.added = [(10, 0)] ∧
    s.reported = [] ∧ s.tobeHandle = [10] ∧ s.monitor.valueNumber ≠ (s.added.length : Int) - s.reported.length ∧
    ¬(s.monitor.timerEnabled ↔ s.reported.length < s.added.length) :=
  ⟨_, rfl, rfl, rfl, rfl, by decide, by decide⟩

end Session

end Tbox.Eventx.TimeoutMonitor
