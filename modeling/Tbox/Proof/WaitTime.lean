import Tbox.Proof.TimerHeap

/-!
# What becomes of the wait time

The front of the heap is the earliest timer in every run. `getWaitTime` goes through a narrower type in one engine and
through another unit in the other.
-/

open List Option

namespace Tbox.Event

open Cabinet (Token)
open Lib.BinaryHeap

variable {s : Timers} {w w' : TimerWorld} {t : TimerPtr} {now : Nat} {hasNextFunc : Bool}

structure Timers.Heaped (s : Timers) : Prop where
  heap : IsHeap s.expired s.timerMinHeap
  nodup : s.timerMinHeap.Nodup
  fresh : ∀ t ∈ s.timerMinHeap, t < s.timerAlloc
  wrapped : ∀ t, s.expired t < clockMod

theorem Timers.heaped_init : Heaped {} where
  heap := isHeap_nil
  nodup := nodup_nil
  fresh _ ht := absurd ht not_mem_nil
  wrapped _ := Nat.two_pow_pos 64

theorem Timers.Heaped.addTimer (h : s.Heaped) (now interval repeats : Nat) :
    (s.addTimer now interval repeats).2.Heaped := by
  have hout : s.timerAlloc ∉ s.timerMinHeap := fun hin => lt_irrefl _ (h.fresh _ hin)
  refine ⟨isHeap_pushHeap (isHeap_update h.heap hout _), ?_, fun t ht => ?_, fun t => ?_⟩
  · refine pushHeap_perm.nodup_iff.mpr ?_
    exact concat_eq_append ▸ h.nodup.concat hout
  · rcases (mem_addTimer s now interval repeats).mp ht with hin | rfl
    · exact (h.fresh t hin).trans (Nat.lt_succ_self _)
    · exact Nat.lt_succ_self _
  rw [expired, timer_addTimer]
  by_cases heq : t = s.timerAlloc
  · rw [heq, Function.update_self]
    exact Nat.mod_lt _ (by decide)
  · rw [Function.update_of_ne heq]
    exact h.wrapped t

theorem Timers.Heaped.of_popHeap (h : s.Heaped) {s' : Timers} {l : List TimerPtr}
    (hl : l.Perm s.timerMinHeap) (hheap : IsHeap s'.expired l)
    (heq : s'.timerMinHeap = (popHeap s'.expired l).dropLast) (halloc : s'.timerAlloc = s.timerAlloc)
    (hwrapped : ∀ t, s'.expired t < clockMod) : s'.Heaped := by
  rcases l with _ | ⟨top, rest⟩
  · have hnil : s'.timerMinHeap = [] := heq
    refine ⟨?_, ?_, fun t ht => ?_, hwrapped⟩
    · rw [hnil]
      exact isHeap_nil
    · rw [hnil]
      exact nodup_nil
    · rw [hnil] at ht
      cases ht
  · obtain ⟨rest', hpop, hheap', hperm⟩ := popHeap_spec hheap
    rw [hpop, dropLast_concat] at heq
    have hnodup := hl.nodup_iff.mpr h.nodup
    refine ⟨heq ▸ hheap', ?_, fun t ht => ?_, hwrapped⟩
    · rw [heq, hperm.nodup_iff]
      exact (nodup_cons.mp hnodup).2
    · rw [heq, hperm.mem_iff] at ht
      rw [halloc]
      exact h.fresh t (hl.mem_iff.mp (mem_cons_of_mem top ht))

theorem Timers.Heaped.deleteTimer (h : s.Heaped) (token : Token) : (s.deleteTimer token).Heaped := by
  rw [Timers.deleteTimer]
  split
  · exact { h with }
  next t cabinet _ =>
    refine h.of_popHeap makeHeap_perm isHeap_makeHeap rfl rfl fun u => ?_
    rw [expired]
    dsimp only
    by_cases heq : u = t
    · rw [heq, Function.update_self]
      exact Nat.two_pow_pos 64
    · rw [Function.update_of_ne heq]
      exact h.wrapped u

theorem Timers.Heaped.retire (h : s.Heaped) {rest : List TimerPtr}
    (hheap : s.timerMinHeap = t :: rest) : (s.retire t).Heaped := by
  rw [Timers.retire]
  split
  · exact h.of_popHeap (.refl _) h.heap rfl rfl h.wrapped
  obtain ⟨rest', hpop, hheap', hperm⟩ := popHeap_spec (hheap ▸ h.heap)
  have hnodup : (t :: rest').Nodup := (hperm.cons t).nodup_iff.mpr (hheap ▸ h.nodup)
  have hout := (nodup_cons.mp hnodup).1
  have hfront : (rest' ++ [t]).Perm (t :: rest') := perm_append_comm
  rw [hheap, hpop]
  refine ⟨isHeap_pushHeap (isHeap_update hheap' hout _), ?_, fun u hu => ?_, fun u => ?_⟩
  · rw [pushHeap_perm.nodup_iff, hfront.nodup_iff]
    exact hnodup
  · rw [pushHeap_perm.mem_iff, hfront.mem_iff, (hperm.cons t).mem_iff, ← hheap] at hu
    exact h.fresh u hu
  rw [expired]
  dsimp only
  by_cases heq : u = t
  · rw [heq, Function.update_self]
    exact Nat.mod_lt _ (by decide)
  · rw [Function.update_of_ne heq]
    exact h.wrapped u

theorem TimerWorld.heaped_round (h : w.timers.Heaped) (now : Nat) : (w.round now).timers.Heaped := by
  rw [round]
  split
  · exact h
  next t rest hheap =>
    split
    · exact h
    · exact h.retire hheap

/-- The timers stay a heap, whatever is added, deleted and expired. -/
theorem TimerWorld.heaped_step (w : TimerWorld) (input : TimerInput) (w' : TimerWorld)
    (h : w.timers.Heaped) (hstep : w.step input = some w') : w'.timers.Heaped := by
  cases input with
  | addTimer now interval repeats =>
    cases hstep
    exact h.addTimer now interval repeats
  | deleteTimer token =>
    cases hstep
    exact h.deleteTimer token
  | handleExpiredTimers now =>
    rw [step] at hstep
    split at hstep
    · cases hstep
      apply heaped_round
      exact h
    · cases hstep
  | returned =>
    obtain ⟨now, -, rfl⟩ := map_eq_some_iff.mp hstep
    exact heaped_round h now

theorem Timers.Heaped.minimum_eq (h : s.Heaped) {rest : List TimerPtr} (hheap : s.timerMinHeap = t :: rest) :
    (s.timerMinHeap.map s.expired).minimum = s.expired t := by
  apply le_antisymm
  · apply minimum_le_of_mem'
    rw [hheap]
    exact mem_cons_self
  refine le_minimum_of_forall_le fun e he => ?_
  obtain ⟨u, hu, rfl⟩ := List.mem_map.mp he
  have hfirst := h.heap
  rw [hheap] at hu hfirst
  exact WithTop.coe_le_coe.mpr (hfirst.head_le hu)

/-- The wait time is right unless it does not fit an `int64_t`. -/
theorem Timers.Heaped.getWaitTime_cases (h : s.Heaped) (hnow : now < 2 ^ 63) (hasNextFunc : Bool) :
    s.untilEarliest hasNextFunc now = ⊤ ∧ s.getWaitTime hasNextFunc now = -1 ∨
      ∃ d : Nat, s.untilEarliest hasNextFunc now = d ∧
        s.getWaitTime hasNextFunc now = if d < 2 ^ 63 then (d : Int) else 0 := by
  rw [untilEarliest, getWaitTime]
  by_cases hnext : hasNextFunc = true
  · rw [if_pos hnext, if_pos hnext]
    exact .inr ⟨0, rfl, rfl⟩
  rw [if_neg hnext, if_neg hnext]
  rcases hheap : s.timerMinHeap with _ | ⟨t, rest⟩
  · exact .inl ⟨rfl, rfl⟩
  refine .inr ⟨s.expired t - now, ?_, ?_⟩
  · rw [← hheap, h.minimum_eq hheap]
    rfl
  · have hwrapped := h.wrapped t
    simp only [clockMod, Int.bmod] at *
    split_ifs <;> omega

theorem epollDuration_eq_iff (d : Nat) :
    epollDuration (epollTimeout (if d < 2 ^ 63 then (d : Int) else 0)) = ((d * 1000 : Nat) : WithTop Nat) ↔
      d < 2 ^ 31 := by
  have hlow := Int.le_bmod (x := if d < 2 ^ 63 then (d : Int) else 0) (m := 2 ^ 32) (by decide)
  have hhigh := Int.bmod_lt (x := if d < 2 ^ 63 then (d : Int) else 0) (m := 2 ^ 32) (by decide)
  have hmod : (if d < 2 ^ 63 then (d : Int) else 0).bmod (2 ^ 32) % (2 ^ 32 : Nat) = _ := Int.bmod_emod
  rw [epollDuration, epollTimeout]
  generalize (if d < 2 ^ 63 then (d : Int) else 0).bmod (2 ^ 32) = timeout at *
  by_cases hneg : timeout < 0
  · rw [if_pos hneg]
    constructor
    · exact fun htop => absurd htop (WithTop.top_ne_natCast _)
    · intro hlt
      omega
  · rw [if_neg hneg, Nat.cast_inj]
    omega

theorem selectDuration_eq_iff (d : Nat) :
    selectDuration (selectTimeout (if d < 2 ^ 63 then (d : Int) else 0)) = ((d * 1000 : Nat) : WithTop Nat) ↔
      d % 1000 = 0 ∧ d < 2 ^ 63 := by
  have hne : (if d < 2 ^ 63 then (d : Int) else 0) ≠ -1 := by split_ifs <;> omega
  rw [selectTimeout, if_pos hne, selectDuration, Nat.cast_inj]
  dsimp only
  split_ifs with hlt
  · rw [Int.tdiv_eq_ediv_of_nonneg (Int.natCast_nonneg d), Int.tmod_eq_emod_of_nonneg (Int.natCast_nonneg d)]
    omega
  · simp
    omega

/-- Whatever timers there are, `epoll_wait` is told the right time if it is less than `2 ^ 31`
milliseconds, and `select` if it is a number of whole seconds. -/
theorem TimerWorld.waits_exactly {inputs : List TimerInput}
    (hrun : Lib.run TimerWorld.step {} inputs = some w) (hnow : now < 2 ^ 63) (hasNextFunc : Bool) :
    (epollDuration (epollTimeout (w.timers.getWaitTime hasNextFunc now)) =
        (w.timers.untilEarliest hasNextFunc now).map (· * 1000) ↔
      ∀ d : Nat, w.timers.untilEarliest hasNextFunc now = d → d < 2 ^ 31) ∧
    (selectDuration (selectTimeout (w.timers.getWaitTime hasNextFunc now)) =
        (w.timers.untilEarliest hasNextFunc now).map (· * 1000) ↔
      ∀ d : Nat, w.timers.untilEarliest hasNextFunc now = d → d % 1000 = 0 ∧ d < 2 ^ 63) := by
  have hheaped : w.timers.Heaped :=
    Lib.run_invariant_of_step (I := fun w => w.timers.Heaped) heaped_step Timers.heaped_init hrun
  rcases hheaped.getWaitTime_cases hnow hasNextFunc with ⟨htop, hwait⟩ | ⟨d, hd, hwait⟩
  · rw [htop, hwait]
    refine ⟨⟨fun _ d hd => ?_, fun _ => rfl⟩, ⟨fun _ d hd => ?_, fun _ => rfl⟩⟩
    · exact absurd hd (WithTop.top_ne_natCast d)
    · exact absurd hd (WithTop.top_ne_natCast d)
  · rw [hd, hwait]
    have hall : ∀ P : Nat → Prop, (∀ d' : Nat, (d : WithTop Nat) = d' → P d') ↔ P d := by
      intro P
      exact ⟨fun hP => hP d rfl, fun hP d' heq => Nat.cast_inj.mp heq ▸ hP⟩
    rw [hall (· < 2 ^ 31), hall (fun d => d % 1000 = 0 ∧ d < 2 ^ 63)]
    exact ⟨epollDuration_eq_iff d, selectDuration_eq_iff d⟩

/-- Before a timer of 1500 ms the half second is taken for half a millisecond, and one of `2 ^ 31` ms is
not waited for at all. -/
theorem TimerWorld.waits_wrongly :
    (∃ w, Lib.run TimerWorld.step {} [.addTimer 10 1500 1] = some w ∧ w.timers.untilEarliest false 10 = (1500 : Nat) ∧
      selectDuration (selectTimeout (w.timers.getWaitTime false 10)) = (1000500 : Nat)) ∧
    ∃ w, Lib.run TimerWorld.step {} [.addTimer 10 (2 ^ 31) 1] = some w ∧
      w.timers.untilEarliest false 10 = (2 ^ 31 : Nat) ∧
      epollDuration (epollTimeout (w.timers.getWaitTime false 10)) = ⊤ := by
  refine ⟨⟨_, rfl, ?_, ?_⟩, ⟨_, rfl, ?_, ?_⟩⟩ <;> decide +kernel

/-- Before a timer of two seconds both engines wait that long. -/
theorem TimerWorld.waits_two_seconds :
    ∃ w, Lib.run TimerWorld.step {} [.addTimer 10 2000 1] = some w ∧
      (w.timers.untilEarliest false 10).map (· * 1000) = (2000000 : Nat) ∧
      epollDuration (epollTimeout (w.timers.getWaitTime false 10)) =
        (w.timers.untilEarliest false 10).map (· * 1000) ∧
      selectDuration (selectTimeout (w.timers.getWaitTime false 10)) =
        (w.timers.untilEarliest false 10).map (· * 1000) := by
  obtain ⟨w, hrun⟩ : ∃ w, Lib.run TimerWorld.step {} [.addTimer 10 2000 1] = some w := ⟨_, rfl⟩
  have huntil : w.timers.untilEarliest false 10 = (2000 : Nat) := by
    cases hrun
    decide +kernel
  obtain ⟨hepoll, hselect⟩ := waits_exactly hrun (by decide : 10 < 2 ^ 63) false
  refine ⟨w, hrun, ?_, hepoll.mpr fun d hd => ?_, hselect.mpr fun d hd => ?_⟩
  · rw [huntil]
    rfl
  all_goals
    rw [huntil, Nat.cast_inj] at hd
    subst hd
    decide

end Tbox.Event
