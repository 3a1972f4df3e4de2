import Tbox.Proof.TimerService

/-!
# One pass over the timers

`handleExpiredTimers` puts a persistent timer back into the heap that it empties. It comes to an end where the next
expiry of each lies past the last, which those without an interval never get to.
-/

open List Option

namespace Tbox.Event

open Cabinet (Token)
open Lib.BinaryHeap
open Function (update_self update_of_ne)

variable {w w' : TimerWorld} {s s' : Timers} {t u : TimerPtr} {token : Token} {timer : Timer}
  {now interval repeats fuel : Nat} {rest : List TimerPtr} {log during : List TimerEvent}
  {cb : List TimerEvent → List Token}

namespace Timer

/-- The expiries up to `now`, for each of which a timer is to be run. -/
def due (now : Nat) (timer : Timer) : List Nat :=
  if now < timer.expired then []
  else if timer.repeats = 1 then [timer.expired]
  else (List.range ((now - timer.expired) / timer.interval + 1)).map fun k => timer.expired + k * timer.interval

/-- If the timer has expired and is persistent, its interval is positive and the first expiry after `now` is a number
of the clock. -/
def Passes (now : Nat) (timer : Timer) : Prop :=
  timer.expired ≤ now → timer.repeats ≠ 1 → 0 < timer.interval ∧
    timer.expired + ((now - timer.expired) / timer.interval + 1) * timer.interval < clockMod

instance (now : Nat) (timer : Timer) : Decidable (timer.Passes now) :=
  inferInstanceAs (Decidable (_ → _ → _ ∧ _))

def again (timer : Timer) : Timer :=
  { timer with expired := timer.expired + timer.interval, repeats := timer.repeats - 1 }

theorem due_of_lt (h : now < timer.expired) : timer.due now = [] := if_pos h

theorem due_of_last (h : timer.expired ≤ now) (hlast : timer.repeats = 1) : timer.due now = [timer.expired] := by
  rw [due, if_neg (Nat.not_lt.mpr h), if_pos hlast]

theorem due_of_persistent (h : timer.expired ≤ now) (hagain : timer.repeats ≠ 1) : timer.due now =
      (List.range ((now - timer.expired) / timer.interval + 1)).map fun k => timer.expired + k * timer.interval := by
  rw [due, if_neg (Nat.not_lt.mpr h), if_neg hagain]

theorem elapsed_succ {expired : Nat} (h : expired + interval ≤ now) (hpos : 0 < interval) :
    (now - expired) / interval = (now - (expired + interval)) / interval + 1 := by
  have hsub : now - expired = now - (expired + interval) + interval := by omega
  rw [hsub, Nat.add_div_right _ hpos]

theorem due_again (h : timer.expired ≤ now) (hrepeats : timer.repeats = 0) (hpos : 0 < timer.interval) :
    timer.due now = timer.expired :: timer.again.due now := by
  have hagain : timer.repeats ≠ 1 := by omega
  have hagain' : timer.again.repeats ≠ 1 := by
    rw [again, hrepeats]
    exact Nat.zero_ne_one
  rw [due_of_persistent h hagain, range_succ_eq_map, map_cons, Nat.zero_mul, Nat.add_zero]
  congr 1
  by_cases hlate : timer.expired + timer.interval ≤ now
  · have hlate' : timer.again.expired ≤ now := hlate
    rw [due_of_persistent hlate' hagain', elapsed_succ hlate hpos, List.map_map]
    apply map_congr_left
    intro k _
    change timer.expired + (k + 1) * timer.interval = timer.expired + timer.interval + k * timer.interval
    rw [Nat.succ_mul, Nat.add_comm (k * timer.interval), Nat.add_assoc]
  · have hnone : (now - timer.expired) / timer.interval = 0 := Nat.div_eq_of_lt (by omega)
    have hnext : now < timer.again.expired := Nat.lt_of_not_le hlate
    rw [hnone, due_of_lt hnext]
    rfl

theorem Passes.lt (h : timer.Passes now) (hdue : timer.expired ≤ now) (hagain : timer.repeats ≠ 1) :
    timer.expired + timer.interval < clockMod := by
  obtain ⟨-, hlt⟩ := h hdue hagain
  refine Nat.lt_of_le_of_lt (Nat.add_le_add_left ?_ _) hlt
  exact Nat.le_mul_of_pos_left _ (Nat.succ_pos _)

theorem Passes.again (h : timer.Passes now) (hdue : timer.expired ≤ now) (hagain : timer.repeats ≠ 1) :
    timer.again.Passes now := by
  obtain ⟨hpos, hlt⟩ := h hdue hagain
  intro hdue' _
  refine ⟨hpos, ?_⟩
  change timer.expired + timer.interval +
    ((now - (timer.expired + timer.interval)) / timer.interval + 1) * timer.interval < clockMod
  rw [elapsed_succ hdue' hpos, Nat.succ_mul, Nat.add_comm (_ * timer.interval), ← Nat.add_assoc] at hlt
  exact hlt

end Timer

namespace TimerWorld

def retired (w : TimerWorld) (now : Nat) (t : TimerPtr) : TimerWorld :=
  { w with
    timers := w.timers.retire t
    handling := some now
    log := w.log ++ [.run t (w.timers.expired t)] }

def turn (w : TimerWorld) (cb : List TimerEvent → List Token) (now : Nat) (t : TimerPtr) : TimerWorld :=
  (w.retired now t).deleteTimers (cb (w.retired now t).log)

def ended (w : TimerWorld) (now : Nat) : TimerWorld :=
  { w with handling := none, log := w.log ++ [.ended now] }

theorem round_of_due (hheap : w.timers.timerMinHeap = t :: rest) (hdue : w.timers.expired t ≤ now) :
    w.round now = w.retired now t := by
  rw [round, hheap]
  exact if_neg (Nat.not_lt.mpr hdue)

theorem round_cases (w : TimerWorld) (now : Nat) :
    (∃ t rest, w.timers.timerMinHeap = t :: rest ∧ w.timers.expired t ≤ now) ∨
      (∀ t rest, w.timers.timerMinHeap = t :: rest → now < w.timers.expired t) ∧ w.round now = w.ended now := by
  rcases hheap : w.timers.timerMinHeap with _ | ⟨t, rest⟩
  · refine .inr ⟨nofun, ?_⟩
    rw [round, hheap]
    rfl
  by_cases hdue : now < w.timers.expired t
  · refine .inr ⟨fun u rest' heq => (List.cons.inj heq).1 ▸ hdue, ?_⟩
    rw [round, hheap]
    exact if_pos hdue
  · exact .inl ⟨t, rest, rfl, Nat.le_of_not_lt hdue⟩

theorem rounds_of_due (hheap : w.timers.timerMinHeap = t :: rest) (hdue : w.timers.expired t ≤ now) :
    rounds cb now (fuel + 1) w = rounds cb now fuel (w.turn cb now t) := by
  rw [rounds, round_of_due hheap hdue]
  rfl

theorem rounds_of_ended (hround : w.round now = w.ended now) : rounds cb now (fuel + 1) w = some (w.ended now) := by
  rw [rounds, hround]
  rfl

theorem rounds_spec {I : TimerWorld → Prop}
    (hturn : ∀ w t rest, I w → w.timers.timerMinHeap = t :: rest → w.timers.expired t ≤ now → I (w.turn cb now t))
    (hinit : I w) (hrun : rounds cb now fuel w = some w') :
    ∃ v, I v ∧ (∀ t rest, v.timers.timerMinHeap = t :: rest → now < v.timers.expired t) ∧ w' = v.ended now := by
  induction fuel generalizing w with
  | zero => cases hrun
  | succ fuel ih =>
    obtain ⟨t, rest, hheap, hdue⟩ | ⟨hlate, hround⟩ := round_cases w now
    · rw [rounds_of_due hheap hdue] at hrun
      exact ih (hturn w t rest hinit hheap hdue) hrun
    · rw [rounds_of_ended hround] at hrun
      exact ⟨w, hinit, hlate, (some.inj hrun).symm⟩

theorem rounds_isSome {I : TimerWorld → Prop} {left : TimerWorld → Nat}
    (hturn : ∀ w t rest, I w → w.timers.timerMinHeap = t :: rest → w.timers.expired t ≤ now → I (w.turn cb now t))
    (hleft : ∀ w t rest, I w → w.timers.timerMinHeap = t :: rest → w.timers.expired t ≤ now →
      left (w.turn cb now t) < left w)
    (hinit : I w) (hfuel : left w < fuel) : ∃ w', rounds cb now fuel w = some w' := by
  induction fuel generalizing w with
  | zero => exact absurd hfuel (Nat.not_lt_zero _)
  | succ fuel ih =>
    obtain ⟨t, rest, hheap, hdue⟩ | ⟨-, hround⟩ := round_cases w now
    · rw [rounds_of_due hheap hdue]
      refine ih (hturn w t rest hinit hheap hdue) ?_
      exact (hleft w t rest hinit hheap hdue).trans_le (Nat.le_of_lt_succ hfuel)
    · exact ⟨_, rounds_of_ended hround⟩

end TimerWorld

def Timers.dueOf (s : Timers) (now : Nat) (t : TimerPtr) : List Nat :=
  if t ∈ s.timerMinHeap then (s.timer t).due now else []

/-- What holds of a pass over the timers `s` as far as `during`. -/
structure Serving (s : Timers) (now : Nat) (log : List TimerEvent) (w : TimerWorld) (during : List TimerEvent) :
    Prop where
  log : w.log = log ++ .began now :: during
  sound : w.timers.Sound
  passes : ∀ t ∈ w.timers.timerMinHeap, (w.timers.timer t).repeats ≤ 1 ∧ (w.timers.timer t).Passes now
  known : ∀ t ∈ w.timers.timerMinHeap, t ∈ s.timerMinHeap ∧ (w.timers.timer t).token = (s.timer t).token
  served : ∀ t ∈ s.timerMinHeap, runsOf t during ++ w.timers.dueOf now t = (s.timer t).due now ∨
    runsOf t during <+: (s.timer t).due now ∧ t ∉ w.timers.timerMinHeap ∧ .deleted (s.timer t).token ∈ during
  others : ∀ t, t ∉ s.timerMinHeap → runsOf t during = []

/-- How often callbacks of the timers `s` are still to be run. -/
def TimerWorld.left (s : Timers) (now : Nat) (w : TimerWorld) : Nat :=
  (s.timerMinHeap.map fun t => (w.timers.dueOf now t).length).sum

namespace Timers

theorem dueOf_of_mem (h : t ∈ s.timerMinHeap) : s.dueOf now t = (s.timer t).due now := if_pos h

theorem dueOf_of_not_mem (h : t ∉ s.timerMinHeap) : s.dueOf now t = [] := if_neg h

theorem dueOf_congr (hmem : t ∈ s'.timerMinHeap ↔ t ∈ s.timerMinHeap) (htimer : s'.timer t = s.timer t) :
    s'.dueOf now t = s.dueOf now t := by
  rw [dueOf, dueOf, htimer]
  exact if_congr hmem rfl rfl

theorem Sound.retire_cases (h : s.Sound) (hheap : s.timerMinHeap = t :: rest) (hdue : s.expired t ≤ now)
    (hrepeats : (s.timer t).repeats ≤ 1) (hpasses : (s.timer t).Passes now) :
    (s.retire t).Sound ∧ (∀ u, u ≠ t → (s.retire t).timer u = s.timer u ∧
      (u ∈ (s.retire t).timerMinHeap ↔ u ∈ s.timerMinHeap)) ∧
      s.dueOf now t = s.expired t :: (s.retire t).dueOf now t ∧
      ((t :: (s.retire t).timerMinHeap).Perm s.timerMinHeap ∧ (s.retire t).timer t = s.timer t ∨
        (s.retire t).timerMinHeap.Perm s.timerMinHeap ∧ (s.timer t).repeats = 0 ∧
          (s.retire t).timer t = (s.timer t).again) := by
  have hin : t ∈ s.timerMinHeap := hheap ▸ mem_cons_self
  by_cases hlast : (s.timer t).repeats = 1
  · obtain ⟨hsound, hperm, htimer, -⟩ := retire_last h hheap hlast
    have hout : t ∉ (s.retire t).timerMinHeap := (nodup_cons.mp (hperm.nodup_iff.mpr h.nodup)).1
    refine ⟨hsound, fun u hne => ⟨congrFun htimer u, ?_⟩, ?_, .inl ⟨hperm, congrFun htimer t⟩⟩
    · rw [← hperm.mem_iff, mem_cons, or_iff_right hne]
    · rw [dueOf_of_mem hin, dueOf_of_not_mem hout, Timer.due_of_last hdue hlast, expired]
  · obtain ⟨hsound, hperm, htimer, -⟩ := retire_again h hheap hlast (hpasses.lt hdue hlast)
    have hzero : (s.timer t).repeats = 0 := by omega
    have hself : (s.retire t).timer t = (s.timer t).again := by
      rw [htimer, update_self]
      rfl
    refine ⟨hsound, fun u hne => ⟨?_, hperm.mem_iff⟩, ?_, .inr ⟨hperm, hzero, hself⟩⟩
    · rw [htimer, update_of_ne hne]
    · rw [dueOf_of_mem hin, dueOf_of_mem (hperm.mem_iff.mpr hin), hself,
        Timer.due_again hdue hzero (hpasses hdue hlast).1, expired]

theorem Sound.deleteTimer_cases (h : s.Sound) (token : Token) : (s.deleteTimer token).Sound ∧
      (((s.deleteTimer token).timerMinHeap = s.timerMinHeap ∧ (s.deleteTimer token).timer = s.timer) ∨
        ∃ t ∈ s.timerMinHeap, (s.timer t).token = token ∧
          (t :: (s.deleteTimer token).timerMinHeap).Perm s.timerMinHeap ∧
          ∀ u, u ≠ t → (s.deleteTimer token).timer u = s.timer u) := by
  refine ⟨(h.deleteTimer token).1, ?_⟩
  rcases hview : s.timerCabinet.view token with _ | obj
  · obtain ⟨heq, -⟩ := deleteTimer_of_stale hview
    rw [heq]
    exact .inl ⟨rfl, rfl⟩
  rcases obj with _ | t
  · exact absurd hview (h.stored token)
  · obtain ⟨hin, htoken⟩ := (h.live token t).mp hview
    obtain ⟨-, hperm, htimer, -⟩ := deleteTimer_of_live h hin htoken
    exact .inr ⟨t, hin, htoken, hperm, htimer⟩

end Timers

theorem Serving.retired (h : Serving s now log w during) (hheap : w.timers.timerMinHeap = t :: rest)
    (hdue : w.timers.expired t ≤ now) :
    Serving s now log (w.retired now t) (during ++ [.run t (w.timers.expired t)]) ∧
      (w.retired now t).left s now < w.left s now := by
  have hin : t ∈ w.timers.timerMinHeap := hheap ▸ mem_cons_self
  obtain ⟨hrepeats, hpasses⟩ := h.passes t hin
  obtain ⟨hsound, hothers, hserved, hcases⟩ := h.sound.retire_cases hheap hdue hrepeats hpasses
  have hmem : ∀ u ∈ (w.timers.retire t).timerMinHeap, u ∈ w.timers.timerMinHeap := by
    intro u hu
    obtain ⟨hperm, -⟩ | ⟨hperm, -⟩ := hcases
    · exact hperm.mem_iff.mp (mem_cons_of_mem t hu)
    · exact hperm.mem_iff.mp hu
  have hquiet : ∀ u, u ≠ t → runsOf u (during ++ [.run t (w.timers.expired t)]) = runsOf u during :=
    fun u hne => runsOf_append_of_runOf_eq_none (if_neg hne.symm)
  refine ⟨⟨?_, hsound, fun u hu => ?_, fun u hu => ?_, fun u hu => ?_, fun u hu => ?_⟩, ?_⟩
  · change w.log ++ _ = _
    rw [h.log, append_assoc, cons_append]
  · by_cases hut : u = t
    · subst hut
      obtain ⟨hperm, -⟩ | ⟨-, hzero, htimer⟩ := hcases
      · exact absurd hu (nodup_cons.mp (hperm.nodup_iff.mpr h.sound.nodup)).1
      change ((w.timers.retire u).timer u).repeats ≤ 1 ∧ ((w.timers.retire u).timer u).Passes now
      rw [htimer]
      refine ⟨(Nat.sub_le _ _).trans hrepeats, hpasses.again hdue ?_⟩
      rw [hzero]
      exact Nat.zero_ne_one
    · change ((w.timers.retire t).timer u).repeats ≤ 1 ∧ ((w.timers.retire t).timer u).Passes now
      rw [(hothers u hut).1]
      exact h.passes u (hmem u hu)
  · obtain ⟨hknown, htoken⟩ := h.known u (hmem u hu)
    refine ⟨hknown, Eq.trans ?_ htoken⟩
    change ((w.timers.retire t).timer u).token = _
    by_cases hut : u = t
    · subst hut
      obtain ⟨-, htimer⟩ | ⟨-, -, htimer⟩ := hcases
      · rw [htimer]
      · rw [htimer, Timer.again]
    · rw [(hothers u hut).1]
  · change runsOf u _ ++ (w.timers.retire t).dueOf now u = _ ∨
      runsOf u _ <+: _ ∧ u ∉ (w.timers.retire t).timerMinHeap ∧ _
    by_cases hut : u = t
    · subst hut
      obtain hold | ⟨-, hout, -⟩ := h.served u hu
      · rw [hserved] at hold
        rw [runsOf_append_run, append_assoc, singleton_append]
        exact .inl hold
      · exact absurd hin hout
    · rw [hquiet u hut, Timers.dueOf_congr (hothers u hut).2 (hothers u hut).1]
      refine (h.served u hu).imp_right fun ⟨hruns, hout, hdel⟩ => ?_
      exact ⟨hruns, fun hin' => hout (hmem u hin'), mem_append_left _ hdel⟩
  · have hut : u ≠ t := fun heq => hu (heq ▸ (h.known t hin).1)
    rw [hquiet u hut]
    exact h.others u hu
  apply sum_lt_sum
  · intro u hu
    change ((w.timers.retire t).dueOf now u).length ≤ (w.timers.dueOf now u).length
    by_cases hut : u = t
    · rw [hut, hserved]
      exact Nat.le_succ _
    · rw [Timers.dueOf_congr (hothers u hut).2 (hothers u hut).1]
  · refine ⟨t, (h.known t hin).1, ?_⟩
    change ((w.timers.retire t).dueOf now t).length < (w.timers.dueOf now t).length
    rw [hserved]
    exact Nat.lt_succ_self _

theorem Serving.deleteTimer (h : Serving s now log w during) (token : Token) :
    Serving s now log { w with timers := w.timers.deleteTimer token, log := w.log ++ [.deleted token] }
        (during ++ [.deleted token]) ∧
      TimerWorld.left s now { w with timers := w.timers.deleteTimer token, log := w.log ++ [.deleted token] } ≤
        w.left s now := by
  obtain ⟨hsound, hcases⟩ := h.sound.deleteTimer_cases token
  have hkept : ∀ u ∈ (w.timers.deleteTimer token).timerMinHeap,
      u ∈ w.timers.timerMinHeap ∧ (w.timers.deleteTimer token).timer u = w.timers.timer u :=
    (h.sound.deleteTimer token).2
  have hquiet : ∀ u, runsOf u (during ++ [.deleted token]) = runsOf u during :=
    fun u => runsOf_append_of_runOf_eq_none rfl
  -- a timer that is still live, or was not before, has as much due as before
  have hsame : ∀ u, (u ∈ w.timers.timerMinHeap → u ∈ (w.timers.deleteTimer token).timerMinHeap) →
      (w.timers.deleteTimer token).dueOf now u = w.timers.dueOf now u := by
    intro u hu
    by_cases hin : u ∈ w.timers.timerMinHeap
    · rw [Timers.dueOf_of_mem hin, Timers.dueOf_of_mem (hu hin), (hkept u (hu hin)).2]
    · rw [Timers.dueOf_of_not_mem hin, Timers.dueOf_of_not_mem fun hin' => hin (hkept u hin').1]
  refine ⟨⟨?_, hsound, fun u hu => ?_, fun u hu => ?_, fun u hu => ?_, fun u hu => ?_⟩, ?_⟩
  · change w.log ++ _ = _
    rw [h.log, append_assoc, cons_append]
  · obtain ⟨hin, htimer⟩ := hkept u hu
    change ((w.timers.deleteTimer token).timer u).repeats ≤ 1 ∧ ((w.timers.deleteTimer token).timer u).Passes now
    rw [htimer]
    exact h.passes u hin
  · obtain ⟨hin, htimer⟩ := hkept u hu
    obtain ⟨hknown, htoken⟩ := h.known u hin
    exact ⟨hknown, (congrArg Timer.token htimer).trans htoken⟩
  · change runsOf u _ ++ (w.timers.deleteTimer token).dueOf now u = _ ∨
      runsOf u _ <+: _ ∧ u ∉ (w.timers.deleteTimer token).timerMinHeap ∧ _
    rw [hquiet u]
    obtain hold | ⟨hruns, hout, hdel⟩ := h.served u hu
    · by_cases hu' : u ∈ w.timers.timerMinHeap → u ∈ (w.timers.deleteTimer token).timerMinHeap
      · rw [hsame u hu']
        exact .inl hold
      obtain ⟨hin, hout⟩ := Classical.not_imp.mp hu'
      refine .inr ⟨⟨_, hold⟩, hout, mem_append_right _ ?_⟩
      obtain ⟨hheap, -⟩ | ⟨t, -, htoken, hperm, -⟩ := hcases
      · rw [hheap] at hout
        exact absurd hin hout
      obtain rfl | hrest := mem_cons.mp (hperm.mem_iff.mpr hin)
      · rw [← htoken, (h.known u hin).2]
        exact mem_cons_self
      · exact absurd hrest hout
    · exact .inr ⟨hruns, fun hin => hout (hkept u hin).1, mem_append_left _ hdel⟩
  · rw [hquiet u]
    exact h.others u hu
  apply sum_le_sum
  intro u _
  change ((w.timers.deleteTimer token).dueOf now u).length ≤ (w.timers.dueOf now u).length
  by_cases hu : u ∈ w.timers.timerMinHeap → u ∈ (w.timers.deleteTimer token).timerMinHeap
  · rw [hsame u hu]
  · rw [Timers.dueOf_of_not_mem (Classical.not_imp.mp hu).2]
    exact Nat.zero_le _

theorem Serving.deleteTimers (h : Serving s now log w during) (tokens : List Token) :
    ∃ during', Serving s now log (w.deleteTimers tokens) during' ∧
      (w.deleteTimers tokens).left s now ≤ w.left s now := by
  induction tokens generalizing w during with
  | nil => exact ⟨during, h, le_rfl⟩
  | cons token tokens ih =>
    obtain ⟨hfirst, hle⟩ := h.deleteTimer token
    obtain ⟨during', hserving, hle'⟩ := ih hfirst
    exact ⟨during', hserving, hle'.trans hle⟩

theorem Serving.turn (h : Serving s now log w during) (hheap : w.timers.timerMinHeap = t :: rest)
    (hdue : w.timers.expired t ≤ now) :
    (∃ during', Serving s now log (w.turn cb now t) during') ∧ (w.turn cb now t).left s now < w.left s now := by
  obtain ⟨hretired, hlt⟩ := h.retired hheap hdue
  obtain ⟨during', hserving, hle⟩ := hretired.deleteTimers (cb (w.retired now t).log)
  exact ⟨⟨during', hserving⟩, hle.trans_lt hlt⟩

theorem late_of_front {key : TimerPtr → Nat} {l : List TimerPtr} (h : IsHeap key l)
    (hlate : ∀ t rest, l = t :: rest → now < key t) : ∀ t ∈ l, now < key t := by
  intro t ht
  cases l with
  | nil => cases ht
  | cons u rest => exact (hlate u rest rfl).trans_le (h.head_le ht)

namespace TimerWorld

/-- What a pass is to do for a timer, of which it has run `runs` and then ended. -/
def Served (now : Nat) (timer : Timer) (runs : List Nat) (during : List TimerEvent) : Prop :=
  runs <+: timer.due now ∧ (.deleted timer.token ∉ during → runs = timer.due now)

/-- Whatever the callbacks delete, the pass ends, and each timer was run for what was due, unless it was deleted. -/
def EndsPass (w : TimerWorld) (now : Nat) : Prop :=
  ∀ cb, ∃ fuel w' during, w.handleExpiredTimers cb now fuel = some w' ∧ w'.log = w.log ++ .began now :: during ∧
    (∀ t ∈ w.timers.timerMinHeap, Served now (w.timers.timer t) (runsOf t during) during) ∧
    ∀ t, t ∉ w.timers.timerMinHeap → runsOf t during = []

theorem serving_began (h : w.timers.Sound)
    (hpasses : ∀ t ∈ w.timers.timerMinHeap, (w.timers.timer t).repeats ≤ 1 ∧ (w.timers.timer t).Passes now) :
    Serving w.timers now w.log { w with clock := now, log := w.log ++ [.began now] } [] where
  log := rfl
  sound := h
  passes := hpasses
  known _ ht := ⟨ht, rfl⟩
  served _ ht := .inl (Timers.dueOf_of_mem ht)
  others _ _ := rfl

/-- **A pass ends** if every timer passes. -/
theorem endsPass_of_passes (h : w.timers.Sound)
    (hpasses : ∀ t ∈ w.timers.timerMinHeap, (w.timers.timer t).repeats ≤ 1 ∧ (w.timers.timer t).Passes now) :
    w.EndsPass now := by
  intro cb
  have hinit := serving_began h hpasses
  have hturn : ∀ v t rest, (∃ during, Serving w.timers now w.log v during) → v.timers.timerMinHeap = t :: rest →
      v.timers.expired t ≤ now → ∃ during, Serving w.timers now w.log (v.turn cb now t) during := by
    intro v t rest hv hheap hdue
    obtain ⟨during, hserving⟩ := hv
    exact (hserving.turn hheap hdue).1
  have hleft : ∀ v t rest, (∃ during, Serving w.timers now w.log v during) → v.timers.timerMinHeap = t :: rest →
      v.timers.expired t ≤ now → (v.turn cb now t).left w.timers now < v.left w.timers now := by
    intro v t rest hv hheap hdue
    obtain ⟨during, hserving⟩ := hv
    exact (hserving.turn hheap hdue).2
  obtain ⟨w', hrun⟩ := rounds_isSome hturn hleft ⟨[], hinit⟩ (Nat.lt_succ_self _)
  obtain ⟨v, ⟨during, hserving⟩, hlate, rfl⟩ := rounds_spec hturn ⟨[], hinit⟩ hrun
  have hall := late_of_front hserving.sound.heap hlate
  have hquiet : ∀ t, runsOf t (during ++ [.ended now]) = runsOf t during :=
    fun t => runsOf_append_of_runOf_eq_none rfl
  refine ⟨_, _, during ++ [.ended now], hrun, ?_, fun t ht => ?_, fun t ht => ?_⟩
  · change v.log ++ _ = _
    rw [hserving.log, append_assoc, cons_append]
  · have hnone : v.timers.dueOf now t = [] := by
      by_cases hin : t ∈ v.timers.timerMinHeap
      · rw [Timers.dueOf_of_mem hin]
        exact Timer.due_of_lt (hall t hin)
      · exact Timers.dueOf_of_not_mem hin
    rw [Served, hquiet]
    obtain hserved | ⟨hruns, -, hdel⟩ := hserving.served t ht
    · rw [hnone, append_nil] at hserved
      rw [hserved]
      exact ⟨prefix_rfl, fun _ => rfl⟩
    · exact ⟨hruns, fun hnot => absurd (mem_append_left _ hdel) hnot⟩
  · rw [hquiet]
    exact hserving.others t ht

/-- What holds of a timer of the heap that is persistent, as far as `during`. -/
structure Turning (timer : Timer) (t : TimerPtr) (log : List TimerEvent) (now : Nat) (w : TimerWorld)
    (during : List TimerEvent) : Prop where
  log : w.log = log ++ .began now :: during
  heap : IsHeap w.timers.expired w.timers.timerMinHeap
  nodup : w.timers.timerMinHeap.Nodup
  mem : t ∈ w.timers.timerMinHeap
  timer : w.timers.timer t =
    { timer with expired := (timer.expired + (runsOf t during).length * timer.interval) % clockMod }
  undeleted : ∀ token, .deleted token ∉ during

theorem Turning.retired (h : Turning timer u log now w during) (hrepeats : timer.repeats = 0)
    (hheap : w.timers.timerMinHeap = t :: rest) :
    Turning timer u log now (w.retired now t) (during ++ [.run t (w.timers.expired t)]) := by
  have hlog : (w.retired now t).log = log ++ .began now :: (during ++ [.run t (w.timers.expired t)]) := by
    change w.log ++ _ = _
    rw [h.log, append_assoc, cons_append]
  have hquiet : u ≠ t → runsOf u (during ++ [.run t (w.timers.expired t)]) = runsOf u during :=
    fun hne => runsOf_append_of_runOf_eq_none (if_neg hne.symm)
  have hundeleted : ∀ token, .deleted token ∉ during ++ [.run t (w.timers.expired t)] := by
    intro token hin
    obtain hin | hin := mem_append.mp hin
    · exact h.undeleted token hin
    · exact nomatch mem_singleton.mp hin
  by_cases hlast : (w.timers.timer t).repeats = 1
  · obtain ⟨hord, hperm, htimer⟩ := Timers.isHeap_retire_last h.heap hheap hlast
    have hne : u ≠ t := by
      rintro rfl
      rw [h.timer] at hlast
      exact absurd (hrepeats.symm.trans hlast) Nat.zero_ne_one
    refine ⟨hlog, hord, (nodup_cons.mp (hperm.nodup_iff.mpr h.nodup)).2, ?_, ?_, hundeleted⟩
    · exact (mem_cons.mp (hperm.mem_iff.mpr h.mem)).resolve_left hne
    · rw [hquiet hne]
      exact (congrFun htimer u).trans h.timer
  · obtain ⟨hord, hperm, htimer, -⟩ := Timers.isHeap_retire_again h.heap h.nodup hheap hlast
    refine ⟨hlog, hord, hperm.nodup_iff.mpr h.nodup, hperm.mem_iff.mpr h.mem, ?_, hundeleted⟩
    change (w.timers.retire t).timer u = _
    rw [htimer]
    by_cases hut : u = t
    · subst hut
      rw [update_self, runsOf_append_run, length_append, Timers.expired, h.timer]
      rw [Nat.mod_add_mod, hrepeats, length_singleton, Nat.succ_mul, Nat.add_assoc]
    · rw [update_of_ne hut, hquiet hut]
      exact h.timer

theorem lt_expired_of_pass (h : w.timers.Sound) (ht : t ∈ w.timers.timerMinHeap)
    (hrepeats : (w.timers.timer t).repeats = 0) (hsmall : w.timers.expired t < clockMod)
    (hrun : w.handleExpiredTimers (fun _ => []) now fuel = some w') :
    ∃ during, w'.log = w.log ++ .began now :: during ∧ (∀ token, .deleted token ∉ during) ∧
      now < (w.timers.expired t + (runsOf t during).length * (w.timers.timer t).interval) % clockMod := by
  have hsame : w.timers.timer t = { w.timers.timer t with
      expired := (w.timers.expired t + (runsOf t []).length * (w.timers.timer t).interval) % clockMod } := by
    rw [runsOf, filterMap_nil, length_nil, Nat.zero_mul, Nat.add_zero, Nat.mod_eq_of_lt hsmall, Timers.expired]
  have hinit : Turning (w.timers.timer t) t w.log now { w with clock := now, log := w.log ++ [.began now] } [] :=
    ⟨rfl, h.heap, h.nodup, ht, hsame, (by simp)⟩
  have hturn : ∀ v u rest, (∃ during, Turning (w.timers.timer t) t w.log now v during) →
      v.timers.timerMinHeap = u :: rest → v.timers.expired u ≤ now →
      ∃ during, Turning (w.timers.timer t) t w.log now (v.turn (fun _ => []) now u) during := by
    intro v u rest hv hheap _
    obtain ⟨during, hturning⟩ := hv
    have hnext : Turning (w.timers.timer t) t w.log now (v.turn (fun _ => []) now u)
      (during ++ [.run u (v.timers.expired u)]) := hturning.retired hrepeats hheap
    exact ⟨_, hnext⟩
  obtain ⟨v, ⟨during, hturning⟩, hlate, rfl⟩ := rounds_spec hturn ⟨[], hinit⟩ hrun
  refine ⟨during ++ [.ended now], ?_, fun token hin => ?_, ?_⟩
  · change v.log ++ _ = _
    rw [hturning.log, append_assoc, cons_append]
  · obtain hin | hin := mem_append.mp hin
    · exact hturning.undeleted token hin
    · cases mem_singleton.mp hin
  have hlt := late_of_front hturning.heap hlate t hturning.mem
  rw [Timers.expired, hturning.timer] at hlt
  rw [runsOf_append_of_runOf_eq_none rfl]
  exact hlt

theorem handleExpiredTimers_eq_none (h : w.timers.Sound) (ht : t ∈ w.timers.timerMinHeap)
    (hrepeats : (w.timers.timer t).repeats = 0) (hinterval : (w.timers.timer t).interval = 0)
    (hdue : w.timers.expired t ≤ now) (hnow : now < clockMod) (fuel : Nat) :
    w.handleExpiredTimers (fun _ => []) now fuel = none := by
  by_contra hends
  obtain ⟨w', hrun⟩ := ne_none_iff_exists'.mp hends
  obtain ⟨during, -, -, hlt⟩ := lt_expired_of_pass h ht hrepeats (hdue.trans_lt hnow) hrun
  rw [hinterval, Nat.mul_zero, Nat.add_zero, Nat.mod_eq_of_lt (hdue.trans_lt hnow)] at hlt
  exact absurd hlt (Nat.not_lt.mpr hdue)

theorem passes_of_endsPass (h : w.timers.Sound) (hends : w.EndsPass now) (hnow : now < clockMod)
    (ht : t ∈ w.timers.timerMinHeap) (hinterval : (w.timers.timer t).interval < clockMod)
    (hrepeats : (w.timers.timer t).repeats ≤ 1) : (w.timers.timer t).Passes now := by
  intro hdue hagain
  have hzero : (w.timers.timer t).repeats = 0 := by omega
  obtain ⟨fuel, w', during, hrun, hlog, hserved, -⟩ := hends fun _ => []
  obtain ⟨during', hlog', hundeleted, hlt⟩ := lt_expired_of_pass h ht hzero (hdue.trans_lt hnow) hrun
  obtain rfl : during' = during := (List.cons.inj (append_cancel_left (hlog'.symm.trans hlog))).2
  have hruns := (hserved t ht).2 (hundeleted _)
  rw [hruns, Timer.due_of_persistent hdue hagain, length_map, length_range, Timers.expired] at hlt
  set expired := (w.timers.timer t).expired
  set interval := (w.timers.timer t).interval
  -- the last of the intervals that begin by `now` ends by `now + interval`
  have helapsed : (now - expired) / interval * interval ≤ now - expired := Nat.div_mul_le_self _ _
  rw [Nat.succ_mul, ← Nat.add_assoc] at hlt ⊢
  constructor
  · by_contra hnone
    have hnone : interval = 0 := by omega
    rw [hnone, Nat.mul_zero, Nat.add_zero, Nat.mod_eq_of_lt (hdue.trans_lt hnow)] at hlt
    exact absurd hlt (Nat.not_lt.mpr hdue)
  · by_contra hover
    have hle : expired + (now - expired) / interval * interval + interval - clockMod < now := by omega
    have hlow := Nat.mod_eq_sub_mod (Nat.le_of_not_lt hover)
    rw [hlow] at hlt
    exact absurd ((Nat.mod_le _ _).trans_lt hle) (Nat.lt_asymm hlt)

def Accepted : TimerInput → Prop
  | .addTimer _ interval repeats => interval < clockMod ∧ repeats ≤ 1
  | _ => True

instance : ∀ input, Decidable (Accepted input)
  | .addTimer _ _ _ => inferInstanceAs (Decidable (_ ∧ _))
  | .deleteTimer _ | .handleExpiredTimers _ | .returned => inferInstanceAs (Decidable True)

def Nonzero (w : TimerWorld) : Prop := ∀ t ∈ w.timers.timerMinHeap, 0 < w.timers.expired t

instance (w : TimerWorld) : Decidable w.Nonzero := inferInstanceAs (Decidable (∀ t ∈ _, _))

def Admits (w : TimerWorld) (input : TimerInput) : Prop :=
  Accepted input ∧ ∀ w' ∈ w.step input, Nonzero w'

instance (w : TimerWorld) (input : TimerInput) : Decidable (w.Admits input) :=
  inferInstanceAs (Decidable (_ ∧ ∀ w' ∈ _, _))

/-- The loop is between two calls of `handleExpiredTimers`, whatever has been called and whatever the clock has
shown. -/
def Reached (w : TimerWorld) : Prop :=
  w.handling = none ∧ ∃ inputs, Lib.Along step Admits {} inputs ∧ Lib.run step {} inputs = some w

structure Stocked (w : TimerWorld) : Prop where
  sound : w.timers.Sound
  kinds : ∀ t ∈ w.timers.timerMinHeap, (w.timers.timer t).interval < clockMod ∧ (w.timers.timer t).repeats ≤ 1

theorem Stocked.retired (h : Stocked w) (hheap : w.timers.timerMinHeap = t :: rest)
    (hnonzero : Nonzero (w.retired now t)) : Stocked (w.retired now t) := by
  have hin : t ∈ w.timers.timerMinHeap := hheap ▸ mem_cons_self
  by_cases hlast : (w.timers.timer t).repeats = 1
  · obtain ⟨hsound, hperm, htimer, -⟩ := Timers.retire_last h.sound hheap hlast
    refine ⟨hsound, fun u hu => ?_⟩
    change ((w.timers.retire t).timer u).interval < clockMod ∧ ((w.timers.retire t).timer u).repeats ≤ 1
    rw [htimer]
    exact h.kinds u (hperm.mem_iff.mp (mem_cons_of_mem t hu))
  · obtain ⟨-, hperm, htimer, -⟩ := Timers.isHeap_retire_again h.sound.heap h.sound.nodup hheap hlast
    have hpos := hnonzero t (hperm.mem_iff.mpr hin)
    change 0 < ((w.timers.retire t).timer t).expired at hpos
    rw [htimer, update_self] at hpos
    refine ⟨h.sound.retire_again_of_pos hheap hlast hpos, fun u hu => ?_⟩
    change ((w.timers.retire t).timer u).interval < clockMod ∧ ((w.timers.retire t).timer u).repeats ≤ 1
    rw [htimer]
    by_cases hut : u = t
    · rw [hut, update_self]
      exact (h.kinds t hin).imp_right (Nat.sub_le _ _).trans
    · rw [update_of_ne hut]
      exact h.kinds u (hperm.mem_iff.mp hu)

theorem Stocked.round (h : Stocked w) (hnonzero : Nonzero (w.round now)) : Stocked (w.round now) := by
  obtain ⟨t, rest, hheap, hdue⟩ | ⟨-, hround⟩ := round_cases w now
  · rw [round_of_due hheap hdue] at hnonzero ⊢
    exact h.retired hheap hnonzero
  · rw [hround]
    exact ⟨h.sound, h.kinds⟩

/-- The timers stay in order, each run once or for ever, at intervals of 64 bits. -/
theorem Stocked.step {input : TimerInput} (h : Stocked w) (haccepted : Accepted input) (hnonzero : Nonzero w')
    (hstep : w.step input = some w') : Stocked w' := by
  cases input with
  | addTimer now interval repeats =>
    cases hstep
    have hmem := fun t => Timers.mem_addTimer (t := t) w.timers now interval repeats
    have htimer := Timers.timer_addTimer w.timers now interval repeats
    have hpos : 0 < ((w.timers.addTimer now interval repeats).2.timer w.timers.timerAlloc).expired :=
      hnonzero _ ((hmem _).mpr (.inr rfl))
    rw [htimer, update_self] at hpos
    refine ⟨h.sound.addTimer_of_pos hpos, fun t ht => ?_⟩
    change ((w.timers.addTimer now interval repeats).2.timer t).interval < clockMod ∧
      ((w.timers.addTimer now interval repeats).2.timer t).repeats ≤ 1
    rw [htimer]
    by_cases hnew : t = w.timers.timerAlloc
    · rw [hnew, update_self]
      exact haccepted
    · rw [update_of_ne hnew]
      exact h.kinds t (((hmem t).mp ht).resolve_right hnew)
  | deleteTimer token =>
    cases hstep
    obtain ⟨hsound, hkept⟩ := h.sound.deleteTimer token
    refine ⟨hsound, fun t ht => ?_⟩
    obtain ⟨hin, htimer⟩ := hkept t ht
    change ((w.timers.deleteTimer token).timer t).interval < clockMod ∧
      ((w.timers.deleteTimer token).timer t).repeats ≤ 1
    rw [htimer]
    exact h.kinds t hin
  | handleExpiredTimers now =>
    rw [TimerWorld.step] at hstep
    split_ifs at hstep
    cases hstep
    have hbegan : Stocked { w with clock := now, log := w.log ++ [.began now] } := ⟨h.sound, h.kinds⟩
    exact hbegan.round hnonzero
  | returned =>
    obtain ⟨now, -, rfl⟩ := map_eq_some_iff.mp hstep
    exact h.round hnonzero

theorem Reached.stocked (h : Reached w) : Stocked w := by
  obtain ⟨-, inputs, hadmits, hrun⟩ := h
  refine Lib.run_invariant (I := Stocked) ?_ ⟨Timers.sound_init, ?_⟩ hadmits hrun
  · intro v input v' hv hadmits hstep
    exact hv.step hadmits.1 (hadmits.2 v' hstep) hstep
  · exact fun t ht => absurd ht not_mem_nil

/-- **One pass over the timers ends**, having run what was due, exactly if every expired persistent timer has an
interval and does not overflow. -/
theorem endsPass_iff_passes (h : Reached w) (hnow : now < clockMod) :
    w.EndsPass now ↔ ∀ t ∈ w.timers.timerMinHeap, (w.timers.timer t).Passes now := by
  have hstocked := h.stocked
  constructor
  · intro hends t ht
    obtain ⟨hinterval, hrepeats⟩ := hstocked.kinds t ht
    exact passes_of_endsPass hstocked.sound hends hnow ht hinterval hrepeats
  · intro hpasses
    exact endsPass_of_passes hstocked.sound fun t ht => ⟨(hstocked.kinds t ht).2, hpasses t ht⟩

/-- A persistent timer without an interval. -/
def noInterval : List TimerInput := [.addTimer 5 0 0]

/-- No number of rounds ends the pass. -/
theorem noInterval_not_endsPass :
    ∃ w, Lib.run step {} noInterval = some w ∧ Reached w ∧ (∀ fuel, w.handleExpiredTimers (fun _ => []) 5 fuel = none) ∧
      ¬w.EndsPass 5 := by
  have hadmits : Lib.Along step Admits {} noInterval := by decide +kernel
  have hruns : (Lib.run step {} noInterval).map (fun w => (w.handling, w.timers.timerMinHeap, w.timers.timer 0)) =
      some (none, [0], ⟨⟨1, 0⟩, 0, 5, 0⟩) := by
    decide +kernel
  obtain ⟨w, hrun, heq⟩ := Option.map_eq_some_iff.mp hruns
  obtain ⟨hfree, hheap, htimer⟩ : w.handling = none ∧ w.timers.timerMinHeap = [0] ∧ _ := by
    simpa only [Prod.mk.injEq] using heq
  have hreached : Reached w := ⟨hfree, noInterval, hadmits, hrun⟩
  have hnever : ∀ fuel, w.handleExpiredTimers (fun _ => []) 5 fuel = none := by
    apply handleExpiredTimers_eq_none (t := 0) hreached.stocked.sound
    · rw [hheap]
      exact List.mem_singleton_self 0
    · rw [htimer]
    · rw [htimer]
    · rw [Timers.expired, htimer]
    · decide
  refine ⟨w, hrun, hreached, hnever, fun hends => ?_⟩
  obtain ⟨fuel, w', during, hsome, -⟩ := hends fun _ => []
  cases (hnever fuel).symm.trans hsome

/-- Two timers, of which the first is to be run at 15 and at 25. -/
theorem twoAdded_endsPass : ∃ w, Reached w ∧ w.EndsPass 26 ∧ runsOf 0 w.log = [] := by
  have hadmits : Lib.Along step Admits {} [.addTimer 5 10 0, .addTimer 6 10 1] := by decide +kernel
  have hruns : (Lib.run step {} [.addTimer 5 10 0, .addTimer 6 10 1]).map
      (fun w => (w.handling, decide (∀ t ∈ w.timers.timerMinHeap, (w.timers.timer t).Passes 26), runsOf 0 w.log)) =
      some (none, true, []) := by
    decide +kernel
  obtain ⟨w, hrun, heq⟩ := Option.map_eq_some_iff.mp hruns
  have hreached : Reached w := ⟨congrArg Prod.fst heq, _, hadmits, hrun⟩
  refine ⟨w, hreached, (endsPass_iff_passes hreached (by decide)).mpr ?_, congrArg (fun x => x.2.2) heq⟩
  exact of_decide_eq_true (congrArg (fun x => x.2.1) heq)

end TimerWorld

end Tbox.Event
