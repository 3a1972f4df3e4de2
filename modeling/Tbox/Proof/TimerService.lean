import Tbox.Proof.TimerHeap

/-!
# What the timer service promises

A timer that has been added is run at `now + interval`, `now + 2 * interval` and so on, until it has
run as often as it was to or its token is deleted.
-/

open List Option

namespace Tbox.Event

open Cabinet (Token)
open Lib (append_singleton_eq_append_cons)

variable {w w' : TimerWorld} {s s' : Timers} {e : TimerEvent} {t u : TimerPtr} {token : Token}
  {now interval repeats count expired : Nat} {since log : List TimerEvent}

def TimerEvent.runOf (t : TimerPtr) : TimerEvent → Option Nat
  | .run u expired => if u = t then some expired else none
  | _ => none

/-- The expiries that the callback of a timer has been run for. -/
def runsOf (t : TimerPtr) (log : List TimerEvent) : List Nat := log.filterMap (TimerEvent.runOf t)

/-- The first expiries of a timer. -/
def schedule (now interval count : Nat) : List Nat :=
  (List.range count).map fun i => now + (i + 1) * interval

/-- What holds whenever a call has returned or a callback is running. -/
structure Punctual (w : TimerWorld) : Prop where
  heap : Lib.BinaryHeap.IsHeap w.timers.expired w.timers.timerMinHeap
  nodup : w.timers.timerMinHeap.Nodup
  live : ∀ t, t ∈ w.timers.timerMinHeap ↔ ∃ token, w.timers.timerCabinet.view token = some (some t)
  punctual : ∀ before t expired after, w.log = before ++ .run t expired :: after →
    (∃ token now interval repeats, .added t token now interval repeats ∈ before) ∧
    ∃ earlier now during, before = earlier ++ .began now :: during ∧
      (∀ now, .ended now ∉ during) ∧ expired ≤ now
  ordered : ∀ before t expired between u expired' after,
    w.log = before ++ .run t expired :: (between ++ .run u expired' :: after) →
    (∀ now, .began now ∉ between) → expired ≤ expired'
  complete : ∀ now, w.log.getLast? = some (.ended now) →
    ∀ t ∈ w.timers.timerMinHeap, now < w.timers.expired t
  scheduled : ∀ before t token now interval repeats after,
    w.log = before ++ .added t token now interval repeats :: after →
    runsOf t before = [] ∧ ∃ count, runsOf t after = schedule now interval count ∧
      (repeats ≠ 0 → count ≤ repeats) ∧
      (t ∈ w.timers.timerMinHeap → w.timers.expired t = now + (count + 1) * interval) ∧
      (t ∉ w.timers.timerMinHeap → .deleted token ∈ after ∨ repeats ≠ 0 ∧ count = repeats)
  silent : ∀ before token after t now interval repeats,
    w.log = before ++ .deleted token :: after →
    .added t token now interval repeats ∈ before → runsOf t after = []

theorem runsOf_append (log' : List TimerEvent) :
    runsOf t (log ++ log') = runsOf t log ++ runsOf t log' := filterMap_append

theorem runsOf_append_of_runOf_eq_none (h : e.runOf t = none) : runsOf t (log ++ [e]) = runsOf t log := by
  rw [runsOf_append, runsOf, runsOf, filterMap_cons_none h, filterMap_nil, append_nil]

theorem runsOf_append_run : runsOf t (log ++ [.run t expired]) = runsOf t log ++ [expired] := by
  have hrun : (TimerEvent.run t expired).runOf t = some expired := if_pos rfl
  rw [runsOf_append]
  exact congrArg (runsOf t log ++ ·) (filterMap_cons_some hrun)

theorem schedule_succ :
    schedule now interval (count + 1) = schedule now interval count ++ [now + (count + 1) * interval] := by
  rw [schedule, range_succ, map_append]
  rfl

/-- The timer is live and has been run `count` times since it was added. -/
structure Armed (s : Timers) (t : TimerPtr) (token : Token) (now interval repeats : Nat)
    (since : List TimerEvent) (count : Nat) : Prop where
  mem : t ∈ s.timerMinHeap
  timer : s.timer t = ⟨token, interval, now + (count + 1) * interval, repeats - count⟩
  runs : runsOf t since = schedule now interval count
  left : repeats ≠ 0 → count < repeats

structure Gone (s : Timers) (t : TimerPtr) (token : Token) (now interval repeats : Nat)
    (since : List TimerEvent) (count : Nat) : Prop where
  notMem : t ∉ s.timerMinHeap
  runs : runsOf t since = schedule now interval count
  atMost : repeats ≠ 0 → count ≤ repeats
  why : .deleted token ∈ since ∨ repeats ≠ 0 ∧ count = repeats

inductive Tracked (s : Timers) (t : TimerPtr) (token : Token) (now interval repeats : Nat)
    (since : List TimerEvent) : Prop where
  | armed (count : Nat) (h : Armed s t token now interval repeats since count)
  | gone (count : Nat) (h : Gone s t token now interval repeats since count)

theorem Tracked.append (h : Tracked s t token now interval repeats since)
    (hmem : t ∈ s'.timerMinHeap ↔ t ∈ s.timerMinHeap) (htimer : s'.timer t = s.timer t)
    (hrun : e.runOf t = none) : Tracked s' t token now interval repeats (since ++ [e]) := by
  have hruns : runsOf t (since ++ [e]) = runsOf t since := runsOf_append_of_runOf_eq_none hrun
  cases h with
  | armed count h =>
    exact .armed count ⟨hmem.mpr h.mem, htimer.trans h.timer, hruns.trans h.runs, h.left⟩
  | gone count h =>
    refine .gone count ⟨fun hin => h.notMem (hmem.mp hin), hruns.trans h.runs, h.atMost, ?_⟩
    exact h.why.imp_left fun hin => mem_append_left _ hin

theorem Tracked.token_eq (h : Tracked s t token now interval repeats since)
    (hin : t ∈ s.timerMinHeap) : (s.timer t).token = token := by
  cases h with
  | armed count h => rw [h.timer]
  | gone count h => exact absurd hin h.notMem

theorem Tracked.deleted (h : Tracked s t token now interval repeats since)
    (hin : t ∈ s.timerMinHeap) (hout : t ∉ s'.timerMinHeap) :
    Tracked s' t token now interval repeats (since ++ [.deleted token]) := by
  cases h with
  | armed count h =>
    refine .gone count ⟨hout, ?_, fun hne => (h.left hne).le, .inl ?_⟩
    · exact (runsOf_append_of_runOf_eq_none rfl).trans h.runs
    · exact mem_append_right since mem_cons_self
  | gone count h => exact absurd hin h.notMem

theorem Tracked.runLast (h : Tracked s t token now interval repeats since)
    (hin : t ∈ s.timerMinHeap) (hlast : (s.timer t).repeats = 1) (hout : t ∉ s'.timerMinHeap) :
    Tracked s' t token now interval repeats (since ++ [.run t (s.expired t)]) := by
  cases h with
  | armed count h =>
    have hexpired : s.expired t = now + (count + 1) * interval := by rw [Timers.expired, h.timer]
    rw [h.timer] at hlast
    dsimp only at hlast
    refine .gone (count + 1) ⟨hout, ?_, fun _ => by omega, .inr ⟨by omega, by omega⟩⟩
    rw [runsOf_append_run, h.runs, schedule_succ, hexpired]
  | gone count h => exact absurd hin h.notMem

theorem Tracked.runAgain (h : Tracked s t token now interval repeats since)
    (hin : t ∈ s.timerMinHeap) (hagain : (s.timer t).repeats ≠ 1) (hin' : t ∈ s'.timerMinHeap)
    (htimer : s'.timer t = { s.timer t with
      expired := s.expired t + (s.timer t).interval
      repeats := (s.timer t).repeats - 1 }) :
    Tracked s' t token now interval repeats (since ++ [.run t (s.expired t)]) := by
  cases h with
  | armed count h =>
    have hexpired : s.expired t = now + (count + 1) * interval := by rw [Timers.expired, h.timer]
    rw [h.timer] at hagain
    dsimp only at hagain
    refine .armed (count + 1) ⟨hin', ?_, ?_, fun hne => ?_⟩
    · rw [htimer, hexpired, h.timer]
      rw [Nat.sub_sub, Nat.add_assoc, ← Nat.succ_mul]
    · rw [runsOf_append_run, h.runs, schedule_succ, hexpired]
    · have hleft := h.left hne
      omega
  | gone count h => exact absurd hin h.notMem

/-- The timer that an event is about, if it has one of its own. -/
def TimerEvent.timer : TimerEvent → Option TimerPtr
  | .added t _ _ _ _ => some t
  | .run t _ => some t
  | _ => none

structure Recorded (w : TimerWorld) : Prop where
  known : ∀ e ∈ w.log, ∀ t, e.timer = some t → t < w.timers.timerAlloc
  added : ∀ t ∈ w.timers.timerMinHeap, ∃ token now interval repeats,
    .added t token now interval repeats ∈ w.log
  tracked : ∀ before t token now interval repeats since,
    w.log = before ++ .added t token now interval repeats :: since →
    runsOf t before = [] ∧ Tracked w.timers t token now interval repeats since
  silent : ∀ before token after t now interval repeats,
    w.log = before ++ .deleted token :: after → .added t token now interval repeats ∈ before →
    t ∉ w.timers.timerMinHeap ∧ runsOf t after = []

theorem Recorded.runsOf_eq_nil (h : Recorded w) (hnew : w.timers.timerAlloc ≤ t) : runsOf t w.log = [] := by
  refine filterMap_eq_nil_iff.mpr fun e he => ?_
  cases e with
  | run u expired =>
    have hlt := h.known _ he u rfl
    exact if_neg fun heq => absurd (heq ▸ hlt) (Nat.not_lt.mpr hnew)
  | _ => rfl

structure Records (w w' : TimerWorld) (e : TimerEvent) : Prop where
  log : w'.log = w.log ++ [e]
  alloc : w.timers.timerAlloc ≤ w'.timers.timerAlloc
  known : ∀ t, e.timer = some t → t < w'.timers.timerAlloc
  mem : ∀ t ∈ w'.timers.timerMinHeap, t ∈ w.timers.timerMinHeap ∨
    t = w.timers.timerAlloc ∧ ∃ token now interval repeats, e = .added t token now interval repeats
  run : ∀ t, e.runOf t ≠ none → t ∈ w.timers.timerMinHeap
  tracked : ∀ t token now interval repeats since, t < w.timers.timerAlloc →
    Tracked w.timers t token now interval repeats since →
    Tracked w'.timers t token now interval repeats (since ++ [e])
  added : ∀ t token now interval repeats, e = .added t token now interval repeats →
    t = w.timers.timerAlloc ∧ Tracked w'.timers t token now interval repeats []
  deleted : ∀ token t now interval repeats, e = .deleted token →
    .added t token now interval repeats ∈ w.log → t ∉ w'.timers.timerMinHeap

theorem Recorded.record (h : Recorded w) (hrec : Records w w' e) : Recorded w' := by
  have hlt : ∀ t token now interval repeats, .added t token now interval repeats ∈ w.log →
      t < w.timers.timerAlloc := fun t _ _ _ _ hin => h.known _ hin t rfl
  refine ⟨fun e' he' t ht => ?_, fun t ht => ?_, fun before t token now interval repeats since heq => ?_,
    fun before token after t now interval repeats heq hin => ?_⟩
  · rw [hrec.log, mem_append, mem_singleton] at he'
    rcases he' with he' | rfl
    · exact (h.known e' he' t ht).trans_le hrec.alloc
    · exact hrec.known t ht
  · rw [hrec.log]
    rcases hrec.mem t ht with hin | ⟨-, token, now, interval, repeats, rfl⟩
    · obtain ⟨token, now, interval, repeats, hmem⟩ := h.added t hin
      exact ⟨token, now, interval, repeats, mem_append_left _ hmem⟩
    · exact ⟨token, now, interval, repeats, mem_append_right _ mem_cons_self⟩
  · rw [hrec.log, append_singleton_eq_append_cons] at heq
    rcases heq with ⟨since', hold, rfl⟩ | ⟨rfl, rfl, rfl⟩
    · obtain ⟨hbefore, htracked⟩ := h.tracked before t token now interval repeats since' hold
      have hin : .added t token now interval repeats ∈ w.log := by
        rw [hold]
        exact mem_append_right before mem_cons_self
      exact ⟨hbefore, hrec.tracked t token now interval repeats since'
        (hlt t token now interval repeats hin) htracked⟩
    · obtain ⟨halloc, htracked⟩ := hrec.added t token now interval repeats rfl
      exact ⟨h.runsOf_eq_nil halloc.ge, htracked⟩
  · rw [hrec.log, append_singleton_eq_append_cons] at heq
    rcases heq with ⟨after', hold, rfl⟩ | ⟨rfl, rfl, rfl⟩
    · obtain ⟨hout, hruns⟩ := h.silent before token after' t now interval repeats hold hin
      have hknown : t < w.timers.timerAlloc := by
        apply hlt t token now interval repeats
        rw [hold]
        exact mem_append_left _ hin
      refine ⟨fun hin' => ?_, ?_⟩
      · rcases hrec.mem t hin' with hin' | ⟨heq, -⟩
        · exact hout hin'
        · exact absurd hknown heq.not_lt
      · rw [runsOf_append_of_runOf_eq_none, hruns]
        by_contra hrun
        exact hout (hrec.run t hrun)
    · exact ⟨hrec.deleted token t now interval repeats rfl hin, rfl⟩

theorem Recorded.quiet (h : Recorded w) (hlog : w'.log = w.log ++ [e]) (htimers : w'.timers = w.timers)
    (hquiet : (∃ now, e = .began now) ∨ ∃ now, e = .ended now) : Recorded w' := by
  have hrun : ∀ t, e.runOf t = none := by
    rintro t
    rcases hquiet with ⟨now, rfl⟩ | ⟨now, rfl⟩ <;> rfl
  refine h.record ⟨hlog, by rw [htimers], ?_, fun t ht => .inl (htimers ▸ ht),
    fun t ht => absurd (hrun t) ht, ?_, ?_, ?_⟩
  · rcases hquiet with ⟨now, rfl⟩ | ⟨now, rfl⟩ <;> exact nofun
  · intro t token now interval repeats since _ htracked
    exact htracked.append (by rw [htimers]) (by rw [htimers]) (hrun t)
  · rcases hquiet with ⟨now, rfl⟩ | ⟨now, rfl⟩ <;> exact nofun
  · rcases hquiet with ⟨now, rfl⟩ | ⟨now, rfl⟩ <;> exact nofun

theorem Recorded.addTimer (h : Recorded w) (hmod : now + interval < clockMod)
    (hlog : w'.log = w.log ++ [.added w.timers.timerAlloc (w.timers.addTimer now interval repeats).1
      now interval repeats]) (htimers : w'.timers = (w.timers.addTimer now interval repeats).2) : Recorded w' := by
  have hmem := fun t => Timers.mem_addTimer (t := t) w.timers now interval repeats
  have htimer := Timers.timer_addTimer w.timers now interval repeats
  rw [← htimers] at hmem htimer
  have halloc : w'.timers.timerAlloc = w.timers.timerAlloc + 1 := by rw [htimers]; rfl
  refine h.record ⟨hlog, by omega, ?_, fun t ht => ?_, fun t ht => absurd rfl ht, ?_, ?_, nofun⟩
  · rintro t ⟨⟩
    rw [halloc]
    exact Nat.lt_succ_self _
  · rcases (hmem t).mp ht with hin | rfl
    · exact .inl hin
    · exact .inr ⟨rfl, _, _, _, _, rfl⟩
  · intro t token now interval repeats since hlt htracked
    refine htracked.append ?_ ?_ rfl
    · rw [hmem, or_iff_left hlt.ne]
    · rw [htimer, Function.update_of_ne hlt.ne]
  · rintro t token now interval repeats ⟨⟩
    refine ⟨rfl, .armed 0 ⟨(hmem _).mpr (.inr rfl), ?_, rfl, Nat.pos_of_ne_zero⟩⟩
    rw [htimer, Function.update_self, Nat.mod_eq_of_lt hmod, Nat.zero_add, Nat.one_mul, Nat.sub_zero]

theorem Recorded.deleteTimer (h : Recorded w) (hsound : w.timers.Sound)
    (hlog : w'.log = w.log ++ [.deleted token]) (htimers : w'.timers = w.timers.deleteTimer token) : Recorded w' := by
  have htoken : ∀ t now interval repeats, .added t token now interval repeats ∈ w.log →
      t ∈ w.timers.timerMinHeap → (w.timers.timer t).token = token := by
    intro t now interval repeats hadded hin
    obtain ⟨before, since, hsplit⟩ := append_of_mem hadded
    exact (h.tracked before t token now interval repeats since hsplit).2.token_eq hin
  rcases hview : w.timers.timerCabinet.view token with _ | obj
  · -- the token opens nothing
    obtain ⟨heq, -⟩ := Timers.deleteTimer_of_stale hview
    rw [heq] at htimers
    refine h.record ⟨hlog, by rw [htimers], nofun, fun t ht => ?_, fun t ht => absurd rfl ht, ?_, nofun, ?_⟩
    · rw [htimers] at ht
      exact .inl ht
    · intro t token now interval repeats since _ htracked
      exact htracked.append (by rw [htimers]) (by rw [htimers]) rfl
    rintro token t now interval repeats ⟨⟩ hadded hin
    rw [htimers] at hin
    have hlive := (hsound.live token t).mpr ⟨hin, htoken t now interval repeats hadded hin⟩
    rw [hview] at hlive
    cases hlive
  · rcases obj with _ | t
    · exact absurd hview (hsound.stored token)
    obtain ⟨hin, htokent⟩ := (hsound.live token t).mp hview
    obtain ⟨hsound', hperm, htimer, halloc⟩ := Timers.deleteTimer_of_live hsound hin htokent
    rw [← htimers] at hsound' hperm htimer halloc
    have hout : t ∉ w'.timers.timerMinHeap := (nodup_cons.mp (hperm.nodup_iff.mpr hsound.nodup)).1
    have hmem : ∀ u, u ≠ t → (u ∈ w'.timers.timerMinHeap ↔ u ∈ w.timers.timerMinHeap) := by
      intro u hu
      rw [← hperm.mem_iff, mem_cons, or_iff_right hu]
    refine h.record ⟨hlog, halloc.ge, nofun, fun u hu => ?_, fun t ht => absurd rfl ht, ?_, nofun, ?_⟩
    · exact .inl ((hmem u (ne_of_mem_of_not_mem hu hout)).mp hu)
    · intro u token' now interval repeats since _ htracked
      by_cases hut : u = t
      · subst hut
        obtain rfl : token' = token := (htracked.token_eq hin).symm.trans htokent
        exact htracked.deleted hin hout
      · exact htracked.append (hmem u hut) (htimer u hut) rfl
    · rintro token' u now interval repeats ⟨⟩ hadded hin'
      have hne := ne_of_mem_of_not_mem hin' hout
      have hu := (hmem u hne).mp hin'
      have hlive := (hsound.live token u).mpr ⟨hu, htoken u now interval repeats hadded hu⟩
      rw [hview] at hlive
      exact hne (some.inj (some.inj hlive)).symm

theorem Recorded.retire (h : Recorded w) (hsound : w.timers.Sound) {rest : List TimerPtr}
    (hheap : w.timers.timerMinHeap = t :: rest) (hmod : (w.timers.timer t).repeats ≠ 1 →
      w.timers.expired t + (w.timers.timer t).interval < clockMod)
    (hlog : w'.log = w.log ++ [.run t (w.timers.expired t)])
    (htimers : w'.timers = w.timers.retire t) : Recorded w' := by
  have hin : t ∈ w.timers.timerMinHeap := hheap ▸ mem_cons_self
  have hrun : ∀ u, (TimerEvent.run t (w.timers.expired t)).runOf u ≠ none →
      u ∈ w.timers.timerMinHeap := by
    intro u hu
    by_cases hut : t = u
    · exact hut ▸ hin
    · exact absurd (if_neg hut) hu
  by_cases hlast : (w.timers.timer t).repeats = 1
  · obtain ⟨-, hperm, htimer, halloc⟩ := Timers.retire_last hsound hheap hlast
    rw [← htimers] at hperm htimer halloc
    have hout : t ∉ w'.timers.timerMinHeap := (nodup_cons.mp (hperm.nodup_iff.mpr hsound.nodup)).1
    refine h.record ⟨hlog, halloc.ge, ?_, fun u hu => ?_, hrun, ?_, nofun, nofun⟩
    · rintro u ⟨⟩
      rw [halloc]
      exact hsound.fresh t hin
    · exact .inl (hperm.mem_iff.mp (mem_cons_of_mem t hu))
    intro u token now interval repeats since _ htracked
    by_cases hut : u = t
    · subst hut
      exact htracked.runLast hin hlast hout
    · refine htracked.append ?_ (congrFun htimer u) (if_neg (Ne.symm hut))
      rw [← hperm.mem_iff, mem_cons, or_iff_right hut]
  · obtain ⟨-, hperm, htimer, halloc⟩ := Timers.retire_again hsound hheap hlast (hmod hlast)
    rw [← htimers] at hperm htimer halloc
    refine h.record ⟨hlog, halloc.ge, ?_, fun u hu => .inl (hperm.mem_iff.mp hu), hrun, ?_, nofun, nofun⟩
    · rintro u ⟨⟩
      rw [halloc]
      exact hsound.fresh t hin
    intro u token now interval repeats since _ htracked
    by_cases hut : u = t
    · subst hut
      refine htracked.runAgain hin hlast (hperm.mem_iff.mpr hin) ?_
      rw [htimer, Function.update_self]
    · refine htracked.append hperm.mem_iff ?_ (if_neg (Ne.symm hut))
      rw [htimer, Function.update_of_ne hut]

/-- A callback that is run is of a timer that was added, and its expiry was not after the reading that
its call has begun with. -/
def Prompt (before : List TimerEvent) (t : TimerPtr) (expired : Nat) : Prop :=
  (∃ token now interval repeats, .added t token now interval repeats ∈ before) ∧
    ∃ earlier now during, before = earlier ++ .began now :: during ∧
      (∀ now, .ended now ∉ during) ∧ expired ≤ now

/-- A call that has read `now` has not returned yet. -/
structure Handling (w : TimerWorld) (now : Nat) : Prop where
  le : now ≤ w.clock
  since : ∃ earlier during, w.log = earlier ++ .began now :: during ∧ ∀ now, .ended now ∉ during
  mod : ∀ t ∈ w.timers.timerMinHeap, w.timers.expired t ≤ now → (w.timers.timer t).repeats ≠ 1 →
    now + (w.timers.timer t).interval < clockMod

structure Orderly (w : TimerWorld) : Prop where
  clocked : ∀ before t expired after, w.log = before ++ .run t expired :: after → expired ≤ w.clock
  pending : ∀ before t expired after, w.log = before ++ .run t expired :: after →
    (∀ now, .began now ∉ after) → ∀ u ∈ w.timers.timerMinHeap, expired ≤ w.timers.expired u
  prompt : ∀ before t expired after, w.log = before ++ .run t expired :: after →
    Prompt before t expired
  ordered : ∀ before t expired between u expired' after,
    w.log = before ++ .run t expired :: (between ++ .run u expired' :: after) →
    (∀ now, .began now ∉ between) → expired ≤ expired'
  complete : ∀ now, w.log.getLast? = some (.ended now) →
    ∀ t ∈ w.timers.timerMinHeap, now < w.timers.expired t
  handling : ∀ now, w.handling = some now → Handling w now

structure Follows (w w' : TimerWorld) (e : TimerEvent) : Prop where
  log : w'.log = w.log ++ [e]
  clock : w.clock ≤ w'.clock
  later : ∀ u ∈ w'.timers.timerMinHeap, w.clock ≤ w'.timers.expired u ∨
    ∃ v ∈ w.timers.timerMinHeap, w.timers.expired v ≤ w'.timers.expired u
  run : ∀ t expired, e = .run t expired → expired ≤ w'.clock ∧ Prompt w.log t expired ∧
    t ∈ w.timers.timerMinHeap ∧ expired = w.timers.expired t ∧
    ∀ u ∈ w'.timers.timerMinHeap, expired ≤ w'.timers.expired u
  ended : ∀ now, e = .ended now → ∀ t ∈ w'.timers.timerMinHeap, now < w'.timers.expired t
  handling : ∀ now, w'.handling = some now → Handling w' now

theorem Orderly.record (h : Orderly w) (hnext : Follows w w' e) : Orderly w' := by
  refine ⟨fun before t expired after heq => ?_, fun before t expired after heq hnone u hu => ?_,
    fun before t expired after heq => ?_, fun before t expired between u expired' after heq hnone => ?_,
    fun now hlast => ?_, hnext.handling⟩
  · rw [hnext.log, append_singleton_eq_append_cons] at heq
    rcases heq with ⟨after', hold, rfl⟩ | ⟨rfl, rfl, rfl⟩
    · exact (h.clocked before t expired after' hold).trans hnext.clock
    · exact (hnext.run t expired rfl).1
  · rw [hnext.log, append_singleton_eq_append_cons] at heq
    rcases heq with ⟨after', hold, rfl⟩ | ⟨rfl, rfl, rfl⟩
    · rcases hnext.later u hu with hlater | ⟨v, hv, hle⟩
      · exact (h.clocked before t expired after' hold).trans hlater
      · refine (h.pending before t expired after' hold (fun now hin => ?_) v hv).trans hle
        exact hnone now (mem_append_left _ hin)
    · exact (hnext.run t expired rfl).2.2.2.2 u hu
  · rw [hnext.log, append_singleton_eq_append_cons] at heq
    rcases heq with ⟨after', hold, rfl⟩ | ⟨rfl, rfl, rfl⟩
    · exact h.prompt before t expired after' hold
    · exact (hnext.run t expired rfl).2.1
  · rw [hnext.log, ← cons_append, ← append_assoc, append_singleton_eq_append_cons] at heq
    rcases heq with ⟨after', hold, rfl⟩ | ⟨hold, rfl, rfl⟩
    · refine h.ordered before t expired between u expired' after' ?_ hnone
      rw [hold, append_assoc, cons_append]
    · obtain ⟨-, -, hin, rfl, -⟩ := hnext.run u expired' rfl
      exact h.pending before t expired between hold hnone u hin
  · rw [hnext.log, List.getLast?_concat] at hlast
    exact hnext.ended now (some.inj hlast)

theorem Handling.append (h : Handling w now) (hlog : w'.log = w.log ++ [e])
    (hclock : w.clock ≤ w'.clock) (hended : ∀ now, e ≠ .ended now)
    (hmod : ∀ t ∈ w'.timers.timerMinHeap, w'.timers.expired t ≤ now →
      (w'.timers.timer t).repeats ≠ 1 → now + (w'.timers.timer t).interval < clockMod) : Handling w' now := by
  obtain ⟨earlier, during, hsplit, hnone⟩ := h.since
  refine ⟨h.le.trans hclock, ⟨earlier, during ++ [e], ?_, fun n hin => ?_⟩, hmod⟩
  · rw [hlog, hsplit, append_assoc, cons_append]
  · rcases mem_append.mp hin with hin | hin
    · exact hnone n hin
    · exact hended n (mem_singleton.mp hin).symm

theorem Orderly.addTimer (h : Orderly w) (hclock : w.clock ≤ now) (hmod : now + interval < clockMod)
    (hlog : w'.log = w.log ++ [.added t token now interval repeats])
    (htimers : w'.timers = (w.timers.addTimer now interval repeats).2) (hclock' : w'.clock = now)
    (hhandling : w'.handling = w.handling) : Orderly w' := by
  have hmem := fun t => Timers.mem_addTimer (t := t) w.timers now interval repeats
  have htimer := Timers.timer_addTimer w.timers now interval repeats
  rw [← htimers] at hmem htimer
  have hcases : ∀ u ∈ w'.timers.timerMinHeap,
      (w'.timers.expired u = now + interval ∧ (w'.timers.timer u).interval = interval) ∨
        u ∈ w.timers.timerMinHeap ∧ w'.timers.timer u = w.timers.timer u := by
    intro u hu
    by_cases hnew : u = w.timers.timerAlloc
    · refine .inl ?_
      rw [Timers.expired, htimer, hnew, Function.update_self]
      exact ⟨Nat.mod_eq_of_lt hmod, rfl⟩
    · refine .inr ⟨((hmem u).mp hu).resolve_right hnew, ?_⟩
      rw [htimer, Function.update_of_ne hnew]
  refine h.record ⟨hlog, hclock.trans hclock'.ge, fun u hu => ?_, (by simp), (by simp), fun n hn => ?_⟩
  · rcases hcases u hu with ⟨heq, -⟩ | ⟨hin, heq⟩
    · rw [heq]
      exact .inl (hclock.trans (Nat.le_add_right now interval))
    · exact .inr ⟨u, hin, (congrArg Timer.expired heq).ge⟩
  · have hold := h.handling n (hhandling ▸ hn)
    refine hold.append hlog (hclock.trans hclock'.ge) (by simp) fun u hu hle hne => ?_
    rcases hcases u hu with ⟨-, hinterval⟩ | ⟨hin, heq⟩
    · rw [hinterval]
      have hle' := hold.le
      omega
    · rw [Timers.expired, heq] at hle
      rw [heq] at hne ⊢
      exact hold.mod u hin hle hne

theorem Orderly.deleteTimer (h : Orderly w) (hlog : w'.log = w.log ++ [.deleted token])
    (hclock : w'.clock = w.clock) (hhandling : w'.handling = w.handling) (hkept : ∀ u ∈ w'.timers.timerMinHeap,
      u ∈ w.timers.timerMinHeap ∧ w'.timers.timer u = w.timers.timer u) : Orderly w' := by
  refine h.record ⟨hlog, hclock.ge, fun u hu => ?_, nofun, nofun, fun n hn => ?_⟩
  · obtain ⟨hin, heq⟩ := hkept u hu
    exact .inr ⟨u, hin, (congrArg Timer.expired heq).ge⟩
  have hold := h.handling n (hhandling ▸ hn)
  refine hold.append hlog hclock.ge nofun fun u hu hle hne => ?_
  obtain ⟨hin, heq⟩ := hkept u hu
  rw [Timers.expired, heq] at hle
  rw [heq] at hne ⊢
  exact hold.mod u hin hle hne

/-- All that holds between the inputs. -/
structure TimerWorld.Sound (w : TimerWorld) : Prop where
  timers : w.timers.Sound
  recorded : Recorded w
  orderly : Orderly w

theorem TimerWorld.sound_init : Sound {} := by
  have hnil : ∀ before e after, ([] : List TimerEvent) ≠ before ++ e :: after := by
    intro before e after
    exact (append_ne_nil_of_right_ne_nil before (cons_ne_nil e after)).symm
  refine ⟨Timers.sound_init, ⟨nofun, nofun, ?_, ?_⟩, ⟨?_, ?_, ?_, ?_, nofun, nofun⟩⟩
  · exact fun _ _ _ _ _ _ _ heq => absurd heq (hnil _ _ _)
  · exact fun _ _ _ _ _ _ _ heq => absurd heq (hnil _ _ _)
  · exact fun _ _ _ _ heq => absurd heq (hnil _ _ _)
  · exact fun _ _ _ _ heq => absurd heq (hnil _ _ _)
  · exact fun _ _ _ _ heq => absurd heq (hnil _ _ _)
  · exact fun _ _ _ _ _ _ _ heq => absurd heq (hnil _ _ _)

theorem TimerWorld.Sound.ended (h : w.Sound)
    (hlate : ∀ t ∈ w.timers.timerMinHeap, now < w.timers.expired t) :
    Sound { w with handling := none, log := w.log ++ [.ended now] } where
  timers := h.timers
  recorded := h.recorded.quiet rfl rfl (.inr ⟨now, rfl⟩)
  orderly := by
    refine h.orderly.record ⟨rfl, le_rfl, fun u hu => .inr ⟨u, hu, le_rfl⟩, nofun, ?_, nofun⟩
    rintro n ⟨⟩
    exact hlate

theorem TimerWorld.Sound.retired (h : w.Sound) (hhandling : Handling w now) {rest : List TimerPtr}
    (hheap : w.timers.timerMinHeap = t :: rest) (hdue : w.timers.expired t ≤ now) :
    Sound { w with
      timers := w.timers.retire t
      handling := some now
      log := w.log ++ [.run t (w.timers.expired t)] } := by
  have hin : t ∈ w.timers.timerMinHeap := hheap ▸ mem_cons_self
  have hmod : (w.timers.timer t).repeats ≠ 1 →
      w.timers.expired t + (w.timers.timer t).interval < clockMod := by
    intro hne
    exact (Nat.add_le_add_right hdue _).trans_lt (hhandling.mod t hin hdue hne)
  have hleast : ∀ u ∈ w.timers.timerMinHeap, w.timers.expired t ≤ w.timers.expired u := by
    intro u hu
    have hfirst := h.timers.heap
    rw [hheap] at hu hfirst
    exact hfirst.head_le hu
  obtain ⟨hsound, hkept⟩ := h.timers.retire hheap hmod
  refine ⟨hsound, h.recorded.retire h.timers hheap hmod rfl rfl, ?_⟩
  refine h.orderly.record ⟨rfl, le_rfl, fun u hu => ?_, ?_, nofun, ?_⟩
  · obtain ⟨hu', hle, -⟩ := hkept u hu
    exact .inr ⟨u, hu', hle⟩
  · rintro v expired ⟨⟩
    obtain ⟨earlier, during, hsplit, hnone⟩ := hhandling.since
    refine ⟨hdue.trans hhandling.le, ⟨h.recorded.added t hin, ?_⟩, hin, rfl, fun u hu => ?_⟩
    · exact ⟨earlier, now, during, hsplit, hnone, hdue⟩
    · obtain ⟨hu', hle, -⟩ := hkept u hu
      exact (hleast u hu').trans hle
  · rintro n ⟨⟩
    refine hhandling.append rfl le_rfl nofun fun u hu hle hne => ?_
    obtain ⟨hu', hle', hinterval, hrepeats⟩ := hkept u hu
    change now + ((w.timers.retire t).timer u).interval < clockMod
    rw [hinterval]
    exact hhandling.mod u hu' (hle'.trans hle) (fun hone => hne (hrepeats hone))

theorem TimerWorld.Sound.round (h : w.Sound) (hhandling : Handling w now) : (w.round now).Sound := by
  rw [TimerWorld.round]
  split
  · next hheap =>
      apply h.ended
      rw [hheap]
      exact nofun
  · next t rest hheap =>
      split
      · next hlate =>
          refine h.ended fun u hu => hlate.trans_le ?_
          have hfirst := h.timers.heap
          rw [hheap] at hu hfirst
          exact hfirst.head_le hu
      · next hdue => exact h.retired hhandling hheap (Nat.le_of_not_lt hdue)

theorem TimerWorld.Sound.began (h : w.Sound) (hclock : w.clock ≤ now) (hfree : w.handling = none)
    (hmod : ∀ t ∈ w.timers.timerMinHeap, w.timers.expired t ≤ now →
      (w.timers.timer t).repeats ≠ 1 → now + (w.timers.timer t).interval < clockMod) :
    Sound { w with clock := now, log := w.log ++ [.began now] } ∧
      Handling { w with clock := now, log := w.log ++ [.began now] } now := by
  refine ⟨⟨h.timers, h.recorded.quiet rfl rfl (.inl ⟨now, rfl⟩), ?_⟩, le_rfl, ⟨w.log, [], rfl, nofun⟩, hmod⟩
  refine h.orderly.record ⟨rfl, hclock, fun u hu => .inr ⟨u, hu, le_rfl⟩, nofun, nofun, ?_⟩
  intro n hn
  rw [show w.handling = some n from hn] at hfree
  cases hfree

/-- A legal step keeps every timer to its own expiries. -/
theorem TimerWorld.Sound.step {input : TimerInput} (h : w.Sound) (hlegal : w.Legal input)
    (hstep : w.step input = some w') : w'.Sound := by
  cases input with
  | addTimer now interval repeats =>
    obtain ⟨hpos, hclock, hmod⟩ := hlegal
    cases hstep
    exact ⟨h.timers.addTimer hpos hmod, h.recorded.addTimer hmod rfl rfl,
      h.orderly.addTimer hclock hmod rfl rfl rfl rfl⟩
  | deleteTimer token =>
    cases hstep
    obtain ⟨hsound, hkept⟩ := h.timers.deleteTimer token
    exact ⟨hsound, h.recorded.deleteTimer h.timers rfl rfl, h.orderly.deleteTimer rfl rfl rfl hkept⟩
  | handleExpiredTimers now =>
    obtain ⟨-, hclock, hmod⟩ := hlegal
    rw [TimerWorld.step] at hstep
    split at hstep
    · next hfree =>
        obtain ⟨hbegun, hhandling⟩ := h.began hclock hfree hmod
        cases hstep
        exact hbegun.round hhandling
    · cases hstep
  | returned =>
    obtain ⟨now, hnow, rfl⟩ := map_eq_some_iff.mp hstep
    exact h.round (h.orderly.handling now hnow)

theorem TimerWorld.Sound.punctual (h : w.Sound) : Punctual w where
  heap := h.timers.heap
  nodup := h.timers.nodup
  live t := by
    constructor
    · exact fun hin => ⟨_, (h.timers.live _ t).mpr ⟨hin, rfl⟩⟩
    · exact fun ⟨token, hview⟩ => ((h.timers.live token t).mp hview).1
  punctual := h.orderly.prompt
  ordered := h.orderly.ordered
  complete := h.orderly.complete
  scheduled before t token now interval repeats after heq := by
    obtain ⟨hbefore, htracked⟩ := h.recorded.tracked before t token now interval repeats after heq
    refine ⟨hbefore, ?_⟩
    cases htracked with
    | armed count h =>
      refine ⟨count, h.runs, fun hne => (h.left hne).le, fun _ => ?_, fun hout => absurd h.mem hout⟩
      rw [Timers.expired, h.timer]
    | gone count h => exact ⟨count, h.runs, h.atMost, fun hin => absurd hin h.notMem, fun _ => h.why⟩
  silent before token after t now interval repeats heq hin :=
    (h.recorded.silent before token after t now interval repeats heq hin).2

/-- However the timers are added, deleted and handled, they are run when they are due, in order, and
no more often than they were asked for. -/
theorem TimerWorld.punctual_of_run {inputs : List TimerInput}
    (hlegal : Lib.Along TimerWorld.step Legal {} inputs)
    (hrun : Lib.run TimerWorld.step {} inputs = some w) : Punctual w :=
  (Lib.run_invariant (fun _ _ _ hsound hguard hstep => hsound.step hguard hstep) sound_init hlegal
    hrun).punctual

/-- A persistent timer, and one that is to be run once but is deleted in a callback of the other. -/
def twoTimers : List TimerInput :=
  [.addTimer 5 10 0, .addTimer 6 10 1, .handleExpiredTimers 26, .deleteTimer ⟨2, 1⟩, .returned,
    .returned]

theorem TimerWorld.twoTimers_punctual :
    ∃ w, Lib.run TimerWorld.step {} twoTimers = some w ∧ Punctual w ∧
      runsOf 0 w.log = [15, 25] ∧ runsOf 1 w.log = [] := by
  have hruns : ((Lib.run TimerWorld.step {} twoTimers).map fun w =>
      (runsOf 0 w.log, runsOf 1 w.log)) = some ([15, 25], []) := by decide +kernel
  have hlegal : Lib.Along TimerWorld.step Legal {} twoTimers := by decide +kernel
  obtain ⟨w, hrun, heq⟩ := Option.map_eq_some_iff.mp hruns
  exact ⟨w, hrun, punctual_of_run hlegal hrun, congrArg Prod.fst heq, congrArg Prod.snd heq⟩

end Tbox.Event
