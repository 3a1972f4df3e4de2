import Tbox.Proof.LostWakeups

/-!
# The locked region

A routine is inside for as often as `lock` has returned true to it more often than it has called `unlock`.
-/

open List Option

namespace Tbox.Coroutine.Mutex

open World
open Function (update_self update_of_ne update)

variable {w w' : World (Option RoutineToken) Unit} {t u : RoutineToken} {v : Unit} {log : List (Event Unit)}
  {input : Input Unit} {hold : Option RoutineToken}

def units (hold : Option RoutineToken) : Nat := if hold.isSome then 0 else 1

theorem counted : resource.Counted units fun _ => True where
  front hold _ := by
    rw [units]
    cases hold with
    | none => exact iff_of_false nofun nofun
    | some t => exact iff_of_true rfl rfl
  pop t hold v _ hfront := by
    cases hold with
    | none => exact ⟨trivial, rfl⟩
    | some u => cases hfront
  push v hold _ := ⟨trivial, Nat.le_add_left 1 (units hold)⟩

def count (depth : RoutineToken → Nat) : Event Unit → RoutineToken → Nat
  | .acquired t _ => update depth t (depth t + 1)
  | .released (some t) _ => update depth t (depth t - 1)
  | .released none _ | .refused _ => depth

/-- How deep in the locked region each routine is. -/
def depth (log : List (Event Unit)) : RoutineToken → Nat := log.foldl count fun _ => 0

/-- If anybody sleeps, the mutex is given back to a sleeper or to a routine that has been woken before, and
its holder has locked it only once; while it is free and somebody sleeps, of the routines that were woken
one stays. -/
def Careful (w : World (Option RoutineToken) Unit) : Input Unit → Prop
  | .release v => ∀ t ∈ w.sch.currRoutine, w.res = some t →
      World.Careful resource units w (.release v) ∧ depth w.log t ≤ 1
  | input => World.Careful resource units w input

instance decidableCareful : ∀ (w : World (Option RoutineToken) Unit) (input : Input Unit), Decidable (Careful w input)
  | w, .release v => inferInstanceAs (Decidable (∀ t ∈ w.sch.currRoutine, w.res = some t →
      World.Careful resource units w (.release v) ∧ depth w.log t ≤ 1))
  | w, .cancel t => inferInstanceAs (Decidable (World.Careful resource units w (.cancel t)))
  | _, .create _ | _, .resume _ | _, .wait | _, .yield | _, .join _ | _, .finish | _, .acquire | _, .schedule
  | _, .switch => .isTrue trivial

def Exclusive (hold : Option RoutineToken) (log : List (Event Unit)) : Prop :=
  ∀ t, 0 < depth log t → hold = some t

theorem depth_append (log : List (Event Unit)) (event : Event Unit) :
    depth (log ++ [event]) = count (depth log) event := foldl_append

theorem Exclusive.acquired (h : Exclusive hold log) (hhold : hold = none ∨ hold = some t) :
    Exclusive (some t) (log ++ [.acquired t v]) := by
  intro u hu
  by_cases hut : u = t
  · rw [hut]
  rw [depth_append, count, update_of_ne hut] at hu
  rcases hhold with rfl | rfl
  · cases h u hu
  · exact h u hu

theorem Exclusive.released (h : Exclusive (some t) log) (honce : depth log t ≤ 1) :
    Exclusive none (log ++ [.released (some t) v]) := by
  intro u hu
  exfalso
  rw [depth_append, count] at hu
  by_cases hut : u = t
  · rw [hut, update_self] at hu
    omega
  · rw [update_of_ne hut] at hu
    exact hut (some.inj (h u hu)).symm

theorem Exclusive.ignored (h : Exclusive hold log) (hhold : hold ≠ some t) :
    Exclusive hold (log ++ [.released (some t) v]) := by
  intro u hu
  rw [depth_append, count] at hu
  by_cases hut : u = t
  · subst hut
    rw [update_self] at hu
    exact absurd (h u (by omega)) hhold
  · rw [update_of_ne hut] at hu
    exact h u hu

theorem takes : Takes resource Exclusive where
  acquired t hold v log h hfront := by
    refine h.acquired (.inl ?_)
    cases hold with
    | none => rfl
    | some u => cases hfront
  refused t hold log h := by
    intro u
    rw [depth_append]
    exact h u

theorem step_cases (hstep : step w input = some w') : (∃ t, w.sch.currRoutine = some t ∧ w' = lock w t) ∨
    (∃ t v, input = .release v ∧ w.sch.currRoutine = some t ∧ w' = unlock w t) ∨
    (w.step resource input = some w' ∧ input ≠ .acquire ∧ (∀ v, input ≠ .release v) ∧
      (Careful w input → World.Careful resource units w input)) := by
  cases input with
  | acquire =>
    obtain ⟨t, hcurr, rfl⟩ := map_eq_some_iff.mp hstep
    exact .inl ⟨t, hcurr, rfl⟩
  | release v =>
    obtain ⟨t, hcurr, rfl⟩ := map_eq_some_iff.mp hstep
    exact .inr (.inl ⟨t, v, rfl, hcurr, rfl⟩)
  | _ => exact .inr (.inr ⟨hstep, nofun, nofun, id⟩)

theorem unlock_eq (hhold : w.res = some t) : unlock w t = w.release resource (some t) () := by
  have hfront : (resource.front w.res).isNone := by
    rw [hhold]
    rfl
  rw [unlock, if_pos hhold, World.release, if_pos hfront]
  obtain ⟨sch, res, token, inLoop, log⟩ := w
  cases token <;> rfl

structure Locked (w : World (Option RoutineToken) Unit) : Prop where
  sound : Sound (fun _ => True) w
  covered : Covered units w
  exclusive : Exclusive w.res w.log

theorem locked_init : Locked { res := none } where
  sound := sound_init none trivial
  covered := covered_init none
  exclusive _ h := absurd h (lt_irrefl 0)

theorem Locked.lock (h : Locked w) (hcurr : w.sch.currRoutine = some t) : Locked (lock w t) := by
  rw [Mutex.lock]
  split_ifs with hhold
  · refine ⟨⟨h.sound.valid, h.sound.live, h.sound.apart, h.sound.canceled, trivial⟩, h.covered, ?_⟩
    have hexclusive := h.exclusive.acquired (v := ()) (.inr hhold)
    rw [← hhold] at hexclusive
    exact hexclusive
  · exact ⟨h.sound.acquire counted hcurr, h.covered.acquire counted h.sound, takes.acquire h.exclusive t⟩

theorem Locked.unlock (h : Locked w) (hcareful : w.res = some t →
    World.Careful resource units w (.release ()) ∧ depth w.log t ≤ 1) : Locked (unlock w t) := by
  by_cases hhold : w.res = some t
  · obtain ⟨hguard, honce⟩ := hcareful hhold
    rw [unlock_eq hhold]
    refine ⟨h.sound.release counted _ _, Covered.release counted h.sound _ _ hguard, ?_⟩
    rw [← unlock_eq hhold, Mutex.unlock, if_pos hhold, wake_res, wake_log]
    exact Exclusive.released (hhold ▸ h.exclusive) honce
  · rw [Mutex.unlock, if_neg hhold]
    exact ⟨⟨h.sound.valid, h.sound.live, h.sound.apart, h.sound.canceled, trivial⟩, h.covered,
      h.exclusive.ignored hhold⟩

/-- A careful step keeps the holder alone inside. -/
theorem locked_step (w : World (Option RoutineToken) Unit) (input : Input Unit)
    (w' : World (Option RoutineToken) Unit) (h : Locked w) (hcareful : Careful w input)
    (hstep : step w input = some w') : Locked w' := by
  rcases step_cases hstep with ⟨t, hcurr, rfl⟩ | ⟨t, v, rfl, hcurr, rfl⟩ | ⟨hstep, hacquire, hrelease, hguard⟩
  · exact h.lock hcurr
  · exact h.unlock fun hhold => hcareful t hcurr hhold
  refine ⟨sound_step counted h.sound hstep, covered_step counted h.sound h.covered (hguard hcareful) hstep, ?_⟩
  rcases World.step_cases h.sound.valid hstep with ⟨sch, -, rfl⟩ | ⟨t, -, rfl⟩ | ⟨v, rfl, rfl⟩ |
    ⟨t, rfl, -, rfl⟩ | ⟨t, tmp, -, rfl⟩
  · exact h.exclusive
  · exact h.exclusive
  · exact absurd rfl (hrelease v)
  · exact absurd rfl hacquire
  · exact takes.switch h.exclusive t tmp

/-- The routine is inside the locked region. -/
def Inside (w : World (Option RoutineToken) Unit) (t : RoutineToken) : Prop := 0 < depth w.log t

/-- **At most one routine is inside, and nobody waits for a free mutex**, as long as the calls are careful. -/
theorem one_inside_and_none_waits (inputs : List (Input Unit)) (w : World (Option RoutineToken) Unit)
    (hcareful : Lib.Along step Careful { res := none } inputs)
    (hrun : Lib.run step { res := none } inputs = some w) :
    (∀ t u, Inside w t → Inside w u → t = u) ∧
    (w.Quiet → w.res = none → ∀ t, ¬(w.Waits t ∧ w.sch.isCanceled t = false)) := by
  have h := Lib.run_invariant locked_step locked_init hcareful hrun
  refine ⟨fun t u ht hu => ?_, fun hquiet hfree t hwaits => ?_⟩
  · exact Option.some.inj ((h.exclusive t ht).symm.trans (h.exclusive u hu))
  · have hnone := h.covered.front_eq_none counted h.sound hquiet hwaits.1
    rw [hfree] at hnone
    cases hnone

def handedOver : List (Input Unit) :=
  [.create true, .create true, .schedule, .switch, .acquire, .yield, .switch, .acquire, .schedule, .switch,
    .release (), .finish, .schedule, .switch, .release (), .finish]

theorem handedOver_one_inside_and_none_waits :
    ∃ w, Lib.run step { res := none } handedOver = some w ∧ w.Quiet ∧ w.res = none ∧
      (∀ t u, Inside w t → Inside w u → t = u) ∧ ∀ t, ¬(w.Waits t ∧ w.sch.isCanceled t = false) :=
  ⟨_, rfl, ⟨rfl, rfl, rfl⟩, rfl, (one_inside_and_none_waits handedOver _ (by decide +kernel) rfl).1,
    (one_inside_and_none_waits handedOver _ (by decide +kernel) rfl).2 ⟨rfl, rfl, rfl⟩ rfl⟩

def lockedTwice : List (Input Unit) :=
  [.create true, .create true, .schedule, .switch, .acquire, .acquire, .release (), .yield, .switch, .acquire]

def staleToken : List (Input Unit) :=
  [.create true, .create true, .create true, .schedule, .switch, .acquire, .yield, .switch, .acquire, .switch,
    .acquire, .cancel 1, .schedule, .switch, .yield, .switch, .finish, .schedule, .switch, .release (), .finish]

theorem two_inside_and_one_waits :
    (¬∀ (inputs : List (Input Unit)) (w : World (Option RoutineToken) Unit),
      Lib.run step { res := none } inputs = some w → ∀ t u, Inside w t → Inside w u → t = u) ∧
    ¬∀ (inputs : List (Input Unit)) (w : World (Option RoutineToken) Unit),
      Lib.run step { res := none } inputs = some w →
        w.Quiet → w.res = none → ∀ t, ¬(w.Waits t ∧ w.sch.isCanceled t = false) := by
  constructor
  · intro h
    exact absurd (h lockedTwice _ rfl 0 1 Nat.one_pos Nat.one_pos) (by decide)
  · intro h
    exact h staleToken _ rfl ⟨rfl, rfl, rfl⟩ rfl 2 ⟨⟨rfl, _, rfl, rfl⟩, rfl⟩

end Tbox.Coroutine.Mutex
