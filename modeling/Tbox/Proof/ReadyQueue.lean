import Tbox.Lib.ListFacts
import Tbox.Coroutine.Scheduler

/-!
# What the scheduler's calls leave alone

Whatever is called, no token is taken off the ready queue but by the switch to its routine, and a routine
that is ready has its token there.
-/

open List Option

namespace Tbox.Coroutine.Scheduler

open Function (update_self update_of_ne update)

variable {s s' s'' : Scheduler} {t u other : RoutineToken} {f : Routine → Routine} {routine : Routine}

structure Valid (s : Scheduler) : Prop where
  ready : ∀ t r, s.routineCabinet t = some r → r.state = .ready → t ∈ s.queue
  notDead : ∀ t r, s.routineCabinet t = some r → r.state ≠ .dead
  fresh : ∀ t, s.routineCabinet t ≠ none → t < s.allocated
  curr : ∀ t, s.currRoutine = some t → s.routineCabinet t ≠ none

structure Forth (s s' : Scheduler) : Prop where
  valid : s'.Valid
  queue : ∀ t ∈ s.queue, t ∈ s'.queue
  canceled : ∀ t, s.currRoutine ≠ some t → s'.isCanceled t = s.isCanceled t
  live : ∀ t, s.currRoutine ≠ some t → s.routineCabinet t ≠ none → s'.routineCabinet t ≠ none
  allocated : s.allocated ≤ s'.allocated
  curr : s'.currRoutine = s.currRoutine ∨ s'.currRoutine = none

theorem valid_init : Valid {} where
  ready _ _ h := nomatch h
  notDead _ _ h := nomatch h
  fresh _ h := absurd rfl h
  curr _ h := nomatch h

theorem Forth.refl (h : s.Valid) : Forth s s :=
  ⟨h, fun _ ht => ht, fun _ _ => rfl, fun _ _ ht => ht, le_rfl, .inl rfl⟩

theorem Forth.trans (h : Forth s s') (h' : Forth s' s'') : Forth s s'' := by
  have hcurr : ∀ t, s.currRoutine ≠ some t → s'.currRoutine ≠ some t := by
    intro t ht
    rcases h.curr with heq | heq <;> rw [heq]
    · exact ht
    · exact nofun
  refine ⟨h'.valid, fun t ht => h'.queue t (h.queue t ht), fun t ht => ?_, fun t ht hlive => ?_,
    h.allocated.trans h'.allocated, ?_⟩
  · rw [h'.canceled t (hcurr t ht), h.canceled t ht]
  · exact h'.live t (hcurr t ht) (h.live t ht hlive)
  rcases h'.curr with heq | heq
  · rw [heq]
    exact h.curr
  · exact .inr heq

theorem modify_self (s : Scheduler) (t : RoutineToken) (f : Routine → Routine) :
    (s.modify t f).routineCabinet t = (s.routineCabinet t).map f := update_self _ _ _

theorem modify_of_ne (s : Scheduler) (f : Routine → Routine) (h : u ≠ t) :
    (s.modify t f).routineCabinet u = s.routineCabinet u := update_of_ne h _ _

theorem modify_id (s : Scheduler) (t : RoutineToken) : (s.modify t id).routineCabinet = s.routineCabinet := by
  funext u
  by_cases hu : u = t
  · rw [hu, modify_self, Option.map_id, id]
  · rw [modify_of_ne _ _ hu]

theorem isCanceled_modify_of_ne (s : Scheduler) (f : Routine → Routine) (h : u ≠ t) :
    (s.modify t f).isCanceled u = s.isCanceled u := by
  rw [isCanceled, isCanceled, modify_of_ne s f h]

theorem isCanceled_modify (hf : ∀ r, (f r).isCanceled = r.isCanceled) :
    (s.modify t f).isCanceled u = s.isCanceled u := by
  by_cases h : u = t
  · subst h
    rw [isCanceled, isCanceled, modify_self]
    cases s.routineCabinet u with
    | none => rfl
    | some r => exact hf r
  · exact isCanceled_modify_of_ne s f h

theorem modify_ne_none (s : Scheduler) (t : RoutineToken) (f : Routine → Routine) :
    (s.modify t f).routineCabinet u ≠ none ↔ s.routineCabinet u ≠ none := by
  by_cases h : u = t
  · subst h
    rw [modify_self, ne_eq, map_eq_none_iff]
  · rw [modify_of_ne s f h]

theorem Valid.modify (h : s.Valid) (s' : Scheduler) (hcabinet : s'.routineCabinet = (s.modify t f).routineCabinet)
    (hallocated : s'.allocated = s.allocated) (hqueue : ∀ u ∈ s.queue, u ∈ s'.queue)
    (hcurr : ∀ u, s'.currRoutine = some u → s.routineCabinet u ≠ none)
    (hready : ∀ r, s.routineCabinet t = some r → (f r).state = .ready → t ∈ s'.queue)
    (hdead : ∀ r, s.routineCabinet t = some r → (f r).state ≠ .dead) : s'.Valid := by
  refine ⟨fun u r hu => ?_, fun u r hu => ?_, fun u hu => ?_, fun u hu => ?_⟩
  · rw [hcabinet] at hu
    by_cases hut : u = t
    · subst hut
      rw [modify_self, map_eq_some_iff] at hu
      obtain ⟨r, hr, rfl⟩ := hu
      exact hready r hr
    · rw [modify_of_ne s f hut] at hu
      exact fun hstate => hqueue u (h.ready u r hu hstate)
  · rw [hcabinet] at hu
    by_cases hut : u = t
    · subst hut
      rw [modify_self, map_eq_some_iff] at hu
      obtain ⟨r, hr, rfl⟩ := hu
      exact hdead r hr
    · rw [modify_of_ne s f hut] at hu
      exact h.notDead u r hu
  · rw [hcabinet, modify_ne_none] at hu
    rw [hallocated]
    exact h.fresh u hu
  · rw [hcabinet, modify_ne_none]
    exact hcurr u hu

theorem Valid.forth_modify (h : s.Valid) (s' : Scheduler)
    (hcabinet : s'.routineCabinet = (s.modify t f).routineCabinet) (hallocated : s'.allocated = s.allocated)
    (hqueue : ∀ u ∈ s.queue, u ∈ s'.queue) (hcurr : s'.currRoutine = s.currRoutine ∨ s'.currRoutine = none)
    (hcanceled : ∀ r, (f r).isCanceled = r.isCanceled)
    (hready : ∀ r, s.routineCabinet t = some r → (f r).state = .ready → t ∈ s'.queue)
    (hdead : ∀ r, s.routineCabinet t = some r → (f r).state ≠ .dead) : Forth s s' := by
  refine ⟨h.modify s' hcabinet hallocated hqueue (fun u hu => ?_) hready hdead, hqueue, fun u _ => ?_,
    fun u _ hu => ?_, hallocated.ge, hcurr⟩
  · rcases hcurr with heq | heq <;> rw [heq] at hu
    · exact h.curr u hu
    · cases hu
  · rw [isCanceled, hcabinet]
    exact isCanceled_modify hcanceled
  · rw [hcabinet, modify_ne_none]
    exact hu

/-- Making a routine ready takes nobody out of the queue. -/
theorem Valid.forth_makeRoutineReady (h : s.Valid) (t : RoutineToken) (routine : Routine) :
    Forth s (s.makeRoutineReady t routine) := by
  rw [makeRoutineReady]
  split_ifs
  · exact Forth.refl h
  have hqueue : ∀ u, u ∈ s.readyRoutines ++ [t] ++ s.tmp ↔ u ∈ s.queue ∨ u = t := by
    intro u
    rw [queue]
    simp only [mem_append, mem_singleton]
    tauto
  refine h.forth_modify _ rfl rfl (fun u hu => (hqueue u).mpr (.inl hu)) (.inl rfl) (fun _ => rfl)
    (fun _ _ _ => (hqueue t).mpr (.inr rfl)) fun _ _ => nofun

theorem mem_makeRoutineReady (hready : routine.state = .ready → t ∈ s.queue)
    (hdead : routine.state ≠ .dead) : t ∈ (s.makeRoutineReady t routine).queue := by
  rw [makeRoutineReady]
  split_ifs with hstate
  · exact hready (hstate.resolve_right hdead)
  · exact mem_append_left _ (mem_append_right _ (mem_singleton_self t))

theorem Valid.forth_resume (h : s.Valid) (t : RoutineToken) : Forth s (s.resume t) := by
  rw [resume]
  split
  · exact h.forth_makeRoutineReady t _
  · exact Forth.refl h

theorem Valid.mem_resume (h : s.Valid) (hlive : s.routineCabinet t ≠ none) : t ∈ (s.resume t).queue := by
  obtain ⟨routine, hroutine⟩ := ne_none_iff_exists'.mp hlive
  rw [resume, hroutine]
  exact mem_makeRoutineReady (h.ready t routine hroutine) (h.notDead t routine hroutine)

theorem Valid.forth_insert (h : s.Valid) (s' : Scheduler)
    (hcabinet : s'.routineCabinet = update s.routineCabinet s.allocated (some {}))
    (hallocated : s'.allocated = s.allocated + 1) (hqueue : s'.queue = s.queue)
    (hcurr : s'.currRoutine = s.currRoutine) : Forth s s' := by
  have hnone : s.routineCabinet s.allocated = none := by
    by_contra hne
    exact lt_irrefl _ (h.fresh s.allocated hne)
  have hself : s'.routineCabinet s.allocated = some {} := by
    rw [hcabinet, update_self]
  have hof_ne : ∀ u, u ≠ s.allocated → s'.routineCabinet u = s.routineCabinet u := by
    intro u hu
    rw [hcabinet, update_of_ne hu]
  have hlive : ∀ u, s.routineCabinet u ≠ none → s'.routineCabinet u ≠ none := by
    intro u hu
    rw [hof_ne u]
    · exact hu
    · rintro rfl
      exact hu hnone
  refine ⟨⟨fun u r hu => ?_, fun u r hu => ?_, fun u hu => ?_, fun u hu => hlive u (h.curr u (hcurr ▸ hu))⟩,
    fun _ hu => hqueue.symm ▸ hu, fun u _ => ?_, fun u _ => hlive u, ?_, .inl hcurr⟩
  · by_cases hut : u = s.allocated
    · rw [hut, hself] at hu
      cases hu
      exact nofun
    · rw [hof_ne u hut] at hu
      exact hqueue.symm ▸ h.ready u r hu
  · by_cases hut : u = s.allocated
    · rw [hut, hself] at hu
      cases hu
      exact nofun
    · rw [hof_ne u hut] at hu
      exact h.notDead u r hu
  · rw [hallocated]
    by_cases hut : u = s.allocated
    · exact hut ▸ Nat.lt_succ_self _
    · rw [hof_ne u hut] at hu
      exact (h.fresh u hu).trans (Nat.lt_succ_self _)
  · rw [isCanceled, isCanceled]
    by_cases hut : u = s.allocated
    · rw [hut, hself, hnone]
      rfl
    · rw [hof_ne u hut]
  · rw [hallocated]
    exact Nat.le_succ _

theorem Valid.forth_create (h : s.Valid) (runNow : Bool) : Forth s (s.create runNow) := by
  have hcreated : Forth s { s with
      routineCabinet := update s.routineCabinet s.allocated (some {})
      allocated := s.allocated + 1 } := h.forth_insert _ rfl rfl rfl rfl
  rw [create]
  split_ifs
  · exact hcreated.trans (hcreated.valid.forth_makeRoutineReady _ _)
  · exact hcreated

theorem Valid.forth_suspend (h : s.Valid) (t : RoutineToken) : Forth s (s.suspend t) :=
  h.forth_modify _ rfl rfl (fun _ hu => hu) (.inr rfl) (fun _ => rfl) (fun _ _ => nofun) fun _ _ => nofun

theorem Valid.forth_wait (h : s.Valid) (t : RoutineToken) : Forth s (s.wait t) := by
  rw [wait]
  split_ifs
  · exact Forth.refl h
  · exact h.forth_suspend t

theorem Valid.forth_main (h : s.Valid) : Forth s { s with currRoutine := none } :=
  ⟨{ h with curr := nofun }, fun _ hu => hu, fun _ _ => rfl, fun _ _ hu => hu, le_rfl, .inr rfl⟩

theorem Valid.forth_yield (h : s.Valid) (t : RoutineToken) : Forth s (s.yield t) := by
  rw [yield]
  split_ifs
  · exact Forth.refl h
  · exact (h.forth_resume t).trans (h.forth_resume t).valid.forth_main

theorem Valid.forth_join (h : s.Valid) (t other : RoutineToken) : Forth s (s.join t other) := by
  rw [join]
  split_ifs
  · exact Forth.refl h
  split
  · exact Forth.refl h
  split_ifs
  · exact Forth.refl h
  have hjoined : Forth s (s.modify other fun r => { r with joinToken := some t }) :=
    h.forth_modify _ rfl rfl (fun _ hu => hu) (.inl rfl) (fun _ => rfl)
      (fun r hr hready => h.ready other r hr hready) fun r hr => h.notDead other r hr
  exact hjoined.trans (hjoined.valid.forth_suspend t)

theorem Valid.forth_finish (h : s.Valid) (hcurr : s.currRoutine = some t) : Forth s (s.finish t) := by
  have hof_ne : ∀ u, u ≠ t → update s.routineCabinet t none u = s.routineCabinet u := fun u hu => update_of_ne hu _ _
  have hother : ∀ u, s.currRoutine ≠ some u → u ≠ t := by
    rintro u hu rfl
    exact hu hcurr
  have hold : ∀ u, update s.routineCabinet t none u ≠ none → u ≠ t := by
    rintro u hu rfl
    exact hu (update_self _ _ _)
  have hgone : Forth s { s with
      routineCabinet := update s.routineCabinet t none, currRoutine := none } := by
    refine ⟨⟨fun u r hu => ?_, fun u r hu => ?_, fun u hu => ?_, nofun⟩, fun _ hu => hu, fun u hu => ?_,
      fun u hu hlive => ?_, le_rfl, .inr rfl⟩
    · dsimp only at hu
      rw [hof_ne u (hold u (by rw [hu]; exact nofun))] at hu
      exact h.ready u r hu
    · dsimp only at hu
      rw [hof_ne u (hold u (by rw [hu]; exact nofun))] at hu
      exact h.notDead u r hu
    · have hne := hold u hu
      dsimp only at hu
      rw [hof_ne u hne] at hu
      exact h.fresh u hu
    · rw [isCanceled, isCanceled]
      dsimp only
      rw [hof_ne u (hother u hu)]
    · dsimp only
      rw [hof_ne u (hother u hu)]
      exact hlive
  rw [finish]
  split
  · exact hgone.trans (hgone.valid.forth_resume _)
  · exact hgone

theorem Valid.forth_schedule (h : s.Valid) (htmp : s.tmp = []) : Forth s s.schedule := by
  have hqueue : s.schedule.queue = s.queue := by
    rw [queue, queue, schedule, htmp, append_nil, nil_append]
  refine ⟨⟨?_, h.notDead, h.fresh, h.curr⟩, fun u hu => ?_, fun _ _ => rfl, fun _ _ hu => hu, le_rfl, .inl rfl⟩
  · rw [hqueue]
    exact h.ready
  · rw [hqueue]
    exact hu

/-- What a call of `cancel` comes to: the routine is on the queue, and the others are as they were. -/
structure Marked (s : Scheduler) (t : RoutineToken) (s' : Scheduler) : Prop where
  valid : s'.Valid
  queue : ∀ u ∈ s.queue, u ∈ s'.queue
  canceled : ∀ u, u ≠ t → s'.isCanceled u = s.isCanceled u
  live : ∀ u, s.routineCabinet u ≠ none → s'.routineCabinet u ≠ none
  allocated : s'.allocated = s.allocated
  curr : s'.currRoutine = s.currRoutine
  mem : s.routineCabinet t ≠ none → t ∈ s'.queue

theorem makeRoutineReady_allocated (s : Scheduler) (t : RoutineToken) (routine : Routine) :
    (s.makeRoutineReady t routine).allocated = s.allocated := by
  rw [makeRoutineReady]
  split_ifs <;> rfl

theorem makeRoutineReady_currRoutine (s : Scheduler) (t : RoutineToken) (routine : Routine) :
    (s.makeRoutineReady t routine).currRoutine = s.currRoutine := by
  rw [makeRoutineReady]
  split_ifs <;> rfl

theorem makeRoutineReady_cabinet_ne_none (s : Scheduler) (t : RoutineToken) (routine : Routine)
    (hu : s.routineCabinet u ≠ none) : (s.makeRoutineReady t routine).routineCabinet u ≠ none := by
  rw [makeRoutineReady]
  split_ifs
  · exact hu
  · exact (modify_ne_none s t _).mpr hu

theorem makeRoutineReady_isCanceled (s : Scheduler) (t : RoutineToken) (routine : Routine) :
    (s.makeRoutineReady t routine).isCanceled u = s.isCanceled u := by
  rw [makeRoutineReady]
  split_ifs
  · rfl
  · exact isCanceled_modify fun _ => rfl

theorem Valid.marked (h : s.Valid) (t : RoutineToken) : Marked s t (s.cancel t) := by
  rw [cancel]
  split
  · next routine hroutine =>
      have hmarked : (s.modify t fun r => { r with isCanceled := true }).Valid :=
        h.modify _ rfl rfl (fun _ hu => hu) h.curr (fun r hr => h.ready t r hr) fun r hr => h.notDead t r hr
      have hready := hmarked.forth_makeRoutineReady t routine
      refine ⟨hready.valid, hready.queue, fun u hu => ?_, fun u hu => ?_, ?_, ?_, fun _ => ?_⟩
      · rw [makeRoutineReady_isCanceled, isCanceled_modify_of_ne s _ hu]
      · exact makeRoutineReady_cabinet_ne_none _ t routine ((modify_ne_none s t _).mpr hu)
      · exact makeRoutineReady_allocated _ t routine
      · exact makeRoutineReady_currRoutine _ t routine
      · exact mem_makeRoutineReady (h.ready t routine hroutine) (h.notDead t routine hroutine)
  · next hnone =>
      exact ⟨h, fun _ hu => hu, fun _ _ => rfl, fun _ hu => hu, rfl, rfl, fun hlive => absurd hnone hlive⟩

theorem mem_queue_of_ne {tmp : List RoutineToken} (htmp : s.tmp = t :: tmp) (hu : u ∈ s.queue) (hut : u ≠ t) :
    u ∈ ({ s with tmp } : Scheduler).queue := by
  rw [queue, htmp, mem_append, mem_cons] at hu
  rw [queue, mem_append]
  exact hu.imp_right fun hu => hu.resolve_left hut

theorem Valid.skip (h : s.Valid) (tmp : List RoutineToken) (htmp : s.tmp = t :: tmp)
    (hnone : s.routineCabinet t = none) : ({ s with tmp } : Scheduler).Valid := by
  refine ⟨fun u r hu hready => mem_queue_of_ne htmp (h.ready u r hu hready) ?_, h.notDead, h.fresh, h.curr⟩
  rintro rfl
  exact absurd (hu.symm.trans hnone) nofun

theorem Valid.switchToRoutine (h : s.Valid) (t : RoutineToken) (tmp : List RoutineToken)
    (htmp : s.tmp = t :: tmp) (hlive : s.routineCabinet t ≠ none) :
    (({ s with tmp } : Scheduler).switchToRoutine t).Valid := by
  refine ⟨fun u r hu hready => ?_, fun u r hu => ?_, fun u hu => ?_, fun u hu => ?_⟩
  · by_cases hut : u = t
    · subst hut
      change (Scheduler.modify _ u _).routineCabinet u = some r at hu
      rw [modify_self, map_eq_some_iff] at hu
      obtain ⟨r, -, rfl⟩ := hu
      cases hready
    · change (Scheduler.modify _ t _).routineCabinet u = some r at hu
      rw [modify_of_ne _ _ hut] at hu
      have hmem : u ∈ ({ s with tmp } : Scheduler).queue := mem_queue_of_ne htmp (h.ready u r hu hready) hut
      exact hmem
  · by_cases hut : u = t
    · subst hut
      change (Scheduler.modify _ u _).routineCabinet u = some r at hu
      rw [modify_self, map_eq_some_iff] at hu
      obtain ⟨r, -, rfl⟩ := hu
      exact nofun
    · change (Scheduler.modify _ t _).routineCabinet u = some r at hu
      rw [modify_of_ne _ _ hut] at hu
      exact h.notDead u r hu
  · exact h.fresh u ((modify_ne_none _ t _).mp hu)
  · refine (modify_ne_none _ t _).mpr ?_
    rw [← some.inj hu]
    exact hlive

end Tbox.Coroutine.Scheduler
