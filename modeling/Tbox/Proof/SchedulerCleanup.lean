import Tbox.Coroutine.Cleanup
import Tbox.Proof.FaithfulResumption

/-!
# What is left when a scheduler has been cleaned up

A routine that is cancelled keeps its turn to its end, so one round of the second loop of `cleanup` is enough, if the
routines create no others. What they leave in the ready queue opens nothing until its token is given again.
-/

open List
open Option (map_eq_some_iff ite_some_none_eq_some ne_none_iff_exists' map_eq_none_iff)

namespace Tbox.Coroutine

open Cabinet (Token Raw)

open Lib (run Along)

open Function (update_self update_of_ne update)

variable {V : Type} {n m : RoutineToken} {r : Routine} {token : Token}

namespace Resumption

/-- A call makes no routine and ends none, and puts what it makes ready at the end of the queue. -/
structure Quiet (w w' : World V) : Prop where
  cabinet : w'.cabinet = w.cabinet
  tokens : w'.tokens = w.tokens
  allocated : w'.sch.allocated = w.sch.allocated
  started : ∀ n, (w'.sch.routineCabinet n).map Routine.isStarted = (w.sch.routineCabinet n).map Routine.isStarted
  canceled : ∀ n, w.sch.isCanceled n = true → w'.sch.isCanceled n = true
  curr : w'.sch.currRoutine = w.sch.currRoutine ∨
    w'.sch.currRoutine = none ∧ ∀ n, w.sch.currRoutine = some n → w.sch.isCanceled n = false
  pushed : w.pushed ≤ w'.pushed
  entries : ∃ more, w'.entries = w.entries ++ more ∧
    ∀ e ∈ more, w.sch.routineCabinet e.made ≠ none ∧ w.pushed ≤ e.no ∧ e.no < w'.pushed
  log : ∃ more, w'.log = w.log ++ more ∧ ∀ event ∈ more, event.entryNo = none

variable {w w' w'' : World V}

theorem Quiet.live_iff (h : Quiet w w') (n : RoutineToken) :
    w'.sch.routineCabinet n ≠ none ↔ w.sch.routineCabinet n ≠ none := by
  rw [ne_eq, ne_eq, ← map_eq_none_iff (f := Routine.isStarted), h.started n, map_eq_none_iff]

theorem Quiet.trans (h : Quiet w w') (h' : Quiet w' w'') : Quiet w w'' := by
  obtain ⟨more, hentries, hmore⟩ := h.entries
  obtain ⟨more', hentries', hmore'⟩ := h'.entries
  obtain ⟨logged, hlog, hlogged⟩ := h.log
  obtain ⟨logged', hlog', hlogged'⟩ := h'.log
  refine ⟨h'.cabinet.trans h.cabinet, h'.tokens.trans h.tokens, h'.allocated.trans h.allocated,
    fun n => (h'.started n).trans (h.started n), fun n hn => h'.canceled n (h.canceled n hn), ?_,
    h.pushed.trans h'.pushed, ⟨more ++ more', ?_, ?_⟩, ⟨logged ++ logged', ?_, ?_⟩⟩
  · obtain hcurr | ⟨hnone, hnot⟩ := h'.curr
    · rw [hcurr]
      exact h.curr
    refine .inr ⟨hnone, fun n hn => ?_⟩
    obtain hsame | ⟨-, hgoes⟩ := h.curr
    · by_contra hcanceled
      have hcanceled' := h.canceled n (Bool.not_eq_false _ ▸ hcanceled)
      exact absurd ((hnot n (hsame.trans hn)).symm.trans hcanceled') nofun
    · exact hgoes n hn
  · rw [hentries', hentries, append_assoc]
  · intro e he
    obtain he | he := mem_append.mp he
    · obtain ⟨hlive, hfrom, hto⟩ := hmore e he
      exact ⟨hlive, hfrom, hto.trans_le h'.pushed⟩
    · obtain ⟨hlive, hfrom, hto⟩ := hmore' e he
      exact ⟨(h.live_iff _).mp hlive, h.pushed.trans hfrom, hto⟩
  · rw [hlog', hlog, append_assoc]
  intro event hevent
  obtain hevent | hevent := mem_append.mp hevent
  · exact hlogged event hevent
  · exact hlogged' event hevent

theorem Quiet.of_sch (sch : Scheduler) (hallocated : sch.allocated = w.sch.allocated)
    (hstarted : ∀ n, (sch.routineCabinet n).map Routine.isStarted = (w.sch.routineCabinet n).map Routine.isStarted)
    (hcanceled : ∀ n, w.sch.isCanceled n = true → sch.isCanceled n = true)
    (hcurr : sch.currRoutine = w.sch.currRoutine ∨
      sch.currRoutine = none ∧ ∀ n, w.sch.currRoutine = some n → w.sch.isCanceled n = false)
    (stand : RoutineToken → Stand V) (conditions : ConditionId → Condition V) (more : List (Event V))
    (hmore : ∀ event ∈ more, event.entryNo = none) :
    Quiet w { w with sch := sch, stand := stand, conditions := conditions, log := w.log ++ more } :=
  ⟨rfl, rfl, hallocated, hstarted, hcanceled, hcurr, le_rfl, ⟨[], (append_nil _).symm, nofun⟩, ⟨more, rfl, hmore⟩⟩

theorem map_isStarted_modify (s : Scheduler) {f : Routine → Routine} (hf : ∀ r, (f r).isStarted = r.isStarted)
    (n m : RoutineToken) :
    ((s.modify n f).routineCabinet m).map Routine.isStarted = (s.routineCabinet m).map Routine.isStarted := by
  by_cases hm : m = n
  · rw [hm, Scheduler.modify_self, Option.map_map]
    exact congrArg (fun g => (s.routineCabinet n).map g) (funext hf)
  · rw [Scheduler.modify_of_ne _ _ hm]

theorem isCanceled_modify_mono (s : Scheduler) {f : Routine → Routine}
    (hf : ∀ r : Routine, r.isCanceled = true → (f r).isCanceled = true) (n m : RoutineToken)
    (hm : s.isCanceled m = true) : (s.modify n f).isCanceled m = true := by
  rw [Scheduler.isCanceled] at hm ⊢
  by_cases heq : m = n
  · obtain ⟨r, hr, hcanceled⟩ := (Option.any_eq_true _ _).mp hm
    rw [heq] at hr ⊢
    rw [Scheduler.modify_self, hr]
    exact hf r hcanceled
  · rw [Scheduler.modify_of_ne _ _ heq]
    exact hm

theorem Quiet.refl (w : World V) : Quiet w w :=
  ⟨rfl, rfl, rfl, fun _ => rfl, fun _ h => h, .inl rfl, le_rfl, ⟨[], (append_nil _).symm, nofun⟩,
    ⟨[], (append_nil _).symm, nofun⟩⟩

theorem quiet_makeRoutineReady (w : World V) (hr : w.sch.routineCabinet n = some r) (r' : Routine) (cause : Cause) :
    Quiet w (w.call (w.sch.makeRoutineReady n r') cause) := by
  rw [Scheduler.makeRoutineReady]
  split_ifs
  · rw [World.call_eq_of_eq rfl]
    exact .refl w
  rw [World.call_eq_of_push rfl]
  refine ⟨rfl, rfl, rfl, map_isStarted_modify w.sch (f := fun r => { r with state := .ready }) (fun _ => rfl) n,
    isCanceled_modify_mono w.sch (f := fun r => { r with state := .ready }) (fun _ h => h) n, .inl rfl, Nat.le_succ _,
    ⟨_, rfl, ?_⟩, ⟨[], (append_nil _).symm, (by simp)⟩⟩
  intro e he
  rw [mem_singleton.mp he, hr]
  exact ⟨(by simp), le_rfl, Nat.lt_succ_self _⟩

theorem quiet_resume (w : World V) (n : RoutineToken) (cause : Cause) : Quiet w (w.call (w.sch.resume n) cause) := by
  rw [Scheduler.resume]
  split
  · next r hr => exact quiet_makeRoutineReady w hr r cause
  · rw [World.call_eq_of_eq rfl]
    exact .refl w

theorem quiet_markCanceled (w : World V) (n : RoutineToken) :
    Quiet w { w with sch := w.sch.modify n fun r => { r with isCanceled := true } } := by
  have hquiet := Quiet.of_sch (w := w) (w.sch.modify n fun r => { r with isCanceled := true }) rfl
    (map_isStarted_modify w.sch (f := fun r => { r with isCanceled := true }) (fun _ => rfl) n)
    (isCanceled_modify_mono w.sch (f := fun r => { r with isCanceled := true }) (fun _ _ => rfl) n) (.inl rfl)
    w.stand w.conditions [] nofun
  rw [append_nil] at hquiet
  exact hquiet

theorem quiet_cancel (w : World V) (n : RoutineToken) : Quiet w (w.call (w.sch.cancel n) .cancel) := by
  rw [Scheduler.cancel]
  split
  · next r hr =>
      have hr' : (w.sch.modify n fun r => { r with isCanceled := true }).routineCabinet n =
          some { r with isCanceled := true } := by
        rw [Scheduler.modify_self, hr]
        rfl
      exact (quiet_markCanceled w n).trans (quiet_makeRoutineReady _ hr' r .cancel)
  · rw [World.call_eq_of_eq rfl]
    exact .refl w

theorem goes_of_curr (hcurr : w.sch.currRoutine = some n) (hcanceled : ¬w.sch.isCanceled n = true) :
    ∀ m, w.sch.currRoutine = some m → w.sch.isCanceled m = false := by
  intro m hm
  cases hcurr.symm.trans hm
  exact Bool.eq_false_of_not_eq_true hcanceled

theorem quiet_suspend (hcurr : w.sch.currRoutine = some n) (hcanceled : ¬w.sch.isCanceled n = true)
    (stand : RoutineToken → Stand V) (conditions : ConditionId → Condition V) :
    Quiet w { w with sch := w.sch.suspend n, stand := stand, conditions := conditions } := by
  have hquiet := Quiet.of_sch (w := w) (w.sch.suspend n) rfl
    (map_isStarted_modify w.sch (f := fun r => { r with state := .suspend }) (fun _ => rfl) n)
    (isCanceled_modify_mono w.sch (f := fun r => { r with state := .suspend }) (fun _ h => h) n)
    (.inr ⟨rfl, goes_of_curr hcurr hcanceled⟩) stand conditions [] nofun
  rw [append_nil] at hquiet
  exact hquiet

theorem Quiet.of_log (w : World V) (stand : RoutineToken → Stand V) (conditions : ConditionId → Condition V)
    (more : List (Event V)) (hmore : ∀ event ∈ more, event.entryNo = none) :
    Quiet w { w with stand := stand, conditions := conditions, log := w.log ++ more } :=
  .of_sch w.sch rfl (fun _ => rfl) (fun _ h => h) (.inl rfl) stand conditions more hmore

theorem quiet_setCondition (w : World V) (c : ConditionId) (condition : Condition V) :
    Quiet w (w.setCondition c condition) := by
  have hquiet := Quiet.of_log w w.stand (update w.conditions c condition) [] nofun
  rw [append_nil] at hquiet
  exact hquiet

theorem quiet_setStand (w : World V) (n : RoutineToken) (stand : Stand V) : Quiet w (w.setStand n stand) := by
  have hquiet := Quiet.of_log w (update w.stand n stand) w.conditions [] nofun
  rw [append_nil] at hquiet
  exact hquiet

theorem quiet_wait (hcurr : w.sch.currRoutine = some n) : Quiet w (w.wait n) := by
  rw [World.wait, Scheduler.wait]
  split_ifs with hcanceled
  · exact .refl w
  · exact quiet_suspend hcurr hcanceled _ w.conditions

theorem quiet_yield (hcurr : w.sch.currRoutine = some n) : Quiet w (w.yield n) := by
  rw [World.yield, Scheduler.yield]
  split_ifs with hcanceled
  · exact .refl w
  · have hready := (quiet_setStand w n .yielded).trans (quiet_resume (w.setStand n .yielded) n .yield)
    exact { hready with curr := .inr ⟨rfl, goes_of_curr hcurr hcanceled⟩ }

theorem quiet_join (hcurr : w.sch.currRoutine = some n) (token : Token) : Quiet w (w.join n token) := by
  rw [World.join]
  split_ifs with hcanceled
  · exact .of_log w w.stand w.conditions _ fun event hevent => by rw [mem_singleton.mp hevent]; rfl
  split
  · next key hkey =>
      rw [Scheduler.join, if_neg hcanceled]
      split
      · exact quiet_setStand w n _
      split_ifs
      · exact quiet_setStand w n _
      have hmark := Quiet.of_sch (w := w) (w.sch.modify key fun r => { r with joinToken := some n }) rfl
        (map_isStarted_modify w.sch (f := fun r => { r with joinToken := some n }) (fun _ => rfl) key)
        (isCanceled_modify_mono w.sch (f := fun r => { r with joinToken := some n }) (fun _ h => h) key) (.inl rfl)
        w.stand w.conditions [] (by simp)
      rw [append_nil] at hmark
      have hcanceled' : ¬(w.sch.modify key fun r => { r with joinToken := some n }).isCanceled n = true := by
        rw [Scheduler.isCanceled_modify (f := fun r => { r with joinToken := some n }) fun _ => rfl]
        exact hcanceled
      exact hmark.trans (quiet_suspend
        (w := { w with sch := w.sch.modify key fun r => { r with joinToken := some n } })
        hcurr hcanceled' _ w.conditions)
  · exact .of_log w w.stand w.conditions _ fun event hevent => by rw [mem_singleton.mp hevent]; rfl

theorem quiet_leaveCondition (w : World V) (n : RoutineToken) (c : ConditionId) (met : Option (List (Call V))) :
    Quiet w (w.leaveCondition n c met) :=
  (quiet_setCondition w c _).trans
    (.of_log _ _ _ _ fun event hevent => by rw [mem_singleton.mp hevent]; rfl)

variable [DecidableEq V]

theorem quiet_post (w : World V) (c : ConditionId) (v : V) : Quiet w (w.post c v) := by
  rw [World.post]
  have hset := quiet_setCondition w c ((w.conditions c).post v)
  split_ifs
  · have hmeet : Quiet (w.setCondition c ((w.conditions c).post v)) ((w.setCondition c ((w.conditions c).post v)).meet c
        (w.conditions c).waitToken ((w.conditions c).calls ++ [.post v])) := by
      rw [World.meet]
      split
      · split_ifs
        · exact quiet_setStand _ _ _
        · exact .refl _
      · exact .refl _
    refine hset.trans (hmeet.trans ?_)
    rw [World.resume]
    split
    · exact quiet_resume _ _ _
    · exact .refl _
  · exact hset

theorem quiet_waitCondition (hcurr : w.sch.currRoutine = some n) (c : ConditionId) : Quiet w (w.waitCondition n c) := by
  rw [World.waitCondition]
  by_cases haccepts : (w.conditions c).accepts = true
  · rw [if_pos haccepts]
    dsimp only
    split_ifs with hcanceled
    · exact (quiet_setCondition w c _).trans (quiet_leaveCondition _ n c none)
    · rw [Scheduler.wait, if_neg hcanceled]
      exact quiet_suspend hcurr hcanceled _ _
  · rw [if_neg haccepts]
    exact .of_log w w.stand w.conditions _ fun event hevent => by rw [mem_singleton.mp hevent]; rfl

theorem quiet_step {a : Action V} (hcall : a.isCall = true) (hcreate : a.isCreate = false)
    (hstep : w.step a = some w') : Quiet w w' := by
  cases a with
  | create runNow => cases hcreate
  | resume token =>
    obtain ⟨-, rfl⟩ := ite_some_none_eq_some.mp hstep
    rw [World.resume]
    split
    · exact quiet_resume w _ _
    · exact .refl w
  | cancel token =>
    obtain ⟨-, rfl⟩ := ite_some_none_eq_some.mp hstep
    rw [World.cancel]
    split
    · exact quiet_cancel w _
    · exact .refl w
  | wait =>
    obtain ⟨n, hcurr, rfl⟩ := map_eq_some_iff.mp hstep
    exact quiet_wait hcurr
  | yield =>
    obtain ⟨n, hcurr, rfl⟩ := map_eq_some_iff.mp hstep
    exact quiet_yield hcurr
  | join token =>
    obtain ⟨n, hcurr, rfl⟩ := map_eq_some_iff.mp hstep
    exact quiet_join hcurr token
  | add c v =>
    obtain ⟨-, rfl⟩ := ite_some_none_eq_some.mp hstep
    exact quiet_setCondition w c _
  | post c v =>
    obtain ⟨-, rfl⟩ := ite_some_none_eq_some.mp hstep
    exact quiet_post w c v
  | waitCondition c =>
    obtain ⟨n, hcurr, rfl⟩ := map_eq_some_iff.mp hstep
    exact quiet_waitCondition hcurr c
  | finish | schedule | switch | cleanup | cleaned => cases hcall
  | cleanSwitch n => cases hcall

theorem quiet_goOn {turn : Turn V} (hturn : ∀ call ∈ turn, call.val.isCreate = false)
    (hcurr : w.sch.currRoutine = some n) (hcanceled : w.sch.isCanceled n = true) :
    Quiet w (Cleanup.goOn w turn) ∧ (Cleanup.goOn w turn).sch.currRoutine = some n := by
  induction turn generalizing w with
  | nil => exact ⟨.refl w, hcurr⟩
  | cons call turn ih =>
    obtain ⟨hfirst, hrest⟩ := forall_mem_cons.mp hturn
    rw [Cleanup.goOn, if_pos (by rw [hcurr]; rfl)]
    have hquiet : Quiet w ((w.step call.val).getD w) := by
      cases hstep : w.step call.val with
      | none => exact .refl w
      | some w' => exact quiet_step call.property hfirst hstep
    have hcurr' : ((w.step call.val).getD w).sch.currRoutine = some n := by
      obtain hsame | ⟨-, hgoes⟩ := hquiet.curr
      · exact hsame.trans hcurr
      · exact absurd ((hgoes n hcurr).symm.trans hcanceled) nofun
    obtain ⟨hlater, hlast⟩ := ih hrest hcurr' (hquiet.canceled n hcanceled)
    exact ⟨hquiet.trans hlater, hlast⟩

/-- No new routine is given a token that is in the ready queue from before the entry of that number. -/
def Fresh (p : Nat) (w : World V) : Action V → Prop
  | .create _ => ∀ e ∈ w.entries, e.no < p → w.tokens e.made ≠ (w.cabinet.alloc (some w.sch.allocated)).1
  | _ => True

/-- The entries from before that number open nothing, and have switched to nobody since that past. -/
structure Shut (p : Nat) (past : List (Event V)) (w : World V) : Prop extends w.Registered where
  made : ∀ e ∈ w.entries, e.made < w.sch.allocated
  numbered : ∀ e ∈ w.entries, e.no < w.pushed
  current : ∀ n, w.sch.currRoutine = some n → w.sch.routineCabinet n ≠ none
  opens : ∀ e ∈ w.entries, e.no < p → ∀ n, w.sch.routineCabinet n ≠ none → w.tokens n ≠ w.tokens e.made
  later : p ≤ w.pushed
  log : ∃ more, w.log = past ++ more ∧ ∀ event ∈ more, ∀ no ∈ event.entryNo, p ≤ no

variable {p : Nat} {past : List (Event V)}

omit [DecidableEq V] in
theorem Shut.quiet (h : Shut p past w) (hquiet : Quiet w w') : Shut p past w' := by
  obtain ⟨more, hentries, hmore⟩ := hquiet.entries
  obtain ⟨logged, hlog, hlogged⟩ := hquiet.log
  obtain ⟨before, hbefore, hpast⟩ := h.log
  refine ⟨⟨fun n hn => ?_, fun token obj hobj => ?_, fun n hn => ?_⟩, fun e he => ?_, fun e he => ?_, fun n hn => ?_,
    fun e he hno n hn => ?_, h.later.trans hquiet.pushed, ⟨before ++ logged, ?_, ?_⟩⟩
  · rw [hquiet.cabinet, hquiet.tokens]
    exact h.view n ((hquiet.live_iff n).mp hn)
  · rw [hquiet.cabinet] at hobj
    obtain ⟨n, rfl, htoken, hlive⟩ := h.stored token obj hobj
    exact ⟨n, rfl, by rw [hquiet.tokens]; exact htoken, (hquiet.live_iff n).mpr hlive⟩
  · rw [hquiet.allocated]
    exact h.fresh n ((hquiet.live_iff n).mp hn)
  · rw [hquiet.allocated]
    rw [hentries] at he
    obtain he | he := mem_append.mp he
    · exact h.made e he
    · exact h.fresh _ (hmore e he).1
  · rw [hentries] at he
    obtain he | he := mem_append.mp he
    · exact (h.numbered e he).trans_le hquiet.pushed
    · exact (hmore e he).2.2
  · rw [hquiet.live_iff]
    obtain hcurr | ⟨hcurr, -⟩ := hquiet.curr
    · exact h.current n (hcurr ▸ hn)
    · exact nomatch hcurr.symm.trans hn
  · rw [hquiet.tokens]
    rw [hentries] at he
    obtain he | he := mem_append.mp he
    · exact h.opens e he hno n ((hquiet.live_iff n).mp hn)
    · exact absurd (h.later.trans (hmore e he).2.1) (Nat.not_le.mpr hno)
  · rw [hlog, hbefore, append_assoc]
  intro event hevent no hno
  obtain hevent | hevent := mem_append.mp hevent
  · exact hpast event hevent no hno
  · exact nomatch (hlogged event hevent).symm.trans hno

def freed (w : World V) (n : RoutineToken) : World V :=
  { w.free n with sch := { (w.free n).sch with currRoutine := none } }

omit [DecidableEq V] in
theorem Shut.freed (h : Shut p past w) (hlive : w.sch.routineCabinet n ≠ none) : Shut p past (freed w n) := by
  have hroutines : ∀ m, (Resumption.freed w n).sch.routineCabinet m ≠ none ↔ m ≠ n ∧ w.sch.routineCabinet m ≠ none :=
    fun _ => World.update_none_ne_none_iff
  exact ⟨h.toRegistered.freed hlive rfl rfl rfl hroutines, h.made, h.numbered, nofun,
    fun e he hno m hm => h.opens e he hno m ((hroutines m).mp hm).2, h.later, h.log⟩

omit [DecidableEq V] in
theorem quiet_finish (w : World V) (n : RoutineToken) : Quiet (freed w n) (w.finish n) := by
  rw [World.finish]
  split
  · rw [World.resume]
    split
    · exact quiet_resume (freed w n) _ .resume
    · exact .refl _
  · exact .refl _

omit [DecidableEq V] in
theorem Shut.create (h : Shut p past w) {runNow : Bool} (hfresh : Fresh p w (.create runNow)) :
    Shut p past (w.create runNow) := by
  have hnone : w.sch.routineCabinet w.sch.allocated = none := by
    by_contra hlive
    exact lt_irrefl _ (h.fresh _ hlive)
  generalize hw' : ({ w with
    cabinet := (w.cabinet.alloc (some w.sch.allocated)).2
    tokens := update w.tokens w.sch.allocated (w.cabinet.alloc (some w.sch.allocated)).1
    stand := update w.stand w.sch.allocated (.created runNow)
    sch := { w.sch with
      routineCabinet := update w.sch.routineCabinet w.sch.allocated (some {})
      allocated := w.sch.allocated + 1 } } : World V) = w'
  have hallocated : Shut p past w' := by
    subst hw'
    refine ⟨h.toRegistered.allocated rfl rfl rfl fun _ => World.update_ne_none_iff {},
      fun e he => (h.made e he).trans (Nat.lt_succ_self _), h.numbered, fun n hn => ?_, fun e he hno n hn => ?_,
      h.later, h.log⟩
    · exact (World.update_ne_none_iff {}).mpr (.inr (h.current n hn))
    dsimp only at hn ⊢
    rw [update_of_ne (h.made e he).ne]
    obtain rfl | hn := (World.update_ne_none_iff {}).mp hn
    · rw [update_self]
      exact (hfresh e he hno).symm
    · rw [update_of_ne (h.fresh n hn).ne]
      exact h.opens e he hno n hn
  rw [World.create, Scheduler.create]
  cases runNow with
  | false =>
    rw [if_neg Bool.false_ne_true]
    dsimp only
    rw [World.call_eq_of_eq]
    · subst hw'
      exact hallocated
    · rfl
  | true =>
    have hself : w'.sch.routineCabinet w.sch.allocated = some {} := by
      subst hw'
      exact update_self _ _ _
    have hready := hallocated.quiet (quiet_makeRoutineReady w' hself {} .create)
    subst hw'
    exact hready

omit [DecidableEq V] in
theorem switchToRoutine_spec (w : World V) (entry : Option Entry) (n : RoutineToken) :
    (w.switchToRoutine entry n).cabinet = w.cabinet ∧ (w.switchToRoutine entry n).tokens = w.tokens ∧
      (w.switchToRoutine entry n).sch = w.sch.switchToRoutine n ∧ (w.switchToRoutine entry n).entries = w.entries ∧
      (w.switchToRoutine entry n).pushed = w.pushed ∧
      ∃ more, (w.switchToRoutine entry n).log = w.log ++ .switched entry n (w.stand n) :: more ∧
        ∀ event ∈ more, event.entryNo = none := by
  rw [World.switchToRoutine]
  split
  · refine ⟨rfl, rfl, rfl, rfl, rfl, _, append_assoc _ _ _, fun event hevent => ?_⟩
    rw [mem_singleton.mp hevent]
    rfl
  · refine ⟨rfl, rfl, rfl, rfl, rfl, _, append_assoc _ _ _, fun event hevent => ?_⟩
    rw [mem_singleton.mp hevent]
    rfl
  · exact ⟨rfl, rfl, rfl, rfl, rfl, [], rfl, (by simp)⟩

omit [DecidableEq V] in
theorem Shut.switched (h : Shut p past w) (hlive : w.sch.routineCabinet n ≠ none) (entry : Option Entry)
    (hentry : ∀ e ∈ entry, p ≤ e.no) : Shut p past (w.switchToRoutine entry n) := by
  obtain ⟨hcabinet, htokens, hsch, hentries, hpushed, more, hlog, hmore⟩ := switchToRoutine_spec w entry n
  obtain ⟨before, hbefore, hpast⟩ := h.log
  have hroutines : ∀ m, (w.switchToRoutine entry n).sch.routineCabinet m ≠ none ↔ w.sch.routineCabinet m ≠ none := by
    intro m
    rw [hsch]
    exact Scheduler.modify_ne_none w.sch n _
  refine ⟨⟨fun m hm => ?_, fun token obj hobj => ?_, fun m hm => ?_⟩, fun e he => ?_, fun e he => ?_, fun m hm => ?_,
    fun e he hno m hm => ?_, by rw [hpushed]; exact h.later, ⟨before ++ .switched entry n (w.stand n) :: more, ?_, ?_⟩⟩
  · rw [hcabinet, htokens]
    exact h.view m ((hroutines m).mp hm)
  · rw [hcabinet] at hobj
    obtain ⟨m, rfl, htoken, hm⟩ := h.stored token obj hobj
    exact ⟨m, rfl, by rw [htokens]; exact htoken, (hroutines m).mpr hm⟩
  · rw [hsch]
    exact h.fresh m ((hroutines m).mp hm)
  · rw [hsch]
    rw [hentries] at he
    exact h.made e he
  · rw [hpushed]
    rw [hentries] at he
    exact h.numbered e he
  · rw [hsch] at hm
    cases hm
    exact (hroutines n).mpr hlive
  · rw [htokens]
    rw [hentries] at he
    exact h.opens e he hno m ((hroutines m).mp hm)
  · rw [hlog, hbefore, append_assoc]
  intro event hevent no hno
  obtain hevent | hevent := mem_append.mp hevent
  · exact hpast event hevent no hno
  obtain rfl | hevent := mem_cons.mp hevent
  · cases entry with
    | none => cases hno
    | some e =>
      cases hno
      exact hentry e rfl
  · exact nomatch (hmore event hevent).symm.trans hno

omit [DecidableEq V] in
theorem Shut.discard (h : Shut p past w) (hcurr : w.sch.currRoutine = none) (n : RoutineToken) :
    Shut p past (w.discard n) ∧ (w.discard n).sch.currRoutine = none := by
  refine ⟨?_, (World.discard_frame w n).1.trans hcurr⟩
  rw [World.discard]
  split
  · exact h
  next r hr =>
    split_ifs
    · exact h.quiet (quiet_markCanceled w n)
    · have hfreed := h.freed (n := n) (by rw [hr]; simp)
      rw [Resumption.freed, ← hcurr] at hfreed
      exact hfreed

omit [DecidableEq V] in
theorem Shut.cleanup (h : Shut p past w) (hcurr : w.sch.currRoutine = none) : Shut p past w.cleanup := by
  have hall : ∀ ns : List RoutineToken, Shut p past (ns.foldl World.discard w) ∧
      (ns.foldl World.discard w).sch.currRoutine = none := by
    intro ns
    induction ns generalizing w with
    | nil => exact ⟨h, hcurr⟩
    | cons n ns ih =>
      obtain ⟨hdiscard, hcurr'⟩ := h.discard hcurr n
      exact ih hdiscard hcurr'
  obtain ⟨hdone, -⟩ := hall (List.range w.sch.allocated)
  exact ⟨⟨hdone.view, hdone.stored, hdone.fresh⟩, hdone.made, hdone.numbered, hdone.current, hdone.opens, hdone.later,
    hdone.log⟩

omit [DecidableEq V] in
theorem routineCabinet_eq_none (h : w.Registered) (hsize : w.cabinet.size = 0) (n : RoutineToken) :
    w.sch.routineCabinet n = none := by
  by_contra hlive
  have hsize' := Cabinet.size_free (fun hnone => nomatch hnone.symm.trans (h.view n hlive))
  omega

omit [DecidableEq V] in
theorem Shut.cleared (h : Shut p past w) (hsize : w.cabinet.size = 0) (cleaning : Bool) :
    Shut p past { w with cabinet := w.cabinet.clear, cleaning := cleaning } := by
  have hnone := routineCabinet_eq_none h.toRegistered hsize
  refine ⟨⟨fun n hn => absurd (hnone n) hn, fun token obj hobj => ?_, h.fresh⟩, h.made, h.numbered, h.current, h.opens,
    h.later, h.log⟩
  exact nomatch (Cabinet.view_empty token).symm.trans hobj

/-- If no new routine is given such a token, the old entries open nothing after a step either. -/
theorem Shut.step {a : Action V} (h : Shut p past w) (hfresh : Fresh p w a) (hstep : w.step a = some w') :
    Shut p past w' := by
  by_cases hcall : a.isCall = true
  · cases hcreate : a.isCreate with
    | false => exact h.quiet (quiet_step hcall hcreate hstep)
    | true =>
      cases a with
      | create runNow =>
        obtain ⟨-, rfl⟩ := ite_some_none_eq_some.mp hstep
        exact h.create hfresh
      | _ => cases hcreate
  cases a with
  | finish =>
    obtain ⟨n, hcurr, rfl⟩ := map_eq_some_iff.mp hstep
    exact (h.freed (h.current n hcurr)).quiet (quiet_finish w n)
  | schedule =>
    obtain ⟨-, rfl⟩ := ite_some_none_eq_some.mp hstep
    exact ⟨⟨h.view, h.stored, h.fresh⟩, h.made, h.numbered, h.current, h.opens, h.later, h.log⟩
  | switch =>
    rw [World.step] at hstep
    split at hstep
    · next _ _ _ tmp entry entries hcurr htmp hentries =>
        obtain rfl := Option.some.inj hstep
        have hrest : Shut p past { w with sch := { w.sch with tmp := tmp }, entries := entries } :=
          ⟨⟨h.view, h.stored, h.fresh⟩, fun e he => h.made e (by rw [hentries]; exact mem_cons_of_mem _ he),
            fun e he => h.numbered e (by rw [hentries]; exact mem_cons_of_mem _ he), h.current,
            fun e he => h.opens e (by rw [hentries]; exact mem_cons_of_mem _ he), h.later, h.log⟩
        rw [World.switch]
        split
        · next n hat =>
            obtain ⟨hlive, htokens⟩ := h.toRegistered.at?_eq_some_iff.mp hat
            refine hrest.switched hlive (some entry) fun e he => ?_
            cases Option.some.inj he
            by_contra hold
            exact h.opens entry (by rw [hentries]; exact mem_cons_self) (Nat.lt_of_not_le hold) n hlive htokens
        · exact hrest
    · cases hstep
  | cleanup =>
    obtain ⟨⟨hcurr, -⟩, rfl⟩ := ite_some_none_eq_some.mp hstep
    exact h.cleanup hcurr
  | cleanSwitch n =>
    obtain ⟨⟨-, -, hlive⟩, rfl⟩ := ite_some_none_eq_some.mp hstep
    exact h.switched (Option.isSome_iff_ne_none.mp hlive) none (by simp)
  | cleaned =>
    obtain ⟨⟨-, -, hsize⟩, rfl⟩ := ite_some_none_eq_some.mp hstep
    exact h.cleared hsize false
  | _ => exact absurd rfl hcall

omit [DecidableEq V] in
theorem shut_initial (logic : ConditionId → Logic) : Shut 0 [] (World.initial logic : World V) := by
  refine ⟨⟨fun n hn => absurd rfl hn, fun token obj hobj => ?_, fun n hn => absurd rfl hn⟩, nofun, nofun, nofun, nofun,
    le_rfl, ⟨[], rfl, nofun⟩⟩
  exact nomatch (Cabinet.view_empty token).symm.trans hobj

/-- Nor does a run. -/
theorem Shut.run {as : List (Action V)} (h : Shut p past w) (hfresh : Along World.step (Fresh p) w as)
    (hrun : Lib.run World.step w as = some w') : Shut p past w' :=
  Lib.run_invariant (fun _ _ _ hs hg hstep => Shut.step hs hg hstep) h hfresh hrun

theorem shut_of_run {logic : ConditionId → Logic} {as : List (Action V)}
    (hrun : Lib.run World.step (World.initial logic) as = some w) : Shut 0 [] w := by
  refine (shut_initial logic).run (Lib.along_of_forall fun w a => ?_) hrun
  cases a with
  | create runNow => exact fun e _ hno => absurd hno (Nat.not_lt_zero _)
  | _ => exact trivial

def World.startOf (w : World V) (n : RoutineToken) : Option Bool := (w.sch.routineCabinet n).map Routine.isStarted

omit [DecidableEq V] in
theorem live_iff_startOf : w.sch.routineCabinet n ≠ none ↔ w.startOf n = some true ∨ w.startOf n = some false := by
  rw [World.startOf]
  cases w.sch.routineCabinet n with
  | none => exact iff_of_false (fun h => h rfl) nofun
  | some r =>
    refine iff_of_true nofun ?_
    cases hstarted : r.isStarted with
    | false => exact .inr (congrArg some hstarted)
    | true => exact .inl (congrArg some hstarted)

end Resumption

open Resumption

namespace Cleanup

variable {w : Resumption.World V} {s : Cleanup V} {k : Nat}

/-- The first loop has passed the positions below `k`. -/
structure Discarded (w : Resumption.World V) (k : Nat) (s : Cleanup V) : Prop where
  shut : Shut 0 [] s.world
  curr : s.world.sch.currRoutine = none
  tokens : s.world.tokens = w.tokens
  allocated : s.world.sch.allocated = w.sch.allocated
  live : ∀ m, s.world.sch.routineCabinet m ≠ none ↔
    w.startOf m = some true ∨ w.startOf m = some false ∧ k ≤ (w.tokens m).pos
  same : ∀ m, s.world.sch.routineCabinet m ≠ none → s.world.startOf m = w.startOf m
  canceled : ∀ m, w.startOf m = some true → (w.tokens m).pos < k → s.world.sch.isCanceled m = true
  deleted : ∀ m, m ∈ s.deleted ↔ w.startOf m = some false ∧ (w.tokens m).pos < k
  nodup : s.deleted.Nodup
  switched : s.switched = []
  ended : s.ended = []

theorem eq_of_pos_eq (h : w.Registered) (hn : w.sch.routineCabinet n ≠ none) (hm : w.sch.routineCabinet m ≠ none)
    (hpos : (w.tokens n).pos = (w.tokens m).pos) : n = m :=
  h.tokens_injective hn hm (Cabinet.eq_of_pos_eq (h.view n hn) (h.view m hm) hpos)

theorem Discarded.skip (h : Discarded w k s) (hnone : ∀ token, token.pos = k → s.world.cabinet.view token = none) :
    Discarded w (k + 1) s := by
  have hpos : ∀ m, s.world.sch.routineCabinet m ≠ none → (w.tokens m).pos ≠ k := by
    intro m hm hpos
    have hview := h.shut.view m hm
    rw [hnone _ (h.tokens ▸ hpos)] at hview
    cases hview
  refine { h with live := fun m => ?_, canceled := fun m hm hlt => ?_, deleted := fun m => ?_ }
  · constructor
    · intro hm
      exact ((h.live m).mp hm).imp_right fun hin => ⟨hin.1, Nat.lt_of_le_of_ne hin.2 (hpos m hm).symm⟩
    · exact fun hin => (h.live m).mpr (hin.imp_right fun hin => ⟨hin.1, Nat.le_of_succ_le hin.2⟩)
  · exact h.canceled m hm (Nat.lt_of_le_of_ne (Nat.le_of_lt_succ hlt) (hpos m ((h.live m).mpr (.inl hm))))
  rw [h.deleted m]
  refine and_congr_right fun hm => ⟨fun hlt => hlt.trans (Nat.lt_succ_self k), fun hlt => ?_⟩
  refine Nat.lt_of_le_of_ne (Nat.le_of_lt_succ hlt) fun heq => ?_
  exact hpos m ((h.live m).mpr (.inr ⟨hm, heq.ge⟩)) heq

theorem Discarded.visit (h : Discarded w k s) {token : Token} {obj : Option RoutineToken} (hpos : token.pos = k)
    (hview : s.world.cabinet.view token = some obj) : Discarded w (k + 1) (discard obj s) := by
  obtain ⟨n, rfl, rfl, hlive⟩ := h.shut.stored token obj hview
  rw [h.tokens] at hpos
  have hothers : ∀ m, m ≠ n → s.world.sch.routineCabinet m ≠ none → (w.tokens m).pos ≠ k := by
    intro m hm hlive' heq
    exact hm (eq_of_pos_eq h.shut.toRegistered hlive' hlive (by rw [h.tokens, heq, hpos]))
  have hafter : ∀ m, m ≠ n → s.world.sch.routineCabinet m ≠ none → (k ≤ (w.tokens m).pos ↔ k + 1 ≤ (w.tokens m).pos) :=
    fun m hm hlive' => ⟨fun hle => Nat.lt_of_le_of_ne hle (hothers m hm hlive').symm, Nat.le_of_succ_le⟩
  obtain ⟨routine, hr⟩ := ne_none_iff_exists'.mp hlive
  have hstart : w.startOf n = some routine.isStarted := by
    rw [← h.same n hlive, Resumption.World.startOf, hr]
    rfl
  rw [discard]
  rw [hr]
  dsimp only
  split_ifs with hstarted
  · rw [hstarted] at hstart
    have hquiet := quiet_markCanceled s.world n
    have hne : ∀ m, w.startOf m = some false → m ≠ n := by
      rintro m hm rfl
      cases hm.symm.trans hstart
    refine ⟨h.shut.quiet hquiet, h.curr, h.tokens, h.allocated, fun m => ?_, fun m hm => ?_, fun m hm hlt => ?_,
      fun m => ?_, h.nodup, h.switched, h.ended⟩
    · rw [hquiet.live_iff, h.live]
      refine or_congr_right (and_congr_right fun hm => ⟨fun hle => ?_, Nat.le_of_succ_le⟩)
      exact (hafter m (hne m hm) ((h.live m).mpr (.inr ⟨hm, hle⟩))).mp hle
    · exact (hquiet.started m).trans (h.same m ((hquiet.live_iff m).mp hm))
    · by_cases heq : m = n
      · rw [heq, Scheduler.isCanceled]
        rw [Scheduler.modify_self, hr]
        rfl
      · have hlive' := (h.live m).mpr (.inl hm)
        have hlt' := Nat.lt_of_le_of_ne (Nat.le_of_lt_succ hlt) (hothers m heq hlive')
        exact hquiet.canceled m (h.canceled m hm hlt')
    · rw [h.deleted]
      refine and_congr_right fun hm => ⟨fun hlt => hlt.trans (Nat.lt_succ_self k), fun hlt => ?_⟩
      refine Nat.lt_of_le_of_ne (Nat.le_of_lt_succ hlt) fun heq => ?_
      exact hothers m (hne m hm) ((h.live m).mpr (.inr ⟨hm, heq.ge⟩)) heq
  · rw [Bool.eq_false_of_not_eq_true hstarted] at hstart
    have hne : ∀ m, w.startOf m = some true → m ≠ n := by
      rintro m hm rfl
      cases hm.symm.trans hstart
    have hroutines : ∀ m, (s.world.free n).sch.routineCabinet m ≠ none ↔
        m ≠ n ∧ s.world.sch.routineCabinet m ≠ none := fun _ => Resumption.World.update_none_ne_none_iff
    have hsame : ∀ m, m ≠ n → (s.world.free n).sch.routineCabinet m = s.world.sch.routineCabinet m :=
      fun m hm => update_of_ne hm _ _
    have hshut : Shut 0 [] (s.world.free n) := by
      have hfreed := h.shut.freed hlive
      rw [freed, ← h.curr] at hfreed
      exact hfreed
    refine ⟨hshut, h.curr, h.tokens, h.allocated, fun m => ?_, fun m hm => ?_, fun m hm hlt => ?_, fun m => ?_, ?_,
      h.switched, h.ended⟩
    · rw [hroutines, h.live]
      constructor
      · rintro ⟨hm, hin⟩
        exact hin.imp_right fun hin => ⟨hin.1, (hafter m hm ((h.live m).mpr (.inr hin))).mp hin.2⟩
      rintro (hm | ⟨hm, hle⟩)
      · exact ⟨hne m hm, .inl hm⟩
      · refine ⟨?_, .inr ⟨hm, Nat.le_of_succ_le hle⟩⟩
        rintro rfl
        exact absurd hpos (Nat.ne_of_gt hle)
    · obtain ⟨hne', hm⟩ := (hroutines m).mp hm
      rw [Resumption.World.startOf, hsame m hne']
      exact h.same m hm
    · have hlive' := (h.live m).mpr (.inl hm)
      have hlt' := Nat.lt_of_le_of_ne (Nat.le_of_lt_succ hlt) (hothers m (hne m hm) hlive')
      have hcanceled := h.canceled m hm hlt'
      rw [Scheduler.isCanceled] at hcanceled ⊢
      rw [hsame m (hne m hm)]
      exact hcanceled
    · dsimp only
      rw [mem_append, mem_singleton, h.deleted]
      constructor
      · rintro (⟨hm, hlt⟩ | rfl)
        · exact ⟨hm, hlt.trans (Nat.lt_succ_self k)⟩
        · exact ⟨hstart, hpos ▸ Nat.lt_succ_self _⟩
      rintro ⟨hm, hlt⟩
      by_cases heq : m = n
      · exact .inr heq
      · refine .inl ⟨hm, Nat.lt_of_le_of_ne (Nat.le_of_lt_succ hlt) fun hpos' => ?_⟩
        exact hothers m heq ((h.live m).mpr (.inr ⟨hm, hpos'.ge⟩)) hpos'
    · dsimp only
      refine concat_eq_append ▸ h.nodup.concat fun hn => ?_
      exact absurd hpos ((h.deleted n).mp hn).2.ne

theorem discarded (h : Shut 0 [] w) (hcurr : w.sch.currRoutine = none) :
    Discarded w w.cabinet.raw.cells.length (Raw.foreach cells discard { world := w }) := by
  refine Raw.foreach_positions (fun s : Cleanup V => s.world.cabinet.raw) discard (Discarded w) (s := { world := w })
    (fun k s token obj hs hpos hview => hs.visit hpos hview) (fun k s hs hnone => hs.skip hnone) ?_
  refine ⟨h, hcurr, rfl, rfl, fun m => ?_, fun _ _ => rfl, fun m _ hlt => absurd hlt (Nat.not_lt_zero _), fun m => ?_,
    nodup_nil, rfl, rfl⟩
  · rw [and_iff_left (Nat.zero_le _)]
    exact live_iff_startOf
  · exact iff_of_false not_mem_nil fun hin => absurd hin.2 (Nat.not_lt_zero _)

/-- The second loop has passed the positions below `k`. -/
structure Ending (w : Resumption.World V) (k : Nat) (s : Cleanup V) : Prop where
  shut : Shut 0 [] s.world
  curr : s.world.sch.currRoutine = none
  tokens : s.world.tokens = w.tokens
  live : ∀ m, s.world.sch.routineCabinet m ≠ none ↔ w.startOf m = some true ∧ k ≤ (w.tokens m).pos
  canceled : ∀ m, s.world.sch.routineCabinet m ≠ none → s.world.sch.isCanceled m = true
  deleted : ∀ m, m ∈ s.deleted ↔ w.startOf m = some false
  nodup_deleted : s.deleted.Nodup
  ended : ∀ m, m ∈ s.ended ↔ w.startOf m = some true ∧ (w.tokens m).pos < k
  nodup_ended : s.ended.Nodup
  switched : s.switched = s.ended

theorem Discarded.ending (h : Discarded w k s) (hbound : ∀ m, w.sch.routineCabinet m ≠ none → (w.tokens m).pos < k) :
    Ending w 0 s := by
  have hfalse : ∀ m, w.startOf m = some false → (w.tokens m).pos < k := fun m hm =>
    hbound m (live_iff_startOf.mpr (.inr hm))
  have hlive : ∀ m, s.world.sch.routineCabinet m ≠ none ↔ w.startOf m = some true := by
    intro m
    rw [h.live]
    exact or_iff_left fun hin => absurd hin.2 (Nat.not_le.mpr (hfalse m hin.1))
  refine ⟨h.shut, h.curr, h.tokens, fun m => ?_, fun m hm => ?_, fun m => ?_, h.nodup, fun m => ?_, ?_, ?_⟩
  · rw [hlive, and_iff_left (Nat.zero_le _)]
  · have hm := (hlive m).mp hm
    exact h.canceled m hm (hbound m (live_iff_startOf.mpr (.inl hm)))
  · rw [h.deleted]
    exact and_iff_left_of_imp (hfalse m)
  · rw [h.ended]
    exact iff_of_false not_mem_nil fun hin => absurd hin.2 (Nat.not_lt_zero _)
  · rw [h.ended]
    exact nodup_nil
  · rw [h.switched, h.ended]

theorem Ending.skip (h : Ending w k s) (hnone : ∀ token, token.pos = k → s.world.cabinet.view token = none) :
    Ending w (k + 1) s := by
  have hpos : ∀ m, w.startOf m = some true → k ≤ (w.tokens m).pos → (w.tokens m).pos ≠ k := by
    intro m hm hle hpos
    have hview := h.shut.view m ((h.live m).mpr ⟨hm, hle⟩)
    rw [hnone _ (h.tokens ▸ hpos)] at hview
    cases hview
  refine { h with live := fun m => ?_, ended := fun m => ?_ }
  · rw [h.live]
    refine and_congr_right fun hm => ⟨fun hle => ?_, Nat.le_of_succ_le⟩
    exact Nat.lt_of_le_of_ne hle (hpos m hm hle).symm
  rw [h.ended]
  refine and_congr_right fun hm => ⟨fun hlt => hlt.trans (Nat.lt_succ_self k), fun hlt => ?_⟩
  by_contra hnot
  exact hpos m hm (Nat.le_of_not_lt hnot) (Nat.le_antisymm (Nat.le_of_lt_succ hlt) (Nat.le_of_not_lt hnot))

variable [DecidableEq V] {turns : Nat → Turn V}

structure Ended (s t : Cleanup V) (n : RoutineToken) : Prop where
  shut : Shut 0 [] t.world
  curr : t.world.sch.currRoutine = none
  tokens : t.world.tokens = s.world.tokens
  live : ∀ m, t.world.sch.routineCabinet m ≠ none ↔ m ≠ n ∧ s.world.sch.routineCabinet m ≠ none
  canceled : ∀ m, m ≠ n → s.world.sch.isCanceled m = true → t.world.sch.isCanceled m = true
  deleted : t.deleted = s.deleted
  ended : t.ended = s.ended ++ [n]
  switched : t.switched = s.switched ++ [n]

theorem ended_takeTurn (h : Shut 0 [] s.world) (hlive : s.world.sch.routineCabinet n ≠ none)
    (hcanceled : s.world.sch.isCanceled n = true)
    (hturn : ∀ call ∈ turns s.switched.length, call.val.isCreate = false) :
    Ended s (takeTurn turns (some n) s) n := by
  obtain ⟨hcabinet, htokens, hsch, -⟩ := switchToRoutine_spec s.world none n
  have hswitched := h.switched hlive none nofun
  have hmodify : ∀ m, (s.world.switchToRoutine none n).sch.isCanceled m = s.world.sch.isCanceled m := by
    intro m
    rw [hsch]
    exact Scheduler.isCanceled_modify (f := fun r => { r with state := .running, isStarted := true }) fun _ => rfl
  have hcurr : (s.world.switchToRoutine none n).sch.currRoutine = some n := by rw [hsch]; rfl
  obtain ⟨hquiet, hkeeps⟩ := quiet_goOn hturn hcurr ((hmodify n).trans hcanceled)
  generalize hw : goOn (s.world.switchToRoutine none n) (turns s.switched.length) = w at hquiet hkeeps
  have hturned : takeTurn turns (some n) s =
      { s with world := w.finish n, switched := s.switched ++ [n], ended := s.ended ++ [n] } := by
    rw [takeTurn, hw, hkeeps]
    rfl
  rw [hturned]
  have hroutines : ∀ m, w.sch.routineCabinet m ≠ none ↔ s.world.sch.routineCabinet m ≠ none := by
    intro m
    rw [hquiet.live_iff, hsch]
    exact Scheduler.modify_ne_none s.world.sch n _
  have hfinish := quiet_finish w n
  refine ⟨((hswitched.quiet hquiet).freed ((hroutines n).mpr hlive)).quiet hfinish, ?_, ?_, fun m => ?_,
    fun m hm hcanceled' => ?_, rfl, rfl, rfl⟩
  · obtain hsame | ⟨hnone, -⟩ := hfinish.curr
    · exact hsame
    · exact hnone
  · exact hfinish.tokens.trans (hquiet.tokens.trans htokens)
  · rw [hfinish.live_iff, ← hroutines]
    exact Resumption.World.update_none_ne_none_iff
  apply hfinish.canceled
  have hcanceled'' := hquiet.canceled m ((hmodify m).trans hcanceled')
  rw [Scheduler.isCanceled] at hcanceled'' ⊢
  rw [show (freed w n).sch.routineCabinet m = _ from update_of_ne hm _ _]
  exact hcanceled''

/-- The routines that have been started, in the order in which they were made. -/
def startedRoutines (w : Resumption.World V) : List RoutineToken :=
  (List.range w.sch.allocated).filter fun n => w.startOf n = some true

omit [DecidableEq V] in
theorem mem_startedRoutines (h : w.Registered) : n ∈ startedRoutines w ↔ w.startOf n = some true := by
  rw [startedRoutines, mem_filter, mem_range, decide_eq_true_eq]
  exact and_iff_right_of_imp fun hn => h.fresh n (live_iff_startOf.mpr (.inl hn))

theorem Ending.visit (h : Ending w k s) (hregistered : w.Registered)
    (hturns : ∀ j < (startedRoutines w).length, ∀ call ∈ turns j, call.val.isCreate = false)
    {token : Token} {obj : Option RoutineToken} (hpos : token.pos = k)
    (hview : s.world.cabinet.view token = some obj) : Ending w (k + 1) (takeTurn turns obj s) := by
  obtain ⟨n, rfl, rfl, hlive⟩ := h.shut.stored token obj hview
  rw [h.tokens] at hpos
  obtain ⟨hstart, hle⟩ := (h.live n).mp hlive
  have hnotMem : n ∉ s.ended := fun hmem => absurd ((h.ended n).mp hmem).2 (Nat.not_lt.mpr hle)
  have hnodup : (s.ended ++ [n]).Nodup := concat_eq_append ▸ h.nodup_ended.concat hnotMem
  have hcount : s.switched.length < (startedRoutines w).length := by
    have hsub : s.ended ++ [n] ⊆ startedRoutines w := by
      intro m hm
      rw [mem_startedRoutines hregistered]
      obtain hm | hm := mem_append.mp hm
      · exact ((h.ended m).mp hm).1
      · exact mem_singleton.mp hm ▸ hstart
    have hlength := (hnodup.subperm hsub).length_le
    rw [length_append, ← h.switched] at hlength
    exact hlength
  obtain ⟨hshut, hcurr, htokens, hroutines, hcanceled, hdeleted, hended, hswitched⟩ :=
    ended_takeTurn h.shut hlive (h.canceled n hlive) (hturns _ hcount)
  have hothers : ∀ m, m ≠ n → w.startOf m = some true → k ≤ (w.tokens m).pos → (w.tokens m).pos ≠ k := by
    intro m hm hstart' hle' heq
    refine hm (eq_of_pos_eq h.shut.toRegistered ((h.live m).mpr ⟨hstart', hle'⟩) hlive ?_)
    rw [h.tokens, heq, hpos]
  refine ⟨hshut, hcurr, htokens.trans h.tokens, fun m => ?_, fun m hm => ?_, fun m => ?_, ?_, fun m => ?_, ?_, ?_⟩
  · rw [hroutines, h.live]
    constructor
    · rintro ⟨hm, hstart', hle'⟩
      exact ⟨hstart', Nat.lt_of_le_of_ne hle' (hothers m hm hstart' hle').symm⟩
    rintro ⟨hstart', hle'⟩
    refine ⟨?_, hstart', Nat.le_of_succ_le hle'⟩
    rintro rfl
    exact absurd hpos (Nat.ne_of_gt hle')
  · obtain ⟨hne, hm⟩ := (hroutines m).mp hm
    exact hcanceled m hne (h.canceled m hm)
  · rw [hdeleted]
    exact h.deleted m
  · rw [hdeleted]
    exact h.nodup_deleted
  · rw [hended, mem_append, mem_singleton, h.ended]
    constructor
    · rintro (⟨hstart', hlt⟩ | rfl)
      · exact ⟨hstart', hlt.trans (Nat.lt_succ_self k)⟩
      · exact ⟨hstart, hpos ▸ Nat.lt_succ_self _⟩
    rintro ⟨hstart', hlt⟩
    by_cases heq : m = n
    · exact .inr heq
    refine .inl ⟨hstart', ?_⟩
    by_contra hnot
    exact hothers m heq hstart' (Nat.le_of_not_lt hnot)
      (Nat.le_antisymm (Nat.le_of_lt_succ hlt) (Nat.le_of_not_lt hnot))
  · rw [hended]
    exact hnodup
  · rw [hswitched, hended, h.switched]

theorem Ending.pass (h : Ending w 0 s) (hregistered : w.Registered)
    (hturns : ∀ j < (startedRoutines w).length, ∀ call ∈ turns j, call.val.isCreate = false) :
    Ending w s.world.cabinet.raw.cells.length (Raw.foreach cells (takeTurn turns) s) :=
  Raw.foreach_positions (fun s : Cleanup V => s.world.cabinet.raw) (takeTurn turns) (Ending w) (s := s)
    (fun _ _ _ _ hs hpos hview => hs.visit hregistered hturns hpos hview) (fun _ _ hs hnone => hs.skip hnone) h

structure Cleaned (w : Resumption.World V) (s : Cleanup V) : Prop where
  ended : ∀ n, n ∈ s.ended ↔ w.startOf n = some true
  nodup_ended : s.ended.Nodup
  deleted : ∀ n, n ∈ s.deleted ↔ w.startOf n = some false
  nodup_deleted : s.deleted.Nodup
  switched : s.switched = s.ended
  empty : s.world.cabinet.size = 0

omit [DecidableEq V] in
theorem Ending.cleaned (h : Ending w k s) (hnone : ∀ n, s.world.sch.routineCabinet n = none) : Cleaned w s := by
  refine { h with ended := fun n => ?_, empty := Cabinet.size_eq_zero fun token => ?_ }
  · rw [h.ended]
    refine and_iff_left_of_imp fun hn => ?_
    by_contra hnot
    exact (h.live n).mpr ⟨hn, Nat.le_of_not_lt hnot⟩ (hnone n)
  · by_contra hview
    obtain ⟨obj, hobj⟩ := ne_none_iff_exists'.mp hview
    obtain ⟨n, -, -, hlive⟩ := h.shut.stored token obj hobj
    exact hlive (hnone n)

omit [DecidableEq V] in
theorem Ending.cleaned_of_size (h : Ending w k s) (hsize : s.world.cabinet.size = 0) : Cleaned w s :=
  h.cleaned (routineCabinet_eq_none h.shut.toRegistered hsize)

theorem Ending.cleaned_pass (h : Ending w 0 s) (hregistered : w.Registered)
    (hturns : ∀ j < (startedRoutines w).length, ∀ call ∈ turns j, call.val.isCreate = false) :
    Shut 0 [] (Raw.foreach cells (takeTurn turns) s).world ∧ Cleaned w (Raw.foreach cells (takeTurn turns) s) := by
  have hpass := h.pass hregistered hturns
  refine ⟨hpass.shut, hpass.cleaned fun n => ?_⟩
  by_contra hlive
  obtain ⟨hstart, hle⟩ := (hpass.live n).mp hlive
  have hview := h.shut.view n ((h.live n).mpr ⟨hstart, Nat.zero_le _⟩)
  have hlt := Cabinet.pos_lt_of_view hview
  rw [h.tokens] at hlt
  exact absurd hlt (Nat.not_lt.mpr hle)

theorem whileNotEmpty_spec (h : Ending w 0 s) (hregistered : w.Registered)
    (hturns : ∀ j < (startedRoutines w).length, ∀ call ∈ turns j, call.val.isCreate = false) :
    (∃ t, whileNotEmpty turns 2 s = some t) ∧
      ∀ rounds t, whileNotEmpty turns rounds s = some t → Shut 0 [] t.world ∧ Cleaned w t := by
  obtain ⟨hshut, hcleaned⟩ := h.cleaned_pass hregistered hturns
  constructor
  · rw [whileNotEmpty]
    split_ifs
    · exact ⟨s, rfl⟩
    · rw [whileNotEmpty, if_pos hcleaned.empty]
      exact ⟨_, rfl⟩
  · intro rounds t ht
    cases rounds with
    | zero => cases ht
    | succ rounds =>
      rw [whileNotEmpty] at ht
      split_ifs at ht with hsize
      · cases ht
        exact ⟨h.shut, h.cleaned_of_size hsize⟩
      cases rounds with
      | zero => cases ht
      | succ rounds =>
        rw [whileNotEmpty, if_pos hcleaned.empty] at ht
        cases ht
        exact ⟨hshut, hcleaned⟩

/-- `cleanup` comes to its end, with everything gone, and nothing that is left in the ready queue switches to anybody.
-/
def Meets (turns : Nat → Turn V) (w : Resumption.World V) (guard : Nat → Resumption.World V → Action V → Prop) : Prop :=
  (∃ rounds s, cleanup turns rounds w = some s) ∧
    ∀ rounds s, cleanup turns rounds w = some s → Cleaned w s ∧
      ∀ bs v, Along Resumption.World.step (guard s.world.pushed) s.world bs →
        run Resumption.World.step s.world bs = some v →
        ∃ later, v.log = s.world.log ++ later ∧ ∀ event ∈ later, ∀ no ∈ event.entryNo, s.world.pushed ≤ no

/-- **The cleanup**, if the routines that are started make no others while they end, deletes all, and what is left in
the queue switches to nobody as long as no new routine is given a token that is still in it. -/
theorem meets_of_run {logic : ConditionId → Logic} {as : List (Action V)}
    (hrun : run Resumption.World.step (Resumption.World.initial logic) as = some w) (hcurr : w.sch.currRoutine = none)
    (hturns : ∀ j < (startedRoutines w).length, ∀ call ∈ turns j, call.val.isCreate = false) :
    Meets turns w Fresh := by
  have hshut := shut_of_run hrun
  have hending := (discarded hshut hcurr).ending fun m hm => Cabinet.pos_lt_of_view (hshut.view m hm)
  obtain ⟨⟨t, ht⟩, hall⟩ := whileNotEmpty_spec hending hshut.toRegistered hturns
  refine ⟨⟨2, _, by rw [cleanup, ht]; rfl⟩, fun rounds s hs => ?_⟩
  obtain ⟨t, ht, rfl⟩ := Option.map_eq_some_iff.mp hs
  obtain ⟨hshut', hcleaned⟩ := hall rounds t ht
  refine ⟨⟨hcleaned.ended, hcleaned.nodup_ended, hcleaned.deleted, hcleaned.nodup_deleted, hcleaned.switched, rfl⟩,
    fun bs v hfresh hv => ?_⟩
  have hcleared := hshut'.cleared hcleaned.empty t.world.cleaning
  -- nothing that is left opens anything, for there is nothing
  have hstart : Shut t.world.pushed t.world.log { t.world with cabinet := t.world.cabinet.clear } := by
    refine ⟨⟨hcleared.view, hcleared.stored, hcleared.fresh⟩, hcleared.made, hcleared.numbered, hcleared.current,
      fun e _ _ n hn => ?_, le_rfl, ⟨[], (List.append_nil _).symm, nofun⟩⟩
    exact absurd (routineCabinet_eq_none hshut'.toRegistered hcleaned.empty n) hn
  exact (hstart.run hfresh hv).log

/-- A routine that waits is cleaned up together with one that is ready, and cancels that one while it ends. -/
theorem twoRoutines_meets : ∃ w : Resumption.World Unit,
    run Resumption.World.step (Resumption.World.initial fun _ => .kAll)
        [.create true, .schedule, .switch, .create true, .wait] = some w ∧
      Meets (fun _ => [⟨.cancel ⟨2, 1⟩, rfl⟩]) w Fresh := by
  have hrun : (run Resumption.World.step (Resumption.World.initial fun _ => .kAll : Resumption.World Unit)
      [.create true, .schedule, .switch, .create true, .wait]).map (fun w => w.sch.currRoutine) = some none := rfl
  obtain ⟨w, hw, hcurr⟩ := Option.map_eq_some_iff.mp hrun
  refine ⟨w, hw, meets_of_run hw hcurr fun j _ call hmem => ?_⟩
  rw [List.mem_singleton.mp hmem]
  rfl

/-- A routine is made ready, and the scheduler is cleaned up before it has its turn. Its token goes to the next routine,
which nobody has made ready. -/
theorem staleToken_switches : ∃ w : Resumption.World Unit,
    run Resumption.World.step (Resumption.World.initial fun _ => .kAll) [.create true] = some w ∧
      ¬Meets (fun _ => []) w fun _ _ _ => True := by
  have hrun : ((run Resumption.World.step (Resumption.World.initial fun _ => .kAll : Resumption.World Unit)
      [.create true]).bind fun w =>
      (cleanup (fun _ => []) 1 w).bind fun s =>
        (run Resumption.World.step s.world [.create false, .schedule, .switch]).map fun v =>
          (s.world.pushed, s.world.log.length, v.log.filterMap Event.entryNo)) = some (1, 0, [0]) := rfl
  obtain ⟨w, hw, hrest⟩ := Option.bind_eq_some_iff.mp hrun
  obtain ⟨s, hs, hrest⟩ := Option.bind_eq_some_iff.mp hrest
  obtain ⟨v, hv, hfacts⟩ := Option.map_eq_some_iff.mp hrest
  obtain ⟨hpushed, hlog, hswitched⟩ : s.world.pushed = 1 ∧ s.world.log.length = 0 ∧
      v.log.filterMap Event.entryNo = [0] := by
    injection hfacts with hpushed hrest
    injection hrest with hlog hswitched
    exact ⟨hpushed, hlog, hswitched⟩
  refine ⟨w, hw, fun hmeets => ?_⟩
  obtain ⟨later, hlater, hall⟩ := (hmeets.2 1 s hs).2 _ v (Lib.along_of_forall fun _ _ => trivial) hv
  rw [List.length_eq_zero_iff.mp hlog, List.nil_append] at hlater
  obtain ⟨event, hmem, hno⟩ := List.mem_filterMap.mp (hswitched ▸ List.mem_singleton_self 0)
  have hle := hall event (hlater ▸ hmem) 0 hno
  rw [hpushed] at hle
  exact absurd hle (by decide)

end Cleanup

end Tbox.Coroutine
