import Tbox.Coroutine.WaitLoop
import Tbox.Proof.ReadyQueue

/-!
# Lost wakeups

A routine that was woken looks again at what there is, and for as long as somebody sleeps there has to be a woken
routine for each unit. A release that wakes nobody, or a cancellation, may leave a unit without one.
-/

open List Option

namespace Tbox.Coroutine

open Scheduler (Forth Marked)

structure Resource.Counted {ρ β : Type} (R : Resource ρ β) (units : ρ → Nat) (ok : ρ → Prop) : Prop where
  front : ∀ r, ok r → (R.front r = none ↔ units r = 0)
  pop : ∀ t r v, ok r → R.front r = some v → ok (R.pop t r) ∧ units (R.pop t r) + 1 = units r
  push : ∀ v r, ok r → ok (R.push v r) ∧ units (R.push v r) ≤ units r + 1

namespace World

variable {ρ β : Type} {R : Resource ρ β} {units : ρ → Nat} {ok : ρ → Prop} {w w' : World ρ β}
  {t u : RoutineToken} {v : β} {sch : Scheduler} {tmp : List RoutineToken} {input : Input β}

def asleep (w : World ρ β) : Finset RoutineToken :=
  (Finset.range w.sch.allocated).filter fun t => w.inLoop t ∧ t ∉ w.sch.queue

def woken (w : World ρ β) : Finset RoutineToken :=
  (Finset.range w.sch.allocated).filter fun t => w.inLoop t ∧ t ∈ w.sch.queue ∧ w.sch.isCanceled t = false

def Wakes (R : Resource ρ β) (w : World ρ β) : Prop :=
  (R.front w.res).isNone ∧ ∃ t ∈ w.token.head?, t ∈ w.asleep

/-- If anybody sleeps, a release wakes a sleeper or there are more woken routines than units, and so there
are when one of those is cancelled. -/
def Careful (R : Resource ρ β) (units : ρ → Nat) (w : World ρ β) : Input β → Prop
  | .release _ => w.asleep.Nonempty → w.Wakes R ∨ units w.res < w.woken.card
  | .cancel t => w.asleep.Nonempty → t ∈ w.woken → units w.res < w.woken.card
  | _ => True

instance decidableWakes (w : World ρ β) : Decidable (w.Wakes R) := inferInstanceAs (Decidable (_ ∧ _))

instance decidableCareful : ∀ (w : World ρ β) (input : Input β), Decidable (w.Careful R units input)
  | w, .release _ => inferInstanceAs (Decidable (w.asleep.Nonempty → w.Wakes R ∨ units w.res < w.woken.card))
  | w, .cancel t => inferInstanceAs (Decidable (w.asleep.Nonempty → t ∈ w.woken → units w.res < w.woken.card))
  | _, .create _ | _, .resume _ | _, .wait | _, .yield | _, .join _ | _, .finish | _, .acquire | _, .schedule
  | _, .switch => .isTrue trivial

structure Sound (ok : ρ → Prop) (w : World ρ β) : Prop where
  valid : w.sch.Valid
  live : ∀ t, w.inLoop t → w.sch.routineCabinet t ≠ none
  apart : ∀ t, w.inLoop t → w.sch.currRoutine ≠ some t
  canceled : ∀ t, w.inLoop t → w.sch.isCanceled t → t ∈ w.sch.queue
  ok : ok w.res

def Covered (units : ρ → Nat) (w : World ρ β) : Prop := w.asleep.Nonempty → units w.res ≤ w.woken.card

theorem Sound.lt_allocated (h : Sound ok w) (hloop : w.inLoop t) : t < w.sch.allocated :=
  h.valid.fresh t (h.live t hloop)

theorem Sound.mem_asleep (h : Sound ok w) : t ∈ w.asleep ↔ w.inLoop t ∧ t ∉ w.sch.queue := by
  rw [asleep, Finset.mem_filter, Finset.mem_range, and_iff_right_iff_imp]
  exact fun hboth => h.lt_allocated hboth.1

theorem Sound.mem_woken (h : Sound ok w) :
    t ∈ w.woken ↔ w.inLoop t ∧ t ∈ w.sch.queue ∧ w.sch.isCanceled t = false := by
  rw [woken, Finset.mem_filter, Finset.mem_range, and_iff_right_iff_imp]
  exact fun hboth => h.lt_allocated hboth.1

theorem Covered.mono (h : Covered units w) (hasleep : w'.asleep ⊆ w.asleep) (hwoken : w.woken ⊆ w'.woken)
    (hunits : units w'.res ≤ units w.res) : Covered units w' := by
  intro hne
  calc units w'.res ≤ units w.res := hunits
    _ ≤ w.woken.card := h (hne.mono hasleep)
    _ ≤ w'.woken.card := Finset.card_le_card hwoken

theorem covered_of_units_eq_zero (h : units w.res = 0) : Covered units w := fun _ => h ▸ Nat.zero_le _

theorem asleep_subset (h : Sound ok w) (h' : Sound ok w') (hloop : ∀ t, w'.inLoop t → w.inLoop t)
    (hqueue : ∀ t, w'.inLoop t → t ∈ w.sch.queue → t ∈ w'.sch.queue) : w'.asleep ⊆ w.asleep := by
  intro t ht
  obtain ⟨hin, hout⟩ := h'.mem_asleep.mp ht
  exact h.mem_asleep.mpr ⟨hloop t hin, fun hmem => hout (hqueue t hin hmem)⟩

theorem Sound.forth (h : Sound ok w) (hforth : Forth w.sch sch) : Sound ok { w with sch } := by
  refine ⟨hforth.valid, fun t ht => hforth.live t (h.apart t ht) (h.live t ht), fun t ht => ?_,
    fun t ht hcanceled => ?_, h.ok⟩
  · rcases hforth.curr with heq | heq <;> dsimp only <;> rw [heq]
    · exact h.apart t ht
    · exact nofun
  · rw [hforth.canceled t (h.apart t ht)] at hcanceled
    exact hforth.queue t (h.canceled t ht hcanceled)

theorem Sound.asleep_forth (h : Sound ok w) (hforth : Forth w.sch sch) :
    ({ w with sch } : World ρ β).asleep ⊆ w.asleep :=
  asleep_subset h (h.forth hforth) (fun _ ht => ht) fun t _ => hforth.queue t

theorem Sound.woken_forth (h : Sound ok w) (hforth : Forth w.sch sch) :
    w.woken ⊆ ({ w with sch } : World ρ β).woken := by
  intro t ht
  obtain ⟨hloop, hmem, hcanceled⟩ := h.mem_woken.mp ht
  refine (h.forth hforth).mem_woken.mpr ⟨hloop, hforth.queue t hmem, ?_⟩
  rw [hforth.canceled t (h.apart t hloop)]
  exact hcanceled

theorem Covered.forth (hcovered : Covered units w) (h : Sound ok w) (hforth : Forth w.sch sch) :
    Covered units { w with sch } :=
  hcovered.mono (h.asleep_forth hforth) (h.woken_forth hforth) le_rfl

theorem Sound.marked (h : Sound ok w) (hmarked : Marked w.sch t sch) : Sound ok { w with sch } := by
  refine ⟨hmarked.valid, fun u hu => hmarked.live u (h.live u hu), fun u hu => ?_, fun u hu hcanceled => ?_, h.ok⟩
  · dsimp only
    rw [hmarked.curr]
    exact h.apart u hu
  by_cases hut : u = t
  · subst hut
    exact hmarked.mem (h.live u hu)
  · rw [hmarked.canceled u hut] at hcanceled
    exact hmarked.queue u (h.canceled u hu hcanceled)

theorem Sound.woken_marked (h : Sound ok w) (hmarked : Marked w.sch t sch) :
    w.woken.erase t ⊆ ({ w with sch } : World ρ β).woken := by
  intro u hu
  obtain ⟨hut, hu⟩ := Finset.mem_erase.mp hu
  obtain ⟨hloop, hmem, hcanceled⟩ := h.mem_woken.mp hu
  refine (h.marked hmarked).mem_woken.mpr ⟨hloop, hmarked.queue u hmem, ?_⟩
  rw [hmarked.canceled u hut]
  exact hcanceled

theorem Covered.marked (hcovered : Covered units w) (h : Sound ok w) (hmarked : Marked w.sch t sch)
    (hcareful : w.asleep.Nonempty → t ∈ w.woken → units w.res < w.woken.card) : Covered units { w with sch } := by
  intro hne
  have hasleep : w.asleep.Nonempty :=
    hne.mono (asleep_subset h (h.marked hmarked) (fun _ hu => hu) fun u _ => hmarked.queue u)
  have hsub := Finset.card_le_card (h.woken_marked hmarked)
  by_cases ht : t ∈ w.woken
  · have hless := hcareful hasleep ht
    rw [Finset.card_erase_of_mem ht] at hsub
    change units w.res ≤ _
    omega
  · rw [Finset.erase_eq_of_notMem ht] at hsub
    exact (hcovered hasleep).trans hsub

theorem leaveLoop_apply : (w.leaveLoop t).inLoop u = true ↔ u ≠ t ∧ w.inLoop u = true := by
  rw [leaveLoop]
  dsimp only
  by_cases h : u = t
  · rw [h, Function.update_self]
    simp only [Bool.false_eq_true, ne_eq, not_true_eq_false, false_and]
  · rw [Function.update_of_ne h]
    exact (and_iff_right h).symm

theorem leaveLoop_eq_self (h : w.inLoop t = false) : w.leaveLoop t = w := by
  rw [leaveLoop, ← h, Function.update_eq_self]

theorem Sound.await (h : Sound ok (w.leaveLoop t)) (hlive : w.sch.routineCabinet t ≠ none) :
    Sound ok (w.await t) := by
  have hwait : Sound ok { w.leaveLoop t with sch := w.sch.wait t } := h.forth (h.valid.forth_wait t)
  rw [World.await]
  split_ifs with hcanceled
  · exact { hwait with }
  have hsuspend : w.sch.wait t = w.sch.suspend t := by
    rw [Scheduler.wait, if_neg]
    intro hcanceled'
    rw [Scheduler.wait, if_pos hcanceled'] at hcanceled
    exact hcanceled hcanceled'
  have hcases : ∀ u, Function.update w.inLoop t true u = true → u = t ∨ (w.leaveLoop t).inLoop u = true := by
    intro u hu
    by_cases hut : u = t
    · exact .inl hut
    · rw [Function.update_of_ne hut] at hu
      exact .inr (leaveLoop_apply.mpr ⟨hut, hu⟩)
  refine ⟨hwait.valid, fun u hu => ?_, fun u hu => ?_, fun u hu hcanceled' => ?_, hwait.ok⟩
  · rcases hcases u hu with rfl | hu
    · dsimp only
      rw [hsuspend]
      exact (Scheduler.modify_ne_none _ _ _).mpr hlive
    · exact hwait.live u hu
  · dsimp only
    rw [hsuspend]
    intro hcurr
    cases hcurr
  · rcases hcases u hu with rfl | hu
    · exact absurd hcanceled' hcanceled
    · exact hwait.canceled u hu hcanceled'

theorem await_res (w : World ρ β) (t : RoutineToken) : (w.await t).res = w.res := by
  rw [World.await]
  split_ifs <;> rfl

theorem Sound.take (hR : R.Counted units ok) (h : Sound ok w) (hfront : R.front w.res = some v) :
    Sound ok (w.take R t v) :=
  { h with ok := (hR.pop t w.res v h.ok hfront).1 }

theorem Sound.acquire (hR : R.Counted units ok) (h : Sound ok w) (hcurr : w.sch.currRoutine = some t) :
    Sound ok (w.acquire R t) := by
  rw [World.acquire]
  split
  · next v hfront => exact h.take hR hfront
  refine Sound.await ?_ (h.valid.curr t hcurr)
  have hout : w.inLoop t = false := Bool.eq_false_iff.mpr fun hin => h.apart t hin hcurr
  have hself : ({ w with token := w.token ++ [t] } : World ρ β).leaveLoop t =
      { w with token := w.token ++ [t] } := leaveLoop_eq_self hout
  rw [hself]
  exact { h with }

theorem Covered.acquire (hcovered : Covered units w) (hR : R.Counted units ok) (h : Sound ok w) :
    Covered units (w.acquire R t) := by
  rw [World.acquire]
  split
  · next v hfront =>
      have hunits := (hR.pop t w.res v h.ok hfront).2
      have hless : units (w.take R t v).res ≤ units w.res := by
        change units (R.pop t w.res) ≤ _
        omega
      exact hcovered.mono (Finset.Subset.refl _) (Finset.Subset.refl _) hless
  · next hfront =>
      refine covered_of_units_eq_zero ?_
      rw [await_res]
      exact (hR.front w.res h.ok).mp hfront

theorem Sound.skip (h : Sound ok w) (htmp : w.sch.tmp = t :: tmp) (hnone : w.sch.routineCabinet t = none) :
    Sound ok { w with sch := { w.sch with tmp } } := by
  refine ⟨h.valid.skip tmp htmp hnone, h.live, h.apart, fun u hu hcanceled => ?_, h.ok⟩
  refine Scheduler.mem_queue_of_ne htmp (h.canceled u hu hcanceled) ?_
  rintro rfl
  exact h.live u hu hnone

theorem Covered.skip (hcovered : Covered units w) (h : Sound ok w) (htmp : w.sch.tmp = t :: tmp)
    (hnone : w.sch.routineCabinet t = none) : Covered units { w with sch := { w.sch with tmp } } := by
  have hne : ∀ u, w.inLoop u = true → u ≠ t := by
    rintro u hu rfl
    exact h.live u hu hnone
  have h' := h.skip htmp hnone
  refine hcovered.mono ?_ (fun u hu => ?_) le_rfl
  · exact asleep_subset h h' (fun _ hu => hu) fun u hu hmem => Scheduler.mem_queue_of_ne htmp hmem (hne u hu)
  · obtain ⟨hloop, hmem, hcanceled⟩ := h.mem_woken.mp hu
    exact h'.mem_woken.mpr ⟨hloop, Scheduler.mem_queue_of_ne htmp hmem (hne u hloop), hcanceled⟩

def turn (w : World ρ β) (t : RoutineToken) (tmp : List RoutineToken) : World ρ β :=
  ({ w with sch := ({ w.sch with tmp } : Scheduler).switchToRoutine t } : World ρ β).leaveLoop t

theorem turn_isCanceled (w : World ρ β) (t u : RoutineToken) (tmp : List RoutineToken) :
    (w.turn t tmp).sch.isCanceled u = w.sch.isCanceled u :=
  Scheduler.isCanceled_modify fun _ => rfl

theorem mem_queue_turn (htmp : w.sch.tmp = t :: tmp) (hu : u ∈ w.sch.queue) (hut : u ≠ t) :
    u ∈ (w.turn t tmp).sch.queue := by
  have hmem : u ∈ ({ w.sch with tmp } : Scheduler).queue := Scheduler.mem_queue_of_ne htmp hu hut
  exact hmem

theorem Sound.turn (h : Sound ok w) (htmp : w.sch.tmp = t :: tmp) (hlive : w.sch.routineCabinet t ≠ none) :
    Sound ok (w.turn t tmp) := by
  refine ⟨h.valid.switchToRoutine t tmp htmp hlive, fun u hu => ?_, fun u hu hcurr => ?_,
    fun u hu hcanceled => ?_, h.ok⟩
  · exact (Scheduler.modify_ne_none _ _ _).mpr (h.live u (leaveLoop_apply.mp hu).2)
  · exact (leaveLoop_apply.mp hu).1 (some.inj hcurr).symm
  · obtain ⟨hut, hloop⟩ := leaveLoop_apply.mp hu
    rw [turn_isCanceled] at hcanceled
    exact mem_queue_turn htmp (h.canceled u hloop hcanceled) hut

theorem Sound.asleep_turn (h : Sound ok w) (htmp : w.sch.tmp = t :: tmp)
    (hlive : w.sch.routineCabinet t ≠ none) : (w.turn t tmp).asleep ⊆ w.asleep :=
  asleep_subset h (h.turn htmp hlive) (fun _ hu => (leaveLoop_apply.mp hu).2)
    fun _ hu hmem => mem_queue_turn htmp hmem (leaveLoop_apply.mp hu).1

theorem Sound.woken_turn (h : Sound ok w) (htmp : w.sch.tmp = t :: tmp)
    (hlive : w.sch.routineCabinet t ≠ none) : w.woken.erase t ⊆ (w.turn t tmp).woken := by
  intro u hu
  obtain ⟨hut, hu⟩ := Finset.mem_erase.mp hu
  obtain ⟨hloop, hmem, hcanceled⟩ := h.mem_woken.mp hu
  refine (h.turn htmp hlive).mem_woken.mpr ⟨leaveLoop_apply.mpr ⟨hut, hloop⟩, mem_queue_turn htmp hmem hut, ?_⟩
  rw [turn_isCanceled]
  exact hcanceled

theorem Covered.turn (hcovered : Covered units w) (h : Sound ok w) (htmp : w.sch.tmp = t :: tmp)
    (hlive : w.sch.routineCabinet t ≠ none) (hwoken : t ∉ w.woken) : Covered units (w.turn t tmp) := by
  have hsub := h.woken_turn htmp hlive
  rw [Finset.erase_eq_of_notMem hwoken] at hsub
  exact hcovered.mono (h.asleep_turn htmp hlive) hsub le_rfl

theorem Covered.turn_take (hcovered : Covered units w) (hR : R.Counted units ok) (h : Sound ok w)
    (htmp : w.sch.tmp = t :: tmp) (hlive : w.sch.routineCabinet t ≠ none)
    (hfront : R.front w.res = some v) : Covered units ((w.turn t tmp).take R t v) := by
  intro hne
  have hsub := Finset.card_le_card (h.woken_turn htmp hlive)
  have herase := Finset.pred_card_le_card_erase (s := w.woken) (a := t)
  have hunits := (hR.pop t w.res v h.ok hfront).2
  have hbefore := hcovered (hne.mono (h.asleep_turn htmp hlive))
  change units (R.pop t w.res) ≤ (w.turn t tmp).woken.card
  omega

theorem recheck_cases (w : World ρ β) (t : RoutineToken) :
    (w.sch.isCanceled t = true ∧ ∃ log, w.recheck R t = { w.leaveLoop t with log }) ∨
    (∃ v, R.front w.res = some v ∧ w.recheck R t = (w.leaveLoop t).take R t v) ∨
    (R.front w.res = none ∧ w.recheck R t = w.await t) := by
  rw [recheck]
  split_ifs with hcanceled
  · exact .inl ⟨hcanceled, _, rfl⟩
  · cases hfront : R.front w.res with
    | some v => exact .inr (.inl ⟨v, rfl, rfl⟩)
    | none => exact .inr (.inr ⟨rfl, rfl⟩)

theorem switch_cases (w : World ρ β) (t : RoutineToken) (tmp : List RoutineToken) :
    (w.sch.routineCabinet t = none ∧ w.switch R t tmp = { w with sch := { w.sch with tmp } }) ∨
    (w.sch.routineCabinet t ≠ none ∧ w.inLoop t = false ∧ w.switch R t tmp = w.turn t tmp) ∨
    (w.sch.routineCabinet t ≠ none ∧ w.inLoop t = true ∧ w.switch R t tmp =
      ({ w with sch := ({ w.sch with tmp } : Scheduler).switchToRoutine t } : World ρ β).recheck R t) := by
  rw [switch]
  cases hlive : w.sch.routineCabinet t with
  | none => exact .inl ⟨rfl, rfl⟩
  | some routine =>
    refine .inr ?_
    dsimp only
    cases hloop : w.inLoop t with
    | false =>
      have hself : w.turn t tmp =
          { w with sch := ({ w.sch with tmp } : Scheduler).switchToRoutine t } := leaveLoop_eq_self hloop
      exact .inl ⟨nofun, rfl, hself.symm⟩
    | true => exact .inr ⟨nofun, rfl, rfl⟩

theorem Sound.switch (hR : R.Counted units ok) (h : Sound ok w) (htmp : w.sch.tmp = t :: tmp) :
    Sound ok (w.switch R t tmp) := by
  rcases switch_cases (R := R) w t tmp with ⟨hnone, heq⟩ | ⟨hlive, -, heq⟩ | ⟨hlive, -, heq⟩
  · rw [heq]
    exact h.skip htmp hnone
  · rw [heq]
    exact h.turn htmp hlive
  have hturn := h.turn htmp hlive
  rw [heq]
  rcases recheck_cases (R := R)
    ({ w with sch := ({ w.sch with tmp } : Scheduler).switchToRoutine t } : World ρ β) t with
    ⟨-, log, heq⟩ | ⟨v, hfront, heq⟩ | ⟨-, heq⟩
  · rw [heq]
    exact { hturn with }
  · rw [heq]
    exact hturn.take hR hfront
  · rw [heq]
    exact hturn.await ((Scheduler.modify_ne_none _ _ _).mpr hlive)

theorem Covered.switch (hcovered : Covered units w) (hR : R.Counted units ok) (h : Sound ok w)
    (htmp : w.sch.tmp = t :: tmp) : Covered units (w.switch R t tmp) := by
  rcases switch_cases (R := R) w t tmp with ⟨hnone, heq⟩ | ⟨hlive, hloop, heq⟩ | ⟨hlive, -, heq⟩
  · rw [heq]
    exact hcovered.skip h htmp hnone
  · rw [heq]
    refine hcovered.turn h htmp hlive fun hwoken => ?_
    rw [(h.mem_woken.mp hwoken).1] at hloop
    cases hloop
  · rw [heq]
    rcases recheck_cases (R := R)
      ({ w with sch := ({ w.sch with tmp } : Scheduler).switchToRoutine t } : World ρ β) t with
      ⟨hcanceled, log, heq⟩ | ⟨v, hfront, heq⟩ | ⟨hfront, heq⟩
    · rw [heq]
      refine hcovered.turn h htmp hlive fun hwoken => ?_
      have hnot := (h.mem_woken.mp hwoken).2.2
      rw [← turn_isCanceled w t t tmp] at hnot
      exact absurd (hcanceled.symm.trans hnot) nofun
    · rw [heq]
      exact hcovered.turn_take hR h htmp hlive hfront
    rw [heq]
    refine covered_of_units_eq_zero ?_
    rw [await_res]
    exact (hR.front w.res h.ok).mp hfront

theorem Sound.wake (h : Sound ok w) : Sound ok w.wake := by
  rw [World.wake]
  split
  · next t _ _ =>
    have hresumed := h.forth (h.valid.forth_resume t)
    exact { hresumed with }
  · exact h

theorem wake_res (w : World ρ β) : w.wake.res = w.res := by
  rw [wake]
  split <;> rfl

theorem Sound.asleep_wake (h : Sound ok w) : w.wake.asleep ⊆ w.asleep := by
  rw [World.wake]
  split
  · exact h.asleep_forth (h.valid.forth_resume _)
  · exact Finset.Subset.refl _

theorem Sound.woken_wake (h : Sound ok w) : w.woken ⊆ w.wake.woken := by
  rw [World.wake]
  split
  · exact h.woken_forth (h.valid.forth_resume _)
  · exact Finset.Subset.refl _

theorem Sound.mem_woken_wake (h : Sound ok w) (htoken : t ∈ w.token.head?) (ht : t ∈ w.asleep) :
    t ∈ w.wake.woken := by
  obtain ⟨hloop, hout⟩ := h.mem_asleep.mp ht
  have hcanceled : w.sch.isCanceled t = false :=
    Bool.eq_false_iff.mpr fun hcanceled => hout (h.canceled t hloop hcanceled)
  have hwake := h.wake
  rw [World.wake] at hwake ⊢
  cases htokens : w.token with
  | nil =>
    rw [htokens] at htoken
    cases htoken
  | cons u rest =>
    rw [htokens] at htoken hwake
    obtain rfl : u = t := some.inj htoken
    refine hwake.mem_woken.mpr ⟨hloop, h.valid.mem_resume (h.live u hloop), ?_⟩
    rw [(h.valid.forth_resume u).canceled u (h.apart u hloop)]
    exact hcanceled

theorem Sound.give (hR : R.Counted units ok) (h : Sound ok w) (by' : Option RoutineToken) (v : β) :
    Sound ok (w.give R by' v) :=
  { h with ok := (hR.push v w.res h.ok).1 }

theorem Sound.release (hR : R.Counted units ok) (h : Sound ok w) (by' : Option RoutineToken) (v : β) :
    Sound ok (w.release R by' v) := by
  rw [World.release]
  split_ifs
  · exact h.wake.give hR by' v
  · exact h.give hR by' v

theorem Covered.release (hR : R.Counted units ok) (h : Sound ok w) (by' : Option RoutineToken)
    (v : β) (hcareful : w.asleep.Nonempty → w.Wakes R ∨ units w.res < w.woken.card) :
    Covered units (w.release R by' v) := by
  have hpush := (hR.push v w.res h.ok).2
  rw [World.release]
  split_ifs with hfront
  · intro hne
    change units (R.push v w.wake.res) ≤ w.wake.woken.card
    have hsub := Finset.card_le_card h.woken_wake
    rw [wake_res]
    rcases hcareful (hne.mono h.asleep_wake) with ⟨-, t, htoken, ht⟩ | hless
    · have hzero := (hR.front w.res h.ok).mp (isNone_iff_eq_none.mp hfront)
      have hpos := Finset.card_pos.mpr ⟨t, h.mem_woken_wake htoken ht⟩
      omega
    · omega
  · intro hne
    change units (R.push v w.res) ≤ w.woken.card
    rcases hcareful hne with ⟨hnone, -⟩ | hless
    · exact absurd hnone hfront
    · omega

theorem step_cases (h : w.sch.Valid) (hstep : w.step R input = some w') :
    (∃ sch, Forth w.sch sch ∧ w' = { w with sch }) ∨
    (∃ t, input = .cancel t ∧ w' = { w with sch := w.sch.cancel t }) ∨
    (∃ v, input = .release v ∧ w' = w.release R w.sch.currRoutine v) ∨
    (∃ t, input = .acquire ∧ w.sch.currRoutine = some t ∧ w' = w.acquire R t) ∨
    ∃ t tmp, w.sch.tmp = t :: tmp ∧ w' = w.switch R t tmp := by
  cases input with
  | create runNow =>
    rw [step, ite_none_right_eq_some] at hstep
    exact .inl ⟨_, h.forth_create runNow, (some.inj hstep.2).symm⟩
  | resume t =>
    rw [step, ite_none_right_eq_some] at hstep
    exact .inl ⟨_, h.forth_resume t, (some.inj hstep.2).symm⟩
  | cancel t =>
    rw [step, ite_none_right_eq_some] at hstep
    exact .inr (.inl ⟨t, rfl, (some.inj hstep.2).symm⟩)
  | release v =>
    rw [step, ite_none_right_eq_some] at hstep
    exact .inr (.inr (.inl ⟨v, rfl, (some.inj hstep.2).symm⟩))
  | wait =>
    obtain ⟨t, -, rfl⟩ := map_eq_some_iff.mp hstep
    exact .inl ⟨_, h.forth_wait t, rfl⟩
  | yield =>
    obtain ⟨t, -, rfl⟩ := map_eq_some_iff.mp hstep
    exact .inl ⟨_, h.forth_yield t, rfl⟩
  | join other =>
    obtain ⟨t, -, rfl⟩ := map_eq_some_iff.mp hstep
    exact .inl ⟨_, h.forth_join t other, rfl⟩
  | finish =>
    obtain ⟨t, hcurr, rfl⟩ := map_eq_some_iff.mp hstep
    exact .inl ⟨_, h.forth_finish hcurr, rfl⟩
  | acquire =>
    obtain ⟨t, hcurr, rfl⟩ := map_eq_some_iff.mp hstep
    exact .inr (.inr (.inr (.inl ⟨t, rfl, hcurr, rfl⟩)))
  | schedule =>
    rw [step, ite_none_right_eq_some, Bool.and_eq_true, List.isEmpty_iff] at hstep
    exact .inl ⟨_, h.forth_schedule hstep.1.2, (some.inj hstep.2).symm⟩
  | switch =>
    rw [step] at hstep
    split at hstep
    · next t tmp _ htmp => exact .inr (.inr (.inr (.inr ⟨t, tmp, htmp, (some.inj hstep).symm⟩)))
    · cases hstep

/-- Who is in the wait loop is alive, and not running; nothing is asked of the releases. -/
theorem sound_step (hR : R.Counted units ok) (h : Sound ok w) (hstep : w.step R input = some w') : Sound ok w' := by
  rcases step_cases h.valid hstep with ⟨sch, hforth, rfl⟩ | ⟨t, -, rfl⟩ | ⟨v, -, rfl⟩ |
    ⟨t, -, hcurr, rfl⟩ | ⟨t, tmp, htmp, rfl⟩
  · exact h.forth hforth
  · exact h.marked (h.valid.marked t)
  · exact h.release hR _ v
  · exact h.acquire hR hcurr
  · exact h.switch hR htmp

/-- **No wakeup is lost by a step** that is careful: there are still as many woken routines as units. -/
theorem covered_step (hR : R.Counted units ok) (h : Sound ok w) (hcovered : Covered units w)
    (hcareful : w.Careful R units input) (hstep : w.step R input = some w') : Covered units w' := by
  rcases step_cases h.valid hstep with ⟨sch, hforth, rfl⟩ | ⟨t, rfl, rfl⟩ | ⟨v, rfl, rfl⟩ |
    ⟨t, -, hcurr, rfl⟩ | ⟨t, tmp, htmp, rfl⟩
  · exact hcovered.forth h hforth
  · exact hcovered.marked h (h.valid.marked t) hcareful
  · exact Covered.release hR h _ v hcareful
  · exact hcovered.acquire hR h
  · exact hcovered.switch hR h htmp

structure Takes (R : Resource ρ β) (P : ρ → List (Event β) → Prop) : Prop where
  acquired : ∀ t r v log, P r log → R.front r = some v → P (R.pop t r) (log ++ [.acquired t v])
  refused : ∀ t r log, P r log → P r (log ++ [.refused t])

structure Accounts (R : Resource ρ β) (P : ρ → List (Event β) → Prop) : Prop extends Takes R P where
  released : ∀ t r v log, P r log → P (R.push v r) (log ++ [.released t v])

variable {P : ρ → List (Event β) → Prop}

theorem Takes.await (hP : Takes R P) (h : P w.res w.log) (t : RoutineToken) : P (w.await t).res (w.await t).log := by
  rw [World.await]
  split_ifs
  · exact hP.refused t w.res w.log h
  · exact h

theorem Takes.acquire (hP : Takes R P) (h : P w.res w.log) (t : RoutineToken) :
    P (w.acquire R t).res (w.acquire R t).log := by
  rw [World.acquire]
  split
  · next v hfront => exact hP.acquired t w.res v w.log h hfront
  · exact hP.await (w := { w with token := w.token ++ [t] }) h t

theorem Takes.recheck (hP : Takes R P) (h : P w.res w.log) (t : RoutineToken) :
    P (w.recheck R t).res (w.recheck R t).log := by
  rw [World.recheck]
  split_ifs
  · exact hP.refused t w.res w.log h
  · split
    · next v hfront => exact hP.acquired t w.res v w.log h hfront
    · exact hP.await h t

theorem Takes.switch (hP : Takes R P) (h : P w.res w.log) (t : RoutineToken) (tmp : List RoutineToken) :
    P (w.switch R t tmp).res (w.switch R t tmp).log := by
  rcases switch_cases (R := R) w t tmp with ⟨-, heq⟩ | ⟨-, -, heq⟩ | ⟨-, -, heq⟩ <;> rw [heq]
  · exact h
  · exact h
  · exact hP.recheck (w := { w with sch := ({ w.sch with tmp } : Scheduler).switchToRoutine t }) h t

theorem wake_log (w : World ρ β) : w.wake.log = w.log := by
  rw [wake]
  split <;> rfl

theorem Accounts.release (hP : Accounts R P) (h : P w.res w.log) (t : Option RoutineToken) (v : β) :
    P (w.release R t v).res (w.release R t v).log := by
  rw [World.release]
  split_ifs
  · refine hP.released t w.wake.res v w.wake.log ?_
    rw [wake_res, wake_log]
    exact h
  · exact hP.released t w.res v w.log h

/-- What is given and taken is accounted for by every step. -/
theorem Accounts.step (hP : Accounts R P) (h : P w.res w.log) (hvalid : w.sch.Valid)
    (hstep : w.step R input = some w') : P w'.res w'.log := by
  rcases step_cases hvalid hstep with ⟨sch, -, rfl⟩ | ⟨t, -, rfl⟩ | ⟨v, -, rfl⟩ | ⟨t, -, -, rfl⟩ | ⟨t, tmp, -, rfl⟩
  · exact h
  · exact h
  · exact hP.release h _ v
  · exact hP.acquire h t
  · exact hP.switch h t tmp

theorem sound_init (r : ρ) (h : ok r) : Sound ok ({ res := r } : World ρ β) where
  valid := Scheduler.valid_init
  live _ h := nomatch h
  apart _ h := nomatch h
  canceled _ h := nomatch h
  ok := h

theorem covered_init (r : ρ) : Covered units ({ res := r } : World ρ β) := by
  rintro ⟨t, ht⟩
  cases (Finset.mem_filter.mp ht).2.1

/-- No routine is running, and none is going to be before the next call. -/
def Quiet (w : World ρ β) : Prop :=
  w.sch.currRoutine = none ∧ w.sch.readyRoutines = [] ∧ w.sch.tmp = []

def Waits (w : World ρ β) (t : RoutineToken) : Prop :=
  w.inLoop t ∧ ∃ routine, w.sch.routineCabinet t = some routine ∧ routine.state = .suspend

theorem Covered.front_eq_none (hcovered : Covered units w) (hR : R.Counted units ok) (h : Sound ok w)
    (hquiet : w.Quiet) (hwaits : w.Waits t) : R.front w.res = none := by
  have hempty : w.sch.queue = [] := by
    rw [Scheduler.queue, hquiet.2.1, hquiet.2.2, append_nil]
  have hasleep : t ∈ w.asleep := h.mem_asleep.mpr ⟨hwaits.1, by rw [hempty]; exact not_mem_nil⟩
  have hwoken : w.woken = ∅ := by
    refine Finset.eq_empty_of_forall_notMem fun u hu => ?_
    have hmem := (h.mem_woken.mp hu).2.1
    rw [hempty] at hmem
    cases hmem
  have hunits := hcovered ⟨t, hasleep⟩
  rw [hwoken, Finset.card_empty, Nat.le_zero] at hunits
  exact (hR.front w.res h.ok).mpr hunits

/-- In every run, careful or not, who is in the wait loop is alive. -/
theorem sound_of_run (hR : R.Counted units ok) (r : ρ) (hr : ok r) (inputs : List (Input β))
    (hrun : Lib.run (World.step R) { res := r } inputs = some w) : Sound ok w :=
  Lib.run_invariant_of_step (fun _ _ _ => sound_step hR) (sound_init r hr) hrun

theorem Accounts.of_run (hP : Accounts R P) (hR : R.Counted units ok) (r : ρ) (hr : ok r) (h : P r [])
    (inputs : List (Input β)) (hrun : Lib.run (World.step R) { res := r } inputs = some w) :
    P w.res w.log := by
  have hboth : Sound ok w ∧ P w.res w.log := by
    refine Lib.run_invariant_of_step (I := fun w => Sound ok w ∧ P w.res w.log)
      (fun w input w' hboth hstep => ?_) ⟨sound_init r hr, h⟩ hrun
    exact ⟨sound_step hR hboth.1 hstep, hP.step hboth.2 hboth.1.valid hstep⟩
  exact hboth.2

/-- No wakeup is lost in a run of careful steps. -/
theorem covered_of_run (hR : R.Counted units ok) (r : ρ) (hr : ok r) (inputs : List (Input β))
    (hcareful : Lib.Along (World.step R) (Careful R units) { res := r } inputs)
    (hrun : Lib.run (World.step R) { res := r } inputs = some w) : Covered units w := by
  have hboth : Sound ok w ∧ Covered units w := by
    refine Lib.run_invariant (I := fun w => Sound ok w ∧ Covered units w)
      (fun w input w' hboth hguard hstep => ?_) ⟨sound_init r hr, covered_init r⟩ hcareful hrun
    exact ⟨sound_step hR hboth.1 hstep, covered_step hR hboth.1 hboth.2 hguard hstep⟩
  exact hboth.2

end World

def Event.isAcquired {β : Type} : Event β → Bool
  | .acquired .. => true
  | _ => false

def Event.isReleased {β : Type} : Event β → Bool
  | .released .. => true
  | _ => false

namespace Semaphore

/-- `count_` stays an int. -/
def Fits (w : World Int Unit) : Input Unit → Prop
  | .release _ => w.res + 1 < 2 ^ 31
  | _ => True

instance decidableFits : ∀ (w : World Int Unit) (input : Input Unit), Decidable (Fits w input)
  | w, .release _ => inferInstanceAs (Decidable (w.res + 1 < 2 ^ 31))
  | _, .create _ | _, .resume _ | _, .cancel _ | _, .wait | _, .yield | _, .join _ | _, .finish | _, .acquire
  | _, .schedule | _, .switch => .isTrue trivial

theorem counted : resource.Counted Int.toNat (0 ≤ ·) where
  front count hok := by
    rw [resource]
    dsimp only
    split_ifs with hzero
    · simp only [hzero, Int.toNat_zero]
    · refine iff_of_false nofun ?_
      omega
  pop t count v hok hfront := by
    rw [resource] at hfront ⊢
    dsimp only at hfront ⊢
    split_ifs at hfront
    omega
  push v count hok := by
    rw [resource]
    dsimp only
    omega

/-- How often `acquire` has returned true. -/
def acquired (log : List (Event Unit)) : Nat := log.countP Event.isAcquired

/-- How often `release` was called. -/
def released (log : List (Event Unit)) : Nat := log.countP Event.isReleased

def Balanced (init count : Int) (log : List (Event Unit)) : Prop :=
  count + acquired log = init + released log

theorem accounts (init : Int) : World.Accounts resource (Balanced init) where
  acquired t count v log h _ := by
    have hacquired : acquired (log ++ [.acquired t v]) = acquired log + 1 := countP_append
    have hreleased : released (log ++ [.acquired t v]) = released log := countP_append
    rw [Balanced] at h ⊢
    rw [hacquired, hreleased, resource]
    push_cast
    omega
  refused t count log h := by
    have hacquired : acquired (log ++ [.refused t]) = acquired log := countP_append
    have hreleased : released (log ++ [.refused t]) = released log := countP_append
    rw [Balanced, hacquired, hreleased]
    exact h
  released t count v log h := by
    have hacquired : acquired (log ++ [.released t v]) = acquired log := countP_append
    have hreleased : released (log ++ [.released t v]) = released log + 1 := countP_append
    rw [Balanced] at h ⊢
    rw [hacquired, hreleased, resource]
    push_cast
    omega

end Semaphore

namespace Channel

variable {α : Type}

theorem counted : (resource (α := α)).Counted List.length fun _ => True where
  front queue _ := by
    rw [resource]
    exact List.head?_eq_none_iff.trans length_eq_zero_iff.symm
  pop t queue v _ hfront := by
    obtain ⟨rest, rfl⟩ := List.head?_eq_some_iff.mp hfront
    exact ⟨trivial, rfl⟩
  push v queue _ := ⟨trivial, length_append.le⟩

/-- The values that `operator>>` has given out. -/
def received (log : List (Event α)) : List α :=
  log.filterMap fun
    | .acquired _ v => some v
    | _ => none

/-- The values that `operator<<` was called with. -/
def sent (log : List (Event α)) : List α :=
  log.filterMap fun
    | .released _ v => some v
    | _ => none

def Delivers (queue : List α) (log : List (Event α)) : Prop := received log ++ queue = sent log

theorem accounts : World.Accounts (resource (α := α)) Delivers where
  acquired t queue v log h hfront := by
    obtain ⟨rest, rfl⟩ := List.head?_eq_some_iff.mp hfront
    have hreceived : received (log ++ [.acquired t v]) = received log ++ [v] := filterMap_append
    have hsent : sent (log ++ [.acquired t v]) = sent log ++ [] := filterMap_append
    rw [Delivers, hreceived, hsent, append_nil, append_assoc]
    exact h
  refused t queue log h := by
    have hreceived : received (log ++ [.refused t]) = received log ++ [] := filterMap_append
    have hsent : sent (log ++ [.refused t]) = sent log ++ [] := filterMap_append
    rw [Delivers, hreceived, hsent, append_nil, append_nil]
    exact h
  released t queue v log h := by
    have hreceived : received (log ++ [.released t v]) = received log ++ [] := filterMap_append
    have hsent : sent (log ++ [.released t v]) = sent log ++ [v] := filterMap_append
    rw [Delivers, hreceived, hsent, append_nil, ← h, append_assoc]
    rfl

end Channel

/-- **No wakeup is lost and nothing is had that was not given**, for a semaphore whose count stays an int and for a
channel, the first as long as the releases and cancellations are careful. -/
theorem no_lost_wakeup (α : Type) :
    (∀ (init : Int) (inputs : List (Input Unit)) (w : World Int Unit), 0 ≤ init →
      Lib.run Semaphore.step { res := init } inputs = some w →
      Lib.Along Semaphore.step Semaphore.Fits { res := init } inputs →
        (Lib.Along Semaphore.step (World.Careful Semaphore.resource Int.toNat) { res := init } inputs →
          w.Quiet → ∀ t, w.Waits t → ¬0 < w.res) ∧
        Semaphore.acquired w.log ≤ init + Semaphore.released w.log) ∧
    ∀ (inputs : List (Input α)) (w : World (List α) α), Lib.run Channel.step { res := [] } inputs = some w →
        (Lib.Along Channel.step (World.Careful Channel.resource List.length) { res := [] } inputs →
          w.Quiet → ∀ t, w.Waits t → w.res = []) ∧
        Channel.received w.log ++ w.res = Channel.sent w.log := by
  refine ⟨fun init inputs w hinit hrun _ => ⟨fun hcareful hquiet t hwaits => ?_, ?_⟩,
    fun inputs w hrun => ⟨fun hcareful hquiet t hwaits => ?_, ?_⟩⟩
  · have hsound := World.sound_of_run Semaphore.counted init hinit inputs hrun
    have hcovered := World.covered_of_run Semaphore.counted init hinit inputs hcareful hrun
    have hnone := hcovered.front_eq_none Semaphore.counted hsound hquiet hwaits
    have hzero := (Semaphore.counted.front w.res hsound.ok).mp hnone
    omega
  · have hsound := World.sound_of_run Semaphore.counted init hinit inputs hrun
    have hbalanced : w.res + _ = init + _ := (Semaphore.accounts init).of_run Semaphore.counted init hinit
      rfl inputs hrun
    have hok : 0 ≤ w.res := hsound.ok
    omega
  · have hsound := World.sound_of_run Channel.counted [] trivial inputs hrun
    have hcovered := World.covered_of_run Channel.counted [] trivial inputs hcareful hrun
    exact List.head?_eq_none_iff.mp (hcovered.front_eq_none Channel.counted hsound hquiet hwaits)
  · exact Channel.accounts.of_run Channel.counted [] trivial rfl inputs hrun

def threeRoutines {β : Type} (v : β) : List (Input β) :=
  [.create true, .create true, .create true, .schedule, .switch, .acquire, .switch, .acquire, .switch,
    .release v, .finish, .schedule, .switch, .finish]

theorem threeRoutines_no_lost_wakeup :
    (∃ w, Lib.run Semaphore.step { res := 0 } (threeRoutines ()) = some w ∧ w.Quiet ∧ w.Waits 1 ∧
      ¬0 < w.res ∧ Semaphore.acquired w.log ≤ (0 : Int) + Semaphore.released w.log) ∧
    ∃ w, Lib.run Channel.step { res := [] } (threeRoutines 5) = some w ∧ w.Quiet ∧ w.Waits 1 ∧
      w.res = [] ∧ Channel.received w.log ++ w.res = Channel.sent w.log := by
  refine ⟨⟨_, rfl, ⟨rfl, rfl, rfl⟩, ⟨rfl, _, rfl, rfl⟩, ?_, ?_⟩, ⟨_, rfl, ⟨rfl, rfl, rfl⟩, ⟨rfl, _, rfl, rfl⟩, ?_, ?_⟩⟩
  · exact ((no_lost_wakeup Nat).1 0 (threeRoutines ()) _ le_rfl rfl (by decide +kernel)).1 (by decide +kernel)
      ⟨rfl, rfl, rfl⟩ 1 ⟨rfl, _, rfl, rfl⟩
  · exact ((no_lost_wakeup Nat).1 0 (threeRoutines ()) _ le_rfl rfl (by decide +kernel)).2
  · exact ((no_lost_wakeup Nat).2 (threeRoutines 5) _ rfl).1 (by decide +kernel) ⟨rfl, rfl, rfl⟩ 1
      ⟨rfl, _, rfl, rfl⟩
  · exact ((no_lost_wakeup Nat).2 (threeRoutines 5) _ rfl).2

def overtaken : List (Input Unit) :=
  [.create true, .create true, .schedule, .switch, .acquire, .switch, .release (), .acquire, .yield,
    .schedule, .switch, .switch, .release (), .finish]

def bothAtOnce : List (Input Nat) :=
  [.create true, .create true, .schedule, .switch, .acquire, .switch, .acquire, .release 5, .release 6,
    .schedule, .switch, .finish]

theorem lost_wakeup :
    (¬∀ (init : Int) (inputs : List (Input Unit)) (w : World Int Unit), 0 ≤ init →
      Lib.run Semaphore.step { res := init } inputs = some w → w.Quiet → ∀ t, w.Waits t → ¬0 < w.res) ∧
    ¬∀ (inputs : List (Input Nat)) (w : World (List Nat) Nat),
      Lib.run Channel.step { res := [] } inputs = some w → w.Quiet → ∀ t, w.Waits t → w.res = [] := by
  constructor
  · intro h
    exact h 0 overtaken _ le_rfl rfl ⟨rfl, rfl, rfl⟩ 0 ⟨rfl, _, rfl, rfl⟩ (by decide +kernel)
  · intro h
    have hempty := h bothAtOnce _ rfl ⟨rfl, rfl, rfl⟩ 1 ⟨rfl, _, rfl, rfl⟩
    cases hempty

namespace Broadcast

variable {w w' : World Unit Unit} {t : RoutineToken} {tmp : List RoutineToken} {sch : Scheduler}

/-- Whoever is in `wait` is going to be switched to, or will be resumed by the next `post`. -/
structure Kept (w : World Unit Unit) : Prop where
  sound : World.Sound (fun _ => True) w
  registered : ∀ t, w.inLoop t = true → t ∉ w.sch.queue → t ∈ w.token

theorem Kept.forth (h : Kept w) (hforth : Forth w.sch sch) : Kept { w with sch } where
  sound := h.sound.forth hforth
  registered t hloop hout := h.registered t hloop fun hin => hout (hforth.queue t hin)

theorem Kept.turn (h : Kept w) (htmp : w.sch.tmp = t :: tmp) (hlive : w.sch.routineCabinet t ≠ none) :
    Kept (w.turn t tmp) where
  sound := h.sound.turn htmp hlive
  registered u hu hout := by
    obtain ⟨hut, hloop⟩ := World.leaveLoop_apply.mp hu
    exact h.registered u hloop fun hin => hout (World.mem_queue_turn htmp hin hut)

theorem Kept.switch (h : Kept w) (htmp : w.sch.tmp = t :: tmp) : Kept (w.switch resource t tmp) := by
  rcases World.switch_cases (R := resource) w t tmp with ⟨hnone, heq⟩ | ⟨hlive, -, heq⟩ | ⟨hlive, -, heq⟩
  · rw [heq]
    refine ⟨h.sound.skip htmp hnone, fun u hu hout => h.registered u hu fun hin => ?_⟩
    refine hout (Scheduler.mem_queue_of_ne htmp hin ?_)
    rintro rfl
    exact h.sound.live u hu hnone
  · rw [heq]
    exact h.turn htmp hlive
  · have hturn := h.turn htmp hlive
    rw [heq]
    rcases World.recheck_cases (R := resource)
      ({ w with sch := ({ w.sch with tmp } : Scheduler).switchToRoutine t } : World Unit Unit) t with
      ⟨-, log, heq⟩ | ⟨v, -, heq⟩ | ⟨hnone, -⟩
    · rw [heq]
      exact ⟨{ hturn.sound with }, hturn.registered⟩
    · rw [heq]
      exact ⟨{ hturn.sound with }, hturn.registered⟩
    · cases hnone

theorem Kept.wait (h : Kept w) (hcurr : w.sch.currRoutine = some t) : Kept (wait w t) := by
  have hloop : w.inLoop t = false := Bool.eq_false_of_not_eq_true fun ht => h.sound.apart t ht hcurr
  have hsound : World.Sound (fun _ => True) (({ w with token := w.token ++ [t] } : World Unit Unit).leaveLoop t) := by
    rw [World.leaveLoop_eq_self (by exact hloop)]
    exact { h.sound with }
  refine ⟨hsound.await (h.sound.valid.curr t hcurr), fun u hu hout => ?_⟩
  have hqueue : ∀ u ∈ w.sch.queue, u ∈ (w.sch.wait t).queue := (h.sound.valid.forth_wait t).queue
  by_cases hut : u = t
  · rw [hut, Broadcast.wait, World.await]
    split_ifs
    · exact mem_append_right _ mem_cons_self
    · exact mem_append_right _ mem_cons_self
  · rw [Broadcast.wait, World.await] at hu hout ⊢
    split_ifs at hu hout ⊢
    · exact mem_append_left _ (h.registered u (World.leaveLoop_apply.mp hu).2 fun hin => hout (hqueue u hin))
    · have hloop : w.inLoop u = true := (Function.update_of_ne hut true w.inLoop).symm.trans hu
      exact mem_append_left _ (h.registered u hloop fun hin => hout (hqueue u hin))

theorem forth_resumeAll (tokens : List RoutineToken) (h : sch.Valid) :
    Forth sch (tokens.foldl Scheduler.resume sch) ∧ ∀ t ∈ tokens, sch.currRoutine ≠ some t →
      sch.routineCabinet t ≠ none → t ∈ (tokens.foldl Scheduler.resume sch).queue := by
  induction tokens generalizing sch with
  | nil => exact ⟨.refl h, nofun⟩
  | cons u later ih =>
    have hforth := h.forth_resume u
    obtain ⟨hlater, hmem⟩ := ih hforth.valid
    refine ⟨hforth.trans hlater, fun t ht hcurr hlive => ?_⟩
    rcases mem_cons.mp ht with rfl | ht
    · exact hlater.queue t (h.mem_resume hlive)
    · refine hmem t ht ?_ (hforth.live t hcurr hlive)
      rcases hforth.curr with heq | heq
      · rwa [heq]
      · rw [heq]
        exact nofun

theorem Kept.post (h : Kept w) : Kept (post w) ∧ ∀ t, w.inLoop t = true → t ∈ (post w).sch.queue := by
  obtain ⟨hforth, hresumed⟩ := forth_resumeAll w.token h.sound.valid
  have hall : ∀ t, w.inLoop t = true → t ∈ (Broadcast.post w).sch.queue := by
    intro t hloop
    by_cases hin : t ∈ w.sch.queue
    · exact hforth.queue t hin
    · exact hresumed t (h.registered t hloop hin) (h.sound.apart t hloop) (h.sound.live t hloop)
  exact ⟨⟨{ h.sound.forth hforth with }, fun t hloop hout => absurd (hall t hloop) hout⟩, hall⟩

theorem step_cases {input : Input Unit} (hstep : step w input = some w') : input = .acquire ∨
    (∃ v, input = .release v) ∨ input ≠ .acquire ∧ (∀ v, input ≠ .release v) ∧ w.step resource input = some w' := by
  cases input with
  | acquire => exact .inl rfl
  | release v => exact .inr (.inl ⟨v, rfl⟩)
  | _ => exact .inr (.inr ⟨nofun, nofun, hstep⟩)

/-- A routine in `wait` stays in the ready queue or among the tokens. -/
theorem Kept.step {input : Input Unit} (h : Kept w) (hstep : step w input = some w') : Kept w' := by
  rcases step_cases hstep with rfl | ⟨v, rfl⟩ | ⟨hacquire, hrelease, hother⟩
  · obtain ⟨t, hcurr, rfl⟩ := map_eq_some_iff.mp hstep
    exact h.wait hcurr
  · obtain ⟨-, rfl⟩ := ite_some_none_eq_some.mp hstep
    exact h.post.1
  · rcases World.step_cases h.sound.valid hother with ⟨sch, hforth, rfl⟩ | ⟨t, -, rfl⟩ | ⟨v, heq, -⟩ |
      ⟨t, heq, -, -⟩ | ⟨t, tmp, htmp, rfl⟩
    · exact h.forth hforth
    · have hmarked := h.sound.valid.marked t
      exact ⟨h.sound.marked hmarked, fun u hu hout => h.registered u hu fun hin => hout (hmarked.queue u hin)⟩
    · exact absurd heq (hrelease v)
    · exact absurd heq hacquire
    · exact h.switch htmp

/-- **A `post` wakes everybody**: whoever is in `wait` is in the ready queue or in `wait_tokens_`, and after a `post` in
the queue. -/
theorem post_wakes_all (inputs : List (Input Unit)) :
    Lib.Always step (fun w => (∀ t, w.inLoop t = true → t ∉ w.sch.queue → t ∈ w.token) ∧
      (∀ t, w.inLoop t = true → w.sch.isCanceled t = true → t ∈ w.sch.queue) ∧
      ∀ w', step w (.release ()) = some w' → w'.inLoop = w.inLoop ∧ ∀ t, w'.inLoop t = true → t ∈ w'.sch.queue)
      { res := () } inputs := by
  intro pre _ w hrun
  have h : Kept w := Lib.run_invariant_of_step (I := Kept) (fun _ _ _ => Kept.step)
    ⟨World.sound_init () trivial, nofun⟩ hrun
  refine ⟨h.registered, h.sound.canceled, fun w' hpost => ?_⟩
  obtain ⟨-, rfl⟩ := ite_some_none_eq_some.mp hpost
  exact ⟨rfl, h.post.2⟩

end Broadcast

end Tbox.Coroutine
