import Tbox.Coroutine.Resumption
import Tbox.Lib.Run
import Tbox.Proof.ReadyQueue

/-!
# A routine goes on when what it waits for has come about

Neither `join` nor `Condition::wait` looks again when the routine goes on, so whoever resumes it makes them return
true; a routine that made itself ready keeps its entry, and a cleared cabinet gives tokens again that are still in the
queue. Apart from these a routine is switched to by its own entry, once, and what the calls return is true.
-/

open List Option

namespace Tbox.Coroutine.Resumption

open Cabinet (Token)

open Lib (run Along)

open Function (update_self update_of_ne update_eq_self update)

variable {V : Type}

def Satisfied (logic : Logic) (calls : List (Call V)) : Prop :=
  match logic with
  | .kAll => ∀ before v after, calls = before ++ Call.add v :: after → Call.post v ∈ after
  | .kAny => ∃ before v after, calls = before ++ Call.add v :: after ∧ Call.post v ∈ after

def Cause.isCall : Cause → Bool
  | .resume | .cancel => true
  | _ => false

def Event.Sound : Event V → Prop
  | .switched entry target stand => ∀ e ∈ entry,
      e.made = target ∧ (stand.isSuspended = true → e.cause.isCall = true)
  | .joined result ended canceled => (result = true → ended = true) ∧ (canceled = true → result = false)
  | .waited logic result met canceled =>
    (result = true → ∃ calls ∈ met, Satisfied logic calls) ∧ (canceled = true → result = false)

def Event.entryNo : Event V → Option Nat
  | .switched (some entry) .. => some entry.no
  | _ => none

/-- Whatever happens in it is sound, and no entry has caused two switches. -/
structure World.Faithful (w : World V) : Prop where
  sound : ∀ event ∈ w.log, event.Sound
  once : (w.log.filterMap Event.entryNo).Nodup

def Stand.Released (routineCabinet : RoutineToken → Option Routine) : Stand V → Prop
  | .suspended (.join key) => routineCabinet key = none
  | .suspended (.condition _ met) => met.isSome = true
  | _ => True

instance (routineCabinet : RoutineToken → Option Routine) :
    ∀ stand : Stand V, Decidable (stand.Released routineCabinet)
  | .suspended (.join key) => inferInstanceAs (Decidable (routineCabinet key = none))
  | .suspended (.condition _ met) => inferInstanceAs (Decidable (met.isSome = true))
  | .suspended .plain | .created _ | .running | .yielded => .isTrue trivial

def World.Woken (w : World V) (n : RoutineToken) : Prop :=
  w.sch.isCanceled n = true ∨ (w.stand n).Released w.sch.routineCabinet

instance (w : World V) (n : RoutineToken) : Decidable (w.Woken n) :=
  inferInstanceAs (Decidable (_ ∨ _))

def World.Unready (w : World V) (n : RoutineToken) : Prop :=
  w.cleaning = false → ∀ r ∈ w.sch.routineCabinet n, r.isCanceled = false → r.state = .running

instance (w : World V) (n : RoutineToken) : Decidable (w.Unready n) :=
  inferInstanceAs (Decidable (_ → _))

/-- Nobody is woken before time, or after having asked for it; and no token is given while it is in the
queue. -/
def Orderly [DecidableEq V] (w : World V) : Action V → Prop
  | .create _ => w.cleaning = false →
      ∀ e ∈ w.entries, w.tokens e.made ≠ (w.cabinet.alloc (some w.sch.allocated)).1
  | .resume token => ∀ n ∈ w.cabinet.at? token, w.Woken n
  | .wait => ∀ n ∈ w.sch.currRoutine, w.Unready n
  | .join token => ∀ n ∈ w.sch.currRoutine, (w.joinable token).isSome = true → w.Unready n
  | .waitCondition c => ∀ n ∈ w.sch.currRoutine, (w.conditions c).accepts = true → w.Unready n
  | .finish => ∀ n ∈ w.sch.currRoutine, ∀ other ∈ (w.sch.routineCabinet n).bind Routine.joinToken,
      ∀ m ∈ w.cabinet.at? (w.tokens other), w.stand m = .suspended (.join n) ∨ w.Woken m
  | .post c v => (w.conditions c).completes v = true →
      ∀ n ∈ w.cabinet.at? (w.conditions c).waitToken, (w.stand n).waitsFor c = true ∨ w.Woken n
  | .cleanSwitch n => w.Woken n
  | _ => True

instance [DecidableEq V] (w : World V) : ∀ a : Action V, Decidable (Orderly w a)
  | .create _ => inferInstanceAs (Decidable (_ → _))
  | .resume _ => inferInstanceAs (Decidable (∀ n ∈ _, w.Woken n))
  | .wait => inferInstanceAs (Decidable (∀ n ∈ _, w.Unready n))
  | .join _ => inferInstanceAs (Decidable (∀ n ∈ _, _ → w.Unready n))
  | .waitCondition _ => inferInstanceAs (Decidable (∀ n ∈ _, _ → w.Unready n))
  | .finish => inferInstanceAs (Decidable (∀ n ∈ _, ∀ other ∈ _, ∀ m ∈ _, _ ∨ w.Woken m))
  | .post _ _ => inferInstanceAs (Decidable (_ → ∀ n ∈ _, _ ∨ w.Woken n))
  | .cleanSwitch n => inferInstanceAs (Decidable (w.Woken n))
  | .cancel _ | .yield | .add _ _ | .schedule | .switch | .cleanup | .cleaned => .isTrue trivial

/-- What is missing has been added, and whatever was added and not posted since is missing. -/
structure Condition.Recorded (c : Condition V) : Prop where
  added : ∀ v ∈ c.conds, ∃ before after, c.calls = before ++ Call.add v :: after
  missing : c.logic = .kAll → ∀ before v after, c.calls = before ++ Call.add v :: after →
    Call.post v ∈ after ∨ v ∈ c.conds

namespace Condition

variable {c : Condition V} {v : V} {calls before after : List (Call V)} {call call' : Call V}

theorem of_concat_eq (h : calls ++ [call] = before ++ call' :: after) :
    (after = [] ∧ call = call') ∨ ∃ rest, after = rest ++ [call] ∧ calls = before ++ call' :: rest := by
  rcases eq_nil_or_concat after with rfl | ⟨rest, last, rfl⟩
  · have hlast := append_inj' h rfl
    exact .inl ⟨rfl, head_eq_of_cons_eq hlast.2⟩
  rw [concat_eq_append, ← cons_append, ← append_assoc] at h
  have hlast := append_inj' h rfl
  obtain rfl := head_eq_of_cons_eq hlast.2
  exact .inr ⟨rest, concat_eq_append, hlast.1⟩

theorem Recorded.clear (c : Condition V) : c.clear.Recorded :=
  ⟨fun v hv => absurd hv (Finset.notMem_empty v), fun _ before v after h => by simp [Condition.clear] at h⟩

theorem Recorded.added_concat (h : c.Recorded) (hv : v ∈ c.conds) (call : Call V) :
    ∃ before after, c.calls ++ [call] = before ++ Call.add v :: after := by
  obtain ⟨before, after, hcalls⟩ := h.added v hv
  exact ⟨before, after ++ [call], by rw [hcalls, append_assoc, cons_append]⟩

variable [DecidableEq V]

theorem Recorded.add (h : c.Recorded) (v : V) : (c.add v).Recorded := by
  refine ⟨fun u hu => ?_, fun hlogic before u after hcalls => ?_⟩
  · rcases Finset.mem_insert.mp hu with rfl | hu
    · exact ⟨c.calls, [], rfl⟩
    · exact h.added_concat hu _
  rcases of_concat_eq hcalls with ⟨-, hadd⟩ | ⟨rest, rfl, hrest⟩
  · obtain rfl := Call.add.inj hadd
    exact .inr (Finset.mem_insert_self v c.conds)
  · rcases h.missing hlogic before u rest hrest with hpost | hmissing
    · exact .inl (mem_append_left _ hpost)
    · exact .inr (Finset.mem_insert_of_mem hmissing)

theorem Recorded.post (h : c.Recorded) (v : V) : (c.post v).Recorded := by
  rw [Condition.post]
  split_ifs with hcompletes hmem
  · exact ⟨(Recorded.clear c).added, (Recorded.clear c).missing⟩
  · refine ⟨fun u hu => h.added_concat ?_ _, fun hlogic before u after hcalls => ?_⟩
    · rw [Condition.missing] at hu
      split at hu
      · exact Finset.mem_of_mem_erase hu
      · exact absurd hu (Finset.notMem_empty u)
    · rcases of_concat_eq hcalls with ⟨-, hadd⟩ | ⟨rest, rfl, hrest⟩
      · cases hadd
      by_cases huv : u = v
      · exact .inl (mem_append_right _ (huv ▸ mem_singleton_self _))
      rcases h.missing hlogic before u rest hrest with hpost | hmissing
      · exact .inl (mem_append_left _ hpost)
      · refine .inr ?_
        rw [Condition.missing, hlogic]
        exact Finset.mem_erase.mpr ⟨huv, hmissing⟩
  · refine ⟨fun u hu => h.added_concat hu _, fun hlogic before u after hcalls => ?_⟩
    rcases of_concat_eq hcalls with ⟨-, hadd⟩ | ⟨rest, rfl, hrest⟩
    · cases hadd
    · exact (h.missing hlogic before u rest hrest).imp_left (mem_append_left _)

theorem Recorded.satisfied (h : c.Recorded) (hcompletes : c.completes v = true) :
    Satisfied c.logic (c.calls ++ [.post v]) := by
  obtain ⟨hmem, hnone⟩ := of_decide_eq_true hcompletes
  rw [Condition.missing] at hnone
  rw [Satisfied.eq_def]
  split
  · next hlogic =>
      rw [hlogic] at hnone
      intro before u after hcalls
      rcases of_concat_eq hcalls with ⟨-, hadd⟩ | ⟨rest, rfl, hrest⟩
      · cases hadd
      by_cases huv : u = v
      · exact mem_append_right _ (huv ▸ mem_singleton_self _)
      rcases h.missing hlogic before u rest hrest with hpost | hmissing
      · exact mem_append_left _ hpost
      have herase : u ∈ c.conds.erase v := Finset.mem_erase.mpr ⟨huv, hmissing⟩
      have hnone : c.conds.erase v = ∅ := hnone
      rw [hnone] at herase
      exact absurd herase (Finset.notMem_empty u)
  · obtain ⟨before, after, hcalls⟩ := h.added v hmem
    refine ⟨before, v, after ++ [.post v], ?_, mem_append_right _ (mem_singleton_self _)⟩
    rw [hcalls, append_assoc, cons_append]

theorem logic_post (c : Condition V) (v : V) : (c.post v).logic = c.logic := by
  rw [Condition.post]
  split_ifs <;> rfl

end Condition

def World.own (w : World V) (n : RoutineToken) : List Entry := w.entries.filter fun e => e.made = n

/-- Where a routine is and what entries it has: one if it is ready, none if it is not; any if it is cancelled and runs.
-/
structure Standing (own : List Entry) (r : Routine) (stand : Stand V) : Prop where
  running : stand = .running →
    r.isCanceled = true ∨ r.state = .running ∧ own = [] ∨ r.state = .ready ∧ ∃ e, own = [e]
  resting : stand ≠ .running → r.state = .suspend ∧ own = [] ∨
    r.state = .ready ∧ ∃ e, own = [e] ∧ (stand.isSuspended = true → e.cause.isCall = true)

namespace World

/-- The cabinet holds the routines there are, each under its own token. -/
structure Registered (w : World V) : Prop where
  view : ∀ n, w.sch.routineCabinet n ≠ none → w.cabinet.view (w.tokens n) = some (some n)
  stored : ∀ token obj, w.cabinet.view token = some obj →
    ∃ n, obj = some n ∧ token = w.tokens n ∧ w.sch.routineCabinet n ≠ none
  fresh : ∀ n, w.sch.routineCabinet n ≠ none → n < w.sch.allocated

structure Waking (w : World V) : Prop where
  woken : ∀ n r, w.sch.routineCabinet n = some r → r.state ≠ .suspend → w.Woken n
  joins : ∀ key k n r, w.sch.routineCabinet key = some k → k.joinToken = some n →
    w.sch.routineCabinet n = some r →
    r.isCanceled = true ∨ w.stand n = .suspended (.join key) ∧ r.state = .suspend
  joiners : ∀ key k n, w.sch.routineCabinet key = some k → k.joinToken = some n → n < w.sch.allocated
  keys : ∀ n key, w.stand n = .suspended (.join key) → key < w.sch.allocated
  running : ∀ n, w.sch.currRoutine = some n ↔ w.sch.routineCabinet n ≠ none ∧ w.stand n = .running

structure Asked (w : World V) : Prop where
  recorded : ∀ c, (w.conditions c).Recorded
  met : ∀ n c calls, w.stand n = .suspended (.condition c (some calls)) →
    Satisfied (w.conditions c).logic calls

structure Queued (w : World V) : Prop where
  made : w.entries.map Entry.made = w.sch.tmp ++ w.sch.readyRoutines
  bound : ∀ e ∈ w.entries, e.made < w.sch.allocated
  numbers : (w.log.filterMap Event.entryNo ++ w.entries.map Entry.no).Pairwise (· < ·)
  below : ∀ no ∈ w.log.filterMap Event.entryNo ++ w.entries.map Entry.no, no < w.pushed

structure Placed (w : World V) : Prop where
  standing : ∀ n r, w.sch.routineCabinet n = some r → Standing (w.own n) r (w.stand n)
  opens : ∀ e ∈ w.entries, ∀ n, w.sch.routineCabinet n ≠ none → w.tokens n = w.tokens e.made → n = e.made

structure Kept (w : World V) : Prop extends Registered w, Waking w, Asked w, Queued w where
  placed : w.cleaning = false → Placed w
  idle : w.cleaning = true → w.sch.tmp = []
  sound : ∀ event ∈ w.log, event.Sound

variable {w : World V} {n m : RoutineToken} {r : Routine} {token : Token} {cause : Cause}

theorem Kept.faithful (h : Kept w) : w.Faithful :=
  ⟨h.sound, (h.numbers.imp Nat.ne_of_lt).sublist (sublist_append_left _ _)⟩

theorem kept_initial (logic : ConditionId → Logic) : Kept (initial logic : World V) where
  view _ hn := absurd rfl hn
  stored token _ hobj := nomatch (Cabinet.view_empty token).symm.trans hobj
  fresh _ hn := absurd rfl hn
  woken _ _ hr := nomatch hr
  joins _ _ _ _ hk := nomatch hk
  joiners _ _ _ hk := nomatch hk
  keys _ _ hstand := nomatch hstand
  running _ := ⟨nofun, fun hn => absurd rfl hn.1⟩
  recorded c := Condition.Recorded.clear { logic := logic c }
  met _ _ _ hstand := nomatch hstand
  made := rfl
  bound _ he := absurd he not_mem_nil
  numbers := List.Pairwise.nil
  below _ hno := absurd hno not_mem_nil
  placed _ := ⟨nofun, fun _ he => absurd he not_mem_nil⟩
  idle := nofun
  sound _ hevent := absurd hevent not_mem_nil

theorem Registered.at?_eq_some_iff (h : Registered w) :
    w.cabinet.at? token = some n ↔ w.sch.routineCabinet n ≠ none ∧ w.tokens n = token := by
  rw [Cabinet.at?_eq_join_view]
  constructor
  · intro hat
    have hview : w.cabinet.view token = some (some n) := by
      cases hobj : w.cabinet.view token with
      | none => rw [hobj] at hat; exact nomatch hat
      | some obj => rw [hobj] at hat; exact congrArg some hat
    obtain ⟨m, hm, htoken, hlive⟩ := h.stored token (some n) hview
    cases hm
    exact ⟨hlive, htoken.symm⟩
  · rintro ⟨hlive, rfl⟩
    rw [h.view n hlive]
    rfl

theorem Registered.tokens_injective (h : Registered w) (hn : w.sch.routineCabinet n ≠ none)
    (hm : w.sch.routineCabinet m ≠ none) (htokens : w.tokens n = w.tokens m) : n = m := by
  have hview := h.view n hn
  rw [htokens, h.view m hm] at hview
  exact (some.inj (some.inj hview)).symm

variable {w' : World V}

theorem Registered.allocated (h : Registered w) (hcabinet : w'.cabinet = (w.cabinet.alloc (some w.sch.allocated)).2)
    (htokens : w'.tokens = update w.tokens w.sch.allocated (w.cabinet.alloc (some w.sch.allocated)).1)
    (hallocated : w'.sch.allocated = w.sch.allocated + 1)
    (hroutines : ∀ m, w'.sch.routineCabinet m ≠ none ↔ m = w.sch.allocated ∨ w.sch.routineCabinet m ≠ none) :
    Registered w' := by
  have hview := w.cabinet.view_alloc (some w.sch.allocated)
  have hfree := w.cabinet.view_alloc_fst (some w.sch.allocated)
  rw [← hcabinet] at hview
  generalize (w.cabinet.alloc (some w.sch.allocated)).1 = new at *
  have hold : ∀ m, w.sch.routineCabinet m ≠ none → m ≠ w.sch.allocated := fun m hm => (h.fresh m hm).ne
  have hself : w'.tokens w.sch.allocated = new := by rw [htokens, update_self]
  have hother : ∀ m, w.sch.routineCabinet m ≠ none → w'.tokens m = w.tokens m := by
    intro m hm
    rw [htokens, update_of_ne (hold m hm)]
  refine ⟨fun m hm => ?_, fun token obj hobj => ?_, fun m hm => ?_⟩
  · rw [hview]
    obtain rfl | hm := (hroutines m).mp hm
    · rw [hself, update_self]
    have hne : w.tokens m ≠ new := by
      intro htoken
      have hviewed := h.view m hm
      rw [htoken, hfree] at hviewed
      cases hviewed
    rw [hother m hm, update_of_ne hne]
    exact h.view m hm
  · rw [hview] at hobj
    by_cases htoken : token = new
    · rw [htoken, update_self] at hobj
      exact ⟨_, (some.inj hobj).symm, htoken.trans hself.symm, (hroutines _).mpr (.inl rfl)⟩
    · rw [update_of_ne htoken] at hobj
      obtain ⟨m, rfl, rfl, hlive⟩ := h.stored token obj hobj
      exact ⟨m, rfl, (hother m hlive).symm, (hroutines m).mpr (.inr hlive)⟩
  · rw [hallocated]
    obtain rfl | hm := (hroutines m).mp hm
    · exact Nat.lt_succ_self _
    · exact (h.fresh m hm).trans (Nat.lt_succ_self _)

theorem Registered.freed (h : Registered w) (hlive : w.sch.routineCabinet n ≠ none)
    (hcabinet : w'.cabinet = (w.cabinet.free (w.tokens n)).2) (htokens : w'.tokens = w.tokens)
    (hallocated : w'.sch.allocated = w.sch.allocated)
    (hroutines : ∀ m, w'.sch.routineCabinet m ≠ none ↔ m ≠ n ∧ w.sch.routineCabinet m ≠ none) : Registered w' := by
  refine ⟨fun m hm => ?_, fun token obj hobj => ?_, fun m hm => ?_⟩
  · obtain ⟨hne, hm⟩ := (hroutines m).mp hm
    have htoken : w.tokens m ≠ w.tokens n := fun heq => hne (h.tokens_injective hm hlive heq)
    rw [hcabinet, htokens, Cabinet.view_free, update_of_ne htoken]
    exact h.view m hm
  · rw [hcabinet, Cabinet.view_free] at hobj
    by_cases htoken : token = w.tokens n
    · rw [htoken, update_self] at hobj
      cases hobj
    rw [update_of_ne htoken] at hobj
    obtain ⟨m, rfl, rfl, hm⟩ := h.stored token obj hobj
    refine ⟨m, rfl, by rw [htokens], (hroutines m).mpr ⟨?_, hm⟩⟩
    rintro rfl
    exact htoken rfl
  · rw [hallocated]
    exact h.fresh m ((hroutines m).mp hm).2

variable {routines : RoutineToken → Option Routine}

theorem update_ne_none_iff (r : Routine) :
    update routines n (some r) m ≠ none ↔ m = n ∨ routines m ≠ none := by
  by_cases hm : m = n
  · rw [hm, update_self]
    exact iff_of_true nofun (.inl rfl)
  · rw [update_of_ne hm]
    exact (or_iff_right hm).symm

theorem update_none_ne_none_iff :
    update routines n none m ≠ none ↔ m ≠ n ∧ routines m ≠ none := by
  by_cases hm : m = n
  · rw [hm, update_self]
    exact iff_of_false (fun h => h rfl) fun h => h.1 rfl
  · rw [update_of_ne hm]
    exact (and_iff_right hm).symm

variable {stand : Stand V} {f : Routine → Routine}
  {routineCabinet routineCabinet' : RoutineToken → Option Routine}

theorem isCanceled_eq (hr : w.sch.routineCabinet n = some r) : w.sch.isCanceled n = r.isCanceled := by
  rw [Scheduler.isCanceled, hr]
  rfl

theorem released_mono (h : stand.Released routineCabinet)
    (hnone : ∀ key, stand = .suspended (.join key) → routineCabinet key = none →
      routineCabinet' key = none) : stand.Released routineCabinet' := by
  match stand with
  | .suspended (.join key) => exact hnone key rfl h
  | .suspended (.condition _ _) => exact h
  | .suspended .plain | .created _ | .running | .yielded => trivial

theorem Waking.not_joiner (h : Waking w) (hr : w.sch.routineCabinet n = some r) (hwoken : w.Woken n) :
    r.isCanceled = true ∨ ∀ key k, w.sch.routineCabinet key = some k → k.joinToken ≠ some n := by
  rcases hwoken with hcanceled | hreleased
  · exact .inl (isCanceled_eq hr ▸ hcanceled)
  by_cases hcanceled : r.isCanceled = true
  · exact .inl hcanceled
  refine .inr fun key k hk hjoin => ?_
  obtain ⟨hstand, -⟩ := (h.joins key k n r hk hjoin hr).resolve_left hcanceled
  rw [hstand] at hreleased
  have hnone : w.sch.routineCabinet key = none := hreleased
  rw [hk] at hnone
  cases hnone

theorem Waking.current_iff (h : Waking w) (hlive : w.sch.routineCabinet n ≠ none) (m : RoutineToken) :
    w.sch.currRoutine = some m ↔ m = n ∧ w.stand n = .running ∨ m ≠ n ∧ w.sch.currRoutine = some m := by
  by_cases hm : m = n
  · subst hm
    rw [h.running m]
    tauto
  · tauto

structure Changes (w w' : World V) (n : RoutineToken) (f : Routine → Routine) (stand : Stand V) : Prop where
  routineCabinet : w'.sch.routineCabinet = (w.sch.modify n f).routineCabinet
  allocated : w'.sch.allocated = w.sch.allocated
  stand : w'.stand = update w.stand n stand
  cabinet : w'.cabinet = w.cabinet
  tokens : w'.tokens = w.tokens

namespace Changes

theorem self (h : Changes w w' n f stand) (hr : w.sch.routineCabinet n = some r) :
    w'.sch.routineCabinet n = some (f r) := by
  rw [h.routineCabinet, Scheduler.modify_self, hr]
  rfl

theorem of_ne (h : Changes w w' n f stand) (hm : m ≠ n) : w'.sch.routineCabinet m = w.sch.routineCabinet m := by
  rw [h.routineCabinet, Scheduler.modify_of_ne _ _ hm]

theorem stand_self (h : Changes w w' n f stand) : w'.stand n = stand := by
  rw [h.stand, update_self]

theorem stand_of_ne (h : Changes w w' n f stand) (hm : m ≠ n) : w'.stand m = w.stand m := by
  rw [h.stand, update_of_ne hm]

theorem live_iff (h : Changes w w' n f stand) : w'.sch.routineCabinet m ≠ none ↔ w.sch.routineCabinet m ≠ none := by
  rw [h.routineCabinet, Scheduler.modify_ne_none]

theorem registered (h : Changes w w' n f stand) (hw : Registered w) : Registered w' := by
  refine ⟨fun m hm => ?_, fun token obj hobj => ?_, fun m hm => ?_⟩
  · rw [h.cabinet, h.tokens]
    exact hw.view m (h.live_iff.mp hm)
  · rw [h.cabinet] at hobj
    obtain ⟨m, rfl, htoken, hlive⟩ := hw.stored token obj hobj
    exact ⟨m, rfl, h.tokens ▸ htoken, h.live_iff.mpr hlive⟩
  · rw [h.allocated]
    exact hw.fresh m (h.live_iff.mp hm)

theorem released (h : Changes w w' n f stand) {stand' : Stand V}
    (hreleased : stand'.Released w.sch.routineCabinet) : stand'.Released w'.sch.routineCabinet := by
  refine released_mono hreleased fun key _ hkey => ?_
  by_contra hlive
  exact h.live_iff.mp hlive hkey

theorem woken_of_ne (h : Changes w w' n f stand) (hm : m ≠ n) (hwoken : w.Woken m) : w'.Woken m := by
  rcases hwoken with hcanceled | hreleased
  · exact .inl (by rw [Scheduler.isCanceled, h.of_ne hm]; exact hcanceled)
  · exact .inr (by rw [h.stand_of_ne hm]; exact h.released hreleased)

theorem waking (h : Changes w w' n f stand) (hw : Waking w) (hr : w.sch.routineCabinet n = some r)
    (hjoin : (f r).joinToken = r.joinToken)
    (hwoken : (f r).state ≠ .suspend → (f r).isCanceled = true ∨ stand.Released w.sch.routineCabinet)
    (hjoiner : (f r).isCanceled = true ∨ ∀ key k, w.sch.routineCabinet key = some k → k.joinToken ≠ some n)
    (hkeys : ∀ key, stand = .suspended (.join key) → key < w.sch.allocated)
    (hcurr : ∀ m, w'.sch.currRoutine = some m ↔
      m = n ∧ stand = .running ∨ m ≠ n ∧ w.sch.currRoutine = some m) : Waking w' := by
  have hback : ∀ key k, w'.sch.routineCabinet key = some k →
      ∃ k', w.sch.routineCabinet key = some k' ∧ k.joinToken = k'.joinToken := by
    intro key k hk
    by_cases hkey : key = n
    · rw [hkey, h.self hr] at hk
      cases hk
      exact ⟨r, hkey ▸ hr, hjoin⟩
    · exact ⟨k, h.of_ne hkey ▸ hk, rfl⟩
  refine ⟨fun m q hq hstate => ?_, fun key k m q hk hjoins hq => ?_, fun key k m hk hjoins => ?_,
    fun m key hstand => ?_, fun m => ?_⟩
  · by_cases hm : m = n
    · subst hm
      rw [h.self hr] at hq
      cases hq
      rcases hwoken hstate with hcanceled | hreleased
      · exact .inl ((isCanceled_eq (h.self hr)).trans hcanceled)
      · exact .inr (by rw [h.stand_self]; exact h.released hreleased)
    · exact h.woken_of_ne hm (hw.woken m q (h.of_ne hm ▸ hq) hstate)
  · obtain ⟨k', hk', heq⟩ := hback key k hk
    by_cases hm : m = n
    · subst hm
      rw [h.self hr] at hq
      cases hq
      exact .inl (hjoiner.resolve_right fun hnone => hnone key k' hk' (heq ▸ hjoins))
    · rw [h.stand_of_ne hm]
      exact hw.joins key k' m q hk' (heq ▸ hjoins) (h.of_ne hm ▸ hq)
  · obtain ⟨k', hk', heq⟩ := hback key k hk
    rw [h.allocated]
    exact hw.joiners key k' m hk' (heq ▸ hjoins)
  · rw [h.allocated]
    by_cases hm : m = n
    · exact hkeys key (by rw [← hstand, hm, h.stand_self])
    · exact hw.keys m key (h.stand_of_ne hm ▸ hstand)
  · rw [hcurr m, h.live_iff]
    by_cases hm : m = n
    · subst hm
      rw [h.stand_self]
      have hlive : w.sch.routineCabinet m ≠ none := by rw [hr]; exact nofun
      tauto
    · rw [h.stand_of_ne hm, ← hw.running m]
      tauto

theorem asked (h : Changes w w' n f stand) (hw : Asked w)
    (hconditions : ∀ c, (w'.conditions c).Recorded ∧ (w'.conditions c).logic = (w.conditions c).logic)
    (hmet : ∀ c calls, stand = .suspended (.condition c (some calls)) →
      Satisfied (w.conditions c).logic calls) : Asked w' := by
  refine ⟨fun c => (hconditions c).1, fun m c calls hstand => ?_⟩
  rw [(hconditions c).2]
  by_cases hm : m = n
  · exact hmet c calls (by rw [← hstand, hm, h.stand_self])
  · exact hw.met m c calls (h.stand_of_ne hm ▸ hstand)

theorem placed (h : Changes w w' n f stand) (hw : Placed w) (hr : w.sch.routineCabinet n = some r)
    (hentries : ∀ e ∈ w'.entries, e ∈ w.entries ∨ e.made = n) (hown : ∀ m ≠ n, w'.own m = w.own m)
    (hstanding : Standing (w'.own n) (f r) stand) (hinj : Registered w) : Placed w' := by
  refine ⟨fun m q hq => ?_, fun e he m hm htokens => ?_⟩
  · by_cases hm : m = n
    · subst hm
      rw [h.self hr] at hq
      cases hq
      rw [h.stand_self]
      exact hstanding
    · rw [hown m hm, h.stand_of_ne hm]
      exact hw.standing m q (h.of_ne hm ▸ hq)
  · rw [h.tokens] at htokens
    rcases hentries e he with he | hmade
    · exact hw.opens e he m (h.live_iff.mp hm) htokens
    · rw [hmade] at htokens ⊢
      exact hinj.tokens_injective (h.live_iff.mp hm) (by rw [hr]; exact nofun) htokens

end Changes

theorem call_eq_of_eq {sch : Scheduler} (hready : sch.readyRoutines = w.sch.readyRoutines) :
    w.call sch cause = { w with sch := sch } := by
  simp [call, hready]

theorem call_eq_of_push {sch : Scheduler} (hready : sch.readyRoutines = w.sch.readyRoutines ++ [n]) :
    w.call sch cause = { w with
      sch := sch
      entries := w.entries ++ [Entry.mk w.pushed n cause]
      pushed := w.pushed + 1 } := by
  simp [call, hready]

theorem Queued.push (h : Queued w) {sch : Scheduler} (hn : n < w.sch.allocated)
    (hallocated : sch.allocated = w.sch.allocated) (htmp : sch.tmp = w.sch.tmp)
    (hready : sch.readyRoutines = w.sch.readyRoutines ++ [n]) :
    Queued { w with
      sch := sch
      entries := w.entries ++ [Entry.mk w.pushed n cause]
      pushed := w.pushed + 1 } := by
  have hnumbers : w.log.filterMap Event.entryNo ++ (w.entries ++ [Entry.mk w.pushed n cause]).map Entry.no
      = (w.log.filterMap Event.entryNo ++ w.entries.map Entry.no) ++ [w.pushed] := by
    rw [map_append, append_assoc]
    rfl
  refine ⟨?_, fun e he => ?_, ?_, fun no hno => ?_⟩
  · rw [map_append, h.made, htmp, hready, append_assoc]
    rfl
  · rw [hallocated]
    rcases mem_append.mp he with he | he
    · exact h.bound e he
    · rw [mem_singleton.mp he]
      exact hn
  · dsimp only
    rw [hnumbers, pairwise_append]
    refine ⟨h.numbers, pairwise_singleton _ _, fun a ha b hb => ?_⟩
    rw [mem_singleton.mp hb]
    exact h.below a ha
  · dsimp only at hno ⊢
    rw [hnumbers] at hno
    rcases mem_append.mp hno with hno | hno
    · exact (h.below no hno).trans (Nat.lt_succ_self _)
    · rw [mem_singleton.mp hno]
      exact Nat.lt_succ_self _

theorem own_push {e : Entry} (hentries : w'.entries = w.entries ++ [e]) :
    w'.own n = if e.made = n then w.own n ++ [e] else w.own n := by
  rw [own, own, hentries, filter_append, filter_singleton]
  by_cases hmade : e.made = n
  · simp [hmade]
  · simp [hmade]

theorem standing_ready {own : List Entry} {e : Entry} (h : Standing own r stand)
    (hstate : ¬(r.state = .ready ∨ r.state = .dead)) (hcause : stand.isSuspended = true → e.cause.isCall = true) :
    Standing (own ++ [e]) { r with state := .ready } stand := by
  rw [not_or] at hstate
  refine ⟨fun hrunning => ?_, fun hresting => ?_⟩
  · rcases h.running hrunning with hcanceled | ⟨-, hown⟩ | ⟨hready, -⟩
    · exact .inl hcanceled
    · exact .inr (.inr ⟨rfl, e, by rw [hown, nil_append]⟩)
    · exact absurd hready hstate.1
  · rcases h.resting hresting with ⟨-, hown⟩ | ⟨hready, -⟩
    · exact .inr ⟨rfl, e, by rw [hown, nil_append], hcause⟩
    · exact absurd hready hstate.1

theorem Kept.makeRoutineReady (h : Kept w) (hr : w.sch.routineCabinet n = some r) (hwoken : w.Woken n)
    (hcause : (w.stand n).isSuspended = true → cause.isCall = true) :
    Kept (w.call (w.sch.makeRoutineReady n r) cause) := by
  have hlive : w.sch.routineCabinet n ≠ none := by rw [hr]; exact nofun
  rw [Scheduler.makeRoutineReady]
  split_ifs with hstate
  · rw [call_eq_of_eq rfl]
    exact h
  rw [call_eq_of_push rfl]
  have hchanges : Changes w { w with
      sch := { w.sch.modify n fun r => { r with state := .ready } with
        readyRoutines := w.sch.readyRoutines ++ [n] }
      entries := w.entries ++ [Entry.mk w.pushed n cause]
      pushed := w.pushed + 1 } n (fun r => { r with state := .ready }) (w.stand n) :=
    ⟨rfl, rfl, (update_eq_self n w.stand).symm, rfl, rfl⟩
  refine ⟨hchanges.registered h.toRegistered, ?_, ?_, ?_, fun hcleaning => ?_, h.idle, h.sound⟩
  · have hjoiner := h.not_joiner hr hwoken
    refine hchanges.waking h.toWaking hr rfl (fun _ => ?_) hjoiner (h.keys n) (h.current_iff hlive)
    exact hwoken.imp_left fun hcanceled => (isCanceled_eq hr).symm.trans hcanceled
  · exact hchanges.asked h.toAsked (fun c => ⟨h.recorded c, rfl⟩) fun c calls => h.met n c calls
  · exact h.toQueued.push (h.fresh n hlive) rfl rfl rfl
  have hplaced := h.placed hcleaning
  refine hchanges.placed hplaced hr (fun e he => ?_) (fun m hm => ?_) ?_ h.toRegistered
  · rcases mem_append.mp he with he | he
    · exact .inl he
    · exact .inr (by rw [mem_singleton.mp he])
  · rw [own_push rfl, if_neg hm.symm]
  · rw [own_push rfl, if_pos rfl]
    exact standing_ready (hplaced.standing n r hr) hstate hcause

theorem Kept.markCanceled (h : Kept w) (hr : w.sch.routineCabinet n = some r) :
    Kept { w with sch := w.sch.modify n fun r => { r with isCanceled := true } } := by
  have hlive : w.sch.routineCabinet n ≠ none := by rw [hr]; exact nofun
  have hchanges : Changes w { w with sch := w.sch.modify n fun r => { r with isCanceled := true } } n
      (fun r => { r with isCanceled := true }) (w.stand n) :=
    ⟨rfl, rfl, (update_eq_self n w.stand).symm, rfl, rfl⟩
  refine ⟨hchanges.registered h.toRegistered, ?_, ?_, { h with }, fun hcleaning => ?_, h.idle, h.sound⟩
  · exact hchanges.waking h.toWaking hr rfl (fun _ => .inl rfl) (.inl rfl) (h.keys n) (h.current_iff hlive)
  · exact hchanges.asked h.toAsked (fun c => ⟨h.recorded c, rfl⟩) fun c calls => h.met n c calls
  have hplaced := h.placed hcleaning
  have hstanding := hplaced.standing n r hr
  exact hchanges.placed hplaced hr (fun e he => .inl he) (fun _ _ => rfl)
    ⟨fun _ => .inl rfl, hstanding.resting⟩ h.toRegistered

theorem Kept.suspend (h : Kept w) (hcurr : w.sch.currRoutine = some n)
    (hr : w.sch.routineCabinet n = some r) (hcanceled : r.isCanceled = false)
    (hstate : w.cleaning = false → r.state = .running) (wait : Wait V)
    (hkey : ∀ key, wait = .join key → key < w.sch.allocated) (hmet : ∀ c calls, wait ≠ .condition c (some calls)) :
    Kept { w.setStand n (.suspended wait) with sch := w.sch.suspend n } := by
  have hstand := ((h.running n).mp hcurr).2
  have hwoken : w.Woken n := .inr (by rw [hstand]; trivial)
  have hchanges : Changes w { w.setStand n (.suspended wait) with sch := w.sch.suspend n } n
      (fun r => { r with state := .suspend }) (.suspended wait) := ⟨rfl, rfl, rfl, rfl, rfl⟩
  refine ⟨hchanges.registered h.toRegistered, ?_, ?_, { h with }, fun hcleaning => ?_, h.idle, h.sound⟩
  · have hjoiner := h.not_joiner hr hwoken
    refine hchanges.waking h.toWaking hr rfl (fun hne => absurd rfl hne) hjoiner
      (fun key hsuspended => hkey key (Stand.suspended.inj hsuspended)) fun m => ?_
    rw [hcurr]
    refine ⟨nofun, ?_⟩
    rintro (⟨-, hrunning⟩ | ⟨hm, hcurr'⟩)
    · cases hrunning
    · exact absurd (some.inj hcurr').symm hm
  · exact hchanges.asked h.toAsked (fun c => ⟨h.recorded c, rfl⟩) fun c calls hsuspended =>
      absurd (Stand.suspended.inj hsuspended) (hmet c calls)
  have hplaced := h.placed hcleaning
  refine hchanges.placed hplaced hr (fun e he => .inl he) (fun _ _ => rfl)
    ⟨nofun, fun _ => .inl ⟨rfl, ?_⟩⟩ h.toRegistered
  rcases (hplaced.standing n r hr).running hstand with hcanceled' | ⟨-, hown⟩ | ⟨hready, -⟩
  · rw [hcanceled] at hcanceled'
    exact nomatch hcanceled'
  · exact hown
  · rw [hstate hcleaning] at hready
    cases hready

theorem Kept.leave (h : Kept w) (hcurr : w.sch.currRoutine = some n)
    (hr : w.sch.routineCabinet n = some r) (hcanceled : r.isCanceled = false)
    (hready : w.cleaning = false → r.state = .ready) :
    Kept { w.setStand n .yielded with sch := { w.sch with currRoutine := none } } := by
  have hstand := ((h.running n).mp hcurr).2
  have hwoken : w.Woken n := .inr (by rw [hstand]; trivial)
  have hchanges : Changes w { w.setStand n .yielded with sch := { w.sch with currRoutine := none } } n
      id .yielded := ⟨(Scheduler.modify_id _ n).symm, rfl, rfl, rfl, rfl⟩
  refine ⟨hchanges.registered h.toRegistered, ?_, ?_, { h with }, fun hcleaning => ?_, h.idle, h.sound⟩
  · refine hchanges.waking h.toWaking hr rfl (fun _ => .inr trivial) (h.not_joiner hr hwoken) nofun fun m => ?_
    rw [hcurr]
    refine ⟨nofun, ?_⟩
    rintro (⟨-, hrunning⟩ | ⟨hm, hcurr'⟩)
    · cases hrunning
    · exact absurd (some.inj hcurr').symm hm
  · exact hchanges.asked h.toAsked (fun c => ⟨h.recorded c, rfl⟩) nofun
  have hplaced := h.placed hcleaning
  refine hchanges.placed hplaced hr (fun e he => .inl he) (fun _ _ => rfl)
    ⟨nofun, fun _ => .inr ⟨hready hcleaning, ?_⟩⟩ h.toRegistered
  rcases (hplaced.standing n r hr).running hstand with hcanceled' | ⟨hrunning, -⟩ | ⟨-, e, hown⟩
  · rw [hcanceled] at hcanceled'
    exact nomatch hcanceled'
  · exact nomatch (hready hcleaning).symm.trans hrunning
  · exact ⟨e, hown, nofun⟩

structure Switched (w w' : World V) (entry : Option Entry) (n : RoutineToken) : Prop where
  changes : Changes w w' n (fun r => { r with state := .running, isStarted := true }) .running
  curr : w'.sch.currRoutine = some n
  tmp : w'.sch.tmp = w.sch.tmp
  ready : w'.sch.readyRoutines = w.sch.readyRoutines
  entries : w'.entries = w.entries
  pushed : w'.pushed = w.pushed
  cleaning : w'.cleaning = w.cleaning
  conditions : ∀ c, w'.conditions c = w.conditions c ∨ w'.conditions c = (w.conditions c).clear
  log : ∃ returned, w'.log = w.log ++ .switched entry n (w.stand n) :: returned ∧
    ∀ event ∈ returned, event.Sound ∧ event.entryNo = none

theorem switched (h : Asked w) (hr : w.sch.routineCabinet n = some r) (hwoken : w.Woken n)
    (entry : Option Entry) : Switched w (w.switchToRoutine entry n) entry n := by
  have hlive : w.sch.routineCabinet n ≠ none := by rw [hr]; simp
  have hself : (w.sch.switchToRoutine n).routineCabinet n
      = some { r with state := .running, isStarted := true } := by
    refine (Scheduler.modify_self w.sch n _).trans ?_
    rw [hr]
    rfl
  have hcanceled : (w.sch.switchToRoutine n).isCanceled n = w.sch.isCanceled n := by
    rw [Scheduler.isCanceled, Scheduler.isCanceled, hself, hr]
    rfl
  rw [switchToRoutine]
  split
  · next key hstand =>
      refine ⟨⟨rfl, rfl, rfl, rfl, rfl⟩, rfl, rfl, rfl, rfl, rfl, rfl, fun _ => .inl rfl, _,
        append_assoc _ _ _, fun event hevent => ?_⟩
      rw [mem_singleton.mp hevent]
      refine ⟨⟨fun hresult => ?_, fun hcanceled' => ?_⟩, rfl⟩
      · dsimp only [setStand] at hresult
        rw [hcanceled] at hresult
        rcases hwoken with hcanceled' | hreleased
        · rw [hcanceled'] at hresult
          cases hresult
        rw [hstand] at hreleased
        have hnone : w.sch.routineCabinet key = none := hreleased
        have hkey : key ≠ n := by
          rintro rfl
          exact hlive hnone
        have hgone : (w.sch.switchToRoutine n).routineCabinet key = none :=
          (Scheduler.modify_of_ne w.sch _ hkey).trans hnone
        rw [ended, setStand]
        rw [hgone]
        rfl
      · dsimp only at hcanceled' ⊢
        rw [hcanceled']
        rfl
  · next c met hstand =>
      refine ⟨⟨rfl, rfl, rfl, rfl, rfl⟩, rfl, rfl, rfl, rfl, rfl, rfl, fun c' => ?_, _,
        append_assoc _ _ _, fun event hevent => ?_⟩
      · by_cases hc : c' = c
        · subst hc
          exact .inr (update_self _ _ _)
        · exact .inl (update_of_ne hc _ _)
      · rw [mem_singleton.mp hevent]
        refine ⟨⟨fun hresult => ?_, fun hcanceled' => ?_⟩, rfl⟩
        · dsimp only [setStand] at hresult
          rw [hcanceled] at hresult
          rcases hwoken with hcanceled' | hreleased
          · rw [hcanceled'] at hresult
            cases hresult
          · rw [hstand] at hreleased
            obtain ⟨calls, rfl⟩ := isSome_iff_exists.mp hreleased
            exact ⟨calls, rfl, h.met n c calls hstand⟩
        · dsimp only at hcanceled' ⊢
          rw [hcanceled']
          rfl
  · exact ⟨⟨rfl, rfl, rfl, rfl, rfl⟩, rfl, rfl, rfl, rfl, rfl, rfl, fun _ => .inl rfl, [], rfl,
      fun event hevent => absurd hevent not_mem_nil⟩

structure Arriving (w : World V) (entry : Option Entry) (n : RoutineToken) : Prop
    extends Registered w, Waking w, Asked w where
  curr : w.sch.currRoutine = none
  made : w.entries.map Entry.made = w.sch.tmp ++ w.sch.readyRoutines
  bound : ∀ e ∈ w.entries, e.made < w.sch.allocated
  numbers : (w.log.filterMap Event.entryNo ++ (entry.toList.map Entry.no ++ w.entries.map Entry.no)).Pairwise
    (· < ·)
  below : ∀ no ∈ w.log.filterMap Event.entryNo ++ (entry.toList.map Entry.no ++ w.entries.map Entry.no),
    no < w.pushed
  standing : w.cleaning = false → ∀ m r, m ≠ n → w.sch.routineCabinet m = some r →
    Standing (w.own m) r (w.stand m)
  own : w.cleaning = false → w.own n = []
  opens : w.cleaning = false →
    ∀ e ∈ w.entries, ∀ n, w.sch.routineCabinet n ≠ none → w.tokens n = w.tokens e.made → n = e.made
  idle : w.cleaning = true → w.sch.tmp = []
  sound : ∀ event ∈ w.log, event.Sound
  soundSwitch : (Event.switched entry n (w.stand n)).Sound

/-- Being switched to takes the entry that was in hand, and leaves the rest in order. -/
theorem Arriving.kept {entry : Option Entry} (h : Arriving w entry n) (hr : w.sch.routineCabinet n = some r)
    (hwoken : w.Woken n) : Kept (w.switchToRoutine entry n) := by
  have hs := switched h.toAsked hr hwoken entry
  have hjoiner := h.not_joiner hr hwoken
  obtain ⟨returned, hlog, hreturned⟩ := hs.log
  have hnos : (w.switchToRoutine entry n).log.filterMap Event.entryNo
      = w.log.filterMap Event.entryNo ++ entry.toList.map Entry.no := by
    have hnone : returned.filterMap Event.entryNo = [] :=
      filterMap_eq_nil_iff.mpr fun event hevent => (hreturned event hevent).2
    rw [hlog, filterMap_append, filterMap_cons, hnone]
    cases entry <;> rfl
  have hown : ∀ m, (w.switchToRoutine entry n).own m = w.own m := by
    intro m
    rw [World.own, World.own, hs.entries]
  refine ⟨hs.changes.registered h.toRegistered, ?_, ?_, ⟨?_, ?_, ?_, ?_⟩, fun hcleaning => ?_, ?_,
    fun event hevent => ?_⟩
  · refine hs.changes.waking h.toWaking hr rfl (fun _ => .inr trivial) hjoiner nofun fun m => ?_
    rw [hs.curr, h.curr]
    simp only [some.injEq, eq_comm, and_true, reduceCtorEq, and_false, or_false]
  · refine hs.changes.asked h.toAsked (fun c => ?_) nofun
    rcases hs.conditions c with heq | heq <;> rw [heq]
    · exact ⟨h.recorded c, rfl⟩
    · exact ⟨Condition.Recorded.clear _, rfl⟩
  · rw [hs.entries, hs.tmp, hs.ready]
    exact h.made
  · rw [hs.entries, hs.changes.allocated]
    exact h.bound
  · rw [hnos, hs.entries, append_assoc]
    exact h.numbers
  · rw [hnos, hs.entries, hs.pushed, append_assoc]
    exact h.below
  · rw [hs.cleaning] at hcleaning
    refine ⟨fun m q hq => ?_, fun e he m hm htokens => ?_⟩
    · rw [hown m]
      by_cases hm : m = n
      · subst hm
        rw [hs.changes.self hr] at hq
        cases hq
        rw [hs.changes.stand_self]
        exact ⟨fun _ => .inr (.inl ⟨rfl, h.own hcleaning⟩), fun hne => absurd rfl hne⟩
      · rw [hs.changes.stand_of_ne hm]
        exact h.standing hcleaning m q hm (hs.changes.of_ne hm ▸ hq)
    · rw [hs.changes.tokens] at htokens
      exact h.opens hcleaning e (hs.entries ▸ he) m (hs.changes.live_iff.mp hm) htokens
  · rw [hs.cleaning, hs.tmp]
    exact h.idle
  rw [hlog] at hevent
  rcases mem_append.mp hevent with hevent | hevent
  · exact h.sound event hevent
  · rcases mem_cons.mp hevent with rfl | hevent
    · exact h.soundSwitch
    · exact (hreturned event hevent).1

theorem Kept.cleanSwitch (h : Kept w) (hcurr : w.sch.currRoutine = none) (hcleaning : w.cleaning = true)
    (hr : w.sch.routineCabinet n = some r) (hwoken : w.Woken n) : Kept (w.switchToRoutine none n) := by
  have hbusy : w.cleaning ≠ false := by rw [hcleaning]; exact nofun
  exact Arriving.kept { h with
    curr := hcurr
    standing := fun hc => absurd hc hbusy
    own := fun hc => absurd hc hbusy
    opens := fun hc => absurd hc hbusy
    soundSwitch := nofun } hr hwoken

theorem Kept.switch (h : Kept w) {entry : Entry} {entries : List Entry} {t : RoutineToken}
    {tmp : List RoutineToken} (hcurr : w.sch.currRoutine = none) (htmp : w.sch.tmp = t :: tmp)
    (hentries : w.entries = entry :: entries) : Kept (w.switch entry entries tmp) := by
  have hcleaning : w.cleaning = false := by
    by_contra hc
    have hnil := h.idle (Bool.eq_true_of_not_eq_false hc)
    rw [htmp] at hnil
    cases hnil
  have hplaced := h.placed hcleaning
  have hmade : entries.map Entry.made = tmp ++ w.sch.readyRoutines := by
    have hall := h.made
    rw [hentries, htmp, map_cons, cons_append] at hall
    exact tail_eq_of_cons_eq hall
  have hmem : ∀ e ∈ entries, e ∈ w.entries := fun e he => hentries ▸ mem_cons_of_mem entry he
  have hnumbers : w.log.filterMap Event.entryNo ++ w.entries.map Entry.no
      = w.log.filterMap Event.entryNo ++ (entry.no :: entries.map Entry.no) := by
    rw [hentries, map_cons]
  have hown : ∀ m, m ≠ entry.made → w.own m = entries.filter fun e => e.made = m := by
    intro m hm
    rw [own, hentries, filter_cons_of_neg]
    exact fun heq => hm (of_decide_eq_true heq).symm
  have hpairwise := hnumbers ▸ h.numbers
  have hbelow := hnumbers ▸ h.below
  rw [World.switch]
  split
  · next n hat =>
      obtain ⟨hlive, htokens⟩ := h.at?_eq_some_iff.mp hat
      obtain ⟨r, hr⟩ := ne_none_iff_exists'.mp hlive
      obtain rfl : n = entry.made := hplaced.opens entry (hentries ▸ mem_cons_self) n hlive htokens
      have hhead : w.own entry.made = entry :: entries.filter fun e => e.made = entry.made := by
        rw [own, hentries]
        exact filter_cons_of_pos (decide_eq_true rfl)
      have hstand : w.stand entry.made ≠ .running := by
        intro hrunning
        have hself := (h.running entry.made).mpr ⟨hlive, hrunning⟩
        rw [hcurr] at hself
        cases hself
      rcases (hplaced.standing _ r hr).resting hstand with ⟨-, hnil⟩ | ⟨hready, e, hsingle, hcause⟩
      · rw [hhead] at hnil
        cases hnil
      rw [hhead] at hsingle
      obtain ⟨rfl, hrest⟩ := List.cons.inj hsingle
      have hwoken := h.woken _ r hr (by rw [hready]; exact nofun)
      refine Arriving.kept { h with
        curr := hcurr
        made := hmade
        bound := fun e he => h.bound e (hmem e he)
        numbers := hpairwise
        below := hbelow
        standing := fun _ m q hm hq => ?_
        own := fun _ => hrest
        opens := fun _ e he => hplaced.opens e (hmem e he)
        idle := fun hc => absurd (hcleaning.symm.trans hc) nofun
        soundSwitch := ?_ } hr hwoken
      · have hstanding := hplaced.standing m q hq
        rw [hown m hm] at hstanding
        exact hstanding
      · intro e he
        cases he
        exact ⟨rfl, hcause⟩
  · next hat =>
      refine { h with
        made := hmade
        bound := fun e he => h.bound e (hmem e he)
        numbers := ?_
        below := fun no hno => ?_
        placed := fun _ => ⟨fun m q hq => ?_, fun e he => hplaced.opens e (hmem e he)⟩
        idle := fun hc => absurd (hcleaning.symm.trans hc) nofun }
      · exact hpairwise.sublist (List.Sublist.append_left (sublist_cons_self _ _) _)
      · refine hbelow no ?_
        exact (List.Sublist.append_left (sublist_cons_self _ _) _).subset hno
      have hne : m ≠ entry.made := by
        rintro rfl
        rw [h.at?_eq_some_iff.mpr ⟨by rw [hq]; exact nofun, rfl⟩] at hat
        cases hat
      have hstanding := hplaced.standing m q hq
      rw [hown m hne] at hstanding
      exact hstanding

theorem Kept.alloc (h : Kept w) (runNow : Bool)
    (hunused : w.cleaning = false → ∀ e ∈ w.entries, w.tokens e.made ≠ (w.cabinet.alloc (some w.sch.allocated)).1) :
    Kept { w with
      cabinet := (w.cabinet.alloc (some w.sch.allocated)).2
      tokens := update w.tokens w.sch.allocated (w.cabinet.alloc (some w.sch.allocated)).1
      stand := update w.stand w.sch.allocated (.created runNow)
      sch := { w.sch with
        routineCabinet := update w.sch.routineCabinet w.sch.allocated (some {})
        allocated := w.sch.allocated + 1 } } := by
  have hnone : w.sch.routineCabinet w.sch.allocated = none := by
    by_contra hlive
    exact lt_irrefl _ (h.fresh _ hlive)
  have hregistered : Registered { w with
      cabinet := (w.cabinet.alloc (some w.sch.allocated)).2
      tokens := update w.tokens w.sch.allocated (w.cabinet.alloc (some w.sch.allocated)).1
      stand := update w.stand w.sch.allocated (.created runNow)
      sch := { w.sch with
        routineCabinet := update w.sch.routineCabinet w.sch.allocated (some {})
        allocated := w.sch.allocated + 1 } } :=
    h.toRegistered.allocated rfl rfl rfl fun _ => update_ne_none_iff {}
  generalize w.cabinet.alloc (some w.sch.allocated) = new at *
  generalize hn : w.sch.allocated = n at *
  have hof_ne : ∀ m, m ≠ n → update w.sch.routineCabinet n (some {}) m = w.sch.routineCabinet m :=
    fun m hm => update_of_ne hm _ _
  have hself : update w.sch.routineCabinet n (some {}) n = some {} := update_self _ _ _
  have htokens : ∀ m, m ≠ n → update w.tokens n new.1 m = w.tokens m := fun m hm => update_of_ne hm _ _
  have hstand : ∀ m, m ≠ n → update w.stand n (.created runNow) m = w.stand m := fun m hm => update_of_ne hm _ _
  refine ⟨hregistered, ⟨fun m r hr hstate => ?_,
    fun key k m r hk hjoin hr => ?_, fun key k m hk hjoin => ?_, fun m key hjoin => ?_, fun m => ?_⟩,
    ⟨h.recorded, fun m c calls hmet => ?_⟩,
    ⟨h.made, fun e he => (hn ▸ h.bound e he).trans (Nat.lt_succ_self n), h.numbers, h.below⟩,
    fun hcleaning => ⟨fun m r hr => ?_, fun e he m hm htoken => ?_⟩, h.idle, h.sound⟩ <;> dsimp only at *
  · by_cases hm : m = n
    · rw [hm, hself] at hr
      cases hr
      exact absurd rfl hstate
    rw [hof_ne m hm] at hr
    have hwoken := h.woken m r hr hstate
    unfold Woken at hwoken ⊢
    dsimp only
    rw [hstand m hm]
    refine hwoken.imp (fun hcanceled => ?_) fun hreleased => ?_
    · rw [Scheduler.isCanceled]
      dsimp only
      rw [hof_ne m hm]
      exact hcanceled
    · refine released_mono hreleased fun key hsuspended hgone => ?_
      have hkey : key ≠ n := Nat.ne_of_lt (hn ▸ h.keys m key hsuspended)
      exact (hof_ne key hkey).trans hgone
  · by_cases hkey : key = n
    · rw [hkey, hself] at hk
      cases hk
      cases hjoin
    rw [hof_ne key hkey] at hk
    have hm : m ≠ n := Nat.ne_of_lt (hn ▸ h.joiners key k m hk hjoin)
    rw [hof_ne m hm] at hr
    rw [hstand m hm]
    exact h.joins key k m r hk hjoin hr
  · by_cases hkey : key = n
    · rw [hkey, hself] at hk
      cases hk
      cases hjoin
    · rw [hof_ne key hkey] at hk
      exact (hn ▸ h.joiners key k m hk hjoin).trans (Nat.lt_succ_self n)
  · by_cases hm : m = n
    · rw [hm, update_self] at hjoin
      cases hjoin
    · rw [hstand m hm] at hjoin
      exact (hn ▸ h.keys m key hjoin).trans (Nat.lt_succ_self n)
  · by_cases hm : m = n
    · rw [hm, h.running n, hnone, hself, update_self]
      exact ⟨fun hlive => absurd rfl hlive.1, fun hrunning => by cases hrunning.2⟩
    · rw [hof_ne m hm, hstand m hm]
      exact h.running m
  · by_cases hm : m = n
    · rw [hm, update_self] at hmet
      cases hmet
    · rw [hstand m hm] at hmet
      exact h.met m c calls hmet
  · by_cases hm : m = n
    · rw [hm, hself] at hr
      cases hr
      rw [hm, update_self]
      refine ⟨(by simp), fun _ => .inl ⟨rfl, ?_⟩⟩
      refine filter_eq_nil_iff.mpr fun e he hmade => ?_
      have hbound := h.bound e he
      rw [of_decide_eq_true hmade, hn] at hbound
      exact lt_irrefl n hbound
    · rw [hof_ne m hm] at hr
      rw [hstand m hm]
      exact (h.placed hcleaning).standing m r hr
  · have hmade : e.made ≠ n := Nat.ne_of_lt (hn ▸ h.bound e he)
    rw [htokens e.made hmade] at htoken
    by_cases hm' : m = n
    · rw [hm', update_self] at htoken
      exact absurd htoken.symm (hunused hcleaning e he)
    · rw [hof_ne m hm'] at hm
      rw [htokens m hm'] at htoken
      exact (h.placed hcleaning).opens e he m hm htoken

theorem woken_free {curr : Option RoutineToken} (hwoken : w.Woken m) (hm : m ≠ n) :
    Woken { w.free n with sch := { (w.free n).sch with currRoutine := curr } } m := by
  refine hwoken.imp (fun hcanceled => ?_) fun hreleased => ?_
  · rw [Scheduler.isCanceled, World.free]
    dsimp only
    rw [update_of_ne hm]
    exact hcanceled
  · refine released_mono hreleased fun key _ hgone => ?_
    rw [World.free]
    dsimp only
    by_cases hkey : key = n
    · rw [hkey, update_self]
    · rw [update_of_ne hkey]
      exact hgone

theorem Kept.free (h : Kept w) (hlive : w.sch.routineCabinet n ≠ none) {curr : Option RoutineToken}
    (hcurr : ∀ m, curr = some m ↔ m ≠ n ∧ w.sch.currRoutine = some m) :
    Kept { w.free n with sch := { (w.free n).sch with currRoutine := curr } } := by
  have hof_ne : ∀ m, m ≠ n → update w.sch.routineCabinet n none m = w.sch.routineCabinet m :=
    fun m hm => update_of_ne hm _ _
  have hself : update w.sch.routineCabinet n none n = none := update_self _ _ _
  have hold : ∀ m, update w.sch.routineCabinet n none m ≠ none → m ≠ n := by
    rintro m hm rfl
    exact hm hself
  have hsome : ∀ m r, update w.sch.routineCabinet n none m = some r →
      m ≠ n ∧ w.sch.routineCabinet m = some r := by
    intro m r hr
    have hm : m ≠ n := hold m (by rw [hr]; exact nofun)
    exact ⟨hm, hof_ne m hm ▸ hr⟩
  refine { h with
    toRegistered := h.toRegistered.freed hlive rfl rfl rfl fun _ => update_none_ne_none_iff
    woken := fun m r hr hstate => woken_free (h.woken m r (hsome m r hr).2 hstate) (hsome m r hr).1
    joins := fun key k m r hk hjoin hr => h.joins key k m r (hsome key k hk).2 hjoin (hsome m r hr).2
    joiners := fun key k m hk hjoin => h.joiners key k m (hsome key k hk).2 hjoin
    running := fun m => ?_
    placed := fun hcleaning => ⟨fun m r hr => (h.placed hcleaning).standing m r (hsome m r hr).2,
      fun e he m hm => (h.placed hcleaning).opens e he m (hof_ne m (hold m hm) ▸ hm)⟩ }
  dsimp only [World.free]
  rw [hcurr m]
  by_cases hm : m = n
  · rw [hm, hself]
    tauto
  · rw [hof_ne m hm, ← h.running m]
    tauto

theorem Kept.log (h : Kept w) {event : Event V} (hsound : event.Sound) (hno : event.entryNo = none) :
    Kept { w with log := w.log ++ [event] } := by
  have hnos : (w.log ++ [event]).filterMap Event.entryNo = w.log.filterMap Event.entryNo := by
    rw [filterMap_append, filterMap_cons_none hno, filterMap_nil, append_nil]
  refine { h with
    numbers := hnos ▸ h.numbers
    below := hnos ▸ h.below
    placed := fun hcleaning => { h.placed hcleaning with }
    sound := fun event' hevent => ?_ }
  rcases mem_append.mp hevent with hevent | hevent
  · exact h.sound event' hevent
  · exact mem_singleton.mp hevent ▸ hsound

theorem Kept.setCondition (h : Kept w) {c : ConditionId} {condition : Condition V}
    (hrecorded : condition.Recorded) (hlogic : condition.logic = (w.conditions c).logic) :
    Kept (w.setCondition c condition) := by
  refine { h with
    recorded := fun c' => ?_
    met := fun n c' calls hstand => ?_
    placed := fun hcleaning => { h.placed hcleaning with } }
  · rw [World.setCondition]
    by_cases hc : c' = c
    · rw [hc]
      dsimp only
      rw [update_self]
      exact hrecorded
    · dsimp only
      rw [update_of_ne hc]
      exact h.recorded c'
  · have hmet := h.met n c' calls hstand
    rw [World.setCondition]
    by_cases hc : c' = c
    · rw [hc] at hmet ⊢
      dsimp only
      rw [update_self, hlogic]
      exact hmet
    · dsimp only
      rw [update_of_ne hc]
      exact hmet

theorem Kept.resume (h : Kept w) (hwoken : ∀ n ∈ w.cabinet.at? token, w.Woken n) : Kept (w.resume token) := by
  rw [World.resume]
  split
  · next n hat =>
      obtain ⟨r, hr⟩ := ne_none_iff_exists'.mp (h.at?_eq_some_iff.mp hat).1
      rw [Scheduler.resume, hr]
      exact h.makeRoutineReady hr (hwoken n hat) fun _ => rfl
  · exact h

theorem Kept.cancel (h : Kept w) (token : Token) : Kept (w.cancel token) := by
  rw [World.cancel]
  split
  · next n hat =>
      obtain ⟨r, hr⟩ := ne_none_iff_exists'.mp (h.at?_eq_some_iff.mp hat).1
      have hr' : (w.sch.modify n fun r => { r with isCanceled := true }).routineCabinet n
          = some { r with isCanceled := true } := by
        rw [Scheduler.modify_self, hr]
        rfl
      have hcanceled : (w.sch.modify n fun r => { r with isCanceled := true }).isCanceled n = true := by
        rw [Scheduler.isCanceled, hr']
        rfl
      have hready : Kept (World.call { w with sch := w.sch.modify n fun r => { r with isCanceled := true } }
          ((w.sch.modify n fun r => { r with isCanceled := true }).makeRoutineReady n
            { r with isCanceled := true }) .cancel) :=
        (h.markCanceled hr).makeRoutineReady hr' (.inl hcanceled) fun _ => rfl
      rw [Scheduler.cancel, hr]
      exact hready
  · exact h

theorem Kept.create (h : Kept w) (runNow : Bool) (hunused : w.cleaning = false →
      ∀ e ∈ w.entries, w.tokens e.made ≠ (w.cabinet.alloc (some w.sch.allocated)).1) : Kept (w.create runNow) := by
  have halloc := h.alloc runNow hunused
  rw [World.create, Scheduler.create]
  cases runNow with
  | false =>
    rw [if_neg Bool.false_ne_true]
    dsimp only
    rw [call_eq_of_eq]
    · exact halloc
    · rfl
  | true =>
    refine halloc.makeRoutineReady (update_self _ _ _) (.inr ?_) fun hsuspended => ?_
    · dsimp only
      rw [update_self]
      trivial
    · dsimp only at hsuspended
      rw [update_self] at hsuspended
      cases hsuspended

theorem Kept.exists_current (h : Kept w) (hcurr : w.sch.currRoutine = some n) :
    ∃ r, w.sch.routineCabinet n = some r :=
  ne_none_iff_exists'.mp ((h.running n).mp hcurr).1

theorem Kept.wait (h : Kept w) (hcurr : w.sch.currRoutine = some n) (hunready : w.Unready n) : Kept (w.wait n) := by
  obtain ⟨r, hr⟩ := h.exists_current hcurr
  rw [World.wait, Scheduler.wait]
  split_ifs with hcanceled
  · exact h
  have hwaits : r.isCanceled = false := by
    rw [← isCanceled_eq hr]
    exact Bool.eq_false_of_not_eq_true hcanceled
  exact h.suspend hcurr hr hwaits (fun hcleaning => hunready hcleaning r hr hwaits) .plain (by simp) (by simp)

theorem Kept.yield (h : Kept w) (hcurr : w.sch.currRoutine = some n) : Kept (w.yield n) := by
  obtain ⟨r, hr⟩ := h.exists_current hcurr
  have hstand := ((h.running n).mp hcurr).2
  rw [World.yield, Scheduler.yield, Scheduler.resume, hr]
  split_ifs with hcanceled
  · exact h
  have hgoes : r.isCanceled = false := by
    rw [← isCanceled_eq hr]
    exact Bool.eq_false_of_not_eq_true hcanceled
  have hready : Kept (w.call (w.sch.makeRoutineReady n r) .yield) :=
    h.makeRoutineReady hr (.inr (by rw [hstand]; trivial)) (by rw [hstand]; intro h; cases h)
  have hafter : ∃ r', (w.sch.makeRoutineReady n r).routineCabinet n = some r' ∧ r'.isCanceled = false ∧
      (w.cleaning = false → r'.state = .ready) := by
    rw [Scheduler.makeRoutineReady]
    split_ifs with hstate
    · refine ⟨r, hr, hgoes, fun hcleaning => ?_⟩
      rcases ((h.placed hcleaning).standing n r hr).running hstand with hcanceled' | ⟨hrunning, -⟩ | ⟨hready, -⟩
      · rw [hgoes] at hcanceled'
        cases hcanceled'
      · rw [hrunning] at hstate
        exact absurd hstate (by decide)
      · exact hready
    · refine ⟨{ r with state := .ready }, ?_, hgoes, fun _ => rfl⟩
      exact (Scheduler.modify_self w.sch n _).trans (by rw [hr]; rfl)
  obtain ⟨r', hr', hgoes', hready'⟩ := hafter
  have hcurr' : (w.sch.makeRoutineReady n r).currRoutine = some n := by
    rw [Scheduler.makeRoutineReady_currRoutine]
    exact hcurr
  exact hready.leave hcurr' hr' hgoes' hready'

theorem Kept.joined (h : Kept w) {key : RoutineToken} {k : Routine} (hk : w.sch.routineCabinet key = some k)
    (hr : w.sch.routineCabinet n = some r) (hstand : w.stand n = .suspended (.join key))
    (hstate : r.state = .suspend) :
    Kept { w with sch := w.sch.modify key fun r => { r with joinToken := some n } } := by
  have hchanges : Changes w { w with sch := w.sch.modify key fun r => { r with joinToken := some n } } key
      (fun r => { r with joinToken := some n }) (w.stand key) :=
    ⟨rfl, rfl, (update_eq_self key w.stand).symm, rfl, rfl⟩
  have hback : ∀ m q, (w.sch.modify key fun r => { r with joinToken := some n }).routineCabinet m = some q →
      ∃ q', w.sch.routineCabinet m = some q' ∧ q.state = q'.state ∧ q.isCanceled = q'.isCanceled ∧
        (q.joinToken = q'.joinToken ∨ m = key ∧ q.joinToken = some n) := by
    intro m q hq
    by_cases hm : m = key
    · subst hm
      rw [Scheduler.modify_self, hk] at hq
      cases hq
      exact ⟨k, hk, rfl, rfl, .inr ⟨rfl, rfl⟩⟩
    · rw [Scheduler.modify_of_ne _ _ hm] at hq
      exact ⟨q, hq, rfl, rfl, .inl rfl⟩
  refine { h with
    toRegistered := hchanges.registered h.toRegistered
    woken := fun m q hq hstate' => ?_
    joins := fun key' k' m q hk' hjoin hq => ?_
    joiners := fun key' k' m hk' hjoin => ?_
    running := fun m => ?_
    placed := fun hcleaning => ?_ } <;> dsimp only at *
  · obtain ⟨q', hq', hstates, hcanceled, -⟩ := hback m q hq
    refine (h.woken m q' hq' (hstates ▸ hstate')).imp (fun hcanceled' => ?_) fun hreleased => ?_
    · rw [isCanceled_eq hq'] at hcanceled'
      exact (isCanceled_eq hq).trans (hcanceled.trans hcanceled')
    · exact hchanges.released hreleased
  · obtain ⟨q', hq', hstates, hcanceled, -⟩ := hback m q hq
    obtain ⟨k'', hk'', -, -, hjoins | ⟨rfl, hjoins⟩⟩ := hback key' k' hk'
    · rw [hstates, hcanceled]
      exact h.joins key' k'' m q' hk'' (hjoins ▸ hjoin) hq'
    · cases hjoins.symm.trans hjoin
      cases hr.symm.trans hq'
      exact .inr ⟨hstand, hstates.trans hstate⟩
  · obtain ⟨k'', hk'', -, -, hjoins | ⟨rfl, hjoins⟩⟩ := hback key' k' hk'
    · exact h.joiners key' k'' m hk'' (hjoins ▸ hjoin)
    · cases hjoins.symm.trans hjoin
      exact h.fresh n (by rw [hr]; exact nofun)
  · rw [hchanges.live_iff]
    exact h.running m
  have hplaced := h.placed hcleaning
  have hstanding := hplaced.standing key k hk
  exact hchanges.placed hplaced hk (fun e he => .inl he) (fun _ _ => rfl)
    ⟨hstanding.running, hstanding.resting⟩ h.toRegistered

theorem suspend_modify (s : Scheduler) (n key : RoutineToken) :
    (s.modify key fun r => { r with joinToken := some n }).suspend n
      = (s.suspend n).modify key fun r => { r with joinToken := some n } := by
  have hcabinet : ((s.modify key fun r => { r with joinToken := some n }).suspend n).routineCabinet
      = ((s.suspend n).modify key fun r => { r with joinToken := some n }).routineCabinet := by
    funext m
    rw [Scheduler.suspend, Scheduler.suspend]
    by_cases hm : m = n
    · subst hm
      rw [Scheduler.modify_self]
      by_cases hkey : m = key
      · subst hkey
        rw [Scheduler.modify_self, Scheduler.modify_self]
        rw [Scheduler.modify_self, Option.map_map, Option.map_map]
        rfl
      · rw [Scheduler.modify_of_ne _ _ hkey, Scheduler.modify_of_ne _ _ hkey]
        rw [Scheduler.modify_self]
    · rw [Scheduler.modify_of_ne _ _ hm]
      by_cases hkey : m = key
      · subst hkey
        rw [Scheduler.modify_self, Scheduler.modify_self]
        rw [Scheduler.modify_of_ne _ _ hm]
      · rw [Scheduler.modify_of_ne _ _ hkey, Scheduler.modify_of_ne _ _ hkey]
        rw [Scheduler.modify_of_ne _ _ hm]
  calc (s.modify key fun r => { r with joinToken := some n }).suspend n
      = { s with
          routineCabinet := ((s.modify key fun r => { r with joinToken := some n }).suspend n).routineCabinet
          currRoutine := none } := rfl
    _ = { s with
          routineCabinet := ((s.suspend n).modify key fun r => { r with joinToken := some n }).routineCabinet
          currRoutine := none } := by rw [hcabinet]

theorem Kept.join (h : Kept w) (hcurr : w.sch.currRoutine = some n) (token : Token)
    (hunready : (w.joinable token).isSome = true → w.Unready n) : Kept (w.join n token) := by
  obtain ⟨r, hr⟩ := h.exists_current hcurr
  rw [World.join]
  split_ifs with hcanceled
  · exact h.log ⟨nofun, fun _ => rfl⟩ rfl
  have hwaits : r.isCanceled = false := by
    rw [← isCanceled_eq hr]
    exact Bool.eq_false_of_not_eq_true hcanceled
  split
  · next key hjoinable =>
      have hunready' := hunready (by rw [hjoinable]; rfl)
      obtain ⟨hat, hany⟩ := filter_eq_some_iff.mp hjoinable
      obtain ⟨k, hk, hk'⟩ := (Option.any_eq_true _ _).mp hany
      obtain ⟨hdead, hfree⟩ := of_decide_eq_true hk'
      have hlive := (h.at?_eq_some_iff.mp hat).1
      have hsuspended := h.suspend hcurr hr hwaits (fun hcleaning => hunready' hcleaning r hr hwaits)
        (.join key) (fun key' hkey => Wait.join.inj hkey ▸ h.fresh key hlive) nofun
      have hk' : ∃ k', (w.sch.suspend n).routineCabinet key = some k' := by
        refine ne_none_iff_exists'.mp ?_
        rw [Scheduler.suspend]
        exact (Scheduler.modify_ne_none w.sch n _).mpr hlive
      obtain ⟨k', hk'⟩ := hk'
      have hr' : (w.sch.suspend n).routineCabinet n = some { r with state := .suspend } :=
        (Scheduler.modify_self w.sch n _).trans (by rw [hr]; rfl)
      have hjoined := hsuspended.joined hk' hr' (update_self _ _ _) rfl
      have hstate : ¬(k.state = .dead ∨ k.joinToken.isSome = true) := by
        rw [hfree]
        exact fun hor => hor.elim hdead nofun
      rw [Scheduler.join, if_neg hcanceled, hk]
      dsimp only
      rw [if_neg hstate, suspend_modify]
      exact hjoined
  · refine h.log ⟨fun hresult => ?_, nofun⟩ rfl
    rcases hat : w.cabinet.at? token with _ | key
    · rfl
    · rw [hat] at hresult
      exact hresult

theorem Kept.finish (h : Kept w) (hcurr : w.sch.currRoutine = some n)
    (hjoiner : ∀ other ∈ (w.sch.routineCabinet n).bind Routine.joinToken,
      ∀ m ∈ w.cabinet.at? (w.tokens other), w.stand m = .suspended (.join n) ∨ w.Woken m) : Kept (w.finish n) := by
  obtain ⟨r, hr⟩ := h.exists_current hcurr
  have hlive : w.sch.routineCabinet n ≠ none := by rw [hr]; exact nofun
  have hfree : Kept { w.free n with sch := { (w.free n).sch with currRoutine := none } } :=
    h.free hlive fun m => by
      rw [hcurr]
      exact ⟨nofun, fun hm => absurd (some.inj hm.2).symm hm.1⟩
  rw [World.finish]
  split
  · next other hother =>
      refine hfree.resume fun m hm => ?_
      obtain ⟨hlive', htokens⟩ := hfree.at?_eq_some_iff.mp hm
      have hm' : m ≠ n := by
        rintro rfl
        exact hlive' (update_self _ _ _)
      have hat : w.cabinet.at? (w.tokens other) = some m := by
        refine h.at?_eq_some_iff.mpr ⟨?_, htokens⟩
        rw [World.free] at hlive'
        dsimp only at hlive'
        rw [update_of_ne hm'] at hlive'
        exact hlive'
      rcases hjoiner other hother m hat with hstand | hwoken
      · refine .inr ?_
        have hgone : ({ w.free n with sch := { (w.free n).sch with currRoutine := none } } : World V).stand m
            = .suspended (.join n) := hstand
        rw [hgone]
        exact update_self _ _ _
      · exact woken_free hwoken hm'
  · exact hfree

theorem Kept.schedule (h : Kept w) (htmp : w.sch.tmp = []) (hcleaning : w.cleaning = false) :
    Kept { w with sch := w.sch.schedule } := by
  refine { h with
    made := ?_
    placed := fun _ => { h.placed hcleaning with }
    idle := fun hc => nomatch hcleaning.symm.trans hc }
  rw [h.made, htmp, Scheduler.schedule, nil_append, append_nil]

theorem Kept.discard (h : Kept w) (hcurr : w.sch.currRoutine = none) (n : RoutineToken) : Kept (w.discard n) := by
  rw [World.discard]
  split
  · exact h
  next r hr =>
    split_ifs
    · exact h.markCanceled hr
    have hlive : w.sch.routineCabinet n ≠ none := by rw [hr]; exact nofun
    have hfree : Kept { w.free n with sch := { (w.free n).sch with currRoutine := w.sch.currRoutine } } :=
      h.free hlive fun m => by
        rw [hcurr]
        exact ⟨nofun, fun hm => nomatch hm.2⟩
    exact hfree

theorem discard_frame (w : World V) (n : RoutineToken) :
    (w.discard n).sch.currRoutine = w.sch.currRoutine ∧ (w.discard n).sch.tmp = w.sch.tmp := by
  rw [World.discard]
  split
  · exact ⟨rfl, rfl⟩
  · split_ifs <;> exact ⟨rfl, rfl⟩

theorem Kept.discardAll (h : Kept w) (hcurr : w.sch.currRoutine = none) (htmp : w.sch.tmp = [])
    (ns : List RoutineToken) : Kept (ns.foldl World.discard w) ∧ (ns.foldl World.discard w).sch.tmp = [] := by
  induction ns generalizing w with
  | nil => exact ⟨h, htmp⟩
  | cons n ns ih =>
    obtain ⟨hcurr', htmp'⟩ := w.discard_frame n
    exact ih (h.discard hcurr n) (hcurr'.trans hcurr) (htmp'.trans htmp)

theorem Kept.cleanup (h : Kept w) (hcurr : w.sch.currRoutine = none) (htmp : w.sch.tmp = []) : Kept w.cleanup := by
  obtain ⟨hdone, htmp'⟩ := h.discardAll hcurr htmp (List.range w.sch.allocated)
  exact { hdone with placed := nofun, idle := fun _ => htmp' }

theorem Kept.cleaned (h : Kept w) (hsize : w.cabinet.size = 0) :
    Kept { w with cabinet := w.cabinet.clear, cleaning := false } := by
  have hview : ∀ token, w.cabinet.view token = none := by
    intro token
    by_contra hvalid
    have hsize' := Cabinet.size_free hvalid
    omega
  have hnone : ∀ n, w.sch.routineCabinet n = none := by
    intro n
    by_contra hlive
    exact nomatch (hview _).symm.trans (h.view n hlive)
  exact { h with
    view := fun n hlive => absurd (hnone n) hlive
    stored := fun token obj hobj => nomatch (Cabinet.view_empty token).symm.trans hobj
    placed := fun _ => ⟨fun n r hr => absurd ((hnone n).symm.trans hr) nofun, fun e _ n hlive => absurd (hnone n) hlive⟩
    idle := nofun }

theorem Kept.meet (h : Kept w) {c : ConditionId} {calls : List (Call V)}
    (hsatisfied : Satisfied (w.conditions c).logic calls) : Kept (w.meet c token calls) := by
  rw [World.meet]
  split
  · next n hat =>
      split_ifs with hwaits
      · obtain ⟨hlive, -⟩ := h.at?_eq_some_iff.mp hat
        obtain ⟨r, hr⟩ := ne_none_iff_exists'.mp hlive
        have hsuspended : ∃ met, w.stand n = .suspended (.condition c met) := by
          rw [Stand.waitsFor.eq_def] at hwaits
          split at hwaits
          · next c' met hstand => exact ⟨met, of_decide_eq_true hwaits ▸ hstand⟩
          · cases hwaits
        obtain ⟨met, hstand⟩ := hsuspended
        have hchanges : Changes w (w.setStand n (.suspended (.condition c (some calls)))) n id
            (.suspended (.condition c (some calls))) := ⟨(Scheduler.modify_id _ n).symm, rfl, rfl, rfl, rfl⟩
        refine ⟨hchanges.registered h.toRegistered, ?_, ?_, { h with }, fun hcleaning => ?_, h.idle, h.sound⟩
        · have hjoiner : r.isCanceled = true ∨
              ∀ key k, w.sch.routineCabinet key = some k → k.joinToken ≠ some n := by
            by_cases hcanceled : r.isCanceled = true
            · exact .inl hcanceled
            · refine .inr fun key k hk hjoin => ?_
              obtain ⟨hjoins, -⟩ := (h.joins key k n r hk hjoin hr).resolve_left hcanceled
              exact nomatch hstand.symm.trans hjoins
          refine hchanges.waking h.toWaking hr rfl (fun _ => .inr rfl) hjoiner nofun fun m => ?_
          by_cases hm : m = n
          · subst hm
            refine ⟨fun hcurr => ?_, fun hor => hor.elim (fun hrunning => nomatch hrunning.2) And.right⟩
            exact nomatch hstand.symm.trans ((h.running m).mp hcurr).2
          · exact ⟨fun hcurr => .inr ⟨hm, hcurr⟩, fun hor => hor.elim (fun heq => absurd heq.1 hm) And.right⟩
        · refine hchanges.asked h.toAsked (fun c => ⟨h.recorded c, rfl⟩) fun c' calls' heq => ?_
          obtain ⟨rfl, heq'⟩ := Wait.condition.inj (Stand.suspended.inj heq)
          exact some.inj heq' ▸ hsatisfied
        have hplaced := h.placed hcleaning
        refine hchanges.placed hplaced hr (fun e he => .inl he) (fun _ _ => rfl) ⟨nofun, fun _ => ?_⟩ h.toRegistered
        have hresting := (hplaced.standing n r hr).resting (by rw [hstand]; exact nofun)
        rw [hstand] at hresting
        exact hresting
      · exact h
  · exact h

theorem woken_meet {c : ConditionId} {calls : List (Call V)}
    (hat : w.cabinet.at? token = some n) (hwaiter : (w.stand n).waitsFor c = true ∨ w.Woken n) :
    (w.meet c token calls).Woken n := by
  rw [World.meet, hat]
  dsimp only
  split_ifs with hwaits
  · refine .inr ?_
    rw [World.setStand]
    dsimp only
    rw [update_self]
    rfl
  · exact hwaiter.resolve_left hwaits

section Conditions

variable [DecidableEq V]

theorem Kept.post (h : Kept w) {c : ConditionId} {v : V}
    (hwaiter : (w.conditions c).completes v = true → ∀ n ∈ w.cabinet.at? (w.conditions c).waitToken,
      (w.stand n).waitsFor c = true ∨ w.Woken n) : Kept (w.post c v) := by
  have hset := h.setCondition ((h.recorded c).post v) ((w.conditions c).logic_post v)
  rw [World.post]
  split_ifs with hcompletes
  · have hsatisfied : Satisfied ((w.setCondition c ((w.conditions c).post v)).conditions c).logic
        ((w.conditions c).calls ++ [.post v]) := by
      rw [World.setCondition]
      dsimp only
      rw [update_self, Condition.logic_post]
      exact (h.recorded c).satisfied hcompletes
    refine (hset.meet hsatisfied).resume fun n hn => ?_
    have hat : w.cabinet.at? (w.conditions c).waitToken = some n := by
      rw [World.meet] at hn
      split at hn
      · split_ifs at hn <;> exact hn
      · exact hn
    exact woken_meet hat (hwaiter hcompletes n hat)
  · exact hset

theorem Kept.waitCondition (h : Kept w) (hcurr : w.sch.currRoutine = some n) (c : ConditionId)
    (hunready : (w.conditions c).accepts = true → w.Unready n) : Kept (w.waitCondition n c) := by
  obtain ⟨r, hr⟩ := h.exists_current hcurr
  have hset : Kept (w.setCondition c { w.conditions c with waitToken := w.tokens n }) :=
    h.setCondition ⟨(h.recorded c).added, (h.recorded c).missing⟩ rfl
  rw [World.waitCondition]
  by_cases haccepts : (w.conditions c).accepts = true
  swap
  · rw [if_neg haccepts]
    exact h.log ⟨nofun, fun _ => rfl⟩ rfl
  rw [if_pos haccepts]
  dsimp only
  split_ifs with hcanceled
  · rw [World.leaveCondition]
    refine Kept.log (hset.setCondition (Condition.Recorded.clear _) rfl) ⟨fun hresult => ?_, fun hcanceled' => ?_⟩ rfl
    · have hcanceled' : (w.setCondition c { w.conditions c with waitToken := w.tokens n }).sch.isCanceled n
          = true := hcanceled
      rw [hcanceled'] at hresult
      cases hresult
    · rw [hcanceled']
      rfl
  · have hwaits : r.isCanceled = false := by
      rw [← isCanceled_eq hr]
      exact Bool.eq_false_of_not_eq_true hcanceled
    have hsuspended := hset.suspend hcurr hr hwaits
      (fun hcleaning => hunready haccepts hcleaning r hr hwaits) (.condition c none) nofun nofun
    rw [Scheduler.wait, if_neg hcanceled]
    exact hsuspended

/-- **One step.** -/
theorem kept_step {a : Action V} (h : Kept w) (hguard : Orderly w a) (hstep : step w a = some w') : Kept w' := by
  cases a with
  | create runNow =>
    obtain ⟨-, rfl⟩ := ite_some_none_eq_some.mp hstep
    exact h.create runNow hguard
  | resume token =>
    obtain ⟨-, rfl⟩ := ite_some_none_eq_some.mp hstep
    exact h.resume hguard
  | cancel token =>
    obtain ⟨-, rfl⟩ := ite_some_none_eq_some.mp hstep
    exact h.cancel token
  | wait =>
    obtain ⟨n, hcurr, rfl⟩ := map_eq_some_iff.mp hstep
    exact h.wait hcurr (hguard n hcurr)
  | yield =>
    obtain ⟨n, hcurr, rfl⟩ := map_eq_some_iff.mp hstep
    exact h.yield hcurr
  | join token =>
    obtain ⟨n, hcurr, rfl⟩ := map_eq_some_iff.mp hstep
    exact h.join hcurr token (hguard n hcurr)
  | finish =>
    obtain ⟨n, hcurr, rfl⟩ := map_eq_some_iff.mp hstep
    exact h.finish hcurr (hguard n hcurr)
  | add c v =>
    obtain ⟨-, rfl⟩ := ite_some_none_eq_some.mp hstep
    exact h.setCondition ((h.recorded c).add v) rfl
  | post c v =>
    obtain ⟨-, rfl⟩ := ite_some_none_eq_some.mp hstep
    exact h.post hguard
  | waitCondition c =>
    obtain ⟨n, hcurr, rfl⟩ := map_eq_some_iff.mp hstep
    exact h.waitCondition hcurr c (hguard n hcurr)
  | schedule =>
    obtain ⟨⟨-, htmp, hcleaning⟩, rfl⟩ := ite_some_none_eq_some.mp hstep
    exact h.schedule htmp hcleaning
  | switch =>
    rw [step.eq_def] at hstep
    dsimp only at hstep
    split at hstep
    · next t tmp entry entries hcurr htmp hentries =>
        obtain rfl := some.inj hstep
        exact h.switch hcurr htmp hentries
    · cases hstep
  | cleanup =>
    obtain ⟨⟨hcurr, htmp, -⟩, rfl⟩ := ite_some_none_eq_some.mp hstep
    exact h.cleanup hcurr htmp
  | cleanSwitch n =>
    obtain ⟨⟨hcurr, hcleaning, hsome⟩, rfl⟩ := ite_some_none_eq_some.mp hstep
    obtain ⟨r, hr⟩ := isSome_iff_exists.mp hsome
    exact h.cleanSwitch hcurr hcleaning hr hguard
  | cleaned =>
    obtain ⟨⟨-, -, hsize⟩, rfl⟩ := ite_some_none_eq_some.mp hstep
    exact h.cleaned hsize

/-- **Resumption is faithful** as long as nobody is woken before time. -/
theorem faithful_of_orderly {logic : ConditionId → Logic} {as : List (Action V)} {w : World V}
    (hguard : Along step Orderly (initial logic) as) (hrun : run step (initial logic) as = some w) :
    w.Faithful :=
  (Lib.run_invariant (fun _ _ _ h hg hs => kept_step h hg hs) (kept_initial logic) hguard hrun).faithful

end Conditions

/-- A routine joins one that waits for two values, both are posted, and a third is cancelled while it waits. -/
def joinsWaiter : List (Action Nat) :=
  [.create true, .create true, .schedule, .switch, .join ⟨2, 1⟩, .switch, .add 0 3, .add 0 4,
    .waitCondition 0, .post 0 4, .post 0 3, .create true, .schedule, .switch, .finish, .switch, .yield,
    .schedule, .switch, .finish, .switch, .wait, .cancel ⟨3, 2⟩, .schedule, .switch, .finish, .cleanup,
    .cleaned]

theorem joinsWaiter_faithful : ∃ w, run step (initial fun _ => .kAll) joinsWaiter = some w ∧
    .joined true true false ∈ w.log ∧ w.Faithful := by
  obtain ⟨w, hrun, hw⟩ := (Option.any_eq_true _ _).mp (show Option.any
    (fun w : World Nat => .joined true true false ∈ w.log)
    (run step (initial fun _ => .kAll) joinsWaiter) = true by decide +kernel)
  exact ⟨w, hrun, of_decide_eq_true hw, faithful_of_orderly (by decide +kernel) hrun⟩

/-- A routine that is resumed while it joins another is told that the other has ended. -/
theorem resumedInJoin_not_faithful : ¬∀ (logic : ConditionId → Logic) (as : List (Action Nat)) w,
    run step (initial logic) as = some w → w.Faithful := by
  intro h
  obtain ⟨w, hrun, hw⟩ := (Option.any_eq_true _ _).mp (show Option.any
    (fun w : World Nat => .joined true false false ∈ w.log)
    (run step (initial fun _ => .kAll)
      [.create true, .create false, .schedule, .switch, .join ⟨2, 1⟩, .resume ⟨1, 0⟩, .schedule, .switch])
      = true by decide +kernel)
  exact nomatch ((h _ _ w hrun).sound _ (of_decide_eq_true hw)).1 rfl

end World

end Tbox.Coroutine.Resumption
