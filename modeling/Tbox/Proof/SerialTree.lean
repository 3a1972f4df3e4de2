import Tbox.Proof.ActionRest
import Tbox.Proof.ProgramRuns

/-!
# Serial trees under way

One path is under way, from the root through the current children down to a leaf, to a finish that has yet to be told,
or to an action that has yet to go on. What lies further on is idle, and as good as new.
-/

open List

namespace Tbox.Flow.Action

open Lib (Below)

variable {F : Forest} {w w' : World} {n m c d p : ActionId} {s : State} {depth : Nat} {next : Next}
  {r : Outcome} {history history' : History} {current : Option ActionId} {calls : List Call}

/-- Below the action, what is idle has not begun anything. -/
def Fresh (F : Forest) (w : World) (n : ActionId) : Prop :=
  ∀ m, F.Below n m → w.state m = .idle →
    (F.assembly m = .serial → (w.fields m).index = 0 ∧ (w.fields m).currAction = none ∧
      (w.fields m).childFinishFunc = none) ∧
    ∀ c, F.parent c = some m → w.state c = .idle

theorem Fresh.of_parent (h : Fresh F w n) (hc : F.parent c = some n) : Fresh F w c :=
  fun m hm => h m (Below.of_child hm hc)

theorem Fresh.congr (h : Fresh F w n) (heq : ∀ m, F.Below n m → w'.fields m = w.fields m) : Fresh F w' n := by
  intro m hm hidle
  rw [World.state, heq m hm] at hidle
  obtain ⟨hblank, hchildren⟩ := h m hm hidle
  refine ⟨?_, fun c hc => ?_⟩
  · rw [heq m hm]
    exact hblank
  · rw [World.state, heq c (Below.trans (Below.of_parent hc) hm)]
    exact hchildren c hc

theorem Fresh.of_children (hn : w.state n ≠ .idle) (h : ∀ c, F.parent c = some n → Fresh F w c) : Fresh F w n := by
  intro m hm hidle
  rcases hm.eq_or_child with rfl | ⟨c, hc, hm⟩
  · exact absurd hidle hn
  · exact h c hc m hm hidle

theorem Fresh.of_touched (h : Fresh F w n)
    (htouched : ∀ m, w'.fields m = w.fields m ∨ w.state m ≠ .idle ∧ w'.state m ≠ .idle) : Fresh F w' n := by
  intro m hm hidle
  have hsame : w'.fields m = w.fields m := (htouched m).resolve_right fun hne => hne.2 hidle
  rw [World.state, hsame] at hidle
  obtain ⟨hblank, hchildren⟩ := h m hm hidle
  refine ⟨?_, fun c hc => ?_⟩
  · rw [hsame]
    exact hblank
  have hc' := hchildren c hc
  have hsame' : w'.fields c = w.fields c := (htouched c).resolve_right fun hne => hne.1 hc'
  rw [World.state, hsame']
  exact hc'

theorem Fresh.idle_below (h : Fresh F w n) (hn : w.state n = .idle) (hm : F.Below n m) : w.state m = .idle := by
  induction n using Nat.strong_induction_on with
  | h n ih =>
    rcases hm.eq_or_child with rfl | ⟨c, hc, hcm⟩
    · exact hn
    · exact ih c (F.child_lt n c hc) (h.of_parent hc) ((h n (Below.refl n) hn).2 c hc) hcm

theorem Fresh.sibling (h : Fresh F w d) (hlocal : Local F c w w') (hc : F.parent c = some n)
    (hd : F.parent d = some n) (hne : c ≠ d) : Fresh F w' d :=
  h.congr fun _ hm => hlocal.sibling hc hd hne hm

structure Link (F : Forest) (w : World) (s : State) (n c : ActionId) (history : History) : Prop where
  state : w.state n = s
  curr : (w.fields n).currAction = some c
  kept : (w.fields n).childFinishFunc = none
  did : ∃ resets ifFails, F.Did n (w.fields n).index (.start resets c ifFails) history
  later : ∀ d, F.parent d = some n → (F.kind n).Later c d → w.state d = .idle

inductive Path (F : Forest) (w : World) (s : State) : ActionId → ActionId → History → Prop
  | here {n : ActionId} : Path F w s n n []
  | child {n c m : ActionId} {history history' : History} (hlink : Link F w s n c history)
      (h : Path F w s c m history') : Path F w s n m (history ++ history')

structure Holding (F : Forest) (w : World) (s : State) (p c : ActionId) (history : History) (r : Outcome) :
    Prop where
  state : w.state p = s
  curr : (w.fields p).currAction = none
  did : ∃ resets ifFails first second, F.Did p (w.fields p).index (.start resets c ifFails) first ∧
    F.Ended c second r ∧ history = first ++ second
  later : ∀ d, F.parent d = some p → (F.kind p).Later c d → w.state d = .idle

inductive Tip (F : Forest) (w : World) (s : State) (p : ActionId) :
    History → Option ActionId → List Call → Prop
  | leaf (hleaf : F.kind p = .leaf) (hstate : w.state p = s) : Tip F w s p [] (some p) []
  | ended {history : History} {r : Outcome} (hstate : w.state p = .finished) (h : F.Ended p history r) :
      Tip F w s p history none [.finished p r.1 r.2]
  | told {history : History} {r : Outcome} (hroot : F.parent p = none) (hstate : w.state p = .finished)
      (h : F.Ended p history r) : Tip F w s p history none []
  | posted {history : History} {c : ActionId} {r : Outcome} (h : Holding F w s p c history r)
      (hkept : (w.fields p).childFinishFunc = none) :
      Tip F w s p history none [.childFinishFunc p ((F.kind p).keptFunc c r.1 r.2)]
  | kept {history : History} {c : ActionId} {r : Outcome} (h : Holding F w s p c history r) (hs : s = .pause)
      (hkept : (w.fields p).childFinishFunc = some ((F.kind p).keptFunc c r.1 r.2)) :
      Tip F w s p history none []

def Under (F : Forest) (w : World) (s : State) (n : ActionId) (history : History)
    (current : Option ActionId) (calls : List Call) : Prop :=
  ∃ m first second, Path F w s n m first ∧ Tip F w s m second current calls ∧ history = first ++ second

theorem Link.parent (h : Link F w s n c history) : F.parent c = some n := by
  obtain ⟨resets, ifFails, hdid⟩ := h.did
  exact hdid.parent

theorem Kind.Later.ne {kind : Kind} (h : kind.Later c d) : c ≠ d := by
  rintro rfl
  exact lt_irrefl _ h

theorem Path.end_below (h : Path F w s n m history) : F.Below n m := by
  induction h with
  | here => exact Below.refl _
  | child hlink _ ih => exact Below.of_child ih hlink.parent

theorem Link.congr (h : Link F w s n c history) (hm : F.Below c m) (hlocal : Local F m w w') :
    Link F w' s n c history := by
  have hout : ∀ x, ¬F.Below c x → w'.fields x = w.fields x := by
    intro x hx
    exact hlocal x fun hmx => hx (Below.trans hmx hm)
  have hself := hout n (Below.not_parent Forest.rank_lt h.parent)
  refine ⟨?_, ?_, ?_, ?_, fun d hd hlater => ?_⟩
  · rw [World.state, hself]
    exact h.state
  · rw [hself]
    exact h.curr
  · rw [hself]
    exact h.kept
  · rw [hself]
    exact h.did
  have hdout : ¬F.Below c d := fun hcd => hlater.ne (Below.eq_of_sibling Forest.rank_lt h.parent hd hcd)
  rw [World.state, hout d hdout]
  exact h.later d hd hlater

/-- A path does not see what happens at its end and below. -/
theorem Path.congr (h : Path F w s n m history) (hlocal : Local F m w w') : Path F w' s n m history := by
  induction h with
  | here => exact .here
  | child hlink hpath ih => exact .child (hlink.congr hpath.end_below hlocal) (ih hlocal)

theorem Path.congr_below (h : Path F w s n m history) (heq : ∀ x, F.Below n x → w'.fields x = w.fields x) :
    Path F w' s n m history := by
  induction h with
  | here => exact .here
  | @child n c m _ _ hlink hpath ih =>
    have hself := heq n (Below.refl n)
    have hchild : ∀ d, F.parent d = some n → w'.state d = w.state d := fun d hd => by
      rw [World.state, heq d (Below.of_parent hd)]
      rfl
    refine .child ⟨?_, ?_, ?_, ?_, fun d hd hlater => ?_⟩ (ih fun x hx => heq x (Below.of_child hx hlink.parent))
    · rw [World.state, hself]
      exact hlink.state
    · rw [hself]
      exact hlink.curr
    · rw [hself]
      exact hlink.kept
    · rw [hself]
      exact hlink.did
    · rw [hchild d hd]
      exact hlink.later d hd hlater

theorem Holding.congr (h : Holding F w s p c history r) (heq : ∀ x, F.Below p x → w'.fields x = w.fields x) :
    Holding F w' s p c history r := by
  have hself := heq p (Below.refl p)
  refine ⟨?_, ?_, ?_, fun d hd hlater => ?_⟩
  · rw [World.state, hself]
    exact h.state
  · rw [hself]
    exact h.curr
  · rw [hself]
    exact h.did
  · rw [World.state, heq d (Below.of_parent hd)]
    exact h.later d hd hlater

theorem Tip.congr (h : Tip F w s p history current calls) (heq : ∀ x, F.Below p x → w'.fields x = w.fields x) :
    Tip F w' s p history current calls := by
  have hself := heq p (Below.refl p)
  cases h with
  | leaf hleaf hstate => exact .leaf hleaf (by rw [World.state, hself]; exact hstate)
  | ended hstate hended => exact .ended (by rw [World.state, hself]; exact hstate) hended
  | told hroot hstate hended => exact .told hroot (by rw [World.state, hself]; exact hstate) hended
  | posted hholding hkept => exact .posted (hholding.congr heq) (by rw [hself]; exact hkept)
  | kept hholding hs hkept => exact .kept (hholding.congr heq) hs (by rw [hself]; exact hkept)

theorem Under.congr (h : Under F w s n history current calls)
    (heq : ∀ x, F.Below n x → w'.fields x = w.fields x) : Under F w' s n history current calls := by
  obtain ⟨m, first, second, hpath, htip, rfl⟩ := h
  exact ⟨m, first, second, hpath.congr_below heq, htip.congr fun x hx => heq x (Below.trans hx hpath.end_below), rfl⟩

theorem Path.last (h : Path F w s n m history) : n = m ∧ history = [] ∨
    ∃ p first second, Path F w s n p first ∧ Link F w s p m second ∧ history = first ++ second := by
  induction h with
  | here => exact .inl ⟨rfl, rfl⟩
  | @child n c m first _ hlink hpath ih =>
    rcases ih with ⟨rfl, rfl⟩ | ⟨p, second, third, hpath', hlink', rfl⟩
    · exact .inr ⟨n, [], first, .here, hlink, (append_nil _).trans (nil_append _).symm⟩
    · exact .inr ⟨p, first ++ second, third, .child hlink hpath', hlink', (append_assoc _ _ _).symm⟩

theorem Path.append (h : Path F w s n m history) (h' : Path F w s m p history') :
    Path F w s n p (history ++ history') := by
  induction h with
  | here => exact h'
  | child hlink _ ih =>
    rw [append_assoc]
    exact .child hlink (ih h')

theorem Under.of_path (h : Under F w s m history' current calls) (hpath : Path F w s n m history) :
    Under F w s n (history ++ history') current calls := by
  obtain ⟨p, first, second, hp, htip, rfl⟩ := h
  exact ⟨p, history ++ first, second, hpath.append hp, htip, (append_assoc _ _ _).symm⟩

theorem Under.of_link (h : Under F w s c history' current calls) (hlink : Link F w s n c history) :
    Under F w s n (history ++ history') current calls := by
  have hpath : Path F w s n c (history ++ []) := .child hlink .here
  rw [append_nil] at hpath
  exact h.of_path hpath

/-- What the log says of the leaves. -/
def Forest.leafEvents (F : Forest) (log : List Event) : List Event :=
  log.filter fun
    | .started _ => true
    | .finished n _ _ => F.kind n = .leaf

/-- One leaf after the other is called and finishes, but for the last one. -/
def events (history : History) (current : Option ActionId) : List Event :=
  history.flatMap (fun item => [.started item.1, .finished item.1 item.2.1 item.2.2]) ++
    current.toList.map .started

structure Adds (F : Forest) (n : ActionId) (w w' : World) (history new : History) (current : Option ActionId) :
    Prop where
  events : ∃ news, w'.log = w.log ++ news ∧ F.leafEvents news = events new current ∧
    (∀ m isSucc why, .finished m isSucc why ∈ news → F.Below n m) ∧
    (∀ isSucc why, .finished n isSucc why ∈ news → F.Ended n history (isSucc, why) ∧ w'.state n = .finished) ∧
    (w'.state n = .finished → ∃ r : Outcome, .finished n r.1 r.2 ∈ news)

theorem events_append (history new : History) (current : Option ActionId) :
    events (history ++ new) current = events history none ++ events new current := by
  simp [events, append_assoc]

theorem Forest.leafEvents_append (log news : List Event) :
    F.leafEvents (log ++ news) = F.leafEvents log ++ F.leafEvents news := filter_append _ _

structure Finishes (F : Forest) (n : ActionId) (r : Outcome) (w w' : World) : Prop where
  fields_of_ne : ∀ m, m ≠ n → w'.fields m = w.fields m
  state : w'.state n = .finished
  queue : w'.queue.map Posted.call = w.queue.map Posted.call ++
    if F.hasCallback n then [.finished n r.1 r.2] else []
  log : w'.log = w.log ++ [.finished n r.1 r.2]

namespace Forest

theorem dispatchFinish_log (isSucc : Bool) (why : Reason) :
    (F.dispatchFinish n isSucc why w).log = w.log ++ [.finished n isSucc why] := by
  rw [dispatchFinish]
  split_ifs <;> rfl

theorem ending_of_none (hcurr : F.kind n = .leaf ∨ (w.fields n).currAction = none) :
    F.ending n w = w.modify n fun a => { a with state := .finished }.disableTimer := by
  rw [ending]
  split
  · next hkind =>
      rcases hcurr with hleaf | hcurr
      · rw [hleaf] at hkind
        cases hkind
      have hnone : ((w.modify n fun a => { a with state := .finished }.disableTimer).fields n).currAction =
          none := by
        rw [World.modify_fields_self]
        exact hcurr
      rw [stopCurrAction, hnone]
  · rfl

theorem finishes_finish (hlive : w.state n ≠ .finished ∧ w.state n ≠ .stoped)
    (hcurr : F.kind n = .leaf ∨ (w.fields n).currAction = none) (r : Outcome) :
    Finishes F n r w (F.finish n r.1 r.2 w) := by
  have hreports := (reports_dispatchFinish (F := F) (n := n) (w := F.ending n w) r.1 r.2).1
  rw [finish_eq hlive]
  refine ⟨fun m hm => ?_, ?_, ?_, ?_⟩
  · rw [hreports.fields_of_ne m hm, ending_of_none hcurr, World.modify_fields_of_ne hm]
  · rw [hreports.state, ending_of_none hcurr, World.state_modify_self]
    rfl
  · rw [hreports.posts.queue, map_append, ending_of_none hcurr]
    split_ifs <;> rfl
  · rw [dispatchFinish_log, ending_of_none hcurr]
    rfl

end Forest

namespace Forest

theorem reset_blank (hne : w.state n ≠ .idle) (hserial : F.assembly n = .serial) :
    ((F.reset (depth + 1) n w).fields n).index = 0 ∧ ((F.reset (depth + 1) n w).fields n).currAction = none ∧
      ((F.reset (depth + 1) n w).fields n).childFinishFunc = none := by
  rw [reset, if_neg hne]
  simp only [World.cancelDispatchedCallback, World.modify_fields_self, World.cancel_fields, onReset, hserial,
    Fields.disableTimer, and_self]

theorem fresh_reset (h : Fresh F w n) (hn : n < depth) : Fresh F (F.reset depth n w) n := by
  induction depth generalizing n w with
  | zero => exact absurd hn (Nat.not_lt_zero n)
  | succ depth ih =>
    by_cases hidle : w.state n = .idle
    · rw [reset, if_pos hidle]
      exact h
    have hchild : ∀ c, F.parent c = some n → c < depth := fun c hc => child_lt_depth hn hc
    have hchildren : ∀ c, F.parent c = some n →
        Fresh F (World.forEach (F.reset depth) (F.children n) w) c := by
      refine World.forEach_induction (P := fun v => ∀ c, F.parent c = some n → Fresh F v c) ?_
        fun c hc => h.of_parent hc
      intro d hd v hv c hc
      have hdn := parent_of_mem hd
      by_cases hcd : d = c
      · subst hcd
        exact ih (hv d hc) (hchild d hc)
      · exact (hv c hc).sibling (local_reset (hchild d hdn)) hdn hc hcd
    intro m hm hmidle
    rcases hm.eq_or_child with rfl | ⟨c, hc, hcm⟩
    · refine ⟨fun hserial => reset_blank hidle hserial, fun c hc => ?_⟩
      have hcm : c ≠ m := (F.child_lt m c hc).ne
      rw [reset_state_of_ne hidle hcm]
      refine World.forEach_establishes (P := fun _ => True) (Q := fun c v => v.state c = .idle)
        (fun _ _ _ _ => trivial) (fun c hc v _ => reset_idle (hchild c (parent_of_mem hc))) ?_ trivial c
        (mem_children.mpr hc)
      exact fun c _ d hd v _ hidle => (clears_reset (hchild d (parent_of_mem hd))).idle hidle
    · have hne : ∀ x, F.Below c x → x ≠ n := by
        rintro x hx rfl
        exact Below.not_parent rank_lt hc hx
      have hfresh : Fresh F (F.reset (depth + 1) n w) c :=
        (hchildren c hc).congr fun x hx => reset_fields_of_ne hidle (hne x hx)
      exact hfresh m hcm hmidle

theorem fresh_resets {resets : List ActionId} (hresets : ∀ c ∈ resets, F.parent c = some n)
    (h : ∀ c, F.parent c = some n → Fresh F w c) :
    ∀ c, F.parent c = some n → Fresh F (World.forEach (F.reset n) resets w) c := by
  refine World.forEach_induction (P := fun v => ∀ c, F.parent c = some n → Fresh F v c) ?_ h
  intro d hd v hv c hc
  have hdn := hresets d hd
  by_cases hcd : d = c
  · subst hcd
    exact fresh_reset (hv d hc) (F.child_lt n d hc)
  · exact (hv c hc).sibling (local_reset (F.child_lt n d hdn)) hdn hc hcd

theorem reset_log : (F.reset depth n w).log = w.log := by
  induction depth generalizing n w with
  | zero => rfl
  | succ depth ih =>
    have hcancel : ∀ (v : World) (id : RunId), (v.cancel id).log = v.log := by
      intro v id
      rw [World.cancel]
      split_ifs <;> rfl
    have hloop : (World.forEach (F.reset depth) (F.children n) w).log = w.log :=
      World.forEach_induction (P := fun v => v.log = w.log) (fun c _ v hv => ih.trans hv) rfl
    rw [reset]
    split_ifs
    · rfl
    change (World.cancel (World.cancel _ _) _).log = w.log
    rw [hcancel, hcancel]
    change (F.onReset (F.reset depth) n w).log = w.log
    rw [onReset]
    split
    · rfl
    · exact hloop
    · exact hloop

theorem resets_log (resets : List ActionId) : (World.forEach (F.reset n) resets w).log = w.log :=
  World.forEach_induction (P := fun v => v.log = w.log) (fun _ _ _ hv => reset_log.trans hv) rfl

end Forest

end Tbox.Flow.Action
