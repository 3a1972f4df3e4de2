import Tbox.Flow.StateMachine

/-!
# Calls into a machine that is already in one

A machine that has a call on the stack is protected by its `cb_level_`, which is raised around its own callbacks, and
not where `start` and `run` go into the sub machine.
-/

open List Option

namespace Tbox.Flow

abbrev World := Lib.World MachineId Status Callback Call

abbrev FinishedCall := Lib.FinishedCall MachineId Status Callback Call

abbrev Session := Lib.Session MachineId Status Callback Call

def onStack (w : World) : List MachineId := w.opens.map fun o => o.call.machine

def Reentrant (r : FinishedCall) : Prop := r.call.machine ∈ r.under.map Call.machine

def Status.Defined (s : Status) : Prop := s.isRunning = true ↔ s.currState ≠ none

/-- A call under another one of the same machine is rejected and changes nothing; any other leaves
the machine with a defined current state. -/
structure Protected (r : FinishedCall) : Prop where
  rejected : Reentrant r → r.result = false ∧ r.after r.call.machine = r.before r.call.machine
  defined : ¬Reentrant r → (r.after r.call.machine).Defined
  current : ¬Reentrant r → r.call.op ≠ .stop →
    (r.before r.call.machine).isRunning = true ∨ r.result = true →
    (r.after r.call.machine).currState ≠ none

def GuardedCall (w : World) (call : Call) : Prop :=
  call.machine ∈ onStack w → call.op = .start ∨ (w.cells call.machine).cbLevel ≠ 0

structure Status.Settled (s : Status) : Prop where
  level : s.cbLevel = 0
  defined : s.Defined

structure AtRest (w : World) : Prop where
  settled : ∀ m, m ∉ onStack w → (w.cells m).Settled
  running : ∀ m ∈ onStack w, (w.cells m).isRunning = true

def reentry : Lib.Contract MachineId Status Callback Call where
  holds w := ∀ r ∈ w.finished, Protected r
  admits := GuardedCall
  owed := AtRest
  rely w w' := w'.opens = w.opens ∧ ∀ m ∈ onStack w, w'.cells m = w.cells m

namespace Hierarchy

/-- In the body of the call, begun in `base`, which has the machine to itself. -/
structure Inside (base : World) (call : Call) (s : Status) (w : World) : Prop where
  cell : w.cells call.machine = s
  opens : w.opens = (base.enter call).opens
  settled : ∀ m, m ∉ onStack w → (w.cells m).Settled
  kept : ∀ m ∈ onStack base, w.cells m = base.cells m
  holds : reentry.holds w

variable {H : Hierarchy} {base w w' : World} {call : Call} {s : Status}

def Runs (base : World) (call : Call) (s : Status) {α : Type} (p : Prog α)
    (Q : α → World → Prop) : Prop :=
  ∀ w, Inside base call s w → Lib.Safe reentry p w Q

/-- After a call begun in `base`, which has left the machines under it alone. -/
structure Returned (base w : World) : Prop where
  atRest : AtRest w
  holds : reentry.holds w
  rely : reentry.rely base w

def CallSafe (p : Prog Bool) : Prop :=
  ∀ w, AtRest w → reentry.holds w → Lib.Safe reentry p w fun _ w' => Returned w w'

theorem Inside.onStack_eq (h : Inside base call s w) : onStack w = call.machine :: onStack base := by
  rw [onStack, h.opens]
  rfl

theorem Inside.set (hfresh : call.machine ∉ onStack base) (h : Inside base call s w) (s' : Status) :
    Inside base call s' (w.set call.machine s') := by
  refine ⟨Function.update_self .., h.opens, fun m hm => ?_, fun m hm => ?_, h.holds⟩
  · have hne : m ≠ call.machine := by
      rintro rfl
      refine hm ?_
      show _ ∈ onStack w
      rw [h.onStack_eq]
      exact mem_cons_self
    show (Function.update w.cells call.machine s' m).Settled
    rw [Function.update_of_ne hne]
    exact h.settled m hm
  · have hne : m ≠ call.machine := fun heq => hfresh (heq ▸ hm)
    show Function.update w.cells call.machine s' m = _
    rw [Function.update_of_ne hne]
    exact h.kept m hm

theorem Inside.atRest (hbase : AtRest base) (h : Inside base call s w) (hrunning : s.isRunning = true) :
    AtRest w := by
  refine ⟨h.settled, fun m hm => ?_⟩
  rw [h.onStack_eq] at hm
  rcases mem_cons.mp hm with rfl | hm
  · rw [h.cell]
    exact hrunning
  · rw [h.kept m hm]
    exact hbase.running m hm

theorem Inside.of_rely (h : Inside base call s w) (hrely : reentry.rely w w') (howed : AtRest w')
    (hholds : reentry.holds w') : Inside base call s w' := by
  have hstack : onStack w' = onStack w := by rw [onStack, onStack, hrely.1]
  refine ⟨?_, hrely.1.trans h.opens, howed.settled, fun m hm => ?_, hholds⟩
  · rw [hrely.2 _ (h.onStack_eq ▸ mem_cons_self), h.cell]
  · rw [hrely.2 _ (h.onStack_eq ▸ mem_cons_of_mem _ hm), h.kept m hm]

section Current

variable {α : Type} {Q : α → World → Prop} {C : Lib.Contract MachineId Status Callback Call} {m : MachineId}
  {id : StateID}

theorem safe_currState (hcurr : (w.cells m).currState = some id) {f : State → Prog α}
    (h : Lib.Safe C (f (H.stateAt m id)) w Q) : Lib.Safe C (H.currState m >>= f) w Q := by
  rw [currState_bind]
  show Lib.Safe C ((w.cells m).currState.elim _ _) w Q
  rw [hcurr]
  exact h

theorem safe_currSub {sub : MachineId} (hcurr : (w.cells m).currState = some id)
    (hsub : (H.stateAt m id).subSm = some sub) {f : MachineId → Prog α} (h : Lib.Safe C (f sub) w Q) :
    Lib.Safe C (H.currSub m >>= f) w Q := by
  rw [currSub_bind]
  show Lib.Safe C ((w.cells m).currState.elim _ _) w Q
  rw [hcurr, elim_some, hsub]
  exact h

end Current

section Rules

variable {α : Type} {Q : α → World → Prop}

theorem Runs.status {f : Status → Prog α} (h : Runs base call s (f s) Q) :
    Runs base call s (Hierarchy.status call.machine >>= f) Q := by
  intro w hw
  show Lib.Safe reentry (f (w.cells call.machine)) w Q
  rw [hw.cell]
  exact h w hw

theorem Runs.status_any (m : MachineId) {f : Status → Prog α} (h : ∀ v, Runs base call s (f v) Q) :
    Runs base call s (Hierarchy.status m >>= f) Q :=
  fun w hw => h _ w hw

theorem Runs.modify (hfresh : call.machine ∉ onStack base) {g : Status → Status} {f : Unit → Prog α}
    (h : Runs base call (g s) (f ()) Q) : Runs base call s (Hierarchy.modify call.machine g >>= f) Q := by
  intro w hw
  have hnext := hw.set hfresh (g s)
  show reentry.holds (w.set call.machine (g (w.cells call.machine))) ∧
    Lib.Safe reentry (f ()) (w.set call.machine (g (w.cells call.machine))) Q
  rw [hw.cell]
  exact ⟨hnext.holds, h _ hnext⟩

theorem Runs.callback (hbase : AtRest base) (hrunning : s.isRunning = true) (c : Callback)
    {f : Int → Prog α} (h : ∀ v, Runs base call s (f v) Q) : Runs base call s (Hierarchy.callback c >>= f) Q := by
  intro w hw
  have hnote : Inside base call s (w.note c) := { hw with }
  exact ⟨hw.holds, hnote.atRest hbase hrunning, fun v w' hrely howed hholds =>
    h v w' (hnote.of_rely hrely howed hholds)⟩

theorem Runs.of_call (hbase : AtRest base) (hrunning : s.isRunning = true) {p : Prog Bool}
    (hp : CallSafe p) {f : Bool → Prog α} (h : ∀ v, Runs base call s (f v) Q) : Runs base call s (p >>= f) Q := by
  intro w hw
  refine Lib.Safe.bind ((hp w (hw.atRest hbase hrunning) hw.holds).mono fun v w' hw' => ?_)
  exact h v w' (hw.of_rely hw'.rely hw'.atRest hw'.holds)

theorem Runs.currState (id : StateID) (hcurr : s.currState = some id) {f : State → Prog α}
    (h : Runs base call s (f (H.stateAt call.machine id)) Q) :
    Runs base call s (H.currState call.machine >>= f) Q := by
  intro w hw
  apply safe_currState
  · rw [hw.cell, hcurr]
  · exact h w hw

theorem Runs.currSub (id : StateID) {sub : MachineId} (hcurr : s.currState = some id)
    (hsub : (H.stateAt call.machine id).subSm = some sub) {f : MachineId → Prog α} (h : Runs base call s (f sub) Q) :
    Runs base call s (H.currSub call.machine >>= f) Q := by
  intro w hw
  apply safe_currSub _ hsub
  · exact h w hw
  · rw [hw.cell, hcurr]

/-- **The rule of composition** for parts of a body. -/
theorem Runs.seq {s' : Status} {p : Prog α} {β : Type} {f : α → Prog β} {Q : β → World → Prop}
    (hp : Runs base call s p fun _ w => Inside base call s' w)
    (hf : ∀ a, Runs base call s' (f a) Q) : Runs base call s (p >>= f) Q :=
  fun w hw => Lib.Safe.bind ((hp w hw).mono fun a w' hw' => hf a w' hw')

theorem Runs.pure (a : α) : Runs base call s (Pure.pure a) fun _ w => Inside base call s w := fun _ hw => hw

/-- **The return of a call** that leaves its machine settled. -/
theorem Runs.return (hbase : AtRest base) (hfresh : call.machine ∉ onStack base) (hs : s.Settled)
    (result : Bool) (hcurr : call.op ≠ .stop →
      (base.cells call.machine).isRunning = true ∨ result = true → s.currState ≠ none) :
    Runs base call s (Pure.pure result) fun result w => reentry.holds (w.leave result) ∧
      Returned base (w.leave result) := by
  intro w hw
  have hleave : w.leave result = { w with
      opens := base.opens
      finished := w.finished ++ [w.close ⟨call, base.cells, base.log.length⟩ base.opens result] } :=
    Lib.World.leave_of_opens hw.opens result
  have hunder : ¬Reentrant (w.close ⟨call, base.cells, base.log.length⟩ base.opens result) := by
    intro hreentrant
    rw [Reentrant, Lib.World.close, List.map_map] at hreentrant
    exact hfresh hreentrant
  have hholds : reentry.holds (w.leave result) := by
    rw [hleave]
    intro r hr
    rcases mem_append.mp hr with hr | hr
    · exact hw.holds r hr
    rw [mem_singleton.mp hr]
    refine ⟨fun hreentrant => absurd hreentrant hunder, fun _ => ?_, fun _ hop hran => ?_⟩
    · show (w.cells call.machine).Defined
      rw [hw.cell]
      exact hs.defined
    · show (w.cells call.machine).currState ≠ none
      rw [hw.cell]
      exact hcurr hop hran
  refine ⟨hholds, ⟨fun m hm => ?_, fun m hm => ?_⟩, hholds, ?_, fun m hm => ?_⟩
  · rw [hleave] at hm ⊢
    by_cases heq : m = call.machine
    · rw [heq]
      show (w.cells call.machine).Settled
      rw [hw.cell]
      exact hs
    · refine hw.settled m fun hmem => ?_
      rw [hw.onStack_eq] at hmem
      rcases mem_cons.mp hmem with h | h
      · exact heq h
      · exact hm h
  · rw [hleave] at hm ⊢
    show (w.cells m).isRunning = true
    rw [hw.kept m hm]
    exact hbase.running m hm
  · rw [hleave]
  · rw [hleave]
    exact hw.kept m hm

end Rules

theorem returned_of_rejected (hbase : AtRest base) (hholds : reentry.holds base) :
    reentry.holds ((base.enter call).leave false) ∧ Returned base ((base.enter call).leave false) := by
  by_cases hfresh : call.machine ∈ onStack base
  · have hrecord : reentry.holds ((base.enter call).leave false) := by
      intro r hr
      rcases mem_append.mp hr with hr | hr
      · exact hholds r hr
      rw [mem_singleton.mp hr]
      have hreentrant : Reentrant ((base.enter call).close ⟨call, base.cells, base.log.length⟩
          base.opens false) := by
        rw [Reentrant, Lib.World.close, List.map_map]
        exact hfresh
      exact ⟨fun _ => ⟨rfl, rfl⟩, fun hnot => absurd hreentrant hnot, fun hnot => absurd hreentrant hnot⟩
    exact ⟨hrecord, ⟨hbase.settled, hbase.running⟩, hrecord, rfl, fun _ _ => rfl⟩
  · have hs := hbase.settled _ hfresh
    refine Runs.return hbase hfresh hs false (fun _ hran => ?_) (base.enter call)
      ⟨rfl, rfl, fun m hm => hbase.settled m fun hmem => hm (mem_cons_of_mem _ hmem), fun _ _ => rfl, hholds⟩
    rcases hran with hran | hran
    · exact hs.defined.mp hran
    · cases hran

theorem Inside.of_enter (hbase : AtRest base) (hholds : reentry.holds base) :
    Inside base call (base.cells call.machine) (base.enter call) :=
  ⟨rfl, rfl, fun m hm => hbase.settled m fun hmem => hm (mem_cons_of_mem _ hmem), fun _ _ => rfl, hholds⟩

theorem callSafe_bracket (call : Call) {body : Prog Bool} (hrejected : ∀ w, (w.cells call.machine).isRunning = true →
      call.op = .start ∨ (w.cells call.machine).cbLevel ≠ 0 →
      Lib.Safe reentry body w fun result w' => result = false ∧ w' = w)
    (hbody : ∀ base, AtRest base → reentry.holds base → call.machine ∉ onStack base →
      Runs base call (base.cells call.machine) body fun result w => reentry.holds (w.leave result) ∧
        Returned base (w.leave result)) : CallSafe (Lib.Prog.bracket call body) := by
  intro base hbase hholds
  refine Lib.Safe.bracket (fun _ => hholds) fun hadmits => ?_
  by_cases hstack : call.machine ∈ onStack base
  · refine (hrejected (base.enter call) (hbase.running _ hstack) (hadmits hstack)).mono ?_
    rintro result w ⟨rfl, rfl⟩
    exact returned_of_rejected hbase hholds
  · exact hbody base hbase hholds hstack _ (.of_enter hbase hholds)

theorem lt_of_subSm {m : MachineId} {id : StateID} {sub : MachineId}
    (h : (H.stateAt m id).subSm = some sub) : sub < m := by
  rw [stateAt] at h
  cases hfind : (H.machine m).findState id with
  | none =>
    rw [hfind] at h
    cases h
  | some state =>
    rw [hfind] at h
    refine H.sub_lt m state ?_ sub h
    rw [Machine.findState] at hfind
    split at hfind
    · exact List.mem_of_find?_eq_some hfind
    · cases hfind

theorem stop_callSafe (m : MachineId) : CallSafe (H.stop m) := by
  refine callSafe_bracket ⟨m, .stop⟩ (fun w hrunning hguard => ?_) fun base hbase hholds hfresh => ?_
  · have hlevel : (w.cells m).cbLevel ≠ 0 := hguard.resolve_left nofun
    show Lib.Safe reentry (if !(w.cells m).isRunning then _ else _) w _
    rw [hrunning, if_neg (by simp), if_pos hlevel]
    exact ⟨rfl, rfl⟩
  · have hs := hbase.settled m hfresh
    refine Runs.status ?_
    cases hrunning : (base.cells m).isRunning with
    | false => exact Runs.return hbase hfresh hs false fun hop => absurd rfl hop
    | true =>
      obtain ⟨id, hcurr⟩ := ne_none_iff_exists'.mp (hs.defined.mp hrunning)
      show Runs base ⟨m, .stop⟩ _ (if (base.cells m).cbLevel ≠ 0 then _ else _) _
      rw [if_neg (not_not.mpr hs.level)]
      refine Runs.modify hfresh ?_
      refine Runs.currState id (by exact hcurr) ?_
      refine Runs.callback hbase (by exact hrunning) _ fun _ => ?_
      refine Runs.modify hfresh ?_
      refine Runs.modify hfresh ?_
      refine Runs.return hbase hfresh ⟨?_, ?_⟩ true fun hop => absurd rfl hop
      · show (base.cells m).cbLevel + 1 - 1 = 0
        rw [hs.level]
        rfl
      · exact iff_of_false nofun fun hne => hne rfl

theorem start_callSafe (depth : Nat) (m : MachineId) (hdepth : m < depth) : CallSafe (H.start depth m) := by
  induction depth generalizing m with
  | zero => exact absurd hdepth (Nat.not_lt_zero m)
  | succ depth ih =>
    refine callSafe_bracket ⟨m, .start⟩ (fun w hrunning _ => ?_) fun base hbase hholds hfresh => ?_
    · show Lib.Safe reentry (if (w.cells m).isRunning then _ else _) w _
      rw [hrunning, if_pos rfl]
      exact ⟨rfl, rfl⟩
    have hs := hbase.settled m hfresh
    refine Runs.status ?_
    cases hrunning : (base.cells m).isRunning with
    | true =>
      refine Runs.return hbase hfresh hs false fun _ _ => hs.defined.mp hrunning
    | false =>
      have hidle : ¬((base.cells m).isRunning = true ∨ false = true) := by simp [hrunning]
      show Runs base ⟨m, .start⟩ _ (if (base.cells m).cbLevel ≠ 0 then _ else _) _
      rw [if_neg (not_not.mpr hs.level)]
      cases hinit : (H.machine m).findState (H.machine m).initStateId with
      | none => exact Runs.return hbase hfresh hs false fun _ hran => absurd hran hidle
      | some initState =>
        have hended : Status.Settled { base.cells m with
            isRunning := true
            currState := some initState.id
            cbLevel := (base.cells m).cbLevel + 1 - 1 } := by
          refine ⟨?_, iff_of_true rfl nofun⟩
          show (base.cells m).cbLevel + 1 - 1 = 0
          rw [hs.level]
          rfl
        refine Runs.modify hfresh ?_
        refine Runs.modify hfresh ?_
        refine Runs.callback hbase rfl _ fun _ => ?_
        refine Runs.modify hfresh ?_
        refine Runs.currState initState.id rfl ?_
        cases hsub : (H.stateAt m initState.id).subSm with
        | none => exact Runs.return hbase hfresh hended true fun _ _ => nofun
        | some sub =>
          refine Runs.currSub initState.id rfl hsub ?_
          have hlt : sub < depth := Nat.lt_of_lt_of_le (lt_of_subSm hsub) (Nat.le_of_lt_succ hdepth)
          refine Runs.of_call hbase rfl (ih sub hlt) fun _ => ?_
          exact Runs.return hbase hfresh hended true fun _ _ => nofun

section Run

variable (hbase : AtRest base) (hfresh : call.machine ∉ onStack base)
include hbase

theorem findRoute_runs (hrunning : s.isRunning = true) (event : Event) (routes : List Route) :
    Runs base call s (findRoute call.machine event routes) fun _ w => Inside base call s w := by
  induction routes with
  | nil => exact .pure _
  | cons route routes ih =>
    unfold findRoute
    split
    · exact ih
    split
    · refine Runs.callback hbase hrunning _ fun passed => ?_
      split
      · exact ih
      · exact .pure _
    · exact .pure _

theorem callHandler_runs (hrunning : s.isRunning = true) (event : Event) (curr : State) :
    Runs base call s (callHandler call.machine event curr) fun _ w => Inside base call s w := by
  unfold callHandler
  split
  · exact Runs.callback hbase hrunning _ fun _ => .pure _
  · split
    · exact Runs.callback hbase hrunning _ fun _ => .pure _
    · exact .pure _

theorem takeRoute_runs (hrunning : s.isRunning = true) (event : Event) (route : Option Route) :
    Runs base call s (takeRoute call.machine event route) fun _ w => Inside base call s w := by
  cases route with
  | none => exact .pure _
  | some route => exact Runs.callback hbase hrunning _ fun _ => .pure _

theorem notifyChanged_runs (hrunning : s.isRunning = true) {last curr : StateID}
    (hlast : s.lastState = some last) (hcurr : s.currState = some curr) (event : Event) :
    Runs base call s (H.notifyChanged call.machine event) fun _ w => Inside base call s w := by
  refine Runs.status ?_
  rw [hlast]
  refine Runs.currState curr hcurr ?_
  exact Runs.callback hbase hrunning _ fun _ => .pure _

variable {startSub : MachineId → Prog Bool} {runSub : MachineId → Event → Prog Bool}
  (hstart : ∀ sub < call.machine, CallSafe (startSub sub))
  (hrun : ∀ sub < call.machine, ∀ event, CallSafe (runSub sub event))

include hstart hrun in
theorem enterSub_runs (hrunning : s.isRunning = true) {curr : StateID}
    (hcurr : s.currState = some curr) (event : Event) :
    Runs base call s (H.enterSub startSub runSub call.machine event) fun _ w => Inside base call s w := by
  refine Runs.currState curr hcurr ?_
  cases hsub : (H.stateAt call.machine curr).subSm with
  | none => exact .pure _
  | some sub =>
    have hlt := lt_of_subSm hsub
    refine Runs.currSub curr hcurr hsub ?_
    refine Runs.of_call hbase hrunning (hstart sub hlt) fun _ => ?_
    refine Runs.currSub curr hcurr hsub ?_
    exact Runs.of_call hbase hrunning (hrun sub hlt event) fun _ => .pure _

include hfresh

omit hbase in
theorem Runs.lower {α : Type} {Q : α → World → Prop} {f : Unit → Prog α} (h : Runs base call s (f ()) Q) :
    Runs base call { s with cbLevel := s.cbLevel + 1 } (lower call.machine >>= f) Q := by
  refine Runs.modify hfresh ?_
  have hsame : { s with cbLevel := s.cbLevel + 1 - 1 } = s := by rw [Int.add_sub_cancel]
  show Runs base call { s with cbLevel := s.cbLevel + 1 - 1 } _ _
  rw [hsame]
  exact h

theorem handleEvent_runs (hrunning : s.isRunning = true) {curr : StateID}
    (hcurr : s.currState = some curr) (event : Event) :
    Runs base call s (H.handleEvent call.machine event) fun _ w => Inside base call s w := by
  refine Runs.modify hfresh ?_
  refine Runs.currState curr (by exact hcurr) ?_
  refine Runs.seq (callHandler_runs hbase (by exact hrunning) event _) fun next => ?_
  exact Runs.lower hfresh (.pure next)

theorem selectRoute_runs (hrunning : s.isRunning = true) {curr : StateID}
    (hcurr : s.currState = some curr) (event : Event) :
    Runs base call s (H.selectRoute call.machine event) fun _ w => Inside base call s w := by
  refine Runs.modify hfresh ?_
  refine Runs.currState curr (by exact hcurr) ?_
  refine Runs.seq (findRoute_runs hbase (by exact hrunning) event _) fun route => ?_
  exact Runs.lower hfresh (.pure route)

include hstart hrun

/-- **A change of state** ends in a state. -/
theorem changeState_runs (hs : s.Settled) (hrunning : s.isRunning = true) (event : Event)
    (nextStateId : StateID) (route : Option Route) :
    Runs base call s (H.changeState startSub runSub call.machine event nextStateId route)
      fun result w => reentry.holds (w.leave result) ∧ Returned base (w.leave result) := by
  obtain ⟨id, hcurr⟩ := ne_none_iff_exists'.mp (hs.defined.mp hrunning)
  refine Runs.modify hfresh ?_
  cases hnext : H.knownState call.machine nextStateId with
  | none =>
    have hkept : Status.Settled { s with nextState := none } := ⟨hs.level, hs.defined⟩
    exact Runs.return hbase hfresh hkept false fun _ _ => hs.defined.mp hrunning
  | some next =>
    have hended : Status.Settled { s with
        lastState := s.currState
        currState := some next
        nextState := none
        cbLevel := s.cbLevel + 1 - 1 } := by
      refine ⟨?_, iff_of_true hrunning nofun⟩
      show s.cbLevel + 1 - 1 = 0
      rw [hs.level]
      rfl
    refine Runs.modify hfresh ?_
    refine Runs.currState id (by exact hcurr) ?_
    refine Runs.callback hbase (by exact hrunning) _ fun _ => ?_
    refine Runs.modify hfresh ?_
    refine Runs.seq (takeRoute_runs hbase (by exact hrunning) event route) fun _ => ?_
    refine Runs.modify hfresh ?_
    refine Runs.currState next rfl ?_
    refine Runs.callback hbase (by exact hrunning) _ fun _ => ?_
    refine Runs.seq (notifyChanged_runs hbase (by exact hrunning) (by exact hcurr) rfl event) fun _ => ?_
    refine Runs.seq (enterSub_runs hbase hstart hrun (by exact hrunning) rfl event) fun _ => ?_
    refine Runs.modify hfresh ?_
    exact Runs.return hbase hfresh hended true fun _ _ => nofun

theorem runCurrent_runs (hs : s.Settled) (hrunning : s.isRunning = true) (event : Event) :
    Runs base call s (H.runCurrent startSub runSub call.machine event)
      fun result w => reentry.holds (w.leave result) ∧ Returned base (w.leave result) := by
  obtain ⟨id, hcurr⟩ := ne_none_iff_exists'.mp (hs.defined.mp hrunning)
  refine Runs.seq (handleEvent_runs hbase hfresh hrunning hcurr event) fun nextStateId => ?_
  split
  · refine Runs.seq (selectRoute_runs hbase hfresh hrunning hcurr event) fun route => ?_
    cases route with
    | none => exact Runs.return hbase hfresh hs false fun _ _ => hs.defined.mp hrunning
    | some route => exact changeState_runs hbase hfresh hstart hrun hs hrunning event _ _
  · exact changeState_runs hbase hfresh hstart hrun hs hrunning event _ _

end Run

theorem run_callSafe (depth : Nat) (m : MachineId) (event : Event) (hdepth : m < depth) :
    CallSafe (H.run depth m event) := by
  induction depth generalizing m event with
  | zero => exact absurd hdepth (Nat.not_lt_zero m)
  | succ depth ih =>
    have hstart : ∀ sub < m, CallSafe (H.start depth sub) := fun sub hlt =>
      start_callSafe depth sub (Nat.lt_of_lt_of_le hlt (Nat.le_of_lt_succ hdepth))
    have hrun : ∀ sub < m, ∀ event, CallSafe (H.run depth sub event) := fun sub hlt event =>
      ih sub event (Nat.lt_of_lt_of_le hlt (Nat.le_of_lt_succ hdepth))
    refine callSafe_bracket ⟨m, .run event⟩ (fun w hrunning hguard => ?_) fun base hbase hholds hfresh => ?_
    · have hlevel : (w.cells m).cbLevel ≠ 0 := hguard.resolve_left nofun
      show Lib.Safe reentry (if !(w.cells m).isRunning then _ else _) w _
      rw [hrunning, if_neg (by simp), if_pos hlevel]
      exact ⟨rfl, rfl⟩
    · have hs := hbase.settled m hfresh
      refine Runs.status ?_
      cases hrunning : (base.cells m).isRunning with
      | false =>
        refine Runs.return hbase hfresh hs false fun _ hran => ?_
        rcases hran with hran | hran
        · exact absurd (hrunning.symm.trans hran) nofun
        · cases hran
      | true =>
        obtain ⟨id, hcurr⟩ := ne_none_iff_exists'.mp (hs.defined.mp hrunning)
        have hown := runCurrent_runs (H := H) hbase hfresh hstart hrun hs hrunning event
        show Runs base ⟨m, .run event⟩ _ (if (base.cells m).cbLevel ≠ 0 then _ else _) _
        rw [if_neg (not_not.mpr hs.level)]
        refine Runs.currState id hcurr ?_
        cases hsub : (H.stateAt m id).subSm with
        | none => exact hown
        | some sub =>
          refine Runs.of_call hbase hrunning (hrun sub (lt_of_subSm hsub) event) fun ret => ?_
          refine Runs.currSub id hcurr hsub ?_
          refine Runs.status_any sub fun status => ?_
          split
          · refine Runs.currSub id hcurr hsub ?_
            exact Runs.of_call hbase hrunning (stop_callSafe sub) fun _ => hown
          · exact Runs.return hbase hfresh hs ret fun _ _ => hs.defined.mp hrunning

theorem perform_callSafe (call : Call) : CallSafe (H.perform call) := by
  obtain ⟨m, op⟩ := call
  cases op with
  | start => exact start_callSafe _ m (Nat.lt_succ_self m)
  | stop => exact stop_callSafe m
  | run event => exact run_callSafe _ m event (Nat.lt_succ_self m)
  | restart =>
    intro w hrest hholds
    refine Lib.Safe.bind ((stop_callSafe m w hrest hholds).mono fun _ w' hstopped => ?_)
    refine (start_callSafe _ m (Nat.lt_succ_self m) w' hstopped.atRest hstopped.holds).mono ?_
    intro _ w'' hstarted
    refine ⟨hstarted.atRest, hstarted.holds, hstarted.rely.1.trans hstopped.rely.1, fun x hx => ?_⟩
    have hstack : onStack w' = onStack w := by rw [onStack, onStack, hstopped.rely.1]
    rw [hstarted.rely.2 x (hstack ▸ hx), hstopped.rely.2 x hx]

/-- Machines that have not been started, and a user who has control. -/
def fresh : Session := { world := { cells := fun _ => {} } }

/-- Every call that has returned was protected, and nothing has crashed. -/
structure Guarded (s : Session) : Prop where
  every : ∀ r ∈ s.world.finished, Protected r
  alive : s.current ≠ some .crash

/-- Any call that begins in this step, of the user or of a parent machine, is a guarded one. -/
def CallsGuarded : Session → Lib.Session.Action Call → Prop :=
  Lib.Session.Admitted reentry fun _ _ => True

/-- **Re-entrant calls are rejected** and the outer ones end in a defined state, whatever the
callbacks do, in every session whose calls are guarded ones. -/
theorem guarded_of_callsGuarded {actions : List (Lib.Session.Action Call)}
    (hguarded : Lib.Along (Lib.Session.step H.perform) CallsGuarded fresh actions) :
    Lib.Always (Lib.Session.step H.perform) Guarded fresh actions := by
  have hsettled : ∀ m, (fresh.world.cells m).Settled := fun _ => ⟨rfl, iff_of_false nofun (fun h => h rfl)⟩
  have htop : AtRest fresh.world ∧ fresh.world.opens = [] := ⟨⟨fun m _ => hsettled m, nofun⟩, rfl⟩
  have hrefl : ∀ w, reentry.rely w w := fun _ => ⟨rfl, fun _ _ => rfl⟩
  have htrans : ∀ u v w, reentry.rely u v → reentry.rely v w → reentry.rely u w := by
    intro u v w huv hvw
    refine ⟨hvw.1.trans huv.1, fun m hm => ?_⟩
    have hstack : onStack v = onStack u := by rw [onStack, onStack, huv.1]
    rw [hvw.2 m (hstack ▸ hm), huv.2 m hm]
  have hcall : ∀ (s : Session) (c : Call), True →
      Lib.AtUser reentry (fun w => AtRest w ∧ w.opens = []) s.stack s.world →
      reentry.holds s.world → Lib.Safe reentry (H.perform c) s.world fun _ =>
        Lib.AtUser reentry (fun w => AtRest w ∧ w.opens = []) s.stack := by
    intro s c _ huser hholds
    cases hstack : s.stack with
    | nil =>
      rw [hstack] at huser
      refine (perform_callSafe c s.world huser.1 hholds).mono fun _ w hw => ?_
      exact ⟨hw.atRest, hw.rely.1.trans huser.2⟩
    | cons rest stack =>
      rw [hstack] at huser
      refine (perform_callSafe c s.world huser.1 hholds).mono fun _ w hw => ?_
      exact huser.of_rely htrans hw.rely hw.atRest
  intro pre hpre s hrun
  obtain ⟨hevery, halive⟩ := Lib.Session.always_of_safe hrefl hcall rfl rfl htop nofun hguarded pre hpre
    s hrun
  exact ⟨hevery, halive⟩

instance (w : World) (call : Call) : Decidable (GuardedCall w call) :=
  inferInstanceAs (Decidable (_ → _ ∨ _))

instance (w : World) (call : Call) : Decidable (reentry.admits w call) :=
  inferInstanceAs (Decidable (GuardedCall w call))

instance (s : Session) (a : Lib.Session.Action Call) : Decidable (CallsGuarded s a) :=
  inferInstanceAs (Decidable (Lib.Session.Admitted reentry (fun _ _ => True) s a))

end Hierarchy

/-- Machine 1 has one state, with machine 0 attached to it, which has one too. -/
def nested : Hierarchy where
  machine m := match m with
    | 0 => { initStateId := 1, states := [{ id := 1 }] }
    | 1 => { initStateId := 1, states := [{ id := 1, subSm := some 0 }] }
    | _ + 2 => {}
  built m := match m with
    | 0 => .newState 1 .new rfl
    | 1 => .setSubStateMachine 1 0 (.newState 1 .new rfl) rfl
    | _ + 2 => .new
  sub_lt m := match m with
    | 0 => by simp
    | 1 => by simp
    | _ + 2 => by simp

namespace Hierarchy

def advances (n : Nat) : List (Lib.Session.Action Call) := List.replicate n .advance

/-- The enter action of the parent gives it an event. -/
def enterRunsParent : List (Lib.Session.Action Call) :=
  .call ⟨1, .start⟩ :: advances 7 ++ .call ⟨1, .run { id := 5 }⟩ :: advances 4 ++
    .answer 0 :: advances 11 ++ .answer 0 :: advances 6

theorem guarded_enterRunsParent :
    (Lib.run (Lib.Session.step nested.perform) fresh enterRunsParent).isSome ∧
      Lib.Always (Lib.Session.step nested.perform) Guarded fresh enterRunsParent :=
  ⟨by decide, guarded_of_callsGuarded (by decide)⟩

/-- The enter action of the sub machine stops the parent, which is starting it. -/
def enterStopsParent : List (Lib.Session.Action Call) :=
  .call ⟨1, .start⟩ :: advances 7 ++ .answer 0 :: advances 11 ++ .call ⟨1, .stop⟩ :: advances 6 ++
    .answer 0 :: advances 6

theorem parent_stopped_under_start :
    ¬Lib.Always (Lib.Session.step nested.perform) Guarded fresh enterStopsParent := by
  intro halways
  obtain ⟨s, hrun, hstopped⟩ := (Option.any_eq_true _ _).mp (show Option.any
    (fun s => s.world.finished.any fun r =>
      decide (r.call.machine ∈ r.under.map Call.machine ∧ r.result = true))
    (Lib.run (Lib.Session.step nested.perform) fresh enterStopsParent) = true by decide)
  obtain ⟨r, hr, hreturned⟩ := List.any_eq_true.mp hstopped
  obtain ⟨hreentrant, hresult⟩ := of_decide_eq_true hreturned
  have hrejected := ((halways _ (List.prefix_refl _) s hrun).every r hr).rejected hreentrant
  exact absurd (hresult.symm.trans hrejected.1) nofun

end Hierarchy

end Tbox.Flow
