import Tbox.Proof.MachineChain

/-!
# Whether a finished sub machine hands control back

`run` gives the event to the sub machine of the current state, and goes on only if `isTerminated` then says that it
has ended. It says so on the event that ended it, before `stop` clears its current state, and on no later one.
-/

open List

namespace Tbox.Flow

open Function (update_self update_eq_self update_idem update)

def Machine.RoutesKnown (m : Machine) : Prop :=
  ∀ state ∈ m.states, ∀ route ∈ state.routes,
    (m.findState route.nextStateId).isSome ∨ route.nextStateId = termStateId

namespace Machine

variable {m : Machine} {f : State → State} {id : StateID}

theorem findState_modifyState (hf : ∀ state, (f state).id = state.id) (stateId : StateID)
    (h : (m.findState id).isSome) : ((m.modifyState stateId f).findState id).isSome := by
  unfold findState at *
  split
  · rw [if_pos ‹_›, List.find?_isSome] at h
    obtain ⟨state, hmem, hid⟩ := h
    rw [List.find?_isSome]
    refine ⟨_, mem_map_of_mem hmem, ?_⟩
    split
    · rw [hf]
      exact hid
    · exact hid
  · rw [if_neg ‹_›] at h
    exact h

theorem RoutesKnown.modifyState (h : m.RoutesKnown) (hf : ∀ state, (f state).id = state.id)
    (hroutes : ∀ state, ∀ route ∈ (f state).routes, route ∈ state.routes ∨
      (m.findState route.nextStateId).isSome ∨ route.nextStateId = termStateId) (stateId : StateID) :
    (m.modifyState stateId f).RoutesKnown := by
  intro state hstate route hroute
  obtain ⟨old, hold, rfl⟩ := mem_map.mp hstate
  have hknown : (m.findState route.nextStateId).isSome ∨ route.nextStateId = termStateId := by
    split at hroute
    · rcases hroutes old route hroute with hroute | hknown
      · exact h old hold route hroute
      · exact hknown
    · exact h old hold route hroute
  exact hknown.imp_left (findState_modifyState hf stateId)

theorem Built.routesKnown (h : m.Built) : m.RoutesKnown := by
  induction h with
  | new => nofun
  | newState stateId _ heq ih =>
    obtain ⟨-, ⟨⟩⟩ := Option.ite_none_left_eq_some.mp heq
    intro state hstate route hroute
    rcases mem_append.mp hstate with hstate | hstate
    · refine (ih state hstate route hroute).imp_left fun hfound => ?_
      unfold findState at *
      split
      · rw [if_pos ‹_›, List.find?_isSome] at hfound
        obtain ⟨found, hmem, hid⟩ := hfound
        rw [List.find?_isSome]
        exact ⟨found, mem_append_left _ hmem, hid⟩
      · rw [if_neg ‹_›] at hfound
        exact hfound
    · rw [mem_singleton.mp hstate] at hroute
      cases hroute
  | addRoute fromStateId eventId toStateId guard _ heq ih =>
    obtain ⟨-, heq⟩ := Option.ite_none_left_eq_some.mp heq
    obtain ⟨hto, ⟨⟩⟩ := Option.ite_none_left_eq_some.mp heq
    refine ih.modifyState ?_ ?_ fromStateId
    · exact fun _ => rfl
    intro state route hroute
    rcases mem_append.mp hroute with hroute | hroute
    · exact .inl hroute
    rw [mem_singleton.mp hroute]
    refine .inr ?_
    by_cases hend : toStateId = termStateId
    · exact .inr hend
    · refine .inl (Option.isSome_iff_ne_none.mpr fun hnone => hto ⟨hend, ?_⟩)
      rw [hnone]
      rfl
  | addEvent stateId eventId _ heq ih =>
    obtain ⟨-, ⟨⟩⟩ := Option.ite_none_left_eq_some.mp heq
    refine ih.modifyState ?_ ?_ stateId
    · intro state
      split <;> rfl
    · intro state route hroute
      split at hroute <;> exact .inl hroute
  | setInitState initStateId _ ih => exact ih
  | setSubStateMachine stateId subSm _ heq ih =>
    obtain ⟨-, ⟨⟩⟩ := Option.ite_none_left_eq_some.mp heq
    refine ih.modifyState ?_ ?_ stateId
    · exact fun _ => rfl
    · exact fun _ _ => .inl

end Machine

def Callback.machine : Callback → MachineId
  | .enter m _ _ | .exit m _ _ | .event m _ _ | .defaultEvent m _ _ | .guard m _ _ | .action m _ _
  | .stateChanged m _ _ _ => m

namespace Hierarchy

variable (H : Hierarchy)

def runOwn (m : MachineId) (event : Event) : Prog Bool :=
  H.runCurrent (H.start m) (H.run m) m event

/-- `m` is given an event outside its callbacks, in a state with a sub machine. -/
structure Handed (m : MachineId) (state : StateID) (sub : MachineId) (cells : MachineId → Status) :
    Prop where
  running : (cells m).isRunning = true
  level : (cells m).cbLevel = 0
  curr : (cells m).currState = some state
  sub : (H.stateAt m state).subSm = some sub

/-- With the sub machine of its state not running, a machine evaluates the event as if the state had none. -/
structure HandsBack (answer : List Callback → Int) (m : MachineId) (event : Event)
    (cells : MachineId → Status) (log : List Callback) : Prop where
  earlier : ∀ state sub, H.Handed m state sub cells → (cells sub).isRunning = false →
    (H.run (m + 1) m event).eval answer cells log = (H.runOwn m event).eval answer cells log
  now : ∀ state sub, H.Handed m state sub cells → (cells sub).isRunning = true →
    ∀ ret cells' log', (H.run m sub event).eval answer cells log = some (ret, cells', log') →
      (cells' sub).isTerminated → (H.run (m + 1) m event).eval answer cells log
        = (H.stop sub >>= fun _ => H.runOwn m event).eval answer cells' log'

def Idle (state : State) (event : Event) : Prop :=
  event.id ∉ state.events ∧ state.defaultEvent = false ∧
    ∀ route ∈ state.routes, route.eventId ≠ anyEventId ∧ route.eventId ≠ event.id

/-- If the sub machine of the current state is neither running nor terminated, the state has nothing
for the event. -/
def Uncontested (m : MachineId) (event : Event) (cells : MachineId → Status) : Prop :=
  ∀ state sub, H.Handed m state sub cells → (cells sub).isRunning = false →
    ¬(cells sub).isTerminated → Idle (H.stateAt m state) event

section Confined

variable {H} {S : MachineId → Prop} {T : Callback → Prop} {m : MachineId}

theorem status_confined : (status m).Confined S T := fun _ => trivial

theorem callback_confined {c : Callback} (hc : T c) : (callback c).Confined S T := ⟨hc, fun _ => trivial⟩

theorem modify_confined (hm : S m) (g : Status → Status) : (modify m g).Confined S T := fun _ => ⟨hm, trivial⟩

theorem currState_confined {α : Type} {f : State → Prog α} (hf : ∀ id, (f (H.stateAt m id)).Confined S T) :
    (H.currState m >>= f).Confined S T := by
  rw [currState_bind]
  refine .bind status_confined fun s => ?_
  cases s.currState with
  | none => trivial
  | some id => exact hf id

theorem currSub_confined {α : Type} {f : MachineId → Prog α} (hf : ∀ sub < m, (f sub).Confined S T) :
    (H.currSub m >>= f).Confined S T := by
  rw [currSub_bind]
  refine .bind status_confined fun s => ?_
  cases s.currState with
  | none => trivial
  | some id =>
    rw [Option.elim_some]
    cases hsub : (H.stateAt m id).subSm with
    | none => trivial
    | some sub => exact hf sub (lt_of_subSm hsub)

theorem stop_confined (hm : S m) (hcalls : ∀ c, c.machine = m → T c) : (H.stop m).Confined S T := by
  refine .bracket _ (.bind status_confined fun s => ?_)
  split
  · trivial
  split
  · trivial
  · refine .bind (modify_confined hm _) fun _ => currState_confined fun id => ?_
    refine .bind (callback_confined (hcalls _ rfl)) fun _ => .bind (modify_confined hm _) fun _ => ?_
    exact .bind (modify_confined hm _) fun _ => trivial

theorem start_confined (depth : Nat) (hbelow : ∀ x ≤ m, S x) (hcalls : ∀ c, c.machine ≤ m → T c) :
    (H.start depth m).Confined S T := by
  have hm := hbelow m (Nat.le_refl m)
  induction depth generalizing m with
  | zero => trivial
  | succ depth ih =>
    refine .bracket _ (.bind status_confined fun s => ?_)
    split
    · trivial
    split
    · trivial
    split
    · trivial
    refine .bind (modify_confined hm _) fun _ => .bind (modify_confined hm _) fun _ => ?_
    refine .bind (callback_confined (hcalls _ (Nat.le_refl m))) fun _ => ?_
    refine .bind (modify_confined hm _) fun _ => ?_
    refine currState_confined fun id => ?_
    split
    · trivial
    refine currSub_confined fun sub hlt => ?_
    have hle := Nat.le_of_lt hlt
    refine .bind (ih (fun x hx => hbelow x (hx.trans hle)) (fun c hc => hcalls c (hc.trans hle)) ?_) ?_
    · exact hbelow sub hle
    · exact fun _ => trivial

theorem findRoute_confined (hcalls : ∀ c, c.machine = m → T c) (event : Event) (routes : List Route) :
    (findRoute m event routes).Confined S T := by
  induction routes with
  | nil => trivial
  | cons route routes ih =>
    unfold findRoute
    split
    · exact ih
    split
    · refine .bind (callback_confined (hcalls _ rfl)) fun passed => ?_
      split
      · exact ih
      · trivial
    · trivial

theorem handleEvent_confined (hm : S m) (hcalls : ∀ c, c.machine = m → T c) (event : Event) :
    (H.handleEvent m event).Confined S T := by
  refine .bind (modify_confined hm _) fun _ => currState_confined fun id => ?_
  refine .bind ?_ fun _ => .bind (modify_confined hm _) fun _ => trivial
  unfold callHandler
  split
  · exact callback_confined (hcalls _ rfl)
  · split
    · exact callback_confined (hcalls _ rfl)
    · trivial

theorem selectRoute_confined (hm : S m) (hcalls : ∀ c, c.machine = m → T c) (event : Event) :
    (H.selectRoute m event).Confined S T := by
  refine .bind (modify_confined hm _) fun _ => currState_confined fun id => ?_
  exact .bind (findRoute_confined hcalls event _) fun _ => .bind (modify_confined hm _) fun _ => trivial

variable {startSub : MachineId → Prog Bool} {runSub : MachineId → Event → Prog Bool}
  (hstart : ∀ sub < m, (startSub sub).Confined S T) (hrun : ∀ sub < m, ∀ event, (runSub sub event).Confined S T)
include hstart hrun

theorem enterSub_confined (event : Event) : (H.enterSub startSub runSub m event).Confined S T := by
  refine currState_confined fun id => ?_
  split
  · trivial
  · refine currSub_confined fun sub hlt => .bind (hstart sub hlt) fun _ => ?_
    exact currSub_confined fun sub hlt => .bind (hrun sub hlt event) fun _ => trivial

theorem changeState_confined (hm : S m) (hcalls : ∀ c, c.machine = m → T c) (event : Event)
    (nextStateId : StateID) (route : Option Route) :
    (H.changeState startSub runSub m event nextStateId route).Confined S T := by
  refine .bind (modify_confined hm _) fun _ => ?_
  split
  · trivial
  refine .bind (modify_confined hm _) fun _ => currState_confined fun id => ?_
  refine .bind (callback_confined (hcalls _ rfl)) fun _ => .bind (modify_confined hm _) fun _ => ?_
  refine .bind ?_ fun _ => .bind (modify_confined hm _) fun _ => ?_
  · cases route with
    | none => trivial
    | some route => exact ⟨hcalls _ rfl, fun _ => trivial⟩
  refine currState_confined fun id => .bind (callback_confined (hcalls _ rfl)) fun _ => ?_
  refine .bind ?_ fun _ => ?_
  · refine .bind status_confined fun s => ?_
    split
    · trivial
    · exact currState_confined fun id => ⟨hcalls _ rfl, fun _ => trivial⟩
  · refine .bind (enterSub_confined hstart hrun event) fun _ => ?_
    exact .bind (modify_confined hm _) fun _ => trivial

theorem runCurrent_confined (hm : S m) (hcalls : ∀ c, c.machine = m → T c) (event : Event) :
    (H.runCurrent startSub runSub m event).Confined S T := by
  refine .bind (handleEvent_confined hm hcalls event) fun nextStateId => ?_
  split
  · refine .bind (selectRoute_confined hm hcalls event) fun route => ?_
    split
    · trivial
    · exact changeState_confined hstart hrun hm hcalls event _ _
  · exact changeState_confined hstart hrun hm hcalls event _ _

omit hstart hrun

/-- **A run touches no machine above** and calls back for none. -/
theorem run_confined (depth : Nat) (hbelow : ∀ x ≤ m, S x) (hcalls : ∀ c, c.machine ≤ m → T c) (event : Event) :
    (H.run depth m event).Confined S T := by
  induction depth generalizing m event with
  | zero => trivial
  | succ depth ih =>
    have hm := hbelow m (Nat.le_refl m)
    have hlower : ∀ sub < m, ∀ x ≤ sub, S x := fun sub hlt x hx => hbelow x (hx.trans (Nat.le_of_lt hlt))
    have hlowerCalls : ∀ sub < m, ∀ c, Callback.machine c ≤ sub → T c := fun sub hlt c hc =>
      hcalls c (hc.trans (Nat.le_of_lt hlt))
    have hstart : ∀ sub < m, (H.start depth sub).Confined S T := fun sub hlt =>
      start_confined depth (hlower sub hlt) (hlowerCalls sub hlt)
    have hrun : ∀ sub < m, ∀ event, (H.run depth sub event).Confined S T := fun sub hlt event =>
      ih (hlower sub hlt) (hlowerCalls sub hlt) event
    refine .bracket _ (.bind status_confined fun s => ?_)
    split
    · trivial
    split
    · trivial
    refine currState_confined fun id => ?_
    have hown : (H.runCurrent (H.start depth) (H.run depth) m event).Confined S T :=
      runCurrent_confined hstart hrun hm (fun c hc => hcalls c (Nat.le_of_eq hc)) event
    cases hsub : (H.stateAt m id).subSm with
    | none => exact hown
    | some sub =>
      refine .bind (hrun sub (lt_of_subSm hsub) event) fun ret => currSub_confined fun sub hlt => ?_
      refine .bind status_confined fun s => ?_
      split
      · refine currSub_confined fun sub hlt => .bind ?_ fun _ => hown
        exact stop_confined (hbelow sub (Nat.le_of_lt hlt)) fun c hc => hlowerCalls sub hlt c (Nat.le_of_eq hc)
      · trivial

end Confined

section Eval

variable {H} {answer : List Callback → Int} {m sub : MachineId} {state : StateID} {event : Event}
  {cells cells' : MachineId → Status} {log log' : List Callback} {α : Type}

theorem eval_currState (hcurr : (cells m).currState = some state) (f : State → Prog α) :
    (H.currState m >>= f).eval answer cells log = (f (H.stateAt m state)).eval answer cells log := by
  rw [currState_bind]
  show Lib.Prog.eval answer ((cells m).currState.elim _ _) cells log = _
  rw [hcurr, Option.elim_some]

theorem eval_currSub (hcurr : (cells m).currState = some state)
    (hsub : (H.stateAt m state).subSm = some sub) (f : MachineId → Prog α) :
    (H.currSub m >>= f).eval answer cells log = (f sub).eval answer cells log := by
  rw [currSub_bind]
  show Lib.Prog.eval answer ((cells m).currState.elim _ _) cells log = _
  rw [hcurr, Option.elim_some, hsub, Option.elim_some]

/-- If the current state has a sub state machine, the event goes to it first. -/
theorem eval_run (hrunning : (cells m).isRunning = true) (hlevel : (cells m).cbLevel = 0)
    (hcurr : (cells m).currState = some state) :
    (H.run (m + 1) m event).eval answer cells log =
      (match (H.stateAt m state).subSm with
        | none => H.runOwn m event
        | some sub => do
            let ret ← H.run m sub event
            if (← status (← H.currSub m)).isTerminated then do
              let _ ← H.stop (← H.currSub m)
              H.runOwn m event
            else return ret).eval answer cells log := by
  rw [run, Lib.Prog.eval_bracket]
  show Lib.Prog.eval answer (if !(cells m).isRunning then _ else
    if (cells m).cbLevel ≠ 0 then _ else _) cells log = _
  rw [hrunning, if_neg (by simp), if_neg (not_not.mpr hlevel), eval_currState hcurr]
  rfl

theorem eval_run_stopped (hpos : 0 < m) (hstopped : (cells sub).isRunning = false) :
    (H.run m sub event).eval answer cells log = some (false, cells, log) := by
  obtain ⟨depth, rfl⟩ := Nat.exists_eq_succ_of_ne_zero (Nat.ne_of_gt hpos)
  rw [run, Lib.Prog.eval_bracket]
  show Lib.Prog.eval answer (if !(cells sub).isRunning then _ else _) cells log = _
  rw [hstopped]
  rfl

theorem eval_stop_stopped (hstopped : (cells sub).isRunning = false) :
    (H.stop sub).eval answer cells log = some (false, cells, log) := by
  rw [stop, Lib.Prog.eval_bracket]
  show Lib.Prog.eval answer (if !(cells sub).isRunning then _ else _) cells log = _
  rw [hstopped]
  rfl

theorem Handed.eval_run {ret : Bool} (h : H.Handed m state sub cells)
    (hret : (H.run m sub event).eval answer cells log = some (ret, cells', log')) :
    (H.run (m + 1) m event).eval answer cells log = if (cells' sub).isTerminated then
        (H.stop sub >>= fun _ => H.runOwn m event).eval answer cells' log' else some (ret, cells', log') := by
  have hcell : cells' m = cells m :=
    (run_confined (S := (· ≤ sub)) (T := fun _ => True) m (fun _ hx => hx) (fun _ _ => trivial) event).writes.frame
      hret (Nat.not_le_of_lt (lt_of_subSm h.sub))
  have hcurr : (cells' m).currState = some state := hcell ▸ h.curr
  rw [Hierarchy.eval_run h.running h.level h.curr]
  simp only [h.sub]
  rw [Lib.Prog.eval_bind, hret]
  show Lib.Prog.eval answer (H.currSub m >>= fun sub => status sub >>= _) cells' log' = _
  rw [eval_currSub hcurr h.sub]
  show Lib.Prog.eval answer (if (cells' sub).isTerminated then _ else _) cells' log' = _
  split
  · exact eval_currSub hcurr h.sub _
  · rfl

/-- `++cb_level_` -/
def raised (cells : MachineId → Status) (m : MachineId) : MachineId → Status :=
  update cells m { cells m with cbLevel := (cells m).cbLevel + 1 }

/-- `--cb_level_` -/
def lowered (cells : MachineId → Status) (m : MachineId) : MachineId → Status :=
  update cells m { cells m with cbLevel := (cells m).cbLevel - 1 }

theorem lowered_raised (cells : MachineId → Status) (m : MachineId) : lowered (raised cells m) m = cells := by
  have hcell : raised cells m m = { cells m with cbLevel := (cells m).cbLevel + 1 } := update_self ..
  rw [lowered, hcell, Int.add_sub_cancel, raised, update_idem]
  exact update_eq_self m cells

theorem eval_raised {p : State → Prog α} {v : α} {l : List Callback} (hcurr : (cells m).currState = some state)
    (hp : ∀ cells : MachineId → Status, (p (H.stateAt m state)).eval answer cells log = some (v, cells, log ++ l)) :
    (do raise m; let a ← p (← H.currState m); lower m; return a).eval answer cells log
      = some (v, cells, log ++ l) := by
  show Lib.Prog.eval answer (H.currState m >>= fun state => p state >>= fun a => do
    lower m; return a) (raised cells m) log = _
  have hraised : (raised cells m m).currState = some state := by
    rw [raised, update_self]
    exact hcurr
  rw [eval_currState hraised, Lib.Prog.eval_bind, hp]
  show some (v, lowered (raised cells m) m, log ++ l) = _
  rw [lowered_raised]

theorem eval_handleEvent (H : Hierarchy) (answer : List Callback → Int) (event : Event)
    (log : List Callback) (hcurr : (cells m).currState = some state) :
    ∃ v l, (H.handleEvent m event).eval answer cells log = some (v, cells, log ++ l) ∧
      ((event.id ∉ (H.stateAt m state).events ∧ (H.stateAt m state).defaultEvent = false ∧ l = [] ∧ v = nullStateId) ∨
        ((event.id ∈ (H.stateAt m state).events ∨ (H.stateAt m state).defaultEvent = true) ∧ l ≠ [])) := by
  by_cases hevent : event.id ∈ (H.stateAt m state).events
  · refine ⟨answer (log ++ [.event m (H.stateAt m state).id event]),
      [.event m (H.stateAt m state).id event], eval_raised hcurr fun cells => ?_,
      .inr ⟨.inl hevent, nofun⟩⟩
    rw [callHandler, if_pos hevent]
    rfl
  · cases hdefault : (H.stateAt m state).defaultEvent with
    | true =>
      refine ⟨answer (log ++ [.defaultEvent m (H.stateAt m state).id event]),
        [.defaultEvent m (H.stateAt m state).id event], eval_raised hcurr fun cells => ?_,
        .inr ⟨.inr rfl, nofun⟩⟩
      rw [callHandler, if_neg hevent, if_pos hdefault]
      rfl
    | false =>
      refine ⟨nullStateId, [], eval_raised hcurr fun cells => ?_, .inl ⟨hevent, rfl, rfl, rfl⟩⟩
      rw [callHandler, if_neg hevent, hdefault, append_nil]
      rfl

/-- The route that is found is one for the event, and where no guard was asked and none is found there
is none for it. -/
theorem eval_findRoute (answer : List Callback → Int) (m : MachineId) (event : Event)
    (log : List Callback) (routes : List Route) : ∃ route l, (∀ cells : MachineId → Status,
      (findRoute m event routes).eval answer cells log = some (route, cells, log ++ l)) ∧
      (∀ r, route = some r → r ∈ routes ∧ (r.eventId = anyEventId ∨ r.eventId = event.id)) ∧
      (l = [] → route = none → ∀ r ∈ routes, r.eventId ≠ anyEventId ∧ r.eventId ≠ event.id) ∧
      ((∀ r ∈ routes, r.eventId ≠ anyEventId ∧ r.eventId ≠ event.id) → l = []) := by
  induction routes generalizing log with
  | nil => exact ⟨none, [], fun _ => by rw [append_nil]; rfl, nofun, fun _ _ => nofun, fun _ => rfl⟩
  | cons route routes ih =>
    by_cases hother : route.eventId ≠ anyEventId ∧ route.eventId ≠ event.id
    · obtain ⟨found, l, heval, hfound, hnone, hquiet⟩ := ih log
      refine ⟨found, l, fun cells => ?_, fun r hr => ?_, fun hl hf r hr => ?_, fun hall => ?_⟩
      · rw [findRoute, if_pos hother]
        exact heval cells
      · exact ⟨mem_cons_of_mem _ (hfound r hr).1, (hfound r hr).2⟩
      · rcases mem_cons.mp hr with rfl | hr
        · exact hother
        · exact hnone hl hf r hr
      · exact hquiet fun r hr => hall r (mem_cons_of_mem _ hr)
    · have hmatch : route.eventId = anyEventId ∨ route.eventId = event.id := by
        by_contra hne
        exact hother (not_or.mp hne)
      have hnotAll : ¬∀ r ∈ route :: routes, r.eventId ≠ anyEventId ∧ r.eventId ≠ event.id :=
        fun hall => hother (hall route mem_cons_self)
      cases hguard : route.guard with
      | false =>
        refine ⟨some route, [], fun cells => ?_, fun r hr => ?_, nofun, fun hall => rfl⟩
        · rw [findRoute, if_neg hother, hguard, append_nil]
          rfl
        · cases hr
          exact ⟨mem_cons_self, hmatch⟩
      | true =>
        obtain ⟨found, l, heval, hfound, -⟩ := ih (log ++ [.guard m route event])
        by_cases hpassed : answer (log ++ [.guard m route event]) = 0
        · refine ⟨found, .guard m route event :: l, fun cells => ?_, fun r hr => ?_, nofun,
            fun hall => absurd hall hnotAll⟩
          · rw [findRoute, if_neg hother, if_pos hguard]
            show Lib.Prog.eval answer (if answer (log ++ [.guard m route event]) = 0 then _ else _)
              cells (log ++ [.guard m route event]) = _
            rw [if_pos hpassed, heval cells, append_assoc]
            rfl
          · exact ⟨mem_cons_of_mem _ (hfound r hr).1, (hfound r hr).2⟩
        · refine ⟨some route, [.guard m route event], fun cells => ?_, fun r hr => ?_, nofun,
            fun hall => absurd hall hnotAll⟩
          · rw [findRoute, if_neg hother, if_pos hguard]
            show Lib.Prog.eval answer (if answer (log ++ [.guard m route event]) = 0 then _ else _)
              cells (log ++ [.guard m route event]) = _
            rw [if_neg hpassed]
            rfl
          · cases hr
            exact ⟨mem_cons_self, hmatch⟩

theorem eval_selectRoute (H : Hierarchy) (answer : List Callback → Int) (event : Event)
    (log : List Callback) (hcurr : (cells m).currState = some state) :
    ∃ route l, (H.selectRoute m event).eval answer cells log = some (route, cells, log ++ l) ∧
      (∀ r, route = some r → r ∈ (H.stateAt m state).routes) ∧ (l = [] → route = none →
        ∀ r ∈ (H.stateAt m state).routes, r.eventId ≠ anyEventId ∧ r.eventId ≠ event.id) ∧
      ((∀ r ∈ (H.stateAt m state).routes, r.eventId ≠ anyEventId ∧ r.eventId ≠ event.id) →
        l = [] ∧ route = none) := by
  obtain ⟨route, l, heval, hfound, hnone, hquiet⟩ := eval_findRoute answer m event log (H.stateAt m state).routes
  refine ⟨route, l, eval_raised hcurr heval, fun r hr => (hfound r hr).1, hnone, fun hall => ?_⟩
  refine ⟨hquiet hall, ?_⟩
  by_contra hsome
  obtain ⟨r, hr⟩ := Option.ne_none_iff_exists'.mp hsome
  obtain ⟨hmem, hmatch⟩ := hfound r hr
  exact hmatch.elim (hall r hmem).1 (hall r hmem).2

theorem eval_changeState_ne {startSub : MachineId → Prog Bool} {runSub : MachineId → Event → Prog Bool}
    (hcurr : (cells m).currState = some state) {next : StateID}
    (hknown : H.knownState m next ≠ none) (route : Option Route) (r : Bool) :
    (H.changeState startSub runSub m event next route).eval answer cells log ≠ some (r, cells', log) := by
  obtain ⟨known, hknown⟩ := Option.ne_none_iff_exists'.mp hknown
  intro heval
  rw [changeState, hknown] at heval
  -- the cells at the exit action, and the part of `changeState` behind it
  have hcell : (raised (update cells m { cells m with nextState := some known }) m m).currState
      = some state := by
    rw [raised, update_self, update_self]
    exact hcurr
  have hexit : (H.currState m >>= fun curr => callback (.exit m curr.id event) >>= _).eval answer
      (raised (update cells m { cells m with nextState := some known }) m) log
      = some (r, cells', log) := heval
  rw [eval_currState hcell] at hexit
  have hlogged : log ++ [.exit m (H.stateAt m state).id event] <+: log := Lib.Prog.prefix_of_eval hexit
  exact absurd hlogged.length_le (by simp)

theorem knownState_of_route {route : Route} (hroute : route ∈ (H.stateAt m state).routes) :
    H.knownState m route.nextStateId ≠ none := by
  cases hfind : (H.machine m).findState state with
  | none =>
    rw [stateAt, hfind] at hroute
    cases hroute
  | some found =>
    rw [stateAt, hfind] at hroute
    have hmem : found ∈ (H.machine m).states := by
      rw [Machine.findState] at hfind
      split at hfind
      · exact List.mem_of_find?_eq_some hfind
      · cases hfind
    rw [knownState, if_pos ((H.built m).routesKnown found hmem route hroute)]
    simp

/-- **A state has nothing to do for an event** if and only if it has nothing for it. -/
theorem eval_runOwn_iff (hcurr : (cells m).currState = some state) :
    (H.runOwn m event).eval answer cells log = some (false, cells, log) ↔ Idle (H.stateAt m state) event := by
  obtain ⟨v, l, hhandler, hcases⟩ := eval_handleEvent H answer event log hcurr
  rw [runOwn, runCurrent, Lib.Prog.eval_bind, hhandler, Option.bind_some]
  have hnothing : ∀ k : List Callback, log ++ k <+: log → k = [] := fun k hk => by
    have hlength := hk.length_le
    rw [length_append] at hlength
    exact length_eq_zero_iff.mp (by omega)
  rcases hcases with ⟨hevents, hdefault, rfl, rfl⟩ | ⟨hhandled, hcalled⟩
  · obtain ⟨route, l', hroute, hmem, hnone, hidle⟩ := eval_selectRoute H answer event log hcurr
    rw [append_nil, if_pos rfl, Lib.Prog.eval_bind, hroute]
    constructor
    · intro heval
      have hquiet : l' = [] := hnothing l' (Lib.Prog.prefix_of_eval heval)
      cases route with
      | none => exact ⟨hevents, hdefault, hnone hquiet rfl⟩
      | some route =>
        rw [hquiet, append_nil] at heval
        exact absurd heval (eval_changeState_ne hcurr (knownState_of_route (hmem route rfl)) _ _)
    · rintro ⟨-, -, hroutes⟩
      obtain ⟨rfl, rfl⟩ := hidle hroutes
      rw [append_nil]
      rfl
  · refine iff_of_false (fun heval => hcalled ?_) fun hidle => ?_
    · exact hnothing l (Lib.Prog.prefix_of_eval heval)
    · rcases hhandled with hevent | hdefault
      · exact hidle.1 hevent
      · exact absurd (hdefault.symm.trans hidle.2.1) (by simp)

theorem Handed.eval_run_of_stopped (h : H.Handed m state sub cells) (hstopped : (cells sub).isRunning = false) :
    (H.run (m + 1) m event).eval answer cells log =
      if (cells sub).isTerminated then (H.runOwn m event).eval answer cells log else some (false, cells, log) := by
  have hpos : 0 < m := Nat.lt_of_le_of_lt (Nat.zero_le sub) (lt_of_subSm h.sub)
  rw [h.eval_run (eval_run_stopped hpos hstopped), Lib.Prog.eval_bind, eval_stop_stopped hstopped]
  rfl

/-- **Control is handed back** if and only if the current state has nothing for an event that comes
when its sub machine is neither running nor terminated. -/
theorem handsBack_iff (H : Hierarchy) (answer : List Callback → Int) (m : MachineId) (event : Event)
    (cells : MachineId → Status) (log : List Callback) :
    H.HandsBack answer m event cells log ↔ H.Uncontested m event cells := by
  constructor
  · intro hhands state sub hhanded hstopped hnot
    have hearlier := hhands.earlier state sub hhanded hstopped
    rw [hhanded.eval_run_of_stopped hstopped, if_neg hnot] at hearlier
    exact (eval_runOwn_iff hhanded.curr).mp hearlier.symm
  · intro hfree
    refine ⟨fun state sub hhanded hstopped => ?_, fun state sub hhanded _ ret cells' log' hret hended => ?_⟩
    · rw [hhanded.eval_run_of_stopped hstopped]
      split
      · rfl
      · rename_i hnot
        exact ((eval_runOwn_iff hhanded.curr).mpr (hfree state sub hhanded hstopped hnot)).symm
    · rw [hhanded.eval_run hret, if_pos hended]

end Eval

/-- The sub machine has ended on event 2, for which the parent has no route; event 3, for which it has
one, comes after. -/
theorem ended_sub_keeps_control :
    ∃ r cells log, (handover.perform ⟨1, .start⟩ >>= fun _ =>
        handover.perform ⟨1, .run { id := 2 }⟩).eval (fun _ => 0) (fun _ => {}) []
        = some (r, cells, log) ∧
      ¬handover.HandsBack (fun _ => 0) 1 { id := 3 } cells log := by
  refine ⟨_, _, _, rfl, fun hhands => ?_⟩
  have hsame := hhands.earlier 1 0 ⟨by decide, by decide, by decide, by decide⟩ (by decide)
  have hresult := congrArg (fun r => r.map (·.1)) hsame
  exact absurd hresult (by decide)

end Hierarchy

end Tbox.Flow
