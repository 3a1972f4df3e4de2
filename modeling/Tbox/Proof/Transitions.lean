import Tbox.Proof.HandBack

/-!
# What a state machine does on an event

An event is given to the function of the current state. By its declaration any negative answer means no change; the
machine goes on to its routes on `-1` only.
-/

open List Option

namespace Tbox.Flow

abbrev Trace := List (Callback × Int)

def Route.IsFor (route : Route) (event : Event) : Prop :=
  route.eventId = anyEventId ∨ route.eventId = event.id

instance (route : Route) (event : Event) : Decidable (route.IsFor event) :=
  inferInstanceAs (Decidable (_ ∨ _))

namespace Hierarchy

variable (H : Hierarchy)

/-- A callback may do to the other machines what it likes: this one is not changed by it. -/
def Leaves (m : MachineId) (cells cells' : MachineId → Status) : Prop := cells' m = cells m

def handler (m : MachineId) (event : Event) (curr : State) : Option Callback :=
  if event.id ∈ curr.events then some (.event m curr.id event)
  else if curr.defaultEvent then some (.defaultEvent m curr.id event)
  else none

/-- The first of the routes for the event that is open, with what the guards answer on the way to it. -/
inductive Opens (m : MachineId) (event : Event) : List Route → Trace → Option Route → Prop where
  | none : Opens m event [] [] none
  | other {route : Route} {routes : List Route} {trace : Trace} {found : Option Route}
      (hother : ¬route.IsFor event) (hopens : Opens m event routes trace found) :
      Opens m event (route :: routes) trace found
  | shut {route : Route} {routes : List Route} {trace : Trace} {found : Option Route}
      (hfor : route.IsFor event) (hguard : route.guard = true) (hopens : Opens m event routes trace found) :
      Opens m event (route :: routes) ((.guard m route event, 0) :: trace) found
  | passed {route : Route} {routes : List Route} {v : Int} (hfor : route.IsFor event)
      (hguard : route.guard = true) (hv : v ≠ 0) :
      Opens m event (route :: routes) [(.guard m route event, v)] (some route)
  | unguarded {route : Route} {routes : List Route} (hfor : route.IsFor event) (hguard : route.guard = false) :
      Opens m event (route :: routes) [] (some route)

inductive Chooses (m : MachineId) (event : Event) (curr : State) : Trace → Option (StateID × Option Route) → Prop where
  | handled {c : Callback} {v : StateID} (hhandler : handler m event curr = some c) (hv : 0 ≤ v) :
      Chooses m event curr [(c, v)] (some (v, none))
  | declined {c : Callback} {v : StateID} {trace : Trace} {found : Option Route}
      (hhandler : handler m event curr = some c) (hv : v < 0) (hopens : Opens m event curr.routes trace found) :
      Chooses m event curr ((c, v) :: trace) (found.map fun route => (route.nextStateId, some route))
  | unhandled {trace : Trace} {found : Option Route} (hhandler : handler m event curr = none)
      (hopens : Opens m event curr.routes trace found) :
      Chooses m event curr trace (found.map fun route => (route.nextStateId, some route))

def transition (m : MachineId) (event : Event) (old next : StateID) (route : Option Route) : List Callback :=
  .exit m old event :: (route.toList.map fun route => .action m route event) ++
    [.enter m next event, .stateChanged m old next event]

/-- What a call of `run` is to come to: `curr` is the state the machine is in and `s` its status before. -/
inductive Meets (m : MachineId) (event : Event) (curr : State) (s : Status) (trace : Trace) :
    Bool → Status → Prop where
  | stays {s' : Status} (hchooses : Chooses m event curr trace none) (hrunning : s'.isRunning = s.isRunning)
      (hlast : s'.lastState = s.lastState) (hcurr : s'.currState = s.currState) (hlevel : s'.cbLevel = s.cbLevel) :
      Meets m event curr s trace false s'
  | moves {before after below : Trace} {next : StateID} {route : Option Route} {s' : Status}
      (hchooses : Chooses m event curr before (some (next, route))) (htrace : trace = before ++ after ++ below)
      (hafter : after.map Prod.fst = transition m event curr.id next route)
      (hbelow : ∀ c ∈ below, c.1.machine < m) (hnone : (H.stateAt m next).subSm = none → below = [])
      (hrunning : s'.isRunning = s.isRunning) (hlast : s'.lastState = s.currState)
      (hcurr : s'.currState = some next) (hlevel : s'.cbLevel = s.cbLevel) :
      Meets m event curr s trace true s'

/-- What a handler may answer: `-1`, a state there is, or where the state has no route for the event any
negative number that is no state. -/
def Heeded (m : MachineId) (event : Event) (curr : State) (v : StateID) : Prop :=
  v = nullStateId ∨ (0 ≤ v ∧ H.knownState m v ≠ none) ∨
    (v < 0 ∧ H.knownState m v = none ∧ ∀ route ∈ curr.routes, ¬route.IsFor event)

def Heeds (m : MachineId) (event : Event) (curr : State) (trace : Trace) : Prop :=
  ∀ c v, handler m event curr = some c → trace.head? = some (c, v) → H.Heeded m event curr v

def Yields (m : MachineId) (s : Status) {α : Type} (p : Prog α) (Q : Trace → α → Status → Prop) : Prop :=
  ∀ cells trace a cells', cells m = s → p.Ends (Leaves m) cells trace a cells' → Q trace a (cells' m)

variable {H} {m : MachineId} {event : Event} {s : Status} {state : StateID} {α β : Type}
  {Q : Trace → α → Status → Prop}

section Rules

theorem Yields.status {f : Status → Prog α} (h : Yields m s (f s) Q) : Yields m s (Hierarchy.status m >>= f) Q := by
  intro cells trace a cells' hcell hends
  have hrest : (f (cells m)).Ends (Leaves m) cells trace a cells' := hends
  rw [hcell] at hrest
  exact h cells trace a cells' hcell hrest

theorem Yields.modify {g : Status → Status} {f : Unit → Prog α} (h : Yields m (g s) (f ()) Q) :
    Yields m s (Hierarchy.modify m g >>= f) Q := by
  intro cells trace a cells' hcell hends
  have hrest : (f ()).Ends (Leaves m) (Function.update cells m (g (cells m))) trace a cells' := hends
  refine h _ trace a cells' ?_ hrest
  rw [Function.update_self, hcell]

theorem Yields.callback {c : Callback} {f : Int → Prog α}
    (h : ∀ v, Yields m s (f v) fun trace => Q ((c, v) :: trace)) : Yields m s (Hierarchy.callback c >>= f) Q := by
  intro cells trace a cells' hcell hends
  obtain ⟨v, mid, after, hleaves, hrest, rfl⟩ := hends
  exact h v mid after a cells' (hleaves.trans hcell) hrest

theorem Yields.pure {a : α} (h : Q [] a s) : Yields m s (Pure.pure a) Q := by
  intro cells trace b cells' hcell hends
  obtain ⟨rfl, rfl, rfl⟩ := hends
  rw [hcell]
  exact h

/-- **The rule of composition.** -/
theorem Yields.seq {R : Trace → α → Status → Prop} {p : Prog α} {f : α → Prog β} {Q : Trace → β → Status → Prop}
    (hp : Yields m s p R) (hf : ∀ trace a s', R trace a s' → Yields m s' (f a) fun trace' => Q (trace ++ trace')) :
    Yields m s (p >>= f) Q := by
  intro cells trace b cells' hcell hends
  obtain ⟨before, a, mid, after, hfirst, hrest, rfl⟩ := hends.of_bind
  exact hf before a _ (hp cells before a mid hcell hfirst) mid after b cells' rfl hrest

theorem Yields.bracket {p : Prog Bool} {call : Call} {Q : Trace → Bool → Status → Prop} (h : Yields m s p Q) :
    Yields m s (Lib.Prog.bracket call p) Q :=
  fun cells trace a cells' hcell hends => h cells trace a cells' hcell hends.of_bracket

theorem Yields.mono {p : Prog α} {R : Trace → α → Status → Prop} (h : Yields m s p R)
    (hpost : ∀ trace a s', R trace a s' → Q trace a s') : Yields m s p Q :=
  fun cells trace a cells' hcell hends => hpost _ _ _ (h cells trace a cells' hcell hends)

theorem Yields.currState (hcurr : s.currState = some state) {f : State → Prog α}
    (h : Yields m s (f (H.stateAt m state)) Q) : Yields m s (H.currState m >>= f) Q := by
  rw [currState_bind]
  refine Yields.status ?_
  rw [hcurr]
  exact h

theorem Yields.currSub {sub : MachineId} (hcurr : s.currState = some state)
    (hsub : (H.stateAt m state).subSm = some sub) {f : MachineId → Prog α} (h : Yields m s (f sub) Q) :
    Yields m s (H.currSub m >>= f) Q := by
  rw [currSub_bind]
  refine Yields.status ?_
  rw [hcurr, elim_some, hsub]
  exact h

theorem Yields.of_below {p : Prog α} (hp : p.Confined (· < m) fun c => c.machine < m) :
    Yields m s p fun trace _ s' => s' = s ∧ ∀ c ∈ trace, c.1.machine < m := by
  intro cells trace a cells' hcell hends
  obtain ⟨hcalls, hcells⟩ := hp.ends hends
  refine ⟨?_, hcalls⟩
  rw [hcells m (Nat.lt_irrefl m) fun _ _ hleaves => hleaves]
  exact hcell

end Rules

theorem callHandler_eq (curr : State) : callHandler m event curr =
    match handler m event curr with
    | some c => callback c
    | none => return nullStateId := by
  rw [callHandler, handler]
  split
  · rfl
  · split <;> rfl

section Opens

variable {routes : List Route} {trace : Trace} {found : Option Route}

theorem Opens.mem {route : Route} (h : Opens m event routes trace (some route)) : route ∈ routes := by
  generalize hfound : some route = found at h
  induction h with
  | none => cases hfound
  | other _ _ ih => exact mem_cons_of_mem _ (ih hfound)
  | shut _ _ _ ih => exact mem_cons_of_mem _ (ih hfound)
  | passed =>
    cases hfound
    exact mem_cons_self
  | unguarded =>
    cases hfound
    exact mem_cons_self

theorem Opens.isGuard (h : Opens m event routes trace found) : ∀ c ∈ trace, ∃ route, c.1 = .guard m route event := by
  induction h with
  | none => exact fun c hc => absurd hc not_mem_nil
  | other _ _ ih => exact ih
  | shut _ _ _ ih => exact forall_mem_cons.mpr ⟨⟨_, rfl⟩, ih⟩
  | passed => exact forall_mem_singleton.mpr ⟨_, rfl⟩
  | unguarded => exact fun c hc => absurd hc not_mem_nil

theorem opens_nil_none_iff : Opens m event routes [] none ↔ ∀ route ∈ routes, ¬route.IsFor event := by
  constructor
  · intro h
    generalize htrace : ([] : Trace) = trace at h
    generalize hfound : (none : Option Route) = found at h
    induction h with
    | none => exact fun route hroute => absurd hroute not_mem_nil
    | other hother _ ih => exact forall_mem_cons.mpr ⟨hother, ih htrace hfound⟩
    | shut => cases htrace
    | passed => cases htrace
    | unguarded => cases hfound
  · intro h
    induction routes with
    | nil => exact .none
    | cons route routes ih =>
      obtain ⟨hother, hothers⟩ := forall_mem_cons.mp h
      exact .other hother (ih hothers)

end Opens

inductive Handled (m : MachineId) (event : Event) (curr : State) : Trace → StateID → Prop where
  | handled {c : Callback} {v : StateID} (hhandler : handler m event curr = some c) :
      Handled m event curr [(c, v)] v
  | unhandled (hhandler : handler m event curr = none) : Handled m event curr [] nullStateId

theorem Yields.raised (hcurr : s.currState = some state) {p : State → Prog α} {R : Trace → α → Prop}
    (hp : ∀ s', Yields m s' (p (H.stateAt m state)) fun trace a s'' => s'' = s' ∧ R trace a) :
    Yields m s (do raise m; let a ← p (← H.currState m); lower m; return a) fun trace a s' => s' = s ∧ R trace a := by
  refine Yields.modify ?_
  refine Yields.currState (by exact hcurr) ((hp _).seq ?_)
  rintro trace a s' ⟨rfl, hR⟩
  refine Yields.modify (Yields.pure ⟨?_, ?_⟩)
  · rw [Int.add_sub_cancel]
  · rw [append_nil]
    exact hR

theorem handleEvent_yields (hcurr : s.currState = some state) :
    Yields m s (H.handleEvent m event) fun trace v s' => s' = s ∧ Handled m event (H.stateAt m state) trace v := by
  refine Yields.raised hcurr fun s' => ?_
  rw [callHandler_eq]
  cases hhandler : handler m event (H.stateAt m state) with
  | none => exact Yields.pure ⟨rfl, .unhandled hhandler⟩
  | some c => exact Yields.callback (f := Pure.pure) fun v => Yields.pure ⟨rfl, .handled hhandler⟩

theorem findRoute_yields (routes : List Route) :
    Yields m s (findRoute m event routes) fun trace route s' => s' = s ∧ Opens m event routes trace route := by
  induction routes with
  | nil => exact Yields.pure ⟨rfl, .none⟩
  | cons route routes ih =>
    by_cases hfor : route.IsFor event
    · have hnot : ¬(route.eventId ≠ anyEventId ∧ route.eventId ≠ event.id) := fun hne =>
        hfor.elim hne.1 hne.2
      rw [findRoute, if_neg hnot]
      cases hguard : route.guard with
      | false => exact Yields.pure ⟨rfl, .unguarded hfor hguard⟩
      | true =>
        refine Yields.callback fun v => ?_
        by_cases hv : v = 0
        · rw [if_pos hv]
          refine ih.mono ?_
          rintro trace found s' ⟨hs, hopens⟩
          rw [hv]
          exact ⟨hs, .shut hfor hguard hopens⟩
        · rw [if_neg hv]
          exact Yields.pure ⟨rfl, .passed hfor hguard hv⟩
    · rw [findRoute, if_pos (not_or.mp hfor)]
      refine ih.mono ?_
      rintro trace found s' ⟨hs, hopens⟩
      exact ⟨hs, .other hfor hopens⟩

theorem selectRoute_yields (hcurr : s.currState = some state) :
    Yields m s (H.selectRoute m event) fun trace route s' =>
      s' = s ∧ Opens m event (H.stateAt m state).routes trace route :=
  Yields.raised hcurr fun _ => findRoute_yields _

theorem takeRoute_yields (route : Option Route) : Yields m s (takeRoute m event route) fun trace _ s' =>
    s' = s ∧ trace.map Prod.fst = route.toList.map fun route => .action m route event := by
  cases route with
  | none => exact Yields.pure ⟨rfl, rfl⟩
  | some route => exact Yields.callback fun v => Yields.pure ⟨rfl, rfl⟩

theorem notifyChanged_yields {last : StateID} (hlast : s.lastState = some last)
    (hcurr : s.currState = some state) : Yields m s (H.notifyChanged m event) fun trace _ s' =>
      s' = s ∧ trace.map Prod.fst = [.stateChanged m (H.stateAt m last).id (H.stateAt m state).id event] := by
  refine Yields.status ?_
  rw [hlast]
  exact Yields.currState hcurr (Yields.callback fun v => Yields.pure ⟨rfl, rfl⟩)

theorem enterSub_yields (hcurr : s.currState = some state) :
    Yields m s (H.enterSub (H.start m) (H.run m) m event) fun trace _ s' =>
      s' = s ∧ (∀ c ∈ trace, c.1.machine < m) ∧ ((H.stateAt m state).subSm = none → trace = []) := by
  refine Yields.currState hcurr ?_
  cases hsub : (H.stateAt m state).subSm with
  | none => exact Yields.pure ⟨rfl, fun c hc => absurd hc not_mem_nil, fun _ => rfl⟩
  | some sub =>
    have hlt := lt_of_subSm hsub
    have hlower : ∀ x ≤ sub, x < m := fun x hx => Nat.lt_of_le_of_lt hx hlt
    refine Yields.currSub hcurr hsub ((Yields.of_below (start_confined m hlower fun c => hlower _)).seq ?_)
    rintro started result _ ⟨rfl, hstarted⟩
    refine Yields.currSub hcurr hsub ((Yields.of_below (run_confined m hlower (fun c => hlower _) event)).seq ?_)
    rintro ran result _ ⟨rfl, hran⟩
    refine Yields.pure ⟨rfl, fun c hc => ?_, nofun⟩
    rw [append_nil] at hc
    exact (mem_append.mp hc).elim (hstarted c) (hran c)

variable {next : StateID}

theorem changeState_yields_unknown {startSub : MachineId → Prog Bool} {runSub : MachineId → Event → Prog Bool} (hnext : H.knownState m next = none) (route : Option Route) :
    Yields m s (H.changeState startSub runSub m event next route) fun trace result s' =>
      trace = [] ∧ result = false ∧ s' = { s with nextState := none } := by
  rw [changeState, hnext]
  exact Yields.modify (Yields.pure ⟨rfl, rfl, rfl⟩)

theorem changeState_yields_known (hcurr : s.currState = some state)
    (hnext : H.knownState m next = some next) (route : Option Route) :
    Yields m s (H.changeState (H.start m) (H.run m) m event next route) fun trace result s' =>
      result = true ∧ s' = { s with lastState := s.currState, currState := some next, nextState := none } ∧
        ∃ after below, trace = after ++ below ∧
          after.map Prod.fst = transition m event (H.stateAt m state).id next route ∧
          (∀ c ∈ below, c.1.machine < m) ∧ ((H.stateAt m next).subSm = none → below = []) := by
  have hid : (H.stateAt m next).id = next := named_of_known hnext
  rw [changeState, hnext]
  refine Yields.modify (Yields.modify ?_)
  refine Yields.currState (by exact hcurr) (Yields.callback fun exited => Yields.modify ?_)
  refine (takeRoute_yields route).seq ?_
  rintro taken - _ ⟨rfl, htaken⟩
  refine Yields.modify ?_
  refine Yields.currState (show _ = some next from rfl) (Yields.callback fun entered => ?_)
  refine (notifyChanged_yields (by exact hcurr) (by rfl)).seq ?_
  rintro notified - _ ⟨rfl, hnotified⟩
  refine (enterSub_yields (by rfl)).seq ?_
  rintro below - _ ⟨rfl, hbelow, hnone⟩
  refine Yields.modify (Yields.pure ⟨rfl, ?_, ?_⟩)
  · rw [Int.add_sub_cancel]
  rw [hid] at hnotified ⊢
  refine ⟨(.exit m (H.stateAt m state).id event, exited) :: taken ++
    (.enter m next event, entered) :: notified, below, ?_, ?_, hbelow, hnone⟩
  · simp only [append_nil, append_assoc, cons_append]
  · rw [map_append, map_cons, map_cons, htaken, hnotified]
    rfl

structure Moved (H : Hierarchy) (m : MachineId) (event : Event) (curr : State) (s : Status) (next : StateID)
    (route : Option Route) (trace : Trace) (s' : Status) : Prop where
  status : s' = { s with lastState := s.currState, currState := some next, nextState := none }
  parts : ∃ after below, trace = after ++ below ∧ after.map Prod.fst = transition m event curr.id next route ∧
    (∀ c ∈ below, c.1.machine < m) ∧ ((H.stateAt m next).subSm = none → below = [])

/-- What a call of `run` comes to. -/
inductive Ran (H : Hierarchy) (m : MachineId) (event : Event) (curr : State) (s : Status) :
    Trace → Bool → Status → Prop where
  | idle {handled guards : Trace} (hhandled : Handled m event curr handled nullStateId)
      (hopens : Opens m event curr.routes guards none) : Ran H m event curr s (handled ++ guards) false s
  | routed {handled guards moved : Trace} {route : Route} {s' : Status}
      (hhandled : Handled m event curr handled nullStateId)
      (hopens : Opens m event curr.routes guards (some route))
      (hmoved : Moved H m event curr s route.nextStateId (some route) moved s') :
      Ran H m event curr s (handled ++ guards ++ moved) true s'
  | lost {handled : Trace} {v : StateID} (hhandled : Handled m event curr handled v) (hne : v ≠ nullStateId)
      (hunknown : H.knownState m v = none) : Ran H m event curr s handled false { s with nextState := none }
  | sent {handled moved : Trace} {v : StateID} {s' : Status} (hhandled : Handled m event curr handled v)
      (hne : v ≠ nullStateId) (hknown : H.knownState m v ≠ none)
      (hmoved : Moved H m event curr s v none moved s') : Ran H m event curr s (handled ++ moved) true s'

theorem knownState_eq {v : StateID} (h : H.knownState m v ≠ none) : H.knownState m v = some v := by
  rw [knownState] at h ⊢
  split at h
  · rename_i hknown
    exact if_pos hknown
  · exact absurd rfl h

theorem changeState_yields (hcurr : s.currState = some state)
    (hknown : H.knownState m next ≠ none) (route : Option Route) :
    Yields m s (H.changeState (H.start m) (H.run m) m event next route) fun trace result s' =>
      result = true ∧ Moved H m event (H.stateAt m state) s next route trace s' := by
  refine (changeState_yields_known hcurr (knownState_eq hknown) route).mono ?_
  rintro trace result s' ⟨hresult, hstatus, hparts⟩
  exact ⟨hresult, hstatus, hparts⟩

theorem runOwn_yields (hcurr : s.currState = some state) :
    Yields m s (H.runOwn m event) (Ran H m event (H.stateAt m state) s) := by
  refine (handleEvent_yields hcurr).seq ?_
  rintro handled v _ ⟨rfl, hhandled⟩
  by_cases hv : v = nullStateId
  · rw [if_pos hv]
    rw [hv] at hhandled
    refine (selectRoute_yields hcurr).seq ?_
    rintro guards found _ ⟨rfl, hopens⟩
    cases found with
    | none =>
      refine Yields.pure ?_
      rw [append_nil]
      exact .idle hhandled hopens
    | some route =>
      have hknown := knownState_of_route hopens.mem
      refine (changeState_yields hcurr hknown (some route)).mono ?_
      rintro moved _ s' ⟨rfl, hmoved⟩
      rw [← append_assoc]
      exact .routed hhandled hopens hmoved
  · rw [if_neg hv]
    cases hknown : H.knownState m v with
    | none =>
      refine (changeState_yields_unknown hknown none).mono ?_
      rintro _ _ _ ⟨rfl, rfl, rfl⟩
      rw [append_nil]
      exact .lost hhandled hv hknown
    | some next =>
      have hne : H.knownState m v ≠ none := by
        rw [hknown]
        nofun
      refine (changeState_yields hcurr hne none).mono ?_
      rintro moved _ s' ⟨rfl, hmoved⟩
      exact .sent hhandled hv hne hmoved

theorem run_yields (hrunning : s.isRunning = true) (hlevel : s.cbLevel = 0) (hcurr : s.currState = some state)
    (hsub : (H.stateAt m state).subSm = none) :
    Yields m s (H.run (m + 1) m event) (Ran H m event (H.stateAt m state) s) := by
  rw [Hierarchy.run]
  refine Yields.bracket (Yields.status ?_)
  rw [hrunning, if_neg (by simp), if_neg (not_not.mpr hlevel)]
  refine Yields.currState hcurr ?_
  rw [hsub]
  exact runOwn_yields hcurr

section Meets

variable {curr : State} {trace : Trace} {result : Bool} {s' : Status}

theorem Handled.chooses {handled guards : Trace} {found : Option Route}
    (hhandled : Handled m event curr handled nullStateId) (hopens : Opens m event curr.routes guards found) :
    Chooses m event curr (handled ++ guards) (found.map fun route => (route.nextStateId, some route)) := by
  generalize hv : nullStateId = v at hhandled
  cases hhandled with
  | handled hhandler => exact .declined hhandler (by rw [← hv]; decide) hopens
  | unhandled hhandler => exact .unhandled hhandler hopens

theorem Moved.meets {before moved : Trace} {route : Option Route}
    (hmoved : Moved H m event curr s next route moved s')
    (hchooses : Chooses m event curr before (some (next, route))) :
    H.Meets m event curr s (before ++ moved) true s' := by
  obtain ⟨rfl, after, below, rfl, hafter, hbelow, hnone⟩ := hmoved
  exact .moves hchooses (append_assoc ..).symm hafter hbelow hnone rfl rfl rfl rfl

theorem Handled.heeds_null {handled after : Trace} (hhandled : Handled m event curr handled nullStateId) :
    H.Heeds m event curr (handled ++ after) := by
  generalize hv : nullStateId = v at hhandled
  intro c v' hhandler hhead
  cases hhandled with
  | handled => cases some.inj hhead; exact .inl hv.symm
  | unhandled hnone => exact absurd (hnone.symm.trans hhandler) nofun

theorem heeds_cons_iff {c : Callback} {v : StateID} (hhandler : handler m event curr = some c) :
    H.Heeds m event curr ((c, v) :: trace) ↔ H.Heeded m event curr v := by
  constructor
  · intro hheeds
    exact hheeds c v hhandler rfl
  · intro hheeded c' v' _ hhead
    cases hhead
    exact hheeded

theorem Moved.not_chooses {c : Callback} {v : StateID} {moved before after below : Trace} {next next' : StateID}
    {route : Option Route} (hmoved : Moved H m event curr s next none moved s')
    (hchooses : Chooses m event curr before (some (next', route))) (hhandler : handler m event curr = some c)
    (hv : v < 0) (htrace : (c, v) :: moved = before ++ after ++ below)
    (hafter : after.map Prod.fst = transition m event curr.id next' route) : False := by
  obtain ⟨-, after', below', rfl, hafter', -, -⟩ := hmoved
  generalize hasked : some (next', route) = asked at hchooses
  cases hchooses with
  | handled hhandler' hv' =>
    obtain ⟨heq, -⟩ := List.cons.inj htrace
    cases heq
    exact absurd hv' (Int.not_le.mpr hv)
  | unhandled hnone => exact absurd (hnone.symm.trans hhandler) nofun
  | @declined c' v' guards found hhandler' hv' hopens =>
    obtain ⟨-, htail⟩ := List.cons.inj htrace
    obtain ⟨taken, rfl⟩ : ∃ taken, found = some taken := by
      cases found with
      | none => cases hasked
      | some taken => exact ⟨taken, rfl⟩
    have hroute : route = some taken := (Prod.mk.inj (some.inj hasked)).2
    have hnames : (after' ++ below').map Prod.fst = (guards ++ after ++ below).map Prod.fst :=
      congrArg (List.map Prod.fst) htail
    rw [map_append, map_append, map_append, hafter', hafter, hroute] at hnames
    cases guards with
    | nil =>
      -- behind the exit action one goes on with the enter action, the other with that of the route
      have hsecond := congrArg (fun names : List Callback => names[1]?) hnames
      cases hsecond
    | cons asked guards =>
      obtain ⟨guarded, hguard⟩ := hopens.isGuard asked mem_cons_self
      have hfirst := congrArg List.head? hnames
      rw [map_cons, hguard] at hfirst
      cases hfirst

theorem Ran.meets_iff (h : Ran H m event curr s trace result s') :
    H.Meets m event curr s trace result s' ↔ H.Heeds m event curr trace := by
  cases h with
  | idle hhandled hopens =>
    refine iff_of_true ?_ hhandled.heeds_null
    exact .stays (hhandled.chooses hopens) rfl rfl rfl rfl
  | routed hhandled hopens hmoved =>
    refine iff_of_true (hmoved.meets (hhandled.chooses hopens)) ?_
    rw [append_assoc]
    exact hhandled.heeds_null
  | @lost _ v hhandled hne hunknown =>
    cases hhandled with
    | unhandled => exact absurd rfl hne
    | handled hhandler =>
      rw [heeds_cons_iff hhandler]
      constructor
      · rintro (⟨hchooses, -, -, -, -⟩)
        generalize hasked : (none : Option (StateID × Option Route)) = asked at hchooses
        generalize htrace : [_] = trace at hchooses
        cases hchooses with
        | handled => cases hasked
        | unhandled hnone => exact absurd (hnone.symm.trans hhandler) nofun
        | declined hhandler' hv hopens =>
          cases htrace
          refine .inr (.inr ⟨hv, hunknown, ?_⟩)
          rw [map_eq_none_iff.mp hasked.symm] at hopens
          exact opens_nil_none_iff.mp hopens
      · rintro (hnull | ⟨-, hknown⟩ | ⟨hv, -, hroutes⟩)
        · exact absurd hnull hne
        · exact absurd hunknown hknown
        · exact .stays (.declined hhandler hv (opens_nil_none_iff.mpr hroutes)) rfl rfl rfl rfl
  | @sent _ moved v _ hhandled hne hknown hmoved =>
    cases hhandled with
    | unhandled => exact absurd rfl hne
    | handled hhandler =>
      rw [singleton_append, heeds_cons_iff hhandler]
      constructor
      · intro hmeets
        by_cases hv : 0 ≤ v
        · exact .inr (.inl ⟨hv, hknown⟩)
        · cases hmeets with
          | moves hchooses htrace hafter =>
            exact (hmoved.not_chooses hchooses hhandler (Int.not_le.mp hv) htrace hafter).elim
      · rintro (hnull | ⟨hv, -⟩ | ⟨-, hunknown, -⟩)
        · exact absurd hnull hne
        · exact hmoved.meets (.handled hhandler hv)
        · exact absurd hunknown hknown

end Meets

/-- **What an event comes to.** Outside a callback and with no sub machine, `run` goes by the handlers, the routes and
the actions as declared if and only if the handler heeds what it may answer. -/
theorem run_meets_iff (H : Hierarchy) (m : MachineId) (event : Event) (cells : MachineId → Status) (state : StateID)
    (hrunning : (cells m).isRunning = true) (hlevel : (cells m).cbLevel = 0)
    (hcurr : (cells m).currState = some state) (hsub : (H.stateAt m state).subSm = none) :
    CallSafe (H.run (m + 1) m event) ∧
      ∀ trace result cells', (H.run (m + 1) m event).Ends (Leaves m) cells trace result cells' →
        (H.Meets m event (H.stateAt m state) (cells m) trace result (cells' m) ↔
          H.Heeds m event (H.stateAt m state) trace) := by
  refine ⟨run_callSafe (m + 1) m event (Nat.lt_succ_self m), fun trace result cells' hends => ?_⟩
  exact (run_yields hrunning hlevel hcurr hsub cells trace result cells' rfl hends).meets_iff

end Hierarchy

/-- State 1 has a function for event 5, and a route to state 2 for it. -/
def twoWays : Hierarchy where
  machine m := match m with
    | 0 => { initStateId := 1, states := [{ id := 1, routes := [⟨5, 2, false⟩], events := [5] }, { id := 2 }] }
    | _ + 1 => {}
  built m := match m with
    | 0 => .addEvent 1 5 (.addRoute 1 5 2 false (.newState 2 (.newState 1 .new rfl) rfl) rfl) rfl
    | _ + 1 => .new
  sub_lt m := match m with
    | 0 => by simp
    | _ + 1 => by simp

namespace Hierarchy

def inState (state : StateID) : MachineId → Status := fun _ => { isRunning := true, currState := some state }

theorem minusOne_meets : ∃ trace result cells',
    (twoWays.run 1 0 { id := 5 }).Ends (Leaves 0) (inState 1) trace result cells' ∧
      twoWays.Meets 0 { id := 5 } (twoWays.stateAt 0 1) (inState 1 0) trace result (cells' 0) := by
  have heval : (twoWays.run 1 0 { id := 5 }).eval (fun log => if log.length = 1 then -1 else 0) (inState 1) []
      = some (true, _, _) := rfl
  obtain ⟨trace, hends, hlog, hanswers⟩ := Lib.Prog.ends_of_eval (Leaves 0) (fun _ => rfl) heval
  refine ⟨trace, true, _, hends, ?_⟩
  refine ((run_meets_iff twoWays 0 { id := 5 } (inState 1) 1 rfl rfl rfl rfl).2 _ _ _ hends).mpr ?_
  intro c v _ hhead
  obtain ⟨after, hafter⟩ := List.head?_eq_some_iff.mp hhead
  exact .inl (hanswers [] c v after hafter)

/-- The answer is negative, and the event is lost, with a route for it. -/
theorem minusTwo_loses : ∃ trace result cells',
    (twoWays.run 1 0 { id := 5 }).Ends (Leaves 0) (inState 1) trace result cells' ∧
      ¬twoWays.Meets 0 { id := 5 } (twoWays.stateAt 0 1) (inState 1 0) trace result (cells' 0) := by
  have heval : (twoWays.run 1 0 { id := 5 }).eval (fun _ => -2) (inState 1) []
      = some (false, _, [.event 0 1 { id := 5 }]) := rfl
  obtain ⟨trace, hends, hlog, hanswers⟩ := Lib.Prog.ends_of_eval (Leaves 0) (fun _ => rfl) heval
  obtain ⟨⟨c, v⟩, after, rfl⟩ : ∃ first after, trace = first :: after := by
    cases trace with
    | nil => cases hlog
    | cons first after => exact ⟨first, after, rfl⟩
  have hc : .event 0 1 { id := 5 } = c := (List.cons.inj hlog).1
  have hv : v = -2 := hanswers [] c v after rfl
  have hran := run_yields rfl rfl rfl rfl _ _ _ _ rfl hends
  refine ⟨_, _, _, hends, fun hmeets => ?_⟩
  have hhandler : handler 0 { id := 5 } (twoWays.stateAt 0 1) = some c := congrArg some hc
  have hheeded := (heeds_cons_iff hhandler).mp (hran.meets_iff.mp hmeets)
  rw [hv] at hheeded
  rcases hheeded with hnull | ⟨hle, -⟩ | ⟨-, -, hroutes⟩
  · exact absurd hnull (by decide)
  · exact absurd hle (by decide)
  · exact hroutes ⟨5, 2, false⟩ (by decide) (.inr rfl)

end Hierarchy

end Tbox.Flow
