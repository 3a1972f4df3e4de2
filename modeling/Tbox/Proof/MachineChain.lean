import Tbox.Proof.Reentry

/-!
# Which machines of a hierarchy are running

With callbacks that call no machine the running machines are the top one, the sub machine of its current state, and so
on down. `stop` keeps that up only where the sub machine has been stopped before.
-/

open List Option

namespace Tbox.Flow

open Function (update_self update_of_ne update)

/-- One callback later, where the enter and exit actions have left the machine: `some none` outside
its states, and `none` from the first one on that does not fit. -/
def placeStep (m : MachineId) (place : Option (Option StateID)) : Callback → Option (Option StateID)
  | .enter m' state _ => if m' = m then (if place = some none then some (some state) else none) else place
  | .exit m' state _ => if m' = m then (if place = some (some state) then some none else none) else place
  | _ => place

def place (m : MachineId) (log : List Callback) : Option (Option StateID) :=
  log.foldl (placeStep m) (some none)

namespace Hierarchy

variable (H : Hierarchy)

/-- The running machines from `m` down are `m`, the sub machine attached to its current state, and so
on, and no others. -/
inductive Chain (cells : MachineId → Status) : MachineId → Prop where
  | idle {m : MachineId} (hidle : ∀ x ≤ m, (cells x).isRunning = false) : Chain cells m
  | alone {m : MachineId} (hrunning : (cells m).isRunning = true)
      (hbelow : ∀ x < m, (cells x).isRunning = false) : Chain cells m
  | link {m sub : MachineId} {state : StateID} (hrunning : (cells m).isRunning = true)
      (hcurr : (cells m).currState = some state) (hsub : (H.stateAt m state).subSm = some sub)
      (hbetween : ∀ x, sub < x → x < m → (cells x).isRunning = false) (hchain : Chain cells sub) :
      Chain cells m

def startActions : Nat → MachineId → List Callback
  | 0, _ => []
  | depth + 1, m =>
    match (H.machine m).findState (H.machine m).initStateId with
    | none => []
    | some initState =>
      .enter m initState.id {} ::
        match (H.stateAt m initState.id).subSm with
        | none => []
        | some sub => startActions depth sub

def StartsAfresh (r : FinishedCall) : Prop :=
  r.call.op = .start → r.result = true → r.callbacks = H.startActions (r.call.machine + 1) r.call.machine

/-- What a hierarchy driven through its top machine keeps to. -/
structure Orderly (top : MachineId) (w : World) : Prop where
  alternate : ∀ m, place m w.log ≠ none
  chained : H.Chain w.cells top
  above : ∀ m > top, (w.cells m).isRunning = false
  stopped : (w.cells top).isRunning = false → ∀ m, (w.cells m).isRunning = false
  afresh : ∀ r ∈ w.finished, H.StartsAfresh r

def StopsBare (w : World) (call : Call) : Prop :=
  call.op = .stop → (w.cells call.machine).isRunning = true →
    ∀ state ∈ (w.cells call.machine).currState, ∀ sub ∈ (H.stateAt call.machine state).subSm,
      (w.cells sub).isRunning = false

def passive (P : World → Prop) : Lib.Contract MachineId Status Callback Call where
  holds := P
  admits := H.StopsBare
  owed _ := True
  rely w w' := w' = w

def Named (m : MachineId) (s : Status) : Prop := ∀ id, s.currState = some id → (H.stateAt m id).id = id

structure Placed (w : World) (m : MachineId) : Prop where
  settled : (w.cells m).Settled
  place : place m w.log = some (w.cells m).currState
  named : H.Named m (w.cells m)

structure Ready (m : MachineId) (w : World) : Prop where
  chain : H.Chain w.cells m
  placed : ∀ x ≤ m, H.Placed w x
  afresh : ∀ r ∈ w.finished, H.StartsAfresh r

/-- What holds of the machines up to one at every moment of a call on it. -/
structure Below (m : MachineId) (w : World) : Prop where
  chain : H.Chain w.cells m
  alternate : ∀ x ≤ m, place x w.log ≠ none
  afresh : ∀ r ∈ w.finished, H.StartsAfresh r

/-- Nothing has happened to the machines above. -/
structure Agrees (m : MachineId) (w w' : World) : Prop where
  cells : ∀ x > m, w'.cells x = w.cells x
  place : ∀ x > m, place x w'.log = place x w.log

section Chains

variable {H} {cells cells' : MachineId → Status} {m sub : MachineId} {state : StateID}

theorem Chain.congr (h : H.Chain cells m) (hrunning : ∀ x ≤ m, (cells' x).isRunning = (cells x).isRunning)
    (hcurr : ∀ x ≤ m, (cells' x).currState = (cells x).currState) : H.Chain cells' m := by
  induction h with
  | idle hidle => exact .idle fun x hx => (hrunning x hx).trans (hidle x hx)
  | alone hruns hbelow =>
    exact .alone ((hrunning _ (Nat.le_refl _)).trans hruns) fun x hx =>
      (hrunning x (Nat.le_of_lt hx)).trans (hbelow x hx)
  | link hruns hstate hsub hbetween _ ih =>
    have hlt := lt_of_subSm hsub
    refine .link ((hrunning _ (Nat.le_refl _)).trans hruns) ((hcurr _ (Nat.le_refl _)).trans hstate)
      hsub (fun x hlow hhigh => (hrunning x (Nat.le_of_lt hhigh)).trans (hbetween x hlow hhigh)) ?_
    exact ih (fun x hx => hrunning x (hx.trans (Nat.le_of_lt hlt))) fun x hx => hcurr x (hx.trans (Nat.le_of_lt hlt))

theorem Chain.idle_of_stopped (h : H.Chain cells m) (hstopped : (cells m).isRunning = false) :
    ∀ x ≤ m, (cells x).isRunning = false := by
  cases h with
  | idle hidle => exact hidle
  | alone hruns => exact absurd (hruns.symm.trans hstopped) nofun
  | link hruns => exact absurd (hruns.symm.trans hstopped) nofun

theorem Chain.tail (h : H.Chain cells m) (hcurr : (cells m).currState = some state)
    (hsub : (H.stateAt m state).subSm = some sub) :
    H.Chain cells sub ∧ ∀ x, sub < x → x < m → (cells x).isRunning = false := by
  have hlt := lt_of_subSm hsub
  cases h with
  | idle hidle =>
    exact ⟨.idle fun x hx => hidle x (hx.trans (Nat.le_of_lt hlt)), fun x _ hx => hidle x (Nat.le_of_lt hx)⟩
  | alone _ hbelow =>
    exact ⟨.idle fun x hx => hbelow x (Nat.lt_of_le_of_lt hx hlt), fun x _ hx => hbelow x hx⟩
  | link _ hcurr' hsub' hbetween hchain =>
    rw [hcurr] at hcurr'
    cases hcurr'
    rw [hsub] at hsub'
    cases hsub'
    exact ⟨hchain, hbetween⟩

theorem Chain.quiet (h : H.Chain cells m) (hcurr : (cells m).currState = some state)
    (hsubs : ∀ sub, (H.stateAt m state).subSm = some sub → (cells sub).isRunning = false) :
    ∀ x < m, (cells x).isRunning = false := by
  cases h with
  | idle hidle => exact fun x hx => hidle x (Nat.le_of_lt hx)
  | alone _ hbelow => exact hbelow
  | link _ hcurr' hsub' hbetween hchain =>
    rw [hcurr] at hcurr'
    cases hcurr'
    intro x hx
    rcases Nat.lt_or_ge _ x with hlow | hlow
    · exact hbetween x hlow hx
    · exact hchain.idle_of_stopped (hsubs _ hsub') x hlow

theorem Chain.of_quiet (hquiet : ∀ x < m, (cells x).isRunning = false) : H.Chain cells m := by
  cases hrunning : (cells m).isRunning with
  | true => exact .alone hrunning hquiet
  | false =>
    refine .idle fun x hx => ?_
    rcases Nat.lt_or_eq_of_le hx with hlt | rfl
    · exact hquiet x hlt
    · exact hrunning

end Chains

theorem startActions_eq {depth depth' : Nat} {m : MachineId} (h : m < depth) (h' : m < depth') :
    H.startActions depth m = H.startActions depth' m := by
  induction depth generalizing m depth' with
  | zero => exact absurd h (Nat.not_lt_zero m)
  | succ depth ih =>
    cases depth' with
    | zero => exact absurd h' (Nat.not_lt_zero m)
    | succ depth' =>
      unfold startActions
      cases (H.machine m).findState (H.machine m).initStateId with
      | none => rfl
      | some initState =>
        cases hsub : (H.stateAt m initState.id).subSm with
        | none => simp only [hsub]
        | some sub =>
          have hlt := lt_of_subSm hsub
          simp only [hsub]
          rw [ih (Nat.lt_of_lt_of_le hlt (Nat.le_of_lt_succ h)) (Nat.lt_of_lt_of_le hlt (Nat.le_of_lt_succ h'))]

/-- After a call on a machine, begun in `w`, with the callbacks it has made. -/
structure Done (m : MachineId) (R : World → List Callback → World → Prop) (w w' : World) : Prop where
  ready : H.Ready m w'
  agrees : Agrees m w w'
  opens : w'.opens = w.opens
  log : ∃ l, w'.log = w.log ++ l ∧ R w l w'

def OpSafe (m : MachineId) (p : Prog Bool) (R : World → List Callback → World → Prop) : Prop :=
  ∀ P w, H.Ready m w → (∀ w', Agrees m w w' → H.Below m w' → P w') →
    Lib.Safe (H.passive P) p w fun _ w' => H.Done m R w w'

/-- In the body of a call begun in `base`: the status of its machine, where its actions left it, and the callbacks so
far. -/
structure Within (base : World) (call : Call) (s : Status) (at' : Option StateID) (l : List Callback)
    (quiet : Bool) (w : World) : Prop where
  cell : w.cells call.machine = s
  place : Flow.place call.machine w.log = some at'
  log : w.log = base.log ++ l
  opens : w.opens = (base.enter call).opens
  agrees : Agrees call.machine base w
  placed : ∀ x < call.machine, H.Placed w x
  chain : H.Chain w.cells call.machine
  quiet : quiet = true → ∀ x < call.machine, (w.cells x).isRunning = false
  afresh : ∀ r ∈ w.finished, H.StartsAfresh r

variable {H} {P : World → Prop} {base w w' : World} {call : Call} {s : Status}
  {at' : Option StateID} {l : List Callback} {quiet : Bool} {α : Type} {Q : α → World → Prop}

/-- The body of a call is safe wherever it stands like this. -/
def Keeps (H : Hierarchy) (P : World → Prop) (base : World) (call : Call) (s : Status)
    (at' : Option StateID) (l : List Callback) (quiet : Bool) (p : Prog α) (Q : α → World → Prop) : Prop :=
  ∀ w, H.Within base call s at' l quiet w → Lib.Safe (H.passive P) p w Q

theorem Agrees.trans {m : MachineId} {u v w : World} (huv : Agrees m u v) (hvw : Agrees m v w) : Agrees m u w :=
  ⟨fun x hx => (hvw.cells x hx).trans (huv.cells x hx), fun x hx => (hvw.place x hx).trans (huv.place x hx)⟩

theorem Agrees.mono {m m' : MachineId} {u v : World} (h : Agrees m u v) (hle : m ≤ m') : Agrees m' u v :=
  ⟨fun x hx => h.cells x (Nat.lt_of_le_of_lt hle hx), fun x hx => h.place x (Nat.lt_of_le_of_lt hle hx)⟩

theorem Placed.congr {x : MachineId} {u v : World} (hu : H.Placed u x) (hcell : v.cells x = u.cells x)
    (hplace : Flow.place x v.log = Flow.place x u.log) : H.Placed v x := by
  refine ⟨?_, ?_, ?_⟩
  · rw [hcell]
    exact hu.settled
  · rw [hplace, hcell]
    exact hu.place
  · rw [hcell]
    exact hu.named

theorem Within.below (h : H.Within base call s at' l quiet w) : H.Below call.machine w := by
  refine ⟨h.chain, fun x hx => ?_, h.afresh⟩
  rcases Nat.lt_or_eq_of_le hx with hlt | rfl
  · rw [(h.placed x hlt).place]
    nofun
  · rw [h.place]
    nofun

theorem Within.of_enter (call : Call) (quiet : Bool) (hbase : H.Ready call.machine base)
    (hquiet : quiet = true → ∀ x < call.machine, (base.cells x).isRunning = false) :
    H.Within base call (base.cells call.machine) (base.cells call.machine).currState [] quiet (base.enter call) :=
  ⟨rfl, (hbase.placed _ (Nat.le_refl _)).place, (append_nil _).symm, rfl,
    ⟨fun _ _ => rfl, fun _ _ => rfl⟩, fun x hx => (hbase.placed x (Nat.le_of_lt hx)).congr rfl rfl,
    hbase.chain, hquiet, hbase.afresh⟩

theorem Within.set (h : H.Within base call s at' l quiet w) (s' : Status)
    (hchain : H.Chain (update w.cells call.machine s') call.machine) :
    H.Within base call s' at' l quiet (w.set call.machine s') := by
  have hother : ∀ x, x ≠ call.machine → (w.set call.machine s').cells x = w.cells x := fun x hx => update_of_ne hx _ _
  refine ⟨update_self .., h.place, h.log, h.opens, ⟨fun x hx => ?_, h.agrees.place⟩,
    fun x hx => (h.placed x hx).congr (hother x (Nat.ne_of_lt hx)) rfl, hchain, fun hq x hx => ?_,
    h.afresh⟩
  · exact (hother x (Nat.ne_of_gt hx)).trans (h.agrees.cells x hx)
  · rw [hother x (Nat.ne_of_lt hx)]
    exact h.quiet hq x hx

section Rules

theorem Keeps.status {f : Status → Prog α} (h : H.Keeps P base call s at' l quiet (f s) Q) :
    H.Keeps P base call s at' l quiet (Hierarchy.status call.machine >>= f) Q := by
  intro w hw
  show Lib.Safe _ (f (w.cells call.machine)) w Q
  rw [hw.cell]
  exact h w hw

theorem Keeps.currState (id : StateID) (hcurr : s.currState = some id) {f : State → Prog α}
    (h : H.Keeps P base call s at' l quiet (f (H.stateAt call.machine id)) Q) :
    H.Keeps P base call s at' l quiet (H.currState call.machine >>= f) Q := by
  intro w hw
  apply safe_currState
  · rw [hw.cell, hcurr]
  · exact h w hw

theorem Keeps.currSub (id : StateID) {sub : MachineId} (hcurr : s.currState = some id)
    (hsub : (H.stateAt call.machine id).subSm = some sub) {f : MachineId → Prog α}
    (h : H.Keeps P base call s at' l quiet (f sub) Q) :
    H.Keeps P base call s at' l quiet (H.currSub call.machine >>= f) Q := by
  intro w hw
  apply safe_currSub _ hsub
  · exact h w hw
  · rw [hw.cell, hcurr]

variable (hctx : ∀ w', Agrees call.machine base w' → H.Below call.machine w' → P w')
include hctx

variable {f : Unit → Prog α} {g : Status → Status}

theorem Keeps.modify (hchain : ∀ w, H.Within base call s at' l quiet w →
      H.Chain (update w.cells call.machine (g s)) call.machine) (h : H.Keeps P base call (g s) at' l quiet (f ()) Q) :
    H.Keeps P base call s at' l quiet (Hierarchy.modify call.machine g >>= f) Q := by
  intro w hw
  have hnext := hw.set (g s) (hchain w hw)
  show P (w.set call.machine (g (w.cells call.machine))) ∧
    Lib.Safe _ (f ()) (w.set call.machine (g (w.cells call.machine))) Q
  rw [hw.cell]
  exact ⟨hctx _ hnext.agrees hnext.below, h _ hnext⟩

theorem Keeps.modify_quiet
    (h : H.Keeps P base call (g s) at' l true (f ()) Q) :
    H.Keeps P base call s at' l true (Hierarchy.modify call.machine g >>= f) Q := by
  refine Keeps.modify hctx (fun w hw => .of_quiet fun x hx => ?_) h
  rw [update_of_ne (Nat.ne_of_lt hx)]
  exact hw.quiet rfl x hx

theorem Keeps.modify_level
    (hrunning : (g s).isRunning = s.isRunning) (hcurr : (g s).currState = s.currState)
    (h : H.Keeps P base call (g s) at' l quiet (f ()) Q) :
    H.Keeps P base call s at' l quiet (Hierarchy.modify call.machine g >>= f) Q := by
  refine Keeps.modify hctx (fun w hw => hw.chain.congr (fun x _ => ?_) fun x _ => ?_) h
  · by_cases heq : x = call.machine
    · rw [heq, update_self, hw.cell, hrunning]
    · rw [update_of_ne heq]
  · by_cases heq : x = call.machine
    · rw [heq, update_self, hw.cell, hcurr]
    · rw [update_of_ne heq]

theorem Keeps.callback (c : Callback) {at'' : Option StateID} (hother : ∀ x ≠ call.machine, ∀ p, placeStep x p c = p)
    (hplace : placeStep call.machine (some at') c = some at'') {f : Int → Prog α}
    (h : ∀ v, H.Keeps P base call s at'' (l ++ [c]) quiet (f v) Q) :
    H.Keeps P base call s at' l quiet (Hierarchy.callback c >>= f) Q := by
  intro w hw
  have hstep : ∀ x, Flow.place x (w.note c).log = placeStep x (Flow.place x w.log) c := fun x => foldl_concat ..
  have hnote : H.Within base call s at'' (l ++ [c]) quiet (w.note c) := by
    refine ⟨hw.cell, ?_, ?_, hw.opens, ⟨hw.agrees.cells, fun x hx => ?_⟩,
      fun x hx => (hw.placed x hx).congr rfl ?_, hw.chain, hw.quiet, hw.afresh⟩
    · rw [hstep, hw.place]
      exact hplace
    · show w.log ++ [c] = _
      rw [hw.log, append_assoc]
    · rw [hstep, hother x (Nat.ne_of_gt hx)]
      exact hw.agrees.place x hx
    · rw [hstep, hother x (Nat.ne_of_lt hx)]
  refine ⟨hctx _ hnote.agrees hnote.below, trivial, fun v w' hsame _ _ => ?_⟩
  rw [show w' = w.note c from hsame]
  exact h v _ hnote

theorem Keeps.sub {R : World → List Callback → World → Prop} {sub : MachineId} {id : StateID}
    {p : Prog Bool} (hp : H.OpSafe sub p R) (hrunning : s.isRunning = true)
    (hcurr : s.currState = some id) (hsub : (H.stateAt call.machine id).subSm = some sub) {f : Bool → Prog α}
    (h : ∀ v w l' w', H.Within base call s at' l quiet w → R w l' w' →
      H.Within base call s at' (l ++ l') false w' → Lib.Safe (H.passive P) (f v) w' Q) :
    H.Keeps P base call s at' l quiet (p >>= f) Q := by
  intro w hw
  have hlt := lt_of_subSm hsub
  have hcurr' : (w.cells call.machine).currState = some id := hw.cell ▸ hcurr
  obtain ⟨hchain, hbetween⟩ := hw.chain.tail hcurr' hsub
  have hready : H.Ready sub w := ⟨hchain, fun x hx => hw.placed x (Nat.lt_of_le_of_lt hx hlt), hw.afresh⟩
  -- what the call on the sub machine leaves below is a chain again, with this machine on top
  have hlinked : ∀ w', Agrees sub w w' → H.Chain w'.cells sub → H.Chain w'.cells call.machine := by
    intro w' hagrees hchain'
    have hcell := hagrees.cells call.machine hlt
    refine .link ?_ (hcell ▸ hcurr') hsub (fun x hlow hhigh => ?_) hchain'
    · rw [hcell, hw.cell]
      exact hrunning
    · rw [hagrees.cells x hlow]
      exact hbetween x hlow hhigh
  have hupper : ∀ w', Agrees sub w w' → Agrees call.machine base w' := fun w' hagrees =>
    hw.agrees.trans (hagrees.mono (Nat.le_of_lt hlt))
  refine Lib.Safe.bind ((hp P w hready fun w' hagrees hbelow => ?_).mono fun v w' hdone => ?_)
  · refine hctx w' (hupper w' hagrees) ⟨hlinked w' hagrees hbelow.chain, fun x hx => ?_, hbelow.afresh⟩
    rcases Nat.lt_or_ge sub x with hlow | hlow
    · rw [hagrees.place x hlow]
      exact hw.below.alternate x hx
    · exact hbelow.alternate x hlow
  · obtain ⟨l', hlog, hR⟩ := hdone.log
    refine h v w l' w' hw hR ⟨?_, ?_, ?_, hdone.opens.trans hw.opens, hupper w' hdone.agrees,
      fun x hx => ?_, hlinked w' hdone.agrees hdone.ready.chain, nofun, hdone.ready.afresh⟩
    · exact (hdone.agrees.cells _ hlt).trans hw.cell
    · exact (hdone.agrees.place _ hlt).trans hw.place
    · rw [hlog, hw.log, append_assoc]
    · rcases Nat.lt_or_ge sub x with hlow | hlow
      · exact (hw.placed x hx).congr (hdone.agrees.cells x hlow) (hdone.agrees.place x hlow)
      · exact hdone.ready.placed x hlow

omit hctx in
/-- **The rule of composition** for parts of a body. -/
theorem Keeps.seq {s' : Status} {at'' : Option StateID} {quiet' : Bool} {p : Prog α} {β : Type}
    {f : α → Prog β} {Q : β → World → Prop}
    (hp : H.Keeps P base call s at' l quiet p fun _ w => ∃ l', H.Within base call s' at'' l' quiet' w)
    (hf : ∀ a l', H.Keeps P base call s' at'' l' quiet' (f a) Q) :
    H.Keeps P base call s at' l quiet (p >>= f) Q := by
  intro w hw
  refine Lib.Safe.bind ((hp w hw).mono fun a w' hw' => ?_)
  obtain ⟨l', hw'⟩ := hw'
  exact hf a l' w' hw'

omit hctx in
theorem Keeps.pure (a : α) : H.Keeps P base call s at' l quiet (Pure.pure a) fun _ w =>
    ∃ l', H.Within base call s at' l' quiet w :=
  fun _ hw => ⟨l, hw⟩

/-- **The return of a call.** -/
theorem Keeps.return {R : World → List Callback → World → Prop} (hs : s.Settled)
    (hnamed : H.Named call.machine s) (hplace : at' = s.currState) (result : Bool)
    (hafresh : call.op = .start → result = true → l = H.startActions (call.machine + 1) call.machine)
    (hR : ∀ w, H.Within base call s at' l quiet w → R base l (w.leave result)) :
    H.Keeps P base call s at' l quiet (Pure.pure result) fun result w =>
      P (w.leave result) ∧ H.Done call.machine R base (w.leave result) := by
  intro w hw
  have hleave : w.leave result = { w with
      opens := base.opens
      finished := w.finished ++ [w.close ⟨call, base.cells, base.log.length⟩ base.opens result] } :=
    Lib.World.leave_of_opens hw.opens result
  have hrecords : ∀ r ∈ (w.leave result).finished, H.StartsAfresh r := by
    rw [hleave]
    intro r hr
    rcases mem_append.mp hr with hr | hr
    · exact hw.afresh r hr
    rw [mem_singleton.mp hr]
    intro hop hresult
    show w.log.drop base.log.length = _
    rw [hw.log, drop_left]
    exact hafresh hop hresult
  have hplaced : ∀ x ≤ call.machine, H.Placed (w.leave result) x := by
    intro x hx
    rw [hleave]
    rcases Nat.lt_or_eq_of_le hx with hlt | rfl
    · exact (hw.placed x hlt).congr rfl rfl
    refine ⟨?_, ?_, ?_⟩
    · show (w.cells call.machine).Settled
      rw [hw.cell]
      exact hs
    · show Flow.place call.machine w.log = some (w.cells call.machine).currState
      rw [hw.cell, hw.place, hplace]
    · show H.Named call.machine (w.cells call.machine)
      rw [hw.cell]
      exact hnamed
  have hchain : H.Chain (w.leave result).cells call.machine := by
    rw [hleave]
    exact hw.chain
  have hagrees : Agrees call.machine base (w.leave result) := by
    rw [hleave]
    exact ⟨hw.agrees.cells, hw.agrees.place⟩
  have hlog : (w.leave result).log = base.log ++ l := by
    rw [hleave]
    exact hw.log
  have hopens : (w.leave result).opens = base.opens := by rw [hleave]
  have hready : H.Ready call.machine (w.leave result) := ⟨hchain, hplaced, hrecords⟩
  refine ⟨hctx _ hagrees ⟨hchain, fun x hx => ?_, hrecords⟩, hready, hagrees, hopens, l, hlog, hR w hw⟩
  rw [(hplaced x hx).place]
  nofun

end Rules

theorem opSafe_bracket (call : Call) {body : Prog Bool} {R : World → List Callback → World → Prop}
    (hbody : ∀ P base, H.Ready call.machine base → H.StopsBare base call →
      (∀ w', Agrees call.machine base w' → H.Below call.machine w' → P w') →
      ∃ quiet, (quiet = true → ∀ x < call.machine, (base.cells x).isRunning = false) ∧
        H.Keeps P base call (base.cells call.machine) (base.cells call.machine).currState [] quiet body
          fun result w => P (w.leave result) ∧ H.Done call.machine R base (w.leave result)) :
    H.OpSafe call.machine (Lib.Prog.bracket call body) R := by
  intro P base hready hctx
  refine Lib.Safe.bracket (fun _ => ?_) fun hadmits => ?_
  · have hentered := Within.of_enter call false hready nofun
    exact hctx _ hentered.agrees hentered.below
  · obtain ⟨quiet, hquiet, hkeeps⟩ := hbody P base hready hadmits hctx
    exact hkeeps _ (.of_enter call quiet hready hquiet)

theorem cells_leave (w : World) (result : Bool) : (w.leave result).cells = w.cells := by
  unfold Lib.World.leave
  split <;> rfl

theorem settled_of_levels {s s' : Status} (hs : s.Settled) (hlevel : s'.cbLevel = s.cbLevel + 1 - 1)
    (hdefined : s'.Defined) : s'.Settled := by
  refine ⟨?_, hdefined⟩
  rw [hlevel, hs.level]
  rfl

theorem placeStep_enter {m : MachineId} (state : StateID) (event : Event) :
    placeStep m (some none) (.enter m state event) = some (some state) := by
  simp [placeStep]

theorem placeStep_exit {m : MachineId} (state : StateID) (event : Event) :
    placeStep m (some (some state)) (.exit m state event) = some none := by
  simp [placeStep]

theorem placeStep_other {m x : MachineId} (hx : x ≠ m) (p : Option (Option StateID)) {c : Callback}
    (hc : ∃ state event, c = .enter m state event ∨ c = .exit m state event) : placeStep x p c = p := by
  obtain ⟨state, event, rfl | rfl⟩ := hc
  · exact if_neg (Ne.symm hx)
  · exact if_neg (Ne.symm hx)

theorem stop_opSafe (m : MachineId) : H.OpSafe m (H.stop m) fun _ _ w' => (w'.cells m).isRunning = false := by
  refine opSafe_bracket ⟨m, .stop⟩ fun P base hready hbare hctx => ?_
  have hplaced := hready.placed m (Nat.le_refl m)
  cases hrunning : (base.cells m).isRunning with
  | false =>
    refine ⟨false, nofun, Keeps.status ?_⟩
    rw [hrunning]
    refine Keeps.return hctx hplaced.settled hplaced.named rfl false nofun fun w hw => ?_
    rw [cells_leave, hw.cell]
    exact hrunning
  | true =>
    obtain ⟨id, hcurr⟩ := ne_none_iff_exists'.mp (hplaced.settled.defined.mp hrunning)
    have hquiet := hready.chain.quiet hcurr (hbare rfl hrunning id hcurr)
    refine ⟨true, fun _ => hquiet, Keeps.status ?_⟩
    show H.Keeps P base ⟨m, .stop⟩ _ _ _ _ (if !(base.cells m).isRunning then _ else _) _
    rw [hrunning, if_neg (by simp), if_neg (not_not.mpr hplaced.settled.level), hcurr]
    refine Keeps.modify_quiet hctx ?_
    refine Keeps.currState id (by exact hcurr) ?_
    rw [hplaced.named id hcurr]
    refine Keeps.callback hctx _ (fun x hx p => placeStep_other hx p ⟨_, _, .inr rfl⟩)
      (placeStep_exit id {}) fun _ => ?_
    refine Keeps.modify_quiet hctx ?_
    refine Keeps.modify_quiet hctx ?_
    refine Keeps.return hctx (settled_of_levels hplaced.settled rfl ?_) (fun _ h => by cases h) rfl
      true nofun fun w hw => ?_
    · exact iff_of_false nofun fun hne => hne rfl
    · rw [cells_leave, hw.cell]

theorem named_of_find {m : MachineId} {id : StateID} {state : State}
    (hfind : (H.machine m).findState id = some state) : (H.stateAt m state.id).id = state.id := by
  have hid : state.id = id := by
    rw [Machine.findState] at hfind
    split at hfind
    · simpa using find?_some hfind
    · cases hfind
  rw [stateAt, hid, hfind]
  exact hid

theorem named_of_known {m : MachineId} {id next : StateID} (hknown : H.knownState m id = some next) :
    (H.stateAt m next).id = next := by
  rw [knownState] at hknown
  obtain ⟨hstate, rfl⟩ := ite_some_none_eq_some.mp hknown
  cases hfind : (H.machine m).findState id with
  | some state =>
    have hid : state.id = id := by
      rw [Machine.findState] at hfind
      split at hfind
      · simpa using find?_some hfind
      · cases hfind
    rw [stateAt, hfind]
    exact hid
  | none =>
    rw [hfind] at hstate
    rw [stateAt, hfind]
    exact (hstate.resolve_left (by simp)).symm

/-- **A start** runs the enter actions of the initial states, one machine after the other. -/
theorem start_opSafe (depth : Nat) (m : MachineId) (hdepth : m < depth) :
    H.OpSafe m (H.start depth m) fun w l _ => (w.cells m).isRunning = false → l = H.startActions depth m := by
  induction depth generalizing m with
  | zero => exact absurd hdepth (Nat.not_lt_zero m)
  | succ depth ih =>
    refine opSafe_bracket ⟨m, .start⟩ fun P base hready hbare hctx => ?_
    have hplaced := hready.placed m (Nat.le_refl m)
    cases hrunning : (base.cells m).isRunning with
    | true =>
      refine ⟨false, nofun, Keeps.status ?_⟩
      rw [hrunning]
      refine Keeps.return hctx hplaced.settled hplaced.named rfl false nofun fun _ _ hnot => ?_
      exact absurd (hrunning.symm.trans hnot) nofun
    | false =>
      have hquiet : ∀ x < m, (base.cells x).isRunning = false := fun x hx =>
        hready.chain.idle_of_stopped hrunning x (Nat.le_of_lt hx)
      have hcurr : (base.cells m).currState = none := by
        by_contra hne
        exact absurd (hrunning.symm.trans (hplaced.settled.defined.mpr hne)) nofun
      refine ⟨true, fun _ => hquiet, Keeps.status ?_⟩
      show H.Keeps P base ⟨m, .start⟩ _ _ _ _ (if (base.cells m).isRunning then _ else _) _
      rw [hrunning, if_neg (by simp), if_neg (not_not.mpr hplaced.settled.level)]
      cases hinit : (H.machine m).findState (H.machine m).initStateId with
      | none =>
        refine Keeps.return hctx hplaced.settled hplaced.named rfl false nofun fun _ _ _ => ?_
        rw [startActions, hinit]
      | some initState =>
        have hnamed := named_of_find hinit
        have hended : Status.Settled { base.cells m with
            isRunning := true
            currState := some initState.id
            cbLevel := (base.cells m).cbLevel + 1 - 1 } :=
          settled_of_levels hplaced.settled rfl (iff_of_true rfl nofun)
        have hnames : H.Named m { base.cells m with
            isRunning := true
            currState := some initState.id
            cbLevel := (base.cells m).cbLevel + 1 - 1 } :=
          fun _ hid => some.inj hid ▸ hnamed
        rw [hcurr]
        refine Keeps.modify_quiet hctx ?_
        refine Keeps.modify_quiet hctx ?_
        refine Keeps.callback hctx _ (fun x hx p => placeStep_other hx p ⟨_, _, .inl rfl⟩)
          (placeStep_enter initState.id {}) fun _ => ?_
        refine Keeps.modify_quiet hctx ?_
        refine Keeps.currState initState.id rfl ?_
        cases hsub : (H.stateAt m initState.id).subSm with
        | none =>
          have hactions : [Callback.enter m initState.id {}] = H.startActions (depth + 1) m := by
            rw [startActions, hinit]
            simp only [hsub]
          refine Keeps.return hctx hended hnames rfl true (fun _ _ => ?_) fun _ _ _ => hactions
          exact hactions.trans (H.startActions_eq hdepth (Nat.lt_succ_self m))
        | some sub =>
          have hlt : sub < depth := Nat.lt_of_lt_of_le (lt_of_subSm hsub) (Nat.le_of_lt_succ hdepth)
          refine Keeps.currSub initState.id rfl hsub ?_
          refine Keeps.sub hctx (ih sub hlt) rfl rfl hsub fun _ w l' w' hw hstarted hw' => ?_
          have hactions : [Callback.enter m initState.id {}] ++ l'
              = H.startActions (depth + 1) m := by
            rw [hstarted (hw.quiet rfl sub (lt_of_subSm hsub)), startActions, hinit]
            simp only [hsub, singleton_append]
          refine Keeps.return hctx hended hnames rfl true (fun _ _ => ?_) (fun _ _ _ => hactions) w' hw'
          exact hactions.trans (H.startActions_eq hdepth (Nat.lt_succ_self m))

def Callback.IsPlain (c : Callback) : Prop := ∀ x p, placeStep x p c = p

theorem Within.weaken (h : H.Within base call s at' l quiet w) : H.Within base call s at' l false w :=
  { h with quiet := nofun }

theorem Within.quieten {id : StateID} {sub : MachineId} (h : H.Within base call s at' l quiet w)
    (hcurr : s.currState = some id) (hsub : (H.stateAt call.machine id).subSm = some sub)
    (hstopped : (w.cells sub).isRunning = false) : H.Within base call s at' l true w := by
  refine { h with quiet := fun _ => ?_ }
  refine h.chain.quiet (h.cell ▸ hcurr) fun sub' hsub' => ?_
  rw [hsub] at hsub'
  cases hsub'
  exact hstopped

section Run

variable (hctx : ∀ w', Agrees call.machine base w' → H.Below call.machine w' → P w')
include hctx

theorem Keeps.plain {c : Callback} (hc : Callback.IsPlain c) {f : Int → Prog α}
    (h : ∀ v, H.Keeps P base call s at' (l ++ [c]) quiet (f v) Q) :
    H.Keeps P base call s at' l quiet (Hierarchy.callback c >>= f) Q :=
  Keeps.callback hctx c (fun x _ p => hc x p) (hc _ _) h

theorem findRoute_keeps (event : Event) (routes : List Route) :
    H.Keeps P base call s at' l quiet (findRoute call.machine event routes) fun _ w =>
      ∃ l', H.Within base call s at' l' quiet w := by
  induction routes generalizing l with
  | nil => exact .pure _
  | cons route routes ih =>
    unfold findRoute
    split
    · exact ih
    split
    · refine Keeps.plain hctx (fun _ _ => rfl) fun passed => ?_
      split
      · exact ih
      · exact .pure _
    · exact .pure _

theorem callHandler_keeps (event : Event) (curr : State) :
    H.Keeps P base call s at' l quiet (callHandler call.machine event curr) fun _ w =>
      ∃ l', H.Within base call s at' l' quiet w := by
  unfold callHandler
  split
  · exact Keeps.plain hctx (fun _ _ => rfl) fun _ => .pure _
  · split
    · exact Keeps.plain hctx (fun _ _ => rfl) fun _ => .pure _
    · exact .pure _

theorem takeRoute_keeps (event : Event) (route : Option Route) :
    H.Keeps P base call s at' l quiet (takeRoute call.machine event route) fun _ w =>
      ∃ l', H.Within base call s at' l' quiet w := by
  cases route with
  | none => exact .pure _
  | some route => exact Keeps.plain hctx (fun _ _ => rfl) fun _ => .pure _

theorem notifyChanged_keeps {last curr : StateID} (hlast : s.lastState = some last)
    (hcurr : s.currState = some curr) (event : Event) :
    H.Keeps P base call s at' l quiet (H.notifyChanged call.machine event) fun _ w =>
      ∃ l', H.Within base call s at' l' quiet w := by
  refine Keeps.status ?_
  rw [hlast]
  refine Keeps.currState curr hcurr ?_
  exact Keeps.plain hctx (fun _ _ => rfl) fun _ => .pure _

theorem Keeps.lower {f : Unit → Prog α} (h : H.Keeps P base call s at' l quiet (f ()) Q) :
    H.Keeps P base call { s with cbLevel := s.cbLevel + 1 } at' l quiet
      (Hierarchy.lower call.machine >>= f) Q := by
  refine Keeps.modify_level hctx rfl rfl ?_
  have hsame : { s with cbLevel := s.cbLevel + 1 - 1 } = s := by rw [Int.add_sub_cancel]
  show H.Keeps P base call { s with cbLevel := s.cbLevel + 1 - 1 } at' l quiet _ _
  rw [hsame]
  exact h

theorem handleEvent_keeps {curr : StateID} (hcurr : s.currState = some curr) (event : Event) :
    H.Keeps P base call s at' l quiet (H.handleEvent call.machine event) fun _ w =>
      ∃ l', H.Within base call s at' l' quiet w := by
  refine Keeps.modify_level hctx rfl rfl ?_
  refine Keeps.currState curr (by exact hcurr) ?_
  refine Keeps.seq (callHandler_keeps hctx event _) fun next _ => ?_
  exact Keeps.lower hctx (.pure next)

theorem selectRoute_keeps {curr : StateID} (hcurr : s.currState = some curr) (event : Event) :
    H.Keeps P base call s at' l quiet (H.selectRoute call.machine event) fun _ w =>
      ∃ l', H.Within base call s at' l' quiet w := by
  refine Keeps.modify_level hctx rfl rfl ?_
  refine Keeps.currState curr (by exact hcurr) ?_
  refine Keeps.seq (findRoute_keeps hctx event _) fun route _ => ?_
  exact Keeps.lower hctx (.pure route)

variable {startSub : MachineId → Prog Bool} {runSub : MachineId → Event → Prog Bool}
  {R : MachineId → World → List Callback → World → Prop}
  (hstart : ∀ sub < call.machine, H.OpSafe sub (startSub sub) (R sub))
  (hrun : ∀ sub < call.machine, ∀ event, H.OpSafe sub (runSub sub event) fun _ _ _ => True)
include hstart hrun

theorem enterSub_keeps (hrunning : s.isRunning = true) {curr : StateID}
    (hcurr : s.currState = some curr) (event : Event) :
    H.Keeps P base call s at' l quiet (H.enterSub startSub runSub call.machine event) fun _ w =>
      ∃ l', H.Within base call s at' l' false w := by
  refine Keeps.currState curr hcurr ?_
  cases hsub : (H.stateAt call.machine curr).subSm with
  | none => exact fun w hw => ⟨l, hw.weaken⟩
  | some sub =>
    have hlt := lt_of_subSm hsub
    refine Keeps.currSub curr hcurr hsub ?_
    refine Keeps.sub hctx (hstart sub hlt) hrunning hcurr hsub fun _ _ l' w' _ _ hw' => ?_
    refine Keeps.currSub curr hcurr hsub ?_ w' hw'
    refine Keeps.sub hctx (hrun sub hlt event) hrunning hcurr hsub fun _ _ _ w'' _ _ hw'' => ?_
    exact ⟨_, hw''⟩

/-- **A change of state** with nothing running below. -/
theorem changeState_keeps (hs : s.Settled) (hrunning : s.isRunning = true) {id : StateID}
    (hcurr : s.currState = some id) (hnamed : H.Named call.machine s) (event : Event)
    (nextStateId : StateID) (route : Option Route) (hop : call.op ≠ .start) : H.Keeps P base call s (some id) l true
      (H.changeState startSub runSub call.machine event nextStateId route) fun result w => P (w.leave result) ∧
        H.Done call.machine (fun _ _ _ => True) base (w.leave result) := by
  refine Keeps.modify_quiet hctx ?_
  cases hnext : H.knownState call.machine nextStateId with
  | none =>
    have hkept : Status.Settled { s with nextState := none } := ⟨hs.level, hs.defined⟩
    exact Keeps.return hctx hkept hnamed hcurr.symm false (fun h => absurd h hop) fun _ _ => trivial
  | some next =>
    have hnextNamed := named_of_known hnext
    have hended : Status.Settled { s with
        lastState := s.currState
        currState := some next
        nextState := none
        cbLevel := s.cbLevel + 1 - 1 } :=
      settled_of_levels hs rfl (iff_of_true hrunning nofun)
    have hnames : H.Named call.machine { s with
        lastState := s.currState
        currState := some next
        nextState := none
        cbLevel := s.cbLevel + 1 - 1 } := fun _ hid => some.inj hid ▸ hnextNamed
    refine Keeps.modify_quiet hctx ?_
    refine Keeps.currState id (by exact hcurr) ?_
    rw [hnamed id hcurr]
    refine Keeps.callback hctx _ (fun x hx p => placeStep_other hx p ⟨_, _, .inr rfl⟩)
      (placeStep_exit id event) fun _ => ?_
    refine Keeps.modify_quiet hctx ?_
    refine Keeps.seq (takeRoute_keeps hctx event route) fun _ _ => ?_
    refine Keeps.modify_quiet hctx ?_
    refine Keeps.currState next rfl ?_
    rw [hnextNamed]
    refine Keeps.callback hctx _ (fun x hx p => placeStep_other hx p ⟨_, _, .inl rfl⟩)
      (placeStep_enter next event) fun _ => ?_
    refine Keeps.seq (notifyChanged_keeps hctx (by exact hcurr) rfl event) fun _ _ => ?_
    refine Keeps.seq (enterSub_keeps hctx hstart hrun (by exact hrunning) rfl event) fun _ _ => ?_
    refine Keeps.modify_level hctx rfl rfl ?_
    exact Keeps.return hctx hended hnames rfl true (fun h => absurd h hop) fun _ _ => trivial

theorem runCurrent_keeps (hs : s.Settled) (hrunning : s.isRunning = true) {id : StateID}
    (hcurr : s.currState = some id) (hnamed : H.Named call.machine s) (event : Event) (hop : call.op ≠ .start) :
    H.Keeps P base call s (some id) l true (H.runCurrent startSub runSub call.machine event)
      fun result w => P (w.leave result) ∧ H.Done call.machine (fun _ _ _ => True) base (w.leave result) := by
  refine Keeps.seq (handleEvent_keeps hctx hcurr event) fun nextStateId _ => ?_
  split
  · refine Keeps.seq (selectRoute_keeps hctx hcurr event) fun route _ => ?_
    cases route with
    | none =>
      exact Keeps.return hctx hs hnamed hcurr.symm false (fun h => absurd h hop) fun _ _ => trivial
    | some route =>
      exact changeState_keeps hctx hstart hrun hs hrunning hcurr hnamed event _ _ hop
  · exact changeState_keeps hctx hstart hrun hs hrunning hcurr hnamed event _ _ hop

end Run

theorem run_opSafe (depth : Nat) (m : MachineId) (event : Event) (hdepth : m < depth) :
    H.OpSafe m (H.run depth m event) fun _ _ _ => True := by
  induction depth generalizing m event with
  | zero => exact absurd hdepth (Nat.not_lt_zero m)
  | succ depth ih =>
    have hbelow : ∀ sub < m, sub < depth := fun sub hlt => Nat.lt_of_lt_of_le hlt (Nat.le_of_lt_succ hdepth)
    have hstart : ∀ sub < m, H.OpSafe sub (H.start depth sub) _ := fun sub hlt =>
      start_opSafe depth sub (hbelow sub hlt)
    have hrun : ∀ sub < m, ∀ event, H.OpSafe sub (H.run depth sub event) _ := fun sub hlt event =>
      ih sub event (hbelow sub hlt)
    refine opSafe_bracket ⟨m, .run event⟩ fun P base hready hbare hctx => ?_
    have hplaced := hready.placed m (Nat.le_refl m)
    cases hrunning : (base.cells m).isRunning with
    | false =>
      refine ⟨false, nofun, Keeps.status ?_⟩
      rw [hrunning]
      exact Keeps.return hctx hplaced.settled hplaced.named rfl false nofun fun _ _ => trivial
    | true =>
      obtain ⟨id, hcurr⟩ := ne_none_iff_exists'.mp (hplaced.settled.defined.mp hrunning)
      have hown : ∀ l, H.Keeps P base ⟨m, .run event⟩ (base.cells m) (some id) l true
          (H.runCurrent (H.start depth) (H.run depth) m event) _ := fun l =>
        runCurrent_keeps hctx hstart hrun hplaced.settled hrunning hcurr hplaced.named event nofun
      cases hsub : (H.stateAt m id).subSm with
      | none =>
        have hquiet := hready.chain.quiet hcurr fun sub h => absurd (hsub.symm.trans h) nofun
        refine ⟨true, fun _ => hquiet, Keeps.status ?_⟩
        show H.Keeps P base ⟨m, .run event⟩ _ _ _ _ (if !(base.cells m).isRunning then _ else _) _
        rw [hrunning, if_neg (by simp), if_neg (not_not.mpr hplaced.settled.level), hcurr]
        refine Keeps.currState id hcurr ?_
        simp only [hsub]
        exact hown []
      | some sub =>
        refine ⟨false, nofun, Keeps.status ?_⟩
        show H.Keeps P base ⟨m, .run event⟩ _ _ _ _ (if !(base.cells m).isRunning then _ else _) _
        rw [hrunning, if_neg (by simp), if_neg (not_not.mpr hplaced.settled.level), hcurr]
        refine Keeps.currState id hcurr ?_
        simp only [hsub]
        refine Keeps.sub hctx (hrun sub (lt_of_subSm hsub) event) hrunning hcurr hsub fun ret _ l' w' _ _ hw' => ?_
        refine Keeps.currSub id hcurr hsub ?_ w' hw'
        intro w hw
        show Lib.Safe _ (if (w.cells sub).isTerminated then _ else _) w _
        split
        · refine Keeps.currSub id hcurr hsub ?_ w hw
          refine Keeps.sub hctx (stop_opSafe sub) hrunning hcurr hsub fun _ _ l'' w'' _ hstopped hw'' => ?_
          exact hown _ w'' (hw''.quieten hcurr hsub hstopped)
        · exact Keeps.return hctx hplaced.settled hplaced.named hcurr.symm ret nofun
            (fun _ _ => trivial) w hw

theorem perform_opSafe (call : Call) : H.OpSafe call.machine (H.perform call) fun _ _ _ => True := by
  obtain ⟨m, op⟩ := call
  have hforget : ∀ {p : Prog Bool} {R : World → List Callback → World → Prop}, H.OpSafe m p R →
      H.OpSafe m p fun _ _ _ => True := fun hp P w hready hctx =>
    (hp P w hready hctx).mono fun _ w' h =>
      { h with log := h.log.imp fun _ hl => ⟨hl.1, trivial⟩ }
  cases op with
  | start => exact hforget (start_opSafe _ m (Nat.lt_succ_self m))
  | stop => exact hforget (stop_opSafe m)
  | run event => exact run_opSafe _ m event (Nat.lt_succ_self m)
  | restart =>
    intro P w hready hctx
    refine Lib.Safe.bind ((stop_opSafe m P w hready hctx).mono fun _ w' hstopped => ?_)
    refine (start_opSafe _ m (Nat.lt_succ_self m) P w' hstopped.ready
      fun w'' hagrees => hctx w'' (hstopped.agrees.trans hagrees)).mono fun _ w'' hstarted => ?_
    obtain ⟨l, hl, -⟩ := hstopped.log
    obtain ⟨l', hl', -⟩ := hstarted.log
    refine ⟨hstarted.ready, hstopped.agrees.trans hstarted.agrees, hstarted.opens.trans hstopped.opens,
      l ++ l', ?_, trivial⟩
    rw [hl', hl, append_assoc]

/-- The user calls the top machine, not out of a callback, and whatever is stopped on the way is stopped bare. -/
def TopCalls (H : Hierarchy) (top : MachineId) : Session → Lib.Session.Action Call → Prop :=
  Lib.Session.Admitted (H.passive (H.Orderly top)) fun s call => s.stack = [] ∧ call.machine = top

structure Between (H : Hierarchy) (top : MachineId) (w : World) : Prop where
  ready : H.Ready top w
  above : ∀ m > top, (w.cells m).isRunning = false
  alternate : ∀ m > top, Flow.place m w.log ≠ none

theorem Between.orderly {top : MachineId} (h : H.Between top w) (hagrees : Agrees top w w')
    (hbelow : H.Below top w') : H.Orderly top w' := by
  have habove : ∀ m > top, (w'.cells m).isRunning = false := by
    intro m hm
    rw [hagrees.cells m hm]
    exact h.above m hm
  refine ⟨fun m => ?_, hbelow.chain, habove, fun hstopped m => ?_, hbelow.afresh⟩
  · rcases Nat.lt_or_ge top m with hm | hm
    · rw [hagrees.place m hm]
      exact h.alternate m hm
    · exact hbelow.alternate m hm
  · rcases Nat.lt_or_ge top m with hm | hm
    · exact habove m hm
    · exact hbelow.chain.idle_of_stopped hstopped m hm

/-- **The running machines are a chain** from the top machine, and their enter and exit actions alternate, if every stop
is bare. -/
theorem orderly_of_topCalls {top : MachineId} {actions : List (Lib.Session.Action Call)}
    (hcalls : Lib.Along (Lib.Session.step H.perform) (H.TopCalls top) fresh actions) :
    Lib.Always (Lib.Session.step H.perform) (fun s => H.Orderly top s.world) fresh actions := by
  have hplaced : ∀ m, H.Placed fresh.world m := fun m =>
    ⟨⟨rfl, iff_of_false nofun fun h => h rfl⟩, rfl, fun _ h => by cases h⟩
  have hbetween : H.Between top fresh.world :=
    ⟨⟨.idle fun _ _ => rfl, fun x _ => hplaced x, nofun⟩, fun _ _ => rfl, fun _ _ => nofun⟩
  have horderly : H.Orderly top fresh.world :=
    ⟨fun _ => nofun, .idle fun _ _ => rfl, fun _ _ => rfl, fun _ _ => rfl, nofun⟩
  have hcall : ∀ (s : Session) (c : Call), s.stack = [] ∧ c.machine = top →
      Lib.AtUser (H.passive (H.Orderly top)) (H.Between top) s.stack s.world →
      H.Orderly top s.world → Lib.Safe (H.passive (H.Orderly top)) (H.perform c) s.world fun _ =>
        Lib.AtUser (H.passive (H.Orderly top)) (H.Between top) s.stack := by
    rintro s c ⟨hstack, rfl⟩ huser -
    rw [hstack] at huser ⊢
    have hb : H.Between c.machine s.world := huser
    refine (perform_opSafe c _ s.world hb.ready fun w' => hb.orderly).mono fun _ w' hdone => ?_
    refine ⟨hdone.ready, fun m hm => ?_, fun m hm => ?_⟩
    · rw [hdone.agrees.cells m hm]
      exact hb.above m hm
    · rw [hdone.agrees.place m hm]
      exact hb.alternate m hm
  intro pre hpre s hrun
  exact (Lib.Session.always_of_safe (fun _ => rfl) hcall rfl rfl hbetween horderly hcalls pre hpre
    s hrun).1

instance (w : World) (call : Call) : Decidable (H.StopsBare w call) :=
  inferInstanceAs (Decidable (_ → _ → ∀ state ∈ (w.cells call.machine).currState,
    ∀ sub ∈ (H.stateAt call.machine state).subSm, (w.cells sub).isRunning = false))

instance (P : World → Prop) (w : World) (call : Call) : Decidable ((H.passive P).admits w call) :=
  inferInstanceAs (Decidable (H.StopsBare w call))

instance (top : MachineId) (s : Session) (c : Call) : Decidable (s.stack = [] ∧ c.machine = top) :=
  decidable_of_iff (s.stack.isEmpty ∧ c.machine = top) (and_congr_left' List.isEmpty_iff)

instance (top : MachineId) (s : Session) (a : Lib.Session.Action Call) :
    Decidable (H.TopCalls top s a) :=
  inferInstanceAs (Decidable (Lib.Session.Admitted (H.passive (H.Orderly top))
    (fun s call => s.stack = [] ∧ call.machine = top) s a))

end Hierarchy

/-- Machine 1 hands its state 1 to machine 0, which ends on event 2, and goes on to state 2 on
event 3. -/
def handover : Hierarchy where
  machine m := match m with
    | 0 => { initStateId := 1, states := [{ id := 1, routes := [⟨2, termStateId, false⟩] }] }
    | 1 => {
        initStateId := 1
        states := [{ id := 1, subSm := some 0, routes := [⟨3, 2, false⟩] }, { id := 2 }] }
    | _ + 2 => {}
  built m := match m with
    | 0 => .addRoute 1 2 termStateId false (.newState 1 .new rfl) rfl
    | 1 => .setSubStateMachine 1 0
        (.addRoute 1 3 2 false (.newState 2 (.newState 1 .new rfl) rfl) rfl) rfl
    | _ + 2 => .new
  sub_lt m := match m with
    | 0 => by simp
    | 1 => by simp
    | _ + 2 => by simp

namespace Hierarchy

/-- The steps of a program, with an answer after each callback. -/
def turns : List Nat → List (Lib.Session.Action Call)
  | [] => []
  | [n] => advances n
  | n :: ns => advances n ++ .answer 0 :: turns ns

/-- The sub machine ends, and the top machine is restarted. -/
def restartAfterEnd : List (Lib.Session.Action Call) :=
  .call ⟨1, .start⟩ :: turns [7, 11, 6] ++ .call ⟨1, .run { id := 2 }⟩ :: turns [22, 3, 4, 3, 13, 17] ++
    .call ⟨1, .restart⟩ :: turns [6, 12, 11, 6]

theorem orderly_restartAfterEnd :
    (Lib.run (Lib.Session.step handover.perform) fresh restartAfterEnd).isSome ∧
      Lib.Always (Lib.Session.step handover.perform) (fun s => handover.Orderly 1 s.world) fresh
        restartAfterEnd :=
  ⟨by decide +kernel, orderly_of_topCalls (by decide +kernel)⟩

/-- The top machine is stopped while its sub machine runs. -/
def stopOverSub : List (Lib.Session.Action Call) :=
  .call ⟨1, .start⟩ :: turns [7, 11, 6] ++ .call ⟨1, .stop⟩ :: turns [6, 6]

theorem sub_runs_after_stop :
    ¬Lib.Always (Lib.Session.step nested.perform) (fun s => nested.Orderly 1 s.world) fresh
      stopOverSub := by
  intro halways
  obtain ⟨s, hrun, hleft⟩ := (Option.any_eq_true _ _).mp (show Option.any
    (fun s => decide ((s.world.cells 1).isRunning = false ∧ (s.world.cells 0).isRunning = true))
    (Lib.run (Lib.Session.step nested.perform) fresh stopOverSub) = true by decide)
  obtain ⟨hstopped, hruns⟩ := of_decide_eq_true hleft
  have hquiet := (halways _ (List.prefix_refl _) s hrun).stopped hstopped 0
  exact absurd (hruns.symm.trans hquiet) nofun

end Hierarchy

end Tbox.Flow
