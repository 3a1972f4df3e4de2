import Tbox.Lib.Run

/-!
# Programs that call user code back

A program is a tree: it reads and writes cells, calls the user back and goes on with the answer. In a session the user
may make a further call whenever it has control; the program that called back waits on the stack. `Safe` is the
weakest precondition for a contract on what the user does in a callback, and `always_of_safe` its invariant of
sessions.
-/

open List

namespace Tbox.Lib

inductive Prog (ι ν κ γ α : Type) where
  | pure (a : α)
  | crash
  | get (i : ι) (rest : ν → Prog ι ν κ γ α)
  | set (i : ι) (v : ν) (rest : Prog ι ν κ γ α)
  | callback (c : κ) (rest : Int → Prog ι ν κ γ α)
  | enter (call : γ) (rest : Prog ι ν κ γ α)
  | leave (result : Bool) (rest : Prog ι ν κ γ α)

variable {ι ν κ γ α β : Type}

namespace Prog

def bind : Prog ι ν κ γ α → (α → Prog ι ν κ γ β) → Prog ι ν κ γ β
  | .pure a, f => f a
  | .crash, _ => .crash
  | .get i rest, f => .get i fun v => (rest v).bind f
  | .set i v rest, f => .set i v (rest.bind f)
  | .callback c rest, f => .callback c fun v => (rest v).bind f
  | .enter call rest, f => .enter call (rest.bind f)
  | .leave result rest, f => .leave result (rest.bind f)

instance : Monad (Prog ι ν κ γ) where
  pure := .pure
  bind := .bind

/-- A call, from where it is made to where it returns. -/
def bracket (call : γ) (p : Prog ι ν κ γ Bool) : Prog ι ν κ γ Bool :=
  .enter call (p.bind fun result => .leave result (.pure result))

/-- The program run through, where a callback is answered by what has been called back so far; none
if it crashes. -/
def eval [DecidableEq ι] (answer : List κ → Int) :
    Prog ι ν κ γ α → (ι → ν) → List κ → Option (α × (ι → ν) × List κ)
  | .pure a, cells, log => some (a, cells, log)
  | .crash, _, _ => none
  | .get i rest, cells, log => eval answer (rest (cells i)) cells log
  | .set i v rest, cells, log => eval answer rest (Function.update cells i v) log
  | .callback c rest, cells, log => eval answer (rest (answer (log ++ [c]))) cells (log ++ [c])
  | .enter _ rest, cells, log => eval answer rest cells log
  | .leave _ rest, cells, log => eval answer rest cells log

/-- The program writes to these cells only. -/
def Writes (S : ι → Prop) : Prog ι ν κ γ α → Prop
  | .pure _ | .crash => True
  | .get _ rest => ∀ v, Writes S (rest v)
  | .set i _ rest => S i ∧ Writes S rest
  | .callback _ rest => ∀ v, Writes S (rest v)
  | .enter _ rest | .leave _ rest => Writes S rest

/-- The program writes to these cells and makes these callbacks only. -/
def Confined (S : ι → Prop) (T : κ → Prop) : Prog ι ν κ γ α → Prop
  | .pure _ | .crash => True
  | .get _ rest => ∀ v, Confined S T (rest v)
  | .set i _ rest => S i ∧ Confined S T rest
  | .callback c rest => T c ∧ ∀ v, Confined S T (rest v)
  | .enter _ rest | .leave _ rest => Confined S T rest

/-- The program can end like this, having made these callbacks; while it waits the user does what `rely` allows. -/
def Ends [DecidableEq ι] (rely : (ι → ν) → (ι → ν) → Prop) :
    Prog ι ν κ γ α → (ι → ν) → List (κ × Int) → α → (ι → ν) → Prop
  | .pure a, cells, trace, b, cells' => trace = [] ∧ b = a ∧ cells' = cells
  | .crash, _, _, _, _ => False
  | .get i rest, cells, trace, b, cells' => Ends rely (rest (cells i)) cells trace b cells'
  | .set i v rest, cells, trace, b, cells' => Ends rely rest (Function.update cells i v) trace b cells'
  | .callback c rest, cells, trace, b, cells' => ∃ v mid after,
      rely cells mid ∧ Ends rely (rest v) mid after b cells' ∧ trace = (c, v) :: after
  | .enter _ rest, cells, trace, b, cells' => Ends rely rest cells trace b cells'
  | .leave _ rest, cells, trace, b, cells' => Ends rely rest cells trace b cells'

section Eval

variable [DecidableEq ι] {answer : List κ → Int} {S : ι → Prop} {T : κ → Prop} {p : Prog ι ν κ γ α}
  {f : α → Prog ι ν κ γ β} {cells cells' : ι → ν} {log log' : List κ} {a : α}

theorem eval_bind : (p >>= f).eval answer cells log
    = (p.eval answer cells log).bind fun r => (f r.1).eval answer r.2.1 r.2.2 := by
  show (p.bind f).eval answer cells log = _
  induction p generalizing cells log with
  | pure a => rfl
  | crash => rfl
  | get i rest ih => exact ih _
  | set i v rest ih => exact ih
  | callback c rest ih => exact ih _
  | enter call rest ih => exact ih
  | leave result rest ih => exact ih

theorem eval_bracket (call : γ) (p : Prog ι ν κ γ Bool) :
    (p.bracket call).eval answer cells log = p.eval answer cells log := by
  have hbody : (p.bracket call).eval answer cells log
      = (p >>= fun result => Prog.leave result (.pure result)).eval answer cells log := rfl
  rw [hbody, eval_bind]
  cases p.eval answer cells log <;> rfl

theorem prefix_of_eval (h : p.eval answer cells log = some (a, cells', log')) : log <+: log' := by
  induction p generalizing cells log with
  | pure a =>
    cases h
    exact prefix_refl _
  | crash => cases h
  | get i rest ih => exact ih _ h
  | set i v rest ih => exact ih h
  | callback c rest ih => exact (prefix_append log [c]).trans (ih _ h)
  | enter call rest ih => exact ih h
  | leave result rest ih => exact ih h

omit [DecidableEq ι] in
theorem Confined.bind (hp : p.Confined S T) (hf : ∀ a, (f a).Confined S T) : (p >>= f).Confined S T := by
  show (p.bind f).Confined S T
  induction p with
  | pure a => exact hf a
  | crash => trivial
  | get i rest ih => exact fun v => ih v (hp v)
  | set i v rest ih => exact ⟨hp.1, ih hp.2⟩
  | callback c rest ih => exact ⟨hp.1, fun v => ih v (hp.2 v)⟩
  | enter call rest ih => exact ih hp
  | leave result rest ih => exact ih hp

omit [DecidableEq ι] in
theorem Confined.bracket {p : Prog ι ν κ γ Bool} (call : γ) (hp : p.Confined S T) : (p.bracket call).Confined S T :=
  Confined.bind (f := fun result => Prog.leave result (.pure result)) hp fun _ => trivial

omit [DecidableEq ι] in
theorem Confined.writes (hp : p.Confined S T) : p.Writes S := by
  induction p with
  | pure a => trivial
  | crash => trivial
  | get i rest ih => exact fun v => ih v (hp v)
  | set i v rest ih => exact ⟨hp.1, ih hp.2⟩
  | callback c rest ih => exact fun v => ih v (hp.2 v)
  | enter call rest ih => exact ih hp
  | leave result rest ih => exact ih hp

/-- **The frame rule.** -/
theorem Writes.frame (hp : p.Writes S) (h : p.eval answer cells log = some (a, cells', log')) {i : ι}
    (hi : ¬S i) : cells' i = cells i := by
  induction p generalizing cells log with
  | pure a =>
    cases h
    rfl
  | crash => cases h
  | get j rest ih => exact ih _ (hp _) h
  | set j v rest ih =>
    rw [ih hp.2 h]
    have hne : i ≠ j := fun heq => hi (heq ▸ hp.1)
    exact Function.update_of_ne hne _ _
  | callback c rest ih => exact ih _ (hp _) h
  | enter call rest ih => exact ih hp h
  | leave result rest ih => exact ih hp h

end Eval

section Ends

variable [DecidableEq ι] {rely : (ι → ν) → (ι → ν) → Prop} {S : ι → Prop} {T : κ → Prop} {p : Prog ι ν κ γ α}
  {f : α → Prog ι ν κ γ β} {cells cells' : ι → ν} {trace : List (κ × Int)} {a : α} {b : β}

/-- **The rule of composition** for endings. -/
theorem Ends.of_bind (h : (p >>= f).Ends rely cells trace b cells') : ∃ before a mid after,
    p.Ends rely cells before a mid ∧ (f a).Ends rely mid after b cells' ∧ trace = before ++ after := by
  have hbind : (p.bind f).Ends rely cells trace b cells' := h
  clear h
  induction p generalizing cells trace with
  | pure a => exact ⟨[], a, cells, trace, ⟨rfl, rfl, rfl⟩, hbind, rfl⟩
  | crash => exact hbind.elim
  | get i rest ih => exact ih _ hbind
  | set i v rest ih => exact ih hbind
  | callback c rest ih =>
    obtain ⟨v, answered, later, hrely, hrest, rfl⟩ := hbind
    obtain ⟨before, a, mid, after, hp, hf, rfl⟩ := ih v hrest
    exact ⟨(c, v) :: before, a, mid, after, ⟨v, answered, before, hrely, hp, rfl⟩, hf, rfl⟩
  | enter call rest ih => exact ih hbind
  | leave result rest ih => exact ih hbind

theorem Ends.of_bracket {call : γ} {p : Prog ι ν κ γ Bool} {result : Bool}
    (h : (p.bracket call).Ends rely cells trace result cells') : p.Ends rely cells trace result cells' := by
  have hbody : (p >>= fun result => Prog.leave result (.pure result)).Ends rely cells trace result cells' := h
  obtain ⟨before, a, mid, after, hp, ⟨rfl, rfl, rfl⟩, rfl⟩ := hbody.of_bind
  rw [append_nil]
  exact hp

theorem ends_of_eval (rely : (ι → ν) → (ι → ν) → Prop) {answer : List κ → Int} {log log' : List κ}
    (hrely : ∀ cells, rely cells cells) (h : p.eval answer cells log = some (a, cells', log')) :
    ∃ trace, p.Ends rely cells trace a cells' ∧ log' = log ++ trace.map Prod.fst ∧
      ∀ before c v after, trace = before ++ (c, v) :: after → v = answer (log ++ before.map Prod.fst ++ [c]) := by
  induction p generalizing cells log with
  | pure a =>
    cases h
    exact ⟨[], ⟨rfl, rfl, rfl⟩, (append_nil _).symm, fun before c v after htrace =>
      absurd htrace.symm (append_ne_nil_of_right_ne_nil _ (cons_ne_nil _ _))⟩
  | crash => cases h
  | get i rest ih => exact ih _ h
  | set i v rest ih => exact ih h
  | callback c rest ih =>
    obtain ⟨trace, hends, hlog, hanswers⟩ := ih _ h
    refine ⟨(c, answer (log ++ [c])) :: trace, ⟨_, _, _, hrely cells, hends, rfl⟩, ?_, ?_⟩
    · rw [hlog, map_cons, append_assoc, singleton_append]
    · intro before d v after htrace
      cases before with
      | nil =>
        cases htrace
        rw [map_nil, append_nil]
      | cons first before =>
        obtain ⟨rfl, hrest⟩ := List.cons.inj htrace
        rw [hanswers before d v after hrest, map_cons, append_assoc log [c], singleton_append]
  | enter call rest ih => exact ih h
  | leave result rest ih => exact ih h

/-- **The frame rule** for endings: a cell the program does not write to is only the user's to change. -/
theorem Confined.ends (hp : p.Confined S T) (h : p.Ends rely cells trace a cells') :
    (∀ c ∈ trace, T c.1) ∧ ∀ i, ¬S i → (∀ u v, rely u v → v i = u i) → cells' i = cells i := by
  induction p generalizing cells trace with
  | pure a =>
    obtain ⟨rfl, -, rfl⟩ := h
    exact ⟨fun c hc => absurd hc not_mem_nil, fun _ _ _ => rfl⟩
  | crash => exact h.elim
  | get j rest ih => exact ih _ (hp _) h
  | set j v rest ih =>
    obtain ⟨hcalls, hcells⟩ := ih hp.2 h
    refine ⟨hcalls, fun i hi hkept => ?_⟩
    have hne : i ≠ j := fun heq => hi (heq ▸ hp.1)
    rw [hcells i hi hkept]
    exact Function.update_of_ne hne _ _
  | callback c rest ih =>
    obtain ⟨v, mid, after, hrely, hrest, rfl⟩ := h
    obtain ⟨hcalls, hcells⟩ := ih v (hp.2 v) hrest
    refine ⟨forall_mem_cons.mpr ⟨hp.1, hcalls⟩, fun i hi hkept => ?_⟩
    rw [hcells i hi hkept]
    exact hkept _ _ hrely
  | enter call rest ih => exact ih hp h
  | leave result rest ih => exact ih hp h

end Ends

end Prog

/-- A call that has not returned, with the cells and the number of callbacks at its beginning. -/
structure OpenCall (ι ν γ : Type) where
  call : γ
  before : ι → ν
  logged : Nat

/-- A call that has returned, with the calls it was made under and its callbacks. -/
structure FinishedCall (ι ν κ γ : Type) where
  call : γ
  under : List γ
  before : ι → ν
  after : ι → ν
  callbacks : List κ
  result : Bool

/-- The cells, and what has been called. -/
structure World (ι ν κ γ : Type) where
  cells : ι → ν
  opens : List (OpenCall ι ν γ) := []
  log : List κ := []
  finished : List (FinishedCall ι ν κ γ) := []

namespace World

variable [DecidableEq ι]

def set (w : World ι ν κ γ) (i : ι) (v : ν) : World ι ν κ γ :=
  { w with cells := Function.update w.cells i v }

def note (w : World ι ν κ γ) (c : κ) : World ι ν κ γ := { w with log := w.log ++ [c] }

def enter (w : World ι ν κ γ) (call : γ) : World ι ν κ γ :=
  { w with opens := ⟨call, w.cells, w.log.length⟩ :: w.opens }

/-- The record of the innermost call. -/
def close (w : World ι ν κ γ) (o : OpenCall ι ν γ) (under : List (OpenCall ι ν γ)) (result : Bool) :
    FinishedCall ι ν κ γ :=
  ⟨o.call, under.map OpenCall.call, o.before, w.cells, w.log.drop o.logged, result⟩

def leave (w : World ι ν κ γ) (result : Bool) : World ι ν κ γ :=
  match w.opens with
  | [] => w
  | o :: under => { w with opens := under, finished := w.finished ++ [w.close o under result] }

omit [DecidableEq ι] in
theorem leave_of_opens {w : World ι ν κ γ} {o : OpenCall ι ν γ} {under : List (OpenCall ι ν γ)}
    (hopens : w.opens = o :: under) (result : Bool) :
    w.leave result = { w with opens := under, finished := w.finished ++ [w.close o under result] } := by
  rw [leave, hopens]

end World

/-- A user at work with the programs: whoever has control, and the callbacks that wait below. -/
structure Session (ι ν κ γ : Type) where
  world : World ι ν κ γ
  current : Option (Prog ι ν κ γ Bool) := none
  stack : List (Int → Prog ι ν κ γ Bool) := []

namespace Session

inductive Action (γ : Type) where
  /-- the user makes a call -/
  | call (c : γ)
  /-- the innermost callback returns -/
  | answer (v : Int)
  /-- the program that has control takes a step -/
  | advance
  deriving DecidableEq, Repr

variable [DecidableEq ι]

def advance (s : Session ι ν κ γ) : Prog ι ν κ γ Bool → Option (Session ι ν κ γ)
  | .pure _ => some { s with current := none }
  | .crash => none
  | .get i rest => some { s with current := some (rest (s.world.cells i)) }
  | .set i v rest => some { s with world := s.world.set i v, current := some rest }
  | .callback c rest => some { world := s.world.note c, current := none, stack := rest :: s.stack }
  | .enter call rest => some { s with world := s.world.enter call, current := some rest }
  | .leave result rest => some { s with world := s.world.leave result, current := some rest }

/-- `body` gives the program of a call. -/
def step (body : γ → Prog ι ν κ γ Bool) (s : Session ι ν κ γ) : Action γ → Option (Session ι ν κ γ)
  | .call c =>
    match s.current with
    | none => some { s with current := some (body c) }
    | some _ => none
  | .answer v =>
    match s.current, s.stack with
    | none, rest :: stack => some { s with current := some (rest v), stack := stack }
    | _, _ => none
  | .advance =>
    match s.current with
    | none => none
    | some p => s.advance p

end Session

/-- What is to hold at every moment, which calls may begin, and what holds and is kept in a callback. -/
structure Contract (ι ν κ γ : Type) where
  holds : World ι ν κ γ → Prop
  admits : World ι ν κ γ → γ → Prop
  owed : World ι ν κ γ → Prop
  rely : World ι ν κ γ → World ι ν κ γ → Prop

variable [DecidableEq ι] {C : Contract ι ν κ γ}

/-- From this world the program keeps the contract and ends with the postcondition. -/
def Safe (C : Contract ι ν κ γ) : Prog ι ν κ γ α → World ι ν κ γ → (α → World ι ν κ γ → Prop) → Prop
  | .pure a, w, Q => Q a w
  | .crash, _, _ => False
  | .get i rest, w, Q => Safe C (rest (w.cells i)) w Q
  | .set i v rest, w, Q => C.holds (w.set i v) ∧ Safe C rest (w.set i v) Q
  | .callback c rest, w, Q => C.holds (w.note c) ∧ C.owed (w.note c) ∧
      ∀ v w', C.rely (w.note c) w' → C.owed w' → C.holds w' → Safe C (rest v) w' Q
  | .enter call rest, w, Q => C.admits w call → C.holds (w.enter call) ∧ Safe C rest (w.enter call) Q
  | .leave result rest, w, Q => C.holds (w.leave result) ∧ Safe C rest (w.leave result) Q

section Rules

variable {p : Prog ι ν κ γ α} {f : α → Prog ι ν κ γ β} {w : World ι ν κ γ}
  {Q Q' : α → World ι ν κ γ → Prop}

theorem Safe.mono (h : Safe C p w Q) (hpost : ∀ a w', Q a w' → Q' a w') : Safe C p w Q' := by
  induction p generalizing w with
  | pure a => exact hpost a w h
  | crash => exact h
  | get i rest ih => exact ih _ h
  | set i v rest ih => exact ⟨h.1, ih h.2⟩
  | callback c rest ih =>
    exact ⟨h.1, h.2.1, fun v w' hrely howed hholds => ih v (h.2.2 v w' hrely howed hholds)⟩
  | enter call rest ih => exact fun hadmits => ⟨(h hadmits).1, ih (h hadmits).2⟩
  | leave result rest ih => exact ⟨h.1, ih h.2⟩

/-- **The rule of composition.** -/
theorem Safe.bind {R : β → World ι ν κ γ → Prop}
    (h : Safe C p w fun a w' => Safe C (f a) w' R) : Safe C (p >>= f) w R := by
  induction p generalizing w with
  | pure a => exact h
  | crash => exact h
  | get i rest ih => exact ih _ h
  | set i v rest ih => exact ⟨h.1, ih h.2⟩
  | callback c rest ih =>
    exact ⟨h.1, h.2.1, fun v w' hrely howed hholds => ih v (h.2.2 v w' hrely howed hholds)⟩
  | enter call rest ih => exact fun hadmits => ⟨(h hadmits).1, ih (h hadmits).2⟩
  | leave result rest ih => exact ⟨h.1, ih h.2⟩

/-- **The rule of calls.** -/
theorem Safe.bracket {p : Prog ι ν κ γ Bool} {call : γ} {Q : Bool → World ι ν κ γ → Prop}
    (hbegin : C.admits w call → C.holds (w.enter call))
    (hbody : C.admits w call → Safe C p (w.enter call) fun result w' =>
      C.holds (w'.leave result) ∧ Q result (w'.leave result)) :
    Safe C (p.bracket call) w Q :=
  fun hadmits => ⟨hbegin hadmits, Safe.bind ((hbody hadmits).mono fun _ _ h => h)⟩

end Rules

/-- What holds when the user has control: `top` outside all callbacks, and inside one that it is safe to go on. -/
def AtUser (C : Contract ι ν κ γ) (top : World ι ν κ γ → Prop) :
    List (Int → Prog ι ν κ γ Bool) → World ι ν κ γ → Prop
  | [], w => top w
  | rest :: stack, w => C.owed w ∧ ∀ v w', C.rely w w' → C.owed w' → C.holds w' →
      Safe C (rest v) w' fun _ => AtUser C top stack

/-- What the user does in a callback within the contract leaves the program that waits safe. -/
theorem AtUser.of_rely {top : World ι ν κ γ → Prop} {rest : Int → Prog ι ν κ γ Bool}
    {stack : List (Int → Prog ι ν κ γ Bool)} {w w' : World ι ν κ γ}
    (htrans : ∀ u v w, C.rely u v → C.rely v w → C.rely u w) (h : AtUser C top (rest :: stack) w)
    (hrely : C.rely w w') (howed : C.owed w') : AtUser C top (rest :: stack) w' :=
  ⟨howed, fun v w'' hrely' => h.2 v w'' (htrans _ _ _ hrely hrely')⟩

namespace Session

/-- The calls that begin in this step are ones the contract admits, and the user's are in `calls`. -/
def Admitted (C : Contract ι ν κ γ) (calls : Session ι ν κ γ → γ → Prop) (s : Session ι ν κ γ) :
    Action γ → Prop
  | .call c => calls s c
  | .answer _ => True
  | .advance => ∀ call rest, s.current = some (.enter call rest) → C.admits s.world call

instance [∀ w c, Decidable (C.admits w c)] {calls : Session ι ν κ γ → γ → Prop}
    [∀ s c, Decidable (calls s c)] (s : Session ι ν κ γ) (a : Action γ) :
    Decidable (Admitted C calls s a) :=
  match a with
  | .call c => inferInstanceAs (Decidable (calls s c))
  | .answer _ => .isTrue trivial
  | .advance =>
    match hcurrent : s.current with
    | some (.enter call rest) =>
      decidable_of_iff (C.admits s.world call) ⟨fun h call' rest' heq => by
        rw [hcurrent] at heq
        cases heq
        exact h, fun h => h call rest hcurrent⟩
    | none => .isTrue fun _ _ heq => by
      rw [hcurrent] at heq
      cases heq
    | some (.pure _) | some .crash | some (.get _ _) | some (.set _ _ _) | some (.callback _ _)
    | some (.leave _ _) => .isTrue fun _ _ heq => by
      rw [hcurrent] at heq
      cases heq

structure Sound (C : Contract ι ν κ γ) (top : World ι ν κ γ → Prop) (s : Session ι ν κ γ) : Prop where
  holds : C.holds s.world
  user : s.current = none → AtUser C top s.stack s.world
  program : ∀ p, s.current = some p → Safe C p s.world fun _ => AtUser C top s.stack

variable {top : World ι ν κ γ → Prop} {calls : Session ι ν κ γ → γ → Prop}
  {body : γ → Prog ι ν κ γ Bool} {s t : Session ι ν κ γ} {a : Action γ}

theorem Sound.of_program {p : Prog ι ν κ γ Bool} (hcurrent : s.current = some p)
    (hholds : C.holds s.world) (h : Safe C p s.world fun _ => AtUser C top s.stack) : Sound C top s :=
  ⟨hholds, fun hnone => absurd (hnone.symm.trans hcurrent) nofun,
    fun _ hp => Option.some.inj (hcurrent.symm.trans hp) ▸ h⟩

theorem Sound.of_user (hcurrent : s.current = none) (hholds : C.holds s.world)
    (h : AtUser C top s.stack s.world) : Sound C top s :=
  ⟨hholds, fun _ => h, fun _ hp => absurd (hcurrent.symm.trans hp) nofun⟩

theorem Sound.advance (hs : Sound C top s) {p : Prog ι ν κ γ Bool} (hcurrent : s.current = some p)
    (hadmitted : ∀ call rest, p = .enter call rest → C.admits s.world call)
    (ht : s.advance p = some t) : Sound C top t := by
  have hp := hs.program p hcurrent
  cases p with
  | pure a =>
    cases ht
    exact .of_user rfl hs.holds hp
  | crash => exact hp.elim
  | get i rest =>
    cases ht
    exact .of_program rfl hs.holds hp
  | set i v rest =>
    cases ht
    exact .of_program rfl hp.1 hp.2
  | callback c rest =>
    cases ht
    exact .of_user rfl hp.1 ⟨hp.2.1, hp.2.2⟩
  | enter call rest =>
    cases ht
    have hentered := hp (hadmitted call rest rfl)
    exact .of_program rfl hentered.1 hentered.2
  | leave result rest =>
    cases ht
    exact .of_program rfl hp.1 hp.2

/-- What a session may rely on, at the top and in every callback, outlives each of its steps. -/
theorem Sound.step (hrefl : ∀ w, C.rely w w)
    (hcall : ∀ s c, calls s c → AtUser C top s.stack s.world → C.holds s.world →
      Safe C (body c) s.world fun _ => AtUser C top s.stack)
    (hs : Sound C top s) (hadmitted : Admitted C calls s a) (ht : s.step body a = some t) : Sound C top t := by
  cases a with
  | call c =>
    simp only [Session.step] at ht
    split at ht
    · rename_i hcurrent
      cases ht
      exact .of_program rfl hs.holds (hcall s c hadmitted (hs.user hcurrent) hs.holds)
    · cases ht
  | answer v =>
    simp only [Session.step] at ht
    split at ht
    · rename_i rest stack hcurrent hstack
      cases ht
      have huser := hs.user hcurrent
      rw [hstack] at huser
      exact .of_program rfl hs.holds (huser.2 v _ (hrefl _) huser.1 hs.holds)
    · cases ht
  | advance =>
    simp only [Session.step] at ht
    split at ht
    · cases ht
    · rename_i p hcurrent
      exact hs.advance hcurrent (fun call rest hp => hadmitted call rest (hp ▸ hcurrent)) ht

/-- **The rule of sessions.** If every call the user may make is safe, a session of admitted calls
keeps the contract at every moment and does not crash. -/
theorem always_of_safe (hrefl : ∀ w, C.rely w w)
    (hcall : ∀ s c, calls s c → AtUser C top s.stack s.world → C.holds s.world →
      Safe C (body c) s.world fun _ => AtUser C top s.stack)
    (hcurrent : s.current = none) (hstack : s.stack = []) (htop : top s.world)
    (hholds : C.holds s.world) {actions : List (Action γ)}
    (hadmitted : Along (step body) (Admitted C calls) s actions) :
    Always (step body) (fun s => C.holds s.world ∧ s.current ≠ some .crash) s actions := by
  intro pre hpre t hrun
  have hinit : Sound C top s := .of_user hcurrent hholds (by rw [hstack]; exact htop)
  have hkept : ∀ s a t, Sound C top s → Admitted C calls s a → s.step body a = some t →
      Sound C top t := fun s a t hs ha ht => hs.step hrefl hcall ha ht
  have hsound := run_invariant hkept hinit (hadmitted.of_prefix hpre) hrun
  refine ⟨hsound.holds, fun hcrash => ?_⟩
  exact hsound.program _ hcrash

end Session

end Tbox.Lib
