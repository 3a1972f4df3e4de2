import Tbox.Lib.ListFacts
import Tbox.Main.Module

/-!
# What is brought up is brought down

A module that fails because of a required child has called its own hook already, and nothing undoes that. Where no
required child fails, the ways up and down mirror each other.
-/

open List

namespace Tbox.Main

variable {ι J : Type}

namespace Event

def inited? : Event ι → Option ι
  | .onInit id true => some id
  | _ => none

def started? : Event ι → Option ι
  | .onStart id true => some id
  | _ => none

def stopped? : Event ι → Option ι
  | .onStop id => some id
  | _ => none

def cleaned? : Event ι → Option ι
  | .onCleanup id => some id
  | _ => none

end Event

/-- The modules whose `onInit` succeeded, in the order of the calls. -/
def inited (log : List (Event ι)) : List ι := log.filterMap Event.inited?

def started (log : List (Event ι)) : List ι := log.filterMap Event.started?

def stopped (log : List (Event ι)) : List ι := log.filterMap Event.stopped?

def cleaned (log : List (Event ι)) : List ι := log.filterMap Event.cleaned?

/-- Every hook that succeeded is undone once, later, in the reverse order, and nothing else is. -/
structure Paired (log : List (Event ι)) : Prop where
  inited_once : (inited log).Nodup
  started_once : (started log).Nodup
  stops : stopped log = (started log).reverse
  cleanups : cleaned log = (inited log).reverse
  stop_later : ∀ pre post id, log = pre ++ .onStop id :: post → .onStart id true ∈ pre
  cleanup_later : ∀ pre post id, log = pre ++ .onCleanup id :: post → .onInit id true ∈ pre

section Lifecycle

variable [Config J] (hooks : Hooks ι J)

/-- What is done with the module at the top: it is started where it was initialised, stopped where it
was started, and cleaned up in either case. -/
def Module.lifecycle (m : Module ι) (js : J) : List (Event ι) :=
  let (success, m, log) := m.initialize hooks js
  if success then
    let (success, m, log') := m.start hooks
    if success then
      let (m, log'') := m.stop
      log ++ log' ++ log'' ++ m.cleanup.2
    else log ++ log' ++ m.cleanup.2
  else log

end Lifecycle

mutual

def Module.ids : Module ι → List ι
  | .mk id _ _ children => id :: children.ids

def Children.ids : Children ι → List ι
  | .nil => []
  | .cons child _ rest => child.ids ++ rest.ids

end

mutual

/-- Nothing has been done with the module or those below it. -/
def Module.Fresh : Module ι → Prop
  | .mk _ _ state children => state = .none ∧ children.Fresh

def Children.Fresh : Children ι → Prop
  | .nil => True
  | .cons child _ rest => child.Fresh ∧ rest.Fresh

end

section Add

variable {child : Module ι} {required : Bool}

theorem Children.push_spec (hchild : child.Fresh) : ∀ {cs : Children ι}, cs.Fresh →
    (cs.push child required).Fresh ∧ (cs.push child required).ids = cs.ids ++ child.ids
  | .nil, _ => ⟨⟨hchild, trivial⟩, append_nil _⟩
  | .cons first needed rest, h => by
    obtain ⟨hfresh, hids⟩ := Children.push_spec hchild h.2
    refine ⟨⟨h.1, hfresh⟩, ?_⟩
    rw [Children.push, Children.ids, Children.ids, hids, append_assoc]

/-- A tree that `add` has made larger has still not been used, and has no module twice. -/
theorem Module.add_spec {parent : Module ι} (hparent : parent.Fresh) (hchild : child.Fresh)
    (hids : (parent.ids ++ child.ids).Nodup) :
    (parent.add child required).2.Fresh ∧ (parent.add child required).2.ids.Nodup := by
  cases parent with
  | mk id name state children =>
    have hkept := (nodup_append.mp hids).1
    rw [Module.add]
    split
    · exact ⟨hparent, hkept⟩
    split
    · exact ⟨hparent, hkept⟩
    obtain ⟨hfresh, hpushed⟩ :
        (children.push child required).Fresh ∧ (children.push child required).ids = _ :=
      Children.push_spec hchild hparent.2
    refine ⟨⟨hparent.1, hfresh⟩, ?_⟩
    rw [Module.ids, hpushed]
    exact hids

theorem Module.rename_spec {m : Module ι} (hfresh : m.Fresh) (name : String) :
    (m.rename name).Fresh ∧ (m.rename name).ids = m.ids := by
  cases m
  exact ⟨hfresh, rfl⟩

/-- What can be made of new modules with `add` and `addAs`. -/
inductive Module.Built : Module ι → Prop
  | single (id : ι) (name : String) : Built (.mk id name .none .nil)
  | add {parent child : Module ι} (required : Bool) (hparent : Built parent) (hchild : Built child)
      (hids : (parent.ids ++ child.ids).Nodup) : Built (parent.add child required).2
  | addAs {parent child : Module ι} (name : String) (required : Bool) (hparent : Built parent) (hchild : Built child)
      (hids : (parent.ids ++ child.ids).Nodup) : Built (parent.addAs child name required).2.2

theorem Module.Built.spec {m : Module ι} (h : m.Built) : m.Fresh ∧ m.ids.Nodup := by
  induction h with
  | single id name => exact ⟨⟨rfl, trivial⟩, nodup_singleton id⟩
  | add required hparent hchild hids ihparent ihchild => exact Module.add_spec ihparent.1 ihchild.1 hids
  | addAs name required hparent hchild hids ihparent ihchild =>
    obtain ⟨hfresh, hsame⟩ := Module.rename_spec ihchild.1 name
    exact Module.add_spec ihparent.1 hfresh (hsame ▸ hids)

end Add

section Condition

variable [Config J] (hooks : Hooks ι J)

/-- The part of the configuration a module is initialised with. -/
def Module.part (m : Module ι) (js : J) : J :=
  if m.name = "" then js else Config.get js m.name

def Module.Inits (m : Module ι) (js : J) : Prop :=
  (m.name = "" ∨ Config.contains js m.name = true) ∧ hooks.onInit m.id (m.part js) = true

mutual

/-- Below the modules that are initialised, every required child's own hook succeeds. -/
def Module.RequiredInit : Module ι → J → Prop
  | .mk id name state children, js =>
    (Module.mk id name state children).Inits hooks js →
      children.RequiredInit ((Module.mk id name state children).part js)

def Children.RequiredInit : Children ι → J → Prop
  | .nil, _ => True
  | .cons child required rest, js =>
    (required = true → child.Inits hooks js) ∧ child.RequiredInit js ∧ rest.RequiredInit js

end

mutual

/-- Below the modules that are started, every required child's own hook succeeds. -/
def Module.RequiredStart : Module ι → J → Prop
  | .mk id name state children, js =>
    (Module.mk id name state children).Inits hooks js → hooks.onStart id = true →
      children.RequiredStart ((Module.mk id name state children).part js)

def Children.RequiredStart : Children ι → J → Prop
  | .nil, _ => True
  | .cons child required rest, js =>
    (required = true → hooks.onStart child.id = true) ∧ child.RequiredStart js ∧
      rest.RequiredStart js

end

mutual

/-- `RequiredStart` of modules that have been initialised, read off their states. -/
def Module.RequiredNow : Module ι → Prop
  | .mk id _ state children =>
    state = .inited → hooks.onStart id = true → children.RequiredNow

def Children.RequiredNow : Children ι → Prop
  | .nil => True
  | .cons child required rest =>
    (required = true → child.state = .inited ∧ hooks.onStart child.id = true) ∧
      child.RequiredNow ∧ rest.RequiredNow

end

end Condition

section Steps

variable [Config J] {hooks : Hooks ι J} {id : ι} {name : String} {state : State}
  {children rest : Children ι} {child : Module ι} {required : Bool} {js : J}

theorem Module.initialize_of_inits (h : (Module.mk id name .none children).Inits hooks js) :
    Module.initialize hooks (Module.mk id name .none children) js =
      let below := children.initialize hooks ((Module.mk id name .none children).part js)
      (below.1, .mk id name (if below.1 then .inited else .none) below.2.1, .onInit id true :: below.2.2) := by
  obtain ⟨hconfig, hinit⟩ := h
  have hhas : ¬(name ≠ "" ∧ !Config.contains js name) := by
    rintro ⟨hname, hnot⟩
    rcases hconfig with hempty | hcontains
    · exact hname hempty
    · rw [show Config.contains js name = true from hcontains] at hnot
      cases hnot
  unfold Module.initialize
  rw [if_neg (not_not_intro rfl), if_neg hhas]
  exact if_pos hinit

theorem Module.initialize_of_not_inits (h : ¬(Module.mk id name .none children).Inits hooks js) :
    ∃ log, Module.initialize hooks (Module.mk id name .none children) js
        = (false, .mk id name .none children, log) ∧ ∀ event ∈ log, event = .onInit id false := by
  unfold Module.initialize
  rw [if_neg (not_not_intro rfl)]
  split
  · exact ⟨[], rfl, nofun⟩
  next hhas =>
    refine ⟨[.onInit id false], if_neg fun hinit => h ⟨?_, hinit⟩, fun event hevent => ?_⟩
    · by_contra hnot
      rw [not_or, Bool.not_eq_true] at hnot
      exact hhas ⟨hnot.1, by rw [show Config.contains js name = false from hnot.2]; rfl⟩
    · exact mem_singleton.mp hevent

theorem Children.initialize_of_fail {r : Bool × Module ι × List (Event ι)} (hr : child.initialize hooks js = r)
    (hfail : r.1 = false) :
    Children.initialize hooks (.cons child true rest) js = (false, .cons r.2.1 true rest, r.2.2) := by
  simp [hr, hfail, Children.initialize]

theorem Children.initialize_of_pass {r : Bool × Module ι × List (Event ι)} {r' : Bool × Children ι × List (Event ι)}
    (hr : child.initialize hooks js = r) (hr' : rest.initialize hooks js = r') (h : required = true → r.1 = true) :
    Children.initialize hooks (.cons child required rest) js =
      (r'.1, .cons r.2.1 required r'.2.1, r.2.2 ++ r'.2.2) := by
  have hpass : (!r.1 && required) = false := by
    cases required with
    | false => exact Bool.and_false _
    | true => rw [h rfl]; rfl
  simp [hr, hr', hpass, Children.initialize]

end Steps

section Start

variable {hooks : Hooks ι J} {id : ι} {name : String} {state : State}
  {children rest : Children ι} {child : Module ι} {required : Bool}

theorem Module.start_of_inited (h : hooks.onStart id = true) : (Module.mk id name .inited children).start hooks =
      ((children.start hooks).1,
        .mk id name (if (children.start hooks).1 then .running else .inited) (children.start hooks).2.1,
        .onStart id true :: (children.start hooks).2.2) := by
  rw [Module.start, if_neg (not_not_intro rfl)]
  exact if_pos h

theorem Module.start_of_fail (h : hooks.onStart id = false) : (Module.mk id name .inited children).start hooks =
      (false, .mk id name .inited children, [.onStart id false]) := by
  rw [Module.start, if_neg (not_not_intro rfl)]
  exact if_neg (by rw [h]; exact Bool.false_ne_true)

theorem Module.start_of_ne (h : state ≠ .inited) :
    (Module.mk id name state children).start hooks = (false, .mk id name state children, []) := by
  rw [Module.start, if_pos h]

theorem Children.start_of_fail (hfail : (child.start hooks).1 = false) : (Children.cons child true rest).start hooks =
      (false, .cons (child.start hooks).2.1 true rest, (child.start hooks).2.2) := by
  simp [Children.start, hfail]

theorem Children.start_of_pass (h : required = true → (child.start hooks).1 = true) :
    (Children.cons child required rest).start hooks = ((rest.start hooks).1,
        .cons (child.start hooks).2.1 required (rest.start hooks).2.1,
        (child.start hooks).2.2 ++ (rest.start hooks).2.2) := by
  have hpass : (!(child.start hooks).1 && required) = false := by
    cases required with
    | false => exact Bool.and_false _
    | true => rw [h rfl]; rfl
  simp [Children.start, hpass]

end Start

section Down

variable {id : ι} {name : String} {state : State} {children rest : Children ι} {child : Module ι}
  {required : Bool}

theorem Module.stop_of_ne (h : state ≠ .running) :
    (Module.mk id name state children).stop = (.mk id name state children, []) := by
  rw [Module.stop, if_pos h]

theorem Module.stop_of_running : (Module.mk id name .running children).stop =
      (.mk id name .inited children.stop.1, children.stop.2 ++ [.onStop id]) := by
  rw [Module.stop, if_neg (not_not_intro rfl)]

theorem Module.cleanup_of_none : (Module.mk id name .none children).cleanup = (.mk id name .none children, []) := by
  rw [Module.cleanup, if_pos rfl]

theorem Module.cleanup_of_inited : (Module.mk id name .inited children).cleanup =
      (.mk id name .none children.cleanup.1, children.cleanup.2 ++ [.onCleanup id]) := by
  have hstop : State.inited ≠ .running := by decide
  rw [Module.cleanup, if_neg (by simp), Module.stop_of_ne hstop]
  rfl

theorem Module.cleanup_of_running : (Module.mk id name .running children).cleanup =
      (.mk id name .none children.stop.1.cleanup.1,
        children.stop.2 ++ [.onStop id] ++ children.stop.1.cleanup.2 ++ [.onCleanup id]) := by
  rw [Module.cleanup, if_neg (by simp), Module.stop_of_running]
  rfl

theorem Children.cleanup_cons : (Children.cons child required rest).cleanup =
      (.cons child.cleanup.1 required rest.cleanup.1, rest.cleanup.2 ++ child.cleanup.2) := by
  rw [Children.cleanup]

theorem Module.cleanup_eq_stop_append (m : Module ι) : m.cleanup.2 = m.stop.2 ++ m.stop.1.cleanup.2 := by
  cases m with
  | mk id name state children =>
    cases state with
    | none =>
      have hstop : State.none ≠ .running := by decide
      rw [Module.stop_of_ne hstop]
      rfl
    | inited =>
      have hstop : State.inited ≠ .running := by decide
      rw [Module.stop_of_ne hstop]
      rfl
    | running =>
      rw [Module.cleanup_of_running, Module.stop_of_running, Module.cleanup_of_inited]
      exact append_assoc _ _ _

end Down

mutual

def Module.toClean : Module ι → List ι
  | .mk id _ state children => if state = .none then [] else children.toClean ++ [id]

def Children.toClean : Children ι → List ι
  | .nil => []
  | .cons child _ rest => rest.toClean ++ child.toClean

end

mutual

/-- The modules that `stop` would stop. -/
def Module.toStop : Module ι → List ι
  | .mk id _ state children => if state = .running then children.toStop ++ [id] else []

def Children.toStop : Children ι → List ι
  | .nil => []
  | .cons child _ rest => rest.toStop ++ child.toStop

end

mutual

def Module.stopCount : Module ι → Nat
  | .mk _ _ .none _ => 0
  | .mk _ _ .inited children => children.stopCount
  | .mk _ _ .running children => children.stopCount + 1

def Children.stopCount : Children ι → Nat
  | .nil => 0
  | .cons child _ rest => rest.stopCount + child.stopCount

end

mutual

def Module.Idle : Module ι → Prop
  | .mk _ _ state children => state ≠ .running ∧ children.Idle

def Children.Idle : Children ι → Prop
  | .nil => True
  | .cons child _ rest => child.Idle ∧ rest.Idle

end

mutual

theorem Module.Fresh.idle : ∀ {m : Module ι}, m.Fresh → m.Idle
  | .mk _ _ _ _, h => ⟨by rw [h.1]; decide, Children.Fresh.idle h.2⟩

theorem Children.Fresh.idle : ∀ {cs : Children ι}, cs.Fresh → cs.Idle
  | .nil, _ => trivial
  | .cons _ _ _, h => ⟨Module.Fresh.idle h.1, Children.Fresh.idle h.2⟩

end

theorem Module.Fresh.toClean : ∀ {m : Module ι}, m.Fresh → m.toClean = []
  | .mk _ _ _ _, h => by rw [Module.toClean, if_pos h.1]

theorem Children.Fresh.toClean : ∀ {cs : Children ι}, cs.Fresh → cs.toClean = []
  | .nil, _ => rfl
  | .cons _ _ _, h => by
    rw [Children.toClean, Children.Fresh.toClean h.2, h.1.toClean]
    rfl

mutual

theorem Module.Idle.stopCount : ∀ {m : Module ι}, m.Idle → m.stopCount = 0
  | .mk _ _ .none _, _ => rfl
  | .mk _ _ .inited _, h => Children.Idle.stopCount h.2
  | .mk _ _ .running _, h => absurd rfl h.1

theorem Children.Idle.stopCount : ∀ {cs : Children ι}, cs.Idle → cs.stopCount = 0
  | .nil, _ => rfl
  | .cons _ _ _, h => by
    rw [Children.stopCount, Children.Idle.stopCount h.2, Module.Idle.stopCount h.1]

end

mutual

theorem Module.stop_events : ∀ m : Module ι, ∀ event ∈ m.stop.2, ∃ id, event = .onStop id
  | .mk id name state children => by
    intro event hevent
    by_cases hstate : state = .running
    · subst hstate
      rw [Module.stop_of_running] at hevent
      rcases mem_append.mp hevent with hevent | hevent
      · exact children.stop_events event hevent
      · exact ⟨id, mem_singleton.mp hevent⟩
    · rw [Module.stop_of_ne hstate] at hevent
      cases hevent

theorem Children.stop_events : ∀ cs : Children ι, ∀ event ∈ cs.stop.2, ∃ id, event = .onStop id
  | .nil => nofun
  | .cons child _ rest => by
    intro event hevent
    rcases mem_append.mp hevent with hevent | hevent
    · exact rest.stop_events event hevent
    · exact child.stop_events event hevent

end

mutual

theorem Module.stop_spec : ∀ m : Module ι, stopped m.stop.2 = m.toStop ∧
    m.stop.1.toClean = m.toClean ∧ (stopped m.stop.2).length + m.stop.1.stopCount = m.stopCount
  | .mk id name state children => by
    by_cases hstate : state = .running
    · subst hstate
      obtain ⟨hstop, hclean, hcount⟩ := children.stop_spec
      rw [Module.stop_of_running, Module.toStop, if_pos rfl, Module.toClean, Module.toClean,
        if_neg (by decide), if_neg (by decide), hclean, stopped, filterMap_append,
        Module.stopCount, Module.stopCount]
      refine ⟨congrArg (· ++ [id]) hstop, rfl, ?_⟩
      rw [length_append, ← hcount]
      change (stopped children.stop.2).length + 1 + children.stop.1.stopCount = _
      omega
    · rw [Module.stop_of_ne hstate, Module.toStop, if_neg hstate]
      exact ⟨rfl, rfl, Nat.zero_add _⟩

theorem Children.stop_spec : ∀ cs : Children ι, stopped cs.stop.2 = cs.toStop ∧
    cs.stop.1.toClean = cs.toClean ∧ (stopped cs.stop.2).length + cs.stop.1.stopCount = cs.stopCount
  | .nil => ⟨rfl, rfl, rfl⟩
  | .cons child required rest => by
    obtain ⟨hstop, hclean, hcount⟩ := child.stop_spec
    obtain ⟨hstop', hclean', hcount'⟩ := rest.stop_spec
    have hlog : stopped (Children.cons child required rest).stop.2
        = stopped rest.stop.2 ++ stopped child.stop.2 := filterMap_append
    refine ⟨?_, ?_, ?_⟩
    · rw [hlog, hstop, hstop', Children.toStop]
    · rw [Children.toClean, ← hclean, ← hclean']
      rfl
    · rw [hlog, length_append, Children.stopCount, ← hcount, ← hcount']
      change _ + (rest.stop.1.stopCount + child.stop.1.stopCount) = _
      omega

end

theorem cleaned_stop (cs : Children ι) : cleaned cs.stop.2 = [] := by
  apply filterMap_eq_nil_iff.mpr
  intro event hevent
  obtain ⟨id, rfl⟩ := cs.stop_events event hevent
  rfl

mutual

theorem Module.cleanup_spec (m : Module ι) : cleaned m.cleanup.2 = m.toClean ∧
    (stopped m.cleanup.2).length = m.stopCount ∧
      ∀ event ∈ m.cleanup.2, ∃ id, event = .onStop id ∨ event = .onCleanup id := by
  match m with
  | .mk id name .none children =>
    rw [Module.cleanup_of_none]
    exact ⟨rfl, rfl, nofun⟩
  | .mk id name .inited children =>
    obtain ⟨hclean, hcount, hevents⟩ := children.cleanup_spec
    rw [Module.cleanup_of_inited, Module.toClean, if_neg (by decide), Module.stopCount, ← hclean, ← hcount]
    refine ⟨filterMap_append, ?_, ?_⟩
    · rw [stopped, filterMap_append]
      exact congrArg List.length (append_nil _)
    intro event hevent
    rcases mem_append.mp hevent with hevent | hevent
    · exact hevents event hevent
    · exact ⟨id, .inr (mem_singleton.mp hevent)⟩
  | .mk id name .running children =>
    obtain ⟨hclean, hcount, hevents⟩ := children.stop.1.cleanup_spec
    obtain ⟨-, hsame, hless⟩ := children.stop_spec
    rw [Module.cleanup_of_running, Module.toClean, if_neg (by decide), Module.stopCount, ← hsame,
      ← hclean, ← hless, ← hcount]
    refine ⟨?_, ?_, ?_⟩
    · simp only [cleaned, filterMap_append]
      rw [← cleaned, cleaned_stop]
      rfl
    · simp only [stopped, filterMap_append, length_append]
      change _ + 1 + _ + 0 = _
      omega
    intro event hevent
    rcases mem_append.mp hevent with hevent | hevent
    · rcases mem_append.mp hevent with hevent | hevent
      · rcases mem_append.mp hevent with hevent | hevent
        · obtain ⟨id, h⟩ := children.stop_events event hevent
          exact ⟨id, .inl h⟩
        · exact ⟨id, .inl (mem_singleton.mp hevent)⟩
      · exact hevents event hevent
    · exact ⟨id, .inr (mem_singleton.mp hevent)⟩
  termination_by sizeOf m

theorem Children.cleanup_spec (cs : Children ι) : cleaned cs.cleanup.2 = cs.toClean ∧
    (stopped cs.cleanup.2).length = cs.stopCount ∧
      ∀ event ∈ cs.cleanup.2, ∃ id, event = .onStop id ∨ event = .onCleanup id := by
  match cs with
  | .nil =>
    rw [Children.cleanup]
    exact ⟨rfl, rfl, nofun⟩
  | .cons child required rest =>
    obtain ⟨hclean, hcount, hevents⟩ := child.cleanup_spec
    obtain ⟨hclean', hcount', hevents'⟩ := rest.cleanup_spec
    rw [Children.cleanup_cons, Children.toClean, Children.stopCount, ← hclean, ← hclean', ← hcount, ← hcount']
    refine ⟨filterMap_append, ?_, ?_⟩
    · rw [← length_append]
      exact congrArg List.length filterMap_append
    intro event hevent
    rcases mem_append.mp hevent with hevent | hevent
    · exact hevents' event hevent
    · exact hevents event hevent
  termination_by sizeOf cs

end

section Initialise

variable [Config J] (hooks : Hooks ι J)

structure Module.InitSpec (m : Module ι) (js : J) (r : Bool × Module ι × List (Event ι)) : Prop where
  events : ∀ event ∈ r.2.2, ∃ id success, event = .onInit id success
  id : r.2.1.id = m.id
  ids : r.2.1.ids = m.ids
  among : (inited r.2.2).Sublist m.ids
  idle : r.2.1.Idle
  state : r.2.1.state = if r.1 then .inited else .none
  inits : r.1 = true → m.Inits hooks js
  count : r.2.1.toClean.length ≤ (inited r.2.2).length
  exact : r.2.1.toClean.length = (inited r.2.2).length → m.RequiredInit hooks js
  mirrored : m.RequiredInit hooks js → (m.Inits hooks js → r.1 = true) ∧
    r.2.1.toClean = (inited r.2.2).reverse ∧
      (r.2.1.RequiredNow hooks ↔ m.RequiredStart hooks js)

structure Children.InitSpec (cs : Children ι) (js : J) (r : Bool × Children ι × List (Event ι)) :
    Prop where
  events : ∀ event ∈ r.2.2, ∃ id success, event = .onInit id success
  ids : r.2.1.ids = cs.ids
  among : (inited r.2.2).Sublist cs.ids
  idle : r.2.1.Idle
  count : r.2.1.toClean.length ≤ (inited r.2.2).length
  exact : r.1 = true → r.2.1.toClean.length = (inited r.2.2).length → cs.RequiredInit hooks js
  mirrored : cs.RequiredInit hooks js → r.1 = true ∧
    r.2.1.toClean = (inited r.2.2).reverse ∧
      (r.2.1.RequiredNow hooks ↔ cs.RequiredStart hooks js)

variable {hooks} {id : ι} {name : String} {children rest : Children ι} {child : Module ι}
  {required : Bool} {js : J}

theorem inited_eq_nil {log : List (Event ι)} (h : ∀ event ∈ log, event = .onInit id false) : inited log = [] := by
  apply filterMap_eq_nil_iff.mpr
  intro event hevent
  rw [h event hevent]
  rfl

theorem Module.initSpec_of_not_inits (hidle : children.Idle)
    (h : ¬(Module.mk id name .none children).Inits hooks js) :
    (Module.mk id name .none children).InitSpec hooks js <|
      Module.initialize hooks (Module.mk id name .none children) js := by
  obtain ⟨log, heq, hlog⟩ := Module.initialize_of_not_inits h
  rw [heq]
  have hnone := inited_eq_nil hlog
  refine ⟨fun event hevent => ⟨id, false, hlog event hevent⟩, rfl, rfl, ?_, ⟨nofun, hidle⟩, rfl, nofun,
    ?_, fun _ hinits => absurd hinits h, fun _ => ⟨fun hinits => absurd hinits h, ?_, ?_⟩⟩
  · rw [hnone]
    exact nil_sublist _
  · exact Nat.zero_le _
  · rw [hnone]
    rfl
  · exact iff_of_true nofun fun hinits => absurd hinits h

theorem Module.initSpec_of_inits (h : (Module.mk id name .none children).Inits hooks js)
    (hbelow : children.InitSpec hooks ((Module.mk id name .none children).part js) <|
      children.initialize hooks ((Module.mk id name .none children).part js)) :
    (Module.mk id name .none children).InitSpec hooks js <|
      Module.initialize hooks (Module.mk id name .none children) js := by
  rw [Module.initialize_of_inits h]
  generalize children.initialize hooks ((Module.mk id name .none children).part js) = below at hbelow
  obtain ⟨success, below, log⟩ := below
  have hlog : inited (Event.onInit id true :: log) = id :: inited log := rfl
  refine ⟨?_, rfl, congrArg (id :: ·) hbelow.ids, ?_, ⟨?_, hbelow.idle⟩, rfl, fun _ => h, ?_, ?_, ?_⟩
  · intro event hevent
    rcases mem_cons.mp hevent with rfl | hevent
    · exact ⟨id, true, rfl⟩
    · exact hbelow.events event hevent
  · exact hbelow.among.cons_cons id
  · cases success <;> nofun
  · have hcount := hbelow.count
    cases success with
    | false => exact Nat.zero_le _
    | true =>
      rw [hlog, length_cons]
      change (below.toClean ++ [id]).length ≤ _
      rw [length_append]
      exact Nat.succ_le_succ hcount
  · intro hcount _
    cases success with
    | false => cases hcount
    | true =>
      change (below.toClean ++ [id]).length = (id :: inited log).length at hcount
      rw [length_append, length_cons] at hcount
      exact hbelow.exact rfl (Nat.succ.inj hcount)
  · intro hrequired
    obtain ⟨rfl, hclean, hstart⟩ := hbelow.mirrored (hrequired h)
    refine ⟨fun _ => rfl, ?_, ?_⟩
    · change below.toClean ++ [id] = (id :: inited log).reverse
      rw [reverse_cons, ← hclean]
    constructor
    · intro hnow _ honStart
      exact hstart.mp (hnow rfl honStart)
    · intro hnow _ honStart
      exact hstart.mpr (hnow h honStart)

variable {r : Bool × Module ι × List (Event ι)} {r' : Bool × Children ι × List (Event ι)}

theorem Children.initSpec_of_fail (hr : child.initialize hooks js = r) (hchild : child.InitSpec hooks js r)
    (hrest : rest.Fresh) (hfail : r.1 = false) : (Children.cons child true rest).InitSpec hooks js <|
      Children.initialize hooks (Children.cons child true rest) js := by
  rw [Children.initialize_of_fail hr hfail]
  refine ⟨hchild.events, congrArg (· ++ rest.ids) hchild.ids, ?_, ⟨hchild.idle, hrest.idle⟩, ?_, nofun, ?_⟩
  · exact hchild.among.trans (sublist_append_left _ _)
  · dsimp only
    rw [Children.toClean, hrest.toClean, nil_append]
    exact hchild.count
  rintro ⟨hinits, hrequired, -⟩
  have hok := (hchild.mirrored hrequired).1 (hinits rfl)
  rw [hfail] at hok
  cases hok

theorem Children.initSpec_of_pass (hr : child.initialize hooks js = r) (hr' : rest.initialize hooks js = r')
    (hchild : child.InitSpec hooks js r) (hrest : rest.InitSpec hooks js r') (hpass : required = true → r.1 = true) :
    (Children.cons child required rest).InitSpec hooks js <|
      Children.initialize hooks (Children.cons child required rest) js := by
  rw [Children.initialize_of_pass hr hr' hpass]
  have hlog : inited (r.2.2 ++ r'.2.2) = inited r.2.2 ++ inited r'.2.2 := filterMap_append
  have hcount := hchild.count
  have hcount' := hrest.count
  refine ⟨?_, ?_, ?_, ⟨hchild.idle, hrest.idle⟩, ?_, ?_, ?_⟩
  · intro event hevent
    rcases mem_append.mp hevent with hevent | hevent
    · exact hchild.events event hevent
    · exact hrest.events event hevent
  · rw [Children.ids, Children.ids, hchild.ids, hrest.ids]
  · dsimp only
    rw [hlog]
    exact hchild.among.append hrest.among
  · dsimp only
    rw [hlog, Children.toClean, length_append, length_append]
    omega
  · intro hok htotal
    rw [hlog, Children.toClean, length_append, length_append] at htotal
    exact ⟨fun hrequired => hchild.inits (hpass hrequired), hchild.exact (by omega), hrest.exact hok (by omega)⟩
  · rintro ⟨hinits, hrequired, hrequired'⟩
    obtain ⟨-, hclean, hstart⟩ := hchild.mirrored hrequired
    obtain ⟨hok, hclean', hstart'⟩ := hrest.mirrored hrequired'
    refine ⟨hok, ?_, ?_⟩
    · dsimp only
      rw [hlog, Children.toClean, reverse_append, hclean, hclean']
    have hstate : required = true → r.2.1.state = .inited := by
      intro h
      rw [hchild.state, if_pos (hpass h)]
    rw [Children.RequiredNow, Children.RequiredStart, hstart, hstart', hchild.id]
    constructor
    · rintro ⟨hneeded, hbelow⟩
      exact ⟨fun h => (hneeded h).2, hbelow⟩
    · rintro ⟨hneeded, hbelow⟩
      exact ⟨fun h => ⟨hstate h, hneeded h⟩, hbelow⟩

mutual

/-- What bringing up does, for a module that has not been used. -/
theorem Module.initialize_spec : ∀ {m : Module ι} {js : J} (_ : m.Fresh), m.InitSpec hooks js <| m.initialize hooks js
  | .mk id name state children, js, ⟨hstate, hchildren⟩ => by
    subst hstate
    by_cases hinits : (Module.mk id name .none children).Inits hooks js
    · exact Module.initSpec_of_inits hinits (Children.initialize_spec hchildren)
    · exact Module.initSpec_of_not_inits hchildren.idle hinits

theorem Children.initialize_spec : ∀ {cs : Children ι} {js : J} (_ : cs.Fresh),
    cs.InitSpec hooks js <| cs.initialize hooks js
  | .nil, js, _ =>
    ⟨nofun, rfl, List.Sublist.slnil, trivial, Nat.le_refl _, fun _ _ => trivial, fun _ => ⟨rfl, rfl, Iff.rfl⟩⟩
  | .cons child required rest, js, ⟨hchild, hrest⟩ => by
    obtain ⟨r, hr⟩ : ∃ r, child.initialize hooks js = r := ⟨_, rfl⟩
    have hspec : child.InitSpec hooks js r := hr ▸ Module.initialize_spec hchild
    by_cases hpass : required = true → r.1 = true
    · exact Children.initSpec_of_pass hr rfl hspec (Children.initialize_spec hrest) hpass
    · rw [Classical.not_imp, Bool.not_eq_true] at hpass
      obtain ⟨rfl, hfail⟩ := hpass
      exact Children.initSpec_of_fail hr hspec hrest hfail

end

end Initialise

section Starting

variable (hooks : Hooks ι J)

structure Module.StartSpec (m : Module ι) (r : Bool × Module ι × List (Event ι)) : Prop where
  events : ∀ event ∈ r.2.2, ∃ id success, event = .onStart id success
  among : (started r.2.2).Sublist m.ids
  toClean : r.2.1.toClean = m.toClean
  passes : r.1 = true → m.state = .inited ∧ hooks.onStart m.id = true
  count : r.2.1.stopCount ≤ (started r.2.2).length
  exact : r.2.1.stopCount = (started r.2.2).length → m.RequiredNow hooks
  mirrored : m.RequiredNow hooks → (m.state = .inited → hooks.onStart m.id = true → r.1 = true) ∧
    r.2.1.toStop = (started r.2.2).reverse ∧ r.2.1.stopCount = (started r.2.2).length

structure Children.StartSpec (cs : Children ι) (r : Bool × Children ι × List (Event ι)) : Prop where
  events : ∀ event ∈ r.2.2, ∃ id success, event = .onStart id success
  among : (started r.2.2).Sublist cs.ids
  toClean : r.2.1.toClean = cs.toClean
  count : r.2.1.stopCount ≤ (started r.2.2).length
  exact : r.1 = true → r.2.1.stopCount = (started r.2.2).length → cs.RequiredNow hooks
  mirrored : cs.RequiredNow hooks → r.1 = true ∧
    r.2.1.toStop = (started r.2.2).reverse ∧ r.2.1.stopCount = (started r.2.2).length

variable {hooks} {id : ι} {name : String} {state : State} {children rest : Children ι}
  {child : Module ι} {required : Bool}

theorem Module.startSpec_of_ne (hidle : (Module.mk id name state children).Idle) (h : state ≠ .inited) :
    (Module.mk id name state children).StartSpec hooks ((Module.mk id name state children).start hooks) := by
  rw [Module.start_of_ne h]
  have hstop : (Module.mk id name state children).toStop = [] := by
    rw [Module.toStop, if_neg hidle.1]
  exact ⟨nofun, nil_sublist _, rfl, nofun, hidle.stopCount.le, fun _ hstate => absurd hstate h,
    fun _ => ⟨fun hstate => absurd hstate h, hstop, hidle.stopCount⟩⟩

theorem Module.startSpec_of_fail (hidle : children.Idle) (h : hooks.onStart id = false) :
    (Module.mk id name .inited children).StartSpec hooks ((Module.mk id name .inited children).start hooks) := by
  rw [Module.start_of_fail h]
  have hcount : (Module.mk id name .inited children).stopCount = 0 := hidle.stopCount
  have hnot : ¬hooks.onStart id = true := by
    rw [h]
    exact Bool.false_ne_true
  refine ⟨?_, nil_sublist _, rfl, nofun, hcount.le, fun _ _ honStart => absurd honStart hnot,
    fun _ => ⟨fun _ honStart => absurd honStart hnot, rfl, hcount⟩⟩
  intro event hevent
  exact ⟨id, false, mem_singleton.mp hevent⟩

theorem Module.startSpec_of_onStart (h : hooks.onStart id = true)
    (hbelow : children.StartSpec hooks (children.start hooks)) : (Module.mk id name .inited children).StartSpec hooks
      ((Module.mk id name .inited children).start hooks) := by
  rw [Module.start_of_inited h]
  generalize children.start hooks = below at hbelow
  obtain ⟨success, below, log⟩ := below
  have hlog : started (Event.onStart id true :: log) = id :: started log := rfl
  have hcount := hbelow.count
  refine ⟨?_, hbelow.among.cons_cons id, ?_, fun _ => ⟨rfl, h⟩, ?_, ?_, ?_⟩
  · intro event hevent
    rcases mem_cons.mp hevent with rfl | hevent
    · exact ⟨id, true, rfl⟩
    · exact hbelow.events event hevent
  · have hclean := hbelow.toClean
    cases success <;> exact congrArg (· ++ [id]) hclean
  · rw [hlog, length_cons]
    cases success with
    | false => exact hcount.trans (Nat.le_succ _)
    | true => exact Nat.succ_le_succ hcount
  · intro htotal _ _
    rw [hlog, length_cons] at htotal
    cases success with
    | false =>
      change below.stopCount = _ at htotal
      dsimp only at hcount
      omega
    | true => exact hbelow.exact rfl (Nat.succ.inj htotal)
  · intro hnow
    obtain ⟨rfl, hstop, htotal⟩ := hbelow.mirrored (hnow rfl h)
    refine ⟨fun _ _ => rfl, ?_, congrArg Nat.succ htotal⟩
    change below.toStop ++ [id] = (id :: started log).reverse
    rw [reverse_cons, ← hstop]

theorem Children.startSpec_of_fail (hchild : child.StartSpec hooks (child.start hooks))
    (hrest : rest.Idle) (hfail : (child.start hooks).1 = false) :
    (Children.cons child true rest).StartSpec hooks ((Children.cons child true rest).start hooks) := by
  rw [Children.start_of_fail hfail]
  refine ⟨hchild.events, ?_, ?_, ?_, nofun, ?_⟩
  · exact hchild.among.trans (sublist_append_left _ _)
  · rw [Children.toClean, Children.toClean, hchild.toClean]
  · rw [Children.stopCount, hrest.stopCount, Nat.zero_add]
    exact hchild.count
  rintro ⟨hneeded, hnow, -⟩
  have hok := (hchild.mirrored hnow).1 (hneeded rfl).1 (hneeded rfl).2
  rw [hfail] at hok
  cases hok

theorem Children.startSpec_of_pass (hchild : child.StartSpec hooks (child.start hooks))
    (hrest : rest.StartSpec hooks (rest.start hooks)) (hpass : required = true → (child.start hooks).1 = true) :
    (Children.cons child required rest).StartSpec hooks ((Children.cons child required rest).start hooks) := by
  rw [Children.start_of_pass hpass]
  have hlog : started ((child.start hooks).2.2 ++ (rest.start hooks).2.2)
      = started (child.start hooks).2.2 ++ started (rest.start hooks).2.2 := filterMap_append
  have hcount := hchild.count
  have hcount' := hrest.count
  refine ⟨?_, ?_, ?_, ?_, ?_, ?_⟩
  · intro event hevent
    rcases mem_append.mp hevent with hevent | hevent
    · exact hchild.events event hevent
    · exact hrest.events event hevent
  · dsimp only
    rw [hlog]
    exact hchild.among.append hrest.among
  · rw [Children.toClean, Children.toClean, hchild.toClean, hrest.toClean]
  · dsimp only
    rw [hlog, Children.stopCount, length_append]
    omega
  · intro hok htotal
    rw [hlog, Children.stopCount, length_append] at htotal
    exact ⟨fun hrequired => hchild.passes (hpass hrequired), hchild.exact (by omega), hrest.exact hok (by omega)⟩
  · rintro ⟨-, hnow, hnow'⟩
    obtain ⟨-, hstop, htotal⟩ := hchild.mirrored hnow
    obtain ⟨hok, hstop', htotal'⟩ := hrest.mirrored hnow'
    refine ⟨hok, ?_, ?_⟩
    · dsimp only
      rw [hlog, Children.toStop, reverse_append, hstop, hstop']
    · dsimp only
      rw [hlog, Children.stopCount, length_append, htotal, htotal', Nat.add_comm]

mutual

theorem Module.start_spec : ∀ {m : Module ι}, m.Idle → m.StartSpec hooks (m.start hooks)
  | .mk id name state children, hidle => by
    by_cases hstate : state = .inited
    · subst hstate
      cases honStart : hooks.onStart id with
      | false => exact Module.startSpec_of_fail hidle.2 honStart
      | true => exact Module.startSpec_of_onStart honStart (Children.start_spec hidle.2)
    · exact Module.startSpec_of_ne hidle hstate

theorem Children.start_spec : ∀ {cs : Children ι}, cs.Idle → cs.StartSpec hooks (cs.start hooks)
  | .nil, _ =>
    ⟨nofun, List.Sublist.slnil, rfl, Nat.le_refl _, fun _ _ => trivial, fun _ => ⟨rfl, rfl, rfl⟩⟩
  | .cons child required rest, hidle => by
    have hspec : child.StartSpec hooks (child.start hooks) := Module.start_spec hidle.1
    by_cases hpass : required = true → (child.start hooks).1 = true
    · exact Children.startSpec_of_pass hspec (Children.start_spec hidle.2) hpass
    · rw [Classical.not_imp, Bool.not_eq_true] at hpass
      obtain ⟨rfl, hfail⟩ := hpass
      exact Children.startSpec_of_fail hspec hidle.2 hfail

end

end Starting

section Life

variable [Config J] {hooks : Hooks ι J} {m : Module ι} {js : J}

theorem Module.lifecycle_eq {r : Bool × Module ι × List (Event ι)} (hr : m.initialize hooks js = r) :
    m.lifecycle hooks js = if r.1 then
      r.2.2 ++ (r.2.1.start hooks).2.2 ++ (r.2.1.start hooks).2.1.cleanup.2 else r.2.2 := by
  rw [Module.lifecycle, hr]
  dsimp only
  split
  · split
    · rw [append_assoc _ (Module.stop _).2, ← Module.cleanup_eq_stop_append]
    · rfl
  · rfl

theorem prefix_of_not_mem {α : Type} {first second pre post : List α} {x : α}
    (h : first ++ second = pre ++ x :: post) (hx : x ∉ first) : first <+: pre := by
  rcases append_eq_append_iff.mp h with ⟨mid, rfl, -⟩ | ⟨mid, rfl, hmid⟩
  · exact prefix_append _ _
  cases mid with
  | nil => exact (append_nil pre).symm ▸ prefix_refl _
  | cons y mid =>
    obtain ⟨rfl, -⟩ := List.cons.inj hmid
    exact absurd (mem_append_right _ mem_cons_self) hx

theorem mem_stopped {log : List (Event ι)} {id : ι} : id ∈ stopped log ↔ .onStop id ∈ log := by
  rw [stopped, mem_filterMap]
  constructor
  · rintro ⟨event, hevent, heq⟩
    cases event <;> cases heq
    exact hevent
  · intro h
    exact ⟨_, h, rfl⟩

theorem mem_cleaned {log : List (Event ι)} {id : ι} : id ∈ cleaned log ↔ .onCleanup id ∈ log := by
  rw [cleaned, mem_filterMap]
  constructor
  · rintro ⟨event, hevent, heq⟩
    cases event <;> cases heq
    exact hevent
  · intro h
    exact ⟨_, h, rfl⟩

theorem mem_started {log : List (Event ι)} {id : ι} : id ∈ started log ↔ .onStart id true ∈ log := by
  rw [started, mem_filterMap]
  constructor
  · rintro ⟨event, hevent, heq⟩
    rcases event with _ | ⟨_, _ | _⟩ | _ | _ <;> cases heq
    exact hevent
  · intro h
    exact ⟨_, h, rfl⟩

theorem mem_inited {log : List (Event ι)} {id : ι} : id ∈ inited log ↔ .onInit id true ∈ log := by
  rw [inited, mem_filterMap]
  constructor
  · rintro ⟨event, hevent, heq⟩
    rcases event with ⟨_, _ | _⟩ | _ | _ | _ <;> cases heq
    exact hevent
  · intro h
    exact ⟨_, h, rfl⟩

theorem paired_iff {up begun down : List (Event ι)} (hup : ∀ event ∈ up, ∃ id success, event = .onInit id success)
    (hbegun : ∀ event ∈ begun, ∃ id success, event = .onStart id success)
    (hdown : ∀ event ∈ down, ∃ id, event = .onStop id ∨ event = .onCleanup id)
    (honce : (inited up).Nodup) (honce' : (started begun).Nodup) : Paired (up ++ begun ++ down) ↔
      stopped down = (started begun).reverse ∧ cleaned down = (inited up).reverse := by
  have hnil : ∀ {log : List (Event ι)} {f : Event ι → Option ι},
      (∀ event ∈ log, f event = none) → log.filterMap f = [] :=
    fun h => filterMap_eq_nil_iff.mpr h
  have hbegun_inited : inited begun = [] := hnil fun event hevent => by
    obtain ⟨id, success, rfl⟩ := hbegun event hevent
    rfl
  have hdown_inited : inited down = [] := hnil fun event hevent => by
    obtain ⟨id, rfl | rfl⟩ := hdown event hevent <;> rfl
  have hup_started : started up = [] := hnil fun event hevent => by
    obtain ⟨id, success, rfl⟩ := hup event hevent
    rfl
  have hdown_started : started down = [] := hnil fun event hevent => by
    obtain ⟨id, rfl | rfl⟩ := hdown event hevent <;> rfl
  have hinited : inited (up ++ begun ++ down) = inited up := by
    rw [inited, filterMap_append, filterMap_append, ← inited, ← inited, ← inited,
      hbegun_inited, hdown_inited, append_nil, append_nil]
  have hstarted : started (up ++ begun ++ down) = started begun := by
    rw [started, filterMap_append, filterMap_append, ← started, ← started, ← started,
      hup_started, hdown_started, append_nil, nil_append]
  have hfirst : ∀ event ∈ up ++ begun, event.stopped? = none ∧ event.cleaned? = none := by
    intro event hevent
    rcases mem_append.mp hevent with hevent | hevent
    · obtain ⟨id, success, rfl⟩ := hup event hevent
      exact ⟨rfl, rfl⟩
    · obtain ⟨id, success, rfl⟩ := hbegun event hevent
      exact ⟨rfl, rfl⟩
  have hstopped : stopped (up ++ begun ++ down) = stopped down := by
    have hnone : stopped (up ++ begun) = [] := hnil fun event hevent => (hfirst event hevent).1
    rw [stopped, filterMap_append, ← stopped, ← stopped, hnone, nil_append]
  have hcleaned : cleaned (up ++ begun ++ down) = cleaned down := by
    have hnone : cleaned (up ++ begun) = [] := hnil fun event hevent => (hfirst event hevent).2
    rw [cleaned, filterMap_append, ← cleaned, ← cleaned, hnone, nil_append]
  constructor
  · intro h
    have hstops := h.stops
    have hcleanups := h.cleanups
    rw [hstopped, hstarted] at hstops
    rw [hcleaned, hinited] at hcleanups
    exact ⟨hstops, hcleanups⟩
  · rintro ⟨hstops, hcleanups⟩
    refine ⟨hinited ▸ honce, hstarted ▸ honce', ?_, ?_, ?_, ?_⟩
    · rw [hstopped, hstarted, hstops]
    · rw [hcleaned, hinited, hcleanups]
    · intro pre post id hsplit
      have hnot : Event.onStop id ∉ up ++ begun := fun hmem => nomatch (hfirst _ hmem).1
      have hmem : id ∈ stopped down := by
        rw [← hstopped, mem_stopped, hsplit]
        exact mem_append_right _ mem_cons_self
      rw [hstops, mem_reverse, mem_started] at hmem
      exact (prefix_of_not_mem hsplit hnot).subset (mem_append_right _ hmem)
    · intro pre post id hsplit
      have hnot : Event.onCleanup id ∉ up ++ begun := fun hmem => nomatch (hfirst _ hmem).2
      have hmem : id ∈ cleaned down := by
        rw [← hcleaned, mem_cleaned, hsplit]
        exact mem_append_right _ mem_cons_self
      rw [hcleanups, mem_reverse, mem_inited] at hmem
      exact (prefix_of_not_mem hsplit hnot).subset (mem_append_left _ hmem)

theorem Module.requiredStart_of_not_inits (h : ¬m.Inits hooks js) : m.RequiredStart hooks js := by
  cases m with
  | mk id name state children => exact fun hinits => absurd hinits h

theorem Module.toClean_of_none (h : m.state = .none) : m.toClean = [] := by
  cases m with
  | mk id name state children => exact if_pos h

/-- **What is brought up is brought down, exactly where no required child fails.** -/
theorem Module.lifecycle_paired_iff (hfresh : m.Fresh) (hids : m.ids.Nodup) :
    Paired (m.lifecycle hooks js) ↔ m.RequiredInit hooks js ∧ m.RequiredStart hooks js := by
  obtain ⟨r, hr⟩ : ∃ r, m.initialize hooks js = r := ⟨_, rfl⟩
  have hinit : m.InitSpec hooks js r := hr ▸ Module.initialize_spec hfresh
  have honce : (inited r.2.2).Nodup := hids.sublist hinit.among
  rw [Module.lifecycle_eq hr]
  cases hok : r.1 with
  | false =>
    have hnone : r.2.1.toClean = [] :=
      Module.toClean_of_none (by rw [hinit.state, hok]; rfl)
    have hparts : Paired (r.2.2 ++ [] ++ []) ↔ _ :=
      paired_iff hinit.events nofun nofun honce List.nodup_nil
    rw [List.append_nil, List.append_nil] at hparts
    rw [if_neg Bool.false_ne_true, hparts]
    constructor
    · rintro ⟨-, hclean⟩
      have hempty : (inited r.2.2).length = 0 := by
        rw [← List.length_reverse, ← hclean]
        rfl
      have hrequired := hinit.exact (by rw [hnone, hempty]; rfl)
      refine ⟨hrequired, Module.requiredStart_of_not_inits fun hinits => ?_⟩
      rw [(hinit.mirrored hrequired).1 hinits] at hok
      cases hok
    · rintro ⟨hrequired, -⟩
      exact ⟨rfl, hnone.symm.trans (hinit.mirrored hrequired).2.1⟩
  | true =>
    have hstart : Module.StartSpec hooks _ (r.2.1.start hooks) :=
      Module.start_spec hinit.idle
    have honce' : (started (r.2.1.start hooks).2.2).Nodup :=
      (hinit.ids ▸ hids).sublist hstart.among
    obtain ⟨hclean, hcount, hdown⟩ :=
      (r.2.1.start hooks).2.1.cleanup_spec
    rw [if_pos rfl, paired_iff hinit.events hstart.events hdown honce honce', hclean, hstart.toClean]
    constructor
    · rintro ⟨hstops, hcleanups⟩
      have hrequired := hinit.exact (by rw [hcleanups, List.length_reverse])
      refine ⟨hrequired, (hinit.mirrored hrequired).2.2.mp (hstart.exact ?_)⟩
      rw [← hcount, hstops, List.length_reverse]
    · rintro ⟨hrequired, hrequired'⟩
      obtain ⟨-, hcleanups, hnow⟩ := hinit.mirrored hrequired
      obtain ⟨-, hstop, htotal⟩ := hstart.mirrored (hnow.mpr hrequired')
      refine ⟨?_, hcleanups⟩
      -- what `stop` stops is all there is to stop
      have hstopped := congrArg stopped
        (r.2.1.start hooks).2.1.cleanup_eq_stop_append
      rw [stopped, stopped, List.filterMap_append, ← stopped, ← stopped, ← stopped,
        (Module.stop_spec _).1, hstop] at hstopped
      have hlength := congrArg List.length hstopped
      rw [hcount, htotal, List.length_append, List.length_reverse] at hlength
      have hrest := List.eq_nil_of_length_eq_zero (Nat.left_eq_add.mp hlength)
      rw [hstopped, hrest, List.append_nil]

end Life

section Runs

/-- A configuration that has every field. -/
local instance : Config Unit := ⟨fun _ _ => true, fun _ _ => ()⟩

/-- The top module with a required child, and an optional one that has a required child itself. -/
def threeApps : Module Nat :=
  .mk 0 "" .none (.cons (.mk 1 "log" .none .nil) true
    (.cons (.mk 2 "web" .none (.cons (.mk 3 "auth" .none .nil) true .nil)) false .nil))

/-- The optional child does not start, and nothing is started below it. -/
def webFails : Hooks Nat Unit := ⟨fun _ _ => true, fun id => id != 2⟩

theorem built_threeApps : threeApps.Built :=
  .add false (.add true (.single 0 "") (.single 1 "log") (by decide))
    (.add true (.single 2 "web") (.single 3 "auth") (by decide)) (by decide)

theorem threeApps_paired : Paired (threeApps.lifecycle webFails ()) := by
  refine (Module.lifecycle_paired_iff built_threeApps.spec.1 built_threeApps.spec.2).mpr ⟨?_, ?_⟩
  · exact fun _ => ⟨fun _ => ⟨.inr rfl, rfl⟩, fun _ => trivial, nofun,
      ⟨fun _ => ⟨fun _ => ⟨.inr rfl, rfl⟩, fun _ => trivial, trivial⟩, trivial⟩⟩
  · exact fun _ _ => ⟨fun _ => rfl, fun _ _ => trivial, nofun, ⟨nofun, trivial⟩⟩

/-- The required child is not initialised: then the top module has been and is never cleaned up. -/
def logFails : Hooks Nat Unit := ⟨fun id _ => id != 1, fun _ => true⟩

theorem threeApps_not_paired : threeApps.Fresh ∧ threeApps.ids.Nodup ∧
    inited (threeApps.lifecycle logFails ()) = [0] ∧ cleaned (threeApps.lifecycle logFails ()) = [] ∧
    ¬Paired (threeApps.lifecycle logFails ()) := by
  have hinited : inited (threeApps.lifecycle logFails ()) = [0] := by decide
  have hcleaned : cleaned (threeApps.lifecycle logFails ()) = [] := by decide
  refine ⟨built_threeApps.spec.1, built_threeApps.spec.2, hinited, hcleaned, fun h => ?_⟩
  have hcleanups := h.cleanups
  rw [hinited, hcleaned] at hcleanups
  cases hcleanups

end Runs

end Tbox.Main
