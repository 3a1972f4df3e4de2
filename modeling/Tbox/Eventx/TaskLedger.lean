import Tbox.Eventx.ThreadPool

/-!
# The task ledger

What the pool keeps about its tasks, without queues, locks and threads. A ledger grows by one task or moves one along
`Phase.Next`; that the cabinet, the set of executing tokens and the workers reflect the phases answers every question
`getTaskStatus` and `cancel` ask.
-/

open Option

namespace Tbox.Eventx

open Cabinet (Token)

open Relation (ReflTransGen)

namespace Phase

inductive Next : Phase → Phase → Prop
  | pop : Next queued popped
  | start : Next popped executing
  | finish : Next executing finished
  | retire : Next finished done
  | cancel : Next queued cancelled
  | drop : Next queued dropped

def isHeld : Phase → Bool
  | popped | executing | finished => true
  | _ => false

def isDoing : Phase → Bool
  | executing | finished => true
  | _ => false

def hasStarted : Phase → Bool
  | executing | finished | done => true
  | _ => false

def isSettled : Phase → Bool
  | finished | done | cancelled => true
  | _ => false

theorem Next.ne_queued {p q : Phase} (h : p.Next q) : q ≠ .queued := by cases h <;> decide

end Phase

def Task.enter (task : Task) (phase : Phase) : Task :=
  { task with
    phase := phase
    started := if phase = .executing then task.started + 1 else task.started }

/-- The tasks, and what the pool says about them. -/
@[ext]
structure Ledger where
  tasks : List Task
  doing : Finset Token
  view : Token → Option (Option TaskId)
  lastId : Nat
  held : TaskId → Phase → Nat

namespace Ledger

variable {l l' : Ledger} {k j : TaskId} {task : Task} {phase : Phase} {token : Token}

def submit (l : Ledger) (token : Token) (mainCb : Bool) : Ledger :=
  { l with
    tasks := l.tasks ++ [{ token := token, mainCb := mainCb }]
    view := Function.update l.view token (some (some l.tasks.length))
    lastId := token.id }

def doingAfter (doing : Finset Token) (token : Token) : Phase → Finset Token
  | .executing => insert token doing
  | .done => doing.erase token
  | _ => doing

def move (l : Ledger) (k : TaskId) (task : Task) (phase : Phase) : Ledger :=
  { tasks := l.tasks.modify k (·.enter phase)
    doing := doingAfter l.doing task.token phase
    view := if task.phase = .queued then Function.update l.view task.token none else l.view
    lastId := l.lastId
    held := fun j p => if j = k then (if p.isHeld ∧ p = phase then 1 else 0) else l.held j p }

theorem view_submit (mainCb : Bool) : (l.submit token mainCb).view
    = Function.update l.view token (some (some l.tasks.length)) := rfl

theorem view_move : (l.move k task phase).view
    = if task.phase = .queued then Function.update l.view task.token none else l.view := rfl

inductive Step (l : Ledger) : Ledger → Prop
  | submit (token : Token) (mainCb : Bool) (hfresh : l.view token = none)
      (hid : l.lastId ≠ Cabinet.sizeMax → token.id = l.lastId + 1) : Step l (l.submit token mainCb)
  | move (k : TaskId) (task : Task) (phase : Phase) (htask : l.tasks[k]? = some task)
      (hnext : task.phase.Next phase) : Step l (l.move k task phase)

structure Inv (l : Ledger) : Prop where
  stored : ∀ token obj, l.view token = some obj →
    ∃ (k : TaskId) (task : Task),
      obj = some k ∧ l.tasks[k]? = some task ∧ task.token = token ∧ task.phase = .queued
  queued : ∀ (k : TaskId) (task : Task), l.tasks[k]? = some task → task.phase = .queued →
    l.view task.token = some (some k)
  held : ∀ k phase,
    l.held k phase = if phase.isHeld ∧ l.tasks[k]?.map Task.phase = some phase then 1 else 0
  started : ∀ (k : TaskId) (task : Task), l.tasks[k]? = some task →
    task.started = if task.phase.hasStarted then 1 else 0

theorem getElem?_submit {mainCb : Bool} (htask : (l.submit token mainCb).tasks[k]? = some task) :
    l.tasks[k]? = some task ∨ k = l.tasks.length ∧ task = { token := token, mainCb := mainCb } := by
  by_cases hk : k < l.tasks.length
  · left
    rw [submit, List.getElem?_append_left hk] at htask
    exact htask
  · right
    rw [submit, List.getElem?_append_right (Nat.not_lt.mp hk)] at htask
    obtain ⟨hlt, htask⟩ := List.getElem?_eq_some_iff.mp htask
    have hk' : k - l.tasks.length < 1 := hlt
    have hlast : k - l.tasks.length = 0 := Nat.lt_one_iff.mp hk'
    exact ⟨Nat.le_antisymm (Nat.sub_eq_zero_iff_le.mp hlast) (Nat.not_lt.mp hk), by simpa using htask.symm⟩

theorem getElem?_submit_of_some {mainCb : Bool} (htask : l.tasks[k]? = some task) :
    (l.submit token mainCb).tasks[k]? = some task := by
  rw [submit, List.getElem?_append_left (List.getElem?_eq_some_iff.mp htask).1]
  exact htask

theorem getElem?_move_self (phase : Phase) (htask : l.tasks[k]? = some task) :
    (l.move k task phase).tasks[k]? = some (task.enter phase) := by
  show (l.tasks.modify k _)[k]? = _
  rw [List.getElem?_modify_eq, htask]
  rfl

theorem getElem?_move_ne (hj : j ≠ k) : (l.move k task phase).tasks[j]? = l.tasks[j]? := by
  exact List.getElem?_modify_ne _ _ (Ne.symm hj)

theorem inv_submit (hl : l.Inv) (hfresh : l.view token = none) (mainCb : Bool) : (l.submit token mainCb).Inv := by
  have hlast : (l.submit token mainCb).tasks[l.tasks.length]?
      = some { token := token, mainCb := mainCb } := by
    rw [submit, List.getElem?_concat_length]
  refine ⟨fun other obj hview => ?_, fun k task htask hphase => ?_, fun k phase => ?_, fun k task htask => ?_⟩
  · by_cases hother : other = token
    · subst hother
      rw [view_submit, Function.update_self] at hview
      exact ⟨_, _, (some.inj hview).symm, hlast, rfl, rfl⟩
    · rw [view_submit, Function.update_of_ne hother] at hview
      obtain ⟨k, task, hobj, htask, htoken, hphase⟩ := hl.stored other obj hview
      exact ⟨k, task, hobj, getElem?_submit_of_some htask, htoken, hphase⟩
  · rcases getElem?_submit htask with hbefore | ⟨rfl, rfl⟩
    · have hview := hl.queued k task hbefore hphase
      have hother : task.token ≠ token := by
        rintro rfl
        rw [hfresh] at hview
        cases hview
      rw [view_submit, Function.update_of_ne hother, hview]
    · exact Function.update_self _ _ _
  · have hheld := hl.held k phase
    by_cases hk : k < l.tasks.length
    · rw [submit, List.getElem?_append_left hk]
      exact hheld
    · rw [List.getElem?_eq_none (Nat.not_lt.mp hk)] at hheld
      refine hheld.trans ((if_neg fun h => by cases h.2).trans (if_neg fun h => ?_).symm)
      obtain ⟨task, htask, rfl⟩ := map_eq_some_iff.mp h.2
      rcases getElem?_submit htask with hbefore | ⟨-, rfl⟩
      · exact hk (List.getElem?_eq_some_iff.mp hbefore).1
      · cases h.1
  · rcases getElem?_submit htask with hbefore | ⟨-, rfl⟩
    · exact hl.started k task hbefore
    · rfl

theorem eq_of_token_eq (hl : l.Inv) {other : Task} (htask : l.tasks[k]? = some task)
    (hphase : task.phase = .queued) (hother : l.tasks[j]? = some other)
    (hotherPhase : other.phase = .queued) (htoken : other.token = task.token) : j = k := by
  have hview := hl.queued j other hother hotherPhase
  rw [htoken, hl.queued k task htask hphase] at hview
  exact (some.inj (some.inj hview)).symm

theorem started_enter {next : Phase} (hnext : task.phase.Next next)
    (hstarted : task.started = if task.phase.hasStarted then 1 else 0) :
    (task.enter next).started = if next.hasStarted then 1 else 0 := by
  generalize hphase : task.phase = phase at hnext hstarted
  cases hnext <;> simp_all [Task.enter, Phase.hasStarted]

theorem inv_move (hl : l.Inv) (htask : l.tasks[k]? = some task) (hnext : task.phase.Next phase) :
    (l.move k task phase).Inv := by
  have hself := getElem?_move_self phase htask
  refine ⟨fun token obj hview => ?_, fun j other hother hphase => ?_, fun j p => ?_, fun j other hother => ?_⟩
  · -- the token that is left in the cabinet belongs to another task
    have hbefore : l.view token = some obj ∧ (task.phase = .queued → token ≠ task.token) := by
      by_cases hqueued : task.phase = .queued
      · rw [view_move, if_pos hqueued] at hview
        by_cases htoken : token = task.token
        · rw [htoken, Function.update_self] at hview
          cases hview
        · rw [Function.update_of_ne htoken] at hview
          exact ⟨hview, fun _ => htoken⟩
      · rw [view_move, if_neg hqueued] at hview
        exact ⟨hview, fun h => absurd h hqueued⟩
    obtain ⟨j, other, hobj, hother, htoken, hphase⟩ := hl.stored token obj hbefore.1
    have hj : j ≠ k := by
      rintro rfl
      cases htask.symm.trans hother
      exact hbefore.2 hphase htoken.symm
    exact ⟨j, other, hobj, (getElem?_move_ne hj).trans hother, htoken, hphase⟩
  · have hj : j ≠ k := by
      rintro rfl
      cases hself.symm.trans hother
      exact hnext.ne_queued hphase
    rw [getElem?_move_ne hj] at hother
    have hview := hl.queued j other hother hphase
    rw [view_move]
    split
    · rename_i hqueued
      rw [Function.update_of_ne, hview]
      exact fun htoken => hj (eq_of_token_eq hl htask hqueued hother hphase htoken)
    · exact hview
  · by_cases hj : j = k
    · subst hj
      rw [hself]
      show (if j = j then _ else _) = _
      rw [if_pos rfl]
      exact if_congr (and_congr_right fun _ => ⟨fun h => by rw [h]; rfl, fun h => (some.inj h).symm⟩) rfl rfl
    · rw [getElem?_move_ne hj, ← hl.held j p]
      exact if_neg hj
  · by_cases hj : j = k
    · subst hj
      cases hself.symm.trans hother
      exact started_enter hnext (hl.started j task htask)
    · rw [getElem?_move_ne hj] at hother
      exact hl.started j other hother

/-- The phases still answer for everything when a task is added or moved on. -/
theorem Inv.step (hl : l.Inv) (h : l.Step l') : l'.Inv := by
  cases h with
  | submit token mainCb hfresh _ => exact inv_submit hl hfresh mainCb
  | move k task phase htask hnext => exact inv_move hl htask hnext

/-- While the ids have not wrapped, the token tells the task, and the tokens being executed are what the phases say. -/
structure Numbered (l : Ledger) : Prop where
  lastId : l.lastId = l.tasks.length
  ids : ∀ (k : TaskId) (task : Task), l.tasks[k]? = some task → task.token.id = k + 1
  doing : ∀ token, token ∈ l.doing ↔
    ∃ (k : TaskId) (task : Task),
      l.tasks[k]? = some task ∧ task.token = token ∧ task.phase.isDoing = true

theorem Numbered.token_inj (hn : l.Numbered) {other : Task} (htask : l.tasks[k]? = some task)
    (hother : l.tasks[j]? = some other) (htoken : other.token = task.token) : j = k := by
  have hk := hn.ids k task htask
  rw [← htoken, hn.ids j other hother] at hk
  exact Nat.succ_injective hk

theorem Numbered.mem_doing (hn : l.Numbered) (htask : l.tasks[k]? = some task) :
    task.token ∈ l.doing ↔ task.phase.isDoing = true := by
  rw [hn.doing]
  refine ⟨?_, fun h => ⟨k, task, htask, rfl, h⟩⟩
  rintro ⟨j, other, hother, htoken, hdoing⟩
  obtain rfl := hn.token_inj htask hother htoken
  cases htask.symm.trans hother
  exact hdoing

theorem Numbered.view_ne_none_iff (hn : l.Numbered) (hl : l.Inv) (htask : l.tasks[k]? = some task) :
    l.view task.token ≠ none ↔ task.phase = .queued := by
  constructor
  · intro hview
    obtain ⟨obj, hview⟩ := ne_none_iff_exists'.mp hview
    obtain ⟨j, other, -, hother, htoken, hqueued⟩ := hl.stored _ obj hview
    obtain rfl := hn.token_inj htask hother htoken
    cases htask.symm.trans hother
    exact hqueued
  · intro hqueued
    rw [hl.queued k task htask hqueued]
    exact some_ne_none _

theorem Numbered.isSome_view_iff (hn : l.Numbered) (hl : l.Inv) (htask : l.tasks[k]? = some task) :
    (l.view task.token).join.isSome = true ↔ task.phase = .queued := by
  rw [← hn.view_ne_none_iff hl htask]
  constructor
  · intro hsome hnone
    rw [hnone] at hsome
    cases hsome
  · intro hview
    rw [hl.queued k task htask ((hn.view_ne_none_iff hl htask).mp hview)]
    rfl

theorem Numbered.submit (hn : l.Numbered) (mainCb : Bool) (hid : token.id = l.lastId + 1) :
    (l.submit token mainCb).Numbered := by
  refine ⟨?_, fun k task htask => ?_, fun other => ?_⟩
  · show token.id = (l.tasks ++ [_]).length
    rw [hid, hn.lastId, List.length_append]
    rfl
  · rcases getElem?_submit htask with hbefore | ⟨rfl, rfl⟩
    · exact hn.ids k task hbefore
    · exact hid.trans (congrArg (· + 1) hn.lastId)
  · refine (hn.doing other).trans ⟨?_, ?_⟩
    · rintro ⟨k, task, htask, hrest⟩
      exact ⟨k, task, getElem?_submit_of_some htask, hrest⟩
    · rintro ⟨k, task, htask, hrest⟩
      rcases getElem?_submit htask with hbefore | ⟨-, rfl⟩
      · exact ⟨k, task, hbefore, hrest⟩
      · cases hrest.2

theorem Numbered.mem_doing_move (hn : l.Numbered) (htask : l.tasks[k]? = some task) (hnext : task.phase.Next phase) :
    token ∈ (l.move k task phase).doing ↔ if token = task.token then phase.isDoing = true else token ∈ l.doing := by
  have hbefore := hn.mem_doing htask
  show token ∈ doingAfter l.doing task.token phase ↔ _
  generalize task.phase = before at hnext hbefore
  by_cases htoken : token = task.token
  · subst htoken
    cases hnext <;> simp_all [doingAfter, Phase.isDoing]
  · cases hnext <;> simp [doingAfter, htoken]

theorem Numbered.move (hn : l.Numbered) (htask : l.tasks[k]? = some task)
    (hnext : task.phase.Next phase) : (l.move k task phase).Numbered := by
  have hself := getElem?_move_self phase htask
  have hlength : (l.move k task phase).tasks.length = l.tasks.length := List.length_modify _ _ _
  refine ⟨hn.lastId.trans hlength.symm, fun j other hother => ?_, fun token => ?_⟩
  · by_cases hj : j = k
    · subst hj
      cases hself.symm.trans hother
      exact hn.ids j task htask
    · exact hn.ids j other (getElem?_move_ne hj ▸ hother)
  · rw [hn.mem_doing_move htask hnext]
    split
    · rename_i htoken
      refine ⟨fun h => ⟨k, _, hself, htoken.symm, h⟩, ?_⟩
      rintro ⟨j, other, hother, hsame, hdoing⟩
      by_cases hj : j = k
      · subst hj
        cases hself.symm.trans hother
        exact hdoing
      · exact absurd (hn.token_inj htask (getElem?_move_ne hj ▸ hother) (hsame.trans htoken)) hj
    · rename_i htoken
      have hne : ∀ {j other}, (l.move k task phase).tasks[j]? = some other ∨ l.tasks[j]? = some other →
          other.token = token → j ≠ k := by
        rintro j other hother rfl rfl
        rcases hother with hother | hother
        · cases hself.symm.trans hother
          exact htoken rfl
        · cases htask.symm.trans hother
          exact htoken rfl
      rw [hn.doing]
      constructor
      · rintro ⟨j, other, hother, hsame, hdoing⟩
        exact ⟨j, other, (getElem?_move_ne (hne (.inr hother) hsame)).trans hother, hsame, hdoing⟩
      · rintro ⟨j, other, hother, hsame, hdoing⟩
        exact ⟨j, other, getElem?_move_ne (hne (.inl hother) hsame) ▸ hother, hsame, hdoing⟩

theorem Step.length_le (h : l.Step l') : l.tasks.length ≤ l'.tasks.length := by
  cases h with
  | submit token mainCb => exact (List.length_append ▸ Nat.le_add_right _ _)
  | move k task phase => exact (List.length_modify _ _ _).ge

theorem Numbered.step (hn : l.tasks.length ≤ Cabinet.sizeMax → l.Numbered) (h : l.Step l')
    (hwrap : l'.tasks.length ≤ Cabinet.sizeMax) : l'.Numbered := by
  have hbefore := hn (h.length_le.trans hwrap)
  cases h with
  | submit token mainCb _ hid =>
    have hlength : l.tasks.length < Cabinet.sizeMax := by
      rw [Ledger.submit, List.length_append] at hwrap
      exact hwrap
    exact hbefore.submit mainCb (hid (hbefore.lastId ▸ Nat.ne_of_lt hlength))
  | move k task phase htask hnext => exact hbefore.move htask hnext

theorem Step.cancelled (h : l.Step l') (hk : l.tasks[k]?.map Task.phase = some .cancelled) :
    l'.tasks[k]?.map Task.phase = some .cancelled := by
  obtain ⟨task, htask, hphase⟩ := map_eq_some_iff.mp hk
  cases h with
  | submit => exact map_eq_some_iff.mpr ⟨task, getElem?_submit_of_some htask, hphase⟩
  | move j other phase hother hnext =>
    have hj : k ≠ j := by
      rintro rfl
      cases htask.symm.trans hother
      rw [hphase] at hnext
      cases hnext
    rw [getElem?_move_ne hj]
    exact hk

/-- So they do after any number of steps. -/
theorem Inv.steps (hl : l.Inv) (h : ReflTransGen Step l l') : l'.Inv := by
  induction h with
  | refl => exact hl
  | tail _ hstep ih => exact ih.step hstep

theorem Numbered.steps (hn : l.tasks.length ≤ Cabinet.sizeMax → l.Numbered)
    (h : ReflTransGen Step l l') (hwrap : l'.tasks.length ≤ Cabinet.sizeMax) : l'.Numbered := by
  induction h with
  | refl => exact hn hwrap
  | tail _ hstep ih => exact Numbered.step ih hstep hwrap

theorem cancelled_steps (h : ReflTransGen Step l l') (hk : l.tasks[k]?.map Task.phase = some .cancelled) :
    l'.tasks[k]?.map Task.phase = some .cancelled := by
  induction h with
  | refl => exact hk
  | tail _ hstep ih => exact hstep.cancelled ih

end Ledger

end Tbox.Eventx
