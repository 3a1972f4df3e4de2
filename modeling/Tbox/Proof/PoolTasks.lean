import Tbox.Proof.PoolStatus

/-!
# What becomes of an accepted task

A task is in one of the deques, in the hands of one worker, cancelled or done, and the deques keep the order of
submission. The level a task was submitted at is kept as history.
-/

open List Option

namespace Tbox.Eventx

open Cabinet (Token)

/-- The pool, with the priority level of every task it accepted. -/
structure Submissions where
  pool : ThreadPool := {}
  levels : List Nat := []

namespace ThreadPool

variable {s t : ThreadPool} {levels : List Nat} {thread : ThreadId} {k j : TaskId} {task : Task}
  {phase : Phase}

def acceptedLevel (s : ThreadPool) : Action → List Nat
  | .execute _ prio => if s.isReady then [levelOf prio] else []
  | _ => []

end ThreadPool

@[simp]
theorem ThreadPool.acceptedLevel_execute (s : ThreadPool) (mainCb : Bool) (prio : Int) :
    s.acceptedLevel (.execute mainCb prio) = if s.isReady then [levelOf prio] else [] := rfl

namespace Submissions

def step (h : Submissions) (a : ThreadPool.Action) : Option Submissions :=
  (h.pool.step a).map fun t => ⟨t, h.levels ++ h.pool.acceptedLevel a⟩

theorem step_eq_some {h h' : Submissions} {a : ThreadPool.Action} (hstep : h.step a = some h') :
    h.pool.step a = some h'.pool ∧ h'.levels = h.levels ++ h.pool.acceptedLevel a := by
  obtain ⟨t, ht, rfl⟩ := map_eq_some_iff.mp hstep
  exact ⟨ht, rfl⟩

end Submissions

namespace ThreadPool

variable {s t : ThreadPool} {levels : List Nat} {thread : ThreadId} {k j : TaskId} {task : Task}
  {phase : Phase}

def Prior (levels : List Nat) (k j : TaskId) : Prop :=
  ∃ a b, levels[k]? = some a ∧ levels[j]? = some b ∧ (a < b ∨ a = b ∧ k < j)

structure LevelOrder (s : ThreadPool) (levels : List Nat) : Prop where
  length : levels.length = s.tasks.length
  level : ∀ level tokens, s.undoTasksToken[level]? = some tokens → ∀ token ∈ tokens, ∀ k,
    s.undoTasksCabinet.view token = some (some k) → levels[k]? = some level
  order : ∀ tokens ∈ s.undoTasksToken, tokens.Pairwise fun a b => ∀ k j,
    s.undoTasksCabinet.view a = some (some k) → s.undoTasksCabinet.view b = some (some j) → k < j

variable {token : Token}

theorem popToken_sublist {tokens rest : List (List Token)}
    (h : popToken tokens = some (token, rest)) : List.Forall₂ List.Sublist rest tokens := by
  induction tokens generalizing rest with
  | nil => cases h
  | cons first tail ih =>
    cases first with
    | nil =>
      obtain ⟨⟨found, left⟩, hfound, heq⟩ := map_eq_some_iff.mp h
      obtain ⟨rfl, rfl⟩ := Prod.mk.inj heq
      exact .cons (List.Sublist.refl []) (ih hfound)
    | cons head tokens =>
      obtain ⟨rfl, rfl⟩ := Prod.mk.inj (some.inj h)
      exact .cons (sublist_cons_self _ _) (forall₂_same.mpr fun _ _ => List.Sublist.refl _)

theorem eraseToken_sublist {tokens rest : List (List Token)}
    (h : eraseToken token tokens = some rest) : List.Forall₂ List.Sublist rest tokens := by
  induction tokens generalizing rest with
  | nil => cases h
  | cons first tail ih =>
    rw [eraseToken] at h
    split at h
    · cases h
      exact .cons erase_sublist (forall₂_same.mpr fun _ _ => List.Sublist.refl _)
    · obtain ⟨left, hleft, rfl⟩ := map_eq_some_iff.mp h
      exact .cons (List.Sublist.refl first) (ih hleft)

namespace LevelOrder

theorem congr (hs : s.LevelOrder levels) (hwaiting : t.waiting = s.waiting)
    (htasks : t.tasks.length = s.tasks.length) : t.LevelOrder levels := by
  have htokens : t.undoTasksToken = s.undoTasksToken := congrArg Prod.fst hwaiting
  have hcabinet : t.undoTasksCabinet = s.undoTasksCabinet := congrArg Prod.snd hwaiting
  refine ⟨hs.length.trans htasks.symm, ?_, ?_⟩
  · rw [htokens, hcabinet]
    exact hs.level
  · rw [htokens, hcabinet]
    exact hs.order

theorem shrink (hs : s.LevelOrder levels) (htokens : List.Forall₂ List.Sublist t.undoTasksToken s.undoTasksToken)
    (hview : ∀ token obj, t.undoTasksCabinet.view token = some obj → s.undoTasksCabinet.view token = some obj)
    (htasks : t.tasks.length = s.tasks.length) : t.LevelOrder levels := by
  refine ⟨hs.length.trans htasks.symm, ?_, ?_⟩
  · intro level tokens hlevel token hmem k hk
    obtain ⟨hlt, rfl⟩ := List.getElem?_eq_some_iff.mp hlevel
    have hlt' : level < s.undoTasksToken.length := htokens.length_eq ▸ hlt
    refine hs.level level _ (getElem?_eq_getElem hlt') token ?_ k (hview _ _ hk)
    exact (htokens.get hlt hlt').subset hmem
  · intro tokens hmem
    obtain ⟨level, hlt, rfl⟩ := mem_iff_getElem.mp hmem
    have hlt' : level < s.undoTasksToken.length := htokens.length_eq ▸ hlt
    refine ((hs.order _ (getElem_mem hlt')).sublist (htokens.get hlt hlt')).imp ?_
    intro a b hab k j hk hj
    exact hab k j (hview _ _ hk) (hview _ _ hj)

theorem empty : ({} : ThreadPool).LevelOrder [] := by
  have htokens : ∀ tokens ∈ ({} : ThreadPool).undoTasksToken, tokens = [] := fun _ hmem => eq_of_mem_replicate hmem
  refine ⟨rfl, fun level tokens hlevel token hmem => ?_, fun tokens hmem => ?_⟩
  · rw [htokens tokens (mem_of_getElem? hlevel)] at hmem
    cases hmem
  · rw [htokens tokens hmem]
    exact .nil

theorem mem_queue {level : Nat} {tokens : List Token}
    (hlevel : s.undoTasksToken[level]? = some tokens) (hmem : token ∈ tokens) : token ∈ s.queue :=
  mem_flatten_of_mem (mem_of_getElem? hlevel) hmem

theorem enqueue (hs : s.LevelOrder levels) (hq : s.QueueInv) (hl : s.ledger.Inv) (mainCb : Bool)
    (prio : Int) : (s.enqueue mainCb prio).LevelOrder (levels ++ [levelOf prio]) := by
  set added := (s.undoTasksCabinet.alloc (some s.tasks.length)).1 with hadded
  have hview : (s.enqueue mainCb prio).undoTasksCabinet.view
      = Function.update s.undoTasksCabinet.view added (some (some s.tasks.length)) :=
    Cabinet.view_alloc _ _
  have hfresh : added ∉ s.queue := fun hmem => (hq.live added).mpr hmem (Cabinet.view_alloc_fst _ _)
  have hbefore : ∀ token ∈ s.queue, ∀ k, (s.enqueue mainCb prio).undoTasksCabinet.view token = some (some k) →
        s.undoTasksCabinet.view token = some (some k) ∧ k < levels.length := by
    intro token hmem k hk
    have hne : token ≠ added := by
      rintro rfl
      exact hfresh hmem
    rw [hview, Function.update_of_ne hne] at hk
    obtain ⟨j, task, hj, htask, -⟩ := hl.stored token _ hk
    cases hj
    exact ⟨hk, hs.length ▸ (List.getElem?_eq_some_iff.mp htask).1⟩
  have hself : ∀ k, (s.enqueue mainCb prio).undoTasksCabinet.view added = some (some k) →
      k = levels.length := by
    intro k hk
    rw [hview, Function.update_self] at hk
    exact (some.inj (some.inj hk)).symm.trans hs.length.symm
  have hdeque : ∀ level tokens, (s.enqueue mainCb prio).undoTasksToken[level]? = some tokens →
      ∃ old, s.undoTasksToken[level]? = some old ∧
        (tokens = old ∨ tokens = old ++ [added] ∧ level = levelOf prio) := by
    intro level tokens hlevel
    rw [show (s.enqueue mainCb prio).undoTasksToken
      = s.undoTasksToken.modify (levelOf prio) (· ++ [added]) from rfl, List.getElem?_modify] at hlevel
    obtain ⟨old, hold, htokens⟩ := map_eq_some_iff.mp hlevel
    refine ⟨old, hold, ?_⟩
    split at htokens
    · exact .inr ⟨htokens.symm, ‹levelOf prio = level›.symm⟩
    · exact .inl htokens.symm
  refine ⟨?_, ?_, ?_⟩
  · show (levels ++ [_]).length = (s.tasks ++ [_]).length
    rw [length_append, length_append, hs.length]
    rfl
  · intro level tokens hlevel token hmem k hk
    obtain ⟨old, hold, htokens⟩ := hdeque level tokens hlevel
    have hstill : token ∈ old → (levels ++ [levelOf prio])[k]? = some level := by
      intro hmem
      obtain ⟨hk', hlt⟩ := hbefore token (mem_queue hold hmem) k hk
      rw [getElem?_append_left hlt]
      exact hs.level level old hold token hmem k hk'
    rcases htokens with rfl | ⟨rfl, rfl⟩
    · exact hstill hmem
    rcases mem_append.mp hmem with hmem | hmem
    · exact hstill hmem
    · obtain rfl := mem_singleton.mp hmem
      rw [hself k hk]
      exact getElem?_concat_length
  · intro tokens hmem
    obtain ⟨level, hlevel⟩ := mem_iff_getElem?.mp hmem
    obtain ⟨old, hold, htokens⟩ := hdeque level tokens hlevel
    have hstill : old.Pairwise fun a b => ∀ k j, (s.enqueue mainCb prio).undoTasksCabinet.view a = some (some k) →
          (s.enqueue mainCb prio).undoTasksCabinet.view b = some (some j) → k < j := by
      refine (hs.order old (mem_of_getElem? hold)).imp_of_mem ?_
      intro a b ha hb hab k j hk hj
      exact hab k j (hbefore a (mem_queue hold ha) k hk).1 (hbefore b (mem_queue hold hb) j hj).1
    rcases htokens with rfl | ⟨rfl, rfl⟩
    · exact hstill
    refine pairwise_append.mpr ⟨hstill, pairwise_singleton _ _, ?_⟩
    intro a ha b hb k j hk hj
    obtain rfl := mem_singleton.mp hb
    rw [hself j hj]
    exact (hbefore a (mem_queue hold ha) k hk).2

theorem execute (hs : s.LevelOrder levels) (hq : s.QueueInv) (hl : s.ledger.Inv) (mainCb : Bool) (prio : Int) :
    (s.execute mainCb prio).LevelOrder (levels ++ s.acceptedLevel (.execute mainCb prio)) := by
  rw [acceptedLevel_execute]
  unfold ThreadPool.execute
  by_cases hready : s.isReady = true
  · rw [if_neg (by simp [hready]), if_pos hready]
    refine (hs.enqueue hq hl mainCb prio).congr (waiting_provideWorker _) ?_
    exact congrArg (fun l : Ledger => l.tasks.length) (ledger_provideWorker (s.enqueue mainCb prio))
  · rw [if_pos (by simpa using hready), if_neg hready, append_nil]
    exact hs

theorem popOneTask (hs : s.LevelOrder levels) : s.popOneTask.2.LevelOrder levels := by
  unfold ThreadPool.popOneTask
  split
  · exact hs
  · exact hs.shrink (popToken_sublist ‹_›) (fun _ _ => Cabinet.view_of_view_free) rfl

theorem leaveWait (hs : s.LevelOrder levels) (thread : ThreadId) : (s.leaveWait thread).LevelOrder levels := by
  have hbase : ({ s with idleThreadNum := s.idleThreadNum - 1 } : ThreadPool).LevelOrder levels := hs.congr rfl rfl
  unfold ThreadPool.leaveWait
  dsimp only
  split
  · exact hs.congr rfl rfl
  · split
    · exact hbase.popOneTask.congr rfl (length_modify _ _ _)
    · exact hbase.popOneTask.congr rfl rfl

theorem checkWait (hs : s.LevelOrder levels) (thread : ThreadId) : (s.checkWait thread).LevelOrder levels := by
  unfold ThreadPool.checkWait
  split
  · exact hs.leaveWait thread
  · exact hs.congr rfl rfl

theorem enterLoop (hs : s.LevelOrder levels) (thread : ThreadId) : (s.enterLoop thread).LevelOrder levels := by
  have hbase : ({ s with idleThreadNum := s.idleThreadNum + 1 } : ThreadPool).LevelOrder levels := hs.congr rfl rfl
  unfold ThreadPool.enterLoop
  split
  · exact hs.congr rfl rfl
  · exact hbase.checkWait thread

theorem cancel (hs : s.LevelOrder levels) (token : Token) : (s.cancel token).2.LevelOrder levels := by
  unfold ThreadPool.cancel
  split
  · exact hs
  split
  · exact hs
  rename_i tokens herase
  have hfree : LevelOrder { s with
      undoTasksToken := tokens
      undoTasksCabinet := (s.undoTasksCabinet.free token).2 } levels :=
    hs.shrink (eraseToken_sublist herase) (fun _ _ => Cabinet.view_of_view_free) rfl
  dsimp only
  split
  · exact hfree.congr rfl (length_modify _ _ _)
  · exact hfree

theorem length_dropTasks (s : ThreadPool) (tokens : List Token) :
    (s.dropTasks tokens).tasks.length = s.tasks.length := by
  induction tokens generalizing s with
  | nil => rfl
  | cons token tokens ih =>
    rw [dropTasks]
    refine (ih _).trans ?_
    split
    · exact length_modify _ _ _
    · rfl

theorem cleanupDrain (hs : s.LevelOrder levels) (hq : s.QueueInv) : s.cleanupDrain.LevelOrder levels := by
  obtain ⟨hdrained, hempty⟩ := hq.cleanupDrain
  have hnone : ∀ tokens ∈ s.cleanupDrain.undoTasksToken, tokens = [] := by
    intro tokens hmem
    obtain ⟨_, -, rfl⟩ := List.mem_map.mp hmem
    rfl
  refine ⟨hs.length.trans (length_dropTasks s _).symm, ?_, ?_⟩
  · intro level tokens hlevel token hmem
    rw [hnone tokens (mem_of_getElem? hlevel)] at hmem
    cases hmem
  · intro tokens hmem
    rw [hnone tokens hmem]
    exact .nil

/-- The deques keep the order of submission within each level. -/
theorem stepped (hs : s.LevelOrder levels) (hq : s.QueueInv) (hl : s.ledger.Inv) {a : Action}
    (h : Stepped s a t) : t.LevelOrder (levels ++ s.acceptedLevel a) := by
  have hquiet : ∀ {u : ThreadPool}, u.LevelOrder levels → u.LevelOrder (levels ++ []) := by
    intro u hu
    rwa [append_nil]
  cases h with
  | execute mainCb prio => exact hs.execute hq hl mainCb prio
  | initializePool minThreadNum maxThreadNum =>
    apply hquiet
    refine hs.congr (waiting_initializePool _ _ _) ?_
    exact congrArg (fun l : Ledger => l.tasks.length) (ledger_initializePool s _ _)
  | cancel token => exact hquiet (hs.cancel token)
  | cleanupDrain => exact hquiet (hs.cleanupDrain hq)
  | enterLoop thread => exact hquiet (hs.enterLoop thread)
  | checkWait thread => exact hquiet (hs.checkWait thread)
  | startTask thread item =>
    apply hquiet
    refine hs.congr (waiting_startTask _ _ _) ?_
    unfold ThreadPool.startTask
    dsimp only
    split
    · rfl
    · exact length_modify _ _ _
  | finishBody thread item =>
    apply hquiet
    refine hs.congr (waiting_finishBody _ _ _) ?_
    unfold ThreadPool.finishBody
    dsimp only
    repeat' split
    all_goals exact length_modify _ _ _
  | endTask thread item =>
    apply hquiet
    refine hs.congr (waiting_endTask _ _ _) ?_
    unfold ThreadPool.endTask
    dsimp only
    split
    all_goals exact length_modify _ _ _
  | _ => exact hquiet (hs.congr rfl rfl)

end LevelOrder

def NoneEnters (phase : Phase) (s t : ThreadPool) : Prop :=
  ∀ k : TaskId, t.tasks[k]?.map Task.phase = some phase → s.tasks[k]?.map Task.phase = some phase

namespace NoneEnters

theorem of_tasks_eq (h : t.tasks = s.tasks) : NoneEnters phase s t := by
  intro k hk
  rwa [h] at hk

theorem of_modify {f : Task → Task} {entered : Phase} (hne : entered ≠ phase)
    (h : t.tasks = s.tasks.modify j f) (hf : ∀ task, (f task).phase = entered) : NoneEnters phase s t := by
  intro k hk
  by_cases hj : j = k
  · subst hj
    rw [h, getElem?_modify_eq] at hk
    obtain ⟨task, htask, hphase⟩ := map_eq_some_iff.mp hk
    obtain ⟨before, -, rfl⟩ := map_eq_some_iff.mp htask
    exact absurd ((hf before).symm.trans hphase) hne
  · rwa [h, List.getElem?_modify_ne _ _ hj] at hk

theorem of_append {added : Task} (h : t.tasks = s.tasks ++ [added]) (hne : added.phase ≠ phase) :
    NoneEnters phase s t := by
  intro k hk
  rw [h] at hk
  obtain ⟨task, htask, hphase⟩ := map_eq_some_iff.mp hk
  by_cases hlt : k < s.tasks.length
  · rw [getElem?_append_left hlt] at htask
    rw [htask]
    exact congrArg some hphase
  have hmem : task ∈ [added] := by
    rw [getElem?_append_right (Nat.not_lt.mp hlt)] at htask
    exact mem_of_getElem? htask
  rw [mem_singleton.mp hmem] at hphase
  exact absurd hphase hne

theorem trans {u : ThreadPool} (h : NoneEnters phase s t) (h' : NoneEnters phase t u) :
    NoneEnters phase s u := fun k hk => h k (h' k hk)

theorem dropTasks (hne : .dropped ≠ phase) (s : ThreadPool) (tokens : List Token) :
    NoneEnters phase s (s.dropTasks tokens) := by
  induction tokens generalizing s with
  | nil => exact of_tasks_eq rfl
  | cons token tokens ih =>
    rw [ThreadPool.dropTasks]
    refine trans ?_ (ih _)
    split
    · exact of_modify hne rfl fun _ => rfl
    · exact of_tasks_eq rfl

theorem leaveWait (hne : .popped ≠ phase) (s : ThreadPool) (thread : ThreadId) :
    NoneEnters phase s (s.leaveWait thread) := by
  have hframe := ({ s with idleThreadNum := s.idleThreadNum - 1 } : ThreadPool).popOneTask_frame.1
  unfold ThreadPool.leaveWait
  dsimp only
  split
  · exact of_tasks_eq rfl
  · split
    · exact trans (of_tasks_eq hframe) (of_modify hne rfl fun _ => rfl)
    · exact of_tasks_eq hframe

theorem checkWait (hne : .popped ≠ phase) (s : ThreadPool) (thread : ThreadId) :
    NoneEnters phase s (s.checkWait thread) := by
  unfold ThreadPool.checkWait
  split
  · exact leaveWait hne s thread
  · exact of_tasks_eq rfl

theorem enterLoop (hne : .popped ≠ phase) (s : ThreadPool) (thread : ThreadId) :
    NoneEnters phase s (s.enterLoop thread) := by
  unfold ThreadPool.enterLoop
  split
  · exact of_tasks_eq rfl
  · intro k hk
    exact checkWait hne { s with idleThreadNum := s.idleThreadNum + 1 } thread k hk

end NoneEnters

theorem Stepped.noneEnters {a : Action} (h : Stepped s a t) (hphase : phase = .dropped ∧ a ≠ .cleanupDrain ∨
      phase = .popped ∧ ∀ thread, a ≠ .enterLoop thread ∧ a ≠ .checkWait thread) : NoneEnters phase s t := by
  have hpopped : (∃ thread, a = .enterLoop thread ∨ a = .checkWait thread) → .popped ≠ phase := by
    rintro ⟨thread, hthread⟩
    rcases hphase with ⟨rfl, -⟩ | ⟨-, hnone⟩
    · decide
    · exact absurd hthread (not_or.mpr (hnone thread))
  have hdropped : a = .cleanupDrain → .dropped ≠ phase := by
    intro hdrain
    rcases hphase with ⟨-, hnot⟩ | ⟨rfl, -⟩
    · exact absurd hdrain hnot
    · decide
  have hother : ∀ q : Phase, q ≠ .dropped → q ≠ .popped → q ≠ phase := by
    intro q hq hq'
    rcases hphase with ⟨rfl, -⟩ | ⟨rfl, -⟩
    · exact hq
    · exact hq'
  cases h with
  | initializePool minThreadNum maxThreadNum =>
    exact .of_tasks_eq (congrArg Ledger.tasks (ledger_initializePool s _ _))
  | execute mainCb prio =>
    unfold ThreadPool.execute
    split
    · exact .of_tasks_eq rfl
    · exact .of_append (congrArg Ledger.tasks (ledger_provideWorker (s.enqueue mainCb prio)))
        (hother .queued (by decide) (by decide))
  | cancel token =>
    unfold ThreadPool.cancel
    split
    · exact .of_tasks_eq rfl
    split
    · exact .of_tasks_eq rfl
    dsimp only
    split
    · exact .of_modify (hother .cancelled (by decide) (by decide)) rfl fun _ => rfl
    · exact .of_tasks_eq rfl
  | cleanupDrain => exact .dropTasks (hdropped rfl) s _
  | enterLoop thread => exact .enterLoop (hpopped ⟨thread, .inl rfl⟩) s thread
  | checkWait thread => exact .checkWait (hpopped ⟨thread, .inr rfl⟩) s thread
  | startTask thread item =>
    unfold ThreadPool.startTask
    dsimp only
    split
    · exact .of_tasks_eq rfl
    · exact .of_modify (hother .executing (by decide) (by decide)) rfl fun _ => rfl
  | finishBody thread item =>
    unfold ThreadPool.finishBody
    dsimp only
    repeat' split
    all_goals exact .of_modify (hother .finished (by decide) (by decide)) rfl fun _ => rfl
  | endTask thread item =>
    unfold ThreadPool.endTask
    dsimp only
    split
    all_goals exact .of_modify (hother .done (by decide) (by decide)) rfl fun _ => rfl
  | _ => exact .of_tasks_eq rfl

theorem front_of_leaveWait (hq : s.QueueInv) (htask : s.tasks[k]?.map Task.phase = some .queued)
    (hpopped : (s.leaveWait thread).tasks[k]?.map Task.phase = some .popped) :
    ∃ token rest, s.queue = token :: rest ∧ s.undoTasksCabinet.view token = some (some k) := by
  have hstays : ∀ u : ThreadPool, u.tasks = s.tasks → u.tasks[k]?.map Task.phase ≠ some .popped := by
    intro u hu hpopped
    rw [hu, htask] at hpopped
    cases hpopped
  have hidle : ({ s with idleThreadNum := s.idleThreadNum - 1 } : ThreadPool).QueueInv := hq.congr rfl
  have hframe := ({ s with idleThreadNum := s.idleThreadNum - 1 } : ThreadPool).popOneTask_frame.1
  unfold leaveWait at hpopped
  dsimp only at hpopped
  split at hpopped
  · exact absurd hpopped (hstays _ rfl)
  split at hpopped
  · rename_i item hitem
    by_cases hk : item = k
    · subst hk
      rcases hidle.popOneTask with ⟨hnone, -⟩ | ⟨token, hqueue, -, hat, -⟩
      · rw [hnone] at hitem
        cases hitem
      · refine ⟨token, _, hqueue, ?_⟩
        rw [hitem, Cabinet.at?_eq_join_view] at hat
        exact join_eq_some_iff.mp hat.symm
    · rw [show ∀ u : ThreadPool, (u.setPhase item .popped).tasks[k]? = u.tasks[k]? from
        fun u => List.getElem?_modify_ne _ _ hk] at hpopped
      exact absurd hpopped (hstays _ hframe)
  · exact absurd hpopped (hstays _ hframe)

theorem front_of_checkWait (hq : s.QueueInv) (htask : s.tasks[k]?.map Task.phase = some .queued)
    (hpopped : (s.checkWait thread).tasks[k]?.map Task.phase = some .popped) :
    ∃ token rest, s.queue = token :: rest ∧ s.undoTasksCabinet.view token = some (some k) := by
  unfold checkWait at hpopped
  split at hpopped
  · exact front_of_leaveWait hq htask hpopped
  · rw [show (s.setPc thread .parking).tasks = s.tasks from rfl, htask] at hpopped
    cases hpopped

theorem front_of_stepped (hq : s.QueueInv) {a : Action} (h : Stepped s a t)
    (htask : s.tasks[k]?.map Task.phase = some .queued) (hpopped : t.tasks[k]?.map Task.phase = some .popped) :
    ∃ token rest, s.queue = token :: rest ∧ s.undoTasksCabinet.view token = some (some k) := by
  by_cases hwait : ∀ thread, a ≠ .enterLoop thread ∧ a ≠ .checkWait thread
  · have hbefore := h.noneEnters (.inr ⟨rfl, hwait⟩) k hpopped
    rw [htask] at hbefore
    cases hbefore
  cases h with
  | enterLoop thread =>
    unfold enterLoop at hpopped
    split at hpopped
    · rw [show (s.setPc thread .leaving).tasks = s.tasks from rfl, htask] at hpopped
      cases hpopped
    · exact front_of_checkWait (s := { s with idleThreadNum := s.idleThreadNum + 1 })
        (hq.congr rfl) htask hpopped
  | checkWait thread => exact front_of_checkWait hq htask hpopped
  | _ => exact absurd (fun thread => ⟨nofun, nofun⟩) hwait

namespace LevelOrder

theorem queue_pairwise (hs : s.LevelOrder levels) :
    s.queue.Pairwise fun a b => ∀ k j, s.undoTasksCabinet.view a = some (some k) →
      s.undoTasksCabinet.view b = some (some j) → Prior levels k j := by
  refine pairwise_flatten.mpr ⟨?_, pairwise_iff_getElem.mpr ?_⟩
  · intro tokens hmem
    obtain ⟨level, hlevel⟩ := mem_iff_getElem?.mp hmem
    refine (hs.order tokens hmem).imp_of_mem ?_
    intro a b ha hb hab k j hk hj
    exact ⟨level, level, hs.level level tokens hlevel a ha k hk,
      hs.level level tokens hlevel b hb j hj, .inr ⟨rfl, hab k j hk hj⟩⟩
  · intro low high hlow hhigh hlt a ha b hb k j hk hj
    exact ⟨low, high, hs.level low _ (getElem?_eq_getElem hlow) a ha k hk,
      hs.level high _ (getElem?_eq_getElem hhigh) b hb j hj, .inl hlt⟩

theorem prior_of_front (hs : s.LevelOrder levels) (hq : s.QueueInv) (hl : s.ledger.Inv) {rest : List Token} (hqueue : s.queue = token :: rest)
    (hfront : s.undoTasksCabinet.view token = some (some k)) {other : Task}
    (hother : s.tasks[j]? = some other) (hqueued : other.phase = .queued) (hne : j ≠ k) : Prior levels k j := by
  have hview : s.undoTasksCabinet.view other.token = some (some j) := hl.queued j other hother hqueued
  have hmem : other.token ∈ token :: rest := by
    rw [← hqueue, ← hq.live, hview]
    exact some_ne_none _
  have hpairwise := hs.queue_pairwise
  rw [hqueue] at hpairwise
  rcases mem_cons.mp hmem with heq | hrest
  · rw [heq, hfront] at hview
    exact absurd (some.inj (some.inj hview)).symm hne
  · exact (pairwise_cons.mp hpairwise).1 _ hrest k j hfront hview

end LevelOrder

def waitingNum (s : ThreadPool) (k : TaskId) (task : Task) : Nat :=
  if s.undoTasksCabinet.view task.token = some (some k) then s.queue.count task.token else 0

def holderNum (s : ThreadPool) (k : TaskId) : Nat :=
  s.heldNum k .popped + s.heldNum k .executing + s.heldNum k .finished

def places (s : ThreadPool) (k : TaskId) (task : Task) : Nat :=
  s.waitingNum k task + s.holderNum k + (if task.phase = .cancelled then 1 else 0)
    + (if task.phase = .done then 1 else 0)

theorem waitingNum_eq (hq : s.QueueInv) (hl : s.ledger.Inv) (htask : s.tasks[k]? = some task) :
    s.waitingNum k task = if task.phase = .queued then 1 else 0 := by
  by_cases hqueued : task.phase = .queued
  · have hview : s.undoTasksCabinet.view task.token = some (some k) := hl.queued k task htask hqueued
    have hmem : task.token ∈ s.queue := by
      rw [← hq.live, hview]
      exact some_ne_none _
    rw [waitingNum, if_pos hview, if_pos hqueued]
    exact count_eq_one_of_mem hq.nodup hmem
  · rw [waitingNum, if_neg hqueued, if_neg]
    intro hview
    obtain ⟨j, other, hj, hother, -, hphase⟩ := hl.stored _ _ hview
    cases hj
    cases htask.symm.trans hother
    exact hqueued hphase

theorem places_eq (hq : s.QueueInv) (hl : s.ledger.Inv) (htask : s.tasks[k]? = some task) :
    s.places k task = if task.phase = .dropped then 0 else 1 := by
  rw [places, holderNum, waitingNum_eq hq hl htask, heldNum_eq hl htask, heldNum_eq hl htask, heldNum_eq hl htask]
  cases task.phase <;> rfl

/-- What the pool owes to the tasks it accepted, after a run. -/
structure TasksKept (h : Submissions) (actions : List Action) : Prop where
  /-- no task is executed twice -/
  once : ∀ (k : TaskId) task, h.pool.tasks[k]? = some task → task.started ≤ 1
  /-- a `cancel` that returns 0 found a task, which is never executed -/
  cancelled : ∀ token, (h.pool.cancel token).1 = 0 → ∃ (k : TaskId) (task : Task),
    h.pool.tasks[k]? = some task ∧ task.token = token ∧
      (∀ later t, Lib.run step (h.pool.cancel token).2 later = some t →
        ∀ task, t.tasks[k]? = some task → task.started = 0) ∧
      (h.pool.tasks.length ≤ Cabinet.sizeMax → ∀ (j : TaskId) (other : Task),
        h.pool.tasks[j]? = some other → other.token = token → j = k)
  /-- a task is in exactly one place, unless `cleanup` threw it away -/
  kept : ∀ (k : TaskId) task, h.pool.tasks[k]? = some task →
    h.pool.places k task = 1 ∨ task.phase = .dropped ∧ .cleanupDrain ∈ actions
  /-- what is popped is the earliest task of the most urgent level -/
  inOrder : ∀ a t, h.pool.step a = some t → ∀ k : TaskId,
    h.pool.tasks[k]?.map Task.phase = some .queued → t.tasks[k]?.map Task.phase = some .popped →
      ∀ (j : TaskId) other, h.pool.tasks[j]? = some other → other.phase = .queued → j ≠ k →
        Prior h.levels k j

/-- In every run each level keeps the order of submission. -/
theorem levelOrder_of_run {actions : List Action} {h : Submissions}
    (hrun : Lib.run Submissions.step {} actions = some h) : h.pool.Tracked ∧ h.pool.LevelOrder h.levels := by
  refine Lib.run_invariant_of_step
    (I := fun h : Submissions => h.pool.Tracked ∧ h.pool.LevelOrder h.levels) ?_ ⟨.empty, .empty⟩ hrun
  intro h a h' hinv hstep
  obtain ⟨hpool, hlevels⟩ := Submissions.step_eq_some hstep
  have hstepped := Stepped.of_step hpool
  refine ⟨hinv.1.stepped hstepped, ?_⟩
  rw [hlevels]
  exact hinv.2.stepped hinv.1.queue hinv.1.ledger hstepped

theorem cleanupDrain_mem_of_dropped {actions : List Action} (hrun : Lib.run step {} actions = some s)
    (hdropped : s.tasks[k]?.map Task.phase = some .dropped) : .cleanupDrain ∈ actions := by
  by_contra hnot
  have hguard : Lib.Along step (fun _ a => a ≠ .cleanupDrain) {} actions := by
    clear hrun
    generalize ({} : ThreadPool) = start
    induction actions generalizing start with
    | nil => trivial
    | cons a as ih =>
      rw [mem_cons, not_or] at hnot
      exact fun t _ => ⟨Ne.symm hnot.1, ih hnot.2 t⟩
  have hnone : ∀ k : TaskId, s.tasks[k]?.map Task.phase ≠ some .dropped := by
    refine Lib.run_invariant
      (I := fun s : ThreadPool => ∀ k : TaskId, s.tasks[k]?.map Task.phase ≠ some .dropped)
      ?_ (fun k hk => by simp at hk) hguard hrun
    intro s a t hinv hne hstep k hk
    exact hinv k ((Stepped.of_step hstep).noneEnters (.inl ⟨rfl, hne⟩) k hk)
  exact hnone k hdropped

/-- **Tasks are executed once, never lost, and popped in order**, in every run of the pool. -/
theorem tasksKept_of_run {actions : List Action} {h : Submissions}
    (hrun : Lib.run Submissions.step {} actions = some h) : TasksKept h actions := by
  obtain ⟨hs, horder⟩ := levelOrder_of_run hrun
  have hpool : Lib.run step {} actions = some h.pool :=
    Lib.run_map Submissions.pool (fun _ _ _ hstep => (Submissions.step_eq_some hstep).1) hrun
  refine ⟨fun k task htask => ?_, fun token hzero => ?_, fun k task htask => ?_, ?_⟩
  · have hstarted : task.started = _ := hs.ledger.started k task htask
    rw [hstarted]
    split <;> omega
  · have hdoing : token ∉ h.pool.doingTasksToken := by
      intro hdoing
      rw [cancel_doing hdoing] at hzero
      cases hzero
    have hmem : token ∈ h.pool.queue := by
      by_contra hmem
      rw [cancel_notFound hdoing hmem] at hzero
      cases hzero
    obtain ⟨k, task, htask, htoken, -, -, hledger⟩ :=
      cancel_queued hs.queue hs.ledger hdoing hmem
    have hcancelled : (h.pool.cancel token).2.tasks[k]?.map Task.phase = some .cancelled := by
      have hself := Ledger.getElem?_move_self (l := h.pool.ledger) .cancelled htask
      rw [← hledger] at hself
      exact congrArg (Option.map Task.phase) hself
    have hafter : (h.pool.cancel token).2.Tracked :=
      hs.of_steps (hs.queue.cancel token) (cancel_ledger hs.queue hs.ledger token)
    refine ⟨k, task, htask, htoken, fun later t hlater task htask => ?_, fun hwrap j other hother
      hsame => ?_⟩
    · exact started_of_cancelled hafter hcancelled hlater htask
    · exact (hs.numbered hwrap).token_inj htask hother (hsame.trans htoken.symm)
  · rw [places_eq hs.queue hs.ledger htask]
    by_cases hdropped : task.phase = .dropped
    · refine .inr ⟨hdropped, cleanupDrain_mem_of_dropped hpool (k := k) ?_⟩
      rw [htask]
      exact congrArg some hdropped
    · exact .inl (if_neg hdropped)
  · intro a t hstep k hqueued hpopped j other hother hphase hne
    obtain ⟨token, rest, hqueue, hview⟩ :=
      front_of_stepped hs.queue (.of_step hstep) hqueued hpopped
    exact horder.prior_of_front hs.queue hs.ledger hqueue hview hother hphase hne

/-- An urgent task that overtakes an earlier one. -/
def overtakingRun : List Action :=
  [.initializePool 1 1, .initializeEnd, .execute false 0, .execute true (-2), .enterLoop 0]

theorem tasksKept_overtaking :
    ∃ h, Lib.run Submissions.step {} overtakingRun = some h ∧ TasksKept h overtakingRun := by
  obtain ⟨h, hrun⟩ := Option.isSome_iff_exists.mp
    (show (Lib.run Submissions.step {} overtakingRun).isSome by decide)
  exact ⟨h, hrun, tasksKept_of_run hrun⟩

end ThreadPool

end Tbox.Eventx
