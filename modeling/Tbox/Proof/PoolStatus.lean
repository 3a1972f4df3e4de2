import Tbox.Eventx.TaskLedger
import Tbox.Proof.PoolInvariant

/-!
# What the pool answers about a task

Every step of the pool is some steps of its task ledger. `getTaskStatus` and `cancel` are true except in two gaps: a
task that was popped is in neither index, and one whose body is over is still listed as executing.
-/

open List Option

namespace Tbox.Eventx

open Cabinet (Token)

open Relation (ReflTransGen)

def Pc.holds : Pc → Option (TaskId × Phase)
  | .popped (some item) => some (item, .popped)
  | .executing item => some (item, .executing)
  | .finished item => some (item, .finished)
  | _ => none

theorem Pc.holds_popped {pc : Pc} {k : TaskId} : pc.holds = some (k, .popped) ↔ pc = .popped (some k) := by
  cases pc with
  | popped item => cases item <;> simp [holds]
  | _ => simp [holds]

theorem Pc.holds_executing {pc : Pc} {k : TaskId} : pc.holds = some (k, .executing) ↔ pc = .executing k := by
  cases pc with
  | popped item => cases item <;> simp [holds]
  | _ => simp [holds]

theorem Pc.holds_finished {pc : Pc} {k : TaskId} : pc.holds = some (k, .finished) ↔ pc = .finished k := by
  cases pc with
  | popped item => cases item <;> simp [holds]
  | _ => simp [holds]

namespace ThreadPool

variable {s t : ThreadPool} {thread : ThreadId} {pc old : Pc} {k : TaskId} {task : Task}
  {phase : Phase}

def heldNum (s : ThreadPool) (k : TaskId) (phase : Phase) : Nat :=
  s.workers.countP fun w => w.pc.holds = some (k, phase)

def ledger (s : ThreadPool) : Ledger :=
  { tasks := s.tasks
    doing := s.doingTasksToken
    view := s.undoTasksCabinet.view
    lastId := s.undoTasksCabinet.lastId
    held := s.heldNum }

theorem heldNum_setPc (pc : Pc) (hpc : s.pcOf thread = some old) (k : TaskId) (phase : Phase) :
    (s.setPc thread pc).heldNum k phase + (if old.holds = some (k, phase) then 1 else 0)
      = s.heldNum k phase + (if pc.holds = some (k, phase) then 1 else 0) := by
  obtain ⟨w, hw, rfl⟩ := map_eq_some_iff.mp hpc
  have hcount := Lib.countP_modify_add hw (fun w => { w with pc := pc }) fun w => w.pc.holds = some (k, phase)
  simp only [decide_eq_true_eq] at hcount
  exact hcount

theorem heldNum_setPc_of_none (hpc : s.pcOf thread = some old) (hold : old.holds = none)
    (hnew : pc.holds = none) : (s.setPc thread pc).heldNum = s.heldNum := by
  funext k phase
  simpa [hold, hnew] using heldNum_setPc pc hpc k phase

theorem heldNum_congr (h : t.workers = s.workers) : t.heldNum = s.heldNum := by
  funext k phase
  unfold heldNum
  rw [h]

theorem heldNum_createWorkers (s : ThreadPool) (n : Nat) : (s.createWorkers n).heldNum = s.heldNum := by
  induction n generalizing s with
  | zero => rfl
  | succ n ih =>
    refine (ih s.createWorker).trans ?_
    funext k phase
    show List.countP _ (s.workers ++ [_]) = List.countP _ s.workers
    rw [countP_append]
    rfl

theorem heldNum_eq (hl : s.ledger.Inv) (htask : s.tasks[k]? = some task) (phase : Phase) :
    s.heldNum k phase = if phase.isHeld ∧ phase = task.phase then 1 else 0 := by
  refine (hl.held k phase).trans (if_congr (and_congr_right fun _ => ?_) rfl rfl)
  rw [show s.ledger.tasks[k]? = some task from htask]
  exact ⟨fun h => (some.inj h).symm, fun h => by rw [h]; rfl⟩

theorem exists_task_of_holds (hl : s.ledger.Inv) (hpc : s.pcOf thread = some pc)
    (hholds : pc.holds = some (k, phase)) : ∃ task, s.tasks[k]? = some task ∧ task.phase = phase := by
  obtain ⟨w, hw, rfl⟩ := map_eq_some_iff.mp hpc
  have hpos : 0 < s.heldNum k phase := countP_pos_iff.mpr ⟨w, mem_of_getElem? hw, by simpa using hholds⟩
  rw [show s.heldNum k phase = _ from hl.held k phase] at hpos
  split at hpos
  · rename_i h
    exact map_eq_some_iff.mp h.2
  · cases hpos

theorem heldNum_move (phase : Phase) (hl : s.ledger.Inv) (htask : s.tasks[k]? = some task)
    (hpc : s.pcOf thread = some old) (hold : old.holds = if task.phase.isHeld then some (k, task.phase) else none)
    (hnew : pc.holds = if phase.isHeld then some (k, phase) else none) :
    (s.setPc thread pc).heldNum = (s.ledger.move k task phase).held := by
  have hiff : ∀ (q : Phase) (j : TaskId) (p : Phase),
      ((if q.isHeld then some (k, q) else none) = some (j, p)) ↔ j = k ∧ p.isHeld ∧ p = q := by
    intro q j p
    split
    · simp only [some.injEq, Prod.mk.injEq]
      exact ⟨by rintro ⟨rfl, rfl⟩; exact ⟨rfl, ‹_›, rfl⟩, by rintro ⟨rfl, -, rfl⟩; exact ⟨rfl, rfl⟩⟩
    · exact ⟨nofun, by rintro ⟨-, h, rfl⟩; contradiction⟩
  funext j p
  have hcount := heldNum_setPc pc hpc j p
  rw [hold, hnew, if_congr (hiff task.phase j p) rfl rfl, if_congr (hiff phase j p) rfl rfl] at hcount
  show _ = if j = k then (if p.isHeld ∧ p = phase then 1 else 0) else s.heldNum j p
  by_cases hj : j = k
  · subst hj
    simp only [true_and, heldNum_eq hl htask] at hcount
    rw [if_pos rfl]
    omega
  · simp only [hj, false_and, if_false] at hcount
    rw [if_neg hj]
    exact hcount

theorem heldNum_move_of_queued (phase : Phase) (hl : s.ledger.Inv) (htask : s.tasks[k]? = some task)
    (hqueued : task.phase = .queued) (hnew : phase.isHeld = false) :
    s.heldNum = (s.ledger.move k task phase).held := by
  funext j p
  show _ = if j = k then (if p.isHeld ∧ p = phase then 1 else 0) else s.heldNum j p
  split
  · subst_vars
    refine (heldNum_eq hl htask p).trans ((if_neg ?_).trans (if_neg ?_).symm)
    · rintro ⟨hheld, rfl⟩
      rw [hqueued] at hheld
      cases hheld
    · rintro ⟨hheld, rfl⟩
      rw [hnew] at hheld
      cases hheld
  · rfl

variable {token : Token}

theorem exists_waiting_task (hq : s.QueueInv) (hl : s.ledger.Inv) (hmem : token ∈ s.queue) :
    ∃ (k : TaskId) (task : Task), s.tasks[k]? = some task ∧ task.token = token
      ∧ task.phase = .queued ∧ s.undoTasksCabinet.at? token = some k := by
  obtain ⟨obj, hview⟩ := ne_none_iff_exists'.mp ((hq.live token).mpr hmem)
  obtain ⟨k, task, rfl, htask, htoken, hphase⟩ := hl.stored token obj hview
  refine ⟨k, task, htask, htoken, hphase, ?_⟩
  rw [Cabinet.at?_eq_join_view, hview]
  rfl

theorem ledger_setPc (pc : Pc) (hpc : s.pcOf thread = some old) (hold : old.holds = none)
    (hnew : pc.holds = none) : (s.setPc thread pc).ledger = s.ledger :=
  Ledger.ext rfl rfl rfl rfl (heldNum_setPc_of_none hpc hold hnew)

theorem ledger_enqueue (s : ThreadPool) (mainCb : Bool) (prio : Int) : (s.enqueue mainCb prio).ledger
      = s.ledger.submit (s.undoTasksCabinet.alloc (some s.tasks.length)).1 mainCb :=
  Ledger.ext rfl rfl (Cabinet.view_alloc _ _) (Cabinet.lastId_alloc _ (some s.tasks.length)) rfl

theorem ledger_provideWorker (s : ThreadPool) : s.provideWorker.ledger = s.ledger := by
  unfold provideWorker
  split
  · split
    · exact Ledger.ext rfl rfl rfl rfl (heldNum_createWorkers s 1)
    · split <;> rfl
  · rfl

theorem ledger_createWorkers (s : ThreadPool) (n : Nat) : (s.createWorkers n).ledger = s.ledger := by
  have hframe : (s.createWorkers n).tasks = s.tasks
      ∧ (s.createWorkers n).doingTasksToken = s.doingTasksToken
      ∧ (s.createWorkers n).undoTasksCabinet = s.undoTasksCabinet := by
    induction n generalizing s with
    | zero => exact ⟨rfl, rfl, rfl⟩
    | succ n ih => exact ih s.createWorker
  obtain ⟨htasks, hdoing, hcabinet⟩ := hframe
  exact Ledger.ext htasks hdoing (congrArg Cabinet.view hcabinet) (congrArg Cabinet.lastId hcabinet)
    (heldNum_createWorkers s n)

theorem ledger_initializePool (s : ThreadPool) (minThreadNum maxThreadNum : Int) :
    (s.initializePool minThreadNum maxThreadNum).ledger = s.ledger := by
  unfold initializePool
  split
  · rfl
  · split
    · rfl
    · exact ledger_createWorkers _ _

theorem modify_enter (hne : phase ≠ .executing) (tasks : List Task) (k : TaskId) :
    tasks.modify k (fun task => { task with phase := phase }) = tasks.modify k (·.enter phase) := by
  congr 1
  funext task
  rw [Task.enter, if_neg hne]

theorem ledger_free (hqueued : task.phase = .queued) (hnext : Phase.queued.Next phase)
    (htasks : t.tasks = s.tasks.modify k fun task => { task with phase := phase })
    (hdoing : t.doingTasksToken = s.doingTasksToken)
    (hcabinet : t.undoTasksCabinet = (s.undoTasksCabinet.free task.token).2)
    (hheld : t.heldNum = (s.ledger.move k task phase).held) :
    t.ledger = s.ledger.move k task phase := by
  refine Ledger.ext ?_ ?_ ?_ ?_ hheld
  · refine htasks.trans (modify_enter ?_ _ _)
    cases hnext <;> decide
  · refine hdoing.trans ?_
    cases hnext <;> rfl
  · show t.undoTasksCabinet.view = if _ then _ else _
    rw [if_pos hqueued, hcabinet]
    exact Cabinet.view_free _ _
  · show t.undoTasksCabinet.lastId = s.undoTasksCabinet.lastId
    rw [hcabinet]
    exact Cabinet.lastId_free _ _

theorem step_of_ledger_eq (phase : Phase) (htask : s.tasks[k]? = some task) (hnext : task.phase.Next phase)
    (h : t.ledger = s.ledger.move k task phase) : ReflTransGen Ledger.Step s.ledger t.ledger :=
  h ▸ .single (.move k task phase htask hnext)

theorem popOneTask_frame (s : ThreadPool) : s.popOneTask.2.tasks = s.tasks ∧ s.popOneTask.2.workers = s.workers
      ∧ s.popOneTask.2.doingTasksToken = s.doingTasksToken := by
  unfold popOneTask
  split <;> exact ⟨rfl, rfl, rfl⟩

theorem popOneTask_ledger (hq : s.QueueInv) (hl : s.ledger.Inv) (hpc : s.pcOf thread = some old)
    (hold : old.holds = none) : (s.popOneTask.1 = none ∧ s.popOneTask.2 = s) ∨ ∃ k, s.popOneTask.1 = some k
        ∧ ReflTransGen Ledger.Step s.ledger
          ((s.popOneTask.2.setPc thread (.popped (some k))).setPhase k .popped).ledger := by
  rcases hq.popOneTask with ⟨hnone, hsame, -⟩ | ⟨token, hqueue, -, hitem, hcabinet⟩
  · exact Or.inl ⟨hnone, hsame⟩
  obtain ⟨k, task, htask, rfl, hqueued, hat⟩ := exists_waiting_task hq hl (hqueue ▸ mem_cons_self)
  obtain ⟨htasks, hworkers, hdoing⟩ := s.popOneTask_frame
  refine Or.inr ⟨k, hitem.trans hat, step_of_ledger_eq .popped htask (hqueued ▸ .pop) ?_⟩
  refine ledger_free hqueued .pop (congrArg (List.modify · k _) htasks) hdoing hcabinet ?_
  have hheld : (s.setPc thread (.popped (some k))).heldNum = _ :=
    heldNum_move .popped hl htask hpc (by rw [hold, hqueued]; rfl) rfl
  exact (heldNum_congr (congrArg (List.modify · thread _) hworkers)).trans hheld

theorem leaveWait_ledger (hq : s.QueueInv) (hl : s.ledger.Inv) (hpc : s.pcOf thread = some old)
    (hold : old.holds = none) : ReflTransGen Ledger.Step s.ledger (s.leaveWait thread).ledger := by
  have hidle : ∀ pc : Pc, pc.holds = none →
      (({ s with idleThreadNum := s.idleThreadNum - 1 } : ThreadPool).setPc thread pc).ledger
        = s.ledger := fun pc hnew =>
    ledger_setPc (s := { s with idleThreadNum := s.idleThreadNum - 1 }) _ hpc hold hnew
  have hpop := popOneTask_ledger (s := { s with idleThreadNum := s.idleThreadNum - 1 }) (hq.congr rfl) hl hpc hold
  unfold leaveWait
  dsimp only
  split
  · exact hidle .exited rfl ▸ .refl
  rcases hpop with ⟨hnone, hsame⟩ | ⟨k, hitem, hsteps⟩
  · rw [hnone, hsame]
    exact hidle (.popped none) rfl ▸ .refl
  · rw [hitem]
    exact hsteps

theorem checkWait_ledger (hq : s.QueueInv) (hl : s.ledger.Inv) (hpc : s.pcOf thread = some old)
    (hold : old.holds = none) : ReflTransGen Ledger.Step s.ledger (s.checkWait thread).ledger := by
  unfold checkWait
  split
  · exact leaveWait_ledger hq hl hpc hold
  · rw [ledger_setPc .parking hpc hold rfl]

theorem enterLoop_ledger (hq : s.QueueInv) (hl : s.ledger.Inv) (hpc : s.pcOf thread = some .head) :
    ReflTransGen Ledger.Step s.ledger (s.enterLoop thread).ledger := by
  unfold enterLoop
  split
  · rw [ledger_setPc .leaving hpc rfl rfl]
  · exact checkWait_ledger (s := { s with idleThreadNum := s.idleThreadNum + 1 }) (hq.congr rfl) hl
      hpc rfl

theorem ledger_held (phase : Phase) (pc : Pc) (hl : s.ledger.Inv) (htask : s.tasks[k]? = some task)
    (hpc : s.pcOf thread = some old) (hnext : task.phase.Next phase) (hqueued : task.phase ≠ .queued)
    (hold : old.holds = if task.phase.isHeld then some (k, task.phase) else none)
    (hnew : pc.holds = if phase.isHeld then some (k, phase) else none)
    (htasks : t.tasks = s.tasks.modify k (·.enter phase))
    (hdoing : t.doingTasksToken = Ledger.doingAfter s.doingTasksToken task.token phase)
    (hcabinet : t.undoTasksCabinet = s.undoTasksCabinet) (hworkers : t.workers = (s.setPc thread pc).workers) :
    ReflTransGen Ledger.Step s.ledger t.ledger := by
  refine step_of_ledger_eq phase htask hnext (Ledger.ext htasks hdoing ?_ ?_ ?_)
  · show t.undoTasksCabinet.view = if _ then _ else _
    rw [if_neg hqueued, hcabinet]
    rfl
  · exact congrArg Cabinet.lastId hcabinet
  · exact (heldNum_congr hworkers).trans (heldNum_move phase hl htask hpc hold hnew)

theorem startTask_ledger (hl : s.ledger.Inv) (hpc : s.pcOf thread = some (.popped (some k))) :
    ReflTransGen Ledger.Step s.ledger (s.startTask thread k).ledger := by
  obtain ⟨task, htask, hphase⟩ := exists_task_of_holds hl hpc rfl
  have hstart : s.startTask thread k = { s.setPc thread (.executing k) with
      doingTasksToken := insert task.token s.doingTasksToken
      tasks := s.tasks.modify k (·.enter .executing) } := by
    unfold startTask
    dsimp only
    rw [show (s.setPc thread (.executing k)).tasks[k]? = some task from htask]
    rfl
  rw [hstart]
  exact ledger_held .executing (.executing k) hl htask hpc (hphase ▸ .start)
    (by rw [hphase]; decide) (by rw [hphase]; rfl) rfl rfl rfl rfl rfl

theorem finishBody_ledger (hl : s.ledger.Inv) (hpc : s.pcOf thread = some (.executing k)) :
    ReflTransGen Ledger.Step s.ledger (s.finishBody thread k).ledger := by
  obtain ⟨task, htask, hphase⟩ := exists_task_of_holds hl hpc rfl
  have hframe : (s.finishBody thread k).tasks
        = s.tasks.modify k (fun task => { task with phase := .finished })
      ∧ (s.finishBody thread k).doingTasksToken = s.doingTasksToken
      ∧ (s.finishBody thread k).undoTasksCabinet = s.undoTasksCabinet
      ∧ (s.finishBody thread k).workers = (s.setPc thread (.finished k)).workers := by
    unfold finishBody
    dsimp only
    repeat' split
    all_goals exact ⟨rfl, rfl, rfl, rfl⟩
  obtain ⟨htasks, hdoing, hcabinet, hworkers⟩ := hframe
  exact ledger_held .finished (.finished k) hl htask hpc (hphase ▸ .finish)
    (by rw [hphase]; decide) (by rw [hphase]; rfl) rfl (htasks.trans (modify_enter (by decide) _ _))
    hdoing hcabinet hworkers

theorem endTask_ledger (hl : s.ledger.Inv) (hpc : s.pcOf thread = some (.finished k)) :
    ReflTransGen Ledger.Step s.ledger (s.endTask thread k).ledger := by
  obtain ⟨task, htask, hphase⟩ := exists_task_of_holds hl hpc rfl
  have hend : s.endTask thread k = { (s.setPc thread .head).setPhase k .done with
      doingTasksToken := s.doingTasksToken.erase task.token } := by
    unfold endTask
    dsimp only
    rw [show ((s.setPc thread .head).setPhase k .done).tasks[k]?
        = some { task with phase := .done } by
      show (s.tasks.modify k _)[k]? = _
      rw [getElem?_modify_eq, htask]
      rfl]
    rfl
  rw [hend]
  exact ledger_held .done .head hl htask hpc (hphase ▸ .retire)
    (by rw [hphase]; decide) (by rw [hphase]; rfl) rfl (modify_enter (by decide) _ _) rfl rfl rfl

theorem cancel_queued (hq : s.QueueInv) (hl : s.ledger.Inv)
    (hdoing : token ∉ s.doingTasksToken) (hmem : token ∈ s.queue) :
    ∃ (k : TaskId) (task : Task), s.tasks[k]? = some task ∧ task.token = token
      ∧ task.phase = .queued ∧ (s.cancel token).1 = 0
      ∧ (s.cancel token).2.ledger = s.ledger.move k task .cancelled := by
  obtain ⟨k, task, htask, rfl, hqueued, hat⟩ := exists_waiting_task hq hl hmem
  have hheld := heldNum_move_of_queued .cancelled hl htask hqueued rfl
  refine ⟨k, task, htask, rfl, hqueued, ?_⟩
  unfold cancel
  rw [if_neg hdoing]
  split
  · exact absurd hmem (eraseToken_eq_none ‹_›)
  · dsimp only
    rw [show (s.undoTasksCabinet.free task.token).1 = some k from (Cabinet.free_fst _ _).trans hat]
    exact ⟨rfl, ledger_free hqueued .cancel rfl rfl rfl hheld⟩

theorem cancel_doing (hdoing : token ∈ s.doingTasksToken) : s.cancel token = (2, s) := if_pos hdoing

theorem cancel_notFound (hdoing : token ∉ s.doingTasksToken)
    (hmem : token ∉ s.queue) : s.cancel token = (1, s) := by
  unfold cancel
  rw [if_neg hdoing]
  split
  · rfl
  · exact absurd (eraseToken_eq_some ‹_›).1 hmem

theorem cancel_ledger (hq : s.QueueInv) (hl : s.ledger.Inv) (token : Token) :
    ReflTransGen Ledger.Step s.ledger (s.cancel token).2.ledger := by
  by_cases hdoing : token ∈ s.doingTasksToken
  · rw [cancel_doing hdoing]
  by_cases hmem : token ∈ s.queue
  · obtain ⟨k, task, htask, -, hqueued, -, hledger⟩ := cancel_queued hq hl hdoing hmem
    exact step_of_ledger_eq _ htask (hqueued ▸ .cancel) hledger
  · rw [cancel_notFound hdoing hmem]

theorem dropTasks_ledger (hl : s.ledger.Inv) (tokens : List Token) :
    ReflTransGen Ledger.Step s.ledger (s.dropTasks tokens).ledger := by
  induction tokens generalizing s with
  | nil => exact .refl
  | cons token tokens ih =>
    rw [dropTasks]
    dsimp only
    rw [Cabinet.free_fst, Cabinet.at?_eq_join_view]
    cases hview : s.undoTasksCabinet.view token with
    | none =>
      have hsame : ({ s with
          undoTasksCabinet := (s.undoTasksCabinet.free token).2 } : ThreadPool).ledger
            = s.ledger := by
        refine Ledger.ext rfl rfl ?_ (Cabinet.lastId_free _ _) rfl
        refine (Cabinet.view_free _ _).trans ?_
        rw [← hview]
        exact Function.update_eq_self _ _
      have hrest := ih (s := { s with undoTasksCabinet := (s.undoTasksCabinet.free token).2 }) (hsame ▸ hl)
      rw [hsame] at hrest
      exact hrest
    | some obj =>
      obtain ⟨k, task, rfl, htask, rfl, hqueued⟩ := hl.stored token obj hview
      have hheld := heldNum_move_of_queued .dropped hl htask hqueued rfl
      have hdrop : (({ s with
          undoTasksCabinet := (s.undoTasksCabinet.free task.token).2 } : ThreadPool).setPhase
            k .dropped).ledger = s.ledger.move k task .dropped :=
        ledger_free hqueued .drop rfl rfl rfl hheld
      have hstep : s.ledger.Step (s.ledger.move k task .dropped) := .move k task .dropped htask (hqueued ▸ .drop)
      have hrest := ih (hdrop ▸ hl.step hstep)
      rw [hdrop] at hrest
      exact .head hstep hrest

theorem ledger_cleanupNotifyAll (s : ThreadPool) (threadVec : List (Option ThreadId)) :
    ({ s with
      workers := s.workers.map fun w => if w.pc = .waiting then { w with pc := .notified } else w
      cleaner := .joining threadVec } : ThreadPool).ledger = s.ledger := by
  refine Ledger.ext rfl rfl rfl rfl ?_
  funext k phase
  show List.countP _ (List.map _ s.workers) = List.countP _ s.workers
  rw [countP_map]
  refine countP_congr fun w _ => ?_
  by_cases hw : w.pc = .waiting
  · simp [hw, Pc.holds]
  · simp [hw]

/-- **The pool refines its ledger.** -/
theorem Stepped.ledger (hq : s.QueueInv) (hl : s.ledger.Inv) {a : Action} (h : Stepped s a t) :
    ReflTransGen Ledger.Step s.ledger t.ledger := by
  have hmove : ∀ {thread old} pc, s.pcOf thread = some old → old.holds = none → pc.holds = none →
      ReflTransGen Ledger.Step s.ledger (s.setPc thread pc).ledger := fun pc hpc hold hnew =>
    ledger_setPc pc hpc hold hnew ▸ .refl
  cases h with
  | initializePool minThreadNum maxThreadNum => exact ledger_initializePool s _ _ ▸ .refl
  | execute mainCb prio =>
    unfold ThreadPool.execute
    split
    · exact .refl
    refine .single ?_
    have hledger : ({ (s.enqueue mainCb prio).provideWorker with
        notifies := s.notifies + 1 } : ThreadPool).ledger = _ :=
      (ledger_provideWorker _).trans (ledger_enqueue s mainCb prio)
    rw [hledger]
    exact .submit _ mainCb (Cabinet.view_alloc_fst _ _) (Cabinet.id_alloc _)
  | notifyOne thread hpc => exact hmove .notified hpc rfl rfl
  | cancel token => exact cancel_ledger hq hl token
  | cleanupDrain => exact dropTasks_ledger hl _
  | cleanupNotifyAll threadVec => exact ledger_cleanupNotifyAll s threadVec ▸ .refl
  | enterLoop thread _ hpc => exact enterLoop_ledger hq hl hpc
  | park thread hpc => exact hmove _ hpc rfl rfl
  | wakeUp thread hpc => exact hmove _ hpc rfl rfl
  | checkWait thread _ hpc => exact checkWait_ledger hq hl hpc rfl
  | skipTask thread hpc => exact hmove _ hpc rfl rfl
  | startTask thread item _ hpc => exact startTask_ledger hl hpc
  | finishBody thread item hpc => exact finishBody_ledger hl hpc
  | endTask thread item _ hpc => exact endTask_ledger hl hpc
  | removeSelf thread token _ hworker =>
    have hpc : s.pcOf thread = some .leaving := by rw [pcOf, hworker]; rfl
    exact hmove .exited hpc rfl rfl
  | _ => exact .refl

/-- The bookkeeping of every reachable state. -/
structure Tracked (s : ThreadPool) : Prop where
  queue : s.QueueInv
  ledger : s.ledger.Inv
  numbered : s.tasks.length ≤ Cabinet.sizeMax → s.ledger.Numbered

theorem Tracked.empty : ({} : ThreadPool).Tracked := by
  refine ⟨.empty, ⟨fun token obj hview => ?_, nofun, fun k phase => ?_, nofun⟩, fun _ =>
    ⟨rfl, nofun, fun token => ⟨nofun, by rintro ⟨k, task, htask, -⟩; cases htask⟩⟩⟩
  · rw [show ({} : ThreadPool).ledger.view token = none from Cabinet.view_empty token] at hview
    cases hview
  · exact (if_neg fun h => by cases h.2).symm

theorem Tracked.of_steps (hs : s.Tracked) (hq : t.QueueInv)
    (hsteps : ReflTransGen Ledger.Step s.ledger t.ledger) : t.Tracked :=
  ⟨hq, hs.ledger.steps hsteps, Ledger.Numbered.steps (l := s.ledger) hs.numbered hsteps⟩

/-- Each step of the pool is some steps of its ledger, case by case. -/
theorem Tracked.stepped (hs : s.Tracked) {a : Action} (h : Stepped s a t) : t.Tracked :=
  hs.of_steps (hs.queue.stepped h) (h.ledger hs.queue hs.ledger)

variable {actions : List Action}

/-- The bookkeeping is right in every state of a run. -/
theorem tracked_of_run (hrun : Lib.run step {} actions = some s) :
    s.Tracked :=
  Lib.run_invariant_of_step (fun _ _ _ hs h => hs.stepped (.of_step h)) .empty hrun

theorem started_of_cancelled (hs : s.Tracked)
    (hk : s.tasks[k]?.map Task.phase = some .cancelled)
    (hrun : Lib.run step s actions = some t) (hlater : t.tasks[k]? = some task) : task.started = 0 := by
  obtain ⟨ht, hstill⟩ := Lib.run_invariant_of_step
    (I := fun s => s.Tracked ∧ s.tasks[k]?.map Task.phase = some .cancelled)
    (fun s a t hs h => by
      have hstep := Stepped.of_step h
      exact ⟨hs.1.stepped hstep, Ledger.cancelled_steps (hstep.ledger hs.1.queue hs.1.ledger) hs.2⟩) ⟨hs, hk⟩ hrun
  rw [hlater] at hstill
  have hstarted := ht.ledger.started k task hlater
  rw [show task.phase = .cancelled from some.inj hstill] at hstarted
  exact hstarted

section Answers

variable (hs : s.Tracked) (hn : s.ledger.Numbered) (htask : s.tasks[k]? = some task)

include hs hn htask

theorem view_ne_none_iff : s.undoTasksCabinet.view task.token ≠ none ↔ task.phase = .queued :=
  hn.view_ne_none_iff hs.ledger htask

theorem getTaskStatus_eq : s.getTaskStatus task.token = if task.phase = .queued then .waiting
      else if task.phase.isDoing then .executing else .notFound := by
  unfold getTaskStatus
  refine if_congr ?_ rfl (if_congr (hn.mem_doing htask) rfl rfl)
  rw [Cabinet.at?_eq_join_view]
  exact hn.isSome_view_iff hs.ledger htask

theorem cancel_fst_eq : (s.cancel task.token).1
    = if task.phase.isDoing then 2 else if task.phase = .queued then 0 else 1 := by
  have hmem : task.token ∈ s.queue ↔ task.phase = .queued := by
    rw [← hs.queue.live, view_ne_none_iff hs hn htask]
  rw [if_congr (hn.mem_doing htask).symm rfl rfl, if_congr hmem.symm rfl rfl]
  split
  · rw [cancel_doing ‹_›]
  · split
    · exact (cancel_queued hs.queue hs.ledger ‹_› ‹_›).choose_spec.choose_spec.2.2.2.1
    · rw [cancel_notFound ‹_› ‹_›]

end Answers

theorem exists_holder_iff (phase : Phase) (hl : s.ledger.Inv) (htask : s.tasks[k]? = some task)
    (hheld : phase.isHeld = true) : (∃ w ∈ s.workers, w.pc.holds = some (k, phase)) ↔ task.phase = phase := by
  have hpos : (∃ w ∈ s.workers, w.pc.holds = some (k, phase)) ↔ 0 < s.heldNum k phase := by
    unfold heldNum
    simp
  rw [hpos, heldNum_eq hl htask]
  split
  · rename_i h
    exact iff_of_true Nat.one_pos h.2.symm
  · rename_i h
    exact iff_of_false (Nat.lt_irrefl 0) fun hphase => h ⟨hheld, hphase.symm⟩

/-- No worker is between two sections with a task that the pool misreports: popped and not entered, or over and not
taken out. -/
def NoGap (s : ThreadPool) (k : TaskId) : Prop :=
  ∀ w ∈ s.workers, w.pc ≠ .popped (some k) ∧ w.pc ≠ .finished k

theorem noGap_iff (hl : s.ledger.Inv) (htask : s.tasks[k]? = some task) :
    s.NoGap k ↔ task.phase ≠ .popped ∧ task.phase ≠ .finished := by
  have hpopped := exists_holder_iff .popped hl htask rfl
  have hfinished := exists_holder_iff .finished hl htask rfl
  constructor
  · intro hgap
    refine ⟨fun hphase => ?_, fun hphase => ?_⟩
    · obtain ⟨w, hmem, hw⟩ := hpopped.mpr hphase
      exact (hgap w hmem).1 (Pc.holds_popped.mp hw)
    · obtain ⟨w, hmem, hw⟩ := hfinished.mpr hphase
      exact (hgap w hmem).2 (Pc.holds_finished.mp hw)
  · rintro ⟨hnotPopped, hnotFinished⟩ w hmem
    exact ⟨fun hw => hnotPopped (hpopped.mp ⟨w, hmem, Pc.holds_popped.mpr hw⟩),
      fun hw => hnotFinished (hfinished.mp ⟨w, hmem, Pc.holds_finished.mpr hw⟩)⟩

/-- What `getTaskStatus` and `cancel` say of the task is so. -/
structure TellsTruth (s : ThreadPool) (k : TaskId) (task : Task) : Prop where
  /-- a task that was neither cancelled nor finished is found -/
  found : task.phase.isSettled = false → s.getTaskStatus task.token ≠ .notFound
  /-- `0`: the task was not started and never is -/
  cancelled : (s.cancel task.token).1 = 0 → ∀ actions t,
    Lib.run step (s.cancel task.token).2 actions = some t →
      ∀ later, t.tasks[k]? = some later → later.started = 0
  /-- `2`: a worker executes the task -/
  executing : (s.cancel task.token).1 = 2 → ∃ w ∈ s.workers, w.pc = .executing k
  /-- `1`: the task was cancelled or its body is over -/
  notFound : (s.cancel task.token).1 = 1 → task.phase.isSettled = true

theorem started_after_cancel (hs : s.Tracked) (hn : s.ledger.Numbered)
    (htask : s.tasks[k]? = some task) (hzero : (s.cancel task.token).1 = 0)
    (hrun : Lib.run step (s.cancel task.token).2 actions = some t) {later : Task}
    (hlater : t.tasks[k]? = some later) : later.started = 0 := by
  have hdoing : task.token ∉ s.doingTasksToken := by
    intro hdoing
    rw [cancel_doing hdoing] at hzero
    cases hzero
  have hmem : task.token ∈ s.queue := by
    by_contra hmem
    rw [cancel_notFound hdoing hmem] at hzero
    cases hzero
  obtain ⟨j, other, hother, htoken, -, -, hledger⟩ := cancel_queued hs.queue hs.ledger hdoing hmem
  obtain rfl := hn.token_inj htask hother htoken
  have hcancelled : (s.cancel task.token).2.ledger.tasks[j]?.map Task.phase = some .cancelled := by
    rw [hledger, Ledger.getElem?_move_self _ hother]
    rfl
  exact started_of_cancelled
    (hs.of_steps (hs.queue.cancel _) (cancel_ledger hs.queue hs.ledger _)) hcancelled hrun hlater

/-- **Status and cancel tell the truth** about a task exactly when no worker is in one of the two
gaps with it, unless `cleanup` threw it away. -/
theorem tellsTruth_iff {actions : List Action} (hrun : Lib.run step {} actions = some s)
    (hwrap : s.tasks.length ≤ Cabinet.sizeMax) (htask : s.tasks[k]? = some task) :
    s.TellsTruth k task ↔ s.NoGap k ∧ task.phase ≠ .dropped := by
  have hs := tracked_of_run hrun
  have hn : s.ledger.Numbered := hs.numbered hwrap
  have hstatus := getTaskStatus_eq hs hn htask
  have hcancel := cancel_fst_eq hs hn htask
  have hexecuting : (∃ w ∈ s.workers, w.pc = .executing k) ↔ task.phase = .executing := by
    simp only [← Pc.holds_executing]
    exact exists_holder_iff _ hs.ledger htask rfl
  rw [noGap_iff hs.ledger htask]
  constructor
  · intro htruth
    refine ⟨⟨fun hphase => ?_, fun hphase => ?_⟩, fun hphase => ?_⟩
    · exact htruth.found (by rw [hphase]; rfl) (by rw [hstatus, hphase]; rfl)
    · have hdoing := hexecuting.mp (htruth.executing (by rw [hcancel, hphase]; rfl))
      rw [hphase] at hdoing
      cases hdoing
    · exact htruth.found (by rw [hphase]; rfl) (by rw [hstatus, hphase]; rfl)
  · rintro ⟨⟨hpopped, hfinished⟩, hdropped⟩
    refine ⟨fun hopen => ?_, fun hzero actions t hrun later hlater =>
      started_after_cancel hs hn htask hzero hrun hlater, fun htwo => ?_, fun hone => ?_⟩
    · rw [hstatus]
      cases hphase : task.phase <;> simp_all [Phase.isSettled, Phase.isDoing]
    · rw [hexecuting]
      rw [hcancel] at htwo
      cases hphase : task.phase <;> simp_all [Phase.isDoing]
    · rw [hcancel] at hone
      cases hphase : task.phase <;> simp_all [Phase.isSettled, Phase.isDoing]

/-- A task that waits in the queue. -/
theorem tellsTruth_waiting :
    ∃ s, Lib.run step {} [.initializePool 1 1, .initializeEnd, .execute false 0] = some s
      ∧ s.TellsTruth 0 { token := ⟨1, 0⟩, mainCb := false } := by
  obtain ⟨s, hrun, hs⟩ := (Option.any_eq_true _ _).mp (show Option.any
    (fun s => s.tasks = [{ token := ⟨1, 0⟩, mainCb := false }] ∧ s.workers = [⟨⟨1, 0⟩, .head⟩])
    (Lib.run step {} [.initializePool 1 1, .initializeEnd, .execute false 0]) = true by decide)
  obtain ⟨htasks, hworkers⟩ := of_decide_eq_true hs
  refine ⟨s, hrun, (tellsTruth_iff hrun ?_ ?_).mpr ⟨?_, by decide⟩⟩
  · rw [htasks]
    decide
  · rw [htasks]
    rfl
  · rw [NoGap, hworkers]
    decide

/-- A task that a worker has just popped is reported as unknown. -/
theorem popped_task_not_found :
    ∃ s task, Lib.run step {} [.initializePool 1 1, .initializeEnd, .execute false 0, .enterLoop 0] = some s
      ∧ s.tasks[0]? = some task ∧ ¬s.TellsTruth 0 task := by
  obtain ⟨s, hrun, hs⟩ := (Option.any_eq_true _ _).mp (show Option.any
    (fun s => s.tasks = [{ token := ⟨1, 0⟩, mainCb := false, phase := .popped }]
      ∧ s.getTaskStatus ⟨1, 0⟩ = .notFound)
    (Lib.run step {} [.initializePool 1 1, .initializeEnd, .execute false 0, .enterLoop 0]) = true
    by decide)
  obtain ⟨htasks, hstatus⟩ := of_decide_eq_true hs
  refine ⟨s, _, hrun, by rw [htasks]; rfl, fun htruth => ?_⟩
  exact htruth.found rfl hstatus

end ThreadPool

end Tbox.Eventx
