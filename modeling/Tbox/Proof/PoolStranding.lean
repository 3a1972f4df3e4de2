import Tbox.Proof.PoolInvariant

/-!
# Who will pop the waiting tasks

A worker decides to exit under the lock but leaves `threads_cabinet` in a later section: an `execute` that finds the
cabinet full of such workers creates none. `ServedWhenFull` is exactly the absence of that.
-/

open List Option

namespace Tbox.Eventx

open Cabinet (Token)

/-- The worker is inside `wait`. -/
def Pc.inWait : Pc → Bool
  | .parking | .waiting | .notified => true
  | _ => false

def Pc.committed : Pc → Bool
  | .leaving | .exited => true
  | _ => false

theorem Pc.committed_of_inWait {pc : Pc} (h : pc.inWait = true) : pc.committed = false := by
  cases pc <;> simp_all [inWait, committed]

namespace ThreadPool

variable {s t : ThreadPool} {thread : ThreadId} {pc old : Pc}

/-- Some worker has not decided to exit. -/
def Served (s : ThreadPool) : Prop := ∃ w ∈ s.workers, w.pc.committed = false

/-- While the pool is not stopping, waiting tasks have a worker that will look for them. -/
def NoTaskStranded (s : ThreadPool) : Prop :=
  s.allThreadsStopFlag = false → s.queue ≠ [] → s.Served

/-- An `execute` that finds the cabinet full finds a worker that stays, and a stopped pool is not started over waiting
tasks. -/
def ServedWhenFull (s : ThreadPool) : Action → Prop
  | .execute _ _ =>
    s.isReady = true → s.allThreadsStopFlag = false → s.maxThreadNum ≤ s.threadsCabinet.size →
      s.Served
  | .initializeEnd => s.allThreadsStopFlag = true → s.queue ≠ [] → s.Served
  | _ => True

theorem exists_worker (hpc : s.pcOf thread = some old) : ∃ w, s.workers[thread]? = some w ∧ w.pc = old :=
  map_eq_some_iff.mp hpc

theorem Served.congr (hs : s.Served) (h : t.workers = s.workers) : t.Served := by
  unfold Served
  rw [h]
  exact hs

theorem served_setPc (hpc : s.pcOf thread = some old) (hnew : pc.committed = false) : (s.setPc thread pc).Served := by
  obtain ⟨w, hw, -⟩ := exists_worker hpc
  exact ⟨{ w with pc := pc }, Lib.mem_modify_self hw _, hnew⟩

theorem Served.setPc (hs : s.Served) (hpc : s.pcOf thread = some old) (hold : old.committed = true) :
    (s.setPc thread pc).Served := by
  obtain ⟨w, hw, rfl⟩ := exists_worker hpc
  obtain ⟨v, hv, hstays⟩ := hs
  refine ⟨v, Lib.mem_modify_of_mem hw hv ?_ _, hstays⟩
  rintro rfl
  rw [hold] at hstays
  cases hstays

theorem served_createWorker (s : ThreadPool) : s.createWorker.Served := ⟨_, mem_append_right _ mem_cons_self, rfl⟩

/-- The number of workers inside `wait`. -/
def inWaitNum (s : ThreadPool) : Nat := s.workers.countP fun w => w.pc.inWait

theorem inWaitNum_congr (h : t.workers = s.workers) : t.inWaitNum = s.inWaitNum := by
  unfold inWaitNum
  rw [h]

theorem inWaitNum_setPc (pc : Pc) (hpc : s.pcOf thread = some old) :
    (s.setPc thread pc).inWaitNum + (if old.inWait then 1 else 0) = s.inWaitNum + (if pc.inWait then 1 else 0) := by
  obtain ⟨w, hw, rfl⟩ := exists_worker hpc
  exact Lib.countP_modify_add hw _ _

theorem served_of_inWaitNum (h : s.inWaitNum ≠ 0) : s.Served := by
  obtain ⟨w, hmem, hw⟩ := countP_pos_iff.mp (Nat.pos_of_ne_zero h)
  exact ⟨w, hmem, Pc.committed_of_inWait hw⟩

/-- `idle_thread_num` is the number of workers inside `wait`. -/
def IdleCounted (s : ThreadPool) : Prop := s.idleThreadNum = s.inWaitNum

theorem workers_popOneTask (s : ThreadPool) :
    s.popOneTask.2.workers = s.workers ∧ s.popOneTask.2.idleThreadNum = s.idleThreadNum := by
  unfold popOneTask
  split <;> exact ⟨rfl, rfl⟩

theorem workers_setPc_congr (h : t.workers = s.workers) (thread : ThreadId) (pc : Pc) :
    (t.setPc thread pc).workers = (s.setPc thread pc).workers :=
  congrArg (List.modify · thread _) h

theorem leaveWait_spec (s : ThreadPool) (thread : ThreadId) :
    ∃ pc, pc.inWait = false ∧ (s.allThreadsStopFlag = false → pc.committed = false)
      ∧ (s.leaveWait thread).workers = (s.setPc thread pc).workers
      ∧ (s.leaveWait thread).idleThreadNum = s.idleThreadNum - 1 := by
  obtain ⟨hworkers, hidle⟩ := workers_popOneTask ({ s with idleThreadNum := s.idleThreadNum - 1 } : ThreadPool)
  unfold leaveWait
  dsimp only
  split
  · rename_i hstop
    exact ⟨.exited, rfl, fun h => absurd (hstop.symm.trans h) (by decide), rfl, rfl⟩
  refine ⟨.popped ({ s with idleThreadNum := s.idleThreadNum - 1 } : ThreadPool).popOneTask.1,
    rfl, fun _ => rfl, ?_, ?_⟩
  · split <;> exact workers_setPc_congr hworkers _ _
  · split <;> exact hidle

theorem checkWait_spec (s : ThreadPool) (thread : ThreadId) :
    ∃ pc, (s.allThreadsStopFlag = false → pc.committed = false)
      ∧ (s.checkWait thread).workers = (s.setPc thread pc).workers ∧ (s.checkWait thread).idleThreadNum
        = if pc.inWait then s.idleThreadNum else s.idleThreadNum - 1 := by
  unfold checkWait
  split
  · obtain ⟨pc, hinWait, hstop, hworkers, hidle⟩ := s.leaveWait_spec thread
    refine ⟨pc, hstop, hworkers, ?_⟩
    rw [hinWait, hidle]
    rfl
  · exact ⟨.parking, fun _ => rfl, rfl, rfl⟩

theorem workers_startTask (s : ThreadPool) (thread : ThreadId) (item : TaskId) :
    (s.startTask thread item).workers = (s.setPc thread (.executing item)).workers
      ∧ (s.startTask thread item).idleThreadNum = s.idleThreadNum := by
  unfold startTask
  dsimp only
  split <;> exact ⟨rfl, rfl⟩

theorem workers_finishBody (s : ThreadPool) (thread : ThreadId) (item : TaskId) :
    (s.finishBody thread item).workers = (s.setPc thread (.finished item)).workers
      ∧ (s.finishBody thread item).idleThreadNum = s.idleThreadNum := by
  unfold finishBody
  dsimp only
  repeat' split
  all_goals exact ⟨rfl, rfl⟩

theorem workers_endTask (s : ThreadPool) (thread : ThreadId) (item : TaskId) :
    (s.endTask thread item).workers = (s.setPc thread .head).workers
      ∧ (s.endTask thread item).idleThreadNum = s.idleThreadNum := by
  unfold endTask
  dsimp only
  split <;> exact ⟨rfl, rfl⟩

theorem workers_cancel (s : ThreadPool) (token : Token) : (s.cancel token).2.workers = s.workers
      ∧ (s.cancel token).2.idleThreadNum = s.idleThreadNum := by
  unfold cancel
  split
  · exact ⟨rfl, rfl⟩
  split
  · exact ⟨rfl, rfl⟩
  · dsimp only
    split <;> exact ⟨rfl, rfl⟩

theorem workers_dropTasks (s : ThreadPool) (tokens : List Token) : (s.dropTasks tokens).workers = s.workers
      ∧ (s.dropTasks tokens).idleThreadNum = s.idleThreadNum :=
  ⟨dropTasks_apply (fun _ _ _ => rfl) s tokens, dropTasks_apply (fun _ _ _ => rfl) s tokens⟩

namespace IdleCounted

theorem congr (hs : s.IdleCounted) (hworkers : t.workers = s.workers)
    (hidle : t.idleThreadNum = s.idleThreadNum) : t.IdleCounted :=
  hidle.trans (hs.trans (inWaitNum_congr hworkers).symm)

theorem createWorker (hs : s.IdleCounted) : s.createWorker.IdleCounted := by
  show s.idleThreadNum = List.countP _ (s.workers ++ [_])
  rw [countP_append, hs]
  rfl

theorem createWorkers (hs : s.IdleCounted) (n : Nat) : (s.createWorkers n).IdleCounted := by
  induction n generalizing s with
  | zero => exact hs
  | succ n ih => exact ih hs.createWorker

theorem initializePool (hs : s.IdleCounted) (minThreadNum maxThreadNum : Int) :
    (s.initializePool minThreadNum maxThreadNum).IdleCounted := by
  unfold ThreadPool.initializePool
  split
  · exact hs
  split
  · exact hs
  · exact createWorkers (s := { s with
      minThreadNum := minThreadNum.toNat, maxThreadNum := maxThreadNum.toNat, starting := true })
      (hs.congr rfl rfl) _

theorem execute (hs : s.IdleCounted) (mainCb : Bool) (prio : Int) : (s.execute mainCb prio).IdleCounted := by
  have hqueued : (s.enqueue mainCb prio).IdleCounted := hs.congr rfl rfl
  unfold ThreadPool.execute provideWorker
  split
  · exact hs
  split
  · split
    · exact hqueued.createWorker.congr rfl rfl
    · split <;> exact hqueued.congr rfl rfl
  · exact hqueued.congr rfl rfl

theorem setPc (hs : s.IdleCounted) (hpc : s.pcOf thread = some old)
    (hworkers : t.workers = (s.setPc thread pc).workers)
    (hidle : t.idleThreadNum = s.idleThreadNum) (hsame : pc.inWait = old.inWait) :
    t.IdleCounted := by
  have hcount := inWaitNum_setPc pc hpc
  rw [hsame] at hcount
  exact hidle.trans (hs.trans ((Nat.add_right_cancel hcount).symm.trans (inWaitNum_congr hworkers).symm))

theorem checkWait (hpc : s.pcOf thread = some old)
    (hcounted : s.idleThreadNum + (if old.inWait then 1 else 0) = s.inWaitNum + 1) :
    (s.checkWait thread).IdleCounted := by
  obtain ⟨pc, -, hworkers, hidle⟩ := s.checkWait_spec thread
  have hcount := inWaitNum_setPc pc hpc
  rw [IdleCounted, inWaitNum_congr hworkers, hidle]
  by_cases hpark : pc.inWait
  · rw [if_pos hpark] at hcount ⊢
    omega
  · rw [if_neg hpark] at hcount ⊢
    omega

theorem enterLoop (hs : s.IdleCounted) (hpc : s.pcOf thread = some .head) : (s.enterLoop thread).IdleCounted := by
  unfold ThreadPool.enterLoop
  split
  · exact hs.setPc hpc rfl rfl rfl
  · refine checkWait (s := { s with idleThreadNum := s.idleThreadNum + 1 }) hpc ?_
    exact congrArg (· + 1) hs

theorem cleanupNotifyAll (hs : s.IdleCounted) (threadVec : List (Option ThreadId)) :
    IdleCounted { s with
      workers := s.workers.map fun w => if w.pc = .waiting then { w with pc := .notified } else w
      cleaner := .joining threadVec } := by
  show s.idleThreadNum = List.countP _ (List.map _ s.workers)
  rw [countP_map, hs]
  refine countP_congr fun w _ => ?_
  by_cases hw : w.pc = .waiting <;> simp [hw, Pc.inWait]

/-- `idle_thread_num` counts the workers inside `wait` after every step. -/
theorem stepped (hs : s.IdleCounted) {a : Action} (h : Stepped s a t) : t.IdleCounted := by
  cases h with
  | initializePool minThreadNum maxThreadNum => exact hs.initializePool _ _
  | execute mainCb prio => exact hs.execute mainCb prio
  | notifyOne thread hpc => exact hs.setPc hpc rfl rfl rfl
  | cancel token => exact hs.congr (workers_cancel s token).1 (workers_cancel s token).2
  | cleanupDrain =>
    exact hs.congr (workers_dropTasks s _).1 (workers_dropTasks s _).2
  | cleanupNotifyAll threadVec => exact hs.cleanupNotifyAll threadVec
  | enterLoop thread _ hpc => exact hs.enterLoop hpc
  | park thread hpc => exact hs.setPc hpc rfl rfl rfl
  | wakeUp thread hpc => exact hs.setPc hpc rfl rfl rfl
  | checkWait thread _ hpc => exact checkWait hpc (congrArg (· + 1) hs)
  | skipTask thread hpc => exact hs.setPc hpc rfl rfl rfl
  | startTask thread item _ hpc =>
    exact hs.setPc hpc (workers_startTask s thread item).1 (workers_startTask s thread item).2 rfl
  | finishBody thread item hpc =>
    exact hs.setPc hpc (workers_finishBody s thread item).1 (workers_finishBody s thread item).2 rfl
  | endTask thread item _ hpc =>
    exact hs.setPc hpc (workers_endTask s thread item).1 (workers_endTask s thread item).2 rfl
  | removeSelf thread token _ hworker =>
    have hpc : s.pcOf thread = some .leaving := by rw [pcOf, hworker]; rfl
    exact hs.setPc hpc rfl rfl rfl
  | _ => exact hs.congr rfl rfl

end IdleCounted

namespace NoTaskStranded

theorem congr (hs : s.NoTaskStranded) (hflag : t.allThreadsStopFlag = s.allThreadsStopFlag)
    (hqueue : t.waiting = s.waiting) (hserved : s.Served → t.Served) : t.NoTaskStranded := by
  intro hstop hwaiting
  rw [queue_congr hqueue] at hwaiting
  exact hserved (hs (hflag ▸ hstop) hwaiting)

theorem of_setPc (hpc : s.pcOf thread = some old) (hworkers : t.workers = (s.setPc thread pc).workers)
    (hnew : pc.committed = false) : t.NoTaskStranded :=
  fun _ _ => (served_setPc hpc hnew).congr hworkers

theorem checkWait (hpc : s.pcOf thread = some old) : (s.checkWait thread).NoTaskStranded := by
  intro hstop hwaiting
  obtain ⟨pc, hnew, hworkers, -⟩ := s.checkWait_spec thread
  exact of_setPc hpc hworkers (hnew (stopFlag_checkWait s thread ▸ hstop)) hstop hwaiting

theorem enterLoop (hq : s.QueueInv) (hi : s.IdleCounted) (hpc : s.pcOf thread = some .head) :
    (s.enterLoop thread).NoTaskStranded := by
  unfold ThreadPool.enterLoop
  split
  · rename_i hsurplus
    intro _ hwaiting
    have hcount := inWaitNum_setPc .leaving hpc
    have hlength : 0 < s.queue.length := length_pos_iff.mpr hwaiting
    have hidle : s.queue.length ≤ s.inWaitNum := hq.counted ▸ hi ▸ hsurplus.1
    have hsame : (s.setPc thread .leaving).inWaitNum = s.inWaitNum := Nat.add_right_cancel hcount
    exact served_of_inWaitNum (by omega)
  · exact checkWait (s := { s with idleThreadNum := s.idleThreadNum + 1 }) hpc

theorem cleanupNotifyAll (hs : s.NoTaskStranded) (threadVec : List (Option ThreadId)) :
    NoTaskStranded { s with
      workers := s.workers.map fun w => if w.pc = .waiting then { w with pc := .notified } else w
      cleaner := .joining threadVec } := by
  refine hs.congr rfl rfl fun hserved => ?_
  obtain ⟨w, hmem, hstays⟩ := hserved
  refine ⟨_, List.mem_map_of_mem hmem, ?_⟩
  split
  · rfl
  · exact hstays

theorem initializePool (hs : s.NoTaskStranded) (minThreadNum maxThreadNum : Int) :
    (s.initializePool minThreadNum maxThreadNum).NoTaskStranded := by
  have hcreate : ∀ (n : Nat) (u : ThreadPool), u.Served → (u.createWorkers n).Served := by
    intro n
    induction n with
    | zero => exact fun _ hserved => hserved
    | succ n ih => exact fun u _ => ih _ u.served_createWorker
  refine hs.congr (stopFlag_initializePool _ _ _) (waiting_initializePool _ _ _) fun hserved => ?_
  unfold ThreadPool.initializePool
  split
  · exact hserved
  · split
    · exact hserved
    · exact hcreate _ _ (hserved.congr rfl)

end NoTaskStranded

theorem served_execute_iff (hq : s.QueueInv) (hi : s.IdleCounted) (mainCb : Bool) (prio : Int)
    (hready : s.isReady = true) :
    (s.execute mainCb prio).Served ↔ (s.maxThreadNum ≤ s.threadsCabinet.size → s.Served) := by
  obtain ⟨hqueued, hperm⟩ := hq.enqueue mainCb prio
  have hundo : (s.enqueue mainCb prio).undoTasksCabinet.size = s.queue.length + 1 := by
    rw [hqueued.counted, hperm.length_eq, length_cons]
  have hidle : s.queue.length + 1 ≤ s.idleThreadNum → s.Served := fun h => served_of_inWaitNum (by rw [← hi]; omega)
  have hworkers : (s.execute mainCb prio).workers = ((s.enqueue mainCb prio).provideWorker).workers := by
    unfold execute
    rw [if_neg (by simp [hready])]
  have hcongr : (s.execute mainCb prio).Served ↔ ((s.enqueue mainCb prio).provideWorker).Served :=
    ⟨fun h => h.congr hworkers.symm, fun h => h.congr hworkers⟩
  rw [hcongr]
  unfold provideWorker
  rw [hundo]
  split
  · split
    · rename_i hroom
      exact ⟨fun _ hfull => absurd hfull (Nat.not_le.mpr hroom), fun _ => served_createWorker _⟩
    rename_i hfull
    have hsame : ∀ u : ThreadPool, u.workers = s.workers →
        (u.Served ↔ (s.maxThreadNum ≤ s.threadsCabinet.size → s.Served)) := fun u hu =>
      ⟨fun h _ => h.congr hu.symm, fun h => (h (Nat.not_lt.mp hfull)).congr hu⟩
    split <;> exact hsame _ rfl
  · rename_i henough
    have hserved : s.Served := hidle (Nat.not_lt.mp henough)
    exact ⟨fun _ _ => hserved, fun _ => hserved.congr rfl⟩

theorem noTaskStranded_execute (hq : s.QueueInv) (hi : s.IdleCounted) (hs : s.NoTaskStranded)
    (mainCb : Bool) (prio : Int) :
    (s.execute mainCb prio).NoTaskStranded ↔ s.ServedWhenFull (.execute mainCb prio) := by
  by_cases hready : s.isReady = true
  · have hwaiting : (s.execute mainCb prio).queue ≠ [] := by
      rw [queue_congr (QueueInv.waiting_execute s mainCb prio hready)]
      intro hempty
      have hlength := (hq.enqueue mainCb prio).2.length_eq
      rw [hempty] at hlength
      cases hlength
    have hserved := served_execute_iff hq hi mainCb prio hready
    constructor
    · intro h _ hstop
      exact hserved.mp (h (stopFlag_execute s mainCb prio ▸ hstop) hwaiting)
    · intro h hstop _
      exact hserved.mpr (h hready (stopFlag_execute s mainCb prio ▸ hstop))
  · have hsame : s.execute mainCb prio = s := if_pos (by simpa using hready)
    rw [hsame]
    exact ⟨fun _ h => absurd h hready, fun _ => hs⟩

theorem noTaskStranded_initializeEnd (hs : s.NoTaskStranded) :
    s.initializeEnd.NoTaskStranded ↔ s.ServedWhenFull .initializeEnd := by
  constructor
  · exact fun h _ hwaiting => h rfl hwaiting
  intro h _ hwaiting
  cases hstop : s.allThreadsStopFlag with
  | false => exact hs hstop hwaiting
  | true => exact h hstop hwaiting

/-- A step strands no task exactly if it serves when the cabinet is full. -/
theorem noTaskStranded_stepped (hq : s.QueueInv) (hi : s.IdleCounted) (hs : s.NoTaskStranded)
    {a : Action} (h : Stepped s a t) : t.NoTaskStranded ↔ s.ServedWhenFull a := by
  have hfree : ∀ {P : Prop}, P → (P ↔ True) := fun hP => iff_true_intro hP
  cases h with
  | initializePool minThreadNum maxThreadNum => exact hfree (hs.initializePool _ _)
  | initializeEnd => exact noTaskStranded_initializeEnd hs
  | execute mainCb prio => exact noTaskStranded_execute hq hi hs mainCb prio
  | notifyOne thread hpc => exact hfree (.of_setPc hpc rfl rfl)
  | cancel token =>
    refine hfree fun hstop hwaiting => ?_
    have hserved : s.Served := hs (stopFlag_cancel s token ▸ hstop) fun hempty =>
      hwaiting (subset_nil.mp (hempty ▸ s.queue_cancel token))
    exact hserved.congr (workers_cancel s token).1
  | cleanupDrain => exact hfree fun _ hwaiting => absurd hq.cleanupDrain.2 hwaiting
  | cleanupStopFlag => exact hfree (by rintro ⟨⟩)
  | cleanupNotifyAll threadVec => exact hfree (hs.cleanupNotifyAll threadVec)
  | enterLoop thread _ hpc => exact hfree (.enterLoop hq hi hpc)
  | park thread hpc => exact hfree (.of_setPc hpc rfl rfl)
  | wakeUp thread hpc => exact hfree (.of_setPc hpc rfl rfl)
  | checkWait thread _ hpc => exact hfree (.checkWait hpc)
  | skipTask thread hpc => exact hfree (.of_setPc hpc rfl rfl)
  | startTask thread item _ hpc => exact hfree (.of_setPc hpc (workers_startTask s thread item).1 rfl)
  | finishBody thread item hpc => exact hfree (.of_setPc hpc (workers_finishBody s thread item).1 rfl)
  | endTask thread item _ hpc => exact hfree (.of_setPc hpc (workers_endTask s thread item).1 rfl)
  | removeSelf thread token _ hworker =>
    have hpc : s.pcOf thread = some .leaving := by rw [pcOf, hworker]; rfl
    exact hfree (hs.congr rfl rfl fun hserved => (hserved.setPc hpc rfl).congr rfl)
  | _ => exact hfree (hs.congr rfl rfl fun hserved => hserved.congr rfl)

/-- **No task is stranded** in any state of a run exactly when every `execute` of it that finds the
cabinet of threads full finds a worker that has not decided to exit. -/
theorem noTaskStranded_iff (actions : List Action) :
    Lib.Always step NoTaskStranded {} actions ↔ Lib.Along step ServedWhenFull {} actions := by
  refine Lib.always_iff_along (I := fun s => s.QueueInv ∧ s.IdleCounted) (b := fun _ _ => True)
    ?_ ?_ ⟨.empty, rfl⟩ (Lib.along_of_forall fun _ _ => trivial) fun _ h => absurd rfl h
  · intro s a t hinv _ _ hstep
    exact ⟨hinv.1.stepped (.of_step hstep), hinv.2.stepped (.of_step hstep)⟩
  · intro s a t hinv _ hs hstep
    exact noTaskStranded_stepped hinv.1 hinv.2 hs (.of_step hstep)

/-- With one worker allowed: it has decided to exit, and still fills the cabinet, when the next task
arrives. -/
def strandingRun : List Action :=
  [.initializePool 0 1, .initializeEnd, .execute false 0, .enterLoop 0, .startTask 0, .finishBody 0,
    .endTask 0, .enterLoop 0, .execute false 0]

theorem task_stranded_by_leaving_worker : ¬Lib.Always step NoTaskStranded {} strandingRun := by
  intro halways
  obtain ⟨t, hrun, hstranded⟩ := (Option.any_eq_true _ _).mp (show Option.any
    (fun t => !t.allThreadsStopFlag && t.queue != [] && t.workers.all fun w => w.pc.committed)
    (Lib.run step {} strandingRun) = true by decide)
  simp only [Bool.and_eq_true, Bool.not_eq_true', bne_iff_ne, List.all_eq_true] at hstranded
  obtain ⟨w, hmem, hstays⟩ := halways _ (List.prefix_refl _) t hrun hstranded.1.1 hstranded.1.2
  rw [hstranded.2 w hmem] at hstays
  cases hstays

end ThreadPool

end Tbox.Eventx
