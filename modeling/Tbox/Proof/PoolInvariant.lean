import Tbox.Proof.PoolSteps

/-!
# The pool's bookkeeping

Waiting tasks are indexed twice, by the cabinet and by the deques of tokens, which agree. No function but `cleanup`
and the end of `initialize` touches the stop flag.
-/

open List

namespace Tbox.Eventx.ThreadPool

open Cabinet (Token)

variable {s t : ThreadPool}

/-! ### Frames

The fields an invariant depends on, read together: that a function does not touch them is one
equation. -/

def waiting (s : ThreadPool) : List (List Token) × Cabinet TaskId :=
  (s.undoTasksToken, s.undoTasksCabinet)

theorem queue_congr (h : t.waiting = s.waiting) : t.queue = s.queue :=
  congrArg (fun w : List (List Token) × Cabinet TaskId => w.1.flatten) h

section Frames

variable (s) (thread : ThreadId) (item : TaskId) (mainCb : Bool) (prio : Int)

@[simp] theorem waiting_createWorkers (n : Nat) : (s.createWorkers n).waiting = s.waiting := by
  induction n generalizing s with
  | zero => rfl
  | succ n ih => exact ih s.createWorker

@[simp] theorem waiting_initializePool (minThreadNum maxThreadNum : Int) :
    (s.initializePool minThreadNum maxThreadNum).waiting = s.waiting := by
  unfold initializePool
  split
  · rfl
  · split
    · rfl
    · exact waiting_createWorkers _ _

@[simp] theorem waiting_provideWorker : s.provideWorker.waiting = s.waiting := by
  unfold provideWorker
  repeat' split
  all_goals rfl

@[simp] theorem waiting_startTask : (s.startTask thread item).waiting = s.waiting := by
  unfold startTask
  dsimp only
  split <;> rfl

@[simp] theorem waiting_finishBody : (s.finishBody thread item).waiting = s.waiting := by
  unfold finishBody
  dsimp only
  repeat' split
  all_goals rfl

@[simp] theorem waiting_endTask : (s.endTask thread item).waiting = s.waiting := by
  unfold endTask
  dsimp only
  split <;> rfl

@[simp] theorem stopFlag_createWorkers (n : Nat) :
    (s.createWorkers n).allThreadsStopFlag = s.allThreadsStopFlag := by
  induction n generalizing s with
  | zero => rfl
  | succ n ih => exact ih s.createWorker

@[simp] theorem stopFlag_initializePool (minThreadNum maxThreadNum : Int) :
    (s.initializePool minThreadNum maxThreadNum).allThreadsStopFlag = s.allThreadsStopFlag := by
  unfold initializePool
  split
  · rfl
  · split
    · rfl
    · exact stopFlag_createWorkers _ _

@[simp] theorem stopFlag_provideWorker : s.provideWorker.allThreadsStopFlag = s.allThreadsStopFlag := by
  unfold provideWorker
  repeat' split
  all_goals rfl

@[simp] theorem stopFlag_execute : (s.execute mainCb prio).allThreadsStopFlag = s.allThreadsStopFlag := by
  unfold execute
  split
  · rfl
  · exact stopFlag_provideWorker _

@[simp] theorem stopFlag_cancel (token : Token) : (s.cancel token).2.allThreadsStopFlag = s.allThreadsStopFlag := by
  unfold cancel
  split
  · rfl
  split
  · rfl
  · dsimp only
    split <;> rfl

/-- What does not look at the tasks is not changed by dropping some. -/
theorem dropTasks_apply {α : Type} {g : ThreadPool → α} (hg : ∀ (s : ThreadPool) cabinet tasks,
    g { s with undoTasksCabinet := cabinet, tasks := tasks } = g s) (s : ThreadPool) (tokens : List Token) :
    g (s.dropTasks tokens) = g s := by
  induction tokens generalizing s with
  | nil => rfl
  | cons token tokens ih =>
    rw [dropTasks]
    refine (ih _).trans ?_
    split
    · exact hg s ..
    · exact hg s _ s.tasks

@[simp] theorem stopFlag_dropTasks (tokens : List Token) :
    (s.dropTasks tokens).allThreadsStopFlag = s.allThreadsStopFlag := dropTasks_apply (fun _ _ _ => rfl) s tokens

@[simp] theorem stopFlag_popOneTask : s.popOneTask.2.allThreadsStopFlag = s.allThreadsStopFlag := by
  unfold popOneTask
  split <;> rfl

@[simp] theorem stopFlag_leaveWait : (s.leaveWait thread).allThreadsStopFlag = s.allThreadsStopFlag := by
  unfold leaveWait
  dsimp only
  split
  · rfl
  · split <;> exact stopFlag_popOneTask _

@[simp] theorem stopFlag_checkWait : (s.checkWait thread).allThreadsStopFlag = s.allThreadsStopFlag := by
  unfold checkWait
  split
  · exact stopFlag_leaveWait _ _
  · rfl

@[simp] theorem stopFlag_startTask : (s.startTask thread item).allThreadsStopFlag = s.allThreadsStopFlag := by
  unfold startTask
  dsimp only
  split <;> rfl

@[simp] theorem stopFlag_finishBody : (s.finishBody thread item).allThreadsStopFlag = s.allThreadsStopFlag := by
  unfold finishBody
  dsimp only
  repeat' split
  all_goals rfl

@[simp] theorem stopFlag_endTask : (s.endTask thread item).allThreadsStopFlag = s.allThreadsStopFlag := by
  unfold endTask
  dsimp only
  split <;> rfl

end Frames

structure QueueInv (s : ThreadPool) : Prop where
  levels : s.undoTasksToken.length = prioSize
  nodup : s.queue.Nodup
  live : ∀ token, s.undoTasksCabinet.view token ≠ none ↔ token ∈ s.queue
  counted : s.undoTasksCabinet.size = s.queue.length

namespace QueueInv

theorem congr (hs : s.QueueInv) (h : t.waiting = s.waiting) : t.QueueInv := by
  have htokens : t.undoTasksToken = s.undoTasksToken := congrArg Prod.fst h
  have hcabinet : t.undoTasksCabinet = s.undoTasksCabinet := congrArg Prod.snd h
  have hqueue : t.queue = s.queue := queue_congr h
  exact ⟨htokens ▸ hs.levels, hqueue ▸ hs.nodup, fun token => by
    rw [hcabinet, hqueue]
    exact hs.live token, by rw [hcabinet, hqueue, hs.counted]⟩

theorem empty : ({} : ThreadPool).QueueInv :=
  ⟨rfl, nodup_nil, fun token => by simp [queue, prioSize, List.replicate], rfl⟩

theorem free (hs : s.QueueInv) (token : Token) (hmem : token ∈ s.queue)
    (hlevels : t.undoTasksToken.length = s.undoTasksToken.length) (hqueue : t.queue.Perm (s.queue.erase token))
    (hcabinet : t.undoTasksCabinet = (s.undoTasksCabinet.free token).2) : t.QueueInv := by
  refine ⟨hlevels.trans hs.levels, hqueue.nodup_iff.mpr (hs.nodup.erase token), fun other => ?_, ?_⟩
  · rw [hcabinet, Cabinet.view_free, hqueue.mem_iff, hs.nodup.mem_erase_iff]
    by_cases hother : other = token
    · subst hother
      simp
    · rw [Function.update_of_ne hother, hs.live other]
      exact ⟨fun h => ⟨hother, h⟩, fun h => h.2⟩
  · have hsize := Cabinet.size_free ((hs.live token).mpr hmem)
    have hlength := length_erase_of_mem hmem
    have hpos := length_pos_of_mem hmem
    have hcounted := hs.counted
    rw [hcabinet, hqueue.length_eq]
    omega

theorem enqueue (hs : s.QueueInv) (mainCb : Bool) (prio : Int) : (s.enqueue mainCb prio).QueueInv ∧
      (s.enqueue mainCb prio).queue.Perm ((s.undoTasksCabinet.alloc (some s.tasks.length)).1 :: s.queue) := by
  set token := (s.undoTasksCabinet.alloc (some s.tasks.length)).1 with htoken
  have hperm : (s.enqueue mainCb prio).queue.Perm (token :: s.queue) :=
    flatten_modify_perm (hs.levels ▸ levelOf_lt prio) token
  have hfresh : token ∉ s.queue := fun hmem => (hs.live token).mpr hmem (Cabinet.view_alloc_fst _ _)
  refine ⟨⟨?_, ?_, fun other => ?_, ?_⟩, hperm⟩
  · show (s.undoTasksToken.modify _ _).length = _
    rw [length_modify, hs.levels]
  · exact hperm.nodup_iff.mpr (nodup_cons.mpr ⟨hfresh, hs.nodup⟩)
  · show (s.undoTasksCabinet.alloc (some s.tasks.length)).2.view other ≠ none ↔ _
    rw [Cabinet.view_alloc, hperm.mem_iff, mem_cons, ← htoken]
    by_cases hother : other = token
    · rw [hother]
      simp
    · rw [Function.update_of_ne hother, hs.live other]
      simp [hother]
  · show (s.undoTasksCabinet.alloc (some s.tasks.length)).2.size = _
    rw [Cabinet.size_alloc, hperm.length_eq, hs.counted]
    rfl

theorem waiting_execute (s : ThreadPool) (mainCb : Bool) (prio : Int) (hready : s.isReady = true) :
    (s.execute mainCb prio).waiting = (s.enqueue mainCb prio).waiting := by
  unfold ThreadPool.execute
  rw [if_neg (by simp [hready])]
  exact waiting_provideWorker _

theorem execute (hs : s.QueueInv) (mainCb : Bool) (prio : Int) : (s.execute mainCb prio).QueueInv := by
  unfold ThreadPool.execute
  split
  · exact hs
  · exact (hs.enqueue mainCb prio).1.congr (waiting_provideWorker _)

theorem popOneTask (hs : s.QueueInv) : (s.popOneTask.1 = none ∧ s.popOneTask.2 = s ∧ s.queue = [])
      ∨ ∃ token, s.queue = token :: s.popOneTask.2.queue ∧ s.popOneTask.2.QueueInv
          ∧ s.popOneTask.1 = s.undoTasksCabinet.at? token
          ∧ s.popOneTask.2.undoTasksCabinet = (s.undoTasksCabinet.free token).2 := by
  unfold ThreadPool.popOneTask
  split
  · exact Or.inl ⟨rfl, rfl, popToken_eq_none ‹_›⟩
  rename_i token rest hpop
  obtain ⟨hflat, hlength⟩ := popToken_eq_some hpop
  have hqueue : s.queue = token :: rest.flatten := hflat
  refine Or.inr ⟨token, hqueue, ?_, Cabinet.free_fst _ _, rfl⟩
  refine hs.free token (hqueue ▸ mem_cons_self) hlength ?_ rfl
  rw [hqueue, erase_cons_head]
  rfl

theorem popOneTask_queueInv (hs : s.QueueInv) : s.popOneTask.2.QueueInv := by
  rcases hs.popOneTask with ⟨-, hsame, -⟩ | ⟨_, -, hinv, -⟩
  · rw [hsame]
    exact hs
  · exact hinv

theorem leaveWait (hs : s.QueueInv) (thread : ThreadId) : (s.leaveWait thread).QueueInv := by
  have hbase : ({ s with idleThreadNum := s.idleThreadNum - 1 } : ThreadPool).QueueInv := hs.congr rfl
  unfold ThreadPool.leaveWait
  dsimp only
  split
  · exact hs.congr rfl
  · split
    · exact hbase.popOneTask_queueInv.congr rfl
    · exact hbase.popOneTask_queueInv.congr rfl

theorem checkWait (hs : s.QueueInv) (thread : ThreadId) : (s.checkWait thread).QueueInv := by
  unfold ThreadPool.checkWait
  split
  · exact hs.leaveWait thread
  · exact hs.congr rfl

theorem enterLoop (hs : s.QueueInv) (thread : ThreadId) : (s.enterLoop thread).QueueInv := by
  have hbase : ({ s with idleThreadNum := s.idleThreadNum + 1 } : ThreadPool).QueueInv := hs.congr rfl
  unfold ThreadPool.enterLoop
  split
  · exact hs.congr rfl
  · exact hbase.checkWait thread

theorem cancel (hs : s.QueueInv) (token : Token) : (s.cancel token).2.QueueInv := by
  unfold ThreadPool.cancel
  split
  · exact hs
  split
  · exact hs
  rename_i tokens herase
  obtain ⟨hmem, hflat, hlength⟩ := eraseToken_eq_some herase
  have hfree : QueueInv { s with
      undoTasksToken := tokens, undoTasksCabinet := (s.undoTasksCabinet.free token).2 } :=
    hs.free _ hmem hlength (hflat ▸ List.Perm.refl _) rfl
  dsimp only
  split
  · exact hfree.congr rfl
  · exact hfree

theorem dropTasks_cabinet (s : ThreadPool) (tokens : List Token) :
    (s.dropTasks tokens).undoTasksToken = s.undoTasksToken ∧ (s.dropTasks tokens).undoTasksCabinet
        = tokens.foldl (fun cabinet token => (cabinet.free token).2) s.undoTasksCabinet := by
  induction tokens generalizing s with
  | nil => exact ⟨rfl, rfl⟩
  | cons token tokens ih =>
    rw [ThreadPool.dropTasks]
    obtain ⟨htokens, hcabinet⟩ := ih _
    refine ⟨htokens.trans ?_, hcabinet.trans ?_⟩
    · split <;> rfl
    · rw [foldl_cons]
      split <;> rfl

theorem foldl_free {tokens : List Token} (cabinet : Cabinet TaskId) (hnodup : tokens.Nodup)
    (hlive : ∀ token, cabinet.view token ≠ none ↔ token ∈ tokens) (hcounted : cabinet.size = tokens.length) :
    (∀ token, (tokens.foldl (fun cabinet token => (cabinet.free token).2) cabinet).view token = none)
      ∧ (tokens.foldl (fun cabinet token => (cabinet.free token).2) cabinet).size = 0 := by
  induction tokens generalizing cabinet with
  | nil =>
    refine ⟨fun token => ?_, hcounted⟩
    by_contra hview
    simpa using (hlive token).mp hview
  | cons token tokens ih =>
    obtain ⟨hnotMem, hnodup'⟩ := nodup_cons.mp hnodup
    have hsize := Cabinet.size_free ((hlive token).mpr mem_cons_self)
    rw [length_cons] at hcounted
    refine ih (cabinet.free token).2 hnodup' (fun other => ?_) (by omega)
    rw [Cabinet.view_free]
    by_cases hother : other = token
    · subst hother
      simp [hnotMem]
    · rw [Function.update_of_ne hother, hlive other, mem_cons]
      simp [hother]

theorem cleanupDrain (hs : s.QueueInv) : s.cleanupDrain.QueueInv ∧ s.cleanupDrain.queue = [] := by
  obtain ⟨htokens, hcabinet⟩ := dropTasks_cabinet s s.undoTasksToken.flatten
  obtain ⟨hview, hsize⟩ := foldl_free s.undoTasksCabinet hs.nodup hs.live hs.counted
  have hqueue : s.cleanupDrain.queue = [] := by
    refine flatten_eq_nil_iff.mpr fun tokens hmem => ?_
    obtain ⟨_, -, rfl⟩ := mem_map.mp hmem
    rfl
  refine ⟨⟨?_, hqueue ▸ nodup_nil, fun token => ?_, ?_⟩, hqueue⟩
  · show ((s.dropTasks s.undoTasksToken.flatten).undoTasksToken.map _).length = _
    rw [length_map, htokens, hs.levels]
  · rw [hqueue]
    show (s.dropTasks s.undoTasksToken.flatten).undoTasksCabinet.view token ≠ none ↔ _
    rw [hcabinet]
    exact ⟨fun h => absurd (hview token) h, fun h => by cases h⟩
  · rw [hqueue]
    show (s.dropTasks s.undoTasksToken.flatten).undoTasksCabinet.size = _
    rw [hcabinet]
    exact hsize

/-- Cabinet and deques agree after every step. -/
theorem stepped (hs : s.QueueInv) {a : Action} (h : Stepped s a t) : t.QueueInv := by
  cases h with
  | initializePool => exact hs.congr (waiting_initializePool _ _ _)
  | execute mainCb prio => exact hs.execute mainCb prio
  | cancel token => exact hs.cancel token
  | cleanupDrain => exact hs.cleanupDrain.1
  | enterLoop thread => exact hs.enterLoop thread
  | checkWait thread => exact hs.checkWait thread
  | startTask thread item => exact hs.congr (waiting_startTask _ _ _)
  | finishBody thread item => exact hs.congr (waiting_finishBody _ _ _)
  | endTask thread item => exact hs.congr (waiting_endTask _ _ _)
  | _ => exact hs.congr rfl

end QueueInv

end Tbox.Eventx.ThreadPool
