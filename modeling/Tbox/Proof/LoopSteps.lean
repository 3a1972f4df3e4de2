import Tbox.Event.CommonLoop

/-!
# What a step of the event loop can do

The step function of the loop turned inside out. The invariants of its wakeups and of its tasks are case analyses of
`Stepped`, and share `TmpInHand`.
-/

open List Option

namespace Tbox.Event.CommonLoop

inductive Stepped (s : CommonLoop) : Action → CommonLoop → Prop where
  | runInLoop (inLoopThread : Bool) : Stepped s (.runInLoop inLoopThread) s.runInLoop
  | runNext (inLoopThread : Bool) : Stepped s (.runNext inLoopThread) s.runNext
  | runDecide (inLoopThread : Bool) : Stepped s (.runDecide inLoopThread) (s.runDecide inLoopThread)
  | commitInLoop (call : Nat) (inLoopThread : Bool)
      (hcall : s.runCalls[call]? = some ⟨inLoopThread, false⟩) :
      Stepped s (.runCommit call) { s with runCalls := s.runCalls.eraseIdx call }.runInLoop
  | commitNext (call : Nat) (inLoopThread : Bool)
      (hcall : s.runCalls[call]? = some ⟨inLoopThread, true⟩) :
      Stepped s (.runCommit call) { s with runCalls := s.runCalls.eraseIdx call }.runNext
  | cancel (inLoopThread : Bool) (runId : Nat) :
      Stepped s (.cancel inLoopThread runId) (s.cancel runId).2
  | exitLoop : Stepped s .exitLoop { s with keepRunning := false }
  | cleanup (hpc : s.pc = .outside) :
      Stepped s .cleanup { s with pc := .cleaning [] [] 100 false }
  | beginRun (forever : Bool) (hpc : s.pc = .outside) :
      Stepped s (.beginRun forever) (s.beginRun forever)
  | poll (ready : Bool) (hpc : s.pc = .polling) :
      Stepped s (.poll ready) { s with pc := .dispatching ready }
  | handleRunInLoopFunc (hpc : s.pc = .dispatching true) :
      Stepped s .handleRunInLoopFunc s.handleRunInLoopFunc
  | handleNextFunc (hpc : s.pc = .dispatching false) :
      Stepped s .handleNextFunc s.handleNextFunc
  | startDrained (item : RunFuncItem) (rest : RunFuncQueue)
      (hpc : s.pc = .drainingInLoop ∨ s.pc = .drainingNext) (htmp : s.tmpFuncQueue = item :: rest) :
      Stepped s .startTask { s with tmpFuncQueue := rest, begun := s.begun ++ [item] }
  | startRunNext (item : RunFuncItem) (rest runInLoopTasks : RunFuncQueue) (remainLoopCount : Nat)
      (atEnd : Bool) (hpc : s.pc = .cleaning (item :: rest) runInLoopTasks remainLoopCount atEnd) :
      Stepped s .startTask { s with
        pc := .cleaning rest runInLoopTasks remainLoopCount atEnd, begun := s.begun ++ [item] }
  | startRunInLoop (item : RunFuncItem) (rest : RunFuncQueue) (remainLoopCount : Nat) (atEnd : Bool)
      (hpc : s.pc = .cleaning [] (item :: rest) remainLoopCount atEnd) :
      Stepped s .startTask { s with
        pc := .cleaning [] rest remainLoopCount atEnd, begun := s.begun ++ [item] }
  | endInLoop (hpc : s.pc = .drainingInLoop) (htmp : s.tmpFuncQueue = []) :
      Stepped s .endDrain { s with pc := .dispatching false }
  | endNext (hpc : s.pc = .drainingNext) (htmp : s.tmpFuncQueue = []) :
      Stepped s .endDrain { s with pc := if s.keepRunning then .polling else .ending }
  | endRun (hpc : s.pc = .ending) : Stepped s .endRun { s with pc := .cleaning [] [] 100 true }
  | cleanupRound (remainLoopCount : Nat) (atEnd : Bool)
      (hpc : s.pc = .cleaning [] [] (remainLoopCount + 1) atEnd) :
      Stepped s .cleanupRound (s.cleanupRound remainLoopCount atEnd)
  | cleanupEnd (remainLoopCount : Nat) (atEnd : Bool)
      (hpc : s.pc = .cleaning [] [] remainLoopCount atEnd)
      (hdone : (s.runInLoopFuncQueue = [] ∧ s.runNextFuncQueue = []) ∨ remainLoopCount = 0) :
      Stepped s .cleanupEnd (s.cleanupEnd atEnd)

variable {s t : CommonLoop} {a : Action}

theorem Stepped.of_callStep (h : s.callStep a = some t) : Stepped s a t := by
  cases a with
  | runInLoop inLoopThread =>
    obtain ⟨-, rfl⟩ := ite_some_none_eq_some.mp h
    exact .runInLoop _
  | runNext inLoopThread =>
    obtain ⟨-, rfl⟩ := ite_some_none_eq_some.mp h
    exact .runNext _
  | runDecide inLoopThread =>
    obtain ⟨-, rfl⟩ := ite_some_none_eq_some.mp h
    exact .runDecide _
  | runCommit call =>
    simp only [callStep] at h
    split at h
    · cases h
    rename_i inLoopThread canRunNext hcall
    cases canRunNext with
    | true =>
      obtain ⟨-, rfl⟩ := ite_some_none_eq_some.mp h
      exact .commitNext _ _ hcall
    | false =>
      obtain ⟨-, rfl⟩ := ite_some_none_eq_some.mp h
      exact .commitInLoop _ _ hcall
  | cancel inLoopThread runId =>
    obtain ⟨-, rfl⟩ := ite_some_none_eq_some.mp h
    exact .cancel _ _
  | exitLoop =>
    obtain ⟨-, rfl⟩ := ite_some_none_eq_some.mp h
    exact .exitLoop
  | cleanup =>
    obtain ⟨hpc, rfl⟩ := ite_some_none_eq_some.mp h
    exact .cleanup hpc
  | _ => cases h

theorem Stepped.of_loopStep (h : s.loopStep a = some t) : Stepped s a t := by
  cases a with
  | beginRun forever =>
    obtain ⟨hpc, rfl⟩ := ite_some_none_eq_some.mp h
    exact .beginRun _ hpc
  | poll ready =>
    obtain ⟨⟨hpc, -⟩, rfl⟩ := ite_some_none_eq_some.mp h
    exact .poll _ hpc
  | handleRunInLoopFunc =>
    obtain ⟨hpc, rfl⟩ := ite_some_none_eq_some.mp h
    exact .handleRunInLoopFunc hpc
  | handleNextFunc =>
    obtain ⟨hpc, rfl⟩ := ite_some_none_eq_some.mp h
    exact .handleNextFunc hpc
  | startTask =>
    simp only [loopStep] at h
    split at h
    · exact some.inj h ▸ .startDrained _ _ (.inl ‹_›) ‹_›
    · exact some.inj h ▸ .startDrained _ _ (.inr ‹_›) ‹_›
    · exact some.inj h ▸ .startRunNext _ _ _ _ _ ‹_›
    · exact some.inj h ▸ .startRunInLoop _ _ _ _ ‹_›
    · cases h
  | endDrain =>
    simp only [loopStep] at h
    split at h
    · exact some.inj h ▸ .endInLoop ‹_› ‹_›
    · exact some.inj h ▸ .endNext ‹_› ‹_›
    · cases h
  | endRun =>
    obtain ⟨hpc, rfl⟩ := ite_some_none_eq_some.mp h
    exact .endRun hpc
  | cleanupRound =>
    simp only [loopStep] at h
    split at h
    · obtain ⟨-, rfl⟩ := ite_some_none_eq_some.mp h
      exact .cleanupRound _ _ ‹_›
    · cases h
  | cleanupEnd =>
    simp only [loopStep] at h
    split at h
    · obtain ⟨hdone, rfl⟩ := ite_some_none_eq_some.mp h
      exact .cleanupEnd _ _ ‹_› hdone
    · cases h
  | _ => cases h

theorem Stepped.of_step (h : s.step a = some t) : Stepped s a t := by
  rcases or_eq_some_iff.mp h with hcall | ⟨-, hloop⟩
  · exact .of_callStep hcall
  · exact .of_loopStep hloop

/-- `tmp_func_queue_` is empty unless the loop thread is working through it. -/
def TmpInHand (s : CommonLoop) : Prop :=
  s.tmpFuncQueue ≠ [] → s.pc = .drainingInLoop ∨ s.pc = .drainingNext

namespace TmpInHand

theorem congr (hs : s.TmpInHand) (hpc : t.pc = s.pc) (htmp : t.tmpFuncQueue = s.tmpFuncQueue) :
    t.TmpInHand := by
  unfold TmpInHand
  rw [hpc, htmp]
  exact hs

theorem tmp_eq_nil (hs : s.TmpInHand) (hinLoop : s.pc ≠ .drainingInLoop) (hnext : s.pc ≠ .drainingNext) :
    s.tmpFuncQueue = [] := by
  by_contra htmp
  rcases hs htmp with hpc | hpc
  · exact hinLoop hpc
  · exact hnext hpc

theorem runInLoop (hs : s.TmpInHand) : s.runInLoop.TmpInHand := by
  unfold CommonLoop.runInLoop commitRunRequest
  dsimp only
  repeat' split
  all_goals exact hs.congr rfl rfl

theorem cancel (hs : s.TmpInHand) (runId : Nat) : (s.cancel runId).2.TmpInHand := by
  have hfilter : ∀ c : CommonLoop, c.pc = s.pc →
      c.tmpFuncQueue = s.tmpFuncQueue.filter (fun item => item.id ≠ runId) → c.TmpInHand := by
    intro c hpc htmp hne
    rw [hpc]
    refine hs fun hnil => hne ?_
    rw [htmp, hnil]
    rfl
  unfold CommonLoop.cancel removeRunFuncItemById
  split
  · exact hs
  dsimp only
  split
  · exact hfilter _ rfl rfl
  · split <;> exact hs.congr rfl rfl

theorem beginRun (hs : s.TmpInHand) (hpc : s.pc = .outside) (forever : Bool) : (s.beginRun forever).TmpInHand := by
  have htmp : s.tmpFuncQueue = [] := hs.tmp_eq_nil (by rw [hpc]; nofun) (by rw [hpc]; nofun)
  unfold CommonLoop.beginRun commitRunRequest
  dsimp only
  repeat' split
  all_goals exact fun h => absurd htmp h

/-- `tmp_func_queue_` stays tied to the place the loop thread is at. -/
theorem stepped (hs : s.TmpInHand) (h : Stepped s a t) : t.TmpInHand := by
  have hmoved : ∀ {pc}, s.pc = pc → pc ≠ .drainingInLoop → pc ≠ .drainingNext → ∀ c : CommonLoop,
      c.tmpFuncQueue = s.tmpFuncQueue → c.TmpInHand := by
    rintro _ rfl hinLoop hnext c htmp hne
    exact absurd (htmp.trans (hs.tmp_eq_nil hinLoop hnext)) hne
  cases h with
  | runInLoop => exact hs.runInLoop
  | commitInLoop call => exact runInLoop (s := { s with runCalls := _ }) (hs.congr rfl rfl)
  | cancel _ runId => exact hs.cancel runId
  | cleanup hpc => exact hmoved hpc nofun nofun _ rfl
  | beginRun forever hpc => exact hs.beginRun hpc forever
  | poll ready hpc => exact hmoved hpc nofun nofun _ rfl
  | handleRunInLoopFunc hpc => exact fun _ => .inl rfl
  | handleNextFunc hpc => exact fun _ => .inr rfl
  | startDrained item rest hpc => exact fun _ => hpc
  | startRunNext _ _ _ _ _ hpc => exact hmoved hpc nofun nofun _ rfl
  | startRunInLoop _ _ _ _ hpc => exact hmoved hpc nofun nofun _ rfl
  | endInLoop _ htmp => exact fun h => absurd htmp h
  | endNext _ htmp => exact fun h => absurd htmp h
  | endRun hpc => exact hmoved hpc nofun nofun _ rfl
  | cleanupRound _ _ hpc => exact hmoved hpc nofun nofun _ rfl
  | cleanupEnd _ atEnd hpc =>
    refine hmoved hpc nofun nofun _ ?_
    unfold CommonLoop.cleanupEnd
    split <;> rfl
  | _ => exact hs.congr rfl rfl

end TmpInHand

/-! ### The loop is woken for every posted task

A task posted into a running session has to be announced on the session's eventfd, once for any
number of tasks: `has_commit_run_req_` says that it was. The flag outlives the session it was set in,
the eventfd does not, and then the next session is never announced anything. `FreshRequest` is
exactly the absence of that. -/

section Wakeup

variable {s t : CommonLoop} {a : Action}

/-- If a session is running and a task is posted, the session's eventfd has been written and not
read. -/
def Armed (s : CommonLoop) : Prop :=
  ∀ n, s.runEvent = some n → s.runInLoopFuncQueue ≠ [] → 0 < n

def NotStale (s : CommonLoop) : Prop :=
  ∀ n, s.runEvent = some n → s.hasCommitRunReq = true → 0 < n

/-- Where the flag is consulted it is not a leftover: when a session begins with tasks posted before,
and when a task is posted. -/
def FreshRequest (s : CommonLoop) : Action → Prop
  | .beginRun _ => s.runInLoopFuncQueue ≠ [] → s.hasCommitRunReq = false
  | .runInLoop _ => s.NotStale
  | .runCommit call => (s.runCalls[call]?.any fun c => !c.canRunNext) = true → s.NotStale
  | _ => True

theorem Armed.congr (hs : s.Armed) (hevent : t.runEvent = s.runEvent)
    (hqueue : t.runInLoopFuncQueue ⊆ s.runInLoopFuncQueue) : t.Armed := by
  intro n hn hne
  refine hs n (hevent ▸ hn) fun hnil => hne ?_
  exact subset_nil.mp (hnil ▸ hqueue)

theorem armed_runInLoop (s : CommonLoop) : s.runInLoop.Armed ↔ s.NotStale := by
  have hqueue : ∀ c : CommonLoop, c.commitRunRequest.runInLoopFuncQueue = c.runInLoopFuncQueue := by
    intro c
    unfold commitRunRequest
    split <;> rfl
  unfold Armed NotStale runInLoop
  cases hevent : s.runEvent with
  | none => simp
  | some n =>
    rw [if_pos (by simp)]
    simp only [hqueue, ne_eq, append_eq_nil_iff, cons_ne_nil, and_false, not_false_eq_true, forall_const]
    unfold commitRunRequest
    cases hflag : s.hasCommitRunReq <;> simp

theorem armed_beginRun (s : CommonLoop) (forever : Bool) :
    (s.beginRun forever).Armed ↔ (s.runInLoopFuncQueue ≠ [] → s.hasCommitRunReq = false) := by
  unfold Armed beginRun commitRunRequest
  by_cases hqueue : s.runInLoopFuncQueue = []
  · simp [hqueue]
  · cases hflag : s.hasCommitRunReq <;> simp [hqueue]

theorem cancel_frame (s : CommonLoop) (runId : Nat) : (s.cancel runId).2.runEvent = s.runEvent
      ∧ (s.cancel runId).2.hasCommitRunReq = s.hasCommitRunReq
      ∧ (s.cancel runId).2.runInLoopFuncQueue ⊆ s.runInLoopFuncQueue := by
  unfold cancel removeRunFuncItemById
  split
  · exact ⟨rfl, rfl, List.Subset.refl _⟩
  dsimp only
  split
  · exact ⟨rfl, rfl, List.Subset.refl _⟩
  · split
    · exact ⟨rfl, rfl, List.Subset.refl _⟩
    · exact ⟨rfl, rfl, filter_subset_self _⟩

/-- After a step the posted tasks are announced exactly if the flag it consulted was no leftover. -/
theorem armed_stepped (htmp : s.TmpInHand) (hs : s.Armed) (h : Stepped s a t) : t.Armed ↔ s.FreshRequest a := by
  have hfree : ∀ {P : Prop}, P → (P ↔ True) := fun hP => iff_true_intro hP
  cases h with
  | runInLoop => exact armed_runInLoop s
  | commitInLoop call inLoopThread hcall =>
    refine (armed_runInLoop _).trans ?_
    simp only [FreshRequest, hcall, any_some, Bool.not_false, forall_const]
    rfl
  | commitNext call inLoopThread hcall =>
    simp only [FreshRequest, hcall, any_some, Bool.not_true, Bool.false_eq_true, false_implies, iff_true]
    exact hs.congr rfl (List.Subset.refl _)
  | cancel _ runId => exact hfree (hs.congr (cancel_frame s runId).1 (cancel_frame s runId).2.2)
  | beginRun forever => exact armed_beginRun s forever
  | handleRunInLoopFunc hpc =>
    refine hfree fun n _ hne => absurd ?_ hne
    exact htmp.tmp_eq_nil (by rw [hpc]; nofun) (by rw [hpc]; nofun)
  | cleanupRound => exact hfree fun n _ hne => absurd rfl hne
  | cleanupEnd _ atEnd =>
    refine hfree ?_
    unfold cleanupEnd
    split
    · exact nofun
    · exact hs.congr rfl (List.Subset.refl _)
  | _ => exact hfree (hs.congr rfl (List.Subset.refl _))

/-- **The loop cannot sleep over a posted task** in any state of a run exactly when no task is posted
and no session begun under a flag left from an earlier session. -/
theorem armed_iff (actions : List Action) :
    Lib.Always step Armed {} actions ↔ Lib.Along step FreshRequest {} actions := by
  refine Lib.always_iff_along (I := TmpInHand) (b := fun _ _ => True) ?_ ?_ (fun h => absurd rfl h)
    (Lib.along_of_forall fun _ _ => trivial) nofun
  · exact fun s a t hinv _ _ hstep => hinv.stepped (.of_step hstep)
  · exact fun s a t hinv _ hs hstep => armed_stepped hinv hs (.of_step hstep)

/-- A session that posts once and ends before it was woken; the task posted before the next session
is never announced. -/
def staleRun : List Action :=
  [.beginRun false, .poll false, .runInLoop false, .handleNextFunc, .endDrain, .endRun,
    .cleanupRound, .startTask, .cleanupEnd, .runInLoop false, .beginRun true]

theorem not_armed_after_stale_session : ¬Lib.Always step Armed {} staleRun := by
  intro halways
  obtain ⟨t, hrun, hstale⟩ := (Option.any_eq_true _ _).mp (show Option.any
    (fun t => t.runEvent = some 0 ∧ t.runInLoopFuncQueue ≠ []) (Lib.run step {} staleRun) = true
    by decide)
  obtain ⟨hevent, hqueue⟩ := of_decide_eq_true hstale
  exact absurd (halways _ (List.prefix_refl _) t hrun 0 hevent hqueue) (Nat.lt_irrefl 0)

end Wakeup

end Tbox.Event.CommonLoop
