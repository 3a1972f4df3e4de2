import Tbox.Eventx.ThreadPool

/-!
# What a step of the pool can do

`Stepped` is the step function turned inside out: one case for each section, with what enables it. Beside it stand the
facts about the deques as one queue, and about the workers.
-/

open List Option

namespace Tbox.Eventx.ThreadPool

open Cabinet (Token)

inductive Stepped (s : ThreadPool) : Action → ThreadPool → Prop where
  | initializePool (minThreadNum maxThreadNum : Int) (hlock : s.lockFree) (hstart : s.starting = false) :
      Stepped s (.initializePool minThreadNum maxThreadNum)
        (s.initializePool minThreadNum maxThreadNum)
  | initializeEnd (hstart : s.starting = true) : Stepped s .initializeEnd s.initializeEnd
  | execute (mainCb : Bool) (prio : Int) (hlock : s.lockFree) :
      Stepped s (.execute mainCb prio) (s.execute mainCb prio)
  | notifyOne (thread : ThreadId) (hpc : s.pcOf thread = some .waiting) :
      Stepped s (.notifyOne (some thread))
        { s.setPc thread .notified with notifies := s.notifies - 1 }
  | notifyNone (hpc : s.workers.all fun w => w.pc ≠ .waiting) :
      Stepped s (.notifyOne none) { s with notifies := s.notifies - 1 }
  | getTaskStatus (token : Token) : Stepped s (.getTaskStatus token) s
  | cancel (token : Token) (hlock : s.lockFree) : Stepped s (.cancel token) (s.cancel token).2
  | cleanupDrain (hlock : s.lockFree) (hready : s.isReady = true) (hidle : s.cleaner = .idle) :
      Stepped s .cleanupDrain s.cleanupDrain
  | cleanupStopFlag (threadVec : List (Option ThreadId)) (hcleaner : s.cleaner = .drained threadVec) :
      Stepped s .cleanupStopFlag
        { s with allThreadsStopFlag := true, cleaner := .flagged threadVec }
  | cleanupNotifyAll (threadVec : List (Option ThreadId)) (hcleaner : s.cleaner = .flagged threadVec) :
      Stepped s .cleanupNotifyAll
        { s with
          workers := s.workers.map fun w => if w.pc = .waiting then { w with pc := .notified } else w
          cleaner := .joining threadVec }
  | cleanupJoin (thread : Option ThreadId) (threadVec : List (Option ThreadId))
      (hcleaner : s.cleaner = .joining (thread :: threadVec)) (hexited : s.exited thread) :
      Stepped s .cleanupJoin { s with joined := s.joined ++ [thread], cleaner := .joining threadVec }
  | cleanupEnd (hcleaner : s.cleaner = .joining []) :
      Stepped s .cleanupEnd { s with isReady := false, cleaner := .idle }
  | runMainCb (item : TaskId) (rest : List Posted) (hposted : s.mainLoop = .mainCb item :: rest) :
      Stepped s .runPosted { s with mainLoop := rest }
  | runJoin (thread : Option ThreadId) (rest : List Posted)
      (hposted : s.mainLoop = .joinAndDelete thread :: rest) (hexited : s.exited thread) :
      Stepped s .runPosted { s with mainLoop := rest, joined := s.joined ++ [thread] }
  | enterLoop (thread : ThreadId) (hlock : s.lockFree) (hpc : s.pcOf thread = some .head) :
      Stepped s (.enterLoop thread) (s.enterLoop thread)
  | park (thread : ThreadId) (hpc : s.pcOf thread = some .parking) :
      Stepped s (.park thread) (s.setPc thread .waiting)
  | wakeUp (thread : ThreadId) (hpc : s.pcOf thread = some .waiting) :
      Stepped s (.wakeUp thread) (s.setPc thread .notified)
  | checkWait (thread : ThreadId) (hlock : s.lockFree) (hpc : s.pcOf thread = some .notified) :
      Stepped s (.checkWait thread) (s.checkWait thread)
  | skipTask (thread : ThreadId) (hpc : s.pcOf thread = some (.popped none)) :
      Stepped s (.startTask thread) (s.setPc thread .head)
  | startTask (thread : ThreadId) (item : TaskId) (hlock : s.lockFree)
      (hpc : s.pcOf thread = some (.popped (some item))) :
      Stepped s (.startTask thread) (s.startTask thread item)
  | finishBody (thread : ThreadId) (item : TaskId) (hpc : s.pcOf thread = some (.executing item)) :
      Stepped s (.finishBody thread) (s.finishBody thread item)
  | endTask (thread : ThreadId) (item : TaskId) (hlock : s.lockFree)
      (hpc : s.pcOf thread = some (.finished item)) :
      Stepped s (.endTask thread) (s.endTask thread item)
  | removeSelf (thread : ThreadId) (token : Token) (hlock : s.lockFree)
      (hworker : s.workers[thread]? = some ⟨token, .leaving⟩) :
      Stepped s (.removeSelf thread) (s.removeSelf thread token)

theorem Stepped.of_callerStep {s t : ThreadPool} {a : Action} (h : s.callerStep a = some t) : Stepped s a t := by
  cases a with
  | initializePool minThreadNum maxThreadNum =>
    obtain ⟨⟨hlock, hstart⟩, rfl⟩ := ite_some_none_eq_some.mp h
    exact .initializePool _ _ hlock hstart
  | initializeEnd =>
    obtain ⟨hstart, rfl⟩ := ite_some_none_eq_some.mp h
    exact .initializeEnd hstart
  | execute mainCb prio =>
    obtain ⟨hlock, rfl⟩ := ite_some_none_eq_some.mp h
    exact .execute _ _ hlock
  | notifyOne wakes =>
    obtain ⟨-, h⟩ := ite_none_left_eq_some.mp h
    cases wakes with
    | none =>
      obtain ⟨hpc, rfl⟩ := ite_some_none_eq_some.mp h
      exact .notifyNone hpc
    | some thread =>
      obtain ⟨hpc, rfl⟩ := ite_some_none_eq_some.mp h
      exact .notifyOne _ hpc
  | getTaskStatus token =>
    obtain ⟨-, rfl⟩ := ite_some_none_eq_some.mp h
    exact .getTaskStatus _
  | cancel token =>
    obtain ⟨hlock, rfl⟩ := ite_some_none_eq_some.mp h
    exact .cancel _ hlock
  | cleanupDrain =>
    obtain ⟨⟨hlock, hready, hidle⟩, rfl⟩ := ite_some_none_eq_some.mp h
    exact .cleanupDrain hlock hready hidle
  | cleanupStopFlag =>
    simp only [callerStep] at h
    split at h
    · exact some.inj h ▸ .cleanupStopFlag _ ‹_›
    · cases h
  | cleanupNotifyAll =>
    simp only [callerStep] at h
    split at h
    · exact some.inj h ▸ .cleanupNotifyAll _ ‹_›
    · cases h
  | cleanupJoin =>
    simp only [callerStep] at h
    split at h
    · obtain ⟨hexited, rfl⟩ := ite_some_none_eq_some.mp h
      exact .cleanupJoin _ _ ‹_› hexited
    · cases h
  | cleanupEnd =>
    obtain ⟨hcleaner, rfl⟩ := ite_some_none_eq_some.mp h
    exact .cleanupEnd hcleaner
  | runPosted =>
    simp only [callerStep] at h
    split at h
    · cases h
    · exact some.inj h ▸ .runMainCb _ _ ‹_›
    · obtain ⟨hexited, rfl⟩ := ite_some_none_eq_some.mp h
      exact .runJoin _ _ ‹_› hexited
  | _ => cases h

theorem Stepped.of_workerStep {s t : ThreadPool} {a : Action} (h : s.workerStep a = some t) : Stepped s a t := by
  cases a with
  | enterLoop thread =>
    obtain ⟨⟨hlock, hpc⟩, rfl⟩ := ite_some_none_eq_some.mp h
    exact .enterLoop _ hlock hpc
  | park thread =>
    obtain ⟨hpc, rfl⟩ := ite_some_none_eq_some.mp h
    exact .park _ hpc
  | wakeUp thread =>
    obtain ⟨hpc, rfl⟩ := ite_some_none_eq_some.mp h
    exact .wakeUp _ hpc
  | checkWait thread =>
    obtain ⟨⟨hlock, hpc⟩, rfl⟩ := ite_some_none_eq_some.mp h
    exact .checkWait _ hlock hpc
  | startTask thread =>
    simp only [workerStep] at h
    split at h
    · exact some.inj h ▸ .skipTask _ ‹_›
    · obtain ⟨hlock, rfl⟩ := ite_some_none_eq_some.mp h
      exact .startTask _ _ hlock ‹_›
    · cases h
  | finishBody thread =>
    simp only [workerStep] at h
    split at h
    · exact some.inj h ▸ .finishBody _ _ ‹_›
    · cases h
  | endTask thread =>
    simp only [workerStep] at h
    split at h
    · obtain ⟨hlock, rfl⟩ := ite_some_none_eq_some.mp h
      exact .endTask _ _ hlock ‹_›
    · cases h
  | removeSelf thread =>
    simp only [workerStep] at h
    split at h
    · obtain ⟨hlock, rfl⟩ := ite_some_none_eq_some.mp h
      exact .removeSelf _ _ hlock ‹_›
    · cases h
  | _ => cases h

/-- What a step can do, whoever takes it. -/
theorem Stepped.of_step {s t : ThreadPool} {a : Action} (h : s.step a = some t) : Stepped s a t := by
  rcases or_eq_some_iff.mp h with hcaller | ⟨-, hworker⟩
  · exact .of_callerStep hcaller
  · exact .of_workerStep hworker

/-- All waiting tokens, the most urgent first. -/
def queue (s : ThreadPool) : List Token := s.undoTasksToken.flatten

variable {tokens : List (List Token)}

theorem popToken_eq_none (h : popToken tokens = none) : tokens.flatten = [] := by
  induction tokens with
  | nil => rfl
  | cons first rest ih =>
    cases first with
    | nil => exact ih (map_eq_none_iff.mp h)
    | cons token tokens => cases h

theorem popToken_eq_some {tokens rest : List (List Token)} {token : Token}
    (h : popToken tokens = some (token, rest)) :
    tokens.flatten = token :: rest.flatten ∧ rest.length = tokens.length := by
  induction tokens generalizing rest with
  | nil => cases h
  | cons first tail ih =>
    cases first with
    | nil =>
      obtain ⟨⟨found, left⟩, hfound, heq⟩ := map_eq_some_iff.mp h
      obtain ⟨rfl, rfl⟩ := Prod.mk.inj heq
      obtain ⟨hflat, hlength⟩ := ih hfound
      exact ⟨hflat, congrArg (· + 1) hlength⟩
    | cons head tokens =>
      obtain ⟨rfl, rfl⟩ := Prod.mk.inj (some.inj h)
      exact ⟨rfl, rfl⟩

theorem eraseToken_eq_none {token : Token}
    (h : eraseToken token tokens = none) : token ∉ tokens.flatten := by
  induction tokens with
  | nil => simp
  | cons first rest ih =>
    rw [eraseToken] at h
    split at h
    · cases h
    · rename_i hfirst
      rw [flatten_cons, mem_append, not_or]
      exact ⟨hfirst, ih (map_eq_none_iff.mp h)⟩

theorem eraseToken_eq_some {tokens rest : List (List Token)} {token : Token}
    (h : eraseToken token tokens = some rest) : token ∈ tokens.flatten ∧ rest.flatten = tokens.flatten.erase token
      ∧ rest.length = tokens.length := by
  induction tokens generalizing rest with
  | nil => cases h
  | cons first tail ih =>
    rw [eraseToken] at h
    rw [flatten_cons, mem_append]
    split at h
    · rename_i hfirst
      cases h
      refine ⟨Or.inl hfirst, ?_, rfl⟩
      rw [flatten_cons, erase_append_left _ hfirst]
    · rename_i hfirst
      obtain ⟨left, hleft, rfl⟩ := map_eq_some_iff.mp h
      obtain ⟨hmem, hflat, hlength⟩ := ih hleft
      refine ⟨Or.inr hmem, ?_, congrArg (· + 1) hlength⟩
      rw [flatten_cons, erase_append_right _ hfirst, hflat]

theorem queue_cancel (s : ThreadPool) (token : Token) : (s.cancel token).2.queue ⊆ s.queue := by
  unfold cancel
  split
  · exact List.Subset.refl _
  split
  · exact List.Subset.refl _
  rename_i tokens herase
  have hflat : tokens.flatten ⊆ s.queue := by
    rw [(eraseToken_eq_some herase).2.1]
    exact erase_subset
  dsimp only
  split <;> exact hflat

theorem flatten_modify_perm {level : Nat} (hlevel : level < tokens.length)
    (token : Token) : (tokens.modify level (· ++ [token])).flatten.Perm (token :: tokens.flatten) := by
  induction tokens generalizing level with
  | nil => simp at hlevel
  | cons first rest ih =>
    cases level with
    | zero =>
      rw [modify_zero_cons, flatten_cons, flatten_cons, append_assoc, singleton_append]
      exact perm_middle
    | succ level =>
      rw [modify_succ_cons, flatten_cons, flatten_cons]
      exact ((ih (Nat.lt_of_succ_lt_succ hlevel)).append_left first).trans perm_middle

theorem levelOf_lt (prio : Int) : levelOf prio < prioSize := by
  unfold levelOf prioMin prioMax prioSize
  dsimp only
  split
  · decide
  · split <;> omega

theorem shouldThreadExitWaiting_eq_false {s : ThreadPool} (h : s.shouldThreadExitWaiting = false) :
    s.allThreadsStopFlag = false ∧ s.queue = [] := by
  unfold shouldThreadExitWaiting at h
  rw [Bool.or_eq_false_iff, List.any_eq_false] at h
  refine ⟨h.1, flatten_eq_nil_iff.mpr fun tokens hmem => ?_⟩
  simpa using h.2 tokens hmem

end Tbox.Eventx.ThreadPool
