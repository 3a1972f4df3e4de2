import Tbox.Proof.PoolStranding

/-!
# Who joins a worker

A thread object is joined and deleted by whoever holds it when it leaves `threads_cabinet`. A worker that has decided
to exit still stands there, so `cleanup` and the worker can take the same one; ownership is exact where they do not.
-/

open List Option

namespace Tbox.Eventx

open Cabinet (Token)
open Function (update_self update_of_ne update_idem update)

/-- The threads a `cleanup` in progress has still to join. -/
def Cleanup.threadVec : Cleanup → List (Option ThreadId)
  | .idle => []
  | .drained threadVec | .flagged threadVec | .joining threadVec => threadVec

namespace ThreadPool

variable {s t : ThreadPool} {thread k : ThreadId} {pc old : Pc} {w : Worker}

def ownersNum (s : ThreadPool) (k : ThreadId) (token : Token) : Nat :=
  (if s.threadsCabinet.at? token = some k then 1 else 0) + s.cleaner.threadVec.count (some k)
    + s.mainLoop.count (.joinAndDelete (some k)) + s.joined.count (some k)

/-- Every thread has one owner or was joined once, nobody joins a null pointer, and a pool that is not ready has no
thread. -/
structure RetiredOnce (s : ThreadPool) : Prop where
  once : ∀ (k : ThreadId) w, s.workers[k]? = some w → s.ownersNum k w.token = 1
  found : ∀ (k : ThreadId) w, s.workers[k]? = some w → w.pc = .leaving →
    s.threadsCabinet.at? w.token = some k
  real : none ∉ s.cleaner.threadVec ∧ .joinAndDelete none ∉ s.mainLoop ∧ none ∉ s.joined
  settled : s.isReady = false → s.starting = false → s.threadsCabinet.size = 0

def isSurplus (s : ThreadPool) : Prop :=
  s.idleThreadNum ≥ s.undoTasksCabinet.size ∧ s.threadsCabinet.size > s.minThreadNum

/-- `cleanup` takes the workers when none of them is on its way out, no worker it has taken decides
to leave by itself, and none was created while it was running. -/
def RetiresCleanly (s : ThreadPool) : Action → Prop
  | .cleanupDrain => ∀ w ∈ s.workers, w.pc ≠ .leaving
  | .enterLoop thread => s.isSurplus → ∀ w, s.workers[thread]? = some w →
    s.threadsCabinet.at? w.token = some thread
  | .cleanupEnd => s.threadsCabinet.size = 0
  | _ => True

structure ThreadBooks (s : ThreadPool) : Prop where
  stored : ∀ token obj, s.threadsCabinet.view token = some obj → ∃ (k : ThreadId) (w : Worker),
    obj = some k ∧ s.workers[k]? = some w ∧ w.token = token
  fresh : ∀ k : ThreadId, s.workers.length ≤ k →
    s.cleaner.threadVec.count (some k) + s.mainLoop.count (.joinAndDelete (some k))
      + s.joined.count (some k) = 0

/-- `cleanup` runs on a ready pool, `initialize` on one that is not. -/
structure LifeCycle (s : ThreadPool) : Prop where
  busy : s.cleaner ≠ .idle → s.isReady = true
  start : s.starting = true → s.isReady = false

def retiring (s : ThreadPool) :
    Cabinet ThreadId × Cleanup × List Posted × List (Option ThreadId) × Bool × Bool :=
  (s.threadsCabinet, s.cleaner, s.mainLoop, s.joined, s.isReady, s.starting)

/-- One worker has gone on to another place of `threadProc`, and nothing else has changed. -/
structure Moves (s t : ThreadPool) (thread : ThreadId) (pc : Pc) : Prop where
  workers : t.workers = (s.setPc thread pc).workers
  retiring : t.retiring = s.retiring

theorem retiring_popOneTask (s : ThreadPool) : s.popOneTask.2.retiring = s.retiring := by
  unfold popOneTask
  split <;> rfl

theorem leaveWait_moves (s : ThreadPool) (thread : ThreadId) : ∃ pc, Moves s (s.leaveWait thread) thread pc ∧
      (s.allThreadsStopFlag = true ∧ pc = .exited ∨ s.allThreadsStopFlag = false ∧ ∃ item, pc = .popped item) := by
  have hworkers := (workers_popOneTask ({ s with idleThreadNum := s.idleThreadNum - 1 } : ThreadPool)).1
  have hretiring := retiring_popOneTask ({ s with idleThreadNum := s.idleThreadNum - 1 } : ThreadPool)
  unfold leaveWait
  dsimp only
  split
  · exact ⟨.exited, ⟨rfl, rfl⟩, .inl ⟨‹_›, rfl⟩⟩
  rename_i hstop
  refine ⟨.popped ({ s with idleThreadNum := s.idleThreadNum - 1 } : ThreadPool).popOneTask.1,
    ⟨?_, ?_⟩, .inr ⟨Bool.eq_false_of_not_eq_true hstop, _, rfl⟩⟩
  · split <;> exact workers_setPc_congr hworkers _ _
  · split <;> exact hretiring

theorem checkWait_moves (s : ThreadPool) (thread : ThreadId) : ∃ pc, Moves s (s.checkWait thread) thread pc ∧
      (s.allThreadsStopFlag = true ∧ pc = .exited ∨
        s.allThreadsStopFlag = false ∧ (pc = .parking ∨ ∃ item, pc = .popped item)) := by
  unfold checkWait
  split
  · obtain ⟨pc, hmoves, hpc⟩ := s.leaveWait_moves thread
    exact ⟨pc, hmoves, hpc.imp_right (And.imp_right .inr)⟩
  · rename_i hwait
    exact ⟨.parking, ⟨rfl, rfl⟩, .inr
      ⟨(shouldThreadExitWaiting_eq_false (Bool.eq_false_of_not_eq_true hwait)).1, .inl rfl⟩⟩

theorem startTask_moves (s : ThreadPool) (thread : ThreadId) (item : TaskId) :
    Moves s (s.startTask thread item) thread (.executing item) := by
  refine ⟨(workers_startTask s thread item).1, ?_⟩
  unfold startTask
  dsimp only
  split <;> rfl

theorem endTask_moves (s : ThreadPool) (thread : ThreadId) (item : TaskId) :
    Moves s (s.endTask thread item) thread .head := by
  refine ⟨(workers_endTask s thread item).1, ?_⟩
  unfold endTask
  dsimp only
  split <;> rfl

theorem retiring_cancel (s : ThreadPool) (token : Token) : (s.cancel token).2.retiring = s.retiring := by
  unfold cancel
  split
  · rfl
  split
  · rfl
  · dsimp only
    split <;> rfl

theorem retiring_dropTasks (s : ThreadPool) (tokens : List Token) : (s.dropTasks tokens).retiring = s.retiring :=
  dropTasks_apply (fun _ _ _ => rfl) s tokens

theorem getElem?_setPc (s : ThreadPool) (thread : ThreadId) (pc : Pc)
    (hw : (s.setPc thread pc).workers[k]? = some w) :
    ∃ v, s.workers[k]? = some v ∧ w.token = v.token ∧ (w.pc = v.pc ∨ k = thread ∧ w.pc = pc) := by
  rw [show (s.setPc thread pc).workers = s.workers.modify thread _ from rfl, List.getElem?_modify] at hw
  obtain ⟨v, hv, rfl⟩ := map_eq_some_iff.mp hw
  refine ⟨v, hv, ?_⟩
  split
  · exact ⟨rfl, .inr ⟨‹thread = k›.symm, rfl⟩⟩
  · exact ⟨rfl, .inl rfl⟩

theorem view_createWorker (s : ThreadPool) : s.createWorker.threadsCabinet.view
      = update s.threadsCabinet.view (s.threadsCabinet.alloc none).1 (some (some s.workers.length)) := by
  show (((s.threadsCabinet.alloc none).2.update (s.threadsCabinet.alloc none).1
    (some s.workers.length)).2).view = _
  rw [Cabinet.view_update, Cabinet.view_alloc, update_self, if_pos isSome_some, update_idem]

structure SameOwners (s t : ThreadPool) : Prop where
  length : t.workers.length = s.workers.length
  worker : ∀ (k : ThreadId) w, t.workers[k]? = some w →
    ∃ v, s.workers[k]? = some v ∧ w.token = v.token ∧ (w.pc = .leaving → v.pc = .leaving)
  cabinet : t.threadsCabinet = s.threadsCabinet
  threadVec : t.cleaner.threadVec = s.cleaner.threadVec
  posted : ∀ thread, t.mainLoop.count (.joinAndDelete thread) = s.mainLoop.count (.joinAndDelete thread)
  joined : t.joined = s.joined
  life : t.isReady = s.isReady ∧ t.starting = s.starting ∧ (t.cleaner = .idle ↔ s.cleaner = .idle)

namespace SameOwners

theorem of_eq (hworkers : t.workers = s.workers) (hretiring : t.retiring = s.retiring) : SameOwners s t := by
  obtain ⟨hcabinet, hcleaner, hposted, hjoined, hready, hstarting⟩ :
      t.threadsCabinet = s.threadsCabinet ∧ t.cleaner = s.cleaner ∧ t.mainLoop = s.mainLoop
        ∧ t.joined = s.joined ∧ t.isReady = s.isReady ∧ t.starting = s.starting := by
    simpa [retiring] using hretiring
  exact ⟨by rw [hworkers], fun k w hw => ⟨w, hworkers ▸ hw, rfl, id⟩, hcabinet, by rw [hcleaner],
    fun _ => by rw [hposted], hjoined, hready, hstarting, by rw [hcleaner]⟩

theorem of_moves (h : Moves s t thread pc) (hpc : pc ≠ .leaving) : SameOwners s t := by
  have hbase : SameOwners s { t with workers := s.workers } := of_eq rfl h.retiring
  refine { hbase with length := ?_, worker := fun k w hw => ?_ }
  · rw [h.workers]
    exact length_modify _ _ _
  rw [h.workers] at hw
  obtain ⟨v, hv, htoken, hplace⟩ := getElem?_setPc s thread pc hw
  refine ⟨v, hv, htoken, fun hleaving => ?_⟩
  rcases hplace with hsame | ⟨-, hnew⟩
  · exact hsame ▸ hleaving
  · exact absurd (hnew ▸ hleaving) hpc

theorem exists_worker (h : SameOwners s t) (hw : s.workers[k]? = some w) :
    ∃ v, t.workers[k]? = some v ∧ v.token = w.token := by
  have hlt : k < t.workers.length := h.length ▸ (List.getElem?_eq_some_iff.mp hw).1
  obtain ⟨v, hv, htoken, -⟩ := h.worker k _ (getElem?_eq_getElem hlt)
  cases hw.symm.trans hv
  exact ⟨_, getElem?_eq_getElem hlt, htoken⟩

theorem ownersNum_eq (h : SameOwners s t) (k : ThreadId) (token : Token) :
    t.ownersNum k token = s.ownersNum k token := by
  rw [ownersNum, ownersNum, h.cabinet, h.threadVec, h.posted, h.joined]

theorem retiredOnce (h : SameOwners s t) (hs : s.RetiredOnce) : t.RetiredOnce := by
  refine ⟨fun k w hw => ?_, fun k w hw hleaving => ?_, ⟨?_, ?_, ?_⟩, fun hready hstarting => ?_⟩
  · obtain ⟨v, hv, htoken, -⟩ := h.worker k w hw
    rw [h.ownersNum_eq, htoken]
    exact hs.once k v hv
  · obtain ⟨v, hv, htoken, hwas⟩ := h.worker k w hw
    rw [h.cabinet, htoken]
    exact hs.found k v hv (hwas hleaving)
  · rw [h.threadVec]
    exact hs.real.1
  · rw [← count_eq_zero, h.posted, count_eq_zero]
    exact hs.real.2.1
  · rw [h.joined]
    exact hs.real.2.2
  · rw [h.cabinet]
    exact hs.settled (h.life.1 ▸ hready) (h.life.2.1 ▸ hstarting)

theorem lifeCycle (h : SameOwners s t) (hs : s.LifeCycle) : t.LifeCycle := by
  refine ⟨fun hbusy => ?_, fun hstart => ?_⟩
  · rw [h.life.1]
    exact hs.busy fun hidle => hbusy (h.life.2.2.mpr hidle)
  · rw [h.life.1]
    exact hs.start (h.life.2.1 ▸ hstart)

theorem threadBooks (h : SameOwners s t) (hs : s.ThreadBooks) : t.ThreadBooks := by
  refine ⟨fun token obj hview => ?_, fun k hk => ?_⟩
  · rw [h.cabinet] at hview
    obtain ⟨k, w, hobj, hw, rfl⟩ := hs.stored token obj hview
    obtain ⟨v, hv, htoken⟩ := h.exists_worker hw
    exact ⟨k, v, hobj, hv, htoken⟩
  · rw [h.threadVec, h.posted, h.joined]
    exact hs.fresh k (h.length ▸ hk)

end SameOwners

structure Owned (s : ThreadPool) : Prop where
  once : ∀ (k : ThreadId) w, s.workers[k]? = some w → s.ownersNum k w.token = 1
  found : ∀ (k : ThreadId) w, s.workers[k]? = some w → w.pc = .leaving →
    s.threadsCabinet.at? w.token = some k
  real : none ∉ s.cleaner.threadVec ∧ .joinAndDelete none ∉ s.mainLoop ∧ none ∉ s.joined

theorem RetiredOnce.owned (hs : s.RetiredOnce) : s.Owned := { hs with }

theorem Owned.retiredOnce (hs : s.Owned)
    (hsettled : s.isReady = false → s.starting = false → s.threadsCabinet.size = 0) : s.RetiredOnce :=
  ⟨hs.once, hs.found, hs.real, hsettled⟩

theorem ThreadBooks.createWorker (hj : s.ThreadBooks) : s.createWorker.ThreadBooks := by
  refine ⟨fun token obj hview => ?_, fun k hk => ?_⟩
  · rw [view_createWorker] at hview
    by_cases htoken : token = (s.threadsCabinet.alloc none).1
    · subst htoken
      rw [update_self] at hview
      exact ⟨_, _, (some.inj hview).symm, getElem?_concat_length, rfl⟩
    rw [update_of_ne htoken] at hview
    obtain ⟨k, w, hobj, hw, hstored⟩ := hj.stored token obj hview
    refine ⟨k, w, hobj, ?_, hstored⟩
    show (s.workers ++ [_])[k]? = some w
    rw [getElem?_append_left (List.getElem?_eq_some_iff.mp hw).1]
    exact hw
  · have hlength : s.createWorker.workers.length = s.workers.length + 1 := length_append
    rw [hlength] at hk
    exact hj.fresh k (Nat.le_of_succ_le hk)

theorem Owned.createWorker (hs : s.Owned) (hj : s.ThreadBooks) : s.createWorker.Owned := by
  set added := (s.threadsCabinet.alloc none).1 with hadded
  have hfresh : s.threadsCabinet.view added = none := Cabinet.view_alloc_fst _ _
  have hold : ∀ token k, k ≠ s.workers.length →
      (s.createWorker.threadsCabinet.at? token = some k ↔ s.threadsCabinet.at? token = some k) := by
    intro token k hne
    rw [Cabinet.at?_eq_join_view, Cabinet.at?_eq_join_view, view_createWorker]
    by_cases htoken : token = added
    · rw [htoken, update_self, hfresh]
      exact ⟨fun h => absurd (some.inj h).symm hne, nofun⟩
    · rw [update_of_ne htoken]
  have hself : s.createWorker.threadsCabinet.at? added = some s.workers.length := by
    rw [Cabinet.at?_eq_join_view, view_createWorker, update_self]
    rfl
  have hcases : ∀ (k : ThreadId) w, s.createWorker.workers[k]? = some w →
      s.workers[k]? = some w ∧ k ≠ s.workers.length ∨ k = s.workers.length ∧ w = ⟨added, .head⟩ := by
    intro k w hw
    rw [show s.createWorker.workers = s.workers ++ [⟨added, .head⟩] from rfl] at hw
    by_cases hlt : k < s.workers.length
    · rw [getElem?_append_left hlt] at hw
      exact .inl ⟨hw, Nat.ne_of_lt hlt⟩
    have hlength := (List.getElem?_eq_some_iff.mp hw).1
    rw [length_append, length_singleton] at hlength
    obtain rfl : k = s.workers.length := Nat.le_antisymm (Nat.lt_succ_iff.mp hlength) (Nat.not_lt.mp hlt)
    rw [getElem?_concat_length] at hw
    exact .inr ⟨rfl, (some.inj hw).symm⟩
  refine ⟨fun k w hw => ?_, fun k w hw hleaving => ?_, hs.real⟩
  · rcases hcases k w hw with ⟨hbefore, hne⟩ | ⟨rfl, rfl⟩
    · refine Eq.trans ?_ (hs.once k w hbefore)
      rw [ownersNum, ownersNum, if_congr (hold w.token k hne) rfl rfl]
      rfl
    have hzero := hj.fresh s.workers.length le_rfl
    have hothers : s.createWorker.ownersNum s.workers.length added = 1 + (0 + 0 + 0) := by
      rw [ownersNum, if_pos hself]
      show 1 + s.cleaner.threadVec.count _ + s.mainLoop.count _ + s.joined.count _ = _
      omega
    exact hothers
  · rcases hcases k w hw with ⟨hbefore, hne⟩ | ⟨rfl, rfl⟩
    · exact (hold w.token k hne).mpr (hs.found k w hbefore hleaving)
    · cases hleaving

theorem createWorkers_owned (n : Nat) (hs : s.Owned) (hj : s.ThreadBooks) :
    (s.createWorkers n).Owned ∧ (s.createWorkers n).ThreadBooks := by
  induction n generalizing s with
  | zero => exact ⟨hs, hj⟩
  | succ n ih => exact ih (hs.createWorker hj) hj.createWorker

theorem at?_free (threads : Cabinet ThreadId) (token other : Token) :
    (threads.free token).2.at? other = if other = token then none else threads.at? other := by
  rw [Cabinet.at?_eq_join_view, Cabinet.at?_eq_join_view, Cabinet.view_free]
  by_cases hother : other = token
  · rw [if_pos hother, hother, update_self]
    rfl
  · rw [if_neg hother, update_of_ne hother]

variable {token : Token}

theorem view_of_at? {threads : Cabinet ThreadId} (h : threads.at? token = some k) :
    threads.view token = some (some k) := by
  rw [Cabinet.at?_eq_join_view] at h
  exact join_eq_some_iff.mp h

theorem ThreadBooks.token_eq (hj : s.ThreadBooks)
    (hat : s.threadsCabinet.at? token = some k) (hw : s.workers[k]? = some w) : w.token = token := by
  obtain ⟨j, v, hj', hv, htoken⟩ := hj.stored token _ (view_of_at? hat)
  cases hj'
  cases hw.symm.trans hv
  exact htoken

theorem ThreadBooks.view_inj (hj : s.ThreadBooks) (a b : Token) (obj : Option ThreadId)
    (ha : s.threadsCabinet.view a = some obj) (hb : s.threadsCabinet.view b = some obj) : a = b := by
  obtain ⟨k, w, hk, hw, rfl⟩ := hj.stored a obj ha
  obtain ⟨j, v, hj', hv, rfl⟩ := hj.stored b obj hb
  cases hk.symm.trans hj'
  exact congrArg Worker.token (some.inj (hw.symm.trans hv))

theorem ThreadBooks.count_objects (hj : s.ThreadBooks) (hw : s.workers[k]? = some w) :
    s.threadsCabinet.objects.count (some k) = if s.threadsCabinet.at? w.token = some k then 1 else 0 := by
  split
  · rename_i hat
    exact count_eq_one_of_mem (Cabinet.nodup_objects hj.view_inj) (Cabinet.mem_objects_iff.mpr ⟨_, view_of_at? hat⟩)
  rename_i hat
  refine count_eq_zero.mpr fun hmem => hat ?_
  obtain ⟨token, hview⟩ := Cabinet.mem_objects_iff.mp hmem
  have hopens : s.threadsCabinet.at? token = some k := by
    rw [Cabinet.at?_eq_join_view, hview]
    rfl
  rw [hj.token_eq hopens hw]
  exact hopens

theorem cleanupDrain_cleaner (s : ThreadPool) : s.cleanupDrain.cleaner.threadVec = s.threadsCabinet.objects := by
  have hcabinet : (s.dropTasks s.undoTasksToken.flatten).threadsCabinet = s.threadsCabinet :=
    congrArg Prod.fst (retiring_dropTasks s s.undoTasksToken.flatten)
  show (s.dropTasks s.undoTasksToken.flatten).threadsCabinet.objects = _
  rw [hcabinet]

theorem cleanupDrain_frame (s : ThreadPool) :
    s.cleanupDrain.workers = s.workers ∧ s.cleanupDrain.mainLoop = s.mainLoop
      ∧ s.cleanupDrain.joined = s.joined ∧ s.cleanupDrain.isReady = s.isReady
      ∧ s.cleanupDrain.starting = s.starting := by
  have hretiring := retiring_dropTasks s s.undoTasksToken.flatten
  simp only [retiring, Prod.mk.injEq] at hretiring
  obtain ⟨-, -, hposted, hjoined, hready, hstarting⟩ := hretiring
  exact ⟨(workers_dropTasks s _).1, hposted, hjoined, hready, hstarting⟩

theorem cleanupDrain_books (hj : s.ThreadBooks) (hidle : s.cleaner = .idle) :
    s.cleanupDrain.ThreadBooks := by
  obtain ⟨hworkers, hposted, hjoined, -⟩ := s.cleanupDrain_frame
  refine ⟨fun token obj hview => ?_, fun k hk => ?_⟩
  · have hnone : s.cleanupDrain.threadsCabinet.view token = none := Cabinet.view_empty token
    rw [hnone] at hview
    cases hview
  rw [hworkers] at hk
  have hfresh := hj.fresh k hk
  rw [hidle] at hfresh
  have hnot : some k ∉ s.threadsCabinet.objects := by
    intro hmem
    obtain ⟨token, hview⟩ := Cabinet.mem_objects_iff.mp hmem
    obtain ⟨j, w, hjk, hw, -⟩ := hj.stored token _ hview
    cases hjk
    exact absurd (List.getElem?_eq_some_iff.mp hw).1 (Nat.not_lt.mpr hk)
  rw [cleanupDrain_cleaner, hposted, hjoined, count_eq_zero.mpr hnot]
  exact hfresh

theorem cleanupDrain_retiredOnce_iff (hs : s.RetiredOnce) (hj : s.ThreadBooks)
    (hidle : s.cleaner = .idle) (hready : s.isReady = true) :
    s.cleanupDrain.RetiredOnce ↔ ∀ w ∈ s.workers, w.pc ≠ .leaving := by
  obtain ⟨hworkers, hposted, hjoined, hready', -⟩ := s.cleanupDrain_frame
  have hnone : ∀ token, s.cleanupDrain.threadsCabinet.at? token = none := by
    intro token
    rw [Cabinet.at?_eq_join_view, show s.cleanupDrain.threadsCabinet.view token = none from Cabinet.view_empty token]
    rfl
  constructor
  · intro h w hmem hleaving
    obtain ⟨k, hw⟩ := mem_iff_getElem?.mp hmem
    have hfound := h.found k w (hworkers ▸ hw) hleaving
    rw [hnone] at hfound
    cases hfound
  · intro hstay
    refine ⟨fun k w hw => ?_, fun k w hw hleaving => ?_, ⟨?_, ?_, ?_⟩, fun hnot => ?_⟩
    · rw [hworkers] at hw
      have honce := hs.once k w hw
      rw [ownersNum, hidle] at honce
      rw [ownersNum, hnone, if_neg nofun, cleanupDrain_cleaner, hj.count_objects hw, hposted, hjoined]
      simpa [Cleanup.threadVec] using honce
    · rw [hworkers] at hw
      exact absurd hleaving (hstay w (mem_of_getElem? hw))
    · rw [cleanupDrain_cleaner]
      intro hmem
      obtain ⟨token, hview⟩ := Cabinet.mem_objects_iff.mp hmem
      obtain ⟨k, w, hk, -⟩ := hj.stored token _ hview
      cases hk
    · rw [hposted]
      exact hs.real.2.1
    · rw [hjoined]
      exact hs.real.2.2
    · rw [hready', hready] at hnot
      cases hnot

theorem removeSelf_books (hj : s.ThreadBooks) (hworker : s.workers[thread]? = some ⟨token, .leaving⟩)
    (hfound : s.threadsCabinet.at? token = some thread) : (s.removeSelf thread token).ThreadBooks := by
  refine ⟨fun other obj hview => ?_, fun k hk => ?_⟩
  · obtain ⟨k, w, hobj, hw, htoken⟩ := hj.stored other obj (Cabinet.view_of_view_free hview)
    have hlt : k < (s.setPc thread .exited).workers.length :=
      (length_modify _ _ _).symm ▸ (List.getElem?_eq_some_iff.mp hw).1
    obtain ⟨v, hv, hsame, -⟩ := getElem?_setPc s thread .exited (getElem?_eq_getElem hlt)
    cases hw.symm.trans hv
    exact ⟨k, _, hobj, getElem?_eq_getElem hlt, hsame.trans htoken⟩
  · have hlength : (s.setPc thread .exited).workers.length = s.workers.length :=
      length_modify _ _ _
    have hk' : s.workers.length ≤ k := hlength ▸ hk
    have hne : thread ≠ k := by
      rintro rfl
      exact absurd (List.getElem?_eq_some_iff.mp hworker).1 (Nat.not_lt.mpr hk')
    have hfresh := hj.fresh k hk'
    show s.cleaner.threadVec.count (some k)
      + (s.mainLoop ++ [Posted.joinAndDelete (s.threadsCabinet.free token).1]).count
          (Posted.joinAndDelete (some k))
      + s.joined.count (some k) = 0
    have hzero : [Posted.joinAndDelete (some thread)].count (.joinAndDelete (some k)) = 0 :=
      count_eq_zero.mpr (by simpa using hne.symm)
    rw [Cabinet.free_fst, hfound, count_append, hzero]
    exact hfresh

theorem removeSelf_retiredOnce (hs : s.RetiredOnce)
    (hworker : s.workers[thread]? = some ⟨token, .leaving⟩) : (s.removeSelf thread token).RetiredOnce := by
  have hfound : s.threadsCabinet.at? token = some thread := hs.found thread _ hworker rfl
  have hposted : (s.removeSelf thread token).mainLoop
      = s.mainLoop ++ [.joinAndDelete (some thread)] := by
    show s.mainLoop ++ [.joinAndDelete (s.threadsCabinet.free token).1] = _
    rw [Cabinet.free_fst, hfound]
  have hat : ∀ other, (s.removeSelf thread token).threadsCabinet.at? other
      = if other = token then none else s.threadsCabinet.at? other := at?_free _ _
  refine ⟨fun k w hw => ?_, fun k w hw hleaving => ?_, ⟨hs.real.1, ?_, hs.real.2.2⟩, fun hready hstarting => ?_⟩
  · obtain ⟨v, hv, htoken, -⟩ := getElem?_setPc s thread .exited hw
    have honce := hs.once k v hv
    rw [ownersNum] at honce
    rw [ownersNum, hat, hposted, htoken, count_append]
    show _ + s.cleaner.threadVec.count (some k) + _ + s.joined.count (some k) = 1
    by_cases hk : k = thread
    · subst hk
      cases hworker.symm.trans hv
      rw [if_pos hfound] at honce
      rw [if_pos rfl, if_neg nofun, count_singleton_self]
      omega
    · have hzero : ([.joinAndDelete (some thread)] : List Posted).count (.joinAndDelete (some k)) = 0 :=
        count_eq_zero.mpr (by simpa using hk)
      have hsame : (if (if v.token = token then none else s.threadsCabinet.at? v.token) = some k
          then 1 else 0) = if s.threadsCabinet.at? v.token = some k then 1 else 0 := by
        by_cases hv' : v.token = token
        · rw [if_pos hv', hv', hfound, if_neg nofun, if_neg fun h => hk (some.inj h).symm]
        · rw [if_neg hv']
      rw [hsame, hzero]
      omega
  · obtain ⟨v, hv, htoken, hplace⟩ := getElem?_setPc s thread .exited hw
    rcases hplace with hsame | ⟨-, hexited⟩
    · have hthere := hs.found k v hv (hsame ▸ hleaving)
      have hne : k ≠ thread := by
        rintro rfl
        rw [show (s.removeSelf k token).workers = s.workers.modify k _ from rfl, getElem?_modify_eq, hv] at hw
        cases hw
        cases hleaving
      rw [hat, htoken, if_neg, hthere]
      intro heq
      rw [heq, hfound] at hthere
      exact hne (some.inj hthere).symm
    · rw [hexited] at hleaving
      cases hleaving
  · rw [hposted]
    simpa using hs.real.2.1
  have hvalid : s.threadsCabinet.view token ≠ none := by
    rw [view_of_at? hfound]
    exact some_ne_none _
  have hsize := Cabinet.size_free hvalid
  have hzero := hs.settled hready hstarting
  omega

theorem enterLoop_retiredOnce_iff (hs : s.RetiredOnce) (hpc : s.pcOf thread = some .head) :
    (s.enterLoop thread).RetiredOnce ↔ s.RetiresCleanly (.enterLoop thread) := by
  obtain ⟨w, hw, hhead⟩ := exists_worker hpc
  unfold enterLoop
  split
  · rename_i hsurplus
    have hself : (s.setPc thread .leaving).workers[thread]? = some { w with pc := .leaving } := by
      show (s.workers.modify thread _)[thread]? = _
      rw [getElem?_modify_eq, hw]
      rfl
    constructor
    · intro h _ v hv
      cases hw.symm.trans hv
      exact h.found thread { w with pc := .leaving } hself rfl
    intro h
    refine ⟨fun k v hv => ?_, fun k v hv hleaving => ?_, hs.real, hs.settled⟩
    · obtain ⟨u, hu, htoken, -⟩ := getElem?_setPc s thread .leaving hv
      rw [htoken]
      exact hs.once k u hu
    obtain ⟨u, hu, htoken, hplace⟩ := getElem?_setPc s thread .leaving hv
    rw [htoken]
    rcases hplace with hsame | ⟨rfl, -⟩
    · exact hs.found k u hu (hsame ▸ hleaving)
    · exact h hsurplus u hu
  · rename_i hstay
    obtain ⟨pc, hmoves, hplace⟩ :=
      ({ s with idleThreadNum := s.idleThreadNum + 1 } : ThreadPool).checkWait_moves thread
    have hne : pc ≠ .leaving := by
      rcases hplace with ⟨-, rfl⟩ | ⟨-, rfl | ⟨_, rfl⟩⟩ <;> nofun
    exact iff_of_true
      ((SameOwners.of_moves (s := s) ⟨hmoves.workers, hmoves.retiring⟩ hne).retiredOnce hs)
      fun hsurplus => absurd hsurplus hstay

theorem count_joined (thread : Option ThreadId) (k : ThreadId) (before after : Nat)
    (hbefore : before = after + if thread = some k then 1 else 0) (joined : List (Option ThreadId)) :
    after + (joined ++ [thread]).count (some k) = before + joined.count (some k) := by
  rw [hbefore, count_append, count_singleton]
  simp only [beq_iff_eq]
  omega

theorem cleanupJoin_retiredOnce (hs : s.RetiredOnce) {threadVec : List (Option ThreadId)}
    {next : Option ThreadId} (hcleaner : s.cleaner = .joining (next :: threadVec)) :
    RetiredOnce { s with joined := s.joined ++ [next], cleaner := .joining threadVec } := by
  have hreal := hs.real
  rw [hcleaner] at hreal
  obtain ⟨hvec, hposted, hjoined⟩ := hreal
  rw [Cleanup.threadVec, mem_cons, not_or] at hvec
  refine ⟨fun k w hw => ?_, hs.found, ⟨hvec.2, hposted, ?_⟩, hs.settled⟩
  · have honce := hs.once k w hw
    have hcount := count_joined next k ((next :: threadVec).count (some k)) (threadVec.count (some k))
      (by rw [count_cons]; simp) s.joined
    rw [ownersNum, hcleaner, Cleanup.threadVec] at honce
    rw [ownersNum]
    show (if s.threadsCabinet.at? w.token = some k then 1 else 0) + threadVec.count (some k)
      + s.mainLoop.count _ + (s.joined ++ [next]).count _ = 1
    omega
  · rw [mem_append, not_or]
    exact ⟨hjoined, by simpa using hvec.1⟩

theorem runJoin_retiredOnce (hs : s.RetiredOnce) {rest : List Posted} {next : Option ThreadId}
    (hposted : s.mainLoop = .joinAndDelete next :: rest) :
    RetiredOnce { s with mainLoop := rest, joined := s.joined ++ [next] } := by
  have hreal := hs.real
  rw [hposted] at hreal
  obtain ⟨hvec, hloop, hjoined⟩ := hreal
  rw [mem_cons, not_or] at hloop
  refine ⟨fun k w hw => ?_, hs.found, ⟨hvec, hloop.2, ?_⟩, hs.settled⟩
  · have honce := hs.once k w hw
    have hcount := count_joined next k
      ((Posted.joinAndDelete next :: rest).count (Posted.joinAndDelete (some k)))
      (rest.count (Posted.joinAndDelete (some k))) (by rw [count_cons]; simp) s.joined
    rw [ownersNum, hposted] at honce
    rw [ownersNum]
    show (if s.threadsCabinet.at? w.token = some k then 1 else 0) + s.cleaner.threadVec.count _
      + rest.count _ + (s.joined ++ [next]).count _ = 1
    omega
  · rw [mem_append, not_or]
    refine ⟨hjoined, fun hmem => hloop.1 ?_⟩
    rw [mem_singleton.mp hmem]

theorem joined_books (hj : s.ThreadBooks) (hworkers : t.workers = s.workers)
    (hcabinet : t.threadsCabinet = s.threadsCabinet) (hsum : ∀ k : ThreadId, t.cleaner.threadVec.count (some k)
        + t.mainLoop.count (.joinAndDelete (some k)) + t.joined.count (some k)
      = s.cleaner.threadVec.count (some k) + s.mainLoop.count (.joinAndDelete (some k))
        + s.joined.count (some k)) : t.ThreadBooks := by
  refine ⟨?_, fun k hk => ?_⟩
  · rw [hworkers, hcabinet]
    exact hj.stored
  · rw [hsum]
    exact hj.fresh k (hworkers ▸ hk)

theorem createWorkers_life (s : ThreadPool) (n : Nat) :
    (s.createWorkers n).cleaner = s.cleaner ∧ (s.createWorkers n).isReady = s.isReady
      ∧ (s.createWorkers n).starting = s.starting := by
  induction n generalizing s with
  | zero => exact ⟨rfl, rfl, rfl⟩
  | succ n ih => exact ih s.createWorker

theorem initializePool_owned (hs : s.RetiredOnce) (hj : s.ThreadBooks) (minThreadNum maxThreadNum : Int) :
    (s.initializePool minThreadNum maxThreadNum).RetiredOnce
      ∧ (s.initializePool minThreadNum maxThreadNum).ThreadBooks := by
  unfold initializePool
  split
  · exact ⟨hs, hj⟩
  split
  · exact ⟨hs, hj⟩
  set base : ThreadPool := { s with
    minThreadNum := minThreadNum.toNat, maxThreadNum := maxThreadNum.toNat, starting := true }
    with hbase
  have hbooks : base.ThreadBooks := ⟨hj.stored, hj.fresh⟩
  obtain ⟨howned, hbooks'⟩ := createWorkers_owned (s := base) minThreadNum.toNat
    { hs with } hbooks
  refine ⟨howned.retiredOnce fun _ hnot => ?_, hbooks'⟩
  rw [(createWorkers_life base _).2.2] at hnot
  cases hnot

theorem execute_owned (hs : s.RetiredOnce) (hj : s.ThreadBooks) (mainCb : Bool) (prio : Int) :
    (s.execute mainCb prio).RetiredOnce ∧ (s.execute mainCb prio).ThreadBooks := by
  unfold execute
  split
  · exact ⟨hs, hj⟩
  rename_i hready
  have hqueued : SameOwners s (s.enqueue mainCb prio) := .of_eq rfl rfl
  have hkept := fun (u : ThreadPool) (hu : SameOwners (s.enqueue mainCb prio) u) =>
    And.intro (hu.retiredOnce (hqueued.retiredOnce hs)) (hu.threadBooks (hqueued.threadBooks hj))
  unfold provideWorker
  split
  · split
    · have hready' : (s.enqueue mainCb prio).isReady ≠ false := hready
      have howned := (hqueued.retiredOnce hs).owned.createWorker (hqueued.threadBooks hj)
      have hbooks := (hqueued.threadBooks hj).createWorker
      exact ⟨{ howned with settled := fun hnot => absurd hnot hready' }, ⟨hbooks.stored, hbooks.fresh⟩⟩
    · split
      · exact hkept _ (.of_eq rfl rfl)
      · exact hkept _ (.of_eq rfl rfl)
  · exact hkept _ (.of_eq rfl rfl)

theorem sameOwners_cleanupNotifyAll (s : ThreadPool) (threadVec : List (Option ThreadId))
    (hcleaner : s.cleaner = .flagged threadVec) :
    SameOwners s { s with
      workers := s.workers.map fun w => if w.pc = .waiting then { w with pc := .notified } else w
      cleaner := .joining threadVec } := by
  refine ⟨length_map _, fun k w hw => ?_, rfl, by rw [hcleaner]; rfl, fun _ => rfl, rfl, rfl, rfl,
    by rw [hcleaner]; exact iff_of_false nofun nofun⟩
  rw [show (s.workers.map _)[k]? = _ from getElem?_map] at hw
  obtain ⟨v, hv, rfl⟩ := map_eq_some_iff.mp hw
  refine ⟨v, hv, ?_, fun hleaving => ?_⟩
  · split <;> rfl
  · split at hleaving
    · cases hleaving
    · exact hleaving

theorem sameOwners_finishBody (s : ThreadPool) (thread : ThreadId) (item : TaskId) :
    SameOwners s (s.finishBody thread item) := by
  have hmoves : ∀ u : ThreadPool, u.workers = (s.setPc thread (.finished item)).workers →
      u.retiring = s.retiring → SameOwners s u := fun u hworkers hretiring =>
    .of_moves ⟨hworkers, hretiring⟩ nofun
  unfold finishBody
  dsimp only
  split
  · split
    · obtain ⟨hlength, hworker, hcabinet, hvec, hposted, hjoined, hlife⟩ :=
        hmoves ((s.setPc thread (.finished item)).setPhase item .finished) rfl rfl
      refine ⟨hlength, hworker, hcabinet, hvec, fun next => ?_, hjoined, hlife⟩
      show (s.mainLoop ++ [Posted.mainCb item]).count _ = _
      rw [count_append]
      rfl
    · exact hmoves _ rfl rfl
  · exact hmoves _ rfl rfl

/-- `cleanup` runs on a ready pool and `initialize` on one that is not, after every step. -/
theorem LifeCycle.stepped (hs : s.LifeCycle) {a : Action} (h : Stepped s a t) : t.LifeCycle := by
  have hsame : t.cleaner = s.cleaner ∧ t.isReady = s.isReady ∧ t.starting = s.starting →
      t.LifeCycle := by
    rintro ⟨hcleaner, hready, hstarting⟩
    exact ⟨by rw [hcleaner, hready]; exact hs.busy, by rw [hstarting, hready]; exact hs.start⟩
  have hretiring : t.retiring = s.retiring → t.LifeCycle := by
    intro heq
    simp only [retiring, Prod.mk.injEq] at heq
    exact hsame ⟨heq.2.1, heq.2.2.2.2⟩
  have hbusy : s.cleaner ≠ .idle → t.isReady = s.isReady → t.starting = s.starting →
      t.LifeCycle := by
    intro hne hready hstarting
    exact ⟨fun _ => hready.trans (hs.busy hne), by rw [hstarting, hready]; exact hs.start⟩
  cases h with
  | initializePool minThreadNum maxThreadNum =>
    unfold initializePool at *
    split
    · exact hs
    rename_i hready
    split
    · exact hs
    obtain ⟨hcleaner, hready', hstarting⟩ := createWorkers_life { s with
      minThreadNum := minThreadNum.toNat, maxThreadNum := maxThreadNum.toNat
      starting := true } minThreadNum.toNat
    refine ⟨fun hne => ?_, fun _ => ?_⟩
    · rw [hcleaner] at hne
      exact absurd (hs.busy hne) hready
    · exact hready'.trans (Bool.eq_false_of_not_eq_true hready)
  | initializeEnd => exact ⟨fun _ => rfl, nofun⟩
  | execute mainCb prio =>
    apply hsame
    unfold execute provideWorker
    repeat' split
    all_goals exact ⟨rfl, rfl, rfl⟩
  | cancel token => exact hretiring (retiring_cancel s token)
  | cleanupDrain _ hready hidle =>
    obtain ⟨-, -, -, hready', hstarting⟩ := s.cleanupDrain_frame
    refine ⟨fun _ => hready'.trans hready, fun hstart => ?_⟩
    rw [hready', hs.start (hstarting ▸ hstart)]
  | cleanupStopFlag threadVec hcleaner => exact hbusy (by rw [hcleaner]; nofun) rfl rfl
  | cleanupNotifyAll threadVec hcleaner => exact hbusy (by rw [hcleaner]; nofun) rfl rfl
  | cleanupJoin next threadVec hcleaner => exact hbusy (by rw [hcleaner]; nofun) rfl rfl
  | cleanupEnd hcleaner => exact ⟨fun hne => absurd rfl hne, fun _ => rfl⟩
  | enterLoop thread =>
    apply hretiring
    unfold enterLoop
    split
    · rfl
    · exact (({ s with idleThreadNum := s.idleThreadNum + 1 } : ThreadPool).checkWait_moves
        thread).choose_spec.1.retiring
  | checkWait thread => exact hretiring (s.checkWait_moves thread).choose_spec.1.retiring
  | startTask thread item => exact hretiring (startTask_moves s thread item).retiring
  | finishBody thread item => exact (sameOwners_finishBody s thread item).lifeCycle hs
  | endTask thread item => exact hretiring (endTask_moves s thread item).retiring
  | _ => exact hsame ⟨rfl, rfl, rfl⟩

/-- A step keeps every thread with one owner exactly if it retires cleanly. -/
theorem retiredOnce_stepped (hs : s.RetiredOnce) (hj : s.ThreadBooks) (hc : s.LifeCycle) {a : Action}
    (h : Stepped s a t) : (t.RetiredOnce ↔ s.RetiresCleanly a) ∧ t.ThreadBooks := by
  have hsame : ∀ {u : ThreadPool}, SameOwners s u → (u.RetiredOnce ↔ True) ∧ u.ThreadBooks :=
    fun hu => ⟨iff_true_intro (hu.retiredOnce hs), hu.threadBooks hj⟩
  have hmoves : ∀ {thread old} pc, s.pcOf thread = some old → pc ≠ .leaving →
      (RetiredOnce (s.setPc thread pc) ↔ True) ∧ (s.setPc thread pc).ThreadBooks :=
    fun pc _ hne => hsame (.of_moves ⟨rfl, rfl⟩ hne)
  have hchecked : ∀ u : ThreadPool, u.workers = s.workers → u.retiring = s.retiring →
      ∀ thread, SameOwners s (u.checkWait thread) := by
    intro u hworkers hretiring thread
    obtain ⟨pc, hmoved, hplace⟩ := u.checkWait_moves thread
    have hmoves : Moves s (u.checkWait thread) thread pc :=
      ⟨hmoved.workers.trans (workers_setPc_congr hworkers _ _), hmoved.retiring.trans hretiring⟩
    refine .of_moves hmoves ?_
    rcases hplace with ⟨-, rfl⟩ | ⟨-, rfl | ⟨_, rfl⟩⟩ <;> nofun
  cases h with
  | initializePool minThreadNum maxThreadNum =>
    obtain ⟨howned, hbooks⟩ := initializePool_owned hs hj minThreadNum maxThreadNum
    exact ⟨iff_true_intro howned, hbooks⟩
  | initializeEnd hstart =>
    exact ⟨iff_true_intro ⟨hs.once, hs.found, hs.real, nofun⟩, ⟨hj.stored, hj.fresh⟩⟩
  | execute mainCb prio =>
    obtain ⟨howned, hbooks⟩ := execute_owned hs hj mainCb prio
    exact ⟨iff_true_intro howned, hbooks⟩
  | notifyOne thread hpc =>
    have hmoves : Moves s { s.setPc thread .notified with notifies := s.notifies - 1 } thread .notified := ⟨rfl, rfl⟩
    exact hsame (.of_moves hmoves nofun)
  | notifyNone => exact hsame (.of_eq rfl rfl)
  | getTaskStatus token => exact hsame (.of_eq rfl rfl)
  | cancel token => exact hsame (.of_eq (workers_cancel s token).1 (retiring_cancel s token))
  | cleanupDrain _ hready hidle =>
    exact ⟨cleanupDrain_retiredOnce_iff hs hj hidle hready, cleanupDrain_books hj hidle⟩
  | cleanupStopFlag threadVec hcleaner =>
    exact hsame ⟨rfl, fun k w hw => ⟨w, hw, rfl, id⟩, rfl, by rw [hcleaner]; rfl, fun _ => rfl, rfl,
      rfl, rfl, by rw [hcleaner]; exact iff_of_false nofun nofun⟩
  | cleanupNotifyAll threadVec hcleaner => exact hsame (sameOwners_cleanupNotifyAll s threadVec hcleaner)
  | cleanupJoin next threadVec hcleaner =>
    refine ⟨iff_true_intro (cleanupJoin_retiredOnce hs hcleaner), joined_books hj rfl rfl fun k => ?_⟩
    have hcount := count_joined next k ((next :: threadVec).count (some k))
      (threadVec.count (some k)) (by rw [count_cons]; simp) s.joined
    rw [hcleaner]
    show threadVec.count _ + s.mainLoop.count _ + (s.joined ++ [next]).count _
      = (next :: threadVec).count _ + s.mainLoop.count _ + s.joined.count _
    omega
  | cleanupEnd hcleaner =>
    have hready : s.isReady = true := hc.busy (by rw [hcleaner]; nofun)
    have hstarting : s.starting = false := by
      by_contra hstart
      rw [hc.start (by simpa using hstart)] at hready
      cases hready
    refine ⟨⟨fun h => h.settled rfl hstarting, fun h => ?_⟩, ?_⟩
    · refine ⟨fun k w hw => ?_, hs.found, ⟨nofun, hs.real.2⟩, fun _ _ => h⟩
      have honce := hs.once k w hw
      rw [ownersNum, hcleaner] at honce
      exact honce
    · refine ⟨hj.stored, fun k hk => ?_⟩
      have hfresh := hj.fresh k hk
      rw [hcleaner] at hfresh
      exact hfresh
  | runMainCb item rest hposted =>
    refine hsame ⟨rfl, fun k w hw => ⟨w, hw, rfl, id⟩, rfl, rfl, fun next => ?_, rfl, rfl, rfl, Iff.rfl⟩
    rw [hposted]
    show rest.count (Posted.joinAndDelete next) = (Posted.mainCb item :: rest).count _
    rw [count_cons]
    simp
  | runJoin next rest hposted =>
    refine ⟨iff_true_intro (runJoin_retiredOnce hs hposted), joined_books hj rfl rfl fun k => ?_⟩
    have hcount := count_joined next k
      ((Posted.joinAndDelete next :: rest).count (Posted.joinAndDelete (some k)))
      (rest.count (Posted.joinAndDelete (some k))) (by rw [count_cons]; simp) s.joined
    rw [hposted]
    show s.cleaner.threadVec.count _ + rest.count _ + (s.joined ++ [next]).count _ = _
    omega
  | enterLoop thread _ hpc =>
    refine ⟨enterLoop_retiredOnce_iff hs hpc, ?_⟩
    unfold enterLoop
    split
    · refine ⟨fun token obj hview => ?_, fun k hk => ?_⟩
      · obtain ⟨k, w, hobj, hw, htoken⟩ := hj.stored token obj hview
        have hlt : k < (s.setPc thread .leaving).workers.length :=
          (length_modify _ _ _).symm ▸ (List.getElem?_eq_some_iff.mp hw).1
        obtain ⟨v, hv, hsame', -⟩ := getElem?_setPc s thread .leaving (getElem?_eq_getElem hlt)
        cases hw.symm.trans hv
        exact ⟨k, _, hobj, getElem?_eq_getElem hlt, hsame'.trans htoken⟩
      · refine hj.fresh k ?_
        rwa [show (s.setPc thread .leaving).workers.length = s.workers.length from
          length_modify _ _ _] at hk
    · exact (hsame (hchecked { s with idleThreadNum := s.idleThreadNum + 1 } rfl rfl thread)).2
  | park thread hpc => exact hmoves .waiting hpc nofun
  | wakeUp thread hpc => exact hmoves .notified hpc nofun
  | checkWait thread => exact hsame (hchecked s rfl rfl thread)
  | skipTask thread hpc => exact hmoves .head hpc nofun
  | startTask thread item => exact hsame (.of_moves (startTask_moves s thread item) nofun)
  | finishBody thread item => exact hsame (sameOwners_finishBody s thread item)
  | endTask thread item => exact hsame (.of_moves (endTask_moves s thread item) nofun)
  | removeSelf thread token _ hworker =>
    exact ⟨iff_true_intro (removeSelf_retiredOnce hs hworker),
      removeSelf_books hj hworker (hs.found thread _ hworker rfl)⟩

/-- **Every worker is joined once** in a run exactly when no `cleanup` takes a worker that is leaving or is going to. -/
theorem retiredOnce_iff (actions : List Action) :
    Lib.Always step RetiredOnce {} actions ↔ Lib.Along step RetiresCleanly {} actions := by
  refine Lib.always_iff_along (I := fun s => s.ThreadBooks ∧ s.LifeCycle) (b := fun _ _ => True)
    ?_ ?_ ⟨⟨?_, fun _ _ => rfl⟩, nofun, nofun⟩ (Lib.along_of_forall fun _ _ => trivial) ?_
  · intro s a t hinv _ hs hstep
    have hstepped := Stepped.of_step hstep
    exact ⟨(retiredOnce_stepped hs hinv.1 hinv.2 hstepped).2, hinv.2.stepped hstepped⟩
  · intro s a t hinv _ hs hstep
    exact (retiredOnce_stepped hs hinv.1 hinv.2 (.of_step hstep)).1
  · exact ⟨nofun, nofun, ⟨nofun, nofun, nofun⟩, fun _ _ => rfl⟩
  · intro token obj hview
    exact absurd ((Cabinet.view_empty token).symm.trans hview) nofun

/-- The worker has decided to exit when `cleanup` takes it, and looks for itself afterwards. -/
def doubleRetireRun : List Action :=
  [.initializePool 0 1, .initializeEnd, .execute false 0, .enterLoop 0, .startTask 0, .finishBody 0,
    .endTask 0, .enterLoop 0, .cleanupDrain, .removeSelf 0]

theorem leaving_worker_taken_by_cleanup : ¬Lib.Always step RetiredOnce {} doubleRetireRun := by
  intro halways
  obtain ⟨t, hrun, hnull⟩ := (Option.any_eq_true _ _).mp (show Option.any
    (fun t => decide (Posted.joinAndDelete none ∈ t.mainLoop))
    (Lib.run step {} doubleRetireRun) = true by decide)
  exact (halways _ (List.prefix_refl _) t hrun).real.2.1 (of_decide_eq_true hnull)

end ThreadPool

end Tbox.Eventx
