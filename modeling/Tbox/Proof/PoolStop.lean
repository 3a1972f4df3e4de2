import Tbox.Proof.PoolJoin

/-!
# Whether the stop request reaches the workers, and only those it is meant for

`all_threads_stop_flag` is written without the lock: a worker that has evaluated the predicate and not yet fallen
asleep sees neither it nor the notification, and `initialize` takes it back too late. Lives of the pool are counted to
tell one stop request from another.
-/

open List Option

namespace Tbox.Eventx

/-- The pool, with its life, the life in which the stop flag was set, and for each worker that left the two at that
time. -/
structure Lives where
  pool : ThreadPool := {}
  life : Nat := 0
  stopLife : Nat := 0
  exits : List (Nat × Nat) := []

namespace ThreadPool

/-- The worker leaves its loop in this step because of the stop flag. -/
def stopExits (t : ThreadPool) : Action → Bool
  | .enterLoop thread | .checkWait thread => t.pcOf thread = some .exited
  | _ => false

end ThreadPool

namespace Lives

open ThreadPool

def next (h : Lives) (a : Action) (t : ThreadPool) : Lives :=
  { pool := t
    life := if h.pool.starting = false ∧ t.starting = true then h.life + 1 else h.life
    stopLife := if a = .cleanupStopFlag then h.life else h.stopLife
    exits := if t.stopExits a then h.exits ++ [(h.life, h.stopLife)] else h.exits }

def step (h : Lives) (a : Action) : Option Lives := (h.pool.step a).map (h.next a)

/-- The stop request is neither lost nor sticky. -/
structure StopHeard (h : Lives) : Prop where
  /-- no worker sleeps on after `cleanup` has notified -/
  awake : ∀ threadVec, h.pool.cleaner = .joining threadVec → h.pool.notifies = 0 →
    ∀ w ∈ h.pool.workers, w.pc ≠ .waiting
  /-- no worker has left because of the request of an earlier life -/
  current : ∀ e ∈ h.exits, e.1 = e.2

/-- `cleanup` notifies while no worker is between its look at the flag and its sleep, and no worker looks at an old
flag. -/
def StopsInTime (h : Lives) : Action → Prop
  | .cleanupNotifyAll => ∀ w ∈ h.pool.workers, w.pc ≠ .parking
  | .enterLoop _ =>
    h.pool.starting = true → h.pool.allThreadsStopFlag = true → h.pool.isSurplus
  | .checkWait _ => h.pool.starting = true → h.pool.allThreadsStopFlag = false
  | _ => True

/-- The flag is set while a `cleanup` waits for the workers, and is of this life unless it is about to be taken back. -/
structure StopBooks (h : Lives) : Prop where
  cycle : h.pool.LifeCycle
  request : h.pool.starting = false → h.pool.allThreadsStopFlag = true → h.life = h.stopLife
  flagged : ∀ threadVec, h.pool.cleaner = .flagged threadVec ∨ h.pool.cleaner = .joining threadVec →
    h.pool.allThreadsStopFlag = true
  quiet : ∀ threadVec, h.pool.cleaner = .joining threadVec → ∀ w ∈ h.pool.workers,
    w.pc ≠ .waiting ∧ w.pc ≠ .parking
  current : ∀ e ∈ h.exits, e.1 = e.2

theorem StopBooks.stopHeard {h : Lives} (hb : h.StopBooks) : h.StopHeard :=
  ⟨fun threadVec hcleaner _ w hmem => (hb.quiet threadVec hcleaner w hmem).1, hb.current⟩

end Lives

namespace ThreadPool

variable {s t : ThreadPool} {thread : ThreadId} {pc old : Pc}

theorem pcOf_setPc (pc : Pc) (hpc : s.pcOf thread = some old) : (s.setPc thread pc).pcOf thread = some pc := by
  obtain ⟨w, hw, -⟩ := exists_worker hpc
  show (s.workers.modify thread _)[thread]?.map Worker.pc = some pc
  rw [getElem?_modify_eq, hw]
  rfl

structure Undisturbed (s t : ThreadPool) : Prop where
  cleaner : t.cleaner = s.cleaner
  flag : t.allThreadsStopFlag = s.allThreadsStopFlag
  starting : t.starting = s.starting
  asleep : ∀ w ∈ t.workers, w.pc = .waiting ∨ w.pc = .parking → w ∈ s.workers

namespace Undisturbed

theorem of_workers_eq (hretiring : t.retiring = s.retiring)
    (hflag : t.allThreadsStopFlag = s.allThreadsStopFlag) (hworkers : t.workers = s.workers) : Undisturbed s t := by
  simp only [retiring, Prod.mk.injEq] at hretiring
  exact ⟨hretiring.2.1, hflag, hretiring.2.2.2.2.2, fun w hmem _ => hworkers ▸ hmem⟩

theorem of_setPc (pc : Pc) (hcleaner : t.cleaner = s.cleaner)
    (hflag : t.allThreadsStopFlag = s.allThreadsStopFlag) (hstarting : t.starting = s.starting)
    (hworkers : t.workers = (s.setPc thread pc).workers) (hwaiting : pc ≠ .waiting)
    (hparking : pc ≠ .parking) : Undisturbed s t := by
  refine ⟨hcleaner, hflag, hstarting, fun w hmem hasleep => ?_⟩
  rw [hworkers] at hmem
  obtain ⟨k, hw⟩ := mem_iff_getElem?.mp hmem
  rw [show (s.setPc thread pc).workers = s.workers.modify thread _ from rfl, List.getElem?_modify] at hw
  obtain ⟨v, hv, rfl⟩ := map_eq_some_iff.mp hw
  split at hasleep
  · exact absurd hasleep (not_or.mpr ⟨hwaiting, hparking⟩)
  · rw [if_neg ‹_›]
    exact mem_of_getElem? hv

theorem of_moves (h : Moves s t thread pc) (hflag : t.allThreadsStopFlag = s.allThreadsStopFlag)
    (hwaiting : pc ≠ .waiting) (hparking : pc ≠ .parking) : Undisturbed s t := by
  have hretiring := h.retiring
  simp only [retiring, Prod.mk.injEq] at hretiring
  exact of_setPc _ hretiring.2.1 hflag hretiring.2.2.2.2.2 h.workers hwaiting hparking

theorem execute (s : ThreadPool) (mainCb : Bool) (prio : Int) : Undisturbed s (s.execute mainCb prio) := by
  refine ⟨?_, stopFlag_execute s mainCb prio, ?_, ?_⟩
  · unfold ThreadPool.execute provideWorker
    repeat' split
    all_goals rfl
  · unfold ThreadPool.execute provideWorker
    repeat' split
    all_goals rfl
  unfold ThreadPool.execute provideWorker
  split
  · exact fun w hmem _ => hmem
  split
  · split
    · intro w hmem hasleep
      rcases mem_append.mp (show w ∈ s.workers ++ [_] from hmem) with hmem | hmem
      · exact hmem
      · rw [mem_singleton.mp hmem] at hasleep
        rcases hasleep with h | h <;> cases h
    · split <;> exact fun w hmem _ => hmem
  · exact fun w hmem _ => hmem

end Undisturbed

end ThreadPool

namespace Lives

open ThreadPool

variable {h : Lives} {t : ThreadPool} {a : Action} {thread : ThreadId}

theorem life_next (a : Action) (hstarting : t.starting = h.pool.starting) : (h.next a t).life = h.life := by
  refine if_neg ?_
  rintro ⟨hfalse, htrue⟩
  rw [hstarting, hfalse] at htrue
  cases htrue

theorem StopBooks.request_next (hb : h.StopBooks) (hnot : a ≠ .cleanupStopFlag)
    (hstarting : t.starting = h.pool.starting)
    (hflag : t.allThreadsStopFlag = h.pool.allThreadsStopFlag) (hstarted : t.starting = false)
    (hset : t.allThreadsStopFlag = true) : (h.next a t).life = (h.next a t).stopLife := by
  have hlife : (h.next a t).life = h.life := life_next a hstarting
  have hstop : (h.next a t).stopLife = h.stopLife := if_neg hnot
  rw [hlife, hstop]
  exact hb.request (hstarting ▸ hstarted) (hflag ▸ hset)

theorem StopBooks.undisturbed (hb : h.StopBooks) (hcycle : t.LifeCycle)
    (hsame : Undisturbed h.pool t) (hflag : a ≠ .cleanupStopFlag)
    (hexits : ∀ e ∈ (h.next a t).exits, e.1 = e.2) : (h.next a t).StopBooks := by
  refine ⟨hcycle, hb.request_next hflag hsame.starting hsame.flag, fun threadVec hcleaner => ?_,
    fun threadVec hcleaner w hmem => ?_, hexits⟩
  · refine hsame.flag.trans (hb.flagged threadVec ?_)
    rw [← hsame.cleaner]
    exact hcleaner
  by_contra hasleep
  have hasleep' : w.pc = .waiting ∨ w.pc = .parking := by
    by_contra hnot
    exact hasleep (not_or.mp hnot)
  exact hasleep (hb.quiet threadVec (hsame.cleaner ▸ hcleaner) w (hsame.asleep w hmem hasleep'))

theorem StopBooks.checked {u : ThreadPool} (hb : h.StopBooks) (hworkers : u.workers = h.pool.workers)
    (hretiring : u.retiring = h.pool.retiring) (hflag : u.allThreadsStopFlag = h.pool.allThreadsStopFlag)
    (ha : a = .enterLoop thread ∨ a = .checkWait thread) (hpc : ∃ old, h.pool.pcOf thread = some old)
    (htime : h.pool.starting = true → h.pool.allThreadsStopFlag = false) (hcycle : (u.checkWait thread).LifeCycle) :
    (h.next a (u.checkWait thread)).StopBooks := by
  obtain ⟨pc, hmoves, hplace⟩ := u.checkWait_moves thread
  have hretiring' := hmoves.retiring.trans hretiring
  have hworkers' := hmoves.workers.trans (workers_setPc_congr hworkers thread pc)
  have hmoved : Moves h.pool (u.checkWait thread) thread pc := ⟨hworkers', hretiring'⟩
  have hflag' : (u.checkWait thread).allThreadsStopFlag = h.pool.allThreadsStopFlag :=
    (stopFlag_checkWait u thread).trans hflag
  have hnow : (u.checkWait thread).pcOf thread = some pc := by
    obtain ⟨old, hold⟩ := hpc
    rw [pcOf, hworkers']
    exact pcOf_setPc pc hold
  have hexits : (u.checkWait thread).stopExits a = decide (pc = .exited) := by
    rcases ha with rfl | rfl
    all_goals
      show decide (_ = _) = _
      rw [hnow]
      simp
  have hnot : a ≠ .cleanupStopFlag := by rcases ha with rfl | rfl <;> simp
  rw [hflag] at hplace
  rcases hplace with ⟨hset, rfl⟩ | ⟨hclear, hstays⟩
  · have hsame := Undisturbed.of_moves hmoved hflag' (by simp) (by simp)
    have hstarting : h.pool.starting = false := by
      by_contra hstart
      rw [htime (by simpa using hstart)] at hset
      cases hset
    refine hb.undisturbed hcycle hsame hnot fun e he => ?_
    rw [show (h.next a (u.checkWait thread)).exits = h.exits ++ [(h.life, h.stopLife)] from
      if_pos (by rw [hexits]; rfl)] at he
    rcases mem_append.mp he with he | he
    · exact hb.current e he
    · rw [mem_singleton.mp he]
      exact hb.request hstarting hset
  · have hne : pc ≠ .exited := by rcases hstays with rfl | ⟨_, rfl⟩ <;> simp
    have hidle : ∀ threadVec, h.pool.cleaner ≠ .joining threadVec := by
      intro threadVec hcleaner
      rw [hb.flagged threadVec (.inr hcleaner)] at hclear
      cases hclear
    simp only [ThreadPool.retiring, Prod.mk.injEq] at hretiring'
    obtain ⟨-, hcleaner, -, -, -, hstarting⟩ := hretiring'
    refine ⟨hcycle, hb.request_next hnot hstarting hflag', fun threadVec hc => ?_,
      fun threadVec hc => ?_, fun e he => ?_⟩
    · refine hflag'.trans (hb.flagged threadVec ?_)
      rw [← hcleaner]
      exact hc
    · exact absurd (hcleaner.symm.trans hc) (hidle threadVec)
    · rw [show (h.next a (u.checkWait thread)).exits = h.exits from
        if_neg (by rw [hexits]; simpa using hne)] at he
      exact hb.current e he

theorem initializePool_books (hb : h.StopBooks) (minThreadNum maxThreadNum : Int)
    (hcycle : (h.pool.initializePool minThreadNum maxThreadNum).LifeCycle) :
    (h.next (.initializePool minThreadNum maxThreadNum)
      (h.pool.initializePool minThreadNum maxThreadNum)).StopBooks := by
  unfold initializePool at *
  split at hcycle
  · rw [if_pos ‹_›]
    exact hb.undisturbed hcycle (.of_workers_eq rfl rfl rfl) nofun hb.current
  rename_i hready
  rw [if_neg hready]
  split at hcycle
  · rw [if_pos ‹_›]
    exact hb.undisturbed hcycle (.of_workers_eq rfl rfl rfl) nofun hb.current
  rw [if_neg ‹_›]
  obtain ⟨hcleaner, -, hstarting⟩ := createWorkers_life { h.pool with
    minThreadNum := minThreadNum.toNat, maxThreadNum := maxThreadNum.toNat
    starting := true } minThreadNum.toNat
  have hidle : h.pool.cleaner = .idle := by
    by_contra hne
    exact hready (hb.cycle.busy hne)
  have hnone : ∀ c : Cleanup, c ≠ .idle → h.pool.cleaner ≠ c := fun c hne heq => hne (heq.symm.trans hidle)
  refine ⟨hcycle, fun hs => ?_, fun threadVec hc => ?_, fun threadVec hc => ?_, hb.current⟩
  · exact absurd (hstarting.symm.trans hs) nofun
  · rcases hc with hc | hc
    · exact absurd (hcleaner.symm.trans hc) (hnone _ nofun)
    · exact absurd (hcleaner.symm.trans hc) (hnone _ nofun)
  · exact absurd (hcleaner.symm.trans hc) (hnone _ nofun)

/-- A step in time keeps the flag to the life it was set in. -/
theorem StopBooks.stepped (hb : h.StopBooks) (hguard : h.StopsInTime a) (hs : Stepped h.pool a t) :
    (h.next a t).StopBooks := by
  have hcycle := hb.cycle.stepped hs
  cases hs with
  | initializePool minThreadNum maxThreadNum => exact initializePool_books hb _ _ hcycle
  | initializeEnd hstart =>
    have hready : h.pool.isReady = false := hb.cycle.start hstart
    have hidle : h.pool.cleaner = .idle := by
      by_contra hne
      rw [hb.cycle.busy hne] at hready
      cases hready
    refine ⟨hcycle, nofun, fun threadVec hc => ?_, fun threadVec hc => ?_, hb.current⟩
    · rcases hc with hc | hc
      · exact absurd (hidle.symm.trans hc) nofun
      · exact absurd (hidle.symm.trans hc) nofun
    · exact absurd (hidle.symm.trans hc) nofun
  | execute mainCb prio => exact hb.undisturbed hcycle (.execute _ _ _) nofun hb.current
  | notifyOne thread hpc =>
    exact hb.undisturbed hcycle (.of_setPc .notified rfl rfl rfl rfl nofun nofun) nofun hb.current
  | cancel token =>
    exact hb.undisturbed hcycle (.of_workers_eq (retiring_cancel _ _) (stopFlag_cancel _ _)
      (workers_cancel _ _).1) nofun hb.current
  | cleanupDrain _ hready hidle =>
    obtain ⟨hworkers, -, -, -, hstarting⟩ := h.pool.cleanupDrain_frame
    have hflag : h.pool.cleanupDrain.allThreadsStopFlag = h.pool.allThreadsStopFlag := stopFlag_dropTasks h.pool _
    refine ⟨hcycle, hb.request_next nofun hstarting hflag, fun threadVec hc => ?_, nofun, hb.current⟩
    rcases hc with hc | hc <;> cases hc
  | cleanupStopFlag threadVec hcleaner =>
    refine ⟨hcycle, fun _ _ => ?_, fun _ _ => rfl, nofun, hb.current⟩
    exact life_next (t := { h.pool with
      allThreadsStopFlag := true, cleaner := .flagged threadVec }) .cleanupStopFlag rfl
  | cleanupNotifyAll threadVec hcleaner =>
    have hset := hb.flagged threadVec (.inl hcleaner)
    refine ⟨hcycle, hb.request_next nofun rfl rfl, fun _ _ => hset, fun _ _ w hmem => ?_, hb.current⟩
    obtain ⟨v, hv, rfl⟩ := List.mem_map.mp hmem
    split
    · exact ⟨nofun, nofun⟩
    · exact ⟨‹_›, hguard v hv⟩
  | cleanupJoin next threadVec hcleaner =>
    have hset := hb.flagged _ (.inr hcleaner)
    exact ⟨hcycle, hb.request_next nofun rfl rfl, fun _ _ => hset, fun _ _ => hb.quiet _ hcleaner, hb.current⟩
  | cleanupEnd hcleaner =>
    refine ⟨hcycle, hb.request_next nofun rfl rfl, fun threadVec hc => ?_, nofun, hb.current⟩
    rcases hc with hc | hc <;> cases hc
  | enterLoop thread _ hpc =>
    unfold enterLoop at *
    split at hcycle
    · rw [if_pos ‹_›]
      have hleft : stopExits (h.pool.setPc thread .leaving) (.enterLoop thread) = false := by
        simp [stopExits, pcOf_setPc _ hpc]
      refine hb.undisturbed hcycle (.of_setPc .leaving rfl rfl rfl rfl nofun nofun) nofun ?_
      rw [show (h.next (.enterLoop thread) (h.pool.setPc thread .leaving)).exits = h.exits from
        if_neg (by simp [hleft])]
      exact hb.current
    · rename_i hstay
      rw [if_neg hstay]
      refine hb.checked (u := { h.pool with idleThreadNum := h.pool.idleThreadNum + 1 }) rfl rfl rfl
        (.inl rfl) ⟨_, hpc⟩ (fun hstart => ?_) hcycle
      by_contra hset
      exact hstay (hguard hstart (by simpa using hset))
  | park thread hpc =>
    have hnone : ∀ threadVec, h.pool.cleaner ≠ .joining threadVec := by
      intro threadVec hcleaner
      obtain ⟨w, hw, hparking⟩ := exists_worker hpc
      exact (hb.quiet threadVec hcleaner w (mem_of_getElem? hw)).2 hparking
    exact ⟨hcycle, hb.request_next nofun rfl rfl, hb.flagged,
      fun threadVec hc => absurd hc (hnone threadVec), hb.current⟩
  | wakeUp thread hpc =>
    exact hb.undisturbed hcycle (.of_setPc .notified rfl rfl rfl rfl nofun nofun) nofun hb.current
  | checkWait thread _ hpc =>
    exact hb.checked rfl rfl rfl (.inr rfl) ⟨_, hpc⟩ hguard hcycle
  | skipTask thread hpc =>
    exact hb.undisturbed hcycle (.of_setPc .head rfl rfl rfl rfl nofun nofun) nofun hb.current
  | startTask thread item =>
    exact hb.undisturbed hcycle (.of_moves (startTask_moves _ _ _) (stopFlag_startTask _ _ _)
      nofun nofun) nofun hb.current
  | finishBody thread item =>
    have hsame := (sameOwners_finishBody h.pool thread item).life
    refine hb.undisturbed hcycle (.of_setPc (.finished item) ?_ (stopFlag_finishBody _ _ _)
      hsame.2.1 (workers_finishBody _ _ _).1 nofun nofun) nofun hb.current
    unfold finishBody
    dsimp only
    repeat' split
    all_goals rfl
  | endTask thread item =>
    exact hb.undisturbed hcycle (.of_moves (endTask_moves _ _ _) (stopFlag_endTask _ _ _)
      nofun nofun) nofun hb.current
  | removeSelf thread token _ hworker =>
    exact hb.undisturbed hcycle (.of_setPc .exited rfl rfl rfl rfl nofun nofun) nofun hb.current
  | _ => exact hb.undisturbed hcycle ⟨rfl, rfl, rfl, fun _ hmem _ => hmem⟩ nofun hb.current

/-- **The stop request reaches every sleeping worker and nobody else** in every run in which
`cleanup` and `initialize` find the workers away from the flag. -/
theorem stopHeard_of_stopsInTime {actions : List Action}
    (hguard : Lib.Along step StopsInTime {} actions) : Lib.Always step StopHeard {} actions := by
  intro pre hpre h hrun
  have hkept : ∀ h a h', StopBooks h → StopsInTime h a → step h a = some h' → StopBooks h' := by
    intro h a h' hb hg hstep
    obtain ⟨t, ht, rfl⟩ := Option.map_eq_some_iff.mp hstep
    exact hb.stepped hg (.of_step ht)
  have hinit : StopBooks {} :=
    ⟨⟨nofun, nofun⟩, nofun, fun _ hc => (by rcases hc with hc | hc <;> cases hc), nofun, nofun⟩
  exact (Lib.run_invariant hkept hinit (hguard.of_prefix hpre) hrun).stopHeard

/-- A pool that is cleaned up while its worker is at work. -/
def timelyStopRun : List Action :=
  [.initializePool 1 1, .initializeEnd, .execute false 0, .enterLoop 0, .cleanupDrain,
    .cleanupStopFlag, .cleanupNotifyAll, .startTask 0, .finishBody 0, .endTask 0, .enterLoop 0,
    .cleanupJoin, .cleanupEnd]

instance (s : ThreadPool) : Decidable s.isSurplus := inferInstanceAs (Decidable (_ ∧ _))

instance (h : Lives) (a : Action) : Decidable (h.StopsInTime a) := by
  cases a
  case cleanupNotifyAll => exact inferInstanceAs (Decidable (∀ w ∈ h.pool.workers, w.pc ≠ .parking))
  case enterLoop => exact inferInstanceAs (Decidable (_ → _ → h.pool.isSurplus))
  case checkWait => exact inferInstanceAs (Decidable (_ → _ = false))
  all_goals exact .isTrue trivial

theorem stopHeard_timely : Lib.Always step StopHeard {} timelyStopRun :=
  stopHeard_of_stopsInTime (by decide)

/-- The worker has looked at the flag before it was set, and falls asleep after the notification. -/
def lostStopRun : List Action :=
  [.initializePool 1 1, .initializeEnd, .cleanupDrain, .enterLoop 0, .cleanupStopFlag,
    .cleanupNotifyAll, .park 0]

/-- The second worker begins before `initialize` has taken the flag back. -/
def staleStopRun : List Action :=
  [.initializePool 1 1, .initializeEnd, .cleanupDrain, .cleanupStopFlag, .cleanupNotifyAll,
    .enterLoop 0, .cleanupJoin, .cleanupEnd, .initializePool 1 1, .enterLoop 1]

theorem stop_request_lost_and_sticky :
    ¬Lib.Always step StopHeard {} lostStopRun ∧ ¬Lib.Always step StopHeard {} staleStopRun := by
  constructor
  · intro halways
    obtain ⟨h, hrun, hasleep⟩ := (Option.any_eq_true _ _).mp (show Option.any
      (fun h => decide (h.pool.cleaner = .joining [some 0] ∧ h.pool.notifies = 0 ∧
        ∃ w ∈ h.pool.workers, w.pc = .waiting)) (Lib.run step {} lostStopRun) = true by decide)
    obtain ⟨hcleaner, hnotifies, w, hmem, hwaiting⟩ := of_decide_eq_true hasleep
    exact (halways _ (List.prefix_refl _) h hrun).awake _ hcleaner hnotifies w hmem hwaiting
  · intro halways
    obtain ⟨h, hrun, hstale⟩ := (Option.any_eq_true _ _).mp (show Option.any
      (fun h => decide ((2, 1) ∈ h.exits)) (Lib.run step {} staleStopRun) = true by decide)
    exact absurd ((halways _ (List.prefix_refl _) h hrun).current _ (of_decide_eq_true hstale)) nofun

end Lives

end Tbox.Eventx
