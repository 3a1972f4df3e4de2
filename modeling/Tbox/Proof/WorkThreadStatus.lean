import Tbox.Eventx.WorkThread

/-!
# What the work thread answers about a task

The ledger of the work thread is that of the pool, and so is the gap: a task that was popped is in neither index. The
waiting tokens stand in the order of their ids.
-/

open List Option

namespace Tbox.Eventx.WorkThread

open Cabinet (Token)

open Relation (ReflTransGen)

def Pc.holds : Pc → Option (TaskId × Phase)
  | .popped (some item) => some (item, .popped)
  | .executing item => some (item, .executing)
  | .finished item => some (item, .finished)
  | _ => none

variable {s t : WorkThread} {pc : Pc} {k j : TaskId} {task : Task} {phase : Phase} {token : Token}

def ledger (s : WorkThread) : Ledger :=
  { tasks := s.tasks
    doing := s.doingTasksToken
    view := s.undoTasksCabinet.view
    lastId := s.undoTasksCabinet.lastId
    held := fun k phase => if s.pc.holds = some (k, phase) then 1 else 0 }

/-- The tasks are started in the order of their submission, and those that wait come later. -/
structure Ordered (s : WorkThread) : Prop where
  sorted : s.undoTasksTokenDeque.Pairwise fun first second => first.id < second.id
  below : ∀ token ∈ s.undoTasksTokenDeque, token.id ≤ s.tasks.length
  started : s.started.Pairwise (· < ·)
  started_lt : ∀ k ∈ s.started, k < s.tasks.length ∧
    ∀ token ∈ s.undoTasksTokenDeque, k + 1 < token.id
  popped : ∀ k, s.pc = .popped (some k) → k < s.tasks.length ∧ (∀ j ∈ s.started, j < k) ∧
    ∀ token ∈ s.undoTasksTokenDeque, k + 1 < token.id

/-- The bookkeeping of every reachable state. -/
structure Tracked (s : WorkThread) : Prop where
  live : ∀ token, token ∈ s.undoTasksTokenDeque ↔ s.undoTasksCabinet.view token ≠ none
  once : s.undoTasksTokenDeque.Nodup
  ledger : s.ledger.Inv
  numbered : s.tasks.length ≤ Cabinet.sizeMax → s.ledger.Numbered
  ordered : s.tasks.length ≤ Cabinet.sizeMax → s.Ordered

structure Moved (s t : WorkThread) : Prop where
  tracked : t.Tracked
  steps : ReflTransGen Ledger.Step s.ledger t.ledger

theorem Tracked.stay (hs : s.Tracked) : s.Moved s := ⟨hs, .refl⟩

theorem Ordered.of_sublist (h : s.Ordered) (hlength : t.tasks.length = s.tasks.length)
    (hdeque : t.undoTasksTokenDeque.Sublist s.undoTasksTokenDeque) (hstarted : t.started = s.started)
    (hpopped : ∀ k, t.pc = .popped (some k) → s.pc = .popped (some k)) : t.Ordered := by
  refine ⟨h.sorted.sublist hdeque, ?_, hstarted ▸ h.started, ?_, ?_⟩
  · rw [hlength]
    exact fun token htoken => h.below token (hdeque.subset htoken)
  · rw [hlength, hstarted]
    intro k hk
    exact ⟨(h.started_lt k hk).1, fun token htoken => (h.started_lt k hk).2 token (hdeque.subset htoken)⟩
  rw [hlength, hstarted]
  intro k hk
  obtain ⟨hbelow, hlater, hwaiting⟩ := h.popped k (hpopped k hk)
  exact ⟨hbelow, hlater, fun token htoken => hwaiting token (hdeque.subset htoken)⟩

theorem held_move (hold : s.pc.holds = if task.phase.isHeld then some (k, task.phase) else none)
    (hnew : pc.holds = if phase.isHeld then some (k, phase) else none) :
    (fun j p => if pc.holds = some (j, p) then 1 else 0) = (s.ledger.move k task phase).held := by
  have hiff : ∀ (q : Phase) (j : TaskId) (p : Phase),
      ((if q.isHeld then some (k, q) else none) = some (j, p)) ↔ j = k ∧ p.isHeld ∧ p = q := by
    intro q j p
    split
    · next hheld =>
        rw [some.injEq, Prod.mk.injEq]
        constructor
        · rintro ⟨rfl, rfl⟩
          exact ⟨rfl, hheld, rfl⟩
        · rintro ⟨rfl, -, rfl⟩
          exact ⟨rfl, rfl⟩
    · next hheld =>
        constructor
        · nofun
        · rintro ⟨-, h, rfl⟩
          exact absurd h hheld
  funext j p
  change _ = if j = k then (if p.isHeld ∧ p = phase then 1 else 0)
    else if s.pc.holds = some (j, p) then 1 else 0
  rw [hold, hnew, if_congr (hiff phase j p) rfl rfl, if_congr (hiff task.phase j p) rfl rfl]
  by_cases hj : j = k
  · simp only [hj, true_and, if_true]
  · simp only [hj, false_and, if_false]

theorem held_move_of_queued (hl : s.ledger.Inv) (htask : s.tasks[k]? = some task)
    (hqueued : task.phase = .queued) (hnew : phase.isHeld = false) :
    s.ledger.held = (s.ledger.move k task phase).held := by
  funext j p
  change _ = if j = k then (if p.isHeld ∧ p = phase then 1 else 0) else s.ledger.held j p
  split
  · next hj =>
      subst hj
      rw [hl.held, if_neg, if_neg]
      · rintro ⟨hheld, rfl⟩
        rw [hnew] at hheld
        cases hheld
      rintro ⟨hheld, hphase⟩
      rw [show s.ledger.tasks[j]? = some task from htask, map_some, hqueued] at hphase
      cases hphase
      cases hheld
  · rfl

theorem exists_task_of_holds (hl : s.ledger.Inv) (hholds : s.pc.holds = some (k, phase)) :
    ∃ task, s.tasks[k]? = some task ∧ task.phase = phase := by
  have hheld := hl.held k phase
  rw [show s.ledger.held k phase = 1 from if_pos hholds] at hheld
  split at hheld
  · next h => exact map_eq_some_iff.mp h.2
  · cases hheld

theorem Tracked.exists_waiting (hs : s.Tracked) (hmem : token ∈ s.undoTasksTokenDeque) :
    ∃ k task, s.tasks[k]? = some task ∧ task.token = token ∧ task.phase = .queued ∧
      (s.undoTasksCabinet.free token).1 = some k := by
  obtain ⟨obj, hview⟩ := ne_none_iff_exists'.mp ((hs.live token).mp hmem)
  obtain ⟨k, task, rfl, htask, htoken, hphase⟩ := hs.ledger.stored token obj hview
  refine ⟨k, task, htask, htoken, hphase, ?_⟩
  rw [Cabinet.free_fst, Cabinet.at?_eq_join_view, hview]
  rfl

theorem Tracked.of_step (hs : s.Tracked) (hstep : s.ledger.Step t.ledger)
    (hlive : ∀ token, token ∈ t.undoTasksTokenDeque ↔ t.undoTasksCabinet.view token ≠ none)
    (honce : t.undoTasksTokenDeque.Nodup)
    (hordered : t.tasks.length ≤ Cabinet.sizeMax → s.Ordered → s.ledger.Numbered → t.Ordered) : s.Moved t := by
  refine ⟨⟨hlive, honce, hs.ledger.step hstep, Ledger.Numbered.step (l := s.ledger) hs.numbered hstep,
    fun hwrap => ?_⟩, .single hstep⟩
  have hbefore : s.tasks.length ≤ Cabinet.sizeMax := hstep.length_le.trans hwrap
  exact hordered hwrap (hs.ordered hbefore) (hs.numbered hbefore)

theorem Tracked.congr (hs : s.Tracked) (hledger : t.ledger = s.ledger)
    (hdeque : t.undoTasksTokenDeque = s.undoTasksTokenDeque) (hstarted : t.started = s.started)
    (hpopped : ∀ k, t.pc = .popped (some k) → s.pc = .popped (some k)) : s.Moved t := by
  have htasks : t.tasks = s.tasks := congrArg Ledger.tasks hledger
  have hview : t.undoTasksCabinet.view = s.undoTasksCabinet.view := congrArg Ledger.view hledger
  refine ⟨⟨?_, hdeque ▸ hs.once, hledger ▸ hs.ledger, ?_, ?_⟩, hledger ▸ .refl⟩
  · rw [hdeque, hview]
    exact hs.live
  · rw [htasks, hledger]
    exact hs.numbered
  · rw [htasks]
    exact fun hwrap => (hs.ordered hwrap).of_sublist (congrArg List.length htasks)
      (hdeque ▸ List.Sublist.refl _) hstarted hpopped

theorem Tracked.take (hs : s.Tracked) (htask : s.tasks[k]? = some task)
    (hqueued : task.phase = .queued) (hnext : Phase.queued.Next phase)
    (htasks : t.tasks = s.tasks.modify k (·.enter phase)) (hdoing : t.doingTasksToken = s.doingTasksToken)
    (hcabinet : t.undoTasksCabinet = (s.undoTasksCabinet.free task.token).2)
    (hdeque : t.undoTasksTokenDeque = s.undoTasksTokenDeque.erase task.token)
    (hheld : t.ledger.held = (s.ledger.move k task phase).held)
    (hordered : s.Ordered → s.ledger.Numbered → t.Ordered) : s.Moved t := by
  have hview : t.undoTasksCabinet.view
      = Function.update s.undoTasksCabinet.view task.token none := by
    rw [hcabinet]
    exact Cabinet.view_free _ _
  have hledger : t.ledger = s.ledger.move k task phase := by
    refine Ledger.ext htasks ?_ ?_ ?_ hheld
    · refine hdoing.trans ?_
      cases hnext <;> rfl
    · change t.undoTasksCabinet.view = if _ then _ else _
      rw [if_pos hqueued]
      exact hview
    · change t.undoTasksCabinet.lastId = s.undoTasksCabinet.lastId
      rw [hcabinet]
      exact Cabinet.lastId_free _ _
  refine hs.of_step (hledger ▸ .move k task phase htask (hqueued ▸ hnext)) ?_ ?_ fun _ => hordered
  · intro other
    rw [hdeque, hview, hs.once.mem_erase_iff, hs.live]
    by_cases hother : other = task.token
    · rw [hother, Function.update_self]
      exact iff_of_false (fun h => h.1 rfl) fun h => h rfl
    · rw [Function.update_of_ne hother]
      exact and_iff_right hother
  · rw [hdeque]
    exact hs.once.erase _

theorem Tracked.hold (hs : s.Tracked) (htask : s.tasks[k]? = some task)
    (hnext : task.phase.Next phase) (hqueued : task.phase ≠ .queued)
    (hold : s.pc.holds = if task.phase.isHeld then some (k, task.phase) else none)
    (hnew : t.pc.holds = if phase.isHeld then some (k, phase) else none)
    (htasks : t.tasks = s.tasks.modify k (·.enter phase))
    (hdoing : t.doingTasksToken = Ledger.doingAfter s.doingTasksToken task.token phase)
    (hcabinet : t.undoTasksCabinet = s.undoTasksCabinet)
    (hdeque : t.undoTasksTokenDeque = s.undoTasksTokenDeque) (hordered : s.Ordered → t.Ordered) : s.Moved t := by
  have hledger : t.ledger = s.ledger.move k task phase := by
    refine Ledger.ext htasks hdoing ?_ ?_ (held_move hold hnew)
    · change t.undoTasksCabinet.view = if _ then _ else _
      rw [if_neg hqueued, hcabinet]
      rfl
    · change t.undoTasksCabinet.lastId = s.undoTasksCabinet.lastId
      rw [hcabinet]
  refine hs.of_step (hledger ▸ .move k task phase htask hnext) ?_ (hdeque ▸ hs.once) fun _ h _ => hordered h
  rw [hdeque, hcabinet]
  exact hs.live

theorem Tracked.execute (hs : s.Tracked) (mainCb : Bool) : s.Moved (s.execute mainCb).2 := by
  rw [WorkThread.execute]
  split
  · have hview := s.undoTasksCabinet.view_alloc (some s.tasks.length)
    have hfresh := s.undoTasksCabinet.view_alloc_fst (some s.tasks.length)
    have hid := s.undoTasksCabinet.id_alloc (some s.tasks.length)
    have hlast := s.undoTasksCabinet.lastId_alloc (some s.tasks.length)
    generalize s.undoTasksCabinet.alloc (some s.tasks.length) = allocated at hview hfresh hid hlast
    obtain ⟨token, cabinet⟩ := allocated
    have hnot : token ∉ s.undoTasksTokenDeque := fun hmem => (hs.live token).mp hmem hfresh
    have hstep : s.ledger.Step (s.ledger.submit token mainCb) := .submit token mainCb hfresh hid
    have hledger : WorkThread.ledger { s with
        undoTasksCabinet := cabinet
        undoTasksTokenDeque := s.undoTasksTokenDeque ++ [token]
        tasks := s.tasks ++ [{ token := token, mainCb := mainCb }] }
          = s.ledger.submit token mainCb := Ledger.ext rfl rfl hview hlast rfl
    refine hs.of_step (hledger ▸ hstep) ?_ ?_ ?_
    · intro other
      change other ∈ s.undoTasksTokenDeque ++ [token] ↔ cabinet.view other ≠ none
      rw [hview, mem_append, mem_singleton, hs.live]
      by_cases hother : other = token
      · rw [hother, Function.update_self]
        exact iff_of_true (.inr rfl) (some_ne_none _)
      · rw [Function.update_of_ne hother]
        exact or_iff_left hother
    · show (s.undoTasksTokenDeque ++ [token]).Nodup
      exact concat_eq_append ▸ hs.once.concat hnot
    · intro hwrap hordered hnumbered
      have hlength : (s.tasks ++ [({ token := token, mainCb := mainCb } : Task)]).length
          = s.tasks.length + 1 := length_append
      have hcount : s.undoTasksCabinet.lastId = s.tasks.length := hnumbered.lastId
      have hnumber : token.id = s.tasks.length + 1 := by
        rw [← hcount]
        apply hid
        rw [hcount]
        have hroom : s.tasks.length + 1 ≤ Cabinet.sizeMax := hlength ▸ hwrap
        exact Nat.ne_of_lt hroom
      refine ⟨?_, ?_, hordered.started, ?_, ?_⟩
      · rw [pairwise_append]
        refine ⟨hordered.sorted, pairwise_singleton _ _, fun first hfirst second hsecond => ?_⟩
        rw [mem_singleton.mp hsecond, hnumber]
        exact Nat.lt_succ_of_le (hordered.below first hfirst)
      · intro other hother
        rw [hlength]
        rcases mem_append.mp hother with hother | hother
        · exact (hordered.below other hother).trans (Nat.le_succ _)
        · rw [mem_singleton.mp hother, hnumber]
      · intro k hk
        obtain ⟨hlt, hwaiting⟩ := hordered.started_lt k hk
        rw [hlength]
        refine ⟨hlt.trans (Nat.lt_succ_self _), fun other hother => ?_⟩
        rcases mem_append.mp hother with hother | hother
        · exact hwaiting other hother
        · rw [mem_singleton.mp hother, hnumber]
          exact Nat.succ_lt_succ hlt
      · intro k hk
        obtain ⟨hlt, hlater, hwaiting⟩ := hordered.popped k hk
        rw [hlength]
        refine ⟨hlt.trans (Nat.lt_succ_self _), hlater, fun other hother => ?_⟩
        rcases mem_append.mp hother with hother | hother
        · exact hwaiting other hother
        · rw [mem_singleton.mp hother, hnumber]
          exact Nat.succ_lt_succ hlt
  · exact hs.stay

theorem Tracked.freeTask_eq (hs : s.Tracked) (hmem : token ∈ s.undoTasksTokenDeque) (phase : Phase) :
    ∃ k task, s.tasks[k]? = some task ∧ task.token = token ∧ task.phase = .queued ∧
      ∀ tokens, ({ s with undoTasksTokenDeque := tokens } : WorkThread).freeTask token phase
        = { s with
            undoTasksTokenDeque := tokens
            undoTasksCabinet := (s.undoTasksCabinet.free task.token).2
            tasks := s.tasks.modify k (·.enter phase) } := by
  obtain ⟨k, task, htask, rfl, hqueued, hitem⟩ := hs.exists_waiting hmem
  refine ⟨k, task, htask, rfl, hqueued, fun tokens => ?_⟩
  rw [freeTask]
  dsimp only
  rw [hitem]
  rfl

theorem Tracked.freed (hs : s.Tracked) (hmem : token ∈ s.undoTasksTokenDeque)
    (hnext : Phase.queued.Next phase) (hheld : phase.isHeld = false) :
    s.Moved (({ s with
      undoTasksTokenDeque := s.undoTasksTokenDeque.erase token } : WorkThread).freeTask
        token phase) := by
  obtain ⟨k, task, htask, rfl, hqueued, heq⟩ := hs.freeTask_eq hmem phase
  rw [heq]
  refine hs.take htask hqueued hnext rfl rfl rfl rfl (held_move_of_queued (s := s) hs.ledger htask hqueued hheld) ?_
  intro h _
  exact h.of_sublist (length_modify _ _ _) erase_sublist rfl fun _ hk => hk

theorem cancel_waiting (halive : s.isAlive = true) (hdoing : token ∉ s.doingTasksToken)
    (hmem : token ∈ s.undoTasksTokenDeque) : s.cancel token =
      (0, ({ s with
        undoTasksTokenDeque := s.undoTasksTokenDeque.erase token } : WorkThread).freeTask
          token .cancelled) := by
  rw [cancel, if_neg (by rw [halive]; exact Bool.false_ne_true), if_neg hdoing, if_pos hmem]

theorem cancel_eq (token : Token) : s.isAlive = true ∧ token ∉ s.doingTasksToken ∧ token ∈ s.undoTasksTokenDeque ∨
      (s.cancel token).1 ≠ 0 ∧ (s.cancel token).2 = s := by
  rw [cancel]
  split
  · exact .inr ⟨Nat.succ_ne_zero _, rfl⟩
  next halive =>
    split
    · exact .inr ⟨Nat.succ_ne_zero _, rfl⟩
    next hdoing =>
      split
      · next hmem => exact .inl ⟨by simpa using halive, hdoing, hmem⟩
      · exact .inr ⟨Nat.succ_ne_zero _, rfl⟩

theorem Tracked.cancel (hs : s.Tracked) (token : Token) : s.Moved (s.cancel token).2 := by
  rcases s.cancel_eq token with ⟨halive, hdoing, hmem⟩ | ⟨-, hsame⟩
  · rw [cancel_waiting halive hdoing hmem]
    exact hs.freed hmem .cancel rfl
  · rw [hsame]
    exact hs.stay

theorem Tracked.dropTasks (hs : s.Tracked) : s.Moved (s.dropTasks s.undoTasksTokenDeque) := by
  generalize htokens : s.undoTasksTokenDeque = tokens
  induction tokens generalizing s with
  | nil => exact hs.stay
  | cons token tokens ih =>
    have hmem : token ∈ s.undoTasksTokenDeque := htokens ▸ mem_cons_self
    have hfreed : s.Moved (({ s with undoTasksTokenDeque := tokens } : WorkThread).freeTask
        token .dropped) := by
      have h := hs.freed hmem .drop rfl
      rw [htokens, erase_cons_head] at h
      exact h
    rw [WorkThread.dropTasks]
    have hrest := ih hfreed.tracked ?_
    · exact ⟨hrest.tracked, hfreed.steps.trans hrest.steps⟩
    · obtain ⟨k, task, -, -, -, heq⟩ := hs.freeTask_eq hmem .dropped
      rw [heq]

theorem Tracked.enterLoop (hs : s.Tracked) (hpc : s.pc = .head) : s.Moved s.enterLoop := by
  rw [WorkThread.enterLoop]
  split
  · refine hs.congr (Ledger.ext rfl rfl rfl rfl ?_) rfl rfl nofun
    funext k phase
    change (if Pc.exited.holds = some (k, phase) then 1 else 0)
      = if s.pc.holds = some (k, phase) then 1 else 0
    rw [hpc]
    rfl
  · cases hdeque : s.undoTasksTokenDeque with
    | nil =>
      have hpop : s.popOneTask = (none, s) := by
        rw [popOneTask, hdeque]
      rw [hpop]
      refine hs.congr (Ledger.ext rfl rfl rfl rfl ?_) rfl rfl ?_
      · funext k phase
        change (if (Pc.popped none).holds = some (k, phase) then 1 else 0)
          = if s.pc.holds = some (k, phase) then 1 else 0
        rw [hpc]
        rfl
      · intro k hk
        cases hk
    | cons token tokens =>
      obtain ⟨k, task, htask, rfl, hqueued, hitem⟩ := hs.exists_waiting (hdeque ▸ mem_cons_self)
      have hpop : s.popOneTask = (some k, { s with
          undoTasksTokenDeque := tokens
          undoTasksCabinet := (s.undoTasksCabinet.free task.token).2 }) := by
        rw [popOneTask, hdeque]
        dsimp only
        rw [hitem]
      rw [hpop]
      refine hs.take htask hqueued .pop rfl rfl rfl ?_ ?_ ?_
      · rw [hdeque, erase_cons_head]
        rfl
      · exact held_move (by rw [hpc, hqueued]; rfl) rfl
      intro h hnumbered
      have hid : task.token.id = k + 1 := hnumbered.ids k task htask
      have hsorted := h.sorted
      rw [hdeque] at hsorted
      obtain ⟨hfirst, hrest⟩ := pairwise_cons.mp hsorted
      have hlength : (s.tasks.modify k (·.enter .popped)).length = s.tasks.length := length_modify _ _ _
      have hsub : ∀ other ∈ tokens, other ∈ s.undoTasksTokenDeque := fun other hother =>
        hdeque ▸ mem_cons_of_mem _ hother
      refine ⟨hrest, fun other hother => hlength ▸ h.below other (hsub other hother), h.started,
        fun j hj => ⟨hlength ▸ (h.started_lt j hj).1, fun other hother =>
          (h.started_lt j hj).2 other (hsub other hother)⟩, fun j hj => ?_⟩
      obtain rfl : k = j := by
        cases hj
        rfl
      refine ⟨hlength ▸ (List.getElem?_eq_some_iff.mp htask).1, fun j hj => ?_, fun other hother => ?_⟩
      · have hlater := (h.started_lt j hj).2 task.token (hdeque ▸ mem_cons_self)
        rw [hid] at hlater
        exact Nat.lt_of_succ_lt_succ hlater
      · rw [← hid]
        exact hfirst other hother

theorem Tracked.startTask (hs : s.Tracked) (hpc : s.pc = .popped (some k)) : s.Moved (s.startTask k) := by
  obtain ⟨task, htask, hphase⟩ := exists_task_of_holds hs.ledger (by rw [hpc]; rfl)
  rw [WorkThread.startTask, htask]
  refine hs.hold htask (hphase ▸ .start) (by rw [hphase]; decide) (by rw [hpc, hphase]; rfl) rfl rfl rfl
    rfl rfl fun h => ?_
  obtain ⟨hlt, hlater, hwaiting⟩ := h.popped k hpc
  have hlength : (s.tasks.modify k (·.enter .executing)).length = s.tasks.length := length_modify _ _ _
  refine ⟨h.sorted, fun other hother => hlength ▸ h.below other hother, ?_, fun j hj => ?_, nofun⟩
  · rw [pairwise_append]
    refine ⟨h.started, pairwise_singleton _ _, fun j hj last hlast => ?_⟩
    rw [mem_singleton.mp hlast]
    exact hlater j hj
  · rcases mem_append.mp hj with hj | hj
    · exact ⟨hlength ▸ (h.started_lt j hj).1, (h.started_lt j hj).2⟩
    · rw [mem_singleton.mp hj]
      exact ⟨hlength ▸ hlt, hwaiting⟩

theorem Tracked.finishBody (hs : s.Tracked) (hpc : s.pc = .executing k) : s.Moved (s.finishBody k) := by
  obtain ⟨task, htask, hphase⟩ := exists_task_of_holds hs.ledger (by rw [hpc]; rfl)
  exact hs.hold htask (hphase ▸ .finish) (by rw [hphase]; decide) (by rw [hpc, hphase]; rfl) rfl rfl rfl
    rfl rfl fun h => h.of_sublist (length_modify _ _ _) (List.Sublist.refl _) rfl nofun

theorem Tracked.endTask (hs : s.Tracked) (hpc : s.pc = .finished k) : s.Moved (s.endTask k) := by
  obtain ⟨task, htask, hphase⟩ := exists_task_of_holds hs.ledger (by rw [hpc]; rfl)
  rw [WorkThread.endTask, htask]
  exact hs.hold htask (hphase ▸ .retire) (by rw [hphase]; decide) (by rw [hpc, hphase]; rfl) rfl rfl rfl
    rfl rfl fun h => h.of_sublist (length_modify _ _ _) (List.Sublist.refl _) rfl nofun

/-- Each step of the thread is some steps of its ledger. -/
theorem Tracked.step (hs : s.Tracked) {action : Action} (h : s.step action = some t) : s.Moved t := by
  cases action with
  | execute mainCb => exact some.inj h ▸ hs.execute mainCb
  | getTaskStatus token => exact some.inj h ▸ hs.stay
  | cancel token => exact some.inj h ▸ hs.cancel token
  | cleanupDrain =>
    simp only [WorkThread.step, ite_none_right_eq_some] at h
    obtain ⟨-, h⟩ := h
    cases h
    have hdrop := hs.dropTasks
    have hsame : (s.dropTasks s.undoTasksTokenDeque).Moved
        { s.dropTasks s.undoTasksTokenDeque with cleaner := .drained } :=
      hdrop.tracked.congr rfl rfl rfl fun _ hk => hk
    exact ⟨hsame.tracked, hdrop.steps⟩
  | cleanupStopFlag =>
    simp only [WorkThread.step, ite_none_right_eq_some] at h
    obtain ⟨-, h⟩ := h
    cases h
    exact hs.congr rfl rfl rfl fun _ hk => hk
  | cleanupJoin =>
    simp only [WorkThread.step, ite_none_right_eq_some] at h
    obtain ⟨-, h⟩ := h
    cases h
    exact hs.congr rfl rfl rfl fun _ hk => hk
  | enterLoop =>
    simp only [WorkThread.step, ite_none_right_eq_some] at h
    obtain ⟨⟨hpc, -⟩, h⟩ := h
    exact some.inj h ▸ hs.enterLoop hpc
  | startTask =>
    simp only [WorkThread.step] at h
    split at h
    · next hpc =>
        cases h
        refine hs.congr (Ledger.ext rfl rfl rfl rfl ?_) rfl rfl nofun
        funext k phase
        change (if Pc.head.holds = some (k, phase) then 1 else 0)
          = if s.pc.holds = some (k, phase) then 1 else 0
        rw [hpc]
        rfl
    · next item hpc => exact some.inj h ▸ hs.startTask hpc
    · cases h
  | finishBody =>
    simp only [WorkThread.step] at h
    split at h
    · next item hpc => exact some.inj h ▸ hs.finishBody hpc
    · cases h
  | endTask =>
    simp only [WorkThread.step] at h
    split at h
    · next item hpc => exact some.inj h ▸ hs.endTask hpc
    · cases h

theorem Tracked.empty : ({} : WorkThread).Tracked := by
  have hview : ∀ token, ({} : WorkThread).undoTasksCabinet.view token = none := Cabinet.view_empty
  refine ⟨fun token => ?_, nodup_nil, ⟨fun token obj h => ?_, nofun, fun k phase => ?_, nofun⟩,
    fun _ => ⟨rfl, nofun, fun token => ⟨nofun, ?_⟩⟩,
    fun _ => ⟨List.Pairwise.nil, nofun, List.Pairwise.nil, nofun, nofun⟩⟩
  · rw [hview]
    exact iff_of_false not_mem_nil fun h => h rfl
  · rw [show ({} : WorkThread).ledger.view token = none from hview token] at h
    cases h
  · exact (if_neg fun h => by cases h.2).symm
  · rintro ⟨k, task, htask, -⟩
    cases htask

variable {actions : List Action}

/-- The bookkeeping is right in every state of a run. -/
theorem tracked_of_run (hrun : Lib.run step {} actions = some s) :
    s.Tracked :=
  Lib.run_invariant_of_step (fun _ _ _ hs h => (hs.step h).tracked) .empty hrun

theorem started_of_cancelled (hs : s.Tracked)
    (hk : s.tasks[k]?.map Task.phase = some .cancelled)
    (hrun : Lib.run step s actions = some t) (hlater : t.tasks[k]? = some task) : task.started = 0 := by
  obtain ⟨ht, hstill⟩ := Lib.run_invariant_of_step
    (I := fun s => s.Tracked ∧ s.tasks[k]?.map Task.phase = some .cancelled)
    (fun s _ t hs h => ⟨(hs.1.step h).tracked, Ledger.cancelled_steps (hs.1.step h).steps hs.2⟩)
    ⟨hs, hk⟩ hrun
  rw [hlater] at hstill
  have hstarted := ht.ledger.started k task hlater
  rw [show task.phase = .cancelled from some.inj hstill] at hstarted
  exact hstarted

section Answers

variable (hs : s.Tracked) (hn : s.ledger.Numbered) (htask : s.tasks[k]? = some task)

include hs hn htask

theorem mem_deque_iff : task.token ∈ s.undoTasksTokenDeque ↔ task.phase = .queued := by
  rw [hs.live]
  exact hn.view_ne_none_iff hs.ledger htask

theorem getTaskStatus_eq : s.getTaskStatus task.token = if s.isAlive = false then .notFound
    else if task.phase = .queued then .waiting else if task.phase.isDoing then .executing else .notFound := by
  have hwaiting : (s.undoTasksCabinet.at? task.token).isSome = true ↔ task.phase = .queued := by
    rw [Cabinet.at?_eq_join_view]
    exact hn.isSome_view_iff hs.ledger htask
  have hdead : (!s.isAlive) = true ↔ s.isAlive = false := by
    cases s.isAlive <;> decide
  exact if_congr hdead rfl (if_congr hwaiting rfl (if_congr (hn.mem_doing htask) rfl rfl))

theorem cancel_fst_eq : (s.cancel task.token).1 = if s.isAlive = false then 3
    else if task.phase.isDoing then 2 else if task.phase = .queued then 0 else 1 := by
  have hdead : (!s.isAlive) = true ↔ s.isAlive = false := by
    cases s.isAlive <;> decide
  rw [cancel, apply_ite Prod.fst, apply_ite Prod.fst, apply_ite Prod.fst]
  exact if_congr hdead rfl (if_congr (hn.mem_doing htask) rfl (if_congr (mem_deque_iff hs hn htask) rfl rfl))

theorem started_after_cancel (hzero : (s.cancel task.token).1 = 0)
    (hrun : Lib.run step (s.cancel task.token).2 actions = some t) {later : Task}
    (hlater : t.tasks[k]? = some later) : later.started = 0 := by
  rcases s.cancel_eq task.token with ⟨halive, hdoing, hmem⟩ | ⟨hne, -⟩
  · obtain ⟨j, other, hother, htoken, -, heq⟩ := hs.freeTask_eq hmem .cancelled
    obtain rfl := hn.token_inj htask hother htoken
    refine started_of_cancelled (hs.cancel task.token).tracked ?_ hrun hlater
    rw [cancel_waiting halive hdoing hmem, heq]
    rw [getElem?_modify_eq, hother]
    rfl
  · exact absurd hzero hne

end Answers

end Tbox.Eventx.WorkThread
