import Tbox.Proof.LoopSteps
import Tbox.Lib.Fifo

/-!
# Deferred tasks run once, in order, unless they are cancelled

The tasks of `runNext` and those of `runInLoop` each form one queue, spread over the batch a cleanup has in hand,
`tmp_func_queue_` and the queue proper. `cancel` looks into two of the three places.
-/

open List

namespace Tbox.Event

open Lib (Fifo)

open Relation (ReflTransGen)

/-- A task of `runNext`: its id is odd. -/
def RunFuncItem.isNext (item : RunFuncItem) : Bool := item.id % 2 = 1

namespace CommonLoop

variable {s t : CommonLoop} {a : Action} {next : Bool} {item : RunFuncItem} {runId : Nat}

def batch (s : CommonLoop) (next : Bool) : RunFuncQueue :=
  match s.pc with
  | .cleaning runNextTasks runInLoopTasks _ _ => if next then runNextTasks else runInLoopTasks
  | _ => []

def queue (s : CommonLoop) (next : Bool) : RunFuncQueue :=
  if next then s.runNextFuncQueue else s.runInLoopFuncQueue

def ofKind (next : Bool) (items : RunFuncQueue) : RunFuncQueue :=
  items.filter fun item => item.isNext = next

def fifo (s : CommonLoop) (next : Bool) : Fifo RunFuncItem :=
  { submitted := ofKind next s.submitted
    begun := ofKind next s.begun
    withdrawn := ofKind next s.cancelled
    waiting := s.batch next ++ ofKind next s.tmpFuncQueue ++ s.queue next }

section OfKind

theorem ofKind_append (items rest : RunFuncQueue) :
    ofKind next (items ++ rest) = ofKind next items ++ ofKind next rest := filter_append _ _

theorem ofKind_append_self (items : RunFuncQueue) (h : item.isNext = next) :
    ofKind next (items ++ [item]) = ofKind next items ++ [item] := by
  rw [ofKind_append]
  simp [ofKind, h]

theorem ofKind_append_other (items : RunFuncQueue) (h : item.isNext ≠ next) :
    ofKind next (items ++ [item]) = ofKind next items := by
  rw [ofKind_append]
  simp [ofKind, h]

theorem ofKind_self {items : RunFuncQueue} (h : ∀ item ∈ items, item.isNext = next) : ofKind next items = items := by
  refine filter_eq_self.mpr fun item hmem => ?_
  rw [decide_eq_true_eq]
  exact h item hmem

theorem ofKind_other {items : RunFuncQueue} (h : ∀ item ∈ items, item.isNext = !next) : ofKind next items = [] := by
  refine filter_eq_nil_iff.mpr fun item hmem => ?_
  rw [decide_eq_true_eq, h item hmem]
  cases next <;> decide

end OfKind

structure Sorted (s : CommonLoop) : Prop where
  batch : ∀ next, ∀ item ∈ s.batch next, item.isNext = next
  queue : ∀ next, ∀ item ∈ s.queue next, item.isNext = next
  runInLoopId : s.runInLoopIdAlloc % 2 = 0
  runNextId : s.runNextIdAlloc % 2 = 1

theorem allocRunInLoopId_mod (hs : s.Sorted) : s.allocRunInLoopId % 2 = 0 := by
  have heven := hs.runInLoopId
  unfold allocRunInLoopId runIdMod
  dsimp only
  split <;> omega

theorem allocRunNextId_mod (hs : s.Sorted) : s.allocRunNextId % 2 = 1 := by
  have hodd := hs.runNextId
  unfold allocRunNextId runIdMod
  omega

theorem runInLoop_frame (s : CommonLoop) : s.runInLoop.pc = s.pc ∧ s.runInLoop.tmpFuncQueue = s.tmpFuncQueue
      ∧ s.runInLoop.runNextFuncQueue = s.runNextFuncQueue ∧ s.runInLoop.runNextIdAlloc = s.runNextIdAlloc
      ∧ s.runInLoop.begun = s.begun ∧ s.runInLoop.cancelled = s.cancelled := by
  unfold runInLoop commitRunRequest
  dsimp only
  repeat' split
  all_goals exact ⟨rfl, rfl, rfl, rfl, rfl, rfl⟩

theorem runInLoop_submitted (s : CommonLoop) :
    s.runInLoop.submitted = s.submitted ++ [⟨s.allocRunInLoopId, s.submitted.length⟩] ∧ s.runInLoop.runInLoopFuncQueue
        = s.runInLoopFuncQueue ++ [⟨s.allocRunInLoopId, s.submitted.length⟩]
      ∧ s.runInLoop.runInLoopIdAlloc = s.allocRunInLoopId := by
  unfold runInLoop commitRunRequest
  dsimp only
  repeat' split
  all_goals exact ⟨rfl, rfl, rfl⟩

theorem batch_congr (h : t.pc = s.pc) (next : Bool) : t.batch next = s.batch next := by
  unfold batch
  rw [h]

theorem batch_eq_nil (pc : Pc) (hpc : s.pc = pc) (hnot : ∀ runNextTasks runInLoopTasks remainLoopCount atEnd,
      pc ≠ .cleaning runNextTasks runInLoopTasks remainLoopCount atEnd) (next : Bool) : s.batch next = [] := by
  subst hpc
  unfold batch
  split
  · exact absurd ‹_› (hnot _ _ _ _)
  · rfl

theorem fifo_eq (hsubmitted : t.submitted = s.submitted) (hbegun : t.begun = s.begun)
    (hcancelled : t.cancelled = s.cancelled) (hwaiting : t.batch next ++ ofKind next t.tmpFuncQueue ++ t.queue next
      = s.batch next ++ ofKind next s.tmpFuncQueue ++ s.queue next) : t.fifo next = s.fifo next :=
  Fifo.ext (congrArg (ofKind next) hsubmitted) (congrArg (ofKind next) hbegun)
    (congrArg (ofKind next) hcancelled) hwaiting

theorem fifo_congr (hpc : t.pc = s.pc) (htmp : t.tmpFuncQueue = s.tmpFuncQueue)
    (hnext : t.runNextFuncQueue = s.runNextFuncQueue) (hinLoop : t.runInLoopFuncQueue = s.runInLoopFuncQueue)
    (hsubmitted : t.submitted = s.submitted) (hbegun : t.begun = s.begun)
    (hcancelled : t.cancelled = s.cancelled) (next : Bool) : t.fifo next = s.fifo next := by
  refine fifo_eq hsubmitted hbegun hcancelled ?_
  rw [batch_congr hpc, htmp]
  unfold queue
  rw [hnext, hinLoop]

theorem fifo_submit (item : RunFuncItem) (hsubmitted : t.submitted = s.submitted ++ [item])
    (hbegun : t.begun = s.begun) (hcancelled : t.cancelled = s.cancelled) (hpc : t.pc = s.pc)
    (htmp : t.tmpFuncQueue = s.tmpFuncQueue) (hqueue : ∀ next, t.queue next
      = if item.isNext = next then s.queue next ++ [item] else s.queue next) (next : Bool) :
    ReflTransGen Fifo.Step (s.fifo next) (t.fifo next) := by
  by_cases hkind : item.isNext = next
  · have hfifo : t.fifo next = { s.fifo next with
        submitted := (s.fifo next).submitted ++ [item]
        waiting := (s.fifo next).waiting ++ [item] } := by
      refine Fifo.ext ?_ (congrArg (ofKind next) hbegun) (congrArg (ofKind next) hcancelled) ?_
      · exact (congrArg (ofKind next) hsubmitted).trans (ofKind_append_self _ hkind)
      · show t.batch next ++ ofKind next t.tmpFuncQueue ++ t.queue next = _
        rw [batch_congr hpc, htmp, hqueue, if_pos hkind, ← append_assoc]
        rfl
    exact hfifo ▸ .single (.submit item)
  · have hfifo : t.fifo next = s.fifo next := by
      refine Fifo.ext ?_ (congrArg (ofKind next) hbegun) (congrArg (ofKind next) hcancelled) ?_
      · exact (congrArg (ofKind next) hsubmitted).trans (ofKind_append_other _ hkind)
      · show t.batch next ++ ofKind next t.tmpFuncQueue ++ t.queue next = _
        rw [batch_congr hpc, htmp, hqueue, if_neg hkind]
        rfl
    rw [hfifo]

theorem fifo_begin (item : RunFuncItem) (hsubmitted : t.submitted = s.submitted)
    (hbegun : t.begun = s.begun ++ [item]) (hcancelled : t.cancelled = s.cancelled)
    (hwaiting : ∀ next, (s.fifo next).waiting
      = if item.isNext = next then item :: (t.fifo next).waiting else (t.fifo next).waiting)
    (next : Bool) : ReflTransGen Fifo.Step (s.fifo next) (t.fifo next) := by
  have hnow := hwaiting next
  by_cases hkind : item.isNext = next
  · rw [if_pos hkind] at hnow
    have hfifo : t.fifo next = { s.fifo next with
        begun := (s.fifo next).begun ++ [item], waiting := (t.fifo next).waiting } := by
      refine Fifo.ext (congrArg (ofKind next) hsubmitted) ?_ (congrArg (ofKind next) hcancelled) rfl
      exact (congrArg (ofKind next) hbegun).trans (ofKind_append_self _ hkind)
    rw [hfifo]
    exact .single (.begin item _ hnow)
  · rw [if_neg hkind] at hnow
    have hfifo : t.fifo next = s.fifo next := by
      refine Fifo.ext (congrArg (ofKind next) hsubmitted) ?_ (congrArg (ofKind next) hcancelled) hnow.symm
      exact (congrArg (ofKind next) hbegun).trans (ofKind_append_other _ hkind)
    rw [hfifo]

theorem ofKind_filter_comm (p : RunFuncItem → Bool) (items : RunFuncQueue) :
    ofKind next (items.filter p) = (ofKind next items).filter p := by
  unfold ofKind
  rw [List.filter_filter, List.filter_filter]
  exact filter_congr fun item _ => Bool.and_comm _ _

theorem fifo_withdraw (runId : Nat) (before middle after : RunFuncQueue)
    (hsubmitted : t.submitted = s.submitted) (hbegun : t.begun = s.begun)
    (hcancelled : ofKind next t.cancelled = ofKind next s.cancelled ++ removedItems middle runId)
    (hbefore : (s.fifo next).waiting = before ++ middle ++ after) (hafter : (t.fifo next).waiting
      = before ++ (removeRunFuncItemById middle runId).2 ++ after) :
    ReflTransGen Fifo.Step (s.fifo next) (t.fifo next) := by
  have hstep := Fifo.step_filter (s.fifo next) before middle after (fun item => item.id = runId) hbefore
  have hfifo : t.fifo next = { s.fifo next with
      withdrawn := (s.fifo next).withdrawn ++ middle.filter fun item => item.id = runId
      waiting := before ++ middle.filter (fun item => !decide (item.id = runId)) ++ after } := by
    refine Fifo.ext (congrArg (ofKind next) hsubmitted) (congrArg (ofKind next) hbegun) hcancelled ?_
    rw [hafter, removeRunFuncItemById]
    simp only [ne_eq, decide_not]
  exact hfifo ▸ .single hstep

theorem cancel_cases (s : CommonLoop) (runId : Nat) :
    (runId = 0 ∧ s.cancel runId = (false, s))
      ∨ (runId ≠ 0 ∧ (∃ item ∈ s.tmpFuncQueue, item.id = runId)
        ∧ s.cancel runId = (true, { s with
          tmpFuncQueue := (removeRunFuncItemById s.tmpFuncQueue runId).2
          cancelled := s.cancelled ++ removedItems s.tmpFuncQueue runId }))
      ∨ (runId ≠ 0 ∧ (∀ item ∈ s.tmpFuncQueue, item.id ≠ runId)
        ∧ ((s.cancel runId).1 = true ↔ ∃ item ∈ s.queue (runId % 2 = 1), item.id = runId)
        ∧ (s.cancel runId).2.tmpFuncQueue = s.tmpFuncQueue
        ∧ (s.cancel runId).2.cancelled
          = s.cancelled ++ removedItems (s.queue (runId % 2 = 1)) runId
        ∧ ∀ next, (s.cancel runId).2.queue next = if next = decide (runId % 2 = 1)
          then (removeRunFuncItemById (s.queue next) runId).2 else s.queue next) := by
  by_cases hzero : runId = 0
  · exact Or.inl ⟨hzero, if_pos hzero⟩
  have hany : ∀ items : RunFuncQueue, (removeRunFuncItemById items runId).1 = true
      ↔ ∃ item ∈ items, item.id = runId := by
    intro items
    simp [removeRunFuncItemById]
  right
  by_cases hfound : (removeRunFuncItemById s.tmpFuncQueue runId).1 = true
  · refine Or.inl ⟨hzero, (hany _).mp hfound, ?_⟩
    unfold cancel
    rw [if_neg hzero]
    dsimp only
    rw [if_pos hfound]
  · refine Or.inr ⟨hzero, fun item hmem hid => hfound ((hany _).mpr ⟨item, hmem, hid⟩), ?_⟩
    unfold cancel
    rw [if_neg hzero]
    dsimp only
    rw [if_neg hfound]
    by_cases hodd : runId % 2 = 1
    · rw [if_pos hodd, decide_eq_true hodd]
      refine ⟨hany _, rfl, rfl, fun next => ?_⟩
      cases next <;> rfl
    · rw [if_neg hodd, decide_eq_false hodd]
      refine ⟨hany _, rfl, rfl, fun next => ?_⟩
      cases next <;> rfl

theorem cancel_history (s : CommonLoop) (runId : Nat) :
    (s.cancel runId).2.submitted = s.submitted ∧ (s.cancel runId).2.begun = s.begun
      ∧ (s.cancel runId).2.pc = s.pc ∧ (s.cancel runId).2.runInLoopIdAlloc = s.runInLoopIdAlloc
      ∧ (s.cancel runId).2.runNextIdAlloc = s.runNextIdAlloc := by
  unfold cancel
  split
  · exact ⟨rfl, rfl, rfl, rfl, rfl⟩
  · dsimp only
    repeat' split
    all_goals exact ⟨rfl, rfl, rfl, rfl, rfl⟩

theorem fifo_cancel (hs : s.Sorted) (runId : Nat) (next : Bool) :
    ReflTransGen Fifo.Step (s.fifo next) ((s.cancel runId).2.fifo next) := by
  obtain ⟨hsubmitted, hbegun, hpc, -, -⟩ := cancel_history s runId
  rcases cancel_cases s runId with ⟨-, hcancel⟩ | ⟨-, -, hcancel⟩
    | ⟨-, -, -, htmp, hcancelled, hqueue⟩
  · rw [hcancel]
  · refine fifo_withdraw runId (s.batch next) (ofKind next s.tmpFuncQueue) (s.queue next)
      hsubmitted hbegun ?_ rfl ?_
    · rw [hcancel, ofKind_append, removedItems, ofKind_filter_comm]
      rfl
    rw [hcancel]
    show s.batch next ++ ofKind next (List.filter _ _) ++ s.queue next = _
    rw [ofKind_filter_comm]
    rfl
  · by_cases hkind : next = decide (runId % 2 = 1)
    · refine fifo_withdraw runId (s.batch next ++ ofKind next s.tmpFuncQueue) (s.queue next) []
        hsubmitted hbegun ?_ (append_nil _).symm ?_
      · have hremoved : ∀ item ∈ removedItems (s.queue next) runId, item.isNext = next :=
          fun item hmem => hs.queue next item (mem_of_mem_filter hmem)
        rw [hcancelled, ← hkind, ofKind_append, ofKind_self hremoved]
      · show (s.cancel runId).2.batch next ++ ofKind next (s.cancel runId).2.tmpFuncQueue
            ++ (s.cancel runId).2.queue next = _
        rw [batch_congr hpc, htmp, hqueue, if_pos hkind, append_nil]
    · have hremoved : ∀ item ∈ removedItems (s.queue (runId % 2 = 1)) runId,
          item.isNext = !next := fun item hmem => by
        rw [hs.queue _ item (mem_of_mem_filter hmem)]
        cases next <;> simp_all
      have hfifo : (s.cancel runId).2.fifo next = s.fifo next := by
        refine Fifo.ext (congrArg (ofKind next) hsubmitted) (congrArg (ofKind next) hbegun) ?_ ?_
        · show ofKind next (s.cancel runId).2.cancelled = ofKind next s.cancelled
          rw [hcancelled, ofKind_append, ofKind_other hremoved, append_nil]
        show (s.cancel runId).2.batch next ++ ofKind next (s.cancel runId).2.tmpFuncQueue
          ++ (s.cancel runId).2.queue next = _
        rw [batch_congr hpc, htmp, hqueue, if_neg hkind]
        rfl
      rw [hfifo]

theorem batch_cleaning {runNextTasks runInLoopTasks : RunFuncQueue} {remainLoopCount : Nat}
    {atEnd : Bool} (hpc : s.pc = .cleaning runNextTasks runInLoopTasks remainLoopCount atEnd)
    (next : Bool) : s.batch next = if next then runNextTasks else runInLoopTasks := by
  unfold batch
  rw [hpc]

theorem beginRun_frame (s : CommonLoop) (forever : Bool) :
    (s.beginRun forever).pc = .polling ∧ (s.beginRun forever).tmpFuncQueue = s.tmpFuncQueue
      ∧ (∀ next, (s.beginRun forever).queue next = s.queue next)
      ∧ (s.beginRun forever).runInLoopIdAlloc = s.runInLoopIdAlloc
      ∧ (s.beginRun forever).runNextIdAlloc = s.runNextIdAlloc
      ∧ (s.beginRun forever).submitted = s.submitted ∧ (s.beginRun forever).begun = s.begun
      ∧ (s.beginRun forever).cancelled = s.cancelled := by
  unfold beginRun commitRunRequest
  dsimp only
  repeat' split
  all_goals exact ⟨rfl, rfl, fun _ => rfl, rfl, rfl, rfl, rfl, rfl⟩

theorem cleanupEnd_frame (s : CommonLoop) (atEnd : Bool) :
    (s.cleanupEnd atEnd).pc = .outside ∧ (s.cleanupEnd atEnd).tmpFuncQueue = s.tmpFuncQueue
      ∧ (∀ next, (s.cleanupEnd atEnd).queue next = s.queue next)
      ∧ (s.cleanupEnd atEnd).runInLoopIdAlloc = s.runInLoopIdAlloc
      ∧ (s.cleanupEnd atEnd).runNextIdAlloc = s.runNextIdAlloc
      ∧ (s.cleanupEnd atEnd).submitted = s.submitted ∧ (s.cleanupEnd atEnd).begun = s.begun
      ∧ (s.cleanupEnd atEnd).cancelled = s.cancelled := by
  unfold cleanupEnd
  split <;> exact ⟨rfl, rfl, fun _ => rfl, rfl, rfl, rfl, rfl, rfl⟩

namespace Sorted

theorem congr (hs : s.Sorted) (hpc : t.pc = s.pc) (hqueue : ∀ next, t.queue next ⊆ s.queue next)
    (hinLoop : t.runInLoopIdAlloc = s.runInLoopIdAlloc) (hnext : t.runNextIdAlloc = s.runNextIdAlloc) :
    t.Sorted :=
  ⟨fun next item hmem => hs.batch next item (batch_congr hpc next ▸ hmem),
    fun next item hmem => hs.queue next item (hqueue next hmem),
    hinLoop ▸ hs.runInLoopId, hnext ▸ hs.runNextId⟩

theorem moved (hs : s.Sorted) (hbatch : ∀ next, t.batch next ⊆ s.batch next ++ s.queue next)
    (hqueue : ∀ next, t.queue next ⊆ s.queue next)
    (hinLoop : t.runInLoopIdAlloc = s.runInLoopIdAlloc) (hnext : t.runNextIdAlloc = s.runNextIdAlloc) :
    t.Sorted := by
  refine ⟨fun next item hmem => ?_, fun next item hmem => hs.queue next item (hqueue next hmem),
    hinLoop ▸ hs.runInLoopId, hnext ▸ hs.runNextId⟩
  rcases mem_append.mp (hbatch next hmem) with hbefore | hbefore
  · exact hs.batch next item hbefore
  · exact hs.queue next item hbefore

theorem queue_runInLoop (s : CommonLoop) (next : Bool) : s.runInLoop.queue next
    = if next then s.queue next else s.queue next ++ [⟨s.allocRunInLoopId, s.submitted.length⟩] := by
  cases next with
  | true => exact (runInLoop_frame s).2.2.1
  | false => exact (runInLoop_submitted s).2.1

theorem runInLoop (hs : s.Sorted) : s.runInLoop.Sorted := by
  obtain ⟨hpc, -, -, hnextId, -, -⟩ := runInLoop_frame s
  refine ⟨fun next item hmem => hs.batch next item (batch_congr hpc next ▸ hmem),
    fun next item hmem => ?_, ?_, hnextId ▸ hs.runNextId⟩
  · rw [queue_runInLoop] at hmem
    cases next with
    | true => exact hs.queue true item hmem
    | false =>
      rcases mem_append.mp hmem with hbefore | hnew
      · exact hs.queue false item hbefore
      · obtain rfl := mem_singleton.mp hnew
        have heven := allocRunInLoopId_mod hs
        simp [RunFuncItem.isNext, heven]
  · rw [(runInLoop_submitted s).2.2]
    exact allocRunInLoopId_mod hs

theorem runNext (hs : s.Sorted) : s.runNext.Sorted := by
  refine ⟨hs.batch, fun next item hmem => ?_, hs.runInLoopId, allocRunNextId_mod hs⟩
  cases next with
  | false => exact hs.queue false item hmem
  | true =>
    rcases mem_append.mp hmem with hbefore | hnew
    · exact hs.queue true item hbefore
    · obtain rfl := mem_singleton.mp hnew
      have hodd := allocRunNextId_mod hs
      simp [RunFuncItem.isNext, hodd]

theorem cancel (hs : s.Sorted) (runId : Nat) : (s.cancel runId).2.Sorted := by
  obtain ⟨-, -, hpc, hinLoop, hnext⟩ := cancel_history s runId
  refine hs.congr hpc (fun next => ?_) hinLoop hnext
  rcases cancel_cases s runId with ⟨-, hcancel⟩ | ⟨-, -, hcancel⟩ | ⟨-, -, -, -, -, hqueue⟩
  · rw [hcancel]
    exact List.Subset.refl _
  · rw [hcancel]
    exact List.Subset.refl _
  rw [hqueue]
  split
  · exact filter_subset_self _
  · exact List.Subset.refl _

/-- Every step of the loop is one of each queue, or none. -/
theorem stepped (hs : s.Sorted) (htmp : s.TmpInHand) (h : Stepped s a t) : t.Sorted := by
  have hidle : ∀ {pc}, s.pc = pc → pc ≠ .drainingInLoop → pc ≠ .drainingNext →
      s.tmpFuncQueue = [] := by
    rintro _ rfl hinLoop hnext
    exact htmp.tmp_eq_nil hinLoop hnext
  have hempty : ∀ {c : CommonLoop} pc, c.pc = pc → (∀ runNextTasks runInLoopTasks remainLoopCount atEnd,
        pc ≠ .cleaning runNextTasks runInLoopTasks remainLoopCount atEnd) →
      ∀ next, c.batch next ⊆ s.batch next ++ s.queue next := by
    intro c pc hpc hnot next
    rw [batch_eq_nil _ hpc hnot]
    exact nil_subset _
  have hsame : ∀ next, s.queue next ⊆ s.queue next := fun _ => List.Subset.refl _
  cases h with
  | runInLoop => exact hs.runInLoop
  | runNext => exact hs.runNext
  | commitInLoop => exact runInLoop (s := { s with runCalls := _ }) (hs.congr rfl hsame rfl rfl)
  | commitNext => exact runNext (s := { s with runCalls := _ }) (hs.congr rfl hsame rfl rfl)
  | cancel _ runId => exact hs.cancel runId
  | cleanup => exact hs.moved (fun next => by cases next <;> exact nil_subset _) hsame rfl rfl
  | beginRun forever hpc =>
    obtain ⟨hpc', -, hqueue, hinLoop, hnext, -⟩ := beginRun_frame s forever
    exact hs.moved (hempty _ hpc' nofun) (fun next => hqueue next ▸ List.Subset.refl _) hinLoop hnext
  | poll ready => exact hs.moved (hempty (.dispatching ready) rfl nofun) hsame rfl rfl
  | handleRunInLoopFunc hpc =>
    refine hs.moved (hempty .drainingInLoop rfl nofun) (fun next => ?_) rfl rfl
    cases next with
    | true => exact List.Subset.refl _
    | false =>
      show s.tmpFuncQueue ⊆ _
      rw [hidle hpc nofun nofun]
      exact nil_subset _
  | handleNextFunc hpc =>
    refine hs.moved (hempty .drainingNext rfl nofun) (fun next => ?_) rfl rfl
    cases next with
    | true =>
      show s.tmpFuncQueue ⊆ _
      rw [hidle hpc nofun nofun]
      exact nil_subset _
    | false => exact List.Subset.refl _
  | startRunNext item rest runInLoopTasks remainLoopCount atEnd hpc =>
    refine hs.moved (fun next => List.Subset.trans ?_ (subset_append_left _ _)) hsame rfl rfl
    rw [batch_cleaning hpc, batch_cleaning rfl]
    cases next with
    | true => exact subset_cons_self _ _
    | false => exact List.Subset.refl _
  | startRunInLoop item rest remainLoopCount atEnd hpc =>
    refine hs.moved (fun next => List.Subset.trans ?_ (subset_append_left _ _)) hsame rfl rfl
    rw [batch_cleaning hpc, batch_cleaning rfl]
    cases next with
    | true => exact List.Subset.refl _
    | false => exact subset_cons_self _ _
  | endInLoop => exact hs.moved (hempty (.dispatching false) rfl nofun) hsame rfl rfl
  | endNext =>
    refine hs.moved (hempty (c := { s with pc := _ }) _ rfl ?_) hsame rfl rfl
    split <;> exact nofun
  | endRun => exact hs.moved (fun next => by cases next <;> exact nil_subset _) hsame rfl rfl
  | cleanupRound remainLoopCount atEnd =>
    refine hs.moved (fun next => List.Subset.trans ?_ (subset_append_right _ _)) (fun next => ?_) rfl rfl
    · rw [batch_cleaning (s := s.cleanupRound remainLoopCount atEnd) rfl]
      exact List.Subset.refl _
    · cases next <;> exact nil_subset _
  | cleanupEnd remainLoopCount atEnd =>
    obtain ⟨hpc', -, hqueue, hinLoop, hnext, -⟩ := cleanupEnd_frame s atEnd
    exact hs.moved (hempty _ hpc' nofun) (fun next => hqueue next ▸ List.Subset.refl _) hinLoop hnext
  | _ => exact hs.congr rfl hsame rfl rfl

end Sorted

theorem fifo_runInLoop (hs : s.Sorted) (next : Bool) :
    ReflTransGen Fifo.Step (s.fifo next) (s.runInLoop.fifo next) := by
  obtain ⟨hpc, htmp, -, -, hbegun, hcancelled⟩ := runInLoop_frame s
  refine fifo_submit _ (runInLoop_submitted s).1 hbegun hcancelled hpc htmp (fun next => ?_) next
  have hkind : RunFuncItem.isNext ⟨s.allocRunInLoopId, s.submitted.length⟩ = false := by
    simp [RunFuncItem.isNext, allocRunInLoopId_mod hs]
  rw [Sorted.queue_runInLoop, hkind]
  cases next <;> rfl

theorem fifo_runNext (hs : s.Sorted) (next : Bool) : ReflTransGen Fifo.Step (s.fifo next) (s.runNext.fifo next) := by
  refine fifo_submit (s := s) (t := s.runNext) ⟨s.allocRunNextId, s.submitted.length⟩
    rfl rfl rfl rfl rfl (fun next => ?_) next
  have hkind : RunFuncItem.isNext ⟨s.allocRunNextId, s.submitted.length⟩ = true := by
    simp [RunFuncItem.isNext, allocRunNextId_mod hs]
  rw [hkind]
  cases next <;> rfl

theorem fifo_swap (kind : Bool) (hs : s.Sorted) (htmp : s.tmpFuncQueue = [])
    (hbatch : ∀ next, s.batch next = [] ∧ t.batch next = []) (hinHand : t.tmpFuncQueue = s.queue kind)
    (hqueue : ∀ next, t.queue next = if next = kind then [] else s.queue next)
    (hsubmitted : t.submitted = s.submitted) (hbegun : t.begun = s.begun)
    (hcancelled : t.cancelled = s.cancelled) (next : Bool) : t.fifo next = s.fifo next := by
  refine fifo_eq hsubmitted hbegun hcancelled ?_
  rw [(hbatch next).1, (hbatch next).2, htmp, hinHand, hqueue]
  by_cases hkind : next = kind
  · subst hkind
    rw [if_pos rfl, ofKind_self (hs.queue next)]
    simp [ofKind]
  · have hother : kind = !next := by cases next <;> cases kind <;> simp_all
    rw [if_neg hkind, ofKind_other fun item hmem => (hs.queue kind item hmem).trans hother]
    rfl

/-- **Every step of the loop is a step of both queues.** -/
theorem Stepped.fifo (hs : s.Sorted) (htmp : s.TmpInHand) (h : Stepped s a t) (next : Bool) :
    ReflTransGen Fifo.Step (s.fifo next) (t.fifo next) := by
  have hidle : ∀ {pc}, s.pc = pc → pc ≠ .drainingInLoop → pc ≠ .drainingNext →
      s.tmpFuncQueue = [] := by
    rintro _ rfl hinLoop hnext
    exact htmp.tmp_eq_nil hinLoop hnext
  have hmoved : ∀ c : CommonLoop, (∀ next, s.batch next = []) → (∀ next, c.batch next = []) →
      c.tmpFuncQueue = s.tmpFuncQueue → c.queue next = s.queue next →
      c.submitted = s.submitted → c.begun = s.begun → c.cancelled = s.cancelled →
      ReflTransGen Fifo.Step (s.fifo next) (c.fifo next) := by
    intro c hbefore hafter htmp hqueue hsubmitted hbegun hcancelled
    rw [fifo_eq (s := s) (t := c) hsubmitted hbegun hcancelled (by rw [hbefore, hafter, htmp, hqueue])]
  cases h with
  | runInLoop => exact fifo_runInLoop hs next
  | runNext => exact fifo_runNext hs next
  | commitInLoop call =>
    exact fifo_runInLoop (s := { s with runCalls := s.runCalls.eraseIdx call })
      (hs.congr rfl (fun _ => List.Subset.refl _) rfl rfl) next
  | commitNext call =>
    exact fifo_runNext (s := { s with runCalls := s.runCalls.eraseIdx call })
      (hs.congr rfl (fun _ => List.Subset.refl _) rfl rfl) next
  | cancel _ runId => exact fifo_cancel hs runId next
  | cleanup hpc =>
    exact hmoved _ (batch_eq_nil _ hpc nofun) (fun next => by cases next <;> rfl) rfl rfl rfl rfl rfl
  | beginRun forever hpc =>
    obtain ⟨hpc', htmp', hqueue, -, -, hsubmitted, hbegun, hcancelled⟩ := beginRun_frame s forever
    exact hmoved _ (batch_eq_nil _ hpc nofun) (batch_eq_nil _ hpc' nofun) htmp' (hqueue next)
      hsubmitted hbegun hcancelled
  | poll ready hpc =>
    exact hmoved _ (batch_eq_nil _ hpc nofun) (batch_eq_nil (.dispatching ready) rfl nofun) rfl rfl rfl rfl rfl
  | handleRunInLoopFunc hpc =>
    rw [fifo_swap (t := s.handleRunInLoopFunc) false hs (hidle hpc nofun nofun)
      (fun next => ⟨batch_eq_nil _ hpc nofun next,
        batch_eq_nil .drainingInLoop rfl nofun next⟩) rfl (fun next => ?_) rfl rfl rfl next]
    cases next with
    | true => rfl
    | false => exact hidle hpc nofun nofun
  | handleNextFunc hpc =>
    rw [fifo_swap (t := s.handleNextFunc) true hs (hidle hpc nofun nofun)
      (fun next => ⟨batch_eq_nil _ hpc nofun next,
        batch_eq_nil .drainingNext rfl nofun next⟩) rfl (fun next => ?_) rfl rfl rfl next]
    cases next with
    | true => exact hidle hpc nofun nofun
    | false => rfl
  | startDrained item rest hpc hfront =>
    refine fifo_begin (s := s) (t := { s with tmpFuncQueue := rest, begun := s.begun ++ [item] })
      item rfl rfl rfl (fun next => ?_) next
    have hbatch : s.batch next = [] := by
      rcases hpc with hpc | hpc <;> exact batch_eq_nil _ hpc nofun next
    show s.batch next ++ ofKind next s.tmpFuncQueue ++ s.queue next
      = if item.isNext = next then item :: (s.batch next ++ ofKind next rest ++ s.queue next)
        else s.batch next ++ ofKind next rest ++ s.queue next
    rw [hbatch, hfront]
    by_cases hkind : item.isNext = next <;> simp [ofKind, hkind]
  | startRunNext item rest runInLoopTasks remainLoopCount atEnd hpc =>
    refine fifo_begin (s := s) (t := { s with
      pc := .cleaning rest runInLoopTasks remainLoopCount atEnd, begun := s.begun ++ [item] })
      item rfl rfl rfl (fun next => ?_) next
    have hkind : item.isNext = true := hs.batch true item (by rw [batch_cleaning hpc]; simp)
    show s.batch next ++ _ ++ _ = if _ then item :: (batch _ next ++ _ ++ _) else batch _ next ++ _ ++ _
    rw [batch_cleaning hpc, batch_cleaning rfl, hkind]
    cases next <;> rfl
  | startRunInLoop item rest remainLoopCount atEnd hpc =>
    refine fifo_begin (s := s) (t := { s with
      pc := .cleaning [] rest remainLoopCount atEnd, begun := s.begun ++ [item] })
      item rfl rfl rfl (fun next => ?_) next
    have hkind : item.isNext = false := hs.batch false item (by rw [batch_cleaning hpc]; simp)
    show s.batch next ++ _ ++ _ = if _ then item :: (batch _ next ++ _ ++ _) else batch _ next ++ _ ++ _
    rw [batch_cleaning hpc, batch_cleaning rfl, hkind]
    cases next <;> rfl
  | endInLoop hpc =>
    exact hmoved _ (batch_eq_nil _ hpc nofun) (batch_eq_nil (.dispatching false) rfl nofun) rfl rfl rfl rfl rfl
  | endNext hpc =>
    refine hmoved _ (batch_eq_nil _ hpc nofun) (batch_eq_nil _ rfl ?_) rfl rfl rfl rfl rfl
    split <;> exact nofun
  | endRun hpc =>
    exact hmoved _ (batch_eq_nil _ hpc nofun) (fun next => by cases next <;> rfl) rfl rfl rfl rfl rfl
  | cleanupRound remainLoopCount atEnd hpc =>
    have hfifo : (s.cleanupRound remainLoopCount atEnd).fifo next = s.fifo next := by
      refine fifo_eq rfl rfl rfl ?_
      rw [batch_cleaning hpc, batch_cleaning (s := s.cleanupRound remainLoopCount atEnd) rfl,
        hidle hpc nofun nofun, show (s.cleanupRound remainLoopCount atEnd).tmpFuncQueue = []
          from hidle hpc nofun nofun]
      cases next <;> simp [queue, CommonLoop.cleanupRound, ofKind]
    rw [hfifo]
  | cleanupEnd remainLoopCount atEnd hpc =>
    obtain ⟨hpc', htmp', hqueue, -, -, hsubmitted, hbegun, hcancelled⟩ := cleanupEnd_frame s atEnd
    exact hmoved _ (fun next => by rw [batch_cleaning hpc]; cases next <;> rfl)
      (batch_eq_nil _ hpc' nofun) htmp' (hqueue next) hsubmitted hbegun hcancelled
  | _ => exact fifo_congr (s := s) rfl rfl rfl rfl rfl rfl rfl next ▸ .refl

end CommonLoop

end Tbox.Event
