import Tbox.Proof.LoopDeferred

/-!
# Cancelling tells the truth

As long as the counters do not wrap a task is its id. `cancel` is true of every task but those a cleanup has in hand.
-/

open List

namespace Tbox.Event.CommonLoop

open Lib (Fifo)

variable {s t : CommonLoop} {a : Action} {item : RunFuncItem} {runId : Nat}

def issued (s : CommonLoop) : RunFuncQueue × Nat × Nat :=
  (s.submitted, s.runInLoopIdAlloc, s.runNextIdAlloc)

theorem issued_runInLoop (s : CommonLoop) : s.runInLoop.issued
    = (s.submitted ++ [⟨s.allocRunInLoopId, s.submitted.length⟩], s.allocRunInLoopId, s.runNextIdAlloc) := by
  rw [issued, (runInLoop_submitted s).1, (runInLoop_submitted s).2.2, (runInLoop_frame s).2.2.2.1]

theorem Stepped.issued (h : Stepped s a t) :
    t.issued = s.issued ∨ t.issued = s.runInLoop.issued ∨ t.issued = s.runNext.issued := by
  cases h with
  | runInLoop => exact .inr (.inl rfl)
  | runNext => exact .inr (.inr rfl)
  | commitInLoop =>
    exact .inr (.inl ((issued_runInLoop _).trans (issued_runInLoop s).symm))
  | commitNext => exact .inr (.inr rfl)
  | cancel _ runId =>
    obtain ⟨hsubmitted, -, -, hinLoop, hnext⟩ := cancel_history s runId
    exact .inl (by rw [CommonLoop.issued, hsubmitted, hinLoop, hnext]; rfl)
  | beginRun forever =>
    obtain ⟨-, -, -, hinLoop, hnext, hsubmitted, -⟩ := beginRun_frame s forever
    exact .inl (by rw [CommonLoop.issued, hsubmitted, hinLoop, hnext]; rfl)
  | cleanupEnd _ atEnd =>
    obtain ⟨-, -, -, hinLoop, hnext, hsubmitted, -⟩ := cleanupEnd_frame s atEnd
    exact .inl (by rw [CommonLoop.issued, hsubmitted, hinLoop, hnext]; rfl)
  | _ => exact .inl rfl

def Numbered (s : CommonLoop) : Prop :=
  s.submitted.map RunFuncItem.func = List.range s.submitted.length

/-- Every submission is given the next number. -/
theorem Numbered.stepped (hs : s.Numbered) (h : Stepped s a t) : t.Numbered := by
  have hsubmit : ∀ runId, t.submitted = s.submitted ++ [⟨runId, s.submitted.length⟩] → t.Numbered := by
    intro runId hsubmitted
    rw [Numbered, hsubmitted, map_append, hs, length_append, length_singleton, range_succ]
    rfl
  rcases h.issued with hsame | hinLoop | hnext
  · rw [Numbered, show t.submitted = s.submitted from congrArg Prod.fst hsame]
    exact hs
  · exact hsubmit _ (congrArg Prod.fst (hinLoop.trans (issued_runInLoop s)))
  · exact hsubmit _ (congrArg Prod.fst hnext)

theorem Numbered.nodup (hs : s.Numbered) : s.submitted.Nodup := List.Nodup.of_map RunFuncItem.func (hs ▸ nodup_range)

/-- How many ids each counter has before it wraps. -/
def runIdMax : Nat := 2 ^ 63 - 1

structure IdsFresh (s : CommonLoop) : Prop where
  runInLoopId : s.runInLoopIdAlloc = 2 * (ofKind false s.submitted).length
  runNextId : s.runNextIdAlloc = 2 * (ofKind true s.submitted).length + 1
  bounded : ∀ item ∈ s.submitted,
    0 < item.id ∧ item.id ≤ if item.isNext then s.runNextIdAlloc else s.runInLoopIdAlloc
  distinct : (s.submitted.map RunFuncItem.id).Nodup

namespace IdsFresh

theorem congr (hs : s.IdsFresh) (h : t.issued = s.issued) : t.IdsFresh := by
  have hsubmitted : t.submitted = s.submitted := congrArg Prod.fst h
  have hinLoop : t.runInLoopIdAlloc = s.runInLoopIdAlloc := congrArg (fun i => i.2.1) h
  have hnext : t.runNextIdAlloc = s.runNextIdAlloc := congrArg (fun i => i.2.2) h
  refine ⟨?_, ?_, ?_, ?_⟩
  · rw [hinLoop, hsubmitted, hs.runInLoopId]
  · rw [hnext, hsubmitted, hs.runNextId]
  · rw [hsubmitted, hnext, hinLoop]
    exact hs.bounded
  · rw [hsubmitted]
    exact hs.distinct

theorem empty : ({} : CommonLoop).IdsFresh := ⟨rfl, rfl, nofun, nodup_nil⟩

/-- The next id of one of the counters is above every id of its kind, and of the other parity than
the ids of the other kind. -/
theorem submit (hs : s.IdsFresh) (hsubmitted : t.submitted = s.submitted ++ [item])
    (hinLoop : t.runInLoopIdAlloc
      = if item.isNext then s.runInLoopIdAlloc else s.runInLoopIdAlloc + 2)
    (hnext : t.runNextIdAlloc = if item.isNext then s.runNextIdAlloc + 2 else s.runNextIdAlloc)
    (hid : item.id = if item.isNext then s.runNextIdAlloc + 2 else s.runInLoopIdAlloc + 2) :
    t.IdsFresh := by
  have hcount : ∀ next, (ofKind next t.submitted).length
      = (ofKind next s.submitted).length + if item.isNext = next then 1 else 0 := by
    intro next
    rw [hsubmitted]
    split
    · rw [ofKind_append_self _ ‹_›, length_append, length_singleton]
    · rw [ofKind_append_other _ ‹_›, Nat.add_zero]
  have hnew : ∀ other ∈ s.submitted, other.id ≠ item.id := by
    intro other hmem heq
    obtain ⟨-, hle⟩ := hs.bounded other hmem
    have hkind : other.isNext = item.isNext := by
      unfold RunFuncItem.isNext
      rw [heq]
    rw [hkind, heq, hid] at hle
    split at hle <;> omega
  refine ⟨?_, ?_, fun other hmem => ?_, ?_⟩
  · rw [hinLoop, hcount, hs.runInLoopId]
    cases item.isNext <;> simp [Nat.mul_add]
  · rw [hnext, hcount, hs.runNextId]
    cases item.isNext <;> simp [Nat.mul_add]
  · rw [hsubmitted] at hmem
    rw [hinLoop, hnext]
    rcases mem_append.mp hmem with hbefore | hlast
    · obtain ⟨hpos, hle⟩ := hs.bounded other hbefore
      refine ⟨hpos, hle.trans ?_⟩
      cases other.isNext <;> cases item.isNext <;> simp
    · obtain rfl := mem_singleton.mp hlast
      rw [hid]
      cases other.isNext <;> simp
  · rw [hsubmitted, map_append, map_singleton]
    refine List.Nodup.append hs.distinct (nodup_singleton _) ?_
    intro runId hmem hlast
    obtain ⟨other, hother, rfl⟩ := mem_map.mp hmem
    exact hnew other hother (mem_singleton.mp hlast)

theorem stepped (hs : s.IdsFresh) (hsorted : s.Sorted) (h : Stepped s a t)
    (hwrap : t.submitted.length ≤ runIdMax) : t.IdsFresh := by
  have hle : ∀ next, (ofKind next s.submitted).length ≤ s.submitted.length := fun _ => length_filter_le _ _
  have hinLoopId := hs.runInLoopId
  have hnextId := hs.runNextId
  unfold runIdMax at hwrap
  rcases h.issued with hsame | hinLoop | hnext
  · exact hs.congr hsame
  · rw [issued_runInLoop] at hinLoop
    have hsubmitted : t.submitted = _ := congrArg Prod.fst hinLoop
    have hkind : RunFuncItem.isNext ⟨s.allocRunInLoopId, s.submitted.length⟩ = false := by
      simp [RunFuncItem.isNext, allocRunInLoopId_mod hsorted]
    have hnew : s.allocRunInLoopId = s.runInLoopIdAlloc + 2 := by
      have hcount := hle false
      rw [hsubmitted, length_append, length_singleton] at hwrap
      unfold allocRunInLoopId runIdMod
      dsimp only
      split <;> omega
    refine hs.submit hsubmitted ?_ ?_ ?_
    · rw [hkind]
      exact (congrArg (fun i => i.2.1) hinLoop).trans hnew
    · rw [hkind]
      exact congrArg (fun i => i.2.2) hinLoop
    · rw [hkind]
      exact hnew
  · have hsubmitted : t.submitted = s.submitted ++ [⟨s.allocRunNextId, s.submitted.length⟩] :=
      congrArg Prod.fst hnext
    have hkind : RunFuncItem.isNext ⟨s.allocRunNextId, s.submitted.length⟩ = true := by
      simp [RunFuncItem.isNext, allocRunNextId_mod hsorted]
    have hnew : s.allocRunNextId = s.runNextIdAlloc + 2 := by
      have hcount := hle true
      rw [hsubmitted, length_append, length_singleton] at hwrap
      unfold allocRunNextId runIdMod
      omega
    refine hs.submit hsubmitted ?_ ?_ ?_
    · rw [hkind]
      exact congrArg (fun i => i.2.1) hnext
    · rw [hkind]
      exact (congrArg (fun i => i.2.2) hnext).trans hnew
    · rw [hkind]
      exact hnew

end IdsFresh

structure LoopInv (s : CommonLoop) : Prop where
  tmp : s.TmpInHand
  sorted : s.Sorted
  fifo : ∀ next, (s.fifo next).Inv
  numbered : s.Numbered

theorem LoopInv.empty : ({} : CommonLoop).LoopInv := by
  refine ⟨nofun, ⟨fun next => nofun, fun next => ?_, rfl, rfl⟩, fun next => ⟨?_, ?_⟩, rfl⟩
  · cases next <;> exact nofun
  · cases next <;> exact .refl _
  · cases next <;> exact .refl _

/-- All that is known of the loop's queues is kept by every step. -/
theorem LoopInv.stepped (hs : s.LoopInv) (h : Stepped s a t) : t.LoopInv :=
  ⟨hs.tmp.stepped h, hs.sorted.stepped hs.tmp h,
    fun next => (hs.fifo next).steps (h.fifo hs.sorted hs.tmp next), hs.numbered.stepped h⟩

def Pending (s : CommonLoop) (runId : Nat) : Prop :=
  ∃ item ∈ s.submitted, item.id = runId ∧ item ∉ s.begun ∧ item ∉ s.cancelled

/-- Every task submitted was begun once, was cancelled, or waits, and in one of these ways only; the
tasks of either kind are begun in the order of their submission. -/
def OnceInOrder (s : CommonLoop) : Prop := s.submitted.Nodup ∧ ∀ next, (s.fifo next).Inv

/-- On the loop thread, `cancel` returns `true` if and only if the task is pending, and then the task
is never begun. -/
def AnswersTruly (s : CommonLoop) : Action → Prop
  | .cancel true runId =>
    ((s.cancel runId).1 = true ↔ s.Pending runId)
      ∧ ((s.cancel runId).1 = true → ∀ actions t,
        Lib.run step (s.cancel runId).2 actions = some t →
          ∀ item ∈ s.submitted, item.id = runId → item ∉ t.begun)
  | _ => True

/-- No task that a cleanup has in hand is cancelled. -/
def BatchSpared (s : CommonLoop) : Action → Prop
  | .cancel true runId => ∀ next, ∀ item ∈ s.batch next, item.id ≠ runId
  | _ => True

theorem mem_ofKind {items : RunFuncQueue} : item ∈ ofKind item.isNext items ↔ item ∈ items := by
  simp [ofKind]

def Waits (s : CommonLoop) (item : RunFuncItem) : Prop :=
  item ∈ s.batch item.isNext ∨ item ∈ s.tmpFuncQueue ∨ item ∈ s.queue item.isNext

theorem waits_iff (hs : s.LoopInv) : s.Waits item ↔ item ∈ s.submitted ∧ item ∉ s.begun ∧ item ∉ s.cancelled := by
  have hmem := (hs.fifo item.isNext).mem_waiting_iff (a := item) (hs.numbered.nodup.filter _)
  simp only [CommonLoop.fifo, mem_ofKind, mem_append] at hmem
  rw [← hmem, Waits, or_assoc]

theorem cancel_fst_iff (hs : s.LoopInv) (hfresh : s.IdsFresh) : (s.cancel runId).1 = true
    ↔ ∃ item, item.id = runId ∧ (item ∈ s.tmpFuncQueue ∨ item ∈ s.queue item.isNext) := by
  rcases cancel_cases s runId with ⟨hzero, hcancel⟩ | ⟨-, ⟨item, hmem, hid⟩, hcancel⟩
    | ⟨-, hnone, hiff, -⟩
  · rw [hcancel]
    refine ⟨nofun, ?_⟩
    rintro ⟨item, hid, hplace⟩
    have hmem := ((waits_iff hs).mp (.inr hplace)).1
    exact absurd (hid.trans hzero) (Nat.ne_of_gt (hfresh.bounded item hmem).1)
  · rw [hcancel]
    exact iff_of_true rfl ⟨item, hid, .inl hmem⟩
  rw [hiff]
  constructor
  · rintro ⟨item, hmem, rfl⟩
    exact ⟨item, rfl, .inr hmem⟩
  · rintro ⟨item, rfl, hmem | hmem⟩
    · exact absurd rfl (hnone item hmem)
    · exact ⟨item, hmem, rfl⟩

theorem mem_cancelled_of_cancel (h : (s.cancel runId).1 = true) :
    ∃ item ∈ (s.cancel runId).2.cancelled, item.id = runId ∧ s.Waits item := by
  have hremoved : ∀ {item : RunFuncItem} {items : RunFuncQueue}, item ∈ items → item.id = runId →
      item ∈ s.cancelled ++ removedItems items runId := fun hmem hid =>
    mem_append_right _ (mem_filter.mpr ⟨hmem, decide_eq_true hid⟩)
  rcases cancel_cases s runId with ⟨-, hcancel⟩ | ⟨-, ⟨item, hmem, hid⟩, hcancel⟩
    | ⟨-, -, hiff, -, hcancelled, -⟩
  · rw [hcancel] at h
    cases h
  · rw [hcancel]
    exact ⟨item, hremoved hmem hid, hid, .inr (.inl hmem)⟩
  obtain ⟨item, hmem, hid⟩ := hiff.mp h
  rw [hcancelled]
  refine ⟨item, hremoved hmem hid, hid, .inr (.inr ?_)⟩
  rw [RunFuncItem.isNext, hid]
  exact hmem

variable {actions : List Action}

theorem not_mem_begun_of_cancelled (hs : s.LoopInv) (hcancelled : item ∈ s.cancelled) (hrun : Lib.run step s actions = some t) : item ∉ t.begun := by
  obtain ⟨ht, hstill⟩ := Lib.run_invariant_of_step
    (I := fun s : CommonLoop => s.LoopInv ∧ item ∈ s.cancelled)
    (fun s a t hs h => by
      have hstep := Stepped.of_step h
      refine ⟨hs.1.stepped hstep, mem_ofKind.mp ?_⟩
      exact Fifo.withdrawn_subset_of_steps (hstep.fifo hs.1.sorted hs.1.tmp item.isNext)
        (mem_ofKind.mpr hs.2)) ⟨hs, hcancelled⟩ hrun
  intro hbegun
  exact (ht.fifo item.isNext).not_mem_begun_of_withdrawn (ht.numbered.nodup.filter _)
    (mem_ofKind.mpr hstill) (mem_ofKind.mpr hbegun)

theorem eq_of_id_eq (hfresh : s.IdsFresh) {other : RunFuncItem} (hitem : item ∈ s.submitted)
    (hother : other ∈ s.submitted) (hid : item.id = other.id) : item = other :=
  inj_on_of_nodup_map hfresh.distinct hitem hother hid

theorem cancel_final (hs : s.LoopInv) (hfresh : s.IdsFresh) (h : (s.cancel runId).1 = true) (hrun : Lib.run step (s.cancel runId).2 actions = some t)
    (hmem : item ∈ s.submitted) (hid : item.id = runId) : item ∉ t.begun := by
  obtain ⟨other, hcancelled, hotherId, hwaits⟩ := mem_cancelled_of_cancel h
  obtain rfl := eq_of_id_eq hfresh hmem ((waits_iff hs).mp hwaits).1 (hid.trans hotherId.symm)
  exact not_mem_begun_of_cancelled (hs.stepped (.cancel true runId)) hcancelled hrun

theorem answersTruly_iff (hs : s.LoopInv) (hfresh : s.IdsFresh) (a : Action) :
    s.AnswersTruly a ↔ s.BatchSpared a := by
  have hpending : ∀ runId, s.Pending runId ↔ ∃ item, item.id = runId ∧ s.Waits item := by
    intro runId
    constructor
    · rintro ⟨item, hmem, hid, hrest⟩
      exact ⟨item, hid, (waits_iff hs).mpr ⟨hmem, hrest⟩⟩
    · rintro ⟨item, hid, hwaits⟩
      obtain ⟨hmem, hrest⟩ := (waits_iff hs).mp hwaits
      exact ⟨item, hmem, hid, hrest⟩
  cases a with
  | cancel inLoopThread runId =>
    cases inLoopThread with
    | false => exact Iff.rfl
    | true =>
      constructor
      · rintro ⟨htrue, -⟩ next item hmem hid
        have hkind := hs.sorted.batch next item hmem
        have hwaits : s.Waits item := .inl (hkind ▸ hmem)
        obtain ⟨other, hotherId, hplace⟩ := (cancel_fst_iff hs hfresh).mp
          (htrue.mpr ((hpending runId).mpr ⟨item, hid, hwaits⟩))
        -- the task `cancel` found would be the one in the batch, and so wait twice
        obtain rfl := eq_of_id_eq hfresh ((waits_iff hs).mp hwaits).1
          ((waits_iff hs).mp (.inr hplace)).1 (hid.trans hotherId.symm)
        have hnodup := (hs.fifo item.isNext).nodup_waiting (hs.numbered.nodup.filter _)
        rw [CommonLoop.fifo, append_assoc] at hnodup
        refine disjoint_of_nodup_append hnodup (hkind ▸ hmem) ?_
        exact mem_append.mpr (hplace.imp_left mem_ofKind.mpr)
      · intro hspared
        refine ⟨?_, fun h actions t hrun item hmem hid => cancel_final hs hfresh h hrun hmem hid⟩
        rw [cancel_fst_iff hs hfresh, hpending]
        refine exists_congr fun item => and_congr_right fun hid => ⟨.inr, ?_⟩
        rintro (hbatch | hplace)
        · exact absurd hid (hspared _ item hbatch)
        · exact hplace
  | _ => exact Iff.rfl

/-- **Deferred tasks run once, in order, and cancelling tells the truth** in every run, exactly when
no task that a cleanup has in hand is cancelled. -/
theorem deferred_iff (actions : List Action)
    (hwrap : Lib.Always step (fun s => s.submitted.length ≤ runIdMax) {} actions) :
    (Lib.Always step OnceInOrder {} actions ∧ Lib.Along step AnswersTruly {} actions)
      ↔ Lib.Along step BatchSpared {} actions := by
  have halways : Lib.Always step OnceInOrder {} actions := by
    intro pre _ t hrun
    have ht : t.LoopInv := Lib.run_invariant_of_step
      (fun _ _ _ hs h => hs.stepped (.of_step h)) .empty hrun
    exact ⟨ht.numbered.nodup, ht.fifo⟩
  have hcongr : Lib.Along step AnswersTruly {} actions ↔ Lib.Along step BatchSpared {} actions :=
    Lib.along_congr (I := fun s : CommonLoop => s.LoopInv ∧ s.IdsFresh)
    (fun s a t hs hbound h => by
      have hstep := Stepped.of_step h
      exact ⟨hs.1.stepped hstep, hs.2.stepped hs.1.sorted hstep (hbound.2 t h)⟩)
    (fun s a hs _ => answersTruly_iff hs.1 hs.2 a) ⟨.empty, .empty⟩ hwrap.along
  exact (and_iff_right halways).trans hcongr

theorem length_submitted_le (hrun : Lib.run step s actions = some t) :
    t.submitted.length ≤ s.submitted.length + actions.length := by
  induction actions generalizing s with
  | nil => exact (Option.some.inj hrun) ▸ Nat.le_refl _
  | cons a actions ih =>
    obtain ⟨u, hu, hrest⟩ := Lib.run_cons_eq_some.mp hrun
    have hlater := ih hrest
    have hfirst : u.submitted.length ≤ s.submitted.length + 1 := by
      rcases (Stepped.of_step hu).issued with hsame | hinLoop | hnext
      · exact (congrArg (fun i => i.1.length) hsame).le.trans (Nat.le_succ _)
      · rw [issued_runInLoop] at hinLoop
        exact ((congrArg (fun i => i.1.length) hinLoop).trans length_append).le
      · exact ((congrArg (fun i => i.1.length) hnext).trans length_append).le
    rw [length_cons]
    omega

/-- A task cancelled before it was begun. -/
theorem deferred_cancel_waiting :
    Lib.Always step OnceInOrder {} [.runNext true, .cancel true 3]
      ∧ Lib.Along step AnswersTruly {} [.runNext true, .cancel true 3] := by
  refine (deferred_iff [.runNext true, .cancel true 3] ?_).mpr ?_
  · intro pre hpre t hrun
    have hlength := length_submitted_le hrun
    have hpreLength := hpre.length_le
    rw [show ({} : CommonLoop).submitted = [] from rfl, List.length_nil] at hlength
    have hmax : 2 ≤ runIdMax := by decide
    exact (hlength.trans (by simpa using hpreLength)).trans hmax
  · intro t ht
    obtain rfl := Option.some.inj ht
    exact ⟨trivial, fun _ _ => ⟨fun next => nofun, trivial⟩⟩

/-- The second of two tasks is cancelled from within the first, while both are being cleaned up. -/
theorem cancel_misses_batch :
    ¬Lib.Along step AnswersTruly {}
      ([.runNext true, .runNext true, .cleanup, .cleanupRound, .startTask] ++ [.cancel true 5]) := by
  intro htruly
  obtain ⟨t, hrun, ht⟩ := (Option.any_eq_true _ _).mp (show Option.any
    (fun t : CommonLoop => (t.cancel 5).1 = false ∧ t.submitted = [⟨3, 0⟩, ⟨5, 1⟩]
      ∧ t.begun = [⟨3, 0⟩] ∧ t.cancelled = [] ∧ (t.step (.cancel true 5)).isSome)
    (Lib.run step {} [.runNext true, .runNext true, .cleanup, .cleanupRound, .startTask]) = true
    by decide)
  obtain ⟨hfalse, hsubmitted, hbegun, hcancelled, hsome⟩ := of_decide_eq_true ht
  obtain ⟨u, hu⟩ := Option.isSome_iff_exists.mp hsome
  have htrue := ((htruly.append_right hrun) u hu).1.1.mpr
    ⟨⟨5, 1⟩, by simp [hsubmitted], rfl, by simp [hbegun], by simp [hcancelled]⟩
  rw [hfalse] at htrue
  cases htrue

end Tbox.Event.CommonLoop
