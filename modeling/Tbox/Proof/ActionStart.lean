import Tbox.Proof.ActionEffects

/-!
# Starting an action

`start` is the one function that does everything: it starts children, and finishes, blocks and stops
on the way. Here is what it may touch, and the cases its other properties are proved by.
-/

open List Option

namespace Tbox.Flow.Action

variable {F : Forest} {w w' : World} {n m c : ActionId} {depth : Nat}
  {leaves : ActionId → LeafStart} {isSucc : Bool} {why : Reason}

structure Advances (children : List ActionId) (a : Fields) (next : Fields × Next) : Prop where
  fields : ∃ index remainTimes, next.1 = { a with index := index, remainTimes := remainTimes }
  within : ∀ resets child ifFails, next.2 = .start resets child ifFails →
    child ∈ children ∧ ∀ r ∈ resets, r ∈ children

namespace Advances

variable {children : List ActionId} {a : Fields}

theorem of_finish : Advances children a (a, .finish isSucc why) := ⟨⟨_, _, rfl⟩, nofun⟩

theorem of_outOfRange : Advances children a (a, .outOfRange) := ⟨⟨_, _, rfl⟩, nofun⟩

theorem of_start {resets : List ActionId} {child : ActionId} {ifFails : Option (Bool × Reason)}
    (hchild : child ∈ children) (hresets : ∀ r ∈ resets, r ∈ children) :
    Advances children a (a, .start resets child ifFails) := by
  refine ⟨⟨_, _, rfl⟩, fun _ _ _ heq => ?_⟩
  cases heq
  exact ⟨hchild, hresets⟩

theorem startOtheriseFinish : Advances children a (a, Sequence.startOtheriseFinish children a isSucc why) := by
  unfold Sequence.startOtheriseFinish
  split
  · next hget => exact of_start (mem_of_getElem? hget) (by simp)
  · exact of_finish

theorem counted {next : Fields × Next} {index remainTimes : Nat}
    (h : Advances children { a with index := index, remainTimes := remainTimes } next) :
    Advances children a next := by
  obtain ⟨i, r, hfields⟩ := h.fields
  exact ⟨⟨i, r, hfields⟩, h.within⟩

theorem doStart {ifThenActions : List (ActionId × ActionId)} :
    Advances (Kind.ifThen ifThenActions).children a (a, IfThen.doStart ifThenActions a) := by
  unfold IfThen.doStart
  split
  · next item hget =>
      refine of_start ?_ (by simp)
      exact mem_flatMap.mpr ⟨item, mem_of_getElem? hget, mem_cons_self⟩
  · exact of_finish

end Advances

theorem Kind.advances_onStart (kind : Kind) (a : Fields) : Advances kind.children a (kind.onStart a) := by
  cases kind with
  | sequence mode children => exact Advances.startOtheriseFinish
  | ifThen ifThenActions => exact (Advances.doStart (a := { a with index := 0 })).counted
  | repeatTimes child times mode =>
    have hstart : Advances (Kind.repeatTimes child times mode).children
        { a with remainTimes := (times + 2 ^ 64 - 1) % 2 ^ 64 } (Repeat.onStart child times a) :=
      .of_start (by simp [children]) (by simp)
    exact hstart.counted
  | leaf => exact .of_outOfRange
  | parallel mode children => exact .of_outOfRange
  | _ => exact .of_start (by simp [children]) (by simp)

theorem Kind.advances_onChildFinished (kind : Kind) (a : Fields) (c : ActionId) (isSucc : Bool)
    (why : Reason) : Advances kind.children a (kind.onChildFinished a c isSucc why) := by
  unfold Kind.onChildFinished
  split
  · exact .of_finish
  cases kind with
  | sequence mode children =>
    show Advances children a (Sequence.onChildFinished mode children a isSucc why)
    unfold Sequence.onChildFinished
    split
    · exact .of_finish
    · exact (Advances.startOtheriseFinish (a := { a with index := a.index + 1 })).counted
  | ifThen ifThenActions =>
    show Advances _ a (IfThen.onIfActionFinished ifThenActions a isSucc)
    unfold IfThen.onIfActionFinished
    split
    · split
      · next item hget =>
          refine .of_start ?_ (by simp)
          exact mem_flatMap.mpr ⟨item, mem_of_getElem? hget, by simp⟩
      · exact .of_outOfRange
    · exact (Advances.doStart (a := { a with index := a.index + 1 })).counted
  | ifElse ifAction thenAction elseAction =>
    show Advances _ a (a, IfElse.onCondActionFinished thenAction elseAction isSucc why)
    unfold IfElse.onCondActionFinished
    split
    · next child heq =>
        refine .of_start ?_ (by simp)
        cases isSucc <;> simp_all [children]
    · exact .of_finish
  | switch switchAction defaultAction caseActions =>
    show Advances _ a (a, Switch.onSwitchActionFinished defaultAction caseActions isSucc why)
    unfold Switch.onSwitchActionFinished
    split
    · split
      · next child heq =>
          refine .of_start ?_ (by simp)
          rw [or_eq_some_iff] at heq
          rcases heq with hcase | ⟨-, hdefault⟩
          · obtain ⟨before, after, rfl, -⟩ := lookup_eq_some_iff.mp hcase
            simp [children]
          · simp [children, hdefault]
      · exact .of_finish
    · exact .of_finish
  | loop child mode =>
    show Advances _ a (a, Loop.onChildFinished child mode isSucc why)
    unfold Loop.onChildFinished
    split
    · exact .of_finish
    · exact .of_start (by simp [children]) (by simp [children])
  | loopIf ifAction execAction finishResult =>
    dsimp only
    split
    · unfold LoopIf.onIfFinished
      split
      · exact .of_start (by simp [children]) (by simp)
      · exact .of_finish
    · exact .of_start (by simp [children]) (by simp [children])
  | repeatTimes child times mode =>
    show Advances _ a (Repeat.onChildFinished child mode a isSucc why)
    unfold Repeat.onChildFinished
    split
    · exact .of_finish
    split
    · have hstart : Advances (Kind.repeatTimes child times mode).children
          { a with remainTimes := a.remainTimes - 1 }
          ({ a with remainTimes := a.remainTimes - 1 }, .start [child] child none) :=
        .of_start (by simp [children]) (by simp [children])
      exact hstart.counted
    · exact .of_finish
  | wrapper child mode =>
    show Advances _ a (a, Wrapper.onChildFinished mode isSucc why)
    cases mode <;> exact .of_finish
  | _ => exact .of_outOfRange

def Fields.recorded (a : Fields) : List Nat := a.finishedChildren.map Prod.fst

theorem Fields.mem_recorded_setFinished {a : Fields} {i j : Nat} {b : Bool} :
    j ∈ (a.setFinished i b).recorded ↔ j = i ∨ j ∈ a.recorded := by
  simp only [recorded, setFinished, map_cons, mem_cons, List.mem_map, mem_filter, decide_eq_true_eq]
  constructor
  · rintro (rfl | ⟨item, ⟨hmem, -⟩, rfl⟩)
    · exact .inl rfl
    · exact .inr ⟨item, hmem, rfl⟩
  rintro (rfl | ⟨item, hmem, rfl⟩)
  · exact .inl rfl
  · by_cases heq : item.1 = i
    · exact .inl heq
    · exact .inr ⟨item, ⟨hmem, heq⟩, rfl⟩

theorem Fields.nodup_recorded_setFinished {a : Fields} (h : a.recorded.Nodup) (i : Nat) (b : Bool) :
    (a.setFinished i b).recorded.Nodup := by
  simp only [recorded, setFinished, map_cons, nodup_cons, List.mem_map, mem_filter, decide_eq_true_eq]
  refine ⟨?_, (filter_sublist.map Prod.fst).nodup h⟩
  rintro ⟨item, ⟨-, hne⟩, heq⟩
  exact hne heq

theorem Fields.length_eq_iff {a : Fields} {k : Nat} (hnodup : a.recorded.Nodup) (hlt : ∀ i ∈ a.recorded, i < k) :
    a.finishedChildren.length = k ↔ ∀ i < k, i ∈ a.recorded := by
  have hsub : a.recorded.Subperm (List.range k) := hnodup.subperm fun i hi => mem_range.mpr (hlt i hi)
  have hlength : a.finishedChildren.length = a.recorded.length := (length_map ..).symm
  rw [hlength]
  constructor
  · intro heq i hi
    have hperm := hsub.perm_of_length_le (by rw [length_range, heq])
    exact hperm.mem_iff.mpr (mem_range.mpr hi)
  intro hall
  have hsup : (List.range k).Subperm a.recorded := nodup_range.subperm fun i hi => hall i (mem_range.mp hi)
  have hperm := hsub.antisymm hsup
  rw [hperm.length_eq, length_range]

def Call.isFinishOf (c : ActionId) : Call → Bool
  | .finished child _ _ => child = c
  | _ => false

def Call.isBlockOf (c : ActionId) : Call → Bool
  | .blocked child _ => child = c
  | _ => false

/-- The numbers in the queue increase, and one that an action remembers is that of its own report. -/
structure Tagged (F : Forest) (w : World) : Prop where
  sorted : w.queue.Pairwise fun s t => s.runId < t.runId
  le : ∀ t ∈ w.queue, t.runId ≤ w.runNextIdAlloc
  ne_zero : ∀ t ∈ w.queue, t.runId ≠ 0
  finishLe : ∀ c, (w.fields c).finishCbRunId ≤ w.runNextIdAlloc
  blockLe : ∀ c, (w.fields c).blockCbRunId ≤ w.runNextIdAlloc
  ownFinish : ∀ t ∈ w.queue, ∀ c, t.runId = (w.fields c).finishCbRunId → t.call.isFinishOf c
  ownBlock : ∀ t ∈ w.queue, ∀ c, t.runId = (w.fields c).blockCbRunId → t.call.isBlockOf c
  finished : ∀ t ∈ w.queue, ∀ c, t.call.isFinishOf c →
    w.state c = .finished ∧ t.runId = (w.fields c).finishCbRunId
  serial : ∀ t ∈ w.queue, ∀ m, t.call.isFuncOf m → F.assembly m = .serial

namespace Tagged

theorem slows (h : Tagged F w) (hslows : Slows w w') : Tagged F w' where
  sorted := hslows.queue ▸ h.sorted
  le := by
    rw [hslows.queue, hslows.runNextIdAlloc]
    exact h.le
  ne_zero := hslows.queue ▸ h.ne_zero
  finishLe c := by
    rw [hslows.finishCbRunId, hslows.runNextIdAlloc]
    exact h.finishLe c
  blockLe c := by
    rw [hslows.blockCbRunId, hslows.runNextIdAlloc]
    exact h.blockLe c
  ownFinish t ht c := by
    rw [hslows.finishCbRunId]
    exact h.ownFinish t (hslows.queue ▸ ht) c
  ownBlock t ht c := by
    rw [hslows.blockCbRunId]
    exact h.ownBlock t (hslows.queue ▸ ht) c
  finished t ht c := by
    rw [hslows.finishCbRunId, hslows.finished]
    exact h.finished t (hslows.queue ▸ ht) c
  serial t ht := h.serial t (hslows.queue ▸ ht)

theorem sorted_append {posted : List Posted} (h : Tagged F w) (hposts : Posts w w' posted) :
    (w.queue ++ posted).Pairwise fun s t => s.runId < t.runId := by
  refine pairwise_append.mpr ⟨h.sorted, hposts.sorted, fun s hs t ht => ?_⟩
  exact (h.le s hs).trans_lt (hposts.above t ht).1

theorem resumes (h : Tagged F w) (hresumes : Resumes F w w') : Tagged F w' := by
  obtain ⟨posted, hposts, -, hfrom⟩ := hresumes.posts
  have hmem : ∀ t ∈ w'.queue, t ∈ w.queue ∨ t ∈ posted := by
    intro t ht
    rw [hposts.queue] at ht
    exact mem_append.mp ht
  refine ⟨hposts.queue ▸ h.sorted_append hposts, fun t ht => ?_, fun t ht => ?_, fun c => ?_,
    fun c => ?_, fun t ht c hid => ?_, fun t ht c hid => ?_, fun t ht c hof => ?_,
    fun t ht m hof => ?_⟩
  · exact (hmem t ht).elim (fun ht => (h.le t ht).trans hposts.le) fun ht => (hposts.above t ht).2
  · exact (hmem t ht).elim (h.ne_zero t) fun ht => (Nat.zero_lt_of_lt (hposts.above t ht).1).ne'
  · rw [hresumes.finishCbRunId]
    exact (h.finishLe c).trans hposts.le
  · rw [hresumes.blockCbRunId]
    exact (h.blockLe c).trans hposts.le
  · rw [hresumes.finishCbRunId] at hid
    rcases hmem t ht with ht | ht
    · exact h.ownFinish t ht c hid
    · exact absurd hid ((h.finishLe c).trans_lt (hposts.above t ht).1).ne'
  · rw [hresumes.blockCbRunId] at hid
    rcases hmem t ht with ht | ht
    · exact h.ownBlock t ht c hid
    · exact absurd hid ((h.blockLe c).trans_lt (hposts.above t ht).1).ne'
  · rw [hresumes.finishCbRunId, hresumes.finished]
    rcases hmem t ht with ht | ht
    · exact h.finished t ht c hof
    · obtain ⟨m, func, hcall, -⟩ := hfrom t ht
      rw [hcall] at hof
      cases hof
  · rcases hmem t ht with ht | ht
    · exact h.serial t ht m hof
    · obtain ⟨d, func, hcall, hserial, -⟩ := hfrom t ht
      rw [hcall] at hof
      exact of_decide_eq_true hof ▸ hserial

theorem clears (h : Tagged F w) (hclears : Clears F w w') : Tagged F w' := by
  have hmem : ∀ t ∈ w'.queue, t ∈ w.queue := fun t ht => hclears.sublist.mem ht
  have halloc := hclears.runNextIdAlloc
  refine ⟨h.sorted.sublist hclears.sublist, fun t ht => halloc ▸ h.le t (hmem t ht),
    fun t ht => h.ne_zero t (hmem t ht), fun c => ?_, fun c => ?_, fun t ht c hid => ?_,
    fun t ht c hid => ?_, fun t ht c hof => ?_, fun t ht => h.serial t (hmem t ht)⟩
  · rcases hclears.fields c with heq | ⟨-, -, hzero, -⟩
    · rw [heq, halloc]
      exact h.finishLe c
    · rw [hzero]
      exact Nat.zero_le _
  · rcases hclears.fields c with heq | ⟨-, -, -, hzero, -⟩
    · rw [heq, halloc]
      exact h.blockLe c
    · rw [hzero]
      exact Nat.zero_le _
  · rcases hclears.fields c with heq | ⟨-, -, hzero, -⟩
    · exact h.ownFinish t (hmem t ht) c (heq ▸ hid)
    · exact absurd (hid.trans hzero) (h.ne_zero t (hmem t ht))
  · rcases hclears.fields c with heq | ⟨-, -, -, hzero, -⟩
    · exact h.ownBlock t (hmem t ht) c (heq ▸ hid)
    · exact absurd (hid.trans hzero) (h.ne_zero t (hmem t ht))
  obtain ⟨hfin, hid⟩ := h.finished t (hmem t ht) c hof
  rcases hclears.fields c with heq | ⟨hne, hidle, -⟩
  · rw [World.state, heq]
    exact ⟨hfin, hid⟩
  · exact absurd hid (hclears.gone c hne hidle t ht (h.ne_zero t (hmem t ht))).1

theorem modify (h : Tagged F w) {f : Fields → Fields}
    (hfin : (f (w.fields n)).finishCbRunId = (w.fields n).finishCbRunId)
    (hblk : (f (w.fields n)).blockCbRunId = (w.fields n).blockCbRunId)
    (hstate : (f (w.fields n)).state = w.state n ∨ w.state n ≠ .finished) :
    Tagged F (w.modify n f) where
  sorted := h.sorted
  le := h.le
  ne_zero := h.ne_zero
  finishLe c := by
    rw [World.modify_apply Fields.finishCbRunId f hfin]
    exact h.finishLe c
  blockLe c := by
    rw [World.modify_apply Fields.blockCbRunId f hblk]
    exact h.blockLe c
  ownFinish t ht c := by
    rw [World.modify_apply Fields.finishCbRunId f hfin]
    exact h.ownFinish t ht c
  ownBlock t ht c := by
    rw [World.modify_apply Fields.blockCbRunId f hblk]
    exact h.ownBlock t ht c
  finished t ht c hof := by
    obtain ⟨hfinished, hid⟩ := h.finished t ht c hof
    rw [World.modify_apply Fields.finishCbRunId f hfin]
    refine ⟨?_, hid⟩
    by_cases hcn : c = n
    · subst hcn
      rcases hstate with hsame | hlive
      · rw [World.state_modify_self, hsame]
        exact hfinished
      · exact absurd hfinished hlive
    · rw [World.state_modify_of_ne hcn]
      exact hfinished
  serial := h.serial

theorem none_of_live (h : Tagged F w) (hlive : w.state n ≠ .finished) :
    ∀ t ∈ w.queue, ¬t.call.isFinishOf n := fun t ht hof => hlive (h.finished t ht n hof).1

theorem reports {call : Call} {fin blk : RunId} (h : Tagged F w)
    (hreports : Reports F n call fin blk w w') (hcall : ∀ m, call.isFuncOf m = false)
    (hfin : fin = (w.fields n).finishCbRunId ∨ F.hasCallback n ∧ fin = w.runNextIdAlloc + 2 ∧ call.isFinishOf n)
    (hblk : blk = (w.fields n).blockCbRunId ∨ F.hasCallback n ∧ blk = w.runNextIdAlloc + 2 ∧ call.isBlockOf n)
    (hfinish : ∀ c, call.isFinishOf c → c = n ∧ w.state n = .finished ∧
      (F.hasCallback n → fin = w.runNextIdAlloc + 2) ∧ ∀ t ∈ w.queue, ¬t.call.isFinishOf n) : Tagged F w' := by
  have hposts := hreports.posts
  have hmem : ∀ t ∈ w'.queue, t ∈ w.queue ∨
      F.hasCallback n ∧ t = ⟨w.runNextIdAlloc + 2, call⟩ := by
    intro t ht
    rw [hposts.queue] at ht
    rcases mem_append.mp ht with ht | ht
    · exact .inl ht
    · split at ht
      · next hcb => exact .inr ⟨hcb, mem_singleton.mp ht⟩
      · exact absurd ht not_mem_nil
  have hnew : F.hasCallback n → w.runNextIdAlloc + 2 ≤ w'.runNextIdAlloc := by
    intro hcb
    rw [if_pos hcb] at hposts
    exact (hposts.above _ (mem_singleton.mpr rfl)).2
  have hfields : ∀ c, c ≠ n → w'.fields c = w.fields c := hreports.fields_of_ne
  have hrecordFin : ∀ c, (w'.fields c).finishCbRunId = (w.fields c).finishCbRunId ∨
      c = n ∧ F.hasCallback n ∧ (w'.fields c).finishCbRunId = w.runNextIdAlloc + 2 ∧ call.isFinishOf n := by
    intro c
    by_cases hcn : c = n
    · subst hcn
      rw [hreports.finishCbRunId]
      exact hfin.imp id fun h => ⟨rfl, h⟩
    · exact .inl (by rw [hfields c hcn])
  have hrecordBlk : ∀ c, (w'.fields c).blockCbRunId = (w.fields c).blockCbRunId ∨
      c = n ∧ F.hasCallback n ∧ (w'.fields c).blockCbRunId = w.runNextIdAlloc + 2 ∧ call.isBlockOf n := by
    intro c
    by_cases hcn : c = n
    · subst hcn
      rw [hreports.blockCbRunId]
      exact hblk.imp id fun h => ⟨rfl, h⟩
    · exact .inl (by rw [hfields c hcn])
  refine ⟨hposts.queue ▸ h.sorted_append hposts, fun t ht => ?_, fun t ht => ?_, fun c => ?_,
    fun c => ?_, fun t ht c hid => ?_, fun t ht c hid => ?_, fun t ht c hof => ?_,
    fun t ht m hof => ?_⟩
  · rcases hmem t ht with ht | ⟨hcb, rfl⟩
    · exact (h.le t ht).trans hposts.le
    · exact hnew hcb
  · rcases hmem t ht with ht | ⟨-, rfl⟩
    · exact h.ne_zero t ht
    · exact Nat.succ_ne_zero _
  · rcases hrecordFin c with heq | ⟨-, hcb, heq, -⟩
    · rw [heq]
      exact (h.finishLe c).trans hposts.le
    · rw [heq]
      exact hnew hcb
  · rcases hrecordBlk c with heq | ⟨-, hcb, heq, -⟩
    · rw [heq]
      exact (h.blockLe c).trans hposts.le
    · rw [heq]
      exact hnew hcb
  · rcases hmem t ht with ht | ⟨-, rfl⟩
    · rcases hrecordFin c with heq | ⟨-, -, heq, -⟩
      · exact h.ownFinish t ht c (hid.trans heq)
      · have hle := h.le t ht
        rw [hid, heq] at hle
        simp at hle
    · rcases hrecordFin c with heq | ⟨rfl, -, -, hof⟩
      · have hle := h.finishLe c
        rw [← heq, ← hid] at hle
        simp at hle
      · exact hof
  · rcases hmem t ht with ht | ⟨-, rfl⟩
    · rcases hrecordBlk c with heq | ⟨-, -, heq, -⟩
      · exact h.ownBlock t ht c (hid.trans heq)
      · have hle := h.le t ht
        rw [hid, heq] at hle
        simp at hle
    · rcases hrecordBlk c with heq | ⟨rfl, -, -, hof⟩
      · have hle := h.blockLe c
        rw [← heq, ← hid] at hle
        simp at hle
      · exact hof
  · rw [hreports.state]
    rcases hmem t ht with ht | ⟨hcb, rfl⟩
    · obtain ⟨hfinished, hid⟩ := h.finished t ht c hof
      refine ⟨hfinished, ?_⟩
      rcases hrecordFin c with heq | ⟨rfl, -, -, hcallOf⟩
      · rw [heq]
        exact hid
      · exact absurd hof ((hfinish c hcallOf).2.2.2 t ht)
    · obtain ⟨rfl, hfinished, hnewFin, -⟩ := hfinish c hof
      refine ⟨hfinished, ?_⟩
      rw [hreports.finishCbRunId]
      exact (hnewFin hcb).symm
  · rcases hmem t ht with ht | ⟨-, rfl⟩
    · exact h.serial t ht m hof
    · rw [hcall] at hof
      cases hof

theorem reportsFinish {isSucc : Bool} {why : Reason} (h : Tagged F w) (hreports : Reports F n (.finished n isSucc why)
      (if F.hasCallback n then w.runNextIdAlloc + 2 else (w.fields n).finishCbRunId) (w.fields n).blockCbRunId w w')
    (hfinished : w.state n = .finished) (hnone : ∀ t ∈ w.queue, ¬t.call.isFinishOf n) : Tagged F w' := by
  have hof : Call.isFinishOf n (.finished n isSucc why) := decide_eq_true rfl
  refine h.reports hreports (fun _ => rfl) ?_ (.inl rfl) fun c hc => ?_
  · by_cases hcb : F.hasCallback n
    · exact .inr ⟨hcb, if_pos hcb, hof⟩
    · exact .inl (if_neg hcb)
  · exact ⟨(of_decide_eq_true hc).symm, hfinished, fun hcb => if_pos hcb, hnone⟩

theorem reportsBlock {why : Reason} (h : Tagged F w)
    (hreports : Reports F n (.blocked n why) (w.fields n).finishCbRunId
      (if F.hasCallback n then w.runNextIdAlloc + 2 else (w.fields n).blockCbRunId) w w') : Tagged F w' := by
  have hof : Call.isBlockOf n (.blocked n why) := decide_eq_true rfl
  refine h.reports hreports (fun _ => rfl) (.inl rfl) ?_ fun c hc => by cases hc
  by_cases hcb : F.hasCallback n
  · exact .inr ⟨hcb, if_pos hcb, hof⟩
  · exact .inl (if_neg hcb)

theorem dequeue {posted : Posted} {rest : List Posted} (h : Tagged F w)
    (hqueue : w.queue = posted :: rest) : Tagged F { w with queue := rest } := by
  have hmem : ∀ t ∈ rest, t ∈ w.queue := by
    intro t ht
    rw [hqueue]
    exact mem_cons_of_mem posted ht
  have hsorted := h.sorted
  rw [hqueue] at hsorted
  exact ⟨hsorted.of_cons, fun t ht => h.le t (hmem t ht), fun t ht => h.ne_zero t (hmem t ht),
    h.finishLe, h.blockLe, fun t ht => h.ownFinish t (hmem t ht),
    fun t ht => h.ownBlock t (hmem t ht), fun t ht => h.finished t (hmem t ht),
    fun t ht => h.serial t (hmem t ht)⟩

end Tagged

/-- The current action is a child, the numbers are in order, and the actions in `busy` are in the middle of starting. -/
structure Sane (F : Forest) (busy : ActionId → Prop) (w : World) : Prop where
  linked : Linked F w
  tagged : Tagged F w
  blank : ∀ n, ¬busy n → F.assembly n = .parallel → w.state n = .idle →
    (w.fields n).finishedChildren = []

namespace Sane

variable {busy : ActionId → Prop}

theorem slows (h : Sane F busy w) (hslows : Slows w w') : Sane F busy w' where
  linked := hslows.linked h.linked
  tagged := h.tagged.slows hslows
  blank m hm hpar hidle := by
    rw [hslows.finishedChildren]
    exact h.blank m hm hpar ((hslows.idle m).mp hidle)

theorem resumes (h : Sane F busy w) (hresumes : Resumes F w w') : Sane F busy w' where
  linked := hresumes.linked h.linked
  tagged := h.tagged.resumes hresumes
  blank m hm hpar hidle := by
    rw [hresumes.finishedChildren]
    exact h.blank m hm hpar ((hresumes.idle m).mp hidle)

theorem clears (h : Sane F busy w) (hclears : Clears F w w') : Sane F busy w' where
  linked := hclears.linked h.linked
  tagged := h.tagged.clears hclears
  blank m hm hpar hidle := by
    rcases hclears.fields m with heq | ⟨-, -, -, -, -, -, hblank⟩
    · rw [World.state, heq] at hidle
      rw [heq]
      exact h.blank m hm hpar hidle
    · exact hblank hpar

theorem reports {call : Call} {fin blk : RunId} (h : Sane F busy w)
    (hreports : Reports F n call fin blk w w') (htagged : Tagged F w') : Sane F busy w' where
  linked m c hc := h.linked m c (hreports.currAction m ▸ hc)
  tagged := htagged
  blank m hm hpar hidle := by
    rw [hreports.finishedChildren]
    exact h.blank m hm hpar (hreports.state m ▸ hidle)

theorem modify {f : Fields → Fields} (h : Sane F busy w)
    (hcurr : ∀ c, (f (w.fields n)).currAction = some c → F.parent c = some n)
    (hfin : (f (w.fields n)).finishCbRunId = (w.fields n).finishCbRunId)
    (hblk : (f (w.fields n)).blockCbRunId = (w.fields n).blockCbRunId)
    (hstate : (f (w.fields n)).state = w.state n ∨ w.state n ≠ .finished)
    (hblank : ¬busy n → F.assembly n = .parallel → (f (w.fields n)).state = .idle →
      (f (w.fields n)).finishedChildren = []) : Sane F busy (w.modify n f) where
  linked m c hc := by
    by_cases hm : m = n
    · subst hm
      rw [World.modify_fields_self] at hc
      exact hcurr c hc
    · rw [World.modify_fields_of_ne hm] at hc
      exact h.linked m c hc
  tagged := h.tagged.modify hfin hblk hstate
  blank m hm hpar hidle := by
    by_cases hmn : m = n
    · subst hmn
      rw [World.state_modify_self] at hidle
      rw [World.modify_fields_self]
      exact hblank hm hpar hidle
    · rw [World.modify_fields_of_ne hmn]
      rw [World.state_modify_of_ne hmn] at hidle
      exact h.blank m hm hpar hidle

theorem modify_same {f : Fields → Fields} (h : Sane F busy w)
    (hcurr : ∀ c, (f (w.fields n)).currAction = some c → F.parent c = some n)
    (hfin : (f (w.fields n)).finishCbRunId = (w.fields n).finishCbRunId)
    (hblk : (f (w.fields n)).blockCbRunId = (w.fields n).blockCbRunId)
    (hstate : (f (w.fields n)).state = (w.fields n).state)
    (hrecord : (f (w.fields n)).finishedChildren = (w.fields n).finishedChildren) : Sane F busy (w.modify n f) := by
  refine h.modify hcurr hfin hblk (.inl hstate) fun hn hpar hidle => ?_
  rw [hrecord]
  exact h.blank n hn hpar (hstate.symm.trans hidle)

theorem noted (h : Sane F busy w) (hbusy : busy n) (index : Nat) (isSucc : Bool) :
    Sane F busy (w.modify n fun a => a.setFinished index isSucc) :=
  h.modify (h.linked n) rfl rfl (.inl rfl) fun hn => absurd hbusy hn

theorem modify_state {f : Fields → Fields} (h : Sane F busy w)
    (hcurr : (f (w.fields n)).currAction = (w.fields n).currAction)
    (hfin : (f (w.fields n)).finishCbRunId = (w.fields n).finishCbRunId)
    (hblk : (f (w.fields n)).blockCbRunId = (w.fields n).blockCbRunId)
    (hfrom : w.state n ≠ .finished) (hto : (f (w.fields n)).state ≠ .idle) : Sane F busy (w.modify n f) :=
  h.modify (fun c hc => h.linked n c (hcurr ▸ hc)) hfin hblk (.inr hfrom)
    fun _ _ hidle => absurd hidle hto

theorem mono {busy' : ActionId → Prop} (h : Sane F busy w) (hbusy : ∀ m, busy m → busy' m) : Sane F busy' w :=
  ⟨h.linked, h.tagged, fun m hm => h.blank m fun hb => hm (hbusy m hb)⟩

theorem done (h : Sane F (fun m => busy m ∨ m = n) w) (hn : w.state n ≠ .idle) :
    Sane F busy w where
  linked := h.linked
  tagged := h.tagged
  blank m hm hpar hidle := by
    refine h.blank m (not_or.mpr ⟨hm, ?_⟩) hpar hidle
    rintro rfl
    exact hn hidle

theorem dequeue {posted : Posted} {rest : List Posted} (h : Sane F busy w)
    (hqueue : w.queue = posted :: rest) : Sane F busy { w with queue := rest } :=
  ⟨h.linked, h.tagged.dequeue hqueue, h.blank⟩

end Sane

theorem Local.of_reports {call : Call} {fin blk : RunId} (h : Reports F n call fin blk w w') : Local F n w w' := by
  intro m hm
  refine h.fields_of_ne m ?_
  rintro rfl
  exact hm (Lib.Below.refl m)

def Framed (F : Forest) (busy : ActionId → Prop) (n : ActionId) (w w' : World) : Prop :=
  Local F n w w' ∧ Sane F busy w'

section Framed

variable {busy : ActionId → Prop}

theorem Framed.refl (h : Sane F busy w) : Framed F busy n w w := ⟨.refl w, h⟩

theorem Framed.trans {w'' : World} (h : Framed F busy n w w') (h' : Framed F busy n w' w'') : Framed F busy n w w'' :=
  ⟨h.1.trans h'.1, h'.2⟩

theorem Framed.of_child (h : Framed F busy c w w') (hc : F.parent c = some n) : Framed F busy n w w' :=
  ⟨h.1.of_child hc, h.2⟩

def FramesChildren (F : Forest) (busy : ActionId → Prop) (n : ActionId)
    (startChild : ActionId → World → Bool × World) : Prop :=
  ∀ c, F.parent c = some n → ∀ v, Sane F busy v → Framed F busy c v (startChild c v).2

namespace Forest

theorem framed_finish (isSucc : Bool) (why : Reason) (h : Sane F busy w) :
    Framed F busy n w (F.finish n isSucc why w) := by
  rcases finish_cases h.linked isSucc why with ⟨-, heq⟩ | ⟨hlive, hslows, hlocal, heq⟩
  · rw [heq]
    exact .refl h
  rw [heq]
  have hended : Sane F busy (w.modify n fun a => { a with state := .finished }.disableTimer) :=
    h.modify_state rfl rfl rfl hlive.1 nofun
  have hending := hended.slows hslows
  have hfinished : (F.ending n w).state n = .finished := by
    rw [hslows.finished, World.state_modify_self]
    rfl
  have hnone : ∀ t ∈ (F.ending n w).queue, ¬t.call.isFinishOf n := by
    rw [hslows.queue]
    exact h.tagged.none_of_live hlive.1
  obtain ⟨hreports, -⟩ := reports_dispatchFinish (F := F) (w := F.ending n w) (n := n) isSucc why
  exact ⟨hlocal.trans (.of_reports hreports),
    hending.reports hreports (hending.tagged.reportsFinish hreports hfinished hnone)⟩

theorem framed_block (h : Sane F busy w) : Framed F busy n w (F.block n why w) := by
  rcases block_cases (F := F) (w := w) (n := n) why with ⟨-, heq⟩ | ⟨hlive, heq⟩
  · rw [heq]
    exact .refl h
  rw [heq]
  have hpaused : Sane F busy (w.modify n fun a => { a with state := .pause }) :=
    h.modify_state rfl rfl rfl hlive.1 nofun
  have hreports := reports_onBlock (F := F) (n := n) (w := w.modify n fun a => { a with state := .pause }) why
  exact ⟨(Local.modify _).trans (.of_reports hreports),
    hpaused.reports hreports (hpaused.tagged.reportsBlock hreports)⟩

theorem framed_stop (h : Sane F busy w) (hn : n < depth) : Framed F busy n w (F.stop depth n w) :=
  ⟨local_stop h.linked hn, h.slows (slows_stop h.linked hn)⟩

theorem framed_reset (h : Sane F busy w) (hn : n < depth) : Framed F busy n w (F.reset depth n w) :=
  ⟨local_reset hn, h.clears (clears_reset hn)⟩

theorem framed_resets {resets : List ActionId} (hresets : ∀ r ∈ resets, F.parent r = some n)
    (h : Sane F busy w) : Framed F busy n w (World.forEach (F.reset n) resets w) := by
  refine World.forEach_induction (P := fun v => Framed F busy n w v) ?_ (.refl h)
  intro r hr v hv
  exact hv.trans ((framed_reset hv.2 (F.child_lt n r (hresets r hr))).of_child (hresets r hr))

theorem framed_stopAllActions (h : Sane F busy w) : Framed F busy n w (F.stopAllActions n w) := by
  refine World.forEach_induction (P := fun v => Framed F busy n w v) ?_ (.refl h)
  intro c hc v hv
  exact hv.trans ((framed_stop hv.2 (lt_of_mem hc)).of_child (parent_of_mem hc))

section Start

variable {startChild : ActionId → World → Bool × World}

theorem startThisAction_fst : (startThisAction startChild n c w).1 = (startChild c w).1 := by
  unfold startThisAction
  dsimp only
  cases (startChild c w).1 <;> rfl

theorem startThisAction_of_false (h : (startChild c w).1 = false) :
    (startThisAction startChild n c w).2 = (startChild c w).2 := by
  unfold startThisAction
  dsimp only
  rw [h]
  rfl

theorem framed_startThisAction (hstart : FramesChildren F busy n startChild)
    (hc : F.parent c = some n) (h : Sane F busy w) : Framed F busy n w (startThisAction startChild n c w).2 := by
  have hframed := (hstart c hc w h).of_child hc
  unfold startThisAction
  dsimp only
  split
  · dsimp only
    refine hframed.trans ⟨.modify _, hframed.2.modify_same ?_ rfl rfl rfl rfl⟩
    intro d hd
    exact some.inj hd ▸ hc
  · exact hframed

theorem framed_counters {next : Fields × Next}
    (hnext : Advances (F.children n) (w.fields n) next) (h : Sane F busy w) :
    Framed F busy n w (w.modify n fun _ => next.1) := by
  obtain ⟨⟨i, r, hfields⟩, -⟩ := hnext
  refine ⟨.modify _, h.modify_same (fun c hc => ?_) ?_ ?_ ?_ ?_⟩
  · rw [hfields] at hc
    exact h.linked n c hc
  all_goals rw [hfields]

theorem framed_proceed (hstart : FramesChildren F busy n startChild) {next : Fields × Next}
    (hnext : Advances (F.children n) (w.fields n) next) (h : Sane F busy w) :
    Framed F busy n w (F.proceed startChild n next w) := by
  have hown := framed_counters hnext h
  unfold proceed
  dsimp only
  generalize (w.modify n fun _ => next.1) = v at *
  split
  · exact hown.trans (framed_finish _ _ hown.2)
  · exact hown
  next resets child ifFails heq =>
    obtain ⟨hchild, hresets⟩ := hnext.within resets child ifFails heq
    have hcleared := hown.trans (framed_resets (fun r hr => parent_of_mem (hresets r hr)) hown.2)
    have hstarted := hcleared.trans (framed_startThisAction hstart (parent_of_mem hchild) hcleared.2)
    split
    · exact hstarted.trans (framed_finish _ _ hstarted.2)
    · exact hstarted

theorem framed_startChildren (hstart : FramesChildren F busy n startChild) (hbusy : busy n)
    (mode : Mode) {children : List (ActionId × Nat)}
    (hchildren : ∀ item ∈ children, item.1 ∈ F.children n) (h : Sane F busy w) :
    Framed F busy n w (F.startChildren startChild n mode children w).2 := by
  induction children generalizing w with
  | nil => exact .refl h
  | cons item rest ih =>
    obtain ⟨child, index⟩ := item
    have hrest : ∀ item ∈ rest, item.1 ∈ F.children n := fun item hitem => hchildren item (mem_cons_of_mem _ hitem)
    have hchild : F.parent child = some n := parent_of_mem (hchildren _ mem_cons_self)
    have hframed := (hstart child hchild w h).of_child hchild
    rw [startChildren]
    split
    · exact hframed.trans (ih hrest hframed.2)
    have hnoted : Framed F busy n w
        ((startChild child w).2.modify n fun a => a.setFinished index false) :=
      hframed.trans ⟨.modify _, hframed.2.noted hbusy index false⟩
    split
    · have hfinished := hnoted.trans (framed_finish true {} hnoted.2)
      exact hfinished.trans (framed_stopAllActions hfinished.2)
    · exact hnoted.trans (ih hrest hnoted.2)

theorem framed_onStart (hstart : FramesChildren F busy n startChild) (hbusy : busy n)
    (h : Sane F busy w) : Framed F busy n w (F.onStart startChild leaves n w) := by
  unfold onStart
  split
  · have hrecord : Framed F busy n w (w.record (.started n)) :=
      ⟨.of_fields rfl, h.slows (.record (.started n))⟩
    split
    · exact hrecord
    · exact hrecord.trans (framed_finish _ _ hrecord.2)
    · exact hrecord.trans (framed_block hrecord.2)
  · next mode children hkind =>
      have hleft := framed_startChildren hstart hbusy mode (mem_children_of_parallel hkind) h
      unfold Parallel.onStart
      dsimp only
      split
      · exact hleft
      · split
        · exact hleft.trans (framed_finish _ _ hleft.2)
        · exact hleft
  · exact framed_proceed hstart (Kind.advances_onStart _ _) h

end Start

theorem framed_start (h : Sane F busy w) : Framed F busy n w (F.start leaves depth n w).2 := by
  induction depth generalizing busy n w with
  | zero => exact .refl h
  | succ depth ih =>
    have hbusy : Sane F (fun m => busy m ∨ m = n) w := h.mono fun m hm => .inl hm
    have honStart : Framed F (fun m => busy m ∨ m = n) n w
        (F.onStart (F.start leaves depth) leaves n w) :=
      framed_onStart (fun c _ v hv => ih hv) (.inr rfl) hbusy
    rw [start]
    split
    · exact .refl h
    · dsimp only
      split
      · next hvidle =>
          dsimp only
          refine ⟨honStart.1.trans (.modify _), Sane.done (honStart.2.modify_state rfl rfl rfl
            (by rw [hvidle]; nofun) nofun) ?_⟩
          rw [World.state_modify_self]
          nofun
      · next hne => exact ⟨honStart.1, honStart.2.done hne⟩
    · exact .refl h

theorem framesChildren_start : FramesChildren F busy n (F.start leaves depth) := fun _ _ _ hv => framed_start hv

theorem framed_forget (h : Sane F busy w) : Framed F busy n w (w.modify n fun a => { a with currAction := none }) :=
  ⟨.modify _, h.modify_same (fun _ hc => by cases hc) rfl rfl rfl rfl⟩

theorem framed_handleChildFinish (c : ActionId) (isSucc : Bool) (why : Reason)
    (h : Sane F busy w) : Framed F busy n w (F.handleChildFinish leaves n c isSucc why w) := by
  have hforget := framed_forget (n := n) h
  unfold handleChildFinish
  dsimp only
  generalize (w.modify n fun a => { a with currAction := none }) = v at *
  split
  · exact hforget.trans
      (framed_proceed framesChildren_start (Kind.advances_onChildFinished ..) hforget.2)
  · exact hforget.trans ⟨.modify _, hforget.2.modify_same (hforget.2.linked n) rfl rfl rfl rfl⟩
  · exact hforget

theorem framed_onChildFinished_parallel (mode : Mode) (children : List ActionId) (index : Nat)
    (isSucc : Bool) (h : Sane F busy w) :
    Framed F busy n w (Parallel.onChildFinished F n mode children index isSucc w) := by
  unfold Parallel.onChildFinished
  split
  · next hrunning =>
      have hnoted : Framed F busy n w (w.modify n fun a => a.setFinished index isSucc) := by
        refine ⟨.modify _, h.modify_state rfl rfl rfl ?_ ?_⟩
        · rw [hrunning]
          nofun
        · have hstate : (w.fields n).state = .running := hrunning
          simp [Fields.setFinished, hstate]
      dsimp only
      split
      · have hstopped := hnoted.trans (framed_stopAllActions hnoted.2)
        exact hstopped.trans (framed_finish _ _ hstopped.2)
      · split
        · exact hnoted.trans (framed_finish _ _ hnoted.2)
        · exact hnoted
  · exact .refl h

theorem slows_pauseAllActions : Slows w (F.pauseAllActions n w) :=
  World.forEach_induction (P := fun v => Slows w v)
    (fun _ _ _ hv => hv.trans pause_spec.1) (.refl w)

theorem sane_onChildBlocked (h : Sane F busy w) : Sane F busy (F.onChildBlocked n why w) := by
  unfold onChildBlocked
  split
  · unfold Parallel.onChildBlocked
    split
    · exact (framed_block (h.slows slows_pauseAllActions)).2
    · exact h
  · exact (framed_block h).2

theorem sane_invoke (call : Call) (h : Sane F busy w) : Sane F busy (F.invoke leaves call w) := by
  unfold invoke
  split
  · split
    · unfold onChildFinished
      split
      · exact (framed_onChildFinished_parallel _ _ _ _ h).2
      · exact (framed_handleChildFinish _ _ _ h).2
    · exact h
  · split
    · exact sane_onChildBlocked h
    · exact h
  · exact (framed_handleChildFinish _ _ _ h).2
  · exact (framed_finish _ _ h).2

end Forest

end Framed

def nobody : ActionId → Prop := fun _ => False

theorem tagged_init : Tagged F {} where
  sorted := .nil
  le _ ht := absurd ht not_mem_nil
  ne_zero _ ht := absurd ht not_mem_nil
  finishLe _ := Nat.zero_le _
  blockLe _ := Nat.zero_le _
  ownFinish _ ht := absurd ht not_mem_nil
  ownBlock _ ht := absurd ht not_mem_nil
  finished _ ht := absurd ht not_mem_nil
  serial _ ht := absurd ht not_mem_nil

theorem sane_init : Sane F nobody {} := ⟨nofun, tagged_init, fun _ _ _ _ => rfl⟩

/-- Whatever the actions do to each other, they stay sane. -/
theorem sane_step {input : Input} (h : Sane F nobody w) (hstep : F.step w input = some w') : Sane F nobody w' := by
  obtain ⟨op, leaves⟩ := input
  cases op with
  | start n => exact some.inj hstep ▸ (Forest.framed_start h).2
  | pause n => exact some.inj hstep ▸ h.slows Forest.pause_spec.1
  | resume n => exact some.inj hstep ▸ h.resumes Forest.resumes_resume
  | stop n => exact some.inj hstep ▸ (Forest.framed_stop h (Nat.lt_succ_self n)).2
  | reset n => exact some.inj hstep ▸ (Forest.framed_reset h (Nat.lt_succ_self n)).2
  | finish n isSucc why => exact some.inj hstep ▸ (Forest.framed_finish _ _ h).2
  | block n why => exact some.inj hstep ▸ (Forest.framed_block h).2
  | setTimeout n => exact some.inj hstep ▸ h.modify_same (h.linked n) rfl rfl rfl rfl
  | resetTimeout n => exact some.inj hstep ▸ h.modify_same (h.linked n) rfl rfl rfl rfl
  | timeout n =>
    obtain ⟨-, heq⟩ := ite_none_right_eq_some.mp hstep
    have hdisabled : Sane F nobody (w.modify n Fields.disableTimer) := h.modify_same (h.linked n) rfl rfl rfl rfl
    exact some.inj heq ▸ (Forest.framed_finish _ _ hdisabled).2
  | deliver =>
    unfold Forest.step at hstep
    dsimp only at hstep
    split at hstep
    · next posted rest hqueue =>
        exact some.inj hstep ▸ Forest.sane_invoke _ (h.dequeue hqueue)
    · cases hstep

end Tbox.Flow.Action
