import Tbox.Lib.ListFacts
import Tbox.Flow.Action
import Tbox.Lib.Ancestry

/-!
# What the functions of an action change

Each function is described once, as a relation between the world before and after. Stopping and pausing leave the loop
alone; resuming hands what was kept to the loop; resetting takes back what was posted.
-/

open List

namespace Tbox.Flow.Action

variable {F : Forest} {w w' w'' : World} {n m c p : ActionId} {depth : Nat}

namespace World

@[simp]
theorem modify_fields_self (f : Fields → Fields) : (w.modify n f).fields n = f (w.fields n) := Function.update_self ..

theorem modify_fields_of_ne (h : m ≠ n) (f : Fields → Fields) : (w.modify n f).fields m = w.fields m :=
  Function.update_of_ne h ..

theorem modify_apply {α : Sort*} (g : Fields → α) (f : Fields → Fields)
    (h : g (f (w.fields n)) = g (w.fields n)) (m : ActionId) : g ((w.modify n f).fields m) = g (w.fields m) := by
  by_cases hm : m = n
  · rw [hm, modify_fields_self, h]
  · rw [modify_fields_of_ne hm]

theorem apply_of_ne {α : Sort*} (hne : ∀ m, m ≠ n → w'.fields m = w.fields m) (g : Fields → α)
    (h : g (w'.fields n) = g (w.fields n)) (m : ActionId) : g (w'.fields m) = g (w.fields m) := by
  by_cases hm : m = n
  · rw [hm, h]
  · rw [hne m hm]

@[simp]
theorem modify_queue (f : Fields → Fields) : (w.modify n f).queue = w.queue := rfl

@[simp]
theorem modify_runNextIdAlloc (f : Fields → Fields) : (w.modify n f).runNextIdAlloc = w.runNextIdAlloc := rfl

@[simp]
theorem runNext_fields (call : Call) : (w.runNext call).fields = w.fields := rfl

@[simp]
theorem record_fields (event : Event) : (w.record event).fields = w.fields := rfl

@[simp]
theorem record_queue (event : Event) : (w.record event).queue = w.queue := rfl

@[simp]
theorem record_runNextIdAlloc (event : Event) : (w.record event).runNextIdAlloc = w.runNextIdAlloc := rfl

theorem state_modify_self (f : Fields → Fields) : (w.modify n f).state n = (f (w.fields n)).state := by
  rw [state, modify_fields_self]

theorem state_modify_of_ne (h : m ≠ n) (f : Fields → Fields) : (w.modify n f).state m = w.state m := by
  rw [state, state, modify_fields_of_ne h]

theorem state_modify (f : Fields → Fields) (h : (f (w.fields n)).state = w.state n)
    (m : ActionId) : (w.modify n f).state m = w.state m :=
  modify_apply Fields.state f h m

theorem forEach_induction {P : World → Prop} {f : ActionId → World → World} {cs : List ActionId}
    (hstep : ∀ c ∈ cs, ∀ w, P w → P (f c w)) (hinit : P w) : P (forEach f cs w) := by
  induction cs generalizing w with
  | nil => exact hinit
  | cons c cs ih =>
    apply ih
    · exact fun d hd => hstep d (mem_cons_of_mem c hd)
    · exact hstep c mem_cons_self w hinit

theorem forEach_establishes {P : World → Prop} {Q : ActionId → World → Prop}
    {f : ActionId → World → World} {cs : List ActionId} (hstep : ∀ c ∈ cs, ∀ w, P w → P (f c w))
    (hself : ∀ c ∈ cs, ∀ w, P w → Q c (f c w))
    (hkeep : ∀ c ∈ cs, ∀ d ∈ cs, ∀ w, P w → Q c w → Q c (f d w)) (hinit : P w) : ∀ c ∈ cs, Q c (forEach f cs w) := by
  induction cs generalizing w with
  | nil => exact fun c hc => absurd hc not_mem_nil
  | cons d cs ih =>
    have hP := hstep d mem_cons_self w hinit
    have hlater : ∀ c ∈ cs, c ∈ d :: cs := fun c hc => mem_cons_of_mem d hc
    intro c hc
    rcases mem_cons.mp hc with rfl | hc
    · have hinv : P (forEach f cs (f c w)) ∧ Q c (forEach f cs (f c w)) := by
        refine forEach_induction (P := fun v => P v ∧ Q c v) ?_ ⟨hP, hself c mem_cons_self w hinit⟩
        rintro e he v ⟨hv, hq⟩
        exact ⟨hstep e (hlater e he) v hv, hkeep c mem_cons_self e (hlater e he) v hv hq⟩
      exact hinv.2
    · refine ih ?_ ?_ ?_ hP c hc
      · exact fun e he => hstep e (hlater e he)
      · exact fun e he => hself e (hlater e he)
      · exact fun e he e' he' => hkeep e (hlater e he) e' (hlater e' he')

end World

namespace Forest

/-- `m` is `n` or one of its descendants. -/
def Below (F : Forest) (n m : ActionId) : Prop := Lib.Below F.parent n m

theorem mem_children : c ∈ F.children n ↔ F.parent c = some n := F.mem_children_iff n c

theorem parent_of_mem (h : c ∈ F.children n) : F.parent c = some n := mem_children.mp h

theorem mem_children_of_parallel {mode : Mode} {children : List ActionId} (hkind : F.kind n = .parallel mode children) :
    ∀ item ∈ children.zipIdx, item.1 ∈ F.children n := by
  intro item hitem
  rw [Forest.children, hkind]
  exact fst_mem_of_mem_zipIdx hitem

theorem lt_of_mem (h : c ∈ F.children n) : c < n := F.child_lt n c (parent_of_mem h)

theorem child_lt_depth (hn : n < depth + 1) (hc : F.parent c = some n) : c < depth :=
  (F.child_lt n c hc).trans_le (Nat.le_of_lt_succ hn)

theorem parent_ne_of_none (h : F.assembly n = .none) : F.parent c ≠ some n := by
  intro hc
  have hmem : c ∈ (F.kind n).children := mem_children.mpr hc
  unfold assembly at h
  revert h hmem
  cases F.kind n <;> simp [Kind.assembly, Kind.children]

theorem rank_lt (c p : ActionId) (h : F.parent c = some p) : id c < id p := F.child_lt p c h

instance : Decidable (F.Below n m) :=
  decidable_of_iff (m ∈ Lib.subtree F.children (n + 1) n)
    (Lib.mem_subtree_iff (fun _ _ => mem_children) rank_lt (Nat.lt_succ_self n))

theorem mem_subtree : m ∈ Lib.subtree F.children (n + 1) n ↔ F.Below n m :=
  Lib.mem_subtree_iff (fun _ _ => mem_children) rank_lt (Nat.lt_succ_self n)

end Forest

def Forest.single (root : ActionId) (kind : Kind) (hlt : ∀ c ∈ kind.children, c < root)
    (hnodup : kind.children.Nodup) : Forest where
  kind n := if n = root then kind else .leaf
  parent c := if c ∈ kind.children then some root else none
  observed _ := false
  mem_children_iff p c := by
    by_cases hp : p = root
    · simp [hp]
    · have hnil : Kind.leaf.children = [] := rfl
      simp [hp, Ne.symm hp, hnil]
  nodup p := by
    by_cases hp : p = root
    · rw [if_pos hp]
      exact hnodup
    · rw [if_neg hp]
      exact .nil
  child_lt p c hc := by
    obtain ⟨hmem, hroot⟩ := Option.ite_none_right_eq_some.mp hc
    exact Option.some.inj hroot ▸ hlt c hmem

def Linked (F : Forest) (w : World) : Prop :=
  ∀ n c, (w.fields n).currAction = some c → F.parent c = some n

def Local (F : Forest) (n : ActionId) (w w' : World) : Prop :=
  ∀ m, ¬F.Below n m → w'.fields m = w.fields m

namespace Local

theorem refl (w : World) : Local F n w w := fun _ _ => rfl

theorem trans (h : Local F n w w') (h' : Local F n w' w'') : Local F n w w'' := fun m hm => (h' m hm).trans (h m hm)

theorem of_child (h : Local F c w w') (hc : F.parent c = some n) : Local F n w w' :=
  fun m hm => h m fun hcm => hm (Lib.Below.of_child hcm hc)

theorem modify (f : Fields → Fields) : Local F n w (w.modify n f) := by
  intro m hm
  refine World.modify_fields_of_ne ?_ f
  rintro rfl
  exact hm (Lib.Below.refl m)

theorem of_fields (h : w'.fields = w.fields) : Local F n w w' := fun _ _ => by rw [h]

theorem forEach {f : ActionId → World → World} {cs : List ActionId}
    (hcs : ∀ c ∈ cs, F.parent c = some n) (hstep : ∀ c ∈ cs, ∀ w, Local F c w (f c w)) :
    Local F n w (World.forEach f cs w) :=
  World.forEach_induction (P := fun v => Local F n w v)
    (fun c hc v hv => hv.trans ((hstep c hc v).of_child (hcs c hc))) (.refl w)

theorem parent (h : Local F c w w') (hc : F.parent c = some n) : w'.fields n = w.fields n :=
  h n (Lib.Below.not_parent Forest.rank_lt hc)

theorem sibling {d : ActionId} (h : Local F c w w') (hc : F.parent c = some n)
    (hd : F.parent d = some n) (hne : c ≠ d) (hm : F.Below d m) : w'.fields m = w.fields m :=
  h m fun hcm => hne (Lib.Below.eq_of_siblings Forest.rank_lt hc hd hcm hm)

end Local

structure Slows (w w' : World) : Prop where
  underway : ∀ m, (w'.state m).isUnderway → (w.state m).isUnderway
  idle : ∀ m, w'.state m = .idle ↔ w.state m = .idle
  finished : ∀ m, w'.state m = .finished ↔ w.state m = .finished
  currAction : ∀ m, (w'.fields m).currAction = (w.fields m).currAction ∨
    (w'.fields m).currAction = none ∧
      ∀ c, (w.fields m).currAction = some c → ¬(w'.state c).isUnderway
  childFinishFunc : ∀ m, (w'.fields m).childFinishFunc = (w.fields m).childFinishFunc ∨
    (w'.fields m).childFinishFunc = none
  finishCbRunId : ∀ m, (w'.fields m).finishCbRunId = (w.fields m).finishCbRunId
  blockCbRunId : ∀ m, (w'.fields m).blockCbRunId = (w.fields m).blockCbRunId
  finishedChildren : ∀ m, (w'.fields m).finishedChildren = (w.fields m).finishedChildren
  result : ∀ m, (w'.fields m).result = (w.fields m).result
  queue : w'.queue = w.queue
  runNextIdAlloc : w'.runNextIdAlloc = w.runNextIdAlloc

namespace Slows

theorem refl (w : World) : Slows w w where
  underway _ h := h
  idle _ := Iff.rfl
  finished _ := Iff.rfl
  currAction _ := .inl rfl
  childFinishFunc _ := .inl rfl
  finishCbRunId _ := rfl
  blockCbRunId _ := rfl
  finishedChildren _ := rfl
  result _ := rfl
  queue := rfl
  runNextIdAlloc := rfl

theorem trans (h : Slows w w') (h' : Slows w' w'') : Slows w w'' where
  underway m hm := h.underway m (h'.underway m hm)
  idle m := (h'.idle m).trans (h.idle m)
  finished m := (h'.finished m).trans (h.finished m)
  currAction m := by
    rcases h'.currAction m with heq' | ⟨hnone', hstop'⟩
    · rw [heq']
      rcases h.currAction m with heq | ⟨hnone, hstop⟩
      · exact .inl heq
      · exact .inr ⟨hnone, fun c hc hup => hstop c hc (h'.underway c hup)⟩
    · refine .inr ⟨hnone', fun c hc hup => ?_⟩
      rcases h.currAction m with heq | ⟨-, hstop⟩
      · exact hstop' c (heq.trans hc) hup
      · exact hstop c hc (h'.underway c hup)
  childFinishFunc m := by
    rcases h'.childFinishFunc m with heq' | hnone'
    · rw [heq']
      exact h.childFinishFunc m
    · exact .inr hnone'
  finishCbRunId m := (h'.finishCbRunId m).trans (h.finishCbRunId m)
  blockCbRunId m := (h'.blockCbRunId m).trans (h.blockCbRunId m)
  finishedChildren m := (h'.finishedChildren m).trans (h.finishedChildren m)
  result m := (h'.result m).trans (h.result m)
  queue := h'.queue.trans h.queue
  runNextIdAlloc := h'.runNextIdAlloc.trans h.runNextIdAlloc

theorem linked (h : Slows w w') (hlinked : Linked F w) : Linked F w' := by
  intro n c hc
  rcases h.currAction n with heq | ⟨hnone, -⟩
  · exact hlinked n c (heq ▸ hc)
  · rw [hnone] at hc
    cases hc

theorem record (event : Event) : Slows w (w.record event) := ⟨fun _ h => h, fun _ => Iff.rfl,
  fun _ => Iff.rfl, fun _ => .inl rfl, fun _ => .inl rfl, fun _ => rfl, fun _ => rfl, fun _ => rfl,
  fun _ => rfl, rfl, rfl⟩

theorem modify_state_eq_iff {f : Fields → Fields} {st : State}
    (hstate : (f (w.fields n)).state = w.state n ∨ (w.state n).isUnderway ∧
      ((f (w.fields n)).state = .pause ∨ (f (w.fields n)).state = .stoped))
    (hup : ¬st.isUnderway) (hst : ¬(st = .pause ∨ st = .stoped)) (m : ActionId) :
    (w.modify n f).state m = st ↔ w.state m = st := by
  by_cases heq : m = n
  · subst heq
    rw [World.state_modify_self]
    rcases hstate with hsame | ⟨hold, hnew⟩
    · rw [hsame]
    constructor
    · rintro rfl
      exact absurd hnew hst
    · rintro rfl
      exact absurd hold hup
  · rw [World.state_modify_of_ne heq]

theorem of_modify (f : Fields → Fields)
    (hstate : (f (w.fields n)).state = w.state n ∨ (w.state n).isUnderway ∧
      ((f (w.fields n)).state = .pause ∨ (f (w.fields n)).state = .stoped))
    (hcurr : (f (w.fields n)).currAction = (w.fields n).currAction)
    (hfunc : (f (w.fields n)).childFinishFunc = (w.fields n).childFinishFunc ∨
      (f (w.fields n)).childFinishFunc = none)
    (hfinish : (f (w.fields n)).finishCbRunId = (w.fields n).finishCbRunId)
    (hblock : (f (w.fields n)).blockCbRunId = (w.fields n).blockCbRunId)
    (hchildren : (f (w.fields n)).finishedChildren = (w.fields n).finishedChildren)
    (hresult : (f (w.fields n)).result = (w.fields n).result) :
    Slows w (w.modify n f) where
  underway m hm := by
    by_cases heq : m = n
    · subst heq
      rcases hstate with hsame | ⟨hup, -⟩
      · rwa [World.state_modify_self, hsame] at hm
      · exact hup
    · rwa [World.state_modify_of_ne heq] at hm
  idle := modify_state_eq_iff hstate nofun nofun
  finished := modify_state_eq_iff hstate nofun nofun
  currAction m := .inl (World.modify_apply Fields.currAction f hcurr m)
  childFinishFunc m := by
    by_cases heq : m = n
    · subst heq
      rw [World.modify_fields_self]
      exact hfunc
    · exact .inl (by rw [World.modify_fields_of_ne heq])
  finishCbRunId := World.modify_apply Fields.finishCbRunId f hfinish
  blockCbRunId := World.modify_apply Fields.blockCbRunId f hblock
  finishedChildren := World.modify_apply Fields.finishedChildren f hchildren
  result := World.modify_apply Fields.result f hresult
  queue := rfl
  runNextIdAlloc := rfl

theorem of_forget (h : ∀ c, (w.fields n).currAction = some c → ¬(w.state c).isUnderway) :
    Slows w (w.modify n fun a => { a with currAction := none }) where
  underway m hm := by rwa [World.state_modify _ rfl] at hm
  idle m := by rw [World.state_modify _ rfl]
  finished m := by rw [World.state_modify _ rfl]
  currAction m := by
    by_cases heq : m = n
    · subst heq
      refine .inr ⟨by rw [World.modify_fields_self], fun c hc hup => ?_⟩
      rw [World.state_modify _ rfl] at hup
      exact h c hc hup
    · exact .inl (by rw [World.modify_fields_of_ne heq])
  childFinishFunc m := .inl (World.modify_apply Fields.childFinishFunc _ rfl m)
  finishCbRunId := World.modify_apply Fields.finishCbRunId _ rfl
  blockCbRunId := World.modify_apply Fields.blockCbRunId _ rfl
  finishedChildren := World.modify_apply Fields.finishedChildren _ rfl
  result := World.modify_apply Fields.result _ rfl
  queue := rfl
  runNextIdAlloc := rfl

end Slows

namespace Forest

theorem slows_stopCurrAction {stopChild : ActionId → World → World} (hchild : ∀ c, (w.fields n).currAction = some c →
      Slows w (stopChild c w) ∧ ¬((stopChild c w).state c).isUnderway) : Slows w (stopCurrAction stopChild n w) := by
  unfold stopCurrAction
  split
  · next c hcurr =>
      obtain ⟨hslows, hstopped⟩ := hchild c hcurr
      refine hslows.trans (.of_forget fun d hd => ?_)
      rcases hslows.currAction n with heq | ⟨hnone, -⟩
      · rw [heq, hcurr] at hd
        exact Option.some.inj hd ▸ hstopped
      · rw [hnone] at hd
        cases hd
  · exact .refl w

/-- Stopping only slows things down, and leaves its root not under way. -/
theorem stop_spec (hlinked : Linked F w) (hn : n < depth) :
    Slows w (F.stop depth n w) ∧ ¬((F.stop depth n w).state n).isUnderway := by
  induction depth generalizing n w with
  | zero => exact absurd hn (Nat.not_lt_zero n)
  | succ depth ih =>
    rw [stop]
    split
    · next hup =>
        have hstoped : Slows w
            (w.modify n fun a => { a with state := .stoped }.disableTimer) :=
          .of_modify _ (.inr ⟨hup, .inr rfl⟩) rfl (.inl rfl) rfl rfl rfl rfl
        have hself : ¬((w.modify n fun a =>
            { a with state := .stoped }.disableTimer).state n).isUnderway := by
          rw [World.state_modify_self]
          simp [Fields.disableTimer, State.isUnderway]
        generalize w.modify n (fun a => { a with state := .stoped }.disableTimer) = v at *
        have hv := hstoped.linked hlinked
        have hchild : ∀ c, F.parent c = some n → c < depth := fun c hc => child_lt_depth hn hc
        have honStop : Slows v (F.onStop (F.stop depth) n v) := by
          unfold onStop
          split
          · exact .refl v
          · refine World.forEach_induction (P := fun u => Slows v u) ?_ (.refl v)
            intro c hc u hu
            exact hu.trans (ih (hu.linked hv) (hchild c (parent_of_mem hc))).1
          · refine (slows_stopCurrAction fun c hc => ih hv (hchild c (hv n c hc))).trans ?_
            exact .of_modify _ (.inl rfl) rfl (.inr rfl) rfl rfl rfl rfl
        exact ⟨hstoped.trans honStop, fun hfinal => hself (honStop.underway n hfinal)⟩
    · next hdown => exact ⟨.refl w, hdown⟩

theorem stop_of_not_underway (h : ¬(w.state n).isUnderway) : F.stop depth n w = w := by
  cases depth with
  | zero => rfl
  | succ depth => rw [stop, if_neg h]

theorem slows_stop (hlinked : Linked F w) (hn : n < depth) : Slows w (F.stop depth n w) := (stop_spec hlinked hn).1

theorem not_underway_stop (hlinked : Linked F w) (hn : n < depth) : ¬((F.stop depth n w).state n).isUnderway :=
  (stop_spec hlinked hn).2

theorem pause_spec : Slows w (F.pause depth n w) ∧
    ∀ m, ((F.pause depth n w).state m).isUnderway = (w.state m).isUnderway := by
  induction depth generalizing n w with
  | zero => exact ⟨.refl w, fun _ => rfl⟩
  | succ depth ih =>
    rw [pause]
    split
    · have honPause : Slows w (F.onPause (F.pause depth) n w) ∧
          ∀ m, ((F.onPause (F.pause depth) n w).state m).isUnderway
            = (w.state m).isUnderway := by
        unfold onPause
        split
        · exact ⟨.refl w, fun _ => rfl⟩
        · refine World.forEach_induction
            (P := fun u => Slows w u ∧ ∀ m, (u.state m).isUnderway = (w.state m).isUnderway)
            ?_ ⟨.refl w, fun _ => rfl⟩
          rintro c - u ⟨hu, hup⟩
          exact ⟨hu.trans ih.1, fun m => (ih.2 m).trans (hup m)⟩
        · split
          · exact ih
          · exact ⟨.refl w, fun _ => rfl⟩
      obtain ⟨hslows, hup⟩ := honPause
      generalize F.onPause (F.pause depth) n w = v at *
      dsimp only
      split
      · next hrunning =>
          refine ⟨hslows.trans (.of_modify _ (.inr ⟨?_, .inl rfl⟩) rfl (.inl rfl) rfl rfl rfl rfl), fun m => ?_⟩
          · rw [hrunning]
            rfl
          rw [← hup m]
          by_cases hm : m = n
          · subst hm
            rw [World.state_modify_self, hrunning]
            rfl
          · rw [World.state_modify_of_ne hm]
      · exact ⟨hslows, hup⟩
    · exact ⟨.refl w, fun _ => rfl⟩

end Forest

structure Posts (w w' : World) (posted : List Posted) : Prop where
  queue : w'.queue = w.queue ++ posted
  sorted : posted.Pairwise fun s t => s.runId < t.runId
  above : ∀ t ∈ posted, w.runNextIdAlloc < t.runId ∧ t.runId ≤ w'.runNextIdAlloc
  le : w.runNextIdAlloc ≤ w'.runNextIdAlloc

namespace Posts

theorem nil (hqueue : w'.queue = w.queue) (halloc : w'.runNextIdAlloc = w.runNextIdAlloc) :
    Posts w w' [] where
  queue := by rw [hqueue, append_nil]
  sorted := .nil
  above _ ht := absurd ht not_mem_nil
  le := halloc.ge

theorem trans {posted posted' : List Posted} (h : Posts w w' posted) (h' : Posts w' w'' posted') :
    Posts w w'' (posted ++ posted') where
  queue := by rw [h'.queue, h.queue, append_assoc]
  sorted := by
    refine pairwise_append.mpr ⟨h.sorted, h'.sorted, fun s hs t ht => ?_⟩
    exact (h.above s hs).2.trans_lt (h'.above t ht).1
  above t ht := by
    rcases mem_append.mp ht with ht | ht
    · exact ⟨(h.above t ht).1, (h.above t ht).2.trans h'.le⟩
    · exact ⟨h.le.trans_lt (h'.above t ht).1, (h'.above t ht).2⟩
  le := h.le.trans h'.le

theorem runNext (w : World) (call : Call) :
    Posts w (w.runNext call) [⟨w.runNextIdAlloc + 2, call⟩] where
  queue := rfl
  sorted := pairwise_singleton ..
  above t ht := by
    obtain rfl := mem_singleton.mp ht
    exact ⟨Nat.lt_add_of_pos_right (by decide), Nat.le_refl _⟩
  le := Nat.le_add_right ..

end Posts

/-- A function kept for `m` waits in the loop. -/
def Call.isFuncOf (m : ActionId) : Call → Bool
  | .childFinishFunc n _ => n = m
  | _ => false

def World.kept (w : World) (m : ActionId) : Nat := ((w.fields m).childFinishFunc.toList).length

structure Resumes (F : Forest) (w w' : World) : Prop where
  underway : ∀ m, (w'.state m).isUnderway = (w.state m).isUnderway
  idle : ∀ m, w'.state m = .idle ↔ w.state m = .idle
  finished : ∀ m, w'.state m = .finished ↔ w.state m = .finished
  currAction : ∀ m, (w'.fields m).currAction = (w.fields m).currAction
  finishCbRunId : ∀ m, (w'.fields m).finishCbRunId = (w.fields m).finishCbRunId
  blockCbRunId : ∀ m, (w'.fields m).blockCbRunId = (w.fields m).blockCbRunId
  finishedChildren : ∀ m, (w'.fields m).finishedChildren = (w.fields m).finishedChildren
  result : ∀ m, (w'.fields m).result = (w.fields m).result
  posts : ∃ posted, Posts w w' posted ∧
    (∀ m, posted.countP (fun t => t.call.isFuncOf m) + w'.kept m = w.kept m) ∧
    ∀ t ∈ posted, ∃ m func, t.call = .childFinishFunc m func ∧ F.assembly m = .serial ∧
      w.state m ≠ .idle

namespace Resumes

theorem refl (w : World) : Resumes F w w where
  underway _ := rfl
  idle _ := Iff.rfl
  finished _ := Iff.rfl
  currAction _ := rfl
  finishCbRunId _ := rfl
  blockCbRunId _ := rfl
  finishedChildren _ := rfl
  result _ := rfl
  posts := ⟨[], .nil rfl rfl, fun _ => Nat.zero_add _, fun _ ht => absurd ht not_mem_nil⟩

theorem trans (h : Resumes F w w') (h' : Resumes F w' w'') : Resumes F w w'' where
  underway m := (h'.underway m).trans (h.underway m)
  idle m := (h'.idle m).trans (h.idle m)
  finished m := (h'.finished m).trans (h.finished m)
  currAction m := (h'.currAction m).trans (h.currAction m)
  finishCbRunId m := (h'.finishCbRunId m).trans (h.finishCbRunId m)
  blockCbRunId m := (h'.blockCbRunId m).trans (h.blockCbRunId m)
  finishedChildren m := (h'.finishedChildren m).trans (h.finishedChildren m)
  result m := (h'.result m).trans (h.result m)
  posts := by
    obtain ⟨posted, hposts, hcount, hfrom⟩ := h.posts
    obtain ⟨posted', hposts', hcount', hfrom'⟩ := h'.posts
    refine ⟨posted ++ posted', hposts.trans hposts', fun m => ?_, fun t ht => ?_⟩
    · rw [countP_append, Nat.add_assoc, hcount' m, hcount m]
    rcases mem_append.mp ht with ht | ht
    · exact hfrom t ht
    · obtain ⟨m, func, hcall, hserial, hm⟩ := hfrom' t ht
      exact ⟨m, func, hcall, hserial, fun hidle => hm ((h.idle m).mpr hidle)⟩

theorem of_wake (hpause : w.state n = .pause) :
    Resumes F w (w.modify n fun a => { a.enableTimer with state := .running }) := by
  have hstate : ∀ m, m ≠ n → (w.modify n fun a =>
      { a.enableTimer with state := .running }).state m = w.state m :=
    fun m hm => World.state_modify_of_ne hm _
  have hself : (w.modify n fun a => { a.enableTimer with state := .running }).state n = .running :=
    World.state_modify_self _
  have hcases : ∀ {q : State → Prop}, (q .running ↔ q .pause) → ∀ m,
      q ((w.modify n fun a => { a.enableTimer with state := .running }).state m)
        ↔ q (w.state m) := by
    intro q hq m
    by_cases hm : m = n
    · subst hm
      rw [hself, hpause]
      exact hq
    · rw [hstate m hm]
  exact {
    underway := fun m => Bool.eq_iff_iff.mpr
      (hcases (q := fun st => st.isUnderway = true) (by simp [State.isUnderway]) m)
    idle := hcases (q := fun st => st = .idle) (by simp)
    finished := hcases (q := fun st => st = .finished) (by simp)
    currAction := World.modify_apply Fields.currAction _ rfl
    finishCbRunId := World.modify_apply Fields.finishCbRunId _ rfl
    blockCbRunId := World.modify_apply Fields.blockCbRunId _ rfl
    finishedChildren := World.modify_apply Fields.finishedChildren _ rfl
    result := World.modify_apply Fields.result _ rfl
    posts := by
      refine ⟨[], .nil rfl rfl, fun m => ?_, fun _ ht => absurd ht not_mem_nil⟩
      have hfunc := World.modify_apply (w := w) (n := n) Fields.childFinishFunc
        (fun a => { a.enableTimer with state := .running }) rfl m
      rw [countP_nil, Nat.zero_add, World.kept, World.kept, hfunc] }

theorem of_post {func : ChildFinishFunc} (hfunc : (w.fields n).childFinishFunc = some func)
    (hserial : F.assembly n = .serial) (hidle : w.state n ≠ .idle) :
    Resumes F w ((w.runNext (.childFinishFunc n func)).modify n fun a =>
      { a with childFinishFunc := none }) := by
  have hstate : ∀ m, ((w.runNext (.childFinishFunc n func)).modify n fun a =>
      { a with childFinishFunc := none }).state m = w.state m := World.state_modify _ rfl
  exact {
    underway := fun m => by rw [hstate]
    idle := fun m => by rw [hstate]
    finished := fun m => by rw [hstate]
    currAction := World.modify_apply Fields.currAction _ rfl
    finishCbRunId := World.modify_apply Fields.finishCbRunId _ rfl
    blockCbRunId := World.modify_apply Fields.blockCbRunId _ rfl
    finishedChildren := World.modify_apply Fields.finishedChildren _ rfl
    result := World.modify_apply Fields.result _ rfl
    posts := by
      have hpost := Posts.runNext w (.childFinishFunc n func)
      refine ⟨_, { hpost with }, fun m => ?_, fun t ht => ?_⟩
      · by_cases hm : m = n
        · subst hm
          simp [World.kept, hfunc, Call.isFuncOf]
        · simp [World.kept, World.modify_fields_of_ne hm, Call.isFuncOf, Ne.symm hm]
      · obtain rfl := mem_singleton.mp ht
        exact ⟨n, func, rfl, hserial, hidle⟩ }

theorem linked (h : Resumes F w w') (hlinked : Linked F w) : Linked F w' :=
  fun n c hc => hlinked n c (h.currAction n ▸ hc)

end Resumes

namespace Forest

theorem resumes_resume : Resumes F w (F.resume depth n w) := by
  induction depth generalizing n w with
  | zero => exact .refl w
  | succ depth ih =>
    rw [resume]
    split
    · next hpause =>
        have honResume : Resumes F w (F.onResume (F.resume depth) n w) := by
          unfold onResume
          split
          · exact .refl w
          · refine World.forEach_induction (P := fun u => Resumes F w u) ?_ (.refl w)
            intro c _ u hu
            unfold resumePaused
            split
            · exact hu.trans ih
            · exact hu
          · next hserial =>
              split
              · exact ih
              · next hfunc => exact .of_post hfunc hserial (by rw [hpause]; nofun)
              · exact .refl w
        generalize F.onResume (F.resume depth) n w = v at *
        dsimp only
        split
        · next hpause' => exact honResume.trans (.of_wake hpause')
        · exact honResume
    · exact .refl w

end Forest

structure Clears (F : Forest) (w w' : World) : Prop where
  fields : ∀ m, w'.fields m = w.fields m ∨ w.state m ≠ .idle ∧ w'.state m = .idle ∧
    (w'.fields m).finishCbRunId = 0 ∧ (w'.fields m).blockCbRunId = 0 ∧
    ((w'.fields m).currAction = (w.fields m).currAction ∨ (w'.fields m).currAction = none) ∧
    (F.assembly m = .serial → (w'.fields m).childFinishFunc = none) ∧
    (F.assembly m = .parallel → (w'.fields m).finishedChildren = [])
  sublist : w'.queue.Sublist w.queue
  dropped : ∀ t ∈ w.queue, t ∈ w'.queue ∨ ∃ m, w.state m ≠ .idle ∧ w'.state m = .idle ∧
    (t.runId = (w.fields m).finishCbRunId ∨ t.runId = (w.fields m).blockCbRunId)
  gone : ∀ m, w.state m ≠ .idle → w'.state m = .idle → ∀ t ∈ w'.queue, t.runId ≠ 0 →
    t.runId ≠ (w.fields m).finishCbRunId ∧ t.runId ≠ (w.fields m).blockCbRunId
  runNextIdAlloc : w'.runNextIdAlloc = w.runNextIdAlloc

namespace Clears

theorem refl (w : World) : Clears F w w where
  fields _ := .inl rfl
  sublist := .refl _
  dropped _ ht := .inl ht
  gone _ h h' := absurd h' h
  runNextIdAlloc := rfl

theorem idle (h : Clears F w w') (hm : w.state m = .idle) : w'.state m = .idle := by
  rcases h.fields m with heq | ⟨-, hidle, -⟩
  · rw [World.state, heq]
    exact hm
  · exact hidle

theorem fields_eq (h : Clears F w w') (hm : w'.state m ≠ .idle) : w'.fields m = w.fields m := by
  rcases h.fields m with heq | ⟨-, hidle, -⟩
  · exact heq
  · exact absurd hidle hm

theorem state_eq (h : Clears F w w') (hm : w'.state m ≠ .idle) : w'.state m = w.state m :=
  congrArg Fields.state (h.fields_eq hm)

theorem trans (h : Clears F w w') (h' : Clears F w' w'') : Clears F w w'' where
  fields m := by
    rcases h'.fields m with heq' | ⟨hne', hidle', hfin', hblk', hcurr', hfunc', hfinished'⟩
    · rcases h.fields m with heq | ⟨hne, hidle, hrest⟩
      · exact .inl (heq'.trans heq)
      · exact .inr ⟨hne, h'.idle hidle, heq' ▸ hrest⟩
    have heq := h.fields_eq hne'
    rw [World.state, heq] at hne'
    rw [heq] at hcurr'
    exact .inr ⟨hne', hidle', hfin', hblk', hcurr', hfunc', hfinished'⟩
  sublist := h'.sublist.trans h.sublist
  dropped t ht := by
    rcases h.dropped t ht with ht' | ⟨m, hne, hidle, hid⟩
    · rcases h'.dropped t ht' with ht'' | ⟨m, hne', hidle', hid⟩
      · exact .inl ht''
      have heq := h.fields_eq hne'
      rw [World.state, heq] at hne'
      rw [heq] at hid
      exact .inr ⟨m, hne', hidle', hid⟩
    · exact .inr ⟨m, hne, h'.idle hidle, hid⟩
  gone m hne hidle t ht h0 := by
    by_cases hmid : w'.state m = .idle
    · exact h.gone m hne hmid t (h'.sublist.mem ht) h0
    · have hgone := h'.gone m hmid hidle t ht h0
      rwa [h.fields_eq hmid] at hgone
  runNextIdAlloc := h'.runNextIdAlloc.trans h.runNextIdAlloc

theorem linked (h : Clears F w w') (hlinked : Linked F w) : Linked F w' := by
  intro n c hc
  rcases h.fields n with heq | ⟨-, -, -, -, heq | hnone, -⟩
  · exact hlinked n c (heq ▸ hc)
  · exact hlinked n c (heq ▸ hc)
  · rw [hnone] at hc
    cases hc

end Clears

namespace World

theorem mem_cancel {t : Posted} {runId : RunId} :
    t ∈ (w.cancel runId).queue ↔ t ∈ w.queue ∧ (runId ≠ 0 → t.runId ≠ runId) := by
  unfold cancel
  split
  · next h => simp [h]
  · next h => simp only [ne_eq, h, IsEmpty.forall_iff, and_true]

theorem cancel_sublist (runId : RunId) : (w.cancel runId).queue.Sublist w.queue := by
  unfold cancel
  split
  · exact filter_sublist
  · exact .refl _

@[simp]
theorem cancel_fields (runId : RunId) : (w.cancel runId).fields = w.fields := by
  unfold cancel
  split <;> rfl

@[simp]
theorem cancel_runNextIdAlloc (runId : RunId) : (w.cancel runId).runNextIdAlloc = w.runNextIdAlloc := by
  unfold cancel
  split <;> rfl

end World

theorem Local.cancelDispatchedCallback : Local F n w (w.cancelDispatchedCallback n) := by
  refine Local.trans (Local.of_fields ?_) (.modify _)
  rw [World.cancel_fields, World.cancel_fields]

theorem Clears.of_self (own : Fields → Fields) (hne : w.state n ≠ .idle)
    (hfin : ∀ a, (own a).finishCbRunId = a.finishCbRunId) (hblk : ∀ a, (own a).blockCbRunId = a.blockCbRunId)
    (hcurr : ∀ a, (own a).currAction = a.currAction ∨ (own a).currAction = none)
    (hfunc : F.assembly n = .serial → ∀ a, (own a).childFinishFunc = none)
    (hfinished : F.assembly n = .parallel → ∀ a, (own a).finishedChildren = []) :
    Clears F w ((((w.modify n own).modify n Fields.disableTimer).cancelDispatchedCallback n).modify n
      fun a => { a with state := .idle, result := .unsure }) := by
  have hother : ∀ m, m ≠ n → (((((w.modify n own).modify n
      Fields.disableTimer).cancelDispatchedCallback n).modify n
        fun a => { a with state := .idle, result := .unsure })).fields m = w.fields m := by
    intro m hm
    simp only [World.cancelDispatchedCallback, World.modify_fields_of_ne hm, World.cancel_fields]
  have hmem : ∀ t, t ∈ ((((w.modify n own).modify n
      Fields.disableTimer).cancelDispatchedCallback n).modify n
        fun a => { a with state := .idle, result := .unsure }).queue ↔
      (t ∈ w.queue ∧ ((w.fields n).finishCbRunId ≠ 0 → t.runId ≠ (w.fields n).finishCbRunId)) ∧
        ((w.fields n).blockCbRunId ≠ 0 → t.runId ≠ (w.fields n).blockCbRunId) := by
    intro t
    simp only [World.cancelDispatchedCallback, World.modify_queue, World.mem_cancel,
      World.modify_fields_self, Fields.disableTimer, hfin, hblk]
  refine ⟨fun m => ?_, ?_, fun t ht => ?_, fun m hm hidle t ht h0 => ?_, ?_⟩
  · by_cases hm : m = n
    · subst hm
      refine .inr ⟨hne, World.state_modify_self _, ?_, ?_, ?_, ?_, ?_⟩
      · simp [World.cancelDispatchedCallback]
      · simp [World.cancelDispatchedCallback]
      · simpa [World.cancelDispatchedCallback, Fields.disableTimer] using hcurr (w.fields m)
      · intro hserial
        simpa [World.cancelDispatchedCallback, Fields.disableTimer] using hfunc hserial (w.fields m)
      · intro hparallel
        simpa [World.cancelDispatchedCallback, Fields.disableTimer]
          using hfinished hparallel (w.fields m)
    · exact .inl (hother m hm)
  · exact (World.cancel_sublist _).trans (World.cancel_sublist _)
  · by_cases hkept : t ∈ ((((w.modify n own).modify n
      Fields.disableTimer).cancelDispatchedCallback n).modify n
        fun a => { a with state := .idle, result := .unsure }).queue
    · exact .inl hkept
    refine .inr ⟨n, hne, World.state_modify_self _, ?_⟩
    by_contra hid
    obtain ⟨hfinish, hblock⟩ := not_or.mp hid
    exact hkept ((hmem t).mpr ⟨⟨ht, fun _ => hfinish⟩, fun _ => hblock⟩)
  · have hself : m = n := by
      by_contra hmn
      rw [World.state, hother m hmn] at hidle
      exact hm hidle
    subst hself
    obtain ⟨⟨-, hfinish⟩, hblock⟩ := (hmem t).mp ht
    refine ⟨fun heq => ?_, fun heq => ?_⟩
    · exact hfinish (heq ▸ h0) heq
    · exact hblock (heq ▸ h0) heq
  · simp [World.cancelDispatchedCallback]

namespace Forest

/-- A reset clears what it comes to, ends idle, and touches its own tree only. -/
theorem reset_spec (hn : n < depth) : Clears F w (F.reset depth n w) ∧
    (F.reset depth n w).state n = .idle ∧ Local F n w (F.reset depth n w) := by
  induction depth generalizing n w with
  | zero => exact absurd hn (Nat.not_lt_zero n)
  | succ depth ih =>
    rw [reset]
    split
    · next hidle => exact ⟨.refl w, hidle, .refl w⟩
    next hne =>
      refine ⟨?_, World.state_modify_self _, ?_⟩
      · have hchild : ∀ c ∈ F.children n, c < depth := fun c hc => child_lt_depth hn (parent_of_mem hc)
        have hcs : Clears F w (World.forEach (F.reset depth) (F.children n) w) :=
          World.forEach_induction (P := fun v => Clears F w v)
            (fun c hc v hv => hv.trans (ih (hchild c hc)).1) (.refl w)
        have hself : (World.forEach (F.reset depth) (F.children n) w).fields n = w.fields n := by
          refine World.forEach_induction (P := fun v => v.fields n = w.fields n) ?_ rfl
          intro c hc v hv
          exact ((ih (hchild c hc)).2.2.parent (parent_of_mem hc)).trans hv
        have hne' : (World.forEach (F.reset depth) (F.children n) w).state n ≠ .idle := by
          rw [World.state, hself]
          exact hne
        unfold onReset
        split
        · next hnone =>
            have hid : w.modify n id = w := by
              simp [World.modify, Function.update_eq_self]
            have hkind : ∀ a : Assembly, a ≠ .none → F.assembly n ≠ a := by
              intro a ha heq
              exact ha (heq.symm.trans hnone)
            have hself := Clears.of_self (F := F) id hne (fun _ => rfl) (fun _ => rfl)
              (fun _ => .inl rfl) (fun h => absurd h (hkind _ nofun))
              (fun h => absurd h (hkind _ nofun))
            rw [hid] at hself
            exact hself
        · next hparallel =>
            refine hcs.trans (.of_self (F := F) _ hne' (fun _ => rfl) (fun _ => rfl)
              (fun _ => .inl rfl) ?_ fun _ _ => rfl)
            intro h
            rw [hparallel] at h
            cases h
        · next hserial =>
            refine hcs.trans (.of_self (F := F) _ hne' (fun _ => rfl) (fun _ => rfl)
              (fun _ => .inr rfl) (fun _ _ => rfl) ?_)
            intro h
            rw [hserial] at h
            cases h
      · have hcs : Local F n w (World.forEach (F.reset depth) (F.children n) w) :=
          World.forEach_induction (P := fun v => Local F n w v)
            (fun c hc v hv => hv.trans ((ih ((lt_of_mem hc).trans_le
              (Nat.le_of_lt_succ hn))).2.2.of_child (parent_of_mem hc))) (.refl w)
        have honReset : Local F n w (F.onReset (F.reset depth) n w) := by
          unfold onReset
          split
          · exact .refl w
          · exact hcs.trans (.modify _)
          · exact hcs.trans (.modify _)
        have hcancel := honReset.trans
          ((Local.modify Fields.disableTimer).trans (Local.cancelDispatchedCallback (F := F)))
        exact hcancel.trans (.modify _)

theorem clears_reset (hn : n < depth) : Clears F w (F.reset depth n w) := (reset_spec hn).1

theorem reset_idle (hn : n < depth) : (F.reset depth n w).state n = .idle := (reset_spec hn).2.1

theorem local_reset (hn : n < depth) : Local F n w (F.reset depth n w) := (reset_spec hn).2.2

theorem reset_fields_of_ne (hne : w.state n ≠ .idle) (hm : m ≠ n) :
    (F.reset (depth + 1) n w).fields m = (World.forEach (F.reset depth) (F.children n) w).fields m := by
  rw [reset, if_neg hne]
  simp only [World.cancelDispatchedCallback, World.modify_fields_of_ne hm, World.cancel_fields]
  unfold onReset
  split
  · next hnone =>
      have hnil : F.children n = [] := eq_nil_iff_forall_not_mem.mpr fun c hc =>
        parent_ne_of_none hnone (parent_of_mem hc)
      rw [hnil]
      rfl
  · rw [World.modify_fields_of_ne hm]
  · rw [World.modify_fields_of_ne hm]

theorem reset_state_of_ne (hne : w.state n ≠ .idle) (hm : m ≠ n) : (F.reset (depth + 1) n w).state m
      = (World.forEach (F.reset depth) (F.children n) w).state m :=
  congrArg Fields.state (reset_fields_of_ne hne hm)

theorem reset_closed (hn : n < depth) (hc : F.parent c = some p) (hp : w.state p ≠ .idle)
    (hidle : (F.reset depth n w).state p = .idle) : (F.reset depth n w).state c = .idle := by
  induction depth generalizing n w with
  | zero => exact absurd hn (Nat.not_lt_zero n)
  | succ depth ih =>
    by_cases hne : w.state n = .idle
    · rw [reset, if_pos hne] at hidle
      exact absurd hidle hp
    have hchild : ∀ c ∈ F.children n, c < depth := fun c hc => child_lt_depth hn (parent_of_mem hc)
    by_cases hcn : c = n
    · rw [hcn]
      exact reset_idle hn
    rw [reset_state_of_ne hne hcn]
    by_cases hpn : p = n
    · subst hpn
      refine World.forEach_establishes (P := fun _ => True) (Q := fun c v => v.state c = .idle)
        (fun _ _ _ _ => trivial) (fun c hc v _ => reset_idle (hchild c hc)) ?_ trivial c
        (mem_children.mpr hc)
      exact fun c _ d hd v _ hidle => (clears_reset (hchild d hd)).idle hidle
    · rw [reset_state_of_ne hne hpn] at hidle
      have hloop : (World.forEach (F.reset depth) (F.children n) w).state p = .idle →
          (World.forEach (F.reset depth) (F.children n) w).state c = .idle := by
        refine World.forEach_induction (P := fun v => v.state p = .idle → v.state c = .idle) ?_ fun h => absurd h hp
        intro d hd v hv hidle
        have hclears := clears_reset (F := F) (w := v) (hchild d hd)
        by_cases hvp : v.state p = .idle
        · exact hclears.idle (hv hvp)
        · exact ih (hchild d hd) hvp hidle
      exact hloop hidle

end Forest

structure Reports (F : Forest) (n : ActionId) (call : Call) (fin blk : RunId) (w w' : World) :
    Prop where
  state : ∀ m, w'.state m = w.state m
  currAction : ∀ m, (w'.fields m).currAction = (w.fields m).currAction
  childFinishFunc : ∀ m, (w'.fields m).childFinishFunc = (w.fields m).childFinishFunc
  finishedChildren : ∀ m, (w'.fields m).finishedChildren = (w.fields m).finishedChildren
  fields_of_ne : ∀ m, m ≠ n → w'.fields m = w.fields m
  finishCbRunId : (w'.fields n).finishCbRunId = fin
  blockCbRunId : (w'.fields n).blockCbRunId = blk
  posts : Posts w w' (if F.hasCallback n then [⟨w.runNextIdAlloc + 2, call⟩] else [])

namespace Forest

theorem reports_dispatchFinish (isSucc : Bool) (why : Reason) : Reports F n (.finished n isSucc why)
      (if F.hasCallback n then w.runNextIdAlloc + 2 else (w.fields n).finishCbRunId)
      (w.fields n).blockCbRunId w (F.dispatchFinish n isSucc why w) ∧
    ((F.dispatchFinish n isSucc why w).fields n).result = if isSucc then .success else .fail := by
  unfold dispatchFinish
  split
  · next hcb =>
    have hne : ∀ m, m ≠ n → ((((w.modify n fun a =>
        { a with result := if isSucc then .success else .fail }).record (.finished n isSucc why)).runNext
          (.finished n isSucc why)).modify n fun a =>
            { a with finishCbRunId := w.runNextIdAlloc + 2 }).fields m = w.fields m := by
      intro m hm
      rw [World.modify_fields_of_ne hm, World.runNext_fields, World.record_fields, World.modify_fields_of_ne hm]
    refine ⟨⟨World.apply_of_ne hne Fields.state (by simp), World.apply_of_ne hne Fields.currAction (by simp),
      World.apply_of_ne hne Fields.childFinishFunc (by simp),
      World.apply_of_ne hne Fields.finishedChildren (by simp), hne, ?_, ?_, ?_⟩, ?_⟩
    · simp [World.runNext]
    · simp
    · rw [if_pos hcb]
      have hpost := Posts.runNext w (.finished n isSucc why)
      exact { hpost with queue := rfl }
    · simp
  · next hcb =>
    have hne : ∀ m, m ≠ n → ((w.modify n fun a =>
        { a with result := if isSucc then .success else .fail }).record
          (.finished n isSucc why)).fields m = w.fields m := by
      intro m hm
      rw [World.record_fields, World.modify_fields_of_ne hm]
    refine ⟨⟨World.apply_of_ne hne Fields.state (by simp), World.apply_of_ne hne Fields.currAction (by simp),
      World.apply_of_ne hne Fields.childFinishFunc (by simp),
      World.apply_of_ne hne Fields.finishedChildren (by simp), hne, ?_, ?_, ?_⟩, ?_⟩
    · simp
    · simp
    · rw [if_neg hcb]
      exact .nil rfl rfl
    · simp

theorem reports_onBlock (why : Reason) : Reports F n (.blocked n why) (w.fields n).finishCbRunId
      (if F.hasCallback n then w.runNextIdAlloc + 2 else (w.fields n).blockCbRunId) w (F.onBlock n why w) := by
  unfold onBlock
  split
  · next hcb =>
    refine ⟨World.state_modify _ rfl, World.modify_apply Fields.currAction _ rfl,
      World.modify_apply Fields.childFinishFunc _ rfl,
      World.modify_apply Fields.finishedChildren _ rfl,
      fun m hm => World.modify_fields_of_ne hm _, ?_, ?_, ?_⟩
    · simp
    · simp [World.runNext]
    · rw [if_pos hcb]
      have hpost := Posts.runNext w (.blocked n why)
      exact { hpost with queue := rfl }
  · next hcb =>
    refine ⟨fun _ => rfl, fun _ => rfl, fun _ => rfl, fun _ => rfl, fun _ _ => rfl, rfl, rfl, ?_⟩
    rw [if_neg hcb]
    exact .nil rfl rfl

theorem local_stopCurrAction {stopChild : ActionId → World → World} (hlinked : Linked F w)
    (hchild : ∀ c, F.parent c = some n → Local F c w (stopChild c w)) :
    Local F n w (stopCurrAction stopChild n w) := by
  unfold stopCurrAction
  split
  · next c hc => exact ((hchild c (hlinked n c hc)).of_child (hlinked n c hc)).trans (.modify _)
  · exact .refl w

theorem local_stop (hlinked : Linked F w) (hn : n < depth) : Local F n w (F.stop depth n w) := by
  induction depth generalizing n w with
  | zero => exact absurd hn (Nat.not_lt_zero n)
  | succ depth ih =>
    have hchild : ∀ c, F.parent c = some n → c < depth := fun c hc => child_lt_depth hn hc
    rw [stop]
    split
    · next hup =>
        have hstoped : Local F n w (w.modify n fun a => { a with state := .stoped }.disableTimer) := .modify _
        have hlinked' : Linked F
            (w.modify n fun a => { a with state := .stoped }.disableTimer) := by
          intro m c hc
          rw [World.modify_apply Fields.currAction _ rfl] at hc
          exact hlinked m c hc
        generalize w.modify n (fun a => { a with state := .stoped }.disableTimer) = v at *
        refine hstoped.trans ?_
        unfold onStop
        split
        · exact .refl v
        · have hcs : Local F n v (World.forEach (F.stop depth) (F.children n) v) ∧
              Linked F (World.forEach (F.stop depth) (F.children n) v) := by
            refine World.forEach_induction (P := fun u => Local F n v u ∧ Linked F u) ?_ ⟨.refl v, hlinked'⟩
            rintro c hc u ⟨hu, hlu⟩
            have hcp := parent_of_mem hc
            exact ⟨hu.trans ((ih hlu (hchild c hcp)).of_child hcp), (slows_stop hlu (hchild c hcp)).linked hlu⟩
          exact hcs.1
        · exact (local_stopCurrAction hlinked' fun c hc => ih hlinked' (hchild c hc)).trans
            (.modify _)
    · exact .refl w

def ending (F : Forest) (n : ActionId) (w : World) : World :=
  let w := w.modify n fun a => { a with state := .finished }.disableTimer
  match F.kind n with
  | .composite _ => stopCurrAction (F.stop n) n w
  | _ => w

theorem finish_eq (h : w.state n ≠ .finished ∧ w.state n ≠ .stoped) (isSucc : Bool) (why : Reason) :
    F.finish n isSucc why w = F.dispatchFinish n isSucc why (F.ending n w) := by
  rw [finish, if_pos h]
  unfold onFinished ending
  cases F.kind n <;> rfl

theorem finish_eq_self (h : w.state n = .finished ∨ w.state n = .stoped) (isSucc : Bool)
    (why : Reason) : F.finish n isSucc why w = w := by
  rw [finish, if_neg]
  rintro ⟨hfin, hstop⟩
  rcases h with h | h
  · exact hfin h
  · exact hstop h

theorem linked_ended (hlinked : Linked F w) :
    Linked F (w.modify n fun a => { a with state := .finished }.disableTimer) := by
  intro m c hc
  rw [World.modify_apply Fields.currAction _ rfl] at hc
  exact hlinked m c hc

theorem slows_ending (hlinked : Linked F w) :
    Slows (w.modify n fun a => { a with state := .finished }.disableTimer) (F.ending n w) := by
  have hlinked' := linked_ended (n := n) hlinked
  unfold ending
  split
  · exact slows_stopCurrAction fun c hc => stop_spec hlinked' (F.child_lt n c (hlinked' n c hc))
  · exact .refl _

theorem local_ending (hlinked : Linked F w) : Local F n w (F.ending n w) := by
  have hlinked' := linked_ended (n := n) hlinked
  unfold ending
  split
  · exact (Local.modify _).trans
      (local_stopCurrAction hlinked' fun c hc => local_stop hlinked' (F.child_lt n c hc))
  · exact .modify _

theorem finish_cases (hlinked : Linked F w) (isSucc : Bool) (why : Reason) :
    (w.state n = .finished ∨ w.state n = .stoped) ∧ F.finish n isSucc why w = w ∨
    (w.state n ≠ .finished ∧ w.state n ≠ .stoped) ∧
      Slows (w.modify n fun a => { a with state := .finished }.disableTimer) (F.ending n w) ∧
      Local F n w (F.ending n w) ∧
      F.finish n isSucc why w = F.dispatchFinish n isSucc why (F.ending n w) := by
  by_cases hdead : w.state n = .finished ∨ w.state n = .stoped
  · exact .inl ⟨hdead, finish_eq_self hdead isSucc why⟩
  · have hlive := not_or.mp hdead
    exact .inr ⟨hlive, slows_ending hlinked, local_ending hlinked, finish_eq hlive isSucc why⟩

theorem finish_fields_of_ne (hkind : ∀ child, F.kind n ≠ .composite child) (hm : m ≠ n)
    (isSucc : Bool) (why : Reason) : (F.finish n isSucc why w).fields m = w.fields m := by
  by_cases hdead : w.state n = .finished ∨ w.state n = .stoped
  · rw [finish_eq_self hdead]
  rw [finish_eq (not_or.mp hdead), (reports_dispatchFinish isSucc why).1.fields_of_ne m hm]
  unfold ending
  split
  · next child heq => exact absurd heq (hkind child)
  · exact World.modify_fields_of_ne hm _

theorem finish_state (hlinked : Linked F w) (h : w.state n ≠ .finished ∧ w.state n ≠ .stoped)
    (isSucc : Bool) (why : Reason) : (F.finish n isSucc why w).state n = .finished := by
  rw [finish_eq h, (reports_dispatchFinish isSucc why).1.state, (slows_ending hlinked).finished,
    World.state_modify_self]
  rfl

theorem not_composite (h : F.assembly n ≠ .serial) (child : ActionId) : F.kind n ≠ .composite child := by
  intro hkind
  unfold assembly at h
  rw [hkind] at h
  exact h rfl

theorem block_cases (why : Reason) : (w.state n = .finished ∨ w.state n = .stoped) ∧ F.block n why w = w ∨
    (w.state n ≠ .finished ∧ w.state n ≠ .stoped) ∧
      F.block n why w = F.onBlock n why (w.modify n fun a => { a with state := .pause }) := by
  unfold block
  split
  · next hlive => exact .inr ⟨hlive, rfl⟩
  next hdead =>
    refine .inl ⟨?_, rfl⟩
    by_contra h
    exact hdead (not_or.mp h)

end Forest

end Tbox.Flow.Action
