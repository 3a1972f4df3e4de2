import Tbox.Proof.ActionRest

/-!
# A parallel action hears of every child

A child that has finished is on the record of its parallel parent, or its report is still in the loop, unless a report
was delivered while the parent was in pause: it is dropped.
-/

open List Option

namespace Tbox.Flow.Action

variable {F : Forest} {w w' w'' : World} {n m c p : ActionId} {depth : Nat}
  {leaves : ActionId → LeafStart} {busy : ActionId → Prop} {isSucc : Bool} {why : Reason}

theorem Call.isFinishOf_iff {call : Call} : call.isFinishOf c ↔ ∃ isSucc why, call = .finished c isSucc why := by
  cases call with
  | finished d isSucc why => simp [isFinishOf]
  | _ => simp [isFinishOf]

theorem Call.finish_unique {call : Call} {d : ActionId} (h : call.isFinishOf c) (h' : call.isFinishOf d) : d = c := by
  obtain ⟨isSucc, why, rfl⟩ := isFinishOf_iff.mp h
  obtain ⟨isSucc', why', heq⟩ := isFinishOf_iff.mp h'
  cases heq
  rfl

theorem Call.not_isFinishOf_of_block {call : Call} {d : ActionId} (h : call.isBlockOf d) : ¬call.isFinishOf c := by
  intro hof
  obtain ⟨isSucc, why, rfl⟩ := isFinishOf_iff.mp hof
  cases h

def Pending (w : World) (c : ActionId) : Prop := ∃ t ∈ w.queue, t.call.isFinishOf c

def Knows (F : Forest) (p : ActionId) (w : World) (c : ActionId) : Prop :=
  w.state c = .finished → Pending w c ∨ (F.children p).idxOf c ∈ (w.fields p).recorded

structure Tallied (F : Forest) (p : ActionId) (w : World) : Prop where
  nodup : (w.fields p).recorded.Nodup
  lt : ∀ i ∈ (w.fields p).recorded, i < (F.children p).length
  success : w.state p = .finished → (w.fields p).result = .success

structure Heard (F : Forest) (p : ActionId) (w : World) : Prop extends Tallied F p w where
  known : (w.state p).isUnderway → ∀ c ∈ F.children p, Knows F p w c
  short : (w.state p).isUnderway →
    (w.fields p).finishedChildren.length ≠ (F.children p).length

/-- Nothing is taken from the loop or from the record of `p`, and who finishes says so. -/
structure Announces (F : Forest) (p : ActionId) (w w' : World) : Prop where
  queue : ∀ t ∈ w.queue, t ∈ w'.queue
  finished : ∀ c, F.hasCallback c → w'.state c = .finished →
    w.state c = .finished ∨ Pending w' c
  recorded : ∀ i ∈ (w.fields p).recorded, i ∈ (w'.fields p).recorded

theorem hasCallback_of_parent (hc : F.parent c = some p) : F.hasCallback c := by
  rw [Forest.hasCallback, hc]
  rfl

namespace Announces

theorem refl (w : World) : Announces F p w w := ⟨fun _ ht => ht, fun _ _ h => .inl h, fun _ hi => hi⟩

theorem trans (h : Announces F p w w') (h' : Announces F p w' w'') : Announces F p w w'' where
  queue t ht := h'.queue t (h.queue t ht)
  finished c hc hfin := by
    rcases h'.finished c hc hfin with hfin' | hpending
    · rcases h.finished c hc hfin' with hfin'' | ⟨t, ht, hof⟩
      · exact .inl hfin''
      · exact .inr ⟨t, h'.queue t ht, hof⟩
    · exact .inr hpending
  recorded i hi := h'.recorded i (h.recorded i hi)

theorem of_slows (h : Slows w w') : Announces F p w w' where
  queue t ht := h.queue ▸ ht
  finished c _ hfin := .inl ((h.finished c).mp hfin)
  recorded i hi := by
    rw [Fields.recorded, h.finishedChildren]
    exact hi

theorem of_resumes (h : Resumes F w w') : Announces F p w w' where
  queue t ht := by
    obtain ⟨posted, hposts, -⟩ := h.posts
    rw [hposts.queue]
    exact mem_append_left posted ht
  finished c _ hfin := .inl ((h.finished c).mp hfin)
  recorded i hi := by
    rw [Fields.recorded, h.finishedChildren]
    exact hi

theorem of_modify {f : Fields → Fields}
    (hstate : (f (w.fields n)).state = w.state n ∨ (f (w.fields n)).state ≠ .finished)
    (hrecorded : ∀ i ∈ (w.fields n).recorded, i ∈ (f (w.fields n)).recorded) :
    Announces F p w (w.modify n f) where
  queue _ ht := ht
  finished c _ hfin := by
    by_cases hcn : c = n
    · subst hcn
      rw [World.state_modify_self] at hfin
      rcases hstate with hsame | hlive
      · exact .inl (hsame.symm.trans hfin)
      · exact absurd hfin hlive
    · rw [World.state_modify_of_ne hcn] at hfin
      exact .inl hfin
  recorded i hi := by
    by_cases hpn : p = n
    · subst hpn
      rw [World.modify_fields_self]
      exact hrecorded i hi
    · rw [World.modify_fields_of_ne hpn]
      exact hi

theorem knows (h : Announces F p w w') (hc : F.parent c = some p) (hknows : Knows F p w c) : Knows F p w' c := by
  intro hfin
  rcases h.finished c (hasCallback_of_parent hc) hfin with hfin' | hpending
  · rcases hknows hfin' with ⟨t, ht, hof⟩ | hrecorded
    · exact .inl ⟨t, h.queue t ht, hof⟩
    · exact .inr (h.recorded _ hrecorded)
  · exact .inl hpending

end Announces

structure Spares (p : ActionId) (w w' : World) : Prop where
  underway : (w'.state p).isUnderway → (w.state p).isUnderway
  finished : w'.state p = .finished → w.state p = .finished
  finishedChildren : (w'.fields p).finishedChildren = (w.fields p).finishedChildren
  result : (w'.fields p).result = (w.fields p).result

namespace Spares

theorem of_fields (h : w'.fields p = w.fields p) : Spares p w w' := by
  have hstate : w'.state p = w.state p := congrArg Fields.state h
  exact ⟨fun hup => hstate ▸ hup, fun hfin => hstate ▸ hfin, by rw [h], by rw [h]⟩

theorem of_modify_same {f : Fields → Fields} (hstate : (f (w.fields n)).state = (w.fields n).state)
    (hrecord : (f (w.fields n)).finishedChildren = (w.fields n).finishedChildren)
    (hresult : (f (w.fields n)).result = (w.fields n).result) : Spares p w (w.modify n f) := by
  have hsame : (w.modify n f).state p = w.state p := World.state_modify f hstate p
  exact ⟨fun hup => hsame ▸ hup, fun hfin => hsame ▸ hfin, World.modify_apply Fields.finishedChildren f hrecord p,
    World.modify_apply Fields.result f hresult p⟩

theorem of_slows (h : Slows w w') : Spares p w w' :=
  ⟨h.underway p, (h.finished p).mp, h.finishedChildren p, h.result p⟩

theorem of_resumes (h : Resumes F w w') : Spares p w w' :=
  ⟨fun hup => h.underway p ▸ hup, (h.finished p).mp, h.finishedChildren p, h.result p⟩

theorem trans (h : Spares p w w') (h' : Spares p w' w'') : Spares p w w'' where
  underway hup := h.underway (h'.underway hup)
  finished hfin := h.finished (h'.finished hfin)
  finishedChildren := h'.finishedChildren.trans h.finishedChildren
  result := h'.result.trans h.result

end Spares

namespace Tallied

theorem spares (h : Tallied F p w) (hspares : Spares p w w') : Tallied F p w' := by
  have hrecorded : (w'.fields p).recorded = (w.fields p).recorded := by
    rw [Fields.recorded, hspares.finishedChildren, Fields.recorded]
  refine ⟨?_, fun i hi => ?_, fun hfin => ?_⟩
  · rw [hrecorded]
    exact h.nodup
  · rw [hrecorded] at hi
    exact h.lt i hi
  · rw [hspares.result]
    exact h.success (hspares.finished hfin)

theorem setFinished (h : Tallied F p w) {i : Nat} (hi : i < (F.children p).length) (b : Bool) :
    Tallied F p (w.modify p fun a => a.setFinished i b) := by
  refine ⟨?_, fun j hj => ?_, fun hfin => ?_⟩
  · rw [World.modify_fields_self]
    exact Fields.nodup_recorded_setFinished h.nodup i b
  · rw [World.modify_fields_self, Fields.mem_recorded_setFinished] at hj
    rcases hj with rfl | hj
    · exact hi
    · exact h.lt j hj
  · rw [World.state_modify _ rfl] at hfin
    rw [World.modify_fields_self]
    exact h.success hfin

end Tallied

namespace Heard

theorem of_down (h : Tallied F p w) (hdown : ¬(w.state p).isUnderway) : Heard F p w :=
  ⟨h, fun hup => absurd hup hdown, fun hup => absurd hup hdown⟩

theorem spares (h : Heard F p w) (hannounces : Announces F p w w') (hspares : Spares p w w') :
    Heard F p w' where
  toTallied := h.toTallied.spares hspares
  known hup c hc := hannounces.knows (Forest.parent_of_mem hc) (h.known (hspares.underway hup) c hc)
  short hup := by
    rw [hspares.finishedChildren]
    exact h.short (hspares.underway hup)

theorem slows (h : Heard F p w) (hslows : Slows w w') : Heard F p w' := h.spares (.of_slows hslows) (.of_slows hslows)

theorem resumes (h : Heard F p w) (hresumes : Resumes F w w') : Heard F p w' :=
  h.spares (.of_resumes hresumes) (.of_resumes hresumes)

theorem modify (h : Heard F p w) (hn : n ≠ p) {f : Fields → Fields}
    (hstate : (f (w.fields n)).state = w.state n ∨ (f (w.fields n)).state ≠ .finished)
    (hrecorded : ∀ i ∈ (w.fields n).recorded, i ∈ (f (w.fields n)).recorded) : Heard F p (w.modify n f) :=
  h.spares (.of_modify hstate hrecorded) (.of_fields (World.modify_fields_of_ne (Ne.symm hn) f))

theorem clears (h : Heard F p w) (hparallel : F.assembly p = .parallel) (htagged : Tagged F w)
    (hclears : Clears F w w') : Heard F p w' := by
  by_cases hidle : w'.state p = .idle
  · have hdown : ¬(w'.state p).isUnderway := by
      rw [hidle]
      exact Bool.false_ne_true
    rcases hclears.fields p with hfields | ⟨-, -, -, -, -, -, hblank⟩
    · exact of_down (h.toTallied.spares (.of_fields hfields)) hdown
    have hnil : (w'.fields p).recorded = [] := by
      rw [Fields.recorded, hblank hparallel]
      rfl
    refine of_down ⟨?_, fun i hi => ?_, fun hfin => ?_⟩ hdown
    · rw [hnil]
      exact .nil
    · rw [hnil] at hi
      cases hi
    · rw [hidle] at hfin
      cases hfin
  · have hfields := hclears.fields_eq hidle
    have hspares : Spares p w w' := .of_fields hfields
    refine ⟨h.toTallied.spares hspares, fun hup c hc hfin => ?_, fun hup => ?_⟩
    · have hlive : w'.state c ≠ .idle := by
        rw [hfin]
        simp
      rw [hclears.state_eq hlive] at hfin
      rcases h.known (hspares.underway hup) c hc hfin with ⟨t, ht, hof⟩ | hrecorded
      · refine .inl ⟨t, ?_, hof⟩
        rcases hclears.dropped t ht with ht' | ⟨m, -, hm, hid | hid⟩
        · exact ht'
        · have hself := htagged.ownFinish t ht m hid
          obtain rfl := Call.finish_unique hof hself
          exact absurd hm hlive
        · exact absurd hof (Call.not_isFinishOf_of_block (htagged.ownBlock t ht m hid))
      · rw [hfields]
        exact .inr hrecorded
    · rw [hfields]
      exact h.short (hspares.underway hup)

end Heard

namespace Forest

theorem kind_of_parallel (h : F.assembly p = .parallel) : ∃ mode children, F.kind p = .parallel mode children := by
  revert h
  unfold assembly
  cases F.kind p <;> simp [Kind.assembly]

theorem announces_finish (hlinked : Linked F w) (isSucc : Bool) (why : Reason) :
    Announces F p w (F.finish n isSucc why w) := by
  rcases finish_cases hlinked isSucc why with ⟨-, heq⟩ | ⟨-, hslows, -, heq⟩
  · rw [heq]
    exact .refl w
  rw [heq]
  obtain ⟨hreports, -⟩ := reports_dispatchFinish (F := F) (w := F.ending n w) (n := n) isSucc why
  have hqueue := hreports.posts.queue
  rw [hslows.queue, World.modify_queue] at hqueue
  refine ⟨fun t ht => ?_, fun c hc hfin => ?_, fun i hi => ?_⟩
  · rw [hqueue]
    exact mem_append_left _ ht
  · by_cases hcn : c = n
    · subst hcn
      rw [if_pos hc] at hqueue
      refine .inr ⟨⟨(F.ending c w).runNextIdAlloc + 2, .finished c isSucc why⟩, ?_,
        Call.isFinishOf_iff.mpr ⟨isSucc, why, rfl⟩⟩
      rw [hqueue]
      exact mem_append_right _ (mem_singleton.mpr rfl)
    · rw [hreports.state, hslows.finished, World.state_modify_of_ne hcn] at hfin
      exact .inl hfin
  · rw [Fields.recorded, hreports.finishedChildren, hslows.finishedChildren,
      World.modify_apply Fields.finishedChildren _ rfl]
    exact hi

theorem announces_block (why : Reason) : Announces F p w (F.block n why w) := by
  rcases block_cases (F := F) (w := w) (n := n) why with ⟨-, heq⟩ | ⟨-, heq⟩
  · rw [heq]
    exact .refl w
  rw [heq]
  have hpaused : Announces F p w (w.modify n fun a => { a with state := .pause }) :=
    .of_modify (.inr nofun) fun _ hi => hi
  refine hpaused.trans ?_
  generalize (w.modify n fun a => { a with state := .pause }) = v
  have hreports := reports_onBlock (F := F) (n := n) (w := v) why
  refine ⟨fun t ht => ?_, fun c _ hfin => .inl (hreports.state c ▸ hfin), fun i hi => ?_⟩
  · rw [hreports.posts.queue]
    exact mem_append_left _ ht
  · rw [Fields.recorded, hreports.finishedChildren]
    exact hi

theorem spares_finish (hlinked : Linked F w) (hn : n ≠ p) (isSucc : Bool) (why : Reason) :
    Spares p w (F.finish n isSucc why w) := by
  rcases finish_cases hlinked isSucc why with ⟨-, heq⟩ | ⟨-, hslows, -, heq⟩
  · rw [heq]
    exact .of_fields rfl
  rw [heq]
  obtain ⟨hreports, -⟩ := reports_dispatchFinish (F := F) (w := F.ending n w) (n := n) isSucc why
  have hended : Spares p w (w.modify n fun a => { a with state := .finished }.disableTimer) :=
    .of_fields (World.modify_fields_of_ne (Ne.symm hn) _)
  exact (hended.trans (.of_slows hslows)).trans (.of_fields (hreports.fields_of_ne p (Ne.symm hn)))

theorem spares_block (hn : n = p → (w.state p).isUnderway) (why : Reason) : Spares p w (F.block n why w) := by
  rcases block_cases (F := F) (w := w) (n := n) why with ⟨-, heq⟩ | ⟨-, heq⟩
  · rw [heq]
    exact .of_fields rfl
  rw [heq]
  by_cases hnp : n = p
  · subst hnp
    have hreports := reports_onBlock (F := F) (n := n) (w := w.modify n fun a => { a with state := .pause }) why
    refine ⟨fun _ => hn rfl, fun hfin => ?_, ?_, ?_⟩
    · rw [hreports.state, World.state_modify_self] at hfin
      cases hfin
    · rw [hreports.finishedChildren]
      exact World.modify_apply Fields.finishedChildren _ rfl n
    unfold onBlock
    split
    · rw [World.modify_fields_self, World.runNext_fields, World.modify_fields_self]
    · rw [World.modify_fields_self]
  · have hreports := reports_onBlock (F := F) (n := n)
      (w := w.modify n fun a => { a with state := .pause }) why
    refine .of_fields ?_
    rw [hreports.fields_of_ne p (Ne.symm hnp), World.modify_fields_of_ne (Ne.symm hnp)]

theorem heard_finish (h : Heard F p w) (hlinked : Linked F w) (hn : n ≠ p) (isSucc : Bool)
    (why : Reason) : Heard F p (F.finish n isSucc why w) :=
  h.spares (announces_finish hlinked isSucc why) (spares_finish hlinked hn isSucc why)

theorem heard_block (h : Heard F p w) (hn : n = p → (w.state p).isUnderway) (why : Reason) :
    Heard F p (F.block n why w) :=
  h.spares (announces_block why) (spares_block hn why)

theorem heard_finish_self (h : Tallied F p w) (hlinked : Linked F w) : Heard F p (F.finish p true {} w) := by
  rcases finish_cases (n := p) hlinked true {} with ⟨hdead, heq⟩ | ⟨hlive, hslows, -, heq⟩
  · rw [heq]
    refine .of_down h ?_
    rcases hdead with hdead | hdead <;> rw [hdead] <;> nofun
  have hfinished := finish_state hlinked hlive true {}
  have hrecorded : ((F.finish p true {} w).fields p).recorded = (w.fields p).recorded := by
    rw [heq, Fields.recorded, (reports_dispatchFinish true {}).1.finishedChildren,
      hslows.finishedChildren, World.modify_apply Fields.finishedChildren _ rfl, Fields.recorded]
  refine .of_down ⟨?_, fun i hi => ?_, fun _ => ?_⟩ ?_
  · rw [hrecorded]
    exact h.nodup
  · rw [hrecorded] at hi
    exact h.lt i hi
  · rw [heq, (reports_dispatchFinish true {}).2]
    rfl
  · rw [hfinished]
    nofun

end Forest

/-- What the starting of children does for `p`. -/
structure MindsChildren (F : Forest) (p : ActionId) (busy : ActionId → Prop) (n : ActionId)
    (startChild : ActionId → World → Bool × World) : Prop where
  frames : FramesChildren F busy n startChild
  announces : ∀ c, F.parent c = some n → ∀ v, Sane F busy v →
    Announces F p v (startChild c v).2
  heard : ∀ c, F.parent c = some n → ∀ v, Sane F busy v → Heard F p v →
    Heard F p (startChild c v).2
  live : ∀ c v, (startChild c v).1 = true → v.state c ≠ .finished
  fails : ∀ c v, (startChild c v).1 = false → (startChild c v).2 = v

/-- The children that `p` has started, or could not start, are known. -/
structure Hearing (F : Forest) (p : ActionId) (left : List (ActionId × Nat)) (w : World) : Prop
    extends Tallied F p w where
  idle : w.state p = .idle
  known : ∀ c ∈ F.children p, c ∉ left.map Prod.fst → Knows F p w c

namespace Forest

section Start

variable {startChild : ActionId → World → Bool × World}

theorem announces_startThisAction (hstart : MindsChildren F p busy n startChild)
    (hc : F.parent c = some n) (hsane : Sane F busy w) : Announces F p w (startThisAction startChild n c w).2 := by
  have hannounces := hstart.announces c hc w hsane
  unfold startThisAction
  dsimp only
  split
  · dsimp only
    exact hannounces.trans (.of_modify (.inl rfl) fun _ hi => hi)
  · exact hannounces

theorem heard_startThisAction (hstart : MindsChildren F p busy n startChild) (hn : n ≠ p)
    (hc : F.parent c = some n) (hsane : Sane F busy w) (h : Heard F p w) :
    Heard F p (startThisAction startChild n c w).2 := by
  have hheard := hstart.heard c hc w hsane h
  unfold startThisAction
  dsimp only
  split
  · dsimp only
    exact hheard.modify hn (.inl rfl) fun _ hi => hi
  · exact hheard

variable {next : Fields × Next}

theorem announces_counters (hnext : Advances (F.children n) (w.fields n) next) :
    Announces F p w (w.modify n fun _ => next.1) := by
  obtain ⟨i, r, hfields⟩ := hnext.fields
  refine .of_modify (.inl ?_) fun j hj => ?_
  · rw [hfields]
    rfl
  · rw [hfields]
    exact hj

theorem announces_proceed (hstart : MindsChildren F p busy n startChild)
    (hnext : Advances (F.children n) (w.fields n) next) (hsane : Sane F busy w)
    (hresets : ∀ resets child ifFails, next.2 = .start resets child ifFails → resets = []) :
    Announces F p w (F.proceed startChild n next w) := by
  have hcounters := announces_counters (p := p) hnext
  have hcounted := (framed_counters hnext hsane).2
  unfold proceed
  dsimp only
  generalize (w.modify n fun _ => next.1) = v at hcounters hcounted ⊢
  split
  · exact hcounters.trans (announces_finish hcounted.linked _ _)
  · exact hcounters
  next resets child ifFails heq =>
    obtain ⟨hchild, -⟩ := hnext.within resets child ifFails heq
    obtain rfl := hresets resets child ifFails heq
    have hc := parent_of_mem hchild
    have hstarted := hcounters.trans (announces_startThisAction hstart hc hcounted)
    have hsane' := (framed_startThisAction hstart.frames hc hcounted).2
    rw [World.forEach]
    split
    · exact hstarted.trans (announces_finish hsane'.linked _ _)
    · exact hstarted

theorem heard_proceed (hstart : MindsChildren F p busy n startChild)
    (hparallel : F.assembly p = .parallel) (hn : n ≠ p)
    (hnext : Advances (F.children n) (w.fields n) next) (hsane : Sane F busy w)
    (h : Heard F p w) : Heard F p (F.proceed startChild n next w) := by
  have hcounted := (framed_counters hnext hsane).2
  have hheard : Heard F p (w.modify n fun _ => next.1) :=
    h.spares (announces_counters hnext) (.of_fields (World.modify_fields_of_ne (Ne.symm hn) _))
  unfold proceed
  dsimp only
  generalize (w.modify n fun _ => next.1) = v at hcounted hheard ⊢
  split
  · exact heard_finish hheard hcounted.linked hn _ _
  · exact hheard
  next resets child ifFails heq =>
    obtain ⟨hchild, hmem⟩ := hnext.within resets child ifFails heq
    have hc := parent_of_mem hchild
    have hclears := clears_resets (w := v) fun r hr => parent_of_mem (hmem r hr)
    have hcleared := hcounted.clears hclears
    have hstarted := heard_startThisAction hstart hn hc hcleared (hheard.clears hparallel hcounted.tagged hclears)
    have hsane' := (framed_startThisAction hstart.frames hc hcleared).2
    split
    · exact heard_finish hstarted hsane'.linked hn _ _
    · exact hstarted

variable {left : List (ActionId × Nat)}

theorem announces_startChildren (hstart : MindsChildren F p busy n startChild) (hbusy : busy n)
    (mode : Mode) (hleft : ∀ item ∈ left, item.1 ∈ F.children n)
    (hsane : Sane F busy w) : Announces F p w (F.startChildren startChild n mode left w).2 := by
  induction left generalizing w with
  | nil => exact .refl w
  | cons item rest ih =>
    obtain ⟨child, index⟩ := item
    have hrest : ∀ item ∈ rest, item.1 ∈ F.children n := fun item hitem => hleft item (mem_cons_of_mem _ hitem)
    have hchild : F.parent child = some n := parent_of_mem (hleft _ mem_cons_self)
    have hannounces := hstart.announces child hchild w hsane
    have hsane' := (hstart.frames child hchild w hsane).2
    rw [startChildren]
    split
    · exact hannounces.trans (ih hrest hsane')
    have hnoted := hannounces.trans (.of_modify (n := n)
      (f := fun a => a.setFinished index false) (.inl rfl)
      fun i hi => Fields.mem_recorded_setFinished.mpr (.inr hi))
    have hsaneNoted := hsane'.noted hbusy index false
    split
    · have hlinked := (framed_finish (n := n) true {} hsaneNoted).2.linked
      exact (hnoted.trans (announces_finish hsaneNoted.linked _ _)).trans (.of_slows (slows_stopAllActions hlinked))
    · exact hnoted.trans (ih hrest hsaneNoted)

theorem heard_startChildren (hstart : MindsChildren F p busy n startChild) (hbusy : busy n)
    (hn : n ≠ p) (mode : Mode)
    (hleft : ∀ item ∈ left, item.1 ∈ F.children n) (hsane : Sane F busy w) (h : Heard F p w) :
    Heard F p (F.startChildren startChild n mode left w).2 := by
  induction left generalizing w with
  | nil => exact h
  | cons item rest ih =>
    obtain ⟨child, index⟩ := item
    have hrest : ∀ item ∈ rest, item.1 ∈ F.children n := fun item hitem => hleft item (mem_cons_of_mem _ hitem)
    have hchild : F.parent child = some n := parent_of_mem (hleft _ mem_cons_self)
    have hheard := hstart.heard child hchild w hsane h
    have hsane' := (hstart.frames child hchild w hsane).2
    rw [startChildren]
    split
    · exact ih hrest hsane' hheard
    have hnoted : Heard F p
        ((startChild child w).2.modify n fun a => a.setFinished index false) :=
      hheard.modify hn (.inl rfl) fun i hi => Fields.mem_recorded_setFinished.mpr (.inr hi)
    have hsaneNoted := hsane'.noted hbusy index false
    split
    · have hlinked := (framed_finish (n := n) true {} hsaneNoted).2.linked
      exact (heard_finish hnoted hsaneNoted.linked hn _ _).slows (slows_stopAllActions hlinked)
    · exact ih hrest hsaneNoted hnoted

/-- The loop of `ParallelAction::onStart` at `p` itself: a child that starts has not finished before,
and one that does not is put on the record. -/
theorem hearing_startChildren (hstart : MindsChildren F p busy p startChild) (hbusy : busy p)
    (mode : Mode)
    (hleft : ∀ item ∈ left, (F.children p)[item.2]? = some item.1) (hsane : Sane F busy w) (h : Hearing F p left w) :
    if (F.startChildren startChild p mode left w).1 then Heard F p (F.startChildren startChild p mode left w).2 ∧
        (F.startChildren startChild p mode left w).2.state p ≠ .idle
    else Hearing F p [] (F.startChildren startChild p mode left w).2 := by
  induction left generalizing w with
  | nil => exact h
  | cons item rest ih =>
    obtain ⟨child, index⟩ := item
    have hget : (F.children p)[index]? = some child := hleft _ mem_cons_self
    have hrest : ∀ item ∈ rest, (F.children p)[item.2]? = some item.1 := fun item hitem =>
      hleft item (mem_cons_of_mem _ hitem)
    have hchild : F.parent child = some p := parent_of_mem (mem_of_getElem? hget)
    have hindex : (F.children p).idxOf child = index := by
      obtain ⟨hlt, rfl⟩ := List.getElem?_eq_some_iff.mp hget
      exact (F.nodup p).idxOf_getElem index hlt
    have hannounces := hstart.announces child hchild w hsane
    obtain ⟨hlocal, hsane'⟩ := hstart.frames child hchild w hsane
    have hself : (startChild child w).2.fields p = w.fields p := hlocal.parent hchild
    have htallied : Tallied F p (startChild child w).2 := h.toTallied.spares (.of_fields hself)
    have hidle : (startChild child w).2.state p = .idle := (congrArg Fields.state hself).trans h.idle
    have hothers : ∀ c ∈ F.children p, c ∉ rest.map Prod.fst → c ≠ child →
        Knows F p (startChild child w).2 c := by
      intro c hc hnot hne
      refine hannounces.knows (parent_of_mem hc) (h.known c hc ?_)
      rw [map_cons, mem_cons, not_or]
      exact ⟨hne, hnot⟩
    rw [startChildren]
    split
    · next hstarted =>
        refine ih hrest hsane' ⟨htallied, hidle, fun c hc hnot => ?_⟩
        by_cases hcc : c = child
        · subst hcc
          intro hfin
          rcases hannounces.finished c (hasCallback_of_parent hchild) hfin with hfin' | hpending
          · exact absurd hfin' (hstart.live c w hstarted)
          · exact .inl hpending
        · exact hothers c hc hnot hcc
    · have hlt : index < (F.children p).length := (List.getElem?_eq_some_iff.mp hget).1
      have hnoted : Tallied F p
          ((startChild child w).2.modify p fun a => a.setFinished index false) :=
        htallied.setFinished hlt false
      have hsaneNoted := hsane'.noted hbusy index false
      have hidleNoted : ((startChild child w).2.modify p fun a =>
          a.setFinished index false).state p = .idle :=
        (World.state_modify _ rfl p).trans hidle
      split
      · have hlinked := (framed_finish (n := p) true {} hsaneNoted).2.linked
        have hslows := slows_stopAllActions (n := p) hlinked
        have hfinished := finish_state hsaneNoted.linked (n := p)
          (by rw [hidleNoted]; exact ⟨by simp, by simp⟩) true {}
        refine ⟨(heard_finish_self hnoted hsaneNoted.linked).slows hslows, fun hdown => ?_⟩
        rw [(hslows.finished p).mpr hfinished] at hdown
        cases hdown
      · refine ih hrest hsaneNoted ⟨hnoted, hidleNoted, fun c hc hnot => ?_⟩
        have hnotes : Announces F p (startChild child w).2
            ((startChild child w).2.modify p fun a => a.setFinished index false) :=
          .of_modify (.inl rfl) fun i hi => Fields.mem_recorded_setFinished.mpr (.inr hi)
        by_cases hcc : c = child
        · subst hcc
          intro _
          rw [World.modify_fields_self, Fields.mem_recorded_setFinished]
          exact .inr (.inl hindex)
        · exact hnotes.knows (parent_of_mem hc) (hothers c hc hnot hcc)

theorem announces_onStart (hstart : MindsChildren F p busy n startChild) (hbusy : busy n)
    (hsane : Sane F busy w) : Announces F p w (F.onStart startChild leaves n w) := by
  unfold onStart
  split
  · have hrecord : Announces F p w (w.record (.started n)) := .of_slows (.record (.started n))
    have hlinked := (Slows.record (w := w) (.started n)).linked hsane.linked
    split
    · exact hrecord
    · exact hrecord.trans (announces_finish hlinked _ _)
    · exact hrecord.trans (announces_block _)
  · next mode children hkind =>
      have hleft := mem_children_of_parallel hkind
      have hannounces := announces_startChildren hstart hbusy mode hleft hsane
      have hsane' := (framed_startChildren hstart.frames hbusy mode hleft hsane).2
      unfold Parallel.onStart
      dsimp only
      split
      · exact hannounces
      · split
        · exact hannounces.trans (announces_finish hsane'.linked _ _)
        · exact hannounces
  · exact announces_proceed hstart (Kind.advances_onStart _ _) hsane
      fun _ _ _ heq => onStart_resets _ _ heq

theorem heard_onStart (hstart : MindsChildren F p busy n startChild) (hbusy : busy n)
    (hparallel : F.assembly p = .parallel) (hn : n ≠ p) (hsane : Sane F busy w)
    (h : Heard F p w) : Heard F p (F.onStart startChild leaves n w) := by
  unfold onStart
  split
  · have hrecord : Heard F p (w.record (.started n)) := h.slows (.record (.started n))
    have hlinked := (Slows.record (w := w) (.started n)).linked hsane.linked
    split
    · exact hrecord
    · exact heard_finish hrecord hlinked hn _ _
    · exact heard_block hrecord (fun heq => absurd heq hn) _
  · next mode children hkind =>
      have hleft := mem_children_of_parallel hkind
      have hheard := heard_startChildren hstart hbusy hn mode hleft hsane h
      have hsane' := (framed_startChildren hstart.frames hbusy mode hleft hsane).2
      unfold Parallel.onStart
      dsimp only
      split
      · exact hheard
      · split
        · exact heard_finish hheard hsane'.linked hn _ _
        · exact hheard
  · exact heard_proceed hstart hparallel hn (Kind.advances_onStart _ _) hsane h

theorem hearing_onStart (hstart : MindsChildren F p busy p startChild) (hbusy : busy p)
    {mode : Mode} {children : List ActionId} (hkind : F.kind p = .parallel mode children)
    (hsane : Sane F busy w) (hidle : w.state p = .idle) (h : Tallied F p w) :
    Heard F p (F.onStart startChild leaves p w) ∧ ((F.onStart startChild leaves p w).state p = .idle →
        Hearing F p [] (F.onStart startChild leaves p w) ∧
          ((F.onStart startChild leaves p w).fields p).finishedChildren.length ≠ (F.children p).length) := by
  have hchildren : F.children p = children := by
    rw [Forest.children, hkind]
    rfl
  have hleft : ∀ item ∈ children.zipIdx, (F.children p)[item.2]? = some item.1 := by
    intro item hitem
    rw [hchildren]
    exact mk_mem_zipIdx_iff_getElem?.mp hitem
  have hhearing : Hearing F p children.zipIdx w := by
    refine ⟨h, hidle, fun c hc hnot => absurd ?_ hnot⟩
    rw [zipIdx_map_fst]
    exact hchildren ▸ hc
  have houtcome := hearing_startChildren hstart hbusy mode hleft hsane hhearing
  have hsane' := (framed_startChildren hstart.frames hbusy mode
    (fun item hitem => mem_of_getElem? (hleft item hitem)) hsane).2
  unfold onStart
  rw [hkind]
  unfold Parallel.onStart
  dsimp only
  rw [← hchildren] at houtcome hsane' ⊢
  generalize F.startChildren startChild p mode (F.children p).zipIdx w = left at *
  split
  · next hreturned =>
      rw [if_pos hreturned] at houtcome
      exact ⟨houtcome.1, fun hdown => absurd hdown houtcome.2⟩
  next hgone =>
    rw [if_neg hgone] at houtcome
    split
    · have hfinished := finish_state hsane'.linked (n := p)
        (by rw [houtcome.idle]; exact ⟨by simp, by simp⟩) true {}
      refine ⟨heard_finish_self houtcome.toTallied hsane'.linked, fun hdown => ?_⟩
      rw [hfinished] at hdown
      cases hdown
    · next hshort =>
        refine ⟨.of_down houtcome.toTallied ?_, fun _ => ⟨houtcome, hshort⟩⟩
        rw [houtcome.idle]
        exact Bool.false_ne_true

end Start

theorem start_live (h : (F.start leaves depth n w).1 = true) : w.state n ≠ .finished := by
  cases depth with
  | zero => cases h
  | succ depth =>
    rw [start] at h
    intro hfin
    rw [hfin] at h
    cases h

theorem minds_start (hparallel : F.assembly p = .parallel) (hsane : Sane F busy w) :
    Announces F p w (F.start leaves depth n w).2 ∧ (Heard F p w → Heard F p (F.start leaves depth n w).2) := by
  induction depth generalizing busy n w with
  | zero => exact ⟨.refl w, id⟩
  | succ depth ih =>
    have hbusy : Sane F (fun m => busy m ∨ m = n) w := hsane.mono fun m hm => .inl hm
    have hchildren : MindsChildren F p (fun m => busy m ∨ m = n) n (F.start leaves depth) :=
      ⟨framesChildren_start, fun _ _ _ hv => (ih hv).1, fun _ _ _ hv => (ih hv).2,
        fun _ _ => start_live, fun _ _ => start_eq_self⟩
    have hannounces : Announces F p w (F.onStart (F.start leaves depth) leaves n w) :=
      announces_onStart hchildren (.inr rfl) hbusy
    rw [start]
    split
    · exact ⟨.refl w, id⟩
    · next hidle =>
        by_cases hn : n = p
        · subst hn
          obtain ⟨mode, children, hkind⟩ := kind_of_parallel hparallel
          dsimp only
          split
          · next hstill =>
              dsimp only
              refine ⟨hannounces.trans (.of_modify (.inr (by simp)) fun _ hi => hi), fun h => ?_⟩
              obtain ⟨hknown, hshort⟩ := (hearing_onStart hchildren (.inr rfl) hkind hbusy hidle h.toTallied).2 hstill
              have hwakes : Announces F n (F.onStart (F.start leaves depth) leaves n w)
                  ((F.onStart (F.start leaves depth) leaves n w).modify n fun a =>
                    { a.enableTimer with state := .running }) :=
                .of_modify (.inr (by simp)) fun _ hi => hi
              refine ⟨⟨?_, fun i hi => ?_, fun hfin => ?_⟩, fun _ c hc => ?_, fun _ => ?_⟩
              · rw [World.modify_fields_self]
                exact hknown.nodup
              · rw [World.modify_fields_self] at hi
                exact hknown.lt i hi
              · rw [World.state_modify_self] at hfin
                cases hfin
              · exact hwakes.knows (parent_of_mem hc) (hknown.known c hc not_mem_nil)
              · rw [World.modify_fields_self]
                exact hshort
          · exact ⟨hannounces, fun h => (hearing_onStart hchildren (.inr rfl) hkind hbusy hidle h.toTallied).1⟩
        · dsimp only
          split
          · dsimp only
            exact ⟨hannounces.trans (.of_modify (.inr (by simp)) fun _ hi => hi), fun h =>
              (heard_onStart hchildren (.inr rfl) hparallel hn hbusy h).modify hn (.inr (by simp))
                fun _ hi => hi⟩
          · exact ⟨hannounces, fun h => heard_onStart hchildren (.inr rfl) hparallel hn hbusy h⟩
    · exact ⟨.refl w, id⟩

theorem mindsChildren_start (hparallel : F.assembly p = .parallel) :
    MindsChildren F p busy n (F.start leaves depth) :=
  ⟨framesChildren_start, fun _ _ _ hv => (minds_start hparallel hv).1,
    fun _ _ _ hv => (minds_start hparallel hv).2, fun _ _ => start_live, fun _ _ => start_eq_self⟩

theorem heard_handleChildFinish (hparallel : F.assembly p = .parallel) (hn : n ≠ p)
    (hsane : Sane F nobody w) (h : Heard F p w) : Heard F p (F.handleChildFinish leaves n c isSucc why w) := by
  have hforget := (framed_forget (n := n) hsane).2
  have hheard : Heard F p (w.modify n fun a => { a with currAction := none }) := h.modify hn (.inl rfl) fun _ hi => hi
  unfold handleChildFinish
  dsimp only
  generalize (w.modify n fun a => { a with currAction := none }) = v at hforget hheard ⊢
  split
  · exact heard_proceed (mindsChildren_start hparallel) hparallel hn
      (Kind.advances_onChildFinished ..) hforget hheard
  · exact hheard.modify hn (.inl rfl) fun _ hi => hi
  · exact hheard

theorem heard_onChildFinished_of_ne (hn : n ≠ p) (mode : Mode) (children : List ActionId)
    (index : Nat) (hsane : Sane F nobody w) (h : Heard F p w) :
    Heard F p (Parallel.onChildFinished F n mode children index isSucc w) := by
  unfold Parallel.onChildFinished
  split
  · have hnoted : Heard F p (w.modify n fun a => a.setFinished index isSucc) :=
      h.modify hn (.inl rfl) fun i hi => Fields.mem_recorded_setFinished.mpr (.inr hi)
    have hlinked : Linked F (w.modify n fun a => a.setFinished index isSucc) := by
      intro m c hc
      rw [World.modify_apply Fields.currAction _ rfl] at hc
      exact hsane.linked m c hc
    dsimp only
    split
    · have hslows := slows_stopAllActions (n := n) hlinked
      exact heard_finish (hnoted.slows hslows) (hslows.linked hlinked) hn _ _
    · split
      · exact heard_finish hnoted hlinked hn _ _
      · exact hnoted
  · exact h

theorem heard_onChildFinished_self {mode : Mode} (hc : c ∈ F.children p)
    (hsane : Sane F nobody w) (htallied : Tallied F p w)
    (hknown : (w.state p).isUnderway → ∀ d ∈ F.children p, d ≠ c → Knows F p w d) (hpause : w.state p ≠ .pause) :
    Heard F p (Parallel.onChildFinished F p mode (F.children p) ((F.children p).idxOf c) isSucc w) := by
  unfold Parallel.onChildFinished
  split
  · next hrunning =>
      have hup : (w.state p).isUnderway := by
        rw [hrunning]
        rfl
      have hnoted := htallied.setFinished (idxOf_lt_length_of_mem hc) isSucc
      have hlinked : Linked F
          (w.modify p fun a => a.setFinished ((F.children p).idxOf c) isSucc) := by
        intro m d hd
        rw [World.modify_apply Fields.currAction _ rfl] at hd
        exact hsane.linked m d hd
      have hnotes : Announces F p w
          (w.modify p fun a => a.setFinished ((F.children p).idxOf c) isSucc) :=
        .of_modify (.inl rfl) fun i hi => Fields.mem_recorded_setFinished.mpr (.inr hi)
      have hrecorded : (F.children p).idxOf c ∈ ((w.modify p fun a =>
          a.setFinished ((F.children p).idxOf c) isSucc).fields p).recorded := by
        rw [World.modify_fields_self]
        exact Fields.mem_recorded_setFinished.mpr (.inl rfl)
      generalize (w.modify p fun a => a.setFinished ((F.children p).idxOf c) isSucc) = v at *
      dsimp only
      split
      · have hslows := slows_stopAllActions (n := p) hlinked
        exact heard_finish_self (hnoted.spares (.of_slows hslows)) (hslows.linked hlinked)
      split
      · exact heard_finish_self hnoted hlinked
      next hshort =>
        refine ⟨hnoted, fun _ d hd => ?_, fun _ => hshort⟩
        by_cases hdc : d = c
        · exact fun _ => .inr (hdc ▸ hrecorded)
        · exact hnotes.knows (parent_of_mem hd) (hknown hup d hd hdc)
  · next hrunning =>
      refine .of_down htallied ?_
      revert hrunning hpause
      cases w.state p <;> simp [State.isUnderway]

theorem heard_onChildBlocked (hparallel : F.assembly p = .parallel) (h : Heard F p w) :
    Heard F p (F.onChildBlocked n why w) := by
  unfold onChildBlocked
  split
  · unfold Parallel.onChildBlocked
    split
    · next hrunning =>
        have hpaused := h.slows (slows_pauseAllActions (F := F) (n := n))
        refine heard_block hpaused (fun hn => ?_) why
        subst hn
        rw [pauseAllActions_underway, hrunning]
        rfl
    · exact h
  · next hkind =>
      refine heard_block h (fun hn => ?_) why
      subst hn
      obtain ⟨mode, children, heq⟩ := kind_of_parallel hparallel
      exact absurd heq (hkind mode children)

theorem heard_dequeue {posted : Posted} {rest : List Posted} (h : Heard F p w) (hqueue : w.queue = posted :: rest)
    (hother : ∀ c ∈ F.children p, ¬posted.call.isFinishOf c) : Heard F p { w with queue := rest } := by
  refine { h with known := fun hup c hc hfin => ?_ }
  rcases h.known hup c hc hfin with ⟨t, ht, hof⟩ | hrecorded
  · rw [hqueue] at ht
    rcases mem_cons.mp ht with rfl | ht
    · exact absurd hof (hother c hc)
    · exact .inl ⟨t, ht, hof⟩
  · exact .inr hrecorded

theorem heard_invoke {posted : Posted} {rest : List Posted} (hparallel : F.assembly p = .parallel)
    (hsane : Sane F nobody w) (h : Heard F p w) (hqueue : w.queue = posted :: rest)
    (hpause : ∀ c ∈ F.children p, posted.call.isFinishOf c → w.state p ≠ .pause) :
    Heard F p (F.invoke leaves posted.call { w with queue := rest }) := by
  have hdequeued := hsane.dequeue hqueue
  obtain ⟨runId, call⟩ := posted
  cases call with
  | finished c isSucc why =>
    have hself : Call.isFinishOf c (.finished c isSucc why) := Call.isFinishOf_iff.mpr ⟨isSucc, why, rfl⟩
    have hother : F.parent c ≠ some p → Heard F p { w with queue := rest } := by
      intro hne
      refine heard_dequeue h hqueue fun d hd hof => hne ?_
      rw [Call.finish_unique hof hself]
      exact parent_of_mem hd
    unfold invoke
    dsimp only
    split
    · next q hq =>
        unfold onChildFinished
        by_cases hqp : q = p
        · subst hqp
          have hc := mem_children.mpr hq
          obtain ⟨mode, children, hkind⟩ := kind_of_parallel hparallel
          have hchildren : F.children q = children := by
            rw [Forest.children, hkind]
            rfl
          rw [hkind]
          rw [← hchildren]
          refine heard_onChildFinished_self hc hdequeued { h with } ?_ (hpause c hc hself)
          intro hup d hd hdc hfin
          rcases h.known hup d hd hfin with ⟨t, ht, hof⟩ | hrecorded
          · rw [hqueue] at ht
            rcases mem_cons.mp ht with rfl | ht
            · exact absurd (Call.finish_unique hself hof) hdc
            · exact .inl ⟨t, ht, hof⟩
          · exact .inr hrecorded
        · have hrest := hother (by rw [hq]; exact fun heq => hqp (some.inj heq))
          split
          · exact heard_onChildFinished_of_ne hqp _ _ _ hdequeued hrest
          · exact heard_handleChildFinish hparallel hqp hdequeued hrest
    · next hnone => exact hother (by rw [hnone]; simp)
  | blocked c why =>
    have hrest : Heard F p { w with queue := rest } := heard_dequeue h hqueue fun _ _ => Bool.false_ne_true
    unfold invoke
    dsimp only
    split
    · exact heard_onChildBlocked hparallel hrest
    · exact hrest
  | childFinishFunc m func =>
    have hrest : Heard F p { w with queue := rest } := heard_dequeue h hqueue fun _ _ => Bool.false_ne_true
    have hm : m ≠ p := by
      rintro rfl
      have hserial := hsane.tagged.serial ⟨runId, .childFinishFunc m func⟩
        (by rw [hqueue]; exact mem_cons_self) m (decide_eq_true rfl)
      rw [hparallel] at hserial
      cases hserial
    cases func with
    | handle c isSucc why => exact heard_handleChildFinish hparallel hm hdequeued hrest
    | finish isSucc why => exact heard_finish hrest hdequeued.linked hm isSucc why

/-- What happens to `p` comes from its children and from `start`, `pause`, `resume`, `stop` and `reset` only. -/
def Driven (p : ActionId) (_ : World) (input : Input) : Prop :=
  match input.op with
  | .finish n _ _ | .block n _ | .timeout n => n ≠ p
  | _ => True

instance : ∀ input, Decidable (Driven p w input)
  | ⟨.finish n _ _, _⟩ | ⟨.block n _, _⟩ | ⟨.timeout n, _⟩ => inferInstanceAs (Decidable (n ≠ p))
  | ⟨.start _, _⟩ | ⟨.pause _, _⟩ | ⟨.resume _, _⟩ | ⟨.stop _, _⟩ | ⟨.reset _, _⟩ | ⟨.setTimeout _, _⟩
  | ⟨.resetTimeout _, _⟩ | ⟨.deliver, _⟩ => inferInstanceAs (Decidable True)

/-- No finish of a child is delivered to `p` in pause. -/
def Undropped (F : Forest) (p : ActionId) (w : World) (input : Input) : Prop :=
  match input.op with
  | .deliver => ∀ t ∈ w.queue.head?, ∀ c ∈ F.children p, t.call.isFinishOf c → w.state p ≠ .pause
  | _ => True

instance : ∀ input, Decidable (F.Undropped p w input)
  | ⟨.deliver, _⟩ => inferInstanceAs (Decidable (∀ t ∈ w.queue.head?, _))
  | ⟨.finish .., _⟩ | ⟨.block .., _⟩ | ⟨.timeout _, _⟩ | ⟨.start _, _⟩ | ⟨.pause _, _⟩ | ⟨.resume _, _⟩
  | ⟨.stop _, _⟩ | ⟨.reset _, _⟩ | ⟨.setTimeout _, _⟩ | ⟨.resetTimeout _, _⟩ => inferInstanceAs (Decidable True)

/-- **What a step preserves.** -/
theorem heard_step {input : Input} (hparallel : F.assembly p = .parallel) (hsane : Sane F nobody w)
    (h : Heard F p w) (hdriven : Driven p w input) (hundropped : F.Undropped p w input)
    (hstep : F.step w input = some w') : Heard F p w' := by
  obtain ⟨op, leaves⟩ := input
  cases op with
  | start n => exact some.inj hstep ▸ (minds_start hparallel hsane).2 h
  | pause n => exact some.inj hstep ▸ h.slows pause_spec.1
  | resume n => exact some.inj hstep ▸ h.resumes resumes_resume
  | stop n => exact some.inj hstep ▸ h.slows (slows_stop hsane.linked (Nat.lt_succ_self n))
  | reset n =>
    exact some.inj hstep ▸ h.clears hparallel hsane.tagged (clears_reset (Nat.lt_succ_self n))
  | finish n isSucc why =>
    exact some.inj hstep ▸ heard_finish h hsane.linked hdriven isSucc why
  | block n why =>
    exact some.inj hstep ▸ heard_block h (fun heq => absurd heq hdriven) why
  | setTimeout n =>
    exact some.inj hstep ▸ h.spares (.of_modify (.inl rfl) fun _ hi => hi) (.of_modify_same rfl rfl rfl)
  | resetTimeout n =>
    exact some.inj hstep ▸ h.spares (.of_modify (.inl rfl) fun _ hi => hi) (.of_modify_same rfl rfl rfl)
  | timeout n =>
    obtain ⟨-, heq⟩ := ite_none_right_eq_some.mp hstep
    have hdisabled : Sane F nobody (w.modify n Fields.disableTimer) :=
      hsane.modify_same (hsane.linked n) rfl rfl rfl rfl
    have hheard : Heard F p (w.modify n Fields.disableTimer) := h.modify hdriven (.inl rfl) fun _ hi => hi
    exact some.inj heq ▸ heard_finish hheard hdisabled.linked hdriven _ _
  | deliver =>
    unfold step at hstep
    dsimp only at hstep
    split at hstep
    · next posted rest hqueue =>
        exact some.inj hstep ▸ heard_invoke hparallel hsane h hqueue (hundropped posted (by rw [hqueue]; rfl))
    · cases hstep

theorem heard_init : Heard F p {} := .of_down ⟨.nil, fun _ hi => absurd hi not_mem_nil, nofun⟩ nofun

/-- **No finish is lost**: a parallel action whose children have finished has finished itself, if it was not stopped,
and no finish was delivered while it was in pause. -/
theorem finished_of_children_finished {mode : Mode} {children : List ActionId}
    (hkind : F.kind p = .parallel mode children) {inputs : List Input}
    (hdriven : Lib.Along F.step (Driven p) {} inputs)
    (hundropped : Lib.Along F.step (F.Undropped p) {} inputs)
    (hrun : Lib.run F.step {} inputs = some w) (hqueue : w.queue = [])
    (hall : ∀ c ∈ children, w.state c = .finished)
    (hstate : w.state p = .running ∨ w.state p = .finished) :
    w.state p = .finished ∧ (w.fields p).result = .success := by
  have hparallel : F.assembly p = .parallel := by
    rw [assembly, hkind]
    rfl
  have hchildren : F.children p = children := by
    rw [Forest.children, hkind]
    rfl
  have hinv : Sane F nobody w ∧ Heard F p w := by
    refine Lib.run_invariant (I := fun v => Sane F nobody v ∧ Heard F p v) ?_
      ⟨sane_init, heard_init⟩ (hdriven.and hundropped) hrun
    rintro v input v' ⟨hsane, h⟩ ⟨hdriven, hundropped⟩ hstep
    exact ⟨sane_step hsane hstep, heard_step hparallel hsane h hdriven hundropped hstep⟩
  obtain ⟨-, h⟩ := hinv
  rcases hstate with hrunning | hfinished
  · have hup : (w.state p).isUnderway := by
      rw [hrunning]
      rfl
    refine absurd ((Fields.length_eq_iff h.nodup h.lt).mpr fun i hi => ?_) (h.short hup)
    have hc : (F.children p)[i] ∈ F.children p := List.getElem_mem hi
    rcases h.known hup _ hc (hall _ (hchildren ▸ hc)) with ⟨t, ht, -⟩ | hrecorded
    · rw [hqueue] at ht
      cases ht
    · have hindex : (F.children p).idxOf (F.children p)[i] = i := (F.nodup p).idxOf_getElem i hi
      rwa [hindex] at hrecorded
  · exact ⟨hfinished, h.success hfinished⟩

/-- Two side by side. -/
def twoAbreast : Forest := .single 2 (.parallel .anyFail [0, 1]) (by decide) (by decide)

/-- One finishes before the pause and is heard of after it, the other one fails. -/
def pausedBetween : List Input :=
  [⟨.start 2, fun _ => .stays⟩, ⟨.finish 0 true {}, fun _ => .stays⟩, ⟨.pause 2, fun _ => .stays⟩,
    ⟨.resume 2, fun _ => .stays⟩, ⟨.deliver, fun _ => .stays⟩, ⟨.finish 1 false {}, fun _ => .stays⟩,
    ⟨.deliver, fun _ => .stays⟩]

theorem finished_pausedBetween :
    ∃ w, Lib.run twoAbreast.step {} pausedBetween = some w ∧ w.state 2 = .finished ∧
      (w.fields 2).result = .success := by
  have hdriven : Lib.Along twoAbreast.step (Driven 2) {} pausedBetween := by decide +kernel
  have hundropped : Lib.Along twoAbreast.step (twoAbreast.Undropped 2) {} pausedBetween := by
    decide +kernel
  have hsome : (Lib.run twoAbreast.step {} pausedBetween).map
      (fun w => (w.queue, w.state 0, w.state 1, w.state 2))
        = some ([], .finished, .finished, .finished) := by decide +kernel
  obtain ⟨w, hrun, hends⟩ := Option.map_eq_some_iff.mp hsome
  simp only [Prod.mk.injEq] at hends
  obtain ⟨hqueue, hfirst, hsecond, hparent⟩ := hends
  refine ⟨w, hrun, finished_of_children_finished rfl hdriven hundropped hrun hqueue ?_
    (.inr hparent)⟩
  intro c hc
  rcases List.mem_cons.mp hc with rfl | hc
  · exact hfirst
  · exact List.mem_singleton.mp hc ▸ hsecond

/-- A finish that is delivered in pause is lost: the action runs on, and nothing is left to end
it. -/
theorem pause_loses_finish :
    ∃ inputs w, Lib.Along twoAbreast.step (Driven 2) {} inputs ∧
      Lib.run twoAbreast.step {} inputs = some w ∧ w.queue = [] ∧
      (∀ c ∈ twoAbreast.children 2, w.state c = .finished) ∧ w.state 2 = .running := by
  have hdriven : Lib.Along twoAbreast.step (Driven 2) {} [⟨.start 2, fun _ => .stays⟩,
      ⟨.finish 0 true {}, fun _ => .stays⟩, ⟨.deliver, fun _ => .stays⟩,
      ⟨.finish 1 true {}, fun _ => .stays⟩, ⟨.pause 2, fun _ => .stays⟩,
      ⟨.deliver, fun _ => .stays⟩, ⟨.resume 2, fun _ => .stays⟩] := by decide +kernel
  have hsome : (Lib.run twoAbreast.step {} [⟨.start 2, fun _ => .stays⟩,
      ⟨.finish 0 true {}, fun _ => .stays⟩, ⟨.deliver, fun _ => .stays⟩,
      ⟨.finish 1 true {}, fun _ => .stays⟩, ⟨.pause 2, fun _ => .stays⟩,
      ⟨.deliver, fun _ => .stays⟩, ⟨.resume 2, fun _ => .stays⟩]).map
      (fun w => (w.queue, w.state 0, w.state 1, w.state 2))
        = some ([], .finished, .finished, .running) := by decide +kernel
  obtain ⟨w, hrun, hends⟩ := Option.map_eq_some_iff.mp hsome
  simp only [Prod.mk.injEq] at hends
  obtain ⟨hqueue, hfirst, hsecond, hparent⟩ := hends
  refine ⟨_, w, hdriven, hrun, hqueue, fun c hc => ?_, hparent⟩
  rcases List.mem_cons.mp hc with rfl | hc
  · exact hfirst
  · exact List.mem_singleton.mp hc ▸ hsecond

end Forest

end Tbox.Flow.Action
