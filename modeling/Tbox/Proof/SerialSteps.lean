import Tbox.Proof.SerialTree

/-!
# One step of a serial tree

Starting an action, and letting one go on after its child's finish, comes down to a leaf that is under way, or to a
finish that has yet to be told.
-/

open List Option

namespace Tbox.Flow.Action

open Lib (Below)

variable {F : Forest} {w w' v : World} {n m c d p : ActionId} {s : State} {i depth : Nat} {next : Next}
  {r : Outcome} {history new : History} {current : Option ActionId} {calls : List Call}
  {leaves : ActionId → LeafStart} {startChild : ActionId → World → Bool × World}

def Sole (F : Forest) (w : World) (n : ActionId) (current : Option ActionId) : Prop :=
  ∀ m, F.Below n m → F.kind m = .leaf → (w.state m).isUnderway = true → current = some m

theorem Sole.congr (h : Sole F w n current) (heq : ∀ m, F.Below n m → w'.fields m = w.fields m) :
    Sole F w' n current := by
  intro m hm hleaf hunderway
  rw [World.state, heq m hm] at hunderway
  exact h m hm hleaf hunderway

theorem Sole.of_children (hserial : F.assembly n = .serial)
    (h : ∀ c, F.parent c = some n → Sole F w c none ∨ Sole F w c current) : Sole F w n current := by
  intro m hm hleaf hunderway
  rcases hm.eq_or_child with rfl | ⟨c, hc, hcm⟩
  · exact absurd hleaf (Forest.kind_ne_leaf hserial)
  · rcases h c hc with hnone | hsole
    · exact nomatch hnone m hcm hleaf hunderway
    · exact hsole m hcm hleaf hunderway

theorem Sole.of_idle (hfresh : Fresh F w n) (hidle : w.state n = .idle) : Sole F w n current := by
  intro m hm _ hunderway
  rw [hfresh.idle_below hidle hm] at hunderway
  cases hunderway

structure Goes (F : Forest) (s : State) (n : ActionId) (w w' : World) (history new : History)
    (current : Option ActionId) (calls : List Call) : Prop where
  keeps : Local F n w w'
  fresh : Fresh F w' n
  under : Under F w' s n history current calls
  queue : w'.queue.map Posted.call = w.queue.map Posted.call ++ calls
  adds : Adds F n w w' history new current
  sole : Sole F w' n current

namespace Forest

variable {kind : Kind}

theorem onChildFinished_eq (hstructured : kind.structured) (a : Fields) (c : ActionId) (r : Outcome) :
    kind.onChildFinished a c r.1 r.2 =
      ({ a with index := (kind.goes a.index c r).1 }, (kind.goes a.index c r).2) := by
  unfold Kind.goes Kind.onChildFinished
  split
  · rfl
  cases kind with
  | sequence mode children =>
    dsimp only [Sequence.onChildFinished]
    split <;> rfl
  | ifThen items =>
    dsimp only [IfThen.onIfActionFinished]
    split
    · split <;> rfl
    · rfl
  | loopIf ifAction execAction finishResult =>
    dsimp only
    split <;> rfl
  | repeatTimes => cases hstructured
  | parallel => cases hstructured
  | _ => rfl

theorem onStart_eq (hstructured : kind.structured) (hserial : kind.assembly = .serial) {a : Fields}
    (hindex : a.index = 0) : kind.onStart a = ({ a with index := kind.begins.1 }, kind.begins.2) := by
  have hself : ({ a with index := 0 } : Fields) = a := by
    rw [← hindex]
  cases kind with
  | sequence mode children =>
    unfold Kind.begins Kind.onStart Sequence.onStart Sequence.startOtheriseFinish
    rw [hindex, hself]
  | ifThen items => rfl
  | repeatTimes => cases hstructured
  | leaf => cases hserial
  | parallel => cases hstructured
  | _ =>
    unfold Kind.begins Kind.onStart
    rw [hself]

theorem begins_ne_outOfRange (hserial : kind.assembly = .serial) : kind.begins.2 ≠ .outOfRange := by
  cases kind with
  | sequence mode children =>
    unfold Kind.begins Kind.onStart Sequence.onStart Sequence.startOtheriseFinish
    dsimp only
    split <;> nofun
  | ifThen items =>
    unfold Kind.begins Kind.onStart IfThen.onStart IfThen.doStart
    dsimp only
    split <;> nofun
  | leaf => cases hserial
  | parallel => cases hserial
  | _ => nofun

theorem begins_resets {resets : List ActionId} {ifFails : Option (Bool × Reason)}
    (h : kind.begins.2 = .start resets c ifFails) : resets = [] := by
  cases kind with
  | sequence mode children =>
    unfold Kind.begins Kind.onStart Sequence.onStart Sequence.startOtheriseFinish at h
    dsimp only at h
    split at h
    · cases h
      rfl
    · cases h
  | ifThen items =>
    unfold Kind.begins Kind.onStart IfThen.onStart IfThen.doStart at h
    dsimp only at h
    split at h
    · cases h
      rfl
    · cases h
  | leaf => cases h
  | parallel => cases h
  | _ =>
    cases h
    rfl

theorem goes_ne_outOfRange (hstructured : kind.structured) (hat : kind.At i c) :
    (kind.goes i c r).2 ≠ .outOfRange := by
  unfold Kind.goes Kind.onChildFinished
  split
  · nofun
  next hlast =>
    cases kind with
    | sequence mode children =>
      dsimp only [Sequence.onChildFinished, Sequence.startOtheriseFinish]
      split
      · nofun
      · dsimp only
        split <;> nofun
    | ifThen items =>
      obtain ⟨item, hitem, -⟩ := hat
      dsimp only [IfThen.onIfActionFinished, IfThen.doStart]
      split
      · rw [hitem]
        nofun
      · dsimp only
        split <;> nofun
    | ifElse ifAction thenAction elseAction =>
      dsimp only [IfElse.onCondActionFinished]
      split <;> nofun
    | switch selector default items =>
      dsimp only [Switch.onSwitchActionFinished]
      split
      · split <;> nofun
      · nofun
    | loop body mode =>
      dsimp only [Loop.onChildFinished]
      split <;> nofun
    | loopIf ifAction execAction finishResult =>
      dsimp only
      split
      · dsimp only [LoopIf.onIfFinished]
        split <;> nofun
      · nofun
    | wrapper body mode => cases mode <;> nofun
    | composite body => exact absurd rfl hlast
    | leaf => cases hat
    | parallel => cases hstructured
    | repeatTimes => cases hstructured

theorem Did.ended {resets : List ActionId} {ifFails : Option (Bool × Reason)}
    (h : F.Did n i (.start resets c ifFails) history) (hc : F.Ended c new r) :
    F.Did n ((F.kind n).goes i c r).1 ((F.kind n).goes i c r).2 (history ++ new) := by
  rcases hc with ⟨hleaf, rfl⟩ | ⟨j, hdid⟩
  · exact h.leaf hleaf r
  · exact h.goes hdid

end Forest

theorem Forest.parent_of_silent (h : ¬F.hasCallback n = true) : F.parent n = none := by
  rw [Forest.hasCallback, Bool.or_eq_true, not_or] at h
  exact not_isSome_iff_eq_none.mp h.1

theorem Finishes.tip (h : Finishes F n r w w') (hended : F.Ended n history r) :
    Tip F w' s n history none (if F.hasCallback n then [.finished n r.1 r.2] else []) := by
  split_ifs with hcallback
  · exact .ended h.state hended
  · exact .told (Forest.parent_of_silent hcallback) h.state hended

theorem Finishes.congr_below (h : Finishes F n r w w') (hc : F.parent c = some n) (hm : F.Below c m) :
    w'.fields m = w.fields m := by
  refine h.fields_of_ne m ?_
  rintro rfl
  exact Below.not_parent Forest.rank_lt hc hm

variable {f : Fields → Fields}

theorem Finishes.of_modify (h : Finishes F n r (w.modify n f) w') : Finishes F n r w w' := by
  refine ⟨fun m hm => ?_, h.state, h.queue, h.log⟩
  rw [h.fields_of_ne m hm, World.modify_fields_of_ne hm]

theorem Goes.of_finishes (h : Finishes F n r w w') (hserial : F.assembly n = .serial)
    (hended : F.Ended n history r) (hfresh : ∀ c, F.parent c = some n → Fresh F w c)
    (hsole : ∀ c, F.parent c = some n → Sole F w c none) :
    Goes F s n w w' history [] none (if F.hasCallback n then [.finished n r.1 r.2] else []) := by
  have hleaf := Forest.kind_ne_leaf hserial
  refine ⟨fun m hm => h.fields_of_ne m ?_, ?_, ⟨n, [], history, .here, h.tip hended, rfl⟩, h.queue, ⟨?_⟩, ?_⟩
  · rintro rfl
    exact hm (Below.refl m)
  · refine Fresh.of_children (by rw [h.state]; exact nofun) fun c hc => ?_
    exact (hfresh c hc).congr fun m hm => h.congr_below hc hm
  · refine ⟨[.finished n r.1 r.2], h.log, ?_, fun m isSucc why hmem => ?_, fun isSucc why hmem => ?_,
      fun _ => ⟨r, mem_singleton_self _⟩⟩
    · rw [Forest.leafEvents, filter_singleton]
      simp [hleaf, events]
    · obtain ⟨rfl, -, -⟩ := Event.finished.inj (mem_singleton.mp hmem)
      exact Below.refl m
    · obtain ⟨-, rfl, rfl⟩ := Event.finished.inj (mem_singleton.mp hmem)
      exact ⟨hended, h.state⟩
  · exact Sole.of_children hserial fun c hc => .inl ((hsole c hc).congr fun m hm => h.congr_below hc hm)

theorem Forest.startThisAction_of_true (h : (startChild c w).1 = true) : startThisAction startChild n c w =
      (true, (startChild c w).2.modify n fun a => { a with currAction := some c }) := by
  rw [startThisAction]
  exact if_pos h

def StartsFresh (F : Forest) (n : ActionId) (startChild : ActionId → World → Bool × World) : Prop :=
  ∀ c, F.parent c = some n → ∀ v : World, v.state c = .idle → Fresh F v c →
    (startChild c v).1 = true ∧ ∃ new current calls, Goes F .running c v (startChild c v).2 new new current calls

structure Decided (F : Forest) (w : World) (n : ActionId) (a : Fields) (next : Next) (history : History) : Prop where
  did : F.Did n a.index next history
  curr : a.currAction = none
  kept : a.childFinishFunc = none
  state : a.state = w.state n
  known : next ≠ .outOfRange
  fresh : ∀ c, F.parent c = some n → Fresh F w c
  sole : ∀ c, F.parent c = some n → Sole F w c none
  ready : ∀ resets c ifFails, next = .start resets c ifFails →
    resets = [] ∧ (∀ d, F.parent d = some n → d = c ∨ (F.kind n).Later c d → w.state d = .idle) ∨
      resets = F.children n ∧ w.queue = []

structure Cleared (F : Forest) (n c : ActionId) (a : Fields) (w u : World) : Prop where
  keeps : Local F n w u
  self : u.fields n = a
  queue : u.queue = w.queue
  log : u.log = w.log
  fresh : ∀ d, F.parent d = some n → Fresh F u d
  sole : ∀ d, F.parent d = some n → Sole F u d none
  idle : ∀ d, F.parent d = some n → d = c ∨ (F.kind n).Later c d → u.state d = .idle

theorem Decided.cleared {a : Fields} {resets : List ActionId} {ifFails : Option (Bool × Reason)}
    (h : Decided F w n a (.start resets c ifFails) history) :
    Cleared F n c a w (World.forEach (F.reset n) resets (w.modify n fun _ => a)) := by
  have hmodify : Local F n w (w.modify n fun _ => a) := .modify _
  have hbelow : ∀ d, F.parent d = some n → ∀ m, F.Below d m →
      (w.modify n fun _ => a).fields m = w.fields m := by
    intro d hd m hm
    refine World.modify_fields_of_ne ?_ _
    rintro rfl
    exact Below.not_parent Forest.rank_lt hd hm
  have hfresh : ∀ d, F.parent d = some n → Fresh F (w.modify n fun _ => a) d :=
    fun d hd => (h.fresh d hd).congr (hbelow d hd)
  have hsole : ∀ d, F.parent d = some n → Sole F (w.modify n fun _ => a) d none :=
    fun d hd => (h.sole d hd).congr (hbelow d hd)
  rcases h.ready resets c ifFails rfl with ⟨rfl, hidle⟩ | ⟨rfl, hqueue⟩
  · refine ⟨hmodify, World.modify_fields_self _, rfl, rfl, hfresh, hsole, fun d hd hlater => ?_⟩
    rw [World.forEach, World.state, hbelow d hd d (Below.refl d)]
    exact hidle d hd hlater
  have hresets : ∀ d ∈ F.children n, F.parent d = some n := fun d hd => Forest.parent_of_mem hd
  have hclears := Forest.clears_resets (w := w.modify n fun _ => a) hresets
  have hfresh' := Forest.fresh_resets hresets hfresh
  have hidle : ∀ d, F.parent d = some n →
      (World.forEach (F.reset n) (F.children n) (w.modify n fun _ => a)).state d = .idle :=
    fun d hd => Forest.resets_idle hresets (Forest.mem_children.mpr hd)
  refine ⟨?_, ?_, ?_, Forest.resets_log _, hfresh', fun d hd => .of_idle (hfresh' d hd) (hidle d hd),
    fun d hd _ => hidle d hd⟩
  · exact hmodify.trans (.forEach hresets fun d hd v => Forest.local_reset (F.child_lt n d (hresets d hd)))
  · refine (Forest.resets_fields hresets (fun hn => ?_) (.inl rfl)).trans (World.modify_fields_self _)
    exact lt_irrefl n (F.child_lt n n (hresets n hn))
  · rw [hqueue]
    exact sublist_nil.mp (hqueue ▸ hclears.sublist)

theorem Decided.goes {a : Fields} {u u' : World} {resets : List ActionId} {ifFails : Option (Bool × Reason)}
    (h : Decided F w n a (.start resets c ifFails) history) (hu : Cleared F n c a w u)
    (hgoes : Goes F .running c u u' new new current calls) (f : Fields → Fields)
    (hstate : (f { a with currAction := some c }).state = .running)
    (hindex : (f { a with currAction := some c }).index = a.index)
    (hcurr : (f { a with currAction := some c }).currAction = some c)
    (hkept : (f { a with currAction := some c }).childFinishFunc = none) :
    Goes F .running n w ((u'.modify n fun a => { a with currAction := some c }).modify n f) (history ++ new) new
      current calls := by
  have hc := h.did.parent
  have hserial := h.did.serial
  have hself : ((u'.modify n fun a => { a with currAction := some c }).modify n f).fields n
      = f { a with currAction := some c } := by
    rw [World.modify_fields_self, World.modify_fields_self, hgoes.keeps.parent hc, hu.self]
  have hof_ne : ∀ m, m ≠ n →
      ((u'.modify n fun a => { a with currAction := some c }).modify n f).fields m = u'.fields m := by
    intro m hm
    rw [World.modify_fields_of_ne hm, World.modify_fields_of_ne hm]
  have hbelow : ∀ d, F.parent d = some n → ∀ m, F.Below d m →
      ((u'.modify n fun a => { a with currAction := some c }).modify n f).fields m = u'.fields m := by
    intro d hd m hm
    refine hof_ne m ?_
    rintro rfl
    exact Below.not_parent Forest.rank_lt hd hm
  have hsibling : ∀ d, F.parent d = some n → d ≠ c → ∀ m, F.Below d m →
      ((u'.modify n fun a => { a with currAction := some c }).modify n f).fields m = u.fields m :=
    fun d hd hne m hm => (hbelow d hd m hm).trans (hgoes.keeps.sibling hc hd hne.symm hm)
  have hlink : Link F ((u'.modify n fun a => { a with currAction := some c }).modify n f) .running n c history := by
    refine ⟨?_, ?_, ?_, ⟨resets, ifFails, ?_⟩, fun d hd hlater => ?_⟩
    · rw [World.state, hself]
      exact hstate
    · rw [hself]
      exact hcurr
    · rw [hself]
      exact hkept
    · rw [hself, hindex]
      exact h.did
    · rw [World.state, hsibling d hd hlater.ne.symm d (Below.refl d)]
      exact hu.idle d hd (.inr hlater)
  obtain ⟨news, hlog, hevents, hmem, -⟩ := hgoes.adds.events
  refine ⟨fun m hm => ?_, ?_, ?_, ?_, ⟨news, ?_, hevents, fun m isSucc why hnews => ?_,
    fun isSucc why hnews => ?_, fun hfinished => ?_⟩, ?_⟩
  · have hmn : m ≠ n := by
      rintro rfl
      exact hm (Below.refl m)
    rw [hof_ne m hmn, hgoes.keeps m fun hcm => hm (Below.of_child hcm hc)]
    exact hu.keeps m hm
  · refine Fresh.of_children ?_ fun d hd => ?_
    · rw [World.state, hself, hstate]
      simp
    by_cases hdc : d = c
    · rw [hdc]
      exact hgoes.fresh.congr (hbelow c hc)
    · exact (hu.fresh d hd).congr (hsibling d hd hdc)
  · exact (hgoes.under.congr (hbelow c hc)).of_link hlink
  · rw [← hu.queue]
    exact hgoes.queue
  · rw [← hu.log]
    exact hlog
  · exact Below.of_child (hmem m isSucc why hnews) hc
  · exact absurd (hmem n isSucc why hnews) (Below.not_parent Forest.rank_lt hc)
  · rw [hlink.state] at hfinished
    cases hfinished
  refine Sole.of_children hserial fun d hd => ?_
  by_cases hdc : d = c
  · rw [hdc]
    exact .inr (hgoes.sole.congr (hbelow c hc))
  · exact .inl ((hu.sole d hd).congr (hsibling d hd hdc))

theorem Decided.proceed {a : Fields} (h : Decided F w n a next history)
    (hlive : w.state n ≠ .finished ∧ w.state n ≠ .stoped) (hchild : StartsFresh F n startChild) :
    ((F.proceed startChild n (a, next) w).state n = .finished ∧
        ∃ calls, Goes F .running n w (F.proceed startChild n (a, next) w) history [] none calls) ∨
      ∃ c new current calls, (F.proceed startChild n (a, next) w).fields n = { a with currAction := some c } ∧
        ∀ f : Fields → Fields, (f { a with currAction := some c }).state = .running →
          (f { a with currAction := some c }).index = a.index →
          (f { a with currAction := some c }).currAction = some c →
          (f { a with currAction := some c }).childFinishFunc = none →
          Goes F .running n w ((F.proceed startChild n (a, next) w).modify n f) (history ++ new) new current calls := by
  cases next with
  | outOfRange => exact absurd rfl h.known
  | finish isSucc why =>
    have hself : (w.modify n fun _ => a).fields n = a := World.modify_fields_self _
    have hfinishes : Finishes F n (isSucc, why) (w.modify n fun _ => a)
        (F.finish n isSucc why (w.modify n fun _ => a)) := by
      refine Forest.finishes_finish ?_ ?_ (isSucc, why)
      · rw [World.state, hself, h.state]
        exact hlive
      · refine .inr ?_
        rw [hself]
        exact h.curr
    exact .inl ⟨hfinishes.state, _, Goes.of_finishes hfinishes.of_modify h.did.serial
      (.inr ⟨a.index, h.did⟩) h.fresh h.sole⟩
  | start resets c ifFails =>
    have hc := h.did.parent
    have hu := h.cleared
    obtain ⟨hstarted, new, current, calls, hgoes⟩ := hchild c hc _ (hu.idle c hc (.inl rfl)) (hu.fresh c hc)
    have hproceed : F.proceed startChild n (a, .start resets c ifFails) w =
        (startChild c (World.forEach (F.reset n) resets (w.modify n fun _ => a))).2.modify n
          fun a => { a with currAction := some c } := by
      rw [Forest.proceed]
      dsimp only
      rw [Forest.startThisAction_of_true hstarted]
    refine .inr ⟨c, new, current, calls, ?_, fun f hstate hindex hcurr hkept => ?_⟩
    · rw [hproceed, World.modify_fields_self, hgoes.keeps.parent hc, hu.self]
    · rw [hproceed]
      exact h.goes hu hgoes f hstate hindex hcurr hkept

theorem Sole.of_parent (h : Sole F w n current) (hc : F.parent c = some n) : Sole F w c current :=
  fun m hm => h m (Below.of_child hm hc)

theorem Fresh.decided (h : Fresh F w n) (hidle : w.state n = .idle) (hserial : F.assembly n = .serial)
    (hstructured : (F.kind n).structured) :
    Decided F w n ((F.kind n).onStart (w.fields n)).1 ((F.kind n).onStart (w.fields n)).2 [] := by
  obtain ⟨hblank, hchildren⟩ := h n (Below.refl n) hidle
  obtain ⟨hindex, hcurr, hkept⟩ := hblank hserial
  rw [Forest.onStart_eq hstructured hserial hindex]
  refine ⟨.begins hserial, hcurr, hkept, rfl, Forest.begins_ne_outOfRange hserial, fun c hc => h.of_parent hc,
    fun c hc => .of_idle (h.of_parent hc) (hchildren c hc), fun resets c ifFails hnext => ?_⟩
  exact .inl ⟨Forest.begins_resets hnext, fun d hd _ => hchildren d hd⟩

namespace Forest

theorem parent_ne_of_leaf (hleaf : F.kind n = .leaf) : F.parent c ≠ some n := by
  refine parent_ne_of_none ?_
  rw [assembly, hleaf]
  rfl

theorem leafEvents_finished (hleaf : F.kind n = .leaf) (isSucc : Bool) (why : Reason) :
    F.leafEvents [.finished n isSucc why] = [.finished n isSucc why] := by
  rw [leafEvents, filter_singleton]
  simp [hleaf]

end Forest

theorem Fresh.of_leaf (hleaf : F.kind n = .leaf) (hne : w.state n ≠ .idle) : Fresh F w n :=
  .of_children hne fun _ hc => absurd hc (Forest.parent_ne_of_leaf hleaf)

theorem below_leaf (hleaf : F.kind n = .leaf) (hm : F.Below n m) : m = n := by
  rcases hm.eq_or_child with heq | ⟨c, hc, -⟩
  · exact heq
  · exact absurd hc (Forest.parent_ne_of_leaf hleaf)

theorem Finishes.sole_leaf (h : Finishes F n r w w') (hleaf : F.kind n = .leaf) : Sole F w' n none := by
  intro m hm _ hunderway
  rw [below_leaf hleaf hm, h.state] at hunderway
  cases hunderway

theorem Finishes.fresh_leaf (h : Finishes F n r w w') (hleaf : F.kind n = .leaf) : Fresh F w' n := by
  refine .of_leaf hleaf ?_
  rw [h.state]
  exact nofun

theorem Finishes.keeps (h : Finishes F n r w w') : Local F n w w' := by
  intro m hm
  refine h.fields_of_ne m ?_
  rintro rfl
  exact hm (Below.refl m)

theorem Goes.of_stays (hleaf : F.kind n = .leaf) :
    Goes F .running n w ((w.record (.started n)).modify n fun a => { a.enableTimer with state := .running })
      [] [] (some n) [] := by
  have hstate : ((w.record (.started n)).modify n fun a => { a.enableTimer with state := .running }).state n =
      .running := World.state_modify_self _
  refine ⟨.modify _, ?_, ⟨n, [], [], .here, .leaf hleaf hstate, rfl⟩, (append_nil _).symm,
    ⟨[.started n], rfl, rfl, fun m isSucc why hmem => ?_, fun isSucc why hmem => ?_, fun hfinished => ?_⟩,
    fun m hm _ _ => ?_⟩
  · refine .of_leaf hleaf ?_
    rw [hstate]
    exact nofun
  · exact nomatch mem_singleton.mp hmem
  · exact nomatch mem_singleton.mp hmem
  · rw [hstate] at hfinished
    cases hfinished
  · rw [below_leaf hleaf hm]

theorem Goes.of_leaf (hleaf : F.kind n = .leaf) (h : Finishes F n r (w.record (.started n)) w') :
    Goes F s n w w' [(n, r)] [(n, r)] none (if F.hasCallback n then [.finished n r.1 r.2] else []) := by
  have hended : F.Ended n [(n, r)] r := .inl ⟨hleaf, rfl⟩
  have hmem : ∀ m isSucc why, .finished m isSucc why ∈ [Event.started n, .finished n r.1 r.2] →
      m = n ∧ (isSucc, why) = r := by
    intro m isSucc why hin
    rcases mem_cons.mp hin with hstarted | hin
    · cases hstarted
    · obtain ⟨rfl, rfl, rfl⟩ := Event.finished.inj (mem_singleton.mp hin)
      exact ⟨rfl, rfl⟩
  refine ⟨h.keeps, h.fresh_leaf hleaf, ⟨n, [], [(n, r)], .here, h.tip hended, rfl⟩, h.queue,
    ⟨[.started n, .finished n r.1 r.2], ?_, ?_, fun m isSucc why hin => ?_, fun isSucc why hin => ?_,
      fun _ => ⟨r, mem_cons_of_mem _ (mem_singleton_self _)⟩⟩, h.sole_leaf hleaf⟩
  · rw [h.log]
    exact append_assoc _ _ _
  · refine (Forest.leafEvents_append (F := F) [.started n] [.finished n r.1 r.2]).trans ?_
    rw [Forest.leafEvents_finished hleaf]
    rfl
  · rw [(hmem m isSucc why hin).1]
    exact Below.refl n
  · rw [(hmem n isSucc why hin).2]
    exact ⟨hended, h.state⟩

namespace Forest

theorem kind_of_none (h : F.assembly n = .none) : F.kind n = .leaf := by
  unfold assembly at h
  revert h
  cases F.kind n with
  | leaf => exact fun _ => rfl
  | _ => exact nofun

theorem Structured.not_parallel (hs : F.Structured n) : F.assembly n ≠ .parallel := by
  have hstructured := hs n (Below.refl n)
  unfold assembly
  revert hstructured
  cases F.kind n with
  | parallel => exact nofun
  | _ => exact fun _ => nofun

theorem onStart_serial (hserial : F.assembly n = .serial) :
    F.onStart startChild leaves n w = F.proceed startChild n ((F.kind n).onStart (w.fields n)) w := by
  unfold assembly at hserial
  rw [onStart]
  revert hserial
  cases F.kind n with
  | leaf => exact nofun
  | parallel => exact nofun
  | _ => exact fun _ => rfl

theorem onStart_stays (hleaf : F.kind n = .leaf) (h : leaves n = .stays) :
    F.onStart startChild leaves n w = w.record (.started n) := by
  rw [onStart, hleaf]
  rw [h]

theorem onStart_finishes {isSucc : Bool} {why : Reason} (hleaf : F.kind n = .leaf)
    (h : leaves n = .finishes isSucc why) :
    F.onStart startChild leaves n w = F.finish n isSucc why (w.record (.started n)) := by
  rw [onStart, hleaf]
  rw [h]

theorem start_of_idle (hidle : w.state n = .idle) : F.start leaves (depth + 1) n w =
      (true, if (F.onStart (F.start leaves depth) leaves n w).state n = .idle then
        (F.onStart (F.start leaves depth) leaves n w).modify n fun a => { a.enableTimer with state := .running }
      else F.onStart (F.start leaves depth) leaves n w) := by
  rw [start, hidle]
  dsimp only
  split_ifs <;> rfl

end Forest

/-- **An action that is as good as new starts**, down to a leaf under way or to a finish that is posted. -/
theorem start_goes (hs : F.Structured n) (hleaves : ∀ m why, leaves m ≠ .blocks why) (hidle : w.state n = .idle)
    (hfresh : Fresh F w n) (hn : n < depth) : (F.start leaves depth n w).1 = true ∧
      ∃ new current calls, Goes F .running n w (F.start leaves depth n w).2 new new current calls := by
  induction depth generalizing n w with
  | zero => exact absurd hn (Nat.not_lt_zero n)
  | succ depth ih =>
    have hlive : w.state n ≠ .finished ∧ w.state n ≠ .stoped := by
      rw [hidle]
      exact ⟨nofun, nofun⟩
    rw [Forest.start_of_idle hidle]
    refine ⟨rfl, ?_⟩
    dsimp only
    cases hassembly : F.assembly n with
    | parallel => exact absurd hassembly hs.not_parallel
    | none =>
      have hleaf := Forest.kind_of_none hassembly
      cases hstart : leaves n with
      | blocks why => exact absurd hstart (hleaves n why)
      | stays =>
        rw [Forest.onStart_stays hleaf hstart, if_pos (show (w.record (.started n)).state n = .idle from hidle)]
        exact ⟨[], some n, [], .of_stays hleaf⟩
      | finishes isSucc why =>
        have hfinishes : Finishes F n (isSucc, why) (w.record (.started n))
            (F.finish n isSucc why (w.record (.started n))) :=
          Forest.finishes_finish (w := w.record (.started n)) hlive (.inl hleaf) (isSucc, why)
        rw [Forest.onStart_finishes hleaf hstart, if_neg (by rw [hfinishes.state]; exact nofun)]
        exact ⟨[(n, (isSucc, why))], none, _, .of_leaf hleaf hfinishes⟩
    | serial =>
      have hdecided := hfresh.decided hidle hassembly (hs n (Below.refl n))
      have hchild : StartsFresh F n (F.start leaves depth) := by
        intro c hc v hv hvfresh
        exact ih (hs.of_parent hc) hv hvfresh (Forest.child_lt_depth hn hc)
      rw [Forest.onStart_serial hassembly]
      rcases hdecided.proceed hlive hchild with ⟨hfinished, calls, hgoes⟩ | ⟨c, new, current, calls, hself, hgoes⟩
      · rw [if_neg (by rw [hfinished]; exact nofun)]
        exact ⟨[], none, calls, hgoes⟩
      have hstate : (F.proceed (F.start leaves depth) n ((F.kind n).onStart (w.fields n)) w).state n = .idle := by
        rw [World.state, hself]
        exact hdecided.state.trans hidle
      rw [if_pos hstate]
      exact ⟨new, current, calls, hgoes _ rfl rfl rfl hdecided.kept⟩

def World.released (w : World) (n : ActionId) : World := w.modify n fun a => { a with currAction := none }

theorem World.released_fields : (w.released n).fields n = { w.fields n with currAction := none } :=
  modify_fields_self _

theorem World.modify_self : (w.modify n fun a => a) = w := by
  rw [modify, Function.update_eq_self]

theorem Goes.of_modify (h : Goes F s n (w.modify n f) w' history new current calls) :
    Goes F s n w w' history new current calls :=
  ⟨(Local.modify f).trans h.keeps, h.fresh, h.under, h.queue, ⟨h.adds.events⟩, h.sole⟩

theorem Fresh.modify (h : Fresh F w n) (hstate : w.state n ≠ .idle)
    (hkeeps : (f (w.fields n)).state = w.state n) : Fresh F (w.modify n f) n := by
  refine h.of_touched fun m => ?_
  by_cases hm : m = n
  · subst hm
    refine .inr ⟨hstate, ?_⟩
    rw [World.state_modify_self, hkeeps]
    exact hstate
  · exact .inl (World.modify_fields_of_ne hm f)

theorem Sole.modify (h : Sole F w n current)
    (hkeeps : (f (w.fields n)).state = w.state n) : Sole F (w.modify n f) n current := by
  intro m hm hleaf hunderway
  rw [World.state_modify f hkeeps] at hunderway
  exact h m hm hleaf hunderway

theorem Link.holding (h : Link F w s n c history) (hended : F.Ended c new r) :
    Holding F (w.released n) s n c (history ++ new) r := by
  obtain ⟨resets, ifFails, hdid⟩ := h.did
  refine ⟨?_, ?_, ⟨resets, ifFails, history, new, ?_, hended, rfl⟩, fun d hd hlater => ?_⟩
  · rw [World.state, World.released_fields]
    exact h.state
  · rw [World.released_fields]
  · rw [World.released_fields]
    exact hdid
  · rw [World.released, World.state_modify _ rfl]
    exact h.later d hd hlater

theorem Holding.modify {s' : State} (h : Holding F w s p c history r)
    (hstate : (f (w.fields p)).state = s') (hcurr : (f (w.fields p)).currAction = none)
    (hindex : (f (w.fields p)).index = (w.fields p).index) : Holding F (w.modify p f) s' p c history r := by
  refine ⟨?_, ?_, ?_, fun d hd hlater => ?_⟩
  · rw [World.state_modify_self]
    exact hstate
  · rw [World.modify_fields_self]
    exact hcurr
  · rw [World.modify_fields_self, hindex]
    exact h.did
  · rw [World.state_modify_of_ne (F.child_lt p d hd).ne]
    exact h.later d hd hlater

theorem Holding.released (h : Holding F w s p c history r) : Holding F (w.released p) s p c history r :=
  h.modify h.state rfl rfl

theorem Holding.serial (h : Holding F w s p c history r) : F.assembly p = .serial := by
  obtain ⟨resets, ifFails, first, second, hdid, -⟩ := h.did
  exact hdid.serial

theorem Holding.decided (h : Holding F w .running p c history r) (hkept : (w.fields p).childFinishFunc = none)
    (hstructured : (F.kind p).structured) (hfresh : Fresh F w p) (hsole : Sole F w p none) (hqueue : w.queue = []) :
    Decided F w p ((F.kind p).onChildFinished (w.fields p) c r.1 r.2).1
      ((F.kind p).onChildFinished (w.fields p) c r.1 r.2).2 history := by
  obtain ⟨resets, ifFails, first, second, hdid, hended, rfl⟩ := h.did
  have hat := hdid.at rfl
  rw [Forest.onChildFinished_eq hstructured]
  refine ⟨Forest.Did.ended hdid hended, h.curr, hkept, rfl, Forest.goes_ne_outOfRange hstructured hat,
    fun d hd => hfresh.of_parent hd, fun d hd => hsole.of_parent hd, fun resets' c' ifFails' hnext => ?_⟩
  rcases (Kind.goes_start (F.nodup p) hat (Prod.ext rfl hnext)).2 with ⟨hresets, hlater⟩ | hresets
  · refine .inl ⟨hresets, fun d hd hnotEarlier => h.later d hd ?_⟩
    rcases hnotEarlier with rfl | hlater'
    · exact hlater
    · exact lt_trans hlater hlater'
  · exact .inr ⟨hresets, hqueue⟩

namespace Forest

theorem handleChildFinish_running {isSucc : Bool} {why : Reason} (h : (w.released p).state p = .running) :
    F.handleChildFinish leaves p c isSucc why w = F.proceed (F.start leaves p) p
      ((F.kind p).onChildFinished ((w.released p).fields p) c isSucc why) (w.released p) := by
  rw [handleChildFinish, ← World.released, h]

theorem handleChildFinish_pause {isSucc : Bool} {why : Reason} (h : (w.released p).state p = .pause) :
    F.handleChildFinish leaves p c isSucc why w = (w.released p).modify p fun a =>
      { a with childFinishFunc := some ((F.kind p).keptFunc c isSucc why) } := by
  rw [handleChildFinish, ← World.released, h]

end Forest

/-- **A running action goes on after its child's finish.** -/
theorem handle_goes (hs : F.Structured p) (hleaves : ∀ m why, leaves m ≠ .blocks why)
    (h : Holding F (w.released p) .running p c history r) (hkept : (w.fields p).childFinishFunc = none)
    (hfresh : Fresh F w p) (hsole : Sole F w p none) (hqueue : w.queue = []) : ∃ new current calls,
      Goes F .running p w (F.handleChildFinish leaves p c r.1 r.2 w) (history ++ new) new current calls := by
  have hstate : w.state p = .running := (World.state_modify _ rfl p).symm.trans h.state
  have hnotIdle : w.state p ≠ .idle := by
    rw [hstate]
    exact nofun
  have hkept' : ((w.released p).fields p).childFinishFunc = none := by
    rw [World.released_fields]
    exact hkept
  have hdecided := h.decided hkept' (hs p (Below.refl p)) (hfresh.modify hnotIdle rfl) (hsole.modify rfl) hqueue
  have hlive : (w.released p).state p ≠ .finished ∧ (w.released p).state p ≠ .stoped := by
    rw [h.state]
    exact ⟨nofun, nofun⟩
  have hchild : StartsFresh F p (F.start leaves p) := by
    intro d hd v hidle hvfresh
    exact start_goes (hs.of_parent hd) hleaves hidle hvfresh (F.child_lt p d hd)
  rw [Forest.handleChildFinish_running h.state]
  rcases hdecided.proceed hlive hchild with ⟨-, calls, hgoes⟩ | ⟨d, new, current, calls, hself, hgoes⟩
  · refine ⟨[], none, calls, ?_⟩
    rw [append_nil]
    exact hgoes.of_modify
  · have hgoes' := hgoes (fun a => a) (hdecided.state.trans h.state) rfl rfl hdecided.kept
    rw [World.modify_self] at hgoes'
    exact ⟨new, current, calls, hgoes'.of_modify⟩

theorem handle_keeps (h : Holding F (w.released p) .pause p c history r) (hfresh : Fresh F w p)
    (hsole : Sole F w p none) : Goes F .pause p w (F.handleChildFinish leaves p c r.1 r.2 w) history [] none [] := by
  have hstate : w.state p = .pause := (World.state_modify _ rfl p).symm.trans h.state
  have hnotIdle : (w.released p).state p ≠ .idle := by
    rw [h.state]
    exact nofun
  rw [Forest.handleChildFinish_pause h.state]
  have hholding : Holding F ((w.released p).modify p fun a =>
      { a with childFinishFunc := some ((F.kind p).keptFunc c r.1 r.2) }) .pause p c history r :=
    h.modify h.state h.curr rfl
  have hkept : (((w.released p).modify p fun a =>
      { a with childFinishFunc := some ((F.kind p).keptFunc c r.1 r.2) }).fields p).childFinishFunc =
        some ((F.kind p).keptFunc c r.1 r.2) := by
    rw [World.modify_fields_self]
  refine ⟨(Local.modify _).trans (.modify _), ?_, ⟨p, [], history, .here, .kept hholding rfl hkept, rfl⟩,
    (append_nil _).symm, ⟨[], (append_nil _).symm, rfl, nofun, nofun, fun hfinished => ?_⟩,
      (hsole.modify rfl).modify rfl⟩
  · refine Fresh.modify (hfresh.modify ?_ rfl) hnotIdle rfl
    rw [hstate]
    exact nofun
  · rw [hholding.state] at hfinished
    cases hfinished

theorem Holding.ended (h : Holding F w s p c history r) (hlast : (F.kind p).isLast c = true) :
    F.Ended p history r := by
  obtain ⟨resets, ifFails, first, second, hdid, hended, rfl⟩ := h.did
  have hgoes : ((F.kind p).goes (w.fields p).index c r).2 = .finish r.1 r.2 := by
    rw [Kind.goes, Kind.onChildFinished.eq_def, if_pos hlast]
  have hdid' := Forest.Did.ended hdid hended
  rw [hgoes] at hdid'
  exact .inr ⟨_, hdid'⟩

theorem kept_finishes (h : Holding F w s p c history r) (hlast : (F.kind p).isLast c = true)
    (hs : s.isUnderway = true) (hfresh : Fresh F w p) (hsole : Sole F w p none) :
    ∃ calls, Goes F s p w (F.finish p r.1 r.2 w) history [] none calls := by
  have hlive : w.state p ≠ .finished ∧ w.state p ≠ .stoped := by
    rw [h.state]
    revert hs
    cases s <;> simp [State.isUnderway]
  have hfinishes := Forest.finishes_finish (F := F) hlive (.inr h.curr) r
  exact ⟨_, .of_finishes hfinishes h.serial (h.ended hlast) (fun d hd => hfresh.of_parent hd)
    fun d hd => hsole.of_parent hd⟩

/-! ### Pausing and resuming a serial tree

Pausing goes down the path that is under way and turns every action of it, and resuming turns them back. What
a paused action has kept is then posted, so nothing of what is left to be done is lost. -/

section Turns

open Lib (Below)

variable {F : Forest} {w w' v : World} {n m c d p : ActionId} {s s' : State} {depth : Nat}
  {r : Outcome} {history history' : History} {current : Option ActionId} {calls news : List Call}

structure Turned (F : Forest) (s' : State) (n : ActionId) (w w' : World) (history : History)
    (current : Option ActionId) (calls news : List Call) : Prop where
  keeps : Local F n w w'
  touched : ∀ m, w'.fields m = w.fields m ∨ (w.state m).isUnderway = true ∧ (w'.state m).isUnderway = true
  under : Under F w' s' n history current (calls ++ news)
  queue : w'.queue.map Posted.call = w.queue.map Posted.call ++ news
  log : w'.log = w.log

theorem World.modify_fields_twice {f g : Fields → Fields} :
    ((w.modify n f).modify n g).fields = (w.modify n fun a => g (f a)).fields := by
  rw [modify, modify_fields_self]
  exact Function.update_idem _ _ _

theorem Link.serial (h : Link F w s n c history) : F.assembly n = .serial := by
  obtain ⟨resets, ifFails, hdid⟩ := h.did
  exact hdid.serial

theorem State.ne_idle_of_isUnderway (h : s.isUnderway = true) : s ≠ .idle := by
  rintro rfl
  cases h

theorem Turned.fresh (h : Turned F s' n w w' history current calls news) (hfresh : Fresh F w p) : Fresh F w' p :=
  hfresh.of_touched fun m => (h.touched m).imp_right fun hm =>
    ⟨State.ne_idle_of_isUnderway hm.1, State.ne_idle_of_isUnderway hm.2⟩

theorem Turned.sole (h : Turned F s' n w w' history current calls news) (hsole : Sole F w p current) :
    Sole F w' p current := by
  intro m hm hleaf hunderway
  refine hsole m hm hleaf ?_
  rcases h.touched m with heq | hboth
  · rw [World.state, heq] at hunderway
    exact hunderway
  · exact hboth.1

theorem Turned.of_modify (hs : (w.state n).isUnderway = true)
    (hs' : ((w.modify n f).state n).isUnderway = true)
    (hfields : w'.fields = (w.modify n f).fields) (htip : Tip F w' s' n history current (calls ++ news))
    (hqueue : w'.queue.map Posted.call = w.queue.map Posted.call ++ news) (hlog : w'.log = w.log) :
    Turned F s' n w w' history current calls news := by
  refine ⟨fun m hm => ?_, fun m => ?_, ⟨n, [], history, .here, htip, rfl⟩, hqueue, hlog⟩
  · rw [hfields]
    exact Local.modify f m hm
  by_cases hm : m = n
  · subst hm
    refine .inr ⟨hs, ?_⟩
    rw [World.state, hfields]
    exact hs'
  · refine .inl ?_
    rw [hfields]
    exact World.modify_fields_of_ne hm f

theorem Turned.of_self (htip : Tip F w s' n history current calls) : Turned F s' n w w history current calls [] := by
  refine ⟨.refl w, fun _ => .inl rfl, ⟨n, [], history, .here, ?_, rfl⟩, (append_nil _).symm, rfl⟩
  rw [append_nil]
  exact htip

theorem Turned.link (h : Turned F s' c w v history' current calls news)
    (hlink : Link F w s n c history) (hs : s.isUnderway = true) (hs' : s'.isUnderway = true)
    (hstate : (f (w.fields n)).state = s') (hcurr : (f (w.fields n)).currAction = (w.fields n).currAction)
    (hkept : (f (w.fields n)).childFinishFunc = (w.fields n).childFinishFunc)
    (hindex : (f (w.fields n)).index = (w.fields n).index) :
    Turned F s' n w (v.modify n f) (history ++ history') current calls news := by
  have hc := hlink.parent
  have hself : (v.modify n f).fields n = f (w.fields n) := by
    rw [World.modify_fields_self, h.keeps.parent hc]
  have hbelow : ∀ x, F.Below c x → (v.modify n f).fields x = v.fields x := by
    intro x hx
    refine World.modify_fields_of_ne ?_ f
    rintro rfl
    exact Below.not_parent Forest.rank_lt hc hx
  have hlink' : Link F (v.modify n f) s' n c history := by
    refine ⟨?_, ?_, ?_, ?_, fun d hd hlater => ?_⟩
    · rw [World.state, hself]
      exact hstate
    · rw [hself, hcurr]
      exact hlink.curr
    · rw [hself, hkept]
      exact hlink.kept
    · rw [hself, hindex]
      exact hlink.did
    · rw [World.state_modify_of_ne (F.child_lt n d hd).ne, World.state,
        h.keeps.sibling hc hd hlater.ne (Below.refl d)]
      exact hlink.later d hd hlater
  refine ⟨(h.keeps.of_child hc).trans (.modify f), fun m => ?_, ?_, h.queue, h.log⟩
  · by_cases hm : m = n
    · subst hm
      refine .inr ⟨?_, ?_⟩
      · rw [hlink.state]
        exact hs
      · rw [hlink'.state]
        exact hs'
    · rw [World.state_modify_of_ne hm, World.modify_fields_of_ne hm]
      exact h.touched m
  · exact (h.under.congr hbelow).of_link hlink'

namespace Forest

theorem onPause_of_end {pauseChild : ActionId → World → World}
    (h : F.assembly p = .none ∨ F.assembly p = .serial ∧ (w.fields p).currAction = none) :
    F.onPause pauseChild p w = w := by
  rcases h with hnone | ⟨hserial, hcurr⟩
  · rw [onPause, hnone]
  · rw [onPause, hserial]
    rw [hcurr]

theorem pause_of_end (hstate : w.state p = .running)
    (h : F.assembly p = .none ∨ F.assembly p = .serial ∧ (w.fields p).currAction = none) :
    F.pause (depth + 1) p w = w.modify p fun a => { a.disableTimer with state := .pause } := by
  rw [pause, if_pos hstate, onPause_of_end h, if_pos hstate]

theorem assembly_of_leaf (hleaf : F.kind p = .leaf) : F.assembly p = .none := by
  rw [assembly, hleaf]
  rfl

end Forest

theorem pause_tip (htip : Tip F w .running p history current calls) :
    Turned F .pause p w (F.pause (depth + 1) p w) history current calls [] := by
  have hstill : ∀ hstate : w.state p = .finished, F.pause (depth + 1) p w = w := by
    intro hstate
    rw [Forest.pause, if_neg]
    rw [hstate]
    simp
  cases htip with
  | leaf hleaf hstate =>
    rw [Forest.pause_of_end hstate (.inl (Forest.assembly_of_leaf hleaf))]
    refine .of_modify ?_ ?_ rfl (.leaf hleaf (World.state_modify_self _)) (append_nil _).symm rfl
    · rw [hstate]
      rfl
    · rw [World.state_modify_self]
      rfl
  | ended hstate hended =>
    rw [hstill hstate]
    exact .of_self (.ended hstate hended)
  | told hroot hstate hended =>
    rw [hstill hstate]
    exact .of_self (.told hroot hstate hended)
  | kept _ hs => cases hs
  | posted h hkept =>
    rw [Forest.pause_of_end h.state (.inr ⟨h.serial, h.curr⟩)]
    refine .of_modify ?_ ?_ rfl (.posted (h.modify rfl h.curr rfl) ?_) (append_nil _).symm rfl
    · rw [h.state]
      rfl
    · rw [World.state_modify_self]
      rfl
    · rw [World.modify_fields_self]
      exact hkept

/-- **Pausing turns the whole path.** -/
theorem pause_path (hpath : Path F w .running n m history) (htip : Tip F w .running m history' current calls)
    (hn : n < depth) : Turned F .pause n w (F.pause depth n w) (history ++ history') current calls [] := by
  induction hpath generalizing depth with
  | here =>
    cases depth with
    | zero => exact absurd hn (Nat.not_lt_zero _)
    | succ depth => exact pause_tip htip
  | @child n c m first second hlink hpath ih =>
    cases depth with
    | zero => exact absurd hn (Nat.not_lt_zero _)
    | succ depth =>
      have hc := hlink.parent
      have hturned := ih htip (Forest.child_lt_depth hn hc)
      have honPause : F.onPause (F.pause depth) n w = F.pause depth c w := by
        rw [Forest.onPause, hlink.serial]
        rw [hlink.curr]
      have hstate : (F.pause depth c w).state n = .running := by
        rw [World.state, hturned.keeps.parent hc]
        exact hlink.state
      rw [Forest.pause, if_pos hlink.state, honPause, if_pos hstate, append_assoc]
      exact hturned.link hlink rfl rfl rfl rfl rfl rfl

namespace Forest

theorem onResume_of_end {resumeChild : ActionId → World → World}
    (h : F.assembly p = .none ∨ F.assembly p = .serial ∧ (w.fields p).currAction = none ∧
      (w.fields p).childFinishFunc = none) : F.onResume resumeChild p w = w := by
  rcases h with hnone | ⟨hserial, hcurr, hkept⟩
  · rw [onResume, hnone]
  · rw [onResume, hserial]
    rw [hcurr, hkept]

theorem resume_of_end (hstate : w.state p = .pause)
    (h : F.assembly p = .none ∨ F.assembly p = .serial ∧ (w.fields p).currAction = none ∧
      (w.fields p).childFinishFunc = none) :
    F.resume (depth + 1) p w = w.modify p fun a => { a.enableTimer with state := .running } := by
  rw [resume, if_pos hstate, onResume_of_end h, if_pos hstate]

theorem resume_of_kept {func : ChildFinishFunc} (hstate : w.state p = .pause) (hserial : F.assembly p = .serial)
    (hcurr : (w.fields p).currAction = none) (hkept : (w.fields p).childFinishFunc = some func) :
    F.resume (depth + 1) p w = ((w.runNext (.childFinishFunc p func)).modify p
      fun a => { a with childFinishFunc := none }).modify p fun a => { a.enableTimer with state := .running } := by
  have honResume : F.onResume (F.resume depth) p w = (w.runNext (.childFinishFunc p func)).modify p
      fun a => { a with childFinishFunc := none } := by
    rw [onResume, hserial]
    rw [hcurr, hkept]
  rw [resume, if_pos hstate, honResume, if_pos]
  rw [World.state_modify_self]
  exact hstate

end Forest

theorem resume_tip (htip : Tip F w .pause p history current calls) :
    ∃ news, Turned F .running p w (F.resume (depth + 1) p w) history current calls news := by
  have hstill : ∀ hstate : w.state p = .finished, F.resume (depth + 1) p w = w := by
    intro hstate
    rw [Forest.resume, if_neg]
    rw [hstate]
    simp
  cases htip with
  | leaf hleaf hstate =>
    rw [Forest.resume_of_end hstate (.inl (Forest.assembly_of_leaf hleaf))]
    refine ⟨[], .of_modify ?_ ?_ rfl (.leaf hleaf (World.state_modify_self _)) (append_nil _).symm rfl⟩
    · rw [hstate]
      rfl
    · rw [World.state_modify_self]
      rfl
  | ended hstate hended =>
    rw [hstill hstate]
    exact ⟨[], .of_self (.ended hstate hended)⟩
  | told hroot hstate hended =>
    rw [hstill hstate]
    exact ⟨[], .of_self (.told hroot hstate hended)⟩
  | posted h hkept =>
    rw [Forest.resume_of_end h.state (.inr ⟨h.serial, h.curr, hkept⟩)]
    refine ⟨[], .of_modify ?_ ?_ rfl (.posted (h.modify rfl h.curr rfl) ?_) (append_nil _).symm rfl⟩
    · rw [h.state]
      rfl
    · rw [World.state_modify_self]
      rfl
    · rw [World.modify_fields_self]
      exact hkept
  | @kept _ c r h hs hkept =>
    rw [Forest.resume_of_kept h.state h.serial h.curr hkept]
    have hposted : Holding F (w.runNext (.childFinishFunc p ((F.kind p).keptFunc c r.1 r.2))) .pause p c history r :=
      h.congr fun _ _ => rfl
    have hholding := hposted.modify (f := fun a => { a with childFinishFunc := none }) h.state h.curr rfl
    refine ⟨_, .of_modify (f := fun a => { { a with childFinishFunc := none }.enableTimer with state := .running })
      ?_ ?_ ?_ (.posted (hholding.modify rfl hholding.curr rfl) ?_) ?_ rfl⟩
    · rw [h.state]
      rfl
    · rw [World.state_modify_self]
      rfl
    · exact World.modify_fields_twice
    · rw [World.modify_fields_self, World.modify_fields_self]
      rfl
    · exact map_append

/-- **Resuming turns the whole path back**, and posts what was kept at its end. -/
theorem resume_path (hpath : Path F w .pause n m history) (htip : Tip F w .pause m history' current calls)
    (hn : n < depth) :
    ∃ news, Turned F .running n w (F.resume depth n w) (history ++ history') current calls news := by
  induction hpath generalizing depth with
  | here =>
    cases depth with
    | zero => exact absurd hn (Nat.not_lt_zero _)
    | succ depth => exact resume_tip htip
  | @child n c m first second hlink hpath ih =>
    cases depth with
    | zero => exact absurd hn (Nat.not_lt_zero _)
    | succ depth =>
      have hc := hlink.parent
      obtain ⟨news, hturned⟩ := ih htip (Forest.child_lt_depth hn hc)
      have honResume : F.onResume (F.resume depth) n w = F.resume depth c w := by
        rw [Forest.onResume, hlink.serial]
        rw [hlink.curr]
      have hstate : (F.resume depth c w).state n = .pause := by
        rw [World.state, hturned.keeps.parent hc]
        exact hlink.state
      rw [Forest.resume, if_pos hlink.state, honResume, if_pos hstate, append_assoc]
      exact ⟨news, hturned.link hlink rfl rfl rfl rfl rfl rfl⟩

end Turns

end Tbox.Flow.Action
