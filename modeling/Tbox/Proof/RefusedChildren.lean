import Tbox.Lib.ListFacts
import Tbox.Flow.Adoption

/-!
# Children that are refused

An action that has a parent is refused before anything is touched. One that has none gets its parent first, and where
its role is then not supported its scope is not given back.
-/

open List Option

namespace Tbox.Flow.Adoption

variable {V : Type} {w w' : World V} {n c : ActionId} {child : Option ActionId} {role : String}

def Adopted (w w' : World V) (n : ActionId) (child : Option ActionId) : Prop :=
  ∃ c, child = some c ∧ (w.action c).parent ≠ some n ∧ (w'.action c).parent = some n ∧
    c ∈ (w'.children n).members

structure Untouched (w w' : World V) (n : ActionId) (child : Option ActionId) : Prop where
  children : w'.children n = w.children n
  parent : ∀ c, child = some c → (w'.action c).parent = (w.action c).parent
  callbacks : ∀ c, child = some c →
    (w'.action c).finishCb = (w.action c).finishCb ∧ (w'.action c).blockCb = (w.action c).blockCb
  scope : ∀ c, child = some c → ∀ name answer,
    w'.Finds (.action c) name answer ↔ w.Finds (.action c) name answer

/-- The call comes to an end, and a child that is not adopted is left untouched and the caller is told. -/
def RefusesCleanly (w : World V) (n : ActionId) (child : Option ActionId) : Option (Answer × World V) → Prop
  | none => False
  | some (answer, w') => ¬Adopted w w' n child → answer.isFailure = true ∧ Untouched w w' n child

theorem Untouched.refl (w : World V) (n : ActionId) (child : Option ActionId) : Untouched w w n child :=
  ⟨rfl, fun _ _ => rfl, fun _ _ => ⟨rfl, rfl⟩, fun _ _ _ _ => Iff.rfl⟩

def Severed (w : World V) (c : ActionId) : Prop :=
  ∀ name answer, (w.action c).vars.lookup name = none → ¬w.Finds (w.action c).varsParent name answer

theorem finds_of_own {name : String} {value : V} (h : (w.action c).vars.lookup name = some value)
    (answer : Option V) : w.Finds (.action c) name answer ↔ answer = some value := by
  constructor
  · rintro ⟨fuel, hfuel⟩
    cases fuel with
    | zero => cases hfuel
    | succ fuel =>
      rw [World.get, h] at hfuel
      exact (some.inj hfuel).symm
  · rintro rfl
    refine ⟨1, ?_⟩
    rw [World.get, h]

theorem finds_of_none {name : String} (h : (w.action c).vars.lookup name = none) (answer : Option V) :
    w.Finds (.action c) name answer ↔ w.Finds (w.action c).varsParent name answer := by
  constructor
  · rintro ⟨fuel, hfuel⟩
    cases fuel with
    | zero => cases hfuel
    | succ fuel =>
      rw [World.get, h] at hfuel
      exact ⟨fuel, hfuel⟩
  · rintro ⟨fuel, hfuel⟩
    refine ⟨fuel + 1, ?_⟩
    rw [World.get, h]
    exact hfuel

theorem not_finds_wild (name : String) (answer : Option V) : ¬w.Finds .wild name answer := by
  rintro ⟨fuel, hfuel⟩
  cases fuel with
  | zero => cases hfuel
  | succ fuel => cases hfuel

theorem not_severed_of_null (hnull : (w.action c).varsParent = .null) : ¬Severed w c := by
  intro h
  obtain ⟨name, hname⟩ := Infinite.exists_notMem_finset ((w.action c).vars.map Prod.fst).toFinset
  refine h name none ?_ ?_
  · rw [lookup_eq_none_iff]
    intro item hitem
    rw [bne_iff_ne]
    rintro rfl
    exact hname (List.mem_toFinset.mpr (List.mem_map_of_mem hitem))
  · rw [hnull]
    exact ⟨1, rfl⟩

def World.rolledBack (w : World V) (c : ActionId) : World V :=
  w.modify c fun a => { a with varsParent := .wild, parent := none }

def World.parented (w : World V) (n c : ActionId) : World V :=
  w.modify c fun a => { a with varsParent := .action n, parent := some n }

theorem modify_action_self (f : Action V → Action V) : (w.modify c f).action c = f (w.action c) :=
  Function.update_self ..

theorem setParent_of_parent (h : (w.action c).parent ≠ none) : w.setParent c (some n) = (false, w) := by
  rw [World.setParent, if_pos ⟨rfl, isSome_iff_ne_none.mpr h⟩]

theorem setParent_of_none (h : (w.action c).parent = none) : w.setParent c (some n) = (true, w.parented n c) := by
  rw [World.setParent, if_neg]
  · rfl
  · rintro ⟨-, hsome⟩
    rw [h] at hsome
    cases hsome

theorem setParent_null : ((w.parented n c).setParent c none).2 = w.rolledBack c := by
  rw [World.setParent, if_neg fun h => nomatch h.1]
  simp only [World.parented, World.rolledBack, World.modify, Function.update_self, Function.update_idem,
    VarsPtr.ofParent]

variable {answer : Answer}

theorem RefusesCleanly.of_same (h : answer.isFailure = true) :
    RefusesCleanly w n child (some (answer, w)) := fun _ => ⟨h, .refl w n child⟩

theorem RefusesCleanly.of_adopted (hfree : (w.action c).parent = none)
    (hparent : (w'.action c).parent = some n) (hmem : c ∈ (w'.children n).members) :
    RefusesCleanly w n (some c) (some (answer, w')) := by
  intro hnot
  refine absurd ⟨c, rfl, ?_, hparent, hmem⟩ hnot
  rw [hfree]
  exact nofun

theorem RefusesCleanly.of_place {finishCb blockCb : Callback} {children : Children}
    (hfree : (w.action c).parent = none) (hmem : c ∈ children.members) : RefusesCleanly w n (some c)
      (some (answer, ((w.parented n c).setCallbacks c finishCb blockCb).setChildren n children)) := by
  refine .of_adopted hfree ?_ ?_
  · simp only [World.setChildren, World.setCallbacks, World.parented, modify_action_self]
  · simpa only [World.setChildren, Function.update_self] using hmem

theorem RefusesCleanly.of_take {finishCb : Callback} {old : Option ActionId} {children : Children}
    (hfree : (w.action c).parent = none) (hmem : c ∈ children.members) :
    RefusesCleanly w n (some c) (some (answer, (w.parented n c).take n c finishCb old children)) := by
  refine .of_adopted hfree ?_ ?_
  · simp only [World.take, World.setChildren, World.deleteObj, World.setCallbacks, World.parented, modify_action_self]
  · simpa only [World.take, World.setChildren, Function.update_self] using hmem

theorem refusesCleanly_rolledBack (hfree : (w.action c).parent = none) :
    RefusesCleanly w n (some c) (some (.flag false, w.rolledBack c)) ↔ Severed w c := by
  have hself : (w.rolledBack c).action c = { w.action c with varsParent := .wild, parent := none } :=
    modify_action_self _
  constructor
  · intro h name answer hname hfinds
    have hnot : ¬Adopted w (w.rolledBack c) n (some c) := by
      rintro ⟨c', hc', -, hparent, -⟩
      cases hc'
      rw [hself] at hparent
      cases hparent
    have hscope := (h hnot).2.scope c rfl name answer
    have hname' : ((w.rolledBack c).action c).vars.lookup name = none := by
      rw [hself]
      exact hname
    rw [finds_of_none hname', finds_of_none hname, hself] at hscope
    exact not_finds_wild name answer (hscope.mpr hfinds)
  · intro hsevered _
    refine ⟨rfl, rfl, fun c' hc' => ?_, fun c' hc' => ?_, fun c' hc' name answer => ?_⟩
    · cases hc'
      rw [hself, hfree]
    · cases hc'
      rw [hself]
      exact ⟨rfl, rfl⟩
    cases hc'
    cases hname : (w.action c).vars.lookup name with
    | some value =>
      have hname' : ((w.rolledBack c).action c).vars.lookup name = some value := by
        rw [hself]
        exact hname
      rw [finds_of_own hname', finds_of_own hname]
    | none =>
      have hname' : ((w.rolledBack c).action c).vars.lookup name = none := by
        rw [hself]
        exact hname
      rw [finds_of_none hname', finds_of_none hname, hself]
      exact iff_of_false (not_finds_wild name answer) (hsevered name answer hname)

theorem not_refusesCleanly_index (w : World V) (n : ActionId) (child : Option ActionId) :
    ¬RefusesCleanly w n child (some (.index 0, w)) := by
  intro h
  have hnot : ¬Adopted w w n child := fun ⟨_, _, hne, hparent, _⟩ => hne hparent
  exact nomatch (h hnot).1

theorem Sequence.refusesCleanly_iff {children : List ActionId} :
    RefusesCleanly w n (some c) ((Sequence.addChild n children (some c) w).map (Prod.map .index id)) ↔
      (w.action c).parent = none := by
  rw [Sequence.addChild]
  by_cases hfree : (w.action c).parent = none
  · rw [setParent_of_none hfree]
    refine iff_of_true (.of_place hfree ?_) hfree
    exact mem_append_right _ (mem_singleton_self c)
  · rw [setParent_of_parent hfree]
    exact iff_of_false (not_refusesCleanly_index w n (some c)) hfree

theorem Parallel.refusesCleanly {children : List ActionId} :
    RefusesCleanly w n (some c) ((Parallel.addChild n children (some c) w).map (Prod.map .index id)) := by
  rw [Parallel.addChild]
  by_cases hfree : (w.action c).parent = none
  · rw [setParent_of_none hfree]
    exact .of_place hfree (mem_append_right _ (mem_singleton_self c))
  · rw [setParent_of_parent hfree]
    exact .of_same rfl

theorem IfThen.refusesCleanly {tmpFirst tmpSecond : Option ActionId} {ifThenActions : List (ActionId × ActionId)} :
    RefusesCleanly w n (some c)
      ((IfThen.addChildAs n tmpFirst tmpSecond ifThenActions (some c) role w).map (Prod.map .index id)) := by
  unfold IfThen.addChildAs
  dsimp only
  by_cases hif : role = "if"
  · rw [if_pos hif]
    cases tmpFirst with
    | some => exact .of_same rfl
    | none =>
      by_cases hfree : (w.action c).parent = none
      · rw [setParent_of_none hfree]
        exact .of_place hfree (by simp [Children.members])
      · rw [setParent_of_parent hfree]
        exact .of_same rfl
  · rw [if_neg hif]
    by_cases hthen : role = "then"
    · rw [if_pos hthen]
      cases tmpFirst with
      | none => exact .of_same rfl
      | some first =>
        by_cases hfree : (w.action c).parent = none
        · rw [setParent_of_none hfree]
          exact .of_place hfree (by simp [Children.members])
        · rw [setParent_of_parent hfree]
          exact .of_same rfl
    · rw [if_neg hthen]
      exact .of_same rfl

theorem setOnlyChild_refusesCleanly {finishCb : Callback} {old : Option ActionId}
    {children : Option ActionId → Children} (hchildren : ∀ c, c ∈ (children (some c)).members) :
    RefusesCleanly w n (some c) ((setOnlyChild n finishCb old children (some c) w).map (Prod.map .flag id)) := by
  rw [setOnlyChild]
  by_cases hfree : (w.action c).parent = none
  · rw [setParent_of_none hfree]
    exact .of_take hfree (hchildren c)
  · rw [setParent_of_parent hfree]
    exact .of_same rfl

/-- The roles that the `setChildAs` of a class knows and that are to be had. -/
def Children.supports (role : String) : Children → Bool
  | .ifElse _ _ _ => role = "if" ∨ (role = "succ" ∨ role = "then") ∨ role = "fail" ∨ role = "else"
  | .loopIf _ _ => role = "if" ∨ role = "exec"
  | .switch _ _ caseActions =>
    role = "switch" ∨ role = "default" ∨ Switch.isCase role = true ∧ caseActions.lookup role = none
  | _ => true

def Spared (w : World V) (child : Option ActionId) (isSupported : Bool) : Prop :=
  isSupported = true ∨ ∀ c, child = some c → (w.action c).parent = none → Severed w c

theorem spared_of_parent (h : (w.action c).parent ≠ none) (isSupported : Bool) : Spared w (some c) isSupported := by
  refine .inr fun c' hc' hfree => ?_
  cases hc'
  exact absurd hfree h

theorem refusesCleanly_iff_spared {isSupported : Bool} (hfree : (w.action c).parent = none)
    (hnot : ¬isSupported = true) :
    RefusesCleanly w n (some c) (some (.flag false, ((w.parented n c).setParent c none).2)) ↔
      Spared w (some c) isSupported := by
  rw [setParent_null, refusesCleanly_rolledBack hfree]
  constructor
  · intro hsevered
    refine .inr fun c' hc' _ => ?_
    cases hc'
    exact hsevered
  · rintro (hsupported | hsevered)
    · exact absurd hsupported hnot
    · exact hsevered c rfl hfree

theorem IfElse.refusesCleanly_iff {ifAction thenAction elseAction : Option ActionId} : RefusesCleanly w n (some c)
        ((IfElse.setChildAs n ifAction thenAction elseAction (some c) role w).map (Prod.map .flag id)) ↔
      Spared w (some c) ((Children.ifElse ifAction thenAction elseAction).supports role) := by
  rw [IfElse.setChildAs]
  by_cases hfree : (w.action c).parent = none
  · rw [setParent_of_none hfree]
    rw [if_pos rfl]
    split_ifs with hif hthen helse
    · exact iff_of_true (.of_take hfree (by simp [Children.members])) (.inl (decide_eq_true (.inl hif)))
    · exact iff_of_true (.of_take hfree (by simp [Children.members]))
        (.inl (decide_eq_true (.inr (.inl hthen))))
    · exact iff_of_true (.of_take hfree (by simp [Children.members]))
        (.inl (decide_eq_true (.inr (.inr helse))))
    refine refusesCleanly_iff_spared hfree fun hsupported => ?_
    rcases of_decide_eq_true hsupported with h | h | h
    · exact hif h
    · exact hthen h
    · exact helse h
  · rw [setParent_of_parent hfree]
    exact iff_of_true (.of_same rfl) (spared_of_parent hfree _)

theorem LoopIf.refusesCleanly_iff {ifAction execAction : Option ActionId} :
    RefusesCleanly w n (some c) ((LoopIf.setChildAs n ifAction execAction (some c) role w).map (Prod.map .flag id)) ↔
      Spared w (some c) ((Children.loopIf ifAction execAction).supports role) := by
  rw [LoopIf.setChildAs]
  by_cases hfree : (w.action c).parent = none
  · rw [setParent_of_none hfree]
    rw [if_pos rfl]
    split_ifs with hif hexec
    · exact iff_of_true (.of_take hfree (by simp [Children.members])) (.inl (decide_eq_true (.inl hif)))
    · exact iff_of_true (.of_take hfree (by simp [Children.members])) (.inl (decide_eq_true (.inr hexec)))
    refine refusesCleanly_iff_spared hfree fun hsupported => ?_
    rcases of_decide_eq_true hsupported with h | h
    · exact hif h
    · exact hexec h
  · rw [setParent_of_parent hfree]
    exact iff_of_true (.of_same rfl) (spared_of_parent hfree _)

theorem Switch.refusesCleanly_iff {switchAction defaultAction : Option ActionId}
    {caseActions : List (String × ActionId)} : RefusesCleanly w n (some c)
        ((Switch.setChildAs n switchAction defaultAction caseActions (some c) role w).map (Prod.map .flag id)) ↔
      Spared w (some c) ((Children.switch switchAction defaultAction caseActions).supports role) := by
  rw [Switch.setChildAs]
  by_cases hfree : (w.action c).parent = none
  · rw [setParent_of_none hfree]
    rw [if_pos rfl]
    split_ifs with hswitch hdefault hcase
    · exact iff_of_true (.of_take hfree (by simp [Children.members])) (.inl (decide_eq_true (.inl hswitch)))
    · exact iff_of_true (.of_take hfree (by simp [Children.members]))
        (.inl (decide_eq_true (.inr (.inl hdefault))))
    · rw [emplace]
      split_ifs with hthere
      · refine refusesCleanly_iff_spared hfree fun hsupported => ?_
        rcases of_decide_eq_true hsupported with h | h | ⟨-, h⟩
        · exact hswitch h
        · exact hdefault h
        · rw [h] at hthere
          cases hthere
      · refine iff_of_true (.of_take hfree (by simp [Children.members]))
          (.inl (decide_eq_true (.inr (.inr ⟨hcase, ?_⟩))))
        exact not_isSome_iff_eq_none.mp hthere
    · refine refusesCleanly_iff_spared hfree fun hsupported => ?_
      rcases of_decide_eq_true hsupported with h | h | ⟨h, -⟩
      · exact hswitch h
      · exact hdefault h
      · exact hcase h
  · rw [setParent_of_parent hfree]
    exact iff_of_true (.of_same rfl) (spared_of_parent hfree _)

/-- The functions that warn of a null child with arguments missing. -/
def Children.warnsNull : Children → Offer → Bool
  | .sequence _, .addChild | .parallel _, .addChild | .ifThen _ _ _, .addChildAs _ => true
  | .ifElse _ _ _, .setChildAs _ | .loopIf _ _, .setChildAs _ => true
  | .loop _, .setChild | .repeatTimes _, .setChild | .wrapper _, .setChild | .composite _, .setChild => true
  | _, _ => false

/-- A sequence is offered a free action, no other class one in a role it does not support, and none but a switch no
action while somebody reads the log. -/
def Heeds (w : World V) (n : ActionId) (offer : Offer) (child : Option ActionId) : Prop :=
  (child = none → (w.children n).warnsNull offer = true → w.hasLogChannel = false) ∧
    match w.children n, offer with
    | .sequence _, .addChild => ∃ c, child = some c ∧ (w.action c).parent = none
    | children, .setChildAs role => Spared w child (children.supports role)
    | _, _ => True

theorem refusesCleanly_iff_of_warnNull {α : Type} {answer : α} {f : α → Answer} {P : Option ActionId → Prop}
    {r : Option ActionId → Option (Answer × World V)} (hfailure : (f answer).isFailure = true)
    (hnull : r none = (w.warnNull answer).map (Prod.map f id)) (hnone : P none)
    (hsome : ∀ c, RefusesCleanly w n (some c) (r (some c)) ↔ P (some c)) : RefusesCleanly w n child (r child) ↔
      (child = none → true = true → w.hasLogChannel = false) ∧ P child := by
  cases child with
  | none =>
    rw [hnull, World.warnNull]
    cases w.hasLogChannel with
    | true => exact iff_of_false not_false fun h => Bool.noConfusion (h.1 rfl rfl)
    | false => exact iff_of_true (.of_same hfailure) ⟨fun _ _ => rfl, hnone⟩
  | some c => exact (hsome c).trans (and_iff_right fun hnull => absurd hnull (some_ne_none c)).symm

theorem Sequence.refusesCleanly_iff_offered {children : List ActionId} :
    RefusesCleanly w n child ((Sequence.addChild n children child w).map (Prod.map .index id)) ↔
      (child = none → true = true → w.hasLogChannel = false) ∧ ∃ c, child = some c ∧ (w.action c).parent = none := by
  cases child with
  | none =>
    rw [addChild, World.warnNull]
    refine iff_of_false ?_ fun ⟨_, c, hchild, _⟩ => some_ne_none c hchild.symm
    cases w.hasLogChannel with
    | true => exact not_false
    | false => exact not_refusesCleanly_index w n none
  | some c =>
    rw [Sequence.refusesCleanly_iff]
    constructor
    · exact fun hfree => ⟨fun hnull => absurd hnull (some_ne_none c), c, rfl, hfree⟩
    · rintro ⟨-, c', hchild, hfree⟩
      exact some.inj hchild ▸ hfree

theorem refusesCleanly_iff_of_same {P : Prop} (h : answer.isFailure = true) (hP : P) :
    RefusesCleanly w n child (some (answer, w)) ↔ (child = none → false = true → w.hasLogChannel = false) ∧ P :=
  iff_of_true (.of_same h) ⟨fun _ hwarns => Bool.noConfusion hwarns, hP⟩

theorem spared_of_none (isSupported : Bool) : Spared w none isSupported := .inr fun c hc => absurd hc.symm (some_ne_none c)

/-- **Refusals.** A child that is not adopted is left untouched and the caller can tell, exactly where this is heeded.
-/
theorem refusesCleanly_iff_heeds (w : World V) (n : ActionId) (offer : Offer) (child : Option ActionId) :
    RefusesCleanly w n child (w.offer n offer child) ↔ Heeds w n offer child := by
  rw [World.offer.eq_def, Heeds.eq_def]
  cases w.children n with
  | sequence children =>
    cases offer with
    | addChild => exact Sequence.refusesCleanly_iff_offered
    | setChildAs role => exact refusesCleanly_iff_of_same rfl (.inl rfl)
    | _ => exact refusesCleanly_iff_of_same rfl trivial
  | parallel children =>
    cases offer with
    | addChild =>
      exact refusesCleanly_iff_of_warnNull (P := fun _ => True)
        (r := fun child => (Parallel.addChild n children child w).map (Prod.map .index id)) rfl rfl trivial
        fun c => iff_true_intro Parallel.refusesCleanly
    | setChildAs role => exact refusesCleanly_iff_of_same rfl (.inl rfl)
    | _ => exact refusesCleanly_iff_of_same rfl trivial
  | ifThen tmpFirst tmpSecond ifThenActions =>
    cases offer with
    | addChildAs role =>
      exact refusesCleanly_iff_of_warnNull (P := fun _ => True)
        (r := fun child =>
          (IfThen.addChildAs n tmpFirst tmpSecond ifThenActions child role w).map (Prod.map .index id))
        rfl rfl trivial fun c => iff_true_intro IfThen.refusesCleanly
    | setChildAs role => exact refusesCleanly_iff_of_same rfl (.inl rfl)
    | _ => exact refusesCleanly_iff_of_same rfl trivial
  | ifElse ifAction thenAction elseAction =>
    cases offer with
    | setChildAs role =>
      exact refusesCleanly_iff_of_warnNull (P := fun child => Spared w child (Children.supports role (.ifElse ..)))
        (r := fun child =>
          (IfElse.setChildAs n ifAction thenAction elseAction child role w).map (Prod.map .flag id))
        rfl rfl (spared_of_none _) fun c => IfElse.refusesCleanly_iff
    | _ => exact refusesCleanly_iff_of_same rfl trivial
  | switch switchAction defaultAction caseActions =>
    cases offer with
    | setChildAs role =>
      cases child with
      | none => exact refusesCleanly_iff_of_same rfl (spared_of_none _)
      | some c =>
        exact Switch.refusesCleanly_iff.trans (and_iff_right fun hnull => absurd hnull (some_ne_none c)).symm
    | _ => exact refusesCleanly_iff_of_same rfl trivial
  | loopIf ifAction execAction =>
    cases offer with
    | setChildAs role =>
      exact refusesCleanly_iff_of_warnNull (P := fun child => Spared w child (Children.supports role (.loopIf ..)))
        (r := fun child => (LoopIf.setChildAs n ifAction execAction child role w).map (Prod.map .flag id))
        rfl rfl (spared_of_none _) fun c => LoopIf.refusesCleanly_iff
    | _ => exact refusesCleanly_iff_of_same rfl trivial
  | loop old | repeatTimes old | wrapper old | composite old =>
    cases offer with
    | setChild =>
      exact refusesCleanly_iff_of_warnNull (P := fun _ => True)
        (r := fun child => (setOnlyChild n _ old _ child w).map (Prod.map .flag id)) rfl rfl trivial
        fun c => iff_true_intro (setOnlyChild_refusesCleanly fun c => List.mem_singleton_self c)
    | setChildAs role => exact refusesCleanly_iff_of_same rfl (.inl rfl)
    | _ => exact refusesCleanly_iff_of_same rfl trivial

/-- A sequence and an if-else with no children yet, and actions that nobody has taken. -/
def untaken : World Unit where
  children n := if n = 0 then .sequence [] else .ifElse none none none

/-- The sequence answers with an index when it is offered nothing, and an action that is offered to the if-else in no
role of its own loses its scope. -/
theorem untaken_touched :
    ¬RefusesCleanly untaken 0 none (untaken.offer 0 .addChild none) ∧
      ¬RefusesCleanly untaken 1 (some 2) (untaken.offer 1 (.setChildAs "cond") (some 2)) := by
  have hsequence : untaken.offer 0 .addChild none = some (.index 0, untaken) := rfl
  have hifElse : untaken.offer 1 (.setChildAs "cond") (some 2) =
      (IfElse.setChildAs 1 none none none (some 2) "cond" untaken).map (Prod.map .flag id) := rfl
  rw [hsequence, hifElse, IfElse.refusesCleanly_iff]
  constructor
  · exact not_refusesCleanly_index untaken 0 none
  · rintro (hsupported | hsevered)
    · exact absurd hsupported (by decide)
    · exact not_severed_of_null rfl (hsevered 2 rfl rfl)

end Tbox.Flow.Adoption
