import Tbox.Proof.ActionEffects
import Tbox.Flow.Program

/-!
# What is left of a program

A serial action decides what comes next each time a child has finished. The decisions taken after the same
results as the program was answered with leave the rest of the program to be done.
-/

open List Option

namespace Tbox.Flow.Action

open Lib (Script)

abbrev History := List (ActionId × Outcome)

def Kind.begins (kind : Kind) : Nat × Next := ((kind.onStart {}).1.index, (kind.onStart {}).2)

def Kind.goes (kind : Kind) (i : Nat) (c : ActionId) (r : Outcome) : Nat × Next :=
  ((kind.onChildFinished { index := i } c r.1 r.2).1.index,
    (kind.onChildFinished { index := i } c r.1 r.2).2)

def Kind.At (i : Nat) (c : ActionId) : Kind → Prop
  | .sequence _ children => children[i]? = some c
  | .ifThen ifThenActions => ∃ item, ifThenActions[i]? = some item ∧ (c = item.1 ∨ c = item.2)
  | kind => c ∈ kind.children

inductive Forest.Did (F : Forest) : ActionId → Nat → Next → History → Prop
  | begins {n : ActionId} (hserial : F.assembly n = .serial) :
      Did F n (F.kind n).begins.1 (F.kind n).begins.2 []
  | leaf {n c : ActionId} {i : Nat} {resets : List ActionId} {ifFails : Option (Bool × Reason)}
      {history : History} (h : Did F n i (.start resets c ifFails) history) (hleaf : F.kind c = .leaf)
      (r : Outcome) :
      Did F n ((F.kind n).goes i c r).1 ((F.kind n).goes i c r).2 (history ++ [(c, r)])
  | goes {n c : ActionId} {i j : Nat} {resets : List ActionId} {ifFails : Option (Bool × Reason)}
      {history history' : History} {isSucc : Bool} {why : Reason}
      (h : Did F n i (.start resets c ifFails) history) (hc : Did F c j (.finish isSucc why) history') :
      Did F n ((F.kind n).goes i c (isSucc, why)).1 ((F.kind n).goes i c (isSucc, why)).2
        (history ++ history')

def Forest.Ended (F : Forest) (n : ActionId) (history : History) (r : Outcome) : Prop :=
  F.kind n = .leaf ∧ history = [(n, r)] ∨ ∃ i, F.Did n i (.finish r.1 r.2) history

variable {F : Forest} {n c c' : ActionId} {i j rounds : Nat} {kind : Kind} {next : Next} {r : Outcome}
  {resets : List ActionId} {ifFails : Option (Bool × Reason)} {history : History}
  {child : ActionId → Program}

def Kind.after (child : ActionId → Program) (rounds i : Nat) (c : ActionId) (r : Outcome) (kind : Kind) :
    Program :=
  if kind.isLast c then Script.pure r
  else
    match kind with
    | .sequence mode children =>
      if mode.isLast r then Script.pure r
      else Script.sequence mode.isLast ((children.drop (i + 1)).map child) r
    | .ifThen ifThenActions =>
      if r.1 then
        match ifThenActions[i]? with
        | some item => child item.2
        | none => Script.halt .cutOff
      else Program.ifThen ((ifThenActions.drop (i + 1)).map fun item => (child item.1, child item.2))
    | .ifElse _ thenAction elseAction =>
      match if r.1 then thenAction else elseAction with
      | some c => child c
      | none => Script.pure (true, r.2)
    | .switch _ defaultAction caseActions =>
      if r.1 then
        match (caseActions.lookup r.2.message).or defaultAction with
        | some c => child c
        | none => Script.pure (false, switchSkip)
      else Script.pure (false, switchFail)
    | .loop body mode =>
      if mode.isLast r then Script.pure r else Script.loop mode.isLast (child body) rounds
    | .loopIf ifAction execAction finishResult =>
      if c = ifAction then
        if r.1 then do
          let _ ← child execAction
          Program.loopIf finishResult (child ifAction) (child execAction) rounds
        else Script.pure (finishResult, r.2)
      else Program.loopIf finishResult (child ifAction) (child execAction) rounds
    | .wrapper _ mode => Script.pure (mode.wrap r.1, r.2)
    | _ => Script.halt .cutOff

/-- What the program has left to do. -/
def Kind.rest (child : ActionId → Program) (rounds i : Nat) (kind : Kind) : Next → Program
  | .finish isSucc why => Script.pure (isSucc, why)
  | .start _ c _ => child c >>= fun r => kind.after child rounds i c r
  | .outOfRange => Script.halt .cutOff

variable {item : ActionId × ActionId} {items : List (ActionId × ActionId)}

theorem Kind.isLast_ifThen_fst
    (hitem : item ∈ items) : (Kind.ifThen items).isLast item.1 = false := by
  rw [isLast, List.all_eq_false]
  exact ⟨item, hitem, by simp⟩

theorem nodup_pairs
    (hnodup : (items.flatMap fun item => [item.1, item.2]).Nodup) {x y : ActionId × ActionId}
    (hx : x ∈ items) (hy : y ∈ items) : x.1 ≠ y.2 := by
  induction items with
  | nil => cases hx
  | cons item rest ih =>
    rw [flatMap_cons, nodup_append] at hnodup
    obtain ⟨hitem, hrest, hdisjoint⟩ := hnodup
    have hmem : ∀ z ∈ rest, z.1 ∈ rest.flatMap (fun item => [item.1, item.2]) ∧
        z.2 ∈ rest.flatMap (fun item => [item.1, item.2]) := by
      intro z hz
      exact ⟨mem_flatMap.mpr ⟨z, hz, by simp⟩, mem_flatMap.mpr ⟨z, hz, by simp⟩⟩
    rcases mem_cons.mp hx with hxi | hx <;> rcases mem_cons.mp hy with hyi | hy
    · rw [hxi, hyi]
      intro heq
      rw [heq] at hitem
      simp at hitem
    · exact hxi ▸ hdisjoint item.1 (by simp) y.2 (hmem y hy).2
    · exact hyi ▸ (hdisjoint item.2 (by simp) x.1 (hmem x hx).1).symm
    · exact ih hrest hx hy

theorem Kind.isLast_ifThen_snd
    (hnodup : (Kind.ifThen items).children.Nodup) (hitem : item ∈ items) :
    (Kind.ifThen items).isLast item.2 = true := by
  rw [isLast, List.all_eq_true]
  intro x hx
  exact decide_eq_true (nodup_pairs hnodup hx hitem)

theorem Kind.at_of_begins (h : kind.begins = (i, .start resets c ifFails)) : kind.At i c := by
  obtain ⟨hi, hnext⟩ := Prod.ext_iff.mp h
  dsimp only [Kind.begins] at hi hnext
  cases kind with
  | sequence mode children =>
    rw [← hi]
    dsimp only [Kind.onStart, Sequence.onStart, Sequence.startOtheriseFinish] at hnext ⊢
    split at hnext
    · next child hchild =>
        cases hnext
        exact hchild
    · cases hnext
  | ifThen items =>
    rw [← hi]
    dsimp only [Kind.onStart, IfThen.onStart, IfThen.doStart] at hnext ⊢
    split at hnext
    · next item hitem =>
        cases hnext
        exact ⟨item, hitem, .inl rfl⟩
    · cases hnext
  | leaf => cases hnext
  | parallel => cases hnext
  | ifElse | switch | loop | loopIf | repeatTimes | wrapper | composite =>
    cases hnext
    exact mem_cons_self

theorem Kind.mem_of_at (h : kind.At i c) : c ∈ kind.children := by
  cases kind with
  | sequence mode children => exact mem_of_getElem? h
  | ifThen items =>
    obtain ⟨item, hitem, hc⟩ := h
    refine mem_flatMap.mpr ⟨item, mem_of_getElem? hitem, ?_⟩
    rcases hc with rfl | rfl <;> simp
  | _ => exact h

def Kind.Later (c c' : ActionId) (kind : Kind) : Prop := kind.children.idxOf c < kind.children.idxOf c'

theorem idxOf_lt_of_tail {x y : ActionId} {xs : List ActionId} (hnodup : (x :: xs).Nodup) (hy : y ∈ xs) :
    (x :: xs).idxOf x < (x :: xs).idxOf y := by
  have hne : x ≠ y := by
    rintro rfl
    exact (nodup_cons.mp hnodup).1 hy
  rw [idxOf_cons_self, idxOf_cons_ne _ hne]
  exact Nat.succ_pos _

theorem idxOf_of_getElem? {xs : List ActionId} (hnodup : xs.Nodup) (h : xs[i]? = some c) : xs.idxOf c = i := by
  obtain ⟨hlt, rfl⟩ := List.getElem?_eq_some_iff.mp h
  exact hnodup.idxOf_getElem i hlt

theorem getElem?_pairs (h : items[i]? = some item) :
    (items.flatMap fun item => [item.1, item.2])[2 * i]? = some item.1 ∧
      (items.flatMap fun item => [item.1, item.2])[2 * i + 1]? = some item.2 := by
  induction items generalizing i with
  | nil => cases h
  | cons first rest ih =>
    cases i with
    | zero =>
      cases h
      exact ⟨rfl, rfl⟩
    | succ i => exact ih h

theorem mem_of_lookup {items : List (String × ActionId)} {key : String} (h : items.lookup key = some c) :
    (key, c) ∈ items := by
  obtain ⟨before, after, rfl, -⟩ := lookup_eq_some_iff.mp h
  exact mem_append_right _ mem_cons_self

theorem mem_of_branch {default : Option ActionId} {items : List (String × ActionId)} {key : String}
    (h : (items.lookup key).or default = some c) : c ∈ default.toList ++ items.map Prod.snd := by
  rw [mem_append, mem_toList]
  rcases or_eq_some_iff.mp h with hcase | ⟨-, hdefault⟩
  · exact .inr (List.mem_map.mpr ⟨_, mem_of_lookup hcase, rfl⟩)
  · exact .inl hdefault

theorem Kind.goes_start (hnodup : kind.children.Nodup) (hat : kind.At i c)
    (h : kind.goes i c r = (j, .start resets c' ifFails)) :
    kind.At j c' ∧ (resets = [] ∧ kind.Later c c' ∨ resets = kind.children) := by
  obtain ⟨hj, hnext⟩ := Prod.ext_iff.mp h
  dsimp only [Kind.goes, Kind.onChildFinished] at hj hnext
  split at hnext
  · cases hnext
  next hlast =>
    rw [if_neg hlast] at hj
    cases kind with
    | sequence mode children =>
      dsimp only [Sequence.onChildFinished, Sequence.startOtheriseFinish] at hj hnext
      split at hnext
      · cases hnext
      next hnot =>
        rw [if_neg hnot] at hj
        dsimp only at hj hnext
        split at hnext
        · next child hchild =>
            cases hnext
            rw [hj] at hchild
            refine ⟨hchild, .inl ⟨rfl, ?_⟩⟩
            rw [Kind.Later, idxOf_of_getElem? hnodup hat, idxOf_of_getElem? hnodup hchild, ← hj]
            exact Nat.lt_succ_self i
        · cases hnext
    | ifThen items =>
      obtain ⟨old, hold, hc⟩ := hat
      have hfst : c = old.1 := by
        refine hc.resolve_right ?_
        rintro rfl
        exact hlast (Kind.isLast_ifThen_snd hnodup (mem_of_getElem? hold))
      have hidx := idxOf_of_getElem? hnodup (hfst ▸ (getElem?_pairs hold).1)
      dsimp only [IfThen.onIfActionFinished, IfThen.doStart] at hj hnext
      split at hnext
      · next hsucc =>
          rw [if_pos hsucc, hold] at hj
          rw [hold] at hnext
          cases hnext
          refine ⟨⟨old, hj ▸ hold, .inr rfl⟩, .inl ⟨rfl, ?_⟩⟩
          rw [Kind.Later, hidx, idxOf_of_getElem? hnodup (getElem?_pairs hold).2]
          exact Nat.lt_succ_self _
      · next hfail =>
          rw [if_neg hfail] at hj
          split at hnext
          · next item hitem =>
              cases hnext
              refine ⟨⟨item, hj ▸ hitem, .inl rfl⟩, .inl ⟨rfl, ?_⟩⟩
              rw [Kind.Later, hidx, idxOf_of_getElem? hnodup (getElem?_pairs hitem).1]
              omega
          · cases hnext
    | ifElse ifAction thenAction elseAction =>
      have hc : ifAction = c := by
        by_contra hne
        exact hlast (decide_eq_true hne)
      dsimp only [IfElse.onCondActionFinished] at hnext
      split at hnext
      · next child hchild =>
          cases hnext
          have hmem : c' ∈ thenAction.toList ++ elseAction.toList := by
            rw [mem_append, mem_toList, mem_toList]
            split_ifs at hchild
            · exact .inl hchild
            · exact .inr hchild
          refine ⟨mem_cons_of_mem _ hmem, .inl ⟨rfl, ?_⟩⟩
          exact hc ▸ idxOf_lt_of_tail hnodup hmem
      · cases hnext
    | switch selector default items =>
      have hc : selector = c := by
        by_contra hne
        exact hlast (decide_eq_true hne)
      dsimp only [Switch.onSwitchActionFinished] at hnext
      split at hnext
      · split at hnext
        · next child hchild =>
            cases hnext
            have hmem := mem_of_branch hchild
            refine ⟨mem_cons_of_mem _ hmem, .inl ⟨rfl, ?_⟩⟩
            exact hc ▸ idxOf_lt_of_tail hnodup hmem
        · cases hnext
      · cases hnext
    | loop body mode =>
      dsimp only [Loop.onChildFinished] at hnext
      split at hnext
      · cases hnext
      · cases hnext
        exact ⟨mem_cons_self, .inr rfl⟩
    | loopIf ifAction execAction finishResult =>
      dsimp only at hnext
      split at hnext
      · next hc =>
          dsimp only [LoopIf.onIfFinished] at hnext
          split at hnext
          · cases hnext
            have hmem : c' ∈ [c'] := mem_singleton_self _
            refine ⟨mem_cons_of_mem _ hmem, .inl ⟨rfl, ?_⟩⟩
            rw [hc]
            exact idxOf_lt_of_tail hnodup hmem
          · cases hnext
      · cases hnext
        exact ⟨mem_cons_self, .inr rfl⟩
    | repeatTimes body times mode =>
      dsimp only [Repeat.onChildFinished] at hnext
      split at hnext
      · cases hnext
      split at hnext
      · cases hnext
        exact ⟨mem_cons_self, .inr rfl⟩
      · cases hnext
    | wrapper body mode =>
      cases mode <;> cases hnext
    | leaf => cases hnext
    | parallel => cases hnext
    | composite => cases hnext

theorem bind_pure_self (p : Program) : (p >>= fun r => Script.pure r) = p := by
  funext s
  cases h : p s with
  | mk out s' =>
    cases out with
    | ok r => exact Script.bind_of_ok h _
    | error e => exact Script.bind_of_error h _

theorem Kind.after_of_last (h : kind.isLast c = true) : kind.after child rounds i c r = Script.pure r := if_pos h

theorem Kind.after_ifThen (h : (Kind.ifThen items).isLast c = false) :
    (Kind.ifThen items).after child rounds i c r =
      if r.1 then
        match items[i]? with
        | some item => child item.2
        | none => Script.halt .cutOff
      else Program.ifThen ((items.drop (i + 1)).map fun item => (child item.1, child item.2)) :=
  if_neg (Bool.eq_false_iff.mp h)

theorem Kind.isLast_ifElse (ifAction : ActionId) (thenAction elseAction : Option ActionId) :
    (Kind.ifElse ifAction thenAction elseAction).isLast c = false ↔ c = ifAction := by
  rw [isLast, decide_eq_false_iff_not, not_not]
  exact eq_comm

theorem Kind.after_ifElse (ifAction : ActionId) (thenAction elseAction : Option ActionId) :
    (Kind.ifElse ifAction thenAction elseAction).after child rounds i ifAction r =
      match if r.1 then thenAction else elseAction with
      | some c => child c
      | none => Script.pure (true, r.2) :=
  if_neg (Bool.eq_false_iff.mp ((isLast_ifElse ifAction thenAction elseAction).mpr rfl))

theorem Kind.isLast_switch (selector : ActionId) (default : Option ActionId) (items : List (String × ActionId)) :
    (Kind.switch selector default items).isLast c = false ↔ c = selector := by
  rw [isLast, decide_eq_false_iff_not, not_not]
  exact eq_comm

theorem Kind.after_switch (selector : ActionId) (default : Option ActionId)
    (items : List (String × ActionId)) :
    (Kind.switch selector default items).after child rounds i selector r =
      if r.1 then
        match (items.lookup r.2.message).or default with
        | some c => child c
        | none => Script.pure (false, switchSkip)
      else Script.pure (false, switchFail) :=
  if_neg (Bool.eq_false_iff.mp ((isLast_switch selector default items).mpr rfl))

theorem lookup_map (items : List (String × ActionId)) (key : String) :
    (items.map fun item => (item.1, child item.2)).lookup key = (items.lookup key).map child := by
  induction items with
  | nil => rfl
  | cons item rest ih =>
    rw [map_cons, lookup_cons, lookup_cons, ih]
    split <;> rfl

variable (child rounds) in
theorem Kind.program_eq_rest (hstructured : kind.structured) (hleaf : kind ≠ .leaf) (n : ActionId) :
    kind.program child (rounds + 1) n = kind.rest child rounds kind.begins.1 kind.begins.2 := by
  cases kind with
  | leaf => exact absurd rfl hleaf
  | sequence mode children =>
    cases children with
    | nil => rfl
    | cons c cs => rfl
  | ifThen items =>
    cases items with
    | nil => rfl
    | cons item rest =>
      have hlast := isLast_ifThen_fst (mem_cons_self (a := item) (l := rest))
      refine congrArg (child item.1 >>= ·) (funext fun r => ?_)
      refine Eq.trans ?_ (after_ifThen hlast).symm
      rfl
  | ifElse ifAction thenAction elseAction =>
    refine congrArg (child ifAction >>= ·) (funext fun r => ?_)
    refine Eq.trans ?_ (after_ifElse ifAction thenAction elseAction).symm
    cases r.1 with
    | true => cases thenAction <;> rfl
    | false => cases elseAction <;> rfl
  | switch selector default items =>
    refine congrArg (child selector >>= ·) (funext fun r => ?_)
    refine Eq.trans ?_ (after_switch selector default items).symm
    rw [lookup_map]
    cases items.lookup r.2.message <;> cases default <;> rfl
  | loop body mode => rfl
  | loopIf ifAction execAction finishResult =>
    refine congrArg (child ifAction >>= ·) (funext fun r => ?_)
    exact (if_pos rfl).symm
  | wrapper body mode => rfl
  | composite body => exact (bind_pure_self (child body)).symm
  | parallel => cases hstructured
  | repeatTimes => cases hstructured

theorem Mode.isLast_iff (mode : Mode) (r : Outcome) :
    mode.isLast r = true ↔ (mode = .anySucc ∧ r.1) ∨ (mode = .anyFail ∧ !r.1) := by
  cases mode <;> simp [isLast]

theorem LoopMode.isLast_iff (mode : LoopMode) (r : Outcome) :
    mode.isLast r = true ↔ (mode = .untilSucc ∧ r.1) ∨ (mode = .untilFail ∧ !r.1) := by
  cases mode <;> simp [isLast]

theorem rest_sequence (mode : Mode) (children : List ActionId) :
    Script.sequence mode.isLast ((children.drop i).map child) r = (Kind.sequence mode children).rest child rounds i
        (Sequence.startOtheriseFinish children { index := i } r.1 r.2) := by
  rw [Sequence.startOtheriseFinish]
  cases hchild : children[i]? with
  | none =>
    rw [drop_eq_nil_of_le (List.getElem?_eq_none_iff.mp hchild)]
    rfl
  | some c =>
    obtain ⟨hlt, rfl⟩ := List.getElem?_eq_some_iff.mp hchild
    rw [drop_eq_getElem_cons hlt]
    rfl

theorem rest_ifThen (items : List (ActionId × ActionId)) :
    Program.ifThen ((items.drop i).map fun item => (child item.1, child item.2)) =
      (Kind.ifThen items).rest child rounds i (IfThen.doStart items { index := i }) := by
  rw [IfThen.doStart]
  cases hitem : items[i]? with
  | none =>
    rw [drop_eq_nil_of_le (List.getElem?_eq_none_iff.mp hitem)]
    rfl
  | some item =>
    have hlast := Kind.isLast_ifThen_fst (mem_of_getElem? hitem)
    obtain ⟨hlt, heq⟩ := List.getElem?_eq_some_iff.mp hitem
    rw [drop_eq_getElem_cons hlt, heq]
    refine congrArg (child item.1 >>= ·) (funext fun r => ?_)
    refine Eq.trans ?_ (Kind.after_ifThen hlast).symm
    rw [hitem]

theorem Kind.isLast_of_tail {first : ActionId} {others : List ActionId}
    (hchildren : kind.children = first :: others) (hnodup : kind.children.Nodup)
    (hfirst : ∀ c, kind.isLast c = false → c = first) (hc : c ∈ others) : kind.isLast c = true := by
  by_contra hnot
  have heq := hfirst c (Bool.eq_false_iff.mpr hnot)
  rw [hchildren, nodup_cons, ← heq] at hnodup
  exact hnodup.1 hc

theorem Kind.rest_of_last (h : kind.isLast c = true) :
    kind.rest child rounds i (.start resets c ifFails) = child c := by
  have heq : (fun r => kind.after child rounds i c r) = fun r => Script.pure r := funext fun r => after_of_last h
  rw [rest, heq]
  exact bind_pure_self (child c)

variable (child rounds r) in
/-- **A decision leaves the rest of the program**, a round of a loop less at most. -/
theorem Kind.after_eq_rest (hstructured : kind.structured) (hnodup : kind.children.Nodup) (hat : kind.At i c) :
    ∃ rounds' ≥ rounds, kind.after child (rounds + 1) i c r =
      kind.rest child rounds' (kind.goes i c r).1 (kind.goes i c r).2 := by
  cases hlast : kind.isLast c with
  | true =>
    refine ⟨rounds, le_rfl, ?_⟩
    have hgoes : kind.onChildFinished { index := i } c r.1 r.2 = ({ index := i }, .finish r.1 r.2) := if_pos hlast
    rw [after_of_last hlast, goes, hgoes]
    rfl
  | false =>
    have hnot := Bool.eq_false_iff.mp hlast
    cases kind with
    | leaf => cases hat
    | parallel => cases hstructured
    | repeatTimes => cases hstructured
    | composite => cases hlast
    | sequence mode children =>
      refine ⟨rounds, le_rfl, ?_⟩
      have hgoes : (Kind.sequence mode children).onChildFinished { index := i } c r.1 r.2 =
          Sequence.onChildFinished mode children { index := i } r.1 r.2 := if_neg hnot
      rw [goes, hgoes, Sequence.onChildFinished]
      refine (if_neg hnot).trans ?_
      by_cases hend : mode.isLast r = true
      · rw [if_pos ((mode.isLast_iff r).mp hend)]
        exact if_pos hend
      · rw [if_neg (mt (mode.isLast_iff r).mpr hend)]
        exact (if_neg hend).trans (rest_sequence mode children)
    | ifThen items =>
      refine ⟨rounds, le_rfl, ?_⟩
      obtain ⟨item, hitem, -⟩ := hat
      have hgoes : (Kind.ifThen items).onChildFinished { index := i } c r.1 r.2 =
          IfThen.onIfActionFinished items { index := i } r.1 := if_neg hnot
      rw [goes, hgoes, IfThen.onIfActionFinished, after_ifThen hlast]
      cases r.1 with
      | true =>
        simp only [if_true, hitem]
        exact (rest_of_last (isLast_ifThen_snd hnodup (mem_of_getElem? hitem))).symm
      | false =>
        simp only [Bool.false_eq_true, if_false]
        exact rest_ifThen items
    | ifElse ifAction thenAction elseAction =>
      refine ⟨rounds, le_rfl, ?_⟩
      have hgoes : (Kind.ifElse ifAction thenAction elseAction).onChildFinished { index := i } c r.1 r.2 =
          ({ index := i }, IfElse.onCondActionFinished thenAction elseAction r.1 r.2) := if_neg hnot
      obtain rfl := (isLast_ifElse ifAction thenAction elseAction).mp hlast
      rw [goes, hgoes, after_ifElse, IfElse.onCondActionFinished]
      cases hbranch : (if r.1 = true then thenAction else elseAction) with
      | none => rfl
      | some child' =>
        refine (rest_of_last (isLast_of_tail rfl hnodup (fun _ => (isLast_ifElse _ _ _).mp) ?_)).symm
        rw [mem_append, mem_toList, mem_toList]
        split_ifs at hbranch
        · exact .inl hbranch
        · exact .inr hbranch
    | switch selector default items =>
      refine ⟨rounds, le_rfl, ?_⟩
      have hgoes : (Kind.switch selector default items).onChildFinished { index := i } c r.1 r.2 =
          ({ index := i }, Switch.onSwitchActionFinished default items r.1 r.2) := if_neg hnot
      obtain rfl := (isLast_switch selector default items).mp hlast
      rw [goes, hgoes, after_switch, Switch.onSwitchActionFinished]
      cases r.1 with
      | false => rfl
      | true =>
        simp only [if_true]
        cases hbranch : (items.lookup r.2.message).or default with
        | none => rfl
        | some child' =>
          exact (rest_of_last (isLast_of_tail rfl hnodup
            (fun _ => (isLast_switch _ _ _).mp) (mem_of_branch hbranch))).symm
    | loop body mode =>
      refine ⟨rounds, le_rfl, ?_⟩
      have hgoes : (Kind.loop body mode).onChildFinished { index := i } c r.1 r.2 =
          ({ index := i }, Loop.onChildFinished body mode r.1 r.2) := if_neg hnot
      rw [goes, hgoes, Loop.onChildFinished]
      refine (if_neg hnot).trans ?_
      by_cases hend : mode.isLast r = true
      · rw [if_pos ((mode.isLast_iff r).mp hend)]
        exact if_pos hend
      · rw [if_neg (mt (mode.isLast_iff r).mpr hend)]
        exact if_neg hend
    | loopIf ifAction execAction finishResult =>
      by_cases hc : c = ifAction
      · refine ⟨rounds + 1, Nat.le_succ rounds, ?_⟩
        have hgoes : (Kind.loopIf ifAction execAction finishResult).onChildFinished { index := i } c r.1 r.2 =
            ({ index := i }, LoopIf.onIfFinished execAction finishResult r.1 r.2) :=
          (if_neg hnot).trans (if_pos hc)
        have hne : execAction ≠ ifAction := by
          rintro rfl
          exact (nodup_cons.mp hnodup).1 (mem_singleton_self _)
        rw [goes, hgoes, LoopIf.onIfFinished]
        refine (if_neg hnot).trans ((if_pos hc).trans ?_)
        cases r.1 with
        | false => rfl
        | true =>
          refine congrArg (child execAction >>= ·) (funext fun r' => ?_)
          exact (if_neg hne).symm
      · refine ⟨rounds, le_rfl, ?_⟩
        have hgoes : (Kind.loopIf ifAction execAction finishResult).onChildFinished { index := i } c r.1 r.2 =
            ({ index := i }, LoopIf.onExecFinished ifAction execAction finishResult r.2) :=
          (if_neg hnot).trans (if_neg hc)
        rw [goes, hgoes, LoopIf.onExecFinished]
        refine (if_neg hnot).trans ((if_neg hc).trans ?_)
        refine congrArg (child ifAction >>= ·) (funext fun r' => ?_)
        exact (if_pos rfl).symm
    | wrapper body mode =>
      refine ⟨rounds, le_rfl, ?_⟩
      cases mode <;> rfl

namespace Forest

theorem Did.serial (h : F.Did n i next history) : F.assembly n = .serial := by
  induction h with
  | begins hserial => exact hserial
  | leaf _ _ _ ih => exact ih
  | goes _ _ ih _ => exact ih

theorem Did.at (h : F.Did n i next history) (hnext : next = .start resets c ifFails) : (F.kind n).At i c := by
  induction h generalizing resets c ifFails with
  | begins _ => exact Kind.at_of_begins (Prod.ext rfl hnext)
  | leaf _ _ r ih => exact (Kind.goes_start (F.nodup _) (ih rfl) (Prod.ext rfl hnext)).1
  | goes _ _ ih _ => exact (Kind.goes_start (F.nodup _) (ih rfl) (Prod.ext rfl hnext)).1

theorem Did.parent (h : F.Did n i (.start resets c ifFails) history) : F.parent c = some n :=
  mem_children.mp (Kind.mem_of_at (h.at rfl))

theorem kind_ne_leaf (h : F.assembly n = .serial) : F.kind n ≠ .leaf := by
  intro hleaf
  rw [assembly, hleaf] at h
  cases h

/-- All actions of the tree stand for structured programs. -/
def Structured (F : Forest) (n : ActionId) : Prop := ∀ m, F.Below n m → (F.kind m).structured

theorem Structured.of_parent (h : F.Structured n) (hc : F.parent c = some n) : F.Structured c :=
  fun m hm => h m (Lib.Below.of_child hm hc)

/-- Answered with what the leaves have come to, the program has made the same calls, and the decision says
what is left of it. -/
theorem Did.program (h : F.Did n i next history) (hs : F.Structured n) (rounds : Nat) :
    ∃ least, ∀ fuel ≥ least, ∃ rounds' ≥ rounds, ∀ calls answers,
      F.program (fuel + 1) n ⟨calls, history.map Prod.snd ++ answers⟩ =
        (F.kind n).rest (F.program fuel) rounds' i next ⟨calls ++ history.map Prod.fst, answers⟩ := by
  induction h generalizing rounds with
  | @begins n hserial =>
    refine ⟨rounds + 1, fun fuel hfuel => ?_⟩
    obtain ⟨fuel, rfl⟩ := Nat.exists_eq_succ_of_ne_zero (Nat.ne_of_gt (Nat.lt_of_lt_of_le (Nat.succ_pos _) hfuel))
    refine ⟨fuel, Nat.le_of_succ_le_succ hfuel, fun calls answers => ?_⟩
    have heq := Kind.program_eq_rest fuel (F.program (fuel + 1)) (hs n (Lib.Below.refl n)) (kind_ne_leaf hserial) n
    rw [map_nil, map_nil, append_nil, nil_append]
    exact congrFun heq ⟨calls, answers⟩
  | @leaf n c i resets ifFails history hdid hleaf r ih =>
    obtain ⟨least, hleast⟩ := ih hs (rounds + 1)
    refine ⟨least + 1, fun fuel hfuel => ?_⟩
    obtain ⟨rounds₁, hrounds₁, hrest⟩ := hleast fuel (by omega)
    obtain ⟨rounds₁, rfl⟩ := Nat.exists_eq_succ_of_ne_zero (n := rounds₁) (by omega)
    obtain ⟨rounds', hrounds', hafter⟩ := Kind.after_eq_rest rounds₁ r (F.program fuel)
      (hs n (Lib.Below.refl n)) (F.nodup n) (hdid.at rfl)
    refine ⟨rounds', by omega, fun calls answers => ?_⟩
    obtain ⟨fuel, rfl⟩ := Nat.exists_eq_succ_of_ne_zero (n := fuel) (by omega)
    have hcall : F.program (fuel + 1) c ⟨calls ++ history.map Prod.fst, r :: answers⟩ =
        (.ok r, ⟨calls ++ history.map Prod.fst ++ [c], answers⟩) := by
      rw [Forest.program, hleaf]
      rfl
    have hanswers : (history ++ [(c, r)]).map Prod.snd ++ answers =
        history.map Prod.snd ++ (r :: answers) := by
      rw [map_append, append_assoc]
      rfl
    have hcalls : calls ++ (history ++ [(c, r)]).map Prod.fst = calls ++ history.map Prod.fst ++ [c] := by
      rw [map_append, append_assoc]
      rfl
    rw [hanswers, hcalls]
    refine (hrest calls (r :: answers)).trans ((Script.bind_of_ok hcall _).trans ?_)
    exact congrFun hafter _
  | @goes n c i j resets ifFails history history' isSucc why hdid hc ih ihc =>
    obtain ⟨least, hleast⟩ := ih hs (rounds + 1)
    obtain ⟨least', hleast'⟩ := ihc (hs.of_parent hdid.parent) 0
    refine ⟨least + least' + 1, fun fuel hfuel => ?_⟩
    obtain ⟨rounds₁, hrounds₁, hrest⟩ := hleast fuel (by omega)
    obtain ⟨rounds₁, rfl⟩ := Nat.exists_eq_succ_of_ne_zero (n := rounds₁) (by omega)
    obtain ⟨rounds', hrounds', hafter⟩ := Kind.after_eq_rest rounds₁ (isSucc, why) (F.program fuel)
      (hs n (Lib.Below.refl n)) (F.nodup n) (hdid.at rfl)
    refine ⟨rounds', by omega, fun calls answers => ?_⟩
    obtain ⟨fuel, rfl⟩ := Nat.exists_eq_succ_of_ne_zero (n := fuel) (by omega)
    obtain ⟨_, -, hchild⟩ := hleast' fuel (by omega)
    rw [map_append, map_append, append_assoc, ← append_assoc calls]
    refine (hrest calls _).trans ((Script.bind_of_ok (hchild _ answers) _).trans ?_)
    exact congrFun hafter _

/-- **What an action finishes with is what its program ends with.** -/
theorem Ended.program (h : F.Ended n history r) (hs : F.Structured n) : ∃ least, ∀ fuel ≥ least, ∀ calls answers,
      F.program fuel n ⟨calls, history.map Prod.snd ++ answers⟩ =
        (.ok r, ⟨calls ++ history.map Prod.fst, answers⟩) := by
  rcases h with ⟨hleaf, rfl⟩ | ⟨i, hdid⟩
  · refine ⟨1, fun fuel hfuel calls answers => ?_⟩
    obtain ⟨fuel, rfl⟩ := Nat.exists_eq_succ_of_ne_zero (n := fuel) (by omega)
    rw [Forest.program, hleaf]
    rfl
  · obtain ⟨least, hleast⟩ := hdid.program hs 0
    refine ⟨least + 1, fun fuel hfuel calls answers => ?_⟩
    obtain ⟨fuel, rfl⟩ := Nat.exists_eq_succ_of_ne_zero (n := fuel) (by omega)
    obtain ⟨_, -, hrest⟩ := hleast fuel (by omega)
    exact hrest calls answers

end Forest

section Grows

open Lib.Script (Grows)

namespace Program

theorem grows_ifThen {items : List (Program × Program)} (h : ∀ item ∈ items, Grows item.1 ∧ Grows item.2) :
    Grows (ifThen items) := by
  induction items with
  | nil => exact .pure _
  | cons item items ih =>
    obtain ⟨hcond, hbody⟩ := h item mem_cons_self
    refine hcond.bind fun r => ?_
    split_ifs
    · exact hbody
    · exact ih fun other hother => h other (mem_cons_of_mem item hother)

theorem grows_loopIf {cond body : Program} (finishResult : Bool) (hcond : Grows cond) (hbody : Grows body)
    (rounds : Nat) : Grows (loopIf finishResult cond body rounds) := by
  induction rounds with
  | zero => exact .halt _
  | succ rounds ih =>
    refine hcond.bind fun r => ?_
    split_ifs
    · exact hbody.bind fun _ => ih
    · exact .pure _

end Program

theorem Kind.grows_program {child : ActionId → Program} (h : ∀ c, Grows (child c)) (rounds : Nat) (n : ActionId)
    (kind : Kind) : Grows (kind.program child rounds n) := by
  cases kind with
  | leaf => exact .call n
  | sequence mode children =>
    refine .sequence (fun p hp => ?_) _
    obtain ⟨c, -, rfl⟩ := List.mem_map.mp hp
    exact h c
  | ifThen items =>
    refine Program.grows_ifThen fun item hitem => ?_
    obtain ⟨pair, -, rfl⟩ := List.mem_map.mp hitem
    exact ⟨h pair.1, h pair.2⟩
  | ifElse ifAction thenAction elseAction =>
    refine (h ifAction).bind fun r => ?_
    cases r.1 with
    | true =>
      cases thenAction with
      | some c => exact h c
      | none => exact .pure _
    | false =>
      cases elseAction with
      | some c => exact h c
      | none => exact .pure _
  | switch selector default items =>
    refine (h selector).bind fun r => ?_
    rw [lookup_map]
    split_ifs
    · cases items.lookup r.2.message with
      | some c => exact h c
      | none =>
        cases default with
        | some c => exact h c
        | none => exact .pure _
    · exact .pure _
  | loop body mode => exact .loop (h body) rounds
  | loopIf ifAction execAction finishResult => exact Program.grows_loopIf _ (h ifAction) (h execAction) rounds
  | wrapper body mode => exact (h body).bind fun r => .pure _
  | composite body => exact h body
  | parallel => exact .halt _
  | repeatTimes => exact .halt _

theorem Kind.grows_after {child : ActionId → Program} (h : ∀ c, Grows (child c)) (rounds i : Nat) (c : ActionId)
    (r : Outcome) (kind : Kind) : Grows (kind.after child rounds i c r) := by
  rw [Kind.after.eq_def]
  by_cases hlast : kind.isLast c = true
  · rw [if_pos hlast]
    exact .pure r
  rw [if_neg hlast]
  cases kind with
  | leaf => exact .halt _
  | sequence mode children =>
    dsimp only
    split_ifs
    · exact .pure r
    · refine .sequence (fun p hp => ?_) _
      obtain ⟨d, -, rfl⟩ := List.mem_map.mp hp
      exact h d
  | ifThen items =>
    dsimp only
    split_ifs
    · cases items[i]? with
      | some item => exact h item.2
      | none => exact .halt _
    · refine Program.grows_ifThen fun item hitem => ?_
      obtain ⟨pair, -, rfl⟩ := List.mem_map.mp hitem
      exact ⟨h pair.1, h pair.2⟩
  | ifElse ifAction thenAction elseAction =>
    dsimp only
    cases (if r.1 = true then thenAction else elseAction) with
    | some d => exact h d
    | none => exact .pure _
  | switch selector default items =>
    dsimp only
    split_ifs
    · cases (items.lookup r.2.message).or default with
      | some d => exact h d
      | none => exact .pure _
    · exact .pure _
  | loop body mode =>
    dsimp only
    split_ifs
    · exact .pure r
    · exact .loop (h body) rounds
  | loopIf ifAction execAction finishResult =>
    have hloop := Program.grows_loopIf finishResult (h ifAction) (h execAction) rounds
    dsimp only
    split_ifs
    · exact (h execAction).bind fun _ => hloop
    · exact .pure _
    · exact hloop
  | wrapper body mode => exact .pure _
  | composite body => exact .halt _
  | parallel => exact .halt _
  | repeatTimes => exact .halt _

theorem Forest.grows_program (F : Forest) (fuel : Nat) (n : ActionId) : Grows (F.program fuel n) := by
  induction fuel generalizing n with
  | zero => exact .halt _
  | succ fuel ih => exact Kind.grows_program ih fuel n _

end Grows

end Tbox.Flow.Action
