import Tbox.Lib.ListFacts

/-!
# Runs of a partial step function

A system is a step function `σ → α → Option σ`: the action carries every choice the environment makes, and `none` says
the action is not enabled. `Along` makes a result conditional on how the run was driven rather than on where it ended.
-/

open List

namespace Tbox.Lib

variable {σ α : Type*}

/-- The state reached by performing the actions in order, if each one is enabled. -/
def run (step : σ → α → Option σ) : σ → List α → Option σ
  | s, [] => some s
  | s, a :: as => (step s a).bind fun t => run step t as

/-- Every action that is performed meets the guard in the state it is performed in. -/
def Along (step : σ → α → Option σ) (guard : σ → α → Prop) : σ → List α → Prop
  | _, [] => True
  | s, a :: as => ∀ t, step s a = some t → guard s a ∧ Along step guard t as

/-- Every state the run passes through, the first and the last included, has the property. -/
def Always (step : σ → α → Option σ) (P : σ → Prop) (s : σ) (as : List α) : Prop :=
  ∀ pre, pre <+: as → ∀ t, run step s pre = some t → P t

section Runs

variable {step : σ → α → Option σ} {guard : σ → α → Prop} {I P : σ → Prop} {s t : σ}
  {a : α} {as bs : List α}

theorem run_cons : run step s (a :: as) = (step s a).bind fun t => run step t as := rfl

theorem run_cons_eq_some : run step s (a :: as) = some t ↔ ∃ u, step s a = some u ∧ run step u as = some t := by
  rw [run_cons, Option.bind_eq_some_iff]

theorem run_append : run step s (as ++ bs) = (run step s as).bind fun t => run step t bs := by
  induction as generalizing s with
  | nil => rfl
  | cons a as ih =>
    rw [cons_append, run_cons, run_cons]
    cases step s a with
    | none => rfl
    | some u => exact ih

theorem along_cons_of_eq_some (h : step s a = some t) :
    Along step guard s (a :: as) ↔ guard s a ∧ Along step guard t as := by
  constructor
  · exact fun halong => halong t h
  · intro hstep u hu
    rw [← Option.some.inj (h.symm.trans hu)]
    exact hstep

theorem along_cons_of_eq_none (h : step s a = none) : Along step guard s (a :: as) := by
  intro t ht
  rw [h] at ht
  cases ht

instance decidableAlong [∀ s a, Decidable (guard s a)] :
    ∀ (s : σ) (as : List α), Decidable (Along step guard s as)
  | _, [] => .isTrue trivial
  | s, a :: as =>
    match h : step s a with
    | none => .isTrue (along_cons_of_eq_none h)
    | some t =>
      have := decidableAlong t as
      decidable_of_iff _ (along_cons_of_eq_some h).symm

/-- **The invariant rule.** What every guarded step preserves, every guarded run preserves. -/
theorem run_invariant (hstep : ∀ s a t, I s → guard s a → step s a = some t → I t)
    (hinit : I s) (hguard : Along step guard s as) (hrun : run step s as = some t) : I t := by
  induction as generalizing s with
  | nil => exact Option.some.inj hrun ▸ hinit
  | cons a as ih =>
    obtain ⟨u, hu, hrest⟩ := run_cons_eq_some.mp hrun
    obtain ⟨hfirst, hlater⟩ := hguard u hu
    exact ih (hstep s a u hinit hfirst hu) hlater hrest

theorem run_invariant_of_step (hstep : ∀ s a t, I s → step s a = some t → I t)
    (hinit : I s) (hrun : run step s as = some t) : I t := by
  induction as generalizing s with
  | nil => exact Option.some.inj hrun ▸ hinit
  | cons a as ih =>
    obtain ⟨u, hu, hrest⟩ := run_cons_eq_some.mp hrun
    exact ih (hstep s a u hinit hu) hrest

theorem run_map {τ : Type*} {step' : τ → α → Option τ} (p : σ → τ)
    (hstep : ∀ s a t, step s a = some t → step' (p s) a = some (p t))
    (hrun : run step s as = some t) : run step' (p s) as = some (p t) := by
  induction as generalizing s with
  | nil => exact congrArg (fun u => some (p u)) (Option.some.inj hrun)
  | cons a as ih =>
    obtain ⟨u, hu, hrest⟩ := run_cons_eq_some.mp hrun
    exact run_cons_eq_some.mpr ⟨p u, hstep s a u hu, ih hrest⟩

theorem along_of_forall (hguard : ∀ s a, guard s a) : Along step guard s as := by
  induction as generalizing s with
  | nil => trivial
  | cons a as ih => exact fun _ _ => ⟨hguard s a, ih⟩

theorem along_of_forall_mem {P : α → Prop} (h : ∀ a ∈ as, P a) : Along step (fun _ a => P a) s as := by
  induction as generalizing s with
  | nil => trivial
  | cons a as ih =>
    exact fun t _ => ⟨h a mem_cons_self, ih fun b hb => h b (mem_cons_of_mem a hb)⟩

theorem Along.of_prefix (hguard : Along step guard s as) (hpre : bs <+: as) : Along step guard s bs := by
  induction bs generalizing s as with
  | nil => trivial
  | cons b bs ih =>
    obtain ⟨rest, rfl⟩ := hpre
    exact fun t ht => ⟨(hguard t ht).1, ih (hguard t ht).2 (prefix_append bs rest)⟩

theorem Along.append_right (hguard : Along step guard s (as ++ bs)) (hrun : run step s as = some t) :
    Along step guard t bs := by
  induction as generalizing s with
  | nil => exact Option.some.inj hrun ▸ hguard
  | cons a as ih =>
    obtain ⟨u, hu, hrest⟩ := run_cons_eq_some.mp hrun
    exact ih (hguard u hu).2 hrest

theorem Along.and {guard' : σ → α → Prop} (hguard : Along step guard s as) (hguard' : Along step guard' s as) :
    Along step (fun s a => guard s a ∧ guard' s a) s as := by
  induction as generalizing s with
  | nil => trivial
  | cons a as ih =>
    exact fun t ht => ⟨⟨(hguard t ht).1, (hguard' t ht).1⟩, ih (hguard t ht).2 (hguard' t ht).2⟩

theorem Along.mono {guard' : σ → α → Prop} (hinv : ∀ s a t, I s → guard s a → step s a = some t → I t)
    (hmono : ∀ s a, I s → guard s a → guard' s a)
    (hinit : I s) (hguard : Along step guard s as) : Along step guard' s as := by
  induction as generalizing s with
  | nil => trivial
  | cons a as ih =>
    intro t ht
    obtain ⟨hfirst, hlater⟩ := hguard t ht
    exact ⟨hmono s a hinit hfirst, ih (hinv s a t hinit hfirst ht) hlater⟩

theorem along_congr {base guard' : σ → α → Prop} (hinv : ∀ s a t, I s → base s a → step s a = some t → I t)
    (hiff : ∀ s a, I s → base s a → (guard s a ↔ guard' s a)) (hinit : I s) (hbase : Along step base s as) :
    Along step guard s as ↔ Along step guard' s as := by
  constructor
  · intro hguard
    exact (hbase.and hguard).mono (fun s a t hs hg => hinv s a t hs hg.1)
      (fun s a hs hg => (hiff s a hs hg.1).mp hg.2) hinit
  · intro hguard
    exact (hbase.and hguard).mono (fun s a t hs hg => hinv s a t hs hg.1)
      (fun s a hs hg => (hiff s a hs hg.1).mpr hg.2) hinit

theorem Always.along (halways : Always step P s as) :
    Along step (fun s a => P s ∧ ∀ t, step s a = some t → P t) s as := by
  induction as generalizing s with
  | nil => trivial
  | cons a as ih =>
    intro t ht
    refine ⟨⟨halways [] (List.nil_prefix) s rfl, fun u hu => ?_⟩, ih fun pre hpre u hu => ?_⟩
    · exact halways [a] ⟨as, rfl⟩ u (by rw [run_cons, hu]; rfl)
    · refine halways (a :: pre) ((prefix_cons_inj a).mpr hpre) u ?_
      rw [run_cons, ht]
      exact hu

/-- A property that survives a step exactly when the guard holds does so all along a run exactly when the guard does. -/
theorem always_iff_along {b : σ → α → Prop} (hinv : ∀ s a t, I s → b s a → P s → step s a = some t → I t)
    (hstep : ∀ s a t, I s → b s a → P s → step s a = some t → (P t ↔ guard s a))
    (hinit : I s) (hbase : Along step b s as) (hP : P s) : Always step P s as ↔ Along step guard s as := by
  induction as generalizing s with
  | nil =>
    refine ⟨fun _ => trivial, fun _ pre hpre t ht => ?_⟩
    rw [prefix_nil.mp hpre] at ht
    exact Option.some.inj ht ▸ hP
  | cons a as ih =>
    constructor
    · intro halways t ht
      have hnext : P t := halways [a] ⟨as, rfl⟩ t (by rw [run_cons, ht]; rfl)
      refine ⟨(hstep s a t hinit (hbase t ht).1 hP ht).mp hnext, ?_⟩
      refine (ih (hinv s a t hinit (hbase t ht).1 hP ht) (hbase t ht).2 hnext).mp ?_
      intro pre hpre u hu
      refine halways (a :: pre) ((prefix_cons_inj a).mpr hpre) u ?_
      rw [run_cons, ht]
      exact hu
    · intro hguard pre hpre t ht
      cases pre with
      | nil => exact Option.some.inj ht ▸ hP
      | cons b pre =>
        obtain ⟨rfl, hpre'⟩ := cons_prefix_cons.mp hpre
        obtain ⟨u, hu, hrest⟩ := run_cons_eq_some.mp ht
        obtain ⟨hfirst, hlater⟩ := hguard u hu
        have hPu : P u := (hstep s b u hinit (hbase u hu).1 hP hu).mpr hfirst
        exact (ih (hinv s b u hinit (hbase u hu).1 hP hu) (hbase u hu).2 hPu).mpr hlater pre hpre' t hrest

/-- The same where the property is one of the steps, and what the next ones need comes with the guard. -/
theorem along_iff_along {good : σ → α → Prop} (hinv : ∀ s a t, I s → guard s a → step s a = some t → I t)
    (hstep : ∀ s a t, I s → step s a = some t → (good s a ↔ guard s a))
    (hinit : I s) : Along step good s as ↔ Along step guard s as := by
  induction as generalizing s with
  | nil => exact Iff.rfl
  | cons a as ih =>
    refine forall₂_congr fun t ht => ?_
    rw [hstep s a t hinit ht]
    exact and_congr_right fun hguard => ih (hinv s a t hinit hguard ht)

end Runs

end Tbox.Lib
