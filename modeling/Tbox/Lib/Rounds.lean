import Mathlib.Data.Option.Basic

/-!
# A loop that is given so many rounds

With too few it has no result. It ends when some number of rounds is enough; then every greater number is, and the
result is always the same.
-/

namespace Tbox.Lib

variable {α β : Type} {f : Nat → Option α} {g : Nat → α → Option β} {a b : α} {c : β}

/-- This is the result, as soon as there is one. -/
def Gives (f : Nat → Option α) (a : α) : Prop :=
  (∃ enough, ∀ rounds, enough ≤ rounds → f rounds = some a) ∧ ∀ rounds b, f rounds = some b → b = a

/-- However many rounds there are, they are too few. -/
def Never (f : Nat → Option α) : Prop := ∀ rounds, f rounds = none

theorem gives_of_eq (h : ∀ rounds, f rounds = some a) : Gives f a :=
  ⟨⟨0, fun rounds _ => h rounds⟩, fun rounds _ hb => Option.some.inj (hb.symm.trans (h rounds))⟩

theorem Gives.exists (h : Gives f a) : ∃ rounds, f rounds = some a :=
  have ⟨enough, hrounds⟩ := h.1
  ⟨enough, hrounds enough (Nat.le_refl _)⟩

theorem Gives.eq (h : Gives f a) {rounds : Nat} (hb : f rounds = some b) : b = a := h.2 rounds b hb

theorem Gives.unique (h : Gives f a) (hb : Gives f b) : a = b :=
  have ⟨_, hrounds⟩ := h.exists
  hb.eq hrounds

theorem Gives.of_succ {f g : Nat → Option α} (hzero : f 0 = none) (hsucc : ∀ rounds, f (rounds + 1) = g rounds)
    (hg : Gives g a) : Gives f a := by
  obtain ⟨⟨n, hn⟩, hunique⟩ := hg
  refine ⟨⟨n + 1, fun rounds hle => ?_⟩, fun rounds b hb => ?_⟩
  · obtain ⟨rounds, rfl⟩ := Nat.exists_eq_add_of_le' (Nat.le_of_add_left_le hle)
    rw [hsucc]
    exact hn rounds (by omega)
  · cases rounds with
    | zero => exact nomatch hzero.symm.trans hb
    | succ rounds => exact hunique rounds b ((hsucc rounds).symm.trans hb)

theorem Gives.bind (hf : Gives f a) (hg : Gives (fun rounds => g rounds a) c) :
    Gives (fun rounds => f rounds >>= g rounds) c := by
  obtain ⟨⟨n, hn⟩, hunique⟩ := hf
  obtain ⟨⟨m, hm⟩, hunique'⟩ := hg
  refine ⟨⟨max n m, fun rounds hle => ?_⟩, fun rounds d hd => ?_⟩
  · change (f rounds).bind (g rounds) = some c
    rw [hn rounds (by omega), Option.bind_some]
    exact hm rounds (by omega)
  · obtain ⟨b, hb, hd⟩ := Option.bind_eq_some_iff.mp hd
    rw [hunique rounds b hb] at hd
    exact hunique' rounds d hd

theorem Gives.map (hf : Gives f a) (next : α → β) : Gives (fun rounds => (f rounds).map next) (next a) := by
  obtain ⟨⟨n, hn⟩, hunique⟩ := hf
  refine ⟨⟨n, fun rounds hle => congrArg (Option.map next) (hn rounds hle)⟩, fun rounds d hd => ?_⟩
  obtain ⟨b, hb, rfl⟩ := Option.map_eq_some_iff.mp hd
  rw [hunique rounds b hb]

theorem Never.bind (hf : Never f) : Never fun rounds => f rounds >>= g rounds := fun rounds => by
  change (f rounds).bind (g rounds) = none
  rw [hf rounds, Option.bind_none]

theorem Gives.bind_never (hf : Gives f a) (hg : Never fun rounds => g rounds a) :
    Never fun rounds => f rounds >>= g rounds := fun rounds => by
  change (f rounds).bind (g rounds) = none
  cases hb : f rounds with
  | none => rfl
  | some b =>
    rw [Option.bind_some, hf.eq hb]
    exact hg rounds

section Iterations

variable {σ : Type} {step : σ → Option σ} {isDone : σ → Bool} {s t last : σ}

/-- The state in which the loop is done. An iteration without a result leaves it without one. -/
def iterate (step : σ → Option σ) (isDone : σ → Bool) : Nat → σ → Option σ
  | 0, _ => none
  | rounds + 1, s => if isDone s then some s else (step s).bind (iterate step isDone rounds)

/-- The states that the loop passes. -/
inductive Passes (step : σ → Option σ) (isDone : σ → Bool) (s : σ) : σ → Prop
  | start : Passes step isDone s s
  | next {t u : σ} : Passes step isDone s t → isDone t = false → step t = some u → Passes step isDone s u

theorem iterate_of_isDone (h : isDone s = true) : Gives (fun rounds => iterate step isDone rounds s) s :=
  Gives.of_succ rfl (fun _ => if_pos h) (gives_of_eq fun _ => rfl)

theorem iterate_of_step (h : isDone s = false) (hstep : step s = some t)
    (ht : Gives (fun rounds => iterate step isDone rounds t) last) :
    Gives (fun rounds => iterate step isDone rounds s) last :=
  Gives.of_succ rfl (fun _ => by rw [iterate, if_neg (Bool.eq_false_iff.mp h), hstep, Option.bind_some]) ht

/-- **A loop with a variant.** Where each iteration keeps the invariant and makes the state smaller, the loop ends. -/
theorem iterate_gives {I : σ → Prop} (size : σ → Nat)
    (hstep : ∀ s, I s → isDone s = false → ∃ t, step s = some t ∧ I t ∧ size t < size s) (hinit : I s) :
    ∃ t, Gives (fun rounds => iterate step isDone rounds s) t ∧ I t ∧ isDone t = true := by
  induction hsize : size s using Nat.strongRecOn generalizing s with
  | ind n ih =>
    cases hdone : isDone s with
    | true => exact ⟨s, iterate_of_isDone hdone, hinit, hdone⟩
    | false =>
      obtain ⟨t, ht, hinv, hlt⟩ := hstep s hinit hdone
      obtain ⟨u, hu, hresult⟩ := ih (size t) (hsize ▸ hlt) hinv rfl
      exact ⟨u, iterate_of_step hdone ht hu, hresult⟩

theorem Passes.invariant {I : σ → Prop} (hstep : ∀ s t, I s → isDone s = false → step s = some t → I t) (hinit : I s)
    (h : Passes step isDone s t) : I t := by
  induction h with
  | start => exact hinit
  | next _ hdone ht ih => exact hstep _ _ ih hdone ht

/-- What each iteration keeps holds when the loop is done. -/
theorem iterate_invariant {I : σ → Prop} (hstep : ∀ s t, I s → isDone s = false → step s = some t → I t) (hinit : I s)
    {rounds : Nat} (h : iterate step isDone rounds s = some t) : I t ∧ isDone t = true := by
  induction rounds generalizing s with
  | zero => cases h
  | succ rounds ih =>
    rw [iterate] at h
    split at h
    next hdone => exact Option.some.inj h ▸ ⟨hinit, hdone⟩
    next hdone =>
      obtain ⟨u, hu, hlater⟩ := Option.bind_eq_some_iff.mp h
      exact ih (hstep s u hinit (Bool.eq_false_iff.mpr hdone) hu) hlater

end Iterations

end Tbox.Lib
