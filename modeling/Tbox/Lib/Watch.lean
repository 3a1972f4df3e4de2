import Tbox.Lib.Run

/-!
# Things that are armed and fire

A watch is armed for something, is disarmed, and fires when what it sees is due; a one-shot watch is disarmed by that.
A device is a system with such a part.
-/

open List Option

namespace Tbox.Lib

variable {σ γ α β : Type*}

structure Watch (α β : Type*) where
  /-- what it is armed for, when it is -/
  subject : α
  due : β → Bool
  oneshot : Bool
  isEnabled : Bool := false

inductive WatchOp (β : Type*) where
  | enable
  | disable
  | fire (seen : β)

namespace Watch

def armed (x : Watch α β) : Option α := if x.isEnabled then some x.subject else none

/-- Whether it has fired, and what has become of it. -/
def step (x : Watch α β) : WatchOp β → Bool × Watch α β
  | .enable => (false, { x with isEnabled := true })
  | .disable => (false, { x with isEnabled := false })
  | .fire seen =>
    if x.due seen then (true, { x with isEnabled := x.isEnabled && !x.oneshot }) else (false, x)

/-- After each operation, whether it has fired and what it is armed for. -/
def observe (x : Watch α β) : List (WatchOp β) → List (Bool × Option α)
  | [] => []
  | op :: ops => ((x.step op).1, (x.step op).2.armed) :: observe (x.step op).2 ops

/-- What it comes to when something happens that is this to the watch, and that has fired or not. -/
def Meets (x : Watch α β) (P : Watch α β → Prop) (called : Bool) : Option (WatchOp β) → Prop
  | some op => called = (x.step op).1 ∧ P (x.step op).2
  | none => P x

end Watch

structure Device (σ γ α β : Type*) where
  /-- the next state, and whether the part that is looked at has fired -/
  step : σ → γ → Option (Bool × σ)
  armed : σ → Option α
  /-- what an action is to the part that is looked at -/
  concerns : γ → Option (WatchOp β)

namespace Device

variable {m : Device σ γ α β} {ok : γ → Prop} {R : σ → Watch α β → Prop} {s : σ} {x : Watch α β} {cs : List γ}

def next (m : Device σ γ α β) (s : σ) (c : γ) : Option σ := (m.step s c).map Prod.snd

/-- After each action that concerns it, whether the part has fired and what it is armed for. -/
def observe (m : Device σ γ α β) : σ → List γ → List (Bool × Option α)
  | _, [] => []
  | s, c :: cs =>
    match m.step s c with
    | none => []
    | some (called, t) =>
      match m.concerns c with
      | some _ => (called, m.armed t) :: m.observe t cs
      | none => m.observe t cs

/-- In the states that are related to a watch, the actions that are allowed do what they do to the watch. -/
structure Follows (m : Device σ γ α β) (ok : γ → Prop) (R : σ → Watch α β → Prop) : Prop where
  armed : ∀ s x, R s x → m.armed s = x.armed
  step : ∀ s x c called t, R s x → ok c → m.step s c = some (called, t) → x.Meets (R t) called (m.concerns c)

theorem Follows.observe_eq (h : m.Follows ok R) (hR : R s x) (hok : ∀ c ∈ cs, ok c)
    (hrun : (run m.next s cs).isSome) : m.observe s cs = x.observe (cs.filterMap m.concerns) := by
  induction cs generalizing s x with
  | nil => rfl
  | cons c cs ih =>
    obtain ⟨u, hu⟩ := isSome_iff_exists.mp hrun
    obtain ⟨t, ht, hrest⟩ := run_cons_eq_some.mp hu
    obtain ⟨⟨called, t⟩, hstep, rfl⟩ := map_eq_some_iff.mp ht
    have hlater : ∀ d ∈ cs, ok d := fun d hd => hok d (mem_cons_of_mem c hd)
    have hfollows := h.step s x c called t hR (hok c mem_cons_self) hstep
    rw [observe, hstep]
    dsimp only
    cases hconcerns : m.concerns c with
    | none =>
      rw [hconcerns] at hfollows
      rw [filterMap_cons_none hconcerns]
      exact ih hfollows hlater (isSome_iff_exists.mpr ⟨u, hrest⟩)
    | some op =>
      rw [hconcerns] at hfollows
      obtain ⟨rfl, hnext⟩ := hfollows
      rw [filterMap_cons_some hconcerns, Watch.observe, h.armed t _ hnext,
        ih hnext hlater (isSome_iff_exists.mpr ⟨u, hrest⟩)]

end Device

/-- Whatever is done to both alike, two devices show the same. -/
def Alike {σ' γ' : Type*} (m : Device σ γ α β) (ok : γ → Prop) (s : σ) (m' : Device σ' γ' α β) (ok' : γ' → Prop)
    (s' : σ') : Prop :=
  ∀ cs cs', (∀ c ∈ cs, ok c) → (∀ c ∈ cs', ok' c) → (run m.next s cs).isSome → (run m'.next s' cs').isSome →
    cs.filterMap m.concerns = cs'.filterMap m'.concerns → m.observe s cs = m'.observe s' cs'

theorem Device.Follows.alike {σ' γ' : Type*} {m : Device σ γ α β} {ok : γ → Prop} {R : σ → Watch α β → Prop}
    {m' : Device σ' γ' α β} {ok' : γ' → Prop} {R' : σ' → Watch α β → Prop} {s : σ} {s' : σ'} {x : Watch α β}
    (h : m.Follows ok R) (h' : m'.Follows ok' R') (hs : R s x) (hs' : R' s' x) : Alike m ok s m' ok' s' := by
  intro cs cs' hok hok' hrun hrun' hsame
  rw [h.observe_eq hs hok hrun, h'.observe_eq hs' hok' hrun', hsame]

end Tbox.Lib
