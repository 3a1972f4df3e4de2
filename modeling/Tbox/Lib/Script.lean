import Mathlib.Tactic

/-!
# Programs that make calls

What a script calls is answered from outside, and it waits for an answer that is not there yet: a script is a function
of the answers there are, and what it has called is part of what it comes to.
-/

namespace Tbox.Lib

/-- Why a script has not come to its end. -/
inductive Halt where
  | waits
  /-- a loop has been cut off -/
  | cutOff
  deriving DecidableEq, Repr

structure Exchange (κ ρ : Type) where
  calls : List κ := []
  answers : List ρ
  deriving DecidableEq, Repr

abbrev Script (κ ρ α : Type) := Exchange κ ρ → Except Halt α × Exchange κ ρ

namespace Script

variable {κ ρ α β : Type}

def pure (a : α) : Script κ ρ α := fun s => (.ok a, s)

def halt (h : Halt) : Script κ ρ α := fun s => (.error h, s)

def bind (p : Script κ ρ α) (f : α → Script κ ρ β) : Script κ ρ β := fun s =>
  match p s with
  | (.ok a, s) => f a s
  | (.error h, s) => (.error h, s)

instance : Monad (Script κ ρ) where
  pure := Script.pure
  bind := Script.bind

def call (c : κ) : Script κ ρ ρ := fun s =>
  let calls := s.calls ++ [c]
  match s.answers with
  | [] => (.error .waits, { s with calls })
  | r :: answers => (.ok r, { calls, answers })

/-- One after the other, up to the first whose result is the last. -/
def sequence (isLast : α → Bool) : List (Script κ ρ α) → α → Script κ ρ α
  | [], last => pure last
  | p :: ps, _ => do
      let r ← p
      if isLast r then pure r else sequence isLast ps r

/-- As often as it takes, within bounds. -/
def loop (isLast : α → Bool) (body : Script κ ρ α) : Nat → Script κ ρ α
  | 0 => halt .cutOff
  | rounds + 1 => do
      let r ← body
      if isLast r then pure r else loop isLast body rounds

variable {p : Script κ ρ α}

theorem bind_of_ok {s s' : Exchange κ ρ} {a : α} (h : p s = (.ok a, s'))
    (f : α → Script κ ρ β) : (p >>= f) s = f a s' := by
  change Script.bind p f s = _
  rw [Script.bind, h]

theorem bind_of_error {s s' : Exchange κ ρ} {e : Halt} (h : p s = (.error e, s'))
    (f : α → Script κ ρ β) : (p >>= f) s = (.error e, s') := by
  change Script.bind p f s = _
  rw [Script.bind, h]

/-- A script only adds to what has been called. -/
def Grows (p : Script κ ρ α) : Prop := ∀ s, s.calls <+: (p s).2.calls

theorem Grows.pure (a : α) : Grows (Script.pure a : Script κ ρ α) := fun _ => List.prefix_refl _

theorem Grows.halt (h : Halt) : Grows (Script.halt h : Script κ ρ α) := fun _ => List.prefix_refl _

theorem Grows.call (c : κ) : Grows (Script.call c : Script κ ρ ρ) := by
  intro s
  rw [Script.call]
  cases s.answers <;> exact List.prefix_append _ _

theorem calls_prefix_bind (p : Script κ ρ α) {f : α → Script κ ρ β} (hf : ∀ a, Grows (f a)) (s : Exchange κ ρ) :
    (p s).2.calls <+: ((p >>= f) s).2.calls := by
  cases hp : p s with
  | mk result s' =>
    cases result with
    | ok a =>
      rw [bind_of_ok hp]
      exact hf a s'
    | error e => rw [bind_of_error hp]

theorem Grows.bind {f : α → Script κ ρ β} (hp : Grows p) (hf : ∀ a, Grows (f a)) :
    Grows (p >>= f) :=
  fun s => (hp s).trans (calls_prefix_bind p hf s)

theorem Grows.sequence {isLast : α → Bool} {ps : List (Script κ ρ α)} (hps : ∀ p ∈ ps, Grows p) (last : α) :
    Grows (Script.sequence isLast ps last) := by
  induction ps generalizing last with
  | nil => exact .pure last
  | cons p ps ih =>
    refine (hps p List.mem_cons_self).bind fun r => ?_
    split_ifs
    · exact .pure r
    · exact ih (fun q hq => hps q (List.mem_cons_of_mem p hq)) r

theorem Grows.loop {isLast : α → Bool} {body : Script κ ρ α} (hbody : Grows body) (rounds : Nat) :
    Grows (Script.loop isLast body rounds) := by
  induction rounds with
  | zero => exact .halt _
  | succ rounds ih =>
    refine hbody.bind fun r => ?_
    split_ifs
    · exact .pure r
    · exact ih

end Script

end Tbox.Lib
