import Tbox.Lib.ListFacts

/-!
# Objects that share what they point to

Variables of a class with one pointer, or null, as C++ copies, moves, swaps and destroys them. What the class does
when a variable comes to share a pointer, and when it lets go of it, is a pair of functions on the heap.
-/

open List Option

namespace Tbox.Lib

/-- A variable: destroyed, or with its pointer. -/
inductive Handle where
  | gone
  | holds (d : Option Nat)
  deriving DecidableEq, Repr

/-- What a class does to the heap with its pointer. -/
structure Counting (η : Type) where
  acquire : Option Nat → η → η
  release : Option Nat → η → η

structure Sharing (η : Type) where
  handles : List Handle := []
  heap : η

/-- What is done with variables that exist already, and the construction of new ones from nothing and from them. -/
inductive HandleOp where
  | construct
  | copy (j : Nat)
  | move (j : Nat)
  | copyAssign (i j : Nat)
  | moveAssign (i j : Nat)
  | swap (i j : Nat)
  | reset (i : Nat)
  | destroy (i : Nat)
  deriving DecidableEq, Repr

variable {η : Type}

namespace Sharing

/-- The pointer of a variable that has not been destroyed. -/
def pointer? (w : Sharing η) (i : Nat) : Option (Option Nat) :=
  match w.handles[i]? with
  | some (.holds d) => some d
  | _ => none

/-- How many variables share a pointer. -/
def sharers (w : Sharing η) (p : Nat) : Nat := w.handles.count (.holds (some p))

/-- A new variable with this pointer, where the heap is already what it has to be. -/
def push (w : Sharing η) (d : Option Nat) : Sharing η := { w with handles := w.handles ++ [.holds d] }

def put (w : Sharing η) (i : Nat) (x : Handle) : Sharing η := { w with handles := w.handles.set i x }

/-- An operation on variables that exist. `reset` swaps with a null variable that is then destroyed, and both
assignments begin with it, but for one to itself. -/
def step (c : Counting η) (w : Sharing η) : HandleOp → Option (Sharing η)
  | .construct => some (w.push none)
  | .copy j => do
      let d ← w.pointer? j
      return { w.push d with heap := c.acquire d w.heap }
  | .move j => do
      let d ← w.pointer? j
      return (w.put j (.holds none)).push d
  | .copyAssign i j => do
      let old ← w.pointer? i
      let d ← w.pointer? j
      if i = j then return w
      else return { w.put i (.holds d) with heap := c.acquire d (c.release old w.heap) }
  | .moveAssign i j => do
      let old ← w.pointer? i
      let d ← w.pointer? j
      if i = j then return w
      else return { (w.put i (.holds d)).put j (.holds none) with heap := c.release old w.heap }
  | .swap i j => do
      let old ← w.pointer? i
      let d ← w.pointer? j
      return (w.put i (.holds d)).put j (.holds old)
  | .reset i => do
      let old ← w.pointer? i
      return { w.put i (.holds none) with heap := c.release old w.heap }
  | .destroy i => do
      let old ← w.pointer? i
      return { w.put i .gone with heap := c.release old w.heap }

/-- The pointer that an operation makes one more variable share. -/
def acquired (w : Sharing η) : HandleOp → Option (Option Nat)
  | .copy j => w.pointer? j
  | .copyAssign i j => if i = j then none else w.pointer? j
  | _ => none

/-- How many variables share a pointer when the operation makes one more share it. -/
def sharersBefore (w : Sharing η) : HandleOp → Nat → Nat
  | .copyAssign i _ => (w.put i (.holds none)).sharers
  | _ => w.sharers

variable {c : Counting η} {w w' : Sharing η} {i j p q : Nat} {d old : Option Nat} {x : Handle}

theorem pointer?_eq_some : w.pointer? i = some d ↔ w.handles[i]? = some (.holds d) := by
  rw [pointer?]
  split
  · next heq => rw [heq, some_inj, some_inj, Handle.holds.injEq]
  · next hne => exact iff_of_false (by simp) (hne d)

/-- What a variable with this pointer counts for. -/
def ones (d : Option Nat) (q : Nat) : Nat := if d = some q then 1 else 0

@[simp]
theorem ones_none : ones none = 0 := rfl

theorem ones_self : ones (some p) p = 1 := if_pos rfl

theorem ones_of_ne (h : q ≠ p) : ones (some p) q = 0 := if_neg fun heq => h (some.inj heq).symm

variable {s : Nat → Nat}

theorem add_ones_self : (s + ones (some p)) p = s p + 1 := congrArg (s p + ·) ones_self

theorem add_ones_of_ne (h : q ≠ p) : (s + ones (some p)) q = s q := congrArg (s q + ·) (ones_of_ne h)

theorem sub_ones_self : (s - ones (some p)) p = s p - 1 := congrArg (s p - ·) ones_self

theorem sub_ones_of_ne (h : q ≠ p) : (s - ones (some p)) q = s q := congrArg (s q - ·) (ones_of_ne h)

theorem pos_of_ones_le (h : ones (some p) ≤ s) : 0 < s p := (ones_self (p := p) ▸ h p : 1 ≤ s p)

theorem sharers_push : (w.push d).sharers = w.sharers + ones d := by
  funext q
  rw [sharers, push, count_append, count_singleton, Pi.add_apply]
  congr 1
  cases d <;> simp [ones]

theorem count_put (hi : w.pointer? i = some old) (q : Nat) :
    (w.put i x).sharers q + ones old q = w.sharers q + if x = .holds (some q) then 1 else 0 := by
  have hcount := countP_set_add (pointer?_eq_some.mp hi) x (· == .holds (some q))
  rw [sharers, sharers, count_eq_countP, count_eq_countP]
  simpa [ones, put] using hcount

theorem sharers_put (hi : w.pointer? i = some old) : (w.put i (.holds d)).sharers + ones old = w.sharers + ones d := by
  funext q
  have hcount := count_put (x := .holds d) hi q
  simpa [ones] using hcount

theorem sharers_put_null (hi : w.pointer? i = some old) : (w.put i (.holds none)).sharers = w.sharers - ones old := by
  funext q
  have hcount := count_put (x := .holds none) hi q
  rw [if_neg (by simp)] at hcount
  rw [Pi.sub_apply]
  omega

theorem sharers_put_gone (hi : w.pointer? i = some old) : (w.put i .gone).sharers = w.sharers - ones old := by
  funext q
  have hcount := count_put (x := .gone) hi q
  rw [if_neg (by simp)] at hcount
  rw [Pi.sub_apply]
  omega

theorem ones_le (hi : w.pointer? i = some d) : ones d ≤ w.sharers := by
  intro q
  have hcount := count_put (x := .gone) hi q
  rw [if_neg (by simp)] at hcount
  show ones d q ≤ w.sharers q
  omega

theorem sharers_put_over (hi : w.pointer? i = some old) :
    (w.put i (.holds d)).sharers = (w.put i (.holds none)).sharers + ones d := by
  refine add_right_cancel (b := ones old) ?_
  rw [sharers_put hi, add_right_comm, sharers_put hi, ones_none, add_zero]

theorem pointer?_put_self (hi : w.pointer? i = some old) : (w.put i (.holds d)).pointer? i = some d := by
  obtain ⟨hlt, -⟩ := List.getElem?_eq_some_iff.mp (pointer?_eq_some.mp hi)
  rw [pointer?_eq_some, put, getElem?_set_self hlt]

theorem pointer?_put_of_ne (hne : i ≠ j) : (w.put i x).pointer? j = w.pointer? j := by
  rw [pointer?, pointer?, put, getElem?_set_ne hne]

/-- The heap is kept in order by what the class does with a pointer that is `Ok` to share with those who do. -/
structure Keeps (c : Counting η) (I : η → (Nat → Nat) → Prop) (Ok : Option Nat → (Nat → Nat) → Prop) : Prop where
  acquire : ∀ {h s d}, I h s → ones d ≤ s → Ok d s → I (c.acquire d h) (s + ones d)
  release : ∀ {h s d}, I h s → ones d ≤ s → I (c.release d h) (s - ones d)

variable {I : η → (Nat → Nat) → Prop} {Ok : Option Nat → (Nat → Nat) → Prop}

/-- **The rule of sharing**: what holds of the heap and of the sharers is kept where nothing is shared that must not be.
-/
theorem Keeps.step {op : HandleOp} (hkeeps : Keeps c I Ok) (h : I w.heap w.sharers)
    (hok : ∀ d, w.acquired op = some d → Ok d (w.sharersBefore op)) (hstep : w.step c op = some w') : I w'.heap w'.sharers := by
  cases op with
  | construct =>
    cases hstep
    rw [sharers_push, ones_none, add_zero]
    exact h
  | copy j =>
    obtain ⟨d, hd, hstep⟩ := bind_eq_some_iff.mp hstep
    cases hstep
    have hacquired := hkeeps.acquire h (ones_le hd) (hok d hd)
    rw [← sharers_push] at hacquired
    exact hacquired
  | move j =>
    obtain ⟨d, hd, hstep⟩ := bind_eq_some_iff.mp hstep
    cases hstep
    have hput := sharers_put (d := none) hd
    rw [ones_none, add_zero] at hput
    rw [sharers_push, hput]
    exact h
  | copyAssign i j =>
    obtain ⟨old, hold, hstep⟩ := bind_eq_some_iff.mp hstep
    obtain ⟨d, hd, hstep⟩ := bind_eq_some_iff.mp hstep
    rw [acquired] at hok
    split_ifs at hstep hok with hij
    · cases hstep
      exact h
    · cases hstep
      have hreleased := hkeeps.release h (ones_le hold)
      rw [← sharers_put_null hold] at hreleased
      have hacquired := hkeeps.acquire hreleased (ones_le ((pointer?_put_of_ne hij).trans hd)) (hok d hd)
      rw [← sharers_put_over hold] at hacquired
      exact hacquired
  | moveAssign i j =>
    obtain ⟨old, hold, hstep⟩ := bind_eq_some_iff.mp hstep
    obtain ⟨d, hd, hstep⟩ := bind_eq_some_iff.mp hstep
    split_ifs at hstep with hij
    · cases hstep
      exact h
    · cases hstep
      have hreleased := hkeeps.release h (ones_le hold)
      rw [← sharers_put_null hold] at hreleased
      have hsame : ((w.put i (.holds d)).put j (.holds none)).sharers = (w.put i (.holds none)).sharers := by
        rw [sharers_put_null ((pointer?_put_of_ne hij).trans hd), sharers_put_over hold]
        funext q
        exact Nat.add_sub_cancel _ _
      rw [← hsame] at hreleased
      exact hreleased
  | swap i j =>
    obtain ⟨old, hold, hstep⟩ := bind_eq_some_iff.mp hstep
    obtain ⟨d, hd, hstep⟩ := bind_eq_some_iff.mp hstep
    cases hstep
    have hsame : ((w.put i (.holds d)).put j (.holds old)).sharers = w.sharers := by
      have hj : (w.put i (.holds d)).pointer? j = some d := by
        by_cases hij : i = j
        · exact hij ▸ pointer?_put_self hold
        · exact (pointer?_put_of_ne hij).trans hd
      refine add_right_cancel (b := ones d) ?_
      rw [sharers_put hj, sharers_put hold]
    rw [hsame]
    exact h
  | reset i =>
    obtain ⟨old, hold, hstep⟩ := bind_eq_some_iff.mp hstep
    cases hstep
    have hreleased := hkeeps.release h (ones_le hold)
    rw [← sharers_put_null hold] at hreleased
    exact hreleased
  | destroy i =>
    obtain ⟨old, hold, hstep⟩ := bind_eq_some_iff.mp hstep
    cases hstep
    have hreleased := hkeeps.release h (ones_le hold)
    rw [← sharers_put_gone hold] at hreleased
    exact hreleased

end Sharing

end Tbox.Lib
