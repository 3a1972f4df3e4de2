import Mathlib.Tactic

/-!
# Where a partial function leads

Going from place to place either ends or comes to a place twice; with finitely many places it does one or the other.
-/

namespace Tbox.Lib

variable {α : Type*} {f : α → Option α} {x y : α} {m n : Nat}

/-- The place that so many steps lead to, if there are as many. -/
def walk (f : α → Option α) : Nat → α → Option α
  | 0, x => some x
  | n + 1, x => (f x).bind (walk f n)

/-- From there no more steps are to be made at some time. -/
def Ends (f : α → Option α) (x : α) : Prop := ∃ n, walk f n x = none

/-- Some place that it leads to leads back to itself. -/
def Circles (f : α → Option α) (x : α) : Prop := ∃ m n y, walk f m x = some y ∧ 0 < n ∧ walk f n y = some y

theorem walk_succ : walk f (n + 1) x = (f x).bind (walk f n) := rfl

theorem walk_add (m n : Nat) (x : α) : walk f (m + n) x = (walk f m x).bind (walk f n) := by
  induction m generalizing x with
  | zero => rw [Nat.zero_add]; rfl
  | succ m ih =>
    rw [Nat.add_right_comm, walk_succ, walk_succ, Option.bind_assoc]
    exact congrArg (f x).bind (funext ih)

theorem walk_mono (h : walk f m x = none) (hle : m ≤ n) : walk f n x = none := by
  obtain ⟨k, rfl⟩ := Nat.exists_eq_add_of_le hle
  rw [walk_add, h]
  rfl

theorem walk_mul (h : walk f n y = some y) (k : Nat) : walk f (k * n) y = some y := by
  induction k with
  | zero => rw [Nat.zero_mul]; rfl
  | succ k ih => rw [Nat.succ_mul, walk_add, ih, Option.bind_some, h]

theorem Circles.not_ends (h : Circles f x) : ¬Ends f x := by
  obtain ⟨m, n, y, hm, hpos, hn⟩ := h
  rintro ⟨k, hk⟩
  have hlater : walk f (m + k * n) x = some y := by
    rw [walk_add, hm, Option.bind_some, walk_mul hn]
  have hover : k ≤ m + k * n := le_add_left (Nat.le_mul_of_pos_right k hpos)
  exact nomatch (walk_mono hk hover).symm.trans hlater

/-- **Among so many places** it ends after as many steps, or there is a circle. -/
theorem walk_eq_none_of_not_circles {s : Finset α} (hs : ∀ n y, walk f n x = some y → y ∈ s) (h : ¬Circles f x) :
    walk f s.card x = none := by
  by_contra hsome
  have hall : ∀ n ∈ Finset.range (s.card + 1), ∃ y, walk f n x = some y := by
    intro n hn
    refine Option.ne_none_iff_exists'.mp fun hnone => hsome (walk_mono hnone ?_)
    exact Nat.le_of_lt_succ (Finset.mem_range.mp hn)
  have hplaces : Nonempty α := ⟨x⟩
  choose! place hplace using hall
  have hcard : s.card < (Finset.range (s.card + 1)).card := by
    rw [Finset.card_range]
    exact Nat.lt_succ_self _
  obtain ⟨i, hi, j, hj, hne, heq⟩ := Finset.exists_ne_map_eq_of_card_lt_of_maps_to hcard
    fun n hn => hs n (place n) (hplace n hn)
  -- the earlier of the two times leads to the place, and from there the rest leads back
  have hcircle : ∀ i j, walk f i x = some (place i) → walk f j x = some (place j) → place i = place j → i < j →
      Circles f x := by
    intro i j hi hj heq hlt
    refine ⟨i, j - i, place i, hi, Nat.sub_pos_of_lt hlt, ?_⟩
    have hrest := walk_add (f := f) i (j - i) x
    rw [Nat.add_sub_of_le hlt.le, hj, hi, Option.bind_some] at hrest
    rw [← hrest, heq]
  rcases Nat.lt_or_gt_of_ne hne with hlt | hlt
  · exact h (hcircle i j (hplace i hi) (hplace j hj) heq hlt)
  · exact h (hcircle j i (hplace j hj) (hplace i hi) heq.symm hlt)

theorem ends_iff_not_circles {s : Finset α} (hs : ∀ n y, walk f n x = some y → y ∈ s) : Ends f x ↔ ¬Circles f x :=
  ⟨fun hends hcircles => hcircles.not_ends hends, fun hnot => ⟨s.card, walk_eq_none_of_not_circles hs hnot⟩⟩

end Tbox.Lib
