import Mathlib.Algebra.BigOperators.Group.List.Basic
import Mathlib.Tactic

/-!
# Sums whose carry is added back

One's complement: numbers up to `m`, whose digits are all ones, are added, and the carry out of the top is added at
the bottom. Zero has two forms, `0` and `m`; the sum does not depend on the order.
-/

namespace Tbox.Lib

variable {m n a b q : Nat} {l l' : List Nat}

def endAround (m a b : Nat) : Nat := if a + b ≤ m then a + b else a + b - m

theorem endAround_le (ha : a ≤ m) (hb : b ≤ m) : endAround m a b ≤ m := by
  rw [endAround]
  split <;> omega

def endAroundSum (m : Nat) (l : List Nat) : Nat := l.foldl (endAround m) 0

/-- What is left of a number when all its carries have been added back. -/
def folded (m n : Nat) : Nat := if n = 0 then 0 else (n - 1) % m + 1

theorem folded_of_pos (hn : 0 < n) : folded m n = (n - 1) % m + 1 := if_neg (Nat.ne_of_gt hn)

theorem folded_of_le (h : n ≤ m) : folded m n = n := by
  by_cases hn : n = 0
  · rw [hn]
    rfl
  · rw [folded, if_neg hn, Nat.mod_eq_of_lt (by omega)]
    omega

theorem folded_le (hm : 0 < m) : folded m n ≤ m := by
  by_cases hn : n = 0
  · rw [hn]
    exact Nat.zero_le m
  · rw [folded, if_neg hn]
    exact Nat.mod_lt _ hm

/-- Of a number that is not zero `m` can be taken as often as one likes, as long as something is left. -/
theorem folded_add_mul (hn : 0 < n) : folded m (n + q * m) = folded m n := by
  have hpred : n + q * m - 1 = n - 1 + q * m := by omega
  rw [folded_of_pos (by omega), folded_of_pos hn, hpred, Nat.add_mul_mod_self_right]

theorem folded_add : folded m (folded m a + b) = folded m (a + b) := by
  by_cases ha : a = 0
  · rw [ha]
    rfl
  · have hsplit : a + b = (folded m a + b) + (a - 1) / m * m := by
      have hdiv := Nat.mod_add_div (a - 1) m
      rw [Nat.mul_comm] at hdiv
      rw [folded, if_neg ha]
      omega
    rw [hsplit, folded_add_mul (by rw [folded, if_neg ha]; omega)]

theorem endAround_eq (ha : a ≤ m) (hb : b ≤ m) : endAround m a b = folded m (a + b) := by
  by_cases hle : a + b ≤ m
  · rw [endAround, if_pos hle, folded_of_le hle]
  · have hsplit : a + b = (a + b - m) + 1 * m := by omega
    rw [endAround, if_neg hle, hsplit, folded_add_mul (by omega), folded_of_le (by omega)]
    omega

theorem foldl_endAround (ha : a ≤ m) (hm : 0 < m) (hl : ∀ x ∈ l, x ≤ m) :
    l.foldl (endAround m) a = folded m (a + l.sum) := by
  induction l generalizing a with
  | nil => exact (folded_of_le ha).symm
  | cons x l ih =>
    rw [List.foldl_cons, endAround_eq ha (hl x List.mem_cons_self),
      ih (folded_le hm) fun y hy => hl y (List.mem_cons_of_mem x hy), folded_add, List.sum_cons, Nat.add_assoc]

/-- **The sum is the true sum, folded.** -/
theorem endAroundSum_eq (hm : 0 < m) (hl : ∀ x ∈ l, x ≤ m) : endAroundSum m l = folded m l.sum := by
  rw [endAroundSum, foldl_endAround (Nat.zero_le m) hm hl, Nat.zero_add]

theorem endAroundSum_le (hm : 0 < m) (hl : ∀ x ∈ l, x ≤ m) : endAroundSum m l ≤ m := by
  rw [endAroundSum_eq hm hl]
  exact folded_le hm

theorem endAroundSum_concat : endAroundSum m (l ++ [a]) = endAround m (endAroundSum m l) a := by
  rw [endAroundSum, List.foldl_append]
  rfl

theorem endAroundSum_perm (hm : 0 < m) (hl : ∀ x ∈ l, x ≤ m) (hperm : l'.Perm l) :
    endAroundSum m l' = endAroundSum m l := by
  rw [endAroundSum_eq hm hl, endAroundSum_eq hm fun x hx => hl x (hperm.mem_iff.mp hx), hperm.sum_eq]

/-- **The law of verification**: with its complement the sum is all ones. -/
theorem endAroundSum_complement (hm : 0 < m) (hl : ∀ x ∈ l, x ≤ m) :
    endAroundSum m (l ++ [m - endAroundSum m l]) = m := by
  have hle := endAroundSum_le hm hl
  have hsum : endAroundSum m l + (m - endAroundSum m l) = m := by omega
  rw [endAroundSum_concat, endAround, hsum, if_pos (Nat.le_refl m)]

end Tbox.Lib
