import Mathlib.Tactic

/-!
# Entries of a list

How counting and membership answer to `modify`, when the entry that is changed is known, and where an
entry of a list that has grown stands.
-/

namespace Tbox.Lib

variable {α : Type*} {l : List α} {i : Nat} {x : α}

theorem countP_modify_add (hx : l[i]? = some x) (f : α → α) (p : α → Bool) :
    (l.modify i f).countP p + (if p x then 1 else 0) = l.countP p + (if p (f x) then 1 else 0) := by
  induction l generalizing i with
  | nil => simp at hx
  | cons head rest ih =>
    cases i with
    | zero =>
      obtain rfl : head = x := by simpa using hx
      simp only [List.modify_zero_cons, List.countP_cons]
      omega
    | succ i =>
      have hrest := ih (i := i) (by simpa using hx)
      simp only [List.modify_succ_cons, List.countP_cons]
      omega

theorem countP_set_add (hx : l[i]? = some x) (y : α) (p : α → Bool) :
    (l.set i y).countP p + (if p x then 1 else 0) = l.countP p + (if p y then 1 else 0) := by
  rw [List.set_eq_modify]
  exact countP_modify_add hx (fun _ => y) p

theorem mem_modify_self (hx : l[i]? = some x) (f : α → α) : f x ∈ l.modify i f := by
  refine List.mem_of_getElem? (i := i) ?_
  rw [List.getElem?_modify_eq, hx]
  rfl

theorem mem_modify_of_mem {y : α} (hx : l[i]? = some x) (hy : y ∈ l) (hne : y ≠ x) (f : α → α) :
    y ∈ l.modify i f := by
  obtain ⟨j, hj⟩ := List.mem_iff_getElem?.mp hy
  refine List.mem_of_getElem? (i := j) ?_
  rw [List.getElem?_modify_ne, hj]
  rintro rfl
  exact hne (Option.some.inj (hj.symm.trans hx))

/-- An entry of a list that one more has been put to is that one, or was there before. -/
theorem append_singleton_eq_append_cons {pre post : List α} {y : α} : l ++ [x] = pre ++ y :: post ↔
      (∃ post', l = pre ++ y :: post' ∧ post = post' ++ [x]) ∨ l = pre ∧ x = y ∧ post = [] := by
  constructor
  · intro h
    rcases List.eq_nil_or_concat post with rfl | ⟨post', z, rfl⟩
    · obtain ⟨hl, hx⟩ := List.append_inj' h rfl
      exact .inr ⟨hl, List.singleton_inj.mp hx, rfl⟩
    · rw [List.concat_eq_append, ← List.cons_append, ← List.append_assoc] at h
      obtain ⟨hl, hx⟩ := List.append_inj' h rfl
      exact .inl ⟨post', hl, by rw [List.concat_eq_append, List.singleton_inj.mp hx]⟩
  · rintro (⟨post', rfl, rfl⟩ | ⟨rfl, rfl, rfl⟩)
    · rw [List.append_assoc, List.cons_append]
    · rfl

/-- A list in the order of a key is what is up to a value of it, and then what is above. -/
theorem filter_le_append_filter_lt {f : α → Nat}
    (hsorted : l.Pairwise fun first second => f first ≤ f second) (t : Nat) :
    l.filter (fun x => f x ≤ t) ++ l.filter (fun x => t < f x) = l := by
  induction l with
  | nil => rfl
  | cons x rest ih =>
    obtain ⟨hfirst, hrest⟩ := List.pairwise_cons.mp hsorted
    by_cases hle : f x ≤ t
    · have hnot : ¬t < f x := Nat.not_lt.mpr hle
      simp only [List.filter_cons, hle, hnot, decide_true, decide_false, if_true, Bool.false_eq_true, if_false,
        List.cons_append, ih hrest]
    · have hnone : rest.filter (fun y => f y ≤ t) = [] := by
        rw [List.filter_eq_nil_iff]
        intro y hy
        have := hfirst y hy
        rw [decide_eq_true_eq]
        omega
      have hall : rest.filter (fun y => t < f y) = rest := by
        rw [List.filter_eq_self]
        intro y hy
        have := hfirst y hy
        rw [decide_eq_true_eq]
        omega
      have hlt : t < f x := Nat.not_le.mp hle
      simp only [List.filter_cons, hle, hlt, decide_true, decide_false, if_true, Bool.false_eq_true, if_false,
        hnone, hall, List.nil_append]

end Tbox.Lib
