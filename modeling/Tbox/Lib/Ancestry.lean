import Mathlib.Tactic

/-!
# Ancestry

A forest given by the parent of each node. `Below parent top x`: climbing from `x` comes through `top`. The subtrees
of siblings share nothing, and where a parent is ranked above its child a subtree is listed by descending from its
top.
-/

namespace Tbox.Lib

open Relation (ReflTransGen)

variable {α : Type*} {parent : α → Option α} {a b p x y : α}

/-- `x` is `top` or one of its descendants. -/
def Below (parent : α → Option α) (top x : α) : Prop :=
  ReflTransGen (fun y z => parent y = some z) x top

namespace Below

theorem refl (x : α) : Below parent x x := ReflTransGen.refl

theorem trans (hx : Below parent a x) (ha : Below parent b a) : Below parent b x := ReflTransGen.trans hx ha

theorem of_parent (h : parent x = some p) : Below parent p x := ReflTransGen.single h

theorem of_child (hx : Below parent a x) (ha : parent a = some p) : Below parent p x := hx.trans (of_parent ha)

theorem eq_or_child (h : Below parent p x) : x = p ∨ ∃ c, parent c = some p ∧ Below parent c x := by
  induction h with
  | refl => exact .inl rfl
  | @tail c p hx hc _ => exact .inr ⟨c, hc, hx⟩

theorem parent_of_ne (h : Below parent a x) (hne : x ≠ a) (hp : parent x = some p) : Below parent a p := by
  cases ReflTransGen.cases_head h with
  | inl heq => exact absurd heq hne
  | inr hstep =>
    obtain ⟨q, hq, hrest⟩ := hstep
    obtain rfl : q = p := Option.some.inj (hq.symm.trans hp)
    exact hrest

theorem total (ha : Below parent a x) (hb : Below parent b x) : Below parent b a ∨ Below parent a b := by
  refine ReflTransGen.total_of_right_unique ?_ ha hb
  intro y z z' hz hz'
  exact Option.some.inj (hz.symm.trans hz')

section Ranked

variable {rank : α → ℕ} (hrank : ∀ c p, parent c = some p → rank c < rank p)

include hrank

theorem rank_le (h : Below parent a x) : rank x ≤ rank a := by
  induction h with
  | refl => exact le_rfl
  | tail _ hc ih => exact ih.trans (hrank _ _ hc).le

theorem not_parent (h : parent a = some p) : ¬Below parent a p := by
  intro hp
  have hle := hp.rank_le hrank
  have hlt := hrank a p h
  omega

theorem eq_of_siblings (ha : parent a = some p) (hb : parent b = some p) (hxa : Below parent a x)
    (hxb : Below parent b x) : a = b := by
  by_contra hne
  rcases hxa.total hxb with h | h
  · exact not_parent hrank hb (h.parent_of_ne hne ha)
  · exact not_parent hrank ha (h.parent_of_ne (Ne.symm hne) hb)

theorem eq_of_sibling (ha : parent a = some p) (hb : parent b = some p) (h : Below parent a b) : a = b :=
  eq_of_siblings hrank ha hb h (refl b)

end Ranked

end Below

/-- The nodes of a subtree, down to the given depth. -/
def subtree (children : α → List α) : ℕ → α → List α
  | 0, _ => []
  | depth + 1, x => x :: (children x).flatMap (subtree children depth)

theorem mem_subtree_iff {children : α → List α} {rank : α → ℕ} (hchildren : ∀ p c, c ∈ children p ↔ parent c = some p)
    (hrank : ∀ c p, parent c = some p → rank c < rank p) {depth : ℕ} (hdepth : rank a < depth) :
    x ∈ subtree children depth a ↔ Below parent a x := by
  induction depth generalizing a with
  | zero => exact absurd hdepth (Nat.not_lt_zero _)
  | succ depth ih =>
    have hchild : ∀ c, parent c = some a → rank c < depth := by
      intro c hc
      have hlt := hrank c a hc
      omega
    rw [subtree, List.mem_cons, List.mem_flatMap]
    constructor
    · rintro (rfl | ⟨c, hc, hx⟩)
      · exact Below.refl x
      · have hparent := (hchildren a c).mp hc
        exact ((ih (hchild c hparent)).mp hx).of_child hparent
    · intro h
      rcases h.eq_or_child with rfl | ⟨c, hc, hx⟩
      · exact .inl rfl
      · exact .inr ⟨c, (hchildren a c).mpr hc, (ih (hchild c hc)).mpr hx⟩

end Tbox.Lib
