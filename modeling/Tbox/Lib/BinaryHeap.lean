import Mathlib.Tactic

/-!
# Binary heaps

The heap functions of a standard library, on a list that is read level by level. The key is any linear order, the
least one comes first, and a place beyond the end has the key `⊤`.
-/

namespace Tbox.Lib.BinaryHeap

variable {α κ : Type*} [LinearOrder κ] (key : α → κ) {l l' : List α} {i j m b fuel : Nat} {x : α}

def keyAt (l : List α) (i : Nat) : WithTop κ :=
  match l[i]? with
  | some x => key x
  | none => ⊤

def parent (i : Nat) : Nat := (i - 1) / 2

def swap (l : List α) (i j : Nat) : List α :=
  match l[i]?, l[j]? with
  | some x, some y => (l.set i y).set j x
  | _, _ => l

def lesserChild (l : List α) (i : Nat) : Nat :=
  if keyAt key l (2 * i + 2) < keyAt key l (2 * i + 1) then 2 * i + 2 else 2 * i + 1

def siftUp : Nat → List α → Nat → List α
  | 0, l, _ => l
  | fuel + 1, l, i =>
    if keyAt key l i < keyAt key l (parent i) then siftUp fuel (swap l i (parent i)) (parent i)
    else l

def siftDown : Nat → List α → Nat → List α
  | 0, l, _ => l
  | fuel + 1, l, i =>
    if keyAt key l (lesserChild key l i) < keyAt key l i then
      siftDown fuel (swap l i (lesserChild key l i)) (lesserChild key l i)
    else l

/-- The last one is put where it belongs among the others, which are a heap. -/
def pushHeap (l : List α) : List α := siftUp key l.length l (l.length - 1)

/-- The first one is put last, and the others are a heap again. -/
def popHeap (l : List α) : List α :=
  match l with
  | [] => []
  | top :: rest =>
    match rest.getLast? with
    | none => [top]
    | some last => siftDown key rest.length (last :: rest.dropLast) 0 ++ [top]

def heapifyFrom : Nat → List α → List α
  | 0, l => l
  | i + 1, l => heapifyFrom i (siftDown key l.length l i)

def makeHeap (l : List α) : List α := heapifyFrom key l.length l

/-- No child has a lesser key than its parent. -/
def IsHeap (l : List α) : Prop := ∀ i, 0 < i → keyAt key l (parent i) ≤ keyAt key l i

theorem parent_lt (h : 0 < i) : parent i < i := by
  unfold parent
  omega

theorem parent_eq_iff (h : 0 < j) : parent j = i ↔ j = 2 * i + 1 ∨ j = 2 * i + 2 := by
  unfold parent
  omega

omit [LinearOrder κ] in
theorem keyAt_of_getElem? (h : l[i]? = some x) : keyAt key l i = key x := by
  rw [keyAt, h]

omit [LinearOrder κ] in
theorem keyAt_of_le (h : l.length ≤ i) : keyAt key l i = ⊤ := by
  rw [keyAt, List.getElem?_eq_none h]

theorem lt_length_of_lt (h : keyAt key l i < keyAt key l j) : i < l.length := by
  by_contra hle
  rw [keyAt_of_le key (Nat.le_of_not_lt hle)] at h
  exact not_top_lt h

theorem swap_eq (hi : i < l.length) (hj : j < l.length) : swap l i j = (l.set i l[j]).set j l[i] := by
  rw [swap, List.getElem?_eq_getElem hi, List.getElem?_eq_getElem hj]

theorem swap_perm : (swap l i j).Perm l := by
  unfold swap
  split
  · next x y hx hy =>
      obtain ⟨hi, rfl⟩ := List.getElem?_eq_some_iff.mp hx
      obtain ⟨hj, rfl⟩ := List.getElem?_eq_some_iff.mp hy
      exact List.set_set_perm hi hj
  · exact .refl l

theorem length_swap : (swap l i j).length = l.length := swap_perm.length_eq

omit [LinearOrder κ] in
theorem keyAt_swap (hi : i < l.length) (hj : j < l.length) (m : Nat) :
    keyAt key (swap l i j) m = if m = i then keyAt key l j else if m = j then keyAt key l i else keyAt key l m := by
  rw [swap_eq hi hj]
  simp only [keyAt, List.getElem?_set, List.length_set]
  by_cases hmj : m = j
  · subst hmj
    by_cases hmi : m = i
    · simp [hmi, hi]
    · simp [hmi, hj, hi]
  · by_cases hmi : m = i
    · subst hmi
      simp [Ne.symm hmj, hi, hj]
    · simp [hmi, hmj, Ne.symm hmi, Ne.symm hmj]

omit [LinearOrder κ] in
theorem keyAt_swap_left (hi : i < l.length) (hj : j < l.length) : keyAt key (swap l i j) i = keyAt key l j := by
  rw [keyAt_swap key hi hj, if_pos rfl]

omit [LinearOrder κ] in
theorem keyAt_swap_right (hi : i < l.length) (hj : j < l.length) (hne : j ≠ i) :
    keyAt key (swap l i j) j = keyAt key l i := by
  rw [keyAt_swap key hi hj, if_neg hne, if_pos rfl]

omit [LinearOrder κ] in
theorem keyAt_swap_of_ne (hi : i < l.length) (hj : j < l.length) (hmi : m ≠ i) (hmj : m ≠ j) :
    keyAt key (swap l i j) m = keyAt key l m := by
  rw [keyAt_swap key hi hj, if_neg hmi, if_neg hmj]

variable {key}

theorem IsHeap.keyAt_zero_le (h : IsHeap key l) (i : Nat) : keyAt key l 0 ≤ keyAt key l i := by
  induction i using Nat.strong_induction_on with
  | _ i ih =>
    by_cases hi : i = 0
    · rw [hi]
    · have hpos := Nat.pos_of_ne_zero hi
      exact (ih (parent i) (parent_lt hpos)).trans (h i hpos)

theorem IsHeap.head_le {rest : List α} {top : α} (h : IsHeap key (top :: rest))
    (hx : x ∈ top :: rest) : key top ≤ key x := by
  obtain ⟨i, hi⟩ := List.mem_iff_getElem?.mp hx
  have hle := h.keyAt_zero_le i
  rw [keyAt_of_getElem? key hi] at hle
  exact WithTop.coe_le_coe.mp hle

theorem isHeap_nil : IsHeap key ([] : List α) := by
  intro i _
  exact le_top.trans_eq (keyAt_of_le key (Nat.zero_le i)).symm

/-- All is in order but that the one at `i` may be less than its parent. -/
structure RisesAt (key : α → κ) (l : List α) (i : Nat) : Prop where
  others : ∀ m, 0 < m → m ≠ i → keyAt key l (parent m) ≤ keyAt key l m
  children : 0 < i → ∀ m, 0 < m → parent m = i → keyAt key l (parent i) ≤ keyAt key l m

theorem RisesAt.swap (h : RisesAt key l i) (hi : 0 < i) (hlt : keyAt key l i < keyAt key l (parent i)) :
    RisesAt key (swap l i (parent i)) (parent i) := by
  have hlen : i < l.length := lt_length_of_lt key hlt
  have hpi := parent_lt hi
  have hplen := hpi.trans hlen
  have hup := keyAt_swap_left key hlen hplen
  have hdown := keyAt_swap_right key hlen hplen hpi.ne
  refine ⟨fun m hm hmp => ?_, fun hp m hm hmp => ?_⟩
  · by_cases hmi : m = i
    · rw [hmi, hup, hdown]
      exact hlt.le
    · rw [keyAt_swap_of_ne key hlen hplen hmi hmp]
      by_cases hpm : parent m = i
      · rw [hpm, hup]
        exact h.children hi m hm hpm
      · by_cases hpp : parent m = parent i
        · rw [hpp, hdown]
          exact hlt.le.trans (hpp ▸ h.others m hm hmi)
        · rw [keyAt_swap_of_ne key hlen hplen hpm hpp]
          exact h.others m hm hmi
  · have hpp := parent_lt hp
    have hgrand : keyAt key l (parent (parent i)) ≤ keyAt key l (parent i) := h.others (parent i) hp hpi.ne
    rw [keyAt_swap_of_ne key hlen hplen (hpp.trans hpi).ne hpp.ne]
    by_cases hmi : m = i
    · rw [hmi, hup]
      exact hgrand
    · have hmp' : m ≠ parent i := by
        rintro rfl
        exact (parent_lt hm).ne hmp
      rw [keyAt_swap_of_ne key hlen hplen hmi hmp']
      exact hgrand.trans (hmp ▸ h.others m hm hmi)

theorem isHeap_siftUp (h : RisesAt key l i) (hfuel : i < fuel) : IsHeap key (siftUp key fuel l i) := by
  induction fuel generalizing l i with
  | zero => exact absurd hfuel (Nat.not_lt_zero i)
  | succ fuel ih =>
    rw [siftUp]
    split
    · next hlt =>
        have hi : 0 < i := by
          by_contra hzero
          rw [Nat.eq_zero_of_not_pos hzero] at hlt
          exact lt_irrefl _ hlt
        refine ih (h.swap hi hlt) ?_
        have hpi := parent_lt hi
        omega
    · next hge =>
        intro m hm
        by_cases hmi : m = i
        · rw [hmi]
          exact le_of_not_gt hge
        · exact h.others m hm hmi

theorem siftUp_perm : (siftUp key fuel l i).Perm l := by
  induction fuel generalizing l i with
  | zero => exact .refl l
  | succ fuel ih =>
    rw [siftUp]
    split
    · exact ih.trans swap_perm
    · exact .refl l

/-- From `b` on all is in order but that the one at `i` may be greater than its children. -/
structure SinksAt (key : α → κ) (b : Nat) (l : List α) (i : Nat) : Prop where
  others : ∀ m, 0 < m → b ≤ parent m → parent m ≠ i → keyAt key l (parent m) ≤ keyAt key l m
  children : 0 < i → b ≤ parent i → ∀ m, 0 < m → parent m = i →
    keyAt key l (parent i) ≤ keyAt key l m

variable (key l i)

theorem lesserChild_cases : lesserChild key l i = 2 * i + 1 ∨ lesserChild key l i = 2 * i + 2 := by
  unfold lesserChild
  split
  · exact .inr rfl
  · exact .inl rfl

theorem parent_lesserChild : parent (lesserChild key l i) = i := by
  rcases lesserChild_cases key l i with h | h <;> rw [h, parent] <;> omega

theorem lt_lesserChild : i < lesserChild key l i := by
  rcases lesserChild_cases key l i with h | h <;> rw [h] <;> omega

variable {i}

theorem keyAt_lesserChild_le (hm : 0 < m) (hpm : parent m = i) :
    keyAt key l (lesserChild key l i) ≤ keyAt key l m := by
  unfold lesserChild
  rcases (parent_eq_iff hm).mp hpm with rfl | rfl
  · split
    · next hlt => exact hlt.le
    · exact le_rfl
  · split
    · exact le_rfl
    · next hge => exact le_of_not_gt hge

variable {key l}

theorem SinksAt.swap (h : SinksAt key b l i) (hi : i < l.length) (hb : b ≤ i)
    (hlt : keyAt key l (lesserChild key l i) < keyAt key l i) :
    SinksAt key b (swap l i (lesserChild key l i)) (lesserChild key l i) := by
  have hic := lt_lesserChild key l i
  have hpc := parent_lesserChild key l i
  have hleast := fun m hm hpm => keyAt_lesserChild_le key l (i := i) (m := m) hm hpm
  have hc : lesserChild key l i < l.length := lt_length_of_lt key hlt
  generalize lesserChild key l i = c at *
  have hup := keyAt_swap_left key hi hc
  have hdown := keyAt_swap_right key hi hc hic.ne'
  refine ⟨fun m hm hbm hpm => ?_, fun hcpos hbc m hm hpm => ?_⟩
  · by_cases hmc : m = c
    · rw [hmc, hpc, hup, hdown]
      exact hlt.le
    · by_cases hpi : parent m = i
      · have hmi : m ≠ i := by
          rintro rfl
          exact (parent_lt hm).ne hpi
        rw [hpi, hup, keyAt_swap_of_ne key hi hc hmi hmc]
        exact hleast m hm hpi
      · rw [keyAt_swap_of_ne key hi hc hpi hpm]
        by_cases hmi : m = i
        · rw [hmi, hup]
          exact h.children (hmi ▸ hm) (hmi ▸ hbm) c (hic.trans_le' (Nat.zero_le i)) hpc
        · rw [keyAt_swap_of_ne key hi hc hmi hmc]
          exact h.others m hm hbm hpi
  · have hcm : c < m := hpm ▸ parent_lt hm
    rw [hpc, hup, keyAt_swap_of_ne key hi hc (hic.trans hcm).ne' hcm.ne']
    have hedge := h.others m hm (hpm ▸ hb.trans hic.le) (by rw [hpm]; exact hic.ne')
    rwa [hpm] at hedge

theorem siftDown_perm : (siftDown key fuel l i).Perm l := by
  induction fuel generalizing l i with
  | zero => exact .refl l
  | succ fuel ih =>
    rw [siftDown]
    split
    · exact ih.trans swap_perm
    · exact .refl l

/-- Sifted down from `i`, all is in order from `b` on. -/
theorem siftDown_spec (h : SinksAt key b l i) (hb : b ≤ i) (hfuel : l.length < fuel + i + 1) :
    ∀ m, 0 < m → b ≤ parent m →
      keyAt key (siftDown key fuel l i) (parent m) ≤ keyAt key (siftDown key fuel l i) m := by
  induction fuel generalizing l i with
  | zero =>
    intro m hm hbm
    by_cases hpm : parent m = i
    · have hmi : i < m := hpm ▸ parent_lt hm
      have hlen : l.length ≤ m := by omega
      rw [siftDown, keyAt_of_le key hlen]
      exact le_top
    · exact h.others m hm hbm hpm
  | succ fuel ih =>
    rw [siftDown]
    split
    · next hlt =>
        have hic := lt_lesserChild key l i
        have hc : lesserChild key l i < l.length := lt_length_of_lt key hlt
        refine ih (h.swap (hic.trans hc) hb hlt) (hb.trans hic.le) ?_
        rw [length_swap]
        omega
    · next hge =>
        intro m hm hbm
        by_cases hpm : parent m = i
        · rw [hpm]
          exact (le_of_not_gt hge).trans (keyAt_lesserChild_le key l hm hpm)
        · exact h.others m hm hbm hpm

omit [LinearOrder κ] in
theorem keyAt_congr {key' : α → κ} (h : ∀ x ∈ l, key x = key' x) (i : Nat) : keyAt key l i = keyAt key' l i := by
  unfold keyAt
  split
  · next x hx => rw [h x (List.mem_of_getElem? hx)]
  · rfl

theorem IsHeap.congr {key' : α → κ} (hl : IsHeap key l) (h : ∀ x ∈ l, key x = key' x) : IsHeap key' l := by
  intro i hi
  rw [← keyAt_congr h, ← keyAt_congr h]
  exact hl i hi

omit [LinearOrder κ] in
theorem keyAt_append_left (hi : i < l.length) : keyAt key (l ++ l') i = keyAt key l i := by
  rw [keyAt, keyAt, List.getElem?_append_left hi]

theorem isHeap_pushHeap (h : IsHeap key l) : IsHeap key (pushHeap key (l ++ [x])) := by
  have hlen : (l ++ [x]).length = l.length + 1 := List.length_append
  have hbeyond : ∀ m, l.length < m → keyAt key (l ++ [x]) m = ⊤ := by
    intro m hm
    apply keyAt_of_le
    omega
  rw [pushHeap, hlen, Nat.add_sub_cancel]
  apply isHeap_siftUp _ (Nat.lt_succ_self l.length)
  refine ⟨fun m hm hne => ?_, fun _ m hm hpm => ?_⟩
  · rcases Nat.lt_or_gt_of_ne hne with hlt | hgt
    · rw [keyAt_append_left hlt, keyAt_append_left ((parent_lt hm).trans hlt)]
      exact h m hm
    · rw [hbeyond m hgt]
      exact le_top
  · rw [hbeyond m (hpm ▸ parent_lt hm)]
    exact le_top

theorem pushHeap_perm : (pushHeap key l).Perm l := siftUp_perm

omit [LinearOrder κ] in
theorem keyAt_cons_dropLast (top : α) {last : α} {rest : List α} (hi : 0 < i) (hlt : i < rest.length) :
    keyAt key (last :: rest.dropLast) i = keyAt key (top :: rest) i := by
  obtain ⟨j, rfl⟩ := Nat.exists_eq_succ_of_ne_zero hi.ne'
  have hj : j < rest.length - 1 := by omega
  simp only [keyAt, List.getElem?_cons_succ, List.getElem?_dropLast, if_pos hj]

theorem popHeap_spec {top : α} {rest : List α} (h : IsHeap key (top :: rest)) :
    ∃ rest', popHeap key (top :: rest) = rest' ++ [top] ∧ IsHeap key rest' ∧ rest'.Perm rest := by
  rw [popHeap]
  rcases hlast : rest.getLast? with _ | last
  · rw [List.getLast?_eq_none_iff.mp hlast]
    exact ⟨[], rfl, isHeap_nil, .refl []⟩
  · have hrest : rest.dropLast ++ [last] = rest := List.dropLast_append_getLast? last hlast
    have hlen : (last :: rest.dropLast).length = rest.length := by
      rw [← congrArg List.length hrest, List.length_append]
      rfl
    have hsinks : SinksAt key 0 (last :: rest.dropLast) 0 := by
      refine ⟨fun m hm _ hpm => ?_, fun hzero => absurd hzero (Nat.lt_irrefl 0)⟩
      rcases Nat.lt_or_ge m rest.length with hlt | hge
      · rw [keyAt_cons_dropLast top hm hlt,
          keyAt_cons_dropLast top (Nat.pos_of_ne_zero hpm) ((parent_lt hm).trans hlt)]
        exact h m hm
      · rw [keyAt_of_le key (hlen.trans_le hge)]
        exact le_top
    refine ⟨_, rfl, fun m hm => ?_, ?_⟩
    · exact siftDown_spec hsinks le_rfl (by omega) m hm (Nat.zero_le _)
    · have hmoved : ([last] ++ rest.dropLast).Perm (rest.dropLast ++ [last]) :=
        List.perm_append_comm
      rw [hrest] at hmoved
      exact siftDown_perm.trans hmoved

theorem heapifyFrom_spec (h : ∀ m, 0 < m → i ≤ parent m → keyAt key l (parent m) ≤ keyAt key l m) :
    IsHeap key (heapifyFrom key i l) ∧ (heapifyFrom key i l).Perm l := by
  induction i generalizing l with
  | zero => exact ⟨fun m hm => h m hm (Nat.zero_le _), .refl l⟩
  | succ i ih =>
    have hsinks : SinksAt key i l i := by
      refine ⟨fun m hm hi hne => h m hm (by omega), fun hi hle => ?_⟩
      exact absurd (parent_lt hi) (Nat.not_lt.mpr hle)
    have hspec := siftDown_spec hsinks le_rfl (by omega : l.length < l.length + i + 1)
    obtain ⟨hheap, hperm⟩ := ih hspec
    exact ⟨hheap, hperm.trans siftDown_perm⟩

theorem isHeap_makeHeap : IsHeap key (makeHeap key l) := by
  apply (heapifyFrom_spec _).1
  intro m hm hle
  rw [keyAt_of_le key (hle.trans (parent_lt hm).le)]
  exact le_top

theorem makeHeap_perm : (makeHeap key l).Perm l := by
  apply (heapifyFrom_spec _).2
  intro m hm hle
  rw [keyAt_of_le key (hle.trans (parent_lt hm).le)]
  exact le_top

end Tbox.Lib.BinaryHeap
