import Tbox.Base.Cabinet
import Tbox.Lib.ListFacts

/-!
# What the cabinet maintains

The free list is an acyclic chain through the cells that are free, and `count_` counts the others. `view` is what the
cabinet is for, a partial function from tokens to pointers, and each operation is one update of it.
-/

open List Option

namespace Tbox.Cabinet

open Function (update_self update_of_ne update_eq_self)

variable {α : Type}

/-- Following `next_free` from a position visits exactly the listed cells, all of them free. -/
inductive FreeChain (cells : List (Cell α)) : Pos → List Pos → Prop where
  | nil : FreeChain cells sizeMax []
  | cons {pos next : Pos} {rest : List Pos} (hpos : pos ≠ sizeMax)
      (hcell : cells[pos]? = some ⟨0, .nextFree next⟩) (hrest : FreeChain cells next rest) :
      FreeChain cells pos (pos :: rest)

namespace FreeChain

variable {cells : List (Cell α)} {start pos : Pos} {chain : List Pos}

theorem exists_cell (h : FreeChain cells start chain) (hmem : pos ∈ chain) :
    ∃ next, cells[pos]? = some ⟨0, .nextFree next⟩ := by
  induction h with
  | nil => simp at hmem
  | cons _ hcell _ ih =>
    rcases mem_cons.mp hmem with rfl | hrest
    · exact ⟨_, hcell⟩
    · exact ih hrest

theorem of_getElem?_eq (h : FreeChain cells start chain) {cells' : List (Cell α)}
    (heq : ∀ pos ∈ chain, cells'[pos]? = cells[pos]?) : FreeChain cells' start chain := by
  induction h with
  | nil => exact .nil
  | @cons pos next rest hpos hcell _ ih =>
    refine .cons hpos ?_ (ih fun q hq => heq q (mem_cons_of_mem _ hq))
    rw [heq pos mem_cons_self, hcell]

theorem set (h : FreeChain cells start chain) (hmem : pos ∉ chain) (cell : Cell α) :
    FreeChain (cells.set pos cell) start chain :=
  h.of_getElem?_eq fun _ hq => getElem?_set_ne (ne_of_mem_of_not_mem hq hmem).symm

end FreeChain

namespace Raw

structure WellFormed (c : Raw α) : Prop where
  chain : ∃ ps, FreeChain c.cells c.firstFree ps ∧ ps.Nodup
  occupied : ∀ cell ∈ c.cells, cell.id ≠ 0 → ∃ obj, cell.slot = .objPtr obj
  counted : c.count = c.cells.countP fun cell => cell.id ≠ 0

theorem wellFormed_empty : WellFormed ({} : Raw α) := ⟨⟨[], .nil, nodup_nil⟩, by simp, by simp⟩

section AllocPos

variable {c : Raw α}

/-- `allocPos` yields a free cell that is no longer on the free list, and touches no other cell. -/
structure AllocPosSpec (c c' : Raw α) (pos : Pos) : Prop where
  lastId : c'.lastId = c.lastId
  count : c'.count = c.count
  chain : ∃ ps, FreeChain c'.cells c'.firstFree ps ∧ ps.Nodup ∧ pos ∉ ps
  free : ∃ cell, c'.cells[pos]? = some cell ∧ cell.id = 0
  frame : ∀ q, q ≠ pos → c'.cells[q]? = c.cells[q]?
  unused : ∀ cell, c.cells[pos]? = some cell → cell.id = 0
  counted : (c'.cells.countP fun cell => cell.id ≠ 0) = c.cells.countP fun cell => cell.id ≠ 0
  occupied : ∀ cell ∈ c'.cells, cell.id ≠ 0 → cell ∈ c.cells

/-- A place is taken from the free chain, or put behind the last cell. -/
theorem allocPos_spec (hc : c.WellFormed) : AllocPosSpec c c.allocPos.2 c.allocPos.1 := by
  obtain ⟨ps, hchain, hnodup⟩ := hc.chain
  unfold allocPos
  by_cases hfree : c.firstFree ≠ sizeMax
  · -- the head of the free list is reused
    rw [if_pos hfree]
    generalize hstart : c.firstFree = start at hchain hfree
    cases hchain with
    | nil => exact absurd rfl hfree
    | @cons _ next rest _ hcell hrest =>
      obtain ⟨hnotMem, hnodup'⟩ := nodup_cons.mp hnodup
      refine ⟨rfl, rfl, ⟨rest, ?_, hnodup', hnotMem⟩, ⟨_, hcell, rfl⟩, fun _ _ => rfl, ?_, rfl, fun _ hmem _ => hmem⟩
      · simpa [hcell, Slot.next] using hrest
      · intro cell heq
        rw [hcell] at heq
        exact some.inj heq ▸ rfl
  · -- a cell is appended
    rw [if_neg hfree]
    have hmem : ∀ pos ∈ ps, pos < c.cells.length := by
      intro pos hpos
      obtain ⟨next, hcell⟩ := hchain.exists_cell hpos
      exact (List.getElem?_eq_some_iff.mp hcell).1
    refine ⟨rfl, rfl, ⟨ps, ?_, hnodup, fun hpos => lt_irrefl _ (hmem _ hpos)⟩, ⟨{}, by simp, rfl⟩, ?_, ?_, ?_, ?_⟩
    · exact hchain.of_getElem?_eq fun pos hpos => getElem?_append_left (hmem pos hpos)
    · intro q hq
      have hne : q ≠ c.cells.length := hq
      rcases Nat.lt_or_ge q c.cells.length with hlt | hge
      · exact getElem?_append_left hlt
      have hgt : c.cells.length < q := Nat.lt_of_le_of_ne hge hne.symm
      rw [getElem?_eq_none hge, getElem?_eq_none]
      rw [length_append, length_singleton]
      exact hgt
    · intro cell hcell
      simp at hcell
    · simp [countP_append]
    intro cell hcell hid
    rcases mem_append.mp hcell with hold | hnew
    · exact hold
    · exact absurd (mem_singleton.mp hnew ▸ rfl) hid

end AllocPos

theorem allocId_fst_ne_zero (c : Raw α) : c.allocId.1 ≠ 0 := Nat.succ_ne_zero _

theorem wellFormed_allocId {c : Raw α} (hc : c.WellFormed) : c.allocId.2.WellFormed :=
  { hc with }

theorem wellFormed_alloc {c : Raw α} (hc : c.WellFormed) (obj : Option α) : (c.alloc obj).2.WellFormed := by
  have hspec := allocPos_spec (wellFormed_allocId hc)
  obtain ⟨ps, hchain, hnodup, hnotMem⟩ := hspec.chain
  obtain ⟨old, hold, hid⟩ := hspec.free
  refine ⟨⟨ps, hchain.set hnotMem _, hnodup⟩, ?_, ?_⟩
  · intro cell hcell hne
    rcases mem_or_eq_of_mem_set hcell with hmem | rfl
    · exact hc.occupied cell (hspec.occupied cell hmem hne) hne
    · exact ⟨obj, rfl⟩
  · have hcount := Lib.countP_set_add hold ⟨c.allocId.1, .objPtr obj⟩ fun cell => cell.id ≠ 0
    simp only [hid, ne_eq, not_true, decide_false, Bool.false_eq_true, if_false,
      allocId_fst_ne_zero, not_false_eq_true, decide_true, if_true] at hcount
    have hbase : c.allocId.2.allocPos.2.count = c.count := hspec.count
    have hcells := hspec.counted
    have hcounted := hc.counted
    simp only [alloc, hbase]
    simp only [ne_eq] at hcells hcounted hcount ⊢
    rw [hcounted]
    exact (hcount.trans (congrArg (· + 1) hcells)).symm

/-- What a token opens: `none` if it is not valid, else the pointer stored under it. -/
def view (c : Raw α) (token : Token) : Option (Option α) :=
  (c.cellOf token).map fun cell => cell.slot.obj

theorem at?_eq_join_view (c : Raw α) (token : Token) : c.at? token = (c.view token).join := by
  unfold at? view
  cases c.cellOf token <;> rfl

theorem cellOf_eq_some_iff {c : Raw α} {token : Token} {cell : Cell α} : c.cellOf token = some cell ↔
      token.id ≠ 0 ∧ c.cells[token.pos]? = some cell ∧ cell.id = token.id := by
  unfold cellOf Token.isNull
  by_cases hnull : token.id = 0
  · simp [hnull]
  cases hcell : c.cells[token.pos]? with
  | none => simp [hnull]
  | some old =>
    by_cases hid : old.id = token.id
    · simp only [hnull, beq_iff_eq, if_false, hid, if_true, some.injEq, ne_eq, not_false_eq_true, true_and]
      exact ⟨fun h => ⟨h, h ▸ hid⟩, fun h => h.1⟩
    simp only [hnull, beq_iff_eq, if_false, hid, reduceCtorEq, ne_eq, not_false_eq_true,
      some.injEq, true_and, false_iff, not_and]
    rintro rfl
    exact hid

theorem cellOf_congr {c c' : Raw α} {token : Token}
    (heq : c'.cells[token.pos]? = c.cells[token.pos]?) : c'.cellOf token = c.cellOf token := by
  unfold cellOf
  rw [heq]

theorem cellOf_eq_none_of_id_eq_zero {c : Raw α} {token : Token}
    (hfree : ∀ cell, c.cells[token.pos]? = some cell → cell.id = 0) : c.cellOf token = none := by
  cases hcell : c.cellOf token with
  | none => rfl
  | some cell =>
    obtain ⟨hnull, hget, hid⟩ := cellOf_eq_some_iff.mp hcell
    exact absurd (hid ▸ hfree cell hget) hnull

theorem cellOf_set {c : Raw α} {pos : Pos} (hpos : pos < c.cells.length) (cell : Cell α) (token : Token) :
    cellOf { c with cells := c.cells.set pos cell } token
      = if token.pos = pos then
          (if token.id ≠ 0 ∧ cell.id = token.id then some cell else none)
        else c.cellOf token := by
  by_cases htoken : token.pos = pos
  · subst htoken
    rw [if_pos rfl]
    ext old
    rw [cellOf_eq_some_iff]
    simp only [getElem?_set_self hpos, some.injEq]
    split
    · rename_i hvalid
      constructor
      · rintro ⟨-, rfl, -⟩
        rfl
      · rintro ⟨rfl⟩
        exact ⟨hvalid.1, rfl, hvalid.2⟩
    · rename_i hinvalid
      simp only [reduceCtorEq, iff_false]
      rintro ⟨hnull, rfl, hid⟩
      exact hinvalid ⟨hnull, hid⟩
  · rw [if_neg htoken]
    exact cellOf_congr (getElem?_set_ne (Ne.symm htoken))

theorem view_alloc {c : Raw α} (hc : c.WellFormed) (obj : Option α) :
    (c.alloc obj).2.view = Function.update c.view (c.alloc obj).1 (some obj) := by
  have hspec := allocPos_spec (wellFormed_allocId hc)
  obtain ⟨old, hold, -⟩ := hspec.free
  have hlt := (List.getElem?_eq_some_iff.mp hold).1
  funext token
  have hset := cellOf_set hlt ⟨c.allocId.1, .objPtr obj⟩ token
  have hcell : (c.alloc obj).2.cellOf token = _ := hset
  unfold view
  rw [hcell]
  by_cases htoken : token = (c.alloc obj).1
  · have hpos : (c.alloc obj).1.pos = c.allocId.2.allocPos.1 := rfl
    have hid : (c.alloc obj).1.id ≠ 0 ∧ c.allocId.1 = (c.alloc obj).1.id := ⟨allocId_fst_ne_zero c, rfl⟩
    rw [htoken, update_self, if_pos hpos, if_pos hid]
    rfl
  · rw [update_of_ne htoken]
    by_cases hpos : token.pos = c.allocId.2.allocPos.1
    · -- the position was free, so no other token opens it before or after
      have hid : c.allocId.1 ≠ token.id := fun heq => htoken (by
        cases token
        exact congrArg₂ Token.mk heq.symm hpos)
      rw [if_pos hpos, if_neg (fun h => hid h.2)]
      have hunused : c.cellOf token = none :=
        cellOf_eq_none_of_id_eq_zero fun cell hget => hspec.unused cell (hpos ▸ hget)
      rw [hunused]
    · rw [if_neg hpos, cellOf_congr (hspec.frame token.pos hpos)]
      rfl

theorem view_alloc_fst {c : Raw α} (hc : c.WellFormed) (obj : Option α) : c.view (c.alloc obj).1 = none := by
  have hspec := allocPos_spec (wellFormed_allocId hc)
  unfold view
  rw [cellOf_eq_none_of_id_eq_zero hspec.unused]
  rfl

theorem notMem_chain_of_cellOf {c : Raw α} {token : Token} {cell : Cell α} {start : Pos}
    {ps : List Pos} (hcell : c.cellOf token = some cell) (hchain : FreeChain c.cells start ps) : token.pos ∉ ps := by
  intro hmem
  obtain ⟨hnull, hget, hid⟩ := cellOf_eq_some_iff.mp hcell
  obtain ⟨next, hfree⟩ := hchain.exists_cell hmem
  rw [hget] at hfree
  cases hfree
  exact hnull hid.symm

theorem wellFormed_update {c : Raw α} (hc : c.WellFormed) (token : Token) (obj : Option α) :
    (c.update token obj).2.WellFormed := by
  unfold update
  cases hcell : c.cellOf token with
  | none => exact hc
  | some cell =>
    obtain ⟨-, hget, -⟩ := cellOf_eq_some_iff.mp hcell
    obtain ⟨ps, hchain, hnodup⟩ := hc.chain
    refine ⟨⟨ps, hchain.set (notMem_chain_of_cellOf hcell hchain) _, hnodup⟩, ?_, ?_⟩
    · intro other hother hne
      rcases mem_or_eq_of_mem_set hother with hmem | rfl
      · exact hc.occupied other hmem hne
      · exact ⟨obj, rfl⟩
    · have hcount := Lib.countP_set_add hget { cell with slot := .objPtr obj } fun cell => cell.id ≠ 0
      rw [hc.counted]
      exact (Nat.add_right_cancel hcount).symm

theorem countP_free {c : Raw α} (hc : c.WellFormed) {token : Token} {cell : Cell α}
    (hcell : c.cellOf token = some cell) (slot : Slot α) :
    ((c.cells.set token.pos ⟨0, slot⟩).countP fun cell => cell.id ≠ 0) + 1 = c.count := by
  obtain ⟨hnull, hget, hid⟩ := cellOf_eq_some_iff.mp hcell
  have hcount := Lib.countP_set_add hget ⟨0, slot⟩ fun cell => cell.id ≠ 0
  have hlive : cell.id ≠ 0 := hid ▸ hnull
  simp only [hlive, ne_eq, not_false_eq_true, decide_true, if_true, not_true, decide_false,
    Bool.false_eq_true, if_false, Nat.add_zero] at hcount
  rw [hc.counted]
  exact hcount

/-- A freed cell is put in front of the free chain, which had it not. -/
theorem wellFormed_free {c : Raw α} (hc : c.WellFormed) (token : Token) : (c.free token).2.WellFormed := by
  unfold free
  cases hcell : c.cellOf token with
  | none => exact hc
  | some cell =>
    obtain ⟨-, hget, -⟩ := cellOf_eq_some_iff.mp hcell
    have hlt := (List.getElem?_eq_some_iff.mp hget).1
    obtain ⟨ps, hchain, hnodup⟩ := hc.chain
    have hnotMem := notMem_chain_of_cellOf hcell hchain
    refine ⟨?_, ?_, ?_⟩
    · by_cases hlast : token.pos = sizeMax
      · exact ⟨[], hlast ▸ .nil, nodup_nil⟩
      · exact ⟨token.pos :: ps, .cons hlast (getElem?_set_self hlt) (hchain.set hnotMem _),
          nodup_cons.mpr ⟨hnotMem, hnodup⟩⟩
    · intro other hother hne
      rcases mem_or_eq_of_mem_set hother with hmem | rfl
      · exact hc.occupied other hmem hne
      · exact absurd rfl hne
    · have hcount := countP_free hc hcell (.nextFree c.firstFree)
      show c.count - 1 = _
      rw [← hcount]
      rfl

theorem view_set {c c' : Raw α} {token : Token} {old : Cell α} (hold : c.cellOf token = some old)
    (cell : Cell α) (hcells : c'.cells = c.cells.set token.pos cell) (hid : cell.id = token.id ∨ cell.id = 0) :
    c'.view = Function.update c.view token (if cell.id = token.id then some cell.slot.obj else none) := by
  obtain ⟨hnull, hget, hidOld⟩ := cellOf_eq_some_iff.mp hold
  have hlt := (List.getElem?_eq_some_iff.mp hget).1
  funext other
  have hset : c'.cellOf other = _ := (cellOf_congr (by rw [hcells])).trans (cellOf_set hlt cell other)
  unfold view
  rw [hset]
  by_cases hother : other = token
  · subst hother
    rw [update_self, if_pos rfl]
    by_cases hsame : cell.id = other.id
    · rw [if_pos ⟨hnull, hsame⟩, if_pos hsame]
      rfl
    · rw [if_neg (fun h => hsame h.2), if_neg hsame]
      rfl
  · rw [update_of_ne hother]
    by_cases hpos : other.pos = token.pos
    · have hne : other.id ≠ token.id := fun heq => hother (by
        cases other
        cases token
        exact congrArg₂ Token.mk heq hpos)
      have hbefore : c.cellOf other = none := by
        cases hcell : c.cellOf other with
        | none => rfl
        | some cell' =>
          obtain ⟨-, hget', hid'⟩ := cellOf_eq_some_iff.mp hcell
          rw [hpos, hget] at hget'
          exact absurd ((some.inj hget' ▸ hid').symm.trans hidOld) hne
      have hafter : ¬(other.id ≠ 0 ∧ cell.id = other.id) := by
        rintro ⟨hother0, heq⟩
        rcases hid with hid | hid
        · exact hne (heq.symm.trans hid)
        · exact hother0 (heq.symm.trans hid)
      rw [if_pos hpos, if_neg hafter, hbefore]
    · rw [if_neg hpos]

theorem view_update (c : Raw α) (token : Token) (obj : Option α) : (c.update token obj).2.view
      = if (c.view token).isSome then Function.update c.view token (some obj) else c.view := by
  unfold update
  cases hcell : c.cellOf token with
  | none => simp [view, hcell]
  | some cell =>
    have hid := (cellOf_eq_some_iff.mp hcell).2.2
    have hview : (c.view token).isSome := by simp [view, hcell]
    rw [if_pos hview]
    refine (view_set hcell { cell with slot := .objPtr obj } rfl (Or.inl hid)).trans ?_
    rw [if_pos hid]
    rfl

theorem update_fst (c : Raw α) (token : Token) (obj : Option α) : (c.update token obj).1 = (c.view token).isSome := by
  unfold update view
  cases c.cellOf token <;> rfl

theorem free_fst (c : Raw α) (token : Token) : (c.free token).1 = c.at? token := by
  unfold free at?
  cases c.cellOf token <;> rfl

theorem view_free (c : Raw α) (token : Token) : (c.free token).2.view = Function.update c.view token none := by
  unfold free
  cases hcell : c.cellOf token with
  | none =>
    have hview : c.view token = none := by simp [view, hcell]
    rw [← hview, update_eq_self]
  | some cell =>
    obtain ⟨hnull, -, -⟩ := cellOf_eq_some_iff.mp hcell
    refine (view_set hcell ⟨0, .nextFree c.firstFree⟩ rfl (Or.inr rfl)).trans ?_
    rw [if_neg hnull.symm]

theorem view_clear (c : Raw α) (token : Token) : c.clear.view token = none := by
  unfold view
  rw [cellOf_eq_none_of_id_eq_zero]
  · rfl
  · intro cell hget
    simp [clear] at hget

theorem size_alloc {c : Raw α} (hc : c.WellFormed) (obj : Option α) : (c.alloc obj).2.size = c.size + 1 :=
  congrArg (· + 1) (allocPos_spec (wellFormed_allocId hc)).count

theorem size_free {c : Raw α} (hc : c.WellFormed) {token : Token} (hvalid : c.view token ≠ none) :
    (c.free token).2.size + 1 = c.size := by
  unfold free
  cases hcell : c.cellOf token with
  | none => simp [view, hcell] at hvalid
  | some cell =>
    have hcount := countP_free hc hcell (.nextFree c.firstFree)
    show c.count - 1 + 1 = c.count
    omega

theorem mem_objects_iff {c : Raw α} {obj : Option α} : obj ∈ c.objects ↔ ∃ token, c.view token = some obj := by
  unfold objects view
  simp only [List.mem_map, mem_filter, decide_eq_true_eq, map_eq_some_iff]
  constructor
  · rintro ⟨cell, ⟨hmem, hid⟩, hobj⟩
    obtain ⟨pos, hget⟩ := mem_iff_getElem?.mp hmem
    exact ⟨⟨cell.id, pos⟩, cell, cellOf_eq_some_iff.mpr ⟨hid, hget, rfl⟩, hobj⟩
  · rintro ⟨token, cell, hcell, hobj⟩
    obtain ⟨hnull, hget, hid⟩ := cellOf_eq_some_iff.mp hcell
    exact ⟨cell, ⟨mem_of_getElem? hget, hid ▸ hnull⟩, hobj⟩

theorem nodup_objects {c : Raw α}
    (hinj : ∀ a b obj, c.view a = some obj → c.view b = some obj → a = b) : c.objects.Nodup := by
  refine pairwise_map.mpr (pairwise_filter.mpr (pairwise_iff_getElem.mpr ?_))
  intro i j hi hj hlt hidi hidj heq
  have hopens : ∀ pos (hpos : pos < c.cells.length), c.cells[pos].id ≠ 0 →
      c.view ⟨c.cells[pos].id, pos⟩ = some c.cells[pos].slot.obj := by
    intro pos hpos hid
    unfold view
    rw [cellOf_eq_some_iff.mpr ⟨hid, getElem?_eq_getElem hpos, rfl⟩]
    rfl
  have hsame := hinj _ _ _ (hopens i hi (by simpa using hidi)) (heq ▸ hopens j hj (by simpa using hidj))
  exact Nat.ne_of_lt hlt (congrArg Token.pos hsame)

theorem pos_lt_of_view {c : Raw α} {token : Token} {obj : Option α} (hview : c.view token = some obj) :
    token.pos < c.cells.length := by
  obtain ⟨cell, hcell, -⟩ := map_eq_some_iff.mp hview
  exact (List.getElem?_eq_some_iff.mp (cellOf_eq_some_iff.mp hcell).2.1).1

theorem eq_of_pos_eq {c : Raw α} {a b : Token} {obj obj' : Option α} (ha : c.view a = some obj)
    (hb : c.view b = some obj') (hpos : a.pos = b.pos) : a = b := by
  obtain ⟨cell, hcell, -⟩ := map_eq_some_iff.mp ha
  obtain ⟨cell', hcell', -⟩ := map_eq_some_iff.mp hb
  obtain ⟨-, hget, hid⟩ := cellOf_eq_some_iff.mp hcell
  obtain ⟨-, hget', hid'⟩ := cellOf_eq_some_iff.mp hcell'
  rw [hpos] at hget
  cases hget.symm.trans hget'
  cases a
  cases b
  exact congrArg₂ Token.mk (hid.symm.trans hid') hpos

theorem size_eq_zero {c : Raw α} (hc : c.WellFormed) (hnone : ∀ token, c.view token = none) : c.size = 0 := by
  show c.count = 0
  rw [hc.counted, countP_eq_zero]
  intro cell hmem
  obtain ⟨pos, hget⟩ := mem_iff_getElem?.mp hmem
  by_contra hid
  have hview := hnone ⟨cell.id, pos⟩
  unfold view at hview
  rw [cellOf_eq_some_iff.mpr ⟨by simpa using hid, hget, rfl⟩] at hview
  cases hview

theorem foreach_positions {σ : Type} (rawOf : σ → Raw α) (func : Option α → σ → σ) (P : Pos → σ → Prop)
    (hvalid : ∀ k u token obj, P k u → token.pos = k → (rawOf u).view token = some obj → P (k + 1) (func obj u))
    (hnone : ∀ k u, P k u → (∀ token, token.pos = k → (rawOf u).view token = none) → P (k + 1) u)
    {s : σ} (hs : P 0 s) : P (rawOf s).cells.length (foreach (fun u => (rawOf u).cells) func s) := by
  unfold foreach
  generalize (rawOf s).cells.length = n
  induction n with
  | zero => exact hs
  | succ k ih =>
    rw [range_succ, foldl_append, foldl_cons, foldl_nil]
    generalize (List.range k).foldl (visit (fun u => (rawOf u).cells) func) s = u at ih ⊢
    unfold visit
    cases hcell : (rawOf u).cells[k]? with
    | none =>
      apply hnone k u ih
      rintro token rfl
      by_contra hview
      obtain ⟨obj, hobj⟩ := ne_none_iff_exists'.mp hview
      exact absurd (pos_lt_of_view hobj) (Nat.not_lt.mpr (List.getElem?_eq_none_iff.mp hcell))
    | some cell =>
      dsimp only
      split_ifs with hid
      · apply hvalid k u ⟨cell.id, k⟩ _ ih rfl
        unfold view
        rw [cellOf_eq_some_iff.mpr ⟨hid, hcell, rfl⟩]
        rfl
      · apply hnone k u ih
        rintro token rfl
        unfold view
        rw [cellOf_eq_none_of_id_eq_zero]
        · rfl
        · intro cell' hcell'
          rw [← some.inj (hcell.symm.trans hcell')]
          exact not_not.mp hid

theorem lastId_alloc {c : Raw α} (hc : c.WellFormed) (obj : Option α) : (c.alloc obj).2.lastId = (c.alloc obj).1.id :=
  (allocPos_spec (wellFormed_allocId hc)).lastId

theorem id_alloc {c : Raw α} (obj : Option α) (hwrap : c.lastId ≠ sizeMax) : (c.alloc obj).1.id = c.lastId + 1 := by
  show (if c.lastId = sizeMax then 0 else c.lastId) + 1 = _
  rw [if_neg hwrap]

theorem lastId_update (c : Raw α) (token : Token) (obj : Option α) : (c.update token obj).2.lastId = c.lastId := by
  unfold update
  cases c.cellOf token <;> rfl

theorem lastId_free (c : Raw α) (token : Token) : (c.free token).2.lastId = c.lastId := by
  unfold free
  cases c.cellOf token <;> rfl

end Raw

end Tbox.Cabinet

namespace Tbox

open Cabinet in
/-- A cabinet that can be reached by its operations. -/
structure Cabinet (α : Type) where
  raw : Raw α
  wf : raw.WellFormed

namespace Cabinet

variable {α : Type}

def empty : Cabinet α := ⟨{}, Raw.wellFormed_empty⟩

def alloc (c : Cabinet α) (obj : Option α) : Token × Cabinet α :=
  ((c.raw.alloc obj).1, ⟨(c.raw.alloc obj).2, Raw.wellFormed_alloc c.wf obj⟩)

def update (c : Cabinet α) (token : Token) (obj : Option α) : Bool × Cabinet α :=
  ((c.raw.update token obj).1, ⟨(c.raw.update token obj).2, Raw.wellFormed_update c.wf token obj⟩)

def free (c : Cabinet α) (token : Token) : Option α × Cabinet α :=
  ((c.raw.free token).1, ⟨(c.raw.free token).2, Raw.wellFormed_free c.wf token⟩)

def clear (_ : Cabinet α) : Cabinet α := empty

def at? (c : Cabinet α) (token : Token) : Option α := c.raw.at? token

def size (c : Cabinet α) : Nat := c.raw.size

def objects (c : Cabinet α) : List (Option α) := c.raw.objects

def lastId (c : Cabinet α) : Id := c.raw.lastId

def view (c : Cabinet α) (token : Token) : Option (Option α) := c.raw.view token

variable (c : Cabinet α) (token : Token) (obj : Option α)

theorem at?_eq_join_view : c.at? token = (c.view token).join := Raw.at?_eq_join_view _ _

@[simp]
theorem view_empty : (empty : Cabinet α).view token = none := Raw.view_clear {} token

theorem view_alloc : (c.alloc obj).2.view = Function.update c.view (c.alloc obj).1 (some obj) :=
  Raw.view_alloc c.wf obj

theorem view_alloc_fst : c.view (c.alloc obj).1 = none := Raw.view_alloc_fst c.wf obj

theorem view_update : (c.update token obj).2.view
      = if (c.view token).isSome then Function.update c.view token (some obj) else c.view :=
  Raw.view_update _ _ _

theorem update_fst : (c.update token obj).1 = (c.view token).isSome := Raw.update_fst _ _ _

theorem free_fst : (c.free token).1 = c.at? token := Raw.free_fst _ _

theorem view_free : (c.free token).2.view = Function.update c.view token none := Raw.view_free _ _

variable {c token obj} in
theorem view_of_view_free {other : Token} (h : (c.free token).2.view other = some obj) : c.view other = some obj := by
  rw [view_free] at h
  by_cases hother : other = token
  · rw [hother, Function.update_self] at h
    cases h
  · rwa [Function.update_of_ne hother] at h

theorem size_alloc : (c.alloc obj).2.size = c.size + 1 := Raw.size_alloc c.wf obj

variable {c token obj} in
theorem size_free (hvalid : c.view token ≠ none) : (c.free token).2.size + 1 = c.size := Raw.size_free c.wf hvalid

variable {c obj} in
theorem mem_objects_iff : obj ∈ c.objects ↔ ∃ token, c.view token = some obj := Raw.mem_objects_iff

variable {c} in
theorem nodup_objects (hinj : ∀ a b obj, c.view a = some obj → c.view b = some obj → a = b) :
    c.objects.Nodup := Raw.nodup_objects hinj

variable {c token obj} in
theorem pos_lt_of_view (hview : c.view token = some obj) : token.pos < c.raw.cells.length := Raw.pos_lt_of_view hview

variable {c obj} in
theorem eq_of_pos_eq {a b : Token} {obj' : Option α} (ha : c.view a = some obj) (hb : c.view b = some obj')
    (hpos : a.pos = b.pos) : a = b :=
  Raw.eq_of_pos_eq ha hb hpos

variable {c} in
theorem size_eq_zero (hnone : ∀ token, c.view token = none) : c.size = 0 := Raw.size_eq_zero c.wf hnone

theorem lastId_alloc : (c.alloc obj).2.lastId = (c.alloc obj).1.id := Raw.lastId_alloc c.wf obj

variable {c} in
theorem id_alloc (hwrap : c.lastId ≠ sizeMax) : (c.alloc obj).1.id = c.lastId + 1 := Raw.id_alloc obj hwrap

theorem lastId_update : (c.update token obj).2.lastId = c.lastId := Raw.lastId_update _ _ _

theorem lastId_free : (c.free token).2.lastId = c.lastId := Raw.lastId_free _ _

end Cabinet

end Tbox
