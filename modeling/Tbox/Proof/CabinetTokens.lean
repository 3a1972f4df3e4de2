import Tbox.Proof.CabinetWellFormed

/-!
# Token validity

A token should open the object last stored under it until it is freed or cleared. The ledger records every issue of a
token by itself: `clear` sets `last_id_` back to `0`, so that equal tokens are issued again.
-/

open List Option

namespace Tbox.Cabinet

open scoped List

variable {α : Type}

structure Issue (α : Type) where
  token : Token
  stored : Option α
  valid : Bool := true
  deriving DecidableEq, Repr

/-- A cabinet and the history of the tokens it has issued. -/
structure Tracked (α : Type) where
  cabinet : Cabinet α := empty
  issues : List (Issue α) := []

/-- The operations the callback of `foreach` may call. -/
inductive CellOp (α : Type) where
  | update (token : Token) (obj : Option α)
  | free (token : Token)

inductive Op (α : Type) where
  | alloc (obj : Option α)
  | cell (op : CellOp α)
  | clear
  | foreach (func : Option α → List (CellOp α))

inductive Kind where
  | alloc | cell | clear | foreach
  deriving DecidableEq, Repr

def Op.kind : Op α → Kind
  | .alloc _ => .alloc
  | .cell _ => .cell
  | .clear => .clear
  | .foreach _ => .foreach

def Issue.update (token : Token) (obj : Option α) (i : Issue α) : Issue α :=
  if i.valid ∧ i.token = token then { i with stored := obj } else i

def Issue.free (token : Token) (i : Issue α) : Issue α :=
  if i.token = token then { i with valid := false } else i

def Issue.clear (i : Issue α) : Issue α := { i with valid := false }

namespace Tracked

def cellOp (s : Tracked α) : CellOp α → Tracked α
  | .update token obj => ⟨(s.cabinet.update token obj).2, s.issues.map (Issue.update token obj)⟩
  | .free token => ⟨(s.cabinet.free token).2, s.issues.map (Issue.free token)⟩

def exec (s : Tracked α) : Op α → Tracked α
  | .alloc obj =>
    ⟨(s.cabinet.alloc obj).2, s.issues ++ [⟨(s.cabinet.alloc obj).1, obj, true⟩]⟩
  | .cell op => s.cellOp op
  | .clear => ⟨s.cabinet.clear, s.issues.map Issue.clear⟩
  | .foreach func =>
    Raw.foreach (fun s : Tracked α => s.cabinet.raw.cells) (fun obj s => (func obj).foldl cellOp s) s

def execAll (ops : List (Op α)) : Tracked α := ops.foldl exec {}

def tokens (s : Tracked α) : List Token := s.issues.map Issue.token

/-- Each issue opens what was last stored under it while it is valid, and nothing afterwards; no two issues are equal.
-/
def TokenValidity (s : Tracked α) : Prop :=
  (∀ i ∈ s.issues, s.cabinet.at? i.token = if i.valid then i.stored else none)
    ∧ (∀ token, token ∉ s.tokens → s.cabinet.at? token = none)
    ∧ s.tokens.Nodup

variable {s : Tracked α}

theorem foreach_induction {P : Tracked α → Prop} (hstep : ∀ s op, P s → P (s.cellOp op))
    (func : Option α → List (CellOp α)) (hs : P s) : P (s.exec (.foreach func)) := by
  have hcall : ∀ (ops : List (CellOp α)) (s : Tracked α), P s → P (ops.foldl cellOp s) := by
    intro ops
    induction ops with
    | nil => exact fun _ hs => hs
    | cons op ops ih => exact fun s hs => ih (s.cellOp op) (hstep s op hs)
  have hvisit : ∀ (positions : List Pos) (s : Tracked α), P s →
      P (positions.foldl (Raw.visit (fun s : Tracked α => s.cabinet.raw.cells)
        fun obj s => (func obj).foldl cellOp s) s) := by
    intro positions
    induction positions with
    | nil => exact fun _ hs => hs
    | cons pos positions ih =>
      intro s hs
      refine ih _ ?_
      unfold Raw.visit
      split
      · split
        · exact hcall _ _ hs
        · exact hs
      · exact hs
  exact hvisit _ s hs

theorem execAll_append_singleton (ops : List (Op α)) (op : Op α) : execAll (ops ++ [op]) = (execAll ops).exec op := by
  simp [execAll]

/-- The cabinet opens a token exactly as the first valid issue of it says. -/
def Agrees (s : Tracked α) : Prop :=
  ∀ token, s.cabinet.view token
    = (s.issues.find? fun i => i.valid && i.token = token).map Issue.stored

theorem agrees_cellOp (s : Tracked α) (op : CellOp α) (hs : s.Agrees) : (s.cellOp op).Agrees := by
  intro token
  cases op with
  | update target obj =>
    show (s.cabinet.update target obj).2.view token = _
    have hpred : ((fun i : Issue α => i.valid && i.token = token) ∘ Issue.update target obj)
        = fun i => i.valid && i.token = token := by
      funext i
      simp only [Function.comp, Issue.update]
      split <;> rfl
    rw [Cabinet.view_update, cellOp, List.find?_map, hpred, Option.map_map]
    by_cases htoken : token = target
    · subst htoken
      cases hfind : s.issues.find? fun i => i.valid && i.token = token with
      | none =>
        have hview := hs token
        rw [hfind] at hview
        rw [hview]
        simp [hview]
      | some i =>
        have hview := hs token
        rw [hfind] at hview
        have hi := find?_some hfind
        simp only [Bool.and_eq_true, decide_eq_true_eq] at hi
        rw [hview]
        simp [Issue.update, hi]
    · have hsame : (s.issues.find? fun i => i.valid && i.token = token).map
            (Issue.stored ∘ Issue.update target obj)
          = (s.issues.find? fun i => i.valid && i.token = token).map Issue.stored := by
        cases hfind : s.issues.find? fun i => i.valid && i.token = token with
        | none => rfl
        | some i =>
          have hi := find?_some hfind
          simp only [Bool.and_eq_true, decide_eq_true_eq] at hi
          simp [Issue.update, hi.2, htoken]
      rw [hsame, ← hs token]
      split
      · rw [Function.update_of_ne htoken]
      · rfl
  | free target =>
    show (s.cabinet.free target).2.view token = _
    rw [Cabinet.view_free, cellOp, List.find?_map, Option.map_map]
    by_cases htoken : token = target
    · subst htoken
      rw [Function.update_self]
      have hnone : (s.issues.find? ((fun i : Issue α => i.valid && i.token = token)
          ∘ Issue.free token)) = none := by
        refine find?_eq_none.mpr fun i _ => ?_
        simp only [Function.comp, Issue.free]
        split <;> simp_all
      rw [hnone]
      rfl
    · rw [Function.update_of_ne htoken, hs token]
      have hpred : ((fun i : Issue α => i.valid && i.token = token) ∘ Issue.free target)
          = fun i => i.valid && i.token = token := by
        funext i
        simp only [Function.comp, Issue.free]
        split
        · rename_i heq
          simp [heq, Ne.symm htoken]
        · rfl
      have hstored : (Issue.stored ∘ Issue.free target : Issue α → Option α) = Issue.stored := by
        funext i
        simp only [Function.comp, Issue.free]
        split <;> rfl
      rw [hpred, hstored]

theorem agrees_exec (s : Tracked α) (op : Op α) (hs : s.Agrees) : (s.exec op).Agrees := by
  cases op with
  | alloc obj =>
    intro token
    show (s.cabinet.alloc obj).2.view token = _
    rw [Cabinet.view_alloc, exec, List.find?_append]
    by_cases htoken : token = (s.cabinet.alloc obj).1
    · have hnone : (s.issues.find? fun i => i.valid && i.token = token) = none := by
        have hview := hs token
        rw [htoken, Cabinet.view_alloc_fst, ← htoken] at hview
        exact map_eq_none_iff.mp hview.symm
      rw [hnone, htoken, Function.update_self]
      simp
    · rw [Function.update_of_ne htoken, hs token]
      simp [Ne.symm htoken]
  | cell op => exact agrees_cellOp s op hs
  | clear =>
    intro token
    have hnone : ((s.issues.map Issue.clear).find? fun i => i.valid && i.token = token) = none := by
      refine find?_eq_none.mpr fun i hi => ?_
      obtain ⟨j, -, rfl⟩ := List.mem_map.mp hi
      simp [Issue.clear]
    show s.cabinet.clear.view token = _
    rw [exec, hnone]
    exact Cabinet.view_empty token
  | foreach func => exact foreach_induction agrees_cellOp func hs

theorem agrees_execAll (ops : List (Op α)) : (execAll ops).Agrees := by
  induction ops using List.reverseRecOn with
  | nil => exact fun token => Cabinet.view_empty token
  | append_singleton ops op ih =>
    rw [execAll_append_singleton]
    exact agrees_exec _ op ih

theorem tokenValidity_iff_nodup (hs : s.Agrees) : s.TokenValidity ↔ s.tokens.Nodup := by
  refine ⟨fun h => h.2.2, fun hnodup => ⟨fun i hi => ?_, fun token hfresh => ?_, hnodup⟩⟩
  · have hunique : ∀ j ∈ s.issues, j.token = i.token → j = i := fun j hj heq =>
      inj_on_of_nodup_map hnodup hj hi heq
    rw [Cabinet.at?_eq_join_view, hs i.token]
    by_cases hvalid : i.valid
    · obtain ⟨j, hfind⟩ : ∃ j, (s.issues.find? fun j => j.valid && j.token = i.token) = some j :=
        isSome_iff_exists.mp (List.find?_isSome.mpr ⟨i, hi, by simp [hvalid]⟩)
      have hj := find?_some hfind
      simp only [Bool.and_eq_true, decide_eq_true_eq] at hj
      rw [hfind, hunique j (List.mem_of_find?_eq_some hfind) hj.2, if_pos hvalid]
      rfl
    · have hnone : (s.issues.find? fun j => j.valid && j.token = i.token) = none := by
        refine find?_eq_none.mpr fun j hj hmatch => ?_
        simp only [Bool.and_eq_true, decide_eq_true_eq] at hmatch
        exact hvalid (hunique j hj hmatch.2 ▸ hmatch.1)
      rw [hnone, if_neg hvalid]
      rfl
  · have hnone : (s.issues.find? fun j => j.valid && j.token = token) = none := by
      refine find?_eq_none.mpr fun j hj hmatch => hfresh ?_
      simp only [Bool.and_eq_true, decide_eq_true_eq] at hmatch
      exact List.mem_map.mpr ⟨j, hj, hmatch.2⟩
    rw [Cabinet.at?_eq_join_view, hs token, hnone]
    rfl

theorem tokens_cellOp (s : Tracked α) (op : CellOp α) : (s.cellOp op).tokens = s.tokens := by
  unfold tokens
  cases op with
  | update token obj =>
    rw [cellOp, List.map_map]
    refine map_congr_left fun i _ => ?_
    simp only [Function.comp, Issue.update]
    split <;> rfl
  | free token =>
    rw [cellOp, List.map_map]
    refine map_congr_left fun i _ => ?_
    simp only [Function.comp, Issue.free]
    split <;> rfl

theorem tokens_exec_of_ne (s : Tracked α) {op : Op α} (hop : op.kind ≠ .alloc) : (s.exec op).tokens = s.tokens := by
  cases op with
  | alloc obj => exact absurd rfl hop
  | cell op => exact tokens_cellOp s op
  | clear =>
    unfold tokens
    rw [exec, List.map_map]
    rfl
  | foreach func =>
    exact foreach_induction (P := fun t => t.tokens = s.tokens)
      (fun t op ht => (tokens_cellOp t op).trans ht) func rfl

theorem tokens_exec_alloc (s : Tracked α) (obj : Option α) :
    (s.exec (.alloc obj)).tokens = s.tokens ++ [(s.cabinet.alloc obj).1] := by
  simp [exec, tokens]

theorem lastId_cellOp (s : Tracked α) (op : CellOp α) : (s.cellOp op).cabinet.lastId = s.cabinet.lastId := by
  cases op with
  | update token obj => exact Cabinet.lastId_update _ _ _
  | free token => exact Cabinet.lastId_free _ _

theorem ids_execAll (ops : List (Op α)) (hclear : ¬[Kind.alloc, .clear] <+ ops.map Op.kind)
    (hwrap : (ops.map Op.kind).count .alloc ≤ sizeMax) :
    (execAll ops).tokens.map Token.id = List.range' 1 ((ops.map Op.kind).count .alloc)
      ∧ (execAll ops).cabinet.lastId = (ops.map Op.kind).count .alloc := by
  induction ops using List.reverseRecOn with
  | nil => exact ⟨rfl, rfl⟩
  | append_singleton ops op ih =>
    rw [map_append] at hclear hwrap ⊢
    rw [count_append] at hwrap ⊢
    obtain ⟨hids, hlast⟩ := ih (fun h => hclear (h.trans (sublist_append_left _ _))) (by omega)
    rw [execAll_append_singleton]
    cases op with
    | alloc obj =>
      have hcount : (([.alloc obj] : List (Op α)).map Op.kind).count .alloc = 1 := rfl
      rw [hcount] at hwrap ⊢
      have hne : (execAll ops).cabinet.lastId ≠ sizeMax := hlast ▸ Nat.ne_of_lt hwrap
      have hid := Cabinet.id_alloc obj hne
      refine ⟨?_, ?_⟩
      · rw [tokens_exec_alloc, map_append, hids, map_singleton, hid, hlast, List.range'_1_concat, Nat.add_comm 1]
      · show ((execAll ops).cabinet.alloc obj).2.lastId = _
        rw [Cabinet.lastId_alloc, hid, hlast]
    | cell op =>
      rw [tokens_exec_of_ne _ (by simp [Op.kind])]
      exact ⟨hids, (lastId_cellOp _ op).trans hlast⟩
    | clear =>
      -- no token can have been issued yet
      have hzero : (ops.map Op.kind).count .alloc = 0 := by
        refine count_eq_zero.mpr fun hmem => hclear ?_
        exact (singleton_sublist.mpr hmem).append (List.Sublist.refl [Kind.clear])
      rw [tokens_exec_of_ne _ (by simp [Op.kind]), hids, hzero]
      exact ⟨rfl, rfl⟩
    | foreach func =>
      rw [tokens_exec_of_ne _ (by simp [Op.kind])]
      refine ⟨hids, ?_⟩
      exact foreach_induction (P := fun t => t.cabinet.lastId = _)
        (fun t op ht => (lastId_cellOp t op).trans ht) func hlast

theorem nodup_tokens (ops : List (Op α)) (hreuse : ¬[Kind.alloc, .clear, .alloc] <+ ops.map Op.kind)
    (hwrap : (ops.map Op.kind).count .alloc ≤ sizeMax) : (execAll ops).tokens.Nodup := by
  induction ops using List.reverseRecOn with
  | nil => exact nodup_nil
  | append_singleton ops op ih =>
    by_cases hop : op.kind = .alloc
    · -- a last allocation means that no clear follows an earlier one
      have hclear : ¬[Kind.alloc, .clear] <+ (ops ++ [op]).map Op.kind := by
        intro h
        rw [map_append, map_singleton, hop] at h hreuse
        have hbefore : [Kind.alloc, .clear] <+ ops.map Op.kind := by
          rcases sublist_append_iff.mp h with ⟨left, right, heq, hleft, hright⟩
          rcases sublist_singleton.mp hright with rfl | rfl
          · rw [append_nil] at heq
            exact heq ▸ hleft
          · have hlast := congrArg List.getLast? heq
            simp at hlast
        exact hreuse (hbefore.append (List.Sublist.refl [Kind.alloc]))
      have hids := (ids_execAll _ hclear hwrap).1
      exact List.Nodup.of_map _ (hids ▸ nodup_range')
    · rw [map_append] at hreuse hwrap
      rw [count_append] at hwrap
      rw [execAll_append_singleton, tokens_exec_of_ne _ hop]
      exact ih (fun h => hreuse (h.trans (sublist_append_left _ _))) (by omega)

theorem exec_of_empty (hs : s.cabinet = empty) {op : Op α}
    (hop : op.kind ≠ .alloc) : (s.exec op).cabinet = empty := by
  have hcell : ∀ (t : Tracked α) (op : CellOp α), t.cabinet = empty →
      (t.cellOp op).cabinet = empty := by
    intro t op ht
    cases op with
    | update token obj =>
      have hnone : t.cabinet.raw.cellOf token = none := by
        rw [ht]
        exact Raw.cellOf_eq_none_of_id_eq_zero fun cell hget => by simp [empty] at hget
      show (t.cabinet.update token obj).2 = empty
      simp only [Cabinet.update, Raw.update, hnone]
      exact ht
    | free token =>
      have hnone : t.cabinet.raw.cellOf token = none := by
        rw [ht]
        exact Raw.cellOf_eq_none_of_id_eq_zero fun cell hget => by simp [empty] at hget
      show (t.cabinet.free token).2 = empty
      simp only [Cabinet.free, Raw.free, hnone]
      exact ht
  cases op with
  | alloc obj => exact absurd rfl hop
  | cell op => exact hcell s op hs
  | clear => rfl
  | foreach func => exact foreach_induction (P := fun t => t.cabinet = empty) hcell func hs

theorem first_token_mem (ops : List (Op α)) (hs : s.cabinet = empty)
    (halloc : Kind.alloc ∈ ops.map Op.kind) :
    ∃ rest, (ops.foldl exec s).tokens = s.tokens ++ rest ∧ ⟨1, 0⟩ ∈ rest := by
  have hextend : ∀ (ops : List (Op α)) (s : Tracked α), ∃ rest, (ops.foldl exec s).tokens = s.tokens ++ rest := by
    intro ops
    induction ops with
    | nil => exact fun s => ⟨[], (append_nil _).symm⟩
    | cons op ops ih =>
      intro s
      obtain ⟨rest, hrest⟩ := ih (s.exec op)
      by_cases hop : op.kind = .alloc
      · cases op with
        | alloc obj =>
          exact ⟨_, by rw [foldl_cons, hrest, tokens_exec_alloc, append_assoc]⟩
        | _ => simp [Op.kind] at hop
      · exact ⟨rest, by rw [foldl_cons, hrest, tokens_exec_of_ne s hop]⟩
  induction ops generalizing s with
  | nil => simp at halloc
  | cons op ops ih =>
    by_cases hop : op.kind = .alloc
    · cases op with
      | alloc obj =>
        obtain ⟨rest, hrest⟩ := hextend ops (s.exec (.alloc obj))
        have hfirst : (s.cabinet.alloc obj).1 = ⟨1, 0⟩ := by rw [hs]; rfl
        refine ⟨⟨1, 0⟩ :: rest, ?_, mem_cons_self⟩
        rw [foldl_cons, hrest, tokens_exec_alloc, hfirst, append_assoc]
        rfl
      | _ => simp [Op.kind] at hop
    · obtain ⟨rest, hrest, hmem⟩ := ih (exec_of_empty hs hop)
        ((mem_cons.mp halloc).resolve_left (Ne.symm hop))
      exact ⟨rest, by rw [foldl_cons, hrest, tokens_exec_of_ne s hop], hmem⟩

theorem not_nodup_tokens (ops : List (Op α))
    (hreuse : [Kind.alloc, .clear, .alloc] <+ ops.map Op.kind) : ¬(execAll ops).tokens.Nodup := by
  obtain ⟨before, rest, hsplit, hbefore, hrest⟩ :=
    append_sublist_iff.mp (show [Kind.alloc] ++ [.clear, .alloc] <+ _ from hreuse)
  obtain ⟨kinds, after, rfl, hkinds, hafter⟩ := cons_sublist_iff.mp hrest
  obtain ⟨pre, post, rfl, rfl, hpost⟩ := map_eq_append_iff.mp hsplit
  obtain ⟨mid, tail, rfl, rfl, rfl⟩ := map_eq_append_iff.mp hpost
  obtain ⟨op, hmem, hop⟩ := List.mem_map.mp hkinds
  obtain ⟨mid₁, mid₂, rfl⟩ := append_of_mem hmem
  obtain rfl : op = .clear := by cases op <;> simp_all [Op.kind]
  -- the two periods, before and after this clear, both issue the first token
  obtain ⟨first, hfirst, hone⟩ := first_token_mem (s := {}) (pre ++ mid₁) rfl
    (by rw [map_append]; exact mem_append_left _ (singleton_sublist.mp hbefore))
  obtain ⟨second, hsecond, htwo⟩ :=
    first_token_mem (s := ((pre ++ mid₁).foldl exec {}).exec .clear) (mid₂ ++ tail) rfl
      (by rw [map_append]; exact mem_append_right _ (singleton_sublist.mp hafter))
  have htokens : (execAll (pre ++ (mid₁ ++ .clear :: mid₂ ++ tail))).tokens = first ++ second := by
    have heq : pre ++ (mid₁ ++ .clear :: mid₂ ++ tail) = (pre ++ mid₁) ++ .clear :: (mid₂ ++ tail) := by simp
    rw [execAll, heq, foldl_append, foldl_cons, hsecond, tokens_exec_of_ne _ (by simp [Op.kind]), hfirst]
    rfl
  rw [htokens]
  exact fun hnodup => (disjoint_of_nodup_append hnodup) hone htwo

/-- **Token validity.** Tokens stay valid and distinct throughout a history exactly when the cabinet
is not used again, once it has been used, after a clear. -/
theorem tokens_valid_iff (ops : List (Op α))
    (hwrap : (ops.map Op.kind).count .alloc ≤ sizeMax) :
    (∀ pre, pre <+: ops → (execAll pre).TokenValidity)
      ↔ ¬[Kind.alloc, .clear, .alloc] <+ ops.map Op.kind := by
  constructor
  · intro hvalid hreuse
    exact not_nodup_tokens ops hreuse (hvalid ops (List.prefix_refl ops)).2.2
  · intro hreuse pre hpre
    have hsub : pre.map Op.kind <+ ops.map Op.kind := hpre.sublist.map Op.kind
    exact (tokenValidity_iff_nodup (agrees_execAll pre)).mpr
      (nodup_tokens pre (fun h => hreuse (h.trans hsub)) ((hsub.count_le _).trans hwrap))

/-- A cell recycled through the free list gets a token of its own. -/
theorem tokens_valid_recycled :
    (execAll [.alloc (some 7), .cell (.free ⟨1, 0⟩), .alloc (some 8)] : Tracked Nat).TokenValidity :=
  (tokens_valid_iff [.alloc (some 7), .cell (.free ⟨1, 0⟩), .alloc (some 8)] (by decide)).mpr
    (by decide) _ (List.prefix_refl _)

/-- A token kept from before a clear opens the first object stored after it. -/
theorem token_opens_foreign_object :
    ¬∀ ops : List (Op Nat), (ops.map Op.kind).count .alloc ≤ sizeMax →
      ∀ pre, pre <+: ops → (execAll pre).TokenValidity := by
  intro hvalid
  have hstate := hvalid [.alloc (some 7), .clear, .alloc (some 8)] (by decide) _
    (List.prefix_refl _)
  have hcleared := hstate.1 ⟨⟨1, 0⟩, some 7, false⟩ (by decide)
  exact absurd hcleared (by decide)

end Tracked

end Tbox.Cabinet
