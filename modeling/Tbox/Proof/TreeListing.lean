import Tbox.Terminal.Tree

/-!
# The tree that is printed

A directory is followed by its children unless it is the root or is expanded already. The loops print these lines as
long as a level that was popped can still be read and is empty.
-/

open List Option

namespace Tbox.Terminal

open Tbox.Lib (Bytes bytes Gives iterate iterate_gives iterate_invariant iterate_of_isDone iterate_of_step Passes)

/-- Only so many nodes are alive. -/
structure NodeGraph extends Nodes where
  cells : List NodeToken
  alive : ∀ token, at? token ≠ none → token ∈ cells

structure Ancestor where
  token : NodeToken
  isLast : Bool

variable {graph : NodeGraph} {nodes : Nodes} {ancestors : List Ancestor} {a : Ancestor} {token : NodeToken}
  {children level : List NodeInfo} {stack below : List (List NodeInfo)} {t t' : TreeWalk}

def Ancestor.bars (a : Ancestor) : Bytes := if a.isLast then bytes "    " else bytes "|   "

def indentation (ancestors : List Ancestor) : Bytes := ancestors.reverse.flatMap Ancestor.bars

def NodeGraph.room (graph : NodeGraph) (ancestors : List Ancestor) : List NodeToken :=
  graph.cells.filter fun token => token ∉ ancestors.map Ancestor.token

theorem room_lt (hdir : graph.at? token = some (.dir children)) (hnew : token ∉ ancestors.map Ancestor.token)
    (isLast : Bool) : (graph.room (⟨token, isLast⟩ :: ancestors)).length < (graph.room ancestors).length := by
  have hmem : token ∈ graph.cells := graph.alive token (hdir ▸ some_ne_none _)
  have hroom : graph.room (⟨token, isLast⟩ :: ancestors) = (graph.room ancestors).filter (· ≠ token) := by
    rw [NodeGraph.room, NodeGraph.room, List.filter_filter]
    refine filter_congr fun other _ => ?_
    rw [map_cons, ← Bool.decide_and]
    exact decide_eq_decide.mpr (mem_cons.not.trans not_or)
  rw [hroom]
  refine length_filter_lt_length_iff_exists.mpr ⟨token, mem_filter.mpr ⟨hmem, ?_⟩, by simp⟩
  exact decide_eq_true hnew

def lineOf (ancestors : List Ancestor) (isLast : Bool) (name : Bytes) : Bytes :=
  indentation ancestors ++ (if isLast then bytes "`-- " else bytes "|-- ") ++ name

/-- The lines below these ancestors. -/
def listing (graph : NodeGraph) (ancestors : List Ancestor) : List NodeInfo → List Bytes
  | [] => []
  | (name, token) :: rest =>
    let line := lineOf ancestors rest.isEmpty name
    (match _hnode : graph.at? token with
    | none => [line ++ bytes "(X)\r\n"]
    | some (.func _) => [line ++ bytes "\r\n"]
    | some (.dir children) =>
      if _h : token = graph.rootToken ∨ token ∈ ancestors.map Ancestor.token then [line ++ bytes "(R)\r\n"]
      else (line ++ bytes "\r\n") :: listing graph (⟨token, rest.isEmpty⟩ :: ancestors) children) ++
      listing graph ancestors rest
termination_by level => ((graph.room ancestors).length, level.length)
decreasing_by
  · exact .left _ _ (room_lt _hnode (not_or.mp _h).2 _)
  · exact .right _ (Nat.lt_succ_self _)

variable {name : Bytes} {front : NodeInfo} {rest : List NodeInfo} {total : Bytes}

theorem listing_deleted (hnode : graph.at? token = none) : listing graph ancestors ((name, token) :: rest) =
      (lineOf ancestors rest.isEmpty name ++ bytes "(X)\r\n") :: listing graph ancestors rest := by
  rw [listing]
  split <;> simp_all

theorem listing_func {run : List Bytes → List SessionCall} (hnode : graph.at? token = some (.func run)) :
    listing graph ancestors ((name, token) :: rest) =
      (lineOf ancestors rest.isEmpty name ++ bytes "\r\n") :: listing graph ancestors rest := by
  rw [listing]
  split <;> simp_all

theorem listing_repeated (hnode : graph.at? token = some (.dir children))
    (h : token = graph.rootToken ∨ token ∈ ancestors.map Ancestor.token) :
    listing graph ancestors ((name, token) :: rest) =
      (lineOf ancestors rest.isEmpty name ++ bytes "(R)\r\n") :: listing graph ancestors rest := by
  rw [listing]
  split
  · simp_all
  · simp_all
  · rw [dif_pos h]
    rfl

theorem listing_expanded (hnode : graph.at? token = some (.dir children))
    (h : ¬(token = graph.rootToken ∨ token ∈ ancestors.map Ancestor.token)) :
    listing graph ancestors ((name, token) :: rest) = (lineOf ancestors rest.isEmpty name ++ bytes "\r\n") ::
        (listing graph (⟨token, rest.isEmpty⟩ :: ancestors) children ++ listing graph ancestors rest) := by
  rw [listing]
  split
  · simp_all
  · simp_all
  next hdir =>
    obtain rfl := Node.dir.inj (some.inj (hnode.symm.trans hdir))
    rw [dif_neg h]
    rfl

def ancestorOf : List NodeInfo → Option Ancestor
  | [] => none
  | front :: rest => some ⟨front.2, rest.isEmpty⟩

def ancestorsOf (stack : List (List NodeInfo)) : List Ancestor := stack.filterMap ancestorOf

def besideFronts (graph : NodeGraph) : List (List NodeInfo) → List Bytes
  | [] => []
  | level :: below => listing graph (ancestorsOf below) level.tail ++ besideFronts graph below

def linesLeft (graph : NodeGraph) : List (List NodeInfo) → List Bytes
  | [] => []
  | level :: below => listing graph (ancestorsOf below) level ++ besideFronts graph below

def TreeWalk.linesLeft (graph : NodeGraph) (t : TreeWalk) : List Bytes :=
  match t.point with
  | .cleanup _ => besideFronts graph t.stack
  | _ => Terminal.linesLeft graph t.stack

structure Coherent (graph : NodeGraph) (total : Bytes) (t : TreeWalk) : Prop where
  levels : ∀ level ∈ t.stack, level ≠ []
  indent : t.indentStr = indentation (ancestorsOf t.stack.tail)
  lines : t.ss ++ (t.linesLeft graph).flatten = total
  lastLevel : t.point = .nodes false ∨ t.point = .cleanup false → t.stack ≠ []
  done : t.point = .done → t.stack = []

theorem ancestorsOf_cons : ancestorsOf ((front :: rest) :: below) = ⟨front.2, rest.isEmpty⟩ :: ancestorsOf below :=
  filterMap_cons_some rfl

theorem isExpanded_eq {levels : List (List NodeInfo)} (h : ∀ level ∈ levels, level ≠ []) (token : NodeToken) :
    isExpanded token levels = some (decide (token ∈ (ancestorsOf levels).map Ancestor.token)) := by
  induction levels with
  | nil => rfl
  | cons level levels ih =>
    cases level with
    | nil => exact absurd rfl (h [] mem_cons_self)
    | cons front rest =>
      rw [isExpanded, ancestorsOf_cons, map_cons, ih fun other hmem => h other (.tail _ hmem)]
      by_cases heq : front.2 = token
      · rw [if_pos heq, ← heq, decide_eq_true mem_cons_self]
      · rw [if_neg heq]
        exact congrArg some (decide_eq_decide.mpr
          ⟨mem_cons_of_mem _, fun hmem => (mem_cons.mp hmem).resolve_left (Ne.symm heq)⟩)

theorem isRepeat_eq (h : ∀ level ∈ below, level ≠ []) (token : NodeToken) : isRepeat nodes token below =
      some (decide (token = nodes.rootToken ∨ token ∈ (ancestorsOf below).map Ancestor.token)) := by
  rw [isRepeat]
  by_cases hroot : token = nodes.rootToken
  · rw [if_pos hroot, decide_eq_true (.inl hroot)]
  · rw [if_neg hroot, isExpanded_eq fun level hmem => h level (mem_reverse.mp hmem)]
    refine congrArg some (decide_eq_decide.mpr ?_)
    rw [or_iff_right hroot, ancestorsOf, filterMap_reverse, map_reverse, mem_reverse, ancestorsOf]

theorem length_bars (a : Ancestor) : a.bars.length = 4 := by
  rw [Ancestor.bars]
  split <;> rfl

theorem indentation_cons (a : Ancestor) (ancestors : List Ancestor) :
    indentation (a :: ancestors) = indentation ancestors ++ a.bars := by
  rw [indentation, reverse_cons, flatMap_append, flatMap_singleton, indentation]

theorem length_indentation (ancestors : List Ancestor) : (indentation ancestors).length = 4 * ancestors.length := by
  induction ancestors with
  | nil => rfl
  | cons a ancestors ih => rw [indentation_cons, length_append, ih, length_bars, length_cons, Nat.mul_succ]

theorem length_ancestorsOf (h : ∀ level ∈ below, level ≠ []) : (ancestorsOf below).length = below.length := by
  induction below with
  | nil => rfl
  | cons level below ih =>
    cases level with
    | nil => exact absurd rfl (h [] mem_cons_self)
    | cons front rest =>
      rw [ancestorsOf_cons, length_cons, ih fun other hmem => h other (.tail _ hmem), length_cons]

theorem Coherent.length_indentStr (h : Coherent graph total t) : t.indentStr.length = 4 * (t.stack.length - 1) := by
  rw [h.indent, length_indentation, length_ancestorsOf fun level hmem => h.levels level (mem_of_mem_tail hmem),
    length_tail]

def TreePoint.rank : TreePoint → Nat
  | .done => 0
  | .nodes false => 0
  | .levels => 1
  | .nodes true => 2
  | .cleanup _ => 3

/-- It gets smaller: a line is printed, or a level popped, or neither was to be done. -/
def TreeWalk.size (graph : NodeGraph) (t : TreeWalk) : Nat :=
  6 * (t.linesLeft graph).length + t.stack.length + t.point.rank

def Advances (graph : NodeGraph) (total : Bytes) (t t' : TreeWalk) : Prop :=
  treeStep graph.toNodes t = some t' ∧ Coherent graph total t' ∧ t'.size graph < t.size graph

theorem advances_levels (h : Coherent graph total t) (hpoint : t.point = .levels) :
    ∃ t', Advances graph total t t' := by
  obtain ⟨point, stack, indentStr, ss⟩ := t
  obtain rfl : point = .levels := hpoint
  cases stack with
  | nil =>
    exact ⟨_, rfl, ⟨h.levels, h.indent, h.lines, by simp, fun _ => rfl⟩, Nat.lt_succ_self _⟩
  | cons level below =>
    exact ⟨_, rfl, ⟨h.levels, h.indent, h.lines, fun _ => cons_ne_nil level below, by simp⟩, Nat.lt_succ_self _⟩

theorem advances_popped (h : Coherent graph total t) (hpoint : t.point = .nodes true) :
    ∃ t', Advances graph total t t' := by
  obtain ⟨point, stack, indentStr, ss⟩ := t
  obtain rfl : point = .nodes true := hpoint
  exact ⟨_, rfl, ⟨h.levels, h.indent, h.lines, by simp, by simp⟩, Nat.lt_succ_self _⟩

theorem advances_line {line : Bytes} (h : Coherent graph total t) (hpoint : t.point = .nodes false)
    (hstack : t.stack = (front :: rest) :: below)
    (hlisting : listing graph (ancestorsOf below) (front :: rest) = line :: listing graph (ancestorsOf below) rest)
    (hstep : treeStep graph.toNodes t = some { t with point := .cleanup false, ss := t.ss ++ line }) :
    ∃ t', Advances graph total t t' := by
  obtain ⟨point, stack, indentStr, ss⟩ := t
  obtain rfl : point = .nodes false := hpoint
  obtain rfl : stack = (front :: rest) :: below := hstack
  have hleft : linesLeft graph ((front :: rest) :: below) = line :: besideFronts graph ((front :: rest) :: below) := by
    rw [linesLeft, hlisting, cons_append, besideFronts, tail_cons]
  refine ⟨_, hstep, ⟨h.levels, h.indent, ?_, fun _ => cons_ne_nil _ below, by simp⟩, ?_⟩
  · have hlines : ss ++ (linesLeft graph ((front :: rest) :: below)).flatten = total := h.lines
    rw [hleft, flatten_cons, ← append_assoc] at hlines
    exact hlines
  show 6 * (besideFronts graph ((front :: rest) :: below)).length + (below.length + 1) + 3 <
    6 * (linesLeft graph ((front :: rest) :: below)).length + (below.length + 1) + 0
  rw [hleft, length_cons]
  omega

theorem advances_children (h : Coherent graph total t) (hpoint : t.point = .nodes false) {line : Bytes}
    (hstack : t.stack = (front :: rest) :: below) (hchildren : children ≠ [])
    (hlisting : listing graph (ancestorsOf below) (front :: rest) =
      line :: (listing graph (⟨front.2, rest.isEmpty⟩ :: ancestorsOf below) children ++
        listing graph (ancestorsOf below) rest))
    (hstep : treeStep graph.toNodes t = some
      { point := .levels
        stack := children :: t.stack
        indentStr := t.indentStr ++ Ancestor.bars ⟨front.2, rest.isEmpty⟩
        ss := t.ss ++ line }) :
    ∃ t', Advances graph total t t' := by
  obtain ⟨point, stack, indentStr, ss⟩ := t
  obtain rfl : point = .nodes false := hpoint
  obtain rfl : stack = (front :: rest) :: below := hstack
  have hleft : linesLeft graph ((front :: rest) :: below) =
      line :: linesLeft graph (children :: (front :: rest) :: below) := by
    rw [linesLeft, hlisting, cons_append, linesLeft, ancestorsOf_cons, besideFronts, tail_cons, append_assoc]
  refine ⟨_, hstep, ⟨?_, ?_, ?_, fun _ => cons_ne_nil _ _, by simp⟩, ?_⟩
  · intro level hmem
    rcases mem_cons.mp hmem with rfl | hold
    · exact hchildren
    · exact h.levels level hold
  · show indentStr ++ _ = indentation (ancestorsOf ((front :: rest) :: below))
    rw [ancestorsOf_cons, indentation_cons]
    exact congrArg (· ++ _) h.indent
  · have hlines : ss ++ (linesLeft graph ((front :: rest) :: below)).flatten = total := h.lines
    rw [hleft, flatten_cons, ← append_assoc] at hlines
    exact hlines
  show 6 * (linesLeft graph (children :: (front :: rest) :: below)).length + (below.length + 1 + 1) + 1 <
    6 * (linesLeft graph ((front :: rest) :: below)).length + (below.length + 1) + 0
  rw [hleft, length_cons]
  omega

theorem advances_visit (h : Coherent graph total t) (hpoint : t.point = .nodes false) :
    ∃ t', Advances graph total t t' := by
  obtain ⟨level, below, hstack⟩ := exists_cons_of_ne_nil (h.lastLevel (.inl hpoint))
  obtain ⟨⟨name, token⟩, rest, rfl⟩ := exists_cons_of_ne_nil (h.levels level (hstack ▸ mem_cons_self))
  have hbelow : ∀ other ∈ below, other ≠ [] := fun other hmem => h.levels other (hstack ▸ .tail _ hmem)
  have hindent : t.indentStr = indentation (ancestorsOf below) := by rw [h.indent, hstack, tail_cons]
  have hstep : treeStep graph.toNodes t = visitNode graph.toNodes (name, token) rest.isEmpty below t := by
    rw [treeStep, hpoint, hstack]
  have hline : t.ss ++ t.indentStr ++ (if rest.isEmpty then bytes "`-- " else bytes "|-- ") ++ name =
      t.ss ++ lineOf (ancestorsOf below) rest.isEmpty name := by
    rw [lineOf, hindent, append_assoc, append_assoc, append_assoc]
  rw [visitNode] at hstep
  rw [hline] at hstep
  cases hnode : graph.at? token with
  | none =>
    rw [hnode, append_assoc] at hstep
    exact advances_line h hpoint hstack (listing_deleted hnode) hstep
  | some node =>
    rw [hnode] at hstep
    cases node with
    | func run =>
      dsimp only at hstep
      rw [append_assoc] at hstep
      exact advances_line h hpoint hstack (listing_func hnode) hstep
    | dir children =>
      dsimp only at hstep
      rw [isRepeat_eq hbelow, map_some] at hstep
      by_cases hrepeat : token = graph.rootToken ∨ token ∈ (ancestorsOf below).map Ancestor.token
      · rw [if_pos (decide_eq_true hrepeat), append_assoc, append_assoc] at hstep
        exact advances_line h hpoint hstack (listing_repeated hnode hrepeat) hstep
      rw [if_neg (by simpa using hrepeat), append_assoc] at hstep
      by_cases hempty : children = []
      · rw [if_pos hempty] at hstep
        refine advances_line h hpoint hstack ?_ hstep
        rw [listing_expanded hnode hrepeat, hempty, listing, nil_append]
      · rw [if_neg hempty] at hstep
        exact advances_children h hpoint hstack hempty (listing_expanded hnode hrepeat) hstep

theorem advances_cleanup {isPopped : Bool} (h : Coherent graph total t) (hpoint : t.point = .cleanup isPopped) :
    ∃ t', Advances graph total t t' := by
  have hstep : treeStep graph.toNodes t = cleanupNode isPopped t := by rw [treeStep, hpoint]
  have hlength := h.length_indentStr
  obtain ⟨point, stack, indentStr, ss⟩ := t
  obtain rfl : point = .cleanup isPopped := hpoint
  cases stack with
  | nil =>
    have hpopped : isPopped = true := by
      by_contra hfalse
      exact h.lastLevel (.inr (by rw [Bool.eq_false_iff.mpr hfalse])) rfl
    subst hpopped
    exact ⟨_, hstep, ⟨h.levels, h.indent, h.lines, by simp, by simp⟩, Nat.lt_succ_self _⟩
  | cons level below =>
    have hbelow : ∀ other ∈ below, other ≠ [] := fun other hmem => h.levels other (.tail _ hmem)
    obtain ⟨front, rest, rfl⟩ := exists_cons_of_ne_nil (h.levels level mem_cons_self)
    have hindent : indentStr = indentation (ancestorsOf below) := h.indent
    have hlines : ss ++ (besideFronts graph ((front :: rest) :: below)).flatten = total := h.lines
    rw [besideFronts, tail_cons] at hlines
    cases rest with
    | cons next rest =>
      refine ⟨_, hstep, ⟨?_, h.indent, hlines, fun _ => cons_ne_nil _ _, by simp⟩, ?_⟩
      · intro other hmem
        rcases mem_cons.mp hmem with rfl | hold
        · exact cons_ne_nil next rest
        · exact hbelow other hold
      · show 6 * _ + (below.length + 1) + TreePoint.rank (.nodes isPopped) < 6 * _ + (below.length + 1) + 3
        cases isPopped <;> exact Nat.add_lt_add_left (by decide) _
    | nil =>
      rw [listing, nil_append] at hlines
      have hsize : 6 * (besideFronts graph below).length + below.length + 3 <
          6 * (besideFronts graph ([front] :: below)).length + (below.length + 1) + 3 := by
        rw [besideFronts, tail_cons, listing, nil_append]
        omega
      cases below with
      | nil =>
        have hempty : indentStr = [] := hindent
        rw [cleanupNode] at hstep
        dsimp only at hstep
        rw [if_pos hempty] at hstep
        exact ⟨_, hstep, ⟨hbelow, hindent, hlines, by simp, by simp⟩, hsize⟩
      | cons level below =>
        obtain ⟨front', rest', rfl⟩ := exists_cons_of_ne_nil (hbelow level mem_cons_self)
        rw [ancestorsOf_cons, indentation_cons] at hindent
        have hbars := length_bars ⟨front'.2, rest'.isEmpty⟩
        have htake : indentStr.take (indentStr.length - 4) = indentation (ancestorsOf below) := by
          rw [hindent, length_append, hbars, Nat.add_sub_cancel, take_left]
        have hfour : 4 ≤ indentStr.length := by
          rw [hindent, length_append, hbars]
          omega
        rw [cleanupNode] at hstep
        dsimp only at hstep
        rw [if_neg (ne_nil_of_length_pos (by omega)), if_neg (by omega)] at hstep
        exact ⟨_, hstep, ⟨hbelow, htake, hlines, by simp, by simp⟩, hsize⟩

/-- An iteration of a loop stays with the listing, and leaves less to do. -/
theorem coherent_step (h : Coherent graph total t) (hdone : t.isDone = false) : ∃ t', Advances graph total t t' := by
  cases hpoint : t.point with
  | levels => exact advances_levels h hpoint
  | nodes isPopped =>
    cases isPopped with
    | false => exact advances_visit h hpoint
    | true => exact advances_popped h hpoint
  | cleanup isPopped => exact advances_cleanup h hpoint
  | done => exact absurd (decide_eq_true hpoint) (Bool.eq_false_iff.mp hdone)

theorem coherent_start (graph : NodeGraph) (children : List NodeInfo) :
    Coherent graph (listing graph [] children).flatten (treeStart children) := by
  rw [treeStart]
  split
  · next hempty =>
      rw [hempty, listing]
      exact ⟨by simp, rfl, rfl, by simp, by simp⟩
  next hne =>
    refine ⟨by simpa using hne, rfl, ?_, by simp, by simp⟩
    show [] ++ (listing graph [] children ++ []).flatten = _
    rw [nil_append, append_nil]

theorem tree_gives (graph : NodeGraph) (children : List NodeInfo) :
    Gives (fun rounds => (iterate (treeStep graph.toNodes) TreeWalk.isDone rounds (treeStart children)).map TreeWalk.ss)
      (listing graph [] children).flatten := by
  obtain ⟨t, ht, hcoherent, hdone⟩ := iterate_gives (TreeWalk.size graph)
    (fun _ h hdone => coherent_step h hdone) (coherent_start graph children)
  have hpoint : t.point = .done := of_decide_eq_true hdone
  have hlines : t.ss = (listing graph [] children).flatten := by
    rw [← hcoherent.lines, TreeWalk.linesLeft, hpoint, hcoherent.done hpoint]
    exact (append_nil _).symm
  exact hlines ▸ ht.map TreeWalk.ss

/-- The tree is printed. Along the loops no level is empty, and each above the first has four characters of the
indentation. -/
structure Lists (graph : NodeGraph) (step : TreeWalk → Option TreeWalk) (s : SessionContext) (args : List Bytes)
    (children : List NodeInfo) : Prop where
  text : Gives (fun rounds => textBy graph.toNodes step rounds s args) (listing graph [] children).flatten
  along : ∀ t, Passes step TreeWalk.isDone (treeStart children) t →
    t.indentStr.length = 4 * (t.stack.length - 1) ∧ ∀ level ∈ t.stack, level ≠ []

variable {s : SessionContext} {args : List Bytes} {nodePath : Path}

theorem tree_lists (hpath : graph.findNode (args.getD 1 (bytes ".")) s.path = some nodePath)
    (htop : graph.top nodePath = some (.dir children)) : Lists graph (treeStep graph.toNodes) s args children := by
  constructor
  · simp only [textBy, hpath, htop]
    exact tree_gives graph children
  · intro t ht
    have hcoherent : Coherent graph (listing graph [] children).flatten t := by
      refine ht.invariant (fun t u hinv hdone hstep => ?_) (coherent_start graph children)
      obtain ⟨t', ht', hinv', -⟩ := coherent_step hinv hdone
      exact Option.some.inj (ht'.symm.trans hstep) ▸ hinv'
    exact ⟨hcoherent.length_indentStr, hcoherent.levels⟩

/-- A walk over what is not empty: where the stack has come to its end a level was popped. -/
def Walking (t : TreeWalk) : Prop := t.point ≠ .done ∧ (t.stack = [] → t.point = .cleanup true ∨ t.point = .nodes true)

theorem Walking.of_stack (hpoint : t.point ≠ .done) (hstack : t.stack ≠ []) : Walking t :=
  ⟨hpoint, fun hempty => absurd hempty hstack⟩

theorem walking_visit (hstack : t.stack ≠ []) {isLastNode : Bool}
    (h : visitNode nodes front isLastNode below t = some t') : Walking t' := by
  rw [visitNode] at h
  cases hnode : nodes.at? front.2 with
  | none =>
    rw [hnode] at h
    exact some.inj h ▸ .of_stack (by simp) hstack
  | some node =>
    rw [hnode] at h
    cases node with
    | func run => exact some.inj h ▸ .of_stack (by simp) hstack
    | dir children =>
      obtain ⟨isRepeat, -, hvisit⟩ := map_eq_some_iff.mp h
      subst hvisit
      cases isRepeat with
      | true => exact .of_stack (by simp) hstack
      | false =>
        rw [if_neg Bool.false_ne_true]
        by_cases hempty : children = []
        · rw [if_pos hempty]
          exact .of_stack (by simp) hstack
        · rw [if_neg hempty]
          exact .of_stack (by simp) (cons_ne_nil _ _)

theorem walking_cleanup {isPopped : Bool} (hstack : t.stack = [] → isPopped = true)
    (h : cleanupNode isPopped t = some t') : Walking t' := by
  obtain ⟨point, stack, indentStr, ss⟩ := t
  cases stack with
  | nil =>
    obtain rfl := hstack rfl
    exact some.inj h ▸ ⟨by simp, fun _ => .inr rfl⟩
  | cons level below =>
    match level with
    | [] => cases h
    | [_] =>
      rw [cleanupNode] at h
      dsimp only at h
      split_ifs at h
      · exact some.inj h ▸ ⟨by simp, fun _ => .inl rfl⟩
      · exact some.inj h ▸ ⟨by simp, fun _ => .inl rfl⟩
    | _ :: next :: rest => exact some.inj h ▸ .of_stack (by simp) (cons_ne_nil _ _)

theorem walking_step (h : Walking t) (hstep : definedStep nodes t = some t') : Walking t' := by
  obtain ⟨hread, hstep⟩ := ite_none_left_eq_some.mp hstep
  obtain ⟨hpoint, hstack⟩ := h
  rw [treeStep] at hstep
  cases hwhere : t.point with
  | levels =>
    have hne : t.stack ≠ [] := fun hempty => by simpa [hwhere] using hstack hempty
    rw [hwhere] at hstep
    dsimp only at hstep
    rw [if_neg hne] at hstep
    exact some.inj hstep ▸ .of_stack (by simp) hne
  | nodes isPopped =>
    cases isPopped with
    | true => exact absurd hwhere hread
    | false =>
      have hne : t.stack ≠ [] := fun hempty => by simpa [hwhere] using hstack hempty
      rw [hwhere] at hstep
      dsimp only at hstep
      split at hstep
      · cases hstep
      · exact some.inj hstep ▸ .of_stack (by simp) hne
      · exact walking_visit hne hstep
  | cleanup isPopped =>
    rw [hwhere] at hstep
    refine walking_cleanup (fun hempty => ?_) hstep
    simpa [hwhere] using hstack hempty
  | done => exact absurd hwhere hpoint

theorem not_lists_defined (hpath : graph.findNode (args.getD 1 (bytes ".")) s.path = some nodePath)
    (htop : graph.top nodePath = some (.dir children)) (hne : children ≠ []) :
    ¬Lists graph (definedStep graph.toNodes) s args children := by
  rintro ⟨htext, -⟩
  simp only [textBy, hpath, htop] at htext
  obtain ⟨rounds, hrounds⟩ := htext.exists
  obtain ⟨t, ht, -⟩ := map_eq_some_iff.mp hrounds
  have hstart : Walking (treeStart children) := .of_stack (by simp [treeStart]) (by simp [treeStart, hne])
  obtain ⟨hwalking, hdone⟩ := iterate_invariant (fun _ _ h _ hstep => walking_step h hstep) hstart ht
  exact hwalking.1 (of_decide_eq_true hdone)

theorem lists_defined_of_empty (hpath : graph.findNode (args.getD 1 (bytes ".")) s.path = some nodePath)
    (htop : graph.top nodePath = some (.dir [])) : Lists graph (definedStep graph.toNodes) s args [] := by
  constructor
  · simp only [textBy, hpath, htop]
    rw [listing, flatten_nil]
    have hend : Gives (fun rounds => iterate (definedStep graph.toNodes) TreeWalk.isDone rounds (treeStart []))
        { point := .done, stack := [] } := iterate_of_step rfl rfl (iterate_of_isDone rfl)
    exact hend.map TreeWalk.ss
  · intro t ht
    have hnothing : (t.point = .levels ∨ t.point = .done) ∧ t.stack = [] ∧ t.indentStr = [] := by
      refine ht.invariant (I := fun t => (t.point = .levels ∨ t.point = .done) ∧ t.stack = [] ∧ t.indentStr = [])
        (fun t u hinv hdone hstep => ?_) ⟨.inl rfl, rfl, rfl⟩
      obtain ⟨hpoint | hpoint, hstack, hindent⟩ := hinv
      · rw [definedStep, if_neg (by simp [hpoint]), treeStep, hpoint] at hstep
        dsimp only at hstep
        rw [if_pos hstack] at hstep
        exact some.inj hstep ▸ ⟨.inr rfl, hstack, hindent⟩
      · exact absurd (decide_eq_true hpoint) (Bool.eq_false_iff.mp hdone)
    obtain ⟨-, hstack, hindent⟩ := hnothing
    rw [hstack, hindent]
    exact ⟨rfl, fun level hlevel => absurd hlevel not_mem_nil⟩

/-- **The tree is printed** wherever a level that was popped reads as empty. Without reading one that is so just for a
directory that has no children. -/
theorem lists_defined_iff (graph : NodeGraph) (s : SessionContext) (args : List Bytes) (nodePath : Path)
    (children : List NodeInfo) (hpath : graph.findNode (args.getD 1 (bytes ".")) s.path = some nodePath)
    (htop : graph.top nodePath = some (.dir children)) :
    (Lists graph (definedStep graph.toNodes) s args children ↔ children = []) ∧
      Lists graph (treeStep graph.toNodes) s args children := by
  refine ⟨⟨fun hlists => ?_, ?_⟩, tree_lists hpath htop⟩
  · by_contra hne
    exact not_lists_defined hpath htop hne hlists
  · rintro rfl
    exact lists_defined_of_empty hpath htop

def noNode : NodeGraph where
  at? token := if token = 0 then some (.dir []) else none
  cells := [0]
  alive token := by simp

theorem noNode_lists : Lists noNode (definedStep noNode.toNodes) {} [bytes "tree"] [] :=
  (lists_defined_iff noNode {} [bytes "tree"] [] [] (by decide) rfl).1.mpr rfl

/-- The root has one child. -/
def oneNode : NodeGraph where
  at? token := if token = 0 then some (.dir [(bytes "a", 1)]) else if token = 1 then some (.func fun _ => []) else none
  cells := [0, 1]
  alive token := by
    split_ifs <;> simp_all

theorem oneNode_reads : ¬Lists oneNode (definedStep oneNode.toNodes) {} [bytes "tree"] [(bytes "a", 1)] :=
  have hpath : oneNode.findNode (([bytes "tree"] : List Bytes).getD 1 (bytes ".")) [] = some [] := by decide
  not_lists_defined hpath rfl (cons_ne_nil _ _)

def cyclicNodes : Nodes where
  at? token :=
    if token = 0 then some (.dir [(bytes "a", 1), (bytes "b", 2)])
    else if token = 1 then some (.dir [(bytes "c", 1), (bytes "d", 3)])
    else if token = 2 then some (.func fun _ => [])
    else none

example : treeText cyclicNodes 20 {} [bytes "tree"] =
    some (bytes "|-- a\r\n|   |-- c(R)\r\n|   `-- d(X)\r\n`-- b\r\n") := by
  decide +kernel

end Tbox.Terminal
