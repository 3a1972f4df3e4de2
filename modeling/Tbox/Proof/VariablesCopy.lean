import Tbox.Lib.Rounds
import Tbox.Util.Variables

/-!
# Scopes and copies of variables

A name means what the nearest scope that has it says. A copy takes the parent, and the map only if there is one; the
parent may be the object itself, and then a lookup goes round for ever.
-/

open List Option

namespace Tbox.Util

open Tbox.Lib (Bytes Gives gives_of_eq)
open Function (update_self update_of_ne update)

variable {J β : Type} {scopes scopes' : Scopes J} {a b c p : VariablesId} {l : List VariablesId} {localOnly : Bool}
  {name other : Bytes} {value : J} {v v' : Variables J} {map : VariableMap J} {found : VariablesId → Option β}
  {missing : β}

namespace Variables

theorem find_put : (v.put map name value).find other = if other = name then some value else map.lookup other := by
  show (map.insert name value).lookup other = _
  split_ifs with heq
  · rw [heq, AList.lookup_insert]
  · exact AList.lookup_insert_ne heq

theorem setHere_of_none (hfind : v.find name = none) (value : J) : v.setHere name value = none := by
  rw [setHere]
  split
  · rfl
  · next map hmap =>
      rw [find, hmap] at hfind
      exact if_neg (AList.lookup_eq_none.mp hfind)

theorem setHere_of_some {old : J} (hfind : v.find name = some old) (value : J) :
    ∃ v', v.setHere name value = some v' ∧ v'.parent = v.parent ∧
      ∀ other, v'.find other = if other = name then some value else v.find other := by
  cases hmap : v.varMap with
  | none =>
    rw [find, hmap] at hfind
    cases hfind
  | some map =>
    rw [find, hmap] at hfind
    have hmem : name ∈ map := AList.lookup_isSome.mp (isSome_of_eq_some hfind)
    refine ⟨v.put map name value, ?_, rfl, fun other => ?_⟩
    · rw [setHere, hmap]
      exact if_pos hmem
    · rw [find_put, find, hmap]
      rfl

theorem copy_parent (v other : Variables J) : (v.copy other).parent = other.parent := by
  rw [copy]
  split <;> rfl

theorem copy_of_some {v other : Variables J} (hmap : other.varMap ≠ none) : (v.copy other).varMap = other.varMap := by
  rw [copy]
  split
  · exact absurd ‹_› hmap
  · next heq => exact heq.symm

theorem copy_of_none {v other : Variables J} (hmap : other.varMap = none) : (v.copy other).varMap = v.varMap := by
  rw [copy]
  split
  · rfl
  · next heq => cases hmap.symm.trans heq

theorem copy_eq {v other : Variables J} (h : other.varMap ≠ none ∨ v.varMap = none) : v.copy other = other := by
  refine Variables.ext (copy_parent v other) ?_
  cases hmap : other.varMap with
  | none => rw [copy_of_none hmap, h.resolve_left (not_not_intro hmap)]
  | some map => rw [copy_of_some (hmap ▸ some_ne_none map), hmap]

theorem find_eq_none (hmap : v.varMap = none) : v.find name = none := by
  rw [find, hmap]
  rfl

end Variables

namespace Scopes

/-- The objects that a lookup goes through when nothing is found. -/
inductive Searched (scopes : Scopes J) : VariablesId → Bool → List VariablesId → Prop
  | own (a : VariablesId) : Searched scopes a true [a]
  | outermost {a : VariablesId} : (scopes a).parent = none → Searched scopes a false [a]
  | enclosed {a p : VariablesId} {l : List VariablesId} :
      (scopes a).parent = some p → Searched scopes p false l → Searched scopes a false (a :: l)

theorem lookup_own (found : VariablesId → Option β) (scopes : Scopes J) (rounds : Nat) (a : VariablesId) :
    lookup found missing scopes (rounds + 1) a true = some ((found a).getD missing) := by
  unfold lookup
  split <;> simp [*]

theorem lookup_outermost (hparent : (scopes a).parent = none) (rounds : Nat) :
    lookup found missing scopes (rounds + 1) a false = some ((found a).getD missing) := by
  unfold lookup
  split <;> simp [*]

theorem lookup_enclosed (hparent : (scopes a).parent = some p) (rounds : Nat) :
    lookup found missing scopes (rounds + 1) a false =
      (found a).elim (lookup found missing scopes rounds p false) some := by
  conv_lhs => unfold lookup
  split <;> simp [*]

theorem lookup_gives (h : Searched scopes a localOnly l) :
    Gives (fun rounds => lookup found missing scopes rounds a localOnly) ((l.findSome? found).getD missing) := by
  induction h with
  | own a =>
    rw [List.findSome?_singleton]
    exact Gives.of_succ rfl (fun rounds => lookup_own found scopes rounds a) (gives_of_eq fun _ => rfl)
  | outermost hparent =>
    rw [List.findSome?_singleton]
    exact Gives.of_succ rfl (lookup_outermost hparent) (gives_of_eq fun _ => rfl)
  | @enclosed a p l hparent _ ih =>
    refine Gives.of_succ rfl (lookup_enclosed hparent) ?_
    rw [List.findSome?_cons]
    cases found a with
    | none => exact ih
    | some x => exact gives_of_eq fun _ => rfl

variable {found' : VariablesId → Option β}

theorem lookup_congr (h : Searched scopes a localOnly l)
    (hscopes : ∀ c ∈ l, scopes' c = scopes c) (hfound : ∀ c ∈ l, found' c = found c) (rounds : Nat) :
    lookup found' missing scopes' rounds a localOnly = lookup found missing scopes rounds a localOnly := by
  induction h generalizing rounds with
  | own a =>
    cases rounds with
    | zero => rfl
    | succ rounds => rw [lookup_own, lookup_own, hfound a (.head [])]
  | @outermost a hparent =>
    cases rounds with
    | zero => rfl
    | succ rounds =>
      have hparent' : (scopes' a).parent = none := by rw [hscopes a (.head []), hparent]
      rw [lookup_outermost hparent, lookup_outermost hparent', hfound a (.head [])]
  | @enclosed a p l hparent _ ih =>
    cases rounds with
    | zero => rfl
    | succ rounds =>
      have hparent' : (scopes' a).parent = some p := by rw [hscopes a (.head l), hparent]
      rw [lookup_enclosed hparent, lookup_enclosed hparent', hfound a (.head l),
        ih (fun c hc => hscopes c (.tail a hc)) (fun c hc => hfound c (.tail a hc)) rounds]

theorem lookup_eq_of_eq (hab : scopes a = scopes b) (hfound : found a = found b) (rounds : Nat) (localOnly : Bool) :
    lookup found missing scopes rounds a localOnly = lookup found missing scopes rounds b localOnly := by
  cases rounds with
  | zero => rfl
  | succ rounds =>
    cases localOnly with
    | true => rw [lookup_own, lookup_own, hfound]
    | false =>
      cases hparent : (scopes b).parent with
      | none => rw [lookup_outermost hparent, lookup_outermost (hab ▸ hparent), hfound]
      | some p => rw [lookup_enclosed hparent, lookup_enclosed (hab ▸ hparent), hfound]

def nearest (scopes : Scopes J) (l : List VariablesId) (name : Bytes) : Option VariablesId :=
  l.find? fun b => ((scopes b).find name).isSome

structure Sets (scopes scopes' : Scopes J) (b : VariablesId) (name : Bytes) (value : J) : Prop where
  others : ∀ c, c ≠ b → scopes' c = scopes c
  parent : (scopes' b).parent = (scopes b).parent
  find : ∀ other, (scopes' b).find other = if other = name then some value else (scopes b).find other

/-- What a lookup that goes through these objects does to the variable. -/
structure ActsOnNearest (scopes : Scopes J) (a : VariablesId) (localOnly : Bool) (l : List VariablesId) (name : Bytes) :
    Prop where
  found : ∀ b, nearest scopes l name = some b → ∃ old, (scopes b).find name = some old ∧
    Gives (fun rounds => has scopes rounds a name localOnly) true ∧
    Gives (fun rounds => get scopes rounds a name localOnly) (some old) ∧
    ∀ value, ∃ scopes', Gives (fun rounds => set scopes rounds a name value localOnly) (true, scopes') ∧
      Sets scopes scopes' b name value
  missing : nearest scopes l name = none →
    (∀ b ∈ l, (scopes b).find name = none) ∧
    Gives (fun rounds => has scopes rounds a name localOnly) false ∧
    Gives (fun rounds => get scopes rounds a name localOnly) none ∧
    ∀ value, Gives (fun rounds => set scopes rounds a name value localOnly) (false, scopes)

theorem find_of_nearest (hb : nearest scopes l name = some b) : ∃ old, (scopes b).find name = some old :=
  have hsome : ((scopes b).find name).isSome = true := find?_some (p := fun b => ((scopes b).find name).isSome) hb
  isSome_iff_exists.mp hsome

theorem find_eq_none_of_nearest (hnone : nearest scopes l name = none) : ∀ b ∈ l, (scopes b).find name = none :=
  fun b hb => not_isSome_iff_eq_none.mp (find?_eq_none.mp hnone b hb)

theorem findSome?_of_nearest (hfound : ∀ c, found c = none ↔ (scopes c).find name = none) :
    l.findSome? found = (nearest scopes l name).bind found := by
  induction l with
  | nil => rfl
  | cons c l ih =>
    rw [nearest, List.find?_cons, List.findSome?_cons]
    cases hfind : (scopes c).find name with
    | none => rw [(hfound c).mpr hfind, ih, nearest, isSome_none]
    | some old =>
      obtain ⟨x, hx⟩ := ne_none_iff_exists'.mp fun heq => some_ne_none old (hfind.symm.trans ((hfound c).mp heq))
      rw [hx, isSome_some, bind_some, hx]

theorem lookup_of_nearest (h : Searched scopes a localOnly l)
    (hfound : ∀ c, found c = none ↔ (scopes c).find name = none) :
    Gives (fun rounds => lookup found missing scopes rounds a localOnly)
      (((nearest scopes l name).bind found).getD missing) :=
  findSome?_of_nearest hfound ▸ lookup_gives h

theorem has_gives (h : Searched scopes a localOnly l) (name : Bytes) :
    Gives (fun rounds => has scopes rounds a name localOnly) (nearest scopes l name).isSome := by
  have hvalue : ((nearest scopes l name).bind fun c => ((scopes c).find name).map fun _ => true).getD false =
      (nearest scopes l name).isSome := by
    cases hb : nearest scopes l name with
    | none => rfl
    | some b =>
      have ⟨old, hold⟩ := find_of_nearest hb
      rw [bind_some, hold]
      rfl
  exact hvalue ▸ lookup_of_nearest h fun _ => map_eq_none_iff

theorem get_gives (h : Searched scopes a localOnly l) (name : Bytes) :
    Gives (fun rounds => get scopes rounds a name localOnly)
      ((nearest scopes l name).bind fun b => (scopes b).find name) := by
  have hvalue : ((nearest scopes l name).bind fun c => ((scopes c).find name).map some).getD none =
      (nearest scopes l name).bind fun b => (scopes b).find name := by
    cases nearest scopes l name with
    | none => rfl
    | some b =>
      rw [bind_some, bind_some]
      cases (scopes b).find name <;> rfl
  exact hvalue ▸ lookup_of_nearest h fun _ => map_eq_none_iff

theorem set_gives (h : Searched scopes a localOnly l) (name : Bytes) (value : J) :
    Gives (fun rounds => set scopes rounds a name value localOnly)
      (((nearest scopes l name).bind fun b =>
        ((scopes b).setHere name value).map fun v => (true, update scopes b v)).getD (false, scopes)) := by
  refine lookup_of_nearest h fun c => map_eq_none_iff.trans ⟨fun hnone => ?_, fun hnone => ?_⟩
  · cases hfind : (scopes c).find name with
    | none => rfl
    | some old =>
      obtain ⟨_, hset, -⟩ := Variables.setHere_of_some hfind value
      cases hnone.symm.trans hset
  · exact Variables.setHere_of_none hnone value

theorem sets_update {v : Variables J} (hparent : v.parent = (scopes b).parent)
    (hfind : ∀ other, v.find other = if other = name then some value else (scopes b).find other) :
    Sets scopes (update scopes b v) b name value where
  others c hc := update_of_ne hc v scopes
  parent := by rw [update_self, hparent]
  find other := by rw [update_self, hfind]

theorem actsOnNearest (h : Searched scopes a localOnly l) (name : Bytes) :
    ActsOnNearest scopes a localOnly l name where
  found b hb := by
    have ⟨old, hold⟩ := find_of_nearest hb
    have hhas := has_gives h name
    have hget := get_gives h name
    rw [hb] at hhas hget
    refine ⟨old, hold, hhas, hold ▸ hget, fun value => ?_⟩
    obtain ⟨v, hv, hparent, hfind⟩ := Variables.setHere_of_some hold value
    have hset := set_gives h name value
    rw [hb, bind_some, hv] at hset
    exact ⟨update scopes b v, hset, sets_update hparent hfind⟩
  missing hnone := by
    have hhas := has_gives h name
    have hget := get_gives h name
    rw [hnone] at hhas hget
    refine ⟨find_eq_none_of_nearest hnone, hhas, hget, fun value => ?_⟩
    have hset := set_gives h name value
    rw [hnone] at hset
    exact hset

inductive Edit (J : Type)
  | define (name : Bytes) (initValue : J)
  | undefine (name : Bytes)
  | setLocal (name : Bytes) (newValue : J)

/-- The change is made. A `set` that only asks the object itself needs one round. -/
def edit (scopes : Scopes J) (a : VariablesId) : Edit J → Scopes J
  | .define name initValue => scopes.define a name initValue
  | .undefine name => scopes.undefine a name
  | .setLocal name newValue => ((scopes.set 1 a name newValue true).map (·.2)).getD scopes

def edits (scopes : Scopes J) (a : VariablesId) (es : List (Edit J)) : Scopes J := es.foldl (edit · a) scopes

/-- What a copy `a` of `b` is to be, for every number of rounds; the changes of `a` reach no lookup not through `a`. -/
structure Copied (scopes after : Scopes J) (a b : VariablesId) : Prop where
  kept : after b = scopes b
  has : ∀ rounds name localOnly, after.has rounds a name localOnly = after.has rounds b name localOnly
  get : ∀ rounds name localOnly, after.get rounds a name localOnly = after.get rounds b name localOnly
  hasBefore : ∀ rounds name localOnly answer, scopes.has rounds b name localOnly = some answer →
    after.has rounds a name localOnly = some answer
  getBefore : ∀ rounds name localOnly answer, scopes.get rounds b name localOnly = some answer →
    after.get rounds a name localOnly = some answer
  apart : ∀ es, edits after a es b = after b
  unaffected : ∀ es l rounds name localOnly, Searched after b localOnly l → a ∉ l →
    (edits after a es).has rounds b name localOnly = after.has rounds b name localOnly ∧
      (edits after a es).get rounds b name localOnly = after.get rounds b name localOnly

/-- The lookup of the name from the object `c` comes to the object `a`. -/
inductive Reaches (scopes : Scopes J) (name : Bytes) (a : VariablesId) : VariablesId → Prop
  | parent {c : VariablesId} : (scopes c).find name = none → (scopes c).parent = some a → Reaches scopes name a c
  | later {c p : VariablesId} : (scopes c).find name = none → (scopes c).parent = some p →
      Reaches scopes name a p → Reaches scopes name a c

/-- No lookup on `b` that ends comes to `a`. -/
def Clear (scopes : Scopes J) (a b : VariablesId) : Prop :=
  ∀ rounds name answer, scopes.has rounds b name false = some answer → ¬Reaches scopes name a b

theorem lookup_of_not_reaches (hfound : ∀ c, found c = none → (scopes c).find name = none)
    (hsame : ∀ c ≠ a, scopes' c = scopes c ∧ found' c = found c) (hne : c ≠ a) (hnot : ¬Reaches scopes name a c)
    (rounds : Nat) :
    lookup found' missing scopes' rounds c false = lookup found missing scopes rounds c false := by
  induction rounds generalizing c with
  | zero => rfl
  | succ rounds ih =>
    obtain ⟨hscope, hfound'⟩ := hsame c hne
    cases hparent : (scopes c).parent with
    | none => rw [lookup_outermost hparent, lookup_outermost (hscope ▸ hparent), hfound']
    | some p =>
      rw [lookup_enclosed hparent, lookup_enclosed (hscope ▸ hparent), hfound']
      cases hhere : found c with
      | some x => rfl
      | none =>
        refine ih (fun heq => ?_) fun hreaches => hnot (.later (hfound c hhere) hparent hreaches)
        exact hnot (.parent (hfound c hhere) (heq ▸ hparent))

theorem lookup_isSome {γ : Type} {found' : VariablesId → Option γ} {missing' : γ}
    (h : ∀ c, found c = none ↔ found' c = none) (rounds : Nat) (a : VariablesId) (localOnly : Bool) :
    (lookup found missing scopes rounds a localOnly).isSome =
      (lookup found' missing' scopes rounds a localOnly).isSome := by
  induction rounds generalizing a with
  | zero => rfl
  | succ rounds ih =>
    cases localOnly with
    | true => rw [lookup_own, lookup_own]; rfl
    | false =>
      cases hparent : (scopes a).parent with
      | none => rw [lookup_outermost hparent, lookup_outermost hparent]; rfl
      | some p =>
        rw [lookup_enclosed hparent, lookup_enclosed hparent]
        cases hhere : found a with
        | none =>
          rw [(h a).mp hhere]
          exact ih p
        | some x =>
          obtain ⟨y, hy⟩ := ne_none_iff_exists'.mp fun hnone => some_ne_none x (hhere.symm.trans ((h a).mpr hnone))
          rw [hy]
          rfl

theorem Reaches.exists_fewer (h : Reaches scopes name a c) {rounds : Nat} {answer : Bool}
    (hends : scopes.has rounds c name false = some answer) :
    ∃ fewer < rounds, scopes.has fewer a name false = some answer := by
  induction h generalizing rounds with
  | parent hfind hparent =>
    cases rounds with
    | zero => cases hends
    | succ rounds =>
      rw [Scopes.has, lookup_enclosed hparent, hfind] at hends
      exact ⟨rounds, Nat.lt_succ_self rounds, hends⟩
  | later hfind hparent _ ih =>
    cases rounds with
    | zero => cases hends
    | succ rounds =>
      rw [Scopes.has, lookup_enclosed hparent, hfind] at hends
      obtain ⟨fewer, hlt, hanswer⟩ := ih hends
      exact ⟨fewer, Nat.lt_succ_of_lt hlt, hanswer⟩

/-- An object that a lookup comes to again has no answer. -/
theorem Reaches.has_eq_none (h : Reaches scopes name a a) (rounds : Nat) : scopes.has rounds a name false = none := by
  induction rounds using Nat.strong_induction_on with
  | _ rounds ih =>
    by_contra hends
    obtain ⟨answer, hanswer⟩ := ne_none_iff_exists'.mp hends
    obtain ⟨fewer, hlt, hfewer⟩ := h.exists_fewer hanswer
    cases (ih fewer hlt).symm.trans hfewer

theorem Reaches.congr (h : Reaches scopes name a c) (hne : c ≠ a) (hsame : ∀ c ≠ a, scopes' c = scopes c) :
    Reaches scopes' name a c := by
  induction h with
  | parent hfind hparent => exact .parent (hsame _ hne ▸ hfind) (hsame _ hne ▸ hparent)
  | @later c p hfind hparent _ ih =>
    by_cases hp : p = a
    · exact .parent (hsame c hne ▸ hfind) (hsame c hne ▸ hp ▸ hparent)
    · exact .later (hsame c hne ▸ hfind) (hsame c hne ▸ hparent) (ih hp)

theorem Reaches.of_eq (h : Reaches scopes name a b) (heq : scopes c = scopes b) : Reaches scopes name a c := by
  cases h with
  | parent hfind hparent => exact .parent (heq ▸ hfind) (heq ▸ hparent)
  | later hfind hparent hlater => exact .later (heq ▸ hfind) (heq ▸ hparent) hlater

theorem edit_of_ne (hne : c ≠ a) (e : Edit J) : edit scopes a e c = scopes c := by
  cases e with
  | define name initValue => exact update_of_ne hne _ _
  | undefine name => exact update_of_ne hne _ _
  | setLocal name newValue =>
    rw [edit, set, lookup_own, map_some, getD_some]
    cases (scopes a).setHere name newValue with
    | none => rfl
    | some v => exact update_of_ne hne v scopes

theorem edits_of_ne (hne : c ≠ a) (es : List (Edit J)) : edits scopes a es c = scopes c := by
  induction es generalizing scopes with
  | nil => rfl
  | cons e es ih => exact ih.trans (edit_of_ne hne e)

theorem lookup_before {x : β}
    (hfound : ∀ c, found c = none → (scopes c).find name = none)
    (hsame : ∀ c ≠ a, scopes' c = scopes c ∧ found' c = found c) (hne : a ≠ b) (heq : scopes' a = scopes' b)
    (heq' : found' a = found' b) {rounds : Nat} (hclear : localOnly = false → ¬Reaches scopes name a b)
    (hends : lookup found missing scopes rounds b localOnly = some x) :
    lookup found' missing scopes' rounds a localOnly = some x := by
  rw [lookup_eq_of_eq heq heq', ← hends]
  cases localOnly with
  | true =>
    cases rounds with
    | zero => rfl
    | succ rounds => rw [lookup_own, lookup_own, (hsame b hne.symm).2]
  | false => exact lookup_of_not_reaches hfound hsame hne.symm (hclear rfl) rounds

theorem copied_iff_clear {after : Scopes J} (hne : a ≠ b) (hsame : ∀ c ≠ a, after c = scopes c)
    (heq : after a = after b) : Copied scopes after a b ↔ Clear scopes a b := by
  constructor
  · intro hcopied rounds name answer hends hreaches
    have hround : Reaches after name a a := (hreaches.congr hne.symm hsame).of_eq heq
    cases (hround.has_eq_none rounds).symm.trans (hcopied.hasBefore rounds name false answer hends)
  · intro hclear
    have hsame' : ∀ c ≠ a, ∀ name, (after c).find name = (scopes c).find name := fun c hc name => by rw [hsame c hc]
    refine ⟨hsame b hne.symm, fun rounds name localOnly => ?_, fun rounds name localOnly => ?_,
      fun rounds name localOnly answer hends => ?_, fun rounds name localOnly answer hends => ?_,
      edits_of_ne hne.symm, fun es l rounds name localOnly hsearched hnot => ?_⟩
    · exact lookup_eq_of_eq heq (by rw [heq]) rounds localOnly
    · exact lookup_eq_of_eq heq (by rw [heq]) rounds localOnly
    · refine lookup_before (fun c => map_eq_none_iff.mp) (fun c hc => ⟨hsame c hc, ?_⟩) hne heq (by rw [heq])
        (fun hlocal => hclear rounds name answer (hlocal ▸ hends)) hends
      rw [hsame' c hc]
    · refine lookup_before (fun c => map_eq_none_iff.mp) (fun c hc => ⟨hsame c hc, ?_⟩) hne heq (by rw [heq])
        (fun hlocal => ?_) hends
      · rw [hsame' c hc]
      · subst hlocal
        have hsome : (scopes.has rounds b name false).isSome = true := by
          rw [Scopes.has, lookup_isSome fun c => map_eq_none_iff.trans map_eq_none_iff.symm]
          exact isSome_of_eq_some hends
        obtain ⟨answer', hanswer⟩ := isSome_iff_exists.mp hsome
        exact hclear rounds name answer' hanswer
    · have hsame : ∀ c ∈ l, edits after a es c = after c := fun c hc => edits_of_ne (ne_of_mem_of_not_mem hc hnot) es
      exact ⟨lookup_congr hsearched hsame (fun c hc => by rw [hsame c hc]) rounds,
        lookup_congr hsearched hsame (fun c hc => by rw [hsame c hc]) rounds⟩

theorem not_copied (hne : a ≠ b) (hb : (scopes b).varMap = none) (ha : (scopes a).varMap = some map) :
    ¬Copied scopes (scopes.assign a b) a b := fun hcopied => by
  obtain ⟨name, hmem⟩ := (scopes a).notEmpty map ha
  obtain ⟨value, hvalue⟩ := isSome_iff_exists.mp (AList.lookup_isSome.mpr hmem)
  have hhas := hcopied.has 1 name true
  have hleft : (scopes.assign a b a).find name = some value := by
    rw [assign, if_pos hne, update_self, Variables.find, Variables.copy_of_none hb, ha]
    exact hvalue
  have hright : (scopes.assign a b b).find name = none := hcopied.kept ▸ Variables.find_eq_none hb
  rw [Scopes.has, Scopes.has, lookup_own, lookup_own, hleft, hright] at hhas
  cases hhas

theorem copied_construct_iff (scopes : Scopes J) (hne : a ≠ b) :
    Copied scopes (scopes.construct a b) a b ↔ Clear scopes a b := by
  have hsame : ∀ c ≠ a, scopes.construct a b c = scopes c := fun c hc => update_of_ne hc _ scopes
  refine copied_iff_clear hne hsame ?_
  rw [hsame b hne.symm, construct, update_self, Variables.copy_eq (.inr rfl)]

theorem copied_assign_iff (hne : a ≠ b) (h : (scopes b).varMap ≠ none ∨ (scopes a).varMap = none) :
    Copied scopes (scopes.assign a b) a b ↔ Clear scopes a b := by
  rw [assign, if_pos hne]
  have hsame : ∀ c ≠ a, update scopes a ((scopes a).copy (scopes b)) c = scopes c :=
    fun c hc => update_of_ne hc _ scopes
  refine copied_iff_clear hne hsame ?_
  rw [hsame b hne.symm, update_self, Variables.copy_eq h]

/-- Names mean what the nearest scope says. A copy is like its original just when no lookup on that which ends comes to
it, and for an assignment the original has a variable or the object had none. -/
theorem copied_iff (scopes : Scopes J) :
    (∀ a localOnly l name, Searched scopes a localOnly l → ActsOnNearest scopes a localOnly l name) ∧
      (∀ a b, a ≠ b → (Copied scopes (scopes.assign a b) a b ↔
        ((scopes b).varMap ≠ none ∨ (scopes a).varMap = none) ∧ Clear scopes a b)) ∧
      ∀ a b, a ≠ b → (Copied scopes (scopes.construct a b) a b ↔ Clear scopes a b) := by
  refine ⟨fun a localOnly l name h => actsOnNearest h name, fun a b hne => ⟨fun hcopied => ?_, ?_⟩,
    fun a b => copied_construct_iff scopes⟩
  · have hmap : (scopes b).varMap ≠ none ∨ (scopes a).varMap = none := by
      by_contra h
      rw [not_or, not_not] at h
      obtain ⟨map, hmap⟩ := Option.ne_none_iff_exists'.mp h.2
      exact not_copied hne h.1 hmap hcopied
    exact ⟨hmap, (copied_assign_iff hne hmap).mp hcopied⟩
  · rintro ⟨hmap, hclear⟩
    exact (copied_assign_iff hne hmap).mpr hclear

/-- The object 0 has the variable `x`, the object 1 has none. -/
def oneVariable : Scopes Nat := fun a => if a = 0 then (Variables.define {} [120] 7).2 else {}

theorem assign_empty_keeps : ¬Copied oneVariable (oneVariable.assign 0 1) 0 1 ∧
    (oneVariable.assign 0 1).has 1 0 [120] false = some true ∧
      (oneVariable.assign 0 1).has 1 1 [120] false = some false := by
  have hvariable : (oneVariable 0).varMap = some (AList.insert [120] 7 ∅) := rfl
  refine ⟨not_copied Nat.zero_ne_one rfl hvariable, ?_, ?_⟩
  · decide
  · decide

end Scopes

end Tbox.Util
