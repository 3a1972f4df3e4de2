import Tbox.Http.Url
import Tbox.Lib.Delimited

/-!
# Where a request target is split

`StringToUrlPath` looks for the three delimiters in the whole text. It splits as the grammar does
exactly when the delimiters stand in the order that it takes for granted.
-/

open Option
open List (append_assoc append_nil mem_append)

namespace Tbox.Http

/-! ### The parts of a request target

`<path>;<params>?<query>#<frag>`: the parts that the grammar finds in a text, and those that
`StringToUrlPath` takes from it. `readParts` is what the conversion does with its parts. -/

section UrlParts

open Tbox.Lib Tbox.Lib.StdString
open Tbox.Util (split)

structure UrlParts where
  path : Bytes
  params : Option Bytes
  query : Option Bytes
  frag : Option Bytes
  deriving DecidableEq

namespace UrlParts

/-- The text that the parts make up. -/
def text (parts : UrlParts) : Bytes :=
  parts.path ++ (delimited 59 parts.params ++
    (delimited 63 parts.query ++ delimited 35 parts.frag))

structure WellFormed (parts : UrlParts) : Prop where
  path : 59 ∉ parts.path ∧ 63 ∉ parts.path ∧ 35 ∉ parts.path
  params : ∀ str, parts.params = some str → 63 ∉ str ∧ 35 ∉ str
  query : ∀ str, parts.query = some str → 35 ∉ str

end UrlParts

/-- The fragment after the first `#`, the query after the first `?` before it, and the parameters
after the first `;` before that. -/
def grammarParts (str : Bytes) : UrlParts :=
  let (str, frag) := cutOff 35 str
  let (str, query) := cutOff 63 str
  let (path, params) := cutOff 59 str
  { path, params, query, frag }

/-- The substrings that `StringToUrlPath` takes. -/
def takenParts (str : Bytes) : UrlParts :=
  let semiPos := findFirstOf str 59 0
  let queryPos := findFirstOf str 63 0
  let poundPos := findFirstOf str 35 0
  { path := between str 0 (semiPos <|> queryPos <|> poundPos)
    params := semiPos.map fun semiPos => between str (semiPos + 1) (queryPos <|> poundPos)
    query := queryPos.map fun queryPos => between str (queryPos + 1) poundPos
    frag := poundPos.map fun poundPos => between str (poundPos + 1) none }

def readPairsPart (part : Option Bytes) (sep : Bytes) (map : StringMap) :
    Except Fault (Option StringMap) :=
  match part with
  | none => .ok (some map)
  | some pairsStr => do readPairs (← split pairsStr sep) map

def readFragPart (part : Option Bytes) (frag : Bytes) : Except Fault Bytes :=
  match part with
  | none => .ok frag
  | some str => urlDecode str

/-- The conversion of given parts, into a target. -/
def readParts (parts : UrlParts) (path : UrlPath) : Except Fault (Option UrlPath) := do
  let pathText ← urlDecode parts.path
  match ← readPairsPart parts.params (bytes ";") path.params with
  | none => return none
  | some params =>
    match ← readPairsPart parts.query (bytes "&") path.query with
    | none => return none
    | some query =>
      let frag ← readFragPart parts.frag path.frag
      return some { path := pathText, params, query, frag }

/-- The first `;` stands before every `?` and `#`, and the first `?` before every `#`. -/
def Ordered (str : Bytes) : Prop :=
  (59 ∈ str → 59 ∈ str.takeWhile fun c => c != 63 && c != 35) ∧
    (63 ∈ str → 63 ∈ str.takeWhile (· != 35))

end UrlParts

open Tbox.Lib Tbox.Lib.StdString
open Tbox.Util (split)

variable {str : Bytes} {parts : UrlParts}

theorem substr_eq_between {start : Nat} (hstart : start ≤ str.length) (stop : Option Nat) :
    substr str start (sizeSub stop start) = .ok (between str start stop) := by
  have hin : ¬str.length < start := Nat.not_lt.mpr hstart
  rw [between]
  cases sizeSub stop start with
  | none => exact if_neg hin
  | some count => exact if_neg hin

theorem lt_length_of_findFirstOf {c : UInt8} {pos : Nat} (h : findFirstOf str c 0 = some pos) :
    pos < str.length := (findFirstOf_spec h).2.1

theorem readPairList_eq {sep : Bytes} {startPos : Option Nat} (endPos : Option Nat) (map : StringMap)
    (hstart : ∀ pos, startPos = some pos → pos < str.length) : readPairList str sep startPos endPos map =
      readPairsPart (startPos.map fun pos => between str (pos + 1) endPos) sep map := by
  cases startPos with
  | none => rfl
  | some pos =>
    rw [readPairList, substr_eq_between (hstart pos rfl)]
    rfl

theorem readFrag_eq (poundPos : Option Nat) (frag : Bytes) (hpound : ∀ pos, poundPos = some pos → pos < str.length) :
    readFrag str poundPos frag = readFragPart (poundPos.map fun pos => between str (pos + 1) none) frag := by
  cases poundPos with
  | none => rfl
  | some pos =>
    have hsubstr := substr_eq_between (hpound pos rfl) none
    rw [readFrag]
    simp only [sizeSub, bind_none] at hsubstr
    rw [hsubstr]
    rfl

theorem stringToUrlPath_eq (hstr : str.head? = some 47) (path : UrlPath) :
    stringToUrlPath str path = caught (readParts (takenParts str) path) := by
  have hpath := substr_eq_between (Nat.zero_le str.length)
    (findFirstOf str 59 0 <|> findFirstOf str 63 0 <|> findFirstOf str 35 0)
  have hsize : ∀ stop : Option Nat, sizeSub stop 0 = stop := by
    intro stop
    cases stop <;> simp [sizeSub]
  rw [hsize] at hpath
  rw [stringToUrlPath, if_neg (not_not.mpr hstr)]
  simp only [readParts, takenParts]
  rw [hpath]
  simp only [readPairList_eq _ _ fun _ h => lt_length_of_findFirstOf h,
    readFrag_eq _ _ fun _ h => lt_length_of_findFirstOf h]
  rfl

theorem grammarParts_spec (str : Bytes) : (grammarParts str).WellFormed ∧ (grammarParts str).text = str := by
  obtain ⟨hpound, hstr⟩ := cutOff_spec 35 str
  obtain ⟨hquery, hbefore⟩ := cutOff_spec 63 (cutOff 35 str).1
  obtain ⟨hsemi, hfirst⟩ := cutOff_spec 59 (cutOff 63 (cutOff 35 str).1).1
  have htext : (grammarParts str).text = str := by
    calc
      (grammarParts str).text = ((cutOff 63 (cutOff 35 str).1).1 ++
          delimited 63 (cutOff 63 (cutOff 35 str).1).2) ++ delimited 35 (cutOff 35 str).2 := by
        conv_rhs => rw [hfirst]
        simp [grammarParts, UrlParts.text]
      _ = (cutOff 35 str).1 ++ delimited 35 (cutOff 35 str).2 := by rw [← hbefore]
      _ = str := hstr.symm
  rw [hbefore, mem_append, not_or] at hpound
  obtain ⟨hpoundFirst, hpoundQuery⟩ := hpound
  rw [hfirst, mem_append, not_or] at hpoundFirst hquery
  refine ⟨⟨⟨hsemi, hquery.1, hpoundFirst.1⟩, ?_, ?_⟩, htext⟩
  · intro params hparams
    have hmem : ∀ c, c ∈ params → c ∈ delimited 59 (grammarParts str).params := fun c hc =>
      mem_delimited.mpr ⟨params, hparams, .inr hc⟩
    exact ⟨fun h => hquery.2 (hmem 63 h), fun h => hpoundFirst.2 (hmem 35 h)⟩
  · intro query hq h
    exact hpoundQuery (mem_delimited.mpr ⟨query, hq, .inr h⟩)

section Positions

variable (hparts : parts.WellFormed)

include hparts

theorem find_semi (hsemi : parts.params = none → 59 ∉ parts.text) :
    findFirstOf parts.text 59 0 = parts.params.map fun _ => parts.path.length := by
  apply findFirstOf_delimited hparts.path.1
  intro hnone
  have h := hsemi hnone
  simp only [UrlParts.text, hnone, delimited_none, mem_append, not_or] at h
  simpa using h.2

theorem find_query (hquery : parts.query = none → 63 ∉ parts.text) : findFirstOf parts.text 63 0 =
      parts.query.map fun _ => (parts.path ++ delimited 59 parts.params).length := by
  rw [UrlParts.text, ← append_assoc]
  apply findFirstOf_delimited
  · rw [mem_append, mem_delimited]
    rintro (h | ⟨params, hparams, h | h⟩)
    · exact hparts.path.2.1 h
    · cases h
    · exact (hparts.params params hparams).1 h
  · intro hnone
    have h := hquery hnone
    simp only [UrlParts.text, mem_append, not_or] at h
    exact h.2.2.2

theorem find_pound : findFirstOf parts.text 35 0 = parts.frag.map fun _ =>
    (parts.path ++ delimited 59 parts.params ++ delimited 63 parts.query).length := by
  have htext : parts.text = parts.path ++ delimited 59 parts.params ++
      delimited 63 parts.query ++ (delimited 35 parts.frag ++ []) := by
    simp [UrlParts.text]
  rw [htext]
  apply findFirstOf_delimited
  · rw [mem_append, mem_append, mem_delimited, mem_delimited]
    rintro ((h | ⟨params, hparams, h | h⟩) | ⟨query, hquery, h | h⟩)
    · exact hparts.path.2.2 h
    · cases h
    · exact (hparts.params params hparams).2 h
    · cases h
    · exact hparts.query query hquery h
  · simp

end Positions

theorem takenParts_text (hparts : parts.WellFormed) (hsemi : parts.params = none → 59 ∉ parts.text)
    (hquery : parts.query = none → 63 ∉ parts.text) : takenParts parts.text = parts := by
  simp only [takenParts, find_semi hparts hsemi, find_query hparts hquery, find_pound hparts]
  obtain ⟨path, params, query, frag⟩ := parts
  simp only [UrlParts.text, UrlParts.mk.injEq]
  refine ⟨?_, ?_, ?_, ?_⟩
  · change between ([] ++ (path ++ _)) 0 _ = path
    apply between_append
    · rfl
    · cases params <;> cases query <;> cases frag <;> simp
  · cases params with
    | none => rfl
    | some params =>
      rw [map_some, map_some, some_inj]
      apply between_delimited rfl
      cases query <;> cases frag <;> simp <;> omega
  · cases query with
    | none => rfl
    | some query =>
      rw [map_some, map_some, some_inj, ← append_assoc]
      apply between_delimited rfl
      cases frag
      · simp
      · simp
        omega
  · cases frag with
    | none => rfl
    | some frag =>
      rw [map_some, map_some, some_inj, ← append_assoc, ← append_assoc, ← append_nil (delimited 35 (some frag))]
      apply between_delimited rfl
      exact .inr ⟨rfl, rfl⟩

theorem params_eq_none : (takenParts str).params = none ↔ 59 ∉ str := by
  rw [takenParts, map_eq_none_iff, findFirstOf_eq_none_iff]

theorem query_eq_none : (takenParts str).query = none ↔ 63 ∉ str := by
  rw [takenParts, map_eq_none_iff, findFirstOf_eq_none_iff]

theorem takenParts_eq_iff : takenParts str = grammarParts str ↔ ((grammarParts str).params = none → 59 ∉ str) ∧
      ((grammarParts str).query = none → 63 ∉ str) := by
  obtain ⟨hparts, htext⟩ := grammarParts_spec str
  constructor
  · intro h
    rw [← h]
    exact ⟨params_eq_none.mp, query_eq_none.mp⟩
  · rintro ⟨hsemi, hquery⟩
    have htaken := takenParts_text hparts (by rwa [htext]) (by rwa [htext])
    rwa [htext] at htaken

/-- **Splitting.** The conversion works on the parts that it takes, and these are the parts of the
grammar exactly when the delimiters stand in order. -/
theorem splits_iff (hstr : str.head? = some 47) :
    (∀ path, stringToUrlPath str path = caught (readParts (takenParts str) path)) ∧
      (takenParts str = grammarParts str ↔ Ordered str) := by
  refine ⟨stringToUrlPath_eq hstr, takenParts_eq_iff.trans ?_⟩
  have hparams : (grammarParts str).params = none ↔
      59 ∉ str.takeWhile fun c => c != 63 && c != 35 := by
    rw [grammarParts, cutOff_snd, cutOff_fst, cutOff_fst, List.takeWhile_takeWhile]
    simp [bne, beq_eq_decide]
  have hquery : (grammarParts str).query = none ↔ 63 ∉ str.takeWhile (· != 35) := by
    rw [grammarParts, cutOff_snd, cutOff_fst]
  rw [hparams, hquery, not_imp_not, not_imp_not]
  rfl

theorem splits_whole : takenParts (bytes "/a;b=1?c=2#d") = grammarParts (bytes "/a;b=1?c=2#d") :=
  (splits_iff (by decide)).2.mpr ⟨fun _ => by decide, fun _ => by decide⟩

/-- A `;` of the fragment ends the path. -/
theorem fragment_ends_path : (bytes "/a#x;y=1").head? = some 47 ∧
    takenParts (bytes "/a#x;y=1") ≠ grammarParts (bytes "/a#x;y=1") ∧
    (stringToUrlPath (bytes "/a#x;y=1") {}).map (·.map (·.path)) = .ok (some (bytes "/a#x")) := by
  decide

end Tbox.Http
