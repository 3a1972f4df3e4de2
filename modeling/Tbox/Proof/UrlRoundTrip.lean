import Tbox.Http.StringMap
import Tbox.Proof.UrlCodec
import Tbox.Proof.UrlSplit

/-!
# A request target there and back

`UrlPathToString` encodes all its parts but the fragment, and `StringToUrlPath` decodes all of them into a target that
it does not clear.
-/

open List Option

namespace Tbox.Http

open Tbox.Lib Tbox.Lib.StdString
open Tbox.Util (split splitLoop split_joined)

variable {c sep : UInt8} {str : Bytes} {part : Option Bytes} {item : Bytes × Bytes}
  {entries : List (Bytes × Bytes)} {map result : StringMap} {path old : UrlPath}

theorem escaped_delimiter (pathMode : Bool) (hc : c ∈ [59, 63, 35, 38, 61]) : isEscaped pathMode c = true := by
  have hall : ∀ pathMode, ([59, 63, 35, 38, 61] : Bytes).all (isEscaped pathMode) = true := by
    decide
  exact List.all_eq_true.mp (hall pathMode) c hc

theorem delimiter_not_mem {pathMode : Bool} (hc : c ∈ [59, 63, 35, 38, 61]) : c ∉ urlEncode str pathMode := by
  have hplain : ([59, 63, 35, 38, 61] : Bytes).all
      (fun c => c != 37 && !charToHex.contains c && c != 0) = true := by
    decide
  have hc' := List.all_eq_true.mp hplain c hc
  simp only [Bool.and_eq_true, bne_iff_ne, Bool.not_eq_true', contains_eq_mem, decide_eq_false_iff_not] at hc'
  exact not_mem_urlEncode (escaped_delimiter pathMode hc) hc'.1.1 hc'.1.2 hc'.2

theorem delimiter_not_mem_pairText (hc : c ∈ [59, 63, 35, 38]) : c ∉ pairText item := by
  have hne : c ≠ 61 := by
    rintro rfl
    simp at hc
  have hmem : c ∈ ([59, 63, 35, 38, 61] : Bytes) := by
    simp only [mem_cons] at hc ⊢
    tauto
  rw [pairText, mem_append, mem_cons]
  simp [hne, delimiter_not_mem hmem]

def pairsPart (sep : UInt8) : List (Bytes × Bytes) → Option Bytes
  | [] => none
  | item :: rest => some (pairText item ++ (rest.map pairText).flatMap (sep :: ·))

theorem pairsPart_eq_none : pairsPart sep entries = none ↔ entries = [] := by
  cases entries <;> simp [pairsPart]

theorem not_mem_pairsPart (hpair : ∀ item, c ∉ pairText item) (hsep : c ≠ sep)
    (h : pairsPart sep entries = some str) : c ∉ str := by
  cases entries with
  | nil => cases h
  | cons item rest =>
    rw [pairsPart, some_inj] at h
    subst h
    simp only [mem_append, mem_flatMap, List.mem_map, mem_cons, not_or]
    refine ⟨hpair item, ?_⟩
    rintro ⟨_, ⟨other, _, rfl⟩, heq | hmem⟩
    · exact hsep heq
    · exact hpair other hmem

theorem delimiter_not_mem_pairsPart (hc : c ∈ [59, 63, 35, 38]) (hsep : c ≠ sep)
    (h : pairsPart sep entries = some str) : c ∉ str :=
  not_mem_pairsPart (fun _ => delimiter_not_mem_pairText hc) hsep h

theorem split_pairText (item : Bytes × Bytes) : split (pairText item) (bytes "=") =
    .ok [urlEncode item.1 false, urlEncode item.2 false] := by
  have hkey : (61 : UInt8) ∉ urlEncode item.1 false := delimiter_not_mem (by decide)
  have hvalue : (61 : UInt8) ∉ urlEncode item.2 false := delimiter_not_mem (by decide)
  have hsplit := split_joined hkey fun other hother => mem_singleton.mp hother ▸ hvalue
  have hsep : bytes "=" = [61] := by decide
  rw [hsep]
  simpa [pairText] using hsplit

theorem readPairs_map (hkeys : ∀ item ∈ entries, item.1 ≠ []) :
    readPairs (entries.map pairText) map = .ok (some (map.setAll entries)) := by
  induction entries generalizing map with
  | nil => rfl
  | cons item rest ih =>
    have hkey : urlEncode item.1 false ≠ [] := urlEncode_ne_nil (hkeys item mem_cons_self)
    rw [map_cons, readPairs, split_pairText]
    simp only [bind, Except.bind, if_neg hkey, urlDecode_urlEncode]
    exact ih fun other hother => hkeys other (mem_cons_of_mem item hother)

theorem readPairsPart_eq (hsep : sep = 59 ∨ sep = 38) (hkeys : ∀ item ∈ entries, item.1 ≠ []) :
    readPairsPart (pairsPart sep entries) [sep] map = .ok (some (map.setAll entries)) := by
  have hmem : sep ∈ ([59, 63, 35, 38] : Bytes) := by
    rcases hsep with rfl | rfl <;> decide
  cases entries with
  | nil => rfl
  | cons item rest =>
    have hsplit : split (pairText item ++ (rest.map pairText).flatMap (sep :: ·)) [sep] =
        .ok ((item :: rest).map pairText) := by
      apply split_joined (delimiter_not_mem_pairText hmem)
      intro other hother
      obtain ⟨later, -, rfl⟩ := List.mem_map.mp hother
      exact delimiter_not_mem_pairText hmem
    rw [pairsPart, readPairsPart, hsplit]
    exact readPairs_map hkeys

theorem length_lt_of_splitLoop {sep : Bytes} {fuel startPos : Nat} {strVec parts : List Bytes}
    (h : splitLoop str sep fuel startPos strVec = .ok parts) : strVec.length < parts.length := by
  induction fuel generalizing startPos strVec with
  | zero => cases h
  | succ fuel ih =>
    rw [splitLoop] at h
    cases hchip : substr str startPos (sizeSub (find str sep startPos) startPos) with
    | error e =>
      rw [hchip] at h
      cases h
    | ok strChip =>
      rw [hchip] at h
      simp only [bind, Except.bind] at h
      split at h
      · cases h
        simp
      · have hlt := ih h
        rw [length_append] at hlt
        omega

theorem readPairs_ne_empty {pairs : List Bytes} (h : readPairs pairs map = .ok (some result))
    (hsome : pairs ≠ [] ∨ map ≠ .empty) : result ≠ .empty := by
  induction pairs generalizing map with
  | nil =>
    cases h
    simpa using hsome
  | cons pairStr rest ih =>
    rw [readPairs] at h
    cases hsplit : split pairStr (bytes "=") with
    | error e =>
      rw [hsplit] at h
      cases h
    | ok kv =>
      rw [hsplit] at h
      simp only [bind, Except.bind] at h
      split at h
      · next key value =>
        split at h
        · cases h
        split at h
        · cases h
        split at h
        · cases h
        exact ih h (.inr (map.set_ne_empty _ _))
      · cases h

theorem readPairsPart_ne_empty {sep : Bytes} (h : readPairsPart part sep map = .ok (some result))
    (hsome : part ≠ none) : result ≠ .empty := by
  obtain ⟨str, rfl⟩ := ne_none_iff_exists'.mp hsome
  rw [readPairsPart] at h
  cases hsplit : split str sep with
  | error e =>
    rw [hsplit] at h
    cases h
  | ok pairs =>
    rw [hsplit] at h
    have hlt := length_lt_of_splitLoop hsplit
    apply readPairs_ne_empty h
    exact .inl (ne_nil_of_length_pos hlt)

def printedParts (path : UrlPath) : UrlParts where
  path := urlEncode path.path true
  params := pairsPart 59 path.params.entries
  query := pairsPart 38 path.query.entries
  frag := if path.frag = [] then none else some path.frag

theorem queryText_true (entries : List (Bytes × Bytes)) :
    queryText true entries = (entries.map pairText).flatMap (38 :: ·) := by
  induction entries with
  | nil => rfl
  | cons item rest ih => simp [queryText, ih]

theorem delimited_params (entries : List (Bytes × Bytes)) :
    delimited 59 (pairsPart 59 entries) = entries.flatMap fun item => 59 :: pairText item := by
  cases entries with
  | nil => rfl
  | cons item rest => simp [pairsPart, flatMap_map]

theorem delimited_query (entries : List (Bytes × Bytes)) : delimited 63 (pairsPart 38 entries) =
      if entries = [] then [] else 63 :: queryText false entries := by
  cases entries with
  | nil => rfl
  | cons item rest => simp [pairsPart, queryText, queryText_true]

theorem text_printedParts (path : UrlPath) : (printedParts path).text = urlPathToString path := by
  simp only [printedParts, UrlParts.text, delimited_params, delimited_query, urlPathToString]
  split_ifs <;> simp

theorem printedParts_wellFormed (path : UrlPath) : (printedParts path).WellFormed where
  path := by
    refine ⟨?_, ?_, ?_⟩ <;> exact delimiter_not_mem (by decide)
  params str h := by
    constructor <;> exact delimiter_not_mem_pairsPart (by decide) (by decide) h
  query str h := delimiter_not_mem_pairsPart (by decide) (by decide) h

theorem head_urlPathToString (hpath : path.path.head? = some 47) : (urlPathToString path).head? = some 47 := by
  obtain ⟨rest, hrest⟩ := List.head?_eq_some_iff.mp hpath
  have hslash : encodeChar true 47 = [47] := by decide
  rw [urlPathToString, hrest, urlEncode, flatMap_cons, hslash]
  rfl

theorem readParts_eq_some {parts : UrlParts} : readParts parts old = .ok (some path) ↔
    urlDecode parts.path = .ok path.path ∧
      readPairsPart parts.params (bytes ";") old.params = .ok (some path.params) ∧
        readPairsPart parts.query (bytes "&") old.query = .ok (some path.query) ∧
          readFragPart parts.frag old.frag = .ok path.frag := by
  obtain ⟨pathText, params, query, frag⟩ := path
  rw [readParts]
  cases urlDecode parts.path with
  | error e => simp [bind, Except.bind]
  | ok pathText' =>
    cases readPairsPart parts.params (bytes ";") old.params with
    | error e => simp [bind, Except.bind]
    | ok params' =>
      cases params' with
      | none => simp [bind, Except.bind, pure, Except.pure]
      | some params' =>
        cases readPairsPart parts.query (bytes "&") old.query with
        | error e => simp [bind, Except.bind]
        | ok query' =>
          cases query' with
          | none => simp [bind, Except.bind, pure, Except.pure]
          | some query' =>
            cases readFragPart parts.frag old.frag with
            | error e => simp [bind, Except.bind]
            | ok frag' => simp [bind, Except.bind, pure, Except.pure]

/-- What printing and parsing keep of a path, in a target that may have been used before. -/
structure Restorable (path old : UrlPath) : Prop where
  plain : 37 ∉ path.frag
  semi : 59 ∈ path.frag → path.params ≠ .empty
  query : 63 ∈ path.frag → path.query ≠ .empty
  oldParams : ∀ key ∈ old.params.keys, key ∈ path.params.keys
  oldQuery : ∀ key ∈ old.query.keys, key ∈ path.query.keys
  oldFrag : path.frag = [] → old.frag = []

theorem readFragPart_eq (old frag : Bytes) : readFragPart (if frag = [] then none else some frag) old = .ok frag ↔
      37 ∉ frag ∧ (frag = [] → old = []) := by
  by_cases hfrag : frag = []
  · simp [hfrag, readFragPart]
  · simp [hfrag, readFragPart, urlDecode_eq_self]

theorem mem_delimited_frag (hc : c ≠ 35) (frag : Bytes) :
    c ∈ delimited 35 (if frag = [] then none else some frag) ↔ c ∈ frag := by
  by_cases hfrag : frag = []
  · simp [hfrag]
  · rw [if_neg hfrag, delimited_some, mem_cons]
    exact or_iff_right hc

theorem semi_mem_iff (hparams : (printedParts path).params = none) :
    59 ∈ (printedParts path).text ↔ 59 ∈ path.frag := by
  have hpath : (59 : UInt8) ∉ (printedParts path).path := delimiter_not_mem (by decide)
  have hquery : (59 : UInt8) ∉ delimited 63 (printedParts path).query := by
    rw [mem_delimited]
    rintro ⟨str, hstr, h | h⟩
    · cases h
    · exact delimiter_not_mem_pairsPart (by decide) (by decide) hstr h
  have hfrag := mem_delimited_frag (c := 59) (by decide) path.frag
  rw [UrlParts.text, hparams, delimited_none, nil_append, mem_append, mem_append]
  exact (or_iff_right hpath).trans ((or_iff_right hquery).trans hfrag)

theorem query_mem_iff (hquery : (printedParts path).query = none) :
    63 ∈ (printedParts path).text ↔ 63 ∈ path.frag := by
  have hpath : (63 : UInt8) ∉ (printedParts path).path := delimiter_not_mem (by decide)
  have hparams : (63 : UInt8) ∉ delimited 59 (printedParts path).params := by
    rw [mem_delimited]
    rintro ⟨str, hstr, h | h⟩
    · cases h
    · exact delimiter_not_mem_pairsPart (by decide) (by decide) hstr h
  have hfrag := mem_delimited_frag (c := 63) (by decide) path.frag
  rw [UrlParts.text, hquery, delimited_none, nil_append, mem_append, mem_append]
  exact (or_iff_right hpath).trans ((or_iff_right hparams).trans hfrag)

theorem printed_params : (printedParts path).params = none ↔ path.params = .empty :=
  pairsPart_eq_none.trans StringMap.entries_eq_nil

theorem printed_query : (printedParts path).query = none ↔ path.query = .empty :=
  pairsPart_eq_none.trans StringMap.entries_eq_nil

theorem restores_iff (hpath : path.path.head? = some 47) (hparams : [] ∉ path.params.keys)
    (hquery : [] ∉ path.query.keys) (hsemi : 59 ∈ path.frag → path.params ≠ .empty)
    (hmark : 63 ∈ path.frag → path.query ≠ .empty) : stringToUrlPath (urlPathToString path) old = .ok (some path) ↔
      (∀ key ∈ old.params.keys, key ∈ path.params.keys) ∧ (∀ key ∈ old.query.keys, key ∈ path.query.keys) ∧
          37 ∉ path.frag ∧ (path.frag = [] → old.frag = []) := by
  have hkeys : ∀ map : StringMap, [] ∉ map.keys → ∀ item ∈ map.entries, item.1 ≠ [] := by
    intro map hmap item hitem hnil
    exact hmap (hnil ▸ List.mem_map_of_mem hitem)
  have htaken : takenParts (printedParts path).text = printedParts path := by
    apply takenParts_text (printedParts_wellFormed path)
    · intro hnone
      rw [semi_mem_iff hnone]
      exact fun hmem => hsemi hmem (printed_params.mp hnone)
    · intro hnone
      rw [query_mem_iff hnone]
      exact fun hmem => hmark hmem (printed_query.mp hnone)
  rw [stringToUrlPath_eq (head_urlPathToString hpath), caught_eq_some, ← text_printedParts, htaken, readParts_eq_some]
  have hsemiSep : bytes ";" = [59] := by decide
  have hampSep : bytes "&" = [38] := by decide
  simp only [printedParts, hsemiSep, hampSep]
  rw [readPairsPart_eq (.inl rfl) (hkeys _ hparams), readPairsPart_eq (.inr rfl) (hkeys _ hquery),
    readFragPart_eq, urlDecode_urlEncode]
  simp only [true_and, Except.ok.injEq, some.injEq, StringMap.setAll_eq_iff]

/-- **Round trip.** Decoding undoes encoding, and a printed path is restored exactly when the fragment bears it and the
target holds nothing else. -/
theorem roundTrip_iff (hpath : path.path.head? = some 47) (hparams : [] ∉ path.params.keys)
    (hquery : [] ∉ path.query.keys) (old : UrlPath) :
    ((∀ str pathMode, urlDecode (urlEncode str pathMode) = .ok str) ∧
      stringToUrlPath (urlPathToString path) old = .ok (some path)) ↔ Restorable path old := by
  rw [and_iff_right urlDecode_urlEncode]
  constructor
  · intro h
    have hparts := h
    rw [stringToUrlPath_eq (head_urlPathToString hpath), caught_eq_some, readParts_eq_some] at hparts
    obtain ⟨-, hparamsPart, hqueryPart, -⟩ := hparts
    have hsemi : 59 ∈ path.frag → path.params ≠ .empty := by
      intro hmem hempty
      have htext := (semi_mem_iff (printed_params.mpr hempty)).mpr hmem
      rw [text_printedParts] at htext
      exact readPairsPart_ne_empty hparamsPart (fun hnone => params_eq_none.mp hnone htext) hempty
    have hmark : 63 ∈ path.frag → path.query ≠ .empty := by
      intro hmem hempty
      have htext := (query_mem_iff (printed_query.mpr hempty)).mpr hmem
      rw [text_printedParts] at htext
      exact readPairsPart_ne_empty hqueryPart (fun hnone => query_eq_none.mp hnone htext) hempty
    obtain ⟨holdParams, holdQuery, hplain, holdFrag⟩ :=
      (restores_iff hpath hparams hquery hsemi hmark).mp h
    exact ⟨hplain, hsemi, hmark, holdParams, holdQuery, holdFrag⟩
  · intro h
    apply (restores_iff hpath hparams hquery h.semi h.query).mpr
    exact ⟨h.oldParams, h.oldQuery, h.plain, h.oldFrag⟩

theorem roundTrip_search :
    (∀ str pathMode, urlDecode (urlEncode str pathMode) = .ok str) ∧
      stringToUrlPath (urlPathToString { path := bytes "/a b", query := StringMap.empty.set (bytes "q") [] })
        {} = .ok (some { path := bytes "/a b", query := StringMap.empty.set (bytes "q") [] }) :=
  (roundTrip_iff (by decide) (by decide) (by decide) {}).mpr
    ⟨by decide, by decide, by decide, by decide, by decide, by decide⟩

/-- The fragment is decoded without having been encoded. -/
theorem fragment_not_restored : (bytes "/").head? = some 47 ∧
    stringToUrlPath (urlPathToString { path := bytes "/", frag := bytes "100%25" }) {} =
      .ok (some { path := bytes "/", frag := bytes "100%" }) ∧
    ¬((∀ str pathMode, urlDecode (urlEncode str pathMode) = .ok str) ∧
      stringToUrlPath (urlPathToString { path := bytes "/", frag := bytes "100%25" }) {} =
        .ok (some { path := bytes "/", frag := bytes "100%25" })) := by
  refine ⟨by decide, by decide, fun h => ?_⟩
  have hne : stringToUrlPath (urlPathToString { path := bytes "/", frag := bytes "100%25" }) {} ≠
      .ok (some { path := bytes "/", frag := bytes "100%25" }) := by
    decide
  exact hne h.2

end Tbox.Http
