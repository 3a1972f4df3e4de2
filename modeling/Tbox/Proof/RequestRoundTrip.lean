import Tbox.Proof.ParserReads
import Tbox.Proof.UrlRoundTrip

/-!
# A request there and back

A new parser takes the text of a printed request, no more and no less, and yields that request with
its length among the headers.
-/

open List Option

namespace Tbox.Http

open Tbox.Lib Tbox.Lib.StdString
open Tbox.Util (stripSpaces)

variable {c : UInt8} {str line tail : Bytes} {head : Bytes × Bytes}
  {entries : List (Bytes × Bytes)} {req : Request}

theorem method_line {method : Method} (h : method ≠ .kUnset) : stringToMethod (methodToString method) = method ∧
      ∀ c ∈ methodToString method, c ≠ space ∧ c ≠ 13 := by
  have hplain : (methodToString method).all (fun c => c != space && c != 13) = true := by
    cases method <;> decide
  refine ⟨?_, fun c hc => ?_⟩
  · cases method <;> first | exact absurd rfl h | decide
  · simpa using List.all_eq_true.mp hplain c hc

theorem httpVer_line {ver : HttpVer} (h : ver ≠ .kUnset) :
    stringToHttpVer (httpVerToString ver) = ver ∧ 13 ∉ httpVerToString ver ∧
      (httpVerToString ver).dropWhile (· == space) = httpVerToString ver := by
  cases ver <;> first | exact absurd rfl h | decide

theorem not_mem_target {path : UrlPath} (hfrag : path.frag = []) (hc : c = space ∨ c = 13) :
    c ∉ urlPathToString path := by
  have hplain : c ≠ 37 ∧ c ∉ charToHex ∧ c ≠ 0 ∧ c ≠ 61 ∧ c ≠ 59 ∧ c ≠ 38 ∧ c ≠ 63 := by
    rcases hc with rfl | rfl <;> decide
  have hescaped : ∀ pathMode, isEscaped pathMode c = true := by
    rcases hc with rfl | rfl <;> decide
  obtain ⟨hpercent, hhex, hzero, hequals, hsemi, hamp, hmark⟩ := hplain
  have hencoded : ∀ str pathMode, c ∉ urlEncode str pathMode := fun str pathMode =>
    not_mem_urlEncode (hescaped pathMode) hpercent hhex hzero
  have hpair : ∀ item, c ∉ pairText item := by
    intro item
    simp [pairText, hencoded, hequals]
  have hparams : c ∉ delimited 59 (pairsPart 59 path.params.entries) := by
    rw [mem_delimited]
    rintro ⟨str, hstr, h | h⟩
    · exact hsemi h
    · exact not_mem_pairsPart hpair hsemi hstr h
  have hquery : c ∉ delimited 63 (pairsPart 38 path.query.entries) := by
    rw [mem_delimited]
    rintro ⟨str, hstr, h | h⟩
    · exact hmark h
    · exact not_mem_pairsPart hpair hamp hstr h
  rw [← text_printedParts]
  simp [printedParts, UrlParts.text, hfrag, hencoded, hparams, hquery]

theorem targetPath_urlPathToString {path : UrlPath} (hpath : path.path.head? = some 47)
    (hparams : [] ∉ path.params.keys) (hquery : [] ∉ path.query.keys) (hfrag : path.frag = []) :
    targetPath (urlPathToString path) = some path := by
  have hrestores : stringToUrlPath (urlPathToString path) {} = .ok (some path) := by
    apply (restores_iff hpath hparams hquery _ _).mpr
    · have hempty : ∀ key, key ∉ StringMap.empty.keys := fun _ => not_mem_nil
      refine ⟨fun key h => absurd h (hempty key), fun key h => absurd h (hempty key), ?_, fun _ => rfl⟩
      simp [hfrag]
    · simp [hfrag]
    · simp [hfrag]
  rw [targetPath, hrestores]

/-- A line break ends with another byte than it begins with, so a byte in front of one cannot make
it begin earlier. -/
theorem not_prefix_break {c : UInt8} (h : ¬crlf <:+: c :: line) : ¬crlf <+: c :: (line ++ crlf ++ tail) := by
  intro hbreak
  cases line with
  | nil => simp [crlf] at hbreak
  | cons d line =>
    apply h
    apply List.IsPrefix.isInfix
    simpa [crlf] using hbreak

theorem findSub_break (h : ¬crlf <:+: line) : findSub crlf (line ++ crlf ++ tail) = some line.length := by
  induction line with
  | nil => simp [crlf, findSub]
  | cons c line ih =>
    have hfirst : ¬crlf.isPrefixOf (c :: (line ++ crlf ++ tail)) = true := by
      rw [List.isPrefixOf_iff_prefix]
      exact not_prefix_break h
    have hrest : ¬crlf <:+: line := fun hline => h (hline.trans (suffix_cons c line).isInfix)
    rw [cons_append, cons_append, findSub_cons, if_neg hfirst, ih hrest]
    rfl

theorem cut_break (h : ¬crlf <:+: line) : cut crlf (line ++ crlf ++ tail) = some (line, tail) := by
  rw [cut, findSub_break h, map_some, some_inj]
  simp [crlf]

theorem infix_of_append {left right : Bytes} (hc : c ≠ 13 ∧ c ≠ 10)
    (h : crlf <:+: left ++ c :: right) : crlf <:+: left ∨ crlf <:+: right := by
  induction left with
  | nil =>
    rcases infix_cons_iff.mp h with hbegins | hinside
    · simp [crlf, hc.1.symm] at hbegins
    · exact .inr hinside
  | cons a left ih =>
    rcases infix_cons_iff.mp h with hbegins | hinside
    · left
      cases left with
      | nil => simp [crlf, hc.2.symm] at hbegins
      | cons b left =>
        apply List.IsPrefix.isInfix
        simpa [crlf] using hbegins
    · rcases ih hinside with hleft | hright
      · exact .inl (hleft.trans (suffix_cons a left).isInfix)
      · exact .inr hright

theorem headText_eq (head : Bytes × Bytes) : headText head = head.1 ++ 58 :: 32 :: head.2 := by
  have hcolon : bytes ": " = [58, 32] := by decide
  simp [headText, hcolon]

theorem not_break_headText (h : ¬crlf <:+: head.1) (h' : ¬crlf <:+: head.2) : ¬crlf <:+: headText head := by
  rw [headText_eq]
  intro hbreak
  rcases infix_of_append (by decide) hbreak with hkey | hrest
  · exact h hkey
  rw [← nil_append (32 :: head.2)] at hrest
  rcases infix_of_append (by decide) hrest with hnil | hvalue
  · simp [crlf] at hnil
  · exact h' hvalue

theorem dropWhile_headWord (h : str.head? ≠ some space) : str.dropWhile (· == space) = str := by
  cases str with
  | nil => rfl
  | cons c rest =>
    apply dropWhile_cons_of_neg
    simpa using h

theorem stripSpaces_headWord (h : IsHeadWord str) : stripSpaces str = str := by
  rw [stripSpaces, dropWhile_headWord h.no_lead, rdropWhile_eq_self_iff]
  intro hne hlast
  apply h.no_trail
  rw [List.getLast?_eq_getLast_of_ne_nil hne]
  simpa using hlast

theorem readHead_headText (h : IsHeadWord head.1) (hcolon : 58 ∉ head.1) (h' : IsHeadWord head.2) :
    readHead (headText head) = some head := by
  have hkey : ∀ c ∈ head.1, (c != 58) = true := by
    intro c hc
    simpa using fun heq : c = 58 => hcolon (heq ▸ hc)
  have hdrop : (headText head).dropWhile (· != 58) = 58 :: 32 :: head.2 := by
    rw [headText_eq, dropWhile_append_of_pos hkey, dropWhile_cons_of_neg (by decide)]
  have htake : (headText head).takeWhile (· != 58) = head.1 := by
    rw [headText_eq, takeWhile_append_of_pos hkey, takeWhile_cons_of_neg (by decide), append_nil]
  have hvalue : ((32 : UInt8) :: head.2).dropWhile (· == space) = head.2 := by
    rw [dropWhile_cons_of_pos (by decide), dropWhile_headWord h'.no_lead]
  rw [readHead, hdrop, htake]
  simp only [hvalue, if_neg h'.ne_nil, stripSpaces_headWord h, stripSpaces_headWord h']

theorem readHeads_line {key value : Bytes} {length length' : Option Nat} (hkey : IsHeadWord key)
    (hcolon : 58 ∉ key) (hvalue : IsHeadWord value) (hlength : readLength key value length = .ok length') :
    readHeads req length (headText (key, value) ++ crlf ++ tail) =
      readHeads (req.addHead key value) length' tail := by
  have hbreak : ¬crlf <:+: headText (key, value) := not_break_headText hkey.no_break hvalue.no_break
  have hne : headText (key, value) ≠ [] := by simp [headText_eq]
  have hhead : readHead (headText (key, value)) = some (key, value) := readHead_headText hkey hcolon hvalue
  rw [readHeads.eq_1, cut_break hbreak]
  simp only [if_neg hne, hhead, hlength]

theorem readHeads_entries (hheads : ∀ head ∈ entries, IsHeadWord head.1 ∧ 58 ∉ head.1 ∧
      IsHeadWord head.2 ∧ head.1 ≠ contentLengthKey) (length : Option Nat) :
    readHeads req length (entries.flatMap (fun head => headText head ++ crlf) ++ tail) =
      readHeads { req with headers := req.headers.setAll entries } length tail := by
  induction entries generalizing req with
  | nil => rfl
  | cons head rest ih =>
    obtain ⟨hkey, hcolon, hvalue, hne⟩ := hheads head mem_cons_self
    have hlength : readLength head.1 head.2 length = .ok length := if_neg hne
    rw [flatMap_cons, append_assoc, readHeads_line hkey hcolon hvalue hlength]
    exact ih fun other hother => hheads other (mem_cons_of_mem head hother)

theorem isHeadWord_contentLengthKey : IsHeadWord contentLengthKey := ⟨by decide, by decide, by decide, by decide⟩

theorem isHeadWord_decimalText (n : Nat) : IsHeadWord (decimalText n) := by
  have hdigit : ∀ c ∈ decimalText n, c ≠ space ∧ c ≠ 13 := by
    intro c hc
    have h := isDigit_of_mem_decimalText hc
    constructor <;> rintro rfl <;> revert h <;> decide
  refine ⟨decimalText_ne_nil n, ?_, ?_, ?_⟩
  · intro hbreak
    exact (hdigit 13 (hbreak.subset (by decide))).2 rfl
  · intro hhead
    exact (hdigit space (mem_of_head? hhead)).1 rfl
  · intro hlast
    exact (hdigit space (mem_of_getLast? hlast)).1 rfl

theorem readHeads_body {body : Bytes} (hbody : body.length < 2 ^ 31) :
    readHeads req none (headText (contentLengthKey, decimalText body.length) ++ crlf ++ (crlf ++ (body ++ tail))) =
      .complete { req.addHead contentLengthKey (decimalText body.length) with body } (some body.length) tail := by
  have hlength : readLength contentLengthKey (decimalText body.length) none =
      .ok (some body.length) := by
    rw [readLength, if_pos rfl, stoi_decimalText hbody, Except.map, lengthOf_toSizeT hbody]
  have hcut : cut crlf (crlf ++ (body ++ tail)) = some ([], body ++ tail) := cut_line not_mem_nil
  rw [readHeads_line isHeadWord_contentLengthKey (by decide) (isHeadWord_decimalText _) hlength, readHeads, hcut]
  simp [readBody]

theorem toString_append (req : Request) (tail : Bytes) : req.toString ++ tail =
    methodToString req.method ++ space :: (urlPathToString req.url ++ space :: httpVerToString req.httpVer) ++ crlf ++
        (req.headers.entries.flatMap (fun head => headText head ++ crlf) ++
          (headText (contentLengthKey, decimalText req.body.length) ++ crlf ++ (crlf ++ (req.body ++ tail)))) := by
  have hspace : bytes " " = [space] := by decide
  have hlength : bytes "Content-Length: " = contentLengthKey ++ bytes ": " := by decide
  simp only [Request.toString, headText, hspace, hlength, append_assoc, cons_append, nil_append]

theorem read_toString (h : req.Printable) (tail : Bytes) : readStart (req.toString ++ tail) =
    .complete req.withLength (some req.body.length) tail := by
  obtain ⟨hmethod, hplain⟩ := method_line h.method
  obtain ⟨hver, hbreak, hlead⟩ := httpVer_line h.httpVer
  have htarget : ∀ c, c = space ∨ c = 13 → c ∉ urlPathToString req.url := fun c hc => not_mem_target h.frag hc
  have hne : urlPathToString req.url ≠ [] := by
    intro hnil
    have hhead := head_urlPathToString h.path
    rw [hnil] at hhead
    cases hhead
  have hread : readTarget (space :: (urlPathToString req.url ++ space ::
      httpVerToString req.httpVer)) = some (req.url, req.httpVer) := by
    rw [readTarget_line hne (htarget space (.inl rfl)) hlead,
      targetPath_urlPathToString h.path h.params h.query h.frag, hver]
    exact if_neg h.httpVer
  have hline : 13 ∉ methodToString req.method ++ space ::
      (urlPathToString req.url ++ space :: httpVerToString req.httpVer) := by
    have hfirst : 13 ∉ methodToString req.method := fun hmem => (hplain 13 hmem).2 rfl
    have hspace : (13 : UInt8) ≠ space := by decide
    simp [hfirst, hspace, htarget 13 (.inr rfl), hbreak]
  have hentries : StringMap.empty.setAll req.headers.entries = req.headers :=
    StringMap.setAll_eq_iff.mpr fun _ hkey => absurd hkey not_mem_nil
  rw [toString_append, readStart_line (fun c hc => bne_iff_ne.mpr (hplain c hc).1) hline, hmethod,
    if_neg h.method, hread]
  simp only
  rw [readHeads_entries h.heads, readHeads_body h.body, hentries]
  rfl

theorem parse_of_complete {text : Bytes} {length : Option Nat} (h : readStart text = .complete req length tail) : ∃ p,
      RequestParser.parse {} text = .ok (text.length - tail.length, p) ∧
        p.state = .kFinishedAll ∧ p.request = some req := by
  have hmodels : RequestParser.Models {} .start := ⟨rfl, rfl⟩
  have hends := RequestParser.parse_ends hmodels text
  rw [Stage.read, h] at hends
  exact RequestParser.ends_complete hends

/-- **Round trip.** A new parser consumes exactly the text of a printable request, whatever follows
it, and yields the request with its length among the headers. -/
theorem parse_toString (h : req.Printable) (tail : Bytes) : ∃ p,
    RequestParser.parse {} (req.toString ++ tail) = .ok (req.toString.length, p) ∧
      p.state = .kFinishedAll ∧ p.request = some req.withLength := by
  have hparse := parse_of_complete (read_toString h tail)
  rwa [List.length_append, Nat.add_sub_cancel] at hparse

def searchRequest : Request where
  method := .kPost
  httpVer := .k1_1
  url := { path := bytes "/a b", query := StringMap.empty.set (bytes "k") (bytes "v&w") }
  headers := StringMap.empty.set (bytes "Host") (bytes "x: y")
  body := bytes "hi"

theorem searchRequest_printable : searchRequest.Printable := by
  refine ⟨by decide, by decide, by decide, by decide, by decide, by decide, ?_, by decide⟩
  intro head hhead
  obtain rfl : head = (bytes "Host", bytes "x: y") := mem_singleton.mp hhead
  exact ⟨⟨by decide, by decide, by decide, by decide⟩, by decide,
    ⟨by decide, by decide, by decide, by decide⟩, by decide⟩

theorem parse_searchRequest : ∃ p, RequestParser.parse {} (searchRequest.toString ++ bytes "GET") =
      .ok (searchRequest.toString.length, p) ∧
        p.state = .kFinishedAll ∧ p.request = some searchRequest.withLength :=
  parse_toString searchRequest_printable (bytes "GET")

end Tbox.Http
