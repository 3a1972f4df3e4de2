import Tbox.Http.RequestText

/-!
# The parser reads line by line

`RequestParser.parse` searches for its delimiters in all the bytes there are. Here every search is
shown to stay within the line it is about, so that `parse` reads the text as `Stage.read` does.
-/

open List Option

namespace Tbox.Http

open Tbox.Lib Tbox.Lib.StdString
open Tbox.Util (dropWhile_word strip_eq)

namespace RequestParser

section StartLine

variable {line tail : Bytes} {pos : Nat}

theorem parseVersion_none {str : Bytes} {urlStrEnd : Option Nat} {endPos : Nat}
    (h : ∀ pos ∈ urlStrEnd, endPos ≤ pos) : parseVersion str urlStrEnd endPos = .ok none := by
  rw [parseVersion]
  cases hfind : urlStrEnd.bind (findFirstNotOf str space) with
  | none => rfl
  | some verStrBegin =>
    obtain ⟨pos, hpos, hversion⟩ := bind_eq_some_iff.mp hfind
    exact if_pos ((h pos hpos).trans (findFrom_spec hversion).1)

theorem take_version {str : Bytes} (h : stringToHttpVer str ≠ .kUnset) : str.take 5 = bytes "HTTP/" := by
  rw [stringToHttpVer] at h
  cases hfind : httpVerMap.find? fun item => item.2 == str with
  | none =>
    rw [hfind] at h
    exact absurd rfl h
  | some item =>
    obtain rfl : item.2 = str := by simpa using find?_some hfind
    have htable : ∀ item ∈ httpVerMap, item.2.take 5 = bytes "HTTP/" := by decide
    exact htable item (List.mem_of_find?_eq_some hfind)

theorem parseVersion_eq (tail : Bytes) (hpos : pos ≤ line.length) :
    parseVersion (line ++ tail) (some pos) line.length =
      .ok (if stringToHttpVer ((line.drop pos).dropWhile (· == space)) = .kUnset then none
        else some (stringToHttpVer ((line.drop pos).dropWhile (· == space)))) := by
  rw [parseVersion, bind_some]
  cases hline : findFirstNotOf line space pos with
  | none =>
    rw [findFirstNotOf_eq_none hline, if_pos (by decide)]
    cases hfind : findFirstNotOf (line ++ tail) space pos with
    | none => rfl
    | some i => exact if_pos (le_of_findFrom_append hpos hline hfind)
  | some verStrBegin =>
    obtain ⟨-, hlt, hdrop⟩ := findFirstNotOf_spec hline
    have hfind : findFirstNotOf (line ++ tail) space pos = some verStrBegin := findFrom_append_of_some hline
    rw [hfind]
    simp only [if_neg (Nat.not_le.mpr hlt)]
    rw [substr_append (by omega), ← length_drop, take_length, hdrop]
    simp only [bind, Except.bind]
    split
    · next hversion =>
      rw [if_pos]
      · rfl
      · by_contra hset
        exact hversion (take_version hset)
    · split <;> rfl

/-- The target is read from the line alone, whatever comes behind it. -/
theorem parseTarget_eq (tail : Bytes) (hpos : pos ≤ line.length) :
    match readTarget (line.drop pos) with
    | some (url, httpVer) => ∃ urlStrEnd,
        parseUrl (line ++ tail) (some pos) line.length {} = .ok (some (url, urlStrEnd)) ∧
        parseVersion (line ++ tail) urlStrEnd line.length = .ok (some httpVer)
    | none => parseUrl (line ++ tail) (some pos) line.length {} = .ok none ∨ ∃ url urlStrEnd,
          parseUrl (line ++ tail) (some pos) line.length {} = .ok (some (url, urlStrEnd)) ∧
          parseVersion (line ++ tail) urlStrEnd line.length = .ok none := by
  rw [readTarget, parseUrl, bind_some]
  cases hline : findFirstNotOf line space pos with
  | none =>
    rw [findFirstNotOf_eq_none hline]
    refine .inl ?_
    cases hfind : findFirstNotOf (line ++ tail) space pos with
    | none => rfl
    | some i => exact if_pos (le_of_findFrom_append hpos hline hfind)
  | some urlStrBegin =>
    obtain ⟨-, hlt, hdrop⟩ := findFirstNotOf_spec hline
    have hfind : findFirstNotOf (line ++ tail) space pos = some urlStrBegin := findFrom_append_of_some hline
    rw [hfind, ← hdrop]
    simp only [if_neg (Nat.not_le.mpr hlt)]
    cases hend : findFirstOf line space urlStrBegin with
    | none =>
      rw [findFirstOf_eq_none hend]
      obtain ⟨urlStr, hurlStr⟩ : ∃ urlStr, substr (line ++ tail) urlStrBegin
          (sizeSub (findFirstOf (line ++ tail) space urlStrBegin) urlStrBegin) = .ok urlStr :=
        ⟨_, if_neg (by rw [length_append]; omega)⟩
      obtain ⟨result, hresult⟩ := stringToUrlPath_ok urlStr {}
      have hversion : stringToHttpVer (([] : Bytes).dropWhile (· == space)) = .kUnset := by
        decide
      simp only [bind, Except.bind, hurlStr, hresult, hversion, if_true]
      -- the version is looked for behind the line, wherever the url may have ended
      have hbehind : parseVersion (line ++ tail)
          (findFirstOf (line ++ tail) space urlStrBegin) line.length = .ok none :=
        parseVersion_none fun i hi => le_of_findFrom_append hlt.le hend hi
      rw [bind_fun_none]
      cases result with
      | none => exact .inl rfl
      | some url => exact .inr ⟨url, _, rfl, hbehind⟩
    | some urlStrEnd =>
      obtain ⟨hle, hlt', hdrop', htake⟩ := findFirstOf_spec hend
      have hfind' : findFirstOf (line ++ tail) space urlStrBegin = some urlStrEnd := findFrom_append_of_some hend
      rw [hfind', ← hdrop', ← htake]
      rw [sizeSub, bind_some, if_pos hle, substr_append (by omega)]
      obtain ⟨result, hresult⟩ := stringToUrlPath_ok ((line.drop urlStrBegin).take (urlStrEnd - urlStrBegin)) {}
      have htarget : targetPath ((line.drop urlStrBegin).take (urlStrEnd - urlStrBegin)) =
          result := by
        rw [targetPath, hresult]
      simp only [bind, Except.bind, hresult]
      rw [htarget]
      cases result with
      | none => exact .inl rfl
      | some url =>
        have hversion := parseVersion_eq tail hlt'.le
        split at hversion
        · next hunset =>
          rw [bind_some, if_pos hunset]
          exact .inr ⟨url, _, rfl, hversion⟩
        · next hset =>
          rw [bind_some, if_neg hset]
          exact ⟨_, rfl, hversion⟩

theorem not_mem_methodText {text : Bytes} (h : stringToMethod (methodText text) ≠ .kUnset) :
    13 ∉ methodText text := by
  obtain ⟨method, hmethod⟩ := mem_methodMap h
  have htable : ∀ item ∈ methodMap, 13 ∉ item.2 := by decide
  exact htable _ hmethod

theorem substr_methodText (text : Bytes) : substr text 0 (findFirstOf text space 0) = .ok (methodText text) := by
  cases hfind : findFirstOf text space 0 with
  | none =>
    refine (if_neg (Nat.not_lt_zero _)).trans (congrArg Except.ok ?_)
    refine (takeWhile_eq_self_iff.mpr fun c hc => ?_).symm
    exact dropWhile_eq_nil_iff.mp (findFirstOf_eq_none hfind) c hc
  | some methodStrEnd =>
    exact (if_neg (Nat.not_lt_zero _)).trans (congrArg Except.ok (findFirstOf_spec hfind).2.2.2)

theorem methodText_append_space (method tail : Bytes) (hmethod : ∀ c ∈ method, (c != space) = true) :
    methodText (method ++ space :: tail) = method := by
  rw [methodText, takeWhile_append_of_pos hmethod, takeWhile_cons_of_neg (by decide), append_nil]

theorem cut_of_method {text rest : Bytes} (h : stringToMethod (methodText text) ≠ .kUnset)
    (hcut : cut crlf text = some (line, rest)) : ∃ lineTail, line = methodText text ++ space :: lineTail := by
  have hsplit : methodText text ++ text.dropWhile (· != space) = text := takeWhile_append_dropWhile
  rw [← hsplit, crlf, cut_append_left (not_mem_methodText h)] at hcut
  obtain ⟨⟨lineTail, rest'⟩, hcut', heq⟩ := map_eq_some_iff.mp hcut
  obtain ⟨rfl, rfl⟩ := Prod.mk.inj heq
  have htext := cut_eq hcut'
  have hne : text.dropWhile (· != space) ≠ [] := by simp [htext]
  have hhead := head_dropWhile_not (· != space) hne
  cases lineTail with
  | nil =>
    simp only [htext, nil_append, cons_append, head_cons] at hhead
    exact absurd hhead (by decide)
  | cons c lineTail =>
    refine ⟨lineTail, ?_⟩
    have hc : c = space := by simpa [htext] using hhead
    rw [hc]

theorem methodText_append_drop (text : Bytes) : methodText text ++ text.drop (methodText text).length = text := by
  rw [methodText, drop_length_takeWhile, takeWhile_append_dropWhile]

theorem findFirstOf_of_method {text rest : Bytes}
    (h : stringToMethod (methodText text) ≠ .kUnset) (hcut : cut crlf text = some (line, rest)) :
    findFirstOf text space 0 = some (methodText text).length := by
  obtain ⟨lineTail, rfl⟩ := cut_of_method h hcut
  cases hfind : findFirstOf text space 0 with
  | none =>
    have hspaces := dropWhile_eq_nil_iff.mp (findFirstOf_eq_none hfind) space
    rw [drop_zero, cut_eq hcut] at hspaces
    exact absurd (hspaces (by simp)) (by decide)
  | some methodStrEnd =>
    obtain ⟨-, hlt, -, htake⟩ := findFirstOf_spec hfind
    rw [drop_zero, Nat.sub_zero] at htake
    rw [methodText, ← htake, length_take, Nat.min_eq_left hlt.le]

theorem find_of_method {text rest : Bytes} (h : stringToMethod (methodText text) ≠ .kUnset)
    (hcut : cut crlf text = some (line, rest)) : find text crlf (methodText text).length = some line.length := by
  rw [← methodText_append_drop text, crlf, cut_append_left (not_mem_methodText h)] at hcut
  obtain ⟨⟨lineTail, rest'⟩, hcut', heq⟩ := map_eq_some_iff.mp hcut
  obtain ⟨rfl, rfl⟩ := Prod.mk.inj heq
  rw [find_eq_cut, crlf, hcut', map_some, length_append]

theorem methodText_ne_space (text : Bytes) : ∀ c ∈ methodText text, (c != space) = true :=
  fun _ hc => mem_takeWhile_imp (p := (· != space)) hc

section

variable {p : RequestParser} {text rest : Bytes}

theorem parseStartLine_unset (h : stringToMethod (methodText text) = .kUnset) :
    ∃ p', p.parseStartLine text = .ok (0, p') ∧ p'.state = .kFail := by
  refine ⟨{
      state := .kFail
      contentLength := noLength
      request := some (p.request.getD {}) }, ?_, rfl⟩
  simp only [parseStartLine, bind, Except.bind, substr_methodText, h, if_true]
  rfl

theorem parseStartLine_incomplete (h : stringToMethod (methodText text) ≠ .kUnset)
    (hcut : cut crlf text = none) : p.parseStartLine text =
      .ok (0, { p with contentLength := noLength, request := some (p.request.getD {}) }) := by
  have hfind : (findFirstOf text space 0).bind (find text crlf) = none := by
    refine bind_eq_none_iff.mpr fun methodStrEnd hend => ?_
    obtain ⟨-, -, hdrop, htake⟩ := findFirstOf_spec hend
    rw [drop_zero, Nat.sub_zero] at htake
    have hsplit : methodText text ++ text.drop methodStrEnd = text := by
      rw [methodText, ← htake, take_append_drop]
    rw [← hsplit, crlf, cut_append_left (not_mem_methodText h)] at hcut
    rw [find_eq_cut, crlf, map_eq_none_iff.mp hcut, map_none]
  simp only [parseStartLine, bind, Except.bind, substr_methodText, if_neg h, hfind]
  rfl

theorem parseStartLine_line (hblank : p.request.getD {} = {})
    (h : stringToMethod (methodText text) ≠ .kUnset) (hcut : cut crlf text = some (line, rest)) :
    match readStartLine line with
    | none => ∃ p', p.parseStartLine text = .ok (0, p') ∧ p'.state = .kFail
    | some req => p.parseStartLine text = .ok (line.length + 2,
        { state := .kFinishedStartLine, request := some req, contentLength := noLength }) := by
  obtain ⟨lineTail, hline⟩ := cut_of_method h hcut
  have hmethod : methodText line = methodText text := by
    rw [hline, methodText_append_space _ _ (methodText_ne_space text)]
  have htext := cut_eq hcut
  rw [append_assoc] at htext
  have hend := findFirstOf_of_method h hcut
  have hmethodStr : substr text 0 (some (methodText text).length) = .ok (methodText text) :=
    hend ▸ substr_methodText text
  have hfind := find_of_method h hcut
  have hle : (methodText text).length ≤ line.length := by
    rw [hline]
    simp
  have htarget := parseTarget_eq (crlf ++ rest) hle
  rw [readStartLine, hmethod, if_neg h]
  simp only [parseStartLine, bind, Except.bind, hend, hmethodStr, if_neg h, hfind, hblank, bind_some]
  rw [← htext] at htarget
  cases htail : readTarget (line.drop (methodText text).length) with
  | none =>
    rw [htail] at htarget
    obtain hurl | ⟨url, urlStrEnd, hurl, hversion⟩ := htarget
    · exact ⟨_, by simp only [hurl]; rfl, rfl⟩
    · exact ⟨_, by simp only [hurl, hversion]; rfl, rfl⟩
  | some target =>
    rw [htail] at htarget
    obtain ⟨urlStrEnd, hurl, hversion⟩ := htarget
    simp only [hurl, hversion, map_some]
    rfl

end

end StartLine

section Head

variable {str line tail : Bytes} {pos : Nat}

theorem parseHead_drop (hpos : pos ≤ str.length) (endPos : Nat) :
    parseHead str pos (pos + endPos) = parseHead (str.drop pos) 0 endPos := by
  have hcolon : findFirstOf str 58 pos = (findFirstOf (str.drop pos) 58 0).map (pos + ·) := findFrom_drop pos 0
  rw [parseHead, parseHead, hcolon]
  cases findFirstOf (str.drop pos) 58 0 with
  | none => rfl
  | some colonPos =>
    have hvalue : findFirstNotOf str space (pos + colonPos + 1) =
        (findFirstNotOf (str.drop pos) space (colonPos + 1)).map (pos + ·) :=
      findFrom_drop pos (colonPos + 1)
    have hkey := substr_drop 0 (some colonPos) hpos
    rw [Nat.add_zero] at hkey
    simp only [map_some, Nat.add_le_add_iff_left, Nat.add_sub_cancel_left, Nat.sub_zero, hvalue, hkey]
    cases findFirstNotOf (str.drop pos) space (colonPos + 1) with
    | none => rfl
    | some headValueStartPos =>
      simp only [map_some, Nat.add_le_add_iff_left, substr_drop _ _ hpos, Nat.add_sub_add_left]

theorem parseHead_eq : parseHead (line ++ tail) 0 line.length = .ok (readHead line) := by
  rw [parseHead, readHead]
  cases hcolon : findFirstOf line 58 0 with
  | none =>
    have hnil := findFirstOf_eq_none hcolon
    rw [drop_zero] at hnil
    rw [hnil]
    cases hfind : findFirstOf (line ++ tail) 58 0 with
    | none => rfl
    | some i => exact if_pos (le_of_findFrom_append (Nat.zero_le _) hcolon hfind)
  | some colonPos =>
    obtain ⟨-, hlt, hdrop, htake⟩ := findFirstOf_spec hcolon
    rw [drop_zero] at hdrop htake
    have hfind : findFirstOf (line ++ tail) 58 0 = some colonPos := findFrom_append_of_some hcolon
    rw [hfind, ← hdrop, ← htake, drop_eq_getElem_cons hlt]
    simp only [if_neg (Nat.not_le.mpr hlt)]
    rw [substr_append (by omega), drop_zero]
    simp only [bind, Except.bind, strip_eq]
    cases hvalue : findFirstNotOf line space (colonPos + 1) with
    | none =>
      rw [if_pos (findFirstNotOf_eq_none hvalue)]
      cases hfind' : findFirstNotOf (line ++ tail) space (colonPos + 1) with
      | none => rfl
      | some i => exact if_pos (le_of_findFrom_append hlt hvalue hfind')
    | some headValueStartPos =>
      obtain ⟨-, hlt', hdrop'⟩ := findFirstNotOf_spec hvalue
      have hfind' : findFirstNotOf (line ++ tail) space (colonPos + 1) =
          some headValueStartPos :=
        findFrom_append_of_some hvalue
      rw [hfind', ← hdrop', if_neg (by rw [drop_eq_nil_iff]; omega)]
      simp only [if_neg (Nat.not_le.mpr hlt')]
      rw [substr_append (by omega), ← length_drop, take_length]
      rfl

end Head

end RequestParser

/-! ### A request line as it is sent

A method, a target and a version that single spaces separate are read as they stand there. -/

section RequestLine

variable {method target version : Bytes}

theorem lengthOf_toSizeT {n : Nat} (hn : n < 2 ^ 31) : lengthOf (toSizeT n) = some n := by
  have hsize : toSizeT n = n := by
    rw [toSizeT]
    omega
  rw [hsize, lengthOf, if_neg]
  rw [noLength]
  omega

theorem readTarget_line (hne : target ≠ []) (htarget : space ∉ target)
    (hversion : version.dropWhile (· == space) = version) :
    readTarget (space :: (target ++ space :: version)) =
      (targetPath target).bind fun url =>
        if stringToHttpVer version = .kUnset then none else some (url, stringToHttpVer version) := by
  have hplain : ∀ c ∈ target, (c != space) = true := fun c hc => by
    simpa using fun heq : c = space => htarget (heq ▸ hc)
  have hskip : (space :: (target ++ space :: version)).dropWhile (· == space) =
      target ++ space :: version := by
    rw [dropWhile_cons_of_pos (by decide)]
    exact dropWhile_word hne htarget [] _
  have htake : (target ++ space :: version).takeWhile (· != space) = target := by
    rw [takeWhile_append_of_pos hplain, takeWhile_cons_of_neg (by decide), append_nil]
  have hrest : ((target ++ space :: version).dropWhile (· != space)).dropWhile (· == space) =
      version := by
    rw [dropWhile_append_of_pos hplain, dropWhile_cons_of_neg (by decide),
      dropWhile_cons_of_pos (by decide), hversion]
  rw [readTarget, hskip]
  simp only [htake, hrest]

theorem readStart_line {tail : Bytes} (hmethod : ∀ c ∈ method, (c != space) = true)
    (hline : 13 ∉ method ++ space :: (target ++ space :: version)) :
    readStart (method ++ space :: (target ++ space :: version) ++ crlf ++ tail) =
      if stringToMethod method = .kUnset then .malformed
      else match readTarget (space :: (target ++ space :: version)) with
        | none => .malformed
        | some (url, httpVer) =>
          readHeads { method := stringToMethod method, url, httpVer } none tail := by
  have hwhole : methodText (method ++ space :: (target ++ space :: version) ++ crlf ++ tail) =
      method := by
    rw [append_assoc, append_assoc, cons_append]
    exact RequestParser.methodText_append_space _ _ hmethod
  have hfirst : methodText (method ++ space :: (target ++ space :: version)) = method :=
    RequestParser.methodText_append_space _ _ hmethod
  have hdrop : (method ++ space :: (target ++ space :: version)).drop method.length =
      space :: (target ++ space :: version) := drop_left
  have hcut : cut crlf (method ++ space :: (target ++ space :: version) ++ crlf ++ tail) =
      some (method ++ space :: (target ++ space :: version), tail) := cut_line hline
  rw [readStart, hwhole, hcut]
  split
  · rfl
  next hset =>
  simp only [readStartLine, hfirst, hdrop, if_neg hset]
  cases readTarget (space :: (target ++ space :: version)) <;> rfl

end RequestLine

end Tbox.Http
