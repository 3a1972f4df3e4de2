import Tbox.Proof.ParserReads

/-!
# What hostile input does to the parser

`parse` is total on a string when it returns, has consumed no more than it was given, and ends in `kFail` after a
`Content-Length` that is no number a `size_t` holds. What `std::stoi` does not accept is thrown through it.
-/

open List Option

namespace Tbox.Http

open Tbox.Lib Tbox.Lib.StdString

namespace RequestParser

/-- The parsers that the members can produce; `reset` swaps with a new one. -/
inductive Reachable : RequestParser → Prop
  | new : Reachable {}
  | parse {p p' : RequestParser} {str : Bytes} {n : Nat} (hp : Reachable p)
      (h : p.parse str = .ok (n, p')) : Reachable p'
  | getRequest {p : RequestParser} (hp : Reachable p) : Reachable p.getRequest.2
  | swap {p other : RequestParser} (hp : Reachable p) (hother : Reachable other) :
      Reachable (p.swap other).1

/-- There is a request behind the pointer once there is something to put into it. -/
def Sound (p : RequestParser) : Prop :=
  match p.state with
  | .kInit => p.request.getD {} = {}
  | .kFinishedStartLine | .kFinishedHeads | .kFinishedAll => p.request.isSome
  | .kFail => True

variable {p : RequestParser}

theorem Models.sound {stage : Stage} (hp : p.Models stage) : p.Sound := by
  cases stage with
  | start =>
    rw [Sound, hp.1]
    exact hp.2
  | heads req length =>
    rw [Sound, hp.1, hp.2.1]
    rfl
  | body req length =>
    rw [Sound, hp.1, hp.2.1]
    rfl

theorem parse_of_idle (str : Bytes)
    (hstate : p.state = .kFinishedAll ∨ p.state = .kFail) : p.parse str = .ok (0, p) := by
  rcases hstate with hstate | hstate <;> simp [RequestParser.parse, hstate, bind, Except.bind]

theorem Sound.models (hp : p.Sound) :
    (∃ stage, p.Models stage) ∨ p.state = .kFinishedAll ∨ p.state = .kFail := by
  rw [Sound] at hp
  split at hp
  · next hstate => exact .inl ⟨.start, hstate, hp⟩
  · next hstate =>
    obtain ⟨req, hreq⟩ := isSome_iff_exists.mp hp
    exact .inl ⟨.heads req _, hstate, hreq, rfl⟩
  · next hstate =>
    obtain ⟨req, hreq⟩ := isSome_iff_exists.mp hp
    exact .inl ⟨.body req _, hstate, hreq, rfl⟩
  · next hstate => exact .inr (.inl hstate)
  · next hstate => exact .inr (.inr hstate)

theorem Sound.parse {p p' : RequestParser} {str : Bytes} {n : Nat} (hp : p.Sound)
    (h : p.parse str = .ok (n, p')) : p'.Sound := by
  obtain ⟨stage, hmodels⟩ | hidle := hp.models
  · have hends := parse_ends hmodels str
    rw [h] at hends
    cases hread : stage.read str with
    | waiting stage' rest =>
      rw [hread] at hends
      obtain ⟨_, _, heq, -, -, hmodels'⟩ := hends
      cases heq
      exact hmodels'.sound
    | complete req length rest =>
      rw [hread] at hends
      obtain ⟨_, _, heq, -, -, hstate, hreq⟩ := hends
      cases heq
      rw [Sound, hstate, hreq]
      rfl
    | malformed =>
      rw [hread] at hends
      obtain ⟨_, _, heq, -, hstate⟩ := hends
      cases heq
      rw [Sound, hstate]
      trivial
    | threw e =>
      rw [hread] at hends
      cases hends
  · rw [parse_of_idle str hidle] at h
    cases h
    exact hp

theorem Reachable.sound (hp : Reachable p) : p.Sound := by
  induction hp with
  | new => exact rfl
  | parse _ h ih => exact ih.parse h
  | @getRequest p _ ih =>
    rw [RequestParser.getRequest]
    split
    · exact rfl
    · exact ih
  | swap _ _ _ ih => exact ih

def takeLines : Nat → Bytes → List Bytes
  | 0, _ => []
  | fuel + 1, text =>
    match cut crlf text with
    | none => []
    | some (line, rest) => if line = [] then [] else line :: takeLines fuel rest

def headLines (text : Bytes) : List Bytes := takeLines text.length text

/-- The part of the string that the call reads header lines from. -/
def headText (p : RequestParser) (str : Bytes) : Bytes :=
  match p.state with
  | .kInit =>
    match cut crlf str with
    | none => []
    | some (line, rest) => if (readStartLine line).isSome then rest else []
  | .kFinishedStartLine => str
  | _ => []

/-- The `Content-Length` values of the lines before the first malformed one. -/
def lengthValues (lines : List Bytes) : List Bytes :=
  ((lines.map readHead).takeWhile Option.isSome).filterMap fun head =>
    head.bind fun (key, value) => if key = contentLengthKey then some value else none

/-- A non-negative decimal number, up to the white space around a header value, that a `size_t`
holds. -/
def IsLength (value : Bytes) : Prop :=
  let digits := (value.dropWhile isBlank).rdropWhile isBlank
  digits ≠ [] ∧ digits.all isDigit ∧ decimal digits < 2 ^ 64

instance (value : Bytes) : Decidable (IsLength value) := inferInstanceAs (Decidable (_ ∧ _ ∧ _))

/-- The call returns, consumes no more than it is given, and ends in `kFail` once it has read a
length that is none. -/
def TotalOn (p : RequestParser) (str : Bytes) : Prop :=
  ∃ n p', p.parse str = .ok (n, p') ∧ n ≤ str.length ∧
    ((∃ value ∈ lengthValues (headLines (p.headText str)), ¬IsLength value) → p'.state = .kFail)

section Lines

variable {text line rest : Bytes} {lines : List Bytes} {key value : Bytes}

theorem takeLines_congr {fuel fuel' : Nat} (hfuel : text.length ≤ fuel)
    (hfuel' : text.length ≤ fuel') : takeLines fuel text = takeLines fuel' text := by
  induction fuel generalizing fuel' text with
  | zero =>
    rw [length_eq_zero_iff.mp (Nat.le_zero.mp hfuel)]
    cases fuel' <;> rfl
  | succ fuel ih =>
    cases fuel' with
    | zero =>
      rw [length_eq_zero_iff.mp (Nat.le_zero.mp hfuel')]
      rfl
    | succ fuel' =>
      rw [takeLines, takeLines]
      cases hcut : cut crlf text with
      | none => rfl
      | some parts =>
        obtain ⟨line, rest⟩ := parts
        have hlt := length_lt_of_cut hcut
        simp only
        rw [ih (by omega) (show rest.length ≤ fuel' by omega)]

theorem headLines_of_none (hcut : cut crlf text = none) : headLines text = [] := by
  rw [headLines]
  cases text.length with
  | zero => rfl
  | succ fuel => rw [takeLines, hcut]

theorem headLines_of_some (hcut : cut crlf text = some (line, rest)) : headLines text =
    if line = [] then [] else line :: headLines rest := by
  have hlt := length_lt_of_cut hcut
  rw [headLines]
  cases hfuel : text.length with
  | zero => omega
  | succ fuel =>
    rw [takeLines, hcut, headLines]
    simp only
    rw [takeLines_congr (by omega) le_rfl]

theorem lengthValues_of_malformed (hhead : readHead line = none) : lengthValues (line :: lines) = [] := by
  simp [lengthValues, hhead]

theorem lengthValues_cons (hhead : readHead line = some (key, value)) : lengthValues (line :: lines) =
      (if key = contentLengthKey then [value] else []) ++ lengthValues lines := by
  by_cases hkey : key = contentLengthKey <;> simp [lengthValues, hhead, hkey]

end Lines

/-- What the shapes and the values of some header lines say about a reading of them. -/
def Outcome (lines : List Bytes) : Reading → Prop
  | .threw e => ∃ value ∈ lengthValues lines, stoi value = .error e
  | .malformed => (∀ value ∈ lengthValues lines, ∃ n, stoi value = .ok n) ∧
      ∃ line ∈ lines, readHead line = none
  | _ => (∀ value ∈ lengthValues lines, ∃ n, stoi value = .ok n) ∧
      ∀ line ∈ lines, readHead line ≠ none

theorem Outcome.cons {line key value : Bytes} {lines : List Bytes} {reading : Reading}
    (h : Outcome lines reading) (hhead : readHead line = some (key, value))
    (hvalue : key = contentLengthKey → ∃ n, stoi value = .ok n) : Outcome (line :: lines) reading := by
  have hsome : readHead line ≠ none := hhead ▸ nofun
  have hvalues (hlines : ∀ value ∈ lengthValues lines, ∃ n, stoi value = .ok n) :
      ∀ value ∈ lengthValues (line :: lines), ∃ n, stoi value = .ok n := by
    rw [lengthValues_cons hhead]
    intro other hother
    rcases mem_append.mp hother with hother | hother
    · split at hother
      · next hkey =>
        rw [mem_singleton.mp hother]
        exact hvalue hkey
      · cases hother
    · exact hlines other hother
  cases reading with
  | waiting | complete =>
    refine ⟨hvalues h.1, fun other hother => ?_⟩
    rcases mem_cons.mp hother with rfl | hother
    · exact hsome
    · exact h.2 other hother
  | malformed =>
    obtain ⟨bad, hbad, hnone⟩ := h.2
    exact ⟨hvalues h.1, bad, mem_cons_of_mem line hbad, hnone⟩
  | threw e =>
    obtain ⟨other, hother, hthrows⟩ := h
    refine ⟨other, ?_, hthrows⟩
    rw [lengthValues_cons hhead]
    exact mem_append_right _ hother

theorem readBody_outcome (req : Request) (length : Option Nat) (text : Bytes) :
    Outcome [] (readBody req length text) := by
  cases length with
  | none => exact ⟨nofun, nofun⟩
  | some n =>
    rw [readBody]
    split
    · exact ⟨nofun, nofun⟩
    · exact ⟨nofun, nofun⟩

theorem readHeads_outcome (req : Request) (length : Option Nat) (text : Bytes) :
    Outcome (headLines text) (readHeads req length text) := by
  fun_induction readHeads req length text with
  | case1 req length text hcut =>
    rw [headLines_of_none hcut]
    exact ⟨nofun, nofun⟩
  | case2 req length text rest hcut =>
    rw [headLines_of_some hcut, if_pos rfl]
    exact readBody_outcome req length rest
  | case3 req length text line rest hcut hblank hhead =>
    rw [headLines_of_some hcut, if_neg hblank]
    refine ⟨?_, line, mem_cons_self, hhead⟩
    rw [lengthValues_of_malformed hhead]
    exact nofun
  | case4 req length text line rest hcut hblank key value hhead e hlength =>
    rw [headLines_of_some hcut, if_neg hblank]
    rw [readLength] at hlength
    split at hlength
    · next hkey =>
      refine ⟨value, ?_, ?_⟩
      · rw [lengthValues_cons hhead, if_pos hkey]
        exact mem_append_left _ mem_cons_self
      cases hstoi : stoi value with
      | error e' =>
        rw [hstoi] at hlength
        cases hlength
        rfl
      | ok n =>
        rw [hstoi] at hlength
        cases hlength
    · cases hlength
  | case5 req length text line rest hcut hblank key value hhead length' hlength ih =>
    rw [headLines_of_some hcut, if_neg hblank]
    refine ih.cons hhead fun hkey => ?_
    rw [readLength, if_pos hkey] at hlength
    cases hstoi : stoi value with
    | error e =>
      rw [hstoi] at hlength
      cases hlength
    | ok n => exact ⟨n, rfl⟩

theorem methodText_of_readStartLine {line : Bytes} {req : Request} (tail : Bytes)
    (h : readStartLine line = some req) : methodText (line ++ tail) = methodText line ∧
      stringToMethod (methodText line) ≠ .kUnset := by
  rw [readStartLine] at h
  split at h
  · cases h
  next hmethod =>
  refine ⟨?_, hmethod⟩
  rw [methodText, takeWhile_append, if_neg]
  · rfl
  intro hlength
  -- a line without a space has nothing behind the method
  have hnil : line.drop (methodText line).length = [] := drop_eq_nil_iff.mpr hlength.ge
  have hnone : readTarget [] = none := by decide
  rw [hnil, hnone] at h
  cases h

theorem read_outcome {stage : Stage} (hp : p.Models stage) (str : Bytes) :
    Outcome (headLines (p.headText str)) (stage.read str) ∨
      headLines (p.headText str) = [] ∧ stage.read str = .malformed := by
  cases stage with
  | start =>
    rw [headText, hp.1, Stage.read, readStart]
    cases hcut : cut crlf str with
    | none =>
      by_cases hmethod : stringToMethod (methodText str) = .kUnset
      · exact .inr ⟨rfl, if_pos hmethod⟩
      · rw [if_neg hmethod]
        exact .inl ⟨forall_mem_nil _, forall_mem_nil _⟩
    | some parts =>
      obtain ⟨line, rest⟩ := parts
      cases hline : readStartLine line with
      | none => exact .inr ⟨by simp [hline, headLines, takeLines], by simp [hline]⟩
      | some req =>
        obtain ⟨htext, hmethod⟩ := methodText_of_readStartLine (crlf ++ rest) hline
        rw [← append_assoc, ← cut_eq hcut] at htext
        rw [if_neg (htext ▸ hmethod)]
        simp only [hline]
        exact .inl (readHeads_outcome req none rest)
  | heads req length =>
    rw [headText, hp.1]
    exact .inl (readHeads_outcome req length str)
  | body req length =>
    rw [headText, hp.1]
    exact .inl (readBody_outcome req length str)

theorem headText_of_idle (str : Bytes)
    (hstate : p.state = .kFinishedAll ∨ p.state = .kFail) : p.headText str = [] := by
  rcases hstate with hstate | hstate <;> rw [headText, hstate]

theorem total_iff_of_accepted {p p' : RequestParser} {str : Bytes} {n : Nat}
    (hparse : p.parse str = .ok (n, p')) (hn : n ≤ str.length) (hstate : p'.state ≠ .kFail)
    (hshape : ∀ line ∈ headLines (p.headText str), readHead line ≠ none) :
    p.TotalOn str ↔ ((∀ value ∈ lengthValues (headLines (p.headText str)), IsLength value) ∨
      ∃ line ∈ headLines (p.headText str), readHead line = none) := by
  constructor
  · rintro ⟨n', p'', hparse', -, hfail⟩
    obtain ⟨rfl, rfl⟩ := Prod.mk.inj (Except.ok.inj (hparse.symm.trans hparse'))
    refine .inl fun value hvalue => ?_
    by_contra hlength
    exact hstate (hfail ⟨value, hvalue, hlength⟩)
  · rintro (hlengths | ⟨line, hline, hnone⟩)
    · exact ⟨n, p', hparse, hn, fun ⟨value, hvalue, hlength⟩ => absurd (hlengths value hvalue) hlength⟩
    · exact absurd hnone (hshape line hline)

/-- **Totality.** A call returns and rejects what is no length exactly when `std::stoi` accepts
every `Content-Length` it reads, and each of them is a decimal number or some header line it reads
is malformed. -/
theorem total_iff {p : RequestParser} (hp : Reachable p) (str : Bytes) :
    p.TotalOn str ↔ (∀ value ∈ lengthValues (headLines (p.headText str)), ∃ n, stoi value = .ok n) ∧
      ((∀ value ∈ lengthValues (headLines (p.headText str)), IsLength value) ∨
        ∃ line ∈ headLines (p.headText str), readHead line = none) := by
  obtain ⟨stage, hmodels⟩ | hidle := hp.sound.models
  · have hends := parse_ends hmodels str
    rcases read_outcome hmodels str with hout | ⟨hnil, hmalformed⟩
    · cases hread : stage.read str with
      | waiting stage' rest =>
        rw [hread] at hends hout
        obtain ⟨n, p', hparse, hn, -, hmodels'⟩ := hends
        have hstate : p'.state ≠ .kFail := by
          cases stage' <;> exact hmodels'.1 ▸ nofun
        exact (total_iff_of_accepted hparse hn hstate hout.2).trans
          (and_iff_right hout.1).symm
      | complete req length rest =>
        rw [hread] at hends hout
        obtain ⟨n, p', hparse, hn, -, hstate, -⟩ := hends
        exact (total_iff_of_accepted hparse hn (hstate ▸ nofun) hout.2).trans
          (and_iff_right hout.1).symm
      | malformed =>
        rw [hread] at hends hout
        obtain ⟨n, p', hparse, hn, hstate⟩ := hends
        exact iff_of_true ⟨n, p', hparse, hn, fun _ => hstate⟩ ⟨hout.1, .inr hout.2⟩
      | threw e =>
        rw [hread] at hends hout
        obtain ⟨value, hvalue, hthrows⟩ := hout
        refine iff_of_false ?_ ?_
        · rintro ⟨n, p', hparse, -⟩
          cases hends.symm.trans hparse
        · rintro ⟨haccepts, -⟩
          obtain ⟨n, hn⟩ := haccepts value hvalue
          cases hthrows.symm.trans hn
    · rw [hmalformed] at hends
      obtain ⟨n, p', hparse, hn, hstate⟩ := hends
      rw [hnil]
      exact iff_of_true ⟨n, p', hparse, hn, fun _ => hstate⟩ ⟨nofun, .inl nofun⟩
  · have hempty := headText_of_idle str hidle
    refine iff_of_true ⟨0, p, parse_of_idle str hidle, Nat.zero_le _, ?_⟩ ?_
    · rw [hempty]
      exact nofun
    · rw [hempty]
      exact ⟨nofun, .inl nofun⟩

theorem total_on_post : TotalOn {} (bytes "POST / HTTP/1.1\r\nContent-Length: 26\r\n\r\nusername=") := by
  refine (total_iff .new _).mpr ?_
  have hvalues : lengthValues (headLines (headText {}
      (bytes "POST / HTTP/1.1\r\nContent-Length: 26\r\n\r\nusername="))) = [bytes "26"] := by
    decide
  rw [hvalues]
  refine ⟨fun value hvalue => ⟨26, ?_⟩, .inl fun value hvalue => ?_⟩
  · rw [List.mem_singleton.mp hvalue]
    decide
  · rw [List.mem_singleton.mp hvalue]
    decide

/-- A length that is no number is thrown through the call, and a length of `-1` is taken for none:
the rest of the buffer becomes the body. -/
theorem hostile_length_not_rejected : Reachable {} ∧
    ¬TotalOn {} (bytes "GET / HTTP/1.1\r\nContent-Length: abc\r\n\r\n") ∧
    ¬TotalOn {} (bytes "GET / HTTP/1.1\r\nContent-Length: -1\r\n\r\nGET") := by
  refine ⟨.new, ?_, ?_⟩
  · rintro ⟨n, p', hparse, -⟩
    have hthrows : RequestParser.parse {}
        (bytes "GET / HTTP/1.1\r\nContent-Length: abc\r\n\r\n") = .error .invalidArgument := by
      decide
    cases hthrows.symm.trans hparse
  · rintro ⟨n, p', hparse, -, hfail⟩
    have hstate := hfail ⟨bytes "-1", by decide, by decide⟩
    have htaken : (RequestParser.parse {}
        (bytes "GET / HTTP/1.1\r\nContent-Length: -1\r\n\r\nGET")).map (·.2.state) =
          .ok .kFinishedAll := by
      decide
    rw [hparse] at htaken
    cases hstate.symm.trans (Except.ok.inj htaken)

end RequestParser

end Tbox.Http
