import Tbox.Proof.ReadAppend

/-!
# Requests in segments

How a stream of requests is cut makes no difference, with one exception: a method that arrives in two parts is looked
up before the rest of it is there.
-/

open List Option

namespace Tbox.Http

/-! ### Well-formed requests

The requests that HTTP/1.x allows, as they stand on the wire: a request line, header lines and a
body whose length every `Content-Length` line gives. The format is wider than the parser;
`Supported` says which of its requests the parser takes. -/

section WireFormat

open Tbox.Lib Tbox.Lib.StdString

def isTokenByte (c : UInt8) : Bool := 33 ≤ c && c ≤ 126 && c != 58

def IsToken (str : Bytes) : Prop := str ≠ [] ∧ ∀ c ∈ str, isTokenByte c = true

structure Field where
  name : Bytes
  before : Bytes
  value : Bytes
  after : Bytes
  name_token : IsToken name
  before_blank : ∀ c ∈ before, isBlank c = true
  value_line : ∀ c ∈ value, c ≠ 13 ∧ c ≠ 10
  after_blank : ∀ c ∈ after, isBlank c = true

namespace Field

def content (f : Field) : Bytes := f.before ++ f.value ++ f.after

def line (f : Field) : Bytes := f.name ++ 58 :: f.content

end Field

structure WireRequest where
  method : Bytes
  target : Bytes
  minor : UInt8
  fields : List Field
  body : Bytes
  method_token : IsToken method
  target_visible : target ≠ [] ∧ ∀ c ∈ target, 33 ≤ c
  minor_digit : isDigit minor = true
  length_given : ∃ f ∈ fields, f.name = contentLengthKey
  length_right : ∀ f ∈ fields, f.name = contentLengthKey →
    f.value ≠ [] ∧ (∀ c ∈ f.value, isDigit c = true) ∧ decimal f.value = body.length

def headsText (fields : List Field) : Bytes := fields.flatMap fun f => f.line ++ crlf

namespace WireRequest

def version (r : WireRequest) : Bytes := bytes "HTTP/1." ++ [r.minor]

def requestLine (r : WireRequest) : Bytes :=
  r.method ++ space :: (r.target ++ space :: r.version)

def wire (r : WireRequest) : Bytes :=
  r.requestLine ++ crlf ++ (headsText r.fields ++ crlf ++ r.body)

/-- A method and a version of the tables, a target that `StringToUrlPath` accepts, and a length that is an `int`. -/
structure Supported (r : WireRequest) : Prop where
  method : stringToMethod r.method ≠ .kUnset
  target : (targetPath r.target).isSome
  version : stringToHttpVer r.version ≠ .kUnset
  values : ∀ f ∈ r.fields, ∃ c ∈ f.content, c ≠ space
  length : r.body.length < 2 ^ 31

end WireRequest

def stream (reqs : List WireRequest) : Bytes := reqs.flatMap WireRequest.wire

/-- A segment ends within the method of a request. -/
def CutsMethod (reqs : List WireRequest) (segments : List Bytes) : Prop :=
  ∃ pre done req later part, pre <+: segments ∧ reqs = done ++ req :: later ∧
    part <+: req.method ∧ part ≠ [] ∧ part ≠ req.method ∧ pre.flatten = stream done ++ part

/-- No segment brings the parser to `kFail` or makes it throw, and the requests are those that are
taken when everything arrives at once. -/
def SegmentationFree (segments : List Bytes) : Prop :=
  (∀ pre, pre <+: segments → ∃ r, Receiver.receiveAll {} pre = .ok r ∧ r.parser.state ≠ .kFail) ∧
    ∃ r whole, Receiver.receiveAll {} segments = .ok r ∧
      Receiver.receiveAll {} [segments.flatten] = .ok whole ∧ r.requests = whole.requests

end WireFormat

open Tbox.Lib Tbox.Lib.StdString
open Tbox.Util (stripSpaces stripSpaces_word stripSpaces_dropWhile)

theorem ne_of_isTokenByte {c : UInt8} (h : isTokenByte c = true) : c ≠ 13 ∧ c ≠ space ∧ c ≠ 58 := by
  refine ⟨?_, ?_, ?_⟩ <;> rintro rfl <;> exact absurd h (by decide)

theorem ne_of_isBlank {c : UInt8} (h : isBlank c = true) : c ≠ 13 ∧ isSpace c = true ∧ isDigit c = false := by
  simp only [isBlank, isSpace, isDigit] at *
  grind

namespace Field

variable (f : Field)

theorem not_mem_line : 13 ∉ f.line := by
  intro hmem
  rcases mem_append.mp hmem with hname | hmem
  · exact (ne_of_isTokenByte (f.name_token.2 13 hname)).1 rfl
  rcases mem_cons.mp hmem with hcolon | hmem
  · exact absurd hcolon (by decide)
  rcases mem_append.mp hmem with hmem | hafter
  · rcases mem_append.mp hmem with hbefore | hvalue
    · exact (ne_of_isBlank (f.before_blank 13 hbefore)).1 rfl
    · exact (f.value_line 13 hvalue).1 rfl
  · exact (ne_of_isBlank (f.after_blank 13 hafter)).1 rfl

theorem line_ne_nil : f.line ≠ [] := by simp [line]

theorem readHead_line : readHead f.line = if f.content.dropWhile (· == space) = [] then none
    else some (f.name, stripSpaces f.content) := by
  have hname : ∀ c ∈ f.name, (c != 58) = true := fun c hc => by
    simpa using (ne_of_isTokenByte (f.name_token.2 c hc)).2.2
  have hstrip : stripSpaces f.name = f.name := by
    have hspace : space ∉ f.name := fun hmem => (ne_of_isTokenByte (f.name_token.2 space hmem)).2.1 rfl
    simpa using stripSpaces_word f.name_token.1 hspace [] []
  have hdrop : f.line.dropWhile (· != 58) = 58 :: f.content := by
    rw [line, dropWhile_append_of_pos hname, dropWhile_cons_of_neg (by decide)]
  have htake : f.line.takeWhile (· != 58) = f.name := by
    rw [line, takeWhile_append_of_pos hname, takeWhile_cons_of_neg (by decide), append_nil]
  rw [readHead, hdrop, htake, hstrip]
  simp only [stripSpaces_dropWhile]

theorem readLength_eq {n : Nat} (hname : f.name = contentLengthKey) (hne : f.value ≠ [])
    (hdigits : ∀ c ∈ f.value, isDigit c = true) (hvalue : decimal f.value = n)
    (length : Option Nat) : readLength f.name (stripSpaces f.content) length =
      if 2 ^ 31 ≤ n then .error .outOfRange else .ok (some n) := by
  have hword : space ∉ f.value := fun hmem => absurd (hdigits space hmem) (by decide)
  rw [readLength, if_pos hname, content, stripSpaces_word hne hword, stoi_decimal ?_ hne hdigits ?_, hvalue]
  · split
    · rfl
    · next hlt => simp [Except.map, lengthOf_toSizeT (Nat.lt_of_not_le hlt)]
  · intro c hc
    exact (ne_of_isBlank (f.before_blank c ((dropWhile_suffix _).subset hc))).2.1
  · intro c hc
    exact (ne_of_isBlank (f.after_blank c ((List.rdropWhile_prefix _ _).subset hc))).2.2

end Field

section Heads

variable {fields : List Field} {n : Nat}

theorem headsText_cons (f : Field) (tail : Bytes) : headsText (f :: fields) ++ (crlf ++ tail) =
      f.line ++ crlf ++ (headsText fields ++ (crlf ++ tail)) := by
  simp [headsText, append_assoc]

theorem cut_headsText (f : Field) (tail : Bytes) : cut crlf (headsText (f :: fields) ++ (crlf ++ tail)) =
      some (f.line, headsText fields ++ (crlf ++ tail)) := by
  rw [headsText_cons, crlf]
  exact cut_line f.not_mem_line

theorem readHeads_accepted (hn : n < 2 ^ 31) (hright : ∀ f ∈ fields, f.name = contentLengthKey →
      f.value ≠ [] ∧ (∀ c ∈ f.value, isDigit c = true) ∧ decimal f.value = n)
    (hvalues : ∀ f ∈ fields, ∃ c ∈ f.content, c ≠ space) (tail : Bytes) (req : Request)
    (length : Option Nat) : ∃ req' length',
      readHeads req length (headsText fields ++ (crlf ++ tail)) = readBody req' length' tail ∧
        (length' = some n ∨ length' = length ∧ ∀ f ∈ fields, f.name ≠ contentLengthKey) := by
  induction fields generalizing req length with
  | nil =>
    refine ⟨req, length, ?_, .inr ⟨rfl, nofun⟩⟩
    have hcut : cut crlf (crlf ++ tail) = some ([], tail) := cut_line not_mem_nil
    rw [headsText, flatMap_nil, nil_append, readHeads, hcut]
    rfl
  | cons f fields ih =>
    have hlater := ih (fun g hg => hright g (mem_cons_of_mem f hg))
      (fun g hg => hvalues g (mem_cons_of_mem f hg))
      (req.addHead f.name (stripSpaces f.content))
    have hcontent : f.content.dropWhile (· == space) ≠ [] := by
      obtain ⟨c, hc, hne⟩ := hvalues f mem_cons_self
      exact fun hnil => hne (by simpa using dropWhile_eq_nil_iff.mp hnil c hc)
    rw [readHeads.eq_1, cut_headsText]
    simp only [if_neg f.line_ne_nil, f.readHead_line, if_neg hcontent]
    by_cases hname : f.name = contentLengthKey
    · obtain ⟨hne, hdigits, hvalue⟩ := hright f mem_cons_self hname
      rw [f.readLength_eq hname hne hdigits hvalue, if_neg (Nat.not_le.mpr hn)]
      obtain ⟨req', length', hread, hlength⟩ := hlater (some n)
      exact ⟨req', length', hread, .inl (hlength.elim id (·.1))⟩
    · rw [readLength, if_neg hname]
      obtain ⟨req', length', hread, hlength⟩ := hlater length
      refine ⟨req', length', hread, hlength.imp_right fun hsame => ⟨hsame.1, ?_⟩⟩
      exact forall_mem_cons.mpr ⟨hname, hsame.2⟩

theorem readHeads_rejected (hright : ∀ f ∈ fields, f.name = contentLengthKey →
      f.value ≠ [] ∧ (∀ c ∈ f.value, isDigit c = true) ∧ decimal f.value = n)
    (hbad : (∃ f ∈ fields, ∀ c ∈ f.content, c = space) ∨ 2 ^ 31 ≤ n ∧ ∃ f ∈ fields, f.name = contentLengthKey)
    (tail : Bytes) (req : Request) (length : Option Nat) :
    readHeads req length (headsText fields ++ (crlf ++ tail)) = .malformed ∨
      ∃ e, readHeads req length (headsText fields ++ (crlf ++ tail)) = .threw e := by
  induction fields generalizing req length with
  | nil => simp at hbad
  | cons f fields ih =>
    have hlater := ih (fun g hg => hright g (mem_cons_of_mem f hg))
    rw [readHeads.eq_1, cut_headsText]
    simp only [if_neg f.line_ne_nil, f.readHead_line]
    by_cases hcontent : f.content.dropWhile (· == space) = []
    · exact .inl (by rw [if_pos hcontent])
    have hothers : (∃ g ∈ f :: fields, ∀ c ∈ g.content, c = space) →
        ∃ g ∈ fields, ∀ c ∈ g.content, c = space := by
      rintro ⟨g, hg, hspaces⟩
      rcases mem_cons.mp hg with rfl | hg
      · exact absurd (dropWhile_eq_nil_iff.mpr (by simpa using hspaces)) hcontent
      · exact ⟨g, hg, hspaces⟩
    simp only [if_neg hcontent]
    by_cases hname : f.name = contentLengthKey
    · obtain ⟨hne, hdigits, hvalue⟩ := hright f mem_cons_self hname
      rw [f.readLength_eq hname hne hdigits hvalue]
      by_cases hn : 2 ^ 31 ≤ n
      · rw [if_pos hn]
        exact .inr ⟨_, rfl⟩
      · rw [if_neg hn]
        exact hlater (.inl (hothers (hbad.resolve_right fun hlong => hn hlong.1))) _ _
    · rw [readLength, if_neg hname]
      refine hlater (hbad.imp hothers fun ⟨hn, g, hg, hkey⟩ => ⟨hn, g, ?_, hkey⟩) _ _
      exact (mem_cons.mp hg).resolve_left fun heq => hname (heq ▸ hkey)

end Heads

namespace WireRequest

variable (r : WireRequest)

theorem space_not_mem_target : space ∉ r.target := fun hmem => absurd (r.target_visible.2 space hmem) (by decide)

theorem method_ne_space : ∀ c ∈ r.method, (c != space) = true := fun c hc => by
  simpa using (ne_of_isTokenByte (r.method_token.2 c hc)).2.1

theorem not_mem_requestLine : 13 ∉ r.requestLine := by
  intro hmem
  rcases mem_append.mp hmem with hmethod | hmem
  · exact (ne_of_isTokenByte (r.method_token.2 13 hmethod)).1 rfl
  rcases mem_cons.mp hmem with hspace | hmem
  · exact absurd hspace (by decide)
  rcases mem_append.mp hmem with htarget | hmem
  · exact absurd (r.target_visible.2 13 htarget) (by decide)
  rcases mem_cons.mp hmem with hspace | hmem
  · exact absurd hspace (by decide)
  rcases mem_append.mp hmem with hversion | hminor
  · exact absurd hversion (by decide)
  · have hdigit := r.minor_digit
    rw [← mem_singleton.mp hminor] at hdigit
    exact absurd hdigit (by decide)

theorem wire_append (tail : Bytes) : r.wire ++ tail =
    r.requestLine ++ crlf ++ (headsText r.fields ++ (crlf ++ (r.body ++ tail))) := by
  simp [wire, append_assoc]

theorem readTarget_tail : readTarget (space :: (r.target ++ space :: r.version)) =
    (targetPath r.target).bind fun url =>
      if stringToHttpVer r.version = .kUnset then none
      else some (url, stringToHttpVer r.version) :=
  readTarget_line r.target_visible.1 r.space_not_mem_target
    (dropWhile_cons_of_neg (by decide))

theorem readStart_wire (tail : Bytes) : readStart (r.wire ++ tail) =
    if stringToMethod r.method = .kUnset then .malformed
    else match readTarget (space :: (r.target ++ space :: r.version)) with
      | none => .malformed
      | some (url, httpVer) => readHeads { method := stringToMethod r.method, url, httpVer } none
          (headsText r.fields ++ (crlf ++ (r.body ++ tail))) := by
  rw [wire_append]
  exact readStart_line r.method_ne_space r.not_mem_requestLine

theorem read_supported (h : r.Supported) (tail : Bytes) : ∃ req,
    readStart (r.wire ++ tail) = .complete req (some r.body.length) tail := by
  obtain ⟨url, hurl⟩ := isSome_iff_exists.mp h.target
  rw [readStart_wire, if_neg h.method, readTarget_tail, hurl, bind_some, if_neg h.version]
  obtain ⟨req', length', hread, hlength⟩ := readHeads_accepted h.length r.length_right h.values
    (r.body ++ tail)
    { method := stringToMethod r.method, url, httpVer := stringToHttpVer r.version } none
  obtain rfl : length' = some r.body.length := by
    refine hlength.resolve_right fun hnone => ?_
    obtain ⟨f, hf, hname⟩ := r.length_given
    exact hnone.2 f hf hname
  refine ⟨{ req' with body := r.body }, hread.trans ?_⟩
  rw [readBody, if_pos (by simp), take_left, drop_left]

theorem read_unsupported (h : ¬r.Supported) (tail : Bytes) : readStart (r.wire ++ tail) = .malformed ∨
      ∃ e, readStart (r.wire ++ tail) = .threw e := by
  rw [readStart_wire, readTarget_tail]
  by_cases hmethod : stringToMethod r.method = .kUnset
  · exact .inl (if_pos hmethod)
  rw [if_neg hmethod]
  cases htarget : targetPath r.target with
  | none => exact .inl rfl
  | some url =>
    rw [bind_some]
    by_cases hversion : stringToHttpVer r.version = .kUnset
    · rw [if_pos hversion]
      exact .inl rfl
    rw [if_neg hversion]
    refine readHeads_rejected r.length_right ?_ _ _ _
    by_contra hgood
    rw [not_or, not_and_or] at hgood
    refine h ⟨hmethod, htarget ▸ rfl, hversion, fun f hf => ?_, ?_⟩
    · by_contra hspaces
      exact hgood.1 ⟨f, hf, by simpa using hspaces⟩
    · exact Nat.lt_of_not_le (hgood.2.resolve_right (not_not.mpr r.length_given))

section Part

variable {r : WireRequest} {part rest : Bytes}

theorem wire_ne_nil (r : WireRequest) : r.wire ≠ [] := by simp [wire, requestLine]

theorem not_complete_of_unsupported (h : ¬r.Supported) (tail : Bytes) (req : Request)
    (length : Option Nat) (rest : Bytes) : readStart (r.wire ++ tail) ≠ .complete req length rest := by
  intro hread
  rcases r.read_unsupported h tail with hmalformed | ⟨e, hthrew⟩
  · cases hread.symm.trans hmalformed
  · cases hread.symm.trans hthrew

theorem not_complete_of_part (hwire : r.wire = part ++ rest) (hrest : rest ≠ [])
    (req : Request) (length : Option Nat) (left : Bytes) : readStart part ≠ .complete req length left := by
  intro hread
  have hextends := readStart_append rest fun hmalformed => absurd (hread.symm.trans hmalformed) nofun
  rw [hread, ← hwire] at hextends
  by_cases h : r.Supported
  · obtain ⟨req', hwhole⟩ := r.read_supported h []
    rw [append_nil] at hwhole
    cases length with
    | none =>
      obtain ⟨_, hnone⟩ := hextends
      cases hwhole.symm.trans hnone
    | some n =>
      have hleft := (Reading.complete.inj (hwhole.symm.trans hextends)).2.2
      exact hrest (append_eq_nil_iff.mp hleft.symm).2
  · have hwhole := not_complete_of_unsupported h []
    rw [append_nil] at hwhole
    cases length with
    | none =>
      obtain ⟨req', hnone⟩ := hextends
      exact hwhole _ _ _ hnone
    | some n => exact hwhole _ _ _ hextends

theorem eq_of_prefix_method {method : Bytes} (h : stringToMethod method ≠ .kUnset)
    (hpart : stringToMethod part ≠ .kUnset) (hbegins : part <+: method) : part = method := by
  obtain ⟨_, hmethod⟩ := mem_methodMap h
  obtain ⟨_, hpart⟩ := mem_methodMap hpart
  have htable : ∀ a ∈ methodMap, ∀ b ∈ methodMap, a.2 <+: b.2 → a.2 = b.2 := by decide
  exact htable _ hpart _ hmethod hbegins

theorem methodText_of_isPrefix (hbegins : part <+: r.method) : methodText part = part :=
  takeWhile_eq_self_iff.mpr fun c hc => r.method_ne_space c (hbegins.subset hc)

theorem read_cut_method (h : stringToMethod r.method ≠ .kUnset) (hbegins : part <+: r.method)
    (hne : part ≠ r.method) : readStart part = .malformed := by
  rw [readStart, methodText_of_isPrefix hbegins]
  refine if_pos ?_
  by_contra hpart
  exact hne (eq_of_prefix_method h hpart hbegins)

theorem read_part (h : r.Supported) (hwire : r.wire = part ++ rest) (hrest : rest ≠ [])
    (hmethod : part <+: r.method → part = r.method) : ∃ stage left, readStart part = .waiting stage left := by
  obtain ⟨req, hwhole⟩ := r.read_supported h []
  rw [append_nil, hwire] at hwhole
  cases hread : readStart part with
  | waiting stage left => exact ⟨stage, left, rfl⟩
  | complete req length left => exact absurd hread (not_complete_of_part hwire hrest _ _ _)
  | threw e =>
    have hextends := readStart_append rest fun hmalformed => absurd (hread.symm.trans hmalformed) nofun
    rw [hread] at hextends
    cases hwhole.symm.trans hextends
  | malformed =>
    exfalso
    by_cases hspace : space ∈ part
    · have hextends := readStart_append rest fun _ => hspace
      rw [hread] at hextends
      cases hwhole.symm.trans hextends
    -- without a space there is at most the method, which is in the table
    have hbegins : part <+: r.method := by
      have hsplit : part ++ rest = r.method ++ space ::
          (r.target ++ space :: r.version ++ crlf ++ (headsText r.fields ++ crlf ++ r.body)) := by
        rw [← hwire]
        simp [wire, requestLine]
      rcases append_eq_append_iff.mp hsplit with ⟨more, hmore, -⟩ | ⟨more, hmore, htail⟩
      · exact ⟨more, hmore.symm⟩
      cases more with
      | nil => rw [hmore, append_nil]
      | cons c more =>
        rw [cons_append, List.cons.injEq] at htail
        exact absurd (by simp [hmore, htail.1]) hspace
    have hpart := hmethod hbegins
    have hset : stringToMethod (methodText part) ≠ .kUnset := by
      rw [methodText_of_isPrefix hbegins, hpart]
      exact h.method
    rw [readStart, if_neg hset] at hread
    have hcut : cut crlf part = none := cut_of_not_mem fun hmem =>
      (ne_of_isTokenByte (r.method_token.2 13 (hbegins.subset hmem))).1 rfl
    rw [hcut] at hread
    cases hread

end Part

end WireRequest

section Stream

variable {reqs done : List WireRequest} {text : Bytes} {taken : List (Request × Option Nat)}
  {last : Reading}

theorem stream_cons (r : WireRequest) (reqs : List WireRequest) : stream (r :: reqs) = r.wire ++ stream reqs := rfl

theorem reads_stream_append (hdone : ∀ r ∈ done, r.Supported) (h : Reads .start text taken last) :
    ∃ taken', (∀ item ∈ taken', item.2.isSome) ∧ Reads .start (stream done ++ text) (taken' ++ taken) last := by
  induction done with
  | nil => exact ⟨[], nofun, h⟩
  | cons r done ih =>
    obtain ⟨taken', hsized, hreads⟩ := ih fun r' hr' => hdone r' (mem_cons_of_mem r hr')
    obtain ⟨req, hread⟩ := r.read_supported (hdone r mem_cons_self) (stream done ++ text)
    refine ⟨(req, some r.body.length) :: taken', forall_mem_cons.mpr ⟨rfl, hsized⟩, ?_⟩
    rw [stream_cons, append_assoc]
    exact .take (append_ne_nil_of_left_ne_nil r.wire_ne_nil _) hread hreads

theorem prefix_stream_cons {r : WireRequest} (h : text <+: stream (r :: reqs)) :
    (∃ rest, r.wire = text ++ rest ∧ rest ≠ []) ∨ ∃ more, text = r.wire ++ more ∧ more <+: stream reqs := by
  obtain ⟨rest, hrest⟩ := h
  rcases append_eq_append_iff.mp hrest with ⟨more, hmore, -⟩ | ⟨more, hmore, hstream⟩
  · by_cases hnil : more = []
    · refine .inr ⟨[], ?_, nil_prefix⟩
      rw [hmore, hnil, append_nil, append_nil]
    · exact .inl ⟨more, hmore, hnil⟩
  · exact .inr ⟨more, hmore, rest, hstream.symm⟩

theorem reads_sized (h : Reads .start text taken last) (htext : text <+: stream reqs) :
    ∀ item ∈ taken, item.2.isSome := by
  induction reqs generalizing text taken last with
  | nil =>
    obtain rfl := prefix_nil.mp htext
    cases h with
    | idle => exact nofun
    | stop hne => exact absurd rfl hne
    | take hne => exact absurd rfl hne
  | cons r reqs ih =>
    cases h with
    | idle => exact nofun
    | stop => exact nofun
    | @take _ _ left req length taken _ hne hread hrest =>
      rcases prefix_stream_cons htext with ⟨rest, hwire, hnil⟩ | ⟨more, rfl, hmore⟩
      · exact absurd hread (WireRequest.not_complete_of_part hwire hnil _ _ _)
      by_cases hr : r.Supported
      · obtain ⟨req', hread'⟩ := r.read_supported hr more
        obtain ⟨rfl, rfl, rfl⟩ := Reading.complete.inj (hread.symm.trans hread')
        exact forall_mem_cons.mpr ⟨rfl, ih hrest hmore⟩
      · exact absurd hread (WireRequest.not_complete_of_unsupported hr _ _ _ _)

theorem reads_unsupported (hbad : ∃ r ∈ reqs, ¬r.Supported)
    (h : Reads .start (stream reqs) taken last) (stage : Stage) (rest : Bytes) : last ≠ .waiting stage rest := by
  induction reqs generalizing taken with
  | nil => simp at hbad
  | cons r reqs ih =>
    rw [stream_cons] at h
    have hne : r.wire ++ stream reqs ≠ [] := append_ne_nil_of_left_ne_nil r.wire_ne_nil _
    by_cases hr : r.Supported
    · obtain ⟨req, hread⟩ := r.read_supported hr (stream reqs)
      obtain ⟨taken', last', hreads, -⟩ := exists_reads_start (stream reqs)
      obtain ⟨-, rfl⟩ := h.unique (.take hne hread hreads)
      refine ih ?_ hreads
      obtain ⟨bad, hmem, hbad⟩ := hbad
      exact ⟨bad, (mem_cons.mp hmem).resolve_left fun heq => hbad (heq ▸ hr), hbad⟩
    · have hstop : Reads .start (r.wire ++ stream reqs) [] _ :=
        .stop hne (WireRequest.not_complete_of_unsupported hr (stream reqs))
      obtain ⟨-, rfl⟩ := h.unique hstop
      rcases r.read_unsupported hr (stream reqs) with hread | ⟨e, hread⟩
      · exact fun heq => nomatch hread.symm.trans heq
      · exact fun heq => nomatch hread.symm.trans heq

theorem reads_waiting (hreqs : ∀ r ∈ reqs, r.Supported) (htext : text <+: stream reqs)
    (hcut : ∀ done r later part, reqs = done ++ r :: later → text = stream done ++ part →
      part <+: r.method → part ≠ [] → part = r.method)
    (h : Reads .start text taken last) : ∃ stage rest, last = .waiting stage rest := by
  induction reqs generalizing text taken with
  | nil =>
    obtain rfl := prefix_nil.mp htext
    obtain ⟨-, rfl⟩ := h.unique (.idle .start)
    exact ⟨_, _, rfl⟩
  | cons r reqs ih =>
    have hr := hreqs r mem_cons_self
    rcases prefix_stream_cons htext with ⟨rest, hwire, hnil⟩ | ⟨more, rfl, hmore⟩
    · by_cases hempty : text = []
      · subst hempty
        obtain ⟨-, rfl⟩ := h.unique (.idle .start)
        exact ⟨_, _, rfl⟩
      have hmethod : text <+: r.method → text = r.method := fun hbegins => hcut [] r reqs text rfl rfl hbegins hempty
      obtain ⟨stage, left, hread⟩ := WireRequest.read_part hr hwire hnil hmethod
      obtain ⟨-, rfl⟩ := h.unique (.stop hempty (WireRequest.not_complete_of_part hwire hnil))
      exact ⟨stage, left, hread⟩
    · obtain ⟨req, hread⟩ := r.read_supported hr more
      obtain ⟨taken', last', hreads, -⟩ := exists_reads_start more
      obtain ⟨-, rfl⟩ := h.unique (.take (append_ne_nil_of_left_ne_nil r.wire_ne_nil _) hread hreads)
      refine ih (fun r' hr' => hreqs r' (mem_cons_of_mem r hr')) hmore ?_ hreads
      rintro done r' later part rfl rfl
      exact hcut (r :: done) r' later part rfl (by rw [stream_cons, append_assoc])

theorem reads_cut_method {r : WireRequest} {part : Bytes} (hdone : ∀ r' ∈ done, r'.Supported)
    (hr : r.Supported) (hbegins : part <+: r.method) (hne : part ≠ []) (hpart : part ≠ r.method)
    (h : Reads .start (stream done ++ part) taken last) : last = .malformed := by
  have hread := WireRequest.read_cut_method hr.method hbegins hpart
  have hstop : Reads .start part [] (Stage.start.read part) := .stop hne fun _ _ _ heq => nomatch hread.symm.trans heq
  obtain ⟨taken', -, hreads⟩ := reads_stream_append hdone hstop
  obtain ⟨-, rfl⟩ := h.unique hreads
  exact hread

end Stream

namespace Receiver

/-- The receiver has received `text` and waits for more. -/
def Has (r : Receiver) (text : Bytes) : Prop :=
  ∃ stage taken, r.parser.Models stage ∧ Reads .start text taken (.waiting stage r.buff) ∧
    (∀ item ∈ taken, item.2.isSome) ∧ r.requests = taken.map (·.1)

variable {r r' : Receiver} {text segment : Bytes} {reqs : List WireRequest}

theorem Has.state_ne (h : r.Has text) : r.parser.state ≠ .kFail := by
  obtain ⟨stage, _, hmodels, -⟩ := h
  cases stage <;> exact hmodels.1 ▸ nofun

theorem Has.requests_eq (h : r.Has text) (h' : r'.Has text) : r.requests = r'.requests := by
  obtain ⟨_, taken, -, hreads, -, hreqs⟩ := h
  obtain ⟨_, taken', -, hreads', -, hreqs'⟩ := h'
  rw [hreqs, hreqs', (hreads.unique hreads').1]

theorem Has.receive (h : r.Has text) (htext : text ++ segment <+: stream reqs) :
    ∃ taken last, Reads .start (text ++ segment) taken last ∧
      ((∃ r', r.receive segment = .ok r' ∧ r'.parser.state ≠ .kFail) → ∃ stage rest, last = .waiting stage rest) ∧
      ((∃ stage rest, last = .waiting stage rest) → ∃ r', r.receive segment = .ok r' ∧ r'.Has (text ++ segment)) := by
  obtain ⟨stage, taken, hmodels, hreads, hsized, hreqs⟩ := h
  obtain ⟨taken', last, hreads', hstops⟩ := r.receive_stops segment hmodels
  have hboth := hreads.append hsized hreads'
  refine ⟨_, last, hboth, ?_, ?_⟩
  · rintro ⟨r', hr', hstate⟩
    cases last with
    | waiting stage' rest => exact ⟨stage', rest, rfl⟩
    | complete => exact hstops.elim
    | malformed =>
      obtain ⟨r'', hr'', hfail⟩ := hstops
      cases hr''.symm.trans hr'
      exact absurd hfail hstate
    | threw e => cases hr'.symm.trans hstops
  · rintro ⟨stage', rest, rfl⟩
    obtain ⟨parser, hparser, hr'⟩ := hstops
    refine ⟨_, hr', stage', _, hparser, hboth, reads_sized hboth htext, ?_⟩
    rw [hreqs, map_append]

theorem receiveAll_concat (segments : List Bytes) (segment : Bytes) : receiveAll {} (segments ++ [segment]) =
      receiveAll {} segments >>= fun r => r.receive segment := by
  simp [receiveAll]

theorem receiveAll_has {segments : List Bytes} (htext : segments.flatten <+: stream reqs)
    (hok : ∀ pre, pre <+: segments → (∃ r, receiveAll {} pre = .ok r ∧ r.parser.state ≠ .kFail) ∨
        ∀ taken last, Reads .start pre.flatten taken last → ∃ stage rest, last = .waiting stage rest) :
    ∃ r, receiveAll {} segments = .ok r ∧ r.Has segments.flatten := by
  induction segments using List.reverseRecOn with
  | nil => exact ⟨{}, rfl, .start, [], ⟨rfl, rfl⟩, .idle .start, nofun, rfl⟩
  | append_singleton segments segment ih =>
    have hflatten : (segments ++ [segment]).flatten = segments.flatten ++ segment := by simp
    rw [hflatten] at htext ⊢
    obtain ⟨r, hr, hhas⟩ := ih ((prefix_append _ _).trans htext)
      fun pre hpre => hok pre (hpre.trans (prefix_append _ _))
    obtain ⟨taken, last, hreads, hwaits, hreceive⟩ := hhas.receive htext
    have hwhole : receiveAll {} (segments ++ [segment]) = r.receive segment := by
      rw [receiveAll_concat, hr]
      rfl
    rw [hwhole]
    refine hreceive ?_
    rcases hok _ prefix_rfl with hstate | hall
    · rw [hwhole] at hstate
      exact hwaits hstate
    · exact hall taken last (hflatten ▸ hreads)

end Receiver

/-- **Segmentation.** A stream is received in segments as in one piece exactly when every request is one the parser
takes and no segment ends within a method. -/
theorem segmentationFree_iff (reqs : List WireRequest) (segments : List Bytes)
    (hstream : segments.flatten = stream reqs) : SegmentationFree segments ↔
      (∀ r ∈ reqs, r.Supported) ∧ ¬CutsMethod reqs segments := by
  have harrived : ∀ pre, pre <+: segments → pre.flatten <+: stream reqs := by
    rintro pre ⟨later, rfl⟩
    rw [← hstream, List.flatten_append]
    exact List.prefix_append _ _
  constructor
  · rintro ⟨hok, -⟩
    have hhas : ∀ pre, pre <+: segments →
        ∃ taken stage rest, Reads .start pre.flatten taken (.waiting stage rest) := by
      intro pre hpre
      obtain ⟨r, -, stage, taken, -, hreads, -⟩ := Receiver.receiveAll_has (harrived pre hpre)
        fun first hfirst => .inl (hok first (hfirst.trans hpre))
      exact ⟨taken, stage, r.buff, hreads⟩
    have hsupported : ∀ r ∈ reqs, r.Supported := by
      by_contra hbad
      simp only [not_forall] at hbad
      obtain ⟨r, hr, hunsupported⟩ := hbad
      obtain ⟨taken, stage, rest, hreads⟩ := hhas segments List.prefix_rfl
      rw [hstream] at hreads
      exact reads_unsupported ⟨r, hr, hunsupported⟩ hreads stage rest rfl
    refine ⟨hsupported, ?_⟩
    rintro ⟨pre, done, req, later, part, hpre, rfl, hbegins, hne, hpart, hflatten⟩
    obtain ⟨taken, stage, rest, hreads⟩ := hhas pre hpre
    rw [hflatten] at hreads
    have hmalformed := reads_cut_method
      (fun r hr => hsupported r (List.mem_append_left _ hr))
      (hsupported req (List.mem_append_right _ List.mem_cons_self)) hbegins hne hpart hreads
    cases hmalformed
  · rintro ⟨hsupported, hcut⟩
    have hwaits : ∀ pre, pre <+: segments → ∀ taken last, Reads .start pre.flatten taken last →
        ∃ stage rest, last = .waiting stage rest := by
      intro pre hpre taken last hreads
      refine reads_waiting hsupported (harrived pre hpre) ?_ hreads
      intro done r later part hreqs hflatten hbegins hne
      by_contra hpart
      exact hcut ⟨pre, done, r, later, part, hpre, hreqs, hbegins, hne, hpart, hflatten⟩
    have hhas : ∀ pre, pre <+: segments →
        ∃ r, Receiver.receiveAll {} pre = .ok r ∧ r.Has pre.flatten := fun pre hpre =>
      Receiver.receiveAll_has (harrived pre hpre) fun first hfirst =>
        .inr (hwaits first (hfirst.trans hpre))
    obtain ⟨r, hr, hhasAll⟩ := hhas segments List.prefix_rfl
    have hone : [segments.flatten].flatten = segments.flatten := by simp
    obtain ⟨whole, hwhole, hhasWhole⟩ : ∃ whole, Receiver.receiveAll {} [segments.flatten] = .ok whole ∧
          whole.Has [segments.flatten].flatten := by
      refine Receiver.receiveAll_has (hone ▸ harrived segments List.prefix_rfl) fun pre hpre => ?_
      rcases List.prefix_cons_iff.mp hpre with rfl | ⟨later, rfl, hlater⟩
      · exact .inr (hwaits [] List.nil_prefix)
      · rw [List.prefix_nil.mp hlater, hone]
        exact .inr (hwaits segments List.prefix_rfl)
    rw [hone] at hhasWhole
    refine ⟨fun pre hpre => ?_, r, whole, hr, hwhole, hhasAll.requests_eq hhasWhole⟩
    obtain ⟨r', hr', hhas'⟩ := hhas pre hpre
    exact ⟨r', hr', hhas'.state_ne⟩

theorem forall_mem_of_all {p : UInt8 → Prop} [DecidablePred p] {str : Bytes}
    (h : (str.all fun c => decide (p c)) = true) : ∀ c ∈ str, p c := by
  simpa using h

/-- A request without a body. -/
def getIndex : WireRequest where
  method := bytes "GET"
  target := bytes "/"
  minor := 49
  fields := [{
    name := contentLengthKey
    before := bytes " "
    value := bytes "0"
    after := []
    name_token := ⟨by decide, forall_mem_of_all (by decide)⟩
    before_blank := forall_mem_of_all (by decide)
    value_line := forall_mem_of_all (by decide)
    after_blank := forall_mem_of_all (by decide) }]
  body := []
  method_token := ⟨by decide, forall_mem_of_all (by decide)⟩
  target_visible := ⟨by decide, forall_mem_of_all (by decide)⟩
  minor_digit := by decide
  length_given := ⟨_, List.mem_singleton_self _, rfl⟩
  length_right := by
    intro f hf _
    rw [List.mem_singleton.mp hf]
    exact ⟨by decide, forall_mem_of_all (by decide), by decide⟩

theorem segmentationFree_between_cr_and_lf :
    SegmentationFree [bytes "GET / HTTP/1.1\r", bytes "\nContent-Length: 0\r\n\r\n"] := by
  refine (segmentationFree_iff [getIndex] _ (by decide)).mpr ⟨?_, ?_⟩
  · intro r hr
    rw [List.mem_singleton.mp hr]
    exact ⟨by decide, by decide, by decide, by decide, by decide⟩
  · rintro ⟨pre, done, r, later, part, hpre, hreqs, hbegins, hne, -, hflatten⟩
    cases done with
    | cons => simp at hreqs
    | nil =>
      obtain ⟨rfl, -⟩ := List.cons.inj hreqs
      have hlength : part.length ≤ 3 := hbegins.length_le
      rcases List.prefix_cons_iff.mp hpre with rfl | ⟨rest, rfl, -⟩
      · exact hne hflatten.symm
      · rw [show part = _ from hflatten.symm, List.flatten_cons, List.length_append] at hlength
        have hfirst : (bytes "GET / HTTP/1.1\r").length = 15 := by decide
        omega

/-- The parser looks up what it has of a method. -/
theorem cut_method_fails :
    [bytes "GE", bytes "T / HTTP/1.1\r\nContent-Length: 0\r\n\r\n"].flatten = stream [getIndex] ∧
      ¬SegmentationFree [bytes "GE", bytes "T / HTTP/1.1\r\nContent-Length: 0\r\n\r\n"] := by
  refine ⟨by decide, fun hfree => ?_⟩
  obtain ⟨r, hr, hstate⟩ := hfree.1 [bytes "GE"] (List.prefix_append _ _)
  have hfail : (Receiver.receiveAll {} [bytes "GE"]).map (·.parser.state) = .ok .kFail := by decide
  rw [hr] at hfail
  exact hstate (Except.ok.inj hfail)

end Tbox.Http
