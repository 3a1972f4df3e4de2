import Tbox.Proof.ParserTotal

/-!
# Swapping and resetting a parser

`swap` leaves the content lengths of two parsers where they are. A parser reads its own only between its start line
and the end of its request: there, and only there, a swap changes what a parser does.
-/

open List Option

namespace Tbox.Http

open Tbox.Lib Tbox.Lib.StdString

namespace RequestParser

inductive Call
  | parse (str : Bytes)
  | getRequest

inductive Seen
  | parsed (n : Nat) (state : ParserState) (request : Option Request)
  | taken (result : Option Request) (state : ParserState)
  | threw (e : Fault)
  deriving DecidableEq

def observe (p : RequestParser) : List Call → List Seen
  | [] => []
  | .parse str :: calls =>
    match p.parse str with
    | .error e => [.threw e]
    | .ok (n, p') => .parsed n p'.state p'.request :: observe p' calls
  | .getRequest :: calls =>
    .taken p.getRequest.1 p.getRequest.2.state :: observe p.getRequest.2 calls

/-- After `a.swap(b)` each parser goes on with the other one's stream as that one would have. -/
def Exchange (a b : RequestParser) : Prop :=
  ∀ calls, observe (a.swap b).1 calls = observe b calls ∧
    observe (a.swap b).2 calls = observe a calls

def StartsOver (p : RequestParser) : Prop := ∀ calls, observe p.reset calls = observe {} calls

/-- Between the start line and the end of the request. -/
def Midway (p : RequestParser) : Prop :=
  p.state = .kFinishedStartLine ∨ p.state = .kFinishedHeads

variable {p q a b : RequestParser} {req : Request} {str body : Bytes}

/-- The parsers differ in nothing that a later call reads. -/
structure Agree (p q : RequestParser) : Prop where
  state : p.state = q.state
  request : p.request = q.request
  length : p.Midway → p.contentLength = q.contentLength

theorem Agree.eq (h : p.Agree q) (hp : p.Midway) : p = q := by
  obtain ⟨state, request, contentLength⟩ := p
  obtain ⟨state', request', contentLength'⟩ := q
  obtain ⟨hstate, hrequest, hlength⟩ := h
  simpa using ⟨hstate, hrequest, hlength hp⟩

theorem parse_congr (hstate : p.state = .kInit) (hq : q.state = .kInit)
    (hrequest : p.request = q.request) : p.parse str = q.parse str := by
  have hline : p.parseStartLine str = q.parseStartLine str := by
    simp only [parseStartLine, hrequest, hstate, hq]
  simp only [RequestParser.parse, hstate, hq, if_true, hline]

theorem Agree.parse (h : p.Agree q) (str : Bytes) : p.parse str = q.parse str ∨
    p.parse str = .ok (0, p) ∧ q.parse str = .ok (0, q) := by
  cases hstate : p.state with
  | kInit => exact .inl (parse_congr hstate (h.state ▸ hstate) h.request)
  | kFinishedStartLine => exact .inl (congrArg (·.parse str) (h.eq (.inl hstate)))
  | kFinishedHeads => exact .inl (congrArg (·.parse str) (h.eq (.inr hstate)))
  | kFinishedAll =>
    have hidle := parse_of_idle (p := q) str (.inl (h.state ▸ hstate))
    exact .inr ⟨parse_of_idle str (.inl hstate), hidle⟩
  | kFail =>
    have hidle := parse_of_idle (p := q) str (.inr (h.state ▸ hstate))
    exact .inr ⟨parse_of_idle str (.inr hstate), hidle⟩

theorem Agree.getRequest (h : p.Agree q) : p.getRequest.1 = q.getRequest.1 ∧ p.getRequest.2.Agree q.getRequest.2 := by
  rw [RequestParser.getRequest, RequestParser.getRequest, ← h.state]
  split_ifs
  · exact ⟨h.request, rfl, rfl, fun hmidway => by simp [Midway] at hmidway⟩
  · exact ⟨rfl, h⟩

theorem Agree.observe (h : p.Agree q) (calls : List Call) : p.observe calls = q.observe calls := by
  induction calls generalizing p q with
  | nil => rfl
  | cons call calls ih =>
    cases call with
    | parse str =>
      simp only [RequestParser.observe]
      rcases h.parse str with heq | ⟨hp, hq⟩
      · rw [heq]
      · rw [hp, hq]
        simp only [h.state, h.request, ih h]
    | getRequest =>
      obtain ⟨htaken, hagree⟩ := h.getRequest
      simp only [RequestParser.observe]
      rw [htaken, hagree.state, ih hagree]

theorem startsOver (p : RequestParser) : p.StartsOver := by
  intro calls
  apply Agree.observe
  exact ⟨rfl, rfl, fun hmidway => by simp [Midway, reset, swap] at hmidway⟩

theorem exchange_of_length (h : a.contentLength = b.contentLength) : Exchange a b := by
  intro calls
  constructor
  · apply Agree.observe
    exact ⟨rfl, rfl, fun _ => h⟩
  · apply Agree.observe
    exact ⟨rfl, rfl, fun _ => h.symm⟩

theorem exchange_of_not_midway (ha : ¬a.Midway) (hb : ¬b.Midway) : Exchange a b := by
  intro calls
  constructor
  · apply Agree.observe
    exact ⟨rfl, rfl, fun h => absurd h hb⟩
  · apply Agree.observe
    exact ⟨rfl, rfl, fun h => absurd h ha⟩

def lead (p : RequestParser) : Bytes := if p.state = .kFinishedStartLine then crlf else []

theorem parse_lead (hp : p.Midway) (hreq : p.request = some req) (body : Bytes) :
    Ends (p.lead ++ body) (p.parse (p.lead ++ body)) (readBody req (lengthOf p.contentLength) body) := by
  rcases hp with hstate | hstate
  · have hmodels : p.Models (.heads req (lengthOf p.contentLength)) := ⟨hstate, hreq, rfl⟩
    have hends := parse_ends hmodels (crlf ++ body)
    have hcut : cut crlf (crlf ++ body) = some ([], body) := cut_line not_mem_nil
    rw [Stage.read, readHeads, hcut] at hends
    rwa [lead, if_pos hstate]
  · have hmodels : p.Models (.body req (lengthOf p.contentLength)) := ⟨hstate, hreq, rfl⟩
    rw [lead, if_neg (by simp [hstate])]
    exact parse_ends hmodels body

theorem parsed_ne {m n : Nat} {state state' : ParserState} {request request' : Option Request}
    {seen seen' : List Seen} (h : m ≠ n) :
    Seen.parsed m state request :: seen ≠ Seen.parsed n state' request' :: seen' := by
  intro heq
  injection heq with heq _
  injection heq with hn
  exact h hn

theorem observe_ne {c : Nat} (hp : p.Midway) (hstate : p.state = q.state)
    (hrequest : p.request = q.request) (hsome : p.request.isSome) (hshort : lengthOf p.contentLength = some c)
    (hlong : ∀ d, lengthOf q.contentLength = some d → c < d) : ∃ calls, p.observe calls ≠ q.observe calls := by
  obtain ⟨req, hreq⟩ := isSome_iff_exists.mp hsome
  let body : Bytes := List.replicate (c + 1) 0
  have hbody : body.length = c + 1 := length_replicate
  have hlead : p.lead = q.lead := by simp only [lead, hstate]
  have hq : q.Midway := by simpa only [Midway, hstate] using hp
  have hshortEnds := parse_lead hp hreq body
  have hlongEnds := parse_lead hq (hrequest ▸ hreq) body
  rw [hshort, readBody, if_pos (by omega)] at hshortEnds
  rw [← hlead] at hlongEnds
  obtain ⟨p', hparse, hdone, -⟩ := ends_complete hshortEnds
  refine ⟨[.parse (p.lead ++ body)], ?_⟩
  simp only [observe, hparse]
  have htotal : (p.lead ++ body).length = p.lead.length + (c + 1) := by simp [hbody]
  have hrest : (body.drop c).length = 1 := by simp [hbody]
  cases hlength : lengthOf q.contentLength with
  | none =>
    rw [hlength] at hlongEnds
    obtain ⟨q', hparse', -, -⟩ := ends_complete hlongEnds
    simp only [hparse', length_nil]
    apply parsed_ne
    omega
  | some d =>
    have hd := hlong d hlength
    rw [hlength, readBody] at hlongEnds
    by_cases henough : d ≤ body.length
    · rw [if_pos henough] at hlongEnds
      obtain ⟨q', hparse', -, -⟩ := ends_complete hlongEnds
      have hnone : (body.drop d).length = 0 := by simp only [length_drop]; omega
      simp only [hparse']
      apply parsed_ne
      omega
    · rw [if_neg henough] at hlongEnds
      obtain ⟨n, q', hparse', -, -, hmodels⟩ := hlongEnds
      simp only [hparse']
      intro heq
      injection heq with heq _
      injection heq with _ hends
      rw [hdone, hmodels.1] at hends
      cases hends

theorem lengthOf_inj {m n : Nat} (h : lengthOf m = lengthOf n) : m = n := by
  simp only [lengthOf] at h
  split_ifs at h <;> simp_all

theorem exists_observe_ne (hp : p.Midway) (hstate : p.state = q.state)
    (hrequest : p.request = q.request) (hsome : p.request.isSome) (hlength : p.contentLength ≠ q.contentLength) :
    ∃ calls, p.observe calls ≠ q.observe calls := by
  have hq : q.Midway := by simpa only [Midway, hstate] using hp
  have hsome' : q.request.isSome := hrequest ▸ hsome
  have hswapped : (∃ calls, q.observe calls ≠ p.observe calls) →
      ∃ calls, p.observe calls ≠ q.observe calls := fun ⟨calls, hne⟩ => ⟨calls, hne.symm⟩
  have hne : lengthOf p.contentLength ≠ lengthOf q.contentLength := fun h => hlength (lengthOf_inj h)
  cases hshort : lengthOf p.contentLength with
  | none =>
    cases hlong : lengthOf q.contentLength with
    | none => simp [hshort, hlong] at hne
    | some d =>
      apply hswapped
      exact observe_ne hq hstate.symm hrequest.symm hsome' hlong (by simp [hshort])
  | some c =>
    cases hlong : lengthOf q.contentLength with
    | none => exact observe_ne hp hstate hrequest hsome hshort (by simp [hlong])
    | some d =>
      rw [hshort, hlong, Ne, some_inj] at hne
      rcases Nat.lt_or_gt_of_ne hne with hlt | hgt
      · apply observe_ne hp hstate hrequest hsome hshort
        simp [hlong, hlt]
      · apply hswapped
        apply observe_ne hq hstate.symm hrequest.symm hsome' hlong
        simp [hshort, hgt]

theorem Sound.isSome (hp : p.Sound) (hmidway : p.Midway) : p.request.isSome := by
  rcases hmidway with hstate | hstate <;> simpa [Sound, hstate] using hp

/-- **Exchange.** A swap moves the whole progress of two parsers, and a reset starts over, exactly
when the parsers hold the same content length or neither is midway. -/
theorem exchange_iff (ha : Reachable a) (hb : Reachable b) : Exchange a b ∧ a.StartsOver ↔
    a.contentLength = b.contentLength ∨ ¬a.Midway ∧ ¬b.Midway := by
  rw [and_iff_left (startsOver a)]
  constructor
  · intro h
    by_contra hcond
    obtain ⟨hlength, hmidway⟩ := not_or.mp hcond
    by_cases hmid : b.Midway
    · have hswapped : (a.swap b).1.Midway := hmid
      obtain ⟨calls, hne⟩ := exists_observe_ne (q := b) hswapped rfl rfl
        (hb.sound.isSome hmid) hlength
      exact hne (h calls).1
    · have hmid' : a.Midway := by
        by_contra hmid'
        exact hmidway ⟨hmid', hmid⟩
      have hswapped : (a.swap b).2.Midway := hmid'
      obtain ⟨calls, hne⟩ := exists_observe_ne (q := a) hswapped rfl rfl
        (ha.sound.isSome hmid') (Ne.symm hlength)
      exact hne (h calls).2
  · rintro (hlength | ⟨hmida, hmidb⟩)
    · exact exchange_of_length hlength
    · exact exchange_of_not_midway hmida hmidb

/-- A parser that waits for the three bytes of its body. -/
def waiting : RequestParser where
  state := .kFinishedHeads
  request := some {
    method := .kPost
    httpVer := .k1_1
    url := { path := bytes "/" }
    headers := StringMap.empty.set contentLengthKey (bytes "3") }
  contentLength := 3

def waitingPut : RequestParser where
  state := .kFinishedHeads
  request := some {
    method := .kPut
    httpVer := .k1_0
    url := { path := bytes "/log" }
    headers := StringMap.empty.set contentLengthKey (bytes "3") }
  contentLength := 3

theorem parse_waiting : RequestParser.parse {} (bytes "POST / HTTP/1.1\r\nContent-Length: 3\r\n\r\n") =
    .ok (38, waiting) := by decide

theorem parse_waitingPut : RequestParser.parse {} (bytes "PUT /log HTTP/1.0\r\nContent-Length: 3\r\n\r\n") =
    .ok (40, waitingPut) := by decide

theorem exchange_of_waiting : Exchange waiting waitingPut ∧ StartsOver waiting :=
  (exchange_iff (.parse .new parse_waiting) (.parse .new parse_waitingPut)).mpr (.inl rfl)

/-- Swapped into a new parser, the request takes its body for empty. -/
theorem new_waiting_not_exchange : Reachable {} ∧ Reachable waiting ∧ ¬Exchange {} waiting := by
  refine ⟨.new, .parse .new parse_waiting, fun h => ?_⟩
  have hseen := (h [.parse (bytes "abc")]).1
  have hne : observe (swap {} waiting).1 [.parse (bytes "abc")] ≠
      waiting.observe [.parse (bytes "abc")] := by
    decide
  exact hne hseen

end RequestParser

end Tbox.Http
