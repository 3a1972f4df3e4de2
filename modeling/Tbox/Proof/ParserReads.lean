import Tbox.Proof.ParserLines

/-!
# The parser refines its reading

`Models` relates a parser to the stage it is at. From related states `parse` ends as `Stage.read` does.
-/

open List Option

namespace Tbox.Http

open Tbox.Lib Tbox.Lib.StdString

namespace RequestParser

def Models (p : RequestParser) : Stage → Prop
  | .start => p.state = .kInit ∧ p.request.getD {} = {}
  | .heads req length =>
    p.state = .kFinishedStartLine ∧ p.request = some req ∧ lengthOf p.contentLength = length
  | .body req length =>
    p.state = .kFinishedHeads ∧ p.request = some req ∧ lengthOf p.contentLength = length

/-- What a call of `parse` on `str` returns when the reading of `str` ends so. -/
def Ends (str : Bytes) (x : Except Fault (Nat × RequestParser)) : Reading → Prop
  | .waiting stage rest => ∃ n p, x = .ok (n, p) ∧ n ≤ str.length ∧ str.drop n = rest ∧
      p.Models stage
  | .complete req _ rest => ∃ n p, x = .ok (n, p) ∧ n ≤ str.length ∧ str.drop n = rest ∧
      p.state = .kFinishedAll ∧ p.request = some req
  | .malformed => ∃ n p, x = .ok (n, p) ∧ n ≤ str.length ∧ p.state = .kFail
  | .threw e => x = .error e

variable {p : RequestParser} {str line rest : Bytes} {pos : Nat} {req : Request}
  {length : Option Nat}

theorem ends_complete {x : Except Fault (Nat × RequestParser)}
    (h : Ends str x (.complete req length rest)) : ∃ p, x = .ok (str.length - rest.length, p) ∧
      p.state = .kFinishedAll ∧ p.request = some req := by
  obtain ⟨n, p, rfl, hn, rfl, hstate, hreq⟩ := h
  refine ⟨p, ?_, hstate, hreq⟩
  have hcount : str.length - (str.length - n) = n := by omega
  rw [length_drop, hcount]

theorem parseBody_ends (hp : p.Models (.body req length)) (hpos : pos ≤ str.length) :
    Ends str (p.parseBody str pos) (readBody req length (str.drop pos)) := by
  obtain ⟨hstate, hreq, rfl⟩ := hp
  have hrest : substr str pos none = .ok (str.drop pos) := if_neg (Nat.not_lt.mpr hpos)
  have hpart : ∀ count, substr str pos (some count) = .ok ((str.drop pos).take count) :=
    fun _ => if_neg (Nat.not_lt.mpr hpos)
  rw [parseBody, lengthOf]
  by_cases hlength : p.contentLength = noLength
  · rw [if_neg (not_not.mpr hlength), if_pos hlength, hrest]
    simp only [bind, Except.bind, finish, hreq]
    exact ⟨str.length, _, rfl, le_rfl, drop_length, rfl, rfl⟩
  rw [if_pos hlength, if_neg hlength, readBody, length_drop]
  by_cases henough : p.contentLength ≤ str.length - pos
  · rw [if_pos henough, if_pos henough, hpart]
    simp only [bind, Except.bind, finish, hreq]
    exact ⟨pos + p.contentLength, _, rfl, by omega, drop_drop.symm, rfl, rfl⟩
  · rw [if_neg henough, if_neg henough]
    exact ⟨pos, p, rfl, hpos, rfl, hstate, hreq, if_neg hlength⟩

theorem addHead_models (hp : p.Models (.heads req length)) (headKey headValue : Bytes) :
    match readLength headKey headValue length with
    | .error e => p.addHead headKey headValue = .error e
    | .ok length => ∃ p', p.addHead headKey headValue = .ok p' ∧
        p'.Models (.heads (req.addHead headKey headValue) length) := by
  obtain ⟨hstate, hreq, rfl⟩ := hp
  rw [readLength, addHead, hreq]
  by_cases hkey : headKey = contentLengthKey
  · simp only [if_pos hkey]
    cases stoi headValue with
    | error e => rfl
    | ok value => exact ⟨_, rfl, hstate, rfl, rfl⟩
  · simp only [if_neg hkey]
    exact ⟨_, rfl, hstate, rfl, rfl⟩

def parseFromHeads (str : Bytes) (fuel : Nat) (p : RequestParser) (pos : Nat) :
    Except Fault (Nat × RequestParser) :=
  parseHeads str fuel p pos >>= fun (pos, p) =>
    if p.state = .kFinishedHeads then p.parseBody str pos else .ok (pos, p)

theorem parseFromHeads_ends {fuel : Nat} (hp : p.Models (.heads req length))
    (hpos : pos ≤ str.length) (hfuel : str.length < fuel + pos) :
    Ends str (parseFromHeads str fuel p pos) (readHeads req length (str.drop pos)) := by
  induction fuel generalizing p pos req length with
  | zero => omega
  | succ fuel ih =>
    rw [parseFromHeads, parseHeads, readHeads, find_eq_cut]
    cases hcut : cut crlf (str.drop pos) with
    | none =>
      refine ⟨pos, p, ?_, hpos, rfl, hp⟩
      simp [hp.1, bind, Except.bind, pure, Except.pure]
    | some parts =>
      obtain ⟨line, rest⟩ := parts
      have htext := cut_eq hcut
      have hlength : pos + line.length + 2 ≤ str.length := by
        have h := congrArg List.length htext
        simp only [length_append, length_drop, crlf, length_cons, length_nil] at h
        omega
      have hrest : str.drop (pos + line.length + 2) = rest := by
        rw [Nat.add_assoc, ← drop_drop, htext]
        exact drop_left' (by simp [crlf])
      simp only [map_some]
      by_cases hblank : line = []
      · subst hblank
        rw [length_nil, Nat.add_zero, if_pos rfl, if_pos rfl]
        simp only [bind, Except.bind, pure, Except.pure, if_true]
        rw [length_nil, Nat.add_zero] at hlength hrest
        rw [← hrest]
        exact parseBody_ends ⟨rfl, hp.2⟩ hlength
      · have hend : ¬pos + line.length = pos := by
          have := length_pos_iff.mpr hblank
          omega
        rw [if_neg hblank, if_neg hend, parseHead_drop hpos, htext, append_assoc, parseHead_eq]
        cases hhead : readHead line with
        | none => exact ⟨pos, { p with state := .kFail }, rfl, hpos, rfl⟩
        | some head =>
          obtain ⟨headKey, headValue⟩ := head
          have hadd := addHead_models hp headKey headValue
          cases hread : readLength headKey headValue length with
          | error e =>
            rw [hread] at hadd
            simp only [bind, Except.bind, hadd, hread]
            rfl
          | ok length' =>
            rw [hread] at hadd
            obtain ⟨p', hp', hmodels⟩ := hadd
            simp only [bind, Except.bind, hp', hread]
            rw [← hrest]
            exact ih hmodels hlength (by omega)

theorem parse_of_startLine {n : Nat} {p' : RequestParser} (hstate : p.state = .kInit)
    (h : p.parseStartLine str = .ok (n, p')) (hheads : p'.state ≠ .kFinishedStartLine)
    (hbody : p'.state ≠ .kFinishedHeads) : p.parse str = .ok (n, p') := by
  simp [parse, hstate, h, hheads, hbody, bind, Except.bind]

theorem parse_of_heads {n : Nat} {p' : RequestParser}
    (h : (if p.state = .kInit then p.parseStartLine str else .ok (0, p)) = .ok (n, p'))
    (hheads : p'.state = .kFinishedStartLine) : p.parse str = parseFromHeads str (str.length + 1) p' n := by
  rw [parse, h]
  simp only [bind, Except.bind, hheads, if_true]
  rfl

/-- The parser ends a call where the reading of its stage ends. -/
theorem parse_ends {stage : Stage} (hp : p.Models stage) (str : Bytes) : Ends str (p.parse str) (stage.read str) := by
  cases stage with
  | start =>
    rw [Stage.read, readStart]
    by_cases hmethod : stringToMethod (methodText str) = .kUnset
    · obtain ⟨p', hp', hstate⟩ := parseStartLine_unset (p := p) hmethod
      rw [if_pos hmethod]
      exact ⟨0, p', parse_of_startLine hp.1 hp' (hstate ▸ (by simp)) (hstate ▸ (by simp)), Nat.zero_le _, hstate⟩
    rw [if_neg hmethod]
    cases hcut : cut crlf str with
    | none =>
      have hstart := parseStartLine_incomplete (p := p) hmethod hcut
      have hparse := parse_of_startLine hp.1 hstart (hp.1 ▸ (by simp)) (hp.1 ▸ (by simp))
      exact ⟨0, _, hparse, Nat.zero_le _, drop_zero, hp⟩
    | some parts =>
      obtain ⟨line, rest⟩ := parts
      have hstart := parseStartLine_line hp.2 hmethod hcut
      have htext := cut_eq hcut
      cases hline : readStartLine line with
      | none =>
        rw [hline] at hstart
        obtain ⟨p', hp', hstate⟩ := hstart
        simp only [hline]
        exact ⟨0, p', parse_of_startLine hp.1 hp' (hstate ▸ (by simp)) (hstate ▸ (by simp)), Nat.zero_le _, hstate⟩
      | some req =>
        rw [hline] at hstart
        have hrest : str.drop (line.length + 2) = rest := by
          rw [htext]
          exact drop_left' (by simp [crlf])
        have hlength : line.length + 2 ≤ str.length := by
          rw [htext]
          simp [crlf]
        have hmodels : RequestParser.Models
            { state := .kFinishedStartLine, request := some req, contentLength := noLength }
            (.heads req none) :=
          ⟨rfl, rfl, if_pos rfl⟩
        simp only [hline]
        rw [parse_of_heads ((if_pos hp.1).trans hstart) rfl, ← hrest]
        exact parseFromHeads_ends hmodels hlength (by omega)
  | heads req length =>
    have hstart : ¬p.state = .kInit := by simp [hp.1]
    rw [parse_of_heads (if_neg hstart) hp.1]
    exact parseFromHeads_ends hp (Nat.zero_le _) (by omega)
  | body req length =>
    have hbody : p.parse str = p.parseBody str 0 := by
      simp [parse, hp.1, bind, Except.bind]
    rw [hbody]
    exact parseBody_ends hp (Nat.zero_le _)

end RequestParser

end Tbox.Http
