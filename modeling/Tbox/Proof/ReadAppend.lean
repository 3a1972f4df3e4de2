import Tbox.Proof.ParserReads

/-!
# Reading a text piece by piece

What has been read of a text does not change when more of it arrives. A run of the receive loop is the relation
`Reads`, and one that stops to wait goes on with the next piece as if both had come at once.
-/

open List Option

namespace Tbox.Http

open Tbox.Lib Tbox.Lib.StdString

/-- How the reading of a text goes on when `tail` arrives behind it. -/
def Reading.Extends (first : Reading) (tail : Bytes) (whole : Reading) : Prop :=
  match first with
  | .waiting stage rest => whole = stage.read (rest ++ tail)
  | .complete req (some n) rest => whole = .complete req (some n) (rest ++ tail)
  | .complete _ none _ => ∃ req, whole = .complete req none []
  | .malformed => whole = .malformed
  | .threw e => whole = .threw e

section Append

variable {text tail : Bytes} {req : Request} {length : Option Nat}

theorem readBody_append (req : Request) (length : Option Nat) (text tail : Bytes) :
    (readBody req length text).Extends tail (readBody req length (text ++ tail)) := by
  cases length with
  | none => exact ⟨_, rfl⟩
  | some n =>
    rw [readBody, readBody, length_append]
    split
    · next henough =>
      rw [if_pos (by omega), take_append_of_le_length henough, drop_append_of_le_length henough]
      exact rfl
    · rw [← length_append]
      exact rfl

theorem readHeads_append (req : Request) (length : Option Nat) (text tail : Bytes) :
    (readHeads req length text).Extends tail (readHeads req length (text ++ tail)) := by
  fun_induction readHeads req length text with
  | case1 req length text hcut => exact rfl
  | case2 req length text rest hcut =>
    rw [readHeads, cut_append hcut]
    exact readBody_append req length rest tail
  | case3 req length text line rest hcut hblank hhead =>
    rw [readHeads, cut_append hcut]
    simp only [if_neg hblank, hhead]
    exact rfl
  | case4 req length text line rest hcut hblank key value hhead e hlength =>
    rw [readHeads, cut_append hcut]
    simp only [if_neg hblank, hhead, hlength]
    exact rfl
  | case5 req length text line rest hcut hblank key value hhead length' hlength ih =>
    rw [readHeads.eq_1 req length (text ++ tail), cut_append hcut]
    simp only [if_neg hblank, hhead, hlength]
    exact ih

theorem methodText_append (hspace : space ∈ text) : methodText (text ++ tail) = methodText text := by
  rw [methodText, takeWhile_append, if_neg]
  · rfl
  intro hlength
  have hall := takeWhile_eq_self_iff.mp ((List.takeWhile_prefix _).eq_of_length hlength)
  exact absurd (hall space hspace) (by decide)

/-- A method that is cut is no method: only there does a text read otherwise than its beginning. -/
theorem readStart_append (tail : Bytes) (hspace : readStart text = .malformed → space ∈ text) :
    (readStart text).Extends tail (readStart (text ++ tail)) := by
  by_cases hmethod : stringToMethod (methodText text) = .kUnset
  · have hread : readStart text = .malformed := if_pos hmethod
    rw [hread]
    refine if_pos ?_
    rwa [methodText_append (hspace hread)]
  cases hcut : cut crlf text with
  | none =>
    have hread : readStart text = .waiting .start text := by
      rw [readStart, if_neg hmethod, hcut]
    rw [hread]
    exact rfl
  | some parts =>
    obtain ⟨line, rest⟩ := parts
    have hmem : space ∈ text := by
      obtain ⟨lineTail, hline⟩ := RequestParser.cut_of_method hmethod hcut
      rw [cut_eq hcut, hline]
      simp
    rw [readStart, readStart, methodText_append hmem, if_neg hmethod, if_neg hmethod, hcut, cut_append hcut]
    cases hline : readStartLine line with
    | none =>
      simp only [hline]
      exact rfl
    | some req =>
      simp only [hline]
      exact readHeads_append req none rest tail

/-- **What has been read stays read.** -/
theorem read_append (stage : Stage) (tail : Bytes)
    (hspace : stage.read text = .malformed → stage = .start → space ∈ text) :
    (stage.read text).Extends tail (stage.read (text ++ tail)) := by
  cases stage with
  | start => exact readStart_append tail fun hread => hspace hread rfl
  | heads req length => exact readHeads_append req length text tail
  | body req length => exact readBody_append req length text tail

end Append

/-- A run of the receive loop over `text`: the requests it takes with their lengths, and how it
ends. -/
inductive Reads : Stage → Bytes → List (Request × Option Nat) → Reading → Prop
  | idle (stage : Stage) : Reads stage [] [] (.waiting stage [])
  | stop {stage : Stage} {text : Bytes} (htext : text ≠ [])
      (hread : ∀ req length rest, stage.read text ≠ .complete req length rest) :
      Reads stage text [] (stage.read text)
  | take {stage : Stage} {text rest : Bytes} {req : Request} {length : Option Nat}
      {taken : List (Request × Option Nat)} {last : Reading} (htext : text ≠ [])
      (hread : stage.read text = .complete req length rest)
      (hrest : Reads .start rest taken last) : Reads stage text ((req, length) :: taken) last

namespace Reads

variable {stage stage' : Stage} {text rest tail : Bytes} {taken taken' : List (Request × Option Nat)}
  {last last' : Reading}

theorem unique (h : Reads stage text taken last) (h' : Reads stage text taken' last') :
    taken = taken' ∧ last = last' := by
  induction h generalizing taken' last' with
  | idle stage =>
    cases h' with
    | idle => exact ⟨rfl, rfl⟩
    | stop htext => exact absurd rfl htext
    | take htext => exact absurd rfl htext
  | stop htext hread =>
    cases h' with
    | idle => exact absurd rfl htext
    | stop => exact ⟨rfl, rfl⟩
    | take _ hread' => exact absurd hread' (hread _ _ _)
  | take htext hread _ ih =>
    cases h' with
    | idle => exact absurd rfl htext
    | stop _ hread' => exact absurd hread (hread' _ _ _)
    | take _ hread' hrest' =>
      obtain ⟨rfl, rfl, rfl⟩ := Reading.complete.inj (hread.symm.trans hread')
      obtain ⟨rfl, rfl⟩ := ih hrest'
      exact ⟨rfl, rfl⟩

theorem of_read_eq {text' : Bytes} (htext : text ≠ []) (htext' : text' ≠ [])
    (heq : stage.read text = stage'.read text') (h : Reads stage' text' taken last) :
    Reads stage text taken last := by
  cases h with
  | idle => exact absurd rfl htext'
  | stop _ hread =>
    rw [← heq] at hread ⊢
    exact .stop htext hread
  | take _ hread hrest => exact .take htext (heq.trans hread) hrest

/-- **Piece by piece.** A run that waits goes on as a run over both pieces would, if every request
it has taken had a length. -/
theorem append (h : Reads stage text taken (.waiting stage' rest))
    (hsized : ∀ item ∈ taken, item.2.isSome) (h' : Reads stage' (rest ++ tail) taken' last') :
    Reads stage (text ++ tail) (taken ++ taken') last' := by
  generalize hlast : Reading.waiting stage' rest = last at h
  induction h with
  | idle stage =>
    obtain ⟨rfl, rfl⟩ := Reading.waiting.inj hlast
    exact h'
  | @stop stage text htext hread =>
    by_cases hboth : rest ++ tail = []
    · obtain ⟨rfl, rfl⟩ := append_eq_nil_iff.mp hboth
      cases h' with
      | idle =>
        rw [append_nil, hlast]
        exact .stop htext hread
      | stop htext' => exact absurd rfl htext'
      | take htext' => exact absurd rfl htext'
    · have hextends := read_append stage tail fun hmalformed _ =>
        absurd (hlast.trans hmalformed) nofun
      rw [← hlast] at hextends
      exact of_read_eq (append_ne_nil_of_left_ne_nil htext tail) hboth hextends h'
  | @take stage text rest req length taken last htext hread hrest ih =>
    obtain ⟨n, rfl⟩ := isSome_iff_exists.mp (hsized _ mem_cons_self)
    have hextends := read_append stage tail fun hmalformed _ => absurd (hread.symm.trans hmalformed) nofun
    rw [hread] at hextends
    exact .take (append_ne_nil_of_left_ne_nil htext tail) hextends
      (ih (fun item hitem => hsized item (mem_cons_of_mem _ hitem)) hlast)

end Reads

section Consumed

variable {req r : Request} {length length' : Option Nat} {text rest : Bytes}

theorem length_of_readBody (h : readBody req length text = .complete r length' rest) : rest.length ≤ text.length := by
  cases length with
  | none =>
    cases h
    exact Nat.zero_le _
  | some n =>
    rw [readBody] at h
    split at h
    · cases h
      rw [length_drop]
      exact Nat.sub_le _ _
    · cases h

theorem length_of_readHeads (h : readHeads req length text = .complete r length' rest) :
    rest.length < text.length := by
  fun_induction readHeads req length text with
  | case1 => cases h
  | case2 req length text rest hcut =>
    exact (length_of_readBody h).trans_lt (length_lt_of_cut hcut)
  | case3 => cases h
  | case4 => cases h
  | case5 req length text line rest hcut hblank key value hhead length' hlength ih =>
    exact (ih h).trans (length_lt_of_cut hcut)

theorem length_of_readStart (h : readStart text = .complete r length' rest) : rest.length < text.length := by
  rw [readStart] at h
  split at h
  · cases h
  split at h
  · cases h
  next hcut =>
  split at h
  · cases h
  · exact (length_of_readHeads h).trans (length_lt_of_cut hcut)

theorem length_of_read {stage : Stage} (h : stage.read text = .complete r length' rest) :
    rest.length ≤ text.length := by
  cases stage with
  | start => exact (length_of_readStart h).le
  | heads => exact (length_of_readHeads h).le
  | body => exact length_of_readBody h

end Consumed

theorem exists_reads_start (text : Bytes) :
    ∃ taken last, Reads .start text taken last ∧ taken.length ≤ text.length := by
  induction hlength : text.length using Nat.strong_induction_on generalizing text with
  | _ n ih =>
    by_cases htext : text = []
    · subst htext
      exact ⟨[], _, .idle .start, Nat.zero_le _⟩
    cases hread : Stage.start.read text with
    | complete req length rest =>
      have hlt := length_of_readStart hread
      obtain ⟨taken, last, hrest, hle⟩ := ih rest.length (hlength ▸ hlt) rest rfl
      refine ⟨_, last, .take htext hread hrest, ?_⟩
      rw [length_cons]
      omega
    | _ => exact ⟨[], _, .stop htext (hread ▸ nofun), Nat.zero_le _⟩

theorem exists_reads (stage : Stage) (text : Bytes) :
    ∃ taken last, Reads stage text taken last ∧ taken.length ≤ text.length + 1 := by
  by_cases htext : text = []
  · subst htext
    exact ⟨[], _, .idle stage, Nat.zero_le _⟩
  cases hread : stage.read text with
  | complete req length rest =>
    have hle := length_of_read hread
    obtain ⟨taken, last, hrest, hlength⟩ := exists_reads_start rest
    refine ⟨_, last, .take htext hread hrest, ?_⟩
    rw [length_cons]
    omega
  | _ => exact ⟨[], _, .stop htext (hread ▸ nofun), Nat.zero_le _⟩

namespace Receiver

def Stops (r : Receiver) (taken : List (Request × Option Nat)) (x : Except Fault Receiver) :
    Reading → Prop
  | .waiting stage rest => ∃ parser, parser.Models stage ∧
      x = .ok { parser, buff := rest, requests := r.requests ++ taken.map (·.1) }
  | .malformed => ∃ r', x = .ok r' ∧ r'.parser.state = .kFail
  | .threw e => x = .error e
  | .complete _ _ _ => False

variable {stage : Stage} {text : Bytes} {taken : List (Request × Option Nat)} {last : Reading}

theorem receiveLoop_stops (h : Reads stage text taken last) (r : Receiver)
    (hparser : r.parser.Models stage) (hbuff : r.buff = text) {fuel : Nat}
    (hfuel : taken.length < fuel) : r.Stops taken (receiveLoop fuel r) last := by
  induction h generalizing r fuel with
  | idle stage =>
    obtain ⟨fuel, rfl⟩ := Nat.exists_eq_add_one_of_ne_zero (Nat.ne_zero_of_lt hfuel)
    obtain ⟨parser, buff, requests⟩ := r
    obtain rfl : buff = [] := hbuff
    exact ⟨parser, hparser, by simp [receiveLoop, pure, Except.pure]⟩
  | @stop stage text htext hread =>
    obtain ⟨fuel, rfl⟩ := Nat.exists_eq_add_one_of_ne_zero (Nat.ne_zero_of_lt hfuel)
    have hends := RequestParser.parse_ends hparser text
    rw [receiveLoop, hbuff, if_neg htext]
    cases hlast : stage.read text with
    | waiting stage' rest =>
      rw [hlast] at hends
      obtain ⟨n, p, hparse, -, hrest, hmodels⟩ := hends
      have hstate : p.state ≠ .kFinishedAll := by
        cases stage' <;> exact hmodels.1 ▸ nofun
      simp only [bind, Except.bind, hparse, if_neg hstate, hrest]
      exact ⟨p, hmodels, by simp [pure, Except.pure]⟩
    | complete req length rest => exact absurd hlast (hread req length rest)
    | malformed =>
      rw [hlast] at hends
      obtain ⟨n, p, hparse, -, hstate⟩ := hends
      have hother : p.state ≠ .kFinishedAll := hstate ▸ nofun
      simp only [bind, Except.bind, hparse, if_neg hother]
      exact ⟨_, rfl, hstate⟩
    | threw e =>
      rw [hlast] at hends
      simp only [bind, Except.bind, show r.parser.parse text = .error e from hends]
      exact rfl
  | @take stage text rest req length taken last htext hread hrest ih =>
    obtain ⟨fuel, rfl⟩ := Nat.exists_eq_add_one_of_ne_zero (Nat.ne_zero_of_lt hfuel)
    have hends := RequestParser.parse_ends hparser text
    rw [hread] at hends
    obtain ⟨n, p, hparse, -, hdrop, hstate, hreq⟩ := hends
    rw [receiveLoop, hbuff, if_neg htext]
    have htake : p.getRequest = (some req, { p with request := none, state := .kInit }) := by
      rw [RequestParser.getRequest, if_pos hstate, hreq]
    simp only [bind, Except.bind, hparse, if_pos hstate, htake, hdrop]
    have hstops := ih
      { parser := { p with request := none, state := .kInit }, buff := rest, requests := r.requests ++ [req] }
      ⟨rfl, rfl⟩ rfl (Nat.lt_of_succ_lt_succ hfuel)
    cases last with
    | waiting stage' rest' =>
      obtain ⟨parser, hmodels, heq⟩ := hstops
      refine ⟨parser, hmodels, heq.trans ?_⟩
      simp
    | _ => exact hstops

theorem receive_stops (r : Receiver) (segment : Bytes) (hparser : r.parser.Models stage) :
    ∃ taken last, Reads stage (r.buff ++ segment) taken last ∧ r.Stops taken (r.receive segment) last := by
  obtain ⟨taken, last, hreads, hlength⟩ := exists_reads stage (r.buff ++ segment)
  refine ⟨taken, last, hreads, ?_⟩
  rw [length_append] at hlength
  exact receiveLoop_stops hreads { r with buff := r.buff ++ segment } hparser rfl (by omega)

end Receiver

end Tbox.Http
