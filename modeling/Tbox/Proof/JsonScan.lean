import Tbox.Jsonrpc.StreamProto
import Tbox.Lib.JsonGrammar

/-!
# Texts without a head

`FindEndPos` finds the end of a text by counting: between its brackets the levels come back to what they were, and
inside a string nothing is counted.
-/

open List

namespace Tbox.Util.FindEndPos

open Lib (Bytes)
open Lib.Json

variable {s s' s'' : Scan} {before text more rest gap chars part : Bytes} {ch : UInt8} {room less : Nat}

/-- The scan goes over the text and comes out on its other side. -/
inductive Passes : Scan → Bytes → Bytes → Scan → Prop where
  | nil {s : Scan} {before : Bytes} : Passes s before [] s
  | cons {s s' s'' : Scan} {before text : Bytes} {ch : UInt8} (hstep : s.step before ch = .next s')
      (htext : Passes s' (ch :: before) text s'') : Passes s before (ch :: text) s''

theorem Passes.append (h : Passes s before text s') (h' : Passes s' (text.reverse ++ before) more s'') :
    Passes s before (text ++ more) s'' := by
  induction h with
  | nil => exact h'
  | cons hstep _ ih =>
    apply Passes.cons hstep
    apply ih
    rwa [reverse_cons, append_assoc] at h'

theorem Passes.single (h : s.step before ch = .next s') : Passes s before [ch] s' := .cons h .nil

theorem Passes.loop_append (h : Passes s before text s') (rest : Bytes) :
    loop s before (text ++ rest) = loop s' (text.reverse ++ before) rest := by
  induction h with
  | nil => rfl
  | cons hstep _ ih =>
    rw [cons_append, loop, hstep, reverse_cons, append_assoc]
    exact ih

theorem Passes.loop_part (h : Passes s before text s') (hpart : part <+: text) : loop s before part = .no := by
  induction h generalizing part with
  | nil =>
    rw [prefix_nil.mp hpart]
    rfl
  | @cons s s' s'' before text ch hstep _ ih =>
    cases part with
    | nil => rfl
    | cons first part =>
      obtain ⟨rfl, htail⟩ := cons_prefix_cons.mp hpart
      rw [loop, hstep]
      exact ih htail

/-- Between two brackets, and not in a string. So many brackets more can be counted. -/
structure Inside (room : Nat) (s : Scan) : Prop where
  started : s.isStarted = true
  braces : 0 ≤ s.bracesLevel
  square : 0 ≤ s.squareLevel
  bracesRoom : s.bracesLevel + room < 2 ^ 31
  squareRoom : s.squareLevel + room < 2 ^ 31
  level : 0 < s.bracesLevel + s.squareLevel
  outside : s.inString = false

def Scan.quoted (s : Scan) : Scan := { s with inString := true }

theorem step_of_started (h : s.isStarted = true) (before : Bytes) (ch : UInt8) : s.step before ch = if ch = quote then
      if s.inString then Scan.check { s with inString := flipped false before } else s.quoted.check
    else if s.inString then .next s else (s.bracket ch).check := by
  obtain ⟨started, braces, square, inString⟩ := s
  obtain rfl : started = true := h
  rfl

theorem Inside.mono (h : Inside room s) (hle : less ≤ room) : Inside less s := by
  have hbraces := h.bracesRoom
  have hsquare := h.squareRoom
  exact { h with bracesRoom := by omega, squareRoom := by omega }

theorem Inside.check (h : Inside room s) : s.check = .next s := by
  have hbraces := h.braces
  have hsquare := h.square
  have hlevel := h.level
  rw [Scan.check, if_neg (by omega), if_neg (by omega)]

theorem Inside.check_quoted (h : Inside room s) : s.quoted.check = .next s.quoted := by
  have hbraces := h.braces
  have hsquare := h.square
  rw [Scan.check, if_neg (fun hends => Bool.noConfusion hends.2.2.1), if_neg]
  exact not_or.mpr ⟨not_lt.mpr hbraces, not_lt.mpr hsquare⟩

theorem bracket_of_isPlain (s : Scan) (h : IsPlain ch) : s.bracket ch = s := by
  simp only [IsPlain, mem_cons, not_mem_nil, or_false, not_or] at h
  rw [Scan.bracket, if_neg h.2.1, if_neg h.2.2.1, if_neg h.2.2.2.1, if_neg h.2.2.2.2]

theorem Inside.step_plain (h : Inside room s) (hch : IsPlain ch) : s.step before ch = .next s := by
  have hquote : ch ≠ quote := fun heq => hch (by rw [heq]; decide)
  rw [step_of_started h.started, if_neg hquote, h.outside, if_neg Bool.false_ne_true, bracket_of_isPlain s hch,
    h.check]

theorem Inside.passes_plain (h : Inside room s) (htext : ∀ ch ∈ text, IsPlain ch) : Passes s before text s := by
  induction text generalizing before with
  | nil => exact .nil
  | cons ch text ih =>
    apply Passes.cons (h.step_plain (htext ch mem_cons_self))
    exact ih fun ch hch => htext ch (mem_cons_of_mem _ hch)

theorem flipped_cons (inString : Bool) (ch : UInt8) (hbefore : before ≠ []) :
    flipped inString (ch :: before) = if ch = backslash then flipped (!inString) before else inString := by
  cases before with
  | nil => exact absurd rfl hbefore
  | cons other before =>
    rw [flipped]
    exact cons_ne_nil _ _

theorem flipped_of_ne (inString : Bool) (hch : ch ≠ backslash) : flipped inString (ch :: before) = inString := by
  cases before with
  | nil => rfl
  | cons other before => rw [flipped_cons _ _ (cons_ne_nil _ _), if_neg hch]

theorem flipped_not (inString : Bool) (before : Bytes) : flipped (!inString) before = !flipped inString before := by
  induction before generalizing inString with
  | nil => rfl
  | cons ch before ih =>
    by_cases hbefore : before = []
    · subst hbefore
      rfl
    rw [flipped_cons _ _ hbefore, flipped_cons _ _ hbefore]
    split
    · exact ih _
    · rfl

theorem Inside.step_quoted (h : Inside room s) (hch : ch ≠ quote) : s.quoted.step before ch = .next s.quoted := by
  rw [step_of_started (show s.quoted.isStarted = true from h.started), if_neg hch]
  rfl

theorem Inside.step_quote (h : Inside room s) :
    s.quoted.step before quote = .next (if flipped false before then s.quoted else s) := by
  have hstep : s.quoted.step before quote = Scan.check { s.quoted with inString := flipped false before } := by
    rw [step_of_started (show s.quoted.isStarted = true from h.started), if_pos rfl]
    rfl
  rw [hstep]
  cases hflipped : flipped false before with
  | true => exact h.check_quoted
  | false =>
    have hquoted : { s.quoted with inString := false } = s := by
      rw [Scan.quoted, ← h.outside]
    rw [hquoted, if_neg Bool.false_ne_true, h.check]

theorem Inside.passes_escape (h : Inside room s) (hbefore : before ≠ []) (heven : flipped false before = false) :
    Passes s.quoted before [backslash, ch] s.quoted := by
  have hodd : flipped false (backslash :: before) = true := by
    rw [flipped_cons _ _ hbefore, if_pos rfl, flipped_not, heven]
    rfl
  apply Passes.cons (h.step_quoted (by decide))
  apply Passes.single
  by_cases hch : ch = quote
  · rw [hch, h.step_quote, hodd, if_pos rfl]
  · exact h.step_quoted hch

theorem flipped_escape (hbefore : before ≠ []) (heven : flipped false before = false) :
    flipped false (ch :: backslash :: before) = false := by
  by_cases hch : ch = backslash
  · rw [hch, flipped_cons _ _ (cons_ne_nil _ _), if_pos rfl, flipped_cons _ _ hbefore, if_pos rfl]
    exact heven
  · exact flipped_of_ne _ hch

theorem Inside.passes_ordinary (h : Inside room s) (htext : ∀ ch ∈ text, ch ≠ quote ∧ ch ≠ backslash)
    (heven : flipped false before = false) :
    Passes s.quoted before text s.quoted ∧ flipped false (text.reverse ++ before) = false := by
  induction text generalizing before with
  | nil => exact ⟨.nil, heven⟩
  | cons ch text ih =>
    obtain ⟨hquote, hbackslash⟩ := htext ch mem_cons_self
    have hbefore : flipped false (ch :: before) = false := flipped_of_ne _ hbackslash
    obtain ⟨hpasses, hend⟩ := ih (fun ch hch => htext ch (mem_cons_of_mem _ hch)) hbefore
    refine ⟨.cons (h.step_quoted hquote) hpasses, ?_⟩
    rw [reverse_cons, append_assoc]
    exact hend

theorem Inside.passes_characters (h : Inside room s) (hchars : Characters chars) (hbefore : before ≠ [])
    (heven : flipped false before = false) :
    Passes s.quoted before chars s.quoted ∧ flipped false (chars.reverse ++ before) = false := by
  induction hchars generalizing before with
  | nil => exact ⟨.nil, heven⟩
  | @plain ch text hch _ ih =>
    obtain ⟨hpasses, hend⟩ := ih (cons_ne_nil ch before) (flipped_of_ne _ hch.2.2)
    refine ⟨.cons (h.step_quoted hch.2.1) hpasses, ?_⟩
    rw [reverse_cons, append_assoc]
    exact hend
  | @escape ch text hch _ ih =>
    obtain ⟨hpasses, hend⟩ := ih (cons_ne_nil ch _) (flipped_escape hbefore heven)
    refine ⟨(h.passes_escape hbefore heven).append hpasses, ?_⟩
    rw [reverse_cons, reverse_cons, append_assoc, append_assoc]
    exact hend
  | @unicode code text hlength hcode _ ih =>
    have hcodeBefore : flipped false (117 :: backslash :: before) = false := flipped_escape hbefore heven
    obtain ⟨hdigits, hdigitsEnd⟩ := h.passes_ordinary (fun ch hch => ne_of_isHexDigit (hcode ch hch)) hcodeBefore
    obtain ⟨hpasses, hend⟩ := ih (append_ne_nil_of_right_ne_nil _ (cons_ne_nil _ _)) hdigitsEnd
    refine ⟨(h.passes_escape hbefore heven).append (hdigits.append hpasses), ?_⟩
    rw [reverse_cons, reverse_cons, reverse_append, append_assoc, append_assoc, append_assoc]
    exact hend

theorem Inside.step_open (h : Inside room s) : s.step before quote = .next s.quoted := by
  rw [step_of_started h.started, if_pos rfl, h.outside, if_neg Bool.false_ne_true, h.check_quoted]

theorem Inside.passes_string (h : Inside room s) (hchars : Characters chars) :
    Passes s before (34 :: (chars ++ [34])) s := by
  obtain ⟨hpasses, hend⟩ := h.passes_characters hchars (cons_ne_nil quote before) (flipped_of_ne _ (by decide))
  apply Passes.cons h.step_open
  apply hpasses.append
  apply Passes.single
  have hclose : s.quoted.step (chars.reverse ++ quote :: before) quote = .next s := by
    rw [h.step_quote, hend, if_neg Bool.false_ne_true]
  exact hclose

def Scan.braced (s : Scan) : Scan := { s with bracesLevel := s.bracesLevel + 1 }
def Scan.squared (s : Scan) : Scan := { s with squareLevel := s.squareLevel + 1 }

theorem Inside.braced (h : Inside (room + 1) s) : Inside room s.braced := by
  obtain ⟨hstarted, hbraces, hsquare, hbracesRoom, hsquareRoom, hlevel, houtside⟩ := h
  push_cast at hbracesRoom hsquareRoom
  refine ⟨hstarted, ?_, hsquare, ?_, ?_, ?_, houtside⟩ <;> dsimp only [Scan.braced] <;> omega

theorem Inside.squared (h : Inside (room + 1) s) : Inside room s.squared := by
  obtain ⟨hstarted, hbraces, hsquare, hbracesRoom, hsquareRoom, hlevel, houtside⟩ := h
  push_cast at hbracesRoom hsquareRoom
  refine ⟨hstarted, hbraces, ?_, ?_, ?_, ?_, houtside⟩ <;> dsimp only [Scan.squared] <;> omega

theorem Inside.step_bracket (h : Inside room s) (hch : ch ≠ quote) : s.step before ch = (s.bracket ch).check := by
  rw [step_of_started h.started, if_neg hch, h.outside, if_neg Bool.false_ne_true]

theorem bmod_level {level : Int} (hlow : -2 ^ 31 ≤ level) (hhigh : level < 2 ^ 31) : level.bmod (2 ^ 32) = level :=
  Int.bmod_eq_of_le (by omega) (by omega)

theorem Inside.bracket_braces (h : Inside (room + 1) s) : s.bracket 123 = s.braced ∧ s.braced.bracket 125 = s := by
  obtain ⟨started, braces, square, inString⟩ := s
  have hbraces : 0 ≤ braces := h.braces
  have hroom : braces + (room + 1 : Nat) < 2 ^ 31 := h.bracesRoom
  constructor
  · show Scan.mk started ((braces + 1).bmod (2 ^ 32)) square inString = _
    rw [bmod_level (by omega) (by omega)]
    rfl
  · show Scan.mk started ((braces + 1 - 1).bmod (2 ^ 32)) square inString = _
    rw [Int.add_sub_cancel, bmod_level (by omega) (by omega)]

theorem Inside.bracket_squares (h : Inside (room + 1) s) : s.bracket 91 = s.squared ∧ s.squared.bracket 93 = s := by
  obtain ⟨started, braces, square, inString⟩ := s
  have hsquare : 0 ≤ square := h.square
  have hroom : square + (room + 1 : Nat) < 2 ^ 31 := h.squareRoom
  constructor
  · show Scan.mk started braces ((square + 1).bmod (2 ^ 32)) inString = _
    rw [bmod_level (by omega) (by omega)]
    rfl
  · show Scan.mk started braces ((square + 1 - 1).bmod (2 ^ 32)) inString = _
    rw [Int.add_sub_cancel, bmod_level (by omega) (by omega)]

theorem Inside.passes_braces (h : Inside (room + 1) s) (htext : Passes s.braced (123 :: before) text s.braced) :
    Passes s before (123 :: (text ++ [125])) s := by
  obtain ⟨hopen, hclose⟩ := h.bracket_braces
  refine .cons ?_ (htext.append (.single ?_))
  · rw [h.step_bracket (by decide), hopen, h.braced.check]
  · rw [h.braced.step_bracket (by decide), hclose, h.check]

theorem Inside.passes_squares (h : Inside (room + 1) s) (htext : Passes s.squared (91 :: before) text s.squared) :
    Passes s before (91 :: (text ++ [93])) s := by
  obtain ⟨hopen, hclose⟩ := h.bracket_squares
  refine .cons ?_ (htext.append (.single ?_))
  · rw [h.step_bracket (by decide), hopen, h.squared.check]
  · rw [h.squared.step_bracket (by decide), hclose, h.check]

theorem Inside.passes_gap (h : Inside room s) (hgap : Whitespace gap) : Passes s before gap s :=
  h.passes_plain (isPlain_of_whitespace hgap)

/-- **Inside brackets every text of JSON passes** for which there is room. -/
theorem Inside.passes {symbol : Symbol} (h : Inside room s) (htext : Derives symbol text) (hroom : text.length ≤ room) :
    Passes s before text s := by
  induction htext generalizing s before room with
  | literal htext => exact h.passes_plain (isPlain_of_literal htext)
  | number htext => exact h.passes_plain (isPlain_of_number htext)
  | string hchars => exact h.passes_string hchars
  | object _ ih => exact ih h hroom
  | array _ ih => exact ih h hroom
  | noMembers hgap =>
    have hone : Inside (0 + 1) s := h.mono (Nat.le_of_add_left_le hroom)
    exact hone.passes_braces (hone.braced.passes_gap hgap)
  | members _ ih =>
    rw [length_cons, length_append] at hroom
    have hless := h.mono (Nat.le_of_succ_le hroom)
    exact hless.passes_braces (ih hless.braced (Nat.le_refl _))
  | noElements hgap =>
    have hone : Inside (0 + 1) s := h.mono (Nat.le_of_add_left_le hroom)
    exact hone.passes_squares (hone.squared.passes_gap hgap)
  | elements _ ih =>
    rw [length_cons, length_append] at hroom
    have hless := h.mono (Nat.le_of_succ_le hroom)
    exact hless.passes_squares (ih hless.squared (Nat.le_refl _))
  | lastMember hgap hchars hcolon _ ih =>
    simp only [length_append, length_cons] at hroom
    refine (((h.passes_gap hgap).append (h.passes_string hchars)).append (h.passes_gap hcolon)).append ?_
    exact .cons (h.step_plain (by decide)) (ih h (by omega))
  | member hgap hchars hcolon _ _ ih ihLater =>
    simp only [length_append, length_cons] at hroom
    refine Passes.append ?_ (.cons (h.step_plain (by decide)) (ihLater h (by omega)))
    refine (((h.passes_gap hgap).append (h.passes_string hchars)).append (h.passes_gap hcolon)).append ?_
    exact .cons (h.step_plain (by decide)) (ih h (by omega))
  | lastElement _ ih => exact ih h hroom
  | anElement _ _ ih ihLater =>
    rw [length_append, length_cons] at hroom
    exact (ih h (by omega)).append (.cons (h.step_plain (by decide)) (ihLater h (by omega)))
  | element hgap _ hlater ih =>
    rw [length_append, length_append] at hroom
    exact ((h.passes_gap hgap).append (ih h (by omega))).append (h.passes_gap hlater)

/-- The scan ends on the last character of the text. -/
def Ends (s : Scan) (before text : Bytes) : Prop :=
  ∃ init last s', text = init ++ [last] ∧ Passes s before init s' ∧
    s'.step (init.reverse ++ before) last = .ends

theorem Ends.after (h : Ends s' (gap.reverse ++ before) text) (hgap : Passes s before gap s') :
    Ends s before (gap ++ text) := by
  obtain ⟨init, last, s'', rfl, hinit, hlast⟩ := h
  refine ⟨gap ++ init, last, s'', (append_assoc _ _ _).symm, hgap.append hinit, ?_⟩
  rw [reverse_append, append_assoc]
  exact hlast

theorem Ends.loop_append (h : Ends s before text) (rest : Bytes) :
    loop s before (text ++ rest) = .at (before.length + text.length) := by
  obtain ⟨init, last, s', rfl, hinit, hlast⟩ := h
  rw [append_assoc, hinit.loop_append, singleton_append, loop, hlast]
  rw [length_append, length_append, length_reverse, length_singleton, Nat.add_comm init.length, Nat.add_assoc]

theorem Ends.loop_part (h : Ends s before text) (hpart : part <+: text) (hne : part ≠ text) :
    loop s before part = .no := by
  obtain ⟨init, last, s', rfl, hinit, -⟩ := h
  apply hinit.loop_part
  rcases prefix_concat_iff.mp hpart with heq | hinit
  · exact absurd heq hne
  · exact hinit

theorem passes_initial_gap (hgap : Whitespace gap) : Passes {} before gap {} := by
  induction gap generalizing before with
  | nil => exact .nil
  | cons ch gap ih =>
    obtain ⟨hch, hgap⟩ := forall_mem_cons.mp hgap
    simp only [mem_cons, not_mem_nil, or_false] at hch
    apply Passes.cons _ (ih hgap)
    rcases hch with rfl | rfl | rfl | rfl <;> rfl

def Scan.inObject : Scan := { isStarted := true, bracesLevel := 1 }
def Scan.inArray : Scan := { isStarted := true, squareLevel := 1 }

theorem inside_inObject (hroom : room + 1 < 2 ^ 31) : Inside room .inObject :=
  ⟨rfl, by decide, by decide, by dsimp only [Scan.inObject]; omega, by dsimp only [Scan.inObject]; omega, by decide, rfl⟩

theorem inside_inArray (hroom : room + 1 < 2 ^ 31) : Inside room .inArray :=
  ⟨rfl, by decide, by decide, by dsimp only [Scan.inArray]; omega, by dsimp only [Scan.inArray]; omega, by decide, rfl⟩

theorem ends_braces (htext : Passes .inObject (123 :: before) text .inObject) :
    Ends {} before (123 :: (text ++ [125])) :=
  ⟨123 :: text, 125, .inObject, rfl, .cons rfl htext, rfl⟩

theorem ends_squares (htext : Passes .inArray (91 :: before) text .inArray) : Ends {} before (91 :: (text ++ [93])) :=
  ⟨91 :: text, 93, .inArray, rfl, .cons rfl htext, rfl⟩

theorem ends_object (h : Derives .object text) (hshort : text.length < 2 ^ 31) : Ends {} before text := by
  cases h with
  | noMembers hgap => exact ends_braces ((inside_inObject (show 0 + 1 < 2 ^ 31 by decide)).passes_gap hgap)
  | members htext =>
    rw [length_cons, length_append] at hshort
    exact ends_braces ((inside_inObject (by omega)).passes htext (Nat.le_refl _))

theorem ends_array (h : Derives .array text) (hshort : text.length < 2 ^ 31) : Ends {} before text := by
  cases h with
  | noElements hgap => exact ends_squares ((inside_inArray (show 0 + 1 < 2 ^ 31 by decide)).passes_gap hgap)
  | elements htext =>
    rw [length_cons, length_append] at hshort
    exact ends_squares ((inside_inArray (by omega)).passes htext (Nat.le_refl _))

theorem ends_message (h : Message text) (hshort : text.length < 2 ^ 31) : Ends {} [] text := by
  obtain ⟨gap, body, rfl, hgap, hbody⟩ := h
  rw [length_append] at hshort
  have hless : body.length < 2 ^ 31 := by omega
  rcases hbody with hobject | harray
  · exact (ends_object hobject hless).after (passes_initial_gap hgap)
  · exact (ends_array harray hless).after (passes_initial_gap hgap)

theorem findEndPos_append (h : Message text) (hshort : text.length < 2 ^ 31) (rest : Bytes) :
    findEndPos (text ++ rest) = text.length := by
  rw [findEndPos, (ends_message h hshort).loop_append rest]
  rw [length_nil, Nat.zero_add]
  exact Int.bmod_eq_of_le (by omega) (by omega)

theorem findEndPos_part (h : Message text) (hshort : text.length < 2 ^ 31) (hpart : part <+: text) (hne : part ≠ text) :
    findEndPos part = 0 := by
  rw [findEndPos, (ends_message h hshort).loop_part hpart hne]

end Tbox.Util.FindEndPos

namespace Tbox.Jsonrpc.RawStreamProto

open Lib (Bytes Intake keepFrame)
open Lib.Json (Message)
open Util.FindEndPos

variable {J : Type} {library : JsonText J} {js : J} {text : Bytes}

/-- A message as it was written, and what the library makes of it. -/
structure Written (library : JsonText J) (message : Bytes × J) : Prop where
  legal : Message message.1
  short : message.1.length < 2 ^ 31
  parse : library.parse message.1 = some message.2

theorem two_le_length (h : Message text) : 2 ≤ text.length := by
  obtain ⟨gap, body, rfl, -, hbody⟩ := h
  have hlength : 2 ≤ body.length := by
    rcases hbody with h | h <;> cases h <;> simp only [length_cons, length_append, length_nil] <;> omega
  rw [length_append]
  omega

theorem verdict_append {message : Bytes × J} (h : Written library message) (tail : Bytes) :
    verdict (onRecvData library) (message.1 ++ tail) = .took message.1.length message.2 := by
  have hlength := two_le_length h.legal
  have hreceived : onRecvData library (message.1 ++ tail) =
      .ok { ret := (message.1.length : Nat), js := some message.2 } := by
    rw [onRecvData, if_neg (by rw [length_append]; omega), findEndPos_append h.legal h.short]
    rw [if_pos (by omega), Int.toNat_natCast, take_left, h.parse]
  rw [verdict, hreceived]
  dsimp only
  rw [if_pos (by omega), Int.toNat_natCast]

theorem verdict_part {message : Bytes × J} {part : Bytes} (h : Written library message) (hpart : part <+: message.1)
    (hne : part ≠ message.1) : verdict (onRecvData library) part = .more := by
  have hreceived : onRecvData library part = .ok { ret := 0 } := by
    rw [onRecvData, findEndPos_part h.legal h.short hpart hne]
    exact ite_self _
  rw [verdict, hreceived]
  rfl

theorem decodes {messages : List (Bytes × J)} (h : ∀ message ∈ messages, Written library message) :
    Intake.Decodes (keepFrame (verdict (onRecvData library))) Prod.fst messages := by
  refine ⟨fun message hmessage hnil => ?_, fun message hmessage tail => ?_,
    fun message hmessage part hpart hne => ?_, rfl⟩
  · have hlength := two_le_length (h message hmessage).legal
    rw [hnil] at hlength
    exact absurd hlength (by decide)
  · rw [keepFrame, verdict_append (h message hmessage)]
    dsimp only
    rw [take_left]
  · rw [keepFrame, verdict_part (h message hmessage) hpart hne]

theorem receiveAll_eq_map (library : JsonText J) (chunks : List Bytes) :
    Intake.receiveAll (verdict (onRecvData library)) chunks =
      (Intake.receiveAll (keepFrame (verdict (onRecvData library))) chunks).map Prod.snd := by
  rw [Intake.map_receiveAll]
  congr 1
  funext buffer
  exact (Lib.map_keepFrame _ buffer).symm

/-- **A message is found where it ends and not before, and however the messages are cut, they come out as they
were put in.** -/
theorem delivers_written (library : JsonText J) :
    (∀ text, Message text → text.length < 2 ^ 31 → (∀ rest, Util.findEndPos (text ++ rest) = text.length) ∧
      ∀ part, part <+: text → part ≠ text → Util.findEndPos part = 0) ∧
    ∀ (messages : List (Bytes × J)) (chunks : List Bytes), (∀ message ∈ messages, Written library message) →
      (chunks.flatten <+: messages.flatMap Prod.fst → ∃ taken later tail,
        messages = taken ++ later ∧ chunks.flatten = taken.flatMap Prod.fst ++ tail ∧
        Intake.Incomplete Prod.fst later tail ∧
        Intake.receiveAll (verdict (onRecvData library)) chunks =
          { messages := taken.map Prod.snd, rest := tail, failed := false }) ∧
      (chunks.flatten = messages.flatMap Prod.fst → Intake.receiveAll (verdict (onRecvData library)) chunks =
          { messages := messages.map Prod.snd, rest := [], failed := false }) := by
  refine ⟨fun text htext hshort => ⟨findEndPos_append htext hshort, fun part => findEndPos_part htext hshort⟩,
    fun messages chunks h => ⟨fun hpart => ?_, fun hall => ?_⟩⟩
  · obtain ⟨taken, later, tail, hmessages, hbuffer, htail, heq⟩ := (decodes h).receiveAll_eq hpart
    refine ⟨taken, later, tail, hmessages, hbuffer, htail, ?_⟩
    rw [receiveAll_eq_map, heq]
    rfl
  · rw [receiveAll_eq_map, (decodes h).receiveAll_whole hall]
    rfl

/-- The empty object and the empty array, with or without a space before them. -/
def empties : JsonText Bool where
  dump
    | true => [123, 125]
    | false => [91, 93]
  parse text :=
    if text = [123, 125] ∨ text = [32, 123, 125] then some true
    else if text = [91, 93] ∨ text = [32, 91, 93] then some false else none

theorem delivers_written_empties :
    Intake.receiveAll (verdict (onRecvData empties)) [[32], [123], [125, 91, 93, 91], [93]] =
      { messages := [true, false, false], rest := [], failed := false } := by
  have hgap : Lib.Json.Whitespace [32] := by
    intro ch hch
    rw [List.mem_singleton.mp hch]
    decide
  have hnil : Lib.Json.Whitespace [] := fun ch hch => absurd hch List.not_mem_nil
  have hobject : Message [32, 123, 125] := ⟨[32], [123, 125], rfl, hgap, .inl (.noMembers hnil)⟩
  have harray : Message [91, 93] := ⟨[], [91, 93], rfl, hnil, .inr (.noElements hnil)⟩
  refine ((delivers_written empties).2 [([32, 123, 125], true), ([91, 93], false), ([91, 93], false)] _ ?_).2
    (by decide)
  simp only [List.forall_mem_cons]
  exact ⟨⟨hobject, by decide, by decide⟩, ⟨harray, by decide, by decide⟩, ⟨harray, by decide, by decide⟩,
    fun message hmessage => absurd hmessage List.not_mem_nil⟩

end Tbox.Jsonrpc.RawStreamProto
