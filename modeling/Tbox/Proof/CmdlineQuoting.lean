import Mathlib.Data.List.TakeWhile
import Tbox.Util.SplitCmdline

/-!
# Quoting on a command line

How arguments are written, and that they are read as they were written. The loops search forward from where they are,
so a run of them follows the string from one argument to the next.
-/

open List Option

namespace Tbox.Util

open Tbox.Lib (Bytes)
open Tbox.Lib.StdString

variable {c q : UInt8} {cmd text arg lead before content rest tail : Bytes} {args : List Bytes} {endPos startPos : Nat}
  {quotStartPos quotEnd : Option Nat} {ended : Option (Option Nat)} {result : Option (List Bytes)}

def Blank (str : Bytes) : Prop := ∀ c ∈ str, isBlank c = true

inductive Tail : Bytes → Prop
  | nil : Tail []
  | char {c : UInt8} {tail : Bytes} : isBlank c = false → isQuote c = false → Tail tail → Tail (c :: tail)
  | part {q : UInt8} {content tail : Bytes} : isQuote q = true → q ∉ content → Tail tail →
      Tail (q :: (content ++ q :: tail))

inductive Word : Bytes → Prop
  | mk {c : UInt8} {tail : Bytes} : isBlank c = false → isQuote c = false → Tail tail → Word (c :: tail)

/-- An argument as it is written: within quotes that it does not have, or as a word. -/
inductive Written : Bytes → Bytes → Prop
  | quoted {q : UInt8} {content : Bytes} : isQuote q = true → q ∉ content → Written (q :: (content ++ [q])) content
  | word {text : Bytes} : Word text → Written text text

def Separated (rest : Bytes) : Prop := ∀ c, rest.head? = some c → isBlank c = true

/-- Arguments with blanks between them, and maybe around them. -/
inductive Line : Bytes → List Bytes → Prop
  | blank {lead : Bytes} : Blank lead → Line lead []
  | argument {lead text arg rest : Bytes} {args : List Bytes} : Blank lead → Written text arg → Separated rest →
      Line rest args → Line (lead ++ (text ++ rest)) (arg :: args)

/-- An argument, behind others that are written, opens a quote that is not closed. -/
inductive Opens : Bytes → Prop
  | quote {lead rest : Bytes} {q : UInt8} : Blank lead → isQuote q = true → q ∉ rest → Opens (lead ++ q :: rest)
  | word {lead text rest : Bytes} {q : UInt8} : Blank lead → Word text → isQuote q = true → q ∉ rest →
      Opens (lead ++ (text ++ q :: rest))
  | behindQuoted {lead content rest : Bytes} {q : UInt8} : Blank lead → isQuote q = true → q ∉ content → Opens rest →
      Opens (lead ++ q :: (content ++ q :: rest))
  | behindWord {lead text rest : Bytes} : Blank lead → Word text → Separated rest → Opens rest →
      Opens (lead ++ (text ++ rest))

inductive Reads : Bytes → Option (List Bytes) → Prop
  | blank {lead : Bytes} : Blank lead → Reads lead (some [])
  | quoted {lead content rest : Bytes} {q : UInt8} {result : Option (List Bytes)} : Blank lead → isQuote q = true →
      q ∉ content → Reads rest result → Reads (lead ++ q :: (content ++ q :: rest)) (result.map (content :: ·))
  | word {lead text rest : Bytes} {result : Option (List Bytes)} : Blank lead → Word text → Separated rest →
      Reads rest result → Reads (lead ++ (text ++ rest)) (result.map (text :: ·))
  | openQuote {lead rest : Bytes} {q : UInt8} : Blank lead → isQuote q = true → q ∉ rest →
      Reads (lead ++ q :: rest) none
  | openWord {lead text rest : Bytes} {q : UInt8} : Blank lead → Word text → isQuote q = true → q ∉ rest →
      Reads (lead ++ (text ++ q :: rest)) none

theorem Line.reads (h : Line cmd args) : Reads cmd (some args) := by
  induction h with
  | blank hlead => exact .blank hlead
  | argument hlead hwritten hrest _ ih =>
    cases hwritten with
    | quoted hquote hcontent =>
      have hreads := Reads.quoted hlead hquote hcontent ih
      simpa using hreads
    | word hword => exact .word hlead hword hrest ih

theorem Opens.reads (h : Opens cmd) : Reads cmd none := by
  induction h with
  | quote hlead hquote hrest => exact .openQuote hlead hquote hrest
  | word hlead hword hquote hrest => exact .openWord hlead hword hquote hrest
  | behindQuoted hlead hquote hcontent _ ih => exact .quoted hlead hquote hcontent ih
  | behindWord hlead hword hrest _ ih => exact .word hlead hword hrest ih

theorem Reads.opens (h : Reads cmd result) (hnone : result = none) : Opens cmd := by
  induction h with
  | blank => cases hnone
  | quoted hlead hquote hcontent _ ih => exact .behindQuoted hlead hquote hcontent (ih (map_eq_none_iff.mp hnone))
  | word hlead hword hrest _ ih => exact .behindWord hlead hword hrest (ih (map_eq_none_iff.mp hnone))
  | openQuote hlead hquote hrest => exact .quote hlead hquote hrest
  | openWord hlead hword hquote hrest => exact .word hlead hword hquote hrest

theorem exists_closed (q : UInt8) (str : Bytes) :
    q ∉ str ∨ ∃ content rest, str = content ++ q :: rest ∧ q ∉ content := by
  by_cases hmem : q ∈ str
  · obtain ⟨content, rest, hstr, hcontent⟩ := eq_append_cons_of_mem hmem
    exact .inr ⟨content, rest, hstr, hcontent⟩
  · exact .inl hmem

theorem exists_tail (str : Bytes) : ∃ tail rest, str = tail ++ rest ∧ Tail tail ∧
    (Separated rest ∨ ∃ q more, rest = q :: more ∧ isQuote q = true ∧ q ∉ more) := by
  induction hlength : str.length using Nat.strong_induction_on generalizing str with
  | _ length ih =>
    subst hlength
    cases str with
    | nil => exact ⟨[], [], rfl, .nil, .inl nofun⟩
    | cons c str =>
      by_cases hblank : isBlank c = true
      · refine ⟨[], c :: str, rfl, .nil, .inl ?_⟩
        rintro _ ⟨⟩
        exact hblank
      by_cases hquote : isQuote c = true
      · rcases exists_closed c str with hmem | ⟨content, rest, rfl, hcontent⟩
        · exact ⟨[], c :: str, rfl, .nil, .inr ⟨c, str, rfl, hquote, hmem⟩⟩
        · have hshort : rest.length < (c :: (content ++ c :: rest)).length := by simp; omega
          obtain ⟨tail, more, rfl, htail, hends⟩ := ih rest.length hshort rest rfl
          exact ⟨c :: (content ++ c :: tail), more, by simp, .part hquote hcontent htail, hends⟩
      · obtain ⟨tail, rest, rfl, htail, hends⟩ := ih str.length (Nat.lt_succ_self _) str rfl
        exact ⟨c :: tail, rest, rfl, .char (Bool.eq_false_of_not_eq_true hblank)
          (Bool.eq_false_of_not_eq_true hquote) htail, hends⟩

theorem exists_reads (cmd : Bytes) : ∃ result, Reads cmd result := by
  induction hlength : cmd.length using Nat.strong_induction_on generalizing cmd with
  | _ length ih =>
    subst hlength
    have hlead : Blank (cmd.takeWhile isBlank) := fun c hc => mem_takeWhile_imp hc
    have hcmd := takeWhile_append_dropWhile (p := isBlank) (l := cmd)
    generalize cmd.takeWhile isBlank = lead at hlead hcmd
    cases hdrop : cmd.dropWhile isBlank with
    | nil =>
      rw [hdrop, append_nil] at hcmd
      exact ⟨_, hcmd ▸ Reads.blank hlead⟩
    | cons c str =>
      have hblank := List.head?_dropWhile_not isBlank cmd
      rw [hdrop] at hcmd hblank
      subst hcmd
      by_cases hquote : isQuote c = true
      · rcases exists_closed c str with hmem | ⟨content, rest, rfl, hcontent⟩
        · exact ⟨none, .openQuote hlead hquote hmem⟩
        · have hshort : rest.length < (lead ++ c :: (content ++ c :: rest)).length := by simp; omega
          obtain ⟨result, hreads⟩ := ih rest.length hshort rest rfl
          exact ⟨_, .quoted hlead hquote hcontent hreads⟩
      · obtain ⟨tail, rest, rfl, htail, hends⟩ := exists_tail str
        have hword : Word (c :: tail) := .mk hblank (Bool.eq_false_of_not_eq_true hquote) htail
        rcases hends with hrest | ⟨q, more, rfl, hq, hmem⟩
        · have hshort : rest.length < (lead ++ c :: (tail ++ rest)).length := by simp; omega
          obtain ⟨result, hreads⟩ := ih rest.length hshort rest rfl
          exact ⟨_, .word hlead hword hrest hreads⟩
        · exact ⟨none, .openWord hlead hword hq hmem⟩

inductive QuotedRun (cmd : Bytes) : Option Nat → Option Nat → Option (Option Nat) → Prop
  | noQuote {endPos : Option Nat} : QuotedRun cmd none endPos (some endPos)
  | behind {quotStartPos : Nat} {endPos : Option Nat} : ¬(endPos.all fun endPos => quotStartPos < endPos) = true →
      QuotedRun cmd (some quotStartPos) endPos (some endPos)
  | unclosed {quotStartPos : Nat} {endPos : Option Nat} : (endPos.all fun endPos => quotStartPos < endPos) = true →
      findFirstOf cmd (cmd.getD quotStartPos 0) (quotStartPos + 1) = none →
      QuotedRun cmd (some quotStartPos) endPos none
  | closed {quotStartPos quotEndPos : Nat} {endPos : Option Nat} {ended : Option (Option Nat)} :
      (endPos.all fun endPos => quotStartPos < endPos) = true →
      findFirstOf cmd (cmd.getD quotStartPos 0) (quotStartPos + 1) = some quotEndPos →
      QuotedRun cmd (findFrom isQuote cmd (quotEndPos + 1)) (findFrom isBlank cmd (quotEndPos + 1)) ended →
      QuotedRun cmd (some quotStartPos) endPos ended

/-- A run of the loop over the arguments, from where it goes on and the arguments so far, to what is returned. -/
inductive SplitRun (cmd : Bytes) : Nat → List Bytes → Option (List Bytes) → Prop
  | done {endPos : Nat} {args : List Bytes} : findFrom (fun c => !isBlank c) cmd endPos = none →
      SplitRun cmd endPos args (some args)
  | unclosed {endPos startPos : Nat} {args : List Bytes} :
      findFrom (fun c => !isBlank c) cmd endPos = some startPos → isQuote (cmd.getD startPos 0) = true →
      findFirstOf cmd (cmd.getD startPos 0) (startPos + 1) = none → SplitRun cmd endPos args none
  | quoted {endPos startPos quotEndPos : Nat} {args : List Bytes} {result : Option (List Bytes)} :
      findFrom (fun c => !isBlank c) cmd endPos = some startPos → isQuote (cmd.getD startPos 0) = true →
      findFirstOf cmd (cmd.getD startPos 0) (startPos + 1) = some quotEndPos →
      SplitRun cmd (quotEndPos + 1) (args ++ [(cmd.drop (startPos + 1)).take (quotEndPos - startPos - 1)]) result →
      SplitRun cmd endPos args result
  | wordUnclosed {endPos startPos : Nat} {args : List Bytes} :
      findFrom (fun c => !isBlank c) cmd endPos = some startPos → ¬isQuote (cmd.getD startPos 0) = true →
      QuotedRun cmd (findFrom isQuote cmd startPos) (findFrom isBlank cmd startPos) none → SplitRun cmd endPos args none
  | wordLast {endPos startPos : Nat} {args : List Bytes} :
      findFrom (fun c => !isBlank c) cmd endPos = some startPos → ¬isQuote (cmd.getD startPos 0) = true →
      QuotedRun cmd (findFrom isQuote cmd startPos) (findFrom isBlank cmd startPos) (some none) →
      SplitRun cmd endPos args (some (args ++ [cmd.drop startPos]))
  | word {endPos startPos wordEnd : Nat} {args : List Bytes} {result : Option (List Bytes)} :
      findFrom (fun c => !isBlank c) cmd endPos = some startPos → ¬isQuote (cmd.getD startPos 0) = true →
      QuotedRun cmd (findFrom isQuote cmd startPos) (findFrom isBlank cmd startPos) (some (some wordEnd)) →
      SplitRun cmd wordEnd (args ++ [(cmd.drop startPos).take (wordEnd - startPos)]) result →
      SplitRun cmd endPos args result

theorem QuotedRun.quotedEnd_eq (h : QuotedRun cmd quotStartPos quotEnd ended) {fuel : Nat}
    (hfuel : ∀ pos, quotStartPos = some pos → cmd.length ≤ fuel + pos ∧ pos < cmd.length) :
    quotedEnd cmd fuel quotStartPos quotEnd = ended := by
  induction h generalizing fuel with
  | noQuote => cases fuel <;> rfl
  | behind hbehind =>
    cases fuel with
    | zero => rfl
    | succ fuel => rw [quotedEnd, if_neg hbehind]
  | unclosed hguard hfind =>
    obtain ⟨hle, hlt⟩ := hfuel _ rfl
    obtain ⟨fuel, rfl⟩ := Nat.exists_eq_succ_of_ne_zero (show fuel ≠ 0 by omega)
    rw [quotedEnd, if_pos hguard, hfind]
  | closed hguard hfind _ ih =>
    obtain ⟨hle, hlt⟩ := hfuel _ rfl
    obtain ⟨fuel, rfl⟩ := Nat.exists_eq_succ_of_ne_zero (show fuel ≠ 0 by omega)
    obtain ⟨hbehind, -⟩ := pos_le_of_findFrom hfind
    rw [quotedEnd, if_pos hguard, hfind]
    refine ih fun pos hpos => ?_
    obtain ⟨hnext, hinside⟩ := pos_le_of_findFrom hpos
    exact ⟨by omega, hinside⟩

theorem QuotedRun.lt_wordEnd {wordEnd : Nat} (h : QuotedRun cmd quotStartPos quotEnd ended)
    (hended : ended = some (some wordEnd)) (hend : ∀ pos, quotEnd = some pos → startPos < pos)
    (hquote : ∀ pos, quotStartPos = some pos → startPos ≤ pos) : startPos < wordEnd := by
  induction h with
  | noQuote => exact hend _ (some.inj hended)
  | behind => exact hend _ (some.inj hended)
  | unclosed => cases hended
  | closed _ hfind _ ih =>
    have hstart := hquote _ rfl
    obtain ⟨hbehind, -⟩ := pos_le_of_findFrom hfind
    refine ih hended (fun pos hpos => ?_) fun pos hpos => ?_
    · obtain ⟨hnext, -⟩ := pos_le_of_findFrom hpos
      omega
    · obtain ⟨hnext, -⟩ := pos_le_of_findFrom hpos
      omega

theorem quotedEnd_of_run (h : QuotedRun cmd (findFrom isQuote cmd startPos) (findFrom isBlank cmd startPos) ended) :
    quotedEnd cmd cmd.length (findFrom isQuote cmd startPos) (findFrom isBlank cmd startPos) = ended := by
  refine h.quotedEnd_eq fun pos hpos => ?_
  obtain ⟨-, hinside⟩ := pos_le_of_findFrom hpos
  exact ⟨Nat.le_add_right _ _, hinside⟩

theorem exists_round {p : UInt8 → Bool} {fuel : Nat} (hfuel : cmd.length < fuel + endPos)
    (hstart : findFrom p cmd endPos = some startPos) : ∃ rounds, fuel = rounds + 1 ∧ cmd.length ≤ rounds + startPos := by
  obtain ⟨hle, hlt⟩ := pos_le_of_findFrom hstart
  obtain ⟨rounds, rfl⟩ := Nat.exists_eq_succ_of_ne_zero (show fuel ≠ 0 by omega)
  exact ⟨rounds, rfl, by omega⟩

theorem lt_wordEnd_of_run {wordEnd : Nat} (hstart : findFrom (fun c => !isBlank c) cmd endPos = some startPos)
    (hrun : QuotedRun cmd (findFrom isQuote cmd startPos) (findFrom isBlank cmd startPos) (some (some wordEnd))) :
    startPos < wordEnd := by
  refine hrun.lt_wordEnd rfl (fun pos hpos => ?_) fun pos hpos => (pos_le_of_findFrom hpos).1
  obtain ⟨hbehind, -⟩ := pos_le_of_findFrom hpos
  refine Nat.lt_of_le_of_ne hbehind fun heq => ?_
  have hblank := holds_of_findFrom hpos
  have hnot := holds_of_findFrom hstart
  rw [heq, hblank] at hnot
  cases hnot

theorem SplitRun.splitCmdlineLoop_eq (h : SplitRun cmd endPos args result) {fuel : Nat}
    (hfuel : cmd.length < fuel + endPos) : splitCmdlineLoop cmd fuel endPos args = result := by
  induction h generalizing fuel with
  | @done endPos args hstart =>
    cases fuel with
    | zero => rfl
    | succ fuel => rw [splitCmdlineLoop, hstart]
  | unclosed hstart hquote hend =>
    obtain ⟨rounds, rfl, -⟩ := exists_round hfuel hstart
    rw [splitCmdlineLoop, hstart]
    simp only [hquote, if_true, hend]
  | quoted hstart hquote hend _ ih =>
    obtain ⟨rounds, rfl, hrounds⟩ := exists_round hfuel hstart
    obtain ⟨hbehind, -⟩ := pos_le_of_findFrom hend
    rw [splitCmdlineLoop, hstart]
    simp only [hquote, if_true, hend]
    exact ih (by omega)
  | wordUnclosed hstart hquote hrun =>
    obtain ⟨rounds, rfl, -⟩ := exists_round hfuel hstart
    rw [splitCmdlineLoop, hstart]
    simp only [if_neg hquote, quotedEnd_of_run hrun]
  | wordLast hstart hquote hrun =>
    obtain ⟨rounds, rfl, -⟩ := exists_round hfuel hstart
    rw [splitCmdlineLoop, hstart]
    simp only [if_neg hquote, quotedEnd_of_run hrun]
  | word hstart hquote hrun _ ih =>
    obtain ⟨rounds, rfl, hrounds⟩ := exists_round hfuel hstart
    have hword := lt_wordEnd_of_run hstart hrun
    rw [splitCmdlineLoop, hstart]
    simp only [if_neg hquote, quotedEnd_of_run hrun]
    exact ih (by omega)

theorem isBlank_of_isQuote (h : isQuote q = true) : isBlank q = false := by
  rcases of_decide_eq_true h with rfl | rfl <;> rfl

theorem find_closed (before rest : Bytes) (hcontent : q ∉ content) :
    findFirstOf (before ++ q :: (content ++ q :: rest)) q (before.length + 1) =
      some (before.length + 1 + content.length) := by
  have hskipped : ∀ c ∈ content, (c == q) = false := fun c hc => by simpa using fun heq : c = q => hcontent (heq ▸ hc)
  have hfind : findFirstOf ((before ++ [q]) ++ (content ++ q :: rest)) q (before ++ [q]).length =
      some ((before ++ [q]).length + content.length) := findFrom_behind (before ++ [q]) hskipped (beq_self_eq_true q)
  rw [append_assoc, length_append, length_singleton] at hfind
  exact hfind

theorem find_unclosed (before : Bytes) (hrest : q ∉ rest) :
    findFirstOf (before ++ q :: rest) q (before.length + 1) = none := by
  have hnone : ∀ c ∈ rest, (c == q) = false := fun c hc => by simpa using fun heq : c = q => hrest (heq ▸ hc)
  have hfind : findFirstOf ((before ++ [q]) ++ rest) q (before ++ [q]).length = none :=
    findFrom_nowhere (before ++ [q]) hnone
  rw [append_assoc, length_append, length_singleton] at hfind
  exact hfind

theorem guard_of_quote (before rest : Bytes) (hquote : isQuote q = true) :
    ((findFrom isBlank (before ++ q :: rest) before.length).all fun endPos => before.length < endPos) = true := by
  rw [findFrom_succ before rest (isBlank_of_isQuote hquote)]
  cases hfind : findFrom isBlank (before ++ q :: rest) (before ++ [q]).length with
  | none => rfl
  | some pos =>
    obtain ⟨hle, -⟩ := pos_le_of_findFrom hfind
    rw [length_append] at hle
    exact decide_eq_true hle

theorem QuotedRun.skip (htail : Tail tail)
    (h : QuotedRun (before ++ (tail ++ rest)) (findFrom isQuote (before ++ (tail ++ rest)) (before ++ tail).length)
      (findFrom isBlank (before ++ (tail ++ rest)) (before ++ tail).length) ended) :
    QuotedRun (before ++ (tail ++ rest)) (findFrom isQuote (before ++ (tail ++ rest)) before.length)
      (findFrom isBlank (before ++ (tail ++ rest)) before.length) ended := by
  induction htail generalizing before with
  | nil => rwa [append_nil] at h
  | @char _ tail hblank hquote _ ih =>
    rw [cons_append, findFrom_succ before _ hblank, findFrom_succ before _ hquote, append_cons]
    refine ih ?_
    rw [append_cons, cons_append, append_cons before _ (tail ++ rest)] at h
    exact h
  | @part q content tail hquote hcontent _ ih =>
    rw [cons_append, append_assoc, cons_append] at h ⊢
    rw [findFrom_here before _ hquote]
    refine .closed (guard_of_quote before _ hquote) (by rw [getD_at_length]; exact find_closed before _ hcontent) ?_
    have hlength : before.length + 1 + content.length + 1 = (before ++ q :: (content ++ [q])).length := by
      simp; omega
    have hcmd : before ++ q :: (content ++ q :: (tail ++ rest)) =
        (before ++ q :: (content ++ [q])) ++ (tail ++ rest) := by simp
    have htailEnd : before ++ q :: (content ++ q :: tail) = (before ++ q :: (content ++ [q])) ++ tail := by simp
    rw [hcmd, htailEnd] at h
    rw [hcmd, hlength]
    exact ih h

theorem Word.isTail (h : Word text) : Tail text := by
  cases h with
  | mk hblank hquote htail => exact .char hblank hquote htail

theorem Word.exists_cons (h : Word text) : ∃ c tail, text = c :: tail ∧ isBlank c = false ∧ isQuote c = false := by
  cases h with
  | mk hblank hquote _ => exact ⟨_, _, rfl, hblank, hquote⟩

def wordEnd (before text rest : Bytes) : Option Nat := if rest = [] then none else some (before ++ text).length

theorem quotedRun_word (before : Bytes) (hword : Word text) (hrest : Separated rest) :
    QuotedRun (before ++ (text ++ rest)) (findFrom isQuote (before ++ (text ++ rest)) before.length)
      (findFrom isBlank (before ++ (text ++ rest)) before.length) (some (wordEnd before text rest)) := by
  refine .skip hword.isTail ?_
  rw [← append_assoc, wordEnd]
  cases rest with
  | nil =>
    have hnowhere : ∀ p : UInt8 → Bool, findFrom p (before ++ text ++ []) (before ++ text).length = none :=
      fun p => findFrom_nowhere _ (forall_mem_nil _)
    rw [hnowhere, hnowhere, if_pos rfl]
    exact .noQuote
  | cons c rest =>
    have hblank : findFrom isBlank (before ++ text ++ c :: rest) (before ++ text).length =
        some (before ++ text).length :=
      findFrom_here (before ++ text) rest (hrest c rfl)
    rw [hblank, if_neg (cons_ne_nil _ _)]
    cases hquote : findFrom isQuote (before ++ text ++ c :: rest) (before ++ text).length with
    | none => exact .noQuote
    | some pos =>
      obtain ⟨hle, -⟩ := pos_le_of_findFrom hquote
      refine .behind fun hguard => ?_
      exact absurd (of_decide_eq_true hguard) (Nat.not_lt.mpr hle)

theorem quotedRun_open (before : Bytes) (hword : Word text) (hquote : isQuote q = true) (hrest : q ∉ rest) :
    QuotedRun (before ++ (text ++ q :: rest)) (findFrom isQuote (before ++ (text ++ q :: rest)) before.length)
      (findFrom isBlank (before ++ (text ++ q :: rest)) before.length) none := by
  refine .skip hword.isTail ?_
  rw [← append_assoc, findFrom_here (before ++ text) rest hquote]
  exact .unclosed (guard_of_quote _ rest hquote) (by rw [getD_at_length]; exact find_unclosed _ hrest)

theorem find_argument (before rest : Bytes) (hlead : Blank lead) (hc : isBlank c = false) :
    findFrom (fun c => !isBlank c) (before ++ lead ++ c :: rest) before.length = some (before ++ lead).length := by
  rw [append_assoc, length_append]
  exact findFrom_behind before (fun c hc => by rw [hlead c hc]; rfl) (by rw [hc]; rfl)

theorem take_drop_between (before arg rest : Bytes) :
    ((before ++ (arg ++ rest)).drop before.length).take ((before ++ arg).length - before.length) = arg := by
  rw [drop_left, length_append, Nat.add_sub_cancel_left, take_left]

theorem take_drop_quoted (before content rest : Bytes) (q : UInt8) :
    ((before ++ q :: (content ++ q :: rest)).drop (before.length + 1)).take
      (before.length + 1 + content.length - before.length - 1) = content := by
  have hcount : before.length + 1 + content.length - before.length - 1 = content.length := by omega
  rw [← drop_drop, drop_left, hcount]
  exact take_left

theorem Reads.eq_of_nil (h : Reads text result) (hnil : text = []) : result = some [] := by
  cases h with
  | blank => rfl
  | quoted => simp at hnil
  | word _ hword =>
    obtain ⟨c, tail, rfl, -⟩ := hword.exists_cons
    simp at hnil
  | openQuote => simp at hnil
  | openWord => simp at hnil

theorem map_append_map (args : List Bytes) (arg : Bytes) (result : Option (List Bytes)) :
    (result.map (arg :: ·)).map (args ++ ·) = result.map (args ++ [arg] ++ ·) := by
  rw [Option.map_map]
  refine congrArg (Option.map · result) (funext fun later => ?_)
  rw [Function.comp_apply, append_assoc, singleton_append]

/-- The loop takes the arguments off one by one. -/
theorem Reads.run (h : Reads text result) (before : Bytes) (args : List Bytes) :
    SplitRun (before ++ text) before.length args (result.map (args ++ ·)) := by
  induction h generalizing before args with
  | @blank lead hlead =>
    have hnone : findFrom (fun c => !isBlank c) (before ++ lead) before.length = none :=
      findFrom_nowhere before fun c hc => by rw [hlead c hc]; rfl
    rw [map_some, append_nil]
    exact .done hnone
  | @quoted lead content rest q result hlead hquote hcontent _ ih =>
    have hstart := find_argument before (content ++ q :: rest) hlead (isBlank_of_isQuote hquote)
    have hend := find_closed (before ++ lead) rest hcontent
    have hchar := getD_at_length (before ++ lead) q (content ++ q :: rest)
    have hcmd : before ++ lead ++ q :: (content ++ q :: rest) =
        before ++ lead ++ q :: (content ++ [q]) ++ rest := by simp
    have hlength : (before ++ lead).length + 1 + content.length + 1 =
        (before ++ lead ++ q :: (content ++ [q])).length := by simp; omega
    have hrun := ih (before ++ lead ++ q :: (content ++ [q])) (args ++ [content])
    rw [← append_assoc, map_append_map]
    refine .quoted hstart (by rwa [hchar]) (by rwa [hchar]) ?_
    rw [take_drop_quoted, hlength, hcmd]
    exact hrun
  | @word lead text rest result hlead hword hrest hreads ih =>
    obtain ⟨c, tail, htext, hblank, hquote⟩ := hword.exists_cons
    have hstart := find_argument before (tail ++ rest) hlead hblank
    have hchar := getD_at_length (before ++ lead) c (tail ++ rest)
    rw [← cons_append, ← htext] at hstart hchar
    have hquote' : ¬isQuote ((before ++ lead ++ (text ++ rest)).getD (before ++ lead).length 0) = true := by
      rw [hchar, hquote]
      exact Bool.false_ne_true
    have hword' := quotedRun_word (before ++ lead) hword hrest
    rw [← append_assoc, map_append_map]
    rw [wordEnd] at hword'
    by_cases hnil : rest = []
    · rw [if_pos hnil] at hword'
      have harg : (before ++ lead ++ (text ++ rest)).drop (before ++ lead).length = text := by
        rw [hnil, append_nil, drop_left]
      have hlast : SplitRun _ before.length args _ := .wordLast hstart hquote' hword'
      rw [harg] at hlast
      rw [hreads.eq_of_nil hnil, map_some, append_nil]
      exact hlast
    · rw [if_neg hnil] at hword'
      refine .word hstart hquote' hword' ?_
      have hrun := ih (before ++ lead ++ text) (args ++ [text])
      rw [take_drop_between, ← append_assoc]
      exact hrun
  | @openQuote lead rest q hlead hquote hrest =>
    have hstart := find_argument before rest hlead (isBlank_of_isQuote hquote)
    have hend := find_unclosed (before ++ lead) hrest
    rw [← append_assoc]
    refine .unclosed hstart (by rwa [getD_at_length]) ?_
    rwa [getD_at_length]
  | @openWord lead text rest q hlead hword hquote hrest =>
    obtain ⟨c, tail, htext, hblank, hnot⟩ := hword.exists_cons
    have hstart := find_argument before (tail ++ q :: rest) hlead hblank
    have hchar := getD_at_length (before ++ lead) c (tail ++ q :: rest)
    rw [← cons_append, ← htext] at hstart hchar
    rw [← append_assoc]
    refine .wordUnclosed hstart ?_ (quotedRun_open _ hword hquote hrest)
    rw [hchar, hnot]
    exact Bool.false_ne_true

theorem Reads.splitCmdline_eq (h : Reads cmd result) : splitCmdline cmd = result ∧ SplitRun cmd 0 [] result := by
  have hrun := h.run [] []
  rw [nil_append] at hrun
  simp only [nil_append, Option.map_id'] at hrun
  exact ⟨hrun.splitCmdlineLoop_eq (Nat.lt_succ_self _), hrun⟩

/-- **Command lines are read as they were written.** A quote without an end makes the result false, and nothing else
does; every run of the loops comes to its end. -/
theorem splitCmdline_inverts :
    (∀ cmd args, Line cmd args → splitCmdline cmd = some args) ∧ (∀ cmd, splitCmdline cmd = none ↔ Opens cmd) ∧
      ∀ cmd, SplitRun cmd 0 [] (splitCmdline cmd) := by
  refine ⟨fun cmd args h => h.reads.splitCmdline_eq.1, fun cmd => ⟨fun hnone => ?_, fun h => ?_⟩, fun cmd => ?_⟩
  · obtain ⟨result, hreads⟩ := exists_reads cmd
    rw [hreads.splitCmdline_eq.1] at hnone
    exact hreads.opens hnone
  · exact h.reads.splitCmdline_eq.1
  · obtain ⟨result, hreads⟩ := exists_reads cmd
    rw [hreads.splitCmdline_eq.1]
    exact hreads.splitCmdline_eq.2

/-- Of `'a b'` and `k="c d"`, with a blank before each. -/
theorem splitCmdline_twoArguments : splitCmdline [32, 39, 97, 32, 98, 39, 32, 107, 61, 34, 99, 32, 100, 34] =
    some [[97, 32, 98], [107, 61, 34, 99, 32, 100, 34]] := by
  have hquoted : Written [39, 97, 32, 98, 39] [97, 32, 98] := @Written.quoted 39 [97, 32, 98] (by decide) (by decide)
  have hpart : Tail [34, 99, 32, 100, 34] := @Tail.part 34 [99, 32, 100] [] (by decide) (by decide) .nil
  have hword : Word [107, 61, 34, 99, 32, 100, 34] :=
    .mk (by decide) (by decide) (.char (by decide) (by decide) hpart)
  have hblank : Blank [32] := List.forall_mem_singleton.mpr rfl
  have hlast : Line [32, 107, 61, 34, 99, 32, 100, 34] [_] :=
    @Line.argument [32] _ _ [] [] hblank (.word hword) (fun c hc => by cases hc) (.blank (fun c hc => by cases hc))
  refine splitCmdline_inverts.1 _ _ (@Line.argument [32] _ _ _ _ hblank hquoted (fun c hc => ?_) hlast)
  cases hc
  rfl

end Tbox.Util
