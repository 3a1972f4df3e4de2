import Tbox.Lib.StdString

/-!
# The texts of JSON

The grammar, over bytes. What a string holds is any bytes from the space on, and not only the ones that are
legal UTF-8.
-/

open List

namespace Tbox.Lib.Json

def Whitespace (text : Bytes) : Prop := ∀ ch ∈ text, ch ∈ ([32, 9, 10, 13] : Bytes)

def isDigit (ch : UInt8) : Bool := 48 ≤ ch ∧ ch ≤ 57

def isHexDigit (ch : UInt8) : Bool := isDigit ch ∨ (65 ≤ ch ∧ ch ≤ 70) ∨ (97 ≤ ch ∧ ch ≤ 102)

def Digits (text : Bytes) : Prop := text ≠ [] ∧ ∀ ch ∈ text, isDigit ch = true

/-- No digit follows a zero. -/
def Whole (text : Bytes) : Prop := text = [48] ∨ (Digits text ∧ text.head? ≠ some 48)

def Fraction (text : Bytes) : Prop := text = [] ∨ ∃ digits, Digits digits ∧ text = 46 :: digits

def Exponent (text : Bytes) : Prop :=
  text = [] ∨ ∃ e ∈ ([101, 69] : Bytes), ∃ sign ∈ ([[], [43], [45]] : List Bytes), ∃ digits,
    Digits digits ∧ text = e :: sign ++ digits

def Number (text : Bytes) : Prop :=
  ∃ sign ∈ ([[], [45]] : List Bytes), ∃ whole fraction exponent,
    Whole whole ∧ Fraction fraction ∧ Exponent exponent ∧ text = sign ++ whole ++ fraction ++ exponent

/-- `true`, `false` and `null` -/
def literals : List Bytes := [[116, 114, 117, 101], [102, 97, 108, 115, 101], [110, 117, 108, 108]]

/-- What stands between the quotes of a string. -/
inductive Characters : Bytes → Prop where
  | nil : Characters []
  | plain {ch : UInt8} {text : Bytes} (hch : 32 ≤ ch ∧ ch ≠ 34 ∧ ch ≠ 92) (htext : Characters text) :
      Characters (ch :: text)
  | escape {ch : UInt8} {text : Bytes} (hch : ch ∈ ([34, 92, 47, 98, 102, 110, 114, 116] : Bytes))
      (htext : Characters text) : Characters (92 :: ch :: text)
  | unicode {code text : Bytes} (hlength : code.length = 4) (hcode : ∀ ch ∈ code, isHexDigit ch = true)
      (htext : Characters text) : Characters (92 :: 117 :: (code ++ text))

/-- What refers to itself in the grammar. An element is a value with whitespace around it. -/
inductive Symbol where
  | value
  | object
  | array
  | members
  | elements
  | element
  deriving DecidableEq, Repr

inductive Derives : Symbol → Bytes → Prop where
  | literal {text : Bytes} (htext : text ∈ literals) : Derives .value text
  | number {text : Bytes} (htext : Number text) : Derives .value text
  | string {chars : Bytes} (hchars : Characters chars) : Derives .value (34 :: (chars ++ [34]))
  | object {text : Bytes} (htext : Derives .object text) : Derives .value text
  | array {text : Bytes} (htext : Derives .array text) : Derives .value text
  | noMembers {gap : Bytes} (hgap : Whitespace gap) : Derives .object (123 :: (gap ++ [125]))
  | members {text : Bytes} (htext : Derives .members text) : Derives .object (123 :: (text ++ [125]))
  | noElements {gap : Bytes} (hgap : Whitespace gap) : Derives .array (91 :: (gap ++ [93]))
  | elements {text : Bytes} (htext : Derives .elements text) : Derives .array (91 :: (text ++ [93]))
  | lastMember {gap chars colon text : Bytes} (hgap : Whitespace gap) (hchars : Characters chars)
      (hcolon : Whitespace colon) (htext : Derives .element text) :
      Derives .members (gap ++ (34 :: (chars ++ [34])) ++ colon ++ 58 :: text)
  | member {gap chars colon text later : Bytes} (hgap : Whitespace gap) (hchars : Characters chars)
      (hcolon : Whitespace colon) (htext : Derives .element text) (hlater : Derives .members later) :
      Derives .members (gap ++ (34 :: (chars ++ [34])) ++ colon ++ 58 :: text ++ 44 :: later)
  | lastElement {text : Bytes} (htext : Derives .element text) : Derives .elements text
  | anElement {text later : Bytes} (htext : Derives .element text) (hlater : Derives .elements later) :
      Derives .elements (text ++ 44 :: later)
  | element {gap text later : Bytes} (hgap : Whitespace gap) (htext : Derives .value text)
      (hlater : Whitespace later) : Derives .element (gap ++ text ++ later)

/-- An object or an array, with the whitespace before it. -/
def Message (text : Bytes) : Prop :=
  ∃ gap body, text = gap ++ body ∧ Whitespace gap ∧ (Derives .object body ∨ Derives .array body)

/-- Neither a quote nor a bracket. -/
def IsPlain (ch : UInt8) : Prop := ch ∉ ([34, 91, 93, 123, 125] : Bytes)

instance (ch : UInt8) : Decidable (IsPlain ch) := inferInstanceAs (Decidable (¬_))

variable {text : Bytes}

theorem isPlain_of_all (h : text.all (fun ch => decide (IsPlain ch)) = true) :
    ∀ ch ∈ text, IsPlain ch :=
  fun ch hch => of_decide_eq_true (all_eq_true.mp h ch hch)

theorem isPlain_of_isDigit {ch : UInt8} (h : isDigit ch = true) : IsPlain ch := by
  have hle : ch ≤ 57 := (of_decide_eq_true h).2
  have hge : 48 ≤ ch := (of_decide_eq_true h).1
  intro hmem
  simp only [mem_cons, not_mem_nil, or_false] at hmem
  rcases hmem with rfl | rfl | rfl | rfl | rfl <;> first | exact absurd hle (by decide) | exact absurd hge (by decide)

theorem isPlain_of_whitespace {gap : Bytes} (h : Whitespace gap) : ∀ ch ∈ gap, IsPlain ch := by
  intro ch hch
  have hmem := h ch hch
  simp only [mem_cons, not_mem_nil, or_false] at hmem
  rcases hmem with rfl | rfl | rfl | rfl <;> decide

theorem isPlain_of_literal (h : text ∈ literals) : ∀ ch ∈ text, IsPlain ch := by
  have hplain : literals.all (fun text => text.all fun ch => decide (IsPlain ch)) = true := by decide
  exact isPlain_of_all (all_eq_true.mp hplain text h)

theorem isPlain_of_digits (h : Digits text) : ∀ ch ∈ text, IsPlain ch := fun ch hch => isPlain_of_isDigit (h.2 ch hch)

theorem isPlain_of_whole (h : Whole text) : ∀ ch ∈ text, IsPlain ch := by
  rcases h with rfl | ⟨hdigits, -⟩
  · exact isPlain_of_all (by decide)
  · exact isPlain_of_digits hdigits

theorem isPlain_of_fraction (h : Fraction text) : ∀ ch ∈ text, IsPlain ch := by
  rcases h with rfl | ⟨digits, hdigits, rfl⟩
  · exact isPlain_of_all (by decide)
  · exact forall_mem_cons.mpr ⟨by decide, isPlain_of_digits hdigits⟩

theorem isPlain_of_exponent (h : Exponent text) : ∀ ch ∈ text, IsPlain ch := by
  rcases h with rfl | ⟨e, he, sign, hsign, digits, hdigits, rfl⟩
  · exact isPlain_of_all (by decide)
  · have hhead : ∀ ch ∈ e :: sign, IsPlain ch := by
      simp only [mem_cons, not_mem_nil, or_false] at he hsign
      apply isPlain_of_all
      rcases he with rfl | rfl <;> rcases hsign with rfl | rfl | rfl <;> decide
    exact forall_mem_append.mpr ⟨hhead, isPlain_of_digits hdigits⟩

theorem isPlain_of_number (h : Number text) : ∀ ch ∈ text, IsPlain ch := by
  obtain ⟨sign, hsign, whole, fraction, exponent, hwhole, hfraction, hexponent, rfl⟩ := h
  have hhead : ∀ ch ∈ sign, IsPlain ch := by
    simp only [mem_cons, not_mem_nil, or_false] at hsign
    apply isPlain_of_all
    rcases hsign with rfl | rfl <;> decide
  refine forall_mem_append.mpr ⟨?_, isPlain_of_exponent hexponent⟩
  refine forall_mem_append.mpr ⟨?_, isPlain_of_fraction hfraction⟩
  exact forall_mem_append.mpr ⟨hhead, isPlain_of_whole hwhole⟩

theorem ne_of_isHexDigit {ch : UInt8} (h : isHexDigit ch = true) : ch ≠ 34 ∧ ch ≠ 92 := by
  constructor
  · rintro rfl
    exact absurd h (by decide)
  · rintro rfl
    exact absurd h (by decide)

end Tbox.Lib.Json
