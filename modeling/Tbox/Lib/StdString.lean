import Tbox.Lib.ListFacts

/-!
# Byte strings and the string library

`std::string` as a list of bytes, with the members of the standard library that the code calls. A
position is an offset, and `npos` is `none`. What a call can throw is a `Fault`.
-/

open List Option

namespace Tbox.Lib

abbrev Bytes := List UInt8

def bytes (s : String) : Bytes := s.toList.map fun c => c.toNat.toUInt8

/-- Why a call does not return: an exception, a read through a null pointer, or a loop without an end. -/
inductive Fault
  | outOfRange
  | invalidArgument
  | nullPointer
  | stuck
  deriving DecidableEq, Repr

/-- Is it caught by `catch (const std::exception &)`? -/
def Fault.isStdException : Fault → Bool
  | outOfRange | invalidArgument => true
  | nullPointer | stuck => false

/-- `try { … } catch (const std::exception &) { return false; }` around a computation that may also
return false. -/
def caught {α : Type} : Except Fault (Option α) → Except Fault (Option α)
  | .ok result => .ok result
  | .error e => if e.isStdException then .ok none else .error e

/-- Nothing but an exception of the standard library comes out. -/
def OnlyStd {α : Type} (x : Except Fault α) : Prop :=
  ∀ e, x = .error e → e.isStdException = true

section OnlyStd

variable {α β : Type} {x : Except Fault α}

theorem onlyStd_ok (a : α) : OnlyStd (.ok a) := nofun

theorem OnlyStd.bind {f : α → Except Fault β} (hx : OnlyStd x)
    (hf : ∀ a, x = .ok a → OnlyStd (f a)) : OnlyStd (x >>= f) := by
  cases x with
  | error e =>
    intro e' he'
    cases he'
    exact hx e rfl
  | ok a => exact hf a rfl

theorem caught_ok {x : Except Fault (Option α)} (hx : OnlyStd x) : ∃ result, caught x = .ok result := by
  cases x with
  | error e => exact ⟨none, if_pos (hx e rfl)⟩
  | ok result => exact ⟨result, rfl⟩

theorem caught_eq_some {x : Except Fault (Option α)} {a : α} : caught x = .ok (some a) ↔ x = .ok (some a) := by
  cases x with
  | error e =>
    rw [caught]
    split <;> simp
  | ok result => rfl

theorem map_eq_ok {f : α → β} {b : β} : x.map f = .ok b ↔ ∃ a, x = .ok a ∧ f a = b := by
  cases x <;> simp [Except.map]

theorem bind_eq_ok {f : α → Except Fault β} {b : β} : x >>= f = .ok b ↔ ∃ a, x = .ok a ∧ f a = .ok b := by
  cases x <;> simp [Bind.bind, Except.bind]

/-- What every step of a fold keeps, of the state and the elements to come, its result has. -/
theorem foldlM_inv {σ : Type} {step : σ → α → Except Fault σ} (inv : List α → σ → Prop)
    (hstep : ∀ {a rest s s'}, inv (a :: rest) s → step s a = .ok s' → inv rest s') {items : List α}
    {s s' : σ} (hs : inv items s) (h : items.foldlM step s = .ok s') : inv [] s' := by
  induction items generalizing s with
  | nil =>
    cases h
    exact hs
  | cons a rest ih =>
    rw [foldlM_cons] at h
    obtain ⟨mid, hmid, h⟩ := bind_eq_ok.mp h
    exact ih (hstep hs hmid) h

end OnlyStd

theorem high_lt (c : UInt8) : (c >>> 4).toNat < 16 := by
  have hc := c.toNat_lt
  simp [UInt8.toNat_shiftRight, Nat.shiftRight_eq_div_pow]
  omega

theorem low_lt (c : UInt8) : (c &&& 0xF).toNat < 16 := by
  rw [UInt8.toNat_and]
  exact Nat.lt_of_le_of_lt Nat.and_le_right (by decide)

theorem nibbles (c : UInt8) : (c >>> 4) <<< 4 ||| (c &&& 0xF) = c := by
  apply UInt8.toBitVec_inj.mp
  ext i hi
  simp only [UInt8.toBitVec_or, UInt8.toBitVec_shiftLeft, UInt8.toBitVec_shiftRight, UInt8.toBitVec_and]
  interval_cases i <;> simp

def space : UInt8 := 32

def crlf : Bytes := [13, 10]

namespace StdString

/-- The first position from `pos` on whose byte `p` holds of. -/
def findFrom (p : UInt8 → Bool) (str : Bytes) (pos : Nat) : Option Nat :=
  ((str.drop pos).findIdx? p).map (pos + ·)

def findFirstOf (str : Bytes) (c : UInt8) (pos : Nat) : Option Nat :=
  findFrom (· == c) str pos

def findFirstNotOf (str : Bytes) (c : UInt8) (pos : Nat) : Option Nat :=
  findFrom (· != c) str pos

def findLastNotOf (str : Bytes) (c : UInt8) : Option Nat :=
  (str.reverse.findIdx? (· != c)).map (str.length - 1 - ·)

/-- The first offset at which `pat` stands. -/
def findSub (pat : Bytes) : Bytes → Option Nat
  | [] => if pat = [] then some 0 else none
  | c :: str => if pat.isPrefixOf (c :: str) then some 0 else (findSub pat str).map (· + 1)

def find (str pat : Bytes) (pos : Nat) : Option Nat :=
  (findSub pat (str.drop pos)).map (pos + ·)

/-- `substr(pos, count)`; a count of `none` is `npos`. -/
def substr (str : Bytes) (pos : Nat) (count : Option Nat) : Except Fault Bytes :=
  if str.length < pos then .error .outOfRange
  else .ok (match count with
    | none => str.drop pos
    | some count => (str.drop pos).take count)

/-- The difference of two `size_t`; a negative one, as a count, is `npos`. -/
def sizeSub (a : Option Nat) (b : Nat) : Option Nat :=
  a.bind fun a => if b ≤ a then some (a - b) else none

def isSpace (c : UInt8) : Bool := c == 32 || (9 ≤ c && c ≤ 13)

def isDigit (c : UInt8) : Bool := 48 ≤ c && c ≤ 57

def decimal (digits : Bytes) : Nat := digits.foldl (fun n c => n * 10 + (c.toNat - 48)) 0

/-- The sign `std::stoi` reads, and what follows it. -/
def sign : Bytes → Bool × Bytes
  | c :: str => if c = 45 then (true, str) else if c = 43 then (false, str) else (false, c :: str)
  | [] => (false, [])

/-- `std::stoi`: leading white space, a sign and the digits up to the first byte that is none. -/
def stoi (str : Bytes) : Except Fault Int :=
  let (negative, str) := sign (str.dropWhile isSpace)
  let digits := str.takeWhile isDigit
  if digits = [] then .error .invalidArgument
  else
    let value : Int := if negative then -(decimal digits) else decimal digits
    if value < -2 ^ 31 ∨ 2 ^ 31 ≤ value then .error .outOfRange else .ok value

theorem substr_onlyStd (str : Bytes) (pos : Nat) (count : Option Nat) : OnlyStd (substr str pos count) := by
  intro e he
  simp only [substr] at he
  split at he
  · cases he
    rfl
  · cases he

section Find

variable {p : UInt8 → Bool} {str tail pat left right : Bytes} {c : UInt8} {i : Nat}

theorem drop_length_takeWhile (p : UInt8 → Bool) (str : Bytes) :
    str.drop (str.takeWhile p).length = str.dropWhile p := by
  conv_lhs =>
    arg 2
    rw [← takeWhile_append_dropWhile (p := p) (l := str)]
  exact drop_left

theorem findSub_cons : findSub pat (c :: str) =
    if pat.isPrefixOf (c :: str) then some 0 else (findSub pat str).map (· + 1) := rfl

theorem prefix_drop_of_findSub (h : findSub pat str = some i) : pat <+: str.drop i := by
  induction str generalizing i with
  | nil =>
    obtain ⟨rfl, ⟨⟩⟩ := ite_none_right_eq_some.mp h
    exact prefix_rfl
  | cons c str ih =>
    rw [findSub_cons] at h
    split at h
    · next hpat =>
      cases h
      exact isPrefixOf_iff_prefix.mp hpat
    · obtain ⟨j, hj, rfl⟩ := map_eq_some_iff.mp h
      exact ih hj

theorem le_length_of_findSub (h : findSub pat str = some i) : i + pat.length ≤ str.length := by
  have hi : i ≤ str.length := by
    induction str generalizing i with
    | nil =>
      obtain ⟨rfl, ⟨⟩⟩ := ite_none_right_eq_some.mp h
      exact le_rfl
    | cons c str ih =>
      rw [findSub_cons] at h
      split at h
      · cases h
        exact Nat.zero_le _
      · obtain ⟨j, hj, rfl⟩ := map_eq_some_iff.mp h
        exact Nat.succ_le_succ (ih hj)
  have hlength := (prefix_drop_of_findSub h).length_le
  rw [length_drop] at hlength
  omega

theorem findSub_append (h : findSub pat str = some i) : findSub pat (str ++ tail) = some i := by
  induction str generalizing i with
  | nil =>
    obtain ⟨rfl, ⟨⟩⟩ := ite_none_right_eq_some.mp h
    cases tail <;> simp [findSub]
  | cons c str ih =>
    have hlength := le_length_of_findSub h
    rw [findSub_cons] at h
    rw [cons_append, findSub_cons]
    split at h
    · next hpat =>
      rw [if_pos, h]
      exact isPrefixOf_iff_prefix.mpr ((List.isPrefixOf_iff_prefix.mp hpat).trans (prefix_append (c :: str) tail))
    · next hpat =>
      obtain ⟨j, hj, rfl⟩ := map_eq_some_iff.mp h
      -- what was no occurrence at the front has all its bytes in `c :: str`
      rw [if_neg, ih hj, map_some]
      intro hbegins
      refine hpat (List.isPrefixOf_iff_prefix.mpr ?_)
      exact prefix_of_prefix_length_le (List.isPrefixOf_iff_prefix.mp hbegins) (prefix_append (c :: str) tail) (by omega)

theorem findSub_append_of_not_mem (hleft : c ∉ left) :
    findSub (c :: pat) (left ++ str) = (findSub (c :: pat) str).map (left.length + ·) := by
  induction left with
  | nil => simp
  | cons a left ih =>
    have hne : ¬(c == a) = true := by
      simpa using fun heq : c = a => hleft (heq ▸ mem_cons_self)
    rw [cons_append, findSub_cons, if_neg (by simp [List.isPrefixOf, hne]),
      ih fun hmem => hleft (mem_cons_of_mem a hmem), Option.map_map]
    refine congrArg (Option.map · _) (funext fun j => ?_)
    simp only [Function.comp_apply, length_cons]
    omega

theorem findFrom_eq (p : UInt8 → Bool) (str : Bytes) (pos : Nat) : findFrom p str pos =
    if (str.drop pos).dropWhile (fun c => !p c) = [] then none
    else some (pos + ((str.drop pos).takeWhile fun c => !p c).length) := by
  rw [findFrom]
  induction str.drop pos with
  | nil => simp
  | cons a rest ih =>
    by_cases ha : p a
    · simp [findIdx?_cons, ha]
    · rw [findIdx?_cons, if_neg ha, dropWhile_cons_of_pos (by simpa using ha),
        takeWhile_cons_of_pos (by simpa using ha), Option.map_map]
      split at ih
      · next hnil =>
        rw [if_pos hnil, map_eq_none_iff.mp ih, map_none]
      · next hnil =>
        obtain ⟨i, hi, heq⟩ := map_eq_some_iff.mp ih
        rw [if_neg hnil, hi]
        simp only [map_some, Function.comp_apply, length_cons, some.injEq]
        omega

/-- The first byte that `p` holds of, behind those that it does not hold of. -/
theorem findFrom_behind (before : Bytes) {skipped rest : Bytes} {c : UInt8} (hskipped : ∀ c ∈ skipped, p c = false)
    (hc : p c = true) : findFrom p (before ++ (skipped ++ c :: rest)) before.length =
      some (before.length + skipped.length) := by
  have hnone : skipped.findIdx? p = none := List.findIdx?_eq_none_iff.mpr hskipped
  have hfirst : (c :: rest).findIdx? p = some 0 := by rw [findIdx?_cons, if_pos hc]
  rw [findFrom, drop_left, List.findIdx?_append, hnone, hfirst]
  simp

theorem findFrom_here (before rest : Bytes) (hc : p c = true) :
    findFrom p (before ++ c :: rest) before.length = some before.length := by
  apply findFrom_behind before (forall_mem_nil _) hc

theorem findFrom_nowhere (before : Bytes) {rest : Bytes} (h : ∀ c ∈ rest, p c = false) :
    findFrom p (before ++ rest) before.length = none := by
  rw [findFrom, drop_left, List.findIdx?_eq_none_iff.mpr h]
  rfl

theorem findFrom_succ (before rest : Bytes) (hc : p c = false) :
    findFrom p (before ++ c :: rest) before.length = findFrom p (before ++ c :: rest) (before ++ [c]).length := by
  have hdrop : (before ++ c :: rest).drop (before.length + 1) = rest := by
    rw [← drop_drop, drop_left]
    rfl
  rw [length_append, length_singleton, findFrom, findFrom, drop_left, hdrop, findIdx?_cons,
    if_neg (Bool.not_eq_true _ ▸ hc), Option.map_map]
  apply congrArg (Option.map · _)
  funext i
  simp only [Function.comp_apply]
  omega

theorem findFrom_append {pos : Nat} (hpos : pos ≤ str.length) : findFrom p (str ++ tail) pos =
    (findFrom p str pos).or ((tail.findIdx? p).map (str.length + ·)) := by
  rw [findFrom, findFrom, drop_append_of_le_length hpos, List.findIdx?_append]
  cases (str.drop pos).findIdx? p with
  | some i => rfl
  | none =>
    simp only [none_or, map_none, Option.map_map, length_drop]
    refine Option.map_congr fun i _ => ?_
    simp only [Function.comp_apply]
    omega

theorem findFrom_append_of_some {pos : Nat} (h : findFrom p str pos = some i) :
    findFrom p (str ++ tail) pos = some i := by
  obtain ⟨j, hj, rfl⟩ := map_eq_some_iff.mp h
  have hlt := (List.findIdx?_eq_some_iff_getElem.mp hj).1
  rw [length_drop] at hlt
  rw [findFrom_append (by omega), h, some_or]

theorem le_of_findFrom_append {pos : Nat} (hpos : pos ≤ str.length)
    (hnone : findFrom p str pos = none) (h : findFrom p (str ++ tail) pos = some i) : str.length ≤ i := by
  rw [findFrom_append hpos, hnone, none_or] at h
  obtain ⟨j, -, rfl⟩ := map_eq_some_iff.mp h
  exact Nat.le_add_right _ _

theorem findFrom_spec {pos : Nat} (h : findFrom p str pos = some i) :
    pos ≤ i ∧ i < str.length ∧ str.drop i = (str.drop pos).dropWhile (fun c => !p c) ∧
      (str.drop pos).take (i - pos) = (str.drop pos).takeWhile fun c => !p c := by
  rw [findFrom_eq] at h
  split at h
  · cases h
  next hne =>
  cases h
  have hrest := drop_length_takeWhile (fun c => !p c) (str.drop pos)
  rw [drop_drop] at hrest
  refine ⟨Nat.le_add_right _ _, ?_, hrest, ?_⟩
  · rw [← hrest, drop_eq_nil_iff] at hne
    exact Nat.lt_of_not_le hne
  · rw [Nat.add_sub_cancel_left]
    exact (prefix_iff_eq_take.mp (List.takeWhile_prefix _)).symm

theorem pos_le_of_findFrom {pos : Nat} (h : findFrom p str pos = some i) : pos ≤ i ∧ i < str.length := by
  obtain ⟨hle, hlt, -⟩ := findFrom_spec h
  exact ⟨hle, hlt⟩

theorem getD_at_length (before : Bytes) (c : UInt8) (rest : Bytes) : (before ++ c :: rest).getD before.length 0 = c := by
  rw [getD_eq_getElem?_getD, getElem?_append_right le_rfl, Nat.sub_self]
  rfl

theorem holds_of_findFrom {pos : Nat} (h : findFrom p str pos = some i) : p (str.getD i 0) = true := by
  obtain ⟨k, hk, rfl⟩ := map_eq_some_iff.mp h
  obtain ⟨hlt, hp, -⟩ := List.findIdx?_eq_some_iff_getElem.mp hk
  rw [getElem_drop] at hp
  rw [length_drop] at hlt
  rwa [getD_eq_getElem?_getD, getElem?_eq_getElem (show pos + k < str.length by omega), getD_some]

theorem findFrom_eq_none {pos : Nat} (h : findFrom p str pos = none) :
    (str.drop pos).dropWhile (fun c => !p c) = [] := by
  rw [findFrom_eq] at h
  split at h
  · assumption
  · cases h

theorem findFirstOf_spec {pos : Nat} (h : findFirstOf str c pos = some i) :
    pos ≤ i ∧ i < str.length ∧ str.drop i = (str.drop pos).dropWhile (· != c) ∧
      (str.drop pos).take (i - pos) = (str.drop pos).takeWhile (· != c) :=
  findFrom_spec h

theorem findFirstOf_eq_none {pos : Nat} (h : findFirstOf str c pos = none) : (str.drop pos).dropWhile (· != c) = [] :=
  findFrom_eq_none h

theorem findFirstNotOf_spec {pos : Nat} (h : findFirstNotOf str c pos = some i) :
    pos ≤ i ∧ i < str.length ∧ str.drop i = (str.drop pos).dropWhile (· == c) := by
  obtain ⟨hpos, hlt, hdrop, -⟩ := findFrom_spec h
  simp only [bne, Bool.not_not] at hdrop
  exact ⟨hpos, hlt, hdrop⟩

theorem findFirstNotOf_eq_none {pos : Nat} (h : findFirstNotOf str c pos = none) :
    (str.drop pos).dropWhile (· == c) = [] := by
  have hnil := findFrom_eq_none h
  simp only [bne, Bool.not_not] at hnil
  exact hnil

theorem findFrom_drop (pos offset : Nat) : findFrom p str (pos + offset) =
    (findFrom p (str.drop pos) offset).map (pos + ·) := by
  simp [findFrom, Option.map_map, Function.comp_def, Nat.add_assoc]

theorem substr_append {pos count : Nat} (h : pos + count ≤ str.length) :
    substr (str ++ tail) pos (some count) = .ok ((str.drop pos).take count) := by
  rw [substr, if_neg (by rw [length_append]; omega), drop_append_of_le_length (by omega),
    take_append_of_le_length (by rw [length_drop]; omega)]

theorem substr_drop {pos : Nat} (offset : Nat) (count : Option Nat) (h : pos ≤ str.length) :
    substr str (pos + offset) count = substr (str.drop pos) offset count := by
  simp only [substr, length_drop, drop_drop]
  split_ifs
  · rfl
  · omega
  · omega
  · rfl

end Find

section Stoi

variable {lead digits trail : Bytes}

theorem isSpace_of_isDigit {c : UInt8} (h : isDigit c = true) : isSpace c = false := by
  simp only [isDigit, isSpace] at *
  grind

/-- `std::stoi` on a decimal number. -/
theorem stoi_decimal (hlead : ∀ c ∈ lead, isSpace c = true) (hne : digits ≠ [])
    (hdigits : ∀ c ∈ digits, isDigit c = true) (htrail : ∀ c ∈ trail, isDigit c = false) :
    stoi (lead ++ digits ++ trail) =
      if 2 ^ 31 ≤ decimal digits then .error .outOfRange else .ok (decimal digits) := by
  obtain ⟨d, ds, hcons⟩ := exists_cons_of_ne_nil hne
  have hd : isDigit d = true := hdigits d (hcons ▸ mem_cons_self)
  have hspace : (lead ++ digits ++ trail).dropWhile isSpace = digits ++ trail := by
    rw [append_assoc, dropWhile_append_of_pos hlead, hcons, cons_append,
      dropWhile_cons_of_neg (by rw [isSpace_of_isDigit hd]; decide)]
  have hsign : sign (digits ++ trail) = (false, digits ++ trail) := by
    rw [hcons, cons_append, sign, if_neg, if_neg]
    · rintro rfl
      exact absurd hd (by decide)
    · rintro rfl
      exact absurd hd (by decide)
  have hread : (digits ++ trail).takeWhile isDigit = digits := by
    rw [takeWhile_append_of_pos hdigits]
    cases trail with
    | nil => simp
    | cons c trail =>
      rw [takeWhile_cons_of_neg (by rw [htrail c mem_cons_self]; decide), append_nil]
  rw [stoi, hspace, hsign]
  have hrange : ((decimal digits : Int) < -2 ^ 31 ∨ (2 : Int) ^ 31 ≤ decimal digits) ↔
      2 ^ 31 ≤ decimal digits := by
    omega
  simp only [hread, if_neg hne, Bool.false_eq_true, if_false, hrange]

end Stoi

/-- What stands before the first `pat`, and what stands after it. -/
def cut (pat str : Bytes) : Option (Bytes × Bytes) :=
  (findSub pat str).map fun i => (str.take i, str.drop (i + pat.length))

section Cut

variable {str tail pat left right : Bytes} {c : UInt8} {pos : Nat}

theorem cut_eq (h : cut pat str = some (left, right)) : str = left ++ pat ++ right := by
  obtain ⟨i, hi, heq⟩ := map_eq_some_iff.mp h
  obtain ⟨rfl, rfl⟩ := Prod.mk.inj heq
  obtain ⟨rest, hrest⟩ := prefix_drop_of_findSub hi
  rw [← drop_drop, ← hrest, drop_left, append_assoc, hrest, take_append_drop]

theorem cut_append (h : cut pat str = some (left, right)) : cut pat (str ++ tail) = some (left, right ++ tail) := by
  obtain ⟨i, hi, heq⟩ := map_eq_some_iff.mp h
  obtain ⟨rfl, rfl⟩ := Prod.mk.inj heq
  have hlength := le_length_of_findSub hi
  rw [cut, findSub_append hi, map_some, take_append_of_le_length (by omega), drop_append_of_le_length hlength]

theorem cut_append_left (hleft : c ∉ left) : cut (c :: pat) (left ++ str) =
    (cut (c :: pat) str).map fun s => (left ++ s.1, s.2) := by
  rw [cut, findSub_append_of_not_mem hleft, Option.map_map, cut, Option.map_map]
  refine congrArg (Option.map · _) (funext fun i => ?_)
  simp [Nat.add_assoc, take_append]

theorem cut_line (hleft : c ∉ left) : cut (c :: pat) (left ++ (c :: pat) ++ right) = some (left, right) := by
  rw [append_assoc, cut_append_left hleft]
  simp [cut, findSub_cons, isPrefixOf_iff_prefix]

theorem cut_of_not_mem (hstr : c ∉ str) : cut (c :: pat) str = none := by
  rw [← append_nil str, cut_append_left hstr]
  rfl

theorem find_eq_cut : find str pat pos = (cut pat (str.drop pos)).map fun s => pos + s.1.length := by
  rw [find, cut, Option.map_map]
  refine Option.map_congr fun i hi => ?_
  have hlength := le_length_of_findSub hi
  rw [Function.comp_apply, length_take, Nat.min_eq_left (by omega)]

end Cut

/-! ### Printing decimal numbers

What an output stream writes for an unsigned number, and that `std::stoi` reads it back. -/

section Decimal

def decimalText (n : Nat) : Bytes := (Nat.toDigits 10 n).map fun c => c.toNat.toUInt8

theorem toNat_digit {c : Char} (hc : c.isDigit = true) :
    48 ≤ c.toNat ∧ c.toNat ≤ 57 ∧ (c.toNat.toUInt8).toNat = c.toNat := by
  simp only [Char.isDigit, Bool.and_eq_true, decide_eq_true_eq, ge_iff_le, UInt32.le_iff_toNat_le] at hc
  have hlow : 48 ≤ c.toNat := hc.1
  have hhigh : c.toNat ≤ 57 := hc.2
  have hround : (c.toNat.toUInt8).toNat = c.toNat % 256 := by simp [Nat.toUInt8]
  exact ⟨hlow, hhigh, by omega⟩

theorem isDigit_of_mem_decimalText {n : Nat} {c : UInt8} (hc : c ∈ decimalText n) : isDigit c = true := by
  obtain ⟨d, hd, rfl⟩ := List.mem_map.mp hc
  have hdigit := Nat.isDigit_of_mem_toDigits (by decide) (by decide) hd
  obtain ⟨hlow, hhigh, hround⟩ := toNat_digit hdigit
  simp only [isDigit, Bool.and_eq_true, decide_eq_true_eq, UInt8.le_iff_toNat_le, hround]
  exact ⟨hlow, hhigh⟩

theorem decimalText_ne_nil (n : Nat) : decimalText n ≠ [] := by
  rw [decimalText, Ne, map_eq_nil_iff]
  exact Nat.toDigits_ne_nil

theorem decimal_map {chars : List Char} (hchars : ∀ c ∈ chars, c.isDigit = true) (n : Nat) :
    (chars.map fun c => c.toNat.toUInt8).foldl (fun n c => n * 10 + (c.toNat - 48)) n =
      Nat.ofDigitChars 10 chars n := by
  induction chars generalizing n with
  | nil => simp
  | cons c rest ih =>
    obtain ⟨-, -, hround⟩ := toNat_digit (hchars c mem_cons_self)
    rw [map_cons, foldl_cons, Nat.ofDigitChars_cons, hround, Nat.mul_comm n 10]
    exact ih (fun d hd => hchars d (mem_cons_of_mem c hd)) _

@[simp]
theorem decimal_decimalText (n : Nat) : decimal (decimalText n) = n := by
  have hdigits : ∀ c ∈ Nat.toDigits 10 n, c.isDigit = true := fun c hc =>
    Nat.isDigit_of_mem_toDigits (by decide) (by decide) hc
  rw [decimal, decimalText, decimal_map hdigits]
  exact Nat.ofDigitChars_ten_toDigits

theorem stoi_decimalText {n : Nat} (hn : n < 2 ^ 31) : stoi (decimalText n) = .ok n := by
  have hstoi : stoi ([] ++ decimalText n ++ []) = if 2 ^ 31 ≤ decimal (decimalText n) then
      .error .outOfRange else .ok (decimal (decimalText n)) := by
    apply stoi_decimal
    · simp
    · exact decimalText_ne_nil n
    · exact fun c hc => isDigit_of_mem_decimalText hc
    · simp
  rwa [nil_append, append_nil, decimal_decimalText, if_neg (Nat.not_le.mpr hn)] at hstoi

end Decimal

end StdString

end Tbox.Lib
