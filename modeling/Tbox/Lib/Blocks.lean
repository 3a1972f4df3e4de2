import Mathlib.Data.List.Basic
import Mathlib.Tactic.Common

/-!
# A list in blocks

The blocks of `n` that a list has room for, and what is left behind them. A list that grows at its end gets new
blocks from what was left and what comes.
-/

open List

namespace Tbox.Lib

variable {α : Type*} {n : Nat} {text more block : List α}

def blocks (n : Nat) (text : List α) : List (List α) :=
  if 0 < n ∧ n ≤ text.length then text.take n :: blocks n (text.drop n) else []
termination_by text.length
decreasing_by simp only [List.length_drop]; omega

/-- What does not fill a block. -/
def leftOver (n : Nat) (text : List α) : List α := text.drop (text.length / n * n)

theorem blocks_of_lt (h : text.length < n) : blocks n text = [] := by
  rw [blocks, if_neg (by omega)]

theorem leftOver_of_lt (h : text.length < n) : leftOver n text = text := by
  rw [leftOver, Nat.div_eq_of_lt h, Nat.zero_mul, drop_zero]

theorem blocks_append_block (hn : 0 < n) (hblock : block.length = n) (text : List α) :
    blocks n (block ++ text) = block :: blocks n text := by
  rw [blocks, if_pos ⟨hn, by simp [hblock]⟩, ← hblock, take_left, drop_left]

theorem leftOver_append_block (hn : 0 < n) (hblock : block.length = n) (text : List α) :
    leftOver n (block ++ text) = leftOver n text := by
  have hlength : (block ++ text).length / n * n = block.length + text.length / n * n := by
    rw [List.length_append, hblock, Nat.add_div_left _ hn, Nat.succ_mul, Nat.add_comm]
  rw [leftOver, hlength, drop_append, leftOver]
  simp

theorem length_leftOver (text : List α) : (leftOver n text).length = text.length % n := by
  have hdiv := Nat.div_add_mod' text.length n
  rw [leftOver, length_drop]
  omega

@[elab_as_elim]
theorem blocks_induction {motive : List α → Prop} (hn : 0 < n) (short : ∀ text, text.length < n → motive text)
    (cons : ∀ block text, block.length = n → motive text → motive (block ++ text)) (text : List α) : motive text := by
  induction h : text.length using Nat.strongRecOn generalizing text with
  | ind length ih =>
    by_cases hlt : text.length < n
    · exact short text hlt
    · have htake : (text.take n).length = n := length_take_of_le (Nat.le_of_not_lt hlt)
      have hrest := ih (text.drop n).length (by rw [length_drop]; omega) (text.drop n) rfl
      rw [← take_append_drop n text]
      exact cons _ _ htake hrest

theorem flatten_blocks (hn : 0 < n) (text : List α) : (blocks n text).flatten ++ leftOver n text = text := by
  induction text using blocks_induction hn with
  | short text hlt => rw [blocks_of_lt hlt, leftOver_of_lt hlt, flatten_nil, nil_append]
  | cons block text hblock ih =>
    rw [blocks_append_block hn hblock, leftOver_append_block hn hblock, flatten_cons, append_assoc, ih]

theorem blocks_append (hn : 0 < n) (text more : List α) :
    blocks n (text ++ more) = blocks n text ++ blocks n (leftOver n text ++ more) := by
  induction text using blocks_induction hn with
  | short text hlt => rw [blocks_of_lt hlt, leftOver_of_lt hlt, nil_append]
  | cons block text hblock ih =>
    rw [append_assoc, blocks_append_block hn hblock, blocks_append_block hn hblock,
      leftOver_append_block hn hblock, ih, cons_append]

theorem leftOver_append (hn : 0 < n) (text more : List α) :
    leftOver n (text ++ more) = leftOver n (leftOver n text ++ more) := by
  induction text using blocks_induction hn with
  | short text hlt => rw [leftOver_of_lt hlt]
  | cons block text hblock ih =>
    rw [append_assoc, leftOver_append_block hn hblock, leftOver_append_block hn hblock, ih]

theorem eq_of_blocks_eq {other : List α} (hn : 0 < n) (htext : text.length % n = 0) (hother : other.length % n = 0)
    (h : blocks n text = blocks n other) : text = other := by
  have hnil : leftOver n text = [] := eq_nil_of_length_eq_zero ((length_leftOver text).trans htext)
  have hnil' : leftOver n other = [] := eq_nil_of_length_eq_zero ((length_leftOver other).trans hother)
  rw [← flatten_blocks hn text, ← flatten_blocks hn other, h, hnil, hnil']

end Tbox.Lib
