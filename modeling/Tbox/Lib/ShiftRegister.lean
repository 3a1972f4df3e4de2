import Mathlib.Data.BitVec
import Mathlib.Logic.Function.Iterate

/-!
# Shift registers with feedback

When the bit a register gives out and the one that comes in differ, the polynomial is added to what was shifted. All
of it is linear in exclusive or, so a table for eight bits is as good as eight steps.
-/

namespace Tbox.Lib

structure ShiftRegister (w : Nat) where
  out : BitVec w → Bool
  shift : BitVec w → BitVec w
  poly : BitVec w
  out_xor : ∀ a b, out (a ^^^ b) = (out a ^^ out b)
  shift_xor : ∀ a b, shift (a ^^^ b) = shift a ^^^ shift b

namespace ShiftRegister

variable {w : Nat} (r : ShiftRegister w) {a b c : BitVec w} {bits bits' : List Bool}

def step (c : BitVec w) (bit : Bool) : BitVec w :=
  if r.out c ^^ bit then r.shift c ^^^ r.poly else r.shift c

def run (c : BitVec w) (bits : List Bool) : BitVec w := bits.foldl r.step c

/-- The bits that leave when nothing is added. -/
def outs (c : BitVec w) : Nat → List Bool
  | 0 => []
  | n + 1 => r.out c :: outs (r.shift c) n

@[simp]
theorem length_outs (c : BitVec w) (n : Nat) : (r.outs c n).length = n := by
  induction n generalizing c with
  | zero => rfl
  | succ n ih => rw [outs, List.length_cons, ih]

theorem run_cons (c : BitVec w) (bit : Bool) (bits : List Bool) : r.run c (bit :: bits) = r.run (r.step c bit) bits :=
  rfl

theorem run_append (c : BitVec w) (bits bits' : List Bool) : r.run c (bits ++ bits') = r.run (r.run c bits) bits' :=
  List.foldl_append

theorem step_xor (a b : BitVec w) (bit bit' : Bool) :
    r.step (a ^^^ b) (bit ^^ bit') = r.step a bit ^^^ r.step b bit' := by
  have hself : ∀ x : BitVec w, x ^^^ r.poly ^^^ r.poly = x := fun x => by
    rw [BitVec.xor_assoc, BitVec.xor_self, BitVec.xor_zero]
  simp only [step, r.out_xor, r.shift_xor]
  generalize r.out a = x
  generalize r.out b = y
  cases x <;> cases y <;> cases bit <;> cases bit' <;> simp <;> grind

theorem run_xor (a b : BitVec w) (hlength : bits.length = bits'.length) :
    r.run (a ^^^ b) (List.zipWith xor bits bits') = r.run a bits ^^^ r.run b bits' := by
  induction bits generalizing a b bits' with
  | nil =>
    rw [List.length_nil, eq_comm, List.length_eq_zero_iff] at hlength
    rw [hlength]
    rfl
  | cons bit bits ih =>
    obtain ⟨bit', bits', rfl⟩ := List.exists_cons_of_length_eq_add_one hlength.symm
    rw [List.zipWith_cons_cons, run_cons, step_xor, ih _ _ (Nat.succ.inj hlength)]
    rfl

theorem run_outs (c : BitVec w) (n : Nat) : r.run c (r.outs c n) = r.shift^[n] c := by
  induction n generalizing c with
  | zero => rfl
  | succ n ih =>
    have hstep : r.step c (r.out c) = r.shift c := by simp [step]
    rw [outs, run_cons, hstep, ih, Function.iterate_succ_apply]

theorem zipWith_xor_cancel (hlength : bits.length = bits'.length) :
    List.zipWith xor (List.zipWith xor bits bits') bits' = bits := by
  induction bits generalizing bits' with
  | nil => rfl
  | cons bit bits ih =>
    obtain ⟨bit', bits', rfl⟩ := List.exists_cons_of_length_eq_add_one hlength.symm
    simp [ih (Nat.succ.inj hlength)]

/-- **The empty register is enough**, as in a table. -/
theorem run_eq (c : BitVec w) (bits : List Bool) :
    r.run c bits = r.run 0 (List.zipWith xor bits (r.outs c bits.length)) ^^^ r.shift^[bits.length] c := by
  have hlength : bits.length = (r.outs c bits.length).length := by simp
  have hadded : (List.zipWith xor bits (r.outs c bits.length)).length = (r.outs c bits.length).length := by simp
  have hsum := r.run_xor 0 c hadded
  rw [zipWith_xor_cancel hlength, show (0 : BitVec w) ^^^ c = c from BitVec.zero_xor, run_outs] at hsum
  exact hsum

/-- The high bit leaves first. -/
def msbFirst (poly : BitVec w) : ShiftRegister w where
  out := BitVec.msb
  shift c := c <<< 1
  poly := poly
  out_xor _ _ := BitVec.msb_xor
  shift_xor a b := BitVec.shiftLeft_xor_distrib a b 1

/-- The low bit leaves first. -/
def lsbFirst (poly : BitVec w) : ShiftRegister w where
  out c := c.getLsbD 0
  shift c := c >>> 1
  poly := poly
  out_xor _ _ := BitVec.getLsbD_xor
  shift_xor a b := BitVec.ushiftRight_xor_distrib a b 1

theorem msbFirst_shift (poly c : BitVec w) (n : Nat) : (msbFirst poly).shift^[n] c = c <<< n := by
  induction n generalizing c with
  | zero => simp
  | succ n ih =>
    rw [Function.iterate_succ_apply, ih, Nat.add_comm, BitVec.shiftLeft_add]
    rfl

theorem lsbFirst_shift (poly c : BitVec w) (n : Nat) : (lsbFirst poly).shift^[n] c = c >>> n := by
  induction n generalizing c with
  | zero => simp
  | succ n ih =>
    rw [Function.iterate_succ_apply, ih, Nat.add_comm, BitVec.shiftRight_add]
    rfl

theorem msbFirst_outs (poly c : BitVec w) (n : Nat) : (msbFirst poly).outs c n = (List.range n).map c.getMsbD := by
  induction n generalizing c with
  | zero => rfl
  | succ n ih =>
    have htail : ((msbFirst poly).shift c).getMsbD = fun i => c.getMsbD (i + 1) := by
      funext i
      change (c <<< 1).getMsbD i = _
      rw [BitVec.getMsbD_shiftLeft]
    rw [outs, ih, htail, List.range_succ_eq_map, List.map_cons, List.map_map]
    rfl

theorem lsbFirst_outs (poly c : BitVec w) (n : Nat) : (lsbFirst poly).outs c n = (List.range n).map c.getLsbD := by
  induction n generalizing c with
  | zero => rfl
  | succ n ih =>
    have htail : ((lsbFirst poly).shift c).getLsbD = fun i => c.getLsbD (i + 1) := by
      funext i
      change (c >>> 1).getLsbD i = _
      rw [BitVec.getLsbD_ushiftRight, Nat.add_comm]
    rw [outs, ih, htail, List.range_succ_eq_map, List.map_cons, List.map_map]
    rfl

end ShiftRegister

end Tbox.Lib
