import Mathlib.Data.List.TakeWhile
import Tbox.Proof.Base64RoundTrip

/-!
# The two base64 decoders on any text

Both decoders go in step, but one stores a byte before it is complete, and one returns what the padding at the end has
promised: what matters is whether the padding and the end of the digits belong together.
-/

open List Option

namespace Tbox.Util.Base64

open Lib (Bytes Block)

variable {α : Type} {c d v tmp : UInt8} {rPos outLen : Nat} {text rest produced before rawData : Bytes}
  {block dest : Block}

def isDigit (c : UInt8) : Bool := (digitOf c).any (· ≠ 255)

/-- The digits that the text begins with. -/
def digits (text : Bytes) : Bytes := text.takeWhile isDigit

/-- What comes behind them, if anything does. -/
def stop (text : Bytes) : Option UInt8 := (text.dropWhile isDigit).head?

theorem digitOf_eq_none_iff : digitOf c = none ↔ 128 ≤ c.toNat := List.getElem?_eq_none_iff

theorem exists_digitOf (h : isDigit c = true) : ∃ v, digitOf c = some v ∧ v ≠ 255 := by
  cases hdigit : digitOf c with
  | none => simp [isDigit, hdigit] at h
  | some v => exact ⟨v, rfl, by simpa [isDigit, hdigit] using h⟩

theorem digitOf_of_not_isDigit (h : isDigit c = false) : digitOf c = if c.toNat < 128 then some 255 else none := by
  cases hdigit : digitOf c with
  | none => exact (if_neg (Nat.not_lt.mpr (digitOf_eq_none_iff.mp hdigit))).symm
  | some v =>
    have hlt : c.toNat < 128 := by
      by_contra hle
      rw [digitOf_eq_none_iff.mpr (Nat.not_lt.mp hle)] at hdigit
      cases hdigit
    have hv : v = 255 := by simpa [isDigit, hdigit] using h
    rw [if_pos hlt, hv]

theorem ne_base64Pad (h : isDigit c = true) : c ≠ base64Pad := by
  rintro rfl
  exact absurd h (by decide)

theorem digits_cons (h : isDigit c = true) : digits (c :: text) = c :: digits text := takeWhile_cons_of_pos h

theorem digits_stopped (h : ¬isDigit c = true) : digits (c :: text) = [] := takeWhile_cons_of_neg h

theorem stop_cons (h : isDigit c = true) : stop (c :: text) = stop text := by
  rw [stop, dropWhile_cons_of_pos h]
  rfl

theorem stop_stopped (h : ¬isDigit c = true) : stop (c :: text) = some c := by
  rw [stop, dropWhile_cons_of_neg h]
  rfl

def ended (stop : Option UInt8) (count : Nat) (out : α) : Option (Nat × α) :=
  match stop with
  | none => some (count, out)
  | some c => if c = base64Pad then some (count, out) else if c.toNat < 128 then some (0, out) else none

def begun (rPos : Nat) (tmp : UInt8) : Bytes := if rPos % 4 = 0 then [] else [tmp]

def InStep (rPos : Nat) (tmp : UInt8) (produced : Bytes) (block : Block) : Prop :=
  ∃ after, block.bytes = produced ++ begun rPos tmp ++ after

/-- As much memory is written to for so many digits. -/
def written (digits : Nat) : Nat := (3 * digits + 3) / 4

theorem pushDigit_append (s v tmp : UInt8) (before rawData : Bytes) :
    pushDigit s v tmp (before ++ rawData) = ((pushDigit s v tmp rawData).1, before ++ (pushDigit s v tmp rawData).2) := by
  rw [pushDigit, pushDigit]
  split_ifs <;> simp only [append_assoc]

theorem length_pushDigit (v tmp : UInt8) (hlength : produced.length = 3 * rPos / 4) :
    (pushDigit (.ofNat (rPos % 4)) v tmp produced).2.length = 3 * (rPos + 1) / 4 := by
  obtain hr | hr | hr | hr : rPos % 4 = 0 ∨ rPos % 4 = 1 ∨ rPos % 4 = 2 ∨ rPos % 4 = 3 := by omega
  all_goals
    rw [hr]
    simp [pushDigit]
    omega

theorem InStep.written_le (h : InStep rPos tmp produced block) (hlength : produced.length = 3 * rPos / 4) :
    written rPos ≤ block.bytes.length := by
  obtain ⟨after, hbytes⟩ := h
  rw [hbytes, written, length_append, length_append, begun]
  split
  · omega
  · rw [length_singleton]
    omega

theorem InStep.take_bytes (h : InStep rPos tmp produced block) : block.bytes.take produced.length = produced := by
  obtain ⟨after, hbytes⟩ := h
  rw [hbytes, append_assoc, take_left]

theorem storePair_none {x : UInt8} (h : block.bytes = before ++ [x]) (high low : UInt8) :
    (do
      let block ← orAt block before.length high
      let block ← block.store (before.length + 1) [low]
      return (block, before.length + 1)) = none := by
  rw [← append_nil (before ++ [x])] at h
  obtain ⟨block', hor, hbytes⟩ := orAt_spec h high
  have hfull : block'.store (before.length + 1) [low] = none := by
    rw [Block.store_eq_none_iff, hbytes]
    simp
  rw [hor, bind_eq_bind, bind_some, hfull]
  rfl

def Steps (rPos : Nat) (v : UInt8) (pushed : UInt8 × Bytes) (block : Block) (wPos : Nat) : Prop :=
  (written (rPos + 1) ≤ block.bytes.length → ∃ block', storeDigit rPos v block wPos = some (block', pushed.2.length) ∧
    InStep (rPos + 1) pushed.1 pushed.2 block' ∧ block'.bytes.length = block.bytes.length) ∧
  (block.bytes.length < written (rPos + 1) → storeDigit rPos v block wPos = none)

theorem steps_first (h : InStep rPos tmp produced block) (hlength : produced.length = 3 * rPos / 4)
    (hr : rPos % 4 = 0) : Steps rPos v (v <<< 2, produced) block produced.length := by
  obtain ⟨after, hbytes⟩ := h
  have hmod : (rPos + 1) % 4 = 1 := by omega
  rw [begun, if_pos hr, append_nil] at hbytes
  have hroom : block.bytes.length = produced.length + after.length := by rw [hbytes, length_append]
  rw [Steps, storeDigit, hr, written]
  refine ⟨fun hle => ?_, fun hlt => ?_⟩
  · obtain ⟨x, after, rfl⟩ := exists_cons_of_length_pos (show 0 < after.length by omega)
    have hparts : block.bytes = produced ++ [x] ++ after := by rw [hbytes, append_assoc, singleton_append]
    obtain ⟨block', hstore, hbytes'⟩ : ∃ block', block.store produced.length [v <<< 2] = some block' ∧
        block'.bytes = produced ++ [v <<< 2] ++ after := Block.store_append hparts rfl
    refine ⟨block', ?_, ⟨after, ?_⟩, Block.length_of_store hstore⟩
    · dsimp only
      rw [hstore]
      rfl
    · rw [begun, if_neg (by omega)]
      exact hbytes'
  · have hfull : block.store produced.length [v <<< 2] = none := by
      rw [Block.store_eq_none_iff, length_singleton]
      omega
    simp only [hfull, bind_eq_bind, bind_none]

theorem steps_pair (h : InStep rPos tmp produced block) (hlength : produced.length = 3 * rPos / 4)
    (hr : rPos % 4 = 1 ∨ rPos % 4 = 2) (high low : UInt8)
    (hstep : storeDigit rPos v block produced.length = (do
      let block ← orAt block produced.length high
      let block ← block.store (produced.length + 1) [low]
      return (block, produced.length + 1))) :
    Steps rPos v (low, produced ++ [tmp ||| high]) block produced.length := by
  obtain ⟨after, hbytes⟩ := h
  rw [begun, if_neg (by omega)] at hbytes
  have hroom : block.bytes.length = produced.length + 1 + after.length := by
    rw [hbytes, length_append, length_append, length_singleton]
  rw [Steps, hstep, written]
  refine ⟨fun hle => ?_, fun hlt => ?_⟩
  · obtain ⟨y, after, rfl⟩ := exists_cons_of_length_pos (show 0 < after.length by omega)
    rw [← singleton_append] at hbytes
    obtain ⟨block', hpair, hbytes'⟩ := storePair_spec hbytes high low
    have hlength' : (produced ++ [tmp ||| high]).length = produced.length + 1 := by
      rw [length_append, length_singleton]
    refine ⟨block', hlength' ▸ hpair, ⟨after, ?_⟩, ?_⟩
    · rw [begun, if_neg (by omega)]
      exact hbytes'
    · rw [hbytes', hbytes]
      simp
  · obtain rfl := length_eq_zero_iff.mp (show after.length = 0 by omega)
    rw [append_nil] at hbytes
    exact storePair_none hbytes high low

theorem steps_fourth (h : InStep rPos tmp produced block) (hlength : produced.length = 3 * rPos / 4)
    (hr : rPos % 4 = 3) : Steps rPos v (tmp ||| v, produced ++ [tmp ||| v]) block produced.length := by
  obtain ⟨after, hbytes⟩ := h
  have hwritten := InStep.written_le ⟨after, hbytes⟩ hlength
  rw [begun, if_neg (by omega)] at hbytes
  obtain ⟨block', hor, hbytes'⟩ := orAt_spec hbytes v
  have hlength' : (produced ++ [tmp ||| v]).length = produced.length + 1 := by
    rw [length_append, length_singleton]
  rw [Steps, storeDigit, hr]
  rw [written] at hwritten ⊢
  refine ⟨fun _ => ⟨block', ?_, ⟨after, ?_⟩, ?_⟩, fun hlt => by omega⟩
  · dsimp only
    rw [hor, hlength']
    rfl
  · rw [begun, if_pos (by omega), append_nil]
    exact hbytes'
  · rw [hbytes', hbytes]
    simp

theorem steps (h : InStep rPos tmp produced block) (hlength : produced.length = 3 * rPos / 4) (v : UInt8) :
    Steps rPos v (pushDigit (.ofNat (rPos % 4)) v tmp produced) block produced.length := by
  obtain hr | hr | hr | hr : rPos % 4 = 0 ∨ rPos % 4 = 1 ∨ rPos % 4 = 2 ∨ rPos % 4 = 3 := by omega
  · rw [hr]
    exact steps_first h hlength hr
  · rw [hr]
    exact steps_pair h hlength (.inl hr) (v >>> 4) (v <<< 4) (by simp only [storeDigit, hr])
  · rw [hr]
    exact steps_pair h hlength (.inr hr) (v >>> 2) (v <<< 6) (by simp only [storeDigit, hr])
  · rw [hr]
    exact steps_fourth h hlength hr

theorem written_le_written {n m : Nat} (h : n ≤ m) : written n ≤ written m := by
  rw [written, written]
  omega

theorem state_succ (rPos : Nat) : (UInt8.ofNat (rPos % 4) + 1) &&& 0x03 = .ofNat ((rPos + 1) % 4) := by
  have hsucc : (rPos + 1) % 4 = (rPos % 4 + 1) % 4 := (Nat.mod_add_mod _ _ _).symm
  have hall : ∀ r < 4, (UInt8.ofNat r + 1) &&& 0x03 = .ofNat ((r + 1) % 4) := by decide
  rw [hsucc]
  exact hall _ (Nat.mod_lt _ (by decide))

theorem decodeVectorLoop_stopped (h : ¬isDigit c = true) (s : UInt8) :
    decodeVectorLoop outLen s tmp (c :: text) rawData = ended (some c) outLen rawData := by
  rw [decodeVectorLoop, digitOf_of_not_isDigit (Bool.eq_false_of_not_eq_true h), ended]
  split_ifs <;> rfl

theorem decodeLoop_stopped (h : ¬isDigit c = true) (wPos : Nat) :
    decodeLoop rPos (c :: text) block wPos = ended (some c) wPos block := by
  rw [decodeLoop, digitOf_of_not_isDigit (Bool.eq_false_of_not_eq_true h), ended]
  split_ifs <;> rfl

theorem loops_inStep (hlength : produced.length = 3 * rPos / 4) (tmp : UInt8) (outLen : Nat) (before text : Bytes) :
    ∃ all : Bytes, all.length = 3 * (rPos + (digits text).length) / 4 ∧
      decodeVectorLoop outLen (.ofNat (rPos % 4)) tmp text (before ++ produced) =
        ended (stop text) outLen (before ++ all) ∧ ∀ block, InStep rPos tmp produced block →
        (written (rPos + (digits text).length) ≤ block.bytes.length → ∃ block',
          decodeLoop rPos text block produced.length = ended (stop text) all.length block' ∧
            block'.bytes.take all.length = all) ∧ (block.bytes.length < written (rPos + (digits text).length) →
          decodeLoop rPos text block produced.length = none) := by
  induction text generalizing rPos tmp produced with
  | nil =>
    refine ⟨produced, hlength, rfl, fun block h => ⟨fun _ => ⟨block, rfl, h.take_bytes⟩, fun hlt => ?_⟩⟩
    exact absurd (h.written_le hlength) (Nat.not_le.mpr hlt)
  | cons c text ih =>
    by_cases hc : isDigit c = true
    case neg =>
      rw [digits_stopped hc, stop_stopped hc, decodeVectorLoop_stopped hc]
      refine ⟨produced, hlength, rfl, fun block h => ?_⟩
      rw [decodeLoop_stopped hc]
      refine ⟨fun _ => ⟨block, rfl, h.take_bytes⟩, fun hlt => ?_⟩
      exact absurd (h.written_le hlength) (Nat.not_le.mpr hlt)
    case pos =>
      obtain ⟨v, hdigit, hused⟩ := exists_digitOf hc
      have hpush := pushDigit_append (.ofNat (rPos % 4)) v tmp before produced
      have hpushed := length_pushDigit v tmp hlength
      have hsteps := fun block (h : InStep rPos tmp produced block) => steps h hlength v
      generalize pushDigit (.ofNat (rPos % 4)) v tmp produced = pushed at hpush hpushed hsteps
      have hcount : rPos + (digits (c :: text)).length = rPos + 1 + (digits text).length := by
        rw [digits_cons hc, length_cons]
        omega
      obtain ⟨all, hall, hvector, hmemory⟩ := ih hpushed pushed.1
      rw [hcount, stop_cons hc]
      refine ⟨all, hall, ?_, fun block h => ?_⟩
      · rw [decodeVectorLoop, if_neg (ne_base64Pad hc), hdigit, bind_eq_bind, bind_some,
          if_neg hused, hpush, state_succ]
        exact hvector
      obtain ⟨hroom, hfull⟩ := hsteps block h
      have hloop : decodeLoop rPos (c :: text) block produced.length =
          (storeDigit rPos v block produced.length).bind fun out => decodeLoop (rPos + 1) text out.1 out.2 := by
        rw [decodeLoop, if_neg (ne_base64Pad hc), hdigit, bind_eq_bind, bind_some, if_neg hused]
        rfl
      rw [hloop]
      by_cases hle : written (rPos + 1) ≤ block.bytes.length
      · obtain ⟨block', hstore, hinStep, hsize⟩ := hroom hle
        rw [hstore, bind_some, ← hsize]
        exact hmemory block' hinStep
      -- there is no place for the byte that this digit begins
      refine ⟨fun hwritten => ?_, fun _ => ?_⟩
      · exact absurd ((written_le_written (Nat.le_add_right _ _)).trans hwritten) hle
      · rw [hfull (Nat.not_le.mp hle), bind_none]

def padAt (text : Bytes) (i : Nat) : Nat := if text[i]? = some base64Pad then 1 else 0

theorem decodeLength_eq (hfour : text.length % 4 = 0) :
    decodeLength text = 3 * text.length / 4 - padAt text (text.length - 1) - padAt text (text.length - 2) := by
  rw [decodeLength, and_three, padAt, padAt]
  by_cases hnil : text.length = 0
  · rw [if_pos (.inl hnil), hnil]
    omega
  · rw [if_neg (by omega)]
    dsimp only
    split_ifs <;> omega

theorem padAt_le_one (text : Bytes) (i : Nat) : padAt text i ≤ 1 := by
  rw [padAt]
  split_ifs <;> omega

theorem digits_append_rest (text : Bytes) : digits text ++ text.dropWhile isDigit = text := takeWhile_append_dropWhile

theorem padAt_digits {i : Nat} (h : text = digits text ++ rest) (hi : i < (digits text).length) : padAt text i = 0 := by
  refine if_neg fun hpad => ?_
  rw [h, getElem?_append_left hi] at hpad
  exact ne_base64Pad (mem_takeWhile_imp (mem_of_getElem? hpad)) rfl

theorem decodeLength_digits (hfour : text.length % 4 = 0) (h : text = digits text) :
    decodeLength text = 3 * (digits text).length / 4 := by
  have hlength := congrArg List.length h
  rw [← append_nil (digits text)] at h
  rw [decodeLength_eq hfour]
  by_cases hnil : text.length = 0
  · omega
  · rw [padAt_digits h (by omega), padAt_digits h (by omega), hlength]
    rfl

theorem decodeLength_one (hfour : text.length % 4 = 0) (h : text = digits text ++ [c]) :
    decodeLength text = 3 * ((digits text).length + 1) / 4 - if c = base64Pad then 1 else 0 := by
  have hlength := congrArg List.length h
  rw [length_append, length_singleton] at hlength
  have hlast : padAt text (text.length - 1) = if c = base64Pad then 1 else 0 := by
    have hget : text[text.length - 1]? = some c := by
      rw [hlength, Nat.add_sub_cancel]
      nth_rewrite 1 [h]
      exact getElem?_concat_length
    rw [padAt, hget]
    exact if_congr some_inj rfl rfl
  rw [decodeLength_eq hfour, hlast, padAt_digits h (by omega), hlength]
  rfl

theorem decodeLength_two (hfour : text.length % 4 = 0) (h : text = digits text ++ [c, d]) :
    decodeLength text = 3 * ((digits text).length + 2) / 4 - (if d = base64Pad then 1 else 0) -
      if c = base64Pad then 1 else 0 := by
  have hlength := congrArg List.length h
  rw [length_append, length_cons, length_singleton] at hlength
  have hget : ∀ i, text[(digits text).length + i]? = [c, d][i]? := by
    intro i
    nth_rewrite 1 [h]
    rw [getElem?_append_right (Nat.le_add_right _ _), Nat.add_sub_cancel_left]
  have hlast : padAt text (text.length - 1) = if d = base64Pad then 1 else 0 := by
    rw [padAt, show text.length - 1 = (digits text).length + 1 by omega, hget]
    exact if_congr some_inj rfl rfl
  have hbefore : padAt text (text.length - 2) = if c = base64Pad then 1 else 0 := by
    rw [padAt, show text.length - 2 = (digits text).length + 0 by omega, hget]
    exact if_congr some_inj rfl rfl
  rw [decodeLength_eq hfour, hlast, hbefore, hlength]

theorem le_decodeLength (hfour : text.length % 4 = 0) : 3 * text.length / 4 ≤ decodeLength text + 2 := by
  have hlast := padAt_le_one text (text.length - 1)
  have hbefore := padAt_le_one text (text.length - 2)
  rw [decodeLength_eq hfour]
  omega

theorem eq_digits_append_iff : text = digits text ++ rest ↔ text.dropWhile isDigit = rest := by
  constructor
  · intro h
    exact append_cancel_left ((digits_append_rest text).trans h)
  · rintro rfl
    exact (digits_append_rest text).symm

/-- Both decoders stop at the same place, and have the same bytes by then. -/
theorem decoders_run (hfour : text.length % 4 = 0) (rawData : Bytes) :
    ∃ all : Bytes, all.length = 3 * (digits text).length / 4 ∧
      decode text rawData = ended (stop text) (decodeLength text) (rawData ++ all) ∧
      ∀ dest : Block, decodeLength text ≤ dest.bytes.length →
        (written (digits text).length ≤ dest.bytes.length → ∃ dest',
          decodeTo text dest = ended (stop text) all.length dest' ∧ dest'.bytes.take all.length = all) ∧
        (dest.bytes.length < written (digits text).length → decodeTo text dest = none) := by
  have hstart : ([] : Bytes).length = 3 * 0 / 4 := rfl
  obtain ⟨all, hall, hvector, hmemory⟩ := loops_inStep hstart 0 (decodeLength text) rawData text
  rw [Nat.zero_add] at hall hmemory
  rw [append_nil] at hvector
  refine ⟨all, hall, ?_, fun dest hle => ?_⟩
  · rw [decode, ← hvector]
    split
    case isTrue hzero =>
      have hnil : text = [] := by
        have hle := le_decodeLength hfour
        exact length_eq_zero_iff.mp (by omega)
      rw [hnil]
      rfl
    case isFalse => rfl
  · rw [decodeTo, and_three, if_neg (not_not.mpr hfour), if_neg (Nat.not_lt.mpr hle)]
    exact hmemory dest ⟨dest.bytes, rfl⟩

theorem isSome_ended {α : Type} (stop : Option UInt8) (count : Nat) (out : α) :
    (ended stop count out).isSome ↔ ∀ c, stop = some c → c.toNat < 128 := by
  cases stop with
  | none => exact iff_of_true rfl nofun
  | some c =>
    rw [ended]
    split_ifs with hpad hlt
    · refine iff_of_true rfl ?_
      rintro c ⟨⟩
      exact hpad ▸ (by decide)
    · refine iff_of_true rfl ?_
      rintro c ⟨⟩
      exact hlt
    · exact iff_of_false Bool.false_ne_true fun hall => hlt (hall c rfl)

/-- Nothing stands behind the digits but the pads that fill up the last group. -/
def Filled (text : Bytes) : Prop := text = digits text ++ [base64Pad] ∨ text = digits text ++ [base64Pad, base64Pad]

/-- The digits are written in as many bytes as are promised where nothing is behind them, in one more with pads, and in
no more with anything else. -/
theorem padding_cases (hfour : text.length % 4 = 0) :
    (text = digits text ∧ decodeLength text = 3 * (digits text).length / 4 ∧
      written (digits text).length = decodeLength text) ∨
    (Filled text ∧ decodeLength text = 3 * (digits text).length / 4 ∧
      written (digits text).length = decodeLength text + 1) ∨
    (text ≠ digits text ∧ ¬Filled text ∧ 3 * (digits text).length / 4 < decodeLength text ∧
      written (digits text).length ≤ decodeLength text) := by
  have hlength := congrArg List.length (digits_append_rest text)
  rw [length_append] at hlength
  have hnil : text = digits text ↔ text.dropWhile isDigit = [] := by
    rw [← eq_digits_append_iff, append_nil]
  rw [Filled, eq_digits_append_iff, eq_digits_append_iff, Ne, hnil, written]
  cases hrest : text.dropWhile isDigit with
  | nil =>
    have hL := decodeLength_digits hfour (hnil.mpr hrest)
    rw [hrest, length_nil] at hlength
    exact .inl ⟨rfl, hL, by omega⟩
  | cons c rest =>
    rw [hrest, length_cons] at hlength
    match rest with
    | [] =>
      have hL := decodeLength_one hfour (eq_digits_append_iff.mpr hrest)
      rw [length_nil] at hlength
      by_cases hc : c = base64Pad
      · rw [if_pos hc] at hL
        exact .inr (.inl ⟨.inl (by rw [hc]), by omega, by omega⟩)
      · rw [if_neg hc] at hL
        exact .inr (.inr ⟨cons_ne_nil _ _, by simpa using hc, by omega, by omega⟩)
    | [d] =>
      have hL := decodeLength_two hfour (eq_digits_append_iff.mpr hrest)
      rw [length_singleton] at hlength
      by_cases hpads : c = base64Pad ∧ d = base64Pad
      · obtain ⟨hc, hd⟩ := hpads
        rw [if_pos hc, if_pos hd] at hL
        exact .inr (.inl ⟨.inr (by rw [hc, hd]), by omega, by omega⟩)
      have hone : (if d = base64Pad then 1 else 0) + (if c = base64Pad then 1 else 0) ≤ 1 := by
        split_ifs with hd hc
        · exact absurd ⟨hc, hd⟩ hpads
        all_goals omega
      exact .inr (.inr ⟨cons_ne_nil _ _, by simpa using hpads, by omega, by omega⟩)
    | d :: e :: rest =>
      have hL := le_decodeLength hfour
      rw [length_cons, length_cons] at hlength
      exact .inr (.inr ⟨cons_ne_nil _ _, by simp, by omega, by omega⟩)

theorem promised_iff (hfour : text.length % 4 = 0) :
    3 * (digits text).length / 4 = decodeLength text ↔ text = digits text ∨ Filled text := by
  rcases padding_cases hfour with
    ⟨hdigits, hpadding, -⟩ | ⟨hfilled, hpadding, -⟩ | ⟨hundigit, hunfilled, hpadding, -⟩
  · exact iff_of_true hpadding.symm (.inl hdigits)
  · exact iff_of_true hpadding.symm (.inr hfilled)
  · exact iff_of_false (Nat.ne_of_lt hpadding) (not_or.mpr ⟨hundigit, hunfilled⟩)

theorem written_le_promised (hfour : text.length % 4 = 0) : written (digits text).length ≤ decodeLength text + 1 := by
  rcases padding_cases hfour with ⟨-, -, hpadding⟩ | ⟨-, -, hpadding⟩ | ⟨-, -, -, hpadding⟩ <;> omega

/-- Both forms index their table inside, and the buffer form its memory too. -/
def InBounds (text : Bytes) (dest : Block) (rawData : Bytes) : Prop :=
  (decodeTo text dest).isSome ∧ (decode text rawData).isSome

theorem inBounds_of_broken (h : text.length % 4 ≠ 0) (dest : Block) (rawData : Bytes) :
    decodeTo text dest = some (0, dest) ∧ decode text rawData = some (0, rawData) := by
  have hzero : decodeLength text = 0 := by
    rw [decodeLength, and_three, if_pos (.inr h)]
  rw [decodeTo, decode, and_three, if_pos h, hzero]
  exact ⟨rfl, rfl⟩

/-- **Decoding is in bounds** unless a character that is negative ends the digits, or the text is filled with pads and
the memory has no byte but those that are promised. -/
theorem inBounds_iff (text : Bytes) (dest : Block) (rawData : Bytes) : InBounds text dest rawData ↔
    (text.length % 4 = 0 → (∀ c, stop text = some c → c.toNat < 128) ∧
      ¬(Filled text ∧ dest.bytes.length = decodeLength text)) := by
  by_cases hfour : text.length % 4 = 0
  case neg =>
    obtain ⟨hmemory, hvector⟩ := inBounds_of_broken hfour dest rawData
    rw [InBounds, hmemory, hvector]
    exact iff_of_true ⟨rfl, rfl⟩ fun h => absurd h hfour
  case pos =>
    obtain ⟨all, -, hvector, hmemory⟩ := decoders_run hfour rawData
    rw [InBounds, hvector, isSome_ended, and_comm, imp_iff_right hfour]
    refine and_congr_right fun hstop => ?_
    by_cases hle : decodeLength text ≤ dest.bytes.length
    case neg =>
      have hrefused : decodeTo text dest = some (0, dest) := by
        rw [decodeTo, and_three, if_neg (not_not.mpr hfour), if_pos (Nat.not_le.mp hle)]
      rw [hrefused]
      exact iff_of_true rfl fun htight => hle htight.2.ge
    case pos =>
      obtain ⟨hroom, hfull⟩ := hmemory dest hle
      by_cases hwritten : written (digits text).length ≤ dest.bytes.length
      · obtain ⟨dest', hdecode, -⟩ := hroom hwritten
        rw [hdecode, isSome_ended]
        refine iff_of_true hstop ?_
        rintro ⟨hfilled, hsize⟩
        rcases padding_cases hfour with ⟨hdigits, -, hpadding⟩ | ⟨-, -, hpadding⟩ | ⟨-, hpadding, -⟩
        · rw [Filled, ← hdigits] at hfilled
          simp at hfilled
        · omega
        · exact hpadding hfilled
      · rw [hfull (Nat.not_le.mp hwritten)]
        refine iff_of_false Bool.false_ne_true (not_not.mpr ?_)
        rcases padding_cases hfour with ⟨-, -, hpadding⟩ | ⟨hfilled, -, hpadding⟩ | ⟨-, -, -, hpadding⟩
        · omega
        · exact ⟨hfilled, by omega⟩
        · omega

/-- Of two digits the second begins a byte that is never whole. -/
theorem tightlyPadded_not_inBounds :
    decodeTo [65, 65, 61, 61] ⟨[0], by decide⟩ = none ∧ decode [200, 65, 65, 65] [] = none ∧
      ¬∀ text dest rawData, InBounds text dest rawData := by
  refine ⟨by decide, by decide, fun hall => ?_⟩
  have hinBounds := hall [65, 65, 61, 61] ⟨[0], by decide⟩ []
  exact absurd hinBounds.1 (by decide)

/-- Both forms return the same number, the vector has as many bytes more as are returned, and they are those in memory. -/
def Agree (text : Bytes) (dest : Block) (rawData : Bytes) : Prop :=
  ∃ n dest' out, decodeTo text dest = some (n, dest') ∧ decode text rawData = some (n, out) ∧
    out = rawData ++ dest'.bytes.take n ∧ out.length = rawData.length + n ∧ (n = 0 → out = rawData)

theorem stop_of_digits (h : text = digits text) : stop text = none := by
  have hrest := eq_digits_append_iff.mp (h.trans (append_nil _).symm)
  rw [stop, hrest]
  rfl

theorem stop_of_filled (h : Filled text) : stop text = some base64Pad := by
  rcases h with h | h
  · rw [stop, eq_digits_append_iff.mp h]
    rfl
  · rw [stop, eq_digits_append_iff.mp h]
    rfl

theorem digits_of_stop (h : stop text = none) : text = digits text := by
  have hrest := eq_digits_append_iff.mpr (List.head?_eq_none_iff.mp h)
  rwa [append_nil] at hrest

theorem mem_of_stop (h : stop text = some c) : c ∈ text := (dropWhile_suffix _).subset (mem_of_head? h)

theorem agree_iff_of_runs {all : Bytes} {n outLen : Nat} {dest' : Block}
    (hmemory : decodeTo text dest = some (n, dest')) (hvector : decode text rawData = some (outLen, rawData ++ all))
    (htake : dest'.bytes.take all.length = all) : Agree text dest rawData ↔ n = outLen ∧ all.length = outLen := by
  rw [Agree, hmemory, hvector]
  constructor
  · rintro ⟨count, block, out, hmemory', hvector', -, hlength, -⟩
    obtain ⟨rfl, rfl⟩ := Prod.mk.inj (some.inj hmemory')
    obtain ⟨rfl, rfl⟩ := Prod.mk.inj (some.inj hvector')
    rw [length_append] at hlength
    exact ⟨rfl, Nat.add_left_cancel hlength⟩
  · rintro ⟨rfl, rfl⟩
    refine ⟨_, dest', _, rfl, rfl, by rw [htake], length_append, fun hzero => ?_⟩
    rw [length_eq_zero_iff.mp hzero, append_nil]

/-- **The two decoders agree** on base64, on a bad length, and where a bad character comes before a byte is whole. -/
theorem agree_iff (hchars : ∀ c ∈ text, c.toNat < 128) (hroom : decodeLength text < dest.bytes.length)
    (rawData : Bytes) : Agree text dest rawData ↔ text.length % 4 ≠ 0 ∨ (text = digits text ∨ Filled text) ∨
        ∃ c, stop text = some c ∧ c ≠ base64Pad ∧ (digits text).length < 2 := by
  by_cases hfour : text.length % 4 = 0
  case neg =>
    obtain ⟨hmemory, hvector⟩ := inBounds_of_broken hfour dest rawData
    have hvector' : decode text rawData = some (0, rawData ++ []) := by rw [hvector, List.append_nil]
    exact iff_of_true ((agree_iff_of_runs hmemory hvector' rfl).mpr ⟨rfl, rfl⟩) (.inl hfour)
  case pos =>
    rw [or_iff_right (not_not.mpr hfour)]
    obtain ⟨all, hall, hvector, hmemory⟩ := decoders_run hfour rawData
    obtain ⟨hwrite, -⟩ := hmemory dest hroom.le
    obtain ⟨dest', hdecode, htake⟩ := hwrite ((written_le_promised hfour).trans hroom)
    cases hstop : stop text with
    | none =>
      rw [hstop] at hdecode hvector
      have hdigits := digits_of_stop hstop
      have hpromised := hall.trans ((promised_iff hfour).mpr (.inl hdigits))
      exact iff_of_true ((agree_iff_of_runs hdecode hvector htake).mpr ⟨hpromised, hpromised⟩) (.inl (.inl hdigits))
    | some c =>
      have hundigit : text ≠ digits text := fun h => nomatch hstop.symm.trans (stop_of_digits h)
      rw [hstop, ended] at hdecode hvector
      by_cases hc : c = base64Pad
      · -- one form returns what it has written, the other what it was to write
        rw [if_pos hc] at hdecode hvector
        rw [agree_iff_of_runs hdecode hvector htake, and_self, hall, promised_iff hfour]
        refine (or_iff_left ?_).symm
        rintro ⟨c', hstop', hc', -⟩
        obtain rfl := Option.some.inj hstop'
        exact absurd hc hc'
      · -- both refuse the text, and the vector is not taken back
        have hlt := hchars c (mem_of_stop hstop)
        have hunfilled : ¬Filled text := fun h => hc (Option.some.inj (hstop.symm.trans (stop_of_filled h)))
        rw [if_neg hc, if_pos hlt] at hdecode hvector
        rw [agree_iff_of_runs hdecode hvector htake, or_iff_right (not_or.mpr ⟨hundigit, hunfilled⟩), hall]
        constructor
        · exact fun ⟨_, hzero⟩ => ⟨c, rfl, hc, by omega⟩
        · rintro ⟨-, -, -, hfew⟩
          exact ⟨rfl, by omega⟩

theorem agree_wholeGroup : Agree [65, 65, 65, 65] ⟨[1, 2, 3, 4], by decide⟩ [7] :=
  (agree_iff (show ∀ c ∈ [65, 65, 65, 65], UInt8.toNat c < 128 by simp) (by decide) [7]).mpr
    (.inr (.inl (.inl (by decide))))

/-- A pad in front: one form returns three bytes. A bad character behind a group: three bytes have been appended. -/
theorem misplaced_not_agree :
    decodeTo [61, 65, 65, 65] ⟨[0, 0, 0, 0], by decide⟩ = some (0, ⟨[0, 0, 0, 0], by decide⟩) ∧
      decode [61, 65, 65, 65] [] = some (3, []) ∧
      decode [65, 65, 65, 65, 33, 65, 65, 65] [] = some (0, [0, 0, 0]) ∧
      ¬∀ text dest rawData, (∀ c ∈ text, c.toNat < 128) → decodeLength text < dest.bytes.length →
        Agree text dest rawData := by
  have hmemory : decodeTo [61, 65, 65, 65] ⟨[0, 0, 0, 0], by decide⟩ = some (0, ⟨[0, 0, 0, 0], by decide⟩) := by decide
  have hvector : decode [61, 65, 65, 65] [] = some (3, []) := by decide
  refine ⟨hmemory, hvector, by decide, fun hall => ?_⟩
  obtain ⟨n, dest', out, hmemory', hvector', -⟩ := hall [61, 65, 65, 65] ⟨[0, 0, 0, 0], by decide⟩ [] (by simp) (by decide)
  have hzero := (Prod.mk.inj (Option.some.inj (hmemory.symm.trans hmemory'))).1
  have hthree := (Prod.mk.inj (Option.some.inj (hvector.symm.trans hvector'))).1
  omega

end Tbox.Util.Base64
