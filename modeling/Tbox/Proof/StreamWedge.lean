import Tbox.Proof.HeaderFrames
import Tbox.Proof.JsonScan

/-!
# Waiting for what may still come

A decoder that waits should be one that some continuation would let go on. With a head it always is; without one it is
as long as the brackets can be counted: `RawStreamProto` takes -1 for an incomplete message.
-/

open List

namespace Tbox.Util.FindEndPos

open Lib (Bytes)

variable {s s' : Scan} {before text data : Bytes} {ch : UInt8}

theorem loop_append_of_ne (hfound : loop s before data ≠ .no) (more : Bytes) :
    loop s before (data ++ more) = loop s before data := by
  induction data generalizing s before with
  | nil => exact absurd rfl hfound
  | cons ch data ih =>
    rw [cons_append, loop, loop]
    rw [loop] at hfound
    cases hstep : s.step before ch with
    | next s' =>
      rw [hstep] at hfound
      exact ih hfound
    | ends => rfl
    | mismatch => rfl

theorem passes_of_loop (hno : loop s before data = .no) : ∃ s', Passes s before data s' := by
  induction data generalizing s before with
  | nil => exact ⟨s, .nil⟩
  | cons ch data ih =>
    rw [loop] at hno
    cases hstep : s.step before ch with
    | next s' =>
      rw [hstep] at hno
      obtain ⟨s'', hpasses⟩ := ih hno
      exact ⟨s'', .cons hstep hpasses⟩
    | ends =>
      rw [hstep] at hno
      exact absurd hno Found.noConfusion
    | mismatch =>
      rw [hstep] at hno
      exact absurd hno Found.noConfusion

/-- No bracket has been closed more than opened, and as many are open as an `int` can tell. -/
structure Counted (s : Scan) : Prop where
  braces : 0 ≤ s.bracesLevel
  square : 0 ≤ s.squareLevel
  bracesLt : s.bracesLevel < 2 ^ 31
  squareLt : s.squareLevel < 2 ^ 31

def Waiting (s : Scan) : Prop :=
  s = {} ∨ (s.isStarted = true ∧ Counted s ∧ (s.inString = true ∨ 0 < s.bracesLevel + s.squareLevel))

theorem check_eq_next (h : s.check = .next s') : s' = s ∧ 0 ≤ s.bracesLevel ∧ 0 ≤ s.squareLevel ∧
    (s.isStarted = true → s.inString = true ∨ 0 < s.bracesLevel + s.squareLevel) := by
  rw [Scan.check] at h
  split at h
  · exact absurd h Step.noConfusion
  rename_i hends
  split at h
  · exact absurd h Step.noConfusion
  rename_i hlevels
  obtain ⟨hbraces, hsquare⟩ := not_or.mp hlevels
  refine ⟨(Step.next.inj h).symm, by omega, by omega, fun hstarted => ?_⟩
  by_cases hin : s.inString = true
  · exact .inl hin
  · refine .inr ?_
    by_contra hlevel
    exact hends ⟨by omega, by omega, Bool.eq_false_of_not_eq_true hin, hstarted⟩

theorem isStarted_bracket (s : Scan) (ch : UInt8) : (s.bracket ch).isStarted = s.isStarted := by
  rw [Scan.bracket]
  split_ifs <;> rfl

theorem bracket_lt (hbraces : s.bracesLevel < 2 ^ 31) (hsquare : s.squareLevel < 2 ^ 31) (ch : UInt8) :
    (s.bracket ch).bracesLevel < 2 ^ 31 ∧ (s.bracket ch).squareLevel < 2 ^ 31 := by
  have hlt : ∀ level : Int, level.bmod (2 ^ 32) < 2 ^ 31 := fun level => Int.bmod_lt (by decide)
  rw [Scan.bracket]
  split_ifs
  · exact ⟨hbraces, hlt _⟩
  · exact ⟨hbraces, hlt _⟩
  · exact ⟨hlt _, hsquare⟩
  · exact ⟨hlt _, hsquare⟩
  · exact ⟨hbraces, hsquare⟩

theorem waiting_check (hstarted : s.isStarted = true) (hbraces : s.bracesLevel < 2 ^ 31)
    (hsquare : s.squareLevel < 2 ^ 31) (h : s.check = .next s') : Waiting s' := by
  obtain ⟨rfl, hbraces', hsquare', hopen⟩ := check_eq_next h
  exact .inr ⟨hstarted, ⟨hbraces', hsquare', hbraces, hsquare⟩, hopen hstarted⟩

theorem step_initial (before : Bytes) (ch : UInt8) :
    Scan.step {} before ch = if isgraph ch then Scan.step { isStarted := true } before ch else .next {} := by
  cases hgraph : isgraph ch with
  | true =>
    rw [Scan.step, hgraph]
    rfl
  | false =>
    have hall : ([34, 91, 93, 123, 125] : Bytes).all isgraph = true := by decide
    have hgraphic := all_eq_true.mp hall
    have hplain : ∀ other ∈ ([34, 91, 93, 123, 125] : Bytes), ch ≠ other := by
      rintro other hother rfl
      rw [hgraphic ch hother] at hgraph
      exact Bool.noConfusion hgraph
    simp only [forall_mem_cons] at hplain
    obtain ⟨hquote, h91, h93, h123, h125, -⟩ := hplain
    rw [Scan.step, hgraph]
    simp only [Bool.not_false, Bool.and_false, Bool.false_eq_true, if_false, Scan.bracket, quote, if_neg hquote,
      if_neg h91, if_neg h93, if_neg h123, if_neg h125]
    decide

theorem waiting_step_started (hstarted : s.isStarted = true) (hcounted : Counted s)
    (hstep : s.step before ch = .next s') : Waiting s' := by
  have hbraces := hcounted.bracesLt
  have hsquare := hcounted.squareLt
  rw [step_of_started hstarted] at hstep
  split at hstep
  · split at hstep
    · exact waiting_check (s := { s with inString := flipped false before }) hstarted hbraces hsquare hstep
    · exact waiting_check (s := s.quoted) hstarted hbraces hsquare hstep
  split at hstep
  · rename_i hin
    obtain rfl := Step.next.inj hstep
    exact .inr ⟨hstarted, hcounted, .inl hin⟩
  · obtain ⟨hbraces', hsquare'⟩ := bracket_lt hbraces hsquare ch
    exact waiting_check ((isStarted_bracket s ch).trans hstarted) hbraces' hsquare' hstep

theorem counted_initial (isStarted : Bool) : Counted { isStarted := isStarted } :=
  have hzero : (0 : Int) < 2 ^ 31 := by decide
  ⟨Int.le_refl 0, Int.le_refl 0, hzero, hzero⟩

/-- A scan that goes on is one that waits, its levels in order. -/
theorem Waiting.step (h : Waiting s) (hstep : s.step before ch = .next s') : Waiting s' := by
  rcases h with rfl | ⟨hstarted, hcounted, -⟩
  · rw [step_initial] at hstep
    split at hstep
    · exact waiting_step_started rfl (counted_initial true) hstep
    · exact .inl (Step.next.inj hstep).symm
  · exact waiting_step_started hstarted hcounted hstep

theorem Waiting.counted (h : Waiting s) : Counted s := by
  rcases h with rfl | ⟨-, hcounted, -⟩
  · exact counted_initial false
  · exact hcounted

theorem Counted.inside (h : Counted s) (hstarted : s.isStarted = true) (hin : s.inString = false)
    (hlevel : 0 < s.bracesLevel + s.squareLevel) : Inside 0 s :=
  ⟨hstarted, h.braces, h.square, (Int.add_zero _).trans_lt h.bracesLt, (Int.add_zero _).trans_lt h.squareLt, hlevel, hin⟩

theorem Waiting.passes (h : Waiting s) (hpasses : Passes s before text s') : Waiting s' := by
  induction hpasses with
  | nil => exact h
  | cons hstep _ ih => exact ih (h.step hstep)

theorem Ends.cons {before text : Bytes} (hstep : s.step before ch = .next s') (h : Ends s' (ch :: before) text) :
    Ends s before (ch :: text) :=
  show Ends s before ([ch] ++ text) from Ends.after h (.single hstep)

theorem Inside.exists_ends_of_bracket (h : Inside 0 s) (ch : UInt8) (inner : Scan) (hquote : ch ≠ quote)
    (hbracket : s.bracket ch = inner) (hstarted : inner.isStarted = true) (hin : inner.inString = false)
    (hcounted : Counted inner)
    (ih : Inside 0 inner → ∃ more, ∀ before, Ends inner before more) : ∃ more, ∀ before, Ends s before more := by
  have hbraces := hcounted.braces
  have hsquare := hcounted.square
  by_cases hlevel : 0 < inner.bracesLevel + inner.squareLevel
  · have hinside : Inside 0 inner := hcounted.inside hstarted hin hlevel
    obtain ⟨more, hmore⟩ := ih hinside
    have hstep : ∀ before, s.step before ch = .next inner := by
      intro before
      rw [h.step_bracket hquote, hbracket, hinside.check]
    exact ⟨ch :: more, fun before => Ends.cons (hstep before) (hmore _)⟩
  · refine ⟨[ch], fun before => ⟨[], ch, s, rfl, .nil, ?_⟩⟩
    rw [reverse_nil, nil_append, h.step_bracket hquote, hbracket, Scan.check,
      if_pos ⟨by omega, by omega, hin, hstarted⟩]

theorem Inside.exists_ends (h : Inside 0 s) : ∃ more, ∀ before, Ends s before more := by
  obtain ⟨levels, hlevels⟩ : ∃ levels : Nat, s.bracesLevel + s.squareLevel = levels :=
    ⟨(s.bracesLevel + s.squareLevel).toNat, (Int.toNat_of_nonneg h.level.le).symm⟩
  induction levels generalizing s with
  | zero =>
    have hlevel := h.level
    omega
  | succ levels ih =>
    have ⟨hstarted, hbraces, hsquare, hbracesLt, hsquareLt, hlevel, houtside⟩ := h
    rw [Int.natCast_zero, Int.add_zero] at hbracesLt hsquareLt
    by_cases hopen : 0 < s.bracesLevel
    · have hclose : s.bracket 125 = { s with bracesLevel := s.bracesLevel - 1 } := by
        change { s with bracesLevel := (s.bracesLevel - 1).bmod (2 ^ 32) } = _
        rw [bmod_level (by omega) (by omega)]
      refine h.exists_ends_of_bracket 125 _ (by decide) hclose hstarted houtside
        ⟨?_, hsquare, ?_, hsquareLt⟩ fun hinside => ih hinside ?_ <;> dsimp only <;> omega
    · have hclose : s.bracket 93 = { s with squareLevel := s.squareLevel - 1 } := by
        change { s with squareLevel := (s.squareLevel - 1).bmod (2 ^ 32) } = _
        rw [bmod_level (by omega) (by omega)]
      refine h.exists_ends_of_bracket 93 _ (by decide) hclose hstarted houtside
        ⟨hbraces, ?_, hbracesLt, ?_⟩ fun hinside => ih hinside ?_ <;> dsimp only <;> omega

theorem exists_ends_inString (hstarted : s.isStarted = true) (hcounted : Counted s) (hin : s.inString = true) :
    ∃ more, ∀ before, Ends s before more := by
  have hbraces := hcounted.braces
  have hsquare := hcounted.square
  have hspace : ∀ before, s.step before 32 = .next s := by
    intro before
    rw [step_of_started hstarted, if_neg (by decide), if_pos hin]
  have hquote : ∀ before, s.step (32 :: before) quote = Scan.check { s with inString := false } := by
    intro before
    rw [step_of_started hstarted, if_pos rfl, if_pos hin, flipped_of_ne _ (by decide)]
  by_cases hlevel : 0 < s.bracesLevel + s.squareLevel
  · have hinside : Inside 0 { s with inString := false } :=
      Counted.inside { hcounted with } hstarted rfl hlevel
    obtain ⟨more, hmore⟩ := hinside.exists_ends
    refine ⟨32 :: quote :: more, fun before => Ends.cons (hspace before) (Ends.cons ?_ (hmore _))⟩
    exact (hquote before).trans hinside.check
  · refine ⟨[32, quote], fun before => Ends.cons (hspace before) ⟨[], quote, s, rfl, .nil, ?_⟩⟩
    rw [reverse_nil, nil_append, hquote, Scan.check, if_pos ⟨by dsimp only; omega, by dsimp only; omega,
      rfl, hstarted⟩]

theorem ends_nothing (before : Bytes) : Ends {} before [123, 125] :=
  show Ends {} before (123 :: ([] ++ [125])) from ends_braces .nil

theorem Waiting.exists_ends (h : Waiting s) : ∃ more, ∀ before, Ends s before more := by
  rcases h with rfl | ⟨hstarted, hcounted, hopen⟩
  · exact ⟨[123, 125], ends_nothing⟩
  · by_cases hin : s.inString = true
    · exact exists_ends_inString hstarted hcounted hin
    · exact (hcounted.inside hstarted (Bool.eq_false_of_not_eq_true hin) (hopen.resolve_left hin)).exists_ends

theorem Waiting.step_space (h : Waiting s) (before : Bytes) : s.step before 32 = .next s := by
  rcases h with rfl | ⟨hstarted, hcounted, hopen⟩
  · rw [step_initial]
    rfl
  by_cases hin : s.inString = true
  · rw [step_of_started hstarted, if_neg (by decide), if_pos hin]
  · exact (hcounted.inside hstarted (Bool.eq_false_of_not_eq_true hin) (hopen.resolve_left hin)).step_plain (by decide)

theorem Waiting.passes_spaces (h : Waiting s) (count : Nat) : Passes s before (List.replicate count 32) s := by
  induction count generalizing before with
  | zero => exact .nil
  | succ count ih => exact .cons (h.step_space before) ih

/-- A buffer in which nothing has been found can go on so that the end is found, at a place that fits an `int`. -/
theorem exists_findEndPos (hno : loop {} [] data = .no) :
    ∃ more, 2 ≤ (data ++ more).length ∧ findEndPos (data ++ more) = 1 := by
  obtain ⟨s, hdata⟩ := passes_of_loop hno
  have hwaiting : Waiting s := Waiting.passes (.inl rfl) hdata
  obtain ⟨more, hmore⟩ := hwaiting.exists_ends
  have hsize : ∃ count, data.length + count + more.length = 2 ^ 32 * (data.length + more.length + 1) + 1 :=
    ⟨2 ^ 32 * (data.length + more.length + 1) + 1 - (data.length + more.length), by omega⟩
  obtain ⟨count, hcount⟩ := hsize
  have hends : Ends {} [] (data ++ (List.replicate count 32 ++ more)) :=
    Ends.after (Ends.after (hmore _) (hwaiting.passes_spaces count)) hdata
  have hlength : (data ++ (List.replicate count 32 ++ more)).length =
      2 ^ 32 * (data.length + more.length + 1) + 1 := by
    rw [length_append, length_append, length_replicate]
    omega
  refine ⟨List.replicate count 32 ++ more, by omega, ?_⟩
  have hloop := hends.loop_append []
  rw [append_nil, length_nil, Nat.zero_add, hlength] at hloop
  rw [findEndPos, hloop]
  dsimp only
  rw [Int.bmod_def]
  omega

/-- A bracket that closes has one to close. -/
def Scan.Closes (s : Scan) (ch : UInt8) : Prop := (ch = 93 → s.squareLevel ≠ 0) ∧ (ch = 125 → s.bracesLevel ≠ 0)

/-- A bracket that opens is not one too many for an `int`. -/
def Scan.Counts (s : Scan) (ch : UInt8) : Prop :=
  (ch = 91 → s.squareLevel + 1 < 2 ^ 31) ∧ (ch = 123 → s.bracesLevel + 1 < 2 ^ 31)

theorem check_eq_mismatch_iff : s.check = .mismatch ↔ s.bracesLevel < 0 ∨ s.squareLevel < 0 := by
  rw [Scan.check]
  split_ifs with hends hlevels
  · exact iff_of_false not_false (by omega)
  · exact iff_of_true rfl hlevels
  · exact iff_of_false not_false hlevels

theorem Counted.bracket_neg_iff (h : Counted s) (ch : UInt8) :
    (s.bracket ch).bracesLevel < 0 ∨ (s.bracket ch).squareLevel < 0 ↔ ¬(s.Closes ch ∧ s.Counts ch) := by
  obtain ⟨hbraces, hsquare, hbracesLt, hsquareLt⟩ := h
  have hup : ∀ level : Int, 0 ≤ level → level < 2 ^ 31 → ((level + 1).bmod (2 ^ 32) < 0 ↔ ¬level + 1 < 2 ^ 31) := by
    intro level
    rw [Int.bmod_def]
    omega
  have hdown : ∀ level : Int, 0 ≤ level → level < 2 ^ 31 → ((level - 1).bmod (2 ^ 32) < 0 ↔ level = 0) := by
    intro level
    rw [Int.bmod_def]
    omega
  have hnot := not_lt.mpr hbraces
  have hnot' := not_lt.mpr hsquare
  rw [Scan.bracket, Scan.Closes, Scan.Counts]
  split_ifs with h91 h93 h123 h125
  · subst h91
    refine (or_iff_right hnot).trans ((hup _ hsquare hsquareLt).trans (not_congr ?_))
    simp
  · subst h93
    refine (or_iff_right hnot).trans ((hdown _ hsquare hsquareLt).trans ?_)
    simp
  · subst h123
    refine (or_iff_left hnot').trans ((hup _ hbraces hbracesLt).trans (not_congr ?_))
    simp
  · subst h125
    refine (or_iff_left hnot').trans ((hdown _ hbraces hbracesLt).trans ?_)
    simp
  · simp [hnot, hnot', h91, h93, h123, h125]

theorem Counted.step_eq_mismatch_iff (h : Counted s) (before : Bytes) (ch : UInt8) :
    s.step before ch = .mismatch ↔ s.inString = false ∧ ¬(s.Closes ch ∧ s.Counts ch) := by
  have hnot := not_or.mpr ⟨not_lt.mpr h.braces, not_lt.mpr h.square⟩
  have hstarted : ∀ started, Counted { s with isStarted := started } := fun started => { h with }
  have hgoal : ∀ started, (if ch = quote then if s.inString
        then Scan.check { s with isStarted := started, inString := flipped false before }
        else Scan.check { s with isStarted := started, inString := true }
      else if s.inString then .next { s with isStarted := started }
      else (Scan.bracket { s with isStarted := started } ch).check) = .mismatch ↔
        s.inString = false ∧ ¬(s.Closes ch ∧ s.Counts ch) := by
    intro started
    split_ifs with hquote hin hin
    · exact iff_of_false (mt check_eq_mismatch_iff.mp hnot) (by simp [hin])
    · subst hquote
      refine iff_of_false (mt check_eq_mismatch_iff.mp hnot) fun hspoils => hspoils.2 ?_
      exact ⟨⟨fun heq => absurd heq (by decide), fun heq => absurd heq (by decide)⟩,
        fun heq => absurd heq (by decide), fun heq => absurd heq (by decide)⟩
    · exact iff_of_false not_false (by simp [hin])
    · rw [check_eq_mismatch_iff, (hstarted started).bracket_neg_iff]
      exact (and_iff_right (Bool.eq_false_of_not_eq_true hin)).symm
  rw [Scan.step]
  by_cases hstarts : (!s.isStarted && isgraph ch) = true
  · rw [if_pos hstarts]
    exact hgoal true
  · rw [if_neg hstarts]
    exact hgoal s.isStarted

theorem loop_eq_mismatch_iff : loop s before data = .mismatch ↔ ∃ front ch after s', data = front ++ ch :: after ∧
    Passes s before front s' ∧ s'.step (front.reverse ++ before) ch = .mismatch := by
  constructor
  · intro h
    induction data generalizing s before with
    | nil => cases h
    | cons ch data ih =>
      rw [loop] at h
      cases hstep : s.step before ch with
      | next s' =>
        rw [hstep] at h
        obtain ⟨front, other, after, s'', rfl, hpasses, hother⟩ := ih h
        refine ⟨ch :: front, other, after, s'', rfl, .cons hstep hpasses, ?_⟩
        rwa [reverse_cons, append_assoc]
      | ends =>
        rw [hstep] at h
        cases h
      | mismatch => exact ⟨[], ch, data, s, rfl, .nil, hstep⟩
  · rintro ⟨front, ch, after, s', rfl, hpasses, hstep⟩
    rw [hpasses.loop_append, loop, hstep]

end Tbox.Util.FindEndPos

namespace Tbox.Jsonrpc

open Lib (Bytes Fault)

variable {J : Type}

/-- Where the decoder waits, some continuation of the buffer lets it go on. -/
def NeverWedges (onRecvData : Bytes → Except Fault (Received J)) (data : Bytes) : Prop :=
  ∀ js, onRecvData data = .ok { ret := 0, js := js } →
    ∃ more received, onRecvData (data ++ more) = .ok received ∧ received.ret ≠ 0

namespace HeaderStreamProto

variable {headerCode : UInt16} {library : JsonText J} {magic size : Nat} {data text : Bytes}

theorem onRecvData_whole (headerCode : UInt16) (library : JsonText J) (hmagic : magic < 2 ^ 16)
    (hsize : size < 2 ^ 32 - 6) (htext : text.length = size) :
    ∃ received, onRecvData headerCode library (append 2 magic ++ append 4 size ++ text) = .ok received ∧
      received.ret ≠ 0 := by
  by_cases heq : magic = headerCode.toNat
  · rw [heq, onRecvData_head (by omega), if_neg (by omega), if_pos (by omega)]
    cases library.parse (text.take size) with
    | none => exact ⟨_, rfl, show (-1 : Int) ≠ 0 by decide⟩
    | some js => exact ⟨_, rfl, by dsimp only; omega⟩
  · exact ⟨_, onRecvData_mismatch hmagic heq text, show (-2 : Int) ≠ 0 by decide⟩

theorem exists_of_short (hshort : data.length < 6) :
    ∃ more received, onRecvData headerCode library (data ++ more) = .ok received ∧ received.ret ≠ 0 := by
  obtain ⟨size, hsize, hthree⟩ := exists_append_of_length
    ((data ++ List.replicate (5 - data.length) 0).drop 2) 3
      (by rw [length_drop, List.length_append, length_replicate]; omega)
  obtain ⟨magic, hmagic, htwo⟩ := exists_append_of_length
    ((data ++ List.replicate (5 - data.length) 0).take 2) 2
      (by rw [length_take, List.length_append, length_replicate]; omega)
  have hfour : append 4 (size * 256) = append 3 size ++ [0] := by
    have hlow : (size * 256).toUInt8 = 0 := by
      apply UInt8.toNat_inj.mp
      rw [UInt8.toNat_ofNat']
      exact Nat.mul_mod_left size 256
    rw [append, Nat.mul_div_cancel size (by decide), hlow]
  have hhead : data ++ List.replicate (5 - data.length) 0 ++ [0] = append 2 magic ++ append 4 (size * 256) := by
    rw [hfour, ← append_assoc, ← htwo, ← hthree, take_append_drop]
  obtain ⟨received, hreceived, hne⟩ := onRecvData_whole headerCode library hmagic
    (show size * 256 < 2 ^ 32 - 6 by omega) (show (List.replicate (size * 256) 0).length = _ from length_replicate)
  refine ⟨List.replicate (5 - data.length) 0 ++ [0] ++ List.replicate (size * 256) 0, received, ?_, hne⟩
  rw [← append_assoc, ← append_assoc, hhead]
  exact hreceived

/-- **With a head no buffer is waited on in vain.** -/
theorem neverWedges (headerCode : UInt16) (library : JsonText J) (data : Bytes) :
    NeverWedges (onRecvData headerCode library) data := by
  intro js hwaits
  by_cases hshort : data.length < 6
  · exact exists_of_short hshort
  obtain ⟨magic, size, text, hmagic, hsize, rfl⟩ := exists_head (Nat.le_of_not_lt hshort)
  have hmatch : magic = headerCode.toNat := by
    by_contra hne
    rw [onRecvData_mismatch hmagic hne, Except.ok.injEq, Received.mk.injEq] at hwaits
    exact absurd hwaits.1 (by decide)
  have hincomplete : text.length + 6 < (size + 6) % 2 ^ 32 := by
    by_contra hcomplete
    rw [hmatch, onRecvData_head hsize, if_neg hcomplete] at hwaits
    split at hwaits
    · split at hwaits <;> rw [Except.ok.injEq, Received.mk.injEq] at hwaits
      · exact absurd hwaits.1 (by decide)
      · omega
    · cases hwaits
  obtain ⟨received, hreceived, hne⟩ := onRecvData_whole headerCode library hmagic
    (show size < 2 ^ 32 - 6 by omega) (show (text ++ List.replicate (size - text.length) 0).length = size by
      rw [List.length_append, length_replicate]; omega)
  refine ⟨List.replicate (size - text.length) 0, received, ?_, hne⟩
  rw [append_assoc (append 2 magic ++ append 4 size)]
  exact hreceived

end HeaderStreamProto

namespace RawStreamProto

open Util (findEndPos)
open Util.FindEndPos (Found Passes Waiting loop loop_append_of_ne loop_eq_mismatch_iff exists_findEndPos)

variable {library : JsonText J} {data : Bytes}

/-- Every bracket outside the strings closes one, every level fits an `int`, and so does the end of the text. -/
structure Unspoilt (data : Bytes) : Prop where
  closes : ∀ front ch after s, data = front ++ ch :: after → Passes {} [] front s → s.inString = false → s.Closes ch
  counts : ∀ front ch after s, data = front ++ ch :: after → Passes {} [] front s → s.inString = false → s.Counts ch
  fits : ∀ size, loop {} [] data = .at size → 0 < Int.bmod size (2 ^ 32)

theorem unspoilt_iff : Unspoilt data ↔
    loop {} [] data ≠ .mismatch ∧ ∀ size, loop {} [] data = .at size → 0 < Int.bmod size (2 ^ 32) := by
  constructor
  · intro h
    refine ⟨fun hmismatch => ?_, h.fits⟩
    obtain ⟨front, ch, after, s, hdata, hpasses, hstep⟩ := loop_eq_mismatch_iff.mp hmismatch
    obtain ⟨hin, hspoils⟩ := ((Waiting.passes (.inl rfl) hpasses).counted.step_eq_mismatch_iff _ ch).mp hstep
    exact hspoils ⟨h.closes front ch after s hdata hpasses hin, h.counts front ch after s hdata hpasses hin⟩
  · rintro ⟨hmatch, hfits⟩
    have hboth : ∀ front ch after s, data = front ++ ch :: after → Passes {} [] front s → s.inString = false →
        s.Closes ch ∧ s.Counts ch := by
      intro front ch after s hdata hpasses hin
      by_contra hspoils
      apply hmatch
      refine loop_eq_mismatch_iff.mpr ⟨front, ch, after, s, hdata, hpasses, ?_⟩
      exact ((Waiting.passes (.inl rfl) hpasses).counted.step_eq_mismatch_iff _ ch).mpr ⟨hin, hspoils⟩
    exact ⟨fun front ch after s hdata hpasses hin => (hboth front ch after s hdata hpasses hin).1,
      fun front ch after s hdata hpasses hin => (hboth front ch after s hdata hpasses hin).2, hfits⟩

theorem onRecvData_of_nonpos (library : JsonText J) (h : findEndPos data ≤ 0) :
    onRecvData library data = .ok { ret := 0 } := by
  rw [onRecvData]
  split
  · rfl
  · dsimp only
    rw [if_neg (not_lt.mpr h)]

theorem onRecvData_of_pos (library : JsonText J) (hlength : 2 ≤ data.length) (h : 0 < findEndPos data) :
    ∃ received, onRecvData library data = .ok received ∧ received.ret ≠ 0 := by
  rw [onRecvData, if_neg (not_lt.mpr hlength)]
  rw [if_pos h]
  cases library.parse (data.take (findEndPos data).toNat) with
  | none => exact ⟨_, rfl, show (-1 : Int) ≠ 0 by decide⟩
  | some js => exact ⟨_, rfl, ne_of_gt h⟩

theorem findEndPos_append_of_spoilt (h : ¬Unspoilt data) (more : Bytes) : findEndPos (data ++ more) ≤ 0 := by
  have hfound : loop {} [] data = .mismatch ∨ ∃ size, loop {} [] data = .at size ∧ Int.bmod size (2 ^ 32) ≤ 0 := by
    by_contra hnone
    obtain ⟨hmatch, hends⟩ := not_or.mp hnone
    exact h (unspoilt_iff.mpr ⟨hmatch, fun size hsize => not_le.mp fun hle => hends ⟨size, hsize, hle⟩⟩)
  rw [findEndPos]
  rcases hfound with hmismatch | ⟨size, hsize, hle⟩
  · rw [loop_append_of_ne (by rw [hmismatch]; exact Found.noConfusion), hmismatch]
    decide
  · rw [loop_append_of_ne (by rw [hsize]; exact Found.noConfusion), hsize]
    exact hle

theorem exists_of_unspoilt (h : Unspoilt data) :
    ∃ more received, onRecvData library (data ++ more) = .ok received ∧ received.ret ≠ 0 := by
  cases hfound : loop {} [] data with
  | no =>
    obtain ⟨more, hlength, hends⟩ := exists_findEndPos hfound
    obtain ⟨received, hreceived⟩ := onRecvData_of_pos library hlength (by rw [hends]; decide)
    exact ⟨more, received, hreceived⟩
  | mismatch => exact absurd hfound (unspoilt_iff.mp h).1
  | «at» size =>
    have hpos : 0 < findEndPos (data ++ [32, 32]) := by
      rw [findEndPos, loop_append_of_ne (by rw [hfound]; exact Found.noConfusion), hfound]
      exact h.fits size hfound
    obtain ⟨received, hreceived⟩ := onRecvData_of_pos library
      (show 2 ≤ (data ++ [32, 32]).length by rw [length_append]; exact Nat.le_add_left _ _) hpos
    exact ⟨[32, 32], received, hreceived⟩

/-- **Without a head a buffer is waited on in vain when it is spoilt, and only then.** -/
theorem neverWedges_iff_unspoilt (library : JsonText J) (data : Bytes) :
    NeverWedges (onRecvData library) data ↔ Unspoilt data := by
  constructor
  · intro hgoesOn
    by_contra hspoilt
    have hwaits := fun more => onRecvData_of_nonpos library (findEndPos_append_of_spoilt hspoilt more)
    have hnow := hwaits []
    rw [append_nil] at hnow
    obtain ⟨more, received, hreceived, hne⟩ := hgoesOn none hnow
    rw [hwaits more, Except.ok.injEq] at hreceived
    rw [← hreceived] at hne
    exact hne rfl
  · exact fun h js _ => exists_of_unspoilt h

end RawStreamProto

/-- **Which buffers the two decoders do not wait on in vain.** -/
theorem neverWedges_iff (headerCode : UInt16) (library : JsonText J) (data : Bytes) :
    (NeverWedges (HeaderStreamProto.onRecvData headerCode library) data ∧
      NeverWedges (RawStreamProto.onRecvData library) data) ↔ RawStreamProto.Unspoilt data :=
  ⟨fun h => (RawStreamProto.neverWedges_iff_unspoilt library data).mp h.2,
    fun h => ⟨HeaderStreamProto.neverWedges headerCode library data,
      (RawStreamProto.neverWedges_iff_unspoilt library data).mpr h⟩⟩

/-- A bracket that closes nothing keeps the decoder waiting for ever. -/
theorem wedges_closing : ¬∀ data, NeverWedges (RawStreamProto.onRecvData HeaderStreamProto.booleans) data := by
  intro hgoesOn
  have hunspoilt := (RawStreamProto.neverWedges_iff_unspoilt _ _).mp (hgoesOn [93, 125])
  exact (hunspoilt.closes [] 93 [125] {} rfl .nil rfl).1 rfl rfl

end Tbox.Jsonrpc
