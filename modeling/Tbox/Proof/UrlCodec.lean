import Tbox.Http.Url

/-!
# Encoding and decoding

`UrlDecode` undoes `UrlEncode` in both modes, and a text that it leaves as it is has no `%`.
-/

open List Option

namespace Tbox.Http

open Tbox.Lib

variable {pathMode : Bool} {c d : UInt8} {str text text' str' : Bytes} {st st' : Decoding}

theorem not_mem_urlEncode (hescaped : isEscaped pathMode d = true) (hpercent : d ≠ 37)
    (hhex : d ∉ charToHex) (hzero : d ≠ 0) : d ∉ urlEncode str pathMode := by
  have hdigit : ∀ i : UInt8, d ≠ hexDigit i := by
    intro i heq
    rw [hexDigit, getD_eq_getElem?_getD] at heq
    cases hn : charToHex[i.toNat]? with
    | none => exact hzero (by simpa [hn] using heq)
    | some a =>
      rw [hn, getD_some] at heq
      exact hhex (heq ▸ mem_of_getElem? hn)
  intro hmem
  obtain ⟨c, -, hc⟩ := mem_flatMap.mp hmem
  rw [encodeChar] at hc
  split at hc
  · simp [hpercent, hdigit] at hc
  · next hplain =>
    rw [mem_singleton] at hc
    exact hplain (hc ▸ hescaped)

theorem urlEncode_ne_nil (h : str ≠ []) : urlEncode str pathMode ≠ [] := by
  obtain ⟨c, rest, rfl⟩ := exists_cons_of_ne_nil h
  rw [urlEncode, flatMap_cons, encodeChar]
  split <;> simp

def Decodes (text str : Bytes) : Prop :=
  ∀ st : Decoding, st.state = .kNone →
    ∃ tmp, text.foldlM Decoding.next st = .ok { state := .kNone, tmp, localStr := st.localStr ++ str }

theorem Decodes.nil : Decodes [] [] := by
  intro st hst
  refine ⟨st.tmp, ?_⟩
  rw [append_nil, ← hst]
  rfl

theorem Decodes.append (h : Decodes text str) (h' : Decodes text' str') : Decodes (text ++ text') (str ++ str') := by
  intro st hst
  obtain ⟨tmp, hfirst⟩ := h st hst
  obtain ⟨tmp', hsecond⟩ := h' { state := .kNone, tmp, localStr := st.localStr ++ str } rfl
  refine ⟨tmp', ?_⟩
  rw [foldlM_append, hfirst]
  simpa [bind, Except.bind] using hsecond

theorem Decodes.plain (hc : c ≠ 37) : Decodes [c] [c] := by
  intro st hst
  refine ⟨st.tmp, ?_⟩
  simp [Decoding.next, hst, hc, bind, Except.bind, pure, Except.pure]

theorem Decodes.of_plain (h : 37 ∉ str) : Decodes str str := by
  induction str with
  | nil => exact .nil
  | cons c rest ih =>
    rw [mem_cons, not_or] at h
    exact (Decodes.plain (Ne.symm h.1)).append (ih h.2)

theorem hexCharToValue_hex {i : UInt8} (h : i.toNat < 16) : hexCharToValue (hexDigit i) = .ok i := by
  have hdigits : ∀ n : Fin 16, hexCharToValue (charToHex.getD n 0) = .ok (UInt8.ofNat n) := by
    decide
  have hi := hdigits ⟨i.toNat, h⟩
  rwa [UInt8.ofNat_toNat, ← hexDigit] at hi

theorem Decodes.escape (c : UInt8) : Decodes [37, hexDigit (c >>> 4), hexDigit (c &&& 0xF)] [c] := by
  intro st hst
  refine ⟨c, ?_⟩
  simp [Decoding.next, hst, hexCharToValue_hex (high_lt c), hexCharToValue_hex (low_lt c), nibbles,
    bind, Except.bind, pure, Except.pure]

theorem escaped_percent (pathMode : Bool) : isEscaped pathMode 37 = true := by
  cases pathMode <;> decide

theorem decodes_encodeChar (pathMode : Bool) (c : UInt8) : Decodes (encodeChar pathMode c) [c] := by
  rw [encodeChar]
  split
  · exact .escape c
  next hplain =>
  apply Decodes.plain
  rintro rfl
  exact hplain (escaped_percent pathMode)

/-- What is encoded decodes to what it was. -/
theorem decodes_urlEncode (str : Bytes) (pathMode : Bool) : Decodes (urlEncode str pathMode) str := by
  induction str with
  | nil => exact .nil
  | cons c rest ih => exact (decodes_encodeChar pathMode c).append ih

theorem Decodes.urlDecode (h : Decodes text str) : urlDecode text = .ok str := by
  obtain ⟨tmp, hfold⟩ := h {} rfl
  rw [Http.urlDecode, hfold]
  rfl

theorem urlDecode_urlEncode (str : Bytes) (pathMode : Bool) : urlDecode (urlEncode str pathMode) = .ok str :=
  (decodes_urlEncode str pathMode).urlDecode

theorem length_next (h : st.next c = .ok st') : st'.localStr.length ≤ st.localStr.length + 1 := by
  rw [Decoding.next] at h
  split at h
  · split at h <;> cases h <;> simp
  · obtain ⟨value, -, h⟩ := bind_eq_ok.mp h
    cases h
    simp
  · obtain ⟨value, -, h⟩ := bind_eq_ok.mp h
    cases h
    simp

theorem length_foldlM_next (h : text.foldlM Decoding.next st = .ok st') :
    st'.localStr.length ≤ st.localStr.length + text.length := by
  apply foldlM_inv (fun rest mid => mid.localStr.length + rest.length ≤ st.localStr.length + text.length) _ le_rfl h
  intro c rest mid mid' hle hnext
  have hstep := length_next hnext
  rw [length_cons] at hle
  omega

def Decoding.weight (st : Decoding) : Nat :=
  3 * st.localStr.length + match st.state with
    | .kNone => 0
    | .kStart => 1
    | .kHalfHex => 2

theorem weight_next (h : st.next c = .ok st') : st.weight + 1 ≤ st'.weight := by
  obtain ⟨state, tmp, localStr⟩ := st
  cases state with
  | kNone =>
    simp only [Decoding.next] at h
    split at h <;> cases h
    · simp [Decoding.weight]
    · simp only [Decoding.weight, length_append, length_singleton]
      omega
  | kStart =>
    obtain ⟨value, -, h⟩ := bind_eq_ok.mp h
    cases h
    simp [Decoding.weight]
  | kHalfHex =>
    obtain ⟨value, -, h⟩ := bind_eq_ok.mp h
    cases h
    simp only [Decoding.weight, length_append, length_singleton]
    omega

theorem weight_foldlM_next (h : text.foldlM Decoding.next st = .ok st') : st.weight + text.length ≤ st'.weight := by
  apply foldlM_inv (fun rest mid => st.weight + text.length ≤ mid.weight + rest.length) _ le_rfl h
  intro c rest mid mid' hle hnext
  have hstep := weight_next hnext
  rw [length_cons] at hle
  omega

theorem length_le_of_urlDecode (h : urlDecode text = .ok str) : text.length ≤ 3 * str.length + 2 := by
  rw [urlDecode] at h
  obtain ⟨st, hfold, h⟩ := bind_eq_ok.mp h
  cases h
  have hweight := weight_foldlM_next hfold
  have hstart : Decoding.weight {} = 0 := rfl
  have hend : st.weight ≤ 3 * st.localStr.length + 2 := by
    rw [Decoding.weight]
    split <;> omega
  omega

structure Decoding.Behind (front : Bytes) (st st' : Decoding) : Prop where
  state : st'.state = st.state
  tmp : st.state = .kHalfHex → st'.tmp = st.tmp
  localStr : st'.localStr = front ++ st.localStr

theorem Decoding.Behind.next {front : Bytes} {mid' : Decoding} (h : st.Behind front st')
    (hnext : st'.next c = .ok mid') : ∃ mid, st.next c = .ok mid ∧ mid.Behind front mid' := by
  obtain ⟨hstate, htmp, hlocal⟩ := h
  cases hst : st.state with
  | kNone =>
    simp only [Decoding.next, hstate, hst] at hnext ⊢
    split at hnext <;> cases hnext
    · next hc =>
      exact ⟨_, if_pos hc, rfl, (by simp), hlocal⟩
    · next hc =>
      refine ⟨_, if_neg hc, rfl, fun hhalf => ?_, by simp [hlocal]⟩
      simp_all
  | kStart =>
    simp only [Decoding.next, hstate, hst] at hnext ⊢
    obtain ⟨value, hvalue, hnext⟩ := bind_eq_ok.mp hnext
    cases hnext
    exact ⟨_, bind_eq_ok.mpr ⟨value, hvalue, rfl⟩, rfl, fun _ => rfl, hlocal⟩
  | kHalfHex =>
    simp only [Decoding.next, hstate, hst] at hnext ⊢
    obtain ⟨value, hvalue, hnext⟩ := bind_eq_ok.mp hnext
    cases hnext
    exact ⟨_, bind_eq_ok.mpr ⟨value, hvalue, rfl⟩, rfl, (by simp), by simp [hlocal, htmp hst]⟩

theorem Decoding.Behind.foldlM {front : Bytes} {last' : Decoding} (h : st.Behind front st')
    (hfold : text.foldlM Decoding.next st' = .ok last') :
    ∃ last, text.foldlM Decoding.next st = .ok last ∧ last.Behind front last' := by
  induction text generalizing st st' with
  | nil =>
    cases hfold
    exact ⟨st, rfl, h⟩
  | cons c rest ih =>
    rw [foldlM_cons] at hfold
    obtain ⟨mid', hnext', hfold⟩ := bind_eq_ok.mp hfold
    obtain ⟨mid, hnext, hmid⟩ := h.next hnext'
    obtain ⟨last, hrest, hlast⟩ := ih hmid hfold
    refine ⟨last, ?_, hlast⟩
    rw [foldlM_cons]
    exact bind_eq_ok.mpr ⟨mid, hnext, hrest⟩

theorem urlDecode_append {front : Bytes} (hfront : 37 ∉ front)
    (h : urlDecode (front ++ text) = .ok str) : ∃ rest, urlDecode text = .ok rest ∧ str = front ++ rest := by
  rw [urlDecode] at h
  obtain ⟨last', hfold, h⟩ := bind_eq_ok.mp h
  cases h
  obtain ⟨tmp, hfirst⟩ := Decodes.of_plain hfront {} rfl
  rw [foldlM_append] at hfold
  obtain ⟨mid, hmid, hfold⟩ := bind_eq_ok.mp hfold
  cases hfirst.symm.trans hmid
  have hbehind : Decoding.Behind front {} { state := .kNone, tmp, localStr := [] ++ front } := ⟨rfl, nofun, by simp⟩
  obtain ⟨last, hrest, hlast⟩ := hbehind.foldlM hfold
  refine ⟨last.localStr, ?_, hlast.localStr⟩
  rw [urlDecode, hrest]
  rfl

theorem not_mem_of_urlDecode (h : urlDecode text = .ok text) : 37 ∉ text := by
  intro hmem
  obtain ⟨left, right, rfl, hleft⟩ := eq_append_cons_of_mem hmem
  obtain ⟨tmp, hfold⟩ := Decodes.of_plain hleft {} rfl
  rw [urlDecode, foldlM_append, hfold] at h
  simp only [bind, Except.bind, foldlM_cons, Decoding.next, if_true] at h
  split at h
  · cases h
  next final hfinal =>
  have hlength := length_foldlM_next hfinal
  have heq := congrArg List.length (Except.ok.inj h)
  simp at hlength heq
  omega

theorem urlDecode_eq_self : urlDecode text = .ok text ↔ 37 ∉ text :=
  ⟨not_mem_of_urlDecode, fun h => (Decodes.of_plain h).urlDecode⟩

end Tbox.Http
