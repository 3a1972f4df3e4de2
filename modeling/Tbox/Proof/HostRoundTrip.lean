import Tbox.Lib.Delimited
import Tbox.Proof.UrlCodec

/-!
# An authority there and back

`UrlHostToString` writes the fields as they are, and `StringToUrlHost` decodes them and takes the first `@` and `:`
for separators. The port goes through `std::stoi`, and is cut to 16 bits.
-/

open List Option

namespace Tbox.Http

open Tbox.Lib Tbox.Lib.StdString

variable {c : UInt8} {str name left right text : Bytes} {port : UInt16} {host old result : UrlHost}

theorem eq_of_first {rest rest' : Bytes} (hleft : c ∉ left)
    (h : left ++ c :: rest = right ++ c :: rest') (hlength : right.length ≤ left.length) :
    left = right ∧ rest = rest' := by
  rcases append_eq_append_iff.mp h with ⟨mid, hright, hrest⟩ | ⟨mid, hmid, hrest⟩
  · obtain rfl : mid = [] := by
      rw [← length_eq_zero_iff]
      have := congrArg List.length hright
      rw [length_append] at this
      omega
    simp_all
  · cases mid with
    | nil => simp_all
    | cons d mid =>
      rw [cons_append, List.cons.injEq] at hrest
      subst hmid
      exact absurd (hrest.1 ▸ mem_append_right right mem_cons_self) hleft

variable {start : Nat}

theorem findFirstOf_drop : findFirstOf str c start =
    (findFirstOf (str.drop start) c 0).map (start + ·) := findFrom_drop start 0

theorem length_urlDecode (h : urlDecode text = .ok str) : str.length ≤ text.length := by
  obtain ⟨st, hfold, h⟩ := bind_eq_ok.mp h
  cases h
  simpa using length_foldlM_next hfold

theorem stoi_port (port : UInt16) : stoi (decimalText port.toNat) = .ok port.toNat := by
  apply stoi_decimalText
  have := port.toNat_lt
  omega

theorem toNat_ofInt (value : Nat) : (UInt16.ofInt value).toNat = value % 2 ^ 16 := by
  have hmod : ((value : Int) % 2 ^ 16).toNat = value % 2 ^ 16 := by omega
  rw [UInt16.ofInt, hmod, UInt16.toNat_ofNat']
  exact Nat.mod_mod value (2 ^ 16)

theorem ofInt_toNat (port : UInt16) : UInt16.ofInt port.toNat = port := by
  apply UInt16.toNat_inj.mp
  rw [toNat_ofInt, Nat.mod_eq_of_lt port.toNat_lt]

theorem readHostPort_drop (hstart : start ≤ str.length) :
    readHostPort str start host = readHostPort (str.drop start) 0 host := by
  have hsubstr : ∀ offset count, substr str (start + offset) count =
      substr (str.drop start) offset count := fun offset count => substr_drop offset count hstart
  rw [readHostPort, readHostPort, findFirstOf_drop]
  cases findFirstOf (str.drop start) 58 0 with
  | none =>
    have h := hsubstr 0 none
    rw [Nat.add_zero] at h
    simp only [map_none, h]
  | some colonPos =>
    have h := hsubstr 0 (some colonPos)
    have hport := hsubstr (colonPos + 1) none
    rw [Nat.add_zero] at h
    simp only [map_some, Nat.add_sub_cancel_left, Nat.add_assoc, h, hport, Nat.sub_zero]

theorem readHostPort_colon (hleft : 58 ∉ left) : readHostPort (left ++ 58 :: right) 0 host = .ok result ↔
      ∃ name value, urlDecode left = .ok name ∧ stoi right = .ok value ∧
        result = { host with host := name, port := UInt16.ofInt value } := by
  have hname : substr (left ++ 58 :: right) 0 (some (left.length - 0)) = .ok left := by
    simp [substr]
  have hport : substr (left ++ 58 :: right) (left.length + 1) none = .ok right := by
    simp [substr, ← drop_drop]
  rw [readHostPort, findFirstOf_append_cons hleft]
  simp only [hname, hport]
  constructor
  · intro h
    obtain ⟨_, hleftEq, h⟩ := bind_eq_ok.mp h
    cases hleftEq
    obtain ⟨name, hdecode, h⟩ := bind_eq_ok.mp h
    obtain ⟨_, hrightEq, h⟩ := bind_eq_ok.mp h
    cases hrightEq
    obtain ⟨value, hvalue, h⟩ := bind_eq_ok.mp h
    cases h
    exact ⟨name, value, hdecode, hvalue, rfl⟩
  · rintro ⟨name, value, hdecode, hvalue, rfl⟩
    simp [hdecode, hvalue, bind, Except.bind, pure, Except.pure]

theorem urlDecode_of_colon (hleft : 58 ∉ left) (h : readHostPort (left ++ 58 :: right) 0 host = .ok result) :
    urlDecode left = .ok result.host := by
  obtain ⟨name, value, hdecode, -, rfl⟩ := (readHostPort_colon hleft).mp h
  exact hdecode

theorem readHostPort_name (hname : 58 ∉ name) (hplain : 37 ∉ name) :
    readHostPort (name ++ UrlHost.portText port) 0 host = .ok { host with host := name, port } := by
  by_cases hport : port = 0
  · have hsubstr : substr name 0 none = .ok name := by simp [substr]
    rw [UrlHost.portText, if_pos hport, append_nil, readHostPort, findFirstOf_eq_none_iff.mpr hname, hport]
    simp only [hsubstr, bind, Except.bind, urlDecode_eq_self.mpr hplain]
    rfl
  · rw [UrlHost.portText, if_neg hport]
    apply (readHostPort_colon hname).mpr
    refine ⟨name, port.toNat, urlDecode_eq_self.mpr hplain, stoi_port port, ?_⟩
    rw [ofInt_toNat]

theorem urlDecode_of_name (hname : 58 ∉ name) (h : readHostPort (name ++ UrlHost.portText port) 0 host = .ok result) :
    urlDecode name = .ok result.host := by
  by_cases hport : port = 0
  · have hsubstr : substr name 0 none = .ok name := by simp [substr]
    rw [UrlHost.portText, if_pos hport, append_nil, readHostPort, findFirstOf_eq_none_iff.mpr hname] at h
    simp only [hsubstr] at h
    obtain ⟨_, hnameEq, h⟩ := bind_eq_ok.mp h
    cases hnameEq
    obtain ⟨decoded, hdecode, h⟩ := bind_eq_ok.mp h
    cases h
    exact hdecode
  · rw [UrlHost.portText, if_neg hport] at h
    exact urlDecode_of_colon hname h

theorem readHostPort_keeps (h : readHostPort str start host = .ok result) :
    result.user = host.user ∧ result.password = host.password := by
  rw [readHostPort] at h
  split at h
  · obtain ⟨_, -, h⟩ := bind_eq_ok.mp h
    obtain ⟨_, -, h⟩ := bind_eq_ok.mp h
    cases h
    exact ⟨rfl, rfl⟩
  · obtain ⟨_, -, h⟩ := bind_eq_ok.mp h
    obtain ⟨_, -, h⟩ := bind_eq_ok.mp h
    obtain ⟨_, -, h⟩ := bind_eq_ok.mp h
    obtain ⟨_, -, h⟩ := bind_eq_ok.mp h
    cases h
    exact ⟨rfl, rfl⟩

theorem length_host (h : readHostPort (name ++ UrlHost.portText port) 0 host = .ok result) :
    result.host.length ≤ name.length ∧ (result.host.length = name.length → 58 ∉ name) := by
  by_cases hcolon : 58 ∈ name
  · obtain ⟨left, right, rfl, hleft⟩ := eq_append_cons_of_mem hcolon
    rw [append_assoc, cons_append] at h
    have hlength := length_urlDecode (urlDecode_of_colon hleft h)
    rw [length_append, length_cons]
    constructor <;> omega
  · exact ⟨length_urlDecode (urlDecode_of_name hcolon h), fun _ => hcolon⟩

theorem readHostPort_eq (h : readHostPort (name ++ UrlHost.portText port) 0 host = .ok result)
    (hhost : result.host = name) : 58 ∉ name ∧ 37 ∉ name := by
  have hcolon := (length_host h).2 (congrArg _ hhost)
  have hdecode := urlDecode_of_name hcolon h
  rw [hhost] at hdecode
  exact ⟨hcolon, not_mem_of_urlDecode hdecode⟩

variable {rest : Bytes}

theorem readUserInfo_user (huser : 58 ∉ text) : readUserInfo (text ++ 64 :: rest) text.length host =
      (urlDecode text).map fun user => { host with user, password := [] } := by
  have hfirst : (findFirstOf (text ++ 64 :: rest) 58 0).filter (fun i => i ≤ text.length) = none := by
    apply filter_eq_none_iff.mpr
    intro i hi
    have hnone : findFirstOf (text ++ [64]) 58 0 = none := findFirstOf_eq_none_iff.mpr (by simpa using huser)
    rw [append_cons] at hi
    have hle := le_of_findFrom_append (Nat.zero_le _) hnone hi
    rw [length_append, length_singleton] at hle
    simp only [decide_eq_true_eq]
    omega
  have hsubstr : substr (text ++ 64 :: rest) 0 (some text.length) = .ok text := by simp [substr]
  rw [readUserInfo, hfirst]
  simp only [hsubstr, bind, Except.bind]
  cases urlDecode text <;> rfl

theorem readUserInfo_both (hleft : 58 ∉ left) :
    readUserInfo (left ++ 58 :: right ++ 64 :: rest) (left ++ 58 :: right).length host =
      (urlDecode left).bind fun user => (urlDecode right).map fun password =>
        { host with user, password } := by
  have hfirst : (findFirstOf (left ++ 58 :: right ++ 64 :: rest) 58 0).filter
      (fun i => i ≤ (left ++ 58 :: right).length) = some left.length := by
    rw [append_assoc, cons_append, findFirstOf_append_cons hleft]
    simp
  have huser : substr (left ++ 58 :: right ++ 64 :: rest) 0 (some left.length) = .ok left := by
    simp [substr]
  have hpassword : substr (left ++ 58 :: right ++ 64 :: rest) (left.length + 1)
      (some ((left ++ 58 :: right).length - left.length - 1)) = .ok right := by
    simp [substr, ← drop_drop]
  rw [readUserInfo, hfirst]
  simp only [huser, hpassword, bind, Except.bind]
  cases urlDecode left with
  | error e => rfl
  | ok user => cases urlDecode right <;> rfl

theorem readUserInfo_cases (h : readUserInfo (text ++ 64 :: rest) text.length host = .ok result) :
    (58 ∉ text ∧ urlDecode text = .ok result.user ∧ result.password = []) ∨
      ∃ left right, text = left ++ 58 :: right ∧ 58 ∉ left ∧
        urlDecode left = .ok result.user ∧ urlDecode right = .ok result.password := by
  by_cases hcolon : 58 ∈ text
  · obtain ⟨left, right, rfl, hleft⟩ := eq_append_cons_of_mem hcolon
    rw [readUserInfo_both hleft] at h
    obtain ⟨user, huser, h⟩ := bind_eq_ok.mp h
    obtain ⟨password, hpassword, rfl⟩ := map_eq_ok.mp h
    exact .inr ⟨left, right, rfl, hleft, huser, hpassword⟩
  · rw [readUserInfo_user hcolon] at h
    obtain ⟨user, huser, rfl⟩ := map_eq_ok.mp h
    exact .inl ⟨hcolon, huser, rfl⟩

theorem asPos_asInt {n : Nat} (h : n < 2 ^ 31) : asPos (asInt n) = n := by
  rw [asPos, asInt]
  omega

theorem asPos_asInt_wraps {n : Nat} (h : 2 ^ 31 ≤ n) : 2 ^ 63 ≤ asPos (asInt n) ∨ asPos (asInt n) < n := by
  rw [asPos, asInt]
  omega

theorem readHostPort_error (hstart : str.length < start) :
    readHostPort str start host = .error .outOfRange := by
  have hnone : findFirstOf str 58 start = none := by
    simp [findFirstOf, findFrom, drop_eq_nil_of_le (Nat.le_of_lt hstart)]
  have hsubstr : substr str start none = .error .outOfRange := if_pos hstart
  rw [readHostPort, hnone]
  simp only [hsubstr, bind, Except.bind]

theorem stringToUrlHost_plain (hstr : 64 ∉ str) : stringToUrlHost str old = .ok (some result) ↔
    readHostPort str 0 old = .ok result := by
  have hnone := findFirstOf_eq_none_iff.mpr hstr
  rw [stringToUrlHost, caught_eq_some, hostStart, hnone]
  simp [bind_eq_ok, pure, Except.pure]

theorem stringToUrlHost_at (htext : 64 ∉ text) :
    stringToUrlHost (text ++ 64 :: rest) old = .ok (some result) ↔
      ∃ host, readUserInfo (text ++ 64 :: rest) text.length old = .ok host ∧
        readHostPort (text ++ 64 :: rest) (asPos (asInt (text.length + 1))) host = .ok result := by
  have hfirst : findFirstOf (text ++ 64 :: rest) 64 0 = some text.length := findFirstOf_append_cons htext
  rw [stringToUrlHost, caught_eq_some, hostStart, hfirst]
  simp [bind_eq_ok, pure, Except.pure]

theorem readHostPort_at (hlength : text.length + 1 < 2 ^ 31) :
    readHostPort (text ++ 64 :: rest) (asPos (asInt (text.length + 1))) host = readHostPort rest 0 host := by
  rw [asPos_asInt hlength, readHostPort_drop (by simp)]
  simp [← drop_drop]

theorem readHostPort_cases
    (h : readHostPort (text ++ 64 :: rest) (asPos (asInt (text.length + 1))) host = .ok result)
    (hlength : (text ++ 64 :: rest).length < 2 ^ 63) :
    text.length + 1 < 2 ^ 31 ∧ readHostPort rest 0 host = .ok result ∨ 2 ^ 31 ≤ text.length + 1 ∧
        readHostPort (text.drop (asPos (asInt (text.length + 1))) ++ 64 :: rest) 0 host = .ok result := by
  by_cases hfits : text.length + 1 < 2 ^ 31
  · rw [readHostPort_at hfits] at h
    exact .inl ⟨hfits, h⟩
  have hlong := Nat.le_of_not_lt hfits
  refine .inr ⟨hlong, ?_⟩
  rcases asPos_asInt_wraps hlong with hbehind | hahead
  · rw [readHostPort_error (Nat.lt_of_lt_of_le hlength hbehind)] at h
    cases h
  · have hin : asPos (asInt (text.length + 1)) ≤ text.length := Nat.le_of_lt_succ hahead
    rwa [readHostPort_drop (by rw [length_append]; omega), drop_append_of_le_length hin] at h

theorem urlDecode_append_ne {front : Bytes} (hfront : 37 ∉ front) (hne : front ≠ []) :
    urlDecode (front ++ text) ≠ .ok text := by
  induction hlength : text.length using Nat.strong_induction_on generalizing text with
  | _ length ih =>
    intro h
    obtain ⟨rest, hrest, rfl⟩ := urlDecode_append hfront h
    have hpos := length_pos_iff.mpr hne
    rw [length_append] at hlength
    exact ih rest.length (by omega) rfl hrest

theorem urlDecode_append_ne_colon {front tail : Bytes} (hfront : 37 ∉ front) (hne : front ≠ [])
    (hcolon : 58 ∉ front) (htext : 58 ∉ text) : urlDecode (front ++ text) ≠ .ok (text ++ 58 :: tail) := by
  induction hlength : text.length using Nat.strong_induction_on generalizing text with
  | _ length ih =>
    intro h
    obtain ⟨rest, hrest, heq⟩ := urlDecode_append hfront h
    rcases append_eq_append_iff.mp heq with ⟨mid, hmid, htail⟩ | ⟨mid, rfl, rfl⟩
    · -- the first `:` would stand in the prefix
      cases mid with
      | nil =>
        rw [append_nil] at hmid
        subst hmid
        rw [urlDecode_eq_self.mpr hfront, Except.ok.injEq] at hrest
        rw [nil_append] at htail
        exact hcolon (hrest ▸ htail ▸ mem_cons_self)
      | cons c mid =>
        rw [cons_append, List.cons.injEq] at htail
        rw [hmid, ← htail.1] at hcolon
        exact hcolon (mem_append_right text mem_cons_self)
    · rw [mem_append, not_or] at htext
      have hpos := length_pos_iff.mpr hne
      rw [length_append] at hlength
      exact ih mid.length (by omega) htext.2 rfl hrest

namespace UrlHost

def RoundTrips (host old : UrlHost) : Prop :=
  stringToUrlHost (urlHostToString host) old = .ok (some host)

def Respelled (host : UrlHost) : Prop :=
  2 ^ 31 ≤ host.userInfo.length + 1 ∧ ∃ tail value,
    host.userInfo.drop (asPos (asInt (host.userInfo.length + 1))) = host.host ++ 58 :: tail ∧
      stoi (tail ++ 64 :: (host.host ++ portText host.port)) = .ok value ∧
        host.port = UInt16.ofInt value

/-- No field holds what the parser takes for a separator or an escape, the position of the host is
an `int`, and a target keeps no user. -/
structure Restorable (host old : UrlHost) : Prop where
  userPlain : 64 ∉ host.user ∧ 58 ∉ host.user ∧ 37 ∉ host.user
  passwordPlain : 64 ∉ host.password ∧ 37 ∉ host.password
  hostPlain : 58 ∉ host.host ∧ 37 ∉ host.host
  named : host.user ≠ [] → host.userInfo.length + 1 < 2 ^ 31 ∨ host.Respelled
  unnamed : host.user = [] → 64 ∉ host.host ∧ old.user = [] ∧ old.password = []

theorem at_not_mem_portText (port : UInt16) : 64 ∉ portText port := by
  rw [portText]
  split
  · simp
  intro hmem
  rcases mem_cons.mp hmem with h | h
  · cases h
  · have hdigit := isDigit_of_mem_decimalText h
    revert hdigit
    decide

theorem urlHostToString_plain (huser : host.user = []) : urlHostToString host = host.host ++ portText host.port := by
  rw [urlHostToString, if_pos huser, nil_append]

theorem urlHostToString_named (huser : host.user ≠ []) :
    urlHostToString host = host.userInfo ++ 64 :: (host.host ++ portText host.port) := by
  simp [urlHostToString, huser]

theorem userInfo_user (hpassword : host.password = []) : host.userInfo = host.user := by
  rw [userInfo, if_pos hpassword, append_nil]

theorem userInfo_both (hpassword : host.password ≠ []) : host.userInfo = host.user ++ 58 :: host.password := by
  rw [userInfo, if_neg hpassword]

theorem not_mem_userInfo (huser : c ∉ host.user) (hpassword : c ∉ host.password) (hc : c ≠ 58) :
    c ∉ host.userInfo := by
  by_cases hpw : host.password = []
  · rwa [userInfo_user hpw]
  · rw [userInfo_both hpw]
    simpa using ⟨huser, hc, hpassword⟩

theorem Restorable.at_not_mem (h : Restorable host old) : 64 ∉ host.userInfo :=
  not_mem_userInfo h.userPlain.1 h.passwordPlain.1 (by decide)

theorem Restorable.readUserInfo (h : Restorable host old) (tail : Bytes) :
    readUserInfo (host.userInfo ++ 64 :: tail) host.userInfo.length old =
      .ok { old with user := host.user, password := host.password } := by
  have huser : urlDecode host.user = .ok host.user := urlDecode_eq_self.mpr h.userPlain.2.2
  by_cases hpw : host.password = []
  · rw [userInfo_user hpw, readUserInfo_user h.userPlain.2.1, huser, hpw]
    rfl
  have hpassword : urlDecode host.password = .ok host.password := urlDecode_eq_self.mpr h.passwordPlain.2
  rw [userInfo_both hpw, readUserInfo_both h.userPlain.2.1, huser, hpassword]
  rfl

theorem Restorable.readHostPort (h : Restorable host old) (huser : host.user ≠ []) :
    readHostPort (host.userInfo ++ 64 :: (host.host ++ portText host.port))
      (asPos (asInt (host.userInfo.length + 1)))
        { old with user := host.user, password := host.password } = .ok host := by
  rcases h.named huser with hfits | ⟨-, tail, value, hdrop, hvalue, hport⟩
  · rw [readHostPort_at hfits, readHostPort_name h.hostPlain.1 h.hostPlain.2]
  have hin : asPos (asInt (host.userInfo.length + 1)) ≤ host.userInfo.length := by
    by_contra hbehind
    rw [drop_eq_nil_of_le (by omega)] at hdrop
    simp at hdrop
  rw [readHostPort_drop (by rw [length_append]; omega), drop_append_of_le_length hin,
    hdrop, append_assoc, cons_append]
  apply (readHostPort_colon h.hostPlain.1).mpr
  refine ⟨host.host, value, urlDecode_eq_self.mpr h.hostPlain.2, hvalue, ?_⟩
  rw [← hport]

theorem Restorable.roundTrips (h : Restorable host old)
    (hpassword : host.user = [] → host.password = []) : RoundTrips host old := by
  by_cases huser : host.user = []
  · obtain ⟨hat, holdUser, holdPassword⟩ := h.unnamed huser
    have htext : 64 ∉ host.host ++ portText host.port := by
      simpa using ⟨hat, at_not_mem_portText host.port⟩
    have hresult : { old with host := host.host, port := host.port } = host := by
      have hpw := hpassword huser
      clear h htext hat hpassword
      obtain ⟨user, password, name, port⟩ := host
      dsimp only at huser hpw
      rw [holdUser, holdPassword, huser, hpw]
    rw [RoundTrips, urlHostToString_plain huser, stringToUrlHost_plain htext,
      readHostPort_name h.hostPlain.1 h.hostPlain.2, hresult]
  · rw [RoundTrips, urlHostToString_named huser, stringToUrlHost_at h.at_not_mem]
    exact ⟨_, h.readUserInfo _, h.readHostPort huser⟩

theorem userInfo_eq {info rest tail : Bytes} {read : UrlHost} (hinfo : 64 ∉ info)
    (htext : host.userInfo ++ 64 :: tail = info ++ 64 :: rest)
    (hread : Http.readUserInfo (info ++ 64 :: rest) info.length old = .ok read)
    (huser : read.user = host.user) (hpassword : read.password = host.password) :
    info = host.userInfo ∧ rest = tail ∧ (64 ∉ host.user ∧ 58 ∉ host.user ∧ 37 ∉ host.user) ∧
      64 ∉ host.password ∧ 37 ∉ host.password := by
  rcases readUserInfo_cases hread with ⟨hcolon, hdecode, hnone⟩ | ⟨left, right, rfl, hleft, hparts⟩
  · have hpw : host.password = [] := hpassword.symm.trans hnone
    rw [huser] at hdecode
    rw [userInfo_user hpw] at htext ⊢
    obtain ⟨rfl, rfl⟩ := eq_of_first hinfo htext.symm (length_urlDecode hdecode)
    rw [hpw]
    exact ⟨rfl, rfl, ⟨hinfo, hcolon, not_mem_of_urlDecode hdecode⟩, by simp, by simp⟩
  · rw [huser, hpassword] at hparts
    have hlength := length_urlDecode hparts.1
    have hlength' := length_urlDecode hparts.2
    by_cases hpw : host.password = []
    · rw [userInfo_user hpw] at htext
      have hlong : host.user.length ≤ (left ++ 58 :: right).length := by
        rw [length_append]
        omega
      have heq := (eq_of_first hinfo htext.symm hlong).1
      rw [← heq, length_append, length_cons] at hlength
      omega
    · simp only [mem_append, mem_cons, not_or] at hinfo
      rw [userInfo_both hpw, append_assoc, append_assoc] at htext
      obtain ⟨rfl, htail⟩ := eq_of_first hleft htext.symm hlength
      obtain ⟨rfl, rfl⟩ := eq_of_first hinfo.2.2 htail hlength'
      rw [userInfo_both hpw]
      exact ⟨rfl, rfl, ⟨hinfo.1, hleft, not_mem_of_urlDecode hparts.1⟩, hinfo.2.2, not_mem_of_urlDecode hparts.2⟩

theorem length_of_unnamed {info rest : Bytes} {read : UrlHost}
    (hread : Http.readUserInfo (info ++ 64 :: rest) info.length old = .ok read)
    (huser : read.user = []) (hpassword : read.password = []) : info.length ≤ 5 := by
  rcases readUserInfo_cases hread with ⟨-, hdecode, -⟩ | ⟨left, right, rfl, -, hparts⟩
  · have hlength := length_le_of_urlDecode hdecode
    rw [huser, length_nil] at hlength
    omega
  have hlength := length_le_of_urlDecode hparts.1
  have hlength' := length_le_of_urlDecode hparts.2
  rw [huser, length_nil] at hlength
  rw [hpassword, length_nil] at hlength'
  rw [length_append, length_cons]
  omega

theorem RoundTrips.at_not_mem (h : RoundTrips host old) (huser : host.user = [])
    (hpassword : host.password = []) (hlength : (urlHostToString host).length < 2 ^ 63) : 64 ∉ host.host := by
  intro hat
  obtain ⟨left, right, hhost, hleft⟩ := eq_append_cons_of_mem hat
  have htext : urlHostToString host = left ++ 64 :: (right ++ portText host.port) := by
    rw [urlHostToString_plain huser, hhost]
    simp
  rw [RoundTrips, htext, stringToUrlHost_at hleft] at h
  obtain ⟨read, hread, hport⟩ := h
  obtain ⟨hreadUser, hreadPassword⟩ := readHostPort_keeps hport
  have hshort := length_of_unnamed hread (hreadUser ▸ huser) (hreadPassword ▸ hpassword)
  rcases readHostPort_cases hport (htext ▸ hlength) with ⟨-, hport⟩ | ⟨hlong, -⟩
  · have hname := (length_host hport).1
    rw [hhost, length_append, length_cons] at hname
    omega
  · omega

theorem respelled {read : UrlHost} (hinfo : 37 ∉ host.userInfo) (hlong : 2 ^ 31 ≤ host.userInfo.length + 1)
    (hport : Http.readHostPort (host.userInfo.drop (asPos (asInt (host.userInfo.length + 1))) ++
      64 :: (host.host ++ portText host.port)) 0 read = .ok host) :
    (58 ∉ host.host ∧ 37 ∉ host.host) ∧ host.Respelled := by
  generalize hdrop : host.userInfo.drop (asPos (asInt (host.userInfo.length + 1))) = front at hport
  have hfront : 37 ∉ front := fun hmem => hinfo (mem_of_mem_drop (hdrop ▸ hmem))
  by_cases hcolon : 58 ∈ front
  · obtain ⟨left, right, rfl, hleft⟩ := eq_append_cons_of_mem hcolon
    rw [append_assoc, cons_append] at hport
    obtain ⟨name, value, hdecode, hvalue, heq⟩ := (readHostPort_colon hleft).mp hport
    have hplain : 37 ∉ left := fun hmem => hfront (mem_append_left _ hmem)
    rw [urlDecode_eq_self.mpr hplain, Except.ok.injEq] at hdecode
    have hname : host.host = left := (congrArg UrlHost.host heq).trans hdecode.symm
    rw [hname]
    refine ⟨⟨hleft, hplain⟩, hlong, right, value, ?_, hvalue, congrArg UrlHost.port heq⟩
    rw [hdrop, hname]
  · exfalso
    have hplain : 37 ∉ front ++ [64] := by simpa using hfront
    have hne : front ++ [64] ≠ [] := by simp
    have hcolon' : 58 ∉ front ++ [64] := by simpa using hcolon
    by_cases hname : 58 ∈ host.host
    · obtain ⟨left, right, hhost, hleft⟩ := eq_append_cons_of_mem hname
      have htext : front ++ 64 :: (host.host ++ portText host.port) =
          (front ++ [64] ++ left) ++ 58 :: (right ++ portText host.port) := by
        simp [hhost]
      have hfirst : 58 ∉ front ++ [64] ++ left := by
        rw [mem_append, not_or]
        exact ⟨hcolon', hleft⟩
      rw [htext] at hport
      have hdecode := urlDecode_of_colon hfirst hport
      rw [hhost] at hdecode
      exact urlDecode_append_ne_colon hplain hne hcolon' hleft hdecode
    · have htext : front ++ 64 :: (host.host ++ portText host.port) =
          (front ++ [64] ++ host.host) ++ portText host.port := by
        simp
      have hfirst : 58 ∉ front ++ [64] ++ host.host := by
        rw [mem_append, not_or]
        exact ⟨hcolon', hname⟩
      rw [htext] at hport
      exact urlDecode_append_ne hplain hne (urlDecode_of_name hfirst hport)

theorem RoundTrips.restorable (h : RoundTrips host old) (hpassword : host.user = [] → host.password = [])
    (hlength : (urlHostToString host).length < 2 ^ 63) : Restorable host old := by
  by_cases huser : host.user = []
  · have hpw := hpassword huser
    have hat := h.at_not_mem huser hpw hlength
    have htext : 64 ∉ host.host ++ portText host.port := by
      simpa using ⟨hat, at_not_mem_portText host.port⟩
    rw [RoundTrips, urlHostToString_plain huser, stringToUrlHost_plain htext] at h
    obtain ⟨holdUser, holdPassword⟩ := readHostPort_keeps h
    refine ⟨by simp [huser], by simp [hpw], readHostPort_eq h rfl, fun hne => absurd huser hne, ?_⟩
    exact fun _ => ⟨hat, holdUser ▸ huser, holdPassword ▸ hpw⟩
  · rw [RoundTrips, urlHostToString_named huser] at h
    rw [urlHostToString_named huser] at hlength
    have hmem : 64 ∈ host.userInfo ++ 64 :: (host.host ++ portText host.port) := mem_append_right _ mem_cons_self
    obtain ⟨info, rest, htext, hinfo⟩ := eq_append_cons_of_mem hmem
    rw [htext, stringToUrlHost_at hinfo] at h
    obtain ⟨read, hread, hport⟩ := h
    obtain ⟨hreadUser, hreadPassword⟩ := readHostPort_keeps hport
    have hcases := readHostPort_cases hport (htext ▸ hlength)
    obtain ⟨rfl, rfl, huserPlain, hpasswordPlain⟩ := userInfo_eq hinfo htext hread hreadUser.symm hreadPassword.symm
    have hunnamed : host.user = [] → 64 ∉ host.host ∧ old.user = [] ∧ old.password = [] :=
      fun hnil => absurd hnil huser
    rcases hcases with ⟨hfits, hport⟩ | ⟨hlong, hport⟩
    · exact ⟨huserPlain, hpasswordPlain, readHostPort_eq hport rfl, fun _ => .inl hfits, hunnamed⟩
    have hplain : 37 ∉ host.userInfo := not_mem_userInfo huserPlain.2.2 hpasswordPlain.2 (by decide)
    obtain ⟨hhost, hrespelled⟩ := respelled hplain hlong hport
    exact ⟨huserPlain, hpasswordPlain, hhost, fun _ => .inr hrespelled, hunnamed⟩

end UrlHost

/-- What `std::stoi` is given. -/
def portPart (str : Bytes) : Option Bytes :=
  (findFirstOf str 58 (hostStart str)).map fun colonPos => str.drop (colonPos + 1)

/-- A decimal number not above 65535, and its value is the port. -/
def IsPort (part : Bytes) (port : UInt16) : Prop :=
  (part ≠ [] ∧ ∀ c ∈ part, isDigit c = true) ∧ decimal part ≤ 65535 ∧ port.toNat = decimal part

theorem readHostPort_of_accepted (h : stringToUrlHost str old = .ok (some result)) :
    ∃ host, readHostPort str (hostStart str) host = .ok result := by
  rw [stringToUrlHost, caught_eq_some] at h
  cases hat : findFirstOf str 64 0 with
  | none =>
    rw [hat] at h
    obtain ⟨host, -, h⟩ := bind_eq_ok.mp h
    obtain ⟨_, hread, h⟩ := bind_eq_ok.mp h
    cases h
    exact ⟨host, hread⟩
  | some atPos =>
    rw [hat] at h
    obtain ⟨host, -, h⟩ := bind_eq_ok.mp h
    obtain ⟨_, hread, h⟩ := bind_eq_ok.mp h
    cases h
    exact ⟨host, hread⟩

theorem stoi_of_accepted {part : Bytes} (h : stringToUrlHost str old = .ok (some result))
    (hpart : portPart str = some part) : ∃ value, stoi part = .ok value ∧ result.port = UInt16.ofInt value := by
  obtain ⟨colonPos, hcolon, rfl⟩ := map_eq_some_iff.mp hpart
  obtain ⟨host, hread⟩ := readHostPort_of_accepted h
  rw [readHostPort, hcolon] at hread
  obtain ⟨_, -, hread⟩ := bind_eq_ok.mp hread
  obtain ⟨_, -, hread⟩ := bind_eq_ok.mp hread
  obtain ⟨digits, hdigits, hread⟩ := bind_eq_ok.mp hread
  obtain ⟨value, hvalue, hread⟩ := bind_eq_ok.mp hread
  cases hread
  simp only [substr] at hdigits
  split at hdigits
  · cases hdigits
  · cases hdigits
    exact ⟨value, hvalue, rfl⟩

theorem isPort_iff {part : Bytes} (h : stringToUrlHost str old = .ok (some result))
    (hpart : portPart str = some part) : IsPort part result.port ↔
      (∀ c ∈ part, isDigit c = true) ∧ decimal part ≤ 65535 := by
  obtain ⟨value, hvalue, hport⟩ := stoi_of_accepted h hpart
  have hne : part ≠ [] := by
    rintro rfl
    revert hvalue
    simp [stoi, sign]
  constructor
  · rintro ⟨⟨-, hdigits⟩, hrange, -⟩
    exact ⟨hdigits, hrange⟩
  rintro ⟨hdigits, hrange⟩
  refine ⟨⟨hne, hdigits⟩, hrange, ?_⟩
  have hstoi : stoi ([] ++ part ++ []) =
      if 2 ^ 31 ≤ decimal part then .error .outOfRange else .ok (decimal part) := by
    apply stoi_decimal
    · simp
    · exact hne
    · exact hdigits
    · simp
  rw [nil_append, append_nil, if_neg (by omega), hvalue, Except.ok.injEq] at hstoi
  rw [hport, hstoi, toNat_ofInt]
  omega

/-- **Authority.** An authority comes back exactly when it is `Restorable`, and a port part that is accepted is a port
exactly when it is all digits and not above 65535. -/
theorem hostRoundTrip_iff (hpassword : host.user = [] → host.password = [])
    (hlength : (urlHostToString host).length < 2 ^ 63) :
    (host.RoundTrips old ↔ host.Restorable old) ∧ ∀ {str part : Bytes} {target result : UrlHost},
        stringToUrlHost str target = .ok (some result) → portPart str = some part →
          (IsPort part result.port ↔ (∀ c ∈ part, isDigit c = true) ∧ decimal part ≤ 65535) := by
  refine ⟨⟨fun hback => ?_, fun hplain => ?_⟩, fun h hpart => isPort_iff h hpart⟩
  · exact hback.restorable hpassword hlength
  · exact hplain.roundTrips hpassword

def namedHost : UrlHost where
  user := bytes "u"
  password := bytes "p:w"
  host := bytes "h@x"
  port := 8080

theorem namedHost_restored : namedHost.RoundTrips {} ∧ IsPort (bytes "8080") 8080 := by
  have hread : stringToUrlHost (bytes "h:8080") {} = .ok (some { host := bytes "h", port := 8080 }) := by
    decide
  have hpart : portPart (bytes "h:8080") = some (bytes "8080") := by decide
  have hiff : (namedHost.RoundTrips {} ↔ namedHost.Restorable {}) ∧ _ :=
    hostRoundTrip_iff (by decide) (by decide)
  refine ⟨hiff.1.mpr ?_, (hiff.2 hread hpart).mpr ⟨?_, by decide⟩⟩
  · exact ⟨by decide, by decide, by decide, fun _ => .inl (by decide), fun h => absurd h (by decide)⟩
  · exact List.all_eq_true.mp (by decide)

/-- A password with an `@` ends there, and a port of 70000 is accepted as 4464. -/
theorem password_and_port_not_restored :
    ¬UrlHost.RoundTrips { user := bytes "u", password := bytes "p@w", host := bytes "h" } {} ∧
    stringToUrlHost (bytes "h:70000") {} = .ok (some { host := bytes "h", port := 4464 }) ∧
    portPart (bytes "h:70000") = some (bytes "70000") ∧ ¬IsPort (bytes "70000") 4464 := by
  refine ⟨?_, by decide, by decide, ?_⟩
  · rw [UrlHost.RoundTrips]
    decide
  · rintro ⟨-, hrange, -⟩
    revert hrange
    decide

end Tbox.Http
