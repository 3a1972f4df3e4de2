import Tbox.Http.Common
import Tbox.Util.StringOps

/-!
# The request target

`UrlDecode` and `StringToUrlPath`, `UrlEncode` and `UrlPathToString`. The conversion from a string catches what its
parts throw, so it always returns.
-/

namespace Tbox.Http

open Tbox.Lib Tbox.Lib.StdString
open Tbox.Util (split split_ok)

structure UrlPath where
  path : Bytes := []
  params : StringMap := .empty
  query : StringMap := .empty
  frag : Bytes := []
  deriving DecidableEq

def hexCharToValue (hexChar : UInt8) : Except Fault UInt8 :=
  if 48 ≤ hexChar ∧ hexChar ≤ 57 then .ok (hexChar - 48)
  else if 65 ≤ hexChar ∧ hexChar ≤ 70 then .ok (hexChar - 65 + 10)
  else if 97 ≤ hexChar ∧ hexChar ≤ 102 then .ok (hexChar - 97 + 10)
  else .error .outOfRange

inductive DecodeState
  | kNone
  | kStart
  | kHalfHex
  deriving DecidableEq

/-- The local variables of `UrlDecode`. -/
structure Decoding where
  state : DecodeState := .kNone
  tmp : UInt8 := 0
  localStr : Bytes := []

def Decoding.next (d : Decoding) (c : UInt8) : Except Fault Decoding :=
  match d.state with
  | .kNone =>
    if c = 37 then .ok { d with state := .kStart, tmp := 0 }
    else .ok { d with localStr := d.localStr ++ [c] }
  | .kStart => do
      let value ← hexCharToValue c
      return { d with tmp := value <<< 4, state := .kHalfHex }
  | .kHalfHex => do
      let value ← hexCharToValue c
      let tmp := d.tmp ||| value
      return { state := .kNone, tmp, localStr := d.localStr ++ [tmp] }

def urlDecode (urlStr : Bytes) : Except Fault Bytes := do
  let d ← urlStr.foldlM Decoding.next {}
  return d.localStr

/-- The loop over the `key=value` parts of the parameters or the query. -/
def readPairs : List Bytes → StringMap → Except Fault (Option StringMap)
  | [], map => .ok (some map)
  | pairStr :: rest, map => do
      match ← split pairStr (bytes "=") with
      | [key, value] =>
        if key = [] then return none
        else
          let key ← urlDecode key
          let value ← urlDecode value
          readPairs rest (map.set key value)
      | _ => return none

/-- One of the two lists of pairs: it begins after `startPos`, if there is one, and ends at
`endPos`. -/
def readPairList (str sep : Bytes) (startPos endPos : Option Nat) (map : StringMap) :
    Except Fault (Option StringMap) :=
  match startPos with
  | none => .ok (some map)
  | some startPos => do
      let pairsStr ← substr str (startPos + 1) (sizeSub endPos (startPos + 1))
      let pairs ← split pairsStr sep
      readPairs pairs map

def readFrag (str : Bytes) (poundPos : Option Nat) (frag : Bytes) : Except Fault Bytes :=
  match poundPos with
  | none => .ok frag
  | some poundPos => do urlDecode (← substr str (poundPos + 1) none)

/-- `StringToUrlPath(str, path)`; `none` is `false`. -/
def stringToUrlPath (str : Bytes) (path : UrlPath) : Except Fault (Option UrlPath) :=
  if str.head? ≠ some 47 then .ok none
  else
    let semiPos := findFirstOf str 59 0
    let queryPos := findFirstOf str 63 0
    let poundPos := findFirstOf str 35 0
    caught do
      let pathText ← urlDecode (← substr str 0 (semiPos <|> queryPos <|> poundPos))
      match ← readPairList str (bytes ";") semiPos (queryPos <|> poundPos) path.params with
      | none => return none
      | some params =>
        match ← readPairList str (bytes "&") queryPos poundPos path.query with
        | none => return none
        | some query =>
          let frag ← readFrag str poundPos path.frag
          return some { path := pathText, params, query, frag }

theorem hexCharToValue_onlyStd (hexChar : UInt8) : OnlyStd (hexCharToValue hexChar) := by
  intro e he
  rw [hexCharToValue] at he
  split_ifs at he
  cases he
  rfl

theorem Decoding.next_onlyStd (d : Decoding) (c : UInt8) : OnlyStd (d.next c) := by
  rw [Decoding.next]
  split
  · split
    · exact onlyStd_ok _
    · exact onlyStd_ok _
  · exact (hexCharToValue_onlyStd c).bind fun _ _ => onlyStd_ok _
  · exact (hexCharToValue_onlyStd c).bind fun _ _ => onlyStd_ok _

theorem foldlM_next_onlyStd (urlStr : Bytes) (d : Decoding) : OnlyStd (urlStr.foldlM Decoding.next d) := by
  induction urlStr generalizing d with
  | nil => exact onlyStd_ok d
  | cons c rest ih =>
    rw [List.foldlM_cons]
    exact (d.next_onlyStd c).bind fun d' _ => ih d'

theorem urlDecode_onlyStd (urlStr : Bytes) : OnlyStd (urlDecode urlStr) :=
  (foldlM_next_onlyStd urlStr {}).bind fun _ _ => onlyStd_ok _

theorem split_onlyStd {str sep : Bytes} (hsep : sep ≠ []) : OnlyStd (split str sep) := by
  obtain ⟨parts, hparts⟩ := split_ok str hsep
  rw [hparts]
  exact onlyStd_ok parts

theorem readPairs_onlyStd (pairs : List Bytes) (map : StringMap) : OnlyStd (readPairs pairs map) := by
  induction pairs generalizing map with
  | nil => exact onlyStd_ok _
  | cons pairStr rest ih =>
    refine (split_onlyStd (by decide)).bind fun kv _ => ?_
    split
    · split
      · exact onlyStd_ok _
      · exact (urlDecode_onlyStd _).bind fun _ _ => (urlDecode_onlyStd _).bind fun _ _ => ih _
    · exact onlyStd_ok _

theorem readPairList_onlyStd {str sep : Bytes} (hsep : sep ≠ []) (startPos endPos : Option Nat)
    (map : StringMap) : OnlyStd (readPairList str sep startPos endPos map) := by
  cases startPos with
  | none => exact onlyStd_ok _
  | some startPos =>
    exact (substr_onlyStd _ _ _).bind fun _ _ => (split_onlyStd hsep).bind fun _ _ => readPairs_onlyStd _ _

theorem readFrag_onlyStd (str : Bytes) (poundPos : Option Nat) (frag : Bytes) :
    OnlyStd (readFrag str poundPos frag) := by
  cases poundPos with
  | none => exact onlyStd_ok _
  | some poundPos => exact (substr_onlyStd _ _ _).bind fun _ _ => urlDecode_onlyStd _

theorem stringToUrlPath_ok (str : Bytes) (path : UrlPath) : ∃ result, stringToUrlPath str path = .ok result := by
  rw [stringToUrlPath]
  split
  · exact ⟨none, rfl⟩
  refine caught_ok ?_
  refine (substr_onlyStd _ _ _).bind fun _ _ => (urlDecode_onlyStd _).bind fun _ _ => ?_
  refine (readPairList_onlyStd (by decide) _ _ _).bind fun params _ => ?_
  cases params with
  | none => exact onlyStd_ok _
  | some params =>
    refine (readPairList_onlyStd (by decide) _ _ _).bind fun query _ => ?_
    cases query with
    | none => exact onlyStd_ok _
    | some query =>
      exact (readFrag_onlyStd _ _ _).bind fun _ _ => onlyStd_ok _

def fullSpecialChars : Bytes := bytes " +&=<>\"#,%\x7b\x7d|\\^[]`;?:@$/."

def pathSpecialChars : Bytes := bytes " +&=<>\"#,%\x7b\x7d|\\^[]`;?:@$"

def charToHex : Bytes := bytes "0123456789ABCDEF"

/-- `char_to_hex[i]` -/
def hexDigit (i : UInt8) : UInt8 := charToHex.getD i.toNat 0

/-- `std::isprint` of the "C" locale. -/
def isPrint (c : UInt8) : Bool := 32 ≤ c && c ≤ 126

def isEscaped (pathMode : Bool) (c : UInt8) : Bool :=
  (if pathMode then pathSpecialChars else fullSpecialChars).contains c || !isPrint c

def encodeChar (pathMode : Bool) (c : UInt8) : Bytes :=
  if isEscaped pathMode c then
    [37, hexDigit (c >>> 4), hexDigit (c &&& 0xF)]
  else [c]

def urlEncode (localStr : Bytes) (pathMode : Bool) : Bytes := localStr.flatMap (encodeChar pathMode)

/-- `key=value`, both encoded. -/
def pairText (item : Bytes × Bytes) : Bytes := urlEncode item.1 false ++ 61 :: urlEncode item.2 false

/-- The loop over the query; `notFirst` is its flag. -/
def queryText : Bool → List (Bytes × Bytes) → Bytes
  | _, [] => []
  | notFirst, item :: rest => (if notFirst then [38] else []) ++ pairText item ++ queryText true rest

def urlPathToString (path : UrlPath) : Bytes :=
  urlEncode path.path true ++
    path.params.entries.flatMap (fun item => 59 :: pairText item) ++
      (if path.query.entries = [] then [] else 63 :: queryText false path.query.entries) ++
        (if path.frag = [] then [] else 35 :: path.frag)

/-! ### The authority of a url

`UrlHostToString` and `StringToUrlHost`. Where the host begins is kept in an `int`. -/

section UrlHost

open Tbox.Lib Tbox.Lib.StdString

structure UrlHost where
  user : Bytes := []
  password : Bytes := []
  host : Bytes := []
  port : UInt16 := 0
  deriving DecidableEq

namespace UrlHost

def userInfo (host : UrlHost) : Bytes :=
  host.user ++ (if host.password = [] then [] else 58 :: host.password)

def portText (port : UInt16) : Bytes := if port = 0 then [] else 58 :: decimalText port.toNat

end UrlHost

def urlHostToString (host : UrlHost) : Bytes :=
  (if host.user = [] then [] else host.userInfo ++ [64]) ++ (host.host ++ UrlHost.portText host.port)

/-- A `size_t` assigned to an `int`. -/
def asInt (value : Nat) : Int := (value + 2 ^ 31) % 2 ^ 32 - 2 ^ 31

/-- An `int` where a position is wanted. -/
def asPos (value : Int) : Nat := (value % 2 ^ 64).toNat

/-- The user and the password before the `@`. -/
def readUserInfo (str : Bytes) (atPos : Nat) (host : UrlHost) : Except Fault UrlHost :=
  match (findFirstOf str 58 0).filter fun colonPos => colonPos ≤ atPos with
  | none => do
      let user ← urlDecode (← substr str 0 (some atPos))
      return { host with user, password := [] }
  | some colonPos => do
      let user ← urlDecode (← substr str 0 (some colonPos))
      let password ← urlDecode (← substr str (colonPos + 1) (some (atPos - colonPos - 1)))
      return { host with user, password }

/-- The host and the port from `start` on. -/
def readHostPort (str : Bytes) (start : Nat) (host : UrlHost) : Except Fault UrlHost :=
  match findFirstOf str 58 start with
  | none => do
      let name ← urlDecode (← substr str start none)
      return { host with host := name, port := 0 }
  | some colonPos => do
      let name ← urlDecode (← substr str start (some (colonPos - start)))
      let port ← stoi (← substr str (colonPos + 1) none)
      return { host with host := name, port := UInt16.ofInt port }

def hostStart (str : Bytes) : Nat :=
  match findFirstOf str 64 0 with
  | none => 0
  | some atPos => asPos (asInt (atPos + 1))

/-- `StringToUrlHost(str, host)`; `none` is `false`. -/
def stringToUrlHost (str : Bytes) (host : UrlHost) : Except Fault (Option UrlHost) :=
  caught do
    let host ← match findFirstOf str 64 0 with
      | none => .ok host
      | some atPos => readUserInfo str atPos host
    let host ← readHostPort str (hostStart str) host
    return some host

end UrlHost

end Tbox.Http
