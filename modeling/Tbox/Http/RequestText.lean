import Tbox.Http.RequestParser
import Tbox.Http.StringMap

/-!
# Reading a request line by line

What the parser is for, without positions: a text is cut into lines, the request line, header lines up to the blank
one, and a body. A `Stage` is how far the bytes before the text have come.
-/

namespace Tbox.Http

open Tbox.Lib Tbox.Lib.StdString
open Tbox.Util (stripSpaces)

/-- `none` when no length has been given. -/
def lengthOf (contentLength : Nat) : Option Nat :=
  if contentLength = noLength then none else some contentLength

inductive Stage
  | start
  | heads (req : Request) (length : Option Nat)
  | body (req : Request) (length : Option Nat)

inductive Reading
  | waiting (stage : Stage) (rest : Bytes)
  | complete (req : Request) (length : Option Nat) (rest : Bytes)
  | malformed
  | threw (e : Fault)

def targetPath (target : Bytes) : Option UrlPath :=
  match stringToUrlPath target {} with
  | .ok path => path
  | .error _ => none

def readTarget (tail : Bytes) : Option (UrlPath × HttpVer) :=
  let urlText := tail.dropWhile (· == space)
  let version := stringToHttpVer ((urlText.dropWhile (· != space)).dropWhile (· == space))
  (targetPath (urlText.takeWhile (· != space))).bind fun url =>
    if version = .kUnset then none else some (url, version)

def methodText (text : Bytes) : Bytes := text.takeWhile (· != space)

def readStartLine (line : Bytes) : Option Request :=
  if stringToMethod (methodText line) = .kUnset then none
  else (readTarget (line.drop (methodText line).length)).map fun (url, httpVer) =>
    { method := stringToMethod (methodText line), url, httpVer }

def readHead (line : Bytes) : Option (Bytes × Bytes) :=
  match line.dropWhile (· != 58) with
  | [] => none
  | _ :: value =>
    if value.dropWhile (· == space) = [] then none
    else some (stripSpaces (line.takeWhile (· != 58)),
      stripSpaces (value.dropWhile (· == space)))

def Request.addHead (req : Request) (key value : Bytes) : Request :=
  { req with headers := req.headers.set key value }

def readLength (key value : Bytes) (length : Option Nat) : Except Fault (Option Nat) :=
  if key = contentLengthKey then (stoi value).map fun value => lengthOf (toSizeT value)
  else .ok length

def isBlank (c : UInt8) : Bool := c == 32 || c == 9

def readBody (req : Request) (length : Option Nat) (text : Bytes) : Reading :=
  match length with
  | none => .complete { req with body := text } none []
  | some n =>
    if n ≤ text.length then .complete { req with body := text.take n } (some n) (text.drop n)
    else .waiting (.body req (some n)) text

theorem length_lt_of_cut {text line rest : Bytes} (h : cut crlf text = some (line, rest)) :
    rest.length < text.length := by
  have hlength := congrArg List.length (cut_eq h)
  simp only [List.length_append, crlf, List.length_cons, List.length_nil] at hlength
  omega

def readHeads (req : Request) (length : Option Nat) (text : Bytes) : Reading :=
  match _hcut : cut crlf text with
  | none => .waiting (.heads req length) text
  | some (line, rest) =>
    if line = [] then readBody req length rest
    else
      match readHead line with
      | none => .malformed
      | some (key, value) =>
        match readLength key value length with
        | .error e => .threw e
        | .ok length => readHeads (req.addHead key value) length rest
termination_by text.length
decreasing_by exact length_lt_of_cut _hcut

def readStart (text : Bytes) : Reading :=
  if stringToMethod (methodText text) = .kUnset then .malformed
  else
    match cut crlf text with
    | none => .waiting .start text
    | some (line, rest) =>
      match readStartLine line with
      | none => .malformed
      | some req => readHeads req none rest

def Stage.read : Stage → Bytes → Reading
  | .start, text => readStart text
  | .heads req length, text => readHeads req length text
  | .body req length, text => readBody req length text

def httpVerToString (ver : HttpVer) : Bytes :=
  ((httpVerMap.find? fun item => item.1 = ver).map (·.2)).getD []

def methodToString (method : Method) : Bytes :=
  ((methodMap.find? fun item => item.1 = method).map (·.2)).getD []

def headText (head : Bytes × Bytes) : Bytes := head.1 ++ bytes ": " ++ head.2

def Request.toString (req : Request) : Bytes :=
  methodToString req.method ++ bytes " " ++ urlPathToString req.url ++ bytes " " ++
    httpVerToString req.httpVer ++ crlf ++
      req.headers.entries.flatMap (fun head => headText head ++ crlf) ++
        bytes "Content-Length: " ++ decimalText req.body.length ++ crlf ++ crlf ++ req.body

def Request.withLength (req : Request) : Request :=
  { req with headers := req.headers.set contentLengthKey (decimalText req.body.length) }

structure IsHeadWord (str : Bytes) : Prop where
  ne_nil : str ≠ []
  no_break : ¬crlf <:+: str
  no_lead : str.head? ≠ some space
  no_trail : str.getLast? ≠ some space

structure Request.Printable (req : Request) : Prop where
  method : req.method ≠ .kUnset
  httpVer : req.httpVer ≠ .kUnset
  path : req.url.path.head? = some 47
  params : [] ∉ req.url.params.keys
  query : [] ∉ req.url.query.keys
  frag : req.url.frag = []
  heads : ∀ head ∈ req.headers.entries, IsHeadWord head.1 ∧ 58 ∉ head.1 ∧ IsHeadWord head.2 ∧
    head.1 ≠ contentLengthKey
  body : req.body.length < 2 ^ 31

end Tbox.Http
