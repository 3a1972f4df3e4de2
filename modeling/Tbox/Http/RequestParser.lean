import Tbox.Http.Url

/-!
# The request parser

`RequestParser` reads a request line, header lines and a body. A call of `parse` runs the phases it can finish on its
bytes and returns how many it has consumed; every phase hands its position to the next one.
-/

namespace Tbox.Http

open Tbox.Lib Tbox.Lib.StdString
open Tbox.Util (strip)

structure Request where
  method : Method := .kUnset
  httpVer : HttpVer := .kUnset
  url : UrlPath := {}
  headers : StringMap := .empty
  body : Bytes := []
  deriving DecidableEq

inductive ParserState
  | kInit
  | kFinishedStartLine
  | kFinishedHeads
  | kFinishedAll
  | kFail
  deriving DecidableEq, Repr

/-- `request` is the object behind `sp_request_`, `none` the null pointer. -/
structure RequestParser where
  state : ParserState := .kInit
  request : Option Request := none
  contentLength : Nat := 0
  deriving DecidableEq

/-- `std::numeric_limits<size_t>::max()`, which says that there is no `Content-Length`. -/
def noLength : Nat := 2 ^ 64 - 1

/-- An `int` assigned to a `size_t`. -/
def toSizeT (value : Int) : Nat := (value % 2 ^ 64).toNat

def contentLengthKey : Bytes := bytes "Content-Length"

namespace RequestParser

def parseUrl (str : Bytes) (methodStrEnd : Option Nat) (endPos : Nat) (url : UrlPath) :
    Except Fault (Option (UrlPath × Option Nat)) :=
  match methodStrEnd.bind (findFirstNotOf str space) with
  | none => return none
  | some urlStrBegin =>
    if endPos ≤ urlStrBegin then return none
    else do
      let urlStrEnd := findFirstOf str space urlStrBegin
      let urlStr ← substr str urlStrBegin (sizeSub urlStrEnd urlStrBegin)
      match ← stringToUrlPath urlStr url with
      | none => return none
      | some url => return some (url, urlStrEnd)

def parseVersion (str : Bytes) (urlStrEnd : Option Nat) (endPos : Nat) :
    Except Fault (Option HttpVer) :=
  match urlStrEnd.bind (findFirstNotOf str space) with
  | none => return none
  | some verStrBegin =>
    if endPos ≤ verStrBegin then return none
    else do
      let verStr ← substr str verStrBegin (some (endPos - verStrBegin))
      if verStr.take 5 ≠ bytes "HTTP/" then return none
      else if stringToHttpVer verStr = .kUnset then return none
      else return some (stringToHttpVer verStr)

def parseStartLine (p : RequestParser) (str : Bytes) : Except Fault (Nat × RequestParser) := do
  let req := p.request.getD {}
  let p := { p with contentLength := noLength, request := some req }
  let methodStrEnd := findFirstOf str space 0
  let methodStr ← substr str 0 methodStrEnd
  let method := stringToMethod methodStr
  if method = .kUnset then return (0, { p with state := .kFail })
  else
    match methodStrEnd.bind (find str crlf) with
    | none => return (0, p)
    | some endPos =>
      let req := { req with method }
      match ← parseUrl str methodStrEnd endPos req.url with
      | none => return (0, { p with state := .kFail, request := some req })
      | some (url, urlStrEnd) =>
        let req := { req with url }
        match ← parseVersion str urlStrEnd endPos with
        | none => return (0, { p with state := .kFail, request := some req })
        | some httpVer =>
          return (endPos + 2,
            { p with state := .kFinishedStartLine, request := some { req with httpVer } })

/-- The key and the value of the header line between `pos` and `endPos`. -/
def parseHead (str : Bytes) (pos endPos : Nat) : Except Fault (Option (Bytes × Bytes)) :=
  match findFirstOf str 58 pos with
  | none => return none
  | some colonPos =>
    if endPos ≤ colonPos then return none
    else do
      let headKey ← strip (← substr str pos (some (colonPos - pos)))
      match findFirstNotOf str space (colonPos + 1) with
      | none => return none
      | some headValueStartPos =>
        if endPos ≤ headValueStartPos then return none
        else
          let headValue ← strip
            (← substr str headValueStartPos (some (endPos - headValueStartPos)))
          return some (headKey, headValue)

def addHead (p : RequestParser) (headKey headValue : Bytes) : Except Fault RequestParser :=
  match p.request with
  | none => .error .nullPointer
  | some req =>
    let p := { p with request := some { req with headers := req.headers.set headKey headValue } }
    if headKey = contentLengthKey then do
      let value ← stoi headValue
      return { p with contentLength := toSizeT value }
    else return p

/-- The `for (;;)` over the header lines. -/
def parseHeads (str : Bytes) : Nat → RequestParser → Nat → Except Fault (Nat × RequestParser)
  | 0, _, _ => .error .stuck
  | fuel + 1, p, pos =>
    match find str crlf pos with
    | none => return (pos, p)
    | some endPos =>
      if endPos = pos then return (pos + 2, { p with state := .kFinishedHeads })
      else do
        match ← parseHead str pos endPos with
        | none => return (pos, { p with state := .kFail })
        | some (headKey, headValue) =>
          let p ← p.addHead headKey headValue
          parseHeads str fuel p (endPos + 2)

def finish (p : RequestParser) (body : Bytes) : Except Fault RequestParser :=
  match p.request with
  | none => .error .nullPointer
  | some req => return { p with state := .kFinishedAll, request := some { req with body } }

def parseBody (p : RequestParser) (str : Bytes) (pos : Nat) :
    Except Fault (Nat × RequestParser) :=
  if p.contentLength ≠ noLength then
    if p.contentLength ≤ str.length - pos then do
      let p' ← p.finish (← substr str pos (some p.contentLength))
      return (pos + p.contentLength, p')
    else return (pos, p)
  else do
    let p' ← p.finish (← substr str pos none)
    return (str.length, p')

def parse (p : RequestParser) (str : Bytes) : Except Fault (Nat × RequestParser) :=
  (if p.state = .kInit then p.parseStartLine str else .ok (0, p)) >>= fun (pos, p) =>
    (if p.state = .kFinishedStartLine then parseHeads str (str.length + 1) p pos
      else .ok (pos, p)) >>= fun (pos, p) =>
        if p.state = .kFinishedHeads then p.parseBody str pos else .ok (pos, p)

def getRequest (p : RequestParser) : Option Request × RequestParser :=
  if p.state = .kFinishedAll then (p.request, { p with request := none, state := .kInit })
  else (none, p)

/-- `p.swap(other)`: the content lengths stay where they are. -/
def swap (p other : RequestParser) : RequestParser × RequestParser :=
  ({ p with request := other.request, state := other.state },
    { other with request := p.request, state := p.state })

def reset (p : RequestParser) : RequestParser := (p.swap {}).1

end RequestParser

structure Receiver where
  parser : RequestParser := {}
  buff : Bytes := []
  requests : List Request := []
  deriving DecidableEq

namespace Receiver

/-- `while (buff.readableSize() > 0)`: parse, `hasRead` and take the request; whatever else the parser says ends the
loop. -/
def receiveLoop : Nat → Receiver → Except Fault Receiver
  | 0, _ => .error .stuck
  | fuel + 1, r =>
    if r.buff = [] then return r
    else do
      let (rsize, parser) ← r.parser.parse r.buff
      let buff := r.buff.drop rsize
      if parser.state = .kFinishedAll then
        match parser.getRequest with
        | (none, _) => .error .nullPointer
        | (some req, parser) =>
          receiveLoop fuel { parser, buff, requests := r.requests ++ [req] }
      else return { r with parser, buff }

def receive (r : Receiver) (segment : Bytes) : Except Fault Receiver :=
  receiveLoop (r.buff.length + segment.length + 2) { r with buff := r.buff ++ segment }

def receiveAll (r : Receiver) (segments : List Bytes) : Except Fault Receiver :=
  segments.foldlM receive r

end Receiver

end Tbox.Http
