import Tbox.Lib.Run
import Tbox.Trace.Sink

/-!
# The asynchronous log sink

`log/async_sink.cpp` and `log/async_file_sink.cpp`. A record goes through the pipe as a `LogContent` with the
addresses of its strings, and the text behind it. What stands at an address, and local time, are functions.
-/

namespace Tbox.Log

open Tbox.Lib (Bytes bytes Verdict Intake)
open Tbox.Trace (littleEndian)
open Tbox.Trace.RecordHeader (field)

structure LogContent where
  threadId : Int64
  sec : UInt32
  usec : UInt32
  moduleId : UInt64
  funcName : UInt64
  fileName : UInt64
  line : Int32
  level : Int32
  textLen : UInt32
  textPtr : UInt64
  textTrunc : Bool
  deriving DecidableEq, Repr

namespace LogContent

/-- `sizeof(LogContent)` -/
def size : Nat := 72

def toBytes (content : LogContent) : Bytes :=
  littleEndian 8 content.threadId.toUInt64.toNat ++ littleEndian 4 content.sec.toNat ++
    littleEndian 4 content.usec.toNat ++ littleEndian 8 content.moduleId.toNat ++
    littleEndian 8 content.funcName.toNat ++ littleEndian 8 content.fileName.toNat ++
    littleEndian 4 content.line.toUInt32.toNat ++ littleEndian 4 content.level.toUInt32.toNat ++
    littleEndian 4 content.textLen.toNat ++ List.replicate 4 0 ++ littleEndian 8 content.textPtr.toNat ++
    littleEndian 1 content.textTrunc.toNat ++ List.replicate 7 0

def ofBytes (data : Bytes) : LogContent where
  threadId := (UInt64.ofNat (field data 0 8)).toInt64
  sec := UInt32.ofNat (field data 8 4)
  usec := UInt32.ofNat (field data 12 4)
  moduleId := UInt64.ofNat (field data 16 8)
  funcName := UInt64.ofNat (field data 24 8)
  fileName := UInt64.ofNat (field data 32 8)
  line := (UInt32.ofNat (field data 40 4)).toInt32
  level := (UInt32.ofNat (field data 44 4)).toInt32
  textLen := UInt32.ofNat (field data 48 4)
  textPtr := UInt64.ofNat (field data 56 8)
  textTrunc := field data 64 1 ≠ 0

end LogContent

/-- What is dispatched: the text is as long as the content says, and the level is one that there is. -/
structure Record where
  content : LogContent
  text : Bytes
  textLen : text.length = content.textLen.toNat
  level : 0 ≤ content.level.toInt ∧ content.level.toInt < 8
  deriving DecidableEq

/-- What `onLogFrontEnd` puts into the pipe. -/
def Record.packet (record : Record) : Bytes := record.content.toBytes ++ record.text

/-- A round of the loop of `onLogBackEndReadPipe`. -/
def pickLog (buffer : Bytes) : Verdict (LogContent × Bytes) :=
  if buffer.length < LogContent.size then .more
  else
    let content := LogContent.ofBytes buffer
    let frameSize := LogContent.size + content.textLen.toNat
    if frameSize > buffer.length then .more
    else .took frameSize (content, (buffer.drop LogContent.size).take content.textLen.toNat)

/-- The first of `LOG_LEVEL_LEVEL_CODE`, the second of `LOG_LEVEL_COLOR_CODE`. -/
def logLevelCodes : List (UInt8 × Bytes) :=
  [(70, bytes "7;91"), (69, bytes "31"), (87, bytes "7;93"), (78, bytes "93"), (73, bytes "7;92"), (73, bytes "32"),
    (68, bytes "36"), (84, bytes "35")]

def LogContent.codes (content : LogContent) : Option (UInt8 × Bytes) :=
  if content.level.toInt < 0 then none else logLevelCodes[content.level.toInt.toNat]?

/-- `%06u` -/
def sixDigits (n : Nat) : Bytes :=
  let digits := bytes (toString n)
  List.replicate (6 - digits.length) 48 ++ digits

/-- `"\033[%sm"` -/
def colorPiece (code : Bytes) : Bytes := [27] ++ bytes "[" ++ code ++ bytes "m"

/-- `"%c %s.%06u %ld %s "` -/
def headPiece (level : UInt8) (timestampStr moduleId : Bytes) (content : LogContent) : Bytes :=
  [level] ++ bytes " " ++ timestampStr ++ bytes "." ++ sixDigits content.usec.toNat ++ bytes " " ++
    bytes (toString content.threadId.toInt) ++ bytes " " ++ moduleId ++ bytes " "

/-- `"%s() "` -/
def funcPiece (funcName : Bytes) : Bytes := funcName ++ bytes "() "

/-- `"-- %s:%d"` -/
def filePiece (fileName : Bytes) (content : LogContent) : Bytes :=
  bytes "-- " ++ fileName ++ bytes ":" ++ bytes (toString content.line.toInt)

def textPiece (content : LogContent) (text : Bytes) : Bytes :=
  if content.textLen > 0 then text ++ bytes " " ++ (if content.textTrunc then bytes "(TRUNCATED) " else []) else []

/-- `snprintf` into `char buff[1024]`, of which as many bytes are taken as it returns. -/
def formatted (text : Bytes) : Option Bytes := if text.length < 1024 then some text else none

def formattedIf (there : Bool) (text : Bytes) : Option Bytes := if there then formatted text else some []

/-- What `write` comes to, `part` being less than all and more than nothing. -/
inductive WriteResult where
  | whole
  | failed
  | part (size : Nat)
  deriving DecidableEq, Repr

/-- How the file system takes it: the current file still exists, another one can be created, and what becomes of the
write. -/
structure Storage where
  fileExists : Bool := true
  creates : Bool := true
  write : WriteResult := .whole
  deriving DecidableEq, Repr

structure AsyncFileSink where
  /-- what has been appended and not been handed over -/
  pipe : Bytes := []
  buffer : Bytes := []
  cache : Bytes := []
  enableColor : Bool := false
  timestampSec : UInt32 := 0
  /-- it is not written before it is needed -/
  timestampStr : Option Bytes := none
  /-- the log files, of which the last may be open -/
  files : List Bytes := []
  isOpen : Bool := false
  totalWriteSize : Nat := 0
  fileMaxSize : Nat := 2 ^ 20
  /-- memory has been read that is not of the array, or not written -/
  undefined : Bool := false
  dispatched : List Record := []
  /-- what has been received completely, and whether it was to be coloured -/
  received : List (LogContent × Bytes × Bool) := []
  deriving DecidableEq

namespace AsyncFileSink

variable (strings : UInt64 → Bytes) (localTime : UInt32 → Bytes)

def udpateTimestampStr (sink : AsyncFileSink) (sec : UInt32) : AsyncFileSink :=
  if sink.timestampSec ≠ sec then { sink with timestampStr := some (localTime sec), timestampSec := sec } else sink

/-- What `onLogBackEnd` appends, piece by piece. -/
def pieces (sink : AsyncFileSink) (content : LogContent) (text : Bytes) : Option Bytes := do
  let (levelCode, colorCode) ← content.codes
  let color ← formattedIf sink.enableColor (colorPiece colorCode)
  let timestampStr ← sink.timestampStr
  let head ← formatted (headPiece levelCode timestampStr (strings content.moduleId) content)
  let func ← formattedIf (content.funcName ≠ 0) (funcPiece (strings content.funcName))
  let file ← formattedIf (content.fileName ≠ 0) (filePiece (strings content.fileName) content)
  let reset := if sink.enableColor then [27] ++ bytes "[0m" else []
  some (color ++ head ++ func ++ textPiece content text ++ file ++ reset ++ bytes "\n")

def onLogBackEnd (sink : AsyncFileSink) (content : LogContent) (text : Bytes) : AsyncFileSink :=
  let sink := sink.udpateTimestampStr localTime content.sec
  match sink.pieces strings content text with
  | none => { sink with undefined := true }
  | some line =>
    { sink with cache := sink.cache ++ line, received := sink.received ++ [(content, text, sink.enableColor)] }

def onLogBackEnds (sink : AsyncFileSink) (logs : List (LogContent × Bytes)) : AsyncFileSink :=
  logs.foldl (fun sink log => sink.onLogBackEnd strings localTime log.1 log.2) sink

def checkAndCreateLogFile (sink : AsyncFileSink) (storage : Storage) : Bool × AsyncFileSink :=
  if sink.isOpen ∧ storage.fileExists then (true, sink)
  else if storage.creates then (true, { sink with files := sink.files ++ [[]], isOpen := true, totalWriteSize := 0 })
  else (false, { sink with isOpen := false })

/-- `write` to the last file. -/
def write (sink : AsyncFileSink) (data : Bytes) : AsyncFileSink :=
  { sink with files := sink.files.modify (sink.files.length - 1) (· ++ data) }

def flush (sink : AsyncFileSink) (storage : Storage) : Option AsyncFileSink :=
  let (created, sink) := sink.checkAndCreateLogFile storage
  if !created then some sink
  else
    match storage.write with
    | .failed => some sink
    | .part size => if 0 < size ∧ size < sink.cache.length then some (sink.write (sink.cache.take size)) else none
    | .whole =>
      let totalWriteSize := sink.totalWriteSize + sink.cache.length
      some { sink.write sink.cache with
        totalWriteSize := totalWriteSize
        isOpen := totalWriteSize < sink.fileMaxSize
        cache := [] }

def onLogBackEndReadPipe (sink : AsyncFileSink) (storage : Storage) (data : Bytes) : Option AsyncFileSink :=
  let intake := Intake.receive pickLog { rest := sink.buffer } data
  let sink := { sink with buffer := intake.rest }.onLogBackEnds strings localTime intake.messages
  if sink.undefined ∨ intake.messages = [] then some sink else sink.flush storage

inductive Action where
  | dispatch (record : Record)
  | enableColor (enable : Bool)
  | setFileMaxSize (maxSize : Nat)
  /-- `setFilePath`, `setFilePrefix` and `setFileSyncEnable`, which close the file -/
  | closeFile
  /-- that many bytes come out of the pipe -/
  | receive (size : Nat) (storage : Storage)
  deriving DecidableEq

def step (sink : AsyncFileSink) (a : Action) : Option AsyncFileSink :=
  if sink.undefined then none
  else
    match a with
    | .dispatch record =>
      some { sink with pipe := sink.pipe ++ record.packet, dispatched := sink.dispatched ++ [record] }
    | .enableColor enable => some { sink with enableColor := enable }
    | .setFileMaxSize maxSize => some { sink with fileMaxSize := maxSize }
    | .closeFile => some { sink with isOpen := false }
    | .receive size storage =>
      if sink.pipe.length < size then none
      else
        onLogBackEndReadPipe strings localTime { sink with pipe := sink.pipe.drop size } storage
          (sink.pipe.take size)

end AsyncFileSink

end Tbox.Log
