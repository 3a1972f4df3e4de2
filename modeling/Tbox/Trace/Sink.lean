import Tbox.Lib.Chunking
import Tbox.Util.ScalableInteger

/-!
# The trace sink

`trace/sink.cpp`: records go through a pipe into files of scalable integers. Of the lists of names, modules and
threads only that they can be written is here; assertions are left out.
-/

namespace Tbox.Trace

open Tbox.Lib (Bytes bytes Verdict Intake)
open Tbox.Lib.Intake (andThen)
open Tbox.Util (dumpScalableInteger parseScalableInteger)

abbrev CString := { str : Bytes // 0 ∉ str ∧ str.length < 2 ^ 47 }

structure Record where
  threadId : Int64
  endTsUs : UInt64
  durationUs : UInt64
  line : UInt32
  name : Bytes
  module : Bytes
  deriving DecidableEq, Repr

structure RecordHeader where
  threadId : Int64
  endTsUs : UInt64
  durationUs : UInt64
  line : UInt32
  nameSize : UInt64
  moduleSize : UInt64
  deriving DecidableEq, Repr

def littleEndian : Nat → Nat → Bytes
  | 0, _ => []
  | size + 1, n => n.toUInt8 :: littleEndian size (n / 256)

def fromLittleEndian : Bytes → Nat
  | [] => 0
  | c :: data => c.toNat + 256 * fromLittleEndian data

def kHeaderSize : Nat := 48

namespace RecordHeader

def toBytes (header : RecordHeader) : Bytes :=
  littleEndian 8 header.threadId.toUInt64.toNat ++ littleEndian 8 header.endTsUs.toNat ++
    littleEndian 8 header.durationUs.toNat ++ littleEndian 4 header.line.toNat ++ List.replicate 4 0 ++
    littleEndian 8 header.nameSize.toNat ++ littleEndian 8 header.moduleSize.toNat

def field (data : Bytes) (pos size : Nat) : Nat := fromLittleEndian ((data.drop pos).take size)

def ofBytes (data : Bytes) : RecordHeader where
  threadId := (UInt64.ofNat (field data 0 8)).toInt64
  endTsUs := UInt64.ofNat (field data 8 8)
  durationUs := UInt64.ofNat (field data 16 8)
  line := UInt32.ofNat (field data 24 4)
  nameSize := UInt64.ofNat (field data 32 8)
  moduleSize := UInt64.ofNat (field data 40 8)

end RecordHeader

def Record.header (record : Record) : RecordHeader where
  threadId := record.threadId
  endTsUs := record.endTsUs
  durationUs := record.durationUs
  line := record.line
  nameSize := UInt64.ofNat (record.name.length + 1)
  moduleSize := UInt64.ofNat (record.module.length + 1)

/-- What `commitRecord` puts into the pipe. -/
def Record.packet (record : Record) : Bytes :=
  record.header.toBytes ++ record.name ++ [0] ++ record.module ++ [0]

def cString (data : Bytes) : Bytes := data.takeWhile (· ≠ 0)

/-- One round of the loop of `onBackendRecvData`. -/
def pickPacket (buffer : Bytes) : Verdict Record :=
  if buffer.length ≤ kHeaderSize then .more
  else
    let header := RecordHeader.ofBytes buffer
    let packetSize := (header.nameSize + header.moduleSize + UInt64.ofNat kHeaderSize).toNat
    if buffer.length < packetSize then .more
    else
      -- `hasRead` of more than there is takes all
      .took (min (kHeaderSize + (header.nameSize + header.moduleSize).toNat) buffer.length)
        { threadId := header.threadId
          endTsUs := header.endTsUs
          durationUs := header.durationUs
          line := header.line
          name := cString (buffer.drop kHeaderSize)
          module := cString (buffer.drop (kHeaderSize + header.nameSize.toNat)) }

structure IndexMap (κ : Type) where
  entries : List (κ × UInt64) := []
  nextIndex : UInt32 := 0
  deriving DecidableEq, Repr

namespace IndexMap

variable {κ : Type} [DecidableEq κ]

def find (map : IndexMap κ) (key : κ) : Option UInt64 := map.entries.lookup key

def alloc (map : IndexMap κ) (key : κ) : UInt64 × IndexMap κ :=
  match map.find key with
  | some index => (index, map)
  | none =>
    let newIndex := map.nextIndex.toUInt64
    (newIndex, { entries := map.entries ++ [(key, newIndex)], nextIndex := map.nextIndex + 1 })

end IndexMap

/-- `name + " at L" + std::to_string(line)` -/
def Record.content (record : Record) : Bytes := record.name ++ bytes " at L" ++ bytes (toString record.line.toNat)

inductive FilterStrategy where
  | kPermit
  | kReject
  deriving DecidableEq, Repr

structure Filter where
  strategy : FilterStrategy := .kPermit
  exemptSet : List Bytes := []
  deriving DecidableEq, Repr

def Filter.isFilterPassed (filter : Filter) (module : Bytes) : Bool :=
  let isInExemptSet := decide (module ∈ filter.exemptSet)
  match filter.strategy with
  | .kPermit => !isInExemptSet
  | .kReject => isInExemptSet

structure Entry where
  endTsUs : UInt64
  durationUs : UInt64
  threadIndex : UInt64
  nameIndex : UInt64
  moduleIndex : UInt64
  deriving DecidableEq, Repr

structure Passed where
  record : Record
  filter : Filter
  entry : Entry
  deriving DecidableEq, Repr

structure Sink where
  /-- what has been committed and not been handed over -/
  pipe : Bytes := []
  buffer : Bytes := []
  /-- the record files, of which the last may be open -/
  files : List Bytes := []
  isOpen : Bool := false
  totalWriteSize : Nat := 0
  recordFileMaxSize : Nat := 2 ^ 64 - 1
  lastTimepointUs : UInt64 := 0
  nameToIndexMap : IndexMap Bytes := {}
  moduleToIndexMap : IndexMap Bytes := {}
  threadToIndexMap : IndexMap Int64 := {}
  filter : Filter := {}
  /-- whether something that was to go into the last file has not -/
  torn : Bool := false
  committed : List Record := []
  passed : List Passed := []
  deriving DecidableEq, Repr

/-- How the file system takes it: the file exists, another can be created, the lists can be written, and so much is
written. -/
structure Storage where
  fileExists : Bool := true
  creates : Bool := true
  writesNames : Bool := true
  writesModules : Bool := true
  writesThreads : Bool := true
  written : Nat := 2 ^ 64
  deriving DecidableEq, Repr

namespace Sink

def kBufferSize : Nat := 40

def dumpAll (values : List UInt64) : Bytes :=
  values.foldl (fun data value => data ++ (dumpScalableInteger value (kBufferSize - data.length)).getD []) []

def onBackendRecvRecord (sink : Sink) (record : Record) : Sink × Bytes :=
  if sink.filter.isFilterPassed record.module then
    let (threadIndex, threadToIndexMap) := sink.threadToIndexMap.alloc record.threadId
    let (nameIndex, nameToIndexMap) := sink.nameToIndexMap.alloc record.content
    let (moduleIndex, moduleToIndexMap) := sink.moduleToIndexMap.alloc record.module
    let timeDiff := record.endTsUs - sink.lastTimepointUs
    let entry : Entry := ⟨record.endTsUs, record.durationUs, threadIndex, nameIndex, moduleIndex⟩
    ({ sink with
        threadToIndexMap := threadToIndexMap
        nameToIndexMap := nameToIndexMap
        moduleToIndexMap := moduleToIndexMap
        lastTimepointUs := record.endTsUs
        passed := sink.passed ++ [⟨record, sink.filter, entry⟩] },
      dumpAll [timeDiff, record.durationUs, threadIndex, nameIndex, moduleIndex])
  else (sink, [])

def onBackendRecvRecords : List Record → Sink → Sink × Bytes
  | [], sink => (sink, [])
  | record :: records, sink =>
    let first := sink.onBackendRecvRecord record
    let rest := onBackendRecvRecords records first.1
    (rest.1, first.2 ++ rest.2)

def checkAndCreateRecordFile (sink : Sink) (storage : Storage) : Bool × Sink :=
  if sink.isOpen ∧ storage.fileExists then (true, sink)
  else if storage.creates then
    (true,
      { sink with
        files := sink.files ++ [[]]
        isOpen := true
        totalWriteSize := 0
        lastTimepointUs := 0
        torn := false })
  else (false, { sink with isOpen := false })

/-- `write` to the last file. -/
def write (sink : Sink) (storage : Storage) (writeCache : Bytes) : Sink :=
  if writeCache = [] then sink
  else
    let wsize := min storage.written writeCache.length
    let files := sink.files.modify (sink.files.length - 1) (· ++ writeCache.take wsize)
    if wsize ≠ writeCache.length then { sink with files := files, torn := true }
    else
      let totalWriteSize := sink.totalWriteSize + wsize
      { sink with
        files := files
        totalWriteSize := totalWriteSize
        isOpen := totalWriteSize < sink.recordFileMaxSize }

def onBackendRecvData (sink : Sink) (storage : Storage) (data : Bytes) : Sink :=
  let (created, sink) := sink.checkAndCreateRecordFile storage
  if created ∧ storage.writesNames ∧ storage.writesModules ∧ storage.writesThreads then
    let received := Intake.receive pickPacket { rest := sink.buffer } data
    let (sink, writeCache) := onBackendRecvRecords received.messages { sink with buffer := received.rest }
    sink.write storage writeCache
  else sink

end Sink

inductive Action where
  | commitRecord (threadId : Int64) (name module : CString) (line : UInt32) (endTimepointUs durationUs : UInt64)
  | setFilter (filter : Filter)
  | setRecordFileMaxSize (maxSize : Nat)
  /-- that many bytes come out of the pipe -/
  | receive (size : Nat) (storage : Storage)

def Sink.step (sink : Sink) : Action → Option Sink
  | .commitRecord threadId name module line endTimepointUs durationUs =>
    let record : Record := ⟨threadId, endTimepointUs, durationUs, line, name, module⟩
    some { sink with pipe := sink.pipe ++ record.packet, committed := sink.committed ++ [record] }
  | .setFilter filter => some { sink with filter := filter }
  | .setRecordFileMaxSize maxSize => some { sink with recordFileMaxSize := maxSize }
  | .receive size storage =>
    if sink.pipe.length < size then none
    else
      some (onBackendRecvData { sink with pipe := sink.pipe.drop size } storage (sink.pipe.take size))

structure Picked where
  endDiffUs : UInt64
  durationUs : UInt64
  threadIndex : UInt64
  nameIndex : UInt64
  moduleIndex : UInt64
  deriving DecidableEq, Repr

def pickNumber (buffer : Bytes) : Verdict UInt64 :=
  match parseScalableInteger buffer with
  | none => .more
  | some (_, none) => .failed
  | some (parseSize, some value) => .took parseSize value

def pickRecord : Bytes → Verdict Picked :=
  andThen pickNumber fun endDiffUs =>
  andThen pickNumber fun durationUs =>
  andThen pickNumber fun threadIndex =>
  andThen pickNumber fun nameIndex buffer =>
    (pickNumber buffer).map fun moduleIndex => ⟨endDiffUs, durationUs, threadIndex, nameIndex, moduleIndex⟩

/-- A round of the loop of `ReadRecordFile`. -/
def readRecord (buffer : Bytes) : Verdict Picked := if buffer.length < 4 then .more else pickRecord buffer

structure Handled where
  startTsUs : UInt64
  durationUs : UInt64
  nameIndex : UInt64
  moduleIndex : UInt64
  threadIndex : UInt64
  deriving DecidableEq, Repr

def handleRecords (lastEndTsUs : UInt64) : List Picked → List Handled
  | [] => []
  | picked :: later =>
    let endTsUs := lastEndTsUs + picked.endDiffUs
    { startTsUs := endTsUs - picked.durationUs
      durationUs := picked.durationUs
      nameIndex := picked.nameIndex
      moduleIndex := picked.moduleIndex
      threadIndex := picked.threadIndex } :: handleRecords endTsUs later

/-- A file in the pieces that `readsome` gives it in. -/
def readRecordFile (pieces : List Bytes) : Option (List Handled) :=
  let intake := Intake.receiveAll readRecord pieces
  if intake.failed then none else some (handleRecords 0 intake.messages)

end Tbox.Trace
