import Tbox.Log.AsyncFileSink
import Tbox.Proof.TraceStream

/-!
# What stands in the log files

A line is in the cache until a write takes the cache as a whole: one that takes a part leaves all of it there. A line
comes out of pieces for which there is an array of 1024 bytes.
-/

open List Option

namespace Tbox.Log

open Tbox.Lib (Along Always Bytes Intake bytes run run_invariant)
open Tbox.Trace (fromLittleEndian_littleEndian length_littleEndian littleEndian)
open Tbox.Trace.RecordHeader (field)

variable {content : LogContent} {record : Record} {text data more : Bytes} {n pos width : Nat}

theorem field_append (h : data.length ≤ pos) :
    field (data ++ more) pos width = field more (pos - data.length) width := by
  rw [field, field, drop_append, drop_eq_nil_of_le h, nil_append]

theorem field_littleEndian (h : n < 256 ^ width) : field (littleEndian width n ++ more) 0 width = n := by
  rw [field, drop_zero, take_left' (length_littleEndian width n), fromLittleEndian_littleEndian, Nat.mod_eq_of_lt h]

theorem field_word (value : UInt64) : field (littleEndian 8 value.toNat ++ more) 0 8 = value.toNat :=
  field_littleEndian value.toNat_lt

theorem field_halfWord (value : UInt32) : field (littleEndian 4 value.toNat ++ more) 0 4 = value.toNat :=
  field_littleEndian value.toNat_lt

theorem field_bool (value : Bool) : field (littleEndian 1 value.toNat ++ more) 0 1 = value.toNat :=
  field_littleEndian (lt_of_le_of_lt (Bool.toNat_le value) (by decide))

namespace LogContent

theorem length_toBytes (content : LogContent) : content.toBytes.length = size := by
  simp only [toBytes, length_append, length_littleEndian, length_replicate]
  rfl

theorem ofBytes_toBytes (content : LogContent) (more : Bytes) : ofBytes (content.toBytes ++ more) = content := by
  have htrunc : decide (content.textTrunc.toNat ≠ 0) = content.textTrunc := by cases content.textTrunc <;> rfl
  rw [ofBytes]
  simp (disch := simp only [length_littleEndian, length_replicate]; decide) only [toBytes, append_assoc,
    field_append, length_littleEndian, length_replicate, Nat.reduceSub, field_word, field_halfWord, field_bool,
    htrunc, UInt64.ofNat_toNat, UInt32.ofNat_toNat, Int64.toInt64_toUInt64, Int32.toInt32_toUInt32]

end LogContent

theorem length_packet (record : Record) : record.packet.length = LogContent.size + record.text.length := by
  rw [Record.packet, length_append, LogContent.length_toBytes]

theorem pickLog_packet (record : Record) (more : Bytes) :
    pickLog (record.packet ++ more) = .took record.packet.length (record.content, record.text) := by
  have hlength : (record.packet ++ more).length = LogContent.size + record.text.length + more.length := by
    rw [length_append, length_packet]
  rw [pickLog, if_neg (by rw [hlength]; omega), Record.packet, append_assoc, LogContent.ofBytes_toBytes]
  dsimp only
  rw [← record.textLen, if_neg, drop_left' (LogContent.length_toBytes _), take_left, length_append,
    LogContent.length_toBytes]
  rw [← append_assoc, ← Record.packet, hlength]
  omega

theorem pickLog_part (hpart : data <+: record.packet) (hne : data ≠ record.packet) : pickLog data = .more := by
  obtain ⟨later, hlater⟩ := hpart
  have hlength := congrArg List.length hlater
  rw [length_append, length_packet] at hlength
  have hlater' : later ≠ [] := by
    rintro rfl
    exact hne (by rw [← hlater, append_nil])
  have hpos := length_pos_iff.mpr hlater'
  rw [pickLog]
  split_ifs with hshort
  · rfl
  -- the header is there, and says that the text is not
  have hheader : LogContent.ofBytes data = record.content := by
    have hbegins : record.content.toBytes <+: data := by
      apply prefix_of_prefix_length_le (prefix_append _ record.text)
      · exact ⟨later, hlater⟩
      · rw [LogContent.length_toBytes]
        exact Nat.not_lt.mp hshort
    obtain ⟨rest, rfl⟩ := hbegins
    exact LogContent.ofBytes_toBytes _ rest
  rw [hheader, if_pos (by rw [← record.textLen]; omega)]

/-- What is received of a record. -/
def Record.log (record : Record) : LogContent × Bytes := (record.content, record.text)

def frame (log : LogContent × Bytes) : Bytes := log.1.toBytes ++ log.2

theorem pickLog_decodes (records : List Record) : Intake.Decodes pickLog frame (records.map Record.log) where
  ne_nil := by
    simp only [List.forall_mem_map]
    intro record _ hnil
    have hlength := length_packet record
    rw [Record.packet, show record.content.toBytes ++ record.text = [] from hnil, LogContent.size] at hlength
    simp only [length_nil] at hlength
    omega
  took := by
    simp only [List.forall_mem_map]
    exact fun record _ => pickLog_packet record
  more := by
    simp only [List.forall_mem_map]
    exact fun record _ data => pickLog_part
  nil := rfl

section

variable {strings : UInt64 → Bytes} {localTime : UInt32 → Bytes} {sink next : AsyncFileSink}

/-- A record as it is to stand in the file. -/
def line (strings : UInt64 → Bytes) (localTime : UInt32 → Bytes) (color : Bool) (content : LogContent) (text : Bytes) :
    Bytes :=
  match content.codes with
  | none => []
  | some (levelCode, colorCode) =>
    (if color then colorPiece colorCode else []) ++
      headPiece levelCode (localTime content.sec) (strings content.moduleId) content ++
      (if content.funcName ≠ 0 then funcPiece (strings content.funcName) else []) ++ textPiece content text ++
      (if content.fileName ≠ 0 then filePiece (strings content.fileName) content else []) ++
      (if color then [27] ++ bytes "[0m" else []) ++ bytes "\n"

/-- The pieces that are formatted are shorter than the array. -/
structure Fits (strings : UInt64 → Bytes) (localTime : UInt32 → Bytes) (content : LogContent) : Prop where
  head : ∀ levelCode, (headPiece levelCode (localTime content.sec) (strings content.moduleId) content).length < 1024
  func : content.funcName ≠ 0 → (funcPiece (strings content.funcName)).length < 1024
  file : content.fileName ≠ 0 → (filePiece (strings content.fileName) content).length < 1024

theorem Record.codes (record : Record) : ∃ codes ∈ logLevelCodes, record.content.codes = some codes := by
  obtain ⟨hnonneg, hlt⟩ := record.level
  have hindex : record.content.level.toInt.toNat < logLevelCodes.length := by
    rw [show logLevelCodes.length = 8 from rfl]
    omega
  rw [LogContent.codes, if_neg (Int.not_lt.mpr hnonneg), getElem?_eq_getElem hindex]
  exact ⟨_, getElem_mem hindex, rfl⟩

theorem formatted_eq (h : text.length < 1024) : formatted text = some text := if_pos h

theorem formattedIf_eq {there : Bool} (h : there = true → text.length < 1024) :
    formattedIf there text = some (if there then text else []) := by
  rw [formattedIf]
  split_ifs with hthere
  · exact formatted_eq (h hthere)
  · rfl

namespace AsyncFileSink

theorem pieces_eq (sink : AsyncFileSink) (hfits : Fits strings localTime record.content)
    (htime : sink.timestampStr = some (localTime record.content.sec)) :
    sink.pieces strings record.content record.text =
      some (line strings localTime sink.enableColor record.content record.text) := by
  obtain ⟨⟨levelCode, colorCode⟩, hmem, hcodes⟩ := record.codes
  have hcolor : ∀ codes ∈ logLevelCodes, (colorPiece codes.2).length < 1024 := by decide
  rw [pieces, line, hcodes, htime]
  dsimp only [bind_eq_bind, bind_some]
  rw [formattedIf_eq fun _ => hcolor _ hmem, formatted_eq (hfits.head levelCode),
    formattedIf_eq fun hne => hfits.func (of_decide_eq_true hne),
    formattedIf_eq fun hne => hfits.file (of_decide_eq_true hne)]
  simp only [bind_some, decide_eq_true_eq]

def Timed (localTime : UInt32 → Bytes) (sink : AsyncFileSink) : Prop :=
  sink.timestampStr = some (localTime sink.timestampSec)

structure Rendered (strings : UInt64 → Bytes) (localTime : UInt32 → Bytes) (sink next : AsyncFileSink)
    (records : List Record) : Prop where
  frame : ∃ cache timestampSec timestampStr received, next = { sink with
    cache := cache, timestampSec := timestampSec, timestampStr := timestampStr, received := received }
  cache : next.cache = sink.cache ++
    records.flatMap fun record => line strings localTime sink.enableColor record.content record.text
  received : next.received =
    sink.received ++ records.map fun record => (record.content, record.text, sink.enableColor)

theorem onLogBackEnd_eq (hfits : Fits strings localTime record.content)
    (htime : Timed localTime sink ∨ record.content.sec ≠ sink.timestampSec) :
    Rendered strings localTime sink (sink.onLogBackEnd strings localTime record.content record.text) [record] ∧
      Timed localTime (sink.onLogBackEnd strings localTime record.content record.text) := by
  have hupdated : sink.udpateTimestampStr localTime record.content.sec =
      { sink with timestampStr := some (localTime record.content.sec), timestampSec := record.content.sec } := by
    rw [udpateTimestampStr]
    split_ifs with hsec
    · rfl
    replace hsec := not_not.mp hsec
    have htimed : sink.timestampStr = some (localTime sink.timestampSec) :=
      htime.resolve_right fun hne => hne hsec.symm
    rw [← hsec, ← htimed]
  rw [onLogBackEnd, hupdated]
  rw [pieces_eq { sink with timestampStr := some (localTime record.content.sec), timestampSec := record.content.sec }
    hfits rfl]
  refine ⟨⟨⟨_, _, _, _, rfl⟩, ?_, rfl⟩, rfl⟩
  rw [flatMap_singleton]

theorem onLogBackEnds_eq (sink : AsyncFileSink) (records : List Record)
    (hfits : ∀ record ∈ records, Fits strings localTime record.content)
    (htime : Timed localTime sink ∨ ∀ record, records.head? = some record → record.content.sec ≠ sink.timestampSec) :
    Rendered strings localTime sink (sink.onLogBackEnds strings localTime (records.map Record.log)) records ∧
      (records ≠ [] → Timed localTime (sink.onLogBackEnds strings localTime (records.map Record.log))) := by
  induction records generalizing sink with
  | nil => exact ⟨⟨⟨_, _, _, _, rfl⟩, (append_nil _).symm, (append_nil _).symm⟩, fun hne => absurd rfl hne⟩
  | cons record records ih =>
    obtain ⟨hfirst, hrest⟩ := forall_mem_cons.mp hfits
    obtain ⟨hrendered, htimed⟩ := onLogBackEnd_eq hfirst (htime.imp_right fun h => h record rfl)
    have hfold : sink.onLogBackEnds strings localTime ((record :: records).map Record.log) =
        (sink.onLogBackEnd strings localTime record.content record.text).onLogBackEnds strings localTime
          (records.map Record.log) := rfl
    rw [hfold]
    obtain ⟨hlater, hlast⟩ := ih _ hrest (.inl htimed)
    obtain ⟨⟨cache, sec, str, received, heq⟩, hcache, hreceived⟩ := hrendered
    generalize sink.onLogBackEnd strings localTime record.content record.text = middle at *
    obtain ⟨⟨cache', sec', str', received', heq'⟩, hcache', hreceived'⟩ := hlater
    have hcolor : middle.enableColor = sink.enableColor := by rw [heq]
    refine ⟨⟨⟨cache', sec', str', received', heq'.trans (by rw [heq])⟩, ?_, ?_⟩, ?_⟩
    · rw [hcache', hcache, hcolor, flatMap_singleton, flatMap_cons, append_assoc]
    · rw [hreceived', hreceived, hcolor, map_singleton, append_assoc]
      rfl
    intro _
    by_cases hnil : records = []
    · rw [hnil]
      exact htimed
    · exact hlast hnil

structure Flushed (sink next : AsyncFileSink) : Prop where
  frame : { next with
    files := sink.files, isOpen := sink.isOpen, totalWriteSize := sink.totalWriteSize, cache := sink.cache } = sink
  bytes : next.files.flatten ++ next.cache = sink.files.flatten ++ sink.cache
  files : next.isOpen = true → next.files ≠ []

theorem flatten_write (h : sink.files ≠ []) (data : Bytes) :
    (sink.write data).files.flatten = sink.files.flatten ++ data ∧ (sink.write data).files ≠ [] := by
  obtain ⟨before, last, hfiles⟩ := (eq_nil_or_concat' sink.files).resolve_left h
  have hwritten : (sink.write data).files = before ++ [last ++ data] := by
    rw [write, hfiles]
    exact Trace.modify_last before last (· ++ data)
  constructor
  · rw [hwritten, hfiles, flatten_append, flatten_append, flatten_singleton, flatten_singleton, append_assoc]
  · rw [hwritten]
    exact append_ne_nil_of_right_ne_nil _ (cons_ne_nil _ _)

theorem checkAndCreateLogFile_eq (hopen : sink.isOpen = true → sink.files ≠ []) (storage : Storage) :
    Flushed sink (sink.checkAndCreateLogFile storage).2 ∧
      ((sink.checkAndCreateLogFile storage).1 = true → (sink.checkAndCreateLogFile storage).2.files ≠ []) := by
  rw [checkAndCreateLogFile]
  split_ifs with hexists hcreates
  · exact ⟨⟨rfl, rfl, hopen⟩, fun _ => hopen hexists.1⟩
  · have hne : sink.files ++ [[]] ≠ [] := append_ne_nil_of_right_ne_nil _ (cons_ne_nil _ _)
    refine ⟨⟨rfl, ?_, fun _ => hne⟩, fun _ => hne⟩
    rw [flatten_append, flatten_singleton, append_nil]
  · exact ⟨⟨rfl, rfl, nofun⟩, nofun⟩

theorem flush_eq {storage : Storage} (hopen : sink.isOpen = true → sink.files ≠ [])
    (hwrite : ∀ n, storage.write ≠ .part n) (hflush : sink.flush storage = some next) : Flushed sink next := by
  obtain ⟨⟨hframe, hbytes, hfiles⟩, hcreated⟩ := checkAndCreateLogFile_eq hopen storage
  rw [flush] at hflush
  generalize sink.checkAndCreateLogFile storage = created at *
  obtain ⟨made, middle⟩ := created
  dsimp only at *
  cases made with
  | false =>
    cases hflush
    exact ⟨hframe, hbytes, hfiles⟩
  | true =>
    have hne := hcreated rfl
    rw [Bool.not_true, if_neg Bool.false_ne_true] at hflush
    cases hresult : storage.write with
    | failed =>
      rw [hresult] at hflush
      cases hflush
      exact ⟨hframe, hbytes, hfiles⟩
    | part n => exact absurd hresult (hwrite n)
    | whole =>
      rw [hresult] at hflush
      cases hflush
      obtain ⟨hflatten, hwritten⟩ := flatten_write hne middle.cache
      exact ⟨hframe, (append_nil _).trans (hflatten.trans hbytes), fun _ => hwritten⟩

structure Streamed (strings : UInt64 → Bytes) (localTime : UInt32 → Bytes) (sink : AsyncFileSink)
    (taken later : List Record) : Prop where
  dispatched : sink.dispatched = taken ++ later
  received : sink.received.map (fun got => (got.1, got.2.1)) = taken.map Record.log
  waiting : sink.buffer ++ sink.pipe = (later.map Record.log).flatMap frame
  incomplete : Intake.Incomplete frame (later.map Record.log) sink.buffer
  lines : sink.files.flatten ++ sink.cache = sink.received.flatMap fun got =>
    line strings localTime got.2.2 got.1 got.2.1

/-- What was written, and the cache, are the lines of the records that have come, in order; the buffer begins the next
one. -/
structure Sound (strings : UInt64 → Bytes) (localTime : UInt32 → Bytes) (sink : AsyncFileSink) : Prop where
  defined : sink.undefined = false
  streamed : ∃ taken later, Streamed strings localTime sink taken later

/-- The pieces of the records fit, the first is not of second 0, and a write takes all or nothing. -/
def Heeds (strings : UInt64 → Bytes) (localTime : UInt32 → Bytes) (sink : AsyncFileSink) : Action → Prop
  | .dispatch record =>
    Fits strings localTime record.content ∧ (sink.dispatched = [] → record.content.sec ≠ 0)
  | .receive _ storage => ∀ n, storage.write ≠ .part n
  | _ => True

structure Kept (strings : UInt64 → Bytes) (localTime : UInt32 → Bytes) (sink : AsyncFileSink) : Prop extends
    Sound strings localTime sink where
  fits : ∀ record ∈ sink.dispatched, Fits strings localTime record.content
  first : ∀ record, sink.dispatched.head? = some record → record.content.sec ≠ 0
  timed : Timed localTime sink ∨ sink.timestampSec = 0 ∧ sink.received = []
  files : sink.isOpen = true → sink.files ≠ []

theorem kept_initial : Kept strings localTime {} :=
  ⟨⟨rfl, [], [], rfl, rfl, rfl, rfl, rfl⟩, nofun, nofun, .inr ⟨rfl, rfl⟩, nofun⟩

theorem Kept.flushed (h : Kept strings localTime sink) (hflushed : Flushed sink next) :
    Kept strings localTime next := by
  obtain ⟨hframe, hbytes, hfiles⟩ := hflushed
  have hdispatched : next.dispatched = sink.dispatched := by rw [← hframe]
  have hreceived : next.received = sink.received := by rw [← hframe]
  have hdefined : next.undefined = sink.undefined := by rw [← hframe]
  have hbuffer : next.buffer = sink.buffer := by rw [← hframe]
  have hpipe : next.pipe = sink.pipe := by rw [← hframe]
  have hsec : next.timestampSec = sink.timestampSec := by rw [← hframe]
  have hstr : next.timestampStr = sink.timestampStr := by rw [← hframe]
  obtain ⟨taken, later, hstreamed⟩ := h.streamed
  refine ⟨⟨hdefined.trans h.defined, taken, later, ?_⟩, ?_, ?_, ?_, hfiles⟩
  · refine ⟨hdispatched.trans hstreamed.dispatched, ?_, ?_, ?_, ?_⟩
    · rw [hreceived]
      exact hstreamed.received
    · rw [hbuffer, hpipe]
      exact hstreamed.waiting
    · rw [hbuffer]
      exact hstreamed.incomplete
    · rw [hbytes, hreceived]
      exact hstreamed.lines
  · rw [hdispatched]
    exact h.fits
  · rw [hdispatched]
    exact h.first
  · rw [Timed, hreceived, hstr, hsec]
    exact h.timed

theorem Kept.rendered (h : Kept strings localTime sink) (size : Nat) :
    ∃ (more : List Record) (rest : Bytes), Intake.receive pickLog { rest := sink.buffer } (sink.pipe.take size) =
        { messages := more.map Record.log, rest := rest } ∧
      Kept strings localTime (onLogBackEnds strings localTime
        { sink with pipe := sink.pipe.drop size, buffer := rest } (more.map Record.log)) := by
  obtain ⟨taken, later, hstreamed⟩ := h.streamed
  have hpart : sink.buffer ++ sink.pipe.take size <+: (later.map Record.log).flatMap frame := by
    refine ⟨sink.pipe.drop size, ?_⟩
    rw [append_assoc, take_append_drop]
    exact hstreamed.waiting
  obtain ⟨logs, logs', rest, hlater, hbuffer, hincomplete, hreceive⟩ := (pickLog_decodes later).receive_eq [] hpart
  obtain ⟨more, later', rfl, rfl, rfl⟩ := map_eq_append_iff.mp hlater
  refine ⟨more, rest, hreceive, ?_⟩
  have hdispatched : sink.dispatched = taken ++ (more ++ later') := hstreamed.dispatched
  have hfits : ∀ record ∈ more, Fits strings localTime record.content := by
    intro record hmem
    apply h.fits
    rw [hdispatched]
    exact mem_append_right _ (mem_append_left _ hmem)
  have htime : Timed localTime { sink with pipe := sink.pipe.drop size, buffer := rest } ∨
      ∀ record, more.head? = some record → record.content.sec ≠ sink.timestampSec := by
    refine h.timed.imp id ?_
    rintro ⟨hzero, hnone⟩ record hhead
    -- the record is the first that has been dispatched
    have htaken : taken = [] := by
      have hmap := hstreamed.received
      rw [hnone] at hmap
      exact map_eq_nil_iff.mp hmap.symm
    rw [hzero]
    apply h.first
    rw [hdispatched, htaken, nil_append, List.head?_append, hhead]
    rfl
  obtain ⟨⟨⟨cache, sec, str, received, heq⟩, hcache, hreceived⟩, htimed⟩ :=
    onLogBackEnds_eq { sink with pipe := sink.pipe.drop size, buffer := rest } more hfits htime
  replace htimed : Timed localTime (onLogBackEnds strings localTime
        { sink with pipe := sink.pipe.drop size, buffer := rest } (more.map Record.log)) ∨
      (onLogBackEnds strings localTime { sink with pipe := sink.pipe.drop size, buffer := rest }
          (more.map Record.log)).timestampSec = 0 ∧
        (onLogBackEnds strings localTime { sink with pipe := sink.pipe.drop size, buffer := rest }
          (more.map Record.log)).received = [] := by
    cases more with
    | nil => exact h.timed
    | cons record more => exact .inl (htimed (cons_ne_nil record more))
  generalize onLogBackEnds strings localTime { sink with pipe := sink.pipe.drop size, buffer := rest }
    (more.map Record.log) = middle at *
  have hdefined : middle.undefined = false := by
    rw [heq]
    exact h.defined
  have hmiddle : middle.dispatched = sink.dispatched := by rw [heq]
  refine ⟨⟨hdefined, taken ++ more, later', ?_⟩, ?_, ?_, ?_, ?_⟩
  · refine ⟨?_, ?_, ?_, ?_, ?_⟩
    · rw [hmiddle, hdispatched, append_assoc]
    · rw [hreceived, map_append, hstreamed.received, map_append, List.map_map]
      rfl
    · rw [heq]
      have hwaiting := hstreamed.waiting
      rw [← take_append_drop size sink.pipe, ← append_assoc, hbuffer, map_append, flatMap_append,
        append_assoc] at hwaiting
      exact append_cancel_left hwaiting
    · rw [heq]
      exact hincomplete
    · rw [hcache, hreceived, flatMap_append, ← hstreamed.lines, append_assoc, flatMap_map]
      rw [heq]
  · rw [hmiddle]
    exact h.fits
  · rw [hmiddle]
    exact h.first
  · exact htimed
  · rw [heq]
    exact h.files

theorem Kept.receive {size : Nat} {storage : Storage} (h : Kept strings localTime sink)
    (hwrite : ∀ n, storage.write ≠ .part n)
    (hnext : onLogBackEndReadPipe strings localTime { sink with pipe := sink.pipe.drop size } storage
      (sink.pipe.take size) = some next) : Kept strings localTime next := by
  obtain ⟨more, rest, hreceive, hkept⟩ := h.rendered size
  rw [onLogBackEndReadPipe] at hnext
  rw [hreceive] at hnext
  split_ifs at hnext with hnone
  · cases hnext
    exact hkept
  · exact hkept.flushed (flush_eq hkept.files hwrite hnext)

/-- A heeded step neither loses nor tears a line. -/
theorem Kept.step {a : Action} (h : Kept strings localTime sink) (hheeds : Heeds strings localTime sink a)
    (hstep : sink.step strings localTime a = some next) : Kept strings localTime next := by
  rw [AsyncFileSink.step.eq_def, if_neg (by rw [h.defined]; exact Bool.false_ne_true)] at hstep
  obtain ⟨taken, later, hstreamed⟩ := h.streamed
  cases a with
  | dispatch record =>
    cases hstep
    obtain ⟨hfits, hfirst⟩ := hheeds
    refine ⟨⟨h.defined, taken, later ++ [record], ?_⟩, ?_, ?_, h.timed, h.files⟩
    · refine ⟨?_, hstreamed.received, ?_, ?_, hstreamed.lines⟩
      · rw [hstreamed.dispatched, append_assoc]
      · dsimp only
        rw [← append_assoc, hstreamed.waiting, map_append, flatMap_append]
        exact congrArg _ (append_nil _).symm
      cases later with
      | nil =>
        have hnil : sink.buffer = [] := hstreamed.incomplete
        rw [hnil]
        exact ⟨List.nil_prefix, ((pickLog_decodes [record]).ne_nil _ mem_cons_self).symm⟩
      | cons other later => exact hstreamed.incomplete
    · intro other hmem
      rcases mem_append.mp hmem with hmem | hmem
      · exact h.fits other hmem
      · rw [mem_singleton.mp hmem]
        exact hfits
    · intro other hhead
      by_cases hnil : sink.dispatched = []
      · dsimp only at hhead
        rw [hnil] at hhead
        cases hhead
        exact hfirst hnil
      · apply h.first other
        rwa [List.head?_append_of_ne_nil _ hnil] at hhead
  | enableColor enable =>
    cases hstep
    exact ⟨⟨h.defined, taken, later, hstreamed.dispatched, hstreamed.received, hstreamed.waiting,
      hstreamed.incomplete, hstreamed.lines⟩, h.fits, h.first, h.timed, h.files⟩
  | setFileMaxSize maxSize =>
    cases hstep
    exact ⟨⟨h.defined, taken, later, hstreamed.dispatched, hstreamed.received, hstreamed.waiting,
      hstreamed.incomplete, hstreamed.lines⟩, h.fits, h.first, h.timed, h.files⟩
  | closeFile =>
    cases hstep
    exact ⟨⟨h.defined, taken, later, hstreamed.dispatched, hstreamed.received, hstreamed.waiting,
      hstreamed.incomplete, hstreamed.lines⟩, h.fits, h.first, h.timed, nofun⟩
  | receive size storage =>
    obtain ⟨-, hstep⟩ := ite_none_left_eq_some.mp hstep
    exact h.receive hheeds hstep

/-- **No line is lost, repeated, moved or torn** in a run, as long as the pieces of the records fit in the array, the
first record is not of second 0, and every write takes all or nothing. -/
theorem sound_of_heeds (strings : UInt64 → Bytes) (localTime : UInt32 → Bytes) (as : List Action)
    (hheeds : Along (AsyncFileSink.step strings localTime) (Heeds strings localTime) {} as) :
    Always (AsyncFileSink.step strings localTime) (Sound strings localTime) {} as := by
  intro pre hpre sink hrun
  have hkept : Kept strings localTime sink :=
    run_invariant (fun _ _ _ h hheeds hstep => h.step hheeds hstep) kept_initial (hheeds.of_prefix hpre) hrun
  exact hkept.toSound

def hi : Record where
  content := ⟨7, 1, 0, 0, 0, 0, 3, 5, 2, 0, false⟩
  text := bytes "hi"
  textLen := by decide
  level := by decide

/-- The header comes in two parts, and the first write fails. -/
def hiTwice : List Action :=
  [.dispatch hi, .receive 30 {}, .receive 44 { write := .failed }, .dispatch hi, .receive 74 {}]

theorem sound_hiTwice :
    Always (AsyncFileSink.step (fun _ => []) fun _ => []) (Sound (fun _ => []) fun _ => []) {} hiTwice := by
  have hfits : Fits (fun _ => []) (fun _ => []) hi.content := by
    refine ⟨fun levelCode => ?_, fun hne => absurd rfl hne, fun hne => absurd rfl hne⟩
    have hlength : (headPiece levelCode [] [] hi.content).length = 13 := by
      simp only [headPiece, List.length_append, List.length_singleton, List.length_nil]
      decide +kernel
    rw [hlength]
    decide
  apply sound_of_heeds
  exact fun _ _ => ⟨⟨hfits, fun _ => by decide⟩, fun _ _ => ⟨nofun, fun _ _ => ⟨nofun, fun _ _ =>
    ⟨⟨hfits, fun _ => by decide⟩, fun _ _ => ⟨nofun, trivial⟩⟩⟩⟩⟩

/-- One byte of the line is written. -/
def partWritten : List Action := [.dispatch hi, .receive 74 { write := .part 1 }]

theorem not_sound_partWritten :
    ¬Always (AsyncFileSink.step (fun _ => []) fun _ => []) (Sound (fun _ => []) fun _ => []) {} partWritten := by
  intro halways
  obtain ⟨sink, hrun, hlonger⟩ := (Option.any_eq_true _ _).mp (show Option.any
    (fun sink : AsyncFileSink => (sink.files.flatten ++ sink.cache).length ≠
      (sink.received.flatMap fun got => line (fun _ => []) (fun _ => []) got.2.2 got.1 got.2.1).length)
    (run (AsyncFileSink.step (fun _ => []) fun _ => []) {} partWritten) = true by decide +kernel)
  obtain ⟨taken, later, hstreamed⟩ := (halways _ (List.prefix_refl _) sink hrun).streamed
  exact of_decide_eq_true hlonger (congrArg List.length hstreamed.lines)

end AsyncFileSink

end

end Tbox.Log
