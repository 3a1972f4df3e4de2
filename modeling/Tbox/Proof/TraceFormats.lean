import Tbox.Proof.ScalableCodes
import Tbox.Trace.Sink

/-!
# What the trace sink writes is read again

Records as packets in the pipe, and records as scalable integers in a file. Both are taken when they are there, and
waited for until then.
-/

open List Option

namespace Tbox.Util

open Tbox.Lib (Bytes)

variable {rounds readBytes n : Nat} {readValue value : UInt64} {buff : Bytes}

theorem parseLoop_append {result : Nat × UInt64} (h : parseLoop rounds readBytes readValue buff = some result)
    (more : Bytes) : parseLoop rounds readBytes readValue (buff ++ more) = some result := by
  induction buff generalizing rounds readBytes readValue with
  | nil =>
    cases rounds with
    | zero => cases h
    | succ rounds => cases h
  | cons value buff ih =>
    cases rounds with
    | zero => cases h
    | succ rounds =>
      rw [parseLoop] at h
      rw [cons_append, parseLoop]
      split at h
      case isTrue htop =>
        rw [if_pos htop]
        exact h
      case isFalse htop =>
        rw [if_neg htop]
        exact ih h

theorem le_of_parseLoop (h : parseLoop rounds readBytes readValue buff = some (n, value)) :
    readBytes ≤ n ∧ n < readBytes + buff.length := by
  induction buff generalizing rounds readBytes readValue with
  | nil =>
    cases rounds with
    | zero => cases h
    | succ rounds => cases h
  | cons head buff ih =>
    cases rounds with
    | zero => cases h
    | succ rounds =>
      rw [parseLoop] at h
      rw [length_cons]
      split at h
      case isTrue htop =>
        obtain ⟨rfl, -⟩ := Prod.mk.inj (some.inj h)
        omega
      case isFalse htop =>
        have hle := ih h
        omega

theorem parseScalableInteger_append {result : Nat × Option UInt64} (h : parseScalableInteger buff = some result)
    (more : Bytes) : parseScalableInteger (buff ++ more) = some result := by
  rw [parseScalableInteger] at h ⊢
  obtain ⟨parsed, hparsed, hresult⟩ := map_eq_some_iff.mp h
  rw [parseLoop_append hparsed, ← hresult]
  rfl

theorem le_of_parseScalableInteger {out : Option UInt64} (h : parseScalableInteger buff = some (n, out)) :
    0 < n ∧ n ≤ buff.length := by
  rw [parseScalableInteger] at h
  obtain ⟨parsed, hparsed, hresult⟩ := map_eq_some_iff.mp h
  obtain ⟨rfl, -⟩ := Prod.mk.inj hresult
  have hle := le_of_parseLoop hparsed
  omega

theorem needBytes_le_five (h : value.toNat < 2 ^ 32) : needBytes value ≤ 5 := by
  obtain ⟨-, -, -, hmin⟩ := needBytes_spec value
  by_contra hlt
  have hbefore := UInt64.lt_iff_toNat_lt.mp (hmin 5 (by decide) (by omega))
  have hmax : 2 ^ 32 ≤ (maxValueTbl.getD 5 0).toNat := by decide
  omega

end Tbox.Util

namespace Tbox.Trace

open Tbox.Lib (Bytes Verdict Intake)
open Tbox.Lib.Intake (andThen andThen_append Stable Undoes)
open Tbox.Util

variable {value : UInt64} {buffer : Bytes}

def Picked.dumped (picked : Picked) : Bytes :=
  dumpedBytes picked.endDiffUs ++ (dumpedBytes picked.durationUs ++ (dumpedBytes picked.threadIndex ++
    (dumpedBytes picked.nameIndex ++ dumpedBytes picked.moduleIndex)))

theorem of_pickNumber_took {size : Nat} (h : pickNumber buffer = .took size value) :
    parseScalableInteger buffer = some (size, some value) := by
  rw [pickNumber] at h
  split at h
  case h_1 => exact nomatch h
  case h_2 => exact nomatch h
  case h_3 parseSize found hparsed =>
    obtain ⟨rfl, rfl⟩ := Verdict.took.inj h
    exact hparsed

theorem stable_pickNumber : Stable pickNumber := by
  refine { nil := ?nil, took := ?took, took_append := ?took_append, failed_append := ?failed_append }
  case nil => rfl
  case took =>
    intro buffer size value htook
    exact le_of_parseScalableInteger (of_pickNumber_took htook)
  case took_append =>
    intro buffer size value htook more
    rw [pickNumber, parseScalableInteger_append (of_pickNumber_took htook)]
  case failed_append =>
    intro buffer hfailed more
    rw [pickNumber] at hfailed
    split at hfailed
    case h_1 => exact nomatch hfailed
    case h_2 hparsed => rw [pickNumber, parseScalableInteger_append hparsed]
    case h_3 => exact nomatch hfailed

theorem stable_pickRecord : Stable pickRecord := by
  apply stable_pickNumber.andThen
  intro endDiffUs
  apply stable_pickNumber.andThen
  intro durationUs
  apply stable_pickNumber.andThen
  intro threadIndex
  apply stable_pickNumber.andThen
  intro nameIndex
  exact stable_pickNumber.map _

theorem stable_readRecord : Stable readRecord := by
  refine { nil := ?nil, took := ?took, took_append := ?took_append, failed_append := ?failed_append }
  case nil => rfl
  case took =>
    intro buffer size picked htook
    rw [readRecord] at htook
    split at htook
    · cases htook
    · exact stable_pickRecord.took htook
  case took_append =>
    intro buffer size picked htook more
    rw [readRecord] at htook ⊢
    split at htook
    · cases htook
    · rw [length_append, if_neg (by omega)]
      exact stable_pickRecord.took_append htook more
  case failed_append =>
    intro buffer hfailed more
    rw [readRecord] at hfailed ⊢
    split at hfailed
    · cases hfailed
    · rw [length_append, if_neg (by omega)]
      exact stable_pickRecord.failed_append hfailed more

theorem pickNumber_dumpedBytes (value : UInt64) (more : Bytes) :
    pickNumber (dumpedBytes value ++ more) = .took (dumpedBytes value).length value := by
  rw [pickNumber, parse_dumpedBytes, length_dumpedBytes]

theorem pickRecord_dumped (picked : Picked) (more : Bytes) :
    pickRecord (picked.dumped ++ more) = .took picked.dumped.length picked := by
  simp only [Picked.dumped, append_assoc, length_append]
  apply andThen_append (pickNumber_dumpedBytes _ _)
  apply andThen_append (pickNumber_dumpedBytes _ _)
  apply andThen_append (pickNumber_dumpedBytes _ _)
  apply andThen_append (pickNumber_dumpedBytes _ _)
  rw [pickNumber_dumpedBytes]
  rfl

theorem five_le_length_dumped (picked : Picked) : 5 ≤ picked.dumped.length := by
  have hpos : ∀ value, 0 < (dumpedBytes value).length := fun value => by
    rw [length_dumpedBytes]
    exact (needBytes_spec value).1
  have hend := hpos picked.endDiffUs
  have hduration := hpos picked.durationUs
  have hthread := hpos picked.threadIndex
  have hname := hpos picked.nameIndex
  have hmodule := hpos picked.moduleIndex
  simp only [Picked.dumped, length_append]
  omega

/-- The reader takes back each record that was dumped. -/
theorem readRecord_undoes : Undoes readRecord (fun _ => True) Picked.dumped := by
  apply stable_readRecord.undoes
  intro picked _ more
  have hlength := five_le_length_dumped picked
  rw [readRecord, length_append, if_neg (by omega)]
  exact pickRecord_dumped picked more

theorem dumpAll_eq (picked : Picked) (hthread : picked.threadIndex.toNat < 2 ^ 32)
    (hname : picked.nameIndex.toNat < 2 ^ 32) (hmodule : picked.moduleIndex.toNat < 2 ^ 32) :
    Sink.dumpAll [picked.endDiffUs, picked.durationUs, picked.threadIndex, picked.nameIndex, picked.moduleIndex] =
      picked.dumped := by
  have hnext : ∀ (data : Bytes) (value : UInt64), data.length + needBytes value ≤ Sink.kBufferSize →
      data ++ (dumpScalableInteger value (Sink.kBufferSize - data.length)).getD [] = data ++ dumpedBytes value := by
    intro data value hroom
    rw [dumpScalableInteger, if_neg (by omega)]
    rfl
  have hsize : Sink.kBufferSize = 40 := rfl
  have hend := (needBytes_spec picked.endDiffUs).2.1
  have hduration := (needBytes_spec picked.durationUs).2.1
  have hthread := needBytes_le_five hthread
  have hname := needBytes_le_five hname
  have hmodule := needBytes_le_five hmodule
  rw [Sink.dumpAll]
  simp only [foldl_cons, foldl_nil]
  rw [hnext [] _ (by rw [length_nil]; omega),
    hnext _ picked.durationUs (by simp only [length_append, length_nil, length_dumpedBytes]; omega),
    hnext _ picked.threadIndex (by simp only [length_append, length_nil, length_dumpedBytes]; omega),
    hnext _ picked.nameIndex (by simp only [length_append, length_nil, length_dumpedBytes]; omega),
    hnext _ picked.moduleIndex (by simp only [length_append, length_nil, length_dumpedBytes]; omega),
    Picked.dumped]
  simp only [nil_append, append_assoc]

theorem length_littleEndian (size n : Nat) : (littleEndian size n).length = size := by
  induction size generalizing n with
  | zero => rfl
  | succ size ih => rw [littleEndian, length_cons, ih]

theorem fromLittleEndian_littleEndian (size n : Nat) : fromLittleEndian (littleEndian size n) = n % 256 ^ size := by
  induction size generalizing n with
  | zero => exact (Nat.mod_one n).symm
  | succ size ih =>
    calc fromLittleEndian (littleEndian (size + 1) n)
        = n % 256 + 256 * (n / 256 % 256 ^ size) := by
          rw [littleEndian, fromLittleEndian, ih, Nat.toUInt8, UInt8.toNat_ofNat']
      _ = n % 256 ^ (size + 1) := by rw [Nat.pow_succ', Nat.mod_mul]

theorem field_append {before after : Bytes} {pos size n : Nat} (hpos : before.length = pos) (hlt : n < 256 ^ size) :
    RecordHeader.field (before ++ (littleEndian size n ++ after)) pos size = n := by
  rw [RecordHeader.field, ← hpos, drop_left, take_left' (length_littleEndian size n),
    fromLittleEndian_littleEndian, Nat.mod_eq_of_lt hlt]

namespace RecordHeader

theorem length_toBytes (header : RecordHeader) : header.toBytes.length = kHeaderSize := by
  simp only [toBytes, length_append, length_littleEndian, length_replicate]
  rfl

theorem ofBytes_toBytes (header : RecordHeader) (more : Bytes) : ofBytes (header.toBytes ++ more) = header := by
  have hword : ∀ value : UInt64, value.toNat < 256 ^ 8 := fun value => value.toNat_lt
  have hthread : field (header.toBytes ++ more) 0 8 = header.threadId.toUInt64.toNat := by
    simp only [toBytes, append_assoc]
    rw [← nil_append (littleEndian 8 _ ++ _)]
    exact field_append rfl (hword _)
  have hend : field (header.toBytes ++ more) 8 8 = header.endTsUs.toNat := by
    simp only [toBytes, append_assoc]
    exact field_append (length_littleEndian _ _) (hword _)
  have hduration : field (header.toBytes ++ more) 16 8 = header.durationUs.toNat := by
    simp only [toBytes, append_assoc]
    rw [← append_assoc]
    apply field_append _ (hword _)
    simp only [length_append, length_littleEndian]
  have hline : field (header.toBytes ++ more) 24 4 = header.line.toNat := by
    simp only [toBytes, append_assoc]
    rw [← append_assoc, ← append_assoc]
    apply field_append _ header.line.toNat_lt
    simp only [length_append, length_littleEndian]
  have hname : field (header.toBytes ++ more) 32 8 = header.nameSize.toNat := by
    simp only [toBytes, append_assoc]
    rw [← append_assoc, ← append_assoc, ← append_assoc, ← append_assoc]
    apply field_append _ (hword _)
    simp only [length_append, length_littleEndian, length_replicate]
  have hmodule : field (header.toBytes ++ more) 40 8 = header.moduleSize.toNat := by
    simp only [toBytes, append_assoc]
    rw [← append_assoc, ← append_assoc, ← append_assoc, ← append_assoc, ← append_assoc]
    apply field_append _ (hword _)
    simp only [length_append, length_littleEndian, length_replicate]
  rw [ofBytes, hthread, hend, hduration, hline, hname, hmodule]
  simp only [UInt64.ofNat_toNat, UInt32.ofNat_toNat, Int64.toInt64_toUInt64]

end RecordHeader

theorem cString_append {str : Bytes} (h : 0 ∉ str) (more : Bytes) : cString (str ++ ([0] ++ more)) = str := by
  have hstr : ∀ c ∈ str, decide (c ≠ 0) = true := by
    intro c hmem
    apply decide_eq_true
    rintro rfl
    exact h hmem
  rw [cString, takeWhile_append_of_pos hstr]
  exact append_nil str

structure Record.Valid (record : Record) : Prop where
  name : 0 ∉ record.name ∧ record.name.length < 2 ^ 47
  module : 0 ∉ record.module ∧ record.module.length < 2 ^ 47

theorem length_packet (record : Record) :
    record.packet.length = kHeaderSize + (record.name.length + 1 + (record.module.length + 1)) := by
  simp only [Record.packet, length_append, RecordHeader.length_toBytes, length_singleton]
  omega

theorem toNat_nameSize {record : Record} (h : record.Valid) :
    record.header.nameSize.toNat = record.name.length + 1 := by
  have hlt := h.name.2
  rw [Record.header, UInt64.toNat_ofNat']
  omega

theorem toNat_moduleSize {record : Record} (h : record.Valid) :
    record.header.moduleSize.toNat = record.module.length + 1 := by
  have hlt := h.module.2
  rw [Record.header, UInt64.toNat_ofNat']
  omega

theorem pickPacket_header {record : Record} (h : record.Valid) {more : Bytes} (hmore : more ≠ []) :
    pickPacket (record.header.toBytes ++ more) =
      if more.length < record.name.length + 1 + (record.module.length + 1) then .more
      else .took record.packet.length
        { record with
          name := cString more
          module := cString (more.drop (record.name.length + 1)) } := by
  have hname := toNat_nameSize h
  have hmodule := toNat_moduleSize h
  have hnamelt := h.name.2
  have hmodulelt := h.module.2
  have hlength : (record.header.toBytes ++ more).length = kHeaderSize + more.length := by
    rw [length_append, RecordHeader.length_toBytes]
  have hsize : kHeaderSize = 48 := rfl
  have hpos : 0 < more.length := length_pos_of_ne_nil hmore
  have hstrings : (record.header.nameSize + record.header.moduleSize).toNat =
      record.name.length + 1 + (record.module.length + 1) := by
    rw [UInt64.toNat_add, hname, hmodule]
    omega
  have hpacket : (record.header.nameSize + record.header.moduleSize + UInt64.ofNat kHeaderSize).toNat =
      kHeaderSize + (record.name.length + 1 + (record.module.length + 1)) := by
    rw [UInt64.toNat_add, hstrings, hsize]
    change (_ + 48) % 2 ^ 64 = _
    omega
  rw [pickPacket, hlength, if_neg (by omega)]
  dsimp only
  rw [RecordHeader.ofBytes_toBytes, hpacket, hstrings, hname]
  by_cases hlt : more.length < record.name.length + 1 + (record.module.length + 1)
  · rw [if_pos (by omega), if_pos hlt]
  have hdrop : (record.header.toBytes ++ more).drop kHeaderSize = more := drop_left' (RecordHeader.length_toBytes _)
  rw [if_neg (by omega), if_neg hlt, length_packet, Nat.min_eq_left (by omega), ← drop_drop, hdrop]
  rfl

theorem packet_eq (record : Record) : record.packet =
    record.header.toBytes ++ (record.name ++ ([0] ++ (record.module ++ [0]))) := by
  simp only [Record.packet, append_assoc]

theorem pickPacket_undoes : Undoes pickPacket Record.Valid Record.packet where
  sized := by
    refine ⟨rfl, ?_⟩
    intro buffer size record htook
    rw [pickPacket] at htook
    dsimp only at htook
    split at htook
    · cases htook
    split at htook
    · cases htook
    · obtain ⟨rfl, -⟩ := Verdict.took.inj htook
      have hsize : kHeaderSize = 48 := rfl
      omega
  whole := by
    intro record hvalid more
    have hname : cString (record.name ++ ([0] ++ (record.module ++ ([0] ++ more)))) = record.name :=
      cString_append hvalid.name.1 _
    have hmodule : cString ((record.name ++ ([0] ++ (record.module ++ ([0] ++ more)))).drop (record.name.length + 1)) =
        record.module := by
      rw [← drop_drop, drop_left]
      exact cString_append hvalid.module.1 _
    have hlength : (record.name ++ ([0] ++ (record.module ++ ([0] ++ more)))).length =
        record.name.length + 1 + (record.module.length + 1) + more.length := by
      simp only [length_append, length_singleton]
      omega
    have hne : record.name ++ ([0] ++ (record.module ++ ([0] ++ more))) ≠ [] := by
      apply ne_nil_of_length_pos
      omega
    have hstream : record.packet ++ more =
        record.header.toBytes ++ (record.name ++ ([0] ++ (record.module ++ ([0] ++ more)))) := by
      simp only [packet_eq, append_assoc]
    rw [hstream, pickPacket_header hvalid hne, if_neg (by omega), hname, hmodule]
  part := by
    intro record hvalid buffer hbegins hlt
    by_cases hle : buffer.length ≤ kHeaderSize
    · rw [pickPacket, if_pos hle]
    rw [packet_eq] at hbegins
    obtain ⟨more, rfl⟩ : record.header.toBytes <+: buffer := by
      apply prefix_of_prefix_length_le ⟨_, rfl⟩ hbegins
      rw [RecordHeader.length_toBytes]
      omega
    rw [length_append, RecordHeader.length_toBytes] at hle hlt
    rw [length_packet] at hlt
    have hne : more ≠ [] := by
      apply ne_nil_of_length_pos
      omega
    rw [pickPacket_header hvalid hne, if_pos (by omega)]

end Tbox.Trace
