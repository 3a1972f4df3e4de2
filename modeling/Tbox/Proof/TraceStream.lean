import Tbox.Lib.Run
import Tbox.Proof.TraceFormats

/-!
# What stands in the record files

As long as only whole packets are dropped, and nothing more is written to a file after something that was to be
written there has not been.
-/

open List

namespace Tbox.Trace

open Tbox.Lib (Along Bytes Intake run)

variable {sink : Sink} {record : Record} {records : List Record} {news : List Passed} {share : List Passed}
  {last : UInt64} {file : Bytes}

def Passed.handled (passed : Passed) : Handled where
  startTsUs := passed.entry.endTsUs - passed.entry.durationUs
  durationUs := passed.entry.durationUs
  nameIndex := passed.entry.nameIndex
  moduleIndex := passed.entry.moduleIndex
  threadIndex := passed.entry.threadIndex

def picks (last : UInt64) : List Passed → List Picked
  | [] => []
  | passed :: later =>
    { endDiffUs := passed.entry.endTsUs - last
      durationUs := passed.entry.durationUs
      threadIndex := passed.entry.threadIndex
      nameIndex := passed.entry.nameIndex
      moduleIndex := passed.entry.moduleIndex } :: picks passed.entry.endTsUs later

def lastEnd (last : UInt64) : List Passed → UInt64
  | [] => last
  | passed :: later => lastEnd passed.entry.endTsUs later

def recorded (last : UInt64) (share : List Passed) : Bytes := (picks last share).flatMap Picked.dumped

theorem handleRecords_picks (last : UInt64) (share : List Passed) :
    handleRecords last (picks last share) = share.map Passed.handled := by
  induction share generalizing last with
  | nil => rfl
  | cons passed later ih =>
    rw [picks, handleRecords]
    rw [UInt64.add_comm, UInt64.sub_add_cancel, ih]
    rfl

theorem take_picks (n : Nat) (last : UInt64) (share : List Passed) :
    (picks last share).take n = picks last (share.take n) := by
  induction share generalizing n last with
  | nil => rw [take_nil, picks, take_nil]
  | cons passed later ih =>
    cases n with
    | zero => rfl
    | succ n => rw [picks, take_succ_cons, ih, take_succ_cons, picks]

theorem recorded_append (last : UInt64) (share news : List Passed) :
    recorded last (share ++ news) = recorded last share ++ recorded (lastEnd last share) news := by
  induction share generalizing last with
  | nil => rfl
  | cons passed later ih =>
    have htail := ih passed.entry.endTsUs
    rw [recorded] at htail
    rw [cons_append, recorded, picks, flatMap_cons, htail, ← append_assoc]
    rfl

theorem lastEnd_append (last : UInt64) (share news : List Passed) :
    lastEnd last (share ++ news) = lastEnd (lastEnd last share) news := by
  induction share generalizing last with
  | nil => rfl
  | cons passed later ih => exact ih _

theorem readRecordFile_of_prefix (h : file <+: recorded 0 share) : ∃ n, ∀ pieces : List Bytes, pieces.flatten = file →
      readRecordFile pieces = some ((share.take n).map Passed.handled) := by
  obtain ⟨later, hlater⟩ := h
  obtain ⟨n, hmessages, hfailed, -⟩ := readRecord_undoes.drained_append (fun _ _ => trivial) hlater
  refine ⟨n, fun pieces hpieces => ?_⟩
  rw [readRecordFile, stable_readRecord.receiveAll_eq, hpieces, hfailed, hmessages, take_picks, handleRecords_picks]
  rfl

namespace IndexMap

variable {κ : Type} [DecidableEq κ] {map : IndexMap κ} {key other : κ} {index : UInt64}

def Small (map : IndexMap κ) : Prop := ∀ pair ∈ map.entries, pair.2.toNat < 2 ^ 32

theorem Small.find (h : map.Small) (hfind : map.find key = some index) : index.toNat < 2 ^ 32 := by
  obtain ⟨before, after, heq, -⟩ := lookup_eq_some_iff.mp hfind
  apply h (key, index)
  rw [heq]
  exact mem_append_right _ mem_cons_self

theorem find_alloc (map : IndexMap κ) (key : κ) : (map.alloc key).2.find key = some (map.alloc key).1 := by
  rw [alloc]
  cases hfind : map.find key with
  | some index => exact hfind
  | none =>
    dsimp only [find] at hfind ⊢
    rw [lookup_append, hfind, lookup_cons_self]
    rfl

theorem find_alloc_of_find (hfind : map.find other = some index) (key : κ) :
    (map.alloc key).2.find other = some index := by
  rw [alloc]
  cases map.find key with
  | some _ => exact hfind
  | none =>
    dsimp only [find] at hfind ⊢
    rw [lookup_append, hfind]
    rfl

theorem Small.alloc (h : map.Small) (key : κ) : (map.alloc key).2.Small := by
  rw [IndexMap.alloc]
  cases map.find key with
  | some _ => exact h
  | none =>
    intro pair hmem
    obtain hmem | hmem := mem_append.mp hmem
    · exact h pair hmem
    · rw [mem_singleton.mp hmem]
      exact map.nextIndex.toUInt64_toNat ▸ map.nextIndex.toNat_lt

end IndexMap

/-- The record has passed, and the entry is what the tables have for it. -/
structure Passed.Faithful (sink : Sink) (passed : Passed) : Prop where
  filter : passed.filter.isFilterPassed passed.record.module = true
  endTsUs : passed.entry.endTsUs = passed.record.endTsUs
  durationUs : passed.entry.durationUs = passed.record.durationUs
  threadIndex : sink.threadToIndexMap.find passed.record.threadId = some passed.entry.threadIndex
  nameIndex : sink.nameToIndexMap.find passed.record.content = some passed.entry.nameIndex
  moduleIndex : sink.moduleToIndexMap.find passed.record.module = some passed.entry.moduleIndex

structure Indexed (sink : Sink) : Prop where
  threads : sink.threadToIndexMap.Small
  names : sink.nameToIndexMap.Small
  modules : sink.moduleToIndexMap.Small
  passed : ∀ passed ∈ sink.passed, passed.Faithful sink

structure Recorded (sink : Sink) (records : List Record) (next : Sink × Bytes) (news : List Passed) : Prop where
  frame : ∃ threads names modules, next.1 =
    { sink with
      threadToIndexMap := threads
      nameToIndexMap := names
      moduleToIndexMap := modules
      lastTimepointUs := lastEnd sink.lastTimepointUs news
      passed := sink.passed ++ news }
  records : news.map Passed.record = records.filter fun record => sink.filter.isFilterPassed record.module
  cache : next.2 = recorded sink.lastTimepointUs news
  indexed : Indexed next.1

theorem recorded_singleton (h : Indexed sink) {passed : Passed} (hfaithful : passed.Faithful sink) (last : UInt64) :
    Sink.dumpAll [passed.entry.endTsUs - last, passed.entry.durationUs, passed.entry.threadIndex,
      passed.entry.nameIndex, passed.entry.moduleIndex] = recorded last [passed] := by
  have hdumped := dumpAll_eq
    ⟨passed.entry.endTsUs - last, passed.entry.durationUs, passed.entry.threadIndex, passed.entry.nameIndex,
      passed.entry.moduleIndex⟩
    (h.threads.find hfaithful.threadIndex) (h.names.find hfaithful.nameIndex) (h.modules.find hfaithful.moduleIndex)
  exact hdumped.trans (append_nil _).symm

theorem Indexed.onBackendRecvRecord (h : Indexed sink) (record : Record) :
    ∃ news, Recorded sink [record] (sink.onBackendRecvRecord record) news := by
  rw [Sink.onBackendRecvRecord]
  by_cases hpassed : sink.filter.isFilterPassed record.module = true
  · rw [if_pos hpassed]
    have hindexed : Indexed (sink.onBackendRecvRecord record).1 := by
      rw [Sink.onBackendRecvRecord, if_pos hpassed]
      refine ⟨h.threads.alloc _, h.names.alloc _, h.modules.alloc _, fun passed hmem => ?_⟩
      obtain hold | hnew := mem_append.mp hmem
      · have hfaithful := h.passed passed hold
        exact { hfaithful with
          threadIndex := IndexMap.find_alloc_of_find hfaithful.threadIndex _
          nameIndex := IndexMap.find_alloc_of_find hfaithful.nameIndex _
          moduleIndex := IndexMap.find_alloc_of_find hfaithful.moduleIndex _ }
      · rw [mem_singleton.mp hnew]
        exact ⟨hpassed, rfl, rfl, IndexMap.find_alloc _ _, IndexMap.find_alloc _ _, IndexMap.find_alloc _ _⟩
    rw [Sink.onBackendRecvRecord, if_pos hpassed] at hindexed
    refine ⟨[⟨record, sink.filter, ⟨record.endTsUs, record.durationUs, _, _, _⟩⟩], ⟨_, _, _, rfl⟩, ?_, ?_, hindexed⟩
    · simp only [map_cons, map_nil, filter_cons, hpassed, if_true, filter_nil]
    · exact recorded_singleton hindexed (hindexed.passed _ (mem_append_right _ mem_cons_self)) _
  · rw [if_neg hpassed]
    refine ⟨[], ⟨_, _, _, by rw [append_nil]; rfl⟩, ?_, rfl, h⟩
    simp only [map_nil, filter_cons, hpassed, if_false, filter_nil, Bool.false_eq_true]

theorem Indexed.onBackendRecvRecords (h : Indexed sink) (records : List Record) :
    ∃ news, Recorded sink records (Sink.onBackendRecvRecords records sink) news := by
  induction records generalizing sink with
  | nil => exact ⟨[], ⟨_, _, _, by rw [append_nil]; rfl⟩, rfl, rfl, h⟩
  | cons record records ih =>
    obtain ⟨new, hnew⟩ := h.onBackendRecvRecord record
    obtain ⟨news, hnews⟩ := ih hnew.indexed
    rw [Sink.onBackendRecvRecords]
    obtain ⟨threads, names, modules, hfirst⟩ := hnew.frame
    obtain ⟨threads', names', modules', hrest⟩ := hnews.frame
    refine ⟨new ++ news, ⟨threads', names', modules', ?_⟩, ?_, ?_, hnews.indexed⟩
    · rw [hrest, hfirst]
      simp only [lastEnd_append, append_assoc]
    · rw [map_append, hnew.records, hnews.records, hfirst, ← filter_append]
      rfl
    · rw [hnew.cache, hnews.cache, hfirst, recorded_append]

/-- What stands in a file is the beginning of what was to be written there. -/
abbrev Written : List Bytes → List (List Passed) → Prop := List.Forall₂ fun file share => file <+: recorded 0 share

structure Stored (sink : Sink) (shares : List (List Passed)) : Prop where
  written : Written sink.files shares
  passed : shares.flatten.Sublist sink.passed
  whole : sink.isOpen = true → sink.torn = false → ∃ files before share, Written files before ∧
    sink.files = files ++ [recorded 0 share] ∧ shares = before ++ [share] ∧ sink.lastTimepointUs = lastEnd 0 share

theorem recorded_eq_nil (h : recorded last news = []) : news = [] := by
  cases news with
  | nil => rfl
  | cons passed later =>
    have hlength := congrArg List.length h
    rw [recorded, picks, flatMap_cons, length_append, length_nil] at hlength
    have hfive := five_le_length_dumped
      ⟨passed.entry.endTsUs - last, passed.entry.durationUs, passed.entry.threadIndex, passed.entry.nameIndex,
        passed.entry.moduleIndex⟩
    omega

theorem modify_last {α : Type*} (before : List α) (last : α) (f : α → α) :
    (before ++ [last]).modify ((before ++ [last]).length - 1) f = before ++ [f last] := by
  rw [length_append, length_singleton, Nat.add_sub_cancel]
  induction before with
  | nil => rfl
  | cons head before ih =>
    rw [cons_append, length_cons, modify_succ_cons, ih]
    rfl

theorem checkAndCreateRecordFile_cases (sink : Sink) (storage : Storage) :
    (sink.isOpen = true ∧ storage.fileExists = true ∧ sink.checkAndCreateRecordFile storage = (true, sink)) ∨
    (¬(sink.isOpen = true ∧ storage.fileExists = true) ∧ storage.creates = true ∧
      sink.checkAndCreateRecordFile storage = (true,
        { sink with
          files := sink.files ++ [[]]
          isOpen := true
          totalWriteSize := 0
          lastTimepointUs := 0
          torn := false })) ∨
    (¬(sink.isOpen = true ∧ storage.fileExists = true) ∧ storage.creates = false ∧
      sink.checkAndCreateRecordFile storage = (false, { sink with isOpen := false })) := by
  rw [Sink.checkAndCreateRecordFile]
  by_cases hkept : sink.isOpen = true ∧ storage.fileExists = true
  · rw [if_pos hkept]
    exact .inl ⟨hkept.1, hkept.2, rfl⟩
  rw [if_neg hkept]
  cases hcreates : storage.creates with
  | true => exact .inr (.inl ⟨hkept, rfl, rfl⟩)
  | false => exact .inr (.inr ⟨hkept, rfl, rfl⟩)

variable {shares : List (List Passed)}

theorem Stored.created (h : Stored sink shares) (storage : Storage) :
    ∃ shares, Stored (sink.checkAndCreateRecordFile storage).2 shares := by
  obtain ⟨-, -, hcreated⟩ | ⟨-, -, hcreated⟩ | ⟨-, -, hcreated⟩ := checkAndCreateRecordFile_cases sink storage
  · rw [hcreated]
    exact ⟨shares, h⟩
  · rw [hcreated]
    refine ⟨shares ++ [[]], ?_, ?_, fun _ _ => ⟨sink.files, shares, [], h.written, rfl, rfl, rfl⟩⟩
    · exact rel_append h.written (.cons nil_prefix .nil)
    · rw [flatten_append, flatten_singleton, append_nil]
      exact h.passed
  · rw [hcreated]
    exact ⟨shares, h.written, h.passed, fun hopen => Bool.noConfusion hopen⟩

variable {storage : Storage}

theorem Stored.write {next : Sink} (h : Stored sink shares)
    (hopen : sink.isOpen = true) (hfiles : next.files = sink.files) (hnext : next.torn = sink.torn)
    (hlast : next.lastTimepointUs = lastEnd sink.lastTimepointUs news) (hpassed : next.passed = sink.passed ++ news)
    (htorn : sink.torn = true → storage.written = 0 ∨ news = []) :
    ∃ shares, Stored (next.write storage (recorded sink.lastTimepointUs news)) shares := by
  have hmore : shares.flatten.Sublist next.passed := by
    rw [hpassed]
    exact h.passed.trans (sublist_append_left _ _)
  rw [Sink.write]
  by_cases hcache : recorded sink.lastTimepointUs news = []
  · obtain rfl := recorded_eq_nil hcache
    rw [if_pos hcache]
    refine ⟨shares, hfiles ▸ h.written, hmore, fun _ hwhole => ?_⟩
    rw [hfiles, hlast]
    exact h.whole hopen (hnext ▸ hwhole)
  · rw [if_neg hcache]
    dsimp only
    have hpos := length_pos_of_ne_nil hcache
    cases hwhole : sink.torn with
    | true =>
      have hnone : storage.written = 0 := (htorn hwhole).resolve_right fun hnil => hcache (hnil ▸ rfl)
      rw [hnone, Nat.zero_min, if_pos (by omega), take_zero]
      refine ⟨shares, ?_, hmore, fun _ hfalse => Bool.noConfusion hfalse⟩
      have hsame : next.files.modify (next.files.length - 1) (· ++ []) = sink.files := by
        rw [hfiles, funext append_nil]
        exact List.modify_id _ _
      exact hsame ▸ h.written
    | false =>
      obtain ⟨files, before, share, hbefore, hall, rfl, hend⟩ := h.whole hopen hwhole
      generalize hsize : min storage.written (recorded sink.lastTimepointUs news).length = wsize
      have hwritten : next.files.modify (next.files.length - 1)
          (· ++ (recorded sink.lastTimepointUs news).take wsize) =
          files ++ [recorded 0 share ++ (recorded sink.lastTimepointUs news).take wsize] := by
        rw [hfiles, hall]
        exact modify_last _ _ _
      have hrecorded : recorded 0 (share ++ news) = recorded 0 share ++ recorded sink.lastTimepointUs news := by
        rw [recorded_append, hend]
      have hshares : (before ++ [share ++ news]).flatten.Sublist next.passed := by
        rw [hpassed, flatten_append, flatten_singleton, ← append_assoc]
        have hshare := h.passed
        rw [flatten_append, flatten_singleton] at hshare
        exact hshare.append (List.Sublist.refl news)
      have hfile : Written
          (files ++ [recorded 0 share ++ (recorded sink.lastTimepointUs news).take wsize])
          (before ++ [share ++ news]) := by
        apply rel_append hbefore
        refine .cons ?_ .nil
        rw [hrecorded]
        exact (prefix_append_right_inj _).mpr (List.take_prefix _ _)
      rw [hwritten]
      refine ⟨before ++ [share ++ news], ?_⟩
      split
      · exact ⟨hfile, hshares, fun _ hfalse => Bool.noConfusion hfalse⟩
      have hfull : wsize = (recorded sink.lastTimepointUs news).length := by omega
      refine ⟨hfile, hshares, fun _ _ => ⟨files, before, share ++ news, hbefore, ?_, rfl, ?_⟩⟩
      · rw [hrecorded, hfull, take_length]
      · exact hlast.trans (by rw [lastEnd_append, hend])

def Sink.arriving (sink : Sink) (size : Nat) : List Record :=
  (Intake.receive pickPacket { rest := sink.buffer } (sink.pipe.take size)).messages

def Sink.Takes (sink : Sink) (storage : Storage) : Prop :=
  (sink.isOpen = true ∧ storage.fileExists = true ∨ storage.creates = true) ∧
    storage.writesNames = true ∧ storage.writesModules = true ∧ storage.writesThreads = true

/-- What is dropped are whole packets, and after something that was to be written to a file has not been, nothing more
is written to it. -/
def Heeds (sink : Sink) : Action → Prop
  | .receive size storage =>
    (¬sink.Takes storage → ∃ dropped : List Record, (∀ record ∈ dropped, record.Valid) ∧
      sink.buffer ++ sink.pipe.take size = dropped.flatMap Record.packet ++ sink.buffer) ∧
    (sink.Takes storage → sink.torn = true → sink.isOpen = true → storage.fileExists = true →
      storage.written = 0 ∨ ∀ record ∈ sink.arriving size, sink.filter.isFilterPassed record.module = false)
  | _ => True

structure Streamed (sink : Sink) (before pending : List Record) : Prop where
  committed : sink.committed = before ++ pending
  pending : sink.buffer ++ sink.pipe = pending.flatMap Record.packet
  passed : (sink.passed.map Passed.record).Sublist before

structure Sound (sink : Sink) : Prop where
  valid : ∀ record ∈ sink.committed, record.Valid
  streamed : ∃ before pending, Streamed sink before pending
  indexed : Indexed sink
  stored : ∃ shares, Stored sink shares

theorem sound_init : Sound {} where
  valid := nofun
  streamed := ⟨[], [], rfl, rfl, List.Sublist.refl _⟩
  indexed := ⟨nofun, nofun, nofun, nofun⟩
  stored := ⟨[], .nil, List.Sublist.refl _, nofun⟩

theorem Indexed.frame {next : Sink} (h : Indexed sink) (hthreads : next.threadToIndexMap = sink.threadToIndexMap)
    (hnames : next.nameToIndexMap = sink.nameToIndexMap) (hmodules : next.moduleToIndexMap = sink.moduleToIndexMap)
    (hpassed : next.passed = sink.passed) : Indexed next where
  threads := hthreads ▸ h.threads
  names := hnames ▸ h.names
  modules := hmodules ▸ h.modules
  passed := by
    intro passed hmem
    have hfaithful := h.passed passed (hpassed ▸ hmem)
    exact { hfaithful with
      threadIndex := hthreads ▸ hfaithful.threadIndex
      nameIndex := hnames ▸ hfaithful.nameIndex
      moduleIndex := hmodules ▸ hfaithful.moduleIndex }

theorem Indexed.write (h : Indexed sink) (storage : Storage) (writeCache : Bytes) :
    Indexed (sink.write storage writeCache) := by
  rw [Sink.write]
  split
  · exact h
  dsimp only
  split
  · exact h.frame rfl rfl rfl rfl
  · exact h.frame rfl rfl rfl rfl

theorem Streamed.write {before pending : List Record} (h : Streamed sink before pending) (storage : Storage)
    (writeCache : Bytes) : Streamed (sink.write storage writeCache) before pending := by
  rw [Sink.write]
  split
  · exact h
  dsimp only
  split
  · exact { h with }
  · exact { h with }

theorem committed_write (sink : Sink) (storage : Storage) (writeCache : Bytes) :
    (sink.write storage writeCache).committed = sink.committed := by
  rw [Sink.write]
  split
  · rfl
  · dsimp only
    split <;> rfl

theorem checkAndCreateRecordFile_frame (sink : Sink) (storage : Storage) :
    ∃ files isOpen totalWriteSize lastTimepointUs torn, (sink.checkAndCreateRecordFile storage).2 =
      { sink with
        files := files
        isOpen := isOpen
        totalWriteSize := totalWriteSize
        lastTimepointUs := lastTimepointUs
        torn := torn } := by
  obtain ⟨-, -, hcreated⟩ | ⟨-, -, hcreated⟩ | ⟨-, -, hcreated⟩ := checkAndCreateRecordFile_cases sink storage
  all_goals
    rw [hcreated]
    exact ⟨_, _, _, _, _, rfl⟩

theorem checkAndCreateRecordFile_created (sink : Sink) (storage : Storage) :
    (sink.checkAndCreateRecordFile storage).1 = true ↔
      sink.isOpen = true ∧ storage.fileExists = true ∨ storage.creates = true := by
  obtain ⟨hopen, hexists, hcreated⟩ | ⟨-, hcreates, hcreated⟩ | ⟨hkept, hcreates, hcreated⟩ :=
    checkAndCreateRecordFile_cases sink storage
  · rw [hcreated]
    exact iff_of_true rfl (.inl ⟨hopen, hexists⟩)
  · rw [hcreated]
    exact iff_of_true rfl (.inr hcreates)
  · rw [hcreated, hcreates]
    exact iff_of_false Bool.false_ne_true (not_or.mpr ⟨hkept, Bool.false_ne_true⟩)

theorem isOpen_of_created {sink : Sink} (h : (sink.checkAndCreateRecordFile storage).1 = true) :
    (sink.checkAndCreateRecordFile storage).2.isOpen = true ∧ ((sink.checkAndCreateRecordFile storage).2.torn = true →
        sink.torn = true ∧ sink.isOpen = true ∧ storage.fileExists = true) := by
  obtain ⟨hopen, hexists, hcreated⟩ | ⟨-, -, hcreated⟩ | ⟨-, -, hcreated⟩ := checkAndCreateRecordFile_cases sink storage
  · rw [hcreated]
    exact ⟨hopen, fun htorn => ⟨htorn, hopen, hexists⟩⟩
  · rw [hcreated]
    exact ⟨rfl, fun htorn => Bool.noConfusion htorn⟩
  · rw [hcreated] at h
    exact Bool.noConfusion h

theorem Sound.dropped {size : Nat} (h : Sound sink) (storage : Storage) (hdropped : ∃ dropped : List Record,
    (∀ record ∈ dropped, record.Valid) ∧
      sink.buffer ++ sink.pipe.take size = dropped.flatMap Record.packet ++ sink.buffer) :
    Sound (Sink.checkAndCreateRecordFile { sink with pipe := sink.pipe.drop size } storage).2 := by
  obtain ⟨before, pending, hstreamed⟩ := h.streamed
  obtain ⟨shares, hstored⟩ := h.stored
  obtain ⟨dropped, hvalid, hshift⟩ := hdropped
  have hstream : dropped.flatMap Record.packet ++ (sink.buffer ++ sink.pipe.drop size) =
      pending.flatMap Record.packet := by
    rw [← append_assoc, ← hshift, append_assoc, take_append_drop]
    exact hstreamed.pending
  have hpending : ∀ record ∈ pending, record.Valid := fun record hmem =>
    h.valid record (hstreamed.committed ▸ mem_append_right _ hmem)
  obtain ⟨later, rfl⟩ := pickPacket_undoes.prefix_of_flatMap hpending hvalid ⟨_, hstream⟩
  have hbase : Stored { sink with pipe := sink.pipe.drop size } shares :=
    { hstored with }
  have hcreated := hbase.created storage
  obtain ⟨files, isOpen, totalWriteSize, lastTimepointUs, torn, hframe⟩ :=
    checkAndCreateRecordFile_frame { sink with pipe := sink.pipe.drop size } storage
  rw [hframe] at hcreated ⊢
  refine ⟨h.valid, ⟨before ++ dropped, later, ?_, ?_, ?_⟩, h.indexed.frame rfl rfl rfl rfl, hcreated⟩
  · rw [append_assoc]
    exact hstreamed.committed
  · rw [flatMap_append] at hstream
    exact append_cancel_left hstream
  · exact hstreamed.passed.trans (sublist_append_left _ _)

theorem Sound.written {before arrived later : List Record}
    (hvalid : ∀ record ∈ sink.committed, record.Valid) (hindexed : Indexed sink)
    (hcommitted : sink.committed = before ++ (arrived ++ later))
    (hpending : sink.buffer ++ sink.pipe = later.flatMap Record.packet)
    (hpassed : (sink.passed.map Passed.record).Sublist before) (hstored : ∃ shares, Stored sink shares)
    (hopen : sink.isOpen = true) (htorn : sink.torn = true → storage.written = 0 ∨
      ∀ record ∈ arrived, sink.filter.isFilterPassed record.module = false) :
    Sound ((Sink.onBackendRecvRecords arrived sink).1.write storage (Sink.onBackendRecvRecords arrived sink).2) := by
  obtain ⟨shares, hstored⟩ := hstored
  obtain ⟨news, hnews⟩ := hindexed.onBackendRecvRecords arrived
  obtain ⟨threads, names, modules, hnext⟩ := hnews.frame
  refine ⟨?_, ⟨before ++ arrived, later, ?_⟩, hnews.indexed.write _ _, ?_⟩
  · rw [committed_write, hnext]
    exact hvalid
  · apply Streamed.write
    rw [hnext]
    refine ⟨?_, hpending, ?_⟩
    · rw [append_assoc]
      exact hcommitted
    · rw [map_append, hnews.records]
      exact hpassed.append filter_sublist
  · rw [hnews.cache]
    apply hstored.write hopen
    · rw [hnext]
    · rw [hnext]
    · rw [hnext]
    · rw [hnext]
    intro hwhole
    refine (htorn hwhole).imp_right fun hfails => ?_
    have hnone := hnews.records
    rw [filter_eq_nil_iff.mpr fun record hmem => Bool.eq_false_iff.mp (hfails record hmem)] at hnone
    exact map_eq_nil_iff.mp hnone

theorem Sound.received {size : Nat} (h : Sound sink)
    (hcreated : (Sink.checkAndCreateRecordFile { sink with pipe := sink.pipe.drop size } storage).1 = true)
    (htorn : sink.torn = true → sink.isOpen = true → storage.fileExists = true → storage.written = 0 ∨
      ∀ record ∈ sink.arriving size, sink.filter.isFilterPassed record.module = false) :
    let created := (Sink.checkAndCreateRecordFile { sink with pipe := sink.pipe.drop size } storage).2
    let received := Intake.receive pickPacket { rest := sink.buffer } (sink.pipe.take size)
    let next := Sink.onBackendRecvRecords received.messages { created with buffer := received.rest }
    Sound (next.1.write storage next.2) := by
  obtain ⟨before, pending, hstreamed⟩ := h.streamed
  obtain ⟨shares, hstored⟩ := h.stored
  have hpending : ∀ record ∈ pending, record.Valid := fun record hmem =>
    h.valid record (hstreamed.committed ▸ mem_append_right _ hmem)
  have hstream : (sink.buffer ++ sink.pipe.take size) ++ sink.pipe.drop size = pending.flatMap Record.packet := by
    rw [append_assoc, take_append_drop]
    exact hstreamed.pending
  obtain ⟨n, hmessages, -, hrest⟩ := pickPacket_undoes.drained_append hpending hstream
  have harriving : sink.arriving size = pending.take n := hmessages
  have hbase : Stored { sink with pipe := sink.pipe.drop size } shares :=
    { hstored with }
  obtain ⟨shares, hfile⟩ := hbase.created storage
  obtain ⟨hopen, hlast⟩ := isOpen_of_created hcreated
  obtain ⟨files, isOpen, totalWriteSize, lastTimepointUs, torn, hframe⟩ :=
    checkAndCreateRecordFile_frame { sink with pipe := sink.pipe.drop size } storage
  rw [hframe] at hfile hopen hlast ⊢
  apply @Sound.written _ storage before (sink.arriving size) (pending.drop n)
  case hvalid => exact h.valid
  case hindexed => exact h.indexed.frame rfl rfl rfl rfl
  case hcommitted =>
    rw [harriving, take_append_drop]
    exact hstreamed.committed
  case hpending => exact hrest
  case hpassed => exact hstreamed.passed
  case hstored => exact ⟨shares, hfile.written, hfile.passed, hfile.whole⟩
  case hopen => exact hopen
  case htorn =>
    intro hwhole
    obtain ⟨htorn', hopen', hexists⟩ := hlast hwhole
    exact htorn htorn' hopen' hexists

/-- A heeded step keeps the files, the stream and the indices to what was committed. -/
theorem Sound.step {next : Sink} {action : Action} (h : Sound sink) (hheeds : Heeds sink action)
    (hstep : sink.step action = some next) : Sound next := by
  obtain ⟨before, pending, hstreamed⟩ := h.streamed
  obtain ⟨shares, hstored⟩ := h.stored
  cases action with
  | commitRecord threadId name module line endTimepointUs durationUs =>
    cases hstep
    refine ⟨fun record hmem => ?_,
      ⟨before, pending ++ [⟨threadId, endTimepointUs, durationUs, line, name, module⟩], ?_, ?_, hstreamed.passed⟩,
      h.indexed.frame rfl rfl rfl rfl, ⟨shares, hstored.written, hstored.passed, hstored.whole⟩⟩
    · obtain hold | hnew := mem_append.mp hmem
      · exact h.valid record hold
      · rw [mem_singleton.mp hnew]
        exact ⟨name.2, module.2⟩
    · exact (congrArg (· ++ _) hstreamed.committed).trans (append_assoc _ _ _)
    · rw [flatMap_append, flatMap_singleton, ← hstreamed.pending, append_assoc]
  | setFilter filter =>
    cases hstep
    exact ⟨h.valid, ⟨before, pending, hstreamed.committed, hstreamed.pending, hstreamed.passed⟩,
      h.indexed.frame rfl rfl rfl rfl, ⟨shares, hstored.written, hstored.passed, hstored.whole⟩⟩
  | setRecordFileMaxSize maxSize =>
    cases hstep
    exact ⟨h.valid, ⟨before, pending, hstreamed.committed, hstreamed.pending, hstreamed.passed⟩,
      h.indexed.frame rfl rfl rfl rfl, ⟨shares, hstored.written, hstored.passed, hstored.whole⟩⟩
  | receive size storage =>
    obtain ⟨hdropped, htorn⟩ := hheeds
    rw [Sink.step] at hstep
    split at hstep
    · cases hstep
    cases hstep
    have hcreated := checkAndCreateRecordFile_created { sink with pipe := sink.pipe.drop size } storage
    rw [Sink.onBackendRecvData]
    dsimp only
    split
    case isFalse hfails =>
      apply h.dropped storage (hdropped fun htakes => hfails ?_)
      exact ⟨hcreated.mpr htakes.1, htakes.2⟩
    case isTrue htakes =>
      have htakes' : sink.Takes storage := ⟨hcreated.mp htakes.1, htakes.2⟩
      have hframe := checkAndCreateRecordFile_frame { sink with pipe := sink.pipe.drop size } storage
      have hbuffer : (Sink.checkAndCreateRecordFile { sink with pipe := sink.pipe.drop size } storage).2.buffer =
          sink.buffer := by
        obtain ⟨files, isOpen, totalWriteSize, lastTimepointUs, torn, hframe⟩ := hframe
        rw [hframe]
      rw [hbuffer]
      exact h.received htakes.1 (htorn htakes')

/-- Every file is read as records that were committed and have passed the filter, in their order, with the indices that
they have been given. -/
structure Intact (sink : Sink) : Prop where
  committed : (sink.passed.map Passed.record).Sublist sink.committed
  faithful : ∀ passed ∈ sink.passed, passed.Faithful sink
  files : ∃ shares : List (List Passed), shares.flatten.Sublist sink.passed ∧
    List.Forall₂ (fun file share => ∀ pieces : List Bytes, pieces.flatten = file →
      readRecordFile pieces = some (share.map Passed.handled)) sink.files shares

theorem Written.read {files : List Bytes} (h : Written files shares) :
    ∃ read : List (List Passed), read.flatten.Sublist shares.flatten ∧
      List.Forall₂ (fun file share => ∀ pieces : List Bytes, pieces.flatten = file →
        readRecordFile pieces = some (share.map Passed.handled)) files read := by
  induction h with
  | nil => exact ⟨[], List.Sublist.refl _, .nil⟩
  | @cons file share files shares hfile _ ih =>
    obtain ⟨read, hsublist, hread⟩ := ih
    obtain ⟨n, hn⟩ := readRecordFile_of_prefix hfile
    exact ⟨share.take n :: read, (take_sublist n share).append hsublist, .cons hn hread⟩

theorem Sound.intact (h : Sound sink) : Intact sink := by
  obtain ⟨before, pending, hstreamed⟩ := h.streamed
  obtain ⟨shares, hstored⟩ := h.stored
  obtain ⟨read, hsublist, hread⟩ := hstored.written.read
  refine ⟨?_, h.indexed.passed, read, hsublist.trans hstored.passed, hread⟩
  rw [hstreamed.committed]
  exact hstreamed.passed.trans (sublist_append_left _ _)

/-- **Record files are intact.** -/
theorem intact_of_heeds (actions : List Action) (hheeds : Along Sink.step Heeds {} actions)
    (hrun : run Sink.step {} actions = some sink) : Intact sink := by
  apply Sound.intact
  exact Tbox.Lib.run_invariant (fun _ _ _ => Sound.step) sound_init hheeds hrun

/-- A file on a full disk, and another one after it. -/
def newFile : List Action :=
  [.commitRecord 7 ⟨[102], by decide⟩ ⟨[109], by decide⟩ 3 1000 10, .receive 52 { fileExists := false, written := 2 },
    .commitRecord 7 ⟨[102], by decide⟩ ⟨[109], by decide⟩ 3 1500 20, .receive 52 { fileExists := false }]

theorem intact_newFile : ∃ sink, run Sink.step {} newFile = some sink ∧ sink.files.length = 2 ∧ Intact sink := by
  have hreceive : ∀ (sink : Sink) (size written : Nat),
      Heeds sink (.receive size { fileExists := false, written := written }) := by
    intro sink size written
    refine ⟨fun hfails => absurd ⟨.inr rfl, rfl, rfl, rfl⟩ hfails, fun _ _ _ hexists => Bool.noConfusion hexists⟩
  have hheeds : Along Sink.step Heeds {} newFile := by
    intro first _
    refine ⟨trivial, fun second _ => ⟨hreceive _ _ _, fun third _ => ⟨trivial, fun fourth _ => ⟨hreceive _ _ _, ?_⟩⟩⟩⟩
    trivial
  have hfiles : (run Sink.step {} newFile).map (·.files.length) = some 2 := by decide +kernel
  obtain ⟨sink, hrun, hlength⟩ := Option.map_eq_some_iff.mp hfiles
  exact ⟨sink, hrun, hlength, intact_of_heeds newFile hheeds hrun⟩

/-- A record is lost in a full disk, and the next one is written to the same file. -/
def lostRecord : List Action :=
  [.commitRecord 7 ⟨[102], by decide⟩ ⟨[109], by decide⟩ 3 1000 10, .receive 52 { written := 0 },
    .commitRecord 7 ⟨[102], by decide⟩ ⟨[109], by decide⟩ 3 1500 20, .receive 52 {}]

/-- It ends at 500 then. -/
theorem not_intact_lostRecord : ∃ sink, run Sink.step {} lostRecord = some sink ∧ ¬Intact sink := by
  have hread : (run Sink.step {} lostRecord).map
      (fun sink => (sink.files.map fun file => readRecordFile [file], sink.passed.map Passed.handled)) =
        some ([some [⟨480, 20, 0, 0, 0⟩]], [⟨990, 10, 0, 0, 0⟩, ⟨1480, 20, 0, 0, 0⟩]) := by decide +kernel
  obtain ⟨sink, hrun, hboth⟩ := Option.map_eq_some_iff.mp hread
  obtain ⟨hfiles, hpassed⟩ := Prod.mk.inj hboth
  refine ⟨sink, hrun, fun hintact => ?_⟩
  obtain ⟨shares, hsublist, hshares⟩ := hintact.files
  obtain ⟨file, hfile, hone⟩ := List.map_eq_singleton_iff.mp hfiles
  rw [hfile] at hshares
  cases hshares with
  | cons hshare hnil =>
    cases hnil
    rename_i share
    have hhandled := (hshare [file] (List.flatten_singleton)).symm.trans hone
    have hmem : (⟨480, 20, 0, 0, 0⟩ : Handled) ∈ share.map Passed.handled := by
      rw [Option.some.inj hhandled]
      exact List.mem_cons_self
    rw [List.flatten_singleton] at hsublist
    have hfound := (hsublist.map Passed.handled).subset hmem
    rw [hpassed] at hfound
    exact absurd hfound (by decide)

end Tbox.Trace
