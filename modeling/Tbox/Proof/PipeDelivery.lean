import Tbox.Util.AsyncPipe

/-!
# The pipe delivers what was appended

Two invariants, read off `Stepped`: `Shutdown` follows a call of `cleanup` up to the end of the backend, and
`PipeBooks` follows the bytes and counts the buffers.
-/

open List Option

namespace Tbox.Util

open Tbox.Lib (Bytes)

def FrontPc.remain : FrontPc → Bytes
  | .outside => []
  | .copying remain | .waiting remain | .woken remain => remain

def BackPc.inProcess : BackPc → Option Buffer
  | .handing buff _ | .handed buff _ | .freeing buff _ => some buff
  | _ => none

def BackPc.quitting : BackPc → Bool
  | .awake quit _ | .draining quit | .handing _ quit | .handed _ quit | .freeing _ quit => quit
  | .exited => true
  | _ => false

def BackPc.flushed : BackPc → Bool
  | .awake _ _ => false
  | pc => pc.quitting

theorem BackPc.quitting_of_flushed {pc : BackPc} (h : pc.flushed = true) : pc.quitting = true := by
  cases pc <;> first | exact h | cases h

namespace AsyncPipe

def inFlight (s : AsyncPipe) : List Buffer :=
  s.back.inProcess.toList ++ s.fullBuffers ++ s.currBuffer.toList

/-- Everything appended is delivered, once and in order. -/
structure Delivers (s : AsyncPipe) : Prop where
  inOrder : s.inited = true →
    s.delivered ++ s.inFlight.flatMap Buffer.data ++ s.front.remain = s.appended
  counted : s.inited = true → s.buffNum = s.freeBuffers.length + s.fullBuffers.length
    + s.currBuffer.toList.length + s.back.inProcess.toList.length
  bounded : s.inited = true → s.cfg.buffMinNum ≤ s.buffNum ∧ s.buffNum ≤ s.cfg.buffMaxNum
  /-- an appender that sleeps will be given a buffer -/
  served : ∀ remain, s.front = .waiting remain → s.fullBuffers ≠ [] ∨ s.back.inProcess ≠ none
  /-- a `cleanup` without appenders passes its assertion -/
  drained : s.cleaner = .joined → s.concurrent = false → s.fullBuffers = []
  /-- and returns with nothing left behind -/
  complete : s.inited = false → s.concurrent = false → s.delivered = s.appended

inductive Stepped (s : AsyncPipe) : Action → AsyncPipe → Prop where
  | initializePipe (cfg : Config) (hnew : ¬(s.inited ∧ cfg.Accepted)) :
      Stepped s (.initializePipe cfg) (s.initializePipe cfg)
  | appendLock (thread : ThreadId) (hinited : s.inited = true) (hholder : s.holder = none) :
      Stepped s (.appendLock thread) (s.appendLock thread)
  | appendLockless (bytes : Bytes) (hholder : s.holder ≠ none) (hfront : s.front = .outside) :
      Stepped s (.appendLockless bytes) (s.appendLockless bytes)
  | takeBuffer (remain : Bytes) (hfront : s.front = .copying remain) (hcurr : s.currBuffer = none) :
      Stepped s .takeBuffer (s.takeBuffer remain)
  | wakeFront (remain : Bytes) (hfront : s.front = .waiting remain) :
      Stepped s .wakeFront { s with front := .woken remain }
  | retakeBuffer (remain : Bytes) (hfront : s.front = .woken remain) :
      Stepped s .retakeBuffer (s.retakeBuffer remain)
  | copyChunk (remain : Bytes) (buff : Buffer) (hfront : s.front = .copying remain)
      (hcurr : s.currBuffer = some buff) : Stepped s .copyChunk (s.copyChunk buff remain)
  | appendReturn (hfront : s.front = .copying []) :
      Stepped s .appendReturn { s with front := .outside }
  | appendUnlock (hholder : s.holder ≠ none) (hfront : s.front = .outside) :
      Stepped s .appendUnlock s.appendUnlock
  | backHead (hback : s.back = .head) : Stepped s .backHead s.backHead
  | wakeBack (timeout : Bool) (hback : s.back = .waiting) :
      Stepped s (.wakeBack timeout) { s with back := (s.checkWait timeout).getD .waiting }
  | flushCurr (quit timeup : Bool) (hback : s.back = .awake quit timeup) :
      Stepped s .flushCurr (s.flushCurr quit timeup)
  | popFull (quit : Bool) (hback : s.back = .draining quit) : Stepped s .popFull (s.popFull quit)
  | callback (buff : Buffer) (quit : Bool) (hback : s.back = .handing buff quit) :
      Stepped s .callback (s.callback buff quit)
  | dropBuffer (buff : Buffer) (quit : Bool) (hback : s.back = .handed buff quit) :
      Stepped s .dropBuffer (s.dropBuffer buff quit)
  | freeBuffer (buff : Buffer) (quit : Bool) (hback : s.back = .freeing buff quit) :
      Stepped s .freeBuffer (s.freeBuffer buff quit)
  | cleanupStop (hinited : s.inited = true) (hcleaner : s.cleaner = .idle) :
      Stepped s .cleanupStop s.cleanupStop
  | cleanupJoin (hcleaner : s.cleaner = .stopping) (hback : s.back = .exited) :
      Stepped s .cleanupJoin s.cleanupJoin
  | cleanupEnd (hcleaner : s.cleaner = .joined) (hfull : s.fullBuffers = [])
      (hholder : s.holder = none) : Stepped s .cleanupEnd s.cleanupEnd

variable {s t : AsyncPipe} {a : Action}

theorem Stepped.of_step (h : s.step a = some t) : Stepped s a t := by
  cases a with
  | initializePipe cfg =>
    obtain ⟨hnew, ⟨⟩⟩ := ite_none_left_eq_some.mp h
    exact .initializePipe _ hnew
  | appendLock thread =>
    obtain ⟨⟨hinited, hholder⟩, rfl⟩ := ite_some_none_eq_some.mp h
    exact .appendLock _ hinited hholder
  | appendLockless bytes =>
    obtain ⟨⟨hholder, hfront⟩, rfl⟩ := ite_some_none_eq_some.mp h
    exact .appendLockless _ hholder hfront
  | takeBuffer =>
    simp only [step] at h
    split at h
    · obtain ⟨⟨hcurr, -⟩, rfl⟩ := ite_some_none_eq_some.mp h
      exact .takeBuffer _ ‹_› hcurr
    · cases h
  | wakeFront =>
    simp only [step] at h
    split at h
    · exact some.inj h ▸ .wakeFront _ ‹_›
    · cases h
  | retakeBuffer =>
    simp only [step] at h
    split at h
    · exact some.inj h ▸ .retakeBuffer _ ‹_›
    · cases h
  | copyChunk =>
    simp only [step] at h
    split at h
    · obtain ⟨-, rfl⟩ := ite_some_none_eq_some.mp h
      exact .copyChunk _ _ ‹_› ‹_›
    · cases h
  | appendReturn =>
    obtain ⟨hfront, rfl⟩ := ite_some_none_eq_some.mp h
    exact .appendReturn hfront
  | appendUnlock =>
    obtain ⟨⟨hholder, hfront⟩, rfl⟩ := ite_some_none_eq_some.mp h
    exact .appendUnlock hholder hfront
  | backHead =>
    obtain ⟨hback, rfl⟩ := ite_some_none_eq_some.mp h
    exact .backHead hback
  | wakeBack timeout =>
    obtain ⟨hback, rfl⟩ := ite_some_none_eq_some.mp h
    exact .wakeBack _ hback
  | flushCurr =>
    simp only [step] at h
    split at h
    · exact some.inj h ▸ .flushCurr _ _ ‹_›
    · cases h
  | popFull =>
    simp only [step] at h
    split at h
    · exact some.inj h ▸ .popFull _ ‹_›
    · cases h
  | callback =>
    simp only [step] at h
    split at h
    · exact some.inj h ▸ .callback _ _ ‹_›
    · cases h
  | dropBuffer =>
    simp only [step] at h
    split at h
    · exact some.inj h ▸ .dropBuffer _ _ ‹_›
    · cases h
  | freeBuffer =>
    simp only [step] at h
    split at h
    · exact some.inj h ▸ .freeBuffer _ _ ‹_›
    · cases h
  | cleanupStop =>
    obtain ⟨⟨hinited, hcleaner⟩, rfl⟩ := ite_some_none_eq_some.mp h
    exact .cleanupStop hinited hcleaner
  | cleanupJoin =>
    obtain ⟨⟨hcleaner, hback⟩, rfl⟩ := ite_some_none_eq_some.mp h
    exact .cleanupJoin hcleaner hback
  | cleanupEnd =>
    obtain ⟨⟨hcleaner, hfull, hholder⟩, rfl⟩ := ite_some_none_eq_some.mp h
    exact .cleanupEnd hcleaner hfull hholder

/-- Where a `cleanup` stands and what the backend has done about it. -/
structure Shutdown (s : AsyncPipe) : Prop where
  off : s.inited = false → s.back = .exited ∧ s.cleaner = .idle ∧ s.stopSignal = false ∧
    s.holder = none ∧ s.fullBuffers = [] ∧ s.currBuffer = none ∧ s.freeBuffers = []
  held : s.front ≠ .outside → s.holder ≠ none
  asked : s.stopSignal = true → s.cleaner ≠ .idle
  quitting : s.inited = true → s.back.quitting = true → s.cleaner ≠ .idle
  joined : s.cleaner = .joined → s.back = .exited ∧ s.stopSignal = false
  alone : s.cleaner ≠ .idle → s.concurrent = false → s.holder = none
  flushed : s.cleaner ≠ .idle → s.concurrent = false → s.back.flushed = true → s.currBuffer = none
  drained : s.cleaner ≠ .idle → s.concurrent = false → s.back = .exited → s.fullBuffers = []

theorem Shutdown.under_lock (hs : s.Shutdown) (hholder : s.holder ≠ none)
    (hsame : (t.inited, t.holder, t.back, t.cleaner, t.stopSignal, t.concurrent)
      = (s.inited, s.holder, s.back, s.cleaner, s.stopSignal, s.concurrent)) : t.Shutdown := by
  simp only [Prod.mk.injEq] at hsame
  obtain ⟨hinited, hholder', hback, hcleaner, hstop, hconcurrent⟩ := hsame
  have hcrowd : t.cleaner ≠ .idle → t.concurrent = false → False := by
    intro hbusy hquiet
    rw [hcleaner] at hbusy
    rw [hconcurrent] at hquiet
    exact hholder (hs.alone hbusy hquiet)
  refine ⟨fun hoff => ?_, fun _ => ?_, fun h => ?_, fun h hquit => ?_, fun h => ?_,
    fun hbusy hquiet => (hcrowd hbusy hquiet).elim, fun hbusy hquiet => (hcrowd hbusy hquiet).elim,
    fun hbusy hquiet => (hcrowd hbusy hquiet).elim⟩
  · exact absurd (hs.off (hinited ▸ hoff)).2.2.2.1 hholder
  · rw [hholder']
    exact hholder
  · rw [hcleaner]
    exact hs.asked (hstop ▸ h)
  · rw [hcleaner]
    exact hs.quitting (hinited ▸ h) (hback ▸ hquit)
  · rw [hback, hstop]
    exact hs.joined (hcleaner ▸ h)

theorem Shutdown.by_backend (hs : s.Shutdown) (hback : s.back ≠ .exited)
    (hsame : (t.inited, t.holder, t.cleaner, t.stopSignal, t.concurrent)
      = (s.inited, s.holder, s.cleaner, s.stopSignal, s.concurrent))
    (hfront : t.front ≠ .outside → s.front ≠ .outside)
    (hquitting : t.back.quitting = true → s.back.quitting = true ∨ s.stopSignal = true)
    (hflushed : t.back.flushed = true →
      t.currBuffer = none ∨ (s.back.flushed = true ∧ t.currBuffer = s.currBuffer) ∨ s.holder ≠ none)
    (hdrained : t.back = .exited → t.fullBuffers = []) : t.Shutdown := by
  simp only [Prod.mk.injEq] at hsame
  obtain ⟨hinited, hholder, hcleaner, hstop, hconcurrent⟩ := hsame
  refine ⟨fun hoff => ?_, fun h => ?_, fun h => ?_, fun h hquit => ?_, fun h => ?_,
    fun hbusy hquiet => ?_, fun hbusy hquiet h => ?_, fun _ _ => hdrained⟩
  · exact absurd (hs.off (hinited ▸ hoff)).1 hback
  · rw [hholder]
    exact hs.held (hfront h)
  · rw [hcleaner]
    exact hs.asked (hstop ▸ h)
  · rw [hcleaner]
    rcases hquitting hquit with hquit | hset
    · exact hs.quitting (hinited ▸ h) hquit
    · exact hs.asked hset
  · exact absurd (hs.joined (hcleaner ▸ h)).1 hback
  · rw [hholder]
    exact hs.alone (hcleaner ▸ hbusy) (hconcurrent ▸ hquiet)
  rw [hcleaner] at hbusy
  rw [hconcurrent] at hquiet
  rcases hflushed h with hnone | ⟨hbefore, hcurr⟩ | hheld
  · exact hnone
  · rw [hcurr]
    exact hs.flushed hbusy hquiet hbefore
  · exact absurd (hs.alone hbusy hquiet) hheld

theorem checkWait_pc (s : AsyncPipe) (timeout : Bool) :
    ∃ pc, (s.checkWait timeout).getD .waiting = pc ∧ (pc.quitting = true → s.stopSignal = true) ∧
      pc.flushed = false ∧ pc ≠ .exited ∧ pc.inProcess = none := by
  refine ⟨_, rfl, ?_⟩
  unfold checkWait
  repeat' split
  · exact ⟨fun _ => ‹_›, rfl, nofun, rfl⟩
  · exact ⟨nofun, rfl, nofun, rfl⟩
  · exact ⟨nofun, rfl, nofun, rfl⟩
  · exact ⟨nofun, rfl, nofun, rfl⟩

theorem Shutdown.awoken (hs : s.Shutdown) (timeout : Bool) (hback : s.back ≠ .exited) :
    Shutdown { s with back := (s.checkWait timeout).getD .waiting } := by
  obtain ⟨pc, hpc, hquit, hflushed, hexited, -⟩ := s.checkWait_pc timeout
  rw [hpc]
  refine hs.by_backend hback rfl id (fun h => .inr (hquit h)) (fun h => ?_) fun h => absurd h hexited
  rw [show pc.flushed = true from h] at hflushed
  cases hflushed

theorem Shutdown.initializePipe (hs : s.Shutdown) (cfg : Config) (hnew : ¬(s.inited ∧ cfg.Accepted)) :
    (s.initializePipe cfg).Shutdown := by
  unfold AsyncPipe.initializePipe
  split
  · rename_i haccepted
    have hoff : s.inited = false := by
      by_contra hon
      exact hnew ⟨by simpa using hon, haccepted⟩
    obtain ⟨-, hcleaner, hstop, -⟩ := hs.off hoff
    exact ⟨nofun, hs.held, hs.asked, nofun, fun h => absurd (hcleaner.symm.trans h) nofun, hs.alone, nofun, nofun⟩
  · exact hs

/-- The backend gets to the end of a `cleanup` by steps that keep what it has seen. -/
theorem Shutdown.stepped (hs : s.Shutdown) (h : Stepped s a t) : t.Shutdown := by
  have hinside : s.front ≠ .outside → s.inited = true ∧ s.holder ≠ none := by
    intro hfront
    refine ⟨?_, hs.held hfront⟩
    by_contra hoff
    exact hs.held hfront (hs.off (by simpa using hoff)).2.2.2.1
  have hlocked : ∀ {u : AsyncPipe}, s.front ≠ .outside →
      (u.inited, u.holder, u.back, u.cleaner, u.stopSignal, u.concurrent)
        = (s.inited, s.holder, s.back, s.cleaner, s.stopSignal, s.concurrent) → u.Shutdown :=
    fun hfront hsame => hs.under_lock (hinside hfront).2 hsame
  cases h with
  | initializePipe cfg hnew => exact hs.initializePipe cfg hnew
  | appendLock thread hinited hholder =>
    refine ⟨fun hoff => absurd (hinited.symm.trans hoff) nofun, fun _ => nofun, hs.asked, hs.quitting,
      hs.joined, fun _ => nofun, fun _ => nofun, fun _ => nofun⟩
  | appendLockless bytes hholder hfront => exact hs.under_lock hholder rfl
  | takeBuffer remain hfront hcurr =>
    refine hlocked (by rw [hfront]; nofun) ?_
    unfold takeBuffer popFree
    repeat' split
    all_goals rfl
  | wakeFront remain hfront => exact hlocked (by rw [hfront]; nofun) rfl
  | retakeBuffer remain hfront =>
    refine hlocked (by rw [hfront]; nofun) ?_
    unfold retakeBuffer popFree
    split <;> rfl
  | copyChunk remain buff hfront hcurr =>
    refine hlocked (by rw [hfront]; nofun) ?_
    unfold copyChunk
    dsimp only
    split <;> rfl
  | appendReturn hfront => exact hlocked (by rw [hfront]; nofun) rfl
  | appendUnlock hholder hfront =>
    refine { hs with off := fun hoff => ?_, held := fun hne => absurd hfront hne, alone := fun _ _ => rfl }
    exact absurd (hs.off hoff).2.2.2.1 hholder
  | backHead hback =>
    unfold backHead
    split
    · exact hs.awoken false (by rw [hback]; nofun)
    · exact hs.by_backend (by rw [hback]; nofun) rfl id nofun nofun nofun
  | wakeBack timeout hback => exact hs.awoken timeout (by rw [hback]; nofun)
  | flushCurr quit timeup hback =>
    have hworking : s.back ≠ .exited := by rw [hback]; nofun
    unfold flushCurr
    split
    · exact hs.by_backend hworking rfl id (fun hquit => .inl (by rw [hback]; exact hquit))
        (fun _ => .inl rfl) nofun
    rename_i hheld
    refine hs.by_backend hworking rfl id (fun hquit => .inl (by rw [hback]; exact hquit))
      (fun hquit => .inr (.inr fun hnone => hheld ⟨?_, hnone⟩)) nofun
    rw [show quit = true from hquit, Bool.or_true]
  | popFull quit hback =>
    have hworking : s.back ≠ .exited := by rw [hback]; nofun
    unfold popFull
    split
    · exact hs.by_backend hworking rfl id (fun hquit => .inl (by rw [hback]; exact hquit))
        (fun hquit => .inr (.inl ⟨by rw [hback]; exact hquit, rfl⟩)) nofun
    rename_i hfull
    refine hs.by_backend hworking rfl id (fun hquit => .inl ?_) (fun hquit => .inr (.inl ⟨?_, rfl⟩)) fun _ => hfull
    · rw [hback]
      cases quit
      · cases hquit
      · rfl
    · rw [hback]
      cases quit
      · cases hquit
      · rfl
  | callback buff quit hback =>
    exact hs.by_backend (by rw [hback]; nofun) rfl id (fun hquit => .inl (by rw [hback]; exact hquit))
      (fun hquit => .inr (.inl ⟨by rw [hback]; exact hquit, rfl⟩)) nofun
  | dropBuffer buff quit hback =>
    have hworking : s.back ≠ .exited := by rw [hback]; nofun
    unfold dropBuffer
    split
    all_goals
      exact hs.by_backend hworking rfl id (fun hquit => .inl (by rw [hback]; exact hquit))
        (fun hquit => .inr (.inl ⟨by rw [hback]; exact hquit, rfl⟩)) nofun
  | freeBuffer buff quit hback =>
    refine hs.by_backend (by rw [hback]; nofun) rfl (fun hfront hout => ?_)
      (fun hquit => .inl (by rw [hback]; exact hquit))
      (fun hquit => .inr (.inl ⟨by rw [hback]; exact hquit, rfl⟩)) nofun
    exact hfront (by simp only [freeBuffer, hout])
  | cleanupStop hinited hcleaner =>
    refine ⟨fun hoff => absurd (hinited.symm.trans hoff) nofun, hs.held, fun _ => nofun,
      fun _ _ => nofun, nofun, fun _ hquiet => ?_, fun _ hquiet hquit => ?_, fun _ _ hexited => ?_⟩
    · simpa [cleanupStop] using hquiet
    · exact absurd hcleaner (hs.quitting hinited (BackPc.quitting_of_flushed hquit))
    · refine absurd hcleaner (hs.quitting hinited ?_)
      rw [show s.back = .exited from hexited]
      rfl
  | cleanupJoin hcleaner hback =>
    have hbusy : s.cleaner ≠ .idle := by rw [hcleaner]; nofun
    exact ⟨fun hoff => absurd (hs.off hoff).2.1 hbusy, hs.held, nofun, fun _ _ => nofun, fun _ => ⟨hback, rfl⟩,
      fun _ => hs.alone hbusy, fun _ => hs.flushed hbusy, fun _ => hs.drained hbusy⟩
  | cleanupEnd hcleaner hfull hholder =>
    obtain ⟨hexited, hstop⟩ := hs.joined hcleaner
    exact ⟨fun _ => ⟨hexited, rfl, hstop, hholder, hfull, rfl, rfl⟩, hs.held,
      fun hset => absurd (hstop.symm.trans hset) nofun, nofun, nofun, nofun, nofun, nofun⟩

/-- The bytes appended and not yet delivered. -/
def pending (s : AsyncPipe) : Bytes := s.inFlight.flatMap Buffer.data ++ s.front.remain

structure PipeBooks (s : AsyncPipe) : Prop where
  accepted : s.cfg.Accepted
  inOrder : s.delivered ++ s.pending = s.appended
  counted : s.buffNum = s.freeBuffers.length + s.inFlight.length
  bounded : s.cfg.buffMinNum ≤ s.buffNum ∧ s.buffNum ≤ s.cfg.buffMaxNum
  blank : ∀ buff ∈ s.freeBuffers, buff.data = []
  emptied : ∀ buff quit, s.back = .handed buff quit ∨ s.back = .freeing buff quit → buff.data = []
  asleep : ∀ remain, s.front = .waiting remain → s.freeBuffers = [] ∧ s.currBuffer = none
  awoken : ∀ remain, s.front = .woken remain → s.currBuffer = none

theorem inFlight_of_back {pc : BackPc} {held : Option Buffer} (hback : s.back = pc) (hheld : pc.inProcess = held) :
    s.inFlight = held.toList ++ s.fullBuffers ++ s.currBuffer.toList := by
  rw [inFlight, hback, hheld]

variable {remain : Bytes}

theorem PipeBooks.popFree (hb : s.PipeBooks) (hremain : s.front.remain = remain)
    (hcurr : s.currBuffer = none) (hfree : s.freeBuffers ≠ []) : (s.popFree remain).PipeBooks := by
  obtain ⟨buffs, buff, hbuffs⟩ := (eq_nil_or_concat s.freeBuffers).resolve_left hfree
  rw [concat_eq_append] at hbuffs
  have hpop : s.popFree remain = { s with
      currBuffer := some buff, freeBuffers := buffs, front := .copying remain } := by
    rw [AsyncPipe.popFree, hbuffs, List.getLast?_concat, dropLast_concat]
  have hbuff : buff.data = [] := hb.blank buff (by rw [hbuffs]; simp)
  have hflight : (s.popFree remain).inFlight = s.inFlight ++ [buff] := by
    rw [hpop, inFlight, inFlight, hcurr]
    simp
  refine ⟨hpop ▸ hb.accepted, ?_, ?_, hpop ▸ hb.bounded, ?_, hpop ▸ hb.emptied, ?_, ?_⟩
  · have horder := hb.inOrder
    rw [pending, hremain] at horder
    have hbytes : (s.inFlight ++ [buff]).flatMap Buffer.data = s.inFlight.flatMap Buffer.data := by
      simp [hbuff]
    rw [pending, hflight, hbytes, hpop]
    exact horder
  · have hcount := hb.counted
    rw [hflight, hpop]
    rw [hbuffs] at hcount
    simp only [length_append, length_singleton] at hcount ⊢
    omega
  · rw [hpop]
    intro free hmem
    refine hb.blank free ?_
    rw [hbuffs]
    exact mem_append_left _ hmem
  · rw [hpop]
    nofun
  · rw [hpop]
    nofun

theorem PipeBooks.takeBuffer (hb : s.PipeBooks) (hfront : s.front = .copying remain)
    (hcurr : s.currBuffer = none) : (s.takeBuffer remain).PipeBooks := by
  have hremain : s.front.remain = remain := by rw [hfront]; rfl
  unfold AsyncPipe.takeBuffer
  split
  · rename_i hfree
    split
    · rename_i hroom
      have hgrown : PipeBooks { s with
          buffNum := s.buffNum + 1, freeBuffers := s.freeBuffers ++ [{ capacity := s.cfg.buffSize }] } := by
        refine ⟨hb.accepted, hb.inOrder, ?_, ?_, ?_, hb.emptied, ?_, hb.awoken⟩
        · have hcount := hb.counted
          show s.buffNum + 1 = (s.freeBuffers ++ [_]).length + s.inFlight.length
          rw [length_append, length_singleton]
          omega
        · have hbounds := hb.bounded
          exact ⟨Nat.le_succ_of_le hbounds.1, hroom⟩
        · intro buff hmem
          rcases mem_append.mp hmem with hmem | hmem
          · exact hb.blank buff hmem
          · rw [mem_singleton.mp hmem]
        · exact fun _ hwaiting => absurd (hfront.symm.trans hwaiting) nofun
      exact hgrown.popFree hremain hcurr (by simp)
    · refine { hb with inOrder := ?_, asleep := fun _ _ => ⟨hfree, hcurr⟩, awoken := nofun }
      have horder := hb.inOrder
      rw [pending, hremain] at horder
      exact horder
  · exact hb.popFree hremain hcurr ‹_›

theorem PipeBooks.retakeBuffer (hb : s.PipeBooks) (hfront : s.front = .woken remain) :
    (s.retakeBuffer remain).PipeBooks := by
  have hremain : s.front.remain = remain := by rw [hfront]; rfl
  have hcurr := hb.awoken remain hfront
  unfold AsyncPipe.retakeBuffer
  split
  · refine { hb with inOrder := ?_, asleep := fun _ _ => ⟨‹_›, hcurr⟩, awoken := nofun }
    have horder := hb.inOrder
    rw [pending, hremain] at horder
    exact horder
  · exact hb.popFree hremain hcurr ‹_›

variable {buff : Buffer}

theorem PipeBooks.copyChunk (hb : s.PipeBooks)
    (hfront : s.front = .copying remain) (hcurr : s.currBuffer = some buff) :
    (s.copyChunk buff remain).PipeBooks := by
  have hbefore : s.inFlight = s.back.inProcess.toList ++ s.fullBuffers ++ [buff] := by
    rw [inFlight, hcurr]
    rfl
  have hafter : (s.copyChunk buff remain).inFlight
      = s.back.inProcess.toList ++ s.fullBuffers ++ [(buff.append remain).2] := by
    unfold AsyncPipe.copyChunk
    dsimp only
    split <;> simp [inFlight]
  have hrest : (s.copyChunk buff remain).front = .copying (remain.drop (buff.append remain).1) := by
    unfold AsyncPipe.copyChunk
    dsimp only
    split <;> rfl
  have hframe : ∃ currBuffer fullBuffers front, s.copyChunk buff remain = { s with
      currBuffer := currBuffer, fullBuffers := fullBuffers, front := front } := by
    unfold AsyncPipe.copyChunk
    dsimp only
    split <;> exact ⟨_, _, _, rfl⟩
  obtain ⟨currBuffer, fullBuffers, front, hframe⟩ := hframe
  refine ⟨hframe ▸ hb.accepted, ?_, ?_, hframe ▸ hb.bounded, hframe ▸ hb.blank, hframe ▸ hb.emptied, ?_, ?_⟩
  · have horder := hb.inOrder
    have hchunk : (buff.append remain).2.data ++ remain.drop (buff.append remain).1
        = buff.data ++ remain := by
      show (buff.data ++ remain.take (buff.append remain).1) ++ _ = _
      rw [append_assoc, take_append_drop]
    rw [pending, hbefore, hfront] at horder
    rw [pending, hafter, hrest, hframe]
    simp only [flatMap_append, flatMap_singleton, FrontPc.remain, append_assoc] at horder ⊢
    rw [hchunk]
    exact horder
  · have hcount := hb.counted
    rw [hafter, hframe, length_append, length_singleton]
    rw [hbefore, length_append, length_singleton] at hcount
    exact hcount
  · rw [hrest]
    nofun
  · rw [hrest]
    nofun

theorem PipeBooks.by_back (hb : s.PipeBooks) {pc : BackPc} (hheld : pc.inProcess = s.back.inProcess)
    (hemptied : ∀ buff quit, pc = .handed buff quit ∨ pc = .freeing buff quit → buff.data = []) :
    PipeBooks { s with back := pc } := by
  have hflight : inFlight { s with back := pc } = s.inFlight := by
    rw [inFlight, inFlight, hheld]
  refine { hb with inOrder := ?_, counted := ?_, emptied := hemptied }
  · rw [pending, hflight]
    exact hb.inOrder
  · rw [hflight]
    exact hb.counted

theorem PipeBooks.awake (hb : s.PipeBooks) (timeout : Bool) (hheld : s.back.inProcess = none) :
    PipeBooks { s with back := (s.checkWait timeout).getD .waiting } := by
  obtain ⟨pc, hpc, -, -, -, hnone⟩ := s.checkWait_pc timeout
  rw [hpc]
  refine hb.by_back (hnone.trans hheld.symm) fun buff quit hbuff => ?_
  rcases hbuff with rfl | rfl <;> cases hnone

theorem PipeBooks.flushCurr (hb : s.PipeBooks) {quit timeup : Bool}
    (hback : s.back = .awake quit timeup) : (s.flushCurr quit timeup).PipeBooks := by
  unfold AsyncPipe.flushCurr
  split
  · have hflight : inFlight { s with
        currBuffer := none
        fullBuffers := s.fullBuffers ++ s.currBuffer.toList
        back := .draining quit } = s.inFlight := by
      rw [inFlight, inFlight, hback]
      simp [BackPc.inProcess]
    refine ⟨hb.accepted, ?_, ?_, hb.bounded, hb.blank, nofun,
      fun remain hwaiting => ⟨(hb.asleep remain hwaiting).1, rfl⟩, fun _ _ => rfl⟩
    · rw [pending, hflight]
      exact hb.inOrder
    · rw [hflight]
      exact hb.counted
  · exact hb.by_back (by rw [hback]; rfl) nofun

variable {quit : Bool}

theorem PipeBooks.popFull (hb : s.PipeBooks) (hback : s.back = .draining quit) :
    (s.popFull quit).PipeBooks := by
  unfold AsyncPipe.popFull
  split
  · rename_i buff rest hfull
    have hflight : inFlight { s with fullBuffers := rest, back := .handing buff quit }
        = s.inFlight := by
      rw [inFlight, inFlight, hback, hfull]
      rfl
    refine { hb with inOrder := ?_, counted := ?_, emptied := nofun }
    · rw [pending, hflight]
      exact hb.inOrder
    · rw [hflight]
      exact hb.counted
  · refine hb.by_back ?_ ?_
    · rw [hback]
      cases quit <;> rfl
    · cases quit <;> nofun

theorem PipeBooks.callback (hb : s.PipeBooks)
    (hback : s.back = .handing buff quit) : (s.callback buff quit).PipeBooks := by
  have hbefore : s.inFlight = buff :: (s.fullBuffers ++ s.currBuffer.toList) := inFlight_of_back hback rfl
  have hafter : (s.callback buff quit).inFlight = buff.reset :: (s.fullBuffers ++ s.currBuffer.toList) := rfl
  refine { hb with inOrder := ?_, counted := ?_, emptied := fun kept _ hkept => ?_ }
  · have horder := hb.inOrder
    rw [pending, hbefore, flatMap_cons] at horder
    rw [pending, hafter, flatMap_cons]
    show (s.delivered ++ buff.data) ++ ([] ++ _ ++ s.front.remain) = s.appended
    rw [nil_append, append_assoc, ← append_assoc buff.data]
    exact horder
  · have hcount := hb.counted
    rw [hbefore] at hcount
    rw [hafter]
    exact hcount
  · rcases hkept with hkept | hkept <;> cases hkept
    rfl

theorem PipeBooks.dropBuffer (hb : s.PipeBooks)
    (hback : s.back = .handed buff quit) : (s.dropBuffer buff quit).PipeBooks := by
  have hbuff := hb.emptied buff quit (.inl hback)
  have hbefore : s.inFlight = buff :: (s.fullBuffers ++ s.currBuffer.toList) := inFlight_of_back hback rfl
  unfold AsyncPipe.dropBuffer
  split
  · rename_i hsurplus
    refine ⟨hb.accepted, ?_, ?_, ?_, hb.blank, nofun, hb.asleep, hb.awoken⟩
    · have horder := hb.inOrder
      rw [pending, hbefore, flatMap_cons, hbuff] at horder
      exact horder
    · have hcount := hb.counted
      rw [hbefore, length_cons] at hcount
      show s.buffNum - 1 = s.freeBuffers.length + (s.fullBuffers ++ s.currBuffer.toList).length
      omega
    · have hbounds := hb.bounded
      exact ⟨Nat.le_pred_of_lt hsurplus, (Nat.sub_le _ _).trans hbounds.2⟩
  · refine hb.by_back (by rw [hback]; rfl) fun kept _ hkept => ?_
    rcases hkept with hkept | hkept <;> cases hkept
    exact hbuff

theorem PipeBooks.freeBuffer (hb : s.PipeBooks)
    (hback : s.back = .freeing buff quit) : (s.freeBuffer buff quit).PipeBooks := by
  have hbuff := hb.emptied buff quit (.inr hback)
  have hbefore : s.inFlight = buff :: (s.fullBuffers ++ s.currBuffer.toList) := inFlight_of_back hback rfl
  have hafter : (s.freeBuffer buff quit).inFlight = s.fullBuffers ++ s.currBuffer.toList := rfl
  refine ⟨hb.accepted, ?_, ?_, hb.bounded, fun free hmem => ?_, fun _ _ hkept => ?_, fun remain hwaiting => ?_,
    fun remain hwoken => ?_⟩
  · have horder := hb.inOrder
    have hremain : (s.freeBuffer buff quit).front.remain = s.front.remain := by
      rw [AsyncPipe.freeBuffer]
      cases s.front <;> rfl
    rw [pending, hbefore, flatMap_cons, hbuff] at horder
    rw [pending, hafter, hremain]
    exact horder
  · have hcount := hb.counted
    rw [hbefore, length_cons] at hcount
    rw [hafter]
    show s.buffNum = (s.freeBuffers ++ [buff]).length + _
    rw [length_append, length_singleton]
    omega
  · rcases mem_append.mp hmem with hmem | hmem
    · exact hb.blank free hmem
    · rw [mem_singleton.mp hmem]
      exact hbuff
  · rcases hkept with hkept | hkept <;> cases hkept
  · simp only [AsyncPipe.freeBuffer] at hwaiting
    split at hwaiting
    · cases hwaiting
    · exact absurd hwaiting (‹∀ remain, s.front = .waiting remain → False› remain)
  · simp only [AsyncPipe.freeBuffer] at hwoken
    split at hwoken
    · exact (hb.asleep _ ‹_›).2
    · exact hb.awoken remain hwoken

/-- Bytes and buffers are neither lost nor made by a step. -/
theorem PipeBooks.stepped (hb : s.PipeBooks) (hwas : s.inited = true)
    (h : Stepped s a t) (hon : t.inited = true) : t.PipeBooks := by
  cases h with
  | initializePipe cfg hnew =>
    have hrefused : ¬cfg.Accepted := fun haccepted => hnew ⟨hwas, haccepted⟩
    rw [AsyncPipe.initializePipe, if_neg hrefused]
    exact hb
  | appendLock thread hinited hholder =>
    exact { hb with }
  | appendLockless bytes hholder hfront =>
    refine { hb with inOrder := ?_, asleep := nofun, awoken := nofun }
    have horder := hb.inOrder
    rw [pending, hfront] at horder
    simp only [FrontPc.remain, append_nil] at horder
    show s.delivered ++ (s.inFlight.flatMap Buffer.data ++ bytes) = s.appended ++ bytes
    rw [← append_assoc, horder]
  | takeBuffer remain hfront hcurr => exact hb.takeBuffer hfront hcurr
  | wakeFront remain hfront =>
    refine { hb with inOrder := ?_, asleep := nofun, awoken := fun _ _ => (hb.asleep remain hfront).2 }
    have horder := hb.inOrder
    rw [pending, hfront] at horder
    exact horder
  | retakeBuffer remain hfront => exact hb.retakeBuffer hfront
  | copyChunk remain buff hfront hcurr => exact hb.copyChunk hfront hcurr
  | appendReturn hfront =>
    refine { hb with inOrder := ?_, asleep := nofun, awoken := nofun }
    have horder := hb.inOrder
    rw [pending, hfront] at horder
    exact horder
  | appendUnlock hholder hfront =>
    exact { hb with }
  | backHead hback =>
    unfold backHead
    split
    · exact hb.awake false (by rw [hback]; rfl)
    · exact hb.by_back (by rw [hback]; rfl) nofun
  | wakeBack timeout hback => exact hb.awake timeout (by rw [hback]; rfl)
  | flushCurr quit timeup hback => exact hb.flushCurr hback
  | popFull quit hback => exact hb.popFull hback
  | callback buff quit hback => exact hb.callback hback
  | dropBuffer buff quit hback => exact hb.dropBuffer hback
  | freeBuffer buff quit hback => exact hb.freeBuffer hback
  | cleanupStop hinited hcleaner =>
    exact { hb with }
  | cleanupJoin hcleaner hback =>
    exact { hb with }
  | cleanupEnd hcleaner hfull hholder => cases hon

structure PipeSound (s : AsyncPipe) : Prop where
  shutdown : s.Shutdown
  books : s.inited = true → s.PipeBooks
  complete : s.inited = false → s.concurrent = false → s.delivered = s.appended

theorem PipeBooks.of_initializePipe (hs : s.Shutdown) {cfg : Config} (haccepted : cfg.Accepted)
    (hoff : s.inited = false) : (s.initializePipe cfg).PipeBooks := by
  obtain ⟨hback, -, -, hholder, hfull, hcurr, hfree⟩ := hs.off hoff
  have hfront : s.front = .outside := by
    by_contra hinside
    exact hs.held hinside hholder
  rw [AsyncPipe.initializePipe, if_pos haccepted, hfree, nil_append]
  refine ⟨haccepted, ?_, ?_, ⟨Nat.le_refl _, haccepted.2.2.1⟩, fun buff hmem => ?_, nofun, ?_, ?_⟩
  · simp [pending, inFlight, hfull, hcurr, hfront, BackPc.inProcess, FrontPc.remain]
  · simp [inFlight, hfull, hcurr, BackPc.inProcess]
  · rw [eq_of_mem_replicate hmem]
  · exact fun _ hwaiting => absurd (hfront.symm.trans hwaiting) nofun
  · exact fun _ hwoken => absurd (hfront.symm.trans hwoken) nofun

theorem Stepped.of_off (hs : s.Shutdown) (hoff : s.inited = false) (h : Stepped s a t) :
    ∃ cfg, t = s.initializePipe cfg := by
  obtain ⟨hback, hcleaner, -, hholder, -⟩ := hs.off hoff
  have hfront : s.front = .outside := by
    by_contra hinside
    exact hs.held hinside hholder
  have hnotOn : s.inited ≠ true := by rw [hoff]; nofun
  cases h with
  | initializePipe cfg => exact ⟨cfg, rfl⟩
  | appendLock _ hon => exact absurd hon hnotOn
  | appendLockless _ hheld => exact absurd hholder hheld
  | takeBuffer _ hinside => exact absurd (hfront.symm.trans hinside) nofun
  | wakeFront _ hinside => exact absurd (hfront.symm.trans hinside) nofun
  | retakeBuffer _ hinside => exact absurd (hfront.symm.trans hinside) nofun
  | copyChunk _ _ hinside => exact absurd (hfront.symm.trans hinside) nofun
  | appendReturn hinside => exact absurd (hfront.symm.trans hinside) nofun
  | appendUnlock hheld => exact absurd hholder hheld
  | backHead hat => exact absurd (hback.symm.trans hat) nofun
  | wakeBack _ hat => exact absurd (hback.symm.trans hat) nofun
  | flushCurr _ _ hat => exact absurd (hback.symm.trans hat) nofun
  | popFull _ hat => exact absurd (hback.symm.trans hat) nofun
  | callback _ _ hat => exact absurd (hback.symm.trans hat) nofun
  | dropBuffer _ _ hat => exact absurd (hback.symm.trans hat) nofun
  | freeBuffer _ _ hat => exact absurd (hback.symm.trans hat) nofun
  | cleanupStop hon => exact absurd hon hnotOn
  | cleanupJoin hat => exact absurd (hcleaner.symm.trans hat) nofun
  | cleanupEnd hat => exact absurd (hcleaner.symm.trans hat) nofun

theorem inited_takeBuffer (s : AsyncPipe) (remain : Bytes) : (s.takeBuffer remain).inited = s.inited := by
  unfold takeBuffer
  repeat' split
  all_goals rfl

theorem Stepped.cleanupEnd_of_inited (hon : s.inited = true) (h : Stepped s a t)
    (hoff : t.inited = false) : s.cleaner = .joined ∧ t = s.cleanupEnd := by
  have hsame : t.inited = s.inited → s.cleaner = .joined ∧ t = s.cleanupEnd := by
    intro heq
    rw [heq, hon] at hoff
    cases hoff
  cases h with
  | initializePipe cfg =>
    unfold AsyncPipe.initializePipe at *
    split at hoff
    · cases hoff
    · exact absurd (hon.symm.trans hoff) nofun
  | takeBuffer remain => exact hsame (inited_takeBuffer s remain)
  | retakeBuffer remain => exact hsame (by unfold AsyncPipe.retakeBuffer; split <;> rfl)
  | copyChunk remain buff => exact hsame (by unfold AsyncPipe.copyChunk; dsimp only; split <;> rfl)
  | backHead => exact hsame (by unfold AsyncPipe.backHead; split <;> rfl)
  | flushCurr quit timeup => exact hsame (by unfold AsyncPipe.flushCurr; split <;> rfl)
  | popFull quit => exact hsame (by unfold AsyncPipe.popFull; split <;> rfl)
  | dropBuffer buff quit => exact hsame (by unfold AsyncPipe.dropBuffer; split <;> rfl)
  | cleanupEnd hcleaner => exact ⟨hcleaner, rfl⟩
  | _ => exact hsame rfl

theorem PipeBooks.complete (hb : s.PipeBooks) (hs : s.Shutdown) (hjoined : s.cleaner = .joined)
    (hquiet : s.concurrent = false) : s.delivered = s.appended := by
  have hbusy : s.cleaner ≠ .idle := by rw [hjoined]; nofun
  have hexited := (hs.joined hjoined).1
  have hcurr := hs.flushed hbusy hquiet (by rw [hexited]; rfl)
  have hfull := hs.drained hbusy hquiet hexited
  have hfront : s.front = .outside := by
    by_contra hinside
    exact hs.held hinside (hs.alone hbusy hquiet)
  have horder := hb.inOrder
  rw [pending, inFlight, hexited, hcurr, hfull, hfront] at horder
  simpa [BackPc.inProcess, FrontPc.remain] using horder

/-- While the pipe is on its books are kept, and when it is off all has been delivered. -/
theorem PipeSound.stepped (hp : s.PipeSound) (h : Stepped s a t) : t.PipeSound := by
  refine ⟨hp.shutdown.stepped h, fun hon => ?_, fun hoff hquiet => ?_⟩
  · cases hwas : s.inited with
    | true => exact (hp.books hwas).stepped hwas h hon
    | false =>
      obtain ⟨cfg, rfl⟩ := h.of_off hp.shutdown hwas
      by_cases haccepted : cfg.Accepted
      · exact .of_initializePipe hp.shutdown haccepted hwas
      · rw [initializePipe, if_neg haccepted, hwas] at hon
        cases hon
  · cases hwas : s.inited with
    | true =>
      obtain ⟨hjoined, rfl⟩ := h.cleanupEnd_of_inited hwas hoff
      exact (hp.books hwas).complete hp.shutdown hjoined hquiet
    | false =>
      obtain ⟨cfg, rfl⟩ := h.of_off hp.shutdown hwas
      unfold initializePipe at *
      split at hoff
      · cases hoff
      · rw [if_neg ‹_›] at hquiet ⊢
        exact hp.complete hwas hquiet

end AsyncPipe

end Tbox.Util
