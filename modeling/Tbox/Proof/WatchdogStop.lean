import Tbox.Eventx.LoopWDog
import Tbox.Lib.Run

/-!
# Stopping the watchdog

A call of `Stop` that finds the watchdog at the lock, behind the flag it has just read, joins a thread that waits for
the lock it holds itself. Nothing else keeps the thread from its end.
-/

open Option

namespace Tbox.Eventx.LoopWDog

open Lib
open Function (update_self update_of_ne)

def Deadlocked (s : LoopWDog) : Prop :=
  ∃ c pc, s.callers c = .joining ∧ s.owner = some (.caller c) ∧ s.thread = some pc ∧ pc.Waits

structure Sound (s : LoopWDog) : Prop where
  noDeadlock : ¬s.Deadlocked
  silent : s.ended = true → ∀ running calls, s.step (.thread running calls) = none

/-- A `Stop` that takes effect does not find the thread at the lock. -/
def Heeds (s : LoopWDog) (a : Action) : Prop :=
  ∀ c, a = .enter c → s.callers c = .calling .stop → s.keepRunning = true → ∀ pc ∈ s.thread, ¬pc.Waits

structure Kept (s : LoopWDog) : Prop where
  joins : ∀ c, s.callers c = .joining ↔ s.owner = some (.caller c)
  holds : s.owner = some .watchdog ↔ ∃ pc ∈ s.thread, pc.Holds
  running : s.keepRunning = true → ∃ pc ∈ s.thread, pc ≠ .returned
  stopping : s.keepRunning = false → s.thread ≠ none → ∃ c, s.owner = some (.caller c)
  stops : ∀ c, s.owner = some (.caller c) → s.keepRunning = false
  ended : s.ended = true → s.thread = none

variable {s t : LoopWDog} {c : CallerId} {a : Action}

theorem kept_initial : Kept {} where
  joins _ := iff_of_false nofun nofun
  holds := iff_of_false nofun fun ⟨_, hpc, _⟩ => nomatch hpc
  running := nofun
  stopping _ hthread := absurd rfl hthread
  stops _ := nofun
  ended := nofun

theorem Kept.not_joining (h : Kept s) (howner : ∀ d, s.owner ≠ some (.caller d)) (d : CallerId) :
    s.callers d ≠ .joining := fun hd => howner d ((h.joins d).mp hd)

theorem Kept.congr (h : Kept s) (hcallers : t.callers = s.callers) (howner : t.owner = s.owner)
    (hthread : t.thread = s.thread) (hrunning : t.keepRunning = s.keepRunning) (hended : t.ended = s.ended) :
    Kept t := by
  constructor
  · intro c
    rw [hcallers, howner]
    exact h.joins c
  · rw [howner, hthread]
    exact h.holds
  · rw [hrunning, hthread]
    exact h.running
  · rw [hrunning, hthread, howner]
    exact h.stopping
  · rw [howner, hrunning]
    exact h.stops
  · rw [hended, hthread]
    exact h.ended

theorem Kept.thread_eq_none (h : Kept s) (howner : s.owner = none) (hstopped : s.keepRunning = false) :
    s.thread = none := by
  by_contra hthread
  obtain ⟨c, hc⟩ := h.stopping hstopped hthread
  rw [howner] at hc
  cases hc

theorem joining_setCaller {caller : Caller} (hnot : caller ≠ .joining) (hc : s.callers c ≠ .joining) (d : CallerId) :
    (s.setCaller c caller).callers d = .joining ↔ s.callers d = .joining := by
  by_cases heq : d = c
  · rw [heq]
    have hnew : (s.setCaller c caller).callers c = caller := update_self ..
    rw [hnew]
    exact iff_of_false hnot hc
  · have hsame : (s.setCaller c caller).callers d = s.callers d := update_of_ne heq ..
    rw [hsame]

theorem Kept.setCaller (h : Kept s) {caller : Caller} (hnot : caller ≠ .joining) (hc : s.callers c ≠ .joining) :
    Kept (s.setCaller c caller) :=
  { h with joins := fun d => (joining_setCaller hnot hc d).trans (h.joins d) }

theorem Kept.start (h : Kept s) (hc : s.callers c ≠ .joining) (howner : s.owner = none) : Kept (s.start c) := by
  have hset : Kept (s.setCaller c .away) := h.setCaller nofun hc
  rw [LoopWDog.start]
  cases hrunning : s.keepRunning with
  | true =>
    rw [if_neg]
    · exact hset
    · have hflag : (s.setCaller c .away).keepRunning = true := hrunning
      rw [hflag]
      decide
  | false =>
    have hflag : (s.setCaller c .away).keepRunning = false := hrunning
    rw [hflag, Bool.not_false, if_pos rfl]
    have hfree : (s.setCaller c .away).owner = none := howner
    constructor
    · exact hset.joins
    · refine iff_of_false ?_ ?_
      · rw [hfree]
        nofun
      · rintro ⟨pc, hpc, hholds⟩
        cases hpc
        exact hholds
    · intro _
      exact ⟨.head, rfl, nofun⟩
    · nofun
    · intro d hd
      rw [hfree] at hd
      cases hd
    · nofun

theorem Kept.stop (h : Kept s) (hc : s.callers c ≠ .joining) (howner : s.owner = none) : Kept (s.stop c) := by
  rw [LoopWDog.stop]
  cases hrunning : s.keepRunning with
  | true =>
    rw [if_pos rfl]
    have hnobody := h.not_joining (by rw [howner]; nofun)
    obtain ⟨pc, hpc, -⟩ := h.running hrunning
    constructor
    · intro d
      by_cases heq : d = c
      · rw [heq]
        exact iff_of_true (update_self ..) rfl
      have hsame : (s.setCaller c .joining).callers d = s.callers d := update_of_ne heq ..
      refine iff_of_false ?_ ?_
      · intro hd
        exact hnobody d (hsame.symm.trans hd)
      · intro hd
        cases hd
        exact heq rfl
    · refine iff_of_false nofun fun hholds => ?_
      have howns := h.holds.mpr hholds
      rw [howner] at howns
      cases howns
    · nofun
    · intro _ _
      exact ⟨c, rfl⟩
    · intro _ _
      rfl
    intro hended
    have hnone := h.ended hended
    rw [hnone] at hpc
    cases hpc
  | false =>
    rw [if_neg Bool.false_ne_true]
    have hset : Kept (s.setCaller c .away) := h.setCaller nofun hc
    exact { hset with ended := fun _ => h.thread_eq_none howner hrunning }

theorem Kept.joined (h : Kept s) (hc : s.callers c = .joining) : Kept (s.joined c) := by
  have howns := (h.joins c).mp hc
  have hstopped := h.stops c howns
  constructor
  · intro d
    refine iff_of_false ?_ nofun
    intro hd
    by_cases heq : d = c
    · rw [heq] at hd
      have haway : (s.joined c).callers c = .away := update_self ..
      rw [haway] at hd
      cases hd
    · have hsame : (s.joined c).callers d = s.callers d := update_of_ne heq ..
      rw [hsame] at hd
      have hother := (h.joins d).mp hd
      rw [howns] at hother
      cases hother
      exact heq rfl
  · exact iff_of_false nofun fun ⟨_, hpc, _⟩ => nomatch hpc
  · intro hrunning
    exact absurd (hstopped.symm.trans hrunning) nofun
  · intro _ hthread
    exact absurd rfl hthread
  · nofun
  · exact fun _ => rfl

theorem Kept.perform (h : Kept s) (hc : s.callers c ≠ .joining) (howner : s.owner = none) (op : Op) :
    Kept (s.perform c op) := by
  have hset : Kept (s.setCaller c .away) := h.setCaller nofun hc
  cases op with
  | start => exact h.start hc howner
  | stop => exact h.stop hc howner
  | register loop name =>
    rw [LoopWDog.perform, register]
    split
    · exact hset
    · exact hset.congr rfl rfl rfl rfl rfl
  | unregister loop => exact hset.congr rfl rfl rfl rfl rfl

theorem Kept.of_thread (h : Kept s) {pc : Pc} (pc' : Pc) (hpc : s.thread = some pc) (hpc' : t.thread = some pc')
    (hcallers : t.callers = s.callers) (howner : t.owner = s.owner) (hrunning : t.keepRunning = s.keepRunning)
    (hended : t.ended = s.ended) (hholds : pc'.Holds ↔ pc.Holds)
    (hreturned : pc' = .returned → s.keepRunning = false) : Kept t := by
  constructor
  · intro c
    rw [hcallers, howner]
    exact h.joins c
  · rw [howner, hpc']
    refine h.holds.trans ?_
    rw [hpc]
    constructor
    · rintro ⟨_, heq, hold⟩
      cases heq
      exact ⟨pc', rfl, hholds.mpr hold⟩
    · rintro ⟨_, heq, hold⟩
      cases heq
      exact ⟨pc, rfl, hholds.mp hold⟩
  · intro hruns
    refine ⟨pc', hpc', fun heq => ?_⟩
    rw [hrunning, hreturned heq] at hruns
    cases hruns
  · intro hstopped _
    rw [howner]
    apply h.stopping (hrunning.symm.trans hstopped)
    rw [hpc]
    nofun
  · rw [howner, hrunning]
    exact h.stops
  · intro hends
    rw [h.ended (hended.symm.trans hends)] at hpc
    cases hpc

theorem Kept.lock (h : Kept s) {pc pc' : Pc} (hpc : s.thread = some pc) (howner : s.owner = none)
    (hholds : pc'.Holds) (hne : pc' ≠ .returned) : Kept { s with thread := some pc', owner := some .watchdog } := by
  have hnobody := h.not_joining (by rw [howner]; nofun)
  constructor
  · intro c
    exact iff_of_false (hnobody c) nofun
  · exact iff_of_true rfl ⟨pc', rfl, hholds⟩
  · exact fun _ => ⟨pc', rfl, hne⟩
  · intro hstopped _
    have hnone := h.thread_eq_none howner hstopped
    rw [hnone] at hpc
    cases hpc
  · nofun
  · intro hended
    rw [h.ended hended] at hpc
    cases hpc

theorem Kept.unlock (h : Kept s) {pc pc' : Pc} (hpc : s.thread = some pc) (hold : pc.Holds)
    (hfree : ¬pc'.Holds) (hne : pc' ≠ .returned) : Kept { s with thread := some pc', owner := none } := by
  have howner : s.owner = some .watchdog := h.holds.mpr ⟨pc, hpc, hold⟩
  have hnobody := h.not_joining (by rw [howner]; nofun)
  constructor
  · intro c
    exact iff_of_false (hnobody c) nofun
  · refine iff_of_false nofun ?_
    rintro ⟨_, heq, hholds⟩
    cases heq
    exact hfree hholds
  · exact fun _ => ⟨pc', rfl, hne⟩
  · intro hstopped hthread
    obtain ⟨c, hc⟩ := h.stopping hstopped (by rw [hpc]; nofun)
    rw [howner] at hc
    cases hc
  · nofun
  · intro hended
    rw [h.ended hended] at hpc
    cases hpc

theorem Kept.send (h : Kept s) {rest : List InfoId} (hpc : s.thread = some (.sending rest)) (running : Bool) :
    Kept (s.send running rest) := by
  cases rest with
  | nil => exact h.unlock hpc trivial nofun nofun
  | cons id rest =>
    rw [LoopWDog.send]
    split
    · exact h.of_thread (.sending rest) hpc rfl rfl rfl rfl rfl Iff.rfl nofun
    · exact h.of_thread (.sending rest) hpc rfl rfl rfl rfl rfl Iff.rfl nofun

theorem Kept.check (h : Kept s) {rest : List InfoId} (hpc : s.thread = some (.checking rest)) :
    Kept (s.check rest) := by
  cases rest with
  | nil => exact h.unlock hpc trivial nofun nofun
  | cons id rest =>
    rw [LoopWDog.check]
    split
    · split
      · exact h.of_thread (.blockCallback _ rest) hpc rfl rfl rfl rfl rfl Iff.rfl nofun
      · exact h.of_thread (.checking rest) hpc rfl rfl rfl rfl rfl Iff.rfl nofun
    · exact h.of_thread (.checking rest) hpc rfl rfl rfl rfl rfl Iff.rfl nofun

theorem Kept.advance (h : Kept s) {pc : Pc} (hpc : s.thread = some pc) {running calls : Bool}
    (ht : s.advance running calls pc = some t) : Kept t := by
  cases pc with
  | head =>
    cases some.inj ht
    by_cases hrunning : s.keepRunning = true
    · rw [if_pos hrunning]
      exact h.of_thread .sendLock hpc rfl rfl rfl rfl rfl Iff.rfl nofun
    · rw [if_neg hrunning]
      exact h.of_thread .returned hpc rfl rfl rfl rfl rfl Iff.rfl fun _ => Bool.eq_false_iff.mpr hrunning
  | sendLock =>
    obtain ⟨howner, rfl⟩ := ite_some_none_eq_some.mp ht
    exact h.lock hpc howner trivial nofun
  | sending rest =>
    cases some.inj ht
    exact h.send hpc running
  | sleeping i =>
    cases some.inj ht
    split
    · exact h.of_thread (.sleeping (i + 1)) hpc rfl rfl rfl rfl rfl Iff.rfl nofun
    · exact h.of_thread .beforeCheck hpc rfl rfl rfl rfl rfl Iff.rfl nofun
  | beforeCheck =>
    cases some.inj ht
    split
    · exact h.of_thread .checkLock hpc rfl rfl rfl rfl rfl Iff.rfl nofun
    · exact h.of_thread .head hpc rfl rfl rfl rfl rfl Iff.rfl nofun
  | checkLock =>
    obtain ⟨howner, rfl⟩ := ite_some_none_eq_some.mp ht
    exact h.lock hpc howner trivial nofun
  | checking rest =>
    cases some.inj ht
    exact h.check hpc
  | blockCallback name rest =>
    cases some.inj ht
    split
    · exact h.of_thread (.callbackLock rest) hpc rfl rfl rfl rfl rfl Iff.rfl nofun
    · exact h.of_thread (.checking rest) hpc rfl rfl rfl rfl rfl Iff.rfl nofun
  | callbackLock rest => cases ht
  | returned => cases ht

/-- **What every step keeps.** -/
theorem Kept.step (h : Kept s) (ht : s.step a = some t) : Kept t := by
  cases a with
  | call c op =>
    obtain ⟨haway, rfl⟩ := ite_some_none_eq_some.mp ht
    refine h.setCaller nofun ?_
    rw [haway]
    nofun
  | enter c =>
    simp only [LoopWDog.step] at ht
    split at ht
    · rename_i op hop
      obtain ⟨howner, rfl⟩ := ite_some_none_eq_some.mp ht
      refine h.perform ?_ howner op
      rw [hop]
      nofun
    · cases ht
  | join c =>
    obtain ⟨⟨hc, -⟩, rfl⟩ := ite_some_none_eq_some.mp ht
    exact h.joined hc
  | thread running calls =>
    obtain ⟨pc, hpc, ht⟩ := bind_eq_some_iff.mp ht
    exact h.advance hpc ht
  | loopFunc k =>
    obtain ⟨id, -, rfl⟩ := map_eq_some_iff.mp ht
    exact h.congr rfl rfl rfl rfl rfl

theorem owner_send (running : Bool) (rest : List InfoId) :
    (s.send running rest).owner = none ∨ (s.send running rest).owner = s.owner := by
  cases rest with
  | nil => exact .inl rfl
  | cons id rest =>
    rw [LoopWDog.send]
    split
    · exact .inr rfl
    · exact .inr rfl

theorem owner_check (rest : List InfoId) : (s.check rest).owner = none ∨ (s.check rest).owner = s.owner := by
  cases rest with
  | nil => exact .inl rfl
  | cons id rest =>
    rw [LoopWDog.check]
    split
    · split
      · exact .inr rfl
      · exact .inr rfl
    · exact .inr rfl

theorem Kept.not_caller (h : Kept s) {pc : Pc} (hpc : s.thread = some pc) (hholds : pc.Holds)
    (howner : t.owner = none ∨ t.owner = s.owner) : t.owner ≠ some (.caller c) := by
  intro hcaller
  rcases howner with hnone | hsame
  · rw [hnone] at hcaller
    cases hcaller
  · rw [hsame, h.holds.mpr ⟨pc, hpc, hholds⟩] at hcaller
    cases hcaller

theorem Kept.not_waits (h : Kept s) {pc : Pc} (hpc : s.thread = some pc) {running calls : Bool}
    (ht : s.advance running calls pc = some t) (howner : t.owner = some (.caller c)) :
    ∀ pc' ∈ t.thread, ¬pc'.Waits := by
  cases pc with
  | head =>
    cases some.inj ht
    have hstopped := h.stops c howner
    intro pc' hpc'
    rw [hstopped] at hpc'
    cases some.inj hpc'
    exact id
  | sendLock | checkLock =>
    obtain ⟨-, rfl⟩ := ite_some_none_eq_some.mp ht
    cases some.inj howner
  | sending rest =>
    cases some.inj ht
    exact absurd howner (h.not_caller hpc trivial (owner_send running rest))
  | checking rest =>
    cases some.inj ht
    exact absurd howner (h.not_caller hpc trivial (owner_check rest))
  | blockCallback name rest =>
    cases some.inj ht
    exact absurd howner (h.not_caller hpc trivial (.inr rfl))
  | sleeping i =>
    cases some.inj ht
    intro pc' hpc'
    cases some.inj hpc'
    split <;> exact id
  | beforeCheck =>
    cases some.inj ht
    have hstopped := h.stops c howner
    intro pc' hpc'
    rw [hstopped] at hpc'
    cases some.inj hpc'
    exact id
  | callbackLock rest => cases ht
  | returned => cases ht

theorem not_deadlocked_of_owner (howner : ∀ c, t.owner ≠ some (.caller c)) : ¬t.Deadlocked := by
  rintro ⟨c, pc, -, hc, -⟩
  exact howner c hc

theorem not_deadlocked_stop (hrunning : s.keepRunning = true) :
    ¬(s.stop c).Deadlocked ↔ ∀ pc ∈ s.thread, ¬pc.Waits := by
  rw [LoopWDog.stop, if_pos hrunning]
  constructor
  · intro hnot pc hpc hwaits
    exact hnot ⟨c, pc, update_self .., rfl, hpc, hwaits⟩
  · rintro hfree ⟨d, pc, -, -, hpc, hwaits⟩
    exact hfree pc hpc hwaits

theorem owner_perform (op : Op) (howner : s.owner = none) (hstop : op = .stop → s.keepRunning = false) :
    (s.perform c op).owner = none := by
  cases op with
  | start =>
    rw [LoopWDog.perform, LoopWDog.start]
    split
    · exact howner
    · exact howner
  | stop =>
    rw [LoopWDog.perform, LoopWDog.stop, hstop rfl, if_neg Bool.false_ne_true]
    exact howner
  | register loop name =>
    rw [LoopWDog.perform, LoopWDog.register]
    split
    · exact howner
    · exact howner
  | unregister loop => exact howner

/-- **Deadlock, step by step.** -/
theorem Kept.not_deadlocked_iff (h : Kept s) (hs : ¬s.Deadlocked) (ht : s.step a = some t) :
    ¬t.Deadlocked ↔ s.Heeds a := by
  have hheeds : (∀ c, a ≠ .enter c) → s.Heeds a := fun hne c heq => absurd heq (hne c)
  cases a with
  | call c op =>
    obtain ⟨haway, rfl⟩ := ite_some_none_eq_some.mp ht
    refine iff_of_true ?_ (hheeds nofun)
    rintro ⟨d, pc, hd, howner, hpc, hwaits⟩
    have hnot : Caller.calling op ≠ .joining := nofun
    have hc : s.callers c ≠ .joining := by
      rw [haway]
      nofun
    exact hs ⟨d, pc, (joining_setCaller hnot hc d).mp hd, howner, hpc, hwaits⟩
  | enter c =>
    simp only [LoopWDog.step] at ht
    split at ht
    · rename_i op hop
      obtain ⟨howner, rfl⟩ := ite_some_none_eq_some.mp ht
      by_cases hstop : op = .stop ∧ s.keepRunning = true
      · obtain ⟨rfl, hrunning⟩ := hstop
        refine (not_deadlocked_stop hrunning).trans ⟨fun hfree d heq _ _ => hfree, fun hheed => ?_⟩
        exact hheed c rfl hop hrunning
      refine iff_of_true ?_ ?_
      · have hnone : (s.perform c op).owner = none := by
          apply owner_perform op howner
          intro heq
          exact Bool.eq_false_iff.mpr fun hrunning => hstop ⟨heq, hrunning⟩
        apply not_deadlocked_of_owner
        intro d
        rw [hnone]
        nofun
      · intro d heq hcalling hrunning
        cases heq
        rw [hop] at hcalling
        cases hcalling
        exact absurd ⟨rfl, hrunning⟩ hstop
    · cases ht
  | join c =>
    obtain ⟨-, rfl⟩ := ite_some_none_eq_some.mp ht
    exact iff_of_true (not_deadlocked_of_owner fun _ => nofun) (hheeds nofun)
  | thread running calls =>
    obtain ⟨pc, hpc, ht⟩ := bind_eq_some_iff.mp ht
    refine iff_of_true ?_ (hheeds nofun)
    rintro ⟨c, pc', -, howner, hpc', hwaits⟩
    exact h.not_waits hpc ht howner pc' hpc' hwaits
  | loopFunc k =>
    obtain ⟨id, -, rfl⟩ := map_eq_some_iff.mp ht
    exact iff_of_true hs (hheeds nofun)

theorem Kept.silent (h : Kept s) : s.ended = true → ∀ running calls, s.step (.thread running calls) = none := by
  intro hended running calls
  rw [LoopWDog.step, h.ended hended]
  rfl

/-- **No deadlock** in a run, and no step of the thread after `Stop` has returned, if and only if no `Stop` takes
effect while the thread is at the lock. -/
theorem sound_iff_heeds (as : List Action) :
    Always LoopWDog.step Sound {} as ↔ Along LoopWDog.step Heeds {} as := by
  refine always_iff_along (I := Kept) (b := fun _ _ => True) ?_ ?_ kept_initial (along_of_forall fun _ _ => trivial) ?_
  · intro s a t hs _ _ ht
    exact hs.step ht
  · intro s a t hs _ hsound ht
    refine Iff.trans ?_ (hs.not_deadlocked_iff hsound.noDeadlock ht)
    exact ⟨fun ht => ht.noDeadlock, fun hnot => ⟨hnot, (hs.step ht).silent⟩⟩
  · refine ⟨?_, kept_initial.silent⟩
    exact not_deadlocked_of_owner fun _ => nofun

/-- The watchdog has read the flag when `Stop` gets the lock. -/
def stopBeforeSend : List Action :=
  [.call 0 .start, .enter 0, .thread true false, .call 0 .stop, .enter 0]

theorem deadlocked_stopBeforeSend : ¬Always LoopWDog.step Sound {} stopBeforeSend := by
  intro halways
  have hrun : ∃ s, run LoopWDog.step {} stopBeforeSend = some s ∧ s.callers 0 = .joining ∧
      s.owner = some (.caller 0) ∧ s.thread = some .sendLock := ⟨_, rfl, rfl, rfl, rfl⟩
  obtain ⟨s, hs, hjoining, howner, hthread⟩ := hrun
  exact (halways _ (List.prefix_refl _) s hs).noDeadlock ⟨0, .sendLock, hjoining, howner, hthread, trivial⟩

end Tbox.Eventx.LoopWDog
