import Tbox.Jsonrpc.Rpc
import Tbox.Lib.Run

/-!
# Every request is answered once

A request with a callback waits in a slot of the monitor, and every tick brings it one slot nearer to
the end. Its callback is called for the first response, or when the ticks have come to it.
-/

open List Option

namespace Tbox.Jsonrpc

open Tbox.Eventx (TimeoutMonitor)

variable {J : Type} [Inhabited J] {w w' : World J} {id other errcode : Int} {result params : J}
  {method : String} {before since new period start : List (Event J)} {N k : Nat}

def Event.isResponseTo (id : Int) : Event J → Bool
  | .respond other _ _ => other = id
  | _ => false

def Event.isCallbackOf (id : Int) : Event J → Bool
  | .callback other _ _ => other = id
  | _ => false

def Event.isTick : Event J → Bool
  | .tick => true
  | _ => false

def ticks (events : List (Event J)) : Nat := events.countP Event.isTick

omit [Inhabited J] in
theorem ticks_append : ticks (since ++ new) = ticks since + ticks new := countP_append

/-- What a callback may be called for after these events: the first response, which has just come, or
the last of `N` ticks. -/
def Prompted (N : Nat) (id : Int) (before : List (Event J)) (errcode : Int) (result : J) : Prop :=
  (∃ earlier, before = earlier ++ [.respond id errcode result] ∧
    (∀ e ∈ earlier, ¬e.isResponseTo id) ∧ ticks earlier ≤ N) ∨
  errcode = requestTimeoutCode ∧ result = default ∧ (∀ e ∈ before, ¬e.isResponseTo id) ∧
    ticks before = N

/-- What the events since a request must say. -/
structure Served (N : Nat) (id : Int) (since : List (Event J)) (w : World J) : Prop where
  once : since.countP (Event.isCallbackOf id) ≤ 1
  prompted : ∀ before errcode result after,
    since = before ++ .callback id errcode result :: after → Prompted N id before errcode result
  complete : w.calling = [] → (∃ e ∈ since, e.isResponseTo id) ∨ N ≤ ticks since →
    ∃ e ∈ since, e.isCallbackOf id
  armed : w.calling = [] → (∀ e ∈ since, ¬e.isCallbackOf id) →
    w.rpc.requestTimeout.timerEnabled
  settled : (∃ e ∈ since, e.isCallbackOf id) → id ∉ w.calling → ∀ errcode result,
    step w (.respond id errcode result) = some (w.record (.respond id errcode result))

theorem step_eq (h : w.crashed = false) (input : Input J) : step w input = w.next input :=
  if_neg (Bool.eq_false_iff.mp h)

structure Awaited (id : Int) (since : List (Event J)) (w : World J) : Prop where
  mem : id ∈ w.rpc.requestCallback
  free : id ∉ w.calling
  silent : ∀ e ∈ since, ¬e.isResponseTo id ∧ ¬e.isCallbackOf id

/-- It is in the slot that `k` ticks go before. -/
structure Waiting (N k : Nat) (id : Int) (since : List (Event J)) (w : World J) : Prop
    extends Awaited id since w where
  left : ticks since + (k + 1) = N
  slot : ∀ j, id ∈ w.rpc.requestTimeout.slot j ↔ j = k
  notDue : id ∉ w.tobeHandle

/-- The last tick is being handled, and has yet to come to it. -/
structure Due (N : Nat) (id : Int) (since : List (Event J)) (w : World J) : Prop
    extends Awaited id since w where
  left : ticks since = N
  due : id ∈ w.tobeHandle

def Answered (N : Nat) (id : Int) (since : List (Event J)) (w : World J) : Prop :=
  (∃ before errcode result after, since = before ++ .callback id errcode result :: after ∧
    Prompted N id before errcode result ∧ (∀ e ∈ before, ¬e.isCallbackOf id) ∧
    ∀ e ∈ after, ¬e.isCallbackOf id) ∧
  (id ∉ w.calling → id ∉ w.rpc.requestCallback)

inductive Tracked (N : Nat) (id : Int) (since : List (Event J)) (w : World J) : Prop where
  | waiting (k : Nat) (h : Waiting N k id since w)
  | due (h : Due N id since w)
  | answered (h : Answered N id since w)

theorem Awaited.answered (h : Awaited id since w) {w' : World J} {news : List (Event J)}
    (hprompted : Prompted N id (since ++ news) errcode result)
    (hnews : ∀ e ∈ news, ¬e.isCallbackOf id) (hcalling : id ∈ w'.calling) :
    Answered N id (since ++ (news ++ [.callback id errcode result])) w' := by
  refine ⟨⟨since ++ news, errcode, result, [], ?_, hprompted, fun e he => ?_,
    fun _ he => absurd he not_mem_nil⟩, fun hfree => absurd hcalling hfree⟩
  · rw [append_assoc]
  · rcases mem_append.mp he with he | he
    · exact (h.silent e he).2
    · exact hnews e he

theorem Answered.append (h : Answered N id since w) (hnew : ∀ e ∈ new, ¬e.isCallbackOf id)
    (hfree : id ∉ w'.calling → id ∉ w.calling) (hmem : id ∈ w'.rpc.requestCallback → id ∈ w.rpc.requestCallback) :
    Answered N id (since ++ new) w' := by
  obtain ⟨⟨before, errcode, result, after, rfl, hprompted, hbefore, hafter⟩, hsettled⟩ := h
  refine ⟨⟨before, errcode, result, after ++ new, ?_, hprompted, hbefore, fun e he => ?_⟩,
    fun hout hin => hsettled (hfree hout) (hmem hin)⟩
  · rw [append_assoc, cons_append]
  · exact (mem_append.mp he).elim (hafter e) (hnew e)

/-- The two worlds have the same to say of the request. -/
structure Agree (id : Int) (w w' : World J) : Prop where
  mem : id ∈ w'.rpc.requestCallback ↔ id ∈ w.rpc.requestCallback
  calling : id ∈ w'.calling ↔ id ∈ w.calling
  tobeHandle : id ∈ w'.tobeHandle ↔ id ∈ w.tobeHandle
  slot : ∀ j, id ∈ w'.rpc.requestTimeout.slot j ↔ id ∈ w.rpc.requestTimeout.slot j

def Event.Elsewhere (id : Int) (e : Event J) : Prop :=
  ¬e.isTick ∧ ¬e.isResponseTo id ∧ ¬e.isCallbackOf id

omit [Inhabited J] in
theorem Awaited.append (h : Awaited id since w) (hagree : Agree id w w')
    (hnew : ∀ e ∈ new, ¬e.isResponseTo id ∧ ¬e.isCallbackOf id) :
    Awaited id (since ++ new) w' where
  mem := hagree.mem.mpr h.mem
  free hin := h.free (hagree.calling.mp hin)
  silent e he := (mem_append.mp he).elim (h.silent e) (hnew e)

theorem Tracked.append (h : Tracked N id since w) (hagree : Agree id w w')
    (hnew : ∀ e ∈ new, e.Elsewhere id) : Tracked N id (since ++ new) w' := by
  have hticks : ticks (since ++ new) = ticks since := by
    rw [ticks_append, Nat.add_eq_left]
    exact countP_eq_zero.mpr fun e he => (hnew e he).1
  cases h with
  | waiting k h =>
    refine .waiting k ⟨h.toAwaited.append hagree fun e he => (hnew e he).2, ?_, fun j => ?_, ?_⟩
    · rw [hticks]
      exact h.left
    · exact (hagree.slot j).trans (h.slot j)
    · exact fun hin => h.notDue (hagree.tobeHandle.mp hin)
  | due h =>
    refine .due ⟨h.toAwaited.append hagree fun e he => (hnew e he).2, ?_, ?_⟩
    · rw [hticks]
      exact h.left
    · exact hagree.tobeHandle.mpr h.due
  | answered h =>
    exact .answered (h.append (fun e he => (hnew e he).2.2)
      (fun hout hin => hout (hagree.calling.mpr hin)) hagree.mem.mp)

theorem Answered.not_awaited (h : Answered N id since w) : ¬Awaited id since w := by
  obtain ⟨⟨before, errcode, result, after, rfl, -⟩, -⟩ := h
  intro hawaited
  refine (hawaited.silent (.callback id errcode result) ?_).2 (decide_eq_true rfl)
  exact mem_append_right before mem_cons_self

theorem Tracked.ticks_le (h : Tracked N id since w) (hawaited : Awaited id since w) : ticks since ≤ N := by
  cases h with
  | waiting k h =>
    have hleft := h.left
    omega
  | due h => exact h.left.le
  | answered h => exact absurd hawaited h.not_awaited

theorem Tracked.ticks_of_due (h : Tracked N id since w) (hawaited : Awaited id since w)
    (hdue : id ∈ w.tobeHandle) : ticks since = N := by
  cases h with
  | waiting k h => exact absurd hdue h.notDue
  | due h => exact h.left
  | answered h => exact absurd hawaited h.not_awaited

/-- Since `start` was on record: the identifiers are no newer than the last one, and every request is where it should
be. -/
structure Sound (N : Nat) (start period : List (Event J)) (w : World J) : Prop where
  log : w.log = start ++ period
  isInitialized : w.rpc.isInitialized
  intact : w.crashed = false
  length : w.rpc.requestTimeout.ring.length = N
  counted : w.rpc.requestTimeout.Counted
  memLe : ∀ id ∈ w.rpc.requestCallback, id ≤ w.rpc.idAlloc
  callingLe : ∀ id ∈ w.calling, id ≤ w.rpc.idAlloc
  tobeHandleLe : ∀ id ∈ w.tobeHandle, id ≤ w.rpc.idAlloc
  slotLe : ∀ j, ∀ id ∈ w.rpc.requestTimeout.slot j, id ≤ w.rpc.idAlloc
  periodLe : ∀ id method params, .request id method params ∈ period → id ≠ 0 → id ≤ w.rpc.idAlloc
  requested : ∀ id ∈ w.rpc.requestCallback, id ≠ 0 ∧
    ∃ method params, .request id method params ∈ period
  tracked : ∀ before id method params since,
    period = before ++ .request id method params :: since → id ≠ 0 → Tracked N id since w

omit [Inhabited J] in
theorem eq_append_of_request {e : Event J} (h : period ++ new = before ++ e :: since)
    (hnew : e ∉ new) : ∃ since', period = before ++ e :: since' ∧ since = since' ++ new := by
  rcases append_eq_append_iff.mp h with ⟨rest, rfl, rfl⟩ | ⟨rest, rfl, heq⟩
  · exact absurd (mem_append_right rest mem_cons_self) hnew
  cases rest with
  | nil =>
    rw [nil_append] at heq
    exact absurd (heq ▸ mem_cons_self) hnew
  | cons first since' =>
    obtain ⟨rfl, rfl⟩ := List.cons.inj heq
    exact ⟨since', rfl, rfl⟩

namespace Sound

theorem tracked_append (h : Sound N start period w)
    (hnew : ∀ id method params, id ≠ 0 → .request id method params ∉ new)
    (hstep : ∀ before id method params since, period = before ++ .request id method params :: since →
      id ≠ 0 → Tracked N id since w → Tracked N id (since ++ new) w') : ∀ before id method params since,
      period ++ new = before ++ .request id method params :: since → id ≠ 0 → Tracked N id since w' := by
  intro before id method params since heq hne
  obtain ⟨since', hperiod, rfl⟩ := eq_append_of_request heq (hnew id method params hne)
  exact hstep before id method params since' hperiod hne (h.tracked before id method params since' hperiod hne)

theorem record {e : Event J} (h : Sound N start period w)
    (hzero : ∀ id method params, e = .request id method params → id = 0)
    (htracked : ∀ id since, Tracked N id since w → Tracked N id (since ++ [e]) (w.record e)) :
    Sound N start (period ++ [e]) (w.record e) := by
  refine { h with
    log := ?_
    periodLe := fun id method params hin hne => ?_
    requested := fun id hid => ?_
    tracked := ?_ }
  · rw [World.record, h.log, append_assoc]
  · rcases mem_append.mp hin with hin | hin
    · exact h.periodLe id method params hin hne
    · exact absurd (hzero id method params (mem_singleton.mp hin).symm) hne
  · obtain ⟨hne, method, params, hperiod⟩ := h.requested id hid
    exact ⟨hne, method, params, mem_append_left _ hperiod⟩
  · refine h.tracked_append (fun id method params hne hin => ?_) ?_
    · exact hne (hzero id method params (mem_singleton.mp hin).symm)
    · exact fun _ id _ _ since _ _ => htracked id since

theorem callBack (h : Sound N start period w) (news : List (Event J)) (rest : List Int)
    (errcode : Int) (result : J) (hmem : id ∈ w.rpc.requestCallback) (hfree : id ∉ w.calling)
    (hrest : ∀ other ∈ rest, other ∈ w.tobeHandle)
    (hothers : ∀ other, other ≠ id → other ∈ w.tobeHandle → other ∈ rest)
    (hnews : ∀ e ∈ news, ¬e.isCallbackOf id ∧ ∀ other, other ≠ id → e.Elsewhere other)
    (hrequest : ∀ other method params, .request other method params ∉ news)
    (hprompted : ∀ since, Tracked N id since w → Awaited id since w → Prompted N id (since ++ news) errcode result) :
    Sound N start (period ++ (news ++ [.callback id errcode result]))
      ({ w with tobeHandle := rest, log := w.log ++ news }.callBack id errcode result) := by
  refine ⟨?_, h.isInitialized, h.intact, h.length, h.counted, h.memLe, fun other hother => ?_,
    fun other hother => h.tobeHandleLe other (hrest other hother), h.slotLe,
    fun other method params hin => ?_, fun other hother => ?_, ?_⟩
  · simp [World.callBack, World.record, h.log]
  · rcases mem_cons.mp hother with rfl | hother
    · exact h.memLe other hmem
    · exact h.callingLe other hother
  · refine h.periodLe other method params ((mem_append.mp hin).resolve_right fun hin => ?_)
    rcases mem_append.mp hin with hin | hin
    · exact hrequest other method params hin
    · cases mem_singleton.mp hin
  · obtain ⟨hne, method, params, hperiod⟩ := h.requested other hother
    exact ⟨hne, method, params, mem_append_left _ hperiod⟩
  refine h.tracked_append (fun other method params _ hin => ?_) ?_
  · rcases mem_append.mp hin with hin | hin
    · exact hrequest other method params hin
    · cases mem_singleton.mp hin
  intro before other method params since _ _ htracked
  by_cases hother : other = id
  · subst hother
    have hawaited : Awaited other since w := by
      cases htracked with
      | waiting k h => exact h.toAwaited
      | due h => exact h.toAwaited
      | answered h => exact absurd hmem (h.2 hfree)
    exact .answered (hawaited.answered (hprompted since htracked hawaited) (fun e he => (hnews e he).1) mem_cons_self)
  · refine htracked.append ⟨Iff.rfl, ?_, ⟨hrest other, hothers other hother⟩, fun _ => Iff.rfl⟩
      fun e he => ?_
    · simp [World.callBack, World.record, hother]
    rcases mem_append.mp he with he | he
    · exact (hnews e he).2 other hother
    · obtain rfl := mem_singleton.mp he
      exact ⟨nofun, nofun, by simp [Event.isCallbackOf, Ne.symm hother]⟩

theorem skip {rest : List Int} (h : Sound N start period w) (hids : w.tobeHandle = id :: rest)
    (hmem : id ∉ w.rpc.requestCallback) : Sound N start period { w with tobeHandle := rest } := by
  refine { h with tobeHandleLe := fun other hother => h.tobeHandleLe other ?_, tracked := ?_ }
  · rw [hids]
    exact mem_cons_of_mem id hother
  intro before other method params since hperiod hne
  have htracked := h.tracked before other method params since hperiod hne
  by_cases hother : other = id
  · subst hother
    cases htracked with
    | waiting k h => exact absurd h.mem hmem
    | due h => exact absurd h.mem hmem
    | answered h => exact .answered ⟨h.1, fun _ => hmem⟩
  · have hagree : Agree other w { w with tobeHandle := rest } := by
      refine ⟨Iff.rfl, Iff.rfl, ?_, fun _ => Iff.rfl⟩
      rw [hids, mem_cons, or_iff_right hother]
    have happend : Tracked N other (since ++ []) _ := htracked.append hagree fun _ he => absurd he not_mem_nil
    rwa [append_nil] at happend

theorem handleTimeouts {ids : List Int} (h : Sound N start period w) (hcalling : w.calling = [])
    (hids : w.tobeHandle = ids) : ∃ new, Sound N start (period ++ new) (World.handleTimeouts ids w) ∧
      ((World.handleTimeouts ids w).calling = [] → (World.handleTimeouts ids w).tobeHandle = []) := by
  induction ids generalizing w with
  | nil =>
    refine ⟨[], ?_, fun _ => hids⟩
    rw [append_nil]
    exact h
  | cons id rest ih =>
    have hfree : id ∉ w.calling := by
      rw [hcalling]
      exact not_mem_nil
    have hdue : id ∈ w.tobeHandle := by
      rw [hids]
      exact mem_cons_self
    rw [World.handleTimeouts, World.onRequestTimeout]
    by_cases hmem : id ∈ w.rpc.requestCallback
    · have hsound := h.callBack [] rest requestTimeoutCode default hmem hfree
        (fun other hother => by rw [hids]; exact mem_cons_of_mem id hother)
        (fun other hne hother => by
          rw [hids] at hother
          exact (mem_cons.mp hother).resolve_left hne)
        (fun _ he => absurd he not_mem_nil) (fun _ _ _ => not_mem_nil)
        fun since htracked hawaited => by
          rw [append_nil]
          exact .inr ⟨rfl, rfl, fun e he => (hawaited.silent e he).1, htracked.ticks_of_due hawaited hdue⟩
      rw [append_nil] at hsound
      have hbusy : ({ w with tobeHandle := rest }.callBack id requestTimeoutCode default).calling
          ≠ [] := cons_ne_nil id w.calling
      refine ⟨[.callback id requestTimeoutCode default], ?_, ?_⟩
      · rw [if_pos hmem, if_neg hbusy]
        exact hsound
      · rw [if_pos hmem, if_neg hbusy]
        exact fun hnil => absurd hnil hbusy
    · rw [if_neg hmem, if_pos hcalling]
      exact ih (h.skip hids hmem) hcalling rfl

theorem erase (h : Sound N start period w) {outer : List Int} (hcalling : w.calling = id :: outer) :
    Sound N start period { w with rpc := w.rpc.eraseCallback id, calling := outer } := by
  have hmem : ∀ other, other ∈ (w.rpc.eraseCallback id).requestCallback ↔
      other ∈ w.rpc.requestCallback ∧ other ≠ id := by
    intro other
    simp [Rpc.eraseCallback]
  refine { h with
    memLe := fun other hother => h.memLe other ((hmem other).mp hother).1
    callingLe := fun other hother => h.callingLe other ?_
    requested := fun other hother => h.requested other ((hmem other).mp hother).1
    tracked := ?_ }
  · rw [hcalling]
    exact mem_cons_of_mem id hother
  intro before other method params since hperiod hne
  have htracked := h.tracked before other method params since hperiod hne
  by_cases hother : other ∈ w.calling
  · cases htracked with
    | waiting k h => exact absurd hother h.free
    | due h => exact absurd hother h.free
    | answered h =>
      refine .answered ⟨h.1, fun hout hin => ?_⟩
      obtain ⟨hin, hne⟩ := (hmem other).mp hin
      rw [hcalling] at hother
      exact hout ((mem_cons.mp hother).resolve_left hne)
  · have hagree : Agree other w { w with rpc := w.rpc.eraseCallback id, calling := outer } := by
      rw [hcalling, mem_cons, not_or] at hother
      refine ⟨?_, ?_, Iff.rfl, fun _ => Iff.rfl⟩
      · exact (hmem other).trans (and_iff_left hother.1)
      · rw [hcalling, mem_cons, or_iff_right hother.1]
    have happend : Tracked N other (since ++ []) _ := htracked.append hagree fun _ he => absurd he not_mem_nil
    rwa [append_nil] at happend

theorem returned (h : Sound N start period w) (hstep : w.returned = some w') :
    ∃ new, Sound N start (period ++ new) w' ∧ (w'.calling = [] → w'.tobeHandle = []) := by
  unfold World.returned at hstep
  split at hstep
  · cases hstep
  next id outer hcalling =>
    have herased := h.erase hcalling
    cases hstep
    split
    · next houter => exact herased.handleTimeouts houter rfl
    next houter =>
      refine ⟨[], ?_, fun hnil => absurd hnil houter⟩
      rw [append_nil]
      exact herased

theorem respond (h : Sound N start period w) (hquiet : w.calling = [] → w.tobeHandle = [])
    (hfree : id ∉ w.calling) (errcode : Int) (result : J) : ∃ new, Sound N start (period ++ new)
        ((w.record (.respond id errcode result)).onRecvRespond id errcode result) ∧
      (((w.record (.respond id errcode result)).onRecvRespond id errcode result).calling = [] →
        ((w.record (.respond id errcode result)).onRecvRespond id errcode result).tobeHandle = []) := by
  have helse : ∀ other, other ≠ id → (Event.respond id errcode result).Elsewhere other :=
    fun other hother => ⟨nofun, by simp [Event.isResponseTo, Ne.symm hother], nofun⟩
  unfold World.onRecvRespond
  split
  · next hmem =>
      refine ⟨_, h.callBack [.respond id errcode result] w.tobeHandle errcode result hmem hfree
        (fun _ hother => hother) (fun _ _ hother => hother) (fun e he => ?_) (fun _ _ _ he => ?_) ?_,
        fun hnil => absurd hnil (cons_ne_nil id _)⟩
      · obtain rfl := mem_singleton.mp he
        exact ⟨nofun, helse⟩
      · cases mem_singleton.mp he
      · intro since htracked hawaited
        refine .inl ⟨since, rfl, fun e he => (hawaited.silent e he).1, ?_⟩
        exact htracked.ticks_le hawaited
  · next hmem =>
      refine ⟨[.respond id errcode result], ?_, hquiet⟩
      refine h.record (fun _ _ _ => nofun) fun other since htracked => ?_
      by_cases hother : other = id
      · subst hother
        cases htracked with
        | waiting k h => exact absurd h.mem hmem
        | due h => exact absurd h.mem hmem
        | answered h =>
          refine .answered (h.append (fun e he => ?_) id id)
          obtain rfl := mem_singleton.mp he
          nofun
      · refine htracked.append ⟨Iff.rfl, Iff.rfl, Iff.rfl, fun _ => Iff.rfl⟩ fun e he => ?_
        obtain rfl := mem_singleton.mp he
        exact helse other hother

theorem notify (h : Sound N start period w) (method : String) (params : J) :
    Sound N start (period ++ [.request 0 method params]) (w.record (.request 0 method params)) := by
  refine h.record (fun id method' params' heq => ?_) fun other since htracked => ?_
  · cases heq
    rfl
  · refine htracked.append ⟨Iff.rfl, Iff.rfl, Iff.rfl, fun _ => Iff.rfl⟩ fun e he => ?_
    obtain rfl := mem_singleton.mp he
    exact ⟨nofun, nofun, nofun⟩

theorem request (h : Sound N start period w) (hnonneg : 0 ≤ w.rpc.idAlloc) {requestTimeout : TimeoutMonitor Int}
    (hadd : w.rpc.requestTimeout.add (w.rpc.idAlloc + 1) = some requestTimeout)
    (method : String) (params : J) :
    Sound N start (period ++ [.request (w.rpc.idAlloc + 1) method params])
      ({ w with
        rpc := { w.rpc with
          idAlloc := w.rpc.idAlloc + 1
          requestCallback := w.rpc.requestCallback.insert (w.rpc.idAlloc + 1)
          requestTimeout := requestTimeout } }.record
        (.request (w.rpc.idAlloc + 1) method params)) := by
  obtain ⟨hlength, -, hsize, hslot, hcounted⟩ := TimeoutMonitor.add_spec hadd
  have hlt : ∀ {id : Int}, id ≤ w.rpc.idAlloc → id ≤ w.rpc.idAlloc + 1 := fun h => by omega
  have hnew : ∀ {id : Int}, id ≤ w.rpc.idAlloc → id ≠ w.rpc.idAlloc + 1 := fun h => by omega
  have hring : w.rpc.requestTimeout.ring ≠ [] := by
    intro hnil
    rw [TimeoutMonitor.add, hnil] at hadd
    cases hadd
  have hpos : 0 < N := h.length ▸ length_pos_iff.mpr hring
  refine ⟨?_, h.isInitialized, h.intact, hlength.trans h.length, hcounted h.counted, fun id hid => ?_,
    fun id hid => hlt (h.callingLe id hid), fun id hid => hlt (h.tobeHandleLe id hid),
    fun j id hid => ?_, fun id method' params' hin hne => ?_, fun id hid => ?_, ?_⟩
  · rw [World.record, h.log, append_assoc]
  · rcases mem_insert_iff.mp hid with rfl | hid
    · exact Int.le_refl _
    · exact hlt (h.memLe id hid)
  · have hin : id ∈ w.rpc.requestTimeout.slot j ∨ id = w.rpc.idAlloc + 1 := by
      have hmem := hslot j ▸ hid
      split at hmem
      · exact (mem_append.mp hmem).imp (fun hin => hin) mem_singleton.mp
      · exact .inl hmem
    rcases hin with hin | rfl
    · exact hlt (h.slotLe j id hin)
    · exact Int.le_refl _
  · rcases mem_append.mp hin with hin | hin
    · exact hlt (h.periodLe id method' params' hin hne)
    · cases mem_singleton.mp hin
      exact Int.le_refl _
  · rcases mem_insert_iff.mp hid with rfl | hid
    · exact ⟨by omega, method, params, mem_append_right _ (mem_singleton.mpr rfl)⟩
    · obtain ⟨hne, method', params', hperiod⟩ := h.requested id hid
      exact ⟨hne, method', params', mem_append_left _ hperiod⟩
  · intro before id method' params' since heq hne
    rcases eq_nil_or_concat since with rfl | ⟨since', last, rfl⟩
    · -- the request itself
      obtain ⟨-, hlast⟩ := append_inj' heq rfl
      cases hlast
      refine .waiting (N - 1) ⟨⟨?_, fun hin => ?_, fun _ he => absurd he not_mem_nil⟩, ?_, fun j => ?_, fun hin => ?_⟩
      · exact mem_insert_self
      · exact hnew (h.callingLe _ hin) rfl
      · show 0 + (N - 1 + 1) = N
        omega
      · have hout : w.rpc.idAlloc + 1 ∉ w.rpc.requestTimeout.slot j :=
          fun hin => hnew (h.slotLe j _ hin) rfl
        show w.rpc.idAlloc + 1 ∈ requestTimeout.slot j ↔ j = N - 1
        rw [hslot j, h.length]
        split
        · next hj => simp [show j = N - 1 by omega]
        · next hj => simp [hout, show j ≠ N - 1 by omega]
      · exact hnew (h.tobeHandleLe _ hin) rfl
    · -- one that was sent before
      rw [concat_eq_append, ← cons_append, ← append_assoc] at heq
      obtain ⟨hperiod, hlast⟩ := append_inj' heq rfl
      cases hlast
      have hid : id ≠ w.rpc.idAlloc + 1 := by
        refine hnew (h.periodLe id method' params' ?_ hne)
        rw [hperiod]
        exact mem_append_right before mem_cons_self
      rw [concat_eq_append]
      refine (h.tracked before id method' params' since' hperiod hne).append
        ⟨?_, Iff.rfl, Iff.rfl, fun j => ?_⟩ fun e he => ?_
      · exact mem_insert_iff.trans (or_iff_right hid)
      · show id ∈ requestTimeout.slot j ↔ id ∈ w.rpc.requestTimeout.slot j
        rw [hslot j]
        split
        · simp [hid]
        · rfl
      · obtain rfl := mem_singleton.mp he
        exact ⟨nofun, nofun, nofun⟩

theorem tick (h : Sound N start period w) (htobe : w.tobeHandle = [])
    {ticked : List Int × TimeoutMonitor Int}
    (htick : w.rpc.requestTimeout.onTimerTick = some ticked)
    (hheeded : w.rpc.requestTimeout.hasCallback ∨ ∀ id ∈ w.rpc.requestTimeout.slot 0, id ∉ w.rpc.requestCallback) :
    Sound N start (period ++ [.tick])
      ({ w with
        rpc := { w.rpc with requestTimeout := ticked.2 }
        tobeHandle := ticked.1 }.record .tick) := by
  obtain ⟨-, hhandled, hlength, -, hslot, hcounted⟩ := TimeoutMonitor.onTimerTick_spec htick
  have hhandledMem : ∀ id ∈ ticked.1, id ∈ w.rpc.requestTimeout.slot 0 := by
    intro id hid
    rw [hhandled] at hid
    split at hid
    · exact hid
    · cases hid
  refine ⟨?_, h.isInitialized, h.intact, hlength.trans h.length, hcounted h.counted, h.memLe,
    h.callingLe, fun id hid => h.slotLe 0 id (hhandledMem id hid), fun j id hid => ?_,
    fun id method params hin hne => ?_, fun id hid => ?_, ?_⟩
  · rw [World.record, h.log, append_assoc]
  · exact h.slotLe (j + 1) id (hslot j ▸ hid)
  · rcases mem_append.mp hin with hin | hin
    · exact h.periodLe id method params hin hne
    · cases mem_singleton.mp hin
  · obtain ⟨hne, method, params, hperiod⟩ := h.requested id hid
    exact ⟨hne, method, params, mem_append_left _ hperiod⟩
  refine h.tracked_append (fun id method params _ hin => ?_) ?_
  · cases mem_singleton.mp hin
  intro before id method params since _ _ htracked
  have hsilent : ∀ e ∈ [Event.tick (J := J)], ¬e.isResponseTo id ∧ ¬e.isCallbackOf id := by
    intro e he
    obtain rfl := mem_singleton.mp he
    exact ⟨nofun, nofun⟩
  have hticks : ticks (since ++ [Event.tick]) = ticks since + 1 := ticks_append
  have hawaited : Awaited id since w → Awaited id (since ++ [.tick])
      ({ w with
        rpc := { w.rpc with requestTimeout := ticked.2 }
        tobeHandle := ticked.1 }.record .tick) := fun h =>
    ⟨h.mem, h.free, fun e he => (mem_append.mp he).elim (h.silent e) (hsilent e)⟩
  cases htracked with
  | waiting k h =>
    have hleft := h.left
    cases k with
    | zero =>
      have hzero := (h.slot 0).mpr rfl
      have hcb : w.rpc.requestTimeout.hasCallback := hheeded.resolve_right fun hnone => hnone id hzero h.mem
      refine .due ⟨hawaited h.toAwaited, ?_, ?_⟩
      · rw [hticks]
        omega
      · show id ∈ ticked.1
        rw [hhandled, if_pos hcb]
        exact hzero
    | succ k =>
      refine .waiting k ⟨hawaited h.toAwaited, ?_, fun j => ?_, fun hin => ?_⟩
      · rw [hticks]
        omega
      · show id ∈ ticked.2.slot j ↔ j = k
        rw [hslot j, h.slot (j + 1), Nat.succ_inj]
      · have hzero := (h.slot 0).mp (hhandledMem id hin)
        omega
  | due h =>
    have hdue := h.due
    rw [htobe] at hdue
    cases hdue
  | answered h =>
    exact .answered (h.append (fun e he => (hsilent e he).2) (fun hout => hout) fun hin => hin)

omit [Inhabited J] in
theorem split_unique {after before' after' : List (Event J)} {c c' : Event J}
    (h : before ++ c :: after = before' ++ c' :: after')
    (hc' : c'.isCallbackOf id) (hbefore : ∀ e ∈ before, ¬e.isCallbackOf id)
    (hafter : ∀ e ∈ after, ¬e.isCallbackOf id) : before = before' ∧ c = c' := by
  rcases append_eq_append_iff.mp h with ⟨rest, rfl, heq⟩ | ⟨rest, rfl, heq⟩
  · cases rest with
    | nil => exact ⟨(append_nil before).symm, (List.cons.inj heq).1⟩
    | cons first rest =>
      obtain ⟨-, rfl⟩ := List.cons.inj heq
      exact absurd hc' (hafter c' (mem_append_right rest mem_cons_self))
  · cases rest with
    | nil => exact ⟨append_nil before', (List.cons.inj heq).1.symm⟩
    | cons first rest =>
      obtain ⟨rfl, -⟩ := List.cons.inj heq
      exact absurd hc' (hbefore c' (mem_append_right before' mem_cons_self))

theorem respond_eq (hmem : id ∉ w.rpc.requestCallback) (hinit : w.rpc.isInitialized)
    (hintact : w.crashed = false) (errcode : Int) (result : J) : step w (.respond id errcode result) = some (w.record (.respond id errcode result)) := by
  have hmem' : id ∉ (w.record (.respond id errcode result)).rpc.requestCallback := hmem
  rw [step_eq hintact, World.next, if_pos hinit, World.onRecvRespond, if_neg hmem']

theorem served (h : Sound N start period w) (hquiet : w.calling = [] → w.tobeHandle = [])
    (hperiod : period = before ++ .request id method params :: since) (hne : id ≠ 0) : Served N id since w := by
  have hawaited : Awaited id since w → (w.calling = [] → ticks since < N) →
      (w.calling = [] → w.rpc.requestTimeout.timerEnabled) → Served N id since w := by
    intro hawaited hless hnabled
    have hnone : ∀ e ∈ since, ¬e.isCallbackOf id := fun e he => (hawaited.silent e he).2
    refine ⟨?_, ?_, ?_, fun hcalling _ => hnabled hcalling, ?_⟩
    · rw [countP_eq_zero.mpr hnone]
      exact Nat.zero_le 1
    · rintro before errcode result after rfl
      exact absurd (decide_eq_true rfl) (hnone (.callback id errcode result) (mem_append_right before mem_cons_self))
    · rintro hcalling (⟨e, he, hresponse⟩ | hticks)
      · exact absurd hresponse (hawaited.silent e he).1
      · exact absurd hticks (Nat.not_le.mpr (hless hcalling))
    · rintro ⟨e, he, hcallback⟩
      exact absurd hcallback (hnone e he)
  cases h.tracked before id method params since hperiod hne with
  | waiting k hwaiting =>
    have hleft := hwaiting.left
    refine hawaited hwaiting.toAwaited (fun _ => by omega) fun _ => ?_
    exact h.counted.enabled.mpr (TimeoutMonitor.size_pos_of_mem ((hwaiting.slot k).mpr rfl))
  | due hdue =>
    have hbusy : w.calling = [] → False := by
      intro hcalling
      have hin := hdue.due
      rw [hquiet hcalling] at hin
      cases hin
    exact hawaited hdue.toAwaited (fun hcalling => (hbusy hcalling).elim) fun hcalling => (hbusy hcalling).elim
  | answered hanswered =>
    obtain ⟨⟨before, errcode, result, after, rfl, hprompted, hbefore, hafter⟩, hsettled⟩ := hanswered
    have hcallback : (Event.callback id errcode result).isCallbackOf id := decide_eq_true rfl
    have hmem : Event.callback id errcode result
        ∈ before ++ .callback id errcode result :: after :=
      mem_append_right before mem_cons_self
    refine ⟨?_, fun before' errcode' result' after' heq => ?_, fun _ _ => ⟨_, hmem, hcallback⟩,
      fun _ hnone => absurd hcallback (hnone _ hmem),
      fun _ hfree => respond_eq (hsettled hfree) h.isInitialized h.intact⟩
    · rw [countP_append, countP_cons_of_pos hcallback, countP_eq_zero.mpr hbefore, countP_eq_zero.mpr hafter]
    · obtain ⟨rfl, hsame⟩ := split_unique heq (decide_eq_true rfl) hbefore hafter
      cases hsame
      exact hprompted

end Sound

/-- A tick that comes to a request finds the callback of `request_timeout_` set, no request is answered from within its
own callback, none is running at a `cleanup`, and an identifier is one that an `int` can hold. -/
def Heeded (w : World J) : Input J → Prop
  | .tick => w.rpc.requestTimeout.hasCallback ∨
      ∀ id ∈ w.rpc.requestTimeout.slot 0, id ∉ w.rpc.requestCallback
  | .respond id _ _ => id ∉ w.calling
  | .cleanup => w.calling = []
  | .request withCallback _ _ => withCallback = true → 0 ≤ w.rpc.idAlloc ∧ w.rpc.idAlloc < 2 ^ 31 - 1
  | .initializeRpc _ | .returned => True

instance : ∀ input : Input J, Decidable (Heeded w input) := by
  intro input
  cases input <;> unfold Heeded <;> infer_instance

/-- **What a step preserves**, within a period. -/
theorem sound_step {input : Input J} (h : Sound N start period w)
    (hquiet : w.calling = [] → w.tobeHandle = []) (hheeded : Heeded w input)
    (hperiod : input ≠ .cleanup) (hstep : step w input = some w') :
    ∃ new, Sound N start (period ++ new) w' ∧ (w'.calling = [] → w'.tobeHandle = []) := by
  rw [step_eq h.intact] at hstep
  cases input with
  | initializeRpc timeoutSec =>
    obtain ⟨⟨-, hinit⟩, -⟩ := ite_none_right_eq_some.mp hstep
    rw [h.isInitialized] at hinit
    cases hinit
  | cleanup => exact absurd rfl hperiod
  | request withCallback method params =>
    obtain ⟨-, hsend⟩ := ite_none_right_eq_some.mp hstep
    obtain ⟨sent, hsent, rfl⟩ := map_eq_some_iff.mp hsend
    unfold Rpc.request at hsent
    split at hsent
    · next hcallback =>
        obtain ⟨hnonneg, hsmall⟩ := hheeded hcallback
        rw [Int.bmod_eq_of_le (by omega) (by omega)] at hsent
        obtain ⟨requestTimeout, hadd, rfl⟩ := map_eq_some_iff.mp hsent
        exact ⟨_, h.request hnonneg hadd method params, hquiet⟩
    · cases hsent
      exact ⟨_, h.notify method params, hquiet⟩
  | respond id errcode result =>
    rw [World.next, if_pos h.isInitialized] at hstep
    exact some.inj hstep ▸ h.respond hquiet hheeded errcode result
  | tick =>
    obtain ⟨⟨hcalling, -⟩, htick⟩ := ite_none_right_eq_some.mp hstep
    obtain ⟨ticked, hticked, rfl⟩ := map_eq_some_iff.mp htick
    obtain ⟨new, hsound, hquiet'⟩ := (h.tick (hquiet hcalling) hticked hheeded).handleTimeouts hcalling rfl
    rw [append_assoc] at hsound
    exact ⟨_, hsound, hquiet'⟩
  | returned => exact h.returned hstep

structure Base (w : World J) : Prop where
  counted : w.rpc.requestTimeout.Counted
  quiet : w.calling = [] → w.tobeHandle = []
  blank : w.rpc.isInitialized = false →
    w.rpc.requestCallback = [] ∧ w.rpc.requestTimeout.ring = []

end Tbox.Jsonrpc
