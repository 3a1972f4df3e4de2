import Tbox.Eventx.RequestPool

/-!
# Every context leaves the pool once

What is stored under a token is told from the calls alone. The monitor still holds the tokens of requests that are
gone, and the ids go round; but those that wait are too few for an id to come twice.
-/

open List Option

namespace Tbox.Eventx.RequestPool

open Lib
open Cabinet (Token sizeMax)
open Function (update_self update_of_ne update)

variable {α : Type}

/-- What is stored under the tokens, with the number of ticks that had begun when the request was made. -/
abbrev Held (α : Type) := Token → Option (Option α × Nat)

def Event.apply (tick : Nat) (held : Held α) : Event α → Held α
  | .created token ctx => update held token (some (ctx, tick))
  | .updated token ctx _ => update held token ((held token).map fun request => (ctx, request.2))
  | .removed token _ | .expired token _ => update held token none

def holds (log : List (Event α × Nat)) : Held α :=
  log.foldl (fun held entry => entry.1.apply entry.2 held) fun _ => none

def Event.Right (n tick : Nat) (held : Held α) : Event α → Prop
  | .created token _ => held token = none
  | .updated token _ result => result = (held token).isSome
  | .removed token ctx => ctx = (held token).bind Prod.fst
  | .expired token ctx => ctx = (held token).bind Prod.fst ∧ ∀ request ∈ held token, tick = request.2 + n

/-- Each context leaves the pool once: by `removeRequest`, or else at the tick that comes `n` after those begun when the
request was made. -/
structure Exact (n : Nat) (s : RequestPool α) : Prop where
  right : ∀ before event tick after, s.log = before ++ (event, tick) :: after → event.Right n tick (holds before)
  punctual : ∀ token request, holds s.log token = some request → s.timeoutMonitor.ticks < request.2 + n ∨
    (s.timeoutMonitor.ticks = request.2 + n ∧ token ∈ s.timeoutMonitor.tobeHandle)

/-- The tokens that wait in the monitor, with the ticks begun when they were added. -/
def waiting (s : RequestPool α) : List (Token × Nat) :=
  s.timeoutMonitor.added.drop s.timeoutMonitor.reported.length

structure Kept (n : Nat) (s : RequestPool α) : Prop where
  timely : s.timeoutMonitor.Timely n
  stored : ∀ token, s.reqCtxCabinet.view token = (holds s.log token).map Prod.fst
  /-- the ids are given out in turn -/
  ids : ∀ i entry, s.timeoutMonitor.added[i]? = some entry → entry.1.id = i % sizeMax + 1
  next : (if s.reqCtxCabinet.lastId = sizeMax then 0 else s.reqCtxCabinet.lastId)
    = s.timeoutMonitor.added.length % sizeMax
  waits : ∀ token request, holds s.log token = some request → (token, request.2) ∈ s.waiting
  room : s.waiting.length ≤ sizeMax
  right : ∀ before event tick after, s.log = before ++ (event, tick) :: after → event.Right n tick (holds before)

section Logs

variable {log : List (Event α × Nat)} {event : Event α} {n tick : Nat}

theorem holds_concat (log : List (Event α × Nat)) (event : Event α) (tick : Nat) :
    holds (log ++ [(event, tick)]) = event.apply tick (holds log) := by
  rw [holds, foldl_append]
  rfl

theorem right_concat
    (h : ∀ before event tick after, log = before ++ (event, tick) :: after → event.Right n tick (holds before))
    (hevent : event.Right n tick (holds log)) : ∀ before event' tick' after,
      log ++ [(event, tick)] = before ++ (event', tick') :: after → event'.Right n tick' (holds before) := by
  intro before event' tick' after heq
  rcases eq_nil_or_concat after with rfl | ⟨after, last, rfl⟩
  · obtain ⟨rfl, hlast⟩ := append_inj' heq rfl
    cases hlast
    exact hevent
  · rw [concat_eq_append, ← cons_append, ← append_assoc] at heq
    obtain ⟨hlog, -⟩ := append_inj' heq rfl
    exact h before event' tick' after hlog

end Logs

section Monitors

variable {τ : Type} {m : TimeoutMonitor.Session τ} {n : Nat}

theorem waiting_split (h : m.Timely n) : ∃ now later, m.added.drop m.reported.length = now ++ later ∧
    now.map Prod.fst = m.tobeHandle ∧ (∀ entry ∈ now, entry.2 + n = m.ticks) ∧
      ∀ entry ∈ later, m.ticks < entry.2 + n := by
  have hsorted : m.added.Pairwise fun first second => first.2 + n ≤ second.2 + n :=
    h.sorted.imp fun hle => Nat.add_le_add_right hle n
  have hreported := h.reported
  rw [TimeoutMonitor.Session.due] at hreported
  generalize hdue : m.added.filter (fun entry => entry.2 + n ≤ m.ticks) = due at hreported
  generalize hlater : m.added.filter (fun entry => m.ticks < entry.2 + n) = later
  have hadded : due ++ later = m.added := by
    rw [← hdue, ← hlater]
    exact Lib.filter_le_append_filter_lt hsorted m.ticks
  have hlength : m.reported.length ≤ due.length := by
    have hlengths := congrArg List.length hreported
    rw [length_append, length_map, length_map] at hlengths
    omega
  have hnow : (due.drop m.reported.length).map (fun entry => (entry.1, entry.2 + n)) =
      m.tobeHandle.map fun value => (value, m.ticks) := by
    rw [map_drop, ← hreported, drop_left]
  refine ⟨due.drop m.reported.length, later, ?_, ?_, fun entry hentry => ?_, fun entry hentry => ?_⟩
  · rw [← hadded, drop_append_of_le_length hlength]
  · have hvalues := congrArg (List.map Prod.fst) hnow
    rw [List.map_map, List.map_map] at hvalues
    exact hvalues.trans (List.map_id _)
  · have hmem := List.mem_map_of_mem (f := fun entry => (entry.1, entry.2 + n)) hentry
    rw [hnow] at hmem
    obtain ⟨value, -, hvalue⟩ := List.mem_map.mp hmem
    exact (Prod.mk.inj hvalue).2.symm
  · rw [← hlater] at hentry
    exact of_decide_eq_true (mem_filter.mp hentry).2

theorem length_waiting (h : m.Timely n) :
    (m.added.drop m.reported.length).length = m.monitor.size + m.tobeHandle.length := by
  have hnumber := h.number
  rw [h.counted.number] at hnumber
  rw [length_drop]
  omega

end Monitors

variable {n : Nat} {s t : RequestPool α}

theorem Kept.waiting_nodup (h : Kept n s) : (s.waiting.map Prod.fst).Nodup := by
  rw [nodup_iff_pairwise_ne, pairwise_map, pairwise_iff_getElem]
  intro i j hi hj hlt heq
  have hroom := h.room
  have hid : ∀ k (hk : k < s.waiting.length),
      s.waiting[k].1.id = (s.timeoutMonitor.reported.length + k) % sizeMax + 1 := by
    intro k hk
    apply h.ids
    rw [← List.getElem?_drop]
    exact getElem?_eq_getElem hk
  have hsame := congrArg Token.id heq
  rw [hid i hi, hid j hj] at hsame
  have hmod : (s.timeoutMonitor.reported.length + i) % sizeMax = (s.timeoutMonitor.reported.length + j) % sizeMax :=
    Nat.succ.inj hsame
  rw [sizeMax] at hmod hroom
  omega

variable {request : Option α × Nat} {token : Token}

theorem Kept.born_eq (h : Kept n s) {born : Nat}
    (hheld : holds s.log token = some request) (hwaits : (token, born) ∈ s.waiting) : request.2 = born := by
  have hentry := h.waits token request hheld
  have hsame := inj_on_of_nodup_map h.waiting_nodup hentry hwaits rfl
  exact (Prod.mk.inj hsame).2

theorem Kept.punctual (h : Kept n s)
    (hheld : holds s.log token = some request) : s.timeoutMonitor.ticks < request.2 + n ∨
      (s.timeoutMonitor.ticks = request.2 + n ∧ token ∈ s.timeoutMonitor.tobeHandle) := by
  obtain ⟨now, later, hsplit, htokens, hnow, hlater⟩ := waiting_split h.timely
  have hwaits := h.waits token request hheld
  rw [waiting, hsplit] at hwaits
  rcases mem_append.mp hwaits with hmem | hmem
  · right
    refine ⟨(hnow _ hmem).symm, ?_⟩
    rw [← htokens]
    exact List.mem_map_of_mem (f := Prod.fst) hmem
  · exact .inl (hlater _ hmem)

theorem Kept.exact (h : Kept n s) : Exact n s := ⟨h.right, fun _ _ hheld => h.punctual hheld⟩

theorem kept_start {checkTimes : Int} (h : 1 ≤ checkTimes) :
    Kept checkTimes.toNat (start checkTimes : RequestPool α) where
  timely := TimeoutMonitor.Session.timely_start h
  stored token := @Cabinet.view_empty α token
  ids _ _ hentry := nomatch hentry
  next := rfl
  waits _ _ hheld := nomatch hheld
  room := Nat.zero_le _
  right before _ _ after hlog := absurd hlog.symm (append_ne_nil_of_right_ne_nil before (cons_ne_nil _ after))

theorem Kept.of_note (h : Kept n s) {event : Event α} {cabinet : Cabinet α}
    (hright : event.Right n s.timeoutMonitor.ticks (holds s.log))
    (hview : ∀ token, cabinet.view token = (event.apply s.timeoutMonitor.ticks (holds s.log) token).map Prod.fst)
    (hlast : cabinet.lastId = s.reqCtxCabinet.lastId)
    (hheld : ∀ token request, event.apply s.timeoutMonitor.ticks (holds s.log) token = some request →
      ∃ old, holds s.log token = some old ∧ old.2 = request.2) :
    Kept n { s.note event with reqCtxCabinet := cabinet } := by
  have hlog : holds (s.log ++ [(event, s.timeoutMonitor.ticks)]) = event.apply s.timeoutMonitor.ticks (holds s.log) :=
    holds_concat s.log event s.timeoutMonitor.ticks
  constructor
  · exact h.timely
  · intro token
    exact (hview token).trans (congrArg (fun held : Held α => (held token).map Prod.fst) hlog.symm)
  · exact h.ids
  · rw [hlast]
    exact h.next
  · intro token request hnew
    have happly : event.apply s.timeoutMonitor.ticks (holds s.log) token = some request :=
      (congrArg (fun held : Held α => held token) hlog).symm.trans hnew
    obtain ⟨old, hold, hborn⟩ := hheld token request happly
    rw [← hborn]
    exact h.waits token old hold
  · exact h.room
  · exact right_concat h.right hright

theorem Kept.updateRequest (h : Kept n s) (token : Token) (ctx : Option α) : Kept n (s.updateRequest token ctx) := by
  have hview := h.stored token
  refine h.of_note ?result (fun other => ?view) (Cabinet.lastId_update ..) fun other request hnew => ?held
  case result =>
    show (s.reqCtxCabinet.update token ctx).1 = (holds s.log token).isSome
    rw [Cabinet.update_fst, hview, isSome_map]
  case view =>
    show (s.reqCtxCabinet.update token ctx).2.view other =
      (update (holds s.log) token ((holds s.log token).map fun request => (ctx, request.2)) other).map Prod.fst
    rw [Cabinet.view_update, hview]
    by_cases heq : other = token
    · rw [heq, update_self]
      cases hheld : holds s.log token with
      | none => exact hview.trans (congrArg (Option.map Prod.fst) hheld)
      | some request => exact update_self ..
    · rw [update_of_ne heq, ← h.stored other]
      split
      · exact update_of_ne heq ..
      · rfl
  case held =>
    have hupdated : update (holds s.log) token ((holds s.log token).map fun request => (ctx, request.2)) other
        = some request := hnew
    by_cases heq : other = token
    · rw [heq, update_self] at hupdated
      obtain ⟨old, hold, rfl⟩ := map_eq_some_iff.mp hupdated
      exact ⟨old, heq ▸ hold, rfl⟩
    · rw [update_of_ne heq] at hupdated
      exact ⟨request, hupdated, rfl⟩

theorem Kept.freed (h : Kept n s) (token : Token) :
    (s.reqCtxCabinet.free token).1 = (holds s.log token).bind Prod.fst ∧
      ∀ other, (s.reqCtxCabinet.free token).2.view other = (update (holds s.log) token none other).map Prod.fst := by
  constructor
  · rw [Cabinet.free_fst, Cabinet.at?_eq_join_view, h.stored]
    cases holds s.log token <;> rfl
  · intro other
    rw [Cabinet.view_free, funext h.stored]
    exact (Function.apply_update (fun _ => Option.map Prod.fst) _ token none other).symm

theorem held_of_update_none {held : Held α} {token other : Token}
    (hnew : update held token none other = some request) : other ≠ token ∧ held other = some request := by
  by_cases heq : other = token
  · rw [heq, update_self] at hnew
    cases hnew
  · rw [update_of_ne heq] at hnew
    exact ⟨heq, hnew⟩

theorem Kept.removeRequest (h : Kept n s) (token : Token) : Kept n (s.removeRequest token) := by
  obtain ⟨hctx, hview⟩ := h.freed token
  refine h.of_note hctx hview (Cabinet.lastId_free ..) fun other request hnew => ?_
  exact ⟨request, (held_of_update_none hnew).2, rfl⟩

theorem next_mod (k : Nat) : (if k % sizeMax + 1 = sizeMax then 0 else k % sizeMax + 1) = (k + 1) % sizeMax := by
  rw [sizeMax]
  split <;> omega

theorem newRequest_spec {ctx : Option α} (ht : s.newRequest ctx = some t) : s.waitingNumber < sizeMax ∧
    s.timeoutMonitor.step (.add (s.reqCtxCabinet.alloc ctx).1) = some t.timeoutMonitor ∧
      t.reqCtxCabinet = (s.reqCtxCabinet.alloc ctx).2 ∧
      t.log = s.log ++ [(.created (s.reqCtxCabinet.alloc ctx).1 ctx, s.timeoutMonitor.ticks)] := by
  obtain ⟨hroom, ht⟩ := ite_none_right_eq_some.mp ht
  obtain ⟨monitor, hadd, rfl⟩ := map_eq_some_iff.mp ht
  exact ⟨hroom, hadd, rfl, rfl⟩

theorem step_add_spec {m m' : TimeoutMonitor.Session Token} (h : m.step (.add token) = some m') :
    m'.added = m.added ++ [(token, m.ticks)] ∧ m'.reported = m.reported := by
  obtain ⟨monitor, -, rfl⟩ := map_eq_some_iff.mp h
  exact ⟨rfl, rfl⟩

theorem Kept.newRequest (h : Kept n s) (hn : 0 < n) {ctx : Option α} (ht : s.newRequest ctx = some t) : Kept n t := by
  obtain ⟨hroom, hadd, hcabinet, hlog⟩ := newRequest_spec ht
  obtain ⟨hadded, hreported⟩ := step_add_spec hadd
  have hfresh : holds s.log (s.reqCtxCabinet.alloc ctx).1 = none := by
    have hview := h.stored (s.reqCtxCabinet.alloc ctx).1
    rw [Cabinet.view_alloc_fst] at hview
    exact map_eq_none_iff.mp hview.symm
  -- the id that is given out, and the one that comes next
  have hid : (s.reqCtxCabinet.alloc ctx).1.id = s.timeoutMonitor.added.length % sizeMax + 1 := congrArg (· + 1) h.next
  have hlast : (s.reqCtxCabinet.alloc ctx).2.lastId = s.timeoutMonitor.added.length % sizeMax + 1 :=
    (Cabinet.lastId_alloc ..).trans hid
  have hview : (s.reqCtxCabinet.alloc ctx).2.view =
      update s.reqCtxCabinet.view (s.reqCtxCabinet.alloc ctx).1 (some ctx) := Cabinet.view_alloc ..
  generalize (s.reqCtxCabinet.alloc ctx).1 = token at *
  rw [← hcabinet] at hlast hview
  have hholds : holds t.log = update (holds s.log) token (some (ctx, s.timeoutMonitor.ticks)) := by
    rw [hlog]
    exact holds_concat ..
  have hle : s.timeoutMonitor.reported.length ≤ s.timeoutMonitor.added.length := by
    have hnumber := h.timely.number
    rw [h.timely.counted.number] at hnumber
    omega
  have hwaiting : t.waiting = s.waiting ++ [(token, s.timeoutMonitor.ticks)] := by
    rw [waiting, hadded, hreported, drop_append_of_le_length hle]
    rfl
  constructor
  · exact h.timely.add hn hadd
  · intro other
    rw [hholds, hview, funext h.stored]
    exact (Function.apply_update (fun _ => Option.map Prod.fst) _ token (some (ctx, _)) other).symm
  · intro i entry hget
    rw [hadded] at hget
    by_cases hi : i < s.timeoutMonitor.added.length
    · rw [getElem?_append_left hi] at hget
      exact h.ids i entry hget
    rw [getElem?_append_right (Nat.le_of_not_lt hi), List.getElem?_singleton] at hget
    obtain ⟨hzero, hget⟩ := ite_none_right_eq_some.mp hget
    have hi : i = s.timeoutMonitor.added.length := by omega
    rw [← some.inj hget, hi]
    exact hid
  · rw [hlast, hadded, length_append, length_singleton]
    exact next_mod _
  · intro other request hheld
    rw [hholds] at hheld
    rw [hwaiting]
    by_cases heq : other = token
    · rw [heq, update_self] at hheld
      rw [heq, ← some.inj hheld]
      exact mem_append_right _ (mem_singleton.mpr rfl)
    · rw [update_of_ne heq] at hheld
      exact mem_append_left _ (h.waits other request hheld)
  · rw [hwaiting, length_append, length_singleton, waiting, length_waiting h.timely]
    exact hroom
  · rw [hlog]
    exact right_concat h.right hfresh

variable {monitor : TimeoutMonitor.Session Token}

theorem Kept.tick (h : Kept n s) (hn : 0 < n)
    (htick : s.timeoutMonitor.step .tick = some monitor) : Kept n { s with timeoutMonitor := monitor } := by
  have htimely := h.timely.tick hn htick
  have hsame : monitor.added = s.timeoutMonitor.added ∧ monitor.reported = s.timeoutMonitor.reported := by
    simp only [TimeoutMonitor.Session.step] at htick
    split at htick
    · obtain ⟨ticked, -, rfl⟩ := map_eq_some_iff.mp htick
      exact ⟨rfl, rfl⟩
    · cases htick
  obtain ⟨hadded, hreported⟩ := hsame
  have hwaiting : monitor.added.drop monitor.reported.length = s.waiting := by
    rw [hadded, hreported]
    rfl
  constructor
  · exact htimely
  · exact h.stored
  · intro i entry hentry
    have hget : monitor.added[i]? = some entry := hentry
    rw [hadded] at hget
    exact h.ids i entry hget
  · show _ = monitor.added.length % sizeMax
    rw [hadded]
    exact h.next
  · intro token request hheld
    show _ ∈ monitor.added.drop monitor.reported.length
    rw [hwaiting]
    exact h.waits token request hheld
  · show (monitor.added.drop monitor.reported.length).length ≤ sizeMax
    rw [hwaiting]
    exact h.room
  · exact h.right

theorem Kept.waiting_head (h : Kept n s) {rest : List Token}
    (htobe : s.timeoutMonitor.tobeHandle = token :: rest) :
    ∃ born later, s.waiting = (token, born) :: later ∧ born + n = s.timeoutMonitor.ticks := by
  obtain ⟨now, later, hsplit, htokens, hnow, -⟩ := waiting_split h.timely
  rw [htobe] at htokens
  obtain ⟨⟨first, born⟩, more, rfl, rfl, -⟩ := map_eq_cons_iff.mp htokens
  exact ⟨born, more ++ later, hsplit, hnow _ mem_cons_self⟩

theorem Kept.report (h : Kept n s) {rest : List Token}
    (htobe : s.timeoutMonitor.tobeHandle = token :: rest)
    (hreport : s.timeoutMonitor.step .report = some monitor) :
    Kept n { s.onTimeout token with timeoutMonitor := monitor } := by
  obtain ⟨born, later, hwaiting, hdue⟩ := h.waiting_head htobe
  obtain ⟨hctx, hview⟩ := h.freed token
  have htimely := h.timely.report hreport
  have hmonitor : monitor.added = s.timeoutMonitor.added ∧
      monitor.reported = s.timeoutMonitor.reported ++ [(token, s.timeoutMonitor.ticks)] := by
    simp only [TimeoutMonitor.Session.step, htobe] at hreport
    cases hreport
    exact ⟨rfl, rfl⟩
  obtain ⟨hadded, hreported⟩ := hmonitor
  have hlater : monitor.added.drop monitor.reported.length = later := by
    rw [hadded, hreported, length_append, length_singleton, ← drop_drop]
    exact congrArg (List.drop 1) hwaiting
  have hholds : holds (s.log ++ [(.expired token (s.reqCtxCabinet.free token).1, s.timeoutMonitor.ticks)]) =
      update (holds s.log) token none := holds_concat ..
  constructor
  · exact htimely
  · intro other
    exact (hview other).trans (congrArg (fun held : Held α => (held other).map Prod.fst) hholds.symm)
  · intro i entry hentry
    have hget : monitor.added[i]? = some entry := hentry
    rw [hadded] at hget
    exact h.ids i entry hget
  · show (if (s.reqCtxCabinet.free token).2.lastId = sizeMax then 0 else (s.reqCtxCabinet.free token).2.lastId)
      = monitor.added.length % sizeMax
    rw [Cabinet.lastId_free, hadded]
    exact h.next
  · intro other request hheld
    show _ ∈ monitor.added.drop monitor.reported.length
    obtain ⟨hne, hold⟩ := held_of_update_none ((congrArg (fun held : Held α => held other) hholds).symm.trans hheld)
    have hwaits := h.waits other request hold
    rw [hlater]
    rw [hwaiting] at hwaits
    refine (mem_cons.mp hwaits).resolve_left fun heq => ?_
    exact hne (Prod.mk.inj heq).1
  · show (monitor.added.drop monitor.reported.length).length ≤ sizeMax
    have hroom := h.room
    rw [hwaiting, length_cons] at hroom
    rw [hlater]
    omega
  · refine right_concat h.right ⟨hctx, fun request hheld => ?_⟩
    have hwaits : (token, born) ∈ s.waiting := by
      rw [hwaiting]
      exact mem_cons_self
    rw [h.born_eq hheld hwaits]
    exact hdue.symm

/-- **What every step keeps.** -/
theorem Kept.step (hn : 0 < n) (h : Kept n s) {move : Move α} (ht : s.step move = some t) : Kept n t := by
  cases move with
  | newRequest ctx =>
    obtain ⟨-, ht⟩ := ite_none_right_eq_some.mp ht
    exact h.newRequest hn ht
  | updateRequest token ctx =>
    obtain ⟨-, rfl⟩ := ite_some_none_eq_some.mp ht
    exact h.updateRequest token ctx
  | removeRequest token =>
    obtain ⟨-, rfl⟩ := ite_some_none_eq_some.mp ht
    exact h.removeRequest token
  | tick =>
    obtain ⟨-, ht⟩ := ite_none_right_eq_some.mp ht
    obtain ⟨monitor, htick, rfl⟩ := map_eq_some_iff.mp ht
    exact h.tick hn htick
  | report =>
    simp only [RequestPool.step] at ht
    split at ht
    · rename_i hacting htobe
      obtain ⟨monitor, hreport, rfl⟩ := map_eq_some_iff.mp ht
      exact h.report htobe hreport
    · cases ht
  | returned =>
    obtain ⟨-, rfl⟩ := ite_some_none_eq_some.mp ht
    exact { h with }

/-- **Every context leaves the pool once**, by a removal that comes before the turn of its token, or at that turn. -/
theorem contexts_leave_once {checkTimes : Int} (hn : 1 ≤ checkTimes) {moves : List (Move α)}
    (hrun : run RequestPool.step (start checkTimes) moves = some s) : Exact checkTimes.toNat s := by
  have hpos : 0 < checkTimes.toNat := by omega
  exact (run_invariant_of_step (fun _ _ _ h => Kept.step hpos h) (kept_start hn) hrun).exact

/-- A request is removed in time; its cell is used again, and the token that waits on for it takes nothing out. -/
def reusedCell : List (Move Nat) :=
  [.newRequest (some 7), .newRequest (some 8), .removeRequest ⟨1, 0⟩, .newRequest (some 9), .tick,
    .updateRequest ⟨3, 0⟩ (some 10), .tick, .report, .report, .newRequest (some 11), .removeRequest ⟨3, 0⟩, .returned,
    .report]

theorem contexts_leave_once_reusedCell : ∃ s, run RequestPool.step (start 2) reusedCell = some s ∧
    s.log.map Prod.fst = [.created ⟨1, 0⟩ (some 7), .created ⟨2, 1⟩ (some 8), .removed ⟨1, 0⟩ (some 7),
      .created ⟨3, 0⟩ (some 9), .updated ⟨3, 0⟩ (some 10) true, .expired ⟨1, 0⟩ none, .expired ⟨2, 1⟩ (some 8),
      .created ⟨4, 1⟩ (some 11), .removed ⟨3, 0⟩ (some 10), .expired ⟨3, 0⟩ none] ∧ Exact 2 s := by
  have htwo : (1 : Int) ≤ 2 := by decide
  exact ⟨_, rfl, rfl, contexts_leave_once htwo (show run RequestPool.step (start 2) reusedCell = _ from rfl)⟩

/-- What `removeRequest` takes out, it takes out before the tick at which it would be due has begun. -/
def RemovedBefore (n : Nat) (s : RequestPool α) : Prop :=
  ∀ before token ctx tick after request, s.log = before ++ (.removed token (some ctx), tick) :: after →
    holds before token = some request → tick < request.2 + n

/-- At the tick at which both requests are due, the action for the first one removes the second. -/
theorem removed_at_its_tick : ∃ s, run RequestPool.step (start 2) reusedCell = some s ∧ ¬RemovedBefore 2 s := by
  have hrun : ∃ s, run RequestPool.step (start 2) reusedCell = some s ∧
      s.log[8]? = some (.removed ⟨3, 0⟩ (some 10), 2) ∧ holds (s.log.take 8) ⟨3, 0⟩ = some (some 10, 0) ∧
      s.log.take 8 ++ s.log[8]?.toList ++ s.log.drop 9 = s.log := ⟨_, rfl, rfl, by decide, by decide⟩
  obtain ⟨s, hrun, hremoved, hheld, hlog⟩ := hrun
  refine ⟨s, hrun, fun hbefore => ?_⟩
  rw [hremoved, Option.toList_some, List.append_assoc, List.singleton_append] at hlog
  exact absurd (hbefore _ _ _ _ _ _ hlog.symm hheld) (by decide)

end Tbox.Eventx.RequestPool
