import Tbox.Lib.Run
import Tbox.Network.TcpServer

/-!
# The lifetime of the connections of a TCP server

Every connection is stored in the cabinet, waiting for its deletion in the loop, or deleted. `stop` deletes what is
stored at once, and that is wrong exactly if a callback of a stored connection is running.
-/

open List Option

namespace Tbox.Network

open Lib Cabinet
open Function (update_self update_of_ne update_eq_self update_idem)

namespace TcpServer

variable {s t : TcpServer} {c c' : ConnPtr} {client : Token} {a : Action}

def Stored (s : TcpServer) (c : ConnPtr) : Prop := s.conns.at? (s.connection c).token = some c

instance (s : TcpServer) (c : ConnPtr) : Decidable (s.Stored c) := inferInstanceAs (Decidable (_ = _))

/-- No connection is deleted twice, in its own callback or not at all, and the disconnected callback comes once and in
time. -/
structure Sound (s : TcpServer) : Prop where
  once : ∀ c, (s.connection c).deleted ≤ 1 ∧ (s.connection c).fdDeleted ≤ 1
  running : ∀ k c, s.running = some (k, c) → (s.connection c).deleted = 0 ∧ (s.connection c).fdDeleted = 0
  calls_nodup : (s.disconnectedCalls.map DisconnectedCall.conn).Nodup
  calls : ∀ call ∈ s.disconnectedCalls, call.tokenValid = true ∧ call.ended = false
  settled : s.state = .kNone → s.tasks = [] → s.running = none →
    ∀ c < s.accepted, (s.connection c).deleted = 1 ∧ (s.connection c).fdDeleted = 1

/-- The server is not stopped in a callback of a connection that it still has. -/
def Heeds (s : TcpServer) : Action → Prop
  | .stop => s.state = .kRunning → ∀ k c, s.running = some (k, c) → ¬s.Stored c
  | _ => True

/-- What the operations keep. `conn` and `fd` say where a connection and its descriptor are. -/
structure Kept (s : TcpServer) : Prop where
  stored : ∀ token obj, s.conns.view token = some obj → ∃ c, obj = some c ∧ (s.connection c).token = token
  conn : ∀ c, (s.connection c).deleted + s.tasks.count (.deleteConn (some c)) + (if s.Stored c then 1 else 0) =
    if c < s.accepted then 1 else 0
  fd : ∀ c, (s.connection c).fdDeleted + s.tasks.count (.deleteFd c) +
    (if (s.connection c).spBufferedFd then 1 else 0) = if c < s.accepted then 1 else 0
  buffered : ∀ c, (s.connection c).spBufferedFd = true → s.Stored c
  closing : ∀ c, s.Stored c → ((s.connection c).spBufferedFd = false ↔ s.running = some (.disconnected, c))
  running : ∀ k c, s.running = some (k, c) → (s.connection c).deleted = 0 ∧ (s.connection c).fdDeleted = 0
  sole : ∀ k c c', s.running = some (k, c) → s.conns.at? (s.connection c).token = some c' → c' = c
  ended : ∀ c, s.Stored c → (s.connection c).ended = false
  calls_nodup : (s.disconnectedCalls.map DisconnectedCall.conn).Nodup
  calls : ∀ call ∈ s.disconnectedCalls, call.tokenValid = true ∧ call.ended = false ∧ call.conn < s.accepted ∧
    (s.connection call.conn).spBufferedFd = false
  resting : s.state ≠ .kRunning → ∀ token, s.conns.view token = none

theorem stored_iff_of_eq (hconns : t.conns = s.conns) (htoken : (t.connection c).token = (s.connection c).token) :
    t.Stored c ↔ s.Stored c := by
  rw [Stored, Stored, hconns, htoken]

theorem view_of_at {conns : Cabinet ConnPtr} (hat : conns.at? client = some c) : conns.view client = some (some c) := by
  rw [at?_eq_join_view] at hat
  exact join_eq_some_iff.mp hat

theorem Kept.stored_of_at (h : Kept s) (hat : s.conns.at? client = some c) :
    s.Stored c ∧ (s.connection c).token = client := by
  obtain ⟨c', heq, htoken⟩ := h.stored client _ (view_of_at hat)
  cases heq
  exact ⟨by rw [Stored, htoken]; exact hat, htoken⟩

theorem Kept.lt_accepted (h : Kept s) (hstored : s.Stored c) : c < s.accepted := by
  by_contra hnot
  have hconn := h.conn c
  rw [if_pos hstored, if_neg hnot] at hconn
  omega

theorem Kept.sound (h : Kept s) : Sound s := by
  refine ⟨fun c => ?_, h.running, h.calls_nodup, fun call hmem => ?_, fun hstate htasks hrunning c hc => ?_⟩
  · have hconn := h.conn c
    have hfd := h.fd c
    split_ifs at hconn hfd <;> omega
  · obtain ⟨hvalid, hended, -⟩ := h.calls call hmem
    exact ⟨hvalid, hended⟩
  have hnot : ¬s.Stored c := by
    intro hstored
    have hview := view_of_at hstored
    rw [h.resting (by rw [hstate]; nofun)] at hview
    cases hview
  have hconn := h.conn c
  have hfd := h.fd c
  rw [htasks, count_nil, if_neg hnot, if_pos hc] at hconn
  rw [htasks, count_nil, if_neg fun hbuffered => hnot (h.buffered c hbuffered), if_pos hc] at hfd
  omega

/-! What the operations do to a connection and to its descriptor -/

@[simp]
theorem connection_setConnection_self (s : TcpServer) (c : ConnPtr) (conn : TcpConnection) :
    (s.setConnection c conn).connection c = conn := update_self ..

theorem connection_setConnection (s : TcpServer) (c c' : ConnPtr) (conn : TcpConnection) :
    (s.setConnection c conn).connection c' = if c' = c then conn else s.connection c' := Function.update_apply ..

@[simp]
theorem setConnection_setConnection (s : TcpServer) (c : ConnPtr) (conn conn' : TcpConnection) :
    (s.setConnection c conn).setConnection c conn' = s.setConnection c conn' := by
  rw [setConnection, setConnection, update_idem]
  rfl

theorem deleteConnection_eq (s : TcpServer) (c : ConnPtr) :
    s.deleteConnection c = s.setConnection c { s.connection c with
      spBufferedFd := false
      deleted := (s.connection c).deleted + 1
      fdDeleted := (s.connection c).fdDeleted + if (s.connection c).spBufferedFd then 1 else 0 } := by
  simp only [deleteConnection, deleteBufferedFd, connection_setConnection_self, setConnection_setConnection]
  cases hbuffered : (s.connection c).spBufferedFd with
  | false => rfl
  | true => rfl

theorem disconnectConnection_eq (s : TcpServer) (c : ConnPtr) :
    s.disconnectConnection c =
      { s.setConnection c { s.connection c with spBufferedFd := false, ended := true } with
        tasks := s.tasks ++ if (s.connection c).spBufferedFd then [.deleteFd c] else [] } := by
  simp only [disconnectConnection, swapBufferedFd, connection_setConnection_self, setConnection_setConnection]
  cases hbuffered : (s.connection c).spBufferedFd with
  | false =>
    rw [if_neg Bool.false_ne_true, if_neg Bool.false_ne_true, append_nil]
    rfl
  | true => rfl

/-- What `stop` makes of a connection. -/
def stopped (conn : TcpConnection) : TcpConnection :=
  { conn with spBufferedFd := false, deleted := conn.deleted + 1, ended := true }

theorem stopConnection_eq (s : TcpServer) (c : ConnPtr) :
    s.stopConnection (some c) = { s.setConnection c (stopped (s.connection c)) with
      tasks := s.tasks ++ if (s.connection c).spBufferedFd then [.deleteFd c] else [] } := by
  rw [stopConnection, disconnectConnection_eq, deleteConnection_eq]
  simp only [setConnection, update_self, update_idem]
  rfl

/-- What the loop of `stop` does with the objects it comes across. -/
structure StoppedAll (s t : TcpServer) (objs : List (Option ConnPtr)) : Prop where
  others : t = { s with connection := t.connection, tasks := t.tasks }
  connection : ∀ c, t.connection c = if some c ∈ objs then stopped (s.connection c) else s.connection c
  deleteConn : ∀ o, t.tasks.count (.deleteConn o) = s.tasks.count (.deleteConn o)
  deleteFd : ∀ c, t.tasks.count (.deleteFd c) =
    s.tasks.count (.deleteFd c) + if some c ∈ objs ∧ (s.connection c).spBufferedFd = true then 1 else 0

theorem stoppedAll (s : TcpServer) {objs : List (Option ConnPtr)} (hnodup : objs.Nodup) :
    StoppedAll s (objs.foldl stopConnection s) objs := by
  induction objs generalizing s with
  | nil =>
    refine ⟨rfl, fun c => (if_neg not_mem_nil).symm, fun o => rfl, fun c => ?_⟩
    rw [if_neg fun hmem => not_mem_nil hmem.1]
    rfl
  | cons obj objs ih =>
    obtain ⟨hnotMem, hrest⟩ := nodup_cons.mp hnodup
    rw [foldl_cons]
    obtain ⟨hothers, hconnection, hdeleteConn, hdeleteFd⟩ := ih (s.stopConnection obj) hrest
    cases obj with
    | none =>
      refine ⟨hothers, fun c => ?_, hdeleteConn, fun c => ?_⟩
      · simp only [hconnection, mem_cons, reduceCtorEq, false_or]
        rfl
      · simp only [hdeleteFd, mem_cons, reduceCtorEq, false_or]
        rfl
    | some c =>
      generalize objs.foldl stopConnection (s.stopConnection (some c)) = t at *
      rw [stopConnection_eq] at hothers hconnection hdeleteConn hdeleteFd
      refine ⟨hothers, fun c' => ?_, fun o => ?_, fun c' => ?_⟩
      · rw [hconnection, connection_setConnection]
        by_cases hc : c' = c
        · subst hc
          rw [if_neg hnotMem, if_pos rfl, if_pos mem_cons_self]
        · simp only [mem_cons, some.injEq, hc, false_or, if_false]
      · rw [hdeleteConn, count_append]
        split_ifs <;> rfl
      rw [hdeleteFd, connection_setConnection, count_append]
      by_cases hc : c' = c
      · subst hc
        simp only [hnotMem, false_and, if_false, mem_cons_self, true_and]
        split_ifs
        · rw [count_singleton_self]
        · rfl
      · have hne : Task.deleteFd c' ≠ .deleteFd c := fun heq => hc (Task.deleteFd.inj heq)
        simp only [mem_cons, some.injEq, hc, false_or, if_false]
        split_ifs <;> simp [Ne.symm hne]

theorem Kept.mem_objects (h : Kept s) : some c ∈ s.conns.objects ↔ s.Stored c := by
  rw [mem_objects_iff]
  constructor
  · rintro ⟨token, hview⟩
    have hat : s.conns.at? token = some c := by
      rw [at?_eq_join_view, hview]
      rfl
    exact (h.stored_of_at hat).1
  · exact fun hstored => ⟨_, view_of_at hstored⟩

theorem Kept.nodup_objects (h : Kept s) : s.conns.objects.Nodup := by
  apply Cabinet.nodup_objects
  intro token token' obj hview hview'
  obtain ⟨c, rfl, htoken⟩ := h.stored token obj hview
  obtain ⟨c', heq, htoken'⟩ := h.stored token' _ hview'
  cases heq
  exact htoken.symm.trans htoken'

theorem not_stored_of_clear (hconns : t.conns = s.conns.clear) : ¬t.Stored c := by
  rw [Stored, hconns, at?_eq_join_view, show s.conns.clear = .empty from rfl, view_empty]
  exact nofun

theorem Kept.stop (h : Kept s) (hheeds : Heeds s .stop) : Kept s.stop := by
  rw [TcpServer.stop]
  split_ifs with hstate
  · exact h
  replace hstate := not_not.mp hstate
  have hall := stoppedAll s h.nodup_objects
  generalize s.conns.objects.foldl stopConnection s = t at hall
  obtain ⟨hothers, hconnection, hdeleteConn, hdeleteFd⟩ := hall
  simp only [h.mem_objects] at hconnection hdeleteFd
  rw [hothers]
  refine ⟨fun token obj hview => ?_, fun c => ?_, fun c => ?_, fun c hbuffered => ?_, fun c hstored => ?_,
    fun k c hrunning => ?_, fun k c c' hrunning hat => ?_, fun c hstored => ?_, h.calls_nodup, fun call hmem => ?_,
    fun _ token => view_empty token⟩
  · exact nomatch (view_empty token).symm.trans hview
  · have hconn := h.conn c
    rw [if_neg (not_stored_of_clear (s := s) rfl)]
    rw [hconnection, hdeleteConn, ← hconn]
    by_cases hstored : s.Stored c
    · have hdeleted : (stopped (s.connection c)).deleted = (s.connection c).deleted + 1 := rfl
      rw [if_pos hstored, if_pos hstored, hdeleted]
      omega
    · rw [if_neg hstored, if_neg hstored]
  · have hfd := h.fd c
    have hbuffered := h.buffered c
    rw [hconnection, hdeleteFd]
    by_cases hstored : s.Stored c
    · simp only [hstored, true_and, if_true, stopped, Bool.false_eq_true, if_false]
      omega
    · rw [if_neg hstored, if_neg fun hand => hstored hand.1, if_neg fun hset => hstored (hbuffered hset)]
      rw [if_neg fun hset => hstored (hbuffered hset)] at hfd
      exact hfd
  · dsimp only at hbuffered
    rw [hconnection] at hbuffered
    split_ifs at hbuffered with hstored
    · cases hbuffered
    · exact absurd (h.buffered c hbuffered) hstored
  · exact absurd hstored (not_stored_of_clear (s := s) rfl)
  · dsimp only
    rw [hconnection, if_neg (hheeds hstate k c hrunning)]
    exact h.running k c hrunning
  · exact nomatch (view_empty _).symm.trans (view_of_at hat)
  · exact absurd hstored (not_stored_of_clear (s := s) rfl)
  obtain ⟨hvalid, hended, hlt, hclosed⟩ := h.calls call hmem
  refine ⟨hvalid, hended, hlt, ?_⟩
  rw [hconnection]
  split_ifs
  · rfl
  · exact hclosed

theorem Kept.not_sound_stop (h : Kept s) (hheeds : ¬Heeds s .stop) : ¬Sound s.stop := by
  rw [Heeds] at hheeds
  push Not at hheeds
  obtain ⟨hstate, k, c, hrunning, hstored⟩ := hheeds
  rw [TcpServer.stop, if_neg (not_not.mpr hstate)]
  have hall := stoppedAll s h.nodup_objects
  generalize s.conns.objects.foldl stopConnection s = t at hall
  obtain ⟨hothers, hconnection, -, -⟩ := hall
  intro hsound
  have hdeleted := (hsound.running k c (by rw [hothers]; exact hrunning)).1
  rw [hconnection, if_pos (h.mem_objects.mpr hstored)] at hdeleted
  cases hdeleted

theorem at_of_at_free {token : Token} (hat : (s.conns.free client).2.at? token = some c) :
    s.conns.at? token = some c := by
  rw [at?_eq_join_view, view_of_view_free (view_of_at hat)]
  rfl

theorem view_free_of_none {token : Token} (hnone : s.conns.view token = none) :
    (s.conns.free client).2.view token = none := by
  by_contra hsome
  obtain ⟨obj, hobj⟩ := ne_none_iff_exists'.mp hsome
  exact nomatch hnone.symm.trans (view_of_view_free hobj)

theorem Kept.stored_free (h : Kept s) (hconns : t.conns = (s.conns.free client).2)
    (htoken : (t.connection c).token = (s.connection c).token) :
    t.Stored c ↔ s.Stored c ∧ s.conns.at? client ≠ some c := by
  rw [Stored, htoken, hconns, at?_eq_join_view, view_free]
  by_cases heq : (s.connection c).token = client
  · rw [heq, update_self, Stored, heq]
    exact iff_of_false nofun fun hand => hand.2 hand.1
  · rw [update_of_ne heq, ← at?_eq_join_view]
    exact (and_iff_left fun hat => heq (h.stored_of_at hat).2).symm

theorem Kept.free_of_none (h : Kept s) (hnone : s.conns.at? client = none) :
    Kept { s with conns := (s.conns.free client).2 } := by
  have hstored : ∀ c, Stored { s with conns := (s.conns.free client).2 } c ↔ s.Stored c := by
    intro c
    rw [h.stored_free (t := { s with conns := (s.conns.free client).2 }) rfl rfl, hnone]
    exact and_iff_left nofun
  refine ⟨fun token obj hview => h.stored token obj (view_of_view_free hview), fun c => ?_, h.fd, fun c hbuffered => ?_,
    fun c hin => h.closing c ((hstored c).mp hin), h.running, fun k c c' hrunning hat => ?_,
    fun c hin => h.ended c ((hstored c).mp hin), h.calls_nodup, h.calls, fun hstate token => ?_⟩
  · simp only [hstored]
    exact h.conn c
  · exact (hstored c).mpr (h.buffered c hbuffered)
  · exact h.sole k c c' hrunning (at_of_at_free hat)
  · exact view_free_of_none (h.resting hstate token)

theorem Kept.released (h : Kept s) (hstored : s.Stored c) (ended : Bool) {r : Option (Callback × ConnPtr)}
    (hr : ∀ x, r = some x → s.running = some x)
    (hrunning : ∀ c', c' ≠ c → s.running = some (.disconnected, c') → r = some (.disconnected, c')) :
    Kept { s.setConnection c { s.connection c with spBufferedFd := false, ended := ended } with
      conns := (s.conns.free (s.connection c).token).2
      tasks := s.tasks ++ (if (s.connection c).spBufferedFd then [.deleteFd c] else []) ++ [.deleteConn (some c)]
      running := r } := by
  generalize ht : ({ s.setConnection c { s.connection c with spBufferedFd := false, ended := ended } with
    conns := (s.conns.free (s.connection c).token).2
    tasks := s.tasks ++ (if (s.connection c).spBufferedFd then [.deleteFd c] else []) ++ [.deleteConn (some c)]
    running := r } : TcpServer) = t
  have hself : t.connection c = { s.connection c with spBufferedFd := false, ended := ended } := by
    rw [← ht]
    exact connection_setConnection_self ..
  have hother : ∀ c', c' ≠ c → t.connection c' = s.connection c' := by
    intro c' hne
    rw [← ht]
    exact update_of_ne hne _ _
  have hsame : ∀ c', (t.connection c').token = (s.connection c').token ∧
      (t.connection c').deleted = (s.connection c').deleted ∧
        (t.connection c').fdDeleted = (s.connection c').fdDeleted := by
    intro c'
    by_cases heq : c' = c
    · rw [heq, hself]
      exact ⟨rfl, rfl, rfl⟩
    · rw [hother c' heq]
      exact ⟨rfl, rfl, rfl⟩
  have hiff : ∀ c', t.Stored c' ↔ s.Stored c' ∧ c' ≠ c := by
    intro c'
    rw [h.stored_free (by rw [← ht]) (hsame c').1, hstored]
    exact and_congr_right fun _ => not_congr (some_inj.trans eq_comm)
  have htasks : t.tasks =
      s.tasks ++ (if (s.connection c).spBufferedFd then [.deleteFd c] else []) ++ [.deleteConn (some c)] := by rw [← ht]
  have haccepted : t.accepted = s.accepted := by
    rw [← ht]
    rfl
  refine ⟨fun token obj hview => ?_, fun c' => ?_, fun c' => ?_, fun c' hbuffered => ?_, fun c' hin => ?_,
    fun k c' hrun => ?_, fun k c' c'' hrun hat => ?_, fun c' hin => ?_, ?_, fun call hmem => ?_, fun hstate token => ?_⟩
  · rw [← ht] at hview
    obtain ⟨c', rfl, htoken⟩ := h.stored token obj (view_of_view_free hview)
    exact ⟨c', rfl, (hsame c').1.trans htoken⟩
  · have hconn := h.conn c'
    have hfds :
        (if (s.connection c).spBufferedFd then [Task.deleteFd c] else []).count (.deleteConn (some c')) = 0 := by
      split_ifs <;> rfl
    rw [haccepted, (hsame c').2.1, htasks, count_append, count_append, hfds, ← hconn]
    by_cases heq : c' = c
    · subst heq
      rw [count_singleton_self, if_neg fun hin => ((hiff c').mp hin).2 rfl, if_pos hstored]
      rfl
    have hcount : [Task.deleteConn (some c)].count (.deleteConn (some c')) = 0 := by
      rw [count_singleton, beq_eq_false_iff_ne.mpr, if_neg Bool.false_ne_true]
      exact fun hdelete => heq (some.inj (Task.deleteConn.inj hdelete)).symm
    simp only [hiff, heq, ne_eq, not_false_eq_true, and_true, hcount, Nat.add_zero]
  · have hfd := h.fd c'
    have hconns : [Task.deleteConn (some c)].count (.deleteFd c') = 0 := rfl
    rw [haccepted, (hsame c').2.2, htasks, count_append, count_append, hconns, ← hfd]
    by_cases heq : c' = c
    · subst heq
      simp only [hself, Bool.false_eq_true, if_false]
      split_ifs
      · rw [count_singleton_self]
        rfl
      · rfl
    · rw [hother c' heq]
      have hcount : (if (s.connection c).spBufferedFd then [Task.deleteFd c] else []).count (.deleteFd c') = 0 := by
        split_ifs
        · rw [count_singleton, beq_eq_false_iff_ne.mpr, if_neg Bool.false_ne_true]
          exact fun hdelete => heq (Task.deleteFd.inj hdelete).symm
        · rfl
      rw [hcount]
      rfl
  · by_cases heq : c' = c
    · rw [heq, hself] at hbuffered
      cases hbuffered
    · rw [hother c' heq] at hbuffered
      exact (hiff c').mpr ⟨h.buffered c' hbuffered, heq⟩
  · obtain ⟨hin, hne⟩ := (hiff c').mp hin
    rw [hother c' hne, h.closing c' hin, ← ht]
    exact ⟨hrunning c' hne, fun hrun => hr _ hrun⟩
  · rw [(hsame c').2.1, (hsame c').2.2]
    rw [← ht] at hrun
    exact h.running k c' (hr _ hrun)
  · rw [(hsame c').1, ← ht] at hat
    rw [← ht] at hrun
    exact h.sole k c' c'' (hr _ hrun) (at_of_at_free hat)
  · obtain ⟨hin, hne⟩ := (hiff c').mp hin
    rw [hother c' hne]
    exact h.ended c' hin
  · rw [← ht]
    exact h.calls_nodup
  · rw [← ht] at hmem
    obtain ⟨hvalid, hended, hlt, hclosed⟩ := h.calls call hmem
    refine ⟨hvalid, hended, by rw [← ht]; exact hlt, ?_⟩
    by_cases heq : call.conn = c
    · rw [heq, hself]
    · rw [hother _ heq]
      exact hclosed
  · rw [← ht] at hstate ⊢
    exact view_free_of_none (h.resting hstate token)

theorem Kept.disconnect (h : Kept s) (client : Token) : Kept (s.disconnect client) := by
  rw [TcpServer.disconnect]
  dsimp only
  rw [free_fst]
  cases hat : s.conns.at? client with
  | none => exact h.free_of_none hat
  | some c =>
    obtain ⟨hstored, rfl⟩ := h.stored_of_at hat
    dsimp only
    rw [disconnectConnection_eq]
    exact h.released hstored true (fun _ hrun => hrun) fun _ _ hrun => hrun

theorem Kept.deleteNull (h : Kept s) : Kept (s.runNext (.deleteConn none)) := by
  refine { h with conn := fun c => ?_, fd := fun c => ?_ }
  · have hconn := h.conn c
    dsimp only [runNext]
    rw [count_append]
    exact hconn
  · have hfd := h.fd c
    dsimp only [runNext]
    rw [count_append]
    exact hfd

theorem Kept.setRunning (h : Kept s) {r : Option (Callback × ConnPtr)}
    (hbefore : ∀ c, s.Stored c → s.running ≠ some (.disconnected, c))
    (hafter : ∀ k c, r = some (k, c) → k ≠ .disconnected ∧ s.Stored c) : Kept { s with running := r } := by
  refine { h with
    closing := fun c hstored => ?_
    running := fun k c hrun => ?_
    sole := fun k c c' hrun hat => ?_ }
  · rw [h.closing c hstored]
    exact iff_of_false (hbefore c hstored) fun hrun => (hafter _ _ hrun).1 rfl
  · obtain ⟨-, hstored⟩ := hafter k c hrun
    have hbuffered : (s.connection c).spBufferedFd = true := by
      rw [← Bool.not_eq_false, h.closing c hstored]
      exact hbefore c hstored
    have hconn := h.conn c
    have hfd := h.fd c
    rw [if_pos hstored] at hconn
    rw [if_pos hbuffered] at hfd
    dsimp only
    split_ifs at hconn hfd
    all_goals omega
  · obtain ⟨-, hstored⟩ := hafter k c hrun
    exact some.inj (hat.symm.trans hstored)

theorem Kept.returned (h : Kept s) {x : Callback × ConnPtr} (hrun : s.running = some x) : Kept (s.onReturned x) := by
  have hrest : ∀ k c, s.running = some (k, c) → k ≠ .disconnected → Kept { s with running := none } := by
    intro k c hrun hne
    refine h.setRunning (fun c' _ hrun' => hne ?_) nofun
    cases hrun.symm.trans hrun'
    rfl
  obtain ⟨k, c⟩ := x
  cases k with
  | connected => exact hrest _ c hrun nofun
  | received => exact hrest _ c hrun nofun
  | sendCompleted => exact hrest _ c hrun nofun
  | disconnected =>
    rw [onReturned]
    dsimp only
    rw [free_fst]
    cases hat : s.conns.at? (s.connection c).token with
    | none =>
      -- the callback of the user has already ended the connection
      refine (h.free_of_none hat).deleteNull.setRunning (fun c' hstored hrun' => ?_) nofun
      cases hrun.symm.trans hrun'
      exact nomatch hat.symm.trans (at_of_at_free hstored)
    | some c' =>
      obtain rfl := h.sole _ c c' hrun hat
      have hclosed := (h.closing c' hat).mpr hrun
      have hkept := h.released hat (s.connection c').ended (r := none) nofun fun c'' hne hrun' =>
        absurd (congrArg Prod.snd (some.inj (hrun'.symm.trans hrun))) hne
      rw [hclosed, if_neg Bool.false_ne_true, append_nil, ← hclosed, setConnection, update_eq_self] at hkept
      exact hkept

theorem Kept.ranTask (h : Kept s) (hrunning : s.running = none) {connection : ConnPtr → TcpConnection}
    {tasks : List Task} (hsame : ∀ c, (connection c).token = (s.connection c).token ∧
      (connection c).spBufferedFd = (s.connection c).spBufferedFd ∧ (connection c).ended = (s.connection c).ended)
    (hconn : ∀ c, (connection c).deleted + tasks.count (.deleteConn (some c)) =
      (s.connection c).deleted + s.tasks.count (.deleteConn (some c)))
    (hfd : ∀ c, (connection c).fdDeleted + tasks.count (.deleteFd c) =
      (s.connection c).fdDeleted + s.tasks.count (.deleteFd c)) :
    Kept { s with connection := connection, tasks := tasks } := by
  have hstored : ∀ c, Stored { s with connection := connection, tasks := tasks } c ↔ s.Stored c :=
    fun c => stored_iff_of_eq rfl (hsame c).1
  refine ⟨fun token obj hview => ?_, fun c => ?_, fun c => ?_, fun c hbuffered => ?_, fun c hin => ?_,
    fun k c hrun => ?_, fun k c c' hrun => ?_, fun c hin => ?_, h.calls_nodup, fun call hmem => ?_, h.resting⟩
  · obtain ⟨c, rfl, htoken⟩ := h.stored token obj hview
    exact ⟨c, rfl, (hsame c).1.trans htoken⟩
  · simp only [hstored, hconn]
    exact h.conn c
  · simp only [(hsame c).2.1, hfd]
    exact h.fd c
  · exact (hstored c).mpr (h.buffered c ((hsame c).2.1 ▸ hbuffered))
  · dsimp only
    rw [(hsame c).2.1]
    exact h.closing c ((hstored c).mp hin)
  · exact nomatch hrunning.symm.trans hrun
  · exact nomatch hrunning.symm.trans hrun
  · exact (hsame c).2.2.trans (h.ended c ((hstored c).mp hin))
  · obtain ⟨hvalid, hended, hlt, hclosed⟩ := h.calls call hmem
    exact ⟨hvalid, hended, hlt, (hsame _).2.1.trans hclosed⟩

theorem Kept.runTask (h : Kept s) (hrunning : s.running = none) {task : Task} {rest : List Task}
    (htasks : s.tasks = task :: rest) : Kept ({ s with tasks := rest }.runTask task) := by
  cases task with
  | deleteConn conn =>
    cases conn with
    | none =>
      apply h.ranTask hrunning fun _ => ⟨rfl, rfl, rfl⟩
      · intro c
        rw [htasks]
        rfl
      · intro c
        rw [htasks]
        rfl
    | some c =>
      have hconn := h.conn c
      rw [htasks, count_cons_self] at hconn
      have hnot : ¬s.Stored c := by
        intro hstored
        rw [if_pos hstored] at hconn
        split_ifs at hconn
        all_goals omega
      have hclosed : (s.connection c).spBufferedFd = false :=
        Bool.eq_false_iff.mpr fun hset => hnot (h.buffered c hset)
      rw [TcpServer.runTask, deleteConnection_eq]
      rw [hclosed]
      refine h.ranTask hrunning (fun c' => ?_) (fun c' => ?_) fun c' => ?_
      all_goals by_cases heq : c' = c
      · rw [heq, update_self]
        exact ⟨rfl, hclosed.symm, rfl⟩
      · rw [update_of_ne heq]
        exact ⟨rfl, rfl, rfl⟩
      · rw [heq, update_self, htasks, count_cons_self]
        dsimp only
        omega
      · rw [update_of_ne heq, htasks, count_cons_of_ne]
        exact fun hdelete => heq (some.inj (Task.deleteConn.inj hdelete)).symm
      · rw [heq, update_self, htasks]
        rfl
      · rw [update_of_ne heq, htasks]
        rfl
  | deleteFd c =>
    refine h.ranTask hrunning (fun c' => ?_) (fun c' => ?_) fun c' => ?_
    all_goals dsimp only
    all_goals by_cases heq : c' = c
    · rw [heq, update_self]
      exact ⟨rfl, rfl, rfl⟩
    · rw [update_of_ne heq]
      exact ⟨rfl, rfl, rfl⟩
    · rw [heq, update_self, htasks]
      rfl
    · rw [update_of_ne heq, htasks]
      rfl
    · rw [heq, update_self, htasks, count_cons_self]
      dsimp only
      omega
    · rw [update_of_ne heq, htasks, count_cons_of_ne]
      exact fun hdelete => heq (Task.deleteFd.inj hdelete).symm

theorem Kept.accepted (h : Kept s) (hrunning : s.running = none) (hstate : s.state = .kRunning) :
    Kept s.onTcpConnected := by
  rw [onTcpConnected]
  generalize halloc : s.conns.alloc (some s.accepted) = pair
  have hview := view_alloc s.conns (some s.accepted)
  have hnew := view_alloc_fst s.conns (some s.accepted)
  rw [halloc] at hview hnew
  obtain ⟨client, conns⟩ := pair
  dsimp only at hview hnew ⊢
  generalize ht : ({ s.setConnection s.accepted { token := client, spBufferedFd := true } with
    conns := conns, accepted := s.accepted + 1, running := some (.connected, s.accepted) } : TcpServer) = t
  have hself : t.connection s.accepted = { token := client, spBufferedFd := true } := by
    rw [← ht]
    exact connection_setConnection_self ..
  have hother : ∀ c, c ≠ s.accepted → t.connection c = s.connection c := by
    intro c hne
    rw [← ht]
    exact update_of_ne hne _ _
  have hat : conns.at? client = some s.accepted := by
    rw [at?_eq_join_view, hview, update_self]
    rfl
  have hnone : s.conns.at? client = none := by
    rw [at?_eq_join_view, hnew]
    rfl
  have hiff : ∀ c, c ≠ s.accepted → (t.Stored c ↔ s.Stored c) := by
    intro c hne
    rw [Stored, hother c hne, ← ht, Stored]
    by_cases heq : (s.connection c).token = client
    · rw [heq, hat, hnone]
      exact iff_of_false (fun hin => hne (some.inj hin).symm) nofun
    · rw [at?_eq_join_view, hview, update_of_ne heq, ← at?_eq_join_view]
  have hstored : t.Stored s.accepted := by
    rw [Stored, hself, ← ht]
    exact hat
  have htasks : t.tasks = s.tasks := by rw [← ht]; rfl
  have hrun : t.running = some (.connected, s.accepted) := by rw [← ht]
  have hlt : ∀ c, c ≠ s.accepted → (c < t.accepted ↔ c < s.accepted) := by
    intro c hne
    rw [← ht]
    exact Nat.lt_succ_iff_lt_or_eq.trans (or_iff_left hne)
  have hmem : s.accepted < t.accepted := by rw [← ht]; exact Nat.lt_succ_self _
  refine ⟨fun token obj hin => ?_, fun c => ?_, fun c => ?_, fun c hbuffered => ?_, fun c hin => ?_,
    fun k c hrun' => ?_, fun k c c' hrun' hat' => ?_, fun c hin => ?_, ?_, fun call hcall => ?_, fun hstate' => ?_⟩
  · rw [← ht] at hin
    rw [hview, Function.update_apply] at hin
    split_ifs at hin with heq
    · exact ⟨s.accepted, (some.inj hin).symm, by rw [hself, heq]⟩
    obtain ⟨c, rfl, htoken⟩ := h.stored token obj hin
    have hat' : s.conns.at? token = some c := by rw [at?_eq_join_view, hin]; rfl
    have hlt := h.lt_accepted (h.stored_of_at hat').1
    exact ⟨c, rfl, by rw [hother c hlt.ne]; exact htoken⟩
  · have hconn := h.conn c
    by_cases hc : c = s.accepted
    · subst hc
      rw [if_neg (Nat.lt_irrefl _)] at hconn
      rw [hself, htasks, if_pos hstored, if_pos hmem]
      dsimp only
      omega
    · simp only [hother c hc, htasks, hiff c hc, hlt c hc]
      exact hconn
  · have hfd := h.fd c
    by_cases hc : c = s.accepted
    · subst hc
      rw [if_neg (Nat.lt_irrefl _)] at hfd
      rw [hself, htasks, if_pos rfl, if_pos hmem]
      dsimp only
      omega
    · simp only [hother c hc, htasks, hlt c hc]
      exact hfd
  · by_cases hc : c = s.accepted
    · exact hc ▸ hstored
    · exact (hiff c hc).mpr (h.buffered c (hother c hc ▸ hbuffered))
  · rw [hrun]
    by_cases hc : c = s.accepted
    · rw [hc, hself]
      exact iff_of_false nofun nofun
    · rw [hother c hc, h.closing c ((hiff c hc).mp hin), hrunning]
      exact iff_of_false nofun nofun
  · cases hrun.symm.trans hrun'
    rw [hself]
    exact ⟨rfl, rfl⟩
  · cases hrun.symm.trans hrun'
    exact some.inj (hat'.symm.trans hstored)
  · by_cases hc : c = s.accepted
    · rw [hc, hself]
    · rw [hother c hc]
      exact h.ended c ((hiff c hc).mp hin)
  · rw [← ht]
    exact h.calls_nodup
  · rw [← ht] at hcall
    obtain ⟨hvalid, hended, hbefore, hclosed⟩ := h.calls call hcall
    exact ⟨hvalid, hended, (hlt _ hbefore.ne).mpr hbefore, by rw [hother _ hbefore.ne]; exact hclosed⟩
  · rw [← ht] at hstate'
    exact absurd hstate hstate'

theorem Kept.closed (h : Kept s) (hrunning : s.running = none) (hbuffered : (s.connection c).spBufferedFd = true) :
    Kept (s.onSocketClosed c) := by
  have hin := h.buffered c hbuffered
  have hconn := h.conn c
  have hfd := h.fd c
  have hlt := h.lt_accepted hin
  rw [if_pos hin, if_pos hlt] at hconn
  rw [if_pos hbuffered, if_pos hlt] at hfd
  have hvalid : (s.conns.at? (s.connection c).token == some c) = true := beq_iff_eq.mpr hin
  rw [onSocketClosed, hvalid, h.ended c hin]
  generalize ht : ({ s.swapBufferedFd c with
    running := some (.disconnected, c)
    disconnectedCalls := s.disconnectedCalls ++ [⟨c, true, false⟩] } : TcpServer) = t
  have hself : t.connection c = { s.connection c with spBufferedFd := false } := by
    rw [← ht]
    exact connection_setConnection_self ..
  have hother : ∀ c', c' ≠ c → t.connection c' = s.connection c' := by
    intro c' hne
    rw [← ht]
    exact update_of_ne hne _ _
  have hsame : ∀ c', (t.connection c').token = (s.connection c').token ∧
      (t.connection c').deleted = (s.connection c').deleted ∧
        (t.connection c').fdDeleted = (s.connection c').fdDeleted ∧
          (t.connection c').ended = (s.connection c').ended := by
    intro c'
    by_cases heq : c' = c
    · rw [heq, hself]
      exact ⟨rfl, rfl, rfl, rfl⟩
    · rw [hother c' heq]
      exact ⟨rfl, rfl, rfl, rfl⟩
  have hiff : ∀ c', t.Stored c' ↔ s.Stored c' := fun c' => stored_iff_of_eq (by rw [← ht]; rfl) (hsame c').1
  have hconns : t.conns = s.conns := by rw [← ht]; rfl
  have htasks : t.tasks = s.tasks ++ [.deleteFd c] := by rw [← ht]; rfl
  have haccepted : t.accepted = s.accepted := by rw [← ht]; rfl
  have hrun : t.running = some (.disconnected, c) := by rw [← ht]
  refine ⟨fun token obj hview => ?_, fun c' => ?_, fun c' => ?_, fun c' hbuffered' => ?_, fun c' hin' => ?_,
    fun k c' hrun' => ?_, fun k c' c'' hrun' hat => ?_, fun c' hin' => ?_, ?_, fun call hcall => ?_, fun hstate => ?_⟩
  · obtain ⟨c', rfl, htoken⟩ := h.stored token obj (hconns ▸ hview)
    exact ⟨c', rfl, (hsame c').1.trans htoken⟩
  · have hcount : [Task.deleteFd c].count (.deleteConn (some c')) = 0 := rfl
    simp only [(hsame c').2.1, hiff, htasks, haccepted, count_append, hcount, Nat.add_zero]
    exact h.conn c'
  · rw [(hsame c').2.2.1, htasks, haccepted, count_append]
    by_cases heq : c' = c
    · subst heq
      simp only [hself, count_singleton_self, Bool.false_eq_true, if_false, if_pos hlt]
      omega
    have hcount : [Task.deleteFd c].count (.deleteFd c') = 0 := by
      rw [count_singleton, beq_eq_false_iff_ne.mpr, if_neg Bool.false_ne_true]
      exact fun hdelete => heq (Task.deleteFd.inj hdelete).symm
    rw [hother c' heq, hcount]
    exact h.fd c'
  · by_cases heq : c' = c
    · rw [heq]
      exact (hiff c).mpr hin
    · exact (hiff c').mpr (h.buffered c' (hother c' heq ▸ hbuffered'))
  · rw [hrun]
    by_cases heq : c' = c
    · rw [heq, hself]
      exact iff_of_true rfl rfl
    · rw [hother c' heq, h.closing c' ((hiff c').mp hin'), hrunning]
      exact iff_of_false nofun fun hsome => heq (congrArg Prod.snd (some.inj hsome)).symm
  · cases hrun.symm.trans hrun'
    rw [(hsame c).2.1, (hsame c).2.2.1]
    omega
  · cases hrun.symm.trans hrun'
    rw [(hsame c).1, hconns] at hat
    exact some.inj (hat.symm.trans hin)
  · rw [(hsame c').2.2.2]
    exact h.ended c' ((hiff c').mp hin')
  · rw [← ht]
    rw [map_append, map_cons, map_nil, ← concat_eq_append]
    refine h.calls_nodup.concat fun hmem => ?_
    obtain ⟨call, hcall, hconn⟩ := List.mem_map.mp hmem
    have hclosed := (h.calls call hcall).2.2.2
    rw [hconn, hbuffered] at hclosed
    cases hclosed
  · rw [← ht] at hcall
    rw [haccepted]
    obtain hcall | hcall := mem_append.mp hcall
    · obtain ⟨hvalid, hended, hlt, hclosed⟩ := h.calls call hcall
      refine ⟨hvalid, hended, hlt, ?_⟩
      by_cases heq : call.conn = c
      · rw [heq, hself]
      · rw [hother _ heq]
        exact hclosed
    · cases mem_singleton.mp hcall
      exact ⟨rfl, rfl, hlt, by rw [hself]⟩
  · rw [hconns]
    rw [← ht] at hstate
    exact h.resting hstate

theorem Kept.setState (h : Kept s) {state : State} (hresting : state ≠ .kRunning → ∀ token, s.conns.view token = none) :
    Kept { s with state := state } := by
  refine { h with resting := hresting }

theorem state_stop_ne (s : TcpServer) : s.stop.state ≠ .kRunning := by
  rw [TcpServer.stop]
  split_ifs with hstate
  · exact hstate
  · exact nofun

theorem Kept.cleanup (h : Kept s) (hrunning : s.running = none) : Kept s.cleanup := by
  rw [TcpServer.cleanup]
  split_ifs
  · exact h
  · have hstop := h.stop fun _ k c hrun => nomatch hrunning.symm.trans hrun
    exact hstop.setState fun _ => hstop.resting (state_stop_ne s)

/-- Each connection stays in one place, whatever is called and delivered. -/
theorem Kept.step (h : Kept s) (hheeds : Heeds s a) (hstep : s.step a = some t) : Kept t := by
  have hopen : ∀ {k c}, k ≠ .disconnected → s.Readable c → Kept { s with running := some (k, c) } := by
    intro k c hk hreadable
    refine h.setRunning (fun c' _ hrun => nomatch hreadable.1.symm.trans hrun) fun k' c' heq => ?_
    cases heq
    exact ⟨hk, h.buffered c hreadable.2⟩
  cases a with
  | initializeServer ok =>
    cases hstep
    rw [initializeServer]
    split_ifs with hstate
    · exact h
    · exact h.setState fun _ => h.resting (by rw [not_not.mp hstate]; nofun)
    · exact h
  | start ok =>
    cases hstep
    rw [TcpServer.start]
    split_ifs
    · exact h
    · exact h.setState fun hne => absurd rfl hne
    · exact h
  | stop => exact some.inj hstep ▸ h.stop hheeds
  | cleanup =>
    obtain ⟨hrunning, rfl⟩ := ite_some_none_eq_some.mp hstep
    exact h.cleanup hrunning
  | send client => exact some.inj hstep ▸ h
  | shutdown client => exact some.inj hstep ▸ h
  | disconnect client => exact some.inj hstep ▸ h.disconnect client
  | accept =>
    obtain ⟨⟨hrunning, hstate⟩, rfl⟩ := ite_some_none_eq_some.mp hstep
    exact h.accepted hrunning hstate
  | received c =>
    obtain ⟨hreadable, rfl⟩ := ite_some_none_eq_some.mp hstep
    exact hopen nofun hreadable
  | sendCompleted c =>
    obtain ⟨hreadable, rfl⟩ := ite_some_none_eq_some.mp hstep
    exact hopen nofun hreadable
  | closed c =>
    obtain ⟨hreadable, rfl⟩ := ite_some_none_eq_some.mp hstep
    exact h.closed hreadable.1 hreadable.2
  | returned =>
    obtain ⟨x, hrun, rfl⟩ := map_eq_some_iff.mp hstep
    exact h.returned hrun
  | runTask =>
    rw [TcpServer.step] at hstep
    split at hstep
    · rename_i task rest hrunning htasks
      exact some.inj hstep ▸ h.runTask hrunning htasks
    · cases hstep

theorem not_sound_of_not_heeds (h : Kept s) (hnot : ¬Heeds s a) (hstep : s.step a = some t) : ¬Sound t := by
  cases a with
  | stop => exact some.inj hstep ▸ h.not_sound_stop hnot
  | _ => exact absurd trivial hnot

theorem kept_initial : Kept {} := by
  refine ⟨fun token obj hview => ?_, fun c => rfl, fun c => rfl, nofun, fun c hstored => ?_, nofun, nofun,
    fun c _ => rfl, nodup_nil, nofun, fun _ token => view_empty token⟩
  · exact nomatch (view_empty token).symm.trans hview
  · exact absurd hstored (not_stored_of_clear (s := {}) rfl)

/-- **The lifetime of the connections** is as it should be in every run exactly if `stop` is never called in a callback
of a connection that the server still has. -/
theorem lifetime_iff_heeds (as : List Action) : Always step Sound {} as ↔ Along step Heeds {} as := by
  refine always_iff_along (I := fun s => Sound s → Kept s) (b := fun _ _ => True) (fun s a t hkept _ hsound hstep => ?_)
    (fun s a t hkept _ hsound hstep => ?_) (fun _ => kept_initial)
      (along_of_forall fun _ _ => trivial) kept_initial.sound
  · intro ht
    by_cases hheeds : Heeds s a
    · exact (hkept hsound).step hheeds hstep
    · exact absurd ht (not_sound_of_not_heeds (hkept hsound) hheeds hstep)
  · constructor
    · intro ht
      by_contra hnot
      exact not_sound_of_not_heeds (hkept hsound) hnot hstep ht
    · exact fun hheeds => ((hkept hsound).step hheeds hstep).sound

/-- The server is stopped in the disconnected callback of its only connection. -/
def stoppedInCallback : List Action :=
  [.initializeServer true, .start true, .accept, .returned, .closed 0, .stop]

theorem stoppedInCallback_deletesRunning : ¬Always step Sound {} stoppedInCallback := by
  intro halways
  have hrun : ∃ t, run step {} stoppedInCallback = some t ∧ t.running = some (.disconnected, 0) ∧
      (t.connection 0).deleted = 1 := by
    refine ⟨_, rfl, ?_, ?_⟩ <;> decide +kernel
  obtain ⟨t, ht, hrunning, hdeleted⟩ := hrun
  have hsound := halways _ List.prefix_rfl t ht
  exact absurd ((hsound.running _ _ hrunning).1.symm.trans hdeleted) nofun

end TcpServer

end Tbox.Network
