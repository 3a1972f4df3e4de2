import Tbox.Lib.Run
import Tbox.Terminal.Sessions

/-!
# How a telnet session ends

A session that was exited is deleted by one task and leaves the maps by another, the first with a pointer to its
context: nothing may delete that before. What may is another exit, and the client.
-/

open List Option

namespace Tbox.Terminal

open Lib (run Along bytes)
open Function (update_self update_of_ne update)

variable {nodes : Nodes} {w t : Service} {st : SessionToken} {ct : ConnToken} {s : SessionContext}
  {deeds : List Deed} {task : Task} {action : Action}

namespace Service

/-- No deleted context is used and no lookup throws. The maps are inverse; a session that is not in them was ended once.
-/
structure Sound (w : Service) : Prop where
  neverFreed : w.fault ≠ some .freed
  neverThrows : w.fault ≠ some .lookup
  inverse : ∀ ct st, w.clientToSession ct = some st ↔ w.sessionToClient st = some ct
  endedOnce : w.ended.Nodup
  hasEnded : ∀ st, st ∈ w.ended ↔ st < w.nextSession ∧ w.sessionToClient st = none
  deletedOnce : w.deleted.Nodup
  hasDeleted : ∀ st, st ∈ w.deleted ↔ st < w.nextSession ∧ w.sessions st = none
  deletedEnded : ∀ st, w.sessionToClient st = none → w.sessions st = none

def doneBy (nodes : Nodes) (callbacks : List Telnetd.Callback) (s : SessionContext) : List Deed :=
  (hearAll nodes ((callbacks.filter fun callback => callback.call.asks).flatMap fun callback => callback.effects) s).2

/-- A client exits at most once and does not leave before that is done, and no function of the application ends the
session. -/
def Orderly (w : Service) : Action → Prop
  | .receive ct data nodes => ∀ received st s, w.conns ct = some received → w.clientToSession ct = some st →
      w.sessions st = some s →
        let deeds := doneBy nodes (Telnetd.onTcpReceived { rest := received } data).messages s
        Deed.endSession ∉ deeds ∧ deeds.count .exit + w.tasks.count (.exit st) ≤ 1
  | .disconnect ct => ∀ st, w.clientToSession ct = some st → Task.exit st ∉ w.tasks
  | _ => True

structure Kept (w : Service) : Prop extends w.Sound where
  connected : ∀ ct, w.conns ct ≠ none → w.clientToSession ct ≠ none
  connNumbered : ∀ ct, w.clientToSession ct ≠ none → ct < w.nextConn
  sessionNumbered : ∀ st, w.sessionToClient st ≠ none → st < w.nextSession
  exitsOnce : ∀ st, w.tasks.count (.exit st) ≤ 1
  exits : ∀ st, Task.exit st ∈ w.tasks → w.sessions st ≠ none
  endings : ∀ st ct, Task.endSession st ct ∈ w.tasks →
    w.sessions st = none ∧ st < w.nextSession ∧ ct < w.nextConn ∧
      (∀ other, w.clientToSession ct = some other → other = st) ∧
      ∀ other, w.sessionToClient st = some other → other = ct

theorem kept_start : Kept {} where
  neverFreed := nofun
  neverThrows := nofun
  inverse _ _ := ⟨nofun, nofun⟩
  endedOnce := nodup_nil
  hasEnded _ := ⟨nofun, fun h => absurd h.1 (Nat.not_lt_zero _)⟩
  deletedOnce := nodup_nil
  hasDeleted _ := ⟨nofun, fun h => absurd h.1 (Nat.not_lt_zero _)⟩
  deletedEnded _ _ := rfl
  connected _ h := absurd rfl h
  connNumbered _ h := absurd rfl h
  sessionNumbered _ h := absurd rfl h
  exitsOnce _ := Nat.zero_le 1
  exits _ h := absurd h not_mem_nil
  endings _ _ h := absurd h not_mem_nil

theorem Kept.mapped (h : Kept w) (halive : w.sessions st ≠ none) : ∃ ct, w.sessionToClient st = some ct :=
  ne_none_iff_exists'.mp fun hnone => halive (h.deletedEnded st hnone)

theorem Kept.send (h : Kept w) (halive : w.sessions st ≠ none) : w.send st = w := by
  obtain ⟨ct, hct⟩ := h.mapped halive
  rw [Service.send, hct]

theorem Kept.abort (h : Kept w) : Kept (w.fail .aborted) :=
  { h with neverFreed := nofun, neverThrows := nofun }

theorem Kept.postExit (h : Kept w) (halive : w.sessions st ≠ none) (hnone : w.tasks.count (.exit st) = 0) :
    Kept (w.post (.exit st)) := by
  refine { h with exitsOnce := fun other => ?_, exits := fun other hmem => ?_, endings := fun other ct hmem => ?_ }
  · have hcount := h.exitsOnce other
    change (w.tasks ++ [Task.exit st]).count (.exit other) ≤ 1
    rw [count_append, count_singleton]
    by_cases heq : other = st
    · rw [heq, hnone]
      split <;> omega
    rw [if_neg]
    · exact hcount
    · rw [beq_iff_eq]
      exact fun hsame => heq (Task.exit.inj hsame).symm
  · rcases mem_append.mp hmem with hold | hnew
    · exact h.exits other hold
    · rw [Task.exit.inj (mem_singleton.mp hnew)]
      exact halive
  · rcases mem_append.mp hmem with hold | hnew
    · exact h.endings other ct hold
    · exact nomatch mem_singleton.mp hnew

theorem Kept.edit (h : Kept w) (hs : w.sessions st = some s) (s' : SessionContext) :
    Kept { w with sessions := update w.sessions st (some s') } := by
  have hiff : ∀ other, update w.sessions st (some s') other = none ↔ w.sessions other = none := by
    intro other
    by_cases heq : other = st
    · rw [heq, update_self, hs]
      exact ⟨nofun, nofun⟩
    · rw [update_of_ne heq]
  refine { h with hasDeleted := fun other => ?_, deletedEnded := fun other hnone => ?_, exits := fun other hmem => ?_,
                  endings := fun other ct hmem => ?_ }
  · exact (h.hasDeleted other).trans (and_congr_right fun _ => (hiff other).symm)
  · exact (hiff other).mpr (h.deletedEnded other hnone)
  · exact fun hnone => h.exits other hmem ((hiff other).mp hnone)
  · obtain ⟨hdeleted, hrest⟩ := h.endings other ct hmem
    exact ⟨(hiff other).mpr hdeleted, hrest⟩

theorem performAll_sessions (st : SessionToken) (deeds : List Deed) (w : Service) :
    (performAll st deeds w).sessions = w.sessions ∧ (performAll st deeds w).clientToSession = w.clientToSession := by
  induction deeds generalizing w with
  | nil => exact ⟨rfl, rfl⟩
  | cons deed deeds ih =>
    have hfirst : (w.perform st deed).sessions = w.sessions ∧
        (w.perform st deed).clientToSession = w.clientToSession := by
      cases deed with
      | exit => exact ⟨rfl, rfl⟩
      | abort => exact ⟨rfl, rfl⟩
      | send =>
        rw [perform, Service.send]
        split <;> exact ⟨rfl, rfl⟩
      | endSession =>
        rw [perform, Service.endSession]
        split <;> exact ⟨rfl, rfl⟩
    rw [performAll]
    split
    · exact hfirst
    · exact ⟨(ih _).1.trans hfirst.1, (ih _).2.trans hfirst.2⟩

theorem Kept.performAll (h : Kept w) (hfault : w.fault = none) (halive : w.sessions st ≠ none)
    (hend : Deed.endSession ∉ deeds) (hcount : deeds.count .exit + w.tasks.count (.exit st) ≤ 1) :
    Kept (performAll st deeds w) ∧ ((Service.performAll st deeds w).fault = none →
      (Service.performAll st deeds w).tasks.count (.exit st) = deeds.count .exit + w.tasks.count (.exit st)) := by
  induction deeds generalizing w with
  | nil => exact ⟨h, fun _ => (Nat.zero_add _).symm⟩
  | cons deed deeds ih =>
    obtain ⟨hother, hrest⟩ := not_or.mp fun hmem => hend (mem_cons.mpr hmem)
    rw [Service.performAll]
    cases deed with
    | endSession => exact absurd rfl hother
    | abort => exact ⟨h.abort, nofun⟩
    | send =>
      have hskip : (Deed.send :: deeds).count .exit = deeds.count .exit :=
        count_cons_of_ne (by decide : Deed.send ≠ .exit)
      rw [hskip] at hcount ⊢
      rw [perform, h.send halive, hfault]
      exact ih h hfault halive hrest hcount
    | exit =>
      rw [count_cons_self] at hcount ⊢
      have hzero : w.tasks.count (.exit st) = 0 := by omega
      have hone : (w.post (.exit st)).tasks.count (.exit st) = w.tasks.count (.exit st) + 1 := by
        change (w.tasks ++ [Task.exit st]).count (.exit st) = _
        rw [count_append, count_singleton_self]
      have hnone : (w.perform st .exit).fault = none := hfault
      rw [hnone]
      obtain ⟨hkept, hafter⟩ := ih (h.postExit halive hzero) hfault halive hrest (by omega)
      refine ⟨hkept, fun hquiet => (hafter hquiet).trans ?_⟩
      omega

theorem hearAll_append (first second : List Telnetd.Effect) (s : SessionContext) :
    hearAll nodes (first ++ second) s = ((hearAll nodes second (hearAll nodes first s).1).1,
      (hearAll nodes first s).2 ++ (hearAll nodes second (hearAll nodes first s).1).2) := by
  induction first generalizing s with
  | nil => rfl
  | cons effect first ih =>
    rw [cons_append, hearAll, hearAll, ih]
    rw [append_assoc]

variable {callback : Telnetd.Callback}

theorem doneBy_cons_of_asks (hasks : callback.call.asks = true)
    (callbacks : List Telnetd.Callback) (s : SessionContext) : doneBy nodes (callback :: callbacks) s =
      (hearAll nodes callback.effects s).2 ++ doneBy nodes callbacks (hearAll nodes callback.effects s).1 := by
  have hfilter : (callback :: callbacks).filter (fun callback => callback.call.asks) =
      callback :: callbacks.filter fun callback => callback.call.asks := filter_cons_of_pos hasks
  rw [doneBy, hfilter, flatMap_cons, hearAll_append]
  rfl

theorem doneBy_cons_of_not_asks (hasks : callback.call.asks = false)
    (callbacks : List Telnetd.Callback) (s : SessionContext) :
    doneBy nodes (callback :: callbacks) s = doneBy nodes callbacks s := by
  have hfilter : (callback :: callbacks).filter (fun callback => callback.call.asks) =
      callbacks.filter fun callback => callback.call.asks :=
    filter_cons_of_neg fun h => Bool.false_ne_true (hasks.symm.trans h)
  rw [doneBy, hfilter, doneBy]

theorem onCall_of_not_asks (hasks : callback.call.asks = false) :
    w.onCall nodes ct callback = w := by
  rw [onCall, hasks]
  rfl

theorem onCall_of_deleted (hct : w.clientToSession ct = some st)
    (hs : w.sessions st = none) : w.onCall nodes ct callback = w := by
  rw [onCall, hct]
  dsimp only
  rw [hs]
  exact ite_self w

theorem onCall_of_asks (hasks : callback.call.asks = true)
    (hct : w.clientToSession ct = some st) (hs : w.sessions st = some s) :
    w.onCall nodes ct callback = Service.performAll st (hearAll nodes callback.effects s).2
      { w with sessions := update w.sessions st (some (hearAll nodes callback.effects s).1) } := by
  rw [onCall, if_pos hasks, hct]
  dsimp only
  rw [hs]

theorem Kept.onCalls (h : Kept w) (hfault : w.fault = none) (hct : w.clientToSession ct = some st)
    {callbacks : List Telnetd.Callback} (horderly : ∀ s, w.sessions st = some s →
      Deed.endSession ∉ doneBy nodes callbacks s ∧
        (doneBy nodes callbacks s).count .exit + w.tasks.count (.exit st) ≤ 1) :
    Kept (onCalls nodes ct callbacks w) := by
  induction callbacks generalizing w with
  | nil => exact h
  | cons callback callbacks ih =>
    rw [Service.onCalls]
    cases hs : w.sessions st with
    | none =>
      rw [onCall_of_deleted hct hs, hfault]
      exact ih h hfault hct fun s hsome => absurd (hs.symm.trans hsome) nofun
    | some s =>
      obtain ⟨hend, hcount⟩ := horderly s hs
      cases hasks : callback.call.asks with
      | false =>
        rw [doneBy_cons_of_not_asks hasks] at hend hcount
        rw [onCall_of_not_asks hasks, hfault]
        refine ih h hfault hct fun other hother => ?_
        obtain rfl : s = other := some.inj (hs.symm.trans hother)
        exact ⟨hend, hcount⟩
      | true =>
        rw [doneBy_cons_of_asks hasks] at hend hcount
        rw [count_append] at hcount
        rw [onCall_of_asks hasks hct hs]
        generalize hearAll nodes callback.effects s = heard at hend hcount ⊢
        have hkept := h.edit hs heard.1
        have halive : update w.sessions st (some heard.1) st ≠ none := by
          rw [update_self]
          exact nofun
        obtain ⟨hafter, hcounted⟩ := hkept.performAll hfault halive
          (fun hmem => hend (mem_append_left _ hmem)) (by dsimp only; omega)
        obtain ⟨hsessions, hclients⟩ := performAll_sessions st heard.2
          { w with sessions := update w.sessions st (some heard.1) }
        split
        · exact hafter
        rename_i hquiet
        have hnone := not_isSome_iff_eq_none.mp hquiet
        apply ih hafter hnone
        · rw [hclients]
          exact hct
        intro later hlater
        obtain rfl : heard.1 = later := some.inj
          ((update_self st (some heard.1) w.sessions).symm.trans
            ((congrFun hsessions st).symm.trans hlater))
        refine ⟨fun hmem => hend (mem_append_right _ hmem), ?_⟩
        rw [hcounted hnone]
        dsimp only
        omega

theorem update_none_eq_some {α : Type} {f : Nat → Option α} {k n : Nat} {a : α} :
    update f k none n = some a ↔ n ≠ k ∧ f n = some a := by
  by_cases heq : n = k
  · rw [heq, update_self]
    exact ⟨nofun, fun h => absurd rfl h.1⟩
  · rw [update_of_ne heq]
    exact (and_iff_right heq).symm

theorem update_none_ne_none {α : Type} {f : Nat → Option α} {k n : Nat} :
    update f k none n ≠ none ↔ n ≠ k ∧ f n ≠ none := by
  simp only [ne_none_iff_exists', update_none_eq_some, exists_and_left]

theorem nodup_leave {log : List Nat} (hlog : log.Nodup) (hnew : st ∉ log) : (log ++ [st]).Nodup :=
  concat_eq_append ▸ hlog.concat hnew

theorem mem_leave {α : Type} {f : Nat → Option α} {log : List Nat} {n : Nat}
    (hlog : ∀ other, other ∈ log ↔ other < n ∧ f other = none) (hst : st < n) (other : Nat) :
    other ∈ log ++ [st] ↔ other < n ∧ update f st none other = none := by
  rw [mem_append, mem_singleton, hlog]
  by_cases heq : other = st
  · rw [heq, update_self]
    exact ⟨fun _ => ⟨hst, rfl⟩, fun _ => .inr rfl⟩
  · rw [update_of_ne heq]
    exact or_iff_left heq

theorem Kept.buffered (h : Kept w) (hknown : w.clientToSession ct ≠ none) (rest : Lib.Bytes) :
    Kept { w with conns := update w.conns ct (some rest) } := by
  refine { h with connected := fun other hother => ?_ }
  by_cases heq : other = ct
  · rw [heq]
    exact hknown
  · exact h.connected other fun hnone => hother ((update_of_ne heq _ _).trans hnone)

theorem Kept.taken (h : Kept w) (i : Nat) : Kept { w with tasks := w.tasks.eraseIdx i } where
  __ := h
  exitsOnce st := (List.Sublist.count_le _ (eraseIdx_sublist w.tasks i)).trans (h.exitsOnce st)
  exits st hmem := h.exits st (mem_of_mem_eraseIdx hmem)
  endings st ct hmem := h.endings st ct (mem_of_mem_eraseIdx hmem)

theorem Kept.deleteSession (h : Kept w) (hexit : Task.exit st ∉ w.tasks) : Kept (w.deleteSession st) := by
  rw [Service.deleteSession]
  cases hs : w.sessions st with
  | none => exact h
  | some s =>
    obtain ⟨ct, hmapped⟩ := h.mapped (by rw [hs]; exact nofun)
    have hnumbered : st < w.nextSession := h.sessionNumbered st (by rw [hmapped]; exact nofun)
    have hnone : ∀ other, w.sessions other = none → update w.sessions st none other = none := by
      intro other hother
      by_cases heq : other = st
      · rw [heq, update_self]
      · rw [update_of_ne heq]
        exact hother
    refine { h with deletedOnce := ?_, hasDeleted := fun other => ?_, deletedEnded := fun other hended => ?_,
                    exits := fun other hmem => ?_, endings := fun other ct hmem => ?_ }
    · exact nodup_leave h.deletedOnce fun hmem => by
        rw [h.hasDeleted, hs] at hmem
        exact nomatch hmem.2
    · exact mem_leave h.hasDeleted hnumbered other
    · exact hnone other (h.deletedEnded other hended)
    · have heq : other ≠ st := fun hsame => hexit (hsame ▸ hmem)
      dsimp only
      rw [update_of_ne heq]
      exact h.exits other hmem
    · obtain ⟨hdeleted, hrest⟩ := h.endings other ct hmem
      exact ⟨hnone other hdeleted, hrest⟩

theorem Kept.leave (h : Kept w) (hdeleted : w.sessions st = none) (hnumbered : st < w.nextSession)
    (hclient : ∀ other, w.clientToSession ct = some other → other = st)
    (hsession : ∀ other, w.sessionToClient st = some other → other = ct) :
    Kept { w.erase ct st with conns := update w.conns ct none } := by
  have hended : (w.erase ct st).ended.Nodup ∧ ∀ other, other ∈ (w.erase ct st).ended ↔
      other < w.nextSession ∧ update w.sessionToClient st none other = none := by
    rw [erase]
    cases hst : w.sessionToClient st with
    | none =>
      have hsame : update w.sessionToClient st none = w.sessionToClient := Function.update_eq_self_iff.mpr hst.symm
      rw [hsame]
      exact ⟨(append_nil w.ended).symm ▸ h.endedOnce, (append_nil w.ended).symm ▸ h.hasEnded⟩
    | some client =>
      refine ⟨nodup_leave h.endedOnce fun hmem => ?_, mem_leave h.hasEnded hnumbered⟩
      rw [h.hasEnded, hst] at hmem
      exact nomatch hmem.2
  refine { h with inverse := ?_, endedOnce := hended.1, hasEnded := hended.2, deletedEnded := ?_, connected := ?_,
                  connNumbered := ?_, sessionNumbered := ?_, endings := ?_ }
  · intro client session
    refine update_none_eq_some.trans (Iff.trans ?_ update_none_eq_some.symm)
    constructor
    · rintro ⟨hne, hold⟩
      refine ⟨fun heq => hne ?_, (h.inverse client session).mp hold⟩
      exact hsession client (heq ▸ (h.inverse client session).mp hold)
    · rintro ⟨hne, hold⟩
      refine ⟨fun heq => hne ?_, (h.inverse client session).mpr hold⟩
      exact hclient session (heq ▸ (h.inverse client session).mpr hold)
  · intro other hother
    by_cases heq : other = st
    · exact heq ▸ hdeleted
    · exact h.deletedEnded other ((update_of_ne heq _ _).symm.trans hother)
  · intro other hother
    obtain ⟨hne, hold⟩ := update_none_ne_none.mp hother
    exact update_none_ne_none.mpr ⟨hne, h.connected other hold⟩
  · exact fun other hother => h.connNumbered other (update_none_ne_none.mp hother).2
  · exact fun other hother => h.sessionNumbered other (update_none_ne_none.mp hother).2
  intro session client hmem
  obtain ⟨hgone, hlt, hlt', hsame, hsame'⟩ := h.endings session client hmem
  exact ⟨hgone, hlt, hlt', fun other hother => hsame other (update_none_eq_some.mp hother).2,
    fun other hother => hsame' other (update_none_eq_some.mp hother).2⟩

theorem deleteSession_frame (w : Service) (st : SessionToken) :
    (w.deleteSession st).sessions st = none ∧ (w.deleteSession st).clientToSession = w.clientToSession ∧
      (w.deleteSession st).sessionToClient = w.sessionToClient ∧ (w.deleteSession st).nextConn = w.nextConn ∧
      (w.deleteSession st).nextSession = w.nextSession ∧ (w.deleteSession st).tasks = w.tasks := by
  rw [Service.deleteSession]
  cases hs : w.sessions st with
  | none => exact ⟨hs, rfl, rfl, rfl, rfl, rfl⟩
  | some s => exact ⟨update_self _ _ _, rfl, rfl, rfl, rfl, rfl⟩

theorem deleteSession_erase : (w.erase ct st).deleteSession st = (w.deleteSession st).erase ct st := by
  have hsessions : (w.erase ct st).sessions = w.sessions := rfl
  rw [deleteSession, deleteSession, hsessions]
  cases w.sessions st <;> rfl

theorem deleteSession_post : (w.post task).deleteSession st = (w.deleteSession st).post task := by
  have hsessions : (w.post task).sessions = w.sessions := rfl
  rw [deleteSession, deleteSession, hsessions]
  cases w.sessions st <;> rfl

theorem Kept.disconnect (h : Kept w) (hct : w.clientToSession ct = some st) (horderly : Task.exit st ∉ w.tasks) :
    Kept (w.onTcpDisconnected ct) := by
  have hst := (h.inverse ct st).mp hct
  rw [onTcpDisconnected, hct]
  dsimp only
  rw [deleteSession_erase]
  obtain ⟨hdeleted, hclients, hsessions, -, hnumber, -⟩ := deleteSession_frame w st
  apply (h.deleteSession horderly).leave hdeleted
  · rw [hnumber]
    exact h.sessionNumbered st (by rw [hst]; exact nofun)
  · rw [hclients]
    exact fun other hother => some.inj (hother.symm.trans hct)
  · rw [hsessions]
    exact fun other hother => some.inj (hother.symm.trans hst)

theorem Kept.postEnding (h : Kept w) (hst : w.sessionToClient st = some ct) (hdeleted : w.sessions st = none) :
    Kept (w.post (.endSession st ct)) := by
  have hct := (h.inverse ct st).mpr hst
  refine { h with exitsOnce := fun other => ?_, exits := fun other hmem => ?_, endings := fun other client hmem => ?_ }
  · change (w.tasks ++ [Task.endSession st ct]).count (.exit other) ≤ 1
    rw [count_append, count_singleton, if_neg (by rw [beq_iff_eq]; exact nofun)]
    exact h.exitsOnce other
  · rcases mem_append.mp hmem with hold | hnew
    · exact h.exits other hold
    · exact nomatch mem_singleton.mp hnew
  rcases mem_append.mp hmem with hold | hnew
  · exact h.endings other client hold
  obtain ⟨rfl, rfl⟩ := Task.endSession.inj (mem_singleton.mp hnew)
  refine ⟨hdeleted, h.sessionNumbered _ (by rw [hst]; exact nofun), h.connNumbered _ (by rw [hct]; exact nofun),
    ?_, ?_⟩
  · exact fun last hlast => some.inj (hlast.symm.trans hct)
  · exact fun last hlast => some.inj (hlast.symm.trans hst)

theorem Kept.runExit (h : Kept w) (hfault : w.fault = none) (hs : w.sessions st = some s)
    (hexit : Task.exit st ∉ w.tasks) : Kept (runTask w (.exit st)) := by
  obtain ⟨ct, hst⟩ := h.mapped (by rw [hs]; exact nofun)
  have heq : runTask w (.exit st) = (w.deleteSession st).post (.endSession st ct) := by
    have hquiet : ¬(w.post (.endSession st ct)).fault.isSome = true := by
      change ¬w.fault.isSome = true
      rw [hfault]
      exact nofun
    rw [runTask, hs]
    rw [endSession, hst]
    rw [if_neg hquiet, deleteSession_post]
  obtain ⟨hdeleted, -, hsessions, -⟩ := deleteSession_frame w st
  rw [heq]
  exact (h.deleteSession hexit).postEnding (hsessions ▸ hst) hdeleted

theorem not_mem_eraseIdx {tasks : List Task} {i : Nat} (hi : tasks[i]? = some task) (hcount : tasks.count task ≤ 1) :
    task ∉ tasks.eraseIdx i := by
  obtain ⟨hlt, rfl⟩ := List.getElem?_eq_some_iff.mp hi
  have hperm := (getElem_cons_eraseIdx_perm hlt).count_eq tasks[i]
  rw [count_cons_self] at hperm
  apply count_eq_zero.mp
  omega

theorem mem_enter {α : Type} {f : Nat → Option α} {log : List Nat} {n : Nat} {a : α}
    (hlog : ∀ other, other ∈ log ↔ other < n ∧ f other = none) (other : Nat) :
    other ∈ log ↔ other < n + 1 ∧ update f n (some a) other = none := by
  rw [hlog]
  by_cases heq : other = n
  · rw [heq, update_self]
    exact ⟨fun h => absurd h.1 (Nat.lt_irrefl n), nofun⟩
  · rw [update_of_ne heq]
    exact and_congr_left fun _ => by omega

theorem Kept.newSession (h : Kept w) : Kept (newSession
    { w with conns := update w.conns w.nextConn (some []), nextConn := w.nextConn + 1 } w.nextConn) := by
  have hct : w.clientToSession w.nextConn = none :=
    Classical.not_not.mp fun hne => Nat.lt_irrefl _ (h.connNumbered _ hne)
  have hst : w.sessionToClient w.nextSession = none :=
    Classical.not_not.mp fun hne => Nat.lt_irrefl _ (h.sessionNumbered _ hne)
  have hnew : ∀ {other}, other < w.nextSession → other ≠ w.nextSession := fun hlt => Nat.ne_of_lt hlt
  refine { h with inverse := ?_, hasEnded := mem_enter h.hasEnded, hasDeleted := mem_enter h.hasDeleted,
                  deletedEnded := ?_, connected := ?_, connNumbered := ?_, sessionNumbered := ?_, exits := ?_,
                  endings := ?_ }
  · intro client session
    dsimp only [Service.newSession]
    by_cases hclient : client = w.nextConn
    · by_cases hsession : session = w.nextSession
      · rw [hclient, hsession, update_self, update_self]
        exact ⟨fun _ => rfl, fun _ => rfl⟩
      · rw [hclient, update_self, update_of_ne hsession, ← h.inverse, hct]
        exact ⟨fun heq => absurd (some.inj heq).symm hsession, nofun⟩
    · rw [update_of_ne hclient]
      by_cases hsession : session = w.nextSession
      · rw [hsession, update_self, h.inverse, hst]
        exact ⟨nofun, fun heq => absurd (some.inj heq).symm hclient⟩
      · rw [update_of_ne hsession]
        exact h.inverse client session
  · intro other hother
    dsimp only [Service.newSession] at hother ⊢
    by_cases heq : other = w.nextSession
    · rw [heq, update_self] at hother
      cases hother
    · rw [update_of_ne heq] at hother ⊢
      exact h.deletedEnded other hother
  · intro other hother
    dsimp only [Service.newSession] at hother ⊢
    by_cases heq : other = w.nextConn
    · rw [heq, update_self]
      exact nofun
    · rw [update_of_ne heq] at hother ⊢
      exact h.connected other hother
  · intro other hother
    dsimp only [Service.newSession] at hother ⊢
    by_cases heq : other = w.nextConn
    · exact heq ▸ Nat.lt_succ_self w.nextConn
    · rw [update_of_ne heq] at hother
      exact Nat.lt_succ_of_lt (h.connNumbered other hother)
  · intro other hother
    dsimp only [Service.newSession] at hother ⊢
    by_cases heq : other = w.nextSession
    · exact heq ▸ Nat.lt_succ_self w.nextSession
    · rw [update_of_ne heq] at hother
      exact Nat.lt_succ_of_lt (h.sessionNumbered other hother)
  · intro other hmem
    obtain ⟨ct, hmapped⟩ := h.mapped (h.exits other hmem)
    have hlt : other < w.nextSession := h.sessionNumbered other (by rw [hmapped]; exact nofun)
    dsimp only [Service.newSession]
    rw [update_of_ne (hnew hlt)]
    exact h.exits other hmem
  · intro session client hmem
    obtain ⟨hgone, hlt, hlt', hsame, hsame'⟩ := h.endings session client hmem
    dsimp only [Service.newSession]
    rw [update_of_ne (hnew hlt), update_of_ne (Nat.ne_of_lt hlt'), update_of_ne (hnew hlt)]
    exact ⟨hgone, Nat.lt_succ_of_lt hlt, Nat.lt_succ_of_lt hlt', hsame, hsame'⟩

theorem Kept.connect (h : Kept w) (hfault : w.fault = none) : Kept w.onTcpConnected := by
  have hnew : update w.sessions w.nextSession (some {}) w.nextSession ≠ none := by
    rw [update_self]
    exact nofun
  have hcount : w.tasks.count (.exit w.nextSession) ≤ 1 := h.exitsOnce _
  apply (h.newSession.performAll hfault hnew _ _).1
  · decide
  · exact (Nat.zero_add _).trans_le hcount

theorem Kept.runEndSession (h : Kept w) {i : Nat} (hi : w.tasks[i]? = some (.endSession st ct)) :
    Kept (runTask { w with tasks := w.tasks.eraseIdx i } (.endSession st ct)) := by
  obtain ⟨hdeleted, hnumbered, -, hclient, hsession⟩ := h.endings st ct (mem_of_getElem? hi)
  exact (h.taken i).leave hdeleted hnumbered hclient hsession

/-- An orderly step ends no session twice and uses none that is deleted. -/
theorem Kept.step (h : Kept w) (horderly : w.Orderly action) (hstep : w.step action = some t) : Kept t := by
  rw [Service.step.eq_def] at hstep
  cases hfault : w.fault with
  | some fault =>
    rw [hfault] at hstep
    cases hstep
  | none =>
    have hquiet : ¬w.fault.isSome = true := by
      rw [hfault]
      exact nofun
    rw [if_neg hquiet] at hstep
    cases action with
    | connect =>
      cases hstep
      exact h.connect hfault
    | disconnect ct =>
      obtain ⟨received, hconn, rfl⟩ := map_eq_some_iff.mp hstep
      have hknown : w.clientToSession ct ≠ none := h.connected ct (by rw [hconn]; exact nofun)
      obtain ⟨st, hct⟩ := ne_none_iff_exists'.mp hknown
      exact h.disconnect hct (horderly st hct)
    | receive ct data nodes =>
      obtain ⟨received, hconn, rfl⟩ := map_eq_some_iff.mp hstep
      have hknown : w.clientToSession ct ≠ none := h.connected ct (by rw [hconn]; exact nofun)
      obtain ⟨st, hct⟩ := ne_none_iff_exists'.mp hknown
      exact (h.buffered hknown _).onCalls hfault hct fun s hs => horderly received st s hconn hct hs
    | runTask i =>
      obtain ⟨task, hi, rfl⟩ := map_eq_some_iff.mp hstep
      cases task with
      | exit st =>
        obtain ⟨s, hs⟩ := ne_none_iff_exists'.mp (h.exits st (mem_of_getElem? hi))
        exact (h.taken i).runExit hfault hs (not_mem_eraseIdx hi (h.exitsOnce st))
      | endSession st ct => exact h.runEndSession hi

end Service

/-- **Sessions.** Where exits do not overlap with other ends, everything ends once. -/
theorem sound_of_orderly (actions : List Action) (w : Service)
    (horderly : Along Service.step Service.Orderly {} actions)
    (hrun : run Service.step {} actions = some w) : w.Sound :=
  (Lib.run_invariant (I := Service.Kept) (fun _ _ _ h => h.step) Service.kept_start horderly hrun).toSound

def noNodes : Nodes := { at? := fun _ => none }

/-- A client connects and sends a line, and two tasks are run. -/
def oneLine (line : Lib.Bytes) : List Action :=
  [.connect, .receive 0 (line ++ Lib.crlf) noNodes, .runTask 0, .runTask 0]

theorem sound_exit : ∃ w, run Service.step {} (oneLine (bytes "exit")) = some w ∧ w.Sound := by
  refine ⟨_, rfl, sound_of_orderly (oneLine (bytes "exit")) _ ?_ rfl⟩
  refine (Lib.along_cons_of_eq_some rfl).mpr ⟨trivial, (Lib.along_cons_of_eq_some rfl).mpr ⟨?_, ?_⟩⟩
  · intro received st s hconn hclient hs
    obtain rfl : [] = received := Option.some.inj hconn
    obtain rfl : 0 = st := Option.some.inj hclient
    obtain rfl : {} = s := Option.some.inj hs
    decide
  · exact (Lib.along_cons_of_eq_some rfl).mpr ⟨trivial, (Lib.along_cons_of_eq_some rfl).mpr ⟨trivial, trivial⟩⟩

/-- Two exits in the line. -/
theorem unsound_exits : ∃ w, run Service.step {} (oneLine (bytes "exit;exit")) = some w ∧ ¬w.Sound :=
  ⟨_, rfl, fun h => h.neverFreed rfl⟩

end Tbox.Terminal
