import Tbox.Proof.SessionEndings

/-!
# How deep the history goes

What is put into the history is the line that was run in the end, so no line of the history runs another one. A line
that has been typed goes as deep as it will with two rounds of `execute`.
-/

open List Option

namespace Tbox.Terminal

open Tbox.Lib (Bytes bytes run)
open Tbox.Util (split splitCmdline)

variable {nodes : Nodes} {s : SessionContext} {cmdline line : Bytes} {cmdlines : List Bytes}
  {f g : SessionContext → Outcome}

def runsHistory (cmdline : Bytes) : Bool := ((splitCmdline cmdline).getD []).head?.bind List.head? = some 33

/-- No command of it runs another line. -/
def Plain (line : Bytes) : Prop :=
  ∀ cmdlines, split line (bytes ";") = .ok cmdlines → ∀ cmdline ∈ cmdlines, runsHistory cmdline = false

def PlainHistory (s : SessionContext) : Prop := ∀ line ∈ s.history, Plain line

theorem executeCmd_of_not_runsHistory (h : runsHistory cmdline = false) (f g : SessionContext → Outcome) :
    executeCmd nodes f s cmdline = executeCmd nodes g s cmdline := by
  rw [executeCmd, executeCmd]
  rw [runsHistory] at h
  cases hargs : splitCmdline cmdline with
  | none => rfl
  | some args =>
    cases args with
    | nil => rfl
    | cons cmd rest =>
      rw [hargs] at h
      have hcmd : cmd.head? ≠ some 33 := of_decide_eq_false h
      dsimp only
      rw [if_neg hcmd, if_neg hcmd]

theorem executeCmd_of_runsHistory (h : runsHistory cmdline = true) (s : SessionContext) :
    ∃ args, ∀ f, executeCmd nodes f s cmdline = executeRunHistoryCmd f s args := by
  rw [runsHistory] at h
  have hcmdline : cmdline ≠ [] := by
    rintro rfl
    exact Bool.noConfusion h
  simp only [executeCmd, if_neg hcmdline]
  cases hargs : splitCmdline cmdline with
  | none =>
    rw [hargs] at h
    exact Bool.noConfusion h
  | some args =>
    cases args with
    | nil =>
      rw [hargs] at h
      exact Bool.noConfusion h
    | cons cmd rest =>
      rw [hargs] at h
      have hcmd : cmd.head? = some 33 := of_decide_eq_true h
      have hne : ∀ word : Bytes, word.head? ≠ some 33 → cmd ≠ word := fun word hword heq => hword (heq ▸ hcmd)
      refine ⟨cmd :: rest, fun f => ?_⟩
      dsimp only
      rw [if_neg (hne _ (by decide)), if_neg (hne _ (by decide)), if_neg (hne _ (by decide)),
        if_neg (hne _ (by decide)), if_neg (hne _ (by decide)),
        if_neg (not_or.mpr ⟨hne _ (by decide), hne _ (by decide)⟩), if_neg (hne _ (by decide)), if_pos hcmd]

theorem executeCmd_frame (h : runsHistory cmdline = false) (f : SessionContext → Outcome) :
    ∃ path, (executeCmd nodes f s cmdline).session = { s with path := path } := by
  rw [executeCmd]
  split
  · exact ⟨s.path, rfl⟩
  rw [runsHistory] at h
  cases hargs : splitCmdline cmdline with
  | none => exact ⟨s.path, rfl⟩
  | some args =>
    cases args with
    | nil => exact ⟨s.path, rfl⟩
    | cons cmd rest =>
      rw [hargs] at h
      have hcmd : cmd.head? ≠ some 33 := of_decide_eq_false h
      dsimp only
      rw [if_neg hcmd]
      have hcd : ∃ path, (executeCdCmd nodes s (cmd :: rest)).session = { s with path := path } := by
        rw [executeCdCmd]
        split
        · exact ⟨s.path, rfl⟩
        · split
          · exact ⟨_, rfl⟩
          · exact ⟨s.path, rfl⟩
      have huser : ∃ path, (executeUserCmd nodes s (cmd :: rest)).session = { s with path := path } := by
        rw [executeUserCmd]
        split
        · exact ⟨s.path, rfl⟩
        split
        · exact ⟨s.path, rfl⟩
        · exact ⟨s.path, rfl⟩
        · exact ⟨_, rfl⟩
      have htree : ∃ path, (executeTreeCmd nodes s (cmd :: rest)).session = { s with path := path } := by
        rw [executeTreeCmd]
        split
        · exact ⟨s.path, rfl⟩
        · split
          · exact ⟨s.path, rfl⟩
          · split <;> exact ⟨s.path, rfl⟩
      split_ifs
      all_goals first
        | exact hcd
        | exact htree
        | exact huser
        | exact ⟨s.path, rfl⟩

theorem mem_of_historyAt {history : List Bytes} {index : Int} (h : historyAt history index = some line) :
    line ∈ history := by
  rw [historyAt] at h
  split at h
  · exact mem_of_getElem? h
  · split at h
    · exact mem_of_getElem? h
    · cases h

theorem executeRunHistoryCmd_cases (s : SessionContext) (args : List Bytes) :
    (∃ deeds, ∀ f, executeRunHistoryCmd f s args = { result := false, session := s, deeds := deeds }) ∨
    ∃ line ∈ s.history, ∃ deeds, ∀ f, executeRunHistoryCmd f s args =
      { f { s with currInput := line } with deeds := deeds ++ (f { s with currInput := line }).deeds } := by
  simp only [executeRunHistoryCmd]
  split
  · cases hlast : s.history.getLast? with
    | none => exact .inl ⟨_, fun _ => rfl⟩
    | some line => exact .inr ⟨line, mem_of_getLast? hlast, [], fun _ => rfl⟩
  split
  · exact .inl ⟨_, fun _ => rfl⟩
  · exact .inl ⟨_, fun _ => rfl⟩
  · cases hline : historyAt s.history _ with
    | none => exact .inl ⟨_, fun _ => rfl⟩
    | some line => exact .inr ⟨line, mem_of_historyAt hline, [.send], fun _ => rfl⟩

theorem executeCmd_congr (hagree : ∀ line ∈ s.history, f { s with currInput := line } = g { s with currInput := line })
    (cmdline : Bytes) : executeCmd nodes f s cmdline = executeCmd nodes g s cmdline := by
  cases hruns : runsHistory cmdline with
  | false => exact executeCmd_of_not_runsHistory hruns f g
  | true =>
    obtain ⟨args, hargs⟩ := executeCmd_of_runsHistory hruns s
    rw [hargs, hargs]
    obtain ⟨deeds, hfails⟩ | ⟨line, hmem, deeds, hline⟩ := executeRunHistoryCmd_cases s args
    · rw [hfails, hfails]
    · rw [hline, hline, hagree line hmem]

structure Settles (f : SessionContext → Outcome) : Prop where
  history : ∀ s, (f s).session.history = s.history
  plain : ∀ s, PlainHistory s → (f s).result = true → Plain (f s).session.currInput

theorem Settles.runsOne (h : Settles f) (nodes : Nodes) (s : SessionContext) (cmdline : Bytes) :
    (executeCmd nodes f s cmdline).session.history = s.history ∧
      (PlainHistory s → (executeCmd nodes f s cmdline).result = true →
        (executeCmd nodes f s cmdline).session.currInput = s.currInput ∧ runsHistory cmdline = false ∨
          Plain (executeCmd nodes f s cmdline).session.currInput) := by
  cases hruns : runsHistory cmdline with
  | false =>
    obtain ⟨path, hpath⟩ := executeCmd_frame hruns f
    rw [hpath]
    exact ⟨rfl, fun _ _ => .inl ⟨rfl, rfl⟩⟩
  | true =>
    obtain ⟨args, hargs⟩ := executeCmd_of_runsHistory hruns s
    rw [hargs]
    obtain ⟨deeds, hfails⟩ | ⟨line, hmem, deeds, hline⟩ := executeRunHistoryCmd_cases s args
    · rw [hfails]
      exact ⟨rfl, fun _ hresult => Bool.noConfusion hresult⟩
    · rw [hline]
      exact ⟨h.history _, fun hplain hresult => .inr (h.plain _ hplain hresult)⟩

theorem Settles.runsAll (h : Settles f) (nodes : Nodes) (cmdlines : List Bytes) (s : SessionContext) :
    (executeAll (executeCmd nodes f) cmdlines s).session.history = s.history ∧
      (PlainHistory s → (executeAll (executeCmd nodes f) cmdlines s).result = true →
        (executeAll (executeCmd nodes f) cmdlines s).session.currInput = s.currInput ∧
            (∀ cmdline ∈ cmdlines, runsHistory cmdline = false) ∨
          Plain (executeAll (executeCmd nodes f) cmdlines s).session.currInput) := by
  induction cmdlines generalizing s with
  | nil => exact ⟨rfl, fun _ _ => .inl ⟨rfl, fun _ hmem => absurd hmem not_mem_nil⟩⟩
  | cons cmdline cmdlines ih =>
    obtain ⟨hhistory, hplain⟩ := h.runsOne nodes s cmdline
    rw [executeAll]
    generalize executeCmd nodes f s cmdline = first at hhistory hplain ⊢
    split
    case isFalse hfailed => exact ⟨hhistory, fun _ hresult => absurd hresult hfailed⟩
    case isTrue hdone =>
      obtain ⟨hrest, hrestPlain⟩ := ih first.session
      refine ⟨hrest.trans hhistory, fun hold hresult => ?_⟩
      have hfirst : PlainHistory first.session := by
        rw [PlainHistory, hhistory]
        exact hold
      obtain ⟨hsame, hnone⟩ | hplain' := hrestPlain hfirst hresult
      · obtain ⟨hsame', hruns⟩ | hplain' := hplain hold hdone
        · refine .inl ⟨hsame.trans hsame', fun other hmem => ?_⟩
          rcases mem_cons.mp hmem with rfl | hlater
          · exact hruns
          · exact hnone other hlater
        · dsimp only
          rw [hsame]
          exact .inr hplain'
      · exact .inr hplain'

theorem execute_settles (nodes : Nodes) (depth : Nat) : Settles (execute nodes depth) := by
  induction depth with
  | zero => exact ⟨fun _ => rfl, fun _ _ hresult => Bool.noConfusion hresult⟩
  | succ depth ih =>
    have hall := fun s cmdlines => ih.runsAll nodes cmdlines s
    constructor
    · intro s
      rw [execute]
      split
      · rfl
      · exact (hall s _).1
    · intro s hplain hresult
      rw [execute] at hresult ⊢
      cases hsplit : split s.currInput (bytes ";") with
      | error fault =>
        rw [hsplit] at hresult
        exact Bool.noConfusion hresult
      | ok cmdlines =>
        rw [hsplit] at hresult
        obtain ⟨hsame, hnone⟩ | hdone := (hall s cmdlines).2 hplain hresult
        · rw [hsame]
          intro others hothers
          obtain rfl := Except.ok.inj (hsplit.symm.trans hothers)
          exact hnone
        · exact hdone

theorem executeAll_congr {history : List Bytes} (hf : Settles f)
    (hagree : ∀ s : SessionContext, s.history = history → ∀ cmdline ∈ cmdlines,
      executeCmd nodes f s cmdline = executeCmd nodes g s cmdline) (hs : s.history = history) :
    executeAll (executeCmd nodes f) cmdlines s = executeAll (executeCmd nodes g) cmdlines s := by
  induction cmdlines generalizing s with
  | nil => rfl
  | cons cmdline cmdlines ih =>
    have hfirst := (hf.runsOne nodes s cmdline).1
    rw [executeAll, executeAll, ← hagree s hs cmdline mem_cons_self,
      ih (fun s hs other hmem => hagree s hs other (mem_cons_of_mem _ hmem)) (hfirst.trans hs)]

theorem execute_of_plain (hplain : Plain s.currInput) (depth other : Nat) :
    execute nodes (depth + 1) s = execute nodes (other + 1) s := by
  rw [execute, execute]
  cases hsplit : split s.currInput (bytes ";") with
  | error fault => rfl
  | ok cmdlines =>
    exact executeAll_congr (execute_settles nodes depth)
      (fun s _ cmdline hmem => executeCmd_of_not_runsHistory (hplain cmdlines hsplit cmdline hmem) _ _) rfl

/-- **Two rounds are enough.** -/
theorem execute_depth (hplain : PlainHistory s) (depth : Nat) : execute nodes (depth + 2) s = execute nodes 2 s := by
  rw [execute, execute]
  cases hsplit : split s.currInput (bytes ";") with
  | error fault => rfl
  | ok cmdlines =>
    refine executeAll_congr (execute_settles nodes (depth + 1)) (fun s hs cmdline _ => ?_) rfl
    apply executeCmd_congr
    intro line hmem
    exact execute_of_plain (hplain line (hs ▸ hmem)) depth 0

theorem onEnterKey_plain (nodes : Nodes) (hplain : PlainHistory s) : PlainHistory (onEnterKey nodes s).1 := by
  obtain ⟨hhistory, hnew⟩ := execute_settles nodes 2
  have hold : PlainHistory (execute nodes 2 s).session := by
    rw [PlainHistory, hhistory]
    exact hplain
  rw [onEnterKey]
  intro line hmem
  dsimp only at hmem
  split at hmem
  case isFalse => exact hold line hmem
  case isTrue hresult =>
    have hadded : line ∈ (execute nodes 2 s).session.history ++ [(execute nodes 2 s).session.currInput] := by
      split at hmem
      · exact mem_of_mem_drop hmem
      · exact hmem
    rcases mem_append.mp hadded with hline | hline
    · exact hold line hline
    · rw [mem_singleton.mp hline]
      exact hnew s hplain hresult

theorem onKey_plain (nodes : Nodes) (hplain : PlainHistory s) (c : UInt8) (result : KeyEventScanner.Result) :
    PlainHistory (onKey nodes s c result).1 := by
  have hsame : ∀ pressed : Pressed, pressed.1.history = s.history → PlainHistory pressed.1 := by
    intro pressed heq
    rw [PlainHistory, heq]
    exact hplain
  cases result with
  | kEnter => exact onEnterKey_plain nodes hplain
  | kBackspace =>
    apply hsame
    rw [onKey, onBackspaceKey]
    split <;> rfl
  | kDelete =>
    apply hsame
    rw [onKey, onDeleteKey]
    split <;> rfl
  | kMoveUp =>
    apply hsame
    rw [onKey, onMoveUpKey]
    split <;> rfl
  | kMoveDown =>
    apply hsame
    rw [onKey, onMoveDownKey]
    split <;> rfl
  | kMoveLeft =>
    apply hsame
    rw [onKey, onMoveLeftKey]
    split <;> rfl
  | kMoveRight =>
    apply hsame
    rw [onKey, onMoveRightKey]
    split <;> rfl
  | _ => exact hsame _ rfl

theorem feed_plain (nodes : Nodes) (s : SessionContext) (hplain : PlainHistory s) (str : Bytes) (unsure : Bool) :
    PlainHistory (feed nodes s str unsure).1.1 := by
  induction str generalizing s unsure with
  | nil => exact hplain
  | cons c str ih =>
    rw [feed]
    split
    · apply ih
      exact hplain
    · apply ih
      exact hplain
    · apply ih
      exact onKey_plain nodes hplain c _

theorem onRecvString_plain (nodes : Nodes) (hplain : PlainHistory s) (str : Bytes) :
    PlainHistory (onRecvString nodes s str).1 := by
  have hfed : PlainHistory (feed nodes { s with keyStep := .kNone } str true).1.1 :=
    feed_plain nodes { s with keyStep := .kNone } hplain str true
  rw [onRecvString]
  generalize feed nodes { s with keyStep := .kNone } str true = fed at hfed ⊢
  obtain ⟨⟨after, deeds⟩, unsure⟩ := fed
  dsimp only
  split
  · split
    · exact onEnterKey_plain nodes hfed
    · exact hfed
    · exact hfed
  · exact hfed

theorem hearAll_plain (nodes : Nodes) (effects : List Telnetd.Effect) (s : SessionContext) (hplain : PlainHistory s) :
    PlainHistory (hearAll nodes effects s).1 := by
  induction effects generalizing s with
  | nil => exact hplain
  | cons effect effects ih =>
    rw [hearAll]
    apply ih
    cases effect with
    | recvString str => exact onRecvString_plain nodes hplain str
    | send | enableEcho | recvWindowSize => exact hplain

namespace Service

variable {w t : Service} {action : Action}

def AllPlain (w : Service) : Prop := ∀ st s, w.sessions st = some s → PlainHistory s

theorem AllPlain.put (h : w.AllPlain) (hplain : PlainHistory s) (st : SessionToken) (hsessions :
    t.sessions = Function.update w.sessions st (some s)) : t.AllPlain := by
  intro other s' hs'
  rw [hsessions] at hs'
  by_cases heq : other = st
  · rw [heq, Function.update_self] at hs'
    exact some.inj hs' ▸ hplain
  · rw [Function.update_of_ne heq] at hs'
    exact h other s' hs'

theorem AllPlain.deleteSession (h : w.AllPlain) (st : SessionToken) : (w.deleteSession st).AllPlain := by
  rw [Service.deleteSession]
  split
  · exact h
  · exact fun other s hs => h other s (update_none_eq_some.mp hs).2

theorem AllPlain.onCalls (h : w.AllPlain) (nodes : Nodes) (ct : ConnToken) (callbacks : List Telnetd.Callback) :
    (onCalls nodes ct callbacks w).AllPlain := by
  induction callbacks generalizing w with
  | nil => exact h
  | cons callback callbacks ih =>
    have hfirst : (w.onCall nodes ct callback).AllPlain := by
      rw [onCall]
      split
      · split
        · exact h
        split
        · exact h
        · rename_i _ st _ _ s hs
          exact h.put (hearAll_plain nodes callback.effects s (h st s hs)) st (performAll_sessions _ _ _).1
      · exact h
    rw [Service.onCalls]
    split
    · exact hfirst
    · exact ih hfirst

/-- No step puts a line into a history that runs another one. -/
theorem AllPlain.step (h : w.AllPlain) (hstep : w.step action = some t) : t.AllPlain := by
  rw [Service.step.eq_def] at hstep
  split at hstep
  · cases hstep
  cases action with
  | connect =>
    cases hstep
    exact h.put (fun _ hmem => absurd hmem not_mem_nil) w.nextSession (performAll_sessions _ _ _).1
  | disconnect ct =>
    obtain ⟨received, -, rfl⟩ := map_eq_some_iff.mp hstep
    rw [onTcpDisconnected]
    split
    · exact h
    · exact AllPlain.deleteSession (w := w.erase ct _) h _
  | receive ct data nodes =>
    obtain ⟨received, -, rfl⟩ := map_eq_some_iff.mp hstep
    exact AllPlain.onCalls (w := { w with conns := Function.update w.conns ct _ }) h nodes ct _
  | runTask i =>
    obtain ⟨task, -, rfl⟩ := map_eq_some_iff.mp hstep
    cases task with
    | endSession st ct => exact h
    | exit st =>
      rw [runTask]
      split
      · exact h
      have hended : (Service.endSession { w with tasks := w.tasks.eraseIdx i } st).AllPlain := by
        rw [Service.endSession]
        split <;> exact h
      dsimp only
      split
      · exact hended
      · exact hended.deleteSession st

end Service

/-- No session of a run has a line in its history that runs another one. -/
theorem plainHistory_of_run {actions : List Action} {w : Service} {st : SessionToken}
    (hrun : run Service.step {} actions = some w) (hs : w.sessions st = some s) : PlainHistory s := by
  have hstart : Service.AllPlain {} := by
    intro _ _ hnone
    cases hnone
  exact Lib.run_invariant_of_step (I := Service.AllPlain) (fun _ _ _ h => h.step) hstart hrun st s hs

end Tbox.Terminal
