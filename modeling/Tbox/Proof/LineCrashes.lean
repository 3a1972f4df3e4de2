import Tbox.Proof.HistoryDepth
import Tbox.Proof.SplitJoin
import Tbox.Proof.TreeListing

/-!
# Which lines crash

The last line of an empty history is asked for, or a number that no `int` has, or the name of a root that has been
deleted. No other command ends the process, and a line does just when it gets to one of these.
-/

open List

namespace Tbox.Terminal

open Tbox.Lib (Bytes bytes run Gives)
open Tbox.Lib.StdString (stoi)
open Tbox.Util (split splitCmdline split_ok)

variable {nodes : Nodes} {graph : NodeGraph} {s s' : SessionContext} {cmdline line : Bytes} {cmdlines args : List Bytes}
  {f : SessionContext → Outcome}

def argsOf (cmdline : Bytes) : List Bytes := (splitCmdline cmdline).getD []

def commandsOf (line : Bytes) : List Bytes :=
  match split line (bytes ";") with
  | .ok cmdlines => cmdlines
  | .error _ => []

def meantLine (history : List Bytes) (reference : Bytes) : Option Bytes :=
  if reference = bytes "!" then history.getLast?
  else
    match stoi reference with
    | .ok index => historyAt history index
    | .error _ => none

inductive Crashes (nodes : Nodes) (s : SessionContext) (cmdline : Bytes) : Prop
  | emptyHistory : (argsOf cmdline).head? = some (bytes "!!") → s.history = [] → Crashes nodes s cmdline
  | tooLarge (reference : Bytes) : (argsOf cmdline).head? = some (33 :: reference) → reference ≠ bytes "!" →
      stoi reference = .error .outOfRange → Crashes nodes s cmdline
  | rootDeleted : (argsOf cmdline).head? = some (bytes "tree") →
      nodes.findNode ((argsOf cmdline).getD 1 (bytes ".")) s.path = some [] →
      (∀ children, nodes.top [] ≠ some (.dir children)) → Crashes nodes s cmdline

def Expands (s : SessionContext) (cmdline line : Bytes) : Prop :=
  ∃ reference, (argsOf cmdline).head? = some (33 :: reference) ∧ meantLine s.history reference = some line

/-- A command that is got to, and the state that it finds. What a command runs of the history needs one round. -/
inductive Reaches (nodes : Nodes) : SessionContext → List Bytes → SessionContext → Bytes → Prop
  | first (s : SessionContext) (cmdline : Bytes) (cmdlines : List Bytes) :
      Reaches nodes s (cmdline :: cmdlines) s cmdline
  | expanded {s s' : SessionContext} {cmdline line cmdline' : Bytes} (cmdlines : List Bytes) :
      Expands s cmdline line → Reaches nodes { s with currInput := line } (commandsOf line) s' cmdline' →
        Reaches nodes s (cmdline :: cmdlines) s' cmdline'
  | later {s s' : SessionContext} {cmdline cmdline' : Bytes} {cmdlines : List Bytes} :
      (executeCmd nodes (execute nodes 1) s cmdline).result = true →
        Reaches nodes (executeCmd nodes (execute nodes 1) s cmdline).session cmdlines s' cmdline' →
          Reaches nodes s (cmdline :: cmdlines) s' cmdline'

/-- A command that ends the process is got to. -/
def GetsToCrash (nodes : Nodes) (s : SessionContext) (cmdlines : List Bytes) : Prop :=
  ∃ s' cmdline, Reaches nodes s cmdlines s' cmdline ∧ Crashes nodes s' cmdline

theorem not_getsToCrash_nil : ¬GetsToCrash nodes s [] := by
  rintro ⟨s', cmdline, hreaches, -⟩
  cases hreaches

theorem getsToCrash_cons : GetsToCrash nodes s (cmdline :: cmdlines) ↔ Crashes nodes s cmdline ∨
      (∃ line, Expands s cmdline line ∧ GetsToCrash nodes { s with currInput := line } (commandsOf line)) ∨
        (executeCmd nodes (execute nodes 1) s cmdline).result = true ∧
          GetsToCrash nodes (executeCmd nodes (execute nodes 1) s cmdline).session cmdlines := by
  constructor
  · rintro ⟨s', cmdline', hreaches, hcrashes⟩
    cases hreaches with
    | first => exact .inl hcrashes
    | expanded _ hline hinner => exact .inr (.inl ⟨_, hline, s', cmdline', hinner, hcrashes⟩)
    | later hresult hrest => exact .inr (.inr ⟨hresult, s', cmdline', hrest, hcrashes⟩)
  · rintro (hcrashes | ⟨line, hline, s', cmdline', hinner, hcrashes⟩ | ⟨hresult, s', cmdline', hrest, hcrashes⟩)
    · exact ⟨s, cmdline, .first s cmdline cmdlines, hcrashes⟩
    · exact ⟨s', cmdline', .expanded cmdlines hline hinner, hcrashes⟩
    · exact ⟨s', cmdline', .later hresult hrest, hcrashes⟩

theorem stoi_error {str : Bytes} {fault : Lib.Fault} (h : stoi str = .error fault) :
    fault = .invalidArgument ∨ fault = .outOfRange := by
  simp only [stoi] at h
  split_ifs at h
  · exact .inl (Except.error.inj h).symm
  all_goals exact .inr (Except.error.inj h).symm

theorem abort_tree : .abort ∈ (executeTreeCmd nodes s args).deeds ↔
    nodes.findNode (args.getD 1 (bytes ".")) s.path = some [] ∧ ∀ children, nodes.top [] ≠ some (.dir children) := by
  rw [executeTreeCmd]
  cases hpath : nodes.findNode (args.getD 1 (bytes ".")) s.path with
  | none => simp
  | some nodePath =>
    dsimp only
    by_cases hempty : nodePath = []
    · subst hempty
      cases htop : nodes.top [] with
      | none => simp
      | some node => cases node <;> simp
    · cases nodes.top nodePath with
      | none => simp [hempty]
      | some node => cases node <;> simp [hempty]

theorem not_abort_user : .abort ∉ (executeUserCmd nodes s args).deeds := by
  have hcall : ∀ call : SessionCall, call.deed ≠ .abort := by
    intro call
    cases call <;> simp [SessionCall.deed]
  rw [executeUserCmd]
  split
  · simp
  split
  · simp
  · simp [hcall]
  · simp

theorem not_abort_help : .abort ∉ (executeHelpCmd s args).deeds := by
  rw [executeHelpCmd]
  split_ifs <;> simp

theorem not_abort_exit : .abort ∉ (executeExitCmd s).deeds := by
  rw [executeExitCmd]
  split_ifs <;> simp

theorem abort_runHistory (reference : Bytes) (rest : List Bytes) :
    .abort ∈ (executeRunHistoryCmd f s ((33 :: reference) :: rest)).deeds ↔
      (reference = bytes "!" ∧ s.history = [] ∨ reference ≠ bytes "!" ∧ stoi reference = .error .outOfRange) ∨
        ∃ line, meantLine s.history reference = some line ∧ .abort ∈ (f { s with currInput := line }).deeds := by
  have hsub : ((33 :: reference) :: rest).getD 0 [] = 33 :: reference := rfl
  rw [executeRunHistoryCmd, hsub, drop_one, tail_cons, meantLine]
  by_cases hbang : reference = bytes "!"
  · rw [if_pos hbang, if_pos hbang]
    cases hlast : s.history.getLast? with
    | none => simp [hbang, List.getLast?_eq_none_iff.mp hlast]
    | some line =>
      have hne : s.history ≠ [] := fun hnil => by simp [hnil] at hlast
      simp [hbang, hne]
  · rw [if_neg hbang, if_neg hbang]
    cases hstoi : stoi reference with
    | error fault => rcases stoi_error hstoi with rfl | rfl <;> simp [hbang]
    | ok index =>
      dsimp only
      cases hline : historyAt s.history index with
      | none => simp [hbang]
      | some line => simp [hbang]

theorem argsOf_cons {cmd : Bytes} {rest : List Bytes} (h : argsOf cmdline = cmd :: rest) :
    cmdline ≠ [] ∧ splitCmdline cmdline = some (cmd :: rest) := by
  constructor
  · rintro rfl
    cases h
  rw [argsOf] at h
  cases hargs : splitCmdline cmdline with
  | none =>
    rw [hargs] at h
    cases h
  | some args =>
    rw [hargs] at h
    exact congrArg some h

variable {cmd reference : Bytes} {rest : List Bytes}

theorem crashes_reference (hargs : argsOf cmdline = (33 :: reference) :: rest) : Crashes nodes s cmdline ↔
    reference = bytes "!" ∧ s.history = [] ∨ reference ≠ bytes "!" ∧ stoi reference = .error .outOfRange := by
  have hhead : (argsOf cmdline).head? = some (33 :: reference) := by rw [hargs, List.head?_cons]
  constructor
  · intro hcrashes
    cases hcrashes with
    | emptyHistory hbang hempty =>
      exact .inl ⟨tail_eq_of_cons_eq (Option.some.inj (hhead.symm.trans hbang)), hempty⟩
    | tooLarge other hother hne hstoi =>
      obtain rfl := tail_eq_of_cons_eq (Option.some.inj (hhead.symm.trans hother))
      exact .inr ⟨hne, hstoi⟩
    | rootDeleted htree => cases head_eq_of_cons_eq (Option.some.inj (hhead.symm.trans htree))
  · rintro (⟨rfl, hempty⟩ | ⟨hne, hstoi⟩)
    · exact .emptyHistory hhead hempty
    · exact .tooLarge reference hhead hne hstoi

theorem expands_reference (hargs : argsOf cmdline = (33 :: reference) :: rest) :
    Expands s cmdline line ↔ meantLine s.history reference = some line := by
  have hhead : (argsOf cmdline).head? = some (33 :: reference) := by rw [hargs, List.head?_cons]
  constructor
  · rintro ⟨other, hother, hline⟩
    obtain rfl := tail_eq_of_cons_eq (Option.some.inj (hhead.symm.trans hother))
    exact hline
  · exact fun hline => ⟨reference, hhead, hline⟩

theorem crashes_word (hcmd : cmd.head? ≠ some 33) (hhead : (argsOf cmdline).head? = some cmd) :
    Crashes nodes s cmdline ↔ cmd = bytes "tree" ∧
      nodes.findNode ((argsOf cmdline).getD 1 (bytes ".")) s.path = some [] ∧
        ∀ children, nodes.top [] ≠ some (.dir children) := by
  constructor
  · intro hcrashes
    cases hcrashes with
    | emptyHistory hbang =>
      cases hhead.symm.trans hbang
      exact absurd rfl hcmd
    | tooLarge reference hbang =>
      cases hhead.symm.trans hbang
      exact absurd rfl hcmd
    | rootDeleted htree hpath htop => exact ⟨Option.some.inj (hhead.symm.trans htree), hpath, htop⟩
  · rintro ⟨rfl, hpath, htop⟩
    exact .rootDeleted hhead hpath htop

theorem not_expands_word (hcmd : cmd.head? ≠ some 33) (hhead : (argsOf cmdline).head? = some cmd) :
    ¬Expands s cmdline line := by
  rintro ⟨reference, hbang, -⟩
  cases hhead.symm.trans hbang
  exact hcmd rfl

theorem executeCmd_reference (hargs : argsOf cmdline = (33 :: reference) :: rest) (f : SessionContext → Outcome) :
    executeCmd nodes f s cmdline = executeRunHistoryCmd f s ((33 :: reference) :: rest) := by
  obtain ⟨hne, hsplit⟩ := argsOf_cons hargs
  have hword : ∀ word : Bytes, word.head? ≠ some 33 → 33 :: reference ≠ word := by
    rintro word hword rfl
    exact hword rfl
  rw [executeCmd, if_neg hne, hsplit]
  dsimp only
  rw [if_neg (hword _ (by decide)), if_neg (hword _ (by decide)), if_neg (hword _ (by decide)),
    if_neg (hword _ (by decide)), if_neg (hword _ (by decide)),
    if_neg (not_or.mpr ⟨hword _ (by decide), hword _ (by decide)⟩), if_neg (hword _ (by decide)),
    if_pos List.head?_cons]

theorem abort_word (hargs : argsOf cmdline = cmd :: rest) (hcmd : cmd.head? ≠ some 33) :
    .abort ∈ (executeCmd nodes f s cmdline).deeds ↔ cmd = bytes "tree" ∧
      nodes.findNode ((cmd :: rest).getD 1 (bytes ".")) s.path = some [] ∧
        ∀ children, nodes.top [] ≠ some (.dir children) := by
  obtain ⟨hne, hsplit⟩ := argsOf_cons hargs
  have hcd : .abort ∉ (executeCdCmd nodes s (cmd :: rest)).deeds := by simp [executeCdCmd]
  rw [executeCmd, if_neg hne, hsplit]
  dsimp only
  rw [if_neg hcmd]
  by_cases htree : cmd = bytes "tree"
  · subst htree
    rw [if_neg (by decide), if_neg (by decide), if_neg (by decide), if_neg (by decide), if_neg (by decide),
      if_neg (by decide), if_pos rfl, abort_tree, and_iff_right rfl]
  rw [if_neg htree]
  refine iff_of_false ?_ fun h => htree h.1
  split_ifs
  · simp
  · simp
  · exact hcd
  · exact not_abort_help
  · simp
  · exact not_abort_exit
  · exact not_abort_user

theorem abort_nothing (hargs : argsOf cmdline = []) : .abort ∉ (executeCmd nodes f s cmdline).deeds := by
  rw [executeCmd]
  rw [argsOf] at hargs
  split_ifs
  · exact not_mem_nil
  cases hsplit : splitCmdline cmdline with
  | none => simp
  | some args =>
    rw [hsplit] at hargs
    obtain rfl : args = [] := hargs
    simp

/-- **One command** ends the process by itself or by the line that it runs. -/
theorem abort_executeCmd (cmdline : Bytes) : .abort ∈ (executeCmd nodes f s cmdline).deeds ↔
    Crashes nodes s cmdline ∨ ∃ line, Expands s cmdline line ∧ .abort ∈ (f { s with currInput := line }).deeds := by
  cases hargs : argsOf cmdline with
  | nil =>
    have hhead : (argsOf cmdline).head? = none := by rw [hargs, List.head?_nil]
    refine iff_of_false (abort_nothing hargs) ?_
    rintro (hcrashes | ⟨line, ⟨reference, hbang, -⟩, -⟩)
    · cases hcrashes with
      | emptyHistory hbang => cases hhead.symm.trans hbang
      | tooLarge reference hbang => cases hhead.symm.trans hbang
      | rootDeleted htree => cases hhead.symm.trans htree
    · cases hhead.symm.trans hbang
  | cons cmd rest =>
    have hhead : (argsOf cmdline).head? = some cmd := by rw [hargs, List.head?_cons]
    by_cases hcmd : cmd.head? = some 33
    · obtain ⟨reference, rfl⟩ := List.head?_eq_some_iff.mp hcmd
      rw [executeCmd_reference hargs, abort_runHistory, crashes_reference hargs]
      simp only [expands_reference hargs]
    have hnone : ¬∃ line, Expands s cmdline line ∧ .abort ∈ (f { s with currInput := line }).deeds := by
      rintro ⟨line, hline, -⟩
      exact not_expands_word hcmd hhead hline
    rw [abort_word hargs hcmd, or_iff_left hnone, crashes_word hcmd hhead, hargs]

theorem abort_executeAll (cmdline : Bytes) : .abort ∈ (executeAll (executeCmd nodes f) (cmdline :: cmdlines) s).deeds ↔
    .abort ∈ (executeCmd nodes f s cmdline).deeds ∨ (executeCmd nodes f s cmdline).result = true ∧
      .abort ∈ (executeAll (executeCmd nodes f) cmdlines (executeCmd nodes f s cmdline).session).deeds := by
  rw [executeAll]
  split
  · next hresult => rw [mem_append, and_iff_right hresult]
  · next hresult => rw [or_iff_left fun h => hresult h.1]

theorem abort_all {history : List Bytes} (hs : s.history = history) (hf : Settles f)
    (hsame : ∀ s : SessionContext, s.history = history → ∀ cmdline ∈ cmdlines,
      executeCmd nodes f s cmdline = executeCmd nodes (execute nodes 1) s cmdline)
    (hlines : ∀ s : SessionContext, s.history = history → ∀ cmdline ∈ cmdlines, ∀ line, Expands s cmdline line →
      (.abort ∈ (f { s with currInput := line }).deeds ↔
        GetsToCrash nodes { s with currInput := line } (commandsOf line))) :
    .abort ∈ (executeAll (executeCmd nodes f) cmdlines s).deeds ↔ GetsToCrash nodes s cmdlines := by
  induction cmdlines generalizing s with
  | nil => exact iff_of_false not_mem_nil not_getsToCrash_nil
  | cons cmdline cmdlines ih =>
    have hmem := mem_cons_self (a := cmdline) (l := cmdlines)
    have hrest := ih ((hf.runsOne nodes s cmdline).1.trans hs)
      (fun s hs other hlater => hsame s hs other (.tail _ hlater))
      (fun s hs other hlater => hlines s hs other (.tail _ hlater))
    rw [abort_executeAll, abort_executeCmd, getsToCrash_cons, or_assoc, hrest, ← hsame s hs cmdline hmem]
    refine or_congr_right (or_congr_left (exists_congr fun line => and_congr_right fun hline => ?_))
    exact hlines s hs cmdline hmem line hline

theorem execute_eq (nodes : Nodes) (depth : Nat) (s : SessionContext) :
    execute nodes (depth + 1) s = executeAll (executeCmd nodes (execute nodes depth)) (commandsOf s.currInput) s := by
  obtain ⟨cmdlines, hsplit⟩ := split_ok s.currInput (by decide : bytes ";" ≠ [])
  rw [execute, commandsOf, hsplit]

theorem expands_mem (h : Expands s cmdline line) : line ∈ s.history := by
  obtain ⟨reference, -, hline⟩ := h
  rw [meantLine] at hline
  split at hline
  · exact mem_of_getLast? hline
  · split at hline
    · exact mem_of_historyAt hline
    · cases hline

theorem not_expands_of_not_runsHistory (h : runsHistory cmdline = false) : ¬Expands s cmdline line := by
  rintro ⟨reference, hhead, -⟩
  rw [runsHistory] at h
  rw [argsOf] at hhead
  rw [hhead] at h
  cases h

theorem abort_plain (hplain : Plain s.currInput) :
    .abort ∈ (execute nodes 1 s).deeds ↔ GetsToCrash nodes s (commandsOf s.currInput) := by
  obtain ⟨cmdlines, hsplit⟩ := split_ok s.currInput (by decide : bytes ";" ≠ [])
  have hcommands : commandsOf s.currInput = cmdlines := by rw [commandsOf, hsplit]
  rw [execute_eq, hcommands]
  refine abort_all rfl (execute_settles nodes 0) (fun s _ cmdline hmem => ?_) fun s _ cmdline hmem line hline => ?_
  · exact executeCmd_of_not_runsHistory (hplain cmdlines hsplit cmdline hmem) _ _
  · exact absurd hline (not_expands_of_not_runsHistory (hplain cmdlines hsplit cmdline hmem))

/-- **A line** ends the process just when it gets to a command that does. -/
theorem abort_execute (hplain : PlainHistory s) :
    .abort ∈ (execute nodes 2 s).deeds ↔ GetsToCrash nodes s (commandsOf s.currInput) := by
  rw [execute_eq]
  refine abort_all rfl (execute_settles nodes 1) (fun _ _ _ _ => rfl) fun s' hs cmdline _ line hline => ?_
  exact abort_plain (hplain line (hs ▸ expands_mem hline))

theorem lastName_gives_iff (nodePath : Path) (said : Bytes) :
    (∃ text, Gives (fun _ => nodePath.getLast?.map fun last => last.1 ++ said) text) ↔ nodePath ≠ [] := by
  cases hlast : nodePath.getLast? with
  | none =>
    rw [List.getLast?_eq_none_iff.mp hlast]
    refine iff_of_false ?_ fun h => h rfl
    rintro ⟨text, hgives⟩
    obtain ⟨_, hsome⟩ := hgives.exists
    cases hsome
  | some last =>
    refine iff_of_true ⟨_, Lib.gives_of_eq fun _ => rfl⟩ ?_
    rintro rfl
    cases hlast

theorem treeText_gives_iff (graph : NodeGraph) (s : SessionContext) (args : List Bytes) :
    (∃ text, Gives (fun rounds => treeText graph.toNodes rounds s args) text) ↔
      .abort ∉ (executeTreeCmd graph.toNodes s args).deeds := by
  rw [abort_tree]
  simp only [treeText, textBy]
  cases hpath : graph.findNode (args.getD 1 (bytes ".")) s.path with
  | none => exact iff_of_true ⟨_, Lib.gives_of_eq fun _ => rfl⟩ (by simp)
  | some nodePath =>
    dsimp only
    cases htop : graph.top nodePath with
    | none =>
      refine (lastName_gives_iff nodePath _).trans (not_congr ⟨?_, fun h => Option.some.inj h.1⟩)
      rintro rfl
      exact ⟨rfl, fun children h => by cases htop.symm.trans h⟩
    | some node =>
      cases node with
      | dir children =>
        refine iff_of_true ⟨_, tree_gives graph children⟩ ?_
        rintro ⟨hempty, hnone⟩
        cases hempty
        exact hnone children htop
      | func call =>
        refine (lastName_gives_iff nodePath _).trans (not_congr ⟨?_, fun h => Option.some.inj h.1⟩)
        rintro rfl
        exact ⟨rfl, fun children h => by cases htop.symm.trans h⟩

/-- **A line crashes just when it gets to a command that does.** No line of the history runs another, so two rounds are
enough. -/
theorem line_crashes_iff {actions : List Action} {w : Service} {st : SessionToken}
    (hrun : run Service.step {} actions = some w) (hs : w.sessions st = some s) (graph : NodeGraph) (line : Bytes) :
    (∀ stored ∈ s.history, Plain stored) ∧ (∀ depth, execute graph.toNodes (depth + 2) { s with currInput := line } =
        execute graph.toNodes 2 { s with currInput := line }) ∧
      (∀ depth, .abort ∈ (execute graph.toNodes (depth + 2) { s with currInput := line }).deeds ↔
        GetsToCrash graph.toNodes { s with currInput := line } (commandsOf line)) ∧
      (∀ pathStr, ∃ first names, split pathStr (bytes "/") = .ok (first :: names)) ∧
      ∀ s args, .abort ∉ (executeTreeCmd graph.toNodes s args).deeds ↔
        ∃ text, Gives (fun rounds => treeText graph.toNodes rounds s args) text := by
  have hplain : PlainHistory s := plainHistory_of_run hrun hs
  have hdepth : ∀ depth, execute graph.toNodes (depth + 2) { s with currInput := line } =
      execute graph.toNodes 2 { s with currInput := line } := execute_depth hplain
  refine ⟨hplain, hdepth, fun depth => ?_, fun pathStr => ?_, fun s args => (treeText_gives_iff graph s args).symm⟩
  · rw [hdepth]
    exact abort_execute hplain
  · obtain ⟨chips, hsplit, hchips⟩ := Util.split_chips (by decide : bytes "/" ≠ []) pathStr
    obtain ⟨first, names, rfl⟩ := hchips.exists_cons
    exact ⟨first, names, hsplit⟩

/-- The root has been deleted, and nothing else was there. -/
def emptyGraph : NodeGraph where
  at? _ := none
  cells := []
  alive _ h := absurd rfl h

/-- A new session crashes at once. -/
theorem newSession_crashes : ∃ w, run Service.step {} [.connect] = some w ∧ w.sessions 0 = some {} ∧
    .abort ∈ (execute emptyGraph.toNodes 2 { currInput := bytes "!!" }).deeds ∧
    .abort ∈ (execute emptyGraph.toNodes 2 { currInput := bytes "!2147483648" }).deeds ∧
    .abort ∈ (execute emptyGraph.toNodes 2 { currInput := bytes "tree" }).deeds := by
  refine ⟨_, rfl, rfl, ?_, ?_, ?_⟩ <;> decide +kernel

theorem newSession_getsToCrash :
    GetsToCrash emptyGraph.toNodes { currInput := bytes "pwd;tree" } (commandsOf (bytes "pwd;tree")) := by
  have hrun : run Service.step {} [.connect] = some (Service.onTcpConnected {}) := rfl
  have hs : (Service.onTcpConnected {}).sessions 0 = some {} := rfl
  have habort : .abort ∈ (execute emptyGraph.toNodes 2 { currInput := bytes "pwd;tree" }).deeds := by decide +kernel
  exact ((line_crashes_iff hrun hs emptyGraph (bytes "pwd;tree")).2.2.1 0).mp habort

end Tbox.Terminal
