import Tbox.Proof.HistoryDepth
import Tbox.Terminal.CheckedKeys

/-!
# The line that is edited

It is a text with a place in it, and the last twenty lines that were stored, of which one may be shown. The keys keep to
that, so that none of them gets out of range, whatever the commands do.
-/

open List

namespace Tbox.Terminal

open Tbox.Lib (Bytes run)
open Tbox.Lib.StdString (substr)

variable {nodes : Nodes} {s : SessionContext} {pressed : Pressed}

/-- What the accesses rely on. -/
structure Fits (s : SessionContext) : Prop where
  cursor : s.cursor ≤ s.currInput.length
  historyIndex : s.historyIndex ≤ s.history.length

namespace Checked

theorem moveToEnd_eq (s : SessionContext) : moveToEnd s = onEndKey s := by
  fun_induction moveToEnd s with
  | case1 s hlt rest ih =>
    have hcount : s.currInput.length - s.cursor = s.currInput.length - (s.cursor + 1) + 1 := by omega
    rw [show rest = onEndKey { s with cursor := s.cursor + 1 } from ih, onEndKey, onEndKey, hcount,
      replicate_succ, max_eq_right hlt.le, max_eq_right (by exact hlt)]
  | case2 s hge =>
    rw [onEndKey, max_eq_left (by omega), Nat.sub_eq_zero_of_le (by omega), replicate_zero]

theorem moveToFront_eq (s : SessionContext) : moveToFront s = onHomeKey s := by
  fun_induction moveToFront s with
  | case1 s hzero =>
    rw [onHomeKey, hzero, replicate_zero]
    exact Prod.ext (by rw [← hzero]) rfl
  | case2 s hne rest ih =>
    have hcount : s.cursor = s.cursor - 1 + 1 := by omega
    rw [show rest = onHomeKey { s with cursor := s.cursor - 1 } from ih, onHomeKey, onHomeKey]
    exact Prod.ext rfl (by rw [hcount, replicate_succ, Nat.add_sub_cancel])

theorem wipe_eq (s : SessionContext) : wipe s = ({ s with cursor := 2 ^ 64 - 1 }, List.replicate s.cursor .send) := by
  fun_induction wipe s with
  | case1 s hzero => rw [hzero, replicate_zero]
  | case2 s hne rest ih =>
    have hcount : s.cursor = s.cursor - 1 + 1 := by omega
    rw [show rest = _ from ih]
    exact Prod.ext rfl (by rw [hcount, replicate_succ, Nat.add_sub_cancel])

theorem cleanupInput_eq (s : SessionContext) :
    Checked.cleanupInput s = ({ s with cursor := 2 ^ 64 - 1 }, Terminal.cleanupInput s) := by
  rw [Checked.cleanupInput, moveToEnd_eq, onEndKey, wipe_eq, Terminal.cleanupInput]

theorem behindCursor_eq (h : s.cursor ≤ s.currInput.length) :
    behindCursor s = some (s.currInput.drop s.cursor, s.currInput.length - s.cursor) := by
  have hrest : substr s.currInput s.cursor none = .ok (s.currInput.drop s.cursor) := if_neg (Nat.not_lt.mpr h)
  have hback : difference s.currInput.length s.cursor = some (s.currInput.length - s.cursor) :=
    if_neg (Nat.not_lt.mpr h)
  rw [behindCursor, hrest, hback]
  rfl

theorem resend_eq (h : s.cursor ≤ s.currInput.length) : resend s = some (s, if s.echoes then [.send] else []) := by
  rw [resend, behindCursor_eq h]
  split <;> rfl

theorem onChar_eq (h : Fits s) (ch : UInt8) : onChar s ch = some (Terminal.onChar s ch) := by
  have hcursor := h.cursor
  have hcurrInput : (if s.cursor = s.currInput.length then some (s.currInput ++ [ch])
      else insert s.currInput s.cursor ch) = some (Terminal.onChar s ch).1.currInput := by
    rw [insert, if_neg (Nat.not_lt.mpr hcursor), Terminal.onChar]
    split <;> rfl
  have hlength : (Terminal.onChar s ch).1.currInput.length = s.currInput.length + 1 := by
    rw [Terminal.onChar]
    dsimp only
    split_ifs
    · rw [length_append, length_singleton]
    · rw [length_append, length_cons, length_take, length_drop]
      omega
  have hle : (Terminal.onChar s ch).1.cursor ≤ (Terminal.onChar s ch).1.currInput.length := by
    rw [hlength]
    exact Nat.succ_le_succ hcursor
  rw [onChar, hcurrInput]
  generalize hpressed : Terminal.onChar s ch = pressed at hle ⊢
  have hs : { s with currInput := pressed.1.currInput, cursor := s.cursor + 1 } = pressed.1 := by
    rw [← hpressed]
    rfl
  have hdeeds : pressed.2 = if pressed.1.echoes then
      .send :: if decide (pressed.1.cursor < pressed.1.currInput.length) then [.send] else [] else [] := by
    rw [← hpressed]
    rfl
  have hrest : pressed.1.currInput.drop pressed.1.cursor ≠ [] ∨ pressed.1.currInput.length - pressed.1.cursor ≠ 0 ↔
      decide (pressed.1.cursor < pressed.1.currInput.length) = true := by
    rw [ne_eq, drop_eq_nil_iff, decide_eq_true_iff]
    omega
  rw [Option.bind_some]
  dsimp only
  rw [hs, behindCursor_eq hle, Option.map_some]
  split
  · next hechoes =>
      rw [if_pos hechoes] at hdeeds
      simp only [hrest]
      rw [← hdeeds]
  · next hquiet =>
      rw [if_neg hquiet] at hdeeds
      rw [← hdeeds]

/-- The line is stored where this is asked for, and the oldest one goes if there are too many. -/
def stored (history : List Bytes) (executed : Executed) : List Bytes :=
  if executed.result then (history ++ [executed.currInput]).rtake kHistoryMaxSize else history

theorem onEnterKey_eq (s : SessionContext) (executed : Executed) (h : s.history.length ≤ kHistoryMaxSize) :
    ∃ deeds, onEnterKey s executed = some
      ({ s with
          path := executed.path
          history := stored s.history executed
          currInput := []
          cursor := 0
          historyIndex := 0 }, deeds) := by
  have hhistory : (if executed.result = true then
      if kHistoryMaxSize < (s.history ++ [executed.currInput]).length then popFront (s.history ++ [executed.currInput])
      else some (s.history ++ [executed.currInput])
      else some s.history) = some (stored s.history executed) := by
    rw [stored]
    split
    · have hne : s.history ++ [executed.currInput] ≠ [] := append_ne_nil_of_right_ne_nil _ (cons_ne_nil _ _)
      split
      · next hlt =>
          have hone : (s.history ++ [executed.currInput]).length - kHistoryMaxSize = 1 := by
            rw [length_append, length_singleton] at hlt ⊢
            omega
          rw [popFront, if_neg hne, List.rtake, hone, drop_one]
      · next hge => rw [List.rtake, Nat.sub_eq_zero_of_le (Nat.le_of_not_lt hge), drop_zero]
    · rfl
  rw [onEnterKey]
  rw [hhistory]
  exact ⟨_, rfl⟩

theorem onBackspaceKey_eq (h : Fits s) : onBackspaceKey s = some (Terminal.onBackspaceKey s) := by
  rw [onBackspaceKey, Terminal.onBackspaceKey]
  split
  · rfl
  next hpos =>
    have hcursor := h.cursor
    have hlength : (s.currInput.eraseIdx (s.cursor - 1)).length = s.currInput.length - 1 :=
      length_eraseIdx_of_lt (by omega)
    have hcurrInput : (if s.cursor = s.currInput.length then popBack s.currInput
        else erase s.currInput (s.cursor - 1)) = some (s.currInput.eraseIdx (s.cursor - 1)) := by
      split
      · next hend =>
          have hne : s.currInput ≠ [] := ne_nil_of_length_pos (by omega)
          rw [popBack, if_neg hne, hend, eraseIdx_length_sub_one]
      · rw [erase, if_neg (by omega)]
    rw [hcurrInput]
    exact resend_eq (by dsimp only; omega)

theorem onDeleteKey_eq (h : Fits s) : onDeleteKey s = some (Terminal.onDeleteKey s) := by
  rw [onDeleteKey, Terminal.onDeleteKey]
  split
  · rfl
  next hlt =>
    have hlength : (s.currInput.eraseIdx s.cursor).length = s.currInput.length - 1 :=
      length_eraseIdx_of_lt (Nat.lt_of_not_le hlt)
    rw [erase, if_neg (Nat.not_lt.mpr h.cursor)]
    exact resend_eq (by dsimp only; omega)

theorem fromHistory_eq (h : s.historyIndex ≤ s.history.length) (hpos : 0 < s.historyIndex) :
    fromHistory s = some (s.history.getD (s.history.length - s.historyIndex) []) := by
  have hindex : s.history.length - s.historyIndex < s.history.length := by omega
  rw [fromHistory, difference, if_neg (Nat.not_lt.mpr h), Option.bind_some, getD_eq_getElem?_getD,
    getElem?_eq_getElem hindex, Option.getD_some]

theorem onMoveUpKey_eq (h : Fits s) : onMoveUpKey s = some (Terminal.onMoveUpKey s) := by
  rw [onMoveUpKey, Terminal.onMoveUpKey]
  split
  · rfl
  next hne =>
    have hlt : s.historyIndex + 1 ≤ s.history.length := Nat.lt_of_le_of_ne h.historyIndex hne
    rw [cleanupInput_eq]
    dsimp only
    rw [fromHistory_eq hlt (Nat.succ_pos _)]
    rfl

theorem onMoveDownKey_eq (h : Fits s) : onMoveDownKey s = some (Terminal.onMoveDownKey s) := by
  rw [onMoveDownKey, Terminal.onMoveDownKey]
  split
  · rfl
  next hne =>
    have hle : s.historyIndex - 1 ≤ s.history.length := (Nat.sub_le _ 1).trans h.historyIndex
    rw [cleanupInput_eq, showHistory]
    dsimp only
    split
    · next hpos =>
        rw [fromHistory_eq hle hpos, if_neg (Nat.ne_of_gt hpos)]
        rfl
    · next hpos =>
        rw [if_pos (Nat.eq_zero_of_not_pos hpos)]
        rfl

end Checked

def KeepsRest (f : SessionContext → Outcome) : Prop :=
  ∀ s, ∃ line path, (f s).session = { s with currInput := line, path := path }

theorem KeepsRest.executeCmd {f : SessionContext → Outcome} (hf : KeepsRest f) (nodes : Nodes) (cmdline : Bytes) :
    KeepsRest fun s => executeCmd nodes f s cmdline := by
  intro s
  cases hruns : runsHistory cmdline with
  | false =>
    obtain ⟨path, hpath⟩ := executeCmd_frame (s := s) hruns f
    exact ⟨s.currInput, path, hpath⟩
  | true =>
    obtain ⟨args, hargs⟩ := executeCmd_of_runsHistory hruns s
    dsimp only
    rw [hargs]
    obtain ⟨deeds, hfails⟩ | ⟨line, -, deeds, hline⟩ := executeRunHistoryCmd_cases s args
    · rw [hfails]
      exact ⟨s.currInput, s.path, rfl⟩
    · rw [hline]
      exact hf { s with currInput := line }

theorem KeepsRest.executeAll {f : SessionContext → Outcome} (hf : KeepsRest f) (nodes : Nodes)
    (cmdlines : List Bytes) : KeepsRest (executeAll (Terminal.executeCmd nodes f) cmdlines) := by
  induction cmdlines with
  | nil => exact fun s => ⟨s.currInput, s.path, rfl⟩
  | cons cmdline cmdlines ih =>
    intro s
    obtain ⟨line, path, hfirst⟩ := hf.executeCmd nodes cmdline s
    rw [Terminal.executeAll]
    split
    · obtain ⟨line', path', hrest⟩ := ih (Terminal.executeCmd nodes f s cmdline).session
      exact ⟨line', path', by rw [hrest, hfirst]⟩
    · exact ⟨line, path, hfirst⟩

theorem execute_keepsRest (nodes : Nodes) (depth : Nat) : KeepsRest (execute nodes depth) := by
  induction depth with
  | zero => exact fun s => ⟨s.currInput, s.path, rfl⟩
  | succ depth ih =>
    intro s
    rw [execute]
    split
    · exact ⟨s.currInput, s.path, rfl⟩
    · exact ih.executeAll nodes _ s

def executedBy (nodes : Nodes) (s : SessionContext) : Executed :=
  let outcome := execute nodes 2 s
  { result := outcome.result
    currInput := outcome.session.currInput
    path := outcome.session.path
    deeds := outcome.deeds }

theorem Checked.onEnterKey_executedBy (nodes : Nodes) (s : SessionContext) :
    Checked.onEnterKey s (executedBy nodes s) = some (Terminal.onEnterKey nodes s) := by
  obtain ⟨line, path, hsession⟩ := execute_keepsRest nodes 2 s
  rw [Checked.onEnterKey, Terminal.onEnterKey, executedBy, hsession]
  dsimp only
  have hne : s.history ++ [line] ≠ [] := append_ne_nil_of_right_ne_nil _ (cons_ne_nil _ _)
  rw [Checked.popFront, if_neg hne, drop_one, ← apply_ite some, ← apply_ite some]
  rfl

def keyOf (nodes : Nodes) (s : SessionContext) (c : UInt8) : KeyEventScanner.Result → Option Key
  | .kPrintable => some (.char c)
  | .kEnter => some (.enter (executedBy nodes s))
  | .kBackspace => some .backspace
  | .kDelete => some .delete
  | .kMoveUp => some .moveUp
  | .kMoveDown => some .moveDown
  | .kMoveLeft => some .moveLeft
  | .kMoveRight => some .moveRight
  | .kHome => some .home
  | .kEnd => some .toEnd
  | _ => none

theorem onKey_checked (h : Fits s) (nodes : Nodes) (c : UInt8) (result : KeyEventScanner.Result) :
    (keyOf nodes s c result).elim (some (s, [])) (Checked.onKey s) = some (onKey nodes s c result) := by
  cases result with
  | kPrintable => exact Checked.onChar_eq h c
  | kEnter => exact Checked.onEnterKey_executedBy nodes s
  | kBackspace => exact Checked.onBackspaceKey_eq h
  | kDelete => exact Checked.onDeleteKey_eq h
  | kMoveUp => exact Checked.onMoveUpKey_eq h
  | kMoveDown => exact Checked.onMoveDownKey_eq h
  | kMoveLeft => exact (apply_ite some _ _ _).symm
  | kMoveRight => exact (apply_ite some _ _ _).symm
  | kHome => exact congrArg some (Checked.moveToFront_eq s)
  | kEnd => exact congrArg some (Checked.moveToEnd_eq s)
  | _ => rfl

structure Editor where
  before : Bytes := []
  after : Bytes := []
  shown : Nat := 0
  asked : List Bytes := []

namespace Editor

def text (e : Editor) : Bytes := e.before ++ e.after

def history (e : Editor) : List Bytes := e.asked.rtake kHistoryMaxSize

def recent (e : Editor) : Nat → Bytes
  | 0 => []
  | n + 1 => e.history.reverse.getD n []

def recalled (e : Editor) (n : Nat) : Editor := { e with before := e.recent n, after := [], shown := n }

def press (e : Editor) : Key → Editor
  | .char ch => { e with before := e.before ++ [ch] }
  | .backspace => { e with before := e.before.dropLast }
  | .delete => { e with after := e.after.tail }
  | .moveLeft => { e with before := e.before.dropLast, after := e.before.getLast?.toList ++ e.after }
  | .moveRight => { e with before := e.before ++ e.after.head?.toList, after := e.after.tail }
  | .home => { e with before := [], after := e.text }
  | .toEnd => { e with before := e.text, after := [] }
  | .moveUp => if e.shown < e.history.length then e.recalled (e.shown + 1) else e
  | .moveDown => if 0 < e.shown then e.recalled (e.shown - 1) else e
  | .enter executed => { asked := if executed.result then e.asked ++ [executed.currInput] else e.asked }

end Editor

structure Shows (e : Editor) (s : SessionContext) : Prop where
  currInput : s.currInput = e.text
  cursor : s.cursor = e.before.length
  historyIndex : s.historyIndex = e.shown
  history : s.history = e.history
  shown : e.shown ≤ e.history.length

variable {e : Editor} {key : Key}

theorem length_history_le (e : Editor) : e.history.length ≤ kHistoryMaxSize := by
  rw [Editor.history, List.rtake, length_drop]
  omega

theorem Shows.fits (h : Shows e s) : Fits s where
  cursor := by
    rw [h.cursor, h.currInput, Editor.text, length_append]
    exact Nat.le_add_right _ _
  historyIndex := by
    rw [h.historyIndex, h.history]
    exact h.shown

theorem stored_eq (e : Editor) (executed : Executed) :
    Checked.stored e.history executed = (e.press (.enter executed)).history := by
  have hshorter : (e.asked.rtake kHistoryMaxSize).rtake 19 = e.asked.rtake 19 := by
    rw [rtake_eq_reverse_take_reverse, rtake_eq_reverse_take_reverse, reverse_reverse, take_take,
      rtake_eq_reverse_take_reverse]
    rfl
  rw [Checked.stored, Editor.history, Editor.press, Editor.history]
  split
  · rw [kHistoryMaxSize, rtake_concat_succ, rtake_concat_succ]
    exact congrArg (· ++ _) hshorter
  · rfl

theorem recent_eq {n : Nat} (hn : n ≤ e.history.length) :
    (if n = 0 then [] else e.history.getD (e.history.length - n) []) = e.recent n := by
  cases n with
  | zero => rfl
  | succ n =>
    rw [if_neg (Nat.succ_ne_zero n), Editor.recent, getD_eq_getElem?_getD, getD_eq_getElem?_getD,
      List.getElem?_reverse hn, Nat.sub_sub, Nat.add_comm 1 n]

theorem shows_recalled (h : Shows e s) {n : Nat} (hn : n ≤ e.history.length) :
    Shows (e.recalled n) (showHistory s n) := by
  have hline : (showHistory s n).currInput = e.recent n := by
    rw [showHistory, h.history]
    exact recent_eq hn
  exact ⟨hline.trans (append_nil _).symm, congrArg List.length hline, rfl, h.history, hn⟩

theorem shows_char (h : Shows e s) (ch : UInt8) : Shows (e.press (.char ch)) (onChar s ch).1 := by
  refine ⟨?_, ?_, h.historyIndex, h.history, h.shown⟩
  · show (if s.cursor = s.currInput.length then s.currInput ++ [ch]
      else s.currInput.take s.cursor ++ ch :: s.currInput.drop s.cursor) = e.before ++ [ch] ++ e.after
    rw [h.currInput, h.cursor, Editor.text]
    split
    · next hend =>
        have hafter : e.after = [] := by
          rw [length_append] at hend
          exact length_eq_zero_iff.mp (by omega)
        rw [hafter, append_nil, append_nil]
    · rw [take_left, drop_left, append_assoc, singleton_append]
  · show s.cursor + 1 = (e.before ++ [ch]).length
    rw [h.cursor, length_append, length_singleton]

theorem shows_backspace (h : Shows e s) : Shows (e.press .backspace) (onBackspaceKey s).1 := by
  obtain ⟨before, after, shown, asked⟩ := e
  have hcurrInput : s.currInput = before ++ after := h.currInput
  have hcursor : s.cursor = before.length := h.cursor
  rw [onBackspaceKey]
  rcases eq_nil_or_concat' before with rfl | ⟨init, c, rfl⟩
  · have hzero : s.cursor = 0 := hcursor
    rw [if_pos hzero]
    exact h
  rw [length_append, length_singleton] at hcursor
  have hdrop : (init ++ [c]).dropLast = init := dropLast_concat
  rw [if_neg (by omega)]
  refine ⟨?_, ?_, h.historyIndex, h.history, h.shown⟩
  · show s.currInput.eraseIdx (s.cursor - 1) = (init ++ [c]).dropLast ++ after
    rw [hdrop, hcurrInput, hcursor, Nat.add_sub_cancel, append_assoc,
      eraseIdx_append_of_length_le (Nat.le_refl _), Nat.sub_self]
    rfl
  · show s.cursor - 1 = (init ++ [c]).dropLast.length
    rw [hdrop, hcursor, Nat.add_sub_cancel]

theorem shows_delete (h : Shows e s) : Shows (e.press .delete) (onDeleteKey s).1 := by
  obtain ⟨before, after, shown, asked⟩ := e
  have hcurrInput : s.currInput = before ++ after := h.currInput
  have hcursor : s.cursor = before.length := h.cursor
  rw [onDeleteKey]
  cases after with
  | nil =>
    rw [if_pos (by rw [hcurrInput, hcursor, append_nil])]
    exact h
  | cons c after =>
    rw [if_neg (by rw [hcurrInput, hcursor, length_append, length_cons]; omega)]
    refine { h with currInput := ?_ }
    show s.currInput.eraseIdx s.cursor = before ++ after
    rw [hcurrInput, hcursor, eraseIdx_append_of_length_le (Nat.le_refl _), Nat.sub_self]
    rfl

theorem shows_moveLeft (h : Shows e s) : Shows (e.press .moveLeft) (onMoveLeftKey s).1 := by
  obtain ⟨before, after, shown, asked⟩ := e
  have hcurrInput : s.currInput = before ++ after := h.currInput
  have hcursor : s.cursor = before.length := h.cursor
  rw [onMoveLeftKey]
  rcases eq_nil_or_concat' before with rfl | ⟨init, c, rfl⟩
  · have hzero : s.cursor = 0 := hcursor
    rw [if_pos hzero]
    exact h
  rw [length_append, length_singleton] at hcursor
  have hdrop : (init ++ [c]).dropLast = init := dropLast_concat
  have hlast : (init ++ [c]).getLast? = some c := List.getLast?_concat
  rw [if_neg (by omega)]
  refine ⟨?_, ?_, h.historyIndex, h.history, h.shown⟩
  · show s.currInput = (init ++ [c]).dropLast ++ ((init ++ [c]).getLast?.toList ++ after)
    rw [hdrop, hlast, hcurrInput, append_assoc]
    rfl
  · show s.cursor - 1 = (init ++ [c]).dropLast.length
    rw [hdrop, hcursor, Nat.add_sub_cancel]

theorem shows_moveRight (h : Shows e s) : Shows (e.press .moveRight) (onMoveRightKey s).1 := by
  obtain ⟨before, after, shown, asked⟩ := e
  have hcurrInput : s.currInput = before ++ after := h.currInput
  have hcursor : s.cursor = before.length := h.cursor
  rw [onMoveRightKey]
  cases after with
  | nil =>
    rw [if_pos (by rw [hcurrInput, hcursor, append_nil])]
    refine ⟨?_, ?_, h.historyIndex, h.history, h.shown⟩
    · show s.currInput = before ++ [] ++ []
      rw [hcurrInput, append_nil (before ++ [])]
    · show s.cursor = (before ++ []).length
      rw [hcursor, append_nil]
  | cons c after =>
    rw [if_neg (by rw [hcurrInput, hcursor, length_append, length_cons]; omega)]
    refine ⟨?_, ?_, h.historyIndex, h.history, h.shown⟩
    · show s.currInput = before ++ [c] ++ after
      rw [hcurrInput, append_assoc, singleton_append]
    · show s.cursor + 1 = (before ++ [c]).length
      rw [hcursor, length_append, length_singleton]

theorem shows_home (h : Shows e s) : Shows (e.press .home) (onHomeKey s).1 :=
  { h with cursor := rfl }

theorem shows_toEnd (h : Shows e s) : Shows (e.press .toEnd) (onEndKey s).1 := by
  refine ⟨?_, ?_, h.historyIndex, h.history, h.shown⟩
  · show s.currInput = e.text ++ []
    rw [h.currInput, append_nil]
  · show max s.cursor s.currInput.length = e.text.length
    rw [max_eq_right h.fits.cursor, h.currInput]

theorem shows_moveUp (h : Shows e s) : Shows (e.press .moveUp) (onMoveUpKey s).1 := by
  rw [onMoveUpKey, Editor.press, h.historyIndex, h.history]
  by_cases hlt : e.shown < e.history.length
  · rw [if_pos hlt, if_neg (Nat.ne_of_lt hlt)]
    exact shows_recalled h hlt
  · rw [if_neg hlt, if_pos (Nat.le_antisymm h.shown (Nat.le_of_not_lt hlt))]
    exact h

theorem shows_moveDown (h : Shows e s) : Shows (e.press .moveDown) (onMoveDownKey s).1 := by
  rw [onMoveDownKey, Editor.press, h.historyIndex]
  by_cases hpos : 0 < e.shown
  · rw [if_pos hpos, if_neg (Nat.ne_of_gt hpos)]
    exact shows_recalled h ((Nat.sub_le _ 1).trans h.shown)
  · rw [if_neg hpos, if_pos (Nat.eq_zero_of_not_pos hpos)]
    exact h

/-- **One key.** -/
theorem press_shows (h : Shows e s) (key : Key) :
    ∃ pressed, Checked.onKey s key = some pressed ∧ Shows (e.press key) pressed.1 := by
  cases key with
  | char ch => exact ⟨_, Checked.onChar_eq h.fits ch, shows_char h ch⟩
  | enter executed =>
    obtain ⟨deeds, henter⟩ := Checked.onEnterKey_eq s executed (h.history ▸ length_history_le e)
    exact ⟨_, henter, rfl, rfl, rfl, h.history ▸ stored_eq e executed, Nat.zero_le _⟩
  | backspace => exact ⟨_, Checked.onBackspaceKey_eq h.fits, shows_backspace h⟩
  | delete => exact ⟨_, Checked.onDeleteKey_eq h.fits, shows_delete h⟩
  | moveUp => exact ⟨_, Checked.onMoveUpKey_eq h.fits, shows_moveUp h⟩
  | moveDown => exact ⟨_, Checked.onMoveDownKey_eq h.fits, shows_moveDown h⟩
  | moveLeft => exact ⟨_, (apply_ite some _ _ _).symm, shows_moveLeft h⟩
  | moveRight => exact ⟨_, (apply_ite some _ _ _).symm, shows_moveRight h⟩
  | home => exact ⟨_, congrArg some (Checked.moveToFront_eq s), shows_home h⟩
  | toEnd => exact ⟨_, congrArg some (Checked.moveToEnd_eq s), shows_toEnd h⟩

/-- A key, after which options may be others. -/
def pressKey (s : SessionContext) (event : Key × UInt32) : Option SessionContext :=
  (Checked.onKey s event.1).map fun pressed => { pressed.1 with options := event.2 }

theorem Shows.options (h : Shows e s) (options : UInt32) : Shows e { s with options := options } := { h with }

theorem run_shows (events : List (Key × UInt32)) (h : Shows e s) :
    ∃ t, run pressKey s events = some t ∧ Shows (events.foldl (fun e event => e.press event.1) e) t := by
  induction events generalizing e s with
  | nil => exact ⟨s, rfl, h⟩
  | cons event events ih =>
    obtain ⟨pressed, hpressed, hshows⟩ := press_shows h event.1
    obtain ⟨t, ht, hlast⟩ := ih (hshows.options event.2)
    refine ⟨t, ?_, hlast⟩
    rw [Lib.run_cons, pressKey, hpressed]
    exact ht

/-- **The line editor refines a text with a place in it**, whatever keys there are, whatever the commands do, and
whether or not the keys are echoed. -/
theorem editor_refines (options : UInt32) (events : List (Key × UInt32)) :
    ∃ s, run pressKey { options := options } events = some s ∧
      Shows (events.foldl (fun e event => e.press event.1) {}) s ∧
      s.cursor ≤ s.currInput.length ∧ s.historyIndex ≤ s.history.length ∧ s.history.length ≤ 20 ∧
      ∀ nodes c result,
        (keyOf nodes s c result).elim (some (s, [])) (Checked.onKey s) = some (onKey nodes s c result) := by
  have hstart : Shows {} { options := options } := ⟨rfl, rfl, rfl, rfl, Nat.le_refl _⟩
  obtain ⟨s, hrun, hshows⟩ := run_shows events hstart
  refine ⟨s, hrun, hshows, hshows.fits.cursor, hshows.fits.historyIndex, ?_, onKey_checked hshows.fits⟩
  rw [hshows.history]
  exact length_history_le _

end Tbox.Terminal
