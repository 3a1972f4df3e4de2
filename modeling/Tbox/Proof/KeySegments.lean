import Tbox.Terminal.KeyEvents

/-!
# Keys and segments

A string is taken apart into keys from its first byte to its last, and after it a carriage return that is left is an
Enter. So a line end of two bytes that is received in two strings can be two.
-/

open List

namespace Tbox.Terminal

open Tbox.Lib (Bytes)
open KeyEventScanner (Result isPrint)

variable {nodes : Nodes} {s : SessionContext} {c : UInt8} {str seg : Bytes} {segs : List Bytes}

structure Heard where
  step : KeyStep
  byte : UInt8
  result : Result
  deriving DecidableEq, Repr

def scan (step : KeyStep) : Bytes → Bool → List Heard × KeyStep × Bool
  | [], unsure => ([], step, unsure)
  | c :: str, _ =>
    match KeyEventScanner.next step c with
    | .unsure step => scan step str true
    | .fail => scan .kNone str false
    | .ensure result =>
      let rest := scan .kNone str false
      ({ step := step, byte := c, result := result } :: rest.1, rest.2)

def flush (step : KeyStep) (unsure : Bool) : List Heard :=
  if unsure ∧ KeyEventScanner.stop step = .ensure .kEnter then [{ step := step, byte := 0x0d, result := .kEnter }]
  else []

def heardIn (str : Bytes) : List Heard :=
  let scanned := scan .kNone str true
  scanned.1 ++ flush scanned.2.1 scanned.2.2

/-- The keys are acted upon one after the other. -/
def actAll (nodes : Nodes) : List Heard → SessionContext → Pressed
  | [], s => (s, [])
  | heard :: rest, s =>
    let pressed := onKey nodes { s with keyStep := heard.step } heard.byte heard.result
    let later := actAll nodes rest { pressed.1 with keyStep := .kNone }
    (later.1, pressed.2 ++ later.2)

/-- The step of the scanner is not looked at before it is started again. -/
def settle (pressed : Pressed) (step : KeyStep) : Pressed := ({ pressed.1 with keyStep := step }, pressed.2)

theorem actAll_append (first second : List Heard) (s : SessionContext) :
    actAll nodes (first ++ second) s = ((actAll nodes second (actAll nodes first s).1).1,
      (actAll nodes first s).2 ++ (actAll nodes second (actAll nodes first s).1).2) := by
  induction first generalizing s with
  | nil => rfl
  | cons heard first ih =>
    rw [cons_append, actAll, actAll, ih]
    rw [append_assoc]

theorem settle_actAll (heard : List Heard) (s : SessionContext) (step step' : KeyStep) :
    settle (actAll nodes heard { s with keyStep := step' }) step = settle (actAll nodes heard s) step := by
  cases heard <;> rfl

theorem feed_eq (nodes : Nodes) (s : SessionContext) (str : Bytes) (unsure : Bool) : feed nodes s str unsure =
      (settle (actAll nodes (scan s.keyStep str unsure).1 s) (scan s.keyStep str unsure).2.1,
        (scan s.keyStep str unsure).2.2) := by
  induction str generalizing s unsure with
  | nil => rfl
  | cons c str ih =>
    rw [feed, scan]
    cases KeyEventScanner.next s.keyStep c with
    | unsure step =>
      dsimp only
      rw [ih, settle_actAll]
    | fail =>
      rw [ih, settle_actAll]
    | ensure result =>
      dsimp only
      rw [ih]
      rfl

theorem onRecvString_eq (nodes : Nodes) (s : SessionContext) (str : Bytes) :
    settle (onRecvString nodes s str) .kNone = settle (actAll nodes (heardIn str) s) .kNone := by
  rw [onRecvString, feed_eq, heardIn, actAll_append]
  generalize scan .kNone str true = scanned
  obtain ⟨heard, step, unsure⟩ := scanned
  have hsettle := @settle_actAll nodes heard s step .kNone
  rw [hsettle]
  generalize actAll nodes heard s = pressed
  obtain ⟨after, deeds⟩ := pressed
  by_cases hflush : unsure = true ∧ KeyEventScanner.stop step = .ensure .kEnter
  · have hheard : flush step unsure = [⟨step, 0x0d, .kEnter⟩] := if_pos hflush
    have hact : actAll nodes [⟨step, 0x0d, .kEnter⟩] after =
        settle (onEnterKey nodes { after with keyStep := step }) .kNone :=
      Prod.ext rfl (append_nil _)
    rw [hheard, hact]
    dsimp only
    rw [if_pos hflush.1, show (settle (after, deeds) step).1.keyStep = step from rfl, hflush.2]
    rfl
  · dsimp only [settle]
    rw [flush, if_neg hflush]
    split
    · next hunsure =>
        split
        · exact absurd ⟨hunsure, ‹_›⟩ hflush
        · exact congrArg (Prod.mk _) (append_nil deeds).symm
        · exact congrArg (Prod.mk _) (append_nil deeds).symm
    · exact congrArg (Prod.mk _) (append_nil deeds).symm

/-- One string after the other is received. -/
def recvAll (nodes : Nodes) : List Bytes → SessionContext → Pressed
  | [], s => (s, [])
  | seg :: segs, s =>
    let first := onRecvString nodes s seg
    let later := recvAll nodes segs first.1
    (later.1, first.2 ++ later.2)

theorem settle_recvAll (segs : List Bytes) (s : SessionContext) (step step' : KeyStep) :
    settle (recvAll nodes segs { s with keyStep := step' }) step = settle (recvAll nodes segs s) step := by
  cases segs <;> rfl

theorem recvAll_eq (nodes : Nodes) (segs : List Bytes) (s : SessionContext) :
    settle (recvAll nodes segs s) .kNone = settle (actAll nodes (segs.flatMap heardIn) s) .kNone := by
  induction segs generalizing s with
  | nil => rfl
  | cons seg segs ih =>
    obtain ⟨hsession, hdeeds⟩ := Prod.ext_iff.mp (onRecvString_eq nodes s seg)
    rw [flatMap_cons, actAll_append, recvAll]
    generalize onRecvString nodes s seg = first at hsession hdeeds ⊢
    generalize actAll nodes (heardIn seg) s = acted at hsession hdeeds ⊢
    have hlater : settle (recvAll nodes segs first.1) .kNone =
        settle (actAll nodes (segs.flatMap heardIn) acted.1) .kNone := by
      rw [← settle_recvAll segs first.1 .kNone .kNone, ← ih, ← settle_recvAll segs acted.1 .kNone .kNone]
      exact congrArg (fun s => settle (recvAll nodes segs s) .kNone) hsession
    obtain ⟨hafter, hrest⟩ := Prod.ext_iff.mp hlater
    exact Prod.ext hafter (congrArg₂ (· ++ ·) hdeeds hrest)

inductive LineEnd where
  | lf
  | crLf
  | crNul
  deriving DecidableEq, Repr

def LineEnd.bytes : LineEnd → Bytes
  | .lf => [0x0a]
  | .crLf => [0x0d, 0x0a]
  | .crNul => [0x0d, 0x00]

inductive TextItem where
  | printable (c : UInt8) (h : isPrint c = true)
  | tab
  | backspace (c : UInt8) (h : c = 0x7f ∨ c = 0x08)
  | lineEnd (lineEnd : LineEnd)

namespace TextItem

def bytes : TextItem → Bytes
  | printable c _ => [c]
  | tab => [0x09]
  | backspace c _ => [c]
  | lineEnd e => e.bytes

/-- A key, and the character where it is one. -/
def key : TextItem → Result × Option UInt8
  | printable c _ => (.kPrintable, some c)
  | tab => (.kTab, none)
  | backspace _ _ => (.kBackspace, none)
  | lineEnd _ => (.kEnter, none)

end TextItem

def textOf (items : List TextItem) : Bytes := items.flatMap TextItem.bytes

/-- Only of what is printable the byte matters. -/
def Heard.key (heard : Heard) : Result × Option UInt8 :=
  (heard.result, if heard.result = .kPrintable then some heard.byte else none)

/-- The keys of the strings that are received one after the other. -/
def keysOf (segs : List Bytes) : List (Result × Option UInt8) := segs.flatMap fun seg => (heardIn seg).map Heard.key

def lineEnds (items : List TextItem) : Nat := items.countP fun item => item.key.1 = .kEnter

def enters (keys : List (Result × Option UInt8)) : Nat := keys.countP fun key => key.1 = .kEnter

/-- No string that ends in a carriage return is followed by a line feed. -/
def KeepsLineEnds : List Bytes → Prop
  | [] => True
  | seg :: segs => (seg.getLast? = some 0x0d → segs.flatten.head? ≠ some 0x0a) ∧ KeepsLineEnds segs

theorem scan_unsure (str : Bytes) (unsure : Bool) : (scan .kNone str unsure).1 = (scan .kNone str true).1 ∧
    flush (scan .kNone str unsure).2.1 (scan .kNone str unsure).2.2 =
      flush (scan .kNone str true).2.1 (scan .kNone str true).2.2 := by
  cases str with
  | nil =>
    refine ⟨rfl, ?_⟩
    cases unsure <;> rfl
  | cons c str => exact ⟨rfl, rfl⟩

theorem keysOf_of_scan {heard : List Heard}
    (h : scan .kNone str true = (heard ++ (scan .kNone seg false).1, (scan .kNone seg false).2)) (segs : List Bytes) :
    keysOf (str :: segs) = heard.map Heard.key ++ keysOf (seg :: segs) := by
  obtain ⟨hfirst, hlast⟩ := scan_unsure seg false
  rw [keysOf, flatMap_cons, heardIn, h]
  rw [hlast, hfirst, append_assoc, map_append, append_assoc]
  rfl

theorem keysOf_ensure {result : Result} (h : KeyEventScanner.next .kNone c = .ensure result) (seg : Bytes)
    (segs : List Bytes) : keysOf ((c :: seg) :: segs) = Heard.key ⟨.kNone, c, result⟩ :: keysOf (seg :: segs) := by
  have hscan : scan .kNone (c :: seg) true =
      ([⟨.kNone, c, result⟩] ++ (scan .kNone seg false).1, (scan .kNone seg false).2) := by
    rw [scan, h]
    rfl
  exact keysOf_of_scan hscan segs

theorem keysOf_nul (seg : Bytes) (segs : List Bytes) : keysOf ((0x00 :: seg) :: segs) = keysOf (seg :: segs) := by
  have hscan : scan .kNone (0x00 :: seg) true = ([] ++ (scan .kNone seg false).1, (scan .kNone seg false).2) := rfl
  exact keysOf_of_scan hscan segs

theorem keysOf_pair (h : c = 0x00 ∨ c = 0x0a) (seg : Bytes) (segs : List Bytes) :
    keysOf ((0x0d :: c :: seg) :: segs) = (.kEnter, none) :: keysOf (seg :: segs) := by
  have hscan : scan .kNone (0x0d :: c :: seg) true =
      ([⟨.k0d, c, .kEnter⟩] ++ (scan .kNone seg false).1, (scan .kNone seg false).2) := by
    rcases h with rfl | rfl <;> rfl
  exact keysOf_of_scan hscan segs

theorem keysOf_cut (segs : List Bytes) : keysOf ([0x0d] :: segs) = (.kEnter, none) :: keysOf segs := rfl

theorem keepsLineEnds_cons (c : UInt8) (seg : Bytes) (segs : List Bytes) : KeepsLineEnds ((c :: seg) :: segs) ↔
    (seg = [] ∧ c = 0x0d → segs.flatten.head? ≠ some 0x0a) ∧ KeepsLineEnds (seg :: segs) := by
  cases seg with
  | nil => simp [KeepsLineEnds]
  | cons d seg => simp [KeepsLineEnds]

theorem keepsLineEnds_of_ne (hne : c ≠ 0x0d) (seg : Bytes) (segs : List Bytes) :
    KeepsLineEnds ((c :: seg) :: segs) ↔ KeepsLineEnds (seg :: segs) := by
  rw [keepsLineEnds_cons, and_iff_right fun h => absurd h.2 hne]

theorem keepsLineEnds_nil_cons (segs : List Bytes) : KeepsLineEnds ([] :: segs) ↔ KeepsLineEnds segs := by
  simp [KeepsLineEnds]

theorem flatten_eq_nil (h : segs.flatten = []) : keysOf segs = [] ∧ KeepsLineEnds segs := by
  induction segs with
  | nil => exact ⟨rfl, trivial⟩
  | cons seg segs ih =>
    rw [flatten_cons, append_eq_nil_iff] at h
    obtain ⟨rfl, hsegs⟩ := h
    rw [keepsLineEnds_nil_cons]
    exact ih hsegs

theorem exists_first {rest : Bytes} (h : segs.flatten = c :: rest) : ∃ seg segs', (seg :: segs').flatten = rest ∧
    keysOf segs = keysOf ((c :: seg) :: segs') ∧ (KeepsLineEnds segs ↔ KeepsLineEnds ((c :: seg) :: segs')) := by
  induction segs with
  | nil => cases h
  | cons seg segs ih =>
    cases seg with
    | nil =>
      obtain ⟨seg, segs', hrest, hkeys, hkeeps⟩ := ih h
      exact ⟨seg, segs', hrest, hkeys, (keepsLineEnds_nil_cons segs).trans hkeeps⟩
    | cons d seg =>
      obtain ⟨rfl, hrest⟩ := List.cons.inj h
      exact ⟨seg, segs, hrest, rfl, Iff.rfl⟩

structure Acts (items : List TextItem) (segs : List Bytes) : Prop where
  same : KeepsLineEnds segs → keysOf segs = items.map TextItem.key
  enough : lineEnds items ≤ enters (keysOf segs)
  more : ¬KeepsLineEnds segs → lineEnds items < enters (keysOf segs)

variable {item : TextItem} {items : List TextItem} {segs' : List Bytes}

theorem Acts.cons (h : Acts items segs') (hkeys : keysOf segs = item.key :: keysOf segs')
    (hkeeps : KeepsLineEnds segs ↔ KeepsLineEnds segs') : Acts (item :: items) segs := by
  have hends : lineEnds (item :: items) = lineEnds items + if item.key.1 = .kEnter then 1 else 0 := by
    rw [lineEnds, countP_cons, lineEnds]
    simp
  have henters : enters (keysOf segs) = enters (keysOf segs') + if item.key.1 = .kEnter then 1 else 0 := by
    rw [hkeys, enters, countP_cons, enters]
    simp
  constructor
  · intro hkeep
    rw [hkeys, h.same (hkeeps.mp hkeep), map_cons]
  · rw [hends, henters]
    exact Nat.add_le_add_right h.enough _
  · intro hcut
    rw [hends, henters]
    exact Nat.add_lt_add_right (h.more fun hkeep => hcut (hkeeps.mpr hkeep)) _

theorem Acts.cut (h : Acts items segs') (hkeys : keysOf segs = (.kEnter, none) :: (.kEnter, none) :: keysOf segs')
    (hcut : ¬KeepsLineEnds segs) : Acts (.lineEnd .crLf :: items) segs := by
  have hmore : lineEnds (.lineEnd .crLf :: items) < enters (keysOf segs) := by
    rw [hkeys]
    simp only [lineEnds, enters, countP_cons, TextItem.key]
    exact Nat.succ_lt_succ (Nat.lt_succ_of_le h.enough)
  exact ⟨fun hkeep => absurd hkeep hcut, hmore.le, fun _ => hmore⟩

theorem acts_byte {result : Result} {rest : Bytes} (hflatten : segs.flatten = c :: rest) (hne : c ≠ 0x0d)
    (hnext : KeyEventScanner.next .kNone c = .ensure result) (hkey : Heard.key ⟨.kNone, c, result⟩ = item.key)
    (hrest : ∀ segs, segs.flatten = rest → Acts items segs) : Acts (item :: items) segs := by
  obtain ⟨seg, segs', hflatten', hkeys, hkeeps⟩ := exists_first hflatten
  refine (hrest (seg :: segs') hflatten').cons ?_ (hkeeps.trans (keepsLineEnds_of_ne hne seg segs'))
  rw [hkeys, keysOf_ensure hnext, hkey]

theorem acts_pair {rest : Bytes} (hc : c = 0x00 ∨ c = 0x0a) (hflatten : segs.flatten = 0x0d :: c :: rest)
    (hitem : item = .lineEnd (if c = 0x00 then .crNul else .crLf))
    (hrest : ∀ segs, segs.flatten = rest → Acts items segs) : Acts (item :: items) segs := by
  have hne : c ≠ 0x0d := by rcases hc with rfl | rfl <;> decide
  have hkey : item.key = (.kEnter, none) := by rw [hitem]; rfl
  obtain ⟨seg, segs', hflatten', hkeys, hkeeps⟩ := exists_first hflatten
  cases seg with
  | cons d seg =>
    obtain ⟨rfl, hflatten''⟩ := List.cons.inj hflatten'
    refine (hrest (seg :: segs') hflatten'').cons ?_ ?_
    · rw [hkeys, keysOf_pair hc, hkey]
    · rw [hkeeps, keepsLineEnds_cons, keepsLineEnds_of_ne hne, and_iff_right]
      exact fun h => absurd h.1 (cons_ne_nil d seg)
  | nil =>
    have hsegs' : segs'.flatten = c :: rest := hflatten'
    obtain ⟨seg, segs'', hflatten'', hkeys', hkeeps'⟩ := exists_first hsegs'
    have hcut : KeepsLineEnds segs ↔ (segs'.flatten.head? ≠ some 0x0a) ∧ KeepsLineEnds (seg :: segs'') := by
      rw [hkeeps, keepsLineEnds_cons, keepsLineEnds_nil_cons, hkeeps', keepsLineEnds_of_ne hne]
      exact and_congr_left fun _ => ⟨fun h => h ⟨rfl, rfl⟩, fun h _ => h⟩
    rw [hsegs', List.head?_cons] at hcut
    rcases hc with rfl | rfl
    · refine (hrest (seg :: segs'') hflatten'').cons ?_ (hcut.trans (and_iff_right (by decide)))
      rw [hkeys, keysOf_cut, hkeys', keysOf_nul, hkey]
    have hlf : KeyEventScanner.next .kNone 0x0a = .ensure .kEnter := rfl
    rw [hitem]
    refine (hrest (seg :: segs'') hflatten'').cut ?_ fun hkeep => (hcut.mp hkeep).1 rfl
    rw [hkeys, keysOf_cut, hkeys', keysOf_ensure hlf]
    rfl

theorem next_printable (h : isPrint c = true) : c ≠ 0x0d ∧ KeyEventScanner.next .kNone c = .ensure .kPrintable := by
  have hrange : 32 ≤ c ∧ c ≤ 126 := of_decide_eq_true h
  have hother : ∀ d : UInt8, d < 32 ∨ 126 < d → c ≠ d := by
    rintro d hd rfl
    rcases hd with hd | hd
    · exact absurd hrange.1 (UInt8.not_le.mpr hd)
    · exact absurd hrange.2 (UInt8.not_le.mpr hd)
  refine ⟨hother _ (by decide), ?_⟩
  rw [KeyEventScanner.next, if_neg (hother _ (by decide)),
    if_neg (not_or.mpr ⟨hother _ (by decide), hother _ (by decide)⟩), if_neg (hother _ (by decide)),
    if_neg (hother _ (by decide)), if_neg (hother _ (by decide)), if_neg (hother _ (by decide)), if_pos h]

theorem acts_of_textOf (items : List TextItem) (segs : List Bytes) (h : segs.flatten = textOf items) :
    Acts items segs := by
  induction items generalizing segs with
  | nil =>
    obtain ⟨hkeys, hkeeps⟩ := flatten_eq_nil h
    exact ⟨fun _ => hkeys, Nat.zero_le _, fun hcut => absurd hkeeps hcut⟩
  | cons item items ih =>
    cases item with
    | printable c hprint =>
      obtain ⟨hne, hnext⟩ := next_printable hprint
      exact acts_byte h hne hnext rfl ih
    | tab => exact acts_byte h (by decide) rfl rfl ih
    | backspace c hc =>
      have hne : c ≠ 0x0d := by rcases hc with rfl | rfl <;> decide
      have hnext : KeyEventScanner.next .kNone c = .ensure .kBackspace := by rcases hc with rfl | rfl <;> rfl
      exact acts_byte h hne hnext rfl ih
    | lineEnd e =>
      cases e with
      | lf => exact acts_byte h (by decide) rfl rfl ih
      | crLf => exact acts_pair (.inr rfl) h rfl ih
      | crNul => exact acts_pair (.inl rfl) h rfl ih

/-- **The keys are those of the whole text, with an Enter for each line end, just when no line end is cut.** A session
acts upon these keys. -/
theorem keysOf_segments_iff (items : List TextItem) (segs : List Bytes) (h : segs.flatten = textOf items) :
    (keysOf segs = keysOf [textOf items] ∧ enters (keysOf segs) = lineEnds items ↔ KeepsLineEnds segs) ∧
      keysOf [textOf items] = items.map TextItem.key ∧
      ∀ nodes s, settle (recvAll nodes segs s) .kNone = settle (actAll nodes (segs.flatMap heardIn) s) .kNone := by
  have hacts := acts_of_textOf items segs h
  have hwhole : keysOf [textOf items] = items.map TextItem.key :=
    (acts_of_textOf items [textOf items] (List.append_nil _)).same ⟨by simp, trivial⟩
  have hcount : enters (items.map TextItem.key) = lineEnds items := by
    rw [enters, List.countP_map, lineEnds]
    rfl
  refine ⟨⟨fun hsame => ?_, fun hkeeps => ?_⟩, hwhole, fun nodes s => recvAll_eq nodes segs s⟩
  · by_contra hcut
    exact absurd hsame.2 (Nat.ne_of_gt (hacts.more hcut))
  · rw [hacts.same hkeeps, hwhole]
    exact ⟨rfl, hcount⟩

theorem keysOf_segments_typed : keysOf [[0x6c, 0x73, 0x0d], [0x00]] = keysOf [[0x6c, 0x73, 0x0d, 0x00]] :=
  ((keysOf_segments_iff [.printable 0x6c rfl, .printable 0x73 rfl, .lineEnd .crNul] [[0x6c, 0x73, 0x0d], [0x00]]
    rfl).1.mpr (by simp [KeepsLineEnds])).1

/-- A line end that comes in two strings is acted upon twice. -/
theorem keysOf_cutLineEnd : textOf [.lineEnd .crLf] = [0x0d, 0x0a] ∧
    keysOf [[0x0d, 0x0a]] = [(.kEnter, none)] ∧ keysOf [[0x0d], [0x0a]] = [(.kEnter, none), (.kEnter, none)] := by
  decide

end Tbox.Terminal
