import Tbox.Proof.SerialSteps

/-!
# The loop of a repeat action

`RepeatAction` counts down what remains after the round it is in. To repeat nothing, the first round is begun all the
same, and what remains is the greatest `size_t`.
-/

open List Option

namespace Tbox.Flow.Action

open Lib (run Along)

def RepeatMode.breaks (mode : RepeatMode) (isSucc : Bool) : Bool :=
  match mode with
  | .noBreak => false
  | .breakFail => !isSucc
  | .breakSucc => isSucc

/-- `for (int i = 0; i < times; ++i)` with the break of the mode: how often the child is run, and what the action
finishes with. -/
def documentedLoop (mode : RepeatMode) : Nat → (Nat → Outcome) → Nat × Outcome
  | 0, _ => (0, true, repeatNoTimes)
  | times + 1, results =>
    if mode.breaks (results 0).1 then (1, results 0)
    else
      let left := documentedLoop mode times fun i => results (i + 1)
      (left.1 + 1, left.2)

/-- The child has been run, with these results. -/
def rounds (c : ActionId) (results : List Outcome) : List Event :=
  results.flatMap fun r => [.started c, .finished c r.1 r.2]

def documentedLog (n c : ActionId) (mode : RepeatMode) (times : Nat) (results : Nat → Outcome) : List Event :=
  let left := documentedLoop mode times results
  rounds c ((List.range left.1).map results) ++ [.finished n left.2.1 left.2.2]

section Documented

variable {n c : ActionId} {mode : RepeatMode} {times j : Nat} {results : Nat → Outcome}

theorem documentedLoop_of_le (hnot : ∀ i < j, mode.breaks (results i).1 = false) (hle : j ≤ times) :
    documentedLoop mode times results = ((documentedLoop mode (times - j) fun i => results (i + j)).1 + j,
        (documentedLoop mode (times - j) fun i => results (i + j)).2) := by
  induction j generalizing times results with
  | zero => rfl
  | succ j ih =>
    obtain ⟨times, rfl⟩ := Nat.exists_eq_succ_of_ne_zero (n := times) (by omega)
    have hrest : documentedLoop mode times (fun i => results (i + 1)) = _ :=
      ih (fun i hi => hnot (i + 1) (Nat.succ_lt_succ hi)) (Nat.le_of_succ_le_succ hle)
    rw [documentedLoop, if_neg (by rw [hnot 0 (Nat.succ_pos j)]; exact nofun), hrest, Nat.succ_sub_succ]
    rfl

theorem lt_documentedLoop (hnot : ∀ i < j, mode.breaks (results i).1 = false) (hlt : j < times) :
    j < (documentedLoop mode times results).1 := by
  obtain ⟨rest, hrest⟩ : ∃ rest, times - j = rest + 1 := ⟨times - j - 1, by omega⟩
  rw [documentedLoop_of_le hnot hlt.le, hrest, documentedLoop]
  split_ifs <;> dsimp only <;> omega

theorem documentedLoop_of_breaks (hnot : ∀ i < j, mode.breaks (results i).1 = false) (hlt : j < times)
    (hbreaks : mode.breaks (results j).1 = true) : documentedLoop mode times results = (j + 1, results j) := by
  obtain ⟨rest, hrest⟩ : ∃ rest, times - j = rest + 1 := ⟨times - j - 1, by omega⟩
  have hfirst : mode.breaks (results (0 + j)).1 = true := by
    rw [Nat.zero_add]
    exact hbreaks
  rw [documentedLoop_of_le hnot hlt.le, hrest, documentedLoop, if_pos hfirst, Nat.zero_add, Nat.add_comm]

theorem documentedLoop_of_none (hnot : ∀ i < times, mode.breaks (results i).1 = false) :
    documentedLoop mode times results = (times, true, repeatNoTimes) := by
  rw [documentedLoop_of_le hnot le_rfl, Nat.sub_self, documentedLoop, Nat.zero_add]

theorem rounds_append (rs rs' : List Outcome) : rounds c (rs ++ rs') = rounds c rs ++ rounds c rs' := flatMap_append

theorem rounds_of_le {k : Nat} (hk : j ≤ k) :
    rounds c ((List.range j).map results) <+: rounds c ((List.range k).map results) := by
  obtain ⟨more, rfl⟩ := Nat.exists_eq_add_of_le hk
  rw [range_add, map_append, rounds_append]
  exact prefix_append ..

theorem rounds_succ : rounds c ((List.range (j + 1)).map results) =
      rounds c ((List.range j).map results) ++ [.started c, .finished c (results j).1 (results j).2] := by
  rw [range_succ, map_append, rounds_append]
  rfl

theorem rounds_prefix_log {k : Nat} (hk : k ≤ (documentedLoop mode times results).1) :
    rounds c ((List.range k).map results) <+: documentedLog n c mode times results :=
  (rounds_of_le hk).trans (prefix_append ..)

end Documented

variable {F : Forest} {w w' : World} {n c m : ActionId} {mode : RepeatMode} {times depth : Nat} {r : Outcome}
  {leaves : ActionId → LeafStart} {cur : Option Outcome}

def Answers (c : ActionId) (w : World) : Option Outcome → Prop
  | none => w.state c = .running ∧ w.queue = []
  | some r => w.state c = .finished ∧ (w.fields c).finishCbRunId ≠ 0 ∧
      w.queue = [⟨(w.fields c).finishCbRunId, .finished c r.1 r.2⟩]

/-- What has been put on record since the child was started. -/
def round (c : ActionId) (cur : Option Outcome) : List Event :=
  .started c :: cur.toList.map fun r => .finished c r.1 r.2

theorem Answers.congr (h : Answers c w cur) (hfields : w'.fields c = w.fields c) (hqueue : w'.queue = w.queue) :
    Answers c w' cur := by
  cases cur with
  | none => exact ⟨(congrArg Fields.state hfields).trans h.1, hqueue.trans h.2⟩
  | some r =>
    rw [Answers, World.state, hfields, hqueue]
    exact h

theorem Answers.not_idle (h : Answers c w cur) : w.state c ≠ .idle := by
  cases cur with
  | none => exact fun hidle => nomatch h.1.symm.trans hidle
  | some r => exact fun hidle => nomatch h.1.symm.trans hidle

namespace Forest

theorem finish_posts (hlive : w.state m ≠ .finished ∧ w.state m ≠ .stoped)
    (hcurr : F.kind m = .leaf ∨ (w.fields m).currAction = none) (hcallback : F.hasCallback m = true)
    (hqueue : w.queue = []) (r : Outcome) :
    ((F.finish m r.1 r.2 w).fields m).finishCbRunId ≠ 0 ∧ (F.finish m r.1 r.2 w).queue =
      [⟨((F.finish m r.1 r.2 w).fields m).finishCbRunId, .finished m r.1 r.2⟩] := by
  have hreports := (reports_dispatchFinish (F := F) (n := m) (w := F.ending m w) r.1 r.2).1
  have hid := hreports.finishCbRunId
  have hposts := hreports.posts.queue
  rw [if_pos hcallback] at hid hposts
  rw [finish_eq hlive, hid, hposts, ending_of_none hcurr, World.modify_queue, hqueue]
  exact ⟨Nat.succ_ne_zero _, rfl⟩

theorem answers_finish (hleaf : F.kind c = .leaf) (hcallback : F.hasCallback c = true)
    (hlive : w.state c ≠ .finished ∧ w.state c ≠ .stoped) (hqueue : w.queue = []) (r : Outcome) :
    Answers c (F.finish c r.1 r.2 w) (some r) :=
  ⟨(finishes_finish hlive (.inl hleaf) r).state, finish_posts hlive (.inl hleaf) hcallback hqueue r⟩

/-- **A leaf is started**, and finishes at once or later. -/
theorem answers_start (hleaf : F.kind c = .leaf) (hcallback : F.hasCallback c = true) (hidle : w.state c = .idle)
    (hqueue : w.queue = []) (hleaves : ∀ why, leaves c ≠ .blocks why) : (F.start leaves (depth + 1) c w).1 = true ∧
      (∀ m, m ≠ c → (F.start leaves (depth + 1) c w).2.fields m = w.fields m) ∧
      ∃ cur, Answers c (F.start leaves (depth + 1) c w).2 cur ∧
        (F.start leaves (depth + 1) c w).2.log = w.log ++ round c cur := by
  have hlive : (w.record (.started c)).state c ≠ .finished ∧ (w.record (.started c)).state c ≠ .stoped := by
    rw [World.state, World.record_fields, ← World.state, hidle]
    exact ⟨by simp, by simp⟩
  rw [start_of_idle hidle]
  refine ⟨rfl, ?_⟩
  dsimp only
  cases hstart : leaves c with
  | stays =>
    have hsame : (w.record (.started c)).state c = .idle := hidle
    rw [onStart_stays hleaf hstart, if_pos hsame]
    refine ⟨fun m hm => World.modify_fields_of_ne hm _, none, ⟨World.state_modify_self _, hqueue⟩, rfl⟩
  | finishes isSucc why =>
    have hfinishes := finishes_finish hlive (.inl hleaf) (isSucc, why)
    have hnot : (F.finish c isSucc why (w.record (.started c))).state c ≠ .idle := by
      rw [hfinishes.state]
      simp
    rw [onStart_finishes hleaf hstart, if_neg hnot]
    refine ⟨hfinishes.fields_of_ne, some (isSucc, why), answers_finish hleaf hcallback hlive hqueue (isSucc, why), ?_⟩
    rw [hfinishes.log]
    exact append_assoc ..
  | blocks why => exact absurd hstart (hleaves why)

structure Repeats (F : Forest) (n c : ActionId) (mode : RepeatMode) (times : Nat) : Prop where
  kind : F.kind n = .repeatTimes c times mode
  leaf : F.kind c = .leaf
  root : F.parent n = none

variable (h : F.Repeats n c mode times)

include h

theorem Repeats.parent : F.parent c = some n := mem_children.mp (by rw [children, h.kind]; exact mem_singleton_self c)

theorem Repeats.children_eq : F.children n = [c] := by
  rw [children, h.kind]
  rfl

theorem Repeats.lt : c < n := F.child_lt n c h.parent

theorem Repeats.serial : F.assembly n = .serial := by
  rw [assembly, h.kind]
  rfl

theorem Repeats.hasCallback : F.hasCallback c = true := by
  rw [Forest.hasCallback, h.parent]
  rfl

theorem Repeats.starts {v : World} (hidle : v.state c = .idle) (hqueue : v.queue = [])
    (hleaves : ∀ m why, leaves m ≠ .blocks why) (a : Fields) (resets : List ActionId)
    (hv : World.forEach (F.reset n) resets (w.modify n fun _ => a) = v) :
    (F.proceed (F.start leaves n) n (a, .start resets c none) w).fields n = { v.fields n with currAction := some c } ∧
      ∃ cur, Answers c (F.proceed (F.start leaves n) n (a, .start resets c none) w) cur ∧
        (F.proceed (F.start leaves n) n (a, .start resets c none) w).log = v.log ++ round c cur := by
  obtain ⟨depth, hdepth⟩ := Nat.exists_eq_succ_of_ne_zero (Nat.ne_zero_of_lt h.lt)
  obtain ⟨htrue, hothers, cur, hanswers, hlog⟩ : (F.start leaves (depth + 1) c v).1 = true ∧ _ :=
    answers_start h.leaf h.hasCallback hidle hqueue (hleaves c)
  rw [← Nat.succ_eq_add_one, ← hdepth] at htrue hothers hanswers hlog
  have hproceed : F.proceed (F.start leaves n) n (a, .start resets c none) w =
      (F.start leaves n c v).2.modify n fun a => { a with currAction := some c } := by
    rw [proceed]
    dsimp only
    rw [hv, startThisAction_of_true htrue]
  rw [hproceed]
  refine ⟨?_, cur, hanswers.congr (World.modify_fields_of_ne h.lt.ne _) rfl, hlog⟩
  rw [World.modify_fields_self, hothers n h.lt.ne']

end Forest

def roundsAllowed (times : Nat) : Nat := (times + 2 ^ 64 - 1) % 2 ^ 64 + 1

theorem roundsAllowed_eq (hpos : 0 < times) (hlt : times < 2 ^ 64) : roundsAllowed times = times := by
  rw [roundsAllowed]
  omega

def LoopEnds (mode : RepeatMode) (times : Nat) (rs : List Outcome) (o : Outcome) : Prop :=
  (∃ before, rs = before ++ [o] ∧ (∀ r ∈ before, mode.breaks r.1 = false) ∧ mode.breaks o.1 = true ∧
    rs.length ≤ times) ∨
  rs.length = times ∧ (∀ r ∈ rs, mode.breaks r.1 = false) ∧ o = (true, repeatNoTimes)

/-- Where a repeat action stands that has been started, what has been put on record since then, and how many inputs
have been taken. -/
inductive Repeating (n c : ActionId) (mode : RepeatMode) (times : Nat) (w : World) (steps : Nat) : List Event → Prop
  /-- the child has come to these results, and has been started once more -/
  | calls {rs : List Outcome} {cur : Option Outcome} (hstate : w.state n = .running)
      (hremain : rs.length + 1 + (w.fields n).remainTimes = times) (hgoesOn : ∀ r ∈ rs, mode.breaks r.1 = false)
      (hanswers : Answers c w cur) (hsteps : steps + cur.toList.length ≤ 2 * (rs.length + cur.toList.length)) :
      Repeating n c mode times w steps (rounds c rs ++ round c cur)
  | ended {rs : List Outcome} {o : Outcome} (hstate : w.state n = .finished) (hchild : w.state c = .finished)
      (hends : LoopEnds mode times rs o)
      (hqueue : ∀ t ∈ w.queue, t = ⟨(w.fields n).finishCbRunId, .finished n o.1 o.2⟩ ∧ t.runId ≠ 0)
      (hsteps : steps + w.queue.length ≤ 2 * rs.length + 1) :
      Repeating n c mode times w steps (rounds c rs ++ [.finished n o.1 o.2])

structure Dormant (n c : ActionId) (w : World) : Prop where
  state : w.state n = .idle
  child : w.state c = .idle
  queue : w.queue = []

theorem Repeating.not_idle {steps : Nat} {later : List Event} (hr : Repeating n c mode times w steps later) :
    w.state n ≠ .idle := by
  cases hr with
  | calls hstate =>
    rw [hstate]
    exact nofun
  | ended hstate =>
    rw [hstate]
    exact nofun

theorem RepeatMode.breaks_iff (mode : RepeatMode) (isSucc : Bool) :
    mode.breaks isSucc = true ↔ (mode = .breakSucc ∧ isSucc) ∨ (mode = .breakFail ∧ !isSucc) := by
  cases mode <;> simp [RepeatMode.breaks]

section Steps

variable {F : Forest} (h : F.Repeats n c mode times) {steps : Nat} {later : List Event}

include h

/-- **Started**, the action starts its child. -/
theorem Dormant.start (hd : Dormant n c w) (hleaves : ∀ m why, leaves m ≠ .blocks why) :
    ∃ cur, Repeating n c mode (roundsAllowed times) (F.start leaves (n + 1) n w).2 0 (round c cur) ∧
      (F.start leaves (n + 1) n w).2.log = w.log ++ round c cur := by
  have hidle : (w.modify n fun _ =>
      { w.fields n with remainTimes := (times + 2 ^ 64 - 1) % 2 ^ 64 }).state c = .idle := by
    rw [World.state_modify_of_ne h.lt.ne]
    exact hd.child
  obtain ⟨hfields, cur, hanswers, hlog⟩ := h.starts hidle hd.queue hleaves _ [] rfl
  rw [World.modify_fields_self] at hfields
  have honStart : F.onStart (F.start leaves n) leaves n w = F.proceed (F.start leaves n) n
      ({ w.fields n with remainTimes := (times + 2 ^ 64 - 1) % 2 ^ 64 }, .start [] c none) w := by
    rw [Forest.onStart_serial h.serial, h.kind]
    rfl
  rw [← honStart] at hfields hanswers hlog
  rw [Forest.start_of_idle hd.state]
  generalize F.onStart (F.start leaves n) leaves n w = u at *
  have hstill : u.state n = .idle := by
    rw [World.state, hfields]
    exact hd.state
  rw [if_pos hstill]
  dsimp only
  refine ⟨cur, ?_, hlog⟩
  show Repeating n c mode (roundsAllowed times) _ 0 (rounds c [] ++ round c cur)
  refine .calls (World.state_modify_self _) ?_ (by simp) (hanswers.congr (World.modify_fields_of_ne h.lt.ne _) rfl) ?_
  · rw [World.modify_fields_self, hfields, roundsAllowed]
    exact Nat.add_comm ..
  · cases cur <;> simp

variable {times' : Nat}

/-- **The child comes to a result.** -/
theorem Repeating.finish (hr : Repeating n c mode times' w steps later) (hrunning : w.state c = .running)
    (r : Outcome) :
    Repeating n c mode times' (F.finish c r.1 r.2 w) (steps + 1) (later ++ [.finished c r.1 r.2]) := by
  cases hr with
  | @calls rs cur hstate hremain hgoesOn hanswers hsteps =>
    cases cur with
    | some r => exact nomatch hrunning.symm.trans hanswers.1
    | none =>
      have hlive : w.state c ≠ .finished ∧ w.state c ≠ .stoped := by
        rw [hrunning]
        exact ⟨nofun, nofun⟩
      have hsame := (Forest.finishes_finish hlive (.inl h.leaf) r).fields_of_ne n h.lt.ne'
      have hanswers' := Forest.answers_finish h.leaf h.hasCallback hlive hanswers.2 r
      rw [append_assoc]
      show Repeating n c mode times' _ _ (rounds c rs ++ round c (some r))
      refine .calls ?_ ?_ hgoesOn hanswers' ?_
      · rw [World.state, hsame]
        exact hstate
      · rw [hsame]
        exact hremain
      · simp only [toList_none, length_nil, toList_some, length_singleton] at hsteps ⊢
        omega
  | ended hstate hchild => exact nomatch hrunning.symm.trans hchild

theorem callsAgain (hqueue : w.queue = []) (hleaves : ∀ m why, leaves m ≠ .blocks why) (a : Fields) :
    (F.proceed (F.start leaves n) n (a, .start [c] c none) w).fields n = { a with currAction := some c } ∧
      ∃ cur, Answers c (F.proceed (F.start leaves n) n (a, .start [c] c none) w) cur ∧
        (F.proceed (F.start leaves n) n (a, .start [c] c none) w).log = w.log ++ round c cur := by
  have hclears : Clears F (w.modify n fun _ => a) (F.reset n c (w.modify n fun _ => a)) := Forest.clears_reset h.lt
  have hnil : (F.reset n c (w.modify n fun _ => a)).queue = [] := by
    have hsublist := hclears.sublist
    rw [World.modify_queue, hqueue] at hsublist
    exact sublist_nil.mp hsublist
  have hsame : (F.reset n c (w.modify n fun _ => a)).fields n = a := by
    rw [Local.parent (Forest.local_reset h.lt) h.parent, World.modify_fields_self]
  have hlog : (F.reset n c (w.modify n fun _ => a)).log = w.log := Forest.reset_log
  have hstarts := h.starts (Forest.reset_idle h.lt) hnil hleaves a [c] rfl
  rw [hsame, hlog] at hstarts
  exact hstarts

theorem leavesLoop {rs : List Outcome} {o : Outcome} (hstate : w.state n = .running)
    (hcurr : (w.fields n).currAction = none) (hqueue : w.queue = []) (hchild : w.state c = .finished)
    (hends : LoopEnds mode times' rs o) (hsteps : steps ≤ 2 * rs.length) :
    Repeating n c mode times' (F.finish n o.1 o.2 w) steps (rounds c rs ++ [.finished n o.1 o.2]) ∧
      (F.finish n o.1 o.2 w).log = w.log ++ [.finished n o.1 o.2] := by
  have hlive : w.state n ≠ .finished ∧ w.state n ≠ .stoped := by
    rw [hstate]
    exact ⟨nofun, nofun⟩
  have hfinishes : Finishes F n o w (F.finish n o.1 o.2 w) := Forest.finishes_finish hlive (.inr hcurr) o
  refine ⟨?_, hfinishes.log⟩
  have hsame : (F.finish n o.1 o.2 w).state c = .finished :=
    (congrArg Fields.state (hfinishes.fields_of_ne c h.lt.ne)).trans hchild
  by_cases hcallback : F.hasCallback n = true
  · obtain ⟨hid, hposted⟩ := Forest.finish_posts hlive (.inr hcurr) hcallback hqueue o
    refine .ended hfinishes.state hsame hends (fun t ht => ?_) ?_
    · rw [hposted] at ht
      obtain rfl := mem_singleton.mp ht
      exact ⟨rfl, hid⟩
    · rw [hposted, length_singleton]
      omega
  · have hnil : (F.finish n o.1 o.2 w).queue = [] := by
      have hcalls := hfinishes.queue
      rw [if_neg hcallback, hqueue] at hcalls
      exact map_eq_nil_iff.mp hcalls
    refine .ended hfinishes.state hsame hends (fun t ht => ?_) ?_
    · rw [hnil] at ht
      cases ht
    · rw [hnil, length_nil]
      omega

/-- **The action hears of a result**, and leaves the loop or goes on with it. -/
theorem hears {rs : List Outcome} (hstate : w.state n = .running) (hchild : w.state c = .finished)
    (hremain : rs.length + 1 + (w.fields n).remainTimes = times') (hgoesOn : ∀ r ∈ rs, mode.breaks r.1 = false)
    (hsteps : steps + 1 ≤ 2 * (rs.length + 1)) (hleaves : ∀ m why, leaves m ≠ .blocks why) :
    ∃ news, Repeating n c mode times' (F.invoke leaves (.finished c r.1 r.2) { w with queue := [] }) (steps + 1)
        (rounds c rs ++ round c (some r) ++ news) ∧
      (F.invoke leaves (.finished c r.1 r.2) { w with queue := [] }).log = w.log ++ news := by
  have hheard : rounds c rs ++ round c (some r) = rounds c (rs ++ [r]) := by
    rw [rounds_append]
    rfl
  have hinvoke : F.invoke leaves (.finished c r.1 r.2) { w with queue := [] } =
      F.proceed (F.start leaves n) n (Repeat.onChildFinished c mode { w.fields n with currAction := none } r.1 r.2)
        (({ w with queue := [] } : World).released n) := by
    have hrunning : (({ w with queue := [] } : World).released n).state n = .running := by
      rw [World.state, World.released_fields]
      exact hstate
    rw [Forest.invoke, h.parent]
    dsimp only
    rw [Forest.onChildFinished, h.kind]
    rw [Forest.handleChildFinish_running hrunning, World.released_fields, h.kind]
    rfl
  have hlength : (rs ++ [r]).length = rs.length + 1 := length_append
  have hbefore : ∀ isSucc why, ∀ a : Fields, a.state = .running → a.currAction = none →
      LoopEnds mode times' (rs ++ [r]) (isSucc, why) →
      ∃ news, Repeating n c mode times' (F.finish n isSucc why ((({ w with queue := [] } : World).released n).modify n
          fun _ => a)) (steps + 1) (rounds c (rs ++ [r]) ++ news) ∧
        (F.finish n isSucc why ((({ w with queue := [] } : World).released n).modify n fun _ => a)).log =
          w.log ++ news := by
    intro isSucc why a hrunning hcurr hends
    refine ⟨_, leavesLoop h (o := (isSucc, why)) ((World.state_modify_self _).trans hrunning) ?_ rfl ?_ hends ?_⟩
    · rw [World.modify_fields_self]
      exact hcurr
    · rw [World.state_modify_of_ne h.lt.ne, World.released, World.state_modify_of_ne h.lt.ne]
      exact hchild
    · rw [hlength]
      exact hsteps
  have hall : ¬((mode = .breakSucc ∧ r.1 = true) ∨ mode = .breakFail ∧ (!r.1) = true) →
      ∀ r' ∈ rs ++ [r], mode.breaks r'.1 = false := by
    intro hnot r' hr'
    rcases mem_append.mp hr' with hold | hnew
    · exact hgoesOn r' hold
    · rw [mem_singleton.mp hnew]
      exact Bool.eq_false_iff.mpr fun hbroken => hnot ((mode.breaks_iff r.1).mp hbroken)
  rw [hinvoke, hheard, Repeat.onChildFinished]
  split_ifs with hbreaks hremains
  · have hbroken := (mode.breaks_iff r.1).mpr hbreaks
    refine hbefore r.1 r.2 _ hstate rfl (.inl ⟨rs, rfl, hgoesOn, hbroken, ?_⟩)
    rw [hlength]
    omega
  · obtain ⟨hnews, cur, hanswers, hlog⟩ := callsAgain h (w := ({ w with queue := [] } : World).released n) rfl hleaves
      { w.fields n with currAction := none, remainTimes := (w.fields n).remainTimes - 1 }
    refine ⟨round c cur, .calls ?_ ?_ ?_ hanswers ?_, hlog⟩
    · rw [World.state, hnews]
      exact hstate
    · rw [hlength, hnews]
      dsimp only at hremains ⊢
      omega
    · exact hall hbreaks
    · rw [hlength]
      omega
  · refine hbefore true repeatNoTimes _ hstate rfl (.inr ⟨?_, hall hbreaks, rfl⟩)
    rw [hlength]
    dsimp only at hremains
    omega

/-- **What is posted is delivered.** -/
theorem Repeating.deliver {posted : Posted} {rest : List Posted}
    (hr : Repeating n c mode times' w steps later)
    (hleaves : ∀ m why, leaves m ≠ .blocks why) (hqueue : w.queue = posted :: rest) :
    ∃ news, Repeating n c mode times' (F.invoke leaves posted.call { w with queue := rest }) (steps + 1)
        (later ++ news) ∧
      (F.invoke leaves posted.call { w with queue := rest }).log = w.log ++ news := by
  cases hr with
  | @calls rs cur hstate hremain hgoesOn hanswers hsteps =>
    cases cur with
    | none =>
      rw [hanswers.2] at hqueue
      cases hqueue
    | some r =>
      obtain ⟨hchild, -, hposted⟩ := hanswers
      obtain ⟨rfl, rfl⟩ := List.cons.inj (hposted.symm.trans hqueue)
      exact hears h hstate hchild hremain hgoesOn hsteps hleaves
  | @ended rs o hstate hchild hends hposted hsteps =>
    have hmem : posted ∈ w.queue := hqueue ▸ mem_cons_self
    obtain ⟨rfl, -⟩ := hposted posted hmem
    have hnothing : F.invoke leaves (.finished n o.1 o.2) { w with queue := rest } = { w with queue := rest } := by
      rw [Forest.invoke, h.root]
    rw [hnothing]
    refine ⟨[], ?_, (append_nil _).symm⟩
    rw [append_nil]
    refine .ended hstate hchild hends (fun t ht => hposted t (hqueue ▸ mem_cons_of_mem _ ht)) ?_
    rw [hqueue, length_cons] at hsteps
    dsimp only
    omega

/-- **A reset takes everything back.** -/
theorem Repeating.reset (hr : Repeating n c mode times' w steps later) :
    Dormant n c (F.reset (n + 1) n w) := by
  have hclears : Clears F w (F.reset (n + 1) n w) := Forest.clears_reset (Nat.lt_succ_self n)
  have hn : (F.reset (n + 1) n w).state n = .idle := Forest.reset_idle (Nat.lt_succ_self n)
  have hne := hr.not_idle
  have hc : (F.reset (n + 1) n w).state c = .idle := by
    rw [Forest.reset_state_of_ne hne h.lt.ne, h.children_eq]
    exact Forest.reset_idle h.lt
  refine ⟨hn, hc, eq_nil_iff_forall_not_mem.mpr fun t ht => ?_⟩
  have hold := hclears.sublist.subset ht
  cases hr with
  | @calls rs cur hstate hremain hgoesOn hanswers hsteps =>
    have hchild := hanswers.not_idle
    cases cur with
    | none =>
      rw [hanswers.2] at hold
      cases hold
    | some r =>
      obtain ⟨-, hid, hqueue⟩ := hanswers
      rw [hqueue] at hold
      obtain rfl := mem_singleton.mp hold
      exact (hclears.gone c hchild hc _ ht hid).1 rfl
  | ended hstate hchild hends hqueue hsteps =>
    obtain ⟨rfl, hid⟩ := hqueue t hold
    exact (hclears.gone n hne hn _ ht hid).1 rfl

end Steps

def Attends (n c : ActionId) (w : World) (input : Input) : Prop :=
  (∀ m why, input.leaves m ≠ .blocks why) ∧
    match input.op with
    | .start m | .reset m => m = n
    | .finish m _ _ => m = c ∧ w.state c = .running
    | .deliver => True
    | _ => False

def Op.goesOn : Op → Bool
  | .finish _ _ _ | .deliver => true
  | _ => false

def resultsOf (c : ActionId) (log : List Event) : List Outcome :=
  log.filterMap fun
    | .finished m isSucc why => if m = c then some (isSucc, why) else none
    | .started _ => none

/-- What has been put on record is the documented loop, as far as it has got; it has an end, and is at its end when
there is nothing left to do. -/
structure KeepsTo (n c : ActionId) (mode : RepeatMode) (times : Nat) (results : Nat → Outcome) (steps : Nat)
    (later : List Event) (w : World) : Prop where
  begins : later <+: documentedLog n c mode times results
  ends : steps ≤ 2 * (documentedLoop mode times results).1 + 1
  complete : w.queue = [] → w.state c ≠ .running →
    later = documentedLog n c mode times results ∧ w.state n = .finished

/-- Whenever the action is started, it runs its child as the documented loop does, whatever the child comes to. -/
def Forest.RunsDocumentedLoop (F : Forest) (n c : ActionId) (mode : RepeatMode) (times : Nat) : Prop :=
  ∀ before leaves inputs u w, run F.step {} before = some u → Along F.step (Attends n c) {} before →
    u.state n = .idle → run F.step u (⟨.start n, leaves⟩ :: inputs) = some w →
    Along F.step (Attends n c) u (⟨.start n, leaves⟩ :: inputs) → (∀ input ∈ inputs, input.op.goesOn = true) →
    ∃ later, w.log = u.log ++ later ∧
      ∀ results : Nat → Outcome, (∀ i r, (resultsOf c later)[i]? = some r → r = results i) →
        KeepsTo n c mode times results inputs.length later w

section Results

variable {rs : List Outcome} {results : Nat → Outcome} {more later : List Event} {steps : Nat}

theorem resultsOf_rounds : resultsOf c (rounds c rs ++ more) = rs ++ resultsOf c more := by
  induction rs with
  | nil => rfl
  | cons r rs ih =>
    have hself : resultsOf c (rounds c (r :: rs) ++ more) = r :: resultsOf c (rounds c rs ++ more) := by
      simp [resultsOf, rounds]
    rw [hself, ih]
    rfl

theorem resultsOf_round {cur : Option Outcome} : resultsOf c (round c cur) = cur.toList := by
  cases cur <;> simp [resultsOf, round]

theorem eq_map_range (h : ∀ i r, rs[i]? = some r → r = results i) : rs = (List.range rs.length).map results := by
  apply ext_getElem
  · rw [length_map, length_range]
  · intro i hi hi'
    rw [getElem_map, getElem_range]
    exact h i _ (getElem?_eq_getElem hi)

theorem given_of_append {rs' : List Outcome} (h : ∀ i r, (rs ++ rs')[i]? = some r → r = results i) :
    ∀ i r, rs[i]? = some r → r = results i := by
  intro i r hi
  apply h i r
  rw [getElem?_append_left (List.getElem?_eq_some_iff.mp hi).1]
  exact hi

theorem not_breaks_of_given (hgoesOn : ∀ r ∈ rs, mode.breaks r.1 = false)
    (h : ∀ i r, rs[i]? = some r → r = results i) : ∀ i < rs.length, mode.breaks (results i).1 = false := by
  intro i hi
  rw [← h i _ (getElem?_eq_getElem hi)]
  exact hgoesOn _ (getElem_mem hi)

theorem Repeating.keepsTo (hr : Repeating n c mode times w steps later) (hne : n ≠ c)
    (hresults : ∀ i r, (resultsOf c later)[i]? = some r → r = results i) :
    KeepsTo n c mode times results steps later w := by
  cases hr with
  | @calls rs cur hstate hremain hgoesOn hanswers hsteps =>
    rw [resultsOf_rounds, resultsOf_round] at hresults
    have hrs := eq_map_range (given_of_append hresults)
    have hlt : rs.length < (documentedLoop mode times results).1 :=
      lt_documentedLoop (not_breaks_of_given hgoesOn (given_of_append hresults)) (by omega)
    refine ⟨?_, ?_, fun hqueue hchild => ?_⟩
    · refine List.IsPrefix.trans ?_ (rounds_prefix_log (Nat.succ_le_of_lt hlt))
      rw [rounds_succ, ← hrs]
      cases cur with
      | none => exact ⟨[_], append_assoc ..⟩
      | some r =>
        rw [← hresults rs.length r (by simp)]
        exact prefix_rfl
    · cases cur with
      | none =>
        rw [toList_none, length_nil] at hsteps
        omega
      | some r =>
        rw [toList_some, length_singleton] at hsteps
        omega
    · cases cur with
      | none => exact absurd hanswers.1 hchild
      | some r => exact nomatch hqueue.symm.trans hanswers.2.2
  | @ended rs o hstate hchild hends hposted hsteps =>
    have hover : resultsOf c [.finished n o.1 o.2] = [] := by
      simp [resultsOf, hne]
    rw [resultsOf_rounds, hover, append_nil] at hresults
    have hrs := eq_map_range hresults
    have hloop : documentedLoop mode times results = (rs.length, o) := by
      obtain ⟨before, rfl, hgoesOn, hbreaks, hle⟩ | ⟨hall, hgoesOn, rfl⟩ := hends
      · have hlast : o = results before.length := hresults before.length o (by simp)
        rw [length_append, length_singleton] at hle ⊢
        rw [hlast] at hbreaks ⊢
        exact documentedLoop_of_breaks (not_breaks_of_given hgoesOn (given_of_append hresults)) hle hbreaks
      · have hnot := not_breaks_of_given hgoesOn hresults
        rw [hall] at hnot ⊢
        exact documentedLoop_of_none hnot
    have hlog : rounds c rs ++ [.finished n o.1 o.2] = documentedLog n c mode times results := by
      rw [documentedLog, hloop, ← hrs]
    rw [hlog]
    refine ⟨prefix_rfl, ?_, fun _ _ => ⟨rfl, hstate⟩⟩
    rw [hloop]
    omega

end Results

section Runs

variable (h : F.Repeats n c mode times) {input : Input} {inputs : List Input} {u : World} {steps : Nat}
  {later : List Event} {total : Nat}

include h

/-- Every input takes the action one place further in its loop, or leaves it there. -/
theorem Repeating.step (hr : Repeating n c mode total w steps later) (hattends : Attends n c w input)
    (hgoesOn : input.op.goesOn = true) (hstep : F.step w input = some w') :
    ∃ news, Repeating n c mode total w' (steps + 1) (later ++ news) ∧ w'.log = w.log ++ news := by
  obtain ⟨hleaves, hop⟩ := hattends
  unfold Forest.step at hstep
  cases hinput : input.op with
  | finish m isSucc why =>
    rw [hinput] at hop hstep
    obtain ⟨rfl, hrunning⟩ := hop
    cases hstep
    refine ⟨_, hr.finish h hrunning (isSucc, why), ?_⟩
    have hlive : w.state m ≠ .finished ∧ w.state m ≠ .stoped := by
      rw [hrunning]
      exact ⟨nofun, nofun⟩
    exact (Forest.finishes_finish hlive (.inl h.leaf) (isSucc, why)).log
  | deliver =>
    rw [hinput] at hstep
    cases hqueue : w.queue with
    | nil =>
      rw [hqueue] at hstep
      cases hstep
    | cons posted rest =>
      rw [hqueue] at hstep
      cases hstep
      exact hr.deliver h hleaves hqueue
  | _ =>
    rw [hinput] at hgoesOn
    cases hgoesOn

/-- So does a run, by as many inputs. -/
theorem Repeating.run (hr : Repeating n c mode total u steps later) (hrun : run F.step u inputs = some w)
    (hattends : Along F.step (Attends n c) u inputs) (hgoesOn : ∀ input ∈ inputs, input.op.goesOn = true) :
    ∃ news, Repeating n c mode total w (steps + inputs.length) (later ++ news) ∧ w.log = u.log ++ news := by
  induction inputs generalizing u steps later with
  | nil =>
    cases hrun
    refine ⟨[], ?_, (append_nil _).symm⟩
    rw [append_nil]
    exact hr
  | cons input inputs ih =>
    obtain ⟨v, hstep, hrest⟩ := Lib.run_cons_eq_some.mp hrun
    obtain ⟨hfirst, hlater⟩ := hattends v hstep
    obtain ⟨news, hv, hlog⟩ := hr.step h hfirst (hgoesOn input mem_cons_self) hstep
    obtain ⟨news', hw, hlog'⟩ := ih hv hrest hlater fun b hb => hgoesOn b (mem_cons_of_mem input hb)
    refine ⟨news ++ news', ?_, ?_⟩
    · rw [← append_assoc, length_cons, Nat.add_comm inputs.length, ← Nat.add_assoc]
      exact hw
    · rw [hlog', hlog, append_assoc]

theorem dormant_or_repeating (hrun : run F.step {} inputs = some w) (hattends : Along F.step (Attends n c) {} inputs) :
    Dormant n c w ∨ ∃ steps later, Repeating n c mode (roundsAllowed times) w steps later := by
  refine Lib.run_invariant (I := fun w => Dormant n c w ∨ ∃ steps later,
    Repeating n c mode (roundsAllowed times) w steps later) ?_ (.inl ⟨rfl, rfl, rfl⟩) hattends hrun
  intro w input w' hw hattends hstep
  rcases hw with hd | ⟨steps, later, hr⟩
  · obtain ⟨hleaves, hop⟩ := hattends
    unfold Forest.step at hstep
    cases hinput : input.op with
    | start m =>
      rw [hinput] at hop hstep
      obtain rfl : m = n := hop
      cases hstep
      obtain ⟨cur, hr, -⟩ := hd.start h hleaves
      exact .inr ⟨_, _, hr⟩
    | reset m =>
      rw [hinput] at hop hstep
      obtain rfl : m = n := hop
      cases hstep
      rw [Forest.reset, if_pos hd.state]
      exact .inl hd
    | finish m isSucc why =>
      rw [hinput] at hop
      obtain ⟨rfl, hrunning⟩ := hop
      cases hd.child.symm.trans hrunning
    | deliver =>
      rw [hinput, hd.queue] at hstep
      cases hstep
    | _ =>
      rw [hinput] at hop
      exact hop.elim
  · by_cases hgoesOn : input.op.goesOn = true
    · obtain ⟨news, hr', -⟩ := hr.step h hattends hgoesOn hstep
      exact .inr ⟨_, _, hr'⟩
    obtain ⟨-, hop⟩ := hattends
    unfold Forest.step at hstep
    cases hinput : input.op with
    | start m =>
      rw [hinput] at hop hstep
      obtain rfl : m = n := hop
      cases hstep
      rw [Forest.start_of_not_idle hr.not_idle]
      exact .inr ⟨steps, later, hr⟩
    | reset m =>
      rw [hinput] at hop hstep
      obtain rfl : m = n := hop
      cases hstep
      exact .inl (hr.reset h)
    | finish => exact absurd (by rw [hinput]; rfl) hgoesOn
    | deliver => exact absurd (by rw [hinput]; rfl) hgoesOn
    | _ =>
      rw [hinput] at hop
      exact hop.elim

/-- **The loop of a repeat action.** In every run, after every reset, it is the documented one, exactly if there is
something to repeat. -/
theorem runsDocumentedLoop_iff (hlt : times < 2 ^ 64) : F.RunsDocumentedLoop n c mode times ↔ times ≠ 0 := by
  constructor
  · rintro hloop rfl
    obtain ⟨cur, -, hlog⟩ : ∃ cur, _ ∧ (F.start (fun _ => .stays) (n + 1) n {}).2.log = _ ++ round c cur :=
      Dormant.start h ⟨rfl, rfl, rfl⟩ nofun
    obtain ⟨later, hlater, hkeeps⟩ := hloop [] (fun _ => .stays) [] {} _ rfl trivial rfl rfl
      (fun w hw => ⟨⟨nofun, rfl⟩, trivial⟩) nofun
    have hround : later = round c cur := hlater.symm.trans hlog
    subst hround
    have hgiven : ∀ (i : Nat) (r : Outcome), (resultsOf c (round c cur))[i]? = some r → r = cur.getD (true, {}) := by
      intro i r hi
      rw [resultsOf_round] at hi
      have hmem := Option.mem_toList.mp (List.mem_of_getElem? hi)
      rw [Option.mem_def.mp hmem]
      rfl
    obtain ⟨rest, hrest⟩ := (hkeeps (fun _ => cur.getD (true, {})) hgiven).begins
    exact nomatch (List.cons.inj hrest).1
  · intro hpos before leaves inputs u w hu hbefore hidle hrun hattends hgoesOn
    obtain ⟨v, hstart, hrest⟩ := Lib.run_cons_eq_some.mp hrun
    obtain ⟨⟨hleaves, -⟩, hlater⟩ := hattends v hstart
    obtain rfl := Option.some.inj hstart
    have hd : Dormant n c u := by
      obtain hd | ⟨steps, later, hr⟩ := dormant_or_repeating h hu hbefore
      · exact hd
      · exact absurd hidle hr.not_idle
    obtain ⟨cur, hr, hlog⟩ := hd.start h hleaves
    obtain ⟨news, hw, hlog'⟩ := hr.run h hrest hlater hgoesOn
    rw [roundsAllowed_eq (Nat.pos_of_ne_zero hpos) hlt, Nat.zero_add] at hw
    refine ⟨round c cur ++ news, ?_, fun results hresults => hw.keepsTo h.lt.ne' hresults⟩
    rw [hlog', hlog, List.append_assoc]

end Runs

namespace Forest

/-- A leaf that is repeated. -/
def repeated (times : Nat) (mode : RepeatMode) : Forest :=
  .single 1 (.repeatTimes 0 times mode) (fun _ hc => List.mem_singleton.mp hc ▸ Nat.zero_lt_one)
    (List.nodup_singleton 0)

theorem repeats_repeated (times : Nat) (mode : RepeatMode) : (repeated times mode).Repeats 1 0 mode times :=
  ⟨rfl, rfl, rfl⟩

theorem threeTimes_runsDocumentedLoop : (repeated 3 .breakSucc).RunsDocumentedLoop 1 0 .breakSucc 3 :=
  (runsDocumentedLoop_iff (repeats_repeated 3 .breakSucc) (by decide)).mpr (by decide)

/-- Nothing is to be repeated, and the child is started. -/
theorem noTimes_startsChild : ¬(repeated 0 .noBreak).RunsDocumentedLoop 1 0 .noBreak 0 := by
  intro hloop
  obtain ⟨later, hlater, hkeeps⟩ := hloop [] (fun _ => .stays) [] {} _ rfl trivial rfl rfl
    (fun w hw => ⟨⟨nofun, rfl⟩, trivial⟩) nofun
  have hstarted : later = [.started 0] := hlater.symm
  subst hstarted
  obtain ⟨rest, hrest⟩ := (hkeeps (fun _ => (true, {})) nofun).begins
  exact nomatch (List.cons.inj hrest).1

end Forest

end Tbox.Flow.Action
