import Tbox.Proof.SerialSteps

/-!
# Runs of a serial tree

However often the root is paused and resumed on the way, a serial tree calls its leaves as its program does,
one after the other, and finishes with what the program ends with.
-/

open List Option

namespace Tbox.Flow.Action

open Lib (Below Script)

variable {F : Forest} {w w' v : World} {n m c p root : ActionId} {s s' : State} {i : Nat} {next : Next}
  {r : Outcome} {history history' new : History} {current current' : Option ActionId} {calls calls' news : List Call}

def Follows (F : Forest) (n : ActionId) (history : History) (current : Option ActionId) : Prop :=
  ∃ least, ∀ fuel ≥ least, ∀ called,
    called ++ history.map Prod.fst ++ current.toList <+:
      (F.program fuel n ⟨called, history.map Prod.snd⟩).2.calls ∧
    ∀ m, current = some m → F.program fuel n ⟨called, history.map Prod.snd⟩ =
      (.error .waits, ⟨called ++ history.map Prod.fst ++ [m], []⟩)

theorem Kind.grows_rest {child : ActionId → Program} (h : ∀ c, Script.Grows (child c)) (rounds i : Nat) (kind : Kind)
    (next : Next) : Script.Grows (kind.rest child rounds i next) := by
  cases next with
  | finish => exact .pure _
  | start resets c ifFails => exact (h c).bind fun r => kind.grows_after h rounds i c r
  | outOfRange => exact .halt _

theorem Forest.Did.follows (h : F.Did n i next history) (hs : F.Structured n) : Follows F n history none := by
  obtain ⟨least, hleast⟩ := h.program hs 0
  refine ⟨least + 1, fun fuel hfuel called => ?_⟩
  obtain ⟨fuel, rfl⟩ := Nat.exists_eq_succ_of_ne_zero (n := fuel) (by omega)
  obtain ⟨rounds, -, hrest⟩ := hleast fuel (by omega)
  have hprogram := hrest called []
  rw [append_nil] at hprogram
  refine ⟨?_, nofun⟩
  rw [hprogram, toList_none, append_nil]
  exact Kind.grows_rest (F.grows_program fuel) rounds i (F.kind n) next ⟨called ++ history.map Prod.fst, []⟩

theorem Forest.Ended.follows (h : F.Ended n history r) (hs : F.Structured n) : Follows F n history none := by
  obtain ⟨least, hleast⟩ := h.program hs
  refine ⟨least, fun fuel hfuel called => ⟨?_, nofun⟩⟩
  have hprogram := hleast fuel hfuel called []
  rw [append_nil] at hprogram
  rw [hprogram, toList_none, append_nil]

theorem Tip.follows (h : Tip F w s p history current calls) (hs : F.Structured p) : Follows F p history current := by
  have hgone : ∀ {c r}, Holding F w s p c history r → Follows F p history none := by
    intro c r hholding
    obtain ⟨resets, ifFails, first, second, hdid, hended, rfl⟩ := hholding.did
    exact (Forest.Did.ended hdid hended).follows hs
  cases h with
  | leaf hleaf hstate =>
    refine ⟨1, fun fuel hfuel called => ?_⟩
    obtain ⟨fuel, rfl⟩ := Nat.exists_eq_succ_of_ne_zero (n := fuel) (by omega)
    have hprogram : F.program (fuel + 1) p ⟨called, []⟩ = (.error .waits, ⟨called ++ [p], []⟩) := by
      rw [Forest.program, hleaf]
      rfl
    rw [map_nil, map_nil, append_nil, hprogram]
    refine ⟨prefix_refl _, fun m hm => ?_⟩
    rw [some.inj hm]
  | ended hstate hended => exact hended.follows hs
  | told hroot hstate hended => exact hended.follows hs
  | posted hholding hkept => exact hgone hholding
  | kept hholding hpause hkept => exact hgone hholding

theorem Link.follows (h : Link F w s n c history) (hc : Follows F c history' current) (hs : F.Structured n) :
    Follows F n (history ++ history') current := by
  obtain ⟨resets, ifFails, hdid⟩ := h.did
  obtain ⟨least, hleast⟩ := hdid.program hs 0
  obtain ⟨least', hleast'⟩ := hc
  refine ⟨least + least' + 1, fun fuel hfuel called => ?_⟩
  obtain ⟨fuel, rfl⟩ := Nat.exists_eq_succ_of_ne_zero (n := fuel) (by omega)
  obtain ⟨rounds, -, hrest⟩ := hleast fuel (by omega)
  obtain ⟨hbegins, hwaits⟩ := hleast' fuel (by omega) (called ++ history.map Prod.fst)
  rw [map_append, map_append, hrest, ← append_assoc]
  refine ⟨hbegins.trans ?_, fun m hm => ?_⟩
  · exact Script.calls_prefix_bind _ (fun r => Kind.grows_after (F.grows_program fuel) rounds _ c r _) _
  · exact Script.bind_of_error (hwaits m hm) _

/-- What follows at the tip of a path follows at its root. -/
theorem Path.follows (h : Path F w s n m history) (hm : Follows F m history' current) (hs : F.Structured n) :
    Follows F n (history ++ history') current := by
  induction h with
  | here => exact hm
  | child hlink _ ih =>
    rw [append_assoc]
    exact hlink.follows (ih hm (hs.of_parent hlink.parent)) hs

theorem Forest.Structured.of_below (hs : F.Structured n) (hm : F.Below n m) : F.Structured m :=
  fun x hx => hs x (Below.trans hx hm)

theorem Under.follows (h : Under F w s n history current calls) (hs : F.Structured n) :
    Follows F n history current := by
  obtain ⟨m, first, second, hpath, htip, rfl⟩ := h
  exact hpath.follows (htip.follows (hs.of_below hpath.end_below)) hs

structure Stands (F : Forest) (s : State) (root : ActionId) (w : World) (history : History)
    (current : Option ActionId) (calls : List Call) : Prop where
  under : Under F w s root history current calls
  queue : w.queue.map Posted.call = calls
  fresh : Fresh F w root
  sole : Sole F w root current
  logged : F.leafEvents w.log = events history current
  ended : ∀ isSucc why, .finished root isSucc why ∈ w.log →
    F.Ended root history (isSucc, why) ∧ w.state root = .finished
  told : w.state root = .finished → ∃ r : Outcome, .finished root r.1 r.2 ∈ w.log

theorem Fresh.of_end (h : Fresh F w n) (hlocal : Local F p w w') (hp : Fresh F w' p) (hne : w.state p ≠ .idle) :
    Fresh F w' n := by
  intro m hm hidle
  by_cases hpm : F.Below p m
  · exact hp m hpm hidle
  have hsame := hlocal m hpm
  rw [World.state, hsame] at hidle
  obtain ⟨hblank, hchildren⟩ := h m hm hidle
  refine ⟨?_, fun c hc => ?_⟩
  · rw [hsame]
    exact hblank
  have hout : ¬F.Below p c := by
    intro hpc
    by_cases hcp : c = p
    · rw [← hcp] at hne
      exact hne (hchildren c hc)
    · exact hpm (Below.parent_of_ne hpc hcp hc)
  rw [World.state, hlocal c hout]
  exact hchildren c hc

theorem Sole.of_below (h : Sole F w n current) (hm : F.Below n m) : Sole F w m current :=
  fun x hx => h x (Below.trans hx hm)

theorem Fresh.of_below (h : Fresh F w n) (hm : F.Below n m) : Fresh F w m := fun x hx => h x (Below.trans hx hm)

theorem Path.state (h : Path F w s n m history) (hm : w.state m = s) : w.state n = s := by
  cases h with
  | here => exact hm
  | child hlink _ => exact hlink.state

theorem Forest.Below.antisymm (h : F.Below n m) (h' : F.Below m n) : n = m :=
  Nat.le_antisymm (Lib.Below.rank_le Forest.rank_lt h') (Lib.Below.rank_le Forest.rank_lt h)

theorem Path.eq_nil (h : Path F w s n n history) : history = [] := by
  cases h with
  | here => rfl
  | child hlink hpath => exact absurd hpath.end_below (Below.not_parent Forest.rank_lt hlink.parent)

theorem Stands.moves {first second second' : History} {added : List Event}
    (h : Stands F s root w (first ++ second) current calls) (hs : s.isUnderway = true)
    (hpath : Path F w s root p first) (hp : w.state p = s) (hcurrent : ∀ m, current = some m → F.Below p m)
    (hlocal : Local F p w w') (hunder : Under F w' s p second' current' calls')
    (hqueue : w'.queue.map Posted.call = calls') (hfresh : Fresh F w' p) (hsole : Sole F w' p current')
    (hlog : w'.log = w.log ++ added)
    (hevents : events (first ++ second) current ++ F.leafEvents added = events (first ++ second') current')
    (hbelow : ∀ m isSucc why, .finished m isSucc why ∈ added → F.Below p m)
    (hended : ∀ isSucc why, .finished p isSucc why ∈ added → F.Ended p second' (isSucc, why) ∧ w'.state p = .finished)
    (htold : w'.state p = .finished → ∃ r : Outcome, .finished p r.1 r.2 ∈ added) :
    Stands F s root w' (first ++ second') current' calls' := by
  have hroot := hpath.end_below
  have hstate := hpath.state hp
  have hnotFinished : w.state root ≠ .finished := by
    rw [hstate]
    rintro rfl
    cases hs
  have hne : w.state p ≠ .idle := by
    rw [hp]
    exact State.ne_idle_of_isUnderway hs
  refine ⟨hunder.of_path (hpath.congr hlocal), hqueue, h.fresh.of_end hlocal hfresh hne,
    fun m hm hleaf hunderway => ?_, ?_, fun isSucc why hmem => ?_, fun hfinished => ?_⟩
  · by_cases hpm : F.Below p m
    · exact hsole m hpm hleaf hunderway
    · rw [World.state, hlocal m hpm] at hunderway
      exact absurd (hcurrent m (h.sole m hm hleaf hunderway)) hpm
  · rw [hlog, Forest.leafEvents_append, h.logged, hevents]
  · rw [hlog] at hmem
    rcases mem_append.mp hmem with hold | hnew
    · exact absurd (h.ended isSucc why hold).2 hnotFinished
    · obtain rfl : root = p := hroot.antisymm (hbelow root isSucc why hnew)
      obtain rfl := hpath.eq_nil
      exact hended isSucc why hnew
  · rw [hlog]
    by_cases hpr : F.Below p root
    · obtain rfl : root = p := hroot.antisymm hpr
      obtain ⟨r, hr⟩ := htold hfinished
      exact ⟨r, mem_append_right _ hr⟩
    · rw [World.state, hlocal root hpr] at hfinished
      exact absurd hfinished hnotFinished

/-- **An action on the path has gone on**, and what was posted has been taken up. -/
theorem Stands.goes {first second : History} (h : Stands F s root w (first ++ second) none calls)
    (hs : s.isUnderway = true) (hpath : Path F w s root p first) (hp : w.state p = s)
    (hgoes : Goes F s p { w with queue := [] } w' (second ++ new) new current' calls') :
    Stands F s root w' (first ++ (second ++ new)) current' calls' := by
  obtain ⟨added, hlog, hevents, hbelow, hended, htold⟩ := hgoes.adds.events
  refine h.moves hs hpath hp nofun hgoes.keeps hgoes.under hgoes.queue hgoes.fresh hgoes.sole hlog ?_ hbelow
    hended htold
  rw [hevents, ← append_assoc, ← events_append]

variable {leaves : ActionId → LeafStart}

theorem Forest.onChildFinished_serial {isSucc : Bool} {why : Reason}
    (hstructured : (F.kind p).structured) :
    F.onChildFinished leaves p c isSucc why w = F.handleChildFinish leaves p c isSucc why w := by
  rw [Forest.onChildFinished]
  revert hstructured
  cases F.kind p with
  | parallel => exact nofun
  | _ => exact fun _ => rfl

theorem Stands.handle {first second : History}
    (h : Stands F s root w (first ++ second) none calls) (hs : s = .running ∨ s = .pause)
    (hstructured : F.Structured root) (hleaves : ∀ m why, leaves m ≠ .blocks why)
    (hpath : Path F w s root p first) (hholding : Holding F ({ w with queue := [] }.released p) s p c second r)
    (hkept : (w.fields p).childFinishFunc = none) :
    ∃ history' current' calls', Stands F s root (F.handleChildFinish leaves p c r.1 r.2 { w with queue := [] })
      history' current' calls' := by
  have hroot := hpath.end_below
  have hstate : ({ w with queue := [] } : World).state p = s := (World.state_modify _ rfl p).symm.trans hholding.state
  have hfresh : Fresh F { w with queue := [] } p := h.fresh.of_below hroot
  have hsole : Sole F { w with queue := [] } p none := h.sole.of_below hroot
  rcases hs with rfl | rfl
  · obtain ⟨new, current', calls', hgoes⟩ := handle_goes (hstructured.of_below hroot) hleaves hholding hkept hfresh
      hsole rfl
    exact ⟨_, current', calls', h.goes rfl hpath hstate hgoes⟩
  have hgoes : Goes F .pause p _ (F.handleChildFinish leaves p c r.1 r.2 _) second [] none [] :=
    handle_keeps hholding hfresh hsole
  rw [← append_nil second] at hgoes
  exact ⟨_, none, [], h.goes rfl hpath hstate hgoes⟩

theorem Stands.deliver {posted : Posted} {rest : List Posted}
    (h : Stands F s root w history current calls) (hs : s = .running ∨ s = .pause)
    (hstructured : F.Structured root) (hroot : F.parent root = none) (hleaves : ∀ m why, leaves m ≠ .blocks why)
    (hqueue : w.queue = posted :: rest) : ∃ history' current' calls',
      Stands F s root (F.invoke leaves posted.call { w with queue := rest }) history' current' calls' := by
  have hcalls := h.queue
  rw [hqueue, map_cons] at hcalls
  obtain ⟨m, first, second, hpath, htip, rfl⟩ := id h.under
  cases htip with
  | leaf => cases hcalls
  | told => cases hcalls
  | kept => cases hcalls
  | @ended _ r hstate hended =>
    obtain ⟨hcall, hrest⟩ := List.cons.inj hcalls
    obtain rfl := map_eq_nil_iff.mp hrest
    rw [hcall, Forest.invoke]
    rcases hpath.last with ⟨rfl, rfl⟩ | ⟨p, third, fourth, hpath', hlink, rfl⟩
    · rw [hroot]
      exact ⟨second, none, [], ⟨root, [], second, .here, .told hroot hstate hended, rfl⟩, rfl, h.fresh, h.sole,
        h.logged, h.ended, h.told⟩
    rw [hlink.parent]
    dsimp only
    rw [Forest.onChildFinished_serial (hstructured p hpath'.end_below)]
    rw [append_assoc] at h
    have hlink' : Link F { w with queue := [] } s p m fourth := hlink.congr (Below.refl m) (.of_fields rfl)
    exact h.handle hs hstructured hleaves hpath' (hlink'.holding hended) hlink.kept
  | @posted _ c r hholding hkept =>
    obtain ⟨hcall, hrest⟩ := List.cons.inj hcalls
    obtain rfl := map_eq_nil_iff.mp hrest
    have hholding' : Holding F { w with queue := [] } s m c second r := hholding.congr fun _ _ => rfl
    rw [hcall, Kind.keptFunc]
    by_cases hlast : (F.kind m).isLast c = true
    · have hunderway : s.isUnderway = true := by
        rcases hs with rfl | rfl <;> rfl
      obtain ⟨calls', hgoes⟩ := kept_finishes hholding' hlast hunderway (h.fresh.of_below hpath.end_below)
        (h.sole.of_below hpath.end_below)
      rw [if_pos hlast]
      rw [← append_nil second] at hgoes
      exact ⟨_, none, calls', h.goes hunderway hpath hholding.state hgoes⟩
    · rw [if_neg hlast]
      exact h.handle hs hstructured hleaves hpath hholding'.released hkept

theorem events_finish (history : History) (n : ActionId) (r : Outcome) :
    events history (some n) ++ [.finished n r.1 r.2] = events (history ++ [(n, r)]) none := by
  rw [events_append, events, events, append_assoc]
  simp [events]

theorem Stands.finish (h : Stands F s root w history current calls) (hn : F.Below root n)
    (hleaf : F.kind n = .leaf) (hunderway : (w.state n).isUnderway = true) (r : Outcome) :
    ∃ calls', Stands F s root (F.finish n r.1 r.2 w) (history ++ [(n, r)]) none calls' := by
  obtain rfl : current = some n := h.sole n hn hleaf hunderway
  obtain ⟨m, first, second, hpath, htip, rfl⟩ := id h.under
  have hqueue := h.queue
  cases htip with
  | leaf _ hstate =>
    have hs' : s.isUnderway = true := by
      rwa [hstate] at hunderway
    have hlive : w.state n ≠ .finished ∧ w.state n ≠ .stoped := by
      constructor <;>
        intro hstate' <;>
        rw [hstate'] at hunderway <;>
        cases hunderway
    have hfinishes := Forest.finishes_finish (F := F) hlive (.inl hleaf) r
    have hended : F.Ended n [(n, r)] r := .inl ⟨hleaf, rfl⟩
    rw [append_nil first]
    refine ⟨_, h.moves hs' hpath hstate (fun m hm => ?_) hfinishes.keeps ⟨n, [], _, .here, hfinishes.tip hended, rfl⟩
      ?_ (hfinishes.fresh_leaf hleaf) (hfinishes.sole_leaf hleaf) hfinishes.log ?_ (fun m isSucc why hin => ?_)
      (fun isSucc why hin => ?_) fun _ => ⟨r, mem_singleton_self _⟩⟩
    · rw [← some.inj hm]
      exact Below.refl n
    · rw [hfinishes.queue, hqueue, nil_append]
    · rw [Forest.leafEvents_finished hleaf, append_nil]
      exact events_finish first n r
    · rw [(Event.finished.inj (mem_singleton.mp hin)).1]
      exact Below.refl n
    · obtain ⟨-, rfl, rfl⟩ := Event.finished.inj (mem_singleton.mp hin)
      exact ⟨hended, hfinishes.state⟩

theorem Stands.turned (h : Stands F s root w history current calls)
    (hturned : Turned F s' root w w' history current calls news) :
    Stands F s' root w' history current (calls ++ news) := by
  have hfinished : w'.state root = .finished ↔ w.state root = .finished := by
    rcases hturned.touched root with heq | ⟨hbefore, hafter⟩
    · rw [World.state, heq]
      rfl
    constructor
    · intro hstate
      rw [hstate] at hafter
      cases hafter
    · intro hstate
      rw [hstate] at hbefore
      cases hbefore
  refine ⟨hturned.under, ?_, hturned.fresh h.fresh, hturned.sole h.sole, ?_, fun isSucc why hmem => ?_,
    fun hstate => ?_⟩
  · rw [hturned.queue, h.queue]
  · rw [hturned.log]
    exact h.logged
  · rw [hturned.log] at hmem
    obtain ⟨hended, hstate⟩ := h.ended isSucc why hmem
    exact ⟨hended, hfinished.mpr hstate⟩
  · rw [hturned.log]
    exact h.told (hfinished.mp hstate)

theorem Stands.pause (h : Stands F .running root w history current calls) :
    Stands F .pause root (F.pause (root + 1) root w) history current calls := by
  obtain ⟨m, first, second, hpath, htip, rfl⟩ := id h.under
  have hturned := h.turned (pause_path hpath htip (Nat.lt_succ_self root))
  rw [append_nil] at hturned
  exact hturned

theorem Stands.resume (h : Stands F .pause root w history current calls) :
    ∃ calls', Stands F .running root (F.resume (root + 1) root w) history current calls' := by
  obtain ⟨m, first, second, hpath, htip, rfl⟩ := id h.under
  obtain ⟨news, hturned⟩ := resume_path hpath htip (Nat.lt_succ_self root)
  exact ⟨_, h.turned hturned⟩

theorem Under.state (h : Under F w s n history current calls) : w.state n = s ∨ w.state n = .finished := by
  obtain ⟨m, first, second, hpath, htip, rfl⟩ := h
  cases hpath with
  | child hlink _ => exact .inl hlink.state
  | here =>
    cases htip with
    | leaf hleaf hstate => exact .inl hstate
    | ended hstate hended => exact .inr hstate
    | told hroot hstate hended => exact .inr hstate
    | posted h hkept => exact .inl h.state
    | kept h hpause hkept => exact .inl h.state

/-- What is done to the tree from outside: its root is driven, its leaves finish, and what was posted is delivered. -/
def Forest.Proper (F : Forest) (root : ActionId) (w : World) (input : Input) : Prop :=
  match input.op with
  | .start n | .pause n | .resume n => n = root
  | .finish n _ _ => F.Below root n ∧ F.kind n = .leaf ∧ (w.state n).isUnderway = true
  | .deliver => True
  | _ => False

instance (F : Forest) (root : ActionId) (w : World) (input : Input) : Decidable (F.Proper root w input) := by
  unfold Forest.Proper
  split <;> infer_instance

inductive Serial (F : Forest) (root : ActionId) (w : World) : Prop
  | unstarted (hfresh : Fresh F w root) (hidle : w.state root = .idle) (hqueue : w.queue = []) (hlog : w.log = [])
  | stands {s : State} {history : History} {current : Option ActionId} {calls : List Call}
      (hs : s = .running ∨ s = .pause) (h : Stands F s root w history current calls)

theorem Goes.stands (h : Goes F .running root w w' new new current calls) (hqueue : w.queue = [])
    (hlog : w.log = []) : Stands F .running root w' new current calls := by
  obtain ⟨added, hadded, hevents, hbelow, hended, htold⟩ := h.adds.events
  have hqueue' := h.queue
  rw [hqueue] at hqueue'
  rw [hlog, nil_append] at hadded
  refine ⟨h.under, hqueue', h.fresh, h.sole, ?_, ?_, ?_⟩
  · rw [hadded]
    exact hevents
  · rw [hadded]
    exact hended
  · rw [hadded]
    exact htold

/-- **Every step leaves the tree before its start or under way.** -/
theorem Serial.step {input : Input} (hstructured : F.Structured root) (hroot : F.parent root = none)
    (h : Serial F root w) (hproper : F.Proper root w input) (hleaves : ∀ m why, input.leaves m ≠ .blocks why)
    (hstep : F.step w input = some w') : Serial F root w' := by
  unfold Forest.Proper at hproper
  unfold Forest.step at hstep
  cases hop : input.op with
  | start n =>
    rw [hop] at hproper hstep
    obtain rfl : n = root := hproper
    cases hstep
    cases h with
    | unstarted hfresh hidle hqueue hlog =>
      obtain ⟨-, new, current, calls, hgoes⟩ := start_goes hstructured hleaves hidle hfresh (Nat.lt_succ_self n)
      exact .stands (.inl rfl) (hgoes.stands hqueue hlog)
    | stands hs h =>
      rw [Forest.start_of_not_idle]
      · exact .stands hs h
      rcases h.under.state with hstate | hstate
      · rw [hstate]
        rcases hs with rfl | rfl <;> simp
      · rw [hstate]
        simp
  | pause n =>
    rw [hop] at hproper hstep
    obtain rfl : n = root := hproper
    cases hstep
    by_cases hrunning : w.state n = .running
    · cases h with
      | unstarted hfresh hidle =>
        rw [hidle] at hrunning
        cases hrunning
      | stands hs h =>
        rcases hs with rfl | rfl
        · exact .stands (.inr rfl) h.pause
        rcases h.under.state with hstate | hstate
        · rw [hstate] at hrunning
          cases hrunning
        · rw [hstate] at hrunning
          cases hrunning
    · rw [Forest.pause, if_neg hrunning]
      exact h
  | resume n =>
    rw [hop] at hproper hstep
    obtain rfl : n = root := hproper
    cases hstep
    by_cases hpause : w.state n = .pause
    · cases h with
      | unstarted hfresh hidle =>
        rw [hidle] at hpause
        cases hpause
      | stands hs h =>
        rcases hs with rfl | rfl
        · rcases h.under.state with hstate | hstate
          · rw [hstate] at hpause
            cases hpause
          · rw [hstate] at hpause
            cases hpause
        · obtain ⟨calls', hresumed⟩ := h.resume
          exact .stands (.inl rfl) hresumed
    · rw [Forest.resume, if_neg hpause]
      exact h
  | finish n isSucc why =>
    rw [hop] at hproper hstep
    obtain ⟨hn, hleaf, hunderway⟩ := hproper
    cases hstep
    cases h with
    | unstarted hfresh hidle =>
      rw [hfresh.idle_below hidle hn] at hunderway
      cases hunderway
    | stands hs h =>
      obtain ⟨calls', hfinished⟩ := h.finish hn hleaf hunderway (isSucc, why)
      exact .stands hs hfinished
  | deliver =>
    rw [hop] at hstep
    cases hqueue : w.queue with
    | nil =>
      rw [hqueue] at hstep
      cases hstep
    | cons posted rest =>
      rw [hqueue] at hstep
      cases hstep
      cases h with
      | unstarted hfresh hidle hnil =>
        rw [hnil] at hqueue
        cases hqueue
      | stands hs h =>
        obtain ⟨history', current', calls', hdelivered⟩ := h.deliver hs hstructured hroot hleaves hqueue
        exact .stands hs hdelivered
  | _ =>
    rw [hop] at hproper
    exact hproper.elim

/-- A run in which the tree is left to its root and its leaves. -/
structure Forest.SerialRun (F : Forest) (root : ActionId) (inputs : List Input) (w : World) : Prop where
  run : Lib.run F.step {} inputs = some w
  proper : Lib.Along F.step (F.Proper root) {} inputs
  leaves : ∀ input ∈ inputs, ∀ m why, input.leaves m ≠ .blocks why

/-- The leaves are called as the program calls them, the tree waits as it does, and it has finished as it has ended. -/
structure Forest.Computes (F : Forest) (root : ActionId) (w : World) (history : History)
    (current : Option ActionId) : Prop where
  oneAtATime : F.leafEvents w.log = events history current
  /-- nothing is lost: unless it is paused or something is posted, a leaf is under way -/
  awaited : w.queue = [] → w.state root = .running → current.isSome = true
  told : w.state root = .finished → ∃ r : Outcome, .finished root r.1 r.2 ∈ w.log
  program : ∃ least, ∀ fuel ≥ least,
    history.map Prod.fst ++ current.toList <+: (F.program fuel root ⟨[], history.map Prod.snd⟩).2.calls ∧
    (∀ m, current = some m → F.program fuel root ⟨[], history.map Prod.snd⟩ =
      (.error .waits, ⟨history.map Prod.fst ++ [m], []⟩)) ∧
    ∀ isSucc why, .finished root isSucc why ∈ w.log → F.program fuel root ⟨[], history.map Prod.snd⟩ =
      (.ok (isSucc, why), ⟨history.map Prod.fst, []⟩)

def Event.outcome : Event → Option Outcome
  | .started _ => none
  | .finished _ isSucc why => some (isSucc, why)

/-- What the leaves have come to, one after the other. -/
def Forest.results (F : Forest) (log : List Event) : List Outcome := (F.leafEvents log).filterMap Event.outcome

/-- Nothing more happens by itself. -/
def World.Rested (w : World) (root : ActionId) : Prop :=
  w.queue = [] ∧ (w.state root = .running ∨ w.state root = .finished)

theorem Forest.SerialRun.serial {inputs : List Input} (h : F.SerialRun root inputs w)
    (hstructured : F.Structured root) (hroot : F.parent root = none) : Serial F root w := by
  refine Lib.run_invariant (I := Serial F root) ?_ ?_ (h.proper.and (Lib.along_of_forall_mem h.leaves)) h.run
  · exact fun v input v' hv hguard hstep => hv.step hstructured hroot hguard.1 hguard.2 hstep
  · exact .unstarted (fun m _ _ => ⟨fun _ => ⟨rfl, rfl, rfl⟩, fun _ _ => rfl⟩) rfl rfl rfl

theorem Stands.awaited (h : Stands F s root w history current calls) (hqueue : w.queue = [])
    (hrunning : w.state root = .running) : current.isSome = true := by
  have hcalls := h.queue
  rw [hqueue] at hcalls
  obtain ⟨m, first, second, hpath, htip, rfl⟩ := h.under
  cases htip with
  | leaf => rfl
  | ended => cases hcalls
  | posted => cases hcalls
  | told hroot hstate hended =>
    rcases hpath.last with ⟨rfl, -⟩ | ⟨p, first, second, -, hlink, -⟩
    · rw [hstate] at hrunning
      cases hrunning
    · rw [hlink.parent] at hroot
      cases hroot
  | kept hholding hpause hkept =>
    rw [hpath.state hholding.state, hpause] at hrunning
    cases hrunning

theorem Forest.Ended.unique {r' : Outcome} (h : F.Ended n history r) (h' : F.Ended n history r')
    (hstructured : F.Structured n) : r = r' := by
  obtain ⟨least, hleast⟩ := h.program hstructured
  obtain ⟨least', hleast'⟩ := h'.program hstructured
  have heq := (hleast (least + least') (by omega) [] []).symm.trans (hleast' (least + least') (by omega) [] [])
  exact Except.ok.inj (Prod.ext_iff.mp heq).1

theorem Stands.computes (h : Stands F s root w history current calls) (hstructured : F.Structured root) :
    F.Computes root w history current := by
  refine ⟨h.logged, h.awaited, h.told, ?_⟩
  obtain ⟨least, hleast⟩ := h.under.follows hstructured
  by_cases hfinished : ∃ r : Outcome, .finished root r.1 r.2 ∈ w.log
  · obtain ⟨r, hr⟩ := hfinished
    obtain ⟨least', hleast'⟩ := (h.ended r.1 r.2 hr).1.program hstructured
    refine ⟨least + least', fun fuel hfuel => ?_⟩
    obtain ⟨hbegins, hwaits⟩ := hleast fuel (by omega) []
    have hprogram := hleast' fuel (by omega) [] []
    rw [append_nil] at hprogram
    refine ⟨hbegins, hwaits, fun isSucc why hmem => ?_⟩
    obtain rfl : (isSucc, why) = r := (h.ended isSucc why hmem).1.unique (h.ended r.1 r.2 hr).1 hstructured
    exact hprogram
  · refine ⟨least, fun fuel hfuel => ?_⟩
    obtain ⟨hbegins, hwaits⟩ := hleast fuel hfuel []
    exact ⟨hbegins, hwaits, fun isSucc why hmem => absurd ⟨(isSucc, why), hmem⟩ hfinished⟩

theorem Serial.computes (h : Serial F root w) (hstructured : F.Structured root) :
    ∃ history current, F.Computes root w history current := by
  cases h with
  | unstarted hfresh hidle hqueue hlog =>
    refine ⟨[], none, ?_, fun _ hrunning => ?_, fun hfinished => ?_, 0, fun fuel _ => ⟨List.nil_prefix, nofun, ?_⟩⟩
    · rw [hlog]
      rfl
    · rw [hidle] at hrunning
      cases hrunning
    · rw [hidle] at hfinished
      cases hfinished
    · rw [hlog]
      exact nofun
  | stands hs h => exact ⟨_, _, h.computes hstructured⟩

theorem filterMap_events (history : History) (current : Option ActionId) :
    (events history current).filterMap Event.outcome = history.map Prod.snd := by
  induction history with
  | nil => cases current <;> rfl
  | cons item history ih => exact congrArg (item.2 :: ·) ih

theorem Forest.Computes.results_eq (h : F.Computes root w history current) :
    F.results w.log = history.map Prod.snd := by
  rw [results, h.oneAtATime, filterMap_events]

theorem Forest.Computes.at_rest (h : F.Computes root w history current) (hrest : w.Rested root) :
    ∃ least, ∀ fuel ≥ least, (∃ m, current = some m ∧ (∀ r : Outcome, .finished root r.1 r.2 ∉ w.log) ∧
        F.program fuel root ⟨[], history.map Prod.snd⟩ = (.error .waits, ⟨history.map Prod.fst ++ [m], []⟩)) ∨
      current = none ∧ ∃ r : Outcome, (∀ r' : Outcome, .finished root r'.1 r'.2 ∈ w.log ↔ r' = r) ∧
        F.program fuel root ⟨[], history.map Prod.snd⟩ = (.ok r, ⟨history.map Prod.fst, []⟩) := by
  obtain ⟨least, hleast⟩ := h.program
  refine ⟨least, fun fuel hfuel => ?_⟩
  obtain ⟨-, hwaits, hended⟩ := hleast fuel hfuel
  rcases hrest.2 with hrunning | hfinished
  · obtain ⟨m, hm⟩ := isSome_iff_exists.mp (h.awaited hrest.1 hrunning)
    refine .inl ⟨m, hm, fun r hr => ?_, hwaits m hm⟩
    exact nomatch (hwaits m hm).symm.trans (hended r.1 r.2 hr)
  obtain ⟨r, hr⟩ := h.told hfinished
  have hprogram := hended r.1 r.2 hr
  refine .inr ⟨eq_none_iff_forall_ne_some.mpr fun m hm => ?_, r, fun r' => ⟨fun hr' => ?_, ?_⟩, hprogram⟩
  · exact nomatch (hwaits m hm).symm.trans hprogram
  · exact Except.ok.inj (Prod.ext_iff.mp ((hended r'.1 r'.2 hr').symm.trans hprogram)).1
  · rintro rfl
    exact hr

theorem Forest.Computes.agree (h : F.Computes root w history current) (h' : F.Computes root w' history' current')
    (hresults : F.results w.log = F.results w'.log) (hrest : w.Rested root) (hrest' : w'.Rested root) :
    F.leafEvents w.log = F.leafEvents w'.log ∧
      ∀ r : Outcome, .finished root r.1 r.2 ∈ w.log ↔ .finished root r.1 r.2 ∈ w'.log := by
  obtain ⟨least, hleast⟩ := h.at_rest hrest
  obtain ⟨least', hleast'⟩ := h'.at_rest hrest'
  have hanswers : history.map Prod.snd = history'.map Prod.snd := by
    rw [← h.results_eq, ← h'.results_eq, hresults]
  have hone := hleast (least + least') (by omega)
  have hother := hleast' (least + least') (by omega)
  rw [← hanswers] at hother
  have hhistory : history.map Prod.fst = history'.map Prod.fst → history = history' := fun hcalls =>
    (zip_of_prod hcalls hanswers).trans (zip_of_prod rfl rfl).symm
  rw [h.oneAtATime, h'.oneAtATime]
  rcases hone with ⟨m, rfl, hnone, hprogram⟩ | ⟨rfl, r, hr, hprogram⟩
  · rcases hother with ⟨m', rfl, hnone', hprogram'⟩ | ⟨-, r', -, hprogram'⟩
    · have heq := hprogram.symm.trans hprogram'
      have hlists : history.map Prod.fst ++ [m] = history'.map Prod.fst ++ [m'] := congrArg (fun p => p.2.calls) heq
      obtain ⟨hcalls, hm⟩ := append_inj' hlists rfl
      rw [hhistory hcalls, singleton_inj.mp hm]
      exact ⟨rfl, fun r => iff_of_false (hnone r) (hnone' r)⟩
    · exact nomatch hprogram.symm.trans hprogram'
  · rcases hother with ⟨m', -, -, hprogram'⟩ | ⟨rfl, r', hr', hprogram'⟩
    · exact nomatch hprogram.symm.trans hprogram'
    have heq := hprogram.symm.trans hprogram'
    obtain rfl : r = r' := Except.ok.inj (congrArg Prod.fst heq)
    rw [hhistory (congrArg (fun p => p.2.calls) heq)]
    exact ⟨rfl, fun r'' => (hr r'').trans (hr' r'').symm⟩

/-- **A serial tree computes its program**, and pausing and resuming it makes no difference. -/
theorem Forest.serial_computes_program (F : Forest) (root : ActionId) (hstructured : F.Structured root)
    (hroot : F.parent root = none) :
    (∀ inputs w, F.SerialRun root inputs w → ∃ history current, F.Computes root w history current) ∧
      ∀ inputs w inputs' w', F.SerialRun root inputs w → F.SerialRun root inputs' w' →
        F.results w.log = F.results w'.log → w.Rested root → w'.Rested root →
          F.leafEvents w.log = F.leafEvents w'.log ∧
            ∀ r : Outcome, .finished root r.1 r.2 ∈ w.log ↔ .finished root r.1 r.2 ∈ w'.log := by
  have hcomputes : ∀ inputs w, F.SerialRun root inputs w → ∃ history current, F.Computes root w history current :=
    fun inputs w h => (h.serial hstructured hroot).computes hstructured
  refine ⟨hcomputes, fun inputs w inputs' w' h h' hresults hrest hrest' => ?_⟩
  obtain ⟨history, current, hone⟩ := hcomputes inputs w h
  obtain ⟨history', current', hother⟩ := hcomputes inputs' w' h'
  exact hone.agree hother hresults hrest hrest'

namespace Forest

/-- Started, and both children finish. -/
def straightOn : List Op := [.start 2, .finish 0 false {}, .deliver, .finish 1 true {}, .deliver]

/-- A child's finish is heard of during a pause, and once resumed the sequence is paused again before it has gone on. -/
def pausedOnTheWay : List Op :=
  [.start 2, .pause 2, .finish 0 false {}, .deliver, .resume 2, .pause 2, .deliver, .resume 2, .deliver,
    .finish 1 true {}, .deliver]

/-- The leaves finish when they are told to. -/
def attended (ops : List Op) : List Input := ops.map fun op => ⟨op, fun _ => .stays⟩

theorem serial_pausedOnTheWay :
    ∃ w w', twoSteps.SerialRun 2 (attended straightOn) w ∧ twoSteps.SerialRun 2 (attended pausedOnTheWay) w' ∧
      w.state 2 = .finished ∧ (∃ history current, twoSteps.Computes 2 w' history current) ∧
      twoSteps.leafEvents w.log = twoSteps.leafEvents w'.log := by
  have hstructured : twoSteps.Structured 2 := by
    intro m _
    change (if m = 2 then Kind.sequence .allFinish [0, 1] else .leaf).structured = true
    split_ifs <;> rfl
  have hstays : ∀ ops : List Op, ∀ input ∈ attended ops, ∀ m why, input.leaves m ≠ .blocks why := by
    intro ops input hinput m why
    obtain ⟨op, -, rfl⟩ := List.mem_map.mp hinput
    exact nofun
  have hstraight : (Lib.run twoSteps.step {} (attended straightOn)).map
      (fun w => (w.queue, w.state 2, twoSteps.results w.log)) =
        some ([], .finished, [(false, {}), (true, {})]) := by decide +kernel
  have hpaused : (Lib.run twoSteps.step {} (attended pausedOnTheWay)).map
      (fun w => (w.queue, w.state 2, twoSteps.results w.log)) =
        some ([], .finished, [(false, {}), (true, {})]) := by decide +kernel
  obtain ⟨w, hrun, hw⟩ := Option.map_eq_some_iff.mp hstraight
  obtain ⟨w', hrun', hw'⟩ := Option.map_eq_some_iff.mp hpaused
  obtain ⟨hqueue, hstate, hresults⟩ : w.queue = [] ∧ w.state 2 = .finished ∧ twoSteps.results w.log = _ := by
    simpa only [Prod.mk.injEq] using hw
  obtain ⟨hqueue', hstate', hresults'⟩ : w'.queue = [] ∧ w'.state 2 = .finished ∧ twoSteps.results w'.log = _ := by
    simpa only [Prod.mk.injEq] using hw'
  have hone : twoSteps.SerialRun 2 (attended straightOn) w := ⟨hrun, by decide +kernel, hstays _⟩
  have hother : twoSteps.SerialRun 2 (attended pausedOnTheWay) w' := ⟨hrun', by decide +kernel, hstays _⟩
  obtain ⟨hcomputes, hagree⟩ := serial_computes_program twoSteps 2 hstructured (by decide)
  refine ⟨w, w', hone, hother, hstate, hcomputes _ _ hother, ?_⟩
  exact (hagree _ _ _ _ hone hother (hresults.trans hresults'.symm) ⟨hqueue, .inr hstate⟩ ⟨hqueue', .inr hstate'⟩).1

end Forest

end Tbox.Flow.Action
