import Tbox.Event.FdEvent

/-!
# The tables of the events

Every descriptor that an event is initialised on has one record, which counts these events and lists those that are
enabled. It is enough to look at an event that leaves a descriptor, joins one, or is enabled or disabled.
-/

open List Option

namespace Tbox.Event

open Function (update_self update_of_ne)

variable {s s' : FdLoop} {engine : Engine} {events : List (Option FdEvent)} {e f : EventPtr}
  {ev ev' : FdEvent} {fd fd' : Int} {d d' : FdSharedData} {p q : DataPtr}

def tally (events : List (Option FdEvent)) (so : FdEvent → Bool) : Nat := events.countP (Option.any so)

theorem tally_set {old : Option FdEvent} (h : events[e]? = some old) (o : Option FdEvent) (so : FdEvent → Bool) :
    tally (events.set e o) so + (if old.any so then 1 else 0) =
      tally events so + (if o.any so then 1 else 0) := Lib.countP_set_add h o _

theorem tally_pos (h : events[e]? = some (some ev)) {so : FdEvent → Bool} (hso : so ev) : 0 < tally events so :=
  countP_pos_iff.mpr ⟨some ev, mem_of_getElem? h, hso⟩

theorem tally_pos_iff {so : FdEvent → Bool} :
    0 < tally events so ↔ ∃ (e : EventPtr) (ev : FdEvent), events[e]? = some (some ev) ∧ so ev := by
  constructor
  · intro h
    obtain ⟨o, hmem, hso⟩ := countP_pos_iff.mp h
    obtain ⟨ev, rfl, hev⟩ := (Option.any_eq_true _ _).mp hso
    obtain ⟨e, he⟩ := mem_iff_getElem?.mp hmem
    exact ⟨e, ev, he, hev⟩
  · rintro ⟨e, ev, he, hso⟩
    exact tally_pos he hso

def FdEvent.on (fd : Int) (ev : FdEvent) : Bool := ev.fd = fd

def FdEvent.enabledOn (fd : Int) (ev : FdEvent) : Bool := ev.fd = fd && ev.isEnabled

def FdEvent.asksOn (fd : Int) (kind : Kinds → Bool) (ev : FdEvent) : Bool :=
  ev.fd = fd && ev.isEnabled && kind ev.events

structure Tallies (events : List (Option FdEvent)) (fd : Int) (d : FdSharedData) : Prop where
  ref : d.ref = tally events (FdEvent.on fd)
  readEventNum : d.readEventNum = tally events (FdEvent.asksOn fd Kinds.read)
  writeEventNum : d.writeEventNum = tally events (FdEvent.asksOn fd Kinds.write)
  exceptEventNum : d.exceptEventNum = tally events (FdEvent.asksOn fd Kinds.except)
  nodup : d.fdEvents.Nodup
  mem : ∀ e, e ∈ d.fdEvents ↔ ∃ ev, events[e]? = some (some ev) ∧ ev.enabledOn fd

theorem Tallies.set (h : Tallies events fd d) {old o : Option FdEvent} (he : events[e]? = some old)
    (href : d'.ref + (if old.any (FdEvent.on fd) then 1 else 0) = d.ref + (if o.any (FdEvent.on fd) then 1 else 0))
    (hread : d'.readEventNum + (if old.any (FdEvent.asksOn fd Kinds.read) then 1 else 0) =
      d.readEventNum + (if o.any (FdEvent.asksOn fd Kinds.read) then 1 else 0))
    (hwrite : d'.writeEventNum + (if old.any (FdEvent.asksOn fd Kinds.write) then 1 else 0) =
      d.writeEventNum + (if o.any (FdEvent.asksOn fd Kinds.write) then 1 else 0))
    (hexcept : d'.exceptEventNum + (if old.any (FdEvent.asksOn fd Kinds.except) then 1 else 0) =
      d.exceptEventNum + (if o.any (FdEvent.asksOn fd Kinds.except) then 1 else 0)) (hnodup : d'.fdEvents.Nodup)
    (hself : e ∈ d'.fdEvents ↔ o.any (FdEvent.enabledOn fd))
    (hothers : ∀ f, f ≠ e → (f ∈ d'.fdEvents ↔ f ∈ d.fdEvents)) : Tallies (events.set e o) fd d' := by
  have hcount := fun so => tally_set he o so
  have hlt : e < events.length := (List.getElem?_eq_some_iff.mp he).1
  refine ⟨?_, ?_, ?_, ?_, hnodup, fun f => ?_⟩
  · have hon := hcount (FdEvent.on fd)
    have hold := h.ref
    split_ifs at href hon <;> omega
  · have hasks := hcount (FdEvent.asksOn fd Kinds.read)
    have hold := h.readEventNum
    split_ifs at hread hasks <;> omega
  · have hasks := hcount (FdEvent.asksOn fd Kinds.write)
    have hold := h.writeEventNum
    split_ifs at hwrite hasks <;> omega
  · have hasks := hcount (FdEvent.asksOn fd Kinds.except)
    have hold := h.exceptEventNum
    split_ifs at hexcept hasks <;> omega
  by_cases hf : f = e
  · rw [hf, hself, getElem?_set_self hlt, Option.any_eq_true]
    constructor
    · rintro ⟨ev, rfl, hev⟩
      exact ⟨ev, rfl, hev⟩
    · rintro ⟨ev, heq, hev⟩
      exact ⟨ev, some.inj heq, hev⟩
  · rw [hothers f hf, getElem?_set_ne (Ne.symm hf)]
    exact h.mem f

theorem FdEvent.not_asksOn (h : ¬ev.enabledOn fd) (kind : Kinds → Bool) : ¬ev.asksOn fd kind := by
  intro hasks
  rw [asksOn, Bool.and_eq_true] at hasks
  exact h hasks.1

theorem FdEvent.not_enabledOn (h : ¬ev.on fd) : ¬ev.enabledOn fd := by
  intro henabled
  rw [enabledOn, Bool.and_eq_true] at henabled
  exact h henabled.1

theorem FdEvent.not_enabledOn_of_disabled (h : ev.isEnabled = false) : ¬ev.enabledOn fd := by
  rw [enabledOn, h, Bool.and_false]
  exact Bool.false_ne_true

/-- An event that is not enabled on the descriptor before or after counts for its record only by being
initialised on it. -/
theorem Tallies.set_disabled (h : Tallies events fd d) {old o : Option FdEvent}
    (he : events[e]? = some old) (hold : ¬old.any (FdEvent.enabledOn fd))
    (ho : ¬o.any (FdEvent.enabledOn fd)) {n : Int} (href : n + (if old.any (FdEvent.on fd) then 1 else 0) =
      d.ref + (if o.any (FdEvent.on fd) then 1 else 0)) : Tallies (events.set e o) fd { d with ref := n } := by
  have hnone : ∀ o' : Option FdEvent, ¬o'.any (FdEvent.enabledOn fd) →
      ∀ kind, ¬o'.any (FdEvent.asksOn fd kind) := by
    intro o' ho' kind hasks
    obtain ⟨ev, rfl, hev⟩ := (Option.any_eq_true _ _).mp hasks
    exact FdEvent.not_asksOn (fun hon => ho' hon) kind hev
  refine h.set he href ?_ ?_ ?_ h.nodup ?_ fun f _ => Iff.rfl
  · rw [if_neg (hnone old hold _), if_neg (hnone o ho _)]
  · rw [if_neg (hnone old hold _), if_neg (hnone o ho _)]
  · rw [if_neg (hnone old hold _), if_neg (hnone o ho _)]
  refine iff_of_false (fun hmem => hold ?_) ho
  obtain ⟨ev, hev, hon⟩ := (h.mem e).mp hmem
  rw [he] at hev
  rw [some.inj hev]
  exact hon

theorem Tallies.set_other (h : Tallies events fd d) {old o : Option FdEvent}
    (he : events[e]? = some old) (hold : ¬old.any (FdEvent.on fd)) (ho : ¬o.any (FdEvent.on fd)) :
    Tallies (events.set e o) fd d := by
  have hnone : ∀ o' : Option FdEvent, ¬o'.any (FdEvent.on fd) → ¬o'.any (FdEvent.enabledOn fd) := by
    intro o' ho' henabled
    obtain ⟨ev, rfl, hev⟩ := (Option.any_eq_true _ _).mp henabled
    exact FdEvent.not_enabledOn (fun hon => ho' hon) hev
  refine h.set_disabled he (hnone old hold) (hnone o ho) ?_
  rw [if_neg hold, if_neg ho]

theorem Tallies.of_ev (h : Tallies events fd d) (mask : Kinds) : Tallies events fd { d with ev := mask } :=
  { h with }

theorem Tallies.clear (h : Tallies events fd d) (hzero : d.ref = 0) : Tallies events fd {} ∧ d.asked = {} := by
  have hno : ∀ (e : EventPtr) (ev : FdEvent), events[e]? = some (some ev) → ¬ev.on fd := by
    intro e ev he hon
    have hpos := tally_pos he hon
    have href := h.ref
    omega
  have hnone : ∀ kind, tally events (FdEvent.asksOn fd kind) = 0 := by
    intro kind
    by_contra hne
    obtain ⟨e, ev, he, hasks⟩ := tally_pos_iff.mp (Nat.pos_of_ne_zero hne)
    exact FdEvent.not_asksOn (FdEvent.not_enabledOn (hno e ev he)) kind hasks
  refine ⟨⟨?_, ?_, ?_, ?_, nodup_nil, fun e => ?_⟩, ?_⟩
  · rw [← h.ref, hzero]
  · rw [hnone]
    rfl
  · rw [hnone]
    rfl
  · rw [hnone]
    rfl
  · refine iff_of_false not_mem_nil ?_
    rintro ⟨ev, he, hon⟩
    exact FdEvent.not_enabledOn (hno e ev he) hon
  · rw [FdSharedData.asked, h.readEventNum, h.writeEventNum, h.exceptEventNum, hnone, hnone, hnone]
    rfl

theorem Tallies.ref_nonneg (h : Tallies events fd d) : 0 ≤ d.ref := by
  rw [h.ref]
  exact Int.natCast_nonneg _

theorem Tallies.enable (h : Tallies events fd d) (he : events[e]? = some (some ev)) (hfd : ev.fd = fd)
    (hoff : ev.isEnabled = false) : Tallies (events.set e (some { ev with isEnabled := true })) fd
      { d.count ev.events 1 with fdEvents := d.fdEvents ++ [e] } := by
  have hasks : ∀ kind : Kinds → Bool, FdEvent.asksOn fd kind { ev with isEnabled := true } =
      kind ev.events := by
    intro kind
    simp only [FdEvent.asksOn, hfd, decide_true, Bool.true_and]
  have hout : e ∉ d.fdEvents := by
    intro hmem
    obtain ⟨ev', hev', hon⟩ := (h.mem e).mp hmem
    rw [he] at hev'
    cases some.inj hev'
    exact FdEvent.not_enabledOn_of_disabled hoff hon
  have hnot : ∀ kind, ¬ev.asksOn fd kind := FdEvent.not_asksOn (FdEvent.not_enabledOn_of_disabled hoff)
  refine h.set he rfl ?_ ?_ ?_ ?_ ?_ fun f hf => ?_
  · simp only [any_some, hasks, hnot, FdSharedData.count, Bool.false_eq_true, if_false]
    split <;> omega
  · simp only [any_some, hasks, hnot, FdSharedData.count, Bool.false_eq_true, if_false]
    split <;> omega
  · simp only [any_some, hasks, hnot, FdSharedData.count, Bool.false_eq_true, if_false]
    split <;> omega
  · exact concat_eq_append ▸ h.nodup.concat hout
  · refine iff_of_true (mem_append_right _ mem_cons_self) ?_
    simp only [any_some, FdEvent.enabledOn, hfd, decide_true, Bool.and_true]
  · rw [mem_append, mem_singleton, or_iff_left hf]

theorem Tallies.disable (h : Tallies events fd d) (he : events[e]? = some (some ev)) (hfd : ev.fd = fd)
    (hon : ev.isEnabled = true) : Tallies (events.set e (some { ev with isEnabled := false })) fd
      { d.count ev.events (-1) with fdEvents := d.fdEvents.erase e } := by
  have hasks : ∀ kind : Kinds → Bool, FdEvent.asksOn fd kind ev = kind ev.events := by
    intro kind
    simp only [FdEvent.asksOn, hfd, hon, decide_true, Bool.true_and]
  have hnot : ∀ kind, ¬FdEvent.asksOn fd kind { ev with isEnabled := false } :=
    FdEvent.not_asksOn (FdEvent.not_enabledOn_of_disabled rfl)
  refine h.set he rfl ?_ ?_ ?_ (h.nodup.erase e) ?_ fun f hf => ?_
  · simp only [any_some, hasks, hnot, FdSharedData.count, Bool.false_eq_true, if_false]
    split <;> omega
  · simp only [any_some, hasks, hnot, FdSharedData.count, Bool.false_eq_true, if_false]
    split <;> omega
  · simp only [any_some, hasks, hnot, FdSharedData.count, Bool.false_eq_true, if_false]
    split <;> omega
  · refine iff_of_false h.nodup.not_mem_erase ?_
    exact FdEvent.not_enabledOn_of_disabled rfl
  · exact mem_erase_of_ne hf

namespace FdLoop

def dataOf (s : FdLoop) (fd : Int) : FdSharedData :=
  match s.fdDataMap fd with
  | some p => s.data p
  | none => {}

structure Mapped (s : FdLoop) : Prop where
  inj : ∀ fd fd' p, s.fdDataMap fd = some p → s.fdDataMap fd' = some p → fd = fd'
  fresh : ∀ fd p, s.fdDataMap fd = some p → p < s.dataAlloc

theorem dataOf_of_some (h : s.fdDataMap fd = some p) : s.dataOf fd = s.data p := by
  rw [dataOf, h]

theorem dataOf_of_none (h : s.fdDataMap fd = none) : s.dataOf fd = {} := by
  rw [dataOf, h]

theorem dataOf_setData (h : s.Mapped) (hp : s.fdDataMap fd = some p) (d : FdSharedData) (fd' : Int) :
    (s.setData p d).dataOf fd' = if fd' = fd then d else s.dataOf fd' := by
  by_cases hfd : fd' = fd
  · rw [if_pos hfd, hfd]
    have hself : (s.setData p d).data p = d := update_self _ _ _
    exact (dataOf_of_some (s := s.setData p d) hp).trans hself
  rw [if_neg hfd, dataOf, dataOf]
  change (match s.fdDataMap fd' with | some q => (s.setData p d).data q | none => {}) = _
  rcases hq : s.fdDataMap fd' with _ | q
  · rfl
  · have hne : q ≠ p := fun heq => hfd (h.inj fd' fd p (heq ▸ hq) hp)
    exact update_of_ne hne _ _

theorem unrefFdSharedData_spec (h : s.Mapped) (hp : s.fdDataMap fd = some p) :
    (∀ fd', (s.unrefFdSharedData fd).dataOf fd' = if fd' = fd then
      (if (s.dataOf fd).ref - 1 = 0 then {} else { s.dataOf fd with ref := (s.dataOf fd).ref - 1 })
      else s.dataOf fd') ∧
    (∀ fd', (s.unrefFdSharedData fd).fdDataMap fd' =
      if fd' = fd ∧ (s.dataOf fd).ref - 1 = 0 then none else s.fdDataMap fd') ∧
    (s.unrefFdSharedData fd).events = s.events ∧ (s.unrefFdSharedData fd).epoll = s.epoll ∧
    (s.unrefFdSharedData fd).dataAlloc = s.dataAlloc := by
  have hset := dataOf_setData h hp { s.data p with ref := (s.data p).ref - 1 }
  have hself : (s.setData p { s.data p with ref := (s.data p).ref - 1 }).data p =
      { s.data p with ref := (s.data p).ref - 1 } := update_self _ _ _
  rw [dataOf_of_some hp, unrefFdSharedData, hp]
  dsimp only
  rw [hself]
  by_cases hzero : (s.data p).ref - 1 = 0
  · rw [if_pos hzero, if_pos hzero]
    refine ⟨fun fd' => ?_, fun fd' => ?_, rfl, rfl, rfl⟩
    · by_cases hfd : fd' = fd
      · rw [if_pos hfd, hfd]
        exact dataOf_of_none (update_self _ _ _)
      rw [if_neg hfd, dataOf]
      dsimp only
      rw [update_of_ne hfd]
      have hother := hset fd'
      rw [if_neg hfd] at hother
      exact hother
    · dsimp only
      by_cases hfd : fd' = fd
      · rw [if_pos ⟨hfd, hzero⟩, hfd, update_self]
      · rw [if_neg (fun hboth => hfd hboth.1), update_of_ne hfd]
        rfl
  · rw [if_neg hzero, if_neg hzero]
    refine ⟨hset, fun fd' => ?_, rfl, rfl, rfl⟩
    rw [if_neg (fun hboth => hzero hboth.2)]
    rfl

theorem refFdSharedData_spec (h : s.Mapped) (fd : Int) : (∀ fd', (s.refFdSharedData fd).2.dataOf fd' =
      if fd' = fd then { s.dataOf fd with ref := (s.dataOf fd).ref + 1 } else s.dataOf fd') ∧
    (∀ fd', (s.refFdSharedData fd).2.fdDataMap fd' =
      if fd' = fd then some (s.refFdSharedData fd).1 else s.fdDataMap fd') ∧
    (s.fdDataMap fd = some (s.refFdSharedData fd).1 ∨
      s.fdDataMap fd = none ∧ (s.refFdSharedData fd).1 = s.dataAlloc) ∧
    s.dataAlloc ≤ (s.refFdSharedData fd).2.dataAlloc ∧
    (s.refFdSharedData fd).1 < (s.refFdSharedData fd).2.dataAlloc ∧
    (s.refFdSharedData fd).2.events = s.events ∧ (s.refFdSharedData fd).2.epoll = s.epoll := by
  rw [refFdSharedData]
  rcases hp : s.fdDataMap fd with _ | p
  · rw [dataOf_of_none hp]
    refine ⟨fun fd' => ?_, fun fd' => ?_, .inr ⟨rfl, rfl⟩, Nat.le_succ _, Nat.lt_succ_self _, rfl, rfl⟩
    · by_cases hfd : fd' = fd
      · rw [if_pos hfd, hfd, dataOf]
        dsimp only
        rw [update_self]
        exact update_self _ _ _
      · rw [if_neg hfd, dataOf, dataOf]
        dsimp only
        rw [update_of_ne hfd]
        rcases hq : s.fdDataMap fd' with _ | q
        · rfl
        · exact update_of_ne (h.fresh fd' q hq).ne _ _
    · dsimp only
      by_cases hfd : fd' = fd
      · rw [if_pos hfd, hfd, update_self]
      · rw [if_neg hfd, update_of_ne hfd]
  · rw [dataOf_of_some hp]
    refine ⟨dataOf_setData h hp _, fun fd' => ?_, .inl rfl, le_rfl, h.fresh fd p hp, rfl, rfl⟩
    by_cases hfd : fd' = fd
    · rw [if_pos hfd, hfd]
      exact hp
    · rw [if_neg hfd]
      rfl

theorem reload_spec (h : s.Mapped) (hp : s.fdDataMap fd = some p) (engine : Engine) :
    (∃ mask, ∀ fd', (s.reload engine fd p).dataOf fd' =
      if fd' = fd then { s.dataOf fd with ev := mask } else s.dataOf fd') ∧
    (s.reload engine fd p).fdDataMap = s.fdDataMap ∧ (s.reload engine fd p).events = s.events ∧
    (s.reload engine fd p).dataAlloc = s.dataAlloc := by
  cases engine with
  | epoll =>
    have hset := dataOf_setData h hp { s.data p with ev := (s.data p).asked }
    rw [reload, dataOf_of_some hp]
    rw [reloadEpoll]
    split_ifs <;> exact ⟨⟨_, hset⟩, rfl, rfl, rfl⟩
  | select =>
    refine ⟨⟨(s.dataOf fd).ev, fun fd' => ?_⟩, rfl, rfl, rfl⟩
    split_ifs with hfd
    · rw [hfd]
      rfl
    · rfl

theorem event_eq_some : s.event e = some ev ↔ s.events[e]? = some (some ev) := by
  rw [event, join_eq_some_iff]

theorem event_setEvent_self (he : s.event e = some ev) (o : Option FdEvent) : (s.setEvent e o).event e = o := by
  have hlt : e < s.events.length := (List.getElem?_eq_some_iff.mp (event_eq_some.mp he)).1
  rw [event, setEvent, getElem?_set_self hlt]
  rfl

theorem event_setEvent_of_ne (hne : e ≠ f) (o : Option FdEvent) : (s.setEvent f o).event e = s.event e := by
  rw [event, setEvent, getElem?_set_ne hne.symm]
  rfl

theorem event_congr (h : s'.events = s.events) (e : EventPtr) : s'.event e = s.event e := by
  rw [event, event, h]

theorem unref_events (fd : Int) : (s.unrefFdSharedData fd).events = s.events := by
  rw [unrefFdSharedData]
  split
  · rfl
  · dsimp only
    split_ifs <;> rfl

theorem ref_events (fd : Int) : (s.refFdSharedData fd).2.events = s.events := by
  rw [refFdSharedData]
  split <;> rfl

theorem reload_events (fd : Int) (p : DataPtr) : (s.reload engine fd p).events = s.events := by
  cases engine with
  | select => rfl
  | epoll =>
    rw [reload, reloadEpoll]
    split_ifs <;> rfl

theorem event_enable (he : s.event e = some ev) (hd : ev.d = some p) :
    (s.enable engine e ev).event e = some { ev with isEnabled := true } := by
  rw [enable, hd]
  dsimp only
  by_cases hon : ev.isEnabled = true
  · rw [if_pos hon, he, ← hd, ← hon]
  have hsame : ∀ data, ((s.setData p data).reload engine ev.fd p).event e = some ev := fun data =>
    (event_congr (reload_events ..) e).trans he
  rw [if_neg hon]
  exact event_setEvent_self (hsame _) _

theorem event_disable (he : s.event e = some ev) (hd : ev.d = some p) :
    (s.disable engine e ev).event e = some { ev with isEnabled := false } := by
  rw [disable, hd]
  dsimp only
  by_cases hon : ev.isEnabled = true
  · have hsame : ∀ data, ((s.setData p data).reload engine ev.fd p).event e = some ev := fun data =>
      (event_congr (reload_events ..) e).trans he
    rw [if_neg (not_not.mpr hon)]
    exact event_setEvent_self (hsame _) _
  · have hoff := Bool.eq_false_of_not_eq_true hon
    rw [if_pos hon, he, ← hd, ← hoff]

theorem event_enable_of_ne (hne : e ≠ f) : (s.enable engine f ev).event e = s.event e := by
  rw [enable]
  split
  · rfl
  split_ifs
  · rfl
  · rw [event_setEvent_of_ne hne]
    exact event_congr (reload_events ..) e

theorem event_disable_of_ne (hne : e ≠ f) : (s.disable engine f ev).event e = s.event e := by
  rw [disable]
  split
  · rfl
  split_ifs
  · rw [event_setEvent_of_ne hne]
    exact event_congr (reload_events ..) e
  · rfl

theorem event_construct (he : s.event e = some ev) : s.construct.event e = some ev := by
  have hget := event_eq_some.mp he
  apply event_eq_some.mpr
  rw [construct, getElem?_append_left (List.getElem?_eq_some_iff.mp hget).1]
  exact hget

theorem event_construct_self : s.construct.event s.events.length = some {} := by
  apply event_eq_some.mpr
  rw [construct, getElem?_append_right le_rfl, Nat.sub_self]
  rfl

structure Tabled (s : FdLoop) : Prop extends Mapped s where
  tallies : ∀ fd, 0 ≤ fd → Tallies s.events fd (s.dataOf fd)
  live : ∀ fd, s.fdDataMap fd = none ↔ (s.dataOf fd).ref = 0
  negative : ∀ fd, fd < 0 → s.fdDataMap fd = none
  pointer : ∀ (e : EventPtr) (ev : FdEvent), s.events[e]? = some (some ev) →
    ev.fd = -1 ∧ ev.d = none ∧ ev.isEnabled = false ∨
      0 ≤ ev.fd ∧ ∃ p, ev.d = some p ∧ s.fdDataMap ev.fd = some p

theorem tabled_init : Tabled {} where
  inj _ _ _ h := nomatch h
  fresh _ _ h := nomatch h
  tallies _ _ := ⟨rfl, rfl, rfl, rfl, nodup_nil, fun e => by simp [dataOf]⟩
  live _ := iff_of_true rfl rfl
  negative _ _ := rfl
  pointer e ev h := by simp at h

theorem Tabled.tallies_of_event (h : s.Tabled) (he : s.events[e]? = some (some ev)) (hp : ev.d = some p) :
    0 ≤ ev.fd ∧ s.fdDataMap ev.fd = some p ∧ Tallies s.events ev.fd (s.dataOf ev.fd) := by
  rcases h.pointer e ev he with ⟨-, hnone, -⟩ | ⟨hpos, q, hq, hmap⟩
  · rw [hp] at hnone
    cases hnone
  · obtain rfl : p = q := some.inj (hp.symm.trans hq)
    exact ⟨hpos, hmap, h.tallies ev.fd hpos⟩

theorem Tabled.leave (h : s.Tabled) (he : s.events[e]? = some (some ev)) (hoff : ev.isEnabled = false) :
    ((s.unrefFdSharedData ev.fd).setEvent e none).Tabled := by
  have hnone : ∀ fd, ¬(none : Option FdEvent).any (FdEvent.on fd) := fun _ => Bool.false_ne_true
  have hnone' : ∀ fd, ¬(none : Option FdEvent).any (FdEvent.enabledOn fd) := fun _ => Bool.false_ne_true
  have hlt : e < s.events.length := (List.getElem?_eq_some_iff.mp he).1
  have hstay : ∀ (f : EventPtr) (ev' : FdEvent), (s.events.set e none)[f]? = some (some ev') →
      s.events[f]? = some (some ev') := by
    intro f ev' hf
    by_cases hfe : f = e
    · rw [hfe, getElem?_set_self hlt] at hf
      cases hf
    · rwa [getElem?_set_ne (Ne.symm hfe)] at hf
  rcases h.pointer e ev he with ⟨hfd, hd, -⟩ | ⟨hpos, p, hp, hmap⟩
  · -- it was not initialised
    have hunmapped : s.fdDataMap ev.fd = none := h.negative ev.fd (by omega)
    have hsame : s.unrefFdSharedData ev.fd = s := by rw [unrefFdSharedData, hunmapped]
    rw [hsame]
    refine { h with tallies := fun fd hfd' => ?_, pointer := fun f ev' hf => ?_ }
    · have hon : ¬(some ev).any (FdEvent.on fd) := by
        intro hon
        have heq : ev.fd = fd := of_decide_eq_true hon
        omega
      exact (h.tallies fd hfd').set_other he hon (hnone fd)
    · exact h.pointer f ev' (hstay f ev' hf)
  · obtain ⟨hdata, hmap', hevents, -, halloc⟩ := unrefFdSharedData_spec h.toMapped hmap
    have hon : (some ev).any (FdEvent.on ev.fd) := decide_eq_true rfl
    have htallies : Tallies (s.events.set e none) ev.fd
        { s.dataOf ev.fd with ref := (s.dataOf ev.fd).ref - 1 } := by
      refine (h.tallies ev.fd hpos).set_disabled he ?_ (hnone' _) ?_
      · exact FdEvent.not_enabledOn_of_disabled hoff
      · rw [if_pos hon, if_neg (hnone _)]
        omega
    refine ⟨⟨fun fd fd' q hq hq' => ?_, fun fd q hq => ?_⟩, fun fd hfd => ?_, fun fd => ?_,
      fun fd hfd => ?_, fun f ev' hf => ?_⟩
    · change (s.unrefFdSharedData ev.fd).fdDataMap _ = _ at hq hq'
      rw [hmap'] at hq hq'
      split_ifs at hq hq'
      exact h.inj fd fd' q hq hq'
    · change (s.unrefFdSharedData ev.fd).fdDataMap _ = _ at hq
      rw [hmap'] at hq
      split_ifs at hq
      exact (h.fresh fd q hq).trans_eq halloc.symm
    · change Tallies ((s.unrefFdSharedData ev.fd).events.set e none) fd
        ((s.unrefFdSharedData ev.fd).dataOf fd)
      rw [hevents, hdata]
      split_ifs with hsame hzero
      · rw [hsame]
        exact (htallies.clear hzero).1
      · rw [hsame]
        exact htallies
      · refine (h.tallies fd hfd).set_other he (fun hon' => hsame ?_) (hnone fd)
        exact (of_decide_eq_true hon' : ev.fd = fd).symm
    · change (s.unrefFdSharedData ev.fd).fdDataMap fd = none ↔ ((s.unrefFdSharedData ev.fd).dataOf fd).ref = 0
      rw [hmap', hdata]
      by_cases hsame : fd = ev.fd
      · rw [if_pos hsame]
        by_cases hzero : (s.dataOf ev.fd).ref - 1 = 0
        · rw [if_pos ⟨hsame, hzero⟩, if_pos hzero]
          exact iff_of_true rfl rfl
        · rw [if_neg (fun hboth => hzero hboth.2), if_neg hzero, hsame, hmap]
          exact iff_of_false nofun hzero
      · rw [if_neg (fun hboth => hsame hboth.1), if_neg hsame]
        exact h.live fd
    · change (s.unrefFdSharedData ev.fd).fdDataMap fd = none
      rw [hmap']
      split_ifs
      · rfl
      · exact h.negative fd hfd
    · change ((s.unrefFdSharedData ev.fd).events.set e none)[f]? = some (some ev') at hf
      rw [hevents] at hf
      rcases h.pointer f ev' (hstay f ev' hf) with hunset | ⟨hpos', q, hq, hmapq⟩
      · exact .inl hunset
      refine .inr ⟨hpos', q, hq, ?_⟩
      change (s.unrefFdSharedData ev.fd).fdDataMap ev'.fd = some q
      rw [hmap', if_neg]
      · exact hmapq
      rintro ⟨hsame, hzero⟩
      have hleft : 0 < tally (s.events.set e none) (FdEvent.on ev.fd) := tally_pos hf (decide_eq_true hsame)
      have href := htallies.ref
      dsimp only at href
      omega

theorem Tabled.asked_of_last (h : s.Tabled) (he : s.events[e]? = some (some ev))
    (hoff : ev.isEnabled = false) (hpos : 0 ≤ ev.fd) (hlast : (s.dataOf ev.fd).ref - 1 = 0) :
    (s.dataOf ev.fd).asked = {} := by
  have hon : (some ev).any (FdEvent.on ev.fd) := decide_eq_true rfl
  have hnone : ¬(none : Option FdEvent).any (FdEvent.on ev.fd) := Bool.false_ne_true
  have hnone' : ¬(none : Option FdEvent).any (FdEvent.enabledOn ev.fd) := Bool.false_ne_true
  have hleft := (h.tallies ev.fd hpos).set_disabled he (n := (s.dataOf ev.fd).ref - 1)
    (FdEvent.not_enabledOn_of_disabled hoff) hnone' (by rw [if_pos hon, if_neg hnone]; omega)
  exact (hleft.clear hlast).2

theorem getElem?_set_some {o : Option FdEvent} (he : e < s.events.length) {ev' : FdEvent}
    (hf : (s.events.set e o)[f]? = some (some ev')) :
    f = e ∧ o = some ev' ∨ f ≠ e ∧ s.events[f]? = some (some ev') := by
  by_cases hfe : f = e
  · rw [hfe, getElem?_set_self he] at hf
    exact .inl ⟨hfe, some.inj hf⟩
  · rw [getElem?_set_ne (Ne.symm hfe)] at hf
    exact .inr ⟨hfe, hf⟩

theorem Tabled.join (h : s.Tabled) (he : s.events[e]? = some none) (hfd : 0 ≤ ev.fd)
    (hoff : ev.isEnabled = false) (hp : ev.d = some (s.refFdSharedData ev.fd).1) :
    ((s.refFdSharedData ev.fd).2.setEvent e (some ev)).Tabled := by
  have hnone : ∀ fd, ¬(none : Option FdEvent).any (FdEvent.on fd) := fun _ => Bool.false_ne_true
  have hlt : e < s.events.length := (List.getElem?_eq_some_iff.mp he).1
  obtain ⟨hdata, hmap, hwhich, hle, hlt', hevents, -⟩ := refFdSharedData_spec h.toMapped ev.fd
  have hnew : ∀ fd, fd ≠ ev.fd → s.fdDataMap fd ≠ some (s.refFdSharedData ev.fd).1 := by
    intro fd hne hq
    rcases hwhich with hold | ⟨-, halloc⟩
    · exact hne (h.inj fd ev.fd _ hq hold)
    · exact (h.fresh fd _ hq).ne halloc
  refine ⟨⟨fun fd fd' q hq hq' => ?_, fun fd q hq => ?_⟩, fun fd hpos => ?_, fun fd => ?_,
    fun fd hneg => ?_, fun f ev' hf => ?_⟩
  · change (s.refFdSharedData ev.fd).2.fdDataMap _ = _ at hq hq'
    rw [hmap] at hq hq'
    split_ifs at hq hq' with hsame hsame' hsame'
    · exact hsame.trans hsame'.symm
    · exact absurd (hq'.trans hq.symm) (hnew fd' hsame')
    · exact absurd (hq.trans hq'.symm) (hnew fd hsame)
    · exact h.inj fd fd' q hq hq'
  · change (s.refFdSharedData ev.fd).2.fdDataMap _ = _ at hq
    change q < (s.refFdSharedData ev.fd).2.dataAlloc
    rw [hmap] at hq
    split_ifs at hq
    · exact some.inj hq ▸ hlt'
    · exact (h.fresh fd q hq).trans_le hle
  · change Tallies ((s.refFdSharedData ev.fd).2.events.set e (some ev)) fd
      ((s.refFdSharedData ev.fd).2.dataOf fd)
    rw [hevents, hdata]
    split_ifs with hsame
    · rw [hsame]
      have hon : (some ev).any (FdEvent.on ev.fd) := decide_eq_true rfl
      refine (h.tallies ev.fd hfd).set_disabled he Bool.false_ne_true ?_ ?_
      · exact FdEvent.not_enabledOn_of_disabled hoff
      · rw [if_neg (hnone _), if_pos hon]
        omega
    · refine (h.tallies fd hpos).set_other he (hnone fd) fun hon => hsame ?_
      exact (of_decide_eq_true hon : ev.fd = fd).symm
  · change (s.refFdSharedData ev.fd).2.fdDataMap fd = none ↔ ((s.refFdSharedData ev.fd).2.dataOf fd).ref = 0
    rw [hmap, hdata]
    split_ifs with hsame
    · have hnonneg := (h.tallies ev.fd hfd).ref_nonneg
      refine iff_of_false nofun ?_
      dsimp only
      omega
    · exact h.live fd
  · change (s.refFdSharedData ev.fd).2.fdDataMap fd = none
    rw [hmap, if_neg (by omega)]
    exact h.negative fd hneg
  change ((s.refFdSharedData ev.fd).2.events.set e (some ev))[f]? = some (some ev') at hf
  change _ ∨ 0 ≤ ev'.fd ∧ ∃ p, ev'.d = some p ∧ (s.refFdSharedData ev.fd).2.fdDataMap ev'.fd = some p
  rw [hevents] at hf
  rw [hmap]
  rcases getElem?_set_some hlt hf with ⟨-, heq⟩ | ⟨-, hold⟩
  · cases heq
    exact .inr ⟨hfd, _, hp, if_pos rfl⟩
  rcases h.pointer f ev' hold with hunset | ⟨hpos', q, hq, hmapq⟩
  · exact .inl hunset
  refine .inr ⟨hpos', q, hq, ?_⟩
  split_ifs with hsame
  · rw [hsame] at hmapq
    rcases hwhich with hold | ⟨hunmapped, -⟩
    · exact hold.symm.trans hmapq
    · rw [hunmapped] at hmapq
      cases hmapq
  · exact hmapq

theorem Tabled.change (h : s.Tabled) (he : s.events[e]? = some (some ev)) (hoff : ev.isEnabled = false)
    (hfd : ev'.fd = ev.fd) (hd : ev'.d = ev.d) (hoff' : ev'.isEnabled = false) :
    (s.setEvent e (some ev')).Tabled := by
  have hlt : e < s.events.length := (List.getElem?_eq_some_iff.mp he).1
  refine { h with tallies := fun fd hpos => ?_, pointer := fun f ev'' hf => ?_ }
  · have hold : ¬(some ev).any (FdEvent.enabledOn fd) := FdEvent.not_enabledOn_of_disabled hoff
    have hnew : ¬(some ev').any (FdEvent.enabledOn fd) := FdEvent.not_enabledOn_of_disabled hoff'
    have hon : ev'.on fd = ev.on fd := by rw [FdEvent.on, FdEvent.on, hfd]
    have hset := (h.tallies fd hpos).set_disabled he hold hnew (n := (s.dataOf fd).ref)
    rw [any_some, any_some, hon] at hset
    exact hset rfl
  · rcases getElem?_set_some hlt hf with ⟨-, heq⟩ | ⟨-, hold⟩
    · cases heq
      rcases h.pointer e ev he with ⟨hunset, hnone, -⟩ | hset
      · exact .inl ⟨hfd.trans hunset, hd.trans hnone, hoff'⟩
      · rw [hfd, hd]
        exact .inr hset
    · exact h.pointer f ev'' hold

theorem Tabled.rewrite (h : s.Tabled) (engine : Engine) (he : s.events[e]? = some (some ev))
    (hp : ev.d = some p) (href : d.ref = (s.dataOf ev.fd).ref) (hfd : ev'.fd = ev.fd)
    (hd : ev'.d = ev.d) (hd' : Tallies (s.events.set e (some ev')) ev.fd d) :
    (((s.setData p d).reload engine ev.fd p).setEvent e (some ev')).Tabled := by
  have hlt : e < s.events.length := (List.getElem?_eq_some_iff.mp he).1
  obtain ⟨hpos, hmap, -⟩ := h.tallies_of_event he hp
  have hmapped : (s.setData p d).Mapped := ⟨h.inj, h.fresh⟩
  have hset := dataOf_setData h.toMapped hmap d
  obtain ⟨⟨mask, hdata⟩, hmap', hevents, halloc⟩ := reload_spec hmapped hmap engine
  simp only [hset, if_pos] at hdata
  refine ⟨⟨fun fd fd' q hq hq' => ?_, fun fd q hq => ?_⟩, fun fd hpos' => ?_, fun fd => ?_,
    fun fd hneg => ?_, fun f ev'' hf => ?_⟩
  · change ((s.setData p d).reload engine ev.fd p).fdDataMap _ = _ at hq hq'
    rw [hmap'] at hq hq'
    exact h.inj fd fd' q hq hq'
  · change ((s.setData p d).reload engine ev.fd p).fdDataMap _ = _ at hq
    rw [hmap'] at hq
    exact (h.fresh fd q hq).trans_eq halloc.symm
  · change Tallies (((s.setData p d).reload engine ev.fd p).events.set e (some ev')) fd
      (((s.setData p d).reload engine ev.fd p).dataOf fd)
    rw [hevents, hdata]
    split_ifs with hsame
    · rw [hsame]
      exact hd'.of_ev mask
    · refine (h.tallies fd hpos').set_other he (fun hon => hsame ?_) (fun hon => hsame ?_)
      · exact (of_decide_eq_true hon : ev.fd = fd).symm
      · exact (hfd.symm.trans (of_decide_eq_true hon : ev'.fd = fd)).symm
  · change ((s.setData p d).reload engine ev.fd p).fdDataMap fd = none ↔
      (((s.setData p d).reload engine ev.fd p).dataOf fd).ref = 0
    rw [hmap', hdata]
    split_ifs with hsame
    · rw [hsame]
      rw [href]
      exact h.live ev.fd
    · exact h.live fd
  · change ((s.setData p d).reload engine ev.fd p).fdDataMap fd = none
    rw [hmap']
    exact h.negative fd hneg
  change (((s.setData p d).reload engine ev.fd p).events.set e (some ev'))[f]? = _ at hf
  change _ ∨ 0 ≤ ev''.fd ∧ ∃ q, ev''.d = some q ∧ ((s.setData p d).reload engine ev.fd p).fdDataMap ev''.fd = some q
  rw [hevents] at hf
  rw [hmap']
  rcases getElem?_set_some hlt hf with ⟨-, heq⟩ | ⟨-, hold⟩
  · cases heq
    exact .inr ⟨hfd ▸ hpos, p, hd.trans hp, hfd ▸ hmap⟩
  · exact h.pointer f ev'' hold

theorem Tabled.enable (h : s.Tabled) (engine : Engine) (he : s.events[e]? = some (some ev)) :
    (s.enable engine e ev).Tabled := by
  rw [FdLoop.enable]
  split
  · exact h
  next p hp =>
    split_ifs with hon
    · exact h
    obtain ⟨-, hmap, htallies⟩ := h.tallies_of_event he hp
    have hdata := dataOf_of_some hmap
    refine h.rewrite engine he hp ?_ rfl rfl ?_
    · rw [hdata]
      rfl
    · rw [← hdata]
      exact htallies.enable he rfl (Bool.eq_false_of_not_eq_true hon)

theorem Tabled.disable (h : s.Tabled) (engine : Engine) (he : s.events[e]? = some (some ev)) :
    (s.disable engine e ev).Tabled := by
  rw [FdLoop.disable]
  split
  · exact h
  next p hp =>
    split_ifs with hon
    · obtain ⟨-, hmap, htallies⟩ := h.tallies_of_event he hp
      have hdata := dataOf_of_some hmap
      refine h.rewrite engine he hp ?_ rfl rfl ?_
      · rw [hdata]
        rfl
      · rw [← hdata]
        exact htallies.disable he rfl hon
    · exact h

theorem Tabled.construct (h : s.Tabled) : s.construct.Tabled := by
  have htally : ∀ so : FdEvent → Bool, so ({} : FdEvent) = false →
      tally (s.events ++ [some ({} : FdEvent)]) so = tally s.events so := by
    intro so hso
    rw [tally, tally, countP_append, countP_singleton, any_some, hso]
    rfl
  have hget : ∀ (f : EventPtr) (ev' : FdEvent), (s.events ++ [some ({} : FdEvent)])[f]? = some (some ev') ↔
      s.events[f]? = some (some ev') ∨ f = s.events.length ∧ ev' = ({} : FdEvent) := by
    intro f ev'
    rw [List.getElem?_append]
    split_ifs with hlt
    · exact (or_iff_left (fun hnew => hlt.ne hnew.1)).symm
    rw [getElem?_eq_none (Nat.le_of_not_lt hlt), List.getElem?_singleton]
    split_ifs with hzero
    · refine ⟨fun heq => .inr ⟨?_, (some.inj (some.inj heq)).symm⟩, ?_⟩
      · exact Nat.le_antisymm (Nat.sub_eq_zero_iff_le.mp hzero) (Nat.le_of_not_lt hlt)
      rintro (hnone | ⟨-, rfl⟩)
      · cases hnone
      · rfl
    · refine iff_of_false nofun ?_
      rintro (hnone | ⟨heq, -⟩)
      · cases hnone
      · exact hzero (by rw [heq, Nat.sub_self])
  refine { h with tallies := fun fd hpos => ?_, pointer := fun f ev' hf => ?_ }
  · have hnot : FdEvent.on fd ({} : FdEvent) = false := decide_eq_false (by dsimp only; omega)
    have hnot' : FdEvent.enabledOn fd ({} : FdEvent) = false := Bool.and_false _
    have hasks : ∀ kind, FdEvent.asksOn fd kind ({} : FdEvent) = false := by
      intro kind
      rw [FdEvent.asksOn, Bool.and_false, Bool.false_and]
    have hold := h.tallies fd hpos
    refine ⟨?_, ?_, ?_, ?_, hold.nodup, fun e => ?_⟩
    · exact (htally _ hnot).symm ▸ hold.ref
    · exact (htally _ (hasks _)).symm ▸ hold.readEventNum
    · exact (htally _ (hasks _)).symm ▸ hold.writeEventNum
    · exact (htally _ (hasks _)).symm ▸ hold.exceptEventNum
    refine (hold.mem e).trans (exists_congr fun ev => ?_)
    refine and_congr_left fun hon => ?_
    rw [FdLoop.construct, hget]
    refine (or_iff_left ?_).symm
    rintro ⟨-, rfl⟩
    rw [hnot'] at hon
    exact Bool.false_ne_true hon
  · rcases (hget f ev').mp hf with hold | ⟨-, rfl⟩
    · exact h.pointer f ev' hold
    · exact .inl ⟨rfl, rfl, rfl⟩

/-- What the calls are made of. -/
inductive Move (engine : Engine) (s : FdLoop) : FdLoop → Prop where
  | construct : Move engine s s.construct
  | leave (e : EventPtr) (ev : FdEvent) (he : s.events[e]? = some (some ev))
      (hoff : ev.isEnabled = false) : Move engine s ((s.unrefFdSharedData ev.fd).setEvent e none)
  | join (e : EventPtr) (ev : FdEvent) (he : s.events[e]? = some none) (hfd : 0 ≤ ev.fd)
      (hoff : ev.isEnabled = false) (hp : ev.d = some (s.refFdSharedData ev.fd).1) :
      Move engine s ((s.refFdSharedData ev.fd).2.setEvent e (some ev))
  | change (e : EventPtr) (ev ev' : FdEvent) (he : s.events[e]? = some (some ev))
      (hoff : ev.isEnabled = false) (hfd : ev'.fd = ev.fd) (hd : ev'.d = ev.d)
      (hoff' : ev'.isEnabled = false) : Move engine s (s.setEvent e (some ev'))
  | enable (e : EventPtr) (ev : FdEvent) (he : s.events[e]? = some (some ev)) :
      Move engine s (s.enable engine e ev)
  | disable (e : EventPtr) (ev : FdEvent) (he : s.events[e]? = some (some ev)) :
      Move engine s (s.disable engine e ev)

theorem Tabled.move (h : s.Tabled) (hmove : Move engine s s') : s'.Tabled := by
  cases hmove with
  | construct => exact h.construct
  | leave e ev he hoff => exact h.leave he hoff
  | join e ev he hfd hoff hp => exact h.join he hfd hoff hp
  | change e ev ev' he hoff hfd hd hoff' => exact h.change he hoff hfd hd hoff'
  | enable e ev he => exact h.enable engine he
  | disable e ev he => exact h.disable engine he

theorem setEvent_setEvent (o o' : Option FdEvent) : (s.setEvent e o).setEvent e o' = s.setEvent e o' := by
  rw [setEvent, setEvent, setEvent, set_set]

theorem refFdSharedData_setEvent (o : Option FdEvent) : (s.setEvent e o).refFdSharedData fd =
      ((s.refFdSharedData fd).1, (s.refFdSharedData fd).2.setEvent e o) := by
  rw [refFdSharedData, refFdSharedData]
  change (match s.fdDataMap fd with | some q => _ | none => _) = _
  cases s.fdDataMap fd <;> rfl

theorem moves_initializeEvent (he : s.events[e]? = some (some ev)) (hfd : 0 ≤ fd) (kinds : Kinds) (oneshot : Bool) :
    Relation.ReflTransGen (Move engine) s (s.initializeEvent e ev fd kinds oneshot) := by
  rw [initializeEvent]
  split_ifs with hon hne
  · exact .refl
  · have hoff := Bool.eq_false_of_not_eq_true hon
    have hlt : e < s.events.length := (List.getElem?_eq_some_iff.mp he).1
    have hempty : ((s.unrefFdSharedData ev.fd).setEvent e none).events[e]? = some none := by
      change ((s.unrefFdSharedData ev.fd).events.set e none)[e]? = some none
      rw [unref_events, getElem?_set_self hlt]
    refine .tail (.single (.leave e ev he hoff)) ?_
    have hjoin : Move engine _ _ := .join e { ev with
      fd, d := some (((s.unrefFdSharedData ev.fd).setEvent e none).refFdSharedData fd).1
      events := kinds, isStopAfterTrigger := ev.isStopAfterTrigger || oneshot } hempty hfd hoff rfl
    rw [refFdSharedData_setEvent] at hjoin
    rwa [setEvent_setEvent] at hjoin
  · exact .single (.change e ev _ he (Bool.eq_false_of_not_eq_true hon) rfl rfl
      (Bool.eq_false_of_not_eq_true hon))

theorem disable_spec (h : s.Tabled) (engine : Engine) (he : s.events[e]? = some (some ev)) :
    (s.disable engine e ev).events[e]? = some (some { ev with isEnabled := false }) := by
  rcases h.pointer e ev he with ⟨-, hd, hoff⟩ | ⟨-, p, hd, -⟩
  · have hself : ({ ev with isEnabled := false } : FdEvent) = ev := by
      rw [← hoff]
    rw [hself, disable, hd]
    exact he
  · exact event_eq_some.mp (event_disable (event_eq_some.mpr he) hd)

theorem moves_destroy (h : s.Tabled) (engine : Engine) (he : s.events[e]? = some (some ev)) :
    Relation.ReflTransGen (Move engine) s (s.destroy engine e ev) :=
  .tail (.single (.disable e ev he))
    (.leave e { ev with isEnabled := false } (disable_spec h engine he) rfl)

theorem moves_call (h : s.Tabled) {call : FdCall} (hlegal : call.Legal)
    (hcall : s.call engine call = some s') : Relation.ReflTransGen (Move engine) s s' := by
  cases call with
  | construct =>
    cases hcall
    exact .single .construct
  | initializeEvent e fd kinds oneshot =>
    obtain ⟨ev, he, rfl⟩ := map_eq_some_iff.mp hcall
    exact moves_initializeEvent (event_eq_some.mp he) hlegal kinds oneshot
  | enable e =>
    obtain ⟨ev, he, rfl⟩ := map_eq_some_iff.mp hcall
    exact .single (.enable e ev (event_eq_some.mp he))
  | disable e =>
    obtain ⟨ev, he, rfl⟩ := map_eq_some_iff.mp hcall
    exact .single (.disable e ev (event_eq_some.mp he))
  | destroy e =>
    obtain ⟨ev, he, rfl⟩ := map_eq_some_iff.mp hcall
    exact moves_destroy h engine (event_eq_some.mp he)

/-- What every move of an event keeps is kept by every call, tables included. -/
theorem call_invariant {I : FdLoop → Prop} (hmove : ∀ s s', s.Tabled → I s → Move engine s s' → I s')
    {call : FdCall} (h : s.Tabled) (hI : I s) (hlegal : call.Legal)
    (hcall : s.call engine call = some s') : s'.Tabled ∧ I s' := by
  have hmoves := moves_call h hlegal hcall
  clear hcall
  induction hmoves with
  | refl => exact ⟨h, hI⟩
  | tail _ hlast ih => exact ⟨ih.1.move hlast, hmove _ _ ih.1 ih.2 hlast⟩

end FdLoop

end Tbox.Event
