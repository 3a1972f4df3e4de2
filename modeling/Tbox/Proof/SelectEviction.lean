import Tbox.Event.SelectLoop
import Tbox.Proof.FdDispatch
import Tbox.Proof.Reinitialisation

/-!
# Invalid descriptors

`disable` erases the event from the list that `removeInvalidFds` is going through: with more than one event the next
is found where the iterator no longer holds.
-/

open List Option

namespace Tbox.Event

open Function (update_self update_of_ne update)

def FdSets.Has (sets : FdSets) (fd : Int) : Prop := fd ∈ sets.readSet ∨ fd ∈ sets.writeSet ∨ fd ∈ sets.exceptSet

namespace FdLoop

variable {s s' : FdLoop} {alive : Int → Bool} {fds past : List Int} {fd : Int} {e f : EventPtr} {ev ev' : FdEvent}
  {p : DataPtr} {visits : List Visit} {sets : FdSets}

/-- At most one event is enabled on the descriptor. -/
def Alone (s : FdLoop) (fd : Int) : Prop :=
  ∀ e ev f ev', s.event e = some ev → s.event f = some ev' → ev.enabledOn fd → ev'.enabledOn fd → e = f

theorem enabledOn_iff : ev.enabledOn fd ↔ ev.fd = fd ∧ ev.isEnabled = true := by
  rw [FdEvent.enabledOn, Bool.and_eq_true, decide_eq_true_iff]

theorem mem_fdEvents (h : s.Tabled) (hfd : 0 ≤ fd) :
    e ∈ (s.dataOf fd).fdEvents ↔ ∃ ev, s.event e = some ev ∧ ev.enabledOn fd := by
  rw [(h.tallies fd hfd).mem]
  simp only [event_eq_some]

theorem alone_iff (h : s.Tabled) (hfd : 0 ≤ fd) : s.Alone fd ↔ (s.dataOf fd).fdEvents.length ≤ 1 := by
  have hnodup := (h.tallies fd hfd).nodup
  constructor
  · intro halone
    rcases hlist : (s.dataOf fd).fdEvents with _ | ⟨e, _ | ⟨f, rest⟩⟩
    · exact Nat.zero_le 1
    · exact le_rfl
    rw [hlist] at hnodup
    obtain ⟨ev, he, hon⟩ := (mem_fdEvents h hfd).mp (hlist ▸ mem_cons_self)
    obtain ⟨ev', hf, hon'⟩ := (mem_fdEvents h hfd).mp (hlist ▸ mem_cons_of_mem e mem_cons_self)
    obtain rfl := halone e ev f ev' he hf hon hon'
    exact absurd mem_cons_self (nodup_cons.mp hnodup).1
  · intro hlength e ev f ev' he hf hon hon'
    have hin := (mem_fdEvents h hfd).mpr ⟨ev, he, hon⟩
    have hin' := (mem_fdEvents h hfd).mpr ⟨ev', hf, hon'⟩
    rcases hlist : (s.dataOf fd).fdEvents with _ | ⟨g, _ | ⟨g', rest⟩⟩
    · rw [hlist] at hin
      cases hin
    · rw [hlist, mem_singleton] at hin hin'
      rw [hin, hin']
    · rw [hlist] at hlength
      exact absurd hlength (by simp)

theorem event_disable_tabled (h : s.Tabled) (engine : Engine) (he : s.event e = some ev) :
    (s.disable engine e ev).event e = some { ev with isEnabled := false } :=
  event_eq_some.mpr (disable_spec h engine (event_eq_some.mp he))

theorem removeEvents_of_alone (h : s.Tabled) (hp : s.fdDataMap fd = some p) (halone : s.Alone fd) :
    (s.removeEvents p).loop.Tabled ∧ (s.removeEvents p).loop.fdDataMap = s.fdDataMap ∧
      (∀ e, (s.removeEvents p).loop.event e =
        (s.event e).map fun ev => { ev with isEnabled := ev.isEnabled && decide (ev.fd ≠ fd) }) ∧
      ∀ v ∈ (s.removeEvents p).visits, v.isValid = true := by
  have hfd : 0 ≤ fd := by
    by_contra hneg
    exact nomatch (h.negative fd (Int.not_le.mp hneg)).symm.trans hp
  have hdata := dataOf_of_some hp
  have hmem : ∀ e, e ∈ (s.data p).fdEvents ↔ ∃ ev, s.event e = some ev ∧ ev.enabledOn fd :=
    fun e => hdata ▸ mem_fdEvents h hfd
  have hlength := (alone_iff h hfd).mp halone
  rw [hdata] at hlength
  -- an event that is not in the list is as it is to be
  have hother : ∀ e ev, s.event e = some ev → e ∉ (s.data p).fdEvents →
      ({ ev with isEnabled := ev.isEnabled && decide (ev.fd ≠ fd) } : FdEvent) = ev := by
    intro e ev he hout
    have hoff : ¬(ev.fd = fd ∧ ev.isEnabled = true) := fun hon => hout ((hmem e).mpr ⟨ev, he, enabledOn_iff.mpr hon⟩)
    have hsame : (ev.isEnabled && decide (ev.fd ≠ fd)) = ev.isEnabled := by
      by_cases hon : ev.isEnabled = true
      · rw [hon, Bool.true_and, decide_eq_true_iff]
        exact fun heq => hoff ⟨heq, hon⟩
      · rw [Bool.eq_false_of_not_eq_true hon, Bool.false_and]
    rw [hsame]
  rcases hlist : (s.data p).fdEvents with _ | ⟨e, _ | ⟨f, rest⟩⟩
  · have hsame : s.removeEvents p = { loop := s } := by
      rw [removeEvents, hlist]
      rfl
    rw [hsame]
    refine ⟨h, rfl, fun e => ?_, nofun⟩
    cases he : s.event e with
    | none => rfl
    | some ev => rw [map_some, hother e ev he (hlist ▸ not_mem_nil)]
  · obtain ⟨ev, he, hon⟩ := (hmem e).mp (hlist ▸ mem_cons_self)
    obtain ⟨hevfd, henabled⟩ := enabledOn_iff.mp hon
    have hwalk : (s.removeEvents p).loop = s.disable .select e ev ∧ (s.removeEvents p).visits = [⟨e, true⟩] := by
      rw [removeEvents, hlist]
      change (Walk.visit { loop := s } p 0).loop = _ ∧ (Walk.visit { loop := s } p 0).visits = _
      rw [Walk.visit, hlist]
      dsimp only [cons_append, nil_append, List.getElem?_cons_zero]
      rw [he]
      exact ⟨rfl, rfl⟩
    rw [hwalk.1, hwalk.2]
    refine ⟨h.disable .select (event_eq_some.mp he), (disable_frame s .select e ev).2, fun f => ?_, fun v hv => ?_⟩
    · by_cases hf : f = e
      · rw [hf, event_disable_tabled h .select he, he, map_some, hevfd, decide_eq_false (not_not.mpr rfl),
          Bool.and_false]
      rw [event_disable_of_ne hf]
      cases hev : s.event f with
      | none => rfl
      | some ev' =>
        have hout : f ∉ (s.data p).fdEvents := by
          rw [hlist, mem_singleton]
          exact hf
        rw [map_some, hother f ev' hev hout]
    · obtain rfl := mem_singleton.mp hv
      rfl
  · rw [hlist] at hlength
    exact absurd hlength (by simp)

theorem visits_visit (w : Walk) (p i : Nat) : w.visits <+: (w.visit p i).visits := by
  rw [Walk.visit]
  split
  · exact prefix_rfl
  · split
    · exact prefix_rfl
    · exact prefix_append _ _

theorem visits_foldl (p : DataPtr) (places : List Nat) (w : Walk) :
    w.visits <+: (places.foldl (fun w i => w.visit p i) w).visits := by
  induction places generalizing w with
  | nil => exact prefix_rfl
  | cons i places ih => exact (visits_visit w p i).trans (ih _)

theorem removeEvents_of_not_alone (h : s.Tabled) (hp : s.fdDataMap fd = some p) (halone : ¬s.Alone fd) :
    ∃ v ∈ (s.removeEvents p).visits, v.isValid = false := by
  have hfd : 0 ≤ fd := by
    by_contra hneg
    exact nomatch (h.negative fd (Int.not_le.mp hneg)).symm.trans hp
  have hdata := dataOf_of_some hp
  have hmem : ∀ e, e ∈ (s.data p).fdEvents → ∃ ev, s.event e = some ev ∧ ev.enabledOn fd := by
    intro e he
    rw [← hdata] at he
    exact (mem_fdEvents h hfd).mp he
  rw [alone_iff h hfd, hdata] at halone
  rcases hlist : (s.data p).fdEvents with _ | ⟨e, _ | ⟨f, rest⟩⟩
  · rw [hlist] at halone
    exact absurd (Nat.zero_le 1) halone
  · rw [hlist] at halone
    exact absurd le_rfl halone
  obtain ⟨ev, he, hon⟩ := hmem e (hlist ▸ mem_cons_self)
  obtain ⟨hevfd, henabled⟩ := enabledOn_iff.mp hon
  -- the first place
  have hfirst : (Walk.visit { loop := s } p 0) =
      ⟨s.disable .select e ev, (e :: f :: rest).getLast?.toList, [⟨e, true⟩]⟩ := by
    rw [Walk.visit, hlist]
    dsimp only [cons_append, List.getElem?_cons_zero]
    rw [he]
    dsimp only
    rw [if_pos henabled, append_nil]
    rfl
  have hd : ev.d = some p := by
    rcases h.pointer e ev (event_eq_some.mp he) with ⟨-, -, hoff⟩ | ⟨-, q, hq, hmap⟩
    · exact nomatch hoff.symm.trans henabled
    · rw [hevfd, hp] at hmap
      rw [hq, some.inj hmap]
  have herased : ((s.disable .select e ev).data p).fdEvents = f :: rest := by
    rw [disable, hd]
    dsimp only
    rw [if_neg (not_not.mpr henabled)]
    change (update s.data p _ p).fdEvents = _
    rw [update_self]
    change (s.data p).fdEvents.erase e = _
    rw [hlist, erase_cons_head]
  -- what has come to the second is one of the events, and is not destroyed
  obtain ⟨last, hlast⟩ : ∃ last, (e :: f :: rest).getLast? = some last :=
    ⟨_, List.getLast?_eq_some_getLast (cons_ne_nil _ _)⟩
  obtain ⟨g, hg, hin⟩ : ∃ g, ((f :: rest) ++ [last])[1]? = some g ∧ g ∈ e :: f :: rest := by
    have hlen : 1 < ((f :: rest) ++ [last]).length := by
      rw [length_append, length_cons, length_singleton]
      omega
    refine ⟨_, getElem?_eq_getElem hlen, ?_⟩
    obtain hin | hin := mem_append.mp (getElem_mem hlen)
    · exact mem_cons_of_mem e hin
    · rw [mem_singleton.mp hin]
      exact mem_of_getLast? hlast
  obtain ⟨ev', hstill⟩ : ∃ ev', (s.disable .select e ev).event g = some ev' := by
    by_cases hge : g = e
    · rw [hge]
      exact ⟨_, event_disable_tabled h .select he⟩
    · obtain ⟨ev', hg', -⟩ := hmem g (hlist ▸ hin)
      exact ⟨ev', (event_disable_of_ne hge).trans hg'⟩
  have hsecond : (Walk.visit (Walk.visit { loop := s } p 0) p 1).visits = [⟨e, true⟩, ⟨g, false⟩] := by
    rw [hfirst, Walk.visit]
    rw [herased, hlast]
    dsimp only [toList_some]
    rw [hg]
    dsimp only
    rw [hstill]
    rfl
  have hplaces : List.range (s.data p).fdEvents.length = 0 :: 1 :: (List.range rest.length).map (· + 2) := by
    rw [hlist, length_cons, length_cons, range_succ_eq_map, range_succ_eq_map, map_cons, List.map_map]
    rfl
  have hlater := visits_foldl p ((List.range rest.length).map (· + 2)) (Walk.visit (Walk.visit { loop := s } p 0) p 1)
  rw [hsecond] at hlater
  refine ⟨⟨g, false⟩, ?_, rfl⟩
  rw [removeEvents, hplaces]
  exact hlater.subset (mem_cons_of_mem _ mem_cons_self)

/-- What the rounds over the descriptors `past` have made of the loop, if no iterator has been invalid. -/
structure Evicted (s : FdLoop) (alive : Int → Bool) (past : List Int) (t : FdLoop) : Prop where
  tabled : t.Tabled
  map : t.fdDataMap = s.fdDataMap
  event : ∀ e, t.event e = (s.event e).map fun ev =>
    { ev with isEnabled := ev.isEnabled && (decide (ev.fd ∉ past) || isFdValid alive ev.fd) }

theorem Evicted.alone_iff (h : Evicted s alive past s') (hnew : fd ∉ past) : s'.Alone fd ↔ s.Alone fd := by
  -- on the descriptor the same events are enabled
  have hback : ∀ e ev, s.event e = some ev → ev.enabledOn fd → ∃ ev', s'.event e = some ev' ∧ ev'.enabledOn fd := by
    intro e ev he hon
    obtain ⟨hevfd, henabled⟩ := enabledOn_iff.mp hon
    refine ⟨_, (h.event e).trans (congrArg (Option.map _) he), enabledOn_iff.mpr ⟨hevfd, ?_⟩⟩
    dsimp only
    rw [henabled, hevfd, decide_eq_true hnew]
    rfl
  have hforth : ∀ e ev, s'.event e = some ev → ev.enabledOn fd → ∃ ev', s.event e = some ev' ∧ ev'.enabledOn fd := by
    intro e ev he hon
    obtain ⟨hevfd, henabled⟩ := enabledOn_iff.mp hon
    rw [h.event] at he
    obtain ⟨ev', he', rfl⟩ := map_eq_some_iff.mp he
    exact ⟨ev', he', enabledOn_iff.mpr ⟨hevfd, (Bool.and_eq_true _ _ ▸ henabled).1⟩⟩
  constructor
  · intro halone e ev f ev' he hf hon hon'
    obtain ⟨x, hx, hxon⟩ := hback e ev he hon
    obtain ⟨y, hy, hyon⟩ := hback f ev' hf hon'
    exact halone e x f y hx hy hxon hyon
  · intro halone e ev f ev' he hf hon hon'
    obtain ⟨x, hx, hxon⟩ := hforth e ev he hon
    obtain ⟨y, hy, hyon⟩ := hforth f ev' hf hon'
    exact halone e x f y hx hy hxon hyon

theorem Evicted.valid (h : Evicted s alive past s') (hvalid : isFdValid alive fd = true) :
    Evicted s alive (fd :: past) s' := by
  refine ⟨h.tabled, h.map, fun e => ?_⟩
  rw [h.event e]
  congr 1
  funext ev
  by_cases hfd : ev.fd = fd
  · rw [hfd, hvalid, Bool.or_true, Bool.or_true]
  · have hmem : (ev.fd ∉ fd :: past) = (ev.fd ∉ past) := by
      rw [mem_cons, or_iff_right hfd]
    simp only [hmem]

theorem Evicted.cleared (h : Evicted s alive past s') {t : FdLoop} (hinvalid : ¬isFdValid alive fd = true)
    (htabled : t.Tabled) (hmap : t.fdDataMap = s'.fdDataMap) (hevent : ∀ e, t.event e =
      (s'.event e).map fun ev => { ev with isEnabled := ev.isEnabled && decide (ev.fd ≠ fd) }) :
    Evicted s alive (fd :: past) t := by
  refine ⟨htabled, hmap.trans h.map, fun e => ?_⟩
  rw [hevent, h.event, Option.map_map]
  congr 1
  funext ev
  dsimp only [Function.comp_apply]
  by_cases hfd : ev.fd = fd
  · have hpast : ¬ev.fd ∉ fd :: past := not_not.mpr (hfd ▸ mem_cons_self)
    rw [decide_eq_false (not_not.mpr hfd), decide_eq_false hpast, hfd, Bool.eq_false_of_not_eq_true hinvalid,
      Bool.and_false, Bool.or_false, Bool.and_false]
  have hmem : (ev.fd ∉ fd :: past) = (ev.fd ∉ past) := by
    rw [mem_cons, or_iff_right hfd]
  rw [decide_eq_true hfd, Bool.and_true]
  simp only [hmem]

theorem visits_removeInvalidFds (alive : Int → Bool) (fds : List Int) (t : FdLoop × List Visit) :
    t.2 <+: (fds.foldl (removeInvalidFd alive) t).2 := by
  induction fds generalizing t with
  | nil => exact prefix_rfl
  | cons fd fds ih =>
    refine List.IsPrefix.trans ?_ (ih _)
    rw [removeInvalidFd]
    split
    · exact prefix_rfl
    · split_ifs
      · exact prefix_rfl
      · exact prefix_append _ _

/-- The rounds over the table: no iterator is invalid exactly if no two events are enabled on an invalid descriptor, and
then these have been disabled. -/
theorem Evicted.rounds (h : Evicted s alive past s') (hvisits : ∀ v ∈ visits, v.isValid = true)
    (hnodup : fds.Nodup) (hnew : ∀ fd ∈ fds, fd ∉ past) (hmapped : ∀ fd ∈ fds, (s.fdDataMap fd).isSome) :
    ((∀ v ∈ (fds.foldl (removeInvalidFd alive) (s', visits)).2, v.isValid = true) ↔
      ∀ fd ∈ fds, isFdValid alive fd = true ∨ s.Alone fd) ∧ ((∀ fd ∈ fds, isFdValid alive fd = true ∨ s.Alone fd) →
        Evicted s alive (fds.reverse ++ past) (fds.foldl (removeInvalidFd alive) (s', visits)).1) := by
  induction fds generalizing past s' visits with
  | nil => exact ⟨iff_of_true hvisits nofun, fun _ => h⟩
  | cons fd fds ih =>
    obtain ⟨hfd, hnodup'⟩ := nodup_cons.mp hnodup
    have hnew' : ∀ fd' ∈ fds, fd' ∉ fd :: past := by
      intro fd' hin hmem
      obtain rfl | hmem := mem_cons.mp hmem
      · exact hfd hin
      · exact hnew fd' (mem_cons_of_mem fd hin) hmem
    have hmapped' : ∀ fd' ∈ fds, (s.fdDataMap fd').isSome := fun fd' hin => hmapped fd' (mem_cons_of_mem fd hin)
    obtain ⟨p, hp⟩ := isSome_iff_exists.mp (hmapped fd mem_cons_self)
    rw [← h.map] at hp
    rw [foldl_cons, reverse_cons, append_assoc, singleton_append, forall_mem_cons]
    by_cases hvalid : isFdValid alive fd = true
    · have hround : removeInvalidFd alive (s', visits) fd = (s', visits) := by
        rw [removeInvalidFd, hp]
        exact if_pos hvalid
      rw [hround]
      have hlater := ih (h.valid hvalid) hvisits hnodup' hnew' hmapped'
      exact ⟨hlater.1.trans (and_iff_right (.inl hvalid)).symm, fun hall => hlater.2 hall.2⟩
    · have hround : removeInvalidFd alive (s', visits) fd =
          ((s'.removeEvents p).loop, visits ++ (s'.removeEvents p).visits) := by
        rw [removeInvalidFd, hp]
        exact if_neg hvalid
      rw [hround, or_iff_right hvalid, ← h.alone_iff (hnew fd mem_cons_self)]
      by_cases halone : s'.Alone fd
      · obtain ⟨htabled, hmap, hevent, hgood⟩ := removeEvents_of_alone h.tabled hp halone
        have hvisits' : ∀ v ∈ visits ++ (s'.removeEvents p).visits, v.isValid = true := by
          intro v hv
          exact (mem_append.mp hv).elim (hvisits v) (hgood v)
        have hlater := ih (h.cleared hvalid htabled hmap hevent) hvisits' hnodup' hnew' hmapped'
        exact ⟨hlater.1.trans (and_iff_right halone).symm, fun hall => hlater.2 hall.2⟩
      · refine ⟨iff_of_false (fun hall => ?_) fun hall => halone hall.1, fun hall => absurd hall.1 halone⟩
        obtain ⟨v, hv, hbad⟩ := removeEvents_of_not_alone h.tabled hp halone
        have hlater := visits_removeInvalidFds alive fds
          ((s'.removeEvents p).loop, visits ++ (s'.removeEvents p).visits)
        exact nomatch hbad.symm.trans (hall v (hlater.subset (mem_append_right _ hv)))

end FdLoop

end Tbox.Event
