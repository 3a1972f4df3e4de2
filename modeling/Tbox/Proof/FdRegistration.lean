import Tbox.Proof.FdTables

/-!
# What epoll is told

The mask of a record, and what the kernel has for its descriptor, follow from the counters after every
call, and no call of `epoll_ctl` is refused.
-/

namespace Tbox.Event

open FdLoop
open Function (update_self update_of_ne update_eq_self update)

variable {s s' : FdLoop} {e : EventPtr} {ev : FdEvent} {fd : Int} {d : FdSharedData} {p : DataPtr}

def FdLoop.unionOn (s : FdLoop) (fd : Int) : Kinds where
  read := s.events.any (Option.any (FdEvent.asksOn fd Kinds.read))
  write := s.events.any (Option.any (FdEvent.asksOn fd Kinds.write))
  except := s.events.any (Option.any (FdEvent.asksOn fd Kinds.except))

/-- What is true of every descriptor between the calls. -/
structure Registered (s : FdLoop) (fd : Int) : Prop where
  readEventNum : (s.dataOf fd).readEventNum = tally s.events (FdEvent.asksOn fd Kinds.read)
  writeEventNum : (s.dataOf fd).writeEventNum = tally s.events (FdEvent.asksOn fd Kinds.write)
  exceptEventNum : (s.dataOf fd).exceptEventNum = tally s.events (FdEvent.asksOn fd Kinds.except)
  nodup : (s.dataOf fd).fdEvents.Nodup
  mem : ∀ e, e ∈ (s.dataOf fd).fdEvents ↔ ∃ ev, s.event e = some ev ∧ ev.enabledOn fd
  shared : ∀ e ev, s.event e = some ev → ev.fd = fd → ev.d = s.fdDataMap fd
  interest : s.epoll.interest fd =
    if s.unionOn fd = {} then none else (s.fdDataMap fd).map fun p => (s.unionOn fd, p)
  ref : (s.dataOf fd).ref = tally s.events (FdEvent.on fd)
  released : s.fdDataMap fd = none ↔ ∀ e ev, s.event e = some ev → ev.fd ≠ fd

structure Watched (s : FdLoop) : Prop where
  mask : ∀ fd, (s.dataOf fd).ev = (s.dataOf fd).asked
  interest : ∀ fd, s.epoll.interest fd =
    if (s.dataOf fd).ev = {} then none else (s.fdDataMap fd).map fun p => ((s.dataOf fd).ev, p)
  accepted : s.epoll.refused = false

theorem watched_init : Watched {} where
  mask _ := rfl
  interest _ := rfl
  accepted := rfl

theorem Watched.of_eq (h : Watched s) (hepoll : s'.epoll = s.epoll)
    (hev : ∀ fd, (s'.dataOf fd).ev = (s.dataOf fd).ev)
    (hasked : ∀ fd, (s'.dataOf fd).asked = (s.dataOf fd).asked)
    (hmap : ∀ fd, (s.dataOf fd).ev ≠ {} → s'.fdDataMap fd = s.fdDataMap fd) : Watched s' where
  mask fd := by rw [hev, hasked, h.mask]
  interest fd := by
    rw [hepoll, hev, h.interest]
    split_ifs with hempty
    · rfl
    · rw [hmap fd hempty]
  accepted := hepoll ▸ h.accepted

theorem Epoll.ctl_add {k : Epoll} (h : k.interest fd = none) (x : Kinds × DataPtr) :
    k.ctl .add fd x = { k with interest := update k.interest fd (some x) } := by
  simp only [ctl, h]

theorem Epoll.ctl_mod {k : Epoll} {old : Kinds × DataPtr} (h : k.interest fd = some old) (x : Kinds × DataPtr) :
    k.ctl .mod fd x = { k with interest := update k.interest fd (some x) } := by
  simp only [ctl, h]

theorem Epoll.ctl_del {k : Epoll} {old : Kinds × DataPtr} (h : k.interest fd = some old) (x : Kinds × DataPtr) :
    k.ctl .del fd x = { k with interest := update k.interest fd none } := by
  simp only [ctl, h]

def Kinds.toldWith (p : DataPtr) (mask : Kinds) : Option (Kinds × DataPtr) :=
  if mask = {} then none else some (mask, p)

theorem reloadEpoll_eq (hold : s.epoll.interest fd = (s.data p).ev.toldWith p) :
    s.reloadEpoll fd p = { s.setData p { s.data p with ev := (s.data p).asked } with
      epoll.interest := update s.epoll.interest fd ((s.data p).asked.toldWith p) } := by
  rw [Kinds.toldWith] at hold ⊢
  rw [reloadEpoll]
  by_cases hev : (s.data p).ev = {}
  · rw [if_pos hev] at hold ⊢
    by_cases hnew : (s.data p).asked = {}
    · rw [if_neg (not_not.mpr hnew), if_pos hnew, ← hold, update_eq_self]
      rfl
    · rw [if_pos hnew, if_neg hnew]
      exact congrArg (fun k => { s.setData p { s.data p with ev := (s.data p).asked } with epoll := k })
        (Epoll.ctl_add hold _)
  · rw [if_neg hev] at hold ⊢
    by_cases hnew : (s.data p).asked = {}
    · rw [if_neg (not_not.mpr hnew), if_pos hnew]
      exact congrArg (fun k => { s.setData p { s.data p with ev := (s.data p).asked } with epoll := k })
        (Epoll.ctl_del hold _)
    · rw [if_pos hnew, if_neg hnew]
      exact congrArg (fun k => { s.setData p { s.data p with ev := (s.data p).asked } with epoll := k })
        (Epoll.ctl_mod hold _)

theorem Watched.reloadEpoll (h : Watched s) (hmapped : s.Mapped) (hp : s.fdDataMap fd = some p)
    (hev : d.ev = (s.dataOf fd).ev) : Watched ((s.setData p d).reloadEpoll fd p) := by
  have hself : (s.setData p d).data p = d := update_self _ _ _
  have hmapped' : (s.setData p d).Mapped := ⟨hmapped.inj, hmapped.fresh⟩
  have hold : (s.setData p d).epoll.interest fd = ((s.setData p d).data p).ev.toldWith p := by
    have hinterest := h.interest fd
    rw [hp, ← hev] at hinterest
    rw [hself]
    exact hinterest
  have hset' := dataOf_setData hmapped' hp { d with ev := d.asked }
  rw [reloadEpoll_eq hold, hself]
  refine ⟨fun fd' => ?_, fun fd' => ?_, h.accepted⟩
  · change (((s.setData p d).setData p { d with ev := d.asked }).dataOf fd').ev =
      (((s.setData p d).setData p { d with ev := d.asked }).dataOf fd').asked
    rw [hset', dataOf_setData hmapped hp]
    by_cases hfd : fd' = fd
    · rw [if_pos hfd]
      rfl
    · rw [if_neg hfd, if_neg hfd]
      exact h.mask fd'
  · change update s.epoll.interest fd _ fd' =
      if (((s.setData p d).setData p { d with ev := d.asked }).dataOf fd').ev = {} then none
      else (s.fdDataMap fd').map fun q => ((((s.setData p d).setData p { d with ev := d.asked }).dataOf fd').ev, q)
    rw [hset', dataOf_setData hmapped hp]
    by_cases hfd : fd' = fd
    · rw [if_pos hfd, hfd, hp, update_self]
      rfl
    · rw [if_neg hfd, if_neg hfd, update_of_ne hfd]
      exact h.interest fd'

theorem Watched.move (h : Watched s) (htabled : s.Tabled) (hmove : Move .epoll s s') : Watched s' := by
  cases hmove with
  | construct => exact h.of_eq rfl (fun _ => rfl) (fun _ => rfl) fun _ _ => rfl
  | change e ev ev' he hoff hfd hd hoff' =>
    exact h.of_eq rfl (fun _ => rfl) (fun _ => rfl) fun _ _ => rfl
  | leave e ev he hoff =>
    rcases hmap : s.fdDataMap ev.fd with _ | p
    · have hsame : s.unrefFdSharedData ev.fd = s := by rw [unrefFdSharedData, hmap]
      rw [hsame]
      exact h.of_eq rfl (fun _ => rfl) (fun _ => rfl) fun _ _ => rfl
    obtain ⟨hdata, hmap', -, hepoll, -⟩ := unrefFdSharedData_spec htabled.toMapped hmap
    have hpos : 0 ≤ ev.fd := by
      by_contra hneg
      rw [htabled.negative ev.fd (by omega)] at hmap
      cases hmap
    have hasked := htabled.asked_of_last he hoff hpos
    refine h.of_eq hepoll (fun fd => ?_) (fun fd => ?_) fun fd hne => ?_
    · refine (congrArg FdSharedData.ev (hdata fd)).trans ?_
      split_ifs with hfd hzero
      · rw [hfd, h.mask, hasked hzero]
      · rw [hfd]
      · rfl
    · refine (congrArg FdSharedData.asked (hdata fd)).trans ?_
      split_ifs with hfd hzero
      · rw [hfd, hasked hzero]
        rfl
      · rw [hfd]
        rfl
      · rfl
    · refine (hmap' fd).trans (if_neg ?_)
      rintro ⟨rfl, hzero⟩
      exact hne ((h.mask ev.fd).trans (hasked hzero))
  | join e ev he hfd hoff hp =>
    obtain ⟨hdata, hmap, hwhich, -, -, -, hepoll⟩ := refFdSharedData_spec htabled.toMapped ev.fd
    refine h.of_eq hepoll (fun fd => ?_) (fun fd => ?_) fun fd hne => ?_
    · refine (congrArg FdSharedData.ev (hdata fd)).trans ?_
      split_ifs with hfd
      · rw [hfd]
      · rfl
    · refine (congrArg FdSharedData.asked (hdata fd)).trans ?_
      split_ifs with hfd
      · rw [hfd]
        rfl
      · rfl
    · refine (hmap fd).trans ?_
      split_ifs with hsame
      · rcases hwhich with hold | ⟨hnone, -⟩
        · rw [hsame, hold]
        · rw [hsame, dataOf_of_none hnone] at hne
          exact absurd rfl hne
      · rfl
  | enable e ev he =>
    rw [FdLoop.enable]
    split
    · exact h
    next p hp =>
      split_ifs with hon
      · exact h
      obtain ⟨-, hmap, -⟩ := htabled.tallies_of_event he hp
      have hwatched := h.reloadEpoll (d := { (s.data p).count ev.events 1 with
        fdEvents := ((s.data p).count ev.events 1).fdEvents ++ [e] }) htabled.toMapped hmap
        (by rw [dataOf_of_some hmap]; rfl)
      exact hwatched.of_eq rfl (fun _ => rfl) (fun _ => rfl) fun _ _ => rfl
  | disable e ev he =>
    rw [FdLoop.disable]
    split
    · exact h
    next p hp =>
      split_ifs with hon
      · obtain ⟨-, hmap, -⟩ := htabled.tallies_of_event he hp
        have hwatched := h.reloadEpoll (d := { (s.data p).count ev.events (-1) with
          fdEvents := ((s.data p).count ev.events (-1)).fdEvents.erase e }) htabled.toMapped hmap
          (by rw [dataOf_of_some hmap]; rfl)
        exact hwatched.of_eq rfl (fun _ => rfl) (fun _ => rfl) fun _ _ => rfl
      · exact h

theorem FdLoop.Tabled.asked_eq (h : s.Tabled) (hfd : 0 ≤ fd) : (s.dataOf fd).asked = s.unionOn fd := by
  have htally := h.tallies fd hfd
  have hany : ∀ so : FdEvent → Bool, decide (0 < (tally s.events so : Int)) =
      s.events.any (Option.any so) := by
    intro so
    rw [Bool.eq_iff_iff, decide_eq_true_iff, Int.natCast_pos, List.any_eq_true]
    exact List.countP_pos_iff
  rw [FdSharedData.asked, FdLoop.unionOn, htally.readEventNum, htally.writeEventNum,
    htally.exceptEventNum, hany, hany, hany]

theorem Watched.registered (h : Watched s) (htabled : s.Tabled) (hfd : 0 ≤ fd) : Registered s fd := by
  have htally := htabled.tallies fd hfd
  refine { htally with mem := fun e => ?_, shared := fun e ev he hon => ?_, interest := ?_, released := ?_ }
  · simp only [event_eq_some]
    exact htally.mem e
  · rcases htabled.pointer e ev (event_eq_some.mp he) with ⟨hunset, -⟩ | ⟨-, p, hd, hmap⟩
    · omega
    · rw [hd, ← hon, hmap]
  · rw [h.interest, h.mask, htabled.asked_eq hfd]
  rw [htabled.live, htally.ref]
  constructor
  · intro hzero e ev he hon
    have hpos : 0 < tally s.events (FdEvent.on fd) := tally_pos (event_eq_some.mp he) (decide_eq_true hon)
    omega
  · intro hnone
    by_contra hne
    have hpos : 0 < tally s.events (FdEvent.on fd) := by omega
    obtain ⟨e, ev, he, hon⟩ := tally_pos_iff.mp hpos
    exact hnone e ev (event_eq_some.mpr he) (of_decide_eq_true hon)

/-- Whatever calls are made on whatever events, the record of every descriptor is right, and the kernel
has been told so without ever refusing. -/
theorem registered_of_calls {calls : List FdCall} (hlegal : ∀ call ∈ calls, call.Legal)
    (hrun : Lib.run (fun s call => FdLoop.call s .epoll call) {} calls = some s) :
    (∀ fd, 0 ≤ fd → Registered s fd) ∧ s.epoll.refused = false := by
  have hall : s.Tabled ∧ Watched s := by
    refine Lib.run_invariant (I := fun s => s.Tabled ∧ Watched s) ?_ ⟨tabled_init, watched_init⟩
      (Lib.along_of_forall_mem hlegal) hrun
    intro s call s' h hlegal hcall
    exact call_invariant (fun s s' htabled hwatched hmove => hwatched.move htabled hmove)
      h.1 h.2 hlegal hcall
  exact ⟨fun fd hfd => hall.2.registered hall.1 hfd, hall.2.accepted⟩

/-- Two events on one descriptor: one is disabled twice, the other destroyed while it is enabled; a third is moved
there. -/
def threeEvents : List FdCall :=
  [.construct, .construct, .construct, .initializeEvent 0 7 ⟨true, false, false⟩ false,
    .initializeEvent 1 7 ⟨true, true, false⟩ true, .enable 0, .enable 1, .disable 0, .disable 0,
    .initializeEvent 2 9 ⟨false, false, true⟩ false, .enable 2, .disable 2,
    .initializeEvent 2 7 ⟨true, false, true⟩ false, .enable 2, .destroy 1]

theorem threeEvents_registered :
    ∃ s, Lib.run (fun s call => FdLoop.call s .epoll call) {} threeEvents = some s ∧
      Registered s 7 ∧ Registered s 9 ∧ s.epoll.refused = false ∧
      s.epoll.interest 7 = some (⟨true, false, true⟩, 0) ∧ s.epoll.interest 9 = none := by
  obtain ⟨s, hrun⟩ : ∃ s, Lib.run (fun s call => FdLoop.call s .epoll call) {} threeEvents = some s :=
    ⟨_, rfl⟩
  obtain ⟨hregistered, hrefused⟩ := registered_of_calls (by decide) hrun
  refine ⟨s, hrun, hregistered 7 (by decide), hregistered 9 (by decide), hrefused, ?_⟩
  cases hrun
  decide +kernel

end Tbox.Event
