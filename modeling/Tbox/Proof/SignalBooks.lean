import Tbox.Event.SignalEvent

/-!
# The three tables of the signals

An event has its set, a loop its subscribers, the process its descriptors and the handler it found. A failing `enable`
leaves what was subscribed before the failure, a set that is changed while enabled is not the one that was subscribed,
and nobody looks whether the handler was restored. Otherwise the three are in step.
-/

open List

namespace Tbox.Event

open Tbox.Lib
open Function (update_self update_of_ne update_eq_self update_idem update)

variable {n : Nat} {s t : Signals n} {l l' : Fin n} {e who : SignalEventPtr} {ev : SignalEvent n} {signo signo' : Int}
  {fd : Option Int} {installs restores : Int → Bool} {original : Int → Nat} {sigset : List Int}

theorem mem_insertSignal :
    signo' ∈ insertSignal sigset signo ↔ signo' = signo ∨ signo' ∈ sigset := by
  rw [insertSignal]
  split_ifs with hmem
  · constructor
    · exact .inr
    · rintro (rfl | hin)
      · exact hmem
      · exact hin
  · exact mem_orderedInsert _

theorem nodup_insertSignal (h : sigset.Nodup) : (insertSignal sigset signo).Nodup := by
  rw [insertSignal]
  split_ifs with hmem
  · exact h
  · exact (perm_orderedInsert _ signo sigset).nodup_iff.mpr (nodup_cons.mpr ⟨hmem, h⟩)

theorem nodup_foldl_insertSignal (h : sigset.Nodup) (signos : List Int) :
    (signos.foldl insertSignal sigset).Nodup := by
  induction signos generalizing sigset with
  | nil => exact h
  | cons signo signos ih => exact ih (nodup_insertSignal h)

namespace Signals

/-- A loop with subscribers has a pipe, and the process has its end for the signals they are subscribed to. -/
structure Ends (s : Signals n) : Prop where
  writeFds : ∀ signo fd, fd ∈ (s.signalCtxs signo).writeFds ↔
    ∃ l, (s.loops l).signalWriteFd = some fd ∧ (s.loops l).Subscribed signo
  pipes : ∀ l, (s.loops l).signalWriteFd = none ↔ (s.loops l).allSignalsSubscribers = ∅

structure Tables (original : Int → Nat) (s : Signals n) : Prop extends Ends s where
  handlers : ∀ signo, s.handlers signo =
    if (s.signalCtxs signo).writeFds = ∅ then .other (original signo) else .signalHandlerFunc

structure Books (original : Int → Nat) (s : Signals n) : Prop extends Tables original s where
  subscribers : ∀ l signo e, (signo, e) ∈ (s.loops l).allSignalsSubscribers ↔
    ∃ ev, s.events e = some ev ∧ ev.wpLoop = l ∧ ev.isEnabled = true ∧ signo ∈ ev.sigset

structure Steady (original : Int → Nat) (s : Signals n) : Prop extends Tables original s where
  oldHandler : ∀ signo, (s.signalCtxs signo).writeFds ≠ ∅ → (s.signalCtxs signo).oldHandler = .other (original signo)
  distinct : ∀ l l', (s.loops l).signalWriteFd ≠ none → (s.loops l).signalWriteFd = (s.loops l').signalWriteFd → l = l'
  alive : s.crashed = false

def Refused (s : Signals n) (installs : Int → Bool) (signo : Int) : Prop :=
  (∀ l, ¬(s.loops l).Subscribed signo) ∧ installs signo = false

def Stuck (s : Signals n) (l : Fin n) (who : SignalEventPtr) (restores : Int → Bool) (signo : Int) : Prop :=
  (∀ l' e, (signo, e) ∈ (s.loops l').allSignalsSubscribers → l' = l ∧ e = who) ∧ restores signo = false

/-- There is a pipe, or one can be had, with an end of its own. -/
def Opens (s : Signals n) (l : Fin n) (fd : Option Int) : Prop :=
  (s.loops l).signalWriteFd = none → fd ≠ none ∧ ∀ l', (s.loops l').signalWriteFd ≠ fd

theorem Ends.writeFds_eq_empty (h : Ends s) :
    (s.signalCtxs signo).writeFds = ∅ ↔ ∀ l, ¬(s.loops l).Subscribed signo := by
  rw [Finset.eq_empty_iff_forall_notMem]
  constructor
  · intro hempty l hsubscribed
    obtain ⟨p, hp, -⟩ := id hsubscribed
    have hpipe : (s.loops l).signalWriteFd ≠ none := by
      intro hnone
      rw [(h.pipes l).mp hnone] at hp
      exact absurd hp (Finset.notMem_empty p)
    obtain ⟨fd, hfd⟩ := Option.ne_none_iff_exists'.mp hpipe
    exact hempty fd ((h.writeFds signo fd).mpr ⟨l, hfd, hsubscribed⟩)
  · intro hnone fd hfd
    obtain ⟨l, -, hsubscribed⟩ := (h.writeFds signo fd).mp hfd
    exact hnone l hsubscribed

structure Inserted (s t : Signals n) (l : Fin n) (signo : Int) (who : SignalEventPtr) : Prop where
  events : t.events = s.events
  subscribers : (t.loops l).allSignalsSubscribers = insert (signo, who) (s.loops l).allSignalsSubscribers
  others : ∀ l', l' ≠ l → t.loops l' = s.loops l'

theorem subscribed_insert {w : Option Int} {subs : Finset (Int × SignalEventPtr)} :
    (SignalLoop.mk w (insert (signo, who) subs)).Subscribed signo' ↔
      signo = signo' ∨ ∃ p ∈ subs, p.1 = signo' := Finset.exists_mem_insert _ _ _

theorem Steady.subscribeSignal_of_refused (h : Steady original s) (hrefused : Refused s installs signo) :
    s.subscribeSignal l signo who fd (installs signo) = (s, false) := by
  have hctx := h.writeFds_eq_empty.mpr hrefused.1
  rw [subscribeSignal, createSignalFds, hrefused.2]
  cases hpipe : (s.loops l).signalWriteFd with
  | some x =>
    have hsubs : (s.loops l).allSignalsSubscribers ≠ ∅ := by
      intro hempty
      exact nomatch hpipe.symm.trans ((h.pipes l).mpr hempty)
    simp only [if_neg (hrefused.1 l), installHandler, if_neg (not_not.mpr hctx), Bool.false_eq_true, if_false,
      closeSignalFds, if_pos hsubs]
  | none =>
    have hsubs := (h.pipes l).mp hpipe
    cases fd with
    | none => rfl
    | some x =>
      have hnot : ¬(SignalLoop.mk (some x) (s.loops l).allSignalsSubscribers).Subscribed signo := hrefused.1 l
      have hsame : (⟨none, (s.loops l).allSignalsSubscribers⟩ : SignalLoop) = s.loops l := by rw [← hpipe]
      simp only [Option.map_some, setLoop, update_self, installHandler,
        if_neg (not_not.mpr hctx), Bool.false_eq_true, if_false, closeSignalFds, hsubs, ne_eq, not_true_eq_false,
        reduceCtorEq, update_idem]
      rw [← hsubs, hsame, update_eq_self]
      exact if_neg hnot

theorem Steady.of_inserted (h : Steady original s) {w : Int} (hw : (s.loops l).signalWriteFd = some w ∨
      (s.loops l).signalWriteFd = none ∧ ∀ l', (s.loops l').signalWriteFd ≠ some w)
    (hloops : t.loops = update s.loops l ⟨some w, insert (signo, who) (s.loops l).allSignalsSubscribers⟩)
    (hwriteFds : (t.signalCtxs signo).writeFds = insert w (s.signalCtxs signo).writeFds)
    (hold : (t.signalCtxs signo).oldHandler = .other (original signo))
    (hctxs : ∀ signo', signo' ≠ signo → t.signalCtxs signo' = s.signalCtxs signo')
    (hhandlers : t.handlers = update s.handlers signo .signalHandlerFunc)
    (halive : t.crashed = false) : Steady original t := by
  have hself : t.loops l = ⟨some w, insert (signo, who) (s.loops l).allSignalsSubscribers⟩ := by
    rw [hloops, update_self]
  have hothers : ∀ l', l' ≠ l → t.loops l' = s.loops l' := by
    intro l' hne
    rw [hloops, update_of_ne hne]
  have hkeeps : ∀ l' fd, (s.loops l').signalWriteFd = some fd → (t.loops l').signalWriteFd = some fd := by
    intro l' fd hfd
    by_cases hl : l' = l
    · subst hl
      rcases hw with hw | ⟨hnone, -⟩
      · rw [hself]
        exact hw.symm.trans hfd
      · exact nomatch hnone.symm.trans hfd
    · rw [hothers l' hl]
      exact hfd
  have hsubscribed : ∀ l' signo', (t.loops l').Subscribed signo' ↔
      l' = l ∧ signo' = signo ∨ (s.loops l').Subscribed signo' := by
    intro l' signo'
    by_cases hl : l' = l
    · subst hl
      rw [hself, subscribed_insert, eq_comm]
      exact or_congr_left (and_iff_right rfl).symm
    · rw [hothers l' hl]
      exact (or_iff_right fun hself => hl hself.1).symm
  have hpipe : (t.loops l).signalWriteFd = some w := by rw [hself]
  refine ⟨⟨⟨?_, ?_⟩, ?_⟩, ?_, ?_, halive⟩
  · intro signo' fd
    constructor
    · intro hfd
      by_cases hsigno : signo' = signo
      · subst hsigno
        rw [hwriteFds] at hfd
        rcases Finset.mem_insert.mp hfd with rfl | hfd
        · exact ⟨l, hpipe, (hsubscribed l signo').mpr (.inl ⟨rfl, rfl⟩)⟩
        · obtain ⟨l', hl', hsub⟩ := (h.writeFds signo' fd).mp hfd
          exact ⟨l', hkeeps l' fd hl', (hsubscribed l' signo').mpr (.inr hsub)⟩
      · rw [hctxs signo' hsigno] at hfd
        obtain ⟨l', hl', hsub⟩ := (h.writeFds signo' fd).mp hfd
        exact ⟨l', hkeeps l' fd hl', (hsubscribed l' signo').mpr (.inr hsub)⟩
    · rintro ⟨l', hl', hsub⟩
      have hin : (s.loops l').Subscribed signo' → fd ∈ (s.signalCtxs signo').writeFds := by
        intro hsub
        refine (h.writeFds signo' fd).mpr ⟨l', ?_, hsub⟩
        by_cases hl : l' = l
        · subst hl
          have hsome : (s.loops l').signalWriteFd ≠ none := by
            intro hnone
            obtain ⟨p, hp, -⟩ := hsub
            rw [(h.pipes l').mp hnone] at hp
            exact absurd hp (Finset.notMem_empty p)
          obtain ⟨x, hx⟩ := Option.ne_none_iff_exists'.mp hsome
          exact hx.trans ((hkeeps l' x hx).symm.trans hl')
        · rw [← hothers l' hl]
          exact hl'
      rcases (hsubscribed l' signo').mp hsub with ⟨rfl, rfl⟩ | hsub
      · rw [hwriteFds, Option.some.inj (hl'.symm.trans hpipe)]
        exact Finset.mem_insert_self _ _
      by_cases hsigno : signo' = signo
      · subst hsigno
        rw [hwriteFds]
        exact Finset.mem_insert_of_mem (hin hsub)
      · rw [hctxs signo' hsigno]
        exact hin hsub
  · intro l'
    by_cases hl : l' = l
    · subst hl
      rw [hself]
      exact iff_of_false nofun (Finset.insert_ne_empty _ _)
    · rw [hothers l' hl]
      exact h.pipes l'
  · intro signo'
    rw [hhandlers]
    by_cases hsigno : signo' = signo
    · subst hsigno
      rw [update_self, hwriteFds, if_neg (Finset.insert_ne_empty _ _)]
    · rw [update_of_ne hsigno, hctxs signo' hsigno]
      exact h.handlers signo'
  · intro signo' hne
    by_cases hsigno : signo' = signo
    · subst hsigno
      exact hold
    · rw [hctxs signo' hsigno] at hne ⊢
      exact h.oldHandler signo' hne
  · -- the end of the pipe is the one of the loop already, or no loop's
    have hfresh : ∀ l', l' ≠ l → (s.loops l').signalWriteFd ≠ some w := by
      intro l' hl heq
      rcases hw with hw | ⟨-, hw⟩
      · exact hl (h.distinct l' l (by rw [heq]; exact Option.some_ne_none w) (heq.trans hw.symm))
      · exact hw l' heq
    intro l' l'' hne heq
    by_cases hl : l' = l
    · subst hl
      by_contra hl'
      rw [hpipe, hothers l'' (Ne.symm hl')] at heq
      exact hfresh l'' (Ne.symm hl') heq.symm
    · by_cases hl' : l'' = l
      · subst hl'
        rw [hothers l' hl, hpipe] at heq
        exact absurd heq (hfresh l' hl)
      · rw [hothers l' hl] at hne heq
        rw [hothers l'' hl'] at heq
        exact h.distinct l' l'' hne heq

theorem createSignalFds_eq (hopens : Opens s l fd) : ∃ w, ((s.loops l).signalWriteFd = some w ∨
        (s.loops l).signalWriteFd = none ∧ ∀ l', (s.loops l').signalWriteFd ≠ some w) ∧
      s.createSignalFds l fd = some (s.setLoop l ⟨some w, (s.loops l).allSignalsSubscribers⟩) := by
  rw [createSignalFds]
  cases hpipe : (s.loops l).signalWriteFd with
  | some w =>
    have hsame : (⟨some w, (s.loops l).allSignalsSubscribers⟩ : SignalLoop) = s.loops l := by rw [← hpipe]
    refine ⟨w, .inl rfl, ?_⟩
    rw [setLoop, hsame, update_eq_self]
  | none =>
    obtain ⟨hne, hfresh⟩ := hopens hpipe
    obtain ⟨w, rfl⟩ := Option.ne_none_iff_exists'.mp hne
    exact ⟨w, .inr ⟨rfl, hfresh⟩, rfl⟩

structure Installed (original : Int → Nat) (s t : Signals n) (signo : Int) : Prop where
  events : t.events = s.events
  loops : t.loops = s.loops
  writeFds : (t.signalCtxs signo).writeFds = (s.signalCtxs signo).writeFds
  oldHandler : (t.signalCtxs signo).oldHandler = .other (original signo)
  others : ∀ signo', signo' ≠ signo → t.signalCtxs signo' = s.signalCtxs signo'
  handlers : t.handlers = update s.handlers signo .signalHandlerFunc
  crashed : t.crashed = s.crashed

theorem installHandler_eq (hhandler : s.handlers signo =
      if (s.signalCtxs signo).writeFds = ∅ then .other (original signo) else .signalHandlerFunc)
    (hold : (s.signalCtxs signo).writeFds ≠ ∅ → (s.signalCtxs signo).oldHandler = .other (original signo))
    (hinstalls : (s.signalCtxs signo).writeFds = ∅ → installs signo = true) :
    ∃ t, s.installHandler signo (installs signo) = some t ∧ Installed original s t signo := by
  rw [installHandler]
  split_ifs with hne hinstalled
  · refine ⟨s, rfl, rfl, rfl, rfl, hold hne, fun _ _ => rfl, ?_, rfl⟩
    rw [if_neg hne] at hhandler
    rw [← hhandler, update_eq_self]
  · rw [if_pos (not_not.mp hne)] at hhandler
    refine ⟨_, rfl, rfl, rfl, ?_, ?_, ?_, rfl, rfl⟩
    · rw [setCtx]
      dsimp only
      rw [update_self]
    · rw [setCtx]
      dsimp only
      rw [update_self, hhandler]
    · exact fun signo' hsigno => update_of_ne hsigno ..
  · exact absurd (hinstalls (not_not.mp hne)) hinstalled

theorem Steady.subscribeSignal (h : Steady original s) (who : SignalEventPtr) (hopens : Opens s l fd)
    (hnot : ¬Refused s installs signo) :
    ∃ t, s.subscribeSignal l signo who fd (installs signo) = (t, true) ∧ Steady original t ∧
      Inserted s t l signo who ∧ (t.loops l).signalWriteFd ≠ none := by
  obtain ⟨w, hw, hcreate⟩ := createSignalFds_eq hopens
  have hinserted : ∀ u : Signals n, u.events = s.events →
      u.loops = update s.loops l ⟨some w, insert (signo, who) (s.loops l).allSignalsSubscribers⟩ →
      Inserted s u l signo who ∧ (u.loops l).signalWriteFd ≠ none := by
    intro u hevents hloops
    refine ⟨⟨hevents, ?_, ?_⟩, ?_⟩
    · rw [hloops, update_self]
    · intro l' hne
      rw [hloops, update_of_ne hne]
    · rw [hloops, update_self]
      exact Option.some_ne_none w
  rw [Signals.subscribeSignal, hcreate]
  have hloop : (s.setLoop l ⟨some w, (s.loops l).allSignalsSubscribers⟩).loops l =
      ⟨some w, (s.loops l).allSignalsSubscribers⟩ := update_self ..
  dsimp only
  rw [hloop]
  by_cases hsub : (s.loops l).Subscribed signo
  · rw [if_pos (show SignalLoop.Subscribed ⟨some w, (s.loops l).allSignalsSubscribers⟩ signo from hsub)]
    have hwriteFds : w ∈ (s.signalCtxs signo).writeFds := by
      rcases hw with hw | ⟨hnone, -⟩
      · exact (h.writeFds signo w).mpr ⟨l, hw, hsub⟩
      · obtain ⟨p, hp, -⟩ := hsub
        rw [(h.pipes l).mp hnone] at hp
        exact absurd hp (Finset.notMem_empty p)
    have hne := Finset.ne_empty_of_mem hwriteFds
    have hloops : ((s.setLoop l ⟨some w, (s.loops l).allSignalsSubscribers⟩).insertSubscriber l signo who).loops =
        update s.loops l ⟨some w, insert (signo, who) (s.loops l).allSignalsSubscribers⟩ := by
      rw [insertSubscriber, setLoop, hloop]
      exact update_idem ..
    refine ⟨_, rfl, h.of_inserted hw hloops ?_ (h.oldHandler signo hne) (fun _ _ => rfl) ?_ h.alive,
      hinserted _ rfl hloops⟩
    · exact (Finset.insert_eq_of_mem hwriteFds).symm
    have hhandler := h.handlers signo
    rw [if_neg hne] at hhandler
    rw [← hhandler, update_eq_self]
    rfl
  · rw [if_neg (show ¬SignalLoop.Subscribed ⟨some w, (s.loops l).allSignalsSubscribers⟩ signo from hsub)]
    have hinstalls : (s.signalCtxs signo).writeFds = ∅ → installs signo = true := by
      intro hempty
      by_contra hfails
      exact hnot ⟨h.writeFds_eq_empty.mp hempty, Bool.not_eq_true _ ▸ hfails⟩
    obtain ⟨u, hu, hinstalled⟩ := installHandler_eq (s := s.setLoop l ⟨some w, (s.loops l).allSignalsSubscribers⟩)
      (h.handlers signo) (h.oldHandler signo) hinstalls
    rw [hu]
    have huloop : u.loops l = ⟨some w, (s.loops l).allSignalsSubscribers⟩ := by rw [hinstalled.loops, hloop]
    have hloops : ((u.insertWriteFd l signo).insertSubscriber l signo who).loops =
        update s.loops l ⟨some w, insert (signo, who) (s.loops l).allSignalsSubscribers⟩ := by
      rw [insertSubscriber, insertWriteFd, setCtx, setLoop]
      rw [huloop, hinstalled.loops]
      exact update_idem ..
    have hself : ((u.insertWriteFd l signo).insertSubscriber l signo who).signalCtxs signo =
        { u.signalCtxs signo with writeFds := (u.signalCtxs signo).writeFds ∪ (some w).toFinset } := by
      rw [insertSubscriber, insertWriteFd, setCtx, setLoop, huloop]
      exact update_self ..
    refine ⟨_, rfl, h.of_inserted hw hloops ?_ ?_ ?_ hinstalled.handlers (hinstalled.crashed.trans h.alive),
      hinserted _ hinstalled.events hloops⟩
    · rw [hself]
      rw [hinstalled.writeFds, Option.toFinset_some, Finset.union_comm]
      rfl
    · rw [hself]
      exact hinstalled.oldHandler
    · intro signo' hsigno
      exact (update_of_ne hsigno ..).trans (hinstalled.others signo' hsigno)

theorem Inserted.subscribed_iff (h : Inserted s t l signo who) (hne : signo' ≠ signo) :
    (t.loops l').Subscribed signo' ↔ (s.loops l').Subscribed signo' := by
  by_cases hl : l' = l
  · subst hl
    rw [SignalLoop.Subscribed, h.subscribers, Finset.exists_mem_insert]
    exact or_iff_right (Ne.symm hne)
  · rw [h.others l' hl]

theorem Inserted.refused_iff (h : Inserted s t l signo who) (hne : signo' ≠ signo) :
    Refused t installs signo' ↔ Refused s installs signo' :=
  and_congr_left' (forall_congr' fun _ => not_congr (h.subscribed_iff hne))

/-- What the subscription to a set of signals comes to: the pairs, up to a signal that is refused. -/
structure SubscribedAll (original : Int → Nat) (s t : Signals n) (l : Fin n) (who : SignalEventPtr)
    (signos : List Int) : Prop where
  steady : Steady original t
  others : ∀ l', l' ≠ l → t.loops l' = s.loops l'
  mem : ∀ p, p ∈ (t.loops l).allSignalsSubscribers ↔
    p ∈ (s.loops l).allSignalsSubscribers ∨ p.1 ∈ signos ∧ p.2 = who

theorem pairs_cons {signos : List Int} {p : Int × SignalEventPtr} :
    p.1 ∈ signo :: signos ∧ p.2 = who ↔ p = (signo, who) ∨ p.1 ∈ signos ∧ p.2 = who := by
  rw [mem_cons, or_and_right, Prod.ext_iff]

theorem Steady.subscribeAll {signos : List Int} (h : Steady original s) (who : SignalEventPtr)
    (installs : Int → Bool) (hopens : Opens s l fd) (hnodup : signos.Nodup) :
    ∃ t ok, s.subscribeAll l who fd installs signos = (t, ok) ∧ t.events = s.events ∧
      (∀ p ∈ (s.loops l).allSignalsSubscribers, p ∈ (t.loops l).allSignalsSubscribers) ∧
      (ok = true ↔ ∀ signo ∈ signos, ¬Refused s installs signo) ∧
      (ok = true → SubscribedAll original s t l who signos) := by
  induction signos generalizing s with
  | nil =>
    refine ⟨s, true, rfl, rfl, fun _ hp => hp, iff_of_true rfl (forall_mem_nil _), fun _ => ⟨h, fun _ _ => rfl, ?_⟩⟩
    intro p
    exact (or_iff_left fun hmem => not_mem_nil hmem.1).symm
  | cons signo signos ih =>
    obtain ⟨hnotMem, hnodup⟩ := nodup_cons.mp hnodup
    rw [Signals.subscribeAll]
    by_cases hrefused : Refused s installs signo
    · rw [h.subscribeSignal_of_refused hrefused]
      refine ⟨s, false, rfl, rfl, fun _ hp => hp, iff_of_false Bool.false_ne_true ?_, nofun⟩
      exact fun hall => hall signo mem_cons_self hrefused
    obtain ⟨u, hu, hsteady, hinserted, hpipe⟩ := h.subscribeSignal who hopens hrefused
    rw [hu]
    obtain ⟨t, ok, ht, hevents, hkept, hok, hall⟩ := ih hsteady (fun hnone => absurd hnone hpipe) hnodup
    refine ⟨t, ok, ht, hevents.trans hinserted.events, ?_, ?_, ?_⟩
    · intro p hp
      apply hkept
      rw [hinserted.subscribers]
      exact Finset.mem_insert_of_mem hp
    · rw [hok, forall_mem_cons, and_iff_right hrefused]
      refine forall₂_congr fun signo' hmem => not_congr (hinserted.refused_iff ?_)
      rintro rfl
      exact hnotMem hmem
    · intro htrue
      obtain ⟨hsteady, hothers, hmem⟩ := hall htrue
      refine ⟨hsteady, fun l' hl => (hothers l' hl).trans (hinserted.others l' hl), ?_⟩
      intro p
      rw [hmem, hinserted.subscribers, Finset.mem_insert, pairs_cons, or_assoc, or_left_comm]

/-- What `unsubscribeSignal` changes of the loops: one pair. -/
structure Erased (s t : Signals n) (l : Fin n) (signo : Int) (who : SignalEventPtr) : Prop where
  events : t.events = s.events
  subscribers : (t.loops l).allSignalsSubscribers = (s.loops l).allSignalsSubscribers.erase (signo, who)
  others : ∀ l', l' ≠ l → t.loops l' = s.loops l'

def Broken (s : Signals n) (signo : Int) : Prop :=
  (s.signalCtxs signo).writeFds = ∅ ∧ s.handlers signo = .signalHandlerFunc

theorem Tables.not_broken (h : Tables original s) : ¬Broken s signo := by
  rintro ⟨hempty, hhandler⟩
  rw [h.handlers, if_pos hempty] at hhandler
  cases hhandler

theorem exists_mem_erase {subs : Finset (Int × SignalEventPtr)} (hne : signo' ≠ signo) :
    (∃ p ∈ subs.erase (signo, who), p.1 = signo') ↔ ∃ p ∈ subs, p.1 = signo' := by
  constructor
  · rintro ⟨p, hp, hsigno⟩
    exact ⟨p, Finset.mem_of_mem_erase hp, hsigno⟩
  rintro ⟨p, hp, rfl⟩
  refine ⟨p, Finset.mem_erase.mpr ⟨?_, hp⟩, rfl⟩
  rintro rfl
  exact hne rfl

theorem Erased.subscribed_iff (h : Erased s t l signo who) (hne : signo' ≠ signo) :
    (t.loops l').Subscribed signo' ↔ (s.loops l').Subscribed signo' := by
  by_cases hl : l' = l
  · subst hl
    rw [SignalLoop.Subscribed, h.subscribers]
    exact exists_mem_erase hne
  · rw [h.others l' hl]

/-- The tables after `unsubscribeSignal`: the pipe goes with the last subscriber of the loop, the handler with the last
end. -/
structure Unsubscribed (original : Int → Nat) (s t : Signals n) (l : Fin n) (signo : Int) (who : SignalEventPtr)
    (restores : Bool) : Prop where
  erased : Erased s t l signo who
  pipe : (t.loops l).signalWriteFd =
    if (s.loops l).allSignalsSubscribers.erase (signo, who) = ∅ then none else (s.loops l).signalWriteFd
  writeFds : (t.signalCtxs signo).writeFds =
    if (t.loops l).Subscribed signo then (s.signalCtxs signo).writeFds
    else (s.signalCtxs signo).writeFds \ (s.loops l).signalWriteFd.toFinset
  oldHandler : (t.signalCtxs signo).writeFds ≠ ∅ → (t.signalCtxs signo).oldHandler = .other (original signo)
  handler : t.handlers signo =
    if (t.signalCtxs signo).writeFds = ∅ ∧ restores = true then .other (original signo) else .signalHandlerFunc
  ctxs : ∀ signo', signo' ≠ signo → t.signalCtxs signo' = s.signalCtxs signo'
  handlers : ∀ signo', signo' ≠ signo → t.handlers signo' = s.handlers signo'
  alive : t.crashed = false

theorem closeSignalFds_eq (hpipe : (s.loops l).signalWriteFd ≠ none) :
    s.closeSignalFds l = s.setLoop l { s.loops l with
      signalWriteFd := if (s.loops l).allSignalsSubscribers = ∅ then none else (s.loops l).signalWriteFd } := by
  rw [closeSignalFds]
  by_cases hempty : (s.loops l).allSignalsSubscribers = ∅
  · rw [if_neg (not_not.mpr hempty), if_neg hpipe, if_pos hempty]
  · rw [if_pos hempty, if_neg hempty, setLoop, update_eq_self]

structure WriteFdErased (s t : Signals n) (l : Fin n) (signo : Int) (restored : Bool) : Prop where
  events : t.events = s.events
  loops : t.loops = s.loops
  crashed : t.crashed = s.crashed
  writeFds : (t.signalCtxs signo).writeFds = (s.signalCtxs signo).writeFds \ (s.loops l).signalWriteFd.toFinset
  oldHandler : (t.signalCtxs signo).writeFds ≠ ∅ → (t.signalCtxs signo).oldHandler = (s.signalCtxs signo).oldHandler
  handler : t.handlers signo = if (t.signalCtxs signo).writeFds = ∅ ∧ restored = true then
    (s.signalCtxs signo).oldHandler else s.handlers signo
  ctxs : ∀ signo', signo' ≠ signo → t.signalCtxs signo' = s.signalCtxs signo'
  handlers : ∀ signo', signo' ≠ signo → t.handlers signo' = s.handlers signo'

theorem eraseWriteFd_spec (s : Signals n) (l : Fin n) (signo : Int) (restored : Bool) :
    WriteFdErased s (s.eraseWriteFd l signo restored) l signo restored := by
  rw [eraseWriteFd]
  dsimp only [setCtx]
  by_cases hlast : (s.signalCtxs signo).writeFds \ (s.loops l).signalWriteFd.toFinset = ∅
  · rw [if_neg (not_not.mpr hlast)]
    refine ⟨rfl, rfl, rfl, ?_, ?_, ?_, fun _ hne => update_of_ne hne .., ?_⟩
    · rw [hlast]
      dsimp only
      rw [update_self]
    · dsimp only
      rw [update_self]
      exact fun hne => absurd rfl hne
    · cases restored
      · exact (if_neg fun hrestored => nomatch hrestored.2).symm
      · have hself : update s.signalCtxs signo {} signo = {} := update_self ..
        exact (update_self ..).trans (if_pos ⟨congrArg SignalCtx.writeFds hself, rfl⟩).symm
    · intro signo' hne
      split_ifs
      · exact update_of_ne hne ..
      · rfl
  · rw [if_pos hlast]
    refine ⟨rfl, rfl, rfl, ?_, ?_, ?_, fun _ hne => update_of_ne hne .., fun _ _ => rfl⟩
    · dsimp only
      rw [update_self]
    · dsimp only
      rw [update_self]
      exact fun _ => rfl
    · refine (if_neg fun hempty => hlast ?_).symm
      exact (congrArg SignalCtx.writeFds (update_self ..)).symm.trans hempty.1

theorem Steady.unsubscribeSignal (h : Steady original s) (restores : Int → Bool)
    (hmem : (signo, who) ∈ (s.loops l).allSignalsSubscribers) :
    Unsubscribed original s (s.unsubscribeSignal l signo who (restores signo)) l signo who (restores signo) := by
  have hsubs := Finset.ne_empty_of_mem hmem
  have hpipe : (s.loops l).signalWriteFd ≠ none := fun hnone => hsubs ((h.pipes l).mp hnone)
  have hwriteFds : (s.signalCtxs signo).writeFds ≠ ∅ := by
    intro hempty
    exact h.writeFds_eq_empty.mp hempty l ⟨_, hmem, rfl⟩
  have hhandler := h.handlers signo
  rw [if_neg hwriteFds] at hhandler
  have hold := h.oldHandler signo hwriteFds
  rw [Signals.unsubscribeSignal]
  have hloop : (s.eraseSubscriber l signo who).loops l =
      { s.loops l with allSignalsSubscribers := (s.loops l).allSignalsSubscribers.erase (signo, who) } :=
    update_self ..
  have hothers : ∀ l', l' ≠ l → (s.eraseSubscriber l signo who).loops l' = s.loops l' :=
    fun l' hl => update_of_ne hl ..
  split_ifs with hsub
  · have hrest : (s.loops l).allSignalsSubscribers.erase (signo, who) ≠ ∅ := by
      obtain ⟨p, hp, -⟩ := id hsub
      rw [hloop] at hp
      exact Finset.ne_empty_of_mem hp
    refine ⟨⟨rfl, ?_, hothers⟩, ?_, ?_, fun _ => hold, ?_, fun _ _ => rfl, fun _ _ => rfl, h.alive⟩
    · rw [hloop]
    · rw [hloop, if_neg hrest]
    · exact (if_pos hsub).symm
    · exact hhandler.trans (if_neg fun hempty => hwriteFds hempty.1).symm
  · obtain ⟨hevents, hloops, hcrashed, hfds, hkept, hrestored, hctxs, hhandlers⟩ :=
      eraseWriteFd_spec (s.eraseSubscriber l signo who) l signo (restores signo)
    generalize (s.eraseSubscriber l signo who).eraseWriteFd l signo (restores signo) = u at *
    have hul : u.loops l =
        { s.loops l with allSignalsSubscribers := (s.loops l).allSignalsSubscribers.erase (signo, who) } := by
      rw [hloops, hloop]
    obtain ⟨v, hv⟩ : ∃ v, v = u.closeSignalFds l := ⟨_, rfl⟩
    rw [← hv]
    rw [closeSignalFds_eq (by rw [hul]; exact hpipe)] at hv
    have hvl : v.loops l =
        ⟨if (s.loops l).allSignalsSubscribers.erase (signo, who) = ∅ then none else (s.loops l).signalWriteFd,
          (s.loops l).allSignalsSubscribers.erase (signo, who)⟩ := by
      rw [hv]
      exact (update_self ..).trans (by rw [hul])
    have hnot : ¬(v.loops l).Subscribed signo := by
      rw [hvl]
      rwa [hloop] at hsub
    have hvctxs : v.signalCtxs = u.signalCtxs := by rw [hv, setLoop]
    have hvhandlers : v.handlers = u.handlers := by rw [hv, setLoop]
    refine ⟨⟨(congrArg Signals.events hv).trans hevents, ?_, ?_⟩, ?_, ?_, ?_, ?_, ?_, ?_, ?_⟩
    · rw [hvl]
    · intro l' hl
      rw [hv]
      exact (update_of_ne hl ..).trans ((congrFun hloops l').trans (hothers l' hl))
    · rw [hvl]
    · rw [if_neg hnot, hvctxs]
      exact hfds.trans (by rw [hloop]; rfl)
    · rw [hvctxs]
      exact fun hne => (hkept hne).trans hold
    · rw [hvctxs, hvhandlers, ← hold, ← hhandler]
      exact hrestored
    · rw [hvctxs]
      exact hctxs
    · rw [hvhandlers]
      exact hhandlers
    · exact (congrArg Signals.crashed hv).trans (hcrashed.trans h.alive)

variable {restored : Bool}

theorem Unsubscribed.ends (h : Steady original s) (hmem : (signo, who) ∈ (s.loops l).allSignalsSubscribers) (hun : Unsubscribed original s t l signo who restored) : Ends t := by
  have hsubs := Finset.ne_empty_of_mem hmem
  obtain ⟨w, hw⟩ := Option.ne_none_iff_exists'.mp fun hnone => hsubs ((h.pipes l).mp hnone)
  -- the pipe is kept as long as it is needed
  have hpipe : ∀ l' signo', (t.loops l').Subscribed signo' →
      (t.loops l').signalWriteFd = (s.loops l').signalWriteFd := by
    intro l' signo' hsub
    by_cases hl : l' = l
    · subst hl
      obtain ⟨p, hp, -⟩ := hsub
      rw [hun.erased.subscribers] at hp
      rw [hun.pipe, if_neg (Finset.ne_empty_of_mem hp)]
    · rw [hun.erased.others l' hl]
  constructor
  · intro signo' fd
    by_cases hsigno : signo' = signo
    · subst hsigno
      rw [hun.writeFds]
      split_ifs with hsub
      · rw [h.writeFds]
        refine exists_congr fun l' => ?_
        by_cases hl : l' = l
        · subst hl
          rw [hpipe l' signo' hsub]
          exact and_congr_right fun _ => iff_of_true ⟨_, hmem, rfl⟩ hsub
        · rw [hun.erased.others l' hl]
      · rw [Finset.mem_sdiff, hw, Option.toFinset_some, Finset.mem_singleton, h.writeFds]
        constructor
        · rintro ⟨⟨l', hl', hsub'⟩, hne⟩
          have hl : l' ≠ l := by
            rintro rfl
            exact hne (Option.some.inj (hl'.symm.trans hw))
          rw [← hun.erased.others l' hl] at hl' hsub'
          exact ⟨l', hl', hsub'⟩
        · rintro ⟨l', hl', hsub'⟩
          have hl : l' ≠ l := by
            rintro rfl
            exact hsub hsub'
          rw [hun.erased.others l' hl] at hl' hsub'
          refine ⟨⟨l', hl', hsub'⟩, ?_⟩
          rintro rfl
          exact hl (h.distinct l' l (by rw [hl']; exact Option.some_ne_none _) (hl'.trans hw.symm))
    · rw [hun.ctxs signo' hsigno, h.writeFds]
      refine exists_congr fun l' => ?_
      rw [hun.erased.subscribed_iff hsigno]
      refine and_congr_left fun hsub => ?_
      rw [hpipe l' signo' ((hun.erased.subscribed_iff hsigno).mpr hsub)]
  · intro l'
    by_cases hl : l' = l
    · subst hl
      rw [hun.pipe, hun.erased.subscribers, hw]
      split_ifs with hempty
      · exact iff_of_true rfl hempty
      · exact iff_of_false nofun hempty
    · rw [hun.erased.others l' hl]
      exact h.pipes l'

theorem Unsubscribed.writeFds_eq_empty (h : Steady original s)
    (hmem : (signo, who) ∈ (s.loops l).allSignalsSubscribers)
    (hun : Unsubscribed original s t l signo who restored) : (t.signalCtxs signo).writeFds = ∅ ↔
      ∀ l' e, (signo, e) ∈ (s.loops l').allSignalsSubscribers → l' = l ∧ e = who := by
  rw [(hun.ends h hmem).writeFds_eq_empty]
  constructor
  · intro hnone l' e he
    have hl : l' = l := by
      by_contra hl
      apply hnone l'
      rw [hun.erased.others l' hl]
      exact ⟨_, he, rfl⟩
    subst hl
    refine ⟨rfl, ?_⟩
    by_contra hwho
    apply hnone l'
    refine ⟨(signo, e), ?_, rfl⟩
    rw [hun.erased.subscribers]
    exact Finset.mem_erase.mpr ⟨fun heq => hwho (Prod.ext_iff.mp heq).2, he⟩
  · rintro hsole l' ⟨⟨x, e⟩, hp, rfl⟩
    by_cases hl : l' = l
    · subst hl
      rw [hun.erased.subscribers] at hp
      obtain ⟨hne, hp⟩ := Finset.mem_erase.mp hp
      exact hne (Prod.ext rfl (hsole l' e hp).2)
    · rw [hun.erased.others l' hl] at hp
      exact hl (hsole l' e hp).1

theorem Unsubscribed.steady (h : Steady original s) (hmem : (signo, who) ∈ (s.loops l).allSignalsSubscribers) (hun : Unsubscribed original s t l signo who restored)
    (hrestored : (t.signalCtxs signo).writeFds = ∅ → restored = true) : Steady original t := by
  have hpipe : ∀ l', (t.loops l').signalWriteFd ≠ none → (t.loops l').signalWriteFd = (s.loops l').signalWriteFd := by
    intro l' hne
    by_cases hl : l' = l
    · subst hl
      rw [hun.pipe] at hne ⊢
      split_ifs at hne ⊢ with hempty
      · exact absurd rfl hne
      · rfl
    · rw [hun.erased.others l' hl]
  refine ⟨⟨hun.ends h hmem, ?_⟩, ?_, ?_, hun.alive⟩
  · intro signo'
    by_cases hsigno : signo' = signo
    · subst hsigno
      rw [hun.handler]
      by_cases hempty : (t.signalCtxs signo').writeFds = ∅
      · rw [if_pos ⟨hempty, hrestored hempty⟩, if_pos hempty]
      · rw [if_neg fun hboth => hempty hboth.1, if_neg hempty]
    · rw [hun.handlers signo' hsigno, hun.ctxs signo' hsigno]
      exact h.handlers signo'
  · intro signo' hne
    by_cases hsigno : signo' = signo
    · subst hsigno
      exact hun.oldHandler hne
    · rw [hun.ctxs signo' hsigno] at hne ⊢
      exact h.oldHandler signo' hne
  · intro l' l'' hne heq
    have hne' : (t.loops l'').signalWriteFd ≠ none := heq ▸ hne
    rw [hpipe l' hne, hpipe l'' hne'] at heq
    exact h.distinct l' l'' (hpipe l' hne ▸ hne) heq

theorem Unsubscribed.broken (hun : Unsubscribed original s t l signo who restored)
    (hempty : (t.signalCtxs signo).writeFds = ∅) (hnot : restored = false) : Broken t signo := by
  refine ⟨hempty, ?_⟩
  rw [hun.handler, if_neg]
  rintro ⟨-, htrue⟩
  exact absurd (hnot.symm.trans htrue) Bool.false_ne_true

theorem Broken.unsubscribeSignal (h : Broken s signo') (hne : signo' ≠ signo) :
    Broken (s.unsubscribeSignal l signo who restored) signo' := by
  obtain ⟨hempty, hhandler⟩ := h
  have hclose : ∀ u : Signals n, Broken u signo' → Broken (u.closeSignalFds l) signo' := by
    intro u hu
    rw [closeSignalFds]
    split_ifs
    · exact hu
    · exact hu
    · exact hu
  rw [Signals.unsubscribeSignal]
  split_ifs
  · exact ⟨hempty, hhandler⟩
  apply hclose
  have herase := eraseWriteFd_spec (s.eraseSubscriber l signo who) l signo restored
  refine ⟨?_, (herase.handlers signo' hne).trans hhandler⟩
  rw [herase.ctxs signo' hne]
  exact hempty

theorem Broken.unsubscribeAll {signos : List Int} (h : Broken s signo') (hnot : signo' ∉ signos) :
    Broken (s.unsubscribeAll l who restores signos) signo' := by
  induction signos generalizing s with
  | nil => exact h
  | cons signo signos ih =>
    obtain ⟨hne, hnot⟩ := not_or.mp (mt mem_cons.mpr hnot)
    exact ih (h.unsubscribeSignal hne) hnot

structure UnsubscribedAll (original : Int → Nat) (s t : Signals n) (l : Fin n) (who : SignalEventPtr)
    (signos : List Int) : Prop where
  steady : Steady original t
  events : t.events = s.events
  others : ∀ l', l' ≠ l → t.loops l' = s.loops l'
  mem : ∀ p, p ∈ (t.loops l).allSignalsSubscribers ↔
    p ∈ (s.loops l).allSignalsSubscribers ∧ ¬(p.1 ∈ signos ∧ p.2 = who)

theorem Steady.unsubscribeAll {signos : List Int} (h : Steady original s) (restores : Int → Bool)
    (hnodup : signos.Nodup) (hmem : ∀ signo ∈ signos, (signo, who) ∈ (s.loops l).allSignalsSubscribers) :
    ((∀ signo ∈ signos, ¬Stuck s l who restores signo) →
        UnsubscribedAll original s (s.unsubscribeAll l who restores signos) l who signos) ∧
      ((∃ signo ∈ signos, Stuck s l who restores signo) →
        ∃ signo, Broken (s.unsubscribeAll l who restores signos) signo) := by
  induction signos generalizing s with
  | nil =>
    refine ⟨fun _ => ⟨h, rfl, fun _ _ => rfl, ?_⟩, ?_⟩
    · intro p
      exact (and_iff_left fun hin => not_mem_nil hin.1).symm
    · rintro ⟨_, hin, -⟩
      exact absurd hin not_mem_nil
  | cons signo signos ih =>
    obtain ⟨hnotMem, hnodup⟩ := nodup_cons.mp hnodup
    obtain ⟨hfirst, hrest⟩ := forall_mem_cons.mp hmem
    have hun := h.unsubscribeSignal restores hfirst
    have hlast := hun.writeFds_eq_empty h hfirst
    rw [Signals.unsubscribeAll]
    generalize s.unsubscribeSignal l signo who (restores signo) = u at hun hlast ⊢
    have hpairs : ∀ l' signo' e, signo' ≠ signo →
        ((signo', e) ∈ (u.loops l').allSignalsSubscribers ↔ (signo', e) ∈ (s.loops l').allSignalsSubscribers) := by
      intro l' signo' e hne
      by_cases hl : l' = l
      · subst hl
        rw [hun.erased.subscribers, Finset.mem_erase]
        exact and_iff_right fun heq => hne (Prod.ext_iff.mp heq).1
      · rw [hun.erased.others l' hl]
    have hstuck : ∀ signo' ∈ signos, (Stuck u l who restores signo' ↔ Stuck s l who restores signo') := by
      intro signo' hin
      have hne : signo' ≠ signo := ne_of_mem_of_not_mem hin hnotMem
      exact and_congr_left' (forall₂_congr fun l' e => imp_congr_left (hpairs l' signo' e hne))
    by_cases hsigno : Stuck s l who restores signo
    · refine ⟨fun hall => absurd hsigno (hall signo mem_cons_self), fun _ => ⟨signo, ?_⟩⟩
      exact (hun.broken (hlast.mpr hsigno.1) hsigno.2).unsubscribeAll hnotMem
    have hsteady : Steady original u := by
      refine hun.steady h hfirst fun hempty => ?_
      by_contra hfails
      exact hsigno ⟨hlast.mp hempty, Bool.not_eq_true _ ▸ hfails⟩
    obtain ⟨hall, hbroken⟩ := ih hsteady hnodup fun signo' hin =>
      (hpairs l signo' who (ne_of_mem_of_not_mem hin hnotMem)).mpr (hrest signo' hin)
    constructor
    · intro hnone
      obtain ⟨hsteady, hevents, hothers, hmem⟩ := hall fun signo' hin =>
        mt (hstuck signo' hin).mp (hnone signo' (mem_cons_of_mem _ hin))
      refine ⟨hsteady, hevents.trans hun.erased.events,
        fun l' hl => (hothers l' hl).trans (hun.erased.others l' hl), ?_⟩
      intro p
      rw [hmem, hun.erased.subscribers, Finset.mem_erase, pairs_cons, not_or, and_right_comm, and_comm]
    · rintro ⟨signo', hin, hstuck'⟩
      rcases mem_cons.mp hin with rfl | hin
      · exact absurd hstuck' hsigno
      · exact hbroken ⟨signo', hin, (hstuck signo' hin).mpr hstuck'⟩

structure Kept (original : Int → Nat) (s : Signals n) : Prop extends Books original s, Steady original s where
  inited : ∀ e ev, s.events e = some ev → ev.isInited = false → ev.sigset = []
  nodup : ∀ e ev, s.events e = some ev → ev.sigset.Nodup

def Belongs (o : Option (SignalEvent n)) (l : Fin n) (signo : Int) : Prop :=
  ∃ ev, o = some ev ∧ ev.wpLoop = l ∧ ev.isEnabled = true ∧ signo ∈ ev.sigset

variable {o : Option (SignalEvent n)}

theorem Kept.setEvent (h : Kept original s) {u : Signals n} (hsteady : Steady original u)
    (hevents : u.events = s.events)
    (hself : ∀ l signo, (signo, e) ∈ (u.loops l).allSignalsSubscribers ↔ Belongs o l signo)
    (hothers : ∀ l signo e', e' ≠ e →
      ((signo, e') ∈ (u.loops l).allSignalsSubscribers ↔ (signo, e') ∈ (s.loops l).allSignalsSubscribers))
    (hset : ∀ ev, o = some ev → ev.sigset.Nodup ∧ (ev.isInited = false → ev.sigset = [])) (returned : Bool) :
    Kept original { u.setEvent e o with returned := returned } := by
  have hat : (u.setEvent e o).events e = o := update_self ..
  have hoff : ∀ e', e' ≠ e → (u.setEvent e o).events e' = s.events e' :=
    fun e' he => (update_of_ne he ..).trans (congrFun hevents e')
  refine ⟨{ hsteady with subscribers := ?_ }, hsteady.oldHandler, hsteady.distinct, hsteady.alive, ?_, ?_⟩
  · intro l signo e'
    by_cases he : e' = e
    · subst he
      rw [hat]
      exact hself l signo
    · rw [hoff e' he]
      exact (hothers l signo e' he).trans (h.subscribers l signo e')
  · intro e' ev hev hinited
    by_cases he : e' = e
    · subst he
      exact (hset ev (hat.symm.trans hev)).2 hinited
    · exact h.inited e' ev ((hoff e' he).symm.trans hev) hinited
  · intro e' ev hev
    by_cases he : e' = e
    · subst he
      exact (hset ev (hat.symm.trans hev)).1
    · exact h.nodup e' ev ((hoff e' he).symm.trans hev)

theorem Kept.belongs_iff (h : Kept original s) (hev : s.events e = some ev) :
    (signo, e) ∈ (s.loops l).allSignalsSubscribers ↔ ev.wpLoop = l ∧ ev.isEnabled = true ∧ signo ∈ ev.sigset := by
  rw [h.subscribers, hev]
  constructor
  · rintro ⟨ev', heq, hbelongs⟩
    cases heq
    exact hbelongs
  · exact fun hbelongs => ⟨ev, rfl, hbelongs⟩

theorem belongs_some : Belongs (some ev) l signo ↔ ev.wpLoop = l ∧ ev.isEnabled = true ∧ signo ∈ ev.sigset := by
  constructor
  · rintro ⟨ev', heq, hbelongs⟩
    cases heq
    exact hbelongs
  · exact fun hbelongs => ⟨ev, rfl, hbelongs⟩

theorem not_belongs_of_not_enabled (h : ∀ ev, o = some ev → ev.isEnabled = false) :
    ¬Belongs o l signo := by
  rintro ⟨ev, ho, -, henabled, -⟩
  exact absurd ((h ev ho).symm.trans henabled) Bool.false_ne_true

/-- The three are in step after a call, and if it fails it has changed nothing. -/
structure Good (original : Int → Nat) (s t : Signals n) : Prop where
  books : Books original t
  unchanged : t.returned = false →
    t.events = s.events ∧ t.loops = s.loops ∧ t.signalCtxs = s.signalCtxs ∧ t.handlers = s.handlers

/-- The set of an enabled event stays the one it has, `enable` fails at the first signal if it fails, and no handler
fails to be restored. -/
def Heeds (s : Signals n) : Action n → Prop
  | .newSignalEvent _ _ => True
  | .initializeOne e signo => ∀ ev, s.events e = some ev → ev.isEnabled = true → signo ∈ ev.sigset
  | .initializeSet e signos => ∀ ev, s.events e = some ev → ev.isEnabled = true →
      ∀ signo, signo ∈ signos ↔ signo ∈ ev.sigset
  | .initializeList e signos => ∀ ev, s.events e = some ev → ev.isEnabled = true →
      ∀ signo ∈ signos, signo ∈ ev.sigset
  | .enable e fd installs => ∀ ev, s.events e = some ev → ∀ signo signos, ev.sigset = signo :: signos →
      (s.loops ev.wpLoop).signalWriteFd = none ∧ fd = none ∨ Refused s installs signo ∨
        ∀ signo' ∈ signos, ¬Refused s installs signo'
  | .disable e restores => ∀ ev, s.events e = some ev → ev.isEnabled = true →
      ∀ signo ∈ ev.sigset, ¬Stuck s ev.wpLoop e restores signo
  | .destroy e restores => ∀ ev, s.events e = some ev → ev.isEnabled = true →
      ∀ signo ∈ ev.sigset, ¬Stuck s ev.wpLoop e restores signo

theorem Kept.initialized (h : Kept original s) (hev : s.events e = some ev)
    (hnodup : sigset.Nodup) :
    ((ev.isEnabled = true → ∀ signo, signo ∈ sigset ↔ signo ∈ ev.sigset) → Kept original
        { s.setEvent e (some { ev with sigset := sigset, isInited := true }) with returned := true }) ∧
      (Books original { s.setEvent e (some { ev with sigset := sigset, isInited := true }) with returned := true } →
        ev.isEnabled = true → ∀ signo, signo ∈ sigset ↔ signo ∈ ev.sigset) := by
  constructor
  · intro hsame
    refine h.setEvent h.toSteady rfl ?_ (fun _ _ _ _ => Iff.rfl) ?_ true
    · intro l signo
      rw [h.belongs_iff hev, belongs_some]
      exact and_congr_right fun _ => and_congr_right fun henabled => (hsame henabled signo).symm
    · rintro ev' heq
      cases heq
      exact ⟨hnodup, nofun⟩
  · intro hbooks henabled signo
    have hat : (s.setEvent e (some { ev with sigset := sigset, isInited := true })).events e =
        some { ev with sigset := sigset, isInited := true } := update_self ..
    have hnew := hbooks.subscribers ev.wpLoop signo e
    rw [hat] at hnew
    have hold := (h.belongs_iff hev).symm.trans (hnew.trans belongs_some)
    rw [and_iff_right rfl, and_iff_right henabled, and_iff_right rfl, and_iff_right henabled] at hold
    exact hold.symm

theorem Kept.disabled (h : Kept original s) (restores : Int → Bool) (hev : s.events e = some ev) (ho : ∀ ev', o = some ev' → ev' = { ev with isEnabled := false }) :
    let u := if ev.isEnabled then s.unsubscribeAll ev.wpLoop e restores ev.sigset else s
    ((ev.isEnabled = true → ∀ signo ∈ ev.sigset, ¬Stuck s ev.wpLoop e restores signo) →
        Kept original { u.setEvent e o with returned := true }) ∧
      (¬(ev.isEnabled = true → ∀ signo ∈ ev.sigset, ¬Stuck s ev.wpLoop e restores signo) →
        ∃ signo, Broken u signo) := by
  intro u
  have hset : ∀ ev', o = some ev' → ev'.sigset.Nodup ∧ (ev'.isInited = false → ev'.sigset = []) := by
    intro ev' heq
    rw [ho ev' heq]
    exact ⟨h.nodup e ev hev, h.inited e ev hev⟩
  have hbelongs : ∀ l signo, ¬Belongs o l signo := by
    intro l signo
    refine not_belongs_of_not_enabled fun ev' heq => ?_
    rw [ho ev' heq]
  cases henabled : ev.isEnabled with
  | false =>
    have hu : u = s := if_neg (by rw [henabled]; exact Bool.false_ne_true)
    rw [hu]
    refine ⟨fun _ => ?_, fun hnot => absurd nofun hnot⟩
    refine h.setEvent h.toSteady rfl ?_ (fun _ _ _ _ => Iff.rfl) hset true
    intro l signo
    rw [h.belongs_iff hev, henabled]
    exact iff_of_false (fun hin => nomatch hin.2.1) (hbelongs l signo)
  | true =>
    have hu : u = s.unsubscribeAll ev.wpLoop e restores ev.sigset := if_pos henabled
    have hmem : ∀ signo ∈ ev.sigset, (signo, e) ∈ (s.loops ev.wpLoop).allSignalsSubscribers :=
      fun signo hin => (h.belongs_iff hev).mpr ⟨rfl, henabled, hin⟩
    obtain ⟨hall, hbroken⟩ := h.toSteady.unsubscribeAll restores (h.nodup e ev hev) hmem
    rw [hu]
    constructor
    · intro hnone
      obtain ⟨hsteady, hevents, hothers, hmem⟩ := hall (hnone rfl)
      refine h.setEvent hsteady hevents ?_ ?_ hset true
      · intro l signo
        refine iff_of_false ?_ (hbelongs l signo)
        intro hin
        by_cases hl : l = ev.wpLoop
        · subst hl
          obtain ⟨hin, hnot⟩ := (hmem _).mp hin
          exact hnot ⟨((h.belongs_iff hev).mp hin).2.2, rfl⟩
        · rw [hothers l hl] at hin
          exact hl ((h.belongs_iff hev).mp hin).1.symm
      · intro l signo e' he
        by_cases hl : l = ev.wpLoop
        · subst hl
          rw [hmem]
          exact and_iff_left fun hboth => he hboth.2
        · rw [hothers l hl]
    · intro hnot
      apply hbroken
      push Not at hnot
      obtain ⟨-, signo, hin, hstuck⟩ := hnot
      exact ⟨signo, hin, hstuck⟩

theorem Kept.failed (h : Kept original s) : Kept original { s with returned := false } :=
  ⟨{ h with }, h.oldHandler, h.distinct, h.alive, h.inited, h.nodup⟩

theorem Kept.enable_eq (h : Kept original s) (hev : s.events e = some ev) {ok : Bool}
    (hall : s.subscribeAll ev.wpLoop e fd installs ev.sigset = (t, ok)) : s.enable e ev fd installs =
      if ok then { t.setEvent e (some { ev with isEnabled := true }) with returned := true }
      else { t with returned := false } := by
  have hpair : (if ev.isInited then s.subscribeAll ev.wpLoop e fd installs ev.sigset else (s, true)) = (t, ok) := by
    cases hinited : ev.isInited with
    | true => exact hall
    | false =>
      rw [h.inited e ev hev hinited] at hall
      exact hall
  rw [enable, hpair]

theorem Kept.subscribed (h : Kept original s) (hev : s.events e = some ev) (hevents : t.events = s.events)
    (hall : SubscribedAll original s t ev.wpLoop e ev.sigset) :
    Kept original { t.setEvent e (some { ev with isEnabled := true }) with returned := true } := by
  refine h.setEvent hall.steady hevents ?_ ?_ ?_ true
  · intro l signo
    rw [belongs_some]
    by_cases hl : l = ev.wpLoop
    · subst hl
      rw [hall.mem, and_iff_right rfl, and_iff_right rfl, and_iff_left rfl]
      exact or_iff_right_of_imp fun hin => ((h.belongs_iff hev).mp hin).2.2
    · rw [hall.others l hl]
      exact iff_of_false (fun hin => hl ((h.belongs_iff hev).mp hin).1.symm) (fun hin => hl hin.1.symm)
  · intro l signo e' he
    by_cases hl : l = ev.wpLoop
    · subst hl
      rw [hall.mem]
      exact or_iff_left fun hboth => he hboth.2
    · rw [hall.others l hl]
  · rintro ev' heq
    cases heq
    exact ⟨h.nodup e ev hev, h.inited e ev hev⟩

/-- An `enable` subscribes the event to its set, or fails and changes nothing, unless a later signal is refused. -/
theorem Kept.enabled (h : Kept original s) (installs : Int → Bool) (hev : s.events e = some ev)
    (hfresh : ∀ l, fd ≠ none → (s.loops l).signalWriteFd ≠ fd) :
    (Heeds s (.enable e fd installs) → Kept original (s.enable e ev fd installs) ∧
        Good original s (s.enable e ev fd installs)) ∧
      (¬Heeds s (.enable e fd installs) → ¬Books original (s.enable e ev fd installs)) := by
  have hfails : s.subscribeAll ev.wpLoop e fd installs ev.sigset = (s, false) →
      Kept original (s.enable e ev fd installs) ∧ Good original s (s.enable e ev fd installs) := by
    intro hall
    rw [h.enable_eq hev hall]
    exact ⟨h.failed, h.failed.toBooks, fun _ => ⟨rfl, rfl, rfl, rfl⟩⟩
  have hsucceeds : ∀ t, t.events = s.events → s.subscribeAll ev.wpLoop e fd installs ev.sigset = (t, true) →
      SubscribedAll original s t ev.wpLoop e ev.sigset →
      Kept original (s.enable e ev fd installs) ∧ Good original s (s.enable e ev fd installs) := by
    intro t hevents ht hall
    rw [h.enable_eq hev ht]
    have hkept := h.subscribed hev hevents hall
    exact ⟨hkept, hkept.toBooks, nofun⟩
  cases hsigset : ev.sigset with
  | nil =>
    have hheeds : Heeds s (.enable e fd installs) := by
      intro ev' hev' signo signos heq
      cases hev.symm.trans hev'
      exact nomatch hsigset.symm.trans heq
    refine ⟨fun _ => ?_, fun hnot => absurd hheeds hnot⟩
    apply hsucceeds s rfl
    · rw [hsigset]
      rfl
    · refine ⟨h.toSteady, fun _ _ => rfl, fun p => (or_iff_left ?_).symm⟩
      rw [hsigset]
      exact fun hin => not_mem_nil hin.1
  | cons signo signos =>
    have hheeds : Heeds s (.enable e fd installs) ↔
        (s.loops ev.wpLoop).signalWriteFd = none ∧ fd = none ∨ Refused s installs signo ∨
          ∀ signo' ∈ signos, ¬Refused s installs signo' := by
      constructor
      · exact fun hheeds => hheeds ev hev signo signos hsigset
      intro hcond ev' hev' signo' signos' heq
      cases hev.symm.trans hev'
      cases hsigset.symm.trans heq
      exact hcond
    rw [hheeds]
    by_cases hnone : (s.loops ev.wpLoop).signalWriteFd = none ∧ fd = none
    · refine ⟨fun _ => hfails ?_, fun hnot => absurd (.inl hnone) hnot⟩
      rw [hsigset, Signals.subscribeAll, Signals.subscribeSignal, createSignalFds, hnone.1, hnone.2]
      rfl
    have hopens : Opens s ev.wpLoop fd := by
      intro hpipe
      have hfd : fd ≠ none := fun hfd => hnone ⟨hpipe, hfd⟩
      exact ⟨hfd, fun l => hfresh l hfd⟩
    by_cases hrefused : Refused s installs signo
    · refine ⟨fun _ => hfails ?_, fun hnot => absurd (.inr (.inl hrefused)) hnot⟩
      rw [hsigset, Signals.subscribeAll, h.toSteady.subscribeSignal_of_refused hrefused]
    rw [or_iff_right hnone, or_iff_right hrefused]
    obtain ⟨t, ok, ht, hevents, -, hok, hall⟩ := h.toSteady.subscribeAll e installs hopens (h.nodup e ev hev)
    rw [hsigset, forall_mem_cons, and_iff_right hrefused] at hok
    constructor
    · intro hrest
      cases hok.mpr hrest
      exact hsucceeds t hevents ht (hall rfl)
    intro hrest
    have hfalse : ok = false := Bool.eq_false_iff.mpr fun htrue => hrest (hok.mp htrue)
    -- the first signal has been subscribed to
    have hfirst : (signo, e) ∈ (t.loops ev.wpLoop).allSignalsSubscribers := by
      obtain ⟨u, hu, hsteady, hinserted, hpipe⟩ := h.toSteady.subscribeSignal e hopens hrefused
      obtain ⟨t', ok', ht', -, hkept, -⟩ := hsteady.subscribeAll e installs
        (show Opens u ev.wpLoop fd from fun hnone => absurd hnone hpipe)
          (nodup_cons.mp (hsigset ▸ h.nodup e ev hev)).2
      rw [hsigset, Signals.subscribeAll, hu] at ht
      cases ht'.symm.trans ht
      apply hkept
      rw [hinserted.subscribers]
      exact Finset.mem_insert_self _ _
    have hdisabled : ev.isEnabled = false := by
      by_contra henabled
      push Not at hrest
      obtain ⟨signo', hin, hrefused'⟩ := hrest
      refine hrefused'.1 ev.wpLoop ⟨(signo', e), (h.belongs_iff hev).mpr ⟨rfl, ?_, ?_⟩, rfl⟩
      · exact Bool.not_eq_false _ ▸ henabled
      · rw [hsigset]
        exact mem_cons_of_mem _ hin
    rw [h.enable_eq hev ht, hfalse]
    intro hbooks
    obtain ⟨ev', hev', -, henabled, -⟩ := (hbooks.subscribers ev.wpLoop signo e).mp hfirst
    have hsame : s.events e = some ev' := (congrFun hevents e).symm.trans hev'
    cases hev.symm.trans hsame
    exact absurd (hdisabled.symm.trans henabled) Bool.false_ne_true

theorem Kept.initialize_iff (h : Kept original s) (hev : s.events e = some ev)
    (hnodup : sigset.Nodup) {cond : Prop}
    (hcond : (ev.isEnabled = true → cond) ↔ (ev.isEnabled = true → ∀ signo, signo ∈ sigset ↔ signo ∈ ev.sigset)) :
    let t : Signals n := { s.setEvent e (some { ev with sigset := sigset, isInited := true }) with returned := true }
    ((ev.isEnabled = true → cond) → Kept original t) ∧ (Good original s t ↔ (ev.isEnabled = true → cond)) := by
  intro t
  obtain ⟨hkept, hbooks⟩ := h.initialized hev hnodup
  rw [hcond]
  exact ⟨hkept, fun hgood => hbooks hgood.books, fun hsame => ⟨(hkept hsame).toBooks, nofun⟩⟩

theorem mem_foldl_insertSignal {sigset signos : List Int} :
    signo ∈ signos.foldl insertSignal sigset ↔ signo ∈ signos ∨ signo ∈ sigset := by
  induction signos generalizing sigset with
  | nil => exact (or_iff_right not_mem_nil).symm
  | cons x signos ih =>
    rw [foldl_cons, ih, mem_insertSignal, mem_cons, or_left_comm, or_assoc]

theorem forall_event_iff (hev : s.events e = some ev) {P : SignalEvent n → Prop} :
    (∀ ev', s.events e = some ev' → P ev') ↔ P ev := by
  constructor
  · exact fun h => h ev hev
  · intro h ev' hev'
    cases hev.symm.trans hev'
    exact h

theorem Kept.disabled_iff (h : Kept original s) (hev : s.events e = some ev)
    (ho : ∀ ev', o = some ev' → ev' = { ev with isEnabled := false }) :
    let u := if ev.isEnabled then s.unsubscribeAll ev.wpLoop e restores ev.sigset else s
    let heeds := ev.isEnabled = true → ∀ signo ∈ ev.sigset, ¬Stuck s ev.wpLoop e restores signo
    (heeds → Kept original { u.setEvent e o with returned := true }) ∧
      (Good original s { u.setEvent e o with returned := true } ↔ heeds) := by
  intro u heeds
  obtain ⟨hkept, hbroken⟩ := h.disabled restores hev ho
  refine ⟨hkept, fun hgood => ?_, fun hheeds => ⟨(hkept hheeds).toBooks, nofun⟩⟩
  by_contra hnot
  obtain ⟨signo, hempty, hhandler⟩ := hbroken hnot
  exact hgood.books.toTables.not_broken ⟨hempty, hhandler⟩

/-- A step keeps the three tables in step if it is heeded, and is good exactly then. -/
theorem Kept.step {a : Action n} (h : Kept original s) (hstep : s.step a = some t) :
    (Heeds s a → Kept original t) ∧ (Good original s t ↔ Heeds s a) := by
  rw [Signals.step.eq_def, if_neg (by rw [h.alive]; exact Bool.false_ne_true)] at hstep
  cases a with
  | newSignalEvent e l =>
    obtain ⟨hnone, rfl⟩ := Option.ite_some_none_eq_some.mp hstep
    have hkept : Kept original { s.setEvent e (some { wpLoop := l }) with returned := true } := by
      refine h.setEvent h.toSteady rfl ?_ (fun _ _ _ _ => Iff.rfl) ?_ true
      · intro l' signo
        refine iff_of_false ?_ (not_belongs_of_not_enabled fun ev' heq => ?_)
        · intro hin
          obtain ⟨ev, hev, -⟩ := (h.subscribers l' signo e).mp hin
          rw [hev] at hnone
          cases hnone
        · cases heq
          rfl
      · rintro ev' heq
        cases heq
        exact ⟨nodup_nil, fun _ => rfl⟩
    exact ⟨fun _ => hkept, iff_of_true ⟨hkept.toBooks, nofun⟩ trivial⟩
  | initializeOne e signo =>
    obtain ⟨ev, hev, rfl⟩ := Option.map_eq_some_iff.mp hstep
    rw [show Heeds s (.initializeOne e signo) ↔ _ from forall_event_iff hev]
    refine h.initialize_iff hev (nodup_insertSignal (h.nodup e ev hev)) (imp_congr_right fun _ => ?_)
    constructor
    · intro hmem signo'
      rw [mem_insertSignal]
      exact or_iff_right_of_imp fun heq => heq ▸ hmem
    · exact fun hsame => (hsame signo).mp (mem_insertSignal.mpr (.inl rfl))
  | initializeSet e signos =>
    obtain ⟨ev, hev, rfl⟩ := Option.map_eq_some_iff.mp hstep
    rw [show Heeds s (.initializeSet e signos) ↔ _ from forall_event_iff hev]
    refine h.initialize_iff hev (nodup_foldl_insertSignal nodup_nil signos) (imp_congr_right fun _ => ?_)
    refine forall_congr' fun signo => ?_
    rw [mem_foldl_insertSignal, or_iff_left not_mem_nil]
  | initializeList e signos =>
    obtain ⟨ev, hev, rfl⟩ := Option.map_eq_some_iff.mp hstep
    rw [show Heeds s (.initializeList e signos) ↔ _ from forall_event_iff hev]
    refine h.initialize_iff hev (nodup_foldl_insertSignal (h.nodup e ev hev) signos) (imp_congr_right fun _ => ?_)
    refine forall_congr' fun signo => ?_
    rw [mem_foldl_insertSignal]
    exact or_iff_right_iff_imp.symm
  | enable e fd installs =>
    obtain ⟨hfresh, hstep⟩ := Option.ite_none_right_eq_some.mp hstep
    obtain ⟨ev, hev, rfl⟩ := Option.map_eq_some_iff.mp hstep
    obtain ⟨hheeds, hnot⟩ := h.enabled installs hev hfresh
    refine ⟨fun hcond => (hheeds hcond).1, fun hgood => ?_, fun hcond => (hheeds hcond).2⟩
    by_contra hcond
    exact hnot hcond hgood.books
  | disable e restores =>
    obtain ⟨ev, hev, rfl⟩ := Option.map_eq_some_iff.mp hstep
    rw [show Heeds s (.disable e restores) ↔ _ from forall_event_iff hev]
    refine h.disabled_iff hev ?_
    rintro ev' heq
    cases heq
    rfl
  | destroy e restores =>
    obtain ⟨ev, hev, rfl⟩ := Option.map_eq_some_iff.mp hstep
    rw [show Heeds s (.destroy e restores) ↔ _ from forall_event_iff hev]
    have hgone : s.destroy e ev restores =
        { (if ev.isEnabled then s.unsubscribeAll ev.wpLoop e restores ev.sigset else s).setEvent e none with
          returned := true } := by
      rw [destroy, disable, Signals.setEvent, Signals.setEvent]
      rw [update_idem]
      rfl
    rw [hgone]
    exact h.disabled_iff hev nofun

theorem kept_initial (original : Int → Nat) :
    Kept original ({ handlers := fun signo => .other (original signo) } : Signals n) := by
  refine ⟨⟨⟨⟨?_, ?_⟩, ?_⟩, ?_⟩, ?_, ?_, rfl, nofun, nofun⟩
  · intro signo fd
    exact iff_of_false (Finset.notMem_empty fd) (fun ⟨_, hpipe, _⟩ => nomatch hpipe)
  · exact fun _ => iff_of_true rfl rfl
  · exact fun _ => (if_pos rfl).symm
  · intro l signo e
    exact iff_of_false (Finset.notMem_empty _) (fun ⟨_, hev, _⟩ => nomatch hev)
  · exact fun _ hne => absurd rfl hne
  · exact fun _ _ hne => absurd rfl hne

/-- **The events, the loops and the process are in step** after every call of a run, and a call that fails has changed
nothing, if and only if every call is heeded. -/
theorem good_iff_heeds (original : Int → Nat) (as : List (Action n)) :
    Along step (fun s a => ∀ t, s.step a = some t → Good original s t)
        { handlers := fun signo => .other (original signo) } as ↔
      Along step Heeds { handlers := fun signo => .other (original signo) } as := by
  refine along_iff_along (I := Kept original) ?_ ?_ (kept_initial original)
  · intro s a t hs hheeds ht
    exact (hs.step ht).1 hheeds
  · intro s a t hs ht
    refine Iff.trans ?_ (hs.step ht).2
    constructor
    · exact fun hgood => hgood t ht
    · intro hgood t' ht'
      cases ht.symm.trans ht'
      exact hgood

def halfEnabled : List (Action 1) := [.newSignalEvent 0 0, .initializeSet 0 [2, 9], .enable 0 (some 5) (· ≠ 9)]

theorem halfEnabled_staysSubscribed :
    ¬Along step (fun s a => ∀ t, s.step a = some t → Good (fun _ => 0) s t) { handlers := fun _ => .other 0 }
      halfEnabled := by
  intro halong
  have hrun : ∃ s t : Signals 1, run step { handlers := fun _ => .other 0 } (halfEnabled.take 2) = some s ∧
      s.step (.enable 0 (some 5) (· ≠ 9)) = some t ∧ (2, 0) ∈ (t.loops 0).allSignalsSubscribers ∧
        (t.events 0).map SignalEvent.isEnabled = some false := by
    refine ⟨_, _, rfl, rfl, ?_, ?_⟩ <;> decide +kernel
  obtain ⟨s, t, hs, ht, hmem, hdisabled⟩ := hrun
  have hgood := (Along.append_right (show Along _ _ _ (halfEnabled.take 2 ++ [_]) from halong) hs t ht).1 t ht
  obtain ⟨ev, hev, -, henabled, -⟩ := (hgood.books.subscribers 0 2 0).mp hmem
  rw [hev] at hdisabled
  exact absurd ((Option.some.inj hdisabled).symm.trans henabled) Bool.false_ne_true

end Signals

end Tbox.Event
