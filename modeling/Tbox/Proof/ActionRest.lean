import Tbox.Proof.ActionStart
import Tbox.Lib.Run

/-!
# What has ended has nothing running below it

An action that is not under way should have no descendant under way. Stopping takes care of what is current, which is
enough where no other child is under way (`Focused`); finishing takes care of nothing, a composite action apart.
-/

open List Option

namespace Tbox.Flow.Action

variable {F : Forest} {w w' : World} {n m c p : ActionId} {depth : Nat}
  {leaves : ActionId → LeafStart} {busy : ActionId → Prop}

def RestedBut (F : Forest) (busy : ActionId → Prop) (w : World) : Prop :=
  ∀ c p, F.parent c = some p → (w.state c).isUnderway → (w.state p).isUnderway ∨ busy p

def Focused (F : Forest) (w : World) (m : ActionId) : Prop :=
  F.assembly m = .serial →
    ∀ c ∈ F.children m, (w.state c).isUnderway → (w.fields m).currAction = some c

instance : Decidable (Focused F w m) := inferInstanceAs (Decidable (_ → _))

def FocusedBelow (F : Forest) (w : World) (n : ActionId) : Prop :=
  ∀ m ∈ Lib.subtree F.children (n + 1) n, Focused F w m

instance : Decidable (FocusedBelow F w n) := inferInstanceAs (Decidable (∀ _ ∈ _, _))

theorem FocusedBelow.focused (h : FocusedBelow F w n) (hm : F.Below n m) : Focused F w m :=
  h m (Forest.mem_subtree.mpr hm)

theorem focusedBelow_of (h : ∀ m, F.Below n m → Focused F w m) : FocusedBelow F w n :=
  fun m hm => h m (Forest.mem_subtree.mp hm)

theorem FocusedBelow.child (h : FocusedBelow F w n) (hc : F.parent c = some n) : FocusedBelow F w c :=
  focusedBelow_of fun _ hm => h.focused (Lib.Below.of_child hm hc)

theorem Focused.slows (h : Focused F w m) (hslows : Slows w w') : Focused F w' m := by
  intro hserial c hc hup
  have hcurr := h hserial c hc (hslows.underway c hup)
  rcases hslows.currAction m with heq | ⟨-, hstopped⟩
  · rw [heq]
    exact hcurr
  · exact absurd hup (hstopped c hcurr)

theorem FocusedBelow.slows (h : FocusedBelow F w n) (hslows : Slows w w') : FocusedBelow F w' n :=
  fun m hm => (h m hm).slows hslows

namespace RestedBut

theorem of_underway (h : RestedBut F busy w)
    (heq : ∀ m, (w'.state m).isUnderway = (w.state m).isUnderway) : RestedBut F busy w' := by
  intro c p hc hup
  rw [heq] at hup ⊢
  exact h c p hc hup

theorem mono {busy' : ActionId → Prop} (h : RestedBut F busy w) (hbusy : ∀ m, busy m → busy' m) :
    RestedBut F busy' w :=
  fun c p hc hup => (h c p hc hup).imp id (hbusy p)

theorem done (h : RestedBut F (fun m => busy m ∨ m = n) w)
    (hn : (w.state n).isUnderway ∨ ∀ c, F.parent c = some n → ¬(w.state c).isUnderway) : RestedBut F busy w := by
  intro c p hc hup
  rcases h c p hc hup with hp | hbusy | rfl
  · exact .inl hp
  · exact .inr hbusy
  · rcases hn with hn | hn
    · exact .inl hn
    · exact absurd hup (hn c hc)

theorem ends (h : RestedBut F busy w) {f : Fields → Fields} (hended : (f (w.fields n)).state.isUnderway = false) :
    RestedBut F (fun m => busy m ∨ m = n) (w.modify n f) := by
  intro c p hc hup
  have hcn : c ≠ n := by
    rintro rfl
    rw [World.state_modify_self, hended] at hup
    cases hup
  rw [World.state_modify_of_ne hcn] at hup
  by_cases hpn : p = n
  · exact .inr (.inr hpn)
  · rw [World.state_modify_of_ne hpn]
    exact (h c p hc hup).imp id .inl

theorem rouses (h : RestedBut F busy w) {f : Fields → Fields}
    (hn : ∀ p, F.parent n = some p → (w.state p).isUnderway ∨ busy p)
    (hup : (f (w.fields n)).state.isUnderway) : RestedBut F busy (w.modify n f) := by
  intro c p hc hcup
  by_cases hpn : p = n
  · subst hpn
    rw [World.state_modify_self]
    exact .inl hup
  rw [World.state_modify_of_ne hpn]
  by_cases hcn : c = n
  · exact hn p (hcn ▸ hc)
  · rw [World.state_modify_of_ne hcn] at hcup
    exact h c p hc hcup

theorem of_reports {call : Call} {fin blk : RunId} (h : RestedBut F busy w)
    (hreports : Reports F n call fin blk w w') : RestedBut F busy w' :=
  h.of_underway fun m => by rw [hreports.state]

end RestedBut

namespace Forest

theorem rested_stopCurrAction {stopChild : ActionId → World → World} (hlinked : Linked F w)
    (hrest : RestedBut F busy w) (hstop : ∀ c, (w.fields n).currAction = some c → F.parent c = some n →
      RestedBut F busy (stopChild c w)) : RestedBut F busy (stopCurrAction stopChild n w) := by
  unfold stopCurrAction
  split
  · next c hc =>
      exact (hstop c hc (hlinked n c hc)).of_underway fun m => by rw [World.state_modify _ rfl]
  · exact hrest

theorem rested_stop (hlinked : Linked F w) (hn : n < depth) (hrest : RestedBut F busy w)
    (hfocused : FocusedBelow F w n) : RestedBut F busy (F.stop depth n w) := by
  induction depth generalizing n w busy with
  | zero => exact absurd hn (Nat.not_lt_zero n)
  | succ depth ih =>
    have hchild : ∀ c, F.parent c = some n → c < depth := fun c hc => child_lt_depth hn hc
    rw [stop]
    split
    · next hup =>
        have hslows : Slows w (w.modify n fun a => { a with state := .stoped }.disableTimer) :=
          .of_modify _ (.inr ⟨hup, .inr rfl⟩) rfl (.inl rfl) rfl rfl rfl rfl
        have hends : RestedBut F (fun m => busy m ∨ m = n)
            (w.modify n fun a => { a with state := .stoped }.disableTimer) := hrest.ends rfl
        have hcurr : ((w.modify n fun a =>
            { a with state := .stoped }.disableTimer).fields n).currAction
              = (w.fields n).currAction :=
          World.modify_apply Fields.currAction _ rfl n
        generalize w.modify n (fun a => { a with state := .stoped }.disableTimer) = v at *
        have hv := hslows.linked hlinked
        have hfv := hfocused.slows hslows
        unfold onStop
        split
        · next hnone => exact hends.done (.inr fun c hc => absurd hc (parent_ne_of_none hnone))
        · have hall : Linked F (World.forEach (F.stop depth) (F.children n) v) ∧
              FocusedBelow F (World.forEach (F.stop depth) (F.children n) v) n ∧
              RestedBut F (fun m => busy m ∨ m = n)
                (World.forEach (F.stop depth) (F.children n) v) := by
            refine World.forEach_induction (P := fun u => Linked F u ∧ FocusedBelow F u n ∧
              RestedBut F (fun m => busy m ∨ m = n) u) ?_ ⟨hv, hfv, hends⟩
            rintro c hc u ⟨hu, hfu, hru⟩
            have hcp := parent_of_mem hc
            have hslows := slows_stop hu (hchild c hcp)
            exact ⟨hslows.linked hu, hfu.slows hslows, ih hu (hchild c hcp) hru (hfu.child hcp)⟩
          have hdown : ∀ c ∈ F.children n, ¬((World.forEach (F.stop depth)
              (F.children n) v).state c).isUnderway := by
            refine World.forEach_establishes (P := fun u => Linked F u)
              (Q := fun c u => ¬(u.state c).isUnderway) ?_ ?_ ?_ hv
            · exact fun c hc u hu => (slows_stop hu (hchild c (parent_of_mem hc))).linked hu
            · exact fun c hc u hu => not_underway_stop hu (hchild c (parent_of_mem hc))
            · exact fun c _ d hd u hu hc hup => hc ((slows_stop hu (hchild d (parent_of_mem hd))).underway c hup)
          exact hall.2.2.done (.inr fun c hc => hdown c (mem_children.mpr hc))
        · next hserial =>
            have hcurrent : Slows v (stopCurrAction (F.stop depth) n v) :=
              slows_stopCurrAction fun c hc => stop_spec hv (hchild c (hv n c hc))
            have hrested : RestedBut F (fun m => busy m ∨ m = n)
                (stopCurrAction (F.stop depth) n v) :=
              rested_stopCurrAction hv hends fun c _ hc => ih hv (hchild c hc) hends (hfv.child hc)
            have hdown : ∀ c, F.parent c = some n →
                ¬((stopCurrAction (F.stop depth) n v).state c).isUnderway := by
              intro c hc hcup
              have hcv := hcurrent.underway c hcup
              have hcw := hfv.focused (Lib.Below.refl n) hserial c (mem_children.mpr hc) hcv
              unfold stopCurrAction at hcup
              rw [hcw] at hcup
              rw [World.state_modify _ rfl] at hcup
              exact not_underway_stop hv (hchild c hc) hcup
            exact (hrested.done (.inr hdown)).of_underway fun m => by rw [World.state_modify _ rfl]
    · exact hrest

theorem rested_reset (hn : n < depth) (hrest : RestedBut F busy w) : RestedBut F busy (F.reset depth n w) := by
  have hclears := clears_reset (F := F) (w := w) hn
  intro c p hc hup
  have hcidle : (F.reset depth n w).state c ≠ .idle := by
    intro h
    rw [h] at hup
    cases hup
  rw [hclears.state_eq hcidle] at hup
  rcases hrest c p hc hup with hp | hbusy
  · refine .inl ?_
    have hpidle : w.state p ≠ .idle := by
      intro h
      rw [h] at hp
      cases hp
    by_cases hreset : (F.reset depth n w).state p = .idle
    · exact absurd (reset_closed hn hc hpidle hreset) hcidle
    · rw [hclears.state_eq hreset]
      exact hp
  · exact .inr hbusy

theorem rested_resets {resets : List ActionId} (hresets : ∀ r ∈ resets, F.parent r = some n)
    (hrest : RestedBut F busy w) : RestedBut F busy (World.forEach (F.reset n) resets w) :=
  World.forEach_induction (P := fun v => RestedBut F busy v)
    (fun r hr _ hv => rested_reset (F.child_lt n r (hresets r hr)) hv) hrest

theorem rested_stopAllActions (hlinked : Linked F w) (hrest : RestedBut F busy w)
    (hfocused : ∀ c ∈ F.children n, FocusedBelow F w c) : RestedBut F busy (F.stopAllActions n w) := by
  have hall : Linked F (F.stopAllActions n w) ∧ RestedBut F busy (F.stopAllActions n w) ∧
      ∀ c ∈ F.children n, FocusedBelow F (F.stopAllActions n w) c := by
    refine World.forEach_induction (P := fun u => Linked F u ∧ RestedBut F busy u ∧
      ∀ c ∈ F.children n, FocusedBelow F u c) ?_ ⟨hlinked, hrest, hfocused⟩
    rintro c hc u ⟨hu, hru, hfu⟩
    have hslows := slows_stop hu (lt_of_mem hc)
    exact ⟨hslows.linked hu, rested_stop hu (lt_of_mem hc) hru (hfu c hc), fun d hd => (hfu d hd).slows hslows⟩
  exact hall.2.1

theorem slows_stopAllActions (hlinked : Linked F w) : Slows w (F.stopAllActions n w) := by
  have hall : Linked F (F.stopAllActions n w) ∧ Slows w (F.stopAllActions n w) := by
    refine World.forEach_induction (P := fun u => Linked F u ∧ Slows w u) ?_ ⟨hlinked, .refl w⟩
    rintro c hc u ⟨hu, hslows⟩
    have hstop := slows_stop hu (lt_of_mem hc)
    exact ⟨hstop.linked hu, hslows.trans hstop⟩
  exact hall.2

theorem stopAllActions_down (hlinked : Linked F w) (hc : F.parent c = some n) :
    ¬((F.stopAllActions n w).state c).isUnderway := by
  refine World.forEach_establishes (P := fun u => Linked F u)
    (Q := fun c u => ¬(u.state c).isUnderway) ?_ ?_ ?_ hlinked c (mem_children.mpr hc)
  · exact fun c hc u hu => (slows_stop hu (lt_of_mem hc)).linked hu
  · exact fun c hc u hu => not_underway_stop hu (lt_of_mem hc)
  · exact fun c _ d hd u hu hc hup => hc ((slows_stop hu (lt_of_mem hd)).underway c hup)

def CanFinish (F : Forest) (w : World) (n : ActionId) : Prop :=
  w.state n = .finished ∨ w.state n = .stoped ∨
    ∀ c ∈ F.children n, (w.state c).isUnderway →
      F.kind n = .composite c ∧ (w.fields n).currAction = some c ∧ FocusedBelow F w c

instance : Decidable (F.CanFinish w n) :=
  inferInstanceAs (Decidable (_ ∨ _ ∨ ∀ _ ∈ _, _ → _))

theorem rested_finish (hlinked : Linked F w) (hrest : RestedBut F busy w) (hcan : F.CanFinish w n)
    (isSucc : Bool) (why : Reason) : RestedBut F busy (F.finish n isSucc why w) := by
  rcases finish_cases hlinked isSucc why with ⟨-, heq⟩ | ⟨⟨hfin, hstop⟩, hslows, -, heq⟩
  · rw [heq]
    exact hrest
  have hchildren := (hcan.resolve_left hfin).resolve_left hstop
  have hends : RestedBut F (fun m => busy m ∨ m = n)
      (w.modify n fun a => { a with state := .finished }.disableTimer) := hrest.ends rfl
  have hlinked' := linked_ended (n := n) hlinked
  have hfocus : ∀ c, FocusedBelow F w c → FocusedBelow F
      (w.modify n fun a => { a with state := .finished }.disableTimer) c := by
    intro c h m hm hserial d hd hup
    rw [World.modify_apply Fields.currAction _ rfl]
    refine h m hm hserial d hd ?_
    by_cases hdn : d = n
    · subst hdn
      rw [World.state_modify_self] at hup
      cases hup
    · rwa [World.state_modify_of_ne hdn] at hup
  have hdown : ∀ c, F.parent c = some n → ((F.ending n w).state c).isUnderway → False := by
    intro c hc hup
    have hcn : c ≠ n := (F.child_lt n c hc).ne
    have hcw := hslows.underway c hup
    rw [World.state_modify_of_ne hcn] at hcw
    obtain ⟨hkind, hcurr, -⟩ := hchildren c (mem_children.mpr hc) hcw
    have hcurr' : ((w.modify n fun a =>
        { a with state := .finished }.disableTimer).fields n).currAction = some c := by
      rw [World.modify_apply Fields.currAction _ rfl]
      exact hcurr
    unfold ending at hup
    rw [hkind] at hup
    dsimp only at hup
    unfold stopCurrAction at hup
    rw [hcurr'] at hup
    rw [World.state_modify _ rfl] at hup
    exact not_underway_stop hlinked' (F.child_lt n c hc) hup
  have hending : RestedBut F (fun m => busy m ∨ m = n) (F.ending n w) := by
    unfold ending
    split
    · next child hkind =>
        refine rested_stopCurrAction hlinked' hends fun c hcurr hc => ?_
        by_cases hup : ((w.modify n fun a =>
            { a with state := .finished }.disableTimer).state c).isUnderway
        · have hcn : c ≠ n := (F.child_lt n c hc).ne
          rw [World.state_modify_of_ne hcn] at hup
          obtain ⟨-, -, hfocused⟩ := hchildren c (mem_children.mpr hc) hup
          exact rested_stop hlinked' (F.child_lt n c hc) hends (hfocus c hfocused)
        · rw [stop_of_not_underway hup]
          exact hends
    · exact hends
  rw [heq]
  exact (hending.done (.inr hdown)).of_reports (reports_dispatchFinish isSucc why).1

theorem rested_block (hrest : RestedBut F busy w)
    (hn : ∀ p, F.parent n = some p → (w.state p).isUnderway ∨ busy p) (why : Reason) :
    RestedBut F busy (F.block n why w) := by
  rcases block_cases (F := F) (w := w) (n := n) why with ⟨-, heq⟩ | ⟨-, heq⟩
  · rw [heq]
    exact hrest
  · rw [heq]
    exact (hrest.rouses hn rfl).of_reports (reports_onBlock why)

end Forest

/-- Nothing is under way in the subtree. -/
def Quiet (F : Forest) (w : World) (n : ActionId) : Prop :=
  ∀ m, F.Below n m → ¬(w.state m).isUnderway

namespace Quiet

theorem focused (h : Quiet F w n) : FocusedBelow F w n := by
  refine focusedBelow_of fun m hm _ c hc hup => ?_
  exact absurd hup (h c (Lib.Below.trans (Lib.Below.of_parent (Forest.parent_of_mem hc)) hm))

theorem child (h : Quiet F w n) (hc : F.parent c = some n) : Quiet F w c := fun m hm => h m (Lib.Below.of_child hm hc)

theorem of_underway (h : Quiet F w n)
    (hsub : ∀ m, F.Below n m → (w'.state m).isUnderway → (w.state m).isUnderway) : Quiet F w' n :=
  fun m hm hup => h m hm (hsub m hm hup)

theorem canFinish (h : Quiet F w n) : F.CanFinish w n := by
  refine .inr (.inr fun c hc hup => ?_)
  exact absurd hup (h c (Lib.Below.of_parent (Forest.parent_of_mem hc)))

theorem sibling (h : Quiet F w c) {d : ActionId} (hlocal : Local F d w w')
    (hd : F.parent d = some n) (hc : F.parent c = some n) (hne : d ≠ c) : Quiet F w' c := by
  refine h.of_underway fun m hm hup => ?_
  rwa [World.state, hlocal.sibling hd hc hne hm] at hup

theorem of_rested (hrest : RestedBut F busy w) (hfree : ∀ m, F.Below n m → ¬busy m)
    (hn : ¬(w.state n).isUnderway) : Quiet F w n := by
  intro m hm
  induction hm using Relation.ReflTransGen.head_induction_on with
  | refl => exact hn
  | head hstep hrest' ih =>
    intro hup
    rcases hrest _ _ hstep hup with hp | hbusy
    · exact ih hp
    · exact hfree _ hrest' hbusy

theorem finish (h : Quiet F w n) (hlinked : Linked F w) (isSucc : Bool) (why : Reason) :
    Quiet F (F.finish n isSucc why w) n := by
  rcases Forest.finish_cases hlinked isSucc why with ⟨-, heq⟩ | ⟨-, hslows, -, heq⟩
  · rw [heq]
    exact h
  rw [heq]
  obtain ⟨hreports, -⟩ := Forest.reports_dispatchFinish (F := F) (w := F.ending n w) (n := n) isSucc why
  refine h.of_underway fun m _ hup => ?_
  rw [hreports.state] at hup
  have hended := hslows.underway m hup
  by_cases hmn : m = n
  · subst hmn
    rw [World.state_modify_self] at hended
    cases hended
  · rwa [World.state_modify_of_ne hmn] at hended

end Quiet

namespace Forest

theorem start_eq_self (h : (F.start leaves depth n w).1 = false) : (F.start leaves depth n w).2 = w := by
  cases depth with
  | zero => rfl
  | succ depth =>
    rw [start] at h ⊢
    split at h
    · cases h
    · dsimp only at h
      split at h <;> cases h
    · rfl

theorem onStart_resets (kind : Kind) (a : Fields) {resets : List ActionId} {child : ActionId}
    {ifFails : Option (Bool × Reason)} (h : (kind.onStart a).2 = .start resets child ifFails) : resets = [] := by
  cases kind with
  | sequence mode children =>
    simp only [Kind.onStart, Sequence.onStart, Sequence.startOtheriseFinish] at h
    split at h <;> cases h
    rfl
  | ifThen ifThenActions =>
    simp only [Kind.onStart, IfThen.onStart, IfThen.doStart] at h
    split at h <;> cases h
    rfl
  | leaf => cases h
  | parallel mode children => cases h
  | _ =>
    cases h
    rfl

end Forest

/-- What `onStart` is given: an idle action at rest with all below it, under a parent that is under
way or starting. -/
structure Ready (F : Forest) (busy : ActionId → Prop) (n : ActionId) (w : World) : Prop where
  sane : Sane F busy w
  rested : RestedBut F busy w
  quiet : Quiet F w n
  parent : ∀ p, F.parent n = some p → (w.state p).isUnderway ∨ busy p

/-- One child of each serial action in the subtree is under way at most, and none where the action has ended. -/
structure Settled (F : Forest) (busy : ActionId → Prop) (n : ActionId) (w : World) : Prop where
  rested : RestedBut F busy w
  focused : FocusedBelow F w n
  ended : w.state n = .idle ∨ (w.state n).isUnderway ∨
    ∀ c, F.parent c = some n → ¬(w.state c).isUnderway

theorem Ready.quiet_settled (h : Quiet F w n) (hrest : RestedBut F busy w) :
    Settled F busy n w where
  rested := hrest
  focused := h.focused
  ended := .inr (.inr fun c hc => h c (Lib.Below.of_parent hc))

theorem Ready.finish (h : Ready F busy n w) (isSucc : Bool) (why : Reason) :
    Settled F busy n (F.finish n isSucc why w) :=
  Ready.quiet_settled (h.quiet.finish h.sane.linked isSucc why)
    (Forest.rested_finish h.sane.linked h.rested h.quiet.canFinish isSucc why)

theorem Ready.block (h : Ready F busy n w) (why : Reason) : Settled F busy n (F.block n why w) := by
  have hrested := Forest.rested_block h.rested h.parent why
  rcases Forest.block_cases (F := F) (w := w) (n := n) why with ⟨-, heq⟩ | ⟨-, heq⟩
  · rw [heq]
    exact Ready.quiet_settled h.quiet h.rested
  have hstate : ∀ m, (F.block n why w).state m
      = (w.modify n fun a => { a with state := .pause }).state m := by
    rw [heq]
    exact (Forest.reports_onBlock why).state
  refine ⟨hrested, focusedBelow_of fun m hm _ c hc hup => ?_, .inr (.inl ?_)⟩
  · have hcm := Forest.parent_of_mem hc
    have hcn : c ≠ n := by
      rintro rfl
      exact Lib.Below.not_parent Forest.rank_lt hcm hm
    rw [hstate, World.state_modify_of_ne hcn] at hup
    exact absurd hup (h.quiet c (Lib.Below.trans (Lib.Below.of_parent hcm) hm))
  · rw [hstate, World.state_modify_self]
    rfl

structure StartsChildren (F : Forest) (busy : ActionId → Prop) (n : ActionId)
    (startChild : ActionId → World → Bool × World) : Prop where
  frames : FramesChildren F busy n startChild
  settles : ∀ c, F.parent c = some n → ∀ v, Ready F busy c v →
    RestedBut F busy (startChild c v).2 ∧ FocusedBelow F (startChild c v).2 c
  fails : ∀ c v, (startChild c v).1 = false → (startChild c v).2 = v

section Start

variable {startChild : ActionId → World → Bool × World}

theorem Ready.startThisAction (h : Ready F busy n w) (hstart : StartsChildren F busy n startChild)
    (hbusy : busy n) (hc : F.parent c = some n) (hidle : w.state n = .idle) :
    Settled F busy n (Forest.startThisAction startChild n c w).2 ∧
      ((Forest.startThisAction startChild n c w).1 = false → (Forest.startThisAction startChild n c w).2 = w) := by
  have hready : Ready F busy c w := by
    refine ⟨h.sane, h.rested, h.quiet.child hc, fun p hp => .inr ?_⟩
    exact some.inj (hc.symm.trans hp) ▸ hbusy
  obtain ⟨hrested, hfocused⟩ := hstart.settles c hc w hready
  have hlocal := (hstart.frames c hc w h.sane).1
  unfold Forest.startThisAction
  dsimp only
  split
  · dsimp only
    have hstate : ∀ m, ((startChild c w).2.modify n fun a =>
        { a with currAction := some c }).state m = (startChild c w).2.state m :=
      World.state_modify _ rfl
    refine ⟨⟨hrested.of_underway fun m => by rw [hstate], ?_, .inl ?_⟩, nofun⟩
    · refine focusedBelow_of fun m hm hserial d hd hup => ?_
      rw [hstate] at hup
      have hdm := Forest.parent_of_mem hd
      have hbelow : F.Below c d := by
        by_contra hout
        rw [World.state, hlocal d hout] at hup
        exact h.quiet d (Lib.Below.trans (Lib.Below.of_parent hdm) hm) hup
      by_cases hmn : m = n
      · subst hmn
        rw [World.modify_fields_self, Lib.Below.eq_of_sibling Forest.rank_lt hc hdm hbelow]
      rw [World.modify_fields_of_ne hmn]
      have hdc : d ≠ c := by
        rintro rfl
        exact hmn (some.inj (hdm.symm.trans hc))
      exact hfocused.focused (hbelow.parent_of_ne hdc hdm) hserial d hd hup
    · rw [hstate, World.state, hlocal.parent hc]
      exact hidle
  · next hfalse =>
      have hself := hstart.fails c w (by simpa using hfalse)
      refine ⟨?_, fun _ => hself⟩
      rw [hself]
      exact Ready.quiet_settled h.quiet h.rested

theorem Ready.counters (h : Ready F busy n w) {next : Fields × Next}
    (hnext : Advances (F.children n) (w.fields n) next) : Ready F busy n (w.modify n fun _ => next.1) := by
  obtain ⟨i, r, hfields⟩ := hnext.fields
  have hstate : ∀ m, (w.modify n fun _ => next.1).state m = w.state m := World.state_modify _ (by rw [hfields]; rfl)
  refine ⟨(Forest.framed_counters hnext h.sane).2, h.rested.of_underway fun m => by rw [hstate],
    h.quiet.of_underway fun m _ hup => by rwa [hstate] at hup, fun p hp => ?_⟩
  rw [hstate]
  exact h.parent p hp

theorem Ready.proceed (h : Ready F busy n w) (hstart : StartsChildren F busy n startChild)
    (hbusy : busy n) (hidle : w.state n = .idle) (kind : Kind) (hkind : F.kind n = kind) :
    Settled F busy n (F.proceed startChild n (kind.onStart (w.fields n)) w) := by
  have hnext : Advances (F.children n) (w.fields n) (kind.onStart (w.fields n)) := by
    rw [Forest.children, hkind]
    exact Kind.advances_onStart kind _
  have hcounted := h.counters hnext
  have hidle' : (w.modify n fun _ => (kind.onStart (w.fields n)).1).state n = .idle := by
    obtain ⟨i, r, hfields⟩ := hnext.fields
    rw [World.state_modify_self, hfields]
    exact hidle
  unfold Forest.proceed
  dsimp only
  generalize (w.modify n fun _ => (kind.onStart (w.fields n)).1) = v at hcounted hidle' ⊢
  split
  · exact hcounted.finish _ _
  · exact Ready.quiet_settled hcounted.quiet hcounted.rested
  next resets child ifFails heq =>
    obtain ⟨hchild, -⟩ := hnext.within resets child ifFails heq
    obtain rfl := Forest.onStart_resets kind _ heq
    obtain ⟨hsettled, hfails⟩ := hcounted.startThisAction hstart hbusy (Forest.parent_of_mem hchild) hidle'
    rw [World.forEach]
    split
    · next hfalse =>
        rw [hfails hfalse]
        exact hcounted.finish _ _
    · exact hsettled

/-- In the loop of `ParallelAction::onStart`: the children that are left, and those that would not start, are at rest.
-/
structure Starting (F : Forest) (busy : ActionId → Prop) (n : ActionId)
    (left : List (ActionId × Nat)) (w : World) : Prop where
  sane : Sane F busy w
  rested : RestedBut F busy w
  idle : w.state n = .idle
  parent : ∀ p, F.parent n = some p → (w.state p).isUnderway ∨ busy p
  focused : ∀ c ∈ F.children n, FocusedBelow F w c
  quiet : ∀ item ∈ left, Quiet F w item.1
  nodup : (w.fields n).recorded.Nodup
  recorded : ∀ i ∈ (w.fields n).recorded, ∃ c, (F.children n)[i]? = some c ∧
    c ∉ left.map Prod.fst ∧ Quiet F w c

structure Abandoned (F : Forest) (busy : ActionId → Prop) (n : ActionId) (w : World) : Prop where
  rested : RestedBut F busy w
  focused : ∀ c ∈ F.children n, FocusedBelow F w c
  down : ∀ c, F.parent c = some n → ¬(w.state c).isUnderway

theorem Starting.abandon {left : List (ActionId × Nat)} (h : Starting F busy n left w)
    (hbusy : busy n) (hkind : F.assembly n = .parallel) :
    Abandoned F busy n (F.stopAllActions n (F.finish n true {} w)) := by
  have hcomposite := Forest.not_composite (F := F) (n := n) (by rw [hkind]; nofun)
  have hfields : ∀ m, m ≠ n → (F.finish n true {} w).fields m = w.fields m := fun m hm =>
    Forest.finish_fields_of_ne hcomposite hm true {}
  have hn : (F.finish n true {} w).state n = .finished :=
    Forest.finish_state h.sane.linked (by rw [h.idle]; exact ⟨nofun, nofun⟩) true {}
  have hlinked := (Forest.framed_finish (n := n) true {} h.sane).2.linked
  have hrested : RestedBut F busy (F.finish n true {} w) := by
    intro c p hc hup
    have hcn : c ≠ n := by
      rintro rfl
      rw [hn] at hup
      cases hup
    by_cases hpn : p = n
    · exact .inr (hpn ▸ hbusy)
    · rw [World.state, hfields c hcn] at hup
      rw [World.state, hfields p hpn]
      exact h.rested c p hc hup
  have hfocused : ∀ c ∈ F.children n, FocusedBelow F (F.finish n true {} w) c := by
    intro c hc
    have hcp := Forest.parent_of_mem hc
    refine focusedBelow_of fun m hm hserial d hd hup => ?_
    have hdm := Forest.parent_of_mem hd
    have hout : ¬F.Below c n := Lib.Below.not_parent Forest.rank_lt hcp
    have hmn : m ≠ n := fun heq => hout (heq ▸ hm)
    have hdn : d ≠ n := fun heq => hout (heq ▸ Lib.Below.trans (Lib.Below.of_parent hdm) hm)
    rw [World.state, hfields d hdn] at hup
    rw [hfields m hmn]
    exact (h.focused c hc).focused hm hserial d hd hup
  have hslows := Forest.slows_stopAllActions (F := F) (n := n) hlinked
  exact ⟨Forest.rested_stopAllActions hlinked hrested hfocused,
    fun c hc => (hfocused c hc).slows hslows, fun c hc => Forest.stopAllActions_down hlinked hc⟩

theorem Starting.startChildren (hstart : StartsChildren F busy n startChild) (hbusy : busy n)
    (mode : Mode) {left : List (ActionId × Nat)} (hnodup : (left.map Prod.fst).Nodup)
    (hleft : ∀ item ∈ left, (F.children n)[item.2]? = some item.1)
    (hkind : F.assembly n = .parallel) (h : Starting F busy n left w) :
    if (F.startChildren startChild n mode left w).1 then
      Abandoned F busy n (F.startChildren startChild n mode left w).2
    else Starting F busy n [] (F.startChildren startChild n mode left w).2 := by
  induction left generalizing w with
  | nil => exact h
  | cons item rest ih =>
    obtain ⟨c, index⟩ := item
    have hget : (F.children n)[index]? = some c := hleft _ mem_cons_self
    have hc : F.parent c = some n := Forest.parent_of_mem (mem_of_getElem? hget)
    rw [map_cons] at hnodup
    obtain ⟨hnotin, hrestNodup⟩ := nodup_cons.mp hnodup
    have hready : Ready F busy c w :=
      ⟨h.sane, h.rested, h.quiet _ mem_cons_self, fun p hp => .inr (some.inj (hc.symm.trans hp) ▸ hbusy)⟩
    obtain ⟨hlocal, hsane⟩ := hstart.frames c hc w h.sane
    obtain ⟨hrested, hfocused⟩ := hstart.settles c hc w hready
    have hne : ∀ item ∈ rest, c ≠ item.1 := by
      intro item hitem heq
      exact hnotin (List.mem_map.mpr ⟨item, hitem, heq.symm⟩)
    have hn : (startChild c w).2.fields n = w.fields n := hlocal.parent hc
    have hnext : Starting F busy n rest (startChild c w).2 := by
      refine ⟨hsane, hrested, ?_, fun p hp => ?_, fun d hd => ?_, fun item hitem => ?_, ?_, ?_⟩
      · rw [World.state, hn]
        exact h.idle
      · have hpc : ¬F.Below c p := fun hbelow =>
          Lib.Below.not_parent Forest.rank_lt hp (Lib.Below.of_child hbelow hc)
        rw [World.state, hlocal p hpc]
        exact h.parent p hp
      · by_cases hcd : c = d
        · exact hcd ▸ hfocused
        refine focusedBelow_of fun m hm hserial e he hup => ?_
        have hdp := Forest.parent_of_mem hd
        have hem := Forest.parent_of_mem he
        have hde : F.Below d e := Lib.Below.trans (Lib.Below.of_parent hem) hm
        rw [World.state, hlocal.sibling hc hdp hcd hde] at hup
        rw [hlocal.sibling hc hdp hcd hm]
        exact (h.focused d hd).focused hm hserial e he hup
      · have hmem : item ∈ (c, index) :: rest := mem_cons_of_mem _ hitem
        have hitemp := Forest.parent_of_mem (mem_of_getElem? (hleft item hmem))
        exact (h.quiet item hmem).sibling hlocal hc hitemp (hne item hitem)
      · rw [hn]
        exact h.nodup
      intro i hi
      rw [hn] at hi
      obtain ⟨d, hd, hdleft, hdquiet⟩ := h.recorded i hi
      rw [map_cons, mem_cons, not_or] at hdleft
      have hdp := Forest.parent_of_mem (mem_of_getElem? hd)
      exact ⟨d, hd, hdleft.2, hdquiet.sibling hlocal hc hdp (Ne.symm hdleft.1)⟩
    have hrestLeft : ∀ item ∈ rest, (F.children n)[item.2]? = some item.1 :=
      fun item hitem => hleft item (mem_cons_of_mem _ hitem)
    rw [Forest.startChildren]
    split
    · exact ih hrestNodup hrestLeft hnext
    next hfalse =>
      have hself := hstart.fails c w (by simpa using hfalse)
      have hquiet : Quiet F (startChild c w).2 c := by
        rw [hself]
        exact h.quiet _ mem_cons_self
      generalize (startChild c w).2 = v at hnext hquiet ⊢
      have hstate : ∀ m, (v.modify n fun a => a.setFinished index false).state m = v.state m :=
        World.state_modify _ rfl
      have hcurr : ∀ m, ((v.modify n fun a =>
          a.setFinished index false).fields m).currAction = (v.fields m).currAction :=
        World.modify_apply Fields.currAction _ rfl
      have hfocusedNoted : ∀ d ∈ F.children n, FocusedBelow F (v.modify n fun a => a.setFinished index false) d := by
        intro d hd m hm hserial e he hup
        rw [hcurr]
        exact hnext.focused d hd m hm hserial e he (hstate e ▸ hup)
      have hnoted : Starting F busy n rest
          (v.modify n fun a => a.setFinished index false) := by
        refine ⟨hnext.sane.modify (hnext.sane.linked n) rfl rfl (.inl rfl)
            fun hn => absurd hbusy hn,
          hnext.rested.of_underway fun m => by rw [hstate], (hstate n).trans hnext.idle,
          fun p hp => (hstate p).symm ▸ hnext.parent p hp, hfocusedNoted,
          fun item hitem => (hnext.quiet item hitem).of_underway fun m _ hup => hstate m ▸ hup,
          ?_, fun i hi => ?_⟩
        · rw [World.modify_fields_self]
          exact Fields.nodup_recorded_setFinished hnext.nodup index false
        rw [World.modify_fields_self, Fields.mem_recorded_setFinished] at hi
        rcases hi with rfl | hi
        · exact ⟨c, hget, hnotin, hquiet.of_underway fun m _ hup => hstate m ▸ hup⟩
        · obtain ⟨d, hd, hdleft, hdquiet⟩ := hnext.recorded i hi
          exact ⟨d, hd, hdleft, hdquiet.of_underway fun m _ hup => hstate m ▸ hup⟩
      split
      · exact hnoted.abandon hbusy hkind
      · exact ih hrestNodup hrestLeft hnoted

theorem focusedBelow_of_children (hn : F.assembly n ≠ .serial)
    (h : ∀ c ∈ F.children n, FocusedBelow F w c) : FocusedBelow F w n := by
  refine focusedBelow_of fun m hm => ?_
  rcases hm.eq_or_child with rfl | ⟨c, hc, hmc⟩
  · exact fun hserial => absurd hserial hn
  · exact (h c (Forest.mem_children.mpr hc)).focused hmc

theorem Ready.parallel (h : Ready F busy n w) (hstart : StartsChildren F busy n startChild)
    (hbusy : busy n) (hidle : w.state n = .idle) (hblank : (w.fields n).finishedChildren = [])
    {mode : Mode} {children : List ActionId} (hkind : F.kind n = .parallel mode children) :
    Settled F busy n (Forest.Parallel.onStart F startChild n mode children w) := by
  have hassembly : F.assembly n = .parallel := by
    rw [Forest.assembly, hkind]
    rfl
  have hchildren : F.children n = children := by
    rw [Forest.children, hkind]
    rfl
  have hrecorded : (w.fields n).recorded = [] := by rw [Fields.recorded, hblank, map_nil]
  have hinit : Starting F busy n children.zipIdx w := by
    refine ⟨h.sane, h.rested, hidle, h.parent, fun c hc => ?_, fun item hitem => ?_, ?_, ?_⟩
    · exact (h.quiet.child (Forest.parent_of_mem hc)).focused
    · exact h.quiet.child (Forest.parent_of_mem (Forest.mem_children_of_parallel hkind item hitem))
    · rw [hrecorded]
      exact .nil
    · rw [hrecorded]
      exact fun i hi => absurd hi not_mem_nil
  have hloop := hinit.startChildren hstart hbusy mode
    (by rw [zipIdx_map_fst, ← hchildren]; exact F.nodup n)
    (fun item hitem => by rw [hchildren]; exact mem_zipIdx_iff_getElem?.mp hitem) hassembly
  unfold Forest.Parallel.onStart
  generalize F.startChildren startChild n mode children.zipIdx w = left at hloop ⊢
  have hserial : F.assembly n ≠ .serial := by
    rw [hassembly]
    simp
  split at hloop
  · next hleft =>
      rw [if_pos hleft]
      exact ⟨hloop.rested, focusedBelow_of_children hserial hloop.focused, .inr (.inr hloop.down)⟩
  next hleft =>
    rw [if_neg hleft]
    split
    · next hfull =>
        have hlt : ∀ i ∈ (left.2.fields n).recorded, i < children.length := by
          intro i hi
          obtain ⟨c, hc, -⟩ := hloop.recorded i hi
          rw [hchildren] at hc
          exact (List.getElem?_eq_some_iff.mp hc).1
        have hall := (Fields.length_eq_iff hloop.nodup hlt).mp hfull
        have hquiet : Quiet F left.2 n := by
          intro m hm
          rcases hm.eq_or_child with rfl | ⟨c, hc, hmc⟩
          · rw [hloop.idle]
            exact Bool.false_ne_true
          have hmem := Forest.mem_children.mpr hc
          rw [hchildren] at hmem
          obtain ⟨i, hi, rfl⟩ := getElem_of_mem hmem
          obtain ⟨d, hd, -, hdquiet⟩ := hloop.recorded i (hall i hi)
          rw [hchildren, getElem?_eq_getElem hi] at hd
          rw [some.inj hd] at hmc
          exact hdquiet m hmc
        exact Ready.finish { hloop with quiet := hquiet } true {}
    · exact ⟨hloop.rested, focusedBelow_of_children hserial hloop.focused, .inl hloop.idle⟩

theorem Ready.onStart (h : Ready F busy n w) (hstart : StartsChildren F busy n startChild)
    (hbusy : busy n) (hidle : w.state n = .idle)
    (hblank : F.assembly n = .parallel → (w.fields n).finishedChildren = []) :
    Settled F busy n (F.onStart startChild leaves n w) := by
  unfold Forest.onStart
  split
  · have hrecord : Ready F busy n (w.record (.started n)) :=
      { h with sane := h.sane.slows (.record (.started n)) }
    split
    · exact Ready.quiet_settled hrecord.quiet hrecord.rested
    · exact hrecord.finish _ _
    · exact hrecord.block _
  · next mode children hkind =>
      refine h.parallel hstart hbusy hidle (hblank ?_) hkind
      rw [Forest.assembly, hkind]
      rfl
  · next hleaf hparallel => exact h.proceed hstart hbusy hidle _ rfl

end Start

/-- **Starting.** An action at rest is started without leaving anything under way below an ended one. -/
theorem Forest.settled_start (h : Ready F busy n w) (hn : n < depth) (hfree : ∀ m, F.Below n m → ¬busy m) :
    RestedBut F busy (F.start leaves depth n w).2 ∧ FocusedBelow F (F.start leaves depth n w).2 n := by
  induction depth generalizing busy n w with
  | zero => exact absurd hn (Nat.not_lt_zero n)
  | succ depth ih =>
    have hbusy : ∀ m, busy m → busy m ∨ m = n := fun m hm => .inl hm
    have hready : Ready F (fun m => busy m ∨ m = n) n w :=
      ⟨h.sane.mono hbusy, h.rested.mono hbusy, h.quiet, fun p hp => (h.parent p hp).imp id .inl⟩
    have hstart : StartsChildren F (fun m => busy m ∨ m = n) n (F.start leaves depth) := by
      refine ⟨framesChildren_start, fun c hc v hv => ?_, fun c v hv => start_eq_self hv⟩
      refine ih hv (Forest.child_lt_depth hn hc) fun m hm => ?_
      rintro (hm' | rfl)
      · exact hfree m (Lib.Below.of_child hm hc) hm'
      · exact Lib.Below.not_parent rank_lt hc hm
    rw [start]
    split
    · exact ⟨h.rested, h.quiet.focused⟩
    · next hidle =>
        have hsettled : Settled F (fun m => busy m ∨ m = n) n
            (F.onStart (F.start leaves depth) leaves n w) :=
          hready.onStart hstart (.inr rfl) hidle
            fun hkind => h.sane.blank n (hfree n (Lib.Below.refl n)) hkind hidle
        have hlocal : Local F n w (F.onStart (F.start leaves depth) leaves n w) :=
          (framed_onStart hstart.frames (.inr rfl) hready.sane).1
        dsimp only
        generalize F.onStart (F.start leaves depth) leaves n w = v at hsettled hlocal ⊢
        split
        · dsimp only
          have hparent : ∀ p, F.parent n = some p →
              (v.state p).isUnderway ∨ busy p ∨ p = n := by
            intro p hp
            rw [World.state, hlocal p (Lib.Below.not_parent rank_lt hp)]
            exact hready.parent p hp
          refine ⟨(hsettled.rested.rouses hparent rfl).done (.inl ?_),
            focusedBelow_of fun m hm hserial d hd hup => ?_⟩
          · rw [World.state_modify_self]
            rfl
          have hdm := parent_of_mem hd
          have hdn : d ≠ n := by
            rintro rfl
            exact Lib.Below.not_parent rank_lt hdm hm
          rw [World.state_modify_of_ne hdn] at hup
          rw [World.modify_apply Fields.currAction _ rfl]
          exact hsettled.focused.focused hm hserial d hd hup
        · next hvidle =>
            exact ⟨hsettled.rested.done (hsettled.ended.resolve_left hvidle), hsettled.focused⟩
    · exact ⟨h.rested, h.quiet.focused⟩

namespace Forest

def CanRouse (F : Forest) (w : World) (n : ActionId) : Prop :=
  w.state n = .idle → ∀ p ∈ F.parent n, (w.state p).isUnderway

instance : Decidable (F.CanRouse w n) := inferInstanceAs (Decidable (_ → ∀ _ ∈ _, _))

/-- `startThisAction` would not start the child. -/
def WontStart (w : World) (resets : List ActionId) (child : ActionId) : Prop :=
  child ∉ resets ∧ w.state child ≠ .idle ∧ w.state child ≠ .running

instance {resets : List ActionId} : Decidable (WontStart w resets c) :=
  inferInstanceAs (Decidable (_ ∧ _))

def CanProceed (F : Forest) (w : World) (n : ActionId) : Next → Prop
  | .finish _ _ => ∀ c ∈ F.children n, ¬(w.state c).isUnderway
  | .start resets child ifFails =>
    ifFails.isSome → WontStart w resets child → ∀ c ∈ F.children n, ¬(w.state c).isUnderway
  | .outOfRange => True

instance : ∀ next, Decidable (F.CanProceed w n next)
  | .finish _ _ => inferInstanceAs (Decidable (∀ _ ∈ _, _))
  | .start _ _ _ => inferInstanceAs (Decidable (_ → _ → ∀ _ ∈ _, _))
  | .outOfRange => .isTrue trivial

def CanHandle (F : Forest) (w : World) (n child : ActionId) (isSucc : Bool) (why : Reason) : Prop :=
  w.state n = .running → F.CanProceed w n
    ((F.kind n).onChildFinished { w.fields n with currAction := none } child isSucc why).2

def CanRecord (F : Forest) (w : World) (n : ActionId) (mode : Mode) (children : List ActionId)
    (index : Nat) (isSucc : Bool) : Prop :=
  w.state n = .running →
    if (mode = .anySucc ∧ isSucc) ∨ (mode = .anyFail ∧ !isSucc) then
      ∀ c ∈ children, FocusedBelow F w c
    else
      ((w.fields n).setFinished index isSucc).finishedChildren.length = children.length →
        ∀ c ∈ children, ¬(w.state c).isUnderway

def CanInvoke (F : Forest) (w : World) : Call → Prop
  | .finished child isSucc why => ∀ p ∈ F.parent child,
      match F.kind p with
      | .parallel mode children => F.CanRecord w p mode children (children.idxOf child) isSucc
      | _ => F.CanHandle w p child isSucc why
  | .blocked child _ => ∀ p ∈ F.parent child, F.assembly p = .parallel ∨ F.CanRouse w p
  | .childFinishFunc n (.handle child isSucc why) => F.CanHandle w n child isSucc why
  | .childFinishFunc n (.finish _ _) => F.CanFinish w n

/-- An action is started or blocked only under a parent that is under way, and ends where nothing below it is left
running. -/
def Calm (F : Forest) (w : World) (input : Input) : Prop :=
  match input.op with
  | .start n | .block n _ => F.CanRouse w n
  | .stop n => (w.state n).isUnderway → FocusedBelow F w n
  | .finish n _ _ | .timeout n => F.CanFinish w n
  | .deliver => ∀ posted ∈ w.queue.head?, F.CanInvoke w posted.call
  | _ => True

instance {isSucc : Bool} {why : Reason} : Decidable (F.CanHandle w n c isSucc why) :=
  inferInstanceAs (Decidable (_ → _))

instance {mode : Mode} {children : List ActionId} {index : Nat} {isSucc : Bool} :
    Decidable (F.CanRecord w n mode children index isSucc) := by
  unfold CanRecord
  infer_instance

instance : ∀ call, Decidable (F.CanInvoke w call)
  | .finished child isSucc why => by
    unfold CanInvoke
    have : ∀ p, Decidable (match F.kind p with
        | .parallel mode children => F.CanRecord w p mode children (children.idxOf child) isSucc
        | _ => F.CanHandle w p child isSucc why) := by
      intro p
      cases F.kind p <;> infer_instance
    infer_instance
  | .blocked _ _ => inferInstanceAs (Decidable (∀ _ ∈ _, _))
  | .childFinishFunc _ (.handle _ _ _) => inferInstanceAs (Decidable (F.CanHandle ..))
  | .childFinishFunc _ (.finish _ _) => inferInstanceAs (Decidable (F.CanFinish ..))

instance : ∀ input, Decidable (F.Calm w input) := by
  rintro ⟨op, leaves⟩
  cases op <;> unfold Calm <;> infer_instance

theorem start_of_not_idle (h : w.state n ≠ .idle) : (F.start leaves depth n w).2 = w := by
  cases depth with
  | zero => rfl
  | succ depth =>
    rw [start]
    split
    · rfl
    · next hidle => exact absurd hidle h
    · rfl

theorem CanRouse.parent (h : F.CanRouse w n) (hrest : RestedBut F nobody w)
    (hlive : w.state n ≠ .finished ∧ w.state n ≠ .stoped) :
    ∀ p, F.parent n = some p → (w.state p).isUnderway ∨ nobody p := by
  intro p hp
  by_cases hidle : w.state n = .idle
  · exact .inl (h hidle p hp)
  refine hrest n p hp ?_
  obtain ⟨hfin, hstop⟩ := hlive
  cases hstate : w.state n with
  | running => rfl
  | pause => rfl
  | idle => exact absurd hstate hidle
  | finished => exact absurd hstate hfin
  | stoped => exact absurd hstate hstop

theorem rested_start (hsane : Sane F nobody w) (hrest : RestedBut F nobody w)
    (hcan : F.CanRouse w n) (hn : n < depth) : RestedBut F nobody (F.start leaves depth n w).2 := by
  by_cases hidle : w.state n = .idle
  · have hquiet : Quiet F w n :=
      .of_rested hrest (fun _ _ h => h) (by rw [hidle]; nofun)
    have hparent := hcan.parent hrest (by rw [hidle]; exact ⟨nofun, nofun⟩)
    exact (settled_start ⟨hsane, hrest, hquiet, hparent⟩ hn fun _ _ h => h).1
  · rw [start_of_not_idle hidle]
    exact hrest

theorem rested_block_step (hrest : RestedBut F nobody w) (hcan : F.CanRouse w n) (why : Reason) :
    RestedBut F nobody (F.block n why w) := by
  by_cases hlive : w.state n ≠ .finished ∧ w.state n ≠ .stoped
  · exact rested_block hrest (hcan.parent hrest hlive) why
  · rw [block, if_neg hlive]
    exact hrest

theorem resets_fields {resets : List ActionId} (hresets : ∀ r ∈ resets, F.parent r = some n)
    (hm : m ∉ resets) (hmn : m = n ∨ F.parent m = some n) :
    (World.forEach (F.reset n) resets w).fields m = w.fields m := by
  refine World.forEach_induction (P := fun v => v.fields m = w.fields m) ?_ rfl
  intro r hr v hv
  have hlocal := local_reset (F := F) (w := v) (F.child_lt n r (hresets r hr))
  refine Eq.trans ?_ hv
  rcases hmn with rfl | hmn
  · exact hlocal.parent (hresets r hr)
  · exact hlocal.sibling (hresets r hr) hmn (fun heq => hm (heq ▸ hr)) (Lib.Below.refl m)

theorem resets_idle {resets : List ActionId} (hresets : ∀ r ∈ resets, F.parent r = some n)
    (hm : m ∈ resets) : (World.forEach (F.reset n) resets w).state m = .idle := by
  have hlt : ∀ r ∈ resets, r < n := fun r hr => F.child_lt n r (hresets r hr)
  refine World.forEach_establishes (P := fun _ => True) (Q := fun c v => v.state c = .idle)
    (fun _ _ _ _ => trivial) (fun c hc v _ => reset_idle (hlt c hc)) ?_ trivial m hm
  exact fun c _ d hd v _ hidle => (clears_reset (hlt d hd)).idle hidle

theorem clears_resets {resets : List ActionId} (hresets : ∀ r ∈ resets, F.parent r = some n) :
    Clears F w (World.forEach (F.reset n) resets w) :=
  World.forEach_induction (P := fun v => Clears F w v)
    (fun r hr _ hv => hv.trans (clears_reset (F.child_lt n r (hresets r hr)))) (.refl w)

theorem start_fst_of_not_wont (h : w.state c = .idle ∨ w.state c = .running) (hn : c < depth) :
    (F.start leaves depth c w).1 = true := by
  cases depth with
  | zero => exact absurd hn (Nat.not_lt_zero c)
  | succ depth =>
    rw [start]
    split
    · rfl
    · dsimp only
      split <;> rfl
    next hidle hrunning =>
      rcases h with h | h
      · exact absurd h hrunning
      · exact absurd h hidle

theorem rested_proceed (hsane : Sane F nobody w) (hrest : RestedBut F nobody w)
    (hrunning : w.state n = .running) {next : Fields × Next}
    (hnext : Advances (F.children n) (w.fields n) next) (hcan : F.CanProceed w n next.2) :
    RestedBut F nobody (F.proceed (F.start leaves n) n next w) := by
  have hcounted := (framed_counters hnext hsane).2
  have hstate : ∀ m, (w.modify n fun _ => next.1).state m = w.state m := by
    obtain ⟨i, r, hfields⟩ := hnext.fields
    exact World.state_modify _ (by rw [hfields]; rfl)
  have hrested : RestedBut F nobody (w.modify n fun _ => next.1) := hrest.of_underway fun m => by rw [hstate]
  unfold proceed
  dsimp only
  generalize (w.modify n fun _ => next.1) = v at hcounted hstate hrested ⊢
  split
  · next heq =>
      rw [heq] at hcan
      refine rested_finish hcounted.linked hrested (.inr (.inr fun c hc hup => ?_)) _ _
      rw [hstate] at hup
      exact absurd hup (hcan c hc)
  · exact hrested
  next resets child ifFails heq =>
    obtain ⟨hchild, hmem⟩ := hnext.within resets child ifFails heq
    have hcp := parent_of_mem hchild
    have hresets : ∀ r ∈ resets, F.parent r = some n := fun r hr => parent_of_mem (hmem r hr)
    have hclears := clears_resets (w := v) hresets
    have hcleared := hcounted.clears hclears
    have hclearedRest := rested_resets hresets hrested
    have hn : (World.forEach (F.reset n) resets v).state n = .running := by
      rw [World.state, resets_fields hresets ?_ (.inl rfl)]
      · exact (hstate n).trans hrunning
      · exact fun hin => (lt_of_mem (hmem n hin)).false
    have hrouse : F.CanRouse (World.forEach (F.reset n) resets v) child := by
      intro _ p hp
      rw [mem_def, hcp] at hp
      rw [← some.inj hp, hn]
      rfl
    have hstarted : RestedBut F nobody
        (F.start leaves n child (World.forEach (F.reset n) resets v)).2 :=
      rested_start hcleared hclearedRest hrouse (lt_of_mem hchild)
    have hthis : RestedBut F nobody (startThisAction (F.start leaves n) n child
        (World.forEach (F.reset n) resets v)).2 := by
      unfold startThisAction
      dsimp only
      split
      · exact hstarted.of_underway fun m => by rw [World.state_modify _ rfl]
      · exact hstarted
    split
    · next hfalse =>
        rw [startThisAction_fst] at hfalse
        have hwont : WontStart w resets child := by
          have hnot : ¬((World.forEach (F.reset n) resets v).state child = .idle ∨
              (World.forEach (F.reset n) resets v).state child = .running) := by
            intro h
            rw [start_fst_of_not_wont h (lt_of_mem hchild)] at hfalse
            cases hfalse
          have hnotin : child ∉ resets := fun hin => hnot (.inl (resets_idle hresets hin))
          rw [World.state, resets_fields hresets hnotin (.inr hcp)] at hnot
          exact ⟨hnotin, fun h => hnot (.inl ((hstate child).trans h)), fun h => hnot (.inr ((hstate child).trans h))⟩
        have hself : (startThisAction (F.start leaves n) n child
            (World.forEach (F.reset n) resets v)).2 = World.forEach (F.reset n) resets v := by
          rw [startThisAction_of_false hfalse]
          exact start_eq_self hfalse
        rw [hself]
        refine rested_finish hcleared.linked hclearedRest (.inr (.inr fun c hc hup => ?_)) _ _
        have hcidle : (World.forEach (F.reset n) resets v).state c ≠ .idle := by
          intro h
          rw [h] at hup
          cases hup
        rw [hclears.state_eq hcidle, hstate] at hup
        rw [heq] at hcan
        exact absurd hup (hcan rfl hwont c hc)
    · exact hthis

variable {isSucc : Bool} {why : Reason}

theorem rested_handleChildFinish (hsane : Sane F nobody w)
    (hrest : RestedBut F nobody w) (hcan : F.CanHandle w n c isSucc why) :
    RestedBut F nobody (F.handleChildFinish leaves n c isSucc why w) := by
  have hforget := (framed_forget (n := n) hsane).2
  have hstate : ∀ m, (w.modify n fun a => { a with currAction := none }).state m = w.state m :=
    World.state_modify _ rfl
  have hrested : RestedBut F nobody (w.modify n fun a => { a with currAction := none }) :=
    hrest.of_underway fun m => by rw [hstate]
  unfold handleChildFinish
  dsimp only
  split
  · next hrunning =>
      have hcan' := hcan ((hstate n).symm.trans hrunning)
      refine rested_proceed hforget hrested hrunning (Kind.advances_onChildFinished ..) ?_
      rw [World.modify_fields_self]
      revert hcan'
      generalize ((F.kind n).onChildFinished { w.fields n with currAction := none } c isSucc
        why).2 = next
      cases next with
      | finish isSucc why => exact fun h d hd => by rw [hstate]; exact h d hd
      | outOfRange => exact id
      | start resets child ifFails =>
        refine fun h hfails hwont d hd => ?_
        rw [hstate]
        rw [WontStart, hstate] at hwont
        exact h hfails hwont d hd
  · exact hrested.of_underway fun m => by rw [World.state_modify _ rfl]
  · exact hrested

theorem rested_onChildFinished_parallel {mode : Mode} {children : List ActionId} {index : Nat} (hkind : F.kind n = .parallel mode children) (hsane : Sane F nobody w)
    (hrest : RestedBut F nobody w) (hcan : F.CanRecord w n mode children index isSucc) :
    RestedBut F nobody (Parallel.onChildFinished F n mode children index isSucc w) := by
  have hchildren : F.children n = children := by
    rw [Forest.children, hkind]
    rfl
  unfold Parallel.onChildFinished
  split
  · next hrunning =>
      have hcan' := hcan hrunning
      have hstate : ∀ m, (w.modify n fun a => a.setFinished index isSucc).state m = w.state m :=
        World.state_modify _ rfl
      have hlinked : Linked F (w.modify n fun a => a.setFinished index isSucc) := by
        intro m c hc
        rw [World.modify_apply Fields.currAction _ rfl] at hc
        exact hsane.linked m c hc
      have hrested : RestedBut F nobody (w.modify n fun a => a.setFinished index isSucc) :=
        hrest.of_underway fun m => by rw [hstate]
      dsimp only
      split
      · next hhit =>
          rw [if_pos hhit] at hcan'
          have hfocused : ∀ c ∈ F.children n, FocusedBelow F (w.modify n fun a => a.setFinished index isSucc) c := by
            intro c hc m hm hserial d hd hup
            rw [World.modify_apply Fields.currAction _ rfl]
            rw [hstate] at hup
            rw [hchildren] at hc
            exact hcan' c hc m hm hserial d hd hup
          refine rested_finish ((slows_stopAllActions hlinked).linked hlinked)
            (rested_stopAllActions hlinked hrested hfocused) (.inr (.inr fun c hc hup => ?_)) _ _
          exact absurd hup (stopAllActions_down hlinked (parent_of_mem hc))
      · next hmiss =>
          rw [if_neg hmiss] at hcan'
          split
          · next hfull =>
              rw [World.modify_fields_self] at hfull
              refine rested_finish hlinked hrested (.inr (.inr fun c hc hup => ?_)) _ _
              rw [hstate] at hup
              rw [hchildren] at hc
              exact absurd hup (hcan' hfull c hc)
          · exact hrested
  · exact hrest

theorem pauseAllActions_underway : ((F.pauseAllActions n w).state m).isUnderway = (w.state m).isUnderway :=
  World.forEach_induction
    (P := fun v => (v.state m).isUnderway = (w.state m).isUnderway)
    (fun _ _ _ hv => (pause_spec.2 m).trans hv) rfl

theorem rested_onChildBlocked (hrest : RestedBut F nobody w)
    (hcan : F.assembly n = .parallel ∨ F.CanRouse w n) : RestedBut F nobody (F.onChildBlocked n why w) := by
  unfold onChildBlocked
  split
  · unfold Parallel.onChildBlocked
    split
    · next hrunning =>
        have hpaused : RestedBut F nobody (F.pauseAllActions n w) :=
          hrest.of_underway fun _ => pauseAllActions_underway
        refine rested_block hpaused (fun p hp => ?_) why
        rw [pauseAllActions_underway]
        exact hrest n p hp (by rw [hrunning]; rfl)
    · exact hrest
  · next hkind =>
      refine rested_block_step hrest (hcan.resolve_left ?_) why
      intro hparallel
      revert hparallel hkind
      unfold assembly
      cases F.kind n <;> simp [Kind.assembly]

theorem CanInvoke.handle (hcan : F.CanInvoke w (.finished c isSucc why))
    (hp : F.parent c = some p) (hkind : ∀ mode children, F.kind p ≠ .parallel mode children) :
    F.CanHandle w p c isSucc why := by
  have hcan' := hcan p hp
  split at hcan'
  · next mode children heq => exact absurd heq (hkind mode children)
  · exact hcan'

theorem CanInvoke.record {mode : Mode} {children : List ActionId}
    (hcan : F.CanInvoke w (.finished c isSucc why)) (hp : F.parent c = some p)
    (hkind : F.kind p = .parallel mode children) : F.CanRecord w p mode children (children.idxOf c) isSucc := by
  have hcan' := hcan p hp
  rw [hkind] at hcan'
  exact hcan'

theorem rested_invoke {call : Call} (hsane : Sane F nobody w) (hrest : RestedBut F nobody w)
    (hcan : F.CanInvoke w call) : RestedBut F nobody (F.invoke leaves call w) := by
  unfold invoke
  split
  · split
    · next p hp =>
        unfold onChildFinished
        split
        · next mode children hkind =>
            exact rested_onChildFinished_parallel hkind hsane hrest (CanInvoke.record hcan hp hkind)
        · next hkind =>
            exact rested_handleChildFinish hsane hrest (CanInvoke.handle hcan hp hkind)
    · exact hrest
  · split
    · next p hp => exact rested_onChildBlocked hrest (hcan p hp)
    · exact hrest
  · exact rested_handleChildFinish hsane hrest hcan
  · exact rested_finish hsane.linked hrest hcan _ _

/-- **What a step preserves.** -/
theorem rested_step {input : Input} (hsane : Sane F nobody w) (hrest : RestedBut F nobody w)
    (hcalm : F.Calm w input) (hstep : F.step w input = some w') : RestedBut F nobody w' := by
  obtain ⟨op, leaves⟩ := input
  cases op with
  | start n => exact some.inj hstep ▸ rested_start hsane hrest hcalm (Nat.lt_succ_self n)
  | pause n => exact some.inj hstep ▸ hrest.of_underway pause_spec.2
  | resume n => exact some.inj hstep ▸ hrest.of_underway resumes_resume.underway
  | stop n =>
    rw [← some.inj hstep]
    by_cases hup : (w.state n).isUnderway
    · exact rested_stop hsane.linked (Nat.lt_succ_self n) hrest (hcalm hup)
    · rw [stop_of_not_underway hup]
      exact hrest
  | reset n => exact some.inj hstep ▸ rested_reset (Nat.lt_succ_self n) hrest
  | finish n isSucc why =>
    exact some.inj hstep ▸ rested_finish hsane.linked hrest hcalm isSucc why
  | block n why => exact some.inj hstep ▸ rested_block_step hrest hcalm why
  | setTimeout n =>
    exact some.inj hstep ▸ hrest.of_underway fun m => by rw [World.state_modify _ rfl]
  | resetTimeout n =>
    exact some.inj hstep ▸ hrest.of_underway fun m => by rw [World.state_modify _ rfl]
  | timeout n =>
    obtain ⟨-, heq⟩ := ite_none_right_eq_some.mp hstep
    have hdisabled : Sane F nobody (w.modify n Fields.disableTimer) :=
      hsane.modify_same (hsane.linked n) rfl rfl rfl rfl
    have hstate : ∀ m, (w.modify n Fields.disableTimer).state m = w.state m := World.state_modify _ rfl
    have hcurr : ∀ m, ((w.modify n Fields.disableTimer).fields m).currAction
        = (w.fields m).currAction := World.modify_apply Fields.currAction _ rfl
    have hcan : F.CanFinish (w.modify n Fields.disableTimer) n := by
      unfold CanFinish FocusedBelow Focused
      simp only [hstate, hcurr]
      exact hcalm
    exact some.inj heq ▸ rested_finish hdisabled.linked (hrest.of_underway fun m => by rw [hstate]) hcan _ _
  | deliver =>
    unfold step at hstep
    dsimp only at hstep
    split at hstep
    · next posted rest hqueue =>
        have hcan : F.CanInvoke w posted.call := hcalm posted (by rw [hqueue]; rfl)
        exact some.inj hstep ▸ rested_invoke (w := { w with queue := rest }) (hsane.dequeue hqueue) hrest hcan
    · cases hstep

theorem rested_init : RestedBut F nobody {} := by
  intro c p _ hup
  cases hup

/-- **What has ended has nothing running below it**, in every state of a run that is calm. -/
theorem not_underway_of_ended {inputs : List Input} (hcalm : Lib.Along F.step F.Calm {} inputs)
    (hrun : Lib.run F.step {} inputs = some w)
    (hended : w.state n = .finished ∨ w.state n = .stoped ∨ w.state n = .idle)
    (hm : F.Below n m) : ¬(w.state m).isUnderway := by
  have hinv : Sane F nobody w ∧ RestedBut F nobody w := by
    refine Lib.run_invariant (I := fun v => Sane F nobody v ∧ RestedBut F nobody v) ?_
      ⟨sane_init, rested_init⟩ hcalm hrun
    rintro v input v' ⟨hsane, hrest⟩ hguard hstep
    exact ⟨sane_step hsane hstep, rested_step hsane hrest hguard hstep⟩
  refine Quiet.of_rested hinv.2 (fun _ _ h => h) ?_ m hm
  rcases hended with h | h | h <;> rw [h] <;> nofun

/-- A sequence of two. -/
def twoSteps : Forest := .single 2 (.sequence .allFinish [0, 1]) (by decide) (by decide)

/-- Started, the first child done, the second one begun, and then stopped. -/
def stoppedHalfway : List Input :=
  [⟨.start 2, fun _ => .stays⟩, ⟨.finish 0 true {}, fun _ => .stays⟩, ⟨.deliver, fun _ => .stays⟩,
    ⟨.pause 2, fun _ => .stays⟩, ⟨.stop 2, fun _ => .stays⟩]

theorem not_underway_stoppedHalfway :
    Lib.Along twoSteps.step twoSteps.Calm {} stoppedHalfway ∧
      ∃ w, Lib.run twoSteps.step {} stoppedHalfway = some w ∧ w.state 2 = .stoped ∧
        ¬(w.state 1).isUnderway := by
  have hcalm : Lib.Along twoSteps.step twoSteps.Calm {} stoppedHalfway := by decide +kernel
  have hsome : (Lib.run twoSteps.step {} stoppedHalfway).isSome := by decide +kernel
  obtain ⟨w, hrun⟩ := Option.isSome_iff_exists.mp hsome
  have hstoped : w.state 2 = .stoped := by
    have h : (Lib.run twoSteps.step {} stoppedHalfway).map (·.state 2) = some .stoped := by
      decide +kernel
    rw [hrun] at h
    exact Option.some.inj h
  exact ⟨hcalm, w, hrun, hstoped, not_underway_of_ended hcalm hrun (.inr (.inl hstoped)) (by decide +kernel)⟩

/-- A sequence that times out leaves the child that is running to run. -/
theorem timeout_leaves_child_running :
    ∃ inputs w, Lib.run twoSteps.step {} inputs = some w ∧ w.state 2 = .finished ∧
      twoSteps.Below 2 0 ∧ w.state 0 = .running := by
  have hsome : (Lib.run twoSteps.step {} [⟨.setTimeout 2, fun _ => .stays⟩,
      ⟨.start 2, fun _ => .stays⟩, ⟨.timeout 2, fun _ => .stays⟩]).map
        (fun w => (w.state 2, w.state 0)) = some (.finished, .running) := by decide +kernel
  obtain ⟨w, hrun, hstates⟩ := Option.map_eq_some_iff.mp hsome
  exact ⟨_, w, hrun, congrArg Prod.fst hstates, by decide +kernel, congrArg Prod.snd hstates⟩

end Forest

end Tbox.Flow.Action
