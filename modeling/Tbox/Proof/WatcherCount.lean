import Tbox.Base.LifetimeTag
import Tbox.Lib.Run

/-!
# Watchers count themselves

A detail is there as long as its tag or a watcher of it is. Nothing disturbs this but the copy of a null watcher, and
more watchers of one tag than an int can count.
-/

open List Option

namespace Tbox.LifetimeTag

open Tbox.Lib (Along HandleOp Sharing)
open Tbox.Lib.Sharing (ones add_ones_self add_ones_of_ne sub_ones_self sub_ones_of_ne pos_of_ones_le)

variable {h h' : Heap} {s s' : Nat → Nat} {p q t n : Nat} {d : Option Nat} {w w' : World}

def Heap.Lives (h : Heap) (p : Nat) : Prop := some p ∈ h.tags

instance : Decidable (h.Lives p) := inferInstanceAs (Decidable (_ ∈ _))

/-- Nothing has gone wrong, and every detail counts its watchers and is deleted with the last of them and its tag. -/
structure Sound (w : World) : Prop where
  crashed : w.heap.crashed = false
  counters : ∀ (p : Nat) (detail : Detail), w.heap.details[p]? = some (some detail) →
    detail.watcherCounter = w.sharers p
  deleted : ∀ p, w.heap.deleted.count p
    = if p < w.heap.details.length ∧ w.sharers p = 0 ∧ ¬w.heap.Lives p then 1 else 0

def Answers (w : World) : Action → Prop
  | .askNull i => ∀ d, w.pointer? i = some d → Heap.isNull d = decide (d = none)
  | .askAlive i => ∀ d, w.pointer? i = some d → w.heap.isAlive d = some (decide (∃ p ∈ d, w.heap.Lives p))
  | _ => True

/-- The action leads to a sound state, and a question is answered truly. -/
def Good (w : World) (a : Action) : Prop := (∀ w', step w a = some w' → Sound w') ∧ Answers w a

/-- A detail that one watcher more may share, where `s` tells how many there are. -/
def Countable (d : Option Nat) (s : Nat → Nat) : Prop := ∃ p, d = some p ∧ s p + 1 < 2 ^ 31

/-- No null watcher is copied, no tag gets more watchers than an int can count, and `isNull` is not asked. -/
def Heeds (w : World) : Action → Prop
  | .watcher op => ∀ d, w.acquired op = some d → Countable d (w.sharersBefore op)
  | .watch t => ∀ p, w.tag? t = some p → Countable (some p) w.sharers
  | .assignFromTag i t => ∀ p, w.tag? t = some p → Countable (some p) (w.put i (.holds none)).sharers
  | .askNull _ => False
  | _ => True

structure Account (h : Heap) (p n : Nat) : Prop where
  cell : h.details[p]? = some (if n = 0 ∧ ¬h.Lives p then none else some ⟨h.Lives p, n⟩)
  deleted : h.deleted.count p = if n = 0 ∧ ¬h.Lives p then 1 else 0

structure Kept (h : Heap) (s : Nat → Nat) : Prop where
  crashed : h.crashed = false
  created : h.tags.length = h.details.length
  own : ∀ t p : Nat, h.tags[t]? = some (some p) → p = t
  accounts : ∀ p < h.details.length, Account h p (s p)
  fresh : ∀ p, h.details.length ≤ p → s p = 0 ∧ h.deleted.count p = 0

structure Same (h h' : Heap) (q : Nat) : Prop where
  details : h'.details[q]? = h.details[q]?
  lives : h'.Lives q ↔ h.Lives q
  deleted : h'.deleted.count q = h.deleted.count q

theorem Same.trans {h'' : Heap} (hfirst : Same h h' q) (hnext : Same h' h'' q) : Same h h'' q :=
  ⟨hnext.details.trans hfirst.details, hnext.lives.trans hfirst.lives, hnext.deleted.trans hfirst.deleted⟩

theorem Account.of_same (ha : Account h q n) (hsame : Same h h' q) : Account h' q n := by
  obtain ⟨hcell, hdeleted⟩ := ha
  refine ⟨?_, ?_⟩
  · rw [hsame.details, hcell]
    simp only [hsame.lives]
  · rw [hsame.deleted, hdeleted]
    simp only [hsame.lives]

theorem Kept.lives_lt (hk : Kept h s) (hlives : h.Lives p) : p < h.details.length := by
  obtain ⟨t, ht⟩ := mem_iff_getElem?.mp hlives
  rw [← hk.created, hk.own t p ht]
  exact (List.getElem?_eq_some_iff.mp ht).1

/-- **The frame rule**: only what is said of `p` has to be looked at. -/
theorem Kept.update (hk : Kept h s) (hp : p < h.details.length) (hcrashed : h'.crashed = false)
    (hlength : h'.details.length = h.details.length) (htags : h'.tags.length = h.tags.length)
    (hown : ∀ t p : Nat, h'.tags[t]? = some (some p) → p = t)
    (hothers : ∀ q, q ≠ p → Same h h' q ∧ s' q = s q) (haccount : Account h' p (s' p)) : Kept h' s' := by
  refine ⟨hcrashed, by rw [htags, hlength, hk.created], hown, fun q hq => ?_, fun q hle => ?_⟩
  · by_cases hqp : q = p
    · exact hqp ▸ haccount
    · obtain ⟨hsame, hs⟩ := hothers q hqp
      rw [hs]
      exact (hk.accounts q (hlength ▸ hq)).of_same hsame
  · obtain ⟨hsame, hs⟩ := hothers q (by omega)
    obtain ⟨hzero, hdeleted⟩ := hk.fresh q (hlength ▸ hle)
    exact ⟨hs.trans hzero, hsame.deleted.trans hdeleted⟩

theorem not_gone (hp : 0 < n ∨ h.Lives p) : ¬(n = 0 ∧ ¬h.Lives p) := by
  rintro ⟨hzero, hdead⟩
  rcases hp with hpos | hlives
  · exact hpos.ne' hzero
  · exact hdead hlives

theorem Account.of_there (hthere : 0 < n ∨ h.Lives p) (hcell : h.details[p]? = some (some ⟨h.Lives p, n⟩))
    (hdeleted : h.deleted.count p = 0) : Account h p n :=
  ⟨by rw [if_neg (not_gone hthere), hcell], by rw [if_neg (not_gone hthere), hdeleted]⟩

theorem Account.of_gone (hgone : n = 0 ∧ ¬h.Lives p) (hcell : h.details[p]? = some none)
    (hdeleted : h.deleted.count p = 1) : Account h p n :=
  ⟨by rw [if_pos hgone, hcell], by rw [if_pos hgone, hdeleted]⟩

theorem Kept.access (hk : Kept h s) (hp : 0 < s p ∨ h.Lives p) (f : Nat → Detail → Heap) :
    p < h.details.length ∧ h.access (some p) f = f p ⟨h.Lives p, s p⟩ := by
  have hlt : p < h.details.length := by
    by_contra hle
    rcases hp with hpos | hlives
    · exact absurd (hk.fresh p (Nat.not_lt.mp hle)).1 hpos.ne'
    · exact hle (hk.lives_lt hlives)
  have hcell := (hk.accounts p hlt).cell
  rw [if_neg (not_gone hp)] at hcell
  refine ⟨hlt, ?_⟩
  rw [Heap.access]
  simp only [hcell]

theorem same_store (hne : q ≠ p) {detail : Detail} : Same h (h.store p detail) q :=
  ⟨getElem?_set_ne hne.symm, Iff.rfl, rfl⟩

theorem same_delete (hne : q ≠ p) : Same h (h.delete p) q :=
  ⟨getElem?_set_ne hne.symm, Iff.rfl,
    by rw [Heap.delete, count_append, count_singleton, if_neg (by simpa using hne.symm), add_zero]⟩

/-- One watcher more, as long as an int can count them. -/
theorem Kept.acquire (hk : Kept h s) (hp : 0 < s p ∨ h.Lives p) (hcount : Countable (some p) s) :
    Kept (h.acquire (some p)) (s + ones (some p)) := by
  obtain ⟨hlt, haccess⟩ := hk.access hp _
  have ha := hk.accounts p hlt
  have hfits : s p + 1 < 2 ^ 31 := by
    obtain ⟨_, ⟨⟩, hfits⟩ := hcount
    exact hfits
  rw [Heap.acquire, haccess]
  dsimp only
  rw [if_pos (by exact_mod_cast hfits)]
  refine hk.update hlt hk.crashed (length_set ..) rfl hk.own (fun q hq => ⟨same_store hq, add_ones_of_ne hq⟩) ?_
  rw [add_ones_self]
  have hdeleted := ha.deleted
  rw [if_neg (not_gone hp)] at hdeleted
  exact .of_there (.inl (Nat.succ_pos _)) (getElem?_set_self hlt) hdeleted

theorem Kept.release (hk : Kept h s) (hd : ones d ≤ s) : Kept (h.release d) (s - ones d) := by
  cases d with
  | none => exact hk
  | some p =>
    have hpos := pos_of_ones_le hd
    obtain ⟨hlt, haccess⟩ := hk.access (.inl hpos) _
    have ha := hk.accounts p hlt
    have hdeleted := ha.deleted
    have hcast : (s p : Int) - 1 = ((s p - 1 : Nat) : Int) := by omega
    rw [if_neg (not_gone (.inl hpos))] at hdeleted
    rw [Heap.release, if_pos (some_ne_none p), haccess]
    dsimp only
    rw [hcast]
    split_ifs with hlast
    · have hgone : s p - 1 = 0 ∧ ¬h.Lives p := ⟨Nat.cast_eq_zero.mp hlast.1, by simpa using hlast.2⟩
      refine hk.update hlt hk.crashed ?_ rfl hk.own
        (fun q hq => ⟨(same_store hq).trans (same_delete hq), sub_ones_of_ne hq⟩) ?_
      · rw [Heap.delete, length_set]
        exact length_set ..
      rw [sub_ones_self]
      refine .of_gone hgone (getElem?_set_self (hlt.trans_eq (length_set ..).symm)) ?_
      rw [Heap.delete, count_append, count_singleton_self]
      exact congrArg (· + 1) hdeleted
    · have hthere : 0 < s p - 1 ∨ h.Lives p := by
        by_contra hgone
        obtain ⟨hzero, hdead⟩ := not_or.mp hgone
        exact hlast ⟨Nat.cast_eq_zero.mpr (Nat.eq_zero_of_not_pos hzero), by simpa using hdead⟩
      refine hk.update hlt hk.crashed (length_set ..) rfl hk.own (fun q hq => ⟨same_store hq, sub_ones_of_ne hq⟩) ?_
      rw [sub_ones_self]
      exact .of_there hthere (getElem?_set_self hlt) hdeleted

theorem release_tags : (h.release d).tags = h.tags := by
  rw [Heap.release]
  split
  · unfold Heap.access
    split
    · rfl
    split
    · dsimp only
      split <;> rfl
    · rfl
  · rfl

/-- A watcher that is not countable is not got. -/
theorem Kept.acquire_crashed (hk : Kept h s) (hd : ∀ p ∈ d, 0 < s p ∨ h.Lives p) (hcount : ¬Countable d s) :
    (h.acquire d).crashed = true := by
  cases d with
  | none => rfl
  | some p =>
    have hover : ¬s p + 1 < 2 ^ 31 := fun hfits => hcount ⟨p, rfl, hfits⟩
    rw [Heap.acquire, (hk.access (hd p rfl) _).2]
    dsimp only
    rw [if_neg (by exact_mod_cast hover)]

theorem there_of_ones (hd : ones d ≤ s) : ∀ p ∈ d, 0 < s p ∨ h.Lives p := by
  rintro p rfl
  exact .inl (pos_of_ones_le hd)

theorem keeps : Sharing.Keeps counting Kept Countable where
  acquire hk hd hcount := by
    obtain ⟨p, rfl, -⟩ := id hcount
    exact hk.acquire (there_of_ones hd p rfl) hcount
  release hk hd := hk.release hd

theorem Kept.newTag (hk : Kept h s) : Kept h.newTag s := by
  have hlives : ∀ q, h.newTag.Lives q ↔ h.Lives q ∨ q = h.details.length := fun q => by
    rw [Heap.Lives, Heap.newTag, mem_append, mem_singleton, some_inj]
    rfl
  obtain ⟨hzero, hdeleted⟩ := hk.fresh h.details.length le_rfl
  have hlength : h.newTag.details.length = h.details.length + 1 := by
    rw [Heap.newTag, length_append, length_singleton]
  refine ⟨hk.crashed, ?_, fun t p htag => ?_, fun q hq => ?_, fun q hle => hk.fresh q (by omega)⟩
  · rw [hlength, Heap.newTag, length_append, length_singleton, hk.created]
  · rw [Heap.newTag] at htag
    by_cases ht : t < h.tags.length
    · rw [getElem?_append_left ht] at htag
      exact hk.own t p htag
    rw [getElem?_append_right (Nat.not_lt.mp ht), List.getElem?_singleton] at htag
    split_ifs at htag with hlast
    have := hk.created
    have := some.inj (some.inj htag)
    omega
  · by_cases hnew : q = h.details.length
    · subst hnew
      have hnow : h.newTag.Lives h.details.length := (hlives _).mpr (.inr rfl)
      refine .of_there (.inr hnow) ?_ hdeleted
      rw [decide_eq_true hnow, hzero]
      exact getElem?_concat_length
    · have hlt : q < h.details.length := by omega
      refine (hk.accounts q hlt).of_same ⟨getElem?_append_left hlt, ?_, rfl⟩
      rw [hlives, or_iff_left hnew]

theorem Kept.destroyTag (hk : Kept h s) (htag : h.tags[t]? = some (some p)) : Kept (h.destroyTag t (some p)) s := by
  obtain rfl := hk.own t p htag
  have hlives : h.Lives p := mem_of_getElem? htag
  obtain ⟨hlt, haccess⟩ := hk.access (.inr hlives) _
  have ha := hk.accounts p hlt
  have hdeleted := ha.deleted
  rw [if_neg (not_gone (.inr hlives))] at hdeleted
  have hset : ∀ t q : Nat, (h.tags.set p none)[t]? = some (some q) ↔ t ≠ p ∧ h.tags[t]? = some (some q) := by
    intro t q
    by_cases hpt : t = p
    · rw [hpt, getElem?_set_self (hlt.trans_eq hk.created.symm)]
      simp
    · rw [getElem?_set_ne (Ne.symm hpt)]
      exact (and_iff_right hpt).symm
  have hown : ∀ t q : Nat, (h.tags.set p none)[t]? = some (some q) → q = t := fun t q ht =>
    hk.own t q ((hset t q).mp ht).2
  have hdead : some p ∉ h.tags.set p none := by
    intro hmem
    obtain ⟨t, ht⟩ := mem_iff_getElem?.mp hmem
    exact ((hset t p).mp ht).1 (hown t p ht).symm
  have hothers : ∀ q, q ≠ p → (some q ∈ h.tags.set p none ↔ some q ∈ h.tags) := by
    intro q hq
    rw [mem_iff_getElem?, mem_iff_getElem?]
    refine exists_congr fun t => (hset t q).trans (and_iff_right_of_imp fun ht => ?_)
    rw [← hk.own t q ht]
    exact hq
  rw [Heap.destroyTag, haccess]
  split_ifs with hzero
  · refine hk.update hlt hk.crashed (length_set ..) (length_set ..) hown
      (fun q hq => ⟨⟨(same_delete hq).details, hothers q hq, (same_delete hq).deleted⟩, rfl⟩) ?_
    refine .of_gone ⟨Nat.cast_eq_zero.mp hzero, hdead⟩ (getElem?_set_self hlt) ?_
    exact count_append.trans (by rw [hdeleted, count_singleton_self])
  · have hpos : 0 < s p := Nat.pos_of_ne_zero fun h => hzero (Nat.cast_eq_zero.mpr h)
    refine hk.update hlt hk.crashed (length_set ..) (length_set ..) hown
      (fun q hq => ⟨⟨(same_store hq).details, hothers q hq, rfl⟩, rfl⟩) ?_
    refine .of_there (.inl hpos) ((getElem?_set_self hlt).trans ?_) hdeleted
    exact congrArg (fun alive => some (some (⟨alive, s p⟩ : Detail))) (decide_eq_false hdead).symm

theorem kept_start : Kept start.heap start.sharers :=
  ⟨rfl, rfl, fun _ _ ht => by simp [start] at ht, fun _ hp => absurd hp (Nat.not_lt_zero _), fun _ _ => ⟨rfl, rfl⟩⟩

theorem tag?_eq_some : w.tag? t = some p ↔ w.heap.tags[t]? = some (some p) := by
  rw [World.tag?, join_eq_some_iff]

theorem Kept.releaseFor {i : Nat} {old : Option Nat} (hk : Kept w.heap w.sharers) (hi : w.pointer? i = some old) :
    Kept (w.heap.release old) (w.put i (.holds none)).sharers :=
  Sharing.sharers_put_null hi ▸ hk.release (Sharing.ones_le hi)

theorem lives_release {old : Option Nat} (hp : w.tag? t = some p) : (w.heap.release old).Lives p := by
  rw [Heap.Lives, release_tags]
  exact mem_of_getElem? (tag?_eq_some.mp hp)

/-- What holds of every detail is kept by every action that is heeded. -/
theorem Kept.step {a : Action} (hk : Kept w.heap w.sharers) (hheeds : Heeds w a) (hstep : step w a = some w') :
    Kept w'.heap w'.sharers := by
  cases a with
  | newTag =>
    cases hstep
    exact hk.newTag
  | copyTag t =>
    obtain ⟨p, -, hstep⟩ := bind_eq_some_iff.mp hstep
    cases hstep
    exact hk.newTag
  | assignTag t u =>
    obtain ⟨p, -, hstep⟩ := bind_eq_some_iff.mp hstep
    obtain ⟨q, -, hstep⟩ := bind_eq_some_iff.mp hstep
    cases hstep
    exact hk
  | destroyTag t =>
    obtain ⟨p, hp, hstep⟩ := bind_eq_some_iff.mp hstep
    cases hstep
    exact hk.destroyTag (tag?_eq_some.mp hp)
  | watch t =>
    obtain ⟨p, hp, hstep⟩ := bind_eq_some_iff.mp hstep
    cases hstep
    have hcount := hheeds p hp
    have hacquired := hk.acquire (.inr (mem_of_getElem? (tag?_eq_some.mp hp))) hcount
    rw [← Sharing.sharers_push] at hacquired
    exact hacquired
  | assignFromTag i t =>
    obtain ⟨old, hold, hstep⟩ := bind_eq_some_iff.mp hstep
    obtain ⟨p, hp, hstep⟩ := bind_eq_some_iff.mp hstep
    cases hstep
    have hcount := hheeds p hp
    have hacquired := (hk.releaseFor hold).acquire (.inr (lives_release hp)) hcount
    rw [← Sharing.sharers_put_over hold] at hacquired
    exact hacquired
  | watcher op => exact keeps.step hk hheeds hstep
  | askNull i => exact hheeds.elim
  | askAlive i =>
    obtain ⟨d, -, hstep⟩ := bind_eq_some_iff.mp hstep
    cases hstep
    exact hk

theorem Kept.sound (hk : Kept w.heap w.sharers) : Sound w := by
  refine ⟨hk.crashed, fun p detail hp => ?_, fun p => ?_⟩
  · have hcell := (hk.accounts p (List.getElem?_eq_some_iff.mp hp).1).cell
    rw [hp] at hcell
    split at hcell
    · cases hcell
    · rw [some.inj (some.inj hcell)]
  · by_cases hlt : p < w.heap.details.length
    · rw [(hk.accounts p hlt).deleted]
      simp only [hlt, true_and]
    · rw [(hk.fresh p (Nat.not_lt.mp hlt)).2, if_neg fun h => hlt h.1]

theorem Kept.isAlive {i : Nat} (hk : Kept w.heap w.sharers) (hi : w.pointer? i = some d) :
    w.heap.isAlive d = some (decide (∃ p ∈ d, w.heap.Lives p)) := by
  cases d with
  | none => simp [Heap.isAlive]
  | some p =>
    have hpos : 0 < w.sharers p := pos_of_ones_le (Sharing.ones_le hi)
    have hlt : p < w.heap.details.length := by
      by_contra hle
      exact hpos.ne' (hk.fresh p (Nat.not_lt.mp hle)).1
    have hcell := (hk.accounts p hlt).cell
    rw [if_neg (not_gone (.inl hpos))] at hcell
    rw [Heap.isAlive, hcell]
    simp

/-- An operation that makes a watcher share what is not countable. -/
theorem crashed_of_acquired {op : HandleOp} (hk : Kept w.heap w.sharers) (hd : w.acquired op = some d)
    (hcount : ¬Countable d (w.sharersBefore op)) (hstep : step w (.watcher op) = some w') :
    w'.heap.crashed = true := by
  cases op with
  | copy j =>
    obtain ⟨d', hd', hstep⟩ := bind_eq_some_iff.mp hstep
    cases hd'.symm.trans hd
    cases hstep
    exact hk.acquire_crashed (there_of_ones (Sharing.ones_le hd')) hcount
  | copyAssign i j =>
    obtain ⟨old, hold, hstep⟩ := bind_eq_some_iff.mp hstep
    obtain ⟨d', hd', hstep⟩ := bind_eq_some_iff.mp hstep
    rw [Sharing.acquired] at hd
    split_ifs at hd hstep with hij
    cases hd'.symm.trans hd
    cases hstep
    have hj := (Sharing.pointer?_put_of_ne (x := .holds none) hij).trans hd'
    exact (hk.releaseFor hold).acquire_crashed (there_of_ones (Sharing.ones_le hj)) hcount
  | construct | move | moveAssign | swap | reset | destroy => cases hd

/-- An action that is not heeded and is no question. -/
theorem crashed_of_not_heeds {a : Action} (hk : Kept w.heap w.sharers) (hask : ∀ i, a ≠ .askNull i)
    (hheeds : ¬Heeds w a) (hstep : step w a = some w') : w'.heap.crashed = true := by
  cases a with
  | watcher op =>
    obtain ⟨d, hnot⟩ := not_forall.mp hheeds
    obtain ⟨hd, hcount⟩ := Classical.not_imp.mp hnot
    exact crashed_of_acquired hk hd hcount hstep
  | watch t =>
    obtain ⟨p, hnot⟩ := not_forall.mp hheeds
    obtain ⟨hp, hcount⟩ := Classical.not_imp.mp hnot
    obtain ⟨p', hp', hstep⟩ := bind_eq_some_iff.mp hstep
    cases hp'.symm.trans hp
    cases hstep
    refine hk.acquire_crashed ?_ hcount
    rintro _ ⟨⟩
    exact .inr (mem_of_getElem? (tag?_eq_some.mp hp))
  | assignFromTag i t =>
    obtain ⟨p, hnot⟩ := not_forall.mp hheeds
    obtain ⟨hp, hcount⟩ := Classical.not_imp.mp hnot
    obtain ⟨old, hold, hstep⟩ := bind_eq_some_iff.mp hstep
    obtain ⟨p', hp', hstep⟩ := bind_eq_some_iff.mp hstep
    cases hp'.symm.trans hp
    cases hstep
    refine (hk.releaseFor hold).acquire_crashed ?_ hcount
    rintro _ ⟨⟩
    exact .inr (lives_release hp)
  | askNull i => exact absurd rfl (hask i)
  | newTag | copyTag | assignTag | destroyTag | askAlive => exact absurd trivial hheeds

/-- One step is good if and only if it is heeded. -/
theorem good_step_iff_heeds {a : Action} (hk : Kept w.heap w.sharers) (hstep : step w a = some w') :
    Good w a ↔ Heeds w a := by
  have hsound : Heeds w a → ∀ w', step w a = some w' → Sound w' := fun hheeds _ hnext => (hk.step hheeds hnext).sound
  by_cases hask : ∃ i, a = .askNull i
  · obtain ⟨i, rfl⟩ := hask
    obtain ⟨d, hd, -⟩ := bind_eq_some_iff.mp hstep
    refine iff_of_false (fun hgood => ?_) id
    have hanswer := hgood.2 d hd
    rw [Heap.isNull] at hanswer
    cases d <;> simp at hanswer
  refine ⟨fun hgood => ?_, fun hheeds => ⟨hsound hheeds, ?_⟩⟩
  · by_contra hnot
    have hcrashed := (hgood.1 w' hstep).crashed
    rw [crashed_of_not_heeds hk (not_exists.mp hask) hnot hstep] at hcrashed
    cases hcrashed
  · cases a with
    | askNull i => exact absurd ⟨i, rfl⟩ hask
    | askAlive i => exact fun d hd => hk.isAlive hd
    | newTag | copyTag | assignTag | destroyTag | watch | assignFromTag | watcher => trivial

/-- **Watchers are exact** in just those runs that are heeded. -/
theorem good_iff_heeded (actions : List Action) : Along step Good start actions ↔ Along step Heeds start actions := by
  exact Lib.along_iff_along (I := fun w : World => Kept w.heap w.sharers)
    (fun w a w' hk hheeds hstep => hk.step hheeds hstep) (fun w a w' hk hstep => good_step_iff_heeds hk hstep)
    kept_start

/-- A watcher of nothing is copied, and one is asked whether it is null. -/
theorem copiesNull_not_good :
    ¬Along step Good start [.watcher .construct, .watcher (.copy 0)] ∧
      ¬Along step Good start [.watcher .construct, .askNull 0] := by
  refine ⟨fun h => ?_, fun h => ?_⟩
  · obtain ⟨-, hnext⟩ := h _ rfl
    obtain ⟨⟨hsound, -⟩, -⟩ := hnext _ rfl
    cases (hsound _ rfl).crashed
  · obtain ⟨-, hnext⟩ := h _ rfl
    obtain ⟨⟨-, hanswers⟩, -⟩ := hnext _ rfl
    cases hanswers none rfl

end Tbox.LifetimeTag
