import Tbox.Lib.Run
import Tbox.Util.Fd

/-!
# A descriptor is closed once

What the heap holds for a detail follows from what was put into it, how many objects share it and whether `close()` has
been called for it: two objects never disagree on any of these.
-/

open List Option

namespace Tbox.Util.Fd

open Tbox.Lib (Along Sharing run)
open Tbox.Lib.Sharing (ones add_ones_self add_ones_of_ne sub_ones_self sub_ones_of_ne pos_of_ones_le)

variable {h h' : Heap} {s s' : Nat → Nat} {p q n : Nat} {fd : Int} {func : Option CloseFunc} {d : Option Nat}
  {w w' : World}

def detailOf (fd : Int) (func : Option CloseFunc) (asked : Bool) (n : Nat) : Detail :=
  if asked ∧ 0 ≤ fd then { fd := -1, refCount := n, closeFunc := none }
  else { fd := fd, refCount := n, closeFunc := func }

structure Account (h : Heap) (p n : Nat) (fd : Int) (func : Option CloseFunc) : Prop where
  cell : h.details[p]? = some (if n = 0 then none else some (detailOf fd func (p ∈ h.asked) n))
  closed : h.closed.filter (·.owner = p)
    = if 0 ≤ fd ∧ (p ∈ h.asked ∨ n = 0) then [⟨p, fd, func⟩] else []
  deleted : h.deleted.count p = if n = 0 then 1 else 0

/-- The heap is in order when a pointer is shared by `s p` objects. -/
structure Kept (h : Heap) (s : Nat → Nat) : Prop where
  crashed : h.crashed = false
  created : h.put.length = h.details.length
  accounts : ∀ p fd func, h.put[p]? = some (fd, func) → Account h p (s p) fd func
  fresh : ∀ p, h.put.length ≤ p → s p = 0 ∧ p ∉ h.asked ∧ h.closed.filter (·.owner = p) = [] ∧ h.deleted.count p = 0

structure Same (h h' : Heap) (q : Nat) : Prop where
  details : h'.details[q]? = h.details[q]?
  asked : q ∈ h'.asked ↔ q ∈ h.asked
  closed : h'.closed.filter (·.owner = q) = h.closed.filter (·.owner = q)
  deleted : h'.deleted.count q = h.deleted.count q

theorem Account.of_same (ha : Account h q n fd func) (hsame : Same h h' q) : Account h' q n fd func := by
  obtain ⟨hcell, hclosed, hdeleted⟩ := ha
  refine ⟨?_, ?_, hsame.deleted.trans hdeleted⟩
  · rw [hsame.details, hcell]
    simp only [hsame.asked]
  · rw [hsame.closed, hclosed]
    simp only [hsame.asked]

/-- **The frame rule**: only what is said of `p` has to be looked at. -/
theorem Kept.update (hk : Kept h s) (hp : h.put[p]? = some (fd, func)) (hcrashed : h'.crashed = false)
    (hput : h'.put = h.put) (hlength : h'.details.length = h.details.length)
    (hothers : ∀ q, q ≠ p → Same h h' q ∧ s' q = s q) (haccount : Account h' p (s' p) fd func) : Kept h' s' := by
  refine ⟨hcrashed, ?_, fun q fd' func' hq => ?_, fun q hle => ?_⟩
  · rw [hput, hlength, hk.created]
  · by_cases hqp : q = p
    · subst hqp
      rw [hput, hp] at hq
      obtain ⟨rfl, rfl⟩ := Prod.mk.inj (some.inj hq)
      exact haccount
    · obtain ⟨hsame, hs⟩ := hothers q hqp
      rw [hs]
      exact (hk.accounts q fd' func' (hput ▸ hq)).of_same hsame
  · have hqp : q ≠ p := by
      rintro rfl
      rw [hput] at hle
      exact absurd (List.getElem?_eq_some_iff.mp hp).1 (Nat.not_lt.mpr hle)
    obtain ⟨hsame, hs⟩ := hothers q hqp
    obtain ⟨hzero, hasked, hclosed, hdeleted⟩ := hk.fresh q (hput ▸ hle)
    exact ⟨hs.trans hzero, fun hmem => hasked (hsame.asked.mp hmem), hsame.closed.trans hclosed,
      hsame.deleted.trans hdeleted⟩

theorem Kept.shared (hk : Kept h s) (hp : ones (some p) ≤ s) : ∃ fd func, h.put[p]? = some (fd, func) ∧ 0 < s p ∧
    Account h p (s p) fd func ∧ ∀ f : Detail → Heap, h.access p f = f (detailOf fd func (p ∈ h.asked) (s p)) := by
  have hpos := pos_of_ones_le hp
  have hlt : p < h.put.length := by
    by_contra hle
    exact absurd (hk.fresh p (Nat.not_lt.mp hle)).1 hpos.ne'
  have hput : h.put[p]? = some ((h.put[p]).1, (h.put[p]).2) := getElem?_eq_getElem hlt
  have haccount := hk.accounts p _ _ hput
  refine ⟨_, _, hput, hpos, haccount, fun f => ?_⟩
  have hcell := haccount.cell
  rw [if_neg hpos.ne'] at hcell
  rw [Heap.access, hcell]

theorem Account.lt (ha : Account h p n fd func) : p < h.details.length := (List.getElem?_eq_some_iff.mp ha.cell).1

variable {asked : Bool}

theorem detailOf_refCount : (detailOf fd func asked n).refCount = n := by
  rw [detailOf]
  split <;> rfl

theorem detailOf_with (m : Nat) :
    { detailOf fd func asked n with refCount := m } = detailOf fd func asked m := by
  rw [detailOf, detailOf]
  split <;> rfl

theorem same_store (hne : q ≠ p) {detail : Option Detail} : Same h (h.store p detail) q :=
  ⟨getElem?_set_ne hne.symm, Iff.rfl, rfl, rfl⟩

theorem Same.trans {h'' : Heap} (hfirst : Same h h' q) (hnext : Same h' h'' q) : Same h h'' q :=
  ⟨hnext.details.trans hfirst.details, hnext.asked.trans hfirst.asked, hnext.closed.trans hfirst.closed,
    hnext.deleted.trans hfirst.deleted⟩

theorem same_closeFd (hne : q ≠ p) {detail : Detail} : Same h (h.closeFd p detail) q := by
  refine ⟨rfl, Iff.rfl, ?_, rfl⟩
  rw [Heap.closeFd, filter_append, filter_cons_of_neg (by simpa using hne.symm), filter_nil, append_nil]

theorem same_delete (hne : q ≠ p) : Same h { h with deleted := h.deleted ++ [p] } q :=
  ⟨rfl, Iff.rfl, rfl, by rw [count_append, count_singleton, if_neg (by simpa using hne.symm), add_zero]⟩

theorem detailOf_of_open (hopen : 0 ≤ (detailOf fd func asked n).fd) :
    0 ≤ fd ∧ asked = false ∧ detailOf fd func asked n = ⟨fd, n, func⟩ := by
  rw [detailOf] at hopen ⊢
  split_ifs at hopen ⊢ with hasked
  · cases hopen
  · exact ⟨hopen, by simpa [hopen] using hasked, rfl⟩

theorem detailOf_of_closed (hclosed : ¬0 ≤ (detailOf fd func asked n).fd) :
    ¬0 ≤ fd ∨ asked = true := by
  rw [detailOf] at hclosed
  split_ifs at hclosed with hasked
  · exact .inr hasked.1
  · exact .inl hclosed

theorem Account.closeFd {m : Nat} (ha : Account h p n fd func) (hpos : 0 < n)
    (hopen : 0 ≤ (detailOf fd func (p ∈ h.asked) m).fd) :
    (h.closeFd p (detailOf fd func (p ∈ h.asked) m)).closed.filter (·.owner = p) = [⟨p, fd, func⟩] := by
  obtain ⟨-, hasked, hdetail⟩ := detailOf_of_open hopen
  have hclosed := ha.closed
  rw [if_neg (by simpa [hpos.ne'] using fun _ => hasked)] at hclosed
  rw [Heap.closeFd, hdetail, filter_append, hclosed]
  simp

/-- A detail that one object more may share, where `s` tells how many do. -/
def Countable (d : Option Nat) (s : Nat → Nat) : Prop := ∀ p ∈ d, s p + 1 < 2 ^ 31

instance : Decidable (Countable d s) := inferInstanceAs (Decidable (∀ p ∈ d, s p + 1 < 2 ^ 31))

/-- One object more, as long as an int can count them. -/
theorem Kept.acquire (hk : Kept h s) (hd : ones d ≤ s) (hcount : Countable d s) :
    Kept (h.acquire d) (s + ones d) := by
  cases d with
  | none => exact hk
  | some p =>
    obtain ⟨fd, func, hput, hpos, ha, haccess⟩ := hk.shared hd
    have hfits : s p + 1 < 2 ^ 31 := hcount p rfl
    rw [Heap.acquire, haccess, detailOf_refCount, if_pos (by exact_mod_cast hfits)]
    refine hk.update hput hk.crashed rfl (length_set ..) (fun q hq => ⟨same_store hq, add_ones_of_ne hq⟩) ?_
    rw [add_ones_self]
    refine ⟨?_, ?_, ?_⟩
    · rw [Heap.store, getElem?_set_self ha.lt, if_neg (Nat.succ_ne_zero _)]
      exact congrArg (fun detail => some (some detail)) (detailOf_with (s p + 1))
    · have hclosed := ha.closed
      simp only [hpos.ne', or_false] at hclosed
      simpa [Heap.store] using hclosed
    · have hdeleted := ha.deleted
      rw [if_neg hpos.ne'] at hdeleted
      exact hdeleted

/-- One object fewer: with the last one the detail is deleted, and the descriptor closed if it is still open. -/
theorem Kept.release (hk : Kept h s) (hd : ones d ≤ s) : Kept (h.release d) (s - ones d) := by
  cases d with
  | none => exact hk
  | some p =>
    obtain ⟨fd, func, hput, hpos, ha, haccess⟩ := hk.shared hd
    have hcast : (s p : Int) - 1 = ((s p - 1 : Nat) : Int) := by omega
    rw [Heap.release, haccess, detailOf_refCount, if_neg (by omega), hcast, detailOf_with]
    dsimp only
    have hdeleted := ha.deleted
    rw [if_neg hpos.ne'] at hdeleted
    split_ifs with hlast hopen
    · -- the last object goes, and the descriptor is still open
      rw [detailOf_refCount, Nat.cast_eq_zero] at hlast
      rw [hlast] at hopen
      refine hk.update hput hk.crashed rfl (length_set ..)
        (fun q hq => ⟨(same_closeFd hq).trans ((same_store hq).trans (same_delete hq)), sub_ones_of_ne hq⟩) ?_
      rw [sub_ones_self, hlast]
      refine ⟨getElem?_set_self ha.lt, ?_, ?_⟩
      · rw [if_pos ⟨(detailOf_of_open hopen).1, .inr rfl⟩]
        exact ha.closeFd hpos hopen
      · exact count_append.trans (by rw [if_pos rfl, count_singleton_self]; exact congrArg (· + 1) hdeleted)
    · -- the last object goes, and the descriptor is closed or never was one
      rw [detailOf_refCount, Nat.cast_eq_zero] at hlast
      refine hk.update hput hk.crashed rfl (length_set ..)
        (fun q hq => ⟨(same_store hq).trans (same_delete hq), sub_ones_of_ne hq⟩) ?_
      rw [sub_ones_self, hlast]
      refine ⟨getElem?_set_self ha.lt, ?_, ?_⟩
      · refine ha.closed.trans ?_
        rcases detailOf_of_closed hopen with hfd | hasked
        · rw [if_neg fun h => hfd h.1, if_neg fun h => hfd h.1]
        · simp [of_decide_eq_true hasked, Heap.store]
      · exact count_append.trans (by rw [if_pos rfl, count_singleton_self]; exact congrArg (· + 1) hdeleted)
    · rw [detailOf_refCount, Nat.cast_eq_zero] at hlast
      refine hk.update hput hk.crashed rfl (length_set ..) (fun q hq => ⟨same_store hq, sub_ones_of_ne hq⟩) ?_
      rw [sub_ones_self]
      refine ⟨?_, ?_, ?_⟩
      · rw [if_neg hlast]
        exact getElem?_set_self ha.lt
      · refine ha.closed.trans ?_
        simp [hpos.ne', hlast, Heap.store]
      · rw [if_neg hlast]
        exact hdeleted

theorem keeps : Sharing.Keeps counting Kept Countable :=
  ⟨fun hk hd hcount => hk.acquire hd hcount, fun hk hd => hk.release hd⟩

theorem same_asked (hne : q ≠ p) : Same h { h with asked := h.asked ++ [p] } q := ⟨rfl, by simp [hne], rfl, rfl⟩

theorem Kept.close (hk : Kept h s) (hd : ones d ≤ s) : Kept (h.close d) s := by
  cases d with
  | none => exact hk
  | some p =>
    obtain ⟨fd, func, hput, hpos, ha, haccess⟩ := hk.shared hd
    have hmem : decide (p ∈ h.asked ++ [p]) = true := by simp
    rw [Heap.close, haccess]
    split_ifs with hopen
    · refine hk.update hput hk.crashed rfl (length_set ..)
        (fun q hq => ⟨(same_closeFd hq).trans ((same_store hq).trans (same_asked hq)), rfl⟩) ?_
      obtain ⟨hfd, -, hdetail⟩ := detailOf_of_open hopen
      refine ⟨?_, ?_, ha.deleted⟩
      · have hnew : detailOf fd func true (s p) = ⟨-1, s p, none⟩ := if_pos ⟨rfl, hfd⟩
        rw [if_neg hpos.ne', hmem, hnew]
        refine (getElem?_set_self ha.lt).trans ?_
        rw [detailOf_refCount]
      · rw [if_pos ⟨hfd, .inl (of_decide_eq_true hmem)⟩]
        exact ha.closeFd hpos hopen
    · -- nothing is closed, so what was put in is no descriptor or is closed already
      refine hk.update hput hk.crashed rfl rfl (fun q hq => ⟨same_asked hq, rfl⟩) ?_
      have hcases := detailOf_of_closed hopen
      refine ⟨?_, ?_, ha.deleted⟩
      · refine ha.cell.trans ?_
        rw [hmem]
        rcases hcases with hfd | hasked
        · simp [detailOf, hfd]
        · rw [hasked]
      · refine ha.closed.trans ?_
        rcases hcases with hfd | hasked
        · rw [if_neg fun h => hfd h.1, if_neg fun h => hfd h.1]
        · simp [of_decide_eq_true hasked]

theorem Kept.open (hk : Kept h s) (fd : Int) (func : Option CloseFunc) :
    Kept (h.newDetail fd func) (s + ones (some h.details.length)) := by
  obtain ⟨hzero, hasked, hclosed, hdeleted⟩ := hk.fresh h.details.length hk.created.le
  have hlength : (h.newDetail fd func).put.length = h.details.length + 1 := by
    rw [Heap.newDetail, length_append, hk.created, length_singleton]
  refine ⟨hk.crashed, ?_, fun q fd' func' hq => ?_, fun q hle => ?_⟩
  · rw [hlength, Heap.newDetail, length_append, length_singleton]
  · by_cases hqp : q = h.details.length
    · subst hqp
      rw [Heap.newDetail, ← hk.created, getElem?_concat_length] at hq
      obtain ⟨rfl, rfl⟩ := Prod.mk.inj (some.inj hq)
      rw [add_ones_self, hzero]
      refine ⟨?_, hclosed.trans (if_neg fun hended => ?_).symm, hdeleted⟩
      · have hnot : decide (h.details.length ∈ h.asked) = false := decide_eq_false hasked
        rw [if_neg (by decide), Heap.newDetail, getElem?_concat_length, hnot]
        simp [detailOf]
      · exact hended.2.elim hasked (by decide)
    · have hlt : q < h.details.length := by
        have := (List.getElem?_eq_some_iff.mp hq).1
        omega
      rw [Heap.newDetail, getElem?_append_left (hk.created ▸ hlt)] at hq
      rw [add_ones_of_ne hqp]
      exact (hk.accounts q fd' func' hq).of_same ⟨getElem?_append_left hlt, Iff.rfl, rfl, rfl⟩
  · obtain ⟨hs, hrest⟩ := hk.fresh q (by rw [hk.created]; omega)
    refine ⟨?_, hrest⟩
    rw [add_ones_of_ne (by omega), hs]

theorem kept_start : Kept start.heap start.sharers :=
  ⟨rfl, rfl, fun _ _ _ hp => by simp [start] at hp, fun _ _ => ⟨rfl, by simp [start], rfl, rfl⟩⟩

/-- No descriptor gets more objects than an int can count. -/
def Fits (w : World) : Action → Prop
  | .handle op => ∀ d ∈ w.acquired op, Countable d (w.sharersBefore op)
  | _ => True

instance : ∀ a, Decidable (Fits w a)
  | .handle op => inferInstanceAs (Decidable (∀ d ∈ w.acquired op, Countable d (w.sharersBefore op)))
  | .open .. | .close _ => .isTrue trivial

/-- What the heap holds for every detail still follows from what was put in, shared and asked. -/
theorem Kept.step {a : Action} (hk : Kept w.heap w.sharers) (hfits : Fits w a) (hstep : step w a = some w') :
    Kept w'.heap w'.sharers := by
  cases a with
  | «open» fd func =>
    cases hstep
    have hopened := hk.open fd func
    rw [← Sharing.sharers_push] at hopened
    exact hopened
  | close i =>
    obtain ⟨d, hd, hstep⟩ := bind_eq_some_iff.mp hstep
    cases hstep
    exact hk.close (Sharing.ones_le hd)
  | handle op => exact keeps.step hk hfits hstep

/-- **Every descriptor is closed once**, by its own function if it has one: as soon as `close()` is called on an object
that shares it, or else with the last of them. No more objects share it at any time than an int can count. -/
theorem closes_once (actions : List Action) (hrun : run step start actions = some w)
    (hfits : Along step Fits start actions) :
    w.heap.crashed = false ∧
    (∀ c ∈ w.heap.closed, c.owner < w.heap.put.length) ∧
    ∀ p fd func, w.heap.put[p]? = some (fd, func) → w.heap.closed.filter (·.owner = p)
        = (if 0 ≤ fd ∧ (p ∈ w.heap.asked ∨ w.sharers p = 0) then [⟨p, fd, func⟩] else []) ∧
      (p ∈ w.heap.asked → ∀ i, w.pointer? i = some (some p) → ∃ n < 0, w.heap.get (some p) = some n) ∧
      w.heap.deleted.count p = (if w.sharers p = 0 then 1 else 0) ∧
      (0 < w.sharers p →
        ∃ detail, w.heap.details[p]? = some (some detail) ∧ detail.refCount = w.sharers p) := by
  have hk : Kept w.heap w.sharers :=
    Lib.run_invariant (I := fun w : World => Kept w.heap w.sharers)
      (fun _ _ _ hk hfits hstep => hk.step hfits hstep) kept_start hfits hrun
  refine ⟨hk.crashed, fun c hc => ?_, fun p fd func hput => ?_⟩
  · by_contra hle
    obtain ⟨-, -, hclosed, -⟩ := hk.fresh c.owner (Nat.not_lt.mp hle)
    exact absurd (decide_eq_true rfl) (List.filter_eq_nil_iff.mp hclosed c hc)
  · have ha := hk.accounts p fd func hput
    have hcell := ha.cell
    refine ⟨ha.closed, fun hasked i hi => ?_, ha.deleted, fun hpos => ?_⟩
    · have hpos : 0 < w.sharers p := pos_of_ones_le (Sharing.ones_le hi)
      rw [if_neg hpos.ne', decide_eq_true hasked] at hcell
      rw [Heap.get, hcell]
      refine ⟨(detailOf fd func true (w.sharers p)).fd, ?_, rfl⟩
      by_contra hopen
      cases (detailOf_of_open (Int.not_lt.mp hopen)).2.1
    · rw [if_neg hpos.ne'] at hcell
      exact ⟨_, hcell, detailOf_refCount⟩

/-- Two objects share a descriptor, one of them closes it, and both go. -/
def sharedTwice : List Action :=
  [.open 5 (some 1), .handle (.copy 0), .close 1, .handle (.destroy 0), .handle (.destroy 1)]

theorem closes_sharedTwice : ∃ w, run step start sharedTwice = some w ∧ w.heap.closed = [⟨0, 5, some 1⟩] ∧
    w.heap.deleted = [0] ∧ w.heap.crashed = false :=
  ⟨_, rfl, rfl, rfl, (closes_once sharedTwice rfl (by decide)).1⟩

end Tbox.Util.Fd
