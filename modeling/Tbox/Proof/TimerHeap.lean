import Tbox.Event.CommonLoopTimer

/-!
# The heap and the cabinet of the timers

Each operation changes the heap as it changes the set of live timers, and keeps it a heap.
-/

open List

namespace Tbox.Event.Timers

open Cabinet (Token)
open Lib.BinaryHeap
open Function (update_self update_of_ne update_eq_self update)

variable {s : Timers} {t u : TimerPtr} {token : Token} {now interval repeats : Nat}

/-- The heap holds the timers of the cabinet, each once and in order, and none expires at 0. -/
structure Sound (s : Timers) : Prop where
  heap : IsHeap s.expired s.timerMinHeap
  nodup : s.timerMinHeap.Nodup
  live : ∀ token t, s.timerCabinet.view token = some (some t) ↔
    t ∈ s.timerMinHeap ∧ (s.timer t).token = token
  stored : ∀ token, s.timerCabinet.view token ≠ some none
  fresh : ∀ t ∈ s.timerMinHeap, t < s.timerAlloc
  positive : ∀ t ∈ s.timerMinHeap, 0 < s.expired t

theorem sound_init : Sound {} where
  heap := isHeap_nil
  nodup := nodup_nil
  live token t := by simp [Cabinet.view_empty]
  stored token := by simp [Cabinet.view_empty]
  fresh t ht := absurd ht not_mem_nil
  positive t ht := absurd ht not_mem_nil

theorem isHeap_update {l : List TimerPtr} (h : IsHeap s.expired l) (ht : t ∉ l) (timer : Timer) :
    IsHeap (fun u => (update s.timer t timer u).expired) l := by
  refine h.congr fun u hu => ?_
  rw [expired, update_of_ne (ne_of_mem_of_not_mem hu ht)]

theorem mem_addTimer (s : Timers) (now interval repeats : Nat) :
    t ∈ (s.addTimer now interval repeats).2.timerMinHeap ↔ t ∈ s.timerMinHeap ∨ t = s.timerAlloc := by
  rw [addTimer]
  rw [pushHeap_perm.mem_iff, mem_append, mem_singleton]

theorem timer_addTimer (s : Timers) (now interval repeats : Nat) :
    (s.addTimer now interval repeats).2.timer = update s.timer s.timerAlloc
      ⟨(s.addTimer now interval repeats).1, interval, (now + interval) % clockMod, repeats⟩ := rfl

theorem Sound.addTimer_of_pos (h : Sound s) (hpos : 0 < (now + interval) % clockMod) :
    Sound (s.addTimer now interval repeats).2 := by
  have hout : s.timerAlloc ∉ s.timerMinHeap := fun hin => lt_irrefl _ (h.fresh _ hin)
  have hview := s.timerCabinet.view_alloc (some s.timerAlloc)
  have hnew := s.timerCabinet.view_alloc_fst (some s.timerAlloc)
  refine ⟨isHeap_pushHeap (isHeap_update h.heap hout _), ?_, fun token t => ?_, fun token => ?_,
    fun t ht => ?_, fun t ht => ?_⟩
  · refine pushHeap_perm.nodup_iff.mpr ?_
    exact concat_eq_append ▸ h.nodup.concat hout
  · rw [mem_addTimer, timer_addTimer]
    change (s.timerCabinet.alloc (some s.timerAlloc)).2.view token = _ ↔ _
    rw [hview]
    by_cases ht : t = s.timerAlloc
    · rw [ht, update_self]
      by_cases htoken : token = (s.timerCabinet.alloc (some s.timerAlloc)).1
      · simp only [htoken, update_self, or_true, true_and, true_iff]
        rfl
      rw [update_of_ne htoken, h.live]
      constructor
      · exact fun hin => absurd hin.1 hout
      · exact fun heq => absurd heq.2.symm htoken
    · rw [update_of_ne ht]
      by_cases htoken : token = (s.timerCabinet.alloc (some s.timerAlloc)).1
      · rw [htoken, update_self]
        constructor
        · exact fun heq => absurd (Option.some.inj (Option.some.inj heq)).symm ht
        rintro ⟨hin, heq⟩
        have hlive := (h.live _ t).mpr ⟨hin.resolve_right ht, heq⟩
        rw [hnew] at hlive
        cases hlive
      · rw [update_of_ne htoken, h.live, or_iff_left ht]
  · change (s.timerCabinet.alloc (some s.timerAlloc)).2.view token ≠ _
    rw [hview]
    by_cases htoken : token = (s.timerCabinet.alloc (some s.timerAlloc)).1
    · rw [htoken, update_self]
      exact nofun
    · rw [update_of_ne htoken]
      exact h.stored token
  · rw [mem_addTimer] at ht
    exact ht.elim (fun hin => (h.fresh t hin).trans (Nat.lt_succ_self _)) (fun heq => heq ▸ Nat.lt_succ_self _)
  rw [mem_addTimer] at ht
  rw [expired, timer_addTimer]
  by_cases heq : t = s.timerAlloc
  · rw [heq, update_self]
    exact hpos
  · rw [update_of_ne heq]
    exact h.positive t (ht.resolve_right heq)

theorem Sound.addTimer (h : Sound s) (hnow : 0 < now) (hmod : now + interval < clockMod) :
    Sound (s.addTimer now interval repeats).2 := by
  apply h.addTimer_of_pos
  rw [Nat.mod_eq_of_lt hmod]
  exact Nat.add_pos_left hnow interval

theorem Sound.remove (h : Sound s) {s' : Timers} (hin : t ∈ s.timerMinHeap)
    (hheap : IsHeap s'.expired s'.timerMinHeap) (hperm : (t :: s'.timerMinHeap).Perm s.timerMinHeap)
    (hview : s'.timerCabinet.view = update s.timerCabinet.view (s.timer t).token none)
    (htimer : ∀ u, u ≠ t → s'.timer u = s.timer u) (halloc : s'.timerAlloc = s.timerAlloc) : Sound s' := by
  have hnodup := hperm.nodup_iff.mpr h.nodup
  obtain ⟨hout, hnodup'⟩ := nodup_cons.mp hnodup
  have hmem : ∀ u, u ∈ s'.timerMinHeap ↔ u ∈ s.timerMinHeap ∧ u ≠ t := by
    intro u
    rw [← hperm.mem_iff, mem_cons]
    constructor
    · exact fun hu => ⟨.inr hu, ne_of_mem_of_not_mem hu hout⟩
    · exact fun hu => hu.1.resolve_left hu.2
  refine ⟨hheap, hnodup', fun token u => ?_, fun token => ?_, fun u hu => ?_, fun u hu => ?_⟩
  · rw [hview, hmem]
    by_cases htoken : token = (s.timer t).token
    · rw [htoken, update_self]
      constructor
      · exact nofun
      rintro ⟨⟨hu, hne⟩, heq⟩
      rw [htimer u hne] at heq
      have hsame := (h.live (s.timer t).token u).mpr ⟨hu, heq⟩
      rw [(h.live (s.timer t).token t).mpr ⟨hin, rfl⟩] at hsame
      exact absurd (Option.some.inj (Option.some.inj hsame)).symm hne
    · rw [update_of_ne htoken, h.live]
      constructor
      · rintro ⟨hu, heq⟩
        have hne : u ≠ t := fun hut => htoken (by rw [← heq, hut])
        exact ⟨⟨hu, hne⟩, by rw [htimer u hne, heq]⟩
      · rintro ⟨⟨hu, hne⟩, heq⟩
        exact ⟨hu, by rw [← htimer u hne, heq]⟩
  · rw [hview]
    by_cases htoken : token = (s.timer t).token
    · rw [htoken, update_self]
      exact nofun
    · rw [update_of_ne htoken]
      exact h.stored token
  · rw [halloc]
    exact h.fresh u ((hmem u).mp hu).1
  · obtain ⟨hu', hne⟩ := (hmem u).mp hu
    rw [expired, htimer u hne]
    exact h.positive u hu'

theorem deleteTimer_of_stale (hstale : s.timerCabinet.view token = none) :
    s.deleteTimer token = { s with timerCabinet := (s.timerCabinet.free token).2 } ∧
      (s.timerCabinet.free token).2.view = s.timerCabinet.view := by
  have hfst : (s.timerCabinet.free token).1 = none := by
    rw [Cabinet.free_fst, Cabinet.at?_eq_join_view, hstale]
    rfl
  refine ⟨?_, ?_⟩
  · rw [deleteTimer]
    split
    · next cabinet heq => rw [heq]
    · next u cabinet heq =>
        rw [heq] at hfst
        cases hfst
  · rw [Cabinet.view_free, ← hstale, update_eq_self]

theorem deleteTimer_of_live (h : Sound s) (hin : t ∈ s.timerMinHeap) (htoken : (s.timer t).token = token) :
    Sound (s.deleteTimer token) ∧ (t :: (s.deleteTimer token).timerMinHeap).Perm s.timerMinHeap ∧
      (∀ u, u ≠ t → (s.deleteTimer token).timer u = s.timer u) ∧ (s.deleteTimer token).timerAlloc = s.timerAlloc := by
  have hfst : (s.timerCabinet.free token).1 = some t := by
    rw [Cabinet.free_fst, Cabinet.at?_eq_join_view, (h.live token t).mpr ⟨hin, htoken⟩]
    rfl
  have hview := s.timerCabinet.view_free token
  rw [deleteTimer]
  rcases hfree : s.timerCabinet.free token with ⟨obj, cabinet⟩
  rw [hfree] at hfst hview
  obtain rfl : obj = some t := hfst
  dsimp only at hview ⊢
  set timer := update s.timer t { s.timer t with expired := 0 } with htimer
  set key := fun u => (timer u).expired with hkey
  have hkeyt : key t = 0 := by
    rw [hkey, htimer]
    dsimp only
    rw [update_self]
  have hothers : ∀ u, u ≠ t → timer u = s.timer u := fun u hu => update_of_ne hu _ _
  -- all the others expire later
  rcases hheap : makeHeap key s.timerMinHeap with _ | ⟨top, rest⟩
  · have hnil : (makeHeap key s.timerMinHeap).Perm s.timerMinHeap := makeHeap_perm
    rw [hheap] at hnil
    exact absurd (hnil.mem_iff.mpr hin) not_mem_nil
  have hperm : (top :: rest).Perm s.timerMinHeap := hheap ▸ makeHeap_perm
  have hmake : IsHeap key (top :: rest) := hheap ▸ isHeap_makeHeap
  have htop : top = t := by
    by_contra hne
    have hle := hmake.head_le (hperm.mem_iff.mpr hin)
    have hpos := h.positive top (hperm.mem_iff.mp mem_cons_self)
    have hsame : key top = s.expired top := congrArg Timer.expired (hothers top hne)
    omega
  obtain ⟨rest', hpop, hheap', hperm'⟩ := popHeap_spec hmake
  rw [hpop, dropLast_concat]
  have hall : (t :: rest').Perm s.timerMinHeap := by
    calc (t :: rest').Perm (t :: rest) := hperm'.cons t
      List.Perm _ s.timerMinHeap := htop ▸ hperm
  refine ⟨?_, hall, hothers, rfl⟩
  exact h.remove hin hheap' hall (htoken ▸ hview) hothers rfl

/-- Deleting keeps the books, and the timers that stay are as they were. -/
theorem Sound.deleteTimer (h : Sound s) (token : Token) :
    Sound (s.deleteTimer token) ∧ ∀ u ∈ (s.deleteTimer token).timerMinHeap,
      u ∈ s.timerMinHeap ∧ (s.deleteTimer token).timer u = s.timer u := by
  rcases hview : s.timerCabinet.view token with _ | obj
  · obtain ⟨heq, hsame⟩ := deleteTimer_of_stale hview
    rw [heq]
    refine ⟨{ h with live := fun token u => ?_, stored := fun token => ?_ }, fun u hu => ⟨hu, rfl⟩⟩
    · rw [hsame]
      exact h.live token u
    · rw [hsame]
      exact h.stored token
  · rcases obj with _ | t
    · exact absurd hview (h.stored token)
    obtain ⟨hin, htoken⟩ := (h.live token t).mp hview
    obtain ⟨hsound, hperm, htimer, -⟩ := deleteTimer_of_live h hin htoken
    have hout := (nodup_cons.mp (hperm.nodup_iff.mpr h.nodup)).1
    refine ⟨hsound, fun u hu => ⟨hperm.mem_iff.mp (mem_cons_of_mem t hu), ?_⟩⟩
    exact htimer u (ne_of_mem_of_not_mem hu hout)

variable {rest : List TimerPtr}

theorem isHeap_retire_last (h : IsHeap s.expired s.timerMinHeap)
    (hheap : s.timerMinHeap = t :: rest) (hlast : (s.timer t).repeats = 1) :
    IsHeap (s.retire t).expired (s.retire t).timerMinHeap ∧
      (t :: (s.retire t).timerMinHeap).Perm s.timerMinHeap ∧ (s.retire t).timer = s.timer := by
  obtain ⟨rest', hpop, hheap', hperm⟩ := popHeap_spec (hheap ▸ h)
  rw [retire, if_pos hlast]
  rw [hheap, hpop, dropLast_concat]
  exact ⟨hheap', hperm.cons t, rfl⟩

theorem isHeap_retire_again (h : IsHeap s.expired s.timerMinHeap) (hnodup : s.timerMinHeap.Nodup) (hheap : s.timerMinHeap = t :: rest) (hagain : (s.timer t).repeats ≠ 1) :
    IsHeap (s.retire t).expired (s.retire t).timerMinHeap ∧ (s.retire t).timerMinHeap.Perm s.timerMinHeap ∧
      (s.retire t).timer = update s.timer t
        { s.timer t with
          expired := (s.expired t + (s.timer t).interval) % clockMod
          repeats := (s.timer t).repeats - 1 } ∧
      (s.retire t).timerCabinet = s.timerCabinet ∧ (s.retire t).timerAlloc = s.timerAlloc := by
  obtain ⟨rest', hpop, hheap', hperm⟩ := popHeap_spec (hheap ▸ h)
  have hout : t ∉ rest' := by
    rw [hheap, nodup_cons] at hnodup
    exact fun hmem => hnodup.1 (hperm.mem_iff.mp hmem)
  rw [retire, if_neg hagain]
  rw [hheap, hpop]
  have hfront : (rest' ++ [t]).Perm (t :: rest') := perm_append_comm
  exact ⟨isHeap_pushHeap (isHeap_update hheap' hout _),
    pushHeap_perm.trans (hfront.trans (hperm.cons t)), rfl, rfl, rfl⟩

theorem retire_last (h : Sound s) (hheap : s.timerMinHeap = t :: rest)
    (hlast : (s.timer t).repeats = 1) : Sound (s.retire t) ∧ (t :: (s.retire t).timerMinHeap).Perm s.timerMinHeap ∧
      (s.retire t).timer = s.timer ∧ (s.retire t).timerAlloc = s.timerAlloc := by
  have hin : t ∈ s.timerMinHeap := hheap ▸ mem_cons_self
  obtain ⟨hheap', hall, htimer⟩ := isHeap_retire_last h.heap hheap hlast
  have hcabinet : (s.retire t).timerCabinet = (s.timerCabinet.free (s.timer t).token).2 := by
    rw [retire, if_pos hlast]
  have halloc : (s.retire t).timerAlloc = s.timerAlloc := by
    rw [retire, if_pos hlast]
  refine ⟨?_, hall, htimer, halloc⟩
  refine h.remove hin hheap' hall ?_ (fun u _ => congrFun htimer u) halloc
  rw [hcabinet]
  exact Cabinet.view_free _ _

theorem Sound.retire_again_of_pos (h : Sound s) (hheap : s.timerMinHeap = t :: rest)
    (hagain : (s.timer t).repeats ≠ 1) (hpos : 0 < (s.expired t + (s.timer t).interval) % clockMod) :
    Sound (s.retire t) := by
  obtain ⟨hheap', hall, htimer, hcabinet, halloc⟩ := isHeap_retire_again h.heap h.nodup hheap hagain
  refine ⟨hheap', hall.nodup_iff.mpr h.nodup, fun token u => ?_, fun token => ?_, fun u hu => ?_, fun u hu => ?_⟩
  · rw [hcabinet, h.live, hall.mem_iff, htimer]
    by_cases hut : u = t
    · rw [hut, update_self]
    · rw [update_of_ne hut]
  · rw [hcabinet]
    exact h.stored token
  · rw [halloc]
    exact h.fresh u (hall.mem_iff.mp hu)
  rw [expired, htimer]
  by_cases hut : u = t
  · rw [hut, update_self]
    exact hpos
  · rw [update_of_ne hut]
    exact h.positive u (hall.mem_iff.mp hu)

theorem retire_again (h : Sound s) (hheap : s.timerMinHeap = t :: rest)
    (hagain : (s.timer t).repeats ≠ 1) (hmod : s.expired t + (s.timer t).interval < clockMod) :
    Sound (s.retire t) ∧ (s.retire t).timerMinHeap.Perm s.timerMinHeap ∧ (s.retire t).timer = update s.timer t
        { s.timer t with
          expired := s.expired t + (s.timer t).interval
          repeats := (s.timer t).repeats - 1 } ∧
      (s.retire t).timerAlloc = s.timerAlloc := by
  have hin : t ∈ s.timerMinHeap := hheap ▸ mem_cons_self
  obtain ⟨-, hall, htimer, -, halloc⟩ := isHeap_retire_again h.heap h.nodup hheap hagain
  rw [Nat.mod_eq_of_lt hmod] at htimer
  refine ⟨h.retire_again_of_pos hheap hagain ?_, hall, htimer, halloc⟩
  rw [Nat.mod_eq_of_lt hmod]
  exact Nat.add_pos_left (h.positive t hin) _

theorem Sound.retire (h : Sound s) (hheap : s.timerMinHeap = t :: rest)
    (hmod : (s.timer t).repeats ≠ 1 → s.expired t + (s.timer t).interval < clockMod) :
    Sound (s.retire t) ∧ ∀ u ∈ (s.retire t).timerMinHeap, u ∈ s.timerMinHeap ∧
      s.expired u ≤ (s.retire t).expired u ∧ ((s.retire t).timer u).interval = (s.timer u).interval ∧
      ((s.timer u).repeats = 1 → ((s.retire t).timer u).repeats = 1) := by
  by_cases hlast : (s.timer t).repeats = 1
  · obtain ⟨hsound, hperm, htimer, -⟩ := retire_last h hheap hlast
    refine ⟨hsound, fun u hu => ⟨hperm.mem_iff.mp (mem_cons_of_mem t hu), ?_⟩⟩
    rw [expired, expired, htimer]
    exact ⟨le_rfl, rfl, fun h => h⟩
  · obtain ⟨hsound, hperm, htimer, -⟩ := retire_again h hheap hlast (hmod hlast)
    refine ⟨hsound, fun u hu => ⟨hperm.mem_iff.mp hu, ?_⟩⟩
    rw [expired, expired, htimer]
    by_cases hut : u = t
    · rw [hut, update_self]
      exact ⟨Nat.le_add_right _ _, rfl, fun h => absurd h hlast⟩
    · rw [update_of_ne hut]
      exact ⟨le_rfl, rfl, fun h => h⟩

end Tbox.Event.Timers
