import Tbox.Flow.ActionExecutor

/-!
# One action at a time

Between the calls the current queue is the most urgent one that is not empty, and its front is the only action that
runs, unless the last action is taken away while it is current, or `cancelAll` is called.
-/

open List Option

namespace Tbox.Flow.Executor

open ActionExecutor
open Function (update_self update_of_ne update_eq_self update_idem update)

variable {w w' : ActionExecutor} {prio i j k : Prio} {item x y : Item} {items rest : List Item}
  {id : ActionId} {prios : List Prio}

def Event.startedId (prio : Prio) : Event → Option ActionId
  | .started p id => if p = prio then some id else none
  | _ => none

def Event.appendedId : Event → Option ActionId
  | .appended _ id => some id
  | _ => none

/-- What holds after each call. -/
structure Scheduled (w : ActionExecutor) : Prop where
  sound : w.fault = false
  none_iff : w.currActionDequeIndex = none ↔ ∀ i, w.actionDequeArray i = []
  front : ∀ i, w.currActionDequeIndex = some i → (∀ j < i, w.actionDequeArray j = []) ∧
    ∃ item rest, w.actionDequeArray i = item :: rest ∧
      (item.state = .running ∨ item.state = .finished ∧ item.id ∈ w.posted)
  only : ∀ i, ∀ item ∈ w.actionDequeArray i, item.state = .running →
    w.currActionDequeIndex = some i ∧ (w.actionDequeArray i).head? = some item
  waiting : ∀ i, ∀ item ∈ w.actionDequeArray i, .started i item.id ∈ w.log →
    item.state = .running ∨ item.state = .pause ∨ item.state = .finished
  order : ∀ i, (w.log.filterMap (Event.startedId i)).Pairwise (· < ·)
  issued : (w.log.filterMap Event.appendedId).Pairwise (· < ·)
  appended : ∀ i id, .started i id ∈ w.log → .appended i id ∈ w.log

structure Book (w : ActionExecutor) : Prop where
  sorted : ∀ i, ((w.actionDequeArray i).map Item.id).Pairwise (· < ·)
  known : ∀ i, ∀ item ∈ w.actionDequeArray i, .appended i item.id ∈ w.log
  counted : ∀ i id, .appended i id ∈ w.log → id ≤ w.actionIdAllocCounter
  issued : (w.log.filterMap Event.appendedId).Pairwise (· < ·)
  appended : ∀ i id, .started i id ∈ w.log → .appended i id ∈ w.log
  order : ∀ i, (w.log.filterMap (Event.startedId i)).Pairwise (· < ·)
  ahead : ∀ i, ∀ item ∈ w.actionDequeArray i, ∀ id, .started i id ∈ w.log →
    id ≤ item.id ∧ (item.state = .idle → id ≠ item.id)

theorem book_init : Book {} where
  sorted _ := List.Pairwise.nil
  known _ _ h := absurd h not_mem_nil
  counted _ _ h := absurd h not_mem_nil
  issued := List.Pairwise.nil
  appended _ _ h := absurd h not_mem_nil
  order _ := List.Pairwise.nil
  ahead _ _ h := absurd h not_mem_nil

def Event.Aside : Event → Prop
  | .appended _ _ | .started _ _ => False
  | _ => True

/-- Some actions may go, others may change their states but do not become idle again, and what is put on
record is beside the point. -/
theorem Book.mono (h : Book w) (news : List Event) (hnews : ∀ event ∈ news, event.Aside)
    (hlog : w'.log = w.log ++ news) (hcounter : w'.actionIdAllocCounter = w.actionIdAllocCounter)
    (hsub : ∀ i, ((w'.actionDequeArray i).map Item.id).Sublist ((w.actionDequeArray i).map Item.id))
    (hidle : ∀ i, ∀ x ∈ w'.actionDequeArray i, x.state = .idle → x ∈ w.actionDequeArray i) : Book w' := by
  have hstarted : ∀ i id, .started i id ∈ w'.log ↔ .started i id ∈ w.log := by
    intro i id
    rw [hlog, mem_append, or_iff_left]
    exact hnews _
  have happended : ∀ i id, .appended i id ∈ w'.log ↔ .appended i id ∈ w.log := by
    intro i id
    rw [hlog, mem_append, or_iff_left]
    exact hnews _
  have hold : ∀ i, ∀ x ∈ w'.actionDequeArray i, ∃ y ∈ w.actionDequeArray i, y.id = x.id := by
    intro i x hx
    exact List.mem_map.mp ((hsub i).subset (List.mem_map_of_mem hx))
  have hnone : ∀ f : Event → Option ActionId, (∀ event, event.Aside → f event = none) →
      w'.log.filterMap f = w.log.filterMap f := by
    intro f hf
    have hnil : news.filterMap f = [] := filterMap_eq_nil_iff.mpr fun event hin => hf event (hnews event hin)
    rw [hlog, filterMap_append, hnil, append_nil]
  refine ⟨fun i => (h.sorted i).sublist (hsub i), fun i x hx => ?_, fun i id hin => ?_, ?_,
    fun i id hin => ?_, fun i => ?_, fun i x hx id hin => ?_⟩
  · obtain ⟨y, hy, heq⟩ := hold i x hx
    rw [happended, ← heq]
    exact h.known i y hy
  · rw [hcounter]
    exact h.counted i id ((happended i id).mp hin)
  · rw [hnone]
    · exact h.issued
    intro event haside
    cases event with
    | appended prio id => exact haside.elim
    | _ => rfl
  · rw [happended]
    exact h.appended i id ((hstarted i id).mp hin)
  · rw [hnone]
    · exact h.order i
    intro event haside
    cases event with
    | started prio id => exact haside.elim
    | _ => rfl
  · rw [hstarted] at hin
    obtain ⟨y, hy, heq⟩ := hold i x hx
    refine ⟨heq ▸ (h.ahead i y hy id hin).1, fun hx' => ?_⟩
    exact (h.ahead i x (hidle i x hx hx') id hin).2 hx'

theorem Book.start (h : Book w) (w' : ActionExecutor) (x : Item)
    (hdeque : w.actionDequeArray prio = item :: rest) (hidle : item.state = .idle)
    (hlog : w'.log = w.log ++ [.started prio item.id])
    (hcounter : w'.actionIdAllocCounter = w.actionIdAllocCounter) (hid : x.id = item.id) (hstate : x.state ≠ .idle)
    (harray : w'.actionDequeArray = update w.actionDequeArray prio (x :: rest)) : Book w' := by
  have hin : item ∈ w.actionDequeArray prio := hdeque ▸ mem_cons_self
  have hself : w'.actionDequeArray prio = x :: rest := by rw [harray, update_self]
  have hother : ∀ i, i ≠ prio → w'.actionDequeArray i = w.actionDequeArray i := by
    intro i hi
    rw [harray, update_of_ne hi]
  have hids : ∀ i, (w'.actionDequeArray i).map Item.id = (w.actionDequeArray i).map Item.id := by
    intro i
    by_cases hi : i = prio
    · rw [hi, hself, hdeque, map_cons, map_cons, hid]
    · rw [hother i hi]
  have hold : ∀ i, ∀ y ∈ w'.actionDequeArray i, ∃ z ∈ w.actionDequeArray i, z.id = y.id := by
    intro i y hy
    have hmem := List.mem_map_of_mem (f := Item.id) hy
    rw [hids] at hmem
    exact List.mem_map.mp hmem
  have happended : ∀ i id, .appended i id ∈ w'.log ↔ .appended i id ∈ w.log := by
    intro i id
    rw [hlog, mem_append, or_iff_left]
    exact fun hin => nomatch mem_singleton.mp hin
  have hstarted : ∀ i id, .started i id ∈ w'.log ↔
      .started i id ∈ w.log ∨ i = prio ∧ id = item.id := by
    intro i id
    rw [hlog, mem_append, mem_singleton]
    simp only [Event.started.injEq]
  refine ⟨fun i => (hids i).symm ▸ h.sorted i, fun i y hy => ?_, fun i id hmem => ?_, ?_,
    fun i id hmem => ?_, fun i => ?_, fun i y hy id hmem => ?_⟩
  · obtain ⟨z, hz, heq⟩ := hold i y hy
    rw [happended, ← heq]
    exact h.known i z hz
  · rw [hcounter]
    exact h.counted i id ((happended i id).mp hmem)
  · rw [hlog, filterMap_append]
    exact (append_nil _).symm ▸ h.issued
  · rw [happended]
    rcases (hstarted i id).mp hmem with hmem | ⟨rfl, rfl⟩
    · exact h.appended i id hmem
    · exact h.known i item hin
  · rw [hlog, filterMap_append]
    by_cases hi : i = prio
    · have hone : [Event.started prio item.id].filterMap (Event.startedId i) = [item.id] := by
        have heq : Event.startedId prio (.started prio item.id) = some item.id := if_pos rfl
        rw [hi, filterMap_cons_some heq, filterMap_nil]
      rw [hone, pairwise_append]
      refine ⟨h.order i, pairwise_singleton _ _, fun id hmem id' hmem' => ?_⟩
      rw [mem_singleton.mp hmem']
      obtain ⟨event, hevent, heq⟩ := mem_filterMap.mp hmem
      cases event with
      | started p id' =>
        rw [Event.startedId] at heq
        split_ifs at heq with hp
        rw [some.inj heq, hp, hi] at hevent
        obtain ⟨hle, hne⟩ := h.ahead prio item hin id hevent
        exact lt_of_le_of_ne hle (hne hidle)
      | _ => cases heq
    · have hnone : [Event.started prio item.id].filterMap (Event.startedId i) = [] := by
        have heq : Event.startedId i (.started prio item.id) = none := if_neg (Ne.symm hi)
        rw [filterMap_cons_none heq, filterMap_nil]
      rw [hnone, append_nil]
      exact h.order i
  · rcases (hstarted i id).mp hmem with hmem | ⟨rfl, rfl⟩
    · by_cases hi : i = prio
      · subst hi
        rw [hself] at hy
        rcases mem_cons.mp hy with rfl | hy
        · exact ⟨hid ▸ (h.ahead i item hin id hmem).1, fun hy' => absurd hy' hstate⟩
        · exact h.ahead i y (hdeque ▸ mem_cons_of_mem item hy) id hmem
      · exact h.ahead i y (hother i hi ▸ hy) id hmem
    · rw [hself] at hy
      rcases mem_cons.mp hy with rfl | hy
      · exact ⟨hid.ge, fun hy' => absurd hy' hstate⟩
      have hlt : item.id < y.id := by
        have hsorted := h.sorted i
        rw [hdeque, map_cons, pairwise_cons] at hsorted
        exact hsorted.1 y.id (List.mem_map_of_mem hy)
      exact ⟨hlt.le, fun _ => hlt.ne⟩

theorem Book.append (h : Book w) (item : Item) (hlog : w'.log = w.log ++ [.appended prio item.id])
    (hid : item.id = w.actionIdAllocCounter + 1) (hcounter : w'.actionIdAllocCounter = w.actionIdAllocCounter + 1)
    (harray : w'.actionDequeArray =
      update w.actionDequeArray prio (w.actionDequeArray prio ++ [item])) : Book w' := by
  have hmem : ∀ i x, x ∈ w'.actionDequeArray i ↔ x ∈ w.actionDequeArray i ∨ i = prio ∧ x = item := by
    intro i x
    rw [harray]
    by_cases hi : i = prio
    · rw [hi, update_self, mem_append, mem_singleton]
      simp only [true_and]
    · rw [update_of_ne hi]
      exact (or_iff_left (fun hboth => hi hboth.1)).symm
  have hstarted : ∀ i id, .started i id ∈ w'.log ↔ .started i id ∈ w.log := by
    intro i id
    rw [hlog, mem_append, or_iff_left]
    exact fun hin => nomatch mem_singleton.mp hin
  have happended : ∀ i id, .appended i id ∈ w'.log ↔
      .appended i id ∈ w.log ∨ i = prio ∧ id = item.id := by
    intro i id
    rw [hlog, mem_append, mem_singleton]
    simp only [Event.appended.injEq]
  have hlt : ∀ id, id ≤ w.actionIdAllocCounter → id < item.id := by
    intro id hle
    rw [hid]
    exact Nat.lt_succ_of_le hle
  refine ⟨fun i => ?_, fun i x hx => ?_, fun i id hin => ?_, ?_, fun i id hin => ?_, fun i => ?_,
    fun i x hx id hin => ?_⟩
  · rw [harray]
    by_cases hi : i = prio
    · rw [hi, update_self, map_append, pairwise_append]
      refine ⟨h.sorted prio, pairwise_singleton _ _, fun a ha b hb => ?_⟩
      obtain ⟨x, hx, rfl⟩ := List.mem_map.mp ha
      rw [map_singleton, mem_singleton] at hb
      exact hb ▸ hlt x.id (h.counted prio x.id (h.known prio x hx))
    · rw [update_of_ne hi]
      exact h.sorted i
  · rw [happended]
    exact ((hmem i x).mp hx).imp (h.known i x) fun hboth => ⟨hboth.1, congrArg Item.id hboth.2⟩
  · rw [hcounter]
    rcases (happended i id).mp hin with hin | ⟨-, rfl⟩
    · exact (h.counted i id hin).trans (Nat.le_succ _)
    · exact hid.le
  · rw [hlog, filterMap_append, pairwise_append]
    refine ⟨h.issued, pairwise_singleton _ _, fun a ha b hb => ?_⟩
    rw [mem_singleton.mp hb]
    obtain ⟨event, hevent, heq⟩ := mem_filterMap.mp ha
    cases event with
    | appended i id =>
      cases heq
      exact hlt a (h.counted i a hevent)
    | _ => cases heq
  · rw [happended]
    exact .inl (h.appended i id ((hstarted i id).mp hin))
  · rw [hlog, filterMap_append]
    exact (append_nil _).symm ▸ h.order i
  rw [hstarted] at hin
  rcases (hmem i x).mp hx with hx | ⟨rfl, rfl⟩
  · exact h.ahead i x hx id hin
  · have hbefore := hlt id (h.counted i id (h.appended i id hin))
    exact ⟨hbefore.le, fun _ => hbefore.ne⟩

def Item.Waits (item : Item) : Prop := item.state ≠ .running ∧ item.state ≠ .stoped

theorem Item.waits_invoke_pause : (item.invoke .pause).Waits := by
  rw [Waits, invoke]
  split_ifs <;> exact ⟨nofun, nofun⟩

/-- The queue is served as far as `items`: it will have what is left of them, and the others are waiting. -/
structure Serving (w : ActionExecutor) (prio : Prio) (items : List Item) : Prop where
  book : Book (w.setDeque prio items)
  sound : w.fault = false
  front : ∀ x, items.head? = some x → x.Waits ∨ x.state = .running ∧ w.currActionDequeIndex = some prio
  tail : ∀ x ∈ items.tail, x.Waits

/-- What has become of the queue. -/
structure Served (w : ActionExecutor) (prio : Prio) (items : List Item) (w' : ActionExecutor)
    (ended : Bool) : Prop where
  book : Book w'
  sound : w'.fault = false
  others : ∀ i, i ≠ prio → w'.actionDequeArray i = w.actionDequeArray i
  running : ended = true → w'.currActionDequeIndex = some prio ∧
    ∃ item rest, w'.actionDequeArray prio = item :: rest ∧ item.state = .running ∧ ∀ x ∈ rest, x.Waits
  emptied : ended = false → w'.actionDequeArray prio = [] ∧
    (items ≠ [] → w'.currActionDequeIndex = none)

theorem post_eq (w : ActionExecutor) (item : Item) : ∃ posted, w.post item = { w with posted } := by
  rw [post]
  split_ifs
  · exact ⟨_, rfl⟩
  · exact ⟨w.posted, rfl⟩

theorem setDeque_self (w : ActionExecutor) (prio : Prio) (items : List Item) :
    (w.setDeque prio items).actionDequeArray prio = items := update_self _ _ _

theorem setDeque_of_ne (w : ActionExecutor) (items : List Item) (h : i ≠ prio) :
    (w.setDeque prio items).actionDequeArray i = w.actionDequeArray i := update_of_ne h _ _

theorem Event.aside_of_mem {event : Event} (hevent : event.Aside) : ∀ x ∈ [event], Event.Aside x := by
  intro x hx
  exact mem_singleton.mp hx ▸ hevent

theorem Book.setDeque (h : Book (w.setDeque prio items)) (w' : ActionExecutor) (event : Event)
    (hevent : event.Aside) (hlog : w'.log = w.log ++ [event])
    (hcounter : w'.actionIdAllocCounter = w.actionIdAllocCounter)
    (harray : w'.actionDequeArray = w.actionDequeArray) {items' : List Item}
    (hsub : (items'.map Item.id).Sublist (items.map Item.id))
    (hidle : ∀ x ∈ items', x.state = .idle → x ∈ items) : Book (w'.setDeque prio items') := by
  refine h.mono [event] (Event.aside_of_mem hevent) hlog hcounter (fun i => ?_) fun i x hx hx' => ?_
  · by_cases hi : i = prio
    · rw [hi, setDeque_self, setDeque_self]
      exact hsub
    · rw [setDeque_of_ne _ _ hi, setDeque_of_ne _ _ hi, harray]
  · by_cases hi : i = prio
    · rw [hi, setDeque_self] at hx ⊢
      exact hidle x hx hx'
    · rw [setDeque_of_ne _ _ hi, harray] at hx
      rw [setDeque_of_ne _ _ hi]
      exact hx

theorem Serving.retire (h : Serving w prio (item :: rest)) :
    Serving (w.retire prio item) prio rest where
  book := by
    refine h.book.setDeque (w.retire prio item) (.finished prio item.id) trivial rfl rfl rfl ?_ ?_
    · exact sublist_cons_self _ _
    · exact fun x hx _ => mem_cons_of_mem item hx
  sound := h.sound
  front x hx := .inl (h.tail x (mem_of_mem_head? hx))
  tail x hx := h.tail x (mem_of_mem_tail hx)

theorem Item.invoke_state (item : Item) (state : ActionState) :
    (item.invoke state).state = .finished ∨ (item.invoke state).state = state := by
  rw [invoke]
  split_ifs
  · exact .inl rfl
  · exact .inr rfl

theorem Serving.invoked (h : Serving w prio (item :: rest)) {event : Event}
    (hbook : Book (((w.record event).setDeque prio (item.invoke .running :: rest)))) :
    Serving { (w.record event).post (item.invoke .running) with currActionDequeIndex := some prio } prio
      (item.invoke .running :: rest) := by
  obtain ⟨posted, hpost⟩ := post_eq (w.record event) (item.invoke .running)
  rw [hpost]
  refine ⟨?_, h.sound, fun x hx => ?_, h.tail⟩
  · exact { hbook with }
  obtain rfl : item.invoke .running = x := some.inj hx
  rcases item.invoke_state .running with hstate | hstate
  · refine .inl ⟨?_, ?_⟩ <;> rw [hstate] <;> exact nofun
  · exact .inr ⟨hstate, rfl⟩

theorem Serving.started (h : Serving w prio (item :: rest)) (hidle : item.state = .idle) :
    Book ((w.record (.started prio item.id)).setDeque prio (item.invoke .running :: rest)) := by
  refine h.book.start _ (item.invoke .running) (setDeque_self w prio _) hidle rfl rfl rfl ?_ ?_
  · rcases item.invoke_state .running with hstate | hstate <;> rw [hstate] <;> exact nofun
  · exact (update_idem _ _ _).symm

theorem Serving.resumed (h : Serving w prio (item :: rest)) :
    Book ((w.record (.resumed prio item.id)).setDeque prio (item.invoke .running :: rest)) := by
  refine h.book.setDeque (w.record (.resumed prio item.id)) (.resumed prio item.id) trivial rfl rfl rfl ?_ ?_
  · exact List.Sublist.refl _
  intro x hx hidle
  rcases mem_cons.mp hx with rfl | hx
  · rcases item.invoke_state .running with hstate | hstate <;> rw [hstate] at hidle <;> cases hidle
  · exact mem_cons_of_mem item hx

/-- **The inner loop.** -/
theorem Serving.serve (h : Serving w prio items) :
    Served w prio items (serve prio w items).1 (serve prio w items).2 := by
  induction items generalizing w with
  | nil =>
    refine ⟨h.book, h.sound, fun i hi => setDeque_of_ne w [] hi, nofun, fun _ => ?_⟩
    exact ⟨setDeque_self w prio [], fun hne => absurd rfl hne⟩
  | cons item rest ih =>
    -- what is taken off leaves the rest to be served
    have hretired : ∀ (w₁ : ActionExecutor) (item₁ : Item), Serving w₁ prio (item₁ :: rest) →
        w₁.actionDequeArray = w.actionDequeArray →
        Served w prio (item :: rest) (ActionExecutor.serve prio (w₁.retire prio item₁) rest).1
          (ActionExecutor.serve prio (w₁.retire prio item₁) rest).2 := by
      intro w₁ item₁ h₁ harray
      have hserved := ih h₁.retire
      refine ⟨hserved.book, hserved.sound, fun i hi => ?_, hserved.running, fun hended => ?_⟩
      · rw [hserved.others i hi]
        exact congrFun harray i
      obtain ⟨hempty, hnone⟩ := hserved.emptied hended
      refine ⟨hempty, fun _ => ?_⟩
      by_cases hrest : rest = []
      · rw [hrest]
        rfl
      · exact hnone hrest
    -- what is running ends the call
    have hrunning : ∀ (w₁ : ActionExecutor) (item₁ : Item), Serving w₁ prio (item₁ :: rest) →
        w₁.actionDequeArray = w.actionDequeArray → item₁.state = .running →
        w₁.currActionDequeIndex = some prio →
        Served w prio (item :: rest) (w₁.setDeque prio (item₁ :: rest)) true := by
      intro w₁ item₁ h₁ harray hstate hcurr
      refine ⟨h₁.book, h₁.sound, fun i hi => ?_, fun _ => ⟨hcurr, ?_⟩, nofun⟩
      · rw [setDeque_of_ne _ _ hi, harray]
      · exact ⟨item₁, rest, setDeque_self _ _ _, hstate, h₁.tail⟩
    have hinvoked : ∀ (event : Event) (out : ActionExecutor × Bool),
        Book ((w.record event).setDeque prio (item.invoke .running :: rest)) →
        out = (if (item.invoke .running).state = .finished then
            ActionExecutor.serve prio ({ (w.record event).post (item.invoke .running) with
              currActionDequeIndex := some prio }.retire prio (item.invoke .running)) rest
          else (({ (w.record event).post (item.invoke .running) with
            currActionDequeIndex := some prio } : ActionExecutor).setDeque prio
              (item.invoke .running :: rest), true)) →
        Served w prio (item :: rest) out.1 out.2 := by
      rintro event _ hbook rfl
      have h₁ := h.invoked hbook
      have harray : ((w.record event).post (item.invoke .running)).actionDequeArray =
          w.actionDequeArray := by
        obtain ⟨posted, hpost⟩ := post_eq (w.record event) (item.invoke .running)
        rw [hpost]
        rfl
      split_ifs with hfinished
      · exact hretired _ _ h₁ harray
      · exact hrunning _ _ h₁ harray ((item.invoke_state .running).resolve_left hfinished) rfl
    rw [ActionExecutor.serve]
    split
    · next hidle => exact hinvoked (.started prio item.id) _ (h.started hidle) rfl
    · exact hinvoked (.resumed prio item.id) _ h.resumed rfl
    · exact hretired w item h rfl
    · exact hretired w item h rfl
    next hstate =>
      obtain hwaits | ⟨-, hcurr⟩ := h.front item rfl
      · exact absurd hstate hwaits.1
      · exact hrunning w item h rfl hstate hcurr

/-- What a round of the outer loop starts from: the queues before are empty, and only the front of the current one may
run. -/
structure Due (w : ActionExecutor) (prios : List Prio) : Prop where
  book : Book w
  sound : w.fault = false
  empty : ∀ i, i ∉ prios → w.actionDequeArray i = []
  front : ∀ i x, (w.actionDequeArray i).head? = some x →
    x.Waits ∨ x.state = .running ∧ w.currActionDequeIndex = some i
  tail : ∀ i, ∀ x ∈ (w.actionDequeArray i).tail, x.Waits
  current : ∀ k, w.currActionDequeIndex = some k → w.actionDequeArray k = [] →
    (∃ i, w.actionDequeArray i ≠ []) ∧ ∀ i, w.actionDequeArray i ≠ [] → k < i

structure Settled (w : ActionExecutor) : Prop where
  book : Book w
  sound : w.fault = false
  idle : w.currActionDequeIndex = none → ∀ i, w.actionDequeArray i = []
  current : ∀ k, w.currActionDequeIndex = some k → (∀ j < k, w.actionDequeArray j = []) ∧
    ∃ item rest, w.actionDequeArray k = item :: rest ∧
      (item.state = .running ∨ item.state = .finished ∧ item.id ∈ w.posted)
  front : ∀ i x, (w.actionDequeArray i).head? = some x →
    x.Waits ∨ x.state = .running ∧ w.currActionDequeIndex = some i
  tail : ∀ i, ∀ x ∈ (w.actionDequeArray i).tail, x.Waits

theorem settled_init : Settled {} where
  book := book_init
  sound := rfl
  idle _ _ := rfl
  current _ h := nomatch h
  front _ _ h := nomatch h
  tail _ _ h := absurd h not_mem_nil

theorem waits_of_front (hfront : ∀ x, items.head? = some x → x.Waits)
    (htail : ∀ x ∈ items.tail, x.Waits) : ∀ x ∈ items, x.Waits := by
  intro x hx
  cases items with
  | nil => cases hx
  | cons item rest =>
    rcases mem_cons.mp hx with rfl | hx
    · exact hfront x rfl
    · exact htail x hx

theorem setDeque_eq_self (w : ActionExecutor) (prio : Prio) : w.setDeque prio (w.actionDequeArray prio) = w := by
  rw [ActionExecutor.setDeque, update_eq_self]

structure Preempted (w : ActionExecutor) (prio : Prio) (w' : ActionExecutor) : Prop where
  serving : Serving w' prio (w.actionDequeArray prio)
  ready : w'.actionDequeArray prio = w.actionDequeArray prio
  others : ∀ i, i ≠ prio → ∀ x ∈ w'.actionDequeArray i, x.Waits
  empty : ∀ i, w.actionDequeArray i = [] → w'.actionDequeArray i = []

theorem Due.preempted_self (h : Due w prios)
    (hothers : ∀ i, i ≠ prio → w.currActionDequeIndex = some i → ∀ x,
      (w.actionDequeArray i).head? = some x → x.Waits) : Preempted w prio w where
  serving := ⟨(setDeque_eq_self w prio).symm ▸ h.book, h.sound, h.front prio, h.tail prio⟩
  ready := rfl
  others i hi := by
    refine waits_of_front (fun x hx => ?_) (h.tail i)
    rcases h.front i x hx with hwaits | ⟨-, hcurr⟩
    · exact hwaits
    · exact hothers i hi hcurr x hx
  empty _ hi := hi

theorem Due.preempted_pause (h : Due w prios) (hcurr : w.currActionDequeIndex = some k)
    (hne : prio ≠ k) (hdeque : w.actionDequeArray k = item :: rest) :
    Preempted w prio (((w.setDeque k (item.invoke .pause :: rest)).post (item.invoke .pause)).record
      (.paused k item.id)) := by
  obtain ⟨posted, hpost⟩ := post_eq (w.setDeque k (item.invoke .pause :: rest)) (item.invoke .pause)
  rw [hpost]
  have hbook : Book ((w.setDeque k (item.invoke .pause :: rest)).record (.paused k item.id)) := by
    refine h.book.mono [.paused k item.id] (Event.aside_of_mem trivial) rfl rfl (fun i => ?_) fun i x hx hidle => ?_
    · by_cases hi : i = k
      · subst hi
        change ((w.setDeque i _).actionDequeArray i).map Item.id |>.Sublist _
        rw [setDeque_self, hdeque]
        exact List.Sublist.refl _
      · change ((w.setDeque k _).actionDequeArray i).map Item.id |>.Sublist _
        rw [setDeque_of_ne _ _ hi]
    · by_cases hi : i = k
      · subst hi
        change x ∈ (w.setDeque i _).actionDequeArray i at hx
        rw [setDeque_self] at hx
        rcases mem_cons.mp hx with rfl | hx
        · rcases item.invoke_state .pause with hstate | hstate <;> rw [hstate] at hidle <;> cases hidle
        · exact hdeque ▸ mem_cons_of_mem item hx
      · change x ∈ (w.setDeque k _).actionDequeArray i at hx
        rwa [setDeque_of_ne _ _ hi] at hx
  have hready : (w.setDeque k (item.invoke .pause :: rest)).actionDequeArray prio =
      w.actionDequeArray prio := setDeque_of_ne _ _ hne
  refine ⟨⟨?_, h.sound, fun x hx => ?_, h.tail prio⟩, hready, fun i hi x hx => ?_, fun i hi => ?_⟩
  · rw [← hready]
    have hself := setDeque_eq_self ((w.setDeque k (item.invoke .pause :: rest)).record (.paused k item.id)) prio
    have hbook' := hself.symm ▸ hbook
    exact { hbook' with }
  · rcases h.front prio x hx with hwaits | ⟨-, hcurr'⟩
    · exact .inl hwaits
    · exact absurd (some.inj (hcurr'.symm.trans hcurr)) hne
  · change x ∈ (w.setDeque k _).actionDequeArray i at hx
    by_cases hik : i = k
    · subst hik
      rw [setDeque_self] at hx
      rcases mem_cons.mp hx with rfl | hx
      · exact item.waits_invoke_pause
      · exact h.tail i x (hdeque ▸ hx)
    · rw [setDeque_of_ne _ _ hik] at hx
      refine waits_of_front (fun y hy => ?_) (h.tail i) x hx
      rcases h.front i y hy with hwaits | ⟨-, hcurr'⟩
      · exact hwaits
      · exact absurd (some.inj (hcurr'.symm.trans hcurr)) hik
  · change (w.setDeque k _).actionDequeArray i = []
    have hik : i ≠ k := by
      rintro rfl
      rw [hdeque] at hi
      cases hi
    rw [setDeque_of_ne _ _ hik]
    exact hi

theorem Due.preempt (h : Due w (prio :: prios)) (hsorted : (prio :: prios).Pairwise (· < ·))
    (hready : w.actionDequeArray prio ≠ []) : Preempted w prio (w.preempt prio) := by
  rw [ActionExecutor.preempt]
  split
  · next hcurr =>
      refine h.preempted_self fun i _ hi => ?_
      rw [hcurr] at hi
      cases hi
  · next k hcurr =>
      have hother : ∀ i, i ≠ k → w.currActionDequeIndex ≠ some i := by
        intro i hi hcurr'
        exact hi (some.inj (hcurr'.symm.trans hcurr))
      split_ifs with hlt
      · split
        · next hempty =>
            -- the index is not left over from a less urgent queue
            exact absurd hlt ((h.current k hcurr hempty).2 prio hready).not_gt
        next item rest hdeque =>
          split_ifs with hrunning
          · exact h.preempted_pause hcurr hlt.ne hdeque
          refine h.preempted_self fun i _ hi x hx => ?_
          rcases h.front i x hx with hwaits | ⟨hstate, hcurr'⟩
          · exact hwaits
          · obtain rfl : i = k := some.inj (hcurr'.symm.trans hcurr)
            rw [hdeque] at hx
            exact absurd (some.inj hx ▸ hstate) hrunning
      · refine h.preempted_self fun i hi hcurr' x hx => ?_
        obtain rfl : i = k := some.inj (hcurr'.symm.trans hcurr)
        by_cases hmem : i ∈ prio :: prios
        · rcases mem_cons.mp hmem with rfl | hmem
          · exact absurd rfl hi
          · exact absurd ((pairwise_cons.mp hsorted).1 i hmem) hlt
        · rw [h.empty i hmem] at hx
          cases hx

theorem Due.allFinished (h : Due w []) : Settled (w.record .allFinished) where
  book := by
    refine h.book.mono [.allFinished] (Event.aside_of_mem trivial) rfl rfl (fun _ => ?_) fun _ _ hx _ => hx
    exact List.Sublist.refl _
  sound := h.sound
  idle _ i := h.empty i not_mem_nil
  current k hcurr := by
    obtain ⟨i, hi⟩ := (h.current k hcurr (h.empty k not_mem_nil)).1
    exact absurd (h.empty i not_mem_nil) hi
  front := h.front
  tail := h.tail

theorem Served.settled (h : Served w prio items w' true) (hempty : ∀ i < prio, w.actionDequeArray i = [])
    (hothers : ∀ i, i ≠ prio → ∀ x ∈ w.actionDequeArray i, x.Waits) : Settled w' := by
  obtain ⟨hcurr, item, rest, hdeque, hrunning, hrest⟩ := h.running rfl
  refine ⟨h.book, h.sound, fun hnone => ?_, fun k hk => ?_, fun i x hx => ?_, fun i x hx => ?_⟩
  · rw [hcurr] at hnone
    cases hnone
  · obtain rfl : prio = k := some.inj (hcurr.symm.trans hk)
    refine ⟨fun j hj => ?_, item, rest, hdeque, .inl hrunning⟩
    rw [h.others j hj.ne]
    exact hempty j hj
  · by_cases hi : i = prio
    · subst hi
      rw [hdeque] at hx
      exact .inr ⟨some.inj hx ▸ hrunning, hcurr⟩
    · rw [h.others i hi] at hx
      exact .inl (hothers i hi x (mem_of_mem_head? hx))
  · by_cases hi : i = prio
    · subst hi
      rw [hdeque] at hx
      exact hrest x hx
    · rw [h.others i hi] at hx
      exact hothers i hi x (mem_of_mem_tail hx)

theorem Served.due (h : Served w prio items w' false) (hne : items ≠ [])
    (hempty : ∀ i, i ∉ prio :: prios → w.actionDequeArray i = [])
    (hothers : ∀ i, i ≠ prio → ∀ x ∈ w.actionDequeArray i, x.Waits) : Due w' prios := by
  obtain ⟨hemptied, hcurr⟩ := h.emptied rfl
  have hwaits : ∀ i, ∀ x ∈ w'.actionDequeArray i, x.Waits := by
    intro i x hx
    by_cases hi : i = prio
    · rw [hi, hemptied] at hx
      cases hx
    · rw [h.others i hi] at hx
      exact hothers i hi x hx
  refine ⟨h.book, h.sound, fun i hi => ?_, fun i x hx => .inl (hwaits i x (mem_of_mem_head? hx)),
    fun i x hx => hwaits i x (mem_of_mem_tail hx), fun k hk => ?_⟩
  · by_cases hip : i = prio
    · rw [hip, hemptied]
    · rw [h.others i hip]
      exact hempty i fun hmem => (mem_cons.mp hmem).elim hip hi
  · rw [hcurr hne] at hk
    cases hk

/-- **The outer loop.** -/
theorem Due.scheduleFrom (h : Due w prios) (hsorted : prios.Pairwise (· < ·)) : Settled (w.scheduleFrom prios) := by
  induction prios generalizing w with
  | nil => exact h.allFinished
  | cons prio prios ih =>
    obtain ⟨hfirst, hsorted'⟩ := pairwise_cons.mp hsorted
    rw [ActionExecutor.scheduleFrom]
    by_cases hready : w.actionDequeArray prio = []
    · rw [if_pos hready]
      refine ih { h with empty := fun i hi => ?_ } hsorted'
      by_cases hip : i = prio
      · rw [hip, hready]
      · exact h.empty i fun hmem => (mem_cons.mp hmem).elim hip hi
    · rw [if_neg hready]
      have hpre := h.preempt hsorted hready
      have hserved := hpre.serving.serve
      dsimp only
      rw [hpre.ready]
      rcases hserve : serve prio (w.preempt prio) (w.actionDequeArray prio) with ⟨w', ended⟩
      rw [hserve] at hserved
      cases ended with
      | true =>
        refine hserved.settled (fun i hi => hpre.empty i (h.empty i fun hmem => ?_)) hpre.others
        rcases mem_cons.mp hmem with rfl | hmem
        · exact lt_irrefl i hi
        · exact lt_asymm hi (hfirst i hmem)
      | false =>
        exact ih (hserved.due hready (fun i hi => hpre.empty i (h.empty i hi)) hpre.others) hsorted'

theorem Due.schedule (h : Due w [0, 1, 2]) : Settled w.schedule := h.scheduleFrom (by decide)

theorem mem_prios (i : Prio) : i ∈ ([0, 1, 2] : List Prio) := by
  fin_cases i <;> decide

theorem mem_tail_eraseP {p : Item → Bool} (hx : x ∈ (items.eraseP p).tail) : x ∈ items.tail := by
  cases items with
  | nil => cases hx
  | cons item rest =>
    by_cases hitem : p item = true
    · rw [eraseP_cons_of_pos hitem] at hx
      exact mem_of_mem_tail hx
    · rw [eraseP_cons_of_neg hitem] at hx
      exact eraseP_sublist.subset hx

theorem head?_eraseP {p : Item → Bool} (hx : (items.eraseP p).head? = some x) :
    items.head? = some x ∨ x ∈ items.tail := by
  cases items with
  | nil => cases hx
  | cons item rest =>
    by_cases hitem : p item = true
    · rw [eraseP_cons_of_pos hitem] at hx
      exact .inr (mem_of_mem_head? hx)
    · rw [eraseP_cons_of_neg hitem] at hx
      exact .inl hx

theorem Settled.due_of_remove (h : Settled w) (prio : Prio) (hsize : 2 ≤ w.size) {p : Item → Bool}
    (hany : (w.actionDequeArray prio).any p) (hlog : w'.log = w.log)
    (hcounter : w'.actionIdAllocCounter = w.actionIdAllocCounter) (hsound : w'.fault = w.fault)
    (hcurr : w'.currActionDequeIndex = w.currActionDequeIndex) (harray : w'.actionDequeArray =
      update w.actionDequeArray prio ((w.actionDequeArray prio).eraseP p)) : Due w' [0, 1, 2] := by
  have hself : w'.actionDequeArray prio = (w.actionDequeArray prio).eraseP p := by
    rw [harray, update_self]
  have hother : ∀ i, i ≠ prio → w'.actionDequeArray i = w.actionDequeArray i := by
    intro i hi
    rw [harray, update_of_ne hi]
  have hsub : ∀ i, (w'.actionDequeArray i).Sublist (w.actionDequeArray i) := by
    intro i
    by_cases hi : i = prio
    · rw [hi, hself]
      exact eraseP_sublist
    · rw [hother i hi]
  refine ⟨?_, hsound.trans h.sound, fun i hi => absurd (mem_prios i) hi, fun i x hx => ?_,
    fun i x hx => ?_, fun k hk hempty => ?_⟩
  · exact h.book.mono [] (fun _ hin => absurd hin not_mem_nil)
      (hlog.trans (append_nil _).symm) hcounter (fun i => (hsub i).map Item.id)
      fun i x hx _ => (hsub i).subset hx
  · rw [hcurr]
    by_cases hi : i = prio
    · subst hi
      rw [hself] at hx
      rcases head?_eraseP hx with hx | hx
      · exact h.front i x hx
      · exact .inl (h.tail i x hx)
    · rw [hother i hi] at hx
      exact h.front i x hx
  · by_cases hi : i = prio
    · subst hi
      rw [hself] at hx
      exact h.tail i x (mem_tail_eraseP hx)
    · rw [hother i hi] at hx
      exact h.tail i x hx
  · obtain ⟨hbefore, item, rest, hdeque, -⟩ := h.current k (hcurr ▸ hk)
    -- it was the last of the current queue
    obtain rfl : k = prio := by
      by_contra hne
      rw [hother k hne, hdeque] at hempty
      cases hempty
    have hone : (w.actionDequeArray k).length = 1 := by
      obtain ⟨y, hy, hpy⟩ := List.any_eq_true.mp hany
      have hlength := length_eraseP_of_mem hy hpy
      rw [← hself, hempty, hdeque] at hlength
      rw [hdeque]
      rw [length_nil, length_cons] at hlength
      rw [length_cons]
      omega
    refine ⟨?_, fun i hi => ?_⟩
    · by_contra hall
      push Not at hall
      have hlength : ∀ i, i ≠ k → (w.actionDequeArray i).length = 0 := by
        intro i hi
        rw [← hother i hi, hall i, length_nil]
      have hless : w.size ≤ 1 := by
        rw [size]
        fin_cases k
        · exact (congrArg₂ (· + ·) (congrArg₂ (· + ·) hone (hlength 1 (by decide)))
            (hlength 2 (by decide))).le
        · exact (congrArg₂ (· + ·) (congrArg₂ (· + ·) (hlength 0 (by decide)) hone)
            (hlength 2 (by decide))).le
        · exact (congrArg₂ (· + ·) (congrArg₂ (· + ·) (hlength 0 (by decide))
            (hlength 1 (by decide))) hone).le
      omega
    · have hik : i ≠ k := by
        rintro rfl
        exact hi hempty
      rw [hother i hik] at hi
      exact lt_of_le_of_ne (not_lt.mp fun hlt => hi (hbefore i hlt)) (Ne.symm hik)

theorem Settled.due (h : Settled w) : Due w [0, 1, 2] where
  book := h.book
  sound := h.sound
  empty i hi := absurd (mem_prios i) hi
  front := h.front
  tail := h.tail
  current k hk hempty := by
    obtain ⟨-, item, rest, hdeque, -⟩ := h.current k hk
    rw [hempty] at hdeque
    cases hdeque

theorem Settled.append (h : Settled w) (prio : Prio) (finishes : Nat → Bool) : Settled (w.append prio finishes) := by
  let item : Item := { id := w.actionIdAllocCounter + 1, finishes := finishes }
  have hitem : item.Waits := ⟨nofun, nofun⟩
  have hhead : ∀ x, (w.actionDequeArray prio ++ [item]).head? = some x →
      x.Waits ∨ (w.actionDequeArray prio).head? = some x := by
    intro x hx
    cases hdeque : w.actionDequeArray prio with
    | nil =>
      rw [hdeque] at hx
      exact .inl (some.inj hx ▸ hitem)
    | cons y rest =>
      rw [hdeque] at hx
      exact .inr hx
  have htail : ∀ x ∈ (w.actionDequeArray prio ++ [item]).tail, x.Waits := by
    intro x hx
    cases hdeque : w.actionDequeArray prio with
    | nil =>
      rw [hdeque] at hx
      cases hx
    | cons y rest =>
      rw [hdeque, cons_append, tail_cons, mem_append, mem_singleton] at hx
      rcases hx with hx | rfl
      · exact h.tail prio x (by rw [hdeque]; exact hx)
      · exact hitem
  refine Due.schedule ⟨?_, h.sound, fun i hi => absurd (mem_prios i) hi, fun i x hx => ?_,
    fun i x hx => ?_, fun k hk hempty => ?_⟩
  · exact h.book.append item rfl rfl rfl rfl
  · change (update w.actionDequeArray prio (w.actionDequeArray prio ++ [item]) i).head? = _ at hx
    by_cases hi : i = prio
    · subst hi
      rw [update_self] at hx
      rcases hhead x hx with hwaits | hx
      · exact .inl hwaits
      · exact h.front i x hx
    · rw [update_of_ne hi] at hx
      exact h.front i x hx
  · change x ∈ (update w.actionDequeArray prio (w.actionDequeArray prio ++ [item]) i).tail at hx
    by_cases hi : i = prio
    · subst hi
      rw [update_self] at hx
      exact htail x hx
    · rw [update_of_ne hi] at hx
      exact h.tail i x hx
  · change update w.actionDequeArray prio (w.actionDequeArray prio ++ [item]) k = [] at hempty
    obtain ⟨-, y, rest, hdeque, -⟩ := h.current k hk
    by_cases hkp : k = prio
    · subst hkp
      rw [update_self] at hempty
      exact absurd hempty (append_ne_nil_of_right_ne_nil _ (cons_ne_nil _ _))
    · rw [update_of_ne hkp, hdeque] at hempty
      cases hempty

theorem Settled.cancelCurrent (h : Settled w) (hsize : w.currActionDequeIndex ≠ none → 2 ≤ w.size) :
    Settled w.cancelCurrent := by
  rw [ActionExecutor.cancelCurrent]
  split
  · exact h
  next k hcurr =>
    obtain ⟨-, item, rest, hdeque, -⟩ := h.current k hcurr
    rw [hdeque]
    have hdue : Due ((w.delete item).setDeque k rest) [0, 1, 2] := by
      refine h.due_of_remove k (p := fun x => x.id = item.id) (hsize ?_) ?_ rfl rfl rfl rfl ?_
      · rw [hcurr]
        exact some_ne_none k
      · rw [hdeque, any_cons, decide_eq_true rfl, Bool.true_or]
      · rw [hdeque, eraseP_cons_of_pos (p := fun x : Item => x.id = item.id) (decide_eq_true rfl)]
        rfl
    exact hdue.schedule

theorem any_of_find (hfind : w.find id = some prio) : (w.actionDequeArray prio).any (fun item => item.id = id) := by
  rw [find] at hfind
  exact find?_some (p := fun i => (w.actionDequeArray i).any fun item => item.id = id) hfind

theorem Settled.cancel (h : Settled w) (hsize : w.find id ≠ none → 2 ≤ w.size) : Settled (w.cancel id) := by
  rw [ActionExecutor.cancel]
  split
  · exact h
  next prio hfind =>
    have hdue : Due { (w.setDeque prio ((w.actionDequeArray prio).eraseP fun item => item.id = id)) with
        posted := w.posted.filter (· ≠ id) } [0, 1, 2] := by
      refine h.due_of_remove prio (hsize ?_) (any_of_find hfind) rfl rfl rfl rfl rfl
      rw [hfind]
      exact some_ne_none prio
    exact hdue.schedule

theorem stop_eq (hrunning : item.state ≠ .running) (hpause : item.state ≠ .pause) : stop item = item :=
  if_neg (not_or.mpr ⟨hrunning, hpause⟩)

theorem Settled.cancelAll (h : Settled w) (hfront : ∀ i, ∀ x ∈ (w.actionDequeArray i).head?,
    x.state ≠ .running ∧ x.state ≠ .pause) : Settled w.cancelAll := by
  have heq : w.cancelAll = w := by
    rw [ActionExecutor.cancelAll]
    congr 1
    funext i
    cases hdeque : w.actionDequeArray i with
    | nil => rfl
    | cons item rest =>
      obtain ⟨hrunning, hpause⟩ := hfront i item (by rw [hdeque]; rfl)
      exact congrArg (· :: rest) (stop_eq hrunning hpause)
  rw [heq]
  exact h

theorem Settled.deliver (h : Settled w) (posted : List ActionId) :
    Settled ({ w with posted } : ActionExecutor).schedule := by
  have hdue := h.due
  refine Due.schedule { hdue with book := ?_ }
  refine h.book.mono [] (fun _ hin => absurd hin not_mem_nil) (append_nil _).symm rfl (fun _ => ?_) fun _ _ hx _ => hx
  exact List.Sublist.refl _

def ended (id : ActionId) (item : Item) : Item :=
  if item.id = id then { item with state := .finished } else item

theorem ended_id (id : ActionId) (item : Item) : (ended id item).id = item.id := by
  rw [ended]
  split_ifs <;> rfl

theorem ended_eq_or (id : ActionId) (item : Item) :
    ended id item = item ∨ (ended id item).state = .finished ∧ item.id = id := by
  rw [ended]
  split_ifs with hid
  · exact .inr ⟨rfl, hid⟩
  · exact .inl rfl

theorem Settled.finish (h : Settled w) (id : ActionId) : Settled (w.finish id) := by
  have hdeque : ∀ i, (w.finish id).actionDequeArray i = (w.actionDequeArray i).map (ended id) := fun _ => rfl
  have hwaits : ∀ x, x.Waits → (ended id x).Waits := by
    intro x hx
    rcases ended_eq_or id x with heq | ⟨hstate, -⟩
    · rw [heq]
      exact hx
    · exact ⟨by rw [hstate]; exact nofun, by rw [hstate]; exact nofun⟩
  refine ⟨?_, h.sound, fun hnone i => ?_, fun k hk => ?_, fun i x hx => ?_, fun i x hx => ?_⟩
  · refine h.book.mono [] (fun _ hin => absurd hin not_mem_nil) (append_nil _).symm rfl
      (fun i => ?_) fun i x hx hidle => ?_
    · have hids : ((w.actionDequeArray i).map (ended id)).map Item.id = (w.actionDequeArray i).map Item.id := by
        rw [List.map_map]
        exact map_congr_left fun x _ => ended_id id x
      rw [hdeque, hids]
    · rw [hdeque] at hx
      obtain ⟨y, hy, rfl⟩ := List.mem_map.mp hx
      rcases ended_eq_or id y with heq | ⟨hstate, -⟩
      · rw [heq]
        exact hy
      · rw [hstate] at hidle
        cases hidle
  · rw [hdeque, h.idle hnone i, map_nil]
  · obtain ⟨hbefore, item, rest, hfront, hstate⟩ := h.current k hk
    refine ⟨fun j hj => ?_, ended id item, rest.map (ended id), ?_, ?_⟩
    · rw [hdeque, hbefore j hj, map_nil]
    · rw [hdeque, hfront, map_cons]
    rcases ended_eq_or id item with heq | ⟨hfinished, hid⟩
    · rw [heq]
      exact hstate.imp_right fun hboth => ⟨hboth.1, mem_append_left _ hboth.2⟩
    · refine .inr ⟨hfinished, ?_⟩
      rw [ended_id, hid]
      exact mem_append_right _ (mem_singleton_self id)
  · rw [hdeque, List.head?_map, map_eq_some_iff] at hx
    obtain ⟨y, hy, rfl⟩ := hx
    rcases h.front i y hy with hy | ⟨hrunning, hcurr⟩
    · exact .inl (hwaits y hy)
    rcases ended_eq_or id y with heq | ⟨hstate, -⟩
    · rw [heq]
      exact .inr ⟨hrunning, hcurr⟩
    · exact .inl ⟨by rw [hstate]; exact nofun, by rw [hstate]; exact nofun⟩
  · rw [hdeque, ← map_tail] at hx
    obtain ⟨y, hy, rfl⟩ := List.mem_map.mp hx
    exact hwaits y (h.tail i y hy)

/-- The last action is not taken away, and nothing is stopped on its queue. -/
def Careful (w : ActionExecutor) : Input → Prop
  | .cancelCurrent => w.currActionDequeIndex ≠ none → 2 ≤ w.size
  | .cancel id => w.find id ≠ none → 2 ≤ w.size
  | .cancelAll => ∀ i, ∀ x ∈ (w.actionDequeArray i).head?, x.state ≠ .running ∧ x.state ≠ .pause
  | .append .. | .finish _ | .deliver => True

instance decidableCareful : ∀ (w : ActionExecutor) (a : Input), Decidable (Careful w a)
  | w, .cancelCurrent => inferInstanceAs (Decidable (w.currActionDequeIndex ≠ none → 2 ≤ w.size))
  | w, .cancel id => inferInstanceAs (Decidable (w.find id ≠ none → 2 ≤ w.size))
  | w, .cancelAll => inferInstanceAs (Decidable (∀ i, ∀ x ∈ (w.actionDequeArray i).head?,
      x.state ≠ .running ∧ x.state ≠ .pause))
  | _, .append .. | _, .finish _ | _, .deliver => .isTrue trivial

/-- A careful call leaves the executor settled. -/
theorem settled_step (w : ActionExecutor) (a : Input) (w' : ActionExecutor) (h : Settled w)
    (hguard : Careful w a) (hstep : w.step a = some w') : Settled w' := by
  cases a with
  | append prio finishes => exact some.inj hstep ▸ h.append prio finishes
  | cancelCurrent => exact some.inj hstep ▸ h.cancelCurrent hguard
  | cancel id => exact some.inj hstep ▸ h.cancel hguard
  | cancelAll => exact some.inj hstep ▸ h.cancelAll hguard
  | finish id =>
    rw [ActionExecutor.step] at hstep
    split_ifs at hstep
    exact some.inj hstep ▸ h.finish id
  | deliver =>
    rw [ActionExecutor.step] at hstep
    split at hstep
    · cases hstep
    · exact some.inj hstep ▸ h.deliver _

theorem Settled.waits_or_running {i : Prio} (h : Settled w) (hin : item ∈ w.actionDequeArray i) : item.Waits ∨
    item.state = .running ∧ w.currActionDequeIndex = some i ∧ (w.actionDequeArray i).head? = some item := by
  cases hdeque : w.actionDequeArray i with
  | nil =>
    rw [hdeque] at hin
    cases hin
  | cons y rest =>
    rw [hdeque] at hin
    rcases mem_cons.mp hin with rfl | hin
    · exact (h.front i item (by rw [hdeque]; rfl)).imp_right fun h => ⟨h.1, h.2, rfl⟩
    · exact .inl (h.tail i item (by rw [hdeque]; exact hin))

theorem Settled.scheduled (h : Settled w) : Scheduled w where
  sound := h.sound
  none_iff := by
    refine ⟨h.idle, fun hempty => ?_⟩
    cases hcurr : w.currActionDequeIndex with
    | none => rfl
    | some k =>
      obtain ⟨-, item, rest, hdeque, -⟩ := h.current k hcurr
      rw [hempty k] at hdeque
      cases hdeque
  front := h.current
  only i item hin hrunning := by
    obtain hwaits | ⟨-, hcurr, hhead⟩ := h.waits_or_running hin
    · exact absurd hrunning hwaits.1
    · exact ⟨hcurr, hhead⟩
  waiting i item hin hstarted := by
    have hstoped : item.state ≠ .stoped := by
      obtain hwaits | ⟨hrunning, -⟩ := h.waits_or_running hin
      · exact hwaits.2
      · rw [hrunning]
        exact nofun
    have hidle : item.state ≠ .idle := by
      intro hidle
      exact (h.book.ahead i item hin item.id hstarted).2 hidle rfl
    cases hstate : item.state with
    | idle => exact absurd hstate hidle
    | running => exact .inl rfl
    | pause => exact .inr (.inl rfl)
    | finished => exact .inr (.inr rfl)
    | stoped => exact absurd hstate hstoped
  order := h.book.order
  issued := h.book.issued
  appended := h.book.appended

/-- **After every call the most urgent action there is is the one that runs**, as long as the calls are
careful. -/
theorem scheduled_of_run (inputs : List Input) (w : ActionExecutor)
    (hcareful : Lib.Along ActionExecutor.step Careful {} inputs)
    (hrun : Lib.run ActionExecutor.step {} inputs = some w) : Scheduled w :=
  (Lib.run_invariant settled_step settled_init hcareful hrun).scheduled

/-- Of three actions the last to come goes first and finishes, the first is resumed and cancelled, and the
second runs. -/
def threeActions : List Input :=
  [.append 1 fun _ => false, .append 2 fun _ => false, .append 0 fun _ => false, .finish 3, .deliver,
    .cancelCurrent]

theorem threeActions_scheduled : ∃ w, Lib.run ActionExecutor.step {} threeActions = some w ∧
    w.currActionDequeIndex = some 2 ∧ Scheduled w :=
  ⟨_, rfl, by decide +kernel, scheduled_of_run threeActions _ (by decide +kernel) rfl⟩

/-- With the last action cancelled its queue stays the current one, and then a more urgent action comes. -/
theorem scheduled_fails : ¬∀ inputs w, Lib.run ActionExecutor.step {} inputs = some w → Scheduled w := by
  intro h
  have hscheduled := h [.append 1 fun _ => false, .cancelCurrent, .append 0 fun _ => false] _ rfl
  exact absurd hscheduled.sound (by decide +kernel)

end Tbox.Flow.Executor
