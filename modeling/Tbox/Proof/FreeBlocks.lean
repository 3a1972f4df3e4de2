import Tbox.Base.ObjectPool
import Tbox.Lib.Run

/-!
# The blocks of an object pool

A block is in the list of free ones, or an object has it, or it is not of the pool. Whatever constructors and
destructors call, no block is in two of these places, and none is lost.
-/

open List Option

namespace Tbox.ObjectPool

open Function (update update_self update_of_ne)

variable {s t : ObjectPool} {b p fresh : Address} {header : Option Address} {chain rest : List Address}
  {calls : List Call} {blocks : Address → Block} {block : Block} {keepNumber : Nat}

def Block.isFree : Block → Bool
  | .free _ => true
  | _ => false

/-- Beginning with that header, these are the blocks that are reached by `next`. -/
def Chain (blocks : Address → Block) : Option Address → List Address → Prop
  | header, [] => header = none
  | header, b :: chain => header = some b ∧ ∃ next, blocks b = .free next ∧ Chain blocks next chain

/-- The blocks of objects, of which some are under construction and some under destruction. -/
def held (s : ObjectPool) : List Address := s.calls.map Call.object ++ s.objects

structure Books (keepNumber : Nat) (s : ObjectPool) (chain : List Address) : Prop where
  linked : Chain s.blocks s.freeHeader chain
  free : ∀ b, (s.blocks b).isFree = true ↔ b ∈ chain
  object : ∀ b, s.blocks b = .object ↔ b ∈ s.held
  once : chain.Nodup ∧ s.held.Nodup
  keep : s.keepNumber = keepNumber
  number : chain.length ≤ keepNumber ∧ (s.destroying = false → s.freeNumber = chain.length)
  quiet : s.destroying = true → s.calls = []
  balance : s.stat.totalAllocTimes =
    s.stat.totalFreeTimes + s.objects.length + s.calls.countP Call.isDestructor
  sound : s.fault = false

theorem Chain.update (h : Chain blocks header chain) (hb : b ∉ chain) :
    Chain (update blocks b block) header chain := by
  induction chain generalizing header with
  | nil => exact h
  | cons c chain ih =>
    obtain ⟨rfl, next, hnext, hrest⟩ := h
    refine ⟨rfl, next, ?_, ih hrest fun hmem => hb (mem_cons_of_mem c hmem)⟩
    rw [update_of_ne (ne_of_mem_of_not_mem mem_cons_self hb)]
    exact hnext

theorem update_iff {P : Block → Prop} {l l' : List Address} (h : ∀ c, P (blocks c) ↔ c ∈ l)
    (hb : P block ↔ b ∈ l') (hl : ∀ c ≠ b, c ∈ l ↔ c ∈ l') (c : Address) : P (update blocks b block c) ↔ c ∈ l' := by
  by_cases hc : c = b
  · rw [hc, update_self]
    exact hb
  · rw [update_of_ne hc, h, hl c hc]

theorem mem_cons_iff_of_ne {c : Address} (hc : c ≠ b) : c ∈ b :: chain ↔ c ∈ chain := by
  rw [mem_cons, or_iff_right hc]

namespace Books

theorem unlink (h : Books keepNumber s chain) (hheader : s.freeHeader = some b) :
    ∃ next rest, chain = b :: rest ∧ s.unlink b = { s with freeHeader := next } ∧ Chain s.blocks next rest := by
  have hlinked := h.linked
  cases chain with
  | nil => exact nomatch hheader.symm.trans hlinked
  | cons c rest =>
    obtain ⟨hc, next, hnext, hrest⟩ := hlinked
    cases hheader.symm.trans hc
    refine ⟨next, rest, rfl, ?_, hrest⟩
    rw [ObjectPool.unlink, hnext]

theorem not_mem_held (h : Books keepNumber s chain) (hb : b ∈ chain) : b ∉ s.held := by
  intro hheld
  have hfree := (h.free b).mpr hb
  rw [(h.object b).mpr hheld] at hfree
  cases hfree

theorem live (h : Books keepNumber s chain) {call : Call} (hcalls : s.calls = call :: calls) : s.destroying = false :=
  Bool.eq_false_of_not_eq_true fun hdestroying => nomatch hcalls.symm.trans (h.quiet hdestroying)

theorem alloc (h : Books keepNumber s chain) (hlive : s.destroying = false) (hfresh : s.blocks fresh = .outside) :
    ∃ chain, Books keepNumber (s.alloc fresh) chain := by
  have hquiet : ∀ {calls : List Call}, s.destroying = true → calls = [] :=
    fun hdestroying => nomatch hlive.symm.trans hdestroying
  unfold ObjectPool.alloc
  cases hheader : s.freeHeader with
  | none =>
    have hnotheld : fresh ∉ s.held := fun hheld => nomatch hfresh.symm.trans ((h.object fresh).mpr hheld)
    have hnotfree : fresh ∉ chain := by
      intro hmem
      have hfree := (h.free fresh).mpr hmem
      rw [hfresh] at hfree
      cases hfree
    exact ⟨chain, { h with
      linked := h.linked.update hnotfree
      free := update_iff (P := (·.isFree = true)) h.free (iff_of_false Bool.false_ne_true hnotfree) fun _ _ => Iff.rfl
      object := update_iff (P := (· = .object)) h.object (iff_of_true rfl mem_cons_self) fun c hc => (mem_cons_iff_of_ne hc).symm
      once := ⟨h.once.1, nodup_cons.mpr ⟨hnotheld, h.once.2⟩⟩
      quiet := hquiet }⟩
  | some b =>
    obtain ⟨next, rest, rfl, hunlink, hrest⟩ := h.unlink hheader
    obtain ⟨hb, honce⟩ := nodup_cons.mp h.once.1
    dsimp only
    rw [hunlink]
    exact ⟨rest, { h with
      linked := hrest.update hb
      free := update_iff (P := (·.isFree = true)) h.free (iff_of_false Bool.false_ne_true hb) fun c hc => mem_cons_iff_of_ne hc
      object := update_iff (P := (· = .object)) h.object (iff_of_true rfl mem_cons_self) fun c hc => (mem_cons_iff_of_ne hc).symm
      once := ⟨honce, nodup_cons.mpr ⟨h.not_mem_held mem_cons_self, h.once.2⟩⟩
      number := ⟨Nat.le_of_succ_le h.number.1, fun _ => congrArg (· - 1) (h.number.2 hlive)⟩
      quiet := hquiet }⟩

theorem allocated (h : Books keepNumber s chain) (hcalls : s.calls = .constructor p :: calls) :
    Books keepNumber ({ s with calls }.allocated p) chain := by
  have hheld : (held ({ s with calls }.allocated p)).Perm s.held := by
    rw [held, held, hcalls]
    exact perm_middle
  have hbalance := h.balance
  rw [hcalls, countP_cons_of_neg Bool.false_ne_true] at hbalance
  exact { h with
    object c := (h.object c).trans hheld.mem_iff.symm
    once := ⟨h.once.1, hheld.nodup_iff.mpr h.once.2⟩
    quiet hdestroying := nomatch (h.live hcalls).symm.trans hdestroying
    balance := by
      simp only [ObjectPool.allocated, length_cons]
      omega }

theorem freeing (h : Books keepNumber s chain) (hlive : s.destroying = false) (hp : p ∈ s.objects) :
    Books keepNumber (s.free p) chain := by
  have hheld : (held (s.free p)).Perm s.held :=
    perm_middle.symm.trans (List.Perm.append_left _ (perm_cons_erase hp).symm)
  have hbalance := h.balance
  have hlength := length_erase_add_one hp
  exact { h with
    object c := (h.object c).trans hheld.mem_iff.symm
    once := ⟨h.once.1, hheld.nodup_iff.mpr h.once.2⟩
    quiet hdestroying := nomatch hlive.symm.trans hdestroying
    balance := by
      simp only [ObjectPool.free, countP_cons_of_pos (p := Call.isDestructor) (a := .destructor p) rfl]
      omega }

theorem freed (h : Books keepNumber s chain) (hcalls : s.calls = .destructor p :: calls) :
    ∃ chain, Books keepNumber ({ s with calls }.freed p) chain := by
  have hlive := h.live hcalls
  have hheld : s.held = p :: held { s with calls } := by rw [held, hcalls]; rfl
  have hp : s.blocks p = .object := (h.object p).mpr (hheld ▸ mem_cons_self)
  have hnotfree : p ∉ chain := fun hmem => h.not_mem_held hmem (hheld ▸ mem_cons_self)
  obtain ⟨hout, honce⟩ := nodup_cons.mp (hheld ▸ h.once.2)
  have hbalance := h.balance
  rw [hcalls, countP_cons_of_pos rfl] at hbalance
  have hobject : ∀ block ≠ .object, ∀ c, update s.blocks p block c = .object ↔ c ∈ held { s with calls } :=
    fun block hblock => update_iff (P := (· = .object)) (hheld ▸ h.object) (iff_of_false hblock hout) fun c hc => mem_cons_iff_of_ne hc
  unfold ObjectPool.freed
  by_cases hroom : s.freeNumber < s.keepNumber
  · rw [if_pos (show ({ s with calls } : ObjectPool).freeNumber < _ from hroom)]
    exact ⟨p :: chain, { h with
      linked := ⟨rfl, s.freeHeader, update_self .., h.linked.update hnotfree⟩
      free := update_iff (P := (·.isFree = true)) h.free (iff_of_true rfl mem_cons_self) fun c hc => (mem_cons_iff_of_ne hc).symm
      object := hobject _ nofun
      once := ⟨nodup_cons.mpr ⟨hnotfree, h.once.1⟩, honce⟩
      number := ⟨by rwa [length_cons, ← h.number.2 hlive, ← h.keep], fun _ => congrArg (· + 1) (h.number.2 hlive)⟩
      quiet hdestroying := nomatch hlive.symm.trans hdestroying
      balance := by
        simp only [push, setBlock]
        omega }⟩
  · rw [if_neg (show ¬({ s with calls } : ObjectPool).freeNumber < _ from hroom), release,
      if_neg (show ¬s.blocks p = .outside from fun hnone => nomatch hp.symm.trans hnone)]
    exact ⟨chain, { h with
      linked := h.linked.update hnotfree
      free := update_iff (P := (·.isFree = true)) h.free (iff_of_false Bool.false_ne_true hnotfree) fun _ _ => Iff.rfl
      object := hobject _ nofun
      once := ⟨h.once.1, honce⟩
      quiet hdestroying := nomatch hlive.symm.trans hdestroying
      balance := by
        simp only [setBlock]
        omega }⟩

theorem destroyNext (h : Books keepNumber s chain) (hheader : s.freeHeader = some b)
    (hdestroying : s.destroying = true) : ∃ chain, Books keepNumber ((s.unlink b).release b) chain := by
  obtain ⟨next, rest, rfl, hunlink, hrest⟩ := h.unlink hheader
  obtain ⟨hout, honce⟩ := nodup_cons.mp h.once.1
  have hfree := (h.free b).mpr mem_cons_self
  have hpool : s.blocks b ≠ .outside := fun hnone => nomatch hnone ▸ hfree
  rw [hunlink, release, if_neg (show ¬s.blocks b = .outside from hpool)]
  exact ⟨rest, { h with
    linked := hrest.update hout
    free := update_iff (P := (·.isFree = true)) h.free (iff_of_false Bool.false_ne_true hout) fun c hc => mem_cons_iff_of_ne hc
    object := update_iff (P := (· = .object)) h.object (iff_of_false nofun (h.not_mem_held mem_cons_self)) fun _ _ => Iff.rfl
    once := ⟨honce, h.once.2⟩
    number := ⟨Nat.le_of_succ_le h.number.1, fun hlive => nomatch hdestroying.symm.trans hlive⟩ }⟩

/-- The books are kept by every step, with another chain of free blocks. -/
theorem step {a : Action} (h : Books keepNumber s chain) (hstep : s.step a = some t) :
    ∃ chain, Books keepNumber t chain := by
  cases a with
  | alloc fresh =>
    obtain ⟨⟨hlive, hfresh⟩, rfl⟩ := ite_some_none_eq_some.mp hstep
    exact h.alloc hlive hfresh
  | free p =>
    obtain ⟨⟨hlive, hp⟩, rfl⟩ := ite_some_none_eq_some.mp hstep
    exact ⟨chain, h.freeing hlive hp⟩
  | returned =>
    rw [ObjectPool.step] at hstep
    split at hstep
    · cases hstep
    · next hcalls =>
        cases hstep
        exact ⟨chain, h.allocated hcalls⟩
    · next hcalls =>
        cases hstep
        exact h.freed hcalls
  | destroy =>
    obtain ⟨⟨-, hcalls⟩, rfl⟩ := ite_some_none_eq_some.mp hstep
    exact ⟨chain, { h with number := ⟨h.number.1, nofun⟩, quiet := fun _ => hcalls }⟩
  | destroyNext =>
    obtain ⟨hdestroying, hstep⟩ := ite_none_right_eq_some.mp hstep
    obtain ⟨b, hheader, rfl⟩ := map_eq_some_iff.mp hstep
    exact h.destroyNext hheader hdestroying

end Books

/-- **No block is lost, and none is given away twice**, constructors and destructors that use the pool included. After
the destructor of the pool only objects have any. -/
theorem books_always (keepNumber : Nat) (actions : List Action) :
    Lib.Always step (fun s => (∃ chain, Books keepNumber s chain) ∧
      (s.destroying = true → s.freeHeader = none → ∀ b, s.blocks b ≠ .outside → b ∈ s.objects))
      { keepNumber } actions := by
  intro pre _ s hrun
  obtain ⟨chain, h⟩ : ∃ chain, Books keepNumber s chain := by
    refine Lib.run_invariant_of_step (I := fun s => ∃ chain, Books keepNumber s chain) ?_ ⟨[], ?_⟩ hrun
    · rintro s a t ⟨chain, hs⟩ hstep
      exact hs.step hstep
    · exact ⟨rfl, fun b => ⟨nofun, nofun⟩, fun b => ⟨nofun, nofun⟩, ⟨nodup_nil, nodup_nil⟩, rfl,
        ⟨Nat.zero_le _, fun _ => rfl⟩, nofun, rfl, rfl⟩
  refine ⟨⟨chain, h⟩, fun hdestroying hnone b hb => ?_⟩
  have hheld : s.held = s.objects := by rw [held, h.quiet hdestroying]; rfl
  cases hblock : s.blocks b with
  | outside => exact absurd hblock hb
  | object => exact hheld ▸ (h.object b).mp hblock
  | free next =>
    have hmem := (h.free b).mp (by rw [hblock]; rfl)
    have hlinked := hnone ▸ h.linked
    cases chain with
    | nil => cases hmem
    | cons c rest => exact nomatch hlinked.1

end Tbox.ObjectPool
