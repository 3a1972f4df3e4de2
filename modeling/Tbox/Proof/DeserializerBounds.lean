import Tbox.Util.Serializer

/-!
# The reader and its buffer

`checkSize` adds before it compares. As long as no sum of 64 bits wraps the reader stays inside; the first that does
makes it read outside, or hand out a pointer with too little behind it.
-/

open Option

namespace Tbox.Util.Deserializer

open Lib (Block)

/-- What can be asked of a reader. -/
inductive Call
  | setEndian (e : Endian)
  | setPos (pos : UInt64)
  | fetch8
  | fetch16
  | fetch32
  | fetch64
  | fetch (size : UInt64)
  | fetchPOD (size : UInt64)
  | fetchNoCopy (size : UInt64)
  | skip (size : UInt64)
  deriving DecidableEq, Repr

inductive Reply
  | failed
  | done
  | pointer (offset : UInt64)
  deriving DecidableEq, Repr

def ofBool : Bool × Deserializer → Reply × Deserializer := Prod.map (fun b => if b then .done else .failed) id

def ofFetch {α : Type} : Option α × Deserializer → Reply × Deserializer :=
  Prod.map (fun value => if value.isSome then .done else .failed) id

def call : Call → Deserializer → Option (Reply × Deserializer)
  | .setEndian e, d => some (.done, d.setEndian e)
  | .setPos pos, d => some (ofBool (d.setPos pos))
  | .fetch8, d => d.fetch8.map ofFetch
  | .fetch16, d => d.fetch16.map ofFetch
  | .fetch32, d => d.fetch32.map ofFetch
  | .fetch64, d => d.fetch64.map ofFetch
  | .fetch size, d => (d.fetch size).map ofFetch
  | .fetchPOD size, d => (d.fetchPOD size).map ofFetch
  | .fetchNoCopy size, d => some (Prod.map (fun p => p.elim .failed .pointer) id (d.fetchNoCopy size))
  | .skip size, d => some (ofBool (d.skip size))

/-- It stands in its buffer or at its end. -/
def Inside (d : Deserializer) : Prop := d.pos.toNat ≤ d.block.bytes.length

/-- A call that has returned has left the reader in its buffer, where it was if it failed, and a pointer has as many
bytes behind it as were asked for. -/
structure Bounded (d : Deserializer) (c : Call) (reply : Reply) (d' : Deserializer) : Prop where
  block : d'.block = d.block
  inside : d'.Inside
  failed : reply = .failed → d'.pos = d.pos
  pointer : ∀ size offset, c = .fetchNoCopy size → reply = .pointer offset →
    offset.toNat + size.toNat ≤ d.block.bytes.length

/-- Every call returns, so that it has read nothing outside, and is bounded. -/
def StaysInside : List Call → Deserializer → Prop
  | [], _ => True
  | c :: cs, d => ∃ reply d', d.call c = some (reply, d') ∧ d.Bounded c reply d' ∧ StaysInside cs d'

/-- The bytes a call takes, if it does more with them than to pass over them. -/
def Call.taken : Call → Nat
  | .setEndian _ | .setPos _ | .skip _ => 0
  | .fetch8 => 1
  | .fetch16 => 2
  | .fetch32 => 4
  | .fetch64 => 8
  | .fetch size | .fetchPOD size | .fetchNoCopy size => size.toNat

/-- No position to which bytes are taken is beyond the numbers. -/
def NoWrap : List Call → Deserializer → Prop
  | [], _ => True
  | c :: cs, d => d.pos.toNat + c.taken < 2 ^ 64 ∧ ∀ reply d', d.call c = some (reply, d') → NoWrap cs d'

variable {α : Type} {d d' : Deserializer} {c : Call} {cs : List Call} {size : UInt64} {read : Option α}

theorem checkSize_iff (hd : d.Inside) : d.checkSize size = true ↔
    d.pos.toNat + size.toNat ≤ d.block.bytes.length ∨ 2 ^ 64 ≤ d.pos.toNat + size.toNat := by
  have hlt := d.block.length_lt
  have hsize := size.toNat_lt
  rw [Inside] at hd
  rw [checkSize, decide_eq_true_eq, UInt64.le_iff_toNat_le, UInt64.toNat_add, Block.toNat_size]
  omega

theorem toNat_pos_add (h : d.pos.toNat + size.toNat < 2 ^ 64) : (d.pos + size).toNat = d.pos.toNat + size.toNat := by
  rw [UInt64.toNat_add, Nat.mod_eq_of_lt h]

/-- What reads `size` bytes where they are. -/
def ReadsThere (d : Deserializer) (size : UInt64) (read : Option α) : Prop :=
  (∃ value, read = some value) ↔ d.pos.toNat + size.toNat ≤ d.block.bytes.length

def Returns (d : Deserializer) (r : Option (Option α × Deserializer)) : Prop :=
  ∃ value d', r = some (value, d') ∧ d'.block = d.block ∧ d'.Inside ∧ (value = none → d'.pos = d.pos)

variable {r : Option (Option α × Deserializer)}

theorem Returns.map {β : Type} (f : α → β) (h : d.Returns r) :
    d.Returns (r.map (Prod.map (Option.map f) id)) := by
  obtain ⟨value, d', rfl, hblock, hinside, hnone⟩ := h
  exact ⟨value.map f, d', rfl, hblock, hinside, fun hmap => hnone (map_eq_none_iff.mp hmap)⟩

theorem Returns.bounded (h : d.Returns r)
    (hc : ∀ size, c ≠ .fetchNoCopy size) : ∃ reply d', r.map ofFetch = some (reply, d') ∧ d.Bounded c reply d' := by
  obtain ⟨value, d', rfl, hblock, hinside, hnone⟩ := h
  refine ⟨_, d', rfl, hblock, hinside, fun hfailed => hnone ?_, fun size _ heq => absurd heq (hc size)⟩
  cases value with
  | none => rfl
  | some value => simp at hfailed

theorem fetchChecked_returns (hd : d.Inside) (hread : d.ReadsThere size read)
    (hwrap : d.pos.toNat + size.toNat < 2 ^ 64) : d.Returns (d.fetchChecked size read) := by
  by_cases hfits : d.pos.toNat + size.toNat ≤ d.block.bytes.length
  · obtain ⟨value, hvalue⟩ := hread.mpr hfits
    refine ⟨some value, { d with pos := d.pos + size }, ?_, rfl, ?_, nofun⟩
    · rw [fetchChecked, if_pos ((checkSize_iff hd).mpr (.inl hfits)), hvalue, map_some]
    · rw [Inside, toNat_pos_add hwrap]
      exact hfits
  · refine ⟨none, d, ?_, rfl, hd, fun _ => rfl⟩
    rw [fetchChecked, if_neg fun hcheck => ?_]
    rcases (checkSize_iff hd).mp hcheck with h | h <;> omega

theorem fetchChecked_wraps (hd : d.Inside) (hread : d.ReadsThere size read)
    (hwrap : 2 ^ 64 ≤ d.pos.toNat + size.toNat) : d.fetchChecked size read = none := by
  have hlt := d.block.length_lt
  rw [fetchChecked, if_pos ((checkSize_iff hd).mpr (.inr hwrap)), map_eq_none_iff, eq_none_iff_forall_ne_some]
  intro value hvalue
  have hfits := hread.mp ⟨value, hvalue⟩
  omega

theorem readsThere_load (d : Deserializer) (size : UInt64) :
    d.ReadsThere size (d.block.load d.pos.toNat size.toNat) := by
  simp [ReadsThere, Block.load]

theorem readsThere_map {β : Type} (f : α → β) (h : d.ReadsThere size read) : d.ReadsThere size (read.map f) := by
  rw [ReadsThere] at h ⊢
  rw [← h]
  cases read <;> simp

theorem readsThere_takeBytes {places : List Nat} (hplaces : ∀ n, (∀ i ∈ places, d.pos.toNat + i < n) ↔
    d.pos.toNat + size.toNat ≤ n) : d.ReadsThere size (d.block.takeBytes d.pos.toNat places 0) := by
  rw [ReadsThere, Block.exists_takeBytes_iff, hplaces]

def PlacesOf (width : Nat) (places : List Nat) : Prop :=
  ∀ pos n, (∀ i ∈ places, pos + i < n) ↔ pos + width ≤ n

theorem fetchInteger_readsThere {width : Nat} {big little : List Nat} (hwidth : width < 2 ^ 64)
    (hbig : PlacesOf width big) (hlittle : PlacesOf width little) :
    d.ReadsThere (.ofNat width) (d.block.takeBytes d.pos.toNat (match d.endian with
      | .kBig => big
      | .kLittle => little) 0) := by
  have hsize : (UInt64.ofNat width).toNat = width := by
    rw [UInt64.toNat_ofNat', Nat.mod_eq_of_lt hwidth]
  refine readsThere_takeBytes fun n => ?_
  rw [hsize]
  cases d.endian with
  | kBig => exact hbig _ n
  | kLittle => exact hlittle _ n

theorem fetchInteger_bounds {width : Nat} {big little : List Nat} (hwidth : width < 2 ^ 64)
    (hbig : PlacesOf width big) (hlittle : PlacesOf width little) (hd : d.Inside) :
    (d.pos.toNat + width < 2 ^ 64 → d.Returns (d.fetchInteger width big little)) ∧
      (2 ^ 64 ≤ d.pos.toNat + width → d.fetchInteger width big little = none) := by
  have hsize : (UInt64.ofNat width).toNat = width := by
    rw [UInt64.toNat_ofNat', Nat.mod_eq_of_lt hwidth]
  have hread := fetchInteger_readsThere (d := d) hwidth hbig hlittle
  exact ⟨fun hwrap => fetchChecked_returns hd hread (by rwa [hsize]),
    fun hwrap => fetchChecked_wraps hd hread (by rwa [hsize])⟩

theorem placesOf_one : PlacesOf 1 [0] := by
  intro pos n
  simp

theorem placesOf_two : PlacesOf 2 [0, 1] ∧ PlacesOf 2 [1, 0] := by
  constructor <;> intro pos n <;> simp <;> omega

theorem placesOf_four : PlacesOf 4 [0, 1, 2, 3] ∧ PlacesOf 4 [3, 2, 1, 0] := by
  constructor <;> intro pos n <;> simp <;> omega

theorem placesOf_eight : PlacesOf 8 [0, 1, 2, 3, 4, 5, 6, 7] ∧ PlacesOf 8 [7, 6, 5, 4, 3, 2, 1, 0] := by
  constructor <;> intro pos n <;> simp <;> omega

theorem setPos_bounded (hd : d.Inside) (pos : UInt64) :
    d.Bounded (.setPos pos) (ofBool (d.setPos pos)).1 (ofBool (d.setPos pos)).2 := by
  by_cases hpos : pos < d.block.size
  · rw [setPos, if_pos hpos]
    refine ⟨rfl, ?_, nofun, nofun⟩
    have hlt := UInt64.lt_iff_toNat_lt.mp hpos
    rw [Block.toNat_size] at hlt
    exact hlt.le
  · rw [setPos, if_neg hpos]
    exact ⟨rfl, hd, fun _ => rfl, nofun⟩

theorem skip_bounded (hd : d.Inside) (size : UInt64) :
    d.Bounded (.skip size) (ofBool (d.skip size)).1 (ofBool (d.skip size)).2 := by
  by_cases hcheck : d.checkSize size = true
  · rw [skip, if_pos hcheck]
    refine ⟨rfl, ?_, nofun, nofun⟩
    have hle := UInt64.le_iff_toNat_le.mp (of_decide_eq_true hcheck)
    rw [Block.toNat_size] at hle
    exact hle
  · rw [skip, if_neg hcheck]
    exact ⟨rfl, hd, fun _ => rfl, nofun⟩

theorem fetchNoCopy_bounded (hd : d.Inside) (hwrap : d.pos.toNat + size.toNat < 2 ^ 64) :
    ∃ reply d', d.call (.fetchNoCopy size) = some (reply, d') ∧ d.Bounded (.fetchNoCopy size) reply d' := by
  by_cases hfits : d.pos.toNat + size.toNat ≤ d.block.bytes.length
  · refine ⟨.pointer d.pos, { d with pos := d.pos + size }, ?_, rfl, ?_, nofun, ?_⟩
    · rw [call, fetchNoCopy, if_pos ((checkSize_iff hd).mpr (.inl hfits))]
      rfl
    · rw [Inside, toNat_pos_add hwrap]
      exact hfits
    · rintro _ _ ⟨⟩ ⟨⟩
      exact hfits
  · refine ⟨.failed, d, ?_, rfl, hd, fun _ => rfl, nofun⟩
    rw [call, fetchNoCopy, if_neg fun hcheck => ?_]
    · rfl
    · rcases (checkSize_iff hd).mp hcheck with h | h <;> omega

theorem call_bounded (hd : d.Inside) (hwrap : d.pos.toNat + c.taken < 2 ^ 64) :
    ∃ reply d', d.call c = some (reply, d') ∧ d.Bounded c reply d' := by
  cases c with
  | setEndian e =>
    exact ⟨.done, d.setEndian e, rfl, rfl, hd, nofun, nofun⟩
  | setPos pos => exact ⟨_, _, rfl, setPos_bounded hd pos⟩
  | skip size => exact ⟨_, _, rfl, skip_bounded hd size⟩
  | fetchNoCopy size => exact fetchNoCopy_bounded hd hwrap
  | fetch8 =>
    have hreturns := (fetchInteger_bounds (by decide) placesOf_one placesOf_one hd).1 hwrap
    exact (hreturns.map UInt8.ofNat).bounded nofun
  | fetch16 =>
    have hreturns := (fetchInteger_bounds (by decide) placesOf_two.1 placesOf_two.2 hd).1 hwrap
    exact (hreturns.map UInt16.ofNat).bounded nofun
  | fetch32 =>
    have hreturns := (fetchInteger_bounds (by decide) placesOf_four.1 placesOf_four.2 hd).1 hwrap
    exact (hreturns.map UInt32.ofNat).bounded nofun
  | fetch64 =>
    have hreturns := (fetchInteger_bounds (by decide) placesOf_eight.1 placesOf_eight.2 hd).1 hwrap
    exact (hreturns.map UInt64.ofNat).bounded nofun
  | fetch size =>
    exact (fetchChecked_returns hd (readsThere_load d size) hwrap).bounded nofun
  | fetchPOD size =>
    exact (fetchChecked_returns hd (readsThere_map _ (readsThere_load d size)) hwrap).bounded nofun

theorem not_bounded_of_wraps {reply : Reply} (hd : d.Inside) (hwrap : 2 ^ 64 ≤ d.pos.toNat + c.taken)
    (hcall : d.call c = some (reply, d')) : ¬d.Bounded c reply d' := by
  have hpos := d.pos.toNat_lt
  have hlt := d.block.length_lt
  cases c with
  | setEndian e => exact absurd hwrap (by simp only [Call.taken]; omega)
  | setPos pos => exact absurd hwrap (by simp only [Call.taken]; omega)
  | skip size => exact absurd hwrap (by simp only [Call.taken]; omega)
  | fetch8 =>
    rw [call, fetch8, (fetchInteger_bounds (by decide) placesOf_one placesOf_one hd).2 hwrap] at hcall
    cases hcall
  | fetch16 =>
    rw [call, fetch16, (fetchInteger_bounds (by decide) placesOf_two.1 placesOf_two.2 hd).2 hwrap] at hcall
    cases hcall
  | fetch32 =>
    rw [call, fetch32, (fetchInteger_bounds (by decide) placesOf_four.1 placesOf_four.2 hd).2 hwrap] at hcall
    cases hcall
  | fetch64 =>
    rw [call, fetch64, (fetchInteger_bounds (by decide) placesOf_eight.1 placesOf_eight.2 hd).2 hwrap] at hcall
    cases hcall
  | fetch size =>
    rw [call, fetch, fetchChecked_wraps hd (readsThere_load d size) hwrap] at hcall
    cases hcall
  | fetchPOD size =>
    rw [call, fetchPOD, fetchChecked_wraps hd (readsThere_map _ (readsThere_load d size)) hwrap] at hcall
    cases hcall
  | fetchNoCopy size =>
    rw [call, fetchNoCopy, if_pos ((checkSize_iff hd).mpr (.inr hwrap))] at hcall
    cases hcall
    intro hbounded
    have hbehind := hbounded.pointer size d.pos rfl rfl
    rw [Call.taken] at hwrap
    omega

/-- **A reader stays inside its buffer for as long as no position to which it takes bytes wraps**, and no longer. -/
theorem staysInside_iff_noWrap (block : Block) (e : Endian) (cs : List Call) :
    StaysInside cs { block := block, endian := e } ↔ NoWrap cs { block := block, endian := e } := by
  suffices h : ∀ d : Deserializer, d.Inside → (StaysInside cs d ↔ NoWrap cs d) from h _ (by simp [Inside])
  induction cs with
  | nil => exact fun _ _ => Iff.rfl
  | cons c cs ih =>
    intro d hd
    rw [StaysInside, NoWrap]
    constructor
    · rintro ⟨reply, d', hcall, hbounded, hrest⟩
      refine ⟨Nat.lt_of_not_le fun hwrap => not_bounded_of_wraps hd hwrap hcall hbounded, ?_⟩
      intro reply' d'' hcall'
      obtain ⟨rfl, rfl⟩ := Prod.mk.inj (Option.some.inj (hcall.symm.trans hcall'))
      exact (ih d' hbounded.inside).mp hrest
    · rintro ⟨hwrap, hrest⟩
      obtain ⟨reply, d', hcall, hbounded⟩ := call_bounded hd hwrap
      exact ⟨reply, d', hcall, hbounded, (ih d' hbounded.inside).mpr (hrest reply d' hcall)⟩

/-- One byte is read and then a pointer asked for with nothing behind it. -/
theorem fetchNoCopy_leaves :
    ¬StaysInside [.fetch8, .fetchNoCopy 0xffffffffffffffff] { block := ⟨[7], by decide⟩ } := by
  have hfirst : call .fetch8 { block := ⟨[7], by decide⟩ } =
      some (.done, { block := ⟨[7], by decide⟩, pos := 1 }) := by decide
  have hsecond : call (.fetchNoCopy 0xffffffffffffffff) { block := ⟨[7], by decide⟩, pos := 1 } =
      some (.pointer 1, { block := ⟨[7], by decide⟩, pos := 0 }) := by decide
  rintro ⟨reply, d, hcall, -, reply', d', hcall', hbounded, -⟩
  obtain ⟨rfl, rfl⟩ := Prod.mk.inj (Option.some.inj (hfirst.symm.trans hcall))
  obtain ⟨rfl, rfl⟩ := Prod.mk.inj (Option.some.inj (hsecond.symm.trans hcall'))
  exact absurd (hbounded.pointer _ _ rfl rfl) (by decide)

end Tbox.Util.Deserializer
