import Mathlib.Data.List.TakeWhile
import Tbox.Lib.Orbit
import Tbox.Network.DnsRequest

/-!
# Names that end

A name is followed from part to part and where a pointer says, without a record of where it has been: `FetchDomain`
comes back exactly from the names that do not go round in a circle.
-/

open List Option

namespace Tbox.Network.Dns

open Tbox.Lib (Bytes Circles run walk)

variable {memory : Memory} {fuel n : Nat} {first : Bool} {p q : Deserializer} {data name : Bytes}

def byteAt (data : Bytes) (pos : Nat) : Nat := (data.getD pos 0).toNat

def past (data : Bytes) (pos size : Nat) : Nat := if pos + size ≤ data.length then pos + size else pos

/-- Where a name goes on, if it does. -/
def hop (data : Bytes) (pos : Nat) : Option Nat :=
  let len := byteAt data pos
  if len = 0 then none
  else if len &&& 0xc0 = 0xc0 then
    let offset := (len &&& 0x3f) * 256 + byteAt data (pos + 1)
    some (if offset < data.length then offset else past data (pos + 1) 1)
  else some (past data (pos + 1) len)

section Hop

variable {pos next : Nat}

theorem hop_end (h : byteAt data pos = 0) : hop data pos = none := if_pos h

theorem hop_pointer (h : byteAt data pos ≠ 0) (hpointer : byteAt data pos &&& 0xc0 = 0xc0) :
    hop data pos = some (if (byteAt data pos &&& 0x3f) * 256 + byteAt data (pos + 1) < data.length then
      (byteAt data pos &&& 0x3f) * 256 + byteAt data (pos + 1) else past data (pos + 1) 1) :=
  (if_neg h).trans (if_pos hpointer)

theorem hop_part (h : byteAt data pos ≠ 0) (hpointer : byteAt data pos &&& 0xc0 ≠ 0xc0) :
    hop data pos = some (past data (pos + 1) (byteAt data pos)) :=
  (if_neg h).trans (if_neg hpointer)

theorem past_le (hpos : pos ≤ data.length) : past data pos n ≤ data.length := by
  unfold past
  split <;> assumption

theorem lt_of_byteAt (h : byteAt data pos ≠ 0) : pos < data.length := by
  by_contra hnot
  apply h
  rw [byteAt, getD_eq_getElem?_getD, getElem?_eq_none (Nat.le_of_not_lt hnot)]
  rfl

theorem hop_le (h : hop data pos = some next) : next ≤ data.length := by
  by_cases hlen : byteAt data pos = 0
  · exact nomatch (hop_end hlen).symm.trans h
  have hpos : pos + 1 ≤ data.length := lt_of_byteAt hlen
  by_cases hpointer : byteAt data pos &&& 0xc0 = 0xc0
  · rw [hop_pointer hlen hpointer] at h
    rw [← some.inj h]
    split
    · exact Nat.le_of_lt ‹_›
    · exact past_le hpos
  · rw [hop_part hlen hpointer] at h
    rw [← some.inj h]
    exact past_le hpos

end Hop

namespace Deserializer

@[simp] theorem fetch_data (p : Deserializer) (size : Nat) : (p.fetch size).2.data = p.data := by
  unfold fetch
  split <;> rfl

@[simp] theorem fetch_pos (p : Deserializer) (size : Nat) : (p.fetch size).2.pos = past p.data p.pos size := by
  unfold fetch past checkSize
  by_cases h : p.pos + size ≤ p.data.length
  · rw [if_pos (decide_eq_true h), if_pos h]
  · rw [if_neg (by simpa using h), if_neg h]

theorem fetchByte_fst (p : Deserializer) : p.fetchByte.1 = byteAt p.data p.pos := by
  unfold fetchByte fetch checkSize byteAt
  by_cases h : p.pos + 1 ≤ p.data.length
  · rw [if_pos (decide_eq_true h), getD_some, headD_eq_head?_getD, List.head?_take, if_neg one_ne_zero,
      List.head?_drop, getD_eq_getElem?_getD]
  · rw [if_neg (by simpa using h), getD_eq_getElem?_getD, getElem?_eq_none (by omega)]
    rfl

theorem fetchByte_snd (p : Deserializer) : p.fetchByte.2 = (p.fetch 1).2 := rfl

theorem fetchNumber_snd (p : Deserializer) (size : Nat) : (p.fetchNumber memory size).2 = (p.fetch size).2 := rfl

theorem fetchLittle_snd (p : Deserializer) (size : Nat) : (p.fetchLittle memory size).2 = (p.fetch size).2 := rfl

theorem fetchText_snd (p : Deserializer) (size : Nat) : (p.fetchText memory size).2 = (p.fetch size).2 := rfl

@[simp] theorem skip_data (p : Deserializer) (size : Nat) : (p.skip size).data = p.data := by
  unfold skip
  split <;> rfl

@[simp] theorem setPos_data (p : Deserializer) (pos : Nat) : (p.setPos pos).data = p.data := by
  unfold setPos
  split <;> rfl

theorem setPos_pos (p : Deserializer) (pos : Nat) :
    (p.setPos pos).pos = if pos < p.data.length then pos else p.pos := by
  unfold setPos
  split <;> rfl

theorem fetchByte_pos (h : byteAt p.data p.pos ≠ 0) : p.fetchByte.2.pos = p.pos + 1 := by
  rw [fetchByte_snd, fetch_pos, past]
  exact if_pos (lt_of_byteAt h)

theorem hop_pointer (h : byteAt p.data p.pos ≠ 0) (hpointer : byteAt p.data p.pos &&& 0xc0 = 0xc0) :
    hop p.data p.pos = some (p.fetchByte.2.fetchByte.2.setPos
      ((byteAt p.data p.pos &&& 0x3f) * 256 + p.fetchByte.2.fetchByte.1)).pos := by
  have hpos := fetchByte_pos h
  have hdata : p.fetchByte.2.data = p.data := p.fetch_data 1
  have hlow : p.fetchByte.2.fetchByte.2.pos = past p.data (p.pos + 1) 1 := by
    rw [fetchByte_snd, fetch_pos, hdata, hpos]
  have hdata' : p.fetchByte.2.fetchByte.2.data = p.data := (p.fetchByte.2.fetch_data 1).trans hdata
  rw [Dns.hop_pointer h hpointer, setPos_pos, hdata', hlow, fetchByte_fst, hdata, hpos]

theorem hop_part (h : byteAt p.data p.pos ≠ 0) (hpointer : byteAt p.data p.pos &&& 0xc0 ≠ 0xc0) :
    hop p.data p.pos = some (p.fetchByte.2.fetch (byteAt p.data p.pos)).2.pos := by
  have hdata : p.fetchByte.2.data = p.data := p.fetch_data 1
  rw [Dns.hop_part h hpointer, fetch_pos, hdata, fetchByte_pos h]

end Deserializer

def skipParts : Nat → Deserializer → Deserializer
  | 0, p => p
  | fuel + 1, p =>
    let (len, p) := p.fetchByte
    if len = 0 then p
    else if len &&& 0xc0 = 0xc0 then p.fetchByte.2
    else skipParts fuel (p.fetch len).2

def Deserializer.skipName (p : Deserializer) : Deserializer := skipParts (p.data.length + 2) p

theorem skipParts_data (fuel : Nat) (p : Deserializer) : (skipParts fuel p).data = p.data := by
  induction fuel generalizing p with
  | zero => rfl
  | succ fuel ih =>
    unfold skipParts
    dsimp only
    split
    · exact p.fetch_data 1
    · split
      · exact ((p.fetch 1).2.fetch_data 1).trans (p.fetch_data 1)
      · exact (ih _).trans (((p.fetch 1).2.fetch_data _).trans (p.fetch_data 1))

@[simp] theorem Deserializer.skipName_data (p : Deserializer) : p.skipName.data = p.data := skipParts_data _ p

theorem fetchDomain_isSome : (fetchDomain memory fuel first p).isSome ↔ walk (hop p.data) fuel p.pos = none := by
  induction fuel generalizing first p with
  | zero => exact ⟨fun h => (Bool.false_ne_true h).elim, nofun⟩
  | succ fuel ih =>
    rw [Lib.walk_succ]
    unfold fetchDomain
    dsimp only
    rw [p.fetchByte_fst]
    by_cases hlen : byteAt p.data p.pos = 0
    · rw [if_pos hlen, hop_end hlen]
      exact ⟨fun _ => rfl, fun _ => rfl⟩
    have hdata : p.fetchByte.2.data = p.data := p.fetch_data 1
    have hdata' : p.fetchByte.2.fetchByte.2.data = p.data := (p.fetchByte.2.fetch_data 1).trans hdata
    rw [if_neg hlen]
    by_cases hpointer : byteAt p.data p.pos &&& 0xc0 = 0xc0
    · -- the pointer is read, and then the name is followed where it says
      rw [if_pos hpointer, Deserializer.hop_pointer hlen hpointer, isSome_map, ih, Deserializer.setPos_data,
        hdata', bind_some]
    · rw [if_neg hpointer, Deserializer.hop_part hlen hpointer, isSome_map, ih, Deserializer.fetchText_snd,
        Deserializer.fetch_data, hdata, bind_some]

theorem fetchDomain_snd (h : fetchDomain memory fuel first p = some (name, q)) : q = skipParts fuel p := by
  induction fuel generalizing first p name with
  | zero => cases h
  | succ fuel ih =>
    unfold fetchDomain at h
    unfold skipParts
    dsimp only at h ⊢
    split at h
    · rename_i hlen
      rw [if_pos hlen]
      exact (Prod.mk.inj (some.inj h)).2.symm
    rename_i hlen
    rw [if_neg hlen]
    split at h
    · rename_i hpointer
      rw [if_pos hpointer]
      obtain ⟨sub, -, hsub⟩ := map_eq_some_iff.mp h
      exact (Prod.mk.inj hsub).2.symm
    · rename_i hpointer
      rw [if_neg hpointer]
      obtain ⟨⟨rest, behind⟩, hrest, hname⟩ := map_eq_some_iff.mp h
      obtain rfl := (Prod.mk.inj hname).2
      exact ih hrest

theorem walk_hop_mem {pos place : Nat} (h : walk (hop data) n pos = some place) :
    place ∈ insert pos (Finset.range (data.length + 1)) := by
  induction n generalizing pos with
  | zero => exact Finset.mem_insert.mpr (.inl (some.inj h).symm)
  | succ n ih =>
    rw [Lib.walk_succ] at h
    obtain ⟨next, hnext, hplace⟩ := bind_eq_some_iff.mp h
    have hle := hop_le hnext
    rcases Finset.mem_insert.mp (ih hplace) with rfl | hmem
    · exact Finset.mem_insert_of_mem (Finset.mem_range.mpr (Nat.lt_succ_of_le hle))
    · exact Finset.mem_insert_of_mem hmem

/-- **A name is decoded exactly if it does not go round in a circle**, and then as many steps are enough as the packet
has bytes, and two. -/
theorem Deserializer.fetchDomain_isSome : (p.fetchDomain memory).isSome ↔ ¬Circles (hop p.data) p.pos := by
  refine Dns.fetchDomain_isSome.trans ⟨fun hnone hcircles => hcircles.not_ends ⟨_, hnone⟩, fun hnot => ?_⟩
  apply Lib.walk_mono (Lib.walk_eq_none_of_not_circles (fun _ _ => walk_hop_mem) hnot)
  exact (Finset.card_insert_le _ _).trans (by rw [Finset.card_range])

theorem exists_fetchDomain : (∃ fuel, (fetchDomain memory fuel first p).isSome) ↔ ¬Circles (hop p.data) p.pos := by
  rw [← Lib.ends_iff_not_circles fun _ _ => walk_hop_mem]
  exact exists_congr fun _ => fetchDomain_isSome

theorem Deserializer.fetchDomain_eq (memory : Memory) (hnot : ¬Circles (hop p.data) p.pos) :
    ∃ name, p.fetchDomain memory = some (name, p.skipName) := by
  obtain ⟨⟨name, q⟩, hname⟩ := isSome_iff_exists.mp (fetchDomain_isSome.mpr hnot)
  obtain rfl := fetchDomain_snd hname
  exact ⟨name, hname⟩

theorem Deserializer.fetchDomain_eq_none (hcircles : Circles (hop p.data) p.pos) : p.fetchDomain memory = none := by
  rw [← not_isSome_iff_eq_none, fetchDomain_isSome]
  exact not_not_intro hcircles

def skipQuestion (p : Deserializer) : Deserializer := ((p.skipName.fetch 2).2.fetch 2).2

structure Fields where
  anType : Nat
  anTtl : Nat
  anLen : Nat
  /-- at what the answer says -/
  rest : Deserializer

def readFields (memory : Memory) (p : Deserializer) : Fields :=
  let (anType, p) := p.fetchNumber memory 2
  let (_, p) := p.fetchNumber memory 2
  let (anTtl, p) := p.fetchNumber memory 4
  let (anLen, p) := p.fetchNumber memory 2
  ⟨anType, anTtl, anLen, p⟩

def questionNames : Nat → Deserializer → List Nat
  | 0, _ => []
  | count + 1, p => p.pos :: questionNames count (skipQuestion p)

def answerNames (memory : Memory) : Nat → Deserializer → List Nat
  | 0, _ => []
  | count + 1, p =>
    let fields := readFields memory p.skipName
    p.pos ::
      if fields.anType = typeA then answerNames memory count (fields.rest.fetch 4).2
      else if fields.anType = typeCNAME then fields.rest.pos :: answerNames memory count fields.rest.skipName
      else answerNames memory count (fields.rest.skip fields.anLen)

/-- Where all names are that are come to behind the flags. -/
def names (memory : Memory) (p : Deserializer) : List Nat :=
  let (qdCount, p) := p.fetchNumber memory 2
  let (anCount, p) := p.fetchNumber memory 2
  let (_, p) := p.fetchNumber memory 2
  let (_, p) := p.fetchNumber memory 2
  questionNames qdCount p ++ answerNames memory anCount (skipQuestion^[qdCount] p)

@[simp] theorem skipQuestion_data (p : Deserializer) : (skipQuestion p).data = p.data := by
  simp [skipQuestion]

theorem skipQuestions_data (count : Nat) (p : Deserializer) : (skipQuestion^[count] p).data = p.data := by
  induction count generalizing p with
  | zero => rfl
  | succ count ih => exact (ih _).trans (skipQuestion_data p)

@[simp] theorem readFields_data (memory : Memory) (p : Deserializer) : (readFields memory p).rest.data = p.data := by
  simp [readFields, Deserializer.fetchNumber_snd]

theorem skipQuestions_succ (memory : Memory) (count : Nat) (p : Deserializer) : skipQuestions memory (count + 1) p =
      (p.fetchDomain memory).bind fun out => skipQuestions memory count ((out.2.fetch 2).2.fetch 2).2 := rfl

/-- What is made of an answer from behind its name, and what is taken `later`. -/
def takeFields (memory : Memory) (later : Deserializer → Result → Option Result) (q : Deserializer) (result : Result) :
    Option Result :=
  let fields := readFields memory q
  if fields.anType = typeA then
    later (fields.rest.fetch 4).2
      { result with aVec := result.aVec ++ [⟨fields.anTtl, (fields.rest.fetchLittle memory 4).1⟩] }
  else if fields.anType = typeCNAME then
    (fields.rest.fetchDomain memory).bind fun cname =>
      later cname.2 { result with cnameVec := result.cnameVec ++ [⟨fields.anTtl, cname.1⟩] }
  else later (fields.rest.skip fields.anLen) result

theorem takeAnswers_succ (memory : Memory) (count : Nat) (p : Deserializer) (result : Result) :
    takeAnswers memory (count + 1) p result =
      (p.fetchDomain memory).bind fun out => takeFields memory (takeAnswers memory count) out.2 result := by
  rw [takeAnswers]
  cases p.fetchDomain memory with
  | none => rw [bind_eq_bind, bind_none, bind_none]
  | some out =>
    dsimp only [bind_eq_bind, bind_some, takeFields, readFields]
    rw [Deserializer.fetchLittle_snd]
    rfl

theorem skipQuestions_eq (memory : Memory) {count : Nat}
    (hends : ∀ pos ∈ questionNames count p, ¬Circles (hop p.data) pos) :
    skipQuestions memory count p = some (skipQuestion^[count] p) := by
  induction count generalizing p with
  | zero => rfl
  | succ count ih =>
    obtain ⟨name, hname⟩ := Deserializer.fetchDomain_eq memory (hends p.pos mem_cons_self)
    have hrest : ∀ pos ∈ questionNames count (skipQuestion p), ¬Circles (hop (skipQuestion p).data) pos := by
      intro pos hpos
      rw [skipQuestion_data]
      exact hends pos (mem_cons_of_mem _ hpos)
    rw [skipQuestions_succ, hname, bind_some]
    exact ih hrest

theorem skipQuestions_eq_none {count pos : Nat} (hpos : pos ∈ questionNames count p)
    (hcircles : Circles (hop p.data) pos) : skipQuestions memory count p = none := by
  induction count generalizing p with
  | zero => cases hpos
  | succ count ih =>
    rw [skipQuestions_succ]
    by_cases hfirst : Circles (hop p.data) p.pos
    · rw [Deserializer.fetchDomain_eq_none hfirst]
      rfl
    obtain ⟨name, hname⟩ := Deserializer.fetchDomain_eq memory hfirst
    rw [hname, bind_some]
    rcases mem_cons.mp hpos with rfl | hrest
    · exact absurd hcircles hfirst
    · have hdata := skipQuestion_data p
      exact ih hrest (hdata.symm ▸ hcircles)

theorem takeAnswers_isSome {count : Nat} {result : Result} : (takeAnswers memory count p result).isSome ↔
      ∀ pos ∈ answerNames memory count p, ¬Circles (hop p.data) pos := by
  induction count generalizing p result with
  | zero => exact ⟨fun _ _ h => (not_mem_nil h).elim, fun _ => rfl⟩
  | succ count ih =>
    rw [takeAnswers_succ]
    unfold answerNames
    rw [forall_mem_cons]
    by_cases hfirst : Circles (hop p.data) p.pos
    · rw [Deserializer.fetchDomain_eq_none hfirst]
      exact ⟨fun h => (Bool.false_ne_true h).elim, fun h => absurd hfirst h.1⟩
    obtain ⟨name, hname⟩ := Deserializer.fetchDomain_eq memory hfirst
    rw [hname, bind_some, and_iff_right hfirst]
    dsimp only [takeFields]
    have hdata : (readFields memory p.skipName).rest.data = p.data := by simp
    by_cases hA : (readFields memory p.skipName).anType = typeA
    · rw [if_pos hA, if_pos hA, ih, Deserializer.fetch_data, hdata]
    rw [if_neg hA, if_neg hA]
    by_cases hCNAME : (readFields memory p.skipName).anType = typeCNAME
    · rw [if_pos hCNAME, if_pos hCNAME, forall_mem_cons]
      by_cases hsecond : Circles (hop p.data) (readFields memory p.skipName).rest.pos
      · rw [Deserializer.fetchDomain_eq_none (by rwa [hdata])]
        exact ⟨fun h => (Bool.false_ne_true h).elim, fun h => absurd hsecond h.1⟩
      · obtain ⟨cname, hcname⟩ := Deserializer.fetchDomain_eq (p := (readFields memory p.skipName).rest) memory
          (by rwa [hdata])
        rw [hcname, bind_some, ih, Deserializer.skipName_data, hdata, and_iff_right hsecond]
    · rw [if_neg hCNAME, if_neg hCNAME, ih, Deserializer.skip_data, hdata]

/-- **A packet is taken apart exactly if the names that are come to end.** -/
theorem parseAnswer_isSome : (parseAnswer memory p).isSome ↔ ∀ pos ∈ names memory p, ¬Circles (hop p.data) pos := by
  unfold parseAnswer names
  dsimp only
  rw [forall_mem_append]
  generalize hq : ((((p.fetchNumber memory 2).2.fetchNumber memory 2).2.fetchNumber memory 2).2.fetchNumber memory 2).2
    = q
  have hdata : q.data = p.data := by
    simp [← hq, Deserializer.fetchNumber_snd]
  by_cases hends : ∀ pos ∈ questionNames (p.fetchNumber memory 2).1 q, ¬Circles (hop p.data) pos
  · rw [and_iff_right hends, skipQuestions_eq memory (by rwa [hdata]), bind_eq_bind, bind_some,
      takeAnswers_isSome, skipQuestions_data, hdata]
  · obtain ⟨pos, hpos, hcircles⟩ := not_forall₂.mp hends
    rw [skipQuestions_eq_none hpos (by rw [hdata]; exact not_not.mp hcircles)]
    exact ⟨fun h => (Bool.false_ne_true h).elim, fun h => absurd h.1 hends⟩

namespace World

/-- The packet is the good answer to a request, and is taken apart. -/
def TakesApart (w : World) (packet : Packet) : Prop :=
  w.dns.requests ≠ [] ∧ (w.dns.findRequest (readHeader packet.memory packet.data).1.reqId).isSome ∧
    (readHeader packet.memory packet.data).1.isResponse ∧ (readHeader packet.memory packet.data).1.rcode = 0

theorem deliver_crashed (w : World) (req : Request) (result : Result) (source : Option Nat) :
    (w.deliver req result source).crashed = w.crashed := by
  unfold deliver
  split <;> rfl

theorem onUdpRecv_crashed (w : World) (packet : Packet) :
    (w.onUdpRecv packet).crashed = true ↔ w.crashed = true ∨ w.TakesApart packet ∧
      parseAnswer packet.memory (readHeader packet.memory packet.data).2 = none := by
  unfold onUdpRecv TakesApart
  dsimp only
  by_cases hempty : w.dns.requests = []
  · rw [if_pos hempty]
    exact ⟨.inl, fun h => h.resolve_right fun h => h.1.1 hempty⟩
  rw [if_neg hempty]
  cases hfind : w.dns.findRequest (readHeader packet.memory packet.data).1.reqId with
  | none => exact ⟨.inl, fun h => h.resolve_right fun h => Bool.false_ne_true h.1.2.1⟩
  | some req =>
    dsimp only
    by_cases hresponse : (readHeader packet.memory packet.data).1.isResponse
    swap
    · rw [if_pos hresponse]
      exact ⟨.inl, fun h => h.resolve_right fun h => hresponse h.1.2.2.1⟩
    rw [if_neg (not_not_intro hresponse)]
    by_cases hrcode : (readHeader packet.memory packet.data).1.rcode = 0
    · rw [if_pos hrcode]
      cases hparse : parseAnswer packet.memory (readHeader packet.memory packet.data).2 with
      | none => exact ⟨fun _ => .inr ⟨⟨hempty, rfl, hresponse, hrcode⟩, rfl⟩, fun _ => rfl⟩
      | some result =>
        rw [deliver_crashed]
        exact ⟨.inl, fun h => h.resolve_right fun h => nomatch h.2⟩
    · have hother : w.crashed = true ∨ ((w.dns.requests ≠ [] ∧ (some req).isSome ∧
          (readHeader packet.memory packet.data).1.isResponse ∧
          (readHeader packet.memory packet.data).1.rcode = 0) ∧
          parseAnswer packet.memory (readHeader packet.memory packet.data).2 = none) ↔ w.crashed = true :=
        ⟨fun h => h.resolve_right fun h => hrcode h.1.2.2.2, .inl⟩
      rw [if_neg hrcode, hother]
      split
      · rw [deliver_crashed]
      split
      · rw [deliver_crashed]
      split
      · rfl
      · rw [deliver_crashed]
        rfl

/-- **Decoding ends exactly where no name goes round in a circle**, for one name and for a packet. -/
theorem decodingEnds_iff_noCircle (w : World) (packet : Packet) (hrunning : w.crashed = false) :
    (∀ (memory : Memory) (first : Bool) (p : Deserializer),
      (∃ fuel, (fetchDomain memory fuel first p).isSome) ↔ ¬Circles (hop p.data) p.pos) ∧
    ((w.onUdpRecv packet).crashed = false ↔
      (w.TakesApart packet → ∀ pos ∈ names packet.memory (readHeader packet.memory packet.data).2,
        ¬Circles (hop packet.data) pos)) := by
  refine ⟨fun _ _ _ => exists_fetchDomain, ?_⟩
  have hdata : (readHeader packet.memory packet.data).2.data = packet.data := by
    simp [readHeader, Deserializer.fetchNumber_snd]
  rw [← Bool.not_eq_true, onUdpRecv_crashed, or_iff_right (by simp [hrunning]), not_and]
  refine imp_congr_right fun _ => ?_
  have hparse := @parseAnswer_isSome packet.memory (readHeader packet.memory packet.data).2
  rw [Option.isSome_iff_ne_none, hdata] at hparse
  exact hparse

/-- The address of `a`, whose name is given by a pointer. -/
def addressOfA : Packet where
  data := [0, 1, 0x81, 0x80, 0, 1, 0, 1, 0, 0, 0, 0, 1, 97, 0, 0, 1, 0, 1,
    0xc0, 12, 0, 1, 0, 1, 0, 0, 0, 60, 0, 4, 1, 2, 3, 4]
  sender := 1
  answers := some 0

theorem addressOfA_ends : ∃ w, run World.step { dns := { dnsIpVec := [1] } } [.request [97] true] = some w ∧
    w.TakesApart addressOfA ∧ (w.onUdpRecv addressOfA).crashed = false := by
  obtain ⟨w, hw, hasked⟩ := (Option.any_eq_true _ _).mp (show Option.any
    (fun w : World => !w.crashed && decide (w.dns.requests ≠ [] ∧ (w.dns.findRequest 1).isSome))
    (run World.step { dns := { dnsIpVec := [1] } } [.request [97] true]) = true by decide +kernel)
  obtain ⟨hrunning, hrequest⟩ := Bool.and_eq_true_iff.mp hasked
  obtain ⟨hrequests, hfind⟩ := of_decide_eq_true hrequest
  refine ⟨w, hw, ⟨hrequests, hfind, by decide +kernel, by decide +kernel⟩, ?_⟩
  refine (decodingEnds_iff_noCircle w addressOfA (Bool.not_eq_true' _ ▸ hrunning)).2.mpr fun _ pos hpos hcircles => ?_
  have hnames : names addressOfA.memory (readHeader addressOfA.memory addressOfA.data).2 = [12, 19] := by decide +kernel
  have hthree : ∀ pos ∈ [12, 19], walk (hop addressOfA.data) 3 pos = none := by decide +kernel
  exact hcircles.not_ends ⟨3, hthree pos (hnames ▸ hpos)⟩

def selfPointer : Packet where
  data := [0, 1, 0x81, 0x80, 0, 1, 0, 0, 0, 0, 0, 0, 0xc0, 12]
  sender := 1
  answers := some 0

/-- One packet of 14 bytes is enough for `onUdpRecv` not to come back. -/
theorem selfPointer_not_ends : (¬∃ fuel, (fetchDomain {} fuel true { data := selfPointer.data, pos := 12 }).isSome) ∧
    ∃ w, run World.step { dns := { dnsIpVec := [1] } } [.request [97] true, .udpRecv selfPointer] = some w ∧
      w.crashed = true := by
  refine ⟨fun hends => ?_, ?_⟩
  · have hcircle : Circles (hop selfPointer.data) 12 := ⟨0, 1, 12, rfl, one_pos, by decide +kernel⟩
    exact exists_fetchDomain.mp hends hcircle
  · exact (Option.any_eq_true _ _).mp (show Option.any World.crashed
      (run World.step { dns := { dnsIpVec := [1] } } [.request [97] true, .udpRecv selfPointer]) = true by
      decide +kernel)

end World

/-! ### What is written of a name is read of it

A name is written as its labels, each behind its length, and a 0. `FetchDomain` reads it back, where it is and by a
pointer to it, with any labels before the pointer. -/

section RoundTrip

open Tbox.Lib (Bytes)

/-- A label of a name. -/
structure Label where
  text : Bytes
  pos : 0 < text.length
  le : text.length ≤ 63
  noDot : 46 ∉ text
  noNul : 0 ∉ text

/-- A label in a packet. -/
def Label.bytes (l : Label) : Bytes := UInt8.ofNat l.text.length :: l.text

/-- The labels of a name, with a dot between them. -/
def nameOf (labels : List Label) : Bytes := [46].intercalate (labels.map Label.text)

def dotted (labels : List Label) : Bytes := labels.flatMap fun l => 46 :: l.text

/-- A compression pointer to that place of a packet. -/
def pointerTo (offset : Nat) : Bytes := [UInt8.ofNat (0xc0 + offset / 256), UInt8.ofNat (offset % 256)]

variable {memory : Memory} {fuel offset : Nat} {first : Bool} {p : Deserializer} {bytes rest : Bytes}
  {labels further : List Label}

theorem nameOf_cons (l : Label) (labels : List Label) : nameOf (l :: labels) = l.text ++ dotted labels := by
  induction labels generalizing l with
  | nil => rw [nameOf, map_singleton, intercalate_singleton, dotted, flatMap_nil, append_nil]
  | cons next labels ih =>
    have hnext := ih next
    unfold nameOf dotted at hnext ⊢
    rw [map_cons, map_cons, intercalate_cons_cons, ← map_cons, hnext, flatMap_cons, append_assoc]
    rfl

theorem appendDomain_nameOf (hlabels : labels ≠ []) :
    appendDomain (nameOf labels) = labels.flatMap Label.bytes ++ [0] := by
  obtain ⟨l, labels, rfl⟩ := exists_cons_of_ne_nil hlabels
  have hsplit : Util.split (nameOf (l :: labels)) [46] = .ok ((l :: labels).map Label.text) := by
    rw [nameOf_cons, dotted, ← flatMap_map]
    refine Util.split_joined l.noDot fun text htext => ?_
    obtain ⟨next, -, rfl⟩ := List.mem_map.mp htext
    exact next.noDot
  rw [appendDomain, hsplit]
  show ((l :: labels).map Label.text).flatMap _ ++ [0] = _
  rw [flatMap_map]
  rfl

theorem Label.length_bytes (l : Label) : l.bytes.length = l.text.length + 1 := rfl

theorem le_length_wire (labels : List Label) : 2 * labels.length ≤ (labels.flatMap Label.bytes).length := by
  induction labels with
  | nil => exact le_rfl
  | cons l labels ih =>
    have hpos := l.pos
    rw [flatMap_cons, length_append, l.length_bytes, length_cons]
    omega

namespace Deserializer

def advance (p : Deserializer) (size reads : Nat) : Deserializer :=
  { p with pos := p.pos + size, reads := p.reads + reads }

theorem advance_advance (p : Deserializer) (m n i j : Nat) :
    (p.advance m i).advance n j = p.advance (m + n) (i + j) := by
  unfold advance
  rw [Nat.add_assoc, Nat.add_assoc]

theorem prefix_advance (h : bytes ++ rest <+: p.data.drop p.pos) (reads : Nat) :
    rest <+: (p.advance bytes.length reads).data.drop (p.advance bytes.length reads).pos := by
  obtain ⟨tail, htail⟩ := h
  refine ⟨tail, ?_⟩
  rw [advance, ← drop_drop, ← htail, append_assoc, drop_left]

theorem pos_add_le (h : bytes <+: p.data.drop p.pos) (hne : bytes ≠ []) : p.pos + bytes.length ≤ p.data.length := by
  have hle := h.length_le
  have hpos := length_pos_of_ne_nil hne
  rw [length_drop] at hle
  omega

theorem fetch_prefix (h : bytes <+: p.data.drop p.pos) (hne : bytes ≠ []) :
    p.fetch bytes.length = (some bytes, p.advance bytes.length 1) := by
  have hcheck : p.checkSize bytes.length = true := decide_eq_true (pos_add_le h hne)
  rw [fetch, if_pos hcheck, ← prefix_iff_eq_take.mp h]
  rfl

theorem fetchByte_prefix {byte : UInt8} (h : byte :: rest <+: p.data.drop p.pos) :
    p.fetchByte = (byte.toNat, p.advance 1 1) := by
  have hbyte : [byte] <+: p.data.drop p.pos := (prefix_append [byte] rest).trans h
  have hfetch : p.fetch 1 = (some [byte], p.advance 1 1) := fetch_prefix hbyte (cons_ne_nil _ _)
  rw [fetchByte, hfetch]
  rfl

theorem fetchText_prefix (h : bytes <+: p.data.drop p.pos) (hne : bytes ≠ []) (hnul : 0 ∉ bytes) :
    p.fetchText memory bytes.length = (bytes, p.advance bytes.length 1) := by
  have htext : bytes.takeWhile (fun byte => byte ≠ 0) = bytes := by
    apply takeWhile_eq_self_iff.mpr
    intro byte hbyte
    exact decide_eq_true fun hzero => hnul (hzero ▸ hbyte)
  rw [fetchText, fetch_prefix h hne]
  exact Prod.ext htext rfl

end Deserializer

theorem fetchDomain_end (h : [0] <+: p.data.drop p.pos) :
    fetchDomain memory (fuel + 1) first p = some ([], p.advance 1 1) := by
  rw [fetchDomain, Deserializer.fetchByte_prefix h]
  rfl

theorem fetchDomain_label (l : Label) (h : l.bytes <+: p.data.drop p.pos) :
    fetchDomain memory (fuel + 1) first p = (fetchDomain memory fuel false (p.advance l.bytes.length 2)).map
      fun rest => ((if first then [] else [46]) ++ l.text ++ rest.1, rest.2) := by
  have hlen : (UInt8.ofNat l.text.length).toNat = l.text.length := Nat.mod_eq_of_lt (by have := l.le; omega)
  have hnotPointer : ∀ len < 64, len &&& 0xc0 ≠ 0xc0 := by decide
  have hne : l.text ≠ [] := ne_nil_of_length_pos l.pos
  have htext : l.text <+: (p.advance 1 1).data.drop (p.advance 1 1).pos :=
    Deserializer.prefix_advance (show [UInt8.ofNat l.text.length] ++ l.text <+: _ from h) 1
  rw [fetchDomain, Deserializer.fetchByte_prefix h, hlen]
  dsimp only
  rw [if_neg l.pos.ne', if_neg (hnotPointer _ (Nat.lt_succ_of_le l.le)),
    Deserializer.fetchText_prefix htext hne l.noNul, Deserializer.advance_advance, Nat.add_comm 1, ← l.length_bytes]

theorem fetchDomain_labels (h : labels.flatMap Label.bytes <+: p.data.drop p.pos) :
    fetchDomain memory (fuel + labels.length) false p =
      (fetchDomain memory fuel false (p.advance (labels.flatMap Label.bytes).length (2 * labels.length))).map
        fun rest => (dotted labels ++ rest.1, rest.2) := by
  induction labels generalizing p with
  | nil => exact Option.map_id'.symm
  | cons l labels ih =>
    rw [flatMap_cons] at h
    have hlabel : l.bytes <+: p.data.drop p.pos := (prefix_append _ _).trans h
    have hrest := ih (Deserializer.prefix_advance h 2)
    have hreads : 2 + 2 * labels.length = 2 * (labels.length + 1) := by omega
    rw [length_cons, ← Nat.add_assoc, fetchDomain_label l hlabel, hrest, Option.map_map,
      Deserializer.advance_advance, ← length_append, ← flatMap_cons, hreads]
    congr 1
    funext rest
    have hdotted : dotted (l :: labels) = 46 :: l.text ++ dotted labels := flatMap_cons
    rw [hdotted, append_assoc]
    rfl

theorem fetchDomain_pointer (h : pointerTo offset <+: p.data.drop p.pos) (hoffset : offset < 2 ^ 14)
    (hinside : offset < p.data.length) :
    fetchDomain memory (fuel + 1) first p = (fetchDomain memory fuel true { p.advance 2 2 with pos := offset }).map
      fun sub => ((if first then [] else [46]) ++ sub.1, p.advance 2 2) := by
  have hhigh : (UInt8.ofNat (0xc0 + offset / 256)).toNat = 0xc0 + offset / 256 := Nat.mod_eq_of_lt (by omega)
  have hlow : (UInt8.ofNat (offset % 256)).toNat = offset % 256 := Nat.mod_eq_of_lt (by omega)
  have hbits : ∀ high < 64, (0xc0 + high) &&& 0xc0 = 0xc0 ∧ (0xc0 + high) &&& 0x3f = high := by decide
  obtain ⟨hpointer, hsix⟩ := hbits (offset / 256) (by omega)
  have hnext : [UInt8.ofNat (offset % 256)] <+: (p.advance 1 1).data.drop (p.advance 1 1).pos :=
    Deserializer.prefix_advance (show [UInt8.ofNat (0xc0 + offset / 256)] ++ _ <+: _ from h) 1
  rw [fetchDomain, Deserializer.fetchByte_prefix h, hhigh]
  dsimp only
  rw [if_neg (by omega), if_pos hpointer, Deserializer.fetchByte_prefix hnext, hlow, hsix, Nat.div_add_mod',
    Deserializer.advance_advance, Deserializer.setPos]
  rw [if_pos (show offset < (p.advance (1 + 1) (1 + 1)).data.length from hinside)]

theorem fetchDomain_nameOf (hlabels : labels ≠ []) (h : labels.flatMap Label.bytes <+: p.data.drop p.pos) :
    fetchDomain memory (fuel + labels.length) true p =
      (fetchDomain memory fuel false (p.advance (labels.flatMap Label.bytes).length (2 * labels.length))).map
        fun rest => (nameOf labels ++ rest.1, rest.2) := by
  obtain ⟨l, others, rfl⟩ := exists_cons_of_ne_nil hlabels
  rw [flatMap_cons] at h
  have hlabel : l.bytes <+: p.data.drop p.pos := (prefix_append _ _).trans h
  have hreads : 2 + 2 * others.length = 2 * (others.length + 1) := by omega
  rw [length_cons, ← Nat.add_assoc, fetchDomain_label l hlabel,
    fetchDomain_labels (Deserializer.prefix_advance h 2), Option.map_map, Deserializer.advance_advance,
    ← length_append, ← flatMap_cons, hreads]
  congr 1
  funext rest
  rw [nameOf_cons, append_assoc]
  rfl

theorem nameOf_append (hfurther : further ≠ []) (hlabels : labels ≠ []) :
    nameOf (further ++ labels) = nameOf further ++ 46 :: nameOf labels := by
  obtain ⟨l, others, rfl⟩ := exists_cons_of_ne_nil hfurther
  obtain ⟨next, rest, rfl⟩ := exists_cons_of_ne_nil hlabels
  have hdotted : dotted (others ++ next :: rest) = dotted others ++ 46 :: next.text ++ dotted rest := by
    rw [dotted, flatMap_append, flatMap_cons, ← append_assoc]
    rfl
  rw [cons_append, nameOf_cons, nameOf_cons, nameOf_cons, hdotted, append_assoc, append_assoc]
  rfl

theorem fetchDomain_written (hlabels : labels ≠ []) (h : labels.flatMap Label.bytes ++ [0] <+: p.data.drop p.pos) :
    fetchDomain memory (fuel + 1 + labels.length) true p =
      some (nameOf labels, p.advance ((labels.flatMap Label.bytes).length + 1) (2 * labels.length + 1)) := by
  rw [fetchDomain_nameOf hlabels ((prefix_append _ _).trans h),
    fetchDomain_end (Deserializer.prefix_advance h _), map_some, append_nil, Deserializer.advance_advance]

theorem fetchDomain_pointer_written (hlabels : labels ≠ []) (hoffset : offset < 2 ^ 14)
    (hthere : labels.flatMap Label.bytes ++ [0] <+: p.data.drop offset) (h : pointerTo offset <+: p.data.drop p.pos) :
    fetchDomain memory (fuel + 1 + labels.length + 1) first p =
      some ((if first then [] else [46]) ++ nameOf labels, p.advance 2 2) := by
  have hinside := Deserializer.pos_add_le (p := { p with pos := offset }) hthere
    (append_ne_nil_of_right_ne_nil _ (cons_ne_nil _ _))
  rw [length_append, length_singleton] at hinside
  dsimp only at hinside
  rw [fetchDomain_pointer h hoffset (by omega), fetchDomain_written hlabels hthere, map_some]

/-- **The round trip of a name**: what is written of it is read back wherever it is, and nothing else is passed; and so
is a pointer to it, with any labels before. -/
theorem fetchDomain_appendDomain (memory : Memory) (p : Deserializer) (labels : List Label) (hlabels : labels ≠ []) :
    (appendDomain (nameOf labels) <+: p.data.drop p.pos →
      ∃ q, p.fetchDomain memory = some (nameOf labels, q) ∧ q.data = p.data ∧
        q.pos = p.pos + (appendDomain (nameOf labels)).length) ∧
    ∀ (further : List Label) (offset : Nat), offset < 2 ^ 14 → appendDomain (nameOf labels) <+: p.data.drop offset →
      further.flatMap Label.bytes ++ pointerTo offset <+: p.data.drop p.pos →
      ∃ q, p.fetchDomain memory = some (nameOf (further ++ labels), q) ∧ q.data = p.data ∧
        q.pos = p.pos + (further.flatMap Label.bytes ++ pointerTo offset).length := by
  rw [appendDomain_nameOf hlabels]
  have hwire := le_length_wire labels
  have hlength : ∀ pos, labels.flatMap Label.bytes ++ [0] <+: p.data.drop pos →
      pos + ((labels.flatMap Label.bytes).length + 1) ≤ p.data.length := by
    intro pos hthere
    have hle := Deserializer.pos_add_le (p := { p with pos := pos }) hthere
      (List.append_ne_nil_of_right_ne_nil _ (List.cons_ne_nil _ _))
    rwa [List.length_append, List.length_singleton] at hle
  constructor
  · intro h
    have hle := hlength p.pos h
    have hfuel : p.data.length + 2 = p.data.length - labels.length + 1 + 1 + labels.length := by omega
    refine ⟨p.advance ((labels.flatMap Label.bytes).length + 1) (2 * labels.length + 1), ?_, rfl, ?_⟩
    · rw [Deserializer.fetchDomain, hfuel, fetchDomain_written hlabels h]
    · rw [List.length_append]
      rfl
  · intro further offset hoffset hthere h
    have hle := hlength offset hthere
    have hbefore := le_length_wire further
    have hhere := Deserializer.pos_add_le h (List.append_ne_nil_of_right_ne_nil _ (List.cons_ne_nil _ _))
    rw [List.length_append, show (pointerTo offset).length = 2 from rfl] at hhere ⊢
    -- every label takes two bytes at least, and so there is fuel for those before the pointer and those behind
    have hfuel : p.data.length + 2 =
        p.data.length - labels.length - further.length + 1 + labels.length + 1 + further.length := by omega
    rw [Deserializer.fetchDomain, hfuel]
    by_cases hfurther : further = []
    · subst hfurther
      exact ⟨p.advance 2 2, fetchDomain_pointer_written hlabels hoffset hthere h, rfl, rfl⟩
    · have hpointer := Deserializer.prefix_advance h (2 * further.length)
      refine ⟨p.advance ((further.flatMap Label.bytes).length + 2) (2 * further.length + 2), ?_, rfl, rfl⟩
      rw [fetchDomain_nameOf hfurther ((List.prefix_append _ _).trans h),
        fetchDomain_pointer_written (p := p.advance _ _) hlabels hoffset hthere hpointer, Option.map_some,
        nameOf_append hfurther hlabels, Deserializer.advance_advance]
      rfl

/-- `ab.c` behind three other bytes, and `x` before a pointer to it. -/
def namesInPacket : Bytes := [7, 7, 7, 2, 97, 98, 1, 99, 0, 1, 120, 0xc0, 3, 9]

def labelAb : Label := ⟨[97, 98], by decide, by decide, by decide, by decide⟩

def labelC : Label := ⟨[99], by decide, by decide, by decide, by decide⟩

def labelX : Label := ⟨[120], by decide, by decide, by decide, by decide⟩

theorem namesInPacket_decoded :
    (∃ q, ({ data := namesInPacket, pos := 3 } : Deserializer).fetchDomain {} = some ([97, 98, 46, 99], q) ∧
      q.data = namesInPacket ∧ q.pos = 9) ∧
    ∃ q, ({ data := namesInPacket, pos := 9 } : Deserializer).fetchDomain {} = some ([120, 46, 97, 98, 46, 99], q) ∧
      q.data = namesInPacket ∧ q.pos = 13 :=
  ⟨(fetchDomain_appendDomain {} { data := namesInPacket, pos := 3 } [labelAb, labelC] (by decide)).1 (by decide),
    (fetchDomain_appendDomain {} { data := namesInPacket, pos := 9 } [labelAb, labelC] (by decide)).2 [labelX] 3
      (by decide) (by decide) (by decide)⟩

end RoundTrip

end Tbox.Network.Dns
