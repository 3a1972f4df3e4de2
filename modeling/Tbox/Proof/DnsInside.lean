import Mathlib.Data.Set.Basic
import Tbox.Proof.DnsNames

/-!
# What is read of the received bytes

None of the reads of `onUdpRecv` is asked whether it has been one. What it goes by has been received exactly if the
packet holds all that is announced before.
-/

open List Option

namespace Tbox.Network.Dns

open Tbox.Lib (Bytes Circles run walk)

structure Place where
  pos : Nat
  size : Nat
  deriving DecidableEq, Repr

def Place.Inside (data : Bytes) (u : Place) : Prop := u.pos + u.size ≤ data.length

instance (data : Bytes) (u : Place) : Decidable (u.Inside data) := inferInstanceAs (Decidable (_ ≤ _))

def Deserializer.here (p : Deserializer) (size : Nat) : Place := ⟨p.pos, size⟩

def itemPlaces (data : Bytes) (pos : Nat) : List Place :=
  let len := byteAt data pos
  ⟨pos, 1⟩ ::
    if len = 0 then []
    else if len &&& 0xc0 = 0xc0 then [⟨pos + 1, 1⟩, ⟨(len &&& 0x3f) * 256 + byteAt data (pos + 1), 1⟩]
    else [⟨pos + 1, len⟩]

def namePlaces (data : Bytes) (pos : Nat) : Set Place :=
  {u | ∃ n place, walk (hop data) n pos = some place ∧ u ∈ itemPlaces data place}

section Answer

variable (p : Deserializer)

/-! The fields of an answer, from behind its name. -/

def classAt : Deserializer := (p.fetch 2).2

def ttlAt : Deserializer := ((classAt p).fetch 2).2

def lenAt : Deserializer := ((ttlAt p).fetch 4).2

def dataAt : Deserializer := ((lenAt p).fetch 2).2

def fieldPlaces : List Place := [p.here 2, (classAt p).here 2, (ttlAt p).here 4, (lenAt p).here 2]

end Answer

def questionGaps : Nat → Deserializer → List Place
  | 0, _ => []
  | count + 1, p => p.skipName.here 2 :: (classAt p.skipName).here 2 :: questionGaps count (skipQuestion p)

def questionUses (memory : Memory) : Nat → Deserializer → Set Place
  | 0, _ => ∅
  | count + 1, p => namePlaces p.data p.pos ∪
      {u | ∃ out ∈ p.fetchDomain memory, u ∈ questionUses memory count ((out.2.fetch 2).2.fetch 2).2}

/-- Behind the name of an answer, its type, and its length if it is passed over; what is before it is there as a whole.
-/
def fieldUses (memory : Memory) (later : List Place → Deserializer → Set Place) (passed : List Place)
    (q : Deserializer) : Set Place :=
  let fields := readFields memory q
  let places := passed ++ fieldPlaces q ++ [fields.rest.here fields.anLen]
  {q.here 2} ∪
    if fields.anType = typeA then {u | u ∈ fields.rest.here 4 :: places} ∪ later [] (fields.rest.fetch 4).2
    else if fields.anType = typeCNAME then
      {u | u ∈ places} ∪ (namePlaces fields.rest.data fields.rest.pos ∪
        {u | ∃ out ∈ fields.rest.fetchDomain memory, u ∈ later [] out.2})
    else {(lenAt q).here 2} ∪ later places (fields.rest.skip fields.anLen)

def answerUses (memory : Memory) : Nat → List Place → Deserializer → Set Place
  | 0, _, _ => ∅
  | count + 1, passed, p => namePlaces p.data p.pos ∪
      {u | ∃ out ∈ p.fetchDomain memory, u ∈ fieldUses memory (answerUses memory count) passed out.2}

def bodyUses (memory : Memory) (p : Deserializer) : Set Place :=
  let (qdCount, q) := p.fetchNumber memory 2
  let (anCount, r) := q.fetchNumber memory 2
  let s := ((r.fetch 2).2.fetch 2).2
  {p.here 2, q.here 2} ∪ (questionUses memory qdCount s ∪
    {u | ∃ t ∈ skipQuestions memory qdCount s,
      u ∈ answerUses memory anCount (r.here 2 :: (r.fetch 2).2.here 2 :: questionGaps qdCount s) t})

def World.uses (w : World) (packet : Packet) : Set Place :=
  if w.dns.requests = [] then ∅
  else
    let header := (readHeader packet.memory packet.data).1
    {⟨0, 2⟩} ∪
      if w.dns.findRequest header.reqId = none then ∅
      else
        {(({ data := packet.data } : Deserializer).fetch 2).2.here 2} ∪
          if header.isResponse ∧ header.rcode = 0 then
            bodyUses packet.memory (readHeader packet.memory packet.data).2
          else ∅

/-- Every value that is used has been received, and every record that is made is there as a whole; and what variables
held before makes no difference. -/
structure World.Received (w : World) (packet : Packet) : Prop where
  inside : ∀ u ∈ w.uses packet, u.Inside packet.data
  same : ∀ memory, w.onUdpRecv { packet with memory := memory } = w.onUdpRecv packet

def numberAt (p : Deserializer) (size : Nat) : Nat :=
  ((p.data.drop p.pos).take size).foldl (fun number byte => number * 256 + byte.toNat) 0

def NameHeld (p : Deserializer) : Prop := ∀ u ∈ namePlaces p.data p.pos, u.Inside p.data

def QuestionsHeld : Nat → Deserializer → Prop
  | 0, _ => True
  | count + 1, p => NameHeld p ∧ (¬Circles (hop p.data) p.pos → QuestionsHeld count (skipQuestion p))

def FieldsHeld (later : List Place → Deserializer → Prop) (passed : List Place) (q : Deserializer) : Prop :=
  let places := passed ++ fieldPlaces q ++ [(dataAt q).here (numberAt (lenAt q) 2)]
  (q.here 2).Inside q.data ∧
    if numberAt q 2 = typeA then
      (∀ u ∈ (dataAt q).here 4 :: places, u.Inside q.data) ∧ later [] ((dataAt q).fetch 4).2
    else if numberAt q 2 = typeCNAME then
      (∀ u ∈ places, u.Inside q.data) ∧ NameHeld (dataAt q) ∧
        (¬Circles (hop q.data) (dataAt q).pos → later [] (dataAt q).skipName)
    else ((lenAt q).here 2).Inside q.data ∧ later places ((dataAt q).skip (numberAt (lenAt q) 2))

def AnswersHeld : Nat → List Place → Deserializer → Prop
  | 0, _, _ => True
  | count + 1, passed, p => NameHeld p ∧
      (¬Circles (hop p.data) p.pos → FieldsHeld (AnswersHeld count) passed p.skipName)

def BodyHeld (p : Deserializer) : Prop :=
  let q := (p.fetch 2).2
  let r := (q.fetch 2).2
  let s := ((r.fetch 2).2.fetch 2).2
  (p.here 2).Inside p.data ∧ (q.here 2).Inside p.data ∧ QuestionsHeld (numberAt p 2) s ∧
    ((∀ pos ∈ questionNames (numberAt p 2) s, ¬Circles (hop p.data) pos) →
      AnswersHeld (numberAt q 2) (r.here 2 :: (r.fetch 2).2.here 2 :: questionGaps (numberAt p 2) s)
        (skipQuestion^[numberAt p 2] s))

def headerAt (data : Bytes) : Header :=
  ⟨.ofNat (numberAt { data := data } 2), .ofNat (numberAt { data := data, pos := 2 } 2)⟩

/-- The packet holds its id, its flags if a request has that id, and its body if it is a good answer. -/
def World.Held (w : World) (data : Bytes) : Prop :=
  w.dns.requests = [] ∨ 2 ≤ data.length ∧
    (w.dns.findRequest (headerAt data).reqId = none ∨ 4 ≤ data.length ∧
      ((headerAt data).isResponse ∧ (headerAt data).rcode = 0 → BodyHeld { data := data, pos := 4, reads := 2 }))

variable {memory memory' : Memory} {fuel count size : Nat} {first : Bool} {p q : Deserializer} {passed : List Place}
  {result : Result}

theorem fetch_inside (h : (p.here size).Inside p.data) :
    p.fetch size = (some ((p.data.drop p.pos).take size), { p with pos := p.pos + size, reads := p.reads + 1 }) :=
  if_pos (decide_eq_true h)

theorem fetchNumber_inside (h : (p.here size).Inside p.data) : (p.fetchNumber memory size).1 = numberAt p size := by
  rw [Deserializer.fetchNumber, fetch_inside h]
  rfl

theorem fetchLittle_inside (h : (p.here size).Inside p.data) :
    (p.fetchLittle memory size).1 = (p.fetchLittle memory' size).1 := by
  rw [Deserializer.fetchLittle, Deserializer.fetchLittle, fetch_inside h]

@[simp] theorem classAt_data (q : Deserializer) : (classAt q).data = q.data := q.fetch_data 2

@[simp] theorem ttlAt_data (q : Deserializer) : (ttlAt q).data = q.data := by simp [ttlAt]

@[simp] theorem lenAt_data (q : Deserializer) : (lenAt q).data = q.data := by simp [lenAt]

@[simp] theorem dataAt_data (q : Deserializer) : (dataAt q).data = q.data := by simp [dataAt]

theorem readFields_eq (memory : Memory) (q : Deserializer) : readFields memory q =
    ⟨(q.fetchNumber memory 2).1, ((ttlAt q).fetchNumber memory 4).1, ((lenAt q).fetchNumber memory 2).1, dataAt q⟩ := by
  simp only [readFields, Deserializer.fetchNumber_snd, dataAt, lenAt, ttlAt, classAt]

theorem forall_behind_iff (memory : Memory) (p : Deserializer) (S : Deserializer → Set Place) (data : Bytes) :
    (∀ u ∈ {u | ∃ out ∈ p.fetchDomain memory, u ∈ S out.2}, u.Inside data) ↔
      (¬Circles (hop p.data) p.pos → ∀ u ∈ S p.skipName, u.Inside data) := by
  by_cases hcircles : Circles (hop p.data) p.pos
  · rw [Deserializer.fetchDomain_eq_none hcircles]
    refine ⟨fun _ h => absurd hcircles h, ?_⟩
    rintro - u ⟨out, hout, -⟩
    cases hout
  · obtain ⟨name, hname⟩ := Deserializer.fetchDomain_eq memory hcircles
    rw [forall_prop_of_true hcircles]
    constructor
    · intro h u hu
      exact h u ⟨(name, p.skipName), hname, hu⟩
    · rintro h u ⟨out, hout, hu⟩
      cases hname.symm.trans hout
      exact h u hu

theorem questionUses_iff (memory : Memory) (count : Nat) (p : Deserializer) :
    (∀ u ∈ questionUses memory count p, u.Inside p.data) ↔ QuestionsHeld count p := by
  induction count generalizing p with
  | zero => exact ⟨fun _ => trivial, fun _ _ h => h.elim⟩
  | succ count ih =>
    rw [questionUses, QuestionsHeld]
    have hrest := ih (skipQuestion p)
    rw [skipQuestion_data] at hrest
    simp only [Set.mem_union, or_imp, forall_and]
    refine and_congr_right fun _ => ?_
    exact (forall_behind_iff memory p (fun q => questionUses memory count ((q.fetch 2).2.fetch 2).2) p.data).trans
      (imp_congr_right fun _ => hrest)

theorem not_forall_places (h : ¬((lenAt q).here 2).Inside q.data) (last : Place) :
    ¬∀ u ∈ passed ++ fieldPlaces q ++ [last], u.Inside q.data := by
  intro hall
  refine h (hall _ (mem_append_left _ (mem_append_right _ ?_)))
  exact mem_cons_of_mem _ (mem_cons_of_mem _ (mem_cons_of_mem _ mem_cons_self))

variable {Held : List Place → Deserializer → Prop}

theorem fieldUses_iff (memory : Memory) (passed : List Place) (q : Deserializer)
    {uses : List Place → Deserializer → Set Place}
    (h : ∀ passed p, (∀ u ∈ uses passed p, u.Inside p.data) ↔ Held passed p) :
    (∀ u ∈ fieldUses memory uses passed q, u.Inside q.data) ↔ FieldsHeld Held passed q := by
  unfold fieldUses FieldsHeld
  rw [readFields_eq]
  simp only [Set.mem_union, Set.mem_singleton_iff, or_imp, forall_and, forall_eq]
  refine and_congr_right fun htype => ?_
  have hanType : (q.fetchNumber memory 2).1 = numberAt q 2 := fetchNumber_inside htype
  by_cases hlen : ((lenAt q).here 2).Inside q.data
  · have hanLen : ((lenAt q).fetchNumber memory 2).1 = numberAt (lenAt q) 2 :=
      fetchNumber_inside ((lenAt_data q).symm ▸ hlen)
    rw [hanType, hanLen]
    by_cases hA : numberAt q 2 = typeA
    · have hlater := h [] ((dataAt q).fetch 4).2
      rw [Deserializer.fetch_data, dataAt_data] at hlater
      rw [if_pos hA, if_pos hA]
      simp only [Set.mem_union, or_imp, forall_and]
      exact and_congr Iff.rfl hlater
    rw [if_neg hA, if_neg hA]
    by_cases hCNAME : numberAt q 2 = typeCNAME
    · have hlater := h [] (dataAt q).skipName
      rw [Deserializer.skipName_data, dataAt_data] at hlater
      rw [if_pos hCNAME, if_pos hCNAME, NameHeld]
      simp only [Set.mem_union, or_imp, forall_and]
      have hbehind := forall_behind_iff memory (dataAt q) (uses []) q.data
      rw [dataAt_data] at hbehind ⊢
      exact and_congr Iff.rfl (and_congr Iff.rfl (hbehind.trans (imp_congr_right fun _ => hlater)))
    · have hlater := h (passed ++ fieldPlaces q ++ [(dataAt q).here (numberAt (lenAt q) 2)])
        ((dataAt q).skip (numberAt (lenAt q) 2))
      rw [Deserializer.skip_data, dataAt_data] at hlater
      rw [if_neg hCNAME, if_neg hCNAME]
      simp only [Set.mem_union, Set.mem_singleton_iff, or_imp, forall_and, forall_eq]
      exact and_congr Iff.rfl hlater
  · -- without its length the answer is no record, and is not passed over either
    rw [hanType]
    by_cases hA : numberAt q 2 = typeA
    · rw [if_pos hA, if_pos hA]
      refine iff_of_false (fun hall => ?_) fun hheld => ?_
      · exact not_forall_places hlen _ fun u hu => hall u (.inl (mem_cons_of_mem _ hu))
      · exact not_forall_places hlen _ fun u hu => hheld.1 u (mem_cons_of_mem _ hu)
    rw [if_neg hA, if_neg hA]
    by_cases hCNAME : numberAt q 2 = typeCNAME
    · rw [if_pos hCNAME, if_pos hCNAME]
      refine iff_of_false (fun hall => ?_) fun hheld => ?_
      · exact not_forall_places hlen _ fun u hu => hall u (.inl hu)
      · exact not_forall_places hlen _ hheld.1
    · rw [if_neg hCNAME, if_neg hCNAME]
      exact iff_of_false (fun hall => hlen (hall _ (.inl rfl))) fun hheld => hlen hheld.1

theorem answerUses_iff (memory : Memory) (count : Nat) (passed : List Place) (p : Deserializer) :
    (∀ u ∈ answerUses memory count passed p, u.Inside p.data) ↔ AnswersHeld count passed p := by
  induction count generalizing passed p with
  | zero =>
    rw [answerUses, AnswersHeld]
    exact ⟨fun _ => trivial, fun _ _ h => h.elim⟩
  | succ count ih =>
    have hfields := fieldUses_iff memory passed p.skipName ih
    rw [Deserializer.skipName_data] at hfields
    rw [answerUses, AnswersHeld]
    simp only [Set.mem_union, or_imp, forall_and]
    refine and_congr_right fun _ => ?_
    exact (forall_behind_iff memory p (fieldUses memory (answerUses memory count) passed) p.data).trans
      (imp_congr_right fun _ => hfields)

variable {data : Bytes}

theorem forall_behindQuestions_iff (S : Deserializer → Set Place) :
    (∀ u ∈ {u | ∃ t ∈ skipQuestions memory count p, u ∈ S t}, u.Inside data) ↔
      ((∀ pos ∈ questionNames count p, ¬Circles (hop p.data) pos) →
        ∀ u ∈ S (skipQuestion^[count] p), u.Inside data) := by
  by_cases hends : ∀ pos ∈ questionNames count p, ¬Circles (hop p.data) pos
  · have hskip := skipQuestions_eq memory hends
    rw [forall_prop_of_true hends]
    constructor
    · intro h u hu
      exact h u ⟨_, hskip, hu⟩
    · rintro h u ⟨t, ht, hu⟩
      cases hskip.symm.trans ht
      exact h u hu
  · refine ⟨fun _ h => absurd h hends, ?_⟩
    obtain ⟨pos, hpos, hcircles⟩ := not_forall₂.mp hends
    rintro - u ⟨t, ht, -⟩
    exact nomatch (skipQuestions_eq_none hpos (not_not.mp hcircles)).symm.trans ht

theorem bodyUses_iff : (∀ u ∈ bodyUses memory p, u.Inside p.data) ↔ BodyHeld p := by
  unfold bodyUses BodyHeld
  dsimp only
  rw [Deserializer.fetchNumber_snd, Deserializer.fetchNumber_snd]
  generalize hq : (p.fetch 2).2 = q
  generalize hr : (q.fetch 2).2 = r
  generalize hs : ((r.fetch 2).2.fetch 2).2 = s
  have hqdata : q.data = p.data := by simp [← hq]
  have hsdata : s.data = p.data := by simp [← hs, ← hr, hqdata]
  simp only [Set.mem_union, Set.mem_insert_iff, Set.mem_singleton_iff, or_imp, forall_and, forall_eq, and_assoc]
  refine and_congr_right fun hqd => and_congr_right fun han => ?_
  rw [fetchNumber_inside hqd, fetchNumber_inside (hqdata.symm ▸ han)]
  have hquestions := questionUses_iff memory (numberAt p 2) s
  have hanswers := answerUses_iff memory (numberAt q 2)
    (r.here 2 :: (r.fetch 2).2.here 2 :: questionGaps (numberAt p 2) s) (skipQuestion^[numberAt p 2] s)
  rw [hsdata] at hquestions
  rw [skipQuestions_data, hsdata] at hanswers
  refine and_congr hquestions ((forall_behindQuestions_iff _).trans ?_)
  rw [hsdata]
  exact imp_congr_right fun _ => hanswers

theorem NameHeld.next {next : Deserializer} (h : NameHeld p) (hhop : hop p.data p.pos = some next.pos)
    (hdata : next.data = p.data) : NameHeld next := by
  rintro u ⟨n, place, hplace, hu⟩
  rw [hdata] at hplace hu ⊢
  refine h u ⟨n + 1, place, ?_, hu⟩
  rw [Lib.walk_succ, hhop, bind_some, hplace]

theorem NameHeld.item (h : NameHeld p) {u : Place} (hu : u ∈ itemPlaces p.data p.pos) : u.Inside p.data :=
  h u ⟨0, p.pos, rfl, hu⟩

theorem fetchText_inside (h : (p.here size).Inside p.data) : p.fetchText memory size = p.fetchText memory' size := by
  rw [Deserializer.fetchText, Deserializer.fetchText, fetch_inside h]
  rfl

theorem fetchDomain_held (h : NameHeld p) : fetchDomain memory fuel first p = fetchDomain memory' fuel first p := by
  induction fuel generalizing first p with
  | zero => rfl
  | succ fuel ih =>
    rw [fetchDomain, fetchDomain]
    dsimp only
    rw [p.fetchByte_fst]
    by_cases hlen : byteAt p.data p.pos = 0
    · rw [if_pos hlen, if_pos hlen]
    have hdata : p.fetchByte.2.data = p.data := p.fetch_data 1
    have hpos := Deserializer.fetchByte_pos hlen
    rw [if_neg hlen, if_neg hlen]
    by_cases hpointer : byteAt p.data p.pos &&& 0xc0 = 0xc0
    · have hdata' : p.fetchByte.2.fetchByte.2.data = p.data := (p.fetchByte.2.fetch_data 1).trans hdata
      rw [if_pos hpointer, if_pos hpointer,
        ih (h.next (Deserializer.hop_pointer hlen hpointer) ((Deserializer.setPos_data _ _).trans hdata'))]
    have htext : (p.fetchByte.2.here (byteAt p.data p.pos)).Inside p.fetchByte.2.data := by
      rw [hdata, Deserializer.here, hpos]
      apply h.item
      rw [itemPlaces, if_neg hlen, if_neg hpointer]
      exact mem_cons_of_mem _ mem_cons_self
    have hnext : NameHeld (p.fetchByte.2.fetchText memory' (byteAt p.data p.pos)).2 :=
      h.next (Deserializer.hop_part hlen hpointer) ((Deserializer.fetch_data _ _).trans hdata)
    rw [if_neg hpointer, if_neg hpointer, fetchText_inside htext, ih hnext]

theorem Deserializer.fetchDomain_held (h : NameHeld p) : p.fetchDomain memory = p.fetchDomain memory' :=
  Dns.fetchDomain_held h

theorem takeFields_held
    {later later' : Deserializer → Result → Option Result} (h : FieldsHeld Held passed q)
    (hlater : ∀ passed p result, Held passed p → later p result = later' p result) :
    takeFields memory later q result = takeFields memory' later' q result := by
  obtain ⟨htype, hfields⟩ := h
  have hanType : ∀ memory, (q.fetchNumber memory 2).1 = numberAt q 2 := fun _ => fetchNumber_inside htype
  have hanTtl : ∀ last : Place, (∀ u ∈ passed ++ fieldPlaces q ++ [last], u.Inside q.data) →
      ∀ memory, ((ttlAt q).fetchNumber memory 4).1 = numberAt (ttlAt q) 4 := by
    intro last hplaces memory
    have hmem : (ttlAt q).here 4 ∈ fieldPlaces q := mem_cons_of_mem _ (mem_cons_of_mem _ mem_cons_self)
    have hinside := hplaces _ (mem_append_left _ (mem_append_right _ hmem))
    exact fetchNumber_inside ((ttlAt_data q).symm ▸ hinside)
  unfold takeFields
  rw [readFields_eq, readFields_eq]
  rw [hanType, hanType]
  by_cases hA : numberAt q 2 = typeA
  · rw [if_pos hA] at hfields
    have hip : ((dataAt q).here 4).Inside (dataAt q).data := by
      rw [dataAt_data]
      exact hfields.1 _ mem_cons_self
    have httl := hanTtl _ fun u hu => hfields.1 u (mem_cons_of_mem _ hu)
    rw [if_pos hA, if_pos hA, httl, httl, fetchLittle_inside hip]
    exact hlater _ _ _ hfields.2
  rw [if_neg hA] at hfields
  rw [if_neg hA, if_neg hA]
  by_cases hCNAME : numberAt q 2 = typeCNAME
  · rw [if_pos hCNAME] at hfields
    obtain ⟨hplaces, hname, hbehind⟩ := hfields
    rw [if_pos hCNAME, if_pos hCNAME, hanTtl _ hplaces, hanTtl _ hplaces, Deserializer.fetchDomain_held hname]
    by_cases hcircles : Circles (hop (dataAt q).data) (dataAt q).pos
    · rw [Deserializer.fetchDomain_eq_none hcircles, bind_none, bind_none]
    obtain ⟨name, hdecoded⟩ := Deserializer.fetchDomain_eq memory' hcircles
    rw [dataAt_data] at hcircles
    rw [hdecoded, bind_some, bind_some]
    dsimp only
    exact hlater _ _ _ (hbehind hcircles)
  · rw [if_neg hCNAME] at hfields
    have hanLen : ∀ memory, ((lenAt q).fetchNumber memory 2).1 = numberAt (lenAt q) 2 :=
      fun _ => fetchNumber_inside ((lenAt_data q).symm ▸ hfields.1)
    rw [if_neg hCNAME, if_neg hCNAME, hanLen, hanLen]
    exact hlater _ _ _ hfields.2

theorem takeAnswers_held (h : AnswersHeld count passed p) :
    takeAnswers memory count p result = takeAnswers memory' count p result := by
  induction count generalizing passed p result with
  | zero => rfl
  | succ count ih =>
    rw [AnswersHeld] at h
    rw [takeAnswers_succ, takeAnswers_succ, Deserializer.fetchDomain_held h.1]
    by_cases hcircles : Circles (hop p.data) p.pos
    · rw [Deserializer.fetchDomain_eq_none hcircles, bind_none, bind_none]
    · obtain ⟨name, hname⟩ := Deserializer.fetchDomain_eq memory' hcircles
      rw [hname, bind_some, bind_some]
      exact takeFields_held (h.2 hcircles) fun _ _ _ => ih

theorem skipQuestions_same : skipQuestions memory count p = skipQuestions memory' count p := by
  by_cases hends : ∀ pos ∈ questionNames count p, ¬Circles (hop p.data) pos
  · rw [skipQuestions_eq memory hends, skipQuestions_eq memory' hends]
  · obtain ⟨pos, hpos, hcircles⟩ := not_forall₂.mp hends
    rw [skipQuestions_eq_none hpos (not_not.mp hcircles), skipQuestions_eq_none hpos (not_not.mp hcircles)]

theorem parseAnswer_held (h : BodyHeld p) : parseAnswer memory p = parseAnswer memory' p := by
  obtain ⟨hqd, han, -, hanswers⟩ := h
  have hqdCount : ∀ memory, (p.fetchNumber memory 2).1 = numberAt p 2 := fun _ => fetchNumber_inside hqd
  have hanCount : ∀ memory, ((p.fetch 2).2.fetchNumber memory 2).1 = numberAt (p.fetch 2).2 2 :=
    fun _ => fetchNumber_inside ((p.fetch_data 2).symm ▸ han)
  unfold parseAnswer
  dsimp only [bind_eq_bind]
  simp only [Deserializer.fetchNumber_snd, hqdCount, hanCount]
  generalize hs : ((((p.fetch 2).2.fetch 2).2.fetch 2).2.fetch 2).2 = s at hanswers ⊢
  have hdata : s.data = p.data := by simp [← hs]
  rw [skipQuestions_same]
  by_cases hends : ∀ pos ∈ questionNames (numberAt p 2) s, ¬Circles (hop p.data) pos
  · rw [skipQuestions_eq memory' (by rwa [hdata]), bind_some, bind_some]
    exact takeAnswers_held (hanswers hends)
  obtain ⟨pos, hpos, hcircles⟩ := not_forall₂.mp hends
  have hnone : skipQuestions memory' (numberAt p 2) s = none :=
    skipQuestions_eq_none hpos (by rw [hdata]; exact not_not.mp hcircles)
  rw [hnone, bind_none, bind_none]

namespace World

variable {w : World} {packet : Packet}

theorem readHeader_reqId (memory : Memory) (h : 2 ≤ data.length) :
    (readHeader memory data).1.reqId = (headerAt data).reqId := by
  have hinside : (({ data := data } : Deserializer).here 2).Inside data := by
    rwa [Deserializer.here, Place.Inside, Nat.zero_add]
  rw [readHeader, headerAt]
  dsimp only
  rw [fetchNumber_inside hinside]

theorem fetch_header (h : 2 ≤ data.length) :
    (({ data := data } : Deserializer).fetch 2).2 = { data := data, pos := 2, reads := 1 } := by
  have hinside : (({ data := data } : Deserializer).here 2).Inside data := by
    rwa [Deserializer.here, Place.Inside, Nat.zero_add]
  rw [fetch_inside hinside]

theorem readHeader_eq (memory : Memory) (h : 4 ≤ data.length) :
    readHeader memory data = (headerAt data, { data := data, pos := 4, reads := 2 }) := by
  have hid : (({ data := data } : Deserializer).here 2).Inside data := by
    rw [Deserializer.here, Place.Inside, Nat.zero_add]
    exact Nat.le_trans (show 2 ≤ 4 by decide) h
  have hflags : (({ data := data, pos := 2, reads := 1 } : Deserializer).here 2).Inside data := h
  rw [readHeader, headerAt]
  dsimp only
  rw [fetchNumber_inside hid, Deserializer.fetchNumber_snd, Deserializer.fetchNumber_snd,
    fetch_header (Nat.le_trans (by decide) h), fetchNumber_inside hflags, fetch_inside hflags]
  rfl

theorem uses_iff : (∀ u ∈ w.uses packet, u.Inside packet.data) ↔ w.Held packet.data := by
  unfold uses Held
  by_cases hempty : w.dns.requests = []
  · rw [if_pos hempty]
    exact ⟨fun _ => .inl hempty, fun _ _ h => h.elim⟩
  have hid : (Place.mk 0 2).Inside packet.data ↔ 2 ≤ packet.data.length := by
    rw [Place.Inside, Nat.zero_add]
  rw [if_neg hempty, or_iff_right hempty]
  simp only [Set.mem_union, Set.mem_singleton_iff, or_imp, forall_and, forall_eq, hid]
  refine and_congr_right fun htwo => ?_
  rw [readHeader_reqId packet.memory htwo]
  by_cases hfind : w.dns.findRequest (headerAt packet.data).reqId = none
  · rw [if_pos hfind]
    exact ⟨fun _ => .inl hfind, fun _ _ h => h.elim⟩
  have hflags : (Deserializer.here { data := packet.data, pos := 2, reads := 1 } 2).Inside packet.data ↔
      4 ≤ packet.data.length := Iff.rfl
  rw [if_neg hfind, or_iff_right hfind, fetch_header htwo]
  simp only [Set.mem_union, Set.mem_singleton_iff, or_imp, forall_and, forall_eq, hflags]
  refine and_congr_right fun hfour => ?_
  rw [readHeader_eq packet.memory hfour]
  by_cases hgood : (headerAt packet.data).isResponse ∧ (headerAt packet.data).rcode = 0
  · rw [if_pos hgood, forall_prop_of_true hgood]
    exact bodyUses_iff
  · rw [if_neg hgood]
    exact ⟨fun _ h => absurd h hgood, fun _ _ h => h.elim⟩

theorem onUdpRecv_held (h : w.Held packet.data) (memory : Memory) :
    w.onUdpRecv { packet with memory := memory } = w.onUdpRecv packet := by
  unfold onUdpRecv
  rcases h with hempty | ⟨htwo, h⟩
  · rw [if_pos hempty, if_pos hempty]
  by_cases hempty : w.dns.requests = []
  · rw [if_pos hempty, if_pos hempty]
  rw [if_neg hempty, if_neg hempty]
  dsimp only
  rw [readHeader_reqId memory htwo, readHeader_reqId packet.memory htwo]
  rcases h with hnone | ⟨hfour, hbody⟩
  · rw [hnone]
  cases w.dns.findRequest (headerAt packet.data).reqId with
  | none => rfl
  | some req =>
    rw [readHeader_eq memory hfour, readHeader_eq packet.memory hfour]
    dsimp only
    by_cases hresponse : (headerAt packet.data).isResponse
    · rw [if_neg (not_not_intro hresponse), if_neg (not_not_intro hresponse)]
      by_cases hrcode : (headerAt packet.data).rcode = 0
      · rw [if_pos hrcode, if_pos hrcode, parseAnswer_held (hbody ⟨hresponse, hrcode⟩)]
      · rw [if_neg hrcode, if_neg hrcode]
    · rw [if_pos hresponse, if_pos hresponse]

/-- **What `onUdpRecv` goes by has been received, and its records are there as a whole, exactly if the packet holds
it.** -/
theorem received_iff_held (w : World) (packet : Packet) : w.Received packet ↔ w.Held packet.data :=
  ⟨fun h => uses_iff.mp h.inside, fun h => ⟨uses_iff.mpr h, onUdpRecv_held h⟩⟩

theorem nameHeld_of_walk {n : Nat} (hend : walk (hop p.data) n p.pos = none)
    (hinside : ∀ m < n, ∀ place ∈ walk (hop p.data) m p.pos, ∀ u ∈ itemPlaces p.data place, u.Inside p.data) :
    NameHeld p := by
  rintro u ⟨m, place, hplace, hu⟩
  have hlt : m < n := by
    by_contra hnot
    exact nomatch hplace.symm.trans (Lib.walk_mono hend (Nat.le_of_not_lt hnot))
  exact hinside m hlt place hplace u hu

example (w : World) : w.Held addressOfA.data := by
  refine .inr ⟨by decide, .inr ⟨by decide, fun _ => ⟨by decide, by decide, ⟨?_, fun _ => trivial⟩, fun _ => ⟨?_, ?_⟩⟩⟩⟩
  · exact nameHeld_of_walk (n := 2) (by decide) (by decide)
  · exact nameHeld_of_walk (n := 3) (by decide) (by decide)
  · exact fun _ => ⟨by decide, by decide, trivial⟩

def headerOnly : Packet where
  data := [0, 1, 0x81, 0x80, 0, 0, 0, 1, 0, 0, 0, 0]
  memory := { number := fun _ => 1 }
  sender := 1
  answers := some 0

/-- The user is told of an address that nobody has sent. -/
theorem headerOnly_not_received : ∃ w, run World.step { dns := { dnsIpVec := [1] } } [.request [97] true] = some w ∧
    (w.onUdpRecv headerOnly).records.map (fun r => r.outcomes.map fun o => o.result.aVec) = [[[⟨1, 1⟩]]] ∧
    ¬w.Received headerOnly := by
  obtain ⟨w, hw, hmade⟩ := (Option.any_eq_true _ _).mp (show Option.any
    (fun w : World => decide
      ((w.onUdpRecv headerOnly).records.map (fun r => r.outcomes.map fun o => o.result.aVec) = [[[⟨1, 1⟩]]] ∧
        (w.onUdpRecv { headerOnly with memory := {} }).records.map (fun r => r.outcomes.map fun o => o.result.aVec) =
          [[[]]]))
    (run World.step { dns := { dnsIpVec := [1] } } [.request [97] true]) = true by decide +kernel)
  obtain ⟨hone, hzero⟩ := of_decide_eq_true hmade
  refine ⟨w, hw, hone, fun h => ?_⟩
  rw [h.same, hone] at hzero
  exact absurd hzero (by decide)

end World

end Tbox.Network.Dns
