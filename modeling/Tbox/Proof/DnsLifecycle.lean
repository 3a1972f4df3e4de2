import Tbox.Network.DnsRequest

/-!
# Every DNS request is answered once

The ids come round after 65536 requests, and failures are counted from whatever server. Where an id in use is not
given again, and every server's failure is counted once, a request has its own outcome within five ticks.
-/

open List Option

namespace Tbox.Network.Dns

open Tbox.Lib

/-- What must hold of the request of that number. -/
structure Served (w : World) (no : Nat) (r : Record) : Prop where
  once : r.outcomes.length ≤ 1
  complete : r.cb = true → r.cancelled = false → w.calling = none →
    r.outcomes.length = 1 ∨ r.age < 5 ∧ w.dns.timeoutMonitor.timerEnabled = true
  silent : ∀ o ∈ r.outcomes, o.afterCancel = false
  own : ∀ o ∈ r.outcomes, ∀ m ∈ o.source, m = no
  allFailed : ∀ o ∈ r.outcomes, o.result.status = .kAllDnsFail → ∀ ip ∈ o.servers, ip ∈ o.failedBy

structure World.Faithful (w : World) : Prop where
  alive : w.crashed = false
  served : ∀ (no : Nat) (r : Record), w.records[no]? = some r → Served w no r

structure IdFree (w : World) (reqId : ReqId) : Prop where
  requests : ∀ req ∈ w.dns.requests, req.id ≠ reqId
  monitor : ∀ items ∈ w.dns.timeoutMonitor.ring, ∀ value ∈ items, value.1 ≠ reqId
  tobeHandle : ∀ value ∈ w.tobeHandle, value.1 ≠ reqId
  calling : w.calling ≠ some reqId

/-- The answer is to this request, a failure comes from a server that has not been counted, and a success can be taken
apart. -/
structure Proper (w : World) (packet : Packet) (req : Request) : Prop where
  answers : ∀ no ∈ packet.answers, no = req.no
  counted : (readHeader packet.memory packet.data).1.serverFails →
    packet.sender ∈ w.dns.dnsIpVec ∧
      ∀ r ∈ w.records[req.no]?, packet.sender ∉ r.failedBy
  parsed : (readHeader packet.memory packet.data).1.rcode = 0 →
    (parseAnswer packet.memory (readHeader packet.memory packet.data).2).isSome

/-- Ids are not given again while something is kept under them, nor used for another request than the one
they were given for; and the servers stay while they are asked. -/
def OneByOne (w : World) : Action → Prop
  | .setDnsIPAddresses _ => w.dns.requests = []
  | .request _ _ => w.dns.dnsIpVec ≠ [] → IdFree w (w.dns.reqIdAlloc + 1)
  | .cancel no => ∀ r ∈ w.records[no]?, ∀ req ∈ w.dns.requests, req.id = r.id → req.no = no
  | .udpRecv packet =>
    (readHeader packet.memory packet.data).1.isResponse →
      ∀ req ∈ w.dns.requests, req.id = (readHeader packet.memory packet.data).1.reqId →
        Proper w packet req
  | _ => True

namespace World

/-- What is known of a request in the map, by what is kept under its id. It may be in hand. -/
structure Live (w : World) (inHand : Option ReqId) (req : Request) (r : Record) : Prop where
  id : r.id = req.id
  cb : r.cb = req.cb
  waits : r.cancelled = false
  outcomes : w.calling ≠ some req.id → r.outcomes = []
  called : w.calling = some req.id → r.outcomes.length = 1
  count : req.responseCount = r.failedBy.length
  nodup : r.failedBy.Nodup
  servers : ∀ ip ∈ r.failedBy, ip ∈ w.dns.dnsIpVec
  place : inHand = some req.id ∨ w.calling = some req.id ∨
    (∃ k, (req.id, req.no) ∈ w.dns.timeoutMonitor.slot k) ∨ (req.id, req.no) ∈ w.tobeHandle

structure Delivered (no : Nat) (r : Record) : Prop where
  once : r.outcomes.length ≤ 1
  silent : ∀ o ∈ r.outcomes, o.afterCancel = false
  own : ∀ o ∈ r.outcomes, ∀ m ∈ o.source, m = no
  allFailed : ∀ o ∈ r.outcomes, o.result.status = .kAllDnsFail → ∀ ip ∈ o.servers, ip ∈ o.failedBy

structure Core (w : World) (inHand : Option ReqId) : Prop where
  alive : w.crashed = false
  ring : w.dns.timeoutMonitor.ring.length = 5
  heard : w.dns.timeoutMonitor.hasCallback = true
  counted : w.dns.timeoutMonitor.Counted
  keys : (w.dns.requests.map Request.id).Nodup
  live : ∀ req ∈ w.dns.requests, ∃ r, w.records[req.no]? = some r ∧ w.Live inHand req r
  waiting : ∀ k, ∀ value ∈ w.dns.timeoutMonitor.slot k,
    ∃ r, w.records[value.2]? = some r ∧ r.id = value.1 ∧ r.age + (k + 1) = 5
  due : ∀ value ∈ w.tobeHandle, ∃ r, w.records[value.2]? = some r ∧ r.id = value.1 ∧ r.age = 5
  sole : ∀ value, (value ∈ w.tobeHandle ∨ ∃ k, value ∈ w.dns.timeoutMonitor.slot k) →
    ∀ req ∈ w.dns.requests, req.id = value.1 → req.no = value.2
  gone : ∀ no r, w.records[no]? = some r → (∀ req ∈ w.dns.requests, req.no ≠ no) →
    r.cb = true → r.cancelled = false → r.outcomes.length = 1
  delivered : ∀ no r, w.records[no]? = some r → Delivered no r

structure Kept (w : World) : Prop extends Core w none where
  quiet : w.calling = none → w.tobeHandle = []

variable {w u : World} {req other : Request} {r : Record} {no : Nat} {reqId : ReqId}
  {inHand : Option ReqId} {value : ReqId × Nat} {ids : List (ReqId × Nat)}

theorem Kept.faithful (h : w.Kept) : w.Faithful := by
  refine ⟨h.alive, fun no r hr => ?_⟩
  have hdelivered := h.delivered no r hr
  refine { hdelivered with complete := fun hcb hwaits hcalling => ?_ }
  by_cases hin : ∀ req ∈ w.dns.requests, req.no ≠ no
  · exact .inl (h.gone no r hr hin hcb hwaits)
  push Not at hin
  obtain ⟨req, hreq, rfl⟩ := hin
  obtain ⟨r', hr', hlive⟩ := h.live req hreq
  have hplace := hlive.place
  rw [hcalling, h.quiet hcalling] at hplace
  rcases hplace with hhand | hcall | ⟨k, hslot⟩ | hdue
  · cases hhand
  · cases hcall
  · obtain ⟨r'', hr'', -, hage⟩ := h.waiting k _ hslot
    cases hr.symm.trans hr''
    refine .inr ⟨by omega, ?_⟩
    exact h.counted.enabled.mpr (Eventx.TimeoutMonitor.size_pos_of_mem hslot)
  · exact absurd hdue not_mem_nil

theorem findRequest_some (h : w.dns.findRequest reqId = some req) : req ∈ w.dns.requests ∧ req.id = reqId := by
  rw [DnsRequest.findRequest] at h
  exact ⟨List.mem_of_find?_eq_some h,
    of_decide_eq_true (find?_some (p := fun req : Request => decide (req.id = reqId)) h)⟩

theorem findRequest_none (h : w.dns.findRequest reqId = none) : ∀ req ∈ w.dns.requests, req.id ≠ reqId := by
  intro req hreq hid
  exact find?_eq_none.mp h req hreq (decide_eq_true hid)

theorem mem_others : other ∈ w.dns.others reqId ↔ other ∈ w.dns.requests ∧ other.id ≠ reqId := by
  rw [DnsRequest.others, mem_filter, decide_eq_true_iff]

theorem deleteRequest_eq (d : DnsRequest) (reqId : ReqId) : ∃ udpEnabled,
    (d.deleteRequest reqId).2 = { d with requests := d.others reqId, udpEnabled := udpEnabled } := by
  rw [DnsRequest.deleteRequest]
  cases hfind : d.findRequest reqId with
  | none =>
    have hall : d.others reqId = d.requests := by
      rw [DnsRequest.others, filter_eq_self]
      intro req hreq
      exact decide_eq_true fun hid => find?_eq_none.mp hfind req hreq (decide_eq_true hid)
    exact ⟨d.udpEnabled, by rw [hall]⟩
  | some req => exact ⟨_, rfl⟩

theorem Core.eq_of_id (h : w.Core inHand) (hreq : req ∈ w.dns.requests)
    (hother : other ∈ w.dns.requests) (hid : req.id = other.id) : req = other :=
  inj_on_of_nodup_map h.keys hreq hother hid

theorem Core.eq_of_no (h : w.Core inHand) (hreq : req ∈ w.dns.requests)
    (hother : other ∈ w.dns.requests) (hno : req.no = other.no) : req = other := by
  obtain ⟨r, hr, hlive⟩ := h.live req hreq
  obtain ⟨r', hr', hlive'⟩ := h.live other hother
  rw [hno, hr'] at hr
  cases hr
  exact h.eq_of_id hreq hother (hlive.id.symm.trans hlive'.id)

@[simp]
theorem getElem?_modifyRecord (w : World) (no : Nat) (f : Record → Record) (j : Nat) :
    (w.modifyRecord no f).records[j]? = (w.records[j]?).map fun r => if no = j then f r else r := by
  simp only [modifyRecord, List.getElem?_modify]
  rfl

theorem modifyRecord_some {f : Record → Record} {j : Nat} (h : (w.modifyRecord no f).records[j]? = some r) :
    ∃ r₀, w.records[j]? = some r₀ ∧ r = if no = j then f r₀ else r₀ := by
  rw [getElem?_modifyRecord] at h
  obtain ⟨r₀, hr₀, rfl⟩ := map_eq_some_iff.mp h
  exact ⟨r₀, hr₀, rfl⟩

theorem keys_others (h : (w.dns.requests.map Request.id).Nodup) (reqId : ReqId) :
    ((w.dns.others reqId).map Request.id).Nodup :=
  h.sublist (filter_sublist.map Request.id)

/-- A request is deleted, after its callback has returned or because it has none. -/
theorem Core.delete (h : w.Core inHand) (hcalling : w.calling = none ∨ w.calling = some reqId)
    (hhand : ∀ id ∈ inHand, id = reqId)
    (hdone : ∀ req ∈ w.dns.requests, req.id = reqId → req.cb = true → w.calling = some reqId) :
    ({ w with dns := (w.dns.deleteRequest reqId).2, calling := none } : World).Core none := by
  obtain ⟨udpEnabled, heq⟩ := deleteRequest_eq w.dns reqId
  rw [heq]
  refine { h with keys := keys_others h.keys reqId, live := ?_, sole := ?_, gone := ?_ }
  · intro req hreq
    obtain ⟨hmem, hne⟩ := mem_others.mp hreq
    obtain ⟨r, hr, hlive⟩ := h.live req hmem
    have hother : w.calling ≠ some req.id := by
      intro hcall
      rcases hcalling with hnone | hsome
      · exact nomatch hnone.symm.trans hcall
      · exact hne (some.inj (hcall.symm.trans hsome))
    refine ⟨r, hr, hlive.id, hlive.cb, hlive.waits, fun _ => hlive.outcomes hother,
      fun hcall => (nomatch hcall), hlive.count, hlive.nodup, hlive.servers, ?_⟩
    rcases hlive.place with hplace | hplace | hplace
    · exact absurd (hhand _ hplace) hne
    · exact absurd hplace hother
    · exact .inr (.inr hplace)
  · exact fun value hvalue req hreq => h.sole value hvalue req (mem_others.mp hreq).1
  intro no r hr hno hcb hwaits
  by_cases hin : ∀ req ∈ w.dns.requests, req.no ≠ no
  · exact h.gone no r hr hin hcb hwaits
  push Not at hin
  obtain ⟨req, hreq, rfl⟩ := hin
  have hid : req.id = reqId := by
    by_contra hne
    exact hno req (mem_others.mpr ⟨hreq, hne⟩) rfl
  obtain ⟨r', hr', hlive⟩ := h.live req hreq
  cases hr.symm.trans hr'
  exact hlive.called (hid ▸ hdone req hreq hid (hlive.cb ▸ hcb))

theorem Core.deliver (h : w.Core inHand) (hcalling : w.calling = none)
    (hreq : ∃ other ∈ w.dns.requests, other.id = req.id ∧ other.no = req.no ∧ other.cb = req.cb)
    (hhand : ∀ id ∈ inHand, id = req.id) {result : Result} {source : Option Nat} (hsource : ∀ m ∈ source, m = req.no)
    (hall : result.status = .kAllDnsFail → ∀ r, w.records[req.no]? = some r →
      ∀ ip ∈ w.dns.dnsIpVec, ip ∈ r.failedBy) :
    (w.deliver req result source).Core none ∧ (w.deliver req result source).tobeHandle = w.tobeHandle := by
  obtain ⟨mine, hmine, hid, hno, hcb⟩ := hreq
  rw [World.deliver]
  split_ifs with hset
  · refine ⟨⟨h.alive, h.ring, h.heard, h.counted, h.keys, ?_, ?_, ?_, h.sole, ?_, ?_⟩, rfl⟩
    · intro other hother
      obtain ⟨r, hr, hlive⟩ := h.live other hother
      have hempty := hlive.outcomes (hcalling ▸ (some_ne_none other.id).symm)
      rw [getElem?_modifyRecord]
      rw [hr, map_some]
      by_cases hsame : req.no = other.no
      · rw [if_pos hsame]
        obtain rfl := h.eq_of_no hmine hother (hno.trans hsame)
        refine ⟨_, rfl, hlive.id, hlive.cb, hlive.waits, ?_, ?_, hlive.count, hlive.nodup,
          hlive.servers, .inr (.inl (congrArg some hid.symm))⟩
        · exact fun hne => absurd (congrArg some hid.symm) hne
        · intro _
          rw [hempty]
          rfl
      · rw [if_neg hsame]
        have hne : req.id ≠ other.id := fun heq =>
          hsame (hno.symm.trans (congrArg Request.no (h.eq_of_id hmine hother (hid.trans heq))))
        refine ⟨_, rfl, hlive.id, hlive.cb, hlive.waits, fun _ => hempty, ?_, hlive.count, hlive.nodup,
          hlive.servers, ?_⟩
        · exact fun hcall => absurd (some.inj hcall) hne
        rcases hlive.place with hplace | hplace | hplace
        · exact absurd (hhand _ hplace).symm hne
        · exact absurd (hcalling.symm.trans hplace) (some_ne_none _).symm
        · exact .inr (.inr hplace)
    · intro k value hvalue
      obtain ⟨r, hr, hr'⟩ := h.waiting k value hvalue
      refine ⟨_, by rw [getElem?_modifyRecord]; dsimp only; rw [hr, map_some], ?_⟩
      split_ifs <;> exact hr'
    · intro value hvalue
      obtain ⟨r, hr, hr'⟩ := h.due value hvalue
      refine ⟨_, by rw [getElem?_modifyRecord]; dsimp only; rw [hr, map_some], ?_⟩
      split_ifs <;> exact hr'
    · intro no r hr hgone hcb' hwaits
      obtain ⟨r₀, hr₀, rfl⟩ := modifyRecord_some hr
      have hne : req.no ≠ no := fun heq => hgone mine hmine (hno.trans heq)
      rw [if_neg hne] at hcb' hwaits ⊢
      exact h.gone no r₀ hr₀ hgone hcb' hwaits
    · intro no r hr
      obtain ⟨r₀, hr₀, rfl⟩ := modifyRecord_some hr
      have hdelivered := h.delivered no r₀ hr₀
      split_ifs with heq
      · subst heq
        obtain ⟨r, hr, hlive⟩ := h.live mine hmine
        rw [hno] at hr
        obtain rfl := some.inj (hr.symm.trans hr₀)
        have hempty : r.outcomes = [] :=  hlive.outcomes (hcalling ▸ (some_ne_none mine.id).symm)
        have honly : ∀ o ∈ r.outcomes ++ [Outcome.mk result source w.dns.dnsIpVec r.failedBy r.cancelled],
            o = ⟨result, source, w.dns.dnsIpVec, r.failedBy, r.cancelled⟩ := by
          intro o ho
          rw [hempty, nil_append] at ho
          exact mem_singleton.mp ho
        refine ⟨?_, ?_, ?_, ?_⟩
        · dsimp only
          rw [hempty]
          exact le_rfl
        · intro o ho
          rw [honly o ho]
          exact hlive.waits
        · intro o ho
          rw [honly o ho]
          exact hsource
        · intro o ho
          rw [honly o ho]
          exact fun hstatus => hall hstatus r hr₀
      · exact hdelivered
  · have hdelete := h.delete (.inl hcalling) hhand fun other hother hid' hcb' => by
      rw [h.eq_of_id hother hmine (hid'.trans hid.symm), hcb] at hcb'
      exact absurd hcb' hset
    obtain ⟨udpEnabled, heq⟩ := deleteRequest_eq w.dns req.id
    have hsame : ({ w with dns := (w.dns.deleteRequest req.id).2 } : World)
        = { w with dns := (w.dns.deleteRequest req.id).2, calling := none } := by
      rw [hcalling]
    rw [hsame]
    exact ⟨hdelete, rfl⟩

theorem Core.onRequestTimeout (h : w.Core none) (hcalling : w.calling = none) (hids : w.tobeHandle = value :: ids) :
    (({ w with tobeHandle := ids } : World).onRequestTimeout value).Core none ∧
      (({ w with tobeHandle := ids } : World).onRequestTimeout value).tobeHandle = ids := by
  have hmem : value ∈ w.tobeHandle := hids ▸ mem_cons_self
  have hinHand : ({ w with tobeHandle := ids } : World).Core (some value.1) := by
    refine ⟨h.alive, h.ring, h.heard, h.counted, h.keys, ?_, h.waiting, ?_, ?_, h.gone, h.delivered⟩
    · intro req hreq
      obtain ⟨r, hr, hlive⟩ := h.live req hreq
      refine ⟨r, hr, hlive.id, hlive.cb, hlive.waits, hlive.outcomes, hlive.called, hlive.count,
        hlive.nodup, hlive.servers, ?_⟩
      rcases hlive.place with hplace | hplace | hplace | hplace
      · cases hplace
      · exact .inr (.inl hplace)
      · exact .inr (.inr (.inl hplace))
      rw [hids] at hplace
      rcases mem_cons.mp hplace with heq | hplace
      · exact .inl (congrArg (fun value => some value.1) heq.symm)
      · exact .inr (.inr (.inr hplace))
    · exact fun other hother => h.due other (hids ▸ mem_cons_of_mem value hother)
    · intro other hother
      refine h.sole other (hother.imp_left fun hin => ?_)
      exact hids ▸ mem_cons_of_mem value hin
  rw [World.onRequestTimeout]
  cases hfind : w.dns.findRequest value.1 with
  | none =>
    refine ⟨⟨h.alive, h.ring, h.heard, h.counted, h.keys, ?_, h.waiting, hinHand.due, hinHand.sole,
      h.gone, h.delivered⟩, rfl⟩
    intro req hreq
    obtain ⟨r, hr, hlive⟩ := hinHand.live req hreq
    refine ⟨r, hr, hlive.id, hlive.cb, hlive.waits, hlive.outcomes, hlive.called, hlive.count,
      hlive.nodup, hlive.servers, ?_⟩
    refine hlive.place.imp_left fun hhand => ?_
    exact absurd (some.inj hhand).symm (findRequest_none hfind req hreq)
  | some req =>
    obtain ⟨hreq, hid⟩ := findRequest_some hfind
    have hno : req.no = value.2 := h.sole value (.inl hmem) req hreq hid
    refine hinHand.deliver hcalling ⟨req, hreq, rfl, rfl, rfl⟩ ?_ ?_ nofun
    · intro other hother
      rw [← some.inj hother, hid]
    · intro m hm
      rw [← some.inj hm, hno]

theorem Core.handleTimeouts (h : w.Core none) (hcalling : w.calling = none)
    (hids : w.tobeHandle = ids) : (World.handleTimeouts ids w).Kept := by
  induction ids generalizing w with
  | nil => exact ⟨h, fun _ => hids⟩
  | cons value ids ih =>
    obtain ⟨hcore, htobe⟩ := h.onRequestTimeout hcalling hids
    rw [World.handleTimeouts]
    split_ifs with hcall
    · exact ih hcore hcall htobe
    · exact ⟨hcore, fun hnone => absurd hnone hcall⟩

theorem Kept.returned (h : w.Kept) (hstep : w.returned = some u) : u.Kept := by
  obtain ⟨reqId, hcalling, rfl⟩ := map_eq_some_iff.mp hstep
  refine (h.delete (.inr hcalling) nofun ?_).handleTimeouts rfl rfl
  exact fun _ _ _ _ => hcalling

theorem Kept.tick (h : w.Kept) (hcalling : w.calling = none) (hstep : w.tick = some u) : u.Kept := by
  obtain ⟨⟨handled, monitor⟩, hticked, rfl⟩ := map_eq_some_iff.mp hstep
  obtain ⟨-, hhandled, hlength, hheard, hslot, hcounted⟩ := Eventx.TimeoutMonitor.onTimerTick_spec hticked
  rw [if_pos h.heard] at hhandled
  have hempty := h.quiet hcalling
  refine Core.handleTimeouts ⟨h.alive, hlength.trans h.ring, hheard.trans h.heard,
    hcounted h.counted, h.keys, ?_, ?_, ?_, ?_, ?_, ?_⟩ hcalling rfl
  · intro req hreq
    obtain ⟨r, hr, hlive⟩ := h.live req hreq
    refine ⟨{ r with age := r.age + 1 }, ?_, hlive.id, hlive.cb, hlive.waits, hlive.outcomes,
      hlive.called, hlive.count, hlive.nodup, hlive.servers, ?_⟩
    · dsimp only
      rw [getElem?_map, hr]
      rfl
    rcases hlive.place with hplace | hplace | ⟨k, hplace⟩ | hplace
    · exact .inl hplace
    · exact .inr (.inl hplace)
    · cases k with
      | zero => exact .inr (.inr (.inr (hhandled ▸ hplace)))
      | succ k => exact .inr (.inr (.inl ⟨k, (hslot k).symm ▸ hplace⟩))
    · rw [hempty] at hplace
      exact absurd hplace not_mem_nil
  · intro k value hvalue
    rw [hslot] at hvalue
    obtain ⟨r, hr, hid, hage⟩ := h.waiting (k + 1) value hvalue
    refine ⟨{ r with age := r.age + 1 }, ?_, hid, ?_⟩
    · dsimp only
      rw [getElem?_map, hr]
      rfl
    · dsimp only
      omega
  · intro value hvalue
    rw [hhandled] at hvalue
    obtain ⟨r, hr, hid, hage⟩ := h.waiting 0 value hvalue
    refine ⟨{ r with age := r.age + 1 }, ?_, hid, ?_⟩
    · dsimp only
      rw [getElem?_map, hr]
      rfl
    · dsimp only
      omega
  · intro value hvalue
    refine h.sole value (.inr ?_)
    rcases hvalue with hvalue | ⟨k, hvalue⟩
    · exact ⟨0, hhandled ▸ hvalue⟩
    · exact ⟨k + 1, hslot k ▸ hvalue⟩
  · intro no r hr hno hcb hwaits
    rw [getElem?_map] at hr
    obtain ⟨r₀, hr₀, rfl⟩ := map_eq_some_iff.mp hr
    exact h.gone no r₀ hr₀ hno hcb hwaits
  · intro no r hr
    rw [getElem?_map] at hr
    obtain ⟨r₀, hr₀, rfl⟩ := map_eq_some_iff.mp hr
    have hdelivered := h.delivered no r₀ hr₀
    exact { hdelivered with }

theorem Core.countResponse (h : w.Core none) (hreq : req ∈ w.dns.requests) {sender : IPAddress}
    (hsender : sender ∈ w.dns.dnsIpVec) (hnew : ∀ r, w.records[req.no]? = some r → sender ∉ r.failedBy) :
    (w.countResponse req sender).Core none := by
  have hkeys : (w.countResponse req sender).dns.requests.map Request.id
      = w.dns.requests.map Request.id := by
    rw [World.countResponse]
    dsimp only [modifyRecord]
    rw [List.map_map]
    refine map_congr_left fun other _ => ?_
    dsimp only [Function.comp_apply]
    split_ifs <;> rfl
  have hmem : ∀ other' ∈ (w.countResponse req sender).dns.requests, ∃ other ∈ w.dns.requests,
      other'.id = other.id ∧ other'.no = other.no ∧ other'.cb = other.cb ∧
        other'.responseCount = other.responseCount + if other = req then 1 else 0 := by
    intro other' hother'
    obtain ⟨other, hother, rfl⟩ := List.mem_map.mp hother'
    refine ⟨other, hother, ?_⟩
    by_cases hid : other.id = req.id
    · rw [if_pos hid, if_pos (h.eq_of_id hother hreq hid)]
      exact ⟨rfl, rfl, rfl, rfl⟩
    · rw [if_neg hid, if_neg fun heq => hid (congrArg Request.id heq)]
      exact ⟨rfl, rfl, rfl, rfl⟩
  have hmem' : ∀ other ∈ w.dns.requests, ∃ other' ∈ (w.countResponse req sender).dns.requests,
      other'.no = other.no := by
    intro other hother
    refine ⟨_, List.mem_map_of_mem hother, ?_⟩
    split_ifs <;> rfl
  refine ⟨h.alive, h.ring, h.heard, h.counted, ?_, ?_, ?_, ?_, ?_, ?_, ?_⟩
  · rw [hkeys]
    exact h.keys
  · intro other' hother'
    obtain ⟨other, hother, hid, hno, hcb, hcount⟩ := hmem other' hother'
    obtain ⟨r, hr, hlive⟩ := h.live other hother
    rw [World.countResponse, getElem?_modifyRecord]
    rw [hno, hr, map_some]
    by_cases hsame : other = req
    · subst hsame
      rw [if_pos rfl]
      rw [if_pos rfl] at hcount
      refine ⟨_, rfl, ?_⟩
      refine ⟨hlive.id.trans hid.symm, hlive.cb.trans hcb.symm, hlive.waits, hid ▸ hlive.outcomes,
        hid ▸ hlive.called, ?_, ?_, ?_, ?_⟩
      · rw [hcount, hlive.count]
        rw [length_append, length_singleton]
      · exact concat_eq_append ▸ hlive.nodup.concat (hnew r hr)
      · intro ip hip
        rcases mem_append.mp hip with hip | hip
        · exact hlive.servers ip hip
        · rw [mem_singleton.mp hip]
          exact hsender
      · rw [hid, hno]
        exact hlive.place
    · have hne : req.no ≠ other.no := fun heq => hsame (h.eq_of_no hother hreq heq.symm)
      rw [if_neg hne]
      rw [if_neg hsame] at hcount
      refine ⟨r, rfl, hlive.id.trans hid.symm, hlive.cb.trans hcb.symm, hlive.waits,
        hid ▸ hlive.outcomes, hid ▸ hlive.called, hcount.trans hlive.count, hlive.nodup, hlive.servers, ?_⟩
      rw [hid, hno]
      exact hlive.place
  · intro k value hvalue
    obtain ⟨r, hr, hr'⟩ := h.waiting k value hvalue
    rw [World.countResponse, getElem?_modifyRecord]
    rw [hr, map_some]
    refine ⟨_, rfl, ?_⟩
    split_ifs <;> exact hr'
  · intro value hvalue
    obtain ⟨r, hr, hr'⟩ := h.due value hvalue
    rw [World.countResponse, getElem?_modifyRecord]
    rw [hr, map_some]
    refine ⟨_, rfl, ?_⟩
    split_ifs <;> exact hr'
  · intro value hvalue other' hother' hid'
    obtain ⟨other, hother, hid, hno, -⟩ := hmem other' hother'
    rw [hno]
    exact h.sole value hvalue other hother (hid.symm.trans hid')
  · intro no r hr hgone hcb hwaits
    obtain ⟨r₀, hr₀, rfl⟩ := modifyRecord_some hr
    have hgone' : ∀ other ∈ w.dns.requests, other.no ≠ no := by
      intro other hother
      obtain ⟨other', hother', hno⟩ := hmem' other hother
      exact hno ▸ hgone other' hother'
    rw [if_neg (hgone' req hreq)] at hcb hwaits ⊢
    exact h.gone no r₀ hr₀ hgone' hcb hwaits
  · intro no r hr
    obtain ⟨r₀, hr₀, rfl⟩ := modifyRecord_some hr
    have hdelivered := h.delivered no r₀ hr₀
    split_ifs
    · exact { hdelivered with }
    · exact hdelivered

theorem mem_of_length_le {servers failedBy : List IPAddress} (hnodup : failedBy.Nodup)
    (hsub : ∀ ip ∈ failedBy, ip ∈ servers) (hlength : servers.length ≤ failedBy.length) :
    ∀ ip ∈ servers, ip ∈ failedBy := by
  have hcard : servers.toFinset.card ≤ failedBy.toFinset.card := by
    rw [toFinset_card_of_nodup hnodup]
    exact (toFinset_card_le servers).trans hlength
  have heq : failedBy.toFinset = servers.toFinset :=
    Finset.eq_of_subset_of_card_le
      (fun ip hip => List.mem_toFinset.mpr (hsub ip (List.mem_toFinset.mp hip))) hcard
  intro ip hip
  rw [← List.mem_toFinset, heq, List.mem_toFinset]
  exact hip

theorem status_of_takeAnswers {memory : Memory} {count : Nat} {p : Deserializer}
    {result result' : Result} (h : takeAnswers memory count p result = some result') :
    result'.status = result.status := by
  induction count generalizing p result with
  | zero => rw [← some.inj h]
  | succ count ih =>
    rw [takeAnswers] at h
    obtain ⟨name, -, h⟩ := bind_eq_some_iff.mp h
    dsimp only at h
    split_ifs at h
    · have hstatus := ih h
      exact hstatus
    · obtain ⟨cname, -, h⟩ := bind_eq_some_iff.mp h
      have hstatus := ih h
      exact hstatus
    · exact ih h

theorem status_of_parseAnswer {memory : Memory} {p : Deserializer} {result : Result}
    (h : parseAnswer memory p = some result) : result.status = .kSuccess := by
  obtain ⟨p, -, h⟩ := bind_eq_some_iff.mp h
  exact status_of_takeAnswers h

theorem Kept.deliver (h : w.Kept) (hcalling : w.calling = none)
    (hreq : ∃ other ∈ w.dns.requests, other.id = req.id ∧ other.no = req.no ∧ other.cb = req.cb)
    {result : Result} {source : Option Nat} (hsource : ∀ m ∈ source, m = req.no)
    (hall : result.status = .kAllDnsFail → ∀ r, w.records[req.no]? = some r →
      ∀ ip ∈ w.dns.dnsIpVec, ip ∈ r.failedBy) : (w.deliver req result source).Kept := by
  obtain ⟨hcore, htobe⟩ := h.toCore.deliver hcalling hreq nofun hsource hall
  exact ⟨hcore, fun _ => htobe.trans (h.quiet hcalling)⟩

theorem Kept.onUdpRecv (h : w.Kept) (hcalling : w.calling = none) {packet : Packet}
    (hguard : OneByOne w (.udpRecv packet)) : (w.onUdpRecv packet).Kept := by
  rw [World.onUdpRecv]
  split_ifs with hempty
  · exact h
  dsimp only
  cases hfind : w.dns.findRequest (readHeader packet.memory packet.data).1.reqId with
  | none => exact h
  | some req =>
    obtain ⟨hreq, hid⟩ := findRequest_some hfind
    have hself : ∃ other ∈ w.dns.requests, other.id = req.id ∧ other.no = req.no ∧
        other.cb = req.cb := ⟨req, hreq, rfl, rfl, rfl⟩
    dsimp only
    split_ifs with hresponse hzero hname hformat hmore
    · have hproper := hguard hresponse req hreq hid
      obtain ⟨result, hparsed⟩ := isSome_iff_exists.mp (hproper.parsed hzero)
      rw [hparsed]
      refine h.deliver hcalling hself hproper.answers fun hstatus => ?_
      exact nomatch (status_of_parseAnswer hparsed).symm.trans hstatus
    · have hproper := hguard hresponse req hreq hid
      exact h.deliver hcalling hself hproper.answers nofun
    · have hproper := hguard hresponse req hreq hid
      exact h.deliver hcalling hself hproper.answers nofun
    · have hproper := hguard hresponse req hreq hid
      obtain ⟨hsender, hnew⟩ := hproper.counted ⟨hzero, hname, hformat⟩
      exact ⟨h.toCore.countResponse hreq hsender hnew, h.quiet⟩
    · have hproper := hguard hresponse req hreq hid
      obtain ⟨hsender, hnew⟩ := hproper.counted ⟨hzero, hname, hformat⟩
      have hcounted : (w.countResponse req packet.sender).Kept := ⟨h.toCore.countResponse hreq hsender hnew, h.quiet⟩
      refine hcounted.deliver hcalling ?_ hproper.answers fun _ r hr => ?_
      · refine ⟨_, List.mem_map_of_mem hreq, ?_⟩
        rw [if_pos rfl]
        exact ⟨rfl, rfl, rfl⟩
      obtain ⟨r₀, hr₀, rfl⟩ := modifyRecord_some hr
      obtain ⟨r₁, hr₁, hlive⟩ := h.live req hreq
      cases hr₀.symm.trans hr₁
      rw [if_pos rfl]
      refine mem_of_length_le ?_ ?_ ?_
      · exact concat_eq_append ▸ hlive.nodup.concat (hnew r₀ hr₀)
      · intro ip hip
        rcases mem_append.mp hip with hip | hip
        · exact hlive.servers ip hip
        · rw [mem_singleton.mp hip]
          exact hsender
      · rw [length_append, length_singleton, ← hlive.count]
        exact Nat.le_of_not_lt hmore
    · exact h

theorem mem_ring_of_mem_slot {k : Nat} (h : value ∈ w.dns.timeoutMonitor.slot k) :
    ∃ items ∈ w.dns.timeoutMonitor.ring, value ∈ items := by
  rw [Eventx.TimeoutMonitor.slot, getD_eq_getElem?_getD] at h
  cases hget : w.dns.timeoutMonitor.ring[k]? with
  | none =>
    rw [hget] at h
    exact absurd h not_mem_nil
  | some items =>
    rw [hget] at h
    exact ⟨items, mem_of_getElem? hget, h⟩

theorem Kept.request (h : w.Kept) {domain : Bytes} {cb : Bool}
    (hguard : OneByOne w (.request domain cb)) (hstep : w.request domain cb = some u) : u.Kept := by
  rw [World.request] at hstep
  split_ifs at hstep with hservers
  · exact some.inj hstep ▸ h
  obtain ⟨dns, hadd, rfl⟩ := map_eq_some_iff.mp hstep
  obtain ⟨monitor, hmonitor, rfl⟩ := map_eq_some_iff.mp hadd
  obtain ⟨hlength, hheard, -, hslot, hcounted⟩ := Eventx.TimeoutMonitor.add_spec hmonitor
  have hfree := hguard hservers
  have hstays : ∀ k, ∀ value ∈ w.dns.timeoutMonitor.slot k, value ∈ monitor.slot k := by
    intro k value hvalue
    rw [hslot]
    split_ifs
    · exact mem_append_left _ hvalue
    · exact hvalue
  have hfrom : ∀ k, ∀ value ∈ monitor.slot k, value ∈ w.dns.timeoutMonitor.slot k ∨
      k = 4 ∧ value = (w.dns.reqIdAlloc + 1, w.records.length) := by
    intro k value hvalue
    rw [hslot, h.ring] at hvalue
    split_ifs at hvalue with hk
    · rcases mem_append.mp hvalue with hvalue | hvalue
      · exact .inl hvalue
      · exact .inr ⟨by omega, mem_singleton.mp hvalue⟩
    · exact .inl hvalue
  have hother : ∀ req, req ∈ ({ w.dns with reqIdAlloc := w.dns.reqIdAlloc + 1 } : DnsRequest).others
      (w.dns.reqIdAlloc + 1) ↔ req ∈ w.dns.requests :=
    fun req => mem_others.trans ⟨And.left, fun hreq => ⟨hreq, hfree.requests req hreq⟩⟩
  have hold : ∀ {no : Nat} {r : Record} (new : Record), w.records[no]? = some r →
      (w.records ++ [new])[no]? = some r := by
    intro no r new hr
    rw [getElem?_append_left (List.getElem?_eq_some_iff.mp hr).1]
    exact hr
  have hlast : ∀ new : Record, (w.records ++ [new])[w.records.length]? = some new := fun new => getElem?_concat_length
  have hnew : ∀ {no : Nat} {r new : Record}, (w.records ++ [new])[no]? = some r →
      w.records[no]? = some r ∨ no = w.records.length ∧ r = new := by
    intro no r new hr
    rw [List.getElem?_append] at hr
    split_ifs at hr with hlt
    · exact .inl hr
    have hzero : no - w.records.length = 0 := by
      by_contra hne
      rw [getElem?_eq_none (by rw [length_singleton]; omega)] at hr
      cases hr
    rw [hzero] at hr
    exact .inr ⟨by omega, (some.inj hr).symm⟩
  refine ⟨⟨h.alive, hlength.trans h.ring, hheard.trans h.heard, hcounted h.counted, ?_, ?_, ?_, ?_,
    ?_, ?_, ?_⟩, h.quiet⟩
  · dsimp only
    rw [map_append, map_singleton, ← concat_eq_append]
    refine (keys_others h.keys _).concat fun hid => ?_
    obtain ⟨req, hreq, hsame⟩ := List.mem_map.mp hid
    exact (mem_others.mp hreq).2 hsame
  · intro req hreq
    rcases mem_append.mp hreq with hreq | hreq
    · obtain ⟨r, hr, hlive⟩ := h.live req ((hother req).mp hreq)
      refine ⟨r, hold _ hr, hlive.id, hlive.cb, hlive.waits, hlive.outcomes, hlive.called,
        hlive.count, hlive.nodup, hlive.servers, ?_⟩
      rcases hlive.place with hplace | hplace | ⟨k, hplace⟩ | hplace
      · exact .inl hplace
      · exact .inr (.inl hplace)
      · exact .inr (.inr (.inl ⟨k, hstays k _ hplace⟩))
      · exact .inr (.inr (.inr hplace))
    · rw [mem_singleton.mp hreq]
      refine ⟨_, hlast _, rfl, rfl, rfl, fun _ => rfl, fun hcall => absurd hcall hfree.calling, rfl,
        nodup_nil, fun ip hip => absurd hip not_mem_nil, ?_⟩
      refine .inr (.inr (.inl ⟨4, ?_⟩))
      rw [hslot, h.ring, if_pos rfl]
      exact mem_append_right _ (mem_singleton_self _)
  · intro k value hvalue
    rcases hfrom k value hvalue with hvalue | ⟨rfl, rfl⟩
    · obtain ⟨r, hr, hr'⟩ := h.waiting k value hvalue
      exact ⟨r, hold _ hr, hr'⟩
    · exact ⟨_, hlast _, rfl, rfl⟩
  · intro value hvalue
    obtain ⟨r, hr, hr'⟩ := h.due value hvalue
    exact ⟨r, hold _ hr, hr'⟩
  · intro value hvalue req hreq hid
    rcases mem_append.mp hreq with hreq | hreq
    · have hreq' := (hother req).mp hreq
      rcases hvalue with hvalue | ⟨k, hvalue⟩
      · exact h.sole value (.inl hvalue) req hreq' hid
      · rcases hfrom k value hvalue with hvalue | ⟨-, rfl⟩
        · exact h.sole value (.inr ⟨k, hvalue⟩) req hreq' hid
        · exact absurd hid (hfree.requests req hreq')
    · rw [mem_singleton.mp hreq] at hid ⊢
      rcases hvalue with hvalue | ⟨k, hvalue⟩
      · exact absurd hid.symm (hfree.tobeHandle value hvalue)
      rcases hfrom k value hvalue with hvalue | ⟨-, rfl⟩
      · obtain ⟨items, hitems, hvalue⟩ := mem_ring_of_mem_slot hvalue
        exact absurd hid.symm (hfree.monitor items hitems value hvalue)
      · rfl
  · intro no r hr hgone hcb hwaits
    rcases hnew hr with hr | ⟨rfl, rfl⟩
    · refine h.gone no r hr (fun req hreq => ?_) hcb hwaits
      exact hgone req (mem_append_left _ ((hother req).mpr hreq))
    · exact absurd rfl (hgone _ (mem_append_right _ (mem_singleton_self _)))
  · intro no r hr
    rcases hnew hr with hr | ⟨rfl, rfl⟩
    · exact h.delivered no r hr
    · exact ⟨Nat.zero_le _, fun o ho => absurd ho not_mem_nil,
        fun o ho => absurd ho not_mem_nil, fun o ho => absurd ho not_mem_nil⟩

theorem Kept.cancel (h : w.Kept) (hr : w.records[no]? = some r)
    (hguard : OneByOne w (.cancel no)) : (w.cancel no r).Kept := by
  obtain ⟨udpEnabled, heq⟩ := deleteRequest_eq w.dns r.id
  have hsole : ∀ req ∈ w.dns.requests, req.id = r.id → req.no = no := hguard r hr
  have hkeep : ∀ req ∈ w.dns.others r.id, req.no ≠ no := by
    intro req hreq hno
    obtain ⟨hmem, hne⟩ := mem_others.mp hreq
    obtain ⟨r', hr', hlive⟩ := h.live req hmem
    rw [hno, hr] at hr'
    exact hne (hlive.id ▸ congrArg Record.id (some.inj hr').symm)
  have hsuccess : (w.dns.deleteRequest r.id).1 = false → ∀ req ∈ w.dns.requests, req.id ≠ r.id := by
    intro hfalse
    rw [DnsRequest.deleteRequest] at hfalse
    cases hfind : w.dns.findRequest r.id with
    | none => exact findRequest_none hfind
    | some req =>
      rw [hfind] at hfalse
      cases hfalse
  rw [World.cancel]
  dsimp only
  rw [heq]
  refine ⟨⟨h.alive, h.ring, h.heard, h.counted, keys_others h.keys r.id, ?_, ?_, ?_, ?_, ?_, ?_⟩, h.quiet⟩
  · intro req hreq
    obtain ⟨r', hr', hlive⟩ := h.live req (mem_others.mp hreq).1
    rw [getElem?_modifyRecord]
    rw [hr', map_some, if_neg (hkeep req hreq).symm]
    exact ⟨r', rfl, hlive.id, hlive.cb, hlive.waits, hlive.outcomes, hlive.called, hlive.count,
      hlive.nodup, hlive.servers, hlive.place⟩
  · intro k value hvalue
    obtain ⟨r', hr', hr''⟩ := h.waiting k value hvalue
    rw [getElem?_modifyRecord]
    rw [hr', map_some]
    refine ⟨_, rfl, ?_⟩
    split_ifs <;> exact hr''
  · intro value hvalue
    obtain ⟨r', hr', hr''⟩ := h.due value hvalue
    rw [getElem?_modifyRecord]
    rw [hr', map_some]
    refine ⟨_, rfl, ?_⟩
    split_ifs <;> exact hr''
  · exact fun value hvalue req hreq => h.sole value hvalue req (mem_others.mp hreq).1
  · intro no' r' hr' hgone hcb hwaits
    obtain ⟨r₀, hr₀, rfl⟩ := modifyRecord_some hr'
    by_cases hno : no = no'
    · subst hno
      rw [if_pos rfl] at hcb hwaits ⊢
      obtain ⟨hwaits, hfalse⟩ := Bool.or_eq_false_iff.mp hwaits
      refine h.gone no r₀ hr₀ (fun req hreq hreqno => ?_) hcb hwaits
      exact hgone req (mem_others.mpr ⟨hreq, hsuccess hfalse req hreq⟩) hreqno
    · rw [if_neg hno] at hcb hwaits ⊢
      refine h.gone no' r₀ hr₀ (fun req hreq hreqno => ?_) hcb hwaits
      refine hgone req (mem_others.mpr ⟨hreq, fun hid => ?_⟩) hreqno
      exact hno ((hsole req hreq hid).symm.trans hreqno)
  · intro no' r' hr'
    obtain ⟨r₀, hr₀, rfl⟩ := modifyRecord_some hr'
    have hdelivered := h.delivered no' r₀ hr₀
    split_ifs
    · exact { hdelivered with }
    · exact hdelivered

/-- What is kept under the ids stays true of every request, one case for each action. -/
theorem Kept.step {a : Action} (h : w.Kept) (hguard : OneByOne w a) (hstep : w.step a = some u) :
    u.Kept := by
  rw [World.step.eq_def, ite_none_left_eq_some] at hstep
  replace hstep := hstep.2
  cases a with
  | setDnsIPAddresses dnsIpVec =>
    obtain rfl := some.inj hstep
    have hnone : ∀ req ∈ w.dns.requests, False := fun req hreq => not_mem_nil (Eq.mp (congrArg (req ∈ ·) hguard) hreq)
    exact { h with live := fun req hreq => (hnone req hreq).elim }
  | request domain cb => exact h.request hguard hstep
  | cancel no =>
    obtain ⟨record, hrecord, rfl⟩ := map_eq_some_iff.mp hstep
    exact h.cancel hrecord hguard
  | udpRecv packet =>
    obtain ⟨⟨hcalling, -⟩, rfl⟩ := ite_some_none_eq_some.mp hstep
    exact h.onUdpRecv hcalling hguard
  | tick =>
    obtain ⟨⟨hcalling, -⟩, hstep⟩ := ite_none_right_eq_some.mp hstep
    exact h.tick hcalling hstep
  | returned => exact h.returned hstep

/-- **Every request is answered once**, within five ticks and by its own outcome, while ids are not given again too
soon, no server's failure is counted twice, and successes can be taken apart. -/
theorem faithful_of_oneByOne {servers : List IPAddress} {as : List Action}
    (hguard : Along World.step OneByOne { dns := { dnsIpVec := servers } } as)
    (hrun : run World.step { dns := { dnsIpVec := servers } } as = some w) : w.Faithful := by
  obtain ⟨hlength, hslot, hcounted⟩ := Eventx.TimeoutMonitor.initializeMonitor_spec
    (m := (Eventx.TimeoutMonitor.setCallback {} : Eventx.TimeoutMonitor (ReqId × Nat)))
    (show (1 : Int) ≤ 5 by decide) rfl
  have hinit : ({ dns := { dnsIpVec := servers } } : World).Kept := by
    refine ⟨⟨rfl, hlength, rfl, hcounted, List.nodup_nil, List.forall_mem_nil _, ?_,
      List.forall_mem_nil _, ?_, ?_, ?_⟩, fun _ => rfl⟩
    · intro k value hvalue
      exact absurd (Eq.mp (congrArg (value ∈ ·) (hslot k)) hvalue) List.not_mem_nil
    · exact fun value _ req hreq => absurd hreq List.not_mem_nil
    · exact nofun
    · exact nofun
  exact (run_invariant (fun _ _ _ h hguard hstep => h.step hguard hstep) hinit hguard hrun).faithful

instance (w : World) (reqId : ReqId) : Decidable (IdFree w reqId) :=
  decidable_of_iff
    ((∀ req ∈ w.dns.requests, req.id ≠ reqId) ∧
      (∀ items ∈ w.dns.timeoutMonitor.ring, ∀ value ∈ items, value.1 ≠ reqId) ∧
      (∀ value ∈ w.tobeHandle, value.1 ≠ reqId) ∧ w.calling ≠ some reqId)
    ⟨fun ⟨h₁, h₂, h₃, h₄⟩ => ⟨h₁, h₂, h₃, h₄⟩, fun ⟨h₁, h₂, h₃, h₄⟩ => ⟨h₁, h₂, h₃, h₄⟩⟩

instance (w : World) (packet : Packet) (req : Request) : Decidable (Proper w packet req) :=
  decidable_of_iff
    ((∀ no ∈ packet.answers, no = req.no) ∧
      ((readHeader packet.memory packet.data).1.serverFails →
        packet.sender ∈ w.dns.dnsIpVec ∧ ∀ r ∈ w.records[req.no]?, packet.sender ∉ r.failedBy) ∧
      ((readHeader packet.memory packet.data).1.rcode = 0 →
        (parseAnswer packet.memory (readHeader packet.memory packet.data).2).isSome))
    ⟨fun ⟨h₁, h₂, h₃⟩ => ⟨h₁, h₂, h₃⟩, fun ⟨h₁, h₂, h₃⟩ => ⟨h₁, h₂, h₃⟩⟩

instance (w : World) (a : Action) : Decidable (OneByOne w a) :=
  match a with
  | .setDnsIPAddresses _ => inferInstanceAs (Decidable (w.dns.requests = []))
  | .request _ _ =>
    inferInstanceAs (Decidable (w.dns.dnsIpVec ≠ [] → IdFree w (w.dns.reqIdAlloc + 1)))
  | .cancel no =>
    inferInstanceAs (Decidable (∀ r ∈ w.records[no]?, ∀ req ∈ w.dns.requests,
      req.id = r.id → req.no = no))
  | .udpRecv packet =>
    inferInstanceAs (Decidable ((readHeader packet.memory packet.data).1.isResponse →
      ∀ req ∈ w.dns.requests, req.id = (readHeader packet.memory packet.data).1.reqId →
        Proper w packet req))
  | .tick | .returned => .isTrue trivial

def serverFailure (reqId : UInt8) (sender : IPAddress) (answers : Nat) : Packet where
  data := [0, reqId, 0x81, 0x82, 0, 1, 0, 0, 0, 0, 0, 0]
  sender := sender
  answers := some answers

def threeRequests : List Action :=
  [.request [97] true, .request [98] true, .udpRecv (serverFailure 1 1 0),
    .udpRecv (serverFailure 1 2 0), .cancel 1, .returned, .request [99] true,
    .tick, .tick, .tick, .tick, .tick, .returned]

theorem threeRequests_faithful : ∃ w, run World.step { dns := { dnsIpVec := [1, 2] } } threeRequests = some w ∧
    w.records.map (fun r => r.outcomes.map fun o => o.result.status) = [[.kAllDnsFail], [], [.kTimeout]] ∧
    w.Faithful := by
  obtain ⟨w, hrun, hw⟩ := (Option.any_eq_true _ _).mp (show Option.any
    (fun w : World => w.records.map (fun r => r.outcomes.map fun o => o.result.status)
      = [[.kAllDnsFail], [], [.kTimeout]])
    (run World.step { dns := { dnsIpVec := [1, 2] } } threeRequests) = true by decide +kernel)
  exact ⟨w, hrun, of_decide_eq_true hw, faithful_of_oneByOne (by decide +kernel) hrun⟩

/-- A failure that one of two servers sends twice is taken for the failure of both. -/
theorem twiceFailed_not_faithful : ¬∀ servers as w,
    run World.step { dns := { dnsIpVec := servers } } as = some w → w.Faithful := by
  intro h
  obtain ⟨w, hrun, hw⟩ := (Option.any_eq_true _ _).mp (show Option.any
    (fun w : World => w.records.any fun r => r.outcomes.any fun o =>
      o.result.status = .kAllDnsFail ∧ 2 ∈ o.servers ∧ 2 ∉ o.failedBy)
    (run World.step { dns := { dnsIpVec := [1, 2] } }
      [.request [97] true, .udpRecv (serverFailure 1 1 0), .udpRecv (serverFailure 1 1 0)]) = true by
    decide +kernel)
  obtain ⟨r, hr, hr'⟩ := List.any_eq_true.mp hw
  obtain ⟨o, ho, ho'⟩ := List.any_eq_true.mp hr'
  obtain ⟨hstatus, hserver, hnot⟩ := of_decide_eq_true ho'
  obtain ⟨no, hno⟩ := List.getElem?_of_mem hr
  exact hnot (((h _ _ w hrun).served no r hno).allFailed o ho hstatus 2 hserver)

end World

end Tbox.Network.Dns
