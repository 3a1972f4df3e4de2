import Tbox.Util.StringOps

/-!
# What a DNS packet says

`util/serializer.cpp`, as far as `network/dns_request.cpp` takes packets apart with it. A read that comes to the end
of the packet leaves its variable as it is; what one that is not initialised holds is given with the packet.
-/

namespace Tbox.Network.Dns

open Tbox.Lib (Bytes)

abbrev ReqId := UInt16

abbrev IPAddress := UInt32

structure Memory where
  number : Nat → Nat := fun _ => 0
  text : Nat → Bytes := fun _ => []

structure Deserializer where
  data : Bytes
  pos : Nat := 0
  /-- how many reads there have been -/
  reads : Nat := 0
  deriving DecidableEq, Repr

namespace Deserializer

def checkSize (p : Deserializer) (needSize : Nat) : Bool := p.pos + needSize ≤ p.data.length

def setPos (p : Deserializer) (pos : Nat) : Deserializer :=
  if pos < p.data.length then { p with pos := pos } else p

def skip (p : Deserializer) (size : Nat) : Deserializer :=
  if p.checkSize size then { p with pos := p.pos + size } else p

def fetch (p : Deserializer) (size : Nat) : Option Bytes × Deserializer :=
  if p.checkSize size then
    (some ((p.data.drop p.pos).take size), { p with pos := p.pos + size, reads := p.reads + 1 })
  else (none, { p with reads := p.reads + 1 })

/-- A `uint8_t` that has been set to 0. -/
def fetchByte (p : Deserializer) : Nat × Deserializer :=
  ((((p.fetch 1).1.getD []).headD 0).toNat, (p.fetch 1).2)

def fetchNumber (memory : Memory) (p : Deserializer) (size : Nat) : Nat × Deserializer :=
  let (bytes, next) := p.fetch size
  (match bytes with
    | some bytes => bytes.foldl (fun number byte => number * 256 + byte.toNat) 0
    | none => memory.number p.reads % 256 ^ size, next)

def fetchLittle (memory : Memory) (p : Deserializer) (size : Nat) : Nat × Deserializer :=
  let (bytes, next) := p.fetch size
  (match bytes with
    | some bytes => bytes.foldr (fun byte number => number * 256 + byte.toNat) 0
    | none => memory.number p.reads % 256 ^ size, next)

def fetchText (memory : Memory) (p : Deserializer) (size : Nat) : Bytes × Deserializer :=
  let (bytes, next) := p.fetch size
  ((bytes.getD ((memory.text p.reads).take size)).takeWhile fun byte => byte ≠ 0, next)

end Deserializer

/-- `FetchDomain`, for ever where it comes to more places than the packet has. -/
def fetchDomain (memory : Memory) : Nat → Bool → Deserializer → Option (Bytes × Deserializer)
  | 0, _, _ => none
  | fuel + 1, first, p =>
    let (len, p) := p.fetchByte
    if len = 0 then some ([], p)
    else
      let dot : Bytes := if first then [] else [46]
      if len &&& 0xc0 = 0xc0 then
        let (offsetLow, p) := p.fetchByte
        let offset := (len &&& 0x3f) * 256 + offsetLow
        (fetchDomain memory fuel true (p.setPos offset)).map fun sub => (dot ++ sub.1, p)
      else
        let (str, p) := p.fetchText memory len
        (fetchDomain memory fuel false p).map fun rest => (dot ++ str ++ rest.1, rest.2)

def Deserializer.fetchDomain (memory : Memory) (p : Deserializer) : Option (Bytes × Deserializer) :=
  Dns.fetchDomain memory (p.data.length + 2) true p

def typeA : Nat := 1
def typeCNAME : Nat := 5

/-- `DNS_RC` -/
def rcFormatError : UInt16 := 1
def rcNameError : UInt16 := 3

inductive Status where
  | kSuccess
  | kDomainError
  | kAllDnsFail
  | kTimeout
  | kFail
  deriving DecidableEq, Repr

structure A where
  ttl : Nat
  ip : Nat
  deriving DecidableEq, Repr

structure CNAME where
  ttl : Nat
  cname : Bytes
  deriving DecidableEq, Repr

structure Result where
  status : Status := .kSuccess
  aVec : List A := []
  cnameVec : List CNAME := []
  deriving DecidableEq, Repr

def skipQuestions (memory : Memory) : Nat → Deserializer → Option Deserializer
  | 0, p => some p
  | count + 1, p => do
      let (_, p) ← p.fetchDomain memory
      let (_, p) := p.fetchNumber memory 2
      let (_, p) := p.fetchNumber memory 2
      skipQuestions memory count p

def takeAnswers (memory : Memory) : Nat → Deserializer → Result → Option Result
  | 0, _, result => some result
  | count + 1, p, result => do
      let (_, p) ← p.fetchDomain memory
      let (anType, p) := p.fetchNumber memory 2
      let (_, p) := p.fetchNumber memory 2
      let (anTtl, p) := p.fetchNumber memory 4
      let (anLen, p) := p.fetchNumber memory 2
      if anType = typeA then
        let (ipValue, p) := p.fetchLittle memory 4
        takeAnswers memory count p { result with aVec := result.aVec ++ [⟨anTtl, ipValue⟩] }
      else if anType = typeCNAME then
        let (cname, p) ← p.fetchDomain memory
        takeAnswers memory count p { result with cnameVec := result.cnameVec ++ [⟨anTtl, cname⟩] }
      else takeAnswers memory count (p.skip anLen) result

def parseAnswer (memory : Memory) (p : Deserializer) : Option Result := do
  let (qdCount, p) := p.fetchNumber memory 2
  let (anCount, p) := p.fetchNumber memory 2
  let (_, p) := p.fetchNumber memory 2
  let (_, p) := p.fetchNumber memory 2
  let p ← skipQuestions memory qdCount p
  takeAnswers memory anCount p {}

structure Header where
  reqId : ReqId
  flags : UInt16
  deriving DecidableEq, Repr

namespace Header

def isResponse (h : Header) : Prop := h.flags &&& 0x8000 ≠ 0

instance (h : Header) : Decidable h.isResponse := inferInstanceAs (Decidable (_ ≠ _))

def rcode (h : Header) : UInt16 := h.flags &&& 0x000f

def serverFails (h : Header) : Prop :=
  h.rcode ≠ 0 ∧ h.rcode ≠ rcNameError ∧ h.rcode ≠ rcFormatError

instance (h : Header) : Decidable h.serverFails := inferInstanceAs (Decidable (_ ∧ _))

end Header

def readHeader (memory : Memory) (data : Bytes) : Header × Deserializer :=
  let (reqId, p) := ({ data := data } : Deserializer).fetchNumber memory 2
  let (flags, p) := p.fetchNumber memory 2
  (⟨.ofNat reqId, .ofNat flags⟩, p)

/-- `AppendDomain`: every part behind its length, and a 0. -/
def appendDomain (domain : Bytes) : Bytes :=
  ((Util.split domain [46]).toOption.getD []).flatMap (fun seg => UInt8.ofNat seg.length :: seg) ++ [0]

def putNumber (number : UInt16) : Bytes := [(number >>> 8).toUInt8, number.toUInt8]

def query (reqId : ReqId) (domain : Bytes) : Bytes :=
  [reqId, 0x0100, 1, 0, 0, 0].flatMap putNumber ++ appendDomain domain ++ [1, 1].flatMap putNumber

end Tbox.Network.Dns
