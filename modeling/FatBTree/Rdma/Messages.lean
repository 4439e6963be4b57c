import FatBTree.Ethernet.QueryHeader

/-!
# RoCE messages and the switch parsers

The three parsers of the RDMA program differ in their last state only.  The
deparsers emit the valid headers in one order.
-/

namespace FatBTree.Rdma

open FatBTree.P4 FatBTree.Sram FatBTree.Ethernet

/-! ## Headers -/

structure IbBthH where
  opcode : BitVec 8
  event : BitVec 1
  migReq : BitVec 1
  padCount : BitVec 2
  version : BitVec 4
  pkey : BitVec 16
  resv8a : BitVec 8
  dstQP : BitVec 24
  ackReq : BitVec 1
  resv7b : BitVec 7
  psn : BitVec 24
  deriving DecidableEq

structure IbRethH where
  va : BitVec 64
  rkey : BitVec 32
  length : BitVec 32
  deriving DecidableEq

structure IbIcrcH where
  crc : BitVec 32
  deriving DecidableEq

open Codec in
def ibBthH : Codec IbBthH :=
  ((field 8).pair <| (field 1).pair <| (field 1).pair <| (field 2).pair <| (field 4).pair <|
      (field 16).pair <| (field 8).pair <| (field 24).pair <| (field 1).pair <|
      (field 7).pair (field 24)).as
    { toFun := fun (opcode, event, migReq, padCount, version, pkey, resv8a, dstQP, ackReq, resv7b,
          psn) =>
        ⟨opcode, event, migReq, padCount, version, pkey, resv8a, dstQP, ackReq, resv7b, psn⟩
      invFun := fun h =>
        (h.opcode, h.event, h.migReq, h.padCount, h.version, h.pkey, h.resv8a, h.dstQP, h.ackReq,
          h.resv7b, h.psn)
      left_inv := fun _ => rfl
      right_inv := fun _ => rfl }

open Codec in
def ibRethH : Codec IbRethH :=
  ((field 64).pair ((field 32).pair (field 32))).as
    { toFun := fun (va, rkey, length) => ⟨va, rkey, length⟩
      invFun := fun h => (h.va, h.rkey, h.length)
      left_inv := fun _ => rfl
      right_inv := fun _ => rfl }

open Codec in
def ibIcrcH : Codec IbIcrcH :=
  (field 32).as
    { toFun := fun crc => ⟨crc⟩
      invFun := fun h => h.crc
      left_inv := fun _ => rfl
      right_inv := fun _ => rfl }

open Codec in
theorem takes_ibBthH : ibBthH.Takes 96 :=
  ((takes_field 8).pair <| (takes_field 1).pair <| (takes_field 1).pair <| (takes_field 2).pair <|
    (takes_field 4).pair <| (takes_field 16).pair <| (takes_field 8).pair <|
    (takes_field 24).pair <| (takes_field 1).pair <| (takes_field 7).pair (takes_field 24)).as _

open Codec in
theorem takes_ibRethH : ibRethH.Takes 128 :=
  ((takes_field 64).pair ((takes_field 32).pair (takes_field 32))).as _

open Codec in
theorem takes_ibIcrcH : ibIcrcH.Takes 32 :=
  (takes_field 32).as _

/-- The headers of a gress; a header that is not valid is `none`. -/
structure Headers where
  ethernet : EthernetH
  ipv4 : Option Ipv4H := none
  udp : Option UdpH := none
  ibBth : Option IbBthH := none
  ibReth : Option IbRethH := none
  ibIcrc : Option IbIcrcH := none
  fbt : Option FbtHeader := none

/-! ## Parsers and deparsers -/

/-! The states from `parse_ib_reth` back to `parse_ethernet`.  The state after them,
`parse_fbt_0`, `parse_fbt_1` or `parse_fbt_2`, is a parameter; a packet that ends too
early is `none`. -/

section States

variable (parseFbt : Bits → Option (FbtHeader × Bits))

def parseIbReth (hdr : Headers) (pkt : Bits) : Option (Headers × Bits) := do
  let (ibReth, pkt) ← ibRethH.extract pkt
  let (ibIcrc, pkt) ← ibIcrcH.extract pkt
  let hdr := { hdr with ibReth := some ibReth, ibIcrc := some ibIcrc }
  if ibReth.rkey = 0 then
    let (fbt, pkt) ← parseFbt pkt
    return ({ hdr with fbt := some fbt }, pkt)
  else
    return (hdr, pkt)

def parseIbBth (hdr : Headers) (pkt : Bits) : Option (Headers × Bits) := do
  let (ibBth, pkt) ← ibBthH.extract pkt
  let hdr := { hdr with ibBth := some ibBth }
  if ibBth.opcode = 12 then parseIbReth parseFbt hdr pkt else return (hdr, pkt)

def parseUdp (hdr : Headers) (pkt : Bits) : Option (Headers × Bits) := do
  let (udp, pkt) ← udpH.extract pkt
  let hdr := { hdr with udp := some udp }
  if udp.dstPort = 4791 then parseIbBth parseFbt hdr pkt else return (hdr, pkt)

def parseIpv4 (hdr : Headers) (pkt : Bits) : Option (Headers × Bits) := do
  let (ipv4, pkt) ← ipv4H.extract pkt
  let hdr := { hdr with ipv4 := some ipv4 }
  if ipv4.protocol = 17 then parseUdp parseFbt hdr pkt else return (hdr, pkt)

/-- A parser, from its state `parse_ethernet`. -/
def parser (pkt : Bits) : Option (Headers × Bits) := do
  let (ethernet, pkt) ← ethernetH.extract pkt
  let hdr : Headers := { ethernet := ethernet }
  if ethernet.etherType = etherTypeIpv4 then parseIpv4 parseFbt hdr pkt else return (hdr, pkt)

end States

/-- `parse_fbt_0` makes the header valid and reads nothing. -/
def parseFbt0 (unset : FbtHeader) (pkt : Bits) : Option (FbtHeader × Bits) :=
  some (unset, pkt)

/-- `parse_fbt_1`. -/
def parseFbt1 : Bits → Option (FbtHeader × Bits) := halvesH.extract

/-- `parse_fbt_2`. -/
def parseFbt2 : Bits → Option (FbtHeader × Bits) := halvesH.extract

/-- The parser of `Ingress0` accepts every packet with room for all the headers. -/
theorem parser_isSome (unset : FbtHeader) {pkt : Bits} (hlen : 592 ≤ pkt.length) :
    (parser (parseFbt0 unset) pkt).isSome = true := by
  obtain ⟨ethernet, pkt1, hethernet, hpkt1⟩ := takes_ethernetH pkt (by omega)
  obtain ⟨ipv4, pkt2, hipv4, hpkt2⟩ := takes_ipv4H pkt1 (by omega)
  obtain ⟨udp, pkt3, hudp, hpkt3⟩ := takes_udpH pkt2 (by omega)
  obtain ⟨ibBth, pkt4, hibBth, hpkt4⟩ := takes_ibBthH pkt3 (by omega)
  obtain ⟨ibReth, pkt5, hibReth, hpkt5⟩ := takes_ibRethH pkt4 (by omega)
  obtain ⟨ibIcrc, pkt6, hibIcrc, -⟩ := takes_ibIcrcH pkt5 (by omega)
  simp only [parser, parseIpv4, parseUdp, parseIbBth, parseIbReth, parseFbt0, hethernet, hipv4,
    hudp, hibBth, hibReth, hibIcrc, Option.bind_eq_bind, Option.bind_some, Option.pure_def]
  split_ifs <;> rfl

/-- `pkt.emit(hdr)`, followed by what the parser left. -/
def deparser (hdr : Headers) (payload : Bits) : Bits :=
  ethernetH.emit hdr.ethernet ++ (emitValid ipv4H hdr.ipv4 ++ (emitValid udpH hdr.udp ++
    (emitValid ibBthH hdr.ibBth ++ (emitValid ibRethH hdr.ibReth ++
      (emitValid ibIcrcH hdr.ibIcrc ++ (emitValid halvesH hdr.fbt ++ payload))))))

/-- A parser, a control and a deparser. -/
def pass (parseFbt : Bits → Option (FbtHeader × Bits)) (control : Headers → Headers)
    (pkt : Bits) : Option Bits := do
  let (hdr, payload) ← parser parseFbt pkt
  return deparser (control hdr) payload

/-! ## Messages -/

/-- A message with all the RoCE headers of a read or write. -/
structure Message where
  ethernet : EthernetH
  ipv4 : Ipv4H
  udp : UdpH
  ibBth : IbBthH
  ibReth : IbRethH
  ibIcrc : IbIcrcH
  payload : Bits

namespace Message

/-- The message on the wire, with something between its headers and its payload. -/
def withHeader (msg : Message) (between : Bits) : Bits :=
  ethernetH.emit msg.ethernet ++ (ipv4H.emit msg.ipv4 ++ (udpH.emit msg.udp ++
    (ibBthH.emit msg.ibBth ++ (ibRethH.emit msg.ibReth ++ (ibIcrcH.emit msg.ibIcrc ++
      (between ++ msg.payload))))))

def bits (msg : Message) : Bits :=
  msg.withHeader []

/-- A request for the switch: IPv4/UDP to port 4791, a READ, and no key yet. -/
structure IsLookup (msg : Message) : Prop where
  etherType : msg.ethernet.etherType = etherTypeIpv4
  protocol : msg.ipv4.protocol = ipProtoUdp
  dstPort : msg.udp.dstPort = 4791
  opcode : msg.ibBth.opcode = 12
  rkey : msg.ibReth.rkey = 0

def headers (msg : Message) (fbt : Option FbtHeader) : Headers where
  ethernet := msg.ethernet
  ipv4 := msg.ipv4
  udp := msg.udp
  ibBth := msg.ibBth
  ibReth := msg.ibReth
  ibIcrc := msg.ibIcrc
  fbt := fbt

/-- A lookup reaches the last state with what follows its headers. -/
theorem IsLookup.parser_eq {msg : Message} (lookup : msg.IsLookup)
    {parseFbt : Bits → Option (FbtHeader × Bits)} {between : Bits} {fbt : FbtHeader}
    (found : parseFbt (between ++ msg.payload) = some (fbt, msg.payload)) :
    parser parseFbt (msg.withHeader between) = some (msg.headers fbt, msg.payload) := by
  have hprotocol : msg.ipv4.protocol = 17 := lookup.protocol
  simp [parser, parseIpv4, parseUdp, parseIbBth, parseIbReth, withHeader, Codec.extract_emit,
    lookup.etherType, hprotocol, lookup.dstPort, lookup.opcode, lookup.rkey, found, headers]

theorem IsLookup.pass_eq {msg : Message} (lookup : msg.IsLookup)
    {parseFbt : Bits → Option (FbtHeader × Bits)} {between : Bits} {fbt : FbtHeader}
    (found : parseFbt (between ++ msg.payload) = some (fbt, msg.payload))
    (control : Headers → Headers) :
    pass parseFbt control (msg.withHeader between) =
      some (deparser (control (msg.headers fbt)) msg.payload) := by
  simp [pass, lookup.parser_eq found]

end Message

/-! ## Other packets -/

/-- A packet that is no lookup has no `fbt` header, is put together as it came, and reaches
no state in which the parsers differ. -/
theorem parser_of_not_lookup {parseFbt : Bits → Option (FbtHeader × Bits)} {pkt payload : Bits}
    {hdr : Headers} (other : ∀ msg : Message, msg.IsLookup → pkt ≠ msg.bits)
    (parsed : parser parseFbt pkt = some (hdr, payload)) :
    hdr.fbt = none ∧ deparser hdr payload = pkt ∧
      ∀ parseOther, parser parseOther pkt = some (hdr, payload) := by
  obtain ⟨⟨ethernet, pkt1⟩, hethernet, parsed⟩ := Option.bind_eq_some_iff.mp parsed
  have hpkt1 := ethernetH.emit_extract _ _ _ hethernet
  dsimp only at parsed
  split at parsed
  next hetherType =>
    obtain ⟨⟨ipv4, pkt2⟩, hipv4, parsed⟩ := Option.bind_eq_some_iff.mp parsed
    have hpkt2 := ipv4H.emit_extract _ _ _ hipv4
    dsimp only at parsed
    split at parsed
    next hprotocol =>
      obtain ⟨⟨udp, pkt3⟩, hudp, parsed⟩ := Option.bind_eq_some_iff.mp parsed
      have hpkt3 := udpH.emit_extract _ _ _ hudp
      dsimp only at parsed
      split at parsed
      next hdstPort =>
        obtain ⟨⟨ibBth, pkt4⟩, hibBth, parsed⟩ := Option.bind_eq_some_iff.mp parsed
        have hpkt4 := ibBthH.emit_extract _ _ _ hibBth
        dsimp only at parsed
        split at parsed
        next hopcode =>
          obtain ⟨⟨ibReth, pkt5⟩, hibReth, parsed⟩ := Option.bind_eq_some_iff.mp parsed
          obtain ⟨⟨ibIcrc, pkt6⟩, hibIcrc, parsed⟩ := Option.bind_eq_some_iff.mp parsed
          have hpkt5 := ibRethH.emit_extract _ _ _ hibReth
          have hpkt6 := ibIcrcH.emit_extract _ _ _ hibIcrc
          dsimp only at parsed
          split at parsed
          next hrkey =>
            -- all five conditions hold, so the packet is a lookup after all
            refine absurd ?_ (other ⟨ethernet, ipv4, udp, ibBth, ibReth, ibIcrc, pkt6⟩
              ⟨hetherType, hprotocol, hdstPort, hopcode, hrkey⟩)
            rw [hpkt1, hpkt2, hpkt3, hpkt4, hpkt5, hpkt6]
            rfl
          next hrkey =>
            cases parsed
            refine ⟨rfl, by rw [hpkt1, hpkt2, hpkt3, hpkt4, hpkt5, hpkt6]; rfl, fun _ => ?_⟩
            simp [parser, parseIpv4, parseUdp, parseIbBth, parseIbReth, hethernet, hetherType,
              hipv4, hprotocol, hudp, hdstPort, hibBth, hopcode, hibReth, hibIcrc]
            exact fun heq => absurd heq hrkey
        next hopcode =>
          cases parsed
          refine ⟨rfl, by rw [hpkt1, hpkt2, hpkt3, hpkt4]; rfl, fun _ => ?_⟩
          simp [parser, parseIpv4, parseUdp, parseIbBth, hethernet, hetherType, hipv4, hprotocol,
            hudp, hdstPort, hibBth]
          exact fun heq => absurd heq hopcode
      next hdstPort =>
        cases parsed
        refine ⟨rfl, by rw [hpkt1, hpkt2, hpkt3]; rfl, fun _ => ?_⟩
        simp [parser, parseIpv4, parseUdp, hethernet, hetherType, hipv4, hprotocol, hudp]
        exact fun heq => absurd heq hdstPort
    next hprotocol =>
      cases parsed
      refine ⟨rfl, by rw [hpkt1, hpkt2]; rfl, fun _ => ?_⟩
      simp [parser, parseIpv4, hethernet, hetherType, hipv4]
      exact fun heq => absurd heq hprotocol
  next hetherType =>
    cases parsed
    refine ⟨rfl, by rw [hpkt1]; rfl, fun _ => ?_⟩
    simp [parser, hethernet, hetherType]

/-- A control that only acts on the `fbt` header lets such a packet through, if a parser
accepts it. -/
theorem pass_of_not_lookup {parseFbt : Bits → Option (FbtHeader × Bits)}
    {control : Headers → Headers} (idle : ∀ hdr : Headers, hdr.fbt = none → control hdr = hdr)
    {pkt payload : Bits} {hdr : Headers} (other : ∀ msg : Message, msg.IsLookup → pkt ≠ msg.bits)
    (parsed : parser parseFbt pkt = some (hdr, payload))
    (parseOther : Bits → Option (FbtHeader × Bits)) : pass parseOther control pkt = some pkt := by
  obtain ⟨hfbt, hsame, hother⟩ := parser_of_not_lookup other parsed
  simp only [pass, hother parseOther, Option.bind_eq_bind, Option.bind_some, Option.pure_def,
    idle hdr hfbt, hsame]

end FatBTree.Rdma
