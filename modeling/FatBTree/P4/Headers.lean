import FatBTree.P4.Bits

/-!
# Ethernet, IPv4 and UDP headers

All the switch programs declare these three headers alike.
-/

namespace FatBTree.P4

structure EthernetH where
  dstAddr : BitVec 48
  srcAddr : BitVec 48
  etherType : BitVec 16
  deriving DecidableEq

structure Ipv4H where
  version : BitVec 4
  ihl : BitVec 4
  diffserv : BitVec 7
  res : BitVec 1
  totalLen : BitVec 16
  identification : BitVec 16
  flags : BitVec 3
  fragOffset : BitVec 13
  ttl : BitVec 8
  protocol : BitVec 8
  hdrChecksum : BitVec 16
  srcAddr : BitVec 32
  dstAddr : BitVec 32
  deriving DecidableEq

structure UdpH where
  srcPort : BitVec 16
  dstPort : BitVec 16
  len : BitVec 16
  checksum : BitVec 16
  deriving DecidableEq

/-- `ether_type_t.IPV4`. -/
def etherTypeIpv4 : BitVec 16 := 0x0800

/-- `ip_proto_t.UDP`. -/
def ipProtoUdp : BitVec 8 := 17

open Codec in
def ethernetH : Codec EthernetH :=
  ((field 48).pair ((field 48).pair (field 16))).as
    { toFun := fun (dstAddr, srcAddr, etherType) => ⟨dstAddr, srcAddr, etherType⟩
      invFun := fun h => (h.dstAddr, h.srcAddr, h.etherType)
      left_inv := fun _ => rfl
      right_inv := fun _ => rfl }

open Codec in
def ipv4H : Codec Ipv4H :=
  ((field 4).pair <| (field 4).pair <| (field 7).pair <| (field 1).pair <| (field 16).pair <|
      (field 16).pair <| (field 3).pair <| (field 13).pair <| (field 8).pair <| (field 8).pair <|
      (field 16).pair <| (field 32).pair (field 32)).as
    { toFun := fun (version, ihl, diffserv, res, totalLen, identification, flags, fragOffset, ttl,
          protocol, hdrChecksum, srcAddr, dstAddr) =>
        ⟨version, ihl, diffserv, res, totalLen, identification, flags, fragOffset, ttl, protocol,
          hdrChecksum, srcAddr, dstAddr⟩
      invFun := fun h =>
        (h.version, h.ihl, h.diffserv, h.res, h.totalLen, h.identification, h.flags, h.fragOffset,
          h.ttl, h.protocol, h.hdrChecksum, h.srcAddr, h.dstAddr)
      left_inv := fun _ => rfl
      right_inv := fun _ => rfl }

open Codec in
def udpH : Codec UdpH :=
  ((field 16).pair <| (field 16).pair <| (field 16).pair (field 16)).as
    { toFun := fun (srcPort, dstPort, len, checksum) => ⟨srcPort, dstPort, len, checksum⟩
      invFun := fun h => (h.srcPort, h.dstPort, h.len, h.checksum)
      left_inv := fun _ => rfl
      right_inv := fun _ => rfl }

open Codec in
theorem takes_ethernetH : ethernetH.Takes 112 :=
  ((takes_field 48).pair ((takes_field 48).pair (takes_field 16))).as _

open Codec in
theorem takes_ipv4H : ipv4H.Takes 160 :=
  ((takes_field 4).pair <| (takes_field 4).pair <| (takes_field 7).pair <| (takes_field 1).pair <|
    (takes_field 16).pair <| (takes_field 16).pair <| (takes_field 3).pair <|
    (takes_field 13).pair <| (takes_field 8).pair <| (takes_field 8).pair <|
    (takes_field 16).pair <| (takes_field 32).pair (takes_field 32)).as _

open Codec in
theorem takes_udpH : udpH.Takes 64 :=
  ((takes_field 16).pair <| (takes_field 16).pair <| (takes_field 16).pair (takes_field 16)).as _

end FatBTree.P4
