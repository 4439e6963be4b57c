import FatBTree.Ethernet.Body
import FatBTree.P4.Headers
import FatBTree.Sram.Pipeline

/-!
# The query header

The frontend writes the header byte by byte, the two switch programs split the
key into halves or quarters, and the backend reads the index back.
-/

namespace FatBTree.Ethernet

open FatBTree.P4 FatBTree.Wire FatBTree.Sram

/-! ## Bytes and bits -/

/-- `htonl` on a little-endian host. -/
def htonl (x : BitVec 32) : BitVec 32 :=
  BitVec.ofNat 32 (ofLittleEndian (unsignedBytes x).reverse)

/-- Bytes on the wire. -/
def bytesBits (bytes : List Byte) : Bits :=
  bytes.flatMap wordBits

/-- The first bytes of some bits. -/
def packBytes : Nat → Bits → List Byte
  | 0, _ => []
  | count + 1, bits => BitVec.ofNat 8 (bitsValue (bits.take 8)) :: packBytes count (bits.drop 8)

theorem littleEndian_ofLittleEndian (bytes : List Byte) :
    littleEndian bytes.length (ofLittleEndian bytes) = bytes := by
  induction bytes with
  | nil => rfl
  | cons byte rest ih =>
      have hbyte := byte.isLt
      have hlow : BitVec.ofNat 8 (byte.toNat + 256 * ofLittleEndian rest) = byte := by
        apply BitVec.eq_of_toNat_eq
        rw [BitVec.toNat_ofNat]
        omega
      have hhigh : (byte.toNat + 256 * ofLittleEndian rest) / 256 = ofLittleEndian rest := by
        omega
      rw [List.length_cons, littleEndian, ofLittleEndian, hlow, hhigh, ih]

theorem unsignedBytes_htonl (x : BitVec 32) :
    unsignedBytes (htonl x) = (unsignedBytes x).reverse := by
  have hlen : (unsignedBytes x).reverse.length = 4 := by simp
  have hback := littleEndian_ofLittleEndian (unsignedBytes x).reverse
  have hlow : ∀ n, littleEndian 4 (n % 2 ^ 32) = littleEndian 4 n := by
    intro n
    have hfour := littleEndian_ofLittleEndian (littleEndian 4 n)
    rwa [length_littleEndian, ofLittleEndian_littleEndian] at hfour
  rw [hlen] at hback
  rw [unsignedBytes, htonl, BitVec.toNat_ofNat, hlow, hback]

theorem htonl_htonl (x : BitVec 32) : htonl (htonl x) = x := by
  have hlt : x.toNat < 256 ^ 4 := x.isLt
  rw [htonl, unsignedBytes_htonl, List.reverse_reverse, unsignedBytes,
    ofLittleEndian_littleEndian, Nat.mod_eq_of_lt hlt, BitVec.ofNat_toNat, BitVec.setWidth_eq]

theorem bytesBits_append (first second : List Byte) :
    bytesBits (first ++ second) = bytesBits first ++ bytesBits second :=
  List.flatMap_append

theorem bytesBits_cons (byte : Byte) (rest : List Byte) :
    bytesBits (byte :: rest) = wordBits byte ++ bytesBits rest :=
  List.flatMap_cons

@[simp]
theorem length_bytesBits (bytes : List Byte) : (bytesBits bytes).length = 8 * bytes.length := by
  induction bytes with
  | nil => rfl
  | cons byte rest ih =>
      rw [bytesBits_cons, List.length_append, ih, length_wordBits, List.length_cons]
      omega

/-- A number in network order has its bits in order. -/
theorem bytesBits_bigEndian (count n : Nat) :
    bytesBits (littleEndian count n).reverse = natBits (8 * count) n := by
  induction count generalizing n with
  | zero => rfl
  | succ count ih =>
      have hlow : bytesBits [BitVec.ofNat 8 n] = natBits 8 n := by
        have hbyte : bytesBits [BitVec.ofNat 8 n] = wordBits (BitVec.ofNat 8 n) := by
          simp [bytesBits]
        rw [hbyte, wordBits, BitVec.toNat_ofNat, natBits_mod]
      have hhigh : n / 256 = n / 2 ^ 8 := rfl
      rw [littleEndian, List.reverse_cons, bytesBits_append, ih, hlow, Nat.mul_succ, natBits_add,
        hhigh]

theorem bytesBits_htonl (x : BitVec 32) : bytesBits (unsignedBytes (htonl x)) = wordBits x := by
  rw [unsignedBytes_htonl, unsignedBytes, bytesBits_bigEndian, wordBits]

@[simp]
theorem length_packBytes (count : Nat) (bits : Bits) : (packBytes count bits).length = count := by
  induction count generalizing bits with
  | zero => rfl
  | succ count ih => rw [packBytes, List.length_cons, ih]

theorem bytesBits_emitFbt (keyHi keyLo : BitVec 32) (fbtIdx : BitVec 48) :
    bytesBits (emitFbt keyHi keyLo fbtIdx) = wordBits (keyHi ++ keyLo) ++ wordBits fbtIdx := by
  rw [emitFbt, bytesBits_append, bytesBits_append, bytesBits_bigEndian, bytesBits_bigEndian,
    bytesBits_bigEndian, wordBits_append]
  rfl

theorem packBytes_append {first second : Bits} {count : Nat} (hlen : first.length = 8 * count)
    (more : Nat) :
    packBytes (count + more) (first ++ second) = packBytes count first ++ packBytes more second := by
  induction count generalizing first with
  | zero =>
      obtain rfl := List.eq_nil_of_length_eq_zero hlen
      rw [Nat.zero_add]
      rfl
  | succ count ih =>
      have htake : (first ++ second).take 8 = first.take 8 :=
        List.take_append_of_le_length (by omega)
      have hdrop : (first ++ second).drop 8 = first.drop 8 ++ second :=
        List.drop_append_of_le_length (by omega)
      have hrest : (first.drop 8).length = 8 * count := by
        rw [List.length_drop]
        omega
      rw [Nat.succ_add, packBytes, packBytes, htake, hdrop, ih hrest, List.cons_append]

theorem packBytes_bytesBits (bytes : List Byte) :
    packBytes bytes.length (bytesBits bytes) = bytes := by
  induction bytes with
  | nil => rfl
  | cons byte rest ih =>
      have htake : (wordBits byte ++ bytesBits rest).take 8 = wordBits byte := by
        rw [List.take_append_of_le_length (by simp), List.take_of_length_le (by simp)]
      have hdrop : (wordBits byte ++ bytesBits rest).drop 8 = bytesBits rest := by
        rw [List.drop_append_of_le_length (by simp), List.drop_of_length_le (by simp),
          List.nil_append]
      rw [bytesBits_cons, List.length_cons, packBytes, htake, hdrop, ih, wordBits, bitsValue_natBits,
        Nat.mod_eq_of_lt byte.isLt, BitVec.ofNat_toNat, BitVec.setWidth_eq]

/-! ## The frontend -/

namespace Frontend

/-- `inject_msg_type`. -/
def injectMsgType (buf : Nat → Byte) (msg : Nat) (msgType : BitVec 32) (pid : BitVec 8) : Writer :=
  let ubuf := htonl msgType
  (Writer.put ⟨buf, 0⟩ msg (unsignedBytes ubuf)).put msg [pid]

/-- `inject_fbt_hdr`. -/
def injectFbtHdr (buf : Nat → Byte) (msg : Nat) (fbtKey : BitVec 64) : Writer :=
  let keyHi := htonl ((fbtKey >>> 32).setWidth 32)
  let keyLo := htonl ((fbtKey &&& 0xffffffff).setWidth 32)
  let fbtIdx := List.replicate 6 0
  ((Writer.put ⟨buf, 0⟩ msg (unsignedBytes keyHi)).put msg (unsignedBytes keyLo)).put msg fbtIdx

/-- Both calls at the head of a query; `msg_len` runs over both parts. -/
def writeHeader (buf : Nat → Byte) (msg : Nat) (pid : BitVec 8) (fbtKey : BitVec 64) : Writer :=
  let first := injectMsgType buf msg 0x0527 pid
  let second := injectFbtHdr first.buf (msg + first.msgLen.toNat) fbtKey
  ⟨second.buf, first.msgLen + second.msgLen⟩

end Frontend

/-- The packet that carries the given bytes behind an IPv4 and a UDP header. -/
def udpPacket (ethernet : EthernetH) (ipv4 : Ipv4H) (udp : UdpH) (bytes : List Byte) : Bits :=
  ethernetH.emit { ethernet with etherType := etherTypeIpv4 } ++
    (ipv4H.emit { ipv4 with protocol := ipProtoUdp } ++ (udpH.emit udp ++ bytesBits bytes))

/-! ## The switch -/

structure MsgH where
  msgType : BitVec 32
  partId : BitVec 8
  deriving DecidableEq

/-- `fbt_h` of the TCAM program. -/
structure QuarterHeader where
  key1 : BitVec 16
  key2 : BitVec 16
  key3 : BitVec 16
  key4 : BitVec 16
  fbtIdx : BitVec 48
  deriving DecidableEq

open Codec in
def msgH : Codec MsgH :=
  ((field 32).pair (field 8)).as
    { toFun := fun (msgType, partId) => ⟨msgType, partId⟩
      invFun := fun h => (h.msgType, h.partId)
      left_inv := fun _ => rfl
      right_inv := fun _ => rfl }

open Codec in
/-- `fbt_h` of the SRAM program. -/
def halvesH : Codec FbtHeader :=
  ((field 32).pair ((field 32).pair (field 48))).as
    { toFun := fun (keyHi, keyLo, fbtIdx) => ⟨keyHi, keyLo, fbtIdx⟩
      invFun := fun h => (h.keyHi, h.keyLo, h.fbtIdx)
      left_inv := fun _ => rfl
      right_inv := fun _ => rfl }

open Codec in
/-- `fbt_h` of the TCAM program. -/
def quartersH : Codec QuarterHeader :=
  ((field 16).pair <| (field 16).pair <| (field 16).pair <| (field 16).pair (field 48)).as
    { toFun := fun (key1, key2, key3, key4, fbtIdx) => ⟨key1, key2, key3, key4, fbtIdx⟩
      invFun := fun h => (h.key1, h.key2, h.key3, h.key4, h.fbtIdx)
      left_inv := fun _ => rfl
      right_inv := fun _ => rfl }

open Codec in
theorem takes_msgH : msgH.Takes 40 :=
  ((takes_field 32).pair (takes_field 8)).as _

open Codec in
theorem takes_halvesH : halvesH.Takes 112 :=
  ((takes_field 32).pair <| (takes_field 32).pair (takes_field 48)).as _

open Codec in
theorem takes_quartersH : quartersH.Takes 112 :=
  ((takes_field 16).pair <| (takes_field 16).pair <| (takes_field 16).pair <|
    (takes_field 16).pair (takes_field 48)).as _

/-- `my_ingress_headers_t`; a header that is not valid is `none`. -/
structure Headers (φ : Type) where
  ethernet : EthernetH
  ipv4 : Option Ipv4H := none
  udp : Option UdpH := none
  msg : Option MsgH := none
  fbt : Option φ := none

variable {φ : Type}

/-- `IngressParser`, with the headers it finds and what follows them. -/
def ingressParser (fbtH : Codec φ) (pkt : Bits) : Option (Headers φ × Bits) := do
  let (ethernet, pkt) ← ethernetH.extract pkt
  if ethernet.etherType = etherTypeIpv4 then
    let (ipv4, pkt) ← ipv4H.extract pkt
    if ipv4.protocol = 17 then
      let (udp, pkt) ← udpH.extract pkt
      let (msg, pkt) ← msgH.extract pkt
      if msg.msgType = 0x0527 then
        let (fbt, pkt) ← fbtH.extract pkt
        return (⟨ethernet, ipv4, udp, msg, fbt⟩, pkt)
      else
        return (⟨ethernet, ipv4, udp, msg, none⟩, pkt)
    else
      return (⟨ethernet, ipv4, none, none, none⟩, pkt)
  else
    return (⟨ethernet, none, none, none, none⟩, pkt)

/-- `pkt.emit` of a header that may not be valid. -/
def emitValid {α : Type} (codec : Codec α) (h : Option α) : Bits :=
  h.elim [] codec.emit

/-- `IngressDeparser`, followed by what the parser left. -/
def ingressDeparser (fbtH : Codec φ) (hdr : Headers φ) (payload : Bits) : Bits :=
  ethernetH.emit hdr.ethernet ++ (emitValid ipv4H hdr.ipv4 ++ (emitValid udpH hdr.udp ++
    (emitValid msgH hdr.msg ++ (emitValid fbtH hdr.fbt ++ payload))))

/-! ## The backend -/

namespace Backend

/-- The bytes behind the Ethernet, IPv4 and UDP headers. -/
def receivedMsg (pkt : Bits) : List Byte :=
  (packBytes (pkt.length / 8) pkt).drop 42

/-- `extract_msg_type`; the part id is read past. -/
def extractMsgType (msg : List Byte) : Option (Nat × BitVec 32) := do
  let byte0 ← msg[0]?
  let byte1 ← msg[1]?
  let byte2 ← msg[2]?
  let byte3 ← msg[3]?
  let ubuf := BitVec.ofNat 32 (ofLittleEndian [byte0, byte1, byte2, byte3])
  let _ ← msg[4]?
  return (5, htonl ubuf)

/-- Message type, index and what the handler goes on reading. -/
def readHeader (msg : List Byte) : Option (BitVec 32 × BitVec 64 × List Byte) := do
  let (first, msgType) ← extractMsgType msg
  let msg := msg.drop first
  let (second, fbtIdx) ← extractFbtHdr msg
  return (msgType, fbtIdx, msg.drop second)

theorem extractMsgType_eq (msgType : BitVec 32) (pid : BitVec 8) (rest : List Byte) :
    extractMsgType (unsignedBytes (htonl msgType) ++ pid :: rest) = some (5, msgType) := by
  have hbytes : extractMsgType (unsignedBytes (htonl msgType) ++ pid :: rest)
      = some (5, htonl (BitVec.ofNat 32 (ofLittleEndian (unsignedBytes (htonl msgType))))) := rfl
  have hlt : (htonl msgType).toNat < 256 ^ 4 := (htonl msgType).isLt
  rw [hbytes, unsignedBytes, ofLittleEndian_littleEndian, Nat.mod_eq_of_lt hlt, BitVec.ofNat_toNat,
    BitVec.setWidth_eq, htonl_htonl]

theorem receivedMsg_eq (ethernet : EthernetH) (ipv4 : Ipv4H) (udp : UdpH) (bytes : List Byte) :
    receivedMsg (ethernetH.emit ethernet ++ (ipv4H.emit ipv4 ++ (udpH.emit udp ++ bytesBits bytes)))
      = bytes := by
  have hhead : (ethernetH.emit ethernet ++ (ipv4H.emit ipv4 ++ udpH.emit udp)).length = 8 * 42 := by
    simp [ethernetH, ipv4H, udpH, Codec.as, Codec.pair, Codec.field]
  have hassoc : ethernetH.emit ethernet ++ (ipv4H.emit ipv4 ++ (udpH.emit udp ++ bytesBits bytes))
      = (ethernetH.emit ethernet ++ (ipv4H.emit ipv4 ++ udpH.emit udp)) ++ bytesBits bytes := by
    simp only [List.append_assoc]
  have hcount : (8 * 42 + 8 * bytes.length) / 8 = 42 + bytes.length := by omega
  rw [receivedMsg, hassoc, List.length_append, hhead, length_bytesBits, hcount,
    packBytes_append hhead, packBytes_bytesBits, List.drop_left' (length_packBytes 42 _)]

theorem readHeader_eq (msgType : BitVec 32) (pid : BitVec 8) (keyHi keyLo : BitVec 32)
    (fbtIdx : BitVec 48) (body : List Byte) :
    readHeader (unsignedBytes (htonl msgType) ++ pid :: (emitFbt keyHi keyLo fbtIdx ++ body))
      = some (msgType, fbtIdx.setWidth 64, body) := by
  have hfirst : (unsignedBytes (htonl msgType) ++ pid :: (emitFbt keyHi keyLo fbtIdx ++ body)).drop 5
      = emitFbt keyHi keyLo fbtIdx ++ body := rfl
  have hsecond : (emitFbt keyHi keyLo fbtIdx ++ body).drop 14 = body := rfl
  simp only [readHeader, extractMsgType_eq, Option.bind_eq_bind, Option.bind_some, hfirst,
    extractFbtHdr_emitFbt, hsecond, Option.pure_def]

end Backend

/-! ## What travels -/

/-- The halves of a key as `inject_fbt_hdr` takes them. -/
theorem append_halves (fbtKey : BitVec 64) :
    (fbtKey >>> 32).setWidth 32 ++ (fbtKey &&& 0xffffffff).setWidth 32 = fbtKey := by
  have hkey := fbtKey.isLt
  have hlow : fbtKey.toNat &&& 0xffffffff = fbtKey.toNat % 2 ^ 32 :=
    Nat.and_two_pow_sub_one_eq_mod _ 32
  have hmask : (0xffffffff : BitVec 64).toNat = 0xffffffff := rfl
  apply BitVec.eq_of_toNat_eq
  rw [BitVec.toNat_append, BitVec.toNat_setWidth, BitVec.toNat_setWidth, BitVec.toNat_ushiftRight,
    BitVec.toNat_and, hmask, hlow, Nat.shiftRight_eq_div_pow, Nat.mod_mod, Nat.shiftLeft_eq,
    Nat.mul_comm, ← Nat.two_pow_add_eq_or_of_lt (Nat.mod_lt _ (Nat.two_pow_pos 32))]
  omega

theorem append_quarters (fbtKey : BitVec 64) :
    fbtKey.extractLsb' 48 16 ++ fbtKey.extractLsb' 32 16 ++ fbtKey.extractLsb' 16 16
      ++ fbtKey.extractLsb' 0 16 = fbtKey := by
  have hupper : fbtKey.extractLsb' 48 16 ++ fbtKey.extractLsb' 32 16 = fbtKey.extractLsb' 32 32 :=
    BitVec.extractLsb'_append_extractLsb'_eq_extractLsb' rfl
  have hthree : fbtKey.extractLsb' 32 32 ++ fbtKey.extractLsb' 16 16 = fbtKey.extractLsb' 16 48 :=
    BitVec.extractLsb'_append_extractLsb'_eq_extractLsb' rfl
  have hall : fbtKey.extractLsb' 16 48 ++ fbtKey.extractLsb' 0 16 = fbtKey.extractLsb' 0 64 :=
    BitVec.extractLsb'_append_extractLsb'_eq_extractLsb' rfl
  rw [hupper, hthree, hall, BitVec.extractLsb'_eq_self]

def fbtBytes (fbtKey : BitVec 64) : List Byte :=
  unsignedBytes (htonl ((fbtKey >>> 32).setWidth 32)) ++
    unsignedBytes (htonl ((fbtKey &&& 0xffffffff).setWidth 32)) ++ List.replicate 6 0

def headerBytes (pid : BitVec 8) (fbtKey : BitVec 64) : List Byte :=
  unsignedBytes (htonl 0x0527) ++ [pid] ++ fbtBytes fbtKey

theorem fbtBytes_eq (fbtKey : BitVec 64) :
    fbtBytes fbtKey
      = emitFbt ((fbtKey >>> 32).setWidth 32) ((fbtKey &&& 0xffffffff).setWidth 32) 0 := by
  rw [fbtBytes, unsignedBytes_htonl, unsignedBytes_htonl]
  rfl

theorem Frontend.injectFbtHdr_eq (buf : Nat → Byte) (msg : Nat) (fbtKey : BitVec 64) :
    injectFbtHdr buf msg fbtKey = wrote buf msg (fbtBytes fbtKey) := by
  rw [injectFbtHdr, ← @wrote_nil buf msg, wrote_put (by simp), wrote_put (by simp),
    wrote_put (by simp), List.nil_append, fbtBytes]

theorem length_headerBytes (pid : BitVec 8) (fbtKey : BitVec 64) :
    (headerBytes pid fbtKey).length = 19 := rfl

theorem Frontend.writeHeader_eq (buf : Nat → Byte) (msg : Nat) (pid : BitVec 8)
    (fbtKey : BitVec 64) :
    writeHeader buf msg pid fbtKey = wrote buf msg (headerBytes pid fbtKey) := by
  have hfirst : ∀ msgType,
      injectMsgType buf msg msgType pid = wrote buf msg (unsignedBytes (htonl msgType) ++ [pid]) := by
    intro msgType
    rw [injectMsgType, ← @wrote_nil buf msg, wrote_put (by simp), wrote_put (by simp),
      List.nil_append]
  rw [writeHeader, hfirst]
  simp only [injectFbtHdr_eq]
  rw [wrote_wrote (by simp), headerBytes]

theorem bytesBits_headerBytes (pid : BitVec 8) (fbtKey : BitVec 64) (body : List Byte) :
    bytesBits (headerBytes pid fbtKey ++ body) = msgH.emit ⟨0x0527, pid⟩ ++
      (wordBits fbtKey ++ (wordBits (0 : BitVec 48) ++ bytesBits body)) := by
  have hpid : bytesBits [pid] = wordBits pid := List.append_nil _
  have hmsg : msgH.emit ⟨0x0527, pid⟩ = wordBits (0x0527 : BitVec 32) ++ wordBits pid := rfl
  rw [headerBytes, fbtBytes_eq, bytesBits_append, bytesBits_append, bytesBits_append,
    bytesBits_htonl, hpid, bytesBits_emitFbt, append_halves, hmsg]
  simp only [List.append_assoc]

theorem halvesH_emit (hdr : FbtHeader) :
    halvesH.emit hdr = wordBits (hdr.keyHi ++ hdr.keyLo) ++ wordBits hdr.fbtIdx := by
  rw [wordBits_append, List.append_assoc]
  rfl

theorem quartersH_emit (hdr : QuarterHeader) :
    quartersH.emit hdr
      = wordBits (hdr.key1 ++ hdr.key2 ++ hdr.key3 ++ hdr.key4) ++ wordBits hdr.fbtIdx := by
  rw [wordBits_append, wordBits_append, wordBits_append]
  simp only [List.append_assoc]
  rfl

section Switch

variable {fbtH : Codec φ} {hdr hdr' : φ} {ethernet : EthernetH} {ipv4 : Ipv4H} {udp : UdpH}
  {pid : BitVec 8} {fbtKey : BitVec 64} {body : List Byte}

/-- The headers of a query. -/
def queryHeaders (ethernet : EthernetH) (ipv4 : Ipv4H) (udp : UdpH) (pid : BitVec 8) (fbt : φ) :
    Headers φ where
  ethernet := { ethernet with etherType := etherTypeIpv4 }
  ipv4 := some { ipv4 with protocol := ipProtoUdp }
  udp := some udp
  msg := some ⟨0x0527, pid⟩
  fbt := some fbt

theorem ingressParser_query
    (hemit : fbtH.emit hdr = wordBits fbtKey ++ wordBits (0 : BitVec 48)) :
    ingressParser fbtH (udpPacket ethernet ipv4 udp (headerBytes pid fbtKey ++ body))
      = some (queryHeaders ethernet ipv4 udp pid hdr, bytesBits body) := by
  have hudp : ipProtoUdp = 17 := rfl
  have hfbt : wordBits fbtKey ++ (wordBits (0 : BitVec 48) ++ bytesBits body)
      = fbtH.emit hdr ++ bytesBits body := by
    rw [hemit, List.append_assoc]
  rw [udpPacket, bytesBits_headerBytes, hfbt]
  simp [ingressParser, Codec.extract_emit, queryHeaders, hudp]

/-- A query that leaves the switch with another index, as the backend reads it. -/
theorem readHeader_query {fbtIdx : BitVec 48}
    (hemit : fbtH.emit hdr' = wordBits fbtKey ++ wordBits fbtIdx) :
    Backend.readHeader (Backend.receivedMsg
        (ingressDeparser fbtH (queryHeaders ethernet ipv4 udp pid hdr') (bytesBits body)))
      = some (0x0527, fbtIdx.setWidth 64, body) := by
  let bytes := unsignedBytes (htonl 0x0527) ++ pid ::
    (emitFbt ((fbtKey >>> 32).setWidth 32) ((fbtKey &&& 0xffffffff).setWidth 32) fbtIdx ++ body)
  have hmsg : bytesBits bytes = msgH.emit ⟨0x0527, pid⟩ ++ (fbtH.emit hdr' ++ bytesBits body) := by
    have hhead : msgH.emit ⟨0x0527, pid⟩ = wordBits (0x0527 : BitVec 32) ++ wordBits pid := rfl
    rw [bytesBits_append, bytesBits_cons, bytesBits_append, bytesBits_emitFbt, bytesBits_htonl,
      append_halves, hemit, hhead]
    simp only [List.append_assoc]
  have hsent : ingressDeparser fbtH (queryHeaders ethernet ipv4 udp pid hdr') (bytesBits body)
      = ethernetH.emit { ethernet with etherType := etherTypeIpv4 } ++
        (ipv4H.emit { ipv4 with protocol := ipProtoUdp } ++ (udpH.emit udp ++ bytesBits bytes)) := by
    rw [hmsg]
    rfl
  rw [hsent, Backend.receivedMsg_eq]
  exact Backend.readHeader_eq _ _ _ _ _ _

end Switch

/-- The frontend, both switch programs and the backend agree on the header of a query. -/
theorem query_header_agrees (K : BitVec 64) (pid : BitVec 8) (body : List Byte) (R : BitVec 48)
    (buf : Nat → Byte) (msg : Nat) (ethernet : EthernetH) (ipv4 : Ipv4H) (udp : UdpH) :
    (∃ keyHi keyLo : BitVec 32,
      keyHi ++ keyLo = K ∧
      ingressParser halvesH (udpPacket ethernet ipv4 udp
          (sentBytes (Frontend.writeHeader buf msg pid K) msg ++ body))
        = some (queryHeaders ethernet ipv4 udp pid ⟨keyHi, keyLo, 0⟩, bytesBits body) ∧
      Backend.readHeader (Backend.receivedMsg (ingressDeparser halvesH
          (queryHeaders ethernet ipv4 udp pid ⟨keyHi, keyLo, R⟩) (bytesBits body)))
        = some (0x0527, R.setWidth 64, body)) ∧
    (∃ key1 key2 key3 key4 : BitVec 16,
      key1 ++ key2 ++ key3 ++ key4 = K ∧
      ingressParser quartersH (udpPacket ethernet ipv4 udp
          (sentBytes (Frontend.writeHeader buf msg pid K) msg ++ body))
        = some (queryHeaders ethernet ipv4 udp pid ⟨key1, key2, key3, key4, 0⟩, bytesBits body) ∧
      Backend.readHeader (Backend.receivedMsg (ingressDeparser quartersH
          (queryHeaders ethernet ipv4 udp pid ⟨key1, key2, key3, key4, R⟩) (bytesBits body)))
        = some (0x0527, R.setWidth 64, body)) ∧
    (R.setWidth 64).toInt = R.toNat := by
  have hsent : sentBytes (Frontend.writeHeader buf msg pid K) msg = headerBytes pid K := by
    rw [Frontend.writeHeader_eq, sentBytes_wrote (by rw [length_headerBytes]; decide)]
  have hhalves : ∀ fbtIdx, halvesH.emit
      ⟨(K >>> 32).setWidth 32, (K &&& 0xffffffff).setWidth 32, fbtIdx⟩
        = wordBits K ++ wordBits fbtIdx := by
    intro fbtIdx
    rw [halvesH_emit, append_halves]
  have hquarters : ∀ fbtIdx, quartersH.emit ⟨K.extractLsb' 48 16, K.extractLsb' 32 16,
      K.extractLsb' 16 16, K.extractLsb' 0 16, fbtIdx⟩ = wordBits K ++ wordBits fbtIdx := by
    intro fbtIdx
    rw [quartersH_emit, append_quarters]
  rw [hsent]
  refine ⟨⟨_, _, append_halves K, ?_, ?_⟩, ⟨_, _, _, _, append_quarters K, ?_, ?_⟩, ?_⟩
  · exact ingressParser_query (hhalves 0)
  · exact readHeader_query (hhalves R)
  · exact ingressParser_query (hquarters 0)
  · exact readHeader_query (hquarters R)
  · have hR := R.isLt
    rw [BitVec.toInt_eq_toNat_of_lt, BitVec.toNat_setWidth]
    · omega
    · rw [BitVec.toNat_setWidth]
      omega

end FatBTree.Ethernet
