import FatBTree.Rdma.Messages
import FatBTree.Rdma.SwitchConfig

/-!
# The lookup pipeline of the RDMA switch

A read with key 0 gains an `fbt` header in `Ingress0`, descends one layer there and
two in `Ingress1`, and leaves `Egress0` as an ordinary read of the address it found.
-/

namespace FatBTree.Rdma

open FatBTree.P4 FatBTree.Sram FatBTree.Ethernet

/-! ## `Ingress0` -/

/-- What a pass finds in the fields it has not written. -/
structure Scratch where
  lane : Fin 4 → MetaVar
  found : Tcam.Meta
  fbt : FbtHeader

/-- `META_INIT_0(b)`. -/
def metaInit0 (va : BitVec 64) (lane : MetaVar) : MetaVar :=
  { lane with idx := 0, keyHi := keyHi va, keyLo := keyLo va }

def setHdrFbtAction (va : BitVec 64) : FbtHeader where
  keyHi := keyHi va
  keyLo := keyLo va
  fbtIdx := 0

def setAddr : BitVec 48 → Packet → Packet := setResultAction

def setResultAction0 : BitVec 48 → Packet → Packet := setResultAction2

def applySetAddrTable (table : ExactTable Nat (BitVec 48)) (found : Tcam.Meta)
    (packet : Packet) : Packet :=
  match table.lookup found.result with
  | some result => setAddr result packet
  | none => packet

def applyResultTable0 (tables : Tables) (packet : Packet) : Packet :=
  match (tables.setResultTable 0).lookup (resultKey packet 0) with
  | some result => setResultAction0 result packet
  | none => packet

/-- `Ingress0.apply` on a request; `META_INIT_0` and `key_1` to `key_4` are set by
the parser. -/
def descend0 (tables : SwitchTables) (scratch : Scratch) (va : BitVec 64) : Packet :=
  let packet : Packet := ⟨setHdrFbtAction va, fun b => metaInit0 va (scratch.lane b)⟩
  let found := (Tcam.ingressApply tables.rangeTables va scratch.found).1
  let packet := applySetAddrTable tables.setAddrTable found packet
  applyResultTable0 tables.ingress0 (applyStages tables.ingress0 0 packet)

def ingress0Apply (tables : SwitchTables) (scratch : Scratch) (hdr : Headers) : Headers :=
  match hdr.ibReth, hdr.fbt with
  | some ibReth, some _ => { hdr with fbt := some (descend0 tables scratch ibReth.va).hdr }
  | _, _ => hdr

def ingress0 (tables : SwitchTables) (scratch : Scratch) : Bits → Option Bits :=
  pass (parseFbt0 scratch.fbt) (ingress0Apply tables scratch)

/-! ## `Ingress1` -/

def ingress1Apply (tables : SwitchTables) (scratch : Fin 4 → MetaVar) (hdr : Headers) : Headers :=
  match hdr.fbt with
  | some fbt => { hdr with fbt := some (ingressApply tables.ingress1 (parseFbt fbt scratch)).hdr }
  | none => hdr

def ingress1 (tables : SwitchTables) (scratch : Fin 4 → MetaVar) : Bits → Option Bits :=
  pass parseFbt1 (ingress1Apply tables scratch)

/-! ## `Egress1` and `Egress0` -/

/-- `Egress1` has no headers: it parses nothing, does nothing and emits nothing before
the packet. -/
def egress1 (pkt : Bits) : Option Bits :=
  some pkt

/-- The fields `calculate_crc32` reads, with ones for the fields that may change on
the way. -/
def crc32Input (ipv4 : Ipv4H) (udp : UdpH) (ibBth : IbBthH) (ibReth : IbRethH) : Bits :=
  wordBits (0xFFFFFFFFFFFFFFFF : BitVec 64) ++
  wordBits ipv4.version ++ wordBits ipv4.ihl ++ wordBits (0xFF : BitVec 8) ++
  wordBits ipv4.totalLen ++ wordBits ipv4.identification ++ wordBits ipv4.flags ++
  wordBits ipv4.fragOffset ++ wordBits (0xFF : BitVec 8) ++ wordBits ipv4.protocol ++
  wordBits (0xFFFF : BitVec 16) ++ wordBits ipv4.srcAddr ++ wordBits ipv4.dstAddr ++
  wordBits udp.srcPort ++ wordBits udp.dstPort ++ wordBits udp.len ++
  wordBits (0xFFFF : BitVec 16) ++
  wordBits ibBth.opcode ++ wordBits ibBth.event ++ wordBits ibBth.migReq ++
  wordBits ibBth.padCount ++ wordBits ibBth.version ++ wordBits ibBth.pkey ++
  wordBits (0xFF : BitVec 8) ++ wordBits ibBth.dstQP ++ wordBits ibBth.ackReq ++
  wordBits ibBth.resv7b ++ wordBits ibBth.psn ++
  wordBits ibReth.va ++ wordBits ibReth.rkey ++ wordBits ibReth.length

/-- `meta.crc32revs`. -/
def crc32revs (crc32 : BitVec 32) : BitVec 32 :=
  crc32.extractLsb' 0 8 ++ crc32.extractLsb' 8 8 ++ crc32.extractLsb' 16 8 ++
    crc32.extractLsb' 24 8

section

variable (crc32Hash : Bits → BitVec 32)

def egress0Apply (tables : SwitchTables) (hdr : Headers) : Headers :=
  match hdr.ipv4, hdr.udp, hdr.ibBth, hdr.ibReth, hdr.fbt with
  | some ipv4, some udp, some ibBth, some ibReth, some fbt =>
      let ibReth := { ibReth with rkey := tables.remoteStag, va := fbt.fbtIdx.setWidth 64 }
      let crc32 := crc32Hash (crc32Input ipv4 udp ibBth ibReth)
      { hdr with
        ibReth := some ibReth
        ibIcrc := hdr.ibIcrc.map (fun _ => ⟨crc32revs crc32⟩)
        fbt := none }
  | _, _, _, _, _ => hdr

def egress0 (tables : SwitchTables) : Bits → Option Bits :=
  pass parseFbt2 (egress0Apply crc32Hash tables)

/-- The way of a packet through both pipes, as `reset.py` sets the ports. -/
def pipeline (tables : SwitchTables) (scratch0 : Scratch) (scratch1 : Fin 4 → MetaVar)
    (pkt : Bits) : Option Bits := do
  let pkt ← ingress0 tables scratch0 pkt
  let pkt ← egress1 pkt
  let pkt ← ingress1 tables scratch1 pkt
  egress0 crc32Hash tables pkt

end

/-! Without an `fbt` header the three controls do nothing. -/

theorem ingress0Apply_idle (tables : SwitchTables) (scratch : Scratch) (hdr : Headers)
    (idle : hdr.fbt = none) : ingress0Apply tables scratch hdr = hdr := by
  rw [ingress0Apply, idle]
  cases hdr.ibReth <;> rfl

theorem ingress1Apply_idle (tables : SwitchTables) (scratch : Fin 4 → MetaVar) (hdr : Headers)
    (idle : hdr.fbt = none) : ingress1Apply tables scratch hdr = hdr := by
  rw [ingress1Apply, idle]

theorem egress0Apply_idle (crc32Hash : Bits → BitVec 32) (tables : SwitchTables) (hdr : Headers)
    (idle : hdr.fbt = none) : egress0Apply crc32Hash tables hdr = hdr := by
  rw [egress0Apply, idle]
  split
  next hfbt => cases hfbt
  next => rfl

/-! ## What a lookup finds -/

/-- The address that the range tables and `set_addr_table` give. -/
def startAddr (rangeTables : Tcam.Tables) (addrs : List (BitVec 48)) (found : Tcam.Meta)
    (va : BitVec 64) : BitVec 48 :=
  addrs.getD (Tcam.ingressApply rangeTables va found).1.result 0

/-- Three steps down the loaded layers. -/
def treeAddr (file : List (Nat × SwitchNode)) (va : BitVec 64) (addr : BitVec 48) : BitVec 48 :=
  layerStep (depthNodes 3 file) va (layerStep (depthNodes 2 file) va
    (layerStep (depthNodes 1 file) va addr))

/-- The read that leaves the switch: another key and address, and the checksum for them. -/
def Message.answer (msg : Message) (crc32Hash : Bits → BitVec 32) (remoteStag : BitVec 32)
    (addr : BitVec 48) : Message :=
  let ibReth := { msg.ibReth with rkey := remoteStag, va := addr.setWidth 64 }
  { msg with
    ibReth := ibReth
    ibIcrc := ⟨crc32revs (crc32Hash (crc32Input msg.ipv4 msg.udp msg.ibBth ibReth))⟩ }

section

variable {tables : SwitchTables} {rangeTables : Tcam.Tables} {addrs : List (BitVec 48)}
  {remoteStag : BitVec 32} {file : List (Nat × SwitchNode)}

theorem applyResultTable0_hdr (tables : Tables) (packet : Packet) :
    (applyResultTable0 tables packet).hdr = { packet.hdr with
      fbtIdx := ((tables.setResultTable 0).lookup (resultKey packet 0)).getD packet.hdr.fbtIdx } := by
  unfold applyResultTable0
  cases (tables.setResultTable 0).lookup (resultKey packet 0) with
  | none => rfl
  | some result => rfl

theorem applySetAddrTable_spec (table : ExactTable Nat (BitVec 48)) (found : Tcam.Meta)
    {packet : Packet} {key : BitVec 64} (reads : Reads packet.lane key packet.hdr.fbtIdx) :
    (applySetAddrTable table found packet).hdr = { packet.hdr with
        fbtIdx := (table.lookup found.result).getD packet.hdr.fbtIdx } ∧
      Reads (applySetAddrTable table found packet).lane key
        (applySetAddrTable table found packet).hdr.fbtIdx := by
  unfold applySetAddrTable
  cases table.lookup found.result with
  | none => exact ⟨rfl, reads⟩
  | some result => exact ⟨rfl, fun b => ⟨(reads b).1, (reads b).2.1, rfl⟩⟩

theorem SwitchTables.Loaded.descend0_hdr
    (loaded : tables.Loaded rangeTables addrs remoteStag file) (scratch : Scratch)
    (va : BitVec 64) :
    (descend0 tables scratch va).hdr = ⟨keyHi va, keyLo va,
      layerStep (depthNodes 1 file) va (startAddr rangeTables addrs scratch.found va)⟩ := by
  let packet : Packet := ⟨setHdrFbtAction va, fun b => metaInit0 va (scratch.lane b)⟩
  let found := (Tcam.ingressApply tables.rangeTables va scratch.found).1
  have hparsed : Reads packet.lane va packet.hdr.fbtIdx := fun b => ⟨rfl, rfl, rfl⟩
  obtain ⟨hhdr, hreads⟩ := applySetAddrTable_spec tables.setAddrTable found hparsed
  have hstart : (tables.setAddrTable.lookup found.result).getD packet.hdr.fbtIdx =
      startAddr rangeTables addrs scratch.found va := by
    rw [loaded.setAddrTable, ← List.getD_eq_getElem?_getD, startAddr, ← loaded.rangeTables]
    rfl
  have hstep := loaded.ingress0.lookup_resultKey 0 hreads
  rw [nodesAt_groupCalls, step_full, hhdr, hstart] at hstep
  have hresult := applyResultTable0_hdr tables.ingress0
    (applyStages tables.ingress0 0 (applySetAddrTable tables.setAddrTable found packet))
  have hkept : (applyStages tables.ingress0 0
      (applySetAddrTable tables.setAddrTable found packet)).hdr =
        (applySetAddrTable tables.setAddrTable found packet).hdr := rfl
  rw [hkept, hhdr, hstart, hstep] at hresult
  exact hresult

theorem ingressApply_hdr (tables : Tables) (packet : Packet) :
    (ingressApply tables packet).hdr =
      { packet.hdr with fbtIdx := (ingressApply tables packet).hdr.fbtIdx } := by
  have hfirst : ∀ packet : Packet, (applyResultTable tables packet).hdr =
      { packet.hdr with fbtIdx := (applyResultTable tables packet).hdr.fbtIdx } := by
    intro packet
    unfold applyResultTable
    split <;> rfl
  have hsecond : ∀ packet : Packet, (applyResultTable2 tables packet).hdr =
      { packet.hdr with fbtIdx := (applyResultTable2 tables packet).hdr.fbtIdx } := by
    intro packet
    unfold applyResultTable2
    split <;> rfl
  have hmiddle := hfirst (applyStages tables 0 packet)
  have hlast := hsecond (applyStages tables 1 (applyResultTable tables (applyStages tables 0 packet)))
  have hkept : (applyStages tables 1 (applyResultTable tables (applyStages tables 0 packet))).hdr =
      (applyResultTable tables (applyStages tables 0 packet)).hdr := rfl
  rw [hkept, hmiddle] at hlast
  exact hlast

theorem SwitchTables.Loaded.ingressApply_hdr
    (loaded : tables.Loaded rangeTables addrs remoteStag file) (scratch : Fin 4 → MetaVar)
    (va : BitVec 64) (addr : BitVec 48) :
    (ingressApply tables.ingress1 (parseFbt ⟨keyHi va, keyLo va, addr⟩ scratch)).hdr =
      ⟨keyHi va, keyLo va,
        layerStep (depthNodes 3 file) va (layerStep (depthNodes 2 file) va addr)⟩ := by
  have hidx := loaded.ingress1.ingressApply_fbtIdx va addr scratch
  obtain ⟨hlower, hupper⟩ := nodesAt_both (depthNodes 2 file) (depthNodes 3 file)
  rw [hlower, hupper, step_full, step_full] at hidx
  rw [Rdma.ingressApply_hdr, hidx]
  rfl

/-! ## The three passes on a lookup -/

variable {msg : Message}

theorem ingress0_lookup (loaded : tables.Loaded rangeTables addrs remoteStag file)
    (lookup : msg.IsLookup) (scratch : Scratch) :
    ingress0 tables scratch msg.bits = some (msg.withHeader (halvesH.emit
      ⟨keyHi msg.ibReth.va, keyLo msg.ibReth.va, layerStep (depthNodes 1 file) msg.ibReth.va
        (startAddr rangeTables addrs scratch.found msg.ibReth.va)⟩)) := by
  have hparsed : parseFbt0 scratch.fbt ([] ++ msg.payload) = some (scratch.fbt, msg.payload) := rfl
  rw [ingress0, Message.bits, lookup.pass_eq hparsed, ← loaded.descend0_hdr]
  rfl

theorem ingress1_lookup (loaded : tables.Loaded rangeTables addrs remoteStag file)
    (lookup : msg.IsLookup) (scratch : Fin 4 → MetaVar) (addr : BitVec 48) :
    ingress1 tables scratch (msg.withHeader (halvesH.emit
        ⟨keyHi msg.ibReth.va, keyLo msg.ibReth.va, addr⟩)) =
      some (msg.withHeader (halvesH.emit ⟨keyHi msg.ibReth.va, keyLo msg.ibReth.va,
        layerStep (depthNodes 3 file) msg.ibReth.va
          (layerStep (depthNodes 2 file) msg.ibReth.va addr)⟩)) := by
  have hparsed : ∀ fbt, parseFbt1 (halvesH.emit fbt ++ msg.payload) = some (fbt, msg.payload) :=
    fun fbt => halvesH.extract_emit fbt msg.payload
  rw [ingress1, lookup.pass_eq (hparsed _),
    ← loaded.ingressApply_hdr scratch msg.ibReth.va addr]
  rfl

theorem egress0_lookup (loaded : tables.Loaded rangeTables addrs remoteStag file)
    (lookup : msg.IsLookup) (crc32Hash : Bits → BitVec 32) (fbt : FbtHeader) :
    egress0 crc32Hash tables (msg.withHeader (halvesH.emit fbt)) =
      some (msg.answer crc32Hash remoteStag fbt.fbtIdx).bits := by
  have hparsed : parseFbt2 (halvesH.emit fbt ++ msg.payload) = some (fbt, msg.payload) :=
    halvesH.extract_emit fbt msg.payload
  rw [egress0, lookup.pass_eq hparsed, ← loaded.remoteStag]
  rfl

end

/-- A lookup leaves the switch as a read of the address three layers down.  Every other
packet leaves as it came, unless it ends within a header, which the first parser rejects;
the headers have at most 592 bits. -/
theorem pipeline_eq (crc32Hash : Bits → BitVec 32) (rangeTables : Tcam.Tables)
    (addrs : List (BitVec 48)) (remoteStag : BitVec 32) (file : List (Nat × SwitchNode))
    (some_node : ∀ layer ∈ [1, 2, 3], depthNodes layer file ≠ [])
    (distinct : ∀ layer ∈ [1, 2, 3], ((depthNodes layer file).map SwitchNode.addr).Nodup) :
    ∃ tables, config rangeTables addrs remoteStag (fileLines file) = some tables ∧
      ∀ (scratch0 : Scratch) (scratch1 : Fin 4 → MetaVar),
        (∀ msg : Message, msg.IsLookup →
          pipeline crc32Hash tables scratch0 scratch1 msg.bits =
            some (msg.answer crc32Hash remoteStag (treeAddr file msg.ibReth.va
              (startAddr rangeTables addrs scratch0.found msg.ibReth.va))).bits) ∧
        ∀ pkt, (∀ msg : Message, msg.IsLookup → pkt ≠ msg.bits) →
          pipeline crc32Hash tables scratch0 scratch1 pkt =
              (if (parser (parseFbt0 scratch0.fbt) pkt).isSome then some pkt else none) ∧
            (592 ≤ pkt.length → pipeline crc32Hash tables scratch0 scratch1 pkt = some pkt) := by
  obtain ⟨tables, hconfig, hloaded⟩ := config_eq rangeTables addrs remoteStag some_node distinct
  refine ⟨tables, hconfig, ?_⟩
  intro scratch0 scratch1
  constructor
  · intro msg hlookup
    simp only [pipeline, Option.bind_eq_bind, ingress0_lookup hloaded hlookup, egress1,
      Option.bind_some, ingress1_lookup hloaded hlookup, egress0_lookup hloaded hlookup]
    rfl
  · intro pkt hother
    have hpipeline : pipeline crc32Hash tables scratch0 scratch1 pkt =
        if (parser (parseFbt0 scratch0.fbt) pkt).isSome then some pkt else none := by
      cases hparsed : parser (parseFbt0 scratch0.fbt) pkt with
      | none => simp [pipeline, ingress0, pass, hparsed]
      | some found =>
          obtain ⟨hdr, payload⟩ := found
          have hfirst : ingress0 tables scratch0 pkt = some pkt :=
            pass_of_not_lookup (ingress0Apply_idle tables scratch0) hother hparsed _
          have hsecond : ingress1 tables scratch1 pkt = some pkt :=
            pass_of_not_lookup (ingress1Apply_idle tables scratch1) hother hparsed _
          have hlast : egress0 crc32Hash tables pkt = some pkt :=
            pass_of_not_lookup (egress0Apply_idle crc32Hash tables) hother hparsed _
          simp only [pipeline, egress1, Option.bind_eq_bind, Option.bind_some, hfirst, hsecond,
            hlast, Option.isSome_some, if_true]
    refine ⟨hpipeline, fun hlen => ?_⟩
    rw [hpipeline, if_pos (parser_isSome scratch0.fbt hlen)]

/-! ## A lookup in three nodes -/

/-- `HashAlgorithm_t.CRC32`, a byte at a time with its lowest bit first. -/
def hashCrc32 (bits : Bits) : BitVec 32 :=
  ~~~((packBytes (bits.length / 8) bits).foldl
    (fun crc byte => (List.range 8).foldl
      (fun crc _ => if crc.getLsbD 0 then (crc >>> 1) ^^^ 0xEDB88320 else crc >>> 1)
      (crc ^^^ byte.setWidth 32))
    0xFFFFFFFF)

/-- A root, an inner node and a leaf with as many children as keys. -/
def threeNodes : List (Nat × SwitchNode) :=
  [(1, ⟨0x10, [5, 2 ^ 32], [0x20, 0x30, 0x40], by decide, by decide, by decide, by decide⟩),
    (2, ⟨0x30, [9], [0x50, 0x60], by decide, by decide, by decide, by decide⟩),
    (3, ⟨0x50, [6, 8], [0x70, 0x80], by decide, by decide, by decide, by decide⟩)]

/-- A lookup of key 9. -/
def lookupNine : Message where
  ethernet := ⟨0x0c42a1b2c3d4, 0x0c42a1b2c3d5, etherTypeIpv4⟩
  ipv4 := ⟨4, 5, 0, 0, 60, 1, 2, 0, 64, ipProtoUdp, 0x1234, 0x0a000001, 0x0a000002⟩
  udp := ⟨50000, 4791, 40, 0⟩
  ibBth := ⟨12, 0, 1, 0, 0, 0xffff, 0, 17, 1, 0, 3⟩
  ibReth := ⟨9, 0, 64⟩
  ibIcrc := ⟨0⟩
  payload := []

example : hashCrc32 (bytesBits [0x31, 0x32, 0x33, 0x34, 0x35, 0x36, 0x37, 0x38, 0x39]) =
    0xCBF43926 := by
  decide +kernel

/-- Key 9 is above both keys of the leaf, which gives the last child. -/
theorem pipeline_eq_three_nodes : ∃ tables,
    config ⟨[⟨none, 0, 0xffff, 0, some 0⟩], [], [], []⟩ [0x10] 0x77 (fileLines threeNodes) =
        some tables ∧
      ∀ scratch0 scratch1, pipeline hashCrc32 tables scratch0 scratch1 lookupNine.bits =
        some (Message.bits { lookupNine with
          ibReth := ⟨0x80, 0x77, 64⟩
          ibIcrc := ⟨0x6e94fb32⟩ }) := by
  obtain ⟨tables, hconfig, hpipeline⟩ := pipeline_eq hashCrc32
    ⟨[⟨none, 0, 0xffff, 0, some 0⟩], [], [], []⟩ [0x10] 0x77 threeNodes (by decide) (by decide)
  refine ⟨tables, hconfig, ?_⟩
  intro scratch0 scratch1
  have hlookup : lookupNine.IsLookup := ⟨rfl, rfl, rfl, rfl, rfl⟩
  have hcrc : crc32revs (hashCrc32 (crc32Input lookupNine.ipv4 lookupNine.udp lookupNine.ibBth
      ⟨0x80, 0x77, 64⟩)) = 0x6e94fb32 := by
    decide +kernel
  rw [← hcrc]
  exact (hpipeline scratch0 scratch1).1 lookupNine hlookup

end FatBTree.Rdma
