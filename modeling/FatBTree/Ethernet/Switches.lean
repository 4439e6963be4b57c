import FatBTree.Ethernet.Cluster
import FatBTree.Sram.Loader
import FatBTree.Tcam.Exact

/-!
# The two switches

The first switch looks a key up in the merged fat roots, and the second makes two steps
through the copies of nodes.  Both are configured from files that the servers printed.
-/

namespace FatBTree.Ethernet

open FatBTree.P4 FatBTree.Sram FatBTree.Switch FatBTree.Wire
open FatBTree.Sram.NodeInfo (PrintedNode KeyName ServerFile)

/-! ## The programs -/

/-- What `config.py` leaves in the first switch, and the keys that `match_table` has read. -/
structure TcamConfig where
  tables : Tcam.Tables
  setAddrTable : List (BitVec 48)
  keys : List Nat

def TcamConfig.empty : TcamConfig := ⟨.empty, [], []⟩

/-- The tables of `FBT_TCAM.p4` on a valid `fbt` header. -/
def TcamConfig.apply (config : TcamConfig) (found : Tcam.Meta) (fbt : QuarterHeader) :
    QuarterHeader :=
  let key := fbt.key1 ++ fbt.key2 ++ fbt.key3 ++ fbt.key4
  match config.setAddrTable[(Tcam.ingressApply config.tables key found).1.result]? with
  | some addr => { fbt with fbtIdx := addr }
  | none => fbt

/-- `Ingress` of `FBT_TCAM.p4` between its parser and its deparser.  The set-up of the ports
is left out. -/
def tcamIngress (config : TcamConfig) (found : Tcam.Meta) (pkt : Bits) : Option Bits := do
  let (hdr, payload) ← ingressParser quartersH pkt
  return ingressDeparser quartersH { hdr with fbt := hdr.fbt.map (config.apply found) } payload

/-- `Ingress` of `FBT_SRAM.p4` between its parser and its deparser. -/
def sramIngress (tables : Sram.Tables) (scratch : Fin 4 → MetaVar) (pkt : Bits) : Option Bits := do
  let (hdr, payload) ← ingressParser halvesH pkt
  let fbt := hdr.fbt.map fun fbt => (Sram.ingressApply tables (parseFbt fbt scratch)).hdr
  return ingressDeparser halvesH { hdr with fbt := fbt } payload

/-- The way to the servers; metadata may hold anything before. -/
def forward (config : TcamConfig) (tables : Sram.Tables) (found : Tcam.Meta)
    (scratch : Fin 4 → MetaVar) (pkt : Bits) : Option Bits := do
  let pkt ← tcamIngress config found pkt
  sramIngress tables scratch pkt

/-- The way back to the clients. -/
def backward (config : TcamConfig) (tables : Sram.Tables) (found : Tcam.Meta)
    (scratch : Fin 4 → MetaVar) (pkt : Bits) : Option Bits := do
  let pkt ← sramIngress tables scratch pkt
  tcamIngress config found pkt

/-! ## The files -/

section Files

variable (schema : Schema) (config : Backend.Config) (part : Fin 4)

/-- The number that `print_info` writes for a node. -/
def nodeNumber (n : Nat) : BitVec 64 :=
  printedAddr (serverMask part) config.pool (nodeAddr config.pool n)

/-- The index of a node in the header. -/
def nodeIdx (n : Nat) : BitVec 48 :=
  (nodeNumber config part n).setWidth 48

/-- `node_info_0.txt`. -/
def rootFile (file : Snapshot (Fin (2 ^ 64))) : List Char :=
  Text.unlines (Tcam.printInfo (file.fat.keys.map BitVec.ofFin)
    (file.fat.children.map (nodeNumber config part)))

/-- The key string with a number. -/
def keyName (x : Fin (2 ^ 64)) : KeyName where
  front := ['u', 's', 'e', 'r', 't', 'a', 'b', 'l', 'e', 'u', 's', 'e', 'r']
  zeroPadding := schema.zeroPadding
  number := BitVec.ofFin x
  front_length := rfl

/-- A copy as `print_info` has it; every copy has children. -/
def printedNode (depth : BitVec 32) (entry : Entry (Fin (2 ^ 64))) : Option PrintedNode :=
  if hne : entry.children = [] then none
  else some
    { address := if entry.node = Tree.root then none else some (nodeIdx config part entry.node)
      depth := depth
      keys := entry.keys.map (keyName schema)
      children := entry.children.map (nodeIdx config part)
      children_ne_nil := by simpa using hne }

def printedLayer (depth : BitVec 32) (layer : List (Entry (Fin (2 ^ 64)))) : List PrintedNode :=
  layer.filterMap (printedNode schema config part depth)

theorem depth_of_mem_printedLayer {depth : BitVec 32} {layer : List (Entry (Fin (2 ^ 64)))}
    {node : PrintedNode} (hnode : node ∈ printedLayer schema config part depth layer) :
    node.depth = depth := by
  obtain ⟨entry, -, hentry⟩ := List.mem_filterMap.mp hnode
  rw [printedNode] at hentry
  split at hentry
  · cases hentry
  · cases hentry
    rfl

/-- `node_info_1.txt` with the two layers below the fat root.  Without a layer it is not
opened. -/
def layerFile (file : Snapshot (Fin (2 ^ 64))) : Option ServerFile :=
  match file.layers with
  | [] => none
  | first :: rest => some
      { ones := printedLayer schema config part 1 first
        twos := printedLayer schema config part 2 (rest.headD [])
        ones_depth := fun _ => depth_of_mem_printedLayer schema config part
        twos_depth := fun _ => depth_of_mem_printedLayer schema config part }

end Files

/-! ## The scripts -/

/-- `get_keys.py`, `match_table` and `config.py` on the files of four servers. -/
def configTcam (config : Fin 4 → Backend.Config) (fat : Fin 4 → Snapshot (Fin (2 ^ 64))) :
    Option TcamConfig := do
  let keyinfo ← Tcam.getKeys fun part => rootFile (config part) part (fat part)
  let tables ← Tcam.config (Tcam.matchTable keyinfo)
  let addrs ← Tcam.setAddrTable keyinfo
  return ⟨tables, addrs.map (BitVec.ofNat 48), Tcam.readKeys keyinfo.length keyinfo⟩

/-- `FBT_SRAM.py` on the files of four servers. -/
def configSram (schema : Schema) (config : Fin 4 → Backend.Config)
    (low : Fin 4 → Snapshot (Fin (2 ^ 64))) : Option Sram.Tables := do
  let file1 ← layerFile schema (config 0) 0 (low 0)
  let file2 ← layerFile schema (config 1) 1 (low 1)
  let file3 ← layerFile schema (config 2) 2 (low 2)
  let file4 ← layerFile schema (config 3) 3 (low 3)
  NodeInfo.configTables file1 file2 file3 file4

/-! ## What the programs leave alone -/

/-- A packet with `msg_type` 0x0527 that is long enough for its headers. -/
structure IsQuery (pkt : Bits) : Prop where
  long : 488 ≤ pkt.length
  msgType : (pkt.drop 336).take 32 = wordBits (0x0527 : BitVec 32)

/-- The packet with another `fbt_idx`. -/
def setIdx (pkt : Bits) (idx : BitVec 48) : Bits :=
  pkt.take 440 ++ (wordBits idx ++ pkt.drop 488)

/-- Nothing but the index of a query has changed. -/
def IndexOnly (pkt out : Bits) : Prop :=
  out = pkt ∨ IsQuery pkt ∧ ∃ idx, out = setIdx pkt idx

/-- A switch drops just what its parser rejects, and a packet that leaves it is as it came, or
it is a query and its index has changed. -/
structure WritesIndexOnly {φ : Type} (fbtH : Codec φ) (program : Bits → Option Bits) : Prop where
  accepts : ∀ pkt, (program pkt).isSome = true ↔ (ingressParser fbtH pkt).isSome = true
  indexOnly : ∀ pkt out, program pkt = some out → IndexOnly pkt out

/-- A program that changes the `fbt` header when it is valid. -/
def ingressPass {φ : Type} (fbtH : Codec φ) (change : φ → φ) (pkt : Bits) : Option Bits := do
  let (hdr, payload) ← ingressParser fbtH pkt
  return ingressDeparser fbtH { hdr with fbt := hdr.fbt.map change } payload

section Frame

variable {φ : Type} {fbtH : Codec φ} {pkt out payload : Bits} {hdr : Headers φ} {fbt : φ}

/-- The deparser writes back what the parser has read. -/
theorem ingressDeparser_of_parsed (parsed : ingressParser fbtH pkt = some (hdr, payload)) :
    ingressDeparser fbtH hdr payload = pkt := by
  simp only [ingressParser, Option.bind_eq_bind] at parsed
  obtain ⟨⟨ethernet, rest⟩, hethernet, hrest⟩ := Option.bind_eq_some_iff.mp parsed
  rw [ethernetH.emit_extract _ _ _ hethernet]
  dsimp only at hrest
  split at hrest
  · obtain ⟨⟨ipv4, rest⟩, hipv4, hrest⟩ := Option.bind_eq_some_iff.mp hrest
    rw [ipv4H.emit_extract _ _ _ hipv4]
    dsimp only at hrest
    split at hrest
    · obtain ⟨⟨udp, rest⟩, hudp, hrest⟩ := Option.bind_eq_some_iff.mp hrest
      rw [udpH.emit_extract _ _ _ hudp]
      dsimp only at hrest
      obtain ⟨⟨msg, rest⟩, hmsg, hrest⟩ := Option.bind_eq_some_iff.mp hrest
      rw [msgH.emit_extract _ _ _ hmsg]
      dsimp only at hrest
      split at hrest
      · obtain ⟨⟨fbt, rest⟩, hfbt, hrest⟩ := Option.bind_eq_some_iff.mp hrest
        rw [fbtH.emit_extract _ _ _ hfbt]
        cases hrest
        rfl
      · cases hrest
        rfl
    · cases hrest
      rfl
  · cases hrest
    rfl

/-- The headers of a packet with a valid `fbt` header. -/
theorem headers_of_parsed (parsed : ingressParser fbtH pkt = some (hdr, payload))
    (valid : hdr.fbt = some fbt) :
    ∃ ethernet ipv4 udp pid, hdr = queryHeaders ethernet ipv4 udp pid fbt := by
  simp only [ingressParser, Option.bind_eq_bind] at parsed
  obtain ⟨⟨ethernet, rest⟩, -, hrest⟩ := Option.bind_eq_some_iff.mp parsed
  dsimp only at hrest
  split at hrest
  · next htype =>
    obtain ⟨⟨ipv4, rest⟩, -, hrest⟩ := Option.bind_eq_some_iff.mp hrest
    dsimp only at hrest
    split at hrest
    · next hprotocol =>
      obtain ⟨⟨udp, rest⟩, -, hrest⟩ := Option.bind_eq_some_iff.mp hrest
      dsimp only at hrest
      obtain ⟨⟨⟨msgType, pid⟩, rest⟩, -, hrest⟩ := Option.bind_eq_some_iff.mp hrest
      dsimp only at hrest
      split at hrest
      · next hmsg =>
        obtain ⟨⟨fbt', rest⟩, -, hrest⟩ := Option.bind_eq_some_iff.mp hrest
        cases hrest
        cases valid
        subst hmsg
        refine ⟨ethernet, ipv4, udp, pid, ?_⟩
        have hudp : ipProtoUdp = 17 := rfl
        rw [queryHeaders, ← htype, hudp, ← hprotocol]
      · cases hrest
        cases valid
    · cases hrest
      cases valid
  · cases hrest
    cases valid

/-- The bits before the index of a query. -/
def queryFront (ethernet : EthernetH) (ipv4 : Ipv4H) (udp : UdpH) (pid : BitVec 8)
    (key : BitVec 64) : Bits :=
  ethernetH.emit { ethernet with etherType := etherTypeIpv4 } ++
    (ipv4H.emit { ipv4 with protocol := ipProtoUdp } ++
      (udpH.emit udp ++ (msgH.emit ⟨0x0527, pid⟩ ++ wordBits key)))

variable {ethernet : EthernetH} {ipv4 : Ipv4H} {udp : UdpH} {pid : BitVec 8} {key : BitVec 64}
  {idx : BitVec 48}

theorem length_queryFront : (queryFront ethernet ipv4 udp pid key).length = 440 := by
  simp [queryFront, ethernetH, ipv4H, udpH, msgH, Codec.as, Codec.pair, Codec.field]

theorem msgType_queryFront :
    ((queryFront ethernet ipv4 udp pid key).drop 336).take 32 = wordBits (0x0527 : BitVec 32) := by
  have hmsg : msgH.emit ⟨0x0527, pid⟩ = wordBits (0x0527 : BitVec 32) ++ wordBits pid := rfl
  have hhead : (ethernetH.emit { ethernet with etherType := etherTypeIpv4 } ++
      (ipv4H.emit { ipv4 with protocol := ipProtoUdp } ++ udpH.emit udp)).length = 336 := by
    simp [ethernetH, ipv4H, udpH, Codec.as, Codec.pair, Codec.field]
  have hfront : queryFront ethernet ipv4 udp pid key =
      (ethernetH.emit { ethernet with etherType := etherTypeIpv4 } ++
        (ipv4H.emit { ipv4 with protocol := ipProtoUdp } ++ udpH.emit udp)) ++
      (wordBits (0x0527 : BitVec 32) ++ (wordBits pid ++ wordBits key)) := by
    rw [queryFront, hmsg]
    simp only [List.append_assoc]
  rw [hfront, List.drop_left' hhead, List.take_left' (length_wordBits _)]

theorem deparsed_query (hemit : fbtH.emit fbt = wordBits key ++ wordBits idx) :
    ingressDeparser fbtH (queryHeaders ethernet ipv4 udp pid fbt) payload =
      queryFront ethernet ipv4 udp pid key ++ (wordBits idx ++ payload) := by
  simp only [ingressDeparser, queryHeaders, emitValid, Option.elim_some, hemit, queryFront,
    List.append_assoc]

theorem isQuery_front : IsQuery (queryFront ethernet ipv4 udp pid key ++
    (wordBits idx ++ payload)) where
  long := by
    rw [List.length_append, List.length_append, length_queryFront, length_wordBits]
    omega
  msgType := by
    have hlen := @length_queryFront ethernet ipv4 udp pid key
    rw [List.drop_append_of_le_length (by omega), List.take_append_of_le_length (by
      rw [List.length_drop]
      omega)]
    exact msgType_queryFront

theorem setIdx_front (idx' : BitVec 48) :
    setIdx (queryFront ethernet ipv4 udp pid key ++ (wordBits idx ++ payload)) idx' =
      queryFront ethernet ipv4 udp pid key ++ (wordBits idx' ++ payload) := by
  have hdrop : (queryFront ethernet ipv4 udp pid key ++ (wordBits idx ++ payload)).drop 488 =
      payload := by
    rw [← List.append_assoc]
    refine List.drop_left' ?_
    rw [List.length_append, length_queryFront, length_wordBits]
  rw [setIdx, List.take_left' length_queryFront, hdrop]

/-- A switch parses what another has deparsed. -/
theorem ingressParser_deparsed {ψ : Type} {sentH : Codec ψ} {sent : ψ}
    (hemit : sentH.emit sent = fbtH.emit fbt) :
    ingressParser fbtH (ingressDeparser sentH (queryHeaders ethernet ipv4 udp pid sent) payload) =
      some (queryHeaders ethernet ipv4 udp pid fbt, payload) := by
  have hudp : ipProtoUdp = 17 := rfl
  have hsent : ingressDeparser sentH (queryHeaders ethernet ipv4 udp pid sent) payload =
      ingressDeparser fbtH (queryHeaders ethernet ipv4 udp pid fbt) payload := by
    simp only [ingressDeparser, queryHeaders, emitValid, Option.elim_some, hemit]
  rw [hsent]
  simp [ingressParser, ingressDeparser, emitValid, Codec.extract_emit, queryHeaders, hudp]

/-- A packet without an `fbt` header is parsed by the other switch too. -/
theorem ingressParser_of_none {ψ : Type} (otherH : Codec ψ)
    (parsed : ingressParser fbtH pkt = some (hdr, payload)) (hnone : hdr.fbt = none) :
    (ingressParser otherH pkt).isSome = true := by
  simp only [ingressParser, Option.bind_eq_bind] at parsed ⊢
  obtain ⟨⟨ethernet, rest⟩, hethernet, hrest⟩ := Option.bind_eq_some_iff.mp parsed
  rw [hethernet, Option.bind_some]
  dsimp only at hrest ⊢
  split at hrest
  · next htype =>
    obtain ⟨⟨ipv4, rest⟩, hipv4, hrest⟩ := Option.bind_eq_some_iff.mp hrest
    rw [if_pos htype, hipv4, Option.bind_some]
    dsimp only at hrest ⊢
    split at hrest
    · next hprotocol =>
      obtain ⟨⟨udp, rest⟩, hudp, hrest⟩ := Option.bind_eq_some_iff.mp hrest
      rw [if_pos hprotocol, hudp, Option.bind_some]
      dsimp only at hrest ⊢
      obtain ⟨⟨msg, rest⟩, hmsg, hrest⟩ := Option.bind_eq_some_iff.mp hrest
      rw [hmsg, Option.bind_some]
      dsimp only at hrest ⊢
      split at hrest
      · obtain ⟨⟨fbt, rest⟩, -, hrest⟩ := Option.bind_eq_some_iff.mp hrest
        cases hrest
        cases hnone
      · next hother =>
        rw [if_neg hother]
        rfl
    · next hother =>
      rw [if_neg hother]
      rfl
  · next hother =>
    rw [if_neg hother]
    rfl

/-- The parser accepts every packet with room for all the headers. -/
theorem ingressParser_isSome (takes : fbtH.Takes 112) (hlen : 488 ≤ pkt.length) :
    (ingressParser fbtH pkt).isSome = true := by
  obtain ⟨ethernet, pkt1, hethernet, hpkt1⟩ := takes_ethernetH pkt (by omega)
  obtain ⟨ipv4, pkt2, hipv4, hpkt2⟩ := takes_ipv4H pkt1 (by omega)
  obtain ⟨udp, pkt3, hudp, hpkt3⟩ := takes_udpH pkt2 (by omega)
  obtain ⟨msg, pkt4, hmsg, hpkt4⟩ := takes_msgH pkt3 (by omega)
  obtain ⟨fbt, pkt5, hfbt, -⟩ := takes pkt4 (by omega)
  simp only [ingressParser, hethernet, hipv4, hudp, hmsg, hfbt, Option.bind_eq_bind,
    Option.bind_some, Option.pure_def]
  split_ifs <;> rfl

theorem ingressPass_writesIndexOnly {change : φ → φ}
    (hchange : ∀ fbt, ∃ (key : BitVec 64) (idx idx' : BitVec 48),
      fbtH.emit fbt = wordBits key ++ wordBits idx ∧
      fbtH.emit (change fbt) = wordBits key ++ wordBits idx') :
    WritesIndexOnly fbtH (ingressPass fbtH change) := by
  constructor
  case accepts =>
    intro pkt
    constructor
    · intro hsome
      obtain ⟨out, hrun⟩ := Option.isSome_iff_exists.mp hsome
      obtain ⟨found, parsed, -⟩ := Option.bind_eq_some_iff.mp hrun
      rw [parsed]
      rfl
    · intro hsome
      obtain ⟨⟨hdr, payload⟩, parsed⟩ := Option.isSome_iff_exists.mp hsome
      have hrun : ingressPass fbtH change pkt = some (ingressDeparser fbtH
          { hdr with fbt := hdr.fbt.map change } payload) := by
        rw [ingressPass, parsed]
        rfl
      rw [hrun]
      rfl
  case indexOnly =>
    intro pkt out hrun
    obtain ⟨⟨hdr, payload⟩, parsed, hout⟩ := Option.bind_eq_some_iff.mp hrun
    obtain rfl := Option.some.inj hout
    have hback := ingressDeparser_of_parsed parsed
    cases hvalid : hdr.fbt with
    | none =>
        rw [Option.map_none, ← hvalid]
        exact Or.inl hback
    | some fbt =>
        obtain ⟨ethernet, ipv4, udp, pid, rfl⟩ := headers_of_parsed parsed hvalid
        obtain ⟨key, idx, idx', hbefore, hafter⟩ := hchange fbt
        have hout : ingressDeparser fbtH { queryHeaders ethernet ipv4 udp pid fbt with
            fbt := (some fbt).map change } payload =
            ingressDeparser fbtH (queryHeaders ethernet ipv4 udp pid (change fbt)) payload := rfl
        rw [hout, ← hback, deparsed_query hbefore, deparsed_query hafter]
        exact Or.inr ⟨isQuery_front, idx', (setIdx_front idx').symm⟩

/-- The next switch accepts what a switch has sent. -/
theorem ingressPass_relayed {ψ : Type} {nextH : Codec ψ} {change : φ → φ}
    (hrelay : ∀ fbt : φ, ∃ next : ψ, fbtH.emit fbt = nextH.emit next)
    (hrun : ingressPass fbtH change pkt = some out) :
    (ingressParser nextH out).isSome = true := by
  obtain ⟨⟨hdr, payload⟩, parsed, hout⟩ := Option.bind_eq_some_iff.mp hrun
  obtain rfl := Option.some.inj hout
  cases hvalid : hdr.fbt with
  | none =>
      rw [Option.map_none, ← hvalid]
      have hback : ingressDeparser fbtH { hdr with fbt := hdr.fbt } payload = pkt :=
        ingressDeparser_of_parsed parsed
      rw [hback]
      exact ingressParser_of_none nextH parsed hvalid
  | some fbt =>
      obtain ⟨ethernet, ipv4, udp, pid, rfl⟩ := headers_of_parsed parsed hvalid
      obtain ⟨next, hemit⟩ := hrelay (change fbt)
      have hnext : ingressParser nextH (ingressDeparser fbtH
          (queryHeaders ethernet ipv4 udp pid (change fbt)) payload) =
          some (queryHeaders ethernet ipv4 udp pid next, payload) :=
        ingressParser_deparsed hemit
      exact congrArg Option.isSome hnext

theorem IndexOnly.trans {first second third : Bits} (left : IndexOnly first second)
    (right : IndexOnly second third) : IndexOnly first third := by
  rcases left with rfl | ⟨query, idx, rfl⟩
  · exact right
  · have htake : (first.take 440).length = 440 := by
      have hlong := query.long
      rw [List.length_take]
      omega
    rcases right with rfl | ⟨-, idx', rfl⟩
    · exact Or.inr ⟨query, idx, rfl⟩
    · refine Or.inr ⟨query, idx', ?_⟩
      have hdrop : (setIdx first idx).drop 488 = first.drop 488 := by
        rw [setIdx, ← List.append_assoc]
        refine List.drop_left' ?_
        rw [List.length_append, htake, length_wordBits]
      rw [setIdx, hdrop, setIdx, List.take_left' htake]
      rfl

/-- The tables write the index and no key. -/
theorem ingressApply_hdr (tables : Sram.Tables) (packet : Packet) :
    (Sram.ingressApply tables packet).hdr.keyHi = packet.hdr.keyHi ∧
      (Sram.ingressApply tables packet).hdr.keyLo = packet.hdr.keyLo := by
  have hfirst : ∀ packet : Packet, (applyResultTable tables packet).hdr.keyHi = packet.hdr.keyHi ∧
      (applyResultTable tables packet).hdr.keyLo = packet.hdr.keyLo := by
    intro packet
    rw [applyResultTable]
    split <;> exact ⟨rfl, rfl⟩
  have hsecond : ∀ packet : Packet, (applyResultTable2 tables packet).hdr.keyHi =
      packet.hdr.keyHi ∧ (applyResultTable2 tables packet).hdr.keyLo = packet.hdr.keyLo := by
    intro packet
    rw [applyResultTable2]
    split <;> exact ⟨rfl, rfl⟩
  rw [Sram.ingressApply]
  constructor
  · exact (hsecond _).1.trans (hfirst _).1
  · exact (hsecond _).2.trans (hfirst _).2

theorem append_keyHalves (key : BitVec 64) : keyHi key ++ keyLo key = key := by
  have hall : key.extractLsb' 32 32 ++ key.extractLsb' 0 32 = key.extractLsb' 0 64 :=
    BitVec.extractLsb'_append_extractLsb'_eq_extractLsb' rfl
  rw [keyHi, keyLo, hall, BitVec.extractLsb'_eq_self]

theorem forward_some {config : TcamConfig} {tables : Sram.Tables} {found : Tcam.Meta}
    {scratch : Fin 4 → MetaVar} {pkt middle out : Bits}
    (hfirst : tcamIngress config found pkt = some middle)
    (hsecond : sramIngress tables scratch middle = some out) :
    forward config tables found scratch pkt = some out := by
  rw [forward, hfirst]
  exact hsecond

theorem backward_some {config : TcamConfig} {tables : Sram.Tables} {found : Tcam.Meta}
    {scratch : Fin 4 → MetaVar} {pkt middle out : Bits}
    (hfirst : sramIngress tables scratch pkt = some middle)
    (hsecond : tcamIngress config found middle = some out) :
    backward config tables found scratch pkt = some out := by
  rw [backward, hfirst]
  exact hsecond

/-- One switch after the other. -/
theorem WritesIndexOnly.comp {ψ : Type} {nextH : Codec ψ} {first next : Bits → Option Bits}
    (writes : WritesIndexOnly fbtH first) (writesNext : WritesIndexOnly nextH next)
    (relayed : ∀ pkt out, first pkt = some out → (ingressParser nextH out).isSome = true) :
    WritesIndexOnly fbtH fun pkt => (first pkt).bind next := by
  constructor
  case accepts =>
    intro pkt
    rw [← writes.accepts pkt]
    cases hfirst : first pkt with
    | none => rfl
    | some middle =>
        have hnext := (writesNext.accepts middle).mpr (relayed pkt middle hfirst)
        rw [Option.bind_some, hnext]
        rfl
  case indexOnly =>
    intro pkt out hrun
    obtain ⟨middle, hfirst, hnext⟩ := Option.bind_eq_some_iff.mp hrun
    exact (writes.indexOnly pkt middle hfirst).trans (writesNext.indexOnly middle out hnext)

theorem tcamIngress_writesIndexOnly (config : TcamConfig) (found : Tcam.Meta) :
    WritesIndexOnly quartersH (tcamIngress config found) := by
  refine ingressPass_writesIndexOnly fun fbt => ?_
  rw [TcamConfig.apply]
  split
  · exact ⟨_, _, _, quartersH_emit fbt, quartersH_emit _⟩
  · exact ⟨_, _, _, quartersH_emit fbt, quartersH_emit fbt⟩

theorem sramIngress_writesIndexOnly (tables : Sram.Tables) (scratch : Fin 4 → MetaVar) :
    WritesIndexOnly halvesH (sramIngress tables scratch) := by
  refine ingressPass_writesIndexOnly fun fbt => ?_
  obtain ⟨hhi, hlo⟩ := ingressApply_hdr tables (parseFbt fbt scratch)
  refine ⟨fbt.keyHi ++ fbt.keyLo, fbt.fbtIdx,
    (Sram.ingressApply tables (parseFbt fbt scratch)).hdr.fbtIdx, halvesH_emit fbt, ?_⟩
  rw [halvesH_emit, hhi, hlo]
  rfl

/-- The two layouts of the header are the same bits. -/
theorem quarters_relay (fbt : QuarterHeader) :
    ∃ next : FbtHeader, quartersH.emit fbt = halvesH.emit next := by
  refine ⟨⟨keyHi (fbt.key1 ++ fbt.key2 ++ fbt.key3 ++ fbt.key4),
    keyLo (fbt.key1 ++ fbt.key2 ++ fbt.key3 ++ fbt.key4), fbt.fbtIdx⟩, ?_⟩
  rw [quartersH_emit, halvesH_emit, append_keyHalves]

theorem halves_relay (fbt : FbtHeader) :
    ∃ next : QuarterHeader, halvesH.emit fbt = quartersH.emit next := by
  let key := fbt.keyHi ++ fbt.keyLo
  refine ⟨⟨key.extractLsb' 48 16, key.extractLsb' 32 16, key.extractLsb' 16 16,
    key.extractLsb' 0 16, fbt.fbtIdx⟩, ?_⟩
  rw [quartersH_emit, halvesH_emit, append_quarters]

/-- Whatever is in the tables, the switches drop on either way just what the first parser
rejects, and no packet with room for all the headers, and they write nothing but the index of
a query. -/
theorem switches_writeIndexOnly (config : TcamConfig) (tables : Sram.Tables) (found : Tcam.Meta)
    (scratch : Fin 4 → MetaVar) :
    WritesIndexOnly quartersH (forward config tables found scratch) ∧
      WritesIndexOnly halvesH (backward config tables found scratch) ∧
      ∀ pkt : Bits, 488 ≤ pkt.length → (ingressParser quartersH pkt).isSome = true ∧
        (ingressParser halvesH pkt).isSome = true := by
  have first := tcamIngress_writesIndexOnly config found
  have second := sramIngress_writesIndexOnly tables scratch
  refine ⟨?_, ?_, fun pkt hlen => ⟨?_, ?_⟩⟩
  · exact first.comp second fun pkt out => ingressPass_relayed quarters_relay
  · exact second.comp first fun pkt out => ingressPass_relayed halves_relay
  · exact ingressParser_isSome takes_quartersH hlen
  · exact ingressParser_isSome takes_halvesH hlen

end Frame

end FatBTree.Ethernet
