import FatBTree.Ethernet.Packets
import FatBTree.Rdma.RangeLookup
import FatBTree.Rdma.Requests
import FatBTree.Rdma.SwitchNodes
import FatBTree.Switch.FatRoot
import FatBTree.Switch.Layers
import FatBTree.Tree.Height
import FatBTree.Workload.KeyName

/-!
# A read through the RDMA switch

The server prints its tree, three scripts fill the tables of the switch, and a read leaves
the switch with the address of a node.  Whatever happens to the tree afterwards, `RDMARead`
ends at the value node of the key when it starts there.
-/

namespace FatBTree.Rdma

open FatBTree.Order FatBTree.P4 FatBTree.Sram FatBTree.Switch FatBTree.Tree FatBTree.Workload

/-! ## The scripts -/

/-- `config.sh` and `config.py` on what the server printed. -/
def configSwitch {κ : Type} (number : κ → BitVec 64) (address : Nat → BitVec 48)
    (remoteAddr : BitVec 64) (remoteStag : BitVec 32) (snapshot : Snapshot κ) (rest : List Char) :
    Option SwitchTables := do
  let keysInfo ← ConfigKeys.configKeys (nodeText number address remoteAddr remoteStag snapshot rest)
  let rangeTables ← Tcam.config (ConfigTable.configTable keysInfo)
  let addrs ← Tcam.setAddrTable keysInfo
  config rangeTables (addrs.map (BitVec.ofNat 48)) remoteStag (nodeFile number address snapshot)

section Planted

variable {κ V : Type} [LinearOrder κ] [OrderBot κ] [Inhabited V]

/-- What holds of an unmarked tree of distinct keys of one kind. -/
structure Planted (P : κ → Prop) (w : World κ V) : Prop where
  strict : Strict w
  keysIn : KeysIn P w
  occupied : Occupied 16 w

variable {P : κ → Prop} {w : World κ V} {history : List (κ × V)}

theorem Planted.insert (planted : Planted P w) (settled : Settled 16 w history) {k : κ} (v : V)
    (hnew : k ∉ keysOf history) (hk : P k) :
    ∃ w', Tree.insert 16 rdma w.state k v = some w'.state ∧
      Settled 16 w' ((k, v) :: history) ∧ Planted P w' := by
  obtain ⟨w', -, -, hinsert, hsettled, hoccupied, hstrict, hkeysIn⟩ :=
    settled.insert_closed rdma k v
      ((repairClosed_occupied rdma).and rdma
        (((stepClosed_strict rdma).and rdma (stepClosed_keysIn rdma (P := P))).repairClosed rdma))
      (fun leaf _ hlt hleaf holds => ⟨planted.occupied.grown rdma hlt hleaf v,
        planted.strict.grown rdma v hlt hleaf holds
          fun hmem => hnew (settled.contents.recorded leaf k hleaf hmem),
        planted.keysIn.grown rdma v hlt hk⟩)
  exact ⟨w', hinsert, hsettled, hstrict, hkeysIn, hoccupied⟩

omit [Inhabited V] in
theorem Planted.touch (planted : Planted P w) {n : Nat} (hn : n < w.state.nbNode) :
    Planted P (⟨Tree.touch w.state n, w.dist, w.bounds⟩ : World κ V) := by
  have hsame := sameTree_touch hn
  have hmark : ∀ m, ((Tree.touch w.state n).pool m).isLoaded2Switch =
      (w.state.pool m).isLoaded2Switch := by
    intro m
    rw [Tree.touch]
    simp only [Function.update_apply]
    split_ifs with heq
    · rw [heq]
    · rfl
  constructor
  case strict => exact hsame.strict planted.strict
  case keysIn =>
    intro m x hx
    rw [hsame.key] at hx
    exact planted.keysIn m x hx
  case occupied =>
    constructor
    case unmarked =>
      intro m hm
      rw [hmark] at hm
      exact planted.occupied.unmarked m hm
    case level =>
      intro m hm hleaf
      rw [hsame.nbNode] at hm
      rw [hsame.isLeaf] at hleaf
      exact planted.occupied.level m hm hleaf
    case filled =>
      intro m hm hval hroot hhole
      rw [hsame.nbNode] at hm
      rw [hsame.isValue] at hval
      rw [leastKeys, hsame.isLeaf, hsame.key]
      exact planted.occupied.filled m hm hval hroot hhole
    case rootFilled =>
      intro hinner
      rw [hsame.key]
      exact planted.occupied.rootFilled ((hsame.isInner root).mp hinner)

theorem Planted.serve_eq (planted : Planted P w) (settled : Settled 16 w history)
    (calls : List (ServerCall κ V)) (distinct : (keysOf (insertedPairs calls)).Nodup)
    (hnew : ∀ k ∈ keysOf (insertedPairs calls), k ∉ keysOf history)
    (hkeys : ∀ k ∈ keysOf (insertedPairs calls), P k) :
    ∃ w', serve 16 calls w.state = some w'.state ∧
      Settled 16 w' ((insertedPairs calls).reverse ++ history) ∧ Planted P w' := by
  induction calls generalizing w history with
  | nil => exact ⟨w, rfl, settled, planted⟩
  | cons call calls ih =>
      cases call with
      | insert inKey inVal =>
          obtain ⟨hfresh, hrest⟩ := List.nodup_cons.mp distinct
          obtain ⟨next, hinsert, hsettled, hplanted⟩ := planted.insert settled inVal
            (hnew inKey List.mem_cons_self) (hkeys inKey List.mem_cons_self)
          obtain ⟨last, hserve, hlast⟩ := ih hplanted hsettled hrest
            (fun k hk hmem => by
              rcases List.mem_cons.mp hmem with rfl | hold
              · exact hfresh hk
              · exact hnew k (List.mem_cons_of_mem _ hk) hold)
            (fun k hk => hkeys k (List.mem_cons_of_mem _ hk))
          refine ⟨last, ?_, ?_⟩
          · simp only [serve, List.map_cons, run, ServerCall.toCall, Call.apply, hinsert]
            exact hserve
          · simpa [insertedPairs, ServerCall.toCall, insertions] using hlast
      | visit n =>
          obtain ⟨next, happly, hsettled, hplanted⟩ : ∃ next : World κ V,
              (Call.visit n).apply 16 rdma w.state = some next.state ∧
                Settled 16 next history ∧ Planted P next := by
            by_cases hn : n < w.state.nbNode
            · refine ⟨⟨Tree.touch w.state n, w.dist, w.bounds⟩, ?_,
                (sameTree_touch hn).settled settled, planted.touch hn⟩
              simp [Call.apply, hn]
            · exact ⟨w, by simp [Call.apply, hn], settled, planted⟩
          obtain ⟨last, hserve, hlast⟩ := ih hplanted hsettled distinct hnew hkeys
          refine ⟨last, ?_, hlast⟩
          simp only [serve, List.map_cons, run, ServerCall.toCall, happly]
          exact hserve

end Planted

/-! ## The layers of a load -/

section Layers

variable {κ V : Type} [LinearOrder κ] [OrderBot κ] [Inhabited V] {P : κ → Prop} {w : World κ V}
  {history : List (κ × V)} {ties : Ties} {loadNum : Nat}

/-- The numbers of the keys are in the order of the keys. -/
def Numbers (P : κ → Prop) (number : κ → BitVec 64) : Prop :=
  ∀ x y, P x → P y → (number x < number y ↔ x < y)

omit [OrderBot κ] in
theorem Numbers.pairwise_le {number : κ → BitVec 64} (numbers : Numbers P number) {keys : List κ}
    (hkeys : ∀ x ∈ keys, P x) (sorted : Ascending keys) :
    (keys.map number).Pairwise (· ≤ ·) := by
  rw [List.pairwise_map]
  refine sorted.imp_of_mem fun {x y} hx hy hle => ?_
  refine BitVec.not_lt.mp fun hlt => ?_
  exact absurd ((numbers y x (hkeys y hy) (hkeys x hx)).mp hlt) (not_lt_of_ge hle)

/-- Every node but the root can be printed for the switch. -/
theorem Planted.printable (planted : Planted P w) (settled : Settled 16 w history)
    {number : κ → BitVec 64} (numbers : Numbers P number) {n : Nat} (hlt : n < w.state.nbNode)
    (hval : (w.state.pool n).isValue = false) (hne : n ≠ root) :
    Printable number (nodeEntry w.state n) := by
  have shape := settled.shape
  constructor
  case ne_root => exact hne
  case sorted => exact numbers.pairwise_le (planted.keysIn n) (settled.ordered.sorted n)
  case few => exact Nat.le_of_lt_succ (settled.small n)
  case children_ne_nil =>
    have hhalf := planted.occupied.half_le_children shape hlt hval hne
    exact List.ne_nil_of_length_pos (Nat.lt_of_lt_of_le (by decide) hhalf)
  case children_length =>
    cases hleaf : (w.state.pool n).isLeaf with
    | true => exact Or.inr (shape.leaf_arity n hleaf)
    | false => exact Or.inl (shape.inner_arity n ⟨hleaf, hval⟩)

end Layers

/-! ## The loaded switch -/

section Loaded

variable {κ : Type} [LinearOrder κ] {number : κ → BitVec 64} {address : Nat → BitVec 48}

/-- What the switch is after the scripts: the address tables, the start of a lookup and
the nodes of the layers. -/
structure Configured (number : κ → BitVec 64) (address : Nat → BitVec 48)
    (remoteStag : BitVec 32) (snapshot : Snapshot κ) (tables : SwitchTables) (addrs : List (BitVec 48))
    (rangeTables : Tcam.Tables) (file : List (Nat × SwitchNode)) : Prop where
  loaded : tables.Loaded rangeTables addrs remoteStag file
  start : ∀ found va, RangeLookup.Kept ((snapshot.fat.keys.map number).map BitVec.toNat) va.toNat →
    startAddr rangeTables addrs found va = (snapshot.fat.children.map address).getD
      (ConfigTable.below (snapshot.fat.keys.map number) va) 0
  layer : ∀ (d : Nat) layer (hlayer : ∀ entry ∈ layer, Printable number entry),
    snapshot.layers.getD d [] = layer →
      depthNodes (1 + d) file = layer.pmap (switchNode number address) hlayer

omit [LinearOrder κ] in
/-- The scripts succeed on a fat root with sorted keys and three layers of distinct nodes. -/
theorem configSwitch_eq (remoteAddr : BitVec 64) (remoteStag : BitVec 32) (rest : List Char)
    {snapshot : Snapshot κ} (sorted : (snapshot.fat.keys.map number).Pairwise (· < ·))
    (hkeys : snapshot.fat.keys ≠ []) (hchildren : snapshot.fat.children ≠ [])
    (printable : ∀ layer ∈ snapshot.layers, ∀ entry ∈ layer, Printable number entry)
    (three : ∀ d < 3, ∃ layer, snapshot.layers[d]? = some layer ∧ layer ≠ [] ∧
      (layer.map fun entry => address entry.node).Nodup) :
    ∃ tables addrs rangeTables file,
      configSwitch number address remoteAddr remoteStag snapshot rest = some tables ∧
      Configured number address remoteStag snapshot tables addrs rangeTables file := by
  obtain ⟨keysInfo, hinfo, hread, haddrs⟩ : ∃ keysInfo,
      ConfigKeys.configKeys (nodeText number address remoteAddr remoteStag snapshot rest) =
        some keysInfo ∧
      Tcam.readKeys keysInfo.length keysInfo = (snapshot.fat.keys.map number).map BitVec.toNat ∧
      Tcam.setAddrTable keysInfo = some ((snapshot.fat.children.map
        fun c => (address c).setWidth 64).map BitVec.toNat) :=
    RangeLookup.configKeys_eq remoteAddr remoteStag rest
      (sorted.imp fun hlt => BitVec.ne_of_lt hlt) (by simpa using hkeys)
  have hranges := RangeLookup.config_configTable_eq hread
  obtain ⟨file, hlines, -, hnodes⟩ := exists_file address printable 1
  have hlayer : ∀ d < 3, ∃ layer, ∃ hlayer : ∀ entry ∈ layer, Printable number entry,
      depthNodes (1 + d) file = layer.pmap (switchNode number address) hlayer ∧ layer ≠ [] ∧
        (layer.map fun entry => address entry.node).Nodup := by
    intro d hd
    obtain ⟨layer, hget, hne, hdistinct⟩ := three d hd
    have hprintable := printable layer (List.mem_of_getElem? hget)
    refine ⟨layer, hprintable, hnodes d layer hprintable ?_, hne, hdistinct⟩
    rw [List.getD_eq_getElem?_getD, hget, Option.getD_some]
  have hdepth : ∀ layer ∈ [1, 2, 3], ∃ d < 3, layer = 1 + d := by
    intro layer hmem
    simp only [List.mem_cons, List.not_mem_nil, or_false] at hmem
    exact ⟨layer - 1, by omega, by omega⟩
  have hsome : ∀ layer ∈ [1, 2, 3], depthNodes layer file ≠ [] := by
    intro layer hmem
    obtain ⟨d, hd, rfl⟩ := hdepth layer hmem
    obtain ⟨copies, hcopies, heq, hne, -⟩ := hlayer d hd
    rw [heq]
    simpa using hne
  have hdistinct : ∀ layer ∈ [1, 2, 3], ((depthNodes layer file).map SwitchNode.addr).Nodup := by
    intro layer hmem
    obtain ⟨d, hd, rfl⟩ := hdepth layer hmem
    obtain ⟨copies, hcopies, heq, -, hnodup⟩ := hlayer d hd
    rw [heq, List.map_pmap]
    simpa [switchNode] using hnodup
  obtain ⟨tables, hconfig, hloaded⟩ := config_eq
    (Tcam.printedTables (Tcam.rangelist ((snapshot.fat.keys.map number).map BitVec.toNat)))
    (snapshot.fat.children.map address) remoteStag hsome hdistinct
  obtain ⟨node, hnode⟩ := readNode_entryLines address number hchildren
  have hwhole := config_cons _ _ remoteStag hnode (hlines ▸ hconfig)
  have hback : ((snapshot.fat.children.map fun c => (address c).setWidth 64).map
      BitVec.toNat).map (BitVec.ofNat 48) = snapshot.fat.children.map address := by
    rw [List.map_map, List.map_map]
    refine List.map_congr_left fun c _ => ?_
    simp only [Function.comp_apply]
    rw [Sram.NodeInfo.toNat_setWidth_address, BitVec.ofNat_toNat, BitVec.setWidth_eq]
  refine ⟨tables, _, _, file, ?_, hloaded, fun found va kept => ?_, hnodes⟩
  · rw [configSwitch]
    simp only [hinfo, hranges, haddrs, hback, Option.bind_eq_bind, Option.bind_some]
    exact hwhole
  · obtain ⟨-, hresult⟩ := RangeLookup.lookup_of_kept kept found
    rw [startAddr, hresult, ConfigTable.below,
      ← Tcam.jAt_toNat (sorted.imp fun hlt => BitVec.le_of_lt hlt)]

variable {remoteStag : BitVec 32} {snapshot : Snapshot κ} {tables : SwitchTables}
  {addrs : List (BitVec 48)} {rangeTables : Tcam.Tables} {file : List (Nat × SwitchNode)}

/-- The three passes on a lookup. -/
theorem SwitchTables.Loaded.pipeline_lookup
    (loaded : tables.Loaded rangeTables addrs remoteStag file) (crc32Hash : Bits → BitVec 32)
    (scratch0 : Scratch) (scratch1 : Fin 4 → MetaVar) {msg : Message} (lookup : msg.IsLookup) :
    pipeline crc32Hash tables scratch0 scratch1 msg.bits =
      some (msg.answer crc32Hash remoteStag (treeAddr file msg.ibReth.va
        (startAddr rangeTables addrs scratch0.found msg.ibReth.va))).bits := by
  simp only [pipeline, Option.bind_eq_bind, ingress0_lookup loaded lookup, egress1,
    Option.bind_some, ingress1_lookup loaded lookup, egress0_lookup loaded lookup]
  rfl

/-! ## The way of a lookup -/

/-- What the switch has of a snapshot. -/
def switchPart (snapshot : Snapshot κ) : Snapshot κ where
  fat := snapshot.fat
  layers := snapshot.layers.take 3

/-- The copies in the switch, seen by a lookup of `k`. -/
structure Followed (number : κ → BitVec 64) (address : Nat → BitVec 48) (snapshot : Snapshot κ)
    (k : κ) : Prop where
  fat_order : ∀ x ∈ snapshot.fat.keys, number x < number k ↔ x < k
  printable : ∀ layer ∈ (switchPart snapshot).layers, ∀ entry ∈ layer, Printable number entry
  arity : ∀ entry ∈ (switchPart snapshot).entries,
    entry.children.length = entry.keys.length + 1
  order : ∀ entry ∈ (switchPart snapshot).entries, ∀ x ∈ entry.keys, number x < number k ↔ x < k
  apart : ∀ entry ∈ (switchPart snapshot).entries, ∀ n, Walks [switchPart snapshot] k n →
    address entry.node = address n → entry.node = n

/-- The start of a lookup is the child of the fat root. -/
theorem Configured.start_walks
    (configured : Configured number address remoteStag snapshot tables addrs rangeTables file)
    {k : κ} (followed : Followed number address snapshot k) {n : Nat}
    (hstep : snapshot.fat.childFor k = some n)
    (kept : RangeLookup.Kept ((snapshot.fat.keys.map number).map BitVec.toNat) (number k).toNat)
    (found : Tcam.Meta) : startAddr rangeTables addrs found (number k) = address n := by
  have hcount : ConfigTable.below (snapshot.fat.keys.map number) (number k) =
      countBelow snapshot.fat.keys k := by
    rw [ConfigTable.below, countBelow, List.countP_map]
    refine List.countP_congr fun x hx => ?_
    simpa using followed.fat_order x hx
  rw [configured.start found _ kept, hcount, List.getD_eq_getElem?_getD, List.getElem?_map]
  rw [Entry.childFor] at hstep
  rw [hstep]
  rfl

theorem Configured.layer_walks
    (configured : Configured number address remoteStag snapshot tables addrs rangeTables file)
    {k : κ} (followed : Followed number address snapshot k) {d n : Nat} (hd : d < 3)
    (hlayers : d < snapshot.layers.length) (walks : Walks [switchPart snapshot] k n) :
    ∃ next, layerStep (depthNodes (1 + d) file) (number k) (address n) = address next ∧
      Walks [switchPart snapshot] k next := by
  have hlayer : snapshot.layers[d] ∈ (switchPart snapshot).layers :=
    List.mem_take_iff_getElem.mpr ⟨d, by omega, rfl⟩
  have hentries : ∀ entry ∈ snapshot.layers[d], entry ∈ (switchPart snapshot).entries :=
    fun entry hentry => List.mem_flatten.mpr ⟨_, hlayer, hentry⟩
  have hprintable := followed.printable _ hlayer
  have hnodes := configured.layer d snapshot.layers[d] hprintable
    (by rw [List.getD_eq_getElem?_getD, List.getElem?_eq_getElem hlayers, Option.getD_some])
  rw [hnodes]
  rcases layerStep_cases address hprintable
      (fun entry hentry => followed.arity entry (hentries entry hentry))
      (fun entry hentry => followed.order entry (hentries entry hentry))
      (fun entry hentry => followed.apart entry (hentries entry hentry) n walks) with
    hstay | ⟨entry, hentry, rfl, c, hstep, heq⟩
  · exact ⟨n, hstay, walks⟩
  · exact ⟨c, heq, .entry walks List.mem_cons_self (hentries entry hentry) hstep⟩

/-- A lookup leaves the switch with the address of a node that a walk through the copies
leads to. -/
theorem Configured.pipeline_walks
    (configured : Configured number address remoteStag snapshot tables addrs rangeTables file)
    {k : κ} (followed : Followed number address snapshot k) {n : Nat}
    (hstep : snapshot.fat.childFor k = some n) (hlayers : 3 ≤ snapshot.layers.length)
    (kept : RangeLookup.Kept ((snapshot.fat.keys.map number).map BitVec.toNat) (number k).toNat)
    (crc32Hash : Bits → BitVec 32) (scratch0 : Scratch) (scratch1 : Fin 4 → MetaVar)
    {msg : Message} (lookup : msg.IsLookup) (hva : msg.ibReth.va = number k) :
    ∃ last, pipeline crc32Hash tables scratch0 scratch1 msg.bits =
        some (msg.answer crc32Hash remoteStag (address last)).bits ∧
      Walks [switchPart snapshot] k last := by
  have hstart := configured.start_walks followed hstep kept scratch0.found
  have walks : Walks [switchPart snapshot] k n := .fat List.mem_cons_self hstep
  obtain ⟨first, hfirst, walks⟩ := configured.layer_walks followed (show 0 < 3 by decide)
    (by omega) walks
  obtain ⟨second, hsecond, walks⟩ := configured.layer_walks followed (show 1 < 3 by decide)
    (by omega) walks
  obtain ⟨third, hthird, walks⟩ := configured.layer_walks followed (show 2 < 3 by decide)
    (by omega) walks
  refine ⟨third, ?_, walks⟩
  rw [configured.loaded.pipeline_lookup crc32Hash scratch0 scratch1 lookup, hva, hstart, treeAddr,
    hfirst, hsecond, hthird]

end Loaded

/-! ## Reads after a load -/

section Read

variable {κ V : Type} [LinearOrder κ] [OrderBot κ] [Inhabited V] {P : κ → Prop} {w : World κ V}
  {history : List (κ × V)}

omit [LinearOrder κ] [OrderBot κ] in
theorem Snapshot.map_id (snapshot : Snapshot κ) : snapshot.map id = snapshot := by
  have hentry : (Switch.Entry.map id : Entry κ → Entry κ) = id := by
    funext entry
    rw [Entry.map, List.map_id]
    rfl
  rw [Switch.Snapshot.map, hentry]
  simp

omit [LinearOrder κ] [OrderBot κ] [Inhabited V] in
/-- More marks hold on to more nodes. -/
theorem anchors_markLoaded (w : World κ V) {nodes more : List Nat} (hsub : nodes ⊆ more) :
    Anchors (⟨markLoaded w.state nodes, w.dist, w.bounds⟩ : World κ V)
      ⟨markLoaded w.state more, w.dist, w.bounds⟩ where
  nbNode_le := Nat.le_refl _
  isValue n _ := by
    simp only [markLoaded]
    split_ifs <;> rfl
  loaded n _ hmark := by
    by_cases hmore : n ∈ more
    · simp [markLoaded, hmore]
    · have hnodes : n ∉ nodes := fun hmem => hmore (hsub hmem)
      simpa [markLoaded, hmore, hnodes] using hmark
  lo _ _ := rfl
  hi _ _ _ := rfl

/-- The greedy load of an unmarked tree of seven levels: all copies can be printed, and those
of the first three layers are of inner nodes. -/
structure Printed (w : World κ V) (ties : Ties) (nodeVec : List (Nat × κ))
    (layers : List (List Nat)) : Prop where
  load : load2switchGreedy 16 w.state (loadArgs ties) =
    some (printed w.state nodeVec layers,
      markLoaded w.state (printed w.state nodeVec layers).loaded)
  partition : Partition w 3 nodeVec
  sorted : nodeVec.Pairwise (fun p q => p.2 ≤ q.2)
  two_le : 2 ≤ nodeVec.length
  lt : ∀ layer ∈ layers, ∀ n ∈ layer, n < w.state.nbNode ∧ (w.state.pool n).isValue = false ∧
    n ≠ root
  three_le : 3 ≤ layers.length
  inner : ∀ layer ∈ layers.take 3, layer ≠ [] ∧ layer.Nodup ∧
    ∀ n ∈ layer, n < w.state.nbNode ∧ (w.state.pool n).IsInner

theorem Planted.printed (planted : Planted P w) (settled : Settled 16 w history) (ties : Ties)
    (hdepth : 7 ≤ w.state.depth) (hpool : w.state.nbNode ≤ maxNodeSizeRdma) :
    ∃ nodeVec layers, Printed w ties nodeVec layers := by
  have shape := settled.shape
  have sound := settled.toSound
  have hinner := sound.inner_root (show 2 ≤ w.state.depth by omega)
  obtain ⟨nodeVec, hfrontier, hpartition, hsorted⟩ := frontier_eq sound ties 600 hinner
    (show 0 < 3 by decide)
  have hne := frontier_ne_root shape ties (show 1 + 16 ≤ 600 by decide) hfrontier
  have htwo := hpartition.two_le_length sound planted.strict hinner
    (planted.occupied.rootFilled hinner) hne
  -- the counter of the levels does not wrap
  have hlast : lastLayer w.state (loadArgs ties) = w.state.depth - 3 := by
    obtain ⟨leaf, hlt, hleaf, -⟩ := shape.exists_leaf shape.root_lt shape.root_isValue
    have hlevel := planted.occupied.level leaf hlt hleaf
    have hdist := shape.dist_lt hlt
    have hsmall : w.state.depth < 2 ^ 32 := by
      rw [maxNodeSizeRdma] at hpool
      omega
    have hwrap : w.state.depth + 2 ^ 32 - 3 = w.state.depth - 3 + 2 ^ 32 := by omega
    rw [lastLayer]
    simp only [loadArgs]
    rw [hwrap, Nat.add_mod_right, Nat.mod_eq_of_lt (by omega)]
    exact Nat.min_eq_left (by omega)
  have hlayers : layersOf w.state (loadArgs ties) nodeVec =
      layersFrom w.state ties 3600 1 (w.state.depth - 3)
        (capLayer w.state ties 3600 1 (nodeVec.map Prod.fst)) := by
    rw [layersOf, hlast, Nat.max_eq_right (by omega)]
    rfl
  have htop : ∀ n ∈ capLayer w.state ties 3600 1 (nodeVec.map Prod.fst),
      n < w.state.nbNode ∧ (w.state.pool n).isValue = false ∧ w.dist n ≤ 3 ∧ n ≠ root := by
    intro n hn
    obtain ⟨p, hp, rfl⟩ := List.mem_map.mp (mem_capLayer hn)
    exact ⟨hpartition.lt p hp, hpartition.isValue p hp, hpartition.shallow p hp, hne p hp⟩
  refine ⟨nodeVec, layersOf w.state (loadArgs ties) nodeVec, ?_⟩
  constructor
  case load =>
    have hfits : ¬ (w.state.depth < 2 ∨ w.state.depth ≤ lastLayer w.state (loadArgs ties)) := by
      omega
    rw [load2switchGreedy, if_neg hfits]
    have hargs : frontier 16 w.state (loadArgs ties).ties (loadArgs ties).rootLoadNum
        (loadArgs ties).rootLoadDepth = some nodeVec := hfrontier
    rw [hargs]
  case partition => exact hpartition
  case sorted => exact hsorted
  case two_le => exact htwo
  case lt =>
    intro layer hlayer n hn
    have hlt := lt_of_mem_layersOf (loadArgs ties) shape hpartition.lt layer hlayer n hn
    have hval := isValue_of_mem_layersOf sound (show 3 ≤ w.state.depth by omega)
      (rfl : (loadArgs ties).rootLoadDepth = 3) hpartition (nodeEntry w.state n)
      (mem_entries_printed.mpr ⟨layer, hlayer, n, hn, rfl⟩)
    rw [hlayers] at hlayer
    obtain ⟨-, -, hroot⟩ := layersFrom_induction (fun _ m => m ≠ root) (Nat.le_refl _)
      (fun m hm => (htop m hm).2.2.2) (fun _ p c _ _ hchild => shape.child_ne_root p c hchild)
      layer hlayer n hn
    exact ⟨hlt, hval, hroot⟩
  case three_le =>
    rw [hlayers, length_layersFrom_eq]
    omega
  case inner =>
    rw [hlayers, take_layersFrom, Nat.min_eq_left (show 3 ≤ w.state.depth - 3 by omega)]
    refine inner_layersFrom sound (by decide) (capLayer_ne_nil (by decide) ?_)
      (nodup_capLayer hpartition.nodup) (fun n hn => ?_)
    · refine List.ne_nil_of_length_pos ?_
      rw [List.length_map]
      omega
    · obtain ⟨hlt, hval, hdist, -⟩ := htop n hn
      exact ⟨hlt, hval, by omega⟩

variable {ties : Ties} {nodeVec : List (Nat × κ)} {layers : List (List Nat)}

omit [LinearOrder κ] [OrderBot κ] [Inhabited V] in
theorem switchPart_printed (σ : State κ V) (nodeVec : List (Nat × κ)) (layers : List (List Nat)) :
    switchPart (Switch.printed σ nodeVec layers) =
      Switch.printed σ nodeVec (layers.take 3) := by
  rw [switchPart, Switch.printed, Switch.printed, List.map_take]

omit [LinearOrder κ] [OrderBot κ] [Inhabited V] in
theorem mem_entries_switchPart {σ : State κ V} {entry : Entry κ} :
    entry ∈ (switchPart (Switch.printed σ nodeVec layers)).entries ↔
      ∃ layer ∈ layers.take 3, ∃ n ∈ layer, nodeEntry σ n = entry := by
  rw [switchPart_printed, mem_entries_printed]

/-- The part of a load that the switch has routes in the marked tree. -/
theorem Printed.routed (print : Printed w ties nodeVec layers) (planted : Planted P w)
    (settled : Settled 16 w history) :
    Routed id (switchPart (Switch.printed w.state nodeVec layers))
      (⟨markLoaded w.state (Switch.printed w.state nodeVec layers).loaded, w.dist, w.bounds⟩ :
        World κ V) := by
  have hfaithful : Faithful (Switch.printed w.state nodeVec (layers.take 3)) w :=
    faithful_printed settled.toSound planted.strict print.partition print.sorted
      fun layer hlayer n hn => (print.lt layer (List.mem_of_mem_take hlayer) n hn).1
  rw [← switchPart_printed, ← Snapshot.map_id (switchPart _)] at hfaithful
  have hinner : ∀ entry ∈ ((switchPart (Switch.printed w.state nodeVec layers)).map id).entries,
      (w.state.pool entry.node).IsInner := by
    intro entry hentry
    rw [Snapshot.map_id] at hentry
    obtain ⟨layer, hlayer, n, hn, rfl⟩ := mem_entries_switchPart.mp hentry
    exact ((print.inner layer hlayer).2.2 n hn).2
  refine (hfaithful.routed strictMono_id settled.toSound hinner).mono (anchors_markLoaded w ?_)
  intro n hn
  rcases Switch.Snapshot.mem_loaded.mp hn with hroot | hfat | ⟨entry, hentry, hnode⟩
  · exact Switch.Snapshot.mem_loaded.mpr (Or.inl hroot)
  · exact Switch.Snapshot.mem_loaded.mpr (Or.inr (Or.inl hfat))
  · obtain ⟨layer, hlayer, m, hm, rfl⟩ := mem_entries_switchPart.mp hentry
    refine Switch.Snapshot.mem_loaded.mpr (Or.inr (Or.inr ⟨nodeEntry w.state m, ?_, hnode⟩))
    exact mem_entries_printed.mpr ⟨layer, List.mem_of_mem_take hlayer, m, hm, rfl⟩

variable {number : κ → BitVec 64} {address : Nat → BitVec 48}

/-- What a lookup of a key of the tree needs of the copies. -/
theorem Printed.followed (print : Printed w ties nodeVec layers) (planted : Planted P w)
    (settled : Settled 16 w history) (numbers : Numbers P number)
    (apart : Set.InjOn address {n | n < w.state.nbNode}) {k : κ}
    (hk : ∀ x, P x → (number x < number k ↔ x < k)) :
    Followed number address (Switch.printed w.state nodeVec layers) k := by
  constructor
  case fat_order =>
    intro x hx
    exact hk x
      (print.partition.fat_keys settled.toSound planted.strict print.sorted planted.keysIn x hx)
  case printable =>
    intro layer hlayer entry hentry
    have hmem : entry ∈ (switchPart (Switch.printed w.state nodeVec layers)).entries :=
      List.mem_flatten.mpr ⟨layer, hlayer, hentry⟩
    obtain ⟨nodes, hnodes, n, hn, rfl⟩ := mem_entries_switchPart.mp hmem
    obtain ⟨hlt, hval, hne⟩ := print.lt nodes (List.mem_of_mem_take hnodes) n hn
    exact planted.printable settled numbers hlt hval hne
  case arity =>
    intro entry hentry
    obtain ⟨nodes, hnodes, n, hn, rfl⟩ := mem_entries_switchPart.mp hentry
    exact settled.shape.inner_arity n ((print.inner nodes hnodes).2.2 n hn).2
  case order =>
    intro entry hentry x hx
    obtain ⟨nodes, hnodes, n, hn, rfl⟩ := mem_entries_switchPart.mp hentry
    exact hk x (planted.keysIn n x hx)
  case apart =>
    intro entry hentry n walks heq
    have hrouted := print.routed planted settled
    have hfiles : ∀ file ∈ [switchPart (Switch.printed w.state nodeVec layers)], Routed id file
        (⟨markLoaded w.state (Switch.printed w.state nodeVec layers).loaded, w.dist, w.bounds⟩ :
          World κ V) := by
      intro file hfile
      rwa [List.mem_singleton.mp hfile]
    exact apart (hrouted.node entry hentry).lt (anchored_of_walks hfiles walks).1.lt heq

/-- The scripts succeed on what the load prints. -/
theorem Printed.configured (print : Printed w ties nodeVec layers) (planted : Planted P w)
    (settled : Settled 16 w history) (numbers : Numbers P number)
    (apart : Set.InjOn address {n | n < w.state.nbNode}) (remoteAddr : BitVec 64)
    (remoteStag : BitVec 32) (rest : List Char) :
    ∃ tables addrs rangeTables file,
      configSwitch number address remoteAddr remoteStag (Switch.printed w.state nodeVec layers)
        rest = some tables ∧
      Configured number address remoteStag (Switch.printed w.state nodeVec layers) tables addrs
        rangeTables file := by
  have htwo := print.two_le
  have hfat := print.partition.fat_keys settled.toSound planted.strict print.sorted planted.keysIn
  refine configSwitch_eq remoteAddr remoteStag rest ?_ ?_ ?_ ?_ ?_
  · rw [List.pairwise_map]
    refine (print.partition.fat_sorted settled.toSound planted.strict print.sorted).imp_of_mem ?_
    exact fun hx hy hlt => (numbers _ _ (hfat _ hx) (hfat _ hy)).mpr hlt
  · refine List.ne_nil_of_length_pos ?_
    simp only [Switch.printed, List.length_map, List.length_tail]
    omega
  · refine List.ne_nil_of_length_pos ?_
    simp only [Switch.printed, List.length_map]
    omega
  · intro layer hlayer entry hentry
    obtain ⟨nodes, hnodes, rfl⟩ := List.mem_map.mp hlayer
    obtain ⟨n, hn, rfl⟩ := List.mem_map.mp hentry
    obtain ⟨hlt, hval, hne⟩ := print.lt nodes hnodes n hn
    exact planted.printable settled numbers hlt hval hne
  · intro d hd
    have hlen := print.three_le
    have hdlt : d < layers.length := by omega
    have hmem : layers[d] ∈ layers.take 3 := List.mem_take_iff_getElem.mpr ⟨d, by omega, rfl⟩
    obtain ⟨hne, hnodup, hinner⟩ := print.inner _ hmem
    refine ⟨layers[d].map (nodeEntry w.state), ?_, by simpa using hne, ?_⟩
    · simp only [Switch.printed, List.getElem?_map, List.getElem?_eq_getElem hdlt, Option.map_some]
    · rw [List.map_map]
      exact hnodup.map_on fun a ha b hb heq => apart (hinner a ha).1 (hinner b hb).1 heq

/-- Reads through the switch after a load, whatever is called in between. -/
theorem Planted.reads (planted : Planted P w) (settled : Settled 16 w history)
    (numbers : Numbers P number) (hdepth : 7 ≤ w.state.depth)
    (hpool : w.state.nbNode ≤ maxNodeSizeRdma)
    (apart : Set.InjOn address {n | n < w.state.nbNode}) (ties : Ties) (remoteAddr : BitVec 64)
    (remoteStag : BitVec 32) (rest : List Char) :
    ∃ snapshot loaded tables,
      load2switchGreedy 16 w.state (loadArgs ties) = some (snapshot, loaded) ∧
      (∀ x ∈ snapshot.fat.keys, P x) ∧
      configSwitch number address remoteAddr remoteStag snapshot rest = some tables ∧
      ∀ later : List (Call κ V), (keysOf ((insertions later).reverse ++ history)).Nodup →
        ∃ σ', run 16 rdma later loaded = some σ' ∧
          ∀ k v, (∀ x, P x → (number x < number k ↔ x < k)) →
            (k, v) ∈ (insertions later).reverse ++ history →
            RangeLookup.Kept ((snapshot.fat.keys.map number).map BitVec.toNat)
              (number k).toNat →
            ∀ (crc32Hash : Bits → BitVec 32) (scratch0 : Scratch) (scratch1 : Fin 4 → MetaVar)
              (msg : Message), msg.IsLookup → msg.ibReth.va = number k →
                ∃ n c, pipeline crc32Hash tables scratch0 scratch1 msg.bits =
                    some (msg.answer crc32Hash remoteStag (address n)).bits ∧
                  rdmaRead σ' k n = some c ∧ (σ'.pool c).val = v := by
  obtain ⟨nodeVec, layers, print⟩ := planted.printed settled ties hdepth hpool
  obtain ⟨tables, addrs, rangeTables, file, hconfig, configured⟩ :=
    print.configured planted settled numbers apart remoteAddr remoteStag rest
  refine ⟨Switch.printed w.state nodeVec layers, _, tables, print.load,
    print.partition.fat_keys settled.toSound planted.strict print.sorted planted.keysIn, hconfig,
    fun later distinct => ?_⟩
  -- the marked tree, and the tree after the later calls
  have hloaded : ∀ n ∈ (Switch.printed w.state nodeVec layers).loaded, n < w.state.nbNode :=
    loaded_printed_lt settled.shape print.partition.lt
      fun layer hlayer n hn => (print.lt layer hlayer n hn).1
  have hmarked : Settled 16 (⟨markLoaded w.state (Switch.printed w.state nodeVec layers).loaded,
      w.dist, w.bounds⟩ : World κ V) history := (sameTree_markLoaded hloaded).settled settled
  obtain ⟨w', hrun, hsettled, hkeeps⟩ := hmarked.run_eq rdma later
  rw [storedHistory_rdma] at hsettled
  refine ⟨w'.state, hrun, fun k v hk hmem kept crc32Hash scratch0 scratch1 msg lookup hva => ?_⟩
  have hrouted := print.routed planted settled
  obtain ⟨n, hstep, -⟩ := hrouted.fat_step k
  obtain ⟨last, hpipeline, walks⟩ := configured.pipeline_walks
    (print.followed planted settled numbers apart hk) hstep (by
      simpa [Switch.printed] using print.three_le) kept crc32Hash scratch0 scratch1 lookup hva
  obtain ⟨here, holds⟩ := anchored_of_walks
    (fun file hfile => by
      rw [List.mem_singleton.mp hfile]
      exact hrouted.mono (anchors_of_keeps hkeeps)) walks
  obtain ⟨c, hread, -, hvalue⟩ := rdmaRead_eq hsettled.toSound
    (List.mem_map_of_mem (f := Prod.fst) hmem) here.lt here.isValue holds
  rw [lookup_of_mem distinct hmem] at hvalue
  exact ⟨last, c, hpipeline, hread, (Option.some.inj hvalue).symm⟩

end Read

/-! ## The keys of the workload -/

instance orderBotKey : OrderBot (List Int) where
  bot := []
  bot_le k := by
    cases k with
    | nil => exact le_refl _
    | cons x rest => exact le_of_lt (List.nil_lt_cons x rest)

end FatBTree.Rdma
