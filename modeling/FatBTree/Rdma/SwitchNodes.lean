import FatBTree.Rdma.Pipeline
import FatBTree.Rdma.TableSizes
import FatBTree.Switch.Walks

/-!
# The node file in the switch

The loader reads the fat root with the other nodes and never uses it.  The layers below
become tables, and a step through the tables of a layer is a step through the copy of a
node, or no step at all.
-/

namespace FatBTree.Rdma

open FatBTree.Order FatBTree.P4 FatBTree.Sram FatBTree.Switch FatBTree.Tree

variable {κ : Type} [LinearOrder κ] (number : κ → BitVec 64) (address : Nat → BitVec 48)

/-- A copy that the switch can hold. -/
structure Printable (entry : Entry κ) : Prop where
  ne_root : entry.node ≠ root
  sorted : (entry.keys.map number).Pairwise (· ≤ ·)
  few : entry.keys.length ≤ 15
  children_ne_nil : entry.children ≠ []
  children_length : entry.children.length = entry.keys.length + 1 ∨
    entry.children.length = entry.keys.length

/-- The node that `config.py` makes of a copy. -/
def switchNode (entry : Entry κ) (printable : Printable number entry) : SwitchNode where
  addr := address entry.node
  keys := entry.keys.map number
  children := entry.children.map address
  sorted := printable.sorted
  few := by
    rw [List.length_map]
    exact printable.few
  children_ne_nil := by simpa using printable.children_ne_nil
  children_length := by
    rw [List.length_map, List.length_map]
    exact printable.children_length

/-! ## The layers of the file -/

section File

variable {number}

omit [LinearOrder κ] in
theorem printInfo_switchNode {entry : Entry κ} (printable : Printable number entry) :
    (switchNode number address entry printable).printInfo = entryLines number address entry := by
  rw [SwitchNode.printInfo, entryLines, if_neg printable.ne_root]
  simp only [switchNode, List.flatMap_map]

omit [LinearOrder κ] in
/-- The lines of the layers are those of switch nodes, layer by layer. -/
theorem exists_file {layers : List (List (Entry κ))}
    (printable : ∀ layer ∈ layers, ∀ entry ∈ layer, Printable number entry) (i : Nat) :
    ∃ file, fileLines file = layerLines number address i layers ∧ (∀ entry ∈ file, i ≤ entry.1) ∧
      ∀ (d : Nat) layer (hlayer : ∀ entry ∈ layer, Printable number entry),
        layers.getD d [] = layer →
          depthNodes (i + d) file = layer.pmap (switchNode number address) hlayer := by
  induction layers generalizing i with
  | nil =>
      refine ⟨[], rfl, List.forall_mem_nil _, ?_⟩
      rintro d layer hlayer rfl
      rfl
  | cons first rest ih =>
      have hfirst := printable first List.mem_cons_self
      obtain ⟨file, hlines, hdeep, hnodes⟩ :=
        ih (fun layer hlayer => printable layer (List.mem_cons_of_mem _ hlayer)) (i + 1)
      let top := first.pmap (fun entry h => (i, switchNode number address entry h)) hfirst
      have htop : ∀ entry ∈ top, entry.1 = i := by
        intro entry hentry
        obtain ⟨copy, hcopy, rfl⟩ := List.mem_pmap.mp hentry
        rfl
      have hdeeper : ∀ d ≤ i, depthNodes d file = [] := by
        intro d hd
        rw [depthNodes, List.map_eq_nil_iff, List.filter_eq_nil_iff]
        intro entry hentry
        have hge := hdeep entry hentry
        simp only [decide_eq_true_eq]
        omega
      have hsplit : ∀ d, depthNodes d (top ++ file) = depthNodes d top ++ depthNodes d file := by
        intro d
        rw [depthNodes, List.filter_append, List.map_append]
        rfl
      refine ⟨top ++ file, ?_, ?_, ?_⟩
      · have hprinted : fileLines top =
            first.map (fun entry => (i, entryLines number address entry)) := by
          calc fileLines top
              = first.pmap (fun entry h => (i, (switchNode number address entry h).printInfo))
                  hfirst := List.map_pmap ..
            _ = first.pmap (fun entry _ => (i, entryLines number address entry)) hfirst :=
                List.pmap_congr_left _ fun entry _ h _ => by rw [printInfo_switchNode address h]
            _ = first.map (fun entry => (i, entryLines number address entry)) :=
                List.pmap_eq_map ..
        rw [layerLines, ← hprinted, ← hlines, fileLines, List.map_append]
        rfl
      · intro entry hentry
        rcases List.mem_append.mp hentry with hmem | hmem
        · exact (htop entry hmem).ge
        · exact Nat.le_of_succ_le (hdeep entry hmem)
      · rintro d layer hlayer hget
        rw [hsplit]
        cases d with
        | zero =>
            obtain rfl : first = layer := hget
            rw [Nat.add_zero, hdeeper i (Nat.le_refl i), List.append_nil, depthNodes,
              List.filter_eq_self.mpr fun entry hentry => by simpa using htop entry hentry,
              List.map_pmap]
        | succ d =>
            have hnone : depthNodes (i + (d + 1)) top = [] := by
              rw [depthNodes, List.map_eq_nil_iff, List.filter_eq_nil_iff]
              intro entry hentry
              have heq := htop entry hentry
              simp only [decide_eq_true_eq]
              omega
            rw [hnone, List.nil_append, ← Nat.succ_add_eq_add_succ]
            exact hnodes d layer hlayer hget

/-- What adding a node does to a layer does not depend on the other layers. -/
theorem getElem?_addNode (nodes : List (List FBTNode)) (depth : Nat) (node : FBTNode)
    (layer : Nat) : (addNode nodes depth node)[layer]? =
      if layer = depth then some (nodes.getD layer [] ++ [node])
      else if layer < depth then some (nodes.getD layer []) else nodes[layer]? := by
  have hpadded : (nodes ++ List.replicate (depth + 1 - nodes.length) [])[layer]? =
      if layer ≤ depth then some (nodes.getD layer []) else nodes[layer]? := by
    rcases Nat.lt_or_ge layer nodes.length with hold | hnew
    · rw [List.getElem?_append_left hold, List.getD_eq_getElem?_getD,
        List.getElem?_eq_getElem hold]
      simp
    · rw [List.getElem?_append_right hnew, List.getElem?_replicate, List.getD_eq_getElem?_getD,
        List.getElem?_eq_none hnew]
      split_ifs <;> first | rfl | omega
  rw [addNode, List.getElem?_modify, hpadded]
  split_ifs <;> first | rfl | omega | simp_all

/-- The same layers below the first. -/
def SameBelow (nodes nodes' : List (List FBTNode)) : Prop :=
  ∀ layer, layer ≠ 0 → nodes'[layer]? = nodes[layer]?

theorem SameBelow.addNode {nodes nodes' : List (List FBTNode)} (same : SameBelow nodes nodes')
    (depth : Nat) (node : FBTNode) :
    SameBelow (addNode nodes depth node) (addNode nodes' depth node) := by
  intro layer hlayer
  have hgetD : nodes'.getD layer [] = nodes.getD layer [] := by
    rw [List.getD_eq_getElem?_getD, List.getD_eq_getElem?_getD, same layer hlayer]
  rw [getElem?_addNode, getElem?_addNode, same layer hlayer, hgetD]

theorem SameBelow.foldlM {nodes nodes' last : List (List FBTNode)} (same : SameBelow nodes nodes')
    {file : List (Nat × NodeLines)}
    (hrun : file.foldlM (fun nodes lines => (readNode lines.2).map (Rdma.addNode nodes lines.1))
      nodes = some last) :
    ∃ last', file.foldlM (fun nodes lines => (readNode lines.2).map
        (Rdma.addNode nodes lines.1)) nodes' = some last' ∧ SameBelow last last' := by
  induction file generalizing nodes nodes' with
  | nil =>
      obtain rfl := Option.some.inj hrun
      exact ⟨nodes', rfl, same⟩
  | cons lines file ih =>
      rw [List.foldlM_cons] at hrun
      obtain ⟨next, hnext, hrest⟩ := Option.bind_eq_some_iff.mp hrun
      obtain ⟨node, hnode, rfl⟩ := Option.map_eq_some_iff.mp hnext
      obtain ⟨last', hlast, hsame⟩ := ih (same.addNode lines.1 node) hrest
      refine ⟨last', ?_, hsame⟩
      rw [List.foldlM_cons, hnode]
      exact hlast

theorem SameBelow.loadLayer_eq {nodes nodes' : List (List FBTNode)} (same : SameBelow nodes nodes')
    {layer : Nat} (hlayer : layer ≠ 0) (group : Fin 2) (tables : Sram.Tables) :
    loadLayer nodes' layer group tables = loadLayer nodes layer group tables := by
  rw [loadLayer, loadLayer, same layer hlayer]

/-- A first node of depth 0 changes nothing. -/
theorem config_cons (rangeTables : Tcam.Tables) (addrs : List (BitVec 48)) (remoteStag : BitVec 32)
    {lines : NodeLines} {node : FBTNode} (hnode : readNode lines = some node)
    {file : List (Nat × NodeLines)} {tables : SwitchTables}
    (hconfig : config rangeTables addrs remoteStag file = some tables) :
    config rangeTables addrs remoteStag ((0, lines) :: file) = some tables := by
  obtain ⟨setAddrTable, haddrs, hrest⟩ := Option.bind_eq_some_iff.mp hconfig
  obtain ⟨nodes, hread, hlayers⟩ := Option.bind_eq_some_iff.mp hrest
  have hstart : SameBelow [] (addNode [] 0 node) := by
    intro layer hlayer
    rw [getElem?_addNode, if_neg hlayer, if_neg (Nat.not_lt_zero layer)]
  obtain ⟨nodes', hread', hsame⟩ := hstart.foldlM hread
  have hwhole : readNodes ((0, lines) :: file) = some nodes' := by
    rw [readNodes, List.foldlM_cons, hnode]
    exact hread'
  rw [config]
  simp only [haddrs, hwhole, Option.bind_eq_bind, Option.bind_some,
    hsame.loadLayer_eq (show 1 ≠ 0 by decide), hsame.loadLayer_eq (show 2 ≠ 0 by decide),
    hsame.loadLayer_eq (show 3 ≠ 0 by decide)]
  exact hlayers

omit [LinearOrder κ] in
/-- The line of a fat root with children is read. -/
theorem readNode_entryLines (number : κ → BitVec 64) {entry : Entry κ}
    (hne : entry.children ≠ []) :
    ∃ node, readNode (entryLines number address entry) = some node := by
  have hchild := List.getLast?_eq_some_getLast (l := entry.children.map address) (by simpa using hne)
  have hkeys : ∀ pairs : List (BitVec 32 × BitVec 32), ∃ last,
      ((0, 0) :: pairs).getLast? = some last :=
    fun pairs => ⟨_, List.getLast?_eq_some_getLast (List.cons_ne_nil _ _)⟩
  obtain ⟨last, hlast⟩ := hkeys ((entry.keys.map number).map fun k => (keyHi k, keyLo k))
  have hpairs := keyPairs_halves (entry.keys.map number)
  rw [List.flatMap_map] at hpairs
  rw [readNode, entryLines]
  simp only [List.drop_succ_cons, List.drop_zero, hpairs, padLast_eq _ hchild, padLast_eq _ hlast,
    Option.bind_eq_bind, Option.bind_some, Option.pure_def]
  exact ⟨_, rfl⟩

end File

/-! ## A step -/

section Step

variable {number}

theorem childNumber_switchNode {entry : Entry κ} (printable : Printable number entry)
    (arity : entry.children.length = entry.keys.length + 1) {k : κ}
    (order : ∀ x ∈ entry.keys, number x < number k ↔ x < k) :
    (switchNode number address entry printable).childNumber (number k) =
      countBelow entry.keys k := by
  have hcount : (entry.keys.map number).countP (fun x => decide (x < number k)) =
      countBelow entry.keys k := by
    rw [List.countP_map, countBelow]
    refine List.countP_congr fun x hx => ?_
    simpa using order x hx
  have hle := List.countP_le_length (p := fun x => decide (x < number k))
    (l := entry.keys.map number)
  rw [List.length_map] at hle
  rw [SwitchNode.childNumber]
  simp only [switchNode, List.length_map, arity]
  rw [← hcount]
  omega

/-- The child that the switch selects is the child that the copy selects. -/
theorem child_switchNode {entry : Entry κ} (printable : Printable number entry)
    (arity : entry.children.length = entry.keys.length + 1) {k : κ}
    (order : ∀ x ∈ entry.keys, number x < number k ↔ x < k) :
    ∃ c, entry.childFor k = some c ∧
      (switchNode number address entry printable).child (number k) = address c := by
  have hnumber := childNumber_switchNode address printable arity order
  have hlt := (switchNode number address entry printable).childNumber_lt (number k)
  have hlen : (switchNode number address entry printable).children.length =
      entry.children.length := List.length_map _
  rw [hnumber, hlen] at hlt
  refine ⟨entry.children[countBelow entry.keys k], List.getElem?_eq_getElem hlt, ?_⟩
  have hget : (switchNode number address entry printable).children[
      (switchNode number address entry printable).childNumber (number k)]? =
        some (address entry.children[countBelow entry.keys k]) := by
    rw [hnumber]
    simp only [switchNode, List.getElem?_map, List.getElem?_eq_getElem hlt, Option.map_some]
  rw [SwitchNode.child]
  exact Option.some.inj ((List.getElem?_eq_getElem _).symm.trans hget)

/-- A step through a layer stays, or it is the step of a copy. -/
theorem layerStep_cases {layer : List (Entry κ)}
    (printable : ∀ entry ∈ layer, Printable number entry)
    (arity : ∀ entry ∈ layer, entry.children.length = entry.keys.length + 1) {k : κ}
    (order : ∀ entry ∈ layer, ∀ x ∈ entry.keys, number x < number k ↔ x < k) {n : Nat}
    (apart : ∀ entry ∈ layer, address entry.node = address n → entry.node = n) :
    layerStep (layer.pmap (switchNode number address) printable) (number k) (address n) =
        address n ∨
      ∃ entry ∈ layer, entry.node = n ∧ ∃ c, entry.childFor k = some c ∧
        layerStep (layer.pmap (switchNode number address) printable) (number k) (address n) =
          address c := by
  rw [layerStep]
  cases hfind : (layer.pmap (switchNode number address) printable).find?
      (fun node => node.addr = address n) with
  | none => exact Or.inl rfl
  | some node =>
      obtain ⟨entry, hentry, rfl⟩ := List.mem_pmap.mp (List.mem_of_find?_eq_some hfind)
      have hfound := List.find?_some hfind
      have haddr : address entry.node = address n := of_decide_eq_true hfound
      by_cases hzero : number k = 0
      · exact Or.inl (if_pos hzero)
      · obtain ⟨c, hstep, hchild⟩ := child_switchNode address (printable entry hentry)
          (arity entry hentry) (order entry hentry)
        refine Or.inr ⟨entry, hentry, apart entry hentry haddr, c, hstep, ?_⟩
        simp only [if_neg hzero]
        exact hchild

end Step

end FatBTree.Rdma
