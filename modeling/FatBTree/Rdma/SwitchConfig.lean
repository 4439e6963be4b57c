import FatBTree.Sram.Pipeline
import FatBTree.Tcam.Config

/-!
# Loading the RDMA switch

The nodes of the node file are grouped by depth.  The comparison tables of a layer
are filled once, then every node of the layer adds its thresholds and children.
-/

namespace FatBTree.Rdma

open FatBTree.P4 FatBTree.Sram

/-! ## Nodes -/

/-- A node of the node file: an inner node has one child more than keys, a leaf may
have as many. -/
structure SwitchNode where
  addr : BitVec 48
  keys : List (BitVec 64)
  children : List (BitVec 48)
  sorted : keys.Pairwise (· ≤ ·)
  few : keys.length ≤ 15
  children_ne_nil : children ≠ []
  children_length : children.length = keys.length + 1 ∨ children.length = keys.length

namespace SwitchNode

variable (node : SwitchNode)

def printInfo : NodeLines where
  selfaddr := node.addr
  selfkeys := 0 :: 0 :: node.keys.flatMap (fun k => [keyHi k, keyLo k])
  childrenaddr := node.children

def childNumber (key : BitVec 64) : Nat :=
  min (node.keys.countP (fun k => decide (k < key))) (node.children.length - 1)

theorem childNumber_lt (key : BitVec 64) : node.childNumber key < node.children.length := by
  have hpos : 0 < node.children.length := List.length_pos_iff.mpr node.children_ne_nil
  rw [childNumber]
  omega

def child (key : BitVec 64) : BitVec 48 :=
  node.children.get ⟨_, node.childNumber_lt key⟩

end SwitchNode

/-- One step of the descent in a layer: key 0 and foreign addresses change nothing. -/
def layerStep (nodes : List SwitchNode) (key : BitVec 64) (addr : BitVec 48) : BitVec 48 :=
  match nodes.find? (fun node => node.addr = addr) with
  | some node => if key = 0 then addr else node.child key
  | none => addr

/-! ## `config.py` -/

/-- The same statement for every pair `a_b` of a group. -/
def forColumns (group : Fin 2) (body : Fin 8 × Fin 4 → Column → Option Column) (tables : Tables) :
    Option Tables := do
  let column ← (positions group).foldlM
    (fun column position => (body position (column position)).map (Function.update column position))
    tables.column
  return { tables with column := column }

def addComp (table : ExactTable Bool CompAction) : Option (ExactTable Bool CompAction) := do
  let table ← table.add false .s
  table.add true .k

def initColumn (column : Column) : Option Column := do
  let hi ← addComp column.setCompTableHi
  let lo ← addComp column.setCompTableLo
  return { column with setCompTableHi := hi, setCompTableLo := lo }

def initTable (group : Fin 2) (tables : Tables) : Option Tables :=
  forColumns group (fun _ column => initColumn column) tables

def addThresh (node : FBTNode) (position : Fin 8 × Fin 4) (column : Column) : Option Column := do
  let key ← node.keys[slot position]?
  let thresh ← column.setThreshTable.add node.addr key
  return { column with setThreshTable := thresh }

def setTable (node : FBTNode) (group : Fin 2) (tables : Tables) : Option Tables := do
  let tables ← forColumns group (addThresh node) tables
  let result ← (List.range 16).foldlM node.addResult (tables.setResultTable group)
  return { tables with setResultTable := Function.update tables.setResultTable group result }

/-- `nodes[node.depth].append(node)`, after `nodes` is made long enough. -/
def addNode (nodes : List (List FBTNode)) (depth : Nat) (node : FBTNode) : List (List FBTNode) :=
  (nodes ++ List.replicate (depth + 1 - nodes.length) []).modify depth (fun layer => layer ++ [node])

/-- The loop over the node file; a node is its depth and its lines. -/
def readNodes (file : List (Nat × NodeLines)) : Option (List (List FBTNode)) :=
  file.foldlM (fun nodes lines => (readNode lines.2).map (addNode nodes lines.1)) []

/-- One turn of the last loop; `nodes[layer][0]` has to be there. -/
def loadLayer (nodes : List (List FBTNode)) (layer : Nat) (group : Fin 2) (tables : Tables) :
    Option Tables := do
  let nodes ← nodes[layer]?
  let _ ← nodes[0]?
  let tables ← initTable group tables
  nodes.foldlM (fun tables node => setTable node group tables) tables

def addAddrs (addrs : List (BitVec 48)) : Option (ExactTable Nat (BitVec 48)) :=
  (List.range addrs.length).foldlM
    (fun table i => do
      let addr ← addrs[i]?
      table.add i addr)
    .empty

/-- The tables of `Ingress0`, `Ingress1` and `Egress0`. -/
structure SwitchTables where
  rangeTables : Tcam.Tables
  setAddrTable : ExactTable Nat (BitVec 48)
  ingress0 : Tables
  ingress1 : Tables
  remoteStag : BitVec 32

/-- The script after the rows of the range tables; an exception is `none`. -/
def config (rangeTables : Tcam.Tables) (addrs : List (BitVec 48)) (remoteStag : BitVec 32)
    (file : List (Nat × NodeLines)) : Option SwitchTables := do
  let setAddrTable ← addAddrs addrs
  let nodes ← readNodes file
  let ingress0 ← loadLayer nodes 1 0 .empty
  let ingress1 ← loadLayer nodes 2 0 .empty
  let ingress1 ← loadLayer nodes 3 1 ingress1
  return ⟨rangeTables, setAddrTable, ingress0, ingress1, remoteStag⟩

/-! ## Nodes as they are loaded -/

namespace SwitchNode

variable (node : SwitchNode)

def lastChild : BitVec 48 := node.children.getLast node.children_ne_nil

/-- The children, with the one after the last key filled in. -/
def fullChildren : List (BitVec 48) :=
  node.children ++ List.replicate (node.keys.length + 1 - node.children.length) node.lastChild

theorem fullChildren_of_inner (hlen : node.children.length = node.keys.length + 1) :
    node.fullChildren = node.children := by
  rw [fullChildren, hlen, Nat.sub_self, List.replicate_zero, List.append_nil]

theorem fullChildren_of_leaf (hlen : node.children.length = node.keys.length) :
    node.fullChildren = node.children ++ [node.lastChild] := by
  have hone : node.keys.length + 1 - node.children.length = 1 := by omega
  rw [fullChildren, hone, List.replicate_one]

def full : TreeNode where
  addr := node.addr
  keys := node.keys
  children := node.fullChildren
  sorted := node.sorted
  few := node.few
  children_length := by
    rcases node.children_length with hlen | hlen
    · rw [node.fullChildren_of_inner hlen, hlen]
    · rw [node.fullChildren_of_leaf hlen, List.length_append, List.length_singleton, hlen]

theorem full_children : node.full.children = node.fullChildren :=
  rfl

theorem full_lastChild : node.full.lastChild = node.lastChild := by
  rcases node.children_length with hlen | hlen
  · simp only [TreeNode.lastChild, lastChild, full_children, node.fullChildren_of_inner hlen]
  · simp only [TreeNode.lastChild, full_children, node.fullChildren_of_leaf hlen,
      List.getLast_append_singleton]

theorem full_paddedChildren :
    node.full.paddedChildren =
      node.children ++ List.replicate (16 - node.children.length) node.lastChild := by
  have hfew := node.few
  rcases node.children_length with hlen | hlen
  · rw [TreeNode.paddedChildren, full_lastChild, full_children, node.fullChildren_of_inner hlen]
  · have hmissing : 16 - node.children.length = 16 - (node.children.length + 1) + 1 := by omega
    rw [TreeNode.paddedChildren, full_lastChild, full_children, node.fullChildren_of_leaf hlen,
      hmissing, List.length_append, List.length_singleton, List.append_assoc, List.replicate_succ]
    rfl

theorem readNode_printInfo : readNode node.printInfo = some node.full.loaded := by
  have hfull := node.full.readNode_printInfo
  have hchild : node.children.getLast? = some node.lastChild :=
    List.getLast?_eq_some_getLast node.children_ne_nil
  have hpad : padLast (16 - node.full.children.length) node.full.children =
      padLast (16 - node.children.length) node.children := by
    have hlast : node.full.children.getLast? = some node.full.lastChild :=
      List.getLast?_eq_some_getLast node.full.children_ne_nil
    rw [padLast_eq _ hlast, padLast_eq _ hchild, ← full_paddedChildren, TreeNode.paddedChildren]
  rw [← hfull]
  simp only [readNode, printInfo, TreeNode.printInfo, hpad]
  rfl

theorem full_child (key : BitVec 64) : node.full.child key = node.child key := by
  have hcount := List.countP_le_length (p := fun k => decide (k < key)) (l := node.keys)
  have hlt := node.full.countP_lt_children key
  have hget : node.full.children[node.keys.countP (fun k => decide (k < key))]? =
      node.children[node.childNumber key]? := by
    rcases node.children_length with hlen | hlen
    · have hnumber : node.childNumber key = node.keys.countP (fun k => decide (k < key)) := by
        rw [childNumber, hlen]
        omega
      rw [full_children, node.fullChildren_of_inner hlen, hnumber]
    · rw [full_children, node.fullChildren_of_leaf hlen]
      rcases Nat.lt_or_eq_of_le hcount with hinner | hlast
      · have hnumber : node.childNumber key = node.keys.countP (fun k => decide (k < key)) := by
          rw [childNumber, hlen]
          omega
        rw [hnumber, List.getElem?_append_left (by omega)]
      · have hnumber : node.childNumber key = node.children.length - 1 := by
          rw [childNumber, hlast, hlen]
          omega
        rw [hnumber, hlast, ← hlen, List.getElem?_append_right (Nat.le_refl _), Nat.sub_self,
          ← List.getLast?_eq_getElem?, List.getLast?_eq_some_getLast node.children_ne_nil]
        rfl
  have hleft : node.full.children[node.keys.countP (fun k => decide (k < key))]? =
      some (node.full.child key) := List.getElem?_eq_getElem hlt
  have hright : node.children[node.childNumber key]? = some (node.child key) :=
    List.getElem?_eq_getElem (node.childNumber_lt key)
  rw [hleft, hright] at hget
  exact Option.some.inj hget

end SwitchNode

theorem step_full (nodes : List SwitchNode) (key : BitVec 64) (addr : BitVec 48) :
    step (nodes.map SwitchNode.full) key addr = layerStep nodes key addr := by
  have hpos : 0 < key ↔ key ≠ 0 := by
    rw [BitVec.lt_def, ne_eq, ← BitVec.toNat_inj]
    exact Nat.pos_iff_ne_zero
  have hfind : (nodes.map SwitchNode.full).find? (fun node => node.addr = addr) =
      (nodes.find? (fun node => node.addr = addr)).map SwitchNode.full := by
    rw [List.find?_map]
    rfl
  rw [step, layerStep, hfind]
  cases nodes.find? (fun node => node.addr = addr) with
  | none => rfl
  | some node =>
      simp only [Option.map_some, node.full_child key, hpos, ite_not]

/-! ## What the tables hold -/

/-- Tables that differ in the given group only. -/
structure SameOutside (group : Fin 2) (before after : Tables) : Prop where
  column : ∀ position, position ∉ positions group → after.column position = before.column position
  result : ∀ other, other ≠ group → after.setResultTable other = before.setResultTable other

theorem SameOutside.refl (group : Fin 2) (tables : Tables) : SameOutside group tables tables where
  column := fun _ _ => rfl
  result := fun _ _ => rfl

theorem SameOutside.trans {group : Fin 2} {first second third : Tables}
    (left : SameOutside group first second) (right : SameOutside group second third) :
    SameOutside group first third where
  column := fun position hposition =>
    (right.column position hposition).trans (left.column position hposition)
  result := fun other hother => (right.result other hother).trans (left.result other hother)

theorem forColumns_eq {group : Fin 2} {body : Fin 8 × Fin 4 → Column → Option Column}
    {good : Fin 8 × Fin 4 → Column → Prop} (tables : Tables)
    (fill : ∀ position ∈ positions group,
      ∃ column, body position (tables.column position) = some column ∧ good position column) :
    ∃ grown, forColumns group body tables = some grown ∧
      grown.setResultTable = tables.setResultTable ∧ SameOutside group tables grown ∧
      ∀ position ∈ positions group, good position (grown.column position) := by
  obtain ⟨column, hrun, hin, hout⟩ := foldlM_update (positions_nodup group) tables.column fill
  refine ⟨{ tables with column := column }, ?_, rfl, ⟨hout, fun _ _ => rfl⟩, hin⟩
  simp only [forColumns, hrun, Option.bind_eq_bind, Option.bind_some, Option.pure_def]

/-- The rows of one group after some nodes. -/
structure GroupHolds (group : Fin 2) (nodes : List TreeNode) (tables : Tables) : Prop where
  column : ∀ position ∈ positions group, (tables.column position).Holds
    (nodes.map (fun node => (node.addr, node.halves (slot position))))
  result : (tables.setResultTable group).entries = nodes.flatMap TreeNode.resultRows

/-- Tables with nothing in the given group. -/
structure GroupEmpty (group : Fin 2) (tables : Tables) : Prop where
  column : ∀ position ∈ positions group, tables.column position = ⟨.empty, .empty, .empty⟩
  result : tables.setResultTable group = .empty

theorem initTable_eq {group : Fin 2} {tables : Tables} (unused : GroupEmpty group tables) :
    ∃ grown, initTable group tables = some grown ∧ SameOutside group tables grown ∧
      GroupHolds group [] grown := by
  have hfill : ∀ position ∈ positions group, ∃ column,
      initColumn (tables.column position) = some column ∧ column.Holds [] := by
    intro position hposition
    rw [unused.column position hposition]
    exact ⟨_, rfl, rfl, rfl, rfl⟩
  obtain ⟨grown, hrun, hkept, hsame, hcolumn⟩ := forColumns_eq tables hfill
  refine ⟨grown, hrun, hsame, hcolumn, ?_⟩
  rw [hkept, unused.result]
  rfl

/-- A node with a new address adds its rows. -/
theorem GroupHolds.setTable_eq {group : Fin 2} {nodes : List TreeNode} {tables : Tables}
    (holds : GroupHolds group nodes tables) {node : TreeNode}
    (fresh : node.addr ∉ nodes.map TreeNode.addr) :
    ∃ grown, setTable node.loaded group tables = some grown ∧ SameOutside group tables grown ∧
      GroupHolds group (nodes ++ [node]) grown := by
  have hfill : ∀ position ∈ positions group, ∃ column,
      addThresh node.loaded position (tables.column position) = some column ∧
        column.Holds ((nodes ++ [node]).map
          (fun node => (node.addr, node.halves (slot position)))) := by
    intro position hposition
    have hslot : slot position ∈ List.range 16 := by
      rw [← slots_of_positions group]
      exact List.mem_map_of_mem hposition
    have hholds := holds.column position hposition
    have hnew : node.addr ∉ (tables.column position).setThreshTable.entries.map Prod.fst := by
      simpa [hholds.thresh] using fresh
    obtain ⟨thresh, hadd, hentries⟩ := ExactTable.add_eq (node.halves (slot position)) hnew
    refine ⟨{ tables.column position with setThreshTable := thresh }, ?_, ?_, hholds.compHi,
      hholds.compLo⟩
    · have haddr : node.loaded.addr = node.addr := rfl
      simp only [addThresh, node.loaded_keys (List.mem_range.mp hslot), haddr, hadd,
        Option.bind_eq_bind, Option.bind_some, Option.pure_def]
    · rw [hentries, hholds.thresh, List.map_append, List.map_singleton]
  obtain ⟨filled, hrun, hkept, hsame, hcolumn⟩ := forColumns_eq tables hfill
  have hrows : (((filled.setResultTable group).entries ++ node.resultRows).map Prod.fst).Nodup := by
    rw [List.map_append, List.nodup_append]
    refine ⟨(filled.setResultTable group).distinct, resultRows_nodup node, ?_⟩
    rintro key hkey _ hnew rfl
    obtain ⟨row, hrow, rfl⟩ := List.mem_map.mp hkey
    obtain ⟨other, hother, hequal⟩ := List.mem_map.mp hnew
    rw [hkept, holds.result, List.mem_flatMap] at hrow
    obtain ⟨old, hold, hrow⟩ := hrow
    have haddr : node.addr = old.addr := by
      rw [← addr_of_mem_resultRows hother, ← addr_of_mem_resultRows hrow, hequal]
    exact fresh (haddr ▸ List.mem_map_of_mem hold)
  obtain ⟨result, hresult, hentries⟩ := foldlM_addResult hrows
  refine ⟨{ filled with
    setResultTable := Function.update filled.setResultTable group result }, ?_, ?_, hcolumn, ?_⟩
  · simp only [setTable, hrun, hresult, Option.bind_eq_bind, Option.bind_some, Option.pure_def]
  · exact hsame.trans ⟨fun _ _ => rfl, fun other hother => Function.update_of_ne hother _ _⟩
  · simp [hentries, hkept, holds.result]

theorem GroupHolds.foldlM_setTable {group : Fin 2} {nodes : List TreeNode} {tables : Tables}
    (holds : GroupHolds group [] tables) (distinct : (nodes.map TreeNode.addr).Nodup) :
    ∃ grown, (nodes.map TreeNode.loaded).foldlM (fun tables node => setTable node group tables)
        tables = some grown ∧
      SameOutside group tables grown ∧ GroupHolds group nodes grown := by
  induction nodes using List.reverseRecOn with
  | nil => exact ⟨tables, rfl, .refl group tables, holds⟩
  | append_singleton nodes node ih =>
      rw [List.map_append, List.nodup_append] at distinct
      obtain ⟨hnodes, -, happart⟩ := distinct
      have hfresh : node.addr ∉ nodes.map TreeNode.addr :=
        fun hmem => happart node.addr hmem node.addr (by simp) rfl
      obtain ⟨middle, hrun, hfirst, hholds⟩ := ih hnodes
      obtain ⟨grown, hset, hsecond, hgrown⟩ := hholds.setTable_eq hfresh
      refine ⟨grown, ?_, hfirst.trans hsecond, hgrown⟩
      rw [List.map_append, List.foldlM_append, hrun, List.map_singleton]
      simp [hset]

/-! ## The node file -/

def depthNodes (depth : Nat) (file : List (Nat × SwitchNode)) : List SwitchNode :=
  (file.filter (fun entry => entry.1 = depth)).map Prod.snd

/-- The lines of the node file. -/
def fileLines (file : List (Nat × SwitchNode)) : List (Nat × NodeLines) :=
  file.map (fun entry => (entry.1, entry.2.printInfo))

theorem depthNodes_append (depth : Nat) (file : List (Nat × SwitchNode)) (entry : Nat × SwitchNode) :
    depthNodes depth (file ++ [entry]) =
      depthNodes depth file ++ if entry.1 = depth then [entry.2] else [] := by
  by_cases hdepth : entry.1 = depth
  · simp [depthNodes, hdepth]
  · simp [depthNodes, hdepth]

theorem getD_addNode (nodes : List (List FBTNode)) (depth : Nat) (node : FBTNode) (layer : Nat) :
    (addNode nodes depth node).getD layer [] =
      nodes.getD layer [] ++ if depth = layer then [node] else [] := by
  have hpadded : (nodes ++ List.replicate (depth + 1 - nodes.length) []).getD layer [] =
      nodes.getD layer [] := by
    rcases Nat.lt_or_ge layer nodes.length with hold | hnew
    · simp only [List.getD_eq_getElem?_getD, List.getElem?_append_left hold]
    · simp only [List.getD_eq_getElem?_getD, List.getElem?_append_right hnew,
        List.getElem?_eq_none hnew, List.getElem?_replicate]
      split <;> rfl
  rw [← hpadded, addNode]
  rcases eq_or_ne depth layer with rfl | hne
  · have hlt : depth < (nodes ++ List.replicate (depth + 1 - nodes.length) []).length := by
      rw [List.length_append, List.length_replicate]
      omega
    simp [List.getD_eq_getElem?_getD, List.getElem?_eq_getElem hlt]
  · simp [List.getD_eq_getElem?_getD, hne]

theorem readNodes_eq (file : List (Nat × SwitchNode)) :
    ∃ nodes, readNodes (fileLines file) = some nodes ∧
      ∀ layer, nodes.getD layer [] =
        (depthNodes layer file).map (fun node => node.full.loaded) := by
  induction file using List.reverseRecOn with
  | nil => exact ⟨[], rfl, fun _ => rfl⟩
  | append_singleton file entry ih =>
      obtain ⟨nodes, hrun, hnodes⟩ := ih
      refine ⟨addNode nodes entry.1 entry.2.full.loaded, ?_, ?_⟩
      · rw [readNodes] at hrun ⊢
        rw [fileLines, List.map_append, List.foldlM_append]
        rw [fileLines] at hrun
        rw [hrun]
        simp [entry.2.readNode_printInfo]
      · intro layer
        rw [getD_addNode, hnodes, depthNodes_append, List.map_append]
        split <;> rfl

theorem loadLayer_eq {nodes : List (List FBTNode)} {layer : Nat} {layerNodes : List SwitchNode}
    (here : nodes.getD layer [] = layerNodes.map (fun node => node.full.loaded))
    (some_node : layerNodes ≠ []) (distinct : (layerNodes.map SwitchNode.addr).Nodup)
    {group : Fin 2} {tables : Tables} (unused : GroupEmpty group tables) :
    ∃ grown, loadLayer nodes layer group tables = some grown ∧ SameOutside group tables grown ∧
      GroupHolds group (layerNodes.map SwitchNode.full) grown := by
  have hlayer : nodes[layer]? = some (layerNodes.map (fun node => node.full.loaded)) := by
    rw [List.getD_eq_getElem?_getD] at here
    cases hfound : nodes[layer]? with
    | none =>
        rw [hfound] at here
        exact absurd (List.map_eq_nil_iff.mp here.symm) some_node
    | some found =>
        rw [hfound] at here
        exact congrArg some here
  obtain ⟨node, rest, rfl⟩ := List.exists_cons_of_ne_nil some_node
  obtain ⟨filled, hinit, hfirst, hholds⟩ := initTable_eq unused
  have haddrs : (((node :: rest).map SwitchNode.full).map TreeNode.addr).Nodup := by
    rw [List.map_map]
    exact distinct
  obtain ⟨grown, hrun, hsecond, hgrown⟩ := hholds.foldlM_setTable haddrs
  refine ⟨grown, ?_, hfirst.trans hsecond, hgrown⟩
  rw [List.map_map] at hrun
  have hhead : ((node :: rest).map (fun node => node.full.loaded))[0]? = some node.full.loaded := rfl
  simp only [loadLayer, hlayer, hhead, hinit, Option.bind_eq_bind, Option.bind_some]
  exact hrun

theorem addAddrs_eq (addrs : List (BitVec 48)) :
    ∃ table, addAddrs addrs = some table ∧ ∀ i, table.lookup i = addrs[i]? := by
  have hrows : ∀ count ≤ addrs.length, ∃ table,
      (List.range count).foldlM
        (fun (table : ExactTable Nat (BitVec 48)) i => do
          let addr ← addrs[i]?
          table.add i addr)
        .empty = some table ∧
      table.entries = (List.range count).map (fun i => (i, addrs.getD i 0)) := by
    intro count
    induction count with
    | zero => exact fun _ => ⟨.empty, rfl, rfl⟩
    | succ count ih =>
        intro hcount
        obtain ⟨table, hrun, hentries⟩ := ih (Nat.le_of_succ_le hcount)
        have hfresh : count ∉ table.entries.map Prod.fst := by
          rw [hentries, List.map_map]
          simp
        obtain ⟨grown, hadd, hgrown⟩ := ExactTable.add_eq (addrs.getD count 0) hfresh
        refine ⟨grown, ?_, ?_⟩
        · rw [List.range_succ, List.foldlM_append, hrun]
          simp [List.getElem?_eq_getElem hcount, ← hadd]
        · rw [hgrown, hentries, List.range_succ, List.map_append, List.map_singleton]
  obtain ⟨table, hrun, hentries⟩ := hrows addrs.length (Nat.le_refl _)
  refine ⟨table, hrun, ?_⟩
  intro i
  rcases Nat.lt_or_ge i addrs.length with hin | hout
  · rw [List.getElem?_eq_getElem hin, ExactTable.lookup_eq_some_iff, hentries, List.mem_map]
    exact ⟨i, List.mem_range.mpr hin, by simp [hin]⟩
  · rw [List.getElem?_eq_none hout, ExactTable.lookup_eq_none_iff, hentries]
    rintro data hmem
    obtain ⟨j, hj, heq⟩ := List.mem_map.mp hmem
    cases heq
    exact absurd (List.mem_range.mp hj) (Nat.not_lt.mpr hout)

/-! ## The loaded switch -/

theorem not_mem_positions {group other : Fin 2} (differ : other ≠ group) {position : Fin 8 × Fin 4}
    (hposition : position ∈ positions group) : position ∉ positions other := by
  intro hother
  have hgroup := (mem_positions_iff group position).mp hposition
  exact differ (((mem_positions_iff other position).mp hother).symm.trans hgroup)

theorem GroupHolds.of_sameOutside {group other : Fin 2} (differ : other ≠ group)
    {nodes : List TreeNode} {before after : Tables} (holds : GroupHolds group nodes before)
    (same : SameOutside other before after) : GroupHolds group nodes after where
  column := by
    intro position hposition
    rw [same.column position (not_mem_positions differ hposition)]
    exact holds.column position hposition
  result := by
    rw [same.result group differ.symm]
    exact holds.result

theorem GroupEmpty.of_sameOutside {group other : Fin 2} (differ : other ≠ group)
    {before after : Tables} (unused : GroupEmpty group before)
    (same : SameOutside other before after) : GroupEmpty group after where
  column := by
    intro position hposition
    rw [same.column position (not_mem_positions differ hposition)]
    exact unused.column position hposition
  result := by
    rw [same.result group differ.symm]
    exact unused.result

theorem groupEmpty_empty (group : Fin 2) : GroupEmpty group .empty where
  column := fun _ _ => rfl
  result := rfl

theorem installed_of_groups {calls : List (Fin 2 × TreeNode)} {tables : Tables}
    (groups : ∀ group, GroupHolds group (nodesAt group calls) tables ∨
      nodesAt group calls = [] ∧ GroupEmpty group tables) :
    Installed calls tables where
  thresh := by
    intro position
    have hposition := (mem_positions_iff _ position).mpr rfl
    rcases groups (layerOf position) with hholds | ⟨hnone, hunused⟩
    · exact (hholds.column position hposition).thresh
    · rw [hnone, hunused.column position hposition]
      rfl
  comp := by
    intro position hsome
    have hposition := (mem_positions_iff _ position).mpr rfl
    rcases groups (layerOf position) with hholds | ⟨hnone, -⟩
    · have hcolumn := hholds.column position hposition
      exact ⟨hcolumn.compHi, hcolumn.compLo⟩
    · exact absurd hnone hsome
  result := by
    intro group
    rcases groups group with hholds | ⟨hnone, hunused⟩
    · exact hholds.result
    · rw [hnone, hunused.result]
      rfl

/-- Nodes that were set in one group. -/
def groupCalls (group : Fin 2) (nodes : List SwitchNode) : List (Fin 2 × TreeNode) :=
  nodes.map (fun node => (group, node.full))

theorem nodesAt_groupCalls (group : Fin 2) (nodes : List SwitchNode) :
    nodesAt group (groupCalls group nodes) = nodes.map SwitchNode.full := by
  induction nodes with
  | nil => rfl
  | cons node rest ih =>
      rw [groupCalls, List.map_cons, nodesAt, List.filter_cons_of_pos (by simp), List.map_cons]
      exact congrArg _ ih

theorem nodesAt_groupCalls_of_ne {group other : Fin 2} (differ : other ≠ group)
    (nodes : List SwitchNode) : nodesAt group (groupCalls other nodes) = [] := by
  induction nodes with
  | nil => rfl
  | cons node rest ih =>
      rw [groupCalls, List.map_cons, nodesAt, List.filter_cons_of_neg (by simpa using differ)]
      exact ih

theorem nodesAt_append_calls (group : Fin 2) (calls more : List (Fin 2 × TreeNode)) :
    nodesAt group (calls ++ more) = nodesAt group calls ++ nodesAt group more := by
  rw [nodesAt, List.filter_append, List.map_append]
  rfl

/-- The nodes of `Ingress1` by layer. -/
theorem nodesAt_both (first second : List SwitchNode) :
    nodesAt 0 (groupCalls 0 first ++ groupCalls 1 second) = first.map SwitchNode.full ∧
      nodesAt 1 (groupCalls 0 first ++ groupCalls 1 second) = second.map SwitchNode.full := by
  have hne : (1 : Fin 2) ≠ 0 := by decide
  constructor
  · rw [nodesAt_append_calls, nodesAt_groupCalls, nodesAt_groupCalls_of_ne hne, List.append_nil]
  · rw [nodesAt_append_calls, nodesAt_groupCalls, nodesAt_groupCalls_of_ne hne.symm,
      List.nil_append]

/-- What the switch holds after the script. -/
structure SwitchTables.Loaded (tables : SwitchTables) (rangeTables : Tcam.Tables)
    (addrs : List (BitVec 48)) (remoteStag : BitVec 32) (file : List (Nat × SwitchNode)) :
    Prop where
  rangeTables : tables.rangeTables = rangeTables
  setAddrTable : ∀ i, tables.setAddrTable.lookup i = addrs[i]?
  ingress0 : Installed (groupCalls 0 (depthNodes 1 file)) tables.ingress0
  ingress1 : Installed (groupCalls 0 (depthNodes 2 file) ++ groupCalls 1 (depthNodes 3 file))
    tables.ingress1
  remoteStag : tables.remoteStag = remoteStag

/-- The script succeeds on layers with at least one node and without repeated addresses. -/
theorem config_eq (rangeTables : Tcam.Tables) (addrs : List (BitVec 48)) (remoteStag : BitVec 32)
    {file : List (Nat × SwitchNode)}
    (some_node : ∀ layer ∈ [1, 2, 3], depthNodes layer file ≠ [])
    (distinct : ∀ layer ∈ [1, 2, 3], ((depthNodes layer file).map SwitchNode.addr).Nodup) :
    ∃ tables, config rangeTables addrs remoteStag (fileLines file) = some tables ∧
      tables.Loaded rangeTables addrs remoteStag file := by
  obtain ⟨setAddrTable, haddrs, hlookup⟩ := addAddrs_eq addrs
  obtain ⟨nodes, hread, hnodes⟩ := readNodes_eq file
  have hload : ∀ layer ∈ [1, 2, 3], ∀ group tables, GroupEmpty group tables →
      ∃ grown, loadLayer nodes layer group tables = some grown ∧ SameOutside group tables grown ∧
        GroupHolds group ((depthNodes layer file).map SwitchNode.full) grown :=
    fun layer hlayer _ _ hunused =>
      loadLayer_eq (hnodes layer) (some_node layer hlayer) (distinct layer hlayer) hunused
  have hne : (1 : Fin 2) ≠ 0 := by decide
  obtain ⟨ingress0, hfirst, hsame1, hholds1⟩ := hload 1 (by simp) 0 _ (groupEmpty_empty 0)
  obtain ⟨half, hsecond, hsame2, hholds2⟩ := hload 2 (by simp) 0 _ (groupEmpty_empty 0)
  obtain ⟨ingress1, hthird, hsame3, hholds3⟩ := hload 3 (by simp) 1 half
    ((groupEmpty_empty 1).of_sameOutside hne.symm hsame2)
  refine ⟨⟨rangeTables, setAddrTable, ingress0, ingress1, remoteStag⟩, ?_, rfl, hlookup, ?_, ?_, rfl⟩
  · simp only [config, haddrs, hread, hfirst, hsecond, hthird, Option.bind_eq_bind,
      Option.bind_some, Option.pure_def]
  · refine installed_of_groups (fun group => ?_)
    match group with
    | 0 =>
        rw [nodesAt_groupCalls]
        exact Or.inl hholds1
    | 1 =>
        exact Or.inr ⟨nodesAt_groupCalls_of_ne hne.symm _,
          (groupEmpty_empty 1).of_sameOutside hne.symm hsame1⟩
  · obtain ⟨hlower, hupper⟩ := nodesAt_both (depthNodes 2 file) (depthNodes 3 file)
    refine installed_of_groups (fun group => Or.inl ?_)
    match group with
    | 0 =>
        rw [hlower]
        exact hholds2.of_sameOutside hne hsame3
    | 1 =>
        rw [hupper]
        exact hholds3

end FatBTree.Rdma
