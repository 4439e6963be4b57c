import FatBTree.Sram.Install
import FatBTree.Sram.Pipeline

/-!
# From node files to tables

The script reads the digits of a node as numbers when it fills the tables.  A node that was
printed with sorted keys is in the tables as it is in the tree.
-/

namespace FatBTree.Sram.NodeInfo

/-! ## The script -/

/-- A node as the table calls take it. -/
def tableNode (node : FBTNode) : Option Sram.FBTNode := do
  let keys ← node.keys.mapM fun key => do
    let hi ← key.1.value
    let lo ← key.2.value
    return (BitVec.ofNat 32 hi, BitVec.ofNat 32 lo)
  return ⟨BitVec.ofNat 48 node.addr, node.children.map (BitVec.ofNat 48), keys⟩

/-- `set_table`, which asserts that the layer is 0 or 1. -/
def setTable (tables : Tables) (call : SetTable) : Option Tables := do
  let node ← tableNode call.node
  let layer ← if call.layer = 0 then some 0 else if call.layer = 1 then some 1 else none
  node.setTable layer false tables

/-- The whole script on the files of four servers. -/
def configTables (file1 file2 file3 file4 : ServerFile) : Option Tables := do
  let calls ← printAndLoad file1 file2 file3 file4
  calls.foldlM setTable Tables.empty

/-! ## Nodes -/

/-- A printed node that the tables can hold. -/
structure PrintedNode.Fits (node : PrintedNode) : Prop where
  sorted : node.numbers.Pairwise (· ≤ ·)
  few : node.keys.length ≤ 15
  arity : node.children.length = node.keys.length + 1

/-- The tree node behind a printed node. -/
def PrintedNode.tree (node : PrintedNode) (fits : node.Fits) : TreeNode where
  addr := node.address.getD 0
  keys := node.numbers
  children := node.children
  sorted := fits.sorted
  few := by
    rw [PrintedNode.numbers, List.length_map]
    exact fits.few
  children_length := by
    rw [PrintedNode.numbers, List.length_map]
    exact fits.arity

theorem toSixteen_eq {α : Type} {xs : List α} (hne : xs ≠ []) :
    toSixteen xs = xs ++ List.replicate (16 - xs.length) (xs.getLast hne) := by
  rw [toSixteen, List.getLast?_eq_some_getLast hne]

/-- A loop over the elements that succeeds at each of them. -/
theorem mapM_eq_map {α β : Type} {f : α → Option β} {g : α → β} {xs : List α}
    (each : ∀ x ∈ xs, f x = some (g x)) : xs.mapM f = some (xs.map g) := by
  induction xs with
  | nil => rfl
  | cons x rest ih =>
      rw [List.mapM_cons, each x List.mem_cons_self,
        ih fun y hy => each y (List.mem_cons_of_mem x hy)]
      rfl

section Node

variable (node : PrintedNode) (fits : node.Fits)

theorem addr_ofNat : BitVec.ofNat 48 node.addr.toNat = node.address.getD 0 := by
  rw [PrintedNode.addr]
  cases node.address with
  | none => rfl
  | some address =>
      rw [Option.map_some, Option.getD_some, Option.getD_some, toNat_setWidth_address,
        BitVec.ofNat_toNat, BitVec.setWidth_eq]

theorem childAddrs_ofNat :
    (node.childAddrs.map BitVec.toNat).map (BitVec.ofNat 48) = node.children := by
  rw [PrintedNode.childAddrs, List.map_map, List.map_map]
  refine (List.map_congr_left fun c _ => ?_).trans (List.map_id _)
  simp only [Function.comp_apply, id_eq]
  rw [toNat_setWidth_address, BitVec.ofNat_toNat, BitVec.setWidth_eq]

theorem paddedChildren_tree : (node.tree fits).paddedChildren = toSixteen node.children :=
  (toSixteen_eq node.children_ne_nil).symm

theorem thresholds_tree : (node.tree fits).thresholds = toSixteen (0 :: node.numbers) :=
  (toSixteen_eq (List.cons_ne_nil _ _)).symm

/-- The script makes of a printed node what the tree node asks for. -/
theorem tableNode_loaded : tableNode node.loaded = some (node.tree fits).loaded := by
  let half (key : KeyField × KeyField) : BitVec 32 × BitVec 32 :=
    (BitVec.ofNat 32 (key.1.value.getD 0), BitVec.ofNat 32 (key.2.value.getD 0))
  have hhalf : ∀ number : BitVec 64, half (keyField number) = (keyHi number, keyLo number) := by
    intro number
    simp only [half, keyField, KeyField.value, Text.readNumber_decimal, Option.getD_some,
      BitVec.ofNat_toNat, BitVec.setWidth_eq]
  have hkeys : node.loaded.keys.map half =
      (node.tree fits).thresholds.map fun k => (keyHi k, keyLo k) := by
    rw [thresholds_tree, map_toSixteen, PrintedNode.loaded, map_toSixteen, List.map_cons,
      List.map_cons, List.map_map]
    refine congrArg (fun rest => toSixteen ((0, 0) :: rest)) ?_
    exact List.map_congr_left fun number _ => hhalf number
  have hvalue : ∀ key ∈ node.loaded.keys, ∃ hi lo,
      key.1.value = some hi ∧ key.2.value = some lo := by
    intro key hkey
    have hmem : key ∈ (.int 0, .int 0) :: node.numbers.map keyField := by
      rw [PrintedNode.loaded, toSixteen_eq (List.cons_ne_nil _ _)] at hkey
      rcases List.mem_append.mp hkey with hlisted | hpadding
      · exact hlisted
      · rw [List.eq_of_mem_replicate hpadding]
        exact List.getLast_mem _
    rcases List.mem_cons.mp hmem with rfl | hnumber
    · exact ⟨0, 0, rfl, rfl⟩
    · obtain ⟨number, -, rfl⟩ := List.mem_map.mp hnumber
      exact ⟨_, _, Text.readNumber_decimal _, Text.readNumber_decimal _⟩
  have hread := mapM_eq_map (g := half)
    (f := fun key => do
      let hi ← key.1.value
      let lo ← key.2.value
      return (BitVec.ofNat 32 hi, BitVec.ofNat 32 lo)) fun key hkey => by
    obtain ⟨hi, lo, hhi, hlo⟩ := hvalue key hkey
    simp only [half, hhi, hlo, Option.bind_eq_bind, Option.bind_some, Option.pure_def,
      Option.getD_some]
  rw [tableNode, hread]
  simp only [Option.bind_eq_bind, Option.bind_some, Option.pure_def, Option.some_inj]
  have hchildren : node.loaded.children.map (BitVec.ofNat 48) = (node.tree fits).paddedChildren := by
    rw [paddedChildren_tree, PrintedNode.loaded, map_toSixteen, childAddrs_ofNat]
  have haddr : BitVec.ofNat 48 node.loaded.addr = (node.tree fits).addr := addr_ofNat node
  rw [TreeNode.loaded, hkeys, hchildren, haddr]

end Node

/-! ## The calls -/

/-- The layer of the tables that a node goes to. -/
def PrintedNode.group (node : PrintedNode) : Fin 2 :=
  if node.depth = 1 then 0 else 1

theorem setTable_wantedCall (node : PrintedNode) (fits : node.Fits) (tables : Tables) :
    setTable tables (wantedCall node) = (node.tree fits).loaded.setTable node.group false tables := by
  have hnode : (wantedCall node).node = node.loaded := by
    rw [wantedCall]
    split <;> rfl
  rw [setTable, hnode, tableNode_loaded node fits, PrintedNode.group, wantedCall]
  split <;> rfl

/-- The calls of the script that are made, as tree nodes. -/
def treeCalls (nodes : List PrintedNode) (fits : ∀ node ∈ nodes, node.Fits) :
    List (Fin 2 × TreeNode) :=
  nodes.pmap (fun node h => (node.group, node.tree h)) fits

theorem map_treeCalls (nodes : List PrintedNode) (fits : ∀ node ∈ nodes, node.Fits) :
    (treeCalls nodes fits).map (fun call => (call.1, call.2.addr)) =
      nodes.map fun node => (node.group, node.address.getD 0) := by
  induction nodes with
  | nil => rfl
  | cons node rest ih =>
      exact congrArg _ (ih fun other hother => fits other (List.mem_cons_of_mem _ hother))

/-- Addresses that differ within every layer. -/
theorem nodup_nodesAt {calls : List (Fin 2 × TreeNode)}
    (hpairs : (calls.map fun call => (call.1, call.2.addr)).Nodup) (layer : Fin 2) :
    ((nodesAt layer calls).map TreeNode.addr).Nodup := by
  have hkept : ((calls.filter fun call => call.1 = layer).map
      fun call => (call.1, call.2.addr)).Nodup :=
    (List.filter_sublist.map _).nodup hpairs
  have hsame : ((nodesAt layer calls).map TreeNode.addr).map (fun addr => (layer, addr)) =
      (calls.filter fun call => call.1 = layer).map fun call => (call.1, call.2.addr) := by
    rw [nodesAt, List.map_map, List.map_map]
    refine List.map_congr_left fun call hcall => ?_
    have hlayer := of_decide_eq_true (List.mem_filter.mp hcall).2
    simp only [Function.comp_apply, hlayer]
  exact List.Nodup.of_map _ (hsame ▸ hkept)

theorem foldlM_setTable {nodes : List PrintedNode} (fits : ∀ node ∈ nodes, node.Fits)
    (tables : Tables) :
    (nodes.map wantedCall).foldlM setTable tables =
      (treeCalls nodes fits).foldlM (fun tables call => do
        let node ← Sram.readNode call.2.printInfo
        node.setTable call.1 false tables) tables := by
  induction nodes generalizing tables with
  | nil => rfl
  | cons node rest ih =>
      have hcalls : treeCalls (node :: rest) fits =
          (node.group, node.tree (fits node List.mem_cons_self)) ::
            treeCalls rest fun other hother => fits other (List.mem_cons_of_mem _ hother) := rfl
      rw [hcalls, List.map_cons, List.foldlM_cons, List.foldlM_cons,
        setTable_wantedCall node (fits node List.mem_cons_self), TreeNode.readNode_printInfo]
      exact congrArg _ (funext fun next => ih _ next)

/-- The calls are made for some of the listed nodes, each of them once. -/
theorem printAndLoad_subperm (file1 file2 file3 file4 : ServerFile) :
    ∃ kept : List PrintedNode,
      printAndLoad file1 file2 file3 file4 = some (kept.map wantedCall) ∧
      kept.Subperm ([file1, file2, file3, file4].flatMap ServerFile.listed) := by
  have heq := printAndLoad_eq file1 file2 file3 file4 rfl
  have hdepths : ∀ node ∈ [file1, file2, file3, file4].flatMap ServerFile.listed,
      node.depth = 1 ∨ node.depth = 2 := by
    intro node hnode
    obtain ⟨file, -, hlisted⟩ := List.mem_flatMap.mp hnode
    exact ServerFile.listed_depth hlisted
  generalize [file1, file2, file3, file4].flatMap ServerFile.listed = nodes at heq hdepths
  cases hlast : nodes.getLast? with
  | none =>
      refine ⟨[], ?_, List.nil_subperm⟩
      rw [heq, hlast]
      rfl
  | some last =>
      have hlayer := layerOf_loaded hdepths (List.mem_of_getLast? hlast)
      rw [hlast, Option.map_some, Option.getD_some, hlayer] at heq
      rcases hdepths last (List.mem_of_getLast? hlast) with hone | htwo
      · have hrange : List.range ((1 : BitVec 32).toNat + 1) = [0, 1] := rfl
        rw [hone, hrange, List.flatMap_cons, List.flatMap_cons, List.flatMap_nil, List.append_nil,
          callsOf_zero hdepths, callsOf_one hdepths, List.nil_append] at heq
        exact ⟨_, heq, List.filter_sublist.subperm⟩
      · have hrange : List.range ((2 : BitVec 32).toNat + 1) = [0, 1, 2] := rfl
        rw [htwo, hrange, List.flatMap_cons, List.flatMap_cons, List.flatMap_cons,
          List.flatMap_nil, List.append_nil, callsOf_zero hdepths, callsOf_one hdepths,
          callsOf_two hdepths, List.nil_append, ← List.map_append] at heq
        exact ⟨_, heq, (List.filter_append_perm _ nodes).subperm⟩

/-- The script succeeds on nodes that fit, if no two nodes of a layer have one address, and
what is in the tables was listed. -/
theorem configTables_eq {file1 file2 file3 file4 : ServerFile}
    (fits : ∀ node ∈ [file1, file2, file3, file4].flatMap ServerFile.listed, node.Fits)
    (distinct : (([file1, file2, file3, file4].flatMap ServerFile.listed).map fun node =>
      (node.group, node.address.getD 0)).Nodup) :
    ∃ tables calls, configTables file1 file2 file3 file4 = some tables ∧ Installed calls tables ∧
      ∀ call ∈ calls, ∃ node ∈ [file1, file2, file3, file4].flatMap ServerFile.listed,
        ∃ h : node.Fits, call = (node.group, node.tree h) := by
  obtain ⟨kept, hcalls, hsub⟩ := printAndLoad_subperm file1 file2 file3 file4
  have hfits : ∀ node ∈ kept, node.Fits := fun node hnode => fits node (hsub.subset hnode)
  have hmem : ∀ call ∈ treeCalls kept hfits, ∃ node ∈ kept, ∃ h : node.Fits,
      call = (node.group, node.tree h) := by
    intro call hcall
    obtain ⟨node, hnode, rfl⟩ := List.mem_pmap.mp hcall
    exact ⟨node, hnode, hfits node hnode, rfl⟩
  have hpairs : ((treeCalls kept hfits).map fun call => (call.1, call.2.addr)).Nodup := by
    obtain ⟨listed, hperm, hsublist⟩ := hsub
    rw [map_treeCalls]
    exact (hperm.map _).nodup_iff.mp ((hsublist.map _).nodup distinct)
  obtain ⟨tables, hinstall, installed⟩ := install_eq (treeCalls kept hfits)
    fun layer => nodup_nodesAt hpairs layer
  refine ⟨tables, _, ?_, installed, fun call hcall => ?_⟩
  · rw [configTables, hcalls]
    simp only [Option.bind_eq_bind, Option.bind_some]
    rw [foldlM_setTable hfits]
    exact hinstall
  · obtain ⟨node, hnode, h, rfl⟩ := hmem call hcall
    exact ⟨node, hsub.subset hnode, h, rfl⟩

end FatBTree.Sram.NodeInfo
