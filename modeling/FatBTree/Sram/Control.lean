import FatBTree.P4.ExactTable
import FatBTree.Sram.Compare
import Mathlib.Data.Fintype.Prod
import Mathlib.Logic.Function.Basic

/-!
# Loading tree nodes into the SRAM tables

A node line triple is read, padded to sixteen keys and children, and written to
the tables of one of the two groups.
-/

namespace FatBTree.Sram

open FatBTree.P4

/-! ## Nodes -/

/-- A tree node with its keys in order and one child more than keys. -/
structure TreeNode where
  addr : BitVec 48
  keys : List (BitVec 64)
  children : List (BitVec 48)
  sorted : keys.Pairwise (· ≤ ·)
  few : keys.length ≤ 15
  children_length : children.length = keys.length + 1

/-- The numbers on the three lines of a node. -/
structure NodeLines where
  selfaddr : BitVec 48
  selfkeys : List (BitVec 32)
  childrenaddr : List (BitVec 48)

/-- The lines `print_info` writes. -/
def TreeNode.printInfo (node : TreeNode) : NodeLines where
  selfaddr := node.addr
  selfkeys := 0 :: 0 :: node.keys.flatMap (fun k => [keyHi k, keyLo k])
  childrenaddr := node.children

structure FBTNode where
  addr : BitVec 48
  children : List (BitVec 48)
  keys : List (BitVec 32 × BitVec 32)

/-- The loop over `range(0, len(selfkeys), 2)`. -/
def keyPairs : List (BitVec 32) → Option (List (BitVec 32 × BitVec 32))
  | [] => some []
  | [_] => none
  | hi :: lo :: rest => (keyPairs rest).map (fun pairs => (hi, lo) :: pairs)

/-- A `while` loop that appends the last element `missing` times. -/
def padLast {α : Type} : Nat → List α → Option (List α)
  | 0, xs => some xs
  | missing + 1, xs => xs.getLast?.bind (fun x => padLast missing (xs ++ [x]))

def readNode (lines : NodeLines) : Option FBTNode := do
  let pairs ← keyPairs (lines.selfkeys.drop 2)
  let keys := (0, 0) :: pairs
  let children ← padLast (16 - lines.childrenaddr.length) lines.childrenaddr
  let keys ← padLast (16 - keys.length) keys
  return { addr := lines.selfaddr, children := children, keys := keys }

/-! ## Tables -/

/-- `set_comp_action_a_b_hi_s` and `_k`, and likewise for `lo`. -/
inductive CompAction where
  | s
  | k
  deriving DecidableEq, Repr

/-- `set_thresh_table_a_b`, `set_comp_table_a_b_hi` and `set_comp_table_a_b_lo`. -/
structure Column where
  setThreshTable : ExactTable (BitVec 48) (BitVec 32 × BitVec 32)
  setCompTableHi : ExactTable Bool CompAction
  setCompTableLo : ExactTable Bool CompAction

/-- The tables of `pipe.Ingress`.  The two result tables are numbered by layer. -/
structure Tables where
  column : Fin 8 × Fin 4 → Column
  setResultTable : Fin 2 → ExactTable (BitVec 48 × List Bool) (BitVec 48)

def Tables.empty : Tables where
  column := fun _ => ⟨.empty, .empty, .empty⟩
  setResultTable := fun _ => .empty

def stages : Fin 2 → List (Fin 8)
  | 0 => [0, 1, 2, 3]
  | 1 => [4, 5, 6, 7]

/-- The index pairs `a_b` of the tables of one layer, in the order of the source. -/
def positions (layer : Fin 2) : List (Fin 8 × Fin 4) :=
  (stages layer).flatMap (fun a => [0, 1, 2, 3].map (fun b => (a, b)))

/-- The number of the key that goes to the tables `a_b`. -/
def slot (position : Fin 8 × Fin 4) : Nat :=
  4 * (position.1.val % 4) + position.2.val

def layerOf (position : Fin 8 × Fin 4) : Fin 2 :=
  if position.1.val < 4 then 0 else 1

/-- The match bits of result row `i`. -/
def ones (count : Nat) : List Bool :=
  List.replicate count true ++ List.replicate (16 - count) false

def fillComp : Option (ExactTable Bool CompAction) := do
  let table ← ExactTable.empty.add false .s
  table.add true .k

/-- The block of `set_table` for the tables `a_b`. -/
def Column.set (column : Column) (addr : BitVec 48) (key : BitVec 32 × BitVec 32)
    (clear : Bool) : Option Column := do
  let table := if clear then .empty else column.setThreshTable
  let thresh ← table.add addr key
  let hi ← fillComp
  let lo ← fillComp
  return ⟨thresh, hi, lo⟩

def FBTNode.setColumn (node : FBTNode) (clear : Bool) (tables : Tables)
    (position : Fin 8 × Fin 4) : Option Tables := do
  let key ← node.keys[slot position]?
  let column ← (tables.column position).set node.addr key clear
  return { tables with column := Function.update tables.column position column }

/-- The call of `add_with_set_result_action` for child `i`. -/
def FBTNode.addResult (node : FBTNode) (table : ExactTable (BitVec 48 × List Bool) (BitVec 48))
    (i : Nat) : Option (ExactTable (BitVec 48 × List Bool) (BitVec 48)) := do
  let child ← node.children[i]?
  table.add (node.addr, ones (i + 1)) child

def FBTNode.setTable (node : FBTNode) (layer : Fin 2) (clear : Bool) (tables : Tables) :
    Option Tables := do
  let tables ← (positions layer).foldlM (node.setColumn clear) tables
  let table := if clear then .empty else tables.setResultTable layer
  let result ← (List.range 16).foldlM node.addResult table
  return { tables with setResultTable := Function.update tables.setResultTable layer result }

/-- The loading loop: every node is read and set, with `clear` off. -/
def install (calls : List (Fin 2 × TreeNode)) : Option Tables :=
  calls.foldlM
    (fun tables call => do
      let node ← readNode call.2.printInfo
      node.setTable call.1 false tables)
    Tables.empty

theorem mem_positions_iff : ∀ layer position,
    position ∈ positions layer ↔ layerOf position = layer := by
  decide

theorem positions_nodup : ∀ layer, (positions layer).Nodup := by
  decide

theorem slots_of_positions : ∀ layer, (positions layer).map slot = List.range 16 := by
  decide

/-- Two loops with the same body on the elements of the list. -/
theorem foldlM_congr_of_mem {α β : Type} {xs : List α} {f g : β → α → Option β}
    (same : ∀ x ∈ xs, ∀ b, f b x = g b x) (b : β) : xs.foldlM f b = xs.foldlM g b := by
  induction xs generalizing b with
  | nil => rfl
  | cons x rest ih =>
      rw [List.foldlM_cons, List.foldlM_cons, same x List.mem_cons_self]
      exact congrArg _ (funext (ih (fun y hy => same y (List.mem_cons_of_mem _ hy))))

/-! ## Padding -/

theorem padLast_eq {α : Type} (missing : Nat) {xs : List α} {x : α} (last : xs.getLast? = some x) :
    padLast missing xs = some (xs ++ List.replicate missing x) := by
  induction missing generalizing xs with
  | zero => simp [padLast]
  | succ missing ih =>
      have hnext : (xs ++ [x]).getLast? = some x := by simp
      rw [padLast, last, Option.bind_some, ih hnext, List.append_assoc, List.replicate_succ]
      rfl

theorem keyPairs_halves (keys : List (BitVec 64)) :
    keyPairs (keys.flatMap (fun k => [keyHi k, keyLo k])) =
      some (keys.map (fun k => (keyHi k, keyLo k))) := by
  induction keys with
  | nil => rfl
  | cons k rest ih =>
      rw [List.flatMap_cons, List.map_cons, List.cons_append, List.cons_append, List.nil_append,
        keyPairs, ih]
      rfl

namespace TreeNode

variable (node : TreeNode)

def bounds : List (BitVec 64) := 0 :: node.keys

theorem bounds_ne_nil : node.bounds ≠ [] :=
  List.cons_ne_nil _ _

def lastBound : BitVec 64 := node.bounds.getLast node.bounds_ne_nil

theorem children_ne_nil : node.children ≠ [] := by
  intro hnil
  have hlen := node.children_length
  rw [hnil] at hlen
  cases hlen

def lastChild : BitVec 48 := node.children.getLast node.children_ne_nil

/-- The sixteen thresholds the switch compares a key with. -/
def thresholds : List (BitVec 64) :=
  node.bounds ++ List.replicate (16 - node.bounds.length) node.lastBound

def paddedChildren : List (BitVec 48) :=
  node.children ++ List.replicate (16 - node.children.length) node.lastChild

theorem thresholds_length : node.thresholds.length = 16 := by
  have hfew := node.few
  simp only [thresholds, bounds, List.length_append, List.length_cons, List.length_replicate]
  omega

theorem paddedChildren_length : node.paddedChildren.length = 16 := by
  have hfew := node.few
  have hlen := node.children_length
  simp only [paddedChildren, List.length_append, List.length_replicate]
  omega

/-- The node object that the loader builds. -/
def loaded : FBTNode where
  addr := node.addr
  children := node.paddedChildren
  keys := node.thresholds.map (fun k => (keyHi k, keyLo k))

theorem readNode_printInfo : readNode node.printInfo = some node.loaded := by
  have hkeys : (0, 0) :: node.keys.map (fun k => (keyHi k, keyLo k)) =
      node.bounds.map (fun k => (keyHi k, keyLo k)) := rfl
  have hlast : (node.bounds.map (fun k => (keyHi k, keyLo k))).getLast? =
      some (keyHi node.lastBound, keyLo node.lastBound) := by
    rw [List.getLast?_map, List.getLast?_eq_some_getLast node.bounds_ne_nil]
    rfl
  have hchild : node.children.getLast? = some node.lastChild :=
    List.getLast?_eq_some_getLast node.children_ne_nil
  simp only [readNode, printInfo, List.drop_succ_cons, List.drop_zero, keyPairs_halves, hkeys,
    padLast_eq _ hlast, padLast_eq _ hchild, Option.bind_eq_bind, Option.bind_some,
    Option.pure_def, loaded, thresholds, paddedChildren, List.map_append, List.map_replicate,
    List.length_map]

/-- The halves of threshold `j`. -/
def halves (j : Nat) : BitVec 32 × BitVec 32 :=
  (keyHi (node.thresholds.getD j 0), keyLo (node.thresholds.getD j 0))

/-- The rows of the node in its result table. -/
def resultRows : List ((BitVec 48 × List Bool) × BitVec 48) :=
  (List.range 16).map (fun i => ((node.addr, ones (i + 1)), node.paddedChildren.getD i 0))

theorem loaded_keys {j : Nat} (hj : j < 16) : node.loaded.keys[j]? = some (node.halves j) := by
  have hlen : j < node.thresholds.length := by rwa [thresholds_length]
  simp only [loaded, halves, List.getElem?_map, List.getElem?_eq_getElem hlen, Option.map_some,
    List.getD_eq_getElem?_getD, Option.getD_some]

theorem loaded_children {i : Nat} (hi : i < 16) :
    node.loaded.children[i]? = some (node.paddedChildren.getD i 0) := by
  have hlen : i < node.paddedChildren.length := by rwa [paddedChildren_length]
  simp only [loaded, List.getElem?_eq_getElem hlen, List.getD_eq_getElem?_getD, Option.getD_some]

end TreeNode

/-! ## What the tables hold -/

theorem ones_inj {first second : Nat} (same : ones first = ones second) : first = second := by
  have hcount : ∀ count, (ones count).count true = count := by
    intro count
    simp [ones, List.count_replicate]
  rw [← hcount first, ← hcount second, same]

theorem resultRows_nodup (node : TreeNode) : (node.resultRows.map Prod.fst).Nodup := by
  rw [TreeNode.resultRows, List.map_map]
  refine List.Nodup.map ?_ List.nodup_range
  intro i j hij
  have hones : ones (i + 1) = ones (j + 1) := (Prod.mk.inj hij).2
  exact Nat.succ.inj (ones_inj hones)

theorem addr_of_mem_resultRows {node : TreeNode} {row : (BitVec 48 × List Bool) × BitVec 48}
    (hrow : row ∈ node.resultRows) : row.1.1 = node.addr := by
  obtain ⟨i, -, rfl⟩ := List.mem_map.mp hrow
  rfl

/-- The two rows of a comparison table. -/
def compEntries : List (Bool × CompAction) := [(false, .s), (true, .k)]

theorem fillComp_eq : ∃ table, fillComp = some table ∧ table.entries = compEntries :=
  ⟨_, rfl, rfl⟩

/-- The three tables of a column with the given thresholds. -/
structure Column.Holds (column : Column) (thresholds : List (BitVec 48 × BitVec 32 × BitVec 32)) :
    Prop where
  thresh : column.setThreshTable.entries = thresholds
  compHi : column.setCompTableHi.entries = compEntries
  compLo : column.setCompTableLo.entries = compEntries

theorem Column.set_eq (column : Column) {addr : BitVec 48} (key : BitVec 32 × BitVec 32)
    (fresh : addr ∉ column.setThreshTable.entries.map Prod.fst) :
    ∃ filled, column.set addr key false = some filled ∧
      filled.Holds (column.setThreshTable.entries ++ [(addr, key)]) := by
  obtain ⟨thresh, hadd, hentries⟩ := ExactTable.add_eq key fresh
  obtain ⟨comp, hcomp, hrows⟩ := fillComp_eq
  refine ⟨⟨thresh, comp, comp⟩, ?_, hentries, hrows, hrows⟩
  simp [Column.set, hadd, hcomp]

/-- A loop that changes each of some distinct entries once. -/
theorem foldlM_update {ι α : Type} [DecidableEq ι] {places : List ι} (distinct : places.Nodup)
    {change : ι → α → Option α} {good : ι → α → Prop} (f : ι → α)
    (fill : ∀ i ∈ places, ∃ y, change i (f i) = some y ∧ good i y) :
    ∃ g, places.foldlM (fun f i => (change i (f i)).map (Function.update f i)) f = some g ∧
      (∀ i ∈ places, good i (g i)) ∧ ∀ i, i ∉ places → g i = f i := by
  induction places generalizing f with
  | nil => exact ⟨f, rfl, by simp, by simp⟩
  | cons first rest ih =>
      obtain ⟨hfirst, hrest⟩ := List.nodup_cons.mp distinct
      obtain ⟨y, hchange, hgood⟩ := fill first List.mem_cons_self
      obtain ⟨g, hrun, hin, hout⟩ := ih hrest (Function.update f first y) (by
        intro i hi
        have hne : i ≠ first := fun heq => hfirst (heq ▸ hi)
        rw [Function.update_of_ne hne]
        exact fill i (List.mem_cons_of_mem _ hi))
      refine ⟨g, ?_, ?_, ?_⟩
      · rw [List.foldlM_cons, hchange]
        exact hrun
      · intro i hi
        rcases List.mem_cons.mp hi with rfl | hmem
        · rw [hout i hfirst, Function.update_self]
          exact hgood
        · exact hin i hmem
      · intro i hi
        obtain ⟨hne, hmem⟩ := not_or.mp (List.mem_cons.not.mp hi)
        rw [hout i hmem, Function.update_of_ne hne]

/-- What such a loop has done when it comes to its end. -/
theorem foldlM_update_some {ι α : Type} [DecidableEq ι] {places : List ι} (distinct : places.Nodup)
    {change : ι → α → Option α} {f g : ι → α}
    (hrun : places.foldlM (fun f i => (change i (f i)).map (Function.update f i)) f = some g) :
    (∀ i ∈ places, change i (f i) = some (g i)) ∧ ∀ i, i ∉ places → g i = f i := by
  induction places generalizing f with
  | nil =>
      obtain rfl := Option.some.inj hrun
      exact ⟨by simp, fun _ _ => rfl⟩
  | cons first rest ih =>
      obtain ⟨hfirst, hrest⟩ := List.nodup_cons.mp distinct
      rw [List.foldlM_cons] at hrun
      obtain ⟨next, hnext, hrun⟩ := Option.bind_eq_some_iff.mp hrun
      obtain ⟨y, hchange, rfl⟩ := Option.map_eq_some_iff.mp hnext
      obtain ⟨hin, hout⟩ := ih hrest hrun
      constructor
      · intro i hi
        rcases List.mem_cons.mp hi with rfl | hmem
        · rw [hout i hfirst, Function.update_self]
          exact hchange
        · have hne : i ≠ first := fun heq => hfirst (heq ▸ hmem)
          have hsame := hin i hmem
          rwa [Function.update_of_ne hne] at hsame
      · intro i hi
        obtain ⟨hne, hmem⟩ := not_or.mp (List.mem_cons.not.mp hi)
        rw [hout i hmem, Function.update_of_ne hne]

/-- The change of one column by `set_table`. -/
def FBTNode.setColumnAt (node : FBTNode) (position : Fin 8 × Fin 4) (column : Column) :
    Option Column :=
  node.keys[slot position]?.bind (fun key => column.set node.addr key false)

theorem foldlM_setColumn_eq (node : FBTNode) (columns : List (Fin 8 × Fin 4)) (tables : Tables) :
    columns.foldlM (node.setColumn false) tables =
      (columns.foldlM (fun column position =>
        (node.setColumnAt position (column position)).map (Function.update column position))
        tables.column).map (fun column => { tables with column := column }) := by
  induction columns generalizing tables with
  | nil => rfl
  | cons first rest ih =>
      rw [List.foldlM_cons, List.foldlM_cons, FBTNode.setColumn, FBTNode.setColumnAt]
      cases node.keys[slot first]? with
      | none => rfl
      | some key =>
          simp only [Option.bind_eq_bind, Option.bind_some]
          cases (tables.column first).set node.addr key false with
          | none => rfl
          | some column => exact ih _

/-- One pass over the columns of a layer changes each of them once. -/
theorem foldlM_setColumn {node : FBTNode} {columns : List (Fin 8 × Fin 4)}
    {good : Fin 8 × Fin 4 → Column → Prop} (distinct : columns.Nodup) (tables : Tables)
    (fill : ∀ position ∈ columns, ∃ key column, node.keys[slot position]? = some key ∧
      (tables.column position).set node.addr key false = some column ∧ good position column) :
    ∃ grown, columns.foldlM (node.setColumn false) tables = some grown ∧
      grown.setResultTable = tables.setResultTable ∧
      (∀ position ∈ columns, good position (grown.column position)) ∧
      ∀ position, position ∉ columns → grown.column position = tables.column position := by
  have hfill : ∀ position ∈ columns, ∃ column,
      node.setColumnAt position (tables.column position) = some column ∧ good position column := by
    intro position hposition
    obtain ⟨key, column, hkey, hset, hgood⟩ := fill position hposition
    exact ⟨column, by rw [FBTNode.setColumnAt, hkey, Option.bind_some, hset], hgood⟩
  obtain ⟨column, hrun, hin, hout⟩ := foldlM_update distinct tables.column hfill
  refine ⟨{ tables with column := column }, ?_, rfl, hin, hout⟩
  rw [foldlM_setColumn_eq, hrun, Option.map_some]

theorem foldlM_addResult {node : TreeNode}
    {table : ExactTable (BitVec 48 × List Bool) (BitVec 48)}
    (fresh : ((table.entries ++ node.resultRows).map Prod.fst).Nodup) :
    ∃ grown, (List.range 16).foldlM node.loaded.addResult table = some grown ∧
      grown.entries = table.entries ++ node.resultRows := by
  obtain ⟨grown, hrun, hentries⟩ := ExactTable.foldlM_add fresh
  refine ⟨grown, ?_, hentries⟩
  rw [TreeNode.resultRows, List.foldlM_map] at hrun
  rw [← hrun]
  refine foldlM_congr_of_mem ?_ table
  intro i hi t
  simp only [FBTNode.addResult, node.loaded_children (List.mem_range.mp hi), Option.bind_eq_bind,
    Option.bind_some]
  rfl

/-- The nodes that were set with one layer, in order. -/
def nodesAt (layer : Fin 2) (calls : List (Fin 2 × TreeNode)) : List TreeNode :=
  (calls.filter (fun call => call.1 = layer)).map Prod.snd

theorem nodesAt_append (layer : Fin 2) (calls : List (Fin 2 × TreeNode))
    (call : Fin 2 × TreeNode) :
    nodesAt layer (calls ++ [call]) =
      nodesAt layer calls ++ if call.1 = layer then [call.2] else [] := by
  by_cases hlayer : call.1 = layer
  · simp [nodesAt, hlayer]
  · simp [nodesAt, hlayer]

/-- The tables after a sequence of calls. -/
structure Installed (calls : List (Fin 2 × TreeNode)) (tables : Tables) : Prop where
  thresh : ∀ position, (tables.column position).setThreshTable.entries =
    (nodesAt (layerOf position) calls).map (fun node => (node.addr, node.halves (slot position)))
  comp : ∀ position, nodesAt (layerOf position) calls ≠ [] →
    (tables.column position).setCompTableHi.entries = compEntries ∧
      (tables.column position).setCompTableLo.entries = compEntries
  result : ∀ layer, (tables.setResultTable layer).entries =
    (nodesAt layer calls).flatMap TreeNode.resultRows

theorem installed_nil : Installed [] Tables.empty where
  thresh := fun _ => rfl
  comp := fun _ hne => absurd rfl hne
  result := fun _ => rfl

/-- Setting a node with a new address appends its rows to the tables of its layer. -/
theorem Installed.setTable {calls : List (Fin 2 × TreeNode)} {tables : Tables}
    (installed : Installed calls tables) {layer : Fin 2} {node : TreeNode}
    (fresh : node.addr ∉ (nodesAt layer calls).map TreeNode.addr) :
    ∃ grown, node.loaded.setTable layer false tables = some grown ∧
      Installed (calls ++ [(layer, node)]) grown := by
  have hfill : ∀ position ∈ positions layer, ∃ key column,
      node.loaded.keys[slot position]? = some key ∧
        (tables.column position).set node.addr key false = some column ∧
        column.Holds ((nodesAt layer (calls ++ [(layer, node)])).map
          (fun node => (node.addr, node.halves (slot position)))) := by
    intro position hposition
    have hslot : slot position ∈ List.range 16 := by
      rw [← slots_of_positions layer]
      exact List.mem_map_of_mem hposition
    have hlayer := (mem_positions_iff layer position).mp hposition
    have hentries := installed.thresh position
    rw [hlayer] at hentries
    have hnew : node.addr ∉ (tables.column position).setThreshTable.entries.map Prod.fst := by
      simpa [hentries] using fresh
    obtain ⟨column, hset, hholds⟩ := Column.set_eq _ (node.halves (slot position)) hnew
    refine ⟨_, column, node.loaded_keys (List.mem_range.mp hslot), hset, ?_⟩
    simpa [nodesAt_append, hentries] using hholds
  obtain ⟨filled, hrun, hkept, hin, hout⟩ := foldlM_setColumn (positions_nodup layer) tables hfill
  have hrows : (((filled.setResultTable layer).entries ++ node.resultRows).map Prod.fst).Nodup := by
    rw [List.map_append, List.nodup_append]
    refine ⟨(filled.setResultTable layer).distinct, resultRows_nodup node, ?_⟩
    rintro key hkey _ hnew rfl
    obtain ⟨row, hrow, rfl⟩ := List.mem_map.mp hkey
    obtain ⟨other, hother, hsame⟩ := List.mem_map.mp hnew
    rw [hkept, installed.result layer, List.mem_flatMap] at hrow
    obtain ⟨old, hold, hrow⟩ := hrow
    have haddr : node.addr = old.addr := by
      rw [← addr_of_mem_resultRows hother, ← addr_of_mem_resultRows hrow, hsame]
    exact fresh (haddr ▸ List.mem_map_of_mem hold)
  obtain ⟨result, hresult, hentries⟩ := foldlM_addResult hrows
  refine ⟨{ filled with
    setResultTable := Function.update filled.setResultTable layer result }, ?_, ?_, ?_, ?_⟩
  · simp only [FBTNode.setTable, Option.bind_eq_bind, hrun, Option.bind_some, Bool.false_eq_true,
      if_false, hresult, Option.pure_def]
  · intro position
    by_cases hposition : position ∈ positions layer
    · rw [(mem_positions_iff layer position).mp hposition]
      exact (hin position hposition).thresh
    · have hlayer : layer ≠ layerOf position :=
        fun heq => hposition ((mem_positions_iff layer position).mpr heq.symm)
      simpa [nodesAt_append, hlayer, hout position hposition] using installed.thresh position
  · intro position hne
    by_cases hposition : position ∈ positions layer
    · exact ⟨(hin position hposition).compHi, (hin position hposition).compLo⟩
    · have hlayer : layer ≠ layerOf position :=
        fun heq => hposition ((mem_positions_iff layer position).mpr heq.symm)
      have hold := installed.comp position (by simpa [nodesAt_append, hlayer] using hne)
      simpa [hout position hposition] using hold
  · intro other
    by_cases hother : other = layer
    · subst hother
      simp [nodesAt_append, hentries, hkept, installed.result]
    · simpa [nodesAt_append, Ne.symm hother, Function.update_of_ne hother, hkept]
        using installed.result other

/-- The loading loop succeeds when the addresses within a layer are distinct. -/
theorem install_eq (calls : List (Fin 2 × TreeNode))
    (distinct : ∀ layer, ((nodesAt layer calls).map TreeNode.addr).Nodup) :
    ∃ tables, install calls = some tables ∧ Installed calls tables := by
  induction calls using List.reverseRecOn with
  | nil => exact ⟨_, rfl, installed_nil⟩
  | append_singleton calls call ih =>
      obtain ⟨layer, node⟩ := call
      have hsplit : ∀ other, ((nodesAt other calls).map TreeNode.addr).Nodup := by
        intro other
        have hother := distinct other
        rw [nodesAt_append, List.map_append, List.nodup_append] at hother
        exact hother.1
      have hfresh : node.addr ∉ (nodesAt layer calls).map TreeNode.addr := by
        intro hmem
        have hlayer := distinct layer
        rw [nodesAt_append, List.map_append, List.nodup_append] at hlayer
        exact hlayer.2.2 node.addr hmem node.addr (by simp) rfl
      obtain ⟨tables, hrun, hinstalled⟩ := ih hsplit
      obtain ⟨grown, hset, hgrown⟩ := hinstalled.setTable hfresh
      refine ⟨grown, ?_, hgrown⟩
      unfold install at hrun ⊢
      rw [List.foldlM_append, hrun]
      simp [TreeNode.readNode_printInfo, hset]

end FatBTree.Sram
