import FatBTree.Rdma.Capacity
import FatBTree.Rdma.ConfigKeys
import FatBTree.Rdma.ConfigTable
import FatBTree.Rdma.Load
import FatBTree.Rdma.Loading
import FatBTree.Tcam.Installed
import FatBTree.Tcam.RowCount

/-!
# The tables are large enough

The greedy expansion stops before the fat root is too large, and a layer is cut to its
length.  A boundary costs at most three rows of a range table, so with the constants of the
backend no table gets more entries than its size in `FBT_RDMA.p4`.
-/

namespace FatBTree.Rdma

open FatBTree.P4 FatBTree.Sram FatBTree.Switch FatBTree.Tree

/-! ## Constants -/

/-- The constants of `backend.cc`; `regular_load_depth` is left at `UINT32_MAX`. -/
def loadArgs (ties : Ties) : LoadArgs where
  rootLoadNum := 600
  rootLoadDepth := 3
  regularLoadNum := 3600
  regularLoadDepth := 2 ^ 32 - 1
  ties := ties

/-- The sizes of `set_result_table_1` to `set_result_table_4`. -/
def rangeTableSize : Nat := 2048

def setAddrTableSize : Nat := 2048

def setThreshTableSize : Nat := 4096

/-- The sizes of the result tables with sixteen rows for a node. -/
def setResultTableSize : Nat := 65536

/-! ## What is written to the files -/

section

variable {κ : Type} (number : κ → BitVec 64) (address : Nat → BitVec 48)

/-- The numbers that `print_info` writes.  The root has address 0. -/
def entryLines (entry : Entry κ) : NodeLines where
  selfaddr := if entry.node = root then 0 else address entry.node
  selfkeys := 0 :: 0 :: entry.keys.flatMap (fun k => [keyHi (number k), keyLo (number k)])
  childrenaddr := entry.children.map address

/-- The layers from `i` on, each node with its virtual depth. -/
def layerLines (i : Nat) : List (List (Entry κ)) → List (Nat × NodeLines)
  | [] => []
  | layer :: rest =>
      layer.map (fun entry => (i, entryLines number address entry)) ++ layerLines (i + 1) rest

/-- The nodes of `node_info_greedy.txt`. -/
def nodeFile (snapshot : Snapshot κ) : List (Nat × NodeLines) :=
  (0, entryLines number address snapshot.fat) :: layerLines number address 1 snapshot.layers

/-- Its text; what follows the fat root is not read for the keys. -/
def nodeText (remoteAddr : BitVec 64) (remoteStag : BitVec 32) (snapshot : Snapshot κ)
    (rest : List Char) : List Char :=
  ConfigKeys.nodeInfo remoteAddr remoteStag (snapshot.fat.keys.map number)
    (snapshot.fat.children.map (fun c => (address c).setWidth 64)) rest

end

/-! ## What has to fit -/

/-- The fat root has a child for each place, and a layer its length. -/
structure LoadFits {κ : Type} (args : LoadArgs) (snapshot : Snapshot κ) : Prop where
  fat : snapshot.fat.children.length ≤ max 1 args.rootLoadNum
  layers : ∀ layer ∈ snapshot.layers, layer.length ≤ args.regularLoadNum

/-- The rows that `config_table.cpp` prints for some boundaries. -/
structure RowsFit (keys : List Nat) : Prop where
  table1 : (ConfigTable.output1 (Tcam.rangelist keys)).rows.length ≤ 2 * keys.length + 1
  table2 : (ConfigTable.output2 (Tcam.rangelist keys)).rows.length ≤ 3 * keys.length
  table3 : (ConfigTable.output3 (Tcam.rangelist keys)).rows.length ≤ 3 * keys.length
  table4 : (ConfigTable.output4 (Tcam.rangelist keys)).rows.length ≤ 3 * keys.length

/-- The tables of the nodes within their sizes. -/
structure NodeTablesFit (tables : Tables) : Prop where
  thresh : ∀ position, (tables.column position).setThreshTable.entries.length ≤ setThreshTableSize
  result : ∀ group, (tables.setResultTable group).entries.length ≤ setResultTableSize

/-- The switch tables that the scripts fill from the texts, at any point of the last loop. -/
structure SwitchFits (keysInfo : List Char) (file : List (Nat × NodeLines)) : Prop where
  ranges : ∃ tables, Tcam.config (ConfigTable.configTable keysInfo) = some tables ∧
    tables.table1.length ≤ rangeTableSize ∧ tables.table2.length ≤ rangeTableSize ∧
    tables.table3.length ≤ rangeTableSize ∧ tables.table4.length ≤ rangeTableSize
  addrs : ∃ addrs table, Tcam.setAddrTable keysInfo = some addrs ∧
    addAddrs (addrs.map (BitVec.ofNat 48)) = some table ∧
    table.entries.length ≤ setAddrTableSize
  loading : ∀ nodes layer done tables, readNodes file = some nodes →
    Loading nodes layer done tables →
      NodeTablesFit tables.ingress0 ∧ NodeTablesFit tables.ingress1
  loaded : ∀ rangeTables addrs remoteStag switch,
    config rangeTables addrs remoteStag file = some switch →
      NodeTablesFit switch.ingress0 ∧ NodeTablesFit switch.ingress1

/-! ## The load -/

section

variable {κ V : Type} [LinearOrder κ] [OrderBot κ] [Inhabited V]

omit [LinearOrder κ] [OrderBot κ] [Inhabited V] in
theorem length_layersFrom {σ : State κ V} {ties : Ties} {loadNum i count : Nat} {nodes : List Nat}
    (hnodes : nodes.length ≤ loadNum) :
    ∀ layer ∈ layersFrom σ ties loadNum i count nodes, layer.length ≤ loadNum := by
  induction count generalizing i nodes with
  | zero =>
      intro layer hlayer
      cases hlayer
  | succ count ih =>
      intro layer hlayer
      rcases List.mem_cons.mp hlayer with rfl | hrest
      · exact hnodes
      · exact ih (List.length_take_le _ _) layer hrest

omit [Inhabited V] in
/-- Whatever the load prints. -/
theorem loadFits {M : Nat} {σ : State κ V} (small : ∀ n, (σ.pool n).key.length < M)
    {args : LoadArgs} {loaded : Snapshot κ × State κ V}
    (hload : load2switchGreedy M σ args = some loaded) : LoadFits args loaded.1 := by
  unfold load2switchGreedy at hload
  split at hload
  · cases hload
  · split at hload
    · cases hload
    · next nodeVec hfrontier =>
        cases hload
        constructor
        case fat =>
          have hlen := frontier_length small hfrontier
          rwa [← List.length_map] at hlen
        case layers =>
          intro layer hlayer
          obtain ⟨nodes, hnodes, rfl⟩ := List.mem_map.mp hlayer
          rw [List.length_map]
          exact length_layersFrom (List.length_take_le _ _) nodes hnodes

end

/-! ## The rows -/

section

open FatBTree.Tcam

theorem rowsFit (keys : List Nat) : RowsFit keys where
  table1 := by
    rw [ConfigTable.output1]
    exact length_runLevel_singleton _ (isPrefix1 rfl (List.mem_singleton_self 0))
  table2 := by
    rw [ConfigTable.output2, (ConfigTable.tables_eq keys).1]
    exact length_runLevel_le _ (fun _ => isPrefix2 keys rfl) (prefixes2_sorted keys)
      (fun _ => hasBoundary_prefixes2)
  table3 := by
    rw [ConfigTable.output3, (ConfigTable.tables_eq keys).2.1]
    exact length_runLevel_le _ (fun _ => isPrefix3 keys rfl) (prefixes3_sorted keys)
      (fun _ => hasBoundary_prefixes3)
  table4 := by
    rw [ConfigTable.output4, (ConfigTable.tables_eq keys).2.2]
    exact length_runLevel_le _ (fun _ => isPrefix4 keys rfl) (prefixes4_sorted keys)
      (fun _ => hasBoundary_prefixes4)

/-- Without glued rows every row has its head, or none has one. -/
theorem runLevel_rows {keys : List Nat} {level : Level} (unglued : level.glues = false)
    {pfs : List Nat} (isPrefix : ∀ pf ∈ pfs, level.IsPrefix pf) (start : Output) :
    ∀ row ∈ (runLevel (rangelist keys) level pfs start).rows,
      row.pf.isSome = level.linked ∧ row.glued = false := by
  induction pfs using List.reverseRecOn with
  | nil =>
      intro row hrow
      cases hrow
  | append_singleton pfs pf ih =>
      have hold := ih (fun p hp => isPrefix p (List.mem_append_left _ hp))
      have hpf := isPrefix pf (List.mem_append_right _ (List.mem_singleton_self pf))
      obtain ⟨fresh, hrows, hhead, -, hglued⟩ :=
        (scanPrefix_done hpf (runLevel (rangelist keys) level pfs start)).rows
      intro row hrow
      rw [runLevel_append, hrows] at hrow
      rcases List.mem_append.mp hrow with hmem | hmem
      · exact hold row hmem
      · constructor
        · rw [hhead row hmem, headOf]
          cases level.linked <;> rfl
        · cases hglue : row.glued with
          | false => rfl
          | true =>
              obtain ⟨hglues, -⟩ := hglued.mp ⟨row, hmem, hglue⟩
              exact absurd (unglued.symm.trans hglues) (by decide)

/-- The loader accepts the text of the table compiler. -/
theorem config_configTable {keysInfo : List Char} {keys : List Nat}
    (hkeys : readKeys keysInfo.length keysInfo = keys) :
    Tcam.config (ConfigTable.configTable keysInfo) =
      some (entriesOf (ConfigTable.output1 (rangelist keys)).rows
        (ConfigTable.output2 (rangelist keys)).rows (ConfigTable.output3 (rangelist keys)).rows
        (ConfigTable.output4 (rangelist keys)).rows) := by
  have hrows1 : ∀ row ∈ (ConfigTable.output1 (rangelist keys)).rows,
      row.pf.isSome = false ∧ row.glued = false := by
    rw [ConfigTable.output1]
    exact runLevel_rows rfl (fun _ => isPrefix1 rfl) _
  have hrows2 : ∀ row ∈ (ConfigTable.output2 (rangelist keys)).rows,
      row.pf.isSome = true ∧ row.glued = false := by
    rw [ConfigTable.output2, (ConfigTable.tables_eq keys).1]
    exact runLevel_rows rfl (fun _ => isPrefix2 keys rfl) _
  have hrows3 : ∀ row ∈ (ConfigTable.output3 (rangelist keys)).rows,
      row.pf.isSome = true ∧ row.glued = false := by
    rw [ConfigTable.output3, (ConfigTable.tables_eq keys).2.1]
    exact runLevel_rows rfl (fun _ => isPrefix3 keys rfl) _
  have hrows4 : ∀ row ∈ (ConfigTable.output4 (rangelist keys)).rows,
      row.pf.isSome = true ∧ row.glued = false := by
    rw [ConfigTable.output4, (ConfigTable.tables_eq keys).2.2]
    exact runLevel_rows rfl (fun _ => isPrefix4 keys rfl) _
  have hplain : ∀ row ∈ (ConfigTable.output1 (rangelist keys)).rows, row.pf = none :=
    fun row hrow => Option.isNone_iff_eq_none.mp
      (Option.isSome_eq_false_iff.mp (hrows1 row hrow).1)
  have hprinted : ConfigTable.printed (rangelist keys) =
      Tcam.fileLines (rangelist keys) (ConfigTable.output1 (rangelist keys)).rows
        (ConfigTable.output2 (rangelist keys)).rows (ConfigTable.output3 (rangelist keys)).rows
        (ConfigTable.output4 (rangelist keys)).rows := by
    rw [ConfigTable.printed, Tcam.fileLines]
  rw [ConfigTable.configTable, hkeys, hprinted]
  exact config_of_unglued hplain
    (fun row hrow => Option.isSome_iff_exists.mp (hrows2 row hrow).1)
    (fun row hrow => Option.isSome_iff_exists.mp (hrows3 row hrow).1)
    (fun row hrow => Option.isSome_iff_exists.mp (hrows4 row hrow).1)
    (fun row hrow => (hrows2 row hrow).2) (fun row hrow => (hrows3 row hrow).2)
    (fun row hrow => (hrows4 row hrow).2)

end

/-! ## The switch -/

section

variable {κ V : Type} [LinearOrder κ] [OrderBot κ] [Inhabited V] (number : κ → BitVec 64)
  (address : Nat → BitVec 48)

omit [LinearOrder κ] [OrderBot κ] in
theorem countP_layerLines {layers : List (List (Entry κ))} {most : Nat}
    (few : ∀ layer ∈ layers, layer.length ≤ most) (i depth : Nat) :
    (layerLines number address i layers).countP (fun lines => lines.1 = depth) ≤
      if depth < i then 0 else most := by
  induction layers generalizing i with
  | nil => exact Nat.zero_le _
  | cons layer rest ih =>
      have hfirst := few layer List.mem_cons_self
      have hrest := ih (fun other hother => few other (List.mem_cons_of_mem _ hother)) (i + 1)
      rw [layerLines, List.countP_append, List.countP_map]
      rcases eq_or_ne i depth with rfl | hne
      · have hcount := List.countP_le_length (l := layer)
          (p := (fun lines : Nat × NodeLines => decide (lines.1 = i)) ∘
            fun entry => (i, entryLines number address entry))
        rw [if_pos (Nat.lt_succ_self i)] at hrest
        rw [if_neg (Nat.lt_irrefl i)]
        omega
      · have hnone : layer.countP ((fun lines : Nat × NodeLines => decide (lines.1 = depth)) ∘
            fun entry => (i, entryLines number address entry)) = 0 :=
          List.countP_eq_zero.mpr fun entry _ => by simp [hne]
        rw [hnone, Nat.zero_add]
        refine hrest.trans ?_
        split
        · exact Nat.zero_le _
        · rw [if_neg (by omega)]

omit [LinearOrder κ] [OrderBot κ] in
/-- No depth but the first has more nodes than a layer may have. -/
theorem countP_nodeFile {args : LoadArgs} {snapshot : Snapshot κ} (fits : LoadFits args snapshot)
    {depth : Nat} (hdepth : depth ≠ 0) :
    (nodeFile number address snapshot).countP (fun lines => lines.1 = depth) ≤
      args.regularLoadNum := by
  have hlayers := countP_layerLines number address fits.layers 1 depth
  rw [if_neg (by omega)] at hlayers
  rw [nodeFile, List.countP_cons_of_neg (by simpa using hdepth.symm)]
  exact hlayers

theorem Sized.nodeTablesFit {tables : Tables} {most : Nat} (sized : Sized (fun _ => most) tables)
    (hthresh : most ≤ setThreshTableSize) (hresult : 16 * most ≤ setResultTableSize) :
    NodeTablesFit tables where
  thresh := fun position => (sized.thresh position).trans hthresh
  result := fun group => (sized.result group).trans hresult

omit [LinearOrder κ] [OrderBot κ] in
/-- The constants of the backend against the sizes. -/
theorem switchFits {ties : Ties} {snapshot : Snapshot κ} (fits : LoadFits (loadArgs ties) snapshot)
    {keysInfo : List Char} {addrs : List Nat}
    (few : (Tcam.readKeys keysInfo.length keysInfo).length ≤ 600)
    (haddrs : Tcam.setAddrTable keysInfo = some addrs) (hlen : addrs.length ≤ 600) :
    SwitchFits keysInfo (nodeFile number address snapshot) := by
  have hloading : ∀ nodes layer done tables,
      readNodes (nodeFile number address snapshot) = some nodes →
        Loading nodes layer done tables →
          NodeTablesFit tables.ingress0 ∧ NodeTablesFit tables.ingress1 := by
    intro nodes layer done tables hnodes loading
    have hfew : ∀ depth, depth ≠ 0 → (nodes.getD depth []).length ≤ 3600 := by
      intro depth hdepth
      rw [length_readNodes hnodes]
      exact countP_nodeFile number address fits hdepth
    obtain ⟨hsized0, hsized1⟩ := loading.sized hfew
    exact ⟨hsized0.nodeTablesFit (by decide) (by decide),
      hsized1.nodeTablesFit (by decide) (by decide)⟩
  constructor
  case ranges =>
    have hrows := rowsFit (Tcam.readKeys keysInfo.length keysInfo)
    refine ⟨_, config_configTable rfl, ?_⟩
    simp only [Tcam.entriesOf, List.length_map, rangeTableSize]
    exact ⟨hrows.table1.trans (by omega), hrows.table2.trans (by omega),
      hrows.table3.trans (by omega), hrows.table4.trans (by omega)⟩
  case addrs =>
    obtain ⟨table, htable, -⟩ := addAddrs_eq (addrs.map (BitVec.ofNat 48))
    refine ⟨addrs, table, haddrs, htable, ?_⟩
    rw [length_addAddrs htable, List.length_map]
    exact hlen.trans (by decide)
  case loading => exact hloading
  case loaded =>
    intro rangeTables addrs remoteStag switch hconfig
    obtain ⟨nodes, done, hnodes, loading⟩ := Loading.of_config hconfig
    exact hloading nodes 3 done _ hnodes loading

/-- On every reachable tree of three levels the load keeps to its bounds, and so do the
rows for any boundaries; with the constants of the backend every table of the switch is
large enough for what the scripts put into it. -/
theorem tables_fit (calls : List (Call κ V)) {σ : State κ V} (hreach : Reaches 16 rdma calls σ)
    (hdepth : 3 ≤ σ.depth) :
    (∀ args : LoadArgs, 0 < args.rootLoadDepth → args.rootLoadDepth ≤ σ.depth →
      (load2switchGreedy 16 σ args).isSome) ∧
    (∀ args, ∀ loaded ∈ load2switchGreedy 16 σ args, LoadFits args loaded.1) ∧
    (∀ keys, RowsFit keys) ∧
    ∀ ties, ∃ loaded ∈ load2switchGreedy 16 σ (loadArgs ties),
      ∀ (number : κ → BitVec 64) (address : Nat → BitVec 48) (remoteAddr : BitVec 64)
        (remoteStag : BitVec 32) (rest : List Char), ∃ keysInfo,
          ConfigKeys.configKeys
              (nodeText number address remoteAddr remoteStag loaded.1 rest) = some keysInfo ∧
            SwitchFits keysInfo (nodeFile number address loaded.1) := by
  obtain ⟨w, hrun, settled⟩ := settled_of_run rdma (M := 16) calls
  obtain rfl : w.state = σ := Option.some.inj (hrun.symm.trans hreach)
  have hload : ∀ args : LoadArgs, 0 < args.rootLoadDepth → args.rootLoadDepth ≤ w.state.depth →
      (load2switchGreedy 16 w.state args).isSome := by
    intro args hpos hargs
    obtain ⟨nodeVec, -, -, hload⟩ :=
      load2switchGreedy_printed settled.toSound (Nat.le_of_succ_le hdepth) hpos hargs
    rw [hload]
    rfl
  have hfits : ∀ args, ∀ loaded ∈ load2switchGreedy 16 w.state args, LoadFits args loaded.1 :=
    fun args loaded hloaded => loadFits settled.small hloaded
  refine ⟨hload, hfits, rowsFit, fun ties => ?_⟩
  obtain ⟨nodeVec, -, -, hprinted⟩ :=
    load2switchGreedy_printed settled.toSound (Nat.le_of_succ_le hdepth)
      (show 0 < (loadArgs ties).rootLoadDepth from Nat.succ_pos 2) hdepth
  have hfit := hfits _ _ hprinted
  have hvec : nodeVec.length ≤ 600 := (List.length_map Prod.fst).symm.trans_le hfit.fat
  refine ⟨_, hprinted, fun number address remoteAddr remoteStag rest => ?_⟩
  obtain ⟨keysInfo, hkeysInfo, hread, haddrs⟩ := ConfigKeys.configKeys_nodeInfo remoteAddr remoteStag
    ((nodeVec.tail.map Prod.snd).map number)
    ((nodeVec.map Prod.fst).map (fun c => (address c).setWidth 64)) rest
  simp only [List.length_map, List.length_tail] at hread
  refine ⟨keysInfo, hkeysInfo, switchFits number address hfit (by omega) haddrs ?_⟩
  simpa only [List.length_map] using hvec

end

/-- A tree of three levels after 136 insertions. -/
theorem tables_fit_three_levels :
    ∃ σ, Reaches 16 rdma ((List.range 136).map (fun i => .insert i i)) (σ : State Nat Nat) ∧
      (∀ args : LoadArgs, 0 < args.rootLoadDepth → args.rootLoadDepth ≤ σ.depth →
        (load2switchGreedy 16 σ args).isSome) ∧
      (∀ args, ∀ loaded ∈ load2switchGreedy 16 σ args, LoadFits args loaded.1) ∧
      (∀ keys, RowsFit keys) ∧
      ∀ ties, ∃ loaded ∈ load2switchGreedy 16 σ (loadArgs ties),
        ∀ (number : Nat → BitVec 64) (address : Nat → BitVec 48) (remoteAddr : BitVec 64)
          (remoteStag : BitVec 32) (rest : List Char), ∃ keysInfo,
            ConfigKeys.configKeys
                (nodeText number address remoteAddr remoteStag loaded.1 rest) = some keysInfo ∧
              SwitchFits keysInfo (nodeFile number address loaded.1) := by
  have hrun : ∃ σ ∈ run 16 rdma ((List.range 136).map (fun i => .insert i i))
      (State.empty : State Nat Nat), 3 ≤ σ.depth := by
    decide +kernel
  obtain ⟨σ, hσ, hdepth⟩ := hrun
  exact ⟨σ, hσ, tables_fit _ hσ hdepth⟩

end FatBTree.Rdma
