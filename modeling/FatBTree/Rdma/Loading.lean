import FatBTree.Rdma.SwitchConfig

/-!
# The loader node by node

The last loop of `config.py` may raise an exception in the middle.  Here are the tables
that it has filled by then: a threshold table gets one entry for each node, a result table
sixteen.
-/

namespace FatBTree.Rdma

open FatBTree.P4 FatBTree.Sram

/-! ## The loop as steps -/

/-- The tables of `Ingress0` and `Ingress1`. -/
structure Ingresses where
  ingress0 : Tables
  ingress1 : Tables

/-- The tables and the group that `init_table` and `set_table` use for a layer. -/
def onLayer (body : Fin 2 → Tables → Option Tables) (tables : Ingresses) :
    Nat → Option Ingresses
  | 1 => (body 0 tables.ingress0).map (fun grown => { tables with ingress0 := grown })
  | 2 => (body 0 tables.ingress1).map (fun grown => { tables with ingress1 := grown })
  | 3 => (body 1 tables.ingress1).map (fun grown => { tables with ingress1 := grown })
  | _ => none

/-- Where the loop can stand: in `layer`, with the nodes `done` of it loaded. -/
inductive Loading (nodes : List (List FBTNode)) : Nat → List FBTNode → Ingresses → Prop where
  | start : Loading nodes 0 [] ⟨.empty, .empty⟩
  | init {layer : Nat} {done next : List FBTNode} {tables grown : Ingresses}
      (before : Loading nodes layer done tables) (whole : layer ≠ 0 → nodes[layer]? = some done)
      (here : nodes[layer + 1]? = some next) (some_node : next ≠ [])
      (run : onLayer initTable tables (layer + 1) = some grown) :
      Loading nodes (layer + 1) [] grown
  | set {layer : Nat} {done rest : List FBTNode} {node : FBTNode} {tables grown : Ingresses}
      (before : Loading nodes layer done tables)
      (here : nodes[layer]? = some (done ++ node :: rest))
      (run : onLayer (setTable node) tables layer = some grown) :
      Loading nodes layer (done ++ [node]) grown

/-- A turn of the loop that comes to its end. -/
theorem Loading.layer {nodes : List (List FBTNode)} {layer : Nat} {done next : List FBTNode}
    {tables filled grown : Ingresses} (before : Loading nodes layer done tables)
    (whole : layer ≠ 0 → nodes[layer]? = some done) (here : nodes[layer + 1]? = some next)
    (some_node : next ≠ []) (hinit : onLayer initTable tables (layer + 1) = some filled)
    (hrun : next.foldlM (fun tables node => onLayer (setTable node) tables (layer + 1)) filled =
      some grown) :
    Loading nodes (layer + 1) next grown := by
  have hpart : ∀ (part left : List FBTNode) (grown : Ingresses), next = part ++ left →
      part.foldlM (fun tables node => onLayer (setTable node) tables (layer + 1)) filled =
        some grown → Loading nodes (layer + 1) part grown := by
    intro part
    induction part using List.reverseRecOn with
    | nil =>
        intro left grown _ hgrown
        obtain rfl := Option.some.inj hgrown
        exact .init before whole here some_node hinit
    | append_singleton part node ih =>
        intro left grown hsplit hgrown
        rw [List.foldlM_append] at hgrown
        obtain ⟨loaded, hloaded, hlast⟩ := Option.bind_eq_some_iff.mp hgrown
        rw [List.foldlM_cons] at hlast
        obtain ⟨last, hset, hend⟩ := Option.bind_eq_some_iff.mp hlast
        obtain rfl := Option.some.inj hend
        rw [List.append_assoc] at hsplit
        exact .set (ih _ loaded hsplit hloaded) (here.trans (congrArg some hsplit)) hset
  exact hpart next [] grown (List.append_nil _).symm hrun

/-! ## Entries of the tables -/

/-- At most `count group` threshold entries in each column of a group, and at most sixteen
times as many results. -/
structure Sized (count : Fin 2 → Nat) (tables : Tables) : Prop where
  thresh : ∀ position, (tables.column position).setThreshTable.entries.length ≤
    count (layerOf position)
  result : ∀ group, (tables.setResultTable group).entries.length ≤ 16 * count group

section

variable {count : Fin 2 → Nat} {group : Fin 2} {tables grown : Tables}

theorem sized_empty (count : Fin 2 → Nat) : Sized count .empty where
  thresh := fun _ => Nat.zero_le _
  result := fun _ => Nat.zero_le _

theorem Sized.mono {most : Fin 2 → Nat} (sized : Sized count tables)
    (hle : ∀ group, count group ≤ most group) : Sized most tables where
  thresh := fun position => (sized.thresh position).trans (hle _)
  result := fun group => (sized.result group).trans (Nat.mul_le_mul_left 16 (hle group))

/-- What a statement for all columns of a group has done. -/
theorem forColumns_some {body : Fin 8 × Fin 4 → Column → Option Column}
    (hrun : forColumns group body tables = some grown) :
    grown.setResultTable = tables.setResultTable ∧ ∀ position,
      if layerOf position = group then
        body position (tables.column position) = some (grown.column position)
      else grown.column position = tables.column position := by
  obtain ⟨column, hcolumn, hgrown⟩ := Option.bind_eq_some_iff.mp hrun
  obtain rfl := Option.some.inj hgrown
  obtain ⟨hin, hout⟩ := foldlM_update_some (positions_nodup group) hcolumn
  refine ⟨rfl, fun position => ?_⟩
  split
  next hlayer => exact hin position ((mem_positions_iff group position).mpr hlayer)
  next hlayer => exact hout position (mt (mem_positions_iff group position).mp hlayer)

theorem Sized.initTable (sized : Sized count tables)
    (hrun : Rdma.initTable group tables = some grown) : Sized count grown := by
  obtain ⟨hresult, hcolumn⟩ := forColumns_some hrun
  constructor
  case result =>
    intro other
    rw [hresult]
    exact sized.result other
  case thresh =>
    intro position
    have hposition := hcolumn position
    split at hposition
    next =>
      obtain ⟨hi, -, hrest⟩ := Option.bind_eq_some_iff.mp hposition
      obtain ⟨lo, -, hlast⟩ := Option.bind_eq_some_iff.mp hrest
      rw [← Option.some.inj hlast]
      exact sized.thresh position
    next =>
      rw [hposition]
      exact sized.thresh position

theorem length_addResult {node : FBTNode} {table grown : ExactTable (BitVec 48 × List Bool) (BitVec 48)}
    {i : Nat} (hadd : node.addResult table i = some grown) :
    grown.entries.length = table.entries.length + 1 := by
  obtain ⟨child, -, hchild⟩ := Option.bind_eq_some_iff.mp hadd
  exact ExactTable.length_of_add hchild

theorem length_addThresh {node : FBTNode} {position : Fin 8 × Fin 4} {column grown : Column}
    (hadd : addThresh node position column = some grown) :
    grown.setThreshTable.entries.length = column.setThreshTable.entries.length + 1 := by
  obtain ⟨key, -, hkey⟩ := Option.bind_eq_some_iff.mp hadd
  obtain ⟨thresh, hthresh, hgrown⟩ := Option.bind_eq_some_iff.mp hkey
  obtain rfl := Option.some.inj hgrown
  exact ExactTable.length_of_add hthresh

/-- One more node. -/
theorem Sized.setTable (sized : Sized count tables) {node : FBTNode}
    (hrun : Rdma.setTable node group tables = some grown) :
    Sized (Function.update count group (count group + 1)) grown := by
  obtain ⟨filled, hfilled, hrest⟩ := Option.bind_eq_some_iff.mp hrun
  obtain ⟨result, hresult, hgrown⟩ := Option.bind_eq_some_iff.mp hrest
  obtain rfl := Option.some.inj hgrown
  obtain ⟨hkept, hcolumn⟩ := forColumns_some hfilled
  constructor
  case thresh =>
    intro position
    have hposition := hcolumn position
    have hold := sized.thresh position
    rw [Function.update_apply]
    split at hposition
    next heq =>
      rw [if_pos heq, length_addThresh hposition, ← heq]
      exact Nat.succ_le_succ hold
    next hne =>
      rw [if_neg hne, hposition]
      exact hold
  case result =>
    intro other
    have hadded := ExactTable.length_of_foldlM (fun _ _ _ => length_addResult) hresult
    rw [List.length_range, hkept] at hadded
    have hold := sized.result other
    simp only [Function.update_apply]
    split
    next heq =>
      subst heq
      omega
    next =>
      rw [hkept]
      exact hold

end

/-! ## The reached states -/

/-- The nodes of a layer that are loaded. -/
def loadedOf (nodes : List (List FBTNode)) (layer : Nat) (done : List FBTNode) (other : Nat) : Nat :=
  if other < layer then (nodes.getD other []).length
  else if other = layer then done.length
  else 0

/-- `Ingress0` has the first layer, `Ingress1` the two others. -/
structure Filled (nodes : List (List FBTNode)) (layer : Nat) (done : List FBTNode)
    (tables : Ingresses) : Prop where
  ingress0 : Sized (fun group => if group = 0 then loadedOf nodes layer done 1 else 0)
    tables.ingress0
  ingress1 : Sized (fun group => loadedOf nodes layer done (if group = 0 then 2 else 3))
    tables.ingress1

section

variable {nodes : List (List FBTNode)} {layer : Nat} {done : List FBTNode} {tables : Ingresses}

theorem loadedOf_next (whole : layer ≠ 0 → nodes[layer]? = some done) {other : Nat}
    (hother : other ≠ 0) : loadedOf nodes (layer + 1) [] other = loadedOf nodes layer done other := by
  rcases Nat.lt_trichotomy other layer with hlt | rfl | hgt
  · simp [loadedOf, hlt, Nat.lt_succ_of_lt hlt]
  · simp [loadedOf, List.getD_eq_getElem?_getD, whole hother]
  · have hnot : ¬ other < layer + 1 := Nat.not_lt.mpr hgt
    simp [loadedOf, hnot, Nat.lt_asymm hgt, Nat.ne_of_gt hgt]

theorem loadedOf_snoc (node : FBTNode) (other : Nat) :
    loadedOf nodes layer (done ++ [node]) other =
      loadedOf nodes layer done other + if other = layer then 1 else 0 := by
  rcases Nat.lt_trichotomy other layer with hlt | rfl | hgt
  · simp [loadedOf, hlt, Nat.ne_of_lt hlt]
  · simp [loadedOf]
  · simp [loadedOf, Nat.lt_asymm hgt, Nat.ne_of_gt hgt]

/-- The tables a layer can change. -/
theorem onLayer_some {body : Fin 2 → Tables → Option Tables} {grown : Ingresses}
    (hrun : onLayer body tables layer = some grown) :
    (layer = 1 ∧ ∃ changed, body 0 tables.ingress0 = some changed ∧
        grown = { tables with ingress0 := changed }) ∨
      ∃ group, layer = (if group = 0 then 2 else 3) ∧
        ∃ changed, body group tables.ingress1 = some changed ∧
          grown = { tables with ingress1 := changed } := by
  unfold onLayer at hrun
  split at hrun
  · obtain ⟨changed, hchanged, rfl⟩ := Option.map_eq_some_iff.mp hrun
    exact Or.inl ⟨rfl, changed, hchanged, rfl⟩
  · obtain ⟨changed, hchanged, rfl⟩ := Option.map_eq_some_iff.mp hrun
    exact Or.inr ⟨0, rfl, changed, hchanged, rfl⟩
  · obtain ⟨changed, hchanged, rfl⟩ := Option.map_eq_some_iff.mp hrun
    exact Or.inr ⟨1, rfl, changed, hchanged, rfl⟩
  · cases hrun

theorem Filled.mono {layer' : Nat} {done' : List FBTNode} (filled : Filled nodes layer done tables)
    (hle : ∀ other, other ≠ 0 → loadedOf nodes layer done other ≤ loadedOf nodes layer' done' other) :
    Filled nodes layer' done' tables where
  ingress0 := filled.ingress0.mono fun group => by
    split
    · exact hle 1 (by decide)
    · exact Nat.le_refl 0
  ingress1 := filled.ingress1.mono fun group => hle _ (by split <;> decide)

theorem Filled.init (filled : Filled nodes layer done tables)
    (whole : layer ≠ 0 → nodes[layer]? = some done) {grown : Ingresses}
    (hrun : onLayer initTable tables (layer + 1) = some grown) :
    Filled nodes (layer + 1) [] grown := by
  have hnext : Filled nodes (layer + 1) [] tables :=
    filled.mono fun other hother => (loadedOf_next whole hother).ge
  rcases onLayer_some hrun with ⟨-, changed, hchanged, rfl⟩ | ⟨group, -, changed, hchanged, rfl⟩
  · exact ⟨hnext.ingress0.initTable hchanged, hnext.ingress1⟩
  · exact ⟨hnext.ingress0, hnext.ingress1.initTable hchanged⟩

theorem Filled.set (filled : Filled nodes layer done tables) {node : FBTNode} {grown : Ingresses}
    (hrun : onLayer (setTable node) tables layer = some grown) :
    Filled nodes layer (done ++ [node]) grown := by
  have hnext : Filled nodes layer (done ++ [node]) tables := filled.mono fun other _ => by
    rw [loadedOf_snoc]
    exact Nat.le_add_right _ _
  rcases onLayer_some hrun with ⟨rfl, changed, hchanged, rfl⟩ | ⟨group, rfl, changed, hchanged, rfl⟩
  · refine ⟨(filled.ingress0.setTable hchanged).mono fun other => ?_, hnext.ingress1⟩
    rw [Function.update_apply]
    split
    next => rw [if_pos rfl, loadedOf_snoc, if_pos rfl]
    next => exact Nat.le_refl 0
  · refine ⟨hnext.ingress0, (filled.ingress1.setTable hchanged).mono fun other => ?_⟩
    rw [Function.update_apply]
    split
    next heq => rw [heq, loadedOf_snoc, if_pos rfl]
    next =>
      rw [loadedOf_snoc]
      exact Nat.le_add_right _ _

/-- Wherever the loop stands. -/
theorem Loading.filled (loading : Loading nodes layer done tables) : Filled nodes layer done tables := by
  induction loading with
  | start => exact ⟨sized_empty _, sized_empty _⟩
  | init _ whole _ _ run ih => exact ih.init whole run
  | set _ _ run ih => exact ih.set run

/-- The loaded nodes are the first ones of the layer. -/
theorem Loading.within (loading : Loading nodes layer done tables) :
    done <+: nodes.getD layer [] := by
  cases loading with
  | start => exact List.nil_prefix
  | init => exact List.nil_prefix
  | set _ here _ =>
      rw [List.getD_eq_getElem?_getD, here]
      exact ⟨_, List.append_assoc _ _ _⟩

theorem Loading.sized (loading : Loading nodes layer done tables) {most : Nat}
    (few : ∀ other, other ≠ 0 → (nodes.getD other []).length ≤ most) :
    Sized (fun _ => most) tables.ingress0 ∧ Sized (fun _ => most) tables.ingress1 := by
  have hloaded : ∀ other, other ≠ 0 → loadedOf nodes layer done other ≤ most := by
    intro other hother
    unfold loadedOf
    split
    · exact few other hother
    · split
      next heq => exact loading.within.length_le.trans (heq ▸ few other hother)
      next => exact Nat.zero_le _
  constructor
  · refine loading.filled.ingress0.mono fun group => ?_
    split
    · exact hloaded 1 (by decide)
    · exact Nat.zero_le _
  · exact loading.filled.ingress1.mono fun group => hloaded _ (by split <;> decide)

end

/-! ## The files -/

/-- Every node goes to the layer of its depth. -/
theorem length_readNodes {file : List (Nat × NodeLines)} {nodes : List (List FBTNode)}
    (hrun : readNodes file = some nodes) (layer : Nat) :
    (nodes.getD layer []).length = file.countP (fun lines => lines.1 = layer) := by
  induction file using List.reverseRecOn generalizing nodes with
  | nil =>
      obtain rfl := Option.some.inj hrun
      rfl
  | append_singleton file lines ih =>
      rw [readNodes, List.foldlM_append] at hrun
      obtain ⟨before, hbefore, hlast⟩ := Option.bind_eq_some_iff.mp hrun
      rw [List.foldlM_cons] at hlast
      obtain ⟨after, hafter, hend⟩ := Option.bind_eq_some_iff.mp hlast
      obtain ⟨node, -, rfl⟩ := Option.map_eq_some_iff.mp hafter
      obtain rfl := Option.some.inj hend
      rw [getD_addNode, List.length_append, ih hbefore, List.countP_append, List.countP_singleton]
      by_cases hdepth : lines.1 = layer
      · simp [hdepth]
      · simp [hdepth]

theorem length_addAddrs {addrs : List (BitVec 48)} {table : ExactTable Nat (BitVec 48)}
    (hrun : addAddrs addrs = some table) : table.entries.length = addrs.length := by
  have hadd : ∀ (table : ExactTable Nat (BitVec 48)) i grown,
      (addrs[i]?.bind fun addr => table.add i addr) = some grown →
        grown.entries.length = table.entries.length + 1 := by
    intro table i grown hrun
    obtain ⟨addr, -, hgrown⟩ := Option.bind_eq_some_iff.mp hrun
    exact ExactTable.length_of_add hgrown
  have hlen := ExactTable.length_of_foldlM hadd hrun
  rw [List.length_range] at hlen
  exact hlen.trans (Nat.zero_add _)

/-! ## The script reaches its end -/

theorem foldlM_onLayer {layer : Nat} {group : Fin 2} {place : Tables → Ingresses}
    (placed : ∀ body tables, onLayer body (place tables) layer = (body group tables).map place)
    (nodes : List FBTNode) (tables : Tables) :
    nodes.foldlM (fun tables node => onLayer (setTable node) tables layer) (place tables) =
      (nodes.foldlM (fun tables node => setTable node group tables) tables).map place := by
  induction nodes generalizing tables with
  | nil => rfl
  | cons node rest ih =>
      rw [List.foldlM_cons, List.foldlM_cons, placed]
      cases setTable node group tables with
      | none => rfl
      | some next => exact ih next

theorem Loading.of_loadLayer (place : Tables → Ingresses) {nodes : List (List FBTNode)}
    {layer : Nat} {done : List FBTNode} {group : Fin 2} {tables grown : Tables}
    (before : Loading nodes layer done (place tables))
    (whole : layer ≠ 0 → nodes[layer]? = some done)
    (placed : ∀ body tables, onLayer body (place tables) (layer + 1) = (body group tables).map place)
    (hrun : loadLayer nodes (layer + 1) group tables = some grown) :
    ∃ next, nodes[layer + 1]? = some next ∧ Loading nodes (layer + 1) next (place grown) := by
  obtain ⟨next, hnext, hrest⟩ := Option.bind_eq_some_iff.mp hrun
  obtain ⟨first, hfirst, hrest⟩ := Option.bind_eq_some_iff.mp hrest
  obtain ⟨filled, hinit, hset⟩ := Option.bind_eq_some_iff.mp hrest
  have hne : next ≠ [] := by
    rintro rfl
    cases hfirst
  have hplaced : onLayer initTable (place tables) (layer + 1) = some (place filled) := by
    rw [placed, hinit, Option.map_some]
  refine ⟨next, hnext, before.layer whole hnext hne hplaced ?_⟩
  rw [foldlM_onLayer placed, hset, Option.map_some]

/-- The tables of the loaded switch are where the loop stands after its last node. -/
theorem Loading.of_config {rangeTables : Tcam.Tables} {addrs : List (BitVec 48)}
    {remoteStag : BitVec 32} {file : List (Nat × NodeLines)} {switch : SwitchTables}
    (hrun : config rangeTables addrs remoteStag file = some switch) :
    ∃ nodes done, readNodes file = some nodes ∧
      Loading nodes 3 done ⟨switch.ingress0, switch.ingress1⟩ := by
  obtain ⟨setAddrTable, -, hrest⟩ := Option.bind_eq_some_iff.mp hrun
  obtain ⟨nodes, hnodes, hrest⟩ := Option.bind_eq_some_iff.mp hrest
  obtain ⟨ingress0, hfirst, hrest⟩ := Option.bind_eq_some_iff.mp hrest
  obtain ⟨middle, hsecond, hrest⟩ := Option.bind_eq_some_iff.mp hrest
  obtain ⟨ingress1, hthird, hlast⟩ := Option.bind_eq_some_iff.mp hrest
  obtain rfl := Option.some.inj hlast
  obtain ⟨done1, hdone1, loading1⟩ := Loading.of_loadLayer (fun tables => ⟨tables, .empty⟩)
    .start (absurd rfl) (fun _ _ => rfl) hfirst
  obtain ⟨done2, hdone2, loading2⟩ := Loading.of_loadLayer (fun tables => ⟨ingress0, tables⟩)
    loading1 (fun _ => hdone1) (fun _ _ => rfl) hsecond
  obtain ⟨done3, -, loading3⟩ := Loading.of_loadLayer (fun tables => ⟨ingress0, tables⟩)
    loading2 (fun _ => hdone2) (fun _ _ => rfl) hthird
  exact ⟨nodes, done3, hnodes, loading3⟩

end FatBTree.Rdma
