import FatBTree.Sram.NodeInfo
import Mathlib.Data.List.Perm.Basic

/-!
# Installing the nodes of four files

`FBT_SRAM.py` sorts the nodes of four files into layers and installs the layers below
`maxlayer`.  Every node it reads sets `maxlayer`, so the last one decides.
-/

namespace FatBTree.Sram.NodeInfo

/-! ## The script -/

structure LoaderState where
  maxlayer : Nat
  nodes : List (List FBTNode)

def LoaderState.start : LoaderState where
  maxlayer := 0
  nodes := [[], [], [], [], [], [], [], []]

/-- The body of a reading loop. -/
def addNode (s : LoaderState) (node : FBTNode) : LoaderState :=
  match node.depth with
  | 0 => { maxlayer := 1, nodes := s.nodes.modify 0 (· ++ [node]) }
  | 1 => { maxlayer := 2, nodes := s.nodes.modify 1 (· ++ [node]) }
  | 2 => { maxlayer := 3, nodes := s.nodes.modify 2 (· ++ [node]) }
  | 3 => { maxlayer := 4, nodes := s.nodes.modify 3 (· ++ [node]) }
  | 4 => { maxlayer := 5, nodes := s.nodes.modify 4 (· ++ [node]) }
  | _ => { maxlayer := 6, nodes := s.nodes.modify 5 (· ++ [node]) }

/-- The reading loop of one file. -/
def addFile (s : LoaderState) (file : List Char) : Option LoaderState :=
  (readFile file).map fun read => read.foldl addNode s

/-- A call `node.set_table(bfrt, pipe, layer, 0)`. -/
structure SetTable where
  node : FBTNode
  layer : Nat
  deriving DecidableEq

/-- The body of the installation loop. -/
def callsOf (layer : Nat) (nodes : List FBTNode) : List SetTable :=
  nodes.map fun node => if layer = 1 then ⟨node, 0⟩ else ⟨node, 1⟩

/-- The installation loop; a layer without a list is an `IndexError`. -/
def installLayers (nodes : List (List FBTNode)) : List Nat → Option (List SetTable)
  | [] => some []
  | layer :: layers => do
      let listed ← nodes[layer]?
      let calls ← installLayers nodes layers
      return callsOf layer listed ++ calls

def loader (file1 file2 file3 file4 : List Char) : Option (List SetTable) := do
  let s ← addFile .start file1
  let s ← addFile s file2
  let s ← addFile s file3
  let s ← addFile s file4
  installLayers s.nodes (List.range s.maxlayer)

/-- A file as `load2switch_greedy` prints it: virtual depth 1, then virtual depth 2. -/
structure ServerFile where
  ones : List PrintedNode
  twos : List PrintedNode
  ones_depth : ∀ node ∈ ones, node.depth = 1
  twos_depth : ∀ node ∈ twos, node.depth = 2

def ServerFile.listed (file : ServerFile) : List PrintedNode :=
  file.ones ++ file.twos

/-- The calls that a file asks for. -/
def ServerFile.wanted (file : ServerFile) : List SetTable :=
  (file.ones.map fun node => ⟨node.loaded, 0⟩) ++ file.twos.map fun node => ⟨node.loaded, 1⟩

/-- The files are printed and loaded. -/
def printAndLoad (file1 file2 file3 file4 : ServerFile) : Option (List SetTable) := do
  let text1 ← printFile file1.listed
  let text2 ← printFile file2.listed
  let text3 ← printFile file3.listed
  let text4 ← printFile file4.listed
  loader text1 text2 text3 text4

/-! ## Layers -/

/-- The list that a node goes to. -/
def layerOf (node : FBTNode) : Nat := min node.depth 5

theorem addNode_eq (s : LoaderState) (node : FBTNode) :
    addNode s node =
      { maxlayer := layerOf node + 1
        nodes := s.nodes.modify (layerOf node) (· ++ [node]) } := by
  rcases Nat.lt_or_ge node.depth 5 with hlow | hhigh
  · obtain hdepth | hdepth | hdepth | hdepth | hdepth :
        node.depth = 0 ∨ node.depth = 1 ∨ node.depth = 2 ∨ node.depth = 3 ∨ node.depth = 4 := by
      omega
    all_goals simp [addNode, layerOf, hdepth]
  · have hmin : layerOf node = 5 := Nat.min_eq_right hhigh
    rw [hmin]
    unfold addNode
    split
    case h_6 => rfl
    all_goals omega

/-- The last node read decides `maxlayer`. -/
theorem foldl_addNode_maxlayer (read : List FBTNode) (s : LoaderState) :
    (read.foldl addNode s).maxlayer =
      (read.getLast?.map fun node => layerOf node + 1).getD s.maxlayer := by
  induction read generalizing s with
  | nil => rfl
  | cons node read ih =>
      rw [List.foldl_cons, ih, addNode_eq, List.getLast?_cons]
      cases read.getLast? with
      | none => rfl
      | some last => rfl

/-- Every node that was read is in its layer, in the order of reading. -/
theorem foldl_addNode_nodes (read : List FBTNode) (s : LoaderState) (layer : Nat) :
    (read.foldl addNode s).nodes[layer]? =
      s.nodes[layer]?.map (· ++ read.filter fun node => layerOf node = layer) := by
  induction read generalizing s with
  | nil => simp
  | cons node read ih =>
      rw [List.foldl_cons, ih, addNode_eq, List.getElem?_modify, List.filter_cons]
      by_cases hlayer : layerOf node = layer
      · simp [hlayer, Function.comp_def]
      · simp [hlayer]

theorem installLayers_eq {nodes : List (List FBTNode)} {listed : Nat → List FBTNode}
    (layers : List Nat) (hnodes : ∀ layer ∈ layers, nodes[layer]? = some (listed layer)) :
    installLayers nodes layers = some (layers.flatMap fun layer => callsOf layer (listed layer)) := by
  induction layers with
  | nil => rfl
  | cons layer layers ih =>
      have hrest := ih fun other hother => hnodes other (List.mem_cons_of_mem _ hother)
      rw [installLayers, hnodes layer List.mem_cons_self, hrest, List.flatMap_cons]
      rfl

theorem addFile_records (s : LoaderState) (nodes : List PrintedNode) :
    addFile s (nodes.flatMap PrintedNode.record) =
      some ((nodes.map PrintedNode.loaded).foldl addNode s) := by
  rw [addFile, readFile_records]
  rfl

theorem getElem?_start {layer : Nat} (hlayer : layer < 8) :
    LoaderState.start.nodes[layer]? = some [] := by
  interval_cases layer <;> rfl

/-- The layers below the one of the last node are installed. -/
theorem printAndLoad_eq (file1 file2 file3 file4 : ServerFile) {nodes : List PrintedNode}
    (hnodes : nodes = [file1, file2, file3, file4].flatMap ServerFile.listed) :
    printAndLoad file1 file2 file3 file4 =
      some ((List.range ((nodes.getLast?.map fun node => layerOf node.loaded + 1).getD 0)).flatMap
        fun layer => callsOf layer
          ((nodes.map PrintedNode.loaded).filter fun node => layerOf node = layer)) := by
  have hread : ([file1, file2, file3, file4].flatMap ServerFile.listed) =
      file1.listed ++ (file2.listed ++ (file3.listed ++ file4.listed)) := by
    simp
  rw [hread] at hnodes
  have hlast : (nodes.map PrintedNode.loaded).getLast?.map (fun node => layerOf node + 1) =
      nodes.getLast?.map fun node => layerOf node.loaded + 1 := by
    rw [List.getLast?_map, Option.map_map]
    rfl
  have hmax := foldl_addNode_maxlayer (nodes.map PrintedNode.loaded) .start
  rw [hlast] at hmax
  have hstart : LoaderState.start.maxlayer = 0 := rfl
  have hbound : ((nodes.map PrintedNode.loaded).foldl addNode .start).maxlayer ≤ 6 := by
    rw [hmax, hstart]
    cases nodes.getLast? with
    | none => exact Nat.zero_le _
    | some last => exact Nat.succ_le_succ (Nat.min_le_right _ _)
  simp only [printAndLoad, printFile_eq, loader, addFile_records, Option.bind_eq_bind,
    Option.bind_some]
  rw [← List.foldl_append, ← List.foldl_append, ← List.foldl_append, ← List.map_append,
    ← List.map_append, ← List.map_append, ← hnodes, ← hstart, ← hmax]
  refine installLayers_eq _ fun layer hlayer => ?_
  have hlow : layer < 8 := by
    have hrange := List.mem_range.mp hlayer
    omega
  rw [foldl_addNode_nodes, getElem?_start hlow]
  rfl

/-! ## Which nodes are installed -/

/-- The call that a node of virtual depth 1 or 2 asks for. -/
def wantedCall (node : PrintedNode) : SetTable :=
  if node.depth = 1 then ⟨node.loaded, 0⟩ else ⟨node.loaded, 1⟩

theorem ServerFile.wanted_eq (file : ServerFile) : file.wanted = file.listed.map wantedCall := by
  rw [wanted, listed, List.map_append]
  congr 1
  · refine List.map_congr_left fun node hnode => ?_
    rw [wantedCall, if_pos (file.ones_depth node hnode)]
  · refine List.map_congr_left fun node hnode => ?_
    have hdepth : ¬ node.depth = 1 := by
      rw [file.twos_depth node hnode]
      decide
    rw [wantedCall, if_neg hdepth]

theorem wanted_files (files : List ServerFile) :
    files.flatMap ServerFile.wanted = (files.flatMap ServerFile.listed).map wantedCall := by
  rw [List.map_flatMap]
  exact congrArg (files.flatMap ·) (funext ServerFile.wanted_eq)

theorem ServerFile.listed_depth {file : ServerFile} {node : PrintedNode}
    (hnode : node ∈ file.listed) : node.depth = 1 ∨ node.depth = 2 :=
  (List.mem_append.mp hnode).imp (file.ones_depth node) (file.twos_depth node)

theorem callsOf_filter {nodes : List PrintedNode} {layer : Nat} {keep : PrintedNode → Bool}
    (hkeep : ∀ node ∈ nodes, decide (layerOf node.loaded = layer) = keep node)
    (hcall : ∀ node ∈ nodes, keep node = true →
      (if layer = 1 then (⟨node.loaded, 0⟩ : SetTable) else ⟨node.loaded, 1⟩) = wantedCall node) :
    callsOf layer ((nodes.map PrintedNode.loaded).filter fun node => layerOf node = layer) =
      (nodes.filter keep).map wantedCall := by
  have hfilter : nodes.filter ((fun node => decide (layerOf node = layer)) ∘ PrintedNode.loaded) =
      nodes.filter keep :=
    List.filter_congr hkeep
  rw [callsOf, List.filter_map, hfilter, List.map_map]
  refine List.map_congr_left fun node hnode => ?_
  obtain ⟨hmem, htrue⟩ := List.mem_filter.mp hnode
  exact hcall node hmem htrue

section Depths

variable {nodes : List PrintedNode} (depths : ∀ node ∈ nodes, node.depth = 1 ∨ node.depth = 2)

include depths

theorem layerOf_loaded {node : PrintedNode} (hnode : node ∈ nodes) :
    layerOf node.loaded = node.depth.toNat := by
  rcases depths node hnode with hdepth | hdepth
  · simp [layerOf, PrintedNode.loaded, hdepth]
  · simp [layerOf, PrintedNode.loaded, hdepth]

theorem layerOf_loaded_eq_iff {node : PrintedNode} (hnode : node ∈ nodes) (layer : BitVec 32) :
    layerOf node.loaded = layer.toNat ↔ node.depth = layer := by
  rw [layerOf_loaded depths hnode, BitVec.toNat_inj]

theorem callsOf_zero :
    callsOf 0 ((nodes.map PrintedNode.loaded).filter fun node => layerOf node = 0) = [] := by
  have hkeep : ∀ node ∈ nodes, decide (layerOf node.loaded = 0) = false := by
    intro node hnode
    have hzero := layerOf_loaded_eq_iff depths hnode 0
    rcases depths node hnode with hdepth | hdepth
    · exact decide_eq_false fun heq => absurd (hdepth.symm.trans (hzero.mp heq)) (by decide)
    · exact decide_eq_false fun heq => absurd (hdepth.symm.trans (hzero.mp heq)) (by decide)
  rw [callsOf_filter hkeep fun _ _ hfalse => nomatch hfalse]
  simp

theorem callsOf_one :
    callsOf 1 ((nodes.map PrintedNode.loaded).filter fun node => layerOf node = 1) =
      (nodes.filter fun node => node.depth = 1).map wantedCall := by
  refine callsOf_filter (fun node hnode => ?_) fun node _ hone => ?_
  · exact decide_eq_decide.mpr (layerOf_loaded_eq_iff depths hnode 1)
  · rw [wantedCall, if_pos rfl, if_pos (of_decide_eq_true hone)]

theorem callsOf_two :
    callsOf 2 ((nodes.map PrintedNode.loaded).filter fun node => layerOf node = 2) =
      (nodes.filter fun node => !decide (node.depth = 1)).map wantedCall := by
  refine callsOf_filter (fun node hnode => ?_) fun node _ htwo => ?_
  · rw [← decide_not]
    refine decide_eq_decide.mpr ((layerOf_loaded_eq_iff depths hnode 2).trans ?_)
    constructor
    · intro hdepth
      rw [hdepth]
      decide
    · exact (depths node hnode).resolve_left
  · rw [← decide_not] at htwo
    rw [wantedCall, if_neg (by decide), if_neg (of_decide_eq_true htwo)]

/-- With the layer of depth 2 installed, every node is. -/
theorem calls_perm_of_last_two {last : PrintedNode} (hlast : nodes.getLast? = some last)
    (htwo : last.depth = 2) :
    ((List.range ((nodes.getLast?.map fun node => layerOf node.loaded + 1).getD 0)).flatMap
        fun layer => callsOf layer
          ((nodes.map PrintedNode.loaded).filter fun node => layerOf node = layer)).Perm
      (nodes.map wantedCall) := by
  have hlayer : layerOf last.loaded = 2 := by
    rw [layerOf_loaded depths (List.mem_of_getLast? hlast), htwo]
    rfl
  have hrange : List.range 3 = [0, 1, 2] := rfl
  rw [hlast, Option.map_some, Option.getD_some, hlayer, hrange, List.flatMap_cons,
    List.flatMap_cons, List.flatMap_cons, List.flatMap_nil, List.append_nil, callsOf_zero depths,
    callsOf_one depths, callsOf_two depths, List.nil_append, ← List.map_append]
  exact (List.filter_append_perm _ nodes).map wantedCall

/-- With only the layer of depth 1 installed, the nodes of that depth are. -/
theorem calls_perm_iff_of_last_one {last : PrintedNode} (hlast : nodes.getLast? = some last)
    (hone : last.depth = 1) :
    ((List.range ((nodes.getLast?.map fun node => layerOf node.loaded + 1).getD 0)).flatMap
        fun layer => callsOf layer
          ((nodes.map PrintedNode.loaded).filter fun node => layerOf node = layer)).Perm
      (nodes.map wantedCall) ↔ ∀ node ∈ nodes, node.depth = 1 := by
  have hlayer : layerOf last.loaded = 1 := by
    rw [layerOf_loaded depths (List.mem_of_getLast? hlast), hone]
    rfl
  have hrange : List.range 2 = [0, 1] := rfl
  rw [hlast, Option.map_some, Option.getD_some, hlayer, hrange, List.flatMap_cons,
    List.flatMap_cons, List.flatMap_nil, List.append_nil, callsOf_zero depths,
    callsOf_one depths, List.nil_append]
  constructor
  · intro hperm node hnode
    have hlen := hperm.length_eq
    rw [List.length_map, List.length_map, List.length_filter_eq_length_iff] at hlen
    exact of_decide_eq_true (hlen node hnode)
  · intro hall
    rw [List.filter_eq_self.mpr fun node hnode => decide_eq_true (hall node hnode)]

end Depths

/-- Every listed node is installed, in the group of its depth, exactly when no file lists a
node of depth 2 or the last node read has depth 2. -/
theorem loader_installs_all_iff (file1 file2 file3 file4 : ServerFile) :
    ∃ calls, printAndLoad file1 file2 file3 file4 = some calls ∧
      (calls.Perm ([file1, file2, file3, file4].flatMap ServerFile.wanted) ↔
        (∀ file ∈ [file1, file2, file3, file4], file.twos = []) ∨
          ∃ last, ([file1, file2, file3, file4].flatMap ServerFile.listed).getLast? = some last ∧
            last.depth = 2) := by
  have heq := printAndLoad_eq file1 file2 file3 file4 rfl
  rw [wanted_files]
  generalize hfiles : [file1, file2, file3, file4] = files at heq
  have hdepths : ∀ node ∈ files.flatMap ServerFile.listed, node.depth = 1 ∨ node.depth = 2 := by
    intro node hnode
    obtain ⟨file, -, hlisted⟩ := List.mem_flatMap.mp hnode
    exact ServerFile.listed_depth hlisted
  have htwos : (∀ file ∈ files, file.twos = []) ↔
      ∀ node ∈ files.flatMap ServerFile.listed, node.depth = 1 := by
    constructor
    · intro hnone node hnode
      obtain ⟨file, hfile, hlisted⟩ := List.mem_flatMap.mp hnode
      rw [ServerFile.listed, hnone file hfile, List.append_nil] at hlisted
      exact file.ones_depth node hlisted
    · intro hone file hfile
      refine List.eq_nil_iff_forall_not_mem.mpr fun node hnode => ?_
      have hlisted : node ∈ files.flatMap ServerFile.listed :=
        List.mem_flatMap.mpr ⟨file, hfile, List.mem_append_right _ hnode⟩
      exact absurd ((hone node hlisted).symm.trans (file.twos_depth node hnode)) (by decide)
  refine ⟨_, heq, ?_⟩
  rw [htwos]
  generalize files.flatMap ServerFile.listed = nodes at hdepths
  cases hlast : nodes.getLast? with
  | none =>
      obtain rfl := List.getLast?_eq_none_iff.mp hlast
      simp
  | some last =>
      rw [← hlast]
      rcases hdepths last (List.mem_of_getLast? hlast) with hone | htwo
      · rw [calls_perm_iff_of_last_one hdepths hlast hone]
        refine ⟨Or.inl, fun hcases => hcases.resolve_right ?_⟩
        rintro ⟨other, hother, htwo⟩
        obtain rfl := Option.some.inj (hlast.symm.trans hother)
        exact absurd (hone.symm.trans htwo) (by decide)
      · exact ⟨fun _ => Or.inr ⟨last, hlast, htwo⟩,
          fun _ => calls_perm_of_last_two hdepths hlast htwo⟩

/-- A node that has one child and no keys. -/
def smallNode (address : BitVec 48) (depth : BitVec 32) : PrintedNode where
  address := some address
  depth := depth
  keys := []
  children := [0x40]
  children_ne_nil := List.cons_ne_nil _ _

/-- The first server lists two layers, the last server one layer; the node of depth 2 is
not installed. -/
theorem loader_misses_node :
    ∃ file1 file2 file3 file4 : ServerFile, ∃ calls,
      printAndLoad file1 file2 file3 file4 = some calls ∧
      ¬ calls.Perm ([file1, file2, file3, file4].flatMap ServerFile.wanted) := by
  let file1 : ServerFile :=
    ⟨[smallNode 0x10 1], [smallNode 0x20 2], by simp [smallNode], by simp [smallNode]⟩
  let file4 : ServerFile :=
    ⟨[smallNode 0x30 1], [], by simp [smallNode], by simp⟩
  let empty : ServerFile := ⟨[], [], by simp, by simp⟩
  refine ⟨file1, empty, empty, file4, _, printAndLoad_eq file1 empty empty file4 rfl, ?_⟩
  intro hperm
  exact absurd hperm.length_eq (by decide)

end FatBTree.Sram.NodeInfo
