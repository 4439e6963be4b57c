import FatBTree.Ethernet.Switches

/-!
# A read through the two switches

The files of any loads lead a read to a node of its server.  The first switch writes the
address of a child of a fat root into the index, and each copy that the second switch finds
there replaces it by the address of a child.
-/

namespace FatBTree.Ethernet

open FatBTree.Order FatBTree.P4 FatBTree.Sram FatBTree.Switch FatBTree.Wire
open FatBTree.Sram.NodeInfo (PrintedNode ServerFile)

/-! ## Addresses -/

section Address

variable (config : Backend.Config) (part : Fin 4) {n : Nat}

theorem toNat_nodeNumber (hn : n ≤ 44739242) :
    (nodeNumber config part n).toNat = part.val * 2 ^ 46 + n * 96 := by
  have hpart := part.isLt
  have hmask : (serverMask part).toNat = 2 ^ 46 * part.val := by
    revert part
    decide
  have hoffset : nodeAddr config.pool n - config.pool = BitVec.ofNat 64 (n * sizeofNode) := by
    rw [nodeAddr, BitVec.add_comm, BitVec.add_sub_cancel]
  have hlow : n * sizeofNode < 2 ^ 46 := by
    rw [sizeofNode]
    omega
  rw [nodeNumber, printedAddr, hoffset, BitVec.toNat_or, hmask, BitVec.toNat_ofNat,
    Nat.mod_eq_of_lt (by omega), ← Nat.two_pow_add_eq_or_of_lt hlow, sizeofNode, Nat.mul_comm]

theorem toNat_nodeIdx (hn : n ≤ 44739242) :
    (nodeIdx config part n).toNat = part.val * 2 ^ 46 + n * 96 := by
  have hpart := part.isLt
  rw [nodeIdx, BitVec.toNat_setWidth, toNat_nodeNumber config part hn]
  omega

theorem nodeIdx_ne_zero (hn : n ≤ 44739242) (hne : n ≠ 0) : nodeIdx config part n ≠ 0 := by
  intro hzero
  have hnat : (0 : BitVec 48).toNat = part.val * 2 ^ 46 + n * 96 :=
    hzero ▸ toNat_nodeIdx config part hn
  have hoffset : n * 96 = 0 := (Nat.add_eq_zero_iff.mp hnat.symm).2
  omega

/-- An index belongs to one node of one server. -/
theorem nodeIdx_inj {config' : Backend.Config} {part' : Fin 4} {m : Nat} (hn : n ≤ 44739242)
    (hm : m ≤ 44739242) (heq : nodeIdx config part n = nodeIdx config' part' m) :
    part = part' ∧ n = m := by
  have hnat : part.val * 2 ^ 46 + n * 96 = part'.val * 2 ^ 46 + m * 96 := by
    rw [← toNat_nodeIdx config part hn, heq, toNat_nodeIdx config' part' hm]
  have hserver : ∀ s k : Nat, k ≤ 44739242 → (s * 2 ^ 46 + k * 96) / 2 ^ 46 = s := by
    intro s k hk
    have hlow : k * 96 < 2 ^ 46 := Nat.lt_of_le_of_lt (Nat.mul_le_mul_right 96 hk) (by decide)
    rw [Nat.add_comm, Nat.add_mul_div_right _ _ (Nat.two_pow_pos 46), Nat.div_eq_of_lt hlow,
      Nat.zero_add]
  have hpart : part.val = part'.val := by
    rw [← hserver part.val n hn, hnat, hserver part'.val m hm]
  rw [hpart] at hnat
  exact ⟨Fin.ext hpart, Nat.eq_of_mul_eq_mul_right (by decide) (Nat.add_left_cancel hnat)⟩

end Address

/-! ## The first switch -/

/-- Lists on both sides of a separator. -/
theorem pairwise_join {front later : List Nat} {edge : Nat} (sorted : front.Pairwise (· ≤ ·))
    (sorted' : later.Pairwise (· ≤ ·)) (below : ∀ key ∈ front, key < edge)
    (above : ∀ key ∈ later, edge ≤ key) : (front ++ edge :: later).Pairwise (· ≤ ·) := by
  refine List.pairwise_append.mpr ⟨sorted, List.pairwise_cons.mpr ⟨above, sorted'⟩, ?_⟩
  intro key hkey other hother
  have hlt := below key hkey
  rcases List.mem_cons.mp hother with rfl | hlater
  · exact Nat.le_of_lt hlt
  · exact Nat.le_of_lt (Nat.lt_of_lt_of_le hlt (above other hlater))

theorem mergedKeys_sorted (roots : (part : Fin 4) → Tcam.FatRoot part) :
    (Tcam.mergedKeys roots).Pairwise (· ≤ ·) := by
  have hroot : ∀ part, (Tcam.rootKeys roots part).Pairwise (· ≤ ·) := fun part =>
    List.pairwise_map.mpr
      ((roots part).increasing.imp fun hlt => Nat.le_of_lt (BitVec.lt_def.mp hlt))
  have hbounds := Tcam.rootKeys_bounds roots
  refine pairwise_join (hroot 0) (pairwise_join (hroot 1) (pairwise_join (hroot 2) (hroot 3) ?_ ?_)
    ?_ ?_) ?_ (Tcam.mergedFrom1_ge roots)
  · exact fun key hkey => (hbounds 2 key hkey).2
  · exact fun key hkey => (hbounds 3 key hkey).1
  · exact fun key hkey => (hbounds 1 key hkey).2
  · exact Tcam.mergedFrom2_ge roots
  · exact fun key hkey => (hbounds 0 key hkey).2

section Fat

variable {part : Fin 4} {file : Snapshot (Fin (2 ^ 64))}

/-- The keys that the first switch compares with: those of the fat roots, and the separators
between the parts. -/
def fatKeys (fat : Fin 4 → Snapshot (Fin (2 ^ 64))) : List Nat :=
  (fat 0).fat.keys.map Fin.val ++ 1 * 2 ^ 62 :: ((fat 1).fat.keys.map Fin.val ++
    2 * 2 ^ 62 :: ((fat 2).fat.keys.map Fin.val ++ 3 * 2 ^ 62 :: (fat 3).fat.keys.map Fin.val))

/-- The fat root of a file. -/
def fatRoot (config : Backend.Config) (listed : Listed (InPart part) file) : Tcam.FatRoot part where
  keys := file.fat.keys.map BitVec.ofFin
  children := file.fat.children.map (nodeNumber config part)
  increasing := List.pairwise_map.mpr listed.increasing
  part := by
    intro key hkey
    obtain ⟨x, hx, rfl⟩ := List.mem_map.mp hkey
    have hpart := congrArg Fin.val (listed.named x hx)
    rw [BitVec.toNat_ushiftRight, Nat.shiftRight_eq_div_pow]
    exact hpart
  children_length := by
    rw [List.length_map, List.length_map]
    exact listed.fat_arity

theorem rootFile_eq (config : Backend.Config) (listed : Listed (InPart part) file) :
    rootFile config part file = (fatRoot config listed).nodeInfo [] :=
  (List.append_nil _).symm

/-- The fat root of the switch sends a key to the child that the file sends it to. -/
theorem fatRoot_childFor (config : Backend.Config) (listed : Listed (InPart part) file) (x : BitVec 64) :
    ∃ n, file.fat.childFor x.toFin = some n ∧
      (fatRoot config listed).childFor x = nodeNumber config part n := by
  have hbelow : (fatRoot config listed).below x = countBelow file.fat.keys x.toFin := by
    rw [Tcam.FatRoot.below, countBelow, fatRoot, List.countP_map]
    rfl
  have hlt : countBelow file.fat.keys x.toFin < file.fat.children.length := by
    have hcount := (fatRoot config listed).below_lt x
    rw [hbelow] at hcount
    rwa [fatRoot, List.length_map] at hcount
  refine ⟨_, List.getElem?_eq_getElem hlt, ?_⟩
  have hget : (file.fat.children.map (nodeNumber config part))[countBelow file.fat.keys x.toFin]?
      = some (nodeNumber config part (file.fat.children[countBelow file.fat.keys x.toFin])) := by
    rw [List.getElem?_map, List.getElem?_eq_getElem hlt, Option.map_some]
  have hchild : (fatRoot config listed).children[(fatRoot config listed).below x]? =
      some ((fatRoot config listed).childFor x) :=
    List.getElem?_eq_getElem ((fatRoot config listed).below_lt x)
  rw [hbelow] at hchild
  exact Option.some.inj (hchild.symm.trans hget)

variable (config : Fin 4 → Backend.Config) {fat : Fin 4 → Snapshot (Fin (2 ^ 64))}
  (listed : ∀ part, Listed (InPart part) (fat part))

def fatRoots (part : Fin 4) : Tcam.FatRoot part :=
  fatRoot (config part) (listed part)

theorem mergedKeys_fatRoots : Tcam.mergedKeys (fatRoots config listed) = fatKeys fat := by
  have hkeys : ∀ part, Tcam.rootKeys (fatRoots config listed) part =
      (fat part).fat.keys.map Fin.val := fun part => List.map_map
  rw [Tcam.mergedKeys, fatKeys, hkeys, hkeys, hkeys, hkeys]

/-- What the scripts make of the files. -/
def loadedTcam : TcamConfig where
  tables := Tcam.printedTables (Tcam.rangelist (fatKeys fat))
  setAddrTable := (Tcam.mergedChildren (fatRoots config listed)).map (BitVec.ofNat 48)
  keys := fatKeys fat

/-- The scripts fail when a row lacks its blank, and only then. -/
theorem configTcam_eq :
    (Tcam.Glued (fatKeys fat) → configTcam config fat = none) ∧
      (¬ Tcam.Glued (fatKeys fat) →
        configTcam config fat = some (loadedTcam config listed)) := by
  have hne : (fatRoots config listed 3).keys ≠ [] :=
    fun hnil => (listed 3).keys_ne_nil (List.map_eq_nil_iff.mp hnil)
  obtain ⟨front, last, hkeys, hrun⟩ :=
    Tcam.getKeys_of_ne_nil (fatRoots config listed) (fun _ => []) hne
  have hinfo : (fun part => rootFile (config part) part (fat part)) =
      fun part => (fatRoots config listed part).nodeInfo [] :=
    funext fun part => rootFile_eq (config part) (listed part)
  have haddrs := Tcam.setAddrTable_keyInfo front last (Tcam.mergedChildren (fatRoots config listed))
  have hread : Tcam.readKeys
      (Tcam.keyInfo (front ++ [last])
        (Tcam.printSpaced (Tcam.mergedChildren (fatRoots config listed)))).length
      (Tcam.keyInfo (front ++ [last])
        (Tcam.printSpaced (Tcam.mergedChildren (fatRoots config listed)))) =
      fatKeys fat := by
    have hsmall : ∀ key ∈ front ++ [last], key ≤ Tcam.uint64Max :=
      hkeys ▸ Tcam.mergedKeys_le (fatRoots config listed)
    rw [Tcam.readKeys_keyInfo hsmall, Tcam.boundaries, if_neg (by simp), ← hkeys,
      mergedKeys_fatRoots]
  rw [configTcam, hinfo, hrun]
  simp only [Option.bind_eq_bind, Option.bind_some, haddrs, Tcam.matchTable, hread]
  constructor
  · intro glued
    rw [Tcam.config_none _ glued, Option.bind_none]
  · intro unglued
    rw [Tcam.config_some _ unglued, Option.bind_some]
    rfl

/-- A query that meets its rows and is on no separator leaves the first switch with the
address of the child that the file of its server gives. -/
theorem loadedTcam_apply (found : Tcam.Meta) (fbt : QuarterHeader) {key : BitVec 64}
    (hkey : fbt.key1 ++ fbt.key2 ++ fbt.key3 ++ fbt.key4 = key)
    (kept : ¬ Tcam.Lost (fatKeys fat) key.toNat)
    (inner : ∀ s : Fin 3, key.toNat ≠ (s.val + 1) * 2 ^ 62) :
    ∃ n, (fat (Tcam.partOf key)).fat.childFor key.toFin = some n ∧
      (loadedTcam config listed).apply found fbt =
        { fbt with fbtIdx := nodeIdx (config (Tcam.partOf key)) (Tcam.partOf key) n } := by
  obtain ⟨n, hchild, hnumber⟩ := fatRoot_childFor (config (Tcam.partOf key))
    (listed (Tcam.partOf key)) key
  obtain ⟨next, counts, -, hrun⟩ := Tcam.ingressApply_of_kept key found kept
  have hresult : (Tcam.ingressApply (loadedTcam config listed).tables key found).1.result =
      countBelow (fatKeys fat) key.toNat := by
    have hsorted := mergedKeys_sorted (fatRoots config listed)
    rw [mergedKeys_fatRoots] at hsorted
    rw [loadedTcam, hrun, Tcam.jAt_eq_countP hsorted, countBelow]
  have haddr : (loadedTcam config listed).setAddrTable[countBelow (fatKeys fat) key.toNat]? =
      some (nodeIdx (config (Tcam.partOf key)) (Tcam.partOf key) n) := by
    have hmerged := Tcam.merged_getElem? (fatRoots config listed) key
    rw [Tcam.holder_eq_partOf inner, fatRoots, hnumber] at hmerged
    rw [mergedKeys_fatRoots] at hmerged
    rw [loadedTcam, List.getElem?_map, hmerged, Option.map_some, BitVec.ofNat_toNat]
    rfl
  refine ⟨n, hchild, ?_⟩
  rw [TcamConfig.apply]
  simp only [hkey, hresult, haddr]

end Fat

/-! ## The second switch -/

section Low

variable {schema : Schema} (config : Fin 4 → Backend.Config)

/-- A printed node is a copy of the file. -/
structure Copies (config : Backend.Config) (part : Fin 4) (entry : Entry (Fin (2 ^ 64)))
    (node : PrintedNode) : Prop where
  address : node.address = some (nodeIdx config part entry.node)
  numbers : node.numbers = entry.keys.map BitVec.ofFin
  children : node.children = entry.children.map (nodeIdx config part)

theorem copies_of_printedNode {config : Backend.Config} {part : Fin 4} {depth : BitVec 32}
    {entry : Entry (Fin (2 ^ 64))} (below : entry.node ≠ Tree.root) {node : PrintedNode}
    (hprinted : printedNode schema config part depth entry = some node) :
    Copies config part entry node := by
  rw [printedNode] at hprinted
  split at hprinted
  · cases hprinted
  · obtain rfl := Option.some.inj hprinted
    refine ⟨rfl, ?_, rfl⟩
    rw [PrintedNode.numbers, List.map_map]
    rfl

/-- The copies that the second switch takes into a group of its tables. -/
def fileLayer (file : Snapshot (Fin (2 ^ 64))) (group : Fin 2) : List (Entry (Fin (2 ^ 64))) :=
  file.layers.getD group []

theorem fileLayer_cases (file : Snapshot (Fin (2 ^ 64))) (group : Fin 2) :
    fileLayer file group = [] ∨ fileLayer file group ∈ file.layers := by
  rw [fileLayer, List.getD_eq_getElem?_getD]
  cases hlayer : file.layers[group.val]? with
  | none => exact Or.inl rfl
  | some layer => exact Or.inr (List.mem_of_getElem? hlayer)

theorem mem_entries_of_fileLayer {file : Snapshot (Fin (2 ^ 64))} {group : Fin 2}
    {entry : Entry (Fin (2 ^ 64))} (hentry : entry ∈ fileLayer file group) :
    entry ∈ file.entries := by
  rcases fileLayer_cases file group with hnil | hlayer
  · rw [hnil] at hentry
    cases hentry
  · exact List.mem_flatten.mpr ⟨_, hlayer, hentry⟩

theorem nodup_fileLayer {part : Fin 4} {file : Snapshot (Fin (2 ^ 64))}
    (listed : Listed (InPart part) file) (group : Fin 2) : ((fileLayer file group).map Entry.node).Nodup := by
  rcases fileLayer_cases file group with hnil | hlayer
  · rw [hnil]
    exact List.nodup_nil
  · exact listed.nodup _ hlayer

/-- The layers that are printed when a file is opened. -/
theorem listed_layerFile {config : Backend.Config} {part : Fin 4}
    {file : Snapshot (Fin (2 ^ 64))} {server : ServerFile}
    (hfile : layerFile schema config part file = some server) :
    server.listed = printedLayer schema config part 1 (fileLayer file 0) ++
      printedLayer schema config part 2 (fileLayer file 1) := by
  unfold layerFile at hfile
  split at hfile
  · cases hfile
  · next first rest hlayers =>
    cases hfile
    have hsecond : fileLayer file 1 = rest.headD [] := by
      rw [fileLayer, hlayers]
      cases rest <;> rfl
    have hfirst : fileLayer file 0 = first := by
      rw [fileLayer, hlayers]
      rfl
    rw [hfirst, hsecond]
    rfl

section Server

variable {part : Fin 4} {file : Snapshot (Fin (2 ^ 64))}

/-- The table group and the address of a copy. -/
def place (node : PrintedNode) : Fin 2 × BitVec 48 :=
  (node.group, node.address.getD 0)

theorem copies_of_listed (listed : Listed (InPart part) file) {config : Backend.Config}
    {server : ServerFile} (hfile : layerFile schema config part file = some server) {node : PrintedNode}
    (hnode : node ∈ server.listed) :
    ∃ entry ∈ file.entries, Copies config part entry node := by
  have hlayer : ∀ {depth group}, node ∈ printedLayer schema config part depth (fileLayer file group) →
      ∃ entry ∈ file.entries, Copies config part entry node := by
    intro depth group hprinted
    obtain ⟨entry, hentry, hcopy⟩ := List.mem_filterMap.mp hprinted
    have hmem := mem_entries_of_fileLayer hentry
    exact ⟨entry, hmem, copies_of_printedNode (listed.ne_root entry hmem) hcopy⟩
  rw [listed_layerFile hfile] at hnode
  exact (List.mem_append.mp hnode).elim hlayer hlayer

theorem Copies.fits (listed : Listed (InPart part) file) {config : Backend.Config}
    {entry : Entry (Fin (2 ^ 64))} {node : PrintedNode} (copies : Copies config part entry node)
    (hentry : entry ∈ file.entries) : node.Fits where
  sorted := by
    rw [copies.numbers]
    exact List.pairwise_map.mpr (listed.sorted entry hentry)
  few := by
    have hlen := congrArg List.length copies.numbers
    rw [PrintedNode.numbers, List.length_map, List.length_map] at hlen
    rw [hlen]
    exact listed.few entry hentry
  arity := by
    have hlen := congrArg List.length copies.numbers
    rw [PrintedNode.numbers, List.length_map, List.length_map] at hlen
    rw [copies.children, List.length_map, hlen]
    exact listed.arity entry hentry

/-- No two copies of a layer have one place. -/
theorem nodup_printedLayer (listed : Listed (InPart part) file)
    (bounded : ∀ entry ∈ file.entries, entry.node ≤ 44739242) (config : Backend.Config)
    (depth : BitVec 32) (group : Fin 2) :
    ((printedLayer schema config part depth (fileLayer file group)).map place).Nodup := by
  have hnodes := List.pairwise_map.mp (nodup_fileLayer listed group)
  rw [List.Nodup, List.pairwise_map, printedLayer, List.pairwise_filterMap]
  refine hnodes.imp_of_mem fun {first second} hfirst hsecond hne node hnode other hother heq => ?_
  have hcopy : ∀ {entry node}, entry ∈ fileLayer file group →
      printedNode schema config part depth entry = some node →
      node.address.getD 0 = nodeIdx config part entry.node := by
    intro entry node hentry hprinted
    have copies := copies_of_printedNode
      (listed.ne_root entry (mem_entries_of_fileLayer hentry)) hprinted
    rw [copies.address, Option.getD_some]
  have haddr := congrArg Prod.snd heq
  rw [place, place, hcopy hfirst hnode, hcopy hsecond hother] at haddr
  exact hne (nodeIdx_inj config part (bounded _ (mem_entries_of_fileLayer hfirst))
    (bounded _ (mem_entries_of_fileLayer hsecond)) haddr).2

theorem nodup_listed (listed : Listed (InPart part) file)
    (bounded : ∀ entry ∈ file.entries, entry.node ≤ 44739242) {config : Backend.Config}
    {server : ServerFile} (hfile : layerFile schema config part file = some server) :
    (server.listed.map place).Nodup := by
  rw [listed_layerFile hfile, List.map_append, List.nodup_append]
  refine ⟨nodup_printedLayer listed bounded config 1 0,
    nodup_printedLayer listed bounded config 2 1, ?_⟩
  intro _ hone _ htwo heq
  obtain ⟨node, hnode, rfl⟩ := List.mem_map.mp hone
  obtain ⟨other, hother, rfl⟩ := List.mem_map.mp htwo
  have hgroup : node.group = other.group := congrArg Prod.fst heq
  rw [PrintedNode.group, PrintedNode.group, depth_of_mem_printedLayer schema config part hnode,
    depth_of_mem_printedLayer schema config part hother] at hgroup
  exact absurd hgroup (by decide)

end Server

variable {low : Fin 4 → Snapshot (Fin (2 ^ 64))}

/-- The script runs when every server has opened its file. -/
theorem opened_iff (part : Fin 4) :
    (∃ server, layerFile schema (config part) part (low part) = some server) ↔
      (low part).layers ≠ [] := by
  rw [layerFile]
  cases (low part).layers with
  | nil => simp
  | cons first rest => simp

theorem configSram_files (files : Fin 4 → ServerFile)
    (hfiles : ∀ part, layerFile schema (config part) part (low part) = some (files part)) :
    configSram schema config low =
      NodeInfo.configTables (files 0) (files 1) (files 2) (files 3) := by
  simp only [configSram, hfiles, Option.bind_eq_bind, Option.bind_some]

theorem opened_of_configSram {tables : Sram.Tables}
    (ran : configSram schema config low = some tables) (part : Fin 4) : (low part).layers ≠ [] := by
  simp only [configSram, Option.bind_eq_bind, Option.bind_eq_some_iff] at ran
  obtain ⟨file1, h1, file2, h2, file3, h3, file4, h4, -⟩ := ran
  have hopened : ∃ server, layerFile schema (config part) part (low part) = some server := by
    fin_cases part
    · exact ⟨file1, h1⟩
    · exact ⟨file2, h2⟩
    · exact ⟨file3, h3⟩
    · exact ⟨file4, h4⟩
  exact (opened_iff config part).mp hopened

theorem flatMap_files (files : Fin 4 → ServerFile) :
    [files 0, files 1, files 2, files 3].flatMap ServerFile.listed =
      (List.finRange 4).flatMap fun part => (files part).listed := rfl

/-- The calls have put copies of the files into the second switch. -/
def CallsFrom (config : Fin 4 → Backend.Config) (low : Fin 4 → Snapshot (Fin (2 ^ 64)))
    (calls : List (Fin 2 × TreeNode)) : Prop :=
  ∀ call ∈ calls, ∃ part, ∃ entry ∈ (low part).entries, ∃ node : PrintedNode, ∃ h : node.Fits,
    Copies (config part) part entry node ∧ call.2 = node.tree h

/-- The tables after the script hold copies of the files. -/
theorem configSram_eq (listed : ∀ part, Listed (InPart part) (low part))
    (bounded : ∀ part, ∀ entry ∈ (low part).entries, entry.node ≤ 44739242)
    (opened : ∀ part, (low part).layers ≠ []) :
    ∃ tables calls, configSram schema config low = some tables ∧ Installed calls tables ∧
      CallsFrom config low calls := by
  choose files hfiles using fun part => (opened_iff config part).mpr (opened part)
  have hmem : ∀ node ∈ [files 0, files 1, files 2, files 3].flatMap ServerFile.listed,
      ∃ part, node ∈ (files part).listed := by
    intro node hnode
    rw [flatMap_files] at hnode
    obtain ⟨part, -, hlisted⟩ := List.mem_flatMap.mp hnode
    exact ⟨part, hlisted⟩
  have hcopies : ∀ {part node}, node ∈ (files part).listed →
      ∃ entry ∈ (low part).entries, Copies (config part) part entry node :=
    fun {part node} hnode => copies_of_listed (listed part) (hfiles part) hnode
  have hfits : ∀ node ∈ [files 0, files 1, files 2, files 3].flatMap ServerFile.listed,
      node.Fits := by
    intro node hnode
    obtain ⟨part, hlisted⟩ := hmem node hnode
    obtain ⟨entry, hentry, copies⟩ := hcopies hlisted
    exact copies.fits (listed part) hentry
  have hdistinct : (([files 0, files 1, files 2, files 3].flatMap ServerFile.listed).map
      place).Nodup := by
    rw [flatMap_files, List.map_flatMap, List.nodup_flatMap]
    refine ⟨fun part _ => nodup_listed (listed part) (bounded part) (hfiles part), ?_⟩
    refine (List.nodup_finRange 4).imp fun {part other} hne => ?_
    intro key hkey hother
    obtain ⟨node, hnode, rfl⟩ := List.mem_map.mp hkey
    obtain ⟨node', hnode', heq⟩ := List.mem_map.mp hother
    obtain ⟨entry, hentry, copies⟩ := hcopies hnode
    obtain ⟨entry', hentry', copies'⟩ := hcopies hnode'
    have haddr := congrArg Prod.snd heq
    rw [place, place, copies.address, copies'.address, Option.getD_some, Option.getD_some] at haddr
    exact hne (nodeIdx_inj _ _ (bounded _ entry' hentry') (bounded _ entry hentry) haddr).1.symm
  obtain ⟨tables, calls, hrun, installed, hcalls⟩ := NodeInfo.configTables_eq hfits hdistinct
  refine ⟨tables, calls, (configSram_files config files hfiles).trans hrun, installed,
    fun call hcall => ?_⟩
  obtain ⟨node, hnode, h, rfl⟩ := hcalls call hcall
  obtain ⟨part, hlisted⟩ := hmem node hnode
  obtain ⟨entry, hentry, copies⟩ := hcopies hlisted
  exact ⟨part, entry, hentry, node, h, copies, rfl⟩

end Low

/-! ## The index of a read -/

/-- An index that the switches give to a read: none, or the address of a node that a walk
through the files leads to. -/
inductive Reached (config : Backend.Config) (part : Fin 4)
    (files : List (Snapshot (Fin (2 ^ 64)))) (x : Fin (2 ^ 64)) : BitVec 48 → Prop where
  | unset : Reached config part files x 0
  | walked {n : Nat} (walks : Walks files x n) : Reached config part files x (nodeIdx config part n)

section Steps

variable {config : Fin 4 → Backend.Config} {low : Fin 4 → Snapshot (Fin (2 ^ 64))}
  {part : Fin 4} {files : List (Snapshot (Fin (2 ^ 64)))} {key : BitVec 64}
  {calls : List (Fin 2 × TreeNode)}

/-- A copy selects the child that the entry selects. -/
theorem Copies.child {server : Backend.Config} {entry : Entry (Fin (2 ^ 64))} {node : PrintedNode}
    (copies : Copies server part entry node) (fits : node.Fits) (key : BitVec 64) :
    ∃ c, entry.childFor key.toFin = some c ∧ (node.tree fits).child key = nodeIdx server part c := by
  have hcount : (node.tree fits).keys.countP (fun k => decide (k < key)) =
      countBelow entry.keys key.toFin := by
    have hkeys : (node.tree fits).keys = entry.keys.map BitVec.ofFin := copies.numbers
    rw [hkeys, countBelow, List.countP_map]
    rfl
  have hchildren : (node.tree fits).children = entry.children.map (nodeIdx server part) :=
    copies.children
  have hchild : (node.tree fits).children[countBelow entry.keys key.toFin]? =
      some ((node.tree fits).child key) := by
    rw [← hcount]
    exact List.getElem?_eq_getElem ((node.tree fits).countP_lt_children key)
  rw [hchildren, List.getElem?_map, Option.map_eq_some_iff] at hchild
  obtain ⟨c, hc, heq⟩ := hchild
  exact ⟨c, hc, heq.symm⟩

/-- A step through the tables leads an index to an index. -/
theorem Reached.step (hcalls : CallsFrom config low calls)
    (bounded : ∀ part, ∀ entry ∈ (low part).entries, entry.node ≤ 44739242)
    (below : ∀ part, ∀ entry ∈ (low part).entries, entry.node ≠ Tree.root)
    (hlow : low part ∈ files) (near : ∀ n, Walks files key.toFin n → n ≤ 44739242)
    {idx : BitVec 48} (reached : Reached (config part) part files key.toFin idx) (layer : Fin 2) :
    Reached (config part) part files key.toFin (Sram.step (nodesAt layer calls) key idx) := by
  rw [Sram.step]
  cases hfind : (nodesAt layer calls).find? (fun node => node.addr = idx) with
  | none => exact reached
  | some tree =>
      have haddr : tree.addr = idx := by simpa using List.find?_some hfind
      obtain ⟨call, hcall, rfl⟩ := List.mem_map.mp (List.mem_of_find?_eq_some hfind)
      obtain ⟨server, entry, hentry, node, fits, copies, htree⟩ :=
        hcalls call (List.mem_of_mem_filter hcall)
      have hidx : idx = nodeIdx (config server) server entry.node := by
        rw [← haddr, htree, PrintedNode.tree, copies.address, Option.getD_some]
      dsimp only
      split
      · rw [htree]
        cases reached with
        | unset =>
            exact absurd hidx.symm (nodeIdx_ne_zero _ _ (bounded server entry hentry)
              (below server entry hentry))
        | walked walks =>
            obtain ⟨rfl, rfl⟩ := nodeIdx_inj _ _ (near _ walks) (bounded server entry hentry) hidx
            obtain ⟨c, hchild, heq⟩ := copies.child fits key
            rw [heq]
            exact .walked (.entry walks hlow hentry hchild)
      · exact reached

end Steps

/-! ## Packets -/

section Packets

variable {φ ψ : Type} {fbtH : Codec φ} {sentH : Codec ψ} {fbt : φ} {sent : ψ}
  {ethernet : EthernetH} {ipv4 : Ipv4H} {udp : UdpH} {pid : BitVec 8} {payload : Bits}

/-- The header of a query in the first switch. -/
def quarters (key : BitVec 64) (idx : BitVec 48) : QuarterHeader :=
  ⟨key.extractLsb' 48 16, key.extractLsb' 32 16, key.extractLsb' 16 16, key.extractLsb' 0 16, idx⟩

theorem quarters_emit (key : BitVec 64) (idx : BitVec 48) :
    quartersH.emit (quarters key idx) = wordBits key ++ wordBits idx := by
  rw [quartersH_emit, quarters, append_quarters]

/-- A query leaves the switches with the index that their tables have put into it. -/
theorem forward_query (config : TcamConfig) (tables : Sram.Tables) (found : Tcam.Meta)
    (scratch : Fin 4 → MetaVar) {key : BitVec 64} {idx : BitVec 48}
    (hidx : config.apply found (quarters key 0) = quarters key idx) (ethernet : EthernetH)
    (ipv4 : Ipv4H) (udp : UdpH) (pid : BitVec 8) (body : List Byte) :
    ∃ out, forward config tables found scratch
        (udpPacket ethernet ipv4 udp (headerBytes pid key ++ body)) = some out ∧
      Backend.receivedMsg out = setFbtIdx (headerBytes pid key ++ body)
        (Sram.ingressApply tables (parseFbt ⟨keyHi key, keyLo key, idx⟩ scratch)).hdr.fbtIdx := by
  have hhalves : ∀ idx, halvesH.emit ⟨keyHi key, keyLo key, idx⟩ = wordBits key ++ wordBits idx := by
    intro idx
    rw [halvesH_emit, append_keyHalves]
  have hfirst : tcamIngress config found
      (udpPacket ethernet ipv4 udp (headerBytes pid key ++ body)) =
      some (ingressDeparser quartersH (queryHeaders ethernet ipv4 udp pid (quarters key idx))
        (bytesBits body)) := by
    rw [tcamIngress, ingressParser_query (quarters_emit key 0), ← hidx]
    rfl
  obtain ⟨hhi, hlo⟩ := ingressApply_hdr tables (parseFbt ⟨keyHi key, keyLo key, idx⟩ scratch)
  have hsecond : sramIngress tables scratch
      (ingressDeparser quartersH (queryHeaders ethernet ipv4 udp pid (quarters key idx))
        (bytesBits body)) =
      some (ingressDeparser halvesH (queryHeaders ethernet ipv4 udp pid
        (Sram.ingressApply tables (parseFbt ⟨keyHi key, keyLo key, idx⟩ scratch)).hdr)
        (bytesBits body)) := by
    rw [sramIngress, ingressParser_deparsed ((quarters_emit key idx).trans (hhalves idx).symm)]
    rfl
  refine ⟨_, forward_some hfirst hsecond, receivedMsg_query ?_⟩
  have hkey : (parseFbt ⟨keyHi key, keyLo key, idx⟩ scratch).hdr.keyHi ++
      (parseFbt ⟨keyHi key, keyLo key, idx⟩ scratch).hdr.keyLo = key := append_keyHalves key
  rw [halvesH_emit, hhi, hlo, hkey]

section Other

variable {msgType : BitVec 32} (other : msgType ≠ 0x0527) (rest : List Byte)

include other

theorem ingressParser_other {φ : Type} (fbtH : Codec φ) :
    ingressParser fbtH (udpPacket ethernet ipv4 udp (unsignedBytes (htonl msgType) ++ [pid] ++ rest)) =
      some (⟨{ ethernet with etherType := etherTypeIpv4 }, some { ipv4 with protocol := ipProtoUdp },
        some udp, some ⟨msgType, pid⟩, none⟩, bytesBits rest) := by
  have hudp : ipProtoUdp = 17 := rfl
  have hbits : bytesBits (unsignedBytes (htonl msgType) ++ [pid] ++ rest) =
      msgH.emit ⟨msgType, pid⟩ ++ bytesBits rest := by
    have hmsg : msgH.emit ⟨msgType, pid⟩ = wordBits msgType ++ wordBits pid := rfl
    have hpid : bytesBits [pid] = wordBits pid := List.append_nil _
    rw [bytesBits_append, bytesBits_append, bytesBits_htonl, hpid, hmsg]
  rw [udpPacket, hbits]
  simp [ingressParser, Codec.extract_emit, hudp]
  exact fun hquery => absurd hquery other

theorem tcamIngress_other (config : TcamConfig) (found : Tcam.Meta) :
    tcamIngress config found
        (udpPacket ethernet ipv4 udp (unsignedBytes (htonl msgType) ++ [pid] ++ rest)) =
      some (udpPacket ethernet ipv4 udp (unsignedBytes (htonl msgType) ++ [pid] ++ rest)) := by
  rw [tcamIngress, ingressParser_other other]
  exact congrArg some (ingressDeparser_of_parsed (ingressParser_other other rest quartersH))

theorem sramIngress_other (tables : Sram.Tables) (scratch : Fin 4 → MetaVar) :
    sramIngress tables scratch
        (udpPacket ethernet ipv4 udp (unsignedBytes (htonl msgType) ++ [pid] ++ rest)) =
      some (udpPacket ethernet ipv4 udp (unsignedBytes (htonl msgType) ++ [pid] ++ rest)) := by
  rw [sramIngress, ingressParser_other other]
  exact congrArg some (ingressDeparser_of_parsed (ingressParser_other other rest halvesH))

/-- A message of another type passes the switches as it was, and on the way back too. -/
theorem forward_other (config : TcamConfig) (tables : Sram.Tables) (found : Tcam.Meta)
    (scratch : Fin 4 → MetaVar) :
    forward config tables found scratch
        (udpPacket ethernet ipv4 udp (unsignedBytes (htonl msgType) ++ [pid] ++ rest)) =
      some (udpPacket ethernet ipv4 udp (unsignedBytes (htonl msgType) ++ [pid] ++ rest)) :=
  forward_some (tcamIngress_other other rest config found)
    (sramIngress_other other rest tables scratch)

theorem backward_other (config : TcamConfig) (tables : Sram.Tables) (found : Tcam.Meta)
    (scratch : Fin 4 → MetaVar) :
    backward config tables found scratch
        (udpPacket ethernet ipv4 udp (unsignedBytes (htonl msgType) ++ [pid] ++ rest)) =
      some (udpPacket ethernet ipv4 udp (unsignedBytes (htonl msgType) ++ [pid] ++ rest)) :=
  backward_some (sramIngress_other other rest tables scratch)
    (tcamIngress_other other rest config found)

end Other

end Packets

end FatBTree.Ethernet
