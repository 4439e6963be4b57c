import FatBTree.Ethernet.Load
import FatBTree.Ethernet.Update
import FatBTree.Rdma.Load

/-!
# Index safety of `load2switch_greedy`

Both loaders again, with every use of `node_vec[0]` and of a layer of
`cached_nodes` checked against the size of the vector.  The unsigned bounds of
the loops over the layers wrap on trees that are too shallow, and the loops
leave `cached_nodes` there and only there.
-/

namespace FatBTree.Switch

open FatBTree.Order FatBTree.Tree

/-! ## The frontier loop -/

section Frontier

variable {κ V : Type} [LinearOrder κ] [OrderBot κ] [Inhabited V]

/-- The values of `node_map` at the tests of the `while` loop. -/
def frontierMaps (M : Nat) (σ : State κ V) (ties : Ties) (rootLoadNum depthLimit : Nat) :
    Nat → List (Nat × κ) → List Nat → List (List (Nat × κ))
  | 0, _, _ => []
  | fuel + 1, nodeMap, nodePq =>
      nodeMap ::
        if nodeMap.length + M ≤ rootLoadNum then
          match sortByAccess σ (ties.pop fuel) nodePq with
          | [] => []
          | tmp :: rest =>
              match childEntries (σ.pool tmp) ((nodeMap.lookup tmp).getD ⊥) with
              | none => []
              | some entries =>
                  frontierMaps M σ ties rootLoadNum depthLimit fuel
                    (erase (entries.foldl assign nodeMap) tmp)
                    (rest ++ pushed σ depthLimit tmp)
        else []

/-- No iteration loses the range of the node it pops. -/
theorem frontierMaps_partition {M : Nat} {w : World κ V} {history : List (κ × V)}
    (sound : Sound M w history) (ties : Ties) (rootLoadNum depthLimit fuel : Nat)
    {nodeMap : List (Nat × κ)} {popped nodePq : List Nat}
    (partition : Partition w depthLimit nodeMap)
    (queue : Queue w depthLimit nodeMap popped nodePq) :
    ∀ nodeMap' ∈ frontierMaps M w.state ties rootLoadNum depthLimit fuel nodeMap nodePq,
      Partition w depthLimit nodeMap' := by
  have shape := sound.shape
  induction fuel generalizing nodeMap popped nodePq with
  | zero => exact fun nodeMap' hmem => nomatch hmem
  | succ fuel ih =>
      intro nodeMap' hmem
      rw [frontierMaps] at hmem
      rcases List.mem_cons.mp hmem with rfl | hlater
      · exact partition
      · split at hlater
        · split at hlater
          · cases hlater
          · next tmp rest hsort =>
              have hperm : (tmp :: rest).Perm nodePq := by
                rw [← hsort]
                exact List.perm_insertionSort _ _
              have hpq : tmp ∈ nodePq := hperm.subset List.mem_cons_self
              obtain ⟨key, hkey⟩ := queue.member tmp hpq
              have hinner := queue.inner tmp hpq
              obtain ⟨entries, hentries⟩ := childEntries_inner shape hinner key
              simp only [lookup_of_mem partition.nodup hkey, Option.getD_some, hentries] at hlater
              exact ih (partition.expand sound hinner hkey (queue.shallow tmp hpq) hentries)
                (queue.step shape hperm hentries) nodeMap' hlater
        · cases hlater

end Frontier

/-! ## The layers -/

section Layers

variable {κ V : Type} (σ : State κ V) (ties : Ties) (loadNum : Nat)

/-- `push_back` of some nodes to `cached_nodes[i]`, then `sort` and `resize`. -/
def putLayer (cachedNodes : List (List Nat)) (i : Nat) (nodes : List Nat) :
    Option (List (List Nat)) := do
  let layer ← cachedNodes[i]?
  return cachedNodes.set i (capLayer σ ties loadNum i (layer ++ nodes))

/-- The given number of iterations of the loop that fills the layers, from
layer `i` on. -/
def fillLayers : Nat → Nat → List (List Nat) → Option (List (List Nat))
  | 0, _, cachedNodes => some cachedNodes
  | count + 1, i, cachedNodes => do
      let above ← cachedNodes[i - 1]?
      let cachedNodes ← putLayer σ ties loadNum cachedNodes i
        (above.flatMap fun p => (σ.pool p).child)
      fillLayers count (i + 1) cachedNodes

/-- The layers that are printed, from layer `i` on. -/
def readLayers (cachedNodes : List (List Nat)) : Nat → Nat → Option (List (List Nat))
  | 0, _ => some []
  | count + 1, i => do
      let layer ← cachedNodes[i]?
      let layers ← readLayers cachedNodes count (i + 1)
      return layer :: layers

variable {σ ties loadNum} {cachedNodes : List (List Nat)}

theorem putLayer_eq_none {i : Nat} (hout : cachedNodes.length ≤ i) (nodes : List Nat) :
    putLayer σ ties loadNum cachedNodes i nodes = none := by
  rw [putLayer, List.getElem?_eq_none hout]
  rfl

theorem putLayer_eq {i : Nat} (hempty : cachedNodes[i]? = some []) (nodes : List Nat) :
    putLayer σ ties loadNum cachedNodes i nodes
      = some (cachedNodes.set i (capLayer σ ties loadNum i nodes)) := by
  rw [putLayer, hempty]
  rfl

/-- Filling layers that are there leaves what `layersFrom` lists. -/
theorem fillLayers_eq (count : Nat) {i : Nat} {nodes : List Nat}
    (habove : cachedNodes[i]? = some nodes)
    (hempty : ∀ j, i < j → j ≤ i + count → cachedNodes[j]? = some []) :
    ∃ filled, fillLayers σ ties loadNum count (i + 1) cachedNodes = some filled ∧
      (∀ j ≤ i, filled[j]? = cachedNodes[j]?) ∧
      readLayers filled (count + 1) i = some (layersFrom σ ties loadNum i (count + 1) nodes) := by
  induction count generalizing i nodes cachedNodes with
  | zero =>
      refine ⟨cachedNodes, rfl, fun _ _ => rfl, ?_⟩
      rw [readLayers, habove]
      rfl
  | succ count ih =>
      let next := capLayer σ ties loadNum (i + 1) (nodes.flatMap fun p => (σ.pool p).child)
      have hnext := hempty (i + 1) (Nat.lt_succ_self i) (by omega)
      have hlt : i + 1 < cachedNodes.length := (List.getElem?_eq_some_iff.mp hnext).1
      have hother : ∀ j, j ≠ i + 1 → (cachedNodes.set (i + 1) next)[j]? = cachedNodes[j]? :=
        fun j hj => List.getElem?_set_ne hj.symm
      obtain ⟨filled, hfill, hkept, hread⟩ :=
        @ih (cachedNodes.set (i + 1) next) (i + 1) next (List.getElem?_set_self hlt) (by
          intro j hj hle
          rw [hother j (by omega)]
          exact hempty j (by omega) (by omega))
      refine ⟨filled, ?_, ?_, ?_⟩
      · rw [fillLayers, Nat.add_sub_cancel, habove]
        simp only [Option.bind_eq_bind, Option.bind_some, putLayer_eq hnext]
        exact hfill
      · intro j hj
        rw [hkept j (by omega), hother j (by omega)]
      · rw [readLayers, hkept i (by omega), hother i (by omega), habove, hread]
        rfl

variable (σ ties loadNum) in
/-- The same from a vector of empty layers with the first one filled. -/
theorem fillLayers_fresh {size i count : Nat} (hroom : i + count < size) (top : List Nat) :
    ∃ filled,
      fillLayers σ ties loadNum count (i + 1) ((List.replicate size []).set i top) = some filled ∧
      readLayers filled (count + 1) i = some (layersFrom σ ties loadNum i (count + 1) top) := by
  have hsize : i < (List.replicate size ([] : List Nat)).length := by
    rw [List.length_replicate]
    omega
  have habove : ((List.replicate size []).set i top)[i]? = some top := List.getElem?_set_self hsize
  have hempty : ∀ j, i < j → j ≤ i + count →
      ((List.replicate size []).set i top)[j]? = some [] := by
    intro j hj hle
    rw [List.getElem?_set_ne (Nat.ne_of_lt hj), List.getElem?_replicate, if_pos (by omega)]
  obtain ⟨filled, hfill, -, hread⟩ :=
    @fillLayers_eq _ _ σ ties loadNum _ count i top habove hempty
  exact ⟨filled, hfill, hread⟩

/-- The loop leaves a vector that is too short at the first layer beyond it. -/
theorem fillLayers_eq_none {count i : Nat} (hcount : 0 < count) (hend : cachedNodes.length = i) :
    fillLayers σ ties loadNum count i cachedNodes = none := by
  obtain ⟨count, rfl⟩ : ∃ rest, count = rest + 1 := ⟨count - 1, by omega⟩
  rw [fillLayers]
  cases cachedNodes[i - 1]? with
  | none => rfl
  | some above =>
      simp only [Option.bind_eq_bind, Option.bind_some, putLayer_eq_none (Nat.le_of_eq hend),
        Option.bind_none]

end Layers

end FatBTree.Switch

namespace FatBTree.Ethernet

open FatBTree.Tree FatBTree.Switch

variable {κ : Type} [LinearOrder κ] [OrderBot κ]

/-- `load2switch_greedy`, checked. -/
def checkedLoad (M : Nat) (σ : State κ FieldTable) (args : LoadArgs) : Option (Snapshot κ) := do
  let cachedNodes := List.replicate (max σ.depth (args.compressDepth + 1)) []
  let nodeVec ← frontier M σ args.ties args.rootLoadNum args.compressDepth
  let _ ← nodeVec[0]?
  let cachedNodes ← putLayer σ args.ties args.maxLoadNum cachedNodes args.compressDepth
    (nodeVec.map Prod.fst)
  -- `depth - 2` as an `unsigned`
  let last := if 2 ≤ σ.depth then σ.depth - 2 else σ.depth + 2 ^ 32 - 2
  let cachedNodes ← fillLayers σ args.ties args.maxLoadNum (last - args.compressDepth)
    (args.compressDepth + 1) cachedNodes
  let layers ← readLayers cachedNodes (last + 1 - args.compressDepth) args.compressDepth
  return printed σ nodeVec layers

/-- On a tree of one level the loop over the layers starts right behind the last one. -/
theorem checkedLoad_shallow {M : Nat} {σ : State κ FieldTable} {args : LoadArgs}
    (hdepth : σ.depth < 2) (hcompress : args.compressDepth = 2) : checkedLoad M σ args = none := by
  have hsize : max σ.depth (args.compressDepth + 1) = 3 := by omega
  rw [checkedLoad, hsize, hcompress, if_neg (Nat.not_le_of_lt hdepth)]
  cases frontier M σ args.ties args.rootLoadNum 2 with
  | none => rfl
  | some nodeVec =>
      simp only [Option.bind_eq_bind, Option.bind_some]
      cases nodeVec[0]? with
      | none => rfl
      | some first =>
          rw [Option.bind_some, putLayer_eq (by simp), Option.bind_some,
            fillLayers_eq_none (by omega) (by simp), Option.bind_none]

/-- Where the checked load gets through, it prints what the load prints. -/
theorem checkedLoad_eq {M : Nat} {w : World κ FieldTable} {history : List (κ × FieldTable)}
    (sound : Sound M w history) {args : LoadArgs} (hdepth : 2 ≤ w.state.depth)
    (hcompress : args.compressDepth = 2) :
    ∃ snapshot, (load2switchGreedy M w.state args).map Prod.fst = some snapshot ∧
      checkedLoad M w.state args = some snapshot := by
  obtain ⟨nodeVec, hfrontier, hpartition, -⟩ :=
    frontier_eq sound args.ties args.rootLoadNum (sound.inner_root hdepth)
      (show 0 < args.compressDepth by omega)
  obtain ⟨first, hfirst⟩ : ∃ first, nodeVec[0]? = some first := by
    obtain ⟨p, hp, -⟩ := hpartition.cover ⊥
    exact ⟨_, List.getElem?_eq_getElem (List.length_pos_of_mem hp)⟩
  have hdeep : ¬ (w.state.depth < 2 ∨ 2 ^ 32 ≤ args.compressDepth + 1) := by omega
  let top := capLayer w.state args.ties args.maxLoadNum 2 (nodeVec.map Prod.fst)
  have hlayers : ∃ filled,
      fillLayers w.state args.ties args.maxLoadNum (w.state.depth - 2 - 2) (2 + 1)
        ((List.replicate (max w.state.depth (2 + 1)) []).set 2 top) = some filled ∧
      readLayers filled (w.state.depth - 2 + 1 - 2) 2
        = some (layersOf w.state args nodeVec) := by
    rw [layersOf, hcompress]
    rcases Nat.lt_or_ge w.state.depth 4 with hfew | hmany
    · -- no layer below the frontier is printed
      have hnone : w.state.depth - 2 - 2 = 0 := by omega
      have hnone' : w.state.depth - 2 + 1 - 2 = 0 := by omega
      have hnone'' : w.state.depth - 1 - 2 = 0 := by omega
      rw [hnone, hnone', hnone'']
      exact ⟨_, rfl, rfl⟩
    · have hcount : w.state.depth - 2 + 1 - 2 = w.state.depth - 2 - 2 + 1 := by omega
      have hcount' : w.state.depth - 1 - 2 = w.state.depth - 2 - 2 + 1 := by omega
      rw [hcount, hcount']
      have hroom : 2 + (w.state.depth - 2 - 2) < max w.state.depth (2 + 1) := by omega
      exact fillLayers_fresh w.state args.ties args.maxLoadNum hroom top
  obtain ⟨filled, hfill, hread⟩ := hlayers
  refine ⟨printed w.state nodeVec (layersOf w.state args nodeVec), ?_, ?_⟩
  · rw [load2switchGreedy, if_neg hdeep, hfrontier]
    rfl
  · rw [checkedLoad, hfrontier, if_pos hdepth, hcompress]
    simp only [Option.bind_eq_bind, Option.bind_some, hfirst]
    rw [putLayer_eq (by simp), Option.bind_some, hfill, Option.bind_some, hread]
    rfl

end FatBTree.Ethernet

namespace FatBTree.Rdma

open FatBTree.Tree FatBTree.Switch

variable {κ V : Type} [LinearOrder κ] [OrderBot κ] [Inhabited V]

/-- `load2switch_greedy`, checked. -/
def checkedLoad (M : Nat) (σ : State κ V) (args : LoadArgs) : Option (Snapshot κ) := do
  let cachedNodes := List.replicate σ.depth []
  let nodeVec ← frontier M σ args.ties args.rootLoadNum args.rootLoadDepth
  let _ ← nodeVec[0]?
  let cachedNodes ← putLayer σ args.ties args.regularLoadNum cachedNodes 1 (nodeVec.map Prod.fst)
  let cachedNodes ← fillLayers σ args.ties args.regularLoadNum (lastLayer σ args - 1) 2 cachedNodes
  let layers ← readLayers cachedNodes (max 1 (lastLayer σ args)) 1
  return printed σ nodeVec layers

omit [Inhabited V] in
/-- On a tree of one level there is no layer 1, on a tree of two levels no layer 2. -/
theorem checkedLoad_shallow {M : Nat} {σ : State κ V} {args : LoadArgs} (hdepth : σ.depth < 3)
    (hroot : args.rootLoadDepth = 3) (hregular : args.regularLoadDepth = 2 ^ 32 - 1) :
    checkedLoad M σ args = none := by
  have hlast : lastLayer σ args = σ.depth + 2 ^ 32 - 3 := by
    rw [lastLayer, hroot, hregular, Nat.mod_eq_of_lt (by omega)]
    omega
  rw [checkedLoad, hlast]
  cases frontier M σ args.ties args.rootLoadNum args.rootLoadDepth with
  | none => rfl
  | some nodeVec =>
      simp only [Option.bind_eq_bind, Option.bind_some]
      cases nodeVec[0]? with
      | none => rfl
      | some first =>
          rw [Option.bind_some]
          rcases Nat.lt_or_ge σ.depth 2 with hone | htwo
          · rw [putLayer_eq_none (by simpa using Nat.le_of_lt_succ hone), Option.bind_none]
          · rw [putLayer_eq (by rw [List.getElem?_replicate, if_pos (by omega)]), Option.bind_some,
              fillLayers_eq_none (by omega) (by rw [List.length_set, List.length_replicate]; omega),
              Option.bind_none]

/-- Where the checked load gets through, it prints what the load prints. -/
theorem checkedLoad_eq {M : Nat} {w : World κ V} {history : List (κ × V)}
    (sound : Sound M w history) {args : LoadArgs} (hdepth : 3 ≤ w.state.depth)
    (hroot : args.rootLoadDepth = 3) :
    ∃ snapshot, (load2switchGreedy M w.state args).map Prod.fst = some snapshot ∧
      checkedLoad M w.state args = some snapshot := by
  obtain ⟨nodeVec, hfrontier, hpartition, -⟩ :=
    frontier_eq sound args.ties args.rootLoadNum (sound.inner_root (by omega))
      (show 0 < args.rootLoadDepth by omega)
  obtain ⟨first, hfirst⟩ : ∃ first, nodeVec[0]? = some first := by
    obtain ⟨p, hp, -⟩ := hpartition.cover ⊥
    exact ⟨_, List.getElem?_eq_getElem (List.length_pos_of_mem hp)⟩
  have hlast := lastLayer_le (hroot.trans_le hdepth)
  have hfits : ¬ (w.state.depth < 2 ∨ w.state.depth ≤ lastLayer w.state args) := by omega
  have hempty : (List.replicate w.state.depth ([] : List Nat))[1]? = some [] := by
    rw [List.getElem?_replicate, if_pos (by omega)]
  obtain ⟨filled, hfill, hread⟩ := fillLayers_fresh w.state args.ties args.regularLoadNum
    (show 1 + (lastLayer w.state args - 1) < w.state.depth by omega)
    (capLayer w.state args.ties args.regularLoadNum 1 (nodeVec.map Prod.fst))
  have hcount : max 1 (lastLayer w.state args) = lastLayer w.state args - 1 + 1 := by omega
  refine ⟨printed w.state nodeVec (layersOf w.state args nodeVec), ?_, ?_⟩
  · rw [load2switchGreedy, if_neg hfits, hfrontier]
    rfl
  · rw [checkedLoad, hfrontier]
    simp only [Option.bind_eq_bind, Option.bind_some, hfirst]
    rw [putLayer_eq hempty, Option.bind_some, hfill, Option.bind_some, hcount, hread, layersOf,
      hcount]
    rfl

end FatBTree.Rdma

namespace FatBTree.Switch

open FatBTree.Tree

variable {κ V : Type} [LinearOrder κ] [OrderBot κ] [Inhabited V]

/-- The path of every key runs through a node of `node_map`. -/
def Covers (σ : State κ V) (nodeMap : List (Nat × κ)) : Prop :=
  ∀ k, ∃ p ∈ nodeMap, OnPath σ k p.1

/-- Under an inner root `node_map` always covers all keys, so it is never empty. -/
theorem frontierMaps_covers {M : Nat} {w : World κ V} {history : List (κ × V)}
    (sound : Sound M w history) (ties : Ties) (rootLoadNum depthLimit fuel : Nat)
    (hinner : (w.state.pool root).IsInner) (hlimit : 0 < depthLimit) :
    ∀ nodeMap ∈ frontierMaps M w.state ties rootLoadNum depthLimit fuel [(root, ⊥)] [root],
      Covers w.state nodeMap := by
  intro nodeMap hmem k
  have hpartition := frontierMaps_partition sound ties rootLoadNum depthLimit fuel
    (partition_root sound depthLimit) (queue_root sound.shape hinner hlimit) nodeMap hmem
  obtain ⟨p, hp, holds⟩ := hpartition.cover k
  exact ⟨p, hp, w.dist p.1, sound.ordered.pathTo_of_holds sound.shape (hpartition.lt p hp)
    (hpartition.isValue p hp) holds⟩

/-- `node_map` covers the keys throughout and all indices are in range exactly
on trees of at least two levels in the Ethernet backend, and of at least three
in the RDMA backend. -/
theorem load_indices_safe_iff :
    (∀ (requests : List (Ethernet.Request κ)) σ, Ethernet.serve requests State.empty = some σ →
      ∀ args : Ethernet.LoadArgs, args.compressDepth = 2 →
        (((∀ nodeMap ∈ frontierMaps 16 σ args.ties args.rootLoadNum args.compressDepth
            (σ.nbNode + 1) [(root, ⊥)] [root], Covers σ nodeMap) ∧
          (Ethernet.checkedLoad 16 σ args).isSome = true) ↔ 2 ≤ σ.depth)) ∧
    (∀ (calls : List (Call κ V)) σ, Reaches 16 Rdma.rdma calls σ →
      ∀ args : Rdma.LoadArgs, args.rootLoadDepth = 3 → args.regularLoadDepth = 2 ^ 32 - 1 →
        (((∀ nodeMap ∈ frontierMaps 16 σ args.ties args.rootLoadNum args.rootLoadDepth
            (σ.nbNode + 1) [(root, ⊥)] [root], Covers σ nodeMap) ∧
          (Rdma.checkedLoad 16 σ args).isSome = true) ↔ 3 ≤ σ.depth)) := by
  constructor
  · intro requests σ hrun args hcompress
    obtain ⟨dist, b, history, settled, -⟩ := Ethernet.settled_of_serve requests hrun
    have sound := settled.toSound
    constructor
    · rintro ⟨-, hindexed⟩
      by_contra hshallow
      rw [Ethernet.checkedLoad_shallow (Nat.lt_of_not_le hshallow) hcompress] at hindexed
      cases hindexed
    · intro hdepth
      obtain ⟨snapshot, -, hchecked⟩ := Ethernet.checkedLoad_eq sound hdepth hcompress
      refine ⟨frontierMaps_covers sound args.ties args.rootLoadNum args.compressDepth _
        (sound.inner_root hdepth) (by omega), ?_⟩
      exact Option.isSome_iff_exists.mpr ⟨snapshot, hchecked⟩
  · intro calls σ hrun args hroot hregular
    obtain ⟨w, hreach, settled⟩ := settled_of_run Rdma.rdma (M := 16) calls
    obtain rfl : w.state = σ := Option.some.inj (hreach.symm.trans hrun)
    have sound := settled.toSound
    constructor
    · rintro ⟨-, hindexed⟩
      by_contra hshallow
      rw [Rdma.checkedLoad_shallow (Nat.lt_of_not_le hshallow) hroot hregular] at hindexed
      cases hindexed
    · intro hdepth
      obtain ⟨snapshot, -, hchecked⟩ := Rdma.checkedLoad_eq sound hdepth hroot
      refine ⟨frontierMaps_covers sound args.ties args.rootLoadNum args.rootLoadDepth _
        (sound.inner_root (by omega)) (by omega), ?_⟩
      exact Option.isSome_iff_exists.mpr ⟨snapshot, hchecked⟩

/-- A tree of two levels in the Ethernet backend, and of one level in the RDMA backend. -/
theorem load_indices_safe_iff_two_levels :
    (∃ σ, Ethernet.serve ((List.range 16).map fun i => .call (.insert i [])) State.empty = some σ ∧
      (Ethernet.checkedLoad (κ := Nat) 16 σ ⟨150, 800, 2, ⟨fun _ n => n, fun _ n => n⟩⟩).isSome
        = true) ∧
    ∃ σ, Reaches 16 Rdma.rdma [.insert 7 ()] σ ∧
      ¬ ((∀ nodeMap ∈ frontierMaps (κ := Nat) 16 σ ⟨fun _ n => n, fun _ n => n⟩ 600 3
          (σ.nbNode + 1) [(root, ⊥)] [root], Covers σ nodeMap) ∧
        (Rdma.checkedLoad 16 σ ⟨600, 3, 3600, 2 ^ 32 - 1, ⟨fun _ n => n, fun _ n => n⟩⟩).isSome
          = true) := by
  constructor
  · have hrun : (Ethernet.serve ((List.range 16).map fun i => .call (.insert i []))
        (State.empty : State Nat Ethernet.FieldTable)).map State.depth = some 2 := by
      decide +kernel
    obtain ⟨σ, hσ, hdepth⟩ := Option.map_eq_some_iff.mp hrun
    exact ⟨σ, hσ, ((load_indices_safe_iff (V := Unit)).1 _ σ hσ _ rfl |>.mpr hdepth.ge).2⟩
  · have hrun : (run 16 Rdma.rdma [.insert 7 ()] (State.empty : State Nat Unit)).map State.depth
        = some 1 := by
      decide +kernel
    obtain ⟨σ, hσ, hdepth⟩ := Option.map_eq_some_iff.mp hrun
    refine ⟨σ, hσ, fun hsafe => ?_⟩
    have hthree := (load_indices_safe_iff.2 _ σ hσ
      ⟨600, 3, 3600, 2 ^ 32 - 1, ⟨fun _ n => n, fun _ n => n⟩⟩ rfl rfl).mp hsafe
    omega

/-- With a single key the Ethernet loader empties `node_map`, and with sixteen
keys the RDMA loader leaves `cached_nodes`. -/
theorem load_indices_unsafe :
    (∃ σ, Ethernet.serve [.call (.insert 7 [])] State.empty = some σ ∧
      frontier (κ := Nat) 16 σ ⟨fun _ n => n, fun _ n => n⟩ 150 2 = some [] ∧
      Ethernet.checkedLoad 16 σ ⟨150, 800, 2, ⟨fun _ n => n, fun _ n => n⟩⟩ = none) ∧
    ∃ σ, Reaches 16 Rdma.rdma ((List.range 16).map fun i => .insert i ()) σ ∧
      Rdma.checkedLoad (κ := Nat) 16 σ
        ⟨600, 3, 3600, 2 ^ 32 - 1, ⟨fun _ n => n, fun _ n => n⟩⟩ = none := by
  constructor
  · have hrun : ((Ethernet.serve [.call (.insert 7 [])]
        (State.empty : State Nat Ethernet.FieldTable)).map fun σ =>
          (frontier 16 σ ⟨fun _ n => n, fun _ n => n⟩ 150 2, σ.depth)) = some (some [], 1) := by
      decide +kernel
    obtain ⟨σ, hσ, hboth⟩ := Option.map_eq_some_iff.mp hrun
    obtain ⟨hfrontier, hdepth⟩ := Prod.mk.inj hboth
    exact ⟨σ, hσ, hfrontier, Ethernet.checkedLoad_shallow (by omega) rfl⟩
  · have hrun : (run 16 Rdma.rdma ((List.range 16).map fun i => .insert i ())
        (State.empty : State Nat Unit)).map State.depth = some 2 := by
      decide +kernel
    obtain ⟨σ, hσ, hdepth⟩ := Option.map_eq_some_iff.mp hrun
    exact ⟨σ, hσ, Rdma.checkedLoad_shallow (by omega) rfl rfl⟩

end FatBTree.Switch
