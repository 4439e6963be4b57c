import FatBTree.Switch.Frontier

/-!
# Switch snapshots

A snapshot is what a loader prints: the fat root and, layer by layer, copies of
tree nodes.  Everything it mentions is marked, so the intervals of these nodes
never change again and the snapshot keeps routing keys along their paths.
-/

namespace FatBTree.Switch

open FatBTree.Order FatBTree.Tree

variable {κ V : Type} [LinearOrder κ]

/-- One printed node. -/
structure Entry (κ : Type) where
  node : Nat
  keys : List κ
  children : List Nat
  deriving DecidableEq

structure Snapshot (κ : Type) where
  fat : Entry κ
  layers : List (List (Entry κ))
  deriving DecidableEq

/-- What `print_info(n, i, n->key, n->child)` prints. -/
def nodeEntry (σ : State κ V) (n : Nat) : Entry κ where
  node := n
  keys := (σ.pool n).key
  children := (σ.pool n).child

/-- Child number `#{entry keys < k}`. -/
def Entry.childFor (entry : Entry κ) (k : κ) : Option Nat :=
  entry.children[countBelow entry.keys k]?

namespace Snapshot

/-- The entries below the fat root. -/
def entries (snapshot : Snapshot κ) : List (Entry κ) :=
  snapshot.layers.flatten

/-- The layer entry of a node. -/
def entryOf (snapshot : Snapshot κ) (n : Nat) : Option (Entry κ) :=
  snapshot.entries.find? (fun entry => entry.node == n)

/-- The node reached after the fat root and `steps` layer entries; a node
without an entry is where the routing stays. -/
def route (snapshot : Snapshot κ) (k : κ) : Nat → Option Nat
  | 0 => snapshot.fat.childFor k
  | steps + 1 =>
      match snapshot.route k steps with
      | none => none
      | some n =>
          match snapshot.entryOf n with
          | none => some n
          | some entry => entry.childFor k

/-- The nodes `print_info` marks as loaded. -/
def loaded (snapshot : Snapshot κ) : List Nat :=
  snapshot.fat.node :: snapshot.fat.children ++
    snapshot.entries.flatMap (fun entry => entry.node :: entry.children)

omit [LinearOrder κ] in
theorem mem_loaded {snapshot : Snapshot κ} {n : Nat} :
    n ∈ snapshot.loaded ↔ n = snapshot.fat.node ∨ n ∈ snapshot.fat.children ∨
      ∃ entry ∈ snapshot.entries, n = entry.node ∨ n ∈ entry.children := by
  simp [loaded, List.mem_flatMap]

end Snapshot

/-! ## Layers -/

/-- `sort` and `resize` of `cached_nodes[i]`. -/
def capLayer (σ : State κ V) (ties : Ties) (loadNum i : Nat) (nodes : List Nat) : List Nat :=
  (sortByAccess σ (ties.layer i) nodes).take loadNum

/-- `cached_nodes[i]` and the `count - 1` layers below it. -/
def layersFrom (σ : State κ V) (ties : Ties) (loadNum i : Nat) :
    Nat → List Nat → List (List Nat)
  | 0, _ => []
  | count + 1, nodes =>
      nodes :: layersFrom σ ties loadNum (i + 1) count
        (capLayer σ ties loadNum (i + 1) (nodes.flatMap (fun p => (σ.pool p).child)))

/-- What is printed from `node_vec` and the layers below it. -/
def printed (σ : State κ V) (nodeVec : List (Nat × κ)) (layers : List (List Nat)) :
    Snapshot κ where
  fat :=
    { node := root
      keys := nodeVec.tail.map Prod.snd
      children := nodeVec.map Prod.fst }
  layers := layers.map (fun nodes => nodes.map (nodeEntry σ))

section Layers

variable {σ : State κ V} {ties : Ties} {loadNum : Nat}

omit [LinearOrder κ] in
theorem mem_capLayer {i n : Nat} {nodes : List Nat} (hn : n ∈ capLayer σ ties loadNum i nodes) :
    n ∈ nodes :=
  (List.perm_insertionSort _ _).subset (List.mem_of_mem_take hn)

omit [LinearOrder κ] in
/-- What holds of the first layer and of all children holds of every layer. -/
theorem layersFrom_induction (holding : Nat → Nat → Prop) {top count i : Nat}
    {nodes : List Nat} (hbound : i + count ≤ top)
    (hstart : ∀ n ∈ nodes, holding i n)
    (hstep : ∀ i n c, i + 1 < top → holding i n → c ∈ (σ.pool n).child →
      holding (i + 1) c) :
    ∀ layer ∈ layersFrom σ ties loadNum i count nodes, ∀ n ∈ layer,
      ∃ j, j < top ∧ holding j n := by
  induction count generalizing i nodes with
  | zero =>
      intro layer hlayer
      cases hlayer
  | succ count ih =>
      intro layer hlayer n hn
      rcases List.mem_cons.mp hlayer with rfl | hrest
      · exact ⟨i, by omega, hstart n hn⟩
      · cases count with
        | zero => cases hrest
        | succ count =>
            refine ih (by omega) (fun m hm => ?_) layer hrest n hn
            obtain ⟨p, hp, hchild⟩ := List.mem_flatMap.mp (mem_capLayer hm)
            exact hstep i p m (by omega) (hstart p hp) hchild

omit [LinearOrder κ] in
/-- Every printed layer consists of existing nodes. -/
theorem lt_of_mem_layersFrom [Inhabited V] {dist : Nat → Nat} (shape : Shape σ dist) {i count : Nat}
    {nodes : List Nat} (hlt : ∀ n ∈ nodes, n < σ.nbNode) :
    ∀ layer ∈ layersFrom σ ties loadNum i count nodes, ∀ n ∈ layer, n < σ.nbNode := by
  intro layer hlayer n hn
  obtain ⟨-, -, hbound⟩ := layersFrom_induction (fun _ m => m < σ.nbNode) (Nat.le_refl _) hlt
    (fun _ p c _ _ hchild => shape.child_lt p c hchild) layer hlayer n hn
  exact hbound

omit [LinearOrder κ] in
theorem mem_entries_printed {nodeVec : List (Nat × κ)} {layers : List (List Nat)}
    {entry : Entry κ} :
    entry ∈ (printed σ nodeVec layers).entries ↔
      ∃ layer ∈ layers, ∃ n ∈ layer, nodeEntry σ n = entry := by
  simp [Snapshot.entries, printed]

omit [LinearOrder κ] in
/-- Printing marks existing nodes only. -/
theorem loaded_printed_lt [Inhabited V] {dist : Nat → Nat} (shape : Shape σ dist)
    {nodeVec : List (Nat × κ)} {layers : List (List Nat)}
    (hvec : ∀ p ∈ nodeVec, p.1 < σ.nbNode)
    (hlayers : ∀ layer ∈ layers, ∀ n ∈ layer, n < σ.nbNode) :
    ∀ n ∈ (printed σ nodeVec layers).loaded, n < σ.nbNode := by
  intro n hn
  rcases Snapshot.mem_loaded.mp hn with rfl | hfat | ⟨entry, hentry, hnode⟩
  · exact shape.root_lt
  · obtain ⟨p, hp, rfl⟩ := List.mem_map.mp hfat
    exact hvec p hp
  · obtain ⟨layer, hlayer, m, hm, rfl⟩ := mem_entries_printed.mp hentry
    rcases hnode with rfl | hchild
    · exact hlayers layer hlayer _ hm
    · exact shape.child_lt m n hchild

end Layers

/-- The snapshot copies nodes of the tree, and its fat root partitions the keys. -/
structure Faithful (snapshot : Snapshot κ) (w : World κ V) : Prop where
  fat_node : snapshot.fat.node = root
  fat_step : ∀ k, ∃ n, snapshot.fat.childFor k = some n ∧ w.bounds.Holds n k
  fat_lt : ∀ n ∈ snapshot.fat.children, n < w.state.nbNode
  fat_isValue : ∀ n ∈ snapshot.fat.children, (w.state.pool n).isValue = false
  copied : ∀ entry ∈ snapshot.entries, entry = nodeEntry w.state entry.node
  lt : ∀ entry ∈ snapshot.entries, entry.node < w.state.nbNode

section Route

variable {M : Nat} {w : World κ V} {history : List (κ × V)} {snapshot : Snapshot κ}

/-- A load prints a faithful snapshot. -/
theorem faithful_printed [Inhabited V] [OrderBot κ] (sound : Sound M w history)
    (strict : Strict w) {depthLimit : Nat}
    {nodeVec : List (Nat × κ)} (partition : Partition w depthLimit nodeVec)
    (sorted : nodeVec.Pairwise (fun p q => p.2 ≤ q.2)) {layers : List (List Nat)}
    (hlayers : ∀ layer ∈ layers, ∀ n ∈ layer, n < w.state.nbNode) :
    Faithful (printed w.state nodeVec layers) w := by
  constructor
  case fat_node => rfl
  case fat_step =>
    intro k
    obtain ⟨n, hn, -, holds⟩ := partition.fat_step strict sound sorted k
    exact ⟨n, hn, holds⟩
  case fat_lt =>
    intro n hn
    obtain ⟨p, hp, rfl⟩ := List.mem_map.mp hn
    exact partition.lt p hp
  case fat_isValue =>
    intro n hn
    obtain ⟨p, hp, rfl⟩ := List.mem_map.mp hn
    exact partition.isValue p hp
  case copied =>
    intro entry hentry
    obtain ⟨layer, hlayer, n, hn, rfl⟩ := mem_entries_printed.mp hentry
    rfl
  case lt =>
    intro entry hentry
    obtain ⟨layer, hlayer, n, hn, rfl⟩ := mem_entries_printed.mp hentry
    exact hlayers layer hlayer n hn

theorem Faithful.entryOf_eq (faithful : Faithful snapshot w) {n : Nat} {entry : Entry κ}
    (hentry : snapshot.entryOf n = some entry) :
    entry ∈ snapshot.entries ∧ entry = nodeEntry w.state n := by
  have hmem := List.mem_of_find?_eq_some hentry
  have hnode := List.find?_some hentry
  have heq := faithful.copied entry hmem
  rw [beq_iff_eq.mp hnode] at heq
  exact ⟨hmem, heq⟩

/-- A copy selects the child that lower-bound descent selects. -/
theorem nodeEntry_childFor (ordered : Ordered M w.state w.bounds) (n : Nat) (k : κ) :
    (nodeEntry w.state n).childFor k = childFor (w.state.pool n) k := by
  rw [Entry.childFor, childFor, (ordered.sorted n).lowerBound_eq_countBelow]
  rfl

/-- Routing stays with nodes that are responsible for the key, unless a copy of
a leaf answers for it. -/
theorem Faithful.route_cases [Inhabited V] (faithful : Faithful snapshot w)
    (sound : Sound M w history)
    (hval : ∀ entry ∈ snapshot.entries, (w.state.pool entry.node).isValue = false) (k : κ)
    (steps : Nat) :
    (∃ n, snapshot.route k steps = some n ∧ n ∈ snapshot.loaded ∧ n < w.state.nbNode ∧
      (w.state.pool n).isValue = false ∧ w.bounds.Holds n k) ∨
    ∃ entry ∈ snapshot.entries, (w.state.pool entry.node).isLeaf = true ∧
      w.bounds.Holds entry.node k ∧
      snapshot.route k steps = childFor (w.state.pool entry.node) k := by
  have shape := sound.shape
  induction steps with
  | zero =>
      obtain ⟨n, hn, holds⟩ := faithful.fat_step k
      have hmem : n ∈ snapshot.fat.children := List.mem_of_getElem? hn
      exact Or.inl ⟨n, hn, Snapshot.mem_loaded.mpr (Or.inr (Or.inl hmem)),
        faithful.fat_lt n hmem, faithful.fat_isValue n hmem, holds⟩
  | succ steps ih =>
      rcases ih with ⟨n, hn, hloaded, hlt, hnval, holds⟩ | ⟨entry, hmem, hleaf, holds, hroute⟩
      · cases hentry : snapshot.entryOf n with
        | none =>
            refine Or.inl ⟨n, ?_, hloaded, hlt, hnval, holds⟩
            simp only [Snapshot.route, hn, hentry]
        | some entry =>
            obtain ⟨hmem, heq⟩ := faithful.entryOf_eq hentry
            have hnode : entry.node = n := congrArg Entry.node heq
            have hstep : snapshot.route k (steps + 1) = childFor (w.state.pool n) k := by
              simp only [Snapshot.route, hn, hentry]
              rw [heq, nodeEntry_childFor sound.ordered]
            cases hleaf : (w.state.pool n).isLeaf with
            | true => exact Or.inr ⟨entry, hmem, hnode ▸ hleaf, hnode ▸ holds, hnode ▸ hstep⟩
            | false =>
                have hinner : (w.state.pool n).IsInner := ⟨hleaf, hnval⟩
                obtain ⟨c, hc, hchild⟩ := shape.childFor_inner hinner k
                refine Or.inl ⟨c, hstep.trans hc, ?_, shape.child_lt n c hchild,
                  shape.inner_child n c hinner hchild, sound.ordered.holds_childFor hinner holds hc⟩
                refine Snapshot.mem_loaded.mpr (Or.inr (Or.inr ⟨entry, hmem, Or.inr ?_⟩))
                rw [heq]
                exact hchild
      · -- the answer of a leaf copy is a value node, which no entry copies
        refine Or.inr ⟨entry, hmem, hleaf, holds, ?_⟩
        cases hc : childFor (w.state.pool entry.node) k with
        | none => simp only [Snapshot.route, hroute, hc]
        | some c =>
            have hvalue := shape.leaf_child entry.node c hleaf (mem_child_of_childFor hc)
            have hnone : snapshot.entryOf c = none := by
              refine List.find?_eq_none.mpr fun other hother heq => ?_
              have hbare := hval other hother
              rw [beq_iff_eq.mp heq, hvalue] at hbare
              cases hbare
            simp only [Snapshot.route, hroute, hc, hnone]

/-- When no copy is of a leaf, routing never leaves these nodes. -/
theorem Faithful.route_eq [Inhabited V] (faithful : Faithful snapshot w) (sound : Sound M w history)
    (hinner : ∀ entry ∈ snapshot.entries, (w.state.pool entry.node).IsInner) (k : κ)
    (steps : Nat) :
    ∃ n, snapshot.route k steps = some n ∧ n ∈ snapshot.loaded ∧ n < w.state.nbNode ∧
      (w.state.pool n).isValue = false ∧ w.bounds.Holds n k := by
  rcases faithful.route_cases sound (fun entry hentry => (hinner entry hentry).2) k steps with
    hon | ⟨entry, hentry, hleaf, -⟩
  · exact hon
  · rw [(hinner entry hentry).1] at hleaf
    cases hleaf

/-- Nodes that are loaded now stay on the path for ever. -/
theorem onPath_of_keeps [Inhabited V] {w' : World κ V} {history' : List (κ × V)}
    (settled' : Settled M w' history')
    (keeps : Keeps w w') {n : Nat} {k : κ} (hlt : n < w.state.nbNode)
    (hval : (w.state.pool n).isValue = false) (hpinned : Pinned w.state n)
    (holds : w.bounds.Holds n k) :
    OnPath w'.state k n ∧
      (lookup w'.state k n).map Prod.fst = (lookup w'.state k root).map Prod.fst := by
  have hlt' : n < w'.state.nbNode := Nat.lt_of_lt_of_le hlt keeps.nbNode_le
  have hval' : (w'.state.pool n).isValue = false := (keeps.isValue n hlt).trans hval
  have holds' := (keeps.holds_iff hlt hpinned).mpr holds
  refine ⟨⟨w'.dist n, settled'.ordered.pathTo_of_holds settled'.shape hlt' hval' holds'⟩, ?_⟩
  rw [Settled.lookup_eq settled' hlt' hval' holds', Settled.lookup_eq settled'
    settled'.shape.root_lt settled'.shape.root_isValue (settled'.ordered.holds_root k)]

end Route

end FatBTree.Switch
