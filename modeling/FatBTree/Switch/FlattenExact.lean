import FatBTree.Switch.Flatten
import FatBTree.Tree.Traversal

/-!
# The fat node of `load2switch`

On every level above the leaves the separators of the tree, in order, cut the keys into
the intervals of the nodes of the next level.  The fat node therefore selects the node
that lower-bound descent reaches.
-/

namespace FatBTree.Switch

open FatBTree.Order FatBTree.Tree

variable {κ V : Type} [LinearOrder κ] [Inhabited V]

/-- The nodes `steps` edges below `n`, from left to right. -/
def levelFrom (σ : State κ V) : Nat → Nat → List Nat
  | 0, n => [n]
  | steps + 1, n => (σ.pool n).child.flatMap (levelFrom σ steps)

section Levels

variable {σ : State κ V}

omit [LinearOrder κ] [Inhabited V] in
theorem levelFrom_succ (steps n : Nat) :
    levelFrom σ (steps + 1) n = (levelFrom σ steps n).flatMap fun p => (σ.pool p).child := by
  induction steps generalizing n with
  | zero => simp [levelFrom]
  | succ steps ih =>
      have hchildren : levelFrom σ (steps + 1) =
          fun c => (levelFrom σ steps c).flatMap fun p => (σ.pool p).child := funext ih
      calc levelFrom σ (steps + 2) n
          = (σ.pool n).child.flatMap
              (fun c => (levelFrom σ steps c).flatMap fun p => (σ.pool p).child) := by
            rw [levelFrom, hchildren]
        _ = ((σ.pool n).child.flatMap (levelFrom σ steps)).flatMap
              fun p => (σ.pool p).child := List.flatMap_assoc.symm

omit [LinearOrder κ] [Inhabited V] in
theorem levelNodes_eq (level : Nat) : levelNodes σ level = levelFrom σ level root := by
  induction level with
  | zero => rfl
  | succ level ih => rw [levelNodes, ih, levelFrom_succ]

omit [LinearOrder κ] [Inhabited V] in
theorem mem_levelNodes {level n : Nat} :
    n ∈ levelNodes σ level ↔ Descends σ root level n := by
  induction level generalizing n with
  | zero =>
      rw [levelNodes, List.mem_singleton]
      constructor
      · rintro rfl
        exact .refl
      · rintro ⟨⟩
        rfl
  | succ level ih =>
      rw [levelNodes, List.mem_flatMap]
      constructor
      · rintro ⟨p, hp, hchild⟩
        exact .step (ih.mp hp) hchild
      · rintro (_ | ⟨below, hchild⟩)
        exact ⟨_, ih.mpr below, hchild⟩

omit [LinearOrder κ] in
theorem nodup_levelNodes {dist : Nat → Nat} (shape : Shape σ dist) (level : Nat) :
    (levelNodes σ level).Nodup := by
  induction level with
  | zero => exact List.nodup_singleton root
  | succ level ih =>
      refine List.nodup_flatMap.mpr ⟨fun p _ => shape.nodup p, ih.imp fun {p q} hne => ?_⟩
      exact fun c hp hq => hne (shape.unique p q c hp hq)

end Levels

section Flat

variable {M : Nat} {w : World κ V} {history : List (κ × V)}

/-- The children of an inner node divide its interval. -/
theorem cuts_child (sound : Sound M w history) {n : Nat} (hinner : (w.state.pool n).IsInner) :
    Cuts w.bounds.lo w.bounds.hi (w.bounds.lo n) (w.bounds.hi n) (w.state.pool n).key
      (w.state.pool n).child :=
  Cuts.of_segments (sound.ordered.sorted n) (sound.ordered.lo_le n)
    (sound.shape.inner_arity n hinner)
    (fun i c hc => sound.ordered.child_lo n i c hinner hc)
    (fun i c hc => sound.ordered.child_hi n i c hinner hc)

theorem inner_of_mem_levelNodes (sound : Sound M w history) {level n : Nat}
    (hlevel : level + 1 < w.state.depth) (hn : n ∈ levelNodes w.state level) :
    (w.state.pool n).IsInner := by
  have shape := sound.shape
  induction level generalizing n with
  | zero =>
      obtain rfl := List.mem_singleton.mp hn
      exact sound.inner_root (by omega)
  | succ level ih =>
      obtain ⟨p, hp, hchild⟩ := List.mem_flatMap.mp hn
      have hdist := shape.dist_of_descends (mem_levelNodes.mp hn)
      rw [shape.dist_root] at hdist
      exact sound.inner_of_dist_lt (shape.child_lt p n hchild)
        (shape.inner_child p n (ih (by omega) hp) hchild) (by omega)

/-- The separators of a level divide all keys into the intervals of its nodes. -/
theorem cuts_level (sound : Sound M w history) {level : Nat} (hlevel : level < w.state.depth) :
    Cuts w.bounds.lo w.bounds.hi ⊥ ⊤ (levelKeys w.state level) (levelNodes w.state level) := by
  induction level with
  | zero =>
      rw [← sound.ordered.lo_root, ← sound.ordered.hi_root]
      exact .whole root
  | succ level ih =>
      refine (ih (by omega)).refine (fun p hp => ?_) (fun p _ => sound.ordered.le_hi p)
      exact cuts_child sound (inner_of_mem_levelNodes sound hlevel hp)

/-- The fat node selects the node that the descent reaches. -/
theorem select_level (sound : Sound M w history) {level : Nat}
    (hlevel : level + 1 < w.state.depth) (k : κ) :
    (levelNodes w.state level)[countBelow (levelKeys w.state level) k]? =
      pathTo w.state k level := by
  have shape := sound.shape
  obtain ⟨n, hn, holds⟩ := (cuts_level sound (Nat.lt_of_succ_lt hlevel)).select
    ⟨WithBot.bot_lt_coe k, le_top⟩
  have hmem := List.mem_of_getElem? hn
  have below := mem_levelNodes.mp hmem
  have hdist := shape.dist_of_descends below
  rw [shape.dist_root, Nat.zero_add] at hdist
  have hpath := sound.ordered.pathTo_of_holds shape
    (shape.lt_of_descends shape.root_lt below) (inner_of_mem_levelNodes sound hlevel hmem).2 holds
  rw [hn, ← hpath, hdist]

end Flat

/-- The first loop of `load2switch` flattens the tree exactly. -/
theorem flatten_exact (variant : Variant V) (calls : List (Call κ V)) {σ : State κ V}
    (hreach : Reaches 16 variant calls σ) (compressDepth : Nat)
    (hdepth : compressDepth + 2 ≤ σ.depth) :
    ∃ cached nodes keys, flatten σ compressDepth = some cached ∧
      cached.nodes[compressDepth]? = some nodes ∧ cached.keys[compressDepth]? = some keys ∧
      nodes = levelFrom σ compressDepth root ∧
      (∀ n, n ∈ nodes ↔ Descends σ root compressDepth n) ∧ nodes.Nodup ∧
      keys.length + 1 = nodes.length ∧
      ∀ k, nodes[countBelow keys k]? = pathTo σ k compressDepth := by
  obtain ⟨w, hrun, settled⟩ := settled_of_run variant (M := 16) calls
  obtain rfl : w.state = σ := Option.some.inj (hrun.symm.trans hreach)
  refine ⟨_, levelNodes w.state compressDepth, levelKeys w.state compressDepth,
    flatten_eq (by omega), ?_, ?_, levelNodes_eq _, fun n => mem_levelNodes, ?_, ?_, ?_⟩
  · rw [cachedTo_nodes (by omega), if_pos (Nat.le_refl _)]
  · rw [cachedTo_keys (by omega), if_pos (Nat.le_refl _)]
  · exact nodup_levelNodes settled.shape _
  · exact (cuts_level settled.toSound (by omega)).length_eq.symm
  · exact fun k => select_level settled.toSound (by omega) k

/-- The level below the root of a tree of three levels. -/
theorem flatten_exact_three_levels :
    ∃ σ, Reaches 16 Ethernet.ethernet ((List.range 136).map fun i => .insert i []) σ ∧
      ∃ cached nodes keys, flatten (κ := Nat) σ 1 = some cached ∧
        cached.nodes[1]? = some nodes ∧ cached.keys[1]? = some keys ∧
        nodes = levelFrom σ 1 root ∧ (∀ n, n ∈ nodes ↔ Descends σ root 1 n) ∧ nodes.Nodup ∧
        keys.length + 1 = nodes.length ∧
        ∀ k, nodes[countBelow keys k]? = pathTo σ k 1 := by
  have hrun : (run 16 Ethernet.ethernet ((List.range 136).map fun i => .insert i [])
      (State.empty : State Nat Ethernet.FieldTable)).map State.depth = some 3 := by
    decide +kernel
  obtain ⟨σ, hσ, hdepth⟩ := Option.map_eq_some_iff.mp hrun
  exact ⟨σ, hσ, flatten_exact Ethernet.ethernet _ hσ 1 hdepth.ge⟩

end FatBTree.Switch
