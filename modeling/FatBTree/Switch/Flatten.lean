import FatBTree.Ethernet.MapSemantics
import FatBTree.Order.Cuts
import FatBTree.Rdma.Capacity
import FatBTree.Switch.Snapshot
import Mathlib.Order.Nat

/-!
# `load2switch`

The levels down to `compress_depth` are flattened into one fat node, and below it each
level keeps its most accessed nodes.  The backend, the frontend and the RDMA server have
one copy of the function each.  All three give `cached_nodes` room for `depth - 1`
levels, but they do not run their last two loops equally far.
-/

namespace FatBTree.Switch

open FatBTree.Order FatBTree.Tree

variable {κ V : Type}

/-- `cached_nodes` and `cached_keys`, by level. -/
structure Cached (κ : Type) where
  nodes : List (List Nat)
  keys : List (List κ)
  deriving DecidableEq

/-- The body of the first loop, for node `j` of level `i - 1`.  `none` stands for an
access past the end of `cached_nodes` or `cached_keys`. -/
def absorb (σ : State κ V) (i : Nat) (cached : Cached κ) (j : Nat) : Option (Cached κ) := do
  let above ← cached.nodes[i - 1]?
  let seps ← cached.keys[i - 1]?
  let nodes ← cached.nodes[i]?
  let keys ← cached.keys[i]?
  let node ← above[j]?
  let own := keys ++ (σ.pool node).key
  -- `if (j < cached_keys[i - 1].size())`
  let grown := match seps[j]? with
    | some sep => own ++ [sep]
    | none => own
  some
    { nodes := cached.nodes.set i (nodes ++ (σ.pool node).child)
      keys := cached.keys.set i grown }

/-- All nodes of level `i - 1`.  The body only changes level `i`, so the bound of the
loop stays what it is at its start. -/
def absorbLevel (σ : State κ V) (cached : Cached κ) (i : Nat) : Option (Cached κ) := do
  let above ← cached.nodes[i - 1]?
  (List.range above.length).foldlM (absorb σ i) cached

/-- `cached_nodes(depth - 1)`, `cached_keys(compress_depth + 1)` and
`cached_nodes[0].push_back(root)`. -/
def cachedRoot (σ : State κ V) (compressDepth : Nat) : Option (Cached κ) :=
  if 0 < σ.depth - 1 then
    some
      { nodes := (List.replicate (σ.depth - 1) []).set 0 [root]
        keys := List.replicate (compressDepth + 1) [] }
  else none

/-- The first loop of `load2switch`. -/
def flatten (σ : State κ V) (compressDepth : Nat) : Option (Cached κ) := do
  let cached ← cachedRoot σ compressDepth
  (List.range' 1 compressDepth).foldlM (absorbLevel σ) cached

/-- The three copies of `load2switch`. -/
inductive Copy where
  | backend
  | frontend
  | rdma
  deriving DecidableEq

/-- Where the loops `i <= depth - 1` and `i < depth - 1` stop. -/
def Copy.levelsEnd (copy : Copy) (depth : Nat) : Nat :=
  match copy with
  | .backend => depth - 1 + 1
  | .frontend => depth - 1
  | .rdma => depth - 1

/-- The levels from `first` on. -/
def Copy.levelsFrom (copy : Copy) (depth first : Nat) : List Nat :=
  List.range' first (copy.levelsEnd depth - first)

/-- `sort` and `resize` of `cached_nodes[i]`. -/
def capLevel (σ : State κ V) (ties : Ties) (maxLoadNum i : Nat) (cached : Cached κ) :
    Option (Cached κ) := do
  let nodes ← cached.nodes[i]?
  some { cached with nodes := cached.nodes.set i (capLayer σ ties maxLoadNum i nodes) }

/-- The children of level `i - 1`, sorted and cut off. -/
def descendLevel (σ : State κ V) (ties : Ties) (maxLoadNum : Nat) (cached : Cached κ)
    (i : Nat) : Option (Cached κ) := do
  let above ← cached.nodes[i - 1]?
  let nodes ← cached.nodes[i]?
  let grown := nodes ++ above.flatMap fun p => (σ.pool p).child
  capLevel σ ties maxLoadNum i { cached with nodes := cached.nodes.set i grown }

/-- `print_info(n, i - compress_depth + 1, n->key, n->child)` for a whole level. -/
def printLevel (σ : State κ V) (cached : Cached κ) (compressDepth i : Nat) :
    Option (List (Nat × Entry κ)) := do
  let nodes ← cached.nodes[i]?
  some (nodes.map fun n => (i - compressDepth + 1, nodeEntry σ n))

/-- `load2switch`: what it prints, each node with its virtual depth, and the tree in
which `print_info` has marked the printed nodes and their children. -/
def load2switch (copy : Copy) (σ : State κ V) (ties : Ties) (maxLoadNum compressDepth : Nat) :
    Option (List (Nat × Entry κ) × State κ V) := do
  let cached ← flatten σ compressDepth
  let keys ← cached.keys[compressDepth]?
  let nodes ← cached.nodes[compressDepth]?
  let capped ← capLevel σ ties maxLoadNum compressDepth cached
  let filled ← (copy.levelsFrom σ.depth (compressDepth + 1)).foldlM
    (descendLevel σ ties maxLoadNum) capped
  let levels ← (copy.levelsFrom σ.depth compressDepth).mapM
    (printLevel σ filled compressDepth)
  let lines := (0, ⟨root, keys, nodes⟩) :: levels.flatten
  some (lines, markLoaded σ (lines.flatMap fun line => line.2.node :: line.2.children))

/-! ## One level more -/

section Levels

variable {σ : State κ V} {cached : Cached κ} {above nodes : List Nat} {seps keys : List κ}
  {i : Nat}

theorem absorb_eq {j node : Nat} (habove : cached.nodes[i - 1]? = some above)
    (hseps : cached.keys[i - 1]? = some seps) (hnodes : cached.nodes[i]? = some nodes)
    (hkeys : cached.keys[i]? = some keys) (hnode : above[j]? = some node) :
    absorb σ i cached j = some
      { nodes := cached.nodes.set i (nodes ++ (σ.pool node).child)
        keys := cached.keys.set i (keys ++ (σ.pool node).key ++ seps[j]?.toList) } := by
  simp only [absorb, habove, hseps, hnodes, hkeys, hnode, Option.bind_eq_bind, Option.bind_some]
  cases seps[j]? with
  | none => simp
  | some sep => simp

/-- The nodes of level `i - 1` from position `offset` on. -/
theorem foldlM_absorb (hi : i ≠ i - 1) (rest : List Nat) {offset : Nat}
    (hrest : above.drop offset = rest) (habove : cached.nodes[i - 1]? = some above)
    (hseps : cached.keys[i - 1]? = some seps) (hnodes : cached.nodes[i]? = some nodes)
    (hkeys : cached.keys[i]? = some keys) :
    (List.range' offset rest.length).foldlM (absorb σ i) cached = some
      { nodes := cached.nodes.set i (nodes ++ rest.flatMap fun p => (σ.pool p).child)
        keys := cached.keys.set i
          (keys ++ interleave (fun p => (σ.pool p).key) rest (seps.drop offset)) } := by
  induction rest generalizing offset cached nodes keys with
  | nil =>
      obtain ⟨hlt, rfl⟩ := List.getElem?_eq_some_iff.mp hnodes
      obtain ⟨hlt', rfl⟩ := List.getElem?_eq_some_iff.mp hkeys
      simp [interleave]
  | cons node rest ih =>
      have hnode : above[offset]? = some node := by
        rw [← Nat.add_zero offset, ← List.getElem?_drop, hrest]
        rfl
      have hrest' : above.drop (offset + 1) = rest := by
        rw [← List.drop_drop, hrest, List.drop_one, List.tail_cons]
      have hlt := (List.getElem?_eq_some_iff.mp hnodes).1
      have hlt' := (List.getElem?_eq_some_iff.mp hkeys).1
      let next : Cached κ :=
        { nodes := cached.nodes.set i (nodes ++ (σ.pool node).child)
          keys := cached.keys.set i (keys ++ (σ.pool node).key ++ seps[offset]?.toList) }
      have habove' : next.nodes[i - 1]? = some above := by
        rw [List.getElem?_set_ne hi]
        exact habove
      have hseps' : next.keys[i - 1]? = some seps := by
        rw [List.getElem?_set_ne hi]
        exact hseps
      have hnext := ih hrest' habove' hseps' (List.getElem?_set_self hlt)
        (List.getElem?_set_self hlt')
      rw [List.length_cons, List.range'_succ, List.foldlM_cons,
        absorb_eq habove hseps hnodes hkeys hnode, Option.bind_eq_bind, Option.bind_some, hnext,
        interleave_cons, List.tail_drop, List.getElem?_drop]
      simp only [next, Nat.add_zero, List.set_set, List.append_assoc, List.flatMap_cons]

theorem absorbLevel_eq (hi : 1 ≤ i) (habove : cached.nodes[i - 1]? = some above)
    (hseps : cached.keys[i - 1]? = some seps) (hnodes : cached.nodes[i]? = some [])
    (hkeys : cached.keys[i]? = some []) :
    absorbLevel σ cached i = some
      { nodes := cached.nodes.set i (above.flatMap fun p => (σ.pool p).child)
        keys := cached.keys.set i (interleave (fun p => (σ.pool p).key) above seps) } := by
  simp only [absorbLevel, habove, Option.bind_eq_bind, Option.bind_some, List.range_eq_range']
  exact foldlM_absorb (by omega) above List.drop_zero habove hseps hnodes hkeys

end Levels

/-! ## All levels -/

/-- The nodes `level` edges below the root, from left to right. -/
def levelNodes (σ : State κ V) : Nat → List Nat
  | 0 => [root]
  | level + 1 => (levelNodes σ level).flatMap fun p => (σ.pool p).child

/-- The separators between the nodes of a level. -/
def levelKeys (σ : State κ V) : Nat → List κ
  | 0 => []
  | level + 1 => interleave (fun p => (σ.pool p).key) (levelNodes σ level) (levelKeys σ level)

/-- `cached_nodes` and `cached_keys` when the levels up to `level` are done. -/
def cachedTo (σ : State κ V) (compressDepth level : Nat) : Cached κ where
  nodes := (List.range (σ.depth - 1)).map fun j => if j ≤ level then levelNodes σ j else []
  keys := (List.range (compressDepth + 1)).map fun j => if j ≤ level then levelKeys σ j else []

theorem set_map_range {α : Type} (f g : Nat → α) (n : Nat) {i : Nat}
    (heq : ∀ j, j ≠ i → f j = g j) :
    ((List.range n).map f).set i (g i) = (List.range n).map g := by
  refine List.ext_getElem (by simp) fun j hj _ => ?_
  rw [List.getElem_set]
  split
  · next hij => simp [hij]
  · next hij => simp [heq j (fun h => hij h.symm)]

section Flatten

variable {σ : State κ V} {compressDepth : Nat}

theorem cachedTo_nodes {level j : Nat} (hj : j < σ.depth - 1) :
    (cachedTo σ compressDepth level).nodes[j]? =
      some (if j ≤ level then levelNodes σ j else []) := by
  rw [cachedTo, List.getElem?_map, List.getElem?_range hj, Option.map_some]

theorem cachedTo_keys {level j : Nat} (hj : j < compressDepth + 1) :
    (cachedTo σ compressDepth level).keys[j]? =
      some (if j ≤ level then levelKeys σ j else []) := by
  rw [cachedTo, List.getElem?_map, List.getElem?_range hj, Option.map_some]

theorem cachedRoot_eq (hdepth : 0 < σ.depth - 1) :
    cachedRoot σ compressDepth = some (cachedTo σ compressDepth 0) := by
  have hkeys : List.replicate (compressDepth + 1) [] =
      (List.range (compressDepth + 1)).map fun j => if j ≤ 0 then levelKeys σ j else [] := by
    refine List.ext_getElem (by simp) fun j _ _ => ?_
    rw [List.getElem_replicate, List.getElem_map, List.getElem_range]
    split
    · next hj =>
        obtain rfl := Nat.le_zero.mp hj
        rfl
    · rfl
  have hnodes : (List.replicate (σ.depth - 1) []).set 0 [root] =
      (List.range (σ.depth - 1)).map fun j => if j ≤ 0 then levelNodes σ j else [] := by
    refine List.ext_getElem (by simp) fun j _ _ => ?_
    rw [List.getElem_set, List.getElem_replicate, List.getElem_map, List.getElem_range]
    cases j with
    | zero => rfl
    | succ j => rfl
  rw [cachedRoot, if_pos hdepth, cachedTo, hkeys, hnodes]

theorem absorbLevel_cachedTo {level : Nat} (hnodes : level + 1 < σ.depth - 1)
    (hkeys : level + 1 < compressDepth + 1) :
    absorbLevel σ (cachedTo σ compressDepth level) (level + 1) =
      some (cachedTo σ compressDepth (level + 1)) := by
  rw [absorbLevel_eq (by omega) (cachedTo_nodes (by omega)) (cachedTo_keys (by omega))
    ((cachedTo_nodes hnodes).trans (by rw [if_neg (by omega)]))
    ((cachedTo_keys hkeys).trans (by rw [if_neg (by omega)]))]
  simp only [Nat.add_sub_cancel, Nat.le_refl, if_true]
  have hsame : ∀ {α : Type} (f : Nat → List α) (j : Nat), j ≠ level + 1 →
      (if j ≤ level then f j else []) = if j ≤ level + 1 then f j else [] := by
    intro α f j hj
    by_cases hle : j ≤ level
    · rw [if_pos hle, if_pos (by omega)]
    · rw [if_neg hle, if_neg (by omega)]
  have hn := set_map_range (fun j => if j ≤ level then levelNodes σ j else [])
    (fun j => if j ≤ level + 1 then levelNodes σ j else []) (σ.depth - 1) (hsame _)
  have hk := set_map_range (fun j => if j ≤ level then levelKeys σ j else [])
    (fun j => if j ≤ level + 1 then levelKeys σ j else []) (compressDepth + 1) (hsame _)
  simp only [Nat.le_refl, if_true] at hn hk
  rw [cachedTo, cachedTo, ← hn, ← hk]
  rfl

theorem foldlM_absorbLevel {count : Nat} (hdepth : count + 1 ≤ σ.depth - 1)
    (hcount : count ≤ compressDepth) :
    (List.range' 1 count).foldlM (absorbLevel σ) (cachedTo σ compressDepth 0) =
      some (cachedTo σ compressDepth count) := by
  induction count with
  | zero => rfl
  | succ count ih =>
      rw [List.range'_1_concat, List.foldlM_append, ih (by omega) (by omega)]
      simp only [Option.bind_eq_bind, Option.bind_some, List.foldlM_cons, List.foldlM_nil]
      rw [Nat.add_comm 1 count, absorbLevel_cachedTo (by omega) (by omega)]
      rfl

/-- The first loop fills level after level. -/
theorem flatten_eq (hdepth : compressDepth + 2 ≤ σ.depth) :
    flatten σ compressDepth = some (cachedTo σ compressDepth compressDepth) := by
  rw [flatten, cachedRoot_eq (by omega)]
  exact foldlM_absorbLevel (by omega) (Nat.le_refl _)

end Flatten

/-! ## The last two loops -/

section Bounds

variable (σ : State κ V) (ties : Ties) (maxLoadNum : Nat)

theorem descendLevel_cases (cached : Cached κ) (i : Nat) :
    (i < cached.nodes.length ∧ ∃ next, descendLevel σ ties maxLoadNum cached i = some next ∧
        next.nodes.length = cached.nodes.length) ∨
      (cached.nodes.length ≤ i ∧ descendLevel σ ties maxLoadNum cached i = none) := by
  rcases Nat.lt_or_ge i cached.nodes.length with hlt | hge
  · have habove : cached.nodes[i - 1]? = some cached.nodes[i - 1] := List.getElem?_eq_getElem _
    have hnodes : cached.nodes[i]? = some cached.nodes[i] := List.getElem?_eq_getElem hlt
    refine Or.inl ⟨hlt, ?_⟩
    simp only [descendLevel, capLevel, habove, hnodes, Option.bind_eq_bind, Option.bind_some,
      List.getElem?_set_self hlt, Option.some.injEq, exists_eq_left', List.length_set]
  · refine Or.inr ⟨hge, ?_⟩
    have hnodes : cached.nodes[i]? = none := List.getElem?_eq_none hge
    simp only [descendLevel, hnodes, Option.bind_eq_bind, Option.bind_none, Option.bind_fun_none]

/-- The loop over `levels` stays inside `cached_nodes` if and only if all of them do. -/
theorem foldlM_descendLevel (levels : List Nat) (cached : Cached κ) :
    (∃ filled, levels.foldlM (descendLevel σ ties maxLoadNum) cached = some filled ∧
      filled.nodes.length = cached.nodes.length) ∧ (∀ i ∈ levels, i < cached.nodes.length) ∨
      levels.foldlM (descendLevel σ ties maxLoadNum) cached = none ∧
        ∃ i ∈ levels, cached.nodes.length ≤ i := by
  induction levels generalizing cached with
  | nil => exact Or.inl ⟨⟨cached, rfl, rfl⟩, by simp⟩
  | cons i levels ih =>
      rw [List.foldlM_cons]
      rcases descendLevel_cases σ ties maxLoadNum cached i with
        ⟨hlt, next, hnext, hlen⟩ | ⟨hge, hnone⟩
      · rw [hnext, Option.bind_eq_bind, Option.bind_some]
        rcases ih next with ⟨⟨filled, hfilled, hlen'⟩, hall⟩ | ⟨hnone, j, hj, hge⟩
        · refine Or.inl ⟨⟨filled, hfilled, hlen'.trans hlen⟩, ?_⟩
          intro j hj
          rcases List.mem_cons.mp hj with rfl | hmem
          · exact hlt
          · exact hlen ▸ hall j hmem
        · exact Or.inr ⟨hnone, j, List.mem_cons_of_mem _ hj, hlen ▸ hge⟩
      · rw [hnone]
        exact Or.inr ⟨rfl, i, List.mem_cons_self, hge⟩

theorem mapM_printLevel (levels : List Nat) {cached : Cached κ} (compressDepth : Nat)
    (hall : ∀ i ∈ levels, i < cached.nodes.length) :
    ∃ lines, levels.mapM (printLevel σ cached compressDepth) = some lines := by
  induction levels with
  | nil => exact ⟨[], rfl⟩
  | cons i levels ih =>
      obtain ⟨lines, hlines⟩ := ih fun j hj => hall j (List.mem_cons_of_mem _ hj)
      have hlt := hall i List.mem_cons_self
      have hnodes : cached.nodes[i]? = some cached.nodes[i] := List.getElem?_eq_getElem hlt
      simp [List.mapM_cons, hlines, printLevel, hnodes]

end Bounds

theorem Copy.mem_levelsFrom {copy : Copy} {depth first i : Nat} :
    i ∈ copy.levelsFrom depth first ↔ first ≤ i ∧ i < copy.levelsEnd depth := by
  rw [Copy.levelsFrom, List.mem_range'_1]
  omega

/-- The loops stay inside `cached_nodes` in the copies that stop at `i < depth - 1`,
and in no other. -/
theorem load2switch_index_safe_iff (copy : Copy) (σ : State κ V) (ties : Ties)
    (maxLoadNum compressDepth : Nat) (hdepth : compressDepth + 2 ≤ σ.depth) :
    (load2switch copy σ ties maxLoadNum compressDepth).isSome = true ↔ copy ≠ .backend := by
  let cached := cachedTo σ compressDepth compressDepth
  have hkeys : cached.keys[compressDepth]? = some (levelKeys σ compressDepth) :=
    (cachedTo_keys (by omega)).trans (by rw [if_pos (Nat.le_refl _)])
  have hnodes : cached.nodes[compressDepth]? = some (levelNodes σ compressDepth) :=
    (cachedTo_nodes (by omega)).trans (by rw [if_pos (Nat.le_refl _)])
  let capped : Cached κ :=
    { cached with
      nodes := cached.nodes.set compressDepth
        (capLayer σ ties maxLoadNum compressDepth (levelNodes σ compressDepth)) }
  have hlen : capped.nodes.length = σ.depth - 1 := by
    simp [capped, cached, cachedTo]
  have hcapped : capLevel σ ties maxLoadNum compressDepth cached = some capped := by
    simp only [capLevel, hnodes, Option.bind_eq_bind, Option.bind_some, capped]
  simp only [load2switch, flatten_eq hdepth, Option.bind_eq_bind, Option.bind_some, hkeys, hnodes,
    hcapped, cached]
  rcases foldlM_descendLevel σ ties maxLoadNum (copy.levelsFrom σ.depth (compressDepth + 1))
    capped with ⟨⟨filled, hfilled, hlen'⟩, hall⟩ | ⟨hnone, i, hi, hge⟩
  · have hcopy : copy ≠ .backend := by
      rintro rfl
      have hlast := hall (σ.depth - 1) (Copy.mem_levelsFrom.mpr
        ⟨by omega, by simp only [Copy.levelsEnd]; omega⟩)
      omega
    have hend : copy.levelsEnd σ.depth = σ.depth - 1 := by
      cases copy with
      | backend => exact absurd rfl hcopy
      | frontend => rfl
      | rdma => rfl
    have hprinted : ∀ i ∈ copy.levelsFrom σ.depth compressDepth, i < filled.nodes.length := by
      intro i hi
      have hrange := Copy.mem_levelsFrom.mp hi
      omega
    obtain ⟨lines, hlines⟩ := mapM_printLevel σ _ compressDepth hprinted
    simp [hfilled, hlines, hcopy]
  · rw [hnone]
    have hrange := Copy.mem_levelsFrom.mp hi
    cases copy with
    | backend => simp
    | frontend => simp only [Copy.levelsEnd] at hrange; omega
    | rdma => simp only [Copy.levelsEnd] at hrange; omega

/-- The RDMA copy on a tree of three levels. -/
theorem load2switch_index_safe_three_levels :
    ∃ σ, Reaches 16 Rdma.rdma ((List.range 136).map fun i => .insert i ()) σ ∧
      (load2switch (κ := Nat) .rdma σ ⟨fun _ n => n, fun _ n => n⟩ 100 1).isSome = true := by
  have hrun : (run 16 Rdma.rdma ((List.range 136).map fun i => .insert i ())
      (State.empty : State Nat Unit)).map State.depth = some 3 := by
    decide +kernel
  obtain ⟨σ, hσ, hdepth⟩ := Option.map_eq_some_iff.mp hrun
  exact ⟨σ, hσ, (load2switch_index_safe_iff .rdma σ _ 100 1 hdepth.ge).mpr (by decide)⟩

/-- The backend copy on a tree of three levels. -/
theorem load2switch_index_unsafe :
    ∃ σ, Reaches 16 Ethernet.ethernet ((List.range 136).map fun i => .insert i []) σ ∧
      1 + 2 ≤ σ.depth ∧
      (load2switch (κ := Nat) .backend σ ⟨fun _ n => n, fun _ n => n⟩ 100 1).isSome
        = false := by
  have hrun : (run 16 Ethernet.ethernet ((List.range 136).map fun i => .insert i [])
      (State.empty : State Nat Ethernet.FieldTable)).map (fun σ => (σ.depth,
        (load2switch .backend σ ⟨fun _ n => n, fun _ n => n⟩ 100 1).isSome))
        = some (3, false) := by
    decide +kernel
  obtain ⟨σ, hσ, hboth⟩ := Option.map_eq_some_iff.mp hrun
  obtain ⟨hdepth, hunsafe⟩ := Prod.mk.inj hboth
  exact ⟨σ, hσ, hdepth.ge, hunsafe⟩

end FatBTree.Switch
