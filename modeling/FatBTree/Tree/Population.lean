import FatBTree.Tree.Inventory
import Mathlib.Algebra.Order.BigOperators.Group.Finset

/-!
# The number of nodes

Every node but the root is the child of exactly one node.  With nodes that are at least
half full there is room for about one tree node in eight children, so the insertions
that allocate a value node each allocate few others.
-/

namespace FatBTree.Tree

open FatBTree.Order

variable {κ V : Type} [LinearOrder κ] [Inhabited V]

/-! ## Counting children -/

section Shape

variable {σ : State κ V} {dist : Nat → Nat}

omit [LinearOrder κ] in
/-- The children of all nodes are all nodes but the root. -/
theorem Shape.sum_children (shape : Shape σ dist) :
    ∑ n ∈ Finset.range σ.nbNode, (σ.pool n).child.length + 1 = σ.nbNode := by
  have hunion : (Finset.range σ.nbNode).biUnion (fun n => (σ.pool n).child.toFinset) =
      (Finset.range σ.nbNode).erase root := by
    ext c
    simp only [Finset.mem_biUnion, Finset.mem_range, List.mem_toFinset, Finset.mem_erase]
    constructor
    · rintro ⟨n, -, hchild⟩
      exact ⟨shape.child_ne_root n c hchild, shape.child_lt n c hchild⟩
    · rintro ⟨hne, hlt⟩
      obtain ⟨n, hchild⟩ := shape.owned c hlt hne
      exact ⟨n, shape.lt_of_mem_child hchild, hchild⟩
  have hdisjoint : ((Finset.range σ.nbNode : Finset Nat) : Set Nat).PairwiseDisjoint
      (fun n => (σ.pool n).child.toFinset) := by
    intro n _ m _ hne
    simp only [Function.onFun, Finset.disjoint_left, List.mem_toFinset]
    exact fun c hn hm => hne (shape.unique n m c hn hm)
  have hcard := Finset.card_biUnion hdisjoint
  have hlength : ∀ n ∈ Finset.range σ.nbNode,
      (σ.pool n).child.toFinset.card = (σ.pool n).child.length :=
    fun n _ => List.toFinset_card_of_nodup (shape.nodup n)
  rw [hunion, Finset.card_erase_of_mem (Finset.mem_range.mpr shape.root_lt), Finset.card_range,
    Finset.sum_congr rfl hlength] at hcard
  have hroot := shape.root_lt
  omega

end Shape

/-- The nodes that hold no value. -/
def treeNodes (σ : State κ V) : Finset Nat :=
  (Finset.range σ.nbNode).filter fun n => (σ.pool n).isValue = false

section Counts

variable {variant : Variant V} {M : Nat} [NodeOrder M] {w : World κ V} {history : List (κ × V)}
  {entries : Entries κ V}

omit [NodeOrder M] in
/-- There is one value node for each insertion. -/
theorem Records.card_treeNodes (records : Records variant w entries)
    (sound : Sound M w history) :
    entries.length + (treeNodes w.state).card = w.state.nbNode := by
  have hvalues : (Finset.range w.state.nbNode).filter (fun n => (w.state.pool n).isValue = true) =
      (entries.map Prod.snd).toFinset := by
    ext n
    rw [Finset.mem_filter, Finset.mem_range, List.mem_toFinset]
    constructor
    · exact fun hn => records.complete n hn.2
    · intro hn
      obtain ⟨entry, hentry, rfl⟩ := List.mem_map.mp hn
      exact sound.lt_of_valueNodeOf (records.hangs entry hentry)
  have hcard : ((Finset.range w.state.nbNode).filter
      (fun n => (w.state.pool n).isValue = true)).card = entries.length := by
    rw [hvalues, List.toFinset_card_of_nodup records.distinct, List.length_map]
  have hsplit := Finset.card_filter_add_card_filter_not (s := Finset.range w.state.nbNode)
    (fun n => (w.state.pool n).isValue = true)
  rw [hcard, Finset.card_range] at hsplit
  simpa only [treeNodes, Bool.not_eq_true] using hsplit

omit [LinearOrder κ] in
/-- Tree nodes other than the root have at least `M / 2` children. -/
theorem Occupied.half_le_children (occupied : Occupied M w) (shape : Shape w.state w.dist)
    {n : Nat} (hlt : n < w.state.nbNode) (hval : (w.state.pool n).isValue = false)
    (hroot : n ≠ root) : M / 2 ≤ (w.state.pool n).child.length := by
  have hM := NodeOrder.four_le (M := M)
  have hleast := occupied.filled n hlt hval hroot hroot
  cases hleaf : (w.state.pool n).isLeaf with
  | true =>
      rw [leastKeys, if_pos hleaf] at hleast
      rw [shape.leaf_arity n hleaf]
      exact hleast
  | false =>
      rw [leastKeys, if_neg (by simp [hleaf])] at hleast
      rw [shape.inner_arity n ⟨hleaf, hval⟩]
      omega

/-- The insertions pay for the tree nodes. -/
theorem Occupied.card_treeNodes_le (occupied : Occupied M w) (sound : Sound M w history)
    (records : Records variant w entries) :
    (M / 2 - 1) * ((treeNodes w.state).card - 1) ≤ entries.length := by
  have shape := sound.shape
  have hroot : root ∈ treeNodes w.state :=
    Finset.mem_filter.mpr ⟨Finset.mem_range.mpr shape.root_lt, shape.root_isValue⟩
  have hcount := records.card_treeNodes sound
  have hsum := shape.sum_children
  have hlower : ((treeNodes w.state).erase root).card * (M / 2) ≤
      ∑ n ∈ Finset.range w.state.nbNode, (w.state.pool n).child.length := by
    calc ((treeNodes w.state).erase root).card * (M / 2)
        ≤ ∑ n ∈ (treeNodes w.state).erase root, (w.state.pool n).child.length := by
          refine Finset.card_nsmul_le_sum _ _ _ fun n hn => ?_
          obtain ⟨hne, hmem⟩ := Finset.mem_erase.mp hn
          obtain ⟨hlt, hval⟩ := Finset.mem_filter.mp hmem
          exact occupied.half_le_children shape (Finset.mem_range.mp hlt) hval hne
      _ ≤ ∑ n ∈ Finset.range w.state.nbNode, (w.state.pool n).child.length := by
          refine Finset.sum_le_sum_of_subset ?_
          exact (Finset.erase_subset _ _).trans (Finset.filter_subset _ _)
  rw [Finset.card_erase_of_mem hroot] at hlower
  obtain ⟨half, hhalf⟩ : ∃ half, M / 2 = half + 1 :=
    Nat.exists_eq_succ_of_ne_zero (by have := NodeOrder.four_le (M := M); omega)
  have hpos : 1 ≤ (treeNodes w.state).card := Finset.card_pos.mpr ⟨root, hroot⟩
  rw [hhalf, Nat.mul_succ, Nat.mul_comm] at hlower
  rw [hhalf, Nat.add_sub_cancel]
  omega

end Counts

/-- `MAX_NODE_SIZE` of the Ethernet backend. -/
def maxNodeSizeEthernet : Nat := 100000000

/-- `MAX_NODE_SIZE` of the RDMA backend. -/
def maxNodeSizeRdma : Nat := 20000000

/-- Insertions into the empty tree allocate at most one tree node in seven, so the pools
have room for the given numbers of insertions. -/
theorem nbNode_le_of_inserts (variant : Variant V) (inserts : List (κ × V)) :
    ∃ σ, Reaches 16 variant (inserts.map fun kv => Call.insert kv.1 kv.2) σ ∧
      (∀ n c, c ∈ (σ.pool n).child → c < σ.nbNode) ∧
      σ.nbNode ≤ inserts.length + inserts.length / 7 + 1 ∧
      (inserts.length ≤ 87000000 → σ.nbNode ≤ maxNodeSizeEthernet) ∧
      (inserts.length ≤ 17000000 → σ.nbNode ≤ maxNodeSizeRdma) := by
  obtain ⟨w, history, entries, hrun, settled, occupied, records, hentries⟩ :=
    records_of_run variant (M := 16) inserts
  have hlen : entries.length = inserts.length := by rw [← hentries, List.length_map]
  have hcount := records.card_treeNodes settled.toSound
  have hle := occupied.card_treeNodes_le settled.toSound records
  have hbound : w.state.nbNode ≤ inserts.length + inserts.length / 7 + 1 := by omega
  refine ⟨w.state, hrun, settled.shape.child_lt, hbound, fun hmany => ?_, fun hmany => ?_⟩
  · rw [maxNodeSizeEthernet]
    omega
  · rw [maxNodeSizeRdma]
    omega

/-- The bound is attained. -/
example : (run 16 ⟨fun v _ => v, fun v _ => v, fun v => v⟩
    ((List.range 16).map fun i => .insert i ()) (State.empty : State Nat Unit)).map State.nbNode =
      some (16 + 16 / 7 + 1) := by
  decide +kernel

end FatBTree.Tree
