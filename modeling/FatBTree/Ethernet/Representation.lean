import FatBTree.Tree.Inventory
import FatBTree.Ethernet.MapSemantics

/-!
# The representation invariant without loaded nodes

Insertions alone make a B+ tree in the strict sense: balanced, at least half
full, sorted along its leaves, with one value node for every insertion.
-/

namespace FatBTree.Ethernet

open FatBTree.Order FatBTree.Tree

variable {κ : Type} [LinearOrder κ]

/-- A B+ tree of order 16 that holds one value node for each of the given
insertions. -/
structure Represents (σ : State κ FieldTable) (inserts : List (κ × FieldTable)) : Prop where
  leaf_arity : ∀ d n, Descends σ root d n → (σ.pool n).isLeaf = true →
    (σ.pool n).child.length = (σ.pool n).key.length ∧
      ∀ c ∈ (σ.pool n).child, (σ.pool c).isValue = true
  inner_arity : ∀ d n, Descends σ root d n → (σ.pool n).IsInner →
    (σ.pool n).child.length = (σ.pool n).key.length + 1
  capacity : ∀ d n, Descends σ root d n → (σ.pool n).key.length ≤ 15
  leaf_filled : ∀ d n, Descends σ root d n → n ≠ root → (σ.pool n).isLeaf = true →
    8 ≤ (σ.pool n).key.length
  inner_filled : ∀ d n, Descends σ root d n → n ≠ root → (σ.pool n).IsInner →
    7 ≤ (σ.pool n).key.length
  root_filled : (σ.pool root).IsInner → 1 ≤ (σ.pool root).key.length
  balanced : ∀ d n, Descends σ root d n → (σ.pool n).isLeaf = true → d + 1 = σ.depth
  sorted : Ascending (leafKeys σ)
  inventory : ∃ entries : Entries κ FieldTable, entries.map Prod.fst = inserts ∧
    (entries.map Prod.snd).Nodup ∧
    (leafPairs σ).Perm (entries.map fun entry => (entry.1.1, entry.2)) ∧
    ∀ entry ∈ entries, (σ.pool entry.2).val = updateFieldTable entry.1.2 []

theorem represents_of_records {w : World κ FieldTable} {history : List (κ × FieldTable)}
    {entries : Entries κ FieldTable} (settled : Settled 16 w history)
    (occupied : Occupied 16 w) (records : Records ethernet w entries) :
    Represents w.state (entries.map Prod.fst) := by
  have shape := settled.shape
  have hlt : ∀ {d n}, Descends w.state root d n → n < w.state.nbNode :=
    fun below => shape.lt_of_descends shape.root_lt below
  constructor
  case leaf_arity =>
    exact fun d n _ hleaf => ⟨shape.leaf_arity n hleaf, fun c hc => shape.leaf_child n c hleaf hc⟩
  case inner_arity => exact fun d n _ hinner => shape.inner_arity n hinner
  case capacity => exact fun d n _ => Nat.le_of_lt_succ (settled.small n)
  case leaf_filled =>
    intro d n below hroot hleaf
    have hval : (w.state.pool n).isValue = false := shape.isValue_of_isLeaf hleaf
    have hleast := occupied.filled n (hlt below) hval hroot hroot
    rwa [leastKeys, if_pos hleaf] at hleast
  case inner_filled =>
    intro d n below hroot hinner
    have hleast := occupied.filled n (hlt below) hinner.2 hroot hroot
    rwa [leastKeys, if_neg (by simp [hinner.1])] at hleast
  case root_filled => exact occupied.rootFilled
  case balanced =>
    intro d n below hleaf
    have hdist := shape.dist_of_descends below
    rw [shape.dist_root, Nat.zero_add] at hdist
    rw [← hdist]
    exact occupied.level n (hlt below) hleaf
  case sorted => exact (settled.ordered.ascending_leavesFrom shape shape.root_isValue).1
  case inventory =>
    exact ⟨entries, rfl, records.distinct, records.leafPairs_perm settled.toSound occupied,
      records.val⟩

/-- After any sequence of insertions into the empty tree the tree is a B+ tree
that has lost and duplicated nothing. -/
theorem represents_of_inserts (inserts : List (κ × FieldTable)) :
    ∃ σ, Reaches 16 ethernet (inserts.map fun kv => Call.insert kv.1 kv.2) σ ∧
      Represents σ inserts := by
  obtain ⟨w, history, entries, hreach, hsettled, hoccupied, hrecords, hentries⟩ :=
    records_of_run ethernet (M := 16) inserts
  refine ⟨w.state, hreach, ?_⟩
  rw [← hentries]
  exact represents_of_records hsettled hoccupied hrecords

end FatBTree.Ethernet
