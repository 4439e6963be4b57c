import FatBTree.Tree.Overflow
import Mathlib.Data.List.InsertIdx
import Mathlib.Data.List.Nodup

/-!
# The pool is a tree

Every allocated node other than the root is in exactly one child list, leaves
hold value nodes and inner nodes hold the rest, and the parent pointers that
`overflow` follows are exact.  The parent pointer of a value node is not part
of the invariant: a leaf split leaves it behind.
-/

namespace FatBTree.Tree

open FatBTree.Order

variable {κ V : Type} [LinearOrder κ] [Inhabited V]

/-- Neither a leaf nor a value node. -/
def Node.IsInner (node : Node κ V) : Prop :=
  node.isLeaf = false ∧ node.isValue = false

/-- `dist n` is the number of edges from the root to `n`. -/
structure Shape (σ : State κ V) (dist : Nat → Nat) : Prop where
  root_lt : root < σ.nbNode
  fresh : ∀ n, σ.nbNode ≤ n → σ.pool n = Node.fresh
  root_isValue : (σ.pool root).isValue = false
  root_parent : (σ.pool root).parent = none
  child_lt : ∀ n c, c ∈ (σ.pool n).child → c < σ.nbNode
  child_ne_root : ∀ n c, c ∈ (σ.pool n).child → c ≠ root
  nodup : ∀ n, (σ.pool n).child.Nodup
  unique : ∀ n m c, c ∈ (σ.pool n).child → c ∈ (σ.pool m).child → n = m
  parent_eq : ∀ n c, c ∈ (σ.pool n).child → (σ.pool c).isValue = false →
    (σ.pool c).parent = some n
  owned : ∀ c, c < σ.nbNode → c ≠ root → ∃ n, c ∈ (σ.pool n).child
  value_bare : ∀ n, (σ.pool n).isValue = true →
    (σ.pool n).isLeaf = false ∧ (σ.pool n).key = [] ∧ (σ.pool n).child = []
  leaf_child : ∀ n c, (σ.pool n).isLeaf = true → c ∈ (σ.pool n).child →
    (σ.pool c).isValue = true
  inner_child : ∀ n c, (σ.pool n).IsInner → c ∈ (σ.pool n).child →
    (σ.pool c).isValue = false
  leaf_arity : ∀ n, (σ.pool n).isLeaf = true →
    (σ.pool n).child.length = (σ.pool n).key.length
  inner_arity : ∀ n, (σ.pool n).IsInner →
    (σ.pool n).child.length = (σ.pool n).key.length + 1
  dist_root : dist root = 0
  dist_child : ∀ n c, c ∈ (σ.pool n).child → dist c = dist n + 1

namespace Shape

variable {σ : State κ V} {dist : Nat → Nat}

section

omit [LinearOrder κ]

theorem lt_of_mem_child (shape : Shape σ dist) {n c : Nat}
    (hc : c ∈ (σ.pool n).child) : n < σ.nbNode := by
  by_contra hge
  rw [shape.fresh n (Nat.le_of_not_lt hge)] at hc
  simp at hc

/-- A leaf is not a value node. -/
theorem isValue_of_isLeaf (shape : Shape σ dist) {n : Nat} (hleaf : (σ.pool n).isLeaf = true) :
    (σ.pool n).isValue = false := by
  by_contra hvalue
  have hbare := (shape.value_bare n (by simpa using hvalue)).1
  simp [hleaf] at hbare

theorem ne_of_mem_child (shape : Shape σ dist) {n c : Nat}
    (hc : c ∈ (σ.pool n).child) : c ≠ n := by
  intro heq
  have hdist := shape.dist_child n c hc
  rw [heq] at hdist
  omega

end

end Shape

omit [LinearOrder κ] in
theorem shape_empty : Shape (State.empty : State κ V) (fun _ => 0) := by
  constructor <;> simp [State.empty, Node.fresh, Node.IsInner]

/-! ## Inserting into a leaf -/

section InsertIntoLeaf

variable (variant : Variant V) {σ : State κ V} {dist : Nat → Nat} {cur : Nat} (k : κ) (v : V)

section

omit [Inhabited V]

@[simp]
theorem insertIntoLeaf_nbNode :
    (insertIntoLeaf variant σ cur k v).nbNode = σ.nbNode + 1 := rfl

@[simp]
theorem insertIntoLeaf_depth :
    (insertIntoLeaf variant σ cur k v).depth = σ.depth := rfl

/-- The node at each address after the insertion. -/
theorem insertIntoLeaf_pool (variant : Variant V) (σ : State κ V) (cur : Nat) (k : κ) (v : V)
    (n : Nat) :
    (insertIntoLeaf variant σ cur k v).pool n =
      if n = σ.nbNode then
        { σ.pool n with
          isLeaf := false
          isValue := true
          parent := some cur
          val := variant.storeVal v (σ.pool n).val }
      else if n = cur then
        { σ.pool n with
          key := (σ.pool n).key.insertIdx (lowerBound (σ.pool n).key k) k
          child := (σ.pool n).child.insertIdx (lowerBound (σ.pool n).key k) σ.nbNode }
      else σ.pool n := by
  simp only [insertIntoLeaf, Function.update_apply]
  split
  · next hnew => rw [hnew]
  · split
    · next hcur => rw [hcur]
    · rfl

theorem insertIntoLeaf_pool_cur (hlt : cur < σ.nbNode) :
    (insertIntoLeaf variant σ cur k v).pool cur =
      { σ.pool cur with
        key := (σ.pool cur).key.insertIdx (lowerBound (σ.pool cur).key k) k
        child := (σ.pool cur).child.insertIdx (lowerBound (σ.pool cur).key k) σ.nbNode } := by
  rw [insertIntoLeaf_pool, if_neg (by omega), if_pos rfl]

theorem insertIntoLeaf_pool_other {n : Nat} (hnew : n ≠ σ.nbNode) (hcur : n ≠ cur) :
    (insertIntoLeaf variant σ cur k v).pool n = σ.pool n := by
  rw [insertIntoLeaf_pool, if_neg hnew, if_neg hcur]

theorem insertIntoLeaf_isLeaf (variant : Variant V) (σ : State κ V) (cur : Nat) (k : κ) (v : V)
    (n : Nat) :
    ((insertIntoLeaf variant σ cur k v).pool n).isLeaf =
      if n = σ.nbNode then false else (σ.pool n).isLeaf := by
  rw [insertIntoLeaf_pool variant σ cur k v]
  split_ifs <;> rfl

theorem insertIntoLeaf_isValue (variant : Variant V) (σ : State κ V) (cur : Nat) (k : κ) (v : V)
    (n : Nat) :
    ((insertIntoLeaf variant σ cur k v).pool n).isValue =
      if n = σ.nbNode then true else (σ.pool n).isValue := by
  rw [insertIntoLeaf_pool variant σ cur k v]
  split_ifs <;> rfl

end

/-- The only new edge leads from the leaf to the value node. -/
theorem Shape.mem_child_insertIntoLeaf (shape : Shape σ dist) (hlt : cur < σ.nbNode)
    (hleaf : (σ.pool cur).isLeaf = true) (n c : Nat) :
    c ∈ ((insertIntoLeaf variant σ cur k v).pool n).child ↔
      c ∈ (σ.pool n).child ∨ (n = cur ∧ c = σ.nbNode) := by
  have hpos : lowerBound (σ.pool cur).key k ≤ (σ.pool cur).child.length := by
    rw [shape.leaf_arity cur hleaf]
    exact lowerBound_le_length _ _
  rw [insertIntoLeaf_pool variant σ cur k v]
  split_ifs with hnew hcur
  · subst hnew
    rw [shape.fresh _ (Nat.le_refl _)]
    simp
    omega
  · subst hcur
    simp only [List.mem_insertIdx hpos, true_and]
    exact or_comm
  · simp [hcur]

theorem Shape.insertIntoLeaf_preserves (shape : Shape σ dist) (hlt : cur < σ.nbNode)
    (hleaf : (σ.pool cur).isLeaf = true) :
    Shape (insertIntoLeaf variant σ cur k v)
      (Function.update dist σ.nbNode (dist cur + 1)) := by
  have hpool := insertIntoLeaf_pool variant σ cur k v
  have hedge := shape.mem_child_insertIntoLeaf variant k v hlt hleaf
  have hkind := insertIntoLeaf_isLeaf variant σ cur k v
  have hvalue := insertIntoLeaf_isValue variant σ cur k v
  have hlen : lowerBound (σ.pool cur).key k ≤ (σ.pool cur).key.length :=
    lowerBound_le_length _ _
  have hbare : σ.pool σ.nbNode = Node.fresh := shape.fresh _ (Nat.le_refl _)
  have hchild := shape.child_lt
  have hroot := shape.root_lt
  constructor
  case root_lt => simp
  case fresh =>
    intro n hn
    rw [insertIntoLeaf_nbNode] at hn
    rw [hpool, if_neg (by omega), if_neg (by omega)]
    exact shape.fresh n (by omega)
  case root_isValue =>
    rw [hvalue, if_neg (by omega)]
    exact shape.root_isValue
  case root_parent =>
    rw [hpool, if_neg (by omega)]
    split_ifs <;> exact shape.root_parent
  case child_lt =>
    intro n c hc
    rw [insertIntoLeaf_nbNode]
    rcases (hedge n c).mp hc with hold | ⟨-, rfl⟩
    · have := hchild n c hold
      omega
    · omega
  case child_ne_root =>
    intro n c hc
    rcases (hedge n c).mp hc with hold | ⟨-, rfl⟩
    · exact shape.child_ne_root n c hold
    · omega
  case nodup =>
    intro n
    rw [hpool]
    split_ifs with hnew hcur
    · exact shape.nodup n
    · subst hcur
      rw [← shape.leaf_arity n hleaf] at hlen
      rw [(List.perm_insertIdx _ _ hlen).nodup_iff]
      refine List.nodup_cons.mpr ⟨fun hmem => ?_, shape.nodup n⟩
      exact absurd (hchild _ _ hmem) (Nat.lt_irrefl _)
    · exact shape.nodup n
  case unique =>
    intro n m c hn hm
    rcases (hedge n c).mp hn with hn' | ⟨rfl, rfl⟩
    · rcases (hedge m c).mp hm with hm' | ⟨rfl, rfl⟩
      · exact shape.unique n m c hn' hm'
      · exact absurd (hchild _ _ hn') (Nat.lt_irrefl _)
    · rcases (hedge m _).mp hm with hm' | ⟨rfl, -⟩
      · exact absurd (hchild _ _ hm') (Nat.lt_irrefl _)
      · rfl
  case parent_eq =>
    intro n c hc hval
    rw [hvalue] at hval
    rcases (hedge n c).mp hc with hold | ⟨rfl, rfl⟩
    · have hne : c ≠ σ.nbNode := Nat.ne_of_lt (hchild n c hold)
      rw [if_neg hne] at hval
      have hparent := shape.parent_eq n c hold hval
      rw [hpool, if_neg hne]
      split_ifs <;> exact hparent
    · simp at hval
  case owned =>
    intro c hc hne
    rw [insertIntoLeaf_nbNode] at hc
    by_cases hnew : c = σ.nbNode
    · exact ⟨cur, (hedge cur c).mpr (Or.inr ⟨rfl, hnew⟩)⟩
    · obtain ⟨n, hn⟩ := shape.owned c (by omega) hne
      exact ⟨n, (hedge n c).mpr (Or.inl hn)⟩
  case value_bare =>
    intro n hn
    rw [hvalue] at hn
    rw [hpool]
    split_ifs at hn ⊢ with hnew hcur
    · subst hnew
      simp [hbare]
    · subst hcur
      simp [(shape.value_bare n hn).1] at hleaf
    · exact shape.value_bare n hn
  case leaf_child =>
    intro n c hn hc
    rw [hkind] at hn
    rw [hvalue]
    split_ifs at hn ⊢ with hnew
    · rfl
    · rcases (hedge n c).mp hc with hold | ⟨-, rfl⟩
      · exact shape.leaf_child n c hn hold
      · exact absurd rfl hnew
  case inner_child =>
    intro n c hn hc
    obtain ⟨hnleaf, hnval⟩ := hn
    rw [hkind] at hnleaf
    rw [hvalue] at hnval ⊢
    split_ifs at hnleaf hnval ⊢ with hnew
    · rcases (hedge n c).mp hc with hold | ⟨rfl, -⟩
      · exact absurd (hchild n c hold) (by omega)
      · simp [hnleaf] at hleaf
    · rcases (hedge n c).mp hc with hold | ⟨-, rfl⟩
      · exact shape.inner_child n c ⟨hnleaf, hnval⟩ hold
      · exact absurd rfl hnew
  case leaf_arity =>
    intro n hn
    rw [hkind] at hn
    rw [hpool]
    split_ifs at hn ⊢ with hnew hcur
    · subst hcur
      have := shape.leaf_arity n hn
      simp only [List.length_insertIdx]
      grind
    · exact shape.leaf_arity n hn
  case inner_arity =>
    intro n hn
    obtain ⟨hnleaf, hnval⟩ := hn
    rw [hkind] at hnleaf
    rw [hvalue] at hnval
    rw [hpool]
    split_ifs at hnleaf hnval ⊢ with hnew hcur
    · subst hcur
      simp [hnleaf] at hleaf
    · exact shape.inner_arity n ⟨hnleaf, hnval⟩
  case dist_root =>
    rw [Function.update_of_ne (by omega)]
    exact shape.dist_root
  case dist_child =>
    intro n c hc
    rcases (hedge n c).mp hc with hold | ⟨rfl, rfl⟩
    · have hc' := hchild n c hold
      have hn' := shape.lt_of_mem_child hold
      rw [Function.update_of_ne (by omega), Function.update_of_ne (by omega)]
      exact shape.dist_child n c hold
    · rw [Function.update_self, Function.update_of_ne (by omega)]

end InsertIntoLeaf

section Origin

variable {σ : State κ V} {dist : Nat → Nat} {cur : Nat}

/-- The node whose edges a node has after a copy or a split of `cur`. -/
def origin (σ : State κ V) (cur n : Nat) : Nat :=
  if n = σ.nbNode then cur else n

section

omit [LinearOrder κ] [Inhabited V]

theorem origin_new : origin σ cur σ.nbNode = cur :=
  if_pos rfl

theorem origin_of_ne {n : Nat} (hne : n ≠ σ.nbNode) : origin σ cur n = n :=
  if_neg hne

theorem origin_lt (hlt : cur < σ.nbNode) {n : Nat} (hn : n < σ.nbNode + 1) :
    origin σ cur n < σ.nbNode := by
  rw [origin]
  split_ifs <;> omega

end

omit [LinearOrder κ] in
/-- The fresh node stands for `cur`, which is no value node either. -/
theorem Shape.isValue_origin (shape : Shape σ dist) (hval : (σ.pool cur).isValue = false)
    (n : Nat) : (σ.pool (origin σ cur n)).isValue = (σ.pool n).isValue := by
  rcases eq_or_ne n σ.nbNode with rfl | hne
  · rw [origin_new, hval, shape.fresh _ (Nat.le_refl _), Node.fresh_isValue]
  · rw [origin_of_ne hne]

end Origin

end FatBTree.Tree
