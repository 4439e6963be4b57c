import FatBTree.Tree.Shape
import Mathlib.Logic.Relation

/-!
# Copy-on-split

When a full node must keep its address, its content moves into a fresh node
one edge further down.
-/

namespace FatBTree.Tree

open FatBTree.Order

variable {κ V : Type} [Inhabited V]

/-- `n` is a strict descendant of `a`. -/
def Below (σ : State κ V) (a n : Nat) : Prop :=
  Relation.TransGen (fun m c => c ∈ (σ.pool m).child) a n

theorem Shape.dist_lt_of_below {σ : State κ V} {dist : Nat → Nat} (shape : Shape σ dist)
    {a n : Nat} (below : Below σ a n) : dist a < dist n := by
  induction below with
  | single hc =>
      rw [shape.dist_child _ _ hc]
      omega
  | tail _ hc ih =>
      rw [shape.dist_child _ _ hc]
      omega

/-- The parent of a strict descendant is the ancestor itself or below it. -/
theorem Shape.below_child_iff {σ : State κ V} {dist : Nat → Nat} (shape : Shape σ dist)
    {a n c : Nat} (hc : c ∈ (σ.pool n).child) : Below σ a c ↔ n = a ∨ Below σ a n := by
  constructor
  · intro below
    cases below with
    | single hc' => exact Or.inl (shape.unique n a c hc hc')
    | tail rest hc' => exact Or.inr (shape.unique n _ c hc hc' ▸ rest)
  · rintro (rfl | below)
    · exact .single hc
    · exact .tail below hc

section CopyDown

variable (variant : Variant V) {σ : State κ V} {dist : Nat → Nat} {cur : Nat}

omit [Inhabited V] in
@[simp]
theorem copyDown_nbNode : (copyDown variant σ cur).nbNode = σ.nbNode + 1 := rfl

omit [Inhabited V] in
theorem copyDown_depth :
    (copyDown variant σ cur).depth = if cur = root then σ.depth + 1 else σ.depth := rfl

/-- The node at each address after copy-on-split. -/
theorem Shape.copyDown_pool (shape : Shape σ dist) (hlt : cur < σ.nbNode) (n : Nat) :
    (copyDown variant σ cur).pool n =
      if n = cur then
        { σ.pool cur with
          isLeaf := false
          key := []
          val := variant.clearVal (σ.pool cur).val
          child := [σ.nbNode] }
      else if n = σ.nbNode then
        { σ.pool σ.nbNode with
          isLeaf := (σ.pool cur).isLeaf
          parent := some cur
          key := (σ.pool cur).key
          val := variant.copyVal (σ.pool cur).val (σ.pool σ.nbNode).val
          child := (σ.pool cur).child
          isLoaded2Switch := false }
      else if n ∈ (σ.pool cur).child then { σ.pool n with parent := some σ.nbNode }
      else σ.pool n := by
  have hcur : cur ∉ (σ.pool cur).child := fun h => shape.ne_of_mem_child h rfl
  have hnew : σ.nbNode ∉ (σ.pool cur).child :=
    fun h => Nat.lt_irrefl _ (shape.child_lt _ _ h)
  have hne : cur ≠ σ.nbNode := Nat.ne_of_lt hlt
  simp only [copyDown, adopt, Function.update_apply]
  by_cases h : n = cur
  · subst h
    simp [hcur, hne]
  · by_cases h' : n = σ.nbNode
    · subst h'
      simp [hnew, h]
    · simp [h, h']

theorem Shape.copyDown_pool_cur (shape : Shape σ dist) (hlt : cur < σ.nbNode) :
    (copyDown variant σ cur).pool cur =
      { σ.pool cur with
        isLeaf := false
        key := []
        val := variant.clearVal (σ.pool cur).val
        child := [σ.nbNode] } := by
  rw [shape.copyDown_pool variant hlt, if_pos rfl]

theorem Shape.copyDown_pool_new (shape : Shape σ dist) (hlt : cur < σ.nbNode) :
    (copyDown variant σ cur).pool σ.nbNode =
      { σ.pool σ.nbNode with
        isLeaf := (σ.pool cur).isLeaf
        parent := some cur
        key := (σ.pool cur).key
        val := variant.copyVal (σ.pool cur).val (σ.pool σ.nbNode).val
        child := (σ.pool cur).child
        isLoaded2Switch := false } := by
  rw [shape.copyDown_pool variant hlt, if_neg (Nat.ne_of_gt hlt), if_pos rfl]

/-- A node away from the copy keeps everything but its parent pointer. -/
theorem Shape.copyDown_pool_other (shape : Shape σ dist) (hlt : cur < σ.nbNode) {n : Nat}
    (hcur : n ≠ cur) (hnew : n ≠ σ.nbNode) :
    ∃ up, (copyDown variant σ cur).pool n = { σ.pool n with parent := up } := by
  rw [shape.copyDown_pool variant hlt, if_neg hcur, if_neg hnew]
  split
  · exact ⟨_, rfl⟩
  · exact ⟨(σ.pool n).parent, rfl⟩

/-- The fresh node stands between `cur` and its former children. -/
theorem Shape.mem_child_copyDown (shape : Shape σ dist) (hlt : cur < σ.nbNode) (n c : Nat) :
    c ∈ ((copyDown variant σ cur).pool n).child ↔
      (n = cur ∧ c = σ.nbNode) ∨ (n = σ.nbNode ∧ c ∈ (σ.pool cur).child) ∨
        (n ≠ cur ∧ c ∈ (σ.pool n).child) := by
  rw [shape.copyDown_pool variant hlt]
  split_ifs with hcur hnew hmem
  · subst hcur
    simp
    omega
  · subst hnew
    simp [hcur, shape.fresh _ (Nat.le_refl _)]
  · simp [hcur, hnew]
  · simp [hcur, hnew]

theorem Shape.copyDown_isLeaf (shape : Shape σ dist) (hlt : cur < σ.nbNode) (n : Nat) :
    ((copyDown variant σ cur).pool n).isLeaf =
      if n = cur then false
      else if n = σ.nbNode then (σ.pool cur).isLeaf else (σ.pool n).isLeaf := by
  rw [shape.copyDown_pool variant hlt]
  split_ifs <;> rfl

theorem Shape.copyDown_isValue (shape : Shape σ dist) (hlt : cur < σ.nbNode) (n : Nat) :
    ((copyDown variant σ cur).pool n).isValue = (σ.pool n).isValue := by
  rw [shape.copyDown_pool variant hlt]
  split_ifs with hcur hnew
  · rw [hcur]
  · rw [hnew]
  · rfl
  · rfl

/-- Copy-on-split pushes everything below `cur` one edge down. -/
noncomputable def copyDist (σ : State κ V) (dist : Nat → Nat) (cur n : Nat) : Nat :=
  open Classical in
  if n = σ.nbNode then dist cur + 1 else if Below σ cur n then dist n + 1 else dist n

theorem Shape.copyDist_cur (shape : Shape σ dist) (hlt : cur < σ.nbNode) :
    copyDist σ dist cur cur = dist cur := by
  have hself : ¬ Below σ cur cur := fun h => Nat.lt_irrefl _ (shape.dist_lt_of_below h)
  rw [copyDist, if_neg (by omega), if_neg hself]

omit [Inhabited V] in
theorem copyDist_new : copyDist σ dist cur σ.nbNode = dist cur + 1 := by
  rw [copyDist, if_pos rfl]

omit [Inhabited V] in
theorem le_copyDist {n : Nat} (hlt : n < σ.nbNode) : dist n ≤ copyDist σ dist cur n := by
  rw [copyDist, if_neg (by omega)]
  split_ifs <;> omega

/-! ## The tree after a copy -/

/-- Every edge but the one to the copy was there before, and none is left with `cur`. -/
theorem Shape.edge_copyDown (shape : Shape σ dist) (hlt : cur < σ.nbNode) {n c : Nat}
    (hc : c ∈ ((copyDown variant σ cur).pool n).child) :
    (n = cur ∧ c = σ.nbNode) ∨ (n ≠ cur ∧ c ∈ (σ.pool (origin σ cur n)).child) := by
  rcases (shape.mem_child_copyDown variant hlt n c).mp hc with hnew | ⟨rfl, h⟩ | ⟨hne, h⟩
  · exact Or.inl hnew
  · rw [origin_new]
    exact Or.inr ⟨Nat.ne_of_gt hlt, h⟩
  · rw [origin_of_ne (Nat.ne_of_lt (shape.lt_of_mem_child h))]
    exact Or.inr ⟨hne, h⟩

theorem Shape.isLeaf_copyDown (shape : Shape σ dist) (hlt : cur < σ.nbNode) {n : Nat}
    (hne : n ≠ cur) :
    ((copyDown variant σ cur).pool n).isLeaf = (σ.pool (origin σ cur n)).isLeaf := by
  rw [shape.copyDown_isLeaf variant hlt, if_neg hne, origin]
  split <;> rfl

theorem Shape.isInner_copyDown (shape : Shape σ dist) (hlt : cur < σ.nbNode)
    (hval : (σ.pool cur).isValue = false) {n : Nat} (hne : n ≠ cur) :
    ((copyDown variant σ cur).pool n).IsInner ↔ (σ.pool (origin σ cur n)).IsInner := by
  rw [Node.IsInner, Node.IsInner, shape.isLeaf_copyDown variant hlt hne,
    shape.copyDown_isValue variant hlt, shape.isValue_origin hval]

theorem Shape.key_copyDown (shape : Shape σ dist) (hlt : cur < σ.nbNode) {n : Nat}
    (hne : n ≠ cur) :
    ((copyDown variant σ cur).pool n).key = (σ.pool (origin σ cur n)).key := by
  rw [shape.copyDown_pool variant hlt, if_neg hne, origin]
  split_ifs <;> rfl

theorem Shape.child_copyDown (shape : Shape σ dist) (hlt : cur < σ.nbNode) {n : Nat}
    (hne : n ≠ cur) :
    ((copyDown variant σ cur).pool n).child = (σ.pool (origin σ cur n)).child := by
  rw [shape.copyDown_pool variant hlt, if_neg hne, origin]
  split_ifs <;> rfl

/-- `cur` is left without keys. -/
theorem Shape.ne_of_mem_key_copyDown (shape : Shape σ dist) (hlt : cur < σ.nbNode) {n : Nat}
    {x : κ} (hx : x ∈ ((copyDown variant σ cur).pool n).key) : n ≠ cur := by
  rintro rfl
  rw [shape.copyDown_pool_cur variant hlt] at hx
  cases hx

/-- A leaf after the copy is not `cur`. -/
theorem Shape.ne_of_isLeaf_copyDown (shape : Shape σ dist) (hlt : cur < σ.nbNode) {n : Nat}
    (hleaf : ((copyDown variant σ cur).pool n).isLeaf = true) : n ≠ cur := by
  rintro rfl
  rw [shape.copyDown_pool_cur variant hlt] at hleaf
  cases hleaf

/-- The only child of `cur` is the copy, and every other child was one before. -/
theorem Shape.child_cases_copyDown (shape : Shape σ dist) (hlt : cur < σ.nbNode) {n i c : Nat}
    (hc : ((copyDown variant σ cur).pool n).child[i]? = some c) :
    (n = cur ∧ i = 0 ∧ c = σ.nbNode) ∨
      (n ≠ cur ∧ c ≠ σ.nbNode ∧ (σ.pool (origin σ cur n)).child[i]? = some c) := by
  rcases eq_or_ne n cur with rfl | hne
  · rw [shape.copyDown_pool_cur variant hlt] at hc
    obtain ⟨hi, rfl⟩ := List.getElem?_eq_some_iff.mp hc
    exact Or.inl ⟨rfl, by simpa using hi, by simp⟩
  · rw [shape.child_copyDown variant hlt hne] at hc
    exact Or.inr ⟨hne, Nat.ne_of_lt (shape.child_lt _ _ (List.mem_of_getElem? hc)), hc⟩

theorem Shape.unique_copyDown (shape : Shape σ dist) (hlt : cur < σ.nbNode) {n m c : Nat}
    (hn : c ∈ ((copyDown variant σ cur).pool n).child)
    (hm : c ∈ ((copyDown variant σ cur).pool m).child) : n = m := by
  rcases shape.edge_copyDown variant hlt hn with ⟨rfl, hc⟩ | ⟨hne, h⟩
  · rcases shape.edge_copyDown variant hlt hm with ⟨rfl, -⟩ | ⟨-, h'⟩
    · rfl
    · exact absurd hc (Nat.ne_of_lt (shape.child_lt _ _ h'))
  · rcases shape.edge_copyDown variant hlt hm with ⟨-, hc⟩ | ⟨hne', h'⟩
    · exact absurd hc (Nat.ne_of_lt (shape.child_lt _ _ h))
    · have hsame := shape.unique _ _ _ h h'
      unfold origin at hsame
      split_ifs at hsame with hn' hm' hm'
      · exact hn'.trans hm'.symm
      · exact absurd hsame.symm hne'
      · exact absurd hsame hne
      · exact hsame

/-- The former children of `cur` get the copy as their parent. -/
theorem Shape.parent_copyDown (shape : Shape σ dist) (hlt : cur < σ.nbNode) {n c : Nat}
    (hc : c ∈ ((copyDown variant σ cur).pool n).child) (hval : (σ.pool c).isValue = false) :
    ((copyDown variant σ cur).pool c).parent = some n := by
  have hpool := shape.copyDown_pool variant hlt
  rcases (shape.mem_child_copyDown variant hlt n c).mp hc with
    ⟨rfl, rfl⟩ | ⟨rfl, h⟩ | ⟨hne, h⟩
  · rw [shape.copyDown_pool_new variant hlt]
  · have hcn := Nat.ne_of_lt (shape.child_lt _ _ h)
    rw [hpool, if_neg (shape.ne_of_mem_child h), if_neg hcn, if_pos h]
  · have hparent := shape.parent_eq n c h hval
    have hcn := Nat.ne_of_lt (shape.child_lt _ _ h)
    have hmem : c ∉ (σ.pool cur).child := fun h' => hne (shape.unique _ _ _ h h')
    rw [hpool]
    split_ifs with hcur
    · exact hcur ▸ hparent
    · exact hparent

theorem Shape.owned_copyDown (shape : Shape σ dist) (hlt : cur < σ.nbNode) {c : Nat}
    (hc : c < σ.nbNode + 1) (hne : c ≠ root) :
    ∃ n, c ∈ ((copyDown variant σ cur).pool n).child := by
  have hedge := fun n => shape.mem_child_copyDown variant hlt n c
  rcases Nat.lt_succ_iff_lt_or_eq.mp hc with hold | hnew
  · obtain ⟨n, hn⟩ := shape.owned c hold hne
    rcases eq_or_ne n cur with rfl | hcur
    · exact ⟨σ.nbNode, (hedge _).mpr (Or.inr (Or.inl ⟨rfl, hn⟩))⟩
    · exact ⟨n, (hedge n).mpr (Or.inr (Or.inr ⟨hcur, hn⟩))⟩
  · exact ⟨cur, (hedge cur).mpr (Or.inl ⟨rfl, hnew⟩)⟩

/-- What is below `cur` moves down together. -/
theorem Shape.copyDist_child (shape : Shape σ dist) (hlt : cur < σ.nbNode) {n c : Nat}
    (hc : c ∈ ((copyDown variant σ cur).pool n).child) :
    copyDist σ dist cur c = copyDist σ dist cur n + 1 := by
  rcases (shape.mem_child_copyDown variant hlt n c).mp hc with
    ⟨rfl, rfl⟩ | ⟨rfl, h⟩ | ⟨hne, h⟩
  · rw [copyDist_new, shape.copyDist_cur hlt]
  · have hcn := Nat.ne_of_lt (shape.child_lt _ _ h)
    rw [copyDist_new, copyDist, if_neg hcn, if_pos (.single h), shape.dist_child _ _ h]
  · have hcn := Nat.ne_of_lt (shape.child_lt _ _ h)
    have hnn := Nat.ne_of_lt (shape.lt_of_mem_child h)
    have hiff : Below σ cur c ↔ n = cur ∨ Below σ cur n := shape.below_child_iff h
    rw [copyDist, copyDist, if_neg hcn, if_neg hnn, shape.dist_child _ _ h]
    by_cases hbelow : Below σ cur n
    · rw [if_pos (hiff.mpr (Or.inr hbelow)), if_pos hbelow]
    · rw [if_neg fun h' => (hiff.mp h').elim hne hbelow, if_neg hbelow]

theorem Shape.copyDown_preserves (shape : Shape σ dist) (hlt : cur < σ.nbNode)
    (hval : (σ.pool cur).isValue = false) :
    Shape (copyDown variant σ cur) (copyDist σ dist cur) := by
  have hpool := shape.copyDown_pool variant hlt
  have hvalue := shape.copyDown_isValue variant hlt
  have hroot := shape.root_lt
  constructor
  case root_lt => simp
  case fresh =>
    intro n hn
    rw [copyDown_nbNode] at hn
    have hmem : n ∉ (σ.pool cur).child := by
      intro hc
      have hcn := shape.child_lt _ _ hc
      omega
    rw [hpool, if_neg (by omega), if_neg (by omega), if_neg hmem]
    exact shape.fresh n (by omega)
  case root_isValue =>
    rw [hvalue]
    exact shape.root_isValue
  case root_parent =>
    have hmem : root ∉ (σ.pool cur).child := fun h => shape.child_ne_root _ _ h rfl
    rw [hpool, if_neg (Nat.ne_of_lt hroot), if_neg hmem]
    split_ifs with hcur
    · exact hcur ▸ shape.root_parent
    · exact shape.root_parent
  case child_lt =>
    intro n c hc
    rw [copyDown_nbNode]
    rcases shape.edge_copyDown variant hlt hc with ⟨-, rfl⟩ | ⟨-, h⟩
    · exact Nat.lt_succ_self _
    · exact Nat.lt_succ_of_lt (shape.child_lt _ _ h)
  case child_ne_root =>
    intro n c hc
    rcases shape.edge_copyDown variant hlt hc with ⟨-, rfl⟩ | ⟨-, h⟩
    · exact (Nat.ne_of_lt hroot).symm
    · exact shape.child_ne_root _ _ h
  case nodup =>
    intro n
    rw [hpool]
    split_ifs with hcur hnew hmem
    · exact List.nodup_singleton _
    · exact shape.nodup cur
    · exact shape.nodup n
    · exact shape.nodup n
  case unique => exact fun n m c hn hm => shape.unique_copyDown variant hlt hn hm
  case parent_eq =>
    intro n c hc hcval
    rw [hvalue] at hcval
    exact shape.parent_copyDown variant hlt hc hcval
  case owned => exact fun c hc hne => shape.owned_copyDown variant hlt hc hne
  case value_bare =>
    intro n hn
    rw [hvalue] at hn
    have hne : n ≠ cur := by
      rintro rfl
      simp [hval] at hn
    have hnew : n ≠ σ.nbNode := by
      rintro rfl
      simp [shape.fresh _ (Nat.le_refl _)] at hn
    obtain ⟨up, hup⟩ := shape.copyDown_pool_other variant hlt hne hnew
    rw [hup]
    exact shape.value_bare n hn
  case leaf_child =>
    intro n c hn hc
    rw [hvalue]
    rcases shape.edge_copyDown variant hlt hc with ⟨rfl, -⟩ | ⟨hne, h⟩
    · rw [shape.copyDown_pool_cur variant hlt] at hn
      cases hn
    · rw [shape.isLeaf_copyDown variant hlt hne] at hn
      exact shape.leaf_child _ _ hn h
  case inner_child =>
    intro n c hn hc
    rw [hvalue]
    rcases shape.edge_copyDown variant hlt hc with ⟨-, rfl⟩ | ⟨hne, h⟩
    · rw [shape.fresh _ (Nat.le_refl _), Node.fresh_isValue]
    · exact shape.inner_child _ _ ((shape.isInner_copyDown variant hlt hval hne).mp hn) h
  case leaf_arity =>
    intro n hn
    rw [shape.copyDown_isLeaf variant hlt] at hn
    rw [hpool]
    split_ifs at hn ⊢
    · exact shape.leaf_arity cur hn
    · exact shape.leaf_arity n hn
    · exact shape.leaf_arity n hn
  case inner_arity =>
    intro n hn
    obtain ⟨hnleaf, hnval⟩ := hn
    rw [shape.copyDown_isLeaf variant hlt] at hnleaf
    rw [hvalue] at hnval
    rw [hpool]
    split_ifs at hnleaf ⊢
    · rfl
    · exact shape.inner_arity cur ⟨hnleaf, hval⟩
    · exact shape.inner_arity n ⟨hnleaf, hnval⟩
    · exact shape.inner_arity n ⟨hnleaf, hnval⟩
  case dist_root =>
    have hself : ¬ Below σ cur root := by
      intro hbelow
      have hdist := shape.dist_lt_of_below hbelow
      rw [shape.dist_root] at hdist
      exact Nat.not_lt_zero _ hdist
    rw [copyDist, if_neg (Nat.ne_of_lt hroot), if_neg hself]
    exact shape.dist_root
  case dist_child => exact fun n c hc => shape.copyDist_child variant hlt hc

end CopyDown

end FatBTree.Tree
