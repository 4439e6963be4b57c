import FatBTree.Tree.Shape

/-!
# Splitting a node

A full node keeps its first half and hands the rest to a new sibling, which is
linked into the parent together with a separator.
-/

namespace FatBTree.Tree

open FatBTree.Order

variable {κ V : Type} [LinearOrder κ] [Inhabited V]

/-- The number of children that stay with the left half. -/
def cutAt (M : Nat) (node : Node κ V) : Nat :=
  if node.isLeaf then M / 2 else M / 2 + 1

/-- What `cur` keeps in a split. -/
def leftHalf (M : Nat) (node : Node κ V) : Node κ V :=
  { node with key := node.key.take (M / 2), child := node.child.take (cutAt M node) }

/-- What the new sibling receives in a split. -/
def rightHalf (M : Nat) (node : Node κ V) : Node κ V :=
  { (Node.fresh : Node κ V) with
    parent := node.parent
    isLeaf := node.isLeaf
    key := node.key.drop (cutAt M node)
    child := node.child.drop (cutAt M node) }

section SplitNode

variable {M : Nat} {σ : State κ V} {dist : Nat → Nat} {cur parent : Nat}
  (probe separator : κ)

/-- Both branches of the split attach the two halves; the leaf branch inserts
the last key that stays, the inner branch the key between the halves. -/
theorem Shape.splitNode_eq (shape : Shape σ dist) (hM : 2 ≤ M)
    (hprobe : (σ.pool cur).key[M / 2]? = some probe)
    (hsep : (σ.pool cur).key[cutAt M (σ.pool cur) - 1]? = some separator) :
    splitNode M σ cur parent =
      some (attach σ cur (leftHalf M (σ.pool cur)) (rightHalf M (σ.pool cur)) parent
        probe separator) := by
  have hfresh : σ.pool σ.nbNode = Node.fresh := shape.fresh _ (Nat.le_refl _)
  have hlen := (List.getElem?_eq_some_iff.mp hprobe).1
  cases hleaf : (σ.pool cur).isLeaf with
  | true =>
      have hcut : cutAt M (σ.pool cur) = M / 2 := by simp [cutAt, hleaf]
      rw [hcut] at hsep
      have hback : ((σ.pool cur).key.take (M / 2)).getLast? = some separator := by
        rw [List.getLast?_take, if_neg (by omega), hsep]
        rfl
      have hfirst : ((σ.pool cur).key.drop (M / 2))[0]? = some probe := by
        simpa using hprobe
      simp [splitNode, hleaf, hfresh, hback, hprobe, leftHalf, rightHalf, hcut]
  | false =>
      have hcut : cutAt M (σ.pool cur) = M / 2 + 1 := by simp [cutAt, hleaf]
      rw [hcut, Nat.add_sub_cancel, hprobe] at hsep
      cases hsep
      simp [splitNode, hleaf, hfresh, hprobe, leftHalf, rightHalf, hcut]

/-- The state after the split of `cur` under `parent`. -/
abbrev afterSplit (M : Nat) (σ : State κ V) (cur parent : Nat) (probe separator : κ) :
    State κ V :=
  attach σ cur (leftHalf M (σ.pool cur)) (rightHalf M (σ.pool cur)) parent probe separator

/-- What `overflow` knows about the node it splits and about its parent. -/
structure Splittable (M : Nat) (σ : State κ V) (cur parent : Nat) : Prop where
  two_le : 2 ≤ M
  mem : cur ∈ (σ.pool parent).child
  parent_inner : (σ.pool parent).IsInner
  isValue : (σ.pool cur).isValue = false
  full : (σ.pool cur).key.length = M

theorem afterSplit_nbNode :
    (afterSplit M σ cur parent probe separator).nbNode = σ.nbNode + 1 := rfl

/-- The node at each address after the split. -/
theorem Shape.afterSplit_pool (shape : Shape σ dist) (hs : Splittable M σ cur parent)
    (n : Nat) :
    (afterSplit M σ cur parent probe separator).pool n =
      if n = parent then
        { σ.pool parent with
          key := (σ.pool parent).key.insertIdx
            (lowerBound (σ.pool parent).key probe) separator
          child := (σ.pool parent).child.insertIdx
            (lowerBound (σ.pool parent).key probe + 1) σ.nbNode }
      else if n = σ.nbNode then rightHalf M (σ.pool cur)
      else if n = cur then leftHalf M (σ.pool cur)
      else if (σ.pool cur).isLeaf = false ∧ n ∈ (rightHalf M (σ.pool cur)).child then
        { σ.pool n with parent := some σ.nbNode }
      else σ.pool n := by
  have hsub : ∀ c, c ∈ (rightHalf M (σ.pool cur)).child → c ∈ (σ.pool cur).child :=
    fun c hc => List.mem_of_mem_drop hc
  have hcur : cur ∉ (rightHalf M (σ.pool cur)).child :=
    fun h => shape.ne_of_mem_child (hsub _ h) rfl
  have hnew : σ.nbNode ∉ (rightHalf M (σ.pool cur)).child :=
    fun h => Nat.lt_irrefl _ (shape.child_lt _ _ (hsub _ h))
  have hparent : parent ∉ (rightHalf M (σ.pool cur)).child := fun h => by
    have hup := shape.dist_child _ _ (hsub _ h)
    have hdown := shape.dist_child _ _ hs.mem
    omega
  have hpn : parent ≠ σ.nbNode := Nat.ne_of_lt (shape.lt_of_mem_child hs.mem)
  have hpc : parent ≠ cur := (shape.ne_of_mem_child hs.mem).symm
  have hcn : cur ≠ σ.nbNode := Nat.ne_of_lt (shape.child_lt _ _ hs.mem)
  have hleft : (leftHalf M (σ.pool cur)).isLeaf = (σ.pool cur).isLeaf := rfl
  have hpool : ∀ m, splitPool σ cur (leftHalf M (σ.pool cur)) (rightHalf M (σ.pool cur)) m =
      if m = σ.nbNode then rightHalf M (σ.pool cur)
      else if m = cur then leftHalf M (σ.pool cur)
      else if (σ.pool cur).isLeaf = false ∧ m ∈ (rightHalf M (σ.pool cur)).child then
        { σ.pool m with parent := some σ.nbNode }
      else σ.pool m := by
    intro m
    cases hleaf : (σ.pool cur).isLeaf with
    | true => simp [splitPool, hleft, hleaf, Function.update_apply]
    | false =>
        by_cases h : m = σ.nbNode
        · simp [splitPool, adopt, hleft, hleaf, h, hnew]
        · by_cases h' : m = cur
          · simp [splitPool, adopt, hleft, hleaf, h', hcn, hcur]
          · simp [splitPool, adopt, hleft, hleaf, h, h']
  have hup : splitPool σ cur (leftHalf M (σ.pool cur)) (rightHalf M (σ.pool cur)) parent =
      σ.pool parent := by
    simp [hpool, hpn, hpc, hparent]
  simp only [afterSplit, attach, Function.update_apply, hup, hpool]

/-- A node away from the split keeps everything but its parent pointer. -/
theorem Shape.afterSplit_pool_other (shape : Shape σ dist) (hs : Splittable M σ cur parent)
    {n : Nat} (hp : n ≠ parent) (hnew : n ≠ σ.nbNode) (hcur : n ≠ cur) :
    ∃ up, (afterSplit M σ cur parent probe separator).pool n =
      { σ.pool n with parent := up } := by
  rw [shape.afterSplit_pool probe separator hs, if_neg hp, if_neg hnew, if_neg hcur]
  split
  · exact ⟨_, rfl⟩
  · exact ⟨(σ.pool n).parent, rfl⟩

theorem Shape.afterSplit_pool_new (shape : Shape σ dist) (hs : Splittable M σ cur parent) :
    (afterSplit M σ cur parent probe separator).pool σ.nbNode = rightHalf M (σ.pool cur) := by
  have hpn : parent ≠ σ.nbNode := Nat.ne_of_lt (shape.lt_of_mem_child hs.mem)
  rw [shape.afterSplit_pool probe separator hs, if_neg hpn.symm, if_pos rfl]

theorem Shape.afterSplit_pool_cur (shape : Shape σ dist) (hs : Splittable M σ cur parent) :
    (afterSplit M σ cur parent probe separator).pool cur = leftHalf M (σ.pool cur) := by
  have hpc : parent ≠ cur := (shape.ne_of_mem_child hs.mem).symm
  have hcn : cur ≠ σ.nbNode := Nat.ne_of_lt (shape.child_lt _ _ hs.mem)
  rw [shape.afterSplit_pool probe separator hs, if_neg hpc.symm, if_neg hcn, if_pos rfl]

theorem Shape.afterSplit_pool_parent (shape : Shape σ dist) (hs : Splittable M σ cur parent) :
    (afterSplit M σ cur parent probe separator).pool parent =
      { σ.pool parent with
        key := (σ.pool parent).key.insertIdx
          (lowerBound (σ.pool parent).key probe) separator
        child := (σ.pool parent).child.insertIdx
          (lowerBound (σ.pool parent).key probe + 1) σ.nbNode } := by
  rw [shape.afterSplit_pool probe separator hs, if_pos rfl]

theorem Shape.afterSplit_isLeaf (shape : Shape σ dist) (hs : Splittable M σ cur parent)
    (n : Nat) :
    ((afterSplit M σ cur parent probe separator).pool n).isLeaf =
      if n = σ.nbNode then (σ.pool cur).isLeaf else (σ.pool n).isLeaf := by
  by_cases hnew : n = σ.nbNode
  · rw [if_pos hnew, hnew, shape.afterSplit_pool_new probe separator hs]
    rfl
  · rw [if_neg hnew]
    by_cases hp : n = parent
    · rw [hp, shape.afterSplit_pool_parent probe separator hs]
    · by_cases hcur : n = cur
      · rw [hcur, shape.afterSplit_pool_cur probe separator hs]
        rfl
      · obtain ⟨up, hup⟩ := shape.afterSplit_pool_other probe separator hs hp hnew hcur
        rw [hup]

theorem Shape.afterSplit_isValue (shape : Shape σ dist) (hs : Splittable M σ cur parent)
    (n : Nat) :
    ((afterSplit M σ cur parent probe separator).pool n).isValue = (σ.pool n).isValue := by
  rw [shape.afterSplit_pool probe separator hs]
  split_ifs with hp hnew hcur
  · rw [hp]
  · rw [hnew, shape.fresh _ (Nat.le_refl _)]
    rfl
  · rw [hcur]
    rfl
  · rfl
  · rfl

/-- The split distributes the edges of `cur` over the halves and adds one. -/
theorem Shape.mem_child_afterSplit (shape : Shape σ dist) (hs : Splittable M σ cur parent)
    (n c : Nat) :
    c ∈ ((afterSplit M σ cur parent probe separator).pool n).child ↔
      (n = parent ∧ c = σ.nbNode) ∨ (n = cur ∧ c ∈ (leftHalf M (σ.pool cur)).child) ∨
        (n = σ.nbNode ∧ c ∈ (rightHalf M (σ.pool cur)).child) ∨
        (n ≠ cur ∧ c ∈ (σ.pool n).child) := by
  have hpn : parent ≠ σ.nbNode := Nat.ne_of_lt (shape.lt_of_mem_child hs.mem)
  have hpc : parent ≠ cur := (shape.ne_of_mem_child hs.mem).symm
  have hcn : cur ≠ σ.nbNode := Nat.ne_of_lt (shape.child_lt _ _ hs.mem)
  have hpos : lowerBound (σ.pool parent).key probe + 1 ≤ (σ.pool parent).child.length := by
    rw [shape.inner_arity parent hs.parent_inner]
    exact Nat.succ_le_succ (lowerBound_le_length _ _)
  rw [shape.afterSplit_pool probe separator hs]
  split_ifs with hp hnew hcur hmoved
  · subst hp
    simp [List.mem_insertIdx hpos, hpc, hpn]
  · subst hnew
    simp [hpn.symm, hcn.symm, shape.fresh _ (Nat.le_refl _)]
  · subst hcur
    simp [hp, hcn]
  · simp [hp, hnew, hcur]
  · simp [hp, hnew, hcur]

/-! ## The tree after a split -/

/-- Every edge but the one to the sibling was there before. -/
theorem Shape.edge_afterSplit (shape : Shape σ dist) (hs : Splittable M σ cur parent) {n c : Nat}
    (hc : c ∈ ((afterSplit M σ cur parent probe separator).pool n).child) :
    (n = parent ∧ c = σ.nbNode) ∨ c ∈ (σ.pool (origin σ cur n)).child := by
  have hcn : cur ≠ σ.nbNode := Nat.ne_of_lt (shape.child_lt _ _ hs.mem)
  rcases (shape.mem_child_afterSplit probe separator hs n c).mp hc with
    hnew | ⟨rfl, h⟩ | ⟨rfl, h⟩ | ⟨-, h⟩
  · exact Or.inl hnew
  · rw [origin_of_ne hcn]
    exact Or.inr (List.mem_of_mem_take h)
  · rw [origin_new]
    exact Or.inr (List.mem_of_mem_drop h)
  · rw [origin_of_ne (Nat.ne_of_lt (shape.lt_of_mem_child h))]
    exact Or.inr h

theorem Shape.isLeaf_origin (shape : Shape σ dist) (hs : Splittable M σ cur parent) (n : Nat) :
    ((afterSplit M σ cur parent probe separator).pool n).isLeaf =
      (σ.pool (origin σ cur n)).isLeaf := by
  rw [shape.afterSplit_isLeaf probe separator hs, origin]
  split <;> rfl

theorem Shape.isInner_origin (shape : Shape σ dist) (hs : Splittable M σ cur parent) {n : Nat} :
    ((afterSplit M σ cur parent probe separator).pool n).IsInner ↔
      (σ.pool (origin σ cur n)).IsInner := by
  rw [Node.IsInner, Node.IsInner, shape.isLeaf_origin probe separator hs,
    shape.afterSplit_isValue probe separator hs, shape.isValue_origin hs.isValue]

omit [LinearOrder κ] [Inhabited V] in
theorem update_dist_eq_origin (dist : Nat → Nat) (n : Nat) :
    Function.update dist σ.nbNode (dist cur) n = dist (origin σ cur n) := by
  rw [Function.update_apply, origin]
  split <;> rfl

omit [LinearOrder κ] in
theorem Shape.halves_disjoint (shape : Shape σ dist) {c : Nat}
    (hleft : c ∈ (leftHalf M (σ.pool cur)).child) : c ∉ (rightHalf M (σ.pool cur)).child := by
  intro hright
  have hnodup := shape.nodup cur
  rw [← List.take_append_drop (cutAt M (σ.pool cur)) (σ.pool cur).child] at hnodup
  exact (List.nodup_append.mp hnodup).2.2 c hleft c hright rfl

theorem Shape.unique_afterSplit (shape : Shape σ dist) (hs : Splittable M σ cur parent)
    {n m c : Nat} (hn : c ∈ ((afterSplit M σ cur parent probe separator).pool n).child)
    (hm : c ∈ ((afterSplit M σ cur parent probe separator).pool m).child) : n = m := by
  have hleft : c ∈ ((afterSplit M σ cur parent probe separator).pool cur).child →
      c ∉ ((afterSplit M σ cur parent probe separator).pool σ.nbNode).child := by
    rw [shape.afterSplit_pool_cur probe separator hs, shape.afterSplit_pool_new probe separator hs]
    exact shape.halves_disjoint
  rcases shape.edge_afterSplit probe separator hs hn with ⟨rfl, hc⟩ | h
  · rcases shape.edge_afterSplit probe separator hs hm with ⟨rfl, -⟩ | h'
    · rfl
    · exact absurd hc (Nat.ne_of_lt (shape.child_lt _ _ h'))
  · rcases shape.edge_afterSplit probe separator hs hm with ⟨-, hc⟩ | h'
    · exact absurd hc (Nat.ne_of_lt (shape.child_lt _ _ h))
    · have hsame := shape.unique _ _ _ h h'
      rcases eq_or_ne n σ.nbNode with rfl | hn'
      · rcases eq_or_ne m σ.nbNode with rfl | hm'
        · rfl
        · rw [origin_new, origin_of_ne hm'] at hsame
          exact absurd hn (hleft (hsame ▸ hm))
      · rcases eq_or_ne m σ.nbNode with rfl | hm'
        · rw [origin_new, origin_of_ne hn'] at hsame
          exact absurd hm (hleft (hsame ▸ hn))
        · rwa [origin_of_ne hn', origin_of_ne hm'] at hsame

/-- The children that move get the sibling as their parent. -/
theorem Shape.parent_afterSplit (shape : Shape σ dist) (hs : Splittable M σ cur parent)
    (hpar : (σ.pool cur).parent = some parent) {n c : Nat}
    (hc : c ∈ ((afterSplit M σ cur parent probe separator).pool n).child)
    (hval : (σ.pool c).isValue = false) :
    ((afterSplit M σ cur parent probe separator).pool c).parent = some n := by
  have hpool := shape.afterSplit_pool probe separator hs
  have hbelow : ∀ c, c ∈ (σ.pool cur).child → c ≠ parent ∧ c ≠ σ.nbNode ∧ c ≠ cur := by
    intro c hc
    have hup := shape.dist_child _ _ hc
    have hdown := shape.dist_child _ _ hs.mem
    refine ⟨?_, Nat.ne_of_lt (shape.child_lt _ _ hc), shape.ne_of_mem_child hc⟩
    rintro rfl
    omega
  rcases (shape.mem_child_afterSplit probe separator hs n c).mp hc with
    ⟨rfl, rfl⟩ | ⟨rfl, h⟩ | ⟨rfl, h⟩ | ⟨hne, h⟩
  · rw [shape.afterSplit_pool_new probe separator hs]
    exact hpar
  · have hold := List.mem_of_mem_take h
    obtain ⟨hcp, hcn, hself⟩ := hbelow c hold
    rw [hpool, if_neg hcp, if_neg hcn, if_neg hself, if_neg fun h' => shape.halves_disjoint h h'.2]
    exact shape.parent_eq _ _ hold hval
  · have hold := List.mem_of_mem_drop h
    obtain ⟨hcp, hcn, hself⟩ := hbelow c hold
    have hinner : (σ.pool cur).isLeaf = false := by
      cases hleaf : (σ.pool cur).isLeaf with
      | false => rfl
      | true =>
          have hvalue := shape.leaf_child _ _ hleaf hold
          rw [hval] at hvalue
          cases hvalue
    rw [hpool, if_neg hcp, if_neg hcn, if_neg hself, if_pos ⟨hinner, h⟩]
  · have hparent := shape.parent_eq n c h hval
    have hcn := Nat.ne_of_lt (shape.child_lt _ _ h)
    have hmem : c ∉ (rightHalf M (σ.pool cur)).child :=
      fun h' => hne (shape.unique _ _ _ h (List.mem_of_mem_drop h'))
    rw [hpool]
    split_ifs with hp hcur hmoved
    · exact hp ▸ hparent
    · exact hcur ▸ hparent
    · exact absurd hmoved.2 hmem
    · exact hparent

theorem Shape.nodup_afterSplit (shape : Shape σ dist) (hs : Splittable M σ cur parent) (n : Nat) :
    ((afterSplit M σ cur parent probe separator).pool n).child.Nodup := by
  rw [shape.afterSplit_pool probe separator hs]
  split_ifs with hp hnew hcur hmoved
  · have hpos : lowerBound (σ.pool parent).key probe + 1 ≤ (σ.pool parent).child.length := by
      rw [shape.inner_arity parent hs.parent_inner]
      exact Nat.succ_le_succ (lowerBound_le_length _ _)
    simp only [(List.perm_insertIdx _ _ hpos).nodup_iff]
    refine List.nodup_cons.mpr ⟨fun hmem => ?_, shape.nodup parent⟩
    exact absurd (shape.child_lt _ _ hmem) (Nat.lt_irrefl _)
  · exact (shape.nodup cur).sublist (List.drop_sublist _ _)
  · exact (shape.nodup cur).sublist (List.take_sublist _ _)
  · exact shape.nodup n
  · exact shape.nodup n

theorem Shape.owned_afterSplit (shape : Shape σ dist) (hs : Splittable M σ cur parent) {c : Nat}
    (hlt : c < σ.nbNode + 1) (hne : c ≠ root) :
    ∃ n, c ∈ ((afterSplit M σ cur parent probe separator).pool n).child := by
  have hedge := fun n => shape.mem_child_afterSplit probe separator hs n c
  rcases Nat.lt_succ_iff_lt_or_eq.mp hlt with hold | hnew
  · obtain ⟨n, hn⟩ := shape.owned c hold hne
    rcases eq_or_ne n cur with rfl | hcur
    · rw [← List.take_append_drop (cutAt M (σ.pool n)) (σ.pool n).child] at hn
      rcases List.mem_append.mp hn with h | h
      · exact ⟨n, (hedge n).mpr (Or.inr (Or.inl ⟨rfl, h⟩))⟩
      · exact ⟨σ.nbNode, (hedge _).mpr (Or.inr (Or.inr (Or.inl ⟨rfl, h⟩)))⟩
    · exact ⟨n, (hedge n).mpr (Or.inr (Or.inr (Or.inr ⟨hcur, hn⟩)))⟩
  · exact ⟨parent, (hedge parent).mpr (Or.inl ⟨rfl, hnew⟩)⟩

omit [LinearOrder κ] in
/-- Both halves of a leaf have a child for every key. -/
theorem leaf_halves {node : Node κ V} (hleaf : node.isLeaf = true)
    (harity : node.child.length = node.key.length) :
    (leftHalf M node).child.length = (leftHalf M node).key.length ∧
      (rightHalf M node).child.length = (rightHalf M node).key.length := by
  simp [leftHalf, rightHalf, cutAt, hleaf, harity]

omit [LinearOrder κ] in
/-- Both halves of a full inner node have one child more. -/
theorem inner_halves {node : Node κ V} (hM : 2 ≤ M) (hinner : node.isLeaf = false)
    (hfull : node.key.length = M) (harity : node.child.length = node.key.length + 1) :
    (leftHalf M node).child.length = (leftHalf M node).key.length + 1 ∧
      (rightHalf M node).child.length = (rightHalf M node).key.length + 1 := by
  simp only [leftHalf, rightHalf, cutAt, hinner, List.length_take, List.length_drop, harity, hfull,
    Bool.false_eq_true, if_false]
  omega

theorem Shape.leaf_arity_afterSplit (shape : Shape σ dist) (hs : Splittable M σ cur parent)
    {n : Nat} (hleaf : (σ.pool (origin σ cur n)).isLeaf = true) :
    ((afterSplit M σ cur parent probe separator).pool n).child.length =
      ((afterSplit M σ cur parent probe separator).pool n).key.length := by
  have harity := shape.leaf_arity _ hleaf
  rw [shape.afterSplit_pool probe separator hs]
  split_ifs with hp hnew hcur hmoved
  · have hlt := shape.lt_of_mem_child hs.mem
    rw [hp, origin_of_ne (Nat.ne_of_lt hlt), hs.parent_inner.1] at hleaf
    cases hleaf
  · rw [hnew, origin_new] at hleaf harity
    exact (leaf_halves hleaf harity).2
  · rw [origin_of_ne hnew, hcur] at hleaf harity
    exact (leaf_halves hleaf harity).1
  · rwa [origin_of_ne hnew] at harity
  · rwa [origin_of_ne hnew] at harity

theorem Shape.inner_arity_afterSplit (shape : Shape σ dist) (hs : Splittable M σ cur parent)
    {n : Nat} (hinner : (σ.pool (origin σ cur n)).IsInner) :
    ((afterSplit M σ cur parent probe separator).pool n).child.length =
      ((afterSplit M σ cur parent probe separator).pool n).key.length + 1 := by
  have harity := shape.inner_arity _ hinner
  rw [shape.afterSplit_pool probe separator hs]
  split_ifs with hp hnew hcur hmoved
  · have hlt := shape.lt_of_mem_child hs.mem
    have hlen := lowerBound_le_length (σ.pool parent).key probe
    rw [hp, origin_of_ne (Nat.ne_of_lt hlt)] at harity
    simp only [List.length_insertIdx]
    rw [if_pos (by omega), if_pos hlen, harity]
  · rw [hnew, origin_new] at hinner harity
    exact (inner_halves hs.two_le hinner.1 hs.full harity).2
  · rw [origin_of_ne hnew, hcur] at hinner harity
    exact (inner_halves hs.two_le hinner.1 hs.full harity).1
  · rwa [origin_of_ne hnew] at harity
  · rwa [origin_of_ne hnew] at harity

theorem Shape.afterSplit_preserves (shape : Shape σ dist) (hs : Splittable M σ cur parent)
    (hpar : (σ.pool cur).parent = some parent) :
    Shape (afterSplit M σ cur parent probe separator)
      (Function.update dist σ.nbNode (dist cur)) := by
  have hpool := shape.afterSplit_pool probe separator hs
  have hvalue := shape.afterSplit_isValue probe separator hs
  have hroot := shape.root_lt
  have hpn : parent < σ.nbNode := shape.lt_of_mem_child hs.mem
  have hcn : cur < σ.nbNode := shape.child_lt _ _ hs.mem
  have hright : ∀ c, c ∈ (rightHalf M (σ.pool cur)).child → c ∈ (σ.pool cur).child :=
    fun c hc => List.mem_of_mem_drop hc
  constructor
  case root_lt => exact Nat.lt_succ_of_lt hroot
  case fresh =>
    intro n hn
    rw [afterSplit_nbNode] at hn
    have hmem : n ∉ (rightHalf M (σ.pool cur)).child := by
      intro hc
      have hlt := shape.child_lt _ _ (hright n hc)
      omega
    rw [hpool, if_neg (by omega), if_neg (by omega), if_neg (by omega), if_neg fun h => hmem h.2]
    exact shape.fresh n (by omega)
  case root_isValue =>
    rw [hvalue]
    exact shape.root_isValue
  case root_parent =>
    have hmem : root ∉ (rightHalf M (σ.pool cur)).child :=
      fun h => shape.child_ne_root _ _ (hright _ h) rfl
    have hcur : root ≠ cur := (shape.child_ne_root _ _ hs.mem).symm
    rw [hpool]
    split_ifs with hp hnew hmoved
    · exact hp ▸ shape.root_parent
    · exact absurd hnew (Nat.ne_of_lt hroot)
    · exact absurd hmoved.2 hmem
    · exact shape.root_parent
  case child_lt =>
    intro n c hc
    rw [afterSplit_nbNode]
    rcases shape.edge_afterSplit probe separator hs hc with ⟨-, rfl⟩ | h
    · exact Nat.lt_succ_self _
    · exact Nat.lt_succ_of_lt (shape.child_lt _ _ h)
  case child_ne_root =>
    intro n c hc
    rcases shape.edge_afterSplit probe separator hs hc with ⟨-, rfl⟩ | h
    · exact (Nat.ne_of_lt hroot).symm
    · exact shape.child_ne_root _ _ h
  case nodup => exact shape.nodup_afterSplit probe separator hs
  case unique => exact fun n m c hn hm => shape.unique_afterSplit probe separator hs hn hm
  case parent_eq =>
    intro n c hc hval
    rw [hvalue] at hval
    exact shape.parent_afterSplit probe separator hs hpar hc hval
  case owned => exact fun c hlt hne => shape.owned_afterSplit probe separator hs hlt hne
  case value_bare =>
    intro n hn
    rw [hvalue] at hn
    have hp : n ≠ parent := by
      rintro rfl
      simp [hs.parent_inner.2] at hn
    have hcur : n ≠ cur := by
      rintro rfl
      simp [hs.isValue] at hn
    have hnew : n ≠ σ.nbNode := by
      rintro rfl
      simp [shape.fresh _ (Nat.le_refl _)] at hn
    obtain ⟨up, hup⟩ := shape.afterSplit_pool_other probe separator hs hp hnew hcur
    rw [hup]
    exact shape.value_bare n hn
  case leaf_child =>
    intro n c hn hc
    rw [shape.isLeaf_origin probe separator hs] at hn
    rw [hvalue]
    rcases shape.edge_afterSplit probe separator hs hc with ⟨rfl, -⟩ | h
    · rw [origin_of_ne (Nat.ne_of_lt hpn), hs.parent_inner.1] at hn
      cases hn
    · exact shape.leaf_child _ _ hn h
  case inner_child =>
    intro n c hn hc
    rw [shape.isInner_origin probe separator hs] at hn
    rw [hvalue]
    rcases shape.edge_afterSplit probe separator hs hc with ⟨-, rfl⟩ | h
    · rw [shape.fresh _ (Nat.le_refl _), Node.fresh_isValue]
    · exact shape.inner_child _ _ hn h
  case leaf_arity =>
    intro n hn
    rw [shape.isLeaf_origin probe separator hs] at hn
    exact shape.leaf_arity_afterSplit probe separator hs hn
  case inner_arity =>
    intro n hn
    exact shape.inner_arity_afterSplit probe separator hs
      ((shape.isInner_origin probe separator hs).mp hn)
  case dist_root =>
    rw [update_dist_eq_origin, origin_of_ne (Nat.ne_of_lt hroot)]
    exact shape.dist_root
  case dist_child =>
    intro n c hc
    rw [update_dist_eq_origin, update_dist_eq_origin]
    rcases shape.edge_afterSplit probe separator hs hc with ⟨rfl, rfl⟩ | h
    · rw [origin_new, origin_of_ne (Nat.ne_of_lt hpn)]
      exact shape.dist_child _ _ hs.mem
    · rw [origin_of_ne (Nat.ne_of_lt (shape.child_lt _ _ h))]
      exact shape.dist_child _ _ h

end SplitNode

end FatBTree.Tree
