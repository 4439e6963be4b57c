import FatBTree.Tree.Traversal

/-!
# Balance and occupancy

As long as no node is marked, copy-on-split happens at the root only.  It is
then the one step that deepens the tree, so all leaves stay equally deep, and
the one node it leaves almost empty is the root.
-/

namespace FatBTree.Tree

open FatBTree.Order

variable {κ V : Type} [LinearOrder κ] [Inhabited V]

/-- Every leaf is `depth - 1` edges below the root. -/
def Level (w : World κ V) : Prop :=
  ∀ n, n < w.state.nbNode → (w.state.pool n).isLeaf = true → w.dist n + 1 = w.state.depth

/-- The number of keys the smaller half of a split keeps. -/
def leastKeys (M : Nat) (node : Node κ V) : Nat :=
  if node.isLeaf then M / 2 else M / 2 - 1

/-- Nodes other than the root and `hole` are at least half full. -/
def FilledBut (M : Nat) (hole : Nat) (w : World κ V) : Prop :=
  ∀ n, n < w.state.nbNode → (w.state.pool n).isValue = false → n ≠ root → n ≠ hole →
    leastKeys M (w.state.pool n) ≤ (w.state.pool n).key.length

/-- A root with children has a separator. -/
def RootFilled (w : World κ V) : Prop :=
  (w.state.pool root).IsInner → 1 ≤ (w.state.pool root).key.length

/-- What holds of a tree in which no node was ever marked. -/
structure Occupied (M : Nat) (w : World κ V) : Prop where
  unmarked : MarkedWithin (fun _ => False) w
  level : Level w
  filled : FilledBut M root w
  rootFilled : RootFilled w

section Steps

variable (variant : Variant V) {M : Nat} {w : World κ V}
  {history : List (κ × V)} {cur parent j : Nat} {probe separator k : κ}

omit [LinearOrder κ] [Inhabited V] in
theorem MarkedWithin.eq_root (unmarked : MarkedWithin (fun _ => False) w)
    (hpinned : Pinned w.state cur) : cur = root :=
  hpinned.resolve_right (unmarked cur)

/-! ## Levels -/

omit [Inhabited V] in
theorem Level.grown (level : Level w) (v : V) : Level (w.grown variant cur k v) := by
  intro n hn hleaf
  rw [insertIntoLeaf_isLeaf] at hleaf
  split_ifs at hleaf with hnew
  rw [insertIntoLeaf_nbNode] at hn
  simp only [Function.update_of_ne hnew]
  exact level n (by omega) hleaf

omit [LinearOrder κ] in
/-- Copy-on-split of the root pushes every leaf down by one level. -/
theorem Level.copied (level : Level w) (shape : Shape w.state w.dist) :
    Level (w.copied variant root) := by
  intro n hn hleaf
  rw [shape.copyDown_isLeaf variant shape.root_lt] at hleaf
  split_ifs at hleaf with hroot hnew
  · have hold := level root shape.root_lt hleaf
    simp only [hnew, copyDist_new, copyDown_depth, if_pos]
    omega
  · rw [copyDown_nbNode] at hn
    have hold := level n (by omega) hleaf
    have hbelow : Below w.state root n := shape.below_root n (by omega) hroot
    simp only [copyDist, if_neg hnew, if_pos hbelow, copyDown_depth, if_pos]
    omega

theorem Level.halved (level : Level w) (shape : Shape w.state w.dist)
    (site : SplitSite M w.state w.bounds cur parent j probe separator k) :
    Level (w.halved M cur parent probe separator) := by
  intro n hn hleaf
  rw [shape.afterSplit_isLeaf probe separator site.node] at hleaf
  rw [afterSplit_nbNode] at hn
  split_ifs at hleaf with hnew
  · simp only [hnew, Function.update_self]
    exact level cur (shape.child_lt _ _ site.node.mem) hleaf
  · simp only [Function.update_of_ne hnew]
    exact level n (by omega) hleaf

/-! ## Occupancy -/

omit [Inhabited V] in
theorem FilledBut.grown (filled : FilledBut M root w) (hlt : cur < w.state.nbNode)
    (v : V) : FilledBut M root (w.grown variant cur k v) := by
  intro n hn hval hroot hhole
  rw [insertIntoLeaf_isValue] at hval
  split_ifs at hval with hnew
  rw [insertIntoLeaf_nbNode] at hn
  have hold := filled n (by omega) hval hroot hhole
  by_cases hcur : n = cur
  · subst hcur
    rw [insertIntoLeaf_pool_cur variant k v hlt, List.length_insertIdx,
      if_pos (lowerBound_le_length _ _)]
    exact Nat.le_succ_of_le hold
  · rw [insertIntoLeaf_pool_other variant k v hnew hcur]
    exact hold

omit [LinearOrder κ] [Inhabited V] in
theorem leastKeys_leftHalf {node : Node κ V} (hfull : node.key.length = M) :
    leastKeys M (leftHalf M node) ≤ (leftHalf M node).key.length := by
  have hkey : (leftHalf M node).key.length = M / 2 := by
    rw [leftHalf, List.length_take]
    omega
  have hkind : (leftHalf M node).isLeaf = node.isLeaf := rfl
  rw [hkey, leastKeys, hkind]
  cases node.isLeaf with
  | true => exact Nat.le_refl _
  | false => exact Nat.sub_le _ _

omit [LinearOrder κ] in
theorem leastKeys_rightHalf [NodeOrder M] {node : Node κ V} (hfull : node.key.length = M) :
    leastKeys M (rightHalf M node) ≤ (rightHalf M node).key.length := by
  have heven := NodeOrder.even (M := M)
  have hkey : (rightHalf M node).key.length = M - cutAt M node := by
    rw [rightHalf, List.length_drop, hfull]
  have hkind : (rightHalf M node).isLeaf = node.isLeaf := rfl
  rw [hkey, leastKeys, cutAt, hkind]
  cases node.isLeaf with
  | true => simp only [↓reduceIte]; omega
  | false => simp only [Bool.false_eq_true, ↓reduceIte]; omega

/-- Both halves of a full node are at least half full. -/
theorem FilledBut.halved [NodeOrder M] (filled : FilledBut M cur w) (shape : Shape w.state w.dist)
    (site : SplitSite M w.state w.bounds cur parent j probe separator k) :
    FilledBut M root (w.halved M cur parent probe separator) := by
  intro n hn hval hroot _
  rw [shape.afterSplit_isValue probe separator site.node] at hval
  rw [afterSplit_nbNode] at hn
  by_cases hnew : n = w.state.nbNode
  · rw [hnew, shape.afterSplit_pool_new probe separator site.node]
    exact leastKeys_rightHalf site.node.full
  · by_cases hcur : n = cur
    · rw [hcur, shape.afterSplit_pool_cur probe separator site.node]
      exact leastKeys_leftHalf site.node.full
    · have hold := filled n (by omega) hval hroot hcur
      by_cases hparent : n = parent
      · subst hparent
        rw [shape.afterSplit_pool_parent probe separator site.node, List.length_insertIdx,
          if_pos (lowerBound_le_length _ _)]
        exact Nat.le_succ_of_le hold
      · obtain ⟨up, hup⟩ :=
          shape.afterSplit_pool_other probe separator site.node hparent hnew hcur
        rw [hup]
        exact hold

omit [LinearOrder κ] in
theorem FilledBut.copied (filled : FilledBut M root w) (shape : Shape w.state w.dist) :
    FilledBut M w.state.nbNode (w.copied variant root) := by
  intro n hn hval hroot hnew
  rw [shape.copyDown_isValue variant shape.root_lt] at hval
  rw [copyDown_nbNode] at hn
  obtain ⟨up, hup⟩ := shape.copyDown_pool_other variant shape.root_lt hroot hnew
  rw [hup]
  exact filled n (by omega) hval hroot hroot

theorem RootFilled.halved (shape : Shape w.state w.dist)
    (site : SplitSite M w.state w.bounds cur parent j probe separator k)
    (filled : root ≠ parent → RootFilled w) :
    RootFilled (w.halved M cur parent probe separator) := by
  intro hinner
  by_cases hparent : root = parent
  · rw [hparent, shape.afterSplit_pool_parent probe separator site.node, List.length_insertIdx,
      if_pos (lowerBound_le_length _ _)]
    exact Nat.le_add_left 1 _
  · have hcur : root ≠ cur := (shape.child_ne_root _ _ site.node.mem).symm
    have hnew : root ≠ w.state.nbNode := Nat.ne_of_lt shape.root_lt
    obtain ⟨up, hup⟩ := shape.afterSplit_pool_other probe separator site.node hparent hnew hcur
    rw [hup] at hinner ⊢
    exact filled hparent hinner

/-! ## The whole repair -/

omit [Inhabited V] in
theorem Occupied.grown (occupied : Occupied M w)
    (hlt : cur < w.state.nbNode) (hleaf : (w.state.pool cur).isLeaf = true) (v : V) :
    Occupied M (w.grown variant cur k v) where
  unmarked := occupied.unmarked.grown variant cur k v
  level := occupied.level.grown variant v
  filled := occupied.filled.grown variant hlt v
  rootFilled := by
    intro hinner
    obtain ⟨hcur, hnew, hsame⟩ := inner_insertIntoLeaf variant v hlt hleaf hinner
    rw [hsame] at hinner ⊢
    exact occupied.rootFilled hinner

theorem repairClosed_occupied [NodeOrder M] :
    RepairClosed variant M history k (fun _ _ w => Occupied M w) where
  pinned fuel w cur probe separator repairing hfull hpinned site hfree hsmall occupied := by
    obtain rfl := occupied.unmarked.eq_root hpinned
    have shape := repairing.shape
    have sound := repairing.toSound.copied variant repairing.lt repairing.isValue
    have marks : StepClosed variant M history k (MarkedWithin fun _ => False) :=
      stepClosed_markedWithin variant _
    have hcopied := marks.copied w root repairing.toSound repairing.lt repairing.isValue
      repairing.holds hpinned occupied.unmarked
    exact
      { unmarked := marks.halved _ _ _ _ _ _ sound site hfree hcopied
        level := (occupied.level.copied variant shape).halved sound.shape site
        filled := (occupied.filled.copied variant shape).halved sound.shape site
        rootFilled := RootFilled.halved sound.shape site fun hne => absurd rfl hne }
  free fuel w cur parent j probe separator repairing hfull hfree hparent site occupied := by
    have marks : StepClosed variant M history k (MarkedWithin fun _ => False) :=
      stepClosed_markedWithin variant _
    exact
      { unmarked := marks.halved w cur parent j probe separator repairing.toSound site hfree
          occupied.unmarked
        level := occupied.level.halved repairing.shape site
        filled := FilledBut.halved
          (fun n hn hval hroot _ => occupied.filled n hn hval hroot hroot) repairing.shape site
        rootFilled := RootFilled.halved repairing.shape site fun _ => occupied.rootFilled }

end Steps

end FatBTree.Tree
