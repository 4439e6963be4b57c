import FatBTree.Tree.Ordered

/-!
# Splits keep the search order

The proof follows the parent's slot `j` of the node that is split.  Keys left
of the slot are at most the left end of the node's interval and keys right of
it at least the right end, so both the repeated binary search and the inserted
separator land in the slot.
-/

namespace FatBTree.Tree

open FatBTree.Order

variable {κ V : Type} [LinearOrder κ] [Inhabited V]

/-- The intervals after a split: the new sibling takes what lies above the
separator. -/
def Bounds.split (b : Bounds κ) (cur newNode : Nat) (separator : κ) : Bounds κ where
  lo := Function.update b.lo newNode separator
  hi := Function.update (Function.update b.hi newNode (b.hi cur)) cur separator

/-- A full node `cur` in slot `j` of its parent, on the path of the key `k`
that is being inserted. -/
structure SplitSite (M : Nat) (σ : State κ V) (b : Bounds κ) (cur parent j : Nat)
    (probe separator k : κ) : Prop where
  node : Splittable M σ cur parent
  slot : (σ.pool parent).child[j]? = some cur
  probe_eq : (σ.pool cur).key[M / 2]? = some probe
  separator_eq : (σ.pool cur).key[cutAt M (σ.pool cur) - 1]? = some separator
  holds : b.Holds cur k

namespace Bounds

variable {b : Bounds κ} {cur newNode n : Nat} {separator : κ}

section

omit [LinearOrder κ]

theorem split_lo_new : (b.split cur newNode separator).lo newNode = separator :=
  Function.update_self ..

theorem split_lo_of_ne (hne : n ≠ newNode) : (b.split cur newNode separator).lo n = b.lo n :=
  Function.update_of_ne hne ..

theorem split_hi_cur : (b.split cur newNode separator).hi cur = separator :=
  Function.update_self ..

theorem split_hi_new (hne : newNode ≠ cur) :
    (b.split cur newNode separator).hi newNode = b.hi cur := by
  simp [split, Function.update_of_ne hne]

theorem split_hi_of_ne (hcur : n ≠ cur) (hnew : n ≠ newNode) :
    (b.split cur newNode separator).hi n = b.hi n := by
  simp [split, Function.update_of_ne hcur, Function.update_of_ne hnew]

end

end Bounds

namespace SplitSite

variable {M : Nat} {σ : State κ V} {dist : Nat → Nat} {b : Bounds κ}
  {cur parent j : Nat} {probe separator k : κ}

theorem slot_le (site : SplitSite M σ b cur parent j probe separator k)
    (shape : Shape σ dist) : j ≤ (σ.pool parent).key.length := by
  have hj := (List.getElem?_eq_some_iff.mp site.slot).1
  rw [shape.inner_arity parent site.node.parent_inner] at hj
  omega

omit [Inhabited V] in
theorem lo_eq (site : SplitSite M σ b cur parent j probe separator k)
    (ordered : Ordered M σ b) : b.lo cur = segLo (b.lo parent) (σ.pool parent).key j :=
  ordered.child_lo parent j cur site.node.parent_inner site.slot

omit [Inhabited V] in
theorem hi_eq (site : SplitSite M σ b cur parent j probe separator k)
    (ordered : Ordered M σ b) : b.hi cur = segHi (b.hi parent) (σ.pool parent).key j :=
  ordered.child_hi parent j cur site.node.parent_inner site.slot

omit [Inhabited V] in
theorem lo_parent_le (site : SplitSite M σ b cur parent j probe separator k)
    (ordered : Ordered M σ b) : b.lo parent ≤ b.lo cur := by
  rw [site.lo_eq ordered]
  exact lo_le_segLo (ordered.lo_le parent)

omit [Inhabited V] in
theorem hi_le_parent (site : SplitSite M σ b cur parent j probe separator k)
    (ordered : Ordered M σ b) : b.hi cur ≤ b.hi parent := by
  rw [site.hi_eq ordered]
  exact segHi_le_hi (ordered.le_hi parent)

omit [Inhabited V] in
theorem lo_le_separator (site : SplitSite M σ b cur parent j probe separator k)
    (ordered : Ordered M σ b) : b.lo cur ≤ (separator : WithBot κ) :=
  ordered.lo_le cur separator (List.mem_of_getElem? site.separator_eq)

omit [Inhabited V] in
theorem separator_le_hi (site : SplitSite M σ b cur parent j probe separator k)
    (ordered : Ordered M σ b) : (separator : WithTop κ) ≤ b.hi cur :=
  ordered.le_hi cur separator (List.mem_of_getElem? site.separator_eq)

/-- Keys of the parent left of the slot are at most the interval's left end. -/
theorem left_of_slot (site : SplitSite M σ b cur parent j probe separator k)
    (ordered : Ordered M σ b) (shape : Shape σ dist) {i : Nat} {x : κ} (hi : i < j)
    (hx : (σ.pool parent).key[i]? = some x) : (x : WithBot κ) ≤ b.lo cur := by
  obtain ⟨j, rfl⟩ : ∃ j', j = j' + 1 := ⟨j - 1, by omega⟩
  have hj := site.slot_le shape
  have hy : (σ.pool parent).key[j]? = some (σ.pool parent).key[j] := by simp
  rw [site.lo_eq ordered, segLo_succ hy]
  exact WithBot.coe_le_coe.mpr ((ordered.sorted parent).le (by omega) hx hy)

omit [Inhabited V] in
/-- Keys of the parent right of the slot are at least the interval's right end. -/
theorem right_of_slot (site : SplitSite M σ b cur parent j probe separator k)
    (ordered : Ordered M σ b) {i : Nat} {x : κ} (hi : j ≤ i)
    (hx : (σ.pool parent).key[i]? = some x) : b.hi cur ≤ (x : WithTop κ) := by
  have hlen := (List.getElem?_eq_some_iff.mp hx).1
  have hy : (σ.pool parent).key[j]? = some (σ.pool parent).key[j] := by simp
  rw [site.hi_eq ordered, segHi_of_getElem? hy]
  exact WithTop.coe_le_coe.mpr ((ordered.sorted parent).le hi hy hx)

omit [Inhabited V] in
/-- Keys right of the slot are above everything left of the parent. -/
theorem lo_parent_lt_right (site : SplitSite M σ b cur parent j probe separator k)
    (ordered : Ordered M σ b) {i : Nat} {x : κ} (hi : j ≤ i)
    (hx : (σ.pool parent).key[i]? = some x) : b.lo parent < (x : WithBot κ) := by
  have hk : (k : WithTop κ) ≤ x := site.holds.2.trans (site.right_of_slot ordered hi hx)
  exact ((site.lo_parent_le ordered).trans_lt site.holds.1).trans_le
    (WithBot.coe_le_coe.mpr (WithTop.coe_le_coe.mp hk))

/-- The repeated binary search in the parent finds the slot again. -/
theorem lowerBound_probe (site : SplitSite M σ b cur parent j probe separator k)
    (ordered : Ordered M σ b) (shape : Shape σ dist) :
    lowerBound (σ.pool parent).key probe = j := by
  apply lowerBound_eq_of_seg (ordered.sorted parent) (site.slot_le shape)
  rw [← site.lo_eq ordered, ← site.hi_eq ordered]
  exact ⟨ordered.copies cur _ probe (Nat.le_refl _) site.probe_eq,
    ordered.le_hi cur probe (List.mem_of_getElem? site.probe_eq)⟩

/-- A separator that repeats the left end of the parent finds room there. -/
theorem lo_parent_lt_separator [NodeOrder M] (site : SplitSite M σ b cur parent j probe separator k)
    (ordered : Ordered M σ b) (shape : Shape σ dist) (hj : M / 2 ≤ j) :
    b.lo parent < (separator : WithBot κ) := by
  have hM := NodeOrder.four_le (M := M)
  cases hleaf : (σ.pool cur).isLeaf with
  | false =>
      have hsep := site.separator_eq
      simp only [cutAt, hleaf, Bool.false_eq_true, if_false, Nat.add_sub_cancel] at hsep
      exact (site.lo_parent_le ordered).trans_lt
        (ordered.copies cur _ separator (Nat.le_refl _) hsep)
  | true =>
      have hsep := site.separator_eq
      simp only [cutAt, hleaf, if_true] at hsep
      by_contra hnot
      have hslot := site.slot_le shape
      have hx : (σ.pool parent).key[j - 1]? = some (σ.pool parent).key[j - 1] := by simp
      have hle := site.left_of_slot ordered shape (by omega) hx
      have hcur : b.lo cur ≤ b.lo parent :=
        (site.lo_le_separator ordered).trans (not_lt.mp hnot)
      have hnot' : ¬ b.lo parent < ((σ.pool parent).key[j - 1] : WithBot κ) :=
        not_lt.mpr (hle.trans hcur)
      -- every key before the slot repeats the left end, so the slot is `M / 2`
      have hjeq : j = M / 2 := by
        by_contra hne
        exact hnot' (ordered.copies parent _ _ (by omega) hx)
      subst hjeq
      have hroom := ordered.room parent _ cur separator site.node.parent_inner hx hnot'
        site.slot hleaf hsep
      exact absurd hroom (not_lt.mpr ((not_lt.mp hnot).trans (site.lo_parent_le ordered)))

omit [Inhabited V] in
/-- Keys that stay are at most the separator. -/
theorem left_le [NodeOrder M] (site : SplitSite M σ b cur parent j probe separator k)
    (ordered : Ordered M σ b) {x : κ} (hx : x ∈ (leftHalf M (σ.pool cur)).key) :
    x ≤ separator := by
  have hM := NodeOrder.four_le (M := M)
  obtain ⟨i, hi⟩ := List.mem_iff_getElem?.mp hx
  have hlt := (List.getElem?_eq_some_iff.mp hi).1
  simp only [leftHalf, List.length_take] at hlt
  simp only [leftHalf, List.getElem?_take, show i < M / 2 by omega, if_true] at hi
  refine (ordered.sorted cur).le ?_ hi site.separator_eq
  unfold cutAt
  split <;> omega

/-- Keys that move are at least the separator. -/
theorem le_right (site : SplitSite M σ b cur parent j probe separator k)
    (ordered : Ordered M σ b) {x : κ} (hx : x ∈ (rightHalf M (σ.pool cur)).key) :
    separator ≤ x := by
  obtain ⟨i, hi⟩ := List.mem_iff_getElem?.mp hx
  simp only [rightHalf, List.getElem?_drop] at hi
  exact (ordered.sorted cur).le (by omega) site.separator_eq hi

/-- The slots of the parent after the split. -/
theorem slot_cases (site : SplitSite M σ b cur parent j probe separator k)
    (ordered : Ordered M σ b) (shape : Shape σ dist) {i c : Nat}
    (hc : ((afterSplit M σ cur parent probe separator).pool parent).child[i]? = some c) :
    (i < j ∧ (σ.pool parent).child[i]? = some c ∧ c ≠ cur) ∨ (i = j ∧ c = cur) ∨
      (i = j + 1 ∧ c = σ.nbNode) ∨
      ∃ i', i = i' + 1 ∧ j < i' ∧ (σ.pool parent).child[i']? = some c ∧ c ≠ cur := by
  have hne : ∀ i', i' ≠ j → (σ.pool parent).child[i']? = some c → c ≠ cur := by
    rintro i' hij hi' rfl
    obtain ⟨hlt, heq⟩ := List.getElem?_eq_some_iff.mp hi'
    obtain ⟨hlt', heq'⟩ := List.getElem?_eq_some_iff.mp site.slot
    exact hij ((shape.nodup parent).getElem_inj_iff.mp (heq.trans heq'.symm))
  rw [shape.afterSplit_pool_parent probe separator site.node,
    site.lowerBound_probe ordered shape] at hc
  simp only [List.getElem?_insertIdx] at hc
  rcases Nat.lt_trichotomy i (j + 1) with hlt | rfl | hgt
  · rw [if_pos hlt] at hc
    rcases Nat.eq_or_lt_of_le (Nat.le_of_lt_succ hlt) with rfl | hij
    · rw [site.slot] at hc
      cases hc
      exact Or.inr (Or.inl ⟨rfl, rfl⟩)
    · exact Or.inl ⟨hij, hc, hne i (by omega) hc⟩
  · rw [if_neg (by omega), if_pos rfl] at hc
    split at hc
    · cases hc
      exact Or.inr (Or.inr (Or.inl ⟨rfl, rfl⟩))
    · cases hc
  · rw [if_neg (by omega), if_neg (by omega)] at hc
    exact Or.inr (Or.inr (Or.inr ⟨i - 1, by omega, by omega, hc, hne _ (by omega) hc⟩))

end SplitSite

section AfterSplit

variable {M : Nat} {σ : State κ V} {dist : Nat → Nat} {b : Bounds κ}
  {cur parent j : Nat} {probe separator k : κ}

theorem SplitSite.key_parent (site : SplitSite M σ b cur parent j probe separator k)
    (ordered : Ordered M σ b) (shape : Shape σ dist) :
    ((afterSplit M σ cur parent probe separator).pool parent).key =
      (σ.pool parent).key.insertIdx j separator := by
  rw [shape.afterSplit_pool_parent probe separator site.node,
    site.lowerBound_probe ordered shape]

/-- The keys of the parent still cut its interval into those of its children. -/
theorem SplitSite.child_parent (site : SplitSite M σ b cur parent j probe separator k)
    (ordered : Ordered M σ b) (shape : Shape σ dist) {i c : Nat}
    (hc : ((afterSplit M σ cur parent probe separator).pool parent).child[i]? = some c) :
    (b.split cur σ.nbNode separator).lo c =
        segLo (b.lo parent) ((σ.pool parent).key.insertIdx j separator) i ∧
      (b.split cur σ.nbNode separator).hi c =
        segHi (b.hi parent) ((σ.pool parent).key.insertIdx j separator) i := by
  have hinner := site.node.parent_inner
  have hj := site.slot_le shape
  have hcn : cur ≠ σ.nbNode := Nat.ne_of_lt (shape.child_lt _ _ site.node.mem)
  rcases site.slot_cases ordered shape hc with ⟨hi, hold, hne⟩ | ⟨rfl, rfl⟩ | ⟨rfl, rfl⟩ |
    ⟨i, rfl, hi, hold, hne⟩
  · have hnew : c ≠ σ.nbNode := Nat.ne_of_lt (shape.child_lt _ _ (List.mem_of_getElem? hold))
    rw [Bounds.split_lo_of_ne hnew, Bounds.split_hi_of_ne hne hnew,
      segLo_insertIdx_le (by omega), segHi_insertIdx_lt hi]
    exact ⟨ordered.child_lo _ _ _ hinner hold, ordered.child_hi _ _ _ hinner hold⟩
  · rw [Bounds.split_lo_of_ne hcn, Bounds.split_hi_cur,
      segLo_insertIdx_le (Nat.le_refl _), segHi_insertIdx_self hj]
    exact ⟨site.lo_eq ordered, rfl⟩
  · rw [Bounds.split_lo_new, Bounds.split_hi_new hcn.symm,
      segLo_insertIdx_succ hj, segHi_insertIdx_gt (Nat.le_refl _)]
    exact ⟨rfl, site.hi_eq ordered⟩
  · have hnew : c ≠ σ.nbNode := Nat.ne_of_lt (shape.child_lt _ _ (List.mem_of_getElem? hold))
    rw [Bounds.split_lo_of_ne hnew, Bounds.split_hi_of_ne hne hnew,
      segLo_insertIdx_gt hi, segHi_insertIdx_gt (by omega)]
    exact ⟨ordered.child_lo _ _ _ hinner hold, ordered.child_hi _ _ _ hinner hold⟩

/-- A child of any other node is away from the split. -/
theorem SplitSite.ne_of_mem_child (site : SplitSite M σ b cur parent j probe separator k)
    (shape : Shape σ dist) {n c : Nat} (hp : n ≠ parent) (hc : c ∈ (σ.pool n).child) :
    c ≠ cur ∧ c ≠ σ.nbNode := by
  refine ⟨?_, Nat.ne_of_lt (shape.child_lt _ _ hc)⟩
  rintro rfl
  exact hp (shape.unique _ _ _ hc site.node.mem)

omit [Inhabited V] in
/-- The segments of the left half. -/
theorem SplitSite.child_left (site : SplitSite M σ b cur parent j probe separator k)
    (ordered : Ordered M σ b) (hleaf : (σ.pool cur).isLeaf = false) {i c : Nat}
    (hc : (leftHalf M (σ.pool cur)).child[i]? = some c) :
    (σ.pool cur).child[i]? = some c ∧
      b.lo c = segLo (b.lo cur) (leftHalf M (σ.pool cur)).key i ∧
      b.hi c = segHi (separator : WithTop κ) (leftHalf M (σ.pool cur)).key i := by
  have hinner : (σ.pool cur).IsInner := ⟨hleaf, site.node.isValue⟩
  have hcut : cutAt M (σ.pool cur) = M / 2 + 1 := by simp [cutAt, hleaf]
  have hsep := site.separator_eq
  rw [hcut, Nat.add_sub_cancel] at hsep
  have hi := (List.getElem?_eq_some_iff.mp hc).1
  simp only [leftHalf, hcut, List.length_take] at hi
  have hold : (σ.pool cur).child[i]? = some c := by
    simpa only [leftHalf, hcut, List.getElem?_take, show i < M / 2 + 1 by omega, if_true]
      using hc
  refine ⟨hold, ?_, ?_⟩
  · rw [ordered.child_lo cur i c hinner hold]
    exact (segLo_take (by omega)).symm
  · rw [ordered.child_hi cur i c hinner hold]
    exact (segHi_take hsep (by omega)).symm

/-- The segments of the right half. -/
theorem SplitSite.child_right (site : SplitSite M σ b cur parent j probe separator k)
    (ordered : Ordered M σ b) (shape : Shape σ dist) (hleaf : (σ.pool cur).isLeaf = false)
    {i c : Nat} (hc : (rightHalf M (σ.pool cur)).child[i]? = some c) :
    (σ.pool cur).child[M / 2 + 1 + i]? = some c ∧
      b.lo c = segLo (separator : WithBot κ) (rightHalf M (σ.pool cur)).key i ∧
      b.hi c = segHi (b.hi cur) (rightHalf M (σ.pool cur)).key i := by
  have hinner : (σ.pool cur).IsInner := ⟨hleaf, site.node.isValue⟩
  have hcut : cutAt M (σ.pool cur) = M / 2 + 1 := by simp [cutAt, hleaf]
  have hsep := site.separator_eq
  rw [hcut, Nat.add_sub_cancel] at hsep
  have hold : (σ.pool cur).child[M / 2 + 1 + i]? = some c := by
    simpa only [rightHalf, hcut, List.getElem?_drop] using hc
  have hlen := (List.getElem?_eq_some_iff.mp hold).1
  rw [shape.inner_arity cur hinner] at hlen
  refine ⟨hold, ?_, ?_⟩
  · rw [ordered.child_lo cur _ c hinner hold]
    simp only [rightHalf, hcut]
    exact (segLo_drop hsep (by omega)).symm
  · rw [ordered.child_hi cur _ c hinner hold]
    simp only [rightHalf, hcut]
    exact segHi_drop.symm

/-- A leaf whose interval ends in one of its keys splits into two such leaves. -/
theorem SplitSite.back_right [NodeOrder M] (site : SplitSite M σ b cur parent j probe separator k)
    (ordered : Ordered M σ b) (shape : Shape σ dist) (hleaf : (σ.pool cur).isLeaf = true)
    {s : κ} (hs : b.hi cur = s) : s ∈ (rightHalf M (σ.pool cur)).key := by
  have hM := NodeOrder.four_le (M := M)
  have hfull := site.node.full
  have hcut : cutAt M (σ.pool cur) = M / 2 := by simp [cutAt, hleaf]
  have hcn := shape.child_lt _ _ site.node.mem
  obtain ⟨i, hi⟩ := List.mem_iff_getElem?.mp (ordered.leaf_back cur s hcn hleaf hs)
  have hlt := (List.getElem?_eq_some_iff.mp hi).1
  have hlast : (σ.pool cur).key[M - 1]? = some (σ.pool cur).key[M - 1] := by simp
  have hle := (ordered.sorted cur).le (by omega) hi hlast
  have hge := ordered.le_hi cur _ (List.mem_of_getElem? hlast)
  rw [hs] at hge
  have heq : s = (σ.pool cur).key[M - 1] := le_antisymm hle (WithTop.coe_le_coe.mp hge)
  simp only [rightHalf, hcut]
  apply List.mem_iff_getElem?.mpr
  refine ⟨M - 1 - M / 2, ?_⟩
  rw [List.getElem?_drop, show M / 2 + (M - 1 - M / 2) = M - 1 by omega, hlast, heq]

namespace SplitSite

/-- The four kinds of nodes after the split, with their keys and intervals. -/
theorem node_cases (site : SplitSite M σ b cur parent j probe separator k)
    (ordered : Ordered M σ b) (shape : Shape σ dist) (n : Nat) :
    (n = parent ∧ ((afterSplit M σ cur parent probe separator).pool n).key =
          (σ.pool n).key.insertIdx j separator ∧
        (b.split cur σ.nbNode separator).lo n = b.lo n ∧
        (b.split cur σ.nbNode separator).hi n = b.hi n) ∨
      (n = σ.nbNode ∧ (afterSplit M σ cur parent probe separator).pool n =
          rightHalf M (σ.pool cur) ∧
        (b.split cur σ.nbNode separator).lo n = separator ∧
        (b.split cur σ.nbNode separator).hi n = b.hi cur) ∨
      (n = cur ∧ (afterSplit M σ cur parent probe separator).pool n = leftHalf M (σ.pool n) ∧
        (b.split cur σ.nbNode separator).lo n = b.lo n ∧
        (b.split cur σ.nbNode separator).hi n = separator) ∨
      (n ≠ parent ∧ n ≠ σ.nbNode ∧
        (∃ up, (afterSplit M σ cur parent probe separator).pool n =
          { σ.pool n with parent := up }) ∧
        (b.split cur σ.nbNode separator).lo n = b.lo n ∧
        (b.split cur σ.nbNode separator).hi n = b.hi n) := by
  have hpn : parent ≠ σ.nbNode := Nat.ne_of_lt (shape.lt_of_mem_child site.node.mem)
  have hpc : parent ≠ cur := (shape.ne_of_mem_child site.node.mem).symm
  have hcn : cur ≠ σ.nbNode := Nat.ne_of_lt (shape.child_lt _ _ site.node.mem)
  rcases eq_or_ne n parent with rfl | hp
  · exact Or.inl ⟨rfl, site.key_parent ordered shape, Bounds.split_lo_of_ne hpn,
      Bounds.split_hi_of_ne hpc hpn⟩
  · rcases eq_or_ne n σ.nbNode with rfl | hnew
    · exact Or.inr (Or.inl ⟨rfl, shape.afterSplit_pool_new probe separator site.node,
        Bounds.split_lo_new, Bounds.split_hi_new hcn.symm⟩)
    · rcases eq_or_ne n cur with rfl | hcur
      · exact Or.inr (Or.inr (Or.inl ⟨rfl, shape.afterSplit_pool_cur probe separator site.node,
          Bounds.split_lo_of_ne hcn, Bounds.split_hi_cur⟩))
      · exact Or.inr (Or.inr (Or.inr ⟨hp, hnew,
          shape.afterSplit_pool_other probe separator site.node hp hnew hcur,
          Bounds.split_lo_of_ne hnew, Bounds.split_hi_of_ne hcur hnew⟩))

theorem sorted_afterSplit (site : SplitSite M σ b cur parent j probe separator k)
    (ordered : Ordered M σ b) (shape : Shape σ dist) (n : Nat) :
    Ascending ((afterSplit M σ cur parent probe separator).pool n).key := by
  rcases site.node_cases ordered shape n with ⟨rfl, hkey, -, -⟩ | ⟨-, hnode, -, -⟩ |
    ⟨-, hnode, -, -⟩ | ⟨-, -, ⟨up, hnode⟩, -, -⟩
  · rw [hkey]
    refine (ordered.sorted n).insertIdx (site.slot_le shape) (fun i x hi hx => ?_)
      (fun x hx => ?_)
    · have hle := site.left_of_slot ordered shape hi hx
      exact WithBot.coe_le_coe.mp (hle.trans (site.lo_le_separator ordered))
    · have hge := site.right_of_slot ordered (Nat.le_refl _) hx
      exact WithTop.coe_le_coe.mp ((site.separator_le_hi ordered).trans hge)
  · rw [hnode]
    exact (ordered.sorted cur).drop _
  · rw [hnode]
    exact (ordered.sorted n).take _
  · rw [hnode]
    exact ordered.sorted n

theorem lo_le_afterSplit (site : SplitSite M σ b cur parent j probe separator k)
    (ordered : Ordered M σ b) (shape : Shape σ dist) {n : Nat} {x : κ}
    (hx : x ∈ ((afterSplit M σ cur parent probe separator).pool n).key) :
    (b.split cur σ.nbNode separator).lo n ≤ (x : WithBot κ) := by
  rcases site.node_cases ordered shape n with ⟨rfl, hkey, hlo, -⟩ | ⟨-, hnode, hlo, -⟩ |
    ⟨-, hnode, hlo, -⟩ | ⟨-, -, ⟨up, hnode⟩, hlo, -⟩
  · rw [hkey, List.mem_insertIdx (site.slot_le shape)] at hx
    rw [hlo]
    rcases hx with rfl | hx
    · exact (site.lo_parent_le ordered).trans (site.lo_le_separator ordered)
    · exact ordered.lo_le n x hx
  · rw [hnode] at hx
    rw [hlo]
    exact WithBot.coe_le_coe.mpr (site.le_right ordered hx)
  · rw [hnode] at hx
    rw [hlo]
    exact ordered.lo_le n x (List.mem_of_mem_take hx)
  · rw [hnode] at hx
    rw [hlo]
    exact ordered.lo_le n x hx

theorem le_hi_afterSplit [NodeOrder M] (site : SplitSite M σ b cur parent j probe separator k)
    (ordered : Ordered M σ b) (shape : Shape σ dist) {n : Nat} {x : κ}
    (hx : x ∈ ((afterSplit M σ cur parent probe separator).pool n).key) :
    (x : WithTop κ) ≤ (b.split cur σ.nbNode separator).hi n := by
  rcases site.node_cases ordered shape n with ⟨rfl, hkey, -, hhi⟩ | ⟨-, hnode, -, hhi⟩ |
    ⟨rfl, hnode, -, hhi⟩ | ⟨-, -, ⟨up, hnode⟩, -, hhi⟩
  · rw [hkey, List.mem_insertIdx (site.slot_le shape)] at hx
    rw [hhi]
    rcases hx with rfl | hx
    · exact (site.separator_le_hi ordered).trans (site.hi_le_parent ordered)
    · exact ordered.le_hi n x hx
  · rw [hnode] at hx
    rw [hhi]
    exact ordered.le_hi cur x (List.mem_of_mem_drop hx)
  · rw [hnode] at hx
    rw [hhi]
    exact WithTop.coe_le_coe.mpr (site.left_le ordered hx)
  · rw [hnode] at hx
    rw [hhi]
    exact ordered.le_hi n x hx

/-- A child of another node than the parent keeps its interval. -/
theorem split_child (site : SplitSite M σ b cur parent j probe separator k) (shape : Shape σ dist)
    {n i c : Nat} (hp : n ≠ parent) (hc : (σ.pool n).child[i]? = some c) :
    (b.split cur σ.nbNode separator).lo c = b.lo c ∧
      (b.split cur σ.nbNode separator).hi c = b.hi c := by
  obtain ⟨hne, hne'⟩ := site.ne_of_mem_child shape hp (List.mem_of_getElem? hc)
  exact ⟨Bounds.split_lo_of_ne hne', Bounds.split_hi_of_ne hne hne'⟩

/-- Every inner node cuts its interval into those of its children. -/
theorem child_afterSplit (site : SplitSite M σ b cur parent j probe separator k)
    (ordered : Ordered M σ b) (shape : Shape σ dist) {n i c : Nat}
    (hn : ((afterSplit M σ cur parent probe separator).pool n).IsInner)
    (hc : ((afterSplit M σ cur parent probe separator).pool n).child[i]? = some c) :
    (b.split cur σ.nbNode separator).lo c = segLo ((b.split cur σ.nbNode separator).lo n)
        ((afterSplit M σ cur parent probe separator).pool n).key i ∧
      (b.split cur σ.nbNode separator).hi c = segHi ((b.split cur σ.nbNode separator).hi n)
        ((afterSplit M σ cur parent probe separator).pool n).key i := by
  have hpc : cur ≠ parent := shape.ne_of_mem_child site.node.mem
  rcases site.node_cases ordered shape n with ⟨rfl, hkey, hlo, hhi⟩ | ⟨-, hnode, hlo, hhi⟩ |
    ⟨rfl, hnode, hlo, hhi⟩ | ⟨hp, -, ⟨up, hnode⟩, hlo, hhi⟩
  · rw [hkey, hlo, hhi]
    exact site.child_parent ordered shape hc
  · rw [hnode] at hn hc ⊢
    obtain ⟨hold, hclo, hchi⟩ := site.child_right ordered shape hn.1 hc
    obtain ⟨hsame, hsame'⟩ := site.split_child shape hpc hold
    rw [hsame, hsame', hlo, hhi]
    exact ⟨hclo, hchi⟩
  · rw [hnode] at hn hc ⊢
    obtain ⟨hold, hclo, hchi⟩ := site.child_left ordered hn.1 hc
    obtain ⟨hsame, hsame'⟩ := site.split_child shape hpc hold
    rw [hsame, hsame', hlo, hhi]
    exact ⟨hclo, hchi⟩
  · rw [hnode] at hn hc ⊢
    obtain ⟨hsame, hsame'⟩ := site.split_child shape hp hc
    rw [hsame, hsame', hlo, hhi]
    exact ⟨ordered.child_lo n i c hn hc, ordered.child_hi n i c hn hc⟩

theorem leaf_back_afterSplit [NodeOrder M] (site : SplitSite M σ b cur parent j probe separator k)
    (ordered : Ordered M σ b) (shape : Shape σ dist) {n : Nat} {s : κ} (hlt : n < σ.nbNode + 1)
    (hleaf : ((afterSplit M σ cur parent probe separator).pool n).isLeaf = true)
    (hs : (b.split cur σ.nbNode separator).hi n = s) :
    s ∈ ((afterSplit M σ cur parent probe separator).pool n).key := by
  have hM := NodeOrder.four_le (M := M)
  have hfull := site.node.full
  rcases site.node_cases ordered shape n with ⟨rfl, -, -, -⟩ | ⟨-, hnode, -, hhi⟩ |
    ⟨rfl, hnode, -, hhi⟩ | ⟨-, hnew, ⟨up, hnode⟩, -, hhi⟩
  · rw [shape.afterSplit_pool_parent probe separator site.node] at hleaf
    exact absurd (site.node.parent_inner.1.symm.trans hleaf) (by decide)
  · rw [hnode] at hleaf ⊢
    rw [hhi] at hs
    exact site.back_right ordered shape hleaf hs
  · rw [hnode] at hleaf ⊢
    rw [hhi] at hs
    cases hs
    have hold : (σ.pool n).isLeaf = true := hleaf
    have hsep := site.separator_eq
    rw [cutAt, if_pos hold] at hsep
    apply List.mem_iff_getElem?.mpr
    refine ⟨M / 2 - 1, ?_⟩
    rw [leftHalf, List.getElem?_take, if_pos (by omega), hsep]
  · rw [hnode] at hleaf ⊢
    rw [hhi] at hs
    exact ordered.leaf_back n s (by omega) hleaf hs

theorem copies_afterSplit [NodeOrder M] (site : SplitSite M σ b cur parent j probe separator k)
    (ordered : Ordered M σ b) (shape : Shape σ dist) {n i : Nat} {x : κ} (hi : M / 2 ≤ i)
    (hx : ((afterSplit M σ cur parent probe separator).pool n).key[i]? = some x) :
    (b.split cur σ.nbNode separator).lo n < (x : WithBot κ) := by
  have heven := NodeOrder.even (M := M)
  have hfull := site.node.full
  have hj := site.slot_le shape
  rcases site.node_cases ordered shape n with ⟨rfl, hkey, hlo, -⟩ | ⟨-, hnode, -, -⟩ |
    ⟨-, hnode, -, -⟩ | ⟨-, -, ⟨up, hnode⟩, hlo, -⟩
  · rw [hkey, List.getElem?_insertIdx] at hx
    rw [hlo]
    rcases Nat.lt_trichotomy i j with hlt | rfl | hgt
    · rw [if_pos hlt] at hx
      exact ordered.copies n i x hi hx
    · rw [if_neg (by omega), if_pos rfl, if_pos hj] at hx
      cases hx
      exact site.lo_parent_lt_separator ordered shape hi
    · rw [if_neg (by omega), if_neg (by omega)] at hx
      exact site.lo_parent_lt_right ordered (by omega) hx
  · rw [hnode] at hx
    have hlt := (List.getElem?_eq_some_iff.mp hx).1
    simp only [rightHalf, List.length_drop, cutAt] at hlt
    split at hlt <;> omega
  · rw [hnode] at hx
    have hlt := (List.getElem?_eq_some_iff.mp hx).1
    simp only [leftHalf, List.length_take] at hlt
    omega
  · rw [hnode] at hx
    rw [hlo]
    exact ordered.copies n i x hi hx

/-- A leaf away from the split keeps its keys and its interval. -/
theorem leaf_away (site : SplitSite M σ b cur parent j probe separator k)
    (ordered : Ordered M σ b) (shape : Shape σ dist) {c i : Nat} {y : κ} (hne : c ≠ cur)
    (hnew : c ≠ σ.nbNode)
    (hleaf : ((afterSplit M σ cur parent probe separator).pool c).isLeaf = true)
    (hy : ((afterSplit M σ cur parent probe separator).pool c).key[i]? = some y) :
    (σ.pool c).isLeaf = true ∧ (σ.pool c).key[i]? = some y ∧
      (b.split cur σ.nbNode separator).lo c = b.lo c := by
  rcases site.node_cases ordered shape c with ⟨rfl, -, -, -⟩ | ⟨hc, -⟩ | ⟨hc, -⟩ |
    ⟨-, -, ⟨up, hnode⟩, hlo, -⟩
  · rw [shape.afterSplit_pool_parent probe separator site.node] at hleaf
    exact absurd (site.node.parent_inner.1.symm.trans hleaf) (by decide)
  · exact absurd hc hnew
  · exact absurd hc hne
  · rw [hnode] at hleaf hy
    exact ⟨hleaf, hy, hlo⟩

/-- The child after a key of the parent that repeats its left end. -/
theorem room_parent [NodeOrder M] (site : SplitSite M σ b cur parent j probe separator k)
    (ordered : Ordered M σ b) (shape : Shape σ dist) {x y : κ} {c : Nat}
    (hx : ((σ.pool parent).key.insertIdx j separator)[M / 2 - 1]? = some x)
    (hnot : ¬ b.lo parent < (x : WithBot κ))
    (hc : ((afterSplit M σ cur parent probe separator).pool parent).child[M / 2]? = some c)
    (hleaf : ((afterSplit M σ cur parent probe separator).pool c).isLeaf = true)
    (hy : ((afterSplit M σ cur parent probe separator).pool c).key[M / 2 - 1]? = some y) :
    (b.split cur σ.nbNode separator).lo c < (y : WithBot κ) := by
  have hM := NodeOrder.four_le (M := M)
  have hj := site.slot_le shape
  have hinner := site.node.parent_inner
  have hcn : cur ≠ σ.nbNode := Nat.ne_of_lt (shape.child_lt _ _ site.node.mem)
  have hcurNode := shape.afterSplit_pool_cur probe separator site.node
  rw [List.getElem?_insertIdx] at hx
  rcases Nat.lt_trichotomy (M / 2 - 1) j with hlt | heq | hgt
  · rw [if_pos hlt] at hx
    rcases site.slot_cases ordered shape hc with ⟨hi, hold, hne⟩ | ⟨hi, rfl⟩ | ⟨hi, rfl⟩ |
      ⟨i, hi, hi', -, -⟩
    · have hne' := Nat.ne_of_lt (shape.child_lt _ _ (List.mem_of_getElem? hold))
      obtain ⟨hleaf', hy', hlo⟩ := site.leaf_away ordered shape hne hne' hleaf hy
      rw [hlo]
      exact ordered.room parent x c y hinner hx hnot hold hleaf' hy'
    · rw [hcurNode] at hleaf
      rw [hcurNode, leftHalf, List.getElem?_take, if_pos (by omega)] at hy
      rw [Bounds.split_lo_of_ne hcn]
      exact ordered.room parent x c y hinner hx hnot (hi ▸ site.slot) hleaf hy
    · omega
    · omega
  · -- the separator itself repeats the left end of the parent
    rw [if_neg (by omega), if_pos heq, if_pos (by omega)] at hx
    cases hx
    rcases site.slot_cases ordered shape hc with ⟨hi, -, -⟩ | ⟨hi, -⟩ | ⟨-, rfl⟩ |
      ⟨i, hi, hi', -, -⟩
    · omega
    · omega
    · rw [shape.afterSplit_pool_new probe separator site.node, rightHalf, List.getElem?_drop] at hy
      have hlo := ordered.copies cur _ y (by unfold cutAt; split <;> omega) hy
      rw [Bounds.split_lo_new]
      exact ((not_lt.mp hnot).trans (site.lo_parent_le ordered)).trans_lt hlo
    · omega
  · rw [if_neg (by omega), if_neg (by omega)] at hx
    exact absurd (site.lo_parent_lt_right ordered (by omega) hx) hnot

theorem room_afterSplit [NodeOrder M] (site : SplitSite M σ b cur parent j probe separator k)
    (ordered : Ordered M σ b) (shape : Shape σ dist) {n c : Nat} {x y : κ}
    (hn : ((afterSplit M σ cur parent probe separator).pool n).IsInner)
    (hx : ((afterSplit M σ cur parent probe separator).pool n).key[M / 2 - 1]? = some x)
    (hnot : ¬ (b.split cur σ.nbNode separator).lo n < (x : WithBot κ))
    (hc : ((afterSplit M σ cur parent probe separator).pool n).child[M / 2]? = some c)
    (hleaf : ((afterSplit M σ cur parent probe separator).pool c).isLeaf = true)
    (hy : ((afterSplit M σ cur parent probe separator).pool c).key[M / 2 - 1]? = some y) :
    (b.split cur σ.nbNode separator).lo c < (y : WithBot κ) := by
  have hM := NodeOrder.four_le (M := M)
  have heven := NodeOrder.even (M := M)
  have hfull := site.node.full
  have hpc : cur ≠ parent := shape.ne_of_mem_child site.node.mem
  rcases site.node_cases ordered shape n with ⟨rfl, hkey, hlo, -⟩ | ⟨-, hnode, -, -⟩ |
    ⟨rfl, hnode, hlo, -⟩ | ⟨hp, -, ⟨up, hnode⟩, hlo, -⟩
  · rw [hkey] at hx
    rw [hlo] at hnot
    exact site.room_parent ordered shape hx hnot hc hleaf hy
  · rw [hnode] at hn hx
    have hlt := (List.getElem?_eq_some_iff.mp hx).1
    have hinner : (σ.pool cur).isLeaf = false := hn.1
    have hcut : cutAt M (σ.pool cur) = M / 2 + 1 := by simp [cutAt, hinner]
    simp only [rightHalf, List.length_drop, hcut] at hlt
    omega
  · rw [hnode] at hn hx hc
    rw [hlo] at hnot
    obtain ⟨hold, -, -⟩ := site.child_left ordered hn.1 hc
    obtain ⟨hne, hne'⟩ := site.ne_of_mem_child shape hpc (List.mem_of_getElem? hold)
    obtain ⟨hleaf', hy', hclo⟩ := site.leaf_away ordered shape hne hne' hleaf hy
    rw [leftHalf, List.getElem?_take, if_pos (by omega)] at hx
    rw [hclo]
    exact ordered.room n x c y hn hx hnot hold hleaf' hy'
  · rw [hnode] at hn hx hc
    rw [hlo] at hnot
    obtain ⟨hne, hne'⟩ := site.ne_of_mem_child shape hp (List.mem_of_getElem? hc)
    obtain ⟨hleaf', hy', hclo⟩ := site.leaf_away ordered shape hne hne' hleaf hy
    rw [hclo]
    exact ordered.room n x c y hn hx hnot hc hleaf' hy'

end SplitSite

theorem Ordered.afterSplit_preserves [NodeOrder M] (ordered : Ordered M σ b) (shape : Shape σ dist)
    (site : SplitSite M σ b cur parent j probe separator k) :
    Ordered M (afterSplit M σ cur parent probe separator) (b.split cur σ.nbNode separator) where
  sorted := site.sorted_afterSplit ordered shape
  lo_le := fun _ _ hx => site.lo_le_afterSplit ordered shape hx
  le_hi := fun _ _ hx => site.le_hi_afterSplit ordered shape hx
  lo_root := by
    rw [Bounds.split_lo_of_ne (Nat.ne_of_lt shape.root_lt)]
    exact ordered.lo_root
  hi_root := by
    have hne : root ≠ cur := (shape.child_ne_root _ _ site.node.mem).symm
    rw [Bounds.split_hi_of_ne hne (Nat.ne_of_lt shape.root_lt)]
    exact ordered.hi_root
  child_lo := fun _ _ _ hn hc => (site.child_afterSplit ordered shape hn hc).1
  child_hi := fun _ _ _ hn hc => (site.child_afterSplit ordered shape hn hc).2
  leaf_back := fun _ _ hlt hleaf hs => site.leaf_back_afterSplit ordered shape hlt hleaf hs
  copies := fun _ _ _ hi hx => site.copies_afterSplit ordered shape hi hx
  room := fun _ _ _ _ hn hx hnot hc hleaf hy =>
    site.room_afterSplit ordered shape hn hx hnot hc hleaf hy

end AfterSplit

end FatBTree.Tree
