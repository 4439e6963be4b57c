import FatBTree.Tree.Contents

/-!
# What every step of an insertion keeps

Addresses, kinds and values survive each step, and a node is never given a
larger interval.  The right end of an interval moves only when the node itself
is split, which never happens to the root or to a node marked as loaded.
-/

namespace FatBTree.Tree

open FatBTree.Order

variable {κ V : Type} [LinearOrder κ]

/-- `overflow` moves the content of such a node down before it splits. -/
def Pinned (σ : State κ V) (n : Nat) : Prop :=
  n = root ∨ (σ.pool n).isLoaded2Switch = true

instance (σ : State κ V) (n : Nat) : Decidable (Pinned σ n) :=
  inferInstanceAs (Decidable (n = root ∨ (σ.pool n).isLoaded2Switch = true))

/-- A tree with the ghost data its invariants speak about. -/
structure World (κ V : Type) where
  state : State κ V
  dist : Nat → Nat
  bounds : Bounds κ

structure Keeps (w w' : World κ V) : Prop where
  nbNode_le : w.state.nbNode ≤ w'.state.nbNode
  depth_le : w.state.depth ≤ w'.state.depth
  isValue : ∀ n, n < w.state.nbNode →
    (w'.state.pool n).isValue = (w.state.pool n).isValue
  inner : ∀ n, n < w.state.nbNode → (w.state.pool n).isLeaf = false →
    (w'.state.pool n).isLeaf = false
  loaded : ∀ n, n < w.state.nbNode → (w.state.pool n).isLoaded2Switch = true →
    (w'.state.pool n).isLoaded2Switch = true
  val : ∀ n, n < w.state.nbNode → (w.state.pool n).isValue = true →
    (w'.state.pool n).val = (w.state.pool n).val
  lo : ∀ n, n < w.state.nbNode → w'.bounds.lo n = w.bounds.lo n
  hi_le : ∀ n, n < w.state.nbNode → w'.bounds.hi n ≤ w.bounds.hi n
  hi_pinned : ∀ n, n < w.state.nbNode → Pinned w.state n → w'.bounds.hi n = w.bounds.hi n
  dist_le : ∀ n, n < w.state.nbNode → w.dist n ≤ w'.dist n

namespace Keeps

variable {w w' w'' : World κ V}

theorem refl (w : World κ V) : Keeps w w := by
  constructor <;> intros <;> first | rfl | assumption

theorem pinned (keeps : Keeps w w') {n : Nat} (hn : n < w.state.nbNode)
    (hpinned : Pinned w.state n) : Pinned w'.state n :=
  hpinned.imp_right (keeps.loaded n hn)

theorem trans (first : Keeps w w') (second : Keeps w' w'') : Keeps w w'' := by
  have hlt : ∀ n, n < w.state.nbNode → n < w'.state.nbNode :=
    fun n hn => Nat.lt_of_lt_of_le hn first.nbNode_le
  constructor
  case nbNode_le => exact first.nbNode_le.trans second.nbNode_le
  case depth_le => exact first.depth_le.trans second.depth_le
  case isValue =>
    intro n hn
    exact (second.isValue n (hlt n hn)).trans (first.isValue n hn)
  case inner =>
    intro n hn hinner
    exact second.inner n (hlt n hn) (first.inner n hn hinner)
  case loaded =>
    intro n hn hloaded
    exact second.loaded n (hlt n hn) (first.loaded n hn hloaded)
  case val =>
    intro n hn hvalue
    have hvalue' := (first.isValue n hn).trans hvalue
    exact (second.val n (hlt n hn) hvalue').trans (first.val n hn hvalue)
  case lo =>
    intro n hn
    exact (second.lo n (hlt n hn)).trans (first.lo n hn)
  case hi_le =>
    intro n hn
    exact (second.hi_le n (hlt n hn)).trans (first.hi_le n hn)
  case hi_pinned =>
    intro n hn hpinned
    exact (second.hi_pinned n (hlt n hn) (first.pinned hn hpinned)).trans
      (first.hi_pinned n hn hpinned)
  case dist_le =>
    intro n hn
    exact (first.dist_le n hn).trans (second.dist_le n (hlt n hn))

/-- A pinned node is responsible for the same keys afterwards. -/
theorem holds_iff (keeps : Keeps w w') {n : Nat} (hn : n < w.state.nbNode)
    (hpinned : Pinned w.state n) {k : κ} : w'.bounds.Holds n k ↔ w.bounds.Holds n k := by
  rw [Bounds.Holds, Bounds.Holds, keeps.lo n hn, keeps.hi_pinned n hn hpinned]

end Keeps

section Steps

variable (variant : Variant V) {M : Nat} {σ : State κ V} {dist : Nat → Nat} {b : Bounds κ}
  {cur : Nat}

theorem keeps_insertIntoLeaf (dist : Nat → Nat) (b : Bounds κ) (k : κ) (v : V) :
    Keeps ⟨σ, dist, b⟩
      ⟨insertIntoLeaf variant σ cur k v, Function.update dist σ.nbNode (dist cur + 1), b⟩ := by
  have hpool : ∀ n, n < σ.nbNode → ∃ key child,
      (insertIntoLeaf variant σ cur k v).pool n = { σ.pool n with key := key, child := child } := by
    intro n hn
    rw [insertIntoLeaf_pool, if_neg (by omega)]
    split_ifs
    · exact ⟨_, _, rfl⟩
    · exact ⟨(σ.pool n).key, (σ.pool n).child, rfl⟩
  constructor
  case nbNode_le => exact Nat.le_succ _
  case depth_le => exact Nat.le_refl _
  case isValue =>
    intro n hn
    obtain ⟨key, child, hnode⟩ := hpool n hn
    simp only [hnode]
  case inner =>
    intro n hn hinner
    obtain ⟨key, child, hnode⟩ := hpool n hn
    simpa only [hnode] using hinner
  case loaded =>
    intro n hn hloaded
    obtain ⟨key, child, hnode⟩ := hpool n hn
    simpa only [hnode] using hloaded
  case val =>
    intro n hn _
    obtain ⟨key, child, hnode⟩ := hpool n hn
    simp only [hnode]
  case lo => intros; rfl
  case hi_le => intros; exact le_refl _
  case hi_pinned => intros; rfl
  case dist_le =>
    intro n hn
    simp only [Function.update_of_ne (Nat.ne_of_lt hn)]
    exact Nat.le_refl _

theorem Shape.keeps_copyDown [Inhabited V] (shape : Shape σ dist) (b : Bounds κ)
    (hlt : cur < σ.nbNode)
    (hval : (σ.pool cur).isValue = false) :
    Keeps ⟨σ, dist, b⟩
      ⟨copyDown variant σ cur, copyDist σ dist cur, b.copy σ.nbNode cur⟩ := by
  constructor
  case nbNode_le => exact Nat.le_succ _
  case depth_le =>
    simp only [copyDown_depth]
    split_ifs <;> omega
  case isValue =>
    intro n _
    exact shape.copyDown_isValue variant hlt n
  case inner =>
    intro n hn hinner
    simp only [shape.copyDown_isLeaf variant hlt n, if_neg (Nat.ne_of_lt hn)]
    split_ifs
    · rfl
    · exact hinner
  case loaded =>
    intro n hn hloaded
    by_cases hcur : n = cur
    · subst hcur
      simpa only [shape.copyDown_pool_cur variant hlt] using hloaded
    · obtain ⟨up, hup⟩ := shape.copyDown_pool_other variant hlt hcur (Nat.ne_of_lt hn)
      simpa only [hup] using hloaded
  case val =>
    intro n _ hvalue
    exact shape.copyDown_val variant hlt hval hvalue
  case lo =>
    intro n hn
    exact Bounds.copy_lo_of_ne (Nat.ne_of_lt hn)
  case hi_le =>
    intro n hn
    exact (Bounds.copy_hi_of_ne (Nat.ne_of_lt hn)).le
  case hi_pinned =>
    intro n hn _
    exact Bounds.copy_hi_of_ne (Nat.ne_of_lt hn)
  case dist_le =>
    intro n hn
    exact le_copyDist hn

theorem SplitSite.keeps_afterSplit [Inhabited V] [NodeOrder M] {parent j : Nat}
    {probe separator k : κ}
    (site : SplitSite M σ b cur parent j probe separator k) (ordered : Ordered M σ b)
    (shape : Shape σ dist) (hfree : ¬ Pinned σ cur) :
    Keeps ⟨σ, dist, b⟩
      ⟨afterSplit M σ cur parent probe separator, Function.update dist σ.nbNode (dist cur),
        b.split cur σ.nbNode separator⟩ := by
  constructor
  case nbNode_le => exact Nat.le_succ _
  case depth_le => exact Nat.le_refl _
  case isValue =>
    intro n _
    exact shape.afterSplit_isValue probe separator site.node n
  case inner =>
    intro n hn hinner
    simpa only [shape.afterSplit_isLeaf probe separator site.node n, if_neg (Nat.ne_of_lt hn)]
      using hinner
  case loaded =>
    intro n hn hloaded
    have hnew : n ≠ σ.nbNode := Nat.ne_of_lt hn
    by_cases hp : n = parent
    · subst hp
      simpa only [shape.afterSplit_pool_parent probe separator site.node] using hloaded
    · by_cases hcur : n = cur
      · subst hcur
        simpa only [shape.afterSplit_pool_cur probe separator site.node, leftHalf] using hloaded
      · obtain ⟨up, hup⟩ := shape.afterSplit_pool_other probe separator site.node hp hnew hcur
        simpa only [hup] using hloaded
  case val =>
    intro n _ hvalue
    exact site.val_afterSplit shape hvalue
  case lo =>
    intro n hn
    exact Bounds.split_lo_of_ne (Nat.ne_of_lt hn)
  case hi_le =>
    intro n hn
    by_cases hcur : n = cur
    · simp only [hcur, Bounds.split_hi_cur]
      exact site.separator_le_hi ordered
    · exact (Bounds.split_hi_of_ne hcur (Nat.ne_of_lt hn)).le
  case hi_pinned =>
    intro n hn hpinned
    have hcur : n ≠ cur := by
      rintro rfl
      exact hfree hpinned
    exact Bounds.split_hi_of_ne hcur (Nat.ne_of_lt hn)
  case dist_le =>
    intro n hn
    simp only [Function.update_of_ne (Nat.ne_of_lt hn)]
    exact Nat.le_refl _

end Steps

end FatBTree.Tree
