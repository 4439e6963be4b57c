import FatBTree.Tree.Frame
import Mathlib.Data.List.Pairwise

/-!
# The leaves from left to right

A depth-first walk visits the leaves in the order of their intervals, so the
keys it passes are sorted.  It visits every leaf once, and with it every value
node.
-/

namespace FatBTree.Tree

open FatBTree.Order

variable {κ V : Type} [Inhabited V]

/-- `n` is `d` edges below `a`. -/
inductive Descends (σ : State κ V) (a : Nat) : Nat → Nat → Prop where
  | refl : Descends σ a 0 a
  | step {d n c : Nat} : Descends σ a d n → c ∈ (σ.pool n).child → Descends σ a (d + 1) c

/-- The leaves at or below `n`, from left to right. -/
def leavesFrom (σ : State κ V) : Nat → Nat → List Nat
  | 0, _ => []
  | fuel + 1, n =>
      if (σ.pool n).isLeaf then [n] else (σ.pool n).child.flatMap (leavesFrom σ fuel)

/-- The keys of all leaves. -/
def leafKeys (σ : State κ V) : List κ :=
  (leavesFrom σ σ.depth root).flatMap fun leaf => (σ.pool leaf).key

/-- The keys of all leaves, each with its value node. -/
def leafPairs (σ : State κ V) : List (κ × Nat) :=
  (leavesFrom σ σ.depth root).flatMap fun leaf => (σ.pool leaf).key.zip (σ.pool leaf).child

variable {M : Nat} {σ : State κ V} {dist : Nat → Nat} {b : Bounds κ} {n m : Nat}

/-! ## Descents -/

omit [Inhabited V] in
theorem Descends.cons {a c d : Nat} (hc : c ∈ (σ.pool a).child) (below : Descends σ c d n) :
    Descends σ a (d + 1) n := by
  induction below with
  | refl => exact .step .refl hc
  | step _ hchild ih => exact .step ih hchild

theorem Shape.dist_of_descends (shape : Shape σ dist) {a d : Nat} (below : Descends σ a d n) :
    dist n = dist a + d := by
  induction below with
  | refl => rfl
  | step _ hchild ih => rw [shape.dist_child _ _ hchild, ih, Nat.add_assoc]

theorem Shape.lt_of_descends (shape : Shape σ dist) {a d : Nat} (ha : a < σ.nbNode)
    (below : Descends σ a d n) : n < σ.nbNode := by
  cases below with
  | refl => exact ha
  | step _ hchild => exact shape.child_lt _ _ hchild

/-- Every node descends from the root. -/
theorem Shape.descends_root (shape : Shape σ dist) (hlt : n < σ.nbNode) :
    Descends σ root (dist n) n := by
  induction hd : dist n generalizing n with
  | zero =>
      by_cases hroot : n = root
      · rw [hroot]
        exact .refl
      · obtain ⟨p, hp⟩ := shape.owned n hlt hroot
        have hstep := shape.dist_child p n hp
        omega
  | succ d ih =>
      have hroot : n ≠ root := by
        rintro rfl
        rw [shape.dist_root] at hd
        cases hd
      obtain ⟨p, hp⟩ := shape.owned n hlt hroot
      have hstep := shape.dist_child p n hp
      exact .step (ih (shape.lt_of_mem_child hp) (by omega)) hp

/-- Nodes equally far above a node are the same. -/
theorem Shape.descends_unique (shape : Shape σ dist) {a a' d : Nat} (first : Descends σ a d n)
    (second : Descends σ a' d n) : a = a' := by
  induction d generalizing n with
  | zero =>
      cases first
      cases second
      rfl
  | succ d ih =>
      obtain - | ⟨hfirst, hchild⟩ := first
      obtain - | ⟨hsecond, hchild'⟩ := second
      obtain rfl := shape.unique _ _ _ hchild hchild'
      exact ih hfirst hsecond

/-! ## The walk -/

omit [Inhabited V] in
theorem leavesFrom_leaf {fuel : Nat} (hleaf : (σ.pool n).isLeaf = true) :
    leavesFrom σ (fuel + 1) n = [n] := by
  rw [leavesFrom, if_pos hleaf]

omit [Inhabited V] in
theorem leavesFrom_inner {fuel : Nat} (hleaf : (σ.pool n).isLeaf = false) :
    leavesFrom σ (fuel + 1) n = (σ.pool n).child.flatMap (leavesFrom σ fuel) := by
  rw [leavesFrom, if_neg (by simp [hleaf])]

omit [Inhabited V] in
theorem descends_of_mem_leavesFrom {fuel : Nat} (hm : m ∈ leavesFrom σ fuel n) :
    (σ.pool m).isLeaf = true ∧ ∃ d, Descends σ n d m := by
  induction fuel generalizing n with
  | zero => cases hm
  | succ fuel ih =>
      cases hleaf : (σ.pool n).isLeaf with
      | true =>
          rw [leavesFrom_leaf hleaf, List.mem_singleton] at hm
          subst hm
          exact ⟨hleaf, 0, .refl⟩
      | false =>
          rw [leavesFrom_inner hleaf] at hm
          obtain ⟨c, hc, hm⟩ := List.mem_flatMap.mp hm
          obtain ⟨hmleaf, d, below⟩ := ih hm
          exact ⟨hmleaf, d + 1, below.cons hc⟩

/-- The walk from the root passes what a walk from any other node passes. -/
theorem Shape.mem_leavesFrom_root (shape : Shape σ dist) {fuel : Nat} (hlt : n < σ.nbNode)
    (hval : (σ.pool n).isValue = false) (hm : m ∈ leavesFrom σ fuel n) :
    m ∈ leavesFrom σ (fuel + dist n) root := by
  induction hd : dist n generalizing n fuel with
  | zero =>
      by_cases hroot : n = root
      · rwa [hroot] at hm
      · obtain ⟨p, hp⟩ := shape.owned n hlt hroot
        have hstep := shape.dist_child p n hp
        omega
  | succ d ih =>
      have hroot : n ≠ root := by
        rintro rfl
        have hzero := shape.dist_root
        omega
      obtain ⟨p, hp⟩ := shape.owned n hlt hroot
      have hinner := shape.inner_of_mem_child hp hval
      have hstep := shape.dist_child p n hp
      have hup : m ∈ leavesFrom σ (fuel + 1) p := by
        rw [leavesFrom_inner hinner.1]
        exact List.mem_flatMap.mpr ⟨n, hp, hm⟩
      have hrest := ih (shape.lt_of_mem_child hp) hinner.2 hup (by omega)
      rwa [Nat.add_right_comm] at hrest

theorem Shape.nodup_leavesFrom (shape : Shape σ dist) {fuel : Nat} :
    (leavesFrom σ fuel n).Nodup := by
  induction fuel generalizing n with
  | zero => exact List.nodup_nil
  | succ fuel ih =>
      cases hleaf : (σ.pool n).isLeaf with
      | true =>
          rw [leavesFrom_leaf hleaf]
          exact List.nodup_singleton n
      | false =>
          rw [leavesFrom_inner hleaf]
          refine List.nodup_flatMap.mpr ⟨fun c _ => ih, ?_⟩
          refine (shape.nodup n).imp_of_mem fun hc hc' hne => ?_
          intro leaf hfirst hsecond
          obtain ⟨-, d, below⟩ := descends_of_mem_leavesFrom hfirst
          obtain ⟨-, d', below'⟩ := descends_of_mem_leavesFrom hsecond
          have hdist := shape.dist_of_descends below
          have hdist' := shape.dist_of_descends below'
          rw [shape.dist_child n _ hc] at hdist
          rw [shape.dist_child n _ hc'] at hdist'
          obtain rfl : d = d' := by omega
          exact hne (shape.descends_unique below below')

/-- The keys the walk passes are sorted and stay within the interval of its start. -/
theorem Ordered.ascending_leavesFrom [LinearOrder κ] (ordered : Ordered M σ b)
    (shape : Shape σ dist)
    {fuel : Nat} (hval : (σ.pool n).isValue = false) :
    Ascending ((leavesFrom σ fuel n).flatMap fun leaf => (σ.pool leaf).key) ∧
      ∀ x ∈ (leavesFrom σ fuel n).flatMap fun leaf => (σ.pool leaf).key,
        b.lo n ≤ (x : WithBot κ) ∧ (x : WithTop κ) ≤ b.hi n := by
  induction fuel generalizing n with
  | zero => exact ⟨List.Pairwise.nil, fun x hx => by cases hx⟩
  | succ fuel ih =>
      cases hleaf : (σ.pool n).isLeaf with
      | true =>
          rw [leavesFrom_leaf hleaf, List.flatMap_singleton]
          exact ⟨ordered.sorted n, fun x hx => ⟨ordered.lo_le n x hx, ordered.le_hi n x hx⟩⟩
      | false =>
          have hinner : (σ.pool n).IsInner := ⟨hleaf, hval⟩
          have harity := shape.inner_arity n hinner
          have hchild : ∀ {i c}, (σ.pool n).child[i]? = some c → (σ.pool c).isValue = false :=
            fun hc => shape.inner_child n _ hinner (List.mem_of_getElem? hc)
          rw [leavesFrom_inner hleaf, List.flatMap_assoc]
          constructor
          · refine List.pairwise_flatMap.mpr ⟨fun c hc => ?_, ?_⟩
            · exact (ih (shape.inner_child n c hinner hc)).1
            · refine List.pairwise_iff_getElem.mpr fun i j hi hj hij x hx y hy => ?_
              have hci : (σ.pool n).child[i]? = some (σ.pool n).child[i] := by simp
              have hcj : (σ.pool n).child[j]? = some (σ.pool n).child[j] := by simp
              have hxhi := ((ih (hchild hci)).2 x hx).2
              have hylo := ((ih (hchild hcj)).2 y hy).1
              -- the separators between the two children lie between the keys
              obtain ⟨j, rfl⟩ : ∃ j', j = j' + 1 := ⟨j - 1, by omega⟩
              have hki : (σ.pool n).key[i]? = some (σ.pool n).key[i] := by simp
              have hkj : (σ.pool n).key[j]? = some (σ.pool n).key[j] := by simp
              rw [ordered.child_hi n i _ hinner hci, segHi_of_getElem? hki] at hxhi
              rw [ordered.child_lo n _ _ hinner hcj, segLo_succ hkj] at hylo
              calc
                x ≤ (σ.pool n).key[i] := WithTop.coe_le_coe.mp hxhi
                _ ≤ (σ.pool n).key[j] := (ordered.sorted n).le (by omega) hki hkj
                _ ≤ y := WithBot.coe_le_coe.mp hylo
          · intro x hx
            obtain ⟨c, hc, hx⟩ := List.mem_flatMap.mp hx
            obtain ⟨i, hi⟩ := List.mem_iff_getElem?.mp hc
            obtain ⟨hlo, hhi⟩ := (ih (hchild hi)).2 x hx
            rw [ordered.child_lo n i c hinner hi] at hlo
            rw [ordered.child_hi n i c hinner hi] at hhi
            exact ⟨(lo_le_segLo (ordered.lo_le n)).trans hlo,
              hhi.trans (segHi_le_hi (ordered.le_hi n))⟩

end FatBTree.Tree
