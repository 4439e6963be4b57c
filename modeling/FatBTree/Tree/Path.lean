import FatBTree.Tree.Ordered
import Mathlib.Data.Finset.Card

/-!
# Paths and intervals

The root-to-value path of a key runs through the nodes that are responsible
for it, one at each distance from the root, and ends below the one leaf that
is responsible for it.
-/

namespace FatBTree.Tree

open FatBTree.Order

variable {κ V : Type} [LinearOrder κ] [Inhabited V]
variable {M : Nat} {σ : State κ V} {dist : Nat → Nat} {b : Bounds κ} {k : κ} {n m : Nat}

/-! ## Distances are below the number of nodes -/

omit [LinearOrder κ] in
theorem Shape.dist_attained (shape : Shape σ dist) {d : Nat} :
    ∀ n, n < σ.nbNode → d ≤ dist n → ∃ m, m < σ.nbNode ∧ dist m = d := by
  intro n
  induction hn : dist n - d generalizing n with
  | zero =>
      intro hlt hle
      exact ⟨n, hlt, by omega⟩
  | succ gap ih =>
      intro hlt hle
      have hne : n ≠ root := by
        rintro rfl
        have := shape.dist_root
        omega
      obtain ⟨p, hp⟩ := shape.owned n hlt hne
      have hstep := shape.dist_child p n hp
      exact ih p (by omega) (shape.lt_of_mem_child hp) (by omega)

omit [LinearOrder κ] in
/-- Every distance up to that of a node belongs to a node of its own. -/
theorem Shape.dist_lt (shape : Shape σ dist) (hlt : n < σ.nbNode) : dist n < σ.nbNode := by
  have hsurj : Set.SurjOn dist (Finset.range σ.nbNode) (Finset.range (dist n + 1)) := by
    intro d hd
    have hd' : d ≤ dist n := by
      simp only [Finset.coe_range, Set.mem_Iio] at hd
      omega
    obtain ⟨m, hm, hdist⟩ := shape.dist_attained n hlt hd'
    exact ⟨m, by simpa using hm, hdist⟩
  have hcard := Finset.card_le_card_of_surjOn dist hsurj
  simp only [Finset.card_range] at hcard
  omega

/-! ## Children on the path -/

omit [LinearOrder κ] in
/-- The owner of a node that holds no value is an inner node. -/
theorem Shape.inner_of_mem_child (shape : Shape σ dist) {c : Nat}
    (hc : c ∈ (σ.pool n).child) (hval : (σ.pool c).isValue = false) : (σ.pool n).IsInner := by
  constructor
  · by_contra hleaf
    have hvalue := shape.leaf_child n c (by simpa using hleaf) hc
    simp [hval] at hvalue
  · by_contra hvalue
    rw [(shape.value_bare n (by simpa using hvalue)).2.2] at hc
    simp at hc

/-- Lower-bound descent always finds a child of an inner node. -/
theorem Shape.childFor_inner (shape : Shape σ dist) (hinner : (σ.pool n).IsInner) (k : κ) :
    ∃ c, childFor (σ.pool n) k = some c ∧ c ∈ (σ.pool n).child := by
  have hlen := lowerBound_le_length (σ.pool n).key k
  have hlt : lowerBound (σ.pool n).key k < (σ.pool n).child.length := by
    rw [shape.inner_arity n hinner]
    omega
  exact ⟨_, List.getElem?_eq_getElem hlt, List.getElem_mem hlt⟩

omit [Inhabited V] in
theorem mem_child_of_childFor {c : Nat} (hc : childFor (σ.pool n) k = some c) :
    c ∈ (σ.pool n).child :=
  List.mem_of_getElem? hc

theorem pathTo_dist (shape : Shape σ dist) {steps : Nat} (hn : pathTo σ k steps = some n) :
    n < σ.nbNode ∧ dist n = steps := by
  induction steps generalizing n with
  | zero =>
      cases hn
      exact ⟨shape.root_lt, shape.dist_root⟩
  | succ steps ih =>
      cases hp : pathTo σ k steps with
      | none => rw [pathTo, hp] at hn; cases hn
      | some p =>
          rw [pathTo_succ hp] at hn
          have hmem := mem_child_of_childFor hn
          obtain ⟨-, hdist⟩ := ih hp
          exact ⟨shape.child_lt p n hmem, by rw [shape.dist_child p n hmem, hdist]⟩

/-- A node responsible for a key is on the path of the key. -/
theorem Ordered.pathTo_of_holds (ordered : Ordered M σ b) (shape : Shape σ dist)
    (hlt : n < σ.nbNode) (hval : (σ.pool n).isValue = false) (holds : b.Holds n k) :
    pathTo σ k (dist n) = some n := by
  induction hd : dist n generalizing n with
  | zero =>
      by_cases hroot : n = root
      · rw [hroot]
        rfl
      · obtain ⟨p, hp⟩ := shape.owned n hlt hroot
        have := shape.dist_child p n hp
        omega
  | succ d ih =>
      have hroot : n ≠ root := by
        rintro rfl
        have := shape.dist_root
        omega
      obtain ⟨p, hp⟩ := shape.owned n hlt hroot
      have hinner := shape.inner_of_mem_child hp hval
      obtain ⟨i, hi⟩ := List.mem_iff_getElem?.mp hp
      have hdist := shape.dist_child p n hp
      have hparent := ordered.holds_parent hinner hi holds
      rw [pathTo_succ (ih (shape.lt_of_mem_child hp) hinner.2 hparent (by omega)), childFor,
        ordered.lowerBound_of_child shape hinner hi holds, hi]

/-- A path leaves a leaf for a value node and ends there. -/
theorem Shape.isValue_of_pathTo_gt (shape : Shape σ dist) {steps : Nat}
    (hn : pathTo σ k steps = some n) (hleaf : (σ.pool n).isLeaf = true) :
    ∀ later m, steps < later → pathTo σ k later = some m → (σ.pool m).isValue = true := by
  intro later m hlt hm
  obtain ⟨gap, rfl⟩ : ∃ gap, later = steps + 1 + gap := ⟨later - steps - 1, by omega⟩
  induction gap generalizing m with
  | zero =>
      rw [Nat.add_zero, pathTo_succ hn] at hm
      exact shape.leaf_child n m hleaf (mem_child_of_childFor hm)
  | succ gap ih =>
      cases hp : pathTo σ k (steps + 1 + gap) with
      | none => rw [← Nat.add_assoc, pathTo, hp] at hm; cases hm
      | some p =>
          have hvalue := ih p (by omega) hp
          rw [← Nat.add_assoc, pathTo_succ hp] at hm
          have hmem := mem_child_of_childFor hm
          rw [(shape.value_bare p hvalue).2.2] at hmem
          simp at hmem

/-- What the descent meets before a value node is responsible for the key. -/
theorem Ordered.holds_of_pathTo (ordered : Ordered M σ b) (shape : Shape σ dist) {steps : Nat}
    (hn : pathTo σ k steps = some n) (hval : (σ.pool n).isValue = false) : b.Holds n k := by
  induction steps generalizing n with
  | zero =>
      cases hn
      exact ordered.holds_root k
  | succ steps ih =>
      cases hp : pathTo σ k steps with
      | none => rw [pathTo, hp] at hn; cases hn
      | some p =>
          rw [pathTo_succ hp] at hn
          have hinner := shape.inner_of_mem_child (mem_child_of_childFor hn) hval
          exact ordered.holds_childFor hinner (ih hp hinner.2) hn

/-- Exactly one leaf is responsible for a key. -/
theorem Ordered.leaf_unique (ordered : Ordered M σ b) (shape : Shape σ dist)
    (hn : n < σ.nbNode) (hm : m < σ.nbNode) (hnleaf : (σ.pool n).isLeaf = true)
    (hmleaf : (σ.pool m).isLeaf = true) (hnholds : b.Holds n k) (hmholds : b.Holds m k) :
    n = m := by
  have hnval := shape.isValue_of_isLeaf hnleaf
  have hmval := shape.isValue_of_isLeaf hmleaf
  have hpn := ordered.pathTo_of_holds shape hn hnval hnholds
  have hpm := ordered.pathTo_of_holds shape hm hmval hmholds
  rcases Nat.lt_trichotomy (dist n) (dist m) with hlt | heq | hgt
  · have hvalue := shape.isValue_of_pathTo_gt hpn hnleaf _ _ hlt hpm
    simp [hmval] at hvalue
  · rw [heq, hpm] at hpn
    cases hpn
    rfl
  · have hvalue := shape.isValue_of_pathTo_gt hpm hmleaf _ _ hgt hpn
    simp [hnval] at hvalue

/-! ## The descent of `insert` -/

/-- The descent ends in the leaf that is responsible for the key. -/
theorem Ordered.descendToLeaf_eq (ordered : Ordered M σ b) (shape : Shape σ dist) (fuel : Nat)
    (hlt : n < σ.nbNode) (hval : (σ.pool n).isValue = false) (holds : b.Holds n k)
    (hfuel : σ.nbNode ≤ fuel + dist n) :
    ∃ leaf, descendToLeaf σ k fuel n = some leaf ∧ leaf < σ.nbNode ∧
      (σ.pool leaf).isLeaf = true ∧ b.Holds leaf k := by
  induction fuel generalizing n with
  | zero =>
      have := shape.dist_lt hlt
      omega
  | succ fuel ih =>
      cases hleaf : (σ.pool n).isLeaf with
      | true => exact ⟨n, by simp [descendToLeaf, hleaf], hlt, hleaf, holds⟩
      | false =>
          have hinner : (σ.pool n).IsInner := ⟨hleaf, hval⟩
          obtain ⟨c, hc, hmem⟩ := shape.childFor_inner hinner k
          have hdist := shape.dist_child n c hmem
          obtain ⟨leaf, hdescend, hrest⟩ := ih (shape.child_lt n c hmem)
            (shape.inner_child n c hinner hmem) (ordered.holds_childFor hinner holds hc)
            (by omega)
          exact ⟨leaf, by simp [descendToLeaf, hleaf, hc, hdescend], hrest⟩

end FatBTree.Tree
