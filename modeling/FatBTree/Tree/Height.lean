import FatBTree.Tree.Population
import Mathlib.Algebra.Ring.Nat

/-!
# The length of a lookup

A lookup makes one access for every node above the value node.  From a node on the path it
saves the accesses above that node.  Without loaded nodes the paths are as long as the
height, which is logarithmic in the number of records.
-/

namespace FatBTree.Tree

open FatBTree.Order

variable {κ V : Type} [LinearOrder κ] [Inhabited V]

/-! ## The accesses of a lookup -/

section Accesses

variable {σ τ τ' : State κ V} {dist : Nat → Nat} {k : κ} {v : V}

/-- A path ends at its value node. -/
theorem valuePath_unique (shape : Shape σ dist) {first second c d : Nat}
    (hfirst : pathTo σ k first = some c) (hvalue : (σ.pool c).isValue = true)
    (hsecond : pathTo σ k second = some d) : second ≤ first := by
  by_contra hgt
  have hnone : ∀ gap, pathTo σ k (first + 1 + gap) = none := by
    intro gap
    induction gap with
    | zero =>
        rw [Nat.add_zero, pathTo_succ hfirst, childFor, (shape.value_bare c hvalue).2.2]
        rfl
    | succ gap ih => rw [← Nat.add_assoc, pathTo, ih]
  have hlater := hnone (second - first - 1)
  rw [show first + 1 + (second - first - 1) = second by omega, hsecond] at hlater
  cases hlater

/-- The loop follows the path and counts its steps. -/
theorem lookupLoop_path (shape : Shape σ dist) {fuel d cur : Nat} (same : SameTree σ τ)
    (hcur : pathTo σ k d = some cur) (hrun : lookupLoop k fuel τ cur = some (v, τ')) :
    ∃ steps c, pathTo σ k (d + steps) = some c ∧ (σ.pool c).isValue = true ∧
      (σ.pool c).val = v ∧ τ'.nbAccess = τ.nbAccess + UInt32.ofNat steps ∧
      τ'.nbQuery = τ.nbQuery := by
  induction fuel generalizing τ d cur with
  | zero => cases hrun
  | succ fuel ih =>
      rw [lookupLoop, same.isValue, same.childFor, same.val] at hrun
      cases hvalue : (σ.pool cur).isValue with
      | true =>
          rw [hvalue, if_pos rfl] at hrun
          cases hrun
          exact ⟨0, cur, hcur, hvalue, rfl, (UInt32.add_zero _).symm, rfl⟩
      | false =>
          rw [hvalue, if_neg Bool.false_ne_true] at hrun
          cases hchild : childFor (σ.pool cur) k with
          | none => rw [hchild] at hrun; cases hrun
          | some next =>
              rw [hchild] at hrun
              have hnext : pathTo σ k (d + 1) = some next := (pathTo_succ hcur).trans hchild
              have hlt : next < τ.nbNode := same.nbNode.symm ▸ (pathTo_dist shape hnext).1
              obtain ⟨steps, c, hc, hcval, hval, haccess, hquery⟩ :=
                ih (same.trans (sameTree_visit τ.nbQuery (τ.nbAccess + 1) hlt)) hnext hrun
              refine ⟨steps + 1, c, ?_, hcval, hval, ?_, hquery⟩
              · rw [← hc]
                congr 1
                omega
              · rw [haccess, Nat.add_comm steps 1, UInt32.ofNat_add]
                exact UInt32.add_assoc ..

/-- From a node on the way to a value node the loop ends there. -/
theorem lookupLoop_of_path (shape : Shape σ dist) {fuel d steps cur c : Nat}
    (same : SameTree σ τ) (hcur : pathTo σ k d = some cur)
    (hc : pathTo σ k (d + steps) = some c) (hvalue : (σ.pool c).isValue = true)
    (hfuel : steps < fuel) :
    ∃ τ', lookupLoop k fuel τ cur = some ((σ.pool c).val, τ') := by
  induction steps generalizing τ d cur fuel with
  | zero =>
      obtain ⟨fuel, rfl⟩ : ∃ rest, fuel = rest + 1 := ⟨fuel - 1, by omega⟩
      obtain rfl : cur = c := Option.some.inj (hcur.symm.trans hc)
      rw [lookupLoop, same.isValue, hvalue, if_pos rfl, same.val]
      exact ⟨τ, rfl⟩
  | succ steps ih =>
      obtain ⟨fuel, rfl⟩ : ∃ rest, fuel = rest + 1 := ⟨fuel - 1, by omega⟩
      have hbare : (σ.pool cur).isValue = false := by
        by_contra hcurValue
        have hle := valuePath_unique shape hcur (by simpa using hcurValue) hc
        omega
      obtain ⟨next, hchild⟩ : ∃ next, childFor (σ.pool cur) k = some next := by
        cases hchild : childFor (σ.pool cur) k with
        | some next => exact ⟨next, rfl⟩
        | none =>
            have hnone : ∀ gap, pathTo σ k (d + 1 + gap) = none := by
              intro gap
              induction gap with
              | zero => rw [Nat.add_zero, pathTo_succ hcur, hchild]
              | succ gap ihGap => rw [← Nat.add_assoc, pathTo, ihGap]
            rw [show d + (steps + 1) = d + 1 + steps by omega, hnone] at hc
            cases hc
      have hnext : pathTo σ k (d + 1) = some next := (pathTo_succ hcur).trans hchild
      have hlt : next < τ.nbNode := same.nbNode.symm ▸ (pathTo_dist shape hnext).1
      rw [lookupLoop, same.isValue, same.childFor, hbare, if_neg Bool.false_ne_true, hchild]
      refine ih (same.trans (sameTree_visit τ.nbQuery (τ.nbAccess + 1) hlt)) hnext ?_ (by omega)
      rw [← hc]
      congr 1
      omega

/-- A lookup follows the rest of the path and counts its steps. -/
theorem path_of_lookup (shape : Shape σ dist) {d n : Nat} (hn : pathTo σ k d = some n)
    (hrun : lookup σ k n = some (v, τ')) :
    ∃ steps c, pathTo σ k (d + steps) = some c ∧ (σ.pool c).isValue = true ∧
      (σ.pool c).val = v ∧ τ'.nbAccess = σ.nbAccess + UInt32.ofNat steps ∧
      τ'.nbQuery = σ.nbQuery + 1 :=
  lookupLoop_path shape
    (sameTree_visit (σ.nbQuery + 1) σ.nbAccess (pathTo_dist shape hn).1) hn hrun

/-- A lookup from a node on the way to a value node returns its value. -/
theorem lookup_of_path (shape : Shape σ dist) {d steps n c : Nat} (hn : pathTo σ k d = some n)
    (hc : pathTo σ k (d + steps) = some c) (hvalue : (σ.pool c).isValue = true) :
    ∃ τ', lookup σ k n = some ((σ.pool c).val, τ') := by
  have hdist := (pathTo_dist shape hc).2
  have hfuel := shape.dist_lt (pathTo_dist shape hc).1
  exact lookupLoop_of_path shape
    (sameTree_visit (σ.nbQuery + 1) σ.nbAccess (pathTo_dist shape hn).1) hn hc hvalue
    (show steps < σ.nbNode by omega)

/-- A lookup that starts below the root finds the same and saves the accesses above. -/
theorem lookup_below (shape : Shape σ dist) {d n : Nat} (hn : pathTo σ k d = some n)
    {σ₁ : State κ V} (hroot : lookup σ k root = some (v, σ₁)) :
    ∃ σ₂, lookup σ k n = some (v, σ₂) ∧ σ₁.nbAccess = σ₂.nbAccess + UInt32.ofNat d ∧
      σ₁.nbQuery = σ₂.nbQuery := by
  obtain ⟨total, c, hc, hvalue, rfl, haccess, hquery⟩ :=
    path_of_lookup (d := 0) shape rfl hroot
  rw [Nat.zero_add] at hc
  have hle := valuePath_unique shape hc hvalue hn
  have hrest : pathTo σ k (d + (total - d)) = some c := by
    rw [show d + (total - d) = total by omega, hc]
  obtain ⟨σ₂, hlookup⟩ := lookup_of_path shape hn hrest hvalue
  obtain ⟨steps, c', hc', hvalue', -, haccess', hquery'⟩ := path_of_lookup shape hn hlookup
  have hfirst := valuePath_unique shape hc hvalue hc'
  have hsecond := valuePath_unique shape hc' hvalue' hc
  refine ⟨σ₂, hlookup, ?_, hquery.trans hquery'.symm⟩
  rw [haccess, haccess', UInt32.add_assoc, ← UInt32.ofNat_add]
  congr 2
  omega

/-- A lookup that fails from the root fails from every node of its path. -/
theorem lookup_below_none (shape : Shape σ dist) {d n : Nat} (hn : pathTo σ k d = some n)
    (hroot : lookup σ k root = none) : lookup σ k n = none := by
  cases hlookup : lookup σ k n with
  | none => rfl
  | some found =>
      obtain ⟨steps, c, hc, hvalue, -⟩ := path_of_lookup shape hn hlookup
      rw [← Nat.zero_add (d + steps)] at hc
      obtain ⟨τ, hfound⟩ := lookup_of_path (n := root) shape (pathTo_zero σ k) hc hvalue
      rw [hroot] at hfound
      cases hfound

end Accesses

omit [Inhabited V] in
/-- A key has a ceiling just when it is not above all inserted ones. -/
theorem exists_ceiling_iff {history : List (κ × V)} {k : κ} :
    (∃ v, ceiling history k = some v) ↔ ∃ x ∈ keysOf history, k ≤ x := by
  constructor
  · rintro ⟨v, hv⟩
    cases hceil : ceilKey (keysOf history) k with
    | none =>
        rw [ceiling, hceil] at hv
        cases hv
    | some x =>
        obtain ⟨⟨hx, hle⟩, -⟩ := ceilKey_eq_some_iff.mp hceil
        exact ⟨x, hx, hle⟩
  · rintro ⟨x, hx, hle⟩
    cases hceil : ceilKey (keysOf history) k with
    | none => exact absurd (ceilKey_eq_none_iff.mp hceil x hx) (not_lt_of_ge hle)
    | some y =>
        obtain ⟨v, hv⟩ := lookup_isSome_of_mem (ceilKey_eq_some_iff.mp hceil).1.1
        exact ⟨v, by rw [ceiling, hceil]; exact hv⟩

/-- A lookup from the root returns just when its key is not above all inserted ones. -/
theorem Settled.lookup_root_iff {M : Nat} {w : World κ V} {history : List (κ × V)}
    (settled : Settled M w history) (k : κ) :
    (∃ v σ', lookup w.state k root = some (v, σ')) ↔ ∃ x ∈ keysOf history, k ≤ x := by
  have hfound := Settled.lookup_eq settled settled.shape.root_lt settled.shape.root_isValue
    (settled.ordered.holds_root k)
  rw [← exists_ceiling_iff, ← hfound]
  constructor
  · rintro ⟨v, σ', hrun⟩
    exact ⟨v, by rw [hrun]; rfl⟩
  · rintro ⟨v, hv⟩
    obtain ⟨⟨v', σ'⟩, hrun, -⟩ := Option.map_eq_some_iff.mp hv
    exact ⟨v', σ', hrun⟩

/-! ## The height of the tree -/

section Height

variable {M : Nat} {w : World κ V} {history : List (κ × V)} {n : Nat}

theorem sum_map_le {l : List Nat} {f : Nat → Nat} {c : Nat} (h : ∀ a ∈ l, f a ≤ c) :
    (l.map f).sum ≤ l.length * c := by
  induction l with
  | nil => exact Nat.zero_le _
  | cons a l ih =>
      have hhead := h a List.mem_cons_self
      have htail := ih fun b hb => h b (List.mem_cons_of_mem a hb)
      rw [List.map_cons, List.sum_cons, List.length_cons, Nat.succ_mul]
      omega

theorem le_sum_map {l : List Nat} {f : Nat → Nat} {c : Nat} (h : ∀ a ∈ l, c ≤ f a) :
    l.length * c ≤ (l.map f).sum := by
  induction l with
  | nil => exact Nat.le_of_eq (Nat.zero_mul c)
  | cons a l ih =>
      have hhead := h a List.mem_cons_self
      have htail := ih fun b hb => h b (List.mem_cons_of_mem a hb)
      rw [List.map_cons, List.sum_cons, List.length_cons, Nat.succ_mul]
      omega

theorem Settled.length_child_le (settled : Settled M w history) (n : Nat) :
    (w.state.pool n).child.length ≤ M := by
  have hsmall := settled.small n
  cases hleaf : (w.state.pool n).isLeaf with
  | true =>
      rw [settled.shape.leaf_arity n hleaf]
      exact Nat.le_of_lt hsmall
  | false =>
      cases hvalue : (w.state.pool n).isValue with
      | true =>
          rw [(settled.shape.value_bare n hvalue).2.2]
          exact Nat.zero_le M
      | false =>
          rw [settled.shape.inner_arity n ⟨hleaf, hvalue⟩]
          exact hsmall

theorem Settled.length_leavesFrom_le [NodeOrder M] (settled : Settled M w history) (edges n : Nat) :
    (leavesFrom w.state (edges + 1) n).length ≤ M ^ edges := by
  induction edges generalizing n with
  | zero =>
      rw [leavesFrom]
      split
      · exact Nat.le_refl 1
      · simp [leavesFrom]
  | succ edges ih =>
      have hpos : 0 < M := by
        have hM := NodeOrder.four_le (M := M)
        omega
      rw [leavesFrom]
      split
      · exact Nat.one_le_pow _ _ hpos
      · rw [List.length_flatMap]
        calc ((w.state.pool n).child.map fun c =>
                (leavesFrom w.state (edges + 1) c).length).sum
            ≤ (w.state.pool n).child.length * M ^ edges := sum_map_le fun c _ => ih c
          _ ≤ M ^ (edges + 1) := by
              rw [Nat.pow_succ']
              exact Nat.mul_le_mul_right _ (Settled.length_child_le settled n)

omit [LinearOrder κ] in
/-- The walk down the first children ends at a leaf. -/
theorem Shape.exists_leaf (shape : Shape w.state w.dist) (hlt : n < w.state.nbNode)
    (hval : (w.state.pool n).isValue = false) :
    ∃ leaf, leaf < w.state.nbNode ∧ (w.state.pool leaf).isLeaf = true ∧
      w.dist n ≤ w.dist leaf := by
  induction hgap : w.state.nbNode - w.dist n generalizing n with
  | zero =>
      have hdist := shape.dist_lt hlt
      omega
  | succ gap ih =>
      cases hleaf : (w.state.pool n).isLeaf with
      | true => exact ⟨n, hlt, hleaf, Nat.le_refl _⟩
      | false =>
          have harity := shape.inner_arity n ⟨hleaf, hval⟩
          obtain ⟨c, hc⟩ := List.exists_mem_of_length_pos
            (show 0 < (w.state.pool n).child.length by omega)
          have hstep := shape.dist_child n c hc
          obtain ⟨leaf, hleafLt, hisLeaf, hle⟩ := ih (shape.child_lt n c hc)
            (shape.inner_child n c ⟨hleaf, hval⟩ hc) (by omega)
          exact ⟨leaf, hleafLt, hisLeaf, by omega⟩

omit [LinearOrder κ] in
/-- The inner nodes lie above the level of the leaves. -/
theorem Occupied.dist_inner (occupied : Occupied M w) (shape : Shape w.state w.dist)
    (hinner : (w.state.pool n).IsInner) : w.dist n + 2 ≤ w.state.depth := by
  have harity := shape.inner_arity n hinner
  obtain ⟨c, hc⟩ := List.exists_mem_of_length_pos
    (show 0 < (w.state.pool n).child.length by omega)
  obtain ⟨leaf, hleafLt, hleaf, hle⟩ :=
    shape.exists_leaf (shape.child_lt n c hc) (shape.inner_child n c hinner hc)
  have hstep := shape.dist_child n c hc
  have hlevel := occupied.level leaf hleafLt hleaf
  omega

omit [LinearOrder κ] in
/-- Below a node other than the root the leaves multiply by at least `M / 2` a level. -/
theorem Occupied.le_length_leavesFrom [NodeOrder M] (occupied : Occupied M w)
    (shape : Shape w.state w.dist)
    {edges : Nat} (hlt : n < w.state.nbNode) (hval : (w.state.pool n).isValue = false)
    (hroot : n ≠ root) (hdist : w.dist n + edges + 1 = w.state.depth) :
    (M / 2) ^ edges ≤ (leavesFrom w.state (edges + 1) n).length := by
  induction edges generalizing n with
  | zero =>
      cases hleaf : (w.state.pool n).isLeaf with
      | true =>
          rw [leavesFrom_leaf hleaf]
          exact Nat.le_refl 1
      | false =>
          have hinner := occupied.dist_inner shape ⟨hleaf, hval⟩
          omega
  | succ edges ih =>
      cases hleaf : (w.state.pool n).isLeaf with
      | true =>
          have hlevel := occupied.level n hlt hleaf
          omega
      | false =>
          rw [leavesFrom_inner hleaf, List.length_flatMap, Nat.pow_succ']
          have hhalf := occupied.half_le_children shape hlt hval hroot
          have hchild : ∀ c ∈ (w.state.pool n).child,
              (M / 2) ^ edges ≤ (leavesFrom w.state (edges + 1) c).length := by
            intro c hc
            have hstep := shape.dist_child n c hc
            exact ih (shape.child_lt n c hc) (shape.inner_child n c ⟨hleaf, hval⟩ hc)
              (shape.child_ne_root n c hc) (by omega)
          calc M / 2 * (M / 2) ^ edges
              ≤ (w.state.pool n).child.length * (M / 2) ^ edges :=
                Nat.mul_le_mul_right _ hhalf
            _ ≤ ((w.state.pool n).child.map fun c =>
                  (leavesFrom w.state (edges + 1) c).length).sum := le_sum_map hchild

/-- A tree of more than one node has a leaf level of at least `2 * (M / 2) ^ (depth - 2)`. -/
theorem Occupied.le_length_leaves [NodeOrder M] (occupied : Occupied M w)
    (sound : Sound M w history)
    {edges : Nat} (hdepth : w.state.depth = edges + 2) :
    2 * (M / 2) ^ edges ≤ (leavesFrom w.state w.state.depth root).length := by
  have shape := sound.shape
  have hinner := sound.inner_root (by omega)
  have harity := shape.inner_arity root hinner
  have hkeys := occupied.rootFilled hinner
  have hchild : ∀ c ∈ (w.state.pool root).child,
      (M / 2) ^ edges ≤ (leavesFrom w.state (edges + 1) c).length := by
    intro c hc
    have hstep := shape.dist_child root c hc
    rw [shape.dist_root] at hstep
    exact occupied.le_length_leavesFrom shape (shape.child_lt root c hc)
      (shape.inner_child root c hinner hc) (shape.child_ne_root root c hc) (by omega)
  rw [hdepth, leavesFrom_inner hinner.1, List.length_flatMap]
  calc 2 * (M / 2) ^ edges
      ≤ (w.state.pool root).child.length * (M / 2) ^ edges :=
        Nat.mul_le_mul_right _ (by omega)
    _ ≤ ((w.state.pool root).child.map fun c =>
          (leavesFrom w.state (edges + 1) c).length).sum := le_sum_map hchild

/-! ## Records and accesses -/

section Counts

variable {variant : Variant V} {entries : Entries κ V}

/-- The leaves hold one key for each insertion. -/
theorem Records.sum_leaves (records : Records variant w entries) (sound : Sound M w history)
    (occupied : Occupied M w) :
    ((leavesFrom w.state w.state.depth root).map fun leaf =>
      (w.state.pool leaf).key.length).sum = entries.length := by
  have hperm := (records.leafPairs_perm sound occupied).length_eq
  rw [List.length_map, leafPairs, List.length_flatMap] at hperm
  rw [← hperm]
  refine congrArg List.sum (List.map_congr_left fun leaf hleaf => ?_)
  have harity := sound.shape.leaf_arity leaf (descends_of_mem_leavesFrom hleaf).1
  rw [List.length_zip, harity, Nat.min_self]

omit [LinearOrder κ] in
theorem Occupied.depth_pos (occupied : Occupied M w) (shape : Shape w.state w.dist) :
    1 ≤ w.state.depth := by
  obtain ⟨leaf, hlt, hleaf, -⟩ := shape.exists_leaf shape.root_lt shape.root_isValue
  have hlevel := occupied.level leaf hlt hleaf
  omega

/-- A tree of `d` levels holds at most `(M - 1) * M ^ (d - 1)` records. -/
theorem Records.length_le [NodeOrder M] (records : Records variant w entries)
    (settled : Settled M w history)
    (occupied : Occupied M w) : entries.length ≤ (M - 1) * M ^ (w.state.depth - 1) := by
  have hdepth := occupied.depth_pos settled.shape
  have hleaves := Settled.length_leavesFrom_le settled (w.state.depth - 1) root
  rw [Nat.sub_add_cancel hdepth] at hleaves
  calc entries.length
      = ((leavesFrom w.state w.state.depth root).map fun leaf =>
          (w.state.pool leaf).key.length).sum :=
        (records.sum_leaves settled.toSound occupied).symm
    _ ≤ (leavesFrom w.state w.state.depth root).length * (M - 1) := by
        refine sum_map_le fun leaf _ => ?_
        have hsmall := settled.small leaf
        omega
    _ ≤ (M - 1) * M ^ (w.state.depth - 1) := by
        rw [Nat.mul_comm]
        exact Nat.mul_le_mul_left _ hleaves

/-- A tree of `d` levels, `d` at least two, holds at least `2 * (M / 2) ^ (d - 1)` records. -/
theorem Records.le_length [NodeOrder M] (records : Records variant w entries)
    (sound : Sound M w history)
    (occupied : Occupied M w) (hdepth : 2 ≤ w.state.depth) :
    2 * (M / 2) ^ (w.state.depth - 1) ≤ entries.length := by
  have shape := sound.shape
  obtain ⟨edges, hedges⟩ : ∃ edges, w.state.depth = edges + 2 := ⟨w.state.depth - 2, by omega⟩
  have hleaves := occupied.le_length_leaves sound hedges
  have hkeys : ∀ leaf ∈ leavesFrom w.state w.state.depth root,
      M / 2 ≤ (w.state.pool leaf).key.length := by
    intro leaf hmem
    obtain ⟨hleaf, d, below⟩ := descends_of_mem_leavesFrom hmem
    have hlt := shape.lt_of_descends shape.root_lt below
    have hne : leaf ≠ root := by
      rintro rfl
      have hinner := (sound.inner_root hdepth).1
      rw [hleaf] at hinner
      cases hinner
    have hleast := occupied.filled leaf hlt (shape.isValue_of_isLeaf hleaf) hne hne
    rwa [leastKeys, if_pos hleaf] at hleast
  calc 2 * (M / 2) ^ (w.state.depth - 1)
      = 2 * (M / 2) ^ edges * (M / 2) := by
        rw [hedges, Nat.mul_assoc, ← Nat.pow_succ]
        rfl
    _ ≤ (leavesFrom w.state w.state.depth root).length * (M / 2) :=
        Nat.mul_le_mul_right _ hleaves
    _ ≤ ((leavesFrom w.state w.state.depth root).map fun leaf =>
          (w.state.pool leaf).key.length).sum := le_sum_map hkeys
    _ = entries.length := records.sum_leaves sound occupied

/-- A lookup from the root that finds something passes one node of every level. -/
theorem Occupied.lookup_accesses (occupied : Occupied M w) (shape : Shape w.state w.dist)
    {k : κ} {v : V} {σ' : State κ V} (hrun : lookup w.state k root = some (v, σ')) :
    (∃ c, pathTo w.state k w.state.depth = some c ∧ (w.state.pool c).isValue = true ∧
        (w.state.pool c).val = v) ∧
      σ'.nbAccess = w.state.nbAccess + UInt32.ofNat w.state.depth ∧
      σ'.nbQuery = w.state.nbQuery + 1 := by
  obtain ⟨steps, c, hc, hvalue, hval, haccess, hquery⟩ :=
    path_of_lookup (d := 0) shape rfl hrun
  rw [Nat.zero_add] at hc
  obtain ⟨hlt, hdist⟩ := pathTo_dist shape hc
  have hne : c ≠ root := by
    rintro rfl
    rw [shape.root_isValue] at hvalue
    cases hvalue
  -- the node above the value node is a leaf, and all leaves are equally deep
  obtain ⟨leaf, hmem⟩ := shape.owned c hlt hne
  have hleaf : (w.state.pool leaf).isLeaf = true := by
    by_contra hinner
    have hbare : (w.state.pool leaf).isValue = false := by
      by_contra hleafValue
      rw [(shape.value_bare leaf (by simpa using hleafValue)).2.2] at hmem
      cases hmem
    have hchild := shape.inner_child leaf c ⟨by simpa using hinner, hbare⟩ hmem
    rw [hvalue] at hchild
    cases hchild
  have hlevel := occupied.level leaf (shape.lt_of_mem_child hmem) hleaf
  have hstep := shape.dist_child leaf c hmem
  have hsteps : steps = w.state.depth := by omega
  rw [hsteps] at hc haccess
  exact ⟨⟨c, hc, hvalue, hval⟩, haccess, hquery⟩

end Counts

end Height

/-- The height is logarithmic: the tree of any sequence of insertions has a depth with
`2 * (M / 2) ^ (depth - 1) ≤ inserts ≤ (M - 1) * M ^ (depth - 1)`, and every lookup that
finds something finds it `depth` steps below the root, one access a step. -/
theorem depth_of_inserts (variant : Variant V) {M : Nat} [NodeOrder M]
    (inserts : List (κ × V)) :
    ∃ σ, Reaches M variant (inserts.map fun kv => Call.insert kv.1 kv.2) σ ∧
      inserts.length ≤ (M - 1) * M ^ (σ.depth - 1) ∧
      (2 ≤ σ.depth → 2 * (M / 2) ^ (σ.depth - 1) ≤ inserts.length) ∧
      ∀ x ∈ inserts.map Prod.fst, ∀ k ≤ x, ∃ v σ', lookup σ k root = some (v, σ') ∧
        (∃ c, pathTo σ k σ.depth = some c ∧ (σ.pool c).isValue = true ∧ (σ.pool c).val = v) ∧
        σ'.nbAccess = σ.nbAccess + UInt32.ofNat σ.depth ∧ σ'.nbQuery = σ.nbQuery + 1 := by
  obtain ⟨w, history, entries, hrun, settled, occupied, records, hentries⟩ :=
    records_of_run variant (M := M) inserts
  have hlen : entries.length = inserts.length := by rw [← hentries, List.length_map]
  refine ⟨w.state, hrun, ?_, fun hdepth => ?_, fun x hx k hle => ?_⟩
  · exact hlen ▸ records.length_le settled occupied
  · exact hlen ▸ records.le_length settled.toSound occupied hdepth
  · have hmem : x ∈ keysOf history := by
      rw [← hentries, List.map_map] at hx
      obtain ⟨entry, hentry, rfl⟩ := List.mem_map.mp hx
      obtain ⟨leaf, p, hleaf, hkey, -⟩ := records.hangs entry hentry
      exact settled.contents.recorded leaf _ hleaf (List.mem_of_getElem? hkey)
    obtain ⟨v, σ', hfound⟩ := (settled.lookup_root_iff k).mpr ⟨x, hmem, hle⟩
    exact ⟨v, σ', hfound, occupied.lookup_accesses settled.shape hfound⟩

/-- Twenty keys fill one leaf and half of another. -/
theorem depth_of_inserts_twenty :
    ∃ σ : State Nat Unit,
      Reaches 16 ⟨fun v _ => v, fun v _ => v, fun v => v⟩
        (((List.range 20).map fun i => (i, ())).map fun kv => Call.insert kv.1 kv.2) σ ∧
      20 ≤ 15 * 16 ^ (σ.depth - 1) ∧ (2 ≤ σ.depth → 2 * 8 ^ (σ.depth - 1) ≤ 20) ∧
      ∃ v σ', lookup σ 18 root = some (v, σ') ∧
        (∃ c, pathTo σ 18 σ.depth = some c ∧ (σ.pool c).isValue = true ∧
          (σ.pool c).val = v) ∧
        σ'.nbAccess = σ.nbAccess + UInt32.ofNat σ.depth ∧ σ'.nbQuery = σ.nbQuery + 1 := by
  obtain ⟨σ, hreach, hmost, hleast, hlookup⟩ := depth_of_inserts (M := 16)
    ⟨fun v _ => v, fun v _ => v, fun v => v⟩ ((List.range 20).map fun i => (i, ()))
  exact ⟨σ, hreach, hmost, hleast, hlookup 19 (by decide) 18 (by decide)⟩

end FatBTree.Tree
