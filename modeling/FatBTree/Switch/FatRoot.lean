import FatBTree.Switch.Walks
import FatBTree.Tree.Way

/-!
# The fat root

The first turn of the greedy loop replaces the root by its children, so the fat root has
at least two children and the root is not among them.  Its keys are separators of the
tree, in strictly ascending order.
-/

namespace FatBTree.Switch

open FatBTree.Order FatBTree.Tree

variable {κ V : Type} [LinearOrder κ] [OrderBot κ] [Inhabited V]

/-! ## The loop -/

section Loop

variable {M : Nat} {σ : State κ V} {dist : Nat → Nat} {rootLoadNum depthLimit : Nat}
  {nodeMap nodeMap' : List (Nat × κ)}

/-- A turn of the loop never brings the root back. -/
theorem frontierLoop_ne_root (shape : Shape σ dist) (ties : Ties) {fuel : Nat} {nodePq : List Nat}
    (hne : ∀ p ∈ nodeMap, p.1 ≠ root)
    (hloop : frontierLoop M σ ties rootLoadNum depthLimit fuel nodeMap nodePq = some nodeMap') :
    ∀ p ∈ nodeMap', p.1 ≠ root := by
  induction fuel generalizing nodeMap nodePq with
  | zero => cases hloop
  | succ fuel ih =>
      unfold frontierLoop at hloop
      split at hloop
      · split at hloop
        · cases hloop
          exact hne
        · split at hloop
          · cases hloop
          · next entries hentries =>
              have hfst := map_fst_childEntries hentries
              have hnodup : (entries.map Prod.fst).Nodup := hfst ▸ shape.nodup _
              refine ih (fun p hp => ?_) hloop
              rcases (mem_foldl_assign hnodup).mp (List.mem_filter.mp hp).1 with hentry | ⟨hold, -⟩
              · exact shape.child_ne_root _ _ (hfst ▸ List.mem_map_of_mem hentry)
              · exact hne p hold
      · cases hloop
        exact hne

/-- With room for its children the root is replaced. -/
theorem frontier_ne_root (shape : Shape σ dist) (ties : Ties) (hroom : 1 + M ≤ rootLoadNum)
    {nodeVec : List (Nat × κ)}
    (hfrontier : frontier M σ ties rootLoadNum depthLimit = some nodeVec) :
    ∀ p ∈ nodeVec, p.1 ≠ root := by
  obtain ⟨nodeMap, hloop, rfl⟩ := Option.map_eq_some_iff.mp hfrontier
  intro p hp
  have hmem : p ∈ nodeMap := (List.perm_insertionSort _ _).subset hp
  unfold frontierLoop at hloop
  rw [if_pos (show [(root, (⊥ : κ))].length + M ≤ rootLoadNum from hroom)] at hloop
  have hsort : sortByAccess σ (ties.pop σ.nbNode) [root] = [root] := rfl
  simp only [hsort] at hloop
  split at hloop
  · cases hloop
  · refine frontierLoop_ne_root shape ties (fun q hq => ?_) hloop p hmem
    simpa using (List.mem_filter.mp hq).2

end Loop

/-! ## Two children -/

section Partition

variable {M : Nat} {w : World κ V} {history : List (κ × V)} {depthLimit : Nat}
  {nodeVec : List (Nat × κ)}

/-- A node on the way of every key is the root, if the root has two children. -/
theorem eq_root_of_onWay (sound : Sound M w history) (strict : Strict w)
    (hinner : (w.state.pool root).IsInner) (hkeys : 1 ≤ (w.state.pool root).key.length) {n : Nat}
    (hlt : n < w.state.nbNode) (onWay : ∀ k, OnWay w k n) : n = root := by
  by_contra hne
  have shape := sound.shape
  have harity := shape.inner_arity root hinner
  have hchild : ∀ (i : Nat) (hi : i < (w.state.pool root).child.length),
      ∃ k, OnWay w k (w.state.pool root).child[i] ∧ w.dist (w.state.pool root).child[i] = 1 := by
    intro i hi
    have hmem := List.getElem_mem hi
    have hval := shape.inner_child root _ hinner hmem
    obtain ⟨k, holds⟩ := strict.nonempty _ (shape.child_lt root _ hmem) hval
    refine ⟨k, sound.onWay_of_holds (shape.child_lt root _ hmem) hval holds, ?_⟩
    rw [shape.dist_child root _ hmem, shape.dist_root]
  have hpos : 1 ≤ w.dist n := by
    obtain ⟨p, hp⟩ := shape.owned n hlt hne
    have hstep := shape.dist_child p n hp
    omega
  -- every child of the root is on the way of every key
  have hevery : ∀ (i : Nat) (hi : i < (w.state.pool root).child.length) k,
      OnWay w k (w.state.pool root).child[i] := by
    intro i hi k
    obtain ⟨x, hx, hdist⟩ := hchild i hi
    rcases Nat.eq_or_lt_of_le hpos with heq | hgt
    · rw [← (onWay x).eq hx (by omega)]
      exact onWay k
    · exact (onWay k).above shape (hx.below shape (onWay x) (by omega))
  obtain ⟨k, hfirst, hdist⟩ := hchild 0 (by omega)
  obtain ⟨-, -, hdist'⟩ := hchild 1 (by omega)
  have hsame := hfirst.eq (hevery 1 (by omega) k) (by omega)
  have hindex := (List.Nodup.getElem_inj_iff (shape.nodup root)).mp hsame
  cases hindex

/-- A partition without the root has two nodes. -/
theorem Partition.two_le_length (partition : Partition w depthLimit nodeVec)
    (sound : Sound M w history) (strict : Strict w) (hinner : (w.state.pool root).IsInner)
    (hkeys : 1 ≤ (w.state.pool root).key.length) (hne : ∀ p ∈ nodeVec, p.1 ≠ root) :
    2 ≤ nodeVec.length := by
  match nodeVec, partition, hne with
  | [], partition, _ =>
      obtain ⟨p, hp, -⟩ := partition.cover ⊥
      cases hp
  | [p], partition, hne =>
      refine absurd ?_ (hne p List.mem_cons_self)
      refine eq_root_of_onWay sound strict hinner hkeys (partition.lt p List.mem_cons_self) ?_
      intro k
      obtain ⟨q, hq, holds⟩ := partition.cover k
      obtain rfl := List.mem_singleton.mp hq
      exact sound.onWay_of_holds (partition.lt q hq) (partition.isValue q hq) holds
  | p :: q :: rest, _, _ => simp

/-! ## The keys -/

/-- The fat keys ascend strictly. -/
theorem Partition.fat_sorted (partition : Partition w depthLimit nodeVec)
    (sound : Sound M w history) (strict : Strict w)
    (sorted : nodeVec.Pairwise (fun p q => p.2 ≤ q.2)) :
    (nodeVec.tail.map Prod.snd).Pairwise (· < ·) := by
  rw [List.pairwise_map]
  have hdistinct : nodeVec.tail.Pairwise (fun p q => p.1 ≠ q.1) := by
    have hnodup : (nodeVec.tail.map Prod.fst).Nodup := by
      rw [List.map_tail]
      exact partition.nodup.sublist (List.tail_sublist _)
    exact List.pairwise_map.mp hnodup
  refine (hdistinct.and (sorted.sublist (List.tail_sublist _))).imp_of_mem ?_
  rintro p q hp hq ⟨hne, hle⟩
  have hpVec := List.mem_of_mem_tail hp
  have hhi := (partition.hi_le_key strict sound hpVec (List.mem_of_mem_tail hq) hne hle).1
  obtain ⟨k, hlo, hk⟩ := strict.nonempty p.1 (partition.lt p hpVec) (partition.isValue p hpVec)
  rw [partition.lo_of_mem_tail strict sound sorted hp] at hlo
  exact (WithBot.coe_lt_coe.mp hlo).trans_le (WithTop.coe_le_coe.mp (hk.trans hhi))

/-- The fat keys are keys of the tree. -/
theorem Partition.fat_keys [NodeOrder M] (partition : Partition w depthLimit nodeVec)
    (sound : Sound M w history) (strict : Strict w)
    (sorted : nodeVec.Pairwise (fun p q => p.2 ≤ q.2)) {P : κ → Prop} (keysIn : KeysIn P w) :
    ∀ x ∈ nodeVec.tail.map Prod.snd, P x := by
  intro x hx
  obtain ⟨q, hq, rfl⟩ := List.mem_map.mp hx
  have hmem := List.mem_of_mem_tail hq
  exact keysIn.lo sound (partition.lt q hmem) (partition.isValue q hmem)
    (partition.lo_of_mem_tail strict sound sorted hq)

end Partition

end FatBTree.Switch
