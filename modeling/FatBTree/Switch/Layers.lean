import FatBTree.Switch.Snapshot

/-!
# The layers below the fat root

Layers that stay above the leaves have nodes, and each layer has a node once.
-/

namespace FatBTree.Switch

open FatBTree.Order FatBTree.Tree

variable {κ V : Type} {ties : Ties} {loadNum : Nat}

theorem take_layersFrom (σ : State κ V) (ties : Ties) (loadNum most i count : Nat)
    (nodes : List Nat) :
    (layersFrom σ ties loadNum i count nodes).take most =
      layersFrom σ ties loadNum i (min most count) nodes := by
  induction most generalizing i count nodes with
  | zero => rw [List.take_zero, Nat.zero_min, layersFrom]
  | succ most ih =>
      cases count with
      | zero => rw [layersFrom, List.take_nil, Nat.min_zero, layersFrom]
      | succ count => rw [layersFrom, List.take_succ_cons, ih, Nat.succ_min_succ, layersFrom]

theorem length_layersFrom_eq (σ : State κ V) (ties : Ties) (loadNum i count : Nat)
    (nodes : List Nat) : (layersFrom σ ties loadNum i count nodes).length = count := by
  induction count generalizing i nodes with
  | zero => rfl
  | succ count ih => rw [layersFrom, List.length_cons, ih]

theorem capLayer_ne_nil {σ : State κ V} (hnum : 0 < loadNum) {i : Nat} {nodes : List Nat}
    (hne : nodes ≠ []) : capLayer σ ties loadNum i nodes ≠ [] := by
  have hperm : (sortByAccess σ (ties.layer i) nodes).length = nodes.length :=
    (List.perm_insertionSort _ _).length_eq
  have hpos := List.length_pos_iff.mpr hne
  refine List.length_pos_iff.mp ?_
  rw [capLayer, List.length_take, hperm]
  omega

theorem nodup_capLayer {σ : State κ V} {i : Nat} {nodes : List Nat} (hnodup : nodes.Nodup) :
    (capLayer σ ties loadNum i nodes).Nodup :=
  ((List.perm_insertionSort _ _).nodup_iff.mpr hnodup).sublist (List.take_sublist _ _)

/-- Layers that stay above the leaves have nodes, each of them once. -/
theorem inner_layersFrom [LinearOrder κ] [Inhabited V] {M : Nat} {w : World κ V}
    {history : List (κ × V)} (sound : Sound M w history) (hnum : 0 < loadNum) {count i : Nat}
    {nodes : List Nat} (hne : nodes ≠ []) (hnodup : nodes.Nodup)
    (hnodes : ∀ n ∈ nodes, n < w.state.nbNode ∧ (w.state.pool n).isValue = false ∧
      w.dist n + count < w.state.depth) :
    ∀ layer ∈ layersFrom w.state ties loadNum i count nodes, layer ≠ [] ∧ layer.Nodup ∧
      ∀ n ∈ layer, n < w.state.nbNode ∧ (w.state.pool n).IsInner := by
  have shape := sound.shape
  induction count generalizing i nodes with
  | zero =>
      intro layer hlayer
      cases hlayer
  | succ count ih =>
      have hinner : ∀ n ∈ nodes, (w.state.pool n).IsInner := by
        intro n hn
        obtain ⟨hlt, hval, hdist⟩ := hnodes n hn
        exact sound.inner_of_dist_lt hlt hval (by omega)
      intro layer hlayer
      rcases List.mem_cons.mp hlayer with rfl | hrest
      · exact ⟨hne, hnodup, fun n hn => ⟨(hnodes n hn).1, hinner n hn⟩⟩
      · refine ih (capLayer_ne_nil hnum ?_) (nodup_capLayer ?_) (fun c hc => ?_) layer hrest
        · obtain ⟨n, rest, rfl⟩ := List.exists_cons_of_ne_nil hne
          have harity := shape.inner_arity n (hinner n List.mem_cons_self)
          obtain ⟨c, hc⟩ := List.exists_mem_of_length_pos
            (show 0 < (w.state.pool n).child.length by omega)
          exact List.ne_nil_of_mem (List.mem_flatMap.mpr ⟨n, List.mem_cons_self, hc⟩)
        · refine List.nodup_flatMap.mpr ⟨fun n _ => shape.nodup n, hnodup.imp fun {p q} hpq => ?_⟩
          exact fun c hp hq => hpq (shape.unique p q c hp hq)
        · obtain ⟨p, hp, hchild⟩ := List.mem_flatMap.mp (mem_capLayer hc)
          have hdist := (hnodes p hp).2.2
          have hstep := shape.dist_child p c hchild
          exact ⟨shape.child_lt p c hchild, shape.inner_child p c (hinner p hp) hchild, by omega⟩

end FatBTree.Switch
