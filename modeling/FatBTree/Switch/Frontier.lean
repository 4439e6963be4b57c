import FatBTree.Tree.Strict
import Mathlib.Data.List.Sort

/-!
# The greedy frontier of `load2switch_greedy`

The most accessed nodes near the root are replaced by their children until the
fat root is full.  What remains is an antichain whose intervals partition the
keys, so its left ends, in order, are the keys of the fat root.
-/

namespace FatBTree.Switch

open FatBTree.Order FatBTree.Tree

variable {κ V : Type} [LinearOrder κ] [OrderBot κ] [Inhabited V]

/-- How the standard library orders nodes with equal access counts: when the
priority queue pops, and when a layer is sorted. -/
structure Ties where
  pop : Nat → Nat → Nat
  layer : Nat → Nat → Nat

/-- `a` may stand before `c` in a sort by decreasing `access_count`. -/
def MoreAccessed (σ : State κ V) (rank : Nat → Nat) (a c : Nat) : Prop :=
  (σ.pool c).accessCount < (σ.pool a).accessCount ∨
    ((σ.pool a).accessCount = (σ.pool c).accessCount ∧ rank a ≤ rank c)

instance (σ : State κ V) (rank : Nat → Nat) : DecidableRel (MoreAccessed σ rank) :=
  fun _ _ => inferInstanceAs (Decidable (_ ∨ (_ ∧ _)))

/-- `sort` by decreasing `access_count`. -/
def sortByAccess (σ : State κ V) (rank : Nat → Nat) (nodes : List Nat) : List Nat :=
  nodes.insertionSort (MoreAccessed σ rank)

/-- `Node::depth()`: the length of the parent chain. -/
def nodeDepth (σ : State κ V) : Nat → Nat → Nat
  | 0, _ => 0
  | fuel + 1, n =>
      match (σ.pool n).parent with
      | none => 0
      | some p => nodeDepth σ fuel p + 1

/-- `node_map[child] = key`. -/
def assign (nodeMap : List (Nat × κ)) (entry : Nat × κ) : List (Nat × κ) :=
  entry :: nodeMap.filter (fun p => p.1 != entry.1)

/-- `node_map.erase(tmp)`. -/
def erase (nodeMap : List (Nat × κ)) (tmp : Nat) : List (Nat × κ) :=
  nodeMap.filter (fun p => p.1 != tmp)

/-- Each child with the key it gets: the first one inherits the key of `tmp`.
`none` stands for a read past the end of the key vector. -/
def childEntries (node : Node κ V) (own : κ) : Option (List (Nat × κ)) :=
  if node.child.length ≤ node.key.length + 1 then some (node.child.zip (own :: node.key))
  else none

/-- The children of `tmp` that are pushed on the priority queue. -/
def pushed (σ : State κ V) (depthLimit tmp : Nat) : List Nat :=
  (σ.pool tmp).child.filter (fun c =>
    !(σ.pool c).isLeaf && decide (nodeDepth σ σ.nbNode c < depthLimit))

/-- The `while` loop over `node_map` and `node_pq`. -/
def frontierLoop (M : Nat) (σ : State κ V) (ties : Ties) (rootLoadNum depthLimit : Nat) :
    Nat → List (Nat × κ) → List Nat → Option (List (Nat × κ))
  | 0, _, _ => none
  | fuel + 1, nodeMap, nodePq =>
      if nodeMap.length + M ≤ rootLoadNum then
        match sortByAccess σ (ties.pop fuel) nodePq with
        | [] => some nodeMap
        | tmp :: rest =>
            match childEntries (σ.pool tmp) ((nodeMap.lookup tmp).getD ⊥) with
            | none => none
            | some entries =>
                frontierLoop M σ ties rootLoadNum depthLimit fuel
                  (erase (entries.foldl assign nodeMap) tmp)
                  (rest ++ pushed σ depthLimit tmp)
      else some nodeMap

/-- The order of `pair<KEY_TYPE, Node *>`. -/
def KeyBefore (p q : Nat × κ) : Prop :=
  p.2 < q.2 ∨ (p.2 = q.2 ∧ p.1 ≤ q.1)

instance : DecidableRel (KeyBefore (κ := κ)) :=
  fun _ _ => inferInstanceAs (Decidable (_ ∨ (_ ∧ _)))

/-- `sort(node_vec)`. -/
def sortByKey (nodeMap : List (Nat × κ)) : List (Nat × κ) :=
  nodeMap.insertionSort KeyBefore

/-- `node_vec` as the loop leaves it. -/
def frontier (M : Nat) (σ : State κ V) (ties : Ties) (rootLoadNum depthLimit : Nat) :
    Option (List (Nat × κ)) :=
  (frontierLoop M σ ties rootLoadNum depthLimit (σ.nbNode + 1) [(root, ⊥)] [root]).map
    sortByKey

/-! ## The invariant of the frontier -/

/-- The frontier partitions the keys, and each of its nodes carries the left
end of its interval. -/
structure Partition (w : World κ V) (depthLimit : Nat) (nodeMap : List (Nat × κ)) : Prop where
  nodup : (nodeMap.map Prod.fst).Nodup
  lt : ∀ p ∈ nodeMap, p.1 < w.state.nbNode
  isValue : ∀ p ∈ nodeMap, (w.state.pool p.1).isValue = false
  shallow : ∀ p ∈ nodeMap, w.dist p.1 ≤ depthLimit
  key_eq : ∀ p ∈ nodeMap, p.2 = (w.bounds.lo p.1).unbotD ⊥
  cover : ∀ k, ∃ p ∈ nodeMap, w.bounds.Holds p.1 k
  disjoint : ∀ p ∈ nodeMap, ∀ q ∈ nodeMap, ∀ k, w.bounds.Holds p.1 k →
    w.bounds.Holds q.1 k → p.1 = q.1

/-- The queue holds inner frontier nodes, none of them twice over the run. -/
structure Queue (w : World κ V) (depthLimit : Nat) (nodeMap : List (Nat × κ))
    (popped nodePq : List Nat) : Prop where
  nodup : (popped ++ nodePq).Nodup
  lt : ∀ n ∈ popped ++ nodePq, n < w.state.nbNode
  owned : ∀ n ∈ popped ++ nodePq, n ≠ root → ∃ p ∈ popped, n ∈ (w.state.pool p).child
  member : ∀ n ∈ nodePq, ∃ key, (n, key) ∈ nodeMap
  inner : ∀ n ∈ nodePq, (w.state.pool n).IsInner
  shallow : ∀ n ∈ nodePq, w.dist n < depthLimit

section Lists

variable {nodeMap entries : List (Nat × κ)} {p : Nat × κ}

omit [LinearOrder κ] [OrderBot κ] in
theorem mem_foldl_assign (hnodup : (entries.map Prod.fst).Nodup) :
    p ∈ entries.foldl assign nodeMap ↔
      p ∈ entries ∨ (p ∈ nodeMap ∧ p.1 ∉ entries.map Prod.fst) := by
  induction entries generalizing nodeMap with
  | nil => simp
  | cons first rest ih =>
      have hparts := List.nodup_cons.mp hnodup
      rw [List.foldl_cons, ih hparts.2]
      simp only [assign, List.mem_cons, List.mem_filter, bne_iff_ne, List.map_cons, not_or]
      constructor
      · rintro (hrest | ⟨rfl | ⟨hmem, hne⟩, hout⟩)
        · exact Or.inl (Or.inr hrest)
        · exact Or.inl (Or.inl rfl)
        · exact Or.inr ⟨hmem, hne, hout⟩
      · rintro ((rfl | hrest) | ⟨hmem, hne, hout⟩)
        · exact Or.inr ⟨Or.inl rfl, hparts.1⟩
        · exact Or.inl hrest
        · exact Or.inr ⟨Or.inr ⟨hmem, hne⟩, hout⟩

omit [LinearOrder κ] [OrderBot κ] in
theorem nodup_foldl_assign (hnodup : (nodeMap.map Prod.fst).Nodup) :
    ((entries.foldl assign nodeMap).map Prod.fst).Nodup := by
  induction entries generalizing nodeMap with
  | nil => exact hnodup
  | cons first rest ih =>
      rw [List.foldl_cons]
      apply ih
      rw [assign, List.map_cons, List.nodup_cons]
      constructor
      · simp
      · exact hnodup.sublist (List.Sublist.map _ List.filter_sublist)

omit [LinearOrder κ] [OrderBot κ] [Inhabited V] in
/-- The entries of the children, by position. -/
theorem mem_childEntries {node : Node κ V} {own : κ}
    (hentries : childEntries node own = some entries) :
    p ∈ entries ↔ ∃ i : Nat, node.child[i]? = some p.1 ∧ (own :: node.key)[i]? = some p.2 := by
  unfold childEntries at hentries
  split at hentries
  · cases hentries
    rw [List.mem_iff_getElem?]
    simp only [List.getElem?_zip_eq_some]
  · cases hentries

omit [LinearOrder κ] [OrderBot κ] [Inhabited V] in
theorem map_fst_childEntries {node : Node κ V} {own : κ}
    (hentries : childEntries node own = some entries) : entries.map Prod.fst = node.child := by
  unfold childEntries at hentries
  split at hentries
  · cases hentries
    exact List.map_fst_zip (by simpa using ‹_›)
  · cases hentries

end Lists

section Invariant

variable {M : Nat} {w : World κ V} {history : List (κ × V)}

omit [LinearOrder κ] [OrderBot κ] in
theorem nodeDepth_eq (shape : Shape w.state w.dist) :
    ∀ (fuel n : Nat), n < w.state.nbNode → (w.state.pool n).isValue = false →
      w.dist n ≤ fuel → nodeDepth w.state fuel n = w.dist n := by
  intro fuel
  induction fuel with
  | zero =>
      intro n _ _ hle
      rw [nodeDepth]
      omega
  | succ fuel ih =>
      intro n hlt hval hle
      by_cases hroot : n = root
      · rw [hroot, nodeDepth, shape.root_parent, shape.dist_root]
      · obtain ⟨p, hp⟩ := shape.owned n hlt hroot
        have hdist := shape.dist_child p n hp
        rw [nodeDepth, shape.parent_eq p n hp hval]
        simp only
        rw [ih p (shape.lt_of_mem_child hp) (shape.inner_of_mem_child hp hval).2 (by omega), hdist]

theorem partition_root (sound : Sound M w history) (depthLimit : Nat) :
    Partition w depthLimit [(root, ⊥)] := by
  have shape := sound.shape
  constructor
  case nodup => simp
  case lt => simpa using shape.root_lt
  case isValue => simpa using shape.root_isValue
  case shallow => simp [shape.dist_root]
  case key_eq => simp [sound.ordered.lo_root]
  case cover => exact fun k => ⟨_, List.mem_singleton.mpr rfl, sound.ordered.holds_root k⟩
  case disjoint =>
    intro p hp q hq _ _ _
    rw [List.mem_singleton.mp hp, List.mem_singleton.mp hq]

omit [LinearOrder κ] [OrderBot κ] in
/-- The map after `tmp` gave way to its children. -/
theorem mem_expanded (shape : Shape w.state w.dist) {tmp : Nat} {nodeMap entries : List (Nat × κ)}
    {own : κ} (hentries : childEntries (w.state.pool tmp) own = some entries) (p : Nat × κ) :
    p ∈ erase (entries.foldl assign nodeMap) tmp ↔
      p ∈ entries ∨ (p ∈ nodeMap ∧ p.1 ∉ (w.state.pool tmp).child ∧ p.1 ≠ tmp) := by
  have hfst := map_fst_childEntries hentries
  have hnodup : (entries.map Prod.fst).Nodup := hfst ▸ shape.nodup tmp
  rw [erase, List.mem_filter, mem_foldl_assign hnodup, hfst, bne_iff_ne]
  constructor
  · rintro ⟨hentry | ⟨hold, hout⟩, hne⟩
    · exact Or.inl hentry
    · exact Or.inr ⟨hold, hout, hne⟩
  · rintro (hentry | ⟨hold, hout, hne⟩)
    · refine ⟨Or.inl hentry, ?_⟩
      have hchild : p.1 ∈ (w.state.pool tmp).child := hfst ▸ List.mem_map_of_mem hentry
      exact shape.ne_of_mem_child hchild
    · exact ⟨Or.inr ⟨hold, hout⟩, hne⟩

/-- Replacing an inner node by its children keeps the partition. -/
theorem Partition.expand {depthLimit tmp : Nat} {nodeMap entries : List (Nat × κ)} {own : κ}
    (partition : Partition w depthLimit nodeMap) (sound : Sound M w history)
    (hinner : (w.state.pool tmp).IsInner) (hmem : (tmp, own) ∈ nodeMap)
    (hshallow : w.dist tmp < depthLimit)
    (hentries : childEntries (w.state.pool tmp) own = some entries) :
    Partition w depthLimit (erase (entries.foldl assign nodeMap) tmp) := by
  have shape := sound.shape
  have ordered := sound.ordered
  have hfst := map_fst_childEntries hentries
  have hiff : ∀ p, p ∈ erase (entries.foldl assign nodeMap) tmp ↔
      p ∈ entries ∨ (p ∈ nodeMap ∧ p.1 ∉ (w.state.pool tmp).child ∧ p.1 ≠ tmp) :=
    mem_expanded shape hentries
  have hchild : ∀ p ∈ entries, p.1 ∈ (w.state.pool tmp).child :=
    fun p hp => hfst ▸ List.mem_map_of_mem hp
  have hparent : ∀ p ∈ entries, ∀ k, w.bounds.Holds p.1 k → w.bounds.Holds tmp k := by
    intro p hp k hk
    obtain ⟨i, hi, -⟩ := (mem_childEntries hentries).mp hp
    exact ordered.holds_parent hinner hi hk
  constructor
  case nodup =>
    exact (nodup_foldl_assign partition.nodup).sublist (List.Sublist.map _ List.filter_sublist)
  case lt =>
    intro p hp
    rcases (hiff p).mp hp with hentry | ⟨hold, -, -⟩
    · exact shape.child_lt _ _ (hchild p hentry)
    · exact partition.lt p hold
  case isValue =>
    intro p hp
    rcases (hiff p).mp hp with hentry | ⟨hold, -, -⟩
    · exact shape.inner_child _ _ hinner (hchild p hentry)
    · exact partition.isValue p hold
  case shallow =>
    intro p hp
    rcases (hiff p).mp hp with hentry | ⟨hold, -, -⟩
    · rw [shape.dist_child _ _ (hchild p hentry)]
      exact hshallow
    · exact partition.shallow p hold
  case key_eq =>
    intro p hp
    rcases (hiff p).mp hp with hentry | ⟨hold, -, -⟩
    · obtain ⟨i, hi, hkey⟩ := (mem_childEntries hentries).mp hentry
      rw [ordered.child_lo tmp i p.1 hinner hi]
      cases i with
      | zero =>
          rw [List.getElem?_cons_zero] at hkey
          cases hkey
          exact partition.key_eq _ hmem
      | succ i =>
          rw [List.getElem?_cons_succ] at hkey
          rw [segLo_succ hkey, WithBot.unbotD_coe]
    · exact partition.key_eq p hold
  case cover =>
    intro k
    obtain ⟨p, hp, hholds⟩ := partition.cover k
    by_cases htmp : p.1 = tmp
    · rw [htmp] at hholds
      obtain ⟨c, hc, hcmem⟩ := shape.childFor_inner hinner k
      rw [← hfst] at hcmem
      obtain ⟨q, hq, rfl⟩ := List.mem_map.mp hcmem
      exact ⟨q, (hiff q).mpr (Or.inl hq), ordered.holds_childFor hinner hholds hc⟩
    · by_cases hout : p.1 ∈ (w.state.pool tmp).child
      · obtain ⟨q, hq, heq⟩ := List.mem_map.mp (hfst.symm ▸ hout)
        exact ⟨q, (hiff q).mpr (Or.inl hq), heq ▸ hholds⟩
      · exact ⟨p, (hiff p).mpr (Or.inr ⟨hp, hout, htmp⟩), hholds⟩
  case disjoint =>
    intro p hp q hq k hpk hqk
    rcases (hiff p).mp hp with hpe | ⟨hpo, -, hpt⟩
    · rcases (hiff q).mp hq with hqe | ⟨hqo, -, hqt⟩
      · obtain ⟨i, hi, -⟩ := (mem_childEntries hentries).mp hpe
        obtain ⟨j, hj, -⟩ := (mem_childEntries hentries).mp hqe
        have hpi := ordered.lowerBound_of_child shape hinner hi hpk
        have hqj := ordered.lowerBound_of_child shape hinner hj hqk
        rw [← hpi, hqj, hj] at hi
        exact (Option.some.inj hi).symm
      · exact absurd (partition.disjoint _ hqo _ hmem k hqk (hparent p hpe k hpk)) hqt
    · rcases (hiff q).mp hq with hqe | ⟨hqo, -, -⟩
      · exact absurd (partition.disjoint _ hpo _ hmem k hpk (hparent q hqe k hqk)) hpt
      · exact partition.disjoint p hpo q hqo k hpk hqk

theorem queue_root (shape : Shape w.state w.dist) {depthLimit : Nat}
    (hinner : (w.state.pool root).IsInner) (hlimit : 0 < depthLimit) :
    Queue w depthLimit [(root, ⊥)] [] [root] := by
  constructor
  case nodup => simp
  case lt => simpa using shape.root_lt
  case owned => simp
  case member => simp
  case inner => simpa using hinner
  case shallow => simpa [shape.dist_root] using hlimit

omit [LinearOrder κ] [OrderBot κ] in
/-- The children of a node in the queue were neither popped nor pushed before. -/
theorem Queue.child_notMem {depthLimit tmp c : Nat} {nodeMap : List (Nat × κ)}
    {popped nodePq : List Nat} (queue : Queue w depthLimit nodeMap popped nodePq)
    (shape : Shape w.state w.dist) (htmp : tmp ∈ nodePq) (hc : c ∈ (w.state.pool tmp).child) :
    c ∉ popped ++ nodePq := by
  intro hold
  obtain ⟨p, hp, hchild⟩ := queue.owned c hold (shape.child_ne_root _ _ hc)
  have hsame := shape.unique _ _ _ hchild hc
  exact (List.nodup_append.mp queue.nodup).2.2 p hp tmp htmp hsame

omit [LinearOrder κ] [OrderBot κ] in
/-- Popping an inner node and pushing its children. -/
theorem Queue.step {depthLimit tmp : Nat} {nodeMap entries : List (Nat × κ)} {own : κ}
    {popped nodePq rest : List Nat} (queue : Queue w depthLimit nodeMap popped nodePq)
    (shape : Shape w.state w.dist) (hperm : (tmp :: rest).Perm nodePq)
    (hentries : childEntries (w.state.pool tmp) own = some entries) :
    Queue w depthLimit (erase (entries.foldl assign nodeMap) tmp) (tmp :: popped)
      (rest ++ pushed w.state depthLimit tmp) := by
  have hfst := map_fst_childEntries hentries
  have htmp : tmp ∈ nodePq := hperm.subset List.mem_cons_self
  have hinner := queue.inner tmp htmp
  have hrest : ∀ n ∈ rest, n ∈ nodePq := fun n hn => hperm.subset (List.mem_cons_of_mem _ hn)
  have hsub : ∀ n ∈ pushed w.state depthLimit tmp, n ∈ (w.state.pool tmp).child :=
    fun n hn => (List.mem_filter.mp hn).1
  have hmoved : (tmp :: popped ++ rest).Perm (popped ++ nodePq) :=
    (List.perm_middle.symm.trans (hperm.append_left popped))
  constructor
  case nodup =>
    rw [← List.append_assoc]
    refine List.nodup_append.mpr ⟨hmoved.nodup_iff.mpr queue.nodup,
      (shape.nodup tmp).sublist List.filter_sublist, ?_⟩
    rintro n hn m hm rfl
    exact queue.child_notMem shape htmp (hsub n hm) (hmoved.subset hn)
  case lt =>
    intro n hn
    rw [← List.append_assoc, List.mem_append] at hn
    rcases hn with hold | hnew
    · exact queue.lt n (hmoved.subset hold)
    · exact shape.child_lt _ _ (hsub n hnew)
  case owned =>
    intro n hn hne
    rw [← List.append_assoc, List.mem_append] at hn
    rcases hn with hold | hnew
    · obtain ⟨p, hp, hchild⟩ := queue.owned n (hmoved.subset hold) hne
      exact ⟨p, List.mem_cons_of_mem _ hp, hchild⟩
    · exact ⟨tmp, List.mem_cons_self, hsub n hnew⟩
  case member =>
    intro n hn
    rcases List.mem_append.mp hn with hold | hnew
    · obtain ⟨key, hkey⟩ := queue.member n (hrest n hold)
      have hne : n ≠ tmp := by
        rintro rfl
        have hnodup := hperm.nodup_iff.mpr (List.nodup_append.mp queue.nodup).2.1
        exact (List.nodup_cons.mp hnodup).1 hold
      have hout : n ∉ (w.state.pool tmp).child := fun hchild =>
        queue.child_notMem shape htmp hchild (List.mem_append_right _ (hrest n hold))
      exact ⟨key, (mem_expanded shape hentries _).mpr (Or.inr ⟨hkey, hout, hne⟩)⟩
    · have hchild := hsub n hnew
      rw [← hfst] at hchild
      obtain ⟨⟨m, key⟩, hentry, rfl⟩ := List.mem_map.mp hchild
      exact ⟨key, (mem_expanded shape hentries _).mpr (Or.inl hentry)⟩
  case inner =>
    intro n hn
    rcases List.mem_append.mp hn with hold | hnew
    · exact queue.inner n (hrest n hold)
    · have hleaf := (List.mem_filter.mp hnew).2
      simp only [Bool.and_eq_true, Bool.not_eq_true'] at hleaf
      exact ⟨hleaf.1, shape.inner_child _ _ hinner (hsub n hnew)⟩
  case shallow =>
    intro n hn
    rcases List.mem_append.mp hn with hold | hnew
    · exact queue.shallow n (hrest n hold)
    · have hlt := shape.child_lt _ _ (hsub n hnew)
      have hdepth := (List.mem_filter.mp hnew).2
      simp only [Bool.and_eq_true, decide_eq_true_eq] at hdepth
      rw [nodeDepth_eq shape _ _ hlt (shape.inner_child _ _ hinner (hsub n hnew))
        (shape.dist_lt hlt).le] at hdepth
      exact hdepth.2

/-- Nodes that are pairwise different are at most as many as there are. -/
theorem length_le_of_nodup_lt {nodes : List Nat} {bound : Nat} (hnodup : nodes.Nodup)
    (hlt : ∀ n ∈ nodes, n < bound) : nodes.length ≤ bound := by
  rw [← List.toFinset_card_of_nodup hnodup]
  have hsub : nodes.toFinset ⊆ Finset.range bound := by
    intro n hn
    simpa using hlt n (List.mem_toFinset.mp hn)
  simpa using Finset.card_le_card hsub

omit [LinearOrder κ] [OrderBot κ] in
theorem childEntries_inner (shape : Shape w.state w.dist) {n : Nat}
    (hinner : (w.state.pool n).IsInner) (own : κ) :
    ∃ entries, childEntries (w.state.pool n) own = some entries := by
  have harity := shape.inner_arity n hinner
  exact ⟨_, if_pos (Nat.le_of_eq harity)⟩

/-- The loop ends before its bound and leaves a partition. -/
theorem frontierLoop_eq (sound : Sound M w history) (ties : Ties)
    (rootLoadNum depthLimit fuel : Nat) {nodeMap : List (Nat × κ)}
    {popped nodePq : List Nat} (partition : Partition w depthLimit nodeMap)
    (queue : Queue w depthLimit nodeMap popped nodePq)
    (hfuel : w.state.nbNode + 1 ≤ fuel + popped.length) :
    ∃ nodeMap', frontierLoop M w.state ties rootLoadNum depthLimit fuel nodeMap nodePq =
        some nodeMap' ∧ Partition w depthLimit nodeMap' := by
  have shape := sound.shape
  induction fuel generalizing nodeMap popped nodePq with
  | zero =>
      have hlen := length_le_of_nodup_lt queue.nodup queue.lt
      rw [List.length_append] at hlen
      omega
  | succ fuel ih =>
      unfold frontierLoop
      split
      · cases hsort : sortByAccess w.state (ties.pop fuel) nodePq with
        | nil => exact ⟨nodeMap, rfl, partition⟩
        | cons tmp rest =>
            have hperm : (tmp :: rest).Perm nodePq := by
              rw [← hsort]
              exact List.perm_insertionSort _ _
            have hpq : tmp ∈ nodePq := hperm.subset List.mem_cons_self
            obtain ⟨key, hkey⟩ := queue.member tmp hpq
            have hinner := queue.inner tmp hpq
            obtain ⟨entries, hentries⟩ := childEntries_inner shape hinner key
            simp only [lookup_of_mem partition.nodup hkey, Option.getD_some, hentries]
            refine ih (partition.expand sound hinner hkey (queue.shallow tmp hpq) hentries)
              (queue.step shape hperm hentries) ?_
            rw [List.length_cons]
            omega
      · exact ⟨nodeMap, rfl, partition⟩

end Invariant

/-- Whatever the loop starts from, it only ever collects existing nodes. -/
theorem frontierLoop_lt {M : Nat} {σ : State κ V} {dist : Nat → Nat} (shape : Shape σ dist)
    (ties : Ties) (rootLoadNum depthLimit fuel : Nat) {nodeMap nodeMap' : List (Nat × κ)}
    {nodePq : List Nat} (hlt : ∀ p ∈ nodeMap, p.1 < σ.nbNode)
    (hloop : frontierLoop M σ ties rootLoadNum depthLimit fuel nodeMap nodePq =
      some nodeMap') : ∀ p ∈ nodeMap', p.1 < σ.nbNode := by
  induction fuel generalizing nodeMap nodePq with
  | zero => cases hloop
  | succ fuel ih =>
      unfold frontierLoop at hloop
      split at hloop
      · split at hloop
        · cases hloop
          exact hlt
        · split at hloop
          · cases hloop
          · next entries hentries =>
              have hfst := map_fst_childEntries hentries
              have hnodup : (entries.map Prod.fst).Nodup := hfst ▸ shape.nodup _
              refine ih (fun p hp => ?_) hloop
              rcases (mem_foldl_assign hnodup).mp (List.mem_filter.mp hp).1 with hentry | ⟨hold, -⟩
              · exact shape.child_lt _ _ (hfst ▸ List.mem_map_of_mem hentry)
              · exact hlt p hold
      · cases hloop
        exact hlt

omit [LinearOrder κ] [OrderBot κ] in
theorem length_foldl_assign (entries nodeMap : List (Nat × κ)) :
    (entries.foldl assign nodeMap).length ≤ nodeMap.length + entries.length := by
  induction entries generalizing nodeMap with
  | nil => exact Nat.le_refl _
  | cons entry entries ih =>
      have hassign : (assign nodeMap entry).length ≤ nodeMap.length + 1 :=
        Nat.succ_le_succ (List.length_filter_le _ _)
      rw [List.foldl_cons, List.length_cons]
      exact (ih _).trans (by omega)

omit [LinearOrder κ] [OrderBot κ] [Inhabited V] in
theorem length_childEntries {node : Node κ V} {own : κ} {entries : List (Nat × κ)}
    (hentries : childEntries node own = some entries) : entries.length ≤ node.key.length + 1 := by
  unfold childEntries at hentries
  split at hentries
  · cases hentries
    rw [List.length_zip, List.length_cons]
    exact Nat.min_le_right _ _
  · cases hentries

omit [Inhabited V] in
/-- An expansion is made when there is room for a whole node. -/
theorem frontierLoop_length {M : Nat} {σ : State κ V}
    (small : ∀ n, (σ.pool n).key.length < M) (ties : Ties) (rootLoadNum depthLimit fuel : Nat)
    {nodeMap nodeMap' : List (Nat × κ)} {nodePq : List Nat}
    (hlen : nodeMap.length ≤ max 1 rootLoadNum)
    (hloop : frontierLoop M σ ties rootLoadNum depthLimit fuel nodeMap nodePq =
      some nodeMap') : nodeMap'.length ≤ max 1 rootLoadNum := by
  induction fuel generalizing nodeMap nodePq with
  | zero => cases hloop
  | succ fuel ih =>
      unfold frontierLoop at hloop
      split at hloop
      · next hroom =>
        split at hloop
        · cases hloop
          exact hlen
        · split at hloop
          · cases hloop
          · next tmp _ _ _ entries hentries =>
              refine ih ?_ hloop
              have hnew := length_childEntries hentries
              have hkeys := small tmp
              have hassign := length_foldl_assign entries nodeMap
              have herase : (erase (entries.foldl assign nodeMap) tmp).length ≤
                  (entries.foldl assign nodeMap).length := List.length_filter_le _ _
              exact le_max_of_le_right (by omega)
      · cases hloop
        exact hlen

omit [Inhabited V] in
theorem frontier_length {M : Nat} {σ : State κ V} (small : ∀ n, (σ.pool n).key.length < M)
    {ties : Ties} {rootLoadNum depthLimit : Nat} {nodeVec : List (Nat × κ)}
    (hfrontier : frontier M σ ties rootLoadNum depthLimit = some nodeVec) :
    nodeVec.length ≤ max 1 rootLoadNum := by
  obtain ⟨nodeMap, hloop, rfl⟩ := Option.map_eq_some_iff.mp hfrontier
  have hlen := frontierLoop_length small ties _ _ _ (le_max_left 1 rootLoadNum) hloop
  rwa [sortByKey, List.length_insertionSort]

theorem frontier_lt {M : Nat} {σ : State κ V} {dist : Nat → Nat} (shape : Shape σ dist)
    {ties : Ties} {rootLoadNum depthLimit : Nat} {nodeVec : List (Nat × κ)}
    (hfrontier : frontier M σ ties rootLoadNum depthLimit = some nodeVec) :
    ∀ p ∈ nodeVec, p.1 < σ.nbNode := by
  obtain ⟨nodeMap, hloop, rfl⟩ := Option.map_eq_some_iff.mp hfrontier
  intro p hp
  refine frontierLoop_lt shape ties _ _ _ ?_ hloop p ((List.perm_insertionSort _ _).subset hp)
  simpa using shape.root_lt

/-! ## The keys of the fat root -/

section Fat

variable {M : Nat} {w : World κ V} {history : List (κ × V)} {depthLimit : Nat}
  {nodeVec : List (Nat × κ)}

instance : IsTrans (Nat × κ) KeyBefore where
  trans p q r hpq hqr := by
    rcases hpq with hpq | ⟨hpq, hpq'⟩
    · rcases hqr with hqr | ⟨hqr, -⟩
      · exact Or.inl (hpq.trans hqr)
      · exact Or.inl (hqr ▸ hpq)
    · rcases hqr with hqr | ⟨hqr, hqr'⟩
      · exact Or.inl (hpq ▸ hqr)
      · exact Or.inr ⟨hpq.trans hqr, hpq'.trans hqr'⟩

instance : Std.Total (KeyBefore (κ := κ)) where
  total p q := by
    rcases lt_trichotomy p.2 q.2 with hlt | heq | hgt
    · exact Or.inl (Or.inl hlt)
    · rcases Nat.le_total p.1 q.1 with hle | hle
      · exact Or.inl (Or.inr ⟨heq, hle⟩)
      · exact Or.inr (Or.inr ⟨heq.symm, hle⟩)
    · exact Or.inr (Or.inl hgt)

omit [OrderBot κ] in
theorem pairwise_sortByKey (nodeMap : List (Nat × κ)) :
    (sortByKey nodeMap).Pairwise (fun p q => p.2 ≤ q.2) := by
  refine (List.pairwise_insertionSort KeyBefore nodeMap).imp fun {p q} hpq => ?_
  rcases hpq with hlt | ⟨heq, -⟩
  · exact hlt.le
  · exact heq.le

omit [Inhabited V] in
theorem Partition.perm {nodeMap : List (Nat × κ)} (partition : Partition w depthLimit nodeMap)
    (hperm : nodeVec.Perm nodeMap) : Partition w depthLimit nodeVec := by
  have hmem : ∀ p, p ∈ nodeVec ↔ p ∈ nodeMap := fun p => hperm.mem_iff
  constructor
  case nodup => exact (hperm.map Prod.fst).nodup_iff.mpr partition.nodup
  case lt => simpa only [hmem] using partition.lt
  case isValue => simpa only [hmem] using partition.isValue
  case shallow => simpa only [hmem] using partition.shallow
  case key_eq => simpa only [hmem] using partition.key_eq
  case cover => simpa only [hmem] using partition.cover
  case disjoint => simpa only [hmem] using partition.disjoint

namespace Partition

/-- A node carries its left end, unless its interval reaches down without end. -/
theorem lo_cases (partition : Partition w depthLimit nodeVec) (strict : Strict w)
    (sound : Sound M w history) {p : Nat × κ} (hp : p ∈ nodeVec) :
    (w.bounds.lo p.1 = ⊥ ∧ p.2 = ⊥) ∨ (w.bounds.lo p.1 = p.2 ∧ ⊥ < p.2) := by
  have hkey := partition.key_eq p hp
  cases hlo : w.bounds.lo p.1 with
  | bot =>
      rw [hlo, WithBot.unbotD_bot] at hkey
      exact Or.inl ⟨rfl, hkey⟩
  | coe x =>
      rw [hlo, WithBot.unbotD_coe] at hkey
      have hbot := strict.bot_lt_lo sound (partition.lt p hp) (partition.isValue p hp) hlo
      rw [hkey]
      exact Or.inr ⟨rfl, hbot⟩

theorem lo_le_of_key_le (partition : Partition w depthLimit nodeVec) (strict : Strict w)
    (sound : Sound M w history) {p q : Nat × κ} (hp : p ∈ nodeVec) (hq : q ∈ nodeVec)
    (hle : p.2 ≤ q.2) : w.bounds.lo p.1 ≤ w.bounds.lo q.1 := by
  rcases partition.lo_cases strict sound hp with ⟨hlo, -⟩ | ⟨hlo, hpos⟩
  · rw [hlo]
    exact bot_le
  · rcases partition.lo_cases strict sound hq with ⟨-, hbot⟩ | ⟨hlo', -⟩
    · rw [hbot] at hle
      exact absurd hpos (not_lt.mpr hle)
    · rw [hlo, hlo']
      exact WithBot.coe_le_coe.mpr hle

/-- The intervals follow each other in the order of the keys. -/
theorem hi_le_key (partition : Partition w depthLimit nodeVec) (strict : Strict w)
    (sound : Sound M w history) {p q : Nat × κ} (hp : p ∈ nodeVec) (hq : q ∈ nodeVec)
    (hne : p.1 ≠ q.1) (hle : p.2 ≤ q.2) :
    w.bounds.hi p.1 ≤ (q.2 : WithTop κ) ∧ w.bounds.lo q.1 = q.2 := by
  have hlo := partition.lo_le_of_key_le strict sound hp hq hle
  obtain ⟨y, hy⟩ := strict.nonempty p.1 (partition.lt p hp) (partition.isValue p hp)
  obtain ⟨z, hz⟩ := strict.nonempty q.1 (partition.lt q hq) (partition.isValue q hq)
  have hkey : w.bounds.lo q.1 = q.2 := by
    rcases partition.lo_cases strict sound hq with ⟨hlo', hbot⟩ | ⟨hlo', -⟩
    · -- otherwise both nodes would be responsible for the least key
      exfalso
      have hlo'' : w.bounds.lo p.1 = ⊥ := le_bot_iff.mp (hlo'.symm ▸ hlo)
      have hpbot : w.bounds.Holds p.1 ⊥ :=
        ⟨hlo''.symm ▸ WithBot.bot_lt_coe _, (WithTop.coe_le_coe.mpr bot_le).trans hy.2⟩
      have hqbot : w.bounds.Holds q.1 ⊥ :=
        ⟨hlo'.symm ▸ WithBot.bot_lt_coe _, (WithTop.coe_le_coe.mpr bot_le).trans hz.2⟩
      exact hne (partition.disjoint p hp q hq ⊥ hpbot hqbot)
    · exact hlo'
  refine ⟨?_, hkey⟩
  by_contra hgt
  have hgt' : (q.2 : WithTop κ) < w.bounds.hi p.1 := not_le.mp hgt
  rcases le_or_gt (z : WithTop κ) (w.bounds.hi p.1) with hle' | hlt'
  · exact hne (partition.disjoint p hp q hq z ⟨hlo.trans_lt hz.1, hle'⟩ hz)
  · -- the interval of `p` ends inside the interval of `q`
    cases hhi : w.bounds.hi p.1 with
    | top => rw [hhi] at hlt'; exact absurd hlt' (not_lt.mpr le_top)
    | coe h =>
        rw [hhi] at hlt' hgt'
        have hloh : w.bounds.lo q.1 < (h : WithBot κ) := by
          rw [hkey]
          exact WithBot.coe_lt_coe.mpr (WithTop.coe_lt_coe.mp hgt')
        exact hne (partition.disjoint p hp q hq h ⟨hlo.trans_lt hloh, hhi.ge⟩
          ⟨hloh, hlt'.le.trans hz.2⟩)

/-- The number of fat keys below `k` selects the frontier node responsible
for `k`. -/
theorem fat_step (partition : Partition w depthLimit nodeVec) (strict : Strict w)
    (sound : Sound M w history) (sorted : nodeVec.Pairwise (fun p q => p.2 ≤ q.2)) (k : κ) :
    ∃ n, (nodeVec.map Prod.fst)[countBelow (nodeVec.tail.map Prod.snd) k]? = some n ∧
      n ∈ nodeVec.map Prod.fst ∧ w.bounds.Holds n k := by
  obtain ⟨p, hp, holds⟩ := partition.cover k
  obtain ⟨j, hj⟩ := List.mem_iff_getElem?.mp hp
  have hjlt := (List.getElem?_eq_some_iff.mp hj).1
  have hne : ∀ (i : Nat) q, i ≠ j → nodeVec[i]? = some q → q.1 ≠ p.1 := by
    intro i q hij hi heq
    have hilt := (List.getElem?_eq_some_iff.mp hi).1
    have hi' : (nodeVec.map Prod.fst)[i]? = some p.1 := by rw [List.getElem?_map, hi, ← heq]; rfl
    have hj' : (nodeVec.map Prod.fst)[j]? = some p.1 := by rw [List.getElem?_map, hj]; rfl
    exact hij ((List.getElem?_inj (by simpa using hilt) partition.nodup).mp (hi'.trans hj'.symm))
  have hle : ∀ (a c : Nat) q r, a < c → nodeVec[a]? = some q → nodeVec[c]? = some r →
      q.2 ≤ r.2 := by
    intro a c q r hac ha hc
    obtain ⟨ha', rfl⟩ := List.getElem?_eq_some_iff.mp ha
    obtain ⟨hc', rfl⟩ := List.getElem?_eq_some_iff.mp hc
    exact List.pairwise_iff_getElem.mp sorted a c ha' hc' hac
  have htail : ∀ i : Nat, (nodeVec.tail.map Prod.snd)[i]? =
      (nodeVec[i + 1]?).map Prod.snd := by
    intro i
    rw [List.getElem?_map, List.getElem?_tail]
  have hasc : Ascending (nodeVec.tail.map Prod.snd) := by
    rw [Ascending, List.pairwise_map]
    exact sorted.sublist (List.tail_sublist nodeVec)
  have hcount : countBelow (nodeVec.tail.map Prod.snd) k = j := by
    rw [← hasc.lowerBound_eq_countBelow]
    apply lowerBound_eq
    · rw [List.length_map, List.length_tail]
      omega
    · intro i x hi hx
      rw [htail] at hx
      obtain ⟨q, hq, rfl⟩ := Option.map_eq_some_iff.mp hx
      have hprev : nodeVec[i]? = some nodeVec[i] := by simp
      have hkey := (partition.hi_le_key strict sound (List.mem_of_getElem? hprev) hp
        (hne i _ (by omega) hprev) (hle i j _ _ (by omega) hprev hj)).2
      have hlt : p.2 < k := by
        have hlo := holds.1
        rw [hkey] at hlo
        exact WithBot.coe_lt_coe.mp hlo
      rcases Nat.eq_or_lt_of_le (show i + 1 ≤ j by omega) with heq | hlt'
      · rw [heq, hj] at hq
        cases hq
        exact hlt
      · exact (hle (i + 1) j q p hlt' hq hj).trans_lt hlt
    · intro x hx
      rw [htail] at hx
      obtain ⟨q, hq, rfl⟩ := Option.map_eq_some_iff.mp hx
      have hhi := (partition.hi_le_key strict sound hp (List.mem_of_getElem? hq)
        (hne (j + 1) q (by omega) hq).symm (hle j (j + 1) p q (by omega) hj hq)).1
      exact WithTop.coe_le_coe.mp (holds.2.trans hhi)
  refine ⟨p.1, ?_, List.mem_map_of_mem hp, holds⟩
  rw [hcount, List.getElem?_map, hj]
  rfl

end Partition

/-- The greedy frontier of a tree whose root is an inner node. -/
theorem frontier_eq (sound : Sound M w history) (ties : Ties) (rootLoadNum : Nat)
    (hinner : (w.state.pool root).IsInner) (hlimit : 0 < depthLimit) :
    ∃ nodeVec, frontier M w.state ties rootLoadNum depthLimit = some nodeVec ∧
      Partition w depthLimit nodeVec ∧ nodeVec.Pairwise (fun p q => p.2 ≤ q.2) := by
  obtain ⟨nodeMap, hloop, hpartition⟩ := frontierLoop_eq sound ties rootLoadNum depthLimit
    (w.state.nbNode + 1) (partition_root sound depthLimit)
    (queue_root sound.shape hinner hlimit) (by simp)
  refine ⟨sortByKey nodeMap, ?_, hpartition.perm (List.perm_insertionSort _ _),
    pairwise_sortByKey nodeMap⟩
  rw [frontier, hloop]
  rfl

end Fat

end FatBTree.Switch
