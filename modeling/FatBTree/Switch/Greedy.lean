import FatBTree.Ethernet.MapSemantics
import FatBTree.Order.BestFirst
import FatBTree.Switch.Frontier
import FatBTree.Tree.Traversal
import Mathlib.Order.Nat

/-!
# The greedy selection

The `while` loop of `load2switch_greedy` is a best-first search.  On a tree whose access
counts do not increase from parent to child it collapses the nodes with the greatest
access counts into the fat root.
-/

namespace FatBTree.Switch

open FatBTree.Order FatBTree.Tree

variable {κ V : Type} [LinearOrder κ] [Inhabited V]

/-- The `while` loop with the nodes it has popped: `node_map` at its end and all popped
nodes, the last one first. -/
def frontierRun [OrderBot κ] (M : Nat) (σ : State κ V) (ties : Ties)
    (rootLoadNum depthLimit : Nat) :
    Nat → List (Nat × κ) → List Nat → List Nat → Option (List (Nat × κ) × List Nat)
  | 0, _, _, _ => none
  | fuel + 1, nodeMap, nodePq, popped =>
      if nodeMap.length + M ≤ rootLoadNum then
        match sortByAccess σ (ties.pop fuel) nodePq with
        | [] => some (nodeMap, popped)
        | tmp :: rest =>
            match childEntries (σ.pool tmp) ((nodeMap.lookup tmp).getD ⊥) with
            | none => none
            | some entries =>
                frontierRun M σ ties rootLoadNum depthLimit fuel
                  (erase (entries.foldl assign nodeMap) tmp)
                  (rest ++ pushed σ depthLimit tmp) (tmp :: popped)
      else some (nodeMap, popped)

omit [Inhabited V] in
/-- The nodes popped do not change what the loop computes. -/
theorem frontierRun_fst [OrderBot κ] (M : Nat) (σ : State κ V) (ties : Ties)
    (rootLoadNum depthLimit fuel : Nat)
    (nodeMap : List (Nat × κ)) (nodePq popped : List Nat) :
    (frontierRun M σ ties rootLoadNum depthLimit fuel nodeMap nodePq popped).map Prod.fst =
      frontierLoop M σ ties rootLoadNum depthLimit fuel nodeMap nodePq := by
  induction fuel generalizing nodeMap nodePq popped with
  | zero => rfl
  | succ fuel ih =>
      unfold frontierRun frontierLoop
      split
      · cases sortByAccess σ (ties.pop fuel) nodePq with
        | nil => rfl
        | cons tmp rest =>
            cases hentries : childEntries (σ.pool tmp) ((nodeMap.lookup tmp).getD ⊥) with
            | none => simp only [hentries, Option.map_none]
            | some entries =>
                simp only [hentries]
                exact ih _ _ _
      · rfl

/-- The root and the inner nodes less than `depthLimit` edges below it. -/
def Eligible (σ : State κ V) (depthLimit n : Nat) : Prop :=
  (n = root ∨ (σ.pool n).IsInner) ∧ ∃ d, d < depthLimit ∧ Descends σ root d n

/-- `access_count` as a number. -/
def accesses (σ : State κ V) (n : Nat) : Nat :=
  (σ.pool n).accessCount.toNat

/-- No node was accessed more often than its parent. -/
def CountsDescend (σ : State κ V) : Prop :=
  ∀ n c, c ∈ (σ.pool n).child → accesses σ c ≤ accesses σ n

section Sorting

variable {σ : State κ V} {rank : Nat → Nat}

instance : IsTrans Nat (MoreAccessed σ rank) where
  trans a b c hab hbc := by
    simp only [MoreAccessed, UInt32.lt_iff_toNat_lt, ← UInt32.toNat_inj] at *
    omega

instance : Std.Total (MoreAccessed σ rank) where
  total a b := by
    simp only [MoreAccessed, UInt32.lt_iff_toNat_lt, ← UInt32.toNat_inj]
    omega

omit [LinearOrder κ] [Inhabited V] in
/-- The node at the top of the queue. -/
theorem accesses_le_top {nodePq rest : List Nat} {tmp : Nat}
    (hsort : sortByAccess σ rank nodePq = tmp :: rest) :
    ∀ m ∈ nodePq, accesses σ m ≤ accesses σ tmp := by
  intro m hm
  have hsorted := List.pairwise_insertionSort (MoreAccessed σ rank) nodePq
  rw [show nodePq.insertionSort (MoreAccessed σ rank) = tmp :: rest from hsort] at hsorted
  have hmem : m ∈ tmp :: rest := hsort ▸ (List.perm_insertionSort _ _).symm.subset hm
  rcases List.mem_cons.mp hmem with rfl | hrest
  · exact Nat.le_refl _
  · have hmore := (List.pairwise_cons.mp hsorted).1 m hrest
    simp only [MoreAccessed, UInt32.lt_iff_toNat_lt, ← UInt32.toNat_inj] at hmore
    simp only [accesses]
    omega

end Sorting

/-! ## Counts that descend -/

section Counts

variable {σ : State κ V} {dist : Nat → Nat} {k : κ}

omit [LinearOrder κ] in
theorem CountsDescend.of_lt (shape : Shape σ dist)
    (counts : ∀ n, n < σ.nbNode → ∀ c ∈ (σ.pool n).child, accesses σ c ≤ accesses σ n) :
    CountsDescend σ :=
  fun n c hchild => counts n (shape.lt_of_mem_child hchild) c hchild

section

omit [LinearOrder κ] [Inhabited V]

theorem accesses_visit {queries total : UInt32} {n : Nat} (hroom : accesses σ n + 1 < 2 ^ 32)
    (m : Nat) :
    accesses (touch { σ with nbQuery := queries, nbAccess := total } n) m =
      if m = n then accesses σ n + 1 else accesses σ m := by
  simp only [accesses] at hroom
  simp only [accesses, touch, Function.update_apply]
  split
  · rw [UInt32.toNat_add, UInt32.toNat_one, Nat.mod_eq_of_lt hroom]
  · rfl

theorem accesses_visit_of_ne {queries total : UInt32} {n m : Nat} (hne : m ≠ n) :
    accesses (touch { σ with nbQuery := queries, nbAccess := total } n) m = accesses σ m := by
  simp only [accesses, touch, Function.update_of_ne hne]

theorem child_visit {queries total : UInt32} {n : Nat} (m : Nat) :
    ((touch { σ with nbQuery := queries, nbAccess := total } n).pool m).child =
      (σ.pool m).child := by
  simp only [touch, Function.update_apply]
  split
  · next heq => rw [heq]
  · rfl

end

/-- Below `cur`, which was just visited, the counts descend strictly. -/
theorem CountsDescend.lookupLoop (shape : Shape σ dist) {fuel cur : Nat}
    (counts : CountsDescend σ) (hstrict : ∀ c ∈ (σ.pool cur).child, accesses σ c < accesses σ cur)
    {v : V} {σ' : State κ V} (hrun : lookupLoop k fuel σ cur = some (v, σ')) :
    CountsDescend σ' := by
  induction fuel generalizing σ cur with
  | zero => cases hrun
  | succ fuel ih =>
      unfold lookupLoop at hrun
      split at hrun
      · cases hrun
        exact counts
      · cases hc : childFor (σ.pool cur) k with
        | none => rw [hc] at hrun; cases hrun
        | some next =>
            rw [hc] at hrun
            have hchild := mem_child_of_childFor hc
            have hnext := hstrict next hchild
            have hroom : accesses σ next + 1 < 2 ^ 32 :=
              Nat.lt_of_le_of_lt hnext (σ.pool cur).accessCount.toNat_lt
            have hsame := sameTree_visit σ.nbQuery (σ.nbAccess + 1)
              (shape.child_lt cur next hchild)
            refine ih (hsame.shape shape) ?_ ?_ hrun
            · intro n c hedge
              rw [child_visit] at hedge
              have hold := counts n c hedge
              rw [accesses_visit hroom, accesses_visit hroom]
              by_cases hcn : c = next
              · subst hcn
                obtain rfl := shape.unique n cur c hedge hchild
                rw [if_pos rfl, if_neg (shape.ne_of_mem_child hedge).symm]
                exact hnext
              · rw [if_neg hcn]
                split
                · next heq => exact Nat.le_succ_of_le (heq ▸ hold)
                · exact hold
            · intro c hc
              rw [child_visit] at hc
              have hold := counts next c hc
              rw [accesses_visit hroom, accesses_visit hroom, if_pos rfl,
                if_neg (shape.ne_of_mem_child hc)]
              exact Nat.lt_succ_of_le hold

/-- Lookups that start at the root keep the counts descending, until the count of the
root wraps. -/
theorem CountsDescend.lookup (shape : Shape σ dist) (counts : CountsDescend σ)
    (hroom : accesses σ root + 1 < 2 ^ 32) {v : V} {σ' : State κ V}
    (hrun : lookup σ k root = some (v, σ')) : CountsDescend σ' := by
  have hsame := sameTree_visit (σ.nbQuery + 1) σ.nbAccess shape.root_lt
  unfold Tree.lookup at hrun
  refine CountsDescend.lookupLoop (hsame.shape shape) ?_ ?_ hrun
  · intro n c hc
    rw [child_visit] at hc
    have hold := counts n c hc
    rw [accesses_visit hroom, accesses_visit hroom, if_neg (shape.child_ne_root n c hc)]
    split
    · next heq => exact Nat.le_succ_of_le (heq ▸ hold)
    · exact hold
  · intro c hc
    rw [child_visit] at hc
    rw [accesses_visit hroom, accesses_visit hroom, if_neg (shape.child_ne_root _ c hc),
      if_pos rfl]
    exact Nat.lt_succ_of_le (counts root c hc)

/-- The loop of a lookup does not return to the root. -/
theorem accesses_root_lookupLoop (shape : Shape σ dist) {fuel cur : Nat} {v : V}
    {σ' : State κ V} (hrun : lookupLoop k fuel σ cur = some (v, σ')) :
    accesses σ' root = accesses σ root := by
  induction fuel generalizing σ cur with
  | zero => cases hrun
  | succ fuel ih =>
      unfold lookupLoop at hrun
      split at hrun
      · cases hrun
        rfl
      · cases hc : childFor (σ.pool cur) k with
        | none => rw [hc] at hrun; cases hrun
        | some next =>
            rw [hc] at hrun
            have hchild := mem_child_of_childFor hc
            have hsame := sameTree_visit σ.nbQuery (σ.nbAccess + 1)
              (shape.child_lt cur next hchild)
            rw [ih (hsame.shape shape) hrun]
            exact accesses_visit_of_ne (shape.child_ne_root cur next hchild).symm

theorem accesses_root_lookup (shape : Shape σ dist) (hroom : accesses σ root + 1 < 2 ^ 32) {v : V}
    {σ' : State κ V} (hrun : lookup σ k root = some (v, σ')) :
    accesses σ' root = accesses σ root + 1 := by
  have hsame := sameTree_visit (σ.nbQuery + 1) σ.nbAccess shape.root_lt
  unfold Tree.lookup at hrun
  rw [accesses_root_lookupLoop (hsame.shape shape) hrun, accesses_visit hroom, if_pos rfl]

/-- One lookup from the root after the other. -/
def lookups (keys : List κ) (σ : State κ V) : Option (State κ V) :=
  keys.foldlM (fun σ k => (lookup σ k root).map Prod.snd) σ

/-- Lookups from the root keep the counts descending, as many as the count of the root can
number. -/
theorem CountsDescend.lookups {σ' : State κ V} (shape : Shape σ dist) (counts : CountsDescend σ)
    {keys : List κ} (hroom : accesses σ root + keys.length < 2 ^ 32)
    (hrun : lookups keys σ = some σ') : CountsDescend σ' := by
  induction keys generalizing σ with
  | nil =>
      cases hrun
      exact counts
  | cons k keys ih =>
      rw [Switch.lookups, List.foldlM_cons] at hrun
      obtain ⟨next, hfirst, hrest⟩ := Option.bind_eq_some_iff.mp hrun
      obtain ⟨⟨v, _⟩, hlookup, rfl⟩ := Option.map_eq_some_iff.mp hfirst
      rw [List.length_cons] at hroom
      have hroot := accesses_root_lookup shape (by omega) hlookup
      refine ih ((shape.sameTree_lookup shape.root_lt hlookup).shape shape)
        (counts.lookup shape (by omega) hlookup) ?_ hrest
      omega

end Counts

section Search

variable {M : Nat} {w : World κ V} {history : List (κ × V)} {depthLimit : Nat}

omit [LinearOrder κ] [Inhabited V] in
theorem Eligible.isInner (hinner : (w.state.pool root).IsInner) {n : Nat}
    (hn : Eligible w.state depthLimit n) : (w.state.pool n).IsInner := by
  rcases hn.1 with rfl | hother
  · exact hinner
  · exact hother

omit [LinearOrder κ] in
theorem eligible_iff (shape : Shape w.state w.dist) (hinner : (w.state.pool root).IsInner)
    {n : Nat} : Eligible w.state depthLimit n ↔
      n < w.state.nbNode ∧ (w.state.pool n).IsInner ∧ w.dist n < depthLimit := by
  constructor
  · intro hn
    obtain ⟨d, hd, below⟩ := hn.2
    have hdist := shape.dist_of_descends below
    rw [shape.dist_root, Nat.zero_add] at hdist
    exact ⟨shape.lt_of_descends shape.root_lt below, hn.isInner hinner, hdist ▸ hd⟩
  · rintro ⟨hlt, hn, hdist⟩
    exact ⟨Or.inr hn, w.dist n, hdist, shape.descends_root hlt⟩

omit [LinearOrder κ] in
/-- The eligible nodes form a tree in which the counts descend. -/
theorem descending (shape : Shape w.state w.dist) (hinner : (w.state.pool root).IsInner)
    (hlimit : 1 ≤ depthLimit) (counts : CountsDescend w.state) :
    Descending (fun n => (w.state.pool n).child) (accesses w.state)
      (Eligible w.state depthLimit) root w.dist where
  start := ⟨Or.inl rfl, 0, hlimit, .refl⟩
  parent n hn hne := by
    obtain ⟨hlt, hninner, hdist⟩ := (eligible_iff shape hinner).mp hn
    obtain ⟨p, hchild⟩ := shape.owned n hlt hne
    have hstep := shape.dist_child p n hchild
    refine ⟨p, (eligible_iff shape hinner).mpr ⟨shape.lt_of_mem_child hchild,
      shape.inner_of_mem_child hchild hninner.2, by omega⟩, hchild, counts p n hchild, by omega⟩

omit [LinearOrder κ] in
/-- The children pushed are the eligible ones. -/
theorem mem_pushed (shape : Shape w.state w.dist) (hinner : (w.state.pool root).IsInner)
    {tmp n : Nat} (htmp : (w.state.pool tmp).IsInner) :
    n ∈ pushed w.state depthLimit tmp ↔
      n ∈ (w.state.pool tmp).child ∧ Eligible w.state depthLimit n := by
  rw [pushed, List.mem_filter, and_congr_right_iff]
  intro hchild
  have hlt := shape.child_lt tmp n hchild
  have hval := shape.inner_child tmp n htmp hchild
  rw [nodeDepth_eq shape _ n hlt hval (shape.dist_lt hlt).le, eligible_iff shape hinner]
  simp [hlt, hval, Node.IsInner]

/-- The loop ends, and it searches best-first. -/
theorem frontierRun_eq [OrderBot κ] (sound : Sound M w history) (ties : Ties)
    (rootLoadNum fuel : Nat)
    (hinner : (w.state.pool root).IsInner) (hlimit : 1 ≤ depthLimit)
    (counts : CountsDescend w.state) {nodeMap : List (Nat × κ)} {popped nodePq : List Nat}
    (partition : Partition w depthLimit nodeMap)
    (queue : Queue w depthLimit nodeMap popped nodePq)
    (search : Searching (fun n => (w.state.pool n).child) (accesses w.state)
      (Eligible w.state depthLimit) root popped nodePq)
    (hfuel : w.state.nbNode + 1 ≤ fuel + popped.length) :
    ∃ nodeMap' popped' nodePq',
      frontierRun M w.state ties rootLoadNum depthLimit fuel nodeMap nodePq popped =
        some (nodeMap', popped') ∧
      Searching (fun n => (w.state.pool n).child) (accesses w.state)
        (Eligible w.state depthLimit) root popped' nodePq' ∧
      (nodePq' = [] ∨ rootLoadNum < nodeMap'.length + M) := by
  have shape := sound.shape
  have tree := descending shape hinner hlimit counts
  induction fuel generalizing nodeMap popped nodePq with
  | zero =>
      have hlen := length_le_of_nodup_lt queue.nodup queue.lt
      rw [List.length_append] at hlen
      omega
  | succ fuel ih =>
      unfold frontierRun
      split
      · next hroom =>
          cases hsort : sortByAccess w.state (ties.pop fuel) nodePq with
          | nil =>
              have hperm : ([] : List Nat).Perm nodePq := hsort ▸ List.perm_insertionSort _ _
              exact ⟨nodeMap, popped, nodePq, rfl, search, Or.inl hperm.nil_eq.symm⟩
          | cons tmp rest =>
              have hperm : (tmp :: rest).Perm nodePq := hsort ▸ List.perm_insertionSort _ _
              have hpq : tmp ∈ nodePq := hperm.subset List.mem_cons_self
              obtain ⟨key, hkey⟩ := queue.member tmp hpq
              have htmp := queue.inner tmp hpq
              obtain ⟨entries, hentries⟩ := childEntries_inner shape htmp key
              have hnext := queue.step shape hperm hentries
              have hnodup : (pushed w.state depthLimit tmp).Nodup :=
                (shape.nodup tmp).sublist List.filter_sublist
              have hfresh : ∀ n ∈ pushed w.state depthLimit tmp, n ∉ popped ++ nodePq := by
                intro n hn hold
                have hmoved : (tmp :: popped ++ rest).Perm (popped ++ nodePq) :=
                  List.perm_middle.symm.trans (hperm.append_left popped)
                have hall := hnext.nodup
                rw [← List.append_assoc] at hall
                exact (List.nodup_append.mp hall).2.2 n (hmoved.symm.subset hold) n hn rfl
              simp only [lookup_of_mem partition.nodup hkey, Option.getD_some, hentries]
              refine ih (partition.expand sound htmp hkey (queue.shallow tmp hpq) hentries) hnext
                (search.pop tree hperm (accesses_le_top hsort)
                  (fun n => mem_pushed shape hinner htmp) hnodup hfresh) ?_
              rw [List.length_cons]
              omega
      · next hfull => exact ⟨nodeMap, popped, nodePq, rfl, search, Or.inr (Nat.lt_of_not_le hfull)⟩

end Search

/-- After lookups from the root on a tree that was not accessed before, no node was accessed
more often than its parent. -/
theorem countsDescend_of_lookups {σ σ' : State κ V} {dist : Nat → Nat} (shape : Shape σ dist)
    (unread : ∀ n, accesses σ n = 0) {keys : List κ} (hfew : keys.length < 2 ^ 32)
    (hrun : lookups keys σ = some σ') : CountsDescend σ' := by
  refine CountsDescend.lookups shape (fun n c _ => ?_) ?_ hrun
  · rw [unread, unread]
  · rw [unread, Nat.zero_add]
    exact hfew

/-- The nodes the loop pops are accessed at least as often as any other choice of equally
many eligible nodes, and the loop goes on while there are eligible nodes and room. -/
theorem greedy_is_optimal [OrderBot κ] (calls : List (Call κ Ethernet.FieldTable))
    {σ : State κ Ethernet.FieldTable} (hreach : Reaches 16 Ethernet.ethernet calls σ)
    (hdepth : 2 ≤ σ.depth) (counts : CountsDescend σ) (ties : Ties)
    (rootLoadNum compressDepth : Nat) (hcompress : 1 ≤ compressDepth) :
    ∃ nodeMap popped,
      frontierRun 16 σ ties rootLoadNum compressDepth (σ.nbNode + 1) [(root, ⊥)] [root] [] =
        some (nodeMap, popped) ∧
      frontierLoop 16 σ ties rootLoadNum compressDepth (σ.nbNode + 1) [(root, ⊥)] [root] =
        some nodeMap ∧
      popped.Nodup ∧ (∀ n ∈ popped, Eligible σ compressDepth n) ∧
      (∀ p ∈ popped, ∀ n, Eligible σ compressDepth n → n ∉ popped →
        accesses σ n ≤ accesses σ p) ∧
      (∀ choice : List Nat, choice.Nodup → (∀ n ∈ choice, Eligible σ compressDepth n) →
        choice.length = popped.length →
        (choice.map (accesses σ)).sum ≤ (popped.map (accesses σ)).sum) ∧
      ((∀ n, Eligible σ compressDepth n → n ∈ popped) ∨ rootLoadNum < nodeMap.length + 16) := by
  obtain ⟨w, hrun, settled⟩ := settled_of_run Ethernet.ethernet (M := 16) calls
  obtain rfl : w.state = σ := Option.some.inj (hrun.symm.trans hreach)
  have shape := settled.shape
  have hinner := settled.toSound.inner_root hdepth
  have tree := descending shape hinner hcompress counts
  obtain ⟨nodeMap, popped, nodePq, hloop, search, hstop⟩ :=
    frontierRun_eq settled.toSound ties rootLoadNum (w.state.nbNode + 1) hinner hcompress counts
      (partition_root settled.toSound compressDepth) (queue_root shape hinner hcompress)
      (Searching.start tree) (by simp)
  refine ⟨nodeMap, popped, hloop, ?_, (List.nodup_append.mp search.nodup).1,
    fun n hn => search.allowed n (List.mem_append_left _ hn), search.heaviest,
    fun choice hnodup helig hlen => search.total_le hnodup helig hlen, ?_⟩
  · rw [← frontierRun_fst _ _ _ _ _ _ _ _ [], hloop, Option.map_some]
  rcases hstop with rfl | hfull
  · exact Or.inl fun n hn => search.all_popped tree hn
  · exact Or.inr hfull

/-- A tree with two inner nodes below its root, one of them visited more often. -/
def threeLevelCalls : List (Call Nat Ethernet.FieldTable) :=
  (List.range 136).map (fun i => .insert i []) ++
    [.visit root, .visit 155, .visit root, .visit 155, .visit root, .visit 154]

/-- With 20 places for the frontier the loop expands the root and the node that was visited
more often, and has no room to expand the other. -/
theorem greedy_is_optimal_three_levels :
    ∃ σ, Reaches 16 Ethernet.ethernet threeLevelCalls σ ∧ Eligible σ 2 154 ∧
      ∃ nodeMap,
        frontierRun 16 σ ⟨fun _ n => n, fun _ n => n⟩ 20 2 (σ.nbNode + 1) [(root, ⊥)] [root] [] =
          some (nodeMap, [155, root]) ∧
        (∀ p ∈ [155, root], ∀ n, Eligible σ 2 n → n ∉ [155, root] →
          accesses σ n ≤ accesses σ p) ∧
        ((∀ n, Eligible σ 2 n → n ∈ [155, root]) ∨ 20 < nodeMap.length + 16) := by
  have hrun : ∃ σ ∈ run 16 Ethernet.ethernet threeLevelCalls State.empty, 2 ≤ σ.depth ∧
      (∀ n, n < σ.nbNode → ∀ c ∈ (σ.pool n).child, accesses σ c ≤ accesses σ n) ∧
      154 ∈ (σ.pool root).child ∧
      ((σ.pool 154).isLeaf = false ∧ (σ.pool 154).isValue = false) ∧
      (frontierRun 16 σ ⟨fun _ n => n, fun _ n => n⟩ 20 2 (σ.nbNode + 1) [(root, ⊥)] [root]
        []).map Prod.snd = some [155, root] := by
    decide +kernel
  obtain ⟨σ, hσ, hdepth, hcounts, hchild, hinner, hpopped⟩ := hrun
  obtain ⟨w, hreach, settled⟩ := settled_of_run Ethernet.ethernet (M := 16) threeLevelCalls
  obtain rfl : w.state = σ := Option.some.inj (hreach.symm.trans hσ)
  obtain ⟨nodeMap, popped, hloop, -, -, -, hmost, -, hstop⟩ := greedy_is_optimal _ hσ hdepth
    (CountsDescend.of_lt settled.shape hcounts) ⟨fun _ n => n, fun _ n => n⟩ 20 2 (by decide)
  rw [hloop, Option.map_some] at hpopped
  obtain rfl : popped = [155, root] := Option.some.inj hpopped
  exact ⟨w.state, hσ, ⟨Or.inr hinner, 1, by decide, Descends.refl.step hchild⟩, nodeMap, hloop,
    hmost, hstop⟩

end FatBTree.Switch
