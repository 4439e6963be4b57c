import FatBTree.Ethernet.MapSemantics
import FatBTree.Switch.Frontier
import FatBTree.Tree.Traversal
import Mathlib.Order.Nat

/-!
# Parent pointers

Inner nodes and leaves always point to their parent.  The leaf branch of a split hands
half of the value nodes to the new leaf without redirecting them, so from the first
split on some value node points to a leaf that does not hold it.
-/

namespace FatBTree.Switch

open FatBTree.Order FatBTree.Tree

variable {κ V : Type} [LinearOrder κ] [Inhabited V]

/-- Some value node does not point to its leaf. -/
def Misplaced (σ : State κ V) : Prop :=
  ∃ leaf c, (σ.pool leaf).isLeaf = true ∧ c ∈ (σ.pool leaf).child ∧
    (σ.pool c).parent ≠ some leaf

/-- Parent pointers lead to existing nodes. -/
def ParentsExist (w : World κ V) : Prop :=
  ∀ n p, (w.state.pool n).parent = some p → p < w.state.nbNode

/-- The root is the only leaf.  It holds `count` value nodes, which all point to it. -/
structure OneLeaf (count : Nat) (σ : State κ V) : Prop where
  isLeaf : (σ.pool root).isLeaf = true
  length : (σ.pool root).key.length = count
  parent : ∀ c ∈ (σ.pool root).child, (σ.pool c).parent = some root

section Steps

variable (variant : Variant V) {M : Nat} {w : World κ V}
  {history : List (κ × V)} {cur parent j : Nat} {probe separator k : κ}

/-! ## Pointers to existing nodes -/

omit [Inhabited V] in
theorem ParentsExist.grown (exist : ParentsExist w) (hlt : cur < w.state.nbNode) (v : V) :
    ParentsExist (w.grown variant cur k v) := by
  intro n p hp
  rw [insertIntoLeaf_nbNode]
  rw [insertIntoLeaf_pool] at hp
  split_ifs at hp with hnew hcur
  · cases hp
    omega
  · exact Nat.lt_succ_of_lt (exist n p hp)
  · exact Nat.lt_succ_of_lt (exist n p hp)

theorem stepClosed_parentsExist : StepClosed variant M history k ParentsExist where
  copied w cur sound hlt _ _ _ exist := by
    intro n p hp
    rw [copyDown_nbNode]
    simp only [sound.shape.copyDown_pool variant hlt] at hp
    split_ifs at hp with hcur hnew hmoved
    · exact Nat.lt_succ_of_lt (exist cur p hp)
    · cases hp
      omega
    · cases hp
      omega
    · exact Nat.lt_succ_of_lt (exist n p hp)
  halved w cur parent j probe separator sound site _ exist := by
    intro n p hp
    rw [afterSplit_nbNode]
    simp only [sound.shape.afterSplit_pool probe separator site.node] at hp
    split_ifs at hp with hparent hnew hcur hmoved
    · exact Nat.lt_succ_of_lt (exist parent p hp)
    · exact Nat.lt_succ_of_lt (exist cur p hp)
    · exact Nat.lt_succ_of_lt (exist cur p hp)
    · cases hp
      omega
    · exact Nat.lt_succ_of_lt (exist n p hp)

/-! ## Misplaced value nodes stay and come -/

theorem Misplaced.grown (misplaced : Misplaced w.state) (shape : Shape w.state w.dist)
    (hlt : cur < w.state.nbNode) (hcur : (w.state.pool cur).isLeaf = true) (v : V) :
    Misplaced (w.grown variant cur k v).state := by
  obtain ⟨leaf, c, hleaf, hchild, hne⟩ := misplaced
  have hleafLt := shape.lt_of_mem_child hchild
  have hclt := shape.child_lt _ _ hchild
  refine ⟨leaf, c, ?_, ?_, ?_⟩
  · rw [insertIntoLeaf_isLeaf, if_neg (Nat.ne_of_lt hleafLt)]
    exact hleaf
  · exact (shape.mem_child_insertIntoLeaf variant k v hlt hcur leaf c).mpr (Or.inl hchild)
  · rw [insertIntoLeaf_pool, if_neg (Nat.ne_of_lt hclt)]
    split_ifs <;> exact hne

omit [LinearOrder κ] in
/-- Copy-on-split of an inner node redirects no value node. -/
theorem Misplaced.copied (misplaced : Misplaced w.state) (shape : Shape w.state w.dist)
    (hlt : cur < w.state.nbNode) (hinner : (w.state.pool cur).IsInner) :
    Misplaced (w.copied variant cur).state := by
  obtain ⟨leaf, c, hleaf, hchild, hne⟩ := misplaced
  have hleafCur : leaf ≠ cur := by
    rintro rfl
    rw [hinner.1] at hleaf
    cases hleaf
  have hleafNew : leaf ≠ w.state.nbNode := Nat.ne_of_lt (shape.lt_of_mem_child hchild)
  have hvalue := shape.leaf_child leaf c hleaf hchild
  have hcCur : c ≠ cur := by
    rintro rfl
    rw [hinner.2] at hvalue
    cases hvalue
  have hcNew : c ≠ w.state.nbNode := Nat.ne_of_lt (shape.child_lt _ _ hchild)
  have hcElse : c ∉ (w.state.pool cur).child :=
    fun hmem => hleafCur (shape.unique _ _ c hchild hmem)
  refine ⟨leaf, c, ?_, ?_, ?_⟩
  · rw [shape.copyDown_isLeaf variant hlt, if_neg hleafCur, if_neg hleafNew]
    exact hleaf
  · exact (shape.mem_child_copyDown variant hlt leaf c).mpr (Or.inr (Or.inr ⟨hleafCur, hchild⟩))
  · rw [shape.copyDown_pool variant hlt, if_neg hcCur, if_neg hcNew, if_neg hcElse]
    exact hne

/-- The inner branch of a split redirects no value node. -/
theorem Misplaced.halved (misplaced : Misplaced w.state) (shape : Shape w.state w.dist)
    (site : SplitSite M w.state w.bounds cur parent j probe separator k)
    (hinner : (w.state.pool cur).isLeaf = false) :
    Misplaced (w.halved M cur parent probe separator).state := by
  obtain ⟨leaf, c, hleaf, hchild, hne⟩ := misplaced
  have hleafCur : leaf ≠ cur := by
    rintro rfl
    rw [hinner] at hleaf
    cases hleaf
  have hleafNew : leaf ≠ w.state.nbNode := Nat.ne_of_lt (shape.lt_of_mem_child hchild)
  have hvalue := shape.leaf_child leaf c hleaf hchild
  have hcCur : c ≠ cur := by
    rintro rfl
    rw [site.node.isValue] at hvalue
    cases hvalue
  have hcParent : c ≠ parent := by
    rintro rfl
    rw [site.node.parent_inner.2] at hvalue
    cases hvalue
  have hcNew : c ≠ w.state.nbNode := Nat.ne_of_lt (shape.child_lt _ _ hchild)
  have hcElse : c ∉ (rightHalf M (w.state.pool cur)).child :=
    fun hmem => hleafCur (shape.unique _ _ c hchild (List.mem_of_mem_drop hmem))
  refine ⟨leaf, c, ?_, ?_, ?_⟩
  · rw [shape.afterSplit_isLeaf probe separator site.node, if_neg hleafNew]
    exact hleaf
  · exact (shape.mem_child_afterSplit probe separator site.node leaf c).mpr
      (Or.inr (Or.inr (Or.inr ⟨hleafCur, hchild⟩)))
  · rw [shape.afterSplit_pool probe separator site.node, if_neg hcParent, if_neg hcNew,
      if_neg hcCur, if_neg fun hmoved => hcElse hmoved.2]
    exact hne

/-- The leaf branch leaves the value nodes of the new leaf behind. -/
theorem misplaced_halved [NodeOrder M] (exist : ParentsExist w) (shape : Shape w.state w.dist)
    (site : SplitSite M w.state w.bounds cur parent j probe separator k)
    (hleaf : (w.state.pool cur).isLeaf = true) :
    Misplaced (w.halved M cur parent probe separator).state := by
  have hM := NodeOrder.four_le (M := M)
  have hright := shape.afterSplit_pool_new probe separator site.node
  have harity := shape.leaf_arity cur hleaf
  have hcut : cutAt M (w.state.pool cur) = M / 2 := if_pos hleaf
  have hlen : M / 2 < (w.state.pool cur).child.length := by
    rw [harity, site.node.full]
    omega
  have hmoved : (w.state.pool cur).child[M / 2] ∈ (rightHalf M (w.state.pool cur)).child := by
    rw [rightHalf, hcut]
    exact List.mem_drop_iff_getElem.mpr ⟨0, by omega, by simp⟩
  generalize (w.state.pool cur).child[M / 2] = c at hmoved
  have hchild : c ∈ (w.state.pool cur).child := List.mem_of_mem_drop hmoved
  have hvalue := shape.leaf_child cur c hleaf hchild
  have hcCur : c ≠ cur := shape.ne_of_mem_child hchild
  have hcParent : c ≠ parent := by
    rintro rfl
    rw [site.node.parent_inner.2] at hvalue
    cases hvalue
  have hcNew : c ≠ w.state.nbNode := Nat.ne_of_lt (shape.child_lt _ _ hchild)
  refine ⟨w.state.nbNode, c, ?_, ?_, ?_⟩
  · rw [hright]
    exact hleaf
  · rw [hright]
    exact hmoved
  · rw [shape.afterSplit_pool probe separator site.node, if_neg hcParent, if_neg hcNew,
      if_neg hcCur, if_neg fun hinner => by simp [hleaf] at hinner]
    exact fun hparent => Nat.lt_irrefl _ (exist c _ hparent)

/-! ## The whole repair -/

/-- A repair that begins at a full leaf, or in a tree with a misplaced value node. -/
def Misplacing (M cur : Nat) (w : World κ V) : Prop :=
  ParentsExist w ∧
    (Misplaced w.state ∨
      (w.state.pool cur).isLeaf = true ∧ (w.state.pool cur).key.length = M)

theorem repairClosed_misplacing [NodeOrder M] :
    RepairClosed variant M history k (fun _ cur w => Misplacing M cur w) where
  pinned fuel w cur probe separator repairing hfull hpinned site hfree _ hstart := by
    obtain ⟨exist, hcase⟩ := hstart
    have shape := repairing.shape
    have closed : StepClosed variant M history k ParentsExist := stepClosed_parentsExist variant
    have sound := repairing.toSound.copied variant repairing.lt repairing.isValue
    have hcopied := closed.copied w cur repairing.toSound repairing.lt repairing.isValue
      repairing.holds hpinned exist
    have hkind : ((w.copied variant cur).state.pool w.state.nbNode).isLeaf =
        (w.state.pool cur).isLeaf := by
      rw [shape.copyDown_pool_new variant repairing.lt]
    refine ⟨closed.halved _ _ _ _ _ _ sound site hfree hcopied, Or.inl ?_⟩
    cases hleaf : (w.state.pool cur).isLeaf with
    | true => exact misplaced_halved hcopied sound.shape site (hkind.trans hleaf)
    | false =>
        have hmisplaced := hcase.resolve_right fun hboth => by simp [hleaf] at hboth
        exact (hmisplaced.copied variant shape repairing.lt ⟨hleaf, repairing.isValue⟩).halved
          sound.shape site (hkind.trans hleaf)
  free fuel w cur parent j probe separator repairing hfull hfree _ site hstart := by
    obtain ⟨exist, hcase⟩ := hstart
    have closed : StepClosed variant M history k ParentsExist := stepClosed_parentsExist variant
    refine ⟨closed.halved _ _ _ _ _ _ repairing.toSound site hfree exist, Or.inl ?_⟩
    cases hleaf : (w.state.pool cur).isLeaf with
    | true => exact misplaced_halved exist repairing.shape site hleaf
    | false =>
        have hmisplaced := hcase.resolve_right fun hboth => by simp [hleaf] at hboth
        exact hmisplaced.halved repairing.shape site hleaf

/-- The insertion that fills a leaf misplaces value nodes, and none after it puts them
back. -/
theorem insert_misplaced [NodeOrder M] (settled : Settled M w history) (exist : ParentsExist w)
    (k : κ) (v : V)
    (hcase : Misplaced w.state ∨ ∀ leaf,
      descendToLeaf w.state k w.state.nbNode root = some leaf →
      (w.state.pool leaf).key.length + 1 = M) :
    ∃ w', Tree.insert M variant w.state k v = some w'.state ∧
      Settled M w' ((k, variant.storeVal v default) :: history) ∧ ParentsExist w' ∧
      Misplaced w'.state := by
  obtain ⟨w', fuel', cur', hinsert, hsettled, hexist, hlast⟩ :=
    settled.insert_closed variant k v (repairClosed_misplacing variant)
      (fun leaf hdescend hlt hleaf _ => by
        refine ⟨exist.grown variant hlt v, ?_⟩
        rcases hcase with hmisplaced | hfull
        · exact Or.inl (hmisplaced.grown variant settled.shape hlt hleaf v)
        · refine Or.inr ⟨?_, ?_⟩
          · rw [insertIntoLeaf_isLeaf, if_neg (Nat.ne_of_lt hlt)]
            exact hleaf
          · rw [insertIntoLeaf_pool_cur variant k v hlt, List.length_insertIdx,
              if_pos (lowerBound_le_length _ _)]
            exact hfull leaf hdescend)
  refine ⟨w', hinsert, hsettled, hexist, hlast.resolve_right fun hfull => ?_⟩
  exact absurd hfull.2 (Nat.ne_of_lt (hsettled.small cur'))

theorem OneLeaf.descendToLeaf_eq {count : Nat} (oneLeaf : OneLeaf count w.state)
    (shape : Shape w.state w.dist) (k : κ) :
    descendToLeaf w.state k w.state.nbNode root = some root := by
  obtain ⟨fuel, hfuel⟩ : ∃ fuel, w.state.nbNode = fuel + 1 :=
    Nat.exists_eq_succ_of_ne_zero (Nat.ne_of_gt shape.root_lt)
  rw [hfuel, descendToLeaf, if_pos oneLeaf.isLeaf]

omit [LinearOrder κ] in
theorem OneLeaf.root_or_value {count : Nat} (oneLeaf : OneLeaf count w.state)
    (shape : Shape w.state w.dist) {d n : Nat} (below : Descends w.state root d n) :
    n = root ∨ (w.state.pool n).isValue = true := by
  induction below with
  | refl => exact Or.inl rfl
  | @step d p c _ hchild ih =>
      rcases ih with rfl | hvalue
      · exact Or.inr (shape.leaf_child root c oneLeaf.isLeaf hchild)
      · rw [(shape.value_bare p hvalue).2.2] at hchild
        cases hchild

/-- While the root is a leaf with room, an insertion only touches the root. -/
theorem insert_oneLeaf (settled : Settled M w history) (exist : ParentsExist w) {count : Nat}
    (oneLeaf : OneLeaf count w.state) (hroom : count + 1 < M) (k : κ) (v : V) :
    ∃ w', Tree.insert M variant w.state k v = some w'.state ∧
      Settled M w' ((k, variant.storeVal v default) :: history) ∧ ParentsExist w' ∧
      OneLeaf (count + 1) w'.state := by
  have shape := settled.shape
  have hlt := shape.root_lt
  have hgrown : ((insertIntoLeaf variant w.state root k v).pool root).key.length = count + 1 := by
    rw [insertIntoLeaf_pool_cur variant k v hlt, List.length_insertIdx,
      if_pos (lowerBound_le_length _ _), oneLeaf.length]
  have hsmall : ((insertIntoLeaf variant w.state root k v).pool root).key.length < M :=
    hgrown.symm ▸ hroom
  have hrepair := settled.repairing_grown variant v hlt oneLeaf.isLeaf
    (settled.ordered.holds_root k)
  refine ⟨w.grown variant root k v, ?_, hrepair.settled hsmall, exist.grown variant hlt v,
    ⟨?_, hgrown, ?_⟩⟩
  · rw [Tree.insert, oneLeaf.descendToLeaf_eq shape]
    exact overflow_small variant hsmall
  · rw [insertIntoLeaf_isLeaf, if_neg (Nat.ne_of_lt hlt)]
    exact oneLeaf.isLeaf
  · intro c hc
    rw [insertIntoLeaf_pool]
    rcases (shape.mem_child_insertIntoLeaf variant k v hlt oneLeaf.isLeaf root c).mp hc with
      hold | ⟨-, rfl⟩
    · rw [if_neg (Nat.ne_of_lt (shape.child_lt _ _ hold))]
      split_ifs <;> exact oneLeaf.parent c hold
    · rw [if_pos rfl]

end Steps

/-! ## Runs -/

section Run

variable (variant : Variant V) {M : Nat} [NodeOrder M]

/-- The parent pointers after `count` insertions. -/
def Placement (M count : Nat) (w : World κ V) : Prop :=
  ParentsExist w ∧
    (count < M ∧ OneLeaf count w.state ∨ M ≤ count ∧ Misplaced w.state)

omit [LinearOrder κ] [Inhabited V] [NodeOrder M] in
theorem Placement.sameTree {w : World κ V} {count : Nat} (placement : Placement M count w)
    {σ' : State κ V} (same : SameTree w.state σ') : Placement M count ⟨σ', w.dist, w.bounds⟩ := by
  obtain ⟨exist, hcase⟩ := placement
  refine ⟨fun n p hp => ?_, ?_⟩
  · rw [same.parent] at hp
    rw [same.nbNode]
    exact exist n p hp
  · rcases hcase with ⟨hlt, oneLeaf⟩ | ⟨hge, leaf, c, hleaf, hchild, hne⟩
    · refine Or.inl ⟨hlt, (same.isLeaf _).trans oneLeaf.isLeaf,
        (congrArg List.length (same.key _)).trans oneLeaf.length, fun c hc => ?_⟩
      rw [same.child] at hc
      exact (same.parent c).trans (oneLeaf.parent c hc)
    · refine Or.inr ⟨hge, leaf, c, (same.isLeaf _).trans hleaf, ?_, ?_⟩
      · rw [same.child]
        exact hchild
      · rw [same.parent]
        exact hne

theorem placement_apply {w : World κ V} {history : List (κ × V)} {count : Nat}
    (settled : Settled M w history) (placement : Placement M count w) (call : Call κ V) :
    ∃ w' history', call.apply M variant w.state = some w'.state ∧ Settled M w' history' ∧
      Placement M (count + (insertions [call]).length) w' := by
  cases call with
  | insert k v =>
      obtain ⟨exist, hcase⟩ := placement
      have hcount : (insertions [Call.insert k v]).length = 1 := rfl
      rw [hcount]
      rcases hcase with ⟨hlt, oneLeaf⟩ | ⟨hge, misplaced⟩
      · by_cases hroom : count + 1 < M
        · obtain ⟨w', hinsert, hsettled, hexist, hone⟩ :=
            insert_oneLeaf variant settled exist oneLeaf hroom k v
          exact ⟨w', _, hinsert, hsettled, hexist, Or.inl ⟨hroom, hone⟩⟩
        · have hfull : count + 1 = M := by omega
          obtain ⟨w', hinsert, hsettled, hexist, hlast⟩ :=
            insert_misplaced variant settled exist k v (Or.inr fun leaf hleaf => by
              rw [oneLeaf.descendToLeaf_eq settled.shape] at hleaf
              cases hleaf
              rw [oneLeaf.length, hfull])
          exact ⟨w', _, hinsert, hsettled, hexist, Or.inr ⟨hfull.ge, hlast⟩⟩
      · obtain ⟨w', hinsert, hsettled, hexist, hlast⟩ :=
          insert_misplaced variant settled exist k v (Or.inl misplaced)
        exact ⟨w', _, hinsert, hsettled, hexist, Or.inr ⟨by omega, hlast⟩⟩
  | markLoaded nodes =>
      have hsame : SameTree w.state
          (markLoaded w.state (nodes.filter (· < w.state.nbNode))) :=
        sameTree_markLoaded fun n hn => by simpa using (List.mem_filter.mp hn).2
      exact ⟨⟨_, w.dist, w.bounds⟩, _, rfl, hsame.settled settled, placement.sameTree hsame⟩
  | visit n =>
      by_cases hn : n < w.state.nbNode
      · have hsame := sameTree_touch hn
        exact ⟨⟨touch w.state n, w.dist, w.bounds⟩, _, by simp [Call.apply, hn],
          hsame.settled settled, placement.sameTree hsame⟩
      · exact ⟨w, _, by simp [Call.apply, hn], settled, placement⟩

theorem placement_run {w : World κ V} {history : List (κ × V)} {count : Nat}
    (settled : Settled M w history) (placement : Placement M count w) (calls : List (Call κ V)) :
    ∃ w' history', run M variant calls w.state = some w'.state ∧ Settled M w' history' ∧
      Placement M (count + (insertions calls).length) w' := by
  induction calls generalizing w history count with
  | nil => exact ⟨w, history, rfl, settled, placement⟩
  | cons call calls ih =>
      obtain ⟨next, history', hcall, hsettled, hnext⟩ := placement_apply variant settled placement call
      obtain ⟨last, history'', hrun, hlast, hplacement⟩ := ih hsettled hnext
      refine ⟨last, history'', ?_, hlast, ?_⟩
      · simp only [run, hcall]
        exact hrun
      · rw [Nat.add_assoc, ← List.length_append, ← insertions_append] at hplacement
        exact hplacement

omit [LinearOrder κ] in
theorem placement_empty :
    Placement M 0 (⟨State.empty, fun _ => 0, ⟨fun _ => ⊥, fun _ => ⊤⟩⟩ : World κ V) := by
  have hM := NodeOrder.four_le (M := M)
  refine ⟨fun n p hp => ?_, Or.inl ⟨by omega, rfl, rfl, fun c hc => ?_⟩⟩
  · cases hp
  · cases hc

omit [LinearOrder κ] in
/-- The parent chain of a node that points to its parent. -/
theorem nodeDepth_child {w : World κ V} (shape : Shape w.state w.dist) {n c : Nat}
    (hlt : n < w.state.nbNode) (hval : (w.state.pool n).isValue = false)
    (hparent : (w.state.pool c).parent = some n) :
    nodeDepth w.state w.state.nbNode c = w.dist n + 1 := by
  obtain ⟨fuel, hfuel⟩ : ∃ fuel, w.state.nbNode = fuel + 1 :=
    Nat.exists_eq_succ_of_ne_zero (Nat.ne_of_gt shape.root_lt)
  have hdist := shape.dist_lt hlt
  rw [hfuel, nodeDepth, hparent]
  simp only
  rw [nodeDepth_eq shape fuel n hlt hval (by omega)]

end Run

/-- The child `c` of `n` points to `n`, and `depth()` counts the edges from the root. -/
def PointsTo (σ : State κ V) (d n c : Nat) : Prop :=
  (σ.pool c).parent = some n ∧ nodeDepth σ σ.nbNode c = d + 1

/-- Inner nodes and leaves point to their parent after any history, value nodes after
histories that are too short for a split and after no other. -/
theorem parents_exact_iff (calls : List (Call κ Ethernet.FieldTable))
    {σ : State κ Ethernet.FieldTable} (hreach : Reaches 16 Ethernet.ethernet calls σ) :
    (∀ d n, Descends σ root d n → ∀ c ∈ (σ.pool n).child, (σ.pool c).isValue = false →
      PointsTo σ d n c) ∧
    ((∀ d n, Descends σ root d n → (σ.pool n).isValue = false →
      ∀ c ∈ (σ.pool n).child, PointsTo σ d n c) ↔ (insertions calls).length < 16) := by
  obtain ⟨w, history, hrun, settled, -, hcase⟩ :=
    placement_run Ethernet.ethernet settled_empty (placement_empty (M := 16)) calls
  obtain rfl : w.state = σ := Option.some.inj (hrun.symm.trans hreach)
  have shape := settled.shape
  rw [Nat.zero_add] at hcase
  have hpoints : ∀ d n, Descends w.state root d n → (w.state.pool n).isValue = false →
      ∀ c, (w.state.pool c).parent = some n → PointsTo w.state d n c := by
    intro d n below hval c hparent
    have hdist := shape.dist_of_descends below
    rw [shape.dist_root, Nat.zero_add] at hdist
    have hdepth := nodeDepth_child shape (shape.lt_of_descends shape.root_lt below) hval hparent
    exact ⟨hparent, hdist ▸ hdepth⟩
  have hvalue : ∀ n c, c ∈ (w.state.pool n).child → (w.state.pool n).isValue = false := by
    intro n c hchild
    by_contra hval
    rw [(shape.value_bare n (by simpa using hval)).2.2] at hchild
    cases hchild
  refine ⟨fun d n below c hchild hval =>
    hpoints d n below (hvalue n c hchild) c (shape.parent_eq n c hchild hval), ?_⟩
  rcases hcase with ⟨hlt, oneLeaf⟩ | ⟨hge, leaf, c, hleaf, hchild, hne⟩
  · refine iff_of_true (fun d n below hval c hchild => hpoints d n below hval c ?_) hlt
    obtain rfl := (oneLeaf.root_or_value shape below).resolve_right (by simp [hval])
    exact oneLeaf.parent c hchild
  · refine iff_of_false (fun hall => ?_) (Nat.not_lt_of_le hge)
    have below := shape.descends_root (shape.lt_of_mem_child hchild)
    exact hne (hall _ leaf below (shape.isValue_of_isLeaf hleaf) c hchild).1

/-- Fifteen insertions still fit into the root. -/
theorem parents_exact_iff_fifteen :
    ∃ σ, Reaches 16 Ethernet.ethernet ((List.range 15).map fun i => .insert i [])
        (σ : State Nat Ethernet.FieldTable) ∧
      ∀ d n, Descends σ root d n → (σ.pool n).isValue = false →
        ∀ c ∈ (σ.pool n).child, PointsTo σ d n c := by
  obtain ⟨w, hrun, -⟩ := settled_of_run Ethernet.ethernet (M := 16)
    ((List.range 15).map fun i => Call.insert i [])
  exact ⟨w.state, hrun, (parents_exact_iff _ hrun).2.mpr (by decide)⟩

/-- The sixteenth splits it, and half of the value nodes point to the wrong leaf. -/
theorem parents_not_exact :
    ∃ σ, Reaches 16 Ethernet.ethernet ((List.range 16).map fun i => .insert i [])
        (σ : State Nat Ethernet.FieldTable) ∧
      ∃ d n, Descends σ root d n ∧ (σ.pool n).isValue = false ∧
        ∃ c ∈ (σ.pool n).child, (σ.pool c).parent ≠ some n := by
  have hrun : ∃ σ ∈ run 16 Ethernet.ethernet ((List.range 16).map fun i => .insert i [])
      (State.empty : State Nat Ethernet.FieldTable), ∃ n ∈ (σ.pool root).child,
        (σ.pool n).isValue = false ∧ ∃ c ∈ (σ.pool n).child, (σ.pool c).parent ≠ some n := by
    decide +kernel
  obtain ⟨σ, hσ, n, hn, hval, hwrong⟩ := hrun
  exact ⟨σ, hσ, 1, n, .step .refl hn, hval, hwrong⟩

end FatBTree.Switch
