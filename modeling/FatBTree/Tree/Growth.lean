import FatBTree.Tree.Balance
import FatBTree.Tree.Strict
import FatBTree.Tree.Write

/-!
# Keys and levels of a growing tree

Splits move keys about and make none, and they count the level they add below the root.
Updates and lookups change no key and no level.
-/

namespace FatBTree.Tree

open FatBTree.Order

variable {κ V : Type} [LinearOrder κ] [Inhabited V]

/-- All keys of the nodes, separators included, are of one kind. -/
def KeysIn (P : κ → Prop) (w : World κ V) : Prop :=
  ∀ n, ∀ x ∈ (w.state.pool n).key, P x

/-- The depth counter has seen the root become an inner node. -/
structure RootLevel (w : World κ V) : Prop where
  one_le : 1 ≤ w.state.depth
  two_le : (w.state.pool root).isLeaf = false → 2 ≤ w.state.depth

omit [LinearOrder κ] in
theorem keysIn_empty (P : κ → Prop) :
    KeysIn P (⟨State.empty, fun _ => 0, ⟨fun _ => ⊥, fun _ => ⊤⟩⟩ : World κ V) := by
  intro n x hx
  cases hx

omit [LinearOrder κ] in
theorem rootLevel_empty :
    RootLevel (⟨State.empty, fun _ => 0, ⟨fun _ => ⊥, fun _ => ⊤⟩⟩ : World κ V) := by
  constructor
  · exact Nat.le_refl 1
  · intro hinner
    cases hinner

/-! ## Insertions -/

section Insert

variable (variant : Variant V) {M : Nat} {w : World κ V}
  {history : List (κ × V)} {cur : Nat} {k : κ} {P : κ → Prop}

omit [Inhabited V] in
theorem KeysIn.grown (keysIn : KeysIn P w) (v : V) (hlt : cur < w.state.nbNode) (hk : P k) :
    KeysIn P (w.grown variant cur k v) := by
  intro n x hx
  have hpos := lowerBound_le_length (w.state.pool cur).key k
  by_cases hcur : n = cur
  · rw [hcur, insertIntoLeaf_pool_cur variant k v hlt, List.mem_insertIdx hpos] at hx
    rcases hx with rfl | hx
    · exact hk
    · exact keysIn cur x hx
  · rw [insertIntoLeaf_pool] at hx
    split_ifs at hx <;> exact keysIn n x hx

theorem stepClosed_keysIn : StepClosed variant M history k (KeysIn P : World κ V → Prop) where
  copied w cur sound hlt hval _ _ keysIn := by
    intro n x hx
    have hne := sound.shape.ne_of_mem_key_copyDown variant hlt hx
    rw [sound.shape.key_copyDown variant hlt hne] at hx
    exact keysIn _ x hx
  halved w cur parent j probe separator sound site _ keysIn := by
    intro n x hx
    have hseparator := keysIn cur separator (List.mem_of_getElem? site.separator_eq)
    rcases site.node_cases sound.ordered sound.shape n with ⟨rfl, hkey, -, -⟩ |
      ⟨-, hnode, -, -⟩ | ⟨-, hnode, -, -⟩ | ⟨-, -, ⟨up, hnode⟩, -, -⟩
    · rw [hkey, List.mem_insertIdx (site.slot_le sound.shape)] at hx
      rcases hx with rfl | hx
      · exact hseparator
      · exact keysIn n x hx
    · rw [hnode] at hx
      exact keysIn cur x (List.mem_of_mem_drop hx)
    · rw [hnode] at hx
      exact keysIn n x (List.mem_of_mem_take hx)
    · rw [hnode] at hx
      exact keysIn n x hx

omit [Inhabited V] in
theorem RootLevel.grown (rootLevel : RootLevel w) (v : V) (hlt : root < w.state.nbNode) :
    RootLevel (w.grown variant cur k v) := by
  refine ⟨rootLevel.one_le, fun hinner => ?_⟩
  rw [insertIntoLeaf_isLeaf, if_neg (Nat.ne_of_lt hlt)] at hinner
  exact rootLevel.two_le hinner

theorem stepClosed_rootLevel :
    StepClosed variant M history k (RootLevel : World κ V → Prop) where
  copied w cur sound hlt hval _ _ rootLevel := by
    have hbase := rootLevel.one_le
    by_cases hroot : cur = root
    · -- the level below the root is counted as it appears
      have hdepth : (w.copied variant cur).state.depth = w.state.depth + 1 := by
        rw [copyDown_depth, if_pos hroot]
      exact ⟨by omega, fun _ => by omega⟩
    · have hdepth : (w.copied variant cur).state.depth = w.state.depth := by
        rw [copyDown_depth, if_neg hroot]
      refine ⟨by omega, fun hinner => ?_⟩
      rw [sound.shape.copyDown_isLeaf variant hlt, if_neg (Ne.symm hroot),
        if_neg (Nat.ne_of_lt sound.shape.root_lt)] at hinner
      rw [hdepth]
      exact rootLevel.two_le hinner
  halved w cur parent j probe separator sound site _ rootLevel := by
    refine ⟨rootLevel.one_le, fun hinner => ?_⟩
    rw [sound.shape.afterSplit_isLeaf probe separator site.node,
      if_neg (Nat.ne_of_lt sound.shape.root_lt)] at hinner
    exact rootLevel.two_le hinner

omit [Inhabited V] in
theorem RootFilled.grown (filled : RootFilled w) (v : V) (hlt : cur < w.state.nbNode)
    (hleaf : (w.state.pool cur).isLeaf = true) : RootFilled (w.grown variant cur k v) := by
  intro hinner
  obtain ⟨-, -, hsame⟩ := inner_insertIntoLeaf variant v hlt hleaf hinner
  rw [hsame] at hinner ⊢
  exact filled hinner

/-- A split of the root gives it a separator, and no other step takes one away. -/
theorem repairClosed_rootFilled :
    RepairClosed variant M history k (fun _ _ w => RootFilled w) where
  pinned fuel w cur probe separator repairing _ _ site _ _ filled := by
    have shape := repairing.shape
    have sound := repairing.toSound.copied variant repairing.lt repairing.isValue
    refine RootFilled.halved sound.shape site fun hne hinner => ?_
    obtain ⟨up, hup⟩ := shape.copyDown_pool_other variant repairing.lt hne
      (Nat.ne_of_lt shape.root_lt)
    rw [hup] at hinner ⊢
    exact filled hinner
  free fuel w cur parent j probe separator repairing _ _ _ site filled :=
    RootFilled.halved repairing.shape site fun _ => filled

end Insert

/-- What holds of a tree of distinct keys of one kind. -/
structure Growing [OrderBot κ] (P : κ → Prop) (w : World κ V) : Prop where
  strict : Strict w
  keysIn : KeysIn P w
  rootLevel : RootLevel w
  rootFilled : RootFilled w

section Growing

variable {M : Nat} {w : World κ V} {history : List (κ × V)} {P : κ → Prop}

theorem growing_empty [OrderBot κ] (P : κ → Prop) :
    Growing P (⟨State.empty, fun _ => 0, ⟨fun _ => ⊥, fun _ => ⊤⟩⟩ : World κ V) :=
  ⟨strict_empty, keysIn_empty P, rootLevel_empty, fun hinner => by cases hinner.1⟩

theorem Settled.insert_growing [NodeOrder M] [OrderBot κ] (variant : Variant V)
    (settled : Settled M w history)
    (growing : Growing P w) {k : κ} (v : V) (hnew : k ∉ keysOf history) (hk : P k) :
    ∃ w', insert M variant w.state k v = some w'.state ∧
      Settled M w' ((k, variant.storeVal v default) :: history) ∧ Keeps w w' ∧ Growing P w' := by
  have steps : StepClosed variant M ((k, variant.storeVal v default) :: history) k
      fun w' => Keeps w w' ∧ Strict w' ∧ KeysIn P w' ∧ RootLevel w' :=
    (stepClosed_keeps variant w).and variant ((stepClosed_strict variant).and variant
      ((stepClosed_keysIn variant).and variant (stepClosed_rootLevel variant)))
  obtain ⟨w', -, -, hinsert, hsettled, ⟨hkeeps, hstrict, hkeysIn, hrootLevel⟩, hrootFilled⟩ :=
    settled.insert_closed variant k v
      ((steps.repairClosed variant).and variant (repairClosed_rootFilled variant))
      (fun leaf _ hlt hleaf holds => ⟨⟨keeps_insertIntoLeaf variant w.dist w.bounds k v,
        growing.strict.grown variant v hlt hleaf holds
          fun hmem => hnew (settled.contents.recorded leaf k hleaf hmem),
        growing.keysIn.grown variant v hlt hk,
        growing.rootLevel.grown variant v settled.shape.root_lt⟩,
        growing.rootFilled.grown variant v hlt hleaf⟩)
  exact ⟨w', hinsert, hsettled, hkeeps, hstrict, hkeysIn, hrootLevel, hrootFilled⟩

/-- The left end of an interval is a key of the tree. -/
theorem KeysIn.lo (keysIn : KeysIn P w) (sound : Sound M w history) {n : Nat} {x : κ}
    (hlt : n < w.state.nbNode) (hval : (w.state.pool n).isValue = false)
    (hlo : w.bounds.lo n = x) : P x := by
  have shape := sound.shape
  have ordered := sound.ordered
  induction hd : w.dist n generalizing n with
  | zero =>
      by_cases hroot : n = root
      · rw [hroot, ordered.lo_root] at hlo
        cases hlo
      · obtain ⟨p, hp⟩ := shape.owned n hlt hroot
        have := shape.dist_child p n hp
        omega
  | succ d ih =>
      have hroot : n ≠ root := by
        rintro rfl
        have := shape.dist_root
        omega
      obtain ⟨p, hp⟩ := shape.owned n hlt hroot
      have hinner := shape.inner_of_mem_child hp hval
      have hdist := shape.dist_child p n hp
      obtain ⟨i, hi⟩ := List.mem_iff_getElem?.mp hp
      rw [ordered.child_lo p i n hinner hi] at hlo
      cases i with
      | zero => exact ih (shape.lt_of_mem_child hp) hinner.2 hlo (by omega)
      | succ i =>
          have harity := shape.inner_arity p hinner
          have hlen := (List.getElem?_eq_some_iff.mp hi).1
          have hy : (w.state.pool p).key[i]? = some (w.state.pool p).key[i] := by simp
          rw [segLo_succ hy] at hlo
          rw [← WithBot.coe_inj.mp hlo]
          exact keysIn p _ (List.mem_of_getElem? hy)

/-- A tree with as many keys as fill a node has two levels. -/
theorem RootLevel.two_levels (rootLevel : RootLevel w) (settled : Settled M w history)
    {keys : List κ} (distinct : keys.Nodup) (many : M ≤ keys.length)
    (inserted : ∀ k ∈ keys, k ∈ keysOf history) : 2 ≤ w.state.depth := by
  refine rootLevel.two_le ?_
  by_contra hleaf
  rw [Bool.not_eq_false] at hleaf
  have hsub : keys ⊆ (w.state.pool root).key := fun k hk =>
    settled.contents.present root k settled.shape.root_lt hleaf (settled.ordered.holds_root k)
      (inserted k hk)
  have hlen := (distinct.subperm hsub).length_le
  have hsmall := settled.small root
  omega

end Growing

/-! ## Updates and lookups -/

/-- The same nodes and the same keys; values and counters may differ. -/
structure SameNodes (σ σ' : State κ V) : Prop where
  nbNode : σ'.nbNode = σ.nbNode
  depth : σ'.depth = σ.depth
  isLeaf : ∀ n, (σ'.pool n).isLeaf = (σ.pool n).isLeaf
  isValue : ∀ n, (σ'.pool n).isValue = (σ.pool n).isValue
  key : ∀ n, (σ'.pool n).key = (σ.pool n).key
  loaded : ∀ n, (σ.pool n).isLoaded2Switch = true → (σ'.pool n).isLoaded2Switch = true

section SameNodes

variable {σ σ' σ'' : State κ V} {dist : Nat → Nat} {b : Bounds κ} {P : κ → Prop}

omit [LinearOrder κ] [Inhabited V] in
theorem SameTree.sameNodes (same : SameTree σ σ') : SameNodes σ σ' :=
  ⟨same.nbNode, same.depth, same.isLeaf, same.isValue, same.key, same.loaded⟩

omit [LinearOrder κ] [Inhabited V] in
theorem SameNodes.trans (first : SameNodes σ σ') (second : SameNodes σ' σ'') :
    SameNodes σ σ'' where
  nbNode := second.nbNode.trans first.nbNode
  depth := second.depth.trans first.depth
  isLeaf n := (second.isLeaf n).trans (first.isLeaf n)
  isValue n := (second.isValue n).trans (first.isValue n)
  key n := (second.key n).trans (first.key n)
  loaded n hloaded := second.loaded n (first.loaded n hloaded)

omit [LinearOrder κ] [Inhabited V] in
theorem sameNodes_writeVal (σ : State κ V) (cur : Nat) (value : V) :
    SameNodes σ (writeVal σ cur value) where
  nbNode := rfl
  depth := rfl
  isLeaf n := writeVal_isLeaf n
  isValue n := writeVal_isValue n
  key n := writeVal_key n
  loaded n hloaded := by
    obtain ⟨v, hn⟩ := writeVal_fields σ cur value n
    rw [hn]
    exact hloaded

omit [LinearOrder κ] [Inhabited V] in
theorem sameNodes_touch (σ : State κ V) (cur : Nat) : SameNodes σ (touch σ cur) := by
  have hpool : ∀ n, ∃ count, (touch σ cur).pool n = { σ.pool n with accessCount := count } := by
    intro n
    by_cases hn : n = cur
    · subst hn
      exact ⟨_, Function.update_self ..⟩
    · exact ⟨(σ.pool n).accessCount, Function.update_of_ne hn ..⟩
  constructor
  case nbNode => rfl
  case depth => rfl
  case isLeaf => intro n; obtain ⟨count, hn⟩ := hpool n; rw [hn]
  case isValue => intro n; obtain ⟨count, hn⟩ := hpool n; rw [hn]
  case key => intro n; obtain ⟨count, hn⟩ := hpool n; rw [hn]
  case loaded => intro n hloaded; obtain ⟨count, hn⟩ := hpool n; rw [hn]; exact hloaded

omit [Inhabited V] in
/-- An update changes values and counters only. -/
theorem sameNodes_modifyLoop (change : V → V) {k : κ} {fuel n : Nat}
    (hrun : modifyLoop change k fuel σ n = some σ') : SameNodes σ σ' := by
  induction fuel generalizing σ n with
  | zero => cases hrun
  | succ fuel ih =>
      unfold modifyLoop at hrun
      split at hrun
      · cases hrun
        exact sameNodes_writeVal σ n _
      · cases hc : childFor (σ.pool n) k with
        | none => rw [hc] at hrun; cases hrun
        | some c =>
            rw [hc] at hrun
            exact (sameNodes_touch σ c).trans (ih hrun)

omit [Inhabited V] in
theorem SameNodes.growing [OrderBot κ] (same : SameNodes σ σ') (growing : Growing P ⟨σ, dist, b⟩) :
    Growing P ⟨σ', dist, b⟩ := by
  have hinner : ∀ n, (σ'.pool n).IsInner ↔ (σ.pool n).IsInner := fun n => by
    rw [Node.IsInner, Node.IsInner, same.isLeaf, same.isValue]
  obtain ⟨strict, keysIn, rootLevel, rootFilled⟩ := growing
  constructor
  case strict =>
    constructor
    case sorted => simpa only [same.key] using strict.sorted
    case lo_lt => simpa only [same.key] using strict.lo_lt
    case bot_lt => simpa only [hinner, same.key] using strict.bot_lt
    case nonempty => simpa only [same.nbNode, same.isValue] using strict.nonempty
  case keysIn =>
    intro n x hx
    rw [same.key] at hx
    exact keysIn n x hx
  case rootLevel =>
    constructor
    case one_le => simpa only [same.depth] using rootLevel.one_le
    case two_le => simpa only [same.depth, same.isLeaf] using rootLevel.two_le
  case rootFilled => simpa only [RootFilled, hinner, same.key] using rootFilled

end SameNodes

/-! ## Nodes are never given back -/

section Count

variable {M : Nat} {variant : Variant V} {σ σ' : State κ V} {fuel cur : Nat} {k : κ} {v : V}

omit [Inhabited V] in
theorem splitNode_nbNode {parent : Nat} (hsplit : splitNode M σ cur parent = some σ') :
    σ'.nbNode = σ.nbNode + 1 := by
  unfold splitNode at hsplit
  simp only at hsplit
  split at hsplit
  · split at hsplit
    · cases hsplit
      rfl
    · cases hsplit
  · split at hsplit
    · cases hsplit
      rfl
    · cases hsplit

omit [Inhabited V] in
theorem overflow_nbNode_le (hrun : overflow M variant fuel σ cur = some σ') :
    σ.nbNode ≤ σ'.nbNode := by
  induction fuel generalizing σ cur with
  | zero => cases hrun
  | succ fuel ih =>
      unfold overflow at hrun
      simp only at hrun
      split at hrun
      · have hcopied : σ.nbNode ≤ (if cur = root ∨ (σ.pool cur).isLoaded2Switch = true then
            copyDown variant σ cur else σ).nbNode := by
          split
          · exact Nat.le_succ _
          · exact Nat.le_refl _
        split at hrun
        · cases hrun
        · split at hrun
          · cases hrun
          · next next hsplit =>
              have hnext := splitNode_nbNode hsplit
              have hrest := ih hrun
              omega
      · cases hrun
        exact Nat.le_refl _

omit [Inhabited V] in
theorem insert_nbNode_le (hinsert : insert M variant σ k v = some σ') :
    σ.nbNode ≤ σ'.nbNode := by
  unfold insert at hinsert
  split at hinsert
  · cases hinsert
  · have hgrown := overflow_nbNode_le hinsert
    rw [insertIntoLeaf_nbNode] at hgrown
    omega

omit [Inhabited V] in
theorem lookupLoop_nbNode (hrun : lookupLoop k fuel σ cur = some (v, σ')) :
    σ'.nbNode = σ.nbNode := by
  induction fuel generalizing σ cur with
  | zero => cases hrun
  | succ fuel ih =>
      unfold lookupLoop at hrun
      split at hrun
      · cases hrun
        rfl
      · cases hc : childFor (σ.pool cur) k with
        | none => rw [hc] at hrun; cases hrun
        | some c =>
            rw [hc] at hrun
            have hrest := ih hrun
            exact hrest

end Count

end FatBTree.Tree
