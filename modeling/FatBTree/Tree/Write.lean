import FatBTree.Tree.Frame

/-!
# Writing to a value node

An update descends as a lookup does and changes the value it finds.  Over the
abstract store it therefore rewrites the newest value of the least inserted key
that is not below the one asked for.
-/

namespace FatBTree.Tree

open FatBTree.Order

variable {κ V : Type} [LinearOrder κ] [Inhabited V]

/-- `cur->val = value`. -/
def writeVal (σ : State κ V) (cur : Nat) (value : V) : State κ V :=
  { σ with pool := Function.update σ.pool cur { σ.pool cur with val := value } }

/-- The descent of `lookup` without its statistics, ended by a change of the
value.  `none` stands for a child index at or beyond the size of the child
vector. -/
def modifyLoop (change : V → V) (k : κ) : Nat → State κ V → Nat → Option (State κ V)
  | 0, _, _ => none
  | fuel + 1, σ, cur =>
      if (σ.pool cur).isValue then some (writeVal σ cur (change (σ.pool cur).val))
      else
        match childFor (σ.pool cur) k with
        | none => none
        | some next => modifyLoop change k fuel (touch σ next) next

section Write

variable {M : Nat} {σ : State κ V} {dist : Nat → Nat} {b : Bounds κ}
  {history : List (κ × V)} {k x : κ} {n c : Nat} {value : V}

section

omit [LinearOrder κ] [Inhabited V]

/-- Every field but the value is kept. -/
theorem writeVal_fields (σ : State κ V) (c : Nat) (value : V) (n : Nat) :
    ∃ v, (writeVal σ c value).pool n = { σ.pool n with val := v } := by
  by_cases hn : n = c
  · subst hn
    exact ⟨value, Function.update_self ..⟩
  · exact ⟨(σ.pool n).val, Function.update_of_ne hn ..⟩

theorem writeVal_pool_of_ne (hne : n ≠ c) : (writeVal σ c value).pool n = σ.pool n :=
  Function.update_of_ne hne ..

@[simp] theorem writeVal_nbNode : (writeVal σ c value).nbNode = σ.nbNode := rfl

@[simp] theorem writeVal_depth : (writeVal σ c value).depth = σ.depth := rfl

@[simp] theorem writeVal_val_self : ((writeVal σ c value).pool c).val = value := by
  simp [writeVal]

@[simp] theorem writeVal_isLeaf (n : Nat) :
    ((writeVal σ c value).pool n).isLeaf = (σ.pool n).isLeaf := by
  obtain ⟨v, hn⟩ := writeVal_fields σ c value n
  rw [hn]

@[simp] theorem writeVal_isValue (n : Nat) :
    ((writeVal σ c value).pool n).isValue = (σ.pool n).isValue := by
  obtain ⟨v, hn⟩ := writeVal_fields σ c value n
  rw [hn]

@[simp] theorem writeVal_parent (n : Nat) :
    ((writeVal σ c value).pool n).parent = (σ.pool n).parent := by
  obtain ⟨v, hn⟩ := writeVal_fields σ c value n
  rw [hn]

@[simp] theorem writeVal_key (n : Nat) :
    ((writeVal σ c value).pool n).key = (σ.pool n).key := by
  obtain ⟨v, hn⟩ := writeVal_fields σ c value n
  rw [hn]

@[simp] theorem writeVal_child (n : Nat) :
    ((writeVal σ c value).pool n).child = (σ.pool n).child := by
  obtain ⟨v, hn⟩ := writeVal_fields σ c value n
  rw [hn]

end

omit [LinearOrder κ] [Inhabited V] in
@[simp] theorem writeVal_isInner (n : Nat) :
    ((writeVal σ c value).pool n).IsInner ↔ (σ.pool n).IsInner := by
  simp only [Node.IsInner, writeVal_isLeaf, writeVal_isValue]

omit [Inhabited V] in
@[simp] theorem writeVal_childFor (n : Nat) (k : κ) :
    childFor ((writeVal σ c value).pool n) k = childFor (σ.pool n) k := by
  simp only [childFor, writeVal_key, writeVal_child]

omit [LinearOrder κ] in
theorem Shape.writeVal_preserves (shape : Shape σ dist) (hlt : c < σ.nbNode) :
    Shape (writeVal σ c value) dist := by
  constructor
  case root_lt => exact shape.root_lt
  case fresh =>
    intro n hn
    have hn' : σ.nbNode ≤ n := hn
    rw [writeVal_pool_of_ne (by omega)]
    exact shape.fresh n hn
  case root_isValue => simpa using shape.root_isValue
  case root_parent => simpa using shape.root_parent
  case child_lt => simpa using shape.child_lt
  case child_ne_root => simpa using shape.child_ne_root
  case nodup => simpa using shape.nodup
  case unique => simpa using shape.unique
  case parent_eq => simpa using shape.parent_eq
  case owned => simpa using shape.owned
  case value_bare => simpa using shape.value_bare
  case leaf_child => simpa using shape.leaf_child
  case inner_child => simpa using shape.inner_child
  case leaf_arity => simpa using shape.leaf_arity
  case inner_arity => simpa using shape.inner_arity
  case dist_root => exact shape.dist_root
  case dist_child => simpa using shape.dist_child

omit [Inhabited V] in
theorem Ordered.writeVal_preserves (ordered : Ordered M σ b) :
    Ordered M (writeVal σ c value) b := by
  constructor
  case sorted => simpa using ordered.sorted
  case lo_le => simpa using ordered.lo_le
  case le_hi => simpa using ordered.le_hi
  case lo_root => exact ordered.lo_root
  case hi_root => exact ordered.hi_root
  case child_lo => simpa using ordered.child_lo
  case child_hi => simpa using ordered.child_hi
  case leaf_back => simpa using ordered.leaf_back
  case copies => simpa using ordered.copies
  case room => simpa using ordered.room

/-- Writing to the value node of `x` makes the written value the newest of `x`. -/
theorem Sound.writeVal_contents {w : World κ V} (sound : Sound M w history)
    (hlt : n < w.state.nbNode) (hleaf : (w.state.pool n).isLeaf = true)
    (hlo : w.bounds.lo n < (x : WithBot κ)) (hmem : x ∈ (w.state.pool n).key)
    (hc : childFor (w.state.pool n) x = some c) :
    Contents (writeVal w.state c value) w.bounds ((x, value) :: history) := by
  have shape := sound.shape
  have hrecorded := sound.contents.recorded n x hleaf hmem
  have hkeys : ∀ y, y ∈ keysOf ((x, value) :: history) ↔ y ∈ keysOf history := by
    intro y
    constructor
    · intro hy
      rcases List.mem_cons.mp hy with rfl | hold
      · exact hrecorded
      · exact hold
    · exact fun hy => List.mem_cons_of_mem _ hy
  constructor
  case recorded =>
    intro m y hmleaf hy
    rw [writeVal_isLeaf] at hmleaf
    rw [writeVal_key] at hy
    exact (hkeys y).mpr (sound.contents.recorded m y hmleaf hy)
  case present =>
    intro m y hm hmleaf holds hy
    rw [writeVal_isLeaf] at hmleaf
    rw [writeVal_key]
    exact sound.contents.present m y hm hmleaf holds ((hkeys y).mp hy)
  case newest =>
    intro m y d hmleaf hmlo hy hd
    rw [writeVal_isLeaf] at hmleaf
    rw [writeVal_key] at hy
    rw [writeVal_childFor] at hd
    have hold := sound.contents.newest m y d hmleaf hmlo hy hd
    by_cases hdc : d = c
    · subst hdc
      obtain rfl := shape.key_unique
        ⟨n, _, hleaf, getElem?_lowerBound (sound.ordered.sorted n) hmem, hc⟩
        ⟨m, _, hmleaf, getElem?_lowerBound (sound.ordered.sorted m) hy, hd⟩
      rw [List.lookup_cons_self, writeVal_val_self]
    · -- another node answers for another key
      have hyx : y ≠ x := by
        rintro rfl
        have hm : m < w.state.nbNode := shape.lt_of_mem_child (List.mem_of_getElem? hd)
        have hsame : m = n := sound.ordered.leaf_unique shape hm hlt hmleaf hleaf
          ⟨hmlo, sound.ordered.le_hi m y hy⟩ ⟨hlo, sound.ordered.le_hi n y hmem⟩
        subst hsame
        rw [hd] at hc
        exact hdc (Option.some.inj hc)
      rw [List.lookup_cons, beq_false_of_ne hyx, writeVal_pool_of_ne hdc]
      exact hold

theorem Settled.writeVal_preserves {w : World κ V} (settled : Settled M w history)
    (hlt : n < w.state.nbNode) (hleaf : (w.state.pool n).isLeaf = true)
    (hlo : w.bounds.lo n < (x : WithBot κ)) (hmem : x ∈ (w.state.pool n).key)
    (hc : childFor (w.state.pool n) x = some c) :
    Settled M ⟨writeVal w.state c value, w.dist, w.bounds⟩ ((x, value) :: history) := by
  have hclt := settled.shape.child_lt n c (List.mem_of_getElem? hc)
  constructor
  case toSound =>
    constructor
    case shape => exact settled.shape.writeVal_preserves hclt
    case ordered => exact settled.ordered.writeVal_preserves
    case contents => exact settled.toSound.writeVal_contents hlt hleaf hlo hmem hc
    case depth_le => simpa using settled.depth_le
  case small => simpa using settled.small

/-- Whichever value node is written to, the tree records the same keys. -/
theorem Settled.writeVal_value {w : World κ V} (settled : Settled M w history)
    (hlt : c < w.state.nbNode) (hvalue : (w.state.pool c).isValue = true) (value : V) :
    ∃ history', Settled M ⟨writeVal w.state c value, w.dist, w.bounds⟩ history' ∧
      ∀ y, y ∈ keysOf history' ↔ y ∈ keysOf history := by
  by_cases hfirst : ∃ n, ∃ x : κ, (w.state.pool n).isLeaf = true ∧
      w.bounds.lo n < (x : WithBot κ) ∧ x ∈ (w.state.pool n).key ∧
      childFor (w.state.pool n) x = some c
  · obtain ⟨n, x, hleaf, hlo, hmem, hc⟩ := hfirst
    have hn := settled.shape.lt_of_mem_child (mem_child_of_childFor hc)
    refine ⟨(x, value) :: history, settled.writeVal_preserves hn hleaf hlo hmem hc, fun y => ?_⟩
    constructor
    · intro hy
      rcases List.mem_cons.mp hy with rfl | hold
      · exact settled.contents.recorded n _ hleaf hmem
      · exact hold
    · exact fun hy => List.mem_cons_of_mem _ hy
  · -- no lookup ends at `c`
    refine ⟨history, ?_, fun _ => Iff.rfl⟩
    constructor
    case toSound =>
      constructor
      case shape => exact settled.shape.writeVal_preserves hlt
      case ordered => exact settled.ordered.writeVal_preserves
      case contents =>
        constructor
        case recorded => simpa using settled.contents.recorded
        case present => simpa using settled.contents.present
        case newest =>
          intro m y d hmleaf hmlo hy hd
          rw [writeVal_isLeaf] at hmleaf
          rw [writeVal_key] at hy
          rw [writeVal_childFor] at hd
          have hdc : d ≠ c := by
            rintro rfl
            exact hfirst ⟨m, y, hmleaf, hmlo, hy, hd⟩
          rw [writeVal_pool_of_ne hdc]
          exact settled.contents.newest m y d hmleaf hmlo hy hd
      case depth_le => simpa using settled.depth_le
    case small => simpa using settled.small

/-! ## The whole descent -/

/-- What an update does to the abstract store: nothing is found, or the newest
value of the key found is changed. -/
def Modifies (change : V → V) (history : List (κ × V)) (k : κ) (M : Nat) (dist : Nat → Nat)
    (b : Bounds κ) (last : Option (State κ V)) : Prop :=
  match ceilKey (keysOf history) k with
  | none => last = none
  | some x => ∃ σ' old, last = some σ' ∧ history.lookup x = some old ∧
      Settled M ⟨σ', dist, b⟩ ((x, change old) :: history)

theorem Settled.modifyLoop_spec (change : V → V) {fuel : Nat}
    (settled : Settled M ⟨σ, dist, b⟩ history) (hlt : n < σ.nbNode)
    (hval : (σ.pool n).isValue = false) (holds : b.Holds n k) (hfuel : σ.nbNode ≤ fuel + dist n) :
    Modifies change history k M dist b (modifyLoop change k fuel σ n) := by
  induction fuel generalizing σ n with
  | zero =>
      have := settled.shape.dist_lt hlt
      simp only at this
      omega
  | succ fuel ih =>
      have shape := settled.shape
      unfold modifyLoop
      rw [if_neg (by simp [hval])]
      cases hleaf : (σ.pool n).isLeaf with
      | true =>
          unfold Modifies
          obtain ⟨hchild, hnone⟩ | ⟨c, x, hc, hceil, hlo, hmem, hcx⟩ :=
            settled.toSound.ceilKey_eq hlt hleaf holds
          · rw [hnone, hchild]
          · have hcmem := mem_child_of_childFor hc
            have hc' : c < σ.nbNode := shape.child_lt n c hcmem
            have hdist := shape.dist_child n c hcmem
            have hbound := shape.dist_lt hc'
            simp only at hdist hbound
            obtain ⟨rest, rfl⟩ : ∃ rest, fuel = rest + 1 := ⟨fuel - 1, by omega⟩
            have hsame := sameTree_touch hc'
            have hvalue : ((touch σ c).pool c).isValue = true := by
              rw [hsame.isValue]
              exact shape.leaf_child n c hleaf hcmem
            have hlast : modifyLoop change k (rest + 1) (touch σ c) c =
                some (writeVal (touch σ c) c (change ((touch σ c).pool c).val)) := if_pos hvalue
            rw [hceil, hc]
            refine ⟨_, _, hlast, settled.contents.newest n x c hleaf hlo hmem hcx, ?_⟩
            rw [hsame.val]
            refine (hsame.settled settled).writeVal_preserves (n := n) ?_ ?_ hlo ?_ ?_
            · exact hsame.nbNode ▸ hlt
            · exact (hsame.isLeaf n).trans hleaf
            · exact (hsame.key n).symm ▸ hmem
            · exact (hsame.childFor n x).trans hcx
      | false =>
          have hinner : (σ.pool n).IsInner := ⟨hleaf, hval⟩
          obtain ⟨c, hc, hmem⟩ := shape.childFor_inner hinner k
          have hc' : c < σ.nbNode := shape.child_lt n c hmem
          have hsame := sameTree_touch hc'
          have hdist := shape.dist_child n c hmem
          simp only [hc]
          refine ih (hsame.settled settled) (hsame.nbNode ▸ hc') ?_
            (settled.ordered.holds_childFor hinner holds hc) ?_
          · rw [hsame.isValue]
            exact shape.inner_child n c hinner hmem
          · simp only at hdist
            rw [hsame.nbNode, hdist]
            omega

/-- From whichever node a descent starts, it leaves the tree settled over the same keys. -/
theorem Settled.modifyLoop_keys (change : V → V) {fuel : Nat}
    (settled : Settled M ⟨σ, dist, b⟩ history) (hlt : n < σ.nbNode) {σ' : State κ V}
    (hrun : modifyLoop change k fuel σ n = some σ') :
    ∃ history', Settled M ⟨σ', dist, b⟩ history' ∧
      ∀ y, y ∈ keysOf history' ↔ y ∈ keysOf history := by
  induction fuel generalizing σ n with
  | zero => cases hrun
  | succ fuel ih =>
      unfold modifyLoop at hrun
      split at hrun
      · next hvalue =>
          cases hrun
          exact settled.writeVal_value hlt hvalue _
      · cases hc : childFor (σ.pool n) k with
        | none => rw [hc] at hrun; cases hrun
        | some c =>
            rw [hc] at hrun
            have hc' := settled.shape.child_lt n c (mem_child_of_childFor hc)
            have hsame := sameTree_touch hc'
            exact ih (hsame.settled settled) (hsame.nbNode ▸ hc') hrun

/-- A descent that returns started at a node of the tree. -/
theorem Shape.lt_of_modifyLoop (shape : Shape σ dist) (change : V → V) {fuel : Nat}
    {σ' : State κ V} (hrun : modifyLoop change k fuel (touch σ n) n = some σ') :
    n < σ.nbNode := by
  by_contra hge
  have hfresh := shape.fresh n (Nat.le_of_not_lt hge)
  have hvalue : ((touch σ n).pool n).isValue = false := by simp [touch, hfresh]
  have hnone : childFor ((touch σ n).pool n) k = none := by simp [childFor, touch, hfresh]
  cases fuel with
  | zero => cases hrun
  | succ fuel =>
      rw [modifyLoop, hvalue, hnone] at hrun
      cases hrun

end Write

end FatBTree.Tree
