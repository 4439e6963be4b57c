import FatBTree.Tree.Repair
import Mathlib.Order.Lattice

/-!
# `lookup`

A lookup descends to a value node; it does not compare the key it finds with
the key it was asked for.  Over the abstract store it therefore answers with
the newest value of the least inserted key that is not below the one asked for.
-/

namespace FatBTree.Tree

open FatBTree.Order

variable {κ V : Type} [LinearOrder κ]

/-- `++cur->access_count`. -/
def touch (σ : State κ V) (n : Nat) : State κ V :=
  { σ with
    pool := Function.update σ.pool n
      { σ.pool n with accessCount := (σ.pool n).accessCount + 1 } }

/-- `while (!cur->isValue)`.  `none` stands for a child index at or beyond the
size of the child vector. -/
def lookupLoop (k : κ) : Nat → State κ V → Nat → Option (V × State κ V)
  | 0, _, _ => none
  | fuel + 1, σ, cur =>
      if (σ.pool cur).isValue then some ((σ.pool cur).val, σ)
      else
        match childFor (σ.pool cur) k with
        | none => none
        | some next =>
            lookupLoop k fuel (touch { σ with nbAccess := σ.nbAccess + 1 } next) next

/-- `lookup`, started at the node that the bias resolves to. -/
def lookup (σ : State κ V) (k : κ) (start : Nat) : Option (V × State κ V) :=
  lookupLoop k σ.nbNode (touch { σ with nbQuery := σ.nbQuery + 1 } start) start

/-! ## The abstract store -/

/-- The least of the keys that is not below `k`. -/
def ceilKey (keys : List κ) (k : κ) : Option κ :=
  (keys.filter (fun x => decide (k ≤ x))).min?

theorem ceilKey_eq_some_iff {keys : List κ} {k x : κ} :
    ceilKey keys k = some x ↔ (x ∈ keys ∧ k ≤ x) ∧ ∀ y ∈ keys, k ≤ y → x ≤ y := by
  rw [ceilKey, List.min?_eq_some_iff]
  simp [List.mem_filter]

theorem ceilKey_eq_none_iff {keys : List κ} {k : κ} :
    ceilKey keys k = none ↔ ∀ y ∈ keys, y < k := by
  simp [ceilKey]

theorem ceilKey_self {keys : List κ} {k : κ} (hk : k ∈ keys) : ceilKey keys k = some k :=
  ceilKey_eq_some_iff.mpr ⟨⟨hk, le_refl k⟩, fun _ _ hle => hle⟩

/-- What a lookup means over the abstract store. -/
def ceiling (history : List (κ × V)) (k : κ) : Option V :=
  match ceilKey (keysOf history) k with
  | none => none
  | some x => history.lookup x

/-! ## Counters and marks -/

/-- The same tree up to access counters, statistics and further marks. -/
structure SameTree (σ σ' : State κ V) : Prop where
  nbNode : σ'.nbNode = σ.nbNode
  depth : σ'.depth = σ.depth
  isLeaf : ∀ n, (σ'.pool n).isLeaf = (σ.pool n).isLeaf
  isValue : ∀ n, (σ'.pool n).isValue = (σ.pool n).isValue
  parent : ∀ n, (σ'.pool n).parent = (σ.pool n).parent
  key : ∀ n, (σ'.pool n).key = (σ.pool n).key
  val : ∀ n, (σ'.pool n).val = (σ.pool n).val
  child : ∀ n, (σ'.pool n).child = (σ.pool n).child
  loaded : ∀ n, (σ.pool n).isLoaded2Switch = true → (σ'.pool n).isLoaded2Switch = true
  fresh : ∀ n, σ.nbNode ≤ n → σ'.pool n = σ.pool n

namespace SameTree

variable {σ σ' σ'' : State κ V} {dist : Nat → Nat} {b : Bounds κ}

omit [LinearOrder κ] in
theorem refl (σ : State κ V) : SameTree σ σ := by
  constructor <;> intros <;> first | rfl | assumption

omit [LinearOrder κ] in
theorem trans (first : SameTree σ σ') (second : SameTree σ' σ'') : SameTree σ σ'' := by
  constructor
  case nbNode => exact second.nbNode.trans first.nbNode
  case depth => exact second.depth.trans first.depth
  case isLeaf => exact fun n => (second.isLeaf n).trans (first.isLeaf n)
  case isValue => exact fun n => (second.isValue n).trans (first.isValue n)
  case parent => exact fun n => (second.parent n).trans (first.parent n)
  case key => exact fun n => (second.key n).trans (first.key n)
  case val => exact fun n => (second.val n).trans (first.val n)
  case child => exact fun n => (second.child n).trans (first.child n)
  case loaded => exact fun n h => second.loaded n (first.loaded n h)
  case fresh =>
    intro n hn
    exact (second.fresh n (first.nbNode.symm ▸ hn)).trans (first.fresh n hn)

theorem childFor (same : SameTree σ σ') (n : Nat) (k : κ) :
    childFor (σ'.pool n) k = childFor (σ.pool n) k := by
  simp only [Tree.childFor, same.key, same.child]

omit [LinearOrder κ] in
theorem isInner (same : SameTree σ σ') (n : Nat) :
    (σ'.pool n).IsInner ↔ (σ.pool n).IsInner := by
  simp only [Node.IsInner, same.isLeaf, same.isValue]

omit [LinearOrder κ] in
theorem shape [Inhabited V] (same : SameTree σ σ') (shape : Shape σ dist) : Shape σ' dist := by
  constructor
  case root_lt => simpa only [same.nbNode] using shape.root_lt
  case fresh =>
    intro n hn
    rw [same.nbNode] at hn
    exact (same.fresh n hn).trans (shape.fresh n hn)
  case root_isValue => simpa only [same.isValue] using shape.root_isValue
  case root_parent => simpa only [same.parent] using shape.root_parent
  case child_lt => simpa only [same.child, same.nbNode] using shape.child_lt
  case child_ne_root => simpa only [same.child] using shape.child_ne_root
  case nodup => simpa only [same.child] using shape.nodup
  case unique => simpa only [same.child] using shape.unique
  case parent_eq => simpa only [same.child, same.isValue, same.parent] using shape.parent_eq
  case owned => simpa only [same.child, same.nbNode] using shape.owned
  case value_bare =>
    simpa only [same.isValue, same.isLeaf, same.key, same.child] using shape.value_bare
  case leaf_child =>
    simpa only [same.isValue, same.isLeaf, same.child] using shape.leaf_child
  case inner_child =>
    simpa only [same.isInner, same.isValue, same.child] using shape.inner_child
  case leaf_arity =>
    simpa only [same.isLeaf, same.key, same.child] using shape.leaf_arity
  case inner_arity =>
    simpa only [same.isInner, same.key, same.child] using shape.inner_arity
  case dist_root => exact shape.dist_root
  case dist_child => simpa only [same.child] using shape.dist_child

theorem ordered {M : Nat} (same : SameTree σ σ') (ordered : Ordered M σ b) :
    Ordered M σ' b := by
  constructor
  case sorted => simpa only [same.key] using ordered.sorted
  case lo_le => simpa only [same.key] using ordered.lo_le
  case le_hi => simpa only [same.key] using ordered.le_hi
  case lo_root => exact ordered.lo_root
  case hi_root => exact ordered.hi_root
  case child_lo => simpa only [same.isInner, same.key, same.child] using ordered.child_lo
  case child_hi => simpa only [same.isInner, same.key, same.child] using ordered.child_hi
  case leaf_back =>
    simpa only [same.isLeaf, same.key, same.nbNode] using ordered.leaf_back
  case copies => simpa only [same.key] using ordered.copies
  case room =>
    simpa only [same.isInner, same.isLeaf, same.key, same.child] using ordered.room

theorem contents {history : List (κ × V)} (same : SameTree σ σ')
    (contents : Contents σ b history) : Contents σ' b history := by
  constructor
  case recorded => simpa only [same.isLeaf, same.key] using contents.recorded
  case present =>
    simpa only [same.isLeaf, same.key, same.nbNode] using contents.present
  case newest =>
    simpa only [same.isLeaf, same.key, same.childFor, same.val] using contents.newest

theorem settled [Inhabited V] {M : Nat} {history : List (κ × V)} (same : SameTree σ σ')
    (settled : Settled M ⟨σ, dist, b⟩ history) : Settled M ⟨σ', dist, b⟩ history := by
  constructor
  case toSound =>
    constructor
    case shape => exact same.shape settled.shape
    case ordered => exact same.ordered settled.ordered
    case contents => exact same.contents settled.contents
    case depth_le =>
      simpa only [same.isLeaf, same.nbNode, same.depth] using settled.depth_le
  case small => simpa only [same.key] using settled.small

theorem keeps (same : SameTree σ σ') (dist : Nat → Nat) (b : Bounds κ) :
    Keeps ⟨σ, dist, b⟩ ⟨σ', dist, b⟩ := by
  constructor
  case nbNode_le => exact same.nbNode.ge
  case depth_le => exact same.depth.ge
  case isValue => exact fun n _ => same.isValue n
  case inner => exact fun n _ hinner => (same.isLeaf n).trans hinner
  case loaded => exact fun n _ hloaded => same.loaded n hloaded
  case val => exact fun n _ _ => same.val n
  case lo => intros; rfl
  case hi_le => intros; exact le_refl _
  case hi_pinned => intros; rfl
  case dist_le => intros; exact Nat.le_refl _

end SameTree

omit [LinearOrder κ] in
theorem sameTree_touch {σ : State κ V} {n : Nat} (hn : n < σ.nbNode) :
    SameTree σ (touch σ n) := by
  have hpool : ∀ m, ∃ count, (touch σ n).pool m = { σ.pool m with accessCount := count } := by
    intro m
    by_cases hm : m = n
    · subst hm
      exact ⟨_, Function.update_self ..⟩
    · exact ⟨(σ.pool m).accessCount, Function.update_of_ne hm ..⟩
  constructor
  case nbNode => rfl
  case depth => rfl
  case isLeaf => intro m; obtain ⟨count, hm⟩ := hpool m; rw [hm]
  case isValue => intro m; obtain ⟨count, hm⟩ := hpool m; rw [hm]
  case parent => intro m; obtain ⟨count, hm⟩ := hpool m; rw [hm]
  case key => intro m; obtain ⟨count, hm⟩ := hpool m; rw [hm]
  case val => intro m; obtain ⟨count, hm⟩ := hpool m; rw [hm]
  case child => intro m; obtain ⟨count, hm⟩ := hpool m; rw [hm]
  case loaded => intro m hloaded; obtain ⟨count, hm⟩ := hpool m; rw [hm]; exact hloaded
  case fresh =>
    intro m hm
    exact Function.update_of_ne (by omega) ..

omit [LinearOrder κ] in
/-- Visiting a node advances counters only. -/
theorem sameTree_visit {σ : State κ V} {n : Nat} (queries accesses : UInt32)
    (hn : n < σ.nbNode) :
    SameTree σ (touch { σ with nbQuery := queries, nbAccess := accesses } n) := by
  have hcount : SameTree σ { σ with nbQuery := queries, nbAccess := accesses } := by
    constructor <;> intros <;> first | rfl | assumption
  exact hcount.trans (sameTree_touch hn)

/-! ## What a lookup returns -/

section Lookup

variable {M : Nat} {σ : State κ V} {dist : Nat → Nat} {b : Bounds κ}
  {history : List (κ × V)} {k : κ} {n : Nat}

theorem lookup_isSome_of_mem {x : κ} (hx : x ∈ keysOf history) :
    ∃ v, history.lookup x = some v := by
  induction history with
  | nil => cases hx
  | cons entry rest ih =>
      obtain ⟨y, v⟩ := entry
      by_cases heq : x = y
      · exact ⟨v, by rw [heq, List.lookup_cons_self]⟩
      · obtain ⟨u, hu⟩ := ih ((List.mem_cons.mp hx).resolve_left heq)
        exact ⟨u, by rw [List.lookup_cons, beq_false_of_ne heq]; exact hu⟩

/-- When no key repeats, a pair that is there is the one that is found. -/
theorem lookup_of_mem {α β : Type*} [BEq α] [LawfulBEq α] {pairs : List (α × β)} {a : α}
    {value : β} (hnodup : (pairs.map Prod.fst).Nodup) (hmem : (a, value) ∈ pairs) :
    pairs.lookup a = some value := by
  induction pairs with
  | nil => cases hmem
  | cons first rest ih =>
      obtain ⟨c, other⟩ := first
      have hparts := List.nodup_cons.mp hnodup
      rcases List.mem_cons.mp hmem with heq | hrest
      · cases heq
        exact List.lookup_cons_self
      · have hne : a ≠ c := by
          rintro rfl
          exact hparts.1 (List.mem_map.mpr ⟨_, hrest, rfl⟩)
        rw [List.lookup_cons, beq_false_of_ne hne]
        exact ih hparts.2 hrest

/-- The leaf responsible for `k` knows the least inserted key not below `k`, and
leads `k` to the value node of that key. -/
theorem Sound.ceilKey_eq [Inhabited V] {w : World κ V} (sound : Sound M w history)
    (hlt : n < w.state.nbNode) (hleaf : (w.state.pool n).isLeaf = true)
    (holds : w.bounds.Holds n k) :
    (childFor (w.state.pool n) k = none ∧ ceilKey (keysOf history) k = none) ∨
      ∃ c x, childFor (w.state.pool n) k = some c ∧ ceilKey (keysOf history) k = some x ∧
        w.bounds.lo n < (x : WithBot κ) ∧ x ∈ (w.state.pool n).key ∧
        childFor (w.state.pool n) x = some c := by
  have shape := sound.shape
  have ordered := sound.ordered
  have harity := shape.leaf_arity n hleaf
  have hlen := lowerBound_le_length (w.state.pool n).key k
  by_cases hend : lowerBound (w.state.pool n).key k = (w.state.pool n).key.length
  · -- every key of the leaf is below `k`, and so is every inserted key
    have hbelow : ∀ x ∈ (w.state.pool n).key, x < k := by
      intro x hx
      obtain ⟨i, hi⟩ := List.mem_iff_getElem?.mp hx
      have hi' := (List.getElem?_eq_some_iff.mp hi).1
      exact lt_of_lt_lowerBound (by omega) hi
    have hnone : ceilKey (keysOf history) k = none := by
      refine ceilKey_eq_none_iff.mpr fun y hy => ?_
      by_contra hle
      have hky : k ≤ y := not_lt.mp hle
      have habove : ¬ (y : WithTop κ) ≤ w.bounds.hi n := by
        intro hhi
        have hlo := holds.1.trans_le (WithBot.coe_le_coe.mpr hky)
        have hmem := sound.contents.present n y hlt hleaf ⟨hlo, hhi⟩ hy
        exact absurd (hbelow y hmem) (not_lt.mpr hky)
      cases hhi : w.bounds.hi n with
      | top => exact habove (hhi ▸ le_top)
      | coe s =>
          have hs := hbelow s (ordered.leaf_back n s hlt hleaf hhi)
          have hks := holds.2
          rw [hhi] at hks
          exact absurd hs (not_lt.mpr (WithTop.coe_le_coe.mp hks))
    have hchild : childFor (w.state.pool n) k = none := by
      rw [childFor, List.getElem?_eq_none]
      omega
    exact Or.inl ⟨hchild, hnone⟩
  · obtain ⟨x, hx⟩ : ∃ x, (w.state.pool n).key[lowerBound (w.state.pool n).key k]? = some x :=
      ⟨_, List.getElem?_eq_getElem (by omega)⟩
    have hkx := le_of_getElem?_lowerBound hx
    have hmem := List.mem_of_getElem? hx
    have hlo : w.bounds.lo n < (x : WithBot κ) :=
      holds.1.trans_le (WithBot.coe_le_coe.mpr hkx)
    -- the first copy of `x` is what the search for `k` found
    have hfirst : lowerBound (w.state.pool n).key x = lowerBound (w.state.pool n).key k := by
      refine lowerBound_eq hlen (fun j y hj hy => ?_) (fun y hy => ?_)
      · exact (lt_of_lt_lowerBound hj hy).trans_le hkx
      · rw [hx] at hy
        cases hy
        exact le_refl _
    have hceil : ceilKey (keysOf history) k = some x := by
      refine ceilKey_eq_some_iff.mpr
        ⟨⟨sound.contents.recorded n x hleaf hmem, hkx⟩, fun y hy hky => ?_⟩
      by_cases hhi : (y : WithTop κ) ≤ w.bounds.hi n
      · have hylo := holds.1.trans_le (WithBot.coe_le_coe.mpr hky)
        have hymem := sound.contents.present n y hlt hleaf ⟨hylo, hhi⟩ hy
        obtain ⟨i, hi⟩ := List.mem_iff_getElem?.mp hymem
        refine (ordered.sorted n).le ?_ hx hi
        by_contra hbefore
        exact absurd (lt_of_lt_lowerBound (by omega) hi) (not_lt.mpr hky)
      · have hxhi := ordered.le_hi n x hmem
        exact WithTop.coe_le_coe.mp (hxhi.trans (not_le.mp hhi).le)
    obtain ⟨c, hc⟩ : ∃ c, childFor (w.state.pool n) k = some c :=
      ⟨_, List.getElem?_eq_getElem (by omega)⟩
    have hcx : childFor (w.state.pool n) x = some c := by
      rw [childFor, hfirst]
      exact hc
    exact Or.inr ⟨c, x, hc, hceil, hlo, hmem, hcx⟩

theorem Sound.ceiling_eq [Inhabited V] {w : World κ V} (sound : Sound M w history)
    (hlt : n < w.state.nbNode) (hleaf : (w.state.pool n).isLeaf = true)
    (holds : w.bounds.Holds n k) :
    ceiling history k =
      (childFor (w.state.pool n) k).map (fun c => (w.state.pool c).val) := by
  obtain ⟨hchild, hnone⟩ | ⟨c, x, hc, hceil, hlo, hmem, hcx⟩ := sound.ceilKey_eq hlt hleaf holds
  · rw [ceiling, hnone, hchild]
    rfl
  · rw [hc, ceiling, hceil]
    exact sound.contents.newest n x c hleaf hlo hmem hcx

/-- A lookup changes nothing but counters. -/
theorem Shape.sameTree_lookupLoop [Inhabited V] (shape : Shape σ dist) {fuel : Nat} {v : V}
    {σ' : State κ V} (hrun : lookupLoop k fuel σ n = some (v, σ')) : SameTree σ σ' := by
  induction fuel generalizing σ n with
  | zero => cases hrun
  | succ fuel ih =>
      unfold lookupLoop at hrun
      split at hrun
      · cases hrun
        exact SameTree.refl _
      · cases hc : childFor (σ.pool n) k with
        | none => rw [hc] at hrun; cases hrun
        | some c =>
            rw [hc] at hrun
            have hlt : c < σ.nbNode := shape.child_lt n c (mem_child_of_childFor hc)
            have hstep := sameTree_visit σ.nbQuery (σ.nbAccess + 1) hlt
            exact hstep.trans (ih (hstep.shape shape) hrun)

theorem Settled.lookupLoop_eq [Inhabited V] {fuel : Nat} (settled : Settled M ⟨σ, dist, b⟩ history)
    (hlt : n < σ.nbNode) (hval : (σ.pool n).isValue = false) (holds : b.Holds n k)
    (hfuel : σ.nbNode ≤ fuel + dist n) :
    (lookupLoop k fuel σ n).map Prod.fst = ceiling history k := by
  induction fuel generalizing σ n with
  | zero =>
      have := settled.shape.dist_lt hlt
      simp only at this
      omega
  | succ fuel ih =>
      have shape := settled.shape
      unfold lookupLoop
      rw [if_neg (by simp [hval])]
      cases hleaf : (σ.pool n).isLeaf with
      | true =>
          rw [settled.toSound.ceiling_eq hlt hleaf holds]
          cases hc : childFor (σ.pool n) k with
          | none => rfl
          | some c =>
              have hmem := mem_child_of_childFor hc
              have hc' : c < σ.nbNode := shape.child_lt n c hmem
              have hdist := shape.dist_child n c hmem
              have hbound := shape.dist_lt hc'
              simp only at hdist hbound
              have hsame := sameTree_visit σ.nbQuery (σ.nbAccess + 1) hc'
              obtain ⟨rest, rfl⟩ : ∃ rest, fuel = rest + 1 := ⟨fuel - 1, by omega⟩
              have hvalue : ((touch { σ with nbAccess := σ.nbAccess + 1 } c).pool c).isValue =
                  true := by
                rw [hsame.isValue]
                exact shape.leaf_child n c hleaf hmem
              simp only [lookupLoop, if_pos hvalue, hsame.val, Option.map_some]
      | false =>
          have hinner : (σ.pool n).IsInner := ⟨hleaf, hval⟩
          obtain ⟨c, hc, hmem⟩ := shape.childFor_inner hinner k
          have hc' : c < σ.nbNode := shape.child_lt n c hmem
          have hsame := sameTree_visit σ.nbQuery (σ.nbAccess + 1) hc'
          have hdist := shape.dist_child n c hmem
          simp only [hc]
          refine ih (hsame.settled settled) hc' ?_
            (settled.ordered.holds_childFor hinner holds hc) ?_
          · rw [hsame.isValue]
            exact shape.inner_child n c hinner hmem
          · simp only at hdist
            rw [hsame.nbNode, hdist]
            omega

/-- From any node on the path, a lookup answers as the abstract store does. -/
theorem Settled.lookup_eq [Inhabited V] (settled : Settled M ⟨σ, dist, b⟩ history)
    (hlt : n < σ.nbNode)
    (hval : (σ.pool n).isValue = false) (holds : b.Holds n k) :
    (lookup σ k n).map Prod.fst = ceiling history k := by
  have hsame := sameTree_visit (σ.nbQuery + 1) σ.nbAccess hlt
  unfold lookup
  refine (hsame.settled settled).lookupLoop_eq hlt ?_ holds (Nat.le_add_right _ _)
  rw [hsame.isValue]
  exact hval

theorem Shape.sameTree_lookup [Inhabited V] (shape : Shape σ dist) (hlt : n < σ.nbNode) {v : V}
    {σ' : State κ V} (hrun : lookup σ k n = some (v, σ')) : SameTree σ σ' := by
  have hsame := sameTree_visit (σ.nbQuery + 1) σ.nbAccess hlt
  exact hsame.trans ((hsame.shape shape).sameTree_lookupLoop hrun)

/-- A lookup that returns started at a node of the tree. -/
theorem Shape.lt_of_lookup [Inhabited V] (shape : Shape σ dist) {v : V} {σ' : State κ V}
    (hrun : lookup σ k n = some (v, σ')) : n < σ.nbNode := by
  by_contra hge
  have hfresh := shape.fresh n (Nat.le_of_not_lt hge)
  have hroot := shape.root_lt
  obtain ⟨rest, hfuel⟩ : ∃ rest, σ.nbNode = rest + 1 := ⟨σ.nbNode - 1, by omega⟩
  rw [lookup, hfuel] at hrun
  simp [lookupLoop, childFor, touch, hfresh] at hrun

end Lookup

end FatBTree.Tree
