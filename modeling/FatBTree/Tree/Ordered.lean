import FatBTree.Tree.CopyDown
import FatBTree.Tree.SplitNode

/-!
# The search order

Every node is responsible for an interval `(lo, hi]` of keys.  The intervals of
the children of an inner node are the segments its keys cut out.  Keys may
repeat, so a separator can occur again at the left edge of the node to its
right; the last two fields bound how often.  That bound is what makes the
repeated binary search of `attach` land next to the node that was split.
-/

namespace FatBTree.Tree

open FatBTree.Order

/-- The interval of keys each node is responsible for. -/
structure Bounds (κ : Type) where
  lo : Nat → WithBot κ
  hi : Nat → WithTop κ

/-- The node orders at which a split leaves two usable halves. -/
class NodeOrder (M : Nat) : Prop where
  even : M = 2 * (M / 2)
  four_le : 4 ≤ M

instance : NodeOrder 16 := ⟨by decide, by decide⟩

variable {κ V : Type} [LinearOrder κ]

/-- `n` is responsible for `k`. -/
def Bounds.Holds (b : Bounds κ) (n : Nat) (k : κ) : Prop :=
  Within (b.lo n) (b.hi n) k

structure Ordered (M : Nat) (σ : State κ V) (b : Bounds κ) : Prop where
  sorted : ∀ n, Ascending (σ.pool n).key
  lo_le : ∀ n, ∀ x ∈ (σ.pool n).key, b.lo n ≤ (x : WithBot κ)
  le_hi : ∀ n, ∀ x ∈ (σ.pool n).key, (x : WithTop κ) ≤ b.hi n
  lo_root : b.lo root = ⊥
  hi_root : b.hi root = ⊤
  child_lo : ∀ n i c, (σ.pool n).IsInner → (σ.pool n).child[i]? = some c →
    b.lo c = segLo (b.lo n) (σ.pool n).key i
  child_hi : ∀ n i c, (σ.pool n).IsInner → (σ.pool n).child[i]? = some c →
    b.hi c = segHi (b.hi n) (σ.pool n).key i
  leaf_back : ∀ n (s : κ), n < σ.nbNode → (σ.pool n).isLeaf = true → b.hi n = s →
    s ∈ (σ.pool n).key
  copies : ∀ n i x, M / 2 ≤ i → (σ.pool n).key[i]? = some x → b.lo n < (x : WithBot κ)
  room : ∀ n x c y, (σ.pool n).IsInner → (σ.pool n).key[M / 2 - 1]? = some x →
    ¬ b.lo n < (x : WithBot κ) → (σ.pool n).child[M / 2]? = some c →
    (σ.pool c).isLeaf = true → (σ.pool c).key[M / 2 - 1]? = some y →
    b.lo c < (y : WithBot κ)

theorem ordered_empty [Inhabited V] (M : Nat) :
    Ordered M (State.empty : State κ V) ⟨fun _ => ⊥, fun _ => ⊤⟩ := by
  constructor <;> simp [State.empty, Ascending, Node.IsInner]

namespace Ordered

variable {M : Nat} {σ : State κ V} {dist : Nat → Nat} {b : Bounds κ}

/-- A child is responsible for a part of what its parent is responsible for. -/
theorem holds_parent (ordered : Ordered M σ b) {n i c : Nat} {k : κ}
    (hinner : (σ.pool n).IsInner) (hc : (σ.pool n).child[i]? = some c)
    (holds : b.Holds c k) : b.Holds n k := by
  refine holds.mono ?_ ?_
  · rw [ordered.child_lo n i c hinner hc]
    exact lo_le_segLo (ordered.lo_le n)
  · rw [ordered.child_hi n i c hinner hc]
    exact segHi_le_hi (ordered.le_hi n)

/-- The child responsible for a key is at the lower bound of the key. -/
theorem lowerBound_of_child [Inhabited V] (ordered : Ordered M σ b) (shape : Shape σ dist)
    {n i c : Nat}
    {k : κ} (hinner : (σ.pool n).IsInner) (hc : (σ.pool n).child[i]? = some c)
    (holds : b.Holds c k) : lowerBound (σ.pool n).key k = i := by
  have hi := (List.getElem?_eq_some_iff.mp hc).1
  rw [shape.inner_arity n hinner] at hi
  apply lowerBound_eq_of_seg (ordered.sorted n) (Nat.le_of_lt_succ hi)
  rw [← ordered.child_lo n i c hinner hc, ← ordered.child_hi n i c hinner hc]
  exact holds

/-- Lower-bound descent stays with the responsible nodes. -/
theorem holds_childFor (ordered : Ordered M σ b) {n c : Nat} {k : κ}
    (hinner : (σ.pool n).IsInner) (holds : b.Holds n k)
    (hc : childFor (σ.pool n) k = some c) : b.Holds c k := by
  have hseg : Within (segLo (b.lo n) (σ.pool n).key (lowerBound (σ.pool n).key k))
      (segHi (b.hi n) (σ.pool n).key (lowerBound (σ.pool n).key k)) k := Within.seg holds
  rw [← ordered.child_lo n _ c hinner hc, ← ordered.child_hi n _ c hinner hc] at hseg
  exact hseg

theorem holds_root (ordered : Ordered M σ b) (k : κ) : b.Holds root k := by
  constructor
  · rw [ordered.lo_root]
    exact WithBot.bot_lt_coe k
  · rw [ordered.hi_root]
    exact le_top

end Ordered

/-! ## Inserting into a leaf -/

section InsertIntoLeaf

variable (variant : Variant V) {M : Nat} {σ : State κ V} {dist : Nat → Nat} {b : Bounds κ}
  {cur : Nat} {k : κ} (v : V)

/-- Inner nodes are not touched by the insertion. -/
theorem inner_insertIntoLeaf (hlt : cur < σ.nbNode)
    (hleaf : (σ.pool cur).isLeaf = true) {n : Nat}
    (hn : ((insertIntoLeaf variant σ cur k v).pool n).IsInner) :
    n ≠ cur ∧ n ≠ σ.nbNode ∧ (insertIntoLeaf variant σ cur k v).pool n = σ.pool n := by
  have hcur : n ≠ cur := by
    rintro rfl
    rw [insertIntoLeaf_pool_cur variant k v hlt] at hn
    have hkind := hn.1
    simp [hleaf] at hkind
  have hnew : n ≠ σ.nbNode := by
    rintro rfl
    have hvalue := hn.2
    rw [insertIntoLeaf_isValue] at hvalue
    simp at hvalue
  exact ⟨hcur, hnew, insertIntoLeaf_pool_other variant k v hnew hcur⟩

/-- Index for index, the grown leaf holds its old key or one at or above the inserted key. -/
theorem getElem?_grown {keys : List κ} (sorted : Ascending keys) {i : Nat} {x : κ}
    (hx : (keys.insertIdx (lowerBound keys k) k)[i]? = some x) :
    keys[i]? = some x ∨ k ≤ x := by
  rw [List.getElem?_insertIdx] at hx
  split_ifs at hx with hbefore hat
  · exact Or.inl hx
  · cases hx
    exact Or.inr le_rfl
  · have hlen := (List.getElem?_eq_some_iff.mp hx).1
    have hfound : keys[lowerBound keys k]? = some keys[lowerBound keys k] := by simp
    exact Or.inr ((le_of_getElem?_lowerBound hfound).trans
      (sorted.le (by omega) hfound hx))

theorem Ordered.insertIntoLeaf_preserves (ordered : Ordered M σ b)
    (hlt : cur < σ.nbNode) (hleaf : (σ.pool cur).isLeaf = true) (holds : b.Holds cur k) :
    Ordered M (insertIntoLeaf variant σ cur k v) b := by
  have hpos : lowerBound (σ.pool cur).key k ≤ (σ.pool cur).key.length :=
    lowerBound_le_length _ _
  have hkey : ∀ n, n ≠ cur → ((insertIntoLeaf variant σ cur k v).pool n).key =
      (σ.pool n).key := by
    intro n hcur
    rw [insertIntoLeaf_pool]
    split_ifs <;> rfl
  have hgrown : ((insertIntoLeaf variant σ cur k v).pool cur).key =
      (σ.pool cur).key.insertIdx (lowerBound (σ.pool cur).key k) k := by
    rw [insertIntoLeaf_pool_cur variant k v hlt]
  have hkind := insertIntoLeaf_isLeaf variant σ cur k v
  constructor
  case lo_root => exact ordered.lo_root
  case hi_root => exact ordered.hi_root
  case sorted =>
    intro n
    by_cases hcur : n = cur
    · rw [hcur, hgrown]
      exact (ordered.sorted cur).insertIdx hpos
        (fun j x hj hx => (lt_of_lt_lowerBound hj hx).le)
        (fun x hx => le_of_getElem?_lowerBound hx)
    · rw [hkey n hcur]
      exact ordered.sorted n
  case lo_le =>
    intro n x hx
    by_cases hcur : n = cur
    · subst hcur
      rw [hgrown, List.mem_insertIdx hpos] at hx
      rcases hx with rfl | hx
      · exact holds.1.le
      · exact ordered.lo_le n x hx
    · rw [hkey n hcur] at hx
      exact ordered.lo_le n x hx
  case le_hi =>
    intro n x hx
    by_cases hcur : n = cur
    · subst hcur
      rw [hgrown, List.mem_insertIdx hpos] at hx
      rcases hx with rfl | hx
      · exact holds.2
      · exact ordered.le_hi n x hx
    · rw [hkey n hcur] at hx
      exact ordered.le_hi n x hx
  case child_lo =>
    intro n i c hn hc
    obtain ⟨-, -, hsame⟩ := inner_insertIntoLeaf variant v hlt hleaf hn
    rw [hsame] at hn hc ⊢
    exact ordered.child_lo n i c hn hc
  case child_hi =>
    intro n i c hn hc
    obtain ⟨-, -, hsame⟩ := inner_insertIntoLeaf variant v hlt hleaf hn
    rw [hsame] at hn hc ⊢
    exact ordered.child_hi n i c hn hc
  case leaf_back =>
    intro n s hn hleaf' hs
    rw [insertIntoLeaf_nbNode] at hn
    rw [hkind] at hleaf'
    split_ifs at hleaf' with hnew
    have hback := ordered.leaf_back n s (by omega) hleaf' hs
    by_cases hcur : n = cur
    · subst hcur
      rw [hgrown, List.mem_insertIdx hpos]
      exact Or.inr hback
    · rw [hkey n hcur]
      exact hback
  case copies =>
    intro n i x hi hx
    by_cases hcur : n = cur
    · subst hcur
      rw [hgrown] at hx
      rcases getElem?_grown (ordered.sorted n) hx with hold | hle
      · exact ordered.copies n i x hi hold
      · exact lt_of_lt_of_le holds.1 (WithBot.coe_le_coe.mpr hle)
    · rw [hkey n hcur] at hx
      exact ordered.copies n i x hi hx
  case room =>
    intro n x c y hn hx hnot hc hcleaf hy
    obtain ⟨-, -, hsame⟩ := inner_insertIntoLeaf variant v hlt hleaf hn
    rw [hsame] at hn hx hc
    rw [hkind] at hcleaf
    split_ifs at hcleaf with hnew
    by_cases hcur : c = cur
    · subst hcur
      rw [hgrown] at hy
      rcases getElem?_grown (ordered.sorted c) hy with hold | hle
      · exact ordered.room n x c y hn hx hnot hc hcleaf hold
      · exact lt_of_lt_of_le holds.1 (WithBot.coe_le_coe.mpr hle)
    · rw [hkey c hcur] at hy
      exact ordered.room n x c y hn hx hnot hc hcleaf hy

end InsertIntoLeaf

/-! ## Copy-on-split -/

/-- The copy is responsible for what `cur` is responsible for. -/
def Bounds.copy (b : Bounds κ) (copyNode cur : Nat) : Bounds κ where
  lo := Function.update b.lo copyNode (b.lo cur)
  hi := Function.update b.hi copyNode (b.hi cur)

section CopyDown

variable (variant : Variant V) {M : Nat} {σ : State κ V} {dist : Nat → Nat} {b : Bounds κ}
  {cur : Nat}

section

omit [LinearOrder κ]

theorem Bounds.copy_lo_new {n : Nat} : (b.copy n cur).lo n = b.lo cur :=
  Function.update_self ..

theorem Bounds.copy_hi_new {n : Nat} : (b.copy n cur).hi n = b.hi cur :=
  Function.update_self ..

theorem Bounds.copy_lo_of_ne {n m : Nat} (hne : m ≠ n) : (b.copy n cur).lo m = b.lo m :=
  Function.update_of_ne hne ..

theorem Bounds.copy_hi_of_ne {n m : Nat} (hne : m ≠ n) : (b.copy n cur).hi m = b.hi m :=
  Function.update_of_ne hne ..

end

omit [LinearOrder κ] in
/-- The copy is responsible for what the node it stands for is responsible for. -/
theorem Bounds.copy_lo_origin (n : Nat) :
    (b.copy σ.nbNode cur).lo n = b.lo (origin σ cur n) := by
  rcases eq_or_ne n σ.nbNode with rfl | hne
  · rw [Bounds.copy_lo_new, origin_new]
  · rw [Bounds.copy_lo_of_ne hne, origin_of_ne hne]

omit [LinearOrder κ] in
theorem Bounds.copy_hi_origin (n : Nat) :
    (b.copy σ.nbNode cur).hi n = b.hi (origin σ cur n) := by
  rcases eq_or_ne n σ.nbNode with rfl | hne
  · rw [Bounds.copy_hi_new, origin_new]
  · rw [Bounds.copy_hi_of_ne hne, origin_of_ne hne]

theorem Ordered.copyDown_preserves [Inhabited V] (ordered : Ordered M σ b) (shape : Shape σ dist)
    (hlt : cur < σ.nbNode) (hval : (σ.pool cur).isValue = false) :
    Ordered M (copyDown variant σ cur) (b.copy σ.nbNode cur) := by
  have hbare : ((copyDown variant σ cur).pool cur).key = [] := by
    rw [shape.copyDown_pool_cur variant hlt]
  have hroot : origin σ cur root = root := origin_of_ne (Nat.ne_of_lt shape.root_lt)
  have hself : origin σ cur cur = cur := origin_of_ne (Nat.ne_of_lt hlt)
  constructor
  case lo_root =>
    rw [Bounds.copy_lo_origin, hroot]
    exact ordered.lo_root
  case hi_root =>
    rw [Bounds.copy_hi_origin, hroot]
    exact ordered.hi_root
  case sorted =>
    intro n
    rcases eq_or_ne n cur with rfl | hne
    · rw [hbare]
      exact List.Pairwise.nil
    · rw [shape.key_copyDown variant hlt hne]
      exact ordered.sorted _
  case lo_le =>
    intro n x hx
    have hne := shape.ne_of_mem_key_copyDown variant hlt hx
    rw [shape.key_copyDown variant hlt hne] at hx
    rw [Bounds.copy_lo_origin]
    exact ordered.lo_le _ x hx
  case le_hi =>
    intro n x hx
    have hne := shape.ne_of_mem_key_copyDown variant hlt hx
    rw [shape.key_copyDown variant hlt hne] at hx
    rw [Bounds.copy_hi_origin]
    exact ordered.le_hi _ x hx
  case child_lo =>
    intro n i c hinner hc
    rcases shape.child_cases_copyDown variant hlt hc with ⟨rfl, rfl, rfl⟩ | ⟨hne, hnew, hold⟩
    · rw [Bounds.copy_lo_origin, Bounds.copy_lo_origin, origin_new, hself, hbare]
      rfl
    · have hinner' := (shape.isInner_copyDown variant hlt hval hne).mp hinner
      rw [Bounds.copy_lo_origin, Bounds.copy_lo_origin, origin_of_ne hnew,
        shape.key_copyDown variant hlt hne]
      exact ordered.child_lo _ i c hinner' hold
  case child_hi =>
    intro n i c hinner hc
    rcases shape.child_cases_copyDown variant hlt hc with ⟨rfl, rfl, rfl⟩ | ⟨hne, hnew, hold⟩
    · rw [Bounds.copy_hi_origin, Bounds.copy_hi_origin, origin_new, hself, hbare]
      rfl
    · have hinner' := (shape.isInner_copyDown variant hlt hval hne).mp hinner
      rw [Bounds.copy_hi_origin, Bounds.copy_hi_origin, origin_of_ne hnew,
        shape.key_copyDown variant hlt hne]
      exact ordered.child_hi _ i c hinner' hold
  case leaf_back =>
    intro n s hn hleaf hs
    have hne := shape.ne_of_isLeaf_copyDown variant hlt hleaf
    rw [shape.isLeaf_copyDown variant hlt hne] at hleaf
    rw [Bounds.copy_hi_origin] at hs
    rw [shape.key_copyDown variant hlt hne]
    exact ordered.leaf_back _ s (origin_lt hlt hn) hleaf hs
  case copies =>
    intro n i x hi hx
    have hne := shape.ne_of_mem_key_copyDown variant hlt (List.mem_of_getElem? hx)
    rw [shape.key_copyDown variant hlt hne] at hx
    rw [Bounds.copy_lo_origin]
    exact ordered.copies _ i x hi hx
  case room =>
    intro n x c y hinner hx hnot hc hleaf hy
    have hne := shape.ne_of_mem_key_copyDown variant hlt (List.mem_of_getElem? hx)
    have hchild := shape.ne_of_isLeaf_copyDown variant hlt hleaf
    rcases shape.child_cases_copyDown variant hlt hc with ⟨rfl, -, -⟩ | ⟨-, hnew, hold⟩
    · exact absurd rfl hne
    · have hinner' := (shape.isInner_copyDown variant hlt hval hne).mp hinner
      rw [shape.key_copyDown variant hlt hne] at hx
      rw [Bounds.copy_lo_origin] at hnot
      rw [shape.isLeaf_copyDown variant hlt hchild, origin_of_ne hnew] at hleaf
      rw [shape.key_copyDown variant hlt hchild, origin_of_ne hnew] at hy
      rw [Bounds.copy_lo_origin, origin_of_ne hnew]
      exact ordered.room _ x c y hinner' hx hnot hold hleaf hy

end CopyDown

end FatBTree.Tree
