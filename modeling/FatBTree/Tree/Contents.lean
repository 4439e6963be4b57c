import FatBTree.Tree.OrderedSplit
import FatBTree.Tree.Path

/-!
# What the leaves record

The abstract store is the list of inserted pairs, newest first.  A leaf records
exactly the inserted keys it is responsible for, and below the first copy of a
key hangs its newest value.  A copy that repeats the left end of the leaf is
outside the interval and may be stale.
-/

namespace FatBTree.Tree

open FatBTree.Order

variable {κ V : Type} [LinearOrder κ] [Inhabited V]

/-- The keys that were ever inserted. -/
def keysOf (history : List (κ × V)) : List κ :=
  history.map Prod.fst

structure Contents (σ : State κ V) (b : Bounds κ) (history : List (κ × V)) : Prop where
  recorded : ∀ n (x : κ), (σ.pool n).isLeaf = true → x ∈ (σ.pool n).key → x ∈ keysOf history
  present : ∀ n (x : κ), n < σ.nbNode → (σ.pool n).isLeaf = true → b.Holds n x →
    x ∈ keysOf history → x ∈ (σ.pool n).key
  newest : ∀ n (x : κ) c, (σ.pool n).isLeaf = true → b.lo n < (x : WithBot κ) →
    x ∈ (σ.pool n).key → childFor (σ.pool n) x = some c →
    history.lookup x = some (σ.pool c).val

theorem contents_empty (b : Bounds κ) : Contents (State.empty : State κ V) b [] := by
  constructor <;> simp [State.empty, keysOf]

section Steps

variable (variant : Variant V) {M : Nat} {σ : State κ V} {dist : Nat → Nat} {b : Bounds κ}
  {history : List (κ × V)} {cur : Nat}

/-! ## Inserting into a leaf -/

omit [Inhabited V] in
theorem insertIntoLeaf_val (v : V) {k : κ} {n : Nat} (hnew : n ≠ σ.nbNode) :
    ((insertIntoLeaf variant σ cur k v).pool n).val = (σ.pool n).val := by
  rw [insertIntoLeaf_pool, if_neg hnew]
  split_ifs <;> rfl

/-- The child below the first copy of a key after the insertion. -/
theorem Shape.childFor_insertIntoLeaf (shape : Shape σ dist) (ordered : Ordered M σ b)
    (v : V) {k x : κ} {c : Nat} (hlt : cur < σ.nbNode) (hleaf : (σ.pool cur).isLeaf = true)
    (hx : x ∈ (σ.pool cur).key ∨ x = k)
    (hc : childFor ((insertIntoLeaf variant σ cur k v).pool cur) x = some c) :
    (x = k ∧ c = σ.nbNode) ∨ (x ≠ k ∧ childFor (σ.pool cur) x = some c) := by
  have hpos : lowerBound (σ.pool cur).key k ≤ (σ.pool cur).key.length :=
    lowerBound_le_length _ _
  have harity := shape.leaf_arity cur hleaf
  rw [insertIntoLeaf_pool_cur variant k v hlt, childFor] at hc
  rcases lt_trichotomy x k with hxk | rfl | hxk
  · refine Or.inr ⟨hxk.ne, ?_⟩
    have hmem : x ∈ (σ.pool cur).key := hx.resolve_right hxk.ne
    have hfirst := getElem?_lowerBound (ordered.sorted cur) hmem
    have hbefore : lowerBound (σ.pool cur).key x < lowerBound (σ.pool cur).key k := by
      by_contra hge
      have hlen := (List.getElem?_eq_some_iff.mp hfirst).1
      have hy : (σ.pool cur).key[lowerBound (σ.pool cur).key k]? =
          some (σ.pool cur).key[lowerBound (σ.pool cur).key k] := by simp
      have hle := (le_of_getElem?_lowerBound hy).trans
        ((ordered.sorted cur).le (Nat.le_of_not_lt hge) hy hfirst)
      exact absurd hxk (not_lt.mpr hle)
    simp only [lowerBound_insertIdx_of_le hxk.le, List.getElem?_insertIdx, hbefore,
      if_true] at hc
    exact hc
  · refine Or.inl ⟨rfl, ?_⟩
    simp only [lowerBound_insertIdx_of_le (le_refl x), List.getElem?_insertIdx, Nat.lt_irrefl,
      if_false, if_true, harity, hpos] at hc
    exact (Option.some.inj hc).symm
  · refine Or.inr ⟨hxk.ne', ?_⟩
    have hafter : lowerBound (σ.pool cur).key k ≤ lowerBound (σ.pool cur).key x := by
      by_contra hgt
      have hy : (σ.pool cur).key[lowerBound (σ.pool cur).key x]? =
          some (σ.pool cur).key[lowerBound (σ.pool cur).key x] := by simp
      have hyk := lt_of_lt_lowerBound (Nat.lt_of_not_le hgt) hy
      exact absurd (le_of_getElem?_lowerBound hy) (not_le.mpr (hyk.trans hxk))
    simp only [lowerBound_insertIdx_of_lt hxk, List.getElem?_insertIdx] at hc
    rw [if_neg (by omega), if_neg (by omega)] at hc
    exact hc

theorem Contents.insertIntoLeaf_preserves (contents : Contents σ b history)
    (ordered : Ordered M σ b) (shape : Shape σ dist) {k : κ} (v : V) (hlt : cur < σ.nbNode)
    (hleaf : (σ.pool cur).isLeaf = true) (holds : b.Holds cur k) :
    Contents (insertIntoLeaf variant σ cur k v) b
      ((k, variant.storeVal v default) :: history) := by
  have hpos : lowerBound (σ.pool cur).key k ≤ (σ.pool cur).key.length :=
    lowerBound_le_length _ _
  have hgrown : ((insertIntoLeaf variant σ cur k v).pool cur).key =
      (σ.pool cur).key.insertIdx (lowerBound (σ.pool cur).key k) k := by
    rw [insertIntoLeaf_pool_cur variant k v hlt]
  have hother : ∀ n, ((insertIntoLeaf variant σ cur k v).pool n).isLeaf = true → n ≠ cur →
      (insertIntoLeaf variant σ cur k v).pool n = σ.pool n ∧ (σ.pool n).isLeaf = true := by
    intro n hn hcur
    rw [insertIntoLeaf_isLeaf] at hn
    split_ifs at hn with hnew
    exact ⟨insertIntoLeaf_pool_other variant k v hnew hcur, hn⟩
  constructor
  case recorded =>
    intro n x hn hx
    by_cases hcur : n = cur
    · subst hcur
      rw [hgrown, List.mem_insertIdx hpos] at hx
      rcases hx with rfl | hx
      · simp [keysOf]
      · exact List.mem_cons_of_mem _ (contents.recorded n x hleaf hx)
    · obtain ⟨hsame, hn'⟩ := hother n hn hcur
      rw [hsame] at hx
      exact List.mem_cons_of_mem _ (contents.recorded n x hn' hx)
  case present =>
    intro n x hn hnleaf hholds hx
    rw [insertIntoLeaf_nbNode] at hn
    by_cases hcur : n = cur
    · subst hcur
      rw [hgrown, List.mem_insertIdx hpos]
      rcases List.mem_cons.mp hx with rfl | hx
      · exact Or.inl rfl
      · exact Or.inr (contents.present n x hlt hleaf hholds hx)
    · have hnew : n ≠ σ.nbNode := by
        rintro rfl
        rw [insertIntoLeaf_isLeaf, if_pos rfl] at hnleaf
        cases hnleaf
      obtain ⟨hsame, hn'⟩ := hother n hnleaf hcur
      rw [hsame]
      rcases List.mem_cons.mp hx with rfl | hx
      · exact absurd (ordered.leaf_unique shape (by omega) hlt hn' hleaf hholds holds) hcur
      · exact contents.present n x (by omega) hn' hholds hx
  case newest =>
    intro n x c hn hlo hx hc
    by_cases hcur : n = cur
    · subst hcur
      rw [hgrown, List.mem_insertIdx hpos] at hx
      rcases shape.childFor_insertIntoLeaf variant ordered v hlt hleaf hx.symm hc with
        ⟨rfl, rfl⟩ | ⟨hne, hold⟩
      · rw [insertIntoLeaf_pool, if_pos rfl, List.lookup_cons_self,
          shape.fresh _ (Nat.le_refl _)]
        rfl
      · have hc' := shape.child_lt n c (mem_child_of_childFor hold)
        rw [insertIntoLeaf_val variant v (by omega), List.lookup_cons, beq_false_of_ne hne]
        exact contents.newest n x c hleaf hlo (hx.resolve_left hne) hold
    · obtain ⟨hsame, hn'⟩ := hother n hn hcur
      rw [hsame] at hx hc
      have hmem := mem_child_of_childFor hc
      have hc' := shape.child_lt n c hmem
      -- the inserted key belongs to `cur` and to no other leaf
      have hne : x ≠ k := by
        intro heq
        have hholds : b.Holds n x := ⟨hlo, ordered.le_hi n x hx⟩
        exact hcur (ordered.leaf_unique shape (shape.lt_of_mem_child hmem) hlt hn' hleaf
          hholds (heq ▸ holds))
      rw [insertIntoLeaf_val variant v (by omega), List.lookup_cons, beq_false_of_ne hne]
      exact contents.newest n x c hn' hlo hx hc

/-! ## Copy-on-split -/

omit [LinearOrder κ] in
theorem Shape.copyDown_val (shape : Shape σ dist) (hlt : cur < σ.nbNode)
    (hval : (σ.pool cur).isValue = false) {n : Nat} (hn : (σ.pool n).isValue = true) :
    ((copyDown variant σ cur).pool n).val = (σ.pool n).val := by
  have hcur : n ≠ cur := by
    rintro rfl
    simp [hval] at hn
  have hnew : n ≠ σ.nbNode := by
    rintro rfl
    simp [shape.fresh _ (Nat.le_refl _)] at hn
  obtain ⟨up, hup⟩ := shape.copyDown_pool_other variant hlt hcur hnew
  rw [hup]

theorem Shape.childFor_copyDown (shape : Shape σ dist) (hlt : cur < σ.nbNode) {n : Nat}
    (hne : n ≠ cur) (x : κ) :
    childFor ((copyDown variant σ cur).pool n) x = childFor (σ.pool (origin σ cur n)) x := by
  rw [childFor, childFor, shape.key_copyDown variant hlt hne, shape.child_copyDown variant hlt hne]

theorem Contents.copyDown_preserves (contents : Contents σ b history) (shape : Shape σ dist)
    (hlt : cur < σ.nbNode) (hval : (σ.pool cur).isValue = false) :
    Contents (copyDown variant σ cur) (b.copy σ.nbNode cur) history := by
  constructor
  case recorded =>
    intro n x hn hx
    have hne := shape.ne_of_isLeaf_copyDown variant hlt hn
    rw [shape.isLeaf_copyDown variant hlt hne] at hn
    rw [shape.key_copyDown variant hlt hne] at hx
    exact contents.recorded _ x hn hx
  case present =>
    intro n x hn hnleaf hholds hx
    have hne := shape.ne_of_isLeaf_copyDown variant hlt hnleaf
    rw [shape.isLeaf_copyDown variant hlt hne] at hnleaf
    rw [Bounds.Holds, Bounds.copy_lo_origin, Bounds.copy_hi_origin] at hholds
    rw [shape.key_copyDown variant hlt hne]
    exact contents.present _ x (origin_lt hlt hn) hnleaf hholds hx
  case newest =>
    intro n x c hn hlo hx hc
    have hne := shape.ne_of_isLeaf_copyDown variant hlt hn
    rw [shape.isLeaf_copyDown variant hlt hne] at hn
    rw [Bounds.copy_lo_origin] at hlo
    rw [shape.key_copyDown variant hlt hne] at hx
    rw [shape.childFor_copyDown variant hlt hne] at hc
    have hvalue := shape.leaf_child _ c hn (mem_child_of_childFor hc)
    rw [shape.copyDown_val variant hlt hval hvalue]
    exact contents.newest _ x c hn hlo hx hc

/-! ## Splitting a node -/

section AfterSplit

variable [NodeOrder M] {parent j : Nat} {probe separator k : κ}

omit [NodeOrder M] in
theorem SplitSite.val_afterSplit (site : SplitSite M σ b cur parent j probe separator k)
    (shape : Shape σ dist) {n : Nat} (hn : (σ.pool n).isValue = true) :
    ((afterSplit M σ cur parent probe separator).pool n).val = (σ.pool n).val := by
  have hp : n ≠ parent := by
    rintro rfl
    simp [site.node.parent_inner.2] at hn
  have hnew : n ≠ σ.nbNode := by
    rintro rfl
    simp [shape.fresh _ (Nat.le_refl _)] at hn
  have hcur : n ≠ cur := by
    rintro rfl
    simp [site.node.isValue] at hn
  obtain ⟨up, hup⟩ := shape.afterSplit_pool_other probe separator site.node hp hnew hcur
  rw [hup]

omit [NodeOrder M] in
/-- The new leaf records the keys above the separator. -/
theorem SplitSite.mem_right_iff (site : SplitSite M σ b cur parent j probe separator k)
    (ordered : Ordered M σ b) {x : κ} (hlt : separator < x) :
    x ∈ (rightHalf M (σ.pool cur)).key ↔ x ∈ (σ.pool cur).key := by
  refine ⟨List.mem_of_mem_drop, fun hx => ?_⟩
  rw [← List.take_append_drop (cutAt M (σ.pool cur)) (σ.pool cur).key] at hx
  refine (List.mem_append.mp hx).resolve_left fun hleft => ?_
  obtain ⟨i, hi⟩ := List.mem_iff_getElem?.mp hleft
  have hi' := (List.getElem?_eq_some_iff.mp hi).1
  rw [List.length_take] at hi'
  rw [List.getElem?_take, if_pos (by omega)] at hi
  have hle := (ordered.sorted cur).le (by omega) hi site.separator_eq
  exact absurd hlt (not_lt.mpr hle)

/-- The old leaf records the keys up to the separator. -/
theorem SplitSite.mem_left_iff (site : SplitSite M σ b cur parent j probe separator k)
    (ordered : Ordered M σ b) (hleaf : (σ.pool cur).isLeaf = true) {x : κ}
    (hle : x ≤ separator) :
    x ∈ (leftHalf M (σ.pool cur)).key ↔ x ∈ (σ.pool cur).key := by
  have hM := NodeOrder.four_le (M := M)
  have hcut : cutAt M (σ.pool cur) = M / 2 := by simp [cutAt, hleaf]
  have hsep := site.separator_eq
  rw [hcut] at hsep
  refine ⟨List.mem_of_mem_take, fun hx => ?_⟩
  rw [← List.take_append_drop (M / 2) (σ.pool cur).key] at hx
  rcases List.mem_append.mp hx with hleft | hright
  · exact hleft
  · -- a key that moved and is not above the separator repeats it
    have hge : separator ≤ x := by
      apply site.le_right ordered
      rw [rightHalf, hcut]
      exact hright
    rw [le_antisymm hle hge]
    apply List.mem_iff_getElem?.mpr
    refine ⟨M / 2 - 1, ?_⟩
    rw [leftHalf, List.getElem?_take, if_pos (by omega), hsep]

/-- The search in the new leaf finds the child the search in `cur` found. -/
theorem SplitSite.childFor_right (site : SplitSite M σ b cur parent j probe separator k)
    (ordered : Ordered M σ b) (hleaf : (σ.pool cur).isLeaf = true) {x : κ}
    (hlt : separator < x) :
    childFor (rightHalf M (σ.pool cur)) x = childFor (σ.pool cur) x := by
  have hfull := site.node.full
  have hcut : cutAt M (σ.pool cur) = M / 2 := by simp [cutAt, hleaf]
  have hbelow : ∀ y ∈ (σ.pool cur).key.take (M / 2), y < x :=
    fun y hy => lt_of_le_of_lt (site.left_le ordered hy) hlt
  rw [childFor, childFor, lowerBound_drop (by omega) hbelow, rightHalf, hcut,
    List.getElem?_drop]

omit [Inhabited V] [NodeOrder M] in
theorem childFor_leftHalf (hleaf : (σ.pool cur).isLeaf = true) {x : κ}
    (hx : x ∈ (leftHalf M (σ.pool cur)).key) :
    childFor (leftHalf M (σ.pool cur)) x = childFor (σ.pool cur) x := by
  have hcut : cutAt M (σ.pool cur) = M / 2 := by simp [cutAt, hleaf]
  have hsame : lowerBound ((σ.pool cur).key.take (M / 2)) x = lowerBound (σ.pool cur).key x :=
    lowerBound_take ⟨x, hx, le_refl x⟩
  have hlt : lowerBound ((σ.pool cur).key.take (M / 2)) x <
      ((σ.pool cur).key.take (M / 2)).length :=
    lowerBound_lt_length_iff.mpr ⟨x, hx, le_refl x⟩
  rw [hsame, List.length_take] at hlt
  rw [childFor, childFor, leftHalf, hsame, hcut, List.getElem?_take, if_pos (by omega)]

omit [NodeOrder M] in
/-- The three kinds of leaves after the split. -/
theorem SplitSite.leaf_cases (site : SplitSite M σ b cur parent j probe separator k)
    (ordered : Ordered M σ b) (shape : Shape σ dist) {n : Nat}
    (hn : ((afterSplit M σ cur parent probe separator).pool n).isLeaf = true) :
    (n = σ.nbNode ∧ (σ.pool cur).isLeaf = true ∧
        (afterSplit M σ cur parent probe separator).pool n = rightHalf M (σ.pool cur) ∧
        (b.split cur σ.nbNode separator).lo n = separator ∧
        (b.split cur σ.nbNode separator).hi n = b.hi cur) ∨
      (n = cur ∧ (σ.pool n).isLeaf = true ∧
        (afterSplit M σ cur parent probe separator).pool n = leftHalf M (σ.pool n) ∧
        (b.split cur σ.nbNode separator).lo n = b.lo n ∧
        (b.split cur σ.nbNode separator).hi n = separator) ∨
      (n ≠ σ.nbNode ∧ (σ.pool n).isLeaf = true ∧
        (∃ up, (afterSplit M σ cur parent probe separator).pool n =
          { σ.pool n with parent := up }) ∧
        (b.split cur σ.nbNode separator).lo n = b.lo n ∧
        (b.split cur σ.nbNode separator).hi n = b.hi n) := by
  rcases site.node_cases ordered shape n with ⟨rfl, -, -, -⟩ | ⟨hnew, hnode, hends⟩ |
    ⟨hcur, hnode, hends⟩ | ⟨-, hne, ⟨up, hnode⟩, hends⟩
  · rw [shape.afterSplit_pool_parent probe separator site.node] at hn
    exact absurd (site.node.parent_inner.1.symm.trans hn) (by decide)
  · rw [hnode] at hn
    exact Or.inl ⟨hnew, hn, hnode, hends⟩
  · rw [hnode] at hn
    exact Or.inr (Or.inl ⟨hcur, hn, hnode, hends⟩)
  · rw [hnode] at hn
    exact Or.inr (Or.inr ⟨hne, hn, ⟨up, hnode⟩, hends⟩)

theorem Contents.afterSplit_preserves (contents : Contents σ b history)
    (ordered : Ordered M σ b) (shape : Shape σ dist)
    (site : SplitSite M σ b cur parent j probe separator k) :
    Contents (afterSplit M σ cur parent probe separator) (b.split cur σ.nbNode separator)
      history := by
  have hcn := shape.child_lt _ _ site.node.mem
  constructor
  case recorded =>
    intro n x hn hx
    rcases site.leaf_cases ordered shape hn with ⟨-, hleaf, hnode, -⟩ | ⟨-, hleaf, hnode, -⟩ |
      ⟨-, hleaf, ⟨up, hnode⟩, -⟩
    · rw [hnode] at hx
      exact contents.recorded cur x hleaf (List.mem_of_mem_drop hx)
    · rw [hnode] at hx
      exact contents.recorded n x hleaf (List.mem_of_mem_take hx)
    · rw [hnode] at hx
      exact contents.recorded n x hleaf hx
  case present =>
    intro n x hn hnleaf hholds hx
    rw [afterSplit_nbNode] at hn
    obtain ⟨hlo, hhi⟩ := hholds
    rcases site.leaf_cases ordered shape hnleaf with ⟨-, hleaf, hnode, hstart, hend⟩ |
      ⟨rfl, hleaf, hnode, hstart, hend⟩ | ⟨hne, hleaf, ⟨up, hnode⟩, hstart, hend⟩
    · rw [hstart] at hlo
      rw [hend] at hhi
      rw [hnode, site.mem_right_iff ordered (WithBot.coe_lt_coe.mp hlo)]
      exact contents.present cur x hcn hleaf
        ⟨(site.lo_le_separator ordered).trans_lt hlo, hhi⟩ hx
    · rw [hstart] at hlo
      rw [hend] at hhi
      rw [hnode, site.mem_left_iff ordered hleaf (WithTop.coe_le_coe.mp hhi)]
      exact contents.present n x hcn hleaf
        ⟨hlo, hhi.trans (site.separator_le_hi ordered)⟩ hx
    · rw [hstart] at hlo
      rw [hend] at hhi
      rw [hnode]
      exact contents.present n x (by omega) hleaf ⟨hlo, hhi⟩ hx
  case newest =>
    intro n x c hn hlo hx hc
    -- the value node below the leaf is away from the split
    have hval : ∀ {m}, (σ.pool m).isLeaf = true → childFor (σ.pool m) x = some c →
        ((afterSplit M σ cur parent probe separator).pool c).val = (σ.pool c).val :=
      fun hm hfound =>
        site.val_afterSplit shape (shape.leaf_child _ c hm (mem_child_of_childFor hfound))
    rcases site.leaf_cases ordered shape hn with ⟨-, hleaf, hnode, hstart, -⟩ |
      ⟨rfl, hleaf, hnode, hstart, -⟩ | ⟨-, hleaf, ⟨up, hnode⟩, hstart, -⟩
    · rw [hstart] at hlo
      have hlt : separator < x := WithBot.coe_lt_coe.mp hlo
      rw [hnode, site.mem_right_iff ordered hlt] at hx
      rw [hnode, site.childFor_right ordered hleaf hlt] at hc
      rw [hval hleaf hc]
      exact contents.newest cur x c hleaf ((site.lo_le_separator ordered).trans_lt hlo) hx hc
    · rw [hstart] at hlo
      rw [hnode] at hx hc
      rw [childFor_leftHalf hleaf hx] at hc
      rw [hval hleaf hc]
      exact contents.newest n x c hleaf hlo (List.mem_of_mem_take hx) hc
    · rw [hstart] at hlo
      rw [hnode] at hx hc
      rw [hval hleaf hc]
      exact contents.newest n x c hleaf hlo hx hc

end AfterSplit

end Steps

end FatBTree.Tree
