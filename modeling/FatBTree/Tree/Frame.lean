import FatBTree.Tree.Strict

/-!
# What an insertion leaves alone

An insertion marks no node, it changes no leaf but the one that is responsible
for the inserted key, and it keeps every value node below the key it was
inserted under.
-/

namespace FatBTree.Tree

open FatBTree.Order

variable {κ V : Type} [LinearOrder κ] [Inhabited V]

/-- `n` hangs below the key `k` in some leaf. -/
def ValueNodeOf (σ : State κ V) (k : κ) (n : Nat) : Prop :=
  ∃ leaf, ∃ p : Nat, (σ.pool leaf).isLeaf = true ∧ (σ.pool leaf).key[p]? = some k ∧
    (σ.pool leaf).child[p]? = some n

/-- Only the given nodes are marked as loaded. -/
def MarkedWithin (marks : Nat → Prop) (w : World κ V) : Prop :=
  ∀ n, (w.state.pool n).isLoaded2Switch = true → marks n

/-- The leaf `n` has the given content and is not responsible for `k`. -/
structure Untouched (n : Nat) (keys : List κ) (children : List Nat) (k : κ) (w : World κ V) :
    Prop where
  lt : n < w.state.nbNode
  isLeaf : (w.state.pool n).isLeaf = true
  key : (w.state.pool n).key = keys
  child : (w.state.pool n).child = children
  elsewhere : ¬ w.bounds.Holds n k

/-- Two lists that grow at the same position stay aligned. -/
theorem getElem?_insertIdx_aligned {α β : Type*} {xs : List α} {ys : List β} {x : α} {y : β}
    {p : Nat} (hx : xs[p]? = some x) (hy : ys[p]? = some y) (i : Nat) (a : α) (b : β) :
    ∃ q : Nat, (xs.insertIdx i a)[q]? = some x ∧ (ys.insertIdx i b)[q]? = some y := by
  have hxlen := (List.getElem?_eq_some_iff.mp hx).1
  have hylen := (List.getElem?_eq_some_iff.mp hy).1
  rcases Nat.lt_or_ge p i with hbefore | hafter
  · refine ⟨p, ?_, ?_⟩
    · rw [List.getElem?_insertIdx_of_lt hbefore, hx]
    · rw [List.getElem?_insertIdx_of_lt hbefore, hy]
  · refine ⟨p + 1, ?_, ?_⟩
    · rw [List.getElem?_insertIdx_of_gt (by omega), Nat.add_sub_cancel, hx]
    · rw [List.getElem?_insertIdx_of_gt (by omega), Nat.add_sub_cancel, hy]

section Steps

variable (variant : Variant V) {M : Nat} {w : World κ V}
  {history : List (κ × V)} {cur parent j : Nat} {probe separator k : κ}

/-! ## Marks -/

omit [Inhabited V] in
theorem MarkedWithin.grown {marks : Nat → Prop} (within : MarkedWithin marks w) (cur : Nat)
    (k : κ) (v : V) : MarkedWithin marks (w.grown variant cur k v) := by
  intro n hn
  apply within n
  rw [insertIntoLeaf_pool] at hn
  split_ifs at hn <;> exact hn

theorem stepClosed_markedWithin (marks : Nat → Prop) :
    StepClosed variant M history k (MarkedWithin marks) where
  copied w cur sound hlt _ _ _ within := by
    intro n hn
    simp only [sound.shape.copyDown_pool variant hlt] at hn
    split_ifs at hn with hcur hnew hmoved
    · exact hcur ▸ within cur hn
    · exact within n hn
    · exact within n hn
  halved w cur parent j probe separator sound site _ within := by
    intro n hn
    simp only [sound.shape.afterSplit_pool probe separator site.node] at hn
    split_ifs at hn with hparent hnew hcur hmoved
    · exact hparent ▸ within parent hn
    · exact absurd hn (by simp [rightHalf])
    · exact hcur ▸ within cur hn
    · exact within n hn
    · exact within n hn

/-! ## Leaves elsewhere -/

omit [Inhabited V] in
theorem Untouched.grown {n : Nat} {keys : List κ} {children : List Nat}
    (untouched : Untouched n keys children k w) (v : V) (hne : n ≠ cur) :
    Untouched n keys children k (w.grown variant cur k v) := by
  obtain ⟨lt, isLeaf, key, child, elsewhere⟩ := untouched
  have hsame : (insertIntoLeaf variant w.state cur k v).pool n = w.state.pool n :=
    insertIntoLeaf_pool_other variant k v (Nat.ne_of_lt lt) hne
  exact ⟨Nat.lt_succ_of_lt lt, hsame ▸ isLeaf, hsame ▸ key, hsame ▸ child, elsewhere⟩

theorem stepClosed_untouched (n : Nat) (keys : List κ) (children : List Nat) :
    StepClosed variant M history k (Untouched n keys children k) where
  copied w cur sound hlt _ holds _ untouched := by
    obtain ⟨lt, isLeaf, key, child, elsewhere⟩ := untouched
    have hcur : n ≠ cur := by
      rintro rfl
      exact elsewhere holds
    have hnew : n ≠ w.state.nbNode := Nat.ne_of_lt lt
    obtain ⟨up, hup⟩ := sound.shape.copyDown_pool_other variant hlt hcur hnew
    refine ⟨Nat.lt_succ_of_lt lt, hup ▸ isLeaf, hup ▸ key, hup ▸ child, ?_⟩
    rw [Bounds.Holds, Bounds.copy_lo_of_ne hnew, Bounds.copy_hi_of_ne hnew]
    exact elsewhere
  halved w cur parent j probe separator sound site _ untouched := by
    obtain ⟨lt, isLeaf, key, child, elsewhere⟩ := untouched
    have hcur : n ≠ cur := by
      rintro rfl
      exact elsewhere site.holds
    have hparent : n ≠ parent := by
      rintro rfl
      simp [site.node.parent_inner.1] at isLeaf
    have hnew : n ≠ w.state.nbNode := Nat.ne_of_lt lt
    obtain ⟨up, hup⟩ :=
      sound.shape.afterSplit_pool_other probe separator site.node hparent hnew hcur
    refine ⟨Nat.lt_succ_of_lt lt, hup ▸ isLeaf, hup ▸ key, hup ▸ child, ?_⟩
    rw [Bounds.Holds, Bounds.split_lo_of_ne hnew, Bounds.split_hi_of_ne hcur hnew]
    exact elsewhere

/-! ## Value nodes -/

theorem ValueNodeOf.grown {x : κ} {c : Nat} (hangs : ValueNodeOf w.state x c)
    (shape : Shape w.state w.dist) (cur : Nat) (k : κ) (v : V) :
    ValueNodeOf (w.grown variant cur k v).state x c := by
  obtain ⟨leaf, p, hleaf, hkey, hchild⟩ := hangs
  have hnew : leaf ≠ w.state.nbNode := Nat.ne_of_lt
    (shape.lt_of_mem_child (List.mem_of_getElem? hchild))
  by_cases hcur : leaf = cur
  · obtain ⟨q, hq, hq'⟩ := getElem?_insertIdx_aligned hkey hchild
      (lowerBound (w.state.pool leaf).key k) k w.state.nbNode
    refine ⟨leaf, q, ?_, ?_, ?_⟩
    · simpa only [insertIntoLeaf_isLeaf, if_neg hnew] using hleaf
    · simpa only [insertIntoLeaf_pool, if_neg hnew, if_pos hcur] using hq
    · simpa only [insertIntoLeaf_pool, if_neg hnew, if_pos hcur] using hq'
  · have hsame : (insertIntoLeaf variant w.state cur k v).pool leaf = w.state.pool leaf :=
      insertIntoLeaf_pool_other variant k v hnew hcur
    exact ⟨leaf, p, hsame ▸ hleaf, hsame ▸ hkey, hsame ▸ hchild⟩

theorem stepClosed_valueNodeOf (x : κ) (c : Nat) :
    StepClosed variant M history k (fun w => ValueNodeOf w.state x c) where
  copied w cur sound hlt _ _ _ hangs := by
    obtain ⟨leaf, p, hleaf, hkey, hchild⟩ := hangs
    have hnew : leaf ≠ w.state.nbNode := Nat.ne_of_lt
      (sound.shape.lt_of_mem_child (List.mem_of_getElem? hchild))
    by_cases hcur : leaf = cur
    · -- the content moved to the copy
      rw [hcur] at hleaf hkey hchild
      have hcopy := sound.shape.copyDown_pool_new variant hlt
      refine ⟨w.state.nbNode, p, ?_, ?_, ?_⟩
      · simpa only [hcopy] using hleaf
      · simpa only [hcopy] using hkey
      · simpa only [hcopy] using hchild
    · obtain ⟨up, hup⟩ := sound.shape.copyDown_pool_other variant hlt hcur hnew
      exact ⟨leaf, p, hup ▸ hleaf, hup ▸ hkey, hup ▸ hchild⟩
  halved w cur parent j probe separator sound site _ hangs := by
    obtain ⟨leaf, p, hleaf, hkey, hchild⟩ := hangs
    have hnew : leaf ≠ w.state.nbNode := Nat.ne_of_lt
      (sound.shape.lt_of_mem_child (List.mem_of_getElem? hchild))
    have hparent : leaf ≠ parent := by
      rintro rfl
      simp [site.node.parent_inner.1] at hleaf
    by_cases hcur : leaf = cur
    · rw [hcur] at hleaf hkey hchild
      have hcut : cutAt M (w.state.pool cur) = M / 2 := by simp [cutAt, hleaf]
      rcases Nat.lt_or_ge p (M / 2) with hleft | hright
      · have hnode := sound.shape.afterSplit_pool_cur probe separator site.node
        refine ⟨cur, p, ?_, ?_, ?_⟩
        · simpa only [hnode, leftHalf] using hleaf
        · simpa only [hnode, leftHalf, List.getElem?_take, if_pos hleft] using hkey
        · simpa only [hnode, leftHalf, hcut, List.getElem?_take, if_pos hleft] using hchild
      · have hnode := sound.shape.afterSplit_pool_new probe separator site.node
        have hback : M / 2 + (p - M / 2) = p := Nat.add_sub_cancel' hright
        refine ⟨w.state.nbNode, p - M / 2, ?_, ?_, ?_⟩
        · simpa only [hnode, rightHalf] using hleaf
        · simpa only [hnode, rightHalf, hcut, List.getElem?_drop, hback] using hkey
        · simpa only [hnode, rightHalf, hcut, List.getElem?_drop, hback] using hchild
    · obtain ⟨up, hup⟩ :=
        sound.shape.afterSplit_pool_other probe separator site.node hparent hnew hcur
      exact ⟨leaf, p, hup ▸ hleaf, hup ▸ hkey, hup ▸ hchild⟩

end Steps

/-! ## Value nodes and values -/

section ValueNodes

variable {M : Nat} {w : World κ V} {history : List (κ × V)} {k : κ}

omit [LinearOrder κ] in
/-- A value node hangs below one key only. -/
theorem Shape.key_unique {σ : State κ V} {dist : Nat → Nat} (shape : Shape σ dist) {k x : κ}
    {c : Nat} (first : ValueNodeOf σ k c) (second : ValueNodeOf σ x c) : k = x := by
  obtain ⟨leaf, p, -, hkey, hchild⟩ := first
  obtain ⟨leaf', p', -, hkey', hchild'⟩ := second
  obtain rfl := shape.unique leaf leaf' c (List.mem_of_getElem? hchild)
    (List.mem_of_getElem? hchild')
  have hp : p = p' :=
    (List.getElem?_inj (List.getElem?_eq_some_iff.mp hchild).1 (shape.nodup leaf)).mp
      (hchild.trans hchild'.symm)
  rw [hp, hkey'] at hkey
  exact (Option.some.inj hkey).symm

theorem Sound.lt_of_valueNodeOf (sound : Sound M w history) {c : Nat}
    (hangs : ValueNodeOf w.state k c) :
    c < w.state.nbNode ∧ (w.state.pool c).isValue = true := by
  obtain ⟨leaf, p, hleaf, -, hchild⟩ := hangs
  have hmem := List.mem_of_getElem? hchild
  exact ⟨sound.shape.child_lt leaf c hmem, sound.shape.leaf_child leaf c hleaf hmem⟩

/-- In the leaf that is responsible for it, an inserted key leads to its value node. -/
theorem Sound.valueNodeOf_childFor (sound : Sound M w history) {n : Nat}
    (hlt : n < w.state.nbNode) (hleaf : (w.state.pool n).isLeaf = true)
    (holds : w.bounds.Holds n k) (hmem : k ∈ keysOf history) :
    ∃ c, childFor (w.state.pool n) k = some c ∧ ValueNodeOf w.state k c ∧
      history.lookup k = some (w.state.pool c).val := by
  have hkey := sound.contents.present n k hlt hleaf holds hmem
  have hfirst := getElem?_lowerBound (sound.ordered.sorted n) hkey
  have hlen := (List.getElem?_eq_some_iff.mp hfirst).1
  rw [← sound.shape.leaf_arity n hleaf] at hlen
  have hchild : childFor (w.state.pool n) k = some _ := List.getElem?_eq_getElem hlen
  exact ⟨_, hchild, ⟨n, _, hleaf, hfirst, hchild⟩,
    sound.contents.newest n k _ hleaf holds.1 hkey hchild⟩

/-- When no key is inserted twice, the value node of a key holds its value. -/
theorem Strict.lookup_of_valueNodeOf [OrderBot κ] (strict : Strict w)
    (sound : Sound M w history) {c : Nat} (hangs : ValueNodeOf w.state k c) :
    history.lookup k = some (w.state.pool c).val := by
  obtain ⟨leaf, p, hleaf, hkey, hchild⟩ := hangs
  have hmem := List.mem_of_getElem? hkey
  have hfirst : lowerBound (w.state.pool leaf).key k = p := by
    refine lowerBound_eq (Nat.le_of_lt (List.getElem?_eq_some_iff.mp hkey).1)
      (fun i x hi hx => (strict.sorted leaf).lt hi hx hkey) (fun x hx => ?_)
    rw [hkey] at hx
    exact (Option.some.inj hx).le
  refine sound.contents.newest leaf k c hleaf (strict.lo_lt leaf k hmem) hmem ?_
  rw [childFor, hfirst]
  exact hchild

end ValueNodes

omit [LinearOrder κ] [Inhabited V] in
theorem SameTree.valueNodeOf {σ σ' : State κ V} (same : SameTree σ σ') {k : κ} {c : Nat} :
    ValueNodeOf σ' k c ↔ ValueNodeOf σ k c := by
  simp only [ValueNodeOf, same.isLeaf, same.key, same.child]

end FatBTree.Tree
