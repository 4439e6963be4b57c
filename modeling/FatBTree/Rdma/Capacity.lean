import FatBTree.Tree.Frame

/-!
# Capacity of the fixed-size arrays

The RDMA nodes keep keys and children in arrays of `M = 16` slots.  The sizes
after each `insert` and `push_back` are collected next to the run of the tree.
A full inner node has one child more than it has keys, which is one more than
there are slots.
-/

namespace FatBTree.Rdma

open FatBTree.Order FatBTree.Tree

variable {κ V : Type} [LinearOrder κ] [Inhabited V]

/-- The RDMA copy of the tree assigns value lists as a whole, copies them in
copy-on-split and clears the one that stays. -/
def rdma : Variant V where
  storeVal := fun inVal _ => inVal
  copyVal := fun val _ => val
  clearVal := fun _ => default

/-- The sizes after the range insertions into the keys and children of
`new_node`, and after the insertions into those of the parent. -/
def splitSizes (M : Nat) (σ : State κ V) (cur parent : Nat) : List Nat :=
  let node := σ.pool cur
  let newNode := σ.pool σ.nbNode
  let moved := if node.isLeaf then M / 2 else M / 2 + 1
  [newNode.key.length + (node.key.length - moved),
    newNode.child.length + (node.child.length - moved),
    (σ.pool parent).key.length + 1, (σ.pool parent).child.length + 1]

/-- The sizes after the array writes of `overflow`, in order; copy-on-split
pushes the copy onto an empty child array. -/
def overflowSizes (M : Nat) : Nat → State κ V → Nat → List Nat
  | 0, _, _ => []
  | fuel + 1, σ, cur =>
      if M ≤ (σ.pool cur).key.length then
        let pinned := cur = root ∨ (σ.pool cur).isLoaded2Switch = true
        let σ' := if pinned then copyDown rdma σ cur else σ
        let cur' := if pinned then σ.nbNode else cur
        let pushed := if pinned then [1] else []
        match (σ'.pool cur').parent with
        | none => pushed
        | some parent =>
            match splitNode M σ' cur' parent with
            | none => pushed
            | some next =>
                pushed ++ splitSizes M σ' cur' parent ++ overflowSizes M fuel next parent
      else []

/-- The sizes after the array writes of `insert`. -/
def insertSizes (M : Nat) (σ : State κ V) (inKey : κ) (inVal : V) : List Nat :=
  match descendToLeaf σ inKey σ.nbNode root with
  | none => []
  | some cur =>
      [(σ.pool cur).key.length + 1, (σ.pool cur).child.length + 1] ++
        overflowSizes M (σ.nbNode + 1) (insertIntoLeaf rdma σ cur inKey inVal) cur

/-- The sizes after the array writes of a sequence of insertions. -/
def writeSizes (M : Nat) : List (κ × V) → State κ V → List Nat
  | [], _ => []
  | (inKey, inVal) :: inserts, σ =>
      insertSizes M σ inKey inVal ++
        match insert M rdma σ inKey inVal with
        | none => []
        | some σ' => writeSizes M inserts σ'

/-- The insertion of `k` arrives at a leaf with one free slot below a parent
with one free slot. -/
def Tight (M : Nat) (σ : State κ V) (k : κ) : Prop :=
  ∃ leaf parent, descendToLeaf σ k σ.nbNode root = some leaf ∧ leaf ≠ root ∧
    (σ.pool leaf).key.length + 1 = M ∧ (σ.pool leaf).parent = some parent ∧
    (σ.pool parent).key.length + 1 = M

/-- Some insertion of the sequence finds the tree tight. -/
def MeetsTight (M : Nat) : List (κ × V) → State κ V → Prop
  | [], _ => False
  | (inKey, inVal) :: inserts, σ =>
      Tight M σ inKey ∨ ∃ σ', insert M rdma σ inKey inVal = some σ' ∧ MeetsTight M inserts σ'

/-! ## Trees without marks -/

/-- No node is marked as loaded. -/
def Unmarked (w : World κ V) : Prop :=
  MarkedWithin (fun _ => False) w

section Unmarked

variable {M : Nat} [NodeOrder M] {w : World κ V} {history : List (κ × V)} {k : κ}

omit [LinearOrder κ] [Inhabited V] in
theorem Unmarked.pinned_iff (unmarked : Unmarked w) {n : Nat} :
    Pinned w.state n ↔ n = root :=
  or_iff_left (unmarked n)

theorem insert_unmarked (settled : Settled M w history) (unmarked : Unmarked w)
    (k : κ) (v : V) :
    ∃ w', insert M rdma w.state k v = some w'.state ∧
      Settled M w' ((k, v) :: history) ∧ Unmarked w' :=
  settled.insert_rec rdma k v (stepClosed_markedWithin rdma _)
    (fun cur _ _ _ => MarkedWithin.grown rdma unmarked cur k v)

end Unmarked

/-! ## The writes of one insertion -/

section Writes

variable {M : Nat} [NodeOrder M] {w : World κ V} {history : List (κ × V)} {k : κ}
  {cur parent : Nat}

section

omit [NodeOrder M]

theorem overflowSizes_small {fuel : Nat} {σ : State κ V}
    (hsmall : (σ.pool cur).key.length < M) : overflowSizes M fuel σ cur = [] := by
  cases fuel with
  | zero => rfl
  | succ fuel => rw [overflowSizes, if_neg (Nat.not_le_of_lt hsmall)]

theorem overflowSizes_free {fuel : Nat} {σ next : State κ V}
    (hfull : M ≤ (σ.pool cur).key.length) (hfree : ¬ Pinned σ cur)
    (hparent : (σ.pool cur).parent = some parent)
    (hsplit : splitNode M σ cur parent = some next) :
    overflowSizes M (fuel + 1) σ cur =
      splitSizes M σ cur parent ++ overflowSizes M fuel next parent := by
  rw [Pinned] at hfree
  rw [overflowSizes, if_pos hfull]
  simp only [if_neg hfree, hparent, hsplit, List.nil_append]

theorem overflowSizes_pinned {fuel : Nat} {σ next : State κ V}
    (hfull : M ≤ (σ.pool cur).key.length) (hpinned : Pinned σ cur)
    (hparent : ((copyDown rdma σ cur).pool σ.nbNode).parent = some parent)
    (hsplit : splitNode M (copyDown rdma σ cur) σ.nbNode parent = some next) :
    overflowSizes M (fuel + 1) σ cur =
      [1] ++ splitSizes M (copyDown rdma σ cur) σ.nbNode parent ++
        overflowSizes M fuel next parent := by
  rw [Pinned] at hpinned
  rw [overflowSizes, if_pos hfull]
  simp only [if_pos hpinned, hparent, hsplit]

end

omit [LinearOrder κ] [NodeOrder M] in
/-- A leaf split writes half a leaf to the sibling and one slot of the parent. -/
theorem splitSizes_leaf (shape : Shape w.state w.dist)
    (hfull : (w.state.pool cur).key.length = M) (hleaf : (w.state.pool cur).isLeaf = true)
    (hinner : (w.state.pool parent).IsInner) :
    splitSizes M w.state cur parent =
      [M - M / 2, M - M / 2, (w.state.pool parent).key.length + 1,
        (w.state.pool parent).key.length + 2] := by
  have hfresh : w.state.pool w.state.nbNode = Node.fresh := shape.fresh _ (Nat.le_refl _)
  simp [splitSizes, hleaf, hfresh, shape.leaf_arity cur hleaf, hfull,
    shape.inner_arity parent hinner]

section Arrived

variable {leaf : Nat} (v : V)

omit [Inhabited V] [NodeOrder M] in
theorem tight_iff {σ : State κ V} (hdescend : descendToLeaf σ k σ.nbNode root = some leaf) :
    Tight M σ k ↔ leaf ≠ root ∧ (σ.pool leaf).key.length + 1 = M ∧
      ∃ parent, (σ.pool leaf).parent = some parent ∧ (σ.pool parent).key.length + 1 = M := by
  constructor
  · rintro ⟨leaf', parent, hdescend', hne, hfull, hparent, htight⟩
    rw [hdescend] at hdescend'
    cases hdescend'
    exact ⟨hne, hfull, parent, hparent, htight⟩
  · rintro ⟨hne, hfull, parent, hparent, htight⟩
    exact ⟨leaf, parent, hdescend, hne, hfull, hparent, htight⟩

theorem length_grown {σ : State κ V} (hlt : leaf < σ.nbNode) :
    ((insertIntoLeaf rdma σ leaf k v).pool leaf).key.length = (σ.pool leaf).key.length + 1 := by
  rw [insertIntoLeaf_pool_cur rdma k v hlt, List.length_insertIdx,
    if_pos (lowerBound_le_length _ _)]

omit [NodeOrder M] in
/-- A leaf with a free slot takes the key, and nothing is split. -/
theorem insertSizes_room {σ : State κ V}
    (hdescend : descendToLeaf σ k σ.nbNode root = some leaf) (hlt : leaf < σ.nbNode)
    (hroom : (σ.pool leaf).key.length + 1 < M) :
    insertSizes M σ k v = [(σ.pool leaf).key.length + 1, (σ.pool leaf).child.length + 1] := by
  have hsmall : ((insertIntoLeaf rdma σ leaf k v).pool leaf).key.length < M := by
    rw [length_grown v hlt]
    exact hroom
  rw [insertSizes, hdescend]
  simp only [overflowSizes_small hsmall, List.append_nil]

/-- A full root leaf moves down first, so its parent is an emptied root. -/
theorem insertSizes_root (settled : Settled M w history)
    (hdescend : descendToLeaf w.state k w.state.nbNode root = some root)
    (hleaf : (w.state.pool root).isLeaf = true) (hfull : (w.state.pool root).key.length + 1 = M) :
    insertSizes M w.state k v =
      [(w.state.pool root).key.length + 1, (w.state.pool root).child.length + 1,
        1, M - M / 2, M - M / 2, 1, 2] := by
  have hlt := settled.shape.root_lt
  have hrepair := settled.repairing_grown rdma v hlt hleaf (settled.ordered.holds_root k)
  have hgrown : ((w.grown rdma root k v).state.pool root).key.length = M :=
    (length_grown v hlt).trans hfull
  have hgrownLeaf : ((w.grown rdma root k v).state.pool root).isLeaf = true := by
    rw [insertIntoLeaf_pool_cur rdma k v hlt]
    exact hleaf
  obtain ⟨probe, separator, site, -, -, -, hsmall⟩ :=
    hrepair.step_pinned rdma w.state.nbNode hgrown (Or.inl rfl)
  have hsound := hrepair.toSound.copied rdma hrepair.lt hrepair.isValue
  have hcopy := hrepair.shape.copyDown_pool_new rdma hrepair.lt
  have hcur := hrepair.shape.copyDown_pool_cur rdma hrepair.lt
  have hsplit : splitNode M (copyDown rdma (w.grown rdma root k v).state root)
      (w.grown rdma root k v).state.nbNode root = some _ :=
    hsound.shape.splitNode_eq probe separator site.node.two_le site.probe_eq
      site.separator_eq
  rw [insertSizes, hdescend]
  simp only
  rw [overflowSizes_pinned (Nat.le_of_eq hgrown.symm) (Or.inl rfl) (by rw [hcopy]) hsplit,
    overflowSizes_small hsmall, splitSizes_leaf hsound.shape site.node.full
      (by rw [hcopy]; exact hgrownLeaf) site.node.parent_inner, hcur]
  rfl

/-- A full leaf below a parent is split; with room in the parent the repair ends there. -/
theorem insertSizes_below (settled : Settled M w history) (unmarked : Unmarked w)
    (hdescend : descendToLeaf w.state k w.state.nbNode root = some leaf)
    (hlt : leaf < w.state.nbNode) (hleaf : (w.state.pool leaf).isLeaf = true)
    (holds : w.bounds.Holds leaf k) (hfull : (w.state.pool leaf).key.length + 1 = M)
    (hne : leaf ≠ root) :
    ∃ parent rest, (w.state.pool leaf).parent = some parent ∧
      insertSizes M w.state k v =
        [(w.state.pool leaf).key.length + 1, (w.state.pool leaf).child.length + 1,
          M - M / 2, M - M / 2, (w.state.pool parent).key.length + 1,
          (w.state.pool parent).key.length + 2] ++ rest ∧
      ((w.state.pool parent).key.length + 1 < M → rest = []) := by
  have hrepair := settled.repairing_grown rdma v hlt hleaf holds
  have hpool := insertIntoLeaf_pool_cur rdma k v hlt
  have hgrown : ((w.grown rdma leaf k v).state.pool leaf).key.length = M :=
    (length_grown v hlt).trans hfull
  have hgrownLeaf : ((w.grown rdma leaf k v).state.pool leaf).isLeaf = true := by
    rw [hpool]
    exact hleaf
  have hfree : ¬ Pinned (w.grown rdma leaf k v).state leaf := by
    rw [Unmarked.pinned_iff (MarkedWithin.grown rdma unmarked leaf k v)]
    exact hne
  obtain ⟨parent, j, probe, separator, site, hparent, -, -⟩ :=
    hrepair.step_free rdma w.state.nbNode hgrown hfree
  have hsplit : splitNode M (w.grown rdma leaf k v).state leaf parent = some _ :=
    hrepair.shape.splitNode_eq probe separator site.node.two_le site.probe_eq
      site.separator_eq
  obtain ⟨-, -, hnode⟩ := inner_insertIntoLeaf rdma v hlt hleaf site.node.parent_inner
  have hsizes : overflowSizes M (w.state.nbNode + 1) (w.grown rdma leaf k v).state leaf =
      splitSizes M (w.grown rdma leaf k v).state leaf parent ++ overflowSizes M w.state.nbNode
        (afterSplit M (w.grown rdma leaf k v).state leaf parent probe separator) parent :=
    overflowSizes_free (Nat.le_of_eq hgrown.symm) hfree hparent hsplit
  rw [splitSizes_leaf hrepair.shape hgrown hgrownLeaf site.node.parent_inner, hnode] at hsizes
  rw [hpool] at hparent
  refine ⟨parent, overflowSizes M w.state.nbNode
    (afterSplit M (w.grown rdma leaf k v).state leaf parent probe separator) parent,
    hparent, ?_, fun hroom => ?_⟩
  · rw [insertSizes, hdescend]
    exact congrArg ([(w.state.pool leaf).key.length + 1,
      (w.state.pool leaf).child.length + 1] ++ ·) hsizes
  · apply overflowSizes_small
    rw [site.key_parent hrepair.ordered hrepair.shape, List.length_insertIdx,
      if_pos (site.slot_le hrepair.shape), hnode]
    exact hroom

end Arrived

/-- An insertion stays within the capacity unless it finds the tree tight. -/
theorem insertSizes_le_iff (settled : Settled M w history) (unmarked : Unmarked w)
    (k : κ) (v : V) :
    (∀ size ∈ insertSizes M w.state k v, size ≤ M) ↔ ¬ Tight M w.state k := by
  have hM := NodeOrder.four_le (M := M)
  obtain ⟨leaf, hdescend, hlt, hleaf, holds⟩ :=
    settled.ordered.descendToLeaf_eq settled.shape w.state.nbNode settled.shape.root_lt
      settled.shape.root_isValue (settled.ordered.holds_root k) (by omega)
  have harity := settled.shape.leaf_arity leaf hleaf
  rw [tight_iff hdescend]
  rcases Nat.lt_or_eq_of_le (show (w.state.pool leaf).key.length + 1 ≤ M from
    settled.small leaf) with hroom | hfull
  · rw [insertSizes_room v hdescend hlt hroom]
    refine iff_of_true (fun size hsize => ?_) (fun tight => ?_)
    · simp only [List.mem_cons, List.not_mem_nil, or_false] at hsize
      omega
    · exact Nat.ne_of_lt hroom tight.2.1
  · rcases eq_or_ne leaf root with rfl | hne
    · rw [insertSizes_root v settled hdescend hleaf hfull]
      refine iff_of_true (fun size hsize => ?_) (fun tight => tight.1 rfl)
      simp only [List.mem_cons, List.not_mem_nil, or_false] at hsize
      omega
    · obtain ⟨parent, rest, hparent, hsizes, hrest⟩ :=
        insertSizes_below v settled unmarked hdescend hlt hleaf holds hfull hne
      have hsmall := settled.small parent
      rw [hsizes]
      constructor
      · rintro hall ⟨-, -, parent', hparent', htight⟩
        rw [hparent] at hparent'
        cases hparent'
        have hover := hall ((w.state.pool parent).key.length + 2) (by simp)
        omega
      · intro hnot size hsize
        have hloose : (w.state.pool parent).key.length + 1 ≠ M :=
          fun htight => hnot ⟨hne, hfull, parent, hparent, htight⟩
        rw [hrest (by omega)] at hsize
        simp only [List.append_nil, List.mem_cons, List.not_mem_nil, or_false] at hsize
        omega

/-- The writes of a sequence stay within the capacity unless some insertion
finds the tree tight. -/
theorem writeSizes_le_iff (settled : Settled M w history) (unmarked : Unmarked w)
    (inserts : List (κ × V)) :
    (∀ size ∈ writeSizes M inserts w.state, size ≤ M) ↔ ¬ MeetsTight M inserts w.state := by
  induction inserts generalizing w history with
  | nil => simp [writeSizes, MeetsTight]
  | cons pair inserts ih =>
      obtain ⟨k, v⟩ := pair
      obtain ⟨next, hinsert, hsettled, hunmarked⟩ := insert_unmarked settled unmarked k v
      have hfirst := insertSizes_le_iff settled unmarked k v
      have hrest := ih hsettled hunmarked
      simp only [writeSizes, hinsert, MeetsTight, List.mem_append, not_or, not_exists, not_and,
        Option.some.injEq]
      constructor
      · intro hall
        refine ⟨hfirst.mp fun size hsize => hall size (Or.inl hsize), ?_⟩
        rintro σ' rfl
        exact hrest.mp fun size hsize => hall size (Or.inr hsize)
      · rintro ⟨hloose, hlater⟩ size (hsize | hsize)
        · exact hfirst.mpr hloose size hsize
        · exact hrest.mpr (hlater next.state rfl) size hsize

end Writes

/-- From the empty tree, every array write stays within the sixteen slots exactly
when no insertion arrives at a full-but-one leaf below a full-but-one parent. -/
theorem array_writes_fit_iff (inserts : List (κ × V)) :
    (∀ size ∈ writeSizes 16 inserts State.empty, size ≤ 16) ↔
      ¬ MeetsTight 16 inserts State.empty :=
  writeSizes_le_iff settled_empty (fun _ hn => Bool.noConfusion hn) inserts

/-- The 136th of a sequence of ascending insertions writes a seventeenth child. -/
theorem array_writes_overflow :
    17 ∈ writeSizes 16 ((List.range 136).map (fun i => (i, ()))) State.empty := by
  decide +kernel

end FatBTree.Rdma
