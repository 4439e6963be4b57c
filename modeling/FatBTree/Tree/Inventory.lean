import FatBTree.Tree.Balance

/-!
# One value node for each insertion

Every insertion allocates one value node, hangs it below its key and never
loses it.  The walk over the leaves passes each of them once.
-/

namespace FatBTree.Tree

open FatBTree.Order

variable {κ V : Type} [LinearOrder κ] [Inhabited V]

/-- The inserted pairs, oldest first, each with the value node it received. -/
abbrev Entries (κ V : Type) := List ((κ × V) × Nat)

/-- The value nodes of the tree are those of the given insertions. -/
structure Records (variant : Variant V) (w : World κ V) (entries : Entries κ V) : Prop where
  hangs : ∀ entry ∈ entries, ValueNodeOf w.state entry.1.1 entry.2
  val : ∀ entry ∈ entries, (w.state.pool entry.2).val = variant.storeVal entry.1.2 default
  distinct : (entries.map Prod.snd).Nodup
  complete : ∀ n, (w.state.pool n).isValue = true → n ∈ entries.map Prod.snd

/-- Only the given nodes hold values. -/
def ValuesWithin (nodes : List Nat) (w : World κ V) : Prop :=
  ∀ n, (w.state.pool n).isValue = true → n ∈ nodes

section Steps

variable (variant : Variant V) {M : Nat} [NodeOrder M] {w : World κ V}
  {history : List (κ × V)} {cur : Nat} {k : κ}

omit [NodeOrder M] in
theorem stepClosed_valuesWithin (nodes : List Nat) :
    StepClosed variant M history k (ValuesWithin nodes) where
  copied w cur sound hlt _ _ _ within := by
    intro n hn
    rw [sound.shape.copyDown_isValue variant hlt] at hn
    exact within n hn
  halved w cur parent j probe separator sound site _ within := by
    intro n hn
    rw [sound.shape.afterSplit_isValue probe separator site.node] at hn
    exact within n hn

theorem Shape.valueNodeOf_grown (shape : Shape w.state w.dist) (hlt : cur < w.state.nbNode)
    (hleaf : (w.state.pool cur).isLeaf = true) (v : V) :
    ValueNodeOf (w.grown variant cur k v).state k w.state.nbNode := by
  have hpos := lowerBound_le_length (w.state.pool cur).key k
  have hgrown := insertIntoLeaf_pool_cur variant k v hlt
  refine ⟨cur, lowerBound (w.state.pool cur).key k, ?_, ?_, ?_⟩
  · simpa only [hgrown] using hleaf
  · rw [hgrown, List.getElem?_insertIdx_self, if_pos hpos]
  · rw [hgrown, List.getElem?_insertIdx_self, shape.leaf_arity cur hleaf, if_pos hpos]

/-- What the repair keeps after `k` and `v` were inserted into a leaf of `w`. -/
def Adding (M : Nat) (variant : Variant V) (w : World κ V) (entries : Entries κ V) (k : κ)
    (v : V) (w' : World κ V) : Prop :=
  Occupied M w' ∧
    ((∃ leaf, Keeps (w.grown variant leaf k v) w') ∧
      ValuesWithin (w.state.nbNode :: entries.map Prod.snd) w') ∧
    ∀ entry : { entry // entry ∈ entries ++ [((k, v), w.state.nbNode)] },
      ValueNodeOf w'.state entry.1.1.1 entry.1.2

theorem repairClosed_adding (w : World κ V) (entries : Entries κ V) (v : V) :
    RepairClosed variant M history k (fun _ _ w' => Adding M variant w entries k v w') := by
  have kept : StepClosed variant M history k
      (fun w' => ∃ leaf, Keeps (w.grown variant leaf k v) w') :=
    StepClosed.some variant fun leaf => stepClosed_keeps variant _
  have hangs : StepClosed variant M history k
      (fun w' => ∀ entry : { entry // entry ∈ entries ++ [((k, v), w.state.nbNode)] },
        ValueNodeOf w'.state entry.1.1.1 entry.1.2) :=
    StepClosed.all variant fun entry => stepClosed_valueNodeOf variant _ _
  have within : StepClosed variant M history k
      (ValuesWithin (w.state.nbNode :: entries.map Prod.snd)) :=
    stepClosed_valuesWithin variant _
  exact (repairClosed_occupied variant).and variant
    (((kept.and variant within).and variant hangs).repairClosed variant)

/-- An insertion adds its own value node to the inventory. -/
theorem Records.insert {entries : Entries κ V} (settled : Settled M w history)
    (occupied : Occupied M w) (records : Records variant w entries) (k : κ) (v : V) :
    ∃ w', insert M variant w.state k v = some w'.state ∧
      Settled M w' ((k, variant.storeVal v default) :: history) ∧ Occupied M w' ∧
      Records variant w' (entries ++ [((k, v), w.state.nbNode)]) := by
  have shape := settled.shape
  have hold : ∀ entry ∈ entries, entry.2 < w.state.nbNode ∧
      (w.state.pool entry.2).isValue = true :=
    fun entry hentry => settled.toSound.lt_of_valueNodeOf (records.hangs entry hentry)
  have hstart : ∀ leaf, descendToLeaf w.state k w.state.nbNode root = some leaf →
      leaf < w.state.nbNode → (w.state.pool leaf).isLeaf = true → w.bounds.Holds leaf k →
      Adding M variant w entries k v (w.grown variant leaf k v) := by
    intro leaf _ hlt hleaf _
    refine ⟨occupied.grown variant hlt hleaf v, ⟨⟨leaf, Keeps.refl _⟩, ?_⟩, ?_⟩
    · intro n hn
      rw [insertIntoLeaf_isValue] at hn
      split_ifs at hn with hnew
      · exact hnew ▸ List.mem_cons_self
      · exact List.mem_cons_of_mem _ (records.complete n hn)
    · rintro ⟨entry, hentry⟩
      rcases List.mem_append.mp hentry with hmem | hmem
      · exact (records.hangs entry hmem).grown variant shape leaf k v
      · obtain rfl := List.mem_singleton.mp hmem
        exact shape.valueNodeOf_grown variant hlt hleaf v
  obtain ⟨w', -, -, hinsert, hsettled, hoccupied, ⟨⟨leaf, keeps⟩, within⟩, hangs⟩ :=
    settled.insert_closed variant k v (repairClosed_adding variant w entries v) hstart
  refine ⟨w', hinsert, hsettled, hoccupied, ?_⟩
  constructor
  case hangs => exact fun entry hentry => hangs ⟨entry, hentry⟩
  case val =>
    intro entry hentry
    rcases List.mem_append.mp hentry with hmem | hmem
    · obtain ⟨hlt, hval⟩ := hold entry hmem
      have hgrown := @keeps_insertIntoLeaf _ _ _ variant w.state leaf w.dist w.bounds k v
      have hkept := (hgrown.trans keeps).val entry.2 hlt hval
      exact hkept.trans (records.val entry hmem)
    · obtain rfl := List.mem_singleton.mp hmem
      have hkept := keeps.val w.state.nbNode (Nat.lt_succ_self _)
        (by rw [insertIntoLeaf_isValue, if_pos rfl])
      rw [hkept, insertIntoLeaf_pool, if_pos rfl, shape.fresh _ (Nat.le_refl _)]
      rfl
  case distinct =>
    rw [List.map_append, List.nodup_append]
    refine ⟨records.distinct, List.nodup_singleton _, ?_⟩
    intro n hn m hm
    obtain ⟨entry, hentry, rfl⟩ := List.mem_map.mp hn
    obtain rfl := List.mem_singleton.mp hm
    exact Nat.ne_of_lt (hold entry hentry).1
  case complete =>
    intro n hn
    rw [List.map_append, List.mem_append]
    rcases List.mem_cons.mp (within n hn) with rfl | hmem
    · exact Or.inr (List.mem_singleton.mpr rfl)
    · exact Or.inl hmem

end Steps

/-! ## Runs of insertions -/

section Run

variable (variant : Variant V) {M : Nat} [NodeOrder M]

omit [LinearOrder κ] [NodeOrder M] in
theorem occupied_empty :
    Occupied M (⟨State.empty, fun _ => 0, ⟨fun _ => ⊥, fun _ => ⊤⟩⟩ : World κ V) where
  unmarked _ hn := by cases hn
  level _ _ _ := rfl
  filled n hn _ hroot _ := absurd (Nat.lt_one_iff.mp hn) hroot
  rootFilled hinner := by cases hinner.1

theorem Records.run {w : World κ V} {history : List (κ × V)} {entries : Entries κ V}
    (settled : Settled M w history) (occupied : Occupied M w)
    (records : Records variant w entries) (inserts : List (κ × V)) :
    ∃ w' history' later,
      Tree.run M variant (inserts.map fun kv => Call.insert kv.1 kv.2) w.state = some w'.state ∧
      Settled M w' history' ∧ Occupied M w' ∧ Records variant w' (entries ++ later) ∧
      later.map Prod.fst = inserts := by
  induction inserts generalizing w history entries with
  | nil => exact ⟨w, history, [], rfl, settled, occupied, by rwa [List.append_nil], rfl⟩
  | cons kv inserts ih =>
      obtain ⟨k, v⟩ := kv
      obtain ⟨next, hinsert, hsettled, hoccupied, hrecords⟩ :=
        Records.insert variant settled occupied records k v
      obtain ⟨last, history', later, hrun, hlast, hlastOccupied, hlastRecords, hlater⟩ :=
        ih hsettled hoccupied hrecords
      refine ⟨last, history', ((k, v), w.state.nbNode) :: later, ?_, hlast, hlastOccupied, ?_, ?_⟩
      · simp only [List.map_cons, Tree.run, Call.apply, hinsert]
        exact hrun
      · rwa [List.append_assoc] at hlastRecords
      · rw [List.map_cons, hlater]

/-- What any sequence of insertions makes of the empty tree. -/
theorem records_of_run (inserts : List (κ × V)) :
    ∃ w history entries,
      Reaches M variant (inserts.map fun kv => Call.insert kv.1 kv.2) w.state ∧
      Settled M w history ∧ Occupied M w ∧ Records variant w entries ∧
      entries.map Prod.fst = inserts := by
  have hempty : Records variant
      (⟨State.empty, fun _ => 0, ⟨fun _ => ⊥, fun _ => ⊤⟩⟩ : World κ V) [] := by
    constructor <;> simp [State.empty]
  exact Records.run variant settled_empty occupied_empty hempty inserts

end Run

/-! ## The walk passes every value node once -/

section Walk

variable {variant : Variant V} {M : Nat} {w : World κ V} {history : List (κ × V)}
  {entries : Entries κ V}

omit [LinearOrder κ] in
theorem Occupied.mem_leavesFrom (occupied : Occupied M w) (shape : Shape w.state w.dist)
    {leaf : Nat} :
    leaf ∈ leavesFrom w.state w.state.depth root ↔
      leaf < w.state.nbNode ∧ (w.state.pool leaf).isLeaf = true := by
  constructor
  · intro hmem
    obtain ⟨hleaf, d, below⟩ := descends_of_mem_leavesFrom hmem
    exact ⟨shape.lt_of_descends shape.root_lt below, hleaf⟩
  · rintro ⟨hlt, hleaf⟩
    have hval := shape.isValue_of_isLeaf hleaf
    have hself : leaf ∈ leavesFrom w.state 1 leaf := by
      rw [leavesFrom_leaf hleaf]
      exact List.mem_singleton_self leaf
    have hroot := shape.mem_leavesFrom_root hlt hval hself
    rwa [Nat.add_comm, occupied.level leaf hlt hleaf] at hroot

omit [LinearOrder κ] in
theorem Occupied.mem_leafPairs (occupied : Occupied M w) (shape : Shape w.state w.dist)
    {k : κ} {c : Nat} : (k, c) ∈ leafPairs w.state ↔ ValueNodeOf w.state k c := by
  constructor
  · intro hmem
    obtain ⟨leaf, hleaf, hpair⟩ := List.mem_flatMap.mp hmem
    obtain ⟨p, hp⟩ := List.mem_iff_getElem?.mp hpair
    obtain ⟨hkey, hchild⟩ := List.getElem?_zip_eq_some.mp hp
    exact ⟨leaf, p, ((occupied.mem_leavesFrom shape).mp hleaf).2, hkey, hchild⟩
  · rintro ⟨leaf, p, hleaf, hkey, hchild⟩
    have hlt := shape.lt_of_mem_child (List.mem_of_getElem? hchild)
    exact List.mem_flatMap.mpr ⟨leaf, (occupied.mem_leavesFrom shape).mpr ⟨hlt, hleaf⟩,
      List.mem_of_getElem? (List.getElem?_zip_eq_some.mpr ⟨hkey, hchild⟩)⟩

omit [LinearOrder κ] in
theorem Shape.nodup_leafPairs (shape : Shape w.state w.dist) : (leafPairs w.state).Nodup := by
  refine List.nodup_flatMap.mpr ⟨fun leaf hleaf => ?_, ?_⟩
  · refine List.Nodup.of_map Prod.snd ?_
    rw [List.map_snd_zip]
    · exact shape.nodup leaf
    · rw [shape.leaf_arity leaf (descends_of_mem_leavesFrom hleaf).1]
  · refine shape.nodup_leavesFrom.imp fun hne => ?_
    rintro ⟨k, c⟩ hfirst hsecond
    exact hne (shape.unique _ _ c (List.of_mem_zip hfirst).2 (List.of_mem_zip hsecond).2)

/-- The walk passes the value node of every insertion, under its key. -/
theorem Records.leafPairs_perm (records : Records variant w entries)
    (sound : Sound M w history) (occupied : Occupied M w) :
    (leafPairs w.state).Perm (entries.map fun entry => (entry.1.1, entry.2)) := by
  have hdistinct : (entries.map fun entry => (entry.1.1, entry.2)).Nodup := by
    refine List.Nodup.of_map Prod.snd ?_
    rw [List.map_map]
    exact records.distinct
  refine (List.perm_ext_iff_of_nodup sound.shape.nodup_leafPairs hdistinct).mpr ?_
  rintro ⟨k, c⟩
  rw [occupied.mem_leafPairs sound.shape, List.mem_map]
  constructor
  · intro hangs
    obtain ⟨entry, hentry, rfl⟩ :=
      List.mem_map.mp (records.complete c (sound.lt_of_valueNodeOf hangs).2)
    rw [sound.shape.key_unique hangs (records.hangs entry hentry)]
    exact ⟨entry, hentry, rfl⟩
  · rintro ⟨entry, hentry, heq⟩
    obtain ⟨rfl, rfl⟩ := Prod.mk.inj heq
    exact records.hangs entry hentry

end Walk

end FatBTree.Tree
