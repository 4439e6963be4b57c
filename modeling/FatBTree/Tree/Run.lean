import FatBTree.Tree.Lookup

/-!
# Runs

A run is any sequence of insertions, marks and counter updates.  Every run
succeeds, and the tree it reaches records exactly the pairs that were inserted.
-/

namespace FatBTree.Tree

open FatBTree.Order

variable {κ V : Type} [LinearOrder κ] [Inhabited V]

/-- `isLoaded2Switch = true` on a set of nodes. -/
def markLoaded (σ : State κ V) (nodes : List Nat) : State κ V :=
  { σ with
    pool := fun n =>
      if n ∈ nodes then { σ.pool n with isLoaded2Switch := true } else σ.pool n }

/-- What may happen to the tree.  Marks and visits are of existing nodes. -/
inductive Call (κ V : Type) where
  | insert (inKey : κ) (inVal : V)
  | markLoaded (nodes : List Nat)
  | visit (n : Nat)
  deriving DecidableEq

def Call.apply (M : Nat) (variant : Variant V) (σ : State κ V) :
    Call κ V → Option (State κ V)
  | .insert inKey inVal => Tree.insert M variant σ inKey inVal
  | .markLoaded nodes => some (Tree.markLoaded σ (nodes.filter (· < σ.nbNode)))
  | .visit n => some (if n < σ.nbNode then touch σ n else σ)

/-- The state after a sequence of calls. -/
def run (M : Nat) (variant : Variant V) : List (Call κ V) → State κ V → Option (State κ V)
  | [], σ => some σ
  | call :: calls, σ =>
      match call.apply M variant σ with
      | none => none
      | some σ' => run M variant calls σ'

/-- The pairs a sequence of calls inserts, oldest first. -/
def insertions : List (Call κ V) → List (κ × V)
  | [] => []
  | .insert inKey inVal :: calls => (inKey, inVal) :: insertions calls
  | .markLoaded _ :: calls => insertions calls
  | .visit _ :: calls => insertions calls

/-- The pairs as the value nodes hold them, newest first. -/
def storedHistory (variant : Variant V) (calls : List (Call κ V)) : List (κ × V) :=
  (insertions calls).reverse.map (fun kv => (kv.1, variant.storeVal kv.2 default))

omit [LinearOrder κ] [Inhabited V] in
theorem insertions_append (calls later : List (Call κ V)) :
    insertions (calls ++ later) = insertions calls ++ insertions later := by
  induction calls with
  | nil => rfl
  | cons call calls ih => cases call <;> simp [insertions, ih]

omit [LinearOrder κ] [Inhabited V] in
theorem sameTree_markLoaded {σ : State κ V} {nodes : List Nat}
    (hnodes : ∀ n ∈ nodes, n < σ.nbNode) : SameTree σ (markLoaded σ nodes) := by
  have hpool : ∀ m, ∃ loaded, (markLoaded σ nodes).pool m =
      { σ.pool m with isLoaded2Switch := loaded } ∧
      ((σ.pool m).isLoaded2Switch = true → loaded = true) := by
    intro m
    by_cases hm : m ∈ nodes
    · exact ⟨true, if_pos hm, fun _ => rfl⟩
    · exact ⟨(σ.pool m).isLoaded2Switch, if_neg hm, id⟩
  constructor
  case nbNode => rfl
  case depth => rfl
  case isLeaf => intro m; obtain ⟨loaded, hm, -⟩ := hpool m; rw [hm]
  case isValue => intro m; obtain ⟨loaded, hm, -⟩ := hpool m; rw [hm]
  case parent => intro m; obtain ⟨loaded, hm, -⟩ := hpool m; rw [hm]
  case key => intro m; obtain ⟨loaded, hm, -⟩ := hpool m; rw [hm]
  case val => intro m; obtain ⟨loaded, hm, -⟩ := hpool m; rw [hm]
  case child => intro m; obtain ⟨loaded, hm, -⟩ := hpool m; rw [hm]
  case loaded =>
    intro m hloaded
    obtain ⟨loaded, hm, hkeep⟩ := hpool m
    rw [hm]
    exact hkeep hloaded
  case fresh =>
    intro m hm
    exact if_neg (fun hmem => absurd (hnodes m hmem) (Nat.not_lt_of_le hm))

section Settled

variable (variant : Variant V) {M : Nat} [NodeOrder M] {w : World κ V}
  {history : List (κ × V)}

theorem settled_empty :
    Settled M (⟨State.empty, fun _ => 0, ⟨fun _ => ⊥, fun _ => ⊤⟩⟩ : World κ V) [] := by
  have hM := NodeOrder.four_le (M := M)
  constructor
  case toSound =>
    exact ⟨shape_empty, ordered_empty M, contents_empty _, by simp [State.empty]⟩
  case small =>
    intro n
    simp only [State.empty, Node.fresh_key, List.length_nil]
    omega

omit [NodeOrder M] in
/-- The new key can only fill the leaf it is inserted into. -/
theorem Settled.repairing_grown (settled : Settled M w history) {cur : Nat} {k : κ} (v : V)
    (hlt : cur < w.state.nbNode) (hleaf : (w.state.pool cur).isLeaf = true)
    (holds : w.bounds.Holds cur k) :
    Repairing M (w.grown variant cur k v) ((k, variant.storeVal v default) :: history) k
      cur := by
  have shape := settled.shape
  have hval := shape.isValue_of_isLeaf hleaf
  have hpos := lowerBound_le_length (w.state.pool cur).key k
  constructor
  case toSound =>
    refine ⟨shape.insertIntoLeaf_preserves variant k v hlt hleaf,
      settled.ordered.insertIntoLeaf_preserves variant v hlt hleaf holds,
      settled.contents.insertIntoLeaf_preserves variant settled.ordered shape v hlt hleaf holds,
      fun n hn hnleaf => ?_⟩
    rw [insertIntoLeaf_isLeaf] at hnleaf
    split_ifs at hnleaf with hnew
    rw [insertIntoLeaf_nbNode] at hn
    simp only [Function.update_of_ne hnew]
    exact settled.depth_le n (by omega) hnleaf
  case lt => exact Nat.lt_succ_of_lt hlt
  case isValue =>
    rw [insertIntoLeaf_isValue, if_neg (Nat.ne_of_lt hlt)]
    exact hval
  case holds => exact holds
  case others_small =>
    intro n hn
    have hkey : ((insertIntoLeaf variant w.state cur k v).pool n).key =
        (w.state.pool n).key := by
      rw [insertIntoLeaf_pool]
      split_ifs <;> rfl
    rw [hkey]
    exact settled.small n
  case at_most =>
    rw [insertIntoLeaf_pool_cur variant k v hlt, List.length_insertIdx, if_pos hpos]
    exact settled.small cur

/-- Every insertion succeeds, records its pair, settles the tree again and ends
with what the iterations of its repair hand on. -/
theorem Settled.insert_closed (settled : Settled M w history) (k : κ) (v : V)
    {holding : Nat → Nat → World κ V → Prop}
    (closed : RepairClosed variant M ((k, variant.storeVal v default) :: history) k holding)
    (hgrown : ∀ leaf, descendToLeaf w.state k w.state.nbNode root = some leaf →
      leaf < w.state.nbNode → (w.state.pool leaf).isLeaf = true → w.bounds.Holds leaf k →
      holding (w.state.nbNode + 1) leaf (w.grown variant leaf k v)) :
    ∃ w' fuel' cur', insert M variant w.state k v = some w'.state ∧
      Settled M w' ((k, variant.storeVal v default) :: history) ∧ holding fuel' cur' w' := by
  have shape := settled.shape
  obtain ⟨leaf, hdescend, hlt, hleaf, holds⟩ :=
    settled.ordered.descendToLeaf_eq shape w.state.nbNode shape.root_lt
      shape.root_isValue (settled.ordered.holds_root k) (by omega)
  have hrepair := settled.repairing_grown variant v hlt hleaf holds
  have hdist := shape.dist_lt hlt
  obtain ⟨w', fuel', cur', hoverflow, hsettled, hlast⟩ :=
    hrepair.overflow_rec variant closed (w.state.nbNode + 1)
      (hgrown leaf hdescend hlt hleaf holds) (by omega) (fun _ => by
        simp only [Function.update_of_ne (Nat.ne_of_lt hlt)]
        omega)
  refine ⟨w', fuel', cur', ?_, hsettled, hlast⟩
  rw [insert, hdescend]
  exact hoverflow

/-- The same for a property of the tree alone. -/
theorem Settled.insert_rec (settled : Settled M w history) (k : κ) (v : V)
    {holding : World κ V → Prop}
    (closed : StepClosed variant M ((k, variant.storeVal v default) :: history) k holding)
    (hgrown : ∀ cur, cur < w.state.nbNode → (w.state.pool cur).isLeaf = true →
      w.bounds.Holds cur k → holding (w.grown variant cur k v)) :
    ∃ w', insert M variant w.state k v = some w'.state ∧
      Settled M w' ((k, variant.storeVal v default) :: history) ∧ holding w' := by
  obtain ⟨w', -, -, hinsert, hsettled, hlast⟩ :=
    settled.insert_closed variant k v (closed.repairClosed variant)
      (fun leaf _ hlt hleaf holds => hgrown leaf hlt hleaf holds)
  exact ⟨w', hinsert, hsettled, hlast⟩

theorem Settled.insert_eq (settled : Settled M w history) (k : κ) (v : V) :
    ∃ w', insert M variant w.state k v = some w'.state ∧
      Settled M w' ((k, variant.storeVal v default) :: history) ∧ Keeps w w' :=
  settled.insert_rec variant k v (stepClosed_keeps variant w)
    (fun _ _ _ _ => keeps_insertIntoLeaf variant w.dist w.bounds k v)

/-- One call settles the tree again. -/
theorem Settled.apply_eq (settled : Settled M w history) (call : Call κ V) :
    ∃ w', call.apply M variant w.state = some w'.state ∧
      Settled M w' (storedHistory variant [call] ++ history) ∧ Keeps w w' := by
  cases call with
  | insert inKey inVal => exact settled.insert_eq variant inKey inVal
  | markLoaded nodes =>
      have hsame : SameTree w.state
          (markLoaded w.state (nodes.filter (· < w.state.nbNode))) :=
        sameTree_markLoaded fun n hn => by simpa using (List.mem_filter.mp hn).2
      exact ⟨⟨_, w.dist, w.bounds⟩, rfl, hsame.settled settled, hsame.keeps w.dist w.bounds⟩
  | visit n =>
      by_cases hn : n < w.state.nbNode
      · have hsame := sameTree_touch hn
        refine ⟨⟨touch w.state n, w.dist, w.bounds⟩, ?_, hsame.settled settled,
          hsame.keeps w.dist w.bounds⟩
        simp [Call.apply, hn]
      · exact ⟨w, by simp [Call.apply, hn], settled, Keeps.refl w⟩

omit [LinearOrder κ] in
theorem storedHistory_append (calls later : List (Call κ V)) :
    storedHistory variant (calls ++ later) =
      storedHistory variant later ++ storedHistory variant calls := by
  simp [storedHistory, insertions_append]

/-- Every run succeeds and leaves a settled tree. -/
theorem Settled.run_eq (settled : Settled M w history) (calls : List (Call κ V)) :
    ∃ w', run M variant calls w.state = some w'.state ∧
      Settled M w' (storedHistory variant calls ++ history) ∧ Keeps w w' := by
  induction calls generalizing w history with
  | nil => exact ⟨w, rfl, settled, Keeps.refl w⟩
  | cons call calls ih =>
      obtain ⟨next, hcall, hnext, hkeeps⟩ := settled.apply_eq variant call
      obtain ⟨last, hrun, hlast, hkeeps'⟩ := ih hnext
      refine ⟨last, ?_, ?_, hkeeps.trans hkeeps'⟩
      · simp only [run, hcall]
        exact hrun
      · rw [← List.append_assoc, ← storedHistory_append] at hlast
        exact hlast

omit [LinearOrder κ] in
theorem keysOf_storedHistory (calls : List (Call κ V)) (k : κ) :
    k ∈ keysOf (storedHistory variant calls) ↔ k ∈ keysOf (insertions calls) := by
  simp [keysOf, storedHistory]

end Settled

/-- The state a sequence of calls reaches from the empty tree. -/
def Reaches (M : Nat) (variant : Variant V) (calls : List (Call κ V)) (σ : State κ V) :
    Prop :=
  run M variant calls State.empty = some σ

theorem settled_of_run (variant : Variant V) {M : Nat} [NodeOrder M]
    (calls : List (Call κ V)) :
    ∃ w, Reaches M variant calls w.state ∧ Settled M w (storedHistory variant calls) := by
  obtain ⟨w, hrun, hsettled, -⟩ := settled_empty.run_eq variant (M := M) calls
  rw [List.append_nil] at hsettled
  exact ⟨w, hrun, hsettled⟩

/-- On the tree that any sequence of calls reaches, a lookup from the root
answers as the abstract store does. -/
theorem lookup_eq_ceiling (variant : Variant V) {M : Nat} [NodeOrder M]
    (calls : List (Call κ V)) (k : κ) :
    ∃ σ, Reaches M variant calls σ ∧
      (lookup σ k root).map Prod.fst = ceiling (storedHistory variant calls) k := by
  obtain ⟨w, hrun, hsettled⟩ := settled_of_run variant (M := M) calls
  exact ⟨w.state, hrun, Settled.lookup_eq hsettled hsettled.shape.root_lt
    hsettled.shape.root_isValue (hsettled.ordered.holds_root k)⟩

end FatBTree.Tree
