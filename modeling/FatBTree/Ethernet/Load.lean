import FatBTree.Switch.Snapshot
import FatBTree.Tree.Traversal
import FatBTree.Ethernet.MapSemantics
import Mathlib.Order.Nat

/-!
# `load2switch_greedy` of the Ethernet backend

The layers below the fat root stop at `depth - 2`, one level above the leaves,
so every printed copy is of an inner node.
-/

namespace FatBTree.Ethernet

open FatBTree.Order FatBTree.Tree FatBTree.Switch

variable {κ : Type} [LinearOrder κ] [OrderBot κ]

/-- The arguments of `load2switch_greedy` that decide what is printed, and how
its sorts and its queue break ties. -/
structure LoadArgs where
  rootLoadNum : Nat
  maxLoadNum : Nat
  compressDepth : Nat
  ties : Ties

/-- The layers from `compress_depth` down to `depth - 2`. -/
def layersOf (σ : State κ FieldTable) (args : LoadArgs) (nodeVec : List (Nat × κ)) :
    List (List Nat) :=
  layersFrom σ args.ties args.maxLoadNum args.compressDepth (σ.depth - 1 - args.compressDepth)
    (capLayer σ args.ties args.maxLoadNum args.compressDepth (nodeVec.map Prod.fst))

/-- `load2switch_greedy`.  With `depth = 1` the 32-bit bound `depth - 2` wraps
and the loop over the layers leaves `cached_nodes`; with the largest 32-bit
`compress_depth` the vector `cached_keys` is empty.  Both are `none`. -/
def load2switchGreedy (M : Nat) (σ : State κ FieldTable) (args : LoadArgs) :
    Option (Snapshot κ × State κ FieldTable) :=
  if σ.depth < 2 ∨ 2 ^ 32 ≤ args.compressDepth + 1 then none
  else
    match frontier M σ args.ties args.rootLoadNum args.compressDepth with
    | none => none
    | some nodeVec =>
        let snapshot := printed σ nodeVec (layersOf σ args nodeVec)
        some (snapshot, markLoaded σ snapshot.loaded)

/-- What happens to the backend tree between two loads, and further loads.
`visit` is a counter that a lookup or an update advances. -/
inductive BackendCall (κ : Type) where
  | insert (inKey : κ) (inVal : FieldTable)
  | load (args : LoadArgs)
  | visit (n : Nat)

def BackendCall.apply (M : Nat) (σ : State κ FieldTable) :
    BackendCall κ → Option (State κ FieldTable)
  | .insert inKey inVal => Tree.insert M ethernet σ inKey inVal
  | .load args => (load2switchGreedy M σ args).map Prod.snd
  | .visit n => some (if n < σ.nbNode then touch σ n else σ)

def runBackend (M : Nat) :
    List (BackendCall κ) → State κ FieldTable → Option (State κ FieldTable)
  | [], σ => some σ
  | call :: calls, σ =>
      match call.apply M σ with
      | none => none
      | some σ' => runBackend M calls σ'

/-- The keys a sequence of calls inserts, oldest first. -/
def insertedKeys : List (BackendCall κ) → List κ
  | [] => []
  | .insert inKey _ :: calls => inKey :: insertedKeys calls
  | .load _ :: calls => insertedKeys calls
  | .visit _ :: calls => insertedKeys calls

/-! ## Loads are marks -/

section Layers

variable {σ : State κ FieldTable} {dist : Nat → Nat} {args : LoadArgs}

omit [LinearOrder κ] [OrderBot κ] in
theorem lt_of_mem_layersOf (shape : Shape σ dist) {nodeVec : List (Nat × κ)}
    (hlt : ∀ p ∈ nodeVec, p.1 < σ.nbNode) :
    ∀ layer ∈ layersOf σ args nodeVec, ∀ n ∈ layer, n < σ.nbNode :=
  lt_of_mem_layersFrom shape fun n hn => by
    obtain ⟨p, hp, rfl⟩ := List.mem_map.mp (mem_capLayer hn)
    exact hlt p hp

/-- A load marks existing nodes and changes nothing else. -/
theorem load2switchGreedy_eq {M : Nat} (shape : Shape σ dist) {snapshot : Snapshot κ}
    {σ' : State κ FieldTable}
    (hload : load2switchGreedy M σ args = some (snapshot, σ')) :
    σ' = markLoaded σ snapshot.loaded ∧ ∀ n ∈ snapshot.loaded, n < σ.nbNode := by
  unfold load2switchGreedy at hload
  split at hload
  · cases hload
  · split at hload
    · cases hload
    · next nodeVec hfrontier =>
        cases hload
        have hlt := frontier_lt shape hfrontier
        exact ⟨rfl, loaded_printed_lt shape hlt (lt_of_mem_layersOf shape hlt)⟩

end Layers

/-! ## Runs of the backend -/

section Runs

variable {M : Nat} [NodeOrder M] {w : World κ FieldTable}
  {history : List (κ × FieldTable)}

omit [NodeOrder M] in
/-- One call of the backend is an insertion, a mark or a visit. -/
theorem BackendCall.apply_eq (shape : Shape w.state w.dist) (call : BackendCall κ)
    {σ' : State κ FieldTable} (happly : call.apply M w.state = some σ') :
    ∃ plain : Call κ FieldTable, plain.apply M ethernet w.state = some σ' ∧
      keysOf (insertions [plain]) = insertedKeys [call] := by
  cases call with
  | insert inKey inVal => exact ⟨.insert inKey inVal, happly, rfl⟩
  | visit n => exact ⟨.visit n, happly, rfl⟩
  | load args =>
      obtain ⟨⟨snapshot, σ''⟩, hload, rfl⟩ := Option.map_eq_some_iff.mp happly
      obtain ⟨hmark, hlt⟩ := load2switchGreedy_eq shape hload
      refine ⟨.markLoaded snapshot.loaded, ?_, rfl⟩
      have hall : snapshot.loaded.filter (· < w.state.nbNode) = snapshot.loaded :=
        List.filter_eq_self.mpr fun n hn => by simpa using hlt n hn
      rw [Call.apply, hall, hmark]

omit [LinearOrder κ] [OrderBot κ] in
theorem insertedKeys_append (calls later : List (BackendCall κ)) :
    insertedKeys (calls ++ later) = insertedKeys calls ++ insertedKeys later := by
  induction calls with
  | nil => rfl
  | cons call calls ih => cases call <;> simp [insertedKeys, ih]

theorem runBackend_eq (settled : Settled M w history) (calls : List (BackendCall κ))
    {σ' : State κ FieldTable} (hrun : runBackend M calls w.state = some σ') :
    ∃ plain : List (Call κ FieldTable), run M ethernet plain w.state = some σ' ∧
      keysOf (insertions plain) = insertedKeys calls := by
  induction calls generalizing w history with
  | nil => exact ⟨[], hrun, rfl⟩
  | cons call calls ih =>
      unfold runBackend at hrun
      cases happly : call.apply M w.state with
      | none => rw [happly] at hrun; cases hrun
      | some σ =>
          rw [happly] at hrun
          obtain ⟨first, hfirst, hkeys⟩ := call.apply_eq settled.shape happly
          obtain ⟨next, hnext, hsettled, -⟩ := settled.apply_eq ethernet first
          rw [hfirst] at hnext
          cases hnext
          obtain ⟨rest, hrest, hkeys'⟩ := ih hsettled hrun
          refine ⟨first :: rest, ?_, ?_⟩
          · simp only [run, hfirst]
            exact hrest
          · have hsplit : insertions (first :: rest) = insertions [first] ++ insertions rest :=
              insertions_append [first] rest
            have hsplit' : insertedKeys (call :: calls) = insertedKeys [call] ++ insertedKeys calls :=
              insertedKeys_append [call] calls
            rw [hsplit, hsplit', ← hkeys, ← hkeys', keysOf, List.map_append]
            rfl

/-- A tree that was built from distinct keys. -/
theorem runBackend_strict {calls : List (BackendCall κ)} {σ : State κ FieldTable}
    (distinct : (insertedKeys calls).Nodup) (hrun : runBackend M calls State.empty = some σ) :
    ∃ dist b history, Settled M ⟨σ, dist, b⟩ history ∧ Strict (⟨σ, dist, b⟩ : World κ FieldTable) ∧
      ∀ k, k ∈ keysOf history ↔ k ∈ insertedKeys calls := by
  obtain ⟨plain, hplain, hkeys⟩ := runBackend_eq (settled_empty (M := M)) calls hrun
  obtain ⟨w', hrun', hsettled, -, hstrict⟩ :=
    (settled_empty (M := M)).run_strict ethernet strict_empty plain (hkeys ▸ distinct) (by simp [keysOf])
  rw [hplain] at hrun'
  cases hrun'
  refine ⟨w'.dist, w'.bounds, _, hsettled, hstrict, fun k => ?_⟩
  rw [List.append_nil, keysOf_storedHistory, hkeys]

end Runs

/-! ## What a load prints -/

section Snapshots

variable {M : Nat} {w : World κ FieldTable} {history : List (κ × FieldTable)} {args : LoadArgs}

/-- No copied node is a leaf. -/
theorem inner_of_mem_layersOf (sound : Sound M w history) {nodeVec : List (Nat × κ)}
    (partition : Partition w args.compressDepth nodeVec) :
    ∀ entry ∈ (printed w.state nodeVec (layersOf w.state args nodeVec)).entries,
      (w.state.pool entry.node).IsInner := by
  have shape := sound.shape
  intro entry hentry
  obtain ⟨layer, hlayer, n, hn, rfl⟩ := mem_entries_printed.mp hentry
  by_cases hdeep : args.compressDepth ≤ w.state.depth - 1
  · obtain ⟨j, hj, hlt, hval, hdist⟩ := layersFrom_induction
      (fun i n => n < w.state.nbNode ∧ (w.state.pool n).isValue = false ∧ w.dist n ≤ i)
      (show args.compressDepth + (w.state.depth - 1 - args.compressDepth) ≤
        w.state.depth - 1 by omega)
      (fun m hm => by
        obtain ⟨p, hp, rfl⟩ := List.mem_map.mp (mem_capLayer hm)
        exact ⟨partition.lt p hp, partition.isValue p hp, partition.shallow p hp⟩)
      (fun i p c hi holding hchild => by
        obtain ⟨hlt, hval, hdist⟩ := holding
        have hinner := sound.inner_of_dist_lt hlt hval (by omega)
        refine ⟨shape.child_lt p c hchild, shape.inner_child p c hinner hchild, ?_⟩
        rw [shape.dist_child p c hchild]
        omega)
      layer hlayer n hn
    exact sound.inner_of_dist_lt hlt hval (show w.dist n + 1 < w.state.depth by omega)
  · rw [layersOf, show w.state.depth - 1 - args.compressDepth = 0 by omega] at hlayer
    cases hlayer

/-- The load of a tree of at least two levels, taken apart. -/
theorem load2switchGreedy_cases (sound : Sound M w history) (args : LoadArgs)
    (hdepth : 2 ≤ w.state.depth) (hcompress : 1 ≤ args.compressDepth) :
    ∃ nodeVec, Partition w args.compressDepth nodeVec ∧
      nodeVec.Pairwise (fun p q => p.2 ≤ q.2) ∧
      load2switchGreedy M w.state args =
        if 2 ^ 32 ≤ args.compressDepth + 1 then none
        else some (printed w.state nodeVec (layersOf w.state args nodeVec),
          markLoaded w.state (printed w.state nodeVec (layersOf w.state args nodeVec)).loaded) := by
  obtain ⟨nodeVec, hfrontier, hpartition, hsorted⟩ :=
    frontier_eq sound args.ties args.rootLoadNum (sound.inner_root hdepth) hcompress
  refine ⟨nodeVec, hpartition, hsorted, ?_⟩
  unfold load2switchGreedy
  have hdeep : ¬ w.state.depth < 2 := Nat.not_lt_of_le hdepth
  simp only [hdeep, false_or, hfrontier]

end Snapshots

/-- A switch snapshot stays valid for ever.  After any later insertions and
loads, every node that the snapshot routes an inserted key to is on the key's
current path, and a lookup started there returns what a lookup from the root
returns. -/
theorem snapshot_valid_forever (before : List (BackendCall κ)) {σ : State κ FieldTable}
    (hbefore : runBackend 16 before State.empty = some σ) (hdepth : 2 ≤ σ.depth)
    (distinct : (insertedKeys before).Nodup) (args : LoadArgs)
    (hcompress : 1 ≤ args.compressDepth) :
    (args.compressDepth + 1 < 2 ^ 32 →
      ∃ snapshot loaded, load2switchGreedy 16 σ args = some (snapshot, loaded)) ∧
    ∀ snapshot loaded, load2switchGreedy 16 σ args = some (snapshot, loaded) →
      ∀ later σ', runBackend 16 later loaded = some σ' →
      ∀ k ∈ insertedKeys (before ++ later), ∀ steps, ∃ n v σn σr,
        snapshot.route k steps = some n ∧ OnPath σ' k n ∧
        lookup σ' k n = some (v, σn) ∧ lookup σ' k root = some (v, σr) := by
  obtain ⟨dist, b, history, hsettled, hstrict, hkeys⟩ := runBackend_strict distinct hbefore
  have sound := hsettled.toSound
  obtain ⟨nodeVec, hpartition, hsorted, hload⟩ :=
    load2switchGreedy_cases sound args hdepth hcompress
  simp only at hload
  constructor
  · intro hsmall
    rw [if_neg (Nat.not_le_of_lt hsmall)] at hload
    exact ⟨_, _, hload⟩
  · intro snapshot loaded heq later σ' hlater k hk steps
    obtain ⟨hmark, hlt⟩ := load2switchGreedy_eq hsettled.shape heq
    have hsnapshot : snapshot = printed σ nodeVec (layersOf σ args nodeVec) := by
      rw [heq] at hload
      split at hload
      · cases hload
      · cases hload
        rfl
    -- the marked tree and the tree after the later calls
    have hsame : SameTree σ loaded := hmark ▸ sameTree_markLoaded hlt
    have hsettled1 := hsame.settled hsettled
    obtain ⟨plain, hplain, hkeys'⟩ := runBackend_eq (w := ⟨loaded, dist, b⟩) hsettled1 later hlater
    obtain ⟨w', hrun', hsettled', hkeeps⟩ := hsettled1.run_eq ethernet plain
    rw [hplain] at hrun'
    cases hrun'
    have hfaithful : Faithful snapshot ⟨σ, dist, b⟩ :=
      hsnapshot ▸ faithful_printed sound hstrict hpartition hsorted
        (lt_of_mem_layersOf sound.shape hpartition.lt)
    have hinner : ∀ entry ∈ snapshot.entries, (σ.pool entry.node).IsInner :=
      hsnapshot ▸ inner_of_mem_layersOf sound hpartition
    obtain ⟨n, hroute, hmem, hnlt, hval, holds⟩ := hfaithful.route_eq sound hinner k steps
    have hpinned : Pinned loaded n := by
      refine Or.inr ?_
      rw [hmark]
      simp [markLoaded, hmem]
    obtain ⟨hpath, hequal⟩ := onPath_of_keeps hsettled' hkeeps
      (hsame.nbNode ▸ hnlt) ((hsame.isValue n).trans hval) hpinned holds
    have hmem' : k ∈ keysOf (storedHistory ethernet plain ++ history) := by
      rw [keysOf, List.map_append, List.mem_append]
      rw [insertedKeys_append, List.mem_append] at hk
      rcases hk with hold | hnew
      · exact Or.inr ((hkeys k).mpr hold)
      · exact Or.inl ((keysOf_storedHistory ethernet plain k).mpr (hkeys' ▸ hnew))
    obtain ⟨v, hv⟩ := lookup_isSome_of_mem hmem'
    have hanswer := Settled.lookup_eq hsettled' hsettled'.shape.root_lt
      hsettled'.shape.root_isValue (hsettled'.ordered.holds_root k)
    rw [ceiling_of_mem hmem', hv] at hanswer
    rw [hanswer] at hequal
    obtain ⟨⟨v', σn⟩, hfrom, rfl⟩ := Option.map_eq_some_iff.mp hequal
    obtain ⟨⟨v'', σr⟩, hroot, rfl⟩ := Option.map_eq_some_iff.mp hanswer
    exact ⟨n, _, σn, σr, hroute, hpath, hfrom, hroot⟩

/-- Sixteen insertions, a load of the two-level tree, and one more insertion. -/
theorem snapshot_valid_forever_two_levels :
    ∃ σ snapshot loaded σ',
      runBackend 16 ((List.range 16).map (fun i => .insert i [("field0", "a")]))
        (State.empty : State Nat FieldTable) = some σ ∧
      load2switchGreedy 16 σ ⟨40, 8, 1, ⟨fun _ n => n, fun _ n => n⟩⟩ =
        some (snapshot, loaded) ∧
      runBackend 16 [.insert 100 [("field0", "b")]] loaded = some σ' ∧
      ∃ n v σn σr, snapshot.route 100 1 = some n ∧ OnPath σ' 100 n ∧
        lookup σ' 100 n = some (v, σn) ∧ lookup σ' 100 root = some (v, σr) := by
  have hrun : ((runBackend 16 ((List.range 16).map (fun i => .insert i [("field0", "a")]))
      (State.empty : State Nat FieldTable)).bind fun σ =>
        if 2 ≤ σ.depth then
          (load2switchGreedy 16 σ ⟨40, 8, 1, ⟨fun _ n => n, fun _ n => n⟩⟩).bind fun p =>
            runBackend 16 [.insert 100 [("field0", "b")]] p.2
        else none).isSome = true := by
    decide +kernel
  obtain ⟨σ', hsome⟩ := Option.isSome_iff_exists.mp hrun
  obtain ⟨σ, hσ, hrest⟩ := Option.bind_eq_some_iff.mp hsome
  split at hrest
  · next hdepth =>
      obtain ⟨⟨snapshot, loaded⟩, hload, hlater⟩ := Option.bind_eq_some_iff.mp hrest
      obtain ⟨-, hvalid⟩ := snapshot_valid_forever _ hσ hdepth (by decide)
        ⟨40, 8, 1, ⟨fun _ n => n, fun _ n => n⟩⟩ (by decide)
      exact ⟨σ, snapshot, loaded, σ', hσ, hload, hlater,
        hvalid snapshot loaded hload _ σ' hlater 100 (by decide) 1⟩
  · cases hrest

/-! ## Leaves are never copied -/

section Leaves

variable {M : Nat} [NodeOrder M] {w : World κ FieldTable} {history : List (κ × FieldTable)}

omit [OrderBot κ] [NodeOrder M] in
/-- An insertion into a leaf with room changes no inner node. -/
theorem insert_inner (settled : Settled M w history) {k : κ} {v : FieldTable} {leaf : Nat}
    (hdescend : descendToLeaf w.state k w.state.nbNode root = some leaf)
    (hroom : (w.state.pool leaf).key.length + 1 < M) {σ' : State κ FieldTable}
    (hinsert : Tree.insert M ethernet w.state k v = some σ') {n : Nat} (hlt : n < w.state.nbNode)
    (hinner : (w.state.pool n).IsInner) : σ'.pool n = w.state.pool n := by
  have shape := settled.shape
  obtain ⟨leaf', hdescend', hleafLt, hleaf, -⟩ :=
    settled.ordered.descendToLeaf_eq shape w.state.nbNode shape.root_lt
      shape.root_isValue (settled.ordered.holds_root k) (by omega)
  obtain rfl : leaf' = leaf := Option.some.inj (hdescend'.symm.trans hdescend)
  have hsmall : ((insertIntoLeaf ethernet w.state leaf' k v).pool leaf').key.length < M := by
    rw [insertIntoLeaf_pool_cur ethernet k v hleafLt, List.length_insertIdx,
      if_pos (lowerBound_le_length _ _)]
    exact hroom
  have hother : n ≠ leaf' := by
    rintro rfl
    rw [hinner.1] at hleaf
    cases hleaf
  rw [Tree.insert, hdescend] at hinsert
  simp only [overflow_small ethernet hsmall, Option.some.injEq] at hinsert
  rw [← hinsert]
  exact insertIntoLeaf_pool_other ethernet k v (Nat.ne_of_lt hlt) hother

end Leaves

/-- No leaf is closer to the root than the depth counter says.  A load therefore copies
inner nodes only, and an insertion into a leaf with room leaves all copies exact. -/
theorem leaves_never_copied (calls : List (Call κ FieldTable)) {σ : State κ FieldTable}
    (hreach : Reaches 16 ethernet calls σ) :
    (∀ d n, Descends σ root d n → (σ.pool n).isLeaf = true → σ.depth ≤ d + 1) ∧
    (2 ≤ σ.depth → ∀ args : LoadArgs, 1 ≤ args.compressDepth →
      (args.compressDepth + 1 < 2 ^ 32 → (load2switchGreedy 16 σ args).isSome = true) ∧
      ∀ snapshot loaded, load2switchGreedy 16 σ args = some (snapshot, loaded) →
        (∀ entry ∈ snapshot.entries, (σ.pool entry.node).IsInner) ∧
        ∀ later σ', run 16 ethernet later loaded = some σ' →
        ∀ k v leaf, descendToLeaf σ' k σ'.nbNode root = some leaf →
          (σ'.pool leaf).key.length + 1 < 16 →
        ∀ σ'', Tree.insert 16 ethernet σ' k v = some σ'' →
        ∀ entry ∈ snapshot.entries, nodeEntry σ'' entry.node = nodeEntry σ' entry.node) := by
  obtain ⟨w, hrun, settled⟩ := settled_of_run ethernet (M := 16) calls
  obtain rfl : w.state = σ := Option.some.inj (hrun.symm.trans hreach)
  have shape := settled.shape
  refine ⟨fun d n below hleaf => ?_, fun hdepth args hcompress => ?_⟩
  · have hdist := shape.dist_of_descends below
    rw [shape.dist_root, Nat.zero_add] at hdist
    have hdeep := settled.depth_le n (shape.lt_of_descends shape.root_lt below) hleaf
    omega
  obtain ⟨nodeVec, hpartition, -, hload⟩ :=
    load2switchGreedy_cases settled.toSound args hdepth hcompress
  refine ⟨fun hsmall => by rw [hload, if_neg (by omega)]; rfl, fun snapshot loaded heq => ?_⟩
  have hinner : ∀ entry ∈ snapshot.entries, (w.state.pool entry.node).IsInner := by
    rw [hload] at heq
    split at heq
    · cases heq
    · cases heq
      exact inner_of_mem_layersOf settled.toSound hpartition
  refine ⟨hinner, fun later σ' hlater k v leaf hdescend hroom σ'' hinsert entry hentry => ?_⟩
  obtain ⟨hmark, hlt⟩ := load2switchGreedy_eq shape heq
  have hsame : SameTree w.state loaded := hmark ▸ sameTree_markLoaded hlt
  obtain ⟨w', hrun', settled', keeps⟩ := (hsame.settled settled).run_eq ethernet later
  obtain rfl : w'.state = σ' := Option.some.inj (hrun'.symm.trans hlater)
  -- the copied node is still an inner node of the later tree
  have hnode : entry.node < w.state.nbNode :=
    hlt _ (Snapshot.mem_loaded.mpr (Or.inr (Or.inr ⟨entry, hentry, Or.inl rfl⟩)))
  have hnode' : entry.node < loaded.nbNode := hsame.nbNode ▸ hnode
  have hstill : (w'.state.pool entry.node).IsInner := by
    have hold := hinner entry hentry
    exact ⟨keeps.inner _ hnode' ((hsame.isLeaf _).trans hold.1),
      (keeps.isValue _ hnode').trans ((hsame.isValue _).trans hold.2)⟩
  rw [nodeEntry, nodeEntry, insert_inner settled' hdescend hroom hinsert
    (Nat.lt_of_lt_of_le hnode' keeps.nbNode_le) hstill]

/-- A load of a tree of three levels that copies two inner nodes, and one more
insertion. -/
theorem leaves_never_copied_three_levels :
    ∃ σ snapshot loaded σ'',
      Reaches 16 ethernet ((List.range 136).map fun i => .insert i [])
        (σ : State Nat FieldTable) ∧
      (∀ d n, Descends σ root d n → (σ.pool n).isLeaf = true → σ.depth ≤ d + 1) ∧
      load2switchGreedy 16 σ ⟨17, 8, 1, ⟨fun _ n => n, fun _ n => n⟩⟩ = some (snapshot, loaded) ∧
      snapshot.entries.length = 2 ∧ (∀ entry ∈ snapshot.entries, (σ.pool entry.node).IsInner) ∧
      Tree.insert 16 ethernet loaded 1000 [] = some σ'' ∧
      ∀ entry ∈ snapshot.entries, nodeEntry σ'' entry.node = nodeEntry loaded entry.node := by
  have hrun : ((run 16 ethernet ((List.range 136).map fun i => .insert i [])
      (State.empty : State Nat FieldTable)).bind fun σ =>
        (load2switchGreedy 16 σ ⟨17, 8, 1, ⟨fun _ n => n, fun _ n => n⟩⟩).bind fun p =>
          (descendToLeaf p.2 1000 p.2.nbNode root).bind fun leaf =>
            if σ.depth = 3 ∧ p.1.entries.length = 2 ∧ (p.2.pool leaf).key.length + 1 < 16 then
              Tree.insert 16 ethernet p.2 1000 []
            else none).isSome = true := by
    decide +kernel
  obtain ⟨σ'', hsome⟩ := Option.isSome_iff_exists.mp hrun
  obtain ⟨σ, hσ, hrest⟩ := Option.bind_eq_some_iff.mp hsome
  obtain ⟨⟨snapshot, loaded⟩, hload, hrest⟩ := Option.bind_eq_some_iff.mp hrest
  obtain ⟨leaf, hdescend, hinsert⟩ := Option.bind_eq_some_iff.mp hrest
  split at hinsert
  · next hfacts =>
      obtain ⟨hdepth, hentries, hroom⟩ := hfacts
      obtain ⟨hdeep, hcopied⟩ := leaves_never_copied _ hσ
      obtain ⟨-, hexact⟩ := hcopied (by omega) ⟨17, 8, 1, ⟨fun _ n => n, fun _ n => n⟩⟩
        (Nat.le_refl 1)
      obtain ⟨hinner, hkeep⟩ := hexact snapshot loaded hload
      exact ⟨σ, snapshot, loaded, σ'', hσ, hdeep, hload, hentries, hinner, hinsert,
        hkeep [] loaded rfl 1000 [] leaf hdescend hroom σ'' hinsert⟩
  · cases hinsert

end FatBTree.Ethernet
