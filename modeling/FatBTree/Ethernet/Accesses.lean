import FatBTree.Ethernet.Cluster
import FatBTree.Tree.Height

/-!
# What the switch saves a server

The switch lets a lookup start below the root.  In every state that packets of any
content lead a server to, such a lookup finds what the lookup from the root finds, and
it makes fewer accesses by the nodes above its start.
-/

namespace FatBTree.Ethernet.Backend

open FatBTree.Order FatBTree.Tree FatBTree.Wire

/-- The main loop on one packet after the other. -/
def serve (config : Config) (arrivals : List (Memory × List Byte)) (server : Server) :
    Option Server :=
  arrivals.foldlM (fun server arrival =>
    (handle config arrival.1 server arrival.2).map Prod.snd) server

/-- The tree is in order, whatever it holds. -/
def InOrder (σ : Store) : Prop :=
  ∃ dist b history, Settled 16 (⟨σ, dist, b⟩ : World (List Char) FieldTable) history

section Handlers

variable {config : Config} {memory : Memory} {σ σ' : Store} {buf : Nat → Byte} {msg : Nat}
  {reply : List Byte}

theorem InOrder.handleInsert (ordered : InOrder σ)
    (hrun : handleInsert memory σ buf msg = some (reply, σ')) : InOrder σ' := by
  obtain ⟨dist, b, history, settled⟩ := ordered
  obtain ⟨tree, hinsert, hpair⟩ := Option.bind_eq_some_iff.mp hrun
  cases hpair
  obtain ⟨w, hinserted, hsettled, -⟩ := settled.insert_eq ethernet
    (textOf (readBody buf msg).1.1) (tableOf (readBody buf msg).1.2)
  obtain rfl : w.state = σ' := Option.some.inj (hinserted.symm.trans hinsert)
  exact ⟨w.dist, w.bounds, _, hsettled⟩

/-- An update may start at any node. -/
theorem InOrder.handleUpdate (ordered : InOrder σ)
    (hrun : handleUpdate config memory σ buf msg = some (reply, σ')) : InOrder σ' := by
  obtain ⟨dist, b, history, settled⟩ := ordered
  simp only [Backend.handleUpdate, Option.bind_eq_bind] at hrun
  obtain ⟨header, -, hrun⟩ := Option.bind_eq_some_iff.mp hrun
  obtain ⟨cur, -, hrun⟩ := Option.bind_eq_some_iff.mp hrun
  obtain ⟨tree, hupdate, hpair⟩ := Option.bind_eq_some_iff.mp hrun
  cases hpair
  have hlt := settled.shape.lt_of_modifyLoop _ hupdate
  have hsame := sameTree_touch hlt
  obtain ⟨history', hsettled, -⟩ :=
    (hsame.settled settled).modifyLoop_keys _ (hsame.nbNode.symm ▸ hlt) hupdate
  exact ⟨dist, b, history', hsettled⟩

/-- So may a query. -/
theorem InOrder.handleQuery (ordered : InOrder σ)
    (hrun : handleQuery config memory σ buf msg = some (reply, σ')) : InOrder σ' := by
  obtain ⟨dist, b, history, settled⟩ := ordered
  simp only [Backend.handleQuery, Option.bind_eq_bind] at hrun
  obtain ⟨header, -, hrun⟩ := Option.bind_eq_some_iff.mp hrun
  obtain ⟨cur, -, hrun⟩ := Option.bind_eq_some_iff.mp hrun
  obtain ⟨found, hlookup, hpair⟩ := Option.bind_eq_some_iff.mp hrun
  cases hpair
  exact ⟨dist, b, history,
    (settled.shape.sameTree_lookup (settled.shape.lt_of_lookup hlookup) hlookup).settled settled⟩

theorem InOrder.handleLoad2switch (ordered : InOrder σ) {file : Switch.Snapshot (Fin (2 ^ 64))}
    (hrun : handleLoad2switch memory σ = some (reply, file, σ')) : InOrder σ' := by
  obtain ⟨dist, b, history, settled⟩ := ordered
  simp only [Backend.handleLoad2switch, Option.bind_eq_bind] at hrun
  obtain ⟨found, hload, hrun⟩ := Option.bind_eq_some_iff.mp hrun
  obtain ⟨file, -, hpair⟩ := Option.bind_eq_some_iff.mp hrun
  cases hpair
  obtain ⟨hmark, hlt⟩ := load2switchGreedy_eq settled.shape hload
  have hmarked : SameTree σ found.2 := by
    rw [hmark]
    exact sameTree_markLoaded hlt
  have hcount : SameTree found.2 { found.2 with nbQuery := 0, nbAccess := 0 } := by
    constructor <;> intros <;> first | rfl | assumption
  exact ⟨dist, b, history, (hmarked.trans hcount).settled settled⟩

end Handlers

/-- One packet keeps the tree in order. -/
theorem InOrder.handle {config : Config} {memory : Memory} {server server' : Server}
    {payload : List Byte} {reply : Option (List Byte)} (ordered : InOrder server.tree)
    (hrun : handle config memory server payload = some (reply, server')) :
    InOrder server'.tree := by
  simp only [Backend.handle, Option.bind_eq_bind] at hrun
  obtain ⟨header, -, hrun⟩ := Option.bind_eq_some_iff.mp hrun
  split_ifs at hrun
  · obtain ⟨found, hinsert, hpair⟩ := Option.bind_eq_some_iff.mp hrun
    cases hpair
    exact ordered.handleInsert hinsert
  · obtain ⟨found, hquery, hpair⟩ := Option.bind_eq_some_iff.mp hrun
    cases hpair
    exact ordered.handleQuery hquery
  · obtain ⟨found, hupdate, hpair⟩ := Option.bind_eq_some_iff.mp hrun
    cases hpair
    exact ordered.handleUpdate hupdate
  · obtain ⟨found, hload, hpair⟩ := Option.bind_eq_some_iff.mp hrun
    cases hpair
    exact ordered.handleLoad2switch hload
  · cases hrun
    exact ordered

theorem inOrder_of_serve {config : Config} (arrivals : List (Memory × List Byte))
    {server server' : Server} (ordered : InOrder server.tree)
    (hrun : serve config arrivals server = some server') : InOrder server'.tree := by
  induction arrivals generalizing server with
  | nil =>
      cases hrun
      exact ordered
  | cons arrival arrivals ih =>
      rw [serve, List.foldlM_cons] at hrun
      obtain ⟨next, hfirst, hrest⟩ := Option.bind_eq_some_iff.mp hrun
      obtain ⟨⟨reply, _⟩, hhandle, rfl⟩ := Option.map_eq_some_iff.mp hfirst
      exact ih (ordered.handle hhandle) hrest

theorem inOrder_start : InOrder Server.start.tree :=
  ⟨_, _, [], settled_empty⟩

/-- The keys that were inserted are the keys of the leaves. -/
theorem mem_keysOf_iff {M : Nat} {w : World (List Char) FieldTable}
    {history : List (List Char × FieldTable)} (settled : Settled M w history) {x : List Char} :
    x ∈ keysOf history ↔
      ∃ leaf, (w.state.pool leaf).isLeaf = true ∧ x ∈ (w.state.pool leaf).key := by
  constructor
  · intro hx
    have shape := settled.shape
    obtain ⟨leaf, -, hlt, hleaf, holds⟩ :=
      settled.ordered.descendToLeaf_eq shape w.state.nbNode shape.root_lt shape.root_isValue
        (settled.ordered.holds_root x) (by omega)
    exact ⟨leaf, hleaf, settled.contents.present leaf x hlt hleaf holds hx⟩
  · rintro ⟨leaf, hleaf, hx⟩
    exact settled.contents.recorded leaf x hleaf hx

/-- In every state of a server a lookup that starts at a node of its own path does what the
lookup from the root does, with fewer accesses by the nodes above it. -/
theorem accesses_saved (config : Config) (arrivals : List (Memory × List Byte)) {server : Server}
    (hrun : serve config arrivals .start = some server) (k : List Char) :
    ((∃ v above, lookup server.tree k root = some (v, above)) ↔
      ∃ leaf, (server.tree.pool leaf).isLeaf = true ∧
        ∃ x ∈ (server.tree.pool leaf).key, k ≤ x) ∧
    ∀ d n, pathTo server.tree k d = some n →
      (lookup server.tree k root = none → lookup server.tree k n = none) ∧
      ∀ v above, lookup server.tree k root = some (v, above) →
        ∃ below, lookup server.tree k n = some (v, below) ∧
          above.nbAccess = below.nbAccess + UInt32.ofNat d ∧ above.nbQuery = below.nbQuery := by
  obtain ⟨dist, b, history, settled⟩ := inOrder_of_serve arrivals inOrder_start hrun
  refine ⟨?_, fun d n hn => ⟨lookup_below_none settled.shape hn,
    fun v above habove => lookup_below settled.shape hn habove⟩⟩
  rw [settled.lookup_root_iff k]
  constructor
  · rintro ⟨x, hx, hle⟩
    obtain ⟨leaf, hleaf, hmem⟩ := (mem_keysOf_iff settled).mp hx
    exact ⟨leaf, hleaf, x, hmem, hle⟩
  · rintro ⟨leaf, hleaf, x, hmem, hle⟩
    exact ⟨x, (mem_keysOf_iff settled).mpr ⟨leaf, hleaf, hmem⟩, hle⟩

/-- Sixteen keys, which split the first leaf, and one request of each other kind. -/
def splittingRequests : List (ClientRequest oneField) :=
  (List.range 16).map (fun i => .insert (BitVec.ofNat 64 i) oneByte) ++
    [.update 3 oneByte, .read 3, .load2Switch 0]

/-- A lookup that starts at the right leaf saves one access. -/
theorem accesses_saved_leaf :
    ∃ server n, serve ⟨0, 1⟩ (splittingRequests.map fun request => (zeroMemory, request.bytes))
        .start = some server ∧
      pathTo server.tree (oneField.keyIndex 12) 1 = some n ∧
      (lookup server.tree (oneField.keyIndex 12) root = none →
        lookup server.tree (oneField.keyIndex 12) n = none) ∧
      ∀ v above, lookup server.tree (oneField.keyIndex 12) root = some (v, above) →
        ∃ below, lookup server.tree (oneField.keyIndex 12) n = some (v, below) ∧
          above.nbAccess = below.nbAccess + 1 ∧ above.nbQuery = below.nbQuery := by
  have hpath : ((serve ⟨0, 1⟩ (splittingRequests.map fun request => (zeroMemory, request.bytes))
      .start).bind fun server => pathTo server.tree (oneField.keyIndex 12) 1) = some 18 := by
    decide +kernel
  obtain ⟨server, hrun, hn⟩ := Option.bind_eq_some_iff.mp hpath
  exact ⟨server, 18, hrun, hn, (accesses_saved _ _ hrun _).2 1 18 hn⟩

end FatBTree.Ethernet.Backend
