import FatBTree.Switch.Snapshot
import FatBTree.Tree.Growth
import Mathlib.Order.Monotone.Basic

/-!
# Walks through copies of any age

The switches are configured one by one, each from a file of some load.  A query walks
through copies of different loads, and it stays with nodes that are responsible for its
key in the tree as it is now.
-/

namespace FatBTree.Switch

open FatBTree.Order FatBTree.Tree

variable {ι κ V : Type} [LinearOrder ι] [LinearOrder κ]

def Entry.map (name : ι → κ) (entry : Entry ι) : Entry κ where
  node := entry.node
  keys := entry.keys.map name
  children := entry.children

/-- A snapshot with its keys under other names. -/
def Snapshot.map (name : ι → κ) (snapshot : Snapshot ι) : Snapshot κ where
  fat := snapshot.fat.map name
  layers := snapshot.layers.map fun layer => layer.map (Entry.map name)

/-- The nodes a query for `a` can be sent to: a child of a fat root, or the child that a
copy of such a node selects. -/
inductive Walks (files : List (Snapshot ι)) (a : ι) : Nat → Prop where
  | fat {snapshot : Snapshot ι} {n : Nat} (mem : snapshot ∈ files)
      (step : snapshot.fat.childFor a = some n) : Walks files a n
  | entry {snapshot : Snapshot ι} {entry : Entry ι} {c : Nat} (walks : Walks files a entry.node)
      (mem : snapshot ∈ files) (hentry : entry ∈ snapshot.entries)
      (step : entry.childFor a = some c) : Walks files a c

/-! ## Names -/

section Names

variable {name : ι → κ}

theorem countBelow_map (mono : StrictMono name) (keys : List ι) (a : ι) :
    countBelow (keys.map name) (name a) = countBelow keys a := by
  rw [countBelow, countBelow, List.countP_map]
  refine congrArg (fun p => List.countP p keys) (funext fun x => ?_)
  simp only [Function.comp_apply, mono.lt_iff_lt]

theorem Entry.childFor_map (mono : StrictMono name) (entry : Entry ι) (a : ι) :
    (entry.map name).childFor (name a) = entry.childFor a := by
  rw [Entry.childFor, Entry.map, countBelow_map mono, Entry.childFor]

omit [LinearOrder ι] [LinearOrder κ] in
theorem Snapshot.entries_map (snapshot : Snapshot ι) :
    (snapshot.map name).entries = snapshot.entries.map (Entry.map name) :=
  List.map_flatten.symm

omit [LinearOrder ι] [LinearOrder κ] in
theorem Snapshot.loaded_map (snapshot : Snapshot ι) :
    (snapshot.map name).loaded = snapshot.loaded := by
  rw [loaded, loaded, entries_map, List.flatMap_map]
  rfl

end Names

/-! ## What later calls leave alone -/

/-- Addresses and left ends stay, and so do the right ends of pinned nodes. -/
structure Anchors (w w' : World κ V) : Prop where
  nbNode_le : w.state.nbNode ≤ w'.state.nbNode
  isValue : ∀ n, n < w.state.nbNode →
    (w'.state.pool n).isValue = (w.state.pool n).isValue
  loaded : ∀ n, n < w.state.nbNode → (w.state.pool n).isLoaded2Switch = true →
    (w'.state.pool n).isLoaded2Switch = true
  lo : ∀ n, n < w.state.nbNode → w'.bounds.lo n = w.bounds.lo n
  hi : ∀ n, n < w.state.nbNode → Pinned w.state n → w'.bounds.hi n = w.bounds.hi n

/-- A node that no later call splits. -/
structure Anchored (w : World κ V) (n : Nat) : Prop where
  lt : n < w.state.nbNode
  isValue : (w.state.pool n).isValue = false
  pinned : Pinned w.state n

variable {w w' : World κ V} {n : Nat}

theorem anchors_of_keeps (keeps : Keeps w w') : Anchors w w' :=
  ⟨keeps.nbNode_le, keeps.isValue, keeps.loaded, keeps.lo, keeps.hi_pinned⟩

theorem anchors_of_sameNodes [OrderBot κ] {σ σ' : State κ V} {dist : Nat → Nat} {b : Bounds κ}
    (same : SameNodes σ σ') : Anchors (⟨σ, dist, b⟩ : World κ V) ⟨σ', dist, b⟩ where
  nbNode_le := same.nbNode.ge
  isValue n _ := same.isValue n
  loaded n _ := same.loaded n
  lo _ _ := rfl
  hi _ _ _ := rfl

omit [LinearOrder κ] in
theorem Anchors.anchored (anchors : Anchors w w') (here : Anchored w n) : Anchored w' n where
  lt := Nat.lt_of_lt_of_le here.lt anchors.nbNode_le
  isValue := (anchors.isValue n here.lt).trans here.isValue
  pinned := here.pinned.imp_right (anchors.loaded n here.lt)

theorem Anchors.holds_iff (anchors : Anchors w w') (here : Anchored w n) {k : κ} :
    w'.bounds.Holds n k ↔ w.bounds.Holds n k := by
  rw [Bounds.Holds, Bounds.Holds, anchors.lo n here.lt, anchors.hi n here.lt here.pinned]

/-- The fat root and the copies select anchored nodes that are responsible for the key. -/
structure Routed (name : ι → κ) (snapshot : Snapshot ι) (w : World κ V) : Prop where
  fat_step : ∀ a, ∃ n, snapshot.fat.childFor a = some n ∧ Anchored w n ∧
    w.bounds.Holds n (name a)
  node : ∀ entry ∈ snapshot.entries, Anchored w entry.node
  entry_step : ∀ entry ∈ snapshot.entries, ∀ a, w.bounds.Holds entry.node (name a) →
    ∃ c, entry.childFor a = some c ∧ Anchored w c ∧ w.bounds.Holds c (name a)

/-- A fat key is the left end of the node that it leads to. -/
theorem Partition.lo_of_mem_tail [Inhabited V] [OrderBot κ] {M depthLimit : Nat}
    {history : List (κ × V)}
    {nodeVec : List (Nat × κ)} (partition : Partition w depthLimit nodeVec) (strict : Strict w)
    (sound : Sound M w history) (sorted : nodeVec.Pairwise (fun p q => p.2 ≤ q.2))
    {q : Nat × κ} (hq : q ∈ nodeVec.tail) : w.bounds.lo q.1 = q.2 := by
  cases nodeVec with
  | nil => cases hq
  | cons p rest =>
      have hfirst : p.1 ≠ q.1 := fun heq =>
        (List.nodup_cons.mp partition.nodup).1 (heq ▸ List.mem_map_of_mem hq)
      exact (partition.hi_le_key strict sound List.mem_cons_self (List.mem_cons_of_mem _ hq) hfirst
        ((List.pairwise_cons.mp sorted).1 q hq)).2

section Routed

variable {name : ι → κ} {snapshot : Snapshot ι}

/-- A snapshot that routes goes on routing. -/
theorem Routed.mono (routed : Routed name snapshot w) (anchors : Anchors w w') :
    Routed name snapshot w' := by
  constructor
  case fat_step =>
    intro a
    obtain ⟨n, hstep, here, holds⟩ := routed.fat_step a
    exact ⟨n, hstep, anchors.anchored here, (anchors.holds_iff here).mpr holds⟩
  case node => exact fun entry hentry => anchors.anchored (routed.node entry hentry)
  case entry_step =>
    intro entry hentry a holds
    have hold := (anchors.holds_iff (routed.node entry hentry)).mp holds
    obtain ⟨c, hstep, here, hchild⟩ := routed.entry_step entry hentry a hold
    exact ⟨c, hstep, anchors.anchored here, (anchors.holds_iff here).mpr hchild⟩

/-- A walk through any copies ends at a node that is responsible for the key. -/
theorem anchored_of_walks {files : List (Snapshot ι)}
    (routed : ∀ snapshot ∈ files, Routed name snapshot w) {a : ι} (walks : Walks files a n) :
    Anchored w n ∧ w.bounds.Holds n (name a) := by
  induction walks with
  | fat mem step =>
      obtain ⟨m, hstep, here, holds⟩ := (routed _ mem).fat_step a
      obtain rfl := Option.some.inj (hstep.symm.trans step)
      exact ⟨here, holds⟩
  | entry walks mem hentry step ih =>
      obtain ⟨c, hstep, here, holds⟩ := (routed _ mem).entry_step _ hentry a ih.2
      obtain rfl := Option.some.inj (hstep.symm.trans step)
      exact ⟨here, holds⟩

/-- What a load prints routes, once its nodes are marked. -/
theorem Faithful.routed [Inhabited V] [OrderBot ι] [OrderBot κ] {M : Nat} {history : List (κ × V)}
    (mono : StrictMono name) (faithful : Faithful (snapshot.map name) w) (sound : Sound M w history)
    (inner : ∀ entry ∈ (snapshot.map name).entries, (w.state.pool entry.node).IsInner) :
    Routed name snapshot
      (⟨markLoaded w.state snapshot.loaded, w.dist, w.bounds⟩ : World κ V) := by
  have shape := sound.shape
  have here : ∀ n ∈ snapshot.loaded, n < w.state.nbNode → (w.state.pool n).isValue = false →
      Anchored (⟨markLoaded w.state snapshot.loaded, w.dist, w.bounds⟩ : World κ V) n := by
    intro n hn hlt hval
    refine ⟨hlt, ?_, Or.inr ?_⟩ <;> simp [markLoaded, hn, hval]
  have copied : ∀ entry ∈ snapshot.entries,
      entry.map name ∈ (snapshot.map name).entries := by
    intro entry hentry
    rw [Snapshot.entries_map]
    exact List.mem_map_of_mem hentry
  constructor
  case fat_step =>
    intro a
    obtain ⟨n, hstep, holds⟩ := faithful.fat_step (name a)
    have hmem : n ∈ snapshot.fat.children := List.mem_of_getElem? hstep
    refine ⟨n, (snapshot.fat.childFor_map mono a).symm.trans hstep, ?_, holds⟩
    exact here n (Snapshot.mem_loaded.mpr (Or.inr (Or.inl hmem))) (faithful.fat_lt n hmem)
      (faithful.fat_isValue n hmem)
  case node =>
    intro entry hentry
    have hmem := copied entry hentry
    exact here entry.node (Snapshot.mem_loaded.mpr (Or.inr (Or.inr ⟨entry, hentry, Or.inl rfl⟩)))
      (faithful.lt _ hmem) (inner _ hmem).2
  case entry_step =>
    intro entry hentry a holds
    have hmem := copied entry hentry
    have hinner : (w.state.pool entry.node).IsInner := inner _ hmem
    obtain ⟨c, hc, hchild⟩ := shape.childFor_inner hinner (name a)
    have hstep : (entry.map name).childFor (name a) = some c := by
      rw [faithful.copied _ hmem]
      exact (nodeEntry_childFor sound.ordered entry.node (name a)).trans hc
    have hloaded : c ∈ entry.children := List.mem_of_getElem? hstep
    refine ⟨c, (entry.childFor_map mono a).symm.trans hstep, ?_,
      sound.ordered.holds_childFor hinner holds hc⟩
    exact here c (Snapshot.mem_loaded.mpr (Or.inr (Or.inr ⟨entry, hentry, Or.inr hloaded⟩)))
      (shape.child_lt _ c hchild) (shape.inner_child _ c hinner hchild)

end Routed

end FatBTree.Switch
