import FatBTree.Rdma.Read
import FatBTree.Switch.Snapshot
import Mathlib.Algebra.Group.Nat.Defs
import Mathlib.Order.Nat

/-!
# `load2switch_greedy` of the RDMA backend

The first layer below the fat root is always printed and the others go down to
`depth - root_load_depth`, so with a root of depth three the last layer may
copy leaves.  A later insertion changes such a leaf in place while the switch
keeps its copy.
-/

namespace FatBTree.Rdma

open FatBTree.Order FatBTree.Tree FatBTree.Switch

variable {κ V : Type} [LinearOrder κ] [OrderBot κ] [Inhabited V]

/-- The arguments of `load2switch_greedy`, and how its sorts and its queue break
ties. -/
structure LoadArgs where
  rootLoadNum : Nat
  rootLoadDepth : Nat
  regularLoadNum : Nat
  regularLoadDepth : Nat
  ties : Ties

/-- `min(depth - root_load_depth, regular_load_depth)`, in 32 bits. -/
def lastLayer (σ : State κ V) (args : LoadArgs) : Nat :=
  min ((σ.depth + 2 ^ 32 - args.rootLoadDepth) % 2 ^ 32) args.regularLoadDepth

/-- The layer of the frontier and the layers from 2 to `lastLayer`. -/
def layersOf (σ : State κ V) (args : LoadArgs) (nodeVec : List (Nat × κ)) : List (List Nat) :=
  layersFrom σ args.ties args.regularLoadNum 1 (max 1 (lastLayer σ args))
    (capLayer σ args.ties args.regularLoadNum 1 (nodeVec.map Prod.fst))

/-- `load2switch_greedy`.  `cached_nodes` has `depth` layers; a use of a layer
beyond them is `none`. -/
def load2switchGreedy (M : Nat) (σ : State κ V) (args : LoadArgs) :
    Option (Snapshot κ × State κ V) :=
  if σ.depth < 2 ∨ σ.depth ≤ lastLayer σ args then none
  else
    match frontier M σ args.ties args.rootLoadNum args.rootLoadDepth with
    | none => none
    | some nodeVec =>
        let snapshot := printed σ nodeVec (layersOf σ args nodeVec)
        some (snapshot, markLoaded σ snapshot.loaded)

/-- What the server does with the tree besides loading: `handle_insert`, and the
access counters that `handle_query` advances. -/
inductive ServerCall (κ V : Type) where
  | insert (inKey : κ) (inVal : V)
  | visit (n : Nat)
  deriving DecidableEq

def ServerCall.toCall : ServerCall κ V → Call κ V
  | .insert inKey inVal => .insert inKey inVal
  | .visit n => .visit n

/-- The state after a sequence of server calls. -/
def serve (M : Nat) (calls : List (ServerCall κ V)) (σ : State κ V) : Option (State κ V) :=
  run M rdma (calls.map ServerCall.toCall) σ

/-- The pairs that server calls insert, oldest first. -/
def insertedPairs (calls : List (ServerCall κ V)) : List (κ × V) :=
  insertions (calls.map ServerCall.toCall)

/-- A leaf that the switch holds a copy of: it is marked, and so is every value
node below it. -/
def LoadedLeaf (σ : State κ V) (n : Nat) : Prop :=
  (σ.pool n).isLeaf = true ∧ (σ.pool n).isLoaded2Switch = true ∧
    ∀ c ∈ (σ.pool n).child, (σ.pool c).isLoaded2Switch = true

instance (σ : State κ V) (n : Nat) : Decidable (LoadedLeaf σ n) :=
  inferInstanceAs (Decidable (_ ∧ _ ∧ _))

/-- The call inserts into a leaf that the switch holds a copy of. -/
def ArrivesAtLoadedLeaf (σ : State κ V) : ServerCall κ V → Prop
  | .insert inKey _ => ∃ leaf ∈ descendToLeaf σ inKey σ.nbNode root, LoadedLeaf σ leaf
  | .visit _ => False

instance (σ : State κ V) : (call : ServerCall κ V) → Decidable (ArrivesAtLoadedLeaf σ call)
  | .insert _ _ => Option.decidableExistsMem _
  | .visit _ => isFalse id

/-- No call of the sequence does so. -/
def AvoidsLoadedLeaves (M : Nat) : List (ServerCall κ V) → State κ V → Prop
  | [], _ => True
  | call :: calls, σ =>
      ¬ ArrivesAtLoadedLeaf σ call ∧
        ∀ σ' ∈ call.toCall.apply M rdma σ, AvoidsLoadedLeaves M calls σ'

instance decidableAvoids (M : Nat) :
    (calls : List (ServerCall κ V)) → (σ : State κ V) →
      Decidable (AvoidsLoadedLeaves M calls σ)
  | [], _ => isTrue trivial
  | call :: calls, σ =>
      have : DecidablePred (AvoidsLoadedLeaves M calls) := fun σ' => decidableAvoids M calls σ'
      inferInstanceAs (Decidable (¬ ArrivesAtLoadedLeaf σ call ∧
        ∀ σ' ∈ call.toCall.apply M rdma σ, AvoidsLoadedLeaves M calls σ'))

/-! ## What a load prints -/

section Snapshots

variable {M : Nat} {w : World κ V} {history : List (κ × V)} {args : LoadArgs}

omit [LinearOrder κ] [OrderBot κ] in
theorem lt_of_mem_layersOf (args : LoadArgs) {σ : State κ V} {dist : Nat → Nat}
    (shape : Shape σ dist) {nodeVec : List (Nat × κ)} (hlt : ∀ p ∈ nodeVec, p.1 < σ.nbNode) :
    ∀ layer ∈ layersOf σ args nodeVec, ∀ n ∈ layer, n < σ.nbNode :=
  lt_of_mem_layersFrom shape fun n hn => by
    obtain ⟨p, hp, rfl⟩ := List.mem_map.mp (mem_capLayer hn)
    exact hlt p hp

omit [LinearOrder κ] [OrderBot κ] [Inhabited V] in
theorem lastLayer_le {σ : State κ V} (hargs : args.rootLoadDepth ≤ σ.depth) :
    lastLayer σ args ≤ σ.depth - args.rootLoadDepth := by
  have hwrap : σ.depth + 2 ^ 32 - args.rootLoadDepth = σ.depth - args.rootLoadDepth + 2 ^ 32 := by
    omega
  rw [lastLayer, hwrap, Nat.add_mod_right]
  exact (min_le_left _ _).trans (Nat.mod_le _ _)

/-- A load with a root depth within the tree succeeds. -/
theorem load2switchGreedy_printed (sound : Sound M w history) (hdepth : 2 ≤ w.state.depth)
    (hpos : 0 < args.rootLoadDepth) (hargs : args.rootLoadDepth ≤ w.state.depth) :
    ∃ nodeVec, Partition w args.rootLoadDepth nodeVec ∧
      nodeVec.Pairwise (fun p q => p.2 ≤ q.2) ∧
      load2switchGreedy M w.state args =
        some (printed w.state nodeVec (layersOf w.state args nodeVec),
          markLoaded w.state (printed w.state nodeVec (layersOf w.state args nodeVec)).loaded) := by
  obtain ⟨nodeVec, hfrontier, hpartition, hsorted⟩ :=
    frontier_eq sound args.ties args.rootLoadNum (sound.inner_root hdepth) hpos
  have hlast := lastLayer_le hargs
  have hfits : ¬ (w.state.depth < 2 ∨ w.state.depth ≤ lastLayer w.state args) := by omega
  refine ⟨nodeVec, hpartition, hsorted, ?_⟩
  rw [load2switchGreedy, if_neg hfits, hfrontier]

/-- No copied node is a value node. -/
theorem isValue_of_mem_layersOf (sound : Sound M w history) (hdepth : 3 ≤ w.state.depth)
    (hargs : args.rootLoadDepth = 3) {nodeVec : List (Nat × κ)}
    (partition : Partition w 3 nodeVec) :
    ∀ entry ∈ (printed w.state nodeVec (layersOf w.state args nodeVec)).entries,
      (w.state.pool entry.node).isValue = false := by
  have shape := sound.shape
  have hlast := lastLayer_le (hargs.trans_le hdepth)
  rw [hargs] at hlast
  intro entry hentry
  obtain ⟨layer, hlayer, n, hn, rfl⟩ := mem_entries_printed.mp hentry
  obtain ⟨-, -, -, -, hval, -⟩ := layersFrom_induction
    (fun i n => 1 ≤ i ∧ n < w.state.nbNode ∧ (w.state.pool n).isValue = false ∧
      w.dist n ≤ i + 2)
    (Nat.le_refl _)
    (fun m hm => by
      obtain ⟨p, hp, rfl⟩ := List.mem_map.mp (mem_capLayer hm)
      exact ⟨Nat.le_refl 1, partition.lt p hp, partition.isValue p hp, partition.shallow p hp⟩)
    (fun i p c hi holding hchild => by
      obtain ⟨hfirst, hlt, hval, hdist⟩ := holding
      -- a layer that is not the last one lies above the leaves
      have hinner := sound.inner_of_dist_lt hlt hval (by omega)
      refine ⟨by omega, shape.child_lt p c hchild, shape.inner_child p c hinner hchild, ?_⟩
      rw [shape.dist_child p c hchild]
      omega)
    layer hlayer n hn
  exact hval

/-- The load of a tree of at least three levels succeeds; it marks what it prints. -/
theorem load2switchGreedy_eq (sound : Sound M w history) (strict : Strict w)
    (hdepth : 3 ≤ w.state.depth) (hargs : args.rootLoadDepth = 3) :
    ∃ snapshot, load2switchGreedy M w.state args =
        some (snapshot, markLoaded w.state snapshot.loaded) ∧
      Faithful snapshot w ∧ (∀ n ∈ snapshot.loaded, n < w.state.nbNode) ∧
      ∀ entry ∈ snapshot.entries, (w.state.pool entry.node).isValue = false := by
  obtain ⟨nodeVec, hpartition, hsorted, hload⟩ :=
    load2switchGreedy_printed sound (show 2 ≤ w.state.depth by omega)
      (show 0 < args.rootLoadDepth by omega) (hargs.trans_le hdepth)
  rw [hargs] at hpartition
  have hlayers := lt_of_mem_layersOf args sound.shape hpartition.lt
  exact ⟨printed w.state nodeVec (layersOf w.state args nodeVec), hload,
    faithful_printed sound strict hpartition hsorted hlayers,
    loaded_printed_lt sound.shape hpartition.lt hlayers,
    isValue_of_mem_layersOf sound hdepth hargs hpartition⟩

end Snapshots

/-! ## After the load -/

/-- What later calls keep from the tree `start` that was loaded. -/
structure SinceLoad (start w : World κ V) : Prop where
  keeps : Keeps start w
  values : ∀ k c, ValueNodeOf start.state k c → ValueNodeOf w.state k c
  leaves : ∀ n, n < start.state.nbNode → LoadedLeaf start.state n →
    (w.state.pool n).isLeaf = true ∧ (w.state.pool n).key = (start.state.pool n).key ∧
      (w.state.pool n).child = (start.state.pool n).child

omit [OrderBot κ] [Inhabited V] in
theorem SinceLoad.refl (start : World κ V) : SinceLoad start start :=
  ⟨Keeps.refl start, fun _ _ hangs => hangs, fun _ _ loaded => ⟨loaded.1, rfl, rfl⟩⟩

omit [OrderBot κ] [Inhabited V] in
theorem SinceLoad.same {start : World κ V} {σ σ' : State κ V} {dist : Nat → Nat} {b : Bounds κ}
    (since : SinceLoad start ⟨σ, dist, b⟩) (same : SameTree σ σ') :
    SinceLoad start ⟨σ', dist, b⟩ := by
  refine ⟨since.keeps.trans (same.keeps dist b),
    fun k c hangs => same.valueNodeOf.mpr (since.values k c hangs), fun n hlt loaded => ?_⟩
  obtain ⟨hleaf, hkey, hchild⟩ := since.leaves n hlt loaded
  exact ⟨(same.isLeaf n).trans hleaf, (same.key n).trans hkey, (same.child n).trans hchild⟩

omit [OrderBot κ] in
/-- A leaf the switch holds a copy of is still one. -/
theorem SinceLoad.loadedLeaf {start w : World κ V} (since : SinceLoad start w) {M : Nat}
    {history : List (κ × V)} (sound : Sound M start history) {n : Nat}
    (hlt : n < start.state.nbNode) (loaded : LoadedLeaf start.state n) :
    LoadedLeaf w.state n := by
  obtain ⟨hleaf, -, hchild⟩ := since.leaves n hlt loaded
  refine ⟨hleaf, since.keeps.loaded n hlt loaded.2.1, fun c hc => ?_⟩
  rw [hchild] at hc
  exact since.keeps.loaded c (sound.shape.child_lt n c hc) (loaded.2.2 c hc)

section Later

variable {M : Nat} [NodeOrder M] {start w : World κ V} {before history : List (κ × V)}

/-- An insertion that arrives at no copied leaf keeps what was loaded, and none
of the copied leaves is responsible for its key. -/
theorem SinceLoad.insert_eq (since : SinceLoad start w) (sound : Sound M start before)
    (settled : Settled M w history) (strict : Strict w) {k : κ} (v : V)
    (hnew : k ∉ keysOf history)
    (avoids : ¬ ArrivesAtLoadedLeaf w.state (.insert k v)) :
    (∃ w', insert M rdma w.state k v = some w'.state ∧ Settled M w' ((k, v) :: history) ∧
      Strict w' ∧ SinceLoad start w') ∧
    ∀ n, n < start.state.nbNode → LoadedLeaf start.state n → ¬ start.bounds.Holds n k := by
  have shape := settled.shape
  obtain ⟨leaf, hdescend, hlt, hleaf, holds⟩ :=
    settled.ordered.descendToLeaf_eq shape w.state.nbNode shape.root_lt
      shape.root_isValue (settled.ordered.holds_root k) (by omega)
  have hunique : ∀ n, n < w.state.nbNode → (w.state.pool n).isLeaf = true →
      w.bounds.Holds n k → n = leaf :=
    fun n hn hnleaf hnholds => settled.ordered.leaf_unique shape hn hlt hnleaf hleaf hnholds holds
  have helse : ∀ n, n < start.state.nbNode → LoadedLeaf start.state n →
      n < w.state.nbNode ∧ ¬ w.bounds.Holds n k := by
    intro n hn loaded
    have hn' := Nat.lt_of_lt_of_le hn since.keeps.nbNode_le
    refine ⟨hn', fun hnholds => ?_⟩
    have heq := hunique n hn' (since.leaves n hn loaded).1 hnholds
    exact avoids ⟨leaf, hdescend, heq ▸ since.loadedLeaf sound hn loaded⟩
  constructor
  · have hvalues : StepClosed rdma M ((k, rdma.storeVal v default) :: history) k
        (fun w => ∀ x c, ValueNodeOf start.state x c → ValueNodeOf w.state x c) :=
      .all rdma fun x => .all rdma fun c => .all rdma fun _ => stepClosed_valueNodeOf rdma x c
    have hleaves : StepClosed rdma M ((k, rdma.storeVal v default) :: history) k
        (fun w => ∀ n, n < start.state.nbNode → LoadedLeaf start.state n →
          Untouched n (start.state.pool n).key (start.state.pool n).child k w) :=
      .all rdma fun n => .all rdma fun _ => .all rdma fun _ => stepClosed_untouched rdma n _ _
    obtain ⟨w', hinsert, hsettled, hkeeps, hstrict, hvalues', hleaves'⟩ :=
      settled.insert_rec rdma k v
        ((stepClosed_keeps rdma w).and rdma
          ((stepClosed_strict rdma).and rdma (hvalues.and rdma hleaves)))
        (fun cur hcur hcurLeaf hcurHolds => by
          refine ⟨keeps_insertIntoLeaf rdma w.dist w.bounds k v, ?_, ?_, ?_⟩
          · exact strict.grown rdma v hcur hcurLeaf hcurHolds
              (fun hmem => hnew (settled.contents.recorded cur k hcurLeaf hmem))
          · exact fun x c hangs => (since.values x c hangs).grown rdma shape cur k v
          · intro n hn loaded
            obtain ⟨hn', hnot⟩ := helse n hn loaded
            obtain ⟨hnleaf, hkey, hchild⟩ := since.leaves n hn loaded
            refine Untouched.grown rdma ⟨hn', hnleaf, hkey, hchild, hnot⟩ v ?_
            rintro rfl
            exact hnot hcurHolds)
    refine ⟨w', hinsert, hsettled, hstrict, since.keeps.trans hkeeps, hvalues', ?_⟩
    intro n hn loaded
    obtain ⟨-, hnleaf, hkey, hchild, -⟩ := hleaves' n hn loaded
    exact ⟨hnleaf, hkey, hchild⟩
  · intro n hn loaded hnholds
    obtain ⟨-, hnot⟩ := helse n hn loaded
    exact hnot ((since.keeps.holds_iff hn (Or.inr loaded.2.1)).mpr hnholds)

/-- The same for a sequence of calls. -/
theorem SinceLoad.serve_eq (since : SinceLoad start w) (sound : Sound M start before)
    (settled : Settled M w history) (strict : Strict w) (calls : List (ServerCall κ V))
    (distinct : (keysOf (insertedPairs calls)).Nodup)
    (hnew : ∀ k ∈ keysOf (insertedPairs calls), k ∉ keysOf history)
    (avoids : AvoidsLoadedLeaves M calls w.state) :
    (∃ w', serve M calls w.state = some w'.state ∧
      Settled M w' ((insertedPairs calls).reverse ++ history) ∧ Strict w' ∧
      SinceLoad start w') ∧
    ∀ k ∈ keysOf (insertedPairs calls), ∀ n, n < start.state.nbNode →
      LoadedLeaf start.state n → ¬ start.bounds.Holds n k := by
  induction calls generalizing w history with
  | nil => exact ⟨⟨w, rfl, settled, strict, since⟩, fun k hk => by cases hk⟩
  | cons call calls ih =>
      obtain ⟨hfirst, hrest⟩ := avoids
      cases call with
      | insert inKey inVal =>
          have hparts := List.nodup_cons.mp distinct
          obtain ⟨⟨next, hinsert, hsettled, hstrict, hsince⟩, hnot⟩ :=
            since.insert_eq sound settled strict inVal (hnew inKey List.mem_cons_self)
              hfirst
          obtain ⟨⟨last, hserve, hlast⟩, hnots⟩ := ih hsince hsettled hstrict hparts.2
            (fun k hk hmem => by
              rcases List.mem_cons.mp hmem with rfl | hold
              · exact hparts.1 hk
              · exact hnew k (List.mem_cons_of_mem _ hk) hold)
            (hrest next.state hinsert)
          constructor
          · refine ⟨last, ?_, ?_⟩
            · simp only [serve, List.map_cons, run, ServerCall.toCall, Call.apply, hinsert]
              exact hserve
            · simpa [insertedPairs, ServerCall.toCall, insertions] using hlast
          · intro k hk
            rcases List.mem_cons.mp hk with rfl | hk'
            · exact hnot
            · exact hnots k hk'
      | visit n =>
          have hvisit : ∃ σ', Call.apply M rdma w.state (.visit n) = some σ' ∧
              SameTree w.state σ' := by
            refine ⟨_, rfl, ?_⟩
            split_ifs with hn
            · exact sameTree_touch hn
            · exact SameTree.refl _
          obtain ⟨σ', happly, hsame⟩ := hvisit
          obtain ⟨⟨last, hserve, hlast⟩, hnots⟩ :=
            ih (w := ⟨σ', w.dist, w.bounds⟩) (since.same hsame) (hsame.settled settled)
              (hsame.strict strict) distinct hnew (hrest σ' happly)
          refine ⟨⟨last, ?_, hlast⟩, hnots⟩
          simp only [serve, List.map_cons, run, ServerCall.toCall, happly]
          exact hserve

end Later

/-! ## Routing and reading -/

omit [LinearOrder κ] [OrderBot κ] in
theorem storedHistory_rdma (calls : List (Call κ V)) :
    storedHistory rdma calls = (insertions calls).reverse := by
  simp [storedHistory, rdma]

omit [LinearOrder κ] [OrderBot κ] [Inhabited V] in
theorem insertedPairs_append (calls later : List (ServerCall κ V)) :
    insertedPairs (calls ++ later) = insertedPairs calls ++ insertedPairs later := by
  rw [insertedPairs, List.map_append, insertions_append]
  rfl

/-- A snapshot of a tree of three levels or more routes every key to a node from
which `RDMARead` finds its value, as long as no insertion after the load arrives
at a leaf that the load copied. -/
theorem snapshot_valid_of_avoids (before : List (ServerCall κ V)) {σ : State κ V}
    (hbefore : serve 16 before State.empty = some σ) (hdepth : 3 ≤ σ.depth)
    (later : List (ServerCall κ V))
    (distinct : (keysOf (insertedPairs (before ++ later))).Nodup) (args : LoadArgs)
    (hargs : args.rootLoadDepth = 3) :
    ∃ snapshot loaded, load2switchGreedy 16 σ args = some (snapshot, loaded) ∧
      (AvoidsLoadedLeaves 16 later loaded → ∃ σ', serve 16 later loaded = some σ' ∧
        ∀ k v, (k, v) ∈ insertedPairs (before ++ later) → ∀ steps, ∃ n c,
          snapshot.route k steps = some n ∧ rdmaRead σ' k n = some c ∧
          ValueNodeOf σ' k c ∧ (σ'.pool c).val = v) := by
  rw [insertedPairs_append] at distinct ⊢
  rw [keysOf, List.map_append] at distinct
  obtain ⟨hbeforeKeys, hlaterKeys, hdisjoint⟩ := List.nodup_append.mp distinct
  -- the tree that is loaded
  obtain ⟨w, hrun, hsettled, -, hstrict⟩ := (settled_empty (M := 16)).run_strict rdma
    strict_empty (before.map ServerCall.toCall) hbeforeKeys (fun _ _ hmem => by cases hmem)
  rw [serve, hrun] at hbefore
  cases hbefore
  rw [List.append_nil, storedHistory_rdma] at hsettled
  obtain ⟨snapshot, hload, hfaithful, hlt, hval⟩ :=
    load2switchGreedy_eq hsettled.toSound hstrict hdepth hargs
  refine ⟨snapshot, _, hload, fun avoids => ?_⟩
  -- the marked tree, and the tree after the later calls
  have hsame : SameTree w.state (markLoaded w.state snapshot.loaded) := sameTree_markLoaded hlt
  have hmarked : ∀ n ∈ snapshot.loaded,
      ((markLoaded w.state snapshot.loaded).pool n).isLoaded2Switch = true := by
    intro n hn
    simp [markLoaded, hn]
  have hsettled1 : Settled 16 ⟨_, w.dist, w.bounds⟩ _ := hsame.settled hsettled
  obtain ⟨⟨w', hserve, hsettled', hstrict', hsince⟩, hnot⟩ :=
    (SinceLoad.refl _).serve_eq hsettled1.toSound hsettled1 (hsame.strict hstrict) later
      hlaterKeys (fun k hk hmem => by
        rw [keysOf, List.map_reverse, List.mem_reverse] at hmem
        exact hdisjoint k hmem k hk rfl) avoids
  refine ⟨w'.state, hserve, fun k v hmem steps => ?_⟩
  have hpairs : (k, v) ∈ (insertedPairs later).reverse ++
      (insertions (before.map ServerCall.toCall)).reverse := by
    rw [← List.reverse_append, List.mem_reverse]
    exact hmem
  have hnodup : (keysOf ((insertedPairs later).reverse ++
      (insertions (before.map ServerCall.toCall)).reverse)).Nodup := by
    rw [← List.reverse_append, keysOf, List.map_reverse, List.nodup_reverse, List.map_append]
    exact distinct
  have hlookup := lookup_of_mem hnodup hpairs
  rcases hfaithful.route_cases hsettled.toSound hval k steps with
    ⟨n, hroute, hn, hnlt, hnval, holds⟩ | ⟨entry, hentry, hleaf, holds, hroute⟩
  · -- a marked node stays responsible for the key
    have hnlt' : n < (markLoaded w.state snapshot.loaded).nbNode := hsame.nbNode.symm ▸ hnlt
    obtain ⟨c, hread, hangs, hvalue⟩ := rdmaRead_eq hsettled'.toSound
      (List.mem_map_of_mem (f := Prod.fst) hpairs)
      (Nat.lt_of_lt_of_le hnlt' hsince.keeps.nbNode_le)
      ((hsince.keeps.isValue n hnlt').trans ((hsame.isValue n).trans hnval))
      ((hsince.keeps.holds_iff hnlt' (Or.inr (hmarked n hn))).mpr holds)
    rw [hlookup] at hvalue
    exact ⟨n, c, hroute, hread, hangs, (Option.some.inj hvalue).symm⟩
  · -- the copy of a leaf still has the key of every value node it leads to
    have hloaded : LoadedLeaf (markLoaded w.state snapshot.loaded) entry.node := by
      refine ⟨(hsame.isLeaf entry.node).trans hleaf, hmarked _ ?_, fun c hc => hmarked c ?_⟩
      · exact Snapshot.mem_loaded.mpr (Or.inr (Or.inr ⟨entry, hentry, Or.inl rfl⟩))
      · rw [hsame.child] at hc
        refine Snapshot.mem_loaded.mpr (Or.inr (Or.inr ⟨entry, hentry, Or.inr ?_⟩))
        rw [hfaithful.copied entry hentry]
        exact hc
    have hlt' := hfaithful.lt entry hentry
    have hold : k ∈ keysOf (insertions (before.map ServerCall.toCall)).reverse := by
      rw [keysOf, List.map_reverse, List.mem_reverse]
      rcases List.mem_append.mp hmem with hfirst | hsecond
      · exact List.mem_map_of_mem hfirst
      · exact absurd holds (hnot k (List.mem_map_of_mem hsecond) entry.node
          (hsame.nbNode.symm ▸ hlt') hloaded)
    obtain ⟨c, hc, hangs, -⟩ :=
      hsettled.toSound.valueNodeOf_childFor hlt' hleaf holds hold
    have hangs' := hsince.values k c (hsame.valueNodeOf.mpr hangs)
    have hvalue := hstrict'.lookup_of_valueNodeOf hsettled'.toSound hangs'
    rw [hlookup] at hvalue
    exact ⟨c, c, hroute.trans hc,
      rdmaRead_value (hsettled'.toSound.lt_of_valueNodeOf hangs').2, hangs',
      (Option.some.inj hvalue).symm⟩

/-- A load of a tree of three levels that copies its two inner nodes only, and
one more insertion. -/
theorem snapshot_valid_of_avoids_inner :
    ∃ σ ∈ serve 16 ((List.range 136).map (fun i => .insert i i)) (State.empty : State Nat Nat),
      ∃ p ∈ load2switchGreedy 16 σ ⟨17, 3, 100, 2 ^ 32 - 1, ⟨fun _ n => n, fun _ n => n⟩⟩,
      ∃ σ' ∈ serve 16 [.insert 1000 1000] p.2, ∃ n c,
        p.1.route 1000 1 = some n ∧ rdmaRead σ' 1000 n = some c ∧
          ValueNodeOf σ' 1000 c ∧ (σ'.pool c).val = 1000 := by
  have hrun : ∃ σ ∈ serve 16 ((List.range 136).map (fun i => .insert i i))
      (State.empty : State Nat Nat), 3 ≤ σ.depth ∧
      ∃ p ∈ load2switchGreedy 16 σ ⟨17, 3, 100, 2 ^ 32 - 1, ⟨fun _ n => n, fun _ n => n⟩⟩,
        AvoidsLoadedLeaves 16 [.insert 1000 1000] p.2 := by
    decide +kernel
  obtain ⟨σ, hσ, hdepth, ⟨snapshot, loaded⟩, hload, havoids⟩ := hrun
  obtain ⟨snapshot', loaded', hload', hvalid⟩ := snapshot_valid_of_avoids _ hσ hdepth
    [.insert 1000 1000] (by decide +kernel)
    ⟨17, 3, 100, 2 ^ 32 - 1, ⟨fun _ n => n, fun _ n => n⟩⟩ rfl
  cases hload.symm.trans hload'
  obtain ⟨σ', hserve, hreads⟩ := hvalid havoids
  exact ⟨σ, hσ, ⟨snapshot, loaded⟩, hload, σ', hserve,
    hreads 1000 1000 (by decide +kernel) 1⟩

/-- The even keys up to 270 are inserted before the load and the key 5 after it.
The copy of a leaf leads from 5 to the value node of 6. -/
theorem snapshot_valid_wrong :
    ∃ σ ∈ serve 16 ((List.range 136).map (fun i => .insert (2 * i) (2 * i)))
        (State.empty : State Nat Nat), σ.depth = 3 ∧
      ∃ p ∈ load2switchGreedy 16 σ ⟨600, 3, 3600, 2 ^ 32 - 1, ⟨fun _ n => n, fun _ n => n⟩⟩,
      ∃ σ' ∈ serve 16 [.insert 5 5] p.2, ∃ n ∈ p.1.route 5 1,
      ∃ c ∈ rdmaRead σ' 5 n, (σ'.pool c).val = 6 := by
  decide +kernel

end FatBTree.Rdma
