import FatBTree.Rdma.Read
import FatBTree.Tree.Way
import Mathlib.Order.Nat

/-!
# One-sided reads under concurrent insertions

The server inserts other keys between the reads of a traversal.  The node whose
address the client holds may be split in place meanwhile; the client then finds
the left half, and a key above the separator is gone from it.  Nothing else can
go wrong: as long as the node keeps the key, the traversal ends at the value
node of the key.
-/

namespace FatBTree.Rdma

open FatBTree.Order FatBTree.Tree

variable {κ V : Type} [LinearOrder κ] [Inhabited V]

/-! ## The client and the server -/

/-- What the client knows between two reads. -/
inductive Client where
  /-- It will read the node at this address next. -/
  | pending (addr : Nat)
  /-- It has read this value node. -/
  | done (addr : Nat)
  /-- It has used a child index at or beyond the size of a node. -/
  | failed
  deriving DecidableEq

/-- One `read_remote_node` and the search in the node that was read. -/
def Client.read (σ : State κ V) (k : κ) : Client → Client
  | .pending addr =>
      if (σ.pool addr).isValue then .done addr
      else
        match childFor (σ.pool addr) k with
        | none => .failed
        | some next => .pending next
  | .done addr => .done addr
  | .failed => .failed

/-- Complete `insert` calls, one after the other. -/
def insertAll (M : Nat) : List (κ × V) → State κ V → Option (State κ V)
  | [], σ => some σ
  | (inKey, inVal) :: batch, σ =>
      match insert M rdma σ inKey inVal with
      | none => none
      | some σ' => insertAll M batch σ'

/-- A traversal of `k`: the server runs the first batch before the first read,
the second one before the second read, and so on. -/
def traverse (M : Nat) (k : κ) :
    List (List (κ × V)) → State κ V → Client → Option (State κ V × Client)
  | [], σ, client => some (σ, client)
  | batch :: batches, σ, client =>
      match insertAll M batch σ with
      | none => none
      | some σ' => traverse M k batches σ' (client.read σ' k)

/-! ## Splits in place, seen before the insertion -/

/-- The nodes that `overflow` will split in place, from `cur` upwards, each with
the separator it will hand to its parent; `keys` is what `cur` holds by then. -/
def splitChain (M : Nat) (σ : State κ V) : Nat → Nat → List κ → List (Nat × κ)
  | 0, _, _ => []
  | fuel + 1, cur, keys =>
      if M ≤ keys.length ∧ ¬ Pinned σ cur then
        match (σ.pool cur).parent, keys[M / 2]?, keys[cutAt M (σ.pool cur) - 1]? with
        | some parent, some probe, some separator =>
            (cur, separator) :: splitChain M σ fuel parent
              ((σ.pool parent).key.insertIdx
                (lowerBound (σ.pool parent).key probe) separator)
        | _, _, _ => []
      else []

/-- The splits in place of the insertion of `inKey`. -/
def splitsOf (M : Nat) (σ : State κ V) (inKey : κ) : List (Nat × κ) :=
  match descendToLeaf σ inKey σ.nbNode root with
  | none => []
  | some leaf =>
      splitChain M σ (σ.nbNode + 1) leaf
        ((σ.pool leaf).key.insertIdx (lowerBound (σ.pool leaf).key inKey) inKey)

/-- The insertion does not split the node at `addr` below `k`. -/
def LeavesPending (M : Nat) (σ : State κ V) (inKey k : κ) (addr : Nat) : Prop :=
  ∀ separator, (addr, separator) ∈ splitsOf M σ inKey → k ≤ separator

/-- No insertion of the batch does so. -/
def BatchLeavesPending (M : Nat) (k : κ) (addr : Nat) : List (κ × V) → State κ V → Prop
  | [], _ => True
  | (inKey, inVal) :: batch, σ =>
      LeavesPending M σ inKey k addr ∧
        ∀ σ' ∈ insert M rdma σ inKey inVal, BatchLeavesPending M k addr batch σ'

instance (M : Nat) (σ : State κ V) (inKey k : κ) (addr : Nat) :
    Decidable (LeavesPending M σ inKey k addr) :=
  decidable_of_iff (∀ split ∈ splitsOf M σ inKey, split.1 = addr → k ≤ split.2)
    ⟨fun all separator hmem => all _ hmem rfl, by
      rintro pending ⟨n, separator⟩ hmem rfl
      exact pending separator hmem⟩

instance decidableBatchLeavesPending (M : Nat) (k : κ) (addr : Nat) :
    (batch : List (κ × V)) → (σ : State κ V) → Decidable (BatchLeavesPending M k addr batch σ)
  | [], _ => .isTrue trivial
  | (inKey, inVal) :: batch, σ =>
      have : ∀ σ', Decidable (BatchLeavesPending M k addr batch σ') :=
        decidableBatchLeavesPending M k addr batch
      inferInstanceAs (Decidable (LeavesPending M σ inKey k addr ∧
        ∀ σ' ∈ insert M rdma σ inKey inVal, BatchLeavesPending M k addr batch σ'))

/-- No insertion of the traversal splits the node the client is about to read
below its key. -/
def Undisturbed (M : Nat) (k : κ) : List (List (κ × V)) → State κ V → Client → Prop
  | [], _, _ => True
  | batch :: batches, σ, client =>
      (∀ addr, client = .pending addr → BatchLeavesPending M k addr batch σ) ∧
        ∀ σ' ∈ insertAll M batch σ, Undisturbed M k batches σ' (client.read σ' k)

/-! ## A node that is not split below a key keeps the key -/

/-- From `cur` upwards the tree is as it was in `start`, apart from the keys of
`cur` itself. -/
structure Upward (start : World κ V) (cur : Nat) (w : World κ V) : Prop where
  old : cur < start.state.nbNode
  isLeaf : (w.state.pool cur).isLeaf = (start.state.pool cur).isLeaf
  above : ∀ n, n < w.state.nbNode → w.dist n < w.dist cur → n < start.state.nbNode ∧
    (w.state.pool n).isLeaf = (start.state.pool n).isLeaf ∧
      (w.state.pool n).key = (start.state.pool n).key ∧
      (w.state.pool n).child = (start.state.pool n).child

/-- What the repair hands on while `addr` keeps the key `k`: the splits still to
come can be read off the tree `start` before the insertion. -/
structure Climb (M : Nat) (start : World κ V) (k : κ) (addr fuel cur : Nat) (w : World κ V) :
    Prop where
  keeps : Keeps start w
  holds : (start.state.pool addr).isValue = false → w.bounds.Holds addr k
  upward : M ≤ (w.state.pool cur).key.length → Upward start cur w
  safe : ∀ separator,
    (addr, separator) ∈ splitChain M start.state fuel cur (w.state.pool cur).key → k ≤ separator

omit [Inhabited V] in
theorem splitChain_small {M : Nat} {σ : State κ V} {fuel cur : Nat} {keys : List κ}
    (hsmall : keys.length < M) : splitChain M σ fuel cur keys = [] := by
  cases fuel with
  | zero => rfl
  | succ fuel => rw [splitChain, if_neg (fun hfull => absurd hfull.1 (Nat.not_le_of_lt hsmall))]

section Climb

variable {M : Nat} [NodeOrder M] {start w : World κ V} {history : List (κ × V)} {k x : κ}
  {addr : Nat}

section

omit [NodeOrder M]

theorem climb_grown (v : V) {leaf : Nat}
    (hdescend : descendToLeaf w.state x w.state.nbNode root = some leaf)
    (hlt : leaf < w.state.nbNode)
    (holds : (w.state.pool addr).isValue = false → w.bounds.Holds addr k)
    (leaves : LeavesPending M w.state x k addr) :
    Climb M w k addr (w.state.nbNode + 1) leaf (w.grown rdma leaf x v) := by
  have hgrown := insertIntoLeaf_pool_cur rdma x v hlt
  constructor
  case keeps => exact keeps_insertIntoLeaf rdma w.dist w.bounds x v
  case holds => exact holds
  case upward =>
    intro _
    refine ⟨hlt, by rw [hgrown], fun n hn habove => ?_⟩
    simp only [Function.update_of_ne (Nat.ne_of_lt hlt)] at habove
    have hnew : n ≠ w.state.nbNode := by
      rintro rfl
      simp only [Function.update_self] at habove
      omega
    have hne : n ≠ leaf := by
      rintro rfl
      simp only [Function.update_of_ne hnew] at habove
      omega
    rw [insertIntoLeaf_pool_other rdma x v hnew hne]
    exact ⟨Nat.lt_of_le_of_ne (Nat.le_of_lt_succ hn) hnew, rfl, rfl, rfl⟩
  case safe =>
    intro separator hmem
    apply leaves separator
    rw [splitsOf, hdescend]
    rw [hgrown] at hmem
    exact hmem

/-- The split of `cur` is the head of the chain, and the chain goes on with the parent. -/
theorem Climb.chain_eq {fuel cur parent j : Nat} {probe separator : κ}
    (climb : Climb M start k addr (fuel + 1) cur w) (shape : Shape start.state start.dist)
    (repairing : Repairing M w history x cur) (hfull : (w.state.pool cur).key.length = M)
    (hfree : ¬ Pinned w.state cur)
    (site : SplitSite M w.state w.bounds cur parent j probe separator x) :
    splitChain M start.state (fuel + 1) cur (w.state.pool cur).key =
      (cur, separator) :: splitChain M start.state fuel parent
        ((w.halved M cur parent probe separator).state.pool parent).key := by
  have hwshape := repairing.shape
  obtain ⟨hold, hleaf, habove⟩ := climb.upward (Nat.le_of_eq hfull.symm)
  have hpdist := hwshape.dist_child parent cur site.node.mem
  obtain ⟨-, -, hparentKey, hparentChild⟩ :=
    habove parent (hwshape.lt_of_mem_child site.node.mem) (by omega)
  have hval : (start.state.pool cur).isValue = false :=
    (climb.keeps.isValue cur hold).symm.trans repairing.isValue
  have hup : (start.state.pool cur).parent = some parent :=
    shape.parent_eq parent cur (hparentChild ▸ site.node.mem) hval
  have hcut : cutAt M (start.state.pool cur) = cutAt M (w.state.pool cur) := by
    rw [cutAt, cutAt, hleaf]
  have hfreeStart : ¬ Pinned start.state cur := fun h => hfree (climb.keeps.pinned hold h)
  rw [splitChain, if_pos ⟨Nat.le_of_eq hfull.symm, hfreeStart⟩, hup, hcut, site.probe_eq,
    site.separator_eq, hwshape.afterSplit_pool_parent probe separator site.node]
  simp only [hparentKey]

/-- After the split of `cur` the tree is as it was from the parent upwards. -/
theorem Upward.halved {cur parent j : Nat} {probe separator : κ} (upward : Upward start cur w)
    (shape : Shape w.state w.dist)
    (site : SplitSite M w.state w.bounds cur parent j probe separator x) :
    Upward start parent (w.halved M cur parent probe separator) := by
  obtain ⟨-, -, habove⟩ := upward
  have hpdist := shape.dist_child parent cur site.node.mem
  have hpw := shape.lt_of_mem_child site.node.mem
  have hpn : parent ≠ w.state.nbNode := Nat.ne_of_lt hpw
  obtain ⟨hparentOld, hparentLeaf, -, -⟩ := habove parent hpw (by omega)
  refine ⟨hparentOld, ?_, fun n hn hfar => ?_⟩
  · rw [shape.afterSplit_pool_parent probe separator site.node]
    exact hparentLeaf
  · simp only [Function.update_of_ne hpn] at hfar
    have hnew : n ≠ w.state.nbNode := by
      rintro rfl
      simp only [Function.update_self] at hfar
      omega
    simp only [Function.update_of_ne hnew] at hfar
    have hcur : n ≠ cur := by
      rintro rfl
      omega
    have hp : n ≠ parent := by
      rintro rfl
      exact Nat.lt_irrefl _ hfar
    obtain ⟨up, hup⟩ := shape.afterSplit_pool_other probe separator site.node hp hnew hcur
    rw [hup]
    exact habove n (Nat.lt_of_le_of_ne (Nat.le_of_lt_succ hn) hnew) (by omega)

end

theorem repairClosed_climb (shape : Shape start.state start.dist)
    (haddr : addr < start.state.nbNode) :
    RepairClosed rdma M history x (Climb M start k addr) where
  pinned fuel w cur probe separator repairing hfull hpinned site hfree hsmall climb := by
    have hsound := repairing.toSound.copied rdma repairing.lt repairing.isValue
    have hcopy : Keeps w (w.copied rdma cur) :=
      repairing.shape.keeps_copyDown rdma w.bounds repairing.lt repairing.isValue
    have hsplit : Keeps (w.copied rdma cur)
        ((w.copied rdma cur).halved M w.state.nbNode cur probe separator) :=
      site.keeps_afterSplit hsound.ordered hsound.shape hfree
    have haddr' := Nat.lt_of_lt_of_le haddr climb.keeps.nbNode_le
    constructor
    case keeps => exact (climb.keeps.trans hcopy).trans hsplit
    case holds =>
      intro hval
      have hnew : addr ≠ w.state.nbNode := Nat.ne_of_lt haddr'
      have hnext : addr ≠ w.state.nbNode + 1 := by omega
      have hlo : (w.bounds.copy w.state.nbNode cur |>.split w.state.nbNode
          (w.state.nbNode + 1) separator).lo addr = w.bounds.lo addr :=
        (Bounds.split_lo_of_ne hnext).trans (Bounds.copy_lo_of_ne hnew)
      have hhi : (w.bounds.copy w.state.nbNode cur |>.split w.state.nbNode
          (w.state.nbNode + 1) separator).hi addr = w.bounds.hi addr :=
        (Bounds.split_hi_of_ne hnew hnext).trans (Bounds.copy_hi_of_ne hnew)
      have hold := climb.holds hval
      exact ⟨hlo.trans_lt hold.1, hold.2.trans_eq hhi.symm⟩
    case upward => exact fun hfull' => absurd hfull' (Nat.not_le_of_lt hsmall)
    case safe =>
      intro separator' hmem
      rw [splitChain_small hsmall] at hmem
      cases hmem
  free fuel w cur parent j probe separator repairing hfull hfree hparent site climb := by
    have hchain := climb.chain_eq shape repairing hfull hfree site
    have hnew : addr ≠ w.state.nbNode :=
      Nat.ne_of_lt (Nat.lt_of_lt_of_le haddr climb.keeps.nbNode_le)
    constructor
    case keeps =>
      exact climb.keeps.trans
        (site.keeps_afterSplit repairing.ordered repairing.shape hfree)
    case holds =>
      intro hvalAddr
      have hold := climb.holds hvalAddr
      refine ⟨(Bounds.split_lo_of_ne hnew).trans_lt hold.1, ?_⟩
      by_cases hcur : addr = cur
      · have hkept := climb.safe separator (by rw [hchain, hcur]; exact List.mem_cons_self)
        rw [hcur]
        exact (WithTop.coe_le_coe.mpr hkept).trans_eq Bounds.split_hi_cur.symm
      · exact hold.2.trans_eq (Bounds.split_hi_of_ne hcur hnew).symm
    case upward =>
      exact fun _ => (climb.upward (Nat.le_of_eq hfull.symm)).halved repairing.shape site
    case safe =>
      intro separator' hmem
      refine climb.safe separator' ?_
      rw [hchain]
      exact List.mem_cons_of_mem _ hmem

end Climb

/-! ## One insertion -/

section Insertions

variable {M : Nat} [NodeOrder M] {w : World κ V} {history : List (κ × V)} {k : κ}
  {c addr leaf m d : Nat}

/-- An insertion that does not split the node the client is about to read below
its key keeps that node on the way of the key. -/
theorem insert_pending (settled : Settled M w history) (answers : Answers w k c leaf)
    (hlt : addr < w.state.nbNode) (awaits : Awaits w k c addr) {x : κ} (hne : k ≠ x) (v : V)
    (leaves : LeavesPending M w.state x k addr) :
    ∃ w', insert M rdma w.state x v = some w'.state ∧ Settled M w' ((x, v) :: history) ∧
      Steady k c addr w w' ∧ Awaits w' k c addr := by
  have shape := settled.shape
  have holds : (w.state.pool addr).isValue = false → w.bounds.Holds addr k := by
    intro hval
    rcases awaits with rfl | ⟨-, holds⟩
    · rw [(answers.isValue shape).2] at hval
      cases hval
    · exact holds
  obtain ⟨w', fuel, cur, hinsert, hsettled, hsteady, hclimb⟩ :=
    settled.insert_closed rdma x v
      (((stepClosed_steady rdma (k := k) (c := c) shape.root_lt hlt).repairClosed rdma).and rdma
        (repairClosed_climb (k := k) shape hlt))
      (fun leaf' hdescend hleafLt hleaf _ =>
        ⟨Steady.grown rdma answers settled.toSound v hleafLt hleaf hne hlt,
          climb_grown v hdescend hleafLt holds leaves⟩)
  refine ⟨w', hinsert, hsettled, hsteady, ?_⟩
  refine awaits.imp_right fun ⟨hval, _⟩ => ⟨?_, hclimb.holds hval⟩
  exact (hsteady.keeps.isValue addr hlt).trans hval

/-- The client is about to read `addr` on its way to the value node `c` of `k`,
which holds `v`; `m` and `d` bound what is left. -/
structure Traversing (M : Nat) (w : World κ V) (k : κ) (v : V) (c addr m d : Nat) : Prop where
  settled : ∃ history, Settled M w history ∧ history.lookup k = some v
  answers : ∃ leaf, Answers w k c leaf
  lt : addr < w.state.nbNode
  awaits : Awaits w k c addr
  budget : Budget w k c addr m d

namespace Traversing

variable {v : V}

/-- A batch of insertions leaves the traversal where it is. -/
theorem insertAll_eq (traversing : Traversing M w k v c addr m d) (batch : List (κ × V))
    (hne : ∀ p ∈ batch, p.1 ≠ k) (leaves : BatchLeavesPending M k addr batch w.state) :
    ∃ w', insertAll M batch w.state = some w'.state ∧ Traversing M w' k v c addr m d := by
  induction batch generalizing w with
  | nil => exact ⟨w, rfl, traversing⟩
  | cons pair batch ih =>
      obtain ⟨x, u⟩ := pair
      obtain ⟨hfirst, hrest⟩ := leaves
      obtain ⟨⟨history, hsettled, hlookup⟩, ⟨leaf, hanswers⟩, hlt, hawaits, hbudget⟩ := traversing
      have hkx : k ≠ x := (hne (x, u) List.mem_cons_self).symm
      obtain ⟨next, hinsert, hnext, hsteady, hawaits'⟩ :=
        insert_pending hsettled hanswers hlt hawaits hkx u hfirst
      have hstill : Traversing M next k v c addr m d := by
        refine ⟨⟨_, hnext, ?_⟩, hsteady.answers,
          Nat.lt_of_lt_of_le hlt hsteady.keeps.nbNode_le, hawaits',
          hsteady.budget hsettled.shape.root_lt hawaits' hbudget⟩
        rw [List.lookup_cons, beq_false_of_ne hkx]
        exact hlookup
      obtain ⟨last, hall, hlast⟩ :=
        ih hstill (fun p hp => hne p (List.mem_cons_of_mem _ hp)) (hrest next.state hinsert)
      refine ⟨last, ?_, hlast⟩
      rw [insertAll, hinsert]
      exact hall

omit [NodeOrder M] in
/-- The way from a node ahead of the value node does not pass it. -/
theorem dist_le (sound : Sound M w history) (answers : Answers w k c leaf)
    (hlt : addr < w.state.nbNode) (awaits : Awaits w k c addr) : w.dist addr ≤ w.dist c := by
  rcases awaits with rfl | ⟨hval, holds⟩
  · exact Nat.le_refl _
  · by_contra hfar
    have hleafDist := sound.shape.dist_child leaf c (mem_child_of_childFor answers.child)
    have hleafVal := sound.shape.isValue_of_isLeaf answers.isLeaf
    have hvalue := sound.shape.isValue_of_pathTo_gt
      (sound.onWay_of_holds answers.lt hleafVal answers.holds) answers.isLeaf (w.dist addr) addr
      (by omega) (sound.onWay_of_holds hlt hval holds)
    rw [hval] at hvalue
    cases hvalue

omit [NodeOrder M] in
/-- A read ends the traversal at the value node or makes it shorter. -/
theorem read_cases (traversing : Traversing M w k v c addr m d) :
    (addr = c ∧ (Client.pending addr).read w.state k = .done c) ∨
    ∃ next, (Client.pending addr).read w.state k = .pending next ∧
      ((∃ m' d', m' < m ∧ Traversing M w k v c next m' d') ∨
        ∃ d', d' < d ∧ Traversing M w k v c next m d') := by
  obtain ⟨⟨history, hsettled, hlookup⟩, ⟨leaf, hanswers⟩, hlt, hawaits, hbudget⟩ := traversing
  have sound := hsettled.toSound
  have shape := sound.shape
  have hway := hawaits.onWay sound hanswers hlt
  rcases hawaits with rfl | ⟨hval, holds⟩
  · refine Or.inl ⟨rfl, ?_⟩
    rw [Client.read, if_pos (hanswers.isValue shape).2]
  · obtain ⟨next, hchild, hawaits'⟩ :
        ∃ next, childFor (w.state.pool addr) k = some next ∧ Awaits w k c next := by
      cases hleaf : (w.state.pool addr).isLeaf with
      | true =>
          have hsame := sound.ordered.leaf_unique shape hlt hanswers.lt hleaf hanswers.isLeaf
            holds hanswers.holds
          exact ⟨c, hsame ▸ hanswers.child, Or.inl rfl⟩
      | false =>
          obtain ⟨next, hchild, hmem⟩ := shape.childFor_inner ⟨hleaf, hval⟩ k
          exact ⟨next, hchild, Or.inr ⟨shape.inner_child addr next ⟨hleaf, hval⟩ hmem,
            sound.ordered.holds_childFor ⟨hleaf, hval⟩ holds hchild⟩⟩
    have hmem := mem_child_of_childFor hchild
    have hnext := shape.child_lt addr next hmem
    have htraversing : ∀ {m' d'}, Budget w k c next m' d' → Traversing M w k v c next m' d' :=
      fun hbudget' => ⟨⟨history, hsettled, hlookup⟩, ⟨leaf, hanswers⟩, hnext, hawaits', hbudget'⟩
    refine Or.inr ⟨next, ?_, ?_⟩
    · rw [Client.read, hval, hchild]
      rfl
    · rcases hbudget.read sound hanswers hway hmem (dist_le sound hanswers hnext hawaits') with
        ⟨m', d', hm, hbudget'⟩ | ⟨d', hd, hbudget'⟩
      · exact Or.inl ⟨m', d', hm, htraversing hbudget'⟩
      · exact Or.inr ⟨d', hd, htraversing hbudget'⟩

/-- An undisturbed traversal ends, at the value node of its key. -/
theorem ends (traversing : Traversing M w k v c addr m d) (batches : Nat → List (κ × V))
    (hne : ∀ i, ∀ p ∈ batches i, p.1 ≠ k)
    (undisturbed : ∀ reads,
      Undisturbed M k ((List.range reads).map batches) w.state (.pending addr)) :
    ∃ reads σ', traverse M k ((List.range reads).map batches) w.state (.pending addr) =
        some (σ', .done c) ∧ ValueNodeOf σ' k c ∧ (σ'.pool c).val = v := by
  induction m using Nat.strong_induction_on generalizing w addr d batches with
  | _ m ihm =>
    induction d using Nat.strong_induction_on generalizing w addr batches with
    | _ d ihd =>
      have hsplit : ∀ reads, (List.range (reads + 1)).map batches =
          batches 0 :: (List.range reads).map (fun i => batches (i + 1)) := by
        intro reads
        rw [List.range_succ_eq_map, List.map_cons, List.map_map]
        rfl
      have hfirst := undisturbed 1
      rw [hsplit] at hfirst
      obtain ⟨w', hall, htraversing⟩ :=
        traversing.insertAll_eq (batches 0) (hne 0) (hfirst.1 addr rfl)
      have hrest : ∀ reads, Undisturbed M k ((List.range reads).map (fun i => batches (i + 1)))
          w'.state ((Client.pending addr).read w'.state k) := by
        intro reads
        have hnext := undisturbed (reads + 1)
        rw [hsplit] at hnext
        exact hnext.2 w'.state hall
      have hstep : ∀ reads, traverse M k ((List.range (reads + 1)).map batches) w.state
          (.pending addr) = traverse M k ((List.range reads).map (fun i => batches (i + 1)))
            w'.state ((Client.pending addr).read w'.state k) := by
        intro reads
        rw [hsplit, traverse, hall]
      rcases htraversing.read_cases with ⟨rfl, hdone⟩ | ⟨next, hpending, hshorter⟩
      · obtain ⟨⟨history, hsettled, hlookup⟩, ⟨leaf, hanswers⟩, -⟩ := htraversing
        obtain ⟨hangs, hvalue⟩ := hanswers.valueNodeOf hsettled.toSound
        rw [hlookup] at hvalue
        refine ⟨1, w'.state, ?_, hangs, (Option.some.inj hvalue).symm⟩
        rw [hstep 0, hdone]
        rfl
      · rw [hpending] at hrest
        obtain ⟨reads, σ', htraverse, hend⟩ : ∃ reads σ', traverse M k
            ((List.range reads).map (fun i => batches (i + 1))) w'.state (.pending next) =
              some (σ', .done c) ∧ ValueNodeOf σ' k c ∧ (σ'.pool c).val = v := by
          rcases hshorter with ⟨m', d', hm, hnext⟩ | ⟨d', hd, hnext⟩
          · exact ihm m' hm hnext _ (fun i => hne (i + 1)) hrest
          · exact ihd d' hd hnext _ (fun i => hne (i + 1)) hrest
        refine ⟨reads + 1, σ', ?_, hend⟩
        rw [hstep reads, hpending]
        exact htraverse

end Traversing

omit [NodeOrder M] in
/-- The path of an inserted key runs through nodes that await it and ends at its
value node. -/
theorem awaits_of_onPath (sound : Sound M w history) (answers : Answers w k c leaf)
    (onPath : OnPath w.state k addr) : addr < w.state.nbNode ∧ Awaits w k c addr := by
  have shape := sound.shape
  obtain ⟨steps, hpath⟩ := onPath
  refine ⟨(pathTo_dist shape hpath).1, ?_⟩
  cases hval : (w.state.pool addr).isValue with
  | false => exact Or.inr ⟨hval, sound.ordered.holds_of_pathTo shape hpath hval⟩
  | true =>
      cases steps with
      | zero =>
          cases hpath
          rw [shape.root_isValue] at hval
          cases hval
      | succ steps =>
          cases hp : pathTo w.state k steps with
          | none => rw [pathTo, hp] at hpath; cases hpath
          | some p =>
              rw [pathTo_succ hp] at hpath
              have hmem := mem_child_of_childFor hpath
              have hpVal : (w.state.pool p).isValue = false := by
                by_contra hvalue
                rw [(shape.value_bare p (by simpa using hvalue)).2.2] at hmem
                cases hmem
              have hpLeaf : (w.state.pool p).isLeaf = true := by
                by_contra hleaf
                rw [shape.inner_child p addr ⟨by simpa using hleaf, hpVal⟩ hmem] at hval
                cases hval
              have hsame := sound.ordered.leaf_unique shape (shape.lt_of_mem_child hmem)
                answers.lt hpLeaf answers.isLeaf
                (sound.ordered.holds_of_pathTo shape hp hpVal) answers.holds
              rw [hsame, answers.child] at hpath
              exact Or.inl (Option.some.inj hpath).symm

end Insertions

/-- A traversal of an inserted key that starts on its path ends at its value node
with its newest value, however many other keys are inserted between its reads,
as long as none of these insertions splits the node that is read next below the
key. -/
theorem read_ends_undisturbed (calls : List (Call κ V)) {σ : State κ V}
    (hreach : Reaches 16 rdma calls σ) {k : κ} {v : V}
    (hk : (storedHistory rdma calls).lookup k = some v) {start : Nat}
    (hstart : OnPath σ k start) (batches : Nat → List (κ × V))
    (hne : ∀ i, ∀ p ∈ batches i, p.1 ≠ k)
    (undisturbed : ∀ reads,
      Undisturbed 16 k ((List.range reads).map batches) σ (.pending start)) :
    ∃ reads σ' c, traverse 16 k ((List.range reads).map batches) σ (.pending start) =
        some (σ', .done c) ∧ ValueNodeOf σ' k c ∧ (σ'.pool c).val = v := by
  obtain ⟨w, hrun, hsettled⟩ := settled_of_run rdma (M := 16) calls
  cases hrun.symm.trans hreach
  have hmem : k ∈ keysOf (storedHistory rdma calls) := by
    by_contra hnot
    rw [List.lookup_eq_none_iff.mpr] at hk
    · cases hk
    · intro p hp
      exact bne_iff_ne.mpr fun heq => hnot (heq ▸ List.mem_map_of_mem hp)
  obtain ⟨c, leaf, hanswers⟩ := hsettled.answers hmem
  obtain ⟨hlt, hawaits⟩ := awaits_of_onPath hsettled.toSound hanswers hstart
  obtain ⟨m, d, hbudget⟩ := exists_budget hsettled.toSound hanswers
    (Traversing.dist_le hsettled.toSound hanswers hlt hawaits)
  obtain ⟨reads, σ', hend⟩ :=
    Traversing.ends ⟨⟨_, hsettled, hk⟩, ⟨leaf, hanswers⟩, hlt, hawaits, hbudget⟩ batches hne
      undisturbed
  exact ⟨reads, σ', c, hend⟩

theorem undisturbed_idle {M : Nat} {k : κ} (reads : List Nat) {σ : State κ V}
    {client : Client} : Undisturbed M k (reads.map (fun _ => [])) σ client := by
  induction reads generalizing σ client with
  | nil => trivial
  | cons _ reads ih => exact ⟨fun _ _ => trivial, fun _ _ => ih⟩

/-- Eight keys that split the left one of two leaves in place. -/
def splittingBatch : List (Nat × Nat) :=
  (List.range 8).map fun i => (11 + i, 0)

/-- A traversal of 10 reads the root, then the leaf that it reads next is split in place above
its key. -/
theorem read_ends_undisturbed_split :
    ∃ σ ∈ run 16 rdma ((List.range 16).map (fun i => .insert (10 * i + 10) i))
        (State.empty : State Nat Nat),
      (∃ split ∈ insertAll 16 splittingBatch σ, (split.pool root).child.length = 3) ∧
      ∃ reads σ' c, traverse 16 10 ((List.range reads).map
          (fun i => if i = 1 then splittingBatch else [])) σ (.pending root) =
            some (σ', .done c) ∧
        ValueNodeOf σ' 10 c ∧ (σ'.pool c).val = 0 := by
  obtain ⟨σ, hrun, hsplit, hread, hbatch⟩ : ∃ σ ∈ run 16 rdma
      ((List.range 16).map (fun i => .insert (10 * i + 10) i)) (State.empty : State Nat Nat),
      (∃ split ∈ insertAll 16 splittingBatch σ, (split.pool root).child.length = 3) ∧
        Client.read σ 10 (.pending root) = .pending 17 ∧
        BatchLeavesPending 16 10 17 splittingBatch σ := by
    decide +kernel
  refine ⟨σ, hrun, hsplit, read_ends_undisturbed _ hrun (by decide +kernel) ⟨0, rfl⟩
    (fun i => if i = 1 then splittingBatch else []) ?_ ?_⟩
  · intro i p hp
    split at hp
    · revert p
      decide
    · cases hp
  · intro reads
    match reads with
    | 0 => trivial
    | 1 => exact ⟨fun _ _ => trivial, fun _ _ => trivial⟩
    | reads + 2 =>
        have hbatches : (List.range (reads + 2)).map
            (fun i => if i = 1 then splittingBatch else []) =
              [] :: splittingBatch :: (List.range reads).map fun _ => [] := by
          rw [List.range_succ_eq_map, List.range_succ_eq_map, List.map_cons, List.map_cons,
            List.map_cons, List.map_map, List.map_map]
          rfl
        rw [hbatches]
        refine ⟨fun _ _ => trivial, fun σ' hσ' => ?_⟩
        cases hσ'
        rw [hread]
        refine ⟨fun addr haddr => ?_, fun _ _ => undisturbed_idle _⟩
        cases haddr
        exact hbatch

/-- The keys 10, 20, .., 160 are inserted.  A traversal of 160 reads the root,
then the keys 91 to 98 are inserted, and the leaf it reads next has lost 160. -/
theorem read_fails_concurrently :
    ∃ σ ∈ run 16 rdma ((List.range 16).map (fun i => .insert (10 * i + 10) i))
        (State.empty : State Nat Nat),
      ∃ p ∈ traverse 16 160 [[], (List.range 8).map (fun i => (91 + i, 0))] σ (.pending root),
        p.2 = .failed := by
  decide +kernel

end FatBTree.Rdma
