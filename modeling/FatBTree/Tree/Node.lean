import FatBTree.Order.LowerBound
import Mathlib.Logic.Function.Basic

/-!
# Nodes and the node pool of `BPlusTree<M>`

Nodes live in one pool and are named by their index in it; the root is index
zero for the whole life of the tree.  Only slots below `nbNode` have ever been
handed out, and a slot is never handed out twice.
-/

namespace FatBTree.Tree

open FatBTree.Order

/-- `class Node`, with `Node *` as an index into the pool. -/
structure Node (κ V : Type) where
  isLeaf : Bool
  isValue : Bool
  parent : Option Nat
  key : List κ
  val : V
  child : List Nat
  accessCount : UInt32
  isLoaded2Switch : Bool
  deriving DecidableEq

/-- The member initialisers of `class Node`. -/
def Node.fresh {κ V : Type} [Inhabited V] : Node κ V where
  isLeaf := true
  isValue := false
  parent := none
  key := []
  val := default
  child := []
  accessCount := 0
  isLoaded2Switch := false

/-- The data members of `BPlusTree<M>`.  `nbQuery` and `nbAccess` are the
statistics counters that `lookup` advances: `uint32_t` in the Ethernet backend,
and the 32 bits of an `int` in the RDMA one. -/
structure State (κ V : Type) where
  pool : Nat → Node κ V
  nbNode : Nat
  depth : Nat
  nbQuery : UInt32
  nbAccess : UInt32

/-- `root = pool`: the root is the first pool slot and is never reassigned. -/
abbrev root : Nat := 0

/-- The state after construction. -/
def State.empty {κ V : Type} [Inhabited V] : State κ V where
  pool := fun _ => Node.fresh
  nbNode := 1
  depth := 1
  nbQuery := 0
  nbAccess := 0

section Fields

variable {κ V : Type} [Inhabited V]

@[simp] theorem Node.fresh_isLeaf : (Node.fresh : Node κ V).isLeaf = true := rfl
@[simp] theorem Node.fresh_isValue : (Node.fresh : Node κ V).isValue = false := rfl
@[simp] theorem Node.fresh_parent : (Node.fresh : Node κ V).parent = none := rfl
@[simp] theorem Node.fresh_key : (Node.fresh : Node κ V).key = [] := rfl
@[simp] theorem Node.fresh_child : (Node.fresh : Node κ V).child = [] := rfl
@[simp] theorem Node.fresh_isLoaded2Switch :
    (Node.fresh : Node κ V).isLoaded2Switch = false := rfl

end Fields

section Descent

variable {κ V : Type} [LinearOrder κ]

/-- `cur->child[lower_bound(cur->key, k) - cur->key.begin()]`; there is no
child when the index is at or beyond the size of the child vector. -/
def childFor (node : Node κ V) (k : κ) : Option Nat :=
  node.child[lowerBound node.key k]?

/-- The node reached from the root by `n` steps of lower-bound descent. -/
def pathTo (σ : State κ V) (k : κ) : Nat → Option Nat
  | 0 => some root
  | n + 1 =>
      match pathTo σ k n with
      | none => none
      | some cur => childFor (σ.pool cur) k

/-- `n` lies on the root-to-value path of `k`. -/
def OnPath (σ : State κ V) (k : κ) (n : Nat) : Prop :=
  ∃ steps, pathTo σ k steps = some n

@[simp]
theorem pathTo_zero (σ : State κ V) (k : κ) : pathTo σ k 0 = some root := rfl

theorem pathTo_succ {σ : State κ V} {k : κ} {n : Nat} {cur : Nat}
    (hcur : pathTo σ k n = some cur) :
    pathTo σ k (n + 1) = childFor (σ.pool cur) k := by
  rw [pathTo, hcur]

end Descent

end FatBTree.Tree
