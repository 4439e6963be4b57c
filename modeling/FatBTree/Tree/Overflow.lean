import FatBTree.Tree.Node

/-!
# `insert` and `overflow`

`insert` puts the key into the leaf its descent ends in and then repairs the
tree from that leaf upwards.  A full node that the switch may hold (or the
root) keeps its address: its content first moves down into a copy, which is
the node that is split.

The Ethernet and the RDMA sources have one `overflow` each.  They differ in
what happens to the value fields, which is recorded in a `Variant`.
-/

namespace FatBTree.Tree

open FatBTree.Order

variable {κ V : Type} [LinearOrder κ] [Inhabited V]

/-- Where the two copies of the tree code differ. -/
structure Variant (V : Type) where
  /-- The value list a fresh value node receives from the inserted one. -/
  storeVal : V → V → V
  /-- The value list of the copy node, from that of `cur` and its own. -/
  copyVal : V → V → V
  /-- The value list that `cur` keeps when its content moves down. -/
  clearVal : V → V

/-- `for (auto ch : node->child) ch->parent = node;` -/
def adopt (pool : Nat → Node κ V) (children : List Nat) (node : Nat) :
    Nat → Node κ V :=
  fun n => if n ∈ children then { pool n with parent := some node } else pool n

/-- The copy-on-split block of `overflow`: `cur` keeps its address and becomes
the parent of a copy that takes over its keys and children. -/
def copyDown (variant : Variant V) (σ : State κ V) (cur : Nat) : State κ V :=
  let node := σ.pool cur
  let copyNode := σ.nbNode
  let copied : Node κ V :=
    { σ.pool copyNode with
      isLeaf := node.isLeaf
      parent := some cur
      key := node.key
      val := variant.copyVal node.val (σ.pool copyNode).val
      child := node.child
      isLoaded2Switch := false }
  let pool := adopt (Function.update σ.pool copyNode copied) node.child copyNode
  let emptied : Node κ V :=
    { pool cur with
      isLeaf := false
      key := []
      val := variant.clearVal node.val
      child := [copyNode] }
  { σ with
    pool := Function.update pool cur emptied
    nbNode := σ.nbNode + 1
    depth := if cur = root then σ.depth + 1 else σ.depth }

/-- `cur` shrinks to `left` and the fresh slot becomes `right`.  Only the inner
branch redirects the parent pointers of the children that moved. -/
def splitPool (σ : State κ V) (cur : Nat) (left right : Node κ V) : Nat → Node κ V :=
  let pool := Function.update (Function.update σ.pool cur left) σ.nbNode right
  if left.isLeaf then pool else adopt pool right.child σ.nbNode

/-- The common end of the two split branches: `right` becomes the next sibling
of `left`.  The position in the parent is looked up again with `probe`, and
`separator` is what is inserted there. -/
def attach (σ : State κ V) (cur : Nat) (left right : Node κ V)
    (parent : Nat) (probe separator : κ) : State κ V :=
  let pool := splitPool σ cur left right
  let position := lowerBound (pool parent).key probe
  { σ with
    pool := Function.update pool parent
      { pool parent with
        key := (pool parent).key.insertIdx position separator
        child := (pool parent).child.insertIdx (position + 1) σ.nbNode }
    nbNode := σ.nbNode + 1 }

/-- The part of `overflow` that splits `cur` under `parent`.  `none` stands for
a read past the end of a key vector. -/
def splitNode (M : Nat) (σ : State κ V) (cur parent : Nat) : Option (State κ V) :=
  let node := σ.pool cur
  let newNode : Node κ V :=
    { σ.pool σ.nbNode with parent := node.parent, isLeaf := node.isLeaf }
  if node.isLeaf then
    let left := { node with key := node.key.take (M / 2), child := node.child.take (M / 2) }
    let right := { newNode with
      key := node.key.drop (M / 2) ++ newNode.key
      child := node.child.drop (M / 2) ++ newNode.child }
    match right.key[0]?, left.key.getLast? with
    | some first, some back => some (attach σ cur left right parent first back)
    | _, _ => none
  else
    let left := { node with
      key := node.key.take (M / 2), child := node.child.take (M / 2 + 1) }
    let right := { newNode with
      key := node.key.drop (M / 2 + 1) ++ newNode.key
      child := node.child.drop (M / 2 + 1) ++ newNode.child }
    match node.key[M / 2]? with
    | some newKey => some (attach σ cur left right parent newKey newKey)
    | none => none

/-- `overflow`: while `cur` holds `M` keys or more, split it (moving it down
first when its address must survive) and go on with its parent.  `none` stands
for a null parent, a read past a key vector, or running out of fuel. -/
def overflow (M : Nat) (variant : Variant V) :
    Nat → State κ V → Nat → Option (State κ V)
  | 0, _, _ => none
  | fuel + 1, σ, cur =>
      if M ≤ (σ.pool cur).key.length then
        let pinned := cur = root ∨ (σ.pool cur).isLoaded2Switch = true
        let σ' := if pinned then copyDown variant σ cur else σ
        let cur' := if pinned then σ.nbNode else cur
        match (σ'.pool cur').parent with
        | none => none
        | some parent =>
            match splitNode M σ' cur' parent with
            | none => none
            | some next => overflow M variant fuel next parent
      else some σ

/-- `while (!cur->isLeaf) cur = cur->child[lower_bound(...)]`. -/
def descendToLeaf (σ : State κ V) (k : κ) : Nat → Nat → Option Nat
  | 0, _ => none
  | fuel + 1, cur =>
      if (σ.pool cur).isLeaf then some cur
      else
        match childFor (σ.pool cur) k with
        | none => none
        | some next => descendToLeaf σ k fuel next

/-- The leaf gains the key and a fresh value node, both at the lower bound. -/
def insertIntoLeaf (variant : Variant V) (σ : State κ V) (cur : Nat) (inKey : κ)
    (inVal : V) : State κ V :=
  let valueNode := σ.nbNode
  let node := σ.pool cur
  let p := lowerBound node.key inKey
  let grown := { node with
    key := node.key.insertIdx p inKey, child := node.child.insertIdx p valueNode }
  let stored := { σ.pool valueNode with
    isLeaf := false
    isValue := true
    parent := some cur
    val := variant.storeVal inVal (σ.pool valueNode).val }
  { σ with
    pool := Function.update (Function.update σ.pool cur grown) valueNode stored
    nbNode := σ.nbNode + 1 }

/-- `insert`.  A path visits every node at most once, so the number of nodes
bounds the descent and the repair. -/
def insert (M : Nat) (variant : Variant V) (σ : State κ V) (inKey : κ) (inVal : V) :
    Option (State κ V) :=
  match descendToLeaf σ inKey σ.nbNode root with
  | none => none
  | some cur =>
      overflow M variant (σ.nbNode + 1) (insertIntoLeaf variant σ cur inKey inVal) cur

end FatBTree.Tree
