import FatBTree.Rdma.Capacity

/-!
# `RDMARead`

The client fetches one node after the other and does the search itself.  From a
node that is responsible for an inserted key it ends at the value node of the
key.
-/

namespace FatBTree.Rdma

open FatBTree.Order FatBTree.Tree

variable {κ V : Type} [LinearOrder κ] [Inhabited V]

/-- `while (!remote_node.isValue)`, from the node whose address the client
holds.  The result is the node it ends at; `none` stands for a child index at or
beyond the size of the child array. -/
def remoteRead (σ : State κ V) (k : κ) : Nat → Nat → Option Nat
  | 0, _ => none
  | fuel + 1, addr =>
      if (σ.pool addr).isValue then some addr
      else
        match childFor (σ.pool addr) k with
        | none => none
        | some next => remoteRead σ k fuel next

/-- `RDMARead`, with the packet answered by `start`. -/
def rdmaRead (σ : State κ V) (k : κ) (start : Nat) : Option Nat :=
  remoteRead σ k (σ.nbNode + 1) start

omit [Inhabited V] in
theorem remoteRead_value {σ : State κ V} {k : κ} {fuel addr : Nat}
    (hvalue : (σ.pool addr).isValue = true) : remoteRead σ k (fuel + 1) addr = some addr := by
  rw [remoteRead, if_pos hvalue]

section Reads

variable {M : Nat} {w : World κ V} {history : List (κ × V)} {k : κ}

/-- A read of an inserted key that starts on its path ends at its value node. -/
theorem remoteRead_eq (sound : Sound M w history) (hmem : k ∈ keysOf history) (fuel : Nat)
    {addr : Nat} (hlt : addr < w.state.nbNode) (hval : (w.state.pool addr).isValue = false)
    (holds : w.bounds.Holds addr k) (hfuel : w.state.nbNode < fuel + w.dist addr) :
    ∃ c, remoteRead w.state k fuel addr = some c ∧ ValueNodeOf w.state k c ∧
      history.lookup k = some (w.state.pool c).val := by
  have shape := sound.shape
  induction fuel generalizing addr with
  | zero =>
      have hdist := shape.dist_lt hlt
      omega
  | succ fuel ih =>
      rw [remoteRead, hval]
      simp only [Bool.false_eq_true, if_false]
      cases hleaf : (w.state.pool addr).isLeaf with
      | true =>
          obtain ⟨c, hc, hangs, hlookup⟩ := sound.valueNodeOf_childFor hlt hleaf holds hmem
          refine ⟨c, ?_, hangs, hlookup⟩
          have hdist := shape.dist_lt hlt
          obtain ⟨rest, rfl⟩ : ∃ rest, fuel = rest + 1 := ⟨fuel - 1, by omega⟩
          simp only [hc]
          exact remoteRead_value (sound.lt_of_valueNodeOf hangs).2
      | false =>
          have hinner : (w.state.pool addr).IsInner := ⟨hleaf, hval⟩
          obtain ⟨c, hc, hchild⟩ := shape.childFor_inner hinner k
          simp only [hc]
          refine ih (shape.child_lt addr c hchild) (shape.inner_child addr c hinner hchild)
            (sound.ordered.holds_childFor hinner holds hc) ?_
          rw [shape.dist_child addr c hchild]
          omega

theorem rdmaRead_eq (sound : Sound M w history) (hmem : k ∈ keysOf history) {start : Nat}
    (hlt : start < w.state.nbNode) (hval : (w.state.pool start).isValue = false)
    (holds : w.bounds.Holds start k) :
    ∃ c, rdmaRead w.state k start = some c ∧ ValueNodeOf w.state k c ∧
      history.lookup k = some (w.state.pool c).val :=
  remoteRead_eq sound hmem _ hlt hval holds (by omega)

omit [Inhabited V] in
theorem rdmaRead_value {σ : State κ V} {start : Nat}
    (hvalue : (σ.pool start).isValue = true) : rdmaRead σ k start = some start :=
  remoteRead_value hvalue

end Reads

end FatBTree.Rdma
