import FatBTree.Order.LowerBound

/-!
# Joining two cut intervals at a separator

Two lists of cut points, each with one piece more than cut points, are joined by the
separator between their intervals.  A key up to the separator finds its piece in the
first list, a key above it in the second.
-/

namespace FatBTree.Order

variable {κ : Type*} [LinearOrder κ] {π : Type*}

theorem countBelow_append (first rest : List κ) (k : κ) :
    countBelow (first ++ rest) k = countBelow first k + countBelow rest k :=
  List.countP_append

theorem countBelow_eq_length {keys : List κ} {k : κ} (below : ∀ x ∈ keys, x < k) :
    countBelow keys k = keys.length :=
  List.countP_eq_length.mpr (fun x hx => decide_eq_true (below x hx))

theorem countBelow_eq_zero {keys : List κ} {k : κ} (above : ∀ x ∈ keys, k ≤ x) :
    countBelow keys k = 0 :=
  List.countP_eq_zero.mpr (fun x hx => by simpa using above x hx)

section

variable {keys rest : List κ} {pieces others : List π} {sep k : κ}

theorem getElem?_join_of_le (more : keys.length < pieces.length) (hk : k ≤ sep)
    (above : ∀ x ∈ rest, sep ≤ x) :
    (pieces ++ others)[countBelow (keys ++ sep :: rest) k]? = pieces[countBelow keys k]? := by
  have hrest : countBelow (sep :: rest) k = 0 := by
    refine countBelow_eq_zero (fun x hx => ?_)
    rcases List.mem_cons.mp hx with rfl | hmem
    · exact hk
    · exact hk.trans (above x hmem)
  have hcount : countBelow keys k ≤ keys.length := List.countP_le_length
  rw [countBelow_append, hrest, Nat.add_zero,
    List.getElem?_append_left (Nat.lt_of_le_of_lt hcount more)]

theorem getElem?_join_of_lt (more : pieces.length = keys.length + 1) (hk : sep < k)
    (below : ∀ x ∈ keys, x < sep) :
    (pieces ++ others)[countBelow (keys ++ sep :: rest) k]? = others[countBelow rest k]? := by
  have hkeys : countBelow keys k = keys.length :=
    countBelow_eq_length (fun x hx => (below x hx).trans hk)
  have hsep : countBelow (sep :: rest) k = countBelow rest k + 1 :=
    List.countP_cons_of_pos (decide_eq_true hk)
  have hindex : countBelow (keys ++ sep :: rest) k = pieces.length + countBelow rest k := by
    rw [countBelow_append, hkeys, hsep, more]
    omega
  rw [hindex, List.getElem?_append_right (Nat.le_add_right _ _), Nat.add_sub_cancel_left]

end

end FatBTree.Order
