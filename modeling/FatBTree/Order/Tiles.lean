import Mathlib.Tactic.Common

/-!
# Intervals that follow each other

A list of intervals tiles a stretch of numbers when each of them starts where the one
before it ended.
-/

namespace FatBTree.Order

variable {α : Type} {first last : α → Nat} {lo hi : Nat} {xs : List α}

/-- The intervals of the list lie end to end from `lo` up to `hi`, which is outside. -/
inductive Tiles (first last : α → Nat) (lo : Nat) : List α → Nat → Prop where
  | nil : Tiles first last lo [] lo
  | snoc {xs : List α} {x : α} (tiles : Tiles first last lo xs (first x))
      (nonempty : first x ≤ last x) : Tiles first last lo (xs ++ [x]) (last x + 1)

namespace Tiles

theorem le (tiles : Tiles first last lo xs hi) : lo ≤ hi := by
  induction tiles with
  | nil => exact Nat.le_refl lo
  | snoc tiles nonempty ih => exact Nat.le_succ_of_le (Nat.le_trans ih nonempty)

/-- Every interval lies within the stretch. -/
theorem within (tiles : Tiles first last lo xs hi) {x : α} (hx : x ∈ xs) :
    lo ≤ first x ∧ first x ≤ last x ∧ last x < hi := by
  induction tiles with
  | nil => cases hx
  | snoc tiles nonempty ih =>
      rcases List.mem_append.mp hx with hold | hnew
      · obtain ⟨hlo, hle, hlt⟩ := ih hold
        exact ⟨hlo, hle, Nat.lt_succ_of_lt (Nat.lt_of_lt_of_le hlt nonempty)⟩
      · obtain rfl := List.mem_singleton.mp hnew
        exact ⟨tiles.le, nonempty, Nat.lt_succ_self _⟩

theorem ordered (tiles : Tiles first last lo xs hi) :
    xs.Pairwise (fun x y => last x < first y) := by
  induction tiles with
  | nil => exact List.Pairwise.nil
  | snoc tiles nonempty ih =>
      refine List.pairwise_append.mpr ⟨ih, List.pairwise_singleton _ _, ?_⟩
      intro x hx y hy
      obtain rfl := List.mem_singleton.mp hy
      exact (tiles.within hx).2.2

/-- Every number of the stretch is in an interval, and no other number is. -/
theorem mem_iff (tiles : Tiles first last lo xs hi) (i : Nat) :
    (∃ x ∈ xs, first x ≤ i ∧ i ≤ last x) ↔ lo ≤ i ∧ i < hi := by
  constructor
  · rintro ⟨x, hx, hfirst, hlast⟩
    obtain ⟨hlo, -, hhi⟩ := tiles.within hx
    exact ⟨Nat.le_trans hlo hfirst, Nat.lt_of_le_of_lt hlast hhi⟩
  · rintro ⟨hlo, hhi⟩
    induction tiles with
    | nil => exact absurd hlo (Nat.not_le.mpr hhi)
    | @snoc ys y tiles nonempty ih =>
        rcases Nat.lt_or_ge i (first y) with hbefore | hfrom
        · obtain ⟨x, hx, hin⟩ := ih hbefore
          exact ⟨x, List.mem_append_left _ hx, hin⟩
        · exact ⟨y, List.mem_append_right _ (List.mem_singleton_self y), hfrom,
            Nat.le_of_lt_succ hhi⟩

end Tiles

end FatBTree.Order
