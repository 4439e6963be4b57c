import Mathlib.Data.List.Basic
import Mathlib.Tactic.Common

/-!
# Buffers

Memory behind a pointer, as a function from offsets to cells.  Consecutive
writes leave one run of cells behind, and a run is read back as it was written
whatever surrounds it.
-/

namespace FatBTree.Wire

variable {α : Type}

/-- Cells from an offset on replaced by the given ones. -/
def store (buf : Nat → α) (pos : Nat) (xs : List α) : Nat → α :=
  fun i => if i < pos then buf i else (xs[i - pos]?).getD (buf i)

/-- A run of cells. -/
def load (buf : Nat → α) (pos count : Nat) : List α :=
  (List.range count).map fun i => buf (pos + i)

/-- The cells from an offset on are the given ones. -/
def Reads (buf : Nat → α) (pos : Nat) (xs : List α) : Prop :=
  load buf pos xs.length = xs

variable {buf buf' : Nat → α} {pos : Nat} {xs ys : List α}

@[simp]
theorem length_load (count : Nat) : (load buf pos count).length = count := by
  rw [load, List.length_map, List.length_range]

theorem getElem?_load {count i : Nat} (hi : i < count) :
    (load buf pos count)[i]? = some (buf (pos + i)) := by
  rw [load, List.getElem?_map, List.getElem?_range hi, Option.map_some]

theorem reads_iff : Reads buf pos xs ↔ ∀ i x, xs[i]? = some x → buf (pos + i) = x := by
  constructor
  · intro reads i x hx
    have hi := (List.getElem?_eq_some_iff.mp hx).1
    rw [← reads, getElem?_load hi] at hx
    exact Option.some.inj hx
  · intro hall
    refine List.ext_getElem? fun i => ?_
    rcases Nat.lt_or_ge i xs.length with hi | hi
    · rw [getElem?_load hi, List.getElem?_eq_getElem hi]
      exact congrArg some (hall i _ (List.getElem?_eq_getElem hi))
    · rw [List.getElem?_eq_none_iff.mpr (by simpa using hi), List.getElem?_eq_none_iff.mpr hi]

theorem store_nil : store buf pos [] = buf := by
  funext i
  rw [store, List.getElem?_nil, Option.getD_none, ite_self]

theorem store_of_lt {i : Nat} (hi : i < pos) : store buf pos xs i = buf i := by
  rw [store, if_pos hi]

theorem store_of_le {i : Nat} (hi : pos ≤ i) :
    store buf pos xs i = (xs[i - pos]?).getD (buf i) := by
  rw [store, if_neg (Nat.not_lt.mpr hi)]

/-- A write that starts where the last one ended continues it. -/
theorem store_append :
    store (store buf pos xs) (pos + xs.length) ys = store buf pos (xs ++ ys) := by
  funext i
  rcases Nat.lt_or_ge i (pos + xs.length) with hfirst | hsecond
  · rw [store_of_lt hfirst]
    rcases Nat.lt_or_ge i pos with hbefore | hafter
    · rw [store_of_lt hbefore, store_of_lt hbefore]
    · rw [store_of_le hafter, store_of_le hafter, List.getElem?_append_left (by omega)]
  · have hafter : pos ≤ i := by omega
    have hlen : xs.length ≤ i - pos := by omega
    rw [store_of_le hsecond, store_of_le hafter, store_of_le hafter,
      List.getElem?_append_right hlen, List.getElem?_eq_none_iff.mpr hlen, Option.getD_none,
      Nat.sub_add_eq]

theorem reads_store : Reads (store buf pos xs) pos xs := by
  refine reads_iff.mpr fun i x hx => ?_
  rw [store_of_le (Nat.le_add_right pos i), Nat.add_sub_cancel_left, hx, Option.getD_some]

theorem Reads.left (reads : Reads buf pos (xs ++ ys)) : Reads buf pos xs := by
  refine reads_iff.mpr fun i x hx => reads_iff.mp reads i x ?_
  rw [List.getElem?_append_left (List.getElem?_eq_some_iff.mp hx).1, hx]

theorem Reads.right (reads : Reads buf pos (xs ++ ys)) : Reads buf (pos + xs.length) ys := by
  refine reads_iff.mpr fun i y hy => ?_
  rw [Nat.add_assoc]
  refine reads_iff.mp reads _ y ?_
  rw [List.getElem?_append_right (Nat.le_add_right _ _), Nat.add_sub_cancel_left, hy]

end FatBTree.Wire
