import FatBTree.Tcam.Compiled
import FatBTree.Tcam.Sweep
import Mathlib.Algebra.Order.Group.Nat
import Mathlib.Data.List.Perm.Subperm

/-!
# How many rows the tables have

The blocks of a level with a boundary are no more than the boundaries.  The first table
has one prefix; every prefix of the others has such a block, which also pays for the run
that is free.
-/

namespace FatBTree.Tcam

/-! ## Blocks and boundaries of a level -/

/-- The blocks of some prefixes that have a boundary. -/
def blocksWithBoundary (keys : List Nat) (shift : Nat) (pfs : List Nat) : List Nat :=
  pfs.flatMap (fun pf =>
    ((List.range (2 ^ 16)).filter (fun i => HasBoundary keys shift (pf * 2 ^ 16 + i))).map
      (fun i => pf * 2 ^ 16 + i))

section

variable {keys : List Nat} {shift : Nat} {pfs : List Nat}

theorem length_blocksWithBoundary (keys : List Nat) (shift : Nat) (pfs : List Nat) :
    (blocksWithBoundary keys shift pfs).length =
      (pfs.map (fun pf => boundaryBlocks keys shift pf (2 ^ 16))).sum := by
  rw [blocksWithBoundary, List.length_flatMap]
  refine congrArg List.sum (List.map_congr_left fun pf _ => ?_)
  rw [List.length_map, boundaryBlocks, List.countP_eq_length_filter]

/-- Every boundary lies in one block. -/
theorem length_blocksWithBoundary_le (sorted : pfs.Pairwise (· < ·)) :
    (blocksWithBoundary keys shift pfs).length ≤ keys.length := by
  have hsorted : (blocksWithBoundary keys shift pfs).Pairwise (· < ·) := by
    rw [blocksWithBoundary]
    exact blocks_sorted (p := HasBoundary keys shift) sorted
  have hnodup : (blocksWithBoundary keys shift pfs).Nodup := hsorted.imp Nat.ne_of_lt
  have hsubset : blocksWithBoundary keys shift pfs ⊆ keys.map (fun key => key / 2 ^ shift) := by
    intro q hq
    obtain ⟨pf, -, hmem⟩ := List.mem_flatMap.mp hq
    obtain ⟨i, hi, rfl⟩ := List.mem_map.mp hmem
    obtain ⟨key, hkey, hin⟩ := of_decide_eq_true (List.mem_filter.mp hi).2
    exact List.mem_map.mpr ⟨key, hkey, (div_eq_iff_block _ _ _).mpr hin⟩
  have hlen := (List.subperm_of_subset hnodup hsubset).length_le
  rwa [List.length_map] at hlen

/-- A block with a boundary has one among its own blocks. -/
theorem boundaryBlocks_pos {pf : Nat} (hblock : HasBoundary keys (shift + 16) pf) :
    1 ≤ boundaryBlocks keys shift pf (2 ^ 16) := by
  obtain ⟨key, hkey, hin⟩ := hblock
  have hpf : key / 2 ^ shift / 2 ^ 16 = pf := by
    rw [Nat.div_div_eq_div_mul, ← Nat.pow_add]
    exact (div_eq_iff_block _ _ _).mpr hin
  have hq : pf * 2 ^ 16 + key / 2 ^ shift % 2 ^ 16 = key / 2 ^ shift := by omega
  refine List.countP_pos_iff.mpr ⟨key / 2 ^ shift % 2 ^ 16, ?_, decide_eq_true ?_⟩
  · exact List.mem_range.mpr (Nat.mod_lt _ (Nat.two_pow_pos 16))
  · rw [hq]
    exact ⟨key, hkey, (div_eq_iff_block _ _ _).mp rfl⟩

end

/-! ## Rows of a level -/

section

variable {keys : List Nat} {level : Level} {pfs : List Nat}

theorem length_runLevel (start : Output) (isPrefix : ∀ pf ∈ pfs, level.IsPrefix pf) :
    (runLevel (rangelist keys) level pfs start).rows.length ≤
      (pfs.map (fun pf => 2 * boundaryBlocks keys level.shift pf (2 ^ 16) + 1)).sum := by
  induction pfs using List.reverseRecOn with
  | nil => exact Nat.le_refl 0
  | append_singleton pfs pf ih =>
      have hinit := ih (fun p hp => isPrefix p (List.mem_append_left _ hp))
      have hpf := isPrefix pf (List.mem_append_right _ (List.mem_singleton_self pf))
      obtain ⟨fresh, hrows, -, -, hlen⟩ := scanPrefix_laid hpf
        (runLevel (rangelist keys) level pfs start)
      rw [runLevel_append, hrows, List.length_append, List.map_append, List.sum_append,
        List.map_singleton, List.sum_singleton]
      exact Nat.add_le_add hinit hlen

/-- One prefix. -/
theorem length_runLevel_singleton (start : Output) {pf : Nat} (isPrefix : level.IsPrefix pf) :
    (runLevel (rangelist keys) level [pf] start).rows.length ≤ 2 * keys.length + 1 := by
  have hprefixes : ∀ p ∈ [pf], level.IsPrefix p := by
    intro p hp
    obtain rfl := List.mem_singleton.mp hp
    exact isPrefix
  have hrows : (runLevel (rangelist keys) level [pf] start).rows.length ≤ _ :=
    length_runLevel start hprefixes
  have hblocks : (blocksWithBoundary keys level.shift [pf]).length ≤ keys.length :=
    length_blocksWithBoundary_le (List.pairwise_singleton _ pf)
  rw [length_blocksWithBoundary, List.map_singleton, List.sum_singleton] at hblocks
  rw [List.map_singleton, List.sum_singleton] at hrows
  omega

theorem sum_le_three_mul {count : Nat → Nat} (each : ∀ pf ∈ pfs, 1 ≤ count pf) :
    (pfs.map (fun pf => 2 * count pf + 1)).sum ≤ 3 * (pfs.map count).sum := by
  induction pfs with
  | nil => exact Nat.le_refl 0
  | cons pf rest ih =>
      have hfirst := each pf List.mem_cons_self
      have hrest := ih (fun p hp => each p (List.mem_cons_of_mem _ hp))
      rw [List.map_cons, List.map_cons, List.sum_cons, List.sum_cons]
      omega

/-- Prefixes with a boundary each. -/
theorem length_runLevel_le (start : Output) (isPrefix : ∀ pf ∈ pfs, level.IsPrefix pf)
    (sorted : pfs.Pairwise (· < ·)) (blocks : ∀ pf ∈ pfs, HasBoundary keys (level.shift + 16) pf) :
    (runLevel (rangelist keys) level pfs start).rows.length ≤ 3 * keys.length := by
  have hrows : (runLevel (rangelist keys) level pfs start).rows.length ≤ _ :=
    length_runLevel start isPrefix
  have hblocks : (blocksWithBoundary keys level.shift pfs).length ≤ keys.length :=
    length_blocksWithBoundary_le sorted
  have hsum := sum_le_three_mul (fun pf hpf => boundaryBlocks_pos (blocks pf hpf))
  rw [length_blocksWithBoundary] at hblocks
  omega

end

/-! ## Prefixes have a boundary -/

section

variable {keys : List Nat} {q : Nat}

theorem hasBoundary_prefixes2 (hq : q ∈ prefixes2 keys) : HasBoundary keys 48 q := by
  obtain ⟨hlt, hsplit⟩ := (mem_prefixes2 keys).mp hq
  exact hasBoundary_of_split (blockHi_le (by decide) hlt) hsplit

theorem hasBoundary_prefixes3 (hq : q ∈ prefixes3 keys) : HasBoundary keys 32 q :=
  hasBoundary_of_split (blockHi_le (by decide) (prefixes3_lt keys hq))
    ((mem_prefixes3 keys).mp hq).2

theorem hasBoundary_prefixes4 (hq : q ∈ prefixes4 keys) : HasBoundary keys 16 q :=
  hasBoundary_of_split (blockHi_le (by decide) (prefixes4_lt keys hq))
    ((mem_prefixes4 keys).mp hq).2

end

end FatBTree.Tcam
