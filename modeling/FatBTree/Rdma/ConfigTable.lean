import FatBTree.Tcam.Compiled
import FatBTree.Tcam.Sweep

/-!
# The RDMA table compiler

`config_table.cpp` cuts the boundaries into four range tables.  For every prefix the rows
partition the 16-bit pieces, a final row names the range of all its keys, and any other
row leads to the next table.
-/

namespace FatBTree.Rdma.ConfigTable

open FatBTree.Tcam FatBTree.Text

/-! ## The program -/

def level1 : Level := ⟨48, false, false, true⟩
def level2 : Level := ⟨32, true, false, true⟩
def level3 : Level := ⟨16, true, false, true⟩
def level4 : Level := ⟨0, true, false, false⟩

/-- The variables of `main` before the first loop. -/
def start (ranges : List Range) : Output := ⟨fun _ => 0, ranges.length, [], []⟩

def output1 (ranges : List Range) : Output :=
  runLevel ranges level1 [0] (start ranges)

def output2 (ranges : List Range) : Output :=
  runLevel ranges level2 (output1 ranges).table (output1 ranges)

def output3 (ranges : List Range) : Output :=
  runLevel ranges level3 (output2 ranges).table (output2 ranges)

def output4 (ranges : List Range) : Output :=
  runLevel ranges level4 (output3 ranges).table (output3 ranges)

/-- The lines that `main` writes to its standard output. -/
def printed (ranges : List Range) : List (List Char) :=
  ranges.flatMap printRange ++
    "# 1".toList :: (output1 ranges).rows.map Row.text ++ [[], []] ++
    "# 2".toList :: (output2 ranges).rows.map Row.text ++ [[], []] ++
    "# 3".toList :: (output3 ranges).rows.map Row.text ++ [[], []] ++
    "# 4".toList :: (output4 ranges).rows.map Row.text

/-- The program, from the text of `keys_info.txt` to the text of `table_info.txt`. -/
def configTable (keysInfo : List Char) : List Char :=
  unlines (printed (rangelist (readKeys keysInfo.length keysInfo)))

/-! ## What the rows say -/

/-- The key has the prefix, and `i` as its next 16 bits. -/
def KeyOf (level : Level) (pf i : Nat) (x : BitVec 64) : Prop :=
  x.toNat / 2 ^ (level.shift + 16) = pf ∧ x.toNat / 2 ^ level.shift % 2 ^ 16 = i

/-- The boundaries below a key. -/
def below (keys : List (BitVec 64)) (x : BitVec 64) : Nat :=
  keys.countP (fun key => decide (key < x))

/-- The rows of a prefix partition its pieces, and what a row says holds of the keys in
it; `next` are the prefixes of the next level. -/
structure Exact (keys : List (BitVec 64)) (level : Level) (next : List Nat) (pf : Nat)
    (rows : List Row) : Prop where
  ordered : rows.Pairwise (fun row other => row.r < other.l)
  cover : ∀ i, (∃ row ∈ rows, row.l ≤ i ∧ i ≤ row.r) ↔ i ≤ uint16Max
  nonempty : ∀ row ∈ rows, row.l ≤ row.r
  marked : ∀ row ∈ rows, row.next = 0 ∨ row.next = 1
  final : ∀ row ∈ rows, row.next = 0 → ∀ x i, KeyOf level pf i x → row.l ≤ i → i ≤ row.r →
    below keys x = row.idx ∧ ∃ range, (rangelist (keys.map BitVec.toNat))[row.idx]? = some range ∧
      range.l ≤ x.toNat ∧ x.toNat ≤ range.r
  split : ∀ row ∈ rows, row.next = 1 → row.l = row.r ∧ (pf <<< 16) + row.l ∈ next ∧
    ∃ x y, KeyOf level pf row.l x ∧ KeyOf level pf row.l y ∧ below keys x ≠ below keys y
  last : level = level4 → ∀ row ∈ rows, row.next = 0

/-- However often the inner `while` has turned, `j` is the number of a range, and the
loop ends at a range that reaches the block. -/
structure InBounds (ranges : List Range) (level : Level) (pf : Nat) (out : Output) : Prop where
  inside : ∀ i, i ≤ uint16Max → ∀ turns,
    advance ranges (tmpL level pf i) turns (scanBlocks ranges level pf i out).j < ranges.length
  ends : ∀ i, i ≤ uint16Max → tmpL level pf i ≤
    (ranges.getD (advance ranges (tmpL level pf i) ranges.length
      (scanBlocks ranges level pf i out).j) default).r

/-- One of the four loops: its level, its prefixes, the variables before it and the
table it leaves. -/
structure Pass where
  level : Level
  pfs : List Nat
  start : Output
  table : List Nat

def passes (ranges : List Range) : List Pass :=
  [⟨level1, [0], start ranges, (output1 ranges).table⟩,
    ⟨level2, (output1 ranges).table, output1 ranges, (output2 ranges).table⟩,
    ⟨level3, (output2 ranges).table, output2 ranges, (output3 ranges).table⟩,
    ⟨level4, (output3 ranges).table, output3 ranges, (output4 ranges).table⟩]

/-- The variables after the first prefixes of a pass. -/
def Pass.after (pass : Pass) (ranges : List Range) (pfs : List Nat) : Output :=
  runLevel ranges pass.level pfs pass.start

/-- Every prefix of the pass is swept within the ranges, and the rows that are printed for
it are exact. -/
def Pass.SweepsExactly (keys : List (BitVec 64)) (pass : Pass) : Prop :=
  ∀ done pf rest, pass.pfs = done ++ pf :: rest →
    InBounds (rangelist (keys.map BitVec.toNat)) pass.level pf
        (pass.after (rangelist (keys.map BitVec.toNat)) done) ∧
      ∃ rows, (scanPrefix (rangelist (keys.map BitVec.toNat)) pass.level
          (pass.after (rangelist (keys.map BitVec.toNat)) done) pf).rows =
        (pass.after (rangelist (keys.map BitVec.toNat)) done).rows ++ rows ∧
        Exact keys pass.level pass.table pf rows

/-- The compiler leaves the prefixes of the Ethernet one. -/
theorem tables_eq (keys : List Nat) : (output1 (rangelist keys)).table = prefixes2 keys ∧
    (output2 (rangelist keys)).table = prefixes3 keys ∧
    (output3 (rangelist keys)).table = prefixes4 keys :=
  tables_of_shifts keys (start (rangelist keys)) ⟨rfl, rfl⟩ ⟨rfl, rfl⟩ ⟨rfl, rfl⟩ rfl rfl rfl

/-! ## One prefix -/

section

variable {level : Level} {pf : Nat}

/-- The keys of a piece are those of its block. -/
theorem keyOf_iff {i : Nat} (hi : i < 2 ^ 16) (x : BitVec 64) :
    KeyOf level pf i x ↔ blockLo level.shift (pf * 2 ^ 16 + i) ≤ x.toNat ∧
      x.toNat ≤ blockHi level.shift (pf * 2 ^ 16 + i) := by
  have hhigh : x.toNat / 2 ^ (level.shift + 16) = x.toNat / 2 ^ level.shift / 2 ^ 16 := by
    rw [Nat.pow_add, Nat.div_div_eq_div_mul]
  rw [← div_eq_iff_block, KeyOf, hhigh]
  omega

variable {keys : List (BitVec 64)} (sorted : keys.Pairwise (· ≤ ·))

include sorted

/-- All keys of a block that fits lie in its range. -/
theorem final_of_fits {i : Nat} (hi : i < 2 ^ 16) {x : BitVec 64} (keyOf : KeyOf level pf i x)
    (fits : Fits (keys.map BitVec.toNat) level.shift (pf * 2 ^ 16 + i)) :
    below keys x = blockIdx (keys.map BitVec.toNat) level.shift (pf * 2 ^ 16 + i) ∧
      ∃ range, (rangelist (keys.map BitVec.toNat))[blockIdx (keys.map BitVec.toNat) level.shift
          (pf * 2 ^ 16 + i)]? = some range ∧ range.l ≤ x.toNat ∧ x.toNat ≤ range.r := by
  obtain ⟨hlow, hhigh⟩ := (keyOf_iff hi x).mp keyOf
  have hidx := fits.jAt_eq hlow hhigh
  rw [← hidx]
  refine ⟨(jAt_toNat sorted x).symm, ?_⟩
  have hmax : x.toNat ≤ uint64Max := Nat.le_sub_one_of_lt x.isLt
  have hle : jAt (keys.map BitVec.toNat) x.toNat ≤ (keys.map BitVec.toNat).length := jAt_le_length
  have hlen : jAt (keys.map BitVec.toNat) x.toNat <
      (rangelist (keys.map BitVec.toNat)).length := by
    rw [length_rangelist]
    exact Nat.lt_succ_of_le hle
  have hget := List.getD_eq_getElem _ (default : Range) hlen
  refine ⟨_, List.getElem?_eq_getElem hlen, ?_, ?_⟩
  · rw [← hget]
    exact range_l_le
  · rw [← hget, range_r hle]
    exact le_rAt_jAt hmax

/-- The ends of a block that does not fit lie in different ranges. -/
theorem different_of_split {i : Nat} (isPrefix : level.IsPrefix pf) (hi : i < 2 ^ 16)
    (split : ¬ Fits (keys.map BitVec.toNat) level.shift (pf * 2 ^ 16 + i)) :
    ∃ x y, KeyOf level pf i x ∧ KeyOf level pf i y ∧ below keys x ≠ below keys y := by
  have hhigh := isPrefix.blockHi_le hi
  have hle := blockLo_le_blockHi level.shift (pf * 2 ^ 16 + i)
  have htoNat : ∀ t, t ≤ uint64Max → (BitVec.ofNat 64 t).toNat = t := by
    intro t ht
    exact Nat.mod_eq_of_lt (Nat.lt_of_le_sub_one (by decide) ht)
  have hlo := htoNat _ (hle.trans hhigh)
  have hhi := htoNat _ hhigh
  refine ⟨BitVec.ofNat 64 (blockLo level.shift (pf * 2 ^ 16 + i)),
    BitVec.ofNat 64 (blockHi level.shift (pf * 2 ^ 16 + i)), ?_, ?_, fun hsame => split ?_⟩
  · rw [keyOf_iff hi, hlo]
    exact ⟨Nat.le_refl _, hle⟩
  · rw [keyOf_iff hi, hhi]
    exact ⟨hle, Nat.le_refl _⟩
  · rw [below, below, ← jAt_toNat sorted, ← jAt_toNat sorted, hlo, hhi] at hsame
    rw [Fits, blockIdx, hsame]
    exact le_rAt_jAt hhigh

/-- The rows of a prefix. -/
theorem exact_sweep (isPrefix : level.IsPrefix pf) (start : Output) {next : List Nat}
    (follows : ∀ i, i < 2 ^ 16 →
      ¬ Fits (keys.map BitVec.toNat) level.shift (pf * 2 ^ 16 + i) → pf * 2 ^ 16 + i ∈ next) :
    ∃ rows, (scanPrefix (rangelist (keys.map BitVec.toNat)) level start pf).rows =
        start.rows ++ rows ∧ Exact keys level next pf rows := by
  obtain ⟨rows, hrows, -, hsettled, -⟩ :=
    (scanPrefix_done isPrefix start : PrefixDone (keys.map BitVec.toNat) level pf start _).rows
  obtain ⟨fresh, hfresh, htiles, hmarked, -⟩ :=
    @scanPrefix_laid (keys.map BitVec.toNat) level pf isPrefix start
  obtain rfl : rows = fresh := List.append_cancel_left (hrows.symm.trans hfresh)
  have hwithin : ∀ row ∈ rows, row.l ≤ row.r ∧ row.r < 2 ^ 16 := by
    intro row hrow
    obtain ⟨-, hlr, hr⟩ := htiles.within hrow
    exact ⟨hlr, hr⟩
  have hmax : ∀ i, i ≤ uint16Max ↔ i < 2 ^ 16 := fun i => Nat.le_sub_one_iff_lt (by decide)
  refine ⟨rows, hrows, htiles.ordered, ?_, fun row hrow => (hwithin row hrow).1, ?_, ?_, ?_, ?_⟩
  · intro i
    rw [htiles.mem_iff, hmax]
    exact and_iff_right (Nat.zero_le i)
  · exact fun row hrow => (hmarked row hrow).imp_right And.left
  · intro row hrow hnext x i hkey hl hr
    have hi : i < 2 ^ 16 := Nat.lt_of_le_of_lt hr (hwithin row hrow).2
    have hcontent := hsettled.content_eq hrow hl hr hi
    rw [content] at hcontent
    split at hcontent
    next hfits =>
      obtain ⟨-, hidx⟩ := Prod.mk.inj hcontent
      rw [← hidx]
      exact final_of_fits sorted hi hkey hfits
    next => exact absurd ((Prod.mk.inj hcontent).1.trans hnext) (by decide)
  · intro row hrow hnext
    obtain ⟨hlr, hr⟩ := hwithin row hrow
    have hi : row.l < 2 ^ 16 := Nat.lt_of_le_of_lt hlr hr
    have hsame : row.l = row.r := by
      rcases hmarked row hrow with hzero | ⟨-, hsame⟩
      · exact absurd (hzero.symm.trans hnext) (by decide)
      · exact hsame
    have hcontent := hsettled.content_eq hrow (Nat.le_refl _) hlr hi
    rw [content] at hcontent
    split at hcontent
    next => exact absurd ((Prod.mk.inj hcontent).1.trans hnext) (by decide)
    next hsplit =>
      refine ⟨hsame, ?_, different_of_split sorted isPrefix hi hsplit⟩
      rw [Nat.shiftLeft_eq]
      exact follows row.l hi hsplit
  · rintro rfl row hrow
    obtain ⟨hlr, hr⟩ := hwithin row hrow
    have hi : row.l < 2 ^ 16 := Nat.lt_of_le_of_lt hlr hr
    have hcontent := hsettled.content_eq hrow (Nat.le_refl _) hlr hi
    have hkey : pf * 2 ^ 16 + row.l = blockHi level4.shift (pf * 2 ^ 16 + row.l) := by
      simp [level4, blockHi]
    have hfits : Fits (keys.map BitVec.toNat) level4.shift (pf * 2 ^ 16 + row.l) :=
      fits_zero _ (hkey.trans_le (isPrefix.blockHi_le hi))
    rw [content, if_pos hfits] at hcontent
    exact (Prod.mk.inj hcontent).1.symm

end

theorem inBounds_sweep {level : Level} {pf : Nat} (keys : List Nat)
    (isPrefix : level.IsPrefix pf) (start : Output) :
    InBounds (rangelist keys) level pf start := by
  have hmax : ∀ i, i ≤ uint16Max → i < 2 ^ 16 := fun i hi => Nat.lt_succ_of_le hi
  have hlow : ∀ i, i < 2 ^ 16 → blockLo level.shift (pf * 2 ^ 16 + i) ≤ uint64Max :=
    fun i hi => (blockLo_le_blockHi _ _).trans (isPrefix.blockHi_le hi)
  have hinv : ∀ i, i < 2 ^ 16 →
      ScanInv keys level pf start i (scanBlocks (rangelist keys) level pf i start) :=
    fun i hi => scanBlocks_inv isPrefix start (Nat.le_of_lt hi)
  constructor
  · intro i hi turns
    rw [tmpL_eq, length_rangelist]
    exact Nat.lt_succ_of_le
      ((advance_le (hlow i (hmax i hi)) (hinv i (hmax i hi)).before).trans jAt_le_length)
  · intro i hi
    have hfuel : ∀ t j, jAt keys t ≤ j + (rangelist keys).length := by
      intro t j
      rw [length_rangelist]
      exact (Nat.le_succ_of_le jAt_le_length).trans (Nat.le_add_left _ _)
    rw [tmpL_eq, advance_eq (hlow i (hmax i hi)) (hinv i (hmax i hi)).before (hfuel _ _),
      range_r jAt_le_length]
    exact le_rAt_jAt (hlow i (hmax i hi))

/-! ## All prefixes -/

section

variable {keys : List (BitVec 64)} (sorted : keys.Pairwise (· ≤ ·))

include sorted

theorem sweepsExactly {level : Level} {pfs table : List Nat} (start : Output)
    (isPrefix : ∀ pf ∈ pfs, level.IsPrefix pf)
    (follows : ∀ q, q / 2 ^ 16 ∈ pfs → ¬ Fits (keys.map BitVec.toNat) level.shift q → q ∈ table) :
    (Pass.mk level pfs start table).SweepsExactly keys := by
  intro done pf rest hpfs
  have hpf : pf ∈ pfs := by
    dsimp only at hpfs
    exact hpfs ▸ List.mem_append_right _ List.mem_cons_self
  refine ⟨inBounds_sweep _ (isPrefix pf hpf) _,
    exact_sweep sorted (isPrefix pf hpf) _ fun i hi hsplit => follows _ ?_ hsplit⟩
  rw [div_blockNo hi]
  exact hpf

/-- The rows of every prefix of every level partition its pieces and say what holds of the
keys in them. -/
theorem sweep_exact :
    ∀ pass ∈ passes (rangelist (keys.map BitVec.toNat)), pass.SweepsExactly keys := by
  intro pass hpass
  obtain ⟨htable1, htable2, htable3⟩ := tables_eq (keys.map BitVec.toNat)
  simp only [passes, List.mem_cons, List.not_mem_nil, or_false, htable1, htable2, htable3] at hpass
  rcases hpass with rfl | rfl | rfl | rfl
  · exact sweepsExactly sorted _ (fun _ => isPrefix1 rfl)
      fun q hq hsplit => mem_newKeys.mpr ⟨hq, hsplit⟩
  · exact sweepsExactly sorted _ (fun _ => isPrefix2 _ rfl)
      fun q hq hsplit => (mem_prefixes3 _).mpr ⟨hq, hsplit⟩
  · exact sweepsExactly sorted _ (fun _ => isPrefix3 _ rfl)
      fun q hq hsplit => (mem_prefixes4 _).mpr ⟨hq, hsplit⟩
  · refine sweepsExactly sorted _ (fun _ => isPrefix4 _ rfl) fun q hq hsplit => ?_
    have hlt := prefixes4_lt _ hq
    exact absurd (fits_zero _ (by rw [uint64Max]; omega)) hsplit

end

/-- A boundary inside a block, and one that occurs twice at the end of a block. -/
theorem sweep_exact_three :
    (passes (rangelist (([5, 0xffffffff, 0xffffffff] : List (BitVec 64)).map
      BitVec.toNat)))[3].SweepsExactly [5, 0xffffffff, 0xffffffff] :=
  sweep_exact (by decide) _ (List.getElem_mem _)

end FatBTree.Rdma.ConfigTable
