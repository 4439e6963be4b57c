import FatBTree.Tcam.Levels

/-!
# The four compiled tables

The levels feed each other: the blocks of one that do not fit are the prefixes of the
next.
-/

namespace FatBTree.Tcam

section

variable (keys : List Nat)

/-- The prefixes of the second table, and so on. -/
def prefixes2 : List Nat := newKeys keys 48 [0]

def prefixes3 : List Nat := newKeys keys 32 (prefixes2 keys)

def prefixes4 : List Nat := newKeys keys 16 (prefixes3 keys)

theorem mem_prefixes2 {q : Nat} : q ∈ prefixes2 keys ↔ q < 2 ^ 16 ∧ ¬ Fits keys 48 q := by
  rw [prefixes2, mem_newKeys, List.mem_singleton, Nat.div_eq_zero_iff]
  simp

theorem mem_prefixes3 {q : Nat} :
    q ∈ prefixes3 keys ↔ q / 2 ^ 16 ∈ prefixes2 keys ∧ ¬ Fits keys 32 q :=
  mem_newKeys

theorem mem_prefixes4 {q : Nat} :
    q ∈ prefixes4 keys ↔ q / 2 ^ 16 ∈ prefixes3 keys ∧ ¬ Fits keys 16 q :=
  mem_newKeys

theorem prefixes2_lt {q : Nat} (hq : q ∈ prefixes2 keys) : q < 2 ^ 16 :=
  ((mem_prefixes2 keys).mp hq).1

theorem prefixes3_lt {q : Nat} (hq : q ∈ prefixes3 keys) : q < 2 ^ 32 := by
  have hhigh := prefixes2_lt keys ((mem_prefixes3 keys).mp hq).1
  omega

theorem prefixes4_lt {q : Nat} (hq : q ∈ prefixes4 keys) : q < 2 ^ 48 := by
  have hhigh := prefixes3_lt keys ((mem_prefixes4 keys).mp hq).1
  omega

theorem prefixes2_sorted : (prefixes2 keys).Pairwise (· < ·) :=
  newKeys_sorted (List.pairwise_singleton _ 0)

theorem prefixes3_sorted : (prefixes3 keys).Pairwise (· < ·) :=
  newKeys_sorted (prefixes2_sorted keys)

theorem prefixes4_sorted : (prefixes4 keys).Pairwise (· < ·) :=
  newKeys_sorted (prefixes3_sorted keys)

/-- Every single key fits, so no number is handed out by the last level. -/
theorem newKeys_prefixes4 : newKeys keys 0 (prefixes4 keys) = [] := by
  rw [List.eq_nil_iff_forall_not_mem]
  intro q hq
  obtain ⟨hpf, hsplit⟩ := mem_newKeys.mp hq
  have hlt := prefixes4_lt keys hpf
  refine hsplit (fits_zero keys ?_)
  rw [uint64Max]
  omega

/-! ## Levels that cut at the four places -/

theorem isPrefix1 {level : Level} (hshift : level.shift = 48) {pf : Nat} (hpf : pf ∈ [0]) :
    level.IsPrefix pf := by
  obtain rfl := List.mem_singleton.mp hpf
  rw [Level.IsPrefix, hshift]
  decide

theorem isPrefix2 {level : Level} (hshift : level.shift = 32) {pf : Nat}
    (hpf : pf ∈ prefixes2 keys) : level.IsPrefix pf := by
  rw [Level.IsPrefix, hshift]
  exact ⟨by decide, prefixes2_lt keys hpf⟩

theorem isPrefix3 {level : Level} (hshift : level.shift = 16) {pf : Nat}
    (hpf : pf ∈ prefixes3 keys) : level.IsPrefix pf := by
  rw [Level.IsPrefix, hshift]
  exact ⟨by decide, prefixes3_lt keys hpf⟩

theorem isPrefix4 {level : Level} (hshift : level.shift = 0) {pf : Nat}
    (hpf : pf ∈ prefixes4 keys) : level.IsPrefix pf := by
  rw [Level.IsPrefix, hshift]
  exact ⟨by decide, prefixes4_lt keys hpf⟩

/-- A level leaves the blocks that do not fit. -/
theorem runLevel_table {level : Level} (pushes : level.pushes = true) {pfs : List Nat}
    (isPrefix : ∀ pf ∈ pfs, level.IsPrefix pf) (sorted : pfs.Pairwise (· < ·)) (start : Output) :
    (runLevel (rangelist keys) level pfs start).table = newKeys keys level.shift pfs :=
  (runLevel_numbered start isPrefix sorted).table.trans (if_pos pushes)

/-- Three levels that feed each other, whatever their rows look like. -/
theorem tables_of_shifts {first second third : Level} (start : Output)
    (hfirst : first.shift = 48 ∧ first.pushes = true)
    (hsecond : second.shift = 32 ∧ second.pushes = true)
    (hthird : third.shift = 16 ∧ third.pushes = true) {out1 out2 out3 : Output}
    (hout1 : out1 = runLevel (rangelist keys) first [0] start)
    (hout2 : out2 = runLevel (rangelist keys) second out1.table out1)
    (hout3 : out3 = runLevel (rangelist keys) third out2.table out2) :
    out1.table = prefixes2 keys ∧ out2.table = prefixes3 keys ∧ out3.table = prefixes4 keys := by
  have htable1 : out1.table = prefixes2 keys := by
    rw [hout1, runLevel_table keys hfirst.2 (fun _ => isPrefix1 hfirst.1)
      (List.pairwise_singleton _ 0), hfirst.1, prefixes2]
  have htable2 : out2.table = prefixes3 keys := by
    rw [hout2, htable1, runLevel_table keys hsecond.2 (fun _ => isPrefix2 keys hsecond.1)
      (prefixes2_sorted keys), hsecond.1, prefixes3]
  refine ⟨htable1, htable2, ?_⟩
  rw [hout3, htable2, runLevel_table keys hthird.2 (fun _ => isPrefix3 keys hthird.1)
    (prefixes3_sorted keys), hthird.1, prefixes4]

/-! ## The state between the levels -/

/-- The variables of `main` before the first loop. -/
def before1 : Output := ⟨fun _ => 0, (rangelist keys).length, [], []⟩

theorem tables_eq : (output1 (rangelist keys)).table = prefixes2 keys ∧
    (output2 (rangelist keys)).table = prefixes3 keys ∧
    (output3 (rangelist keys)).table = prefixes4 keys :=
  tables_of_shifts keys (before1 keys) ⟨rfl, rfl⟩ ⟨rfl, rfl⟩ ⟨rfl, rfl⟩ rfl rfl rfl

theorem numbered1 : Numbered keys level1 (before1 keys) [0] (output1 (rangelist keys)) :=
  runLevel_numbered _ (fun _ => isPrefix1 rfl) (List.pairwise_singleton _ 0)

theorem numbered2 : Numbered keys level2 (output1 (rangelist keys)) (prefixes2 keys)
    (output2 (rangelist keys)) := by
  rw [output2, (tables_eq keys).1]
  exact runLevel_numbered _ (fun _ => isPrefix2 keys rfl) (prefixes2_sorted keys)

theorem numbered3 : Numbered keys level3 (output2 (rangelist keys)) (prefixes3 keys)
    (output3 (rangelist keys)) := by
  rw [output3, (tables_eq keys).2.1]
  exact runLevel_numbered _ (fun _ => isPrefix3 keys rfl) (prefixes3_sorted keys)

theorem linked2 : Linked keys level2 (output1 (rangelist keys)) (prefixes2 keys)
    (output2 (rangelist keys)) := by
  rw [output2, (tables_eq keys).1]
  exact runLevel_linked rfl _ (fun _ => isPrefix2 keys rfl) (prefixes2_sorted keys)
    (fun p hp => ((numbered1 keys).fresh p hp).2) (numbered1 keys).distinct

theorem linked3 : Linked keys level3 (output2 (rangelist keys)) (prefixes3 keys)
    (output3 (rangelist keys)) := by
  rw [output3, (tables_eq keys).2.1]
  exact runLevel_linked rfl _ (fun _ => isPrefix3 keys rfl) (prefixes3_sorted keys)
    (fun p hp => ((numbered2 keys).fresh p hp).2) (numbered2 keys).distinct

theorem linked4 : Linked keys level4 (output3 (rangelist keys)) (prefixes4 keys)
    (output4 (rangelist keys)) := by
  rw [output4, (tables_eq keys).2.2]
  exact runLevel_linked rfl _ (fun _ => isPrefix4 keys rfl) (prefixes4_sorted keys)
    (fun p hp => ((numbered3 keys).fresh p hp).2) (numbered3 keys).distinct

/-- The rows of the first table: no heads, none glued, one row for every piece. -/
theorem rows1 :
    (∀ row ∈ (output1 (rangelist keys)).rows, row.pf = none ∧ row.glued = false) ∧
      ∀ i, i < 2 ^ 16 → ((output1 (rangelist keys)).rows.filter (fun row => row.covers i)).map
          (fun row => (row.next, row.idx)) =
        [if Fits keys 48 i then (0, blockIdx keys 48 i)
          else (1, (output1 (rangelist keys)).pfidx i)] := by
  have hrun : output1 (rangelist keys) = scanPrefix (rangelist keys) level1 (before1 keys) 0 := by
    rw [output1, runLevel, List.foldl_cons, List.foldl_nil]
    exact congrArg (fun out => scanPrefix (rangelist keys) level1 out 0) rfl
  have hdone : PrefixDone keys level1 0 (before1 keys) (output1 (rangelist keys)) :=
    hrun ▸ scanPrefix_done ⟨by decide, by decide⟩ (before1 keys)
  obtain ⟨fresh, hrows, hhead, hcover, hglued⟩ := hdone.rows
  obtain rfl : (output1 (rangelist keys)).rows = fresh := hrows
  refine ⟨?_, ?_⟩
  · intro row hrow
    refine ⟨hhead row hrow, ?_⟩
    cases hglue : row.glued with
    | false => rfl
    | true => exact absurd (hglued.mp ⟨row, hrow, hglue⟩).1 (by decide)
  · intro i hi
    have hno : 0 * 2 ^ 16 + i = i := by omega
    have hshift : level1.shift = 48 := rfl
    rw [hcover i, if_pos hi, content, hno, hshift]
    by_cases hfit : Fits keys 48 i
    · rw [if_pos hfit, if_pos hfit]
    · have hmod : i % 2 ^ 16 = i := Nat.mod_eq_of_lt hi
      rw [if_neg hfit, if_neg hfit, pfidx_of_mem hdone (Nat.div_eq_of_lt hi) hfit, hmod, hshift]

end

end FatBTree.Tcam
