import FatBTree.Tcam.Compiled
import FatBTree.Tcam.Installed
import FatBTree.Tcam.KeyInfo

/-!
# When the compiled tables are exact

The four-stage lookup ends at the range of the key, unless the loader stopped at a
glued row or the prefix of the key lost its number to a block of the second level.
-/

namespace FatBTree.Tcam

open FatBTree.Text

/-! ## One table -/

theorem applyTable_of_single {table : List Entry} {found : Meta} {key result : Nat}
    {nexttable : Option Nat}
    (single : (table.filter (fun entry => entry.hits found key)).map
      (fun entry => (entry.result, entry.nexttable)) = [(result, nexttable)]) :
    applyTable table found key = (⟨result, nexttable.getD found.nexttable⟩, 1) := by
  obtain ⟨entry, hfilter, hentry⟩ := List.map_eq_singleton_iff.mp single
  rw [applyTable, hfilter]
  cases hentry
  rfl

theorem applyTable_of_none {table : List Entry} {found : Meta} {key : Nat}
    (missed : (table.filter (fun entry => entry.hits found key)).map
      (fun entry => (entry.result, entry.nexttable)) = []) :
    applyTable table found key = (found, 0) := by
  rw [applyTable, List.map_eq_nil_iff.mp missed]

theorem filter_entries {entry : Row → Entry} (hexact : ∀ row, (entry row).exact = row.pf)
    (hlo : ∀ row, (entry row).lo = row.l) (hhi : ∀ row, (entry row).hi = row.r)
    (rows : List Row) (found : Meta) (key : Nat) :
    (rows.map entry).filter (fun entry => entry.hits found key) =
      (rows.filter (fun row => row.pf.all (· == found.result) && row.covers key)).map entry := by
  rw [List.filter_map]
  congr 2
  funext row
  simp [Entry.hits, Row.covers, hexact, hlo, hhi, Bool.and_assoc]

theorem all_eq_decide {row : Row} {result : Nat} (linked : ∃ pf, row.pf = some pf) :
    row.pf.all (· == result) = decide (row.pf = some result) := by
  obtain ⟨pf, hpf⟩ := linked
  rw [hpf, Bool.eq_iff_iff]
  simp

/-! ## Pieces of a key -/

theorem piece_zero (key : BitVec 64) : piece key 0 = key.toNat / 2 ^ 48 := by
  have hkey := key.isLt
  simp only [piece]
  omega

theorem piece_low (key : BitVec 64) (t : Nat) : piece key t < 2 ^ 16 :=
  Nat.mod_lt _ (by decide)

theorem block_two (key : BitVec 64) :
    key.toNat / 2 ^ 48 * 2 ^ 16 + piece key 1 = key.toNat / 2 ^ 32 := by
  simp only [piece]
  omega

theorem block_three (key : BitVec 64) :
    key.toNat / 2 ^ 32 * 2 ^ 16 + piece key 2 = key.toNat / 2 ^ 16 := by
  simp only [piece]
  omega

theorem block_four (key : BitVec 64) :
    key.toNat / 2 ^ 16 * 2 ^ 16 + piece key 3 = key.toNat := by
  simp only [piece]
  omega

/-! ## The stages -/

section

variable {keys : List Nat}

/-- A linked table, applied to a block of one of its prefixes. -/
theorem applyTable_linked {level : Level} {start out : Output} {pfs : List Nat}
    (linked : Linked keys level start pfs out) (entry : Row → Entry) (nt : Nat → Option Nat)
    (hentry : ∀ row, entry row = ⟨row.pf, row.l, row.r, row.idx, nt row.next⟩)
    {pf i x : Nat} (hpf : pf ∈ pfs) (hi : i < 2 ^ 16) (hx : pf * 2 ^ 16 + i = x / 2 ^ level.shift)
    (next : Nat) :
    applyTable (out.rows.map entry) ⟨start.pfidx pf, next⟩ i =
      if pf ∈ newKeys keys level.shift pfs then (⟨start.pfidx pf, next⟩, 0)
      else if Fits keys level.shift (x / 2 ^ level.shift) then
        (⟨jAt keys x, (nt 0).getD next⟩, 1)
      else (⟨out.pfidx (x / 2 ^ level.shift), (nt 1).getD next⟩, 1) := by
  have hrows := linked.rows pf hpf i hi
  have hfilter : ((out.rows.map entry).filter
        (fun entry => entry.hits ⟨start.pfidx pf, next⟩ i)).map
          (fun entry => (entry.result, entry.nexttable)) =
      ((out.rows.filter (fun row =>
        decide (row.pf = some (start.pfidx pf)) && row.covers i)).map
          (fun row => (row.next, row.idx))).map (fun found => (found.2, nt found.1)) := by
    rw [filter_entries (fun row => by rw [hentry]) (fun row => by rw [hentry])
      (fun row => by rw [hentry]), List.map_map, List.map_map]
    have hcongr : out.rows.filter (fun row =>
        row.pf.all (· == start.pfidx pf) && row.covers i) =
        out.rows.filter (fun row => decide (row.pf = some (start.pfidx pf)) && row.covers i) := by
      refine List.filter_congr (fun row hrow => ?_)
      obtain ⟨head, hhead, -⟩ := linked.heads row hrow
      rw [all_eq_decide ⟨head, hhead⟩]
    rw [hcongr]
    refine List.map_congr_left (fun row _ => ?_)
    simp [hentry]
  rw [hrows, hx] at hfilter
  by_cases hlost : pf ∈ newKeys keys level.shift pfs
  · rw [if_pos hlost] at hfilter ⊢
    exact applyTable_of_none hfilter
  · rw [if_neg hlost] at hfilter ⊢
    by_cases hfit : Fits keys level.shift (x / 2 ^ level.shift)
    · rw [if_pos hfit, blockIdx_of_fits hfit] at hfilter
      rw [if_pos hfit]
      exact applyTable_of_single hfilter
    · rw [if_neg hfit] at hfilter ⊢
      exact applyTable_of_single hfilter

variable (key : BitVec 64)

/-- A table without heads, whose rows cover the piece once. -/
theorem applyTable_plain {rows : List Row} (plain : ∀ row ∈ rows, row.pf = none) {i next idx : Nat}
    (covered : (rows.filter (fun row => row.covers i)).map (fun row => (row.next, row.idx)) =
      [(next, idx)]) (found : Meta) :
    applyTable (rows.map Row.entry) found i = (⟨idx, next⟩, 1) := by
  have hcongr : rows.filter (fun row =>
      row.pf.all (· == found.result) && row.covers i) = rows.filter (fun row => row.covers i) := by
    refine List.filter_congr (fun row hrow => ?_)
    rw [plain row hrow]
    rfl
  have hsingle := congrArg (List.map fun found : Nat × Nat => (found.2, some found.1)) covered
  rw [List.map_map] at hsingle
  have hhits : ((rows.map Row.entry).filter (fun entry => entry.hits found i)).map
      (fun entry => (entry.result, entry.nexttable)) = [(idx, some next)] := by
    rw [filter_entries (fun _ => rfl) (fun _ => rfl) (fun _ => rfl), hcongr, List.map_map]
    exact hsingle
  exact applyTable_of_single hhits

theorem stage1 (found : Meta) :
    applyTable (printedTables (rangelist keys)).table1 found (piece key 0) =
      if Fits keys 48 (key.toNat / 2 ^ 48) then (⟨jAt keys key.toNat, 0⟩, 1)
      else (⟨(output1 (rangelist keys)).pfidx (key.toNat / 2 ^ 48), 1⟩, 1) := by
  obtain ⟨hplain, hrows⟩ := rows1 keys
  have hlow : key.toNat / 2 ^ 48 < 2 ^ 16 := piece_zero key ▸ piece_low key 0
  have hcovered := hrows _ hlow
  have hpf : ∀ row ∈ (output1 (rangelist keys)).rows, row.pf = none :=
    fun row hrow => (hplain row hrow).1
  rw [printedTables_table1, piece_zero]
  by_cases hfit : Fits keys 48 (key.toNat / 2 ^ 48)
  · rw [if_pos hfit, blockIdx_of_fits hfit] at hcovered
    rw [if_pos hfit]
    exact applyTable_plain hpf hcovered found
  · rw [if_neg hfit] at hcovered ⊢
    exact applyTable_plain hpf hcovered found

theorem stage2 (hq : key.toNat / 2 ^ 48 ∈ prefixes2 keys) :
    applyTable (printedTables (rangelist keys)).table2
        ⟨(output1 (rangelist keys)).pfidx (key.toNat / 2 ^ 48), 1⟩ (piece key 1) =
      if key.toNat / 2 ^ 48 ∈ prefixes3 keys then
        (⟨(output1 (rangelist keys)).pfidx (key.toNat / 2 ^ 48), 1⟩, 0)
      else if Fits keys 32 (key.toNat / 2 ^ 32) then (⟨jAt keys key.toNat, 0⟩, 1)
      else (⟨(output2 (rangelist keys)).pfidx (key.toNat / 2 ^ 32), 1⟩, 1) := by
  have hshift : level2.shift = 32 := rfl
  have hblock : key.toNat / 2 ^ 48 * 2 ^ 16 + piece key 1 = key.toNat / 2 ^ level2.shift := by
    rw [hshift, block_two]
  have hstage := applyTable_linked (linked2 keys) Row.entry some (fun _ => rfl) hq
    (piece_low key 1) hblock 1
  rw [hshift, ← prefixes3, Option.getD_some, Option.getD_some] at hstage
  rw [printedTables_table2]
  exact hstage

theorem stage3 (hq : key.toNat / 2 ^ 32 ∈ prefixes3 keys) :
    applyTable (printedTables (rangelist keys)).table3
        ⟨(output2 (rangelist keys)).pfidx (key.toNat / 2 ^ 32), 1⟩ (piece key 2) =
      if key.toNat / 2 ^ 32 ∈ prefixes4 keys then
        (⟨(output2 (rangelist keys)).pfidx (key.toNat / 2 ^ 32), 1⟩, 0)
      else if Fits keys 16 (key.toNat / 2 ^ 16) then (⟨jAt keys key.toNat, 0⟩, 1)
      else (⟨(output3 (rangelist keys)).pfidx (key.toNat / 2 ^ 16), 1⟩, 1) := by
  have hshift : level3.shift = 16 := rfl
  have hblock : key.toNat / 2 ^ 32 * 2 ^ 16 + piece key 2 = key.toNat / 2 ^ level3.shift := by
    rw [hshift, block_three]
  have hstage := applyTable_linked (linked3 keys) Row.entry some (fun _ => rfl) hq
    (piece_low key 2) hblock 1
  rw [hshift, ← prefixes4, Option.getD_some, Option.getD_some] at hstage
  rw [printedTables_table3]
  exact hstage

theorem stage4 (hq : key.toNat / 2 ^ 16 ∈ prefixes4 keys) :
    applyTable (printedTables (rangelist keys)).table4
        ⟨(output3 (rangelist keys)).pfidx (key.toNat / 2 ^ 16), 1⟩ (piece key 3) =
      (⟨jAt keys key.toNat, 1⟩, 1) := by
  have hshift : level4.shift = 0 := rfl
  have hblock : key.toNat / 2 ^ 16 * 2 ^ 16 + piece key 3 = key.toNat / 2 ^ level4.shift := by
    rw [hshift, block_four, Nat.pow_zero, Nat.div_one]
  have hstage := applyTable_linked (linked4 keys) Row.lastEntry (fun _ => none) (fun _ => rfl) hq
    (piece_low key 3) hblock 1
  have hfit : Fits keys 0 (key.toNat / 2 ^ 0) := by
    refine fits_zero keys ?_
    have hkey := key.isLt
    rw [uint64Max]
    omega
  rw [hshift, newKeys_prefixes4, if_neg List.not_mem_nil, if_pos hfit,
    Option.getD_none] at hstage
  rw [printedTables_table4]
  exact hstage

/-! ## All stages -/

theorem applyRest_nil (t : Nat) (found : Meta) : applyRest key t [] found = (found, []) := by
  rw [applyRest]

theorem applyRest_stop (t : Nat) (tables : List (List Entry)) (result : Nat) :
    applyRest key t tables ⟨result, 0⟩ = (⟨result, 0⟩, []) := by
  cases tables with
  | nil => rfl
  | cons table rest => rw [applyRest, if_neg Nat.zero_ne_one]

theorem applyRest_go (t : Nat) (table : List Entry) (rest : List (List Entry)) (result : Nat) :
    applyRest key t (table :: rest) ⟨result, 1⟩ =
      ((applyRest key (t + 1) rest (applyTable table ⟨result, 1⟩ (piece key t)).1).1,
        (applyTable table ⟨result, 1⟩ (piece key t)).2 ::
          (applyRest key (t + 1) rest (applyTable table ⟨result, 1⟩ (piece key t)).1).2) := by
  rw [applyRest, if_pos rfl]

theorem ingressApply_counts (tables : Tables) (found : Meta) :
    (ingressApply tables key found).2 =
      (applyTable tables.table1 found (piece key 0)).2 ::
        (applyRest key 1 [tables.table2, tables.table3, tables.table4]
          (applyTable tables.table1 found (piece key 0)).1).2 := rfl

/-- The prefix of the key is also the key of a block of the second level. -/
def Lost (keys : List Nat) (x : Nat) : Prop :=
  x / 2 ^ 48 ∈ prefixes2 keys ∧ x / 2 ^ 48 ∈ prefixes3 keys

theorem ingressApply_of_lost (found : Meta) (lost : Lost keys key.toNat) :
    0 ∈ (ingressApply (printedTables (rangelist keys)) key found).2 := by
  obtain ⟨hq, hlost⟩ := lost
  have hfirst := @stage1 keys key found
  have hsecond := stage2 key hq
  rw [if_neg ((mem_prefixes2 keys).mp hq).2] at hfirst
  rw [if_pos hlost] at hsecond
  rw [ingressApply_counts, hfirst, applyRest_go, hsecond]
  exact List.mem_cons_of_mem _ List.mem_cons_self

theorem ingressApply_of_kept (found : Meta) (kept : ¬ Lost keys key.toNat) :
    ∃ next counts, (∀ n ∈ counts, n = 1) ∧
      ingressApply (printedTables (rangelist keys)) key found =
        (⟨jAt keys key.toNat, next⟩, counts) := by
  have hlow : key.toNat / 2 ^ 48 < 2 ^ 16 := piece_zero key ▸ piece_low key 0
  have hfirst := @stage1 keys key found
  by_cases hfit1 : Fits keys 48 (key.toNat / 2 ^ 48)
  · refine ⟨0, [1], by simp, ?_⟩
    rw [if_pos hfit1] at hfirst
    simp only [ingressApply, hfirst, applyRest_stop]
  · have hq1 : key.toNat / 2 ^ 48 ∈ prefixes2 keys := (mem_prefixes2 keys).mpr ⟨hlow, hfit1⟩
    have hkept1 : key.toNat / 2 ^ 48 ∉ prefixes3 keys := fun hmem => kept ⟨hq1, hmem⟩
    have hsecond := stage2 key hq1
    rw [if_neg hfit1] at hfirst
    rw [if_neg hkept1] at hsecond
    by_cases hfit2 : Fits keys 32 (key.toNat / 2 ^ 32)
    · refine ⟨0, [1, 1], by simp, ?_⟩
      rw [if_pos hfit2] at hsecond
      simp only [ingressApply, hfirst, applyRest_go, hsecond, applyRest_stop]
    · -- a lost prefix further down would have been lost one level up
      have hdiv2 : key.toNat / 2 ^ 32 / 2 ^ 16 = key.toNat / 2 ^ 48 := by omega
      have hq2 : key.toNat / 2 ^ 32 ∈ prefixes3 keys :=
        (mem_prefixes3 keys).mpr ⟨hdiv2.symm ▸ hq1, hfit2⟩
      have hkept2 : key.toNat / 2 ^ 32 ∉ prefixes4 keys := by
        intro hmem
        exact hkept1 (hdiv2 ▸ ((mem_prefixes4 keys).mp hmem).1)
      have hthird := stage3 key hq2
      rw [if_neg hfit2] at hsecond
      rw [if_neg hkept2] at hthird
      by_cases hfit3 : Fits keys 16 (key.toNat / 2 ^ 16)
      · refine ⟨0, [1, 1, 1], by simp, ?_⟩
        rw [if_pos hfit3] at hthird
        simp only [ingressApply, hfirst, applyRest_go, hsecond, hthird, applyRest_stop]
      · have hdiv3 : key.toNat / 2 ^ 16 / 2 ^ 16 = key.toNat / 2 ^ 32 := by omega
        have hq3 : key.toNat / 2 ^ 16 ∈ prefixes4 keys :=
          (mem_prefixes4 keys).mpr ⟨hdiv3.symm ▸ hq2, hfit3⟩
        have hfourth := stage4 key hq3
        rw [if_neg hfit3] at hthird
        refine ⟨1, [1, 1, 1, 1], by simp, ?_⟩
        simp only [ingressApply, hfirst, applyRest_go, hsecond, hthird, hfourth, applyRest_nil]

end

/-! ## The loader -/

/-- A row of the second or the third table lacks its blank. -/
def Glued (keys : List Nat) : Prop :=
  (∃ pf ∈ prefixes2 keys, GluedBefore keys level2 pf (2 ^ 16)) ∨
    ∃ pf ∈ prefixes3 keys, GluedBefore keys level3 pf (2 ^ 16)

section

variable (keys : List Nat)

theorem config_none (glued : Glued keys) :
    config (unlines (printed (rangelist keys))) = none := by
  have hheads2 : ∀ row ∈ (output2 (rangelist keys)).rows, ∃ pf, row.pf = some pf :=
    fun row hrow => ((linked2 keys).heads row hrow).imp (fun _ h => h.1)
  have hheads3 : ∀ row ∈ (output3 (rangelist keys)).rows, ∃ pf, row.pf = some pf :=
    fun row hrow => ((linked3 keys).heads row hrow).imp (fun _ h => h.1)
  rw [printed_eq]
  refine config_of_glued (fun row hrow => ((rows1 keys).1 row hrow).1) hheads2 hheads3 ?_
  exact glued.imp (linked2 keys).glued.mpr (linked3 keys).glued.mpr

theorem config_some (unglued : ¬ Glued keys) :
    config (unlines (printed (rangelist keys))) = some (printedTables (rangelist keys)) := by
  have hfalse : ∀ rows : List Row, (¬ ∃ row ∈ rows, row.glued = true) →
      ∀ row ∈ rows, row.glued = false := by
    intro rows hnone row hrow
    cases hglued : row.glued with
    | false => rfl
    | true => exact absurd ⟨row, hrow, hglued⟩ hnone
  have hunglued4 : ¬ ∃ row ∈ (output4 (rangelist keys)).rows, row.glued = true := by
    rw [(linked4 keys).glued]
    rintro ⟨pf, -, hglues, -⟩
    cases hglues
  rw [printed_eq, printedTables_eq]
  refine config_of_unglued (fun row hrow => ((rows1 keys).1 row hrow).1)
    (fun row hrow => ((linked2 keys).heads row hrow).imp (fun _ h => h.1))
    (fun row hrow => ((linked3 keys).heads row hrow).imp (fun _ h => h.1))
    (fun row hrow => ((linked4 keys).heads row hrow).imp (fun _ h => h.1)) ?_ ?_
    (hfalse _ hunglued4)
  · exact hfalse _ (fun hrow => unglued (Or.inl ((linked2 keys).glued.mp hrow)))
  · exact hfalse _ (fun hrow => unglued (Or.inr ((linked3 keys).glued.mp hrow)))

end

/-- The lookup of a key in the compiled and loaded file applies tables with exactly one
matching row and ends with the given result. -/
def LookupExact (keyinfo : List Char) (x : BitVec 64) (found : Meta) (result : Nat) : Prop :=
  ∃ tables, config (matchTable keyinfo) = some tables ∧
    (∀ count ∈ (ingressApply tables x found).2, count = 1) ∧
    (ingressApply tables x found).1.result = result

theorem lookupExact_iff {keyinfo : List Char} {keys : List Nat}
    (hkeys : readKeys keyinfo.length keyinfo = keys) (x : BitVec 64) (found : Meta)
    (result : Nat) :
    LookupExact keyinfo x found result ↔
      ¬ Glued keys ∧ ¬ Lost keys x.toNat ∧ jAt keys x.toNat = result := by
  rw [LookupExact, matchTable, hkeys]
  constructor
  · rintro ⟨tables, hconfig, hcounts, hresult⟩
    have hunglued : ¬ Glued keys := by
      intro hglued
      rw [config_none keys hglued] at hconfig
      cases hconfig
    rw [config_some keys hunglued] at hconfig
    obtain rfl := Option.some.inj hconfig
    have hkept : ¬ Lost keys x.toNat := by
      intro hlost
      exact absurd (hcounts 0 (ingressApply_of_lost x found hlost)) Nat.zero_ne_one
    obtain ⟨next, counts, -, hrun⟩ := ingressApply_of_kept x found hkept
    rw [hrun] at hresult
    exact ⟨hunglued, hkept, hresult⟩
  · rintro ⟨hunglued, hkept, rfl⟩
    obtain ⟨next, counts, hones, hrun⟩ := ingressApply_of_kept x found hkept
    refine ⟨_, config_some keys hunglued, ?_, ?_⟩
    · rw [hrun]
      exact hones
    · rw [hrun]

/-! ## The condition on the boundaries -/

/-- The first boundary from the start of a block on comes before its last key. -/
def Split (keys : List Nat) (shift q : Nat) : Prop :=
  ∃ key, keys.find? (fun key => decide (blockLo shift q ≤ key)) = some key ∧
    key < blockHi shift q

/-- That boundary is the last key of the block. -/
def EndsAt (keys : List Nat) (shift q : Nat) : Prop :=
  keys.find? (fun key => decide (blockLo shift q ≤ key)) = some (blockHi shift q)

theorem rAt_jAt (keys : List Nat) (t : Nat) :
    rAt keys (jAt keys t) = (keys.find? (fun key => decide (t ≤ key))).getD uint64Max := by
  induction keys with
  | nil => rfl
  | cons key rest ih =>
      by_cases hkey : t ≤ key
      · simp [rAt, jAt, List.findIdx_cons, hkey]
      · have hnext : jAt (key :: rest) t = jAt rest t + 1 := by
          simp [jAt, List.findIdx_cons, hkey]
        rw [hnext, List.find?_cons_of_neg (by simpa using hkey), ← ih]
        rfl

theorem not_fits_iff {keys : List Nat} {shift q : Nat} (hq : blockHi shift q ≤ uint64Max) :
    ¬ Fits keys shift q ↔ Split keys shift q := by
  rw [Fits, blockIdx, rAt_jAt, Nat.not_le, Split]
  cases keys.find? (fun key => decide (blockLo shift q ≤ key)) with
  | none => simp [Nat.not_lt.mpr hq]
  | some key => simp

theorem ends_iff {keys : List Nat} {shift q : Nat} (hq : blockHi shift q < uint64Max) :
    Ends keys shift q ↔ EndsAt keys shift q := by
  rw [Ends, blockIdx, rAt_jAt, EndsAt]
  cases keys.find? (fun key => decide (blockLo shift q ≤ key)) with
  | none => simp [Nat.ne_of_gt hq]
  | some key => simp

/-- No row lacks its blank when no boundary is the last key of a block. -/
theorem not_glued {keys : List Nat} (inner : ∀ key ∈ keys, (key + 1) % 2 ^ 16 ≠ 0) :
    ¬ Glued keys := by
  have hmax : uint64Max = 2 ^ 64 - 1 := rfl
  have hends : ∀ {shift q}, 16 ≤ shift → blockHi shift q < uint64Max → ¬ Ends keys shift q := by
    intro shift q hshift hq ends
    have hmem := List.mem_of_find?_eq_some ((ends_iff hq).mp ends)
    obtain ⟨rest, rfl⟩ := Nat.exists_eq_add_of_le hshift
    refine inner _ hmem ?_
    have hpos := Nat.two_pow_pos (16 + rest)
    have hsucc : blockHi (16 + rest) q + 1 = 2 ^ 16 * ((q + 1) * 2 ^ rest) := by
      rw [blockHi, Nat.add_assoc, Nat.sub_add_cancel hpos, ← Nat.succ_mul, Nat.pow_add,
        Nat.mul_left_comm]
    rw [hsucc, Nat.mul_mod_right]
  rintro (⟨pf, hpf, -, i, hi, ends⟩ | ⟨pf, hpf, -, i, hi, ends⟩)
  · have hlt := ((mem_prefixes2 keys).mp hpf).1
    refine hends (show 16 ≤ 32 by decide) ?_ ends
    rw [blockHi, hmax]
    omega
  · have hlt := ((mem_prefixes2 keys).mp ((mem_prefixes3 keys).mp hpf).1).1
    refine hends (Nat.le_refl 16) ?_ ends
    rw [blockHi, hmax]
    omega

/-- What the tables need: no row of the second or the third table lacks its blank, and the
prefix of the key keeps its number. -/
structure Linkable (keys : List Nat) (x : Nat) : Prop where
  second : ∀ q < 2 ^ 32, q % 2 ^ 16 + 1 < 2 ^ 16 → Split keys 48 (q / 2 ^ 16) →
    ¬ EndsAt keys 32 q
  third : ∀ q < 2 ^ 48, q % 2 ^ 16 + 1 < 2 ^ 16 → Split keys 48 (q / 2 ^ 32) →
    Split keys 32 (q / 2 ^ 16) → ¬ EndsAt keys 16 q
  own : ¬ (Split keys 48 (x / 2 ^ 48) ∧ Split keys 48 0 ∧ Split keys 32 (x / 2 ^ 48))

section

variable {keys : List Nat}

theorem blockHi_le_48 {q : Nat} (hq : q < 2 ^ 16) : blockHi 48 q ≤ uint64Max :=
  blockHi_le (by decide) hq

theorem blockHi_le_32 {q : Nat} (hq : q < 2 ^ 32) : blockHi 32 q ≤ uint64Max :=
  blockHi_le (by decide) hq

theorem mem_prefixes2_iff {q : Nat} : q ∈ prefixes2 keys ↔ q < 2 ^ 16 ∧ Split keys 48 q := by
  rw [mem_prefixes2]
  exact and_congr_right (fun hq => not_fits_iff (blockHi_le_48 hq))

theorem mem_prefixes3_iff {q : Nat} :
    q ∈ prefixes3 keys ↔ q < 2 ^ 32 ∧ Split keys 48 (q / 2 ^ 16) ∧ Split keys 32 q := by
  rw [mem_prefixes3, mem_prefixes2_iff]
  constructor
  · rintro ⟨⟨hlow, hsplit⟩, hfits⟩
    have hq : q < 2 ^ 32 := by omega
    exact ⟨hq, hsplit, (not_fits_iff (blockHi_le_32 hq)).mp hfits⟩
  · rintro ⟨hq, hsplit, hblock⟩
    have hlow : q / 2 ^ 16 < 2 ^ 16 := by omega
    exact ⟨⟨hlow, hsplit⟩, (not_fits_iff (blockHi_le_32 hq)).mpr hblock⟩

theorem lost_iff (x : BitVec 64) :
    Lost keys x.toNat ↔ Split keys 48 (x.toNat / 2 ^ 48) ∧ Split keys 48 0 ∧
      Split keys 32 (x.toNat / 2 ^ 48) := by
  have hlow : x.toNat / 2 ^ 48 < 2 ^ 16 := piece_zero x ▸ piece_low x 0
  have hlow3 : x.toNat / 2 ^ 48 < 2 ^ 32 := hlow.trans (by decide)
  rw [Lost, mem_prefixes2_iff, mem_prefixes3_iff, Nat.div_eq_of_lt hlow]
  simp only [hlow, hlow3, true_and]

/-- A block that is not the last one of the block around it. -/
theorem inner_block {pf i : Nat} (hi : i + 1 < 2 ^ 16) :
    (pf * 2 ^ 16 + i) / 2 ^ 16 = pf ∧ (pf * 2 ^ 16 + i) % 2 ^ 16 + 1 < 2 ^ 16 := by
  omega

theorem blockHi_lt {shift q : Nat} (hshift : shift ≤ 64) (hq : q + 1 < 2 ^ (64 - shift)) :
    blockHi shift q < uint64Max := by
  have hnext := blockHi_le hshift hq
  have hsucc := blockHi_succ shift q
  have hstep := blockLo_le_blockHi shift (q + 1)
  omega

theorem succ_lt_of_inner {q n : Nat} (hq : q < n * 2 ^ 16) (hinner : q % 2 ^ 16 + 1 < 2 ^ 16) :
    q + 1 < n * 2 ^ 16 := by
  omega

theorem glued_second_iff :
    (∃ pf ∈ prefixes2 keys, GluedBefore keys level2 pf (2 ^ 16)) ↔
      ∃ q < 2 ^ 32, q % 2 ^ 16 + 1 < 2 ^ 16 ∧ Split keys 48 (q / 2 ^ 16) ∧ EndsAt keys 32 q := by
  constructor
  · rintro ⟨pf, hpf, -, i, hi, hends⟩
    obtain ⟨hlow, hsplit⟩ := mem_prefixes2_iff.mp hpf
    obtain ⟨hdiv, hinner⟩ := @inner_block pf i hi
    have hq : pf * 2 ^ 16 + i < 2 ^ 16 * 2 ^ 16 := by omega
    refine ⟨pf * 2 ^ 16 + i, hq, hinner, hdiv.symm ▸ hsplit, ?_⟩
    exact (ends_iff (blockHi_lt (by decide) (succ_lt_of_inner hq hinner))).mp hends
  · rintro ⟨q, hq, hinner, hsplit, hends⟩
    have hlow : q / 2 ^ 16 < 2 ^ 16 := by omega
    refine ⟨q / 2 ^ 16, mem_prefixes2_iff.mpr ⟨hlow, hsplit⟩, rfl, q % 2 ^ 16, hinner, ?_⟩
    rw [Nat.div_add_mod']
    have hq' : q < 2 ^ 16 * 2 ^ 16 := hq
    exact (ends_iff (blockHi_lt (by decide) (succ_lt_of_inner hq' hinner))).mpr hends

theorem glued_third_iff :
    (∃ pf ∈ prefixes3 keys, GluedBefore keys level3 pf (2 ^ 16)) ↔
      ∃ q < 2 ^ 48, q % 2 ^ 16 + 1 < 2 ^ 16 ∧ Split keys 48 (q / 2 ^ 32) ∧
        Split keys 32 (q / 2 ^ 16) ∧ EndsAt keys 16 q := by
  have hdiv32 : ∀ q, q / 2 ^ 16 / 2 ^ 16 = q / 2 ^ 32 := fun q => Nat.div_div_eq_div_mul q _ _
  constructor
  · rintro ⟨pf, hpf, -, i, hi, hends⟩
    obtain ⟨hlow, hsplit, hblock⟩ := mem_prefixes3_iff.mp hpf
    obtain ⟨hdiv, hinner⟩ := @inner_block pf i hi
    have hq : pf * 2 ^ 16 + i < 2 ^ 32 * 2 ^ 16 := by omega
    refine ⟨pf * 2 ^ 16 + i, hq, hinner, ?_, hdiv.symm ▸ hblock, ?_⟩
    · rw [← hdiv32, hdiv]
      exact hsplit
    · exact (ends_iff (blockHi_lt (by decide) (succ_lt_of_inner hq hinner))).mp hends
  · rintro ⟨q, hq, hinner, hsplit, hblock, hends⟩
    have hlow : q / 2 ^ 16 < 2 ^ 32 := by omega
    refine ⟨q / 2 ^ 16, mem_prefixes3_iff.mpr ⟨hlow, ?_, hblock⟩, rfl, q % 2 ^ 16, hinner, ?_⟩
    · rw [hdiv32]
      exact hsplit
    · rw [Nat.div_add_mod']
      have hq' : q < 2 ^ 32 * 2 ^ 16 := hq
      exact (ends_iff (blockHi_lt (by decide) (succ_lt_of_inner hq' hinner))).mpr hends

theorem linkable_iff (x : BitVec 64) :
    Linkable keys x.toNat ↔ ¬ Glued keys ∧ ¬ Lost keys x.toNat := by
  rw [Glued, glued_second_iff, glued_third_iff, lost_iff]
  constructor
  · intro linkable
    refine ⟨?_, linkable.own⟩
    rintro (⟨q, hq, hinner, hsplit, hends⟩ | ⟨q, hq, hinner, hsplit, hblock, hends⟩)
    · exact linkable.second q hq hinner hsplit hends
    · exact linkable.third q hq hinner hsplit hblock hends
  · rintro ⟨hunglued, hown⟩
    refine ⟨?_, ?_, hown⟩
    · intro q hq hinner hsplit hends
      exact hunglued (Or.inl ⟨q, hq, hinner, hsplit, hends⟩)
    · intro q hq hinner hsplit hblock hends
      exact hunglued (Or.inr ⟨q, hq, hinner, hsplit, hblock, hends⟩)

end

/-! ## Sorted boundaries -/

theorem jAt_eq_zero (keys : List Nat) (t : Nat) :
    jAt keys t = 0 ↔ ∀ first ∈ keys.head?, t ≤ first := by
  cases keys with
  | nil => simp [jAt]
  | cons key rest =>
      by_cases hkey : t ≤ key
      · simp [jAt, List.findIdx_cons, hkey]
      · simp [jAt, List.findIdx_cons, hkey]

/-- The keys that follow an empty first line do not count. -/
def FirstLineRead (B : List Nat) (rest : List Char) (x : Nat) : Prop :=
  B = [] → ∀ first ∈ (boundaries B rest).head?, x ≤ first

theorem jAt_boundaries {B : List (BitVec 64)} (sorted : B.Pairwise (· ≤ ·)) (rest : List Char)
    (x : BitVec 64) :
    jAt (boundaries (B.map BitVec.toNat) rest) x.toNat =
        B.countP (fun key => decide (key < x)) ↔
      FirstLineRead (B.map BitVec.toNat) rest x.toNat := by
  cases B with
  | nil =>
      rw [List.countP_nil, jAt_eq_zero]
      exact ⟨fun hfirst _ => hfirst, fun hfirst => hfirst rfl⟩
  | cons key others =>
      have hne : (key :: others).map BitVec.toNat ≠ [] := List.cons_ne_nil _ _
      rw [boundaries, if_neg hne, jAt_toNat sorted]
      exact iff_of_true rfl (fun hnil => absurd hnil hne)

theorem readKeys_words (B : List (BitVec 64)) (rest : List Char) :
    readKeys (keyInfo (B.map BitVec.toNat) rest).length (keyInfo (B.map BitVec.toNat) rest) =
      boundaries (B.map BitVec.toNat) rest := by
  refine readKeys_keyInfo (fun key hkey => ?_) rest
  obtain ⟨word, -, rfl⟩ := List.mem_map.mp hkey
  exact Nat.le_of_lt_succ word.isLt

/-- The compiled tables are exact just when they link and the first line holds the keys. -/
theorem matchTable_exact {B : List (BitVec 64)} (sorted : B.Pairwise (· ≤ ·))
    (rest : List Char) (x : BitVec 64) (found : Meta) :
    LookupExact (keyInfo (B.map BitVec.toNat) rest) x found
        (B.countP (fun key => decide (key < x))) ↔
      Linkable (boundaries (B.map BitVec.toNat) rest) x.toNat ∧
        FirstLineRead (B.map BitVec.toNat) rest x.toNat := by
  rw [lookupExact_iff (readKeys_words B rest), linkable_iff, jAt_boundaries sorted, and_assoc]

/-- One boundary that is a power of the block size: the keys above it have result 1. -/
theorem matchTable_exact_edge :
    LookupExact (keyInfo ([0x4000000000000000#64].map BitVec.toNat) []) 0x4000000000000001#64
      ⟨0, 0⟩ ([0x4000000000000000#64].countP (fun key => decide (key < 0x4000000000000001#64))) := by
  have hedge : ∀ {shift q}, EndsAt [2 ^ 62] shift q → blockHi shift q = 2 ^ 62 := by
    intro shift q hends
    exact (List.mem_singleton.mp (List.mem_of_find?_eq_some hends))
  refine (matchTable_exact (List.pairwise_singleton _ _) [] _ _).mpr ⟨⟨?_, ?_, ?_⟩, ?_⟩
  · intro q hq hinner hsplit hends
    have hhi := hedge hends
    rw [blockHi] at hhi
    omega
  · intro q hq hinner hsplit hblock hends
    have hhi := hedge hends
    rw [blockHi] at hhi
    omega
  · rintro ⟨-, ⟨key, hkey, hlow⟩, -⟩
    have hmem := List.mem_singleton.mp (List.mem_of_find?_eq_some hkey)
    exact absurd (hmem ▸ hlow) (by decide)
  · exact fun hnil => absurd hnil (List.cons_ne_nil _ _)

/-- The boundary 5 and the key 0: the second table has no row with the number of block 0. -/
theorem matchTable_not_exact :
    ¬ LookupExact (keyInfo ([5#64].map BitVec.toNat) []) 0#64 ⟨0, 0⟩
      ([5#64].countP (fun key => decide (key < 0#64))) := by
  intro hexact
  obtain ⟨-, hkept, -⟩ := (lookupExact_iff (readKeys_words [5#64] []) 0#64 _ _).mp hexact
  have hsecond : 0 ∈ prefixes2 [5] := (mem_prefixes2 [5]).mpr ⟨by decide, by decide⟩
  have hthird : 0 ∈ prefixes3 [5] := (mem_prefixes3 [5]).mpr ⟨hsecond, by decide⟩
  exact hkept ⟨hsecond, hthird⟩

end FatBTree.Tcam
