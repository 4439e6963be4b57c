import FatBTree.Rdma.TableSizes
import FatBTree.Tcam.Exact

/-!
# The four range tables of the RDMA switch

`config_table.cpp` is the Ethernet compiler without the lost blank, so its text always
loads and gives the same entries.  The number of a prefix can still be replaced by that of
a block, and then the lookup of the keys with this prefix ends early.
-/

namespace FatBTree.Rdma.RangeLookup

open FatBTree.Tcam

/-! ## The rows without the slip -/

/-- A row with its blank. -/
def spacedRow (row : Row) : Row :=
  { row with glued := false }

def spacedOutput (out : Output) : Output :=
  { out with rows := out.rows.map spacedRow }

theorem spacedOutput_table (out : Output) : (spacedOutput out).table = out.table := rfl

def spacedScan (scan : Scan) : Scan :=
  { scan with out := spacedOutput scan.out }

/-- The same loop of the other program. -/
def spacedLevel (level : Level) : Level :=
  { level with glues := false }

section Rows

variable (ranges : List Range) (level : Level) (pf : Nat)

theorem spaced_print (out : Output) (glued : Bool) (l r next idx : Nat) :
    (spacedOutput out).print (spacedLevel level) pf false l r next idx =
      spacedOutput (out.print level pf glued l r next idx) := by
  rw [Output.print, Output.print, spacedOutput, spacedOutput, List.map_append]
  rfl

theorem spaced_flush (scan : Scan) (glued : Bool) :
    (spacedScan scan).flush (spacedLevel level) pf false =
      spacedScan (scan.flush level pf glued) := by
  obtain ⟨run, j, out⟩ := scan
  cases run with
  | none => rfl
  | some run =>
      obtain ⟨l, r⟩ := run
      exact congrArg (Scan.mk none j) (spaced_print level pf out glued l r 0 j)

theorem spaced_catchUp (scan : Scan) (i : Nat) :
    (spacedScan scan).catchUp ranges (spacedLevel level) pf i =
      spacedScan (scan.catchUp ranges level pf i) := by
  have hflush := spaced_flush level pf scan level.glues
  have hj : (spacedScan scan).j = scan.j := rfl
  have hlow : tmpL (spacedLevel level) pf i = tmpL level pf i := rfl
  have hglues : (spacedLevel level).glues = false := rfl
  rw [Scan.catchUp, Scan.catchUp, hj, hlow, hglues, hflush]
  split
  · rfl
  · rfl

theorem spaced_extend (scan : Scan) (i : Nat) :
    (spacedScan scan).extend i = spacedScan (scan.extend i) := rfl

theorem spaced_split (scan : Scan) (i : Nat) :
    (spacedScan scan).split (spacedLevel level) pf i = spacedScan (scan.split level pf i) := by
  have hflush := spaced_flush level pf scan false
  rw [Scan.split, Scan.split, hflush]
  generalize scan.flush level pf false = flushed
  simp only [spacedScan, spacedOutput, Output.print, List.map_append, List.map_cons, List.map_nil]
  rfl

theorem spaced_step (scan : Scan) (i : Nat) :
    (spacedScan scan).step ranges (spacedLevel level) pf i =
      spacedScan (scan.step ranges level pf i) := by
  rw [Scan.step, Scan.step, spaced_catchUp]
  generalize scan.catchUp ranges level pf i = caught
  have hj : (spacedScan caught).j = caught.j := rfl
  have hlow : tmpL (spacedLevel level) pf i = tmpL level pf i := rfl
  have hhigh : tmpR (spacedLevel level) pf i = tmpR level pf i := rfl
  rw [hj, hlow, hhigh]
  split
  · exact spaced_extend caught i
  · exact spaced_split level pf caught i

theorem spaced_scanPrefix (out : Output) :
    scanPrefix ranges (spacedLevel level) (spacedOutput out) pf =
      spacedOutput (scanPrefix ranges level out pf) := by
  have hblocks : ∀ count, scanBlocks ranges (spacedLevel level) pf count (spacedOutput out) =
      spacedScan (scanBlocks ranges level pf count out) := by
    intro count
    induction count with
    | zero => rfl
    | succ count ih =>
        rw [scanBlocks, scanBlocks, List.range_succ, List.foldl_append, List.foldl_append]
        rw [scanBlocks, scanBlocks] at ih
        rw [ih]
        exact spaced_step ranges level pf _ count
  rw [scanPrefix, scanPrefix, hblocks, spaced_flush level pf _ false]
  rfl

/-- One loop of the two programs prints the same rows but for the blanks. -/
theorem spaced_runLevel (pfs : List Nat) (out : Output) :
    runLevel ranges (spacedLevel level) pfs (spacedOutput out) =
      spacedOutput (runLevel ranges level pfs out) := by
  rw [runLevel, runLevel]
  have hstart : { spacedOutput out with table := [], rows := [] } =
      spacedOutput { out with table := [], rows := [] } := rfl
  rw [hstart]
  generalize ({ out with table := [], rows := [] } : Output) = start
  induction pfs generalizing start with
  | nil => rfl
  | cons pf rest ih =>
      rw [List.foldl_cons, List.foldl_cons, spaced_scanPrefix]
      exact ih _

end Rows

/-! ## The tables -/

section Tables

variable (ranges : List Range)

theorem output1_spaced : ConfigTable.output1 ranges = spacedOutput (output1 ranges) := by
  have hlevel : ConfigTable.level1 = spacedLevel level1 := rfl
  have hstart : ConfigTable.start ranges = spacedOutput (ConfigTable.start ranges) := rfl
  rw [ConfigTable.output1, hlevel, hstart, spaced_runLevel, output1, ConfigTable.start]

theorem output2_spaced : ConfigTable.output2 ranges = spacedOutput (output2 ranges) := by
  have hlevel : ConfigTable.level2 = spacedLevel level2 := rfl
  rw [ConfigTable.output2, output1_spaced, hlevel, spacedOutput_table, spaced_runLevel, output2]

theorem output3_spaced : ConfigTable.output3 ranges = spacedOutput (output3 ranges) := by
  have hlevel : ConfigTable.level3 = spacedLevel level3 := rfl
  rw [ConfigTable.output3, output2_spaced, hlevel, spacedOutput_table, spaced_runLevel, output3]

theorem output4_spaced : ConfigTable.output4 ranges = spacedOutput (output4 ranges) := by
  have hlevel : ConfigTable.level4 = spacedLevel level4 := rfl
  rw [ConfigTable.output4, output3_spaced, hlevel, spacedOutput_table, spaced_runLevel, output4]

/-- The entries are those of the Ethernet tables. -/
theorem config_configTable_eq {keysInfo : List Char} {keys : List Nat}
    (hkeys : readKeys keysInfo.length keysInfo = keys) :
    Tcam.config (ConfigTable.configTable keysInfo) = some (printedTables (rangelist keys)) := by
  have hentry : ∀ rows : List Row, (rows.map spacedRow).map Row.entry = rows.map Row.entry := by
    intro rows
    rw [List.map_map]
    rfl
  have hlast : ∀ rows : List Row,
      (rows.map spacedRow).map Row.lastEntry = rows.map Row.lastEntry := by
    intro rows
    rw [List.map_map]
    rfl
  rw [config_configTable hkeys, printedTables_eq, output1_spaced, output2_spaced, output3_spaced,
    output4_spaced]
  simp only [entriesOf, spacedOutput, hentry, hlast]

end Tables

/-! ## The lookup -/

/-- Every table that is applied has one row for the key, and the last one has the given
number. -/
def LookupExact (tables : Tables) (x : BitVec 64) (found : Meta) (result : Nat) : Prop :=
  (∀ count ∈ (ingressApply tables x found).2, count = 1) ∧
    (ingressApply tables x found).1.result = result

/-- The prefix of a key keeps its number: it is not split, or its number as a prefix of
zero is not. -/
def Kept (keys : List Nat) (x : Nat) : Prop :=
  ¬ (Split keys 48 (x / 2 ^ 48) ∧ Split keys 48 0 ∧ Split keys 32 (x / 2 ^ 48))

theorem lookup_of_kept {keys : List Nat} {x : BitVec 64} (kept : Kept keys x.toNat)
    (found : Meta) :
    LookupExact (printedTables (rangelist keys)) x found (jAt keys x.toNat) := by
  obtain ⟨next, counts, hones, hrun⟩ := ingressApply_of_kept x found
    (fun lost => kept ((lost_iff x).mp lost))
  rw [LookupExact, hrun]
  exact ⟨hones, rfl⟩

/-- On sorted boundaries the lookup counts those below the key, just when its prefix keeps
its number. -/
theorem lookup_exact_iff {keys : List (BitVec 64)} (sorted : keys.Pairwise (· ≤ ·))
    (x : BitVec 64) (found : Meta) :
    LookupExact (printedTables (rangelist (keys.map BitVec.toNat))) x found
        (ConfigTable.below keys x) ↔
      Kept (keys.map BitVec.toNat) x.toNat := by
  constructor
  · rintro ⟨hcounts, -⟩ split
    have hzero := ingressApply_of_lost x found ((lost_iff x).mpr split)
    exact absurd (hcounts 0 hzero) Nat.zero_ne_one
  · intro kept
    rw [ConfigTable.below, ← jAt_toNat sorted]
    exact lookup_of_kept kept found

/-! ## From the node file -/

open ConfigKeys in
/-- Distinct keys are printed with all their blanks. -/
theorem printKeys_nodup {keys : List Nat} (distinct : keys.Nodup) (hne : keys ≠ []) :
    printKeys (0 :: keys).getLast? keys = Text.spaced 10 keys := by
  obtain ⟨front, last, rfl⟩ : ∃ front last, keys = front ++ [last] :=
    ⟨keys.dropLast, keys.getLast hne, (List.dropLast_append_getLast hne).symm⟩
  have hlast : (0 :: (front ++ [last])).getLast? = some last := by
    rw [← List.cons_append, List.getLast?_concat]
  have hfront : front.flatMap (fun k =>
      Nat.toDigits 10 k ++ if some k = some last then [] else [' ']) = printSpaced front := by
    refine List.flatMap_congr (fun k hk => ?_)
    have hother : k ≠ last := by
      rintro rfl
      exact (List.nodup_append.mp distinct).2.2 k hk k (List.mem_singleton_self k) rfl
    rw [if_neg (fun heq => hother (Option.some.inj heq))]
  rw [hlast, printKeys, List.flatMap_append, hfront, List.flatMap_singleton, if_pos rfl,
    List.append_nil, spaced_concat]

open ConfigKeys in
/-- The two scripts read the keys and the children of the fat root. -/
theorem configKeys_eq (address : BitVec 64) (localStag : BitVec 32)
    {keys children : List (BitVec 64)} (rest : List Char) (distinct : keys.Nodup)
    (hne : keys ≠ []) :
    ∃ keysInfo, configKeys (nodeInfo address localStag keys children rest) = some keysInfo ∧
      readKeys keysInfo.length keysInfo = keys.map BitVec.toNat ∧
      setAddrTable keysInfo = some (children.map BitVec.toNat) := by
  have hwhole := serverInfo_whole address localStag
  rw [serverInfo] at hwhole
  simp only [List.forall_mem_cons] at hwhole
  obtain ⟨haddr, hstag, hblank, -⟩ := hwhole
  have hnodup : (keys.map BitVec.toNat).Nodup :=
    distinct.map fun _ _ heq => BitVec.eq_of_toNat_eq heq
  have hmap : keys.map BitVec.toNat ≠ [] := by simpa using hne
  have hsmall : ∀ key ∈ keys.map BitVec.toNat, key ≤ uint64Max := by
    intro key hkey
    obtain ⟨word, -, rfl⟩ := List.mem_map.mp hkey
    exact Nat.le_of_lt_succ word.isLt
  refine ⟨keyInfo (keys.map BitVec.toNat) (printSpaced (children.map BitVec.toNat)), ?_, ?_, ?_⟩
  · have hnone : Text.unlines [] ++ (Text.unlines (printInfo keys children) ++ rest) =
        Text.unlines (printInfo keys children) ++ rest := rfl
    rw [configKeys, nodeInfo, serverInfo]
    simp only [readline_unlines haddr, readline_unlines hstag, readline_unlines hblank]
    rw [hnone, readInfo_printInfo]
    simp only [Option.bind_eq_bind, Option.bind_some, Option.pure_def, List.tail_cons]
    rw [printKeys_nodup hnodup hmap, keyInfo]
  · rw [readKeys_keyInfo hsmall, boundaries, if_neg hmap]
  · refine setAddrTable_line ?_ _
    rw [← printKeys_nodup hnodup hmap]
    exact newline_notMem_printKeys _ _

open ConfigKeys in
/-- What is compiled from a fat root loads, and its lookup ends at the child for the key,
just when the prefix of the key keeps its number. -/
theorem fatRoot_lookup_iff (address : BitVec 64) (localStag : BitVec 32)
    {keys : List (BitVec 64)} (children : List (BitVec 64)) (rest : List Char)
    (sorted : keys.Pairwise (· < ·)) (hne : keys ≠ []) :
    ∃ keysInfo tables,
      configKeys (nodeInfo address localStag keys children rest) = some keysInfo ∧
      setAddrTable keysInfo = some (children.map BitVec.toNat) ∧
      Tcam.config (ConfigTable.configTable keysInfo) = some tables ∧
      ∀ (x : BitVec 64) (found : Meta),
        LookupExact tables x found (ConfigTable.below keys x) ↔
          Kept (keys.map BitVec.toNat) x.toNat := by
  obtain ⟨keysInfo, hinfo, hkeys, haddrs⟩ := configKeys_eq address localStag rest
    (sorted.imp fun hlt => BitVec.ne_of_lt hlt) hne
  exact ⟨keysInfo, _, hinfo, haddrs, config_configTable_eq hkeys,
    lookup_exact_iff (sorted.imp fun hlt => BitVec.le_of_lt hlt)⟩

open ConfigKeys in
/-- One boundary in the upper half, and a key in the block that it splits. -/
theorem fatRoot_lookup_iff_single :
    ∃ keysInfo tables, configKeys (nodeInfo 0x7f00 5 [0x4000000000000000] [0x60, 0xc0] []) =
        some keysInfo ∧ setAddrTable keysInfo = some [0x60, 0xc0] ∧
      Tcam.config (ConfigTable.configTable keysInfo) = some tables ∧
      LookupExact tables 0x4000000000000001 ⟨0, 0⟩ 1 := by
  obtain ⟨keysInfo, tables, hinfo, haddrs, hconfig, hexact⟩ := fatRoot_lookup_iff 0x7f00 5
    [0x60, 0xc0] [] (List.pairwise_singleton _ (0x4000000000000000 : BitVec 64))
    (List.cons_ne_nil _ _)
  refine ⟨keysInfo, tables, hinfo, haddrs, hconfig,
    (hexact 0x4000000000000001 ⟨0, 0⟩).mpr ?_⟩
  rintro ⟨-, ⟨key, hkey, hlow⟩, -⟩
  have hmem := List.mem_singleton.mp (List.mem_of_find?_eq_some hkey)
  exact absurd (hmem ▸ hlow) (by decide)

end FatBTree.Rdma.RangeLookup
