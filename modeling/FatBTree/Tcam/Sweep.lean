import FatBTree.Order.Tiles
import FatBTree.Tcam.Scan

/-!
# The rows of one prefix

The rows of a prefix lie end to end.  Each is charged to a block with a boundary, which
pays for two of them, and the last run is free.
-/

namespace FatBTree.Tcam

open FatBTree.Order

/-! ## Blocks with a boundary -/

/-- A boundary lies in the block. -/
def HasBoundary (keys : List Nat) (shift q : Nat) : Prop :=
  ∃ key ∈ keys, blockLo shift q ≤ key ∧ key ≤ blockHi shift q

instance (keys : List Nat) (shift q : Nat) : Decidable (HasBoundary keys shift q) :=
  inferInstanceAs (Decidable (∃ key ∈ keys, _ ∧ _))

/-- The blocks before number `n` of a prefix that have a boundary. -/
def boundaryBlocks (keys : List Nat) (shift pf n : Nat) : Nat :=
  (List.range n).countP (fun i => HasBoundary keys shift (pf * 2 ^ 16 + i))

section

variable {keys : List Nat} {shift pf n : Nat}

theorem boundaryBlocks_succ :
    boundaryBlocks keys shift pf (n + 1) = boundaryBlocks keys shift pf n +
      if HasBoundary keys shift (pf * 2 ^ 16 + n) then 1 else 0 := by
  rw [boundaryBlocks, boundaryBlocks, List.range_succ, List.countP_append, List.countP_singleton]
  simp

/-- The first boundary from the start of a block on, if it comes before its end. -/
theorem hasBoundary_of_rAt_le {q : Nat} (hlen : blockIdx keys shift q < keys.length)
    (hle : rAt keys (blockIdx keys shift q) ≤ blockHi shift q) : HasBoundary keys shift q := by
  refine ⟨rAt keys (blockIdx keys shift q), ?_, le_rAt_of_lt hlen, hle⟩
  rw [rAt, List.getD_eq_getElem _ _ hlen]
  exact List.getElem_mem hlen

theorem lt_length_of_rAt_lt {j t : Nat} (ht : t ≤ uint64Max) (hlt : rAt keys j < t) :
    j < keys.length := by
  by_contra hlen
  rw [rAt, List.getD_eq_default _ _ (Nat.not_lt.mp hlen)] at hlt
  exact absurd ht (Nat.not_le.mpr hlt)

/-- A block that does not fit has a boundary before its last key. -/
theorem hasBoundary_of_split {q : Nat} (hq : blockHi shift q ≤ uint64Max)
    (split : ¬ Fits keys shift q) : HasBoundary keys shift q := by
  have hlt := Nat.not_le.mp split
  exact hasBoundary_of_rAt_le (lt_length_of_rAt_lt hq hlt) (Nat.le_of_lt hlt)

end

/-! ## Rows that lie end to end -/

/-- A run, or the row of a single block. -/
def Row.Marked (row : Row) : Prop :=
  row.next = 0 ∨ row.next = 1 ∧ row.l = row.r

/-- The rows since `start` lie end to end before block `n` or the pending run, and there
are at most `c` of them. -/
def Laid (start : Output) (n c : Nat) (scan : Scan) : Prop :=
  ∃ fresh, scan.out.rows = start.rows ++ fresh ∧
    Tiles Row.l Row.r 0 fresh (scan.settledAt n) ∧ (∀ row ∈ fresh, row.Marked) ∧
    fresh.length ≤ c

/-- The pending run ends before block `n`. -/
def Scan.RunBefore (scan : Scan) (n : Nat) : Prop :=
  ∀ l r, scan.run = some (l, r) → l ≤ r ∧ r + 1 = n

section

variable {start : Output} {n c d : Nat} {scan : Scan}

theorem Laid.mono (laid : Laid start n c scan) (hcd : c ≤ d) : Laid start n d scan := by
  obtain ⟨fresh, hrows, htiles, hmarked, hlen⟩ := laid
  exact ⟨fresh, hrows, htiles, hmarked, hlen.trans hcd⟩

/-- A row that starts where the others end. -/
theorem Laid.print (laid : Laid start n c scan) {next : Scan} {row : Row}
    (hrows : next.out.rows = scan.out.rows ++ [row]) (hl : row.l = scan.settledAt n)
    (hlr : row.l ≤ row.r) (marked : row.Marked) {m : Nat} (hat : next.settledAt m = row.r + 1) :
    Laid start m (c + 1) next := by
  obtain ⟨fresh, hfresh, htiles, hmarked, hlen⟩ := laid
  rw [← hl] at htiles
  refine ⟨fresh ++ [row], ?_, hat ▸ htiles.snoc hlr, ?_, ?_⟩
  · rw [hrows, hfresh, List.append_assoc]
  · intro other hother
    rcases List.mem_append.mp hother with hold | hnew
    · exact hmarked other hold
    · exact List.mem_singleton.mp hnew ▸ marked
  · rw [List.length_append, List.length_singleton]
    exact Nat.succ_le_succ hlen

/-- A pending run is one row more. -/
theorem Laid.flush (laid : Laid start n c scan) (before : scan.RunBefore n) (level : Level)
    (pf : Nat) (g : Bool) :
    Laid start n (if scan.run = none then c else c + 1) (scan.flush level pf g) := by
  have hat : (scan.flush level pf g).settledAt n = n := by
    rw [Scan.settledAt, flush_run]
  cases hrun : scan.run with
  | none =>
      have hsame : scan.flush level pf g = scan := by
        rw [Scan.flush, hrun]
      rw [hsame, if_pos rfl]
      exact laid
  | some pending =>
      obtain ⟨l, r⟩ := pending
      obtain ⟨hlr, hr⟩ := before l r hrun
      have hflush : scan.flush level pf g =
          { scan with run := none, out := scan.out.print level pf g l r 0 scan.j } := by
        rw [Scan.flush, hrun]
      have hl : scan.settledAt n = l := by
        rw [Scan.settledAt, hrun]
      rw [if_neg (Option.some_ne_none _)]
      have hrows := print_rows scan.out level pf g l r 0 scan.j
      rw [hflush] at hat ⊢
      exact laid.print hrows hl.symm hlr (Or.inl rfl) (hat.trans hr.symm)

theorem Laid.extend (laid : Laid start n c scan) : Laid start (n + 1) c (scan.extend n) := by
  have hat : (scan.extend n).settledAt (n + 1) = scan.settledAt n := by
    unfold Scan.extend Scan.settledAt
    cases scan.run <;> rfl
  obtain ⟨fresh, hrows, htiles, hmarked, hlen⟩ := laid
  exact ⟨fresh, hrows, hat ▸ htiles, hmarked, hlen⟩

/-- A block that does not fit is one row more than the flushed run. -/
theorem Laid.split (laid : Laid start n c scan) (before : scan.RunBefore n) (level : Level)
    (pf : Nat) :
    Laid start (n + 1) ((if scan.run = none then c else c + 1) + 1) (scan.split level pf n) := by
  have hrun := flush_run scan level pf false
  have hat : (scan.flush level pf false).settledAt n = n := by
    rw [Scan.settledAt, hrun]
  have hafter : (scan.split level pf n).settledAt (n + 1) = n + 1 := by
    have hnone : (scan.split level pf n).run = none := hrun
    rw [Scan.settledAt, hnone]
  have hrows : (scan.split level pf n).out.rows = (scan.flush level pf false).out.rows ++
      [⟨if level.linked then some ((scan.split level pf n).out.pfidx pf) else none, false, n, n, 1,
        (scan.split level pf n).out.pfidx ((pf <<< 16) + n)⟩] := rfl
  exact (laid.flush before level pf false).print hrows hat.symm (Nat.le_refl n)
    (Or.inr ⟨rfl, rfl⟩) hafter

end

/-! ## The invariant of the sweep -/

/-- Each block with a boundary has paid for two rows, and a run that ends with its range
has one of them left. -/
structure SweepInv (keys : List Nat) (level : Level) (pf : Nat) (start : Output) (n : Nat)
    (scan : Scan) : Prop where
  loop : ScanInv keys level pf start n scan
  laid : Laid start n (2 * boundaryBlocks keys level.shift pf n) scan
  ended : scan.run ≠ none → scan.j < keys.length →
    rAt keys scan.j < blockLo level.shift (pf * 2 ^ 16 + n) →
    ∃ c, c + 1 ≤ 2 * boundaryBlocks keys level.shift pf n ∧ Laid start n c scan

section

variable {keys : List Nat} {level : Level} {pf : Nat} {start : Output} {n : Nat} {scan : Scan}

theorem ScanInv.runBefore (inv : ScanInv keys level pf start n scan) : scan.RunBefore n := by
  intro l r hrun
  obtain ⟨hlr, hr, -⟩ := inv.progress.run l r hrun
  exact ⟨hlr, hr⟩

/-- The flush of the first `if` is paid for. -/
theorem SweepInv.catchUp (isPrefix : level.IsPrefix pf) (hn : n < 2 ^ 16)
    (inv : SweepInv keys level pf start n scan) :
    Laid start n (2 * boundaryBlocks keys level.shift pf n)
        (scan.catchUp (rangelist keys) level pf n) ∧
      (scan.catchUp (rangelist keys) level pf n).RunBefore n := by
  have hlow : blockLo level.shift (pf * 2 ^ 16 + n) ≤ uint64Max :=
    (blockLo_le_blockHi _ _).trans (isPrefix.blockHi_le hn)
  have hbefore := inv.loop.runBefore
  rw [Scan.catchUp, tmpL_eq, range_r ((inv.loop.j_le isPrefix hn).trans jAt_le_length)]
  by_cases hbehind : rAt keys scan.j < blockLo level.shift (pf * 2 ^ 16 + n)
  · rw [if_pos hbehind]
    constructor
    · cases hrun : scan.run with
      | none =>
          have hflush := inv.laid.flush hbefore level pf level.glues
          rw [if_pos hrun] at hflush
          exact hflush
      | some pending =>
          have hsome : scan.run ≠ none := hrun ▸ Option.some_ne_none pending
          obtain ⟨c, hc, hlaid⟩ := inv.ended hsome (lt_length_of_rAt_lt hlow hbehind) hbehind
          have hflush := hlaid.flush hbefore level pf level.glues
          rw [if_neg hsome] at hflush
          exact hflush.mono hc
    · intro l r hrun
      have hnone : (scan.flush level pf level.glues).run = some (l, r) := hrun
      rw [flush_run] at hnone
      cases hnone
  · rw [if_neg hbehind]
    exact ⟨inv.laid, hbefore⟩

theorem SweepInv.step (isPrefix : level.IsPrefix pf) (hn : n < 2 ^ 16)
    (inv : SweepInv keys level pf start n scan) :
    SweepInv keys level pf start (n + 1) (scan.step (rangelist keys) level pf n) := by
  obtain ⟨hlaid, hbefore⟩ := inv.catchUp isPrefix hn
  obtain ⟨-, hj⟩ := inv.loop.catchUp isPrefix hn
  have hscan := inv.loop.step isPrefix hn
  rw [inv.loop.step_eq isPrefix hn] at hscan ⊢
  have hsucc := @boundaryBlocks_succ keys level.shift pf n
  by_cases hfit : Fits keys level.shift (pf * 2 ^ 16 + n)
  · rw [if_pos hfit] at hscan ⊢
    refine ⟨hscan, hlaid.extend.mono (by omega), fun _ hlen hend => ?_⟩
    -- the block ends with its range, so it has a boundary
    have hidx : ((scan.catchUp (rangelist keys) level pf n).extend n).j =
        blockIdx keys level.shift (pf * 2 ^ 16 + n) := hj
    have hblock : HasBoundary keys level.shift (pf * 2 ^ 16 + n) := by
      have hnext := blockHi_succ level.shift (pf * 2 ^ 16 + n)
      rw [hidx] at hlen hend
      exact hasBoundary_of_rAt_le hlen (by rw [Nat.add_assoc] at hnext; omega)
    rw [if_pos hblock] at hsucc
    exact ⟨_, by omega, hlaid.extend⟩
  · rw [if_neg hfit] at hscan ⊢
    have hblock := hasBoundary_of_split (isPrefix.blockHi_le hn) hfit
    rw [if_pos hblock] at hsucc
    have hsplit := hlaid.split hbefore level pf
    refine ⟨hscan, hsplit.mono ?_, fun hrun => absurd (flush_run _ level pf false) hrun⟩
    split <;> omega

theorem sweepBlocks_inv (isPrefix : level.IsPrefix pf) (start : Output) (hn : n ≤ 2 ^ 16) :
    SweepInv keys level pf start n (scanBlocks (rangelist keys) level pf n start) := by
  induction n with
  | zero =>
      refine ⟨scanBlocks_inv isPrefix start hn, ?_, fun hrun => absurd rfl hrun⟩
      exact ⟨[], (List.append_nil _).symm, .nil, by simp, Nat.zero_le _⟩
  | succ n ih =>
      rw [scanBlocks_succ]
      exact (ih (Nat.le_of_succ_le hn)).step isPrefix hn

/-- The rows of a whole prefix. -/
theorem scanPrefix_laid (isPrefix : level.IsPrefix pf) (start : Output) :
    ∃ fresh, (scanPrefix (rangelist keys) level start pf).rows = start.rows ++ fresh ∧
      Tiles Row.l Row.r 0 fresh (2 ^ 16) ∧ (∀ row ∈ fresh, row.Marked) ∧
      fresh.length ≤ 2 * boundaryBlocks keys level.shift pf (2 ^ 16) + 1 := by
  have hcount : uint16Max + 1 = 2 ^ 16 := rfl
  have hsweep := @sweepBlocks_inv keys level pf _ isPrefix start (Nat.le_refl (2 ^ 16))
  have hflush := hsweep.laid.flush hsweep.loop.runBefore level pf false
  have hat : ((scanBlocks (rangelist keys) level pf (2 ^ 16) start).flush level pf false).settledAt
      (2 ^ 16) = 2 ^ 16 := by
    rw [Scan.settledAt, flush_run]
  obtain ⟨fresh, hrows, htiles, hmarked, hlen⟩ := hflush
  rw [hat] at htiles
  rw [scanPrefix_eq, hcount, scanFirst]
  refine ⟨fresh, hrows, htiles, hmarked, hlen.trans ?_⟩
  split
  · exact Nat.le_succ _
  · exact Nat.le_refl _

end

end FatBTree.Tcam
