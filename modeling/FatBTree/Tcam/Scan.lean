import FatBTree.Tcam.Blocks
import Mathlib.Logic.Function.Basic

/-!
# The loop over one prefix

Blocks that fit are collected in a run, every other block gets a row and a fresh
number.  After `n` blocks the rows cover the blocks before the pending run, each once.
-/

namespace FatBTree.Tcam

/-! ## What the loop computes -/

/-- The blocks before number `n` of a prefix that got a row of their own. -/
def splitCount (keys : List Nat) (shift pf n : Nat) : Nat :=
  (List.range n).countP (fun i => ¬ Fits keys shift (pf * 2 ^ 16 + i))

/-- `next` and the result of the row that block `i` of a prefix belongs in. -/
def content (keys : List Nat) (shift pf curidx i : Nat) : Nat × Nat :=
  if Fits keys shift (pf * 2 ^ 16 + i) then (0, blockIdx keys shift (pf * 2 ^ 16 + i))
  else (1, curidx + splitCount keys shift pf i)

/-- `pfidx` after the blocks before number `n`. -/
def assigned (keys : List Nat) (shift pf : Nat) (start : Output) (n key : Nat) : Nat :=
  if key / 2 ^ 16 = pf ∧ key % 2 ^ 16 < n ∧ ¬ Fits keys shift key then
    start.curidx + splitCount keys shift pf (key % 2 ^ 16)
  else start.pfidx key

/-- The number all rows of a prefix start with.  Prefix 0 is the key of its own first
block, so a row for that block changes it. -/
def headOf (keys : List Nat) (level : Level) (pf : Nat) (start : Output) : Option Nat :=
  if level.linked then
    some (if pf = 0 ∧ ¬ Fits keys level.shift 0 then start.curidx else start.pfidx pf)
  else none

def Row.covers (row : Row) (i : Nat) : Bool :=
  decide (row.l ≤ i) && decide (i ≤ row.r)

/-- The rows cover the blocks before number `n`, each once and with its content. -/
def Settled (keys : List Nat) (shift pf curidx n : Nat) (rows : List Row) : Prop :=
  ∀ i, (rows.filter (fun row => row.covers i)).map (fun row => (row.next, row.idx)) =
    if i < n then [content keys shift pf curidx i] else []

/-- The first boundary from the start of a block on is its last key. -/
def Ends (keys : List Nat) (shift q : Nat) : Prop :=
  rAt keys (blockIdx keys shift q) = blockHi shift q

/-- A run was flushed by the first flush of one of the blocks before number `n`. -/
def GluedBefore (keys : List Nat) (level : Level) (pf n : Nat) : Prop :=
  level.glues = true ∧ ∃ i, i + 1 < n ∧ Ends keys level.shift (pf * 2 ^ 16 + i)

theorem splitCount_succ (keys : List Nat) (shift pf n : Nat) :
    splitCount keys shift pf (n + 1) =
      splitCount keys shift pf n + if Fits keys shift (pf * 2 ^ 16 + n) then 0 else 1 := by
  rw [splitCount, splitCount, List.range_succ, List.countP_append, List.countP_singleton]
  simp

theorem div_blockNo {pf i : Nat} (hi : i < 2 ^ 16) : (pf * 2 ^ 16 + i) / 2 ^ 16 = pf := by
  omega

theorem mod_blockNo {pf i : Nat} (hi : i < 2 ^ 16) : (pf * 2 ^ 16 + i) % 2 ^ 16 = i := by
  omega

theorem Ends.fits {keys : List Nat} {shift q : Nat} (ends : Ends keys shift q) :
    Fits keys shift q :=
  Nat.le_of_eq ends.symm

theorem gluedBefore_succ_iff (keys : List Nat) (level : Level) (pf n : Nat) :
    GluedBefore keys level pf (n + 1) ↔ GluedBefore keys level pf n ∨
      level.glues = true ∧ ∃ i, i + 1 = n ∧ Ends keys level.shift (pf * 2 ^ 16 + i) := by
  constructor
  · rintro ⟨hglues, i, hi, hends⟩
    rcases Nat.lt_succ_iff_lt_or_eq.mp hi with hlt | heq
    · exact Or.inl ⟨hglues, i, hlt, hends⟩
    · exact Or.inr ⟨hglues, i, heq, hends⟩
  · rintro (⟨hglues, i, hi, hends⟩ | ⟨hglues, i, heq, hends⟩)
    · exact ⟨hglues, i, Nat.lt_succ_of_lt hi, hends⟩
    · exact ⟨hglues, i, Nat.lt_succ_of_le (Nat.le_of_eq heq), hends⟩

/-! ## Numbers -/

section

variable {keys : List Nat} {shift pf : Nat} {start : Output} {n : Nat}

theorem assigned_zero : assigned keys shift pf start 0 = start.pfidx := by
  funext key
  exact if_neg (fun h => Nat.not_lt_zero _ h.2.1)

theorem assigned_succ_of_fits (fits : Fits keys shift (pf * 2 ^ 16 + n)) :
    assigned keys shift pf start (n + 1) = assigned keys shift pf start n := by
  funext key
  have hsame : (key / 2 ^ 16 = pf ∧ key % 2 ^ 16 < n + 1 ∧ ¬ Fits keys shift key) ↔
      (key / 2 ^ 16 = pf ∧ key % 2 ^ 16 < n ∧ ¬ Fits keys shift key) := by
    constructor
    · rintro ⟨hpf, hlt, hsplit⟩
      refine ⟨hpf, ?_, hsplit⟩
      rcases Nat.lt_succ_iff_lt_or_eq.mp hlt with hless | heq
      · exact hless
      · have hkey : pf * 2 ^ 16 + n = key := by omega
        exact absurd (hkey ▸ fits) hsplit
    · rintro ⟨hpf, hlt, hsplit⟩
      exact ⟨hpf, Nat.lt_succ_of_lt hlt, hsplit⟩
  simp only [assigned, hsame]

theorem assigned_succ_of_split (hn : n < 2 ^ 16) (split : ¬ Fits keys shift (pf * 2 ^ 16 + n)) :
    assigned keys shift pf start (n + 1) =
      Function.update (assigned keys shift pf start n) (pf * 2 ^ 16 + n)
        (start.curidx + splitCount keys shift pf n) := by
  funext key
  rcases eq_or_ne key (pf * 2 ^ 16 + n) with rfl | hne
  · rw [Function.update_self, assigned, mod_blockNo hn, div_blockNo hn]
    exact if_pos ⟨rfl, Nat.lt_succ_self n, split⟩
  · have hsame : (key / 2 ^ 16 = pf ∧ key % 2 ^ 16 < n + 1 ∧ ¬ Fits keys shift key) ↔
        (key / 2 ^ 16 = pf ∧ key % 2 ^ 16 < n ∧ ¬ Fits keys shift key) := by
      constructor
      · rintro ⟨hpf, hlt, hsplit⟩
        exact ⟨hpf, by omega, hsplit⟩
      · rintro ⟨hpf, hlt, hsplit⟩
        exact ⟨hpf, Nat.lt_succ_of_lt hlt, hsplit⟩
    rw [Function.update_of_ne hne]
    simp only [assigned, hsame]

/-- From the first block on the head of the rows no longer changes. -/
theorem assigned_head (hpos : 0 < n) :
    assigned keys shift pf start n pf =
      if pf = 0 ∧ ¬ Fits keys shift 0 then start.curidx else start.pfidx pf := by
  have hsame : (pf / 2 ^ 16 = pf ∧ pf % 2 ^ 16 < n ∧ ¬ Fits keys shift pf) ↔
      (pf = 0 ∧ ¬ Fits keys shift 0) := by
    constructor
    · rintro ⟨hpf, -, hsplit⟩
      obtain rfl : pf = 0 := by omega
      exact ⟨rfl, hsplit⟩
    · rintro ⟨rfl, hsplit⟩
      exact ⟨rfl, hpos, hsplit⟩
  rw [assigned]
  by_cases hzero : pf = 0 ∧ ¬ Fits keys shift 0
  · obtain ⟨rfl, hsplit⟩ := hzero
    rw [if_pos (hsame.mpr ⟨rfl, hsplit⟩), if_pos ⟨rfl, hsplit⟩]
    rfl
  · rw [if_neg (hsame.not.mpr hzero), if_neg hzero]

/-! ## Rows -/

theorem settled_nil (curidx : Nat) : Settled keys shift pf curidx 0 [] :=
  fun _ => rfl

/-- A row that starts where the others end. -/
theorem Settled.append {curidx : Nat} {rows : List Row}
    (settled : Settled keys shift pf curidx n rows) (row : Row) (hl : row.l = n) (hr : n ≤ row.r)
    (fill : ∀ i, n ≤ i → i ≤ row.r → content keys shift pf curidx i = (row.next, row.idx)) :
    Settled keys shift pf curidx (row.r + 1) (rows ++ [row]) := by
  intro i
  rw [List.filter_append, List.map_append, settled i]
  rcases Nat.lt_or_ge i n with hold | hnew
  · have hcovers : row.covers i = false := by
      simp [Row.covers, hl, Nat.not_le.mpr hold]
    rw [if_pos hold, if_pos (by omega), List.filter_cons_of_neg (by simp [hcovers])]
    rfl
  · rw [if_neg (Nat.not_lt.mpr hnew), List.nil_append]
    rcases Nat.lt_or_ge row.r i with hout | hin
    · have hcovers : row.covers i = false := by
        simp [Row.covers, Nat.not_le.mpr hout]
      rw [if_neg (by omega), List.filter_cons_of_neg (by simp [hcovers])]
      rfl
    · have hcovers : row.covers i = true := by
        simp [Row.covers, hl, hnew, hin]
      rw [if_pos (by omega), List.filter_cons_of_pos (by exact hcovers), fill i hnew hin]
      rfl

/-- A row says what the blocks in it are. -/
theorem Settled.content_eq {curidx : Nat} {rows : List Row}
    (settled : Settled keys shift pf curidx n rows) {row : Row} (hrow : row ∈ rows) {i : Nat}
    (hl : row.l ≤ i) (hr : i ≤ row.r) (hi : i < n) :
    content keys shift pf curidx i = (row.next, row.idx) := by
  have hcovers : row.covers i = true := by
    simp [Row.covers, hl, hr]
  have hmem : (row.next, row.idx) ∈
      (rows.filter (fun row => row.covers i)).map (fun row => (row.next, row.idx)) :=
    List.mem_map.mpr ⟨row, List.mem_filter.mpr ⟨hrow, hcovers⟩, rfl⟩
  rw [settled i, if_pos hi] at hmem
  exact (List.mem_singleton.mp hmem).symm

/-! ## The invariant -/

/-- Where the rows end: at the pending run, or at the next block. -/
def Scan.settledAt (scan : Scan) (n : Nat) : Nat :=
  match scan.run with
  | some (l, _) => l
  | none => n

/-- What the loop has done before block `n`; `glued` says when some row is glued. -/
structure Progress (keys : List Nat) (level : Level) (pf : Nat) (start : Output) (n : Nat)
    (glued : Prop) (scan : Scan) : Prop where
  run : ∀ l r, scan.run = some (l, r) → l ≤ r ∧ r + 1 = n ∧ ∀ i, l ≤ i → i ≤ r →
    Fits keys level.shift (pf * 2 ^ 16 + i) ∧
      blockIdx keys level.shift (pf * 2 ^ 16 + i) = scan.j
  pfidx : scan.out.pfidx = assigned keys level.shift pf start n
  curidx : scan.out.curidx = start.curidx + splitCount keys level.shift pf n
  table : scan.out.table = start.table ++ if level.pushes then
    ((List.range n).filter (fun i => ¬ Fits keys level.shift (pf * 2 ^ 16 + i))).map
      (fun i => pf * 2 ^ 16 + i) else []
  rows : ∃ fresh, scan.out.rows = start.rows ++ fresh ∧
    (∀ row ∈ fresh, row.pf = headOf keys level pf start) ∧
    Settled keys level.shift pf start.curidx (scan.settledAt n) fresh ∧
    ((∃ row ∈ fresh, row.glued = true) ↔ glued)

/-- The state of the loop before block `n`. -/
structure ScanInv (keys : List Nat) (level : Level) (pf : Nat) (start : Output) (n : Nat)
    (scan : Scan) : Prop where
  progress : Progress keys level pf start n (GluedBefore keys level pf n) scan
  before : ∀ k, k < scan.j → rAt keys k < blockLo level.shift (pf * 2 ^ 16 + n)
  pending : scan.run = none → ∀ i, i + 1 = n → ¬ Fits keys level.shift (pf * 2 ^ 16 + i)

variable {level : Level} {glued : Prop} {scan : Scan}

theorem print_rows (out : Output) (level : Level) (pf : Nat) (g : Bool) (l r next idx : Nat) :
    (out.print level pf g l r next idx).rows =
      out.rows ++ [⟨if level.linked then some (out.pfidx pf) else none, g, l, r, next, idx⟩] :=
  rfl

theorem head_eq (hpos : 0 < n) {out : Output}
    (hpfidx : out.pfidx = assigned keys level.shift pf start n) :
    (if level.linked then some (out.pfidx pf) else none) = headOf keys level pf start := by
  rw [headOf, hpfidx, assigned_head hpos]

theorem flush_j (scan : Scan) (level : Level) (pf : Nat) (g : Bool) :
    (scan.flush level pf g).j = scan.j := by
  unfold Scan.flush
  split <;> rfl

theorem flush_run (scan : Scan) (level : Level) (pf : Nat) (g : Bool) :
    (scan.flush level pf g).run = none := by
  unfold Scan.flush
  split
  next => rfl
  next hrun => exact hrun

/-- Printing the pending run settles everything before block `n`. -/
theorem Progress.flush (progress : Progress keys level pf start n glued scan) (g : Bool) :
    Progress keys level pf start n (glued ∨ g = true ∧ scan.run ≠ none)
      (scan.flush level pf g) := by
  have hnone : ∀ l r, (scan.flush level pf g).run ≠ some (l, r) := by
    intro l r hrun
    rw [flush_run] at hrun
    cases hrun
  have hsettled : (scan.flush level pf g).settledAt n = n := by
    rw [Scan.settledAt, flush_run]
  obtain ⟨fresh, hrows, hhead, hcover, hglued⟩ := progress.rows
  cases hrun : scan.run with
  | none =>
      have hsame : scan.flush level pf g = scan := by
        rw [Scan.flush, hrun]
      rw [hsame] at hsettled ⊢
      refine ⟨progress.run, progress.pfidx, progress.curidx, progress.table,
        ⟨fresh, hrows, hhead, hcover, ?_⟩⟩
      simp [hglued]
  | some pending =>
      obtain ⟨l, r⟩ := pending
      obtain ⟨hlr, hr, hfits⟩ := progress.run l r hrun
      have hflush : scan.flush level pf g =
          { scan with run := none, out := scan.out.print level pf g l r 0 scan.j } := by
        rw [Scan.flush, hrun]
      have hat : scan.settledAt n = l := by
        rw [Scan.settledAt, hrun]
      refine ⟨fun l r hrun => absurd hrun (hnone l r), ?_, ?_, ?_, ?_⟩
      · rw [hflush]
        exact progress.pfidx
      · rw [hflush]
        exact progress.curidx
      · rw [hflush]
        exact progress.table
      · rw [hsettled]
        rw [hat] at hcover
        have hrow := hcover.append ⟨headOf keys level pf start, g, l, r, 0, scan.j⟩ rfl hlr
          (by
            intro i hl hi
            obtain ⟨hfit, hidx⟩ := hfits i hl hi
            rw [content, if_pos hfit, hidx])
        refine ⟨fresh ++ [⟨headOf keys level pf start, g, l, r, 0, scan.j⟩], ?_, ?_, ?_, ?_⟩
        · rw [hflush, print_rows, hrows, head_eq (by omega) progress.pfidx, List.append_assoc]
        · intro row hrow
          rcases List.mem_append.mp hrow with hold | hnew
          · exact hhead row hold
          · rw [List.mem_singleton.mp hnew]
        · rw [← hr]
          exact hrow
        · simp [or_and_right, exists_or, hglued]

/-- A prefix of the given level, so that its blocks are blocks of 64-bit keys. -/
def Level.IsPrefix (level : Level) (pf : Nat) : Prop :=
  level.shift ≤ 48 ∧ pf < 2 ^ (48 - level.shift)

theorem Level.IsPrefix.blockHi_le (isPrefix : level.IsPrefix pf) (hn : n < 2 ^ 16) :
    blockHi level.shift (pf * 2 ^ 16 + n) ≤ uint64Max := by
  obtain ⟨hshift, hpf⟩ := isPrefix
  have hpow : 2 ^ (64 - level.shift) = 2 ^ (48 - level.shift) * 2 ^ 16 := by
    rw [← Nat.pow_add]
    congr 1
    omega
  refine Tcam.blockHi_le (hshift.trans (by decide)) ?_
  rw [hpow]
  omega

/-- `j` has not passed the range of the next block. -/
theorem ScanInv.j_le (isPrefix : level.IsPrefix pf) (hn : n < 2 ^ 16)
    (inv : ScanInv keys level pf start n scan) :
    scan.j ≤ blockIdx keys level.shift (pf * 2 ^ 16 + n) :=
  le_jAt_of_before ((blockLo_le_blockHi _ _).trans (isPrefix.blockHi_le hn)) inv.before

/-- The first `if` of the loop body: `j` reaches the range of the block. -/
theorem ScanInv.catchUp (isPrefix : level.IsPrefix pf) (hn : n < 2 ^ 16)
    (inv : ScanInv keys level pf start n scan) :
    Progress keys level pf start n (GluedBefore keys level pf (n + 1))
        (scan.catchUp (rangelist keys) level pf n) ∧
      (scan.catchUp (rangelist keys) level pf n).j =
        blockIdx keys level.shift (pf * 2 ^ 16 + n) := by
  have hlow : blockLo level.shift (pf * 2 ^ 16 + n) ≤ uint64Max :=
    (blockLo_le_blockHi _ _).trans (isPrefix.blockHi_le hn)
  have hj := inv.j_le isPrefix hn
  rw [Scan.catchUp, tmpL_eq, range_r (hj.trans jAt_le_length)]
  by_cases hbehind : rAt keys scan.j < blockLo level.shift (pf * 2 ^ 16 + n)
  · -- a pending run ends with its range, so its last block ends with a boundary
    rw [if_pos hbehind]
    have hflush := inv.progress.flush level.glues
    have hglued : (GluedBefore keys level pf n ∨ level.glues = true ∧ scan.run ≠ none) ↔
        GluedBefore keys level pf (n + 1) := by
      rw [gluedBefore_succ_iff]
      refine or_congr_right (and_congr_right (fun _ => ?_))
      constructor
      · intro hrun
        obtain ⟨⟨l, r⟩, hpending⟩ := Option.ne_none_iff_exists'.mp hrun
        obtain ⟨hlr, hr, hfits⟩ := inv.progress.run l r hpending
        obtain ⟨hfit, hidx⟩ := hfits r hlr (Nat.le_refl r)
        refine ⟨r, hr, Nat.le_antisymm ?_ hfit⟩
        have hsucc := blockHi_succ level.shift (pf * 2 ^ 16 + r)
        rw [Nat.add_assoc, hr] at hsucc
        rw [hidx]
        omega
      · rintro ⟨i, hi, hends⟩ hnone
        exact inv.pending hnone i hi hends.fits
    rw [hglued] at hflush
    refine ⟨⟨?_, hflush.pfidx, hflush.curidx, hflush.table, hflush.rows⟩, ?_⟩
    · intro l r hrun
      have hnone : (scan.flush level pf level.glues).run = some (l, r) := hrun
      rw [flush_run] at hnone
      cases hnone
    · refine advance_eq hlow inv.before ?_
      have hlen : blockIdx keys level.shift (pf * 2 ^ 16 + n) ≤ keys.length := jAt_le_length
      rw [length_rangelist]
      exact (Nat.le_succ_of_le hlen).trans (Nat.le_add_left _ _)
  · rw [if_neg hbehind]
    have hglued : GluedBefore keys level pf n ↔ GluedBefore keys level pf (n + 1) := by
      rw [gluedBefore_succ_iff]
      refine ⟨Or.inl, ?_⟩
      rintro (hold | ⟨-, i, hi, hends⟩)
      · exact hold
      · -- the run would still be pending, with its range at an end
        exfalso
        cases hrun : scan.run with
        | none => exact inv.pending hrun i hi hends.fits
        | some pending =>
            obtain ⟨l, r⟩ := pending
            obtain ⟨hlr, hr, hfits⟩ := inv.progress.run l r hrun
            obtain rfl : i = r := Nat.succ.inj (hi.trans hr.symm)
            have hidx := (hfits i hlr (Nat.le_refl i)).2
            have hsucc := blockHi_succ level.shift (pf * 2 ^ 16 + i)
            rw [Nat.add_assoc, hi] at hsucc
            rw [Ends, hidx] at hends
            omega
    refine ⟨propext hglued ▸ inv.progress, ?_⟩
    exact (jAt_eq inv.before (Nat.not_lt.mp hbehind) (hj.trans jAt_le_length)).symm

theorem filter_range_succ (p : Nat → Bool) (n : Nat) :
    (List.range (n + 1)).filter p = (List.range n).filter p ++ if p n then [n] else [] := by
  rw [List.range_succ, List.filter_append, List.filter_singleton]
  cases p n <;> rfl

/-- A block that fits joins the run. -/
theorem Progress.extend (progress : Progress keys level pf start n glued scan)
    (hj : scan.j = blockIdx keys level.shift (pf * 2 ^ 16 + n))
    (fits : Fits keys level.shift (pf * 2 ^ 16 + n)) :
    Progress keys level pf start (n + 1) glued (scan.extend n) := by
  have hat : (scan.extend n).settledAt (n + 1) = scan.settledAt n := by
    unfold Scan.extend Scan.settledAt
    cases scan.run <;> rfl
  have hout : (scan.extend n).out = scan.out := rfl
  refine ⟨?_, ?_, ?_, ?_, ?_⟩
  · intro l r hrun
    cases hpending : scan.run with
    | none =>
        rw [Scan.extend, hpending] at hrun
        cases hrun
        refine ⟨Nat.le_refl n, rfl, ?_⟩
        intro i hl hr
        obtain rfl := Nat.le_antisymm hr hl
        exact ⟨fits, hj.symm⟩
    | some pending =>
        obtain ⟨first, last⟩ := pending
        rw [Scan.extend, hpending] at hrun
        cases hrun
        obtain ⟨hle, hlast, hfits⟩ := progress.run _ _ hpending
        refine ⟨by omega, rfl, ?_⟩
        intro i hl hr
        rcases Nat.lt_or_eq_of_le hr with hlt | rfl
        · exact hfits i hl (by omega)
        · exact ⟨fits, hj.symm⟩
  · rw [hout, progress.pfidx, assigned_succ_of_fits fits]
  · rw [hout, progress.curidx, splitCount_succ, if_pos fits, Nat.add_zero]
  · have hnot : decide (¬ Fits keys level.shift (pf * 2 ^ 16 + n)) = false := by
      simpa using fits
    rw [hout, progress.table, filter_range_succ, hnot, if_neg Bool.false_ne_true, List.append_nil]
  · rw [hat]
    exact progress.rows

/-- A block that does not fit ends the run and gets a number and a row. -/
theorem Progress.split (hn : n < 2 ^ 16) (progress : Progress keys level pf start n glued scan)
    (split : ¬ Fits keys level.shift (pf * 2 ^ 16 + n)) :
    Progress keys level pf start (n + 1) glued (scan.split level pf n) := by
  have hflush := progress.flush false
  have hrun := flush_run scan level pf false
  have hkey : (pf <<< 16) + n = pf * 2 ^ 16 + n := by
    rw [Nat.shiftLeft_eq]
  have hpfidx : (scan.split level pf n).out.pfidx = assigned keys level.shift pf start (n + 1) := by
    rw [assigned_succ_of_split hn split, ← hflush.pfidx, ← hflush.curidx, ← hkey]
    rfl
  have hnone : (scan.split level pf n).run = none := hrun
  have hat : (scan.split level pf n).settledAt (n + 1) = n + 1 := by
    rw [Scan.settledAt, hnone]
  have hflushAt : (scan.flush level pf false).settledAt n = n := by
    rw [Scan.settledAt, hrun]
  refine ⟨?_, hpfidx, ?_, ?_, ?_⟩
  · intro l r hsome
    rw [hnone] at hsome
    cases hsome
  · have hcuridx : (scan.split level pf n).out.curidx = (scan.flush level pf false).out.curidx + 1 :=
      rfl
    rw [hcuridx, hflush.curidx, splitCount_succ, if_neg split, Nat.add_assoc]
  · have htable : (scan.split level pf n).out.table =
        if level.pushes then (scan.flush level pf false).out.table ++ [(pf <<< 16) + n]
        else (scan.flush level pf false).out.table := rfl
    have hnot : decide (¬ Fits keys level.shift (pf * 2 ^ 16 + n)) = true := by
      simpa using split
    rw [htable, hflush.table, hkey, filter_range_succ, hnot, if_pos rfl]
    cases level.pushes with
    | false => rfl
    | true =>
        rw [if_pos rfl, if_pos rfl, if_pos rfl, List.map_append, List.append_assoc]
        rfl
  · obtain ⟨fresh, hrows, hhead, hcover, hglued⟩ := hflush.rows
    let row : Row := ⟨headOf keys level pf start, false, n, n, 1,
      start.curidx + splitCount keys level.shift pf n⟩
    have hprinted : (scan.split level pf n).out.rows =
        (scan.flush level pf false).out.rows ++ [⟨if level.linked then
          some ((scan.split level pf n).out.pfidx pf) else none, false, n, n, 1,
          (scan.split level pf n).out.pfidx ((pf <<< 16) + n)⟩] := rfl
    have hnumber : (scan.split level pf n).out.pfidx ((pf <<< 16) + n) =
        start.curidx + splitCount keys level.shift pf n := by
      rw [hpfidx, assigned_succ_of_split hn split, hkey, Function.update_self]
    rw [hflushAt] at hcover
    have hrow := hcover.append row rfl (Nat.le_refl n) (by
      intro i hl hi
      obtain rfl : i = n := Nat.le_antisymm hi hl
      exact if_neg split)
    refine ⟨fresh ++ [row], ?_, ?_, ?_, ?_⟩
    · rw [hprinted, hnumber, head_eq (Nat.succ_pos n) hpfidx, hrows, List.append_assoc]
    · intro other hother
      rcases List.mem_append.mp hother with hold | hnew
      · exact hhead other hold
      · rw [List.mem_singleton.mp hnew]
    · rw [hat]
      exact hrow
    · simpa [or_and_right, exists_or, row] using hglued

/-- The loop body asks whether the block fits. -/
theorem ScanInv.step_eq (isPrefix : level.IsPrefix pf) (hn : n < 2 ^ 16)
    (inv : ScanInv keys level pf start n scan) :
    scan.step (rangelist keys) level pf n =
      if Fits keys level.shift (pf * 2 ^ 16 + n) then
        (scan.catchUp (rangelist keys) level pf n).extend n
      else (scan.catchUp (rangelist keys) level pf n).split level pf n := by
  obtain ⟨-, hj⟩ := inv.catchUp isPrefix hn
  let caught := scan.catchUp (rangelist keys) level pf n
  have hrange : ((rangelist keys).getD caught.j default).l ≤ tmpL level pf n := by
    rw [tmpL_eq]
    exact hj ▸ range_l_le
  have hfits : (((rangelist keys).getD caught.j default).l ≤ tmpL level pf n ∧
      tmpR level pf n ≤ ((rangelist keys).getD caught.j default).r) ↔
        Fits keys level.shift (pf * 2 ^ 16 + n) := by
    have hr : ((rangelist keys).getD caught.j default).r =
        rAt keys (blockIdx keys level.shift (pf * 2 ^ 16 + n)) := by
      rw [← hj]
      exact range_r (hj.trans_le jAt_le_length)
    rw [and_iff_right hrange, tmpR_eq, hr]
    rfl
  rw [Scan.step]
  exact if_congr hfits rfl rfl

/-- One turn of the inner loop. -/
theorem ScanInv.step (isPrefix : level.IsPrefix pf) (hn : n < 2 ^ 16)
    (inv : ScanInv keys level pf start n scan) :
    ScanInv keys level pf start (n + 1) (scan.step (rangelist keys) level pf n) := by
  obtain ⟨hprogress, hj⟩ := inv.catchUp isPrefix hn
  let caught := scan.catchUp (rangelist keys) level pf n
  have hbefore : ∀ k, k < blockIdx keys level.shift (pf * 2 ^ 16 + n) →
      rAt keys k < blockLo level.shift (pf * 2 ^ 16 + (n + 1)) :=
    fun k hk => Nat.lt_of_lt_of_le (rAt_lt hk) (blockLo_mono _ (Nat.le_succ _))
  rw [inv.step_eq isPrefix hn]
  by_cases hfit : Fits keys level.shift (pf * 2 ^ 16 + n)
  · rw [if_pos hfit]
    refine ⟨hprogress.extend hj hfit, ?_, ?_⟩
    · intro k hk
      exact hbefore k (hj ▸ hk)
    · intro hrun
      unfold Scan.extend at hrun
      cases hrun
  · rw [if_neg hfit]
    refine ⟨hprogress.split hn hfit, ?_, ?_⟩
    · intro k hk
      have hkept : (caught.split level pf n).j = caught.j := flush_j caught level pf false
      exact hbefore k (hj ▸ hkept ▸ hk)
    · intro _ i hi
      obtain rfl := Nat.succ.inj hi
      exact hfit

theorem scanBlocks_succ (ranges : List Range) (level : Level) (pf n : Nat) (start : Output) :
    scanBlocks ranges level pf (n + 1) start =
      (scanBlocks ranges level pf n start).step ranges level pf n := by
  rw [scanBlocks, List.range_succ, List.foldl_append]
  rfl

theorem scanBlocks_inv (isPrefix : level.IsPrefix pf) (start : Output) (hn : n ≤ 2 ^ 16) :
    ScanInv keys level pf start n (scanBlocks (rangelist keys) level pf n start) := by
  induction n with
  | zero =>
      refine ⟨⟨?_, assigned_zero.symm, rfl, ?_, [], (List.append_nil _).symm, by simp,
        settled_nil _, ?_⟩, ?_, ?_⟩
      · intro l r hrun
        cases hrun
      · have htable : (if level.pushes then ([] : List Nat) else []) = [] := by
          split <;> rfl
        exact (List.append_nil start.table).symm.trans (congrArg (start.table ++ ·) htable.symm)
      · simp [GluedBefore]
      · intro k hk
        exact absurd hk (Nat.not_lt_zero k)
      · intro _ i hi
        cases hi
  | succ n ih =>
      rw [scanBlocks_succ]
      exact (ih (Nat.le_of_succ_le hn)).step isPrefix hn

/-! ## A whole prefix -/

/-- What the loop over one prefix leaves. -/
structure PrefixDone (keys : List Nat) (level : Level) (pf : Nat) (start out : Output) : Prop where
  pfidx : out.pfidx = assigned keys level.shift pf start (2 ^ 16)
  curidx : out.curidx = start.curidx + splitCount keys level.shift pf (2 ^ 16)
  table : out.table = start.table ++ if level.pushes then
    ((List.range (2 ^ 16)).filter (fun i => ¬ Fits keys level.shift (pf * 2 ^ 16 + i))).map
      (fun i => pf * 2 ^ 16 + i) else []
  rows : ∃ fresh, out.rows = start.rows ++ fresh ∧
    (∀ row ∈ fresh, row.pf = headOf keys level pf start) ∧
    Settled keys level.shift pf start.curidx (2 ^ 16) fresh ∧
    ((∃ row ∈ fresh, row.glued = true) ↔ GluedBefore keys level pf (2 ^ 16))

/-- `scanPrefix` with an open number of blocks, which is not evaluated. -/
def scanFirst (ranges : List Range) (level : Level) (pf count : Nat) (out : Output) : Output :=
  ((scanBlocks ranges level pf count out).flush level pf false).out

theorem scanPrefix_eq (ranges : List Range) (level : Level) (out : Output) (pf : Nat) :
    scanPrefix ranges level out pf = scanFirst ranges level pf (uint16Max + 1) out := rfl

theorem scanPrefix_done (isPrefix : level.IsPrefix pf) (start : Output) :
    PrefixDone keys level pf start (scanPrefix (rangelist keys) level start pf) := by
  have hcount : uint16Max + 1 = 2 ^ 16 := rfl
  have hscan := @scanBlocks_inv keys pf _ level isPrefix start (Nat.le_refl (2 ^ 16))
  have hlast := hscan.progress.flush false
  have hat : ((scanBlocks (rangelist keys) level pf (2 ^ 16) start).flush level pf false).settledAt
      (2 ^ 16) = 2 ^ 16 := by
    rw [Scan.settledAt, flush_run]
  obtain ⟨fresh, hrows, hhead, hcover, hglued⟩ := hlast.rows
  rw [hat] at hcover
  rw [scanPrefix_eq, hcount, scanFirst]
  refine ⟨hlast.pfidx, hlast.curidx, hlast.table, fresh, hrows, hhead, hcover, ?_⟩
  simpa using hglued

end

end FatBTree.Tcam
