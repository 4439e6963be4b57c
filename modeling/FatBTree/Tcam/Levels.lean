import FatBTree.Tcam.Scan
import Mathlib.Data.List.Flatten
import Mathlib.Data.List.Induction

/-!
# The loop over all prefixes of a level

The numbers that a level hands out are fresh and distinct.  A prefix keeps the number
the level before gave it, unless its value is also the key of a block of this level.
-/

namespace FatBTree.Tcam

/-- The blocks of a level that do not fit, in the order of the next table. -/
def newKeys (keys : List Nat) (shift : Nat) (pfs : List Nat) : List Nat :=
  pfs.flatMap (fun pf =>
    ((List.range (2 ^ 16)).filter (fun i => ¬ Fits keys shift (pf * 2 ^ 16 + i))).map
      (fun i => pf * 2 ^ 16 + i))

section

variable {keys : List Nat} {shift : Nat}

theorem newKeys_append (pfs : List Nat) (pf : Nat) :
    newKeys keys shift (pfs ++ [pf]) = newKeys keys shift pfs ++
      ((List.range (2 ^ 16)).filter (fun i => ¬ Fits keys shift (pf * 2 ^ 16 + i))).map
        (fun i => pf * 2 ^ 16 + i) := by
  rw [newKeys, List.flatMap_append, List.flatMap_singleton]
  rfl

theorem mem_newKeys {pfs : List Nat} {q : Nat} :
    q ∈ newKeys keys shift pfs ↔ q / 2 ^ 16 ∈ pfs ∧ ¬ Fits keys shift q := by
  simp only [newKeys, List.mem_flatMap, List.mem_map, List.mem_filter, List.mem_range,
    decide_eq_true_eq]
  constructor
  · rintro ⟨pf, hpf, i, ⟨hi, hsplit⟩, rfl⟩
    rw [div_blockNo hi]
    exact ⟨hpf, hsplit⟩
  · rintro ⟨hpf, hsplit⟩
    have hq : q / 2 ^ 16 * 2 ^ 16 + q % 2 ^ 16 = q := by omega
    exact ⟨_, hpf, q % 2 ^ 16, ⟨Nat.mod_lt _ (by decide), hq.symm ▸ hsplit⟩, hq⟩

/-- The chosen blocks of increasing prefixes increase. -/
theorem blocks_sorted {pfs : List Nat} (sorted : pfs.Pairwise (· < ·)) {p : Nat → Prop}
    [DecidablePred p] :
    (pfs.flatMap (fun pf => ((List.range (2 ^ 16)).filter (fun i => p (pf * 2 ^ 16 + i))).map
      (fun i => pf * 2 ^ 16 + i))).Pairwise (· < ·) := by
  induction pfs with
  | nil => exact List.Pairwise.nil
  | cons pf rest ih =>
      obtain ⟨hfirst, hrest⟩ := List.pairwise_cons.mp sorted
      rw [List.flatMap_cons, List.pairwise_append]
      refine ⟨?_, ih hrest, ?_⟩
      · rw [List.pairwise_map]
        exact (List.pairwise_lt_range.filter _).imp (by omega)
      · intro q hq other hother
        obtain ⟨i, hi, rfl⟩ := List.mem_map.mp hq
        obtain ⟨next, hnext, hmem⟩ := List.mem_flatMap.mp hother
        obtain ⟨k, -, rfl⟩ := List.mem_map.mp hmem
        have hilt := List.mem_range.mp (List.mem_filter.mp hi).1
        have hpf := hfirst next hnext
        omega

theorem newKeys_sorted {pfs : List Nat} (sorted : pfs.Pairwise (· < ·)) :
    (newKeys keys shift pfs).Pairwise (· < ·) := by
  rw [newKeys]
  exact blocks_sorted (p := fun q => ¬ Fits keys shift q) sorted

theorem splitCount_mono (pf : Nat) {m n : Nat} (hmn : m ≤ n) :
    splitCount keys shift pf m ≤ splitCount keys shift pf n := by
  induction n with
  | zero => exact (Nat.le_zero.mp hmn) ▸ Nat.le_refl _
  | succ n ih =>
      rcases Nat.lt_or_eq_of_le hmn with hlt | rfl
      · rw [splitCount_succ]
        exact (ih (Nat.le_of_lt_succ hlt)).trans (Nat.le_add_right _ _)
      · exact Nat.le_refl _

/-- The count grows behind every block that does not fit. -/
theorem splitCount_lt {pf m n : Nat} (hmn : m < n)
    (split : ¬ Fits keys shift (pf * 2 ^ 16 + m)) :
    splitCount keys shift pf m < splitCount keys shift pf n := by
  have hle : splitCount keys shift pf (m + 1) ≤ splitCount keys shift pf n :=
    splitCount_mono pf (Nat.succ_le_of_lt hmn)
  rw [splitCount_succ, if_neg split] at hle
  exact hle

end

/-! ## The invariants -/

/-- The numbers that a level has handed out after some prefixes. -/
structure Numbered (keys : List Nat) (level : Level) (start : Output) (pfs : List Nat)
    (out : Output) : Prop where
  kept : ∀ key, key ∉ newKeys keys level.shift pfs → out.pfidx key = start.pfidx key
  fresh : ∀ key ∈ newKeys keys level.shift pfs,
    start.curidx ≤ out.pfidx key ∧ out.pfidx key < out.curidx
  distinct : ∀ key ∈ newKeys keys level.shift pfs, ∀ other ∈ newKeys keys level.shift pfs,
    out.pfidx key = out.pfidx other → key = other
  curidx : start.curidx ≤ out.curidx
  table : out.table = if level.pushes then newKeys keys level.shift pfs else []

/-- What the rows of a linked level hold after some prefixes. -/
structure Linked (keys : List Nat) (level : Level) (start : Output) (pfs : List Nat)
    (out : Output) : Prop where
  glued : (∃ row ∈ out.rows, row.glued = true) ↔ ∃ pf ∈ pfs, GluedBefore keys level pf (2 ^ 16)
  heads : ∀ row ∈ out.rows, ∃ head, row.pf = some head ∧
    (start.curidx ≤ head ∨ ∃ pf ∈ pfs, head = start.pfidx pf)
  rows : ∀ pf ∈ pfs, ∀ i, i < 2 ^ 16 →
    (out.rows.filter (fun row =>
        decide (row.pf = some (start.pfidx pf)) && row.covers i)).map
          (fun row => (row.next, row.idx)) =
      if pf ∈ newKeys keys level.shift pfs then [] else
        [if Fits keys level.shift (pf * 2 ^ 16 + i) then
            (0, blockIdx keys level.shift (pf * 2 ^ 16 + i))
          else (1, out.pfidx (pf * 2 ^ 16 + i))]

theorem filter_head_nil {rows : List Row} {head : Nat} (other : ∀ row ∈ rows, row.pf ≠ some head)
    (i : Nat) :
    rows.filter (fun row => decide (row.pf = some head) && row.covers i) = [] := by
  rw [List.filter_eq_nil_iff]
  intro row hrow
  simp [other row hrow]

theorem filter_head_self {rows : List Row} {head : Nat} (same : ∀ row ∈ rows, row.pf = some head)
    (i : Nat) :
    rows.filter (fun row => decide (row.pf = some head) && row.covers i) =
      rows.filter (fun row => row.covers i) := by
  refine List.filter_congr (fun row hrow => ?_)
  simp [same row hrow]

/-! ## One more prefix -/

section

variable {keys : List Nat} {level : Level} {start out next : Output} {pfs : List Nat} {pf : Nat}

theorem pfidx_of_mem (done : PrefixDone keys level pf out next) {key : Nat} (hpf : key / 2 ^ 16 = pf)
    (split : ¬ Fits keys level.shift key) :
    next.pfidx key = out.curidx + splitCount keys level.shift pf (key % 2 ^ 16) := by
  rw [done.pfidx, assigned, if_pos ⟨hpf, Nat.mod_lt _ (by decide), split⟩]

theorem pfidx_of_other (done : PrefixDone keys level pf out next) {key : Nat}
    (other : ¬ (key / 2 ^ 16 = pf ∧ ¬ Fits keys level.shift key)) :
    next.pfidx key = out.pfidx key := by
  rw [done.pfidx, assigned, if_neg (fun h => other ⟨h.1, h.2.2⟩)]

theorem mem_newKeys_append {key : Nat} :
    key ∈ newKeys keys level.shift (pfs ++ [pf]) ↔
      key ∈ newKeys keys level.shift pfs ∨ key / 2 ^ 16 = pf ∧ ¬ Fits keys level.shift key := by
  simp only [mem_newKeys, List.mem_append, List.mem_singleton, or_and_right]

theorem Numbered.nil (start : Output) :
    Numbered keys level start [] { start with table := [], rows := [] } where
  kept := fun _ _ => rfl
  fresh := by
    intro key hkey
    cases hkey
  distinct := by
    intro key hkey
    cases hkey
  curidx := Nat.le_refl _
  table := (ite_self []).symm

theorem pfidx_of_mem_old (done : PrefixDone keys level pf out next) (sorted : ∀ p ∈ pfs, p < pf)
    {key : Nat} (hkey : key ∈ newKeys keys level.shift pfs) : next.pfidx key = out.pfidx key := by
  have hlt := sorted _ (mem_newKeys.mp hkey).1
  exact pfidx_of_other done (fun h => Nat.lt_irrefl _ (h.1 ▸ hlt))

theorem pfidx_bounds (done : PrefixDone keys level pf out next) {key : Nat}
    (hpf : key / 2 ^ 16 = pf) (split : ¬ Fits keys level.shift key) :
    out.curidx ≤ next.pfidx key ∧ next.pfidx key < next.curidx := by
  have hkey : pf * 2 ^ 16 + key % 2 ^ 16 = key := by omega
  have hcount := @splitCount_lt keys level.shift pf (key % 2 ^ 16) (2 ^ 16)
    (Nat.mod_lt _ (by decide)) (by rwa [hkey])
  rw [pfidx_of_mem done hpf split, done.curidx]
  omega

theorem pfidx_inj (done : PrefixDone keys level pf out next) {key other : Nat}
    (hpf : key / 2 ^ 16 = pf) (split : ¬ Fits keys level.shift key) (hpf' : other / 2 ^ 16 = pf)
    (split' : ¬ Fits keys level.shift other) (same : next.pfidx key = next.pfidx other) :
    key = other := by
  have hkey : pf * 2 ^ 16 + key % 2 ^ 16 = key := by omega
  have hkey' : pf * 2 ^ 16 + other % 2 ^ 16 = other := by omega
  rw [pfidx_of_mem done hpf split, pfidx_of_mem done hpf' split'] at same
  rcases Nat.lt_trichotomy (key % 2 ^ 16) (other % 2 ^ 16) with hlt | heq | hgt
  · have hcount := @splitCount_lt keys level.shift pf _ _ hlt (by rwa [hkey])
    omega
  · omega
  · have hcount := @splitCount_lt keys level.shift pf _ _ hgt (by rwa [hkey'])
    omega

theorem Numbered.step (inv : Numbered keys level start pfs out) (sorted : ∀ p ∈ pfs, p < pf)
    (done : PrefixDone keys level pf out next) : Numbered keys level start (pfs ++ [pf]) next := by
  have hgrow : out.curidx ≤ next.curidx := done.curidx ▸ Nat.le_add_right _ _
  refine ⟨?_, ?_, ?_, inv.curidx.trans hgrow, ?_⟩
  · intro key hkey
    rw [mem_newKeys_append, not_or] at hkey
    rw [pfidx_of_other done hkey.2, inv.kept key hkey.1]
  · intro key hkey
    rcases mem_newKeys_append.mp hkey with hmem | ⟨hpf, hsplit⟩
    · obtain ⟨hle, hlt⟩ := inv.fresh key hmem
      rw [pfidx_of_mem_old done sorted hmem]
      exact ⟨hle, Nat.lt_of_lt_of_le hlt hgrow⟩
    · obtain ⟨hle, hlt⟩ := pfidx_bounds done hpf hsplit
      exact ⟨inv.curidx.trans hle, hlt⟩
  · intro key hkey other hother hsame
    rcases mem_newKeys_append.mp hkey with hmem | ⟨hpf, hsplit⟩
    · rcases mem_newKeys_append.mp hother with hmem' | ⟨hpf', hsplit'⟩
      · rw [pfidx_of_mem_old done sorted hmem, pfidx_of_mem_old done sorted hmem'] at hsame
        exact inv.distinct key hmem other hmem' hsame
      · have hlt := (inv.fresh key hmem).2
        have hle := (pfidx_bounds done hpf' hsplit').1
        rw [pfidx_of_mem_old done sorted hmem] at hsame
        omega
    · rcases mem_newKeys_append.mp hother with hmem' | ⟨hpf', hsplit'⟩
      · have hlt := (inv.fresh other hmem').2
        have hle := (pfidx_bounds done hpf hsplit).1
        rw [pfidx_of_mem_old done sorted hmem'] at hsame
        omega
      · exact pfidx_inj done hpf hsplit hpf' hsplit' hsame
  · rw [done.table, inv.table, newKeys_append]
    cases level.pushes with
    | false => rfl
    | true => rfl

/-- The number at the start of the rows of the next prefix. -/
theorem Numbered.head_eq (inv : Numbered keys level start pfs out) (linked : level.linked = true) :
    ∃ head, headOf keys level pf out = some head ∧
      if pf ∈ newKeys keys level.shift (pfs ++ [pf]) then start.curidx ≤ head
      else head = start.pfidx pf := by
  rw [headOf, if_pos linked]
  refine ⟨_, rfl, ?_⟩
  by_cases hzero : pf = 0 ∧ ¬ Fits keys level.shift 0
  · obtain ⟨rfl, hsplit⟩ := hzero
    have hin : 0 ∈ newKeys keys level.shift (pfs ++ [0]) :=
      mem_newKeys_append.mpr (Or.inr ⟨Nat.zero_div _, hsplit⟩)
    rw [if_pos hin, if_pos ⟨rfl, hsplit⟩]
    exact inv.curidx
  · have hmem : pf ∈ newKeys keys level.shift (pfs ++ [pf]) ↔
        pf ∈ newKeys keys level.shift pfs := by
      rw [mem_newKeys_append, or_iff_left]
      rintro ⟨hpf, hsplit⟩
      obtain rfl : pf = 0 := by omega
      exact hzero ⟨rfl, hsplit⟩
    rw [if_neg hzero]
    split
    next hin => exact (inv.fresh pf (hmem.mp hin)).1
    next hout => exact inv.kept pf (hmem.not.mp hout)

theorem Linked.nil (start : Output) :
    Linked keys level start [] { start with table := [], rows := [] } where
  glued := by simp
  heads := by
    intro row hrow
    cases hrow
  rows := by
    intro pf hpf
    cases hpf

/-- The rows of an old prefix are untouched by those of the next. -/
theorem rows_of_old {fresh : List Row} {head p i : Nat} (hhead : head ≠ start.pfidx p)
    (hfresh : ∀ row ∈ fresh, row.pf = some head) :
    ((out.rows ++ fresh).filter (fun row =>
        decide (row.pf = some (start.pfidx p)) && row.covers i)) =
      out.rows.filter (fun row => decide (row.pf = some (start.pfidx p)) && row.covers i) := by
  have hother : ∀ row ∈ fresh, row.pf ≠ some (start.pfidx p) := by
    intro row hrow heq
    rw [hfresh row hrow] at heq
    exact hhead (Option.some.inj heq)
  rw [List.filter_append, filter_head_nil hother i, List.append_nil]

/-- A finished prefix keeps the invariant. -/
theorem Linked.step (inv : Linked keys level start pfs out)
    (numbered : Numbered keys level start pfs out) (linked : level.linked = true)
    (sorted : ∀ p ∈ pfs, p < pf)
    (small : ∀ p ∈ pfs ++ [pf], start.pfidx p < start.curidx)
    (distinct : ∀ p ∈ pfs ++ [pf], ∀ q ∈ pfs ++ [pf], start.pfidx p = start.pfidx q → p = q)
    (done : PrefixDone keys level pf out next) : Linked keys level start (pfs ++ [pf]) next := by
  obtain ⟨head, hheadOf, hhead⟩ := @Numbered.head_eq keys level start out pfs pf numbered linked
  obtain ⟨fresh, hrows, hfresh, hcover, hglued⟩ := done.rows
  rw [hheadOf] at hfresh
  have hpfMem : pf ∈ pfs ++ [pf] := List.mem_append_right _ (List.mem_singleton_self pf)
  refine ⟨?_, ?_, ?_⟩
  · rw [hrows]
    simp only [List.mem_append, or_and_right, exists_or, inv.glued, hglued, List.mem_singleton,
      exists_eq_left]
  · intro row hrow
    rw [hrows] at hrow
    rcases List.mem_append.mp hrow with hmem | hmem
    · obtain ⟨other, hpf, hsource⟩ := inv.heads row hmem
      refine ⟨other, hpf, hsource.imp_right ?_⟩
      rintro ⟨p, hp, heq⟩
      exact ⟨p, List.mem_append_left _ hp, heq⟩
    · refine ⟨head, hfresh row hmem, ?_⟩
      split at hhead
      next => exact Or.inl hhead
      next => exact Or.inr ⟨pf, hpfMem, hhead⟩
  · intro p hp i hi
    have hsmall := small p hp
    rw [hrows]
    rcases List.mem_append.mp hp with hmem | hmem
    · have hlt := sorted p hmem
      have hne : head ≠ start.pfidx p := by
        rintro rfl
        split at hhead
        next => omega
        next => exact absurd (distinct p hp pf hpfMem hhead) (Nat.ne_of_lt hlt)
      have hpMem : p ∈ newKeys keys level.shift (pfs ++ [pf]) ↔
          p ∈ newKeys keys level.shift pfs := by
        rw [mem_newKeys_append, or_iff_left]
        rintro ⟨hdiv, -⟩
        omega
      have hkept : next.pfidx (p * 2 ^ 16 + i) = out.pfidx (p * 2 ^ 16 + i) := by
        refine pfidx_of_other done (fun h => ?_)
        rw [div_blockNo hi] at h
        exact absurd h.1 (Nat.ne_of_lt hlt)
      rw [rows_of_old hne hfresh, inv.rows p hmem i hi, hkept]
      exact if_congr hpMem.symm rfl rfl
    · obtain rfl := List.mem_singleton.mp hmem
      have hold : ∀ row ∈ out.rows, row.pf ≠ some (start.pfidx p) := by
        intro row hrow heq
        obtain ⟨other, hpf, hsource⟩ := inv.heads row hrow
        rw [hpf] at heq
        obtain rfl := Option.some.inj heq
        rcases hsource with hle | ⟨q, hq, hsame⟩
        · omega
        · have heq := distinct p hp q (List.mem_append_left _ hq) hsame
          exact absurd (sorted q hq) (heq ▸ Nat.lt_irrefl _)
      rw [List.filter_append, filter_head_nil hold i, List.nil_append]
      split at hhead
      next hin =>
        -- the prefix is also the key of a block, so its number was replaced
        have hother : ∀ row ∈ fresh, row.pf ≠ some (start.pfidx p) := by
          intro row hrow heq
          rw [hfresh row hrow] at heq
          obtain rfl := Option.some.inj heq
          omega
        rw [if_pos hin, filter_head_nil hother i, List.map_nil]
      next hout =>
        have hself : ∀ row ∈ fresh, row.pf = some (start.pfidx p) := by
          intro row hrow
          rw [hfresh row hrow, hhead]
        rw [if_neg hout, filter_head_self hself i, hcover i, if_pos hi, content]
        by_cases hfit : Fits keys level.shift (p * 2 ^ 16 + i)
        · rw [if_pos hfit, if_pos hfit]
        · rw [if_neg hfit, if_neg hfit, pfidx_of_mem done (div_blockNo hi) hfit, mod_blockNo hi]

theorem runLevel_append (keys : List Nat) (level : Level) (pfs : List Nat) (pf : Nat)
    (start : Output) :
    runLevel (rangelist keys) level (pfs ++ [pf]) start =
      scanPrefix (rangelist keys) level (runLevel (rangelist keys) level pfs start) pf := by
  rw [runLevel, runLevel, List.foldl_append, List.foldl_cons, List.foldl_nil]

theorem runLevel_numbered (start : Output) (isPrefix : ∀ pf ∈ pfs, level.IsPrefix pf)
    (sorted : pfs.Pairwise (· < ·)) :
    Numbered keys level start pfs (runLevel (rangelist keys) level pfs start) := by
  induction pfs using List.reverseRecOn with
  | nil => exact Numbered.nil start
  | append_singleton pfs pf ih =>
      obtain ⟨hpfs, -, hlast⟩ := List.pairwise_append.mp sorted
      have hnumbered := ih (fun p hp => isPrefix p (List.mem_append_left _ hp)) hpfs
      have hpf := isPrefix pf (List.mem_append_right _ (List.mem_singleton_self pf))
      rw [runLevel_append]
      exact hnumbered.step (fun p hp => hlast p hp pf (List.mem_singleton_self pf))
        (scanPrefix_done hpf _)

theorem runLevel_linked (linked : level.linked = true) (start : Output)
    (isPrefix : ∀ pf ∈ pfs, level.IsPrefix pf) (sorted : pfs.Pairwise (· < ·))
    (small : ∀ p ∈ pfs, start.pfidx p < start.curidx)
    (distinct : ∀ p ∈ pfs, ∀ q ∈ pfs, start.pfidx p = start.pfidx q → p = q) :
    Linked keys level start pfs (runLevel (rangelist keys) level pfs start) := by
  induction pfs using List.reverseRecOn with
  | nil => exact Linked.nil start
  | append_singleton pfs pf ih =>
      obtain ⟨hpfs, -, hlast⟩ := List.pairwise_append.mp sorted
      have hinit : ∀ p, p ∈ pfs → p ∈ pfs ++ [pf] := fun p => List.mem_append_left [pf]
      have hlinked := ih (fun p hp => isPrefix p (hinit p hp)) hpfs
        (fun p hp => small p (hinit p hp))
        (fun p hp q hq => distinct p (hinit p hp) q (hinit q hq))
      have hnumbered : Numbered keys level start pfs (runLevel (rangelist keys) level pfs start) :=
        runLevel_numbered start (fun p hp => isPrefix p (hinit p hp)) hpfs
      have hpf := isPrefix pf (List.mem_append_right _ (List.mem_singleton_self pf))
      rw [runLevel_append]
      exact hlinked.step hnumbered linked
        (fun p hp => hlast p hp pf (List.mem_singleton_self pf)) small distinct
        (scanPrefix_done hpf _)

end

end FatBTree.Tcam
