import FatBTree.Tcam.MatchTable
import Mathlib.Data.List.GetD

/-!
# Blocks of keys and the ranges they lie in

Block `q` of a level with shift `s` holds the keys from `q * 2 ^ s` on.  It lies in one
range unless the first boundary from its start on comes before its last key.
-/

namespace FatBTree.Tcam

/-- The number of the first boundary from `t` on. -/
def jAt (keys : List Nat) (t : Nat) : Nat :=
  keys.findIdx (fun key => decide (t ≤ key))

/-- The last key of range `j`. -/
def rAt (keys : List Nat) (j : Nat) : Nat :=
  keys.getD j uint64Max

def blockLo (shift q : Nat) : Nat := q * 2 ^ shift

def blockHi (shift q : Nat) : Nat := q * 2 ^ shift + (2 ^ shift - 1)

/-- The number of the range that the start of a block lies in. -/
def blockIdx (keys : List Nat) (shift q : Nat) : Nat :=
  jAt keys (blockLo shift q)

/-- The whole block lies in one range. -/
def Fits (keys : List Nat) (shift q : Nat) : Prop :=
  blockHi shift q ≤ rAt keys (blockIdx keys shift q)

instance (keys : List Nat) (shift q : Nat) : Decidable (Fits keys shift q) :=
  inferInstanceAs (Decidable (_ ≤ _))

/-! ## Ranges -/

theorem rangesFrom_r (prev : Nat) {keys : List Nat} {j : Nat} (hj : j ≤ keys.length) :
    ((rangesFrom prev keys).getD j default).r = rAt keys j := by
  induction keys generalizing prev j with
  | nil =>
      obtain rfl : j = 0 := Nat.le_zero.mp hj
      rfl
  | cons key rest ih =>
      cases j with
      | zero => rfl
      | succ j => exact ih key (Nat.le_of_succ_le_succ hj)

theorem rangesFrom_l (prev : Nat) {keys : List Nat} {j : Nat} (hj : j < keys.length) :
    ((rangesFrom prev keys).getD (j + 1) default).l = (rAt keys j + 1) % 2 ^ 64 := by
  induction keys generalizing prev j with
  | nil => cases hj
  | cons key rest ih =>
      cases j with
      | zero => cases rest <;> rfl
      | succ j => exact ih key (Nat.lt_of_succ_lt_succ hj)

theorem rangelist_zero_l (keys : List Nat) : ((rangelist keys).getD 0 default).l = 0 := by
  cases keys <;> rfl

theorem length_rangelist (keys : List Nat) : (rangelist keys).length = keys.length + 1 := by
  have hlen : ∀ prev, (rangesFrom prev keys).length = keys.length + 1 := by
    induction keys with
    | nil => exact fun _ => rfl
    | cons key rest ih => exact fun _ => congrArg Nat.succ (ih key)
  exact hlen uint64Max

/-! ## The first boundary from a key on -/

section

variable {keys : List Nat} {t u : Nat}

theorem jAt_le_length : jAt keys t ≤ keys.length :=
  List.findIdx_le_length

theorem rAt_lt {j : Nat} (hj : j < jAt keys t) : rAt keys j < t := by
  have hlen : j < keys.length := Nat.lt_of_lt_of_le hj jAt_le_length
  have hfalse := List.not_of_lt_findIdx hj
  rw [rAt, List.getD_eq_getElem _ _ hlen]
  simpa using hfalse

theorem le_rAt_of_lt (hlt : jAt keys t < keys.length) : t ≤ rAt keys (jAt keys t) := by
  rw [rAt, List.getD_eq_getElem _ _ hlt]
  exact of_decide_eq_true (@List.findIdx_getElem _ (fun key => decide (t ≤ key)) keys hlt)

theorem le_rAt_jAt (ht : t ≤ uint64Max) : t ≤ rAt keys (jAt keys t) := by
  rcases Nat.lt_or_eq_of_le (@jAt_le_length keys t) with hlt | heq
  · exact le_rAt_of_lt hlt
  · rw [rAt, heq, List.getD_eq_default _ _ (Nat.le_refl _)]
    exact ht

/-- The boundary number is the only one with these two properties. -/
theorem jAt_eq {j : Nat} (hbefore : ∀ k, k < j → rAt keys k < t) (hhere : t ≤ rAt keys j)
    (hlen : j ≤ keys.length) : jAt keys t = j := by
  rcases Nat.lt_trichotomy (jAt keys t) j with hlt | heq | hgt
  · have htrue : t ≤ rAt keys (jAt keys t) := le_rAt_of_lt (Nat.lt_of_lt_of_le hlt hlen)
    exact absurd (hbefore _ hlt) (Nat.not_lt.mpr htrue)
  · exact heq
  · exact absurd (rAt_lt hgt) (Nat.not_lt.mpr hhere)

theorem le_jAt_of_before {j : Nat} (ht : t ≤ uint64Max)
    (hbefore : ∀ k, k < j → rAt keys k < t) : j ≤ jAt keys t := by
  rcases Nat.lt_or_ge (jAt keys t) j with hlt | hge
  · exact absurd (hbefore _ hlt) (Nat.not_lt.mpr (le_rAt_jAt ht))
  · exact hge

/-- Keys between `t` and the end of its range lie in the same range. -/
theorem jAt_eq_of_le (htu : t ≤ u) (hu : u ≤ rAt keys (jAt keys t)) : jAt keys u = jAt keys t :=
  jAt_eq (fun _ hk => Nat.lt_of_lt_of_le (rAt_lt hk) htu) hu jAt_le_length

theorem range_l_le :
    ((rangelist keys).getD (jAt keys t) default).l ≤ t := by
  cases hj : jAt keys t with
  | zero => exact (rangelist_zero_l keys).trans_le (Nat.zero_le t)
  | succ j =>
      have hlt : j < jAt keys t := hj.symm ▸ Nat.lt_succ_self j
      have hlen : j < keys.length := Nat.lt_of_lt_of_le hlt jAt_le_length
      rw [rangelist, rangesFrom_l _ hlen]
      exact (Nat.mod_le _ _).trans (rAt_lt hlt)

theorem range_r {j : Nat} (hj : j ≤ keys.length) :
    ((rangelist keys).getD j default).r = rAt keys j :=
  rangesFrom_r _ hj

theorem rAt_lt_of_lt_succ {j : Nat} (hbefore : ∀ k, k < j → rAt keys k < t)
    (hlow : rAt keys j < t) : ∀ k, k < j + 1 → rAt keys k < t := by
  intro k hk
  rcases Nat.lt_succ_iff_lt_or_eq.mp hk with hlt | rfl
  · exact hbefore k hlt
  · exact hlow

/-- The inner `while` loop stops at the range of `t`. -/
theorem advance_eq (ht : t ≤ uint64Max) {fuel j : Nat} (hbefore : ∀ k, k < j → rAt keys k < t)
    (hfuel : jAt keys t ≤ j + fuel) : advance (rangelist keys) t fuel j = jAt keys t := by
  have hle : j ≤ jAt keys t := le_jAt_of_before ht hbefore
  induction fuel generalizing j with
  | zero => exact Nat.le_antisymm hle hfuel
  | succ fuel ih =>
      rw [advance, range_r (hle.trans jAt_le_length)]
      by_cases hlow : rAt keys j < t
      · have hnext := rAt_lt_of_lt_succ hbefore hlow
        rw [if_pos hlow]
        exact ih hnext (by omega) (le_jAt_of_before ht hnext)
      · rw [if_neg hlow]
        exact (jAt_eq hbefore (Nat.not_lt.mp hlow) (hle.trans jAt_le_length)).symm

/-- However often it turns, the loop does not pass the range of `t`. -/
theorem advance_le (ht : t ≤ uint64Max) {fuel j : Nat} (hbefore : ∀ k, k < j → rAt keys k < t) :
    advance (rangelist keys) t fuel j ≤ jAt keys t := by
  have hle : j ≤ jAt keys t := le_jAt_of_before ht hbefore
  induction fuel generalizing j with
  | zero => exact hle
  | succ fuel ih =>
      rw [advance, range_r (hle.trans jAt_le_length)]
      by_cases hlow : rAt keys j < t
      · have hnext := rAt_lt_of_lt_succ hbefore hlow
        rw [if_pos hlow]
        exact ih hnext (le_jAt_of_before ht hnext)
      · rw [if_neg hlow]
        exact hle

end

/-! ## Sorted boundaries -/

theorem jAt_eq_countP {keys : List Nat} (sorted : keys.Pairwise (· ≤ ·)) (t : Nat) :
    jAt keys t = keys.countP (fun key => decide (key < t)) := by
  induction keys with
  | nil => rfl
  | cons key rest ih =>
      obtain ⟨hkey, hrest⟩ := List.pairwise_cons.mp sorted
      rcases Nat.lt_or_ge key t with hlt | hge
      · have hnot : ¬ t ≤ key := Nat.not_le.mpr hlt
        rw [List.countP_cons_of_pos (by simpa using hlt), ← ih hrest]
        simp [jAt, List.findIdx_cons, hnot]
      · have hnone : rest.countP (fun key => decide (key < t)) = 0 := by
          refine List.countP_eq_zero.mpr (fun other hother => ?_)
          have hother := hkey other hother
          simpa using hge.trans hother
        rw [List.countP_cons_of_neg (by simpa using hge), hnone]
        simp [jAt, List.findIdx_cons, hge]

theorem jAt_toNat {B : List (BitVec 64)} (sorted : B.Pairwise (· ≤ ·)) (x : BitVec 64) :
    jAt (B.map BitVec.toNat) x.toNat = B.countP (fun key => decide (key < x)) := by
  have hsorted : (B.map BitVec.toNat).Pairwise (· ≤ ·) :=
    List.pairwise_map.mpr (sorted.imp BitVec.le_def.mp)
  rw [jAt_eq_countP hsorted, List.countP_map]
  rfl

/-! ## Blocks -/

theorem blockLo_le_blockHi (shift q : Nat) : blockLo shift q ≤ blockHi shift q :=
  Nat.le_add_right _ _

theorem blockHi_succ (shift q : Nat) : blockHi shift q + 1 = blockLo shift (q + 1) := by
  have hpos := Nat.two_pow_pos shift
  rw [blockHi, blockLo, Nat.succ_mul]
  omega

theorem blockLo_mono (shift : Nat) {q p : Nat} (hqp : q ≤ p) : blockLo shift q ≤ blockLo shift p :=
  Nat.mul_le_mul_right _ hqp

/-- A block of the 64-bit keys. -/
theorem blockHi_le {shift q : Nat} (hshift : shift ≤ 64) (hq : q < 2 ^ (64 - shift)) :
    blockHi shift q ≤ uint64Max := by
  have hpow : 2 ^ (64 - shift) * 2 ^ shift = 2 ^ 64 := by
    rw [← Nat.pow_add, Nat.sub_add_cancel hshift]
  have hlast : (q + 1) * 2 ^ shift ≤ 2 ^ 64 := hpow ▸ Nat.mul_le_mul_right _ hq
  have hsucc := blockHi_succ shift q
  rw [blockLo] at hsucc
  rw [uint64Max]
  omega

theorem tmpL_eq (level : Level) (pf i : Nat) :
    tmpL level pf i = blockLo level.shift (pf * 2 ^ 16 + i) := by
  rw [tmpL, blockLo, Nat.shiftLeft_eq, Nat.shiftLeft_eq, Nat.add_comm level.shift, Nat.pow_add,
    ← Nat.mul_assoc, ← Nat.add_mul]

theorem tmpR_eq (level : Level) (pf i : Nat) :
    tmpR level pf i = blockHi level.shift (pf * 2 ^ 16 + i) := by
  rw [tmpR, tmpL_eq, Nat.one_shiftLeft, blockLo, blockHi]

/-- Every key of a block that fits has the range of the block. -/
theorem Fits.jAt_eq {keys : List Nat} {shift q : Nat} (fits : Fits keys shift q) {t : Nat}
    (hlow : blockLo shift q ≤ t) (hhigh : t ≤ blockHi shift q) :
    jAt keys t = blockIdx keys shift q :=
  jAt_eq_of_le hlow (hhigh.trans fits)

theorem fits_zero (keys : List Nat) {q : Nat} (hq : q ≤ uint64Max) : Fits keys 0 q := by
  have hsame : blockHi 0 q = blockLo 0 q := rfl
  rw [Fits, hsame]
  exact le_rAt_jAt (by rwa [blockLo, Nat.pow_zero, Nat.mul_one])

/-- A key lies in its block. -/
theorem mem_block (shift x : Nat) :
    blockLo shift (x / 2 ^ shift) ≤ x ∧ x ≤ blockHi shift (x / 2 ^ shift) := by
  have hpos := Nat.two_pow_pos shift
  have hmod := Nat.mod_lt x hpos
  have hdiv := Nat.div_add_mod' x (2 ^ shift)
  rw [blockLo, blockHi]
  omega

theorem blockIdx_of_fits {keys : List Nat} {shift x : Nat} (fits : Fits keys shift (x / 2 ^ shift)) :
    blockIdx keys shift (x / 2 ^ shift) = jAt keys x :=
  (fits.jAt_eq (mem_block shift x).1 (mem_block shift x).2).symm

theorem div_eq_iff_block (shift q x : Nat) :
    x / 2 ^ shift = q ↔ blockLo shift q ≤ x ∧ x ≤ blockHi shift q := by
  constructor
  · rintro rfl
    exact mem_block shift x
  · rintro ⟨hlow, hhigh⟩
    have hpos := Nat.two_pow_pos shift
    refine Nat.div_eq_of_lt_le hlow ?_
    rw [blockHi] at hhigh
    rw [Nat.succ_mul]
    omega

end FatBTree.Tcam
