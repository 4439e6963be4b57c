import Mathlib.Algebra.Group.Nat.Defs
import Mathlib.Data.List.Basic
import Mathlib.Tactic.Common

/-!
# Comparing 64-bit keys with 32-bit subtractions

The switch has no 64-bit comparison.  It subtracts the halves, compares the
sign bits, and picks the half that decides.
-/

namespace FatBTree.Sram

/-! ## Index types -/

-- One instance for the literals of each index type, so that all modules share it.
instance neZero_two : @NeZero Nat Zero.ofOfNat0 2 := ⟨Nat.succ_ne_zero 1⟩

instance neZero_four : @NeZero Nat Zero.ofOfNat0 4 := ⟨Nat.succ_ne_zero 3⟩

instance neZero_eight : @NeZero Nat Zero.ofOfNat0 8 := ⟨Nat.succ_ne_zero 7⟩

/-! ## Halves of a word -/

/-- `k >> 32 & 0xffffffff`. -/
def keyHi (key : BitVec 64) : BitVec 32 := key.extractLsb' 32 32

/-- `k & 0xffffffff`. -/
def keyLo (key : BitVec 64) : BitVec 32 := key.extractLsb' 0 32

/-- The bit slice `[31:31]`. -/
def signBit (word : BitVec 32) : Bool := word.getLsbD 31

theorem keyHi_toNat (key : BitVec 64) : (keyHi key).toNat = key.toNat / 2 ^ 32 := by
  have hkey := key.isLt
  simp only [keyHi, BitVec.extractLsb'_toNat, Nat.shiftRight_eq_div_pow]
  omega

theorem keyLo_toNat (key : BitVec 64) : (keyLo key).toNat = key.toNat % 2 ^ 32 := by
  simp [keyLo]

/-- The high halves decide unless they agree. -/
theorem lt_iff_halves (t k : BitVec 64) :
    t < k ↔ keyHi t < keyHi k ∨ keyHi t = keyHi k ∧ keyLo t < keyLo k := by
  rw [BitVec.lt_def, BitVec.lt_def, BitVec.lt_def, ← BitVec.toNat_inj, keyHi_toNat, keyHi_toNat,
    keyLo_toNat, keyLo_toNat]
  omega

theorem signBit_eq (word : BitVec 32) : signBit word = decide (2 ^ 31 ≤ word.toNat) :=
  BitVec.msb_eq_decide word

/-- With equal sign bits the wrapped difference has the sign of the comparison. -/
theorem signBit_sub {t k : BitVec 32} (same : (signBit t ^^ signBit k) = false) :
    signBit (t - k) = decide (t < k) := by
  have ht := t.isLt
  have hk := k.isLt
  simp only [signBit_eq, bne_eq_false_iff_eq, decide_eq_decide] at same
  rw [signBit_eq, decide_eq_decide, BitVec.lt_def, BitVec.toNat_sub]
  omega

/-- With different sign bits the larger word is the one whose bit is set. -/
theorem signBit_right {t k : BitVec 32} (differ : (signBit t ^^ signBit k) = true) :
    signBit k = decide (t < k) := by
  have ht := t.isLt
  have hk := k.isLt
  simp only [signBit_eq, bne_iff_ne, ne_eq, decide_eq_decide] at differ
  rw [signBit_eq, decide_eq_decide, BitVec.lt_def]
  omega

theorem sub_eq_zero_iff (t k : BitVec 32) : t - k = 0 ↔ t = k := by
  rw [BitVec.sub_eq_iff_eq_add, BitVec.ofNat_eq_ofNat, BitVec.zero_add]

end FatBTree.Sram
