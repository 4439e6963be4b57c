import Mathlib.Data.BitVec
import Mathlib.Logic.Equiv.Prod
import Mathlib.Tactic.Common

/-!
# Packets as bits

A header field of `w` bits takes the next `w` bits of the packet, most
significant first.  A header codec carries the proofs that extracting and
emitting undo each other, and codecs are put together field by field.
-/

namespace FatBTree.P4

/-- Bits in network order. -/
abbrev Bits := List Bool

/-! ## Numbers -/

/-- The `w` low bits of a number, most significant first. -/
def natBits : Nat → Nat → Bits
  | 0, _ => []
  | w + 1, n => natBits w (n / 2) ++ [decide (n % 2 = 1)]

/-- The number some bits write. -/
def bitsValue (bits : Bits) : Nat :=
  bits.foldl (fun value bit => 2 * value + bit.toNat) 0

@[simp]
theorem length_natBits (w n : Nat) : (natBits w n).length = w := by
  induction w generalizing n with
  | zero => rfl
  | succ w ih => rw [natBits, List.length_append, ih, List.length_singleton]

theorem bitsValue_append_singleton (bits : Bits) (bit : Bool) :
    bitsValue (bits ++ [bit]) = 2 * bitsValue bits + bit.toNat := by
  rw [bitsValue, List.foldl_append, List.foldl_cons, List.foldl_nil, bitsValue]

theorem bitsValue_natBits (w n : Nat) : bitsValue (natBits w n) = n % 2 ^ w := by
  induction w generalizing n with
  | zero => rw [Nat.pow_zero, Nat.mod_one]; rfl
  | succ w ih =>
      have hbit : (decide (n % 2 = 1)).toNat = n % 2 := by
        rcases Nat.mod_two_eq_zero_or_one n with hzero | hone
        · rw [hzero]
          rfl
        · rw [hone]
          rfl
      rw [natBits, bitsValue_append_singleton, ih, hbit, Nat.pow_succ', Nat.mod_mul, Nat.add_comm]

theorem natBits_bitsValue (bits : Bits) : natBits bits.length (bitsValue bits) = bits := by
  induction bits using List.reverseRecOn with
  | nil => rfl
  | append_singleton bits bit ih =>
      have hhalf : (2 * bitsValue bits + bit.toNat) / 2 = bitsValue bits := by
        have hbit := bit.toNat_le
        omega
      have hlow : decide ((2 * bitsValue bits + bit.toNat) % 2 = 1) = bit := by
        rw [Nat.mul_add_mod]
        cases bit <;> rfl
      rw [bitsValue_append_singleton, List.length_append, List.length_singleton, natBits, hhalf,
        ih, hlow]

theorem natBits_add (m k n : Nat) : natBits (m + k) n = natBits m (n / 2 ^ k) ++ natBits k n := by
  induction k generalizing n with
  | zero => rw [Nat.add_zero, Nat.pow_zero, Nat.div_one, natBits, List.append_nil]
  | succ k ih =>
      rw [← Nat.add_assoc, natBits, ih, natBits, Nat.pow_succ', Nat.div_div_eq_div_mul,
        List.append_assoc]

theorem natBits_mod (w n : Nat) : natBits w (n % 2 ^ w) = natBits w n := by
  have hback := natBits_bitsValue (natBits w n)
  rwa [length_natBits, bitsValue_natBits] at hback

/-- The bits of a word. -/
def wordBits {w : Nat} (x : BitVec w) : Bits :=
  natBits w x.toNat

@[simp]
theorem length_wordBits {w : Nat} (x : BitVec w) : (wordBits x).length = w :=
  length_natBits w _

theorem wordBits_append {m k : Nat} (x : BitVec m) (y : BitVec k) :
    wordBits (x ++ y) = wordBits x ++ wordBits y := by
  have hy := y.isLt
  have hvalue : (x ++ y).toNat = x.toNat * 2 ^ k + y.toNat := by
    rw [BitVec.toNat_append, Nat.shiftLeft_eq, Nat.mul_comm, Nat.two_pow_add_eq_or_of_lt hy]
  have hhigh : (x.toNat * 2 ^ k + y.toNat) / 2 ^ k = x.toNat := by
    rw [Nat.mul_comm, Nat.mul_add_div (Nat.two_pow_pos k), Nat.div_eq_of_lt hy, Nat.add_zero]
  have hlow : natBits k (x.toNat * 2 ^ k + y.toNat) = natBits k y.toNat := by
    rw [← natBits_mod, Nat.mul_comm, Nat.mul_add_mod, natBits_mod]
  rw [wordBits, natBits_add, hvalue, hhigh, hlow, wordBits, wordBits]

/-! ## Codecs -/

/-- A header: how it is extracted from the front of a packet and emitted. -/
structure Codec (α : Type) where
  emit : α → Bits
  extract : Bits → Option (α × Bits)
  extract_emit : ∀ x rest, extract (emit x ++ rest) = some (x, rest)
  emit_extract : ∀ bits x rest, extract bits = some (x, rest) → bits = emit x ++ rest

namespace Codec

variable {α β : Type}

/-- A field of `w` bits. -/
def field (w : Nat) : Codec (BitVec w) where
  emit := wordBits
  extract := fun bits =>
    if w ≤ bits.length then some (BitVec.ofNat w (bitsValue (bits.take w)), bits.drop w) else none
  extract_emit := by
    intro x rest
    have htake : (wordBits x ++ rest).take w = wordBits x := by
      rw [List.take_append_of_le_length (by simp), List.take_of_length_le (by simp)]
    have hdrop : (wordBits x ++ rest).drop w = rest := by
      rw [List.drop_append_of_le_length (by simp), List.drop_of_length_le (by simp),
        List.nil_append]
    rw [if_pos (by simp), htake, hdrop, wordBits, bitsValue_natBits, Nat.mod_eq_of_lt x.isLt,
      BitVec.ofNat_toNat, BitVec.setWidth_eq]
  emit_extract := by
    intro bits x rest hextract
    split_ifs at hextract with hlen
    obtain ⟨rfl, rfl⟩ := Prod.mk.inj (Option.some.inj hextract)
    have htake : (bits.take w).length = w := by
      rw [List.length_take, Nat.min_eq_left hlen]
    have hbits := natBits_bitsValue (bits.take w)
    rw [htake] at hbits
    rw [wordBits, BitVec.toNat_ofNat, natBits_mod, hbits, List.take_append_drop]

/-- One codec after another. -/
def pair (first : Codec α) (second : Codec β) : Codec (α × β) where
  emit := fun x => first.emit x.1 ++ second.emit x.2
  extract := fun bits => do
    let (x, rest) ← first.extract bits
    let (y, rest) ← second.extract rest
    return ((x, y), rest)
  extract_emit := by
    rintro ⟨x, y⟩ rest
    simp [List.append_assoc, first.extract_emit, second.extract_emit]
  emit_extract := by
    rintro bits ⟨x, y⟩ rest hextract
    simp only [Option.bind_eq_bind, Option.bind_eq_some_iff, Option.pure_def] at hextract
    obtain ⟨⟨x', middle⟩, hfirst, ⟨y', rest'⟩, hsecond, hsame⟩ := hextract
    cases hsame
    have hmiddle : middle = second.emit y' ++ rest' := second.emit_extract _ _ _ hsecond
    rw [first.emit_extract _ _ _ hfirst, hmiddle, List.append_assoc]

/-- The same bits under the names of a header. -/
def as (codec : Codec α) (names : α ≃ β) : Codec β where
  emit := fun x => codec.emit (names.symm x)
  extract := fun bits => (codec.extract bits).map fun found => (names found.1, found.2)
  extract_emit := by
    intro x rest
    rw [codec.extract_emit, Option.map_some, Equiv.apply_symm_apply]
  emit_extract := by
    intro bits x rest hextract
    obtain ⟨⟨y, rest'⟩, hfound, hsame⟩ := Option.map_eq_some_iff.mp hextract
    cases hsame
    rw [Equiv.symm_apply_apply]
    exact codec.emit_extract _ _ _ hfound

/-- A header of `n` bits is there in every packet that is long enough. -/
def Takes (codec : Codec α) (n : Nat) : Prop :=
  ∀ bits, n ≤ bits.length →
    ∃ x rest, codec.extract bits = some (x, rest) ∧ rest.length + n = bits.length

theorem takes_field (w : Nat) : (field w).Takes w := by
  intro bits hlen
  refine ⟨_, bits.drop w, if_pos hlen, ?_⟩
  rw [List.length_drop, Nat.sub_add_cancel hlen]

theorem Takes.pair {first : Codec α} {second : Codec β} {m n : Nat} (hfirst : first.Takes m)
    (hsecond : second.Takes n) : (first.pair second).Takes (m + n) := by
  intro bits hlen
  obtain ⟨x, middle, hx, hmiddle⟩ := hfirst bits (by omega)
  obtain ⟨y, rest, hy, hrest⟩ := hsecond middle (by omega)
  refine ⟨(x, y), rest, ?_, by omega⟩
  simp only [Codec.pair, hx, hy, Option.bind_eq_bind, Option.bind_some, Option.pure_def]

theorem Takes.as {codec : Codec α} {n : Nat} (takes : codec.Takes n) (names : α ≃ β) :
    (codec.as names).Takes n := by
  intro bits hlen
  obtain ⟨x, rest, hx, hrest⟩ := takes bits hlen
  exact ⟨names x, rest, by simp only [Codec.as, hx, Option.map_some], hrest⟩

end Codec

end FatBTree.P4
