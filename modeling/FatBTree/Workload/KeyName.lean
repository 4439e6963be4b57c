import FatBTree.Text.Words
import Mathlib.Data.BitVec
import Mathlib.Data.Char
import Mathlib.Data.List.TakeWhile

/-!
# Key names

The tree orders key strings, the switch orders the 64-bit numbers in them.
The two agree when zero padding makes all the strings equally long.
-/

namespace FatBTree.Workload

open FatBTree.Text

/-- `FNVHash64`. -/
def fnvHash64 (val : BitVec 64) : BitVec 64 :=
  ((List.range 8).foldl
    (fun (state : BitVec 64 × BitVec 64) _ =>
      ((state.1 ^^^ (state.2 &&& 0xff)) * 1099511628211, state.2 >>> 8))
    (0xCBF29CE484222325, val)).1

/-- `BuildKeyName`. -/
def buildKeyName (orderedInserts : Bool) (zeroPadding : Nat) (keyNum : BitVec 64) : List Char :=
  let keyNum := if orderedInserts then keyNum else fnvHash64 keyNum
  let keyNumStr := Nat.toDigits 10 keyNum.toNat
  ['u', 's', 'e', 'r'] ++ List.replicate (zeroPadding - keyNumStr.length) '0' ++ keyNumStr

/-- The table name and the key name of number `a`. -/
def keyString (zeroPadding : Nat) (a : BitVec 64) : List Char :=
  ['u', 's', 'e', 'r', 't', 'a', 'b', 'l', 'e'] ++ buildKeyName true zeroPadding a

/-- `isspace`. -/
def isSpace (c : Char) : Bool :=
  c.isWhitespace || c == Char.ofNat 11 || c == Char.ofNat 12

/-- The sign a number starts with, true for a minus, and the rest. -/
def splitSign : List Char → Bool × List Char
  | '-' :: rest => (true, rest)
  | '+' :: rest => (false, rest)
  | text => (false, text)

/-- The sign a number starts with and its digits. -/
def signAndDigits (text : List Char) : Bool × List Char :=
  ((splitSign text).1, (splitSign text).2.takeWhile Char.isDigit)

/-- The `uint64_t` that is read from a sign and digits.  With either sign a number that
does not fit becomes the largest one. -/
def unsignedOf (number : Bool × List Char) : BitVec 64 :=
  let n := Nat.ofDigitChars 10 number.2 0
  if 2 ^ 64 ≤ n then BitVec.ofNat 64 (2 ^ 64 - 1)
  else if number.1 then -BitVec.ofNat 64 n else BitVec.ofNat 64 n

/-- `>>` into a `uint64_t`, which stores zero where there is no digit and nothing at the
end of the text. -/
def extractUnsigned (text : List Char) : Option (BitVec 64) :=
  let text := text.dropWhile isSpace
  if text = [] then none else some (unsignedOf (signAndDigits text))

/-- `remove_key_index_prefix`: the number after the first 13 characters, which
`substr` refuses to skip in a shorter string. -/
def removeKeyIndexPrefix (key : List Char) : Option (BitVec 64) :=
  if key.length < 13 then none else extractUnsigned (key.drop 13)

def keyLen : Nat := 33

/-- The digits of a number, padded with zeros on the left. -/
def padded (zeroPadding n : Nat) : List Char :=
  List.replicate (zeroPadding - (Nat.toDigits 10 n).length) '0' ++ Nat.toDigits 10 n

theorem keyString_eq (zeroPadding : Nat) (a : BitVec 64) :
    keyString zeroPadding a
      = ['u', 's', 'e', 'r', 't', 'a', 'b', 'l', 'e', 'u', 's', 'e', 'r']
        ++ padded zeroPadding a.toNat := by
  simp only [keyString, buildKeyName, padded, ↓reduceIte, List.cons_append, List.nil_append]

/-! ## Decimal strings in order -/

theorem append_lt_append_iff (front : List Char) {xs ys : List Char} :
    front ++ xs < front ++ ys ↔ xs < ys := by
  induction front with
  | nil => rfl
  | cons c front ih =>
      rw [List.cons_append, List.cons_append, List.cons_lt_cons_iff, ih]
      simp

theorem digit_lt_ten {c : Char} (hc : c.isDigit = true) : c.toNat - '0'.toNat < 10 := by
  simp only [Char.isDigit, Bool.and_eq_true, decide_eq_true_eq] at hc
  have hhigh : c.toNat ≤ 57 := hc.2
  have hzero : '0'.toNat = 48 := rfl
  omega

theorem digit_lt_iff {c d : Char} (hc : c.isDigit = true) (hd : d.isDigit = true) :
    c < d ↔ c.toNat - '0'.toNat < d.toNat - '0'.toNat := by
  simp only [Char.isDigit, Bool.and_eq_true, decide_eq_true_eq] at hc hd
  have hlow : 48 ≤ c.toNat := hc.1
  have hlow' : 48 ≤ d.toNat := hd.1
  have hzero : '0'.toNat = 48 := rfl
  have hlt : c < d ↔ c.toNat < d.toNat := Iff.rfl
  rw [hlt]
  omega

theorem ofDigitChars_cons_zero (c : Char) (rest : List Char) :
    Nat.ofDigitChars 10 (c :: rest) 0
      = 10 ^ rest.length * (c.toNat - '0'.toNat) + Nat.ofDigitChars 10 rest 0 := by
  rw [Nat.ofDigitChars_cons, Nat.mul_zero, Nat.zero_add, Nat.ofDigitChars_eq_ofDigitChars_zero]

theorem ofDigitChars_lt {cs : List Char} (digits : ∀ c ∈ cs, c.isDigit = true) :
    Nat.ofDigitChars 10 cs 0 < 10 ^ cs.length := by
  induction cs with
  | nil => simp
  | cons c rest ih =>
      have hrest := ih (fun d hd => digits d (List.mem_cons_of_mem _ hd))
      have hc := digit_lt_ten (digits c List.mem_cons_self)
      have hstep : 10 ^ rest.length * (c.toNat - '0'.toNat + 1) ≤ 10 ^ rest.length * 10 :=
        Nat.mul_le_mul_left _ hc
      rw [ofDigitChars_cons_zero, List.length_cons, Nat.pow_succ]
      rw [Nat.mul_succ] at hstep
      omega

/-- The leading digit decides unless it is the same. -/
theorem mul_add_lt_iff {base a c u v : Nat} (hu : u < base) (hv : v < base) :
    a < c ∨ a = c ∧ u < v ↔ base * a + u < base * c + v := by
  rcases Nat.lt_trichotomy a c with hlt | rfl | hgt
  · have hstep : base * (a + 1) ≤ base * c := Nat.mul_le_mul_left base hlt
    rw [Nat.mul_succ] at hstep
    constructor
    · intro _
      omega
    · intro _
      exact Or.inl hlt
  · omega
  · have hstep : base * (c + 1) ≤ base * a := Nat.mul_le_mul_left base hgt
    rw [Nat.mul_succ] at hstep
    omega

/-- Equally long decimal strings are ordered as the numbers they write. -/
theorem lt_iff_ofDigitChars_lt {xs ys : List Char} (same : xs.length = ys.length)
    (xdigits : ∀ c ∈ xs, c.isDigit = true) (ydigits : ∀ c ∈ ys, c.isDigit = true) :
    xs < ys ↔ Nat.ofDigitChars 10 xs 0 < Nat.ofDigitChars 10 ys 0 := by
  induction xs generalizing ys with
  | nil =>
      obtain rfl := List.eq_nil_of_length_eq_zero same.symm
      simp
  | cons x xs ih =>
      cases ys with
      | nil => cases same
      | cons y ys =>
          have hlen : xs.length = ys.length := Nat.succ.inj same
          have hx := xdigits x List.mem_cons_self
          have hy := ydigits y List.mem_cons_self
          have hxs : ∀ c ∈ xs, c.isDigit = true := fun c hc => xdigits c (List.mem_cons_of_mem _ hc)
          have hys : ∀ c ∈ ys, c.isDigit = true := fun c hc => ydigits c (List.mem_cons_of_mem _ hc)
          have hrest := ih hlen hxs hys
          have hxlow := ofDigitChars_lt hxs
          have hylow := ofDigitChars_lt hys
          have heq : x = y ↔ x.toNat - '0'.toNat = y.toNat - '0'.toNat := by
            have hxy := digit_lt_iff hx hy
            have hyx := digit_lt_iff hy hx
            constructor
            · rintro rfl
              rfl
            · intro hsame
              refine le_antisymm (not_lt.mp fun hlt => ?_) (not_lt.mp fun hlt => ?_)
              · exact absurd (hyx.mp hlt) (by omega)
              · exact absurd (hxy.mp hlt) (by omega)
          rw [← hlen] at hylow
          rw [List.cons_lt_cons_iff, hrest, digit_lt_iff hx hy, heq, ofDigitChars_cons_zero,
            ofDigitChars_cons_zero, ← hlen]
          exact mul_add_lt_iff hxlow hylow

/-! ## Padding -/

theorem padded_digits {zeroPadding n : Nat} : ∀ c ∈ padded zeroPadding n, c.isDigit = true := by
  intro c hc
  rcases List.mem_append.mp hc with hzero | hdigit
  · obtain rfl := List.eq_of_mem_replicate hzero
    rfl
  · exact isDigit_of_mem_decimal hdigit

theorem padded_value (zeroPadding n : Nat) : Nat.ofDigitChars 10 (padded zeroPadding n) 0 = n := by
  rw [padded, Nat.ofDigitChars_append, Nat.ofDigitChars_replicate_zero, Nat.mul_zero,
    Nat.ofDigitChars_ten_toDigits]

theorem padded_length {zeroPadding n : Nat} (hfit : (Nat.toDigits 10 n).length ≤ zeroPadding) :
    (padded zeroPadding n).length = zeroPadding := by
  rw [padded, List.length_append, List.length_replicate]
  omega

theorem length_toDigits_le (a : BitVec 64) : (Nat.toDigits 10 a.toNat).length ≤ 20 := by
  have hlow : a.toNat < 10 ^ 20 := lt_trans a.isLt (by decide)
  exact (Nat.length_toDigits_le_iff (by decide) (by decide)).mpr hlow

/-- Two numbers that both fit the padding have their key strings in their own order. -/
theorem keyString_lt_iff {zeroPadding : Nat} {a b : BitVec 64}
    (ha : (Nat.toDigits 10 a.toNat).length ≤ zeroPadding)
    (hb : (Nat.toDigits 10 b.toNat).length ≤ zeroPadding) :
    keyString zeroPadding a < keyString zeroPadding b ↔ a < b := by
  have hsame : (padded zeroPadding a.toNat).length = (padded zeroPadding b.toNat).length := by
    rw [padded_length ha, padded_length hb]
  rw [keyString_eq, keyString_eq, append_lt_append_iff,
    lt_iff_ofDigitChars_lt hsame padded_digits padded_digits, padded_value, padded_value,
    BitVec.lt_def]

/-- Past the padding a longer number comes before a shorter one. -/
theorem keyString_lt_of_unpadded {zeroPadding : Nat} (hshort : zeroPadding < 20) :
    keyString zeroPadding (10 ^ 19) < keyString zeroPadding (2 * 10 ^ 18) := by
  have hlong : Nat.toDigits 10 (10 ^ 19 : BitVec 64).toNat = '1' :: List.replicate 19 '0' := by
    decide +kernel
  have hshorter : Nat.toDigits 10 (2 * 10 ^ 18 : BitVec 64).toNat = '2' :: List.replicate 18 '0' := by
    decide +kernel
  rw [keyString_eq, keyString_eq, append_lt_append_iff, padded, padded, hlong, hshorter]
  have hnone : zeroPadding - 20 = 0 := by omega
  have hnone' : zeroPadding - 19 = 0 := by omega
  simp only [List.length_cons, List.length_replicate, hnone, hnone', List.replicate_zero,
    List.nil_append]
  exact List.cons_lt_cons_iff.mpr (Or.inl (by decide))

/-! ## Reading the number back -/

theorem not_isSpace_of_isDigit {c : Char} (hc : c.isDigit = true) : isSpace c = false := by
  rw [isSpace, not_isWhitespace_of_isDigit hc, Bool.false_or, Bool.or_eq_false_iff]
  constructor <;> rw [beq_eq_false_iff_ne] <;> rintro rfl <;> exact absurd hc (by decide)

theorem signAndDigits_digits {text : List Char} (digits : ∀ c ∈ text, c.isDigit = true) :
    signAndDigits text = (false, text) := by
  have hsign : splitSign text = (false, text) := by
    unfold splitSign
    split
    · exact absurd (digits '-' List.mem_cons_self) (by decide)
    · exact absurd (digits '+' List.mem_cons_self) (by decide)
    · rfl
  rw [signAndDigits, hsign, List.takeWhile_eq_self_iff.mpr digits]

theorem unsignedOf_padded (zeroPadding : Nat) (a : BitVec 64) :
    unsignedOf (false, padded zeroPadding a.toNat) = a := by
  have ha := a.isLt
  rw [unsignedOf]
  simp only [padded_value]
  rw [if_neg (Nat.not_le.mpr ha), if_neg Bool.false_ne_true, BitVec.ofNat_toNat,
    BitVec.setWidth_eq]

theorem padded_ne_nil (zeroPadding n : Nat) : padded zeroPadding n ≠ [] := by
  simp [padded, Nat.toDigits_ne_nil]

theorem dropWhile_padded (zeroPadding n : Nat) :
    (padded zeroPadding n).dropWhile isSpace = padded zeroPadding n := by
  refine List.dropWhile_eq_self_iff.mpr fun hne => ?_
  rw [not_isSpace_of_isDigit (padded_digits _ (List.getElem_mem hne))]
  exact Bool.false_ne_true

/-- The number after any thirteen characters. -/
theorem removeKeyIndexPrefix_padded {front : List Char} (hfront : front.length = 13)
    (zeroPadding : Nat) (a : BitVec 64) :
    removeKeyIndexPrefix (front ++ padded zeroPadding a.toNat) = some a := by
  have hlen : ¬ (front ++ padded zeroPadding a.toNat).length < 13 := by
    rw [List.length_append, hfront]
    omega
  have hdrop : (front ++ padded zeroPadding a.toNat).drop 13 = padded zeroPadding a.toNat := by
    rw [← hfront, List.drop_left]
  rw [removeKeyIndexPrefix, if_neg hlen, hdrop, extractUnsigned]
  simp only [dropWhile_padded]
  rw [if_neg (padded_ne_nil _ _), signAndDigits_digits padded_digits, unsignedOf_padded]

theorem removeKeyIndexPrefix_keyString (zeroPadding : Nat) (a : BitVec 64) :
    removeKeyIndexPrefix (keyString zeroPadding a) = some a := by
  rw [keyString_eq]
  exact removeKeyIndexPrefix_padded rfl zeroPadding a

/-! ## The padding the switch needs -/

/-- The tree's order is the switch's exactly when every number fits the padding. -/
theorem keyString_order_iff :
    (∀ zeroPadding : Nat,
      ((∀ a b : BitVec 64, keyString zeroPadding a < keyString zeroPadding b ↔ a < b)
        ↔ 20 ≤ zeroPadding)
      ∧ ∀ a : BitVec 64, removeKeyIndexPrefix (keyString zeroPadding a) = some a)
    ∧ ∀ a : BitVec 64, (keyString 20 a).length = keyLen := by
  refine ⟨fun zeroPadding => ⟨⟨fun agree => ?_, fun hpad a b => ?_⟩, fun a => ?_⟩, fun a => ?_⟩
  · by_contra hshort
    have hlt := (agree _ _).mp (keyString_lt_of_unpadded (not_le.mp hshort))
    exact absurd hlt (by decide)
  · exact keyString_lt_iff ((length_toDigits_le a).trans hpad) ((length_toDigits_le b).trans hpad)
  · exact removeKeyIndexPrefix_keyString zeroPadding a
  · rw [keyString_eq, List.length_append, padded_length (length_toDigits_le a)]
    rfl

end FatBTree.Workload
