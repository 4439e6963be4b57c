import Mathlib.Data.List.Basic
import Mathlib.Tactic.Common
import Mathlib.Tactic.IntervalCases

/-!
# Numbers in text files

Programs hand tables to each other as lines of numbers.  `Nat.toDigits` writes
a number; this file reads it back and splits a text into lines and words.
-/

namespace FatBTree.Text

/-! ## Digits -/

def digitValue (c : Char) : Option Nat :=
  if '0' ≤ c ∧ c ≤ '9' then some (c.toNat - '0'.toNat)
  else if 'a' ≤ c ∧ c ≤ 'f' then some (c.toNat - 'a'.toNat + 10)
  else if 'A' ≤ c ∧ c ≤ 'F' then some (c.toNat - 'A'.toNat + 10)
  else none

/-- One more digit on the right. -/
def pushDigit (base value : Nat) (c : Char) : Option Nat :=
  (digitValue c).bind (fun d => if d < base then some (value * base + d) else none)

/-- A base whose digits all have a character. -/
structure IsBase (base : Nat) : Prop where
  low : 1 < base
  high : base ≤ 16

theorem IsBase.ten : IsBase 10 := ⟨by decide, by decide⟩

theorem IsBase.sixteen : IsBase 16 := ⟨by decide, by decide⟩

/-- A number in the given base; a word with another character is refused. -/
def readNumber (base : Nat) (word : List Char) : Option Nat :=
  if word = [] then none else word.foldlM (pushDigit base) 0

theorem digitValue_digitChar {d : Nat} (hd : d < 16) : digitValue d.digitChar = some d := by
  interval_cases d <;> decide

theorem pushDigit_digitChar {base d : Nat} (hbase : base ≤ 16) (hd : d < base) (value : Nat) :
    pushDigit base value d.digitChar = some (value * base + d) := by
  rw [pushDigit, digitValue_digitChar (by omega), Option.bind_some, if_pos hd]

theorem readNumber_toDigits {base : Nat} (hbase : IsBase base) (n : Nat) :
    readNumber base (Nat.toDigits base n) = some n := by
  obtain ⟨hlow, hhigh⟩ := hbase
  rw [readNumber, if_neg Nat.toDigits_ne_nil]
  induction n using Nat.strongRecOn with
  | ind n ih =>
      rcases Nat.lt_or_ge n base with hsmall | hlarge
      · rw [Nat.toDigits_of_lt_base hsmall, List.foldlM_cons, pushDigit_digitChar hhigh hsmall]
        simp
      · have hquot : n / base < n := Nat.div_lt_self (by omega) hlow
        have hrem : n % base < base := Nat.mod_lt n (by omega)
        rw [Nat.toDigits_of_base_le hlow hlarge, List.foldlM_append, ih _ hquot]
        simp only [Option.bind_eq_bind, Option.bind_some, List.foldlM_cons, List.foldlM_nil,
          pushDigit_digitChar hhigh hrem, Option.pure_def]
        rw [Nat.mul_comm, Nat.div_add_mod]

/-- The characters a number is written with. -/
def IsNumeral (c : Char) : Prop :=
  (digitValue c).isSome

theorem isNumeral_of_mem_toDigits {base : Nat} (hbase : IsBase base) {n : Nat}
    {c : Char} (hc : c ∈ Nat.toDigits base n) : IsNumeral c := by
  obtain ⟨hlow, hhigh⟩ := hbase
  have hdigit : ∀ d, d < base → IsNumeral d.digitChar := by
    intro d hd
    rw [IsNumeral, digitValue_digitChar (by omega)]
    rfl
  induction n using Nat.strongRecOn with
  | ind n ih =>
      rcases Nat.lt_or_ge n base with hsmall | hlarge
      · rw [Nat.toDigits_of_lt_base hsmall, List.mem_singleton] at hc
        exact hc ▸ hdigit n hsmall
      · rw [Nat.toDigits_of_base_le hlow hlarge, List.mem_append, List.mem_singleton] at hc
        rcases hc with hfront | hlast
        · exact ih _ (Nat.div_lt_self (by omega) hlow) hfront
        · exact hlast ▸ hdigit _ (Nat.mod_lt n (by omega))

theorem IsNumeral.not_isWhitespace {c : Char} (numeral : IsNumeral c) : c.isWhitespace = false := by
  cases hspace : c.isWhitespace with
  | false => rfl
  | true =>
      simp only [Char.isWhitespace, Bool.or_eq_true, decide_eq_true_eq] at hspace
      rcases hspace with ((rfl | rfl) | rfl) | rfl <;> cases numeral

theorem IsNumeral.ne_of_digitValue {c sep : Char} (numeral : IsNumeral c)
    (other : digitValue sep = none) : c ≠ sep := by
  rintro rfl
  rw [IsNumeral, other] at numeral
  cases numeral

theorem readNumber_decimal (n : Nat) : readNumber 10 (Nat.toDigits 10 n) = some n :=
  readNumber_toDigits .ten n

theorem isDigit_of_mem_decimal {n : Nat} {c : Char} (hc : c ∈ Nat.toDigits 10 n) :
    c.isDigit = true :=
  Nat.isDigit_of_mem_toDigits (by decide) (by decide) hc

theorem not_isWhitespace_of_isDigit {c : Char} (hc : c.isDigit = true) :
    c.isWhitespace = false := by
  refine Bool.eq_false_iff.mpr fun hblank => ?_
  simp only [Char.isWhitespace, Bool.or_eq_true, decide_eq_true_eq] at hblank
  rcases hblank with (((rfl | rfl) | rfl) | rfl) <;> exact absurd hc (by decide)

/-! ## Words -/

/-- `split()`: the maximal runs of characters between blanks. -/
def words (text : List Char) : List (List Char) :=
  (text.splitOnP Char.isWhitespace).filter (· ≠ [])

@[simp]
theorem words_nil : words [] = [] := rfl

theorem words_append_blank {blank : Char} (hblank : blank.isWhitespace = true)
    (first rest : List Char) : words (first ++ blank :: rest) = words first ++ words rest := by
  rw [words, List.splitOnP_append_cons first rest hblank, List.filter_append]
  rfl

theorem words_of_letters {word : List Char} (hne : word ≠ [])
    (letters : ∀ c ∈ word, c.isWhitespace = false) : words word = [word] := by
  rw [words, List.splitOnP_eq_singleton letters]
  simp [hne]

theorem words_toDigits {base : Nat} (hbase : IsBase base) (n : Nat) :
    words (Nat.toDigits base n) = [Nat.toDigits base n] :=
  words_of_letters Nat.toDigits_ne_nil
    (fun _ hc => (isNumeral_of_mem_toDigits hbase hc).not_isWhitespace)

/-- Numbers with one space between two of them. -/
def spaced (base : Nat) : List Nat → List Char
  | [] => []
  | [n] => Nat.toDigits base n
  | n :: rest => Nat.toDigits base n ++ ' ' :: spaced base rest

theorem words_spaced {base : Nat} (hbase : IsBase base) (numbers : List Nat) :
    words (spaced base numbers) = numbers.map (Nat.toDigits base) := by
  induction numbers with
  | nil => rfl
  | cons n rest ih =>
      cases rest with
      | nil => exact words_toDigits hbase n
      | cons next rest =>
          rw [spaced, words_append_blank rfl, words_toDigits hbase, ih]
          · rfl
          · simp

/-- The numbers of a line; none when a word is not a number. -/
def readNumbers (base : Nat) (line : List Char) : Option (List Nat) :=
  (words line).mapM (readNumber base)

theorem readNumbers_of_words {base : Nat} (hbase : IsBase base) {line : List Char}
    {numbers : List Nat} (hwords : words line = numbers.map (Nat.toDigits base)) :
    readNumbers base line = some numbers := by
  rw [readNumbers, hwords]
  clear hwords
  induction numbers with
  | nil => rfl
  | cons n rest ih =>
      rw [List.map_cons, List.mapM_cons, readNumber_toDigits hbase, ih]
      rfl

theorem readNumbers_spaced {base : Nat} (hbase : IsBase base)
    (numbers : List Nat) : readNumbers base (spaced base numbers) = some numbers :=
  readNumbers_of_words hbase (words_spaced hbase numbers)

/-! ## Lines -/

/-- The lines of a text, without their line ends. -/
def linesOf (text : List Char) : List (List Char) :=
  text.splitOn '\n'

/-- A text of complete lines. -/
def unlines (lines : List (List Char)) : List Char :=
  lines.flatMap (fun line => line ++ ['\n'])

theorem linesOf_cons {line : List Char} (whole : '\n' ∉ line) (text : List Char) :
    linesOf (line ++ '\n' :: text) = line :: linesOf text :=
  List.splitOn_append_cons_self_of_not_mem whole text

theorem linesOf_unlines_append {lines : List (List Char)} (whole : ∀ line ∈ lines, '\n' ∉ line)
    (text : List Char) : linesOf (unlines lines ++ text) = lines ++ linesOf text := by
  induction lines with
  | nil => rfl
  | cons line rest ih =>
      have hrest := ih (fun other hother => whole other (List.mem_cons_of_mem _ hother))
      rw [unlines, List.flatMap_cons, List.append_assoc, List.append_assoc, List.singleton_append,
        linesOf_cons (whole line List.mem_cons_self)]
      exact congrArg (line :: ·) hrest

theorem linesOf_unlines {lines : List (List Char)} (whole : ∀ line ∈ lines, '\n' ∉ line) :
    linesOf (unlines lines) = lines ++ [[]] := by
  have hlines := linesOf_unlines_append whole []
  rwa [List.append_nil] at hlines

theorem newline_notMem_toDigits {base : Nat} (hbase : IsBase base) (n : Nat) :
    '\n' ∉ Nat.toDigits base n :=
  fun hmem => (isNumeral_of_mem_toDigits hbase hmem).ne_of_digitValue rfl rfl

theorem newline_notMem_flatMap {α : Type} {text : α → List Char} (whole : ∀ x, '\n' ∉ text x)
    (xs : List α) : '\n' ∉ xs.flatMap text := by
  intro hmem
  obtain ⟨x, -, hx⟩ := List.mem_flatMap.mp hmem
  exact whole x hx

end FatBTree.Text
