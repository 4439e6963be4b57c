import FatBTree.Tcam.MatchTable

/-!
# Reading `keyinfo.txt`

The reader takes numbers up to the one whose line ends.  On a line without numbers it
goes on with the next.
-/

namespace FatBTree.Tcam

open FatBTree.Text

/-! ## One number -/

/-- The characters of a digit string up to a separator. -/
theorem takeWhile_digits {digits : List Char} (hdigits : ∀ c ∈ digits, c.isDigit = true) {sep : Char}
    (hsep : sep.isDigit = false) (rest : List Char) :
    (digits ++ sep :: rest).takeWhile Char.isDigit = digits := by
  rw [List.takeWhile_append_of_pos hdigits, List.takeWhile_cons_of_neg (by simp [hsep]),
    List.append_nil]

theorem dropWhile_digits {digits : List Char} (hdigits : ∀ c ∈ digits, c.isDigit = true) {sep : Char}
    (hsep : sep.isDigit = false) (rest : List Char) :
    (digits ++ sep :: rest).dropWhile Char.isDigit = sep :: rest := by
  rw [List.dropWhile_append_of_pos hdigits, List.dropWhile_cons_of_neg (by simp [hsep])]

theorem dropWhile_blanks {digits : List Char} (hdigits : ∀ c ∈ digits, c.isDigit = true)
    (hne : digits ≠ []) (rest : List Char) :
    (digits ++ rest).dropWhile Char.isWhitespace = digits ++ rest := by
  cases digits with
  | nil => exact absurd rfl hne
  | cons c others =>
      have hblank := not_isWhitespace_of_isDigit (hdigits c List.mem_cons_self)
      rw [List.cons_append, List.dropWhile_cons_of_neg (by simp [hblank])]

/-- A digit string is read as one number, or ends the loop. -/
theorem length_readKeys_le {digits : List Char} (hdigits : ∀ c ∈ digits, c.isDigit = true)
    (hne : digits ≠ []) {sep : Char} (hsep : sep.isDigit = false) (fuel : Nat) (rest : List Char) :
    (readKeys (fuel + 1) (digits ++ sep :: rest)).length ≤
      1 + if sep = '\n' then 0 else (readKeys fuel rest).length := by
  simp only [readKeys, dropWhile_blanks hdigits hne, takeWhile_digits hdigits hsep,
    dropWhile_digits hdigits hsep]
  cases readNumber 10 digits with
  | none => exact Nat.zero_le _
  | some key =>
      simp only
      split
      · exact Nat.zero_le _
      · split
        · exact Nat.le_refl 1
        · rw [List.length_cons, Nat.add_comm]

theorem readKeys_digits {n : Nat} (hn : n ≤ uint64Max) {sep : Char} (hsep : sep.isDigit = false)
    (fuel : Nat) (rest : List Char) :
    readKeys (fuel + 1) (Nat.toDigits 10 n ++ sep :: rest) =
      if sep = '\n' then [n] else n :: readKeys fuel rest := by
  have hdigits : ∀ c ∈ Nat.toDigits 10 n, c.isDigit = true := fun c => isDigit_of_mem_decimal
  simp only [readKeys, dropWhile_blanks hdigits Nat.toDigits_ne_nil, takeWhile_digits hdigits hsep,
    dropWhile_digits hdigits hsep, readNumber_decimal, if_neg (Nat.not_lt.mpr hn)]

theorem readKeys_blank {c : Char} (hc : c.isWhitespace = true) (fuel : Nat) (text : List Char) :
    readKeys fuel (c :: text) = readKeys fuel text := by
  cases fuel with
  | zero => rfl
  | succ fuel =>
      have hdrop : (c :: text).dropWhile Char.isWhitespace = text.dropWhile Char.isWhitespace :=
        List.dropWhile_cons_of_pos hc
      simp only [readKeys, hdrop]

theorem readKeys_nil (fuel : Nat) : readKeys fuel [] = [] := by
  cases fuel <;> rfl

/-! ## Fuel -/

/-- Every number takes a character and the one after it. -/
theorem readKeys_fuel {first second : Nat} {text : List Char} (hfirst : text.length ≤ first)
    (hsecond : text.length ≤ second) : readKeys first text = readKeys second text := by
  induction first generalizing second text with
  | zero =>
      obtain rfl := List.eq_nil_of_length_eq_zero (Nat.le_zero.mp hfirst)
      rw [readKeys_nil, readKeys_nil]
  | succ first ih =>
      cases second with
      | zero =>
          obtain rfl := List.eq_nil_of_length_eq_zero (Nat.le_zero.mp hsecond)
          rw [readKeys_nil, readKeys_nil]
      | succ second =>
          have hblank := (List.dropWhile_suffix Char.isWhitespace (l := text)).length_le
          have hdigit := (List.dropWhile_suffix Char.isDigit
            (l := text.dropWhile Char.isWhitespace)).length_le
          rw [readKeys, readKeys]
          cases readNumber 10 ((text.dropWhile Char.isWhitespace).takeWhile Char.isDigit) with
          | none => rfl
          | some key =>
              split
              next => rfl
              next =>
                cases hrest : (text.dropWhile Char.isWhitespace).dropWhile Char.isDigit with
                | nil => rfl
                | cons sep rest =>
                    rw [hrest, List.length_cons] at hdigit
                    have hsame : readKeys first rest = readKeys second rest :=
                      ih (by omega) (by omega)
                    simp only [hsame]

/-! ## The first line -/

/-- A line of keys, and what follows it. -/
def keyInfo (B : List Nat) (rest : List Char) : List Char :=
  spaced 10 B ++ '\n' :: rest

/-- The keys that `main` reads. -/
def boundaries (B : List Nat) (rest : List Char) : List Nat :=
  if B = [] then readKeys rest.length rest else B

theorem readKeys_line {B : List Nat} (hne : B ≠ []) (hB : ∀ key ∈ B, key ≤ uint64Max)
    (rest : List Char) {fuel : Nat} (hfuel : B.length ≤ fuel) :
    readKeys fuel (keyInfo B rest) = B := by
  induction B generalizing fuel with
  | nil => exact absurd rfl hne
  | cons key others ih =>
      cases fuel with
      | zero => cases hfuel
      | succ fuel =>
          have hkey := hB key List.mem_cons_self
          cases others with
          | nil => exact (readKeys_digits hkey rfl fuel rest).trans (if_pos rfl)
          | cons next others =>
              have htext : keyInfo (key :: next :: others) rest =
                  Nat.toDigits 10 key ++ ' ' :: keyInfo (next :: others) rest := by
                rw [keyInfo, keyInfo, spaced, List.append_assoc, List.cons_append]
                simp
              rw [htext, readKeys_digits hkey rfl, if_neg (by decide),
                ih (List.cons_ne_nil _ _) (fun other hother => hB other (List.mem_cons_of_mem _ hother))
                  (Nat.le_of_succ_le_succ hfuel)]

theorem length_spaced (base : Nat) (numbers : List Nat) :
    numbers.length ≤ (spaced base numbers).length := by
  induction numbers with
  | nil => exact Nat.le_refl _
  | cons n rest ih =>
      have hpos : 0 < (Nat.toDigits base n).length := List.length_pos_iff.mpr Nat.toDigits_ne_nil
      cases rest with
      | nil => exact hpos
      | cons next rest =>
          have hlen : (spaced base (n :: next :: rest)).length =
              (Nat.toDigits base n).length + ((spaced base (next :: rest)).length + 1) := by
            rw [spaced, List.length_append, List.length_cons]
            simp
          rw [hlen, List.length_cons]
          omega

theorem readKeys_keyInfo {B : List Nat} (hB : ∀ key ∈ B, key ≤ uint64Max) (rest : List Char) :
    readKeys (keyInfo B rest).length (keyInfo B rest) = boundaries B rest := by
  rcases eq_or_ne B [] with rfl | hne
  · have htext : keyInfo [] rest = '\n' :: rest := rfl
    rw [htext, readKeys_blank rfl, boundaries, if_pos rfl]
    exact readKeys_fuel (Nat.le_succ _) (Nat.le_refl _)
  · rw [boundaries, if_neg hne]
    refine readKeys_line hne hB rest ?_
    rw [keyInfo, List.length_append]
    exact (length_spaced 10 B).trans (Nat.le_add_right _ _)

end FatBTree.Tcam
