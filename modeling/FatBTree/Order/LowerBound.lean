import Mathlib.Order.WithBot
import Mathlib.Data.List.Pairwise
import Mathlib.Tactic.Common
import Mathlib.Tactic.Push

/-!
# Lower bounds and the segments cut out by separators

A non-decreasing list of separators cuts an interval `(lo, hi]` into one
segment more than there are separators.  `lowerBound` is the documented
behaviour of a binary search for the first separator not below a key, and it
is also the number of the unique segment that holds the key.
-/

namespace FatBTree.Order

variable {κ : Type*}

/-! ## Separators -/

/-- The left end of segment `i` of `(lo, hi]`. -/
def segLo (lo : WithBot κ) (keys : List κ) : Nat → WithBot κ
  | 0 => lo
  | i + 1 =>
      match keys[i]? with
      | some x => x
      | none => lo

/-- The right end of segment `i` of `(lo, hi]`. -/
def segHi (hi : WithTop κ) (keys : List κ) (i : Nat) : WithTop κ :=
  match keys[i]? with
  | some x => x
  | none => hi

section Separators

variable {lo : WithBot κ} {hi : WithTop κ} {keys : List κ} {s : κ} {i j : Nat}

theorem segLo_succ {x : κ} (hx : keys[i]? = some x) :
    segLo lo keys (i + 1) = x := by
  simp [segLo, hx]

theorem segHi_of_getElem? {x : κ} (hx : keys[i]? = some x) :
    segHi hi keys i = x := by
  simp [segHi, hx]

theorem segLo_insertIdx_le (hij : i ≤ j) :
    segLo lo (keys.insertIdx j s) i = segLo lo keys i := by
  cases i with
  | zero => rfl
  | succ i =>
      rw [segLo, segLo, List.getElem?_insertIdx, if_pos (by omega)]

theorem segLo_insertIdx_succ (hj : j ≤ keys.length) :
    segLo lo (keys.insertIdx j s) (j + 1) = s := by
  apply segLo_succ
  rw [List.getElem?_insertIdx, if_neg (by omega), if_pos rfl, if_pos hj]

theorem segLo_insertIdx_gt (hij : j < i) :
    segLo lo (keys.insertIdx j s) (i + 1) = segLo lo keys i := by
  obtain ⟨i, rfl⟩ : ∃ i', i = i' + 1 := ⟨i - 1, by omega⟩
  rw [segLo, segLo, List.getElem?_insertIdx, if_neg (by omega), if_neg (by omega)]
  rfl

theorem segHi_insertIdx_lt (hij : i < j) :
    segHi hi (keys.insertIdx j s) i = segHi hi keys i := by
  rw [segHi, segHi, List.getElem?_insertIdx, if_pos hij]

theorem segHi_insertIdx_self (hj : j ≤ keys.length) :
    segHi hi (keys.insertIdx j s) j = s := by
  apply segHi_of_getElem?
  rw [List.getElem?_insertIdx, if_neg (by omega), if_pos rfl, if_pos hj]

theorem segHi_insertIdx_gt (hij : j ≤ i) :
    segHi hi (keys.insertIdx j s) (i + 1) = segHi hi keys i := by
  rw [segHi, segHi, List.getElem?_insertIdx, if_neg (by omega), if_neg (by omega)]
  rfl

theorem segLo_take (hi' : i ≤ j) : segLo lo (keys.take j) i = segLo lo keys i := by
  cases i with
  | zero => rfl
  | succ i => rw [segLo, segLo, List.getElem?_take, if_pos (by omega)]

theorem segHi_take (hs : keys[j]? = some s) (hi' : i ≤ j) :
    segHi (s : WithTop κ) (keys.take j) i = segHi hi keys i := by
  rw [segHi, segHi, List.getElem?_take]
  rcases Nat.eq_or_lt_of_le hi' with rfl | hlt
  · rw [if_neg (by omega), hs]
  · rw [if_pos hlt]
    have hj := (List.getElem?_eq_some_iff.mp hs).1
    simp [show i < keys.length by omega]

theorem segLo_drop (hs : keys[j]? = some s) (hi' : i ≤ keys.length - (j + 1)) :
    segLo (s : WithBot κ) (keys.drop (j + 1)) i = segLo lo keys (j + 1 + i) := by
  cases i with
  | zero => exact (segLo_succ hs).symm
  | succ i =>
      have hj := (List.getElem?_eq_some_iff.mp hs).1
      have hx : keys[j + 1 + i]? = some keys[j + 1 + i] := by simp
      rw [← Nat.add_assoc, segLo_succ hx, segLo, List.getElem?_drop, hx]

theorem segHi_drop : segHi hi (keys.drop j) i = segHi hi keys (j + i) := by
  rw [segHi, segHi, List.getElem?_drop]

end Separators

/-- A transitively ordered list stays so when an element goes in where it fits. -/
theorem pairwise_insertIdx {r : κ → κ → Prop} (transitive : ∀ x y z, r x y → r y z → r x z)
    {keys : List κ} (sorted : keys.Pairwise r) {i : Nat} {k : κ} (hi : i ≤ keys.length)
    (below : ∀ j x, j < i → keys[j]? = some x → r x k)
    (above : ∀ x, keys[i]? = some x → r k x) :
    (keys.insertIdx i k).Pairwise r := by
  have hold : ∀ (a c : Nat) x y, a < c → keys[a]? = some x → keys[c]? = some y → r x y := by
    intro a c x y hac hx hy
    obtain ⟨ha, rfl⟩ := List.getElem?_eq_some_iff.mp hx
    obtain ⟨hc, rfl⟩ := List.getElem?_eq_some_iff.mp hy
    exact List.pairwise_iff_getElem.mp sorted a c ha hc hac
  have hall : ∀ (a c : Nat) x y, a < c → (keys.insertIdx i k)[a]? = some x →
      (keys.insertIdx i k)[c]? = some y → r x y := by
    intro a c x y hac hx hy
    rw [List.getElem?_insertIdx] at hx hy
    rcases Nat.lt_trichotomy c i with hci | rfl | hci
    · rw [if_pos (by omega)] at hx
      rw [if_pos hci] at hy
      exact hold a c x y hac hx hy
    · rw [if_pos hac] at hx
      rw [if_neg (by omega), if_pos rfl, if_pos hi] at hy
      cases hy
      exact below a x hac hx
    · rw [if_neg (by omega), if_neg (by omega)] at hy
      rcases Nat.lt_trichotomy a i with hai | rfl | hai
      · rw [if_pos hai] at hx
        exact hold a (c - 1) x y (by omega) hx hy
      · rw [if_neg (by omega), if_pos rfl, if_pos hi] at hx
        cases hx
        have hlen := (List.getElem?_eq_some_iff.mp hy).1
        have hnext : keys[a]? = some keys[a] := by simp
        rcases Nat.eq_or_lt_of_le (show a ≤ c - 1 by omega) with heq | hlt
        · rw [← heq] at hy
          exact above y hy
        · exact transitive _ _ _ (above _ hnext) (hold _ _ _ _ hlt hnext hy)
      · rw [if_neg (by omega), if_neg (by omega)] at hx
        exact hold (a - 1) (c - 1) x y (by omega) hx hy
  refine List.pairwise_iff_getElem.mpr fun a c ha hc hac => ?_
  exact hall a c _ _ hac (by simp) (by simp)

/-! ## Ordered keys -/

variable [LinearOrder κ]

/-- The position of the first element that is not below `k`. -/
def lowerBound (keys : List κ) (k : κ) : Nat :=
  keys.findIdx (fun x => decide (k ≤ x))

/-- The number of elements strictly below `k`. -/
def countBelow (keys : List κ) (k : κ) : Nat :=
  keys.countP (fun x => decide (x < k))

/-- Non-decreasing lists: the precondition of a binary search. -/
def Ascending (keys : List κ) : Prop :=
  keys.Pairwise (· ≤ ·)

/-- Increasing lists without repetitions. -/
def StrictlyAscending (keys : List κ) : Prop :=
  keys.Pairwise (· < ·)

/-- `k` lies in the half-open interval `(lo, hi]`. -/
def Within (lo : WithBot κ) (hi : WithTop κ) (k : κ) : Prop :=
  lo < (k : WithBot κ) ∧ (k : WithTop κ) ≤ hi

/-! ## Lower bounds -/

theorem lowerBound_le_length (keys : List κ) (k : κ) :
    lowerBound keys k ≤ keys.length :=
  List.findIdx_le_length

theorem lt_of_lt_lowerBound {keys : List κ} {k x : κ} {i : Nat}
    (hlt : i < lowerBound keys k) (hx : keys[i]? = some x) : x < k := by
  obtain ⟨hi, rfl⟩ := List.getElem?_eq_some_iff.mp hx
  have hfalse := List.not_of_lt_findIdx hlt
  simpa using hfalse

theorem le_of_getElem?_lowerBound {keys : List κ} {k x : κ}
    (hx : keys[lowerBound keys k]? = some x) : k ≤ x := by
  unfold lowerBound at hx
  obtain ⟨hi, rfl⟩ := List.getElem?_eq_some_iff.mp hx
  exact decide_eq_true_iff.mp (List.findIdx_getElem (w := hi))

theorem lowerBound_lt_length_iff {keys : List κ} {k : κ} :
    lowerBound keys k < keys.length ↔ ∃ x ∈ keys, k ≤ x := by
  simp [lowerBound, List.findIdx_lt_length]

/-- A binary search stops at the position that separates the two sides. -/
theorem lowerBound_eq {keys : List κ} {k : κ} {i : Nat} (hi : i ≤ keys.length)
    (below : ∀ j x, j < i → keys[j]? = some x → x < k)
    (above : ∀ x, keys[i]? = some x → k ≤ x) : lowerBound keys k = i := by
  rcases Nat.lt_trichotomy (lowerBound keys k) i with hlt | heq | hgt
  · have hlen : lowerBound keys k < keys.length := by omega
    have hx : keys[lowerBound keys k]? = some keys[lowerBound keys k] := by simp
    exact absurd (below _ _ hlt hx) (not_lt.mpr (le_of_getElem?_lowerBound hx))
  · exact heq
  · have hlen : i < keys.length := by
      have := lowerBound_le_length keys k
      omega
    have hx : keys[i]? = some keys[i] := by simp
    exact absurd (lt_of_lt_lowerBound hgt hx) (not_lt.mpr (above _ hx))

/-! ## Ascending lists by position -/

theorem Ascending.le {keys : List κ} (sorted : Ascending keys) {i j : Nat}
    {x y : κ} (hij : i ≤ j) (hx : keys[i]? = some x) (hy : keys[j]? = some y) :
    x ≤ y := by
  obtain ⟨hi, rfl⟩ := List.getElem?_eq_some_iff.mp hx
  obtain ⟨hj, rfl⟩ := List.getElem?_eq_some_iff.mp hy
  rcases Nat.eq_or_lt_of_le hij with rfl | hlt
  · exact le_refl _
  · exact List.pairwise_iff_getElem.mp sorted i j hi hj hlt

theorem Ascending.take {keys : List κ} (sorted : Ascending keys) (n : Nat) :
    Ascending (keys.take n) :=
  List.Pairwise.sublist (List.take_sublist n keys) sorted

theorem Ascending.drop {keys : List κ} (sorted : Ascending keys) (n : Nat) :
    Ascending (keys.drop n) :=
  List.Pairwise.sublist (List.drop_sublist n keys) sorted

theorem Ascending.insertIdx {keys : List κ} (sorted : Ascending keys) {i : Nat}
    {k : κ} (hi : i ≤ keys.length)
    (below : ∀ j x, j < i → keys[j]? = some x → x ≤ k)
    (above : ∀ x, keys[i]? = some x → k ≤ x) :
    Ascending (keys.insertIdx i k) :=
  pairwise_insertIdx (r := (· ≤ ·)) (fun _ _ _ => le_trans) sorted hi below above

theorem StrictlyAscending.lt {keys : List κ} (sorted : StrictlyAscending keys) {i j : Nat}
    {x y : κ} (hij : i < j) (hx : keys[i]? = some x) (hy : keys[j]? = some y) : x < y := by
  obtain ⟨hi, rfl⟩ := List.getElem?_eq_some_iff.mp hx
  obtain ⟨hj, rfl⟩ := List.getElem?_eq_some_iff.mp hy
  exact List.pairwise_iff_getElem.mp sorted i j hi hj hij

theorem StrictlyAscending.insertIdx {keys : List κ} (sorted : StrictlyAscending keys)
    {i : Nat} {k : κ} (hi : i ≤ keys.length)
    (below : ∀ j x, j < i → keys[j]? = some x → x < k)
    (above : ∀ x, keys[i]? = some x → k < x) :
    StrictlyAscending (keys.insertIdx i k) :=
  pairwise_insertIdx (r := (· < ·)) (fun _ _ _ => lt_trans) sorted hi below above

/-- A key that is present is found at its first copy. -/
theorem getElem?_lowerBound {keys : List κ} {k : κ} (sorted : Ascending keys)
    (hk : k ∈ keys) : keys[lowerBound keys k]? = some k := by
  have hlt : lowerBound keys k < keys.length :=
    lowerBound_lt_length_iff.mpr ⟨k, hk, le_refl k⟩
  have hx : keys[lowerBound keys k]? = some keys[lowerBound keys k] := by simp
  obtain ⟨i, hi⟩ := List.mem_iff_getElem?.mp hk
  have hle : lowerBound keys k ≤ i := by
    by_contra hgt
    exact absurd (lt_of_lt_lowerBound (Nat.lt_of_not_le hgt) hi) (lt_irrefl k)
  rw [hx, le_antisymm (sorted.le hle hx hi) (le_of_getElem?_lowerBound hx)]

/-- In an ascending list a binary search counts the elements below the key. -/
theorem Ascending.lowerBound_eq_countBelow {keys : List κ}
    (sorted : Ascending keys) (k : κ) : lowerBound keys k = countBelow keys k := by
  induction keys with
  | nil => rfl
  | cons x rest ih =>
      have hrest : Ascending rest := (List.pairwise_cons.mp sorted).2
      have hle : ∀ y ∈ rest, x ≤ y := (List.pairwise_cons.mp sorted).1
      by_cases hx : k ≤ x
      · have hnone : countBelow rest k = 0 := by
          rw [countBelow, List.countP_eq_zero]
          intro y hy
          simpa using hx.trans (hle y hy)
        have hcount : countBelow (x :: rest) k = countBelow rest k := by
          simp [countBelow, not_lt.mpr hx]
        rw [hcount, hnone]
        simp [lowerBound, List.findIdx_cons, hx]
      · have hcount : countBelow (x :: rest) k = countBelow rest k + 1 := by
          simp [countBelow, not_le.mp hx]
        rw [hcount, ← ih hrest]
        simp [lowerBound, List.findIdx_cons, hx]

/-! ## Binary search after an insertion and in the parts of a list -/

theorem lowerBound_insertIdx_of_le {keys : List κ} {k x : κ} (hle : x ≤ k) :
    lowerBound (keys.insertIdx (lowerBound keys k) k) x = lowerBound keys x := by
  have hmono : lowerBound keys x ≤ lowerBound keys k := by
    by_contra hgt
    have hlen := lowerBound_le_length keys x
    have hy : keys[lowerBound keys k]? = some keys[lowerBound keys k] := by simp
    have hlt := lt_of_lt_lowerBound (Nat.lt_of_not_le hgt) hy
    exact absurd (hle.trans (le_of_getElem?_lowerBound hy)) (not_le.mpr hlt)
  have hlen := lowerBound_le_length keys k
  apply lowerBound_eq
  · rw [List.length_insertIdx, if_pos hlen]
    omega
  · intro j y hj hy
    rw [List.getElem?_insertIdx, if_pos (by omega)] at hy
    exact lt_of_lt_lowerBound hj hy
  · intro y hy
    rw [List.getElem?_insertIdx] at hy
    rcases Nat.eq_or_lt_of_le hmono with heq | hlt
    · rw [if_neg (by omega), if_pos heq, if_pos (by omega)] at hy
      cases hy
      exact hle
    · rw [if_pos hlt] at hy
      exact le_of_getElem?_lowerBound hy

theorem lowerBound_insertIdx_of_lt {keys : List κ} {k x : κ} (hlt : k < x) :
    lowerBound (keys.insertIdx (lowerBound keys k) k) x = lowerBound keys x + 1 := by
  have hmono : lowerBound keys k ≤ lowerBound keys x := by
    by_contra hgt
    have hlen := lowerBound_le_length keys k
    have hy : keys[lowerBound keys x]? = some keys[lowerBound keys x] := by simp
    have hyk := lt_of_lt_lowerBound (Nat.lt_of_not_le hgt) hy
    exact absurd (le_of_getElem?_lowerBound hy) (not_le.mpr (hyk.trans hlt))
  have hlen := lowerBound_le_length keys k
  have hlen' := lowerBound_le_length keys x
  apply lowerBound_eq
  · rw [List.length_insertIdx, if_pos hlen]
    omega
  · intro j y hj hy
    rw [List.getElem?_insertIdx] at hy
    rcases Nat.lt_trichotomy j (lowerBound keys k) with hj' | rfl | hj'
    · rw [if_pos hj'] at hy
      exact (lt_of_lt_lowerBound hj' hy).trans hlt
    · rw [if_neg (by omega), if_pos rfl, if_pos hlen] at hy
      cases hy
      exact hlt
    · rw [if_neg (by omega), if_neg (by omega)] at hy
      exact lt_of_lt_lowerBound (by omega) hy
  · intro y hy
    rw [List.getElem?_insertIdx, if_neg (by omega), if_neg (by omega)] at hy
    exact le_of_getElem?_lowerBound hy

theorem lowerBound_take {keys : List κ} {x : κ} {j : Nat} (hx : ∃ y ∈ keys.take j, x ≤ y) :
    lowerBound (keys.take j) x = lowerBound keys x := by
  conv_rhs => rw [← List.take_append_drop j keys]
  rw [lowerBound, lowerBound, List.findIdx_append, if_pos]
  exact lowerBound_lt_length_iff.mpr hx

theorem lowerBound_drop {keys : List κ} {x : κ} {j : Nat} (hj : j ≤ keys.length)
    (below : ∀ y ∈ keys.take j, y < x) :
    lowerBound keys x = j + lowerBound (keys.drop j) x := by
  conv_lhs => rw [← List.take_append_drop j keys]
  rw [lowerBound, List.findIdx_append, if_neg]
  · rw [List.length_take, Nat.min_eq_left hj, Nat.add_comm]
    rfl
  · intro hlt
    obtain ⟨y, hy, hle⟩ := lowerBound_lt_length_iff.mp hlt
    exact absurd (below y hy) (not_lt.mpr hle)

/-! ## Segments -/

section Segments

variable {lo : WithBot κ} {hi : WithTop κ} {keys : List κ} {k s : κ} {i j : Nat}

/-- Every segment starts at or after the left end of the interval. -/
theorem lo_le_segLo (bounded : ∀ x ∈ keys, lo ≤ (x : WithBot κ)) :
    lo ≤ segLo lo keys i := by
  cases i with
  | zero => exact le_refl _
  | succ i =>
      cases hx : keys[i]? with
      | none => simp [segLo, hx]
      | some x =>
          rw [segLo_succ hx]
          exact bounded x (List.mem_of_getElem? hx)

/-- Every segment ends at or before the right end of the interval. -/
theorem segHi_le_hi (bounded : ∀ x ∈ keys, (x : WithTop κ) ≤ hi) :
    segHi hi keys i ≤ hi := by
  cases hx : keys[i]? with
  | none => simp [segHi, hx]
  | some x =>
      rw [segHi_of_getElem? hx]
      exact bounded x (List.mem_of_getElem? hx)

theorem Within.mono {lo' : WithBot κ} {hi' : WithTop κ} (within : Within lo hi k)
    (hlo : lo' ≤ lo) (hhi : hi ≤ hi') : Within lo' hi' k :=
  ⟨hlo.trans_lt within.1, within.2.trans hhi⟩

/-- The segment selected by a binary search holds the key. -/
theorem Within.seg (within : Within lo hi k) :
    Within (segLo lo keys (lowerBound keys k)) (segHi hi keys (lowerBound keys k)) k := by
  constructor
  · cases hi' : lowerBound keys k with
    | zero => exact within.1
    | succ i =>
        have hlen := lowerBound_le_length keys k
        have hx : keys[i]? = some keys[i] := by simp
        rw [segLo_succ hx]
        exact WithBot.coe_lt_coe.mpr (lt_of_lt_lowerBound (by omega) hx)
  · cases hx : keys[lowerBound keys k]? with
    | none => simpa [segHi, hx] using within.2
    | some x =>
        rw [segHi_of_getElem? hx]
        exact WithTop.coe_le_coe.mpr (le_of_getElem?_lowerBound hx)

/-- Only the segment selected by a binary search holds the key. -/
theorem lowerBound_eq_of_seg (sorted : Ascending keys) (hlen : i ≤ keys.length)
    (within : Within (segLo lo keys i) (segHi hi keys i) k) : lowerBound keys k = i := by
  apply lowerBound_eq hlen
  · intro a x ha hx
    cases i with
    | zero => omega
    | succ i =>
        have hy : keys[i]? = some keys[i] := by simp
        have hlo := within.1
        rw [segLo_succ hy] at hlo
        exact lt_of_le_of_lt (sorted.le (by omega) hx hy) (WithBot.coe_lt_coe.mp hlo)
  · intro x hx
    have hhi := within.2
    rw [segHi_of_getElem? hx] at hhi
    exact WithTop.coe_le_coe.mp hhi

end Segments

end FatBTree.Order
