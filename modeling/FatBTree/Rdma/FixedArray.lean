import FatBTree.Memory.Cells
import FatBTree.Rdma.FixedSize
import Mathlib.Data.List.Lex

/-!
# `fixed_size_array`

The operations of the container.  Blocks of cells are moved by `memmove`, whose length is
the distance of two iterators, taken before `_size` changes.  `none` stands for an access
outside the array and for an `int` that overflows.
-/

namespace FatBTree.Rdma.FixedArray

open FatBTree.Memory

variable {α : Type} {maxSize : Nat}

/-- `last - first` as the length of a block; a negative one is not the length of any. -/
def distance (first last : Nat) : Option Nat :=
  if first ≤ last then some (last - first) else none

/-- `memmove` into the array. -/
def moveIn (arr : FixedArray α maxSize) (pos : Nat) (source : List α) (first count : Nat) :
    Option (FixedArray α maxSize) :=
  match hval : memmove arr.val pos source first count with
  | some val => some { arr with val, length_val := (length_memmove hval).trans arr.length_val }
  | none => none

/-- `_val[_size++] = val`. -/
def pushBack (arr : FixedArray α maxSize) (val : α) : Option (FixedArray α maxSize) :=
  (arr.set arr.size val).resize (arr.size + 1)

/-- `insert(pos, val)`.  `val` is a reference, and it is read when the cells have moved. -/
def insert (arr : FixedArray α maxSize) (pos : Nat) (val : FixedArray α maxSize → Option α) :
    Option (FixedArray α maxSize) := do
  let count ← distance pos arr.size
  let moved ← arr.moveIn (pos + 1) arr.val pos count
  let x ← val moved
  (moved.set pos x).resize (arr.size + 1)

/-- `insert(pos, first, last)`, where `source` are the cells that `first` and `last` point
into when the cells have moved. -/
def insertRange (arr : FixedArray α maxSize) (pos : Nat) (source : FixedArray α maxSize → List α)
    (first last : Nat) : Option (FixedArray α maxSize) := do
  let count ← distance first last
  let tail ← distance pos arr.size
  let moved ← arr.moveIn (pos + count) arr.val pos tail
  let filled ← moved.moveIn pos (source moved) first count
  filled.resize (arr.size + count)

def erase (arr : FixedArray α maxSize) (first last : Nat) : Option (FixedArray α maxSize) := do
  let tail ← distance last arr.size
  let count ← distance first last
  let moved ← arr.moveIn first arr.val last tail
  moved.resize (arr.size - count)

def clear (arr : FixedArray α maxSize) : FixedArray α maxSize :=
  { arr with size := 0, size_le := Nat.zero_le _ }

/-! ## Comparisons -/

/-- `for (int i = 0; i < bound; ++i)` with `left` turns to go.  The body returns from the
function or leaves it to the next turn; `after` is returned behind the loop. -/
def forInt (body : Nat → Option (Option Bool)) (after : Bool) : Nat → Nat → Option Bool
  | 0, _ => some after
  | left + 1, i => do
      match ← body i with
      | some result => some result
      | none => if i + 1 < 2 ^ 31 then forInt body after left (i + 1) else none

/-- `_val[i]` and `rhs.getItem(i)`. -/
def items (arr rhs : FixedArray α maxSize) (i : Nat) : Option (α × α) := do
  let x ← arr.val[i]?
  let y ← rhs.val[i]?
  some (x, y)

/-- `operator==` with `same = true` and `operator!=` with `same = false`. -/
def compareItems [DecidableEq α] (same : Bool) (arr rhs : FixedArray α maxSize) : Option Bool :=
  if arr.size ≠ rhs.size then some !same
  else
    forInt (fun i => (arr.items rhs i).map fun p => if p.1 ≠ p.2 then some !same else none)
      same arr.size 0

def operatorEq [DecidableEq α] (arr rhs : FixedArray α maxSize) : Option Bool :=
  compareItems true arr rhs

def operatorNe [DecidableEq α] (arr rhs : FixedArray α maxSize) : Option Bool :=
  compareItems false arr rhs

def operatorLt [LinearOrder α] (arr rhs : FixedArray α maxSize) : Option Bool :=
  forInt
    (fun i => (arr.items rhs i).map fun p =>
      if p.1 < p.2 then some true else if p.1 > p.2 then some false else none)
    (decide (arr.size < rhs.size)) (min arr.size rhs.size) 0

/-! ## What the operations do to the live cells -/

section Operations

variable {arr : FixedArray α maxSize} {pos first last : Nat}

theorem distance_eq (hle : first ≤ last) : distance first last = some (last - first) :=
  if_pos hle

theorem resize_eq (arr : FixedArray α maxSize) {n : Nat} (hfit : n ≤ maxSize) :
    ∃ arr', arr.resize n = some arr' ∧ arr'.toList = arr.val.take n :=
  ⟨_, dif_pos hfit, rfl⟩

theorem moveIn_eq (arr : FixedArray α maxSize) (pos : Nat) (source : List α) (first count : Nat)
    (hto : pos + count ≤ maxSize) (hfrom : first + count ≤ source.length) :
    ∃ moved, arr.moveIn pos source first count = some moved ∧
      memmove arr.val pos source first count = some moved.val := by
  have hmove := memmove_eq (hto.trans_eq arr.length_val.symm) hfrom
  rw [moveIn]
  split
  · next val hval => exact ⟨_, rfl, hval⟩
  · next hval => exact absurd (hmove.symm.trans hval) (Option.some_ne_none _)

theorem toList_clear : arr.clear.toList = [] :=
  List.take_zero

/-- A live cell is an item of the contents. -/
theorem getElem?_val (hlt : pos < arr.size) : arr.val[pos]? = arr.toList[pos]? :=
  (List.getElem?_take_of_lt hlt).symm

theorem pushBack_eq (arr : FixedArray α maxSize) (val : α) (hroom : arr.size < maxSize) :
    ∃ arr', arr.pushBack val = some arr' ∧ arr'.toList = arr.toList ++ [val] := by
  have hlt : arr.size < arr.val.length := hroom.trans_eq arr.length_val.symm
  obtain ⟨arr', hresize, htake⟩ := resize_eq (arr.set arr.size val) (n := arr.size + 1) hroom
  refine ⟨arr', hresize, ?_⟩
  calc arr'.toList
      = (arr.val.set arr.size val).take (arr.size + 1) := htake
    _ = arr.toList ++ [val] := by
      rw [List.take_add_one, List.take_set_of_le (Nat.le_refl _), List.getElem?_set_self hlt,
        Option.toList_some, toList]

/-- The cells have moved up when `val` is read, and what is read there is inserted. -/
theorem insert_eq (arr : FixedArray α maxSize) (val : FixedArray α maxSize → Option α)
    (hpos : pos ≤ arr.size) (hroom : arr.size < maxSize) :
    ∃ moved : FixedArray α maxSize,
      (∀ i, moved.val[i]? =
        if pos < i ∧ i ≤ arr.size then arr.val[i - 1]? else arr.val[i]?) ∧
      ∀ x, val moved = some x →
        ∃ arr', arr.insert pos val = some arr' ∧ arr'.toList = arr.toList.insertIdx pos x := by
  have hlen := arr.length_val
  obtain ⟨moved, hmoved, hcells⟩ := moveIn_eq arr (pos + 1) arr.val pos
    (arr.size - pos) (by omega) (by omega)
  refine ⟨moved, fun i => ?_, fun x hx => ?_⟩
  · rw [getElem?_memmove hcells]
    grind
  · obtain ⟨arr', hresize, htake⟩ := resize_eq (moved.set pos x) (n := arr.size + 1) hroom
    refine ⟨arr', ?_, htake.trans (take_set_memmove hpos (hroom.trans_eq hlen.symm) hcells)⟩
    rw [insert, distance_eq hpos]
    simp only [Option.bind_eq_bind, Option.bind_some, hmoved, hx]
    exact hresize

theorem insertRange_eq (arr : FixedArray α maxSize) (source : List α) (hpos : pos ≤ arr.size)
    (hfirst : first ≤ last) (hlast : last ≤ source.length)
    (hroom : arr.size + (last - first) ≤ maxSize) :
    ∃ arr', arr.insertRange pos (fun _ => source) first last = some arr' ∧
      arr'.toList = arr.toList.take pos ++ (source.drop first).take (last - first) ++
        arr.toList.drop pos := by
  have hlen := arr.length_val
  obtain ⟨moved, hmoved, hcells⟩ := moveIn_eq arr (pos + (last - first)) arr.val pos
    (arr.size - pos) (by omega) (by omega)
  obtain ⟨filled, hfilled, hcells'⟩ := moveIn_eq moved pos source first
    (last - first) (by omega) (by omega)
  obtain ⟨arr', hresize, htake⟩ := resize_eq filled hroom
  refine ⟨arr', ?_,
    htake.trans (take_memmove_memmove hpos (by omega) (by omega) hcells hcells')⟩
  rw [insertRange, distance_eq hfirst, distance_eq hpos]
  simp only [Option.bind_eq_bind, Option.bind_some, hmoved, hfilled]
  exact hresize

theorem erase_eq (arr : FixedArray α maxSize) (hfirst : first ≤ last) (hlast : last ≤ arr.size) :
    ∃ arr', arr.erase first last = some arr' ∧
      arr'.toList = arr.toList.take first ++ arr.toList.drop last := by
  have hlen := arr.length_val
  have hfit := arr.size_le
  obtain ⟨moved, hmoved, hcells⟩ := moveIn_eq arr first arr.val last
    (arr.size - last) (by omega) (by omega)
  obtain ⟨arr', hresize, htake⟩ := resize_eq moved (n := arr.size - (last - first)) (by omega)
  refine ⟨arr', ?_, htake.trans (take_memmove hfirst hlast (by omega) hcells)⟩
  rw [erase, distance_eq hlast, distance_eq hfirst]
  simp only [Option.bind_eq_bind, Option.bind_some, hmoved]
  exact hresize

end Operations

/-! ## What the comparisons return -/

section Loop

variable {body : Nat → Option (Option Bool)} {after : Bool}

/-- The loop returns the first verdict on the pairs, if none of them overflows `i`. -/
theorem forInt_eq {β : Type} {verdict : β → Option Bool} {pairs : List β} {i : Nat}
    (hbody : ∀ j p, pairs[j]? = some p → body (i + j) = some (verdict p))
    (hint : i + pairs.length < 2 ^ 31) :
    forInt body after pairs.length i = some ((pairs.findSome? verdict).getD after) := by
  induction pairs generalizing i with
  | nil => rfl
  | cons p rest ih =>
      rw [List.length_cons] at hint
      have hfirst := hbody 0 p rfl
      rw [Nat.add_zero] at hfirst
      rw [List.length_cons, forInt, hfirst, List.findSome?_cons]
      cases hverdict : verdict p with
      | some result => rfl
      | none =>
          have hrest : ∀ j q, rest[j]? = some q → body (i + 1 + j) = some (verdict q) := by
            intro j q hq
            rw [Nat.add_assoc, Nat.add_comm 1 j]
            exact hbody (j + 1) q hq
          simp only [Option.bind_eq_bind, Option.bind_some]
          rw [if_pos (by omega)]
          exact ih hrest (by omega)

/-- Without a verdict the loop goes on until `i` overflows. -/
theorem forInt_overflow {left i : Nat} (hi : i < 2 ^ 31)
    (hbody : ∀ j, i ≤ j → j < i + left → body j = some none) (hint : 2 ^ 31 ≤ i + left) :
    forInt body after left i = none := by
  induction left generalizing i with
  | zero => omega
  | succ left ih =>
      rw [forInt, hbody i (Nat.le_refl i) (by omega)]
      simp only [Option.bind_eq_bind, Option.bind_some]
      split
      · next hnext =>
          exact ih hnext (fun j hj hlt => hbody j (by omega) (by omega)) (by omega)
      · rfl

end Loop

section Verdicts

variable {arr rhs : FixedArray α maxSize}

theorem items_eq {i : Nat} {p : α × α} (hp : (arr.toList.zip rhs.toList)[i]? = some p) :
    arr.items rhs i = some p := by
  obtain ⟨hx, hy⟩ := List.getElem?_zip_eq_some.mp hp
  have harr := (List.getElem?_eq_some_iff.mp hx).1
  have hrhs := (List.getElem?_eq_some_iff.mp hy).1
  rw [length_toList] at harr hrhs
  rw [items, getElem?_val harr, getElem?_val hrhs, hx, hy]
  rfl

theorem length_zip_toList :
    (arr.toList.zip rhs.toList).length = min arr.size rhs.size := by
  rw [List.length_zip, length_toList, length_toList]

theorem findSome?_ne [DecidableEq α] (same : Bool) {xs ys : List α}
    (hlen : xs.length = ys.length) :
    ((xs.zip ys).findSome? fun p => if p.1 ≠ p.2 then some !same else none).getD same =
      (decide (xs = ys) == same) := by
  induction xs generalizing ys with
  | nil =>
      cases ys with
      | nil => simp
      | cons y ys => simp at hlen
  | cons x xs ih =>
      cases ys with
      | nil => simp at hlen
      | cons y ys =>
          rw [List.zip_cons_cons, List.findSome?_cons]
          by_cases heq : x = y
          · have htail := ih (Nat.succ.inj hlen)
            simpa [heq] using htail
          · simp [heq]

theorem findSome?_lt [LinearOrder α] (xs ys : List α) :
    ((xs.zip ys).findSome? fun p =>
      if p.1 < p.2 then some true else if p.1 > p.2 then some false else none).getD
        (decide (xs.length < ys.length)) = decide (xs < ys) := by
  induction xs generalizing ys with
  | nil => cases ys <;> simp
  | cons x xs ih =>
      cases ys with
      | nil => simp
      | cons y ys =>
          rw [List.zip_cons_cons, List.findSome?_cons]
          rcases lt_trichotomy x y with hlt | rfl | hgt
          · simp [hlt, List.cons_lt_cons_iff]
          · simpa using ih ys
          · have hnot : ¬ x :: xs < y :: ys := by
              rw [List.cons_lt_cons_iff]
              rintro (hlt | ⟨rfl, -⟩)
              · exact hlt.not_gt hgt
              · exact lt_irrefl x hgt
            simp [hgt, hgt.not_gt, hnot]

theorem compareItems_eq [DecidableEq α] (same : Bool) (hint : arr.size < 2 ^ 31) :
    compareItems same arr rhs = some (decide (arr.toList = rhs.toList) == same) := by
  rw [compareItems]
  split
  · next hsize =>
      have hne : arr.toList ≠ rhs.toList := by
        intro heq
        exact hsize (by rw [← length_toList arr, heq, length_toList])
      simp [hne]
  · next hsize =>
      have hlen : arr.toList.length = rhs.toList.length := by
        rw [length_toList, length_toList]
        exact not_not.mp hsize
      have hzip : (arr.toList.zip rhs.toList).length = arr.size := by
        rw [length_zip_toList, ← not_not.mp hsize, Nat.min_self]
      rw [← findSome?_ne same hlen, ← hzip]
      apply forInt_eq
      · intro i p hp
        rw [Nat.zero_add, items_eq hp, Option.map_some]
      · rw [hzip, Nat.zero_add]
        exact hint

theorem operatorEq_eq [DecidableEq α] (hint : arr.size < 2 ^ 31) :
    operatorEq arr rhs = some (decide (arr.toList = rhs.toList)) := by
  rw [operatorEq, compareItems_eq true hint, beq_true]

theorem operatorNe_eq [DecidableEq α] (hint : arr.size < 2 ^ 31) :
    operatorNe arr rhs = some (decide (arr.toList ≠ rhs.toList)) := by
  rw [operatorNe, compareItems_eq false hint, beq_false, decide_not]

theorem operatorLt_eq [LinearOrder α] (hint : arr.size < 2 ^ 31) :
    operatorLt arr rhs = some (decide (arr.toList < rhs.toList)) := by
  rw [operatorLt, ← findSome?_lt, length_toList, length_toList, ← length_zip_toList]
  apply forInt_eq
  · intro i p hp
    rw [Nat.zero_add, items_eq hp, Option.map_some]
  · rw [length_zip_toList]
    omega

/-- An array of `2 ^ 31` items cannot even be compared with itself. -/
theorem operatorEq_self_overflow [DecidableEq α] (hint : 2 ^ 31 ≤ arr.size) :
    operatorEq arr arr = none := by
  rw [operatorEq, compareItems, if_neg (not_not.mpr rfl)]
  apply forInt_overflow (by decide)
  · intro j _ hj
    have hlt : j < arr.val.length := by
      have hfit := arr.size_le
      rw [arr.length_val]
      omega
    simp [items, List.getElem?_eq_getElem hlt]
  · omega

end Verdicts

end FatBTree.Rdma.FixedArray
