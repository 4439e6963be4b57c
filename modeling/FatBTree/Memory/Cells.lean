import Mathlib.Data.List.Basic
import Mathlib.Data.List.InsertIdx

/-!
# Blocks of cells

An array of cells of which the first `size` are live.  A block is written over the cells
from some position on; `memmove` takes the block from cells as they were before.
-/

namespace FatBTree.Memory

variable {α : Type*} {cells source block : List α} {pos first count size i : Nat} {x : α}

/-- The cells with `block` written over those from `pos` on. -/
def overwrite (cells : List α) (pos : Nat) (block : List α) : List α :=
  cells.take pos ++ block ++ cells.drop (pos + block.length)

/-- `memmove` of `count` cells of `source`, from `first` on, to the cells from `pos` on.
`none` stands for an access outside the cells. -/
def memmove (cells : List α) (pos : Nat) (source : List α) (first count : Nat) :
    Option (List α) :=
  if pos + count ≤ cells.length ∧ first + count ≤ source.length then
    some (overwrite cells pos ((source.drop first).take count))
  else none

theorem length_overwrite (hfit : pos + block.length ≤ cells.length) :
    (overwrite cells pos block).length = cells.length := by
  simp only [overwrite, List.length_append, List.length_take, List.length_drop]
  omega

theorem getElem?_overwrite (hfit : pos + block.length ≤ cells.length) :
    (overwrite cells pos block)[i]? =
      if pos ≤ i ∧ i < pos + block.length then block[i - pos]? else cells[i]? := by
  have hpos : (cells.take pos).length = pos := List.length_take_of_le (by omega)
  rcases Nat.lt_or_ge i pos with hbefore | hbehind
  · rw [if_neg (by omega), overwrite, List.append_assoc,
      List.getElem?_append_left (by omega), List.getElem?_take_of_lt hbefore]
  · rcases Nat.lt_or_ge i (pos + block.length) with hin | hout
    · rw [if_pos ⟨hbehind, hin⟩, overwrite, List.append_assoc,
        List.getElem?_append_right (by omega), hpos, List.getElem?_append_left (by omega)]
    · rw [if_neg (by omega), overwrite, List.getElem?_append_right (by simp; omega),
        List.getElem?_drop, List.length_append, hpos]
      congr 1
      omega

theorem memmove_eq (hto : pos + count ≤ cells.length) (hfrom : first + count ≤ source.length) :
    memmove cells pos source first count =
      some (overwrite cells pos ((source.drop first).take count)) :=
  if_pos ⟨hto, hfrom⟩

/-- The cells after a `memmove`, one by one. -/
theorem getElem?_memmove {moved : List α}
    (hmoved : memmove cells pos source first count = some moved) :
    moved[i]? = if pos ≤ i ∧ i < pos + count then source[first + (i - pos)]? else cells[i]? := by
  rw [memmove] at hmoved
  split at hmoved
  · next hfit =>
      cases hmoved
      have hlen : ((source.drop first).take count).length = count := by
        rw [List.length_take, List.length_drop]
        omega
      rw [getElem?_overwrite (by omega), hlen]
      split
      · rw [List.getElem?_take_of_lt (by omega), List.getElem?_drop]
      · rfl
  · cases hmoved

theorem length_memmove {moved : List α}
    (hmoved : memmove cells pos source first count = some moved) :
    moved.length = cells.length := by
  rw [memmove] at hmoved
  split at hmoved
  · next hfit =>
      cases hmoved
      apply length_overwrite
      rw [List.length_take, List.length_drop]
      omega
  · cases hmoved

/-! ## The live cells -/

/-- Moving the live cells behind `pos` up by one makes room for one more. -/
theorem take_set_memmove {moved : List α} (hpos : pos ≤ size) (hroom : size < cells.length)
    (hmoved : memmove cells (pos + 1) cells pos (size - pos) = some moved) :
    (moved.set pos x).take (size + 1) = (cells.take size).insertIdx pos x := by
  have hlen := length_memmove hmoved
  apply List.ext_getElem?
  intro i
  rw [List.getElem?_take, List.getElem?_set, getElem?_memmove hmoved, List.getElem?_insertIdx]
  grind

/-- Moving the live cells behind `pos` up makes room for a block. -/
theorem take_memmove_memmove {moved filled : List α} (hpos : pos ≤ size)
    (hroom : size + count ≤ cells.length) (hsource : first + count ≤ source.length)
    (hmoved : memmove cells (pos + count) cells pos (size - pos) = some moved)
    (hfilled : memmove moved pos source first count = some filled) :
    filled.take (size + count) =
      (cells.take size).take pos ++ (source.drop first).take count ++
        (cells.take size).drop pos := by
  have hhead : ((cells.take size).take pos).length = pos := by
    rw [List.length_take, List.length_take]
    omega
  have hblock : ((source.drop first).take count).length = count := by
    rw [List.length_take, List.length_drop]
    omega
  apply List.ext_getElem?
  intro i
  rw [List.getElem?_take, getElem?_memmove hfilled, getElem?_memmove hmoved, List.append_assoc]
  rcases Nat.lt_or_ge i pos with hbefore | hbehind
  · rw [List.getElem?_append_left (by omega)]
    grind
  · rw [List.getElem?_append_right (by omega), hhead]
    rcases Nat.lt_or_ge i (pos + count) with hin | hout
    · rw [List.getElem?_append_left (by omega)]
      grind
    · rw [List.getElem?_append_right (by omega), hblock]
      grind

/-- Moving the live cells behind `last` down removes those from `first` on. -/
theorem take_memmove {moved : List α} {last : Nat} (hfirst : first ≤ last) (hlast : last ≤ size)
    (hroom : size ≤ cells.length)
    (hmoved : memmove cells first cells last (size - last) = some moved) :
    moved.take (size - (last - first)) =
      (cells.take size).take first ++ (cells.take size).drop last := by
  have hhead : ((cells.take size).take first).length = first := by
    rw [List.length_take, List.length_take]
    omega
  apply List.ext_getElem?
  intro i
  rw [List.getElem?_take, getElem?_memmove hmoved]
  rcases Nat.lt_or_ge i first with hbefore | hbehind
  · rw [List.getElem?_append_left (by omega)]
    grind
  · rw [List.getElem?_append_right (by omega), hhead]
    grind

end FatBTree.Memory
