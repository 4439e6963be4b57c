import Mathlib.Data.List.Nodup
import Mathlib.Data.List.Dedup
import Mathlib.Tactic.Common

/-!
# Exact-match tables

A match-action table with an exact key holds at most one entry for a key.
Adding an entry whose key is already there is refused.
-/

namespace FatBTree.P4

/-- The entries of an exact-match table, in the order they were added. -/
structure ExactTable (κ α : Type*) where
  entries : List (κ × α)
  distinct : (entries.map Prod.fst).Nodup

namespace ExactTable

variable {κ α : Type*}

def empty : ExactTable κ α := ⟨[], List.nodup_nil⟩

theorem nodup_append_singleton {entries : List (κ × α)} {key : κ} {data : α}
    (distinct : (entries.map Prod.fst).Nodup) (fresh : key ∉ entries.map Prod.fst) :
    ((entries ++ [(key, data)]).map Prod.fst).Nodup := by
  rw [List.map_append, List.nodup_append]
  refine ⟨distinct, by simp, ?_⟩
  intro x hx y hy heq
  obtain rfl : y = key := by simpa using hy
  exact fresh (heq ▸ hx)

/-- A loop of which every turn adds one entry. -/
theorem length_of_foldlM {ι : Type*} {turn : ExactTable κ α → ι → Option (ExactTable κ α)}
    (adds : ∀ table x grown, turn table x = some grown →
      grown.entries.length = table.entries.length + 1)
    {xs : List ι} {table grown : ExactTable κ α} (hrun : xs.foldlM turn table = some grown) :
    grown.entries.length = table.entries.length + xs.length := by
  induction xs generalizing table with
  | nil =>
      obtain rfl := Option.some.inj hrun
      rfl
  | cons x rest ih =>
      rw [List.foldlM_cons] at hrun
      obtain ⟨next, hnext, hrest⟩ := Option.bind_eq_some_iff.mp hrun
      rw [ih hrest, adds table x next hnext, List.length_cons, Nat.add_right_comm, Nat.add_assoc]

variable [DecidableEq κ]

/-- The action data of the entry that matches the key. -/
def lookup (table : ExactTable κ α) (key : κ) : Option α :=
  (table.entries.find? (fun entry => entry.1 = key)).map Prod.snd

/-- A new entry; the call fails when the key is taken. -/
def add (table : ExactTable κ α) (key : κ) (data : α) : Option (ExactTable κ α) :=
  if fresh : key ∉ table.entries.map Prod.fst then
    some ⟨table.entries ++ [(key, data)], nodup_append_singleton table.distinct fresh⟩
  else none

theorem add_eq {table : ExactTable κ α} {key : κ} (data : α)
    (fresh : key ∉ table.entries.map Prod.fst) :
    ∃ grown, table.add key data = some grown ∧ grown.entries = table.entries ++ [(key, data)] :=
  ⟨_, dif_pos fresh, rfl⟩

/-- Rows with new and distinct keys are all accepted. -/
theorem foldlM_add {rows : List (κ × α)} {table : ExactTable κ α}
    (distinct : ((table.entries ++ rows).map Prod.fst).Nodup) :
    ∃ grown, rows.foldlM (fun t row => t.add row.1 row.2) table = some grown ∧
      grown.entries = table.entries ++ rows := by
  induction rows generalizing table with
  | nil => exact ⟨table, rfl, (List.append_nil _).symm⟩
  | cons row rest ih =>
      have hfresh : row.1 ∉ table.entries.map Prod.fst := by
        intro hmem
        rw [List.map_append, List.nodup_append] at distinct
        exact distinct.2.2 row.1 hmem row.1 (by simp) rfl
      obtain ⟨next, hadd, hnext⟩ := add_eq row.2 hfresh
      have hrest : ((next.entries ++ rest).map Prod.fst).Nodup := by
        rw [hnext, List.append_assoc]
        exact distinct
      obtain ⟨grown, hgrow, hentries⟩ := ih hrest
      refine ⟨grown, ?_, ?_⟩
      · rw [List.foldlM_cons, hadd]
        exact hgrow
      · rw [hentries, hnext, List.append_assoc]
        rfl

theorem length_of_add {table grown : ExactTable κ α} {key : κ} {data : α}
    (hadd : table.add key data = some grown) :
    grown.entries.length = table.entries.length + 1 := by
  unfold add at hadd
  split at hadd
  · cases hadd
    exact List.length_append
  · cases hadd

theorem lookup_eq_some_iff {table : ExactTable κ α} {key : κ} {data : α} :
    table.lookup key = some data ↔ (key, data) ∈ table.entries := by
  constructor
  · intro hfound
    obtain ⟨⟨x, v⟩, hfind, hv⟩ := Option.map_eq_some_iff.mp hfound
    have hx : x = key := by simpa using List.find?_some hfind
    cases hv
    exact hx ▸ List.mem_of_find?_eq_some hfind
  · intro hmem
    cases hfind : table.entries.find? (fun entry => entry.1 = key) with
    | none => exact absurd (List.find?_eq_none.mp hfind _ hmem) (by simp)
    | some entry =>
        have hkey : entry.1 = key := by simpa using List.find?_some hfind
        have hsame : entry = (key, data) :=
          List.inj_on_of_nodup_map table.distinct (List.mem_of_find?_eq_some hfind) hmem hkey
        simp [lookup, hfind, hsame]

theorem lookup_eq_none_iff {table : ExactTable κ α} {key : κ} :
    table.lookup key = none ↔ ∀ data, (key, data) ∉ table.entries := by
  constructor
  · intro hnone data hmem
    rw [lookup_eq_some_iff.mpr hmem] at hnone
    cases hnone
  · intro habsent
    cases hfound : table.lookup key with
    | none => rfl
    | some data => exact absurd (lookup_eq_some_iff.mp hfound) (habsent data)

end ExactTable

end FatBTree.P4
