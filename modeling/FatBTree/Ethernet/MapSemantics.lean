import FatBTree.Tree.Run
import Mathlib.Data.String.Basic

/-!
# Map semantics of the Ethernet backend tree

Values are field tables.  A stored table is built by `update_field_table` from
the inserted one and an empty one.
-/

namespace FatBTree.Ethernet

open FatBTree.Tree

/-- `VAL_TYPE`: pairs of a field name and a field value. -/
abbrev FieldTable := List (String × String)

/-- `update_field_table`.  The loop over the table assigns to a copy of the
entry it finds, so a field that exists already keeps its value. -/
def updateFieldTable (updateFieldPairs fieldTable : FieldTable) : FieldTable :=
  updateFieldPairs.foldl
    (fun table updateKv =>
      if table.any (fun kv => kv.1 == updateKv.1) then table else table ++ [updateKv])
    fieldTable

/-- The Ethernet copy of the tree moves no value fields between nodes. -/
def ethernet : Variant FieldTable where
  storeVal := updateFieldTable
  copyVal := fun _ own => own
  clearVal := id

/-- Fields with new and distinct names are appended as they are. -/
theorem updateFieldTable_append {pairs table : FieldTable}
    (distinct : (pairs.map Prod.fst).Nodup)
    (disjoint : ∀ kv ∈ pairs, ∀ entry ∈ table, entry.1 ≠ kv.1) :
    updateFieldTable pairs table = table ++ pairs := by
  induction pairs generalizing table with
  | nil => simp [updateFieldTable]
  | cons first rest ih =>
      have hnodup := List.nodup_cons.mp distinct
      have hnew : table.any (fun kv => kv.1 == first.1) = false := by
        rw [List.any_eq_false]
        intro entry hentry
        simpa using disjoint first List.mem_cons_self entry hentry
      have hstep : updateFieldTable (first :: rest) table =
          updateFieldTable rest (table ++ [first]) := by
        simp [updateFieldTable, hnew]
      rw [hstep, ih hnodup.2 ?_, List.append_assoc, List.singleton_append]
      intro kv hkv entry hentry
      rcases List.mem_append.mp hentry with hold | hfirst
      · exact disjoint kv (List.mem_cons_of_mem _ hkv) entry hold
      · rw [List.mem_singleton.mp hfirst]
        intro heq
        exact hnodup.1 (heq ▸ List.mem_map_of_mem hkv)

theorem updateFieldTable_nil {pairs : FieldTable} (distinct : (pairs.map Prod.fst).Nodup) :
    updateFieldTable pairs [] = pairs := by
  have happend : updateFieldTable pairs [] = [] ++ pairs :=
    updateFieldTable_append distinct (by simp)
  simpa using happend

/-- Nothing is stored exactly when nothing was inserted. -/
theorem updateFieldTable_eq_nil_iff {pairs : FieldTable} :
    updateFieldTable pairs [] = [] ↔ pairs = [] := by
  have hgrow : ∀ (rest table : FieldTable), table ≠ [] →
      updateFieldTable rest table ≠ [] := by
    intro rest
    induction rest with
    | nil => exact fun table htable => htable
    | cons kv rest ih =>
        intro table htable
        simp only [updateFieldTable, List.foldl_cons]
        split
        · exact ih table htable
        · exact ih _ (by simp)
  cases pairs with
  | nil => simp [updateFieldTable]
  | cons first rest => simpa [updateFieldTable] using hgrow rest [first] (by simp)

variable {κ : Type} [LinearOrder κ]

/-- A pointwise change of the values changes the answers pointwise. -/
theorem lookup_map_snd {V W : Type} (f : V → W) (history : List (κ × V)) (k : κ) :
    (history.map (fun kv => (kv.1, f kv.2))).lookup k = (history.lookup k).map f := by
  induction history with
  | nil => rfl
  | cons entry rest ih =>
      obtain ⟨x, v⟩ := entry
      simp only [List.map_cons, List.lookup_cons, ih]
      split <;> rfl

theorem ceiling_storedHistory (calls : List (Call κ FieldTable)) (k : κ) :
    ceiling (storedHistory ethernet calls) k =
      (ceiling (insertions calls).reverse k).map (fun v => updateFieldTable v []) := by
  have hkeys : keysOf (storedHistory ethernet calls) = keysOf (insertions calls).reverse := by
    simp [keysOf, storedHistory]
  unfold ceiling
  rw [hkeys]
  cases ceilKey (keysOf (insertions calls).reverse) k with
  | none => rfl
  | some x => exact lookup_map_snd (fun v => updateFieldTable v []) _ x

theorem ceiling_of_mem {V : Type} {history : List (κ × V)} {k : κ}
    (hk : k ∈ keysOf history) : ceiling history k = history.lookup k := by
  rw [ceiling, ceilKey_self hk]

/-- After any sequence of insertions and marks, the lookup of an inserted key
succeeds and returns the value list of its most recent insertion. -/
theorem lookup_returns_newest (calls : List (Call κ FieldTable))
    (distinct : ∀ kv ∈ insertions calls, (kv.2.map Prod.fst).Nodup) {k : κ}
    (hk : k ∈ keysOf (insertions calls)) :
    ∃ σ v σ', Reaches 16 ethernet calls σ ∧ lookup σ k root = some (v, σ') ∧
      (insertions calls).reverse.lookup k = some v := by
  obtain ⟨σ, hreach, hlookup⟩ := lookup_eq_ceiling ethernet (M := 16) calls k
  have hk' : k ∈ keysOf (insertions calls).reverse := by simpa [keysOf] using hk
  obtain ⟨v, hv⟩ := lookup_isSome_of_mem hk'
  have hmem : (k, v) ∈ insertions calls := by
    obtain ⟨before, after, hsplit, -⟩ := List.lookup_eq_some_iff.mp hv
    rw [← List.mem_reverse, hsplit]
    simp
  rw [ceiling_storedHistory, ceiling_of_mem hk', hv, Option.map_some,
    updateFieldTable_nil (distinct _ hmem)] at hlookup
  obtain ⟨⟨u, σ'⟩, hrun, hu⟩ := Option.map_eq_some_iff.mp hlookup
  cases hu
  exact ⟨σ, v, σ', hreach, hrun, hv⟩

theorem lookup_returns_newest_twice :
    ∃ σ v σ', Reaches 16 ethernet
        [.insert 7 [("field0", "a")], .markLoaded [root], .insert 7 [("field0", "b")]] σ ∧
      lookup σ 7 root = some (v, σ') ∧ v = [("field0", "b")] := by
  obtain ⟨σ, v, σ', hreach, hlookup, hnewest⟩ :=
    lookup_returns_newest (κ := Nat) (k := 7)
      [.insert 7 [("field0", "a")], .markLoaded [root], .insert 7 [("field0", "b")]]
      (by decide) (by decide)
  exact ⟨σ, v, σ', hreach, hlookup, (Option.some.inj hnewest).symm⟩

/-- The lookup of a key that was never inserted returns an empty list exactly
when the least inserted key above it was last inserted with an empty list. -/
theorem lookup_missing_iff (calls : List (Call κ FieldTable)) {k : κ}
    (hk : k ∉ keysOf (insertions calls)) :
    ∃ σ, Reaches 16 ethernet calls σ ∧
      ((∃ σ', lookup σ k root = some ([], σ')) ↔
        ∃ x ∈ keysOf (insertions calls), k < x ∧
          (∀ y ∈ keysOf (insertions calls), k < y → x ≤ y) ∧
          (insertions calls).reverse.lookup x = some []) := by
  obtain ⟨σ, hreach, hlookup⟩ := lookup_eq_ceiling ethernet (M := 16) calls k
  have hmem : ∀ y, y ∈ keysOf (insertions calls).reverse ↔ y ∈ keysOf (insertions calls) := by
    simp [keysOf]
  have hstrict : ∀ y ∈ keysOf (insertions calls), (k ≤ y ↔ k < y) := by
    intro y hy
    refine ⟨fun hle => lt_of_le_of_ne hle ?_, le_of_lt⟩
    rintro rfl
    exact hk hy
  have hempty : (∃ σ', lookup σ k root = some ([], σ')) ↔
      ceiling (insertions calls).reverse k = some [] := by
    rw [ceiling_storedHistory] at hlookup
    constructor
    · rintro ⟨σ', hrun⟩
      rw [hrun] at hlookup
      obtain ⟨v, hv, hnil⟩ := Option.map_eq_some_iff.mp hlookup.symm
      rw [hv, updateFieldTable_eq_nil_iff.mp hnil]
    · intro hceil
      rw [hceil] at hlookup
      obtain ⟨⟨v, σ'⟩, hrun, hv⟩ := Option.map_eq_some_iff.mp hlookup
      cases hv
      exact ⟨σ', hrun⟩
  refine ⟨σ, hreach, hempty.trans ?_⟩
  unfold ceiling
  constructor
  · intro hceil
    cases hx : ceilKey (keysOf (insertions calls).reverse) k with
    | none => simp [hx] at hceil
    | some x =>
        rw [hx] at hceil
        obtain ⟨⟨hxmem, hkx⟩, hleast⟩ := ceilKey_eq_some_iff.mp hx
        have hxmem' := (hmem x).mp hxmem
        exact ⟨x, hxmem', (hstrict x hxmem').mp hkx,
          fun y hy hky => hleast y ((hmem y).mpr hy) hky.le, hceil⟩
  · rintro ⟨x, hx, hkx, hleast, hnewest⟩
    have hceil : ceilKey (keysOf (insertions calls).reverse) k = some x := by
      refine ceilKey_eq_some_iff.mpr ⟨⟨(hmem x).mpr hx, hkx.le⟩, fun y hy hky => ?_⟩
      have hy' := (hmem y).mp hy
      exact hleast y hy' ((hstrict y hy').mp hky)
    rw [hceil]
    exact hnewest

theorem lookup_missing_iff_below :
    ∃ σ, Reaches 16 ethernet [.insert 10 []] σ ∧ ∃ σ', lookup σ 5 root = some ([], σ') := by
  obtain ⟨σ, hreach, hiff⟩ :=
    lookup_missing_iff (κ := Nat) [.insert 10 []] (k := 5) (by decide)
  exact ⟨σ, hreach, hiff.mpr ⟨10, by decide, by decide, by decide, rfl⟩⟩

/-- A key below the only stored key is answered with that key's values, and a
key above it runs off the child vector. -/
theorem lookup_missing_wrong :
    ∃ σ, Reaches 16 ethernet [.insert 10 [("field0", "a")]] σ ∧
      (lookup σ 5 root).map Prod.fst = some [("field0", "a")] ∧ lookup σ 15 root = none := by
  refine ⟨_, rfl, rfl, rfl⟩

end FatBTree.Ethernet
