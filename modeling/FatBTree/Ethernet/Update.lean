import FatBTree.Ethernet.MapSemantics
import FatBTree.Tree.Write

/-!
# Field updates

`update_field_table` looks for the field among copies of the table's entries,
so it only ever appends.  `update` hands it the record of whichever value node
the descent ends at, without comparing keys.
-/

namespace FatBTree.Ethernet

open FatBTree.Order FatBTree.Tree

/-! ## One record -/

/-- A value list in which no field name repeats. -/
structure Record where
  fields : FieldTable
  distinct : (fields.map Prod.fst).Nodup

/-- What a field update is for: named fields take their last new value, the
other fields and the order of the old ones stay. -/
structure Updated (pairs old new : FieldTable) : Prop where
  written : ∀ name ∈ pairs.map Prod.fst, new.lookup name = pairs.reverse.lookup name
  kept : ∀ name ∈ old.map Prod.fst, name ∉ pairs.map Prod.fst →
    new.lookup name = old.lookup name
  order : (old.map Prod.fst).Sublist (new.map Prod.fst)
  distinct : (new.map Prod.fst).Nodup

theorem updateFieldTable_cons (kv : String × String) (rest table : FieldTable) :
    updateFieldTable (kv :: rest) table =
      updateFieldTable rest
        (if table.any (fun entry => entry.1 == kv.1) then table else table ++ [kv]) := rfl

theorem any_name_iff {table : FieldTable} {name : String} :
    table.any (fun entry => entry.1 == name) = true ↔ name ∈ table.map Prod.fst := by
  constructor
  · intro hany
    obtain ⟨entry, hentry, hname⟩ := List.any_eq_true.mp hany
    exact beq_iff_eq.mp hname ▸ List.mem_map_of_mem hentry
  · intro hname
    obtain ⟨entry, hentry, rfl⟩ := List.mem_map.mp hname
    exact List.any_eq_true.mpr ⟨entry, hentry, beq_self_eq_true _⟩

theorem lookup_eq_none_iff {table : FieldTable} {name : String} :
    table.lookup name = none ↔ name ∉ table.map Prod.fst := by
  rw [List.lookup_eq_none_iff]
  constructor
  · intro hnone hname
    obtain ⟨entry, hentry, rfl⟩ := List.mem_map.mp hname
    simpa using hnone entry hentry
  · intro habsent entry hentry
    rw [bne_iff_ne]
    rintro rfl
    exact habsent (List.mem_map_of_mem hentry)

/-- The old entries stay in front, whatever is appended. -/
theorem updateFieldTable_prefix (pairs table : FieldTable) :
    ∃ added, updateFieldTable pairs table = table ++ added := by
  induction pairs generalizing table with
  | nil => exact ⟨[], (List.append_nil table).symm⟩
  | cons kv rest ih =>
      rw [updateFieldTable_cons]
      split
      · exact ih table
      · obtain ⟨added, hadded⟩ := ih (table ++ [kv])
        exact ⟨kv :: added, by rw [hadded, List.append_assoc, List.singleton_append]⟩

theorem updateFieldTable_distinct (pairs : FieldTable) {table : FieldTable}
    (distinct : (table.map Prod.fst).Nodup) :
    ((updateFieldTable pairs table).map Prod.fst).Nodup := by
  induction pairs generalizing table with
  | nil => exact distinct
  | cons kv rest ih =>
      rw [updateFieldTable_cons]
      split
      · exact ih distinct
      · next hnew =>
          apply ih
          rw [List.map_append, List.nodup_append]
          refine ⟨distinct, by simp, ?_⟩
          rintro name hname _ hkv rfl
          obtain rfl : name = kv.1 := by simpa using hkv
          exact hnew (any_name_iff.mpr hname)

/-- A field that exists keeps its value; a new one takes its first value. -/
theorem lookup_updateFieldTable (pairs table : FieldTable) (name : String) :
    (updateFieldTable pairs table).lookup name =
      (table.lookup name).or (pairs.lookup name) := by
  induction pairs generalizing table with
  | nil => simp [updateFieldTable]
  | cons kv rest ih =>
      obtain ⟨field, value⟩ := kv
      rw [updateFieldTable_cons, ih]
      split
      · next hold =>
          by_cases hname : name = field
          · subst hname
            have hsome : table.lookup name ≠ none :=
              lookup_eq_none_iff.not.mpr (not_not.mpr (any_name_iff.mp hold))
            obtain ⟨old, hold⟩ := Option.ne_none_iff_exists'.mp hsome
            rw [hold, Option.some_or, Option.some_or]
          · rw [List.lookup_cons, beq_false_of_ne hname]
      · rw [List.lookup_append, Option.or_assoc]
        congr 1
        by_cases hname : name = field
        · subst hname
          simp
        · simp [List.lookup_cons, beq_false_of_ne hname]

/-- The update does its work exactly when the last new value of every named
field is the one the table has already or, for a new field, the first one. -/
theorem updateFieldTable_updated_iff (pairs : FieldTable) (record : Record) :
    Updated pairs record.fields (updateFieldTable pairs record.fields) ↔
      ∀ name ∈ pairs.map Prod.fst,
        pairs.reverse.lookup name = (record.fields.lookup name).or (pairs.lookup name) := by
  constructor
  · intro updated name hname
    rw [← updated.written name hname, lookup_updateFieldTable]
  · intro agree
    constructor
    case written =>
      intro name hname
      rw [agree name hname, lookup_updateFieldTable]
    case kept =>
      intro name _ hother
      rw [lookup_updateFieldTable, lookup_eq_none_iff.mpr hother, Option.or_none]
    case order =>
      obtain ⟨added, hadded⟩ := updateFieldTable_prefix pairs record.fields
      rw [hadded, List.map_append]
      exact List.sublist_append_left _ _
    case distinct => exact updateFieldTable_distinct pairs record.distinct

/-- An existing field is not overwritten. -/
theorem updateFieldTable_wrong :
    ¬ Updated [("field0", "b")] [("field0", "a")]
      (updateFieldTable [("field0", "b")] [("field0", "a")]) := by
  intro updated
  have hwritten := updated.written "field0" (by decide)
  revert hwritten
  decide

/-- Nothing is appended exactly when all the named fields exist. -/
theorem updateFieldTable_eq_self_iff {pairs table : FieldTable} :
    updateFieldTable pairs table = table ↔
      ∀ name ∈ pairs.map Prod.fst, name ∈ table.map Prod.fst := by
  constructor
  · intro hsame name hname
    have hlookup := lookup_updateFieldTable pairs table name
    rw [hsame] at hlookup
    by_contra habsent
    rw [lookup_eq_none_iff.mpr habsent, Option.none_or, eq_comm, lookup_eq_none_iff] at hlookup
    exact hlookup hname
  · intro hold
    induction pairs with
    | nil => rfl
    | cons kv rest ih =>
        have hkv : kv.1 ∈ table.map Prod.fst := hold kv.1 List.mem_cons_self
        rw [updateFieldTable_cons, if_pos (any_name_iff.mpr hkv)]
        exact ih (fun name hname => hold name (List.mem_cons_of_mem _ hname))

/-! ## One tree -/

section Tree

variable {κ : Type} [LinearOrder κ]

/-- `update`, started at the node that the bias resolves to. -/
def update (σ : State κ FieldTable) (inKey : κ) (inVal : FieldTable) (start : Nat) :
    Option (State κ FieldTable) :=
  modifyLoop (updateFieldTable inVal) inKey σ.nbNode (touch σ start) start

/-- What the backend does to its tree; an update has bias 0. -/
inductive Request (κ : Type) where
  | call (call : Call κ FieldTable)
  | update (inKey : κ) (inVal : FieldTable)

def Request.apply (σ : State κ FieldTable) : Request κ → Option (State κ FieldTable)
  | .call plain => plain.apply 16 ethernet σ
  | .update inKey inVal => Ethernet.update σ inKey inVal root

def serve (requests : List (Request κ)) (σ : State κ FieldTable) : Option (State κ FieldTable) :=
  requests.foldlM Request.apply σ

/-- The keys a sequence of requests inserts. -/
def requestedKeys (requests : List (Request κ)) : List κ :=
  requests.flatMap fun
    | .call call => keysOf (insertions [call])
    | .update _ _ => []

/-- The record of a key: the value list that a lookup from the root returns. -/
def recordOf (σ : State κ FieldTable) (k : κ) : Option FieldTable :=
  (lookup σ k root).map Prod.fst

theorem Settled.update_spec {w : World κ FieldTable} {history : List (κ × FieldTable)}
    (settled : Settled 16 w history) (k : κ) (inVal : FieldTable) :
    Modifies (updateFieldTable inVal) history k 16 w.dist w.bounds
      (update w.state k inVal root) := by
  have shape := settled.shape
  have hsame := sameTree_touch shape.root_lt
  refine (hsame.settled settled).modifyLoop_spec _ shape.root_lt ?_
    (settled.ordered.holds_root k) (Nat.le_add_right _ _)
  rw [hsame.isValue]
  exact shape.root_isValue

theorem Settled.recordOf_eq {w : World κ FieldTable} {history : List (κ × FieldTable)}
    (settled : Settled 16 w history) {k : κ} (hk : k ∈ keysOf history) :
    recordOf w.state k = history.lookup k := by
  rw [← ceiling_of_mem hk]
  exact settled.lookup_eq settled.shape.root_lt settled.shape.root_isValue
    (settled.ordered.holds_root k)

/-- Every state that requests reach is settled over the keys they inserted. -/
theorem settled_of_serve (requests : List (Request κ)) {σ : State κ FieldTable}
    (hrun : serve requests State.empty = some σ) :
    ∃ dist b history, Settled 16 (⟨σ, dist, b⟩ : World κ FieldTable) history ∧
      ∀ x, x ∈ keysOf history ↔ x ∈ requestedKeys requests := by
  induction requests using List.reverseRecOn generalizing σ with
  | nil =>
      cases hrun
      exact ⟨_, _, [], settled_empty, fun x => by simp [keysOf, requestedKeys]⟩
  | append_singleton requests request ih =>
      obtain ⟨before, hbefore, hlast⟩ : ∃ before, serve requests State.empty = some before ∧
          request.apply before = some σ := by
        simpa [serve, List.foldlM_append, Option.bind_eq_some_iff] using hrun
      obtain ⟨dist, b, history, settled, hkeys⟩ := ih hbefore
      cases request with
      | call call =>
          obtain ⟨w', happly, hsettled, -⟩ := settled.apply_eq ethernet call
          obtain rfl : w'.state = σ := Option.some.inj (happly.symm.trans hlast)
          refine ⟨w'.dist, w'.bounds, _, hsettled, fun x => ?_⟩
          have hnew := keysOf_storedHistory ethernet [call] x
          simp only [keysOf, List.map_append, List.mem_append] at hnew hkeys ⊢
          rw [hnew, hkeys]
          simp [requestedKeys, keysOf, or_comm]
      | update inKey inVal =>
          have hsame := sameTree_touch settled.shape.root_lt
          obtain ⟨history', hsettled, hkeys'⟩ := (hsame.settled settled).modifyLoop_keys
            (updateFieldTable inVal) settled.shape.root_lt hlast
          refine ⟨dist, b, history', hsettled, fun y => ?_⟩
          rw [hkeys', hkeys]
          simp [requestedKeys]

/-- What an update with bias 0 should leave alone: it never reads past the end
of a child vector, and the records of all other keys are unchanged. -/
def TouchesOnly (σ : State κ FieldTable) (inserted : List κ) (k : κ) (inVal : FieldTable) :
    Prop :=
  ∃ σ', update σ k inVal root = some σ' ∧
    ∀ x ∈ inserted, x ≠ k → recordOf σ' x = recordOf σ x

/-- An update touches only its own record exactly when its key is there, or a
larger key is and the record of the least of these has all the named fields. -/
theorem update_touchesOnly_iff (requests : List (Request κ)) {σ : State κ FieldTable}
    (hrun : serve requests State.empty = some σ) (k : κ) (inVal : FieldTable) :
    TouchesOnly σ (requestedKeys requests) k inVal ↔
      k ∈ requestedKeys requests ∨
        ∃ x ∈ requestedKeys requests, k < x ∧
          (∀ y ∈ requestedKeys requests, k < y → x ≤ y) ∧
          ∀ record, recordOf σ x = some record →
            ∀ name ∈ inVal.map Prod.fst, name ∈ record.map Prod.fst := by
  obtain ⟨dist, b, history, settled, hkeys⟩ := settled_of_serve requests hrun
  have hspec := Settled.update_spec settled k inVal
  unfold Modifies at hspec
  simp only at hspec
  simp only [← hkeys]
  have hkeys' : ∀ y, y ∈ requestedKeys requests ↔ y ∈ keysOf history := fun y => (hkeys y).symm
  cases hceil : ceilKey (keysOf history) k with
  | none =>
      rw [hceil] at hspec
      have hbelow := ceilKey_eq_none_iff.mp hceil
      constructor
      · rintro ⟨σ', hupdate, -⟩
        rw [hspec] at hupdate
        cases hupdate
      · rintro (hk | ⟨x, hx, hkx, -⟩)
        · exact absurd (hbelow k hk) (lt_irrefl k)
        · exact absurd (hbelow x hx) (not_lt.mpr hkx.le)
  | some x =>
      rw [hceil] at hspec
      obtain ⟨σ', old, hupdate, hold, hsettled⟩ := hspec
      obtain ⟨⟨hx, hkx⟩, hleast⟩ := ceilKey_eq_some_iff.mp hceil
      have hrecord : recordOf σ x = some old := (Settled.recordOf_eq settled hx).trans hold
      have hrecord' : recordOf σ' x = some (updateFieldTable inVal old) :=
        (Settled.recordOf_eq hsettled (List.mem_cons_self ..)).trans List.lookup_cons_self
      have hother : ∀ y ∈ keysOf history, y ≠ x → recordOf σ' y = recordOf σ y := by
        intro y hy hne
        refine (Settled.recordOf_eq hsettled (List.mem_cons_of_mem _ hy)).trans ?_
        rw [List.lookup_cons, beq_false_of_ne hne]
        exact (Settled.recordOf_eq settled hy).symm
      constructor
      · rintro ⟨last, hlast, hframe⟩
        obtain rfl : σ' = last := Option.some.inj (hupdate.symm.trans hlast)
        rcases hkx.eq_or_lt with rfl | hlt
        · exact Or.inl hx
        · refine Or.inr ⟨x, hx, hlt, fun y hy hky => hleast y hy hky.le, ?_⟩
          intro record hrec
          obtain rfl : old = record := Option.some.inj (hrecord.symm.trans hrec)
          have hsame := hframe x ((hkeys' x).mpr hx) hlt.ne'
          rw [hrecord, hrecord'] at hsame
          exact updateFieldTable_eq_self_iff.mp (Option.some.inj hsame)
      · intro hcond
        refine ⟨σ', hupdate, fun y hy hyk => ?_⟩
        have hy' := (hkeys' y).mp hy
        by_cases hyx : y = x
        · subst hyx
          rcases hcond with hk | ⟨z, hz, hkz, hfirst, hnames⟩
          · exact absurd (le_antisymm (hleast k hk (le_refl k)) hkx) hyk
          · have hzy : z = y := le_antisymm (hfirst y hy' (lt_of_le_of_ne hkx (Ne.symm hyk)))
              (hleast z hz hkz.le)
            subst hzy
            rw [hrecord, hrecord']
            exact congrArg some (updateFieldTable_eq_self_iff.mpr (hnames old hrecord))
        · exact hother y hy' hyx

theorem update_touchesOnly_iff_inserted :
    ∃ σ, serve [Request.call (.insert 7 [("field0", "a")])] State.empty = some σ ∧
      TouchesOnly σ [7] 7 [("field1", "b")] := by
  obtain ⟨σ, hrun⟩ : ∃ σ, serve [Request.call (.insert 7 [("field0", "a")])] State.empty =
      some σ := Option.isSome_iff_exists.mp (by decide +kernel)
  exact ⟨σ, hrun, (update_touchesOnly_iff _ hrun (7 : Nat) [("field1", "b")]).mpr
    (Or.inl (by decide))⟩

/-- With one key inserted, an update of a smaller key appends to its record. -/
theorem update_touches_other :
    ∃ σ ∈ serve [Request.call (.insert 7 [("field0", "a")])] State.empty,
      ¬ TouchesOnly σ [7] 3 [("field1", "b")] := by
  have hstored : ∃ σ ∈ serve [Request.call (.insert 7 [("field0", "a")])] State.empty,
      ∃ σ' ∈ update σ 3 [("field1", "b")] root, recordOf σ' 7 ≠ recordOf σ 7 := by
    decide +kernel
  obtain ⟨σ, hrun, σ', hupdate, hchanged⟩ := hstored
  refine ⟨σ, hrun, ?_⟩
  rintro ⟨last, hlast, hframe⟩
  obtain rfl : σ' = last := Option.some.inj (hupdate.symm.trans hlast)
  exact hchanged (hframe 7 (List.mem_singleton_self 7) (by decide))

end Tree

end FatBTree.Ethernet
