import FatBTree.Tcam.MatchTable

/-!
# Loading and applying the four range tables

The printed rows are parsed back and installed.  A packet passes the tables one
after another for as long as `nexttable` is set.
-/

namespace FatBTree.Tcam

open FatBTree.Text

/-! ## `config.py` -/

/-- An installed row: the exact match on `meta.result` (tables 2 to 4), the range
of the key piece, and the action data (table 4 has no `nexttable`). -/
structure Entry where
  exact : Option Nat
  lo : Nat
  hi : Nat
  result : Nat
  nexttable : Option Nat
  deriving DecidableEq

structure Tables where
  table1 : List Entry
  table2 : List Entry
  table3 : List Entry
  table4 : List Entry

/-- The loader's `table_idx` and the tables filled so far. -/
structure Loader where
  tableIdx : Nat
  tables : Tables

def Tables.empty : Tables := ⟨[], [], [], []⟩

/-- The call of `add_with_set_result_action_1`. -/
def entry1 (args : List Nat) : Option Entry := do
  return ⟨none, ← args[0]?, ← args[1]?, ← args[3]?, some (← args[2]?)⟩

/-- The calls of `add_with_set_result_action_2` and `_3`. -/
def entry2 (args : List Nat) : Option Entry := do
  return ⟨some (← args[0]?), ← args[1]?, ← args[2]?, ← args[4]?, some (← args[3]?)⟩

/-- The call of `add_with_set_result_action_4`. -/
def entry4 (args : List Nat) : Option Entry := do
  return ⟨some (← args[0]?), ← args[1]?, ← args[2]?, ← args[4]?, none⟩

def Loader.add (loader : Loader) (args : List Nat) : Option Loader :=
  let tables := loader.tables
  match loader.tableIdx with
  | 1 => (entry1 args).map (fun entry =>
      { loader with tables := { tables with table1 := tables.table1 ++ [entry] } })
  | 2 => (entry2 args).map (fun entry =>
      { loader with tables := { tables with table2 := tables.table2 ++ [entry] } })
  | 3 => (entry2 args).map (fun entry =>
      { loader with tables := { tables with table3 := tables.table3 ++ [entry] } })
  | 4 => (entry4 args).map (fun entry =>
      { loader with tables := { tables with table4 := tables.table4 ++ [entry] } })
  | _ => some loader

/-- One turn of the reading loop; an exception of the script is `none`. -/
def Loader.line (loader : Loader) (line : List Char) : Option Loader :=
  match line with
  | '#' :: rest =>
      match rest[1]? with
      | some '1' => some { loader with tableIdx := 1 }
      | some '2' => some { loader with tableIdx := 2 }
      | some '3' => some { loader with tableIdx := 3 }
      | some '4' => some { loader with tableIdx := 4 }
      | some _ => some loader
      | none => none
  | _ =>
      if loader.tableIdx = 0 then some loader
      else
        (readNumbers 16 line).bind (fun args =>
          if args.length < 2 then some loader else loader.add args)

/-- The script, from the text of `table_info.txt` to the installed tables. -/
def config (tableInfo : List Char) : Option Tables :=
  ((linesOf tableInfo).foldlM Loader.line ⟨0, .empty⟩).map Loader.tables

/-! ## `Ingress.apply` -/

/-- `meta.result` and `meta.nexttable`. -/
structure Meta where
  result : Nat
  nexttable : Nat
  deriving DecidableEq

/-- An exact match on `meta.result` where the table has one, and a range match. -/
def Entry.hits (entry : Entry) (found : Meta) (key : Nat) : Bool :=
  entry.exact.all (· == found.result) && decide (entry.lo ≤ key) && decide (key ≤ entry.hi)

/-- The metadata after a table and the number of rows that match. -/
def applyTable (table : List Entry) (found : Meta) (key : Nat) : Meta × Nat :=
  match table.filter (fun entry => entry.hits found key) with
  | [] => (found, 0)
  | entry :: rest => (⟨entry.result, entry.nexttable.getD found.nexttable⟩, rest.length + 1)

/-- Piece `t` of a 64-bit key: `key_1` is piece 0. -/
def piece (key : BitVec 64) (t : Nat) : Nat :=
  key.toNat / 2 ^ (48 - 16 * t) % 2 ^ 16

/-- The tables after the first, each applied while `nexttable` is 1. -/
def applyRest (key : BitVec 64) : Nat → List (List Entry) → Meta → Meta × List Nat
  | _, [], found => (found, [])
  | t, table :: rest, found =>
      if found.nexttable = 1 then
        let step := applyTable table found (piece key t)
        let last := applyRest key (t + 1) rest step.1
        (last.1, step.2 :: last.2)
      else (found, [])

/-- The four-stage lookup: the final metadata and, for every table that was
applied, how many of its rows matched. -/
def ingressApply (tables : Tables) (key : BitVec 64) (found : Meta) : Meta × List Nat :=
  let step := applyTable tables.table1 found (piece key 0)
  let last := applyRest key 1 [tables.table2, tables.table3, tables.table4] step.1
  (last.1, step.2 :: last.2)

end FatBTree.Tcam
