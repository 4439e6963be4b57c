import FatBTree.Text.Words
import Mathlib.Logic.Function.Basic

/-!
# Compiling boundaries into range tables

A partition of the 64-bit keys is cut into four linked tables over 16-bit
pieces.  A block of keys that lies in one range gets a final row, any other
block gets a row that points to the next table.
-/

namespace FatBTree.Tcam

open FatBTree.Text

def uint64Max : Nat := 2 ^ 64 - 1

def uint16Max : Nat := 2 ^ 16 - 1

/-! ## Reading `keyinfo.txt` -/

/-- The loop `while (keyinfo >> key)`, which ends after the key that is followed
by a line end. -/
def readKeys : Nat → List Char → List Nat
  | 0, _ => []
  | fuel + 1, text =>
      let text := text.dropWhile Char.isWhitespace
      match readNumber 10 (text.takeWhile Char.isDigit) with
      | none => []
      | some key =>
          if uint64Max < key then []
          else
            match text.dropWhile Char.isDigit with
            | [] => [key]
            | sep :: rest => if sep = '\n' then [key] else key :: readKeys fuel rest

/-- `class range`. -/
structure Range where
  l : Nat
  r : Nat
  deriving Inhabited, DecidableEq

/-- The ranges after the key `prev`; `prev + 1` wraps at the largest key. -/
def rangesFrom (prev : Nat) : List Nat → List Range
  | [] => [⟨(prev + 1) % 2 ^ 64, uint64Max⟩]
  | key :: rest => ⟨(prev + 1) % 2 ^ 64, key⟩ :: rangesFrom key rest

def rangelist (keys : List Nat) : List Range :=
  rangesFrom uint64Max keys

/-! ## Rows -/

/-- The numbers of one output row.  `pf` is `pfidx[pf]`, which the first table
does not have; `glued` rows lack the blank after it. -/
structure Row where
  pf : Option Nat
  glued : Bool
  l : Nat
  r : Nat
  next : Nat
  idx : Nat
  deriving DecidableEq

def hex (n : Nat) : List Char := Nat.toDigits 16 n

def Row.text (row : Row) : List Char :=
  match row.pf with
  | none => spaced 16 [row.l, row.r, row.next, row.idx]
  | some pf =>
      if row.glued then hex pf ++ spaced 16 [row.l, row.r, row.next, row.idx]
      else spaced 16 [pf, row.l, row.r, row.next, row.idx]

/-! ## The four loops -/

/-- What the four copies of the loop differ in: the width of a block, whether a
row starts with `pfidx[pf]`, whether the first flush forgets the blank after
it, and whether there is a next table. -/
structure Level where
  shift : Nat
  linked : Bool
  glues : Bool
  pushes : Bool

def level1 : Level := ⟨48, false, false, true⟩
def level2 : Level := ⟨32, true, true, true⟩
def level3 : Level := ⟨16, true, true, true⟩
def level4 : Level := ⟨0, true, false, false⟩

/-- `pfidx`, `curidx`, the next table and the rows printed so far. -/
structure Output where
  pfidx : Nat → Nat
  curidx : Nat
  table : List Nat
  rows : List Row

/-- The local variables of the loop over one prefix; `run` is `l` and `r`. -/
structure Scan where
  run : Option (Nat × Nat)
  j : Nat
  out : Output

def tmpL (level : Level) (pf i : Nat) : Nat :=
  (pf <<< (level.shift + 16)) + (i <<< level.shift)

def tmpR (level : Level) (pf i : Nat) : Nat :=
  tmpL level pf i + ((1 <<< level.shift) - 1)

def Output.print (out : Output) (level : Level) (pf : Nat) (glued : Bool) (l r next idx : Nat) :
    Output :=
  let head := if level.linked then some (out.pfidx pf) else none
  { out with rows := out.rows ++ [⟨head, glued, l, r, next, idx⟩] }

/-- The pending run is printed and forgotten. -/
def Scan.flush (scan : Scan) (level : Level) (pf : Nat) (glued : Bool) : Scan :=
  match scan.run with
  | some (l, r) =>
      { scan with run := none, out := scan.out.print level pf glued l r 0 scan.j }
  | none => scan

/-- The loop `while (rangelist[j].r < tmp_l)`. -/
def advance (ranges : List Range) (low : Nat) : Nat → Nat → Nat
  | 0, j => j
  | fuel + 1, j =>
      if (ranges.getD j default).r < low then advance ranges low fuel (j + 1) else j

/-- The first `if` of the loop body. -/
def Scan.catchUp (scan : Scan) (ranges : List Range) (level : Level) (pf i : Nat) : Scan :=
  if (ranges.getD scan.j default).r < tmpL level pf i then
    { scan.flush level pf level.glues with
      j := advance ranges (tmpL level pf i) ranges.length scan.j }
  else scan

def Scan.extend (scan : Scan) (i : Nat) : Scan :=
  { scan with run := some (match scan.run with | some (l, _) => (l, i) | none => (i, i)) }

/-- The `else` branch of the second `if`: block `i` gets a row of its own. -/
def Scan.split (scan : Scan) (level : Level) (pf i : Nat) : Scan :=
  let scan := scan.flush level pf false
  let key := (pf <<< 16) + i
  let out := { scan.out with
    pfidx := Function.update scan.out.pfidx key scan.out.curidx
    curidx := scan.out.curidx + 1 }
  let out := out.print level pf false i i 1 (out.pfidx key)
  { scan with out := { out with table := if level.pushes then out.table ++ [key] else out.table } }

/-- The body of the inner loop. -/
def Scan.step (ranges : List Range) (level : Level) (pf : Nat) (scan : Scan) (i : Nat) : Scan :=
  let scan := scan.catchUp ranges level pf i
  let range := ranges.getD scan.j default
  if range.l ≤ tmpL level pf i ∧ tmpR level pf i ≤ range.r then scan.extend i
  else scan.split level pf i

/-- The blocks before number `count` of one prefix. -/
def scanBlocks (ranges : List Range) (level : Level) (pf count : Nat) (out : Output) : Scan :=
  (List.range count).foldl (Scan.step ranges level pf) ⟨none, 0, out⟩

def scanPrefix (ranges : List Range) (level : Level) (out : Output) (pf : Nat) : Output :=
  ((scanBlocks ranges level pf (uint16Max + 1) out).flush level pf false).out

/-- One of the four loops, with an empty next table and no rows yet. -/
def runLevel (ranges : List Range) (level : Level) (pfs : List Nat) (out : Output) : Output :=
  pfs.foldl (scanPrefix ranges level) { out with table := [], rows := [] }

/-! ## The whole program -/

def output1 (ranges : List Range) : Output :=
  runLevel ranges level1 [0] ⟨fun _ => 0, ranges.length, [], []⟩

def output2 (ranges : List Range) : Output :=
  runLevel ranges level2 (output1 ranges).table (output1 ranges)

def output3 (ranges : List Range) : Output :=
  runLevel ranges level3 (output2 ranges).table (output2 ranges)

def output4 (ranges : List Range) : Output :=
  runLevel ranges level4 (output3 ranges).table (output3 ranges)

/-- `0x` and sixteen hexadecimal digits. -/
def hex16 (n : Nat) : List Char :=
  " 0x".toList ++ List.replicate (16 - (hex n).length) '0' ++ hex n

def printRange (range : Range) : List (List Char) :=
  [hex16 range.l, hex16 range.r, []]

/-- The lines that `main` writes to its standard output. -/
def printed (ranges : List Range) : List (List Char) :=
  ranges.flatMap printRange ++
    "# 1".toList :: (output1 ranges).rows.map Row.text ++ [[], []] ++
    "# 2".toList :: (output2 ranges).rows.map Row.text ++ [[], []] ++
    "# 3".toList :: (output3 ranges).rows.map Row.text ++ [[], []] ++
    "# 4".toList :: (output4 ranges).rows.map Row.text

/-- The program, from the text of `keyinfo.txt` to the text of `table_info.txt`. -/
def matchTable (keyinfo : List Char) : List Char :=
  unlines (printed (rangelist (readKeys keyinfo.length keyinfo)))

end FatBTree.Tcam
