import FatBTree.Sram.Control
import FatBTree.Tcam.NodeInfo
import FatBTree.Workload.KeyName

/-!
# Node descriptions in `node_info_1_s.txt`

`print_info` writes a node as three lines.  The SRAM loader takes them apart by column
offsets, blanks and runs of digits, and it reads back what was written.
-/

namespace FatBTree.Sram.NodeInfo

open FatBTree.Text FatBTree.Tcam FatBTree.Workload

/-! ## Writing -/

/-- An `ofstream`: what was written so far, and the base that `hex` or `dec` has set. -/
structure Stream where
  text : List Char
  base : Nat

namespace Stream

def hex (fout : Stream) : Stream := { fout with base := 16 }

def dec (fout : Stream) : Stream := { fout with base := 10 }

def put (fout : Stream) (text : String) : Stream := { fout with text := fout.text ++ text.toList }

def number (fout : Stream) (n : Nat) : Stream :=
  { fout with text := fout.text ++ Nat.toDigits fout.base n }

end Stream

/-- A key string: thirteen characters and a decimal number, padded with zeros. -/
structure KeyName where
  front : List Char
  zeroPadding : Nat
  number : BitVec 64
  front_length : front.length = 13

def KeyName.text (key : KeyName) : List Char :=
  key.front ++ padded key.zeroPadding key.number.toNat

/-- What `print_info` is called with.  The address is the masked offset from the root,
and `none` for the root itself. -/
structure PrintedNode where
  address : Option (BitVec 48)
  depth : BitVec 32
  keys : List KeyName
  children : List (BitVec 48)
  children_ne_nil : children ≠ []

/-- The body of the loop over the keys. -/
def printKey (fout : Stream) (k : List Char) : Option Stream := do
  let fbtKey ← removeKeyIndexPrefix k
  let keyHi := (keyHi fbtKey).toNat
  let keyLo := (keyLo fbtKey).toNat
  some ((((fout.put "<").number keyHi).put ",").number keyLo |>.put "> ")

/-- The body of the loop over the children. -/
def printChild (fout : Stream) (c : BitVec 48) : Stream :=
  ((fout.hex.put "0x").number c.toNat).dec.put " "

/-- The branches of `cur == root`. -/
def printAddress (fout : Stream) : Option (BitVec 48) → Stream
  | none => fout.put "Node: 0x0 "
  | some address => ((fout.put "Node: 0x").hex.number address.toNat).dec.put " "

/-- `print_info`.  The exception of `substr` is `none`. -/
def printInfo (fout : Stream) (cur : PrintedNode) : Option Stream := do
  let fout := printAddress fout cur.address
  let fout := (((fout.put "(depth = ").number cur.depth.toNat).put ")").put "\n"
  let fout ← (cur.keys.map KeyName.text).foldlM printKey (fout.put "keys: <0,0> ")
  let fout := (fout.put "\n").put "child: "
  some ((cur.children.foldl printChild fout).put "\n")

/-- A file of nodes written one after another. -/
def printFile (nodes : List PrintedNode) : Option (List Char) :=
  (nodes.foldlM printInfo ⟨[], 10⟩).map Stream.text

/-! ## Reading -/

/-- `readline()`: the next line with its line end, and what follows it. -/
def readline (txt : List Char) : List Char × List Char :=
  match txt.span (· ≠ '\n') with
  | (line, []) => (line, [])
  | (line, newline :: rest) => (line ++ [newline], rest)

/-- Half of a key: the number 0 of the first key, and the digits of the others. -/
inductive KeyField where
  | int (n : Nat)
  | str (digits : List Char)
  deriving DecidableEq

def KeyField.value : KeyField → Option Nat
  | .int n => some n
  | .str digits => readNumber 10 digits

structure FBTNode where
  addr : Nat
  children : List Nat
  keys : List (KeyField × KeyField)
  depth : Nat
  deriving DecidableEq

/-- The loop over `range(0, len(selfkeys), 2)`. -/
def keyFields : List (List Char) → Option (List (KeyField × KeyField))
  | [] => some []
  | [_] => none
  | hi :: lo :: rest => (keyFields rest).map fun keys => (.str hi, .str lo) :: keys

/-- `readNode`: the node, or `None` at the end of the file, and what is left of the
file. An exception is `none`. -/
def readNode (txt : List Char) : Option (Option FBTNode × List Char) := do
  let (selfaddrline, txt) := readline txt
  let (selfkeysline, txt) := readline txt
  let (childrenaddrline, txt) := readline txt
  if selfaddrline = [] then some (none, txt)
  else
    let selfaddrline := words (selfaddrline.drop 6)
    let selfaddr ← selfaddrline.head?.bind readHex
    let selfdepth ← selfaddrline.getLast?.bind fun word =>
      (digitRuns word).head?.bind (readNumber 10)
    let selfkeys := (digitRuns selfkeysline).drop 2
    let childrenaddr ← (words (childrenaddrline.drop 7)).mapM readHex
    let pairs ← keyFields selfkeys
    let keys := (.int 0, .int 0) :: pairs
    let children ← padLast (16 - childrenaddr.length) childrenaddr
    let keys ← padLast (16 - keys.length) keys
    some (some ⟨selfaddr, children, keys, selfdepth⟩, txt)

/-- `while True`, up to the node that is `None`. -/
def readNodes : Nat → List Char → Option (List FBTNode)
  | 0, _ => none
  | fuel + 1, txt => do
      let (node, txt) ← readNode txt
      match node with
      | none => some []
      | some node => (readNodes fuel txt).map fun nodes => node :: nodes

/-- All nodes of a file; each of them takes a character at least. -/
def readFile (txt : List Char) : Option (List FBTNode) :=
  readNodes (txt.length + 1) txt

/-! ## What is written -/

namespace PrintedNode

variable (node : PrintedNode)

/-- The printed address; the root is at 0. -/
def addr : BitVec 64 := (node.address.map fun a => a.setWidth 64).getD 0

def numbers : List (BitVec 64) := node.keys.map KeyName.number

def childAddrs : List (BitVec 64) := node.children.map fun c => c.setWidth 64

def depthText : List Char :=
  "(depth = ".toList ++ Nat.toDigits 10 node.depth.toNat ++ [')']

def addrLine : List Char :=
  "Node: ".toList ++ childText node.addr ++ node.depthText

def keysLine : List Char :=
  "keys: <0,0> ".toList ++ node.numbers.flatMap keyText

def childLine : List Char :=
  "child: ".toList ++ node.childAddrs.flatMap childText

def record : List Char :=
  unlines [node.addrLine, node.keysLine, node.childLine]

end PrintedNode

theorem toNat_setWidth_address (address : BitVec 48) :
    (address.setWidth 64).toNat = address.toNat := by
  rw [BitVec.toNat_setWidth]
  exact Nat.mod_eq_of_lt (lt_trans address.isLt (by decide))

theorem foldlM_printKey (keys : List KeyName) (text : List Char) :
    (keys.map KeyName.text).foldlM printKey ⟨text, 10⟩ =
      some ⟨text ++ (keys.map KeyName.number).flatMap keyText, 10⟩ := by
  induction keys generalizing text with
  | nil => simp
  | cons key keys ih =>
      have hkey : printKey ⟨text, 10⟩ key.text = some ⟨text ++ keyText key.number, 10⟩ := by
        rw [printKey, KeyName.text, removeKeyIndexPrefix_padded key.front_length]
        simp [Stream.put, Stream.number, keyText]
      rw [List.map_cons, List.foldlM_cons, hkey, Option.bind_eq_bind, Option.bind_some, ih,
        List.map_cons, List.flatMap_cons, List.append_assoc]

theorem foldl_printChild (children : List (BitVec 48)) (text : List Char) :
    children.foldl printChild ⟨text, 10⟩ =
      ⟨text ++ (children.map fun c => c.setWidth 64).flatMap childText, 10⟩ := by
  induction children generalizing text with
  | nil => simp
  | cons c children ih =>
      have hchild : printChild ⟨text, 10⟩ c = ⟨text ++ childText (c.setWidth 64), 10⟩ := by
        rw [childText, toNat_setWidth_address]
        simp [printChild, Stream.put, Stream.number, Stream.hex, Stream.dec]
      rw [List.foldl_cons, hchild, ih, List.map_cons, List.flatMap_cons, List.append_assoc]

theorem printAddress_eq (text : List Char) (node : PrintedNode) :
    printAddress ⟨text, 10⟩ node.address =
      ⟨text ++ "Node: ".toList ++ childText node.addr, 10⟩ := by
  cases haddress : node.address with
  | none =>
      have hzero : childText 0#64 = "0x0 ".toList := by decide
      rw [PrintedNode.addr, haddress, Option.map_none, Option.getD_none]
      simp [printAddress, hzero, Stream.put]
  | some address =>
      rw [PrintedNode.addr, haddress, Option.map_some, Option.getD_some, childText,
        toNat_setWidth_address]
      simp [printAddress, Stream.put, Stream.number, Stream.hex, Stream.dec]

theorem printInfo_eq (text : List Char) (node : PrintedNode) :
    printInfo ⟨text, 10⟩ node = some ⟨text ++ node.record, 10⟩ := by
  rw [printInfo, printAddress_eq]
  simp only [Stream.put, Stream.number]
  rw [foldlM_printKey]
  have hbracket : ")".toList = [')'] := rfl
  have hnewline : "\n".toList = ['\n'] := rfl
  unfold PrintedNode.record PrintedNode.addrLine PrintedNode.keysLine PrintedNode.childLine
    PrintedNode.depthText
  simp only [Option.bind_eq_bind, Option.bind_some, foldl_printChild, unlines, List.flatMap_cons,
    List.flatMap_nil, PrintedNode.numbers, PrintedNode.childAddrs, List.append_assoc,
    List.append_nil, hbracket, hnewline]

theorem foldlM_printInfo (nodes : List PrintedNode) (text : List Char) :
    nodes.foldlM printInfo ⟨text, 10⟩ =
      some ⟨text ++ nodes.flatMap PrintedNode.record, 10⟩ := by
  induction nodes generalizing text with
  | nil => simp
  | cons node nodes ih =>
      rw [List.foldlM_cons, printInfo_eq, Option.bind_eq_bind, Option.bind_some, ih,
        List.flatMap_cons, List.append_assoc]

theorem printFile_eq (nodes : List PrintedNode) :
    printFile nodes = some (nodes.flatMap PrintedNode.record) := by
  rw [printFile, foldlM_printInfo]
  rfl

/-! ## What is read -/

/-- Padding to sixteen entries by the last one. -/
def toSixteen {α : Type} (xs : List α) : List α :=
  match xs.getLast? with
  | none => []
  | some last => xs ++ List.replicate (16 - xs.length) last

/-- The number of a pair of halves. -/
def joined (key : KeyField × KeyField) : Option Nat := do
  let hi ← key.1.value
  let lo ← key.2.value
  return hi * 2 ^ 32 + lo

/-- What a node that was read has of the node that was written. -/
structure Describes (node : PrintedNode) (read : FBTNode) : Prop where
  addr : read.addr = node.addr.toNat
  depth : read.depth = node.depth.toNat
  children : read.children = toSixteen (node.childAddrs.map BitVec.toNat)
  keys : read.keys.map joined = (toSixteen (0 :: node.numbers.map BitVec.toNat)).map some

/-! ## Lines -/

theorem readline_line {line : List Char} (whole : '\n' ∉ line) (rest : List Char) :
    readline (line ++ '\n' :: rest) = (line ++ ['\n'], rest) := by
  have hkept : ∀ c ∈ line, decide (c ≠ '\n') = true := by
    intro c hc
    exact decide_eq_true fun heq => whole (heq ▸ hc)
  have hspan : (line ++ '\n' :: rest).span (· ≠ '\n') = (line, '\n' :: rest) := by
    rw [List.span_eq_takeWhile_dropWhile, List.takeWhile_append_of_pos hkept,
      List.dropWhile_append_of_pos hkept]
    simp
  rw [readline, hspan]

theorem newline_notMem_depthText (node : PrintedNode) : '\n' ∉ node.depthText := by
  have hdigits := newline_notMem_toDigits .ten node.depth.toNat
  unfold PrintedNode.depthText
  simp [hdigits]

theorem newline_notMem_addrLine (node : PrintedNode) : '\n' ∉ node.addrLine := by
  have haddr := newline_notMem_childText node.addr
  have hdepth := newline_notMem_depthText node
  unfold PrintedNode.addrLine
  simp [haddr, hdepth]

theorem newline_notMem_keysLine (node : PrintedNode) : '\n' ∉ node.keysLine := by
  have hkeys := newline_notMem_flatMap newline_notMem_keyText node.numbers
  have hhead : '\n' ∉ "keys: <0,0> ".toList := by decide
  exact fun hmem => (List.mem_append.mp hmem).elim hhead hkeys

theorem newline_notMem_childLine (node : PrintedNode) : '\n' ∉ node.childLine := by
  have hchildren := newline_notMem_flatMap newline_notMem_childText node.childAddrs
  have hhead : '\n' ∉ "child: ".toList := by decide
  exact fun hmem => (List.mem_append.mp hmem).elim hhead hchildren

/-! ## The words and the runs of digits of a line -/

theorem words_addrLine (node : PrintedNode) :
    words ((node.addrLine ++ ['\n']).drop 6) =
      [('0' :: 'x' :: Nat.toDigits 16 node.addr.toNat), "(depth".toList, ['='],
        Nat.toDigits 10 node.depth.toNat ++ [')']] := by
  have hdrop : (node.addrLine ++ ['\n']).drop 6 =
      childText node.addr ++ ("(depth".toList ++ ' ' :: (['='] ++ ' ' ::
        ((Nat.toDigits 10 node.depth.toNat ++ [')']) ++ '\n' :: []))) := by
    unfold PrintedNode.addrLine PrintedNode.depthText
    simp
  have hletters : ∀ c ∈ Nat.toDigits 10 node.depth.toNat ++ [')'], c.isWhitespace = false := by
    intro c hc
    rcases List.mem_append.mp hc with hdigit | hbracket
    · exact (isNumeral_of_mem_toDigits .ten hdigit).not_isWhitespace
    · obtain rfl := List.mem_singleton.mp hbracket
      rfl
  have hdepth : ∀ c ∈ "(depth".toList, c.isWhitespace = false := by simp [Char.isWhitespace]
  have hequals : ∀ c ∈ ['='], c.isWhitespace = false := List.forall_mem_singleton.mpr rfl
  rw [hdrop, words_childText, words_append_blank rfl, words_append_blank rfl,
    words_append_blank rfl, words_of_letters (by simp) hletters,
    words_of_letters (by decide) hdepth, words_of_letters (by decide) hequals, words_nil]
  rfl

theorem digitRuns_depth (node : PrintedNode) :
    digitRuns (Nat.toDigits 10 node.depth.toNat ++ [')']) =
      [Nat.toDigits 10 node.depth.toNat] := by
  rw [digitRuns_append rfl, digitRuns_toDigits, digitRuns_nil, List.append_nil]

theorem digitRuns_keysLine (node : PrintedNode) :
    (digitRuns (node.keysLine ++ ['\n'])).drop 2 = digitRuns (node.numbers.flatMap keyText) := by
  unfold PrintedNode.keysLine
  rw [digitRuns_append rfl, digitRuns_head, digitRuns_nil, List.append_nil]
  rfl

theorem words_childLine (node : PrintedNode) :
    words ((node.childLine ++ ['\n']).drop 7) = words (node.childAddrs.flatMap childText) := by
  have hdrop : (node.childLine ++ ['\n']).drop 7 =
      node.childAddrs.flatMap childText ++ '\n' :: [] := rfl
  rw [hdrop, words_append_blank rfl, words_nil, List.append_nil]

/-- The fields of a key, as its two runs of digits. -/
def keyField (number : BitVec 64) : KeyField × KeyField :=
  (.str (Nat.toDigits 10 (keyHi number).toNat), .str (Nat.toDigits 10 (keyLo number).toNat))

theorem keyFields_keyText (numbers : List (BitVec 64)) :
    keyFields (digitRuns (numbers.flatMap keyText)) = some (numbers.map keyField) := by
  induction numbers with
  | nil => rfl
  | cons number rest ih =>
      rw [List.flatMap_cons, digitRuns_keyText, keyFields, ih]
      rfl

theorem joined_keyField (number : BitVec 64) : joined (keyField number) = some number.toNat := by
  have hjoin := halves_join number
  rw [Nat.shiftLeft_eq] at hjoin
  simp only [joined, keyField, KeyField.value, readNumber_decimal, Option.bind_eq_bind,
    Option.bind_some, Option.pure_def, hjoin]

/-! ## Padding -/

theorem map_toSixteen {α β : Type} (f : α → β) (xs : List α) :
    (toSixteen xs).map f = toSixteen (xs.map f) := by
  cases hlast : xs.getLast? with
  | none => simp [toSixteen, hlast]
  | some last => simp [toSixteen, hlast]

theorem padLast_toSixteen {α : Type} {xs : List α} (hne : xs ≠ []) :
    padLast (16 - xs.length) xs = some (toSixteen xs) := by
  have hlast := List.getLast?_eq_some_getLast hne
  rw [padLast_eq _ hlast, toSixteen, hlast]

/-! ## The round trip -/

namespace PrintedNode

variable (node : PrintedNode)

/-- What `readNode` makes of the record. -/
def loaded : FBTNode where
  addr := node.addr.toNat
  children := toSixteen (node.childAddrs.map BitVec.toNat)
  keys := toSixteen ((.int 0, .int 0) :: node.numbers.map keyField)
  depth := node.depth.toNat

theorem describes_loaded : Describes node node.loaded where
  addr := rfl
  depth := rfl
  children := rfl
  keys := by
    have hnumbers : (node.numbers.map keyField).map joined =
        (node.numbers.map BitVec.toNat).map some := by
      rw [List.map_map, List.map_map]
      exact List.map_congr_left fun number _ => joined_keyField number
    rw [loaded, map_toSixteen, map_toSixteen, List.map_cons, List.map_cons, hnumbers]
    rfl

theorem record_append (rest : List Char) :
    node.record ++ rest =
      node.addrLine ++ '\n' :: (node.keysLine ++ '\n' :: (node.childLine ++ '\n' :: rest)) := by
  simp [record, unlines]

end PrintedNode

/-- A record is read whole, whatever follows it. -/
theorem readNode_record (node : PrintedNode) (rest : List Char) :
    readNode (node.record ++ rest) = some (some node.loaded, rest) := by
  have hline : node.addrLine ++ ['\n'] ≠ [] := by simp
  have haddr : readHex ('0' :: 'x' :: Nat.toDigits 16 node.addr.toNat) = some node.addr.toNat :=
    readHex_childText node.addr
  have hchildren : node.childAddrs.map BitVec.toNat ≠ [] := by
    simpa [PrintedNode.childAddrs] using node.children_ne_nil
  have hkeys := padLast_toSixteen
    (List.cons_ne_nil (KeyField.int 0, KeyField.int 0) (node.numbers.map keyField))
  rw [PrintedNode.record_append, readNode]
  simp only [readline_line (newline_notMem_addrLine node),
    readline_line (newline_notMem_keysLine node), readline_line (newline_notMem_childLine node),
    if_neg hline, words_addrLine, words_childLine, digitRuns_keysLine, mapM_readHex,
    keyFields_keyText, padLast_toSixteen hchildren, hkeys, List.head?_cons, Option.bind_some,
    List.getLast?_cons_cons, List.getLast?_singleton, digitRuns_depth, haddr, readNumber_decimal,
    Option.bind_eq_bind, PrintedNode.loaded]

theorem readNodes_records (nodes : List PrintedNode) {fuel : Nat} (hfuel : nodes.length < fuel) :
    readNodes fuel (nodes.flatMap PrintedNode.record) =
      some (nodes.map PrintedNode.loaded) := by
  induction nodes generalizing fuel with
  | nil =>
      obtain ⟨fuel, rfl⟩ := Nat.exists_eq_succ_of_ne_zero (Nat.ne_of_gt hfuel)
      rfl
  | cons node nodes ih =>
      obtain ⟨fuel, rfl⟩ := Nat.exists_eq_succ_of_ne_zero (Nat.ne_zero_of_lt hfuel)
      rw [List.flatMap_cons, readNodes, readNode_record, Option.bind_eq_bind, Option.bind_some]
      simp only [ih (Nat.lt_of_succ_lt_succ hfuel), Option.map_some, List.map_cons]

theorem length_le_records (nodes : List PrintedNode) :
    nodes.length ≤ (nodes.flatMap PrintedNode.record).length := by
  induction nodes with
  | nil => exact Nat.le_refl _
  | cons node nodes ih =>
      have hrecord : 1 ≤ node.record.length := by
        have hlines := congrArg List.length (node.record_append [])
        simp only [List.length_append, List.length_cons, List.length_nil] at hlines
        omega
      rw [List.flatMap_cons, List.length_append, List.length_cons]
      omega

theorem readFile_records (nodes : List PrintedNode) :
    readFile (nodes.flatMap PrintedNode.record) = some (nodes.map PrintedNode.loaded) :=
  readNodes_records nodes (Nat.lt_succ_of_le (length_le_records nodes))

/-- `get_keys.py` reads the first record of a file. -/
theorem readInfo_record (node : PrintedNode) (rest : List Char) :
    readInfo (node.record ++ rest) =
      some (0 :: node.numbers.map BitVec.toNat, node.childAddrs.map BitVec.toNat) := by
  have hwhole : ∀ line ∈ [node.addrLine, node.keysLine, node.childLine], '\n' ∉ line := by
    intro line hline
    rw [List.mem_cons, List.mem_cons, List.mem_singleton] at hline
    rcases hline with rfl | rfl | rfl
    · exact newline_notMem_addrLine node
    · exact newline_notMem_keysLine node
    · exact newline_notMem_childLine node
  have hlines : linesOf (node.record ++ rest) =
      [node.addrLine, node.keysLine, node.childLine] ++ linesOf rest :=
    linesOf_unlines_append hwhole rest
  have haddrWord : (words (node.addrLine.drop 6)).head? =
      some ('0' :: 'x' :: Nat.toDigits 16 node.addr.toNat) := by
    have hdrop : node.addrLine.drop 6 = childText node.addr ++ node.depthText := rfl
    rw [hdrop, words_childText]
    rfl
  have hkeys : joinPairs (digitRuns node.keysLine) = some (0 :: node.numbers.map BitVec.toNat) :=
    joinPairs_line node.numbers
  have hdrop : node.childLine.drop 7 = node.childAddrs.flatMap childText := rfl
  simp only [readInfo, hlines, List.cons_append, List.getD_cons_zero, List.getD_cons_succ,
    haddrWord, hkeys, hdrop, mapM_readHex, readHex_childText, Option.bind_eq_bind,
    Option.bind_some, Option.pure_def]

/-- Nodes written one after another are read back, and the merging script reads the keys
of the first. -/
theorem nodeInfo_roundTrip (nodes : List PrintedNode) :
    ∃ text read, printFile nodes = some text ∧ readFile text = some read ∧
      List.Forall₂ Describes nodes read ∧
      ∀ first rest, nodes = first :: rest →
        (readInfo text).map Prod.fst = some (0 :: first.numbers.map BitVec.toNat) := by
  refine ⟨_, _, printFile_eq nodes, readFile_records nodes, ?_, ?_⟩
  · rw [List.forall₂_map_right_iff]
    exact List.forall₂_same.mpr fun node _ => node.describes_loaded
  · rintro first rest rfl
    rw [List.flatMap_cons, readInfo_record]
    rfl

end FatBTree.Sram.NodeInfo
