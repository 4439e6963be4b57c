import FatBTree.Sram.Compare
import FatBTree.Text.Words

/-!
# The fat root in `node_info_0_s.txt`

A server prints its fat root as three lines.  The merging script reads the numbers of
the second line in pairs and the words of the third.
-/

namespace FatBTree.Tcam

open FatBTree.Text FatBTree.Sram

/-- The fat root of one of the four servers: its keys lie in the part of the server, and
there is one child more than keys. -/
structure FatRoot (server : Fin 4) where
  keys : List (BitVec 64)
  children : List (BitVec 64)
  increasing : keys.Pairwise (· < ·)
  part : ∀ key ∈ keys, (key >>> 62).toNat = server.val
  children_length : children.length = keys.length + 1

/-! ## `print_info` -/

def keyText (key : BitVec 64) : List Char :=
  '<' :: Nat.toDigits 10 (keyHi key).toNat ++ ',' :: Nat.toDigits 10 (keyLo key).toNat ++ ['>', ' ']

def childText (address : BitVec 64) : List Char :=
  '0' :: 'x' :: Nat.toDigits 16 address.toNat ++ [' ']

/-- The three lines that `print_info` writes for the root, at virtual depth 0. -/
def printInfo (keys children : List (BitVec 64)) : List (List Char) :=
  ["Node: 0x0 (depth = 0)".toList,
    "keys: <0,0> ".toList ++ keys.flatMap keyText,
    "child: ".toList ++ children.flatMap childText]

/-- The file of a server: the fat root comes first. -/
def FatRoot.nodeInfo {server : Fin 4} (root : FatRoot server) (rest : List Char) : List Char :=
  unlines (printInfo root.keys root.children) ++ rest

/-! ## Reading it -/

/-- `re.findall(r'\d+', line)`. -/
def digitRuns (line : List Char) : List (List Char) :=
  (line.splitOnP (fun c => !c.isDigit)).filter (· ≠ [])

/-- `int(x, 16)` of a word, which may start with `0x`. -/
def readHex (word : List Char) : Option Nat :=
  match word with
  | '0' :: 'x' :: digits => readNumber 16 digits
  | _ => readNumber 16 word

/-- The loop over `range(0, len(selfkeys), 2)`. -/
def joinPairs : List (List Char) → Option (List Nat)
  | [] => some []
  | [_] => none
  | hi :: lo :: rest => do
      let hi ← readNumber 10 hi
      let lo ← readNumber 10 lo
      let keys ← joinPairs rest
      return ((hi <<< 32) + lo) :: keys

/-- What the script reads of one file: the keys, with the zero key first, and the
addresses of the children. -/
def readInfo (info : List Char) : Option (List Nat × List Nat) := do
  let lines := linesOf info
  let selfaddrline := lines.getD 0 []
  let selfkeysline := lines.getD 1 []
  let childrenaddrline := lines.getD 2 []
  let selfaddr ← (words (selfaddrline.drop 6)).head?
  let _ ← readHex selfaddr
  let keys ← joinPairs (digitRuns selfkeysline)
  let childrenaddr ← (words (childrenaddrline.drop 7)).mapM readHex
  return (keys, childrenaddr)

/-! ## Runs of digits -/

@[simp]
theorem digitRuns_nil : digitRuns [] = [] := rfl

theorem digitRuns_append {sep : Char} (hsep : sep.isDigit = false) (first rest : List Char) :
    digitRuns (first ++ sep :: rest) = digitRuns first ++ digitRuns rest := by
  have hcut : (!sep.isDigit) = true := by rw [hsep]; rfl
  rw [digitRuns, List.splitOnP_append_cons first rest hcut, List.filter_append]
  rfl

theorem digitRuns_cons {sep : Char} (hsep : sep.isDigit = false) (rest : List Char) :
    digitRuns (sep :: rest) = digitRuns rest :=
  digitRuns_append hsep [] rest

theorem digitRuns_toDigits (n : Nat) :
    digitRuns (Nat.toDigits 10 n) = [Nat.toDigits 10 n] := by
  have hdigits : ∀ c ∈ Nat.toDigits 10 n, (!c.isDigit) = false := by
    intro c hc
    rw [isDigit_of_mem_decimal hc]
    rfl
  rw [digitRuns, List.splitOnP_eq_singleton hdigits]
  simp [Nat.toDigits_ne_nil]

theorem digitRuns_keyText (key : BitVec 64) (rest : List Char) :
    digitRuns (keyText key ++ rest) =
      Nat.toDigits 10 (keyHi key).toNat :: Nat.toDigits 10 (keyLo key).toNat :: digitRuns rest := by
  have htext : keyText key ++ rest = '<' :: (Nat.toDigits 10 (keyHi key).toNat ++
      ',' :: (Nat.toDigits 10 (keyLo key).toNat ++ '>' :: ' ' :: rest)) := by
    simp [keyText]
  rw [htext, digitRuns_cons rfl, digitRuns_append rfl, digitRuns_append rfl, digitRuns_cons rfl,
    digitRuns_toDigits, digitRuns_toDigits]
  rfl

theorem digitRuns_head (rest : List Char) :
    digitRuns ("keys: <0,0> ".toList ++ rest) = ['0'] :: ['0'] :: digitRuns rest := by
  have htext : "keys: <0,0> ".toList ++ rest =
      'k' :: 'e' :: 'y' :: 's' :: ':' :: ' ' :: (keyText 0 ++ rest) := rfl
  rw [htext, digitRuns_cons rfl, digitRuns_cons rfl, digitRuns_cons rfl, digitRuns_cons rfl,
    digitRuns_cons rfl, digitRuns_cons rfl, digitRuns_keyText]
  rfl

theorem halves_join (key : BitVec 64) :
    ((keyHi key).toNat <<< 32) + (keyLo key).toNat = key.toNat := by
  rw [keyHi_toNat, keyLo_toNat, Nat.shiftLeft_eq]
  exact Nat.div_add_mod' _ _

theorem joinPairs_keys (keys : List (BitVec 64)) :
    joinPairs (digitRuns (keys.flatMap keyText)) = some (keys.map BitVec.toNat) := by
  induction keys with
  | nil => rfl
  | cons key rest ih =>
      rw [List.flatMap_cons, digitRuns_keyText, joinPairs, readNumber_decimal, readNumber_decimal, ih]
      exact congrArg (fun first => some (first :: rest.map BitVec.toNat)) (halves_join key)

/-- The keys line gives the zero key and the keys. -/
theorem joinPairs_line (keys : List (BitVec 64)) :
    joinPairs (digitRuns ("keys: <0,0> ".toList ++ keys.flatMap keyText)) =
      some (0 :: keys.map BitVec.toNat) := by
  have hzero : readNumber 10 ['0'] = some 0 := readNumber_decimal 0
  rw [digitRuns_head, joinPairs, hzero, joinPairs_keys]
  rfl

/-! ## Words of the children line -/

theorem readHex_childText (address : BitVec 64) :
    readHex ('0' :: 'x' :: Nat.toDigits 16 address.toNat) = some address.toNat :=
  readNumber_toDigits .sixteen address.toNat

theorem words_childText (address : BitVec 64) (rest : List Char) :
    words (childText address ++ rest) =
      ('0' :: 'x' :: Nat.toDigits 16 address.toNat) :: words rest := by
  have hletters : ∀ c ∈ '0' :: 'x' :: Nat.toDigits 16 address.toNat, c.isWhitespace = false := by
    intro c hc
    rcases List.mem_cons.mp hc with rfl | hc
    · rfl
    · rcases List.mem_cons.mp hc with rfl | hc
      · rfl
      · exact (isNumeral_of_mem_toDigits .sixteen hc).not_isWhitespace
  have htext : childText address ++ rest =
      ('0' :: 'x' :: Nat.toDigits 16 address.toNat) ++ ' ' :: rest := by
    simp [childText]
  rw [htext, words_append_blank rfl, words_of_letters (List.cons_ne_nil _ _) hletters]
  rfl

theorem mapM_readHex (children : List (BitVec 64)) :
    (words (children.flatMap childText)).mapM readHex = some (children.map BitVec.toNat) := by
  induction children with
  | nil => rfl
  | cons address rest ih =>
      rw [List.flatMap_cons, words_childText, List.mapM_cons, readHex_childText, ih]
      rfl

/-! ## Lines of the file -/

theorem newline_notMem_keyText (key : BitVec 64) : '\n' ∉ keyText key := by
  have hhi : '\n' ∉ Nat.toDigits 10 (keyHi key).toNat :=
    newline_notMem_toDigits .ten _
  have hlo : '\n' ∉ Nat.toDigits 10 (keyLo key).toNat :=
    newline_notMem_toDigits .ten _
  simp [keyText, hhi, hlo]

theorem newline_notMem_childText (address : BitVec 64) : '\n' ∉ childText address := by
  have hdigits : '\n' ∉ Nat.toDigits 16 address.toNat :=
    newline_notMem_toDigits .sixteen _
  simp [childText, hdigits]

theorem printInfo_whole (keys children : List (BitVec 64)) :
    ∀ line ∈ printInfo keys children, '\n' ∉ line := by
  have hkeys := newline_notMem_flatMap newline_notMem_keyText keys
  have hchildren := newline_notMem_flatMap newline_notMem_childText children
  have hnode : '\n' ∉ "Node: 0x0 (depth = 0)".toList := by decide
  have hkeyHead : '\n' ∉ "keys: <0,0> ".toList := by decide
  have hchildHead : '\n' ∉ "child: ".toList := by decide
  intro line hline
  rw [printInfo, List.mem_cons, List.mem_cons, List.mem_singleton] at hline
  rcases hline with rfl | rfl | rfl
  · exact hnode
  · exact fun hmem => (List.mem_append.mp hmem).elim hkeyHead hkeys
  · exact fun hmem => (List.mem_append.mp hmem).elim hchildHead hchildren

/-- The lines of a fat root read back, whatever follows them. -/
theorem readInfo_printInfo (keys children : List (BitVec 64)) (rest : List Char) :
    readInfo (unlines (printInfo keys children) ++ rest) =
      some (0 :: keys.map BitVec.toNat, children.map BitVec.toNat) := by
  have hlines : linesOf (unlines (printInfo keys children) ++ rest) =
      printInfo keys children ++ linesOf rest :=
    linesOf_unlines_append (printInfo_whole _ _) rest
  have haddr : (words ("Node: 0x0 (depth = 0)".toList.drop 6)).head? = some "0x0".toList := by
    decide
  have hzero : readHex "0x0".toList = some 0 := by decide
  have hdrop : ("child: ".toList ++ children.flatMap childText).drop 7 =
      children.flatMap childText := rfl
  rw [readInfo, hlines]
  simp only [printInfo, List.cons_append, List.getD_cons_zero,
    List.getD_cons_succ, haddr, hzero, joinPairs_line, hdrop, mapM_readHex, Option.bind_eq_bind,
    Option.bind_some, Option.pure_def]

/-- The script reads back the fat root. -/
theorem readInfo_nodeInfo {server : Fin 4} (root : FatRoot server) (rest : List Char) :
    readInfo (root.nodeInfo rest) =
      some (0 :: root.keys.map BitVec.toNat, root.children.map BitVec.toNat) :=
  readInfo_printInfo root.keys root.children rest

end FatBTree.Tcam
