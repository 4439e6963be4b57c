import FatBTree.Order.Merge
import FatBTree.Tcam.KeyInfo
import FatBTree.Tcam.NodeInfo
import FatBTree.Workload.KeyName

/-!
# Merging the four fat roots

The keys of the four servers go to one line, with a separator between two servers, and
the children to the next.  The line end comes with the last key of the fourth server.
-/

namespace FatBTree.Tcam

open FatBTree.Order FatBTree.Text FatBTree.Workload

/-! ## `get_keys.py` -/

/-- `print(k, end = ' ')` for every number. -/
def printSpaced (numbers : List Nat) : List Char :=
  numbers.flatMap (fun n => Nat.toDigits 10 n ++ [' '])

/-- The loop over `keys_4[1:]`, which ends the line at `keys_4[-1]`. -/
def printLast (keys : List Nat) : List Char :=
  keys.tail.flatMap (fun k =>
    Nat.toDigits 10 k ++ [if some k = keys.getLast? then '\n' else ' '])

/-- The script, from the texts of the four files to the text of `keyinfo.txt`. -/
def getKeys (info : Fin 4 → List Char) : Option (List Char) := do
  let (keys1, childrenaddr1) ← readInfo (info 0)
  let (keys2, childrenaddr2) ← readInfo (info 1)
  let (keys3, childrenaddr3) ← readInfo (info 2)
  let (keys4, childrenaddr4) ← readInfo (info 3)
  return printSpaced keys1.tail ++ printSpaced [1 * 2 ^ 62] ++
    printSpaced keys2.tail ++ printSpaced [2 * 2 ^ 62] ++
    printSpaced keys3.tail ++ printSpaced [3 * 2 ^ 62] ++ printLast keys4 ++
    printSpaced childrenaddr1 ++ printSpaced childrenaddr2 ++
    printSpaced childrenaddr3 ++ printSpaced childrenaddr4

/-! ## Its readers -/

/-- The loop of `config.py` that fills `set_addr_table`, from the second line. -/
def setAddrTable (keyinfo : List Char) : Option (List Nat) :=
  readNumbers 10 ((linesOf keyinfo).getD 1 [])

/-- `get_part_id`. -/
def getPartId (key : List Char) : Option (BitVec 8) :=
  (removeKeyIndexPrefix key).map (fun (ret : BitVec 64) => (ret >>> 62).setWidth 8)

namespace FatRoot

variable {server : Fin 4} (root : FatRoot server)

/-- The number of keys below `x`. -/
def below (x : BitVec 64) : Nat :=
  root.keys.countP (fun key => decide (key < x))

theorem below_lt (x : BitVec 64) : root.below x < root.children.length := by
  rw [root.children_length]
  exact Nat.lt_succ_of_le List.countP_le_length

/-- Child number `#{k in K_s < x}`. -/
def childFor (x : BitVec 64) : BitVec 64 :=
  root.children.get ⟨root.below x, root.below_lt x⟩

theorem children_ne_nil : root.children ≠ [] := by
  intro hnil
  have hlength := root.children_length
  rw [hnil] at hlength
  cases hlength

def firstChild : BitVec 64 := root.children.head root.children_ne_nil

def lastChild : BitVec 64 := root.children.getLast root.children_ne_nil

end FatRoot

section

variable (roots : (server : Fin 4) → FatRoot server)

def rootKeys (server : Fin 4) : List Nat := (roots server).keys.map BitVec.toNat

def rootChildren (server : Fin 4) : List Nat := (roots server).children.map BitVec.toNat

/-- The merged boundary list. -/
def mergedKeys : List Nat :=
  rootKeys roots 0 ++ 1 * 2 ^ 62 :: (rootKeys roots 1 ++
    2 * 2 ^ 62 :: (rootKeys roots 2 ++ 3 * 2 ^ 62 :: rootKeys roots 3))

/-- The concatenated child list. -/
def mergedChildren : List Nat :=
  rootChildren roots 0 ++ (rootChildren roots 1 ++ (rootChildren roots 2 ++ rootChildren roots 3))

/-- The two lines read back as the merged lists, and they send `x` to the child that the
server of `x` sends it to. -/
structure MergeSafe (keyinfo : List Char) (zeroPadding : Nat) (x : BitVec 64) : Prop where
  boundaries : readKeys keyinfo.length keyinfo = mergedKeys roots
  addresses : setAddrTable keyinfo = some (mergedChildren roots)
  routed : ∃ server : Fin 4, getPartId (keyString zeroPadding x) = some (BitVec.ofNat 8 server) ∧
    (mergedChildren roots)[countBelow (mergedKeys roots) x.toNat]? =
      some ((roots server).childFor x).toNat

/-! ## Where the merged lists send a key -/

theorem rootKeys_bounds (server : Fin 4) :
    ∀ key ∈ rootKeys roots server, server * 2 ^ 62 ≤ key ∧ key < (server + 1) * 2 ^ 62 := by
  intro key hkey
  obtain ⟨word, hword, rfl⟩ := List.mem_map.mp hkey
  have hpart := (roots server).part word hword
  rw [BitVec.toNat_ushiftRight, Nat.shiftRight_eq_div_pow] at hpart
  omega

theorem length_rootChildren (server : Fin 4) :
    (rootChildren roots server).length = (rootKeys roots server).length + 1 := by
  rw [rootChildren, rootKeys, List.length_map, List.length_map, (roots server).children_length]

theorem countBelow_rootKeys (server : Fin 4) (x : BitVec 64) :
    countBelow (rootKeys roots server) x.toNat = (roots server).below x := by
  rw [countBelow, rootKeys, List.countP_map]
  rfl

theorem rootChildren_getElem? (server : Fin 4) (x : BitVec 64) :
    (rootChildren roots server)[countBelow (rootKeys roots server) x.toNat]? =
      some ((roots server).childFor x).toNat := by
  rw [countBelow_rootKeys, rootChildren, List.getElem?_map,
    List.getElem?_eq_getElem ((roots server).below_lt x), Option.map_some]
  rfl

/-- The server whose piece ends at `x` or later: its right edge belongs to it. -/
def holder (x : BitVec 64) : Fin 4 :=
  ⟨(x.toNat - 1) / 2 ^ 62, by have hx := x.isLt; omega⟩

theorem mergedFrom2_ge :
    ∀ key ∈ rootKeys roots 2 ++ 3 * 2 ^ 62 :: rootKeys roots 3, 2 * 2 ^ 62 ≤ key := by
  intro key hkey
  rcases List.mem_append.mp hkey with hkey | hkey
  · exact (rootKeys_bounds roots 2 key hkey).1
  · rcases List.mem_cons.mp hkey with rfl | hkey
    · decide
    · exact Nat.le_trans (by decide) (rootKeys_bounds roots 3 key hkey).1

theorem mergedFrom1_ge :
    ∀ key ∈ rootKeys roots 1 ++ 2 * 2 ^ 62 :: (rootKeys roots 2 ++ 3 * 2 ^ 62 :: rootKeys roots 3),
      1 * 2 ^ 62 ≤ key := by
  intro key hkey
  rcases List.mem_append.mp hkey with hkey | hkey
  · exact (rootKeys_bounds roots 1 key hkey).1
  · rcases List.mem_cons.mp hkey with rfl | hkey
    · decide
    · exact Nat.le_trans (by decide) (mergedFrom2_ge roots key hkey)

theorem merged_getElem? (x : BitVec 64) :
    (mergedChildren roots)[countBelow (mergedKeys roots) x.toNat]? =
      some ((roots (holder x)).childFor x).toNat := by
  have hx := x.isLt
  have hmore : ∀ server, (rootKeys roots server).length < (rootChildren roots server).length :=
    fun server => (length_rootChildren roots server).symm ▸ Nat.lt_succ_self _
  have hholder : ∀ server : Fin 4, (x.toNat - 1) / 2 ^ 62 = server → holder x = server :=
    fun server heq => Fin.ext heq
  have habove1 := mergedFrom1_ge roots
  have habove2 := mergedFrom2_ge roots
  have habove3 : ∀ key ∈ rootKeys roots 3, 3 * 2 ^ 62 ≤ key :=
    fun key hkey => (rootKeys_bounds roots 3 key hkey).1
  rw [mergedKeys, mergedChildren]
  rcases Nat.lt_or_ge (1 * 2 ^ 62) x.toNat with h1 | h1
  · rw [getElem?_join_of_lt (length_rootChildren roots 0) h1
      (fun key hkey => (rootKeys_bounds roots 0 key hkey).2)]
    rcases Nat.lt_or_ge (2 * 2 ^ 62) x.toNat with h2 | h2
    · rw [getElem?_join_of_lt (length_rootChildren roots 1) h2
        (fun key hkey => (rootKeys_bounds roots 1 key hkey).2)]
      rcases Nat.lt_or_ge (3 * 2 ^ 62) x.toNat with h3 | h3
      · rw [getElem?_join_of_lt (length_rootChildren roots 2) h3
          (fun key hkey => (rootKeys_bounds roots 2 key hkey).2), rootChildren_getElem?,
          hholder 3 (by omega)]
      · rw [getElem?_join_of_le (hmore 2) h3 habove3, rootChildren_getElem?,
          hholder 2 (by omega)]
    · rw [getElem?_join_of_le (hmore 1) h2 habove2, rootChildren_getElem?,
        hholder 1 (by omega)]
  · rw [getElem?_join_of_le (hmore 0) h1 habove1, rootChildren_getElem?,
      hholder 0 (by omega)]

end

/-! ## The text of `keyinfo.txt` -/

theorem printSpaced_append (first rest : List Nat) :
    printSpaced (first ++ rest) = printSpaced first ++ printSpaced rest :=
  List.flatMap_append

theorem spaced_concat (front : List Nat) (last : Nat) :
    spaced 10 (front ++ [last]) = printSpaced front ++ Nat.toDigits 10 last := by
  induction front with
  | nil => rfl
  | cons n rest ih =>
      have hspaced : spaced 10 (n :: (rest ++ [last])) =
          Nat.toDigits 10 n ++ ' ' :: spaced 10 (rest ++ [last]) := by
        cases rest <;> rfl
      rw [List.cons_append, hspaced, ih, printSpaced, printSpaced, List.flatMap_cons,
        List.append_assoc, List.append_assoc]
      rfl

theorem printLast_concat {front : List Nat} {last : Nat} (before : ∀ k ∈ front, k ≠ last) :
    printLast (0 :: (front ++ [last])) = printSpaced front ++ Nat.toDigits 10 last ++ ['\n'] := by
  have hlast : (0 :: (front ++ [last])).getLast? = some last := by
    rw [← List.cons_append, List.getLast?_concat]
  have hfront : front.flatMap (fun k =>
      Nat.toDigits 10 k ++ [if some k = some last then '\n' else ' ']) = printSpaced front := by
    refine List.flatMap_congr (fun k hk => ?_)
    rw [if_neg (fun heq => before k hk (Option.some.inj heq))]
  rw [printLast, hlast, List.tail_cons, List.flatMap_append, hfront, List.flatMap_singleton,
    if_pos rfl, List.append_assoc]

theorem readKeys_printSpaced {numbers : List Nat} (small : ∀ n ∈ numbers, n ≤ uint64Max)
    {fuel : Nat} (hfuel : numbers.length ≤ fuel) : readKeys fuel (printSpaced numbers) = numbers := by
  induction numbers generalizing fuel with
  | nil => exact readKeys_nil fuel
  | cons n rest ih =>
      cases fuel with
      | zero => cases hfuel
      | succ fuel =>
          have htext : printSpaced (n :: rest) = Nat.toDigits 10 n ++ ' ' :: printSpaced rest := by
            rw [printSpaced, List.flatMap_cons, List.append_assoc]
            rfl
          rw [htext, readKeys_digits (small n List.mem_cons_self) rfl, if_neg (by decide),
            ih (fun m hm => small m (List.mem_cons_of_mem _ hm)) (Nat.le_of_succ_le_succ hfuel)]

theorem length_printSpaced (numbers : List Nat) : numbers.length ≤ (printSpaced numbers).length := by
  induction numbers with
  | nil => exact Nat.le_refl _
  | cons n rest ih =>
      have hlength : (printSpaced (n :: rest)).length =
          (Nat.toDigits 10 n).length + 1 + (printSpaced rest).length := by
        rw [printSpaced, List.flatMap_cons, List.length_append, List.length_append]
        rfl
      rw [hlength, List.length_cons]
      omega

theorem words_printSpaced (numbers : List Nat) :
    words (printSpaced numbers) = numbers.map (Nat.toDigits 10) := by
  induction numbers with
  | nil => rfl
  | cons n rest ih =>
      have htext : printSpaced (n :: rest) = Nat.toDigits 10 n ++ ' ' :: printSpaced rest := by
        rw [printSpaced, List.flatMap_cons, List.append_assoc]
        rfl
      rw [htext, words_append_blank rfl, words_toDigits .ten, ih]
      rfl

theorem newline_notMem_printSpaced (numbers : List Nat) : '\n' ∉ printSpaced numbers := by
  refine newline_notMem_flatMap (fun n hmem => ?_) numbers
  rcases List.mem_append.mp hmem with hdigit | hblank
  · exact newline_notMem_toDigits .ten n hdigit
  · exact absurd (List.mem_singleton.mp hblank) (by decide)

/-- The loader reads the second line. -/
theorem setAddrTable_line {line : List Char} (whole : '\n' ∉ line) (children : List Nat) :
    setAddrTable (line ++ '\n' :: printSpaced children) = some children := by
  have hsecond : linesOf (printSpaced children) = [printSpaced children] :=
    List.splitOn_eq_singleton (newline_notMem_printSpaced children)
  rw [setAddrTable, linesOf_cons whole, hsecond]
  exact readNumbers_of_words .ten (words_printSpaced children)

theorem setAddrTable_keyInfo (front : List Nat) (last : Nat) (children : List Nat) :
    setAddrTable (keyInfo (front ++ [last]) (printSpaced children)) = some children := by
  refine setAddrTable_line ?_ children
  rw [spaced_concat]
  exact fun hmem => (List.mem_append.mp hmem).elim (newline_notMem_printSpaced front)
    (newline_notMem_toDigits .ten last)

/-! ## Both lines -/

section

variable (roots : (server : Fin 4) → FatRoot server) (rest : Fin 4 → List Char)

/-- The merged keys before those of the fourth server. -/
def frontKeys : List Nat :=
  rootKeys roots 0 ++ 1 * 2 ^ 62 :: (rootKeys roots 1 ++
    2 * 2 ^ 62 :: (rootKeys roots 2 ++ [3 * 2 ^ 62]))

theorem mergedKeys_eq : mergedKeys roots = frontKeys roots ++ rootKeys roots 3 := by
  simp [mergedKeys, frontKeys]

theorem getKeys_eq :
    getKeys (fun server => (roots server).nodeInfo (rest server)) =
      some (printSpaced (frontKeys roots) ++ (printLast (0 :: rootKeys roots 3) ++
        printSpaced (mergedChildren roots))) := by
  simp only [getKeys, readInfo_nodeInfo, Option.bind_eq_bind, Option.bind_some, Option.pure_def,
    List.tail_cons, rootKeys, frontKeys, mergedChildren, rootChildren, printSpaced,
    List.flatMap_append, List.flatMap_cons, List.flatMap_nil, List.append_assoc, List.append_nil]

theorem mergedKeys_le : ∀ key ∈ mergedKeys roots, key ≤ uint64Max := by
  have hroot : ∀ (server : Fin 4), ∀ key ∈ rootKeys roots server, key ≤ uint64Max := by
    intro server key hkey
    obtain ⟨word, -, rfl⟩ := List.mem_map.mp hkey
    exact Nat.le_of_lt_succ word.isLt
  intro key hkey
  simp only [mergedKeys, List.mem_append, List.mem_cons] at hkey
  rcases hkey with hkey | rfl | hkey | rfl | hkey | rfl | hkey
  · exact hroot 0 key hkey
  · decide
  · exact hroot 1 key hkey
  · decide
  · exact hroot 2 key hkey
  · decide
  · exact hroot 3 key hkey

theorem mergedChildren_le : ∀ address ∈ mergedChildren roots, address ≤ uint64Max := by
  intro address haddress
  simp only [mergedChildren, List.mem_append] at haddress
  have hroot : ∀ (server : Fin 4), address ∈ rootChildren roots server → address ≤ uint64Max := by
    intro server haddress
    obtain ⟨word, -, rfl⟩ := List.mem_map.mp haddress
    exact Nat.le_of_lt_succ word.isLt
  rcases haddress with haddress | haddress | haddress | haddress
  · exact hroot 0 haddress
  · exact hroot 1 haddress
  · exact hroot 2 haddress
  · exact hroot 3 haddress

/-- With a key on the fourth server the file has its two lines. -/
theorem getKeys_of_ne_nil (hne : (roots 3).keys ≠ []) :
    ∃ front last, mergedKeys roots = front ++ [last] ∧
      getKeys (fun server => (roots server).nodeInfo (rest server)) =
        some (keyInfo (front ++ [last]) (printSpaced (mergedChildren roots))) := by
  rcases List.eq_nil_or_concat' (rootKeys roots 3) with hnil | ⟨front, last, hconcat⟩
  · exact absurd (List.map_eq_nil_iff.mp hnil) hne
  · have hbefore : ∀ k ∈ front, k ≠ last := by
      have hincreasing : (rootKeys roots 3).Pairwise (· < ·) :=
        List.pairwise_map.mpr ((roots 3).increasing.imp BitVec.lt_def.mp)
      rw [hconcat] at hincreasing
      intro k hk
      exact Nat.ne_of_lt ((List.pairwise_append.mp hincreasing).2.2 k hk last List.mem_cons_self)
    refine ⟨frontKeys roots ++ front, last, ?_, ?_⟩
    · rw [mergedKeys_eq, hconcat, List.append_assoc]
    · rw [getKeys_eq, hconcat, printLast_concat hbefore, keyInfo, spaced_concat,
        printSpaced_append]
      simp only [List.append_assoc, List.singleton_append]

/-- Without one the children follow on the line of the keys. -/
theorem getKeys_of_nil (hnil : (roots 3).keys = []) :
    getKeys (fun server => (roots server).nodeInfo (rest server)) =
      some (printSpaced (mergedKeys roots ++ mergedChildren roots)) := by
  have hkeys : rootKeys roots 3 = [] := List.map_eq_nil_iff.mpr hnil
  rw [getKeys_eq, mergedKeys_eq, hkeys, List.append_nil, printSpaced_append]
  rfl

theorem readKeys_of_nil (hnil : (roots 3).keys = []) {keyinfo : List Char}
    (hrun : getKeys (fun server => (roots server).nodeInfo (rest server)) = some keyinfo) :
    readKeys keyinfo.length keyinfo ≠ mergedKeys roots := by
  rw [getKeys_of_nil roots rest hnil] at hrun
  obtain rfl := Option.some.inj hrun
  have hsmall : ∀ n ∈ mergedKeys roots ++ mergedChildren roots, n ≤ uint64Max := by
    intro n hn
    exact (List.mem_append.mp hn).elim (mergedKeys_le roots n) (mergedChildren_le roots n)
  rw [readKeys_printSpaced hsmall (length_printSpaced _)]
  intro hsame
  have hnone : mergedChildren roots = [] := List.append_right_eq_self.mp hsame
  have hfirst : rootChildren roots 0 = [] := (List.append_eq_nil_iff.mp hnone).1
  exact (roots 0).children_ne_nil (List.map_eq_nil_iff.mp hfirst)

end

/-! ## The part of a key -/

/-- The server of the part that `x` lies in. -/
def partOf (x : BitVec 64) : Fin 4 :=
  ⟨x.toNat / 2 ^ 62, by have hx := x.isLt; omega⟩

theorem getPartId_keyString (zeroPadding : Nat) (x : BitVec 64) :
    getPartId (keyString zeroPadding x) = some (BitVec.ofNat 8 (partOf x)) := by
  have hx := x.isLt
  rw [getPartId, removeKeyIndexPrefix_keyString, Option.map_some]
  refine congrArg some (BitVec.eq_of_toNat_eq ?_)
  rw [BitVec.toNat_setWidth, BitVec.toNat_ushiftRight, BitVec.toNat_ofNat,
    Nat.shiftRight_eq_div_pow]
  rfl

theorem partOf_eq {x : BitVec 64} {zeroPadding : Nat} {server : Fin 4}
    (hpart : getPartId (keyString zeroPadding x) = some (BitVec.ofNat 8 server)) :
    server = partOf x := by
  rw [getPartId_keyString, Option.some.injEq] at hpart
  have hnat := congrArg BitVec.toNat hpart
  have hserver := server.isLt
  have hown := (partOf x).isLt
  rw [BitVec.toNat_ofNat, BitVec.toNat_ofNat, Nat.mod_eq_of_lt (by omega),
    Nat.mod_eq_of_lt (by omega)] at hnat
  exact Fin.ext hnat.symm

namespace FatRoot

variable {server : Fin 4} (root : FatRoot server) {x : BitVec 64}

theorem childFor_of_above (above : ∀ key ∈ root.keys, key < x) : root.childFor x = root.lastChild := by
  have hbelow : root.below x = root.children.length - 1 := by
    rw [root.children_length]
    exact List.countP_eq_length.mpr (fun key hkey => decide_eq_true (above key hkey))
  simp only [childFor, lastChild, List.getLast_eq_getElem, List.get_eq_getElem, hbelow]

theorem childFor_of_below (below : ∀ key ∈ root.keys, ¬ key < x) :
    root.childFor x = root.firstChild := by
  have hbelow : root.below x = 0 :=
    List.countP_eq_zero.mpr (fun key hkey => by simpa using below key hkey)
  simp only [childFor, firstChild, List.head_eq_getElem, List.get_eq_getElem, hbelow]

end FatRoot

section

variable (roots : (server : Fin 4) → FatRoot server)

/-- The two servers agree on the separator between them. -/
def EdgesAgree (x : BitVec 64) : Prop :=
  ∀ s : Fin 3, x.toNat = (s.val + 1) * 2 ^ 62 →
    (roots s.castSucc).lastChild = (roots s.succ).firstChild

/-- On a separator the merged lists send the key to the server before its own. -/
theorem holder_of_edge {x : BitVec 64} {s : Fin 3} (edge : x.toNat = (s.val + 1) * 2 ^ 62) :
    holder x = s.castSucc ∧ partOf x = s.succ := by
  constructor
  · refine Fin.ext ?_
    simp only [holder, Fin.val_castSucc]
    omega
  · refine Fin.ext ?_
    simp only [partOf, Fin.val_succ]
    omega

theorem holder_eq_partOf {x : BitVec 64} (inner : ∀ s : Fin 3, x.toNat ≠ (s.val + 1) * 2 ^ 62) :
    holder x = partOf x := by
  have hx := x.isLt
  have h1 := inner 0
  have h2 := inner 1
  have h3 := inner 2
  refine Fin.ext ?_
  simp only [holder, partOf]
  omega

theorem childFor_holder_iff (x : BitVec 64) :
    (roots (holder x)).childFor x = (roots (partOf x)).childFor x ↔ EdgesAgree roots x := by
  by_cases hedge : ∃ s : Fin 3, x.toNat = (s.val + 1) * 2 ^ 62
  · obtain ⟨s, hs⟩ := hedge
    obtain ⟨hholder, hpart⟩ := holder_of_edge hs
    have habove : ∀ key ∈ (roots s.castSucc).keys, key < x := by
      intro key hkey
      have hbounds := rootKeys_bounds roots s.castSucc key.toNat (List.mem_map_of_mem hkey)
      rw [BitVec.lt_def, hs]
      exact hbounds.2
    have hbelow : ∀ key ∈ (roots s.succ).keys, ¬ key < x := by
      intro key hkey
      have hbounds := rootKeys_bounds roots s.succ key.toNat (List.mem_map_of_mem hkey)
      rw [BitVec.lt_def, hs, Nat.not_lt]
      exact hbounds.1
    rw [hholder, hpart, FatRoot.childFor_of_above _ habove, FatRoot.childFor_of_below _ hbelow]
    constructor
    · intro hagree other hother
      have hsame : other = s := Fin.ext (by omega)
      exact hsame ▸ hagree
    · exact fun hagree => hagree s hs
  · have hinner : ∀ s : Fin 3, x.toNat ≠ (s.val + 1) * 2 ^ 62 := fun s hs => hedge ⟨s, hs⟩
    rw [holder_eq_partOf hinner]
    exact iff_of_true rfl (fun s hs => absurd hs (hinner s))

theorem routed_iff (zeroPadding : Nat) (x : BitVec 64) :
    (∃ server : Fin 4, getPartId (keyString zeroPadding x) = some (BitVec.ofNat 8 server) ∧
      (mergedChildren roots)[countBelow (mergedKeys roots) x.toNat]? =
        some ((roots server).childFor x).toNat) ↔ EdgesAgree roots x := by
  rw [merged_getElem?, ← childFor_holder_iff]
  constructor
  · rintro ⟨server, hpart, hchild⟩
    obtain rfl := partOf_eq hpart
    exact BitVec.eq_of_toNat_eq (Option.some.inj hchild)
  · intro hchild
    exact ⟨partOf x, getPartId_keyString zeroPadding x, by rw [hchild]⟩

/-- The merged root routes a key as its server does, unless the fourth server has no key
or the key is a separator. -/
theorem getKeys_mergeSafe (rest : Fin 4 → List Char) (zeroPadding : Nat) (x : BitVec 64) :
    (∃ keyinfo, getKeys (fun server => (roots server).nodeInfo (rest server)) = some keyinfo ∧
      MergeSafe roots keyinfo zeroPadding x) ↔
    (roots 3).keys ≠ [] ∧ EdgesAgree roots x := by
  constructor
  · rintro ⟨keyinfo, hrun, hsafe⟩
    refine ⟨fun hnil => ?_, (routed_iff roots zeroPadding x).mp hsafe.routed⟩
    exact readKeys_of_nil roots rest hnil hrun hsafe.boundaries
  · rintro ⟨hne, hagree⟩
    obtain ⟨front, last, hkeys, hrun⟩ := getKeys_of_ne_nil roots rest hne
    refine ⟨_, hrun, ?_, setAddrTable_keyInfo front last _, (routed_iff roots zeroPadding x).mpr hagree⟩
    have hsmall : ∀ key ∈ front ++ [last], key ≤ uint64Max := hkeys ▸ mergedKeys_le roots
    rw [readKeys_keyInfo hsmall, boundaries, if_neg (by simp), hkeys]

end

theorem lastKey_part : ∀ key ∈ [0xC000000000000001#64], (key >>> 62).toNat = (3 : Fin 4).val := by
  intro key hkey
  rw [List.mem_singleton.mp hkey, BitVec.toNat_ushiftRight, Nat.shiftRight_eq_div_pow]
  rfl

/-- No keys but one on the fourth server. -/
def edgeRoots : (server : Fin 4) → FatRoot server
  | 0 => ⟨[], [1], List.Pairwise.nil, by simp, rfl⟩
  | 1 => ⟨[], [2], List.Pairwise.nil, by simp, rfl⟩
  | 2 => ⟨[], [3], List.Pairwise.nil, by simp, rfl⟩
  | 3 => ⟨[0xC000000000000001#64], [4, 5], List.pairwise_singleton _ _, lastKey_part, rfl⟩

/-- The key `2 ^ 62` belongs to the second server and is sent to the first. -/
theorem getKeys_not_mergeSafe :
    ¬ ∃ keyinfo, getKeys (fun server => (edgeRoots server).nodeInfo []) = some keyinfo ∧
      MergeSafe edgeRoots keyinfo 20 0x4000000000000000#64 := by
  rintro ⟨keyinfo, -, hsafe⟩
  have hagree := (routed_iff edgeRoots 20 0x4000000000000000#64).mp hsafe.routed
  have hsame : (edgeRoots 0).lastChild = (edgeRoots 1).firstChild := hagree 0 rfl
  exact absurd hsame (by decide)

end FatBTree.Tcam
