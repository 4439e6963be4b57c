import FatBTree.Sram.NodeInfo
import FatBTree.Tcam.RootMerge

/-!
# The keys of the RDMA fat root

`config_keys.py` takes the first node after the three lines of the RDMA server.  It leaves
out the blank after every key that equals the last one, so the table compiler may read
fewer numbers than there are keys, but never more.
-/

namespace FatBTree.Rdma.ConfigKeys

open FatBTree.Text FatBTree.Tcam FatBTree.Sram.NodeInfo

/-! ## The script -/

/-- The loop over some keys, with `keys[-1]`. -/
def printKeys (last : Option Nat) (keys : List Nat) : List Char :=
  keys.flatMap (fun k => Nat.toDigits 10 k ++ if some k = last then [] else [' '])

/-- The lines that `rdma_server_setup` writes before the nodes. -/
def serverInfo (address : BitVec 64) (localStag : BitVec 32) : List (List Char) :=
  ["remote_addr:".toList ++ Nat.toDigits 10 address.toNat,
    "remote_stag:".toList ++ Nat.toDigits 10 localStag.toNat, []]

/-- `node_info_greedy.txt`: those lines, the fat root and the other nodes. -/
def nodeInfo (address : BitVec 64) (localStag : BitVec 32) (keys children : List (BitVec 64))
    (rest : List Char) : List Char :=
  unlines (serverInfo address localStag) ++ (unlines (Tcam.printInfo keys children) ++ rest)

/-- The script, from the text of `node_info_greedy.txt` to that of `keys_info.txt`. -/
def configKeys (txt : List Char) : Option (List Char) := do
  let txt := (readline txt).2
  let txt := (readline txt).2
  let txt := (readline txt).2
  let (keys, childrenaddr) ← readInfo txt
  return printKeys keys.getLast? keys.tail ++ '\n' :: printSpaced childrenaddr

/-! ## The line of the keys -/

theorem newline_notMem_printKeys (last : Option Nat) (keys : List Nat) :
    '\n' ∉ printKeys last keys := by
  refine newline_notMem_flatMap (fun k hmem => ?_) keys
  rcases List.mem_append.mp hmem with hdigit | hblank
  · exact newline_notMem_toDigits .ten k hdigit
  · split at hblank
    · cases hblank
    · exact absurd (List.mem_singleton.mp hblank) (by decide)

/-- The digits before the line belong to keys that were printed without a blank. -/
theorem length_readKeys_printKeys {keys : List Nat} {last : Nat} (hlast : keys.getLast? = some last)
    {digits : List Char} (hdigits : ∀ c ∈ digits, c.isDigit = true) (rest : List Char)
    (fuel : Nat) :
    (readKeys fuel (digits ++ (printKeys (some last) keys ++ '\n' :: rest))).length ≤
      keys.length := by
  induction keys generalizing digits fuel with
  | nil => cases hlast
  | cons k keys ih =>
      have hgrown : ∀ c ∈ digits ++ Nat.toDigits 10 k, c.isDigit = true := by
        intro c hc
        exact (List.mem_append.mp hc).elim (hdigits c) isDigit_of_mem_decimal
      have hne : digits ++ Nat.toDigits 10 k ≠ [] := by
        simp [Nat.toDigits_ne_nil]
      have hnext : keys ≠ [] → keys.getLast? = some last := by
        intro hkeys
        rwa [List.getLast?_cons_of_ne_nil hkeys] at hlast
      cases fuel with
      | zero => exact Nat.zero_le _
      | succ fuel =>
          rcases eq_or_ne k last with hk | hk
          · -- the next key goes on with the same digits
            have htext : digits ++ (printKeys (some last) (k :: keys) ++ '\n' :: rest) =
                (digits ++ Nat.toDigits 10 k) ++ (printKeys (some last) keys ++ '\n' :: rest) := by
              simp [printKeys, hk]
            rw [htext, List.length_cons]
            cases keys with
            | nil => exact length_readKeys_le hgrown hne rfl fuel rest
            | cons next keys =>
                exact (ih (hnext (List.cons_ne_nil _ _)) hgrown (fuel + 1)).trans
                  (Nat.le_succ _)
          · have htext : digits ++ (printKeys (some last) (k :: keys) ++ '\n' :: rest) =
                (digits ++ Nat.toDigits 10 k) ++
                  ' ' :: ([] ++ (printKeys (some last) keys ++ '\n' :: rest)) := by
              simp [printKeys, hk]
            have hkeys : keys ≠ [] := by
              rintro rfl
              exact hk (Option.some.inj hlast)
            have hfirst := length_readKeys_le hgrown hne (rfl : Char.isDigit ' ' = false) fuel
              ([] ++ (printKeys (some last) keys ++ '\n' :: rest))
            have hrest : (readKeys fuel ([] ++ (printKeys (some last) keys ++ '\n' :: rest))).length ≤
                keys.length := ih (hnext hkeys) (List.forall_mem_nil _) fuel
            rw [if_neg (by decide)] at hfirst
            rw [htext, List.length_cons]
            omega

/-- The table compiler reads no more numbers than there are keys.  Without keys the first
line is empty, and it reads the addresses. -/
theorem length_readKeys {keys childrenaddr : List Nat} {keysInfo : List Char}
    (small : ∀ address ∈ childrenaddr, address ≤ uint64Max)
    (hinfo : keysInfo = printKeys (0 :: keys).getLast? keys ++ '\n' :: printSpaced childrenaddr) :
    (readKeys keysInfo.length keysInfo).length ≤ max keys.length childrenaddr.length := by
  cases keys with
  | nil =>
      have hlen : childrenaddr.length ≤ keysInfo.length := by
        rw [hinfo]
        exact (length_printSpaced childrenaddr).trans (Nat.le_succ _)
      have hread : readKeys keysInfo.length keysInfo = childrenaddr := by
        calc readKeys keysInfo.length keysInfo
          _ = readKeys keysInfo.length ('\n' :: printSpaced childrenaddr) := congrArg _ hinfo
          _ = readKeys keysInfo.length (printSpaced childrenaddr) := readKeys_blank rfl _ _
          _ = childrenaddr := readKeys_printSpaced small hlen
      rw [hread]
      exact Nat.le_max_right _ _
  | cons first others =>
      have hlast : (first :: others).getLast? = some ((first :: others).getLast (by simp)) :=
        List.getLast?_eq_some_getLast _
      have hline := length_readKeys_printKeys hlast (List.forall_mem_nil _) (printSpaced childrenaddr)
        keysInfo.length
      rw [← hlast, List.nil_append] at hline
      rw [List.getLast?_cons_of_ne_nil (List.cons_ne_nil _ _)] at hinfo
      rw [← hinfo] at hline
      exact hline.trans (Nat.le_max_left _ _)

/-! ## The whole file -/

theorem readline_unlines {line : List Char} (whole : '\n' ∉ line) (lines : List (List Char))
    (rest : List Char) : (readline (unlines (line :: lines) ++ rest)).2 = unlines lines ++ rest := by
  have htext : unlines (line :: lines) ++ rest = line ++ '\n' :: (unlines lines ++ rest) := by
    simp [unlines]
  rw [htext, readline_line whole]

theorem serverInfo_whole (address : BitVec 64) (localStag : BitVec 32) :
    ∀ line ∈ serverInfo address localStag, '\n' ∉ line := by
  have haddr : '\n' ∉ Nat.toDigits 10 address.toNat := newline_notMem_toDigits .ten _
  have hstag : '\n' ∉ Nat.toDigits 10 localStag.toNat := newline_notMem_toDigits .ten _
  have haddrHead : '\n' ∉ "remote_addr:".toList := by decide
  have hstagHead : '\n' ∉ "remote_stag:".toList := by decide
  intro line hline
  rw [serverInfo, List.mem_cons, List.mem_cons, List.mem_singleton] at hline
  rcases hline with rfl | rfl | rfl
  · exact fun hmem => (List.mem_append.mp hmem).elim haddrHead haddr
  · exact fun hmem => (List.mem_append.mp hmem).elim hstagHead hstag
  · exact List.not_mem_nil

/-- The script succeeds on what the server writes. -/
theorem configKeys_nodeInfo (address : BitVec 64) (localStag : BitVec 32)
    (keys children : List (BitVec 64)) (rest : List Char) :
    ∃ keysInfo, configKeys (nodeInfo address localStag keys children rest) = some keysInfo ∧
      (readKeys keysInfo.length keysInfo).length ≤ max keys.length children.length ∧
      setAddrTable keysInfo = some (children.map BitVec.toNat) := by
  have hwhole := serverInfo_whole address localStag
  rw [serverInfo] at hwhole
  simp only [List.forall_mem_cons] at hwhole
  obtain ⟨haddr, hstag, hblank, -⟩ := hwhole
  have hsmall : ∀ n ∈ children.map BitVec.toNat, n ≤ uint64Max := by
    intro n hn
    obtain ⟨child, -, rfl⟩ := List.mem_map.mp hn
    exact Nat.le_of_lt_succ child.isLt
  refine ⟨printKeys (0 :: keys.map BitVec.toNat).getLast? (keys.map BitVec.toNat) ++
    '\n' :: printSpaced (children.map BitVec.toNat), ?_, ?_,
    setAddrTable_line (newline_notMem_printKeys _ _) _⟩
  · rw [configKeys, nodeInfo, serverInfo]
    simp only [readline_unlines haddr, readline_unlines hstag, readline_unlines hblank]
    have hnone : unlines [] ++ (unlines (Tcam.printInfo keys children) ++ rest) =
        unlines (Tcam.printInfo keys children) ++ rest := rfl
    rw [hnone, readInfo_printInfo]
    rfl
  · have hlen := length_readKeys hsmall
      (rfl : _ = printKeys (0 :: keys.map BitVec.toNat).getLast? (keys.map BitVec.toNat) ++
        '\n' :: printSpaced (children.map BitVec.toNat))
    rwa [List.length_map, List.length_map] at hlen

end FatBTree.Rdma.ConfigKeys
