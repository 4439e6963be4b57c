import Mathlib.Data.BitVec
import Mathlib.Tactic.Common

/-!
# Node addresses on their way through the switch

A node is named by its byte offset in the pool.  The name travels in a 48-bit
big-endian header field and is turned into a pointer again by the backend.
-/

namespace FatBTree.Ethernet

/-! ## Bytes -/

/-- The `count` low bytes of a number, least significant first. -/
def littleEndian : Nat → Nat → List (BitVec 8)
  | 0, _ => []
  | count + 1, n => BitVec.ofNat 8 n :: littleEndian count (n / 256)

def ofLittleEndian : List (BitVec 8) → Nat
  | [] => 0
  | byte :: rest => byte.toNat + 256 * ofLittleEndian rest

theorem ofLittleEndian_littleEndian (count n : Nat) :
    ofLittleEndian (littleEndian count n) = n % 256 ^ count := by
  induction count generalizing n with
  | zero => simp [littleEndian, ofLittleEndian, Nat.mod_one]
  | succ count ih =>
      have hbyte : (BitVec.ofNat 8 n).toNat = n % 256 := BitVec.toNat_ofNat n 8
      rw [littleEndian, ofLittleEndian, ih, hbyte, Nat.pow_succ', Nat.mod_mul]

theorem ofLittleEndian_append_zeros (bytes : List (BitVec 8)) (count : Nat) :
    ofLittleEndian (bytes ++ List.replicate count 0) = ofLittleEndian bytes := by
  have hzeros : ofLittleEndian (List.replicate count 0) = 0 := by
    induction count with
    | zero => rfl
    | succ count ih => rw [List.replicate_succ, ofLittleEndian, ih]; rfl
  induction bytes with
  | nil => exact hzeros
  | cons byte rest ih => rw [List.cons_append, ofLittleEndian, ih, ofLittleEndian]

/-! ## The trip -/

/-- `MAX_NODE_SIZE`. -/
def maxNodeSize : Nat := 100000000

/-- `sizeof(Node)`. -/
def sizeofNode : Nat := 96

/-- The address `pool + n`. -/
def nodeAddr (pool : BitVec 64) (n : Nat) : BitVec 64 :=
  pool + BitVec.ofNat 64 (n * sizeofNode)

/-- The mask of server `s`. -/
def serverMask (s : Fin 4) : BitVec 64 :=
  BitVec.ofNat 64 s.val <<< 46

/-- The number `print_info` writes for a node; `root` is `pool[0]`. -/
def printedAddr (mask root cur : BitVec 64) : BitVec 64 :=
  mask ||| (cur - root)

/-- The header fields in network order. -/
def emitFbt (keyHi keyLo : BitVec 32) (fbtIdx : BitVec 48) : List (BitVec 8) :=
  (littleEndian 4 keyHi.toNat).reverse ++ (littleEndian 4 keyLo.toNat).reverse ++
    (littleEndian 6 fbtIdx.toNat).reverse

/-- `extract_fbt_hdr`: the number of bytes read and the `int64_t` in `in_idx`.
The two keys are read past and not used. -/
def extractFbtHdr (msg : List (BitVec 8)) : Option (Nat × BitVec 64) := do
  let msgLen := 4 + 4
  let byte0 ← msg[msgLen + 5]?
  let byte1 ← msg[msgLen + 4]?
  let byte2 ← msg[msgLen + 3]?
  let byte3 ← msg[msgLen + 2]?
  let byte4 ← msg[msgLen + 1]?
  let byte5 ← msg[msgLen + 0]?
  let inIdx := [byte0, byte1, byte2, byte3, byte4, byte5, 0, 0]
  return (msgLen + 6, BitVec.ofNat 64 (ofLittleEndian inIdx))

/-- The first line of `update` and `lookup`. -/
def resolve (root bias : BitVec 64) : BitVec 64 :=
  root + (bias &&& 0xFFFFFFFF)

/-- The pointer the backend gets for a node that it printed itself. -/
def roundTrip (pool : BitVec 64) (s : Fin 4) (n : Nat) (keyHi keyLo : BitVec 32)
    (payload : List (BitVec 8)) : Option (BitVec 64) := do
  let fbtIdx := (printedAddr (serverMask s) pool (nodeAddr pool n)).setWidth 48
  let (_, bias) ← extractFbtHdr (emitFbt keyHi keyLo fbtIdx ++ payload)
  return resolve pool bias

theorem extractFbtHdr_emitFbt (keyHi keyLo : BitVec 32) (fbtIdx : BitVec 48)
    (payload : List (BitVec 8)) :
    extractFbtHdr (emitFbt keyHi keyLo fbtIdx ++ payload) = some (14, fbtIdx.setWidth 64) := by
  have hbytes : extractFbtHdr (emitFbt keyHi keyLo fbtIdx ++ payload) =
      some (14, BitVec.ofNat 64 (ofLittleEndian
        (littleEndian 6 fbtIdx.toNat ++ List.replicate 2 0))) := rfl
  have hlt : fbtIdx.toNat < 256 ^ 6 := fbtIdx.isLt
  rw [hbytes, ofLittleEndian_append_zeros, ofLittleEndian_littleEndian, Nat.mod_eq_of_lt hlt,
    BitVec.ofNat_toNat]

/-- What is left of an address after the trip: the low 32 bits of the offset. -/
theorem roundTrip_eq (pool : BitVec 64) (s : Fin 4) (n : Nat) (keyHi keyLo : BitVec 32)
    (payload : List (BitVec 8)) :
    roundTrip pool s n keyHi keyLo payload =
      some (pool + BitVec.ofNat 64 (n * sizeofNode % 2 ^ 32)) := by
  have hoffset : nodeAddr pool n - pool = BitVec.ofNat 64 (n * sizeofNode) := by
    rw [nodeAddr, BitVec.add_comm, BitVec.add_sub_cancel]
  have hmask : (serverMask s).toNat % 2 ^ 32 = 0 := by
    revert s
    decide
  have hbias : ((printedAddr (serverMask s) pool (nodeAddr pool n)).setWidth 48).setWidth 64 &&&
      0xFFFFFFFF = BitVec.ofNat 64 (n * sizeofNode % 2 ^ 32) := by
    apply BitVec.eq_of_toNat_eq
    have hlow : ∀ x : Nat, x &&& 0xFFFFFFFF = x % 2 ^ 32 :=
      fun x => Nat.and_two_pow_sub_one_eq_mod x 32
    have hor : ((serverMask s).toNat ||| n * sizeofNode % 2 ^ 64) % 2 ^ 32 =
        n * sizeofNode % 2 ^ 64 % 2 ^ 32 := by
      rw [Nat.or_mod_two_pow, hmask, Nat.zero_or]
    rw [printedAddr, hoffset, BitVec.toNat_and, BitVec.toNat_setWidth, BitVec.toNat_setWidth,
      BitVec.toNat_or, BitVec.toNat_ofNat, BitVec.toNat_ofNat]
    refine (hlow _).trans ?_
    omega
  simp only [roundTrip, extractFbtHdr_emitFbt, Option.bind_eq_bind, Option.bind_some, resolve, hbias]
  rfl

/-- A node comes back as itself exactly when its offset fits in 32 bits. -/
theorem roundTrip_eq_nodeAddr_iff (pool : BitVec 64) (s : Fin 4) (n : Fin maxNodeSize)
    (keyHi keyLo : BitVec 32) (payload : List (BitVec 8)) :
    roundTrip pool s n keyHi keyLo payload = some (nodeAddr pool n) ↔ n.val ≤ 44739242 := by
  have hn : n.val < 100000000 := n.isLt
  have hlow : n.val * sizeofNode % 2 ^ 32 < 2 ^ 64 := by omega
  have hfull : n.val * sizeofNode < 2 ^ 64 := by
    rw [sizeofNode]
    omega
  rw [roundTrip_eq, Option.some_inj, nodeAddr, BitVec.add_right_inj, ← BitVec.toNat_inj,
    BitVec.toNat_ofNat, BitVec.toNat_ofNat, Nat.mod_eq_of_lt hlow, Nat.mod_eq_of_lt hfull, sizeofNode]
  omega

/-- The first node whose offset needs 33 bits comes back as an address inside `pool[0]`. -/
theorem roundTrip_wrong :
    roundTrip 0x10000 0 44739243 0 0 [] = some 0x10020 ∧
      roundTrip 0x10000 0 44739243 0 0 [] ≠ some (nodeAddr 0x10000 44739243) := by
  decide +kernel

end FatBTree.Ethernet
