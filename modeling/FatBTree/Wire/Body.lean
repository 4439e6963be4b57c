import FatBTree.Ethernet.Address
import FatBTree.Wire.Buffer

/-!
# Message bodies

A string travels as its length and its bytes, a value list as its length and
its pairs.  The drivers keep their offset `msg_len` in an `unsigned`, so a body
is written and read as intended as long as it is shorter than `2 ^ 32` bytes.
-/

namespace FatBTree.Wire

open FatBTree.Ethernet

abbrev Byte := BitVec 8

/-- Pairs of a field name and a field value, as bytes. -/
abbrev Values := List (List Byte × List Byte)

/-- The four bytes of an `unsigned`. -/
def unsignedBytes (ubuf : BitVec 32) : List Byte :=
  littleEndian 4 ubuf.toNat

/-- `*(unsigned *)(msg)`. -/
def loadUnsigned (buf : Nat → Byte) (msg : Nat) : BitVec 32 :=
  BitVec.ofNat 32 (ofLittleEndian (load buf msg 4))

/-! ## Writing -/

/-- The memory that an `inject` function writes to and its `msg_len`. -/
structure Writer where
  buf : Nat → Byte
  msgLen : BitVec 32

/-- `memcpy` to `msg + msg_len`, and `msg_len` advanced past it. -/
def Writer.put (w : Writer) (msg : Nat) (bytes : List Byte) : Writer where
  buf := store w.buf (msg + w.msgLen.toNat) bytes
  msgLen := w.msgLen + BitVec.ofNat 32 bytes.length

/-- `msg_len += inject(msg + msg_len, ..)`. -/
def Writer.next (w : Writer) (msg : Nat) (inject : (Nat → Byte) → Nat → Writer) : Writer :=
  let written := inject w.buf (msg + w.msgLen.toNat)
  ⟨written.buf, w.msgLen + written.msgLen⟩

/-- A length and the bytes of a string. -/
def Writer.putString (w : Writer) (msg : Nat) (s : List Byte) : Writer :=
  let ubuf := BitVec.ofNat 32 s.length
  (w.put msg (unsignedBytes ubuf)).put msg s

/-- `inject_key_index`. -/
def injectKeyIndex (buf : Nat → Byte) (msg : Nat) (keyIndex : List Byte) : Writer :=
  Writer.putString ⟨buf, 0⟩ msg keyIndex

/-- `inject_values`. -/
def injectValues (buf : Nat → Byte) (msg : Nat) (values : Values) : Writer :=
  let ubuf := BitVec.ofNat 32 values.length
  values.foldl (fun w kv => (w.putString msg kv.1).putString msg kv.2)
    (Writer.put ⟨buf, 0⟩ msg (unsignedBytes ubuf))

/-! ## Reading -/

/-- A string behind `msg_len` and the new `msg_len`. -/
def getString (buf : Nat → Byte) (msg : Nat) (msgLen : BitVec 32) : List Byte × BitVec 32 :=
  let ubuf := loadUnsigned buf (msg + msgLen.toNat)
  let msgLen := msgLen + 4
  let s := load buf (msg + msgLen.toNat) ubuf.toNat
  (s, msgLen + BitVec.ofNat 32 s.length)

/-- `extract_key_index`. -/
def extractKeyIndex (buf : Nat → Byte) (msg : Nat) : List Byte × BitVec 32 :=
  getString buf msg 0

/-- The loop of `extract_values`, for the given number of pairs. -/
def getPairs (buf : Nat → Byte) (msg : Nat) : Nat → BitVec 32 → Values × BitVec 32
  | 0, msgLen => ([], msgLen)
  | count + 1, msgLen =>
      let (first, msgLen) := getString buf msg msgLen
      let (second, msgLen) := getString buf msg msgLen
      let (rest, msgLen) := getPairs buf msg count msgLen
      ((first, second) :: rest, msgLen)

/-- `extract_values`. -/
def extractValues (buf : Nat → Byte) (msg : Nat) : Values × BitVec 32 :=
  let ubuf := loadUnsigned buf msg
  getPairs buf msg ubuf.toNat 4

/-! ## The format -/

def stringBytes (s : List Byte) : List Byte :=
  unsignedBytes (BitVec.ofNat 32 s.length) ++ s

def pairBytes (kv : List Byte × List Byte) : List Byte :=
  stringBytes kv.1 ++ stringBytes kv.2

def valuesBytes (values : Values) : List Byte :=
  unsignedBytes (BitVec.ofNat 32 values.length) ++ values.flatMap pairBytes

theorem length_littleEndian (count n : Nat) : (littleEndian count n).length = count := by
  induction count generalizing n with
  | zero => rfl
  | succ count ih => rw [littleEndian, List.length_cons, ih]

@[simp]
theorem length_unsignedBytes (ubuf : BitVec 32) : (unsignedBytes ubuf).length = 4 :=
  length_littleEndian 4 _

theorem length_stringBytes (s : List Byte) : (stringBytes s).length = 4 + s.length := by
  rw [stringBytes, List.length_append, length_unsignedBytes]

theorem length_le_length_flatMap (values : Values) :
    values.length ≤ (values.flatMap pairBytes).length := by
  induction values with
  | nil => exact Nat.zero_le _
  | cons kv rest ih =>
      rw [List.flatMap_cons, List.length_append, pairBytes, List.length_append,
        length_stringBytes, List.length_cons]
      omega

theorem loadUnsigned_of_reads {buf : Nat → Byte} {pos : Nat} {ubuf : BitVec 32}
    (reads : Reads buf pos (unsignedBytes ubuf)) : loadUnsigned buf pos = ubuf := by
  have hbytes : load buf pos 4 = unsignedBytes ubuf := by
    rw [Reads, length_unsignedBytes] at reads
    exact reads
  have hlt : ubuf.toNat < 256 ^ 4 := ubuf.isLt
  rw [loadUnsigned, hbytes, unsignedBytes, ofLittleEndian_littleEndian, Nat.mod_eq_of_lt hlt,
    BitVec.ofNat_toNat, BitVec.setWidth_eq]

/-! ## What the writer leaves behind -/

/-- The writer after the given bytes. -/
def wrote (buf : Nat → Byte) (msg : Nat) (bytes : List Byte) : Writer where
  buf := store buf msg bytes
  msgLen := BitVec.ofNat 32 bytes.length

section Write

variable {buf : Nat → Byte} {msg : Nat} {bytes : List Byte}

theorem wrote_nil : wrote buf msg [] = ⟨buf, 0⟩ := by
  rw [wrote, store_nil]
  rfl

theorem wrote_put (hfit : bytes.length < 2 ^ 32) (more : List Byte) :
    (wrote buf msg bytes).put msg more = wrote buf msg (bytes ++ more) := by
  have hlen : (BitVec.ofNat 32 bytes.length).toNat = bytes.length := by
    rw [BitVec.toNat_ofNat, Nat.mod_eq_of_lt hfit]
  rw [Writer.put, wrote, wrote, hlen, store_append, List.length_append, BitVec.ofNat_add]

/-- A second function that continues where the first one stopped. -/
theorem wrote_wrote (hfit : bytes.length < 2 ^ 32) (more : List Byte) :
    (⟨(wrote (wrote buf msg bytes).buf (msg + (wrote buf msg bytes).msgLen.toNat) more).buf,
      (wrote buf msg bytes).msgLen
        + (wrote (wrote buf msg bytes).buf (msg + (wrote buf msg bytes).msgLen.toNat) more).msgLen⟩ :
      Writer) = wrote buf msg (bytes ++ more) := by
  have hlen : (BitVec.ofNat 32 bytes.length).toNat = bytes.length := by
    rw [BitVec.toNat_ofNat, Nat.mod_eq_of_lt hfit]
  simp only [wrote, hlen, store_append, List.length_append, BitVec.ofNat_add]

theorem wrote_next {inject : (Nat → Byte) → Nat → Writer} {more : List Byte}
    (hfit : bytes.length < 2 ^ 32) (hmore : ∀ buf msg, inject buf msg = wrote buf msg more) :
    (wrote buf msg bytes).next msg inject = wrote buf msg (bytes ++ more) := by
  rw [Writer.next, hmore, wrote_wrote hfit]

theorem wrote_putString (hfit : bytes.length + 4 < 2 ^ 32) (s : List Byte) :
    (wrote buf msg bytes).putString msg s = wrote buf msg (bytes ++ stringBytes s) := by
  have hfit' : (bytes ++ unsignedBytes (BitVec.ofNat 32 s.length)).length < 2 ^ 32 := by
    rw [List.length_append, length_unsignedBytes]
    exact hfit
  rw [Writer.putString, wrote_put (by omega), wrote_put hfit', stringBytes, List.append_assoc]

/-- A key is always written as intended; nothing follows its bytes. -/
theorem injectKeyIndex_eq (keyIndex : List Byte) :
    injectKeyIndex buf msg keyIndex = wrote buf msg (stringBytes keyIndex) := by
  rw [injectKeyIndex, ← @wrote_nil buf msg, wrote_putString (by simp), List.nil_append]

theorem wrote_foldl {values : Values}
    (hfit : (bytes ++ values.flatMap pairBytes).length < 2 ^ 32) :
    values.foldl (fun w kv => (w.putString msg kv.1).putString msg kv.2) (wrote buf msg bytes)
      = wrote buf msg (bytes ++ values.flatMap pairBytes) := by
  induction values generalizing bytes with
  | nil => rw [List.foldl_nil, List.flatMap_nil, List.append_nil]
  | cons kv rest ih =>
      rw [List.flatMap_cons, ← List.append_assoc] at hfit ⊢
      have hlen := hfit
      rw [List.length_append, List.length_append, pairBytes, List.length_append,
        length_stringBytes, length_stringBytes] at hlen
      have hsecond : (bytes ++ stringBytes kv.1).length + 4 < 2 ^ 32 := by
        rw [List.length_append, length_stringBytes]
        omega
      rw [List.foldl_cons, wrote_putString (by omega), wrote_putString hsecond,
        List.append_assoc, ← pairBytes]
      exact ih hfit

theorem injectValues_eq {values : Values} (hfit : (valuesBytes values).length < 2 ^ 32) :
    injectValues buf msg values = wrote buf msg (valuesBytes values) := by
  rw [injectValues, ← @wrote_nil buf msg, wrote_put (by simp), List.nil_append]
  exact wrote_foldl hfit

end Write

/-! ## What the reader finds -/

section Read

variable {buf : Nat → Byte} {msg : Nat}

theorem getString_eq {s : List Byte} {n : Nat}
    (reads : Reads buf (msg + n) (stringBytes s)) (hfit : n + (stringBytes s).length < 2 ^ 32) :
    getString buf msg (BitVec.ofNat 32 n)
      = (s, BitVec.ofNat 32 (n + (stringBytes s).length)) := by
  rw [length_stringBytes] at hfit ⊢
  have hpos : (BitVec.ofNat 32 n).toNat = n := by
    rw [BitVec.toNat_ofNat, Nat.mod_eq_of_lt (by omega)]
  have hnext : BitVec.ofNat 32 n + 4 = BitVec.ofNat 32 (n + 4) := (BitVec.ofNat_add n 4).symm
  have hpos' : (BitVec.ofNat 32 (n + 4)).toNat = n + 4 := by
    rw [BitVec.toNat_ofNat, Nat.mod_eq_of_lt (by omega)]
  have hubuf : loadUnsigned buf (msg + n) = BitVec.ofNat 32 s.length :=
    loadUnsigned_of_reads reads.left
  have hcount : (BitVec.ofNat 32 s.length).toNat = s.length := by
    rw [BitVec.toNat_ofNat, Nat.mod_eq_of_lt (by omega)]
  have hbytes : load buf (msg + (n + 4)) s.length = s := by
    have hright := reads.right
    rw [length_unsignedBytes, Nat.add_assoc] at hright
    exact hright
  rw [getString]
  simp only [hpos, hubuf, hnext, hpos', hcount, hbytes]
  rw [← BitVec.ofNat_add, Nat.add_assoc]

theorem extractKeyIndex_eq {keyIndex : List Byte} (reads : Reads buf msg (stringBytes keyIndex))
    (hfit : (stringBytes keyIndex).length < 2 ^ 32) :
    extractKeyIndex buf msg = (keyIndex, BitVec.ofNat 32 (stringBytes keyIndex).length) := by
  have hstart := @getString_eq buf msg keyIndex 0 reads (by omega)
  rwa [Nat.zero_add] at hstart

theorem getPairs_eq {values : Values} {n : Nat}
    (reads : Reads buf (msg + n) (values.flatMap pairBytes))
    (hfit : n + (values.flatMap pairBytes).length < 2 ^ 32) :
    getPairs buf msg values.length (BitVec.ofNat 32 n)
      = (values, BitVec.ofNat 32 (n + (values.flatMap pairBytes).length)) := by
  induction values generalizing n with
  | nil => rfl
  | cons kv rest ih =>
      rw [List.flatMap_cons, List.length_append, pairBytes, List.length_append] at hfit
      rw [List.flatMap_cons, pairBytes, List.append_assoc] at reads
      have hfirst := getString_eq reads.left (by omega)
      have hreads := reads.right
      rw [Nat.add_assoc] at hreads
      have hsecond := getString_eq hreads.left (by omega)
      have hreads' := hreads.right
      rw [Nat.add_assoc] at hreads'
      have hrest := ih hreads' (by omega)
      rw [List.length_cons, getPairs, hfirst]
      simp only [hsecond, hrest]
      rw [List.flatMap_cons, List.length_append, pairBytes, List.length_append]
      simp only [Nat.add_assoc]

theorem extractValues_eq {values : Values} (reads : Reads buf msg (valuesBytes values))
    (hfit : (valuesBytes values).length < 2 ^ 32) :
    extractValues buf msg = (values, BitVec.ofNat 32 (valuesBytes values).length) := by
  have hlen := hfit
  rw [valuesBytes, List.length_append, length_unsignedBytes] at hlen
  have hmany := length_le_length_flatMap values
  have hubuf : loadUnsigned buf msg = BitVec.ofNat 32 values.length :=
    loadUnsigned_of_reads reads.left
  have hcount : (BitVec.ofNat 32 values.length).toNat = values.length := by
    rw [BitVec.toNat_ofNat, Nat.mod_eq_of_lt (by omega)]
  have hreads := reads.right
  rw [length_unsignedBytes] at hreads
  have hpairs := getPairs_eq hreads (by omega)
  rw [extractValues, hubuf]
  simp only [hcount]
  rw [valuesBytes, List.length_append, length_unsignedBytes]
  exact hpairs

end Read

end FatBTree.Wire
