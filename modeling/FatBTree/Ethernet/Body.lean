import FatBTree.Wire.Body
import Mathlib.Algebra.BigOperators.Group.List.Basic

/-!
# Request and reply bodies

The frontend and the backend have a copy each of the functions that write and
read a body.
-/

namespace FatBTree.Ethernet

open FatBTree.Wire

/-! ## The two drivers -/

namespace Frontend

def injectKeyIndex (buf : Nat → Byte) (msg : Nat) (keyIndex : List Byte) : Writer :=
  Wire.injectKeyIndex buf msg keyIndex

def injectValues (buf : Nat → Byte) (msg : Nat) (values : Values) : Writer :=
  Wire.injectValues buf msg values

def extractValues (buf : Nat → Byte) (msg : Nat) : Values × BitVec 32 :=
  Wire.extractValues buf msg

/-- The body of a request; `msg_len` runs over both parts. -/
def writeBody (buf : Nat → Byte) (msg : Nat) (keyIndex : List Byte) (values : Values) : Writer :=
  let first := injectKeyIndex buf msg keyIndex
  let second := injectValues first.buf (msg + first.msgLen.toNat) values
  ⟨second.buf, first.msgLen + second.msgLen⟩

end Frontend

namespace Backend

def injectValues (buf : Nat → Byte) (msg : Nat) (values : Values) : Writer :=
  Wire.injectValues buf msg values

def extractKeyIndex (buf : Nat → Byte) (msg : Nat) : List Byte × BitVec 32 :=
  Wire.extractKeyIndex buf msg

def extractValues (buf : Nat → Byte) (msg : Nat) : Values × BitVec 32 :=
  Wire.extractValues buf msg

/-- What a handler reads from `msg`, and how far it advances `msg`. -/
def readBody (buf : Nat → Byte) (msg : Nat) : (List Byte × Values) × Nat :=
  let (keyIndex, first) := extractKeyIndex buf msg
  let (values, second) := extractValues buf (msg + first.toNat)
  ((keyIndex, values), first.toNat + second.toNat)

end Backend

/-- The bytes `send_pkt` takes from the buffer. -/
def sentBytes (w : Writer) (msg : Nat) : List Byte :=
  load w.buf msg w.msgLen.toNat

/-! ## Sizes -/

/-- The number of bytes of a value list. -/
def valuesSize (values : Values) : Nat :=
  4 + (values.map fun kv => (4 + kv.1.length) + (4 + kv.2.length)).sum

/-- The number of bytes of a request body. -/
def bodySize (keyIndex : List Byte) (values : Values) : Nat :=
  (4 + keyIndex.length) + valuesSize values

def bodyBytes (keyIndex : List Byte) (values : Values) : List Byte :=
  stringBytes keyIndex ++ valuesBytes values

theorem length_valuesBytes (values : Values) : (valuesBytes values).length = valuesSize values := by
  have hpairs : (values.flatMap pairBytes).length
      = (values.map fun kv => (4 + kv.1.length) + (4 + kv.2.length)).sum := by
    rw [List.length_flatMap]
    refine congrArg List.sum (List.map_congr_left fun kv _ => ?_)
    rw [pairBytes, List.length_append, length_stringBytes, length_stringBytes]
  rw [valuesBytes, List.length_append, length_unsignedBytes, hpairs, valuesSize]

theorem length_bodyBytes (keyIndex : List Byte) (values : Values) :
    (bodyBytes keyIndex values).length = bodySize keyIndex values := by
  rw [bodyBytes, List.length_append, length_stringBytes, length_valuesBytes, bodySize]

/-! ## Round trips -/

theorem toNat_wrote_msgLen {buf : Nat → Byte} {msg : Nat} {bytes : List Byte}
    (hfit : bytes.length < 2 ^ 32) : (wrote buf msg bytes).msgLen.toNat = bytes.length := by
  rw [wrote, BitVec.toNat_ofNat, Nat.mod_eq_of_lt hfit]

theorem sentBytes_wrote {buf : Nat → Byte} {msg : Nat} {bytes : List Byte}
    (hfit : bytes.length < 2 ^ 32) : sentBytes (wrote buf msg bytes) msg = bytes := by
  rw [sentBytes, toNat_wrote_msgLen hfit, wrote]
  exact reads_store

theorem Frontend.writeBody_eq {keyIndex : List Byte} {values : Values}
    (hfit : bodySize keyIndex values < 2 ^ 32) (buf : Nat → Byte) (msg : Nat) :
    writeBody buf msg keyIndex values = wrote buf msg (bodyBytes keyIndex values) := by
  rw [← length_bodyBytes, bodyBytes, List.length_append] at hfit
  rw [writeBody, injectKeyIndex, injectKeyIndex_eq, bodyBytes, injectValues,
    injectValues_eq (by omega), wrote_wrote (by omega)]

theorem Backend.readBody_eq {keyIndex : List Byte} {values : Values} {buf : Nat → Byte} {msg : Nat}
    (hfit : bodySize keyIndex values < 2 ^ 32)
    (reads : Reads buf msg (bodyBytes keyIndex values)) :
    readBody buf msg = ((keyIndex, values), bodySize keyIndex values) := by
  rw [← length_bodyBytes, bodyBytes, List.length_append] at hfit
  have hkey : (BitVec.ofNat 32 (stringBytes keyIndex).length).toNat = (stringBytes keyIndex).length := by
    rw [BitVec.toNat_ofNat, Nat.mod_eq_of_lt (by omega)]
  have hvalues : (BitVec.ofNat 32 (valuesBytes values).length).toNat = (valuesBytes values).length := by
    rw [BitVec.toNat_ofNat, Nat.mod_eq_of_lt (by omega)]
  rw [readBody, extractKeyIndex, extractKeyIndex_eq reads.left (by omega)]
  simp only [hkey]
  rw [extractValues, extractValues_eq reads.right (by omega)]
  simp only [hvalues]
  rw [← length_bodyBytes, bodyBytes, List.length_append]

/-- A body that is the beginning of another one is that one. -/
theorem bodyBytes_of_begins {keyIndex keyIndex' : List Byte} {values values' : Values}
    (hfit : bodySize keyIndex values < 2 ^ 32) (hfit' : bodySize keyIndex' values' < 2 ^ 32)
    (hbegins : bodyBytes keyIndex values <+: bodyBytes keyIndex' values') :
    (keyIndex, values) = (keyIndex', values') := by
  obtain ⟨rest, hrest⟩ := hbegins
  have reads : Reads (store (fun _ => 0) 0 (bodyBytes keyIndex' values')) 0
      (bodyBytes keyIndex' values') := reads_store
  have hlong := Backend.readBody_eq hfit' reads
  rw [← hrest] at reads
  have hshort := Backend.readBody_eq hfit reads.left
  rw [hrest, hlong] at hshort
  exact (Prod.mk.inj hshort).1.symm

/-- Bodies shorter than `2 ^ 32` bytes come back as they were sent, whatever
follows them in the receiver's buffer, and none begins another. -/
theorem bodies_roundTrip :
    (∀ (keyIndex : List Byte) (values : Values), bodySize keyIndex values < 2 ^ 32 →
      ∀ (buf rest : Nat → Byte) (msg pos : Nat),
        (Frontend.writeBody buf msg keyIndex values).msgLen.toNat = bodySize keyIndex values ∧
        Backend.readBody
            (store rest pos (sentBytes (Frontend.writeBody buf msg keyIndex values) msg)) pos
          = ((keyIndex, values), (Frontend.writeBody buf msg keyIndex values).msgLen.toNat)) ∧
    (∀ values : Values, valuesSize values < 2 ^ 32 →
      ∀ (buf rest : Nat → Byte) (msg pos : Nat),
        (Backend.injectValues buf msg values).msgLen.toNat = valuesSize values ∧
        Frontend.extractValues
            (store rest pos (sentBytes (Backend.injectValues buf msg values) msg)) pos
          = (values, (Backend.injectValues buf msg values).msgLen)) ∧
    (∀ (keyIndex keyIndex' : List Byte) (values values' : Values),
      bodySize keyIndex values < 2 ^ 32 → bodySize keyIndex' values' < 2 ^ 32 →
      ∀ (buf : Nat → Byte) (msg : Nat),
        sentBytes (Frontend.writeBody buf msg keyIndex values) msg
            <+: sentBytes (Frontend.writeBody buf msg keyIndex' values') msg →
          (keyIndex, values) = (keyIndex', values')) := by
  refine ⟨?_, ?_, ?_⟩
  · intro keyIndex values hfit buf rest msg pos
    have hlen : (bodyBytes keyIndex values).length < 2 ^ 32 := by rwa [length_bodyBytes]
    rw [Frontend.writeBody_eq hfit, toNat_wrote_msgLen hlen, sentBytes_wrote hlen,
      length_bodyBytes]
    exact ⟨rfl, Backend.readBody_eq hfit reads_store⟩
  · intro values hfit buf rest msg pos
    have hlen : (valuesBytes values).length < 2 ^ 32 := by rwa [length_valuesBytes]
    rw [Backend.injectValues, injectValues_eq hlen, toNat_wrote_msgLen hlen,
      sentBytes_wrote hlen, length_valuesBytes]
    exact ⟨rfl, extractValues_eq reads_store hlen⟩
  · intro keyIndex keyIndex' values values' hfit hfit' buf msg hbegins
    have hlen : (bodyBytes keyIndex values).length < 2 ^ 32 := by rwa [length_bodyBytes]
    have hlen' : (bodyBytes keyIndex' values').length < 2 ^ 32 := by rwa [length_bodyBytes]
    rw [Frontend.writeBody_eq hfit, Frontend.writeBody_eq hfit', sentBytes_wrote hlen,
      sentBytes_wrote hlen'] at hbegins
    exact bodyBytes_of_begins hfit hfit' hbegins

theorem bodies_roundTrip_two_fields :
    bodySize [0x75, 0] [([0x66], [0, 0]), ([], [])] < 2 ^ 32 ∧
      Backend.readBody
          (store (fun _ => 0xAA) 19 (sentBytes
            (Frontend.writeBody (fun _ => 0) 5 [0x75, 0] [([0x66], [0, 0]), ([], [])]) 5)) 19
        = (([0x75, 0], [([0x66], [0, 0]), ([], [])]),
          (Frontend.writeBody (fun _ => 0) 5 [0x75, 0] [([0x66], [0, 0]), ([], [])]).msgLen.toNat) :=
  ⟨by decide, (bodies_roundTrip.1 _ _ (by decide) _ _ _ _).2⟩

/-! ## A key that fills `msg_len` -/

/-- Behind a key of `2 ^ 32 - 4` bytes the value list overwrites the key's length. -/
theorem Frontend.sentBytes_overflow {keyIndex : List Byte} (hlong : keyIndex.length = 2 ^ 32 - 4)
    (buf : Nat → Byte) (msg : Nat) :
    sentBytes (writeBody buf msg keyIndex []) msg = unsignedBytes 0 := by
  have hzero : BitVec.ofNat 32 (stringBytes keyIndex).length = 0 := by
    rw [length_stringBytes, hlong]
    rfl
  have hvalues : valuesBytes [] = unsignedBytes 0 := by
    rw [valuesBytes, List.flatMap_nil, List.append_nil]
    rfl
  have hempty : (valuesBytes []).length < 2 ^ 32 := by
    rw [hvalues, length_unsignedBytes]
    decide
  rw [writeBody, injectKeyIndex, injectKeyIndex_eq]
  simp only [wrote, hzero]
  rw [injectValues, injectValues_eq hempty, hvalues]
  exact sentBytes_wrote (by rw [length_unsignedBytes]; decide)

/-- All lengths are below `2 ^ 32` here, and the key comes back empty. -/
theorem body_overflow :
    (List.replicate (2 ^ 32 - 4) (0 : Byte)).length < 2 ^ 32 ∧
      (Backend.readBody (store (fun _ => 0) 0 (sentBytes
        (Frontend.writeBody (fun _ => 0) 0 (List.replicate (2 ^ 32 - 4) 0) []) 0)) 0).1
          ≠ (List.replicate (2 ^ 32 - 4) 0, []) := by
  have hlong : (List.replicate (2 ^ 32 - 4) (0 : Byte)).length = 2 ^ 32 - 4 :=
    List.length_replicate
  have hread : ∀ rest : Nat → Byte,
      (Backend.readBody (store rest 0 (unsignedBytes 0)) 0).1.1 = [] := by
    intro rest
    have hkey : Backend.extractKeyIndex (store rest 0 (unsignedBytes 0)) 0 = ([], 4) :=
      @extractKeyIndex_eq _ 0 [] reads_store (by decide)
    rw [Backend.readBody, hkey]
  constructor
  · rw [hlong]
    decide
  · rw [Frontend.sentBytes_overflow hlong]
    intro heq
    have hkey := congrArg Prod.fst heq
    rw [hread] at hkey
    have hlen := congrArg List.length hkey
    rw [hlong] at hlen
    exact absurd hlen (by decide)

end FatBTree.Ethernet
