import FatBTree.Ethernet.Body

/-!
# Containers of fixed size

The RDMA backend keeps keys and values in arrays of a fixed number of cells, of
which the first `_size` are in use.  They travel in the same format as the
strings of the clients.
-/

namespace FatBTree.Rdma

open FatBTree.Wire FatBTree.Ethernet

/-- `fixed_size_array<TYPE, MAX_SIZE>`. -/
structure FixedArray (α : Type) (maxSize : Nat) where
  val : List α
  size : Nat
  length_val : val.length = maxSize
  size_le : size ≤ maxSize

namespace FixedArray

variable {α : Type} {maxSize : Nat}

/-- The cells from `begin()` to `end()`. -/
def toList (arr : FixedArray α maxSize) : List α :=
  arr.val.take arr.size

/-- `resize`; with a size above `MAX_SIZE` the next copy runs out of the array. -/
def resize (arr : FixedArray α maxSize) (n : Nat) : Option (FixedArray α maxSize) :=
  if hfit : n ≤ maxSize then some { arr with size := n, size_le := hfit } else none

/-- `memcpy` to `begin()`, inside the array. -/
def copyIn (arr : FixedArray α maxSize) (xs : List α) : Option (FixedArray α maxSize) :=
  if hfit : xs.length ≤ maxSize then
    some { arr with
      val := xs ++ arr.val.drop xs.length
      length_val := by rw [List.length_append, List.length_drop, arr.length_val]; omega }
  else none

/-- `arr[i] = x`. -/
def set (arr : FixedArray α maxSize) (i : Nat) (x : α) : FixedArray α maxSize :=
  { arr with
    val := arr.val.set i x
    length_val := by rw [List.length_set, arr.length_val] }

/-- `MAX_SIZE` equal cells, none in use. -/
def blank (maxSize : Nat) (x : α) : FixedArray α maxSize where
  val := List.replicate maxSize x
  size := 0
  length_val := List.length_replicate
  size_le := Nat.zero_le _

@[simp]
theorem length_toList (arr : FixedArray α maxSize) : arr.toList.length = arr.size := by
  rw [toList, List.length_take, arr.length_val, Nat.min_eq_left arr.size_le]

/-- After `resize` and `memcpy` the array holds the copied cells, whatever it held. -/
theorem copyIn_resize (arr : FixedArray α maxSize) {xs : List α} (hfit : xs.length ≤ maxSize) :
    ∃ arr', ((arr.resize xs.length).bind fun arr => arr.copyIn xs) = some arr' ∧
      arr'.toList = xs := by
  rw [resize, dif_pos hfit, Option.bind_some, copyIn, dif_pos hfit]
  refine ⟨_, rfl, ?_⟩
  rw [toList]
  exact List.take_left' rfl

end FixedArray

/-- `fixed_size_string<MAX_SIZE>`. -/
abbrev FixedString (maxSize : Nat) := FixedArray Byte maxSize

abbrev KeyType := FixedString 33

abbrev ValType := FixedArray (FixedString 6 × FixedString 100) 10

/-- The pairs that `RDMARead` makes of `remote_node.val`. -/
def ValType.toPairs (val : ValType) : Values :=
  val.toList.map fun kv => (kv.1.toList, kv.2.toList)

theorem ValType.length_toPairs_le (val : ValType) : val.toPairs.length ≤ 10 := by
  rw [toPairs, List.length_map, FixedArray.length_toList]
  exact val.size_le

theorem ValType.fields_toPairs (val : ValType) :
    ∀ kv ∈ val.toPairs, kv.1.length ≤ 6 ∧ kv.2.length ≤ 100 := by
  intro kv hmem
  obtain ⟨cell, -, rfl⟩ := List.mem_map.mp hmem
  rw [FixedArray.length_toList, FixedArray.length_toList]
  exact ⟨cell.1.size_le, cell.2.size_le⟩

/-! ## The overloads for strings -/

def injectKeyIndex (buf : Nat → Byte) (msg : Nat) (keyIndex : List Byte) : Writer :=
  Wire.injectKeyIndex buf msg keyIndex

def injectValues (buf : Nat → Byte) (msg : Nat) (values : Values) : Writer :=
  Wire.injectValues buf msg values

def extractKeyIndex (buf : Nat → Byte) (msg : Nat) : List Byte × BitVec 32 :=
  Wire.extractKeyIndex buf msg

def extractValues (buf : Nat → Byte) (msg : Nat) : Values × BitVec 32 :=
  Wire.extractValues buf msg

/-! ## The overloads for containers of fixed size -/

namespace FixedSize

def putString {maxSize : Nat} (w : Writer) (msg : Nat) (s : FixedString maxSize) : Writer :=
  let ubuf := BitVec.ofNat 32 s.size
  (w.put msg (unsignedBytes ubuf)).put msg s.toList

def injectKeyIndex (buf : Nat → Byte) (msg : Nat) (keyIndex : KeyType) : Writer :=
  putString ⟨buf, 0⟩ msg keyIndex

def injectValues (buf : Nat → Byte) (msg : Nat) (values : ValType) : Writer :=
  let ubuf := BitVec.ofNat 32 values.size
  values.toList.foldl (fun w kv => putString (putString w msg kv.1) msg kv.2)
    (Writer.put ⟨buf, 0⟩ msg (unsignedBytes ubuf))

/-- A string behind `msg_len`, into an array that may have been used before. -/
def getString {maxSize : Nat} (buf : Nat → Byte) (msg : Nat) (s : FixedString maxSize)
    (msgLen : BitVec 32) : Option (FixedString maxSize × BitVec 32) := do
  let ubuf := loadUnsigned buf (msg + msgLen.toNat)
  let msgLen := msgLen + 4
  let s ← (s.resize ubuf.toNat).bind fun s => s.copyIn (load buf (msg + msgLen.toNat) ubuf.toNat)
  return (s, msgLen + BitVec.ofNat 32 s.size)

def extractKeyIndex (buf : Nat → Byte) (msg : Nat) (keyIndex : KeyType) :
    Option (KeyType × BitVec 32) :=
  getString buf msg keyIndex 0

/-- The loop of `extract_values` from pair `i` on. -/
def getPairs (buf : Nat → Byte) (msg : Nat) :
    Nat → Nat → ValType → BitVec 32 → Option (ValType × BitVec 32)
  | 0, _, values, msgLen => some (values, msgLen)
  | count + 1, i, values, msgLen => do
      let kv ← values.val[i]?
      let (first, msgLen) ← getString buf msg kv.1 msgLen
      let (second, msgLen) ← getString buf msg kv.2 msgLen
      getPairs buf msg count (i + 1) (values.set i (first, second)) msgLen

def extractValues (buf : Nat → Byte) (msg : Nat) (values : ValType) :
    Option (ValType × BitVec 32) := do
  let ubuf := loadUnsigned buf msg
  let values ← values.resize ubuf.toNat
  getPairs buf msg values.size 0 values 4

/-! ## Both write the same bytes -/

theorem putString_eq {maxSize : Nat} (w : Writer) (msg : Nat) (s : FixedString maxSize) :
    putString w msg s = w.putString msg s.toList := by
  rw [putString, Writer.putString, FixedArray.length_toList]

theorem injectKeyIndex_eq (buf : Nat → Byte) (msg : Nat) (keyIndex : KeyType) :
    injectKeyIndex buf msg keyIndex = Rdma.injectKeyIndex buf msg keyIndex.toList :=
  putString_eq _ msg keyIndex

theorem injectValues_eq (buf : Nat → Byte) (msg : Nat) (values : ValType) :
    injectValues buf msg values = Rdma.injectValues buf msg values.toPairs := by
  have hlen : values.toPairs.length = values.size := by
    rw [ValType.toPairs, List.length_map, FixedArray.length_toList]
  rw [injectValues, Rdma.injectValues, Wire.injectValues, hlen, ValType.toPairs, List.foldl_map]
  simp only [putString_eq]

/-- A pair of the given sizes takes at most 114 bytes. -/
theorem valuesSize_le {values : Values}
    (hfields : ∀ kv ∈ values, kv.1.length ≤ 6 ∧ kv.2.length ≤ 100) :
    valuesSize values ≤ 4 + 114 * values.length := by
  induction values with
  | nil => exact Nat.le_refl 4
  | cons kv rest ih =>
      obtain ⟨hname, hvalue⟩ := hfields kv List.mem_cons_self
      have hrest := ih fun kv hmem => hfields kv (List.mem_cons_of_mem _ hmem)
      rw [valuesSize] at hrest ⊢
      rw [List.map_cons, List.sum_cons, List.length_cons]
      omega

/-! ## Both read the same strings -/

section Read

variable (buf : Nat → Byte) (msg : Nat)

theorem getString_eq {maxSize : Nat} (stale : FixedString maxSize) (msgLen : BitVec 32)
    (hfit : (Wire.getString buf msg msgLen).1.length ≤ maxSize) :
    ∃ s, getString buf msg stale msgLen = some (s, (Wire.getString buf msg msgLen).2) ∧
      s.toList = (Wire.getString buf msg msgLen).1 := by
  obtain ⟨s, hcopied, hs⟩ := stale.copyIn_resize hfit
  have hlen : s.size = (Wire.getString buf msg msgLen).1.length := by
    rw [← hs, FixedArray.length_toList]
  refine ⟨s, ?_, hs⟩
  rw [Wire.getString, length_load] at hcopied
  rw [getString, hcopied, Option.bind_eq_bind, Option.bind_some, hlen]
  rfl

theorem length_getPairs (count : Nat) (msgLen : BitVec 32) :
    (Wire.getPairs buf msg count msgLen).1.length = count := by
  induction count generalizing msgLen with
  | zero => rfl
  | succ count ih =>
      rw [Wire.getPairs, List.length_cons, ih]

theorem getPairs_eq (count : Nat) {values : ValType} {msgLen : BitVec 32}
    {before after : List (FixedString 6 × FixedString 100)} (hval : values.val = before ++ after)
    (hroom : count ≤ after.length)
    (hfit : ∀ kv ∈ (Wire.getPairs buf msg count msgLen).1, kv.1.length ≤ 6 ∧ kv.2.length ≤ 100) :
    ∃ values' read, getPairs buf msg count before.length values msgLen
        = some (values', (Wire.getPairs buf msg count msgLen).2) ∧
      values'.size = values.size ∧ values'.val = before ++ read ++ after.drop count ∧
      read.map (fun kv => (kv.1.toList, kv.2.toList)) = (Wire.getPairs buf msg count msgLen).1 := by
  induction count generalizing values msgLen before after with
  | zero => exact ⟨values, [], rfl, rfl, by simpa using hval, rfl⟩
  | succ count ih =>
      cases after with
      | nil => simp at hroom
      | cons kv after =>
          let first := Wire.getString buf msg msgLen
          let second := Wire.getString buf msg first.2
          let rest := Wire.getPairs buf msg count second.2
          have hwire : Wire.getPairs buf msg (count + 1) msgLen
              = ((first.1, second.1) :: rest.1, rest.2) := rfl
          rw [hwire] at hfit ⊢
          obtain ⟨hname, hvalue⟩ := hfit _ List.mem_cons_self
          obtain ⟨name, hgetName, hnameList⟩ := getString_eq buf msg kv.1 msgLen hname
          obtain ⟨value, hgetValue, hvalueList⟩ := getString_eq buf msg kv.2 first.2 hvalue
          have hcell : values.val[before.length]? = some kv := by
            rw [hval, List.getElem?_append_right (Nat.le_refl _), Nat.sub_self,
              List.getElem?_cons_zero]
          have hset : (values.set before.length (name, value)).val
              = (before ++ [(name, value)]) ++ after := by
            have hcells : (values.set before.length (name, value)).val
                = values.val.set before.length (name, value) := rfl
            rw [hcells, hval]
            simp
          have hroom' : count ≤ after.length := by
            simpa using hroom
          obtain ⟨values', read, hrun, hsize, hval', hread⟩ :=
            ih hset hroom' fun kv hmem => hfit kv (List.mem_cons_of_mem _ hmem)
          refine ⟨values', (name, value) :: read, ?_, hsize, ?_, ?_⟩
          · rw [List.length_append, List.length_singleton] at hrun
            rw [getPairs, hcell]
            simp only [Option.bind_eq_bind, Option.bind_some, hgetName]
            change (getString buf msg kv.2 first.2).bind _ = _
            rw [hgetValue]
            exact hrun
          · rw [hval', List.drop_succ_cons, List.append_assoc before, List.singleton_append]
          · rw [List.map_cons, hread, hnameList, hvalueList]

/-- What the overload for strings reads, the other one reads as well if it fits. -/
theorem extractKeyIndex_eq (stale : KeyType)
    (hfit : (Wire.extractKeyIndex buf msg).1.length ≤ 33) :
    ∃ keyIndex, extractKeyIndex buf msg stale
        = some (keyIndex, (Wire.extractKeyIndex buf msg).2) ∧
      keyIndex.toList = (Wire.extractKeyIndex buf msg).1 :=
  getString_eq buf msg stale 0 hfit

theorem extractValues_eq (stale : ValType)
    (hcount : (Wire.extractValues buf msg).1.length ≤ 10)
    (hfit : ∀ kv ∈ (Wire.extractValues buf msg).1, kv.1.length ≤ 6 ∧ kv.2.length ≤ 100) :
    ∃ values, extractValues buf msg stale = some (values, (Wire.extractValues buf msg).2) ∧
      values.toPairs = (Wire.extractValues buf msg).1 := by
  have hwire : Wire.extractValues buf msg
      = Wire.getPairs buf msg (loadUnsigned buf msg).toNat 4 := rfl
  rw [hwire] at hcount hfit ⊢
  rw [length_getPairs] at hcount
  let resized : ValType := { stale with size := (loadUnsigned buf msg).toNat, size_le := hcount }
  have hresize : stale.resize (loadUnsigned buf msg).toNat = some resized := dif_pos hcount
  have hroom : (loadUnsigned buf msg).toNat ≤ resized.val.length := by
    rw [resized.length_val]
    exact hcount
  have hstart : resized.val = [] ++ resized.val := rfl
  obtain ⟨values, read, hrun, hsize, hval, hread⟩ := getPairs_eq buf msg _ hstart hroom hfit
  have hlen : read.length = values.size := by
    rw [hsize, ← List.length_map, hread, length_getPairs]
  refine ⟨values, ?_, ?_⟩
  · rw [extractValues, hresize]
    exact hrun
  · rw [ValType.toPairs, FixedArray.toList, hval, List.nil_append, List.take_left' hlen, hread]

theorem extractKeyIndex_of_reads {key : List Byte} (hkey : key.length ≤ 33)
    (reads : Reads buf msg (stringBytes key)) (stale : KeyType) :
    ∃ keyIndex, extractKeyIndex buf msg stale
        = some (keyIndex, BitVec.ofNat 32 (stringBytes key).length) ∧ keyIndex.toList = key := by
  have hlen : (stringBytes key).length < 2 ^ 32 := by
    rw [length_stringBytes]
    omega
  have hwire := Wire.extractKeyIndex_eq reads hlen
  have hfixed := extractKeyIndex_eq buf msg stale (by rw [hwire]; exact hkey)
  rwa [hwire] at hfixed

theorem length_valuesBytes_lt {values : Values} (hcount : values.length ≤ 10)
    (hfields : ∀ kv ∈ values, kv.1.length ≤ 6 ∧ kv.2.length ≤ 100) :
    (valuesBytes values).length < 2 ^ 32 := by
  have hsize := valuesSize_le hfields
  rw [length_valuesBytes]
  omega

theorem extractValues_of_reads {values : Values} (hcount : values.length ≤ 10)
    (hfields : ∀ kv ∈ values, kv.1.length ≤ 6 ∧ kv.2.length ≤ 100)
    (reads : Reads buf msg (valuesBytes values)) (stale : ValType) :
    ∃ val, extractValues buf msg stale
        = some (val, BitVec.ofNat 32 (valuesBytes values).length) ∧ val.toPairs = values := by
  have hwire := Wire.extractValues_eq reads (length_valuesBytes_lt hcount hfields)
  have hfixed := extractValues_eq buf msg stale (by rw [hwire]; exact hcount)
    (by rw [hwire]; exact hfields)
  rwa [hwire] at hfixed

end Read

end FixedSize

/-! ## Round trips -/

/-- A key through both codecs. -/
theorem key_roundTrip {key : List Byte} (hkey : key.length ≤ 33) (buf rest : Nat → Byte)
    (msg pos : Nat) (stale : KeyType) :
    (injectKeyIndex buf msg key).msgLen.toNat = 4 + key.length ∧
    ∃ keyIndex, FixedSize.extractKeyIndex
          (store rest pos (sentBytes (injectKeyIndex buf msg key) msg)) pos stale
        = some (keyIndex, (injectKeyIndex buf msg key).msgLen) ∧
      keyIndex.size = key.length ∧ keyIndex.toList = key ∧
      ∀ buf' msg',
        sentBytes (FixedSize.injectKeyIndex buf' msg' keyIndex) msg'
          = sentBytes (injectKeyIndex buf msg key) msg ∧
        extractKeyIndex
            (store rest pos (sentBytes (FixedSize.injectKeyIndex buf' msg' keyIndex) msg')) pos
          = (key, (FixedSize.injectKeyIndex buf' msg' keyIndex).msgLen) := by
  have hlen : (stringBytes key).length < 2 ^ 32 := by
    rw [length_stringBytes]
    omega
  have hwrote : ∀ buf msg, injectKeyIndex buf msg key = wrote buf msg (stringBytes key) :=
    fun _ _ => Wire.injectKeyIndex_eq key
  have hread : extractKeyIndex (store rest pos (stringBytes key)) pos
      = (key, BitVec.ofNat 32 (stringBytes key).length) :=
    Wire.extractKeyIndex_eq reads_store hlen
  obtain ⟨keyIndex, hfixed, hlist⟩ := FixedSize.extractKeyIndex_of_reads
    (store rest pos (stringBytes key)) pos hkey reads_store stale
  simp only [FixedSize.injectKeyIndex_eq, hwrote, sentBytes_wrote hlen]
  refine ⟨?_, keyIndex, hfixed, ?_, hlist, ?_⟩
  · rw [toNat_wrote_msgLen hlen, length_stringBytes]
  · rw [← FixedArray.length_toList, hlist]
  · intro buf' msg'
    rw [hlist, hwrote, sentBytes_wrote hlen]
    exact ⟨rfl, hread⟩

/-- A value list through both codecs. -/
theorem values_roundTrip {values : Values} (hcount : values.length ≤ 10)
    (hfields : ∀ kv ∈ values, kv.1.length ≤ 6 ∧ kv.2.length ≤ 100) (buf rest : Nat → Byte)
    (msg pos : Nat) (stale : ValType) :
    (injectValues buf msg values).msgLen.toNat = valuesSize values ∧
    ∃ val, FixedSize.extractValues
          (store rest pos (sentBytes (injectValues buf msg values) msg)) pos stale
        = some (val, (injectValues buf msg values).msgLen) ∧
      val.size = values.length ∧ val.toPairs = values ∧
      ∀ buf' msg',
        sentBytes (FixedSize.injectValues buf' msg' val) msg'
          = sentBytes (injectValues buf msg values) msg ∧
        extractValues (store rest pos (sentBytes (FixedSize.injectValues buf' msg' val) msg')) pos
          = (values, (FixedSize.injectValues buf' msg' val).msgLen) := by
  have hlen := FixedSize.length_valuesBytes_lt hcount hfields
  have hwrote : ∀ buf msg, injectValues buf msg values = wrote buf msg (valuesBytes values) :=
    fun _ _ => Wire.injectValues_eq hlen
  have hread : extractValues (store rest pos (valuesBytes values)) pos
      = (values, BitVec.ofNat 32 (valuesBytes values).length) :=
    Wire.extractValues_eq reads_store hlen
  obtain ⟨val, hfixed, hpairs⟩ := FixedSize.extractValues_of_reads
    (store rest pos (valuesBytes values)) pos hcount hfields reads_store stale
  simp only [FixedSize.injectValues_eq, hwrote, sentBytes_wrote hlen]
  refine ⟨?_, val, hfixed, ?_, hpairs, ?_⟩
  · rw [toNat_wrote_msgLen hlen, length_valuesBytes]
  · rw [← hpairs, ValType.toPairs, List.length_map, FixedArray.length_toList]
  · intro buf' msg'
    rw [hpairs, hwrote, sentBytes_wrote hlen]
    exact ⟨rfl, hread⟩

/-- Bodies with a key of 33 bytes and ten pairs fit both codecs, which then agree. -/
theorem codecs_agree {key : List Byte} {values : Values} (hkey : key.length ≤ 33)
    (hcount : values.length ≤ 10)
    (hfields : ∀ kv ∈ values, kv.1.length ≤ 6 ∧ kv.2.length ≤ 100) (buf rest : Nat → Byte)
    (msg pos : Nat) (staleKey : KeyType) (staleVal : ValType) :
    ((injectKeyIndex buf msg key).msgLen.toNat = 4 + key.length ∧
      ∃ keyIndex, FixedSize.extractKeyIndex
            (store rest pos (sentBytes (injectKeyIndex buf msg key) msg)) pos staleKey
          = some (keyIndex, (injectKeyIndex buf msg key).msgLen) ∧
        keyIndex.size = key.length ∧ keyIndex.toList = key ∧
        ∀ buf' msg',
          sentBytes (FixedSize.injectKeyIndex buf' msg' keyIndex) msg'
            = sentBytes (injectKeyIndex buf msg key) msg ∧
          extractKeyIndex
              (store rest pos (sentBytes (FixedSize.injectKeyIndex buf' msg' keyIndex) msg')) pos
            = (key, (FixedSize.injectKeyIndex buf' msg' keyIndex).msgLen)) ∧
    ((injectValues buf msg values).msgLen.toNat = valuesSize values ∧
      ∃ val, FixedSize.extractValues
            (store rest pos (sentBytes (injectValues buf msg values) msg)) pos staleVal
          = some (val, (injectValues buf msg values).msgLen) ∧
        val.size = values.length ∧ val.toPairs = values ∧
        ∀ buf' msg',
          sentBytes (FixedSize.injectValues buf' msg' val) msg'
            = sentBytes (injectValues buf msg values) msg ∧
          extractValues (store rest pos (sentBytes (FixedSize.injectValues buf' msg' val) msg')) pos
            = (values, (FixedSize.injectValues buf' msg' val).msgLen)) :=
  ⟨key_roundTrip hkey buf rest msg pos staleKey,
    values_roundTrip hcount hfields buf rest msg pos staleVal⟩

theorem codecs_agree_full :
    ∃ keyIndex val,
      FixedSize.extractKeyIndex (store (fun _ => 0xFF) 5
          (sentBytes (injectKeyIndex (fun _ => 0) 7 (List.replicate 33 0x75)) 7)) 5
          (FixedArray.blank 33 0xAA) = some (keyIndex, 37) ∧
      keyIndex.toList = List.replicate 33 0x75 ∧
      FixedSize.extractValues (store (fun _ => 0xFF) 5
          (sentBytes (injectValues (fun _ => 0) 7
            (List.replicate 10 (List.replicate 6 0x66, List.replicate 100 0x20))) 7)) 5
          (FixedArray.blank 10 (FixedArray.blank 6 0xAA, FixedArray.blank 100 0xAA))
        = some (val, (injectValues (fun _ => 0) 7
            (List.replicate 10 (List.replicate 6 0x66, List.replicate 100 0x20))).msgLen) ∧
      val.toPairs = List.replicate 10 (List.replicate 6 0x66, List.replicate 100 0x20) := by
  have hfields : ∀ kv ∈ List.replicate 10
      ((List.replicate 6 0x66, List.replicate 100 0x20) : List Byte × List Byte),
      kv.1.length ≤ 6 ∧ kv.2.length ≤ 100 := by
    intro kv hmem
    obtain rfl := (List.mem_replicate.mp hmem).2
    exact ⟨Nat.le_of_eq List.length_replicate, Nat.le_of_eq List.length_replicate⟩
  obtain ⟨⟨hlen, keyIndex, hkey, -, hbytes, -⟩, ⟨-, val, hval, -, hpairs, -⟩⟩ :=
    codecs_agree (Nat.le_of_eq (@List.length_replicate Byte 33 0x75))
      (Nat.le_of_eq List.length_replicate) hfields (fun _ => 0) (fun _ => 0xFF) 7 5
      (FixedArray.blank 33 0xAA)
      (FixedArray.blank 10 (FixedArray.blank 6 0xAA, FixedArray.blank 100 0xAA))
  have h37 : (injectKeyIndex (fun _ => 0) 7 (List.replicate 33 0x75)).msgLen = 37 :=
    BitVec.eq_of_toNat_eq hlen
  rw [h37] at hkey
  exact ⟨keyIndex, val, hkey, hbytes, hval, hpairs⟩

end FatBTree.Rdma
