import FatBTree.Ethernet.MapSemantics
import FatBTree.Ethernet.QueryHeader
import FatBTree.Rdma.Capacity
import FatBTree.Rdma.FixedSize
import Mathlib.Data.List.Lex

/-!
# Requests to the RDMA backend

One request after the other is written by a client, read by its handler and
answered.  The handler of an update does not call the tree, so a read is
answered with the value list of the last insertion.
-/

namespace FatBTree.Rdma

open FatBTree.Tree FatBTree.Wire
open FatBTree.Ethernet (htonl sentBytes extractFbtHdr emitFbt)

/-! ## Keys -/

/-- The characters of a key as `operator<` compares them; `char` is signed. -/
def chars (key : List Byte) : List Int :=
  key.map BitVec.toInt

theorem chars_injective : Function.Injective chars :=
  List.map_injective_iff.mpr fun _ _ heq => BitVec.eq_of_toInt_eq heq

instance : Inhabited ValType :=
  ⟨.blank 10 (.blank 6 0, .blank 100 0)⟩

/-- The tree of the backend. -/
abbrev Store := State (List Int) ValType

/-! ## The handlers -/

/-- `inject_msg_type`. -/
def injectMsgType (buf : Nat → Byte) (msg : Nat) (msgType : BitVec 32) : Writer :=
  Writer.put ⟨buf, 0⟩ msg (unsignedBytes (htonl msgType))

/-- `extract_msg_type`. -/
def extractMsgType (buf : Nat → Byte) (msg : Nat) : BitVec 32 × BitVec 32 :=
  (htonl (loadUnsigned buf msg), 4)

/-- What uninitialised memory holds while a request is made and handled. -/
structure Memory where
  clientMsg : Nat → Byte
  msg : Nat → Byte
  ret : Nat → Byte
  keyIndex : KeyType
  values : ValType

/-- A reply that is a message type only. -/
def ack (ret : Nat → Byte) (msgType : BitVec 32) : List Byte :=
  sentBytes (injectMsgType ret 0 msgType) 0

/-- A reply with a value list. -/
def answer (ret : Nat → Byte) (values : ValType) : List Byte :=
  sentBytes ((injectMsgType ret 0 0x0529).next 0 (FixedSize.injectValues · · values)) 0

def handleInsert (memory : Memory) (σ : Store) (buf : Nat → Byte) (msg : Nat) :
    Option (List Byte × Store) := do
  let (keyIndex, read) ← FixedSize.extractKeyIndex buf msg memory.keyIndex
  let msg := msg + read.toNat
  let (values, _) ← FixedSize.extractValues buf msg memory.values
  let σ ← Tree.insert 16 rdma σ (chars keyIndex.toList) values
  return (ack memory.ret 0x0528, σ)

/-- The call of `update` is commented out. -/
def handleUpdate (memory : Memory) (σ : Store) (buf : Nat → Byte) (msg : Nat) :
    Option (List Byte × Store) := do
  let (read, _) ← extractFbtHdr (load buf msg 14)
  let msg := msg + read
  let (_, read) ← FixedSize.extractKeyIndex buf msg memory.keyIndex
  let msg := msg + read.toNat
  let _ ← FixedSize.extractValues buf msg memory.values
  return (ack memory.ret 0x0530, σ)

/-- `nodeAt` is the node at an address that is not null. -/
def handleQuery (nodeAt : BitVec 64 → Nat) (memory : Memory) (σ : Store) (buf : Nat → Byte)
    (msg : Nat) : Option (List Byte × Store) := do
  let (read, fbtIdx) ← extractFbtHdr (load buf msg 14)
  let msg := msg + read
  let (keyIndex, _) ← FixedSize.extractKeyIndex buf msg memory.keyIndex
  let cur := if fbtIdx = 0 then root else nodeAt fbtIdx
  let (values, σ) ← Tree.lookup σ (chars keyIndex.toList) cur
  return (answer memory.ret values, σ)

/-- One iteration of the main loop on a packet with the given payload. -/
def handle (nodeAt : BitVec 64 → Nat) (memory : Memory) (σ : Store) (payload : List Byte) :
    Option (List Byte × Store) :=
  let buf := store memory.msg 0 payload
  let (msgType, msgLen) := extractMsgType buf 0
  if msgType = 0x0526 then handleInsert memory σ buf msgLen.toNat
  else if msgType = 0x0527 then handleQuery nodeAt memory σ buf msgLen.toNat
  else if msgType = 0x0531 then handleUpdate memory σ buf msgLen.toNat
  else none

/-! ## The clients -/

/-- `inject_fbt_hdr`. -/
def injectFbtHdr (buf : Nat → Byte) (msg : Nat) (fbtKey : BitVec 64) : Writer :=
  Ethernet.Frontend.injectFbtHdr buf msg fbtKey

/-- A key that fits `KEY_TYPE`. -/
abbrev RequestKey := { key : List Byte // key.length ≤ 33 }

/-- A value list that fits `VAL_TYPE`. -/
abbrev RequestValues :=
  { values : Values // values.length ≤ 10 ∧ ∀ kv ∈ values, kv.1.length ≤ 6 ∧ kv.2.length ≤ 100 }

inductive Request where
  | insert (key : RequestKey) (values : RequestValues)
  | update (key : RequestKey) (values : RequestValues)
  | read (key : RequestKey)

/-- What `Insert`, `Update` and `Read` write to `msg`; `fbtKey` is
`remove_key_index_prefix`. -/
def Request.write (fbtKey : List Byte → BitVec 64) (buf : Nat → Byte) : Request → Writer
  | .insert key values =>
      ((injectMsgType buf 0 0x0526).next 0 (injectKeyIndex · · key.val)).next 0
        (injectValues · · values.val)
  | .update key values =>
      (((injectMsgType buf 0 0x0531).next 0 (injectFbtHdr · · (fbtKey key.val))).next 0
        (injectKeyIndex · · key.val)).next 0 (injectValues · · values.val)
  | .read key =>
      ((injectMsgType buf 0 0x0527).next 0 (injectFbtHdr · · (fbtKey key.val))).next 0
        (injectKeyIndex · · key.val)

/-- The value list in a reply to `Read`. -/
def readReply (msg : Nat → Byte) (reply : List Byte) : Option Values :=
  let buf := store msg 0 reply
  let (msgType, msgLen) := extractMsgType buf 0
  if msgType = 0x0529 then some (extractValues buf msgLen.toNat).1 else none

/-- A request and the memory around it. -/
structure Arrival where
  memory : Memory
  request : Request

/-- Requests handled one after another, with their replies. -/
def mainLoop (nodeAt : BitVec 64 → Nat) (fbtKey : List Byte → BitVec 64) :
    List Arrival → Store → Option (List (List Byte) × Store)
  | [], σ => some ([], σ)
  | ⟨memory, request⟩ :: arrivals, σ => do
      let payload := sentBytes (request.write fbtKey memory.clientMsg) 0
      let (reply, σ) ← handle nodeAt memory σ payload
      let (replies, σ) ← mainLoop nodeAt fbtKey arrivals σ
      return (reply :: replies, σ)

/-! ## The reference -/

/-- A field overwritten, or appended when the record does not have it. -/
def setField (field : List Byte × List Byte) : Values → Values
  | [] => [field]
  | kv :: rest => if kv.1 = field.1 then field :: rest else kv :: setField field rest

/-- The records a map holds after a request. -/
def Request.refer (records : List Byte → Option Values) : Request → List Byte → Option Values
  | .insert key values => Function.update records key.val (some values.val)
  | .update key values =>
      Function.update records key.val
        ((records key.val).map fun record => values.val.foldl (fun record kv => setField kv record) record)
  | .read _ => records

def reference (requests : List Request) : List Byte → Option Values :=
  requests.foldl Request.refer fun _ => none

def Request.isInsert : Request → Bool
  | .insert _ _ => true
  | .update _ _ => false
  | .read _ => false

/-- The records without the updates: the value list of the last insertion of
each key. -/
def lastInserted (requests : List Request) : List Byte → Option Values :=
  reference (requests.filter Request.isInsert)

/-- Updates and reads name keys inserted before. -/
def NamesInserted (requests : List Request) : Prop :=
  ∀ before request after key, requests = before ++ request :: after →
    (request = .read key ∨ ∃ values, request = .update key values) →
      ∃ values, .insert key values ∈ before

/-! ## What travels -/

/-- The bytes of a request. -/
def Request.bytes (fbtKey : List Byte → BitVec 64) : Request → List Byte
  | .insert key values =>
      unsignedBytes (htonl 0x0526) ++ stringBytes key.val ++ valuesBytes values.val
  | .update key values =>
      unsignedBytes (htonl 0x0531) ++ Ethernet.fbtBytes (fbtKey key.val) ++ stringBytes key.val ++
        valuesBytes values.val
  | .read key =>
      unsignedBytes (htonl 0x0527) ++ Ethernet.fbtBytes (fbtKey key.val) ++ stringBytes key.val

section Wire

variable {buf : Nat → Byte} {pos : Nat}

theorem length_fbtBytes (key : BitVec 64) : (Ethernet.fbtBytes key).length = 14 := rfl

theorem injectMsgType_eq (buf : Nat → Byte) (msg : Nat) (msgType : BitVec 32) :
    injectMsgType buf msg msgType = wrote buf msg (unsignedBytes (htonl msgType)) := by
  rw [injectMsgType, ← @wrote_nil buf msg, wrote_put (by simp), List.nil_append]

theorem extractMsgType_eq {msgType : BitVec 32}
    (reads : Reads buf pos (unsignedBytes (htonl msgType))) :
    extractMsgType buf pos = (msgType, 4) := by
  rw [extractMsgType, loadUnsigned_of_reads reads, Ethernet.htonl_htonl]

theorem extractFbtHdr_of_reads {key : BitVec 64} (reads : Reads buf pos (Ethernet.fbtBytes key)) :
    extractFbtHdr (load buf pos 14) = some (14, 0) := by
  have hload : load buf pos 14 = Ethernet.fbtBytes key := reads
  have hfound := Ethernet.extractFbtHdr_emitFbt ((key >>> 32).setWidth 32)
    ((key &&& 0xffffffff).setWidth 32) 0 []
  rw [List.append_nil, ← Ethernet.fbtBytes_eq] at hfound
  rw [hload, hfound]
  rfl

theorem Request.write_eq (fbtKey : List Byte → BitVec 64) (buf : Nat → Byte) (request : Request) :
    request.write fbtKey buf = wrote buf 0 (request.bytes fbtKey) := by
  have hfbt : ∀ key buf msg, injectFbtHdr buf msg key = wrote buf msg (Ethernet.fbtBytes key) :=
    fun key buf msg => Ethernet.Frontend.injectFbtHdr_eq buf msg key
  have hkey : ∀ key buf msg, injectKeyIndex buf msg key = wrote buf msg (stringBytes key) :=
    fun key _ _ => Wire.injectKeyIndex_eq key
  have hvalues : ∀ (values : RequestValues) buf msg,
      injectValues buf msg values.val = wrote buf msg (valuesBytes values.val) :=
    fun values _ _ => Wire.injectValues_eq
      (FixedSize.length_valuesBytes_lt values.property.1 values.property.2)
  have hhead : ∀ msgType key, (unsignedBytes (htonl msgType) ++ Ethernet.fbtBytes key).length = 18 :=
    fun _ _ => rfl
  cases request with
  | insert key values =>
      have hfit := key.property
      rw [write, bytes, injectMsgType_eq, wrote_next (by simp) (hkey key.val),
        wrote_next _ (hvalues values)]
      rw [List.length_append, length_stringBytes, length_unsignedBytes]
      omega
  | update key values =>
      have hfit := key.property
      rw [write, bytes, injectMsgType_eq, wrote_next (by simp) (hfbt _),
        wrote_next (by rw [hhead]; decide) (hkey key.val), wrote_next _ (hvalues values)]
      rw [List.length_append, hhead, length_stringBytes]
      omega
  | read key =>
      rw [write, bytes, injectMsgType_eq, wrote_next (by simp) (hfbt _),
        wrote_next (by rw [hhead]; decide) (hkey key.val)]

theorem Request.length_bytes_lt (fbtKey : List Byte → BitVec 64) (request : Request) :
    (request.bytes fbtKey).length < 2 ^ 32 := by
  cases request with
  | insert key values =>
      have hkey := key.property
      have hvalues := FixedSize.valuesSize_le values.property.2
      have hcount := values.property.1
      simp only [bytes, List.length_append, length_unsignedBytes, length_stringBytes,
        Ethernet.length_valuesBytes]
      omega
  | update key values =>
      have hkey := key.property
      have hvalues := FixedSize.valuesSize_le values.property.2
      have hcount := values.property.1
      simp only [bytes, List.length_append, length_unsignedBytes, length_stringBytes,
        Ethernet.length_valuesBytes, length_fbtBytes]
      omega
  | read key =>
      have hkey := key.property
      simp only [bytes, List.length_append, length_unsignedBytes, length_stringBytes,
        length_fbtBytes]
      omega

end Wire

/-! ## One request -/

section Newest

variable {κ V : Type} [LinearOrder κ]

/-- The value recorded last for a key. -/
def newest (history : List (κ × V)) (k : κ) : Option V :=
  history.lookup k

theorem newest_cons (history : List (κ × V)) (x k : κ) (v : V) :
    newest ((x, v) :: history) k = if k = x then some v else newest history k := by
  rw [newest, newest, List.lookup_cons]
  split_ifs with heq
  · rw [beq_iff_eq.mpr heq]
  · rw [beq_false_of_ne heq]

theorem ceiling_eq_newest {history : List (κ × V)} {k : κ} {v : V}
    (hnewest : newest history k = some v) : ceiling history k = some v := by
  have hmem : k ∈ keysOf history := by
    obtain ⟨before, after, rfl, -⟩ := List.lookup_eq_some_iff.mp hnewest
    simp [keysOf]
  rw [Ethernet.ceiling_of_mem hmem, ← hnewest, newest]

end Newest

section Handle

variable (nodeAt : BitVec 64 → Nat) (memory : Memory) {w : World (List Int) ValType}
  {history : List (List Int × ValType)}

/-- The main loop hands the rest of the packet to the handler of its type. -/
theorem handle_typed (σ : Store) (msgType : BitVec 32) (rest : List Byte) :
    ∃ buf, Reads buf 4 rest ∧
      handle nodeAt memory σ (unsignedBytes (htonl msgType) ++ rest)
        = if msgType = 0x0526 then handleInsert memory σ buf 4
          else if msgType = 0x0527 then handleQuery nodeAt memory σ buf 4
          else if msgType = 0x0531 then handleUpdate memory σ buf 4
          else none := by
  have reads : Reads (store memory.msg 0 (unsignedBytes (htonl msgType) ++ rest)) 0
      (unsignedBytes (htonl msgType) ++ rest) := reads_store
  refine ⟨_, reads.right, ?_⟩
  rw [handle]
  simp only [extractMsgType_eq reads.left]
  rfl

theorem toNat_length_stringBytes (key : RequestKey) :
    (BitVec.ofNat 32 (stringBytes key.val).length).toNat = (stringBytes key.val).length := by
  have hfit := key.property
  rw [length_stringBytes, BitVec.toNat_ofNat, Nat.mod_eq_of_lt (by omega)]

theorem handleInsert_eq (settled : Settled 16 w history) {key : RequestKey}
    {values : RequestValues} {buf : Nat → Byte} {msg : Nat}
    (reads : Reads buf msg (stringBytes key.val ++ valuesBytes values.val)) :
    ∃ w' val, handleInsert memory w.state buf msg = some (ack memory.ret 0x0528, w'.state) ∧
      Settled 16 w' ((chars key.val, val) :: history) ∧ val.toPairs = values.val := by
  obtain ⟨keyIndex, hgetKey, hlist⟩ :=
    FixedSize.extractKeyIndex_of_reads buf msg key.property reads.left memory.keyIndex
  obtain ⟨val, hgetValues, hpairs⟩ :=
    FixedSize.extractValues_of_reads _ _ values.property.1 values.property.2 reads.right
      memory.values
  obtain ⟨w', hinsert, hsettled, -⟩ := settled.insert_eq rdma (chars key.val) val
  refine ⟨w', val, ?_, hsettled, hpairs⟩
  rw [handleInsert, hgetKey]
  simp only [Option.bind_eq_bind, Option.bind_some, toNat_length_stringBytes, hgetValues, hlist,
    hinsert, Option.pure_def]

theorem handleUpdate_eq {σ : Store} {key : RequestKey} {values : RequestValues}
    {fbt : BitVec 64} {buf : Nat → Byte} {msg : Nat}
    (reads : Reads buf msg
      (Ethernet.fbtBytes fbt ++ (stringBytes key.val ++ valuesBytes values.val))) :
    handleUpdate memory σ buf msg = some (ack memory.ret 0x0530, σ) := by
  have hbody := reads.right
  rw [length_fbtBytes] at hbody
  obtain ⟨keyIndex, hgetKey, -⟩ :=
    FixedSize.extractKeyIndex_of_reads buf (msg + 14) key.property hbody.left memory.keyIndex
  obtain ⟨val, hgetValues, -⟩ :=
    FixedSize.extractValues_of_reads _ _ values.property.1 values.property.2 hbody.right
      memory.values
  rw [handleUpdate, extractFbtHdr_of_reads reads.left]
  simp only [Option.bind_eq_bind, Option.bind_some, hgetKey, toNat_length_stringBytes, hgetValues,
    Option.pure_def]

/-- A read of an inserted key is answered with what the tree has for it. -/
theorem handleQuery_eq (settled : Settled 16 w history) {key : RequestKey} {val : ValType}
    (hval : newest history (chars key.val) = some val)
    {fbt : BitVec 64} {buf : Nat → Byte} {msg : Nat}
    (reads : Reads buf msg (Ethernet.fbtBytes fbt ++ stringBytes key.val)) :
    ∃ w', handleQuery nodeAt memory w.state buf msg = some (answer memory.ret val, w'.state) ∧
      Settled 16 w' history := by
  have shape := settled.shape
  have hkey := reads.right
  rw [length_fbtBytes] at hkey
  obtain ⟨keyIndex, hgetKey, hlist⟩ :=
    FixedSize.extractKeyIndex_of_reads buf (msg + 14) key.property hkey memory.keyIndex
  have hanswer := Settled.lookup_eq settled shape.root_lt shape.root_isValue
    (settled.ordered.holds_root (chars key.val))
  rw [ceiling_eq_newest hval] at hanswer
  obtain ⟨⟨found, σ⟩, hlookup, hfound⟩ := Option.map_eq_some_iff.mp hanswer
  obtain rfl : found = val := hfound
  have hsame := shape.sameTree_lookup shape.root_lt hlookup
  refine ⟨⟨σ, w.dist, w.bounds⟩, ?_, hsame.settled settled⟩
  rw [handleQuery, extractFbtHdr_of_reads reads.left]
  simp only [Option.bind_eq_bind, Option.bind_some, hgetKey, hlist, if_pos, hlookup,
    Option.pure_def]

/-- A client reads out of the reply what the handler put in. -/
theorem readReply_eq (val : ValType) (ret msg : Nat → Byte) :
    readReply msg (answer ret val) = some val.toPairs := by
  have hfit := FixedSize.length_valuesBytes_lt val.length_toPairs_le val.fields_toPairs
  have hinject : ∀ buf msg,
      FixedSize.injectValues buf msg val = wrote buf msg (valuesBytes val.toPairs) := by
    intro buf msg
    rw [FixedSize.injectValues_eq]
    exact Wire.injectValues_eq hfit
  have hlen : (unsignedBytes (htonl 0x0529) ++ valuesBytes val.toPairs).length < 2 ^ 32 := by
    have hsize := FixedSize.valuesSize_le val.fields_toPairs
    have hcount := val.length_toPairs_le
    rw [List.length_append, length_unsignedBytes, Ethernet.length_valuesBytes]
    omega
  rw [answer, injectMsgType_eq, wrote_next (by simp) hinject, Ethernet.sentBytes_wrote hlen]
  have reads : Reads (store msg 0 (unsignedBytes (htonl 0x0529) ++ valuesBytes val.toPairs)) 0
      (unsignedBytes (htonl 0x0529) ++ valuesBytes val.toPairs) := reads_store
  have hread := Wire.extractValues_eq reads.right hfit
  rw [readReply]
  simp only [extractMsgType_eq reads.left, if_true]
  rw [extractValues]
  exact congrArg (fun found => some found.1) hread

end Handle

/-! ## Runs -/

theorem reference_append_singleton (requests : List Request) (request : Request) :
    reference (requests ++ [request]) = request.refer (reference requests) := by
  rw [reference, List.foldl_append, List.foldl_cons, List.foldl_nil, reference]

/-- Only insertions count for `lastInserted`. -/
theorem lastInserted_append_singleton (requests : List Request) (request : Request) :
    lastInserted (requests ++ [request])
      = if request.isInsert then request.refer (lastInserted requests) else lastInserted requests := by
  rw [lastInserted, List.filter_append, List.filter_singleton, Bool.cond_eq_ite]
  split_ifs
  · exact reference_append_singleton _ request
  · rw [List.append_nil, lastInserted]

theorem lastInserted_of_mem {requests : List Request} {key : RequestKey} {values : RequestValues}
    (hmem : .insert key values ∈ requests) : ∃ found, lastInserted requests key.val = some found := by
  induction requests using List.reverseRecOn with
  | nil => cases hmem
  | append_singleton requests request ih =>
      rw [lastInserted_append_singleton]
      rcases List.mem_append.mp hmem with hbefore | hlast
      · obtain ⟨found, hfound⟩ := ih hbefore
        cases request with
        | insert key' values' =>
            rcases eq_or_ne key.val key'.val with heq | hne
            · exact ⟨values'.val, by simp [Request.isInsert, Request.refer, heq]⟩
            · exact ⟨found, by simp [Request.isInsert, Request.refer, hne, hfound]⟩
        | update key' values' => exact ⟨found, hfound⟩
        | read key' => exact ⟨found, hfound⟩
      · obtain rfl := List.mem_singleton.mp hlast
        exact ⟨values.val, by simp [Request.isInsert, Request.refer]⟩

/-- The tree holds the given records. -/
def Holds (w : World (List Int) ValType) (records : List Byte → Option Values) : Prop :=
  ∃ history, Settled 16 w history ∧ ∀ key values, records key = some values →
    ∃ val, newest history (chars key) = some val ∧ val.toPairs = values

section Run

variable (nodeAt : BitVec 64 → Nat) (fbtKey : List Byte → BitVec 64)
  {w : World (List Int) ValType}

theorem Holds.insert {records : List Byte → Option Values} {history : List (List Int × ValType)}
    (settled : Settled 16 w history)
    (found : ∀ key values, records key = some values →
      ∃ val, newest history.tail (chars key) = some val ∧ val.toPairs = values)
    {key : List Byte} {val : ValType} (hhead : history.head? = some (chars key, val)) :
    Holds w (Function.update records key (some val.toPairs)) := by
  obtain ⟨rest, rfl⟩ := List.head?_eq_some_iff.mp hhead
  refine ⟨_, settled, fun key' values hrecord => ?_⟩
  rw [newest_cons]
  rcases eq_or_ne key' key with rfl | hne
  · rw [Function.update_self] at hrecord
    rw [if_pos rfl]
    exact ⟨val, rfl, Option.some.inj hrecord⟩
  · rw [Function.update_of_ne hne] at hrecord
    rw [if_neg (chars_injective.ne hne)]
    exact found key' values hrecord

/-- One request keeps the tree in step with the last insertions, and a read is
answered out of them. -/
theorem handle_eq {before : List Request} (holds : Holds w (lastInserted before))
    (memory : Memory) {request : Request}
    (named : ∀ key, request = .read key → ∃ values, lastInserted before key.val = some values) :
    ∃ reply w', handle nodeAt memory w.state (request.bytes fbtKey) = some (reply, w'.state) ∧
      Holds w' (lastInserted (before ++ [request])) ∧
      ∀ key, request = .read key → ∀ msg, readReply msg reply = lastInserted before key.val := by
  obtain ⟨history, settled, found⟩ := holds
  rw [lastInserted_append_singleton]
  cases request with
  | insert key values =>
      obtain ⟨buf, reads, hhandle⟩ := handle_typed nodeAt memory w.state 0x0526
        (stringBytes key.val ++ valuesBytes values.val)
      obtain ⟨w', val, hinsert, hsettled, hpairs⟩ := handleInsert_eq memory settled reads
      have hholds := Holds.insert hsettled found rfl
      rw [hpairs] at hholds
      refine ⟨ack memory.ret 0x0528, w', ?_, hholds, fun key' heq => nomatch heq⟩
      rw [Request.bytes, List.append_assoc, hhandle, if_pos rfl, hinsert]
  | update key values =>
      obtain ⟨buf, reads, hhandle⟩ := handle_typed nodeAt memory w.state 0x0531
        (Ethernet.fbtBytes (fbtKey key.val) ++ (stringBytes key.val ++ valuesBytes values.val))
      refine ⟨ack memory.ret 0x0530, w, ?_, ⟨history, settled, found⟩, fun key' heq => nomatch heq⟩
      rw [Request.bytes, List.append_assoc, List.append_assoc, hhandle, if_neg (by decide),
        if_neg (by decide), if_pos rfl, handleUpdate_eq memory reads]
  | read key =>
      obtain ⟨buf, reads, hhandle⟩ := handle_typed nodeAt memory w.state 0x0527
        (Ethernet.fbtBytes (fbtKey key.val) ++ stringBytes key.val)
      obtain ⟨values, hrecord⟩ := named key rfl
      obtain ⟨val, hnewest, hpairs⟩ := found key.val values hrecord
      obtain ⟨w', hquery, hsettled⟩ := handleQuery_eq nodeAt memory settled hnewest reads
      refine ⟨answer memory.ret val, w', ?_, ⟨history, hsettled, found⟩, ?_⟩
      · rw [Request.bytes, List.append_assoc, hhandle, if_neg (by decide), if_pos rfl, hquery]
      · rintro key' heq msg
        cases heq
        rw [readReply_eq, hpairs, hrecord]

/-- A run answers every read out of the last insertions. -/
theorem mainLoop_eq {before : List Request} (holds : Holds w (lastInserted before))
    (arrivals : List Arrival) (legal : NamesInserted (before ++ arrivals.map Arrival.request)) :
    ∃ replies, ∃ w' : World (List Int) ValType,
      mainLoop nodeAt fbtKey arrivals w.state = some (replies, w'.state) ∧
      ∀ i arrival key, arrivals[i]? = some arrival → arrival.request = .read key →
        ∃ reply, replies[i]? = some reply ∧ ∀ msg, readReply msg reply
          = lastInserted (before ++ (arrivals.map Arrival.request).take i) key.val := by
  induction arrivals generalizing w before with
  | nil => exact ⟨[], w, rfl, fun i arrival key harrival => by simp at harrival⟩
  | cons arrival arrivals ih =>
      obtain ⟨memory, request⟩ := arrival
      have named : ∀ key, request = .read key →
          ∃ values, lastInserted before key.val = some values := by
        intro key hread
        obtain ⟨values, hmem⟩ := legal before request _ key rfl (Or.inl hread)
        exact lastInserted_of_mem hmem
      obtain ⟨reply, w', hhandle, hholds, hreply⟩ :=
        handle_eq nodeAt fbtKey holds memory named
      have hlegal : NamesInserted ((before ++ [request]) ++ arrivals.map Arrival.request) := by
        rw [List.append_assoc]
        exact legal
      obtain ⟨replies, last, hrun, hreplies⟩ := ih hholds hlegal
      refine ⟨reply :: replies, last, ?_, ?_⟩
      · have hsent : sentBytes (request.write fbtKey memory.clientMsg) 0 = request.bytes fbtKey := by
          rw [Request.write_eq, Ethernet.sentBytes_wrote (Request.length_bytes_lt fbtKey request)]
        rw [mainLoop, hsent, hhandle]
        simp only [Option.bind_eq_bind, Option.bind_some, hrun, Option.pure_def]
      · intro i arrival key harrival hread
        cases i with
        | zero =>
            cases harrival
            exact ⟨reply, rfl, by simpa using hreply key hread⟩
        | succ i =>
            obtain ⟨later, hlater, hanswer⟩ := hreplies i arrival key harrival hread
            refine ⟨later, hlater, fun msg => ?_⟩
            rw [hanswer, List.append_assoc, List.map_cons, List.take_succ_cons]
            rfl

end Run

/-- Every run is served, and its reads are answered out of the reference map
exactly when the updates of a key since its last insertion leave its record as
it was inserted wherever the key is read. -/
theorem reads_match_reference_iff (nodeAt : BitVec 64 → Nat) (fbtKey : List Byte → BitVec 64)
    (arrivals : List Arrival) (legal : NamesInserted (arrivals.map Arrival.request)) :
    ∃ replies σ, mainLoop nodeAt fbtKey arrivals State.empty = some (replies, σ) ∧
      ((∀ i arrival key, arrivals[i]? = some arrival → arrival.request = .read key →
          ∃ reply, replies[i]? = some reply ∧
            readReply arrival.memory.clientMsg reply
              = reference ((arrivals.map Arrival.request).take i) key.val) ↔
        ∀ i key, (arrivals.map Arrival.request)[i]? = some (.read key) →
          reference ((arrivals.map Arrival.request).take i) key.val
            = lastInserted ((arrivals.map Arrival.request).take i) key.val) := by
  have hstart : Holds (⟨State.empty, fun _ => 0, ⟨fun _ => ⊥, fun _ => ⊤⟩⟩ :
      World (List Int) ValType) (lastInserted []) :=
    ⟨[], settled_empty, fun _ _ hrecord => nomatch hrecord⟩
  obtain ⟨replies, w, hrun, hreplies⟩ := mainLoop_eq nodeAt fbtKey hstart arrivals legal
  refine ⟨replies, w.state, hrun, ?_, ?_⟩
  · intro hmatch i key hread
    rw [List.getElem?_map] at hread
    obtain ⟨arrival, harrival, hrequest⟩ := Option.map_eq_some_iff.mp hread
    obtain ⟨reply, hreply, hreference⟩ := hmatch i arrival key harrival hrequest
    obtain ⟨reply', hreply', hinserted⟩ := hreplies i arrival key harrival hrequest
    rw [hreply] at hreply'
    cases hreply'
    rw [← hreference, hinserted, List.nil_append]
  · intro hunchanged i arrival key harrival hread
    obtain ⟨reply, hreply, hinserted⟩ := hreplies i arrival key harrival hread
    refine ⟨reply, hreply, ?_⟩
    rw [hinserted, List.nil_append, hunchanged i key]
    rw [List.getElem?_map, harrival, Option.map_some, hread]

theorem namesInserted_cons {key : RequestKey} {values : RequestValues} {rest : List Request}
    (hsame : ∀ request ∈ rest, ∀ key',
      (request = .read key' ∨ ∃ values, request = .update key' values) → key' = key) :
    NamesInserted (.insert key values :: rest) := by
  intro before request after key' hsplit hnames
  cases before with
  | nil =>
      obtain ⟨rfl, -⟩ := List.cons.inj hsplit
      rcases hnames with hread | ⟨values', hupdate⟩
      · cases hread
      · cases hupdate
  | cons first before =>
      obtain ⟨rfl, rfl⟩ := List.cons.inj hsplit
      obtain rfl := hsame request (by simp) key' hnames
      exact ⟨values, List.mem_cons_self⟩

theorem namesInserted_three (key : RequestKey) (values values' : RequestValues) :
    NamesInserted [.insert key values, .update key values', .read key] := by
  refine namesInserted_cons fun request hmem key' hnames => ?_
  rcases hnames with rfl | ⟨values'', rfl⟩
  · rcases List.mem_cons.mp hmem with heq | hlast
    · cases heq
    · exact Request.read.inj (List.mem_singleton.mp hlast)
  · rcases List.mem_cons.mp hmem with heq | hlast
    · exact (Request.update.inj heq).1
    · cases List.mem_singleton.mp hlast

/-- An update that writes what is there already. -/
theorem reads_match_reference_same_field :
    let memory : Memory :=
      ⟨fun _ => 0, fun _ => 0, fun _ => 0, .blank 33 0, .blank 10 (.blank 6 0, .blank 100 0)⟩
    let key : RequestKey := ⟨[0x6B], by decide⟩
    let values : RequestValues := ⟨[([0x66], [0x61])], by decide⟩
    ∃ replies σ, mainLoop (fun _ => root) (fun _ => 0) [⟨memory, .insert key values⟩,
        ⟨memory, .update key values⟩, ⟨memory, .read key⟩] State.empty = some (replies, σ) ∧
      ∃ reply, replies[2]? = some reply ∧
        readReply memory.clientMsg reply = some [([0x66], [0x61])] := by
  intro memory key values
  obtain ⟨replies, σ, hrun, hiff⟩ := reads_match_reference_iff (fun _ => root) (fun _ => 0)
    [⟨memory, .insert key values⟩, ⟨memory, .update key values⟩, ⟨memory, .read key⟩]
    (namesInserted_three key values values)
  refine ⟨replies, σ, hrun, hiff.mpr ?_ 2 ⟨memory, .read key⟩ key rfl rfl⟩
  intro i key' hread
  match i with
  | 0 => cases hread
  | 1 => cases hread
  | 2 => cases hread; decide
  | i + 3 => cases hread

/-- An acknowledged update, and a read behind it that does not see it. -/
theorem update_is_lost :
    let memory : Memory :=
      ⟨fun _ => 0, fun _ => 0, fun _ => 0, .blank 33 0, .blank 10 (.blank 6 0, .blank 100 0)⟩
    let key : RequestKey := ⟨[0x6B], by decide⟩
    let requests : List Request :=
      [.insert key ⟨[([0x66], [0x61])], by decide⟩, .update key ⟨[([0x66], [0x62])], by decide⟩,
        .read key]
    NamesInserted requests ∧
    (mainLoop (fun _ => root) (fun _ => 0) (requests.map fun request => ⟨memory, request⟩)
        State.empty).map (fun served => (served.1.map (fun reply => (reply.drop 2).take 2),
          (served.1[2]?).bind (readReply memory.clientMsg)))
      = some ([[0x05, 0x28], [0x05, 0x30], [0x05, 0x29]], some [([0x66], [0x61])]) ∧
    reference (requests.take 2) key.val = some [([0x66], [0x62])] :=
  ⟨namesInserted_three _ _ _, by decide +kernel⟩

end FatBTree.Rdma
