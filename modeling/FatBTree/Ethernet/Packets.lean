import FatBTree.Ethernet.MapSemantics
import FatBTree.Ethernet.QueryHeader
import FatBTree.Tcam.RootMerge
import Mathlib.Data.List.Lex
import Mathlib.Data.List.Perm.Subperm

/-!
# Requests of the Ethernet frontend

A client writes a request into a buffer of 1472 bytes and takes the reply apart.  The
switch looks into reads only, and there it writes the six bytes of the index.
-/

namespace FatBTree.Ethernet

open FatBTree.P4 FatBTree.Text FatBTree.Wire FatBTree.Workload

/-! ## Strings -/

/-- A `std::string`, with a character for each byte. -/
def textOf (bytes : List Byte) : List Char :=
  bytes.map fun byte => Char.ofNat byte.toNat

def bytesOf (text : List Char) : List Byte :=
  text.map fun c => BitVec.ofNat 8 c.toNat

def tableOf (values : Values) : FieldTable :=
  values.map fun kv => (String.ofList (textOf kv.1), String.ofList (textOf kv.2))

def valuesOf (table : FieldTable) : Values :=
  table.map fun kv => (bytesOf kv.1.toList, bytesOf kv.2.toList)

theorem bytesOf_textOf (bytes : List Byte) : bytesOf (textOf bytes) = bytes := by
  rw [bytesOf, textOf, List.map_map]
  refine (List.map_congr_left fun byte _ => ?_).trans (List.map_id bytes)
  have hbyte := byte.isLt
  have hvalid : byte.toNat.isValidChar := Or.inl (by omega)
  have hchar : (Char.ofNat byte.toNat).toNat = byte.toNat := by
    rw [Char.ofNat, dif_pos hvalid]
    rfl
  rw [Function.comp_apply, hchar, BitVec.ofNat_toNat, BitVec.setWidth_eq]
  rfl

theorem textOf_bytesOf {text : List Char} (small : ∀ c ∈ text, c.toNat < 256) :
    textOf (bytesOf text) = text := by
  rw [bytesOf, textOf, List.map_map]
  refine (List.map_congr_left fun c hc => ?_).trans (List.map_id text)
  rw [Function.comp_apply, BitVec.toNat_ofNat, Nat.mod_eq_of_lt (small c hc), Char.ofNat_toNat]
  rfl

theorem valuesOf_tableOf (values : Values) : valuesOf (tableOf values) = values := by
  rw [valuesOf, tableOf, List.map_map]
  refine (List.map_congr_left fun kv _ => ?_).trans (List.map_id values)
  rw [Function.comp_apply, String.toList_ofList, String.toList_ofList, bytesOf_textOf,
    bytesOf_textOf]
  rfl

theorem length_bytesOf (text : List Char) : (bytesOf text).length = text.length :=
  List.length_map ..

theorem textOf_injective : Function.Injective textOf := by
  intro first second heq
  rw [← bytesOf_textOf first, heq, bytesOf_textOf]

/-! ## The workload -/

/-- The properties of the workload that bound its messages. -/
structure Schema where
  zeroPadding : Nat
  fieldNames : List (List Byte)
  fieldLength : Nat
  padded : 20 ≤ zeroPadding
  fits : 19 + (4 + (13 + zeroPadding)) +
    (4 + (fieldNames.map fun name => (4 + name.length) + (4 + fieldLength)).sum) ≤ 1472

namespace Schema

/-- Distinct fields of the workload. -/
structure Holds (schema : Schema) (values : Values) : Prop where
  distinct : (values.map Prod.fst).Nodup
  named : ∀ kv ∈ values, kv.1 ∈ schema.fieldNames
  short : ∀ kv ∈ values, kv.2.length ≤ schema.fieldLength

/-- `usertable` and what `BuildKeyName` makes of a number. -/
def keyIndex (schema : Schema) (keyNum : BitVec 64) : List Char :=
  keyString schema.zeroPadding keyNum

theorem length_keyIndex (schema : Schema) (keyNum : BitVec 64) :
    (schema.keyIndex keyNum).length = 13 + schema.zeroPadding := by
  rw [keyIndex, keyString_eq, List.length_append,
    padded_length ((length_toDigits_le keyNum).trans schema.padded)]
  rfl

theorem keyIndex_small (schema : Schema) (keyNum : BitVec 64) :
    ∀ c ∈ schema.keyIndex keyNum, c.toNat < 256 := by
  intro c hc
  rw [keyIndex, keyString_eq] at hc
  rcases List.mem_append.mp hc with hfront | hdigit
  · simp only [List.mem_cons, List.not_mem_nil, or_false] at hfront
    rcases hfront with rfl | rfl | rfl | rfl | rfl | rfl | rfl | rfl | rfl | rfl | rfl | rfl | rfl <;>
      decide
  · have hlow := digit_lt_ten (padded_digits c hdigit)
    have hzero : '0'.toNat = 48 := rfl
    omega

theorem textOf_keyIndex (schema : Schema) (keyNum : BitVec 64) :
    textOf (bytesOf (schema.keyIndex keyNum)) = schema.keyIndex keyNum :=
  textOf_bytesOf (schema.keyIndex_small keyNum)

theorem Holds.valuesSize_le {schema : Schema} {values : Values} (holds : schema.Holds values) :
    valuesSize values
      ≤ 4 + (schema.fieldNames.map fun name => (4 + name.length) + (4 + schema.fieldLength)).sum := by
  have hnames : (values.map Prod.fst).Subperm schema.fieldNames := by
    refine holds.distinct.subperm fun name hname => ?_
    obtain ⟨kv, hkv, rfl⟩ := List.mem_map.mp hname
    exact holds.named kv hkv
  obtain ⟨some, hperm, hsub⟩ := hnames
  have hlonger : ∀ (values : Values), (∀ kv ∈ values, kv.2.length ≤ schema.fieldLength) →
      (values.map fun kv => (4 + kv.1.length) + (4 + kv.2.length)).sum
        ≤ ((values.map Prod.fst).map
          fun name => (4 + name.length) + (4 + schema.fieldLength)).sum := by
    intro values
    induction values with
    | nil => exact fun _ => Nat.le_refl _
    | cons kv rest ih =>
        intro hshort
        have hfirst := hshort kv List.mem_cons_self
        have hrest := ih fun kv hkv => hshort kv (List.mem_cons_of_mem _ hkv)
        simp only [List.map_cons, List.sum_cons]
        omega
  have hpart : ∀ {few many : List (List Byte)}, few.Sublist many →
      (few.map fun name => (4 + name.length) + (4 + schema.fieldLength)).sum
        ≤ (many.map fun name => (4 + name.length) + (4 + schema.fieldLength)).sum := by
    intro few many hsub
    induction hsub with
    | slnil => exact Nat.le_refl _
    | cons name _ ih =>
        simp only [List.map_cons, List.sum_cons]
        omega
    | cons_cons name _ ih =>
        simp only [List.map_cons, List.sum_cons]
        omega
  have hfirst := hlonger values holds.short
  have hsecond := hpart hsub
  rw [(hperm.map _).sum_eq] at hsecond
  rw [valuesSize]
  omega

theorem Holds.valuesSize_lt {schema : Schema} {values : Values} (holds : schema.Holds values) :
    (valuesBytes values).length < 2 ^ 32 := by
  have hsize := holds.valuesSize_le
  have hfits := schema.fits
  rw [length_valuesBytes]
  omega

end Schema

/-! ## Numbers in keys -/

/-- `sscanf` with `%lu`, which stores nothing where there is no digit. -/
def scanUnsigned (text : List Char) : Option (BitVec 64) :=
  let number := signAndDigits (text.dropWhile isSpace)
  if number.2 = [] then none else some (unsignedOf number)

namespace Frontend

/-- `remove_key_index_prefix`; `ret` has no value when nothing is scanned. -/
def removeKeyIndexPrefix (key : List Char) : Option (BitVec 64) :=
  if key.length < 13 then none else scanUnsigned (key.drop 13)

/-- `get_part_id`. -/
def getPartId (key : List Char) : Option (BitVec 8) :=
  (Frontend.removeKeyIndexPrefix key).map fun (ret : BitVec 64) => (ret >>> 62).setWidth 8

end Frontend

theorem scanUnsigned_padded (zeroPadding : Nat) (a : BitVec 64) :
    scanUnsigned (padded zeroPadding a.toNat) = some a := by
  rw [scanUnsigned]
  simp only [dropWhile_padded, signAndDigits_digits padded_digits]
  rw [if_neg (padded_ne_nil _ _), unsignedOf_padded]

theorem Frontend.removeKeyIndexPrefix_keyIndex (schema : Schema) (keyNum : BitVec 64) :
    Frontend.removeKeyIndexPrefix (schema.keyIndex keyNum) = some keyNum := by
  have hlen := schema.length_keyIndex keyNum
  rw [Frontend.removeKeyIndexPrefix, if_neg (by omega), Schema.keyIndex, keyString_eq]
  exact scanUnsigned_padded schema.zeroPadding keyNum

theorem Frontend.getPartId_keyIndex (schema : Schema) (keyNum : BitVec 64) :
    Frontend.getPartId (schema.keyIndex keyNum) = some (BitVec.ofNat 8 (Tcam.partOf keyNum)) := by
  have hpart := Tcam.getPartId_keyString schema.zeroPadding keyNum
  rw [Tcam.getPartId, removeKeyIndexPrefix_keyString] at hpart
  rw [Frontend.getPartId, removeKeyIndexPrefix_keyIndex]
  exact hpart

/-! ## Requests and replies -/

/-- A value list of the workload. -/
abbrev Fields (schema : Schema) := { values : Values // schema.Holds values }

/-- What the clients call; a key is given by its number. -/
inductive ClientRequest (schema : Schema) where
  | insert (keyNum : BitVec 64) (values : Fields schema)
  | update (keyNum : BitVec 64) (values : Fields schema)
  | read (keyNum : BitVec 64)
  | load2Switch (partId : Fin 4)

namespace ClientRequest

variable {schema : Schema}

/-- What `Insert`, `Update`, `Read` and `Load2Switch` write to `msg`. -/
def write (buf : Nat → Byte) : ClientRequest schema → Option Writer
  | .insert keyNum values => do
      let keyIndex := schema.keyIndex keyNum
      let pid ← Frontend.getPartId keyIndex
      return ((Writer.next ⟨buf, 0⟩ 0 (Frontend.injectMsgType · · 0x0526 pid)).next 0
        (Frontend.injectKeyIndex · · (bytesOf keyIndex))).next 0
        (Frontend.injectValues · · values.val)
  | .update keyNum values => do
      let keyIndex := schema.keyIndex keyNum
      let pid ← Frontend.getPartId keyIndex
      let fbtKey ← Frontend.removeKeyIndexPrefix keyIndex
      return (((Writer.next ⟨buf, 0⟩ 0 (Frontend.injectMsgType · · 0x0531 pid)).next 0
        (Frontend.injectFbtHdr · · fbtKey)).next 0
        (Frontend.injectKeyIndex · · (bytesOf keyIndex))).next 0
        (Frontend.injectValues · · values.val)
  | .read keyNum => do
      let keyIndex := schema.keyIndex keyNum
      let pid ← Frontend.getPartId keyIndex
      let fbtKey ← Frontend.removeKeyIndexPrefix keyIndex
      return ((Writer.next ⟨buf, 0⟩ 0 (Frontend.injectMsgType · · 0x0527 pid)).next 0
        (Frontend.injectFbtHdr · · fbtKey)).next 0
        (Frontend.injectKeyIndex · · (bytesOf keyIndex))
  | .load2Switch partId =>
      some (Writer.next ⟨buf, 0⟩ 0 (Frontend.injectMsgType · · 0x0600 (BitVec.ofNat 8 partId)))

/-- The server whose part the request is for. -/
def part : ClientRequest schema → Fin 4
  | .insert keyNum _ => Tcam.partOf keyNum
  | .update keyNum _ => Tcam.partOf keyNum
  | .read keyNum => Tcam.partOf keyNum
  | .load2Switch partId => partId

/-- The message type a client waits for. -/
def replyType : ClientRequest schema → BitVec 32
  | .insert _ _ => 0x0528
  | .update _ _ => 0x0530
  | .read _ => 0x0529
  | .load2Switch _ => 0x0601

/-- One iteration of a client's receive loop: the assertion fails, the packet of type 0 is
not for the client, or the call returns with its `result`. -/
def receive (msg : Nat → Byte) (request : ClientRequest schema) (reply : List Byte) :
    Option (Option Values) := do
  let buf := store msg 0 reply
  let (msgLen, msgType) ← Backend.extractMsgType (load buf 0 5)
  if msgType ≠ request.replyType ∧ msgType ≠ 0 then none
  else
    let result :=
      match request with
      | .read _ => (Frontend.extractValues buf msgLen).1
      | .insert _ _ | .update _ _ | .load2Switch _ => []
    if msgType = 0 then return none else return some result

/-- The bytes of a request. -/
def bytes : ClientRequest schema → List Byte
  | .insert keyNum values =>
      unsignedBytes (htonl 0x0526) ++ [BitVec.ofNat 8 (Tcam.partOf keyNum)] ++
        bodyBytes (bytesOf (schema.keyIndex keyNum)) values.val
  | .update keyNum values =>
      unsignedBytes (htonl 0x0531) ++ [BitVec.ofNat 8 (Tcam.partOf keyNum)] ++ fbtBytes keyNum ++
        bodyBytes (bytesOf (schema.keyIndex keyNum)) values.val
  | .read keyNum =>
      headerBytes (BitVec.ofNat 8 (Tcam.partOf keyNum)) keyNum ++
        stringBytes (bytesOf (schema.keyIndex keyNum))
  | .load2Switch partId => unsignedBytes (htonl 0x0600) ++ [BitVec.ofNat 8 partId]

theorem length_bytes_le (request : ClientRequest schema) : request.bytes.length ≤ 1472 := by
  have hfits := schema.fits
  have hfbt : ∀ key, (fbtBytes key).length = 14 := fun _ => rfl
  cases request with
  | insert keyNum values =>
      have hvalues := values.property.valuesSize_le
      have hkey := schema.length_keyIndex keyNum
      simp only [bytes, List.length_append, length_unsignedBytes, List.length_singleton,
        length_bodyBytes, bodySize, length_bytesOf, hkey]
      omega
  | update keyNum values =>
      have hvalues := values.property.valuesSize_le
      have hkey := schema.length_keyIndex keyNum
      simp only [bytes, List.length_append, length_unsignedBytes, List.length_singleton,
        length_bodyBytes, bodySize, length_bytesOf, hkey, hfbt]
      omega
  | read keyNum =>
      have hkey := schema.length_keyIndex keyNum
      simp only [bytes, List.length_append, length_headerBytes, length_stringBytes, length_bytesOf,
        hkey]
      omega
  | load2Switch partId =>
      simp only [bytes, List.length_append, length_unsignedBytes, List.length_singleton]
      omega

theorem injectMsgType_eq (buf : Nat → Byte) (msg : Nat) (msgType : BitVec 32) (pid : BitVec 8) :
    Frontend.injectMsgType buf msg msgType pid
      = wrote buf msg (unsignedBytes (htonl msgType) ++ [pid]) := by
  rw [Frontend.injectMsgType, ← @wrote_nil buf msg, wrote_put (by simp), wrote_put (by simp),
    List.nil_append]

/-- A client writes the bytes of its request and nothing else. -/
theorem write_eq (buf : Nat → Byte) (request : ClientRequest schema) :
    request.write buf = some (wrote buf 0 request.bytes) := by
  have hlen := request.length_bytes_le
  have hkey : ∀ keyIndex buf msg,
      Frontend.injectKeyIndex buf msg keyIndex = wrote buf msg (stringBytes keyIndex) :=
    fun keyIndex _ _ => Wire.injectKeyIndex_eq keyIndex
  have hvalues : ∀ (values : Fields schema) buf msg,
      Frontend.injectValues buf msg values.val = wrote buf msg (valuesBytes values.val) :=
    fun values _ _ => Wire.injectValues_eq values.property.valuesSize_lt
  have hfbt : ∀ key buf msg, Frontend.injectFbtHdr buf msg key = wrote buf msg (fbtBytes key) :=
    fun key buf msg => Frontend.injectFbtHdr_eq buf msg key
  have hstart : (⟨buf, 0⟩ : Writer) = wrote buf 0 [] := wrote_nil.symm
  cases request with
  | insert keyNum values =>
      simp only [bytes, bodyBytes, List.length_append] at hlen
      rw [write, Frontend.getPartId_keyIndex]
      simp only [Option.bind_eq_bind, Option.bind_some, Option.pure_def, hstart]
      rw [wrote_next (by simp) (injectMsgType_eq · · 0x0526 _), List.nil_append,
        wrote_next (by simp) (hkey _),
        wrote_next (by simp only [List.length_append]; omega) (hvalues values), bytes, bodyBytes]
      simp only [List.append_assoc]
  | update keyNum values =>
      simp only [bytes, bodyBytes, List.length_append] at hlen
      rw [write, Frontend.getPartId_keyIndex, Frontend.removeKeyIndexPrefix_keyIndex]
      simp only [Option.bind_eq_bind, Option.bind_some, Option.pure_def, hstart]
      rw [wrote_next (by simp) (injectMsgType_eq · · 0x0531 _), List.nil_append,
        wrote_next (by simp) (hfbt _),
        wrote_next (by simp only [List.length_append]; omega) (hkey _),
        wrote_next (by simp only [List.length_append]; omega) (hvalues values), bytes, bodyBytes]
      simp only [List.append_assoc]
  | read keyNum =>
      simp only [bytes, headerBytes, List.length_append] at hlen
      rw [write, Frontend.getPartId_keyIndex, Frontend.removeKeyIndexPrefix_keyIndex]
      simp only [Option.bind_eq_bind, Option.bind_some, Option.pure_def, hstart]
      rw [wrote_next (by simp) (injectMsgType_eq · · 0x0527 _), List.nil_append,
        wrote_next (by simp) (hfbt _),
        wrote_next (by simp only [List.length_append]; omega) (hkey _), bytes, headerBytes]
  | load2Switch partId =>
      rw [write, hstart, wrote_next (by simp) (injectMsgType_eq · · 0x0600 _), List.nil_append,
        bytes]

end ClientRequest

/-! ## What the switch does to a read -/

/-- The message with another index. -/
def setFbtIdx (msg : List Byte) (fbtIdx : BitVec 48) : List Byte :=
  msg.take 13 ++ (littleEndian 6 fbtIdx.toNat).reverse ++ msg.drop 19

theorem length_setFbtIdx {msg : List Byte} {fbtIdx : BitVec 48} (hlen : 19 ≤ msg.length) :
    (setFbtIdx msg fbtIdx).length = msg.length := by
  rw [setFbtIdx]
  simp only [List.length_append, List.length_take, List.length_reverse, length_littleEndian,
    List.length_drop]
  omega

theorem setFbtIdx_headerBytes (pid : BitVec 8) (fbtKey : BitVec 64) (fbtIdx : BitVec 48)
    (body : List Byte) :
    setFbtIdx (headerBytes pid fbtKey ++ body) fbtIdx =
      unsignedBytes (htonl 0x0527) ++ pid :: (emitFbt ((fbtKey >>> 32).setWidth 32)
        ((fbtKey &&& 0xffffffff).setWidth 32) fbtIdx ++ body) := by
  have hdrop : (headerBytes pid fbtKey ++ body).drop 19 = body := rfl
  have htake : (headerBytes pid fbtKey ++ body).take 13 = unsignedBytes (htonl 0x0527) ++ pid ::
      (unsignedBytes (htonl ((fbtKey >>> 32).setWidth 32)) ++
        unsignedBytes (htonl ((fbtKey &&& 0xffffffff).setWidth 32))) := rfl
  rw [setFbtIdx, hdrop, htake, unsignedBytes_htonl, unsignedBytes_htonl (_ : BitVec 32),
    unsignedBytes_htonl (_ : BitVec 32), emitFbt]
  simp only [List.append_assoc, List.cons_append, unsignedBytes]

section Switch

variable {φ : Type} {fbtH : Codec φ} {hdr hdr' : φ} {ethernet : EthernetH} {ipv4 : Ipv4H}
  {udp : UdpH} {pid : BitVec 8} {fbtKey : BitVec 64} {body : List Byte}

/-- A switch program that parses a read and deparses it with another index rewrites the
message in place. -/
theorem receivedMsg_query {fbtIdx : BitVec 48}
    (hemit : fbtH.emit hdr' = wordBits fbtKey ++ wordBits fbtIdx) :
    Backend.receivedMsg
        (ingressDeparser fbtH (queryHeaders ethernet ipv4 udp pid hdr') (bytesBits body))
      = setFbtIdx (headerBytes pid fbtKey ++ body) fbtIdx := by
  have hhead : msgH.emit ⟨0x0527, pid⟩ = wordBits (0x0527 : BitVec 32) ++ wordBits pid := rfl
  have hmsg : bytesBits (setFbtIdx (headerBytes pid fbtKey ++ body) fbtIdx)
      = msgH.emit ⟨0x0527, pid⟩ ++ (fbtH.emit hdr' ++ bytesBits body) := by
    rw [setFbtIdx_headerBytes, bytesBits_append, bytesBits_cons, bytesBits_append,
      bytesBits_emitFbt, bytesBits_htonl, append_halves, hemit, hhead]
    simp only [List.append_assoc]
  have hsent : ingressDeparser fbtH (queryHeaders ethernet ipv4 udp pid hdr') (bytesBits body)
      = ethernetH.emit { ethernet with etherType := etherTypeIpv4 } ++
        (ipv4H.emit { ipv4 with protocol := ipProtoUdp } ++
          (udpH.emit udp ++ bytesBits (setFbtIdx (headerBytes pid fbtKey ++ body) fbtIdx))) := by
    rw [hmsg]
    rfl
  rw [hsent, Backend.receivedMsg_eq]

end Switch

end FatBTree.Ethernet
