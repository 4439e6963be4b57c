import FatBTree.Ethernet.Handlers
import FatBTree.Protocol.Calls

/-!
# The Ethernet cluster

Client threads call four servers through the switches.  A server is reached by the part
that the key lies in, a read may be sent to any node that a walk through old files leads
to, and packets may get lost.  The replies are the answers of one map of records.
-/

namespace FatBTree.Ethernet

open FatBTree.Order FatBTree.Tree FatBTree.Wire FatBTree.Switch FatBTree.Protocol
open FatBTree.Rdma (newest newest_cons)

variable {schema : Schema}

/-! ## The reference -/

/-- The fields a record does not have, appended. -/
def addFields (values record : Values) : Values :=
  record ++ values.filter fun kv => decide (kv.1 ∉ record.map Prod.fst)

namespace ClientRequest

/-- The records after a request. -/
def refer (records : BitVec 64 → Option Values) : ClientRequest schema → BitVec 64 → Option Values
  | .insert keyNum values => Function.update records keyNum (some values.val)
  | .update keyNum values =>
      Function.update records keyNum ((records keyNum).map (addFields values.val))
  | .read _ => records
  | .load2Switch _ => records

/-- What a call should return. -/
def expects (records : BitVec 64 → Option Values) : ClientRequest schema → Option Values
  | .insert _ _ => some []
  | .update _ _ => some []
  | .read keyNum => records keyNum
  | .load2Switch _ => some []

def inserts : ClientRequest schema → Option (BitVec 64)
  | .insert keyNum _ => some keyNum
  | .update _ _ => none
  | .read _ => none
  | .load2Switch _ => none

end ClientRequest

def reference (requests : List (ClientRequest schema)) : BitVec 64 → Option Values :=
  requests.foldl ClientRequest.refer fun _ => none

/-- The numbers of the keys that are inserted. -/
def insertedNums (requests : List (ClientRequest schema)) : List (BitVec 64) :=
  requests.filterMap ClientRequest.inserts

/-! ## The parties -/

/-- What arrives at a server: the message as it was sent, or a read with the address of a
node that the switches have walked to. -/
inductive Forwards (config : Backend.Config) (part : Fin 4) (server : Server) :
    ClientRequest schema → List Byte → Prop where
  | sent {w : Writer} (buf : Nat → Byte) (request : ClientRequest schema)
      (written : request.write buf = some w) :
      Forwards config part server request (sentBytes w 0)
  | redirected {w : Writer} {n : Nat} (buf : Nat → Byte) (keyNum : BitVec 64)
      (written : (ClientRequest.read keyNum : ClientRequest schema).write buf = some w)
      (walks : Walks server.files keyNum.toFin n) :
      Forwards config part server (.read keyNum) (setFbtIdx (sentBytes w 0)
        ((printedAddr (serverMask part) config.pool (nodeAddr config.pool n)).setWidth 48))

/-- The servers behind the switches. -/
def cluster (schema : Schema) (config : Fin 4 → Backend.Config) :
    Service (Fin 4) Server (ClientRequest schema) (List Byte) where
  route := ClientRequest.part
  serve part server request reply next := ∃ memory payload,
    Forwards (config part) part server request payload ∧
      Backend.handle (config part) memory server payload = some (some reply, next)

variable {C : Type}

/-- The calls of the workloads: no key is inserted twice, a key is read and updated after
its insertion has returned, and a load follows enough insertions in its part. -/
def mayCall (net : Net C (Fin 4) Server (ClientRequest schema) (List Byte)) (_ : C) :
    ClientRequest schema → Prop
  | .insert keyNum _ => keyNum ∉ insertedNums (net.log.map Served.req) ∧
      keyNum ∉ insertedNums (net.requests.map Prod.snd)
  | .update keyNum _ => keyNum ∈ insertedNums (net.history.map fun call => call.req)
  | .read keyNum => keyNum ∈ insertedNums (net.history.map fun call => call.req)
  | .load2Switch partId => ∃ nums : List (BitVec 64), nums.Nodup ∧ 16 ≤ nums.length ∧
      ∀ a ∈ nums, Tcam.partOf a = partId ∧
        a ∈ insertedNums (net.history.map fun call => call.req)

/-- What a request relies on. -/
def Ready (log : List (ClientRequest schema)) : ClientRequest schema → Prop
  | .insert _ _ => True
  | .update keyNum _ => keyNum ∈ insertedNums log
  | .read keyNum => keyNum ∈ insertedNums log
  | .load2Switch partId => ∃ nums : List (BitVec 64), nums.Nodup ∧ 16 ≤ nums.length ∧
      ∀ a ∈ nums, Tcam.partOf a = partId ∧ a ∈ insertedNums log

/-! ## Records -/

section Records

variable {log : List (ClientRequest schema)} {request : ClientRequest schema} {a : BitVec 64}

theorem reference_append (log : List (ClientRequest schema)) (request : ClientRequest schema) :
    reference (log ++ [request]) = request.refer (reference log) := by
  rw [reference, List.foldl_append, List.foldl_cons, List.foldl_nil, reference]

theorem insertedNums_append (first second : List (ClientRequest schema)) :
    insertedNums (first ++ second) = insertedNums first ++ insertedNums second :=
  List.filterMap_append

/-- The keys with a record are those inserted. -/
theorem reference_isSome_iff : (reference log a).isSome = true ↔ a ∈ insertedNums log := by
  induction log using List.reverseRecOn with
  | nil => simp [reference, insertedNums]
  | append_singleton log request ih =>
      rw [reference_append, insertedNums_append, List.mem_append, ← ih]
      cases request with
      | insert keyNum values =>
          rcases eq_or_ne a keyNum with rfl | hne
          · simp [ClientRequest.refer, insertedNums, ClientRequest.inserts]
          · simp [ClientRequest.refer, insertedNums, ClientRequest.inserts, hne]
      | update keyNum values =>
          rcases eq_or_ne a keyNum with rfl | hne
          · simp [ClientRequest.refer, insertedNums, ClientRequest.inserts]
          · simp [ClientRequest.refer, insertedNums, ClientRequest.inserts, hne]
      | read keyNum => simp [ClientRequest.refer, insertedNums, ClientRequest.inserts]
      | load2Switch partId => simp [ClientRequest.refer, insertedNums, ClientRequest.inserts]

theorem Schema.Holds.addFields {values record : Values} (new : schema.Holds values)
    (old : schema.Holds record) : schema.Holds (addFields values record) := by
  constructor
  case distinct =>
    rw [Ethernet.addFields, List.map_append, List.nodup_append]
    refine ⟨old.distinct, ?_, ?_⟩
    · exact new.distinct.sublist (List.filter_sublist.map Prod.fst)
    · rintro name hname _ hadded rfl
      obtain ⟨kv, hkv, rfl⟩ := List.mem_map.mp hadded
      exact absurd hname (by simpa using (List.mem_filter.mp hkv).2)
  case named =>
    intro kv hkv
    rcases List.mem_append.mp hkv with hold | hadded
    · exact old.named kv hold
    · exact new.named kv (List.mem_of_mem_filter hadded)
  case short =>
    intro kv hkv
    rcases List.mem_append.mp hkv with hold | hadded
    · exact old.short kv hold
    · exact new.short kv (List.mem_of_mem_filter hadded)

theorem reference_holds {record : Values} (hrecord : reference log a = some record) :
    schema.Holds record := by
  induction log using List.reverseRecOn generalizing record with
  | nil => cases hrecord
  | append_singleton log request ih =>
      rw [reference_append] at hrecord
      cases request with
      | insert keyNum values =>
          rcases eq_or_ne a keyNum with rfl | hne
          · rw [ClientRequest.refer, Function.update_self] at hrecord
            cases hrecord
            exact values.property
          · rw [ClientRequest.refer, Function.update_of_ne hne] at hrecord
            exact ih hrecord
      | update keyNum values =>
          rcases eq_or_ne a keyNum with rfl | hne
          · rw [ClientRequest.refer, Function.update_self] at hrecord
            obtain ⟨old, hold, rfl⟩ := Option.map_eq_some_iff.mp hrecord
            exact values.property.addFields (ih hold)
          · rw [ClientRequest.refer, Function.update_of_ne hne] at hrecord
            exact ih hrecord
      | read keyNum => exact ih hrecord
      | load2Switch partId => exact ih hrecord

/-- A request for another part changes no record of this one. -/
theorem reference_other (hpart : request.part ≠ Tcam.partOf a) :
    reference (log ++ [request]) a = reference log a := by
  rw [reference_append]
  cases request with
  | insert keyNum values =>
      exact Function.update_of_ne (fun heq => hpart (congrArg Tcam.partOf heq.symm)) ..
  | update keyNum values =>
      exact Function.update_of_ne (fun heq => hpart (congrArg Tcam.partOf heq.symm)) ..
  | read keyNum => rfl
  | load2Switch partId => rfl

/-- On distinct fields the update of a table appends what is new. -/
theorem updateFieldTable_filter {pairs table : FieldTable}
    (distinct : (pairs.map Prod.fst).Nodup) :
    updateFieldTable pairs table
      = table ++ pairs.filter fun kv => decide (kv.1 ∉ table.map Prod.fst) := by
  induction pairs generalizing table with
  | nil => rw [List.filter_nil, List.append_nil]; rfl
  | cons kv rest ih =>
      obtain ⟨hother, hrest⟩ := List.nodup_cons.mp distinct
      rw [updateFieldTable_cons]
      by_cases hold : kv.1 ∈ table.map Prod.fst
      · rw [if_pos (any_name_iff.mpr hold), ih hrest, List.filter_cons_of_neg (by simpa using hold)]
      · rw [if_neg (fun hany => hold (any_name_iff.mp hany)), ih hrest,
          List.filter_cons_of_pos (by simpa using hold), List.append_assoc, List.singleton_append]
        refine congrArg (fun added => table ++ kv :: added) (List.filter_congr fun entry hentry => ?_)
        have hne : entry.1 ≠ kv.1 := fun heq => hother (heq ▸ List.mem_map_of_mem hentry)
        simp [hne]

theorem updateFieldTable_tableOf {values record : Values}
    (distinct : (values.map Prod.fst).Nodup) :
    updateFieldTable (tableOf values) (tableOf record) = tableOf (addFields values record) := by
  have hname : ∀ kv : List Byte × List Byte,
      String.ofList (textOf kv.1) ∈ (tableOf record).map Prod.fst ↔ kv.1 ∈ record.map Prod.fst := by
    intro kv
    rw [tableOf, List.map_map]
    constructor
    · intro hmem
      obtain ⟨entry, hentry, heq⟩ := List.mem_map.mp hmem
      have htext := congrArg String.toList heq
      simp only [Function.comp_apply, String.toList_ofList] at htext
      exact textOf_injective htext ▸ List.mem_map_of_mem hentry
    · intro hmem
      obtain ⟨entry, hentry, heq⟩ := List.mem_map.mp hmem
      exact List.mem_map.mpr ⟨entry, hentry, by rw [Function.comp_apply, heq]⟩
  rw [updateFieldTable_filter (tableOf_distinct distinct), addFields]
  simp only [tableOf] at hname ⊢
  rw [List.map_append, List.filter_map]
  refine congrArg (fun added => _ ++ List.map _ added) (List.filter_congr fun kv _ => ?_)
  simp only [Function.comp_apply, hname]

end Records

/-! ## Replies -/

/-- A message that the switches take for no query. -/
def NoQuery (msg : List Byte) : Prop :=
  ∃ (msgType : BitVec 32) (pid : Byte) (rest : List Byte), msgType ≠ 0x0527 ∧
    msg = unsignedBytes (htonl msgType) ++ [pid] ++ rest

section Replies

variable {request : ClientRequest schema} {record : Values}

theorem Backend.injectMsgType_eq (buf : Nat → Byte) (msg : Nat) (msgType : BitVec 32) :
    Backend.injectMsgType buf msg msgType = wrote buf msg
      (unsignedBytes (htonl msgType) ++ (unsignedBytes (htonl msgType)).take 1) := by
  rw [Backend.injectMsgType, ← @wrote_nil buf msg, wrote_put (by simp), wrote_put (by simp),
    List.nil_append]

theorem take_unsignedBytes (ubuf : BitVec 32) :
    (unsignedBytes ubuf).take 1 = [BitVec.ofNat 8 ubuf.toNat] := rfl

theorem Backend.ack_eq (ret : Nat → Byte) (msgType : BitVec 32) :
    Backend.ack ret msgType
      = unsignedBytes (htonl msgType) ++ [BitVec.ofNat 8 (htonl msgType).toNat] := by
  rw [Backend.ack, Backend.injectMsgType_eq, take_unsignedBytes, sentBytes_wrote (by simp)]

theorem Backend.answer_eq (ret : Nat → Byte) (holds : schema.Holds record) :
    Backend.answer ret (tableOf record) = unsignedBytes (htonl 0x0529) ++
      [BitVec.ofNat 8 (htonl (0x0529 : BitVec 32)).toNat] ++ valuesBytes record := by
  have hfits := schema.fits
  have hsize := holds.valuesSize_le
  have hvalues : ∀ buf msg, Backend.injectValues buf msg record
      = wrote buf msg (valuesBytes record) := fun buf msg => Wire.injectValues_eq holds.valuesSize_lt
  have hstart : (⟨ret, 0⟩ : Writer) = wrote ret 0 [] := wrote_nil.symm
  rw [Backend.answer, valuesOf_tableOf, hstart, wrote_next (by simp) (injectMsgType_eq · · 0x0529),
    List.nil_append, take_unsignedBytes, wrote_next (by simp) hvalues, sentBytes_wrote]
  simp only [List.length_append, length_unsignedBytes, List.length_singleton, length_valuesBytes]
  omega

theorem Backend.noQuery_ack (ret : Nat → Byte) {msgType : BitVec 32} (other : msgType ≠ 0x0527) :
    NoQuery (Backend.ack ret msgType) :=
  ⟨msgType, _, [], other, by rw [Backend.ack_eq, List.append_nil]⟩

theorem Backend.noQuery_answer (ret : Nat → Byte) (holds : schema.Holds record) :
    NoQuery (Backend.answer ret (tableOf record)) :=
  ⟨0x0529, _, _, by decide, Backend.answer_eq ret holds⟩

theorem ClientRequest.receive_ack (hread : ∀ keyNum, request ≠ .read keyNum) (msg ret : Nat → Byte) :
    request.receive msg (Backend.ack ret request.replyType) = some (some []) := by
  have reads : Reads (store msg 0 (Backend.ack ret request.replyType)) 0
      (unsignedBytes (htonl request.replyType) ++
        [BitVec.ofNat 8 (htonl request.replyType).toNat]) := by
    rw [Backend.ack_eq]
    exact reads_store
  rw [receive]
  simp only [Backend.extractMsgType_of_reads reads, Option.bind_eq_bind, Option.bind_some,
    ne_eq, not_true_eq_false, false_and, if_false]
  cases request with
  | insert keyNum values => rfl
  | update keyNum values => rfl
  | read keyNum => exact absurd rfl (hread keyNum)
  | load2Switch partId => rfl

theorem ClientRequest.receive_answer (holds : schema.Holds record) (keyNum : BitVec 64)
    (msg ret : Nat → Byte) :
    (ClientRequest.read keyNum : ClientRequest schema).receive msg
      (Backend.answer ret (tableOf record)) = some (some record) := by
  have reads : Reads (store msg 0 (Backend.answer ret (tableOf record))) 0
      (unsignedBytes (htonl 0x0529) ++ [BitVec.ofNat 8 (htonl (0x0529 : BitVec 32)).toNat] ++
        valuesBytes record) := by
    rw [Backend.answer_eq ret holds]
    exact reads_store
  have hvalues := Wire.extractValues_eq reads.right holds.valuesSize_lt
  rw [receive]
  simp only [Backend.extractMsgType_of_reads reads.left, Option.bind_eq_bind, Option.bind_some]
  rw [if_neg (fun hbad => hbad.1 rfl), if_neg (by decide)]
  exact congrArg (fun found : Values × BitVec 32 => some (some found.1)) hvalues

end Replies

/-! ## One server -/

/-- The tree of a server holds the records of its part, and all its files route. -/
structure Holding (part : Fin 4) (log : List (ClientRequest schema)) (server : Server)
    (w : World (List Char) FieldTable) (history : List (List Char × FieldTable)) : Prop where
  tree : w.state = server.tree
  settled : Settled 16 w history
  growing : Growing (schema.IsKey (InPart part)) w
  listed : ∀ file ∈ server.files, Listed (InPart part) file
  routed : ∀ file ∈ server.files, Routed schema.name file w
  record : ∀ a, Tcam.partOf a = part →
    newest history (schema.keyIndex a) = (reference log a).map tableOf

def Serving (part : Fin 4) (log : List (ClientRequest schema)) (server : Server) : Prop :=
  ∃ w history, Holding part log server w history

theorem serving_start (part : Fin 4) : Serving part ([] : List (ClientRequest schema)) .start :=
  ⟨_, [], rfl, settled_empty, growing_empty _, (fun _ hfile => nomatch hfile),
    (fun _ hfile => nomatch hfile), fun _ _ => rfl⟩

section Server

variable {part : Fin 4} {log : List (ClientRequest schema)} {server : Server}
  {w : World (List Char) FieldTable} {history : List (List Char × FieldTable)}
  {request : ClientRequest schema} {config : Backend.Config} {payload : List Byte}

/-- A request for another part is none of the server's business. -/
theorem Serving.other (serving : Serving part log server) (hpart : request.part ≠ part) :
    Serving part (log ++ [request]) server := by
  obtain ⟨w, history, holding⟩ := serving
  refine ⟨w, history, holding.tree, holding.settled, holding.growing, holding.listed,
    holding.routed, fun a ha => ?_⟩
  rw [reference_other (ha ▸ hpart)]
  exact holding.record a ha

theorem Holding.mem_keysOf (holding : Holding part log server w history) {a : BitVec 64}
    (ha : Tcam.partOf a = part) :
    schema.keyIndex a ∈ keysOf history ↔ a ∈ insertedNums log := by
  rw [← reference_isSome_iff]
  constructor
  · intro hmem
    obtain ⟨v, hv⟩ := lookup_isSome_of_mem hmem
    have hrecord := (holding.record a ha).symm.trans hv
    obtain ⟨record, hfound, -⟩ := Option.map_eq_some_iff.mp hrecord
    rw [hfound]
    rfl
  · intro hsome
    obtain ⟨record, hfound⟩ := Option.isSome_iff_exists.mp hsome
    have hnewest := holding.record a ha
    rw [hfound, Option.map_some] at hnewest
    exact mem_keysOf_of_newest hnewest

/-- What arrives of a request begins with its type and its part. -/
theorem Forwards.payload_eq (forwards : Forwards config part server request payload) :
    payload = request.bytes ∨ ∃ keyNum n, request = .read keyNum ∧
      Walks server.files keyNum.toFin n ∧
      payload = setFbtIdx request.bytes
        ((printedAddr (serverMask part) config.pool (nodeAddr config.pool n)).setWidth 48) := by
  have hlen : ∀ request : ClientRequest schema, request.bytes.length < 2 ^ 32 := fun request => by
    have := request.length_bytes_le
    omega
  cases forwards with
  | sent buf request written =>
      rw [ClientRequest.write_eq] at written
      cases written
      exact Or.inl (sentBytes_wrote (hlen request))
  | redirected buf keyNum written walks =>
      rw [ClientRequest.write_eq] at written
      cases written
      refine Or.inr ⟨keyNum, _, rfl, walks, ?_⟩
      rw [sentBytes_wrote (hlen _)]

theorem Forwards.length_le (forwards : Forwards config part server request payload) :
    payload.length ≤ 1472 := by
  rcases forwards.payload_eq with rfl | ⟨keyNum, n, rfl, -, rfl⟩
  · exact request.length_bytes_le
  · have hheader : 19 ≤ (ClientRequest.read keyNum : ClientRequest schema).bytes.length := by
      rw [ClientRequest.bytes, List.length_append, length_headerBytes]
      omega
    rw [length_setFbtIdx hheader]
    exact ClientRequest.length_bytes_le _

theorem forwards_bytes (request : ClientRequest schema) :
    Forwards config part server request request.bytes := by
  have hsent : Forwards config part server request (sentBytes (wrote (fun _ => 0) 0 request.bytes) 0) :=
    .sent (fun _ => 0) request (ClientRequest.write_eq ..)
  have hlen := request.length_bytes_le
  rwa [sentBytes_wrote (by omega)] at hsent

/-- What one packet does: it is answered as the reference says, and the server holds the
records after it. -/
structure Answered (part : Fin 4) (log : List (ClientRequest schema))
    (request : ClientRequest schema) (reply : List Byte) (next : Server) : Prop where
  serving : Serving part (log ++ [request]) next
  fits : reply.length ≤ 1472
  noQuery : NoQuery reply
  received : ∃ values, request.expects (reference log) = some values ∧
    ∀ msg, request.receive msg reply = some (some values)

/-- The newest record of one key. -/
theorem Holding.record_cons (holding : Holding part log server w history) (keyNum : BitVec 64)
    (record : Values) {a : BitVec 64} (ha : Tcam.partOf a = part) :
    newest ((schema.keyIndex keyNum, tableOf record) :: history) (schema.keyIndex a)
      = (Function.update (reference log) keyNum (some record) a).map tableOf := by
  rw [newest_cons]
  rcases eq_or_ne a keyNum with rfl | hne
  · rw [if_pos rfl, Function.update_self, Option.map_some]
  · rw [if_neg (schema.keyIndex_injective.ne hne), Function.update_of_ne hne]
    exact holding.record a ha

theorem Backend.length_ack_le (ret : Nat → Byte) (msgType : BitVec 32) :
    (Backend.ack ret msgType).length ≤ 1472 := by
  rw [Backend.ack_eq, List.length_append, length_unsignedBytes, List.length_singleton]
  decide

theorem Backend.length_answer_le {record : Values} (ret : Nat → Byte)
    (holds : schema.Holds record) : (Backend.answer ret (tableOf record)).length ≤ 1472 := by
  have hfits := schema.fits
  have hsize := holds.valuesSize_le
  rw [Backend.answer_eq ret holds]
  simp only [List.length_append, length_unsignedBytes, List.length_singleton, length_valuesBytes]
  omega

theorem Holding.handle_insert (holding : Holding part log server w history)
    (memory : Backend.Memory) {keyNum : BitVec 64} {values : Fields schema}
    (hpart : Tcam.partOf keyNum = part) (fresh : keyNum ∉ insertedNums log) :
    ∃ reply next,
      Backend.handle config memory server (ClientRequest.insert keyNum values).bytes
        = some (some reply, next) ∧
      Answered part log (.insert keyNum values) reply next := by
  subst hpart
  obtain ⟨buf, reads, hhandle⟩ := Backend.handle_typed config memory server 0x0526
    (BitVec.ofNat 8 (Tcam.partOf keyNum))
    (bodyBytes (bytesOf (schema.keyIndex keyNum)) values.val)
  obtain ⟨w', hinsert, hsettled, hkeeps, hgrowing⟩ := Backend.handleInsert_eq memory
    holding.settled holding.growing rfl reads fun hmem =>
      fresh ((holding.mem_keysOf rfl).mp hmem)
  rw [holding.tree] at hinsert
  refine ⟨Backend.ack memory.ret 0x0528, { server with tree := w'.state }, ?_, ?_⟩
  · rw [ClientRequest.bytes, hhandle, if_pos rfl, hinsert]
    rfl
  · constructor
    case serving =>
      refine ⟨w', _, rfl, hsettled, hgrowing, holding.listed, fun file hfile => ?_,
        fun a ha => ?_⟩
      · exact (holding.routed file hfile).mono (anchors_of_keeps hkeeps)
      · rw [reference_append, ClientRequest.refer]
        exact holding.record_cons keyNum values.val ha
    case fits => exact Backend.length_ack_le _ _
    case noQuery => exact Backend.noQuery_ack _ (by decide)
    case received =>
      exact ⟨[], rfl, fun msg => ClientRequest.receive_ack (fun _ heq => by cases heq) msg _⟩

theorem Holding.handle_update (holding : Holding part log server w history)
    (memory : Backend.Memory) {keyNum : BitVec 64} {values : Fields schema}
    (hpart : Tcam.partOf keyNum = part) (inserted : keyNum ∈ insertedNums log) :
    ∃ reply next,
      Backend.handle config memory server (ClientRequest.update keyNum values).bytes
        = some (some reply, next) ∧
      Answered part log (.update keyNum values) reply next := by
  obtain ⟨old, hold⟩ := Option.isSome_iff_exists.mp (reference_isSome_iff.mpr inserted)
  have hnewest := holding.record keyNum hpart
  rw [hold, Option.map_some] at hnewest
  obtain ⟨buf, reads, hhandle⟩ := Backend.handle_typed config memory server 0x0531
    (BitVec.ofNat 8 (Tcam.partOf keyNum))
    (fbtBytes keyNum ++ bodyBytes (bytesOf (schema.keyIndex keyNum)) values.val)
  obtain ⟨σ', hupdate, hsettled, hsame⟩ := Backend.handleUpdate_eq config memory holding.settled
    reads hnewest
  rw [holding.tree] at hupdate hsame
  rw [updateFieldTable_tableOf values.property.distinct] at hsettled
  have hgrowing : Growing (schema.IsKey (InPart part)) (⟨server.tree, w.dist, w.bounds⟩ :
      World (List Char) FieldTable) := holding.tree ▸ holding.growing
  refine ⟨Backend.ack memory.ret 0x0530, { server with tree := σ' }, ?_, ?_⟩
  · rw [ClientRequest.bytes, List.append_assoc, hhandle, if_neg (by decide), if_neg (by decide),
      if_pos rfl, hupdate]
    rfl
  · constructor
    case serving =>
      refine ⟨⟨σ', w.dist, w.bounds⟩, _, rfl, hsettled, hsame.growing hgrowing,
        holding.listed, fun file hfile => ?_, fun a ha => ?_⟩
      · refine (holding.routed file hfile).mono ?_
        exact anchors_of_sameNodes (holding.tree ▸ hsame)
      · rw [reference_append, ClientRequest.refer, hold, Option.map_some]
        exact holding.record_cons keyNum (addFields values.val old) ha
    case fits => exact Backend.length_ack_le _ _
    case noQuery => exact Backend.noQuery_ack _ (by decide)
    case received =>
      exact ⟨[], rfl, fun msg => ClientRequest.receive_ack (fun _ heq => by cases heq) msg _⟩

theorem Holding.handle_read (holding : Holding part log server w history)
    (memory : Backend.Memory) {keyNum : BitVec 64}
    (hpart : Tcam.partOf keyNum = part) (inserted : keyNum ∈ insertedNums log)
    {keyHi keyLo : BitVec 32} {fbtIdx : BitVec 48} {n : Nat}
    (hcur : Backend.nodeIndex config.pool (resolve config.pool (fbtIdx.setWidth 64)) = some n)
    (hlt : n < w.state.nbNode) (hval : (w.state.pool n).isValue = false)
    (holds : w.bounds.Holds n (schema.keyIndex keyNum)) :
    ∃ reply next,
      Backend.handle config memory server (unsignedBytes (htonl 0x0527) ++
        [BitVec.ofNat 8 (Tcam.partOf keyNum)] ++ (emitFbt keyHi keyLo fbtIdx ++
          stringBytes (bytesOf (schema.keyIndex keyNum)))) = some (some reply, next) ∧
      Answered part log (.read keyNum) reply next := by
  obtain ⟨record, hrecord⟩ := Option.isSome_iff_exists.mp (reference_isSome_iff.mpr inserted)
  have hnewest := holding.record keyNum hpart
  rw [hrecord, Option.map_some] at hnewest
  have hvalid := reference_holds hrecord
  obtain ⟨buf, reads, hhandle⟩ := Backend.handle_typed config memory server 0x0527
    (BitVec.ofNat 8 (Tcam.partOf keyNum))
    (emitFbt keyHi keyLo fbtIdx ++ stringBytes (bytesOf (schema.keyIndex keyNum)))
  obtain ⟨σ', hquery, hsame⟩ := Backend.handleQuery_eq config memory holding.settled reads hcur
    hlt hval holds hnewest
  rw [holding.tree] at hquery
  refine ⟨Backend.answer memory.ret (tableOf record), { server with tree := σ' }, ?_, ?_⟩
  · rw [hhandle, if_neg (by decide), if_pos rfl, hquery]
    rfl
  · constructor
    case serving =>
      refine ⟨⟨σ', w.dist, w.bounds⟩, history, rfl, hsame.settled holding.settled,
        hsame.sameNodes.growing holding.growing, holding.listed, fun file hfile => ?_,
        fun a ha => ?_⟩
      · exact (holding.routed file hfile).mono (anchors_of_sameNodes hsame.sameNodes)
      · rw [reference_append]
        exact holding.record a ha
    case fits => exact Backend.length_answer_le _ hvalid
    case noQuery => exact Backend.noQuery_answer _ hvalid
    case received =>
      exact ⟨record, hrecord, fun msg => ClientRequest.receive_answer hvalid keyNum msg _⟩

theorem Holding.handle_load (holding : Holding part log server w history)
    (memory : Backend.Memory) (ready : Ready log (.load2Switch part)) :
    ∃ reply next,
      Backend.handle config memory server (ClientRequest.load2Switch part : ClientRequest schema).bytes
        = some (some reply, next) ∧
      Answered part log (.load2Switch part) reply next := by
  obtain ⟨nums, distinct, many, inserted⟩ := ready
  have hdepth : 2 ≤ w.state.depth := by
    refine holding.growing.rootLevel.two_levels holding.settled
      (distinct.map schema.keyIndex_injective) (by rwa [List.length_map]) fun k hk => ?_
    obtain ⟨a, ha, rfl⟩ := List.mem_map.mp hk
    exact (holding.mem_keysOf (inserted a ha).1).mpr (inserted a ha).2
  obtain ⟨buf, -, hhandle⟩ := Backend.handle_typed config memory server 0x0600
    (BitVec.ofNat 8 part) []
  obtain ⟨file, σ', hload, hsame, hlisted, -, hrouted⟩ := Backend.handleLoad2switch_eq memory
    holding.settled holding.growing hdepth
  rw [holding.tree] at hload
  refine ⟨Backend.ack memory.ret 0x0601, ⟨σ', server.files ++ [file]⟩, ?_, ?_⟩
  · rw [List.append_nil] at hhandle
    rw [ClientRequest.bytes, hhandle, if_neg (by decide), if_neg (by decide), if_neg (by decide),
      if_pos rfl, hload]
    rfl
  · constructor
    case serving =>
      refine ⟨⟨σ', w.dist, w.bounds⟩, history, rfl, hsame.settled holding.settled,
        hsame.sameNodes.growing holding.growing, fun file' hfile => ?_, fun file' hfile => ?_,
        fun a ha => ?_⟩
      · rcases List.mem_append.mp hfile with hold | hnew
        · exact holding.listed file' hold
        · obtain rfl := List.mem_singleton.mp hnew
          exact hlisted
      · rcases List.mem_append.mp hfile with hold | hnew
        · exact (holding.routed file' hold).mono (anchors_of_sameNodes hsame.sameNodes)
        · obtain rfl := List.mem_singleton.mp hnew
          exact hrouted
      · rw [reference_append]
        exact holding.record a ha
    case fits => exact Backend.length_ack_le _ _
    case noQuery => exact Backend.noQuery_ack _ (by decide)
    case received =>
      exact ⟨[], rfl, fun msg => ClientRequest.receive_ack (fun _ heq => by cases heq) msg _⟩

/-- Whatever arrives of a request that is ready is answered. -/
theorem Serving.handle (serving : Serving part log server) (hpart : request.part = part)
    (ready : Ready log request) (fresh : ∀ a, request.inserts = some a → a ∉ insertedNums log)
    (small : server.tree.nbNode ≤ 44739243)
    (forwards : Forwards config part server request payload) (memory : Backend.Memory) :
    ∃ reply next, Backend.handle config memory server payload = some (some reply, next) ∧
      Answered part log request reply next := by
  obtain ⟨w, history, holding⟩ := serving
  have hsplit : ∀ (keyNum : BitVec 64) (body : List Byte),
      headerBytes (BitVec.ofNat 8 (Tcam.partOf keyNum)) keyNum ++ body
        = unsignedBytes (htonl 0x0527) ++ [BitVec.ofNat 8 (Tcam.partOf keyNum)] ++
          (emitFbt ((keyNum >>> 32).setWidth 32) ((keyNum &&& 0xffffffff).setWidth 32) 0 ++
            body) := by
    intro keyNum body
    rw [headerBytes, fbtBytes_eq]
    simp only [List.append_assoc]
  rcases forwards.payload_eq with rfl | ⟨keyNum, n, rfl, walks, rfl⟩
  · cases request with
    | insert keyNum values => exact holding.handle_insert memory hpart (fresh keyNum rfl)
    | update keyNum values => exact holding.handle_update memory hpart ready
    | read keyNum =>
        rw [ClientRequest.bytes, hsplit]
        exact holding.handle_read memory hpart ready (Backend.nodeIndex_root config.pool)
          holding.settled.shape.root_lt holding.settled.shape.root_isValue
          (holding.settled.ordered.holds_root _)
    | load2Switch partId =>
        obtain rfl : partId = part := hpart
        exact holding.handle_load memory ready
  · obtain ⟨here, holds⟩ := anchored_of_walks holding.routed walks
    have hn : n ≤ 44739242 := by
      have hlt := here.lt
      rw [holding.tree] at hlt
      omega
    rw [ClientRequest.bytes, setFbtIdx_headerBytes]
    have hcons : ∀ (pid : Byte) (rest : List Byte),
        unsignedBytes (htonl 0x0527) ++ pid :: rest
          = unsignedBytes (htonl 0x0527) ++ [pid] ++ rest := fun pid rest => by simp
    rw [hcons]
    exact holding.handle_read memory hpart ready
      (Backend.nodeIndex_printed config.pool part hn) here.lt here.isValue holds

theorem load2switchGreedy_nbNode {σ σ' : Store} {args : LoadArgs} {snapshot : Snapshot (List Char)}
    (hload : load2switchGreedy 16 σ args = some (snapshot, σ')) : σ'.nbNode = σ.nbNode := by
  unfold load2switchGreedy at hload
  split at hload
  · cases hload
  · split at hload
    · cases hload
    · cases hload
      rfl

/-- No packet makes a server take back a node. -/
theorem Backend.handle_nbNode_le {memory : Backend.Memory} {reply : Option (List Byte)}
    {next : Server} (hhandle : Backend.handle config memory server payload = some (reply, next)) :
    server.tree.nbNode ≤ next.tree.nbNode := by
  rw [Backend.handle] at hhandle
  simp only [Option.bind_eq_bind, Option.bind_eq_some_iff] at hhandle
  obtain ⟨⟨msgLen, msgType⟩, -, hhandle⟩ := hhandle
  simp only at hhandle
  split_ifs at hhandle
  · obtain ⟨⟨ack, tree⟩, hinsert, heq⟩ := Option.bind_eq_some_iff.mp hhandle
    cases heq
    simp only [Backend.handleInsert, Option.bind_eq_bind, Option.bind_eq_some_iff] at hinsert
    obtain ⟨tree', hgrown, heq⟩ := hinsert
    cases heq
    exact insert_nbNode_le hgrown
  · obtain ⟨⟨answer, tree⟩, hquery, heq⟩ := Option.bind_eq_some_iff.mp hhandle
    cases heq
    simp only [Backend.handleQuery, Option.bind_eq_bind, Option.bind_eq_some_iff] at hquery
    obtain ⟨⟨read, fbtIdx⟩, -, cur, -, ⟨values, tree'⟩, hlookup, heq⟩ := hquery
    cases heq
    exact (lookupLoop_nbNode hlookup).ge
  · obtain ⟨⟨ack, tree⟩, hupdate, heq⟩ := Option.bind_eq_some_iff.mp hhandle
    cases heq
    simp only [Backend.handleUpdate, Option.bind_eq_bind, Option.bind_eq_some_iff] at hupdate
    obtain ⟨⟨read, fbtIdx⟩, -, cur, -, tree', hmodify, heq⟩ := hupdate
    cases heq
    exact (sameNodes_modifyLoop _ hmodify).nbNode.ge
  · obtain ⟨⟨ack, file, tree⟩, hload, heq⟩ := Option.bind_eq_some_iff.mp hhandle
    cases heq
    simp only [Backend.handleLoad2switch, Option.bind_eq_bind, Option.bind_eq_some_iff] at hload
    obtain ⟨⟨snapshot, tree'⟩, hgreedy, file', -, heq⟩ := hload
    cases heq
    exact (load2switchGreedy_nbNode hgreedy).ge
  · cases hhandle
    exact Nat.le_refl _

end Server

/-! ## Runs -/

section Runs

variable [DecidableEq C] {config : Fin 4 → Backend.Config}
  {net : Net C (Fin 4) Server (ClientRequest schema) (List Byte)}

/-- The requests in the order of their service. -/
def requestsOf (log : List (Served C (ClientRequest schema) (List Byte))) :
    List (ClientRequest schema) :=
  log.map Served.req

omit [DecidableEq C] in
@[simp]
theorem requestsOf_append (first second : List (Served C (ClientRequest schema) (List Byte))) :
    requestsOf (first ++ second) = requestsOf first ++ requestsOf second :=
  List.map_append

/-- The keys whose insertion was served or is on its way. -/
def claimed (net : Net C (Fin 4) Server (ClientRequest schema) (List Byte)) : List (BitVec 64) :=
  insertedNums (requestsOf net.log) ++ insertedNums (net.requests.map Prod.snd)

omit [DecidableEq C] in
theorem claimed_served {before after : List (C × ClientRequest schema)} (c : C)
    (request : ClientRequest schema)
    (log : List (Served C (ClientRequest schema) (List Byte))) (reply : List Byte) :
    (insertedNums (requestsOf (log ++ [⟨c, request, reply⟩])) ++
      insertedNums ((before ++ after).map Prod.snd)).Perm
    (insertedNums (requestsOf log) ++
      insertedNums ((before ++ (c, request) :: after).map Prod.snd)) := by
  have hcons : insertedNums ((before ++ (c, request) :: after).map Prod.snd)
      = insertedNums (before.map Prod.snd) ++
        (insertedNums [request] ++ insertedNums (after.map Prod.snd)) := by
    rw [List.map_append, List.map_cons, insertedNums_append, ← List.singleton_append,
      insertedNums_append]
  rw [hcons, List.map_append, requestsOf_append, insertedNums_append, insertedNums_append,
    List.append_assoc]
  refine List.Perm.append_left _ ?_
  rw [← List.append_assoc, ← List.append_assoc]
  exact List.Perm.append_right _ List.perm_append_comm

/-- No two insertions that were served or are on their way have the same key. -/
theorem fresh_of_reaches
    (reaches : Reaches (cluster schema config) mayCall (fun _ => Server.start) net) :
    (claimed net).Nodup := by
  induction reaches with
  | start => exact List.nodup_nil
  | step _ step ih =>
      cases step with
      | call c request idle allowed =>
          rw [claimed, List.map_append, insertedNums_append, ← List.append_assoc]
          refine List.nodup_append.mpr ⟨ih, ?_, ?_⟩
          · cases request with
            | insert keyNum values => exact List.nodup_singleton keyNum
            | update keyNum values => exact List.nodup_nil
            | read keyNum => exact List.nodup_nil
            | load2Switch partId => exact List.nodup_nil
          · intro a ha b hb heq
            subst heq
            cases request with
            | insert keyNum values =>
                obtain rfl : a = keyNum := List.mem_singleton.mp hb
                rcases List.mem_append.mp ha with hserved | hcoming
                · exact allowed.1 hserved
                · exact allowed.2 hcoming
            | update keyNum values => nomatch hb
            | read keyNum => nomatch hb
            | load2Switch partId => nomatch hb
      | serve c request reply next arrives served =>
          rw [claimed, arrives] at ih
          exact (claimed_served c request _ reply).nodup_iff.mpr ih
      | answer c reply request called arrives waits => exact ih
      | loseRequest m lost =>
          rw [claimed, lost] at ih
          refine ih.sublist ((List.Sublist.refl _).append ?_)
          refine List.Sublist.filterMap _ (List.Sublist.map _ ?_)
          exact (List.Sublist.refl _).append (List.sublist_cons_self _ _)
      | loseReply m lost => exact ih

omit [DecidableEq C] in
/-- Requests that have returned were served. -/
theorem insertedNums_history (stamped : Stamped net) {a : BitVec 64}
    (ha : a ∈ insertedNums (net.history.map fun call => call.req)) :
    a ∈ insertedNums (requestsOf net.log) := by
  obtain ⟨request, hrequest, hinserts⟩ := List.mem_filterMap.mp ha
  obtain ⟨call, hcall, rfl⟩ := List.mem_map.mp hrequest
  obtain ⟨k, -, -, -, hentry⟩ := stamped call hcall
  refine List.mem_filterMap.mpr ⟨call.req, ?_, hinserts⟩
  exact List.mem_map.mpr ⟨call.toServed, List.mem_of_getElem? hentry, rfl⟩

omit [DecidableEq C] in
theorem ready_of_mayCall (stamped : Stamped net) {c : C} {request : ClientRequest schema}
    (may : mayCall net c request) : Ready (requestsOf net.log) request := by
  cases request with
  | insert keyNum values => trivial
  | update keyNum values => exact insertedNums_history stamped may
  | read keyNum => exact insertedNums_history stamped may
  | load2Switch partId =>
      obtain ⟨nums, distinct, many, inserted⟩ := may
      exact ⟨nums, distinct, many, fun a ha =>
        ⟨(inserted a ha).1, insertedNums_history stamped (inserted a ha).2⟩⟩

theorem Ready.append {log more : List (ClientRequest schema)} {request : ClientRequest schema}
    (ready : Ready log request) : Ready (log ++ more) request := by
  have hmono : ∀ a, a ∈ insertedNums log → a ∈ insertedNums (log ++ more) := by
    intro a ha
    rw [insertedNums_append]
    exact List.mem_append_left _ ha
  cases request with
  | insert keyNum values => trivial
  | update keyNum values => exact hmono keyNum ready
  | read keyNum => exact hmono keyNum ready
  | load2Switch partId =>
      obtain ⟨nums, distinct, many, inserted⟩ := ready
      exact ⟨nums, distinct, many, fun a ha =>
        ⟨(inserted a ha).1, hmono a (inserted a ha).2⟩⟩

/-- An entry of the log was answered as the reference says. -/
def AnsweredAt (log : List (Served C (ClientRequest schema) (List Byte))) (k : Nat)
    (entry : Served C (ClientRequest schema) (List Byte)) : Prop :=
  ∃ values : Values, entry.req.expects (reference (requestsOf (log.take k))) = some values ∧
    ∀ msg : Nat → Byte, entry.req.receive msg entry.rep = some (some values)

omit [DecidableEq C] in
/-- Every request of the log was served by the server of its part, and answered as the
reference says. -/
theorem serving_of_replays {log : List (Served C (ClientRequest schema) (List Byte))}
    {servers : Fin 4 → Server}
    (replays : Replays (cluster schema config) (fun log request => Ready (requestsOf log) request)
      (fun _ => Server.start) log servers)
    (fresh : (insertedNums (requestsOf log)).Nodup)
    (small : ∀ part, (servers part).tree.nbNode ≤ 44739243) :
    (∀ part, Serving part (requestsOf log) (servers part)) ∧
      ∀ (k : Nat) (entry : Served C (ClientRequest schema) (List Byte)),
        log[k]? = some entry → AnsweredAt log k entry := by
  induction replays with
  | start => exact ⟨fun part => serving_start part, fun k entry hentry => by simp at hentry⟩
  | @served log servers replays c request reply next ready served ih =>
      obtain ⟨memory, payload, forwards, hhandle⟩ := served
      rw [requestsOf_append, insertedNums_append, List.nodup_append] at fresh
      have hgrown := Backend.handle_nbNode_le hhandle
      have hsmall : ∀ part, (servers part).tree.nbNode ≤ 44739243 := by
        intro part
        have hpart := small part
        rcases eq_or_ne part request.part with rfl | hne
        · simp only [cluster, Function.update_self] at hpart hgrown
          exact hgrown.trans hpart
        · simpa only [cluster, Function.update_of_ne hne] using hpart
      obtain ⟨serving, answered⟩ := ih fresh.1 hsmall
      have hnew : ∀ a, request.inserts = some a → a ∉ insertedNums (requestsOf log) := by
        intro a ha hmem
        refine fresh.2.2 a hmem a ?_ rfl
        exact List.mem_filterMap.mpr ⟨request, List.mem_singleton_self _, ha⟩
      obtain ⟨reply', next', hhandle', hanswered⟩ := (serving request.part).handle rfl ready hnew
        (hsmall request.part) forwards memory
      obtain ⟨rfl, rfl⟩ : reply' = reply ∧ next' = next := by
        have heq := hhandle'.symm.trans hhandle
        simp only [Option.some.injEq, Prod.mk.injEq] at heq
        exact heq
      constructor
      · intro part
        rw [requestsOf_append]
        rcases eq_or_ne part request.part with rfl | hne
        · rw [show (cluster schema config).route request = request.part from rfl,
            Function.update_self]
          exact hanswered.serving
        · rw [show (cluster schema config).route request = request.part from rfl,
            Function.update_of_ne hne]
          exact (serving part).other (Ne.symm hne)
      · intro k entry hentry
        rcases Nat.lt_or_ge k log.length with hlt | hge
        · rw [List.getElem?_append_left hlt] at hentry
          rw [AnsweredAt, List.take_append_of_le_length (Nat.le_of_lt hlt)]
          exact answered k entry hentry
        · obtain rfl : k = log.length := by
            have hk := (List.getElem?_eq_some_iff.mp hentry).1
            rw [List.length_append, List.length_singleton] at hk
            omega
          rw [List.getElem?_concat_length] at hentry
          cases hentry
          rw [AnsweredAt, List.take_left]
          exact hanswered.received

theorem replays_cluster
    (reaches : Reaches (cluster schema config) mayCall (fun _ => Server.start) net) :
    Replays (cluster schema config) (fun log request => Ready (requestsOf log) request)
      (fun _ => Server.start) net.log net.server ∧
      ∀ m ∈ net.requests, Ready (requestsOf net.log) m.2 := by
  refine replays_of_reaches (fun before may => ready_of_mayCall (stamped_of_reaches before) may)
    (fun {log more request} ready => ?_) reaches
  rw [requestsOf_append]
  exact ready.append

/-- One field of one byte. -/
def oneField : Schema where
  zeroPadding := 20
  fieldNames := [[0x66, 0x30]]
  fieldLength := 1
  padded := by decide
  fits := by decide

def oneByte : Fields oneField where
  val := [([0x66, 0x30], [0x2a])]
  property := by
    constructor
    case distinct => decide
    case named => decide
    case short => decide

def zeroMemory : Backend.Memory where
  msg := fun _ => 0
  ret := fun _ => 0
  ties := ⟨fun _ n => n, fun _ n => n⟩

def oneMode (_ : Fin 4) : Backend.Config where
  pool := 0
  mode := 1

theorem small_update {servers : Fin 4 → Server}
    (small : ∀ part, (servers part).tree.nbNode ≤ 44739243) (here : Fin 4) {server : Server}
    (hserver : server.tree.nbNode ≤ 44739243) (part : Fin 4) :
    (Function.update servers here server part).tree.nbNode ≤ 44739243 := by
  rcases eq_or_ne part here with rfl | hne
  · rwa [Function.update_self]
  · rw [Function.update_of_ne hne]
    exact small part

/-- A client inserts a key and reads it. -/
theorem reaches_insert_read :
    ∃ before after : Net Unit (Fin 4) Server (ClientRequest oneField) (List Byte),
      Reaches (cluster oneField oneMode) mayCall (fun _ => Server.start) before ∧
      Reaches (cluster oneField oneMode) mayCall (fun _ => Server.start) after ∧
      (∀ part, (before.server part).tree.nbNode ≤ 44739243) ∧
      (∀ part, (after.server part).tree.nbNode ≤ 44739243) ∧
      before.requests = [((), .read 3)] ∧ after.history.length = 2 := by
  have hrun : (do
      let (first, server) ← Backend.handle ⟨0, 1⟩ zeroMemory .start
        (ClientRequest.insert 3 oneByte).bytes
      let (second, next) ← Backend.handle ⟨0, 1⟩ zeroMemory server
        (ClientRequest.read 3 : ClientRequest oneField).bytes
      let _ ← first
      let _ ← second
      return (server.tree.nbNode, next.tree.nbNode)) = some (2, 2) := by decide +kernel
  simp only [Option.bind_eq_bind, Option.bind_eq_some_iff] at hrun
  obtain ⟨⟨_, server⟩, hinsert, ⟨_, next⟩, hread, ack, rfl, answer, rfl, hsmall⟩ := hrun
  obtain ⟨hserver, hnext⟩ := Prod.mk.inj (Option.some.inj hsmall)
  have hinserted : (cluster oneField oneMode).serve (Tcam.partOf 3) .start (.insert 3 oneByte) ack
      server := ⟨zeroMemory, _, forwards_bytes _, hinsert⟩
  have may : mayCall (.start (C := Unit) fun _ : Fin 4 => Server.start) ()
      (ClientRequest.insert 3 oneByte) := ⟨List.not_mem_nil, List.not_mem_nil⟩
  obtain ⟨_, _, inserted, hask, -, -, hserve, hanswer, hquiet, hinsertedServer⟩ :=
    (quiet_start fun _ : Fin 4 => Server.start).call may hinserted
  have reaches := ((Reaches.start.step hask).step hserve).step hanswer
  have hanswered : (cluster oneField oneMode).serve (Tcam.partOf 3) (inserted.server (Tcam.partOf 3))
      (.read 3) answer next := by
    have hpart : inserted.server (Tcam.partOf 3) = server := by
      rw [hinsertedServer]
      exact Function.update_self ..
    rw [hpart]
    exact ⟨zeroMemory, _, forwards_bytes _, hread⟩
  have mayRead : mayCall inserted () (ClientRequest.read 3) := by
    rw [mayCall, hquiet.history]
    exact List.mem_cons_self
  obtain ⟨reading, _, returned, hask', hrequests, hsame, hserve', hanswer', hquiet', hserver'⟩ :=
    hquiet.call mayRead hanswered
  have hfirst : ∀ part, (inserted.server part).tree.nbNode ≤ 44739243 := by
    rw [hinsertedServer]
    exact small_update (fun _ => show Server.start.tree.nbNode ≤ 44739243 by decide) (Tcam.partOf 3)
      (hserver.le.trans (by decide))
  have hlast : ∀ part, (returned.server part).tree.nbNode ≤ 44739243 := by
    rw [hserver']
    exact small_update hfirst (Tcam.partOf 3) (hnext.le.trans (by decide))
  have hlen : returned.history.length = 2 := by
    rw [← List.length_map (fun call => call.req), hquiet'.history]
    rfl
  exact ⟨reading, returned, reaches.step hask', ((reaches.step hask').step hserve').step hanswer',
    hsame.symm ▸ hfirst, hlast, hrequests, hlen⟩

/-- The cluster is one map of records: each returned call has a point of its own between its
start and its end, and it gets the answer of the map at that point. -/
theorem returned_at_point
    (reaches : Reaches (cluster schema config) mayCall (fun _ => Server.start) net)
    (small : ∀ part, (net.server part).tree.nbNode ≤ 44739243) :
    ∃ point : Returned C (ClientRequest schema) (List Byte) → Nat,
      Set.InjOn point {call | call ∈ net.history} ∧
      ∀ call ∈ net.history, call.called ≤ point call ∧ point call < call.returned ∧
        AnsweredAt net.log (point call) call.toServed := by
  obtain ⟨point, injective, hpoint⟩ := points_of_reaches reaches
  have fresh := (List.nodup_append.mp (fresh_of_reaches reaches)).1
  obtain ⟨-, answered⟩ := serving_of_replays (replays_cluster reaches).1 fresh small
  refine ⟨point, injective, fun call hcall => ?_⟩
  obtain ⟨hcalled, hreturned, hentry⟩ := hpoint call hcall
  exact ⟨hcalled, hreturned, answered _ _ hentry⟩

theorem returned_at_point_insert_read :
    ∃ net : Net Unit (Fin 4) Server (ClientRequest oneField) (List Byte), net.history.length = 2 ∧
      ∃ point : Returned Unit (ClientRequest oneField) (List Byte) → Nat,
        Set.InjOn point {call | call ∈ net.history} ∧
        ∀ call ∈ net.history, call.called ≤ point call ∧ point call < call.returned ∧
          AnsweredAt net.log (point call) call.toServed := by
  obtain ⟨-, net, -, reaches, -, small, -, hlen⟩ := reaches_insert_read
  exact ⟨net, hlen, returned_at_point reaches small⟩

/-- Whatever arrives of a request in flight fits a frame and is answered with one. -/
theorem arriving_answered
    (reaches : Reaches (cluster schema config) mayCall (fun _ => Server.start) net)
    (small : ∀ part, (net.server part).tree.nbNode ≤ 44739243) {c : C}
    {request : ClientRequest schema} (coming : (c, request) ∈ net.requests) {payload : List Byte}
    (forwards : Forwards (config request.part) request.part (net.server request.part) request
      payload) (memory : Backend.Memory) :
    payload.length ≤ 1472 ∧ ∃ reply next,
      Backend.handle (config request.part) memory (net.server request.part) payload
        = some (some reply, next) ∧ reply.length ≤ 1472 := by
  have fresh := List.nodup_append.mp (fresh_of_reaches reaches)
  obtain ⟨replays, ready⟩ := replays_cluster reaches
  obtain ⟨serving, -⟩ := serving_of_replays replays fresh.1 small
  constructor
  · exact forwards.length_le
  · have hnew : ∀ a, request.inserts = some a → a ∉ insertedNums (requestsOf net.log) := by
      intro a ha hmem
      refine fresh.2.2 a hmem a (List.mem_filterMap.mpr ⟨request, ?_, ha⟩) rfl
      exact List.mem_map.mpr ⟨(c, request), coming, rfl⟩
    obtain ⟨reply, next, hhandle, answered⟩ := (serving request.part).handle rfl
      (ready _ coming) hnew (small request.part) forwards memory
    exact ⟨reply, next, hhandle, answered.fits⟩

theorem arriving_answered_read :
    ∃ net : Net Unit (Fin 4) Server (ClientRequest oneField) (List Byte),
      let request : ClientRequest oneField := .read 3
      request.bytes.length ≤ 1472 ∧ ∃ reply next,
        Backend.handle (oneMode request.part) zeroMemory (net.server request.part) request.bytes
          = some (some reply, next) ∧ reply.length ≤ 1472 := by
  obtain ⟨net, -, reaches, -, small, -, coming, -⟩ := reaches_insert_read
  refine ⟨net, ?_⟩
  have hcoming : ((), ClientRequest.read 3) ∈ net.requests := by
    rw [coming]
    exact List.mem_cons_self
  exact arriving_answered reaches small hcoming (forwards_bytes _) zeroMemory

end Runs

end FatBTree.Ethernet
