import FatBTree.Ethernet.Load
import FatBTree.Ethernet.Packets
import FatBTree.Ethernet.Update
import FatBTree.Rdma.Requests
import FatBTree.Switch.FatRoot
import FatBTree.Switch.Layers
import FatBTree.Tree.Growth

/-!
# The handlers of the Ethernet backend

One packet after the other is read and answered.  A read may carry an index that the
switch took from a file of any earlier load, and it starts at that node.
-/

namespace FatBTree.Ethernet

open FatBTree.Order FatBTree.Tree FatBTree.Wire FatBTree.Switch FatBTree.Workload
open FatBTree.Rdma (newest newest_cons ceiling_eq_newest)

/-! ## The state of a server -/

instance orderBotText : OrderBot (List Char) where
  bot := []
  bot_le text := by
    cases text with
    | nil => exact le_refl _
    | cons c rest => exact le_of_lt (List.nil_lt_cons c rest)

/-- The tree of the backend; keys are compared byte by byte. -/
abbrev Store := State (List Char) FieldTable

/-- The number that `print_info` writes for a key. -/
def numberOf (k : List Char) : Option (Fin (2 ^ 64)) :=
  (removeKeyIndexPrefix k).map BitVec.toFin

def numberedEntry (entry : Entry (List Char)) : Option (Entry (Fin (2 ^ 64))) := do
  let keys ← entry.keys.mapM numberOf
  return ⟨entry.node, keys, entry.children⟩

/-- The contents of the `node_info` files. -/
def numbered (snapshot : Snapshot (List Char)) : Option (Snapshot (Fin (2 ^ 64))) := do
  let fat ← numberedEntry snapshot.fat
  let layers ← snapshot.layers.mapM fun layer => layer.mapM numberedEntry
  return ⟨fat, layers⟩

/-- The tree of a server and what its files have ever held, oldest first. -/
structure Server where
  tree : Store
  files : List (Snapshot (Fin (2 ^ 64)))

def Server.start : Server where
  tree := State.empty
  files := []

/-! ## The handlers -/

namespace Backend

/-- `root`, which is the first slot of the pool, and the first argument of the program. -/
structure Config where
  pool : BitVec 64
  mode : Nat

/-- What uninitialised memory holds while a packet is handled, and how a load breaks ties. -/
structure Memory where
  msg : Nat → Byte
  ret : Nat → Byte
  ties : Ties

def rootLoadNum : Nat := 150

def maxLoadNum : Nat := 800

def compressDepth : Nat := 2

/-- `inject_msg_type`, which puts the first byte of the type where the part id was. -/
def injectMsgType (buf : Nat → Byte) (msg : Nat) (msgType : BitVec 32) : Writer :=
  let ubuf := htonl msgType
  (Writer.put ⟨buf, 0⟩ msg (unsignedBytes ubuf)).put msg ((unsignedBytes ubuf).take 1)

/-- The node at an address; there is none between the nodes. -/
def nodeIndex (pool cur : BitVec 64) : Option Nat :=
  let offset := (cur - pool).toNat
  if offset % sizeofNode = 0 then some (offset / sizeofNode) else none

/-- A reply that is a message type only. -/
def ack (ret : Nat → Byte) (msgType : BitVec 32) : List Byte :=
  sentBytes (injectMsgType ret 0 msgType) 0

/-- A reply with a value list. -/
def answer (ret : Nat → Byte) (values : FieldTable) : List Byte :=
  sentBytes ((Writer.next ⟨ret, 0⟩ 0 (injectMsgType · · 0x0529)).next 0
    (injectValues · · (valuesOf values))) 0

def handleInsert (memory : Memory) (σ : Store) (buf : Nat → Byte) (msg : Nat) :
    Option (List Byte × Store) := do
  let ((keyIndex, values), _) := readBody buf msg
  let σ ← Tree.insert 16 ethernet σ (textOf keyIndex) (tableOf values)
  return (ack memory.ret 0x0528, σ)

def handleUpdate (config : Config) (memory : Memory) (σ : Store) (buf : Nat → Byte) (msg : Nat) :
    Option (List Byte × Store) := do
  let (read, fbtIdx) ← extractFbtHdr (load buf msg 14)
  let ((keyIndex, values), _) := readBody buf (msg + read)
  let cur ← nodeIndex config.pool (resolve config.pool fbtIdx)
  let σ ← update σ (textOf keyIndex) (tableOf values) cur
  return (ack memory.ret 0x0530, σ)

def handleQuery (config : Config) (memory : Memory) (σ : Store) (buf : Nat → Byte) (msg : Nat) :
    Option (List Byte × Store) := do
  let (read, fbtIdx) ← extractFbtHdr (load buf msg 14)
  let (keyIndex, _) := extractKeyIndex buf (msg + read)
  let fbtIdx := if config.mode = 0 then 0 else fbtIdx
  let cur ← nodeIndex config.pool (resolve config.pool fbtIdx)
  let (values, σ) ← lookup σ (textOf keyIndex) cur
  return (answer memory.ret values, σ)

/-- `handle_load2switch`, and the counters set to zero after it. -/
def handleLoad2switch (memory : Memory) (σ : Store) :
    Option (List Byte × Snapshot (Fin (2 ^ 64)) × Store) := do
  let (snapshot, σ) ←
    load2switchGreedy 16 σ ⟨rootLoadNum, maxLoadNum, compressDepth, memory.ties⟩
  let file ← numbered snapshot
  return (ack memory.ret 0x0601, file, { σ with nbQuery := 0, nbAccess := 0 })

/-- One iteration of the main loop, with the packet it sends.  Another message type is
reported and not answered. -/
def handle (config : Config) (memory : Memory) (server : Server) (payload : List Byte) :
    Option (Option (List Byte) × Server) := do
  let buf := store memory.msg 0 payload
  let (msgLen, msgType) ← extractMsgType (load buf 0 5)
  if msgType = 0x0526 then
    let (reply, tree) ← handleInsert memory server.tree buf msgLen
    return (some reply, { server with tree := tree })
  else if msgType = 0x0527 then
    let (reply, tree) ← handleQuery config memory server.tree buf msgLen
    return (some reply, { server with tree := tree })
  else if msgType = 0x0531 then
    let (reply, tree) ← handleUpdate config memory server.tree buf msgLen
    return (some reply, { server with tree := tree })
  else if msgType = 0x0600 then
    let (reply, file, tree) ← handleLoad2switch memory server.tree
    return (some reply, ⟨tree, server.files ++ [file]⟩)
  else return (none, server)

end Backend

/-! ## Keys as the switch has them -/

section Names

variable {schema : Schema}

/-- The key with a number. -/
def Schema.name (schema : Schema) (x : Fin (2 ^ 64)) : List Char :=
  schema.keyIndex (BitVec.ofFin x)

def InPart (part : Fin 4) (keyNum : BitVec 64) : Prop :=
  Tcam.partOf keyNum = part

/-- A key of the workload with one of some numbers. -/
def Schema.IsKey (schema : Schema) (among : BitVec 64 → Prop) (k : List Char) : Prop :=
  ∃ keyNum, among keyNum ∧ k = schema.keyIndex keyNum

theorem Schema.keyIndex_injective (schema : Schema) : Function.Injective schema.keyIndex := by
  intro first second heq
  have hfirst := removeKeyIndexPrefix_keyString schema.zeroPadding first
  have hsecond := removeKeyIndexPrefix_keyString schema.zeroPadding second
  rw [Schema.keyIndex, Schema.keyIndex] at heq
  rw [heq, hsecond] at hfirst
  exact (Option.some.inj hfirst).symm

theorem Schema.name_strictMono (schema : Schema) : StrictMono schema.name := by
  intro x y hlt
  have hpad : ∀ a : BitVec 64, (Nat.toDigits 10 a.toNat).length ≤ schema.zeroPadding :=
    fun a => (length_toDigits_le a).trans schema.padded
  exact (keyString_lt_iff (hpad _) (hpad _)).mpr hlt

theorem numberOf_keyIndex (schema : Schema) (keyNum : BitVec 64) :
    numberOf (schema.keyIndex keyNum) = some keyNum.toFin := by
  rw [numberOf, Schema.keyIndex, removeKeyIndexPrefix_keyString, Option.map_some]

/-- A list is converted back when each of its elements is. -/
theorem mapM_some {α β : Type} {f : α → Option β} {g : β → α} {xs : List α}
    (each : ∀ x ∈ xs, ∃ y, f x = some y ∧ g y = x) :
    ∃ ys, xs.mapM f = some ys ∧ ys.map g = xs := by
  induction xs with
  | nil => exact ⟨[], rfl, rfl⟩
  | cons x rest ih =>
      obtain ⟨y, hy, hback⟩ := each x List.mem_cons_self
      obtain ⟨ys, hys, hrest⟩ := ih fun z hz => each z (List.mem_cons_of_mem _ hz)
      refine ⟨y :: ys, ?_, by rw [List.map_cons, hback, hrest]⟩
      simp only [List.mapM_cons, hy, hys, Option.bind_eq_bind, Option.bind_some, Option.pure_def]

theorem numberedEntry_some {among : BitVec 64 → Prop} {entry : Entry (List Char)}
    (keys : ∀ k ∈ entry.keys, schema.IsKey among k) :
    ∃ e, numberedEntry entry = some e ∧ e.map schema.name = entry := by
  obtain ⟨numbers, hnumbers, hback⟩ := mapM_some (f := numberOf) (g := schema.name) fun k hk => by
    obtain ⟨keyNum, -, rfl⟩ := keys k hk
    exact ⟨keyNum.toFin, numberOf_keyIndex schema keyNum, rfl⟩
  refine ⟨⟨entry.node, numbers, entry.children⟩, ?_, ?_⟩
  · rw [numberedEntry, hnumbers]
    rfl
  · rw [Entry.map, hback]

theorem numbered_some {among : BitVec 64 → Prop} {snapshot : Snapshot (List Char)}
    (fat : ∀ k ∈ snapshot.fat.keys, schema.IsKey among k)
    (keys : ∀ entry ∈ snapshot.entries, ∀ k ∈ entry.keys, schema.IsKey among k) :
    ∃ file, numbered snapshot = some file ∧ file.map schema.name = snapshot := by
  obtain ⟨root, hroot, hfat⟩ := numberedEntry_some fat
  have hlayer : ∀ layer ∈ snapshot.layers, ∃ entries, layer.mapM numberedEntry = some entries ∧
      entries.map (Entry.map schema.name) = layer := by
    intro layer hlayer
    refine mapM_some fun entry hentry => numberedEntry_some (keys entry ?_)
    exact List.mem_flatten.mpr ⟨layer, hlayer, hentry⟩
  obtain ⟨layers, hlayers, hback⟩ := mapM_some hlayer
  refine ⟨⟨root, layers⟩, ?_, ?_⟩
  · rw [numbered, hroot]
    simp only [Option.bind_eq_bind, Option.bind_some, hlayers, Option.pure_def]
  · rw [Snapshot.map, hfat, hback]

/-- What the switches rely on in the files of a load. -/
structure Listed (among : BitVec 64 → Prop) (file : Snapshot (Fin (2 ^ 64))) : Prop where
  increasing : file.fat.keys.Pairwise (· < ·)
  keys_ne_nil : file.fat.keys ≠ []
  named : ∀ x ∈ file.fat.keys, among (BitVec.ofFin x)
  fat_arity : file.fat.children.length = file.fat.keys.length + 1
  ne_root : ∀ entry ∈ file.entries, entry.node ≠ root
  sorted : ∀ entry ∈ file.entries, entry.keys.Pairwise (· ≤ ·)
  few : ∀ entry ∈ file.entries, entry.keys.length ≤ 15
  arity : ∀ entry ∈ file.entries, entry.children.length = entry.keys.length + 1
  nodup : ∀ layer ∈ file.layers, (layer.map Entry.node).Nodup

theorem Schema.Holds.bodySize_lt {values : Values} (holds : schema.Holds values)
    (keyNum : BitVec 64) : bodySize (bytesOf (schema.keyIndex keyNum)) values < 2 ^ 32 := by
  have hsize := holds.valuesSize_le
  have hfits := schema.fits
  rw [bodySize, length_bytesOf, schema.length_keyIndex]
  omega

theorem tableOf_distinct {values : Values} (distinct : (values.map Prod.fst).Nodup) :
    ((tableOf values).map Prod.fst).Nodup := by
  have hnames : (tableOf values).map Prod.fst
      = (values.map Prod.fst).map (String.ofList ∘ textOf) := by
    rw [tableOf, List.map_map, List.map_map]
    rfl
  have hinjective : Function.Injective (String.ofList ∘ textOf) := by
    intro first second heq
    have hlist := congrArg String.toList heq
    simp only [Function.comp_apply, String.toList_ofList] at hlist
    exact textOf_injective hlist
  rw [hnames]
  exact distinct.map hinjective

theorem mem_keysOf_of_newest {κ V : Type} [LinearOrder κ] {history : List (κ × V)} {k : κ} {v : V}
    (hnewest : newest history k = some v) : k ∈ keysOf history := by
  obtain ⟨before, after, rfl, -⟩ := List.lookup_eq_some_iff.mp hnewest
  simp [keysOf]

end Names

/-! ## One packet -/

namespace Backend

theorem nodeIndex_add (pool : BitVec 64) {n : Nat} (hn : n * sizeofNode < 2 ^ 64) :
    nodeIndex pool (pool + BitVec.ofNat 64 (n * sizeofNode)) = some n := by
  have hoffset : (pool + BitVec.ofNat 64 (n * sizeofNode) - pool).toNat = n * sizeofNode := by
    rw [BitVec.add_comm, BitVec.add_sub_cancel, BitVec.toNat_ofNat, Nat.mod_eq_of_lt hn]
  rw [nodeIndex]
  simp only [hoffset]
  rw [if_pos (Nat.mul_mod_left n sizeofNode), Nat.mul_div_cancel n (by decide)]

theorem nodeIndex_root (pool : BitVec 64) : nodeIndex pool (resolve pool 0) = some root := by
  have hroot := nodeIndex_add pool (n := root) (by decide)
  rw [Nat.zero_mul] at hroot
  have hmask : (0 : BitVec 64) &&& 0xFFFFFFFF = 0 := by decide
  rw [resolve, hmask]
  exact hroot

/-- The index of a node that the switch knows leads back to it. -/
theorem nodeIndex_printed (pool : BitVec 64) (part : Fin 4) {n : Nat} (hn : n ≤ 44739242) :
    nodeIndex pool (resolve pool
      (((printedAddr (serverMask part) pool (nodeAddr pool n)).setWidth 48).setWidth 64)) =
        some n := by
  have htrip := roundTrip_eq pool part n 0 0 []
  have hlow : n * sizeofNode % 2 ^ 32 = n * sizeofNode := by
    rw [sizeofNode]
    omega
  simp only [roundTrip, extractFbtHdr_emitFbt, Option.bind_eq_bind, Option.bind_some,
    Option.pure_def, Option.some.injEq, hlow] at htrip
  rw [htrip]
  refine nodeIndex_add pool ?_
  rw [sizeofNode]
  omega

section Reads

variable {buf : Nat → Byte} {msg : Nat}

theorem extractFbtHdr_of_reads {keyHi keyLo : BitVec 32} {fbtIdx : BitVec 48}
    (reads : Reads buf msg (emitFbt keyHi keyLo fbtIdx)) :
    extractFbtHdr (load buf msg 14) = some (14, fbtIdx.setWidth 64) := by
  have hload : load buf msg 14 = emitFbt keyHi keyLo fbtIdx := reads
  have hfound := extractFbtHdr_emitFbt keyHi keyLo fbtIdx []
  rwa [List.append_nil, ← hload] at hfound

theorem extractMsgType_of_reads {msgType : BitVec 32} {pid : Byte}
    (reads : Reads buf 0 (unsignedBytes (htonl msgType) ++ [pid])) :
    extractMsgType (load buf 0 5) = some (5, msgType) := by
  have hload : load buf 0 5 = unsignedBytes (htonl msgType) ++ [pid] := reads
  rw [hload]
  exact extractMsgType_eq msgType pid []

end Reads

section Handle

variable {schema : Schema} (config : Config) (memory : Memory)
  {w : World (List Char) FieldTable} {history : List (List Char × FieldTable)}
  {buf : Nat → Byte} {msg : Nat} {keyNum : BitVec 64}

/-- The main loop hands the rest of the packet to the handler of its type. -/
theorem handle_typed (server : Server) (msgType : BitVec 32) (pid : Byte) (rest : List Byte) :
    ∃ buf, Reads buf 5 rest ∧
      handle config memory server (unsignedBytes (htonl msgType) ++ [pid] ++ rest) =
        (if msgType = 0x0526 then do
          let (reply, tree) ← handleInsert memory server.tree buf 5
          return (some reply, { server with tree := tree })
        else if msgType = 0x0527 then do
          let (reply, tree) ← handleQuery config memory server.tree buf 5
          return (some reply, { server with tree := tree })
        else if msgType = 0x0531 then do
          let (reply, tree) ← handleUpdate config memory server.tree buf 5
          return (some reply, { server with tree := tree })
        else if msgType = 0x0600 then do
          let (reply, file, tree) ← handleLoad2switch memory server.tree
          return (some reply, ⟨tree, server.files ++ [file]⟩)
        else some (none, server)) := by
  have reads : Reads (store memory.msg 0 (unsignedBytes (htonl msgType) ++ [pid] ++ rest)) 0
      (unsignedBytes (htonl msgType) ++ [pid] ++ rest) := reads_store
  refine ⟨_, reads.right, ?_⟩
  rw [handle]
  simp only [extractMsgType_of_reads reads.left]
  rfl

theorem handleInsert_eq (settled : Settled 16 w history) {among : BitVec 64 → Prop}
    (growing : Growing (schema.IsKey among) w) (hkey : among keyNum) {values : Fields schema}
    (reads : Reads buf msg (bodyBytes (bytesOf (schema.keyIndex keyNum)) values.val))
    (hnew : schema.keyIndex keyNum ∉ keysOf history) :
    ∃ w', handleInsert memory w.state buf msg = some (ack memory.ret 0x0528, w'.state) ∧
      Settled 16 w' ((schema.keyIndex keyNum, tableOf values.val) :: history) ∧
      Keeps w w' ∧ Growing (schema.IsKey among) w' := by
  obtain ⟨w', hinsert, hsettled, hkeeps, hgrowing⟩ := settled.insert_growing ethernet growing
    (tableOf values.val) hnew ⟨keyNum, hkey, rfl⟩
  have hstored : ethernet.storeVal (tableOf values.val) default = tableOf values.val :=
    updateFieldTable_nil (tableOf_distinct values.property.distinct)
  rw [hstored] at hsettled
  refine ⟨w', ?_, hsettled, hkeeps, hgrowing⟩
  rw [handleInsert, readBody_eq (values.property.bodySize_lt keyNum) reads]
  simp only [schema.textOf_keyIndex, hinsert, Option.bind_eq_bind, Option.bind_some,
    Option.pure_def]

theorem handleUpdate_eq (settled : Settled 16 w history) {values : Fields schema}
    (reads : Reads buf msg
      (fbtBytes keyNum ++ bodyBytes (bytesOf (schema.keyIndex keyNum)) values.val))
    {old : FieldTable} (hold : newest history (schema.keyIndex keyNum) = some old) :
    ∃ σ', handleUpdate config memory w.state buf msg = some (ack memory.ret 0x0530, σ') ∧
      Settled 16 (⟨σ', w.dist, w.bounds⟩ : World (List Char) FieldTable)
        ((schema.keyIndex keyNum, updateFieldTable (tableOf values.val) old) :: history) ∧
      SameNodes w.state σ' := by
  rw [fbtBytes_eq] at reads
  have hbody := reads.right
  have hlen : (emitFbt ((keyNum >>> 32).setWidth 32) ((keyNum &&& 0xffffffff).setWidth 32)
    0).length = 14 := rfl
  rw [hlen] at hbody
  have hspec := Settled.update_spec settled (schema.keyIndex keyNum) (tableOf values.val)
  unfold Modifies at hspec
  rw [ceilKey_self (mem_keysOf_of_newest hold)] at hspec
  obtain ⟨σ', old', hupdate, hold', hsettled⟩ := hspec
  obtain rfl := Option.some.inj (hold.symm.trans hold')
  refine ⟨σ', ?_, hsettled, ?_⟩
  · have hzero : (0 : BitVec 48).setWidth 64 = 0 := rfl
    rw [handleUpdate, extractFbtHdr_of_reads reads.left]
    simp only [Option.bind_eq_bind, Option.bind_some,
      readBody_eq (values.property.bodySize_lt keyNum) hbody, hzero, nodeIndex_root,
      schema.textOf_keyIndex, hupdate, Option.pure_def]
  · exact (sameNodes_touch w.state root).trans (sameNodes_modifyLoop _ hupdate)

/-- A read that starts at a node responsible for its key is answered with the record. -/
theorem handleQuery_eq (settled : Settled 16 w history) {keyHi keyLo : BitVec 32}
    {fbtIdx : BitVec 48}
    (reads : Reads buf msg
      (emitFbt keyHi keyLo fbtIdx ++ stringBytes (bytesOf (schema.keyIndex keyNum))))
    {n : Nat} (hcur : nodeIndex config.pool (resolve config.pool (fbtIdx.setWidth 64)) = some n)
    (hlt : n < w.state.nbNode) (hval : (w.state.pool n).isValue = false)
    (holds : w.bounds.Holds n (schema.keyIndex keyNum)) {record : FieldTable}
    (hrecord : newest history (schema.keyIndex keyNum) = some record) :
    ∃ σ', handleQuery config memory w.state buf msg = some (answer memory.ret record, σ') ∧
      SameTree w.state σ' := by
  have hkey := reads.right
  have hlen : (emitFbt keyHi keyLo fbtIdx).length = 14 := by
    simp only [emitFbt, List.length_append, List.length_reverse, length_littleEndian]
  rw [hlen] at hkey
  have hsize : (stringBytes (bytesOf (schema.keyIndex keyNum))).length < 2 ^ 32 := by
    have hfits := schema.fits
    rw [length_stringBytes, length_bytesOf, schema.length_keyIndex]
    omega
  -- the switch may have sent the read to another node than the root, or not at all
  obtain ⟨start, hstart, hstartLt, hstartVal, hstartHolds⟩ : ∃ start,
      nodeIndex config.pool (resolve config.pool
        (if config.mode = 0 then 0 else fbtIdx.setWidth 64)) = some start ∧
      start < w.state.nbNode ∧ (w.state.pool start).isValue = false ∧
      w.bounds.Holds start (schema.keyIndex keyNum) := by
    by_cases hmode : config.mode = 0
    · rw [if_pos hmode]
      exact ⟨root, nodeIndex_root config.pool, settled.shape.root_lt, settled.shape.root_isValue,
        settled.ordered.holds_root _⟩
    · rw [if_neg hmode]
      exact ⟨n, hcur, hlt, hval, holds⟩
  have hanswer := Settled.lookup_eq settled hstartLt hstartVal hstartHolds
  rw [ceiling_eq_newest hrecord] at hanswer
  obtain ⟨⟨found, σ'⟩, hlookup, hfound⟩ := Option.map_eq_some_iff.mp hanswer
  obtain rfl : found = record := hfound
  refine ⟨σ', ?_, settled.shape.sameTree_lookup hstartLt hlookup⟩
  rw [handleQuery, extractFbtHdr_of_reads reads.left]
  simp only [Option.bind_eq_bind, Option.bind_some, extractKeyIndex, extractKeyIndex_eq hkey hsize,
    hstart, schema.textOf_keyIndex, hlookup, Option.pure_def]

/-- The layers below the fat root hold inner nodes without repetition, and not the root. -/
theorem inner_layersOf (sound : Sound 16 w history) {args : LoadArgs} (hnum : 0 < args.maxLoadNum)
    {nodeVec : List (Nat × List Char)} (partition : Partition w args.compressDepth nodeVec)
    (hvec : nodeVec ≠ []) (hne : ∀ p ∈ nodeVec, p.1 ≠ root) {layer : List Nat}
    (hlayer : layer ∈ layersOf w.state args nodeVec) :
    layer.Nodup ∧ ∀ n ∈ layer, (w.state.pool n).IsInner ∧ n ≠ root := by
  have htop : ∀ n ∈ capLayer w.state args.ties args.maxLoadNum args.compressDepth
      (nodeVec.map Prod.fst), ∃ p ∈ nodeVec, p.1 = n :=
    fun n hn => List.mem_map.mp (mem_capLayer hn)
  have hcount : 0 < w.state.depth - 1 - args.compressDepth := by
    by_contra hnone
    rw [layersOf, Nat.eq_zero_of_not_pos hnone] at hlayer
    cases hlayer
  obtain ⟨-, hnodup, hall⟩ := inner_layersFrom sound hnum
    (capLayer_ne_nil hnum (fun hnil => hvec (List.map_eq_nil_iff.mp hnil)))
    (nodup_capLayer partition.nodup) (fun n hn => by
      obtain ⟨p, hp, rfl⟩ := htop n hn
      have hdist := partition.shallow p hp
      exact ⟨partition.lt p hp, partition.isValue p hp, by omega⟩) layer hlayer
  refine ⟨hnodup, fun n hn => ⟨(hall n hn).2, ?_⟩⟩
  obtain ⟨-, -, hroot⟩ := layersFrom_induction (fun _ m => m ≠ root) (Nat.le_refl _)
    (fun m hm => by
      obtain ⟨p, hp, rfl⟩ := htop m hm
      exact hne p hp)
    (fun _ p c _ _ hchild => sound.shape.child_ne_root p c hchild) layer hlayer n hn
  exact hroot

/-- What a load of a tree of two levels prints. -/
theorem listed_printed (settled : Settled 16 w history) {among : BitVec 64 → Prop}
    (growing : Growing (schema.IsKey among) w) (hdepth : 2 ≤ w.state.depth) {args : LoadArgs}
    (hroom : 17 ≤ args.rootLoadNum) (hnum : 0 < args.maxLoadNum) {nodeVec : List (Nat × List Char)}
    (hfrontier : frontier 16 w.state args.ties args.rootLoadNum args.compressDepth = some nodeVec)
    (partition : Partition w args.compressDepth nodeVec)
    (sorted : nodeVec.Pairwise (fun p q => p.2 ≤ q.2)) {file : Snapshot (Fin (2 ^ 64))}
    (hback : file.map schema.name = printed w.state nodeVec (layersOf w.state args nodeVec)) :
    Listed among file := by
  have shape := settled.shape
  have sound := settled.toSound
  have mono := schema.name_strictMono
  have hinner := sound.inner_root hdepth
  have hne := frontier_ne_root shape args.ties hroom hfrontier
  have htwo := partition.two_le_length sound growing.strict hinner (growing.rootFilled hinner) hne
  have hkeys : file.fat.keys.map schema.name = nodeVec.tail.map Prod.snd :=
    congrArg (fun snapshot => snapshot.fat.keys) hback
  have hchildren : file.fat.children = nodeVec.map Prod.fst :=
    congrArg (fun snapshot => snapshot.fat.children) hback
  have hlayers : file.layers.map (List.map (Entry.map schema.name)) =
      (layersOf w.state args nodeVec).map (List.map (nodeEntry w.state)) :=
    congrArg Snapshot.layers hback
  have hvec : nodeVec ≠ [] := List.ne_nil_of_length_pos (by omega)
  have hinside := fun {layer : List Nat} (hlayer : layer ∈ layersOf w.state args nodeVec) =>
    inner_layersOf sound hnum partition hvec hne hlayer
  have hentry : ∀ entry ∈ file.entries, ∃ n, (w.state.pool n).IsInner ∧ n ≠ root ∧
      entry.map schema.name = nodeEntry w.state n := by
    intro entry hmem
    have hcopy : entry.map schema.name ∈ (file.map schema.name).entries := by
      rw [Snapshot.entries_map]
      exact List.mem_map_of_mem hmem
    rw [hback] at hcopy
    obtain ⟨layer, hlayer, n, hn, heq⟩ := mem_entries_printed.mp hcopy
    obtain ⟨isInner, hroot⟩ := (hinside hlayer).2 n hn
    exact ⟨n, isInner, hroot, heq.symm⟩
  constructor
  case increasing =>
    have hincreasing := partition.fat_sorted sound growing.strict sorted
    rw [← hkeys, List.pairwise_map] at hincreasing
    exact hincreasing.imp mono.lt_iff_lt.mp
  case keys_ne_nil =>
    intro hnil
    have hlen := congrArg List.length hkeys
    rw [hnil] at hlen
    simp only [List.map_nil, List.length_nil, List.length_map, List.length_tail] at hlen
    omega
  case named =>
    intro x hx
    obtain ⟨keyNum, hamong, heq⟩ := partition.fat_keys sound growing.strict sorted growing.keysIn
      (schema.name x) (hkeys ▸ List.mem_map_of_mem hx)
    rw [schema.keyIndex_injective heq]
    exact hamong
  case fat_arity =>
    have hlen := congrArg List.length hkeys
    rw [List.length_map, List.length_map, List.length_tail] at hlen
    rw [hchildren, List.length_map]
    omega
  case ne_root =>
    intro entry hmem
    obtain ⟨n, -, hroot, heq⟩ := hentry entry hmem
    have hnode : entry.node = n := congrArg Entry.node heq
    rwa [hnode]
  case sorted =>
    intro entry hmem
    obtain ⟨n, -, -, heq⟩ := hentry entry hmem
    have hkey : entry.keys.map schema.name = (w.state.pool n).key := congrArg Entry.keys heq
    have hsorted : Ascending (w.state.pool n).key := settled.ordered.sorted n
    rw [← hkey, Ascending, List.pairwise_map] at hsorted
    exact hsorted.imp mono.le_iff_le.mp
  case few =>
    intro entry hmem
    obtain ⟨n, -, -, heq⟩ := hentry entry hmem
    have hkey : entry.keys.map schema.name = (w.state.pool n).key := congrArg Entry.keys heq
    have hsmall := settled.small n
    rw [← hkey, List.length_map] at hsmall
    exact Nat.le_of_lt_succ hsmall
  case arity =>
    intro entry hmem
    obtain ⟨n, hinside, -, heq⟩ := hentry entry hmem
    have hkey : entry.keys.map schema.name = (w.state.pool n).key := congrArg Entry.keys heq
    have hchild : entry.children = (w.state.pool n).child := congrArg Entry.children heq
    rw [hchild, shape.inner_arity n hinside, ← hkey, List.length_map]
  case nodup =>
    intro layer hlayer
    have hcopy := List.mem_map_of_mem (f := List.map (Entry.map schema.name)) hlayer
    rw [hlayers] at hcopy
    obtain ⟨nodes, hnodes, heq⟩ := List.mem_map.mp hcopy
    have hnode : layer.map Entry.node = nodes := by
      have hsame := congrArg (List.map Entry.node) heq
      rw [List.map_map, List.map_map] at hsame
      exact hsame.symm.trans (List.map_id nodes)
    rw [hnode]
    exact (hinside hnodes).1

/-- A load of a tree of two levels prints a file that routes. -/
theorem handleLoad2switch_eq (settled : Settled 16 w history) {among : BitVec 64 → Prop}
    (growing : Growing (schema.IsKey among) w) (hdepth : 2 ≤ w.state.depth) :
    ∃ file σ', handleLoad2switch memory w.state = some (ack memory.ret 0x0601, file, σ') ∧
      SameTree w.state σ' ∧ Listed among file ∧ file.layers.length = w.state.depth - 3 ∧
      Routed schema.name file (⟨σ', w.dist, w.bounds⟩ : World (List Char) FieldTable) := by
  let args : LoadArgs := ⟨rootLoadNum, maxLoadNum, compressDepth, memory.ties⟩
  obtain ⟨nodeVec, hfrontier, hpartition, hsorted⟩ := frontier_eq settled.toSound args.ties
    args.rootLoadNum (settled.toSound.inner_root hdepth) (show 0 < args.compressDepth from Nat.succ_pos 1)
  have hload : load2switchGreedy 16 w.state args =
      some (printed w.state nodeVec (layersOf w.state args nodeVec),
        markLoaded w.state (printed w.state nodeVec (layersOf w.state args nodeVec)).loaded) := by
    have hbad : ¬ (w.state.depth < 2 ∨ 2 ^ 32 ≤ args.compressDepth + 1) :=
      not_or.mpr ⟨Nat.not_lt_of_le hdepth, show ¬ 2 ^ 32 ≤ 3 by decide⟩
    rw [load2switchGreedy, if_neg hbad]
    simp only [hfrontier]
  have hinner := inner_of_mem_layersOf settled.toSound hpartition
  have hfaithful : Faithful (printed w.state nodeVec (layersOf w.state args nodeVec)) w :=
    faithful_printed settled.toSound growing.strict hpartition hsorted
      (lt_of_mem_layersOf settled.shape hpartition.lt)
  obtain ⟨file, hfile, hback⟩ : ∃ file,
      numbered (printed w.state nodeVec (layersOf w.state args nodeVec)) = some file ∧
      file.map schema.name = printed w.state nodeVec (layersOf w.state args nodeVec) := by
    refine numbered_some (hpartition.fat_keys settled.toSound growing.strict hsorted
      growing.keysIn) fun entry hentry k hk => ?_
    rw [hfaithful.copied entry hentry] at hk
    exact growing.keysIn entry.node k hk
  have hlayers : file.layers.length = w.state.depth - 3 := by
    have hlen := congrArg (fun snapshot => snapshot.layers.length) hback
    simp only [Snapshot.map, printed, layersOf, List.length_map, length_layersFrom_eq] at hlen
    rw [hlen]
    exact Nat.sub_sub _ 1 2
  have hlisted := listed_printed settled growing hdepth (show 17 ≤ rootLoadNum by decide)
    (show 0 < maxLoadNum by decide) hfrontier hpartition hsorted hback
  generalize printed w.state nodeVec (layersOf w.state args nodeVec) = snapshot at *
  have hrouted := Faithful.routed schema.name_strictMono (hback ▸ hfaithful) settled.toSound
    (hback ▸ hinner)
  have hloaded : file.loaded = snapshot.loaded := by rw [← hback, Snapshot.loaded_map]
  have hmark : SameTree w.state (markLoaded w.state snapshot.loaded) :=
    sameTree_markLoaded (load2switchGreedy_eq settled.shape hload).2
  have hcount : SameTree (markLoaded w.state snapshot.loaded)
      { markLoaded w.state snapshot.loaded with nbQuery := 0, nbAccess := 0 } := by
    constructor <;> intros <;> first | rfl | assumption
  refine ⟨file, _, ?_, hmark.trans hcount, hlisted, hlayers, ?_⟩
  · rw [handleLoad2switch, hload]
    simp only [Option.bind_eq_bind, Option.bind_some, hfile, Option.pure_def]
  · rw [hloaded] at hrouted
    exact hrouted.mono (anchors_of_keeps (hcount.keeps w.dist w.bounds))

end Handle

end Backend

end FatBTree.Ethernet
