import FatBTree.Ethernet.Accesses
import FatBTree.Ethernet.Redirected

/-!
# Runs with the two switches

Every packet passes both switches, and the scripts fill their tables with files of any
loads.  A run in which the reads meet their rows is a run of the cluster.
-/

namespace FatBTree.Ethernet

open FatBTree.P4 FatBTree.Sram FatBTree.Switch FatBTree.Wire FatBTree.Protocol

variable {schema : Schema} {C : Type}

/-! ## The system -/

/-- The parties, and the contents that the tables of the switches have ever had.  A packet
on its way may have passed a switch under any of them. -/
structure Deployment (schema : Schema) (C : Type) where
  net : Net C (Fin 4) Server (ClientRequest schema) (List Byte)
  tcams : List TcamConfig
  srams : List Sram.Tables

def Deployment.start : Deployment schema C where
  net := .start fun _ => Server.start
  tcams := [.empty]
  srams := [.empty]

/-- The key of a read meets its rows in the first switch and is not on a separator. -/
def TcamConfig.Clear (tcam : TcamConfig) : ClientRequest schema → Prop
  | .read keyNum => ¬ Tcam.Lost tcam.keys keyNum.toNat ∧
      ∀ s : Fin 3, keyNum.toNat ≠ (s.val + 1) * 2 ^ 62
  | .insert _ _ => True
  | .update _ _ => True
  | .load2Switch _ => True

/-- What a server gets of a request. -/
inductive Arrives (tcams : List TcamConfig) (srams : List Sram.Tables)
    (request : ClientRequest schema) : List Byte → Prop where
  | passed {w : Writer} {tcam : TcamConfig} {tables : Sram.Tables} {out : Bits}
      (buf : Nat → Byte) (ethernet : EthernetH) (ipv4 : Ipv4H) (udp : UdpH) (found : Tcam.Meta)
      (scratch : Fin 4 → MetaVar) (written : request.write buf = some w) (htcam : tcam ∈ tcams)
      (hsram : tables ∈ srams) (clear : tcam.Clear request)
      (forwarded : forward tcam tables found scratch
        (udpPacket ethernet ipv4 udp (sentBytes w 0)) = some out) :
      Arrives tcams srams request (Backend.receivedMsg out)

/-- What a client gets of a reply. -/
inductive Returns (tcams : List TcamConfig) (srams : List Sram.Tables) (sent : List Byte) :
    List Byte → Prop where
  | passed {tcam : TcamConfig} {tables : Sram.Tables} {out : Bits} (ethernet : EthernetH)
      (ipv4 : Ipv4H) (udp : UdpH) (found : Tcam.Meta) (scratch : Fin 4 → MetaVar)
      (htcam : tcam ∈ tcams) (hsram : tables ∈ srams)
      (returned : backward tcam tables found scratch (udpPacket ethernet ipv4 udp sent) = some out) :
      Returns tcams srams sent (Backend.receivedMsg out)

/-- The servers behind switches that have had these tables. -/
def switched (schema : Schema) (config : Fin 4 → Backend.Config) (tcams : List TcamConfig)
    (srams : List Sram.Tables) : Service (Fin 4) Server (ClientRequest schema) (List Byte) where
  route := ClientRequest.part
  serve part server request reply next := ∃ memory payload sent,
    Arrives tcams srams request payload ∧
      Backend.handle (config part) memory server payload = some (some sent, next) ∧
      Returns tcams srams sent reply

section Runs

variable [DecidableEq C] (config : Fin 4 → Backend.Config)

/-- A step of a party or the network, or a script that runs on files of the servers. -/
inductive Deployment.Step : Deployment schema C → Deployment schema C → Prop where
  | net {d : Deployment schema C} {next : Net C (Fin 4) Server (ClientRequest schema) (List Byte)}
      (step : Protocol.Step (switched schema config d.tcams d.srams) mayCall d.net next) :
      Step d { d with net := next }
  | configTcam {d : Deployment schema C} {tcam : TcamConfig}
      (fat : Fin 4 → Snapshot (Fin (2 ^ 64)))
      (loaded : ∀ part, fat part ∈ (d.net.server part).files)
      (ran : Ethernet.configTcam config fat = some tcam) :
      Step d { d with tcams := d.tcams ++ [tcam] }
  | configSram {d : Deployment schema C} {tables : Sram.Tables}
      (low : Fin 4 → Snapshot (Fin (2 ^ 64)))
      (loaded : ∀ part, low part ∈ (d.net.server part).files)
      (ran : Ethernet.configSram schema config low = some tables) :
      Step d { d with srams := d.srams ++ [tables] }

/-- The deployments that a run reaches. -/
inductive Deployed : Deployment schema C → Prop where
  | start : Deployed .start
  | step {d next : Deployment schema C} (deployed : Deployed d) (step : Deployment.Step config d next) :
      Deployed next

end Runs

/-! ## Tables from files -/

/-- The tables are empty, or they were made from files of the servers. -/
structure Loaded (schema : Schema) (config : Fin 4 → Backend.Config) (servers : Fin 4 → Server)
    (tcams : List TcamConfig) (srams : List Sram.Tables) : Prop where
  tcam : ∀ tcam ∈ tcams, tcam = .empty ∨ ∃ fat : Fin 4 → Snapshot (Fin (2 ^ 64)),
    (∀ part, fat part ∈ (servers part).files) ∧ configTcam config fat = some tcam
  sram : ∀ tables ∈ srams, tables = .empty ∨ ∃ low : Fin 4 → Snapshot (Fin (2 ^ 64)),
    (∀ part, low part ∈ (servers part).files) ∧ configSram schema config low = some tables

variable {config : Fin 4 → Backend.Config} {servers : Fin 4 → Server}
  {tcams : List TcamConfig} {srams : List Sram.Tables}

theorem Loaded.mono (loaded : Loaded schema config servers tcams srams) {later : Fin 4 → Server}
    (kept : ∀ part, ∀ file ∈ (servers part).files, file ∈ (later part).files) :
    Loaded schema config later tcams srams where
  tcam tcam htcam := (loaded.tcam tcam htcam).imp_right fun ⟨fat, hfat, ran⟩ =>
    ⟨fat, fun part => kept part _ (hfat part), ran⟩
  sram tables htables := (loaded.sram tables htables).imp_right fun ⟨low, hlow, ran⟩ =>
    ⟨low, fun part => kept part _ (hlow part), ran⟩

section Requests

variable {log : List (ClientRequest schema)}

theorem Serving.listed {part : Fin 4} {server : Server} (serving : Serving part log server)
    {file : Snapshot (Fin (2 ^ 64))} (hfile : file ∈ server.files) : Listed (InPart part) file := by
  obtain ⟨w, history, holding⟩ := serving
  exact holding.listed file hfile

theorem Serving.bounded {part : Fin 4} {server : Server} (serving : Serving part log server)
    (small : server.tree.nbNode ≤ 44739243) {file : Snapshot (Fin (2 ^ 64))}
    (hfile : file ∈ server.files) : ∀ entry ∈ file.entries, entry.node ≤ 44739242 := by
  obtain ⟨w, history, holding⟩ := serving
  intro entry hentry
  have hlt := ((holding.routed file hfile).node entry hentry).lt
  rw [holding.tree] at hlt
  omega

/-- A walk through the files of a server stays among its nodes. -/
theorem Serving.near {part : Fin 4} {server : Server} (serving : Serving part log server)
    (small : server.tree.nbNode ≤ 44739243) {x : Fin (2 ^ 64)} {n : Nat}
    (walks : Walks server.files x n) : n ≤ 44739242 := by
  obtain ⟨w, history, holding⟩ := serving
  have hlt := (anchored_of_walks holding.routed walks).1.lt
  rw [holding.tree] at hlt
  omega

/-- The first switch gives a read no index or that of a fat child. -/
theorem Loaded.apply_reached (loaded : Loaded schema config servers tcams srams)
    (serving : ∀ part, Serving part log (servers part)) {tcam : TcamConfig} (htcam : tcam ∈ tcams)
    (found : Tcam.Meta) {key : BitVec 64}
    (clear : tcam.Clear (ClientRequest.read key : ClientRequest schema)) :
    ∃ idx, tcam.apply found (quarters key 0) = quarters key idx ∧
      Reached (config (Tcam.partOf key)) (Tcam.partOf key) (servers (Tcam.partOf key)).files
        key.toFin idx := by
  rcases loaded.tcam tcam htcam with rfl | ⟨fat, hfat, ran⟩
  · exact ⟨0, rfl, .unset⟩
  · have listed : ∀ part, Listed (InPart part) (fat part) := fun part => (serving part).listed (hfat part)
    obtain ⟨hfail, hsucceed⟩ := configTcam_eq config listed
    have unglued : ¬ Tcam.Glued (fatKeys fat) := by
      intro glued
      rw [hfail glued] at ran
      cases ran
    obtain rfl := Option.some.inj ((hsucceed unglued).symm.trans ran)
    obtain ⟨n, hstep, happly⟩ := loadedTcam_apply config listed found (quarters key 0)
      (append_quarters key) clear.1 clear.2
    exact ⟨_, happly, .walked (.fat (hfat _) hstep)⟩

theorem installed_empty : Installed [] Sram.Tables.empty := by
  obtain ⟨tables, hrun, installed⟩ := install_eq [] fun _ => List.nodup_nil
  obtain rfl : Sram.Tables.empty = tables := Option.some.inj hrun
  exact installed

/-- The second switch keeps the index or makes steps through copies. -/
theorem Loaded.ingressApply_reached (loaded : Loaded schema config servers tcams srams)
    (serving : ∀ part, Serving part log (servers part))
    (small : ∀ part, (servers part).tree.nbNode ≤ 44739243) {tables : Sram.Tables}
    (htables : tables ∈ srams) (scratch : Fin 4 → MetaVar) {part : Fin 4} {key : BitVec 64}
    {idx : BitVec 48} (reached : Reached (config part) part (servers part).files key.toFin idx) :
    Reached (config part) part (servers part).files key.toFin
      (Sram.ingressApply tables (parseFbt ⟨keyHi key, keyLo key, idx⟩ scratch)).hdr.fbtIdx := by
  rcases loaded.sram tables htables with rfl | ⟨low, hlow, ran⟩
  · rw [installed_empty.ingressApply_fbtIdx]
    exact reached
  · have listed : ∀ part, Listed (InPart part) (low part) := fun part => (serving part).listed (hlow part)
    have bounded : ∀ part, ∀ entry ∈ (low part).entries, entry.node ≤ 44739242 :=
      fun part => (serving part).bounded (small part) (hlow part)
    obtain ⟨tables', calls, hrun, installed, hcalls⟩ :=
      configSram_eq config listed bounded (opened_of_configSram config ran)
    obtain rfl := Option.some.inj (hrun.symm.trans ran)
    have hstep := fun {idx} (reached : Reached (config part) part (servers part).files key.toFin idx) =>
      reached.step hcalls bounded (fun part => (listed part).ne_root) (hlow part)
        fun n walks => (serving part).near (small part) walks
    rw [installed.ingressApply_fbtIdx]
    exact hstep (hstep reached 0) 1

theorem setFbtIdx_zero (pid : BitVec 8) (key : BitVec 64) (body : List Byte) :
    setFbtIdx (headerBytes pid key ++ body) 0 = headerBytes pid key ++ body := by
  rw [setFbtIdx_headerBytes, headerBytes, fbtBytes_eq]
  simp only [List.append_assoc, List.nil_append, List.cons_append]

theorem forwards_redirected {server : Backend.Config} {part : Fin 4} {tree : Server}
    {key : BitVec 64} {n : Nat} (walks : Walks tree.files key.toFin n) :
    Forwards server part tree (ClientRequest.read key : ClientRequest schema)
      (setFbtIdx (ClientRequest.read key : ClientRequest schema).bytes (nodeIdx server part n)) := by
  have hsent : Forwards server part tree (ClientRequest.read key : ClientRequest schema)
      (setFbtIdx (sentBytes (wrote (fun _ => 0) 0
        (ClientRequest.read key : ClientRequest schema).bytes) 0) (nodeIdx server part n)) :=
    .redirected (fun _ => 0) key (ClientRequest.write_eq ..) walks
  have hlen := (ClientRequest.read key : ClientRequest schema).length_bytes_le
  rwa [sentBytes_wrote (by omega)] at hsent

theorem ClientRequest.noQuery_bytes (request : ClientRequest schema)
    (hread : ∀ keyNum, request ≠ .read keyNum) : NoQuery request.bytes := by
  cases request with
  | insert keyNum values => exact ⟨0x0526, _, _, by decide, rfl⟩
  | update keyNum values => exact ⟨0x0531, _, _, by decide, List.append_assoc ..⟩
  | read keyNum => exact absurd rfl (hread keyNum)
  | load2Switch partId => exact ⟨0x0600, _, [], by decide, (List.append_nil _).symm⟩

/-- A message that is no query passes the switches and is received as it was sent. -/
theorem forward_noQuery {sent : List Byte} (noQuery : NoQuery sent) (tcam : TcamConfig)
    (tables : Sram.Tables) (found : Tcam.Meta) (scratch : Fin 4 → MetaVar) (ethernet : EthernetH)
    (ipv4 : Ipv4H) (udp : UdpH) :
    ∃ out, forward tcam tables found scratch (udpPacket ethernet ipv4 udp sent) = some out ∧
      Backend.receivedMsg out = sent := by
  obtain ⟨msgType, pid, rest, other, rfl⟩ := noQuery
  refine ⟨_, forward_other other rest tcam tables found scratch, ?_⟩
  rw [udpPacket, Backend.receivedMsg_eq]

theorem backward_noQuery {sent : List Byte} (noQuery : NoQuery sent) (tcam : TcamConfig)
    (tables : Sram.Tables) (found : Tcam.Meta) (scratch : Fin 4 → MetaVar) (ethernet : EthernetH)
    (ipv4 : Ipv4H) (udp : UdpH) :
    ∃ out, backward tcam tables found scratch (udpPacket ethernet ipv4 udp sent) = some out ∧
      Backend.receivedMsg out = sent := by
  obtain ⟨msgType, pid, rest, other, rfl⟩ := noQuery
  refine ⟨_, backward_other other rest tcam tables found scratch, ?_⟩
  rw [udpPacket, Backend.receivedMsg_eq]

/-- Every request passes the switches, and what arrives of it is what the cluster knows. -/
theorem Loaded.forward_request (loaded : Loaded schema config servers tcams srams)
    (serving : ∀ part, Serving part log (servers part))
    (small : ∀ part, (servers part).tree.nbNode ≤ 44739243) (request : ClientRequest schema)
    {tcam : TcamConfig} {tables : Sram.Tables} (htcam : tcam ∈ tcams) (htables : tables ∈ srams)
    (clear : tcam.Clear request) (found : Tcam.Meta) (scratch : Fin 4 → MetaVar)
    (ethernet : EthernetH) (ipv4 : Ipv4H) (udp : UdpH) :
    ∃ out, forward tcam tables found scratch (udpPacket ethernet ipv4 udp request.bytes) = some out ∧
      Forwards (config request.part) request.part (servers request.part) request
        (Backend.receivedMsg out) := by
  by_cases hread : ∀ keyNum, request ≠ .read keyNum
  · obtain ⟨out, hforward, hreceived⟩ := forward_noQuery (request.noQuery_bytes hread) tcam tables
      found scratch ethernet ipv4 udp
    refine ⟨out, hforward, ?_⟩
    rw [hreceived]
    exact forwards_bytes request
  · obtain ⟨key, rfl⟩ : ∃ key, request = .read key := by simpa using hread
    obtain ⟨idx, happly, reached⟩ := loaded.apply_reached serving htcam found clear
    obtain ⟨out, hforward, hreceived⟩ := forward_query tcam tables found scratch happly ethernet
      ipv4 udp (BitVec.ofNat 8 (Tcam.partOf key)) (stringBytes (bytesOf (schema.keyIndex key)))
    refine ⟨out, hforward, ?_⟩
    have hlast := loaded.ingressApply_reached serving small htables scratch reached
    rw [hreceived]
    generalize (Sram.ingressApply tables
      (parseFbt ⟨keyHi key, keyLo key, idx⟩ scratch)).hdr.fbtIdx = last at hlast
    cases hlast with
    | unset =>
        rw [setFbtIdx_zero]
        exact forwards_bytes (ClientRequest.read key : ClientRequest schema)
    | walked walks => exact forwards_redirected walks

theorem Loaded.forwards (loaded : Loaded schema config servers tcams srams)
    (serving : ∀ part, Serving part log (servers part))
    (small : ∀ part, (servers part).tree.nbNode ≤ 44739243) {request : ClientRequest schema}
    {payload : List Byte} (arrives : Arrives tcams srams request payload) :
    Forwards (config request.part) request.part (servers request.part) request payload := by
  cases arrives with
  | passed buf ethernet ipv4 udp found scratch written htcam hsram clear forwarded =>
      obtain rfl := Option.some.inj ((ClientRequest.write_eq buf request).symm.trans written)
      have hlen := request.length_bytes_le
      rw [sentBytes_wrote (by omega)] at forwarded
      obtain ⟨out, hforward, forwards⟩ := loaded.forward_request serving small request htcam hsram
        clear found scratch ethernet ipv4 udp
      obtain rfl := Option.some.inj (hforward.symm.trans forwarded)
      exact forwards

theorem Returns.eq {sent reply : List Byte} (returns : Returns tcams srams sent reply)
    (noQuery : NoQuery sent) : reply = sent := by
  cases returns with
  | @passed tcam tables _ ethernet ipv4 udp found scratch _ _ returned =>
      obtain ⟨out, hback, hreceived⟩ :=
        backward_noQuery noQuery tcam tables found scratch ethernet ipv4 udp
      obtain rfl := Option.some.inj (hback.symm.trans returned)
      exact hreceived

end Requests

/-! ## Runs -/

/-- No packet makes a server forget a file. -/
theorem Backend.handle_files {server : Backend.Config} {memory : Backend.Memory} {tree next : Server}
    {payload : List Byte} {reply : Option (List Byte)}
    (hhandle : Backend.handle server memory tree payload = some (reply, next)) :
    ∀ file ∈ tree.files, file ∈ next.files := by
  rw [Backend.handle] at hhandle
  simp only [Option.bind_eq_bind, Option.bind_eq_some_iff] at hhandle
  obtain ⟨⟨msgLen, msgType⟩, -, hhandle⟩ := hhandle
  simp only at hhandle
  split_ifs at hhandle
  · obtain ⟨⟨ack, tree⟩, -, heq⟩ := Option.bind_eq_some_iff.mp hhandle
    cases heq
    exact fun file hfile => hfile
  · obtain ⟨⟨answer, tree⟩, -, heq⟩ := Option.bind_eq_some_iff.mp hhandle
    cases heq
    exact fun file hfile => hfile
  · obtain ⟨⟨ack, tree⟩, -, heq⟩ := Option.bind_eq_some_iff.mp hhandle
    cases heq
    exact fun file hfile => hfile
  · obtain ⟨⟨ack, file, tree⟩, -, heq⟩ := Option.bind_eq_some_iff.mp hhandle
    cases heq
    exact fun file hfile => List.mem_append_left _ hfile
  · cases hhandle
    exact fun file hfile => hfile

theorem Backend.serve_nbNode_le {server : Backend.Config}
    (arrivals : List (Backend.Memory × List Byte)) {tree last : Server}
    (hrun : Backend.serve server arrivals tree = some last) : tree.tree.nbNode ≤ last.tree.nbNode := by
  induction arrivals generalizing tree with
  | nil =>
      cases hrun
      exact Nat.le_refl _
  | cons arrival arrivals ih =>
      rw [Backend.serve, List.foldlM_cons] at hrun
      obtain ⟨next, hfirst, hrest⟩ := Option.bind_eq_some_iff.mp hrun
      obtain ⟨⟨reply, next⟩, hhandle, rfl⟩ := Option.map_eq_some_iff.mp hfirst
      exact (Backend.handle_nbNode_le hhandle).trans (ih hrest)

section Runs

variable [DecidableEq C] {d : Deployment schema C}

/-- A run of the cluster, and tables made from its files. -/
structure Configured (config : Fin 4 → Backend.Config) (d : Deployment schema C) : Prop where
  net : Reaches (cluster schema config) mayCall (fun _ => Server.start) d.net
  loaded : Loaded schema config d.net.server d.tcams d.srams

theorem Configured.serving (configured : Configured config d)
    (small : ∀ part, (d.net.server part).tree.nbNode ≤ 44739243) (part : Fin 4) :
    Serving part (requestsOf d.net.log) (d.net.server part) := by
  have fresh := (List.nodup_append.mp (fresh_of_reaches configured.net)).1
  exact (serving_of_replays (replays_cluster configured.net).1 fresh small).1 part

/-- What a server answers to a request in flight. -/
theorem Configured.handle (configured : Configured config d)
    (small : ∀ part, (d.net.server part).tree.nbNode ≤ 44739243) {c : C}
    {request : ClientRequest schema} (coming : (c, request) ∈ d.net.requests)
    {payload : List Byte}
    (forwards : Forwards (config request.part) request.part (d.net.server request.part) request
      payload) (memory : Backend.Memory) :
    ∃ reply next, Backend.handle (config request.part) memory (d.net.server request.part) payload
        = some (some reply, next) ∧
      Answered request.part (requestsOf d.net.log) request reply next := by
  have fresh := List.nodup_append.mp (fresh_of_reaches configured.net)
  have hnew : ∀ a, request.inserts = some a → a ∉ insertedNums (requestsOf d.net.log) := by
    intro a ha hmem
    refine fresh.2.2 a hmem a (List.mem_filterMap.mpr ⟨request, ?_, ha⟩) rfl
    exact List.mem_map.mpr ⟨(c, request), coming, rfl⟩
  exact (configured.serving small request.part).handle rfl
    ((replays_cluster configured.net).2 _ coming) hnew (small request.part) forwards memory

/-- A step behind the switches is a step of the cluster. -/
theorem Configured.step (configured : Configured config d)
    (small : ∀ part, (d.net.server part).tree.nbNode ≤ 44739243)
    {next : Net C (Fin 4) Server (ClientRequest schema) (List Byte)}
    (step : Protocol.Step (switched schema config d.tcams d.srams) mayCall d.net next) :
    Protocol.Step (cluster schema config) mayCall d.net next := by
  refine step.mono rfl fun c request reply after coming served => ?_
  obtain ⟨memory, payload, sent, arrives, hhandle, returns⟩ := served
  have forwards := configured.loaded.forwards (configured.serving small) small arrives
  obtain ⟨sent', after', hhandle', answered⟩ :=
    configured.handle small coming forwards memory
  have heq := hhandle'.symm.trans hhandle
  simp only [Option.some.injEq, Prod.mk.injEq] at heq
  obtain ⟨rfl, rfl⟩ := heq
  obtain rfl := returns.eq answered.noQuery
  exact ⟨memory, payload, forwards, hhandle⟩

theorem configured_of_deployed (deployed : Deployed config d)
    (small : ∀ part, (d.net.server part).tree.nbNode ≤ 44739243) : Configured config d := by
  induction deployed with
  | start =>
      exact ⟨.start, fun _ htcam => Or.inl (List.mem_singleton.mp htcam),
        fun _ htables => Or.inl (List.mem_singleton.mp htables)⟩
  | @step d _ deployed step ih =>
      cases step with
      | @net next step =>
          have grown : ∀ part, (d.net.server part).tree.nbNode ≤ (next.server part).tree.nbNode :=
            step.kept (R := fun before after : Server => before.tree.nbNode ≤ after.tree.nbNode)
              (fun _ => Nat.le_refl _) fun part server request reply after served => by
                obtain ⟨memory, payload, sent, -, hhandle, -⟩ := served
                exact Backend.handle_nbNode_le hhandle
          have kept : ∀ part, ∀ file ∈ (d.net.server part).files, file ∈ (next.server part).files :=
            step.kept (R := fun before after : Server => ∀ file ∈ before.files, file ∈ after.files)
              (fun _ _ hfile => hfile) fun part server request reply after served => by
                obtain ⟨memory, payload, sent, -, hhandle, -⟩ := served
                exact Backend.handle_files hhandle
          have before := fun part => (grown part).trans (small part)
          have configured := ih before
          exact ⟨configured.net.step (configured.step before step), configured.loaded.mono kept⟩
      | configTcam fat loaded ran =>
          have configured := ih small
          refine ⟨configured.net, fun tcam htcam => ?_, configured.loaded.sram⟩
          rcases List.mem_append.mp htcam with hold | hnew
          · exact configured.loaded.tcam tcam hold
          · obtain rfl := List.mem_singleton.mp hnew
            exact Or.inr ⟨fat, loaded, ran⟩
      | configSram low loaded ran =>
          have configured := ih small
          refine ⟨configured.net, configured.loaded.tcam, fun tables htables => ?_⟩
          rcases List.mem_append.mp htables with hold | hnew
          · exact configured.loaded.sram tables hold
          · obtain rfl := List.mem_singleton.mp hnew
            exact Or.inr ⟨low, loaded, ran⟩

/-! ## One request after the other -/

section Quiet

variable {done : List (ClientRequest schema)}

/-- What may be asked when all that was asked before has returned. -/
def Asks (done : List (ClientRequest schema)) : ClientRequest schema → Prop
  | .insert keyNum _ => keyNum ∉ insertedNums done
  | .update keyNum _ => keyNum ∈ insertedNums done
  | .read keyNum => keyNum ∈ insertedNums done
  | .load2Switch partId =>
      16 ≤ ((insertedNums done).filter fun a => Tcam.partOf a = partId).length

instance decidableAsks (done : List (ClientRequest schema)) : DecidablePred (Asks done)
  | .insert keyNum _ => inferInstanceAs (Decidable (keyNum ∉ insertedNums done))
  | .update keyNum _ => inferInstanceAs (Decidable (keyNum ∈ insertedNums done))
  | .read keyNum => inferInstanceAs (Decidable (keyNum ∈ insertedNums done))
  | .load2Switch _ => inferInstanceAs (Decidable (16 ≤ _))

/-- One request after the other. -/
def AsksAll (done : List (ClientRequest schema)) : List (ClientRequest schema) → Prop
  | [] => True
  | request :: requests => Asks done request ∧ AsksAll (done ++ [request]) requests

instance decidableAsksAll : (done requests : List (ClientRequest schema)) →
    Decidable (AsksAll done requests)
  | _, [] => isTrue trivial
  | done, request :: requests =>
      have := decidableAsksAll (done ++ [request]) requests
      inferInstanceAs (Decidable (Asks done request ∧ AsksAll (done ++ [request]) requests))

omit [DecidableEq C] in
theorem mayCall_of_asks {net : Net C (Fin 4) Server (ClientRequest schema) (List Byte)}
    (quiet : net.Quiet done) (fresh : (insertedNums done).Nodup) (c : C)
    {request : ClientRequest schema} (asks : Asks done request) : mayCall net c request := by
  cases request with
  | insert keyNum values =>
      refine ⟨quiet.log.symm ▸ asks, ?_⟩
      rw [quiet.requests]
      exact List.not_mem_nil
  | update keyNum values =>
      rw [mayCall, quiet.history]
      exact asks
  | read keyNum =>
      rw [mayCall, quiet.history]
      exact asks
  | load2Switch partId =>
      refine ⟨_, fresh.filter _, asks, fun a ha => ?_⟩
      obtain ⟨hmem, hpart⟩ := List.mem_filter.mp ha
      rw [quiet.history]
      exact ⟨of_decide_eq_true hpart, hmem⟩

/-- A client calls, and its packets pass the switches with any of their tables. -/
theorem Deployed.call (deployed : Deployed config d)
    (small : ∀ part, (d.net.server part).tree.nbNode ≤ 44739243) (quiet : d.net.Quiet done)
    (c : C) {request : ClientRequest schema} (asks : Asks done request) {tcam : TcamConfig}
    {tables : Sram.Tables} (htcam : tcam ∈ d.tcams) (htables : tables ∈ d.srams)
    (clear : tcam.Clear request) (memory : Backend.Memory) :
    ∃ (returned : Net C (Fin 4) Server (ClientRequest schema) (List Byte))
        (payload reply : List Byte) (next : Server),
      Deployed config { d with net := returned } ∧ returned.Quiet (done ++ [request]) ∧
      returned.server = Function.update d.net.server request.part next ∧
      Forwards (config request.part) request.part (d.net.server request.part) request payload ∧
      Backend.handle (config request.part) memory (d.net.server request.part) payload =
        some (some reply, next) := by
  have configured := configured_of_deployed deployed small
  have fresh : (insertedNums done).Nodup := by
    have hclaimed := (List.nodup_append.mp (fresh_of_reaches configured.net)).1
    rwa [requestsOf, quiet.log] at hclaimed
  have may := mayCall_of_asks quiet fresh c asks
  have asking : Deployed config _ := deployed.step (.net (.call c request (quiet.waiting c) may))
  let found : Tcam.Meta := ⟨0, 0⟩
  let scratch : Fin 4 → MetaVar := fun _ => ⟨0, 0, 0, 0, 0, 0, 0, false, false, fun _ => false⟩
  let ethernet : EthernetH := ⟨0, 0, 0⟩
  let ipv4 : Ipv4H := ⟨0, 0, 0, 0, 0, 0, 0, 0, 0, 0, 0, 0, 0⟩
  let udp : UdpH := ⟨0, 0, 0, 0⟩
  obtain ⟨out, hforward, forwards⟩ := configured.loaded.forward_request
    (configured.serving small) small request htcam htables clear found scratch ethernet ipv4 udp
  obtain ⟨reply, next, hhandle, answered⟩ := (configured_of_deployed asking small).handle small
    (List.mem_append_right _ List.mem_cons_self) forwards memory
  obtain ⟨back, hback, hreceived⟩ := backward_noQuery answered.noQuery tcam tables
    found scratch ethernet ipv4 udp
  have hwritten : sentBytes (wrote (fun _ => 0) 0 request.bytes) 0 = request.bytes :=
    sentBytes_wrote (Nat.lt_of_le_of_lt request.length_bytes_le (by decide))
  have arrives : Arrives d.tcams d.srams request (Backend.receivedMsg out) :=
    .passed (fun _ => 0) _ _ _ _ _ (request.write_eq _) htcam htables clear
      (hwritten.symm ▸ hforward)
  have returns : Returns d.tcams d.srams reply (Backend.receivedMsg back) :=
    .passed _ _ _ _ _ htcam htables hback
  have served : (switched schema config d.tcams d.srams).serve request.part
      (d.net.server request.part) request (Backend.receivedMsg back) next :=
    ⟨memory, _, reply, arrives, hhandle, returns⟩
  obtain ⟨_, _, returned, hask, -, -, hserve, hanswer, hquiet, hnext⟩ := quiet.call may served
  have reached := ((deployed.step (.net hask)).step (.net hserve)).step (.net hanswer)
  exact ⟨returned, _, reply, next, reached, hquiet, hnext, forwards, hhandle⟩

/-- Requests to one server that are no reads, before the switches have tables. -/
theorem Deployed.calls (deployed : Deployed config d)
    (small : ∀ part, (d.net.server part).tree.nbNode ≤ 44739243) (quiet : d.net.Quiet done)
    (c : C) {requests : List (ClientRequest schema)} {here : Fin 4}
    (htcam : TcamConfig.empty ∈ d.tcams) (htables : Sram.Tables.empty ∈ d.srams)
    (sent : ∀ request ∈ requests, request.part = here ∧ ∀ keyNum, request ≠ .read keyNum)
    (asks : AsksAll done requests) (memory : Backend.Memory) {server : Server}
    (hrun : Backend.serve (config here)
      (requests.map fun request => (memory, request.bytes)) (d.net.server here) = some server)
    (room : server.tree.nbNode ≤ 44739243) :
    ∃ net : Net C (Fin 4) Server (ClientRequest schema) (List Byte),
      Deployed config { d with net := net } ∧ net.Quiet (done ++ requests) ∧
      net.server = Function.update d.net.server here server := by
  induction requests generalizing d done with
  | nil =>
      cases hrun
      exact ⟨d.net, deployed, (List.append_nil done).symm ▸ quiet, (Function.update_eq_self ..).symm⟩
  | cons request requests ih =>
      obtain ⟨⟨hpart, hread⟩, hsent⟩ := List.forall_mem_cons.mp sent
      obtain ⟨hask, hrest⟩ := asks
      rw [List.map_cons, Backend.serve, List.foldlM_cons] at hrun
      obtain ⟨middle, hfirst, hlater⟩ := Option.bind_eq_some_iff.mp hrun
      obtain ⟨⟨answer, _⟩, hhandle, rfl⟩ := Option.map_eq_some_iff.mp hfirst
      have clear : TcamConfig.empty.Clear request := by
        cases request with
        | read keyNum => exact absurd rfl (hread keyNum)
        | _ => trivial
      obtain ⟨returned, payload, reply, next, hdeployed, hquiet, hserver, forwards, hserved⟩ :=
        deployed.call small quiet c hask htcam htables clear memory
      obtain rfl : payload = request.bytes := by
        rcases forwards.payload_eq with heq | ⟨keyNum, n, heq, -⟩
        · exact heq
        · exact absurd heq (hread keyNum)
      subst hpart
      obtain rfl : next = _ := (Prod.mk.inj (Option.some.inj (hserved.symm.trans hhandle))).2
      have hnext : returned.server request.part = next := by rw [hserver, Function.update_self]
      have hsmall : ∀ part, (returned.server part).tree.nbNode ≤ 44739243 := by
        rw [hserver]
        exact small_update small request.part ((Backend.serve_nbNode_le _ hlater).trans room)
      obtain ⟨net, hreached, hdone, hlast⟩ := ih hdeployed hsmall hquiet htcam htables hsent hrest
        (by rw [hnext]; exact hlater)
      refine ⟨net, hreached, ?_, ?_⟩
      · rwa [List.append_cons]
      · rw [hlast, hserver, Function.update_idem]

end Quiet

/-! ## A run that fills the tables -/

/-- Sixteen insertions into a part, and its tree printed. -/
def partRequests (part : Fin 4) : List (ClientRequest oneField) :=
  (List.range 16).map (fun i => .insert (BitVec.ofNat 64 (part.val * 2 ^ 62 + i)) oneByte) ++
    [.load2Switch part]

/-- The file that `partRequests` leaves on a server. -/
structure PrintedPart (part : Fin 4) (server : Server) (file : Snapshot (Fin (2 ^ 64))) : Prop where
  small : server.tree.nbNode ≤ 44739243
  listed : file ∈ server.files
  keys : file.fat.keys.map Fin.val = [part.val * 2 ^ 62 + 7]
  layers : file.layers = []

theorem serve_partRequests (part : Fin 4) :
    ∃ server file, Backend.serve (oneMode part)
      ((partRequests part).map fun request => (zeroMemory, request.bytes)) .start = some server ∧
      PrintedPart part server file := by
  have hrun : ((Backend.serve (oneMode part)
      ((partRequests part).map fun request => (zeroMemory, request.bytes)) .start).map fun server =>
        (server.tree.nbNode,
          server.files.map fun file => (file.fat.keys.map Fin.val, file.layers.length))) =
      some (19, [([part.val * 2 ^ 62 + 7], 0)]) := by
    revert part
    decide +kernel
  obtain ⟨server, hserve, hprinted⟩ := Option.map_eq_some_iff.mp hrun
  obtain ⟨hsmall, hfiles⟩ := Prod.mk.inj hprinted
  obtain ⟨file, hfile, hkeys⟩ := List.map_eq_singleton_iff.mp hfiles
  obtain ⟨hkeys, hlayers⟩ := Prod.mk.inj hkeys
  refine ⟨server, file, hserve, ?_⟩
  constructor
  case small => omega
  case listed => rw [hfile]; exact List.mem_cons_self
  case keys => exact hkeys
  case layers => exact List.length_eq_zero_iff.mp hlayers

/-- A part that has had no request gets those of `partRequests`. -/
theorem Deployed.part {d : Deployment oneField Unit} {done : List (ClientRequest oneField)}
    (deployed : Deployed oneMode d) (small : ∀ part, (d.net.server part).tree.nbNode ≤ 44739243)
    (quiet : d.net.Quiet done) (htcam : TcamConfig.empty ∈ d.tcams)
    (htables : Sram.Tables.empty ∈ d.srams) {part : Fin 4} (hstart : d.net.server part = .start)
    (asks : AsksAll done (partRequests part)) :
    ∃ net : Net Unit (Fin 4) Server (ClientRequest oneField) (List Byte), ∃ server file,
      Deployed oneMode { d with net := net } ∧ net.Quiet (done ++ partRequests part) ∧
      net.server = Function.update d.net.server part server ∧ PrintedPart part server file := by
  obtain ⟨server, file, hserve, printed⟩ := serve_partRequests part
  have hsent : ∀ request ∈ partRequests part,
      request.part = part ∧ ∀ keyNum, request ≠ .read keyNum := by
    have hparts : ∀ part : Fin 4, ∀ i ∈ List.range 16,
        Tcam.partOf (BitVec.ofNat 64 (part.val * 2 ^ 62 + i)) = part := by decide +kernel
    intro request hrequest
    rcases List.mem_append.mp hrequest with hinsert | hload
    · obtain ⟨i, hi, rfl⟩ := List.mem_map.mp hinsert
      exact ⟨hparts part i hi, fun keyNum hread => by cases hread⟩
    · obtain rfl := List.mem_singleton.mp hload
      exact ⟨rfl, fun keyNum hread => by cases hread⟩
  obtain ⟨net, hdeployed, hquiet, hserver⟩ := deployed.calls small quiet () htcam htables hsent asks
    zeroMemory (by rw [hstart]; exact hserve) printed.small
  exact ⟨net, server, file, hdeployed, hquiet, hserver, printed⟩

/-- The requests of the parts before the `n`-th. -/
def partsRequests (n : Nat) : List (ClientRequest oneField) :=
  ((List.finRange 4).take n).flatMap partRequests

theorem partsRequests_succ (part : Fin 4) :
    partsRequests (part.val + 1) = partsRequests part.val ++ partRequests part := by
  have htake : (List.finRange 4).take (part.val + 1) = (List.finRange 4).take part.val ++ [part] := by
    revert part
    decide
  rw [partsRequests, htake, List.flatMap_append, List.flatMap_singleton, partsRequests]

theorem asks_partRequests (part : Fin 4) :
    AsksAll (partsRequests part.val) (partRequests part) := by
  revert part
  decide +kernel

theorem deployed_parts {n : Nat} (hn : n ≤ 4) :
    ∃ net : Net Unit (Fin 4) Server (ClientRequest oneField) (List Byte),
      Deployed oneMode ⟨net, [.empty], [.empty]⟩ ∧ net.Quiet (partsRequests n) ∧
      (∀ part, part.val < n → ∃ file, PrintedPart part (net.server part) file) ∧
      ∀ part, n ≤ part.val → net.server part = .start := by
  induction n with
  | zero =>
      exact ⟨.start fun _ => Server.start, .start, quiet_start _, fun part hpart =>
        absurd hpart (Nat.not_lt_zero _), fun part _ => rfl⟩
  | succ n ih =>
      obtain ⟨net, deployed, quiet, printed, started⟩ := ih (Nat.le_of_succ_le hn)
      let here : Fin 4 := ⟨n, hn⟩
      have small : ∀ part, (net.server part).tree.nbNode ≤ 44739243 := by
        intro part
        rcases Nat.lt_or_ge part.val n with hlt | hle
        · exact (printed part hlt).elim fun file printed => printed.small
        · rw [started part hle]
          decide
      obtain ⟨next, server, file, hdeployed, hquiet, hserver, hprinted⟩ := deployed.part small quiet
        List.mem_cons_self List.mem_cons_self (started here (Nat.le_refl n)) (asks_partRequests here)
      refine ⟨next, hdeployed, partsRequests_succ here ▸ hquiet, fun part hpart => ?_,
        fun part hpart => ?_⟩
      · rcases eq_or_ne part here with rfl | hne
        · exact ⟨file, by rwa [hserver, Function.update_self]⟩
        · rw [hserver, Function.update_of_ne hne]
          exact printed part (Nat.lt_of_le_of_ne (Nat.le_of_lt_succ hpart)
            fun heq => hne (Fin.ext heq))
      · have hne : part ≠ here := by
          rintro rfl
          exact absurd hpart (Nat.not_succ_le_self n)
        rw [hserver, Function.update_of_ne hne]
        exact started part (Nat.le_of_succ_le hpart)

/-- A key of the second part, above its boundary. -/
def readKey : BitVec 64 := BitVec.ofNat 64 (2 ^ 62 + 3)

/-- After sixteen insertions into every part the trees are printed and the first switch gets
its tables; then a read is asked. -/
theorem deployed_filled :
    ∃ (net : Net Unit (Fin 4) Server (ClientRequest oneField) (List Byte))
      (file : Fin 4 → Snapshot (Fin (2 ^ 64))) (tcam : TcamConfig),
      Deployed oneMode ⟨net, [.empty, tcam], [.empty]⟩ ∧
      net.requests = [((), .read readKey)] ∧ net.history.length = 68 ∧
      (∀ part, PrintedPart part (net.server part) (file part)) ∧
      ¬ Tcam.Glued (fatKeys file) ∧
      tcam.Clear (ClientRequest.read readKey : ClientRequest oneField) := by
  obtain ⟨net, deployed, quiet, printed, -⟩ := deployed_parts (Nat.le_refl 4)
  choose file printed using fun part : Fin 4 => printed part part.isLt
  have hkeys : fatKeys file = [7, 1 * 2 ^ 62, 1 * 2 ^ 62 + 7, 2 * 2 ^ 62, 2 * 2 ^ 62 + 7, 3 * 2 ^ 62,
      3 * 2 ^ 62 + 7] := by
    simp only [fatKeys, (printed _).keys]
    rfl
  have unglued : ¬ Tcam.Glued (fatKeys file) := by
    rw [hkeys]
    exact Tcam.not_glued (by decide)
  have small := fun part => (printed part).small
  have serving := (configured_of_deployed deployed small).serving small
  have hran := (configTcam_eq oneMode fun part => (serving part).listed (printed part).listed).2 unglued
  have filled := deployed.step (.configTcam file (fun part => (printed part).listed) hran)
  have inserted : readKey ∈ insertedNums (partsRequests 4) := by decide +kernel
  have may : mayCall net () (.read readKey) := by
    rw [mayCall, quiet.history]
    exact inserted
  have asked := filled.step (.net (.call () (.read readKey) (quiet.waiting ()) may))
  have hrequests : net.requests ++ [((), ClientRequest.read readKey)] = [((), .read readKey)] := by
    rw [quiet.requests]
    rfl
  have hhistory : net.history.length = (partsRequests 4).length := by
    rw [← quiet.history, List.length_map]
  have clear : ¬ Tcam.Lost (fatKeys file) readKey.toNat := by
    rintro ⟨-, hmem⟩
    have hfits : Tcam.Fits (fatKeys file) 32 (2 ^ 14) := by
      rw [hkeys]
      decide
    exact ((Tcam.mem_prefixes3 _).mp hmem).2 hfits
  exact ⟨_, file, _, asked, hrequests, hhistory, printed, unglued, clear, by decide⟩

/-- A run of the switches, the scripts, the servers and the clients is a run of the cluster. -/
theorem deployed_refines (deployed : Deployed config d)
    (small : ∀ part, (d.net.server part).tree.nbNode ≤ 44739243) :
    Reaches (cluster schema config) mayCall (fun _ => Server.start) d.net :=
  (configured_of_deployed deployed small).net

theorem deployed_refines_filled :
    ∃ (net : Net Unit (Fin 4) Server (ClientRequest oneField) (List Byte)) (tcam : TcamConfig),
      Deployed oneMode ⟨net, [.empty, tcam], [.empty]⟩ ∧ net.history.length = 68 ∧
      Reaches (cluster oneField oneMode) mayCall (fun _ => Server.start) net := by
  obtain ⟨net, file, tcam, deployed, -, hhistory, printed, -⟩ := deployed_filled
  exact ⟨net, tcam, deployed, hhistory, deployed_refines deployed fun part => (printed part).small⟩

/-- Whatever the switches hold, a request in flight passes them, is served, and its reply
passes them back with the answer of the reference. -/
theorem deployed_answers (deployed : Deployed config d)
    (small : ∀ part, (d.net.server part).tree.nbNode ≤ 44739243) {c : C}
    {request : ClientRequest schema} (coming : (c, request) ∈ d.net.requests)
    {tcam tcam' : TcamConfig} {tables tables' : Sram.Tables} (htcam : tcam ∈ d.tcams)
    (htables : tables ∈ d.srams) (clear : tcam.Clear request) (found found' : Tcam.Meta)
    (scratch scratch' : Fin 4 → MetaVar) (ethernet ethernet' : EthernetH) (ipv4 ipv4' : Ipv4H)
    (udp udp' : UdpH) (memory : Backend.Memory) (buf msg : Nat → Byte) :
    ∃ w out sent next back values, request.write buf = some w ∧
      forward tcam tables found scratch (udpPacket ethernet ipv4 udp (sentBytes w 0)) = some out ∧
      Backend.handle (config request.part) memory (d.net.server request.part)
        (Backend.receivedMsg out) = some (some sent, next) ∧
      backward tcam' tables' found' scratch' (udpPacket ethernet' ipv4' udp' sent) = some back ∧
      request.expects (reference (requestsOf d.net.log)) = some values ∧
      request.receive msg (Backend.receivedMsg back) = some (some values) := by
  have configured := configured_of_deployed deployed small
  obtain ⟨out, hforward, forwards⟩ := configured.loaded.forward_request
    (configured.serving small) small request htcam htables clear found scratch ethernet ipv4 udp
  obtain ⟨sent, next, hhandle, answered⟩ := configured.handle small coming forwards memory
  obtain ⟨back, hback, hsent⟩ :=
    backward_noQuery answered.noQuery tcam' tables' found' scratch' ethernet' ipv4' udp'
  obtain ⟨values, hexpects, hreceive⟩ := answered.received
  have hwritten : sentBytes (wrote buf 0 request.bytes) 0 = request.bytes :=
    sentBytes_wrote (Nat.lt_of_le_of_lt request.length_bytes_le (by decide))
  have hreply : request.receive msg (Backend.receivedMsg back) = some (some values) :=
    hsent ▸ hreceive msg
  rw [← hwritten] at hforward
  exact ⟨_, out, sent, next, back, values, request.write_eq buf, hforward, hhandle, hback, hexpects,
    hreply⟩

theorem deployed_answers_filled :
    ∃ (net : Net Unit (Fin 4) Server (ClientRequest oneField) (List Byte)) (tcam : TcamConfig),
      let request : ClientRequest oneField := .read readKey
      ∀ (found : Tcam.Meta) (scratch : Fin 4 → MetaVar) (ethernet : EthernetH) (ipv4 : Ipv4H)
        (udp : UdpH) (buf msg : Nat → Byte),
      ∃ w out sent next back values, request.write buf = some w ∧
        forward tcam .empty found scratch (udpPacket ethernet ipv4 udp (sentBytes w 0)) = some out ∧
        Backend.handle (oneMode request.part) zeroMemory (net.server request.part)
          (Backend.receivedMsg out) = some (some sent, next) ∧
        backward tcam .empty found scratch (udpPacket ethernet ipv4 udp sent) = some back ∧
        request.expects (reference (requestsOf net.log)) = some values ∧
        request.receive msg (Backend.receivedMsg back) = some (some values) := by
  obtain ⟨net, file, tcam, deployed, hrequests, -, printed, -, clear⟩ := deployed_filled
  have coming : ((), ClientRequest.read readKey) ∈ net.requests := by
    rw [hrequests]
    exact List.mem_cons_self
  have htcam : tcam ∈ [TcamConfig.empty, tcam] := List.mem_cons_of_mem _ List.mem_cons_self
  exact ⟨net, tcam, fun found scratch ethernet ipv4 udp buf msg =>
    deployed_answers deployed (fun part => (printed part).small) coming htcam List.mem_cons_self
      clear found found scratch scratch ethernet ethernet ipv4 ipv4 udp udp zeroMemory buf msg⟩

/-- On files that the servers have printed the scripts run, unless a row of the first switch
would lack its blank or a tree has fewer than four levels. -/
theorem deployed_scripts (deployed : Deployed config d)
    (small : ∀ part, (d.net.server part).tree.nbNode ≤ 44739243)
    {fat low : Fin 4 → Snapshot (Fin (2 ^ 64))} (hfat : ∀ part, fat part ∈ (d.net.server part).files)
    (hlow : ∀ part, low part ∈ (d.net.server part).files) :
    ((configTcam config fat).isSome ↔ ¬ Tcam.Glued (fatKeys fat)) ∧
      ((configSram schema config low).isSome ↔ ∀ part, (low part).layers ≠ []) := by
  have serving := (configured_of_deployed deployed small).serving small
  constructor
  · obtain ⟨hfail, hsucceed⟩ := configTcam_eq config fun part => (serving part).listed (hfat part)
    constructor
    · intro hsome glued
      rw [hfail glued] at hsome
      cases hsome
    · intro unglued
      rw [hsucceed unglued]
      rfl
  · constructor
    · intro hsome
      obtain ⟨tables, ran⟩ := Option.isSome_iff_exists.mp hsome
      exact opened_of_configSram config ran
    · intro opened
      obtain ⟨tables, calls, ran, -, -⟩ := configSram_eq config
        (fun part => (serving part).listed (hlow part))
        (fun part => (serving part).bounded (small part) (hlow part)) opened
      rw [ran]
      rfl

theorem deployed_scripts_filled :
    ∃ (net : Net Unit (Fin 4) Server (ClientRequest oneField) (List Byte))
      (file : Fin 4 → Snapshot (Fin (2 ^ 64))), (∀ part, file part ∈ (net.server part).files) ∧
      (configTcam oneMode file).isSome ∧ ¬ (configSram oneField oneMode file).isSome := by
  obtain ⟨net, file, tcam, deployed, -, -, printed, unglued, -⟩ := deployed_filled
  have listed := fun part => (printed part).listed
  obtain ⟨htcam, hsram⟩ :=
    deployed_scripts deployed (fun part => (printed part).small) listed listed
  exact ⟨net, file, listed, htcam.mpr unglued, fun ran => hsram.mp ran 0 (printed 0).layers⟩

end Runs

end FatBTree.Ethernet
