import FatBTree.Sram.Control
import Mathlib.Data.BitVec
import Mathlib.Tactic.FinCases

/-!
# One pass through the SRAM switch

Four stages compare the key with the sixteen thresholds of a node, a fifth
table turns the comparison bits into a child.  The second group repeats this
in the same metadata.
-/

namespace FatBTree.Sram

open FatBTree.P4

/-- The fields of `META_VAR(b)`. -/
structure MetaVar where
  keyHi : BitVec 32
  keyLo : BitVec 32
  idx : BitVec 48
  threshHi : BitVec 32
  threshLo : BitVec 32
  subHi : BitVec 32
  subLo : BitVec 32
  sgnHi : Bool
  sgnLo : Bool
  comp : Fin 8 → Bool

structure FbtHeader where
  keyHi : BitVec 32
  keyLo : BitVec 32
  fbtIdx : BitVec 48

/-- The `fbt` header and the four copies of the metadata fields. -/
structure Packet where
  hdr : FbtHeader
  lane : Fin 4 → MetaVar

/-- `META_INIT(b)`. -/
def metaInit (hdr : FbtHeader) (lane : MetaVar) : MetaVar :=
  { lane with idx := hdr.fbtIdx, keyHi := hdr.keyHi, keyLo := hdr.keyLo }

/-- The parser state `parse_fbt`; all other metadata is left as it was. -/
def parseFbt (hdr : FbtHeader) (scratch : Fin 4 → MetaVar) : Packet where
  hdr := hdr
  lane := fun b => metaInit hdr (scratch b)

/-! ## Actions and tables -/

def setThreshAction (threshHi threshLo : BitVec 32) (lane : MetaVar) : MetaVar :=
  { lane with
    threshHi := threshHi
    threshLo := threshLo
    subHi := threshHi - lane.keyHi
    subLo := threshLo - lane.keyLo
    sgnHi := signBit threshHi ^^ signBit lane.keyHi
    sgnLo := signBit threshLo ^^ signBit lane.keyLo }

def applyThreshTable (column : Column) (lane : MetaVar) : MetaVar :=
  match column.setThreshTable.lookup lane.idx with
  | some (threshHi, threshLo) => setThreshAction threshHi threshLo lane
  | none => lane

def setComp (a : Fin 8) (bit : Bool) (lane : MetaVar) : MetaVar :=
  { lane with comp := Function.update lane.comp a bit }

/-- A comparison table on the given half of the fields. -/
def applyCompTable (table : ExactTable Bool CompAction) (sgn : Bool) (sub key : BitVec 32)
    (a : Fin 8) (lane : MetaVar) : MetaVar :=
  match table.lookup sgn with
  | some .s => setComp a (signBit sub) lane
  | some .k => setComp a (signBit key) lane
  | none => lane

def applyCompTableHi (column : Column) (a : Fin 8) (lane : MetaVar) : MetaVar :=
  applyCompTable column.setCompTableHi lane.sgnHi lane.subHi lane.keyHi a lane

def applyCompTableLo (column : Column) (a : Fin 8) (lane : MetaVar) : MetaVar :=
  applyCompTable column.setCompTableLo lane.sgnLo lane.subLo lane.keyLo a lane

def applyCompTables (column : Column) (a : Fin 8) (lane : MetaVar) : MetaVar :=
  if lane.subHi = 0 then applyCompTableLo column a lane else applyCompTableHi column a lane

/-- The same statement for `b` = 0, 1, 2, 3, each on its own copy. -/
def forLanes (body : Fin 4 → MetaVar → MetaVar) (lane : Fin 4 → MetaVar) : Fin 4 → MetaVar :=
  [0, 1, 2, 3].foldl (fun lane b => Function.update lane b (body b (lane b))) lane

/-- `APPLY_TABLE(a)`. -/
def applyTable (tables : Tables) (lane : Fin 4 → MetaVar) (a : Fin 8) : Fin 4 → MetaVar :=
  let lane := forLanes (fun b => applyThreshTable (tables.column (a, b))) lane
  forLanes (fun b => applyCompTables (tables.column (a, b)) a) lane

/-- The key of a result table: the node address and sixteen comparison bits. -/
def resultKey (packet : Packet) (layer : Fin 2) : BitVec 48 × List Bool :=
  (packet.hdr.fbtIdx, (positions layer).map (fun position =>
    (packet.lane position.2).comp position.1))

def setResultAction (result : BitVec 48) (packet : Packet) : Packet where
  hdr := { packet.hdr with fbtIdx := result }
  lane := fun b => { packet.lane b with idx := result }

def setResultAction2 (result : BitVec 48) (packet : Packet) : Packet :=
  { packet with hdr := { packet.hdr with fbtIdx := result } }

def applyResultTable (tables : Tables) (packet : Packet) : Packet :=
  match (tables.setResultTable 0).lookup (resultKey packet 0) with
  | some result => setResultAction result packet
  | none => packet

def applyResultTable2 (tables : Tables) (packet : Packet) : Packet :=
  match (tables.setResultTable 1).lookup (resultKey packet 1) with
  | some result => setResultAction2 result packet
  | none => packet

def applyStages (tables : Tables) (layer : Fin 2) (packet : Packet) : Packet :=
  { packet with lane := (stages layer).foldl (applyTable tables) packet.lane }

/-- `Ingress.apply` on a packet with a valid `fbt` header. -/
def ingressApply (tables : Tables) (packet : Packet) : Packet :=
  applyResultTable2 tables (applyStages tables 1
    (applyResultTable tables (applyStages tables 0 packet)))

/-! ## One comparison -/

theorem forLanes_apply (body : Fin 4 → MetaVar → MetaVar) (lane : Fin 4 → MetaVar) (b : Fin 4) :
    forLanes body lane b = body b (lane b) := by
  fin_cases b <;> simp [forLanes]

theorem applyTable_apply (tables : Tables) (lane : Fin 4 → MetaVar) (a : Fin 8) (b : Fin 4) :
    applyTable tables lane a b =
      applyCompTables (tables.column (a, b)) a
        (applyThreshTable (tables.column (a, b)) (lane b)) := by
  simp only [applyTable, forLanes_apply]

/-- The parts of a lane that no comparison changes. -/
structure SameInput (first second : MetaVar) : Prop where
  keyHi : second.keyHi = first.keyHi
  keyLo : second.keyLo = first.keyLo
  idx : second.idx = first.idx

theorem SameInput.trans {first second third : MetaVar} (left : SameInput first second)
    (right : SameInput second third) : SameInput first third where
  keyHi := right.keyHi.trans left.keyHi
  keyLo := right.keyLo.trans left.keyLo
  idx := right.idx.trans left.idx

theorem applyThreshTable_spec (column : Column) (lane : MetaVar) :
    SameInput lane (applyThreshTable column lane) ∧
      (applyThreshTable column lane).comp = lane.comp := by
  unfold applyThreshTable
  split <;> exact ⟨⟨rfl, rfl, rfl⟩, rfl⟩

/-- The comparison tables write one bit and nothing else. -/
theorem applyCompTables_spec (column : Column) (a : Fin 8) (lane : MetaVar) :
    ∃ bit, applyCompTables column a lane = lane ∨
      applyCompTables column a lane = setComp a bit lane := by
  have htable : ∀ table sgn sub key, ∃ bit, applyCompTable table sgn sub key a lane = lane ∨
      applyCompTable table sgn sub key a lane = setComp a bit lane := by
    intro table sgn sub key
    cases hrow : table.lookup sgn with
    | none => exact ⟨true, Or.inl (by simp [applyCompTable, hrow])⟩
    | some action =>
        cases action with
        | s => exact ⟨signBit sub, Or.inr (by simp [applyCompTable, hrow])⟩
        | k => exact ⟨signBit key, Or.inr (by simp [applyCompTable, hrow])⟩
  unfold applyCompTables
  split
  · exact htable _ _ _ _
  · exact htable _ _ _ _

theorem applyTable_sameInput (tables : Tables) (lane : Fin 4 → MetaVar) (a : Fin 8) (b : Fin 4) :
    SameInput (lane b) (applyTable tables lane a b) := by
  rw [applyTable_apply]
  refine (applyThreshTable_spec (tables.column (a, b)) (lane b)).1.trans ?_
  obtain ⟨bit, hsame | hset⟩ := applyCompTables_spec (tables.column (a, b)) a
    (applyThreshTable (tables.column (a, b)) (lane b))
  · rw [hsame]
    exact ⟨rfl, rfl, rfl⟩
  · rw [hset]
    exact ⟨rfl, rfl, rfl⟩

theorem applyTable_comp_ne (tables : Tables) (lane : Fin 4 → MetaVar) {a other : Fin 8}
    (differ : other ≠ a) (b : Fin 4) :
    (applyTable tables lane a b).comp other = (lane b).comp other := by
  rw [applyTable_apply, ← (applyThreshTable_spec (tables.column (a, b)) (lane b)).2]
  obtain ⟨bit, hsame | hset⟩ := applyCompTables_spec (tables.column (a, b)) a
    (applyThreshTable (tables.column (a, b)) (lane b))
  · rw [hsame]
  · rw [hset]
    exact Function.update_of_ne differ _ _

theorem lookup_compEntries {table : ExactTable Bool CompAction} (filled : table.entries = compEntries)
    (bit : Bool) : table.lookup bit = some (if bit then .k else .s) := by
  rw [ExactTable.lookup_eq_some_iff, filled]
  cases bit <;> decide

/-- On one half the two rows decide the unsigned comparison. -/
theorem applyCompTable_comp {table : ExactTable Bool CompAction}
    (filled : table.entries = compEntries) (t key : BitVec 32) (a : Fin 8) (lane : MetaVar) :
    (applyCompTable table (signBit t ^^ signBit key) (t - key) key a lane).comp a =
      decide (t < key) := by
  cases hsign : signBit t ^^ signBit key with
  | false => simp [applyCompTable, lookup_compEntries filled, setComp, signBit_sub hsign]
  | true => simp [applyCompTable, lookup_compEntries filled, setComp, signBit_right hsign]

/-- A matched column writes the bit of the 64-bit comparison. -/
theorem applyCompTables_comp {column : Column} {lane : MetaVar} {t key : BitVec 64} (a : Fin 8)
    (matched : column.setThreshTable.lookup lane.idx = some (keyHi t, keyLo t))
    (filledHi : column.setCompTableHi.entries = compEntries)
    (filledLo : column.setCompTableLo.entries = compEntries)
    (hi : lane.keyHi = keyHi key) (lo : lane.keyLo = keyLo key) :
    (applyCompTables column a (applyThreshTable column lane)).comp a = decide (t < key) := by
  have hlane : applyThreshTable column lane = setThreshAction (keyHi t) (keyLo t) lane := by
    simp [applyThreshTable, matched]
  have hsub : (setThreshAction (keyHi t) (keyLo t) lane).subHi = 0 ↔ keyHi t = keyHi key := by
    rw [← hi]
    exact sub_eq_zero_iff _ _
  rw [hlane, applyCompTables]
  by_cases hhigh : keyHi t = keyHi key
  · have hdecide : decide (t < key) = decide (keyLo t < keyLo key) := by
      rw [decide_eq_decide, lt_iff_halves]
      simp [hhigh]
    rw [if_pos (hsub.mpr hhigh), hdecide, ← applyCompTable_comp filledLo _ _ a, ← lo]
    rfl
  · have hdecide : decide (t < key) = decide (keyHi t < keyHi key) := by
      rw [decide_eq_decide, lt_iff_halves]
      simp [hhigh]
    rw [if_neg (hsub.not.mpr hhigh), hdecide, ← applyCompTable_comp filledHi _ _ a, ← hi]
    rfl

/-! ## One group of stages -/

/-- Every lane reads the node address and the key of the packet. -/
def Reads (lane : Fin 4 → MetaVar) (key : BitVec 64) (addr : BitVec 48) : Prop :=
  ∀ b, (lane b).keyHi = keyHi key ∧ (lane b).keyLo = keyLo key ∧ (lane b).idx = addr

theorem Reads.applyTable {lane : Fin 4 → MetaVar} {key : BitVec 64} {addr : BitVec 48}
    (reads : Reads lane key addr) (tables : Tables) (a : Fin 8) :
    Reads (applyTable tables lane a) key addr := by
  intro b
  have hsame := applyTable_sameInput tables lane a b
  rw [hsame.keyHi, hsame.keyLo, hsame.idx]
  exact reads b

theorem Reads.foldl {lane : Fin 4 → MetaVar} {key : BitVec 64} {addr : BitVec 48}
    (reads : Reads lane key addr) (tables : Tables) (as : List (Fin 8)) :
    Reads (as.foldl (Sram.applyTable tables) lane) key addr := by
  induction as generalizing lane with
  | nil => exact reads
  | cons a rest ih => exact ih (reads.applyTable tables a)

theorem foldl_comp_of_not_mem (tables : Tables) {as : List (Fin 8)} {other : Fin 8}
    (absent : other ∉ as) (lane : Fin 4 → MetaVar) (b : Fin 4) :
    ((as.foldl (applyTable tables) lane) b).comp other = (lane b).comp other := by
  induction as generalizing lane with
  | nil => rfl
  | cons a rest ih =>
      obtain ⟨hne, hrest⟩ := not_or.mp (List.mem_cons.not.mp absent)
      rw [List.foldl_cons, ih hrest, applyTable_comp_ne tables lane hne]

/-- The bit of a stage is written once and stays. -/
theorem foldl_comp {tables : Tables} {key : BitVec 64} {addr : BitVec 48} {b : Fin 4}
    {bit : Fin 8 → Bool} {as : List (Fin 8)} (distinct : as.Nodup)
    (write : ∀ a ∈ as, ∀ lane, Reads lane key addr → (applyTable tables lane a b).comp a = bit a)
    {lane : Fin 4 → MetaVar} (reads : Reads lane key addr) :
    ∀ a ∈ as, ((as.foldl (applyTable tables) lane) b).comp a = bit a := by
  induction as generalizing lane with
  | nil => simp
  | cons first rest ih =>
      obtain ⟨hfirst, hrest⟩ := List.nodup_cons.mp distinct
      intro a ha
      rw [List.foldl_cons]
      rcases List.mem_cons.mp ha with rfl | hmem
      · rw [foldl_comp_of_not_mem tables hfirst]
        exact write a List.mem_cons_self lane reads
      · exact ih hrest (fun x hx => write x (List.mem_cons_of_mem _ hx))
          (reads.applyTable tables first) a hmem

/-! ## Thresholds in order -/

/-- A predicate that only ever switches from true to false along a list. -/
theorem map_eq_replicate_countP {α : Type} {p : α → Bool} {xs : List α}
    (closed : xs.Pairwise (fun x y => p y = true → p x = true)) :
    xs.map p = List.replicate (xs.countP p) true ++
      List.replicate (xs.length - xs.countP p) false := by
  induction xs with
  | nil => rfl
  | cons x rest ih =>
      obtain ⟨hfirst, hrest⟩ := List.pairwise_cons.mp closed
      cases hx : p x with
      | true =>
          have hlen : (x :: rest).length - (rest.countP p + 1) = rest.length - rest.countP p := by
            simp
          rw [List.countP_cons_of_pos hx, hlen, List.map_cons, hx, ih hrest, List.replicate_succ]
          rfl
      | false =>
          have hnone : rest.countP p = 0 := by
            rw [List.countP_eq_zero]
            intro y hy hpy
            rw [hfirst y hy hpy] at hx
            cases hx
          rw [List.countP_cons_of_neg (by simp [hx]), List.map_cons, hx, ih hrest, hnone]
          simp [List.replicate_succ]

namespace TreeNode

variable (node : TreeNode)

theorem bounds_sorted : node.bounds.Pairwise (· ≤ ·) := by
  refine List.pairwise_cons.mpr ⟨?_, node.sorted⟩
  intro key _
  rw [BitVec.le_def]
  exact Nat.zero_le _

theorem le_lastBound {bound : BitVec 64} (hbound : bound ∈ node.bounds) :
    bound ≤ node.lastBound := by
  have : Std.Refl (fun x y : BitVec 64 => x ≤ y) := ⟨BitVec.le_refl⟩
  exact node.bounds_sorted.rel_getLast hbound

theorem thresholds_sorted : node.thresholds.Pairwise (· ≤ ·) := by
  rw [thresholds, List.pairwise_append]
  refine ⟨node.bounds_sorted, ?_, ?_⟩
  · exact List.pairwise_replicate.mpr (Or.inr (BitVec.le_refl _))
  · intro bound hbound last hlast
    rw [List.eq_of_mem_replicate hlast]
    exact node.le_lastBound hbound

theorem thresholds_bits (key : BitVec 64) :
    node.thresholds.map (fun t => decide (t < key)) =
      ones (node.thresholds.countP (fun t => decide (t < key))) := by
  have hclosed : node.thresholds.Pairwise
      (fun x y => decide (y < key) = true → decide (x < key) = true) := by
    refine node.thresholds_sorted.imp ?_
    intro x y hxy hy
    simp only [decide_eq_true_eq] at hy ⊢
    rw [BitVec.lt_def] at hy ⊢
    exact Nat.lt_of_le_of_lt (BitVec.le_def.mp hxy) hy
  rw [map_eq_replicate_countP hclosed, thresholds_length]
  rfl

theorem countP_lt_children (key : BitVec 64) :
    node.keys.countP (fun k => decide (k < key)) < node.children.length := by
  have hle := List.countP_le_length (p := fun k => decide (k < key)) (l := node.keys)
  have hlen := node.children_length
  omega

/-- Child number `#{keys < key}`. -/
def child (key : BitVec 64) : BitVec 48 :=
  node.children.get ⟨_, node.countP_lt_children key⟩

theorem countP_bounds (key : BitVec 64) (pos : 0 < key) :
    node.bounds.countP (fun k => decide (k < key)) =
      node.keys.countP (fun k => decide (k < key)) + 1 := by
  rw [bounds, List.countP_cons_of_pos (by simpa using pos)]

theorem paddedChildren_of_lt {i : Nat} (hi : i < node.children.length) :
    node.paddedChildren.getD i 0 = node.children.get ⟨i, hi⟩ := by
  simp [paddedChildren, List.getElem?_append_left hi, List.getElem?_eq_getElem hi]

theorem paddedChildren_of_le {i : Nat} (hlow : node.children.length ≤ i) (hi : i < 16) :
    node.paddedChildren.getD i 0 = node.lastChild := by
  have hrest : i - node.children.length < 16 - node.children.length := by omega
  simp [paddedChildren, List.getElem?_append_right hlow, hrest]

/-- The row that matches the comparison bits holds the child the key belongs to. -/
theorem paddedChildren_child {key : BitVec 64} (pos : 0 < key) :
    ∃ i, i < 16 ∧ node.thresholds.countP (fun t => decide (t < key)) = i + 1 ∧
      node.paddedChildren.getD i 0 = node.child key := by
  have hfew := node.few
  have hlen := node.children_length
  have hcount := node.countP_bounds key pos
  have hbound := node.countP_lt_children key
  by_cases hlast : node.lastBound < key
  · -- every threshold is below the key, so the last row matches
    have hall : node.bounds.countP (fun k => decide (k < key)) = node.bounds.length := by
      rw [List.countP_eq_length]
      intro bound hmem
      have hle := node.le_lastBound hmem
      rw [BitVec.lt_def] at hlast
      rw [BitVec.le_def] at hle
      simpa [BitVec.lt_def] using Nat.lt_of_le_of_lt hle hlast
    have hbounds : node.bounds.length = node.children.length := hlen.symm
    have hchild : node.child key = node.lastChild := by
      have hkeys : node.keys.countP (fun k => decide (k < key)) = node.children.length - 1 := by
        omega
      simp only [child, lastChild, List.get_eq_getElem, hkeys, List.getLast_eq_getElem]
    refine ⟨15, by omega, ?_, ?_⟩
    · rw [thresholds, List.countP_append, hall, List.countP_replicate, if_pos (by simpa using hlast)]
      omega
    · rw [hchild]
      rcases Nat.lt_or_ge 15 node.children.length with hfull | hshort
      · rw [node.paddedChildren_of_lt hfull]
        have heq : node.children.length - 1 = 15 := by omega
        simp only [lastChild, List.get_eq_getElem, List.getLast_eq_getElem, heq]
      · exact node.paddedChildren_of_le hshort (by omega)
  · refine ⟨_, by omega, ?_, node.paddedChildren_of_lt hbound⟩
    rw [thresholds, List.countP_append, List.countP_replicate, if_neg (by simpa using hlast),
      Nat.add_zero, hcount]

end TreeNode

/-! ## Two steps -/

/-- One exact tree step on a set of nodes. -/
def step (nodes : List TreeNode) (key : BitVec 64) (addr : BitVec 48) : BitVec 48 :=
  match nodes.find? (fun node => node.addr = addr) with
  | some node => if 0 < key then node.child key else addr
  | none => addr

section

variable {calls : List (Fin 2 × TreeNode)} {tables : Tables}

theorem Installed.lookup_thresh (installed : Installed calls tables) {position : Fin 8 × Fin 4}
    {node : TreeNode} (hnode : node ∈ nodesAt (layerOf position) calls) :
    (tables.column position).setThreshTable.lookup node.addr = some (node.halves (slot position)) := by
  rw [ExactTable.lookup_eq_some_iff, installed.thresh position]
  exact List.mem_map_of_mem (f := fun node => (node.addr, node.halves (slot position))) hnode

theorem Installed.lookup_result (installed : Installed calls tables) {layer : Fin 2}
    {node : TreeNode} (hnode : node ∈ nodesAt layer calls) {i : Nat} (hi : i < 16) :
    (tables.setResultTable layer).lookup (node.addr, ones (i + 1)) =
      some (node.paddedChildren.getD i 0) := by
  rw [ExactTable.lookup_eq_some_iff, installed.result layer]
  refine List.mem_flatMap.mpr ⟨node, hnode, ?_⟩
  exact List.mem_map.mpr ⟨i, List.mem_range.mpr hi, rfl⟩

/-- No row of a result table has a cleared first bit. -/
theorem Installed.lookup_result_zero (installed : Installed calls tables) (layer : Fin 2)
    (addr : BitVec 48) : (tables.setResultTable layer).lookup (addr, ones 0) = none := by
  rw [ExactTable.lookup_eq_none_iff]
  intro data hrow
  rw [installed.result layer, List.mem_flatMap] at hrow
  obtain ⟨node, -, hrow⟩ := hrow
  obtain ⟨i, -, heq⟩ := List.mem_map.mp hrow
  have hones : ones (i + 1) = ones 0 := (Prod.mk.inj (Prod.mk.inj heq).1).2
  exact absurd (ones_inj hones) (Nat.succ_ne_zero i)

theorem Installed.lookup_result_absent (installed : Installed calls tables) {layer : Fin 2}
    {addr : BitVec 48} (absent : ∀ node ∈ nodesAt layer calls, node.addr ≠ addr)
    (bits : List Bool) : (tables.setResultTable layer).lookup (addr, bits) = none := by
  rw [ExactTable.lookup_eq_none_iff]
  intro data hrow
  rw [installed.result layer, List.mem_flatMap] at hrow
  obtain ⟨node, hnode, hrow⟩ := hrow
  exact absent node hnode (addr_of_mem_resultRows hrow).symm

theorem layerOf_eq_iff : ∀ layer a b, layerOf (a, b) = layer ↔ a ∈ stages layer := by
  decide

theorem stages_nodup : ∀ layer, (stages layer).Nodup := by
  decide

theorem TreeNode.thresholds_by_slot (node : TreeNode) :
    node.thresholds = (List.range 16).map (fun j => node.thresholds.getD j 0) := by
  apply List.ext_getElem
  · rw [node.thresholds_length, List.length_map, List.length_range]
  · intro j hj _
    simp [List.getElem?_eq_getElem hj]

/-- The bits of a layer compare the key with the thresholds of the node at hand. -/
theorem Installed.bits (installed : Installed calls tables) {layer : Fin 2} {node : TreeNode}
    (hnode : node ∈ nodesAt layer calls) {key : BitVec 64} {packet : Packet}
    (reads : Reads packet.lane key node.addr) :
    (resultKey (applyStages tables layer packet) layer).2 =
      node.thresholds.map (fun t => decide (t < key)) := by
  have hbit : ∀ position ∈ positions layer,
      ((applyStages tables layer packet).lane position.2).comp position.1 =
        decide (node.thresholds.getD (slot position) 0 < key) := by
    rintro ⟨a, b⟩ hposition
    have hwrite : ∀ x ∈ stages layer, ∀ lane, Reads lane key node.addr →
        (applyTable tables lane x b).comp x =
          decide (node.thresholds.getD (slot (x, b)) 0 < key) := by
      intro x hx lane hlane
      have hmem : node ∈ nodesAt (layerOf (x, b)) calls := by
        rwa [(layerOf_eq_iff layer x b).mpr hx]
      obtain ⟨filledHi, filledLo⟩ := installed.comp (x, b) (List.ne_nil_of_mem hmem)
      obtain ⟨hi, lo, hidx⟩ := hlane b
      rw [applyTable_apply]
      refine applyCompTables_comp x ?_ filledHi filledLo hi lo
      rw [hidx]
      exact installed.lookup_thresh hmem
    have hstage : a ∈ stages layer :=
      (layerOf_eq_iff layer a b).mp ((mem_positions_iff layer (a, b)).mp hposition)
    exact foldl_comp (stages_nodup layer) hwrite reads a hstage
  calc (resultKey (applyStages tables layer packet) layer).2
      = (positions layer).map (fun position =>
          decide (node.thresholds.getD (slot position) 0 < key)) := List.map_congr_left hbit
    _ = (List.range 16).map (fun j => decide (node.thresholds.getD j 0 < key)) := by
        rw [← slots_of_positions layer, List.map_map]
        rfl
    _ = node.thresholds.map (fun t => decide (t < key)) := by
        conv_rhs => rw [node.thresholds_by_slot]
        rw [List.map_map]
        rfl

/-- The result table of a layer performs one tree step, and a miss changes nothing. -/
theorem Installed.lookup_resultKey (installed : Installed calls tables) (layer : Fin 2)
    {key : BitVec 64} {packet : Packet} (reads : Reads packet.lane key packet.hdr.fbtIdx) :
    ((tables.setResultTable layer).lookup
        (resultKey (applyStages tables layer packet) layer)).getD packet.hdr.fbtIdx =
      step (nodesAt layer calls) key packet.hdr.fbtIdx := by
  unfold step
  cases hfind : (nodesAt layer calls).find? (fun node => node.addr = packet.hdr.fbtIdx) with
  | none =>
      have habsent : ∀ node ∈ nodesAt layer calls, node.addr ≠ packet.hdr.fbtIdx := by
        simpa using hfind
      have hmiss := installed.lookup_result_absent habsent
        (resultKey (applyStages tables layer packet) layer).2
      exact congrArg (fun found => found.getD packet.hdr.fbtIdx) hmiss
  | some node =>
      have hnode : node ∈ nodesAt layer calls := List.mem_of_find?_eq_some hfind
      have haddr : node.addr = packet.hdr.fbtIdx := by simpa using List.find?_some hfind
      have hkey : resultKey (applyStages tables layer packet) layer =
          (node.addr, ones (node.thresholds.countP (fun t => decide (t < key)))) := by
        refine Prod.ext haddr.symm ?_
        rw [installed.bits hnode (haddr ▸ reads), node.thresholds_bits]
      rw [hkey]
      by_cases hpos : 0 < key
      · obtain ⟨i, hi, hcount, hchild⟩ := node.paddedChildren_child hpos
        rw [hcount, installed.lookup_result hnode hi, hchild]
        exact (if_pos hpos).symm
      · have hzero : node.thresholds.countP (fun t => decide (t < key)) = 0 := by
          rw [List.countP_eq_zero]
          intro t _
          rw [BitVec.lt_def] at hpos
          simpa [BitVec.lt_def] using Nat.le_trans (Nat.not_lt.mp hpos) (Nat.zero_le t.toNat)
        rw [hzero, installed.lookup_result_zero]
        exact (if_neg hpos).symm

theorem applyResultTable_spec (tables : Tables) {packet : Packet} {key : BitVec 64}
    (reads : Reads packet.lane key packet.hdr.fbtIdx) :
    (applyResultTable tables packet).hdr.fbtIdx =
        ((tables.setResultTable 0).lookup (resultKey packet 0)).getD packet.hdr.fbtIdx ∧
      Reads (applyResultTable tables packet).lane key
        (applyResultTable tables packet).hdr.fbtIdx := by
  unfold applyResultTable
  cases (tables.setResultTable 0).lookup (resultKey packet 0) with
  | none => exact ⟨rfl, reads⟩
  | some result => exact ⟨rfl, fun b => ⟨(reads b).1, (reads b).2.1, rfl⟩⟩

theorem applyResultTable2_fbtIdx (tables : Tables) (packet : Packet) :
    (applyResultTable2 tables packet).hdr.fbtIdx =
      ((tables.setResultTable 1).lookup (resultKey packet 1)).getD packet.hdr.fbtIdx := by
  unfold applyResultTable2
  cases (tables.setResultTable 1).lookup (resultKey packet 1) with
  | none => rfl
  | some result => rfl

theorem Installed.ingressApply_fbtIdx (installed : Installed calls tables) (key : BitVec 64)
    (addr : BitVec 48) (scratch : Fin 4 → MetaVar) :
    (ingressApply tables (parseFbt ⟨keyHi key, keyLo key, addr⟩ scratch)).hdr.fbtIdx =
      step (nodesAt 1 calls) key (step (nodesAt 0 calls) key addr) := by
  have hparsed : Reads (parseFbt ⟨keyHi key, keyLo key, addr⟩ scratch).lane key addr :=
    fun b => ⟨rfl, rfl, rfl⟩
  have hfirst : Reads (applyStages tables 0 (parseFbt ⟨keyHi key, keyLo key, addr⟩ scratch)).lane
      key addr := hparsed.foldl tables (stages 0)
  obtain ⟨hidx, hsecond⟩ := applyResultTable_spec tables hfirst
  have hstepA := installed.lookup_resultKey 0 hparsed
  have hstepB := installed.lookup_resultKey 1 hsecond
  rw [ingressApply, applyResultTable2_fbtIdx]
  refine hstepB.trans ?_
  rw [hidx]
  exact congrArg (step (nodesAt 1 calls) key) hstepA

end

/-- One pass through the loaded switch makes two exact tree steps, whatever the
metadata held before. -/
theorem ingressApply_eq_steps (calls : List (Fin 2 × TreeNode))
    (distinct : ∀ layer, ((nodesAt layer calls).map TreeNode.addr).Nodup) :
    ∃ tables, install calls = some tables ∧
      ∀ (key : BitVec 64) (addr : BitVec 48) (scratch : Fin 4 → MetaVar),
        (ingressApply tables (parseFbt ⟨keyHi key, keyLo key, addr⟩ scratch)).hdr.fbtIdx =
          step (nodesAt 1 calls) key (step (nodesAt 0 calls) key addr) := by
  obtain ⟨tables, hrun, installed⟩ := install_eq calls distinct
  exact ⟨tables, hrun, installed.ingressApply_fbtIdx⟩

/-- A node of each group, and a key that falls between the two keys of the first. -/
theorem ingressApply_eq_steps_two_nodes :
    ∃ tables, install [(0, ⟨0x10, [5, 2 ^ 32], [0x20, 0x30, 0x40], by decide, by decide, rfl⟩),
        (1, ⟨0x30, [9], [0x50, 0x60], by decide, by decide, rfl⟩)] = some tables ∧
      (ingressApply tables (parseFbt ⟨keyHi 7, keyLo 7, 0x10⟩
        (fun _ => ⟨0, 0, 0, 0, 0, 0, 0, true, true, fun _ => true⟩))).hdr.fbtIdx = 0x50 := by
  obtain ⟨tables, hrun, hpass⟩ := ingressApply_eq_steps
    [(0, ⟨0x10, [5, 2 ^ 32], [0x20, 0x30, 0x40], by decide, by decide, rfl⟩),
      (1, ⟨0x30, [9], [0x50, 0x60], by decide, by decide, rfl⟩)] (by decide)
  refine ⟨tables, hrun, ?_⟩
  rw [hpass 7 0x10 (fun _ => ⟨0, 0, 0, 0, 0, 0, 0, true, true, fun _ => true⟩)]
  decide

end FatBTree.Sram
