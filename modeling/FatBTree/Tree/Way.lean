import FatBTree.Tree.Frame
import Mathlib.Data.Nat.Find

/-!
# The way of a key

The nodes that the search for a key meets, and how far apart they are.  While
other keys are inserted, the way to a value node grows only by copy-on-split,
below a node that is pinned.  The distance from a node on the way to the next
pinned node, or to the value node when there is none, therefore stays.
-/

namespace FatBTree.Tree

open FatBTree.Order

variable {κ V : Type} [LinearOrder κ] [Inhabited V]

/-- The search for `k` meets `n`. -/
def OnWay (w : World κ V) (k : κ) (n : Nat) : Prop :=
  pathTo w.state k (w.dist n) = some n

/-- The search for the inserted key `k` ends at `c`. -/
structure Answers (w : World κ V) (k : κ) (c leaf : Nat) : Prop where
  lt : leaf < w.state.nbNode
  isLeaf : (w.state.pool leaf).isLeaf = true
  holds : w.bounds.Holds leaf k
  mem : k ∈ (w.state.pool leaf).key
  child : childFor (w.state.pool leaf) k = some c

/-- The pinned nodes on the way of `k`, and the value node it ends at. -/
def Stop (w : World κ V) (k : κ) (c n : Nat) : Prop :=
  n = c ∨ (n < w.state.nbNode ∧ Pinned w.state n ∧ (w.state.pool n).isValue = false ∧
    w.bounds.Holds n k)

/-- The node `addr` is still on the way of `k`, seen from its interval. -/
def Awaits (w : World κ V) (k : κ) (c addr : Nat) : Prop :=
  addr = c ∨ ((w.state.pool addr).isValue = false ∧ w.bounds.Holds addr k)

section Way

variable {M : Nat} {w : World κ V} {history : List (κ × V)} {k : κ} {a n c leaf : Nat}

/-! ## One node at each distance -/

theorem Sound.onWay_of_holds (sound : Sound M w history) (hlt : n < w.state.nbNode)
    (hval : (w.state.pool n).isValue = false) (holds : w.bounds.Holds n k) : OnWay w k n :=
  sound.ordered.pathTo_of_holds sound.shape hlt hval holds

omit [Inhabited V] in
theorem OnWay.eq (first : OnWay w k a) (second : OnWay w k n) (hdist : w.dist a = w.dist n) :
    a = n := by
  rw [OnWay, hdist] at first
  exact Option.some.inj (first.symm.trans second)

theorem OnWay.parent (shape : Shape w.state w.dist) {p : Nat} (onWay : OnWay w k n)
    (hn : n ∈ (w.state.pool p).child) : OnWay w k p := by
  have hdist := shape.dist_child p n hn
  rw [OnWay, hdist] at onWay
  cases hq : pathTo w.state k (w.dist p) with
  | none => rw [pathTo, hq] at onWay; cases onWay
  | some q =>
      rw [pathTo_succ hq] at onWay
      rw [OnWay, hq, shape.unique q p n (mem_child_of_childFor onWay) hn]

theorem OnWay.above (shape : Shape w.state w.dist) (onWay : OnWay w k n)
    (below : Below w.state a n) : OnWay w k a := by
  induction below with
  | single hn => exact onWay.parent shape hn
  | tail _ hn ih => exact ih (onWay.parent shape hn)

theorem OnWay.below (shape : Shape w.state w.dist) (first : OnWay w k a)
    (second : OnWay w k n) (hlt : w.dist a < w.dist n) : Below w.state a n := by
  induction hd : w.dist n - w.dist a - 1 generalizing n with
  | zero =>
      have hstep : w.dist n = w.dist a + 1 := by omega
      rw [OnWay, hstep, pathTo_succ first] at second
      exact .single (mem_child_of_childFor second)
  | succ gap ih =>
      obtain ⟨d, hstep⟩ : ∃ d, w.dist n = d + 1 := ⟨w.dist n - 1, by omega⟩
      have hpath := second
      rw [OnWay, hstep] at hpath
      cases hp : pathTo w.state k d with
      | none => rw [pathTo, hp] at hpath; cases hpath
      | some p =>
          obtain ⟨-, hdist⟩ := pathTo_dist shape hp
          rw [pathTo_succ hp] at hpath
          have hmem := mem_child_of_childFor hpath
          exact .tail (ih (second.parent shape hmem) (by omega) (by omega)) hmem

/-- Copy-on-split moves exactly the part of the way that lies below it. -/
theorem OnWay.copyDist_eq (shape : Shape w.state w.dist) (onWay : OnWay w k n)
    (hlt : n < w.state.nbNode) (cur : Nat) :
    (OnWay w k cur ∧ w.dist cur < w.dist n ∧
      copyDist w.state w.dist cur n = w.dist n + 1) ∨
    (¬ (OnWay w k cur ∧ w.dist cur < w.dist n) ∧
      copyDist w.state w.dist cur n = w.dist n) := by
  have hnew : n ≠ w.state.nbNode := Nat.ne_of_lt hlt
  by_cases hbelow : Below w.state cur n
  · refine Or.inl ⟨onWay.above shape hbelow, shape.dist_lt_of_below hbelow, ?_⟩
    rw [copyDist, if_neg hnew, if_pos hbelow]
  · refine Or.inr ⟨fun hcur => hbelow (hcur.1.below shape onWay hcur.2), ?_⟩
    rw [copyDist, if_neg hnew, if_neg hbelow]

/-! ## The end of the way -/

theorem Answers.onWay (answers : Answers w k c leaf) (sound : Sound M w history) :
    OnWay w k c := by
  have hval := sound.shape.isValue_of_isLeaf answers.isLeaf
  have hleaf := sound.onWay_of_holds answers.lt hval answers.holds
  rw [OnWay, sound.shape.dist_child leaf c (mem_child_of_childFor answers.child),
    pathTo_succ hleaf]
  exact answers.child

theorem Answers.isValue (answers : Answers w k c leaf) (shape : Shape w.state w.dist) :
    c < w.state.nbNode ∧ (w.state.pool c).isValue = true := by
  have hmem := mem_child_of_childFor answers.child
  exact ⟨shape.child_lt leaf c hmem, shape.leaf_child leaf c answers.isLeaf hmem⟩

theorem Answers.valueNodeOf (answers : Answers w k c leaf) (sound : Sound M w history) :
    ValueNodeOf w.state k c ∧ history.lookup k = some (w.state.pool c).val :=
  ⟨⟨leaf, _, answers.isLeaf, getElem?_lowerBound (sound.ordered.sorted leaf) answers.mem,
      answers.child⟩,
    sound.contents.newest leaf k c answers.isLeaf answers.holds.1 answers.mem answers.child⟩

/-- Every inserted key has a way that ends. -/
theorem Settled.answers (settled : Settled M w history) (hmem : k ∈ keysOf history) :
    ∃ c leaf, Answers w k c leaf := by
  have shape := settled.shape
  obtain ⟨leaf, -, hlt, hleaf, holds⟩ :=
    settled.ordered.descendToLeaf_eq shape w.state.nbNode shape.root_lt shape.root_isValue
      (settled.ordered.holds_root k) (by omega)
  obtain ⟨c, hc, -⟩ := settled.toSound.valueNodeOf_childFor hlt hleaf holds hmem
  exact ⟨c, leaf, hlt, hleaf, holds, settled.contents.present leaf k hlt hleaf holds hmem, hc⟩

theorem Stop.onWay (sound : Sound M w history) (answers : Answers w k c leaf)
    (stop : Stop w k c n) : n < w.state.nbNode ∧ OnWay w k n := by
  rcases stop with rfl | ⟨hlt, -, hval, holds⟩
  · exact ⟨(answers.isValue sound.shape).1, answers.onWay sound⟩
  · exact ⟨hlt, sound.onWay_of_holds hlt hval holds⟩

theorem Awaits.onWay (sound : Sound M w history) (answers : Answers w k c leaf)
    (hlt : n < w.state.nbNode) (awaits : Awaits w k c n) : OnWay w k n := by
  rcases awaits with rfl | ⟨hval, holds⟩
  · exact answers.onWay sound
  · exact sound.onWay_of_holds hlt hval holds

omit [Inhabited V] in
theorem Awaits.of_keeps {w' : World κ V} (keeps : Keeps w w') (hlt : n < w.state.nbNode)
    (awaits : Awaits w' k c n) : Awaits w k c n := by
  refine awaits.imp_right fun ⟨hval, holds⟩ => ⟨(keeps.isValue n hlt).symm.trans hval, ?_⟩
  exact ⟨(keeps.lo n hlt).symm ▸ holds.1, holds.2.trans (keeps.hi_le n hlt)⟩

end Way

/-! ## The answer stays -/

section Answer

variable (variant : Variant V) {M : Nat} {w : World κ V}
  {history : List (κ × V)} {cur : Nat} {x k : κ} {c leaf : Nat}

theorem Answers.grown (answers : Answers w k c leaf) (sound : Sound M w history) (v : V)
    (hlt : cur < w.state.nbNode) (hleaf : (w.state.pool cur).isLeaf = true) (hne : k ≠ x) :
    Answers (w.grown variant cur x v) k c leaf := by
  obtain ⟨hleafLt, isLeaf, holds, mem, child⟩ := answers
  have hnew : leaf ≠ w.state.nbNode := Nat.ne_of_lt hleafLt
  by_cases hcur : leaf = cur
  · rw [hcur] at hleafLt isLeaf holds mem child ⊢
    have hkey : ((insertIntoLeaf variant w.state cur x v).pool cur).key =
        (w.state.pool cur).key.insertIdx (lowerBound (w.state.pool cur).key x) x := by
      rw [insertIntoLeaf_pool_cur variant x v hlt]
    have hmem' : k ∈ ((insertIntoLeaf variant w.state cur x v).pool cur).key := by
      rw [hkey, List.mem_insertIdx (lowerBound_le_length _ _)]
      exact Or.inr mem
    have hleaf' : ((insertIntoLeaf variant w.state cur x v).pool cur).isLeaf = true := by
      rw [insertIntoLeaf_isLeaf, if_neg (Nat.ne_of_lt hlt)]
      exact hleaf
    refine ⟨Nat.lt_succ_of_lt hlt, hleaf', holds, hmem', ?_⟩
    -- the search finds a child, and it is not the new value node
    have harity := (sound.shape.insertIntoLeaf_preserves variant x v hlt hleaf).leaf_arity cur hleaf'
    have hbound := lowerBound_lt_length_iff.mpr ⟨k, hmem', le_refl k⟩
    rw [← harity] at hbound
    have hfound : childFor ((insertIntoLeaf variant w.state cur x v).pool cur) k = some _ :=
      List.getElem?_eq_getElem hbound
    rcases sound.shape.childFor_insertIntoLeaf variant sound.ordered v hlt hleaf (Or.inl mem)
      hfound with ⟨heq, -⟩ | ⟨-, hold⟩
    · exact absurd heq hne
    · exact hfound.trans (hold.symm.trans child)
  · have hsame : (insertIntoLeaf variant w.state cur x v).pool leaf = w.state.pool leaf :=
      insertIntoLeaf_pool_other variant x v hnew hcur
    exact ⟨Nat.lt_succ_of_lt hleafLt, hsame ▸ isLeaf, holds, hsame ▸ mem, hsame ▸ child⟩

theorem stepClosed_answers [NodeOrder M] :
    StepClosed variant M history x (fun w => ∃ leaf, Answers w k c leaf) where
  copied w cur sound hlt _ _ _ answers := by
    obtain ⟨leaf, hleafLt, isLeaf, holds, mem, child⟩ := answers
    have hnew : leaf ≠ w.state.nbNode := Nat.ne_of_lt hleafLt
    by_cases hcur : leaf = cur
    · have hcopy := sound.shape.copyDown_pool_new variant hlt
      rw [hcur] at isLeaf holds mem child
      refine ⟨w.state.nbNode, Nat.lt_succ_self _, ?_, ?_, ?_, ?_⟩
      · simpa only [hcopy] using isLeaf
      · rw [Bounds.Holds, Bounds.copy_lo_new, Bounds.copy_hi_new]
        exact holds
      · simpa only [hcopy] using mem
      · simpa only [hcopy, childFor] using child
    · obtain ⟨up, hup⟩ := sound.shape.copyDown_pool_other variant hlt hcur hnew
      refine ⟨leaf, Nat.lt_succ_of_lt hleafLt, hup ▸ isLeaf, ?_, hup ▸ mem, hup ▸ child⟩
      rw [Bounds.Holds, Bounds.copy_lo_of_ne hnew, Bounds.copy_hi_of_ne hnew]
      exact holds
  halved w cur parent j probe separator sound site _ answers := by
    obtain ⟨leaf, hleafLt, isLeaf, holds, mem, child⟩ := answers
    have hnew : leaf ≠ w.state.nbNode := Nat.ne_of_lt hleafLt
    have hparent : leaf ≠ parent := by
      rintro rfl
      simp [site.node.parent_inner.1] at isLeaf
    by_cases hcur : leaf = cur
    · rw [hcur] at isLeaf holds mem child hnew
      rcases le_or_gt k separator with hleft | hright
      · have hnode := sound.shape.afterSplit_pool_cur probe separator site.node
        have hmem := (site.mem_left_iff sound.ordered isLeaf hleft).mpr mem
        refine ⟨cur, Nat.lt_succ_of_lt (hcur ▸ hleafLt), ?_, ?_, ?_, ?_⟩
        · simpa only [hnode, leftHalf] using isLeaf
        · rw [Bounds.Holds, Bounds.split_lo_of_ne hnew, Bounds.split_hi_cur]
          exact ⟨holds.1, WithTop.coe_le_coe.mpr hleft⟩
        · simpa only [hnode] using hmem
        · rw [hnode, childFor_leftHalf isLeaf hmem]
          exact child
      · have hnode := sound.shape.afterSplit_pool_new probe separator site.node
        refine ⟨w.state.nbNode, Nat.lt_succ_self _, ?_, ?_, ?_, ?_⟩
        · simpa only [hnode, rightHalf] using isLeaf
        · rw [Bounds.Holds, Bounds.split_lo_new, Bounds.split_hi_new hnew.symm]
          exact ⟨WithBot.coe_lt_coe.mpr hright, holds.2⟩
        · rw [hnode, site.mem_right_iff sound.ordered hright]
          exact mem
        · rw [hnode, site.childFor_right sound.ordered isLeaf hright]
          exact child
    · obtain ⟨up, hup⟩ :=
        sound.shape.afterSplit_pool_other probe separator site.node hparent hnew hcur
      refine ⟨leaf, Nat.lt_succ_of_lt hleafLt, hup ▸ isLeaf, ?_, hup ▸ mem, hup ▸ child⟩
      rw [Bounds.Holds, Bounds.split_lo_of_ne hnew, Bounds.split_hi_of_ne hcur hnew]
      exact holds

end Answer

/-! ## The distance to the next stop stays -/

/-- What the insertion of other keys keeps of the way from `addr` to `c`. -/
structure Steady (k : κ) (c addr : Nat) (start w : World κ V) : Prop where
  keeps : Keeps start w
  marks : MarkedWithin
    (fun n => n < start.state.nbNode ∧ (start.state.pool n).isLoaded2Switch = true) w
  answers : ∃ leaf, Answers w k c leaf
  order : Awaits w k c addr → ∀ a n, (a = addr ∨ Stop start k c a) →
    (n = addr ∨ Stop start k c n) → (start.dist a ≤ start.dist n ↔ w.dist a ≤ w.dist n)
  gap : Awaits w k c addr → ∀ n, Stop start k c n → start.dist addr ≤ start.dist n →
    (∀ m, Stop start k c m → start.dist addr ≤ start.dist m → start.dist n ≤ start.dist m) →
    w.dist n + start.dist addr = start.dist n + w.dist addr

namespace Steady

variable {start w : World κ V} {k : κ} {c addr n : Nat}

omit [Inhabited V] in
/-- The pinned nodes on the way are the same as at the start. -/
theorem stop_iff (steady : Steady k c addr start w) (hroot : root < start.state.nbNode) :
    Stop w k c n ↔ Stop start k c n := by
  refine or_congr_right ⟨?_, ?_⟩
  · rintro ⟨-, hpinned, hval, holds⟩
    have hstart : n < start.state.nbNode ∧ Pinned start.state n := by
      rcases hpinned with rfl | hloaded
      · exact ⟨hroot, Or.inl rfl⟩
      · exact ⟨(steady.marks n hloaded).1, Or.inr (steady.marks n hloaded).2⟩
    exact ⟨hstart.1, hstart.2, (steady.keeps.isValue n hstart.1).symm.trans hval,
      (steady.keeps.holds_iff hstart.1 hstart.2).mp holds⟩
  · rintro ⟨hlt, hpinned, hval, holds⟩
    exact ⟨Nat.lt_of_lt_of_le hlt steady.keeps.nbNode_le, steady.keeps.pinned hlt hpinned,
      (steady.keeps.isValue n hlt).trans hval, (steady.keeps.holds_iff hlt hpinned).mpr holds⟩

variable (variant : Variant V) {M : Nat} [NodeOrder M] {history : List (κ × V)} {x : κ}

omit [NodeOrder M] in
theorem grown {leaf cur : Nat} (answers : Answers w k c leaf) (sound : Sound M w history) (v : V)
    (hlt : cur < w.state.nbNode) (hleaf : (w.state.pool cur).isLeaf = true) (hne : k ≠ x)
    (haddr : addr < w.state.nbNode) : Steady k c addr w (w.grown variant cur x v) := by
  have hdist : ∀ n, n < w.state.nbNode → (w.grown variant cur x v).dist n = w.dist n :=
    fun n hn => Function.update_of_ne (Nat.ne_of_lt hn) ..
  have hmark : ∀ n, (n = addr ∨ Stop w k c n) → n < w.state.nbNode := by
    rintro n (rfl | stop)
    · exact haddr
    · exact (stop.onWay sound answers).1
  constructor
  case keeps => exact keeps_insertIntoLeaf variant w.dist w.bounds x v
  case marks =>
    refine MarkedWithin.grown variant (fun n hloaded => ⟨?_, hloaded⟩) cur x v
    by_contra hge
    rw [sound.shape.fresh n (Nat.le_of_not_lt hge)] at hloaded
    cases hloaded
  case answers => exact ⟨leaf, answers.grown variant sound v hlt hleaf hne⟩
  case order =>
    intro _ a n ha hn
    rw [hdist a (hmark a ha), hdist n (hmark n hn)]
  case gap =>
    intro _ n hn _ _
    rw [hdist n (hmark n (Or.inr hn)), hdist addr haddr]

omit [NodeOrder M] in
/-- The nodes whose distances are compared are old nodes on the way. -/
theorem onWay (steady : Steady k c addr start w) (sound : Sound M w history)
    (hroot : root < start.state.nbNode) (haddr : addr < start.state.nbNode)
    (awaits : Awaits w k c addr) (hn : n = addr ∨ Stop start k c n) :
    n < w.state.nbNode ∧ OnWay w k n := by
  obtain ⟨leaf, answers⟩ := steady.answers
  rcases hn with rfl | stop
  · have hlt := Nat.lt_of_lt_of_le haddr steady.keeps.nbNode_le
    exact ⟨hlt, awaits.onWay sound answers hlt⟩
  · exact ((steady.stop_iff hroot).mpr stop).onWay sound answers

end Steady

theorem stepClosed_steady (variant : Variant V) {M : Nat} [NodeOrder M]
    {history : List (κ × V)} {start : World κ V} {x k : κ} {c addr : Nat}
    (hroot : root < start.state.nbNode) (haddr : addr < start.state.nbNode) :
    StepClosed variant M history x (Steady k c addr start) where
  copied w cur sound hlt hval holds hpinned steady := by
    have hstep := sound.shape.keeps_copyDown variant w.bounds hlt hval
    have haddr' := Nat.lt_of_lt_of_le haddr steady.keeps.nbNode_le
    obtain ⟨leaf, answers⟩ := steady.answers
    -- the shift of a node on the way depends on its distance alone
    have hshift : ∀ n, Awaits w k c addr → (n = addr ∨ Stop start k c n) →
        (OnWay w k cur ∧ w.dist cur < w.dist n ∧
          copyDist w.state w.dist cur n = w.dist n + 1) ∨
        (¬ (OnWay w k cur ∧ w.dist cur < w.dist n) ∧
          copyDist w.state w.dist cur n = w.dist n) := by
      intro n awaits hn
      obtain ⟨hn', hway⟩ := steady.onWay sound hroot haddr awaits hn
      exact hway.copyDist_eq sound.shape hn' cur
    constructor
    case keeps => exact steady.keeps.trans hstep
    case marks =>
      exact (stepClosed_markedWithin variant _).copied w cur sound hlt hval holds hpinned
        steady.marks
    case answers =>
      exact (stepClosed_answers variant).copied w cur sound hlt hval holds hpinned steady.answers
    case order =>
      intro awaits' a n ha hn
      have awaits := awaits'.of_keeps hstep haddr'
      rw [steady.order awaits a n ha hn]
      rcases hshift a awaits ha with ⟨hcur, hfar, heq⟩ | ⟨hnear, heq⟩ <;>
        rcases hshift n awaits hn with ⟨hcur', hfar', heq'⟩ | ⟨hnear', heq'⟩ <;>
        simp only [heq, heq']
      · omega
      · have hle : w.dist n ≤ w.dist cur := Nat.le_of_not_lt fun hlt => hnear' ⟨hcur, hlt⟩
        omega
      · have hle : w.dist a ≤ w.dist cur := Nat.le_of_not_lt fun hlt => hnear ⟨hcur', hlt⟩
        omega
    case gap =>
      intro awaits' n stop hahead hfirst
      have awaits := awaits'.of_keeps hstep haddr'
      have hold := steady.gap awaits n stop hahead hfirst
      have horder := steady.order awaits addr n (Or.inl rfl) (Or.inr stop)
      -- no stop lies between `addr` and `n`, so `cur` shifts both or neither
      have hbetween : OnWay w k cur → w.dist addr ≤ w.dist cur → w.dist n ≤ w.dist cur := by
        intro hcur hle
        have hcurStop : Stop start k c cur := (steady.stop_iff hroot).mp (Or.inr
          ⟨hlt, hpinned, hval, sound.ordered.holds_of_pathTo sound.shape hcur hval⟩)
        have hcurAhead := (steady.order awaits addr cur (Or.inl rfl) (Or.inr hcurStop)).mpr hle
        exact (steady.order awaits n cur (Or.inr stop) (Or.inr hcurStop)).mp
          (hfirst cur hcurStop hcurAhead)
      rcases hshift addr awaits (Or.inl rfl) with ⟨hcur, hfar, heq⟩ | ⟨hnear, heq⟩ <;>
        rcases hshift n awaits (Or.inr stop) with ⟨hcur', hfar', heq'⟩ | ⟨hnear', heq'⟩ <;>
        simp only [heq, heq']
      · omega
      · exact absurd ⟨hcur, hfar.trans_le (horder.mp hahead)⟩ hnear'
      · have hle : w.dist addr ≤ w.dist cur := Nat.le_of_not_lt fun hlt => hnear ⟨hcur', hlt⟩
        have := hbetween hcur' hle
        omega
      · exact hold
  halved w cur parent j probe separator sound site hfree steady := by
    have hstep : Keeps w (w.halved M cur parent probe separator) :=
      site.keeps_afterSplit sound.ordered sound.shape hfree
    have haddr' := Nat.lt_of_lt_of_le haddr steady.keeps.nbNode_le
    have hdist : ∀ n, Awaits w k c addr → (n = addr ∨ Stop start k c n) →
        (w.halved M cur parent probe separator).dist n = w.dist n := by
      intro n awaits hn
      obtain ⟨hn', -⟩ := steady.onWay sound hroot haddr awaits hn
      exact Function.update_of_ne (Nat.ne_of_lt hn') ..
    constructor
    case keeps => exact steady.keeps.trans hstep
    case marks =>
      exact (stepClosed_markedWithin variant _).halved w cur parent j probe separator sound site
        hfree steady.marks
    case answers =>
      exact (stepClosed_answers variant).halved w cur parent j probe separator sound site hfree
        steady.answers
    case order =>
      intro awaits' a n ha hn
      have awaits := awaits'.of_keeps hstep haddr'
      rw [hdist a awaits ha, hdist n awaits hn]
      exact steady.order awaits a n ha hn
    case gap =>
      intro awaits' n stop hahead hfirst
      have awaits := awaits'.of_keeps hstep haddr'
      rw [hdist n awaits (Or.inr stop), hdist addr awaits (Or.inl rfl)]
      exact steady.gap awaits n stop hahead hfirst

/-! ## What is left of the way -/

/-- At most `m` stops are left from `addr` on, and the next one is `d` edges
away. -/
structure Budget (w : World κ V) (k : κ) (c addr m d : Nat) : Prop where
  count : ∃ stops : Finset Nat, stops.card = m ∧
    ∀ n, Stop w k c n → w.dist addr ≤ w.dist n → n ∈ stops
  first : ∃ n, Stop w k c n ∧ w.dist n = w.dist addr + d ∧
    ∀ s, Stop w k c s → w.dist addr ≤ w.dist s → w.dist n ≤ w.dist s

section Budget

variable {M : Nat} {start w : World κ V} {history : List (κ × V)} {k : κ}
  {c addr leaf m d : Nat}

omit [Inhabited V] in
/-- Insertions of other keys do not lengthen what is left. -/
theorem Steady.budget (steady : Steady k c addr start w) (hroot : root < start.state.nbNode)
    (awaits : Awaits w k c addr) (budget : Budget start k c addr m d) :
    Budget w k c addr m d := by
  obtain ⟨⟨stops, hcard, hstops⟩, n, stop, hgap, hfirst⟩ := budget
  have horder := fun s (hs : Stop start k c s) =>
    steady.order awaits addr s (Or.inl rfl) (Or.inr hs)
  constructor
  case count =>
    refine ⟨stops, hcard, fun s hs hahead => ?_⟩
    rw [steady.stop_iff hroot] at hs
    exact hstops s hs ((horder s hs).mpr hahead)
  case first =>
    have hsame := steady.gap awaits n stop (by omega) hfirst
    refine ⟨n, (steady.stop_iff hroot).mpr stop, by omega, fun s hs hahead => ?_⟩
    rw [steady.stop_iff hroot] at hs
    exact (steady.order awaits n s (Or.inr stop) (Or.inr hs)).mp
      (hfirst s hs ((horder s hs).mpr hahead))

omit [Inhabited V] in
/-- As long as the end of the way is ahead, there is a next stop. -/
theorem exists_first (hahead : w.dist addr ≤ w.dist c) :
    ∃ d n, Stop w k c n ∧ w.dist n = w.dist addr + d ∧
      ∀ s, Stop w k c s → w.dist addr ≤ w.dist s → w.dist n ≤ w.dist s := by
  classical
  have hsome : ∃ d n, Stop w k c n ∧ w.dist n = w.dist addr + d :=
    ⟨w.dist c - w.dist addr, c, Or.inl rfl, by omega⟩
  obtain ⟨n, stop, hdist⟩ := Nat.find_spec hsome
  refine ⟨Nat.find hsome, n, stop, hdist, fun s hs hle => ?_⟩
  have hmin := Nat.find_min' hsome ⟨s, hs, show w.dist s = w.dist addr + _ from
    (Nat.add_sub_cancel' hle).symm⟩
  omega

/-- There is a budget for every node on the way. -/
theorem exists_budget (sound : Sound M w history) (answers : Answers w k c leaf)
    (hahead : w.dist addr ≤ w.dist c) : ∃ m d, Budget w k c addr m d := by
  obtain ⟨d, first⟩ := exists_first (k := k) hahead
  exact ⟨_, d, ⟨Finset.range w.state.nbNode, rfl,
    fun n stop _ => Finset.mem_range.mpr (stop.onWay sound answers).1⟩, first⟩

/-- The read of a node on the way uses up a stop or an edge to the next one. -/
theorem Budget.read (budget : Budget w k c addr m d) (sound : Sound M w history)
    (answers : Answers w k c leaf) (onWay : OnWay w k addr) {next : Nat}
    (hnext : next ∈ (w.state.pool addr).child) (hahead : w.dist next ≤ w.dist c) :
    (∃ m' d', m' < m ∧ Budget w k c next m' d') ∨ ∃ d', d' < d ∧ Budget w k c next m d' := by
  obtain ⟨⟨stops, hcard, hstops⟩, n, stop, hgap, hfirst⟩ := budget
  have hdist := sound.shape.dist_child addr next hnext
  cases d with
  | zero =>
      -- the node itself is a stop
      have hself : n = addr := (stop.onWay sound answers).2.eq onWay hgap
      obtain ⟨d', first⟩ := exists_first (k := k) hahead
      have hmem := hstops n stop (by omega)
      refine Or.inl ⟨(stops.erase n).card, d', ?_, ⟨stops.erase n, rfl, ?_⟩, first⟩
      · rw [← hcard]
        exact Finset.card_lt_card (Finset.erase_ssubset hmem)
      · intro s hs hle
        refine Finset.mem_erase.mpr ⟨?_, hstops s hs (by omega)⟩
        rintro rfl
        rw [hself] at hle
        omega
  | succ d =>
      refine Or.inr ⟨d, Nat.lt_succ_self d, ⟨stops, hcard, ?_⟩, n, stop, by omega, ?_⟩
      · intro s hs hle
        exact hstops s hs (by omega)
      · intro s hs hle
        exact hfirst s hs (by omega)

end Budget

end FatBTree.Tree
