import FatBTree.Tree.Keeps

/-!
# `overflow` repairs the tree

One iteration splits the full node, possibly after copy-on-split, and leaves at
most its parent full.  The next full node is one edge closer to the root, or it
is the pinned node itself, which is then down to a single separator.
-/

namespace FatBTree.Tree

open FatBTree.Order

variable {κ V : Type} [LinearOrder κ] [Inhabited V]

/-- What holds of the tree also in the middle of a repair. -/
structure Sound (M : Nat) (w : World κ V) (history : List (κ × V)) : Prop where
  shape : Shape w.state w.dist
  ordered : Ordered M w.state w.bounds
  contents : Contents w.state w.bounds history
  depth_le : ∀ n, n < w.state.nbNode → (w.state.pool n).isLeaf = true →
    w.state.depth ≤ w.dist n + 1

/-- Only `cur`, which is on the path of the inserted key, may be full. -/
structure Repairing (M : Nat) (w : World κ V) (history : List (κ × V)) (k : κ) (cur : Nat) :
    Prop extends Sound M w history where
  lt : cur < w.state.nbNode
  isValue : (w.state.pool cur).isValue = false
  holds : w.bounds.Holds cur k
  others_small : ∀ n, n ≠ cur → (w.state.pool n).key.length < M
  at_most : (w.state.pool cur).key.length ≤ M

/-- What holds of the tree between two calls. -/
structure Settled (M : Nat) (w : World κ V) (history : List (κ × V)) : Prop
    extends Sound M w history where
  small : ∀ n, (w.state.pool n).key.length < M

namespace World

abbrev grown (variant : Variant V) (w : World κ V) (cur : Nat) (k : κ) (v : V) : World κ V :=
  ⟨insertIntoLeaf variant w.state cur k v,
    Function.update w.dist w.state.nbNode (w.dist cur + 1), w.bounds⟩

noncomputable abbrev copied (variant : Variant V) (w : World κ V) (cur : Nat) : World κ V :=
  ⟨copyDown variant w.state cur, copyDist w.state w.dist cur,
    w.bounds.copy w.state.nbNode cur⟩

abbrev halved (M : Nat) (w : World κ V) (cur parent : Nat) (probe separator : κ) :
    World κ V :=
  ⟨afterSplit M w.state cur parent probe separator,
    Function.update w.dist w.state.nbNode (w.dist cur),
    w.bounds.split cur w.state.nbNode separator⟩

end World

variable (variant : Variant V) {M : Nat} {w : World κ V}
  {history : List (κ × V)} {cur parent j : Nat} {k : κ}

/-! ## Splitting -/

/-- The two keys a split reads exist in a full node. -/
theorem Sound.site [NodeOrder M] (sound : Sound M w history)
    (hslot : (w.state.pool parent).child[j]? = some cur)
    (hval : (w.state.pool cur).isValue = false) (holds : w.bounds.Holds cur k)
    (hfull : (w.state.pool cur).key.length = M) :
    ∃ probe separator, SplitSite M w.state w.bounds cur parent j probe separator k := by
  have hM := NodeOrder.four_le (M := M)
  have hmem := List.mem_of_getElem? hslot
  have hcut : cutAt M (w.state.pool cur) - 1 < (w.state.pool cur).key.length := by
    unfold cutAt
    split <;> omega
  refine ⟨(w.state.pool cur).key[M / 2], (w.state.pool cur).key[cutAt M _ - 1], ?_⟩
  constructor
  case node =>
    exact ⟨by omega, hmem, sound.shape.inner_of_mem_child hmem hval, hval, hfull⟩
  case slot => exact hslot
  case probe_eq => simp
  case separator_eq => simp [hcut]
  case holds => exact holds

/-- A node that is more than one edge above the depth counter is inner. -/
theorem Sound.inner_of_dist_lt (sound : Sound M w history) {n : Nat} (hlt : n < w.state.nbNode)
    (hval : (w.state.pool n).isValue = false) (hdist : w.dist n + 1 < w.state.depth) :
    (w.state.pool n).IsInner := by
  refine ⟨?_, hval⟩
  by_contra hleaf
  have hdeep := sound.depth_le n hlt (by simpa using hleaf)
  omega

theorem Sound.inner_root (sound : Sound M w history) (hdepth : 2 ≤ w.state.depth) :
    (w.state.pool root).IsInner := by
  refine sound.inner_of_dist_lt sound.shape.root_lt sound.shape.root_isValue ?_
  rw [sound.shape.dist_root]
  omega

theorem Sound.depth_le_halved {probe separator : κ} (sound : Sound M w history)
    (site : SplitSite M w.state w.bounds cur parent j probe separator k) :
    ∀ n, n < w.state.nbNode + 1 →
      ((w.halved M cur parent probe separator).state.pool n).isLeaf = true →
      w.state.depth ≤ (w.halved M cur parent probe separator).dist n + 1 := by
  intro n hn hleaf
  rw [sound.shape.afterSplit_isLeaf probe separator site.node] at hleaf
  by_cases hnew : n = w.state.nbNode
  · rw [if_pos hnew] at hleaf
    simp only [hnew, Function.update_self]
    exact sound.depth_le cur (sound.shape.child_lt _ _ site.node.mem) hleaf
  · rw [if_neg hnew] at hleaf
    simp only [Function.update_of_ne hnew]
    exact sound.depth_le n (by omega) hleaf

/-- A split of the only full node moves the repair to the parent. -/
theorem Sound.repairing_halved [NodeOrder M] {probe separator : κ} (sound : Sound M w history)
    (site : SplitSite M w.state w.bounds cur parent j probe separator k)
    (hparent : (w.state.pool cur).parent = some parent)
    (hsmall : ∀ n, n ≠ cur → (w.state.pool n).key.length < M) :
    Repairing M (w.halved M cur parent probe separator) history k parent := by
  have hM := NodeOrder.four_le (M := M)
  have heven := NodeOrder.even (M := M)
  have shape := sound.shape
  have ordered := sound.ordered
  have hfull := site.node.full
  have hpc : parent ≠ cur := (shape.ne_of_mem_child site.node.mem).symm
  have hpn : parent < w.state.nbNode := shape.lt_of_mem_child site.node.mem
  constructor
  case toSound =>
    exact ⟨shape.afterSplit_preserves probe separator site.node hparent,
      ordered.afterSplit_preserves shape site,
      sound.contents.afterSplit_preserves ordered shape site, sound.depth_le_halved site⟩
  case lt => exact Nat.lt_succ_of_lt hpn
  case isValue =>
    rw [shape.afterSplit_isValue probe separator site.node]
    exact site.node.parent_inner.2
  case holds =>
    rw [Bounds.Holds, Bounds.split_lo_of_ne (Nat.ne_of_lt hpn),
      Bounds.split_hi_of_ne hpc (Nat.ne_of_lt hpn)]
    exact ordered.holds_parent site.node.parent_inner site.slot site.holds
  case others_small =>
    intro n hn
    by_cases hnew : n = w.state.nbNode
    · rw [hnew, shape.afterSplit_pool_new probe separator site.node]
      simp only [rightHalf, List.length_drop, cutAt]
      split <;> omega
    · by_cases hcur : n = cur
      · rw [hcur, shape.afterSplit_pool_cur probe separator site.node]
        simp only [leftHalf, List.length_take]
        omega
      · obtain ⟨up, hup⟩ := shape.afterSplit_pool_other probe separator site.node hn hnew hcur
        rw [hup]
        exact hsmall n hcur
  case at_most =>
    have hlt := hsmall parent hpc
    rw [site.key_parent ordered shape, List.length_insertIdx]
    split <;> omega

/-! ## Copy-on-split -/

omit [LinearOrder κ] in
theorem Shape.below_root {σ : State κ V} {dist : Nat → Nat} (shape : Shape σ dist) :
    ∀ n, n < σ.nbNode → n ≠ root → Below σ root n := by
  intro n
  induction hd : dist n generalizing n with
  | zero =>
      intro hlt hne
      obtain ⟨p, hp⟩ := shape.owned n hlt hne
      have := shape.dist_child p n hp
      omega
  | succ d ih =>
      intro hlt hne
      obtain ⟨p, hp⟩ := shape.owned n hlt hne
      have hstep := shape.dist_child p n hp
      by_cases hroot : p = root
      · rw [hroot] at hp
        exact .single hp
      · exact .tail (ih p (by omega) (shape.lt_of_mem_child hp) hroot) hp

theorem Sound.depth_le_copied (sound : Sound M w history) (hlt : cur < w.state.nbNode) :
    ∀ n, n < w.state.nbNode + 1 → ((w.copied variant cur).state.pool n).isLeaf = true →
      (w.copied variant cur).state.depth ≤ (w.copied variant cur).dist n + 1 := by
  intro n hn hleaf
  rw [sound.shape.copyDown_isLeaf variant hlt] at hleaf
  rw [copyDown_depth]
  by_cases hcur : n = cur
  · rw [if_pos hcur] at hleaf
    cases hleaf
  · rw [if_neg hcur] at hleaf
    by_cases hnew : n = w.state.nbNode
    · rw [if_pos hnew] at hleaf
      have hold := sound.depth_le cur hlt hleaf
      simp only [hnew, copyDist_new]
      split <;> omega
    · rw [if_neg hnew] at hleaf
      have hold := sound.depth_le n (by omega) hleaf
      by_cases hroot : cur = root
      · -- a new level below the root pushes every other node down
        have hbelow : Below w.state cur n := by
          rw [hroot] at hcur ⊢
          exact sound.shape.below_root n (by omega) hcur
        simp only [copyDist, if_neg hnew, if_pos hroot, if_pos hbelow]
        omega
      · have hle : w.dist n ≤ copyDist w.state w.dist cur n := le_copyDist (by omega)
        rw [if_neg hroot]
        simp only
        omega

theorem Sound.copied (sound : Sound M w history) (hlt : cur < w.state.nbNode)
    (hval : (w.state.pool cur).isValue = false) : Sound M (w.copied variant cur) history :=
  ⟨sound.shape.copyDown_preserves variant hlt hval,
    sound.ordered.copyDown_preserves variant sound.shape hlt hval,
    sound.contents.copyDown_preserves variant sound.shape hlt hval,
    sound.depth_le_copied variant hlt⟩

/-! ## One iteration -/

section

omit [Inhabited V]

theorem overflow_small {fuel : Nat} {σ : State κ V} (hsmall : (σ.pool cur).key.length < M) :
    overflow M variant (fuel + 1) σ cur = some σ := by
  rw [overflow, if_neg (Nat.not_le_of_lt hsmall)]

theorem overflow_free {fuel : Nat} {σ next : State κ V} (hfull : M ≤ (σ.pool cur).key.length)
    (hfree : ¬ Pinned σ cur) (hparent : (σ.pool cur).parent = some parent)
    (hsplit : splitNode M σ cur parent = some next) :
    overflow M variant (fuel + 1) σ cur = overflow M variant fuel next parent := by
  rw [Pinned] at hfree
  rw [overflow, if_pos hfull]
  simp only [if_neg hfree, hparent, hsplit]

theorem overflow_pinned {fuel : Nat} {σ next : State κ V}
    (hfull : M ≤ (σ.pool cur).key.length) (hpinned : Pinned σ cur)
    (hparent : ((copyDown variant σ cur).pool σ.nbNode).parent = some parent)
    (hsplit : splitNode M (copyDown variant σ cur) σ.nbNode parent = some next) :
    overflow M variant (fuel + 1) σ cur = overflow M variant fuel next parent := by
  rw [Pinned] at hpinned
  rw [overflow, if_pos hfull]
  simp only [if_pos hpinned, hparent, hsplit]

end

namespace Repairing

/-- A full node that is not pinned splits where it stands. -/
theorem step_free [NodeOrder M] (repairing : Repairing M w history k cur) (fuel : Nat)
    (hfull : (w.state.pool cur).key.length = M) (hfree : ¬ Pinned w.state cur) :
    ∃ parent j probe separator,
      SplitSite M w.state w.bounds cur parent j probe separator k ∧
      (w.state.pool cur).parent = some parent ∧
      overflow M variant (fuel + 1) w.state cur =
        overflow M variant fuel (w.halved M cur parent probe separator).state parent ∧
      Repairing M (w.halved M cur parent probe separator) history k parent := by
  have shape := repairing.shape
  have hne : cur ≠ root := fun hroot => hfree (Or.inl hroot)
  obtain ⟨parent, hmem⟩ := shape.owned cur repairing.lt hne
  obtain ⟨j, hslot⟩ := List.mem_iff_getElem?.mp hmem
  have hparent := shape.parent_eq parent cur hmem repairing.isValue
  obtain ⟨probe, separator, site⟩ :=
    repairing.toSound.site hslot repairing.isValue repairing.holds hfull
  have hsplit : splitNode M w.state cur parent =
      some (w.halved M cur parent probe separator).state :=
    shape.splitNode_eq probe separator site.node.two_le site.probe_eq site.separator_eq
  exact ⟨parent, j, probe, separator, site, hparent,
    overflow_free variant (Nat.le_of_eq hfull.symm) hfree hparent hsplit,
    repairing.toSound.repairing_halved site hparent repairing.others_small⟩

/-- A full pinned node keeps its address and ends with a single separator. -/
theorem step_pinned [NodeOrder M] (repairing : Repairing M w history k cur) (fuel : Nat)
    (hfull : (w.state.pool cur).key.length = M) (hpinned : Pinned w.state cur) :
    ∃ probe separator,
      SplitSite M (w.copied variant cur).state (w.copied variant cur).bounds w.state.nbNode
        cur 0 probe separator k ∧
      ¬ Pinned (w.copied variant cur).state w.state.nbNode ∧
      overflow M variant (fuel + 1) w.state cur = overflow M variant fuel
        ((w.copied variant cur).halved M w.state.nbNode cur probe separator).state cur ∧
      Repairing M ((w.copied variant cur).halved M w.state.nbNode cur probe separator)
        history k cur ∧
      (((w.copied variant cur).halved M w.state.nbNode cur probe separator).state.pool
        cur).key.length < M := by
  have hM := NodeOrder.four_le (M := M)
  have shape := repairing.shape
  have hlt := repairing.lt
  have hcurNode := shape.copyDown_pool_cur variant hlt
  have hcopyNode := shape.copyDown_pool_new variant hlt
  have hbare : w.state.pool w.state.nbNode = Node.fresh := shape.fresh _ (Nat.le_refl _)
  have sound := repairing.toSound.copied variant hlt repairing.isValue
  have hslot : ((w.copied variant cur).state.pool cur).child[0]? = some w.state.nbNode := by
    rw [hcurNode]
    rfl
  have hval : ((w.copied variant cur).state.pool w.state.nbNode).isValue = false := by
    rw [shape.copyDown_isValue variant hlt, hbare]
    rfl
  have holds : (w.copied variant cur).bounds.Holds w.state.nbNode k := by
    rw [Bounds.Holds, Bounds.copy_lo_new, Bounds.copy_hi_new]
    exact repairing.holds
  have hcopyFull : ((w.copied variant cur).state.pool w.state.nbNode).key.length = M := by
    rw [hcopyNode]
    exact hfull
  have hparent : ((w.copied variant cur).state.pool w.state.nbNode).parent = some cur := by
    rw [hcopyNode]
  have hsmall : ∀ n, n ≠ w.state.nbNode →
      ((w.copied variant cur).state.pool n).key.length < M := by
    intro n hnew
    by_cases hcur : n = cur
    · rw [hcur, hcurNode]
      exact Nat.lt_of_lt_of_le (by simp) hM
    · obtain ⟨up, hup⟩ := shape.copyDown_pool_other variant hlt hcur hnew
      rw [hup]
      exact repairing.others_small n hcur
  have hfree : ¬ Pinned (w.copied variant cur).state w.state.nbNode := by
    have hroot := shape.root_lt
    rw [Pinned, hcopyNode]
    simp
    omega
  obtain ⟨probe, separator, site⟩ := sound.site hslot hval holds hcopyFull
  have hsplit : splitNode M (w.copied variant cur).state w.state.nbNode cur =
      some ((w.copied variant cur).halved M w.state.nbNode cur probe separator).state :=
    sound.shape.splitNode_eq probe separator site.node.two_le site.probe_eq site.separator_eq
  refine ⟨probe, separator, site, hfree,
    overflow_pinned variant (Nat.le_of_eq hfull.symm) hpinned hparent hsplit,
    sound.repairing_halved site hparent hsmall, ?_⟩
  rw [site.key_parent sound.ordered sound.shape, hcurNode, List.length_insertIdx]
  split
  · exact Nat.lt_of_lt_of_le (by simp) hM
  · exact Nat.lt_of_lt_of_le (by simp) hM

theorem settled (repairing : Repairing M w history k cur)
    (hsmall : (w.state.pool cur).key.length < M) : Settled M w history := by
  refine ⟨repairing.toSound, fun n => ?_⟩
  by_cases hcur : n = cur
  · rw [hcur]
    exact hsmall
  · exact repairing.others_small n hcur

end Repairing

/-! ## The whole repair -/

/-- What one iteration hands on to the next while `k` is being inserted: a
property of the fuel that is left, of the node to repair and of the tree. -/
structure RepairClosed (M : Nat) (history : List (κ × V)) (k : κ)
    (holding : Nat → Nat → World κ V → Prop) : Prop where
  pinned : ∀ fuel w cur probe separator, Repairing M w history k cur →
    (w.state.pool cur).key.length = M → Pinned w.state cur →
    SplitSite M (w.copied variant cur).state (w.copied variant cur).bounds w.state.nbNode
      cur 0 probe separator k →
    ¬ Pinned (w.copied variant cur).state w.state.nbNode →
    (((w.copied variant cur).halved M w.state.nbNode cur probe separator).state.pool
      cur).key.length < M → holding (fuel + 1) cur w →
    holding fuel cur ((w.copied variant cur).halved M w.state.nbNode cur probe separator)
  free : ∀ fuel w cur parent j probe separator, Repairing M w history k cur →
    (w.state.pool cur).key.length = M → ¬ Pinned w.state cur →
    (w.state.pool cur).parent = some parent →
    SplitSite M w.state w.bounds cur parent j probe separator k → holding (fuel + 1) cur w →
    holding fuel parent (w.halved M cur parent probe separator)

/-- The repair terminates, settles the tree and ends with what its iterations
hand on. -/
theorem Repairing.overflow_rec [NodeOrder M] {holding : Nat → Nat → World κ V → Prop}
    (closed : RepairClosed variant M history k holding) (fuel : Nat)
    (repairing : Repairing M w history k cur) (hstart : holding fuel cur w) (hfuel : 1 ≤ fuel)
    (hclimb : (w.state.pool cur).key.length = M → w.dist cur + 2 ≤ fuel) :
    ∃ w' fuel' cur', overflow M variant fuel w.state cur = some w'.state ∧
      Settled M w' history ∧ holding fuel' cur' w' := by
  induction fuel generalizing w cur with
  | zero => omega
  | succ fuel ih =>
      by_cases hfull : (w.state.pool cur).key.length = M
      · have hroom := hclimb hfull
        by_cases hpinned : Pinned w.state cur
        · obtain ⟨probe, separator, site, hfree, hstep, hnext, hsmall⟩ :=
            repairing.step_pinned variant fuel hfull hpinned
          obtain ⟨last, fuel', cur', hrest, hlast⟩ := ih hnext
            (closed.pinned fuel w cur probe separator repairing hfull hpinned site hfree hsmall
              hstart)
            (by omega) (fun h => absurd h (Nat.ne_of_lt hsmall))
          exact ⟨last, fuel', cur', hstep.trans hrest, hlast⟩
        · obtain ⟨parent, j, probe, separator, site, hparent, hstep, hnext⟩ :=
            repairing.step_free variant fuel hfull hpinned
          have hdist := repairing.shape.dist_child _ _ site.node.mem
          have hlt := repairing.shape.lt_of_mem_child site.node.mem
          obtain ⟨last, fuel', cur', hrest, hlast⟩ := ih hnext
            (closed.free fuel w cur parent j probe separator repairing hfull hpinned hparent site
              hstart)
            (by omega) (fun _ => by
              simp only [Function.update_of_ne (Nat.ne_of_lt hlt)]
              omega)
          exact ⟨last, fuel', cur', hstep.trans hrest, hlast⟩
      · have hsmall := Nat.lt_of_le_of_ne repairing.at_most hfull
        exact ⟨w, fuel + 1, cur, overflow_small variant hsmall, repairing.settled hsmall, hstart⟩

/-- A property of worlds that copy-on-split and splits keep, while `k` is being
inserted. -/
structure StepClosed (M : Nat) (history : List (κ × V)) (k : κ)
    (holding : World κ V → Prop) : Prop where
  copied : ∀ w cur, Sound M w history → cur < w.state.nbNode →
    (w.state.pool cur).isValue = false → w.bounds.Holds cur k → Pinned w.state cur →
    holding w → holding (w.copied variant cur)
  halved : ∀ w cur parent j probe separator, Sound M w history →
    SplitSite M w.state w.bounds cur parent j probe separator k → ¬ Pinned w.state cur →
    holding w → holding (w.halved M cur parent probe separator)

namespace StepClosed

theorem and {P Q : World κ V → Prop} (first : StepClosed variant M history k P)
    (second : StepClosed variant M history k Q) :
    StepClosed variant M history k (fun w => P w ∧ Q w) where
  copied w cur sound hlt hval holds hpinned both :=
    ⟨first.copied w cur sound hlt hval holds hpinned both.1,
      second.copied w cur sound hlt hval holds hpinned both.2⟩
  halved w cur parent j probe separator sound site hfree both :=
    ⟨first.halved w cur parent j probe separator sound site hfree both.1,
      second.halved w cur parent j probe separator sound site hfree both.2⟩

theorem all {ι : Sort*} {holding : ι → World κ V → Prop}
    (closed : ∀ i, StepClosed variant M history k (holding i)) :
    StepClosed variant M history k (fun w => ∀ i, holding i w) where
  copied w cur sound hlt hval holds hpinned all i :=
    (closed i).copied w cur sound hlt hval holds hpinned (all i)
  halved w cur parent j probe separator sound site hfree all i :=
    (closed i).halved w cur parent j probe separator sound site hfree (all i)

theorem some {ι : Sort*} {holding : ι → World κ V → Prop}
    (closed : ∀ i, StepClosed variant M history k (holding i)) :
    StepClosed variant M history k (fun w => ∃ i, holding i w) where
  copied w cur sound hlt hval holds hpinned := by
    rintro ⟨i, hi⟩
    exact ⟨i, (closed i).copied w cur sound hlt hval holds hpinned hi⟩
  halved w cur parent j probe separator sound site hfree := by
    rintro ⟨i, hi⟩
    exact ⟨i, (closed i).halved w cur parent j probe separator sound site hfree hi⟩

/-- What the two steps keep is handed on by every iteration. -/
theorem repairClosed {holding : World κ V → Prop}
    (closed : StepClosed variant M history k holding) :
    RepairClosed variant M history k (fun _ _ w => holding w) where
  pinned fuel w cur probe separator repairing hfull hpinned site hfree _ hstart := by
    have hcopied := closed.copied w cur repairing.toSound repairing.lt repairing.isValue
      repairing.holds hpinned hstart
    exact closed.halved _ _ _ _ _ _
      (repairing.toSound.copied variant repairing.lt repairing.isValue) site hfree hcopied
  free fuel w cur parent j probe separator repairing hfull hfree hparent site hstart :=
    closed.halved w cur parent j probe separator repairing.toSound site hfree hstart

end StepClosed

theorem RepairClosed.and {P Q : Nat → Nat → World κ V → Prop}
    (first : RepairClosed variant M history k P) (second : RepairClosed variant M history k Q) :
    RepairClosed variant M history k (fun fuel cur w => P fuel cur w ∧ Q fuel cur w) where
  pinned fuel w cur probe separator repairing hfull hpinned site hfree hsmall both :=
    ⟨first.pinned fuel w cur probe separator repairing hfull hpinned site hfree hsmall both.1,
      second.pinned fuel w cur probe separator repairing hfull hpinned site hfree hsmall both.2⟩
  free fuel w cur parent j probe separator repairing hfull hfree hparent site both :=
    ⟨first.free fuel w cur parent j probe separator repairing hfull hfree hparent site both.1,
      second.free fuel w cur parent j probe separator repairing hfull hfree hparent site both.2⟩

theorem stepClosed_keeps [NodeOrder M] (start : World κ V) :
    StepClosed variant M history k (Keeps start) where
  copied w _ sound hlt hval _ _ keeps :=
    keeps.trans (sound.shape.keeps_copyDown variant w.bounds hlt hval)
  halved _ _ _ _ _ _ sound site hfree keeps :=
    keeps.trans (site.keeps_afterSplit sound.ordered sound.shape hfree)

end FatBTree.Tree
