import FatBTree.Tree.Run

/-!
# Distinct keys

When no key is inserted twice, no key repeats the left end of its node, and so
every node that holds no value is responsible for at least one key.
-/

namespace FatBTree.Tree

open FatBTree.Order

variable {κ V : Type} [LinearOrder κ] [OrderBot κ] [Inhabited V]

structure Strict (w : World κ V) : Prop where
  sorted : ∀ n, StrictlyAscending (w.state.pool n).key
  lo_lt : ∀ n, ∀ x ∈ (w.state.pool n).key, w.bounds.lo n < (x : WithBot κ)
  bot_lt : ∀ n, (w.state.pool n).IsInner → ∀ x ∈ (w.state.pool n).key, ⊥ < x
  nonempty : ∀ n, n < w.state.nbNode → (w.state.pool n).isValue = false →
    ∃ k, w.bounds.Holds n k

theorem strict_empty :
    Strict (⟨State.empty, fun _ => 0, ⟨fun _ => ⊥, fun _ => ⊤⟩⟩ : World κ V) := by
  constructor
  case sorted => exact fun _ => List.Pairwise.nil
  case lo_lt => simp [State.empty]
  case bot_lt => simp [State.empty]
  case nonempty =>
    intro n _ _
    exact ⟨⊥, WithBot.bot_lt_coe _, le_top⟩

namespace Strict

variable (variant : Variant V) {M : Nat} [NodeOrder M] {w : World κ V}
  {history : List (κ × V)} {cur parent j : Nat} {probe separator k : κ}

omit [Inhabited V] in
theorem grown (strict : Strict w) (v : V)
    (hlt : cur < w.state.nbNode) (hleaf : (w.state.pool cur).isLeaf = true)
    (holds : w.bounds.Holds cur k) (hnew : k ∉ (w.state.pool cur).key) :
    Strict (w.grown variant cur k v) := by
  have hpos := lowerBound_le_length (w.state.pool cur).key k
  have hgrown : ((insertIntoLeaf variant w.state cur k v).pool cur).key =
      (w.state.pool cur).key.insertIdx (lowerBound (w.state.pool cur).key k) k := by
    rw [insertIntoLeaf_pool_cur variant k v hlt]
  have hkey : ∀ n, n ≠ cur → ((insertIntoLeaf variant w.state cur k v).pool n).key =
      (w.state.pool n).key := by
    intro n hcur
    rw [insertIntoLeaf_pool]
    split_ifs <;> rfl
  constructor
  case sorted =>
    intro n
    by_cases hcur : n = cur
    · rw [hcur, hgrown]
      refine (strict.sorted cur).insertIdx hpos (fun i x hi hx => lt_of_lt_lowerBound hi hx)
        (fun x hx => lt_of_le_of_ne (le_of_getElem?_lowerBound hx) ?_)
      rintro rfl
      exact hnew (List.mem_of_getElem? hx)
    · rw [hkey n hcur]
      exact strict.sorted n
  case lo_lt =>
    intro n x hx
    by_cases hcur : n = cur
    · rw [hcur, hgrown, List.mem_insertIdx hpos] at hx
      rw [hcur]
      rcases hx with rfl | hx
      · exact holds.1
      · exact strict.lo_lt cur x hx
    · rw [hkey n hcur] at hx
      exact strict.lo_lt n x hx
  case bot_lt =>
    intro n hn x hx
    obtain ⟨-, -, hsame⟩ := inner_insertIntoLeaf variant v hlt hleaf hn
    rw [hsame] at hn hx
    exact strict.bot_lt n hn x hx
  case nonempty =>
    intro n hn hval
    rw [insertIntoLeaf_isValue] at hval
    split_ifs at hval with hnew'
    rw [insertIntoLeaf_nbNode] at hn
    exact strict.nonempty n (by omega) hval

theorem copied (strict : Strict w) (shape : Shape w.state w.dist)
    (hlt : cur < w.state.nbNode) (hval : (w.state.pool cur).isValue = false) :
    Strict (w.copied variant cur) := by
  constructor
  case sorted =>
    intro n
    rcases eq_or_ne n cur with rfl | hne
    · rw [shape.copyDown_pool_cur variant hlt]
      exact List.Pairwise.nil
    · rw [shape.key_copyDown variant hlt hne]
      exact strict.sorted _
  case lo_lt =>
    intro n x hx
    have hne := shape.ne_of_mem_key_copyDown variant hlt hx
    rw [shape.key_copyDown variant hlt hne] at hx
    rw [Bounds.copy_lo_origin]
    exact strict.lo_lt _ x hx
  case bot_lt =>
    intro n hn x hx
    have hne := shape.ne_of_mem_key_copyDown variant hlt hx
    rw [shape.key_copyDown variant hlt hne] at hx
    exact strict.bot_lt _ ((shape.isInner_copyDown variant hlt hval hne).mp hn) x hx
  case nonempty =>
    intro n hn hnval
    rw [shape.copyDown_isValue variant hlt, ← shape.isValue_origin hval] at hnval
    obtain ⟨x, hx⟩ := strict.nonempty _ (origin_lt hlt hn) hnval
    refine ⟨x, ?_⟩
    rw [Bounds.Holds, Bounds.copy_lo_origin, Bounds.copy_hi_origin]
    exact hx

omit [Inhabited V] in
/-- The first and the last key of a full node are on either side of the separator. -/
theorem around_separator (strict : Strict w)
    (site : SplitSite M w.state w.bounds cur parent j probe separator k) :
    ∃ first last, first < separator ∧ separator < last ∧
      last ∈ (w.state.pool cur).key := by
  have hM := NodeOrder.four_le (M := M)
  have hfull := site.node.full
  have hcut : 1 ≤ cutAt M (w.state.pool cur) - 1 ∧
      cutAt M (w.state.pool cur) - 1 < M - 1 := by
    unfold cutAt
    split <;> omega
  have hfirst : (w.state.pool cur).key[0]? = some (w.state.pool cur).key[0] := by simp
  have hlast : (w.state.pool cur).key[M - 1]? = some (w.state.pool cur).key[M - 1] := by simp
  exact ⟨_, _, (strict.sorted cur).lt (by omega) hfirst site.separator_eq,
    (strict.sorted cur).lt (by omega) site.separator_eq hlast,
    List.mem_of_getElem? hlast⟩

/-- Keys that move are above the separator. -/
theorem lt_right (strict : Strict w)
    (site : SplitSite M w.state w.bounds cur parent j probe separator k) {x : κ}
    (hx : x ∈ (rightHalf M (w.state.pool cur)).key) : separator < x := by
  have hM := NodeOrder.four_le (M := M)
  have hcut : 1 ≤ cutAt M (w.state.pool cur) := by
    unfold cutAt
    split <;> omega
  obtain ⟨i, hi⟩ := List.mem_iff_getElem?.mp hx
  simp only [rightHalf, List.getElem?_drop] at hi
  exact (strict.sorted cur).lt (by omega) site.separator_eq hi

theorem halved (strict : Strict w) (shape : Shape w.state w.dist)
    (ordered : Ordered M w.state w.bounds)
    (site : SplitSite M w.state w.bounds cur parent j probe separator k) :
    Strict (w.halved M cur parent probe separator) := by
  obtain ⟨first, last, hfirst, hlast, hlastMem⟩ := strict.around_separator site
  have hcases := site.node_cases ordered shape
  have hlo := strict.lo_lt cur separator (List.mem_of_getElem? site.separator_eq)
  have hlastHi := ordered.le_hi cur last hlastMem
  constructor
  case sorted =>
    intro n
    rcases hcases n with ⟨rfl, hkey, -, -⟩ | ⟨-, hnode, -, -⟩ | ⟨-, hnode, -, -⟩ |
      ⟨-, -, ⟨up, hnode⟩, -, -⟩
    · rw [hkey]
      refine (strict.sorted n).insertIdx (site.slot_le shape) (fun i x hi hx => ?_)
        (fun x hx => ?_)
      · have hle := site.left_of_slot ordered shape hi hx
        exact WithBot.coe_lt_coe.mp (hle.trans_lt hlo)
      · have hge := site.right_of_slot ordered (Nat.le_refl _) hx
        exact hlast.trans_le (WithTop.coe_le_coe.mp (hlastHi.trans hge))
    · rw [hnode]
      exact List.Pairwise.sublist (List.drop_sublist _ _) (strict.sorted cur)
    · rw [hnode]
      exact List.Pairwise.sublist (List.take_sublist _ _) (strict.sorted n)
    · rw [hnode]
      exact strict.sorted n
  case lo_lt =>
    intro n x hx
    rcases hcases n with ⟨rfl, hkey, hstart, -⟩ | ⟨-, hnode, hstart, -⟩ |
      ⟨-, hnode, hstart, -⟩ | ⟨-, -, ⟨up, hnode⟩, hstart, -⟩
    · rw [hkey, List.mem_insertIdx (site.slot_le shape)] at hx
      rw [hstart]
      rcases hx with rfl | hx
      · exact (site.lo_parent_le ordered).trans_lt hlo
      · exact strict.lo_lt n x hx
    · rw [hnode] at hx
      rw [hstart]
      exact WithBot.coe_lt_coe.mpr (strict.lt_right site hx)
    · rw [hnode] at hx
      rw [hstart]
      exact strict.lo_lt n x (List.mem_of_mem_take hx)
    · rw [hnode] at hx
      rw [hstart]
      exact strict.lo_lt n x hx
  case bot_lt =>
    intro n hn x hx
    rcases hcases n with ⟨rfl, hkey, -, -⟩ | ⟨-, hnode, -, -⟩ | ⟨-, hnode, -, -⟩ |
      ⟨-, -, ⟨up, hnode⟩, -, -⟩
    · rw [hkey, List.mem_insertIdx (site.slot_le shape)] at hx
      rcases hx with rfl | hx
      · exact bot_le.trans_lt hfirst
      · exact strict.bot_lt n site.node.parent_inner x hx
    · rw [hnode] at hn hx
      exact strict.bot_lt cur ⟨hn.1, site.node.isValue⟩ x (List.mem_of_mem_drop hx)
    · rw [hnode] at hn hx
      exact strict.bot_lt n hn x (List.mem_of_mem_take hx)
    · rw [hnode] at hn hx
      exact strict.bot_lt n hn x hx
  case nonempty =>
    intro n hn hval
    rw [afterSplit_nbNode] at hn
    rw [shape.afterSplit_isValue probe separator site.node] at hval
    rcases hcases n with ⟨rfl, -, hstart, hend⟩ | ⟨-, -, hstart, hend⟩ |
      ⟨rfl, -, hstart, hend⟩ | ⟨-, hnew, -, hstart, hend⟩
    · obtain ⟨x, hx⟩ := strict.nonempty n (shape.lt_of_mem_child site.node.mem) hval
      exact ⟨x, by rw [Bounds.Holds, hstart, hend]; exact hx⟩
    · refine ⟨last, ?_⟩
      rw [Bounds.Holds, hstart, hend]
      exact ⟨WithBot.coe_lt_coe.mpr hlast, hlastHi⟩
    · refine ⟨separator, ?_⟩
      rw [Bounds.Holds, hstart, hend]
      exact ⟨hlo, le_refl _⟩
    · obtain ⟨x, hx⟩ := strict.nonempty n (by omega) hval
      exact ⟨x, by rw [Bounds.Holds, hstart, hend]; exact hx⟩

end Strict

theorem stepClosed_strict (variant : Variant V) {M : Nat} [NodeOrder M]
    {history : List (κ × V)} {k : κ} : StepClosed variant M history k Strict where
  copied _ _ sound hlt hval _ _ strict := strict.copied variant sound.shape hlt hval
  halved _ _ _ _ _ _ sound site _ strict := strict.halved sound.shape sound.ordered site

omit [Inhabited V] in
theorem SameTree.strict {σ σ' : State κ V} {dist : Nat → Nat} {b : Bounds κ}
    (same : SameTree σ σ') (strict : Strict ⟨σ, dist, b⟩) : Strict ⟨σ', dist, b⟩ := by
  constructor
  case sorted => simpa only [same.key] using strict.sorted
  case lo_lt => simpa only [same.key] using strict.lo_lt
  case bot_lt => simpa only [same.isInner, same.key] using strict.bot_lt
  case nonempty => simpa only [same.nbNode, same.isValue] using strict.nonempty

/-- The left end of an interval is never the least key itself. -/
theorem Strict.bot_lt_lo {M : Nat} {w : World κ V} {history : List (κ × V)}
    (strict : Strict w) (sound : Sound M w history) {n : Nat} {x : κ}
    (hlt : n < w.state.nbNode) (hval : (w.state.pool n).isValue = false)
    (hlo : w.bounds.lo n = x) : ⊥ < x := by
  have shape := sound.shape
  have ordered := sound.ordered
  induction hd : w.dist n generalizing n with
  | zero =>
      by_cases hroot : n = root
      · rw [hroot, ordered.lo_root] at hlo
        cases hlo
      · obtain ⟨p, hp⟩ := shape.owned n hlt hroot
        have := shape.dist_child p n hp
        omega
  | succ d ih =>
      have hroot : n ≠ root := by
        rintro rfl
        have := shape.dist_root
        omega
      obtain ⟨p, hp⟩ := shape.owned n hlt hroot
      have hinner := shape.inner_of_mem_child hp hval
      have hdist := shape.dist_child p n hp
      obtain ⟨i, hi⟩ := List.mem_iff_getElem?.mp hp
      rw [ordered.child_lo p i n hinner hi] at hlo
      cases i with
      | zero => exact ih (shape.lt_of_mem_child hp) hinner.2 hlo (by omega)
      | succ i =>
          have harity := shape.inner_arity p hinner
          have hlen := (List.getElem?_eq_some_iff.mp hi).1
          have hy : (w.state.pool p).key[i]? = some (w.state.pool p).key[i] := by simp
          rw [segLo_succ hy] at hlo
          rw [← WithBot.coe_inj.mp hlo]
          exact strict.bot_lt p hinner _ (List.mem_of_getElem? hy)

/-! ## Runs without repeated keys -/

section Run

variable (variant : Variant V) {M : Nat} [NodeOrder M] {w : World κ V}
  {history : List (κ × V)}

theorem Settled.insert_strict (settled : Settled M w history) (strict : Strict w) {k : κ}
    (v : V) (hnew : k ∉ keysOf history) :
    ∃ w', insert M variant w.state k v = some w'.state ∧
      Settled M w' ((k, variant.storeVal v default) :: history) ∧ Keeps w w' ∧ Strict w' := by
  refine settled.insert_rec variant k v
    ((stepClosed_keeps variant w).and variant (stepClosed_strict variant)) ?_
  intro cur hlt hleaf holds
  refine ⟨keeps_insertIntoLeaf variant w.dist w.bounds k v, ?_⟩
  refine strict.grown variant v hlt hleaf holds fun hmem => ?_
  exact hnew (settled.contents.recorded cur k hleaf hmem)

theorem Settled.apply_strict (settled : Settled M w history) (strict : Strict w)
    (call : Call κ V) (hnew : ∀ k ∈ keysOf (insertions [call]), k ∉ keysOf history) :
    ∃ w', call.apply M variant w.state = some w'.state ∧
      Settled M w' (storedHistory variant [call] ++ history) ∧ Keeps w w' ∧ Strict w' := by
  cases call with
  | insert inKey inVal =>
      exact settled.insert_strict variant strict inVal (hnew inKey (by simp [keysOf, insertions]))
  | markLoaded nodes =>
      have hsame : SameTree w.state
          (markLoaded w.state (nodes.filter (· < w.state.nbNode))) :=
        sameTree_markLoaded fun n hn => by simpa using (List.mem_filter.mp hn).2
      exact ⟨⟨_, w.dist, w.bounds⟩, rfl, hsame.settled settled, hsame.keeps w.dist w.bounds,
        hsame.strict strict⟩
  | visit n =>
      by_cases hn : n < w.state.nbNode
      · have hsame := sameTree_touch hn
        refine ⟨⟨touch w.state n, w.dist, w.bounds⟩, ?_, hsame.settled settled,
          hsame.keeps w.dist w.bounds, hsame.strict strict⟩
        simp [Call.apply, hn]
      · exact ⟨w, by simp [Call.apply, hn], settled, Keeps.refl w, strict⟩

theorem Settled.run_strict (settled : Settled M w history) (strict : Strict w)
    (calls : List (Call κ V)) (distinct : (keysOf (insertions calls)).Nodup)
    (hnew : ∀ k ∈ keysOf (insertions calls), k ∉ keysOf history) :
    ∃ w', run M variant calls w.state = some w'.state ∧
      Settled M w' (storedHistory variant calls ++ history) ∧ Keeps w w' ∧ Strict w' := by
  induction calls generalizing w history with
  | nil => exact ⟨w, rfl, settled, Keeps.refl w, strict⟩
  | cons call calls ih =>
      have hsplit : insertions (call :: calls) = insertions [call] ++ insertions calls :=
        insertions_append [call] calls
      rw [hsplit, keysOf, List.map_append] at distinct
      obtain ⟨-, hrest, hdisjoint⟩ := List.nodup_append.mp distinct
      have hmem : ∀ k, k ∈ keysOf (insertions (call :: calls)) ↔
          k ∈ keysOf (insertions [call]) ∨ k ∈ keysOf (insertions calls) := by
        intro k
        rw [hsplit, keysOf, List.map_append, List.mem_append]
        rfl
      obtain ⟨next, hcall, hnext, hkeeps, hstrict⟩ := settled.apply_strict variant strict call
        (fun k hk => hnew k ((hmem k).mpr (Or.inl hk)))
      have hnew' : ∀ k ∈ keysOf (insertions calls),
          k ∉ keysOf (storedHistory variant [call] ++ history) := by
        intro k hk hold
        rw [keysOf, List.map_append, List.mem_append] at hold
        rcases hold with hcallKey | hold
        · have hfirst := (keysOf_storedHistory variant [call] k).mp hcallKey
          exact hdisjoint k hfirst k hk rfl
        · exact hnew k ((hmem k).mpr (Or.inr hk)) hold
      obtain ⟨last, hrun, hlast, hkeeps', hstrict'⟩ := ih hnext hstrict hrest hnew'
      refine ⟨last, ?_, ?_, hkeeps.trans hkeeps', hstrict'⟩
      · simp only [run, hcall]
        exact hrun
      · rw [← List.append_assoc, ← storedHistory_append] at hlast
        exact hlast

end Run

end FatBTree.Tree
