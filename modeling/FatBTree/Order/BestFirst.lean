import Mathlib.Algebra.BigOperators.Group.Finset.Piecewise
import Mathlib.Algebra.Ring.Nat
import Mathlib.Algebra.Order.BigOperators.Group.Finset
import Mathlib.Data.List.Nodup
import Mathlib.Data.Finset.Max

/-!
# Best-first search

A search starts at a root and keeps a queue.  It pops an item of the greatest weight and
pushes the children of that item.  When no child weighs more than its parent, the popped
items weigh at least as much as any other choice of equally many items.
-/

namespace FatBTree.Order

variable {α : Type*}

/-- The eligible items form a tree below `root` in which the weight never increases. -/
structure Descending (child : α → List α) (weight : α → Nat) (eligible : α → Prop) (root : α)
    (rank : α → Nat) : Prop where
  start : eligible root
  parent : ∀ n, eligible n → n ≠ root →
    ∃ p, eligible p ∧ n ∈ child p ∧ weight n ≤ weight p ∧ rank p < rank n

/-- The state of a search after the items `popped`. -/
structure Searching (child : α → List α) (weight : α → Nat) (eligible : α → Prop) (root : α)
    (popped queue : List α) : Prop where
  nodup : (popped ++ queue).Nodup
  allowed : ∀ n ∈ popped ++ queue, eligible n
  started : root ∈ popped ++ queue
  closed : ∀ p ∈ popped, ∀ n ∈ child p, eligible n → n ∈ popped ++ queue
  heaviest : ∀ p ∈ popped, ∀ n, eligible n → n ∉ popped → weight n ≤ weight p

namespace Searching

variable {child : α → List α} {weight : α → Nat} {eligible : α → Prop} {root : α}
  {rank : α → Nat} {popped queue rest pushed : List α} {tmp : α}

theorem start (tree : Descending child weight eligible root rank) :
    Searching child weight eligible root [] [root] := by
  constructor
  case nodup => simp
  case allowed => simpa using tree.start
  case started => simp
  case closed => simp
  case heaviest => simp

/-- An eligible item that was not popped waits in the queue, or an item above it does,
which weighs no less. -/
theorem waits (search : Searching child weight eligible root popped queue)
    (tree : Descending child weight eligible root rank) {n : α} (hn : eligible n)
    (hout : n ∉ popped) : ∃ m ∈ queue, weight n ≤ weight m := by
  induction hrank : rank n using Nat.strongRecOn generalizing n with
  | ind r ih =>
      by_cases hqueue : n ∈ queue
      · exact ⟨n, hqueue, Nat.le_refl _⟩
      · have hneither : n ∉ popped ++ queue := by
          rw [List.mem_append]
          exact fun hmem => hmem.elim hout hqueue
        have hne : n ≠ root := fun heq => hneither (heq ▸ search.started)
        obtain ⟨p, hp, hchild, hweight, hless⟩ := tree.parent n hn hne
        have hpout : p ∉ popped := fun hpop => hneither (search.closed p hpop n hchild hn)
        obtain ⟨m, hm, hle⟩ := ih (rank p) (hrank ▸ hless) hp hpout rfl
        exact ⟨m, hm, hweight.trans hle⟩

/-- Popping a heaviest item of the queue and pushing its eligible children. -/
theorem pop (search : Searching child weight eligible root popped queue)
    (tree : Descending child weight eligible root rank) (hperm : (tmp :: rest).Perm queue)
    (hmax : ∀ m ∈ queue, weight m ≤ weight tmp)
    (hpushed : ∀ n, n ∈ pushed ↔ n ∈ child tmp ∧ eligible n) (hnodup : pushed.Nodup)
    (hfresh : ∀ n ∈ pushed, n ∉ popped ++ queue) :
    Searching child weight eligible root (tmp :: popped) (rest ++ pushed) := by
  have hmoved : (tmp :: popped ++ rest).Perm (popped ++ queue) :=
    List.perm_middle.symm.trans (hperm.append_left popped)
  have hkeep : ∀ n ∈ popped ++ queue, n ∈ tmp :: popped ++ (rest ++ pushed) := by
    intro n hn
    rw [← List.append_assoc]
    exact List.mem_append_left _ (hmoved.symm.subset hn)
  constructor
  case nodup =>
    rw [← List.append_assoc]
    refine List.nodup_append.mpr ⟨hmoved.nodup_iff.mpr search.nodup, hnodup, ?_⟩
    intro n hn m hm heq
    exact hfresh m hm (heq ▸ hmoved.subset hn)
  case allowed =>
    intro n hn
    rw [← List.append_assoc, List.mem_append] at hn
    rcases hn with hold | hnew
    · exact search.allowed n (hmoved.subset hold)
    · exact ((hpushed n).mp hnew).2
  case started => exact hkeep root search.started
  case closed =>
    intro p hp n hchild hn
    rcases List.mem_cons.mp hp with rfl | hold
    · rw [← List.append_assoc]
      exact List.mem_append_right _ ((hpushed n).mpr ⟨hchild, hn⟩)
    · exact hkeep n (search.closed p hold n hchild hn)
  case heaviest =>
    intro p hp n hn hout
    have hold : n ∉ popped := fun hmem => hout (List.mem_cons_of_mem _ hmem)
    rcases List.mem_cons.mp hp with rfl | hmem
    · obtain ⟨m, hm, hle⟩ := search.waits tree hn hold
      exact hle.trans (hmax m hm)
    · exact search.heaviest p hmem n hn hold

/-- When the queue runs empty, everything eligible was popped. -/
theorem all_popped (search : Searching child weight eligible root popped [])
    (tree : Descending child weight eligible root rank) {n : α} (hn : eligible n) :
    n ∈ popped := by
  by_contra hout
  obtain ⟨m, hm, -⟩ := search.waits tree hn hout
  cases hm

end Searching

/-! ## The heaviest choice -/

/-- Exchanging items for heavier ones. -/
theorem sum_le_of_heaviest [DecidableEq α] {weight : α → Nat} {chosen heavy : Finset α}
    (hcard : chosen.card = heavy.card)
    (heaviest : ∀ p ∈ heavy, ∀ n ∈ chosen, n ∉ heavy → weight n ≤ weight p) :
    ∑ n ∈ chosen, weight n ≤ ∑ n ∈ heavy, weight n := by
  have hrest : (chosen \ heavy).card = (heavy \ chosen).card := Finset.card_sdiff_comm hcard
  have hexchange : ∑ n ∈ chosen \ heavy, weight n ≤ ∑ n ∈ heavy \ chosen, weight n := by
    rcases (chosen \ heavy).eq_empty_or_nonempty with hempty | hsome
    · rw [hempty, Finset.sum_empty]
      exact Nat.zero_le _
    · obtain ⟨top, htop, hmax⟩ := (chosen \ heavy).exists_max_image weight hsome
      obtain ⟨htopIn, htopOut⟩ := Finset.mem_sdiff.mp htop
      calc ∑ n ∈ chosen \ heavy, weight n
          ≤ (chosen \ heavy).card • weight top := Finset.sum_le_card_nsmul _ _ _ hmax
        _ = (heavy \ chosen).card • weight top := by rw [hrest]
        _ ≤ ∑ n ∈ heavy \ chosen, weight n :=
            Finset.card_nsmul_le_sum _ _ _ fun p hp =>
              heaviest p (Finset.mem_sdiff.mp hp).1 top htopIn htopOut
  calc ∑ n ∈ chosen, weight n
      = ∑ n ∈ chosen ∩ heavy, weight n + ∑ n ∈ chosen \ heavy, weight n :=
        (Finset.sum_inter_add_sum_sdiff _ _ _).symm
    _ ≤ ∑ n ∈ heavy ∩ chosen, weight n + ∑ n ∈ heavy \ chosen, weight n := by
        rw [Finset.inter_comm]
        exact Nat.add_le_add_left hexchange _
    _ = ∑ n ∈ heavy, weight n := Finset.sum_inter_add_sum_sdiff _ _ _

/-- No choice of equally many eligible items is heavier than what a search popped. -/
theorem Searching.total_le {child : α → List α} {weight : α → Nat} {eligible : α → Prop}
    {root : α} {popped queue choice : List α}
    (search : Searching child weight eligible root popped queue) (hnodup : choice.Nodup)
    (heligible : ∀ n ∈ choice, eligible n) (hlen : choice.length = popped.length) :
    (choice.map weight).sum ≤ (popped.map weight).sum := by
  classical
  have hpopped : popped.Nodup := (List.nodup_append.mp search.nodup).1
  rw [← List.sum_toFinset weight hnodup, ← List.sum_toFinset weight hpopped]
  refine sum_le_of_heaviest ?_ fun p hp n hn hout => ?_
  · rw [List.toFinset_card_of_nodup hnodup, List.toFinset_card_of_nodup hpopped, hlen]
  · exact search.heaviest p (List.mem_toFinset.mp hp) n (heligible n (List.mem_toFinset.mp hn))
      fun hmem => hout (List.mem_toFinset.mpr hmem)

end FatBTree.Order
