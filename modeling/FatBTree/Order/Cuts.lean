import FatBTree.Order.Merge

/-!
# Pieces of an interval

A list of cut points divides an interval `(lo, hi]` into pieces, from left to right.
When every piece is divided again, the cut points of the pieces and the cut points
between them form one list that divides the whole interval.
-/

namespace FatBTree.Order

variable {κ : Type*} [LinearOrder κ] {π : Type*}

/-- `keys` cut `(lo, hi]` into `pieces`, where `start` and `stop` are the ends of a
piece. -/
inductive Cuts (start : π → WithBot κ) (stop : π → WithTop κ) :
    WithBot κ → WithTop κ → List κ → List π → Prop where
  | whole (p : π) : Cuts start stop (start p) (stop p) [] [p]
  | cut {lo : WithBot κ} {hi : WithTop κ} {keys : List κ} {pieces : List π} {p : π} {sep : κ} :
      start p = lo → stop p = sep → lo ≤ sep → Cuts start stop sep hi keys pieces →
      Cuts start stop lo hi (sep :: keys) (p :: pieces)

namespace Cuts

variable {start : π → WithBot κ} {stop : π → WithTop κ} {lo : WithBot κ} {hi : WithTop κ}
  {keys rest : List κ} {pieces others : List π} {sep k : κ}

theorem length_eq (cuts : Cuts start stop lo hi keys pieces) :
    pieces.length = keys.length + 1 := by
  induction cuts with
  | whole p => rfl
  | cut _ _ _ _ ih => rw [List.length_cons, ih, List.length_cons]

theorem lo_le (cuts : Cuts start stop lo hi keys pieces) : ∀ x ∈ keys, lo ≤ (x : WithBot κ) := by
  induction cuts with
  | whole p => simp
  | cut _ _ hle _ ih =>
      intro x hx
      rcases List.mem_cons.mp hx with rfl | hmem
      · exact hle
      · exact hle.trans (ih x hmem)

/-- The number of cut points below a key of the interval selects its piece. -/
theorem select (cuts : Cuts start stop lo hi keys pieces) (within : Within lo hi k) :
    ∃ p, pieces[countBelow keys k]? = some p ∧ Within (start p) (stop p) k := by
  induction cuts with
  | whole p => exact ⟨p, rfl, within⟩
  | @cut lo hi keys pieces p sep hstart hstop _ inner ih =>
      by_cases hk : k ≤ sep
      · have hzero : countBelow (sep :: keys) k = 0 := by
          refine countBelow_eq_zero (fun x hx => ?_)
          rcases List.mem_cons.mp hx with rfl | hmem
          · exact hk
          · exact hk.trans (WithBot.coe_le_coe.mp (inner.lo_le x hmem))
        refine ⟨p, by rw [hzero]; rfl, hstart ▸ within.1, hstop ▸ ?_⟩
        exact WithTop.coe_le_coe.mpr hk
      · have hlt : sep < k := lt_of_not_ge hk
        have hsucc : countBelow (sep :: keys) k = countBelow keys k + 1 :=
          List.countP_cons_of_pos (decide_eq_true hlt)
        obtain ⟨q, hq, hwithin⟩ := ih ⟨WithBot.coe_lt_coe.mpr hlt, within.2⟩
        refine ⟨q, ?_, hwithin⟩
        rw [hsucc, List.getElem?_cons_succ]
        exact hq

/-- Two divided intervals that meet at a separator. -/
theorem join (first : Cuts start stop lo sep keys pieces) (hle : lo ≤ (sep : WithBot κ))
    (below : ∀ x ∈ keys, x ≤ sep) (second : Cuts start stop sep hi rest others) :
    Cuts start stop lo hi (keys ++ sep :: rest) (pieces ++ others) := by
  generalize hmid : (sep : WithTop κ) = mid at first
  induction first with
  | whole p => exact .cut rfl hmid.symm hle second
  | @cut lo mid keys pieces p sep' hstart hstop hle' _ ih =>
      have hnext : (sep' : WithBot κ) ≤ sep :=
        WithBot.coe_le_coe.mpr (below sep' List.mem_cons_self)
      exact .cut hstart hstop hle'
        (ih hnext (fun x hx => below x (List.mem_cons_of_mem _ hx)) hmid)

/-- The segments of an ascending list of keys. -/
theorem of_segments (sorted : Ascending keys) (hlo : ∀ x ∈ keys, lo ≤ (x : WithBot κ))
    (hlen : pieces.length = keys.length + 1)
    (hstart : ∀ (i : Nat) (p : π), pieces[i]? = some p → start p = segLo lo keys i)
    (hstop : ∀ (i : Nat) (p : π), pieces[i]? = some p → stop p = segHi hi keys i) :
    Cuts start stop lo hi keys pieces := by
  induction keys generalizing lo pieces with
  | nil =>
      obtain ⟨p, rfl⟩ := List.length_eq_one_iff.mp hlen
      have hlo' : start p = lo := hstart 0 p rfl
      have hhi' : stop p = hi := hstop 0 p rfl
      rw [← hlo', ← hhi']
      exact .whole p
  | cons sep keys ih =>
      cases pieces with
      | nil => cases hlen
      | cons p pieces =>
          obtain ⟨hfirst, hrest⟩ := List.pairwise_cons.mp sorted
          refine .cut (hstart 0 p rfl) (hstop 0 p rfl) (hlo sep List.mem_cons_self) (ih hrest ?_
            (Nat.succ.inj hlen) (fun i q hq => ?_) (fun i q hq => ?_))
          · exact fun x hx => WithBot.coe_le_coe.mpr (hfirst x hx)
          · rw [hstart (i + 1) q hq]
            cases i with
            | zero => rfl
            | succ i =>
                have hi : i < keys.length := by
                  have hlt := (List.getElem?_eq_some_iff.mp hq).1
                  simp only [List.length_cons] at hlen
                  omega
                have hkey : keys[i]? = some keys[i] := List.getElem?_eq_getElem hi
                have hkey' : (sep :: keys)[i + 1]? = some keys[i] := hkey
                rw [segLo_succ hkey, segLo_succ hkey']
          · exact hstop (i + 1) q hq

end Cuts

/-! ## Dividing every piece -/

/-- The cut points `own` of each piece, with the cut points between the pieces. -/
def interleave (own : π → List κ) : List π → List κ → List κ
  | [], _ => []
  | p :: pieces, [] => own p ++ interleave own pieces []
  | p :: pieces, sep :: keys => own p ++ sep :: interleave own pieces keys

omit [LinearOrder κ] in
theorem interleave_cons (own : π → List κ) (p : π) (pieces : List π) (keys : List κ) :
    interleave own (p :: pieces) keys =
      own p ++ keys[0]?.toList ++ interleave own pieces keys.tail := by
  cases keys with
  | nil => simp [interleave]
  | cons sep keys => simp [interleave]

variable {start : π → WithBot κ} {stop : π → WithTop κ} {lo : WithBot κ} {hi : WithTop κ}
  {keys : List κ} {pieces : List π} {own : π → List κ} {parts : π → List π}

theorem Cuts.refine (cuts : Cuts start stop lo hi keys pieces)
    (inner : ∀ p ∈ pieces, Cuts start stop (start p) (stop p) (own p) (parts p))
    (bounded : ∀ p ∈ pieces, ∀ x ∈ own p, (x : WithTop κ) ≤ stop p) :
    Cuts start stop lo hi (interleave own pieces keys) (pieces.flatMap parts) := by
  induction cuts with
  | whole p =>
      simpa [interleave] using inner p (List.mem_singleton_self p)
  | @cut lo hi keys pieces p sep hstart hstop hle _ ih =>
      have hown := inner p List.mem_cons_self
      rw [hstart, hstop] at hown
      have hbelow : ∀ x ∈ own p, x ≤ sep := by
        intro x hx
        have hx' := bounded p List.mem_cons_self x hx
        rw [hstop] at hx'
        exact WithTop.coe_le_coe.mp hx'
      exact hown.join hle hbelow
        (ih (fun q hq => inner q (List.mem_cons_of_mem _ hq))
          (fun q hq => bounded q (List.mem_cons_of_mem _ hq)))

end FatBTree.Order
