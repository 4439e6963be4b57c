import FatBTree.Rdma.FixedArray
import FatBTree.Refinement.Runs
import Mathlib.Order.Nat

/-!
# `fixed_size_array` and `std::vector`

The same calls drive arrays and vectors.  An argument of type `const TYPE &` may be an
item of an array, even of the one it is inserted into.  A vector then inserts the item
itself; the array moves its cells first, and an item behind the insertion point has gone
when it is read.
-/

namespace FatBTree.Rdma.ArrayCalls

open FatBTree.Memory FatBTree.Refinement FatBTree.Rdma.FixedArray

/-- What a `const TYPE &` is bound to: an object outside the arrays or an item of one. -/
inductive Ref (ι α : Type) where
  | value (x : α)
  | item (name : ι) (n : Nat)

inductive Call (ι α : Type) where
  | pushBack (name : ι) (val : Ref ι α)
  | insert (name : ι) (pos : Nat) (val : Ref ι α)
  | insertRange (name : ι) (pos : Nat) (source : ι) (first last : Nat)
  | erase (name : ι) (first last : Nat)
  | clear (name : ι)
  | assign (name source : ι)

variable {ι α : Type} [DecidableEq ι] {maxSize : Nat}

def Ref.read (cells : ι → List α) : Ref ι α → Option α
  | .value x => some x
  | .item name n => (cells name)[n]?

/-! ## Both machines -/

/-- A call on the arrays.  The assignment is the implicit one, which copies every cell. -/
def step (arrays : ι → FixedArray α maxSize) : Call ι α → Option (ι → FixedArray α maxSize)
  | .pushBack name val => do
      let x ← val.read fun other => (arrays other).val
      let arr ← (arrays name).pushBack x
      some (Function.update arrays name arr)
  | .insert name pos val => do
      let arr ← (arrays name).insert pos fun moved =>
        val.read fun other => (Function.update arrays name moved other).val
      some (Function.update arrays name arr)
  | .insertRange name pos source first last => do
      let arr ← (arrays name).insertRange pos
        (fun moved => (Function.update arrays name moved source).val) first last
      some (Function.update arrays name arr)
  | .erase name first last => do
      let arr ← (arrays name).erase first last
      some (Function.update arrays name arr)
  | .clear name => some (Function.update arrays name (arrays name).clear)
  | .assign name source => some (Function.update arrays name (arrays source))

def run (start : ι → FixedArray α maxSize) (calls : List (Call ι α)) :
    Option (ι → FixedArray α maxSize) :=
  calls.foldlM step start

/-- The same call on vectors.  `none` stands for a call that `std::vector` does not allow:
an iterator or a reference beyond the end, or a range of the vector itself. -/
def vectorStep (vectors : ι → List α) : Call ι α → Option (ι → List α)
  | .pushBack name val => do
      let x ← val.read vectors
      some (Function.update vectors name (vectors name ++ [x]))
  | .insert name pos val => do
      let x ← val.read vectors
      if pos ≤ (vectors name).length then
        some (Function.update vectors name ((vectors name).insertIdx pos x))
      else none
  | .insertRange name pos source first last =>
      if source ≠ name ∧ pos ≤ (vectors name).length ∧ first ≤ last ∧
          last ≤ (vectors source).length then
        some (Function.update vectors name ((vectors name).take pos ++
          ((vectors source).drop first).take (last - first) ++ (vectors name).drop pos))
      else none
  | .erase name first last =>
      if first ≤ last ∧ last ≤ (vectors name).length then
        some (Function.update vectors name
          ((vectors name).take first ++ (vectors name).drop last))
      else none
  | .clear name => some (Function.update vectors name [])
  | .assign name source => some (Function.update vectors name (vectors source))

/-- Vectors that start empty. -/
def vectorRun (calls : List (Call ι α)) : Option (ι → List α) :=
  calls.foldlM vectorStep fun _ => []

/-- Each array holds what its vector holds. -/
def Agree (arrays : ι → FixedArray α maxSize) (vectors : ι → List α) : Prop :=
  ∀ name, (arrays name).toList = vectors name

/-- An inserted item of the array itself is not behind the insertion point, or equals the
item before it, which takes its place. -/
def Harmless (vectors : ι → List α) : Call ι α → Prop
  | .insert name pos (.item other n) =>
      other = name → pos < n → (vectors name)[n - 1]? = (vectors name)[n]?
  | _ => True

/-- An inserted item of the array itself is not behind the insertion point. -/
def Outside : Call ι α → Prop
  | .insert name pos (.item other n) => other = name → n ≤ pos
  | _ => True

instance : DecidablePred (Outside : Call ι α → Prop)
  | .insert name pos (.item other n) => inferInstanceAs (Decidable (other = name → n ≤ pos))
  | .insert _ _ (.value _) | .pushBack _ _ | .insertRange _ _ _ _ _ | .erase _ _ _ | .clear _
  | .assign _ _ => isTrue trivial

omit [DecidableEq ι] in
theorem Outside.harmless {call : Call ι α} (outside : Outside call) (vectors : ι → List α) :
    Harmless vectors call := by
  cases call with
  | insert name pos val =>
      cases val with
      | value x => trivial
      | item other n => exact fun heq hlt => absurd (outside heq) (Nat.not_le.mpr hlt)
  | _ => trivial

/-! ## One call -/

section Step

variable {arrays : ι → FixedArray α maxSize} {vectors next : ι → List α} {name : ι}

theorem agree_update_iff (agree : Agree arrays vectors) {arr : FixedArray α maxSize}
    {xs : List α} :
    Agree (Function.update arrays name arr) (Function.update vectors name xs) ↔
      arr.toList = xs := by
  constructor
  · intro agree'
    simpa using agree' name
  · intro heq other
    rcases eq_or_ne other name with rfl | hne
    · simpa using heq
    · rw [Function.update_of_ne hne, Function.update_of_ne hne]
      exact agree other

omit [DecidableEq ι] in
theorem size_eq (agree : Agree arrays vectors) (name : ι) :
    (arrays name).size = (vectors name).length := by
  rw [← agree name, length_toList]

omit [DecidableEq ι] in
/-- A reference that a vector allows is a live cell. -/
theorem getElem?_val_eq (agree : Agree arrays vectors) {n : Nat} {x : α}
    (hx : (vectors name)[n]? = some x) : (arrays name).val[n]? = some x := by
  have hlt := (List.getElem?_eq_some_iff.mp hx).1
  rw [getElem?_val (hlt.trans_eq (size_eq agree name).symm), agree name, hx]

omit [DecidableEq ι] in
theorem read_eq (agree : Agree arrays vectors) {val : Ref ι α} {x : α}
    (hx : val.read vectors = some x) : val.read (fun other => (arrays other).val) = some x := by
  cases val with
  | value y => exact hx
  | item other n => exact getElem?_val_eq agree hx

/-- What the array reads after its cells have moved, against what the vector inserts. -/
theorem read_moved (agree : Agree arrays vectors) {pos : Nat} {val : Ref ι α} {x : α}
    (hx : val.read vectors = some x) {moved : FixedArray α maxSize}
    (hmoved : ∀ i, moved.val[i]? =
      if pos < i ∧ i ≤ (arrays name).size then (arrays name).val[i - 1]?
      else (arrays name).val[i]?) :
    ∃ y, val.read (fun other => (Function.update arrays name moved other).val) = some y ∧
      (y = x ↔ Harmless vectors (.insert name pos val)) := by
  cases val with
  | value z =>
      cases hx
      exact ⟨x, rfl, iff_of_true rfl trivial⟩
  | item other n =>
      rcases eq_or_ne other name with rfl | hne
      · have hlt := (List.getElem?_eq_some_iff.mp hx).1
        simp only [Ref.read, Function.update_self, hmoved]
        rcases Nat.lt_or_ge pos n with hbehind | hbefore
        · -- the cell holds the item that stood before the one referred to
          obtain ⟨y, hy⟩ : ∃ y, (vectors other)[n - 1]? = some y :=
            ⟨_, List.getElem?_eq_getElem (by omega)⟩
          refine ⟨y, ?_, ?_⟩
          · rw [if_pos ⟨hbehind, hlt.le.trans_eq (size_eq agree other).symm⟩]
            exact getElem?_val_eq agree hy
          · rw [Ref.read] at hx
            simp [Harmless, hbehind, hx, hy]
        · refine ⟨x, ?_, iff_of_true rfl fun _ hlt' => absurd hlt' (Nat.not_lt.mpr hbefore)⟩
          rw [if_neg (by omega)]
          exact getElem?_val_eq agree hx
      · refine ⟨x, ?_, iff_of_true rfl fun heq => absurd heq hne⟩
        simp only [Ref.read, Function.update_of_ne hne]
        exact getElem?_val_eq agree hx

theorem insertIdx_inj {xs : List α} {pos : Nat} {x y : α} (hpos : pos ≤ xs.length) :
    xs.insertIdx pos y = xs.insertIdx pos x ↔ y = x := by
  constructor
  · intro heq
    have hat := congrArg (·[pos]?) heq
    simpa [List.getElem?_insertIdx_self, hpos] using hat
  · rintro rfl
    rfl

theorem pushBack_agrees (agree : Agree arrays vectors) {val : Ref ι α}
    (hnext : vectorStep vectors (.pushBack name val) = some next)
    (hfit : (next name).length ≤ maxSize) :
    ∃ arrays', step arrays (.pushBack name val) = some arrays' ∧ Agree arrays' next := by
  obtain ⟨x, hx, hput⟩ := Option.bind_eq_some_iff.mp hnext
  cases hput
  rw [Function.update_self, List.length_append, List.length_singleton,
    ← size_eq agree name] at hfit
  obtain ⟨arr, harr, hlist⟩ := pushBack_eq (arrays name) x hfit
  refine ⟨Function.update arrays name arr, ?_, (agree_update_iff agree).mpr ?_⟩
  · rw [step, read_eq agree hx]
    simp only [Option.bind_eq_bind, Option.bind_some, harr]
  · rw [hlist, agree name]

theorem insert_agrees_iff (agree : Agree arrays vectors) {pos : Nat} {val : Ref ι α}
    (hnext : vectorStep vectors (.insert name pos val) = some next)
    (hfit : (next name).length ≤ maxSize) :
    ∃ arrays', step arrays (.insert name pos val) = some arrays' ∧
      (Agree arrays' next ↔ Harmless vectors (.insert name pos val)) := by
  obtain ⟨x, hx, hput⟩ := Option.bind_eq_some_iff.mp hnext
  split at hput
  · next hpos =>
      cases hput
      rw [Function.update_self, List.length_insertIdx, if_pos hpos] at hfit
      have hsize := size_eq agree name
      obtain ⟨moved, hmoved, hinsert⟩ := insert_eq (arrays name)
        (fun moved => val.read fun other => (Function.update arrays name moved other).val)
        (hpos.trans_eq hsize.symm) (hsize.trans_lt hfit)
      obtain ⟨y, hy, hiff⟩ := read_moved agree hx hmoved
      obtain ⟨arr, harr, hlist⟩ := hinsert y hy
      refine ⟨Function.update arrays name arr, ?_, ?_⟩
      · rw [step, harr]
        rfl
      · rw [agree_update_iff agree, hlist, agree name, insertIdx_inj hpos]
        exact hiff
  · cases hput

theorem insertRange_agrees (agree : Agree arrays vectors) {pos first last : Nat} {source : ι}
    (hnext : vectorStep vectors (.insertRange name pos source first last) = some next)
    (hfit : (next name).length ≤ maxSize) :
    ∃ arrays', step arrays (.insertRange name pos source first last) = some arrays' ∧
      Agree arrays' next := by
  rw [vectorStep] at hnext
  split at hnext
  · next hvalid =>
      obtain ⟨hne, hpos, hfirst, hlast⟩ := hvalid
      cases hnext
      have hsize := size_eq agree name
      have hsource := size_eq agree source
      have hwithin := (arrays source).size_le
      have hcells := (arrays source).length_val
      rw [Function.update_self] at hfit
      simp only [List.length_append, List.length_take, List.length_drop] at hfit
      obtain ⟨arr, harr, hlist⟩ := insertRange_eq (arrays name) (arrays source).val
        (hpos.trans_eq hsize.symm) hfirst (by omega) (by omega)
      have hslice : ((arrays source).val.drop first).take (last - first) =
          ((vectors source).drop first).take (last - first) := by
        rw [← agree source, toList, List.drop_take, List.take_take, Nat.min_eq_left (by omega)]
      refine ⟨Function.update arrays name arr, ?_, (agree_update_iff agree).mpr ?_⟩
      · simp only [step, Function.update_of_ne hne, harr, Option.bind_eq_bind, Option.bind_some]
      · rw [hlist, hslice, agree name]
  · cases hnext

theorem erase_agrees (agree : Agree arrays vectors) {first last : Nat}
    (hnext : vectorStep vectors (.erase name first last) = some next) :
    ∃ arrays', step arrays (.erase name first last) = some arrays' ∧ Agree arrays' next := by
  rw [vectorStep] at hnext
  split at hnext
  · next hvalid =>
      cases hnext
      obtain ⟨arr, harr, hlist⟩ := erase_eq (arrays name) hvalid.1
        (hvalid.2.trans_eq (size_eq agree name).symm)
      refine ⟨Function.update arrays name arr, ?_, (agree_update_iff agree).mpr ?_⟩
      · rw [step, harr]
        rfl
      · rw [hlist, agree name]
  · cases hnext

/-- A call that vectors allow and that leaves them within `MAX_SIZE` succeeds on arrays;
the contents agree afterwards exactly when it is harmless. -/
theorem step_agree_iff (agree : Agree arrays vectors) {call : Call ι α}
    (hnext : vectorStep vectors call = some next) (hfit : ∀ name, (next name).length ≤ maxSize) :
    ∃ arrays', step arrays call = some arrays' ∧ (Agree arrays' next ↔ Harmless vectors call) := by
  cases call with
  | pushBack name val =>
      obtain ⟨arrays', hstep, agree'⟩ := pushBack_agrees agree hnext (hfit name)
      exact ⟨arrays', hstep, iff_of_true agree' trivial⟩
  | insert name pos val => exact insert_agrees_iff agree hnext (hfit name)
  | insertRange name pos source first last =>
      obtain ⟨arrays', hstep, agree'⟩ := insertRange_agrees agree hnext (hfit name)
      exact ⟨arrays', hstep, iff_of_true agree' trivial⟩
  | erase name first last =>
      obtain ⟨arrays', hstep, agree'⟩ := erase_agrees agree hnext
      exact ⟨arrays', hstep, iff_of_true agree' trivial⟩
  | clear name =>
      cases hnext
      exact ⟨_, rfl, iff_of_true ((agree_update_iff agree).mpr toList_clear) trivial⟩
  | assign name source =>
      cases hnext
      exact ⟨_, rfl, iff_of_true ((agree_update_iff agree).mpr (agree source)) trivial⟩

end Step

/-! ## Comparisons -/

section Compare

variable [LinearOrder α] {arrays : ι → FixedArray α maxSize}

/-- The operators compare the contents; `operator<` is their strict lexicographic order. -/
structure ComparesContents (arrays : ι → FixedArray α maxSize) : Prop where
  equal : ∀ a b, operatorEq (arrays a) (arrays b) =
    some (decide ((arrays a).toList = (arrays b).toList))
  notEqual : ∀ a b, operatorNe (arrays a) (arrays b) =
    some (decide ((arrays a).toList ≠ (arrays b).toList))
  less : ∀ a b, operatorLt (arrays a) (arrays b) =
    some (decide ((arrays a).toList < (arrays b).toList))
  irrefl : ∀ a, operatorLt (arrays a) (arrays a) = some false
  trans : ∀ a b c, operatorLt (arrays a) (arrays b) = some true →
    operatorLt (arrays b) (arrays c) = some true → operatorLt (arrays a) (arrays c) = some true
  total : ∀ a b, operatorLt (arrays a) (arrays b) = some true ∨
    (arrays a).toList = (arrays b).toList ∨ operatorLt (arrays b) (arrays a) = some true

omit [DecidableEq ι] in
/-- The operators do so as long as an `int` can count the items. -/
theorem comparesContents_iff :
    ComparesContents arrays ↔ ∀ name, (arrays name).size < 2 ^ 31 := by
  constructor
  · intro compares name
    by_contra hlarge
    have hequal := compares.equal name name
    rw [operatorEq_self_overflow (Nat.not_lt.mp hlarge)] at hequal
    cases hequal
  · intro hsmall
    have hless : ∀ a b, operatorLt (arrays a) (arrays b) =
        some (decide ((arrays a).toList < (arrays b).toList)) :=
      fun a b => operatorLt_eq (hsmall a)
    have htrue : ∀ a b, operatorLt (arrays a) (arrays b) = some true ↔
        (arrays a).toList < (arrays b).toList := by
      intro a b
      rw [hless, Option.some_inj, decide_eq_true_iff]
    constructor
    case equal => exact fun a b => operatorEq_eq (hsmall a)
    case notEqual => exact fun a b => operatorNe_eq (hsmall a)
    case less => exact hless
    case irrefl =>
      intro a
      rw [hless, decide_eq_false (lt_irrefl _)]
    case trans =>
      intro a b c hab hbc
      exact (htrue a c).mpr (((htrue a b).mp hab).trans ((htrue b c).mp hbc))
    case total =>
      intro a b
      rw [htrue, htrue]
      exact lt_trichotomy _ _

end Compare

/-! ## Whole runs -/

section Runs

variable {start : ι → FixedArray α maxSize} {calls : List (Call ι α)} {last : ι → List α}

/-- The vectors after some part of the calls. -/
def Passes (calls : List (Call ι α)) (vectors : ι → List α) : Prop :=
  ∃ done, done <+: calls ∧ vectorRun done = some vectors

/-- The contents agree up to every point of a run exactly when all of its calls are
harmless. -/
theorem agree_iff (hempty : ∀ name, (start name).size = 0) (hrun : vectorRun calls = some last)
    (hfit : ∀ vectors, Passes calls vectors → ∀ name, (vectors name).length ≤ maxSize) :
    (∀ done, done <+: calls → Related step vectorStep Agree start (fun _ => []) done) ↔
      ∀ done call, done ++ [call] <+: calls → ∀ vectors, vectorRun done = some vectors →
        Harmless vectors call := by
  have hstart : Agree start fun _ => [] := by
    intro name
    rw [toList, hempty, List.take_zero]
  refine related_iff hstart hrun fun done call hpre arrays vectors next hdone hnext agree => ?_
  refine step_agree_iff agree hnext (hfit next ⟨done ++ [call], hpre, ?_⟩)
  rw [vectorRun, foldlM_snoc, hdone]
  exact hnext

variable [LinearOrder α]

/-- Up to every point of the run the arrays hold what the vectors hold, and compare so. -/
def Refines (start : ι → FixedArray α maxSize) (calls : List (Call ι α)) : Prop :=
  ∀ done, done <+: calls → ∃ arrays vectors, run start done = some arrays ∧
    vectorRun done = some vectors ∧ Agree arrays vectors ∧ ComparesContents arrays

theorem refines_of_harmless (hempty : ∀ name, (start name).size = 0)
    (hrun : vectorRun calls = some last)
    (hfit : ∀ vectors, Passes calls vectors → ∀ name, (vectors name).length ≤ maxSize)
    (harmless : ∀ done call, done ++ [call] <+: calls → ∀ vectors,
      vectorRun done = some vectors → Harmless vectors call)
    (hsmall : ∀ vectors, Passes calls vectors → ∀ name, (vectors name).length < 2 ^ 31) :
    Refines start calls := by
  intro done hpre
  obtain ⟨arrays, vectors, harrays, hvectors, agree⟩ :=
    (agree_iff hempty hrun hfit).mpr harmless done hpre
  refine ⟨arrays, vectors, harrays, hvectors, agree, comparesContents_iff.mpr fun name => ?_⟩
  rw [size_eq agree name]
  exact hsmall vectors ⟨done, hpre, hvectors⟩ name

/-- Calls that vectors allow and that keep them within `MAX_SIZE` are refined exactly when
no inserted item of the array itself stands behind the insertion point, unless it equals
the one before it, and no array reaches the `2 ^ 31` items that an `int` cannot count. -/
theorem refines_vector_iff (hempty : ∀ name, (start name).size = 0)
    (hrun : vectorRun calls = some last)
    (hfit : ∀ vectors, Passes calls vectors → ∀ name, (vectors name).length ≤ maxSize) :
    Refines start calls ↔
      (∀ done call, done ++ [call] <+: calls → ∀ vectors, vectorRun done = some vectors →
        Harmless vectors call) ∧
      ∀ vectors, Passes calls vectors → ∀ name, (vectors name).length < 2 ^ 31 := by
  constructor
  · intro refines
    refine ⟨(agree_iff hempty hrun hfit).mp fun done hpre => ?_, ?_⟩
    · obtain ⟨arrays, vectors, harrays, hvectors, agree, -⟩ := refines done hpre
      exact ⟨arrays, vectors, harrays, hvectors, agree⟩
    · rintro vectors ⟨done, hpre, hdone⟩ name
      obtain ⟨arrays, vectors', -, hvectors, agree, compares⟩ := refines done hpre
      obtain rfl := Option.some.inj (hdone.symm.trans hvectors)
      rw [← size_eq agree name]
      exact comparesContents_iff.mp compares name
  · rintro ⟨harmless, hsmall⟩
    exact refines_of_harmless hempty hrun hfit harmless hsmall

end Runs

theorem passes_of_inits {calls : List (Call ι α)} {P : (ι → List α) → Prop}
    (hall : ∀ done ∈ calls.inits, ∀ vectors ∈ vectorRun done, P vectors) (vectors : ι → List α)
    (passes : Passes calls vectors) : P vectors := by
  obtain ⟨done, hpre, hdone⟩ := passes
  exact hall done ((List.mem_inits done calls).mpr hpre) vectors hdone

/-- An item is inserted in front of itself, and a range goes to another array. -/
def frontCalls : List (Call Bool Nat) :=
  [.pushBack false (.value 3), .insert false 0 (.item false 0), .insert false 1 (.value 5),
    .insertRange true 0 false 1 3, .erase false 0 1, .assign false true]

theorem refines_vector_frontCalls : Refines (fun _ => FixedArray.blank 4 9) frontCalls := by
  have outside : ∀ call ∈ frontCalls, Outside call := by decide
  have hfit : ∀ vectors, Passes frontCalls vectors → ∀ name, (vectors name).length ≤ 4 :=
    passes_of_inits (by decide)
  refine (refines_vector_iff (fun _ => rfl) rfl hfit).mpr ⟨fun done call hpre vectors _ => ?_,
    fun vectors passes name => (hfit vectors passes name).trans_lt (by decide)⟩
  exact (outside call (hpre.subset (by simp))).harmless vectors

/-- `a.insert(a.begin(), a[1])` behind three calls of `push_back`. -/
def ownItem : List (Call Unit Nat) :=
  [.pushBack () (.value 1), .pushBack () (.value 2), .pushBack () (.value 3),
    .insert () 0 (.item () 1)]

/-- The item has moved when it is read. -/
theorem insert_ownItem :
    (∀ vectors, Passes ownItem vectors → ∀ name, (vectors name).length ≤ 4) ∧
      ∃ arrays vectors, run (fun _ => FixedArray.blank 4 0) ownItem = some arrays ∧
        vectorRun ownItem = some vectors ∧
        (arrays ()).toList = [1, 1, 2, 3] ∧ vectors () = [2, 1, 2, 3] :=
  ⟨passes_of_inits (by decide), _, _, rfl, rfl, rfl, rfl⟩

end FatBTree.Rdma.ArrayCalls
