import FatBTree.Workload.Hash
import Mathlib.Algebra.BigOperators.Group.Finset.Basic
import Mathlib.Data.Multiset.Range

/-!
# Client threads

The threads of a phase share one key counter and are waited for before the next phase
starts.  Whatever the order of their steps, they insert every number once, and the later
phases ask for loaded keys exactly when the loading threads divide the record count evenly.
-/

namespace FatBTree.Workload

/-! ## The workload -/

structure CounterGenerator where
  counter : BitVec 64

def CounterGenerator.next (generator : CounterGenerator) : BitVec 64 × CounterGenerator :=
  (generator.counter, ⟨generator.counter + 1⟩)

def CounterGenerator.last (generator : CounterGenerator) : BitVec 64 :=
  generator.counter - 1

/-- `requestdistribution`. -/
inductive RequestDistribution where
  | uniform
  | zipfian
  | latest
  deriving DecidableEq

/-- What decides which keys a run names.  Counts are `int`s that are not negative;
`loadThreads` is `num_threads_load` of the frontend and `threadcount` elsewhere, and
`newKeys` is the fudge factor of the scrambled generator. -/
structure Properties where
  recordCount : Nat
  operationCount : Nat
  totalOpsSmall : Nat
  insertStart : Nat
  loadThreads : Nat
  threads : Nat
  orderedInserts : Bool
  zeroPadding : Nat
  requestDistribution : RequestDistribution
  newKeys : Nat
  recordCount_pos : 0 < recordCount
  recordCount_lt : recordCount < 2 ^ 31

def Properties.keyName (props : Properties) (keyNum : BitVec 64) : List Char :=
  buildKeyName props.orderedInserts props.zeroPadding keyNum

/-- The members of `CoreWorkload` that the threads share. -/
structure CoreWorkload where
  keyGenerator : CounterGenerator
  insertKeySequence : CounterGenerator

/-- `CoreWorkload::Init`. -/
def CoreWorkload.init (props : Properties) : CoreWorkload where
  keyGenerator := ⟨BitVec.ofNat 64 props.insertStart⟩
  insertKeySequence := ⟨BitVec.ofNat 64 props.recordCount⟩

/-- `key_chooser_->Next()`, when the distribution below it draws a number.  The uniform one
draws no number outside its interval; of the Zipf distribution any draw is considered. -/
def CoreWorkload.choose (props : Properties) (workload : CoreWorkload) (draw : BitVec 64) :
    Option (BitVec 64) :=
  match props.requestDistribution with
  | .uniform => if draw.toNat ≤ props.recordCount - 1 then some draw else none
  | .zipfian => some (fnvHash64 draw % BitVec.ofNat 64 (props.recordCount + props.newKeys))
  | .latest => some (workload.insertKeySequence.last - draw)

/-- `NextTransactionKey`; above the last key the loop asks the chooser again.  The mixture is
`TransactionRDMARead`'s. -/
def CoreWorkload.nextTransactionKey (props : Properties) (workload : CoreWorkload)
    (draw : BitVec 64) (mixed : Bool) : Option (BitVec 64) := do
  let keyNum ← workload.choose props draw
  let last := workload.insertKeySequence.last
  if last < keyNum then none
  else return if mixed then fnvHash64 keyNum % (last + 1) else keyNum

inductive Operation where
  | read
  | update
  | scan
  | readModifyWrite
  deriving DecidableEq

/-- What the database is called with. -/
inductive Command where
  | insert (key : List Char)
  | ask (op : Operation) (key : List Char)

/-- The keys inserted, oldest first. -/
def insertedNames : List Command → List (List Char)
  | [] => []
  | .insert key :: commands => key :: insertedNames commands
  | .ask _ _ :: commands => insertedNames commands

/-! ## The threads -/

/-- `num_ops - i`, and the number of the key that is being inserted. -/
structure Thread where
  remaining : Nat
  holding : Option (BitVec 64)

/-- The phases of `main`: loading, `DelegateClientReadOnly`, and the transactions. -/
inductive Phase where
  | loading
  | readOnly
  | transactions
  deriving DecidableEq

structure Session where
  workload : CoreWorkload
  phase : Phase
  count : Nat
  thread : Nat → Thread
  commands : List Command

/-- The steps of the threads, and of `main` when all futures of a phase are there. -/
inductive Event where
  | nextSequenceKey (t : Nat)
  | insert (t : Nat)
  | transaction (t : Nat) (op : Operation) (draw : BitVec 64) (mixed : Bool)
  | join

def Session.start (props : Properties) : Session where
  workload := .init props
  phase := .loading
  count := props.loadThreads
  thread := fun _ => ⟨props.recordCount / props.loadThreads, none⟩
  commands := []

/-- A thread that may start an operation. -/
def Session.ready (session : Session) (t : Nat) : Bool :=
  t < session.count && 0 < (session.thread t).remaining && (session.thread t).holding.isNone

/-- A thread after its step. -/
def Session.put (session : Session) (t : Nat) (thread : Thread) : Session :=
  { session with thread := Function.update session.thread t thread }

def Session.finished (session : Session) : Bool :=
  (List.range session.count).all fun t =>
    (session.thread t).remaining == 0 && (session.thread t).holding.isNone

def Session.step (props : Properties) (session : Session) : Event → Option Session
  | .nextSequenceKey t =>
      if session.ready t && session.phase != .readOnly then
        let (keyNum, keyGenerator) := session.workload.keyGenerator.next
        some { session.put t ⟨(session.thread t).remaining, some keyNum⟩ with
          workload := { session.workload with keyGenerator := keyGenerator } }
      else none
  | .insert t =>
      match (session.thread t).holding with
      | none => none
      | some keyNum =>
          if t < session.count then
            some { session.put t ⟨(session.thread t).remaining - 1, none⟩ with
              commands := session.commands ++ [.insert (props.keyName keyNum)] }
          else none
  | .transaction t op draw mixed =>
      if session.ready t && session.phase != .loading &&
          (session.phase == .transactions || op == .read) then
        (session.workload.nextTransactionKey props draw mixed).map fun keyNum =>
          { session.put t ⟨(session.thread t).remaining - 1, none⟩ with
            commands := session.commands ++ [.ask op (props.keyName keyNum)] }
      else none
  | .join =>
      if session.finished then
        match session.phase with
        | .loading =>
            some { session with
              phase := .readOnly
              count := props.threads
              thread := fun _ => ⟨props.totalOpsSmall / props.threads, none⟩ }
        | .readOnly =>
            some { session with
              phase := .transactions
              count := props.threads
              thread := fun _ => ⟨props.operationCount / props.threads, none⟩ }
        | .transactions => none
      else none

def Session.run (props : Properties) (events : List Event) (session : Session) : Option Session :=
  events.foldlM (Session.step props) session

/-! ## What the threads have in hand -/

/-- The operations a thread has not started. -/
def Thread.unstarted (thread : Thread) : Nat :=
  thread.remaining - thread.holding.toList.length

def Session.unstarted (session : Session) : Nat :=
  ∑ t ∈ Finset.range session.count, (session.thread t).unstarted

/-- The numbers that are being inserted. -/
def Session.held (session : Session) : Multiset (BitVec 64) :=
  ∑ t ∈ Finset.range session.count, ((session.thread t).holding.toList : Multiset (BitVec 64))

/-- How many numbers a phase may have taken at its end. -/
def Properties.limit (props : Properties) : Phase → Nat
  | .loading => props.loadThreads * (props.recordCount / props.loadThreads)
  | .readOnly => props.loadThreads * (props.recordCount / props.loadThreads)
  | .transactions => props.loadThreads * (props.recordCount / props.loadThreads) +
      props.threads * (props.operationCount / props.threads)

/-- The number that the `i`-th `Next` returns. -/
def Properties.number (props : Properties) (i : Nat) : BitVec 64 :=
  BitVec.ofNat 64 (props.insertStart + i)

/-- After `taken` calls of `Next` every number is inserted or held, and only once. -/
structure Counted (props : Properties) (session : Session) (taken : Nat)
    (numbers : List (BitVec 64)) : Prop where
  names : insertedNames session.commands = numbers.map props.keyName
  counter : session.workload.keyGenerator.counter = props.number taken
  sequence : session.workload.insertKeySequence = ⟨BitVec.ofNat 64 props.recordCount⟩
  share : (numbers : Multiset (BitVec 64)) + session.held =
    (Multiset.range taken).map props.number
  owes : ∀ t, (session.thread t).holding ≠ none → 0 < (session.thread t).remaining
  spent : session.phase = .loading → session.count = props.loadThreads ∧
    taken + session.unstarted = props.limit .loading
  bound : session.phase ≠ .readOnly → taken + session.unstarted ≤ props.limit session.phase
  readOnly : session.phase = .readOnly → taken ≤ props.limit .loading
  loaded : session.phase ≠ .loading →
    ∀ i, i < props.limit .loading → props.number i ∈ numbers

theorem insertedNames_append (commands later : List Command) :
    insertedNames (commands ++ later) = insertedNames commands ++ insertedNames later := by
  induction commands with
  | nil => rfl
  | cons command commands ih => cases command <;> simp [insertedNames, ih]

section Sums

variable {A : Type} [AddCommMonoid A] (value : Thread → A) (thread : Nat → Thread) {t count : Nat}

/-- What one thread's step changes in a sum over the threads. -/
theorem sum_update_add (ht : t < count) (next : Thread) :
    (∑ u ∈ Finset.range count, value (Function.update thread t next u)) + value (thread t) =
      (∑ u ∈ Finset.range count, value (thread u)) + value next := by
  have hmem : t ∈ Finset.range count := Finset.mem_range.mpr ht
  have hother : ∑ u ∈ (Finset.range count).erase t, value (Function.update thread t next u) =
      ∑ u ∈ (Finset.range count).erase t, value (thread u) :=
    Finset.sum_congr rfl fun u hu => by rw [Function.update_of_ne (Finset.ne_of_mem_erase hu)]
  rw [← Finset.add_sum_erase _ _ hmem, ← Finset.add_sum_erase _ _ hmem, hother,
    Function.update_self, add_right_comm, add_comm (value next), add_right_comm]

end Sums

theorem Session.finished_iff {session : Session} :
    session.finished = true ↔
      ∀ t < session.count, (session.thread t).remaining = 0 ∧ (session.thread t).holding = none := by
  simp [Session.finished]

theorem Session.ready_iff {session : Session} {t : Nat} :
    session.ready t = true ↔ t < session.count ∧ 0 < (session.thread t).remaining ∧
      (session.thread t).holding = none := by
  simp [Session.ready, and_assoc]

section Steps

variable {props : Properties} {session : Session} {taken : Nat} {numbers : List (BitVec 64)}

/-- When all threads have finished, nothing is held and nothing is left to do. -/
theorem Session.finished_sums (hfinished : session.finished = true) :
    session.unstarted = 0 ∧ session.held = 0 := by
  rw [Session.finished_iff] at hfinished
  constructor
  · refine Finset.sum_eq_zero fun t ht => ?_
    obtain ⟨hzero, -⟩ := hfinished t (Finset.mem_range.mp ht)
    rw [Thread.unstarted, hzero, Nat.zero_sub]
  · refine Finset.sum_eq_zero fun t ht => ?_
    obtain ⟨-, hnone⟩ := hfinished t (Finset.mem_range.mp ht)
    rw [hnone]
    rfl

theorem counted_start (props : Properties) :
    Counted props (Session.start props) 0 [] := by
  constructor
  case names => rfl
  case counter => rfl
  case sequence => rfl
  case share => simp [Session.held, Session.start]
  case owes => intro t hne; exact absurd rfl hne
  case spent =>
    intro _
    refine ⟨rfl, ?_⟩
    simp [Session.unstarted, Session.start, Thread.unstarted, Properties.limit]
  case bound =>
    intro _
    simp [Session.unstarted, Session.start, Thread.unstarted, Properties.limit]
  case readOnly => intro heq; cases heq
  case loaded => intro hne; exact absurd rfl hne

theorem Properties.number_succ (props : Properties) (i : Nat) :
    props.number i + 1 = props.number (i + 1) := by
  rw [number, number, ← Nat.add_assoc, BitVec.ofNat_add (props.insertStart + i) 1]
  rfl

/-- What the step of a thread changes in the two sums. -/
theorem Session.put_sums {t : Nat} (ht : t < session.count) (next : Thread) :
    (session.put t next).unstarted + (session.thread t).unstarted =
        session.unstarted + next.unstarted ∧
      (session.put t next).held + ((session.thread t).holding.toList : Multiset (BitVec 64)) =
        session.held + next.holding.toList :=
  ⟨sum_update_add Thread.unstarted session.thread ht next,
    sum_update_add (fun thread => (thread.holding.toList : Multiset (BitVec 64))) session.thread ht
      next⟩

theorem Counted.owes_put (counted : Counted props session taken numbers) {t : Nat} {next : Thread}
    (hnext : next.holding ≠ none → 0 < next.remaining) :
    ∀ u, ((session.put t next).thread u).holding ≠ none →
      0 < ((session.put t next).thread u).remaining := by
  intro u hne
  rcases eq_or_ne u t with rfl | hother
  · simp only [Session.put, Function.update_self] at hne ⊢
    exact hnext hne
  · simp only [Session.put, Function.update_of_ne hother] at hne ⊢
    exact counted.owes u hne

/-- A thread takes the next number. -/
theorem Counted.nextSequenceKey (counted : Counted props session taken numbers) {t : Nat}
    (hready : session.ready t = true) (hphase : session.phase ≠ .readOnly) :
    Counted props
      { session.put t ⟨(session.thread t).remaining, some session.workload.keyGenerator.counter⟩ with
        workload := { session.workload with
          keyGenerator := ⟨session.workload.keyGenerator.counter + 1⟩ } }
      (taken + 1) numbers := by
  obtain ⟨ht, hremaining, hnone⟩ := Session.ready_iff.mp hready
  obtain ⟨hunstarted, hheld⟩ := session.put_sums ht
    ⟨(session.thread t).remaining, some session.workload.keyGenerator.counter⟩
  simp only [Thread.unstarted, hnone, Option.toList_none, Option.toList_some, List.length_nil,
    List.length_cons, Multiset.coe_nil, add_zero, Multiset.coe_singleton] at hunstarted hheld
  have hnext : taken + 1 + (session.put t
      ⟨(session.thread t).remaining, some session.workload.keyGenerator.counter⟩).unstarted =
        taken + session.unstarted := by omega
  constructor
  case names => exact counted.names
  case counter =>
    rw [← Properties.number_succ, ← counted.counter]
  case sequence => exact counted.sequence
  case share =>
    refine (congrArg _ hheld).trans ?_
    rw [← add_assoc, counted.share, Multiset.range_succ, Multiset.map_cons, ← counted.counter,
      add_comm, Multiset.singleton_add]
  case owes => exact counted.owes_put fun _ => hremaining
  case spent =>
    intro hloading
    obtain ⟨hcount, hspent⟩ := counted.spent hloading
    exact ⟨hcount, hnext.trans hspent⟩
  case bound =>
    intro hne
    exact hnext.trans_le (counted.bound hne)
  case readOnly => exact fun heq => absurd heq hphase
  case loaded => exact counted.loaded

/-- A thread's number is inserted. -/
theorem Counted.insert (counted : Counted props session taken numbers) {t : Nat}
    {keyNum : BitVec 64} (ht : t < session.count)
    (hholding : (session.thread t).holding = some keyNum) :
    Counted props
      { session.put t ⟨(session.thread t).remaining - 1, none⟩ with
        commands := session.commands ++ [.insert (props.keyName keyNum)] }
      taken (numbers ++ [keyNum]) := by
  obtain ⟨hunstarted, hheld⟩ := session.put_sums ht ⟨(session.thread t).remaining - 1, none⟩
  simp only [Thread.unstarted, hholding, Option.toList_none, Option.toList_some, List.length_nil,
    List.length_cons, Multiset.coe_nil, add_zero, Multiset.coe_singleton] at hunstarted hheld
  have hsame : (session.put t ⟨(session.thread t).remaining - 1, none⟩).unstarted =
      session.unstarted := by omega
  constructor
  case names =>
    rw [insertedNames_append, counted.names, List.map_append]
    rfl
  case counter => exact counted.counter
  case sequence => exact counted.sequence
  case share =>
    rw [← counted.share, ← hheld, ← Multiset.coe_add, Multiset.coe_singleton, add_assoc]
    exact congrArg _ (add_comm _ _)
  case owes => exact counted.owes_put fun hne => absurd rfl hne
  case spent =>
    intro hloading
    obtain ⟨hcount, hspent⟩ := counted.spent hloading
    exact ⟨hcount, (congrArg (taken + ·) hsame).trans hspent⟩
  case bound =>
    intro hne
    exact (congrArg (taken + ·) hsame).trans_le (counted.bound hne)
  case readOnly => exact counted.readOnly
  case loaded =>
    intro hne i hi
    exact List.mem_append_left _ (counted.loaded hne i hi)

/-- A transaction takes no number. -/
theorem Counted.transaction (counted : Counted props session taken numbers) {t : Nat}
    (hready : session.ready t = true) (hphase : session.phase ≠ .loading) (op : Operation)
    (key : List Char) :
    Counted props
      { session.put t ⟨(session.thread t).remaining - 1, none⟩ with
        commands := session.commands ++ [.ask op key] }
      taken numbers := by
  obtain ⟨ht, -, hnone⟩ := Session.ready_iff.mp hready
  obtain ⟨hunstarted, hheld⟩ := session.put_sums ht ⟨(session.thread t).remaining - 1, none⟩
  simp only [Thread.unstarted, hnone, Option.toList_none, List.length_nil, Multiset.coe_nil,
    add_zero, Nat.sub_zero] at hunstarted hheld
  have hless : (session.put t ⟨(session.thread t).remaining - 1, none⟩).unstarted ≤
      session.unstarted := by omega
  constructor
  case names =>
    rw [insertedNames_append, counted.names]
    exact List.append_nil _
  case counter => exact counted.counter
  case sequence => exact counted.sequence
  case share => exact (congrArg _ hheld).trans counted.share
  case owes => exact counted.owes_put fun hne => absurd rfl hne
  case spent => exact fun heq => absurd heq hphase
  case bound =>
    intro hne
    exact (Nat.add_le_add_left hless taken).trans (counted.bound hne)
  case readOnly => exact counted.readOnly
  case loaded => exact counted.loaded

/-- A phase starts with idle threads. -/
theorem Counted.start_phase {next : Session} (counted : Counted props session taken numbers)
    {count ops : Nat} (hcommands : next.commands = session.commands)
    (hworkload : next.workload = session.workload) (hcount : next.count = count)
    (hthread : next.thread = fun _ => ⟨ops, none⟩) (hheld : session.held = 0)
    (hphase : next.phase ≠ .loading)
    (hbound : next.phase ≠ .readOnly → taken + count * ops ≤ props.limit next.phase)
    (hreadOnly : next.phase = .readOnly → taken ≤ props.limit .loading)
    (hloaded : ∀ i, i < props.limit .loading → props.number i ∈ numbers) :
    Counted props next taken numbers := by
  have hidle : next.held = 0 := by
    rw [Session.held, hthread]
    exact Finset.sum_eq_zero fun _ _ => rfl
  have hwork : next.unstarted = count * ops := by
    rw [Session.unstarted, hthread, hcount]
    simp [Thread.unstarted]
  constructor
  case names => rw [hcommands]; exact counted.names
  case counter => rw [hworkload]; exact counted.counter
  case sequence => rw [hworkload]; exact counted.sequence
  case share => rw [hidle, ← hheld]; exact counted.share
  case owes => intro t hne; rw [hthread] at hne; exact absurd rfl hne
  case spent => exact fun heq => absurd heq hphase
  case bound => intro hne; rw [hwork]; exact hbound hne
  case readOnly => exact hreadOnly
  case loaded => exact fun _ => hloaded

/-- Waiting for the threads of a phase. -/
theorem Counted.join (counted : Counted props session taken numbers) {next : Session}
    (hjoin : session.step props .join = some next) : Counted props next taken numbers := by
  simp only [Session.step] at hjoin
  split_ifs at hjoin with hfinished
  obtain ⟨hunstarted, hheld⟩ := session.finished_sums hfinished
  cases hphase : session.phase with
  | transactions => rw [hphase] at hjoin; cases hjoin
  | loading =>
      rw [hphase] at hjoin
      cases hjoin
      obtain ⟨-, hspent⟩ := counted.spent hphase
      rw [hunstarted, Nat.add_zero] at hspent
      refine counted.start_phase rfl rfl rfl rfl hheld (by simp) (fun hne => absurd rfl hne)
        (fun _ => hspent.le) fun i hi => ?_
      have hshare := counted.share
      rw [hheld, add_zero] at hshare
      have hmem : props.number i ∈ (Multiset.range taken).map props.number :=
        Multiset.mem_map_of_mem _ (Multiset.mem_range.mpr (hspent ▸ hi))
      rw [← hshare] at hmem
      exact Multiset.mem_coe.mp hmem
  | readOnly =>
      rw [hphase] at hjoin
      cases hjoin
      refine counted.start_phase rfl rfl rfl rfl hheld (by simp) (fun _ => ?_) (fun heq => nomatch heq)
        (counted.loaded (by rw [hphase]; decide))
      exact Nat.add_le_add_right (counted.readOnly hphase) _

/-- What a step can do. -/
theorem Session.step_cases {event : Event} {next : Session}
    (hstep : session.step props event = some next) :
    (∃ t, session.ready t = true ∧ session.phase ≠ .readOnly ∧
      next = { session.put t
          ⟨(session.thread t).remaining, some session.workload.keyGenerator.counter⟩ with
        workload := { session.workload with
          keyGenerator := ⟨session.workload.keyGenerator.counter + 1⟩ } }) ∨
    (∃ t keyNum, t < session.count ∧ (session.thread t).holding = some keyNum ∧
      next = { session.put t ⟨(session.thread t).remaining - 1, none⟩ with
        commands := session.commands ++ [.insert (props.keyName keyNum)] }) ∨
    (∃ t op draw mixed k, session.ready t = true ∧ session.phase ≠ .loading ∧
      session.workload.nextTransactionKey props draw mixed = some k ∧
      next = { session.put t ⟨(session.thread t).remaining - 1, none⟩ with
        commands := session.commands ++ [.ask op (props.keyName k)] }) ∨
    (event = .join ∧ next.commands = session.commands) := by
  cases event with
  | nextSequenceKey t =>
      simp only [step, CounterGenerator.next] at hstep
      split_ifs at hstep with hcond
      cases hstep
      simp only [Bool.and_eq_true, bne_iff_ne] at hcond
      exact Or.inl ⟨t, hcond.1, hcond.2, rfl⟩
  | insert t =>
      simp only [step] at hstep
      cases hholding : (session.thread t).holding with
      | none => rw [hholding] at hstep; cases hstep
      | some keyNum =>
          simp only [hholding] at hstep
          split_ifs at hstep with ht
          cases hstep
          exact Or.inr (Or.inl ⟨t, keyNum, ht, hholding, rfl⟩)
  | transaction t op draw mixed =>
      simp only [step] at hstep
      split_ifs at hstep with hcond
      obtain ⟨k, hnext, rfl⟩ := Option.map_eq_some_iff.mp hstep
      simp only [Bool.and_eq_true, bne_iff_ne] at hcond
      exact Or.inr (Or.inr (Or.inl ⟨t, op, draw, mixed, k, hcond.1.1, hcond.1.2, hnext, rfl⟩))
  | join =>
      refine Or.inr (Or.inr (Or.inr ⟨rfl, ?_⟩))
      simp only [step] at hstep
      split_ifs at hstep
      cases hphase : session.phase with
      | loading => rw [hphase] at hstep; cases hstep; rfl
      | readOnly => rw [hphase] at hstep; cases hstep; rfl
      | transactions => rw [hphase] at hstep; cases hstep

/-- One step of a run. -/
theorem Counted.step (counted : Counted props session taken numbers) {event : Event}
    {next : Session} (hstep : session.step props event = some next) :
    ∃ taken' numbers', Counted props next taken' numbers' := by
  rcases session.step_cases hstep with ⟨t, hready, hphase, rfl⟩ | ⟨t, keyNum, ht, hholding, rfl⟩ |
    ⟨t, op, draw, mixed, k, hready, hphase, -, rfl⟩ | ⟨rfl, -⟩
  · exact ⟨_, _, counted.nextSequenceKey hready hphase⟩
  · exact ⟨_, _, counted.insert ht hholding⟩
  · exact ⟨_, _, counted.transaction hready hphase op _⟩
  · exact ⟨_, _, counted.join hstep⟩

end Steps

/-! ## Runs -/

/-- The database is asked for a key only after the key was inserted. -/
def AsksInserted (commands : List Command) : Prop :=
  ∀ i op key, commands[i]? = some (.ask op key) → key ∈ insertedNames (commands.take i)

theorem asksInserted_concat {commands : List Command} {command : Command}
    (asks : AsksInserted commands)
    (hlast : ∀ op key, command = .ask op key → key ∈ insertedNames commands) :
    AsksInserted (commands ++ [command]) := by
  intro i op key hi
  rcases Nat.lt_trichotomy i commands.length with hlt | rfl | hgt
  · rw [List.getElem?_append_left hlt] at hi
    rw [List.take_append_of_le_length hlt.le]
    exact asks i op key hi
  · rw [List.getElem?_concat_length] at hi
    rw [List.take_left]
    exact hlast op key (Option.some.inj hi)
  · rw [List.getElem?_eq_none (by rw [List.length_append]; exact hgt)] at hi
    cases hi

theorem toNat_number {props : Properties} {i : Nat} (hlt : props.insertStart + i < 2 ^ 64) :
    (props.number i).toNat = props.insertStart + i := by
  rw [Properties.number, BitVec.toNat_ofNat, Nat.mod_eq_of_lt hlt]

theorem high_eq_zero {a : BitVec 64} (hlt : a.toNat < 2 ^ 32) : a >>> 32 = 0 := by
  apply BitVec.eq_of_toNat_eq
  rw [BitVec.toNat_ushiftRight, Nat.shiftRight_eq_div_pow, Nat.div_eq_of_lt hlt]
  rfl

theorem keyName_inj (props : Properties) {a b : BitVec 64} (ha : a.toNat < 2 ^ 32)
    (hb : b.toNat < 2 ^ 32) : props.keyName a = props.keyName b ↔ a = b :=
  buildKeyName_inj (by rw [high_eq_zero ha, high_eq_zero hb])

/-- The numbers a transaction can name are below the record count. -/
theorem nextTransactionKey_lt {props : Properties} {workload : CoreWorkload}
    (hsequence : workload.insertKeySequence = ⟨BitVec.ofNat 64 props.recordCount⟩)
    {draw k : BitVec 64} {mixed : Bool}
    (hnext : workload.nextTransactionKey props draw mixed = some k) :
    k.toNat < props.recordCount := by
  have hpos := props.recordCount_pos
  have hcount := props.recordCount_lt
  have hrecords : (BitVec.ofNat 64 props.recordCount).toNat = props.recordCount := by
    rw [BitVec.toNat_ofNat, Nat.mod_eq_of_lt (by omega)]
  have hone : (BitVec.ofNat 64 props.recordCount - 1) + 1 = BitVec.ofNat 64 props.recordCount :=
    BitVec.sub_add_cancel _ _
  simp only [CoreWorkload.nextTransactionKey, Option.bind_eq_bind] at hnext
  obtain ⟨keyNum, -, hnext⟩ := Option.bind_eq_some_iff.mp hnext
  simp only [hsequence, CounterGenerator.last, hone, Option.pure_def] at hnext
  split_ifs at hnext with hlarge hmixed
  · cases hnext
    rw [BitVec.toNat_umod, hrecords]
    exact Nat.mod_lt _ hpos
  · cases hnext
    rw [BitVec.lt_def, BitVec.toNat_sub, hrecords] at hlarge
    have honeNat : (1 : BitVec 64).toNat = 1 := rfl
    rw [honeNat] at hlarge
    omega

/-- Of the uniform distribution a transaction can name all of them. -/
theorem nextTransactionKey_self {props : Properties} {workload : CoreWorkload}
    (huniform : props.requestDistribution = .uniform)
    (hsequence : workload.insertKeySequence = ⟨BitVec.ofNat 64 props.recordCount⟩) {n : Nat}
    (hn : n < props.recordCount) :
    workload.nextTransactionKey props (BitVec.ofNat 64 n) false = some (BitVec.ofNat 64 n) := by
  have hcount := props.recordCount_lt
  have hnat : (BitVec.ofNat 64 n).toNat = n := by
    rw [BitVec.toNat_ofNat, Nat.mod_eq_of_lt (by omega)]
  have hchosen : workload.choose props (BitVec.ofNat 64 n) = some (BitVec.ofNat 64 n) := by
    rw [CoreWorkload.choose, huniform]
    exact if_pos (by omega)
  have hlarge : ¬ BitVec.ofNat 64 props.recordCount - 1 < BitVec.ofNat 64 n := by
    have honeNat : (1 : BitVec 64).toNat = 1 := rfl
    rw [BitVec.lt_def, BitVec.toNat_sub, BitVec.toNat_ofNat, hnat, honeNat]
    omega
  simp only [CoreWorkload.nextTransactionKey, hchosen, Option.bind_eq_bind, Option.bind_some,
    hsequence, CounterGenerator.last, hlarge, if_false, Bool.false_eq_true, Option.pure_def]

section Runs

variable {props : Properties} {session : Session}

theorem counted_of_run {events : List Event}
    (hrun : (Session.start props).run props events = some session) :
    ∃ taken numbers, Counted props session taken numbers := by
  induction events using List.reverseRecOn generalizing session with
  | nil =>
      cases hrun
      exact ⟨0, [], counted_start props⟩
  | append_singleton events event ih =>
      obtain ⟨before, hbefore, hstep⟩ : ∃ before,
          (Session.start props).run props events = some before ∧
            before.step props event = some session := by
        simpa [Session.run, List.foldlM_append, Option.bind_eq_some_iff] using hrun
      obtain ⟨taken, numbers, counted⟩ := ih hbefore
      exact counted.step hstep

theorem Properties.limit_le (props : Properties) (phase : Phase) :
    props.limit phase ≤ props.recordCount + props.operationCount := by
  have hload := Nat.mul_div_le props.recordCount props.loadThreads
  have hops := Nat.mul_div_le props.operationCount props.threads
  cases phase <;> simp only [limit] <;> omega

theorem Counted.taken_le {taken : Nat} {numbers : List (BitVec 64)}
    (counted : Counted props session taken numbers) :
    taken ≤ props.recordCount + props.operationCount := by
  by_cases hphase : session.phase = .readOnly
  · exact (counted.readOnly hphase).trans (props.limit_le _)
  · exact (Nat.le_add_right _ _).trans ((counted.bound hphase).trans (props.limit_le _))

theorem Counted.number_of_mem {taken : Nat} {numbers : List (BitVec 64)}
    (counted : Counted props session taken numbers) {k : BitVec 64} (hk : k ∈ numbers) :
    ∃ i, i < taken ∧ props.number i = k := by
  have hmem : k ∈ (Multiset.range taken).map props.number := by
    rw [← counted.share]
    exact Multiset.mem_add.mpr (Or.inl hk)
  obtain ⟨i, hi, rfl⟩ := Multiset.mem_map.mp hmem
  exact ⟨i, Multiset.mem_range.mp hi, rfl⟩

/-- However the threads are scheduled, no key is inserted twice. -/
theorem insertedNames_nodup
    (hfit : props.insertStart + props.recordCount + props.operationCount ≤ 2 ^ 32)
    {events : List Event} (hrun : (Session.start props).run props events = some session) :
    (insertedNames session.commands).Nodup := by
  obtain ⟨taken, numbers, counted⟩ := counted_of_run hrun
  have htaken := counted.taken_le
  have hsmall : ∀ i, i < taken → (props.number i).toNat = props.insertStart + i :=
    fun i hi => toNat_number (by omega)
  have hnumbers : numbers.Nodup := by
    have hall : ((Multiset.range taken).map props.number).Nodup := by
      refine (Multiset.nodup_range taken).map_on fun i hi j hj heq => ?_
      have hnat := congrArg BitVec.toNat heq
      rw [hsmall i (Multiset.mem_range.mp hi), hsmall j (Multiset.mem_range.mp hj)] at hnat
      omega
    rw [← counted.share] at hall
    exact Multiset.coe_nodup.mp (Multiset.nodup_of_le (Multiset.le_add_right _ _) hall)
  rw [counted.names]
  refine List.Nodup.map_on (fun a ha b hb heq => ?_) hnumbers
  obtain ⟨i, hi, rfl⟩ := counted.number_of_mem ha
  obtain ⟨j, hj, rfl⟩ := counted.number_of_mem hb
  refine (keyName_inj props ?_ ?_).mp heq
  · rw [hsmall i hi]
    omega
  · rw [hsmall j hj]
    omega

/-- Two threads load two hashed keys, the second one first, and one inserts a third. -/
theorem insertedNames_nodup_two_threads :
    let props : Properties := ⟨2, 1, 0, 0, 2, 1, false, 20, .latest, 0, by decide, by decide⟩
    ∃ session, (Session.start props).run props [.nextSequenceKey 0, .nextSequenceKey 1, .insert 1,
        .insert 0, .join, .join, .nextSequenceKey 0, .insert 0] = some session ∧
      (insertedNames session.commands).Nodup := by
  intro props
  obtain ⟨session, hrun⟩ : ∃ session, (Session.start props).run props [.nextSequenceKey 0,
      .nextSequenceKey 1, .insert 1, .insert 0, .join, .join, .nextSequenceKey 0, .insert 0] =
        some session := Option.isSome_iff_exists.mp (by decide +kernel)
  exact ⟨session, hrun, insertedNames_nodup (by decide) hrun⟩

/-- With an even load from 0 on, every number a transaction can name is loaded. -/
theorem Counted.loaded_all {taken : Nat} {numbers : List (BitVec 64)}
    (counted : Counted props session taken numbers) (hphase : session.phase ≠ .loading)
    (hstart : props.insertStart = 0) (heven : props.loadThreads ∣ props.recordCount)
    {k : BitVec 64} (hk : k.toNat < props.recordCount) :
    props.keyName k ∈ insertedNames session.commands := by
  have hmem := counted.loaded hphase k.toNat (by rwa [Properties.limit, Nat.mul_div_cancel' heven])
  have hnumber : props.number k.toNat = k := by
    rw [Properties.number, hstart, Nat.zero_add, BitVec.ofNat_toNat, BitVec.setWidth_eq]
  rw [counted.names]
  exact List.mem_map_of_mem (hnumber ▸ hmem)

theorem asksInserted_of_run (hstart : props.insertStart = 0)
    (heven : props.loadThreads ∣ props.recordCount) {events : List Event}
    (hrun : (Session.start props).run props events = some session) :
    AsksInserted session.commands := by
  induction events using List.reverseRecOn generalizing session with
  | nil =>
      cases hrun
      intro i op key hi
      cases hi
  | append_singleton events event ih =>
      obtain ⟨before, hbefore, hstep⟩ : ∃ before,
          (Session.start props).run props events = some before ∧
            before.step props event = some session := by
        simpa [Session.run, List.foldlM_append, Option.bind_eq_some_iff] using hrun
      have asks := ih hbefore
      obtain ⟨taken, numbers, counted⟩ := counted_of_run hbefore
      rcases before.step_cases hstep with ⟨t, -, -, rfl⟩ | ⟨t, keyNum, -, -, rfl⟩ |
        ⟨t, op, draw, mixed, k, -, hphase, hnext, rfl⟩ | ⟨-, hcommands⟩
      · exact asks
      · refine asksInserted_concat asks fun op key heq => ?_
        cases heq
      · refine asksInserted_concat asks fun op' key heq => ?_
        cases heq
        exact counted.loaded_all hphase hstart heven (nextTransactionKey_lt counted.sequence hnext)
      · rw [hcommands]
        exact asks

/-- Right after loading, all numbers that a uniform transaction can name are loaded only when
the load starts at 0 and is even. -/
theorem Counted.even_of_loaded {taken : Nat} {numbers : List (BitVec 64)}
    (counted : Counted props session taken numbers) (htaken : taken = props.limit .loading)
    (hfit : props.insertStart + props.recordCount + props.operationCount ≤ 2 ^ 32)
    (huniform : props.requestDistribution = .uniform)
    (hall : ∀ draw k, session.workload.nextTransactionKey props draw false = some k →
      props.keyName k ∈ insertedNames session.commands) :
    props.insertStart = 0 ∧ props.loadThreads ∣ props.recordCount := by
  have hpos := props.recordCount_pos
  have htake := counted.taken_le
  -- the loaded number whose name is that of `n`
  have hfound : ∀ n, n < props.recordCount → ∃ i, i < taken ∧ props.insertStart + i = n := by
    intro n hn
    have hname := hall _ _ (nextTransactionKey_self huniform counted.sequence hn)
    rw [counted.names] at hname
    obtain ⟨k, hk, hsame⟩ := List.mem_map.mp hname
    obtain ⟨i, hi, rfl⟩ := counted.number_of_mem hk
    have hnat : (BitVec.ofNat 64 n).toNat = n := by
      rw [BitVec.toNat_ofNat, Nat.mod_eq_of_lt (by omega)]
    have hnumber : (props.number i).toNat = props.insertStart + i := toNat_number (by omega)
    have heq := (keyName_inj props (by omega) (by omega)).mp hsame
    exact ⟨i, hi, by rw [← hnumber, heq, hnat]⟩
  obtain ⟨i, -, hzero⟩ := hfound 0 hpos
  obtain ⟨j, hj, hlast⟩ := hfound (props.recordCount - 1) (by omega)
  have hmul := Nat.mul_div_le props.recordCount props.loadThreads
  rw [Properties.limit] at htaken
  exact ⟨by omega, ⟨props.recordCount / props.loadThreads, by omega⟩⟩

/-- With an even load from 0 on, no run asks for a key before it was inserted.  Of the uniform
distribution the load itself leaves every nameable key inserted only then. -/
theorem transactions_ask_inserted
    (hfit : props.insertStart + props.recordCount + props.operationCount ≤ 2 ^ 32)
    {events : List Event} (hrun : (Session.start props).run props events = some session) :
    (props.insertStart = 0 ∧ props.loadThreads ∣ props.recordCount →
      AsksInserted session.commands) ∧
    (props.requestDistribution = .uniform → session.phase = .loading →
      ∀ next, session.step props .join = some next →
        ((∀ draw k, next.workload.nextTransactionKey props draw false = some k →
            props.keyName k ∈ insertedNames next.commands) ↔
          props.insertStart = 0 ∧ props.loadThreads ∣ props.recordCount)) := by
  refine ⟨fun heven => asksInserted_of_run heven.1 heven.2 hrun,
    fun huniform hphase next hjoin => ?_⟩
  obtain ⟨taken, numbers, counted⟩ := counted_of_run hrun
  have hnext := counted.join hjoin
  simp only [Session.step] at hjoin
  split_ifs at hjoin with hfinished
  have hspent := (counted.spent hphase).2
  rw [(session.finished_sums hfinished).1, Nat.add_zero] at hspent
  rw [hphase] at hjoin
  cases hjoin
  refine ⟨hnext.even_of_loaded hspent hfit huniform, fun heven draw k hk => ?_⟩
  exact hnext.loaded_all (by simp) heven.1 heven.2 (nextTransactionKey_lt hnext.sequence hk)

/-- Two threads load two records, which leaves nothing out, or three, which leaves the last
one out. -/
theorem transactions_ask_inserted_uneven :
    let even : Properties := ⟨2, 1, 2, 0, 2, 1, false, 20, .zipfian, 0, by decide, by decide⟩
    let uneven : Properties := ⟨3, 2, 2, 0, 2, 1, true, 20, .uniform, 0, by decide, by decide⟩
    (∃ session, (Session.start even).run even [.nextSequenceKey 1, .nextSequenceKey 0, .insert 0,
        .insert 1, .join, .transaction 0 .read 7 true] = some session ∧
      session.commands.length = 3 ∧ AsksInserted session.commands) ∧
    ∃ session next, (Session.start uneven).run uneven [.nextSequenceKey 0, .insert 0,
        .nextSequenceKey 1, .insert 1] = some session ∧ session.step uneven .join = some next ∧
      ¬ ∀ draw k, next.workload.nextTransactionKey uneven draw false = some k →
        uneven.keyName k ∈ insertedNames next.commands := by
  intro even uneven
  constructor
  · have hlen : ((Session.start even).run even [.nextSequenceKey 1, .nextSequenceKey 0,
        .insert 0, .insert 1, .join, .transaction 0 .read 7 true]).map
          (fun session => session.commands.length) = some 3 := by
      decide +kernel
    obtain ⟨session, hrun, hthree⟩ := Option.map_eq_some_iff.mp hlen
    exact ⟨session, hrun, hthree,
      (transactions_ask_inserted (by decide) hrun).1 ⟨rfl, Nat.dvd_refl 2⟩⟩
  · have hsome : ((((Session.start uneven).run uneven [.nextSequenceKey 0, .insert 0,
        .nextSequenceKey 1, .insert 1]).bind fun session =>
          if session.phase = .loading then session.step uneven .join else none).isSome) = true := by
      decide +kernel
    obtain ⟨next, hnext⟩ := Option.isSome_iff_exists.mp hsome
    obtain ⟨session, hrun, hjoin⟩ := Option.bind_eq_some_iff.mp hnext
    split_ifs at hjoin with hphase
    refine ⟨session, next, hrun, hjoin, fun hall => ?_⟩
    have heven := ((transactions_ask_inserted (by decide) hrun).2 rfl hphase next hjoin).mp hall
    exact absurd heven.2 (by decide)

end Runs

end FatBTree.Workload
