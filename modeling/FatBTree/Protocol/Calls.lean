import Mathlib.Logic.Function.Basic
import Mathlib.Data.List.Basic
import Mathlib.Data.List.Pairwise
import Mathlib.Data.Set.Function

/-!
# Calls over a network

Clients call services, one request each at a time.  Requests and replies are in flight in
any order and may get lost, and a service handles one request at a time.  Whatever the
interleaving, the requests of a client are served in the order of its calls and at most
once, and a call returns the answer of a moment between its start and its end.
-/

namespace FatBTree.Protocol

variable {C P S Req Rep : Type}

/-- Which service a request is for, and how a service may serve it. -/
structure Service (P S Req Rep : Type) where
  route : Req → P
  serve : P → S → Req → Rep → S → Prop

structure Served (C Req Rep : Type) where
  client : C
  req : Req
  rep : Rep

/-- A call that has returned, with the number of requests served before its start and
before its end. -/
structure Returned (C Req Rep : Type) extends Served C Req Rep where
  called : Nat
  returned : Nat

/-- The parties and the messages in flight.  A client that waits knows its request.  The
logs are for the proofs: `log` is what was served and `history` what has returned, oldest
first, and a client's number is the length of `log` at its call. -/
structure Net (C P S Req Rep : Type) where
  waiting : C → Option (Req × Nat)
  requests : List (C × Req)
  replies : List (C × Rep)
  server : P → S
  log : List (Served C Req Rep)
  history : List (Returned C Req Rep)

/-- Nothing is in flight. -/
def Net.start (server : P → S) : Net C P S Req Rep where
  waiting := fun _ => none
  requests := []
  replies := []
  server := server
  log := []
  history := []

section Steps

variable [DecidableEq C] [DecidableEq P] (service : Service P S Req Rep)

/-- The steps of the parties and of the network; a client calls what it may. -/
inductive Step (may : Net C P S Req Rep → C → Req → Prop) :
    Net C P S Req Rep → Net C P S Req Rep → Prop where
  | call {net : Net C P S Req Rep} (c : C) (req : Req) (idle : net.waiting c = none)
      (allowed : may net c req) :
      Step may net { net with
        waiting := Function.update net.waiting c (some (req, net.log.length))
        requests := net.requests ++ [(c, req)] }
  | serve {net : Net C P S Req Rep} {before after : List (C × Req)} (c : C) (req : Req)
      (rep : Rep) (next : S) (arrives : net.requests = before ++ (c, req) :: after)
      (served : service.serve (service.route req) (net.server (service.route req)) req rep next) :
      Step may net { net with
        requests := before ++ after
        replies := net.replies ++ [(c, rep)]
        server := Function.update net.server (service.route req) next
        log := net.log ++ [⟨c, req, rep⟩] }
  | answer {net : Net C P S Req Rep} {before after : List (C × Rep)} (c : C) (rep : Rep)
      (req : Req) (called : Nat) (arrives : net.replies = before ++ (c, rep) :: after)
      (waits : net.waiting c = some (req, called)) :
      Step may net { net with
        waiting := Function.update net.waiting c none
        replies := before ++ after
        history := net.history ++ [⟨⟨c, req, rep⟩, called, net.log.length⟩] }
  | loseRequest {net : Net C P S Req Rep} {before after : List (C × Req)} (m : C × Req)
      (lost : net.requests = before ++ m :: after) :
      Step may net { net with requests := before ++ after }
  | loseReply {net : Net C P S Req Rep} {before after : List (C × Rep)} (m : C × Rep)
      (lost : net.replies = before ++ m :: after) :
      Step may net { net with replies := before ++ after }

variable {service} in
/-- Services that may do more make the same steps. -/
theorem Step.mono {other : Service P S Req Rep} {may : Net C P S Req Rep → C → Req → Prop}
    {net after : Net C P S Req Rep} (step : Step service may net after)
    (route : other.route = service.route)
    (serve : ∀ c req rep next, (c, req) ∈ net.requests →
      service.serve (service.route req) (net.server (service.route req)) req rep next →
      other.serve (service.route req) (net.server (service.route req)) req rep next) :
    Step other may net after := by
  obtain ⟨otherRoute, otherServe⟩ := other
  cases route
  cases step with
  | call c req idle allowed => exact .call c req idle allowed
  | serve c req rep next arrives served =>
      refine .serve c req rep next arrives (serve c req rep next ?_ served)
      rw [arrives]
      exact List.mem_append_right _ List.mem_cons_self
  | answer c rep req called arrives waits => exact .answer c rep req called arrives waits
  | loseRequest m lost => exact .loseRequest m lost
  | loseReply m lost => exact .loseReply m lost

variable {service} in
/-- What no service undoes, no step undoes. -/
theorem Step.kept {may : Net C P S Req Rep → C → Req → Prop} {net after : Net C P S Req Rep}
    (step : Step service may net after) {R : S → S → Prop} (refl : ∀ s, R s s)
    (served : ∀ p s req rep next, service.serve p s req rep next → R s next) (p : P) :
    R (net.server p) (after.server p) := by
  cases step with
  | serve c req rep next _ hserve =>
      rcases eq_or_ne p (service.route req) with rfl | hne
      · simpa only [Function.update_self] using served _ _ _ _ _ hserve
      · simpa only [Function.update_of_ne hne] using refl _
  | call c req idle allowed => exact refl _
  | answer c rep req called arrives waits => exact refl _
  | loseRequest m lost => exact refl _
  | loseReply m lost => exact refl _

/-- The states that a run from the start reaches. -/
inductive Reaches (may : Net C P S Req Rep → C → Req → Prop) (server : P → S) :
    Net C P S Req Rep → Prop where
  | start : Reaches may server (.start server)
  | step {net next : Net C P S Req Rep} (reaches : Reaches may server net)
      (step : Step service may net next) : Reaches may server next

end Steps

/-! ## One call after the other -/

section Quiet

variable [DecidableEq C] [DecidableEq P]

/-- Nothing is in flight, and what was served has returned. -/
structure Net.Quiet (net : Net C P S Req Rep) (done : List Req) : Prop where
  waiting : ∀ c, net.waiting c = none
  requests : net.requests = []
  replies : net.replies = []
  log : net.log.map Served.req = done
  history : net.history.map (fun call => call.req) = done

omit [DecidableEq C] [DecidableEq P] in
theorem quiet_start (server : P → S) : (Net.start server : Net C P S Req Rep).Quiet [] := by
  constructor
  case waiting => exact fun c => rfl
  case requests => rfl
  case replies => rfl
  case log => rfl
  case history => rfl

/-- A client calls, is served and gets its answer. -/
theorem Net.Quiet.call {net : Net C P S Req Rep} {done : List Req} (quiet : net.Quiet done)
    {service : Service P S Req Rep} {may : Net C P S Req Rep → C → Req → Prop} {c : C} {req : Req}
    {rep : Rep} {next : S} (allowed : may net c req)
    (served : service.serve (service.route req) (net.server (service.route req)) req rep next) :
    ∃ asked answered returned, Step service may net asked ∧
      asked.requests = [(c, req)] ∧ asked.server = net.server ∧
      Step service may asked answered ∧ Step service may answered returned ∧
      returned.Quiet (done ++ [req]) ∧
      returned.server = Function.update net.server (service.route req) next := by
  have hrequests : net.requests ++ [(c, req)] = [] ++ (c, req) :: [] := by
    rw [quiet.requests]
  have hreplies : net.replies ++ [(c, rep)] = [] ++ (c, rep) :: [] := by
    rw [quiet.replies]
  refine ⟨_, _, _, .call c req (quiet.waiting c) allowed, hrequests, rfl,
    .serve c req rep next hrequests served,
    .answer c rep req net.log.length hreplies (Function.update_self ..), ?_, rfl⟩
  constructor
  case waiting =>
    intro d
    rcases eq_or_ne d c with rfl | hne
    · exact Function.update_self ..
    · dsimp only
      rw [Function.update_of_ne hne, Function.update_of_ne hne]
      exact quiet.waiting d
  case requests => rfl
  case replies => rfl
  case log => rw [List.map_append, quiet.log]; rfl
  case history => rw [List.map_append, quiet.history]; rfl

end Quiet

/-! ## One client -/

section Client

variable [DecidableEq C]

/-- The messages of a client. -/
def messagesOf {M : Type} (c : C) (messages : List (C × M)) : List M :=
  messages.filterMap fun m => if m.1 = c then some m.2 else none

/-- What was served for a client. -/
def servedOf (c : C) (log : List (Served C Req Rep)) : List (Served C Req Rep) :=
  log.filter fun entry => entry.client = c

/-- What a client got. -/
def returnedOf (c : C) (history : List (Returned C Req Rep)) : List (Served C Req Rep) :=
  servedOf c (history.map Returned.toServed)

/-- Where a client's current call is: not there, on its way to the service, or served. -/
inductive Stage (net : Net C P S Req Rep) (c : C) : Prop where
  | idle (waiting : net.waiting c = none) (requests : messagesOf c net.requests = [])
      (replies : messagesOf c net.replies = [])
      (served : servedOf c net.log = returnedOf c net.history)
  | asked (req : Req) (called : Nat) (waiting : net.waiting c = some (req, called))
      (stamp : called ≤ net.log.length)
      (requests : messagesOf c net.requests = [req] ∨ messagesOf c net.requests = [])
      (replies : messagesOf c net.replies = [])
      (served : servedOf c net.log = returnedOf c net.history)
  | answered (req : Req) (called : Nat) (rep : Rep) (waiting : net.waiting c = some (req, called))
      (requests : messagesOf c net.requests = [])
      (replies : messagesOf c net.replies = [rep] ∨ messagesOf c net.replies = [])
      (point : ∃ k, called ≤ k ∧ net.log[k]? = some ⟨c, req, rep⟩)
      (served : servedOf c net.log = returnedOf c net.history ++ [⟨c, req, rep⟩])

variable {M : Type} {c d : C}

@[simp]
theorem messagesOf_nil : messagesOf c ([] : List (C × M)) = [] := rfl

@[simp]
theorem messagesOf_append (first second : List (C × M)) :
    messagesOf c (first ++ second) = messagesOf c first ++ messagesOf c second :=
  List.filterMap_append

@[simp]
theorem messagesOf_cons_self (m : M) (rest : List (C × M)) :
    messagesOf c ((c, m) :: rest) = m :: messagesOf c rest := by
  simp [messagesOf]

theorem messagesOf_cons_of_ne (hne : d ≠ c) (m : M) (rest : List (C × M)) :
    messagesOf c ((d, m) :: rest) = messagesOf c rest := by
  simp [messagesOf, hne]

@[simp]
theorem servedOf_append (first second : List (Served C Req Rep)) :
    servedOf c (first ++ second) = servedOf c first ++ servedOf c second :=
  List.filter_append ..

theorem servedOf_singleton (entry : Served C Req Rep) :
    servedOf c [entry] = if entry.client = c then [entry] else [] := by
  by_cases hc : entry.client = c <;> simp [servedOf, hc]

@[simp]
theorem returnedOf_append (first second : List (Returned C Req Rep)) :
    returnedOf c (first ++ second) = returnedOf c first ++ returnedOf c second := by
  simp [returnedOf]

theorem returnedOf_singleton (call : Returned C Req Rep) :
    returnedOf c [call] = if call.client = c then [call.toServed] else [] :=
  servedOf_singleton call.toServed

/-- A step that is not about a client leaves the stage of its call. -/
theorem Stage.frame {net next : Net C P S Req Rep} (stage : Stage net c)
    (hwaiting : next.waiting c = net.waiting c)
    (hrequests : messagesOf c next.requests = messagesOf c net.requests)
    (hreplies : messagesOf c next.replies = messagesOf c net.replies)
    (hlog : ∃ more, next.log = net.log ++ more ∧ servedOf c more = [])
    (hhistory : returnedOf c next.history = returnedOf c net.history) : Stage next c := by
  obtain ⟨more, hmore, hother⟩ := hlog
  have hserved : servedOf c next.log = servedOf c net.log := by
    rw [hmore, servedOf_append, hother, List.append_nil]
  cases stage with
  | idle waiting requests replies served =>
      exact .idle (hwaiting.trans waiting) (hrequests.trans requests) (hreplies.trans replies)
        (by rw [hserved, served, hhistory])
  | asked req called waiting stamp requests replies served =>
      refine .asked req called (hwaiting.trans waiting) ?_ (by rwa [hrequests])
        (hreplies.trans replies) (by rw [hserved, served, hhistory])
      rw [hmore, List.length_append]
      omega
  | answered req called rep waiting requests replies point served =>
      obtain ⟨k, hk, hentry⟩ := point
      refine .answered req called rep (hwaiting.trans waiting) (hrequests.trans requests)
        (by rwa [hreplies]) ⟨k, hk, ?_⟩ (by rw [hserved, served, hhistory])
      rw [hmore, List.getElem?_append_left (List.getElem?_eq_some_iff.mp hentry).1, hentry]

/-- The only message of a client. -/
theorem messagesOf_arrived {messages before after : List (C × M)} {m m' : M}
    (arrives : messages = before ++ (c, m) :: after)
    (only : messagesOf c messages = [m'] ∨ messagesOf c messages = []) :
    m = m' ∧ messagesOf c (before ++ after) = [] := by
  rw [arrives, messagesOf_append, messagesOf_cons_self] at only
  rcases only with hone | hnone
  · obtain ⟨hbefore, hsingle⟩ | ⟨hsingle, -⟩ := List.append_eq_singleton_iff.mp hone
    · obtain ⟨rfl, hafter⟩ := List.cons.inj hsingle
      exact ⟨rfl, by rw [messagesOf_append, hbefore, hafter]; rfl⟩
    · cases hbad : messagesOf c after <;> simp_all
  · simp at hnone

theorem messagesOf_removed {messages before after : List (C × M)} {m : C × M}
    (lost : messages = before ++ m :: after) (hne : m.1 ≠ c) :
    messagesOf c (before ++ after) = messagesOf c messages := by
  obtain ⟨d, m⟩ := m
  rw [lost, messagesOf_append, messagesOf_append, messagesOf_cons_of_ne hne]

/-- No message of the client arrives when it has none. -/
theorem messagesOf_ne_nil {messages before after : List (C × M)} {m : M}
    (arrives : messages = before ++ (c, m) :: after) : messagesOf c messages ≠ [] := by
  rw [arrives, messagesOf_append, messagesOf_cons_self]
  simp

end Client

/-! ## All clients -/

section Run

variable [DecidableEq C] [DecidableEq P] {service : Service P S Req Rep}
  {may : Net C P S Req Rep → C → Req → Prop} {net next : Net C P S Req Rep}

/-- Each step moves the call of one client on. -/
theorem Stage.step (stages : ∀ c, Stage net c) (step : Step service may net next) :
    ∀ c, Stage next c := by
  intro d
  have stage := stages d
  cases step with
  | call c req idle allowed =>
      by_cases hc : c = d
      · subst hc
        cases stage with
        | idle waiting requests replies served =>
            refine .asked req net.log.length (Function.update_self ..) (Nat.le_refl _) (Or.inl ?_) replies
              served
            rw [messagesOf_append, requests, messagesOf_cons_self]
            rfl
        | asked _ _ waiting => rw [idle] at waiting; cases waiting
        | answered _ _ _ waiting => rw [idle] at waiting; cases waiting
      · refine stage.frame (Function.update_of_ne (Ne.symm hc) ..) ?_ rfl ⟨[], by simp, rfl⟩ rfl
        rw [messagesOf_append, messagesOf_cons_of_ne hc, messagesOf_nil, List.append_nil]
  | serve c req rep state arrives served =>
      by_cases hc : c = d
      · subst hc
        cases stage with
        | idle _ requests => exact absurd requests (messagesOf_ne_nil arrives)
        | answered _ _ _ _ requests => exact absurd requests (messagesOf_ne_nil arrives)
        | asked req' called waiting stamp requests replies hserved =>
            obtain ⟨rfl, hrest⟩ := messagesOf_arrived arrives requests
            refine .answered req called rep waiting hrest (Or.inl ?_)
              ⟨net.log.length, stamp, List.getElem?_concat_length ..⟩ ?_
            · rw [messagesOf_append, replies, messagesOf_cons_self]
              rfl
            · rw [servedOf_append, hserved, servedOf_singleton, if_pos rfl]
      · refine stage.frame rfl (messagesOf_removed arrives hc) ?_ ⟨[⟨c, req, rep⟩], rfl, ?_⟩
          rfl
        · rw [messagesOf_append, messagesOf_cons_of_ne hc, messagesOf_nil, List.append_nil]
        · rw [servedOf_singleton, if_neg hc]
  | answer c rep req called arrives waits =>
      by_cases hc : c = d
      · subst hc
        cases stage with
        | idle waiting => rw [waits] at waiting; cases waiting
        | asked _ _ _ _ _ replies => exact absurd replies (messagesOf_ne_nil arrives)
        | answered req' called' rep' waiting requests replies point served =>
            obtain ⟨rfl, rfl⟩ := Prod.mk.inj (Option.some.inj (waits.symm.trans waiting))
            obtain ⟨rfl, hrest⟩ := messagesOf_arrived arrives replies
            refine .idle (Function.update_self ..) requests hrest ?_
            rw [served, returnedOf_append, returnedOf_singleton, if_pos rfl]
      · refine stage.frame (Function.update_of_ne (Ne.symm hc) ..) rfl (messagesOf_removed arrives hc)
          ⟨[], by simp, rfl⟩ ?_
        rw [returnedOf_append, returnedOf_singleton, if_neg hc, List.append_nil]
  | loseRequest m lost =>
      obtain ⟨c, m⟩ := m
      by_cases hc : c = d
      · subst hc
        cases stage with
        | idle _ requests => exact absurd requests (messagesOf_ne_nil lost)
        | answered _ _ _ _ requests => exact absurd requests (messagesOf_ne_nil lost)
        | asked req called waiting stamp requests replies served =>
            exact .asked req called waiting stamp (Or.inr (messagesOf_arrived lost requests).2)
              replies served
      · exact stage.frame rfl (messagesOf_removed lost hc) rfl ⟨[], by simp, rfl⟩ rfl
  | loseReply m lost =>
      obtain ⟨c, m⟩ := m
      by_cases hc : c = d
      · subst hc
        cases stage with
        | idle _ _ replies => exact absurd replies (messagesOf_ne_nil lost)
        | asked _ _ _ _ _ replies => exact absurd replies (messagesOf_ne_nil lost)
        | answered req called rep waiting requests replies point served =>
            exact .answered req called rep waiting requests
              (Or.inr (messagesOf_arrived lost replies).2) point served
      · exact stage.frame rfl rfl (messagesOf_removed lost hc) ⟨[], by simp, rfl⟩ rfl

theorem stage_of_reaches {server : P → S} (reaches : Reaches service may server net) :
    ∀ c, Stage net c := by
  induction reaches with
  | start => exact fun c => .idle rfl rfl rfl rfl
  | step _ step ih => exact Stage.step ih step

/-- A call is answered between its start and its end. -/
def Stamped (net : Net C P S Req Rep) : Prop :=
  ∀ call ∈ net.history, ∃ k, call.called ≤ k ∧ k < call.returned ∧
    call.returned ≤ net.log.length ∧ net.log[k]? = some call.toServed

theorem stamped_of_reaches {server : P → S} (reaches : Reaches service may server net) :
    Stamped net := by
  induction reaches with
  | start => exact fun call hcall => nomatch hcall
  | step before step ih =>
      cases step with
      | call c req idle allowed => exact ih
      | serve c req rep state arrives served =>
          intro call hcall
          obtain ⟨k, hk, hlt, hle, hentry⟩ := ih call hcall
          refine ⟨k, hk, hlt, ?_, ?_⟩
          · rw [List.length_append]
            omega
          · rw [List.getElem?_append_left (by omega), hentry]
      | answer c rep req called arrives waits =>
          intro call hcall
          rcases List.mem_append.mp hcall with hold | hnew
          · exact ih call hold
          · obtain rfl := List.mem_singleton.mp hnew
            cases stage_of_reaches before c with
            | idle waiting => rw [waits] at waiting; cases waiting
            | asked _ _ _ _ _ replies => exact absurd replies (messagesOf_ne_nil arrives)
            | answered req' called' rep' waiting requests replies point served =>
                obtain ⟨rfl, rfl⟩ := Prod.mk.inj (Option.some.inj (waits.symm.trans waiting))
                obtain ⟨rfl, -⟩ := messagesOf_arrived arrives replies
                obtain ⟨k, hk, hentry⟩ := point
                exact ⟨k, hk, (List.getElem?_eq_some_iff.mp hentry).1, Nat.le_refl _, hentry⟩
      | loseRequest m lost => exact ih
      | loseReply m lost => exact ih

/-- Two calls of one client do not overlap. -/
def Apart (first second : Returned C Req Rep) : Prop :=
  first.client = second.client →
    first.returned ≤ second.called ∨ second.returned ≤ first.called

instance : Std.Symm (fun first second : Returned C Req Rep => Apart first second) where
  symm _ _ apart hclient := (apart hclient.symm).symm

/-- A client calls again after its call has returned. -/
structure Sequential (net : Net C P S Req Rep) : Prop where
  pairs : net.history.Pairwise fun first second =>
    first.client = second.client → first.returned ≤ second.called
  waiting : ∀ c req called, net.waiting c = some (req, called) →
    ∀ call ∈ net.history, call.client = c → call.returned ≤ called

theorem sequential_of_reaches {server : P → S} (reaches : Reaches service may server net) :
    Sequential net := by
  induction reaches with
  | start => exact ⟨List.Pairwise.nil, fun _ _ _ _ call hcall => nomatch hcall⟩
  | step before step ih =>
      cases step with
      | call c req idle allowed =>
          refine ⟨ih.pairs, fun d req' called waits call hcall hclient => ?_⟩
          by_cases hc : d = c
          · subst hc
            have hstamp : some (req, _) = some (req', called) :=
              (Function.update_self d _ _).symm.trans waits
            obtain ⟨-, rfl⟩ := Prod.mk.inj (Option.some.inj hstamp)
            obtain ⟨-, -, -, hle, -⟩ := stamped_of_reaches before call hcall
            exact hle
          · exact ih.waiting d req' called ((Function.update_of_ne hc ..).symm.trans waits) call
              hcall hclient
      | serve c req rep state arrives served => exact ⟨ih.pairs, ih.waiting⟩
      | answer c rep req called arrives waits =>
          constructor
          case pairs =>
            refine List.pairwise_append.mpr ⟨ih.pairs, List.pairwise_singleton _ _, ?_⟩
            intro first hfirst second hsecond hclient
            obtain rfl := List.mem_singleton.mp hsecond
            exact ih.waiting c req called waits first hfirst hclient
          case waiting =>
            intro d req' called' waits' call hcall hclient
            by_cases hc : d = c
            · subst hc
              cases (Function.update_self ..).symm.trans waits'
            · have hwaits := (Function.update_of_ne hc ..).symm.trans waits'
              rcases List.mem_append.mp hcall with hold | hnew
              · exact ih.waiting d req' called' hwaits call hold hclient
              · obtain rfl := List.mem_singleton.mp hnew
                exact absurd hclient.symm hc
      | loseRequest m lost => exact ⟨ih.pairs, ih.waiting⟩
      | loseReply m lost => exact ⟨ih.pairs, ih.waiting⟩

/-- Every returned call has a point of its own between its start and its end, at which it
was served. -/
theorem points_of_reaches {server : P → S} (reaches : Reaches service may server net) :
    ∃ point : Returned C Req Rep → Nat, Set.InjOn point {call | call ∈ net.history} ∧
      ∀ call ∈ net.history, call.called ≤ point call ∧ point call < call.returned ∧
        net.log[point call]? = some call.toServed := by
  have stamped := stamped_of_reaches reaches
  choose! point hcalled hreturned _ hentry using stamped
  refine ⟨point, ?_, fun call hcall => ⟨hcalled call hcall, hreturned call hcall,
    hentry call hcall⟩⟩
  intro first hfirst second hsecond heq
  by_contra hne
  have hsame : first.toServed = second.toServed :=
    Option.some.inj ((hentry first hfirst).symm.trans (heq ▸ hentry second hsecond))
  have hpairs : net.history.Pairwise fun first second => Apart first second :=
    (sequential_of_reaches reaches).pairs.imp fun hpair hclient => Or.inl (hpair hclient)
  have hapart := hpairs.forall hfirst hsecond hne (congrArg Served.client hsame)
  have hfirstCalled := hcalled first hfirst
  have hfirstReturned := hreturned first hfirst
  have hsecondCalled := hcalled second hsecond
  have hsecondReturned := hreturned second hsecond
  omega

end Run

/-! ## The order of service -/

section Order

variable [DecidableEq P]

/-- The services go through the served requests one after another; each is ready when it
is served. -/
inductive Replays (service : Service P S Req Rep) (Ready : List (Served C Req Rep) → Req → Prop)
    (server : P → S) : List (Served C Req Rep) → (P → S) → Prop where
  | start : Replays service Ready server [] server
  | served {log : List (Served C Req Rep)} {states : P → S}
      (replays : Replays service Ready server log states) (c : C) (req : Req) (rep : Rep) (next : S) (ready : Ready log req)
      (served : service.serve (service.route req) (states (service.route req)) req rep next) :
      Replays service Ready server (log ++ [⟨c, req, rep⟩])
        (Function.update states (service.route req) next)

variable [DecidableEq C] {service : Service P S Req Rep}
  {may : Net C P S Req Rep → C → Req → Prop} {net : Net C P S Req Rep}
  {Ready : List (Served C Req Rep) → Req → Prop}

/-- What a client may call is ready, and requests in flight stay ready. -/
theorem replays_of_reaches {server : P → S}
    (ready_of_may : ∀ {net : Net C P S Req Rep} {c req}, Reaches service may server net →
      may net c req → Ready net.log req)
    (ready_append : ∀ {log more req}, Ready log req → Ready (log ++ more) req)
    (reaches : Reaches service may server net) :
    Replays service Ready server net.log net.server ∧
      ∀ m ∈ net.requests, Ready net.log m.2 := by
  induction reaches with
  | start => exact ⟨.start, fun m hm => nomatch hm⟩
  | step before step ih =>
      obtain ⟨replays, ready⟩ := ih
      cases step with
      | call c req idle allowed =>
          refine ⟨replays, fun m hm => ?_⟩
          rcases List.mem_append.mp hm with hold | hnew
          · exact ready m hold
          · obtain rfl := List.mem_singleton.mp hnew
            have hready := ready_of_may before allowed
            exact hready
      | serve c req rep state arrives served =>
          refine ⟨replays.served c req rep state (ready (c, req) (by simp [arrives])) served,
            fun m hm => ready_append (ready m ?_)⟩
          rw [arrives]
          rcases List.mem_append.mp hm with hbefore | hafter
          · exact List.mem_append_left _ hbefore
          · exact List.mem_append_right _ (List.mem_cons_of_mem _ hafter)
      | answer c rep req called arrives waits => exact ⟨replays, ready⟩
      | loseRequest m lost =>
          refine ⟨replays, fun m' hm => ready m' ?_⟩
          rw [lost]
          rcases List.mem_append.mp hm with hbefore | hafter
          · exact List.mem_append_left _ hbefore
          · exact List.mem_append_right _ (List.mem_cons_of_mem _ hafter)
      | loseReply m lost => exact ⟨replays, ready⟩

end Order

end FatBTree.Protocol
