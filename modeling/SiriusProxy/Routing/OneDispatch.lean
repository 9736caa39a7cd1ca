import SiriusProxy.Routing.Quiet
import SiriusProxy.Routing.Router

namespace SiriusProxy.Routing
variable {V : Type} {L : Library V} {config : Config} {region : Region} {request : Request} {route : Route}

/-- What a caller relies on: a query whose connection failed was never delivered, and nothing but a
peer answers with a pre-dispatch status. -/
structure Trusted (network : Network) : Prop where
  connect : ∀ isTimeout delivered, network = .failed true isTimeout delivered → delivered = false
  statuses : ∀ status delivered, network = .replaced status delivered → status ∉ preDispatchStatuses

/-- Everything a peer can answer. -/
theorem query_cases (L : Library V) (request : Request) (node : PeerNode V) :
    (∃ status, query L request node = ((status, none), [])) ∨
      (∃ mismatch : Reply V, query L request node = ((200, some mismatch), [])) ∨
      ∃ global route result trace,
        callPeer global route request.identity.protocolSha256 node.call [] = (result, trace) ∧
          query L request node = ((200, some (reply request node result)), trace) := by
  unfold query
  split
  · exact Or.inl ⟨_, rfl⟩
  split
  · exact Or.inl ⟨_, rfl⟩
  split
  · exact Or.inl ⟨_, rfl⟩
  · exact Or.inl ⟨_, rfl⟩
  · split
    · exact Or.inr (Or.inl ⟨_, rfl⟩)
    · exact Or.inr (Or.inr ⟨_, _, _, _, rfl, rfl⟩)

theorem refuses_of_failure {e : AppError}
    (before : (Outcome.failure (Failure.ofError e) : Outcome V).notExecuted = true) : refuses e = true := by
  cases e <;> first | rfl | cases before

/-- A typed pre-dispatch failure of a peer is true. -/
theorem reply_before {global : Bool} {node : PeerNode V} {result : Except AppError V} {trace : List Event}
    (ran : callPeer global route request.identity.protocolSha256 node.call [] = (result, trace))
    (before : (reply request node result).outcome.notExecuted = true) : Quiet trace := by
  cases result with
  | ok data => cases before
  | error e => exact callPeer_refused ran (refuses_of_failure before)

/-- The answer a client accepts is the one the peer gave. -/
theorem accept_ok {answer : Nat × Option (Reply V)} {r : Reply V} (accepted : accept L request answer = .ok r) :
    answer.2 = some r := by
  obtain ⟨status, body⟩ := answer
  unfold accept at accepted
  simp only at accepted
  split at accepted
  · cases accepted
  split at accepted
  · cases accepted
  split at accepted
  · cases accepted
  split at accepted
  · split at accepted
    · cases accepted
      rfl
    · cases accepted
  · split at accepted
    · cases accepted
      rfl
    · cases accepted
  · cases accepted
    rfl

/-- A reply is refused for its status or as no reply of the protocol; neither says that the call was executed or
was not. -/
theorem accept_error {answer : Nat × Option (Reply V)} {e : TransportError}
    (failed : accept L request answer = .error e) : e = .status answer.1 ∧ answer.1 ≠ 200 ∨ e = .protocol := by
  obtain ⟨status, body⟩ := answer
  unfold accept at failed
  simp only at failed
  split at failed
  · rename_i other
    cases failed
    exact Or.inl ⟨rfl, other⟩
  refine Or.inr ?_
  split at failed
  · cases failed
    rfl
  split at failed
  · cases failed
    rfl
  split at failed
  · split at failed
    · cases failed
    · cases failed
      rfl
  · split at failed
    · cases failed
    · cases failed
      rfl
  · cases failed

/-- A transport error that proves non-execution is right about the peer. -/
theorem received_before {network : Network} {node : PeerNode V} {e : TransportError} (trusted : Trusted network)
    (failed : received L request (query L request node).1 network = .error e)
    (before : (e.definitelyNotSent || e.rejectedBeforeDispatch) = true) :
    Quiet (if network.delivered then (query L request node).2 else []) := by
  have undelivered : network.delivered = false →
      Quiet (if network.delivered then (query L request node).2 else []) := by
    intro lost
    rw [lost]
    exact quiet_nil
  cases network with
  | failed isConnect isTimeout delivered =>
    cases isConnect with
    | true => exact undelivered (trusted.connect isTimeout delivered rfl)
    | false => cases isTimeout <;> cases failed <;> cases before
  | expired delivered =>
    cases failed
    cases before
  | replaced status delivered =>
    by_cases fine : status = 200
    · rw [received, if_pos fine] at failed
      cases failed
      cases before
    · rw [received, if_neg fine] at failed
      cases failed
      exact absurd (List.contains_iff_mem.mp before) (trusted.statuses status delivered rfl)
  | garbled =>
    cases failed
    cases before
  | intact =>
    change Quiet (query L request node).2
    rcases accept_error failed with ⟨rfl, other⟩ | rfl
    · rcases query_cases L request node with ⟨status, answer⟩ | ⟨mismatch, answer⟩ | ⟨_, _, _, _, -, answer⟩
      · rw [answer]
        exact quiet_nil
      · rw [answer] at other
        exact absurd rfl other
      · rw [answer] at other
        exact absurd rfl other
    · cases before

/-- A reply that says it was not executed comes from the node itself, as the network is trusted not to make replies
up; and what the node says of itself is true. -/
theorem received_reply {network : Network} {node : PeerNode V} {r : Reply V}
    (accepted : received L request (query L request node).1 network = .ok r) (before : r.outcome.notExecuted = true) :
    Quiet (if network.delivered then (query L request node).2 else []) := by
  cases network with
  | intact =>
    change Quiet (query L request node).2
    have body := accept_ok accepted
    rcases query_cases L request node with ⟨status, answer⟩ | ⟨mismatch, answer⟩ | ⟨_, _, _, _, ran, answer⟩
    · rw [answer]
      exact quiet_nil
    · rw [answer]
      exact quiet_nil
    · rw [answer] at body ⊢
      cases body
      exact reply_before ran before
  | _ => cases accepted

/-- Either nothing is submitted, or the peer's answer goes through the network. -/
theorem clientCall_cases (L : Library V) (region : Region) (request : Request) (late : Bool) (network : Network)
    (node : PeerNode V) :
    (∃ e, clientCall L region request late network node = (.error e, [])) ∨
      clientCall L region request late network node =
        (received L request (query L request node).1 network,
          if network.delivered then (query L request node).2 else []) := by
  unfold clientCall
  split
  · exact Or.inl ⟨_, rfl⟩
  split
  · exact Or.inl ⟨_, rfl⟩
  split
  · exact Or.inl ⟨_, rfl⟩
  split
  · exact Or.inl ⟨_, rfl⟩
  · exact Or.inr rfl

/-- A remote target whose answer proves non-execution sent nothing. -/
theorem callRemote_quiet {env : TargetEnv V} (trusted : Trusted env.network)
    (before : (callRemote L region request env).2.1 = true) : Quiet (callRemote L region request env).2.2 := by
  unfold callRemote at before ⊢
  rcases clientCall_cases L region request env.late env.network env.node with ⟨e, unsent⟩ | submitted
  · rw [unsent]
    exact quiet_nil
  · rw [submitted] at before ⊢
    cases answer : received L request (query L request env.node).1 env.network with
    | ok r =>
      rw [answer] at before
      exact received_reply answer before
    | error e =>
      rw [answer] at before
      exact received_before trusted answer before

/-- A local call that stops before dispatch has sent nothing on an authenticated route. -/
theorem callLocal_quiet {env : TargetEnv V} (before : (callLocal region request route env).2.1 = true) :
    Quiet (callLocal region request route env).2.2 := by
  have honest : Honest (timeoutAt env.cut
      (callPeer region.isGlobal route request.identity.protocolSha256 env.call)) :=
    timeoutAt_honest (callSelected_honest _ _)
  unfold callLocal at before ⊢
  cases ran : timeoutAt env.cut (callPeer region.isGlobal route request.identity.protocolSha256 env.call) [] with
  | mk result trace =>
    rw [ran] at before
    cases result with
    | ok value => cases before
    | error e =>
      refine (honest [] quiet_nil).2 e trace ran ?_
      cases e <;> first | rfl | cases before

/-- The same for either kind of target. -/
theorem callTarget_quiet {target : Target} {env : TargetEnv V} (trusted : Trusted env.network)
    (before : (callTarget L region request route target env).2.1 = true) :
    Quiet (callTarget L region request route target env).2.2 := by
  unfold callTarget at before ⊢
  split at before
  · rename_i remote
    rw [if_pos remote]
    exact callRemote_quiet trusted before
  · rename_i here
    rw [if_neg here]
    exact callLocal_quiet before

def Visit.dispatched (v : Visit) : Bool := v.trace.any Event.dispatches

theorem dispatched_of_quiet {v : Visit} (quiet : Quiet v.trace) : v.dispatched = false := by
  refine Bool.eq_false_iff.mpr fun dispatched => ?_
  obtain ⟨e, member, sends⟩ := List.any_eq_true.mp dispatched
  rw [quiet e member] at sends
  cases sends

/-- The visits of an authenticated call: all but the last sent nothing, and their places ascend. -/
structure Once (index : Nat) (targets : List Target) (visits : List Visit) : Prop where
  quiet : ∀ before last, visits = before ++ [last] → ∀ v ∈ before, v.dispatched = false
  ascending : (visits.map (·.index)).Pairwise (· < ·)
  from_ : ∀ v ∈ visits, index ≤ v.index ∧ targets[v.index - index]? = some v.target

theorem Once.nil (index : Nat) (targets : List Target) : Once index targets [] := by
  refine ⟨fun before last none => ?_, List.Pairwise.nil, fun v member => absurd member List.not_mem_nil⟩
  exact absurd none.symm (List.append_ne_nil_of_right_ne_nil _ (List.cons_ne_nil _ _))

/-- A call that ends at a target has visited it once. -/
theorem Once.single {target : Target} {rest : List Target} {v : Visit} {index : Nat} (here : v.index = index)
    (same : v.target = target) : Once index (target :: rest) [v] := by
  refine ⟨fun before last one u member => ?_, List.pairwise_singleton _ _, fun u member => ?_⟩
  · cases before with
    | nil => exact absurd member List.not_mem_nil
    | cons w more =>
      rw [List.cons_append, List.cons.injEq] at one
      exact absurd one.2.symm (List.append_ne_nil_of_right_ne_nil _ (List.cons_ne_nil _ _))
  · rw [List.mem_singleton.mp member, here, same]
    exact ⟨Nat.le_refl _, by rw [Nat.sub_self]; rfl⟩

/-- A target that is passed over for its open breaker is not visited. -/
theorem Once.skip {target : Target} {rest : List Target} {visits : List Visit} {index : Nat}
    (once : Once (index + 1) rest visits) : Once index (target :: rest) visits := by
  refine ⟨once.quiet, once.ascending, fun v member => ?_⟩
  obtain ⟨later, found⟩ := once.from_ v member
  refine ⟨Nat.le_of_succ_le later, ?_⟩
  have place : v.index - index = v.index - (index + 1) + 1 := by omega
  rw [place, List.getElem?_cons_succ]
  exact found

/-- A target that is left for the next one has sent nothing. -/
theorem Once.cons {target : Target} {rest : List Target} {visits : List Visit} {v : Visit} {index : Nat}
    (once : Once (index + 1) rest visits) (here : v.index = index) (same : v.target = target)
    (silent : v.dispatched = false) : Once index (target :: rest) (v :: visits) := by
  refine ⟨fun before last split u member => ?_, ?_, fun u member => ?_⟩
  · cases before with
    | nil => exact absurd member List.not_mem_nil
    | cons w more =>
      rw [List.cons_append, List.cons.injEq] at split
      obtain ⟨rfl, split⟩ := split
      rcases List.mem_cons.mp member with rfl | member
      · exact silent
      · exact once.quiet more last split u member
  · rw [List.map_cons, List.pairwise_cons]
    refine ⟨fun place member => ?_, once.ascending⟩
    obtain ⟨u, among, rfl⟩ := List.mem_map.mp member
    rw [here]
    exact (once.from_ u among).1
  · rcases List.mem_cons.mp member with rfl | member
    · rw [here, same]
      exact ⟨Nat.le_refl _, by rw [Nat.sub_self]; rfl⟩
    · exact once.skip.from_ u member

/-- The loop over the targets visits each at most once and in order, and goes on only from one that was quiet. By
induction on the targets. -/
theorem callTargets_once {envs : Nat → TargetEnv V} {index : Nat} {targets : List Target} {last : Except AppError V}
    (authenticated : route.authenticated = true) (trusted : ∀ i, Trusted (envs i).network) :
    Once index targets (callTargets L config region request route envs index targets last).2 := by
  induction targets generalizing index last with
  | nil => exact Once.nil _ _
  | cons target rest ih =>
    unfold callTargets
    simp only
    split
    · exact Once.nil _ _
    split
    · exact Once.skip ih
    split
    · exact Once.single rfl rfl
    · rename_i goes
      refine Once.cons ih rfl rfl (dispatched_of_quiet ?_)
      refine callTarget_quiet (trusted index) ?_
      rw [authenticated, Bool.and_true, Bool.or_eq_true, not_or, Bool.not_eq_true', Bool.not_eq_true'] at goes
      simpa using goes.2

/-- Of the visits only the last one may have dispatched. -/
theorem Once.at_most_one {index : Nat} {targets : List Target} {visits : List Visit}
    (once : Once index targets visits) : (visits.filter (·.dispatched)).length ≤ 1 := by
  rcases List.eq_nil_or_concat visits with rfl | ⟨before, last, rfl⟩
  · exact Nat.zero_le _
  · rw [List.concat_eq_append] at once ⊢
    have silent : before.filter (·.dispatched) = [] := by
      refine List.filter_eq_nil_iff.mpr fun v member => ?_
      rw [once.quiet before last rfl v member]
      decide
    rw [List.filter_append, silent, List.nil_append]
    exact List.length_filter_le _ _

theorem priority_total (a b : Target) :
    (decide (a.priority ≤ b.priority) || decide (b.priority ≤ a.priority)) = true := by
  rw [Bool.or_eq_true, decide_eq_true_eq, decide_eq_true_eq]
  exact Int.le_total _ _

theorem priority_trans (a b c : Target) (first : decide (a.priority ≤ b.priority) = true)
    (second : decide (b.priority ≤ c.priority) = true) : decide (a.priority ≤ c.priority) = true :=
  decide_eq_true (Int.le_trans (of_decide_eq_true first) (of_decide_eq_true second))

/-- The targets are those of the settings, by priority, and in the listed order on ties. -/
theorem sorted_order (config : Config) :
    config.sorted.Perm config.listed ∧ config.sorted.Pairwise (fun a b => a.priority ≤ b.priority) ∧
      ∀ a b, a.priority ≤ b.priority → [a, b].Sublist config.listed → [a, b].Sublist config.sorted := by
  refine ⟨List.mergeSort_perm _ _, ?_, fun a b order listed => ?_⟩
  · exact (List.pairwise_mergeSort priority_trans priority_total _).imp of_decide_eq_true
  · exact List.pair_sublist_mergeSort priority_trans priority_total (decide_eq_true order) listed

/-- One logical call of an authenticated route makes at most one node send the RPC: a target is tried
only after targets that sent nothing, in the order of the sorted list and each at most once. -/
theorem one_dispatch {admitted : Bool} {envs : Nat → TargetEnv V} (authenticated : route.authenticated = true)
    (trusted : ∀ i, Trusted (envs i).network) :
    let visits := (callInner L config region request route admitted envs).2
    (visits.filter (·.dispatched)).length ≤ 1 ∧
      (∀ before last, visits = before ++ [last] → ∀ v ∈ before, v.dispatched = false) ∧
      (visits.map (·.index)).Pairwise (· < ·) ∧
      (∀ v ∈ visits, config.sorted[v.index]? = some v.target) ∧
      config.sorted.Perm config.listed ∧ config.sorted.Pairwise (fun a b => a.priority ≤ b.priority) ∧
      ∀ a b, a.priority ≤ b.priority → [a, b].Sublist config.listed → [a, b].Sublist config.sorted := by
  have once : Once 0 config.sorted (callInner L config region request route admitted envs).2 := by
    unfold callInner
    split
    · exact callTargets_once authenticated trusted
    · exact Once.nil _ _
  exact ⟨once.at_most_one, once.quiet, once.ascending, fun v member => (once.from_ v member).2, sorted_order config⟩

def profileId : String := "0190d3f0-1234-4abc-8def-0123456789ab"

/-- The other crates on the texts of `profileRequest`. -/
def profileLibrary : Library Nat where
  uuid := fun text => text == profileId
  canonicalUuid := fun text => text == profileId
  semver := fun text => text == "1.2.3"
  isObject := fun _ => true
  requestSize := fun _ => 400

def profileRequest : Request where
  requestId := profileId
  identity :=
    { contractVersion := 1
      region := .jp
      environment := "production"
      platform := .ios
      clientVersion := "1.2.3"
      protocolSha256 := String.ofList (List.replicate 64 'a') }
  operation := .profile 7

def profileAnswer : Answer Nat where
  httpOk := true
  contentOk := true
  status := some 0
  code := none
  identityEncoding := true
  framed := true
  decoded := .ok 5
  accepted := true

def profileTransfer : Transfer Nat where
  inTime := true
  encoding := none
  bid := true
  built := true
  response := .answer profileAnswer
  maintenance := false

/-- A node with a JP session; `selection` is its account pool's answer. -/
def profileNode (selection : Option SelectError) : SelectedEnv Nat where
  coalescePublicReads := false
  precheck := .skipped
  flightKey := true
  joinExpired := false
  call :=
    { permit := .passed
      barrier := true
      protocolSha := some profileRequest.identity.protocolSha256
      pool := true
      selection := selection
      cut := none
      protocolRead := true
      version :=
        { need := .fresh
          bootstrapFree := true
          needAgain := .fresh
          path := true
          first := profileTransfer
          rest := []
          cut := none }
      key := .ok none
      cached := none
      filled := none
      guard := .passed
      available := true
      keyAgain := .ok none
      path := true
      auth :=
        { auth := true
          global := false
          configured := true
          refused := false
          deferred := false
          reusable := false
          mutex := true
          exclusive := true
          refusedAgain := false
          reusableAgain := false
          completedMeanwhile := false
          sdkPath := true
          validated := true
          afterDeadline := false
          login := profileTransfer
          parsed := true
          pinned := true }
      identity := 0
      identityCheck := profileTransfer
      transfer := profileTransfer
      furtherAttempts := [] }

/-- The local pool has no account left, and the peer answers. -/
def profileEnv : TargetEnv Nat where
  pastDeadline := false
  health := {}
  now := 0
  finished := 1
  cut := none
  call := profileNode (some .accountUnavailable)
  late := false
  network := .intact
  node :=
    { rejected := none
      identity := .ok profileRequest.identity
      call := profileNode none
      maintenance := false }

def twoNodes : Config where
  targets := [{ name := "peer" }]

theorem twoNodes_sorted : twoNodes.sorted = twoNodes.listed := List.mergeSort_of_pairwise (by decide)

def profileVisits : List Visit :=
  (callInner profileLibrary twoNodes .jp profileRequest .profile true fun _ => profileEnv).2

theorem intact_trusted : Trusted .intact := by
  refine ⟨fun isTimeout delivered failed => ?_, fun status delivered replaced => ?_⟩
  · cases failed
  · cases replaced

theorem one_dispatch_failover :
    profileVisits.map (·.target.name) = ["local", "peer"] ∧ profileVisits.map (·.dispatched) = [false, true] ∧
      (profileVisits.filter (·.dispatched)).length ≤ 1 := by
  have bound : (profileVisits.filter (·.dispatched)).length ≤ 1 := (one_dispatch rfl fun _ => intact_trusted).1
  have visits : profileVisits = (callTargets profileLibrary twoNodes .jp profileRequest .profile
      (fun _ => profileEnv) 0 twoNodes.listed (.error .nodeUnavailable)).2 := by
    rw [profileVisits, callInner, if_pos rfl, twoNodes_sorted]
  refine ⟨?_, ?_, bound⟩
  · rw [visits]
    decide +kernel
  · rw [visits]
    decide +kernel

end SiriusProxy.Routing
