import Mathlib.Tactic.SplitIfs
import SiriusProxy.Routing.Call

open Effect

namespace SiriusProxy.Routing
variable {V α β : Type}

/-- No authenticated RPC was sent. -/
def Quiet (trace : List Event) : Prop := ∀ e ∈ trace, e.dispatches = false

/-- The errors that tell a caller that nothing was dispatched, and the refusal of an open path. -/
def refuses : AppError → Bool
  | .peerIdentityMismatch | .peerAccountUnavailable | .unsupportedRegionOperation | .upstreamUnavailable => true
  | _ => false

/-- A part of a call that sends no authenticated RPC, however it ends. -/
def Silent (m : Call α) : Prop := Triple Quiet m (fun _ => Quiet) (fun _ => Quiet)

/-- A part of a call that refuses only if nothing was dispatched. -/
def Honest (m : Call α) : Prop := Triple Quiet m (fun _ _ => True) (fun e t => refuses e = true → Quiet t)

/-- A part of a call that never refuses. -/
def Final (m : Call α) : Prop := Triple (fun _ => True) m (fun _ _ => True) (fun e _ => refuses e = false)

theorem quiet_nil : Quiet [] := fun _ member => absurd member List.not_mem_nil

theorem Silent.pure (a : α) : Silent (pure a : Call α) := Triple.pure fun _ => id

theorem Silent.throw (e : AppError) : Silent (Prog.throw e : Call α) := Triple.throw fun _ => id

theorem Silent.bind {m : Call α} {f : α → Call β} (first : Silent m) (second : ∀ a, Silent (f a)) :
    Silent (m >>= f) := Triple.bind first second

theorem Silent.honest {m : Call α} (silent : Silent m) : Honest m :=
  silent.weaken (fun _ _ _ => trivial) fun _ _ quiet _ => quiet

theorem Silent.then {m : Call α} {f : α → Call β} (first : Silent m) (second : ∀ a, Honest (f a)) :
    Honest (m >>= f) := by
  refine Triple.bind (Q := fun _ => Quiet) ?_ second
  exact first.weaken (fun _ _ => id) fun _ _ quiet _ => quiet

theorem Final.honest {m : Call α} (final : Final m) : Honest m :=
  final.conseq (fun _ _ => trivial) (fun _ _ => id) fun _ _ never refused => by
    rw [never] at refused
    cases refused

theorem require_silent (holds : Bool) (e : AppError) : Silent (require holds e) := by
  unfold require
  split_ifs
  · exact Silent.pure _
  · exact Silent.throw _

theorem Gate.pass_silent (gate : Gate) : Silent gate.pass := by
  cases gate with
  | passed => exact Silent.pure _
  | timedOut => exact Silent.throw _
  | closed => exact Silent.throw _

theorem cacheKey_silent (key : Except KeyError (Option String)) : Silent (cacheKey key) := by
  cases key with
  | ok key => exact Silent.pure _
  | error e => exact Silent.throw _

theorem emit_silent {e : Event} (plain : e.dispatches = false) : Silent (emit e) := by
  refine Triple.modify fun trace quiet event member => ?_
  rcases List.mem_append.mp member with old | new
  · exact quiet event old
  · rw [List.mem_singleton.mp new]
    exact plain

/-- A deadline can cut a silent part anywhere. -/
theorem timeoutAt_silent {cut : Option Nat} {m : Call α} (silent : Silent m) : Silent (timeoutAt cut m) := by
  cases cut with
  | none => exact silent
  | some n =>
    intro trace quiet
    have all : Quiet (m trace).2 := by
      obtain ⟨done, stopped⟩ := silent trace quiet
      cases run : m trace with
      | mk r t =>
        cases r with
        | ok a => exact done a t run
        | error e => exact stopped e t run
    have part : Quiet ((m trace).2.take (trace.length + n)) := fun e member => all e (List.mem_of_mem_take member)
    refine ⟨?_, ?_⟩
    · rintro a t result
      cases result
    · rintro e t result
      cases result
      exact part

/-- A deadline is never a refusal. -/
theorem timeoutAt_honest {cut : Option Nat} {m : Call α} (honest : Honest m) : Honest (timeoutAt cut m) := by
  cases cut with
  | none => exact honest
  | some n =>
    intro trace _
    refine ⟨fun _ _ _ => trivial, ?_⟩
    rintro e t result refused
    cases result
    cases refused

/-- None of the errors that an answer of the upstream turns into is one of those that stand for no dispatch. By
cases over the statuses and codes that the source tells apart. -/
theorem result_not_refused (r : Response V) {e : AppError} (failed : r.result.1 = .error e) : refuses e = false := by
  cases r with
  | failed proxyRejected =>
    cases failed
    cases proxyRejected <;> rfl
  | broken =>
    cases failed
    rfl
  | tooLarge =>
    cases failed
    rfl
  | answer a =>
    change a.result = .error e at failed
    unfold Answer.result at failed
    split at failed
    · cases failed
      rfl
    split at failed
    · cases failed
      rfl
    split at failed
    · split at failed
      all_goals
        cases failed
        rfl
    split at failed
    · cases failed
      rfl
    split at failed
    · cases failed
      rfl
    split at failed
    · rename_i wrong _
      cases failed
      cases wrong <;> rfl
    split at failed
    · cases failed
    · cases failed
      rfl

/-- The same of an answer that ends the attempts early. -/
theorem blocked_not_refused {global auth : Bool} {route : Route} {t : Transfer V} {e : AppError}
    (blocked : t.blocked global route auth = some e) : refuses e = false := by
  unfold Transfer.blocked at blocked
  split at blocked
  · cases blocked
    rfl
  split at blocked
  · rename_i wrong _
    cases blocked
    cases wrong <;> rfl
  split_ifs at blocked
  all_goals
    cases blocked
    rfl

/-- The result of an RPC is never a refusal. -/
theorem executeOnce_result (global auth : Bool) (route : Route) (t : Transfer V) :
    Triple (fun _ => True) (executeOnce global route auth t)
      (fun r _ => ∀ e, r.1 = .error e → refuses e = false) (fun e _ => refuses e = false) := by
  unfold executeOnce
  split
  · rename_i e blocked
    refine Triple.pure fun _ _ _ failed => ?_
    cases failed
    exact blocked_not_refused blocked
  · refine Triple.bind (Q := fun _ _ => True) (Triple.modify fun _ _ => trivial) fun _ => ?_
    exact Triple.pure fun _ _ _ failed => result_not_refused _ failed

/-- An RPC without credentials is not a dispatch. -/
theorem executeOnce_silent (global auth : Bool) {route : Route} (t : Transfer V)
    (plain : route.authenticated = false) :
    Silent (executeOnce global route auth t) := by
  unfold executeOnce
  split
  · exact Silent.pure _
  · exact Silent.bind (emit_silent plain) fun _ => Silent.pure _

theorem ofExcept_silent (r : Except AppError α) : Silent (Prog.ofExcept r) := by
  cases r with
  | ok a => exact Silent.pure a
  | error e => exact Silent.throw e

/-- The attempts of a route without authentication send no authenticated RPC. -/
theorem execute_silent (global : Bool) {route : Route} (plain : route.authenticated = false) (first : Transfer V)
    (rest : List (Transfer V)) : Silent (execute global route first rest) := by
  induction rest generalizing first with
  | nil =>
    unfold execute
    exact Silent.bind (executeOnce_silent global false first plain) fun _ => ofExcept_silent _
  | cons next more ih =>
    unfold execute
    refine Silent.bind (executeOnce_silent global false first plain) fun answer => ?_
    obtain ⟨result, code⟩ := answer
    simp only
    split_ifs
    · exact ih next
    · exact ofExcept_silent _

theorem attempt_silent {m : Call α} (silent : Silent m) : Silent (Prog.attempt m) :=
  Triple.attempt silent (fun _ _ => id) fun _ _ => id

/-- A version refresh sends the Version route only, which is not authenticated. -/
theorem ensureVersion_silent (global : Bool) (env : VersionEnv V) : Silent (ensureVersion global env) := by
  have version : Silent (execute global .version env.first env.rest) := execute_silent global rfl _ _
  unfold ensureVersion
  split
  · exact Silent.pure _
  · exact Silent.pure _
  · split
    · exact Silent.pure _
    · refine Silent.bind (require_silent _ _) fun _ => ?_
      exact Silent.bind version fun _ => Silent.pure _
    · split_ifs
      · exact Silent.bind (attempt_silent (timeoutAt_silent version)) fun _ => Silent.pure _
      · exact Silent.pure _

theorem revalidate_silent (env : AuthEnv V) : Silent (revalidate env) := by
  unfold revalidate
  refine Silent.bind (require_silent _ _) fun _ => ?_
  exact Silent.bind (emit_silent rfl) fun _ => require_silent _ _

/-- A session is used again, or it is obtained and checked by one login at the SDK, which is not an RPC of
the game. -/
theorem sdkSession_silent (env : AuthEnv V) : Silent (sdkSession env) := by
  unfold sdkSession
  split_ifs
  · exact Silent.pure _
  · refine Silent.bind (require_silent _ _) fun _ => ?_
    refine Silent.bind (require_silent _ _) fun _ => ?_
    exact Silent.bind (require_silent _ _) fun _ => Silent.pure _
  · refine Silent.bind (require_silent _ _) fun _ => ?_
    refine Silent.bind (require_silent _ _) fun _ => ?_
    refine Silent.bind (require_silent _ _) fun _ => ?_
    exact Silent.bind (require_silent _ _) fun _ => revalidate_silent env

/-- A login sends PlayerLogin at most, without game credentials. -/
theorem accountAuth_silent (env : AuthEnv V) : Silent (accountAuth env) := by
  unfold accountAuth
  split_ifs
  · exact Silent.pure _
  · refine Silent.bind (require_silent _ _) fun _ => ?_
    refine Silent.bind (require_silent _ _) fun _ => ?_
    refine Silent.bind (require_silent _ _) fun _ => ?_
    refine Silent.bind (require_silent _ _) fun _ => ?_
    refine Silent.bind (sdkSession_silent env) fun _ => ?_
    refine Silent.bind (executeOnce_silent _ _ _ rfl) fun answer => ?_
    exact Silent.bind (require_silent _ _) fun _ => require_silent _ _

theorem throw_final {e : AppError} (plain : refuses e = false) : Final (Prog.throw e : Call α) :=
  Triple.throw fun _ _ => plain

theorem ofExcept_final {r : Except AppError α} (plain : ∀ e, r = .error e → refuses e = false) :
    Final (Prog.ofExcept r) :=
  Triple.ofExcept (fun _ _ _ _ => trivial) fun e failed _ _ => plain e failed

/-- What comes after an authenticated RPC is not a refusal. -/
theorem executeOnce_final {f : Except AppError V × Option String → Call α} (global auth : Bool) (route : Route)
    (t : Transfer V) (next : ∀ r, (∀ e, r.1 = .error e → refuses e = false) → Final (f r)) :
    Final (executeOnce global route auth t >>= f) := by
  refine Triple.bind (executeOnce_result global auth route t) fun r => ?_
  intro trace plain
  exact next r plain trace trivial

/-- Once the RPC of an authenticated route was sent, no error of its answer is a refusal. -/
theorem rpc_final (p : Params) (env : CallEnv V) (authenticated : p.route.authenticated = true) :
    Final (rpc p env) := by
  unfold rpc
  rw [if_pos authenticated]
  refine executeOnce_final _ _ _ _ fun r plain => ?_
  obtain ⟨response, code⟩ := r
  simp only
  split_ifs
  · exact throw_final rfl
  · exact ofExcept_final plain

/-- Either the route is not authenticated and the part is silent, or its error is never a refusal. -/
theorem rpc_honest (p : Params) (env : CallEnv V) : Honest (rpc p env) := by
  cases authenticated : p.route.authenticated with
  | true => exact (rpc_final p env authenticated).honest
  | false =>
    unfold rpc
    rw [if_neg (by rw [authenticated]; decide)]
    exact (execute_silent _ authenticated _ _).honest

/-- The identity check before player data is itself an authenticated RPC, so from there on nothing may refuse; any
other route is its RPC alone. -/
theorem perform_honest (p : Params) (env : CallEnv V) : Honest (perform p env) := by
  unfold perform
  split_ifs with checks
  · have authenticated : p.route.authenticated = true := by
      rw [Bool.and_eq_true, beq_iff_eq] at checks
      rw [checks.1]
      rfl
    refine (executeOnce_final _ _ _ _ fun r plain => ?_).honest
    obtain ⟨checked, code⟩ := r
    cases checked with
    | error e => exact throw_final (plain e rfl)
    | ok _ => exact rpc_final p env authenticated
  · exact rpc_honest p env

theorem onlyIf_silent {holds : Bool} {m : Call PUnit} (silent : Silent m) : Silent (onlyIf holds m) := by
  unfold onlyIf
  split_ifs
  · exact silent
  · exact Silent.pure _

/-- All that can refuse here comes before the first authenticated RPC: the guards, the recheck of the key, the path
breaker and the login. -/
theorem contact_honest (p : Params) (env : CallEnv V) (ticket : Bool) : Honest (contact p env ticket) := by
  unfold contact
  refine Silent.then (Gate.pass_silent _) fun _ => ?_
  refine Silent.then (require_silent _ _) fun _ => ?_
  refine Silent.then (onlyIf_silent ?_) fun _ => ?_
  · exact Silent.bind (cacheKey_silent _) fun _ => require_silent _ _
  refine Silent.then (require_silent _ _) fun _ => ?_
  refine Silent.then (onlyIf_silent (accountAuth_silent _)) fun _ => ?_
  split_ifs
  · exact (Silent.pure _).honest
  · exact perform_honest p env

/-- A cached answer is a value, never an error. -/
theorem answered_honest (route : Route) (hit : V × Bool) : Honest (answered route hit) := by
  unfold answered onlyIf
  refine Triple.bind (Q := fun _ _ => True) ?_ fun _ => Triple.pure fun _ _ => trivial
  split_ifs
  · exact Triple.modify fun _ _ => trivial
  · exact Triple.pure fun _ _ => trivial

/-- Version and key come first and are silent; a cache entry answers with a value, and otherwise the
upstream is contacted. -/
theorem upstream_honest (p : Params) (env : CallEnv V) : Honest (upstream p env) := by
  unfold upstream
  refine Silent.then (require_silent _ _) fun _ => ?_
  refine Silent.then ?_ fun ticket => ?_
  · unfold versionTicket
    split_ifs
    · exact Silent.pure _
    · exact ensureVersion_silent _ _
  refine Silent.then (cacheKey_silent _) fun key => ?_
  refine Silent.then (require_silent _ _) fun _ => ?_
  split
  · exact answered_honest _ _
  · split
    · exact (Silent.pure _).honest
    · exact contact_honest p env ticket

theorem lease_silent (p : Params) (env : CallEnv V) : Silent (lease p env) := by
  unfold lease
  refine Silent.bind (require_silent _ _) fun _ => ?_
  split
  · exact Silent.pure _
  · exact Silent.throw _

/-- The admission itself sends nothing, so what it refuses is honest, and a deadline behind it is no refusal. -/
theorem admittedBody_honest (p : Params) (env : CallEnv V) : Honest (admittedBody p env) := by
  unfold admittedBody
  refine Silent.then (Gate.pass_silent _) fun _ => ?_
  refine Silent.then (require_silent _ _) fun _ => ?_
  refine Silent.then (require_silent _ _) fun _ => ?_
  refine Silent.then (onlyIf_silent (lease_silent p env)) fun _ => ?_
  exact timeoutAt_honest (upstream_honest p env)

/-- What a peer is told is a refusal only if the error behind it is one. -/
theorem refuses_of_peerError {p : Params} {e : AppError} (refused : refuses (peerError p.expectedProtocol e) = true) :
    refuses e = true := by
  unfold peerError at refused
  split_ifs at refused with mapped
  · rw [Bool.and_eq_true, beq_iff_eq] at mapped
    rw [mapped.2]
    rfl
  · exact refused

/-- The call behind its admission; what a peer is told of its error keeps the meaning of a refusal. -/
theorem callAdmitted_honest (p : Params) (env : CallEnv V) : Honest (callAdmitted p env) := by
  unfold callAdmitted
  refine Triple.bind (Q := fun r t => ∀ e, r = .error e → refuses e = true → Quiet t) ?_ fun r => ?_
  · refine Triple.attempt (admittedBody_honest p env) (fun a _ _ e failed => nomatch failed) ?_
    rintro e t quiet _ ⟨⟩
    exact quiet
  · cases r with
    | ok value => exact Triple.pure fun _ _ => trivial
    | error e => exact Triple.throw fun _ quiet refused => quiet e rfl (refuses_of_peerError refused)

theorem shared_honest (p : Params) (env : SelectedEnv V) : Honest (shared p env) := by
  unfold shared
  split_ifs
  · refine Silent.then (require_silent _ _) fun _ => ?_
    exact Silent.then (require_silent _ _) fun _ => callAdmitted_honest _ _
  · exact callAdmitted_honest _ _

/-- The lookup before admission sends nothing, so the call is as honest as its shared part. -/
theorem callSelected_honest (p : Params) (env : SelectedEnv V) : Honest (callSelected p env) := by
  unfold callSelected
  refine Silent.then (require_silent _ _) fun _ => ?_
  refine Silent.then (require_silent _ _) fun _ => ?_
  split_ifs
  · split
    · exact answered_honest _ _
    · exact shared_honest _ _
    · exact shared_honest _ _
  · exact shared_honest _ _

/-- A node that refuses a peer call has not sent an authenticated RPC for it. -/
theorem callPeer_refused {global : Bool} {route : Route} {expectedProtocol : String} {env : SelectedEnv V}
    {e : AppError} {trace : List Event} (failed : callPeer global route expectedProtocol env [] = (.error e, trace))
    (refused : refuses e = true) : Quiet trace :=
  (callSelected_honest _ env [] quiet_nil).2 e trace failed refused

end SiriusProxy.Routing
