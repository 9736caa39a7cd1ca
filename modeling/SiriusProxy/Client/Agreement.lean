import SiriusProxy.Client.Confined

section
open Effect SiriusProxy.Routing

namespace SiriusProxy.Client.Lookup

section Agreement
variable {V : Type} {lib : Formats V} {out : Outside V} {c : GameClient} {call : Call V} {account : Option Nat}
  {key : String} {r : Run}

/-- The account under whose scope a call without a name is looked up. -/
inductive Chooses (c : GameClient) (route : Route) : Option Nat → Prop
  | anonymous (plain : route.authenticated = false) : Chooses c route none
  | account {index : Nat} {account : Accounts.Account} (owned : route.authenticated = true)
      (peeked : c.pool.peekPublic c.now = some (some (index, account))) : Chooses c route (some index)

/-- No other call holds what the call needs, its version headers are fresh, no maintenance is observed, and an account
is available if the route needs one. -/
structure Ready (c : GameClient) (route : Route) : Prop where
  permit : c.inflight < c.maxInflight
  barrier : c.reloading = false
  fresh : Refresh.versionNeed c.config route c.now c.state = .fresh
  calm : c.state.observation.maintenance = false
  available : route.authenticated = true → ∃ account ∈ c.pool.entries, account.available c.now = true

/-- What a refresh of a stale entry leaves in the log. -/
def spawned (stale : Bool) (key : String) (account : Option String) (refreshing : List Nat) : List Effect :=
  if stale && !refreshing.contains (stripe key) then [.refresh key account] else []

theorem view_bind {α : Type} (f : GameClient → Step α) (r : Run) : (view >>= f) r = f r.client r := rfl

theorem note_bind {α : Type} (e : Effect) (f : PUnit → Step α) (r : Run) :
    (note e >>= f) r = f ⟨⟩ { r with log := r.log ++ [e] } := rfl

theorem change_bind {α : Type} (g : GameClient → GameClient) (f : PUnit → Step α) (r : Run) :
    (change g >>= f) r = f ⟨⟩ { r with client := g r.client } := rfl

/-- A stale entry starts one refresh for its key, unless a refresh of the same stripe is under way; the log
records it. -/
theorem spawn_run (stale : Bool) (key : String) (account : Option String) (r : Run) :
    ∃ client, onlyIf stale (spawnRefresh key account) r =
      (.ok ⟨⟩, { r with client := client, log := r.log ++ spawned stale key account r.client.refreshing }) := by
  cases stale with
  | false => exact ⟨r.client, by rw [spawned, Bool.false_and, if_neg Bool.false_ne_true, List.append_nil]; rfl⟩
  | true =>
    cases held : r.client.refreshing.contains (stripe key) with
    | true =>
      refine ⟨r.client, ?_⟩
      rw [spawned, held, Bool.not_true, Bool.and_false, if_neg Bool.false_ne_true, List.append_nil, onlyIf, if_pos rfl,
        spawnRefresh, view_bind, held]
      rfl
    | false =>
      refine ⟨{ r.client with refreshing := stripe key :: r.client.refreshing }, ?_⟩
      rw [spawned, held, onlyIf, if_pos rfl, spawnRefresh, view_bind, held]
      rfl

theorem timedRead_prompt (prompt : r.client.cache.slow = false) :
    timedRead lib key r = (.ok (some (r.client.cache.getWithState lib r.client.nowMs key).1),
      { r with
        client := { r.client with cache := (r.client.cache.getWithState lib r.client.nowMs key).2 }
        log := r.log ++ [.read key] }) := by
  rw [timedRead, note_bind, view_bind, prompt]
  rfl

theorem timedRead_slow (slow : r.client.cache.slow = true) :
    timedRead lib key r = (.ok none, { r with log := r.log ++ [.read key] }) := by
  rw [timedRead, note_bind, view_bind, slow]
  rfl

/-- What the lookup before admission found, and its log. -/
inductive Looked (lib : Formats V) (c : GameClient) (call : Call V) : Precheck V → List Effect → Prop
  | skipped {log : List Effect} : Looked lib c call .skipped log
  | miss {account : Option Nat} {key : String} (chosen : Chooses c call.route account)
      (peer : call.expectedProtocol.all (· == c.protocolSha) = true)
      (keyed : responseCacheKey lib c call.route call.input account = .ok (some key)) :
      Looked lib c call (.miss key) [.read key]
  | hit {account : Option Nat} {key : String} {cached : ResponseCache.Cached V} (chosen : Chooses c call.route account)
      (peer : call.expectedProtocol.all (· == c.protocolSha) = true)
      (keyed : responseCacheKey lib c call.route call.input account = .ok (some key))
      (prompt : c.cache.slow = false) (found : (c.cache.getWithState lib c.nowMs key).1 = some cached) :
      Looked lib c call (.hit (stripAccountFields lib call.route cached.value))
        (.read key :: spawned cached.stale key (accountName c account) c.refreshing)

/-- The lookup under a key that was made for the chosen account: it reads the cache once, and what it answers is
the entry without the account fields. -/
theorem keyedLookup_looked {result : Precheck V} {after : Run} (chosen : Chooses c call.route account)
    (peer : call.expectedProtocol.all (· == c.protocolSha) = true)
    (ran : keyedLookup lib call account { client := c } = (.ok result, after)) : Looked lib c call result after.log := by
  rw [keyedLookup, view_bind] at ran
  cases keyed : responseCacheKey lib c call.route call.input account with
  | error e =>
    rw [keyed] at ran
    cases ran
    exact .skipped
  | ok key =>
    cases key with
    | none =>
      rw [keyed] at ran
      cases ran
      exact .skipped
    | some key =>
      rw [keyed] at ran
      simp only at ran
      cases slow : c.cache.slow with
      | true =>
        rw [Prog.bind_ok (timedRead_slow slow)] at ran
        cases ran
        exact .skipped
      | false =>
        rw [Prog.bind_ok (timedRead_prompt slow)] at ran
        cases found : (c.cache.getWithState lib c.nowMs key).1 with
        | none =>
          simp only [found] at ran
          cases ran
          exact .miss chosen peer keyed
        | some cached =>
          simp only [found] at ran
          obtain ⟨client, spawns⟩ := spawn_run cached.stale key (accountName c account)
            { client := { c with cache := (c.cache.getWithState lib c.nowMs key).2 }, log := [] ++ [.read key] }
          rw [Prog.bind_ok spawns] at ran
          cases ran
          exact .hit chosen peer keyed slow found

/-- The lookup before admission either skips, without a look at the cache, or it has chosen an account and a key as
the admitted call will, and read the cache under that key. -/
theorem cachedBeforeAdmission_looked (call : Call V) {result : Precheck V} {after : Run} (ready : Ready c call.route)
    (ran : cachedBeforeAdmission lib call { client := c } = (.ok result, after)) : Looked lib c call result after.log := by
  rw [cachedBeforeAdmission, view_bind] at ran
  simp only [ready.fresh] at ran
  split at ran
  · cases ran
    exact .skipped
  rename_i eligible
  have peer : call.expectedProtocol.all (· == c.protocolSha) = true := by
    by_contra mismatch
    exact eligible (by rw [Bool.eq_false_iff.mpr mismatch, Bool.not_false, Bool.or_true])
  rw [leasedLookup, view_bind] at ran
  split at ran
  · rename_i owned
    obtain ⟨answer, peeked⟩ := Accounts.Pool.peek_total c.now c.pool
    cases answer with
    | none =>
      obtain ⟨account, member, available⟩ := ready.available owned
      exact absurd available (by rw [(Accounts.Pool.peek_none peeked).1 account member]; decide)
    | some leased =>
      obtain ⟨index, account⟩ := leased
      rw [peeked] at ran
      exact keyedLookup_looked (.account owned peeked) peer ran
  · rename_i plain
    exact keyedLookup_looked (.anonymous (Bool.eq_false_iff.mpr plain)) peer ran

/-- What the admitted call sees of the client behind its permit and its lease is what the lookup saw. -/
structure Alike (c d : GameClient) : Prop where
  config : d.config = c.config
  endpoint : d.endpoint = c.endpoint
  state : d.state = c.state
  protocolSha : d.protocolSha = c.protocolSha
  protocolGeneration : d.protocolGeneration = c.protocolGeneration
  generation : d.pool.generation = c.pool.generation
  names : ∀ index : Nat,
    d.pool.entries[index]?.map Accounts.Account.name = c.pool.entries[index]?.map Accounts.Account.name
  sources : d.sources = c.sources
  cache : d.cache = c.cache
  refreshing : d.refreshing = c.refreshing
  now : d.now = c.now
  nowMs : d.nowMs = c.nowMs

/-- The scope of a key is made of what admission and lease leave as it was, so both sides compute the
same scope. -/
theorem Alike.cacheScope {d : GameClient} (alike : Alike c d) (index : Nat) : d.cacheScope index = c.cacheScope index := by
  have names := alike.names index
  unfold GameClient.cacheScope
  rw [alike.sources]
  cases left : d.pool.entries[index]? with
  | none =>
    cases right : c.pool.entries[index]? with
    | none => rfl
    | some account => rw [left, right] at names; cases names
  | some account =>
    cases right : c.pool.entries[index]? with
    | none => rw [left, right] at names; cases names
    | some other =>
      rw [left, right, Option.map_some, Option.map_some, Option.some.injEq] at names
      cases c.sources[index]? with
      | none => rfl
      | some source =>
        cases source with
        | static => rfl
        | global => simp only [names]

theorem Alike.cacheKey {d : GameClient} (alike : Alike c d) (route : Route) (input : V) (account : Option Nat) :
    responseCacheKey lib d route input account = responseCacheKey lib c route input account := by
  have digested (index : Nat) := alike.cacheScope index
  simp only [responseCacheKey, scope, digested, alike.config, alike.endpoint, alike.state, alike.protocolSha,
    alike.protocolGeneration, alike.generation, alike.cache]

theorem Alike.accountName {d : GameClient} (alike : Alike c d) (account : Option Nat) :
    accountName d account = accountName c account := by
  cases account with
  | none => rfl
  | some index => exact alike.names index

theorem closing_run {α : Type} (f : Run → Run) (m : Step α) (r : Run) : Prog.closing f m r = ((m r).1, f (m r).2) := rfl

theorem dropTicket_log (r : Run) : (dropTicket r).log = r.log := by
  unfold dropTicket
  split
  · rfl
  · rfl

theorem dropLease_log (index : Nat) (r : Run) : (dropLease index r).log = r.log := rfl

theorem versionFirst_fresh (fresh : Refresh.versionNeed r.client.config call.route r.client.now r.client.state = .fresh) :
    versionFirst out call r = (.ok ⟨⟩, r) := by
  rw [versionFirst, view_bind]
  split
  · rfl
  · rw [ensureVersion, view_bind, fresh]
    rfl

theorem upstream_run (fresh : Refresh.versionNeed r.client.config call.route r.client.now r.client.state = .fresh)
    (keyed : responseCacheKey lib r.client call.route call.input account = .ok (some key)) :
    upstream lib out call account r = keyedCall lib out call account (some key) r := by
  rw [upstream, Prog.bind_ok (versionFirst_fresh fresh), view_bind, keyed]
  rfl

/-- A keyed route is a public one. -/
theorem public_of_keyed (keyed : responseCacheKey lib c call.route call.input account = .ok (some key)) :
    (call.route == .whoami || call.route == .playerData) = false := by
  unfold responseCacheKey Cache.ttl at keyed
  cases route : call.route with
  | whoami => rw [route] at keyed; cases keyed
  | playerData => rw [route] at keyed; cases keyed
  | _ => rfl

/-- Two runs that end alike: with the same value if there is one, and the same log. -/
structure Ends {α : Type} (inner outer : Except AppError α × Run) : Prop where
  log : outer.2.log = inner.2.log
  value : ∀ value, inner.1 = .ok value → outer.1 = .ok value

/-- A call whose version headers are fresh takes its lease and arrives at the keyed call with a client that
looks as before. What it adds behind the keyed call is the release of the lease, which changes neither the log
nor a value. -/
theorem leasedCall_run (out : Outside V) (chosen : Chooses r.client call.route account) (unnamed : call.name = none)
    (fresh : Refresh.versionNeed r.client.config call.route r.client.now r.client.state = .fresh)
    (keyed : responseCacheKey lib r.client call.route call.input account = .ok (some key)) :
    ∃ before : Run, before.log = r.log ∧ Alike r.client before.client ∧
      Ends (keyedCall lib out call account (some key) before) (leasedCall lib out call r) := by
  cases chosen with
  | anonymous plain =>
    refine ⟨r, rfl, ⟨rfl, rfl, rfl, rfl, rfl, rfl, fun _ => rfl, rfl, rfl, rfl, rfl, rfl⟩, ?_, ?_⟩
    · rw [leasedCall, plain, if_neg Bool.false_ne_true, closing_run, upstream_run fresh keyed]
      exact dropTicket_log _
    · intro value result
      rw [leasedCall, plain, if_neg Bool.false_ne_true, closing_run, upstream_run fresh keyed]
      exact result
  | @account index entry owned peeked =>
    obtain ⟨-, found, selected⟩ := Accounts.Pool.peek_some peeked
    have leases : lease call r = (.ok index,
        { r with client := { r.client with pool := r.client.pool.leased index entry } }) := by
      simp only [lease, unnamed, public_of_keyed keyed, selected]
    have alike : Alike r.client { r.client with pool := r.client.pool.leased index entry } := by
      refine ⟨rfl, rfl, rfl, rfl, rfl, rfl, fun other => ?_, rfl, rfl, rfl, rfl, rfl⟩
      rw [Accounts.Pool.leased, List.getElem?_set]
      split_ifs with same inside
      · subst same
        rw [found]
        rfl
      · subst same
        exact absurd (List.getElem?_eq_some_iff.mp found).1 inside
      · rfl
    have run : upstream lib out call (some index)
        { r with client := { r.client with pool := r.client.pool.leased index entry } } =
        keyedCall lib out call (some index) (some key)
          { r with client := { r.client with pool := r.client.pool.leased index entry } } :=
      upstream_run fresh ((alike.cacheKey _ _ _).trans keyed)
    refine ⟨{ r with client := { r.client with pool := r.client.pool.leased index entry } }, rfl, alike, ?_, ?_⟩
    · rw [leasedCall, owned, if_pos rfl, Prog.bind_ok leases, closing_run, closing_run, run]
      exact (dropLease_log index _).trans (dropTicket_log _)
    · intro value result
      rw [leasedCall, owned, if_pos rfl, Prog.bind_ok leases, closing_run, closing_run, run]
      exact result

/-- A call that has its permit. -/
def permitHeld (c : GameClient) : Run := { client := { c with inflight := c.inflight + 1 } }

/-- With nothing to wait for and the same protocol, the admitted call goes straight to its lease. -/
theorem admittedBody_run (out : Outside V) (call : Call V) (ready : Ready c call.route)
    (peer : call.expectedProtocol.all (· == c.protocolSha) = true) :
    admittedBody lib out call { client := c } =
      ((leasedCall lib out call (permitHeld c)).1, dropPermit (leasedCall lib out call (permitHeld c)).2) := by
  have same : call.expectedProtocol.all (· == (permitHeld c).client.protocolSha) = true := peer
  have permitted : permittedCall lib out call (permitHeld c) = leasedCall lib out call (permitHeld c) := by
    rw [permittedCall, view_bind, require_bind _ _ _ (by rw [permitHeld, ready.barrier]; rfl), require_bind _ _ _ same]
  rw [admittedBody, view_bind, require_bind _ _ _ (decide_eq_true ready.permit), change_bind, closing_run]
  exact congrArg (fun done : Except AppError V × Run => (done.1, dropPermit done.2)) permitted

/-- Permit and barrier are free, so the admitted call as a whole comes down to the keyed call for the account that
the lookup would choose. -/
theorem callAdmitted_run (out : Outside V) (call : Call V) (ready : Ready c call.route)
    (chosen : Chooses c call.route account) (unnamed : call.name = none)
    (peer : call.expectedProtocol.all (· == c.protocolSha) = true)
    (keyed : responseCacheKey lib c call.route call.input account = .ok (some key)) :
    ∃ before : Run, before.log = [] ∧ Alike c before.client ∧
      Ends (keyedCall lib out call account (some key) before) (callAdmitted lib out call { client := c }) := by
  have chosen' : Chooses (permitHeld c).client call.route account := by
    cases chosen with
    | anonymous plain => exact .anonymous plain
    | account owned peeked => exact .account owned peeked
  obtain ⟨before, empty, alike, ends⟩ :=
    @leasedCall_run V lib call account key (permitHeld c) out chosen' unnamed ready.fresh keyed
  have attempted : Prog.attempt (admittedBody lib out call) { client := c } =
      (.ok (leasedCall lib out call (permitHeld c)).1, dropPermit (leasedCall lib out call (permitHeld c)).2) := by
    rw [Prog.attempt, admittedBody_run out call ready peer]
  refine ⟨before, empty, ⟨alike.config, alike.endpoint, alike.state, alike.protocolSha, alike.protocolGeneration,
    alike.generation, alike.names, alike.sources, alike.cache, alike.refreshing, alike.now, alike.nowMs⟩, ?_, ?_⟩
  · rw [callAdmitted, Prog.bind_ok attempted, ← ends.log]
    cases (leasedCall lib out call (permitHeld c)).1 with
    | ok value => rfl
    | error e =>
      simp only
      unfold noteFailure
      split
      · rfl
      · rfl
  · intro value result
    rw [callAdmitted, Prog.bind_ok attempted, ends.value value result]
    rfl

/-- A prompt cache that holds an entry answers the call without contact to the upstream, and starts the refresh
that the lookup would have started. -/
theorem keyedCall_hit (out : Outside V) (call : Call V) (account : Option Nat) (key : String) (r : Run)
    {cached : ResponseCache.Cached V} (plain : call.refreshKey = none)
    (unread : call.checked ≠ some key) (prompt : r.client.cache.slow = false)
    (found : (r.client.cache.getWithState lib r.client.nowMs key).1 = some cached) :
    ∃ client, keyedCall lib out call account (some key) r = (.ok (stripAccountFields lib call.route cached.value),
      { r with
        client := client
        log := r.log ++ .read key ::
          spawned cached.stale key (accountName r.client account) r.client.refreshing }) := by
  have state : readCachedState lib call.route key r =
      (.ok (some { cached with value := stripAccountFields lib call.route cached.value }),
        { r with
          client := { r.client with cache := (r.client.cache.getWithState lib r.client.nowMs key).2 }
          log := r.log ++ [.read key] }) := by
    rw [readCachedState, Prog.bind_ok (timedRead_prompt prompt), found]
    rfl
  have filtered : (some key).filter (fun key => decide (call.checked ≠ some key)) = some key := by
    rw [Option.filter_some, if_pos (decide_eq_true unread)]
  obtain ⟨client, spawns⟩ := spawn_run cached.stale key (accountName r.client account)
    { r with
      client := { r.client with cache := (r.client.cache.getWithState lib r.client.nowMs key).2 }
      log := r.log ++ [.read key] }
  refine ⟨client, ?_⟩
  have early : earlyRead lib call account (some key) r =
      (.ok (some (stripAccountFields lib call.route cached.value)),
        { r with
          client := client
          log := r.log ++ [.read key] ++
            spawned cached.stale key (accountName r.client account) r.client.refreshing }) := by
    simp only [earlyRead, filtered, plain, Option.isSome_none, Bool.false_eq_true, if_false]
    rw [view_bind, Prog.bind_ok state]
    simp only
    rw [Prog.bind_ok spawns]
    rfl
  rw [keyedCall, require_bind _ _ _ (by rw [plain]; rfl), Prog.bind_ok early, List.append_assoc]
  rfl

/-- A key that the lookup before admission has checked is not read again: the call goes on to its fill. -/
theorem keyedCall_checked (plain : call.refreshKey = none) (checked : call.checked = some key) :
    keyedCall lib out call account (some key) r =
      guarded lib out call account key { r with log := r.log ++ [.filling key] } := by
  have early : earlyRead lib call account (some key) r = (.ok none, r) := by
    have filtered : (some key).filter (fun key => decide (call.checked ≠ some key)) = none := by
      rw [Option.filter_some, checked, if_neg]
      simp
    simp only [earlyRead, filtered]
    rfl
  rw [keyedCall, require_bind _ _ _ (by rw [plain]; rfl), Prog.bind_ok early]
  simp only
  rw [fillAndContact, note_bind]

/-- A public call as `call_selected` passes it on. -/
def publicCall (route : Route) (input : V) (expected checked : Option String) : Call V where
  route := route
  input := input
  expectedProtocol := expected
  checked := checked

/-- What the lookup before admission finds is what the admitted call finds, under the same key; the lookup moves
neither the rotation nor an account nor the game path. -/
theorem lookup_agrees (lib : Formats V) (out : Outside V) (c : GameClient) (route : Route) (input : V)
    (expected : Option String) :
    (cachedBeforeAdmission lib (publicCall route input expected none) { client := c }).2.client.pool = c.pool ∧
      (cachedBeforeAdmission lib (publicCall route input expected none) { client := c }).2.client.path = c.path ∧
      (Ready c route →
        (∀ value after, cachedBeforeAdmission lib (publicCall route input expected none) { client := c } =
            (.ok (.hit value), after) →
          (callAdmitted lib out (publicCall route input expected none) { client := c }).1 = .ok value ∧
            (callAdmitted lib out (publicCall route input expected none) { client := c }).2.log = after.log ∧
            ∃ key refreshes, after.log = .read key :: refreshes ∧
              ∀ e ∈ refreshes, ∃ account, e = .refresh key account) ∧
        ∀ key after, cachedBeforeAdmission lib (publicCall route input expected none) { client := c } =
            (.ok (.miss key), after) →
          (∀ checked, ∀ e ∈ (callAdmitted lib out (publicCall route input expected checked) { client := c }).2.log,
            ∀ own ∈ e.key, own = key) ∧
          ∃ later, (callAdmitted lib out (publicCall route input expected (some key)) { client := c }).2.log =
            .filling key :: later) := by
  have frame : Bystander fun r => r.client.pool = c.pool ∧ r.client.path = c.path :=
    ⟨fun _ _ => id, fun _ _ => id, fun _ _ => id⟩
  have kept := (cachedBeforeAdmission_keeps lib frame (publicCall route input expected none)).apply
    (r := { client := c }) ⟨rfl, rfl⟩
  refine ⟨kept.1, kept.2, fun ready => ⟨fun value after ran => ?_, fun key after ran => ?_⟩⟩
  · generalize result : after.log = log
    have looked := cachedBeforeAdmission_looked (publicCall route input expected none) ready ran
    rw [result] at looked
    cases looked with
    | @hit account key cached chosen peer keyed prompt found =>
      obtain ⟨before, empty, alike, ends⟩ := callAdmitted_run out (publicCall route input expected none) ready chosen
        rfl peer keyed
      obtain ⟨client, hits⟩ := keyedCall_hit out (publicCall route input expected none) account key before rfl nofun
        (by rw [alike.cache]; exact prompt) (by rw [alike.cache, alike.nowMs]; exact found)
      refine ⟨ends.value _ (by rw [hits]), ?_, key, _, rfl, fun e member => ?_⟩
      · rw [ends.log, hits, empty, alike.accountName, alike.refreshing]
        rfl
      · unfold spawned at member
        split at member
        · exact ⟨_, List.mem_singleton.mp member⟩
        · exact absurd member List.not_mem_nil
  · generalize result : after.log = log
    have looked := cachedBeforeAdmission_looked (publicCall route input expected none) ready ran
    rw [result] at looked
    cases looked with
    | @miss account key chosen peer keyed =>
      refine ⟨fun checked e member own same => ?_, ?_⟩
      · obtain ⟨before, empty, -, ends⟩ := callAdmitted_run out (publicCall route input expected checked) ready chosen rfl
          peer keyed
        have grown : Grown key [] before := empty ▸ Grown.start before
        obtain ⟨later, whole, each⟩ := ((Grown.confined []).keyedCall _ account).apply grown
        rw [ends.log, whole] at member
        exact each e member own same
      · obtain ⟨before, empty, -, ends⟩ := callAdmitted_run out (publicCall route input expected (some key)) ready chosen
          rfl peer keyed
        have grown : Grown key [.filling key] { before with log := before.log ++ [.filling key] } := by
          rw [empty]
          exact Grown.start _
        obtain ⟨later, whole, -⟩ := ((Grown.confined [.filling key]).guarded _ account).apply grown
        exact ⟨later, by rw [ends.log, keyedCall_checked rfl rfl, whole]; rfl⟩

theorem ran_of_fst {α : Type} {x : Except AppError α × Run} {result : Except AppError α} (same : x.1 = result) :
    x = (result, x.2) := Prod.ext same rfl

def sampleAccount : String := "503edf1180ec89109733cf597e67bbdad73fa3ac5c95456ac3b4f50a75979551"

def sampleKey : String := "71450e48c35f7f4ecf6a626c4222058017d76ed51009ab8d3f7c058db6f9521c"

/-- The text of the scope of a ranking call of the one account, behind its first bracket. -/
def sampleScope : String :=
  "\"account\":\"503edf1180ec89109733cf597e67bbdad73fa3ac5c95456ac3b4f50a75979551\",\"account_generation\":0," ++
  "\"client\":\"1.0.3\",\"endpoint\":\"https://game.example\"," ++
  "\"environment\":\"production\",\"input\":0,\"master\":\"v1\",\"platform\":\"iOS\"," ++
  "\"protocol\":\"p\",\"protocol_generation\":1,\"region\":\"jp\"," ++
  "\"route\":\"/app.event.EventService/GetRankingList\",\"schema\":2,\"stale_ms\":0,\"ttl_ms\":1000\x7d"

def sampleLib : Formats Nat where
  json := ResponseCache.sampleJson
  toVec scope := if scope.account = some sampleAccount then some ('{' :: sampleScope.toList) else none
  digest text := if text.head? = some '[' then sampleAccount else sampleKey
  remove _ value := value
  playerId _ := 0

def sampleOutside : Outside Nat where
  fillGuard := true
  session := .ok ⟨⟩
  hasAuth := true
  accountAuth _ c := (.ok "1", c)
  execute _ c := (.error .transport, c)
  executeOnce _ c := ((.error .transport, none), c)
  report _ _ _ c := c

def sampleSlot : ResponseCache.Slot :=
  { id := 0, bytes := ascii "\x7b\"expires_ms\":2000,\"retain_ms\":2000,\"value\":1\x7d" }

/-- One account, and an entry for its ranking until 2000. -/
def sampleClient (nowMs : Nat) : GameClient where
  config := Client.sampleConfig
  endpoint := "https://game.example"
  maxInflight := 64
  state := { State.new Client.sampleConfig with
    observation := { masterVersion := some "v1" }
    versionFreshUntil := some 100 }
  protocolSha := "p"
  protocolGeneration := 1
  pool := { entries := [{ name := "a" }] }
  sources := [.static "1" "secret"]
  cache := { config := .memory ResponseCache.sampleConfig, memory := ({} : ResponseCache.Memory).store sampleKey sampleSlot }
  nowMs := nowMs

theorem sample_ready (nowMs : Nat) : Ready (sampleClient nowMs) .eventRanking :=
  ⟨Nat.zero_lt_succ 63, rfl, rfl, rfl, fun _ => ⟨_, List.mem_cons_self, rfl⟩⟩

theorem lookup_agrees_ranking :
    (callAdmitted sampleLib sampleOutside (publicCall .eventRanking 0 none none) { client := sampleClient 1500 }).1 =
        .ok 1 ∧
      ∃ later, (callAdmitted sampleLib sampleOutside (publicCall .eventRanking 0 none (some sampleKey))
        { client := sampleClient 2500 }).2.log = .filling sampleKey :: later := by
  have hit : (cachedBeforeAdmission sampleLib (publicCall .eventRanking 0 none none) { client := sampleClient 1500 }).1 =
      .ok (.hit 1) := by decide +kernel
  have miss : (cachedBeforeAdmission sampleLib (publicCall .eventRanking 0 none none) { client := sampleClient 2500 }).1 =
      .ok (.miss sampleKey) := by decide +kernel
  exact ⟨(((lookup_agrees sampleLib sampleOutside (sampleClient 1500) .eventRanking 0 none).2.2 (sample_ready 1500)).1 1 _
      (ran_of_fst hit)).1,
    (((lookup_agrees sampleLib sampleOutside (sampleClient 2500) .eventRanking 0 none).2.2 (sample_ready 2500)).2 sampleKey _
      (ran_of_fst miss)).2⟩

end Agreement

end SiriusProxy.Client.Lookup

end
