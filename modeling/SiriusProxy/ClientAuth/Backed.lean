import Mathlib.Algebra.Order.Group.Nat
import SiriusProxy.ClientAuth.Authorize
import SiriusProxy.Lib.Base64

namespace SiriusProxy.ClientAuth
variable {codec : Codec} {sha : Sha256} {json : Json} {auth : Authenticator} {apiToken : List UInt8} {w v : World}

section Cache
variable {c : Cache} {k : Key} {now : Instant} {e : Key × Instant}

theorem Cache.mem_of_get? {expiry : Instant} (found : c.get? k = some expiry) : (k, expiry) ∈ c.entries := by
  obtain ⟨e, first, same⟩ := Option.map_eq_some_iff.mp found
  have named : e.1 = k := by simpa using List.find?_some first
  rw [← same, ← named]
  exact List.mem_of_find?_eq_some first

/-- A hit is an entry of that key that has not run out. -/
theorem cached_entry (hit : cached c k now = true) : ∃ expiry, (k, expiry) ∈ c.entries ∧ now < expiry := by
  rw [cached] at hit
  cases found : c.get? k with
  | none =>
    rw [found] at hit
    cases hit
  | some expiry =>
    rw [found] at hit
    exact ⟨expiry, Cache.mem_of_get? found, of_decide_eq_true hit⟩

theorem mem_makeRoom (member : e ∈ (makeRoom auth c now).entries) : e ∈ c.entries := by
  rw [makeRoom] at member
  split at member
  · exact List.mem_of_mem_filter member
  · exact member

/-- After a grant was noted the entries are old ones and the noted one. -/
theorem remember_entry (member : e ∈ (remember auth c k now).entries) :
    e ∈ c.entries ∨ auth.ttl ≠ 0 ∧ e = (k, now + auth.ttl) := by
  rw [remember] at member
  split at member
  · exact .inl member
  rename_i lasting
  split at member
  · rcases List.mem_cons.mp member with same | rest
    · exact .inr ⟨lasting, same⟩
    · exact .inl (mem_makeRoom (List.mem_of_mem_filter rest))
  · exact .inl (mem_makeRoom member)

/-- The key is added only where there is room, so the capacity is kept. -/
theorem remember_bounded (bounded : c.entries.length ≤ auth.capacity) :
    (remember auth c k now).entries.length ≤ auth.capacity := by
  rw [remember]
  split
  · exact bounded
  split
  · rename_i room
    have fewer := List.length_filter_le (fun e : Key × Instant => decide (e.1 ≠ k)) (makeRoom auth c now).entries
    rw [Cache.insert, List.length_cons]
    omega
  · rw [makeRoom]
    split
    · exact (List.length_filter_le _ _).trans bounded
    · exact bounded

end Cache

/-- The store has the user with a credential of that digest, and with the region. -/
def Grants (sha : Sha256) (auth : Authenticator) (users : Users) (k : Key) : Prop :=
  ∃ user, users k.1 = some user ∧ sha.digest (utf8 user.credential) = k.2 ∧ user.regions.contains auth.region = true

/-- An answer that passes is a row of the user with the credential of the claims and the region granted. The
credentials are compared in constant time, which is equality. -/
theorem judge_ok {claims : Claims} {users : Users} (passed : judge claims (row auth users claims.uid) = .ok ()) :
    Grants sha auth users (keyOf sha claims) := by
  rw [row] at passed
  cases found : users claims.uid with
  | none =>
    rw [found] at passed
    cases passed
  | some user =>
    rw [found, Option.map_some, judge] at passed
    split at passed
    · cases passed
    rename_i same
    split at passed
    · cases passed
    rename_i granted
    have equal := constantTimeEq_iff.mp (by simpa using same)
    exact ⟨user, found, congrArg sha.digest equal, by simpa using granted⟩

/-- The request has one user token and no other credential, and the token was verified. -/
def Presented (codec : Codec) (sha : Sha256) (json : Json) (auth : Authenticator) (r : Request) (claims : Claims) : Prop :=
  r.headers.authorization = [] ∧ ∃ token, r.headers.token = [token] ∧ verify codec sha json token auth.key r.unix = some claims

theorem Presented.unique {r : Request} {claims other : Claims} (first : Presented codec sha json auth r claims)
    (second : Presented codec sha json auth r other) : claims = other := by
  obtain ⟨-, token, single, verified⟩ := first
  obtain ⟨-, found, same, again⟩ := second
  cases single.symm.trans same
  exact Option.some.inj (verified.symm.trans again)

/-- The static bearer, and nothing else. -/
def Static (apiToken : List UInt8) (r : Request) : Prop :=
  r.headers.token = [] ∧ r.headers.authorization = [bearer apiToken]

/-- A confirmation for the claims that still counts at that instant: the cache keeps it for its lifetime. -/
def Confirmed (sha : Sha256) (auth : Authenticator) (w : World) (claims : Claims) (t : Instant) : Prop :=
  ∃ c ∈ w.confirmations, c.key = keyOf sha claims ∧ c.received ≤ t ∧ t ≤ c.received + auth.ttl

def Request.Backed (codec : Codec) (sha : Sha256) (json : Json) (auth : Authenticator) (apiToken : List UInt8) (w : World) (r : Request) : Prop :=
  match r.stage with
  | .querying claims => Presented codec sha json auth r claims
  | .answered claims _ read => Presented codec sha json auth r claims ∧ read ≤ w.now
  | .storing claims at_ => Presented codec sha json auth r claims ∧ ∃ c ∈ w.confirmations, c.key = keyOf sha claims ∧ c.received = at_
  | .done (.ok ()) decided =>
    Static apiToken r ∨ ∃ claims, Presented codec sha json auth r claims ∧ Confirmed sha auth w claims decided
  | .done (.error _) _ => True

structure Inv (codec : Codec) (sha : Sha256) (json : Json) (auth : Authenticator) (apiToken : List UInt8) (w : World) : Prop where
  bounded : w.cache.entries.length ≤ auth.capacity
  entries : ∀ e ∈ w.cache.entries, auth.ttl ≠ 0 ∧ ∃ c ∈ w.confirmations, c.key = e.1 ∧ e.2 = c.received + auth.ttl
  confirmed : ∀ c ∈ w.confirmations, Grants sha auth c.users c.key ∧ c.read ≤ c.received ∧ c.received ≤ w.now
  requests : ∀ id r, w.requests id = some r → r.Backed codec sha json auth apiToken w

/-- Confirmations are not taken back and time goes on, so a request stays backed. -/
theorem Request.Backed.later {r : Request} (backed : r.Backed codec sha json auth apiToken w) (now : w.now ≤ v.now)
    (more : ∀ c ∈ w.confirmations, c ∈ v.confirmations) : r.Backed codec sha json auth apiToken v := by
  obtain ⟨headers, unix, stage⟩ := r
  cases stage with
  | querying claims => exact backed
  | answered claims users read => exact ⟨backed.1, backed.2.trans now⟩
  | storing claims at_ =>
    obtain ⟨presented, c, member, rest⟩ := backed
    exact ⟨presented, c, more c member, rest⟩
  | done result decided =>
    cases result with
    | error e => trivial
    | ok _ =>
      rcases backed with bearer | ⟨claims, presented, c, member, rest⟩
      · exact .inl bearer
      · exact .inr ⟨claims, presented, c, more c member, rest⟩

/-- A step that changes one request, and adds at most a confirmation and an entry of the cache. -/
theorem Inv.set {w' : World} {id : Nat} {r : Request} (inv : Inv codec sha json auth apiToken w) (now : w'.now = w.now)
    (requests : w'.requests = Function.update w.requests id (some r))
    (more : ∀ c ∈ w.confirmations, c ∈ w'.confirmations)
    (fresh : ∀ c ∈ w'.confirmations, c ∈ w.confirmations ∨ Grants sha auth c.users c.key ∧ c.read ≤ c.received ∧ c.received = w.now)
    (bounded : w'.cache.entries.length ≤ auth.capacity)
    (entries : ∀ e ∈ w'.cache.entries, e ∈ w.cache.entries ∨
      auth.ttl ≠ 0 ∧ ∃ c ∈ w'.confirmations, c.key = e.1 ∧ e.2 = c.received + auth.ttl)
    (backed : r.Backed codec sha json auth apiToken w') : Inv codec sha json auth apiToken w' where
  bounded := bounded
  entries e member := by
    rcases entries e member with old | new
    · obtain ⟨lasting, c, there, rest⟩ := inv.entries e old
      exact ⟨lasting, c, more c there, rest⟩
    · exact new
  confirmed c member := by
    rw [now]
    rcases fresh c member with old | ⟨grants, order, same⟩
    · exact inv.confirmed c old
    · exact ⟨grants, order, same.le⟩
  requests i s found := by
    rw [requests] at found
    by_cases same : i = id
    · rw [same, Function.update_self] at found
      exact Option.some.inj found ▸ backed
    · rw [Function.update_of_ne same] at found
      exact (inv.requests i s found).later now.ge more

/-- A request that passes at once is one with the static token, or its key is in the cache, and entries of the
cache are confirmed. -/
theorem begin_backed (inv : Inv codec sha json auth apiToken w) (headers : Headers) (unix : Nat) :
    Request.Backed codec sha json auth apiToken w ⟨headers, unix, begin codec sha json auth apiToken w headers unix⟩ := by
  cases passed : authorizeApi true apiToken headers with
  | error e =>
    rw [begin, passed]
    trivial
  | ok user =>
    cases user with
    | none =>
      rw [begin, passed]
      exact .inl (authorizeApi_static passed)
    | some token =>
      cases verified : verify codec sha json token auth.key unix with
      | none =>
        rw [begin, passed]
        simp only [verified]
        trivial
      | some claims =>
        obtain ⟨single, alone⟩ := authorizeApi_user passed
        have presented (stage : Stage) : Presented codec sha json auth ⟨headers, unix, stage⟩ claims :=
          ⟨alone, token, single, verified⟩
        by_cases hit : cached w.cache (keyOf sha claims) w.now = true
        · obtain ⟨expiry, member, live⟩ := cached_entry hit
          obtain ⟨-, c, there, key, same⟩ := inv.entries _ member
          rw [begin, passed]
          simp only [verified, if_pos hit]
          refine .inr ⟨claims, presented _, c, there, key, (inv.confirmed c there).2.2, ?_⟩
          exact same ▸ live.le
        · rw [begin, passed]
          simp only [verified, if_neg hit]
          exact presented _

/-- What one step keeps. -/
theorem Inv.step {l : Label} (inv : Inv codec sha json auth apiToken w) (taken : step codec sha json auth apiToken w l = some v) :
    Inv codec sha json auth apiToken v := by
  cases l with
  | tick wait =>
    cases taken
    refine ⟨inv.bounded, inv.entries, fun c member => ?_, fun id r found => ?_⟩
    · obtain ⟨grants, order, past⟩ := inv.confirmed c member
      exact ⟨grants, order, past.trans (Nat.le_add_right _ _)⟩
    · exact (inv.requests id r found).later (Nat.le_add_right _ _) fun _ there => there
  | administer users =>
    cases taken
    exact ⟨inv.bounded, inv.entries, inv.confirmed, fun id r found => (inv.requests id r found).later le_rfl fun _ there => there⟩
  | arrive id headers unix =>
    rw [ClientAuth.step] at taken
    split at taken
    · cases taken
      exact inv.set rfl rfl (fun _ there => there) (fun _ => .inl) inv.bounded (fun _ => .inl)
        ((begin_backed inv headers unix).later le_rfl fun _ there => there)
    · cases taken
  | query id =>
    rw [ClientAuth.step] at taken
    split at taken
    · rename_i headers unix claims found
      cases taken
      exact inv.set rfl rfl (fun _ there => there) (fun _ => .inl) inv.bounded (fun _ => .inl) ⟨inv.requests id _ found, le_rfl⟩
    · cases taken
  | receive id =>
    rw [ClientAuth.step] at taken
    split at taken
    · rename_i headers unix claims users read found
      obtain ⟨presented, past⟩ := inv.requests id _ found
      cases taken
      rw [received]
      split
      · exact inv.set rfl rfl (fun _ there => there) (fun _ => .inl) inv.bounded (fun _ => .inl) trivial
      · rename_i passed
        refine inv.set rfl rfl (fun _ => List.mem_cons_of_mem _) (fun c member => ?_) inv.bounded (fun e => .inl)
          ⟨presented, _, List.mem_cons_self, rfl, rfl⟩
        rcases List.mem_cons.mp member with rfl | rest
        · exact .inr ⟨judge_ok passed, past, rfl⟩
        · exact .inl rest
    · cases taken
  | store id =>
    rw [ClientAuth.step] at taken
    split at taken
    · rename_i headers unix claims at_ found
      obtain ⟨presented, c, there, key, same⟩ := inv.requests id _ found
      cases taken
      refine inv.set rfl rfl (fun _ there => there) (fun _ => .inl) (remember_bounded inv.bounded) (fun e member => ?_) ?_
      · rcases remember_entry member with kept | ⟨lasting, rfl⟩
        · exact .inl kept
        · exact .inr ⟨lasting, c, there, key, by rw [same]⟩
      · exact .inr ⟨claims, presented, c, there, key, same.le, same ▸ Nat.le_add_right _ _⟩
    · cases taken
  | fail id =>
    rw [ClientAuth.step] at taken
    split at taken
    · cases taken
      exact inv.set rfl rfl (fun _ there => there) (fun _ => .inl) inv.bounded (fun _ => .inl) trivial
    · cases taken
      exact inv.set rfl rfl (fun _ there => there) (fun _ => .inl) inv.bounded (fun _ => .inl) trivial
    · cases taken

def run (codec : Codec) (sha : Sha256) (json : Json) (auth : Authenticator) (apiToken : List UInt8) (users : Users) : World → Prop :=
  Run.Reach (step codec sha json auth apiToken) (fun _ _ => True) { users := users }

theorem run_inv {users : Users} (reach : run codec sha json auth apiToken users w) : Inv codec sha json auth apiToken w := by
  refine reach.invariant ?_ fun _ _ _ inv _ taken => inv.step taken
  exact ⟨Nat.zero_le _, fun e member => absurd member List.not_mem_nil, fun c member => absurd member List.not_mem_nil,
    fun id r off => nomatch off⟩

/-- Who stands behind a request that was let through, with the confirmation that still counted then. -/
theorem Inv.passed (inv : Inv codec sha json auth apiToken w) {id : Nat} {r : Request} {decided : Instant}
    (there : w.requests id = some r) (passed : r.stage = .done (.ok ()) decided) :
    Static apiToken r ∨ ∃ claims, Presented codec sha json auth r claims ∧
      ∃ c ∈ w.confirmations, c.key = keyOf sha claims ∧ Grants sha auth c.users c.key ∧ c.read ≤ c.received ∧
        c.received ≤ decided ∧ decided ≤ c.received + auth.ttl := by
  have backed := inv.requests id r there
  obtain ⟨headers, unix, stage⟩ := r
  cases passed
  rcases backed with static | ⟨claims, presented, c, member, key, after, before⟩
  · exact .inl static
  · obtain ⟨grants, order, -⟩ := inv.confirmed c member
    exact .inr ⟨claims, presented, c, member, key, grants, order, after, before⟩

section Sample

def sampleKey : List UInt8 := List.replicate 32 107
def sampleHeader : List UInt8 := utf8 "\x7b\"alg\":\"HS256\"\x7d"
def samplePayload : List UInt8 := utf8 "\x7b\"uid\":\"u1\",\"credential\":\"c1\"\x7d"

def sampleCodec : Codec where
  encode := Base64.encode
  decode := Base64.decode
  decode_encode := Base64.decode_encode
  encode_decode _ _ := Base64.encode_of_decode
  no_dot _ := Base64.not_mem_encode rfl

def innerDigest : List UInt8 :=
  [73, 108, 208, 81, 201, 62, 254, 84, 152, 56, 252, 54, 236, 107, 1, 32, 135, 180, 109, 184, 6, 230, 143, 217, 28, 181,
    227, 113, 226, 60, 69, 96]

def macDigest : List UInt8 :=
  [66, 86, 222, 179, 222, 191, 151, 99, 3, 24, 81, 207, 24, 74, 91, 39, 247, 139, 249, 195, 67, 234, 217, 26, 139, 40,
    159, 70, 240, 147, 141, 156]

def credentialDigest : List UInt8 :=
  [208, 246, 49, 202, 29, 219, 168, 219, 59, 207, 203, 158, 5, 124, 220, 152, 208, 55, 159, 27, 238, 0, 231, 90, 84, 81,
    71, 162, 125, 173, 217, 130]

def padded (byte : UInt8) : List UInt8 := (sampleKey ++ List.replicate 32 0).map (· ^^^ byte)

def sampleDigest (message : List UInt8) : List UInt8 :=
  if message = padded 92 ++ innerDigest then macDigest
  else if message = padded 54 ++ (Base64.encode sampleHeader ++ 46 :: Base64.encode samplePayload) then innerDigest
  else if message = utf8 "c1" then credentialDigest
  else List.replicate 32 0

/-- SHA-256 on the messages of the sample. -/
def sampleSha : Sha256 where
  digest := sampleDigest
  length_digest message := by
    rw [sampleDigest]
    split_ifs
    · rfl
    · rfl
    · rfl
    · rfl

def sampleJson : Json where
  header bytes := if bytes = sampleHeader then some ⟨"HS256", none⟩ else none
  payload bytes := if bytes = samplePayload then some ⟨"u1", "c1", none⟩ else none

def sampleAuth : Authenticator := ⟨sampleKey, "jp", 60, 4⟩

def sampleUsers : Users := fun uid => if uid = "u1" then some ⟨"c1", ["jp"]⟩ else none

def sampleToken : List UInt8 :=
  Base64.encode sampleHeader ++ 46 :: (Base64.encode samplePayload ++ 46 :: Base64.encode macDigest)

def sampleHeaders : Headers := ⟨[], [sampleToken]⟩

def Stage.passed : Stage → Option Instant
  | .done (.ok ()) decided => some decided
  | _ => none

/-- Only a request that is done has passed. -/
theorem Stage.of_passed {stage : Stage} {decided : Instant} (passed : stage.passed = some decided) :
    stage = .done (.ok ()) decided := by
  cases stage with
  | done result at_ =>
    cases result with
    | ok _ =>
      cases passed
      rfl
    | error e => cases passed
  | querying claims => cases passed
  | answered claims users read => cases passed
  | storing claims at_ => cases passed

/-- One request is confirmed by the store, and another one comes later. -/
def twoRequests : List Label :=
  [.arrive 0 sampleHeaders 0, .query 0, .tick 3, .receive 0, .store 0, .tick 50, .arrive 1 sampleHeaders 0]

/-- The request that was let through at that instant with the sample's headers. -/
def World.passedAt (w : World) (id : Nat) : Option Instant :=
  (w.requests id).bind fun r =>
    if r.headers.authorization = [] ∧ r.headers.token = [sampleToken] ∧ r.unix = 0 then r.stage.passed else none

theorem World.of_passedAt {id : Nat} {decided : Instant} (passed : w.passedAt id = some decided) :
    ∃ r, w.requests id = some r ∧ r.stage = .done (.ok ()) decided ∧ Presented sampleCodec sampleSha sampleJson sampleAuth r ⟨"u1", "c1"⟩ := by
  obtain ⟨r, there, passed⟩ := Option.bind_eq_some_iff.mp passed
  obtain ⟨⟨alone, single, epoch⟩, passed⟩ := Option.ite_none_right_eq_some.mp passed
  have verified : verify sampleCodec sampleSha sampleJson sampleToken sampleAuth.key 0 = some ⟨"u1", "c1"⟩ := by decide +kernel
  exact ⟨r, there, Stage.of_passed passed, alone, sampleToken, single, epoch ▸ verified⟩

theorem twoRequests_passed : ((Run.exec (step sampleCodec sampleSha sampleJson sampleAuth []) { users := sampleUsers } twoRequests).bind
    fun w => w.passedAt 1) = some 53 := by decide +kernel

end Sample

/-- A request is let through by the static bearer, or by a verified token of a user whom the store confirmed at
most a lifetime of the cache ago; and in every state the cache is bounded. -/
theorem passed_backed {users : Users} (reach : run codec sha json auth apiToken users w) :
    w.cache.entries.length ≤ auth.capacity ∧
      ∀ id r decided, w.requests id = some r → r.stage = .done (.ok ()) decided →
        Static apiToken r ∨ ∃ claims, Presented codec sha json auth r claims ∧
          ∃ c ∈ w.confirmations, c.key = keyOf sha claims ∧ Grants sha auth c.users c.key ∧ c.read ≤ c.received ∧
            c.received ≤ decided ∧ decided ≤ c.received + auth.ttl :=
  ⟨(run_inv reach).bounded, fun _ _ _ there passed => (run_inv reach).passed there passed⟩

/-- The second request is answered from the cache, which holds the one decision. -/
theorem passed_backed_cached : ∃ w : World, w.cache.entries.length ≤ 4 ∧ ∃ c ∈ w.confirmations,
    Grants sampleSha sampleAuth c.users ("u1", credentialDigest) ∧ c.received ≤ 53 ∧ 53 ≤ c.received + 60 := by
  obtain ⟨w, ran, passed⟩ := Option.bind_eq_some_iff.mp twoRequests_passed
  obtain ⟨r, there, done, presented⟩ := World.of_passedAt passed
  obtain ⟨bounded, backed⟩ := passed_backed (Run.reach_of_exec ran)
  rcases backed 1 r 53 there done with static | ⟨claims, shown, c, member, key, grants, -, rest⟩
  · cases presented.1.symm.trans static.2
  · cases presented.unique shown
    have named : keyOf sampleSha ⟨"u1", "c1"⟩ = ("u1", credentialDigest) := by decide +kernel
    exact ⟨w, bounded, c, member, named ▸ key ▸ grants, rest⟩

/-- The store no longer grants the key, and nothing in flight was read later than `since`. -/
structure Revoked (sha : Sha256) (auth : Authenticator) (k : Key) (since : Instant) (w : World) : Prop where
  users : ¬Grants sha auth w.users k
  confirmed : ∀ c ∈ w.confirmations, c.key = k → c.read ≤ since
  answered : ∀ id headers unix claims users read, w.requests id = some ⟨headers, unix, .answered claims users read⟩ →
    keyOf sha claims = k → Grants sha auth users k → read ≤ since

/-- The label does not grant the key again. -/
def Withholds (sha : Sha256) (auth : Authenticator) (k : Key) (_ : World) : Label → Prop
  | .administer users => ¬Grants sha auth users k
  | _ => True

/-- A step on one request keeps the revocation if it notes no confirmation of the key that was read later, and
reads no grant of it. -/
theorem Revoked.set {w' : World} {k : Key} {since : Instant} {id : Nat} {r : Request} (revoked : Revoked sha auth k since w)
    (users : w'.users = w.users) (requests : w'.requests = Function.update w.requests id (some r))
    (fresh : ∀ c ∈ w'.confirmations, c ∈ w.confirmations ∨ (c.key = k → c.read ≤ since))
    (own : ∀ claims users read, r.stage = .answered claims users read → keyOf sha claims = k → Grants sha auth users k →
      read ≤ since) : Revoked sha auth k since w' where
  users := users ▸ revoked.users
  confirmed c member key := by
    rcases fresh c member with old | new
    · exact revoked.confirmed c old key
    · exact new key
  answered i headers unix claims stored read found := by
    rw [requests] at found
    by_cases same : i = id
    · rw [same, Function.update_self] at found
      cases found
      exact own claims stored read rfl
    · rw [Function.update_of_ne same] at found
      exact revoked.answered i headers unix claims stored read found

/-- While the grant is withheld no row of it is read, so neither the cache nor a request gets one that is younger
than the revocation. -/
theorem Revoked.step {k : Key} {since : Instant} {l : Label} (revoked : Revoked sha auth k since w)
    (withheld : Withholds sha auth k w l) (taken : ClientAuth.step codec sha json auth apiToken w l = some v) :
    Revoked sha auth k since v := by
  cases l with
  | tick wait =>
    cases taken
    exact ⟨revoked.users, revoked.confirmed, revoked.answered⟩
  | administer users =>
    cases taken
    exact ⟨withheld, revoked.confirmed, revoked.answered⟩
  | arrive id headers unix =>
    rw [ClientAuth.step] at taken
    split at taken
    · cases taken
      refine revoked.set rfl rfl (fun _ => .inl) fun claims users read begun => ?_
      cases passed : authorizeApi true apiToken headers with
      | error e =>
        rw [begin, passed] at begun
        cases begun
      | ok user =>
        cases user with
        | none =>
          rw [begin, passed] at begun
          cases begun
        | some token =>
          rw [begin, passed] at begun
          simp only at begun
          split at begun
          · cases begun
          split at begun
          · cases begun
          · cases begun
    · cases taken
  | query id =>
    rw [ClientAuth.step] at taken
    split at taken
    · cases taken
      refine revoked.set rfl rfl (fun _ => .inl) fun claims users read begun _ grants => ?_
      cases begun
      exact absurd grants revoked.users
    · cases taken
  | receive id =>
    rw [ClientAuth.step] at taken
    split at taken
    · rename_i headers unix claims users read found
      cases taken
      rw [received]
      split
      · refine revoked.set rfl rfl (fun _ => .inl) fun claims users read begun => ?_
        cases begun
      · rename_i passed
        refine revoked.set rfl rfl (fun c member => ?_) fun claims users read begun => ?_
        · rcases List.mem_cons.mp member with rfl | rest
          · exact .inr fun own => revoked.answered id _ _ claims users read found own (own ▸ judge_ok passed)
          · exact .inl rest
        · cases begun
    · cases taken
  | store id =>
    rw [ClientAuth.step] at taken
    split at taken
    · cases taken
      refine revoked.set rfl rfl (fun _ => .inl) fun claims users read begun => ?_
      cases begun
    · cases taken
  | fail id =>
    rw [ClientAuth.step] at taken
    split at taken
    · cases taken
      refine revoked.set rfl rfl (fun _ => .inl) fun claims users read begun => ?_
      cases begun
    · cases taken
      refine revoked.set rfl rfl (fun _ => .inl) fun claims users read begun => ?_
      cases begun
    · cases taken

/-- A user whose grant or credential is taken away is let through no longer than a lifetime of the cache, and the
time that the store takes to answer, after it. -/
theorem revocation {users : Users} {k : Key} {latency : Nat} (before : run codec sha json auth apiToken users w)
    (taken : ¬Grants sha auth w.users k)
    (after : Run.Reach (step codec sha json auth apiToken) (Withholds sha auth k) w v)
    (prompt : ∀ c ∈ v.confirmations, c.received ≤ c.read + latency) {id : Nat} {r : Request} {claims : Claims} {decided : Instant}
    (there : v.requests id = some r) (passed : r.stage = .done (.ok ()) decided)
    (presented : Presented codec sha json auth r claims) (own : keyOf sha claims = k) :
    decided ≤ w.now + latency + auth.ttl := by
  have inv := run_inv before
  have begun : Revoked sha auth k w.now w := by
    refine ⟨taken, fun c member _ => ?_, fun id headers unix claims users read found _ _ => (inv.requests id _ found).2⟩
    exact (inv.confirmed c member).2.1.trans (inv.confirmed c member).2.2
  have revoked : Revoked sha auth k w.now v :=
    after.invariant begun fun _ _ _ revoked withheld taken => revoked.step withheld taken
  have whole : run codec sha json auth apiToken users v := before.trans (after.weaken fun _ _ _ => trivial)
  rcases (run_inv whole).passed there passed with static | ⟨other, shown, c, member, key, -, -, -, fresh⟩
  · cases presented.1.symm.trans static.2
  · cases presented.unique shown
    have old := revoked.confirmed c member (key.trans own)
    calc decided ≤ c.received + auth.ttl := fresh
      _ ≤ c.read + latency + auth.ttl := Nat.add_le_add_right (prompt c member) _
      _ ≤ w.now + latency + auth.ttl := Nat.add_le_add_right (Nat.add_le_add_right old _) _

/-- The user is taken away, and a cached decision holds for another few seconds. -/
theorem revocation_cached : ∃ w v : World, w.now = 53 ∧ v.passedAt 2 = some 60 ∧ 60 ≤ w.now + 3 + sampleAuth.ttl := by
  have late : ((Run.exec (step sampleCodec sampleSha sampleJson sampleAuth []) { users := sampleUsers } twoRequests).bind fun w =>
      (Run.exec (step sampleCodec sampleSha sampleJson sampleAuth []) { w with users := fun _ => none }
        [.tick 7, .arrive 2 sampleHeaders 0]).bind fun v =>
          if w.now = 53 ∧ v.confirmations.all (fun c => decide (c.received ≤ c.read + 3)) = true then v.passedAt 2 else none) =
        some 60 := by decide +kernel
  obtain ⟨w, ran, late⟩ := Option.bind_eq_some_iff.mp late
  obtain ⟨v, more, late⟩ := Option.bind_eq_some_iff.mp late
  obtain ⟨⟨clock, prompt⟩, passed⟩ := Option.ite_none_right_eq_some.mp late
  obtain ⟨r, there, done, presented⟩ := World.of_passedAt passed
  have before : run sampleCodec sampleSha sampleJson sampleAuth [] sampleUsers { w with users := fun _ => none } :=
    (Run.reach_of_exec ran).next (l := .administer fun _ => none) trivial rfl
  have taken : ¬Grants sampleSha sampleAuth (fun _ => none) (keyOf sampleSha ⟨"u1", "c1"⟩) := by
    rintro ⟨user, off, -⟩
    cases off
  have after : Run.Reach (step sampleCodec sampleSha sampleJson sampleAuth [])
      (Withholds sampleSha sampleAuth (keyOf sampleSha ⟨"u1", "c1"⟩)) { w with users := fun _ => none } v := by
    refine Run.Reach.start.exec_allowed more fun l member _ => ?_
    rcases List.mem_cons.mp member with rfl | rest
    · trivial
    · rw [List.mem_singleton.mp rest]
      trivial
  exact ⟨{ w with users := fun _ => none }, v, clock, passed, revocation before taken after
    (fun c member => of_decide_eq_true (List.all_eq_true.mp prompt c member)) there done presented rfl⟩

end SiriusProxy.ClientAuth
