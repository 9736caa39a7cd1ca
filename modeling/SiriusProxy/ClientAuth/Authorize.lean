import SiriusProxy.ClientAuth.Token
import SiriusProxy.Error
import SiriusProxy.Lib.Run
import SiriusProxy.Text

namespace SiriusProxy.ClientAuth

/-- The bytes of a `str`. -/
def utf8 (text : String) : List UInt8 := text.toUTF8.data.toList

structure User where
  credential : String
  regions : List String
  deriving DecidableEq, Repr

/-- The tables `sirius_api_users` and `sirius_api_user_regions`. -/
abbrev Users := String → Option User

/-- What a positive decision is cached under: the user and a digest of the credential. -/
abbrev Key := String × List UInt8

structure Authenticator where
  key : List UInt8
  region : String
  ttl : Nat
  capacity : Nat

section Cache

/-- The `HashMap` of decisions with the instant until which each holds. -/
structure Cache where
  entries : List (Key × Instant)
  unique : (entries.map Prod.fst).Nodup

def Cache.get? (c : Cache) (k : Key) : Option Instant := (c.entries.find? fun e => decide (e.1 = k)).map Prod.snd

def Cache.retain (c : Cache) (live : Key × Instant → Bool) : Cache where
  entries := c.entries.filter live
  unique := c.unique.sublist (List.filter_sublist.map _)

theorem Cache.unique_insert (c : Cache) (k : Key) (expiry : Instant) :
    (((k, expiry) :: c.entries.filter fun e => decide (e.1 ≠ k)).map Prod.fst).Nodup := by
  refine List.nodup_cons.mpr ⟨fun member => ?_, c.unique.sublist (List.filter_sublist.map _)⟩
  obtain ⟨e, kept, same⟩ := List.mem_map.mp member
  exact of_decide_eq_true (List.mem_filter.mp kept).2 same

def Cache.insert (c : Cache) (k : Key) (expiry : Instant) : Cache where
  entries := (k, expiry) :: c.entries.filter fun e => decide (e.1 ≠ k)
  unique := c.unique_insert k expiry

def Cache.empty : Cache := ⟨[], List.nodup_nil⟩

def cached (c : Cache) (k : Key) (now : Instant) : Bool := (c.get? k).any fun expiry => decide (now < expiry)

/-- A full cache gives its expired entries up. -/
def makeRoom (auth : Authenticator) (c : Cache) (now : Instant) : Cache :=
  if auth.capacity ≤ c.entries.length then c.retain fun e => decide (now < e.2) else c

/-- A cache full of live entries does not take another. -/
def remember (auth : Authenticator) (c : Cache) (k : Key) (now : Instant) : Cache :=
  if auth.ttl = 0 then c
  else if (makeRoom auth c now).entries.length < auth.capacity then (makeRoom auth c now).insert k (now + auth.ttl)
  else makeRoom auth c now

end Cache

/-- The row of the query: the credential of the user, and whether the region is granted. -/
def row (auth : Authenticator) (users : Users) (uid : String) : Option (String × Bool) :=
  (users uid).map fun user => (user.credential, user.regions.contains auth.region)

/-- What `authorize` makes of the row. -/
def judge (claims : Claims) : Option (String × Bool) → Except AppError Unit
  | none => .error .unauthorized
  | some (credential, granted) =>
    if !constantTimeEq (utf8 credential) (utf8 claims.credential) then .error .unauthorized
    else if !granted then .error .forbidden else .ok ()

section Headers

/-- The values of the two headers of a request. -/
structure Headers where
  authorization : List (List UInt8)
  token : List (List UInt8)

def bearer (token : List UInt8) : List UInt8 := utf8 "Bearer " ++ token

/-- The static bearer, of `api::authorize`. -/
def authorizeStatic (token : List UInt8) (h : Headers) : Except AppError Unit :=
  if h.authorization.length ≠ 1 ∨ h.authorization.head?.bind toStr ≠ some (bearer token) then .error .unauthorized
  else .ok ()

/-- `authorize_api` up to the call of the authenticator: `none` where the static bearer has passed. -/
def authorizeApi (configured : Bool) (token : List UInt8) (h : Headers) : Except AppError (Option (List UInt8)) :=
  if h.token.length = 0 then (authorizeStatic token h).map fun _ => none
  else if !configured then .error .unauthorized
  else if h.token.length ≠ 1 ∨ h.authorization ≠ [] then .error .unauthorized
  else match h.token.head?.bind toStr with
    | none => .error .unauthorized
    | some value => .ok (some value)

theorem authorizeApi_static {configured : Bool} {token : List UInt8} {h : Headers}
    (passed : authorizeApi configured token h = .ok none) : h.token = [] ∧ h.authorization = [bearer token] := by
  rw [authorizeApi] at passed
  split at passed
  · rename_i absent
    rw [authorizeStatic] at passed
    split at passed
    · cases passed
    · rename_i exact
      rw [not_or, not_not, not_not] at exact
      obtain ⟨value, single⟩ := List.length_eq_one_iff.mp exact.1
      have same := exact.2
      rw [single] at same
      exact ⟨List.eq_nil_of_length_eq_zero absent, by rw [single, toStr_eq_some same]⟩
  · split at passed
    · cases passed
    split at passed
    · cases passed
    split at passed
    · cases passed
    · cases passed

theorem authorizeApi_user {configured : Bool} {token value : List UInt8} {h : Headers}
    (passed : authorizeApi configured token h = .ok (some value)) : h.token = [value] ∧ h.authorization = [] := by
  rw [authorizeApi] at passed
  split at passed
  · cases checked : authorizeStatic token h with
    | error e =>
      rw [checked] at passed
      cases passed
    | ok _ =>
      rw [checked] at passed
      cases passed
  split at passed
  · cases passed
  split at passed
  · cases passed
  rename_i single
  rw [not_or, not_not, not_not] at single
  obtain ⟨first, same⟩ := List.length_eq_one_iff.mp single.1
  rw [same] at passed
  split at passed
  · cases passed
  · rename_i read
    cases passed
    rw [toStr_eq_some read]
    exact ⟨same, single.2⟩

end Headers

/-- Where the call of a request stands. The row is read from the store as it is then. -/
inductive Stage where
  | querying (claims : Claims)
  | answered (claims : Claims) (users : Users) (read : Instant)
  | storing (claims : Claims) (received : Instant)
  | done (result : Except AppError Unit) (decided : Instant)

/-- A request with the wall clock at its arrival. -/
structure Request where
  headers : Headers
  unix : Nat
  stage : Stage

/-- A row that confirmed a user, with the store it was read from. -/
structure Confirmation where
  key : Key
  users : Users
  read : Instant
  received : Instant

structure World where
  now : Instant := 0
  users : Users := fun _ => none
  cache : Cache := .empty
  requests : Nat → Option Request := fun _ => none
  confirmations : List Confirmation := []

inductive Label where
  | tick (wait : Nat)
  | administer (users : Users)
  | arrive (id : Nat) (headers : Headers) (unix : Nat)
  | query (id : Nat)
  | receive (id : Nat)
  | store (id : Nat)
  | fail (id : Nat)

def World.set (w : World) (id : Nat) (r : Request) : World := { w with requests := Function.update w.requests id (some r) }

section Step
variable (codec : Codec) (sha : Sha256) (json : Json) (auth : Authenticator) (apiToken : List UInt8)

def keyOf (claims : Claims) : Key := (claims.uid, sha.digest (utf8 claims.credential))

/-- Up to the query, without waiting. -/
def begin (w : World) (headers : Headers) (unix : Nat) : Stage :=
  match authorizeApi true apiToken headers with
  | .error e => .done (.error e) w.now
  | .ok none => .done (.ok ()) w.now
  | .ok (some token) => match verify codec sha json token auth.key unix with
    | none => .done (.error .unauthorized) w.now
    | some claims => if cached w.cache (keyOf sha claims) w.now then .done (.ok ()) w.now else .querying claims

/-- The row arrives. -/
def received (w : World) (id : Nat) (r : Request) (claims : Claims) (users : Users) (read : Instant) : World :=
  match judge claims (row auth users claims.uid) with
  | .error e => w.set id { r with stage := .done (.error e) w.now }
  | .ok () =>
    { w.set id { r with stage := .storing claims w.now } with
      confirmations := ⟨keyOf sha claims, users, read, w.now⟩ :: w.confirmations }

def step (w : World) : Label → Option World
  | .tick wait => some { w with now := w.now + wait }
  | .administer users => some { w with users := users }
  | .arrive id headers unix => match w.requests id with
    | none => some (w.set id ⟨headers, unix, begin codec sha json auth apiToken w headers unix⟩)
    | some _ => none
  | .query id => match w.requests id with
    | some ⟨headers, unix, .querying claims⟩ => some (w.set id ⟨headers, unix, .answered claims w.users w.now⟩)
    | _ => none
  | .receive id => match w.requests id with
    | some ⟨headers, unix, .answered claims users read⟩ =>
      some (received sha auth w id ⟨headers, unix, .answered claims users read⟩ claims users read)
    | _ => none
  | .store id => match w.requests id with
    | some ⟨headers, unix, .storing claims at_⟩ =>
      some { w.set id ⟨headers, unix, .done (.ok ()) at_⟩ with cache := remember auth w.cache (keyOf sha claims) at_ }
    | _ => none
  | .fail id => match w.requests id with
    | some ⟨headers, unix, .querying _⟩ => some (w.set id ⟨headers, unix, .done (.error .authUnavailable) w.now⟩)
    | some ⟨headers, unix, .answered _ _ _⟩ => some (w.set id ⟨headers, unix, .done (.error .authUnavailable) w.now⟩)
    | _ => none

end Step

end SiriusProxy.ClientAuth
