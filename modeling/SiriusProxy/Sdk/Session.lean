import Mathlib.Tactic.SplitIfs
import SiriusProxy.Login.State

namespace SiriusProxy.Sdk

/-- An SDK refusal: the numeric code and when it was received. -/
structure Refusal where
  code : Int
  receivedAt : Instant
  deriving DecidableEq, Repr

structure State where
  account : Option SdkAccount := none
  validatedAt : Option Instant := none
  generation : Nat := 0
  stale : Bool := false
  refusal : Option Refusal := none
  deriving DecidableEq, Repr

/-- The state file. -/
structure Persisted where
  schema : Nat
  uid : String
  accessKeyFingerprint : String
  idToken : String := ""
  mid : Option String := none
  validatedAt : Option Instant := none
  refusal : Option Refusal := none
  deriving DecidableEq, Repr

/-- What the session uses of other crates: the `exp` of a JWT, header parsing, and the size of
the JSON of a state file. -/
structure Library where
  tokenExpiry : String → Option Int
  headerValue : String → Bool
  fileSize : Persisted → Nat

/-- The fixed part of `SdkSession`: one identity, shared by every region that uses it. -/
structure Identity where
  uid : String
  accessKey : String
  accessKeyFingerprint : String
  deriving DecidableEq, Repr

structure Loaded where
  account : Option SdkAccount
  validatedAt : Option Instant
  refusal : Option Refusal
  deriving DecidableEq, Repr

variable (L : Library) (identity : Identity)

/-- A token this close to its `exp` counts as expired; one without `exp` does not expire here. -/
def expiring (token : String) (now : Instant) : Bool :=
  match L.tokenExpiry token with
  | some exp => decide (exp - 300 ≤ Int.ofNat (now / 1000000000))
  | none => false

def headerSafe (v : String) : Bool := v != "" && decide (v.utf8ByteSize ≤ 4096) && L.headerValue v

def State.reusable (now : Instant) (s : State) : Option (SdkAccount × Nat) :=
  if s.stale || s.refusal.isSome then none
  else (s.account.filter fun a => !expiring L a.idToken now).map fun a => (a, s.generation)

/-- The refusal still in force. -/
def State.refusalAt (now : Instant) (retry : Nat) (s : State) : Option Refusal :=
  s.refusal.filter fun r => decide (now < r.receivedAt + retry)

def State.keepaliveDue (now : Instant) (interval : Nat) (s : State) : Bool :=
  s.refusal.isNone && s.validatedAt.any fun v => decide (v + interval ≤ now)

/-- Whether the token of a file may be adopted at this time. -/
def usable (now : Instant) (p : Persisted) : Bool :=
  p.refusal.isNone && headerSafe L p.idToken && (L.tokenExpiry p.idToken).isSome &&
    !expiring L p.idToken now && p.mid.all (headerSafe L)

/-- `SdkSession::read` of an existing file. -/
def read (now : Instant) (p : Persisted) : Option Loaded :=
  if 16384 < L.fileSize p then none
  else if ¬ (p.schema = 1 ∧ p.uid = identity.uid ∧ p.accessKeyFingerprint = identity.accessKeyFingerprint) then none
  else some
    { account := if usable L now p then
        some { uid := identity.uid, accessKey := identity.accessKey, idToken := p.idToken, mid := p.mid }
      else none
      validatedAt := p.validatedAt
      refusal := p.refusal }

/-- Later than everything the state knows. -/
def State.newer (s : State) (t : Instant) : Bool :=
  s.validatedAt.all (fun v => decide (v < t)) && s.refusal.all fun r => decide (r.receivedAt < t)

/-- `SdkSession::merge` of a file that could be read. -/
def State.mergeLoaded (disk : Loaded) (s : State) : State :=
  match disk.refusal.filter fun r => s.newer r.receivedAt with
  | some refusal =>
    { s with account := none, generation := s.generation + 1, stale := false, refusal := some refusal }
  | none => match disk.validatedAt.filter s.newer with
    | some v => match disk.account with
      | some account =>
        { s with
          validatedAt := some v, account := some account, generation := s.generation + 1, stale := false
          refusal := none }
      | none => { s with validatedAt := some v }
    | none => s

def State.merge (now : Instant) (file : Option Persisted) (s : State) : State :=
  match file.bind (read L identity now) with
  | some disk => s.mergeLoaded disk
  | none => s

/-- The file written for a state; a stale token is left out. -/
def State.persisted (s : State) : Persisted :=
  let account := s.account.filter fun _ => !s.stale
  { schema := 1
    uid := identity.uid
    accessKeyFingerprint := identity.accessKeyFingerprint
    idToken := (account.map (·.idToken)).getD ""
    mid := account.bind (·.mid)
    validatedAt := s.validatedAt
    refusal := s.refusal }

/-- A successful `cache.login`, before it is persisted. -/
def State.validated (account : SdkAccount) (now : Instant) (s : State) : State :=
  { s with
    account := some account, validatedAt := some now, generation := s.generation + 1, stale := false
    refusal := none }

/-- A refusal, before it is persisted. -/
def State.refused (code : Int) (now : Instant) (s : State) : State :=
  { s with
    account := none, generation := s.generation + 1, stale := false
    refusal := some { code := code, receivedAt := now } }

/-- Whether a `TOKEN_*` signal about a session of `generation` changes anything. -/
def State.concerns (generation : Nat) (s : State) : Bool := s.generation == generation && !s.stale

/-- `SdkSessions::session` of an identity that is not in use yet. -/
def fresh (now : Instant) (file : Option Persisted) : State := ({} : State).merge L identity now file

/-- Everything a merge can do. -/
inductive Merged (disk : Loaded) (s : State) : State → Prop
  | same (noRefusal : ∀ r, disk.refusal = some r → s.newer r.receivedAt = false)
      (noTime : ∀ v, disk.validatedAt = some v → s.newer v = false) : Merged disk s s
  | refusal {r : Refusal} (found : disk.refusal = some r) (new : s.newer r.receivedAt = true) :
      Merged disk s
        { s with account := none, generation := s.generation + 1, stale := false, refusal := some r }
  | session {v : Instant} {account : SdkAccount} (found : disk.validatedAt = some v) (new : s.newer v = true)
      (noRefusal : ∀ r, disk.refusal = some r → s.newer r.receivedAt = false)
      (present : disk.account = some account) :
      Merged disk s
        { s with
          validatedAt := some v, account := some account, generation := s.generation + 1, stale := false
          refusal := none }
  | time {v : Instant} (found : disk.validatedAt = some v) (new : s.newer v = true)
      (noRefusal : ∀ r, disk.refusal = some r → s.newer r.receivedAt = false)
      (absent : disk.account = none) : Merged disk s { s with validatedAt := some v }

variable {L identity} {disk : Loaded} {s : State} {now : Instant}

theorem mergeLoaded_merged (disk : Loaded) (s : State) : Merged disk s (s.mergeLoaded disk) := by
  unfold State.mergeLoaded
  split
  · rename_i refusal found
    obtain ⟨found, new⟩ := Option.filter_eq_some_iff.mp found
    exact .refusal found new
  rename_i noRefusal
  have old : ∀ r, disk.refusal = some r → s.newer r.receivedAt = false := by
    intro r found
    rw [Option.filter_eq_none_iff] at noRefusal
    exact Bool.eq_false_iff.mpr (noRefusal r found)
  split
  · rename_i v found
    obtain ⟨found, new⟩ := Option.filter_eq_some_iff.mp found
    split
    · rename_i account present
      exact .session found new old present
    · rename_i absent
      exact .time found new old absent
  · rename_i noTime
    refine .same old fun v found => ?_
    rw [Option.filter_eq_none_iff] at noTime
    exact Bool.eq_false_iff.mpr (noTime v found)

theorem newer_iff {t : Instant} : s.newer t = true ↔
    (∀ v, s.validatedAt = some v → v < t) ∧ ∀ r, s.refusal = some r → r.receivedAt < t := by
  unfold State.newer
  rw [Bool.and_eq_true, Option.all_eq_true, Option.all_eq_true]
  simp only [decide_eq_true_eq]

theorem newer_mono {t u : Instant} (new : s.newer t = true) (later : t ≤ u) : s.newer u = true := by
  obtain ⟨times, refusals⟩ := newer_iff.mp new
  exact newer_iff.mpr ⟨fun v known => Nat.lt_of_lt_of_le (times v known) later,
    fun r known => Nat.lt_of_lt_of_le (refusals r known) later⟩

theorem newer_false_of_validated {v t : Instant} (known : s.validatedAt = some v) (late : t ≤ v) :
    s.newer t = false := by
  refine Bool.eq_false_iff.mpr fun new => ?_
  have before := (newer_iff.mp new).1 v known
  exact Nat.not_lt_of_le late before

theorem newer_false_of_refusal {r : Refusal} {t : Instant} (known : s.refusal = some r) (late : t ≤ r.receivedAt) :
    s.newer t = false := by
  refine Bool.eq_false_iff.mpr fun new => ?_
  have before := (newer_iff.mp new).2 r known
  exact Nat.not_lt_of_le late before

/-- Reading passes the times and the refusal on, and no token next to a refusal. -/
theorem read_events {p : Persisted} (done : read L identity now p = some disk) :
    disk.validatedAt = p.validatedAt ∧ disk.refusal = p.refusal ∧
      disk.account = if usable L now p then
        some { uid := identity.uid, accessKey := identity.accessKey, idToken := p.idToken, mid := p.mid }
      else none := by
  unfold read at done
  split_ifs at done
  all_goals
    cases Option.some.inj done
    refine ⟨rfl, rfl, ?_⟩
    simp_all

/-- Whether a file is ignored does not depend on the time. -/
theorem read_none {p : Persisted} (ignored : read L identity now p = none) (later : Instant) :
    read L identity later p = none := by
  unfold read at ignored ⊢
  split_ifs at ignored ⊢
  all_goals rfl

/-- A merge of a file is one of the four cases, or the file is ignored. -/
theorem merge_cases (L : Library) (identity : Identity) (s : State) (now : Instant) (p : Persisted) :
    (read L identity now p = none ∧ s.merge L identity now (some p) = s) ∨
      ∃ disk, read L identity now p = some disk ∧ Merged disk s (s.merge L identity now (some p)) := by
  unfold State.merge
  rw [Option.bind_some]
  cases done : read L identity now p with
  | none => exact Or.inl ⟨rfl, rfl⟩
  | some disk => exact Or.inr ⟨disk, rfl, mergeLoaded_merged disk s⟩

theorem merge_ignored {p : Persisted} (ignored : read L identity now p = none) :
    s.merge L identity now (some p) = s := by
  unfold State.merge
  rw [Option.bind_some, ignored]

theorem mergeLoaded_of_old (noRefusal : ∀ r, disk.refusal = some r → s.newer r.receivedAt = false)
    (noTime : ∀ v, disk.validatedAt = some v → s.newer v = false) : s.mergeLoaded disk = s := by
  have merged := mergeLoaded_merged disk s
  generalize s.mergeLoaded disk = m at merged ⊢
  cases merged with
  | same _ _ => rfl
  | refusal found new => exact absurd new (Bool.eq_false_iff.mp (noRefusal _ found))
  | session found new _ _ => exact absurd new (Bool.eq_false_iff.mp (noTime _ found))
  | time found new _ _ => exact absurd new (Bool.eq_false_iff.mp (noTime _ found))

/-- A file has nothing newer for a state whose last event is at least as late. -/
theorem merge_of_old {file : Option Persisted}
    (old : ∀ p, file = some p → (read L identity now p).isSome →
      (∀ r, p.refusal = some r → s.newer r.receivedAt = false) ∧
        ∀ v, p.validatedAt = some v → s.newer v = false) : s.merge L identity now file = s := by
  unfold State.merge
  split
  · rename_i disk loaded
    obtain ⟨p, rfl, done⟩ := Option.bind_eq_some_iff.mp loaded
    obtain ⟨times, refusals, -⟩ := read_events done
    obtain ⟨noRefusal, noTime⟩ := old p rfl (Option.isSome_of_eq_some done)
    exact mergeLoaded_of_old (fun r found => noRefusal r (refusals ▸ found)) fun v found => noTime v (times ▸ found)
  · rfl

end SiriusProxy.Sdk
