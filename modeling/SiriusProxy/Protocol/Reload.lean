import SiriusProxy.Lib.Run
import SiriusProxy.Client.Snapshot
import SiriusProxy.Protocol.Compatible
import Mathlib.Data.Fintype.Basic
import Mathlib.Tactic.FinCases

open SiriusProxy.Routing

namespace SiriusProxy.Protocol

inductive Codec where
  | native
  | dynamic
  deriving DecidableEq, Repr

structure Status where
  family : Family
  version : String
  sha256 : String
  generation : Nat
  loadedAt : Instant
  files : Nat
  codec : Codec
  nativeSha256 : String
  deriving DecidableEq, Repr

structure Bundle where
  pool : Pool
  status : Status

/-- What `proto_source::compile` returns. It knows two families. -/
structure Compiled where
  family : Family
  version : String
  encoded : List UInt8
  sha256 : String
  files : Nat
  known : family = .jp ∨ family = .global

/-- Reading a descriptor set, and the digests of the bundles that have a native codec. -/
structure Reflection where
  decode : List UInt8 → Option Pool
  fingerprint : Family → String

/-- `compiled` is `none` where the sources do not compile. -/
def Bundle.load (lib : Reflection) (compiled : Option Compiled) (now : Instant) : Except AppError Bundle := do
  let compiled ← orInvalid compiled
  let pool ← orInvalid (lib.decode compiled.encoded)
  validateContract pool compiled.family
  .ok
    { pool
      status :=
        { family := compiled.family
          version := compiled.version
          sha256 := compiled.sha256
          generation := 1
          loadedAt := now
          files := compiled.files
          codec := if compiled.sha256 = lib.fingerprint compiled.family then .native else .dynamic
          nativeSha256 := lib.fingerprint compiled.family } }

/-- The part of the client that a reload reads and writes; `poisoned` is the lock around the bundle. -/
structure GameClient where
  bundle : Bundle
  poisoned : Bool
  state : Client.State
  globalVersion : Option (String × Instant)

def GameClient.activate (c : GameClient) (candidate : Bundle) (now : Instant) : GameClient :=
  { c with
    bundle :=
      { candidate with
        status := { candidate.status with generation := c.bundle.status.generation + 1, loadedAt := now } }
    state := c.state.reload
    globalVersion := none }

section Reload
variable (lib : Reflection) (region : Region)

/-- The bundle is compiled at `loadedAt`; it takes effect at `now`. -/
def GameClient.reloadProtocol (c : GameClient) (compiled : Option Compiled) (loadedAt now : Instant) :
    Except AppError Status × GameClient :=
  match Bundle.load lib compiled loadedAt with
  | .error e => (.error e, c)
  | .ok candidate =>
    if c.poisoned then (invalid, c)
    else if candidate.status.family ≠ region.family then (invalid, c)
    else if c.bundle.status.sha256 = candidate.status.sha256 then (.ok c.bundle.status, c)
    else match compatible c.bundle.pool candidate.pool with
      | .error e => (.error e, c)
      | .ok () =>
        if c.bundle.status.generation + 1 < 2 ^ 64 then
          (.ok (c.activate candidate now).bundle.status, c.activate candidate now)
        else (invalid, c)

/-- A reload, or a change of the version state by any other part of the client. -/
inductive Label where
  | reload (compiled : Option Compiled) (loadedAt now : Instant)
  | elsewhere (state : Client.State) (globalVersion : Option (String × Instant)) (poisoned : Bool)

def step (c : GameClient) : Label → Option GameClient
  | .reload compiled loadedAt now => some (c.reloadProtocol lib region compiled loadedAt now).2
  | .elsewhere state globalVersion poisoned => some { c with state, globalVersion, poisoned }

/-- `GameClient::build` starts with a loaded bundle of the region's family. -/
def Initial (c : GameClient) : Prop :=
  ∃ compiled loadedAt, Bundle.load lib compiled loadedAt = .ok c.bundle ∧ c.bundle.status.family = region.family

def defines (pool : Pool) (route : Route) : Bool := (method pool route).isOk

/-- The family that `compatible` infers from the bundle in force is the configured one, or the reload is
refused for want of the login RPC. -/
def Inferred (c : GameClient) : Label → Prop
  | .reload _ _ _ => region.family = .global ∨
      ¬(defines c.bundle.pool .serverList = true ∧ defines c.bundle.pool .playerLogin = true)
  | .elsewhere _ _ _ => True

end Reload

variable {lib : Reflection} {region : Region}

theorem load_ok {compiled : Option Compiled} {now : Instant} {bundle : Bundle}
    (ok : Bundle.load lib compiled now = .ok bundle) :
    validateContract bundle.pool bundle.status.family = .ok () := by
  obtain ⟨source, -, ok⟩ := bind_ok ok
  obtain ⟨pool, -, ok⟩ := bind_ok ok
  obtain ⟨⟨⟩, valid, ok⟩ := bind_ok ok
  cases ok
  exact valid

/-- All a reload can do: refuse, find the bundle in force again, or activate a compatible one. -/
theorem reloadProtocol_cases (lib : Reflection) (region : Region) (c : GameClient) (compiled : Option Compiled) (loadedAt now : Instant) :
    (∃ e, c.reloadProtocol lib region compiled loadedAt now = (.error e, c)) ∨
      c.reloadProtocol lib region compiled loadedAt now = (.ok c.bundle.status, c) ∨
      ∃ candidate, Bundle.load lib compiled loadedAt = .ok candidate ∧ candidate.status.family = region.family ∧
        compatible c.bundle.pool candidate.pool = .ok () ∧
        c.reloadProtocol lib region compiled loadedAt now =
          (.ok (c.activate candidate now).bundle.status, c.activate candidate now) := by
  unfold GameClient.reloadProtocol
  cases loaded : Bundle.load lib compiled loadedAt with
  | error e => exact Or.inl ⟨e, rfl⟩
  | ok candidate =>
    simp only
    split
    · exact Or.inl ⟨_, rfl⟩
    · split
      · exact Or.inl ⟨_, rfl⟩
      · rename_i family
        split
        · exact Or.inr (Or.inl rfl)
        · cases compared : compatible c.bundle.pool candidate.pool with
          | error e => exact Or.inl ⟨e, rfl⟩
          | ok passed =>
            simp only
            split
            · exact Or.inr (Or.inr ⟨candidate, rfl, not_not.mp family, compared, rfl⟩)
            · exact Or.inl ⟨_, rfl⟩

theorem reloadProtocol_accepted {c : GameClient} {compiled : Option Compiled} {loadedAt now : Instant}
    {candidate : Bundle} (loaded : Bundle.load lib compiled loadedAt = .ok candidate) (sound : c.poisoned = false)
    (family : candidate.status.family = region.family) (differs : c.bundle.status.sha256 ≠ candidate.status.sha256)
    (ok : compatible c.bundle.pool candidate.pool = .ok ()) (room : c.bundle.status.generation + 1 < 2 ^ 64) :
    c.reloadProtocol lib region compiled loadedAt now =
      (.ok (c.activate candidate now).bundle.status, c.activate candidate now) := by
  simp only [GameClient.reloadProtocol, loaded, sound, Bool.false_eq_true, if_false, family, ne_eq, not_true_eq_false,
    differs, ok, room, if_true]

/-- A refused reload changes nothing. -/
theorem reloadProtocol_refused {c : GameClient} {compiled : Option Compiled} {loadedAt now : Instant} {e : AppError}
    (refused : (c.reloadProtocol lib region compiled loadedAt now).1 = .error e) :
    (c.reloadProtocol lib region compiled loadedAt now).2 = c := by
  rcases reloadProtocol_cases lib region c compiled loadedAt now with
    ⟨_, same⟩ | same | ⟨candidate, -, -, -, activated⟩
  · rw [same]
  · rw [same]
  · rw [activated] at refused
    cases refused

/-- The bundle in force offers the contract of the configured family. -/
def Valid (region : Region) (c : GameClient) : Prop :=
  ∀ route ∈ contractForFamily region.family, Offers c.bundle.pool route

theorem Initial.valid {c : GameClient} (initial : Initial lib region c) : Valid region c := by
  obtain ⟨compiled, loadedAt, loaded, family⟩ := initial
  have contract := load_ok loaded
  rw [family] at contract
  exact validateContract_ok contract

theorem defines_eq {pool : Pool} {route : Route} :
    defines pool route = true ↔ ∃ m, method pool route = .ok m := by
  unfold defines
  cases method pool route with
  | error e => exact ⟨fun ok => (Bool.false_ne_true ok).elim, fun ⟨_, ok⟩ => nomatch ok⟩
  | ok m => exact ⟨fun _ => ⟨m, rfl⟩, fun _ => rfl⟩

/-- A comparison that passed was over the contract of the configured family. -/
theorem compatible_family {c : GameClient} {new : Pool} (valid : Valid region c)
    (inferred : region.family = .global ∨
      ¬(defines c.bundle.pool .serverList = true ∧ defines c.bundle.pool .playerLogin = true))
    (ok : compatible c.bundle.pool new = .ok ()) :
    contractForFamily (inferredFamily c.bundle.pool) = contractForFamily region.family := by
  have kept := compatible_extends ok
  cases listed : defines c.bundle.pool .serverList with
  | false =>
    have jp : inferredFamily c.bundle.pool = .jp := by
      unfold inferredFamily
      exact if_neg (by rw [← defines, listed]; exact Bool.false_ne_true)
    have other : region.family ≠ .global := by
      intro family
      obtain ⟨m, found, -⟩ := valid .serverList (by rw [family]; decide)
      rw [defines_eq.mpr ⟨m, found⟩] at listed
      cases listed
    rw [jp, contractForFamily, contractForFamily, if_neg other, if_neg (by decide)]
  | true =>
    have inferred_global : inferredFamily c.bundle.pool = .global := if_pos listed
    rw [inferred_global] at kept ⊢
    rcases inferred with family | missing
    · rw [family]
    · -- The login RPC is part of the inferred contract, so the comparison fails without it.
      obtain ⟨a, -, found, -⟩ := kept .playerLogin (by decide)
      exact absurd ⟨listed, defines_eq.mpr ⟨a, found⟩⟩ missing

/-- One step: the contract stays offered, and is extended. -/
theorem step_extends {c d : GameClient} {label : Label} (valid : Valid region c) (inferred : Inferred region c label)
    (taken : step lib region c label = some d) :
    Valid region d ∧ Extends (contractForFamily region.family) c.bundle.pool d.bundle.pool := by
  cases label with
  | elsewhere state globalVersion poisoned =>
    cases Option.some.inj taken
    exact ⟨valid, Extends.refl valid⟩
  | reload compiled loadedAt now =>
    have taken := Option.some.inj taken
    rcases reloadProtocol_cases lib region c compiled loadedAt now with
      ⟨e, same⟩ | same | ⟨candidate, loaded, family, ok, activated⟩
    · rw [same] at taken
      cases taken
      exact ⟨valid, Extends.refl valid⟩
    · rw [same] at taken
      cases taken
      exact ⟨valid, Extends.refl valid⟩
    · rw [activated] at taken
      cases taken
      have contract := load_ok loaded
      rw [family] at contract
      refine ⟨validateContract_ok contract, ?_⟩
      have kept := compatible_extends ok
      rwa [compatible_family valid inferred ok] at kept

/-- Where every reload is compared over the configured contract, each bundle extends all before it. A
reload that is refused leaves the client as it was, whatever the bundle. -/
theorem reload_extends {start w x : GameClient} (initial : Initial lib region start)
    (earlier : Run.Reach (step lib region) (Inferred region) start w)
    (later : Run.Reach (step lib region) (Inferred region) w x) :
    Extends (contractForFamily region.family) w.bundle.pool x.bundle.pool ∧
      ∀ (y : GameClient) compiled loadedAt now e, (y.reloadProtocol lib region compiled loadedAt now).1 = .error e →
        (y.reloadProtocol lib region compiled loadedAt now).2 = y := by
  have valid : Valid region w :=
    earlier.invariant initial.valid fun s l t held inferred taken => (step_extends held inferred taken).1
  have kept : Valid region x ∧ Extends (contractForFamily region.family) w.bundle.pool x.bundle.pool := by
    refine later.invariant (P := fun y => Valid region y ∧
      Extends (contractForFamily region.family) w.bundle.pool y.bundle.pool) ⟨valid, Extends.refl valid⟩ ?_
    intro s l t held inferred taken
    obtain ⟨still, more⟩ := step_extends held.1 inferred taken
    exact ⟨still, held.2.trans more⟩
  exact ⟨kept.2, fun y compiled loadedAt now e refused => reloadProtocol_refused refused⟩

section Sample

def playerId (number : Nat) : Field 3 1 :=
  { number, name := "player_id", jsonName := "playerId", kind := .scalar .string }

def nickname : Field 3 1 := { number := 2, name := "nickname", jsonName := "nickname", kind := .scalar .string }

def sampleRequest : Message 3 1 where
  fullName := "app.Request"
  fields :=
    [{ number := 1, name := "id", jsonName := "id", kind := .scalar .int64 },
      { number := 2, name := "player_profile_id", jsonName := "playerProfileId", kind := .scalar .int64 },
      { number := 3, name := "event_id", jsonName := "eventId", kind := .scalar .int64 },
      { number := 4, name := "ranks", jsonName := "ranks", kind := .scalar .int32, cardinality := .repeated,
        isPacked := true },
      { number := 5, name := "player_id", jsonName := "playerId", kind := .scalar .string },
      { number := 6, name := "music_id", jsonName := "musicId", kind := .scalar .int64 },
      { number := 7, name := "challenge_music_id", jsonName := "challengeMusicId", kind := .scalar .int64 },
      { number := 8, name := "selected_tab", jsonName := "selectedTab", kind := .enum 0 }]
  distinct := by decide

def sampleResponse : Message 3 1 where
  fullName := "app.Response"
  fields := [{ number := 1, name := "version", jsonName := "version", kind := .scalar .string }]
  distinct := by decide

def tab : EnumType where
  fullName := "app.announcement.Tab"
  first := ⟨"ALL", 0⟩
  rest := [⟨"OPENING_EVENTS", 1⟩, ⟨"BUG", 2⟩]
  byNumber := [⟨"ALL", 0⟩, ⟨"OPENING_EVENTS", 1⟩, ⟨"BUG", 2⟩]
  distinct := by decide
  listed := by decide
  indexed := by decide

/-- The option `skip_authentication` is extension 50001. -/
def rpc (name : String) (skip : Bool) (output : Fin 3) : Method 3 where
  name := name
  input := 0
  output := output
  options := if skip then [0x88, 0xb5, 0x18, 0x01] else []
  skipAuthentication := some skip

def loginService : Service 3 where
  fullName := "app.playerlogin.PlayerLoginService"
  methods := [rpc "PlayerLogin" true 1, rpc "GetServerList" true 1]

def sampleServices : List (Service 3) :=
  [⟨"app.masterdata.MasterdataService", [rpc "Version" true 1]⟩,
    ⟨"app.announcement.AnnouncementService", [rpc "GetList" true 1, rpc "Get" true 1]⟩,
    ⟨"app.event.EventService",
      [rpc "GetRankingList" false 1, rpc "GetDeck" false 1, rpc "GetChallengeMusicRanking" false 1]⟩,
    ⟨"app.livemusic.LiveMusicService", [rpc "GetRanking" false 1]⟩,
    ⟨"app.player.PlayerService", [rpc "Whoami" false 2, rpc "GetPlayerData" false 1]⟩,
    ⟨"app.friend.FriendService", [rpc "FindByProfileID" false 1]⟩]

/-- A bundle with the given fields in `WhoamiResponse`. -/
def samplePool (whoami : List (Field 3 1)) (distinct : (whoami.map (·.number)).Nodup)
    (services : List (Service 3)) : Pool where
  messageCount := 3
  enumCount := 1
  messages := ![sampleRequest, sampleResponse, { fullName := "app.player.WhoamiResponse", fields := whoami, distinct }]
  enums := ![tab]
  services := services
  distinct := by
    intro a b
    fin_cases a <;> fin_cases b <;> simp [sampleRequest, sampleResponse]

def jpPool : Pool := samplePool [playerId 1] (by decide) sampleServices

def nicknamePool : Pool := samplePool [playerId 1, nickname] (by decide) sampleServices

/-- A JP bundle that defines the login service as well. -/
def loginPool : Pool := samplePool [playerId 1] (by decide) (sampleServices ++ [loginService])

def movedPool : Pool := samplePool [playerId 2] (by decide) (sampleServices ++ [loginService])

def sampleReflection : Reflection where
  decode
    | [0] => some jpPool
    | [1] => some nicknamePool
    | [2] => some loginPool
    | [3] => some movedPool
    | _ => none
  fingerprint _ := ""

def sampleCompiled (encoded : List UInt8) (sha256 : String) : Compiled where
  family := .jp
  version := "1.0.4"
  encoded := encoded
  sha256 := sha256
  files := 1
  known := Or.inl rfl

def sampleBundle (pool : Pool) (sha256 : String) (now : Instant) : Bundle where
  pool := pool
  status :=
    { family := .jp
      version := "1.0.4"
      sha256
      generation := 1
      loadedAt := now
      files := 1
      codec := if sha256 = "" then .native else .dynamic
      nativeSha256 := "" }

def sampleClient (pool : Pool) (sha256 : String) : GameClient where
  bundle := sampleBundle pool sha256 0
  poisoned := false
  state := { cdnRoot := "", credentialValid := false }
  globalVersion := none

end Sample

theorem sampleBundle_load {pool : Pool} (encoded : List UInt8) (sha256 : String) (now : Instant)
    (decoded : sampleReflection.decode encoded = some pool) (valid : validateContract pool .jp = .ok ()) :
    Bundle.load sampleReflection (some (sampleCompiled encoded sha256)) now = .ok (sampleBundle pool sha256 now) := by
  simp only [Bundle.load, sampleCompiled, orInvalid, bind, Except.bind, decoded, valid]
  rfl

theorem reload_extends_nickname : ∃ w,
    step sampleReflection .jp (sampleClient jpPool "a") (.reload (some (sampleCompiled [1] "b")) 5 6) = some w ∧
      w.bundle.status.generation = 2 ∧ Extends (contractForFamily Region.jp.family) jpPool w.bundle.pool := by
  have initial : Initial sampleReflection .jp (sampleClient jpPool "a") :=
    ⟨_, 0, sampleBundle_load [0] "a" 0 rfl (by decide +kernel), rfl⟩
  have inferred : Inferred .jp (sampleClient jpPool "a") (.reload (some (sampleCompiled [1] "b")) 5 6) :=
    Or.inr (by decide +kernel)
  refine ⟨_, rfl, by decide +kernel, ?_⟩
  exact (reload_extends initial .start (.next .start inferred rfl)).1

/-- `player_id` has moved, so the type of `Whoami` is not kept. -/
theorem not_extends_moved : ¬Extends (contractForFamily Region.jp.family) loginPool movedPool := by
  intro kept
  obtain ⟨a, -, found, -, -, types⟩ := kept .whoami (by decide)
  have whoami : method loginPool .whoami = .ok (rpc "Whoami" false 2) := rfl
  rw [whoami] at found
  cases found
  obtain ⟨u, type⟩ := types (2 : Fin 3) (Or.inr .refl)
  obtain ⟨y, number, -⟩ := type.fields (playerId 1) List.mem_cons_self
  have missing : ∀ v : Fin 3, "app.player.WhoamiResponse" = (movedPool.messages v).fullName →
      ((movedPool.messages v).getField 1).isNone = true := by decide +kernel
  have none := missing u type.name
  rw [show (playerId 1).number = 1 from rfl] at number
  rw [number] at none
  cases none

/-- The comparison takes the bundle for a Global one, leaves out `Whoami` and accepts. -/
theorem reload_moved : Initial sampleReflection .jp (sampleClient loginPool "a") ∧ ∃ w,
    step sampleReflection .jp (sampleClient loginPool "a") (.reload (some (sampleCompiled [3] "b")) 5 6) = some w ∧
      w.bundle.status.generation = 2 ∧ ¬Extends (contractForFamily Region.jp.family) loginPool w.bundle.pool := by
  have valid : validateContract loginPool .jp = .ok () := by decide +kernel
  have then_valid : validateContract movedPool .jp = .ok () := by decide +kernel
  have compared : compatible loginPool movedPool = .ok () := by decide +kernel
  have loaded := sampleBundle_load [3] "b" 5 rfl then_valid
  have accepted : (sampleClient loginPool "a").reloadProtocol sampleReflection .jp (some (sampleCompiled [3] "b")) 5 6 =
      (_, (sampleClient loginPool "a").activate (sampleBundle movedPool "b" 5) 6) :=
    reloadProtocol_accepted loaded rfl rfl (by decide) compared (by decide)
  refine ⟨⟨_, 0, sampleBundle_load [2] "a" 0 rfl valid, rfl⟩,
    (sampleClient loginPool "a").activate (sampleBundle movedPool "b" 5) 6, ?_, rfl, not_extends_moved⟩
  rw [step, accepted]

end SiriusProxy.Protocol
