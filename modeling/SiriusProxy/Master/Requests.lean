import SiriusProxy.Master.Converge
import SiriusProxy.Master.Update

namespace SiriusProxy.Master.Update
open Commands
variable {B : Type}

/-- The files that a CDN is asked for. -/
def Named (name : String) : Prop :=
  name = "MasterManifest.json" ∨ ∃ stem, safeComponent stem = true ∧ name = stem ++ ".bin"

/-- A secret goes to the root that it is configured for; without one only the configured root of a Global
region is asked, for which no secret is configured. -/
inductive Authorized (u : Updater B) : Request → Prop
  | basic {username password : String} {target : MasterTarget} {name : String} (authenticated : u.anonymous = false)
      (named : u.username = some username) (secret : u.config.cdnSecrets.lookup target.root = some password)
      (safe : safeVersion target.version = true) (file : Named name) :
      Authorized u ⟨target.url name, some (username, password)⟩
  | anonymous {target : MasterTarget} {name : String} (anonymous : u.anonymous = true) (unnamed : u.username = none)
      (configured : target.root = u.config.defaultCdnRoot) (global : u.config.region.isGlobal = true)
      (open_ : u.config.cdnCredentialEnv.lookup target.root = none) (safe : safeVersion target.version = true)
      (file : Named name) : Authorized u ⟨target.url name, none⟩

/-- What a target has been announced with. -/
structure Announced (u : Updater B) (s : Client.State) (target : MasterTarget) : Prop where
  pair : s.masterPair = some (target.version, target.resourceVersion)
  safe : safeVersion target.version = true
  served : s.observation.grpcStatus = some 0
  maintained : s.observation.maintenance = false
  root : s.cdnRoot = target.root
  access : u.anonymous = true ∧ target.password = none ∧ u.config.region.isGlobal = true ∧
      target.root = u.config.defaultCdnRoot ∧ u.config.cdnCredentialEnv.lookup target.root = none ∨
    u.anonymous = false ∧ s.credentialValid = true ∧ ∃ password, target.password = some password ∧
      u.config.cdnSecrets.lookup target.root = some password

/-- A target is made only of what the state announces: an anonymous updater gets the configured default root of a
Global region for which no credential is set, an authenticated one the announced root with the secret configured
for it. Everything else is refused. -/
theorem announced_of_masterTarget {u : Updater B} {s : Client.State} {target : MasterTarget}
    (found : masterTarget u s = some target) : Announced u s target := by
  unfold masterTarget at found
  split at found
  · cases found
  · rename_i version resourceVersion filtered
    obtain ⟨pair, safe⟩ := Option.filter_eq_some_iff.mp filtered
    split at found
    · cases found
    · rename_i up
      simp only [Bool.or_eq_true, bne_iff_ne, ne_eq, not_or, not_not, Bool.not_eq_true] at up
      split at found
      · rename_i anonymous
        split at found
        · cases found
        · rename_i allowed
          simp only [Bool.or_eq_true, Bool.not_eq_true', bne_iff_ne, ne_eq, not_or, Bool.not_eq_false, not_not,
            Bool.not_eq_true, Option.isSome_eq_false_iff, Option.isNone_iff_eq_none] at allowed
          cases found
          exact ⟨pair, safe, up.1, up.2, rfl, .inl ⟨anonymous, rfl, allowed.1.1.2, allowed.1.2, allowed.2⟩⟩
      · rename_i authenticated
        split at found
        · cases found
        · rename_i valid
          split at found
          · cases found
          · rename_i password secret
            cases found
            exact ⟨pair, safe, up.1, up.2, rfl, .inr ⟨by simpa using authenticated, by simpa using valid, password, rfl, secret⟩⟩

theorem safeComponent_stem {stem : List Char} (safe : stem.all isSafeChar = true) (short : JsonText.size stem ≤ 128)
    (start : ['M', 'a', 's', 't', 'e', 'r'].isPrefixOf stem = true) : safeComponent (String.ofList stem) = true := by
  have some_ : String.ofList stem ≠ "" := by
    intro empty
    have none := congrArg String.toList empty
    rw [String.toList_ofList] at none
    rw [none] at start
    cases start
  simp only [safeComponent, Bool.and_eq_true, bne_iff_ne, decide_eq_true_eq, JsonText.utf8ByteSize_eq_size,
    String.toList_ofList]
  exact ⟨⟨some_, short⟩, safe⟩

theorem named_of_wellFormed {e : Entry} (formed : e.wellFormed = true) : Named e.name := by
  obtain ⟨stem, bin, -, safe, short, start, -⟩ := Entry.wellFormed_stem formed
  refine .inr ⟨String.ofList stem, safeComponent_stem safe short start, String.toList_inj.mp ?_⟩
  rw [bin, String.toList_append, String.toList_ofList]
  rfl

/-- A request with a target's own name and version goes to that target's root, with the credential of that root and
no other; an anonymous one goes to a target that has none. -/
theorem authorized_of_credentials {u : Updater B} {s : Client.State} {target : MasterTarget} {name : String}
    {own : Option (String × String)} (announced : Announced u s target) (file : Named name)
    (given : credentials u.username target.password = some own) : Authorized u ⟨target.url name, own⟩ := by
  rcases announced.access with ⟨anonymous, free, global, configured, open_⟩ | ⟨authenticated, -, password, bound, secret⟩
  · rw [free] at given
    cases named : u.username with
    | none =>
      rw [named] at given
      cases given
      exact .anonymous anonymous named configured global open_ announced.safe file
    | some username =>
      rw [named] at given
      cases given
  · rw [bound] at given
    cases named : u.username with
    | none =>
      rw [named] at given
      cases given
    | some username =>
      rw [named] at given
      cases given
      exact .basic authenticated named secret announced.safe file

theorem refresh_yields (u : Updater B) :
    Prog.Yields (fun target => ∃ s, Announced u s target) (refreshMasterTarget u) := by
  refine Prog.Yields.bind (.trivial _) fun _ _ => Prog.Yields.bind (.trivial _) fun s _ => ?_
  split
  · trivial
  · rename_i target found
    exact ⟨s, announced_of_masterTarget found⟩

theorem parse_yields {lib : Serde B} (bytes : B) :
    Prog.Yields Manifest.Valid (ofMaster (B := B) (Manifest.parse lib bytes)) := by
  cases parsed : Manifest.parse lib bytes with
  | error e => trivial
  | ok manifest => exact (Manifest.parse_ok.mp parsed).2.2

section Sent
variable (u : Updater B) (lib : Formats B)

/-- What an update may ask. -/
def Permitted : Command B → Prop
  | .get request => Authorized u request
  | _ => True

/-- A request for one of these URLs. -/
def Command.fetches (wanted : String → Bool) : Command B → Bool
  | .get request => wanted request.url
  | _ => false

def Command.isGet : Command B → Bool := Command.fetches fun _ => true

variable {u}

theorem only_command {c : Command B} (quiet : c.isGet = false) (e : UpdateError) :
    Prog.Only (Permitted u) (command c e) := by
  refine Prog.Only.ask ?_ e
  cases c with
  | get request => cases quiet
  | _ => trivial

theorem only_refresh : Prog.Only (Permitted u) (refreshMasterTarget u) := by
  refine Prog.Only.bind (only_command rfl _) fun _ => Prog.Only.bind (only_command rfl _) fun s => ?_
  cases masterTarget u s with
  | none => trivial
  | some target => trivial

theorem only_sleep (attempt : Nat) : Prog.Only (Permitted u) (sleep u attempt) := by
  refine Prog.Only.bind (Prog.Only.attempt ?_) fun _ => trivial
  trivial

/-- The attempts of one download all make the same request. -/
theorem only_download {s : Client.State} {target : MasterTarget} {name : String} (announced : Announced u s target)
    (file : Named name) (limit : Nat) : Prog.Only (Permitted u) (download lib u target name limit) := by
  refine Prog.Only.retry ?_ only_sleep _ _
  unfold downloadOnce
  cases given : credentials u.username target.password with
  | none => trivial
  | some own =>
    refine Prog.Only.bind (Prog.Only.ask ?_ _) fun _ => trivial
    exact authorized_of_credentials announced file given

/-- The names of the manifest are well formed, so each of them is one that the updater may ask for. By induction on
the entries. -/
theorem only_downloadAll {s : Client.State} {target : MasterTarget} {entries : List Entry} (announced : Announced u s target)
    (formed : ∀ e ∈ entries, e.wellFormed = true) (files : String → Option (Node B)) :
    Prog.Only (Permitted u) (downloadAll lib u target entries files) := by
  induction entries generalizing files with
  | nil => trivial
  | cons entry rest ih =>
    have file := named_of_wellFormed (formed entry List.mem_cons_self)
    refine Prog.Only.bind (only_download lib announced file _) fun bytes => Prog.Only.bind (only_command rfl _) fun _ => ?_
    exact ih (fun e member => formed e (List.mem_cons_of_mem _ member)) _

/-- The manifest is asked for by its own name; its entries only after it has passed its checks. -/
theorem only_fetchAll {s : Client.State} {target : MasterTarget} (announced : Announced u s target) :
    Prog.Only (Permitted u) (fetchAll lib u target) := by
  refine Prog.Only.bind (only_download lib announced (.inl rfl) _) fun bytes =>
    Prog.Only.bind_of trivial (parse_yields bytes) fun manifest valid => ?_
  split
  · have saved : Prog.Only (Permitted u) (command (B := B) .disk .master) := only_command rfl _
    refine Prog.Only.bind saved fun _ => Prog.Only.bind saved fun _ => Prog.Only.bind saved fun _ => ?_
    exact only_downloadAll lib announced valid.entries _
  · trivial

theorem only_install {s : Client.State} {target : MasterTarget} (announced : Announced u s target) :
    Prog.Only (Permitted u) (install lib u target) := by
  refine Prog.Only.bind (only_fetchAll lib announced) fun encrypted =>
    Prog.Only.bind (Prog.Only.bind (only_command rfl _) fun _ => trivial) fun draft => Prog.Only.bind only_refresh fun latest => ?_
  split
  · exact Prog.Only.bind (only_command rfl _) fun _ => Prog.Only.bind trivial fun _ => trivial
  · trivial

/-- Before the target is known there are no requests; afterwards they are those of its downloads. -/
theorem only_update : Prog.Only (Permitted u) (update lib u) := by
  refine Prog.Only.bind (only_command rfl _) fun _ =>
    Prog.Only.bind_of only_refresh (refresh_yields u) fun target known => Prog.Only.bind (only_command rfl _) fun root => ?_
  obtain ⟨s, announced⟩ := known
  cases current lib u root target with
  | some status => trivial
  | none => exact only_install lib announced

end Sent

/-- No entry of a manifest is named like the manifest itself, which its checks refuse. -/
theorem manifest_apart {e : Entry} (formed : e.wellFormed = true) : e.name ≠ "MasterManifest.json" := by
  intro same
  obtain ⟨stem, bin, -⟩ := Entry.wellFormed_stem formed
  rw [same] at bin
  have backwards := congrArg List.reverse bin
  rw [List.reverse_append] at backwards
  cases backwards

theorem url_injective {target : MasterTarget} {a b : String} (same : target.url a = target.url b) : a = b := by
  have chars := congrArg String.toList same
  simp only [MasterTarget.url, String.toList_append, List.append_cancel_left_eq] at chars
  exact String.toList_inj.mp chars

/-- At most `n` of the URLs that an update of any one target may ask for are wanted. -/
def Few (wanted : String → Bool) (n : Nat) : Prop := ∀ target : MasterTarget, ∃ first rest, first + rest = n ∧
  (["MasterManifest.json"].countP fun name => wanted (target.url name)) ≤ first ∧
  ∀ manifest : Manifest, manifest.Valid → ((manifest.files.map Entry.name).countP fun name => wanted (target.url name)) ≤ rest

theorem few_all : Few (fun _ => true) 4097 := by
  refine fun target => ⟨1, 4096, rfl, Nat.le_refl 1, fun manifest valid => ?_⟩
  rw [List.countP_true, List.length_map]
  exact valid.count

/-- The names of a manifest are distinct and none is its own, so no two of the URLs are the same. -/
theorem few_url (url : String) : Few (· == url) 1 := by
  intro target
  by_cases own : target.url "MasterManifest.json" = url
  · refine ⟨1, 0, rfl, List.countP_le_length, fun manifest valid => ?_⟩
    refine Nat.le_of_eq (List.countP_eq_zero.mpr fun name member same => ?_)
    obtain ⟨e, inside, rfl⟩ := List.mem_map.mp member
    exact manifest_apart (valid.entries e inside) (url_injective ((eq_of_beq same).trans own.symm))
  · refine ⟨0, 1, rfl, ?_, fun manifest valid => ?_⟩
    · refine Nat.le_of_eq (List.countP_eq_zero.mpr fun name member same => ?_)
      obtain rfl := List.mem_singleton.mp member
      exact own (eq_of_beq same)
    · have apart : Function.Injective target.url := fun _ _ same => url_injective same
      have urls := List.nodup_iff_count_le_one.mp (valid.distinct.map apart) url
      rwa [List.count, List.countP_map] at urls

section Count
variable (u : Updater B) (lib : Formats B) (wanted : String → Bool)

theorem few_command {c : Command B} (quiet : c.isGet = false) (e : UpdateError) :
    Prog.AtMost (Command.fetches wanted) (command c e) 0 := by
  refine Prog.AtMost.ask (fun fetched => ?_) e
  cases c with
  | get request => cases quiet
  | _ => cases fetched

theorem few_sleep (attempt : Nat) : Prog.AtMost (Command.fetches wanted) (sleep u attempt) 0 := by
  exact Prog.AtMost.quiet (Prog.AtMost.attempt nofun) fun _ => trivial

/-- One download makes at most as many requests as it has attempts, and counts where its own URL is wanted. -/
theorem few_download (target : MasterTarget) (name : String) (limit : Nat) :
    Prog.AtMost (Command.fetches wanted) (download lib u target name limit)
      (u.network.attempts * [name].countP fun name => wanted (target.url name)) := by
  have once : Prog.AtMost (Command.fetches wanted) (downloadOnce lib u target name limit)
      ([name].countP fun name => wanted (target.url name)) := by
    unfold downloadOnce
    cases credentials u.username target.password with
    | none => trivial
    | some own =>
      refine Prog.AtMost.bind (n := 0) (Prog.AtMost.ask (fun fetched => ?_) _) fun _ => trivial
      have own_url : wanted (target.url name) = true := fetched
      change 0 < [name].countP fun name => wanted (target.url name)
      rw [List.countP_singleton, if_pos own_url]
      exact Nat.one_pos
  exact once.retry (few_sleep u wanted) u.network.attempts 0

/-- The downloads of a manifest add up: the bound is per entry whose URL is wanted. By induction on the entries. -/
theorem few_downloadAll (target : MasterTarget) (entries : List Entry) (files : String → Option (Node B)) :
    Prog.AtMost (Command.fetches wanted) (downloadAll lib u target entries files)
      (u.network.attempts * (entries.map Entry.name).countP fun name => wanted (target.url name)) := by
  induction entries generalizing files with
  | nil => trivial
  | cons entry rest ih =>
    have parts : (entry.name :: rest.map Entry.name).countP (fun name => wanted (target.url name)) =
        ([entry.name].countP fun name => wanted (target.url name)) +
          (rest.map Entry.name).countP fun name => wanted (target.url name) := by
      rw [← List.countP_append]
      rfl
    rw [List.map_cons, parts, Nat.mul_add]
    refine Prog.AtMost.bind (few_download u lib wanted target _ _) fun bytes => ?_
    exact (few_command wanted rfl _).quiet fun _ => ih _

theorem few_refresh : Prog.AtMost (Command.fetches wanted) (refreshMasterTarget u) 0 := by
  refine (few_command wanted rfl _).quiet fun _ => (few_command wanted rfl _).quiet fun s => ?_
  cases masterTarget u s with
  | none => trivial
  | some target => trivial

variable {wanted} {n : Nat} (few : Few wanted n)
include few

/-- The manifest and its entries between them have at most `n` names whose URL is wanted. -/
theorem few_fetchAll (target : MasterTarget) :
    Prog.AtMost (Command.fetches wanted) (fetchAll lib u target) (u.network.attempts * n) := by
  obtain ⟨first, rest, whole, own, files⟩ := few target
  rw [← whole, Nat.mul_add]
  have saved : Prog.AtMost (Command.fetches wanted) (command (B := B) .disk .master) 0 := few_command wanted rfl _
  refine Prog.AtMost.bind ((few_download u lib wanted target _ _).mono (Nat.mul_le_mul_left _ own)) fun bytes => ?_
  refine Prog.AtMost.quiet_of trivial (parse_yields bytes) fun manifest valid => ?_
  split
  · refine saved.quiet fun _ => saved.quiet fun _ => saved.quiet fun _ => ?_
    exact (few_downloadAll u lib wanted target _ _).mono (Nat.mul_le_mul_left _ (files manifest valid))
  · trivial

/-- The downloads are the only requests of an installation: preparing and publishing make none. -/
theorem few_install (target : MasterTarget) :
    Prog.AtMost (Command.fetches wanted) (install lib u target) (u.network.attempts * n) := by
  have prepared (encrypted : String → Option (Node B)) :
      Prog.AtMost (Command.fetches wanted) (prepare lib u target encrypted) 0 :=
    (few_command wanted rfl _).quiet fun _ => trivial
  have settled (draft : Draft B) : Prog.AtMost (Command.fetches wanted) (settle u target draft) 0 := by
    refine (few_refresh u wanted).quiet fun latest => ?_
    split
    · exact (few_command wanted rfl _).quiet fun _ => Prog.AtMost.quiet trivial fun _ => trivial
    · trivial
  exact (few_fetchAll u lib few target).bind (n := 0) fun encrypted => (prepared encrypted).quiet settled

theorem few_update : Prog.AtMost (Command.fetches wanted) (update lib u) (u.network.attempts * n) := by
  refine (few_command wanted rfl _).quiet fun _ => (few_refresh u wanted).quiet fun target =>
    (few_command wanted rfl _).quiet fun root => ?_
  cases current lib u root target with
  | some status => trivial
  | none => exact few_install u lib few target

end Count

/-- A request for one of these URLs that was sent. -/
def Event.fetches (wanted : String → Bool) : Event B → Bool
  | .got request _ => wanted request.url
  | _ => false

def Event.isGot : Event B → Bool := Event.fetches fun _ => true

/-- The configuration is validated to make at most eight attempts. -/
theorem attempts_of_validate {network : Network} (valid : network.validate = .ok ()) : network.attempts ≤ 8 := by
  unfold Network.validate at valid
  split at valid
  · cases valid
  · rename_i bounds
    simp only [Bool.or_eq_true, Bool.not_eq_true', Bool.and_eq_false_iff, decide_eq_false_iff_not, not_or, not_not] at bounds
    exact bounds.1.1.1.2.2

/-- A command adds at most one event to the trace, the one that tells what it was. -/
theorem trace_effect (lib : Serde B) (w : World B) (c : Command B) :
    (effect lib w c).2.trace = w.trace ∨ ∃ event, (effect lib w c).2.trace = event :: w.trace ∧
      (∀ wanted, event.fetches wanted = c.fetches wanted) ∧ ∀ request response, event = .got request response → c = .get request := by
  cases c with
  | state => exact .inr ⟨_, rfl, fun _ => rfl, nofun⟩
  | get request =>
    refine .inr ⟨_, rfl, fun _ => rfl, fun other response same => ?_⟩
    cases same
    rfl
  | publish draft => exact .inr ⟨_, rfl, fun _ => rfl, nofun⟩
  | _ => exact .inl rfl

variable {u : Updater B} {lib : Formats B} {w x : World B} {o : Commands.Outcome UpdateError Outcome}

/-- Of some URLs an update asks for, it sends at most the configured attempts for each. -/
theorem fetches_few {wanted : String → Bool} {n : Nat} (few : Few wanted n)
    (run : Runs (effect lib.toSerde) Elsewhere (update lib u) w o x) :
    x.trace.countP (Event.fetches wanted) ≤ w.trace.countP (Event.fetches wanted) + u.network.attempts * n := by
  refine run.atMost (fun t => t.trace.countP (Event.fetches wanted)) (few_update u lib few) (fun s t others => ?_)
    fun t c => ?_
  · rw [others.trace]
  · rcases trace_effect lib.toSerde t c with same | ⟨event, added, kind, -⟩
    · rw [same]
      exact Nat.le_add_right _ _
    · rw [added, List.countP_cons, kind]

theorem fetches_le (run : Runs (effect lib.toSerde) Elsewhere (update lib u) w o x) (url : String) :
    x.trace.countP (Event.fetches (· == url)) ≤ w.trace.countP (Event.fetches (· == url)) + u.network.attempts := by
  have counted := fetches_few (few_url url) run
  rwa [Nat.mul_one] at counted

/-- Whatever the game, the CDN and the disk answer and wherever an update stops: it has sent only authorized
requests, at most eight for the manifest and for each file, and so at most eight times 4097 in all. -/
theorem update_requests (valid : u.network.validate = .ok ()) (fresh : w.trace = [])
    (run : Runs (effect lib.toSerde) Elsewhere (update lib u) w o x) :
    (∀ request response, .got request response ∈ x.trace → Authorized u request) ∧
      (∀ url, x.trace.countP (Event.fetches (· == url)) ≤ 8) ∧ x.trace.countP Event.isGot ≤ 8 * 4097 := by
  have attempts := attempts_of_validate valid
  refine ⟨?_, fun url => ?_, ?_⟩
  · refine run.only (P := fun t => ∀ request response, .got request response ∈ t.trace → Authorized u request)
      (only_update lib) ?_ ?_ ?_
    · rw [fresh]
      exact nofun
    · intro s t others held
      rwa [others.trace]
    · intro t c permitted held request response member
      rcases trace_effect lib.toSerde t c with same | ⟨event, added, -, own⟩
      · exact held request response (same ▸ member)
      · rw [added] at member
        rcases List.mem_cons.mp member with first | older
        · cases own request response first.symm
          exact permitted
        · exact held request response older
  · have counted := fetches_le run url
    rw [fresh, List.countP_nil, Nat.zero_add] at counted
    exact counted.trans attempts
  · have counted := fetches_few few_all run
    rw [fresh, List.countP_nil, Nat.zero_add] at counted
    exact counted.trans (Nat.mul_le_mul_right 4097 attempts)

/-- A document of the store, one for the whole snapshot, or an encrypted file with its SHA-256. -/
inductive Piece where
  | doc (d : Doc)
  | status (s : Status)
  | encrypted (size : Nat) (sha256 : String)
  deriving DecidableEq

def Piece.size : Piece → Nat
  | .doc d => d.size
  | .status _ => 0
  | .encrypted size _ => size

/-- The document that a text of one piece is. -/
def oneDoc : List Piece → Option Doc
  | [.doc d] => some d
  | _ => none

/-- Texts as lists of pieces. -/
def sampleFormats : Formats (List Piece) where
  length pieces := (pieces.map Piece.size).sum
  sha256 := fun
    | [.doc d] => sampleSerde.sha256 d
    | [.encrypted _ sha256] => sha256
    | _ => ""
  ofString s := [.doc (.text s)]
  utf8 pieces := (oneDoc pieces).bind sampleSerde.utf8
  ofManifest m := [.doc (.manifest m)]
  manifest pieces := (oneDoc pieces).bind sampleSerde.manifest
  ofReceipt r := [.doc (.receipt r)]
  receipt pieces := (oneDoc pieces).bind sampleSerde.receipt
  ofInventory i := [.doc (.inventory i)]
  inventory pieces := (oneDoc pieces).bind sampleSerde.inventory
  ofPublication p := [.doc (.publication p)]
  publication pieces := (oneDoc pieces).bind sampleSerde.publication
  ofRetention r := [.doc (.retention r)]
  retention pieces := (oneDoc pieces).bind sampleSerde.retention
  ofPublished p := [.doc (.published p)]
  published pieces := (oneDoc pieces).bind sampleSerde.published
  ofContent c := [.doc (.content c)]
  validJson pieces := (oneDoc pieces).any sampleSerde.validJson
  stamp := sampleSerde.stamp
  utf8_ofString _ := rfl
  length_ofString _ := Nat.add_zero _
  manifest_ofManifest _ := rfl
  length_ofManifest _ := Nat.add_zero _
  manifest_shortest pieces m read := by
    obtain ⟨d, one, known⟩ := Option.bind_eq_some_iff.mp read
    unfold oneDoc at one
    split at one
    · cases one
      exact Nat.add_le_add_right (sampleSerde.manifest_shortest d m known) 0
    · cases one
  receipt_ofReceipt _ := rfl
  length_ofReceipt _ := Nat.add_zero _
  inventory_ofInventory _ := rfl
  length_ofInventory _ := Nat.add_zero _
  publication_ofPublication _ := rfl
  length_ofPublication _ := Nat.add_zero _
  stamp_short := sampleSerde.stamp_short
  retention_ofRetention _ := rfl
  length_ofRetention _ := Nat.add_zero _
  published_ofPublished _ := rfl
  empty := []
  append := (· ++ ·)
  ofStatus s := [.status s]
  status := fun
    | [.status s] => some s
    | _ => none
  length_empty := rfl
  length_append a b := by rw [List.map_append, List.sum_append]
  status_ofStatus _ := rfl

def sampleRoot : String := "https://cdn.example"

def encryptedSha : String := "ffffffffffffffffffffffffffffffffffffffffffffffffffffffffffffffff"

def sampleUpdater : Updater (List Piece) where
  config := {
    region := .jp
    environment := "production"
    platform := .android
    clientVersion := "1.0.0"
    versionMaxAgeSeconds := 300
    defaultCdnRoot := sampleRoot
    cdnCredentialEnv := [(sampleRoot, "CDN_PASSWORD")]
    cdnSecrets := [(sampleRoot, "secret")] }
  anonymous := false
  username := some "reader"
  network := .master
  unpack := fun
    | [.encrypted _ _] => .ok [.doc (.table "[]" emptyTableSha)]
    | _ => .error .cipher

def sampleGame : Client.State where
  observation := { grpcStatus := some 0 }
  masterPair := some ("1.0", some "2.0")
  cdnRoot := sampleRoot
  credentialValid := true

def sampleTarget : MasterTarget := ⟨"1.0", some "2.0", sampleRoot, some "secret"⟩

def sampleRequest (name : String) : Request := ⟨sampleRoot ++ "/master/1.0/" ++ name, some ("reader", "secret")⟩

/-- The first request for each file is answered with 503; then the file comes in two chunks. -/
def sampleCdn (request : Request) : Nat → Option (Response (List Piece))
  | 0 => some ⟨503, none, []⟩
  | _ =>
    if request = sampleRequest "MasterManifest.json" then
      some ⟨200, none, [some [], some [.doc (.manifest sampleManifest)]]⟩
    else if request = sampleRequest "MasterA.bin" then some ⟨200, some 96, [some [.encrypted 96 encryptedSha], some []]⟩
    else some ⟨404, none, []⟩

def sampleWorld : World (List Piece) where
  root := {}
  game := sampleGame
  cdn := sampleCdn
  uuid := numbered 7

theorem update_requests_sample :
    (∀ request response, .got request response ∈ (Commands.eval (effect sampleFormats.toSerde)
        (update sampleFormats sampleUpdater) sampleWorld).2.trace → Authorized sampleUpdater request) ∧
      (∀ url, (Commands.eval (effect sampleFormats.toSerde) (update sampleFormats sampleUpdater) sampleWorld).2.trace.countP
        (Event.fetches (· == url)) ≤ 8) ∧
      (Commands.eval (effect sampleFormats.toSerde) (update sampleFormats sampleUpdater) sampleWorld).2.trace.countP
        Event.isGot ≤ 8 * 4097 :=
  update_requests (by decide +kernel) rfl (Runs.eval _ Elsewhere _ _)

example : (Commands.eval (effect sampleFormats.toSerde) (update sampleFormats sampleUpdater) sampleWorld).2.trace.countP
    Event.isGot = 4 := by decide +kernel

end SiriusProxy.Master.Update
