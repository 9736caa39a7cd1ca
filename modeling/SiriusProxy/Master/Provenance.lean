import SiriusProxy.Lib.Triple
import SiriusProxy.Master.Requests

namespace SiriusProxy.Master.Update
open Commands
variable {B : Type}

/-- The CDN has answered the target's request for a file with these bytes. -/
def Answered (lib : Formats B) (u : Updater B) (target : MasterTarget) (name : String) (limit : Nat) (bytes : B)
    (trace : List (Event B)) : Prop :=
  ∃ own response, credentials u.username target.password = some own ∧
    .got ⟨target.url name, own⟩ (some response) ∈ trace ∧ received lib limit response = .ok bytes

/-- The answer for an entry of the manifest is in the directory. -/
def Delivered (lib : Formats B) (u : Updater B) (target : MasterTarget) (encrypted : String → Option (Node B))
    (trace : List (Event B)) (e : Entry) : Prop :=
  ∃ bytes, encrypted e.name = some (.file bytes) ∧ Answered lib u target e.name e.size bytes trace

/-- A manifest of the target's version and all its files, as the CDN has answered them. -/
def Fetched (lib : Formats B) (u : Updater B) (target : MasterTarget) (encrypted : String → Option (Node B))
    (trace : List (Event B)) : Prop :=
  ∃ bytes manifest, encrypted "MasterManifest.json" = some (.file bytes) ∧
    Answered lib u target "MasterManifest.json" maxManifest bytes trace ∧ Manifest.parse lib.toSerde bytes = .ok manifest ∧
    manifest.version = target.version ∧ ∀ e ∈ manifest.files, Delivered lib u target encrypted trace e

/-- The game announced the target before anything else that the update has met. -/
def Saw (u : Updater B) (target : MasterTarget) (trace : List (Event B)) : Prop :=
  ∃ s since, trace = since ++ [.saw s] ∧ masterTarget u s = some target

/-- The target was announced first, and the draft is made of its files, which were asked for since. -/
def Supported (lib : Formats B) (u : Updater B) (target : MasterTarget) (draft : Draft B) (trace : List (Event B)) : Prop :=
  Saw u target trace ∧ ∃ encrypted uuid, Fetched lib u target encrypted trace ∧
    prepareDirectory lib.toSerde encrypted u.unpack .remote target.resourceVersion u.config.region uuid = .ok draft

/-- What has happened when a draft is published: the game has just announced its target once more. -/
def Justified (lib : Formats B) (u : Updater B) (target : MasterTarget) (draft : Draft B) (a : World B) : Prop :=
  ∃ s before, a.trace = .saw s :: before ∧ masterTarget u s = some target ∧ Supported lib u target draft before

/-- Before a publication an update only looks and asks. -/
structure Quietly (a b : World B) : Prop where
  root : b.root = a.root
  trace : a.trace <:+ b.trace
  unpublished : ∀ s, .published s ∈ b.trace → .published s ∈ a.trace

/-- A publication, the first of the update. -/
def Publishes (lib : Formats B) (u : Updater B) (a b : World B) : Prop :=
  ∃ target draft, Justified lib u target draft a ∧ (∀ s, .published s ∉ a.trace) ∧
    b.root = (publish lib.toSerde draft a.root a.now a.fault).2 ∧ .published draft.receipt.snapshot ∈ b.trace

def Moves (lib : Formats B) (u : Updater B) (a b : World B) : Prop := Quietly a b ∨ Publishes lib u a b

/-- Nothing is published since `w`. -/
structure Untouched (w t : World B) : Prop where
  root : t.root = w.root
  unpublished : ∀ s, .published s ∉ t.trace

/-- One draft is published since `w`. -/
def Changed (lib : Formats B) (u : Updater B) (w t : World B) : Prop :=
  ∃ a target draft, a.root = w.root ∧ Justified lib u target draft a ∧
    t.root = (publish lib.toSerde draft a.root a.now a.fault).2 ∧ ∃ s, .published s ∈ t.trace

section Invariants
variable (lib : Formats B) (u : Updater B) {w a b : World B}

section Kept
variable {lib : Formats B} {u : Updater B}

theorem Elsewhere.quietly (others : Elsewhere a b) : Quietly a b :=
  ⟨others.root, others.trace ▸ List.suffix_refl _, fun _ member => others.trace ▸ member⟩

theorem Untouched.quietly (untouched : Untouched w a) (quietly : Quietly a b) : Untouched w b :=
  ⟨quietly.root.trans untouched.root, fun s member => untouched.unpublished s (quietly.unpublished s member)⟩

theorem Changed.quietly (changed : Changed lib u w a) (quietly : Quietly a b) : Changed lib u w b := by
  obtain ⟨c, target, draft, same, justified, root, s, member⟩ := changed
  exact ⟨c, target, draft, same, justified, quietly.root.trans root, s, quietly.trace.subset member⟩

theorem Untouched.stable : Stable Elsewhere (Untouched w) := fun _ _ others held => held.quietly others.quietly

theorem untouched_upheld : Upholds (effect lib.toSerde) Elsewhere Quietly (Untouched w) where
  others _ _ moved held := held.quietly moved.quietly
  own _ _ held quietly := held.quietly quietly

/-- Before the publication the store is untouched, and after it the update publishes nothing more; what others do
is to neither. -/
theorem changes_upheld : Upholds (effect lib.toSerde) Elsewhere (Moves lib u) fun t => Untouched w t ∨ Changed lib u w t where
  others _ _ others held := held.imp (·.quietly others.quietly) (·.quietly others.quietly)
  own a c held moves := by
    rcases moves with quietly | ⟨target, draft, justified, none, root, member⟩
    · exact held.imp (·.quietly quietly) (·.quietly quietly)
    · rcases held with untouched | changed
      · exact .inr ⟨a, target, draft, untouched.root, justified, root, _, member⟩
      · obtain ⟨-, -, -, -, -, -, s, there⟩ := changed
        exact absurd there (none s)

end Kept

/-- A fact about the past. -/
def Past (F : List (Event B) → Prop) : Prop := ∀ before after, before <:+ after → F before → F after

theorem Past.lasting {F : List (Event B) → Prop} (past : Past F) : Lasting Elsewhere Quietly fun t : World B => F t.trace where
  stable _ _ others held := past _ _ others.quietly.trace held
  own _ _ quietly held := past _ _ quietly.trace held

theorem past_answered (target : MasterTarget) (name : String) (limit : Nat) (bytes : B) :
    Past (Answered lib u target name limit bytes) := by
  intro before after more answered
  obtain ⟨own, response, given, member, read⟩ := answered
  exact ⟨own, response, given, more.subset member, read⟩

theorem past_delivered (target : MasterTarget) (encrypted : String → Option (Node B)) (e : Entry) :
    Past fun trace => Delivered lib u target encrypted trace e := by
  intro before after more delivered
  obtain ⟨bytes, there, answered⟩ := delivered
  exact ⟨bytes, there, past_answered lib u target e.name e.size bytes before after more answered⟩

theorem past_fetched (target : MasterTarget) (encrypted : String → Option (Node B)) :
    Past (Fetched lib u target encrypted) := by
  intro before after more fetched
  obtain ⟨bytes, manifest, there, answered, parsed, version, files⟩ := fetched
  exact ⟨bytes, manifest, there, past_answered lib u target _ _ bytes before after more answered, parsed, version,
    fun e member => past_delivered lib u target encrypted e before after more (files e member)⟩

theorem past_saw (target : MasterTarget) : Past (Saw u target) := by
  intro before after more saw
  obtain ⟨s, since, rfl, found⟩ := saw
  obtain ⟨later, rfl⟩ := more
  exact ⟨s, later ++ since, (List.append_assoc ..).symm, found⟩

/-- Any command but a publication leaves the store alone and only adds to what was met. -/
theorem quietly_effect {lib : Serde B} {c : Command B} (quiet : ∀ draft, c ≠ .publish draft) :
    Quietly a (effect lib a c).2 := by
  have same : Quietly a a := ⟨rfl, List.suffix_refl _, fun s member => member⟩
  have met {event : Event B} (other : ∀ s, event ≠ .published s) : Quietly a (a.met event) := by
    refine ⟨rfl, List.suffix_cons .., fun s member => ?_⟩
    rcases List.mem_cons.mp member with first | older
    · exact absurd first.symm (other s)
    · exact older
  cases c with
  | state => exact met nofun
  | get request => exact met nofun
  | publish draft => exact absurd rfl (quiet draft)
  | _ => exact same

end Invariants

section Parts
variable {α : Type} (lib : Formats B) (u : Updater B) (w : World B) (target : MasterTarget)

/-- What a part of an update does before the publication. -/
abbrev Before (lib : Formats B) (w : World B) (P : World B → Prop) (p : Program B α) (Q : α → World B → Prop) : Prop :=
  Triple (effect lib.toSerde) Elsewhere Quietly (Untouched w) P p Q

theorem stable_trace (F : List (Event B) → Prop) : Stable Elsewhere fun t : World B => F t.trace := by
  intro a b others held
  rwa [others.trace]

/-- A command that leaves the world as it is keeps what is known of the trace. -/
theorem before_idle {F : List (Event B) → Prop} {c : Command B} (idle : ∀ t, (effect lib.toSerde t c).2 = t)
    (e : UpdateError) : Before lib w (fun t => F t.trace) (command c e) fun _ t => F t.trace := by
  refine .ask untouched_upheld (stable_trace F) (fun t _ _ => ?_) (fun _ => stable_trace F) fun t _ _ held _ => ?_
  · rw [idle]
    exact ⟨rfl, List.suffix_refl _, fun _ member => member⟩
  · rwa [idle]

/-- A result that is computed from what was read needs no command. -/
theorem before_ofMaster {P : World B → Prop} (r : Except MasterError α) :
    Before lib w P (ofMaster r) fun a _ => r = .ok a := by
  refine .ofExcept untouched_upheld (fun _ => .const _) fun a same _ _ => ?_
  cases r with
  | error e => cases same
  | ok b =>
    cases same
    rfl

/-- A look at the target, with what is known of the past before it. -/
theorem before_refresh {F : List (Event B) → Prop} :
    Before lib w (fun t => F t.trace) (refreshMasterTarget u) fun target t =>
      ∃ s before, t.trace = .saw s :: before ∧ masterTarget u s = some target ∧ F before := by
  have called : Before lib w (fun t => F t.trace) (command .call .target) fun _ t => F t.trace :=
    before_idle lib w (fun _ => rfl) _
  have looked : Before lib w (fun t => F t.trace) (command .state .target) fun (s : Client.State) t =>
      ∃ before, t.trace = .saw s :: before ∧ F before := by
    refine .ask untouched_upheld (stable_trace F) (fun _ _ _ => quietly_effect nofun) (fun s => ?_) fun t s _ held answer => ?_
    · exact stable_trace fun trace => ∃ before, trace = .saw s :: before ∧ F before
    · cases answer
      exact ⟨t.trace, rfl, held⟩
  refine called.bind fun _ => looked.bind fun s => ?_
  cases found : masterTarget u s with
  | none => exact .throw untouched_upheld
  | some target =>
    refine .pure untouched_upheld (stable_trace fun trace => ∃ s before, trace = .saw s :: before ∧
      masterTarget u s = some target ∧ F before) fun t held => ?_
    obtain ⟨before, trace, known⟩ := held
    exact ⟨s, before, trace, found, known⟩

/-- A download that returns has its bytes from an answer to its own request, whichever attempt it was. -/
theorem before_download (name : String) (limit : Nat) :
    Before lib w (fun _ => True) (download lib u target name limit) fun bytes t =>
      Answered lib u target name limit bytes t.trace := by
  have rested (attempt : Nat) : Before lib w (fun _ => True) (sleep u attempt) fun _ _ => True := by
    refine .bind (Q := fun _ _ => True) ?_ fun _ => .pure untouched_upheld (.const True) fun _ _ => trivial
    exact .attempt untouched_upheld (.const True) (fun _ _ _ => quietly_effect nofun) (fun _ => .const True)
      (fun _ _ _ _ _ => trivial) (fun _ _ _ => trivial) fun _ _ => trivial
  have once : Before lib w (fun _ => True) (downloadOnce lib u target name limit) fun bytes t =>
      Answered lib u target name limit bytes t.trace := by
    unfold downloadOnce
    cases given : credentials u.username target.password with
    | none => exact .throw untouched_upheld
    | some own =>
      have asked : Before lib w (fun _ => True) (command (.get ⟨target.url name, own⟩) .download)
          fun (response : Response B) t => .got ⟨target.url name, own⟩ (some response) ∈ t.trace := by
        refine .ask untouched_upheld (.const True) (fun _ _ _ => quietly_effect nofun) (fun response => ?_)
          fun t response _ _ answer => ?_
        · exact stable_trace fun trace => .got ⟨target.url name, own⟩ (some response) ∈ trace
        · have got : t.cdn ⟨target.url name, own⟩ (t.asked ⟨target.url name, own⟩) = some response := answer
          refine List.mem_cons.mpr (.inl ?_)
          rw [got]
      refine asked.bind fun response => .ofExcept untouched_upheld (fun bytes => ?_) fun bytes read t member => ?_
      · exact stable_trace (Answered lib u target name limit bytes)
      · exact ⟨own, response, given, member, read⟩
  exact .retry untouched_upheld ⟨.const True, fun _ _ _ => id⟩
    (fun bytes => stable_trace (Answered lib u target name limit bytes)) once rested _ _

/-- Each entry is downloaded into a place of its own, since the names are distinct, so none is replaced by a later
one. By induction on the entries. -/
theorem before_downloadAll {entries : List Entry} (distinct : (entries.map Entry.name).Nodup)
    (files : String → Option (Node B)) :
    Before lib w (fun _ => True) (downloadAll lib u target entries files) fun encrypted t =>
      (∀ name ∉ entries.map Entry.name, encrypted name = files name) ∧
        ∀ e ∈ entries, Delivered lib u target encrypted t.trace e := by
  induction entries generalizing files with
  | nil =>
    refine .pure untouched_upheld (stable_trace fun trace => _ ∧ ∀ e ∈ [], Delivered lib u target files trace e) fun t _ => ?_
    exact ⟨fun _ _ => rfl, fun e member => absurd member List.not_mem_nil⟩
  | cons entry rest ih =>
    obtain ⟨apart, distinct⟩ := List.nodup_cons.mp distinct
    refine (before_download lib u w target entry.name entry.size).bind fun bytes => ?_
    have past := past_answered lib u target entry.name entry.size bytes
    have saved := before_idle lib w (F := Answered lib u target entry.name entry.size bytes) (c := .disk) (fun _ => rfl) .master
    have later := (ih distinct (write files entry.name bytes)).frame past.lasting
    refine saved.bind fun _ => later.conseq (fun t held => ⟨trivial, held⟩) fun encrypted t post => ?_
    obtain ⟨⟨others, delivered⟩, answered⟩ := post
    refine ⟨fun name absent => ?_, fun e member => ?_⟩
    · rw [List.map_cons, List.mem_cons, not_or] at absent
      rw [others name absent.2, write_other files bytes absent.1]
    · rcases List.mem_cons.mp member with rfl | later
      · refine ⟨bytes, ?_, answered⟩
        rw [others e.name apart, write_self]
      · exact delivered e later

/-- The manifest comes first and must be of the target's version; its entries are then downloaded and saved. -/
theorem before_fetchAll : Before lib w (fun _ => True) (fetchAll lib u target) fun encrypted t =>
    Fetched lib u target encrypted t.trace := by
  refine (before_download lib u w target "MasterManifest.json" maxManifest).bind fun bytes => ?_
  have past := past_answered lib u target "MasterManifest.json" maxManifest bytes
  have read := ((before_ofMaster lib w (P := fun _ => True) (Manifest.parse lib.toSerde bytes)).frame
    past.lasting).conseq (fun _ held => ⟨trivial, held⟩) fun _ _ post => post
  refine read.bind fun manifest => .assume fun parsed => ?_
  split
  · rename_i version
    have valid := (Manifest.parse_ok.mp parsed).2.2
    have saved := before_idle lib w (F := fun _ => True) (c := .disk) (fun _ => rfl) .master
    have fetched := saved.bind fun _ => saved.bind fun _ => saved.bind fun _ =>
      before_downloadAll lib u w target valid.distinct (write (fun _ => none) "MasterManifest.json" bytes)
    refine (fetched.frame past.lasting).conseq (fun _ held => ⟨trivial, held⟩) fun encrypted t post => ?_
    obtain ⟨⟨others, delivered⟩, answered⟩ := post
    refine ⟨bytes, manifest, ?_, answered, parsed, version, delivered⟩
    rw [others _ (fun member => ?_), write_self]
    obtain ⟨e, inside, same⟩ := List.mem_map.mp member
    exact manifest_apart (valid.entries e inside) same
  · exact .throw untouched_upheld

/-- The part before the second look at the target. -/
theorem before_prepare (encrypted : String → Option (Node B)) :
    Before lib w (fun _ => True) (prepare lib u target encrypted) fun draft _ => ∃ uuid,
      prepareDirectory lib.toSerde encrypted u.unpack .remote target.resourceVersion u.config.region uuid = .ok draft := by
  have named := before_idle lib w (F := fun _ => True) (c := .uuid) (fun _ => rfl) .master
  refine named.bind fun uuid => (before_ofMaster lib w _).conseq (fun _ => id) fun draft _ prepared => ⟨uuid, prepared⟩

end Parts

section Whole
variable {α : Type} (lib : Formats B) (u : Updater B) (w : World B)

/-- What an update does, its publication included. -/
abbrev Through (P : World B → Prop) (p : Program B α) (Q : α → World B → Prop) : Prop :=
  Triple (effect lib.toSerde) Elsewhere (Moves lib u) (fun t => Untouched w t ∨ Changed lib u w t) P p Q

/-- How an update that returns has left the store. -/
def Settled : Outcome → World B → Prop
  | .unchanged _, t => Untouched w t
  | .updated receipt, t => ∃ a target draft, a.root = w.root ∧ Justified lib u target draft a ∧
      publish lib.toSerde draft a.root a.now a.fault = (.ok receipt, t.root)

theorem through_before {lib : Formats B} {w : World B} {P : World B → Prop} {p : Program B α} {Q : α → World B → Prop}
    (before : Before lib w P p Q) :
    Through lib u w (fun t => Untouched w t ∧ P t) p fun a t => Untouched w t ∧ Q a t :=
  before.widen (fun _ _ quietly => .inl quietly) fun _ untouched => .inl untouched

/-- The second look announces the target again right before the publication, which is the only command that changes
the store. -/
theorem through_settle (target : MasterTarget) (draft : Draft B) :
    Through lib u w (fun t => Untouched w t ∧ Supported lib u target draft t.trace) (settle u target draft)
      (Settled lib u w) := by
  refine (through_before u (before_refresh lib u w)).bind fun latest => ?_
  split
  · rename_i same
    subst same
    have stable : Stable Elsewhere fun t : World B => Untouched w t ∧ Justified lib u latest draft t :=
      Untouched.stable.both (stable_trace fun trace => ∃ s before, trace = .saw s :: before ∧
        masterTarget u s = some latest ∧ Supported lib u latest draft before)
    have left (published : Except MasterError ImportReceipt) : Stable Elsewhere fun t : World B =>
        ∃ a, a.root = w.root ∧ Justified lib u latest draft a ∧
          publish lib.toSerde draft a.root a.now a.fault = (published, t.root) := by
      intro t x others held
      obtain ⟨a, root, known, done⟩ := held
      exact ⟨a, root, known, by rw [others.root, done]⟩
    refine .bind (Q := fun published t => ∃ a, a.root = w.root ∧ Justified lib u latest draft a ∧
      publish lib.toSerde draft a.root a.now a.fault = (published, t.root)) (.ask changes_upheld stable ?_ left ?_) fun published => ?_
    · intro t _ held
      exact .inr ⟨latest, draft, held.2, held.1.unpublished, rfl, List.mem_cons_self⟩
    · intro t published _ held answer
      exact ⟨t, held.1.root, held.2, Prod.ext (Option.some.inj answer) rfl⟩
    · cases published with
      | error e => exact .throw changes_upheld
      | ok receipt =>
        refine .pure changes_upheld (fun t x others held => ?_) fun t held => ?_
        · obtain ⟨a, target, draft, root, known, done⟩ := held
          exact ⟨a, target, draft, root, known, by rw [others.root, done]⟩
        · obtain ⟨a, root, known, done⟩ := held
          exact ⟨a, latest, draft, root, known, done⟩
  · exact .throw changes_upheld

/-- What was downloaded and prepared is what the publication then needs to be justified. -/
theorem through_install (target : MasterTarget) :
    Through lib u w (fun t => Untouched w t ∧ Saw u target t.trace) (install lib u target) (Settled lib u w) := by
  have past := past_saw u target
  have fetched := through_before u ((before_fetchAll lib u w target).frame past.lasting)
  refine (fetched.conseq (fun _ held => ⟨held.1, trivial, held.2⟩) fun _ _ post => post).bind fun encrypted => ?_
  have known : Past fun trace => Fetched lib u target encrypted trace ∧ Saw u target trace := fun before after more held =>
    ⟨past_fetched lib u target encrypted before after more held.1, past before after more held.2⟩
  have prepared := through_before u ((before_prepare lib u w target encrypted).frame known.lasting)
  refine (prepared.conseq (fun _ held => ⟨held.1, trivial, held.2⟩) fun _ _ post => post).bind fun draft => ?_
  refine (through_settle lib u w target draft).conseq (fun t held => ?_) fun _ _ post => post
  obtain ⟨untouched, ⟨uuid, made⟩, fetched, saw⟩ := held
  exact ⟨untouched, saw, encrypted, uuid, fetched, made⟩

/-- From the start of its trace on, an update leaves the store as its outcome says. -/
theorem through_update : Through lib u w (fun t => Untouched w t ∧ t.trace = []) (update lib u) (Settled lib u w) := by
  have locked := through_before u (before_idle lib w (F := (· = [])) (c := .lock) (fun _ => rfl) .master)
  refine locked.bind fun _ => ?_
  have looked := through_before u (before_refresh lib u w (F := (· = [])))
  refine (looked.conseq (fun _ held => held) fun target t post => ?_).bind
    (Q := fun target t => Untouched w t ∧ Saw u target t.trace) fun target => ?_
  · obtain ⟨untouched, s, before, trace, found, rfl⟩ := post
    exact ⟨untouched, s, [], trace, found⟩
  · have read := through_before u (before_idle lib w (F := Saw u target) (c := .installed) (fun _ => rfl) .master)
    refine read.bind fun root => ?_
    cases current lib u root target with
    | some status => exact .pure changes_upheld Untouched.stable fun _ held => held.1
    | none => exact through_install lib u w target

end Whole

section Installed
variable {lib : Formats B} {u : Updater B} {target : MasterTarget} {draft : Draft B} {a w x : World B}
  {o : Commands.Outcome UpdateError Outcome}

/-- What a draft says of itself. -/
theorem prepareDirectory_receipt {lib : Serde B} {encrypted : String → Option (Node B)} {unpack : B → Except MasterError B}
    {origin : Source} {resourceVersion : Option String} {region : Region} {uuid : Uuid}
    (prepared : prepareDirectory lib encrypted unpack origin resourceVersion region uuid = .ok draft) :
    ∃ bytes manifest, Reads.eval encrypted (readBounded lib (fun files => files "MasterManifest.json") maxManifest) = .ok bytes ∧
      Manifest.parse lib bytes = .ok manifest ∧ draft.receipt.version = manifest.version ∧
      draft.receipt.resourceVersion = resourceVersion ∧ draft.receipt.region = region ∧
      draft.receipt.snapshot = snapshotName uuid := by
  unfold prepareDirectory at prepared
  split at prepared
  · cases prepared
  · obtain ⟨bytes, read, prepared⟩ := bind_ok prepared
    obtain ⟨manifest, parsed, prepared⟩ := bind_ok prepared
    obtain ⟨staging, -, prepared⟩ := bind_ok prepared
    obtain ⟨⟨⟩, -, prepared⟩ := bind_ok prepared
    cases prepared
    exact ⟨bytes, manifest, read, parsed, rfl, rfl, rfl, rfl⟩

/-- The target is installed: `CURRENT` names a complete snapshot with its versions. -/
structure Installed (lib : Serde B) (region : Region) (target : MasterTarget) (receipt : ImportReceipt) (root : Root B) :
    Prop where
  version : receipt.version = target.version
  resourceVersion : receipt.resourceVersion = target.resourceVersion
  region : receipt.region = region
  pointer : root.current = some (.file (lib.ofString receipt.snapshot))
  complete : ∃ files source index, root.snapshots receipt.snapshot = some (.directory files) ∧
    Complete lib files receipt source index

/-- A publication that succeeds has put the prepared import into the store, with the version of the target. -/
theorem installed_of_publish {lib : Serde B} {unpack : B → Except MasterError B} {encrypted : String → Option (Node B)}
    {region : Region} {uuid : Uuid} {bytes : B} {manifest : Manifest} {root after : Root B} {now : Instant}
    {fault : Option Fault} {receipt : ImportReceipt} (there : encrypted "MasterManifest.json" = some (.file bytes))
    (parsed : Manifest.parse lib bytes = .ok manifest) (version : manifest.version = target.version)
    (prepared : prepareDirectory lib encrypted unpack .remote target.resourceVersion region uuid = .ok draft)
    (done : publish lib draft root now fault = (.ok receipt, after)) : Installed lib region target receipt after := by
  obtain ⟨rfl, -, previous, -, rfl⟩ := publish_ok done
  obtain ⟨source, index, complete⟩ := prepareDirectory_complete prepared
  obtain ⟨read, found, opened, known, own, resourceVersion, same, -⟩ := prepareDirectory_receipt prepared
  have short := (Manifest.parse_ok.mp parsed).1
  cases opened.symm.trans (eval_readBounded (fun files : String → Option (Node B) => files "MasterManifest.json") there short)
  cases known.symm.trans parsed
  refine ⟨own.trans version, resourceVersion, same, rfl, _, source, index, Function.update_self .., ?_⟩
  exact complete.write_publication _

/-- Whatever others do and wherever an update stops: it changes the store at most once, by publishing what the CDN has
answered for a target that the game announced before the downloads and again right before the publication. What it
reports as updated is installed with the versions of that target. -/
theorem update_installs (fresh : w.trace = []) (run : Runs (effect lib.toSerde) Elsewhere (update lib u) w o x) :
    (x.root = w.root ∨ ∃ a target draft, a.root = w.root ∧ Justified lib u target draft a ∧
      x.root = (publish lib.toSerde draft a.root a.now a.fault).2) ∧
    (∀ status, o = .ended (.ok (.unchanged status)) → x.root = w.root) ∧
    ∀ receipt, o = .ended (.ok (.updated receipt)) → ∃ a target draft, a.root = w.root ∧ Justified lib u target draft a ∧
      publish lib.toSerde draft a.root a.now a.fault = (.ok receipt, x.root) ∧
      Installed lib.toSerde u.config.region target receipt x.root := by
  have untouched : Untouched w w := ⟨rfl, fun s member => by rw [fresh] at member; cases member⟩
  obtain ⟨kept, settled⟩ := Triple.run run changes_upheld (through_update lib u w) (.inl untouched) ⟨untouched, fresh⟩
  refine ⟨?_, fun status same => (settled _ same).root, fun receipt same => ?_⟩
  · rcases kept with held | ⟨a, target, draft, root, justified, published, -⟩
    · exact .inl held.root
    · exact .inr ⟨a, target, draft, root, justified, published⟩
  · obtain ⟨a, target, draft, root, justified, done⟩ := settled _ same
    obtain ⟨s, before, trace, found, supported⟩ := justified
    refine ⟨a, target, draft, root, ⟨s, before, trace, found, supported⟩, done, ?_⟩
    obtain ⟨-, encrypted, uuid, ⟨bytes, manifest, there, -, parsed, version, -⟩, prepared⟩ := supported
    exact installed_of_publish there parsed version prepared done

theorem update_installs_sample : ∃ receipt x,
    Commands.eval (effect sampleFormats.toSerde) (update sampleFormats sampleUpdater) sampleWorld = (.ok (.updated receipt), x) ∧
    ∃ a target draft, a.root = sampleWorld.root ∧ Justified sampleFormats sampleUpdater target draft a ∧
      publish sampleFormats.toSerde draft a.root a.now a.fault = (.ok receipt, x.root) ∧
      Installed sampleFormats.toSerde .jp target receipt x.root := by
  have updated : ((Commands.eval (effect sampleFormats.toSerde) (update sampleFormats sampleUpdater) sampleWorld).1.toOption.any
    fun | .updated _ => true | .unchanged _ => false) = true := by decide +kernel
  have run := Runs.eval (effect sampleFormats.toSerde) Elsewhere (update sampleFormats sampleUpdater) sampleWorld
  cases done : Commands.eval (effect sampleFormats.toSerde) (update sampleFormats sampleUpdater) sampleWorld with
  | mk r x =>
    rw [done] at updated run
    cases r with
    | error e => cases updated
    | ok outcome =>
      cases outcome with
      | unchanged status => cases updated
      | updated receipt => exact ⟨receipt, x, rfl, (update_installs rfl run).2.2 receipt rfl⟩

end Installed

end SiriusProxy.Master.Update
