import SiriusProxy.Master.Provenance

namespace SiriusProxy.Master.Update
open Commands (Prog)
variable {B : Type}

section Read
variable {lib : Formats B} {root : Root B} {files : String → Option (Node B)} {receipt : ImportReceipt}
  {source : Manifest} {index : Inventory}

/-- The status of a complete snapshot. -/
def statusOf (receipt : ImportReceipt) (source : Manifest) : Status where
  version := source.version
  snapshot := receipt.snapshot
  source := receipt.source.name
  region := receipt.region
  tables := source.files.map fun f => String.ofList (trimBin f.name.toList.reverse).reverse
  resourceVersion := receipt.resourceVersion

def wholeDocument (lib : Formats B) (receipt : ImportReceipt) (source : Manifest) : MasterDocument B where
  version := source.version
  sha256 := digest lib.toSerde (lib.ofStatus (statusOf receipt source))
  bytes := lib.ofStatus (statusOf receipt source)

theorem inner_of_complete (complete : Complete lib.toSerde files receipt source index)
    (there : root.snapshots receipt.snapshot = some (.directory files))
    (pointer : root.current = some (.file (lib.ofString receipt.snapshot))) (table : Option String) :
    Reads.eval root (readCurrentInner lib.toSerde lib.ofStatus table (some receipt.region)) =
      Reads.eval (some (.directory files)) (readSnapshot lib.toSerde lib.ofStatus receipt.snapshot table (some receipt.region)) := by
  have named := complete.named
  simp only [isSnapshotName, Bool.and_eq_true] at named
  unfold readCurrentInner
  rw [Reads.eval_bind_ok (eval_readBounded Root.current pointer (length_pointer complete.named)), lib.utf8_ofString]
  simp only [named.1, named.2, Bool.not_true, Bool.or_self, Bool.false_eq_true, if_false]
  rw [Reads.eval_zoom, there]

theorem whole_of_complete (complete : Complete lib.toSerde files receipt source index)
    (there : root.snapshots receipt.snapshot = some (.directory files))
    (pointer : root.current = some (.file (lib.ofString receipt.snapshot))) :
    Reads.eval root (readCurrentIn lib.toSerde lib.ofStatus none receipt.region) =
      .ok (wholeDocument lib receipt source) := by
  have sourceNamed : [Source.localImport, .remote, .registry].any (·.name == receipt.source.name) = true := by
    cases receipt.source <;> rfl
  have resource : recordedResourceVersion receipt.value = .ok receipt.resourceVersion := by
    unfold recordedResourceVersion ImportReceipt.value
    cases recorded : receipt.resourceVersion with
    | none => rfl
    | some v => simp only [Option.map_some, complete.resource v recorded, if_true]
  have made : status lib.toSerde lib.ofStatus source receipt.snapshot receipt.region receipt.value =
      .ok (wholeDocument lib receipt source) := by
    unfold status
    rw [resource]
    simp only [ImportReceipt.value, Option.filter_some, sourceNamed, if_true, complete.version, bne_self_eq_false, Bool.or_self,
      Bool.false_eq_true, if_false]
    rfl
  have read : Reads.eval root (readCurrentInner lib.toSerde lib.ofStatus none (some receipt.region)) =
      .ok (wholeDocument lib receipt source, false) := by
    rw [inner_of_complete complete there pointer, complete.eval_readSnapshot]
    exact Reads.eval_bind_ok ((Reads.eval_done _).trans made)
  unfold readCurrentIn
  rw [Reads.eval_bind_ok read]
  rfl

theorem trimBin_safe {cs : List Char} (safe : cs.all isSafeChar = true) : trimBin cs = cs := by
  unfold trimBin
  split
  · simp only [List.all_cons, Bool.and_eq_true] at safe
    exact absurd safe.2.2.2.1 (by decide)
  · rfl

/-- The stem of a table as the status lists it. -/
theorem listed_stem {stem : List Char} {e : Entry} (bin : e.name.toList = stem ++ ['.', 'b', 'i', 'n'])
    (safe : stem.all isSafeChar = true) : String.ofList (trimBin e.name.toList.reverse).reverse = String.ofList stem := by
  rw [bin, List.reverse_append]
  change String.ofList (trimBin stem.reverse).reverse = _
  rw [trimBin_safe (by rwa [List.all_reverse]), List.reverse_reverse]

theorem indexed_of_entry (complete : Complete lib.toSerde files receipt source index) {e : Entry} (member : e ∈ source.files) :
    ∃ f ∈ index.files, f.name = jsonName e.name := by
  have listed : jsonName e.name ∈ index.files.map File.name := by
    rw [complete.valid.names]
    exact mem_expectedNames.mpr ⟨e, member, rfl⟩
  obtain ⟨f, inside, same⟩ := List.mem_map.mp listed
  exact ⟨f, inside, same⟩

/-- Every table that the status of a complete snapshot lists is intact. -/
theorem tables_of_complete (complete : Complete lib.toSerde files receipt source index)
    (there : root.snapshots receipt.snapshot = some (.directory files))
    (pointer : root.current = some (.file (lib.ofString receipt.snapshot))) :
    (statusOf receipt source).tables.all (fun table => currentTableIntact lib root table receipt.region source.version) = true := by
  rw [List.all_eq_true]
  intro table listed
  obtain ⟨e, member, rfl⟩ := List.mem_map.mp listed
  obtain ⟨stem, bin, json, safe, short, start, -⟩ := Entry.wellFormed_stem (complete.source_valid.entries e member)
  rw [listed_stem bin safe]
  obtain ⟨f, inside, same⟩ := indexed_of_entry complete member
  have named : Stem source f (String.ofList stem) := by
    refine ⟨?_, safeComponent_stem safe short start, List.any_eq_true.mpr ⟨e, member, ?_⟩⟩
    · rw [same]
      apply String.toList_inj.mp
      rw [json, String.toList_append, String.toList_ofList]
      rfl
    · rw [beq_iff_eq]
      apply String.toList_inj.mp
      rw [bin, String.toList_append, String.toList_ofList]
      rfl
  obtain ⟨bytes, read, -, -⟩ := complete.eval_readTable inside named
  have inner : Reads.eval root (readCurrentInner lib.toSerde lib.ofStatus (some (String.ofList stem)) (some receipt.region)) =
      .ok (⟨source.version, f.sha256, bytes⟩, true) := by
    rw [inner_of_complete complete there pointer, complete.eval_readSnapshot]
    exact read
  simp only [currentTableIntact, inner, beq_self_eq_true, Bool.true_or, Bool.and_self]

/-- A snapshot that is installed with the target's version needs no update, unless it lacks a resource version. -/
theorem current_of_installed {u : Updater B} {old target : MasterTarget}
    (installed : Installed lib.toSerde u.config.region old receipt root) (version : target.version = receipt.version)
    (resource : target.resourceVersion.isSome = true → receipt.resourceVersion.isSome = true) :
    ∃ status, current lib u root target = some status ∧ status.snapshot = receipt.snapshot ∧
      status.version = receipt.version ∧ status.resourceVersion = receipt.resourceVersion := by
  obtain ⟨files, source, index, there, complete⟩ := installed.complete
  refine ⟨statusOf receipt source, ?_, rfl, complete.version.symm, rfl⟩
  have whole := whole_of_complete complete there installed.pointer
  have tables := tables_of_complete complete there installed.pointer
  rw [installed.region] at whole tables
  have recorded : (target.resourceVersion.isSome && (statusOf receipt source).resourceVersion.isNone) = false := by
    cases wanted : target.resourceVersion with
    | none => rfl
    | some v =>
      have own : receipt.resourceVersion.isSome = true := resource (by rw [wanted]; rfl)
      rw [statusOf, Option.isNone_eq_false_iff.mpr own]
      rfl
  have same : target.version = source.version := version.trans complete.version
  unfold current
  rw [whole]
  simp only [wholeDocument, same, bne_self_eq_false, Bool.false_eq_true, if_false, lib.status_ofStatus, recorded, tables, if_true]

end Read

section Again
variable {lib : Formats B} {u : Updater B} {target : MasterTarget} {w x y : World B}

theorem eval_refresh {lib : Serde B} (announced : masterTarget u y.game = some target) :
    Commands.eval (effect lib) (refreshMasterTarget u) y = (.ok target, y.met (.saw y.game)) := by
  have called : Commands.eval (effect lib) (command .call .target) y = (.ok (), y) := rfl
  have looked : Commands.eval (effect lib) (command .state .target) y = (.ok y.game, y.met (.saw y.game)) := rfl
  unfold refreshMasterTarget
  rw [Commands.eval_bind_ok called, Commands.eval_bind_ok looked, announced]
  rfl

/-- An update up to its downloads. -/
theorem eval_update (announced : masterTarget u y.game = some target) :
    Commands.eval (effect lib.toSerde) (update lib u) y = match current lib u y.root target with
      | some status => (.ok (.unchanged status), y.met (.saw y.game))
      | none => Commands.eval (effect lib.toSerde) (install lib u target) (y.met (.saw y.game)) := by
  have locked : Commands.eval (effect lib.toSerde) (command .lock .master) y = (.ok (), y) := rfl
  have read : Commands.eval (effect lib.toSerde) (command .installed .master) (y.met (.saw y.game)) =
      (.ok y.root, y.met (.saw y.game)) := rfl
  unfold update
  rw [Commands.eval_bind_ok locked, Commands.eval_bind_ok (eval_refresh announced), Commands.eval_bind_ok read]
  cases current lib u y.root target <;> rfl

/-- Once a run has reported an update, the next one finds nothing to do while the game announces the same version:
it sends nothing and leaves the store, however the CDN and the disk are by then. -/
theorem update_settles {receipt : ImportReceipt} (fresh : w.trace = [])
    (run : Commands.Runs (effect lib.toSerde) Elsewhere (update lib u) w (.ended (.ok (.updated receipt))) x)
    (stays : y.root = x.root) (announced : masterTarget u y.game = some target) (version : target.version = receipt.version)
    (resource : target.resourceVersion.isSome = true → receipt.resourceVersion.isSome = true) :
    ∃ status, Commands.eval (effect lib.toSerde) (update lib u) y = (.ok (.unchanged status), y.met (.saw y.game)) ∧
      status.snapshot = receipt.snapshot ∧ status.version = receipt.version ∧
      status.resourceVersion = receipt.resourceVersion := by
  obtain ⟨a, old, draft, -, -, -, installed⟩ := (update_installs fresh run).2.2 receipt rfl
  obtain ⟨status, found, same⟩ := current_of_installed installed version resource
  refine ⟨status, ?_, same⟩
  rw [eval_update announced, stays, found]

/-- The second update has no CDN any more. -/
theorem update_settles_sample : ∃ receipt x status y,
    Commands.eval (effect sampleFormats.toSerde) (update sampleFormats sampleUpdater) sampleWorld = (.ok (.updated receipt), x) ∧
      Commands.eval (effect sampleFormats.toSerde) (update sampleFormats sampleUpdater) { x with cdn := fun _ _ => none } =
        (.ok (.unchanged status), y) ∧ status.snapshot = receipt.snapshot := by
  have recorded : ((Commands.eval (effect sampleFormats.toSerde) (update sampleFormats sampleUpdater) sampleWorld).1.toOption.bind
    fun | .updated r => some (r.version, r.resourceVersion) | .unchanged _ => none) = some ("1.0", some "2.0") := by
    decide +kernel
  have announced : masterTarget sampleUpdater
      (Commands.eval (effect sampleFormats.toSerde) (update sampleFormats sampleUpdater) sampleWorld).2.game = some sampleTarget := by
    decide +kernel
  have run := Commands.Runs.eval (effect sampleFormats.toSerde) Elsewhere (update sampleFormats sampleUpdater) sampleWorld
  cases done : Commands.eval (effect sampleFormats.toSerde) (update sampleFormats sampleUpdater) sampleWorld with
  | mk r x =>
    rw [done] at recorded announced run
    cases r with
    | error e => cases recorded
    | ok outcome =>
      cases outcome with
      | unchanged status => cases recorded
      | updated receipt =>
        obtain ⟨version, resourceVersion⟩ := Prod.ext_iff.mp (Option.some.inj recorded)
        obtain ⟨status, again, snapshot, -⟩ := update_settles (y := { x with cdn := fun _ _ => none }) rfl run rfl announced
          version.symm fun _ => Option.isSome_of_eq_some resourceVersion
        exact ⟨receipt, x, status, _, rfl, again, snapshot⟩

end Again

section Download
variable {lib : Formats B} {u : Updater B} {target : MasterTarget} {w : World B}

/-- What an attempt makes of an answer. -/
def reply (lib : Formats B) (limit : Nat) : Option (Response B) → Except UpdateError B
  | none => .error .download
  | some response => received lib limit response

/-- From here on the CDN answers the request with a file, after fewer failures of the passing kind than attempts. -/
def Serves (lib : Formats B) (u : Updater B) (target : MasterTarget) (w : World B) (name : String) (limit : Nat) (bytes : B) :
    Prop :=
  ∃ own m, credentials u.username target.password = some own ∧ m < u.network.attempts ∧
    reply lib limit (w.cdn ⟨target.url name, own⟩ (w.asked ⟨target.url name, own⟩ + m)) = .ok bytes ∧
    ∀ i < m, ∃ e, reply lib limit (w.cdn ⟨target.url name, own⟩ (w.asked ⟨target.url name, own⟩ + i)) = .error e ∧
      e.transient = true

/-- After so many more requests of one kind. -/
def World.after (w : World B) (request : Request) : Nat → World B
  | 0 => w
  | i + 1 => (w.after request i).met (.got request (w.cdn request (w.asked request + i)))

/-- Only the trace is longer, by at most so many requests. -/
structure Longer (n : Nat) (w t : World B) : Prop where
  same : t = { w with trace := t.trace }
  count : t.trace.countP Event.isGot ≤ w.trace.countP Event.isGot + n

theorem World.after_same (request : Request) (i : Nat) : w.after request i = { w with trace := (w.after request i).trace } := by
  induction i with
  | zero => rfl
  | succ i ih =>
    rw [World.after, World.met]
    rw [ih]

theorem World.after_asked (request other : Request) (i : Nat) :
    (w.after request i).asked other = w.asked other + if other = request then i else 0 := by
  induction i with
  | zero => simp [World.after]
  | succ i ih =>
    have step : (w.after request (i + 1)).asked other = (w.after request i).asked other + if request = other then 1 else 0 := by
      simp [World.after, World.asked, World.met, List.countP_cons, Event.asks]
    rw [step, ih]
    by_cases same : other = request
    · subst same
      simp only [if_true]
      omega
    · rw [if_neg same, if_neg (Ne.symm same), if_neg same]

theorem World.after_count (request : Request) (i : Nat) :
    (w.after request i).trace.countP Event.isGot = w.trace.countP Event.isGot + i := by
  induction i with
  | zero => rfl
  | succ i ih => rw [World.after, World.met, List.countP_cons, ih]; rfl

theorem eval_once {name : String} {limit : Nat} {own : Option (String × String)}
    (given : credentials u.username target.password = some own) (i : Nat) :
    Commands.eval (effect lib.toSerde) (downloadOnce lib u target name limit) (w.after ⟨target.url name, own⟩ i) =
      (reply lib limit (w.cdn ⟨target.url name, own⟩ (w.asked ⟨target.url name, own⟩ + i)),
        w.after ⟨target.url name, own⟩ (i + 1)) := by
  have same : (w.after ⟨target.url name, own⟩ i).cdn = w.cdn := by rw [World.after_same]
  have count : (w.after ⟨target.url name, own⟩ i).asked ⟨target.url name, own⟩ = w.asked ⟨target.url name, own⟩ + i := by
    rw [World.after_asked, if_pos rfl]
  unfold downloadOnce
  rw [given]
  have met : effect lib.toSerde (w.after ⟨target.url name, own⟩ i) (.get ⟨target.url name, own⟩) =
      (w.cdn ⟨target.url name, own⟩ (w.asked ⟨target.url name, own⟩ + i), w.after ⟨target.url name, own⟩ (i + 1)) := by
    simp only [effect, same, count, World.after]
  cases answer : w.cdn ⟨target.url name, own⟩ (w.asked ⟨target.url name, own⟩ + i) with
  | none =>
    rw [answer] at met
    exact Commands.eval_bind_error (Commands.eval_ask_none _ met)
  | some response =>
    rw [answer] at met
    exact Commands.eval_bind_ok (Commands.eval_ask _ met)

/-- Passing failures leave no trace in the file. -/
theorem eval_download {name : String} {limit : Nat} {bytes : B} (serves : Serves lib u target w name limit bytes) :
    ∃ own t, Commands.eval (effect lib.toSerde) (download lib u target name limit) w = (.ok bytes, t) ∧
      Longer u.network.attempts w t ∧ ∀ other, other ≠ ⟨target.url name, own⟩ → t.asked other = w.asked other := by
  obtain ⟨own, m, given, few, ends, fails⟩ := serves
  refine ⟨own, w.after ⟨target.url name, own⟩ (m + 1), ?_, ⟨World.after_same _ _, ?_⟩, fun other differs => ?_⟩
  · refine Commands.eval_retry (w.after ⟨target.url name, own⟩) (fun i => w.after ⟨target.url name, own⟩ (i + 1))
      (fun i => match reply lib limit (w.cdn ⟨target.url name, own⟩ (w.asked ⟨target.url name, own⟩ + i)) with
        | .ok _ => .download
        | .error e => e) few (fun i small => ?_) ?_
    · obtain ⟨e, failed, passing⟩ := fails i small
      refine ⟨?_, ?_, rfl⟩
      · rw [eval_once given, failed]
      · simp only [failed, Network.retry, passing, Bool.and_true, decide_eq_true_eq]
        omega
    · rw [eval_once given, ends]
  · rw [World.after_count]
    omega
  · rw [World.after_asked, if_neg differs, Nat.add_zero]

theorem Longer.refl : Longer 0 w w := ⟨rfl, Nat.le_refl _⟩

theorem Longer.trans {m n : Nat} {t v : World B} (first : Longer m w t) (second : Longer n t v) : Longer (m + n) w v := by
  refine ⟨?_, ?_⟩
  · rw [second.same, first.same]
  · have more := first.count
    have most := second.count
    omega

/-- The requests for one file do not spoil another. -/
theorem Serves.later {name other : String} {own : Option (String × String)} {limit n : Nat} {bytes : B} {t : World B}
    (serves : Serves lib u target w other limit bytes) (longer : Longer n w t)
    (kept : ∀ r, r ≠ ⟨target.url name, own⟩ → t.asked r = w.asked r) (differs : other ≠ name) :
    Serves lib u target t other limit bytes := by
  obtain ⟨credential, m, given, few, ends, fails⟩ := serves
  have apart : (⟨target.url other, credential⟩ : Request) ≠ ⟨target.url name, own⟩ :=
    fun same => differs (url_injective (congrArg Request.url same))
  have cdn : t.cdn = w.cdn := by rw [longer.same]
  exact ⟨credential, m, given, few, by rw [cdn, kept _ apart, ends], fun i small => by rw [cdn, kept _ apart]; exact fails i small⟩

/-- The directory with these files. -/
def deliver (contents : String → B) (entries : List Entry) (files : String → Option (Node B)) : String → Option (Node B) :=
  entries.foldl (fun files e => write files e.name (contents e.name)) files

theorem eval_downloadAll {contents : String → B} {entries : List Entry} (distinct : (entries.map Entry.name).Nodup)
    (serves : ∀ e ∈ entries, Serves lib u target w e.name e.size (contents e.name)) (files : String → Option (Node B)) :
    ∃ t, Commands.eval (effect lib.toSerde) (downloadAll lib u target entries files) w =
      (.ok (deliver contents entries files), t) ∧ Longer (u.network.attempts * entries.length) w t := by
  induction entries generalizing w files with
  | nil => exact ⟨w, rfl, .refl⟩
  | cons entry rest ih =>
    obtain ⟨apart, distinct⟩ := List.nodup_cons.mp distinct
    obtain ⟨own, t, first, longer, kept⟩ := eval_download (serves entry List.mem_cons_self)
    have later : ∀ e ∈ rest, Serves lib u target t e.name e.size (contents e.name) := fun e member =>
      (serves e (List.mem_cons_of_mem _ member)).later longer kept fun same => apart (same ▸ List.mem_map_of_mem member)
    obtain ⟨v, more, further⟩ := ih distinct later (write files entry.name (contents entry.name))
    have saved : Commands.eval (effect lib.toSerde) (command .disk .master) t = (.ok (), t) := rfl
    refine ⟨v, ?_, ?_⟩
    · unfold downloadAll
      rw [Commands.eval_bind_ok first, Commands.eval_bind_ok saved]
      exact more
    · rw [List.length_cons, Nat.mul_succ, Nat.add_comm]
      exact longer.trans further

/-- What the CDN has for the announced target. -/
structure Serving (lib : Formats B) (u : Updater B) (target : MasterTarget) (w : World B) (contents : String → B)
    (manifest : Manifest) : Prop where
  parsed : Manifest.parse lib.toSerde (contents "MasterManifest.json") = .ok manifest
  version : manifest.version = target.version
  whole : Serves lib u target w "MasterManifest.json" maxManifest (contents "MasterManifest.json")
  files : ∀ e ∈ manifest.files, Serves lib u target w e.name e.size (contents e.name)

/-- All the files of a target. -/
def downloads (contents : String → B) (manifest : Manifest) : String → Option (Node B) :=
  deliver contents manifest.files (write (fun _ => none) "MasterManifest.json" (contents "MasterManifest.json"))

theorem eval_fetchAll {contents : String → B} {manifest : Manifest} (serving : Serving lib u target w contents manifest) :
    ∃ t, Commands.eval (effect lib.toSerde) (fetchAll lib u target) w = (.ok (downloads contents manifest), t) ∧
      Longer (u.network.attempts * (1 + manifest.files.length)) w t := by
  obtain ⟨own, t, first, longer, kept⟩ := eval_download serving.whole
  have valid := (Manifest.parse_ok.mp serving.parsed).2.2
  have later : ∀ e ∈ manifest.files, Serves lib u target t e.name e.size (contents e.name) := fun e member =>
    (serving.files e member).later longer kept (manifest_apart (valid.entries e member))
  obtain ⟨v, more, further⟩ := eval_downloadAll valid.distinct later
    (write (fun _ => none) "MasterManifest.json" (contents "MasterManifest.json"))
  have read : Commands.eval (effect lib.toSerde) (ofMaster (B := B) (Manifest.parse lib.toSerde
      (contents "MasterManifest.json"))) t = (.ok manifest, t) := by rw [serving.parsed]; rfl
  have saved : Commands.eval (effect lib.toSerde) (command .disk .master) t = (.ok (), t) := rfl
  refine ⟨v, ?_, ?_⟩
  · unfold fetchAll
    rw [Commands.eval_bind_ok first, Commands.eval_bind_ok read, if_pos serving.version, Commands.eval_bind_ok saved,
      Commands.eval_bind_ok saved, Commands.eval_bind_ok saved]
    exact more
  · rw [Nat.mul_add, Nat.mul_one]
    exact longer.trans further

end Download

section Converge
variable {lib : Formats B} {u : Updater B} {target : MasterTarget} {w : World B} {contents : String → B} {manifest : Manifest}
  {draft : Draft B} {previous : Option String}

theorem deliver_other {entries : List Entry} {name : String} (absent : ∀ e ∈ entries, e.name ≠ name)
    (files : String → Option (Node B)) : deliver contents entries files name = files name := by
  induction entries generalizing files with
  | nil => rfl
  | cons entry rest ih =>
    change deliver contents rest (write files entry.name (contents entry.name)) name = _
    rw [ih (fun e member => absent e (List.mem_cons_of_mem _ member)),
      write_other _ _ (absent entry List.mem_cons_self).symm]

theorem downloads_manifest (parsed : Manifest.parse lib.toSerde (contents "MasterManifest.json") = .ok manifest) :
    downloads contents manifest "MasterManifest.json" = some (.file (contents "MasterManifest.json")) := by
  have valid := (Manifest.parse_ok.mp parsed).2.2
  rw [downloads, deliver_other fun e member => manifest_apart (valid.entries e member), write_self]

/-- Without a fault a new snapshot on top of a readable one is published. -/
theorem publish_healthy {lib : Serde B} {root : Root B} {now : Instant}
    (chained : Reads.eval root (publishCheck lib draft.receipt.region) = .ok previous)
    (new : root.snapshots draft.receipt.snapshot = none) : (publish lib draft root now none).1 = .ok draft.receipt := by
  simp only [publish, chained, new]
  rfl

theorem Serving.saw (serving : Serving lib u target w contents manifest) (s : Client.State) :
    Serving lib u target (w.met (.saw s)) contents manifest :=
  ⟨serving.parsed, serving.version, serving.whole, serving.files⟩

theorem eval_prepare {encrypted : String → Option (Node B)}
    (prepared : prepareDirectory lib.toSerde encrypted u.unpack .remote target.resourceVersion u.config.region w.uuid =
      .ok draft) : Commands.eval (effect lib.toSerde) (prepare lib u target encrypted) w = (.ok draft, w) := by
  have named : Commands.eval (effect lib.toSerde) (command .uuid .master) w = (.ok w.uuid, w) := rfl
  unfold prepare
  rw [Commands.eval_bind_ok named, prepared]
  rfl

/-- The end of an update whose target is still announced. -/
theorem eval_settle (announced : masterTarget u w.game = some target)
    (done : (publish lib.toSerde draft w.root w.now w.fault).1 = .ok draft.receipt) :
    Commands.eval (effect lib.toSerde) (settle u target draft) w = (.ok (.updated draft.receipt),
      { (w.met (.saw w.game)).met (.published draft.receipt.snapshot) with
        root := (publish lib.toSerde draft w.root w.now w.fault).2 }) := by
  have published : Commands.eval (effect lib.toSerde) (command (.publish draft) .master) (w.met (.saw w.game)) =
      (.ok (.ok draft.receipt), { (w.met (.saw w.game)).met (.published draft.receipt.snapshot) with
        root := (publish lib.toSerde draft w.root w.now w.fault).2 }) := by
    refine Commands.eval_ask _ ?_
    rw [← done]
    rfl
  unfold settle
  rw [Commands.eval_bind_ok (eval_refresh announced), if_pos rfl, Commands.eval_bind_ok published]
  rfl

/-- Where the CDN has all files of the announced target, each after fewer passing failures than attempts, and they
unpack, an undisturbed update of a readable store that is not at the target installs it, without more requests for
a file than the attempts configured. -/
theorem update_converges (announced : masterTarget u w.game = some target) (stale : current lib u w.root target = none)
    (serving : Serving lib u target w contents manifest)
    (prepared : prepareDirectory lib.toSerde (downloads contents manifest) u.unpack .remote target.resourceVersion
      u.config.region w.uuid = .ok draft)
    (chained : Reads.eval w.root (publishCheck lib.toSerde u.config.region) = .ok previous)
    (new : w.root.snapshots (snapshotName w.uuid) = none) (healthy : w.fault = none) :
    ∃ x, Commands.eval (effect lib.toSerde) (update lib u) w = (.ok (.updated draft.receipt), x) ∧
      Installed lib.toSerde u.config.region target draft.receipt x.root ∧
      (∀ url, x.trace.countP (Event.fetches (· == url)) ≤ w.trace.countP (Event.fetches (· == url)) + u.network.attempts) ∧
      x.trace.countP Event.isGot ≤ w.trace.countP Event.isGot + u.network.attempts * (1 + manifest.files.length) := by
  obtain ⟨t, fetched, longer⟩ := eval_fetchAll (serving.saw w.game)
  have same := longer.same
  have root : t.root = w.root := by rw [same]; rfl
  have game : t.game = w.game := by rw [same]; rfl
  have uuid : t.uuid = w.uuid := by rw [same]; rfl
  have fault : t.fault = none := by rw [same]; exact healthy
  obtain ⟨read, found, -, -, -, -, region, snapshot⟩ := prepareDirectory_receipt prepared
  have done : (publish lib.toSerde draft t.root t.now t.fault).1 = .ok draft.receipt := by
    rw [root, fault]
    exact publish_healthy (region ▸ chained) (snapshot ▸ new)
  have whole : Commands.eval (effect lib.toSerde) (update lib u) w = (.ok (.updated draft.receipt),
      { (t.met (.saw t.game)).met (.published draft.receipt.snapshot) with
        root := (publish lib.toSerde draft t.root t.now t.fault).2 }) := by
    rw [eval_update announced, stale]
    unfold install
    rw [Commands.eval_bind_ok fetched, Commands.eval_bind_ok (eval_prepare (uuid ▸ prepared)),
      eval_settle (game ▸ announced) done]
  refine ⟨_, whole, installed_of_publish (downloads_manifest serving.parsed) serving.parsed serving.version prepared
    (Prod.ext done rfl), fun url => ?_, longer.count⟩
  have few := fetches_le (Commands.Runs.eval (effect lib.toSerde) Elsewhere (update lib u) w) url
  rwa [whole] at few

def sampleContents (name : String) : List Piece :=
  if name = "MasterManifest.json" then [.doc (.manifest sampleManifest)] else [.encrypted 96 encryptedSha]

/-- A file that comes at the second request. -/
theorem sample_serves {name : String} {limit : Nat} {bytes : List Piece}
    (first : reply sampleFormats limit (sampleCdn (sampleRequest name) 0) = .error (.http 503))
    (second : reply sampleFormats limit (sampleCdn (sampleRequest name) 1) = .ok bytes) :
    Serves sampleFormats sampleUpdater sampleTarget sampleWorld name limit bytes := by
  refine ⟨some ("reader", "secret"), 1, rfl, by decide, second, fun i small => ?_⟩
  obtain rfl : i = 0 := by omega
  exact ⟨.http 503, first, rfl⟩

theorem update_converges_sample : ∃ receipt x,
    Commands.eval (effect sampleFormats.toSerde) (update sampleFormats sampleUpdater) sampleWorld = (.ok (.updated receipt), x) ∧
      Installed sampleFormats.toSerde .jp sampleTarget receipt x.root ∧
      x.trace.countP (Event.fetches (· == (sampleRequest "MasterA.bin").url)) ≤ 3 ∧
      x.trace.countP Event.isGot ≤ 3 * 2 := by
  have serving : Serving sampleFormats sampleUpdater sampleTarget sampleWorld sampleContents sampleManifest := by
    refine ⟨by decide +kernel, rfl, sample_serves rfl (by decide +kernel), fun e member => ?_⟩
    obtain rfl := List.mem_singleton.mp member
    exact sample_serves rfl (by decide +kernel)
  have made : (prepareDirectory sampleFormats.toSerde (downloads sampleContents sampleManifest) sampleUpdater.unpack .remote
      (some "2.0") .jp (numbered 7)).isOk = true := by decide +kernel
  cases prepared : prepareDirectory sampleFormats.toSerde (downloads sampleContents sampleManifest) sampleUpdater.unpack
      .remote (some "2.0") .jp (numbered 7) with
  | error e =>
    rw [prepared] at made
    cases made
  | ok draft =>
    have announced : masterTarget sampleUpdater sampleWorld.game = some sampleTarget := by decide +kernel
    obtain ⟨x, done, installed, each, few⟩ := update_converges announced (by decide +kernel) serving prepared
      (show Reads.eval ({} : Root (List Piece)) (publishCheck sampleFormats.toSerde .jp) = .ok none from rfl) rfl rfl
    exact ⟨draft.receipt, x, done, installed, each _, few⟩

end Converge

end SiriusProxy.Master.Update
