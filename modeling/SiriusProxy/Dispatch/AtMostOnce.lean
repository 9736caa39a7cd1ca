import SiriusProxy.Lib.Run
import SiriusProxy.Dispatch.Pass

namespace SiriusProxy.Dispatch
open Effect Outbox
variable {L : Library} {α : Type} {key : String} {rest : List (String × Entry)}

/-- A condition on the store part of the worker. -/
def At (P : Store L → Prop) (w : Worker L) : Prop := P w.store

theorem onStore_spec {P : Store L → Prop} {m : Op L α} {Q : α → Store L → Prop} {E : Stop → Store L → Prop}
    (triple : Triple P m Q E) :
    Triple (At P) (onStore m) (fun a => At (Q a)) (fun e => At (E e)) :=
  triple.zoom fun _ _ => rfl

/-- Bookkeeping outside the store. -/
theorem aside_spec {P : Store L → Prop} {f : Worker L → Worker L} {E : Stop → Worker L → Prop}
    (same : ∀ w, (f w).store = w.store) : Triple (At P) (Prog.modify f) (fun _ => At P) E :=
  Triple.modify fun w pre => by
    unfold At
    rw [same]
    exact pre

theorem forgetRefusals_spec {P : Store L → Prop} {E : Stop → Worker L → Prop} :
    Triple (At P) (forgetRefusals key) (fun _ => At P) E :=
  aside_spec fun _ => rfl

theorem transportWarning_spec {P : Store L → Prop} {E : Stop → Worker L → Prop} :
    Triple (At P) transportWarning (fun _ => At P) E :=
  aside_spec fun _ => rfl

theorem countRefusal_spec {P : Store L → Prop} {E : Stop → Worker L → Prop} :
    Triple (At P) (countRefusal key) (fun _ => At P) E :=
  aside_spec fun _ => rfl

theorem failEntry_spec (code : String) :
    Triple (At (Ready (L := L) key rest)) (failEntry key code) (fun _ => At (Ready key rest))
      (fun _ => At Sound) := by
  unfold failEntry
  exact (onStore_spec (fail_ready code)).bind fun _ => forgetRefusals_spec

/-- Only a definitely busy answer makes the entry pending again. -/
theorem busy_spec :
    Triple (At fun s : Store L => Ready key rest s ∧ Refused s.log key) (busy key)
      (fun _ => At (Ready key rest)) (fun _ => At Sound) := by
  unfold busy
  refine countRefusal_spec.bind fun _ => ?_
  refine Triple.bind (Q := fun _ => At fun s : Store L => Ready key rest s ∧ Refused s.log key)
    (Triple.get fun _ pre => pre) fun w => ?_
  split
  · refine forgetRefusals_spec.bind fun _ => ?_
    exact (failEntry_spec "submission_refused").pre fun _ pre => pre.1
  · exact onStore_spec refused_ready

theorem settleStatus_spec (entry : Entry) (job : Jobs.Job) :
    Triple (At (Ready (L := L) key rest)) (settleStatus key entry job) (fun _ => At (Ready key rest))
      (fun _ => At Sound) := by
  unfold settleStatus
  split
  · exact failEntry_spec _
  · exact failEntry_spec _
  · split
    · exact onStore_spec (complete_ready _ _ _)
    · exact failEntry_spec _
  · exact Triple.pure fun _ => id

theorem settleJob_spec (entry : Entry) (pending : Bool) (job : Jobs.Job) :
    Triple (At (Ready (L := L) key rest)) (settleJob key entry pending job) (fun _ => At (Ready key rest))
      (fun _ => At Sound) := by
  unfold settleJob
  split
  · exact failEntry_spec _
  · cases pending with
    | true =>
      refine (onStore_spec (acknowledge_ready _)).bind fun _ => ?_
      exact forgetRefusals_spec.bind fun _ => settleStatus_spec entry job
    | false => exact settleStatus_spec entry job

theorem settleError_spec (entry : Entry) (pending : Bool) (error : Jobs.Error) :
    Triple (At fun s : Store L => Ready key rest s ∧ (pending = true →
        ∀ code, error = .status code → Busy (some code) → Refused s.log key))
      (settleError key entry pending error) (fun _ => At (Ready key rest)) (fun _ => At Sound) := by
  have failing (code : String) : Triple (At fun s : Store L => Ready key rest s ∧ (pending = true →
        ∀ code, error = .status code → Busy (some code) → Refused s.log key))
      (failEntry key code) (fun _ => At (Ready key rest)) (fun _ => At Sound) :=
    (failEntry_spec code).pre fun _ pre => pre.1
  have warning : Triple (At fun s : Store L => Ready key rest s ∧ (pending = true →
        ∀ code, error = .status code → Busy (some code) → Refused s.log key))
      transportWarning (fun _ => At (Ready key rest)) (fun _ => At Sound) :=
    transportWarning_spec.pre fun _ pre => pre.1
  cases error with
  | status code =>
    simp only [settleError]
    split
    · exact failing _
    split
    · rename_i waiting
      split
      · rename_i answered
        refine busy_spec.pre fun w pre => ⟨pre.1, pre.2 waiting _ rfl ?_⟩
        exact answered.imp (congrArg some) (congrArg some)
      · split
        · refine forgetRefusals_spec.bind fun _ => ?_
          exact failing _
        · exact warning
    · exact warning
  | config =>
    simp only [settleError]
    split
    · exact failing _
    · exact warning
  | protocol => exact failing _
  | transport => exact warning

/-- One submission of an entry that has been marked as being sent. -/
theorem post_spec (request : Jobs.Request) (network : Network L) :
    Triple (At fun s : Store L => (Ready key rest s ∧ Refused s.log key) ∧
        ∃ entry since, s.ledger.entries[key]? = some entry ∧ entry.state = .sending since)
      (post request key network)
      (fun result => At fun s => Ready key rest s ∧
        ∀ code, result = .error (.status code) → Busy (some code) → Refused s.log key)
      (fun _ => At Sound) := by
  have note (status : Option Nat) : Triple (At fun s : Store L => (Ready key rest s ∧ Refused s.log key) ∧
        ∃ entry since, s.ledger.entries[key]? = some entry ∧ entry.state = .sending since)
      (onStore (Prog.modify fun s => { s with log := .posted key status :: s.log }))
      (fun _ => At fun s => Ready key rest s ∧ (Busy status → Refused s.log key)) (fun _ => At Sound) := by
    refine onStore_spec (Triple.modify ?_)
    rintro s ⟨⟨ready, refused⟩, entry, since, held, sending⟩
    have once := ready.sound.once.post status held ⟨since, sending⟩ refused
    refine ⟨⟨⟨ready.sound.saved.posted, once⟩, ⟨ready.copies.distinct, ready.copies.current⟩, ready.apart⟩, ?_⟩
    intro answered other member
    rcases List.mem_cons.mp member with same | member
    · cases same
      exact answered
    · exact refused other member
  unfold post
  split
  · exact Triple.pure fun _ pre => ⟨pre.1.1, fun _ never => by cases never⟩
  · cases network with
    | answer a =>
      refine (note a.status).bind fun _ => ?_
      refine Triple.pure fun _ pre => ⟨pre.1, fun code failed answered => pre.2 ?_⟩
      rw [Jobs.submit_status failed]
      exact answered
    | cancelled => exact (note none).bind fun _ => Triple.throw fun _ pre => pre.1.sound
    | crashed => exact (note none).bind fun _ => Triple.throw fun _ pre => pre.1.sound

theorem poll_spec {P : Store L → Prop} (jobId : String) (request : Jobs.Request) (network : Network L)
    (sound : ∀ s, P s → Sound s) :
    Triple (At P) (poll jobId request network) (fun _ => At P) (fun _ => At Sound) := by
  cases network with
  | answer a => exact Triple.pure fun _ => id
  | cancelled => exact Triple.throw fun w => sound w.store
  | crashed => exact Triple.throw fun w => sound w.store

/-- What is left of the batch to work on. -/
structure Batch (items : List (String × Entry)) (s : Store L) : Prop where
  sound : Sound s
  copies : Copies s items

/-- The step lemma of the pass: whatever the network does, one entry is dealt with and the rest
of the batch still matches the ledger. -/
theorem reconcileEntry_spec (config : Config) (now : Instant) (network : String → Network L)
    (item : String × Entry) :
    Triple (At (Batch (item :: rest))) (reconcileEntry config now network item) (fun _ => At (Batch rest))
      (fun _ => At Sound) := by
  have finish {m : Work L PUnit} {P : Worker L → Prop}
      (triple : Triple P m (fun _ => At (Ready item.1 rest)) (fun _ => At Sound)) :
      Triple P m (fun _ => At (Batch rest)) (fun _ => At Sound) :=
    triple.weaken (fun _ _ ready => ⟨ready.sound, ready.copies⟩) fun _ _ => id
  have ready : ∀ w : Worker L, At (Batch (item :: rest)) w → At (Ready item.1 rest) w :=
    fun _ batch => batch.copies.head batch.sound
  unfold reconcileEntry
  split
  · exact finish ((failEntry_spec _).pre ready)
  split
  · rename_i pending
    refine finish (((onStore_spec (beginSend_ready rest now)).pre ?_).bind fun _ => ?_)
    · intro w batch
      refine ⟨ready w batch, ?_⟩
      exact (batch.sound.once.consistent item.1).refused item.2
        (batch.copies.current item List.mem_cons_self) pending
    refine (post_spec _ _).bind fun result => ?_
    cases result with
    | ok job => exact (settleJob_spec _ _ _).pre fun _ pre => pre.1
    | error e =>
      refine (settleError_spec _ _ _).pre fun _ pre => ⟨pre.1, fun _ code same => pre.2 code (same ▸ rfl)⟩
  · exact finish ((failEntry_spec _).pre ready)
  · refine finish (((poll_spec _ _ _ fun _ pre => Ready.sound pre).pre ready).bind fun result => ?_)
    cases result with
    | ok job => exact settleJob_spec _ _ _
    | error e => exact (settleError_spec _ _ _).pre fun _ pre => ⟨pre, nofun⟩
  · exact Triple.pure fun w batch => ⟨batch.sound, (batch.copies.head batch.sound).copies⟩

theorem nextBatch_sound :
    Triple (Sound (L := L)) (nextBatch 16) (fun batch s => Batch batch s) (fun _ => Sound) := by
  refine triple_from fun s sound => ?_
  refine (nextBatch_spec 16).weaken (fun batch t selected => ?_) fun _ _ => sound.stopped
  exact ⟨⟨selected.saved sound.saved, selected.once sound.once⟩, copies_of_selected selected⟩

/-- The run lemma of the pass, by the loop rule. -/
theorem reconcileBatch_spec (config : Config) (now : Instant) (network : String → Network L) :
    Triple (At Sound) (reconcileBatch config now network) (fun _ => At Sound) (fun _ => At Sound) := by
  unfold reconcileBatch
  refine (onStore_spec nextBatch_sound).bind fun batch => ?_
  refine (Triple.each (I := fun items => At (Batch items)) fun item rest =>
    reconcileEntry_spec config now network item).weaken ?_ fun _ _ => id
  exact fun _ _ done => done.sound

theorem reconcile_spec (config : Config) (now : Instant) (network : String → Network L) :
    Triple (At Sound) (reconcile config now network) (fun _ => At Sound) (fun _ => At Sound) := by
  unfold reconcile
  refine Triple.bind ?_ fun _ => reconcileBatch_spec config now network
  exact aside_spec fun _ => rfl

theorem observe_sound (identity : Identity) :
    Triple (Sound (L := L)) (observe identity) (fun _ => Sound) (fun _ => Sound) := by
  refine triple_from fun s sound => ?_
  exact (observe_spec identity).weaken (fun _ _ done => ⟨done.saved sound.saved, done.once sound.once⟩)
    fun _ _ => sound.stopped

theorem observeSnapshot_spec (config : Config) (snapshot : ResourceSnapshot) :
    Triple (At (Sound (L := L))) (observeSnapshot config snapshot) (fun _ => At Sound) (fun _ => At Sound) := by
  unfold observeSnapshot
  split
  · exact Triple.bind (Q := fun _ _ => False) (Triple.throw fun _ => id) fun _ _ never => never.elim
  · refine Triple.each (I := fun _ => At Sound) fun remote _ => ?_
    exact (onStore_spec (observe_sound _)).bind fun _ => Triple.pure fun _ => id

theorem adopt_sound (id : String) :
    Triple (Sound (L := L)) (adopt key id) (fun _ => Sound) (fun _ => Sound) := by
  refine triple_from fun s sound => ?_
  refine (adopt_spec key id).weaken ?_ fun _ _ => sound.stopped
  rintro _ t ⟨canonical, moved⟩
  refine (close_ready moved (Ready.alone sound) fun state next _ step => ?_).sound
  obtain ⟨rfl, -⟩ := adoptState_target step
  exact ⟨canonical, trivial⟩

theorem archiveCompleted_sound (jobId : String) :
    Triple (Sound (L := L)) (archiveCompleted key jobId) (fun _ => Sound) (fun _ => Sound) := by
  refine triple_from fun s sound => ?_
  exact (archiveCompleted_spec key jobId).weaken (fun _ _ done => ⟨done.saved sound.saved, done.once sound.once⟩)
    fun _ _ stopped => ⟨stopped.saved sound.saved, stopped.once sound.once⟩

/-- Before the first successful start. -/
structure New (s : Store L) : Prop where
  fresh : Fresh s
  empty : s.ledger = {}
  once : Once s

/-- The invariant of the state directory, whether or not a worker runs. -/
def Kempt (s : Store L) : Prop := Sound s ∨ New s

theorem New.read {s : Store L} (new : New s) : readLedger s.disk = .ok s.ledger := by
  unfold readLedger
  rw [new.fresh.file, new.empty]

theorem New.stopped {s t : Store L} {e : Stop} (new : New s) (stopped : Stopped s e t) : New t where
  fresh := stopped.fresh new.fresh
  empty := stopped.frame.1.trans new.empty
  once := stopped.once new.once

theorem openOutbox_kempt (capacity : Nat) :
    Triple (Kempt (L := L)) (openOutbox capacity) (fun _ => Sound) (fun _ => Kempt) := by
  refine triple_from fun s kempt => ?_
  refine (openOutbox_spec capacity).weaken (fun _ t opened => ?_) fun e t stopped => ?_
  · rcases kempt with sound | new
    · exact ⟨opened.saved (Or.inr sound.saved), opened.once sound.saved.read sound.once⟩
    · exact ⟨opened.saved (Or.inl new.fresh), opened.once new.read new.once⟩
  · exact kempt.imp (fun sound => sound.stopped stopped) fun new => new.stopped stopped

theorem startWorker_spec (config : Config) :
    Triple (At (Kempt (L := L))) (startWorker config) (fun _ => At Sound) (fun _ => At Kempt) := by
  unfold startWorker
  refine (onStore_spec (openOutbox_kempt config.capacity)).bind fun _ => ?_
  refine Triple.bind (Q := fun _ => At Sound) (Triple.get fun _ pre => pre) fun w => ?_
  split
  · exact Triple.bind (Q := fun _ _ => False) (Triple.throw fun _ sound => Or.inl sound)
      fun _ _ never => never.elim
  · exact aside_spec fun _ => rfl

/-- The directory, the process that may own it and its configuration. -/
structure System (L : Library) where
  worker : Worker L := {}
  config : Config := { capacity := 0, region := .jp, environment := "", platform := "", remotes := [] }
  alive : Bool := false

/-- What may happen: a start, the two halves of a worker cycle, the two operator commands, each
with the outcomes of its file steps, and the end of the process. -/
inductive Action (L : Library) where
  | start (config : Config) (fates : List Fate)
  | observe (snapshot : ResourceSnapshot) (fates : List Fate)
  | reconcile (now : Instant) (network : String → Network L) (fates : List Fate)
  | adopt (key id : String) (fates : List Fate)
  | archive (key jobId : String) (fates : List Fate)
  | crash

def Worker.withFates (w : Worker L) (fates : List Fate) : Worker L :=
  { w with store := { w.store with fates := fates } }

/-- A running worker carries out one piece of work. -/
def System.perform (sys : System L) (fates : List Fate) (work : Work L PUnit) : Option (System L) :=
  if sys.alive then match work (sys.worker.withFates fates) with
    | (.error .crashed, w) => some { sys with worker := w, alive := false }
    | (_, w) => some { sys with worker := w }
  else none

/-- The operator's adoption; an unknown key is answered at once. -/
def adoptCommand (key id : String) : Work L PUnit := do
  let w ← Prog.get
  if w.store.ledger.entries.contains key then onStore (Outbox.adopt key id)

def archiveCommand (key jobId : String) : Work L PUnit := do
  let _ ← onStore (archiveCompleted key jobId)

def step (sys : System L) : Action L → Option (System L)
  | .start config fates =>
    if sys.alive then none
    else match startWorker config (sys.worker.withFates fates) with
      | (.ok _, w) => some { worker := w, config := config, alive := true }
      | (.error _, w) => some { sys with worker := w }
  | .observe snapshot fates => sys.perform fates (observeSnapshot sys.config snapshot)
  | .reconcile now network fates => sys.perform fates (reconcile sys.config now network)
  | .adopt key id fates => sys.perform fates (adoptCommand key id)
  | .archive key jobId fates => sys.perform fates (archiveCommand key jobId)
  | .crash => some { sys with alive := false }

def System.Inv (sys : System L) : Prop :=
  At Sound sys.worker ∨ (sys.alive = false ∧ At New sys.worker)

theorem sound_withFates {w : Worker L} (sound : At Sound w) (fates : List Fate) :
    At Sound (w.withFates fates) :=
  Sound.near sound (Near.with_fates w.store fates)

theorem perform_inv {sys next : System L} {fates : List Fate} {work : Work L PUnit} (inv : sys.Inv)
    (keeps : Triple (At Sound) work (fun _ => At Sound) (fun _ => At Sound))
    (taken : sys.perform fates work = some next) : next.Inv := by
  unfold System.perform at taken
  split_ifs at taken with alive
  rcases inv with sound | ⟨dead, -⟩
  · have spec := keeps _ (sound_withFates sound fates)
    split at taken
    · rename_i w run
      cases taken
      exact Or.inl (spec.2 _ _ run)
    · rename_i r w _ run
      cases taken
      cases r with
      | ok value => exact Or.inl (spec.1 _ _ run)
      | error e => exact Or.inl (spec.2 _ _ run)
  · rw [dead] at alive
    cases alive

theorem adoptCommand_spec (key id : String) :
    Triple (At (Sound (L := L))) (adoptCommand key id) (fun _ => At Sound) (fun _ => At Sound) := by
  unfold adoptCommand
  refine Triple.bind (Q := fun _ => At Sound) (Triple.get fun _ pre => pre) fun w => ?_
  split
  · exact onStore_spec (adopt_sound id)
  · exact Triple.pure fun _ pre => pre

theorem archiveCommand_spec (key jobId : String) :
    Triple (At (Sound (L := L))) (archiveCommand key jobId) (fun _ => At Sound) (fun _ => At Sound) :=
  (onStore_spec (archiveCompleted_sound jobId)).bind fun _ => Triple.pure fun _ pre => pre

theorem step_inv {sys next : System L} {action : Action L} (inv : sys.Inv)
    (taken : step sys action = some next) : next.Inv := by
  cases action with
  | start config fates =>
    simp only [step] at taken
    split_ifs at taken with alive
    have kempt : At Kempt (sys.worker.withFates fates) := by
      rcases inv with sound | ⟨-, new⟩
      · exact Or.inl (sound_withFates sound fates)
      · exact Or.inr ⟨(Near.with_fates _ fates).fresh new.fresh, new.empty, (Near.with_fates _ fates).once new.once⟩
    have spec := startWorker_spec config _ kempt
    split at taken
    · rename_i w run
      cases taken
      exact Or.inl (spec.1 _ _ run)
    · rename_i e w run
      cases taken
      exact (spec.2 _ _ run).imp id fun new => ⟨Bool.eq_false_iff.mpr alive, new⟩
  | observe snapshot fates => exact perform_inv inv (observeSnapshot_spec _ _) taken
  | reconcile now network fates => exact perform_inv inv (reconcile_spec _ _ _) taken
  | adopt key id fates => exact perform_inv inv (adoptCommand_spec _ _) taken
  | archive key jobId fates => exact perform_inv inv (archiveCommand_spec _ _) taken
  | crash =>
    cases taken
    exact inv.imp id fun new => ⟨rfl, new.2⟩

theorem reach_inv {sys : System L} (reach : Run.Reach step (fun _ _ => True) {} sys) : sys.Inv :=
  reach.invariant (Or.inr ⟨rfl, fresh_initial, rfl, once_initial⟩) fun _ _ _ inv _ taken => step_inv inv taken

/-- In the history of every run, newest event first: a submission comes only after submissions of
the same key that the updater answered with 429 or 503, and never after a committed ledger had
the key submitted, completed or failed, or after it was archived. -/
theorem submits_at_most_once {sys : System L} (reach : Run.Reach step (fun _ _ => True) {} sys)
    {later earlier : List Event} {key : String} {status : Option Nat}
    (sent : sys.worker.store.log = later ++ .posted key status :: earlier) :
    (∀ answer, .posted key answer ∈ earlier → answer = some 429 ∨ answer = some 503) ∧
      (∀ ledger entry, .committed ledger ∈ earlier → ledger.entries[key]? = some entry →
        entry.state = .pending ∨ ∃ since, entry.state = .sending since) ∧
      .archived key ∉ earlier := by
  have once : Once sys.worker.store := by
    rcases reach_inv reach with sound | ⟨-, new⟩
    · exact sound.once
    · exact new.once
  obtain ⟨refused, unsettled⟩ := once.disciplined later earlier key status sent
  refine ⟨refused, fun ledger entry member held => ?_, fun member => unsettled ⟨_, member, rfl⟩⟩
  have running : ¬ Closed entry.state := fun closed => unsettled ⟨_, member, entry, held, closed⟩
  cases state : entry.state with
  | pending => exact Or.inl rfl
  | sending since => exact Or.inr ⟨since, rfl⟩
  | _ => exact absurd (state ▸ trivial) running

namespace Sample
open Outbox.Sample

def config : Config where
  capacity := 4
  region := .hk
  environment := "production"
  platform := "iOS"
  remotes := [{ digest := Outbox.Sample.identity.destinationSha256, profile := "full", profileRevision := "1",
                requireFullCatalog := true, requireFullExport := false, requirePublication := false }]

def snapshot : ResourceSnapshot where
  region := .hk
  environment := "production"
  platform := "iOS"
  resourceVersion := "2024.1"
  platformHash := "abc123"

def job (id : String) : Jobs.Job where
  id := id
  request := Outbox.Sample.identity.request
  status := .queued
  idempotencySha256 := some (library.keyDigest dispatchKey)
  outcome := none

def answer (status : Nat) (body : List Bytes) : String → Network library :=
  fun _ => .answer (.response { status := status, chunks := body })

/-- The updater is busy at first and accepts the second submission. -/
def retry : List (Action library) :=
  [.start config [], .observe snapshot [], .reconcile 5 (answer 503 []) [],
    .reconcile 6 (answer 202 [.job (job "0190d3f0-1234-7abc-8def-0123456789ab")]) []]

end Sample

/-- The submissions of a history, newest first. -/
def submissions (log : List Event) : List (String × Option Nat) :=
  log.filterMap fun
    | .posted key status => some (key, status)
    | _ => none

theorem mem_submissions {log : List Event} {key : String} {status : Option Nat} :
    (key, status) ∈ submissions log ↔ .posted key status ∈ log := by
  unfold submissions
  rw [List.mem_filterMap]
  constructor
  · rintro ⟨event, member, same⟩
    cases event <;> cases same
    exact member
  · exact fun member => ⟨_, member, rfl⟩

theorem submissions_split {log : List Event} {key : String} {status : Option Nat}
    {rest : List (String × Option Nat)} (shape : submissions log = (key, status) :: rest) :
    ∃ later earlier, log = later ++ .posted key status :: earlier ∧ submissions earlier = rest := by
  induction log with
  | nil => cases shape
  | cons event log ih =>
    cases event with
    | posted k st =>
      cases shape
      exact ⟨[], log, rfl, rfl⟩
    | _ =>
      obtain ⟨later, earlier, split, tail⟩ := ih shape
      exact ⟨_ :: later, earlier, congrArg _ split, tail⟩

theorem submits_at_most_once_retry :
    ∃ (sys : System Outbox.Sample.library) (later earlier : List Event),
      sys.worker.store.log = later ++ .posted Outbox.Sample.dispatchKey (some 202) :: earlier ∧
      .posted Outbox.Sample.dispatchKey (some 503) ∈ earlier ∧
      .archived Outbox.Sample.dispatchKey ∉ earlier := by
  have runs : (Run.exec step ({} : System Outbox.Sample.library) Sample.retry).map
      (fun sys => submissions sys.worker.store.log) =
        some [(Outbox.Sample.dispatchKey, some 202), (Outbox.Sample.dispatchKey, some 503)] := by
    decide +kernel
  obtain ⟨sys, run, shape⟩ := Option.map_eq_some_iff.mp runs
  obtain ⟨later, earlier, sent, tail⟩ := submissions_split shape
  refine ⟨sys, later, earlier, sent, ?_, (submits_at_most_once (Run.reach_of_exec run) sent).2.2⟩
  rw [← mem_submissions, tail]
  exact List.mem_cons_self

end SiriusProxy.Dispatch
