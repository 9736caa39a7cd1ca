import SiriusProxy.Dispatch.AtMostOnce

namespace SiriusProxy.Dispatch
open Effect Outbox
variable {L : Library} {key : String} {rest : List (String × Entry)} {past : List Event} {state : State}

/-- The history grew by a failed file step. -/
def CommitFailed (past : List Event) (s : Store L) : Prop :=
  ∃ new, s.log = new ++ past ∧ .stepFailed ∈ new

/-- How a pass may stop if only persistence stops it. -/
def Fails (past : List Event) (e : Stop) (s : Store L) : Prop := e = .crashed ∨ CommitFailed past s

/-- A publication that would complete the entry is named canonically. -/
def PublicationCanonical (L : Library) (identity : Identity) (job : Jobs.Job) : Prop :=
  ∀ outcome, job.status = .completed → job.outcome = some outcome → matchesOutcome identity outcome →
    outcome.publicationId.all (uuid L)

/-- The accepted answer for this entry names its job and its publication canonically. -/
structure Canonical (config : Config) (answers : String → Jobs.Answer L) (item : String × Entry) : Prop where
  submitted : (config.remote item.2).isSome → item.2.state = .pending →
    ∀ job, Jobs.submit item.2.identity.request item.1 (answers item.1) = .ok job →
      uuid L job.id ∧ PublicationCanonical L item.2.identity job
  polled : (config.remote item.2).isSome → ∀ jobId, item.2.state = .submitted jobId →
    ∀ job, Jobs.get jobId item.2.identity.request (answers item.1) = .ok job →
      job.idempotencySha256 = some (L.keyDigest item.1) → PublicationCanonical L item.2.identity job

/-- The rest of a batch, with the history since the pass began. -/
structure Waiting (past : List Event) (items : List (String × Entry)) (s : Store L) : Prop where
  copies : Copies s items
  running : ∀ item ∈ items, item.2.state.terminal = false
  since : ∃ new, s.log = new ++ past

/-- The entry in work is in a known state. -/
structure Working (past : List Event) (key : String) (rest : List (String × Entry)) (state : State)
    (s : Store L) : Prop where
  held : ∃ entry, s.ledger.entries[key]? = some entry ∧ entry.state = state
  waiting : Waiting past rest s
  apart : ∀ item ∈ rest, item.1 ≠ key

/-- A file step that stopped is either a crash or noted in the history as failed. -/
theorem Halted.fails {s t : Store L} {e : Stop} (halted : Halted s e t) (since : ∃ new, s.log = new ++ past) :
    Fails past e t := by
  obtain ⟨new, grown⟩ := since
  rcases halted with ⟨crashed, -⟩ | ⟨-, near⟩
  · exact Or.inl crashed
  · refine Or.inr ⟨.stepFailed :: new, ?_, List.mem_cons_self⟩
    rw [near.log]
    exact congrArg _ grown

/-- A transition the known state accepts is committed, unless persistence fails. -/
theorem change_working {f : State → Except Error State} {next : State} (accepted : f state = .ok next) :
    Triple (Working (L := L) past key rest state) (change key f) (fun _ => Working past key rest next)
      (Fails past) := by
  refine triple_from fun s working => ?_
  obtain ⟨entry, held, rfl⟩ := working.held
  refine (change_accepted held accepted).weaken (fun _ t near => ?_) fun e t halted => ?_
  · refine ⟨⟨{ entry with state := next }, ?_, rfl⟩, ⟨⟨working.waiting.copies.distinct, ?_⟩, working.waiting.running, ?_⟩,
      working.apart⟩
    · rw [near.ledger]
      change (s.ledger.put key _).entries[key]? = _
      rw [getElem?_put, if_pos rfl]
    · intro item member
      rw [near.ledger]
      change (s.ledger.put key _).entries[item.1]? = _
      rw [getElem?_put, if_neg (Ne.symm (working.apart item member))]
      exact working.waiting.copies.current item member
    · obtain ⟨new, grown⟩ := working.waiting.since
      refine ⟨.committed (s.ledger.put key { entry with state := next }) :: new, ?_⟩
      rw [near.log]
      exact congrArg _ grown
  · exact Halted.fails halted working.waiting.since

theorem guarded_working {P : Prop} [Decidable P] {f : State → Except Error State} {next : State} (holds : P)
    (accepted : f state = .ok next) :
    Triple (Working (L := L) past key rest state)
      (if ¬ P then invalid >>= fun _ : PUnit => change key f else change key f)
      (fun _ => Working past key rest next) (Fails past) := by
  rw [if_neg (not_not_intro holds)]
  exact change_working accepted

/-- An unfinished entry fails with any valid code. -/
theorem failEntry_working {code : String} (named : validCode code) (running : state.terminal = false) :
    Triple (At (Working (L := L) past key rest state)) (failEntry key code)
      (fun _ => At (Waiting past rest)) (fun e => At (Fails past e)) := by
  have accepted : ∃ next, failState code state = .ok next := by
    cases state with
    | pending => exact ⟨_, rfl⟩
    | sending since => exact ⟨_, rfl⟩
    | submitted jobId => exact ⟨_, rfl⟩
    | _ => cases running
  obtain ⟨next, accepted⟩ := accepted
  have failing : Triple (At (Working (L := L) past key rest state)) (onStore (Outbox.fail key code))
      (fun _ => At (Waiting past rest)) (fun e => At (Fails past e)) :=
    onStore_spec ((guarded_working named accepted).weaken (fun _ _ done => done.waiting) fun _ _ => id)
  unfold failEntry
  exact failing.bind fun _ => forgetRefusals_spec

/-- A busy updater is counted, and the entry goes back to `pending`, or it fails once it was refused too often. A
sent entry may do either, so only the disk stops the move. -/
theorem busy_working {since : Instant} :
    Triple (At (Working (L := L) past key rest (.sending since))) (busy key)
      (fun _ => At (Waiting past rest)) (fun e => At (Fails past e)) := by
  unfold busy
  refine countRefusal_spec.bind fun _ => ?_
  refine Triple.bind (Q := fun _ => At (Working past key rest (.sending since))) (Triple.get fun _ pre => pre)
    fun w => ?_
  split
  · exact forgetRefusals_spec.bind fun _ => failEntry_working (by decide) rfl
  · have accepted : refusedState (.sending since) = .ok .pending := rfl
    exact onStore_spec ((change_working accepted).weaken (fun _ _ done => done.waiting) fun _ _ => id)

theorem rejectedSubmission_valid {code : Nat} {reason : String} (rejected : rejectedSubmission code = some reason) :
    validCode reason := by
  unfold rejectedSubmission at rejected
  split_ifs at rejected <;> cases rejected <;> decide

theorem catalog_hashed {request : Jobs.Request} {job : Jobs.Job} {outcome : Jobs.Outcome}
    (accepted : Jobs.jobAccepted L request job) (present : job.outcome = some outcome) :
    digest outcome.verification.catalogSha256 := by
  simp only [Jobs.jobAccepted, present, Option.all_some, Jobs.outcomeAccepted, Bool.and_eq_true] at accepted
  exact accepted.2.1.1.2

section Settle
variable {request : Jobs.Request} {entry : Entry} {job : Jobs.Job}

/-- An entry with its job on record takes the status of the job. The moves it may make from there are those that a
status leads to, and a publication that completes it is spelled as the outbox wants it. -/
theorem settleStatus_working (accepted : Jobs.jobAccepted L request job)
    (published : PublicationCanonical L entry.identity job) :
    Triple (At (Working (L := L) past key rest (.submitted job.id))) (settleStatus key entry job)
      (fun _ => At (Waiting past rest)) (fun e => At (Fails past e)) := by
  unfold settleStatus
  split
  · exact failEntry_working (by decide) rfl
  · exact failEntry_working (by decide) rfl
  · rename_i completed
    split
    · rename_i outcome chosen
      obtain ⟨present, matched⟩ := Option.filter_eq_some_iff.mp chosen
      have checked : digest outcome.verification.catalogSha256 ∧ outcome.publicationId.all (uuid L) :=
        ⟨catalog_hashed accepted present, published outcome completed present matched⟩
      have moves : completeState (.completed job.id outcome.verification.catalogSha256 outcome.publicationId)
          job.id (.submitted job.id) =
            .ok (.completed job.id outcome.verification.catalogSha256 outcome.publicationId) := if_pos rfl
      exact onStore_spec ((guarded_working checked moves).weaken (fun _ _ done => done.waiting) fun _ _ => id)
    · exact failEntry_working (by decide) rfl
  · exact Triple.pure fun _ working => working.waiting

/-- The answer to a submission: the job goes on record under the name it was given, which is canonical, and then
its status is taken. -/
theorem settleJob_sent {since : Instant} (accepted : Jobs.jobAccepted L request job)
    (same : job.idempotencySha256 = some (L.keyDigest key)) (canonical : uuid L job.id)
    (published : PublicationCanonical L entry.identity job) :
    Triple (At (Working (L := L) past key rest (.sending since))) (settleJob key entry true job)
      (fun _ => At (Waiting past rest)) (fun e => At (Fails past e)) := by
  unfold settleJob
  rw [if_neg (not_not_intro same)]
  have moves : acknowledgeState job.id (.sending since) = .ok (.submitted job.id) := rfl
  have acknowledged : Triple (At (Working (L := L) past key rest (.sending since)))
      (onStore (acknowledge key job.id)) (fun _ => At (Working past key rest (.submitted job.id)))
      (fun e => At (Fails past e)) := onStore_spec (guarded_working canonical moves)
  refine acknowledged.bind fun _ => ?_
  exact forgetRefusals_spec.bind fun _ => settleStatus_working accepted published

/-- The answer to a later question: with another digest of the key the entry fails, and else it takes
the status. -/
theorem settleJob_polled (accepted : Jobs.jobAccepted L request job)
    (published : job.idempotencySha256 = some (L.keyDigest key) → PublicationCanonical L entry.identity job) :
    Triple (At (Working (L := L) past key rest (.submitted job.id))) (settleJob key entry false job)
      (fun _ => At (Waiting past rest)) (fun e => At (Fails past e)) := by
  unfold settleJob
  split
  · exact failEntry_working (by decide) rfl
  · rename_i same
    exact settleStatus_working accepted (published (Decidable.not_not.mp same))

/-- A submission that failed leaves the entry for a later pass, gives it back, or fails it with a code of the
table; the state allows all three. -/
theorem settleError_sent {since : Instant} {error : Jobs.Error} :
    Triple (At (Working (L := L) past key rest (.sending since))) (settleError key entry true error)
      (fun _ => At (Waiting past rest)) (fun e => At (Fails past e)) := by
  have warning : Triple (At (Working (L := L) past key rest (.sending since))) transportWarning
      (fun _ => At (Waiting past rest)) (fun e => At (Fails past e)) :=
    transportWarning_spec.pre fun _ working => working.waiting
  cases error with
  | status code =>
    simp only [settleError, if_true]
    split
    · exact failEntry_working (by decide) rfl
    split
    · exact busy_working
    · split
      · rename_i reason rejected
        exact forgetRefusals_spec.bind fun _ => failEntry_working (rejectedSubmission_valid rejected) rfl
      · exact warning
  | config => exact failEntry_working (by decide) rfl
  | protocol => exact failEntry_working (by decide) rfl
  | transport => exact warning

/-- A question that failed leaves the entry for a later pass or fails it, and a submitted entry may fail. -/
theorem settleError_polled {jobId : String} {error : Jobs.Error} :
    Triple (At (Working (L := L) past key rest (.submitted jobId))) (settleError key entry false error)
      (fun _ => At (Waiting past rest)) (fun e => At (Fails past e)) := by
  have warning : Triple (At (Working (L := L) past key rest (.submitted jobId))) transportWarning
      (fun _ => At (Waiting past rest)) (fun e => At (Fails past e)) :=
    transportWarning_spec.pre fun _ working => working.waiting
  cases error with
  | status code =>
    simp only [settleError, Bool.false_eq_true, if_false]
    split
    · exact failEntry_working (by decide) rfl
    · exact warning
  | config => exact warning
  | protocol => exact failEntry_working (by decide) rfl
  | transport => exact warning

end Settle

theorem Waiting.head {item : String × Entry} {s : Store L} (waiting : Waiting past (item :: rest) s) :
    Working past item.1 rest item.2.state s where
  held := ⟨item.2, waiting.copies.current item List.mem_cons_self, rfl⟩
  waiting := ⟨waiting.copies.tail, fun other member => waiting.running other (List.mem_cons_of_mem _ member),
    waiting.since⟩
  apart := waiting.copies.apart

/-- Asking the updater changes the history only, so the entry is in the state in which it was. -/
theorem post_working {request : Jobs.Request} {answer : Jobs.Answer L} :
    Triple (At (Working past key rest state)) (post request key (.answer answer))
      (fun result => At fun s => result = Jobs.submit request key answer ∧ Working past key rest state s)
      (fun e => At (Fails past e)) := by
  unfold post
  split
  · rename_i unsendable
    refine Triple.pure fun w working => ⟨?_, working⟩
    unfold Jobs.submit
    rw [if_pos unsendable]
  · refine Triple.bind (Q := fun _ => At (Working past key rest state)) ?_ fun _ => ?_
    · refine onStore_spec (Triple.modify fun s working => ?_)
      obtain ⟨new, grown⟩ := working.waiting.since
      refine ⟨working.held, ⟨⟨working.waiting.copies.distinct, working.waiting.copies.current⟩,
        working.waiting.running, ?_⟩, working.apart⟩
      exact ⟨.posted key answer.status :: new, congrArg _ grown⟩
    · exact Triple.pure fun _ working => ⟨rfl, working⟩

theorem beginSend_working (now : Instant) :
    Triple (At (Working (L := L) past key rest .pending)) (onStore (beginSend key now))
      (fun _ => At (Working past key rest (.sending now))) (fun e => At (Fails past e)) :=
  onStore_spec (change_working rfl)

section Entry
variable {config : Config} {now : Instant} {answers : String → Jobs.Answer L} {item : String × Entry}

/-- An entry whose accepted answer is canonical is dealt with, unless persistence fails. -/
theorem reconcileEntry_canonical (canonical : Canonical config answers item) :
    Triple (At (Waiting past (item :: rest))) (reconcileEntry config now (fun k => .answer (answers k)) item)
      (fun _ => At (Waiting past rest)) (fun e => At (Fails past e)) := by
  have head : ∀ w : Worker L, At (Waiting past (item :: rest)) w → At (Working past item.1 rest item.2.state) w :=
    fun _ waiting => waiting.head
  unfold reconcileEntry
  split
  · intro w waiting
    have running := Waiting.running waiting item List.mem_cons_self
    exact failEntry_working (by decide) running w (head w waiting)
  rename_i remote found
  have configured : (config.remote item.2).isSome := by rw [found]; rfl
  split
  · rename_i pending
    rw [pending] at head
    refine ((beginSend_working now).pre head).bind fun _ => ?_
    refine post_working.bind fun result => ?_
    refine Triple.assume fun same => ?_
    cases result with
    | ok job =>
      obtain ⟨accepted, digested⟩ := Jobs.submit_ok same.symm
      obtain ⟨named, published⟩ := canonical.submitted configured pending job same.symm
      exact settleJob_sent accepted digested named published
    | error e => exact settleError_sent
  · rename_i since sending
    rw [sending] at head
    exact (failEntry_working (by decide) rfl).pre head
  · rename_i jobId submitted
    rw [submitted] at head
    refine Triple.bind (Q := fun result w => result = Jobs.get jobId item.2.identity.request (answers item.1) ∧
      At (Working past item.1 rest (.submitted jobId)) w) ?_ fun result => ?_
    · exact Triple.pure fun w waiting => ⟨rfl, head w waiting⟩
    refine Triple.assume fun same => ?_
    cases result with
    | ok job =>
      obtain ⟨accepted, rfl⟩ := Jobs.get_ok same.symm
      exact settleJob_polled accepted (canonical.polled configured _ submitted job same.symm)
    | error e => exact settleError_polled
  · exact Triple.pure fun _ waiting => (Waiting.head waiting).waiting

end Entry

section Calm

/-- No file step fails, and none has failed since the pass began. -/
structure Calm (past : List Event) (s : Store L) : Prop where
  fates : s.fates = []
  since : ∃ new, s.log = new ++ past ∧ .stepFailed ∉ new

/-- Without failing file steps a pass can only be refused by the outbox. -/
def Denied (past : List Event) (e : Stop) (s : Store L) : Prop := Calm past s ∧ ∃ reason, e = .error reason

theorem Calm.note {s : Store L} (calm : Calm past s) (event : Event) (harmless : event ≠ .stepFailed) :
    Calm past { s with log := event :: s.log } := by
  obtain ⟨new, grown, clean⟩ := calm.since
  refine ⟨calm.fates, event :: new, congrArg _ grown, fun member => ?_⟩
  rcases List.mem_cons.mp member with same | member
  · exact harmless same.symm
  · exact clean member

/-- Without fates left, a file step succeeds; the history gains what its effect notes, which `keeps` shows
to be harmless. -/
theorem fileStep_calm {effect : Store L → Store L} (keeps : ∀ s, Calm past s → Calm past (effect s)) :
    Triple (Calm past) (fileStep effect) (fun _ => Calm past) (Denied past) := by
  intro s calm
  have runs : fileStep effect s = (.ok ⟨⟩, effect s) := by
    unfold fileStep
    rw [calm.fates]
  refine ⟨?_, ?_⟩
  · rintro _ t result
    cases runs.symm.trans result
    exact keeps s calm
  · rintro e t result
    cases runs.symm.trans result

/-- A commit is made of such file steps, so on a disk that does not fail it only returns. -/
theorem commit_calm (ledger : Ledger) :
    Triple (Calm (L := L) past) (commit ledger) (fun _ => Calm past) (Denied past) := by
  unfold commit
  refine (fileStep_calm fun _ => id).bind fun _ => ?_
  refine (fileStep_calm fun _ => id).bind fun _ => ?_
  refine (fileStep_calm fun _ => id).bind fun _ => ?_
  refine (fileStep_calm fun s calm => ?_).bind fun _ => ?_
  · have noted := calm.note (.committed ledger) nofun
    exact ⟨noted.fates, noted.since⟩
  · exact Triple.modify fun s calm => ⟨calm.fates, calm.since⟩

theorem throw_calm {α : Type} {Q : α → Store L → Prop} {e : Error} :
    Triple (Calm past) (Prog.throw (.error e)) Q (Denied past) :=
  Triple.throw fun _ calm => ⟨calm, e, rfl⟩

/-- A move of an entry can then fail for one reason, that the outbox does not allow it. -/
theorem change_calm (key : String) (f : State → Except Error State) :
    Triple (Calm (L := L) past) (change key f) (fun _ => Calm past) (Denied past) := by
  unfold change
  refine Triple.bind (Q := fun _ => Calm past) (Triple.get fun _ => id) fun s => ?_
  split
  · exact throw_calm
  · rename_i entry _
    refine Triple.bind (Q := fun _ => Calm past) ?_ fun next => commit_calm _
    cases f entry.state with
    | ok next => exact Triple.pure fun _ => id
    | error e => exact throw_calm

theorem guarded_calm {P : Prop} [Decidable P] (key : String) (f : State → Except Error State) :
    Triple (Calm (L := L) past) (if ¬ P then invalid >>= fun _ : PUnit => change key f else change key f)
      (fun _ => Calm past) (Denied past) := by
  split
  · exact Triple.bind (Q := fun _ => Calm past) throw_calm fun _ => change_calm key f
  · exact change_calm key f

theorem failEntry_calm (code : String) :
    Triple (At (Calm (L := L) past)) (failEntry key code) (fun _ => At (Calm past))
      (fun e => At (Denied past e)) := by
  unfold failEntry
  exact (onStore_spec (guarded_calm key _)).bind fun _ => forgetRefusals_spec

/-- The same of a busy updater. -/
theorem busy_calm :
    Triple (At (Calm (L := L) past)) (busy key) (fun _ => At (Calm past)) (fun e => At (Denied past e)) := by
  unfold busy
  refine countRefusal_spec.bind fun _ => ?_
  refine Triple.bind (Q := fun _ => At (Calm past)) (Triple.get fun _ => id) fun w => ?_
  split
  · exact forgetRefusals_spec.bind fun _ => failEntry_calm _
  · exact onStore_spec (change_calm key refusedState)

/-- The same of the moves that a status asks for. -/
theorem settleStatus_calm (entry : Entry) (job : Jobs.Job) :
    Triple (At (Calm (L := L) past)) (settleStatus key entry job) (fun _ => At (Calm past))
      (fun e => At (Denied past e)) := by
  unfold settleStatus
  split
  · exact failEntry_calm _
  · exact failEntry_calm _
  · split
    · exact onStore_spec (guarded_calm key _)
    · exact failEntry_calm _
  · exact Triple.pure fun _ => id

/-- The same of all answers. -/
theorem settle_calm (entry : Entry) (pending : Bool) (result : Except Jobs.Error Jobs.Job) :
    Triple (At (Calm (L := L) past)) (settle key entry pending result) (fun _ => At (Calm past))
      (fun e => At (Denied past e)) := by
  cases result with
  | ok job =>
    simp only [settle, settleJob]
    split
    · exact failEntry_calm _
    · split
      · refine (onStore_spec (guarded_calm key _)).bind fun _ => ?_
        exact forgetRefusals_spec.bind fun _ => settleStatus_calm entry job
      · exact settleStatus_calm entry job
  | error e =>
    cases e with
    | status code =>
      simp only [settle, settleError]
      split
      · exact failEntry_calm _
      split
      · split
        · exact busy_calm
        · split
          · exact forgetRefusals_spec.bind fun _ => failEntry_calm _
          · exact transportWarning_spec
      · exact transportWarning_spec
    | config =>
      simp only [settle, settleError]
      split
      · exact failEntry_calm _
      · exact transportWarning_spec
    | protocol => exact failEntry_calm _
    | transport => exact transportWarning_spec

theorem post_calm (request : Jobs.Request) (answer : Jobs.Answer L) :
    Triple (At (Calm past)) (post request key (.answer answer)) (fun _ => At (Calm past))
      (fun e => At (Denied past e)) := by
  unfold post
  split
  · exact Triple.pure fun _ => id
  · refine (onStore_spec (Triple.modify fun s calm => ?_)).bind fun _ => Triple.pure fun _ => id
    exact calm.note _ nofun

/-- The same of the whole work on one entry. -/
theorem reconcileEntry_calm (past : List Event) (config : Config) (now : Instant) (answers : String → Jobs.Answer L)
    (item : String × Entry) :
    Triple (At (Calm past)) (reconcileEntry config now (fun k => .answer (answers k)) item)
      (fun _ => At (Calm past)) (fun e => At (Denied past e)) := by
  unfold reconcileEntry
  split
  · exact failEntry_calm _
  split
  · refine (onStore_spec (change_calm item.1 (beginSendState now))).bind fun _ => ?_
    exact (post_calm _ _).bind fun _ => settle_calm _ _ _
  · exact failEntry_calm _
  · exact Triple.bind (Q := fun _ => At (Calm past)) (Triple.pure fun _ => id) fun _ => settle_calm _ _ _
  · exact Triple.pure fun _ => id

end Calm

section Blocked

/-- The program never finishes normally. -/
def Never {σ ε α : Type} (m : Prog σ ε α) : Prop := Triple (fun _ => True) m (fun _ _ => False) (fun _ _ => True)

theorem Never.bind {σ ε α β : Type} {m : Prog σ ε α} {f : α → Prog σ ε β} (never : Never m) : Never (m >>= f) :=
  Triple.bind never fun _ _ impossible => impossible.elim

theorem Never.after {σ ε α β : Type} {m : Prog σ ε α} {f : α → Prog σ ε β} (never : ∀ a, Never (f a)) :
    Never (m >>= f) :=
  Triple.bind (Q := fun _ _ => True) (fun _ _ => ⟨fun _ _ _ => trivial, fun _ _ _ => trivial⟩) never

theorem never_onStore {α : Type} {m : Op L α} (never : Never m) : Never (onStore m) := onStore_spec never

theorem guarded_never {P : Prop} [Decidable P] {f : State → Except Error State} (refused : ¬ P) :
    Never (if ¬ P then (invalid : Op L PUnit) >>= fun _ : PUnit => change key f else change key f) := by
  rw [if_pos refused]
  exact Never.bind (Triple.throw fun _ => id)

section Refused
variable {entry : Entry} {job : Jobs.Job}

/-- A completed job whose publication is not spelled canonically: the outbox refuses the completion, so the program
does not go on. -/
theorem settleStatus_never (unpublished : ¬ PublicationCanonical L entry.identity job) :
    Never (settleStatus (L := L) key entry job) := by
  unfold PublicationCanonical at unpublished
  push Not at unpublished
  obtain ⟨outcome, completed, present, matched, noncanonical⟩ := unpublished
  have chosen : job.outcome.filter (matchesOutcome entry.identity) = some outcome :=
    Option.filter_eq_some_iff.mpr ⟨present, matched⟩
  simp only [settleStatus, completed, chosen]
  exact never_onStore (guarded_never fun checked => noncanonical checked.2)

/-- A job name that is not canonical stops a submission at its acknowledgement, and a publication that is not stops
any answer at the completion. -/
theorem settleJob_never {pending : Bool} (same : job.idempotencySha256 = some (L.keyDigest key))
    (refused : (pending = true ∧ ¬ uuid L job.id) ∨ ¬ PublicationCanonical L entry.identity job) :
    Never (settleJob (L := L) key entry pending job) := by
  unfold settleJob
  rw [if_neg (not_not_intro same)]
  rcases refused with ⟨rfl, noncanonical⟩ | unpublished
  · exact Never.bind (never_onStore (guarded_never noncanonical))
  · split
    · exact Never.after fun _ => Never.after fun _ => settleStatus_never unpublished
    · exact settleStatus_never unpublished

end Refused

variable {config : Config} {now : Instant} {answers : String → Jobs.Answer L} {item : String × Entry}

/-- What never finishes on the accepted job does not finish on the answer that carries it either. -/
theorem post_never {request : Jobs.Request} {answer : Jobs.Answer L} {job : Jobs.Job}
    {f : Except Jobs.Error Jobs.Job → Work L PUnit} (accepted : Jobs.submit request key answer = .ok job)
    (never : Never (f (.ok job))) : Never (post request key (.answer answer) >>= f) := by
  refine Triple.bind (Q := fun result _ => result = .ok job) ?_ ?_
  · unfold post
    split
    · rename_i unsendable
      unfold Jobs.submit at accepted
      rw [if_pos unsendable] at accepted
      cases accepted
    · refine Triple.bind (Q := fun _ _ => True) ?_ fun _ => Triple.pure fun _ _ => accepted
      exact fun _ _ => ⟨fun _ _ _ => trivial, fun _ _ _ => trivial⟩
  · rintro result w rfl
    exact never w trivial

/-- An accepted answer with a name that is not canonical blocks the pass at its entry. -/
theorem reconcileEntry_never (now : Instant) (refused : ¬ Canonical config answers item) :
    Never (reconcileEntry config now (fun k => .answer (answers k)) item) := by
  by_contra finishes
  refine refused ⟨?_, ?_⟩
  · intro configured pending job accepted
    by_contra bad
    refine finishes ?_
    obtain ⟨remote, found⟩ := Option.isSome_iff_exists.mp configured
    simp only [reconcileEntry, found, pending]
    refine Never.after fun _ => post_never accepted (settleJob_never (Jobs.submit_ok accepted).2 ?_)
    by_cases named : uuid L job.id = true
    · exact Or.inr fun published => bad ⟨named, published⟩
    · exact Or.inl ⟨rfl, named⟩
  · intro configured jobId submitted job accepted same
    by_contra bad
    refine finishes ?_
    obtain ⟨remote, found⟩ := Option.isSome_iff_exists.mp configured
    simp only [reconcileEntry, found, submitted]
    refine Triple.bind (Q := fun result _ => result = .ok job) (Triple.pure fun _ _ => accepted) ?_
    rintro result w rfl
    exact settleJob_never same (Or.inr bad) w trivial

theorem Calm.not_failed {s : Store L} {e : Stop} (denied : Denied past e s) : ¬ Fails past e s := by
  obtain ⟨⟨-, new, grown, clean⟩, reason, rfl⟩ := denied
  rintro (crashed | ⟨other, same, failed⟩)
  · cases crashed
  · exact clean (List.append_cancel_right (grown.symm.trans same) ▸ failed)

/-- Without failing file steps, a batch with a refused answer ends in an error. -/
theorem each_denied {items : List (String × Entry)} (refused : ∃ item ∈ items, ¬ Canonical config answers item) :
    Triple (At fun s => Waiting past items s ∧ Calm past s)
      (Prog.each (reconcileEntry config now fun k => .answer (answers k)) items) (fun _ _ => False)
      (fun e => At (Denied past e)) := by
  induction items with
  | nil =>
    obtain ⟨item, member, -⟩ := refused
    exact absurd member List.not_mem_nil
  | cons item rest ih =>
    refine Triple.bind (Q := fun _ => At fun s => Canonical config answers item ∧ Waiting past rest s ∧ Calm past s)
      ?_ fun _ => ?_
    · by_cases canonical : Canonical config answers item
      · refine ((reconcileEntry_canonical canonical).both (reconcileEntry_calm past config now answers item)).weaken ?_ ?_
        · exact fun _ _ done => ⟨canonical, done⟩
        · exact fun _ _ stopped => absurd stopped.1 (Calm.not_failed stopped.2)
      · have never := reconcileEntry_never now canonical
        refine (never.both (reconcileEntry_calm past config now answers item)).conseq ?_ ?_ ?_
        · exact fun _ pre => ⟨trivial, pre.2⟩
        · exact fun _ _ done => done.1.elim
        · exact fun _ _ stopped => stopped.2
    · refine Triple.assume fun canonical => ih ?_
      obtain ⟨other, member, bad⟩ := refused
      rcases List.mem_cons.mp member with rfl | member
      · exact absurd canonical bad
      · exact ⟨other, member, bad⟩

end Blocked

/-- The entries a pass visits. -/
def batch (ledger : Ledger) : List (String × Entry) := (Outbox.rotation ledger).take 16

/-- What a pass selects are the first sixteen of the rotation, each as the ledger has it and none of
them finished. -/
theorem waiting_of_selected {s t : Store L} {items : List (String × Entry)} (selected : Selected s 16 items t) :
    items = batch s.ledger ∧ Waiting s.log items t := by
  have copies := copies_of_selected selected
  obtain ⟨chosen, place⟩ := selected
  refine ⟨chosen, copies, fun item member => ?_, ?_⟩
  · rw [chosen] at member
    have listed := List.mem_of_mem_take member
    unfold Outbox.rotation at listed
    have open_ := (List.mem_filter.mp listed).2
    simpa using open_
  · rcases place with ⟨-, near⟩ | ⟨key, entry, -, near⟩
    · exact ⟨[], near.log⟩
    · exact ⟨[_], near.log⟩

/-- Selecting a batch moves the cursor with one commit, which is not refused on a disk that does not fail. -/
theorem nextBatch_calm : Triple (Calm (L := L) past) (nextBatch 16) (fun _ => Calm past) (Denied past) := by
  unfold nextBatch
  rw [if_neg (not_not_intro ⟨by decide, by decide⟩)]
  refine Triple.bind (Q := fun _ => Calm past) (Triple.get fun _ => id) fun s => ?_
  dsimp only
  split
  · exact (commit_calm _).bind fun _ => Triple.pure fun _ => id
  · exact Triple.pure fun _ => id

section Whole
variable {config : Config} {now : Instant} {answers : String → Jobs.Answer L} {s : Store L}

/-- Entry by entry, by the rule for loops: what the work on one entry keeps is that the rest of the batch is still
waiting. So only the disk stops the pass. -/
theorem reconcileBatch_canonical (now : Instant) (canonical : ∀ item ∈ batch s.ledger, Canonical config answers item) :
    Triple (At (Near s)) (reconcileBatch config now fun k => .answer (answers k)) (fun _ _ => True)
      (fun e => At (Fails s.log e)) := by
  have chosen : Triple (Near s) (nextBatch 16)
      (fun items t => items = batch s.ledger ∧ Waiting s.log items t) (Fails s.log) :=
    (nextBatch_halted ⟨by decide, by decide⟩).weaken (fun _ _ => waiting_of_selected)
      fun _ _ halted => Halted.fails halted ⟨[], rfl⟩
  unfold reconcileBatch
  refine (onStore_spec chosen).bind fun items => ?_
  refine Triple.assume fun same => ?_
  subst same
  refine Triple.conseq (Triple.each (I := fun rest w => (∀ item ∈ rest, Canonical config answers item) ∧
    At (Waiting s.log rest) w) fun item rest => ?_) ?_ (fun _ _ _ => trivial) fun _ _ => id
  · refine Triple.assume fun all => ?_
    refine (reconcileEntry_canonical (all item List.mem_cons_self)).weaken (fun _ _ waiting => ?_) fun _ _ => id
    exact ⟨fun other member => all other (List.mem_cons_of_mem _ member), waiting⟩
  · exact fun w waiting => ⟨canonical, waiting⟩

/-- One entry of the batch with an answer that the outbox refuses is enough: the pass comes to it, because nothing
stops it before except such another entry, and then it stops there. -/
theorem reconcileBatch_denied (now : Instant) (refused : ∃ item ∈ batch s.ledger, ¬ Canonical config answers item) :
    Triple (At fun t => Near s t ∧ Calm s.log t) (reconcileBatch config now fun k => .answer (answers k))
      (fun _ _ => False) (fun e => At (Denied s.log e)) := by
  have chosen : Triple (fun t => Near s t ∧ Calm s.log t) (nextBatch 16)
      (fun items t => items = batch s.ledger ∧ Waiting s.log items t ∧ Calm s.log t) (Denied s.log) := by
    refine ((nextBatch_spec 16).both nextBatch_calm).weaken (fun items t done => ?_) fun _ _ stopped => stopped.2
    obtain ⟨same, waiting⟩ := waiting_of_selected done.1
    exact ⟨same, waiting, done.2⟩
  unfold reconcileBatch
  refine (onStore_spec chosen).bind fun items => ?_
  refine Triple.assume fun same => ?_
  subst same
  exact each_denied refused

end Whole

/-- With these updater answers, the pass returns an error only when persistence failed in it. -/
def StopsOnlyOnStorage (config : Config) (now : Instant) (answers : String → Jobs.Answer L) (w : Worker L) : Prop :=
  ∀ fates reason t, reconcileBatch config now (fun k => .answer (answers k)) (w.withFates fates) =
    (.error (.error reason), t) → CommitFailed w.store.log t.store

/-- Only persistence stops a pass, exactly when every accepted answer of the batch spells the
job and the publication it names canonically. -/
theorem stops_only_on_storage_iff (config : Config) (now : Instant) (answers : String → Jobs.Answer L)
    (w : Worker L) :
    StopsOnlyOnStorage config now answers w ↔ ∀ item ∈ batch w.store.ledger, Canonical config answers item := by
  constructor
  · intro stops
    by_contra bad
    push Not at bad
    have calm : Calm w.store.log (w.withFates []).store := ⟨rfl, [], rfl, List.not_mem_nil⟩
    have spec := reconcileBatch_denied now bad _ ⟨Near.with_fates w.store [], calm⟩
    cases run : reconcileBatch config now (fun k => .answer (answers k)) (w.withFates []) with
    | mk r t =>
      cases r with
      | ok value => exact spec.1 _ _ run
      | error e =>
        have denied : Denied w.store.log e t.store := spec.2 _ _ run
        obtain ⟨reason, rfl⟩ := denied.2
        exact Calm.not_failed denied (Or.inr (stops [] reason t run))
  · intro canonical fates reason t run
    have spec := reconcileBatch_canonical now canonical (w.withFates fates) (Near.with_fates w.store fates)
    rcases spec.2 _ _ run with crashed | failed
    · cases crashed
    · exact failed

namespace Sample

/-- The updater names its job in capital letters. -/
def shouting : String → Jobs.Answer Outbox.Sample.library :=
  fun _ => .response { status := 202, chunks := [.job (job "0190D3F0-1234-7ABC-8DEF-0123456789AB")] }

def isStepFailed : Event → Bool
  | .stepFailed => true
  | _ => false

/-- The error a pass returned, and whether any file step had failed. -/
def returned : Except Stop PUnit × Worker Outbox.Sample.library → Option (Error × Bool)
  | (.error (.error reason), w) => some (reason, w.store.log.any isStepFailed)
  | _ => none

end Sample

/-- A reachable ledger and an accepted answer that stop the pass with nothing wrong on disk. -/
theorem spelling_stops_dispatch :
    ∃ sys : System Outbox.Sample.library, Run.Reach step (fun _ _ => True) {} sys ∧ sys.alive = true ∧
      ¬ StopsOnlyOnStorage sys.config 5 Sample.shouting sys.worker := by
  have runs : (Run.exec step ({} : System Outbox.Sample.library)
      [.start Sample.config [], .observe Sample.snapshot []]).map (fun sys => (sys.alive, Sample.returned
        (reconcileBatch sys.config 5 (fun k => .answer (Sample.shouting k)) (sys.worker.withFates [])))) =
      some (true, some (.invalid, false)) := by
    decide +kernel
  obtain ⟨sys, run, shape⟩ := Option.map_eq_some_iff.mp runs
  obtain ⟨alive, result⟩ := Prod.mk.inj shape
  refine ⟨sys, Run.reach_of_exec run, alive, fun stops => ?_⟩
  unfold Sample.returned at result
  split at result
  · rename_i reason w pass
    obtain ⟨new, grown, failed⟩ := stops [] reason w pass
    obtain ⟨-, clean⟩ := Prod.mk.inj (Option.some.inj result)
    rw [List.any_eq_false] at clean
    exact clean .stepFailed (grown ▸ List.mem_append_left _ failed) rfl
  · cases result

end SiriusProxy.Dispatch
