import SiriusProxy.Error
import SiriusProxy.Lib.Run

namespace SiriusProxy.Owner

variable {Synced Verified Published : Type}

/-- What the parts of one update answer. A part that is not configured is none; its failure is
`some none`. -/
structure Answers (Synced Verified Published : Type) where
  sync : Option (Option Synced)
  localCheck : Option Verified
  database : Option (Option Published)

structure Receipt (Synced Verified Published : Type) where
  sync : Option Synced
  database : Option Published
  localCheck : Option Verified

/-- Only a pull asks the source; files are verified, a database is published. -/
def update (answers : Answers Synced Verified Published) (pull : Bool) :
    Except String (Receipt Synced Verified Published) := do
  let result ← if pull then
      match answers.sync with
      | some (some result) => .ok (some result)
      | some none => .error "owner_sync_failed"
      | none => .ok none
    else .ok none
  let verified ← if answers.database.isNone then
      match answers.localCheck with
      | some verified => .ok (some verified)
      | none => .error "local_verification_failed"
    else .ok none
  let publication ← match answers.database with
    | some (some published) => .ok (some published)
    | some none => .error "database_publish_failed"
    | none => .ok none
  .ok { sync := result, database := publication, localCheck := verified }

inductive Request where
  | refresh
  | publishLocal
  deriving DecidableEq, Repr

/-- The bits of `pending`. -/
structure Pending where
  refresh : Bool := false
  publishLocal : Bool := false
  deriving DecidableEq, Repr

def Pending.ask (p : Pending) : Request → Pending
  | .refresh => { p with refresh := true }
  | .publishLocal => { p with publishLocal := true }

inductive Phase where
  | top (pull : Bool)
  | updating (pull : Bool)
  | waiting
  | notified
  | rearming
  | rearmed
  | stopped
  deriving DecidableEq, Repr

inductive Status where
  | pending
  | running
  | ready
  | failed (code : String)
  | stopped
  deriving DecidableEq, Repr

/-- Where `run` goes with the bits it has swapped out. -/
def Pending.taken (p : Pending) : Phase :=
  if p.publishLocal then
    -- Local publication does not wait for the source: a pull follows in the next iteration.
    if p.refresh then .rearming else .top false
  else .top true

/-- The owner: `wake` and `published` are the permits of the two `Notify`, `callers` are the calls
that have set their bit and not yet notified, `phase` is where `run` stands. -/
structure World (Synced Verified Published : Type) where
  pending : Pending := {}
  wake : Bool := false
  published : Bool := false
  callers : List Request := []
  phase : Phase := .top true
  shutdown : Bool := false
  changed : Bool := false
  status : Status := .pending
  lastSuccess : Option (Instant × Receipt Synced Verified Published) := none

inductive Label (Synced Verified Published : Type) where
  | ask (request : Request)
  | notify (caller : Nat)
  | announce
  | signal (shutdown : Bool)
  | begin_
  | finish (now : Instant) (answers : Answers Synced Verified Published)
  | stop
  | consume
  | timer
  | swap
  | rearm
  | rearmNotify

/-- One atomic step of a caller, of the notifier or of `run`. -/
def step (w : World Synced Verified Published) :
    Label Synced Verified Published → Option (World Synced Verified Published)
  | .ask request => some { w with pending := w.pending.ask request, callers := w.callers ++ [request] }
  | .notify caller =>
    if caller < w.callers.length then some { w with callers := w.callers.eraseIdx caller, wake := true } else none
  | .announce => if w.published then some { w with published := false } else none
  | .signal shutdown => some { w with shutdown := shutdown, changed := true }
  | .begin_ => match w.phase with
    | .top pull => if w.shutdown then none else some { w with phase := .updating pull, status := .running }
    | _ => none
  | .finish now answers => match w.phase with
    | .updating pull => match update answers pull with
      | .ok receipt =>
        some { w with phase := .waiting, status := .ready, lastSuccess := some (now, receipt), published := true }
      | .error code => some { w with phase := .waiting, status := .failed code }
    | _ => none
  | .stop => match w.phase with
    | .top _ => if w.shutdown then some { w with phase := .stopped, status := .stopped } else none
    | .updating _ => if w.changed then some { w with phase := .stopped, status := .stopped } else none
    | .waiting => if w.changed then some { w with phase := .stopped, status := .stopped } else none
    | _ => none
  | .consume => if w.phase = .waiting ∧ w.wake then some { w with phase := .notified, wake := false } else none
  | .timer => if w.phase = .waiting then some { w with phase := .top true } else none
  | .swap =>
    if w.phase = .notified then some { w with pending := {}, phase := w.pending.taken } else none
  | .rearm =>
    if w.phase = .rearming then some { w with pending := w.pending.ask .refresh, phase := .rearmed } else none
  | .rearmNotify => if w.phase = .rearmed then some { w with wake := true, phase := .top false } else none

/-- The update that a step starts, by its `pull`. -/
def starts (w : World Synced Verified Published) (l : Label Synced Verified Published) : Option Bool :=
  match w.phase, l with
  | .top pull, .begin_ => some pull
  | _, _ => none

variable {w x y z : World Synced Verified Published} {l : Label Synced Verified Published}

/-- A step outside of `run` leaves `run` where it is and takes nothing away; after it a caller or a
permit stands for what it asked. -/
structure Outside (w x : World Synced Verified Published) : Prop where
  phase : x.phase = w.phase
  refresh : w.pending.refresh = true → x.pending.refresh = true
  publishLocal : w.pending.publishLocal = true → x.pending.publishLocal = true
  wake : w.wake = true → x.wake = true
  heard : x.pending = w.pending ∧ x.callers = w.callers ∨ x.wake = true ∨ x.callers ≠ []

/-- What a step of `run` can do. -/
inductive Moves : World Synced Verified Published → Label Synced Verified Published →
    World Synced Verified Published → Prop
  | begin_ {w : World Synced Verified Published} {pull : Bool} (at_top : w.phase = .top pull) :
      Moves w .begin_ { w with phase := .updating pull, status := .running }
  | finish {w x : World Synced Verified Published} {pull : Bool} {now : Instant}
      {answers : Answers Synced Verified Published} (busy : w.phase = .updating pull) (ended : x.phase = .waiting)
      (pending : x.pending = w.pending) (wake : x.wake = w.wake) (callers : x.callers = w.callers) :
      Moves w (.finish now answers) x
  | stop {w : World Synced Verified Published}
      (outside : w.phase ≠ .notified ∧ w.phase ≠ .rearming ∧ w.phase ≠ .rearmed) :
      Moves w .stop { w with phase := .stopped, status := .stopped }
  | consume {w : World Synced Verified Published} (idle : w.phase = .waiting) :
      Moves w .consume { w with phase := .notified, wake := false }
  | timer {w : World Synced Verified Published} (idle : w.phase = .waiting) :
      Moves w .timer { w with phase := .top true }
  | swap {w : World Synced Verified Published} (taken : w.phase = .notified) :
      Moves w .swap { w with pending := {}, phase := w.pending.taken }
  | rearm {w : World Synced Verified Published} (both : w.phase = .rearming) :
      Moves w .rearm { w with pending := w.pending.ask .refresh, phase := .rearmed }
  | rearmNotify {w : World Synced Verified Published} (both : w.phase = .rearmed) :
      Moves w .rearmNotify { w with wake := true, phase := .top false }

theorem step_cases (taken : step w l = some x) : Outside w x ∨ Moves w l x := by
  cases l with
  | ask request =>
    cases taken
    refine Or.inl ⟨rfl, fun set => ?_, fun set => ?_, id, Or.inr (Or.inr ?_)⟩
    · cases request with
      | refresh => rfl
      | publishLocal => exact set
    · cases request with
      | refresh => exact set
      | publishLocal => rfl
    · exact List.append_ne_nil_of_right_ne_nil _ (List.cons_ne_nil _ _)
  | notify caller =>
    simp only [step] at taken
    split_ifs at taken
    cases taken
    exact Or.inl ⟨rfl, id, id, fun _ => rfl, Or.inr (Or.inl rfl)⟩
  | announce =>
    simp only [step] at taken
    split_ifs at taken
    cases taken
    exact Or.inl ⟨rfl, id, id, id, Or.inl ⟨rfl, rfl⟩⟩
  | signal shutdown =>
    cases taken
    exact Or.inl ⟨rfl, id, id, id, Or.inl ⟨rfl, rfl⟩⟩
  | begin_ =>
    simp only [step] at taken
    split at taken
    · rename_i pull at_top
      split_ifs at taken
      cases taken
      exact Or.inr (.begin_ at_top)
    · cases taken
  | finish now answers =>
    simp only [step] at taken
    split at taken
    · rename_i pull busy
      split at taken
      all_goals
        cases taken
        exact Or.inr (.finish busy rfl rfl rfl rfl)
    · cases taken
  | stop =>
    simp only [step] at taken
    split at taken
    all_goals first | cases taken | skip
    all_goals
      rename_i at_phase
      split_ifs at taken
      cases taken
      exact Or.inr (.stop (by simp [at_phase]))
  | consume =>
    simp only [step] at taken
    split_ifs at taken with ready
    cases taken
    exact Or.inr (.consume ready.1)
  | timer =>
    simp only [step] at taken
    split_ifs at taken with idle
    cases taken
    exact Or.inr (.timer idle)
  | swap =>
    simp only [step] at taken
    split_ifs at taken with notified
    cases taken
    exact Or.inr (.swap notified)
  | rearm =>
    simp only [step] at taken
    split_ifs at taken with both
    cases taken
    exact Or.inr (.rearm both)
  | rearmNotify =>
    simp only [step] at taken
    split_ifs at taken with both
    cases taken
    exact Or.inr (.rearmNotify both)

/-- A pending bit has a permit, a caller or `run` itself that will look at it. -/
def Heard (w : World Synced Verified Published) : Prop :=
  w.pending.refresh = true ∨ w.pending.publishLocal = true →
    w.wake = true ∨ w.callers ≠ [] ∨ w.phase = .notified ∨ w.phase = .rearmed

/-- Elsewhere in `run` a permit or a caller is there. -/
theorem Heard.outside (heard : Heard w) (pending : w.pending.refresh = true ∨ w.pending.publishLocal = true)
    (before : w.phase ≠ .notified) (between : w.phase ≠ .rearmed) : w.wake = true ∨ w.callers ≠ [] := by
  rcases heard pending with wake | caller | notified | rearmed
  · exact Or.inl wake
  · exact Or.inr caller
  · exact absurd notified before
  · exact absurd rearmed between

theorem step_heard (heard : Heard w) (taken : step w l = some x) : Heard x := by
  intro pending
  have stays (awake : x.wake = true ∨ x.callers ≠ []) :
      x.wake = true ∨ x.callers ≠ [] ∨ x.phase = .notified ∨ x.phase = .rearmed :=
    awake.imp_right Or.inl
  rcases step_cases taken with outside | moves
  · rcases outside.heard with ⟨same, callers⟩ | wake | caller
    · rw [same] at pending
      rw [callers, outside.phase]
      rcases heard pending with wake | others
      · exact Or.inl (outside.wake wake)
      · exact Or.inr others
    · exact Or.inl wake
    · exact Or.inr (Or.inl caller)
  · cases moves with
    | begin_ at_top => exact stays (heard.outside pending (by rw [at_top]; nofun) (by rw [at_top]; nofun))
    | finish busy ended same wake callers =>
      rw [same] at pending
      refine stays ?_
      rw [wake, callers]
      exact heard.outside pending (by rw [busy]; nofun) (by rw [busy]; nofun)
    | stop outside => exact stays (heard.outside pending outside.1 outside.2.2)
    | consume idle => exact Or.inr (Or.inr (Or.inl rfl))
    | timer idle => exact stays (heard.outside pending (by rw [idle]; nofun) (by rw [idle]; nofun))
    | swap notified => rcases pending with set | set <;> cases set
    | rearm both => exact Or.inr (Or.inr (Or.inr rfl))
    | rearmNotify both => exact Or.inl rfl

/-- Only a swap takes a bit away. -/
theorem swap_of_cleared (taken : step w l = some x)
    (cleared : w.pending.refresh = true ∧ x.pending.refresh = false ∨
      w.pending.publishLocal = true ∧ x.pending.publishLocal = false) :
    l = .swap ∧ x.phase = w.pending.taken := by
  have same : ¬ x.pending = w.pending := by
    intro same
    rw [same] at cleared
    rcases cleared with ⟨set, gone⟩ | ⟨set, gone⟩
    · rw [set] at gone
      cases gone
    · rw [set] at gone
      cases gone
  rcases step_cases taken with outside | moves
  · rcases cleared with ⟨set, gone⟩ | ⟨set, gone⟩
    · rw [outside.refresh set] at gone
      cases gone
    · rw [outside.publishLocal set] at gone
      cases gone
  · cases moves with
    | swap notified => exact ⟨rfl, rfl⟩
    | finish busy ended pending wake callers => exact absurd pending same
    | rearm both =>
      rcases cleared with ⟨_, gone⟩ | ⟨set, gone⟩
      · cases gone
      · have kept : w.pending.publishLocal = false := gone
        rw [set] at kept
        cases kept
    | _ => exact absurd rfl same

/-- Where `run` can be after a swap of `p`, until the next update starts. -/
def Following (p : Pending) (w : World Synced Verified Published) : Prop :=
  w.phase = .stopped ∨ (w.phase = p.taken ∧ p.taken ≠ .rearming) ∨
    p.taken = .rearming ∧ (w.phase = .rearming ∨ w.phase = .rearmed ∧ w.pending.refresh = true ∨
      w.phase = .top false ∧ w.pending.refresh = true ∧ w.wake = true)

theorem following_swap {p : Pending} (phase : w.phase = p.taken) : Following p w := by
  by_cases both : p.taken = .rearming
  · exact Or.inr (Or.inr ⟨both, Or.inl (phase.trans both)⟩)
  · exact Or.inr (Or.inl ⟨phase, both⟩)

theorem taken_top (p : Pending) : p.taken = .rearming ∨ ∃ pull, p.taken = .top pull := by
  unfold Pending.taken
  split_ifs
  · exact Or.inl rfl
  · exact Or.inr ⟨false, rfl⟩
  · exact Or.inr ⟨true, rfl⟩

/-- Until an update starts `run` only goes on with what it swapped out, or stops. -/
theorem step_following {p : Pending} (following : Following p w) (taken : step w l = some x)
    (quiet : starts w l = none) : Following p x := by
  rcases step_cases taken with outside | moves
  · unfold Following at following ⊢
    rw [outside.phase]
    rcases following with stopped | one | ⟨both, first | ⟨second, set⟩ | ⟨third, set, wake⟩⟩
    · exact Or.inl stopped
    · exact Or.inr (Or.inl one)
    · exact Or.inr (Or.inr ⟨both, Or.inl first⟩)
    · exact Or.inr (Or.inr ⟨both, Or.inr (Or.inl ⟨second, outside.refresh set⟩)⟩)
    · exact Or.inr (Or.inr ⟨both, Or.inr (Or.inr ⟨third, outside.refresh set, outside.wake wake⟩)⟩)
  · have places : w.phase = .stopped ∨ w.phase = .rearming ∨ w.phase = .rearmed ∨ ∃ pull, w.phase = .top pull := by
      rcases following with stopped | ⟨one, single⟩ | ⟨_, first | ⟨second, _⟩ | ⟨third, _⟩⟩
      · exact Or.inl stopped
      · rcases taken_top p with both | ⟨pull, top⟩
        · exact absurd both single
        · exact Or.inr (Or.inr (Or.inr ⟨pull, one.trans top⟩))
      · exact Or.inr (Or.inl first)
      · exact Or.inr (Or.inr (Or.inl second))
      · exact Or.inr (Or.inr (Or.inr ⟨false, third⟩))
    cases moves with
    | begin_ at_top =>
      simp only [starts, at_top] at quiet
      cases quiet
    | finish busy ended pending wake callers => simp [busy] at places
    | stop outside => exact Or.inl rfl
    | consume idle => simp [idle] at places
    | timer idle => simp [idle] at places
    | swap notified => simp [notified] at places
    | rearm both =>
      rcases following with stopped | ⟨one, single⟩ | ⟨twice, _⟩
      · rw [both] at stopped
        cases stopped
      · exact absurd (one.symm.trans both) single
      · exact Or.inr (Or.inr ⟨twice, Or.inr (Or.inl ⟨rfl, rfl⟩)⟩)
    | rearmNotify both =>
      rcases following with stopped | ⟨one, single⟩ | ⟨twice, first | ⟨second, set⟩ | ⟨third, _⟩⟩
      · rw [both] at stopped
        cases stopped
      · rcases taken_top p with again | ⟨pull, top⟩
        · exact absurd again single
        · rw [one, top] at both
          cases both
      · rw [both] at first
        cases first
      · exact Or.inr (Or.inr ⟨twice, Or.inr (Or.inr ⟨rfl, set, rfl⟩)⟩)
      · rw [both] at third
        cases third

theorem path_following {p : Pending}
    {visits : List (World Synced Verified Published × Label Synced Verified Published)}
    (following : Following p w) (path : Run.Path step w visits x)
    (quiet : ∀ visit ∈ visits, starts visit.1 visit.2 = none) : Following p x :=
  path.invariant following fun _ _ _ held member taken => step_following held taken (quiet _ member)

theorem starts_eq {pull : Bool} (started : starts w l = some pull) : w.phase = .top pull := by
  unfold starts at started
  split at started
  · rename_i found
    rw [found, Option.some.inj started]
  · cases started

/-- The update that a swap leads to: for a local publication it does not pull; for a refresh it
pulls, or the refresh is pending again with a permit. -/
theorem following_starts {p : Pending} {pull : Bool} (following : Following p w) (started : starts w l = some pull) :
    (p.publishLocal = true → pull = false) ∧
      (p.refresh = true → pull = true ∨ w.pending.refresh = true ∧ w.wake = true) := by
  have top := starts_eq started
  unfold Following at following
  rw [top] at following
  rcases following with stopped | ⟨one, _⟩ | ⟨_, first | ⟨second, _⟩ | ⟨third, set, wake⟩⟩
  · cases stopped
  · unfold Pending.taken at one
    split_ifs at one with publish refresh
    · cases one
      exact ⟨fun _ => rfl, fun refresh' => absurd refresh' refresh⟩
    · cases one
      exact ⟨fun publish' => absurd publish' publish, fun _ => Or.inl rfl⟩
  · cases first
  · cases second
  · cases third
    exact ⟨fun _ => rfl, fun _ => Or.inr ⟨set, wake⟩⟩

/-- No request is lost: a pending bit has a permit or a caller while `run` waits, and a bit goes away
only with a swap whose next update does what the bit asks, or finds the refresh pending again. -/
theorem owner_loses_no_request (reach : Run.Reach step (fun _ _ => True) {} w) :
    (w.phase = .waiting → (w.pending.refresh = true ∨ w.pending.publishLocal = true) →
      w.wake = true ∨ w.callers ≠ []) ∧
    (∀ l x, step w l = some x → w.pending.publishLocal = true → x.pending.publishLocal = false → l = .swap ∧
      ∀ visits y next z pull, Run.Path step x visits y → (∀ visit ∈ visits, starts visit.1 visit.2 = none) →
        step y next = some z → starts y next = some pull → pull = false) ∧
    ∀ l x, step w l = some x → w.pending.refresh = true → x.pending.refresh = false → l = .swap ∧
      ∀ visits y next z pull, Run.Path step x visits y → (∀ visit ∈ visits, starts visit.1 visit.2 = none) →
        step y next = some z → starts y next = some pull →
          pull = true ∨ y.pending.refresh = true ∧ y.wake = true := by
  have heard : Heard w := reach.invariant (by
    rintro (set | set)
    · cases set
    · cases set) fun _ _ _ heard _ taken => step_heard heard taken
  refine ⟨fun waiting pending => ?_, fun l x taken set gone => ?_, fun l x taken set gone => ?_⟩
  · rcases heard pending with wake | caller | phase | phase
    · exact Or.inl wake
    · exact Or.inr caller
    · rw [waiting] at phase
      cases phase
    · rw [waiting] at phase
      cases phase
  · obtain ⟨swap, phase⟩ := swap_of_cleared taken (Or.inr ⟨set, gone⟩)
    refine ⟨swap, fun visits y next z pull path quiet _ started => ?_⟩
    exact (following_starts (path_following (following_swap phase) path quiet) started).1 set
  · obtain ⟨swap, phase⟩ := swap_of_cleared taken (Or.inl ⟨set, gone⟩)
    refine ⟨swap, fun visits y next z pull path quiet _ started => ?_⟩
    exact (following_starts (path_following (following_swap phase) path quiet) started).2 set

/-- The first update, then both requests before the first of them notifies. -/
def bothAsked : List (Label Unit Unit Unit) :=
  [.begin_, .finish 0 { sync := some (some ()), localCheck := some (), database := none }, .ask .refresh,
    .ask .publishLocal, .notify 0, .consume]

/-- When both were requested the next update publishes alone, and the refresh is pending again. -/
theorem owner_loses_no_request_both : ∃ w x : World Unit Unit Unit, w.pending = ⟨true, true⟩ ∧
    step w .swap = some x ∧
      ∀ visits y next z pull, Run.Path step x visits y → (∀ visit ∈ visits, starts visit.1 visit.2 = none) →
        step y next = some z → starts y next = some pull →
          pull = false ∧ y.pending.refresh = true ∧ y.wake = true := by
  have runs : (Run.exec step ({} : World Unit Unit Unit) bothAsked).map (fun w => (w.pending, w.phase)) =
      some (⟨true, true⟩, .notified) := rfl
  obtain ⟨w, ran, shape⟩ := Option.map_eq_some_iff.mp runs
  obtain ⟨pending, phase⟩ := Prod.mk.inj shape
  have swap : step w .swap = some { w with pending := {}, phase := w.pending.taken } := if_pos phase
  have refresh : w.pending.refresh = true := congrArg Pending.refresh pending
  have publish : w.pending.publishLocal = true := congrArg Pending.publishLocal pending
  obtain ⟨-, publishes, refreshes⟩ := owner_loses_no_request (Run.reach_of_exec ran)
  refine ⟨w, _, pending, swap, fun visits y next z pull path quiet taken started => ?_⟩
  have alone := (publishes .swap _ swap publish rfl).2 visits y next z pull path quiet taken started
  rcases (refreshes .swap _ swap refresh rfl).2 visits y next z pull path quiet taken started with pulls | again
  · rw [alone] at pulls
    cases pulls
  · exact ⟨alone, again⟩

end SiriusProxy.Owner
