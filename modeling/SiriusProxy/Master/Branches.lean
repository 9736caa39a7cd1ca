import SiriusProxy.Master.Undisturbed

namespace SiriusProxy.Master.Git.Remote
open Ancestry Commands Relation
variable {B : Type} {w v u t : World B} {polite : Bool}

/-- No commit changes, the local branch moves only forward, and with polite others so does the remote. -/
structure Onward (polite : Bool) (w v : World B) : Prop where
  grows : Grows w v
  branch : Forward v.parents w.branch v.branch
  remote : polite = true → Forward v.parents w.remote v.remote

theorem Onward.refl : Onward polite w w := ⟨.refl, .refl, fun _ => .refl⟩

theorem Onward.trans (first : Onward polite w v) (second : Onward polite v u) : Onward polite w u where
  grows := first.grows.trans second.grows
  branch := (first.branch.mono second.grows.extends).trans second.branch
  remote nice := ((first.remote nice).mono second.grows.extends).trans (second.remote nice)

theorem Onward.steps {step : World B → World B → Prop} (each : ∀ a b, step a b → Onward polite a b)
    (path : ReflTransGen step w v) : Onward polite w v := by
  induction path with
  | refl => exact .refl
  | tail _ last ih => exact ih.trans (each _ _ last)

theorem Elsewhere.onward (others : Elsewhere polite w v) : Onward polite w v := by
  refine ⟨others.grows, ?_, others.forward⟩
  rw [others.branch]
  exact .refl

section Once
variable {ids : Ids B} {prepared : Prepared B}

theorem Extended.later (extended : Extended ids prepared w v) (grows : Grows v u) (same : u.branch = v.branch) :
    Extended ids prepared w u := by
  obtain ⟨oid, commit, set, known, rest⟩ := extended
  exact ⟨oid, commit, same.trans set, grows _ _ known, rest⟩

/-- A branch that has the files already gets no other commit with them. -/
theorem published_once (path : ReflTransGen (fun a b => Elsewhere polite a b ∨ Publishes ids prepared a b) w v) :
    Grows w v ∧ (v.branch = w.branch ∨ Extended ids prepared w v) := by
  induction path with
  | refl => exact ⟨.refl, .inl rfl⟩
  | tail _ last ih =>
    obtain ⟨grows, moved⟩ := ih
    rcases last with others | own
    · refine ⟨grows.trans others.grows, ?_⟩
      rcases moved with same | extended
      · exact .inl (others.branch.trans same)
      · exact .inr (extended.later others.grows others.branch)
    · refine ⟨grows.trans own.grows, ?_⟩
      rcases moved with same | extended
      · rcases own.branch with still | more
        · exact .inl (still.trans same)
        · obtain ⟨oid, commit, set, known, parents, has, without⟩ := more
          refine .inr ⟨oid, commit, set, known, same ▸ parents, has, fun own found there exact => ?_⟩
          exact without own found (same.trans there) (grows own found exact)
      · rcases own.branch with still | more
        · exact .inr (extended.later own.grows still)
        · obtain ⟨oid, commit, set, known, -, has, -⟩ := extended
          obtain ⟨-, -, -, -, -, -, without⟩ := more
          exact absurd has (without oid commit set known)

end Once

section Sample

/-- The publication goes through and leaves both branches on its commit. -/
theorem sample_ran : ∃ u, Runs (effect sampleIds sampleFormats sampleCommitId) (Elsewhere true)
    (commitInternal true samplePublication) emptyWorld (.ended (.ok samplePublished)) u ∧
      u.branch = some nextOid ∧ u.remote = some nextOid := by
  obtain ⟨u, ran, settled⟩ :=
    publication_refines sampleIds sampleFormats sampleCommitId true samplePublication empty_sound (sample_named rfl)
  rw [sample_outcome] at ran settled
  have done := Runs.eval (effect sampleIds sampleFormats sampleCommitId) (Elsewhere true)
    (commitInternal true samplePublication) emptyWorld
  rw [run] at ran
  rw [ran] at done
  exact ⟨u, done, settled.branch, settled.remote⟩

end Sample

section Runs
variable {ids : Ids B} [DecidableEq B] {lib : Formats B} {commitId : Instant → Commit → String} {prepared : Prepared B}
  {remote : Bool}

theorem sound_run {α : Type} {p : Program B α} {o : Commands.Outcome Failure α}
    (ran : Runs (effect ids lib commitId) (Elsewhere polite) p w o v) (sound : w.Sound) : v.Sound :=
  ran.invariant sound (fun _ _ others held => others.sound held) fun _ c held => effect_sound ids lib commitId c held

theorem publication_path {o : Commands.Outcome Failure Published} (sound : w.Sound)
    (ran : Runs (effect ids lib commitId) (Elsewhere polite) (commitInternal remote prepared) w o v) :
    ReflTransGen (fun a b => Elsewhere polite a b ∨ Publishes ids prepared a b) w v ∧
      ∀ published, o = .ended (.ok published) → Landed ids polite remote prepared w.branch published v := by
  obtain ⟨path, post⟩ := ran.sound (Ensures.commitInternal w sound rfl)
  exact ⟨path, fun published same => (post _ same).2 published rfl⟩

theorem Activity.onward (activity : Activity ids lib commitId polite w v) (sound : w.Sound) :
    v.Sound ∧ Onward polite w v := by
  cases activity with
  | elsewhere others => exact ⟨others.sound sound, others.onward⟩
  | publish ran =>
    refine ⟨sound_run ran sound, Onward.steps ?_ (publication_path sound ran).1⟩
    rintro a b (others | own)
    · exact others.onward
    · exact ⟨own.grows, own.forward, fun _ => own.remote_forward⟩
  | adopt ran =>
    refine ⟨sound_run ran sound, Onward.steps ?_ (ran.sound (Ensures.adopt w sound rfl)).1⟩
    rintro a b (others | own)
    · exact others.onward
    · refine ⟨own.grows, own.branch, fun _ => ?_⟩
      rw [own.remote]
      exact .refl

/-- Whatever is published, adopted, lost, stopped or done elsewhere, in any order. -/
theorem branches_forward (path : ReflTransGen (Activity ids lib commitId polite) w v) (sound : w.Sound) :
    v.Sound ∧ Onward polite w v := by
  induction path with
  | refl => exact ⟨sound, .refl⟩
  | tail _ last ih =>
    obtain ⟨known, onward⟩ := ih
    obtain ⟨still, more⟩ := last.onward known
    exact ⟨still, onward.trans more⟩

theorem branches_forward_sample : ∃ u : World (Doc ⊕ Metadata), u.branch = some nextOid ∧ u.remote = some nextOid ∧
    u.Sound ∧ Onward true emptyWorld u := by
  obtain ⟨u, ran, branch, there⟩ := sample_ran
  exact ⟨u, branch, there, branches_forward (.single (.publish ran)) empty_sound⟩

/-- A publication that ended well stays in the history of the local branch, and of the remote as far as others
are polite. -/
theorem publication_stays {published : Published} (before : ReflTransGen (Activity ids lib commitId polite) w v) (sound : w.Sound)
    (ran : Runs (effect ids lib commitId) (Elsewhere polite) (commitInternal remote prepared) v (.ended (.ok published)) u)
    (after : ReflTransGen (Activity ids lib commitId polite) u t) :
    Landed ids polite remote prepared v.branch published u ∧
      (∃ commit, t.objects.commits published.receipt.commit = some commit ∧ Has ids prepared commit) ∧
      (∃ own, t.branch = some own ∧ Older t.parents published.receipt.commit own) ∧
      (polite = true → remote = true → ∃ head, t.remote = some head ∧ Older t.parents published.receipt.commit head) := by
  have begun := (branches_forward before sound).1
  have landed := (publication_path begun ran).2 published rfl
  have onward := (branches_forward after (sound_run ran begun)).2
  obtain ⟨commit, known, has, -⟩ := landed.files
  refine ⟨landed, ⟨commit, onward.grows _ _ known, has⟩, onward.branch _ landed.branch, fun nice there => ?_⟩
  obtain ⟨head, set, older⟩ := landed.there nice there
  obtain ⟨newer, now, path⟩ := onward.remote nice head set
  exact ⟨newer, now, (older.mono onward.grows.extends).trans path⟩

theorem publication_stays_sample : ∃ u : World (Doc ⊕ Metadata), u.branch = some nextOid ∧
    ∃ head, u.remote = some head ∧ Older u.parents nextOid head := by
  obtain ⟨u, ran, -, -⟩ := sample_ran
  obtain ⟨landed, -, -, there⟩ := publication_stays .refl empty_sound ran .refl
  exact ⟨u, landed.branch, there rfl rfl⟩

/-- A publication of one snapshot that is tried, or something elsewhere. -/
def Attempt (ids : Ids B) (lib : Formats B) (commitId : Instant → Commit → String) (polite : Bool) (prepared : Prepared B)
    (w v : World B) : Prop :=
  Elsewhere polite w v ∨ ∃ remote o, Runs (effect ids lib commitId) (Elsewhere polite) (commitInternal remote prepared) w o v

/-- However often the publication of a snapshot is interrupted and tried again, the local branch gets at most one
commit, on top of where it was. -/
theorem retried_once (path : ReflTransGen (Attempt ids lib commitId polite prepared) w v) (sound : w.Sound) :
    v.branch = w.branch ∨ Extended ids prepared w v := by
  have whole : v.Sound ∧ ReflTransGen (fun a b => Elsewhere polite a b ∨ Publishes ids prepared a b) w v := by
    induction path with
    | refl => exact ⟨sound, .refl⟩
    | tail _ last ih =>
      obtain ⟨known, path⟩ := ih
      rcases last with others | ⟨remote, o, ran⟩
      · exact ⟨others.sound known, path.tail (.inl others)⟩
      · exact ⟨sound_run ran known, path.trans (publication_path known ran).1⟩
  exact (published_once whole.2).2

/-- Stopped at once, then done: the branch has the one commit. -/
theorem retried_once_sample : ∃ u : World (Doc ⊕ Metadata),
    u.branch = some nextOid ∧ Extended sampleIds samplePublication emptyWorld u := by
  obtain ⟨u, ran, branch, -⟩ := sample_ran
  have stopped : Attempt sampleIds sampleFormats sampleCommitId true samplePublication emptyWorld emptyWorld :=
    .inr ⟨true, .stopped, .stop⟩
  have done : Attempt sampleIds sampleFormats sampleCommitId true samplePublication emptyWorld u := .inr ⟨true, _, ran⟩
  rcases retried_once (ReflTransGen.head stopped (.single done)) empty_sound with still | extended
  · rw [still] at branch
    cases branch
  · exact ⟨u, branch, extended⟩

end Runs

end SiriusProxy.Master.Git.Remote
