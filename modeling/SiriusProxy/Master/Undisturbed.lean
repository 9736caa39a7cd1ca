import SiriusProxy.Master.Follow
import SiriusProxy.Master.Recognize

namespace SiriusProxy.Master.Git.Remote
open Ancestry Commands
variable {B : Type} {w v u : World B}

/-- The commits, the branches and the clock are the same. -/
structure Alike (w v : World B) : Prop where
  commits : v.objects.commits = w.objects.commits
  branch : v.branch = w.branch
  remote : v.remote = w.remote
  now : v.now = w.now

theorem Alike.refl : Alike w w := ⟨rfl, rfl, rfl, rfl⟩

theorem Alike.trans (first : Alike w v) (second : Alike v u) : Alike w u :=
  ⟨second.commits.trans first.commits, second.branch.trans first.branch, second.remote.trans first.remote,
    second.now.trans first.now⟩

theorem Alike.parents (alike : Alike w v) : v.parents = w.parents := by
  funext oid
  rw [World.parents, World.parents, alike.commits]

theorem Alike.grows (alike : Alike w v) : Grows w v := by
  intro oid commit there
  rw [alike.commits]
  exact there

/-- Each name has one file, so nothing is lost on the way to `hash-object`. -/
theorem length_staged {staging : String → Option B} {names : List String} {contents : List B}
    (staged : names.mapM staging = some contents) : contents.length = names.length := by
  induction names generalizing contents with
  | nil =>
    cases staged
    rfl
  | cons name names ih =>
    rw [List.mapM_cons] at staged
    obtain ⟨bytes, -, staged⟩ := Option.bind_eq_some_iff.mp staged
    obtain ⟨rest, known, same⟩ := Option.bind_eq_some_iff.mp staged
    cases same
    rw [List.length_cons, List.length_cons, ih known]

/-- A tree input fails in one way only, as a failure of Git; so which name it fails at need not be followed. -/
theorem treeInput_git {ids : Ids B} {staging : String → Option B} {names : List String} {e : Error}
    (listed : Git.treeInput ids staging names = .error e) : e = .git := by
  induction names with
  | nil => cases listed
  | cons name names ih =>
    rw [Git.treeInput] at listed
    split at listed
    · cases listed
      rfl
    split at listed
    · cases listed
      rfl
    split at listed
    · rename_i own
      cases listed
      exact ih own
    · cases listed

/-- A file that is not staged. -/
theorem treeInput_missing {ids : Ids B} {staging : String → Option B} {names : List String}
    (missing : names.mapM staging = none) : Git.treeInput ids staging names = .error .git := by
  cases listed : Git.treeInput ids staging names with
  | error e => rw [treeInput_git listed]
  | ok entries =>
    induction names generalizing entries with
    | nil => cases missing
    | cons name names ih =>
      rw [Git.treeInput] at listed
      split at listed
      · cases listed
      rename_i bytes staged
      split at listed
      · cases listed
      split at listed
      · cases listed
      rename_i own
      have failed : Git.treeInput ids staging names = .error .git := by
        rw [own]
        refine ih ?_ _ own
        rw [List.mapM_cons, staged] at missing
        cases rest : names.mapM staging with
        | none => rfl
        | some found =>
          rw [rest] at missing
          cases missing
      rw [own] at failed
      cases failed

theorem World.named {value : Option String} (known : ∀ oid, value = some oid → (w.objects.commits oid).isSome = true)
    (oid : String) (set : value = some oid) : isOid oid.toList = true := by
  obtain ⟨commit, there⟩ := Option.isSome_iff_exists.mp (known oid set)
  exact w.objects.named oid commit there

theorem forward_some {older newer : String} : Forward w.parents (some older) (some newer) ↔ Older w.parents older newer := by
  refine ⟨fun forward => ?_, .of_older⟩
  obtain ⟨found, same, path⟩ := forward older rfl
  cases same
  exact path

def commitOf : Except Failure Published → Option String
  | .ok published => some published.receipt.commit
  | .error _ => none

/-- The state behind it: a result is the commit of the branch, here and on the remote. -/
structure Settled (remote : Bool) (w : World B) (r : Except Failure Published) (v : World B) : Prop where
  grows : Grows w v
  branch : v.branch = (commitOf r).or w.branch
  remote : v.remote = if remote = true then (commitOf r).or w.remote else w.remote
  failed : ∀ e, r = .error e → v.objects.commits = w.objects.commits

theorem Settled.error {remote : Bool} {e : Failure} (alike : Alike w v) : Settled remote w (.error e) v where
  grows := alike.grows
  branch := alike.branch
  remote := by
    rw [alike.remote]
    exact (ite_self _).symm
  failed _ _ := alike.commits

theorem Settled.alike {remote : Bool} {r : Except Failure Published} (alike : Alike w v) (settled : Settled remote v r u) :
    Settled remote w r u where
  grows := alike.grows.trans settled.grows
  branch := alike.branch ▸ settled.branch
  remote := alike.remote ▸ settled.remote
  failed e same := (settled.failed e same).trans alike.commits

/-- The tree of a publication, or why there is none. -/
def treeOf (ids : Ids B) (prepared : Prepared B) : Except Error String := do
  let listed ← Git.treeInput ids prepared.staging prepared.names
  if isOid (ids.tree (mktree listed)).toList then .ok (ids.tree (mktree listed)) else .error .git

section Pure
variable {ids : Ids B} {prepared : Prepared B} {parent : Option String} {repository : Repository B} {stamp : Commit → String} {tree : String}

theorem treeInput_stamp {staging : String → Option B} (names : List String) :
    Git.treeInput { ids with commit := stamp } staging names = Git.treeInput ids staging names := by
  induction names with
  | nil => rfl
  | cons name names ih => rw [Git.treeInput, Git.treeInput, ih]

/-- A tree that is there was made of the listed names and its id is well formed. -/
theorem treeOf_ok (input : treeOf ids prepared = .ok tree) :
    ∃ listed, Git.treeInput ids prepared.staging prepared.names = .ok listed ∧ tree = ids.tree (mktree listed) ∧
      isOid tree.toList = true := by
  rw [treeOf] at input
  cases listed : Git.treeInput ids prepared.staging prepared.names with
  | error e =>
    rw [listed] at input
    cases input
  | ok entries =>
    rw [listed] at input
    change (if _ then _ else _) = _ at input
    split at input
    · rename_i named
      cases input
      exact ⟨entries, rfl, rfl, named⟩
    · cases input

/-- Without a tree there is no commit, whatever the clock says. -/
theorem commitInternal_error {e : Error} (input : treeOf ids prepared = .error e) :
    Git.commitInternal { ids with commit := stamp } prepared parent repository = .error e := by
  rw [treeOf] at input
  rw [Git.commitInternal, treeInput_stamp]
  cases listed : Git.treeInput ids prepared.staging prepared.names with
  | error e =>
    rw [listed] at input
    cases input
    rfl
  | ok entries =>
    rw [listed] at input
    change (if _ then _ else _) = _ at input
    split at input
    · cases input
    · rename_i unnamed
      cases input
      exact if_pos (by rw [Bool.not_eq_true']; exact Bool.eq_false_iff.mpr unnamed)

/-- The commit of the branch has the tree already. -/
theorem commitInternal_same {own : String} {found : Commit} (input : treeOf ids prepared = .ok found.tree)
    (set : parent = some own) (known : repository.commits own = some found) :
    Git.commitInternal { ids with commit := stamp } prepared parent repository =
      .ok ⟨own, prepared.manifest.contentSha256, false⟩ := by
  obtain ⟨entries, listed, same, named⟩ := treeOf_ok input
  rw [same] at named
  rw [Git.commitInternal, treeInput_stamp, listed]
  refine (if_neg ?_).trans ?_
  · rw [named]
    exact Bool.noConfusion
  · rw [set, Option.map_some, known]
    exact if_pos same

/-- With a tree that the branch does not have yet, the pure step makes a commit of it on top of the branch. -/
theorem commitInternal_new (input : treeOf ids prepared = .ok tree)
    (there : ∀ own, parent = some own → (repository.commits own).isSome = true)
    (different : ∀ own found, parent = some own → repository.commits own = some found → found.tree ≠ tree) :
    Git.commitInternal { ids with commit := stamp } prepared parent repository =
      if isOid (stamp (Git.commitTree prepared.manifest tree parent)).toList then
        .ok ⟨stamp (Git.commitTree prepared.manifest tree parent), prepared.manifest.contentSha256, true⟩
      else .error .git := by
  obtain ⟨entries, listed, rfl, named⟩ := treeOf_ok input
  rw [Git.commitInternal, treeInput_stamp, listed]
  have made : Git.commitInternal.create { ids with commit := stamp } prepared
      (publicationCommit { ids with commit := stamp } prepared parent entries) =
        if isOid (stamp (Git.commitTree prepared.manifest (ids.tree (mktree entries)) parent)).toList then
          .ok ⟨stamp (Git.commitTree prepared.manifest (ids.tree (mktree entries)) parent),
            prepared.manifest.contentSha256, true⟩
        else .error .git := by
    rw [Git.commitInternal.create, publicationCommit]
    cases isOid (stamp (Git.commitTree prepared.manifest (ids.tree (mktree entries)) parent)).toList with
    | false => rfl
    | true => rfl
  refine (if_neg ?_).trans ?_
  · rw [named]
    exact Bool.noConfusion
  · cases parent with
    | none => exact made
    | some own =>
      obtain ⟨found, known⟩ := Option.isSome_iff_exists.mp (there own rfl)
      rw [Option.map_some, known]
      exact (if_neg (different own found rfl known)).trans made

end Pure

def headOf : Except Failure Adoption → Option String
  | .ok adoption => some adoption.commit
  | .error _ => none

/-- The state behind an adoption: nothing but the local branch has moved. -/
structure Adopted (w : World B) (r : Except Failure Adoption) (v : World B) : Prop where
  objects : v.objects = w.objects
  now : v.now = w.now
  branch : v.branch = (headOf r).or w.branch
  remote : v.remote = w.remote

/-- What an undisturbed publication answers. -/
noncomputable def outcome (ids : Ids B) (commitId : Instant → Commit → String) (remote : Bool) (prepared : Prepared B)
    (w : World B) : Except Failure Published :=
  open Classical in
  if remote = true ∧ ¬Forward w.parents w.remote w.branch then .error .remoteChanged
  else (Git.commitInternal { ids with commit := commitId w.now } prepared w.branch w.objects).mapError .of |>.map
    fun receipt => { receipt := receipt, remoteVerified := remote }

/-- The remote is refused exactly where its branch is not in the history of the local one; none of the later errors
is this one. -/
theorem outcome_refused {ids : Ids B} {commitId : Instant → Commit → String} {prepared : Prepared B} :
    outcome ids commitId true prepared w = .error .remoteChanged ↔ ¬Forward w.parents w.remote w.branch := by
  rw [outcome]
  split
  · rename_i refused
    exact ⟨fun _ => refused.2, fun _ => rfl⟩
  · rename_i passed
    refine ⟨fun same => ?_, fun off => absurd ⟨rfl, off⟩ passed⟩
    cases answer : Git.commitInternal { ids with commit := commitId w.now } prepared w.branch w.objects with
    | error e =>
      rw [answer] at same
      cases same
    | ok receipt =>
      rw [answer] at same
      cases same

section Sample

def nextOid : String := "3b18e512dba79e4c8300dd08aeb37f8e728b8dad"

def sampleCommitId : Instant → Commit → String := fun _ _ => nextOid

def samplePublication : Prepared (Doc ⊕ Metadata) where
  manifest := sampleTarget
  staging := Function.update (Function.update (fun _ => none) "MasterA.json" (some (.inl (.table "[]" emptyTableSha))))
    publicationName (some (.inr (metadata sampleTarget)))
  names := ["MasterA.json", publicationName]

/-- A state directory that was lost: somebody has committed over the publication. -/
def lostWorld : World (Doc ⊕ Metadata) where
  objects := sampleRepository
  remote := some followerOid

def emptyWorld : World (Doc ⊕ Metadata) where
  objects := sampleRepository

/-- The remote's head is a commit that the repository knows, and the other two references are not set. -/
theorem lost_sound : lostWorld.Sound where
  branch _ off := by cases off
  check _ off := by cases off
  remote oid set := by
    cases set
    decide +kernel

theorem empty_sound : emptyWorld.Sound where
  branch _ off := by cases off
  check _ off := by cases off
  remote _ off := by cases off

theorem sample_named {w : World (Doc ⊕ Metadata)} (objects : w.objects = sampleRepository) : w.Named sampleCommitId where
  trees oid found there := by
    rw [objects] at there
    change (if _ then _ else if _ then _ else _) = _ at there
    split_ifs at there
    · cases there
      decide +kernel
    · cases there
      decide +kernel
  unique commit found there := by
    rw [objects] at there
    cases there

end Sample

section Eval
open Classical
variable (ids : Ids B) [DecidableEq B] (lib : Formats B) (commitId : Instant → Commit → String)

noncomputable abbrev run {α : Type} (p : Program B α) (w : World B) : Except Failure α × World B := eval (effect ids lib commitId) p w

variable {ids lib commitId}

theorem run_command {c : Command B} {a : c.Answer} (answer : effect ids lib commitId w c = (some a, v)) :
    run ids lib commitId (command c) w = (.ok a, v) := eval_ask git answer

theorem run_command_none {c : Command B} (answer : effect ids lib commitId w c = (none, v)) :
    run ids lib commitId (command c) w = (.error git, v) := eval_ask_none git answer

theorem run_oid {value : String} (named : isOid value.toList = true) : run ids lib commitId (oid value) w = (.ok value, w) := by
  rw [oid, if_pos named]
  rfl

theorem run_optionOid {value : Option String} (named : ∀ oid, value = some oid → isOid oid.toList = true) :
    run ids lib commitId (optionOid value) w = (.ok value, w) := by
  cases value with
  | none => rfl
  | some value =>
    rw [run, optionOid, eval_bind_ok (run_oid (named value rfl))]
    rfl

theorem run_sound {α : Type} (p : Program B α) (sound : w.Sound) : (run ids lib commitId p w).2.Sound := by
  induction p generalizing w with
  | done r => exact sound
  | call c next ih => exact ih _ (effect_sound ids lib commitId c sound)

theorem sound_of_run {α : Type} {p : Program B α} {r : Except Failure α} (sound : w.Sound)
    (same : run ids lib commitId p w = (r, v)) : v.Sound := by
  rw [← show (run ids lib commitId p w).2 = v by rw [same]]
  exact run_sound p sound

variable (ids lib commitId)

theorem run_initializeBranch (sound : w.Sound) : run ids lib commitId initializeBranch w = (.ok w.branch, w) := by
  rw [run, initializeBranch, eval_bind_ok (run_command rfl), eval_bind_ok (run_command rfl),
    eval_bind_ok (run_command rfl)]
  exact run_optionOid (World.named sound.branch)

theorem run_remoteHead (sound : w.Sound) : run ids lib commitId remoteHead w = (.ok w.remote, w) := by
  rw [run, remoteHead, eval_bind_ok (run_command rfl)]
  exact run_optionOid (World.named sound.remote)

/-- The fetch takes note of the remote's head under a reference of its own, and touches no branch. -/
theorem run_fetchRemoteCheck {head : String} (sound : w.Sound) (set : w.remote = some head) :
    run ids lib commitId (fetchRemoteCheck head) w = (.ok (), { w with check := some head }) := by
  have fetched : effect ids lib commitId w .fetch = (some (), { w with check := some head }) := by
    simp only [effect, set]
  rw [run, fetchRemoteCheck, eval_bind_ok (run_command fetched), eval_bind_ok (run_command rfl),
    eval_bind_ok (run_oid (World.named sound.remote head set)), if_pos rfl]
  rfl

theorem run_isAncestor {older newer : String} (e : Failure) :
    eval (effect ids lib commitId) (Prog.ask (A := Command.Answer) (.isAncestor older newer) e) w =
      (if Older w.parents older newer then .ok () else .error e, w) := by
  by_cases older : Older w.parents older newer
  · rw [if_pos older]
    refine eval_ask e ?_
    simp only [effect, if_pos older]
  · rw [if_neg older]
    refine eval_ask_none e ?_
    simp only [effect, if_neg older]

/-- The remote passes the check exactly where the local branch is ahead of it. -/
theorem run_checkRemote (sound : w.Sound) : ∃ v, Alike w v ∧ run ids lib commitId (checkRemote w.branch) w =
    (if Forward w.parents w.remote w.branch then .ok () else .error .remoteChanged, v) := by
  have listed := run_remoteHead ids lib commitId sound
  rw [run, checkRemote, eval_bind_ok listed]
  cases set : w.remote with
  | none =>
    refine ⟨w, .refl, ?_⟩
    rw [if_pos Forward.none]
    rfl
  | some head =>
    cases own : w.branch with
    | none =>
      refine ⟨w, .refl, ?_⟩
      rw [if_neg]
      · rfl
      · intro forward
        obtain ⟨newer, off, -⟩ := forward head rfl
        cases off
    | some parent =>
      change ∃ v, Alike w v ∧ eval _ (if head = parent then _ else _) w = _
      split
      · rename_i same
        refine ⟨w, .refl, ?_⟩
        rw [if_pos (same ▸ Forward.refl)]
        rfl
      · refine ⟨{ w with check := some head }, ⟨rfl, rfl, rfl, rfl⟩, ?_⟩
        rw [eval_bind_ok (run_fetchRemoteCheck ids lib commitId sound set), run_isAncestor, if_congr forward_some rfl rfl]
        rfl

section Tree
variable (staging : String → Option B)

/-- Undisturbed, `hash-object` writes the blobs of the given files and answers with their ids in order; the
branches stay where they are. -/
theorem run_hashObject (names : List String) : ∃ v, Alike w v ∧
    run ids lib commitId (hashObject staging names) w = ((Git.treeInput ids staging names).mapError .of, v) := by
  cases staged : names.mapM staging with
  | none =>
    refine ⟨w, .refl, ?_⟩
    rw [treeInput_missing staged, run, hashObject, eval_bind_error (run_command_none ?_)]
    · rfl
    · simp only [effect, staged]
  | some contents =>
    have answer : effect ids lib commitId w (.hashObject staging names) =
        (some (contents.map ids.blob), w.addBlobs ids contents) := by simp only [effect, staged]
    have count : (contents.map ids.blob).length = names.length := by
      rw [List.length_map]
      exact length_staged staged
    refine ⟨w.addBlobs ids contents, ⟨rfl, rfl, rfl, rfl⟩, ?_⟩
    rw [run, hashObject, eval_bind_ok (run_command answer), if_pos count, entries_blobs staged]
    rfl

/-- The calls for the chunks of the names give what one call for all of them would. By induction on the chunks;
each leaves a world that differs by blobs only, where the next begins. -/
theorem run_treeInput (chunks : List (List String)) : ∃ v, Alike w v ∧
    run ids lib commitId (treeInput staging chunks) w = ((Git.treeInput ids staging chunks.flatten).mapError .of, v) := by
  induction chunks generalizing w with
  | nil => exact ⟨w, .refl, rfl⟩
  | cons names rest ih =>
    obtain ⟨v, alike, first⟩ := run_hashObject (w := w) ids lib commitId staging names
    rw [List.flatten_cons, treeInput_append]
    cases own : Git.treeInput ids staging names with
    | error e =>
      rw [own] at first
      refine ⟨v, alike, ?_⟩
      rw [run, treeInput, eval_bind_error first]
      rfl
    | ok entries =>
      rw [own] at first
      obtain ⟨u, still, more⟩ := ih (w := v)
      refine ⟨u, alike.trans still, ?_⟩
      rw [run, treeInput, eval_bind_ok first]
      cases listed : Git.treeInput ids staging rest.flatten with
      | error e =>
        rw [listed] at more
        rw [eval_bind_error more]
        rfl
      | ok found =>
        rw [listed] at more
        rw [eval_bind_ok more]
        rfl

end Tree

/-- Undisturbed, the tree that is written is the one that the pure step computes, or its error is the same. -/
theorem run_writeTree (prepared : Prepared B) : ∃ v, Alike w v ∧
    run ids lib commitId (writeTree prepared) w = ((treeOf ids prepared).mapError .of, v) := by
  obtain ⟨v, alike, input⟩ := run_treeInput (w := w) ids lib commitId prepared.staging
    (Cbc.chunks 64 ((prepared.names.length + 63) / 64) prepared.names)
  rw [chunks_cover] at input
  rw [treeOf]
  cases listed : Git.treeInput ids prepared.staging prepared.names with
  | error e =>
    rw [listed] at input
    refine ⟨v, alike, ?_⟩
    rw [run, writeTree, eval_bind_error input]
    rfl
  | ok entries =>
    rw [listed] at input
    refine ⟨v.addTree ids (mktree entries), alike.trans ⟨rfl, rfl, rfl, rfl⟩, ?_⟩
    rw [run, writeTree, eval_bind_ok input, eval_bind_ok (run_command rfl), oid]
    change eval _ (if _ then _ else _) _ = (Except.mapError Failure.of (if _ then _ else _), _)
    split
    · rfl
    · rfl

/-- The end of a publication whose commit is on the branch. -/
theorem run_finish (remote : Bool) (receipt : Receipt) (sound : w.Sound) (set : w.branch = some receipt.commit)
    (forward : remote = true → Forward w.parents w.remote w.branch) : ∃ v, v.objects = w.objects ∧ v.branch = w.branch ∧
      v.remote = (if remote = true then some receipt.commit else w.remote) ∧
        run ids lib commitId (finish remote receipt) w = (.ok { receipt := receipt, remoteVerified := remote }, v) := by
  cases remote with
  | false => exact ⟨w, rfl, rfl, rfl, rfl⟩
  | true =>
    have pushed : effect ids lib commitId w (.push receipt.commit) =
        (some (), { w with remote := some receipt.commit }) := by
      simp only [effect]
      exact if_pos ⟨sound.branch _ set, set ▸ forward rfl⟩
    refine ⟨{ w with remote := some receipt.commit }, rfl, rfl, rfl, ?_⟩
    have behind := sound_of_run sound (run_command pushed)
    rw [run, finish, if_pos rfl, eval_bind_ok (run_command pushed), eval_bind_ok (run_remoteHead ids lib commitId behind), if_pos rfl]
    rfl

/-- The new commit, the update of the branch and the push. Nobody has moved either branch, so both comparisons
succeed, and what is left is the case of an id that is not well formed, where nothing has been moved. -/
theorem run_create (remote : Bool) (manifest : PublishedManifest) (tree : String) (sound : w.Sound)
    (forward : remote = true → Forward w.parents w.remote w.branch)
    (unique : ∀ commit found, w.objects.commits (commitId w.now commit) = some found → found = commit) :
    ∃ v, run ids lib commitId (create remote manifest tree w.branch) w =
      (if isOid (commitId w.now (Git.commitTree manifest tree w.branch)).toList then
        .ok ⟨⟨commitId w.now (Git.commitTree manifest tree w.branch), manifest.contentSha256, true⟩, remote⟩
      else .error git, v) ∧ Settled remote w
        (if isOid (commitId w.now (Git.commitTree manifest tree w.branch)).toList then
          .ok ⟨⟨commitId w.now (Git.commitTree manifest tree w.branch), manifest.contentSha256, true⟩, remote⟩
        else .error git) v := by
  by_cases named : isOid (commitId w.now (Git.commitTree manifest tree w.branch)).toList = true
  · rw [if_pos named]
    have fits : w.Fits (commitId w.now (Git.commitTree manifest tree w.branch)) (Git.commitTree manifest tree w.branch) := {
      named := named
      known := fun parent member => sound.branch parent (Option.mem_toList.mp member)
      own := unique _ }
    generalize made : commitId w.now (Git.commitTree manifest tree w.branch) = oid at named fits ⊢
    have commit : effect ids lib commitId w (.commitTree manifest tree w.branch) =
        (some oid, w.addCommit oid (Git.commitTree manifest tree w.branch) fits) := by
      subst made
      simp only [effect]
      exact dif_pos fits
    have known := addCommit_known fits
    have grows : Grows w (w.addCommit oid (Git.commitTree manifest tree w.branch) fits) := .addCommit fits
    have sounder := sound_of_run sound (run_command commit)
    have swapped : effect ids lib commitId (w.addCommit oid (Git.commitTree manifest tree w.branch) fits)
        (.updateRef oid w.branch) = (some (), { w.addCommit oid (Git.commitTree manifest tree w.branch) fits with branch := some oid }) := by
      simp only [effect]
      refine if_pos ⟨rfl, ?_⟩
      rw [known]
      rfl
    have moved := sound_of_run sounder (run_command swapped)
    have onward : Forward (w.addCommit oid (Git.commitTree manifest tree w.branch) fits).parents w.branch (some oid) :=
      forward_commit known rfl
    obtain ⟨v, objects, branch, remotes, finished⟩ := run_finish ids lib commitId remote
      ⟨oid, manifest.contentSha256, true⟩ moved rfl
      fun there => ((forward there).mono grows.extends).trans onward
    refine ⟨v, ?_, ?_⟩
    · rw [run, create, eval_bind_ok (run_command commit), eval_bind_ok (run_oid named), advance,
        eval_bind_ok (run_command swapped)]
      exact finished
    · refine ⟨fun o c there => ?_, branch, ?_, fun e off => by cases off⟩
      · rw [objects]
        exact grows o c there
      · rw [remotes]
        rfl
  · rw [if_neg named]
    have failed : effect ids lib commitId w (.commitTree manifest tree w.branch) = (none, w) := by
      simp only [effect]
      exact dif_neg fun fits => named fits.named
    refine ⟨w, ?_, .error .refl⟩
    rw [run, create, eval_bind_error (run_command_none failed)]

/-- The branch has this tree already. The commit is reported as unchanged, and with a remote the remote branch is
brought to it, which is a step forward. -/
theorem run_record_same (remote : Bool) (manifest : PublishedManifest) {own : String} {found : Commit} (sound : w.Sound)
    (forward : remote = true → Forward w.parents w.remote w.branch) (set : w.branch = some own)
    (known : w.objects.commits own = some found) (named : isOid found.tree.toList = true) :
    ∃ v, run ids lib commitId (record remote manifest found.tree w.branch) w =
      (.ok ⟨⟨own, manifest.contentSha256, false⟩, remote⟩, v) ∧
        Settled remote w (.ok ⟨⟨own, manifest.contentSha256, false⟩, remote⟩) v := by
  have read : effect ids lib commitId w (.revParseTree own) = (some found.tree, w) := by
    simp only [effect, known]
    rfl
  obtain ⟨v, objects, branch, remotes, finished⟩ := run_finish ids lib commitId remote
    ⟨own, manifest.contentSha256, false⟩ sound set forward
  refine ⟨v, ?_, ?_⟩
  · rw [run, set, record, eval_bind_ok (run_command read), eval_bind_ok (run_oid named), if_pos rfl]
    exact finished
  · refine ⟨fun o c there => ?_, branch.trans set, ?_, fun e off => by cases off⟩
    · rw [objects]
      exact there
    · rw [remotes]
      rfl

/-- A tree that the branch does not have goes on to a new commit. -/
theorem run_record_new {remote : Bool} {manifest : PublishedManifest} {tree : String} (sound : w.Sound)
    (trees : ∀ own found, w.branch = some own → w.objects.commits own = some found → isOid found.tree.toList = true)
    (different : ∀ own found, w.branch = some own → w.objects.commits own = some found → found.tree ≠ tree) :
    run ids lib commitId (record remote manifest tree w.branch) w =
      run ids lib commitId (create remote manifest tree w.branch) w := by
  cases set : w.branch with
  | none => rfl
  | some own =>
    obtain ⟨found, known⟩ := Option.isSome_iff_exists.mp (sound.branch own set)
    have read : effect ids lib commitId w (.revParseTree own) = (some found.tree, w) := by
      simp only [effect, known]
      rfl
    rw [run, record, eval_bind_ok (run_command read), eval_bind_ok (run_oid (trees own found set known)),
      if_neg (different own found set known)]

/-- An undisturbed publication is refused where the remote is not behind the local branch, and is one atomic
commit otherwise. -/
theorem publication_refines (remote : Bool) (prepared : Prepared B) (sound : w.Sound) (named : w.Named commitId) :
    ∃ v, run ids lib commitId (commitInternal remote prepared) w = (outcome ids commitId remote prepared w, v) ∧
      Settled remote w (outcome ids commitId remote prepared w) v := by
  rw [run, commitInternal, eval_bind_ok (run_initializeBranch ids lib commitId sound)]
  obtain ⟨c, checked, check⟩ := run_checkRemote ids lib commitId sound
  by_cases refused : remote = true ∧ ¬Forward w.parents w.remote w.branch
  · rw [if_neg refused.2] at check
    rw [outcome, if_pos refused, if_pos refused.1, eval_bind_error check]
    exact ⟨c, rfl, .error checked⟩
  · have forward : remote = true → Forward w.parents w.remote w.branch := by
      intro there
      by_contra off
      exact refused ⟨there, off⟩
    rw [outcome, if_neg refused]
    have passed : ∃ v, Alike w v ∧ run ids lib commitId (if remote = true then checkRemote w.branch else pure ()) w = (.ok (), v) := by
      cases remote with
      | false => exact ⟨w, .refl, rfl⟩
      | true =>
        rw [if_pos (forward rfl)] at check
        exact ⟨c, checked, check⟩
    obtain ⟨v, passed, first⟩ := passed
    rw [eval_bind_ok first]
    obtain ⟨u, written, second⟩ := run_writeTree (w := v) ids lib commitId prepared
    have alike := passed.trans written
    have behind := sound_of_run (sound_of_run sound first) second
    cases input : treeOf ids prepared with
    | error e =>
      rw [input] at second
      rw [eval_bind_error second, commitInternal_error input]
      exact ⟨u, rfl, .error alike⟩
    | ok tree =>
      rw [input] at second
      rw [eval_bind_ok second]
      have onward : remote = true → Forward u.parents u.remote u.branch := by
        rw [alike.parents, alike.remote, alike.branch]
        exact forward
      by_cases same : ∃ own found, w.branch = some own ∧ w.objects.commits own = some found ∧ found.tree = tree
      · obtain ⟨own, found, set, known, rfl⟩ := same
        obtain ⟨t, ended, settled⟩ := run_record_same ids lib commitId remote
          prepared.manifest behind onward (alike.branch.trans set) (alike.commits ▸ known) (named.trees own found known)
        rw [commitInternal_same input set known]
        rw [alike.branch] at ended
        exact ⟨t, ended, settled.alike alike⟩
      · have different : ∀ own found, w.branch = some own → w.objects.commits own = some found → found.tree ≠ tree :=
          fun own found set known off => same ⟨own, found, set, known, off⟩
        obtain ⟨t, ended, settled⟩ := run_create ids lib commitId remote
          prepared.manifest tree behind onward (by rw [alike.now, alike.commits]; exact named.unique)
        rw [← run_record_new ids lib commitId behind (by rw [alike.commits]; exact fun own found _ known => named.trees own found known)
          (by rw [alike.branch, alike.commits]; exact different)] at ended
        rw [commitInternal_new input sound.branch different]
        rw [alike.branch, alike.now] at ended settled
        have answer : ((if isOid (commitId w.now (Git.commitTree prepared.manifest tree w.branch)).toList then
            .ok ⟨commitId w.now (Git.commitTree prepared.manifest tree w.branch), prepared.manifest.contentSha256, true⟩
          else .error .git : Except Error Receipt).mapError Failure.of).map (fun receipt => Published.mk receipt remote) =
            if isOid (commitId w.now (Git.commitTree prepared.manifest tree w.branch)).toList then
              .ok ⟨⟨commitId w.now (Git.commitTree prepared.manifest tree w.branch), prepared.manifest.contentSha256, true⟩, remote⟩
            else .error git := by
          split
          · rfl
          · rfl
        rw [answer]
        exact ⟨t, ended, settled.alike alike⟩

/-- The publication, when nothing is there. -/
def samplePublished : Published := ⟨⟨nextOid, sampleTarget.contentSha256, true⟩, true⟩

/-- The pure step publishes the sample's commit into an empty world. -/
theorem sample_outcome : outcome sampleIds sampleCommitId true samplePublication emptyWorld = .ok samplePublished := by
  have listed : treeOf sampleIds samplePublication = .ok treeOid := by decide +kernel
  rw [outcome, if_neg (fun refused => refused.2 Forward.none), commitInternal_new listed empty_sound.branch]
  · decide +kernel
  · intro own found off
    cases off

/-- With nothing there, the publication is one commit of its files, here and on the remote. -/
theorem publication_refines_sample : ∃ u,
    run sampleIds sampleFormats sampleCommitId (commitInternal true samplePublication) emptyWorld = (.ok samplePublished, u) ∧
      u.branch = some nextOid ∧ u.remote = some nextOid := by
  obtain ⟨u, ran, settled⟩ :=
    publication_refines sampleIds sampleFormats sampleCommitId true samplePublication empty_sound (sample_named rfl)
  rw [sample_outcome] at ran settled
  exact ⟨u, ran, settled.branch, settled.remote⟩

section Adoption
variable (scope : Scope) (layout : Layout)

/-- What an undisturbed adoption answers of the head of the remote. -/
def following (lib : Formats B) (scope : Scope) (layout : Layout) (w : World B) (head : String) : Except Failure Adoption :=
  match Git.recognize lib w.objects scope layout head with
  | .error e => .error (.of e)
  | .ok (publication, version) =>
    .ok { commit := head, previous := w.branch, adopted := true, publication := some publication, version := some version }

/-- What an undisturbed adoption answers. -/
noncomputable def adoption (lib : Formats B) (scope : Scope) (layout : Layout) (w : World B) : Except Failure Adoption :=
  open Classical in
  match w.remote with
  | none => .error (.of .notAdoptable)
  | some head =>
    if Forward w.parents (some head) w.branch then .ok (unchanged w.branch (w.branch.getD head))
    else if Forward w.parents w.branch (some head) then following lib scope layout w head
    else .error .remoteChanged

/-- Undisturbed, `merge-base` decides the question about the history that is there. -/
theorem run_ancestor {older newer : String} :
    run ids lib commitId (ancestor older newer) w = (.ok (decide (Older w.parents older newer)), w) := by
  by_cases older : Older w.parents older newer
  · rw [decide_eq_true older]
    simp only [run, ancestor, Prog.attempt, bind, Prog.bind, eval, effect, if_pos older]
    rfl
  · rw [decide_eq_false older]
    simp only [run, ancestor, Prog.attempt, bind, Prog.bind, eval, effect, if_neg older]
    rfl

/-- Undisturbed, an adoption of this head ends as the pure definition says: recognised and advanced to, or refused
with the branch where it was. -/
theorem run_follow {head : String} (there : (w.objects.commits head).isSome = true) :
    ∃ v, run ids lib commitId (follow scope layout w.branch head) w = (following lib scope layout w head, v) ∧
      Adopted w (following lib scope layout w head) v := by
  have read : effect ids lib commitId w (.recognize scope layout head) =
      (some (Git.recognize lib w.objects scope layout head), w) := rfl
  rw [run, follow, eval_bind_ok (run_command read), following]
  cases Git.recognize lib w.objects scope layout head with
  | error e =>
    refine ⟨w, ?_, ⟨rfl, rfl, rfl, rfl⟩⟩
    rfl
  | ok found =>
    have swapped : effect ids lib commitId w (.updateRef head w.branch) = (some (), { w with branch := some head }) := by
      simp only [effect]
      exact if_pos ⟨trivial, there⟩
    refine ⟨{ w with branch := some head }, ?_, ⟨rfl, rfl, rfl, rfl⟩⟩
    change eval _ (advance head w.branch >>= _) w = _
    rw [advance, eval_bind_ok (run_command swapped)]
    rfl

theorem adoption_head {head : String} (set : w.remote = some head) : adoption lib scope layout w =
    if Forward w.parents (some head) w.branch then .ok (unchanged w.branch (w.branch.getD head))
    else if Forward w.parents w.branch (some head) then following lib scope layout w head
    else .error .remoteChanged := by
  rw [adoption, set]

/-- The three cases of a fetched head, each with the answer of the pure definition. Neither of the two questions
changes the world, so they are asked of the same history. -/
theorem run_adoptFetched {head : String} (sound : w.Sound) (set : w.remote = some head) :
    ∃ v, run ids lib commitId (adoptFetched scope layout w.branch head) w = (adoption lib scope layout w, v) ∧
      Adopted w (adoption lib scope layout w) v := by
  classical
  obtain ⟨v, followed, adopted⟩ := run_follow ids lib commitId scope layout (sound.remote head set)
  rw [adoption_head lib scope layout set]
  cases own : w.branch with
  | none =>
    have ahead : ¬Forward w.parents (some head) none := by
      intro forward
      obtain ⟨newer, off, -⟩ := forward head rfl
      cases off
    rw [if_neg ahead, if_pos Forward.none]
    rw [own] at followed
    exact ⟨v, followed, adopted⟩
  | some parent =>
    rw [run, adoptFetched, eval_bind_ok (run_ancestor ids lib commitId)]
    by_cases behind : Older w.parents head parent
    · rw [if_pos (decide_eq_true behind), if_pos (forward_some.mpr behind)]
      exact ⟨w, rfl, ⟨rfl, rfl, own, rfl⟩⟩
    · rw [if_neg (mt of_decide_eq_true behind), if_neg (mt forward_some.mp behind), eval_bind_ok (run_ancestor ids lib commitId)]
      by_cases ahead : Older w.parents parent head
      · rw [if_pos (decide_eq_true ahead), if_pos (forward_some.mpr ahead)]
        rw [own] at followed
        exact ⟨v, followed, adopted⟩
      · rw [if_neg (mt of_decide_eq_true ahead), if_neg (mt forward_some.mp ahead)]
        exact ⟨w, rfl, ⟨rfl, rfl, rfl, rfl⟩⟩

/-- An undisturbed adoption follows the remote exactly where the local branch is behind it. -/
theorem adoption_refines (sound : w.Sound) : ∃ v, run ids lib commitId (adopt scope layout) w =
    (adoption lib scope layout w, v) ∧ Adopted w (adoption lib scope layout w) v := by
  rw [run, adopt, eval_bind_ok (run_initializeBranch ids lib commitId sound), eval_bind_ok (run_remoteHead ids lib commitId sound)]
  cases set : w.remote with
  | none =>
    rw [adoption, set]
    exact ⟨w, rfl, ⟨rfl, rfl, rfl, rfl⟩⟩
  | some head =>
    change ∃ v, eval _ (if w.branch = some head then _ else _) w = _ ∧ _
    by_cases same : w.branch = some head
    · rw [if_pos same, adoption_head lib scope layout set, if_pos (same ▸ Forward.refl)]
      refine ⟨w, ?_, ⟨rfl, rfl, ?_, rfl⟩⟩
      · rw [same]
        rfl
      · rw [same]
        rfl
    · have fetched := run_fetchRemoteCheck ids lib commitId sound set
      obtain ⟨v, answered, adopted⟩ := run_adoptFetched
        (w := { w with check := some head }) ids lib commitId scope layout (sound_of_run sound fetched) set
      rw [if_neg same, eval_bind_ok fetched]
      exact ⟨v, answered, ⟨adopted.objects, adopted.now, adopted.branch, adopted.remote⟩⟩

/-- A publication that is refused for the remote is mended by an adoption exactly where the remote is ahead of
the local branch, or there is none, and has a publication that is recognised. -/
theorem adoption_mends {prepared : Prepared B} (sound : w.Sound) (named : w.Named commitId)
    (refused : (run ids lib commitId (commitInternal true prepared) w).1 = .error .remoteChanged) :
    (run ids lib commitId (commitInternal true prepared) (run ids lib commitId (adopt scope layout) w).2).1 ≠
      .error .remoteChanged ↔
        ∃ head found, w.remote = some head ∧ Forward w.parents w.branch (some head) ∧
          Git.recognize lib w.objects scope layout head = .ok found := by
  obtain ⟨t, ran, -⟩ := publication_refines ids lib commitId true prepared sound named
  rw [ran] at refused
  have diverged := outcome_refused.mp refused
  obtain ⟨u, followed, adopted⟩ := adoption_refines ids lib commitId scope layout sound
  have again : u.Named commitId := by
    refine ⟨?_, ?_⟩
    · rw [adopted.objects]
      exact named.trees
    · rw [adopted.objects, adopted.now]
      exact named.unique
  obtain ⟨v, retried, -⟩ := publication_refines ids lib commitId true prepared
    (sound_of_run sound followed) again
  have parents : u.parents = w.parents := by
    funext oid
    rw [World.parents, World.parents, adopted.objects]
  rw [followed, retried, ne_eq, outcome_refused, not_not, parents, adopted.remote, adopted.branch]
  cases set : w.remote with
  | none =>
    rw [set] at diverged
    exact absurd Forward.none diverged
  | some head =>
    rw [set] at diverged
    rw [adoption_head lib scope layout set, if_neg diverged]
    by_cases ahead : Forward w.parents w.branch (some head)
    · rw [if_pos ahead, following]
      cases read : Git.recognize lib w.objects scope layout head with
      | error e =>
        refine ⟨fun forward => absurd forward diverged, ?_⟩
        rintro ⟨_, found, ⟨⟩, -, off⟩
        cases read.symm.trans off
      | ok found => exact ⟨fun _ => ⟨head, found, rfl, ahead, read⟩, fun _ => .refl⟩
    · rw [if_neg ahead]
      refine ⟨fun forward => absurd forward diverged, ?_⟩
      rintro ⟨_, found, ⟨⟩, forward, -⟩
      exact absurd forward ahead

/-- The lost state directory takes the publication of the remote over, and publishes again. -/
theorem adoption_mends_sample : (run sampleIds sampleFormats sampleCommitId (commitInternal true samplePublication)
    (run sampleIds sampleFormats sampleCommitId (adopt sampleScope .native) lostWorld).2).1 ≠ .error .remoteChanged := by
  obtain ⟨u, ran, -⟩ := publication_refines sampleIds sampleFormats sampleCommitId true samplePublication lost_sound (sample_named rfl)
  have ahead : ¬Forward lostWorld.parents lostWorld.remote lostWorld.branch := by
    intro forward
    obtain ⟨newer, off, -⟩ := forward followerOid rfl
    cases off
  have refused : (run sampleIds sampleFormats sampleCommitId (commitInternal true samplePublication) lostWorld).1 =
      .error .remoteChanged := by
    rw [ran]
    exact outcome_refused.mpr ahead
  have read : (recognize sampleFormats lostWorld.objects sampleScope .native followerOid).toOption.isSome = true := by
    decide +kernel
  refine (adoption_mends sampleIds sampleFormats sampleCommitId sampleScope .native lost_sound (sample_named rfl) refused).mpr ⟨followerOid, ?_⟩
  cases found : recognize sampleFormats lostWorld.objects sampleScope .native followerOid with
  | error e =>
    rw [found] at read
    cases read
  | ok publication => exact ⟨publication, rfl, Forward.none, rfl⟩

end Adoption

end Eval

end SiriusProxy.Master.Git.Remote
