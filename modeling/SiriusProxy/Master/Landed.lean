import SiriusProxy.Master.Forward

namespace SiriusProxy.Master.Git.Remote
open Ancestry Commands Relation
variable {B : Type} {w v u : World B} {polite : Bool}

section Moves
variable {ids : Ids B} {prepared : Prepared B}

theorem Publishes.calm : Calm (Publishes ids prepared) := fun _ _ grows branch remote => ⟨grows, .inl branch, .inl remote⟩

theorem Has.same {c d : Commit} (has : Has ids prepared c) (tree : d.tree = c.tree) : Has ids prepared d := by
  obtain ⟨listed, input, own⟩ := has
  exact ⟨listed, input, tree.trans own⟩

/-- Two commits with the files of one publication have one tree. -/
theorem Has.tree {c d : Commit} (first : Has ids prepared c) (second : Has ids prepared d) : c.tree = d.tree := by
  obtain ⟨listed, input, own⟩ := first
  obtain ⟨found, again, same⟩ := second
  cases input.symm.trans again
  rw [own, same]

theorem Extended.forward (extended : Extended ids prepared w v) : Forward v.parents w.branch v.branch := by
  obtain ⟨oid, commit, set, known, parents, -, -⟩ := extended
  rw [set]
  exact forward_commit known parents

/-- The local branch goes forward: to a commit made on top of it, or not at all. -/
theorem Publishes.forward (publishes : Publishes ids prepared w v) : Forward v.parents w.branch v.branch := by
  rcases publishes.branch with same | extended
  · rw [same]
    exact .refl
  · exact extended.forward

/-- The remote branch goes forward as well, as the push is refused wherever it would not. -/
theorem Publishes.remote_forward (publishes : Publishes ids prepared w v) : Forward v.parents w.remote v.remote := by
  rcases publishes.remote with same | ⟨-, forward⟩
  · rw [same]
    exact .refl
  · exact forward

end Moves

section Publication
variable {ids : Ids B} [DecidableEq B] {lib : Formats B} {commitId : Instant → Commit → String}
  {K : World B → World B → Prop} {P : World B → Prop} {prepared : Prepared B} {tree : String} {parent : Option String}
  {remote : Bool}

namespace Ensures

section Tree
variable (calm : Calm K) (lasting : Lasting P)
include calm lasting

/-- Whatever others do meanwhile, `hash-object` answers with the ids of the staged files; blobs are determined by
their content, so there is nothing that a step of others could change. -/
theorem hashObject {staging : String → Option B} {names : List String} :
    Ensures ids lib commitId polite K P (Remote.hashObject staging names) fun found w =>
      Git.treeInput ids staging names = .ok found ∧ P w := by
  have answered : Ensures ids lib commitId polite K P (Remote.command (.hashObject staging names))
      fun (hashes : List String) w => (∃ contents, names.mapM staging = some contents ∧ hashes = contents.map ids.blob) ∧ P w := by
    refine plain calm rfl lasting.stable (fun _ => (Stable.const _).both lasting.stable) fun w hashes _ held answer => ?_
    refine ⟨?_, lasting.quiet rfl held⟩
    simp only [effect] at answer
    split at answer
    · rename_i contents staged
      exact ⟨contents, staged, (Option.some.inj answer).symm⟩
    · cases answer
  refine answered.bind fun hashes => Triple.assume fun stored => ?_
  obtain ⟨contents, staged, same⟩ := stored
  rw [same, entries_blobs staged]
  split
  · refine ofExcept (fun a => (Stable.const _).both lasting.stable) fun found listed w held => ⟨?_, held⟩
    cases own : Git.treeInput ids staging names with
    | error e =>
      rw [own] at listed
      cases listed
    | ok entries =>
      rw [own] at listed
      cases listed
      rfl
  · exact throw

/-- By induction on the chunks, from the lemma on one of them. -/
theorem treeInput {staging : String → Option B} {chunks : List (List String)} :
    Ensures ids lib commitId polite K P (Remote.treeInput staging chunks) fun found w =>
      Git.treeInput ids staging chunks.flatten = .ok found ∧ P w := by
  induction chunks with
  | nil => exact pure ((Stable.const _).both lasting.stable) fun w held => ⟨rfl, held⟩
  | cons names rest ih =>
    refine (hashObject calm lasting).bind fun first => Triple.assume fun listed => ih.bind fun more => ?_
    refine pure ((Stable.const _).both lasting.stable) fun w post => ⟨?_, post.2⟩
    rw [List.flatten_cons, treeInput_append, listed, post.1]
    rfl

/-- The tree is that of the listed names, and what was known of the branches before is still known. -/
theorem writeTree : Ensures ids lib commitId polite K P (Remote.writeTree prepared) fun tree w =>
    (∃ listed, Git.treeInput ids prepared.staging prepared.names = .ok listed ∧ tree = ids.tree (Git.mktree listed)) ∧
      P w := by
  refine (treeInput calm lasting).bind fun input => Triple.assume fun listed => ?_
  rw [chunks_cover] at listed
  have written : Ensures ids lib commitId polite K P (Remote.command (.mktree input)) fun tree w =>
      tree = ids.tree (Git.mktree input) ∧ P w := by
    refine plain calm rfl lasting.stable (fun _ => (Stable.const _).both lasting.stable) fun w tree _ held answer => ?_
    exact ⟨(Option.some.inj answer).symm, lasting.quiet rfl held⟩
  refine written.bind fun tree => (oid ((Stable.const _).both lasting.stable)).conseq (fun _ => id) ?_
  rintro found w ⟨rfl, rfl, held⟩
  exact ⟨⟨input, listed, rfl⟩, held⟩

end Tree

/-- The push of the local branch, and the check behind it. -/
theorem finish {receipt : Receipt} {commit : Commit} :
    Ensures ids lib commitId polite (Publishes ids prepared) (On receipt.commit commit) (Remote.finish remote receipt)
      fun published w => published = { receipt := receipt, remoteVerified := remote } ∧ On receipt.commit commit w ∧
        (remote = true → Reached polite receipt.commit w) := by
  have lasting := On.lasting (B := B) receipt.commit commit
  have stable : Stable polite fun w : World B => On receipt.commit commit w ∧ Reached polite receipt.commit w :=
    lasting.stable.both (Reached.stable _)
  unfold Remote.finish
  cases remote with
  | false =>
    refine pure ((Stable.const _).both (lasting.stable.both (fun _ _ _ held off => by cases off))) fun w held => ?_
    exact ⟨rfl, held, fun off => by cases off⟩
  | true =>
    have pushed : Ensures ids lib commitId polite (Publishes ids prepared) (On receipt.commit commit)
        (Remote.command (.push receipt.commit)) fun _ w => On receipt.commit commit w ∧ Reached polite receipt.commit w := by
      refine ask lasting.stable (fun w held => ?_) (fun _ => stable) fun w _ _ held answer => ?_
      · simp only [effect]
        split
        · rename_i accepted
          exact ⟨.refl, .inl rfl, .inr ⟨held.branch.symm, accepted.2⟩⟩
        · exact Publishes.calm w w .refl rfl rfl
      · simp only [effect] at answer ⊢
        split at answer
        · rename_i accepted
          rw [if_pos accepted]
          exact ⟨⟨held.branch, held.known⟩, fun _ => ⟨_, rfl, .refl⟩⟩
        · cases answer
    refine pushed.bind fun _ => (remoteHead Publishes.calm stable).bind fun head => ?_
    split
    · exact pure ((Stable.const _).both (lasting.stable.both fun w v others held on => Reached.stable _ w v others (held on)))
        fun w held => ⟨rfl, held.1, fun _ => held.2⟩
    · exact throw

/-- The compare-and-swap to a new commit on top of `parent`. -/
theorem advance {new : String} {commit : Commit} (parents : commit.parents = parent.toList) (has : Has ids prepared commit)
    {F : World B → Prop} (lasting : Lasting F)
    (other : ∀ w, F w → ∀ own found, parent = some own → w.objects.commits own = some found → ¬Has ids prepared found) :
    Ensures ids lib commitId polite (Publishes ids prepared)
      (fun w => w.branch = parent ∧ w.objects.commits new = some commit ∧ F w) (Remote.advance new parent)
      fun _ => On new commit := by
  have stable : Stable polite fun w : World B => w.branch = parent ∧ w.objects.commits new = some commit ∧ F w :=
    (stable_branch parent).both ((stable_commit new commit).both lasting.stable)
  refine ask stable (fun w held => ?_) (fun _ => (On.lasting new commit).stable) fun w _ _ held answer => ?_
  · simp only [effect]
    split
    · refine ⟨.refl, .inr ⟨new, commit, rfl, held.2.1, held.1 ▸ parents, has, fun own found set => ?_⟩, .inl rfl⟩
      exact other w held.2.2 own found (held.1.symm.trans set)
    · exact Publishes.calm w w .refl rfl rfl
  · simp only [effect] at answer ⊢
    split at answer
    · rename_i swapped
      rw [if_pos swapped]
      exact ⟨rfl, held.2.1⟩
    · cases answer

end Ensures

/-- What holds behind a publication that began on `start`: the local branch is its commit, with the prepared
files and on top of `start` if it is new; with polite others the remote has it in its history. -/
structure Landed (ids : Ids B) (polite remote : Bool) (prepared : Prepared B) (start : Option String) (published : Published)
    (w : World B) : Prop where
  branch : w.branch = some published.receipt.commit
  files : ∃ commit, w.objects.commits published.receipt.commit = some commit ∧ Has ids prepared commit ∧
    (published.receipt.changed = true → commit.parents = start.toList)
  kept : published.receipt.changed = false → start = some published.receipt.commit
  content : published.receipt.contentSha256 = prepared.manifest.contentSha256
  verified : published.remoteVerified = remote
  there : polite = true → remote = true → ∃ head, w.remote = some head ∧ Older w.parents published.receipt.commit head

namespace Ensures

/-- The commit is made on the parent that was read. If the branch has moved since, the update of the reference
fails; so a commit that lands has its parent's history behind it, and the parent did not have these files. -/
theorem create {F : World B → Prop} (lasting : Lasting F)
    (other : ∀ w, F w → ∀ own found, parent = some own → w.objects.commits own = some found → ¬Has ids prepared found)
    (written : ∃ listed, Git.treeInput ids prepared.staging prepared.names = .ok listed ∧ tree = ids.tree (mktree listed)) :
    Ensures ids lib commitId polite (Publishes ids prepared) (fun w => w.branch = parent ∧ F w)
      (Remote.create remote prepared.manifest tree parent) fun published w => Landed ids polite remote prepared parent published w := by
  have made : Ensures ids lib commitId polite (Publishes ids prepared) (fun w => w.branch = parent ∧ F w)
      (Remote.command (.commitTree prepared.manifest tree parent)) fun oid w =>
        w.branch = parent ∧ w.objects.commits oid = some (Git.commitTree prepared.manifest tree parent) ∧ F w := by
    refine plain Publishes.calm rfl ((stable_branch parent).both lasting.stable)
      (fun oid => (stable_branch parent).both ((stable_commit _ _).both lasting.stable)) fun w oid _ held answer => ?_
    have still : F (effect ids lib commitId w (.commitTree prepared.manifest tree parent)).2 := lasting.quiet rfl held.2
    simp only [effect] at answer still ⊢
    split at answer
    · rename_i fits
      rw [dif_pos fits] at still ⊢
      cases answer
      exact ⟨held.1, addCommit_known fits, still⟩
    · cases answer
  obtain ⟨listed, input, own⟩ := written
  refine made.bind fun oid => (Ensures.oid ?_).bind fun commit => Triple.assume fun same => ?_
  · exact (stable_branch parent).both ((stable_commit _ _).both lasting.stable)
  subst same
  refine (advance rfl ⟨listed, input, own⟩ lasting other).bind fun _ => finish.conseq (fun _ => id) ?_
  rintro published w ⟨rfl, on, reached⟩
  exact {
    branch := on.branch
    files := ⟨_, on.known, ⟨listed, input, own⟩, fun _ => rfl⟩
    kept := fun off => by cases off
    content := rfl
    verified := rfl
    there := fun nice there => reached there nice }

/-- The commit on the branch stays as it is when it has the tree already. -/
theorem record (written : ∃ listed, Git.treeInput ids prepared.staging prepared.names = .ok listed ∧ tree = ids.tree (mktree listed)) :
    Ensures ids lib commitId polite (Publishes ids prepared) (fun w => w.branch = parent)
      (Remote.record remote prepared.manifest tree parent) fun published w => Landed ids polite remote prepared parent published w := by
  cases parent with
  | none =>
    refine (create (F := fun _ => True) (fun _ _ _ _ => id) ?_ written).conseq (fun w held => ⟨held, trivial⟩) fun _ _ => id
    intro w _ own found off
    cases off
  | some oid =>
    have before : Ensures ids lib commitId polite (Publishes ids prepared) (fun w => w.branch = some oid)
        (Remote.command (.revParseTree oid)) fun tree w => ∃ commit, On oid commit w ∧ commit.tree = tree := by
      refine plain Publishes.calm rfl (stable_branch _) ?_ fun w tree _ held answer => ?_
      · rintro tree w v others ⟨commit, on, same⟩
        exact ⟨commit, (On.lasting oid commit).stable w v others on, same⟩
      · obtain ⟨commit, known, same⟩ := Option.map_eq_some_iff.mp answer
        exact ⟨commit, ⟨held, known⟩, same⟩
    refine before.bind fun old => (Ensures.oid ?_).bind fun found => Triple.assume fun same => ?_
    · rintro w v others ⟨commit, on, same⟩
      exact ⟨commit, (On.lasting oid commit).stable w v others on, same⟩
    subst same
    obtain ⟨listed, input, own⟩ := written
    split
    · rename_i same
      rintro w sound ⟨commit, on, tree⟩
      refine (finish.conseq (fun _ => id) ?_) w sound on
      rintro published w ⟨rfl, on, reached⟩
      exact {
        branch := on.branch
        files := ⟨commit, on.known, ⟨listed, input, tree.trans (same.trans own)⟩, fun off => by cases off⟩
        kept := fun _ => rfl
        content := rfl
        verified := rfl
        there := fun nice there => reached there nice }
    · rename_i different
      rintro w sound ⟨commit, on, tree⟩
      refine create (F := fun w => w.objects.commits oid = some commit) ?_ ?_ ⟨listed, input, own⟩ w sound
        ⟨on.branch, on.known⟩
      · exact fun w v grows _ known => grows oid commit known
      · rintro w known _ found ⟨⟩ there has
        cases known.symm.trans there
        obtain ⟨entries, again, same⟩ := has
        cases input.symm.trans again
        exact different (tree.symm.trans (same.trans own.symm))

/-- What every run of a publication does, and what one that ends well has done. -/
theorem commitInternal {start : Option String} :
    Ensures ids lib commitId polite (Publishes ids prepared) (fun w => w.branch = start)
      (Remote.commitInternal remote prepared) fun published => Landed ids polite remote prepared start published := by
  refine (initializeBranch Publishes.calm (lasting_branch start)).bind fun parent => ?_
  rintro w sound ⟨set, same⟩
  cases set.symm.trans same
  have checked : Ensures ids lib commitId polite (Publishes ids prepared) (fun w => w.branch = start)
      (if remote then Remote.checkRemote start else Pure.pure ()) fun _ w => w.branch = start := by
    split
    · exact quiet Publishes.calm (Quiet.checkRemote start) (lasting_branch start)
    · exact pure (stable_branch start) fun _ => id
  refine (checked.bind fun _ => (writeTree Publishes.calm (lasting_branch start)).bind fun tree => Triple.assume fun written => ?_) w sound set
  exact record written

end Ensures

end Publication

end SiriusProxy.Master.Git.Remote
