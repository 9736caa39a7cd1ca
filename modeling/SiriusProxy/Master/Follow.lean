import SiriusProxy.Master.Landed

namespace SiriusProxy.Master.Git.Remote
open Ancestry Commands Relation
variable {B : Type} {w v u : World B} {polite : Bool}

/-- A step that moves no branch keeps to what an adoption may do. -/
theorem Follows.calm : Calm (B := B) Follows := by
  rintro w v grows branch remote
  refine ⟨grows, ?_, remote⟩
  rw [branch]
  exact .refl

/-- The branch is there, and the head is no step back. -/
structure Behind (start : Option String) (head : String) (w : World B) : Prop where
  branch : w.branch = start
  forward : Forward w.parents start (some head)

theorem Behind.lasting (start : Option String) (head : String) : Lasting (Behind (B := B) start head) :=
  fun _ _ grows same held => ⟨same.trans held.branch, held.forward.mono grows.extends⟩

/-- What holds behind an adoption that began on `start`. -/
structure Followed (lib : Formats B) [DecidableEq B] (scope : Scope) (layout : Layout) (start : Option String)
    (adoption : Adoption) (w : World B) : Prop where
  branch : w.branch = some adoption.commit
  previous : adoption.previous = start
  forward : Forward w.parents start (some adoption.commit)
  kept : adoption.adopted = false → start = some adoption.commit
  found : adoption.adopted = true → ∃ before publication version, Grows before w ∧
    Git.recognize lib before.objects scope layout adoption.commit = .ok (publication, version) ∧
      adoption.publication = some publication ∧ adoption.version = some version

section Adoption
variable {ids : Ids B} [DecidableEq B] {lib : Formats B} {commitId : Instant → Commit → String}
  {scope : Scope} {layout : Layout} {start : Option String} {head : String}

/-- What was adopted stays adopted under steps of others that keep the branch: the facts about it speak of the
branch, or of a state before. -/
theorem Followed.stable (adoption : Adoption) : Stable polite (Followed lib scope layout start adoption) := by
  rintro w v others ⟨branch, previous, forward, kept, found⟩
  refine ⟨others.branch.trans branch, previous, forward.mono others.grows.extends, kept, fun adopted => ?_⟩
  obtain ⟨before, publication, version, grows, rest⟩ := found adopted
  exact ⟨before, publication, version, grows.trans others.grows, rest⟩

namespace Ensures

/-- A positive answer about two commits is about the history that is there, and histories only grow. -/
theorem ancestor {older newer : String} {P : World B → Prop} (lasting : Lasting P) :
    Ensures ids lib commitId polite Follows P (Remote.ancestor older newer) fun yes w =>
      (yes = true → Older w.parents older newer) ∧ P w := by
  have answered : Ensures ids lib commitId polite Follows P
      (Prog.attempt (A := Command.Answer) (.isAncestor older newer)) fun (answer : Option Unit) w =>
        (answer.isSome = true → Older w.parents older newer) ∧ P w := by
    refine attempt lasting.stable (fun w _ => Follows.calm w w .refl rfl rfl) (fun answer => ?_) (fun w _ _ held answer => ?_)
      (fun w held => ⟨fun off => (by cases off), held⟩) (fun w held => ⟨fun off => (by cases off), held⟩)
    · refine Stable.both (fun w v others held yes => ?_) lasting.stable
      exact (held yes).mono others.grows.extends
    · refine ⟨fun _ => ?_, held⟩
      simp only [effect] at answer
      split at answer
      · rename_i older
        exact older
      · cases answer
  refine answered.bind fun answer => pure ?_ fun w held => held
  exact Stable.both (fun w v others held yes => (held yes).mono others.grows.extends) lasting.stable

/-- The head is recognised before the branch is advanced to it, in a repository that everything later extends.
Where the branch has moved meanwhile the comparison in the update fails and nothing is adopted. -/
theorem follow : Ensures ids lib commitId polite Follows (Behind start head) (Remote.follow scope layout start head)
    fun adoption => Followed lib scope layout start adoption := by
  have lasting := Behind.lasting (B := B) start head
  let Read (found : Except Error (String × String)) (w : World B) : Prop :=
    (∃ before, Grows before w ∧ Git.recognize lib before.objects scope layout head = found) ∧ Behind start head w
  have stable (found : Except Error (String × String)) : Stable polite (Read found) := by
    rintro w v others ⟨⟨before, grows, same⟩, behind⟩
    exact ⟨⟨before, grows.trans others.grows, same⟩, lasting.stable w v others behind⟩
  have read : Ensures ids lib commitId polite Follows (Behind start head)
      (Remote.command (.recognize scope layout head)) Read := by
    refine plain Follows.calm rfl lasting.stable stable fun w found _ held answer => ⟨⟨w, .refl, ?_⟩, held⟩
    exact Option.some.inj answer
  refine read.bind fun found => ?_
  cases found with
  | error e => exact throw
  | ok found =>
    have moved : Ensures ids lib commitId polite Follows (Read (.ok found)) (Remote.advance head start) fun _ w =>
        Followed lib scope layout start ⟨head, start, true, some found.1, some found.2⟩ w := by
      refine ask (stable _) (fun w held => ?_) (fun _ => Followed.stable _) fun w _ _ held answer => ?_
      · simp only [effect]
        split
        · exact ⟨.refl, held.2.branch ▸ held.2.forward, rfl⟩
        · exact Follows.calm w w .refl rfl rfl
      · obtain ⟨⟨before, grows, same⟩, behind⟩ := held
        simp only [effect] at answer ⊢
        split at answer
        · rename_i swapped
          rw [if_pos swapped]
          exact ⟨rfl, rfl, behind.forward, fun off => (by cases off), fun _ => ⟨before, _, _, grows, same, rfl, rfl⟩⟩
        · cases answer
    exact moved.bind fun _ => pure (Followed.stable _) fun _ held => held

/-- The three cases of a fetched head: the branch has it already, the branch is behind it and follows, or the two
have parted and the adoption stops. -/
theorem adoptFetched : Ensures ids lib commitId polite Follows (fun w => w.branch = start)
    (Remote.adoptFetched scope layout start head) fun adoption => Followed lib scope layout start adoption := by
  cases start with
  | none => exact follow.conseq (fun w held => ⟨held, Forward.none⟩) fun _ _ => id
  | some own =>
    refine (ancestor (lasting_branch (some own))).bind fun behind => ?_
    split
    · refine pure (Followed.stable _) fun w held => ?_
      exact ⟨held.2, rfl, .refl, fun _ => rfl, fun off => (by cases off)⟩
    · refine ((ancestor (lasting_branch (some own))).conseq (fun _ held => held.2) fun _ _ => id).bind fun ahead => ?_
      split
      · rename_i yes
        exact follow.conseq (fun w held => ⟨held.2, .of_older (held.1 yes)⟩) fun _ _ => id
      · exact throw

/-- What every run of an adoption does, and what one that ends well has done. -/
theorem adopt : Ensures ids lib commitId polite Follows (fun w => w.branch = start) (Remote.adopt scope layout)
    fun adoption => Followed lib scope layout start adoption := by
  refine (initializeBranch Follows.calm (lasting_branch start)).bind fun branch => ?_
  rintro w sound ⟨set, same⟩
  cases set.symm.trans same
  refine ((remoteHead Follows.calm (stable_branch start)).bind fun listed => ?_) w sound set
  cases listed with
  | none => exact throw
  | some head =>
    change Ensures _ _ _ _ _ _ (if start = some head then _ else _) _
    split
    · rename_i same
      refine pure (Followed.stable _) fun w held => ?_
      exact ⟨held.trans same, rfl, same ▸ .refl, fun _ => same, fun off => (by cases off)⟩
    · exact (quiet Follows.calm (Quiet.fetchRemoteCheck head) (lasting_branch start)).bind fun _ => adoptFetched

end Ensures

end Adoption

end SiriusProxy.Master.Git.Remote
