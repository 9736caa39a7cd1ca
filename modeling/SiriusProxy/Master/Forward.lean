import SiriusProxy.Lib.Triple
import SiriusProxy.Master.Remote

namespace SiriusProxy.Master.Git.Remote
open Ancestry Commands Relation
variable {B α β : Type} {w v u : World B} {polite : Bool}

theorem Grows.refl : Grows w w := fun _ _ there => there

theorem Grows.trans (first : Grows w v) (second : Grows v u) : Grows w u :=
  fun oid commit there => second oid commit (first oid commit there)

theorem Grows.isSome (grows : Grows w v) {oid : String} (there : (w.objects.commits oid).isSome = true) :
    (v.objects.commits oid).isSome = true := by
  obtain ⟨commit, there⟩ := Option.isSome_iff_exists.mp there
  rw [grows oid commit there]
  rfl

theorem Grows.extends (grows : Grows w v) : Extends w.parents v.parents := by
  intro oid found there
  obtain ⟨commit, there, same⟩ := Option.map_eq_some_iff.mp there
  rw [World.parents, grows oid commit there, ← same]
  rfl

theorem Elsewhere.sound (others : Elsewhere polite w v) (sound : w.Sound) : v.Sound where
  branch oid set := others.grows.isSome (sound.branch oid (others.branch ▸ set))
  check oid set := others.grows.isSome (sound.check oid (others.check ▸ set))
  remote := others.known

section Stable
variable {P P' : World B → Prop}

/-- Others do not change it. -/
abbrev Stable (polite : Bool) (P : World B → Prop) : Prop := Commands.Stable (Elsewhere polite) P

theorem sound_later (later : ReflTransGen (Elsewhere polite) w v) (sound : w.Sound) : v.Sound :=
  Commands.Stable.later (P := World.Sound) (fun _ _ others held => others.sound held) later sound

theorem stable_branch (branch : Option String) : Stable (B := B) polite fun w => w.branch = branch :=
  fun _ _ others held => others.branch.trans held

theorem stable_commit (oid : String) (commit : Commit) :
    Stable polite fun w : World B => w.objects.commits oid = some commit :=
  fun _ _ others held => others.grows oid commit held

/-- What others and the commands beside `update-ref` do not change. -/
def Lasting (P : World B → Prop) : Prop := ∀ w v : World B, Grows w v → v.branch = w.branch → P w → P v

/-- The commands that move no branch. -/
def Command.quiet : Command B → Bool
  | .updateRef _ _ => false
  | .push _ => false
  | _ => true

/-- It permits what moves no branch. -/
def Calm (K : World B → World B → Prop) : Prop :=
  ∀ w v : World B, Grows w v → v.branch = w.branch → v.remote = w.remote → K w v

theorem Lasting.stable (lasting : Lasting P) : Stable polite P := fun w v others => lasting w v others.grows others.branch

theorem lasting_branch (branch : Option String) : Lasting fun w : World B => w.branch = branch :=
  fun _ _ _ same held => same.trans held

theorem Grows.addCommit {oid : String} {commit : Commit} (fits : w.Fits oid commit) : Grows w (w.addCommit oid commit fits) := by
  intro o found there
  change (w.objects.commits o).or _ = _
  rw [there]
  rfl

end Stable

section Quiet

abbrev Quiet (p : Program B α) : Prop := Prog.Only (fun c : Command B => c.quiet = true) p

theorem Quiet.ask {c : Command B} (quiet : c.quiet = true) (e : Failure) : Quiet (Prog.ask c e) := by
  refine Prog.Only.ask ?_ e
  exact quiet

theorem Quiet.oid (value : String) : Quiet (Remote.oid (B := B) value) := by
  unfold Remote.oid
  split
  · trivial
  · trivial

theorem Quiet.optionOid (value : Option String) : Quiet (Remote.optionOid (B := B) value) := by
  cases value with
  | none => trivial
  | some value => exact Prog.Only.bind (Quiet.oid value) fun _ => trivial

theorem Quiet.remoteHead : Quiet (Remote.remoteHead (B := B)) := Prog.Only.bind (Quiet.ask rfl _) Quiet.optionOid

theorem Quiet.fetchRemoteCheck (head : String) : Quiet (Remote.fetchRemoteCheck (B := B) head) := by
  refine Prog.Only.bind (Quiet.ask rfl _) fun _ => Prog.Only.bind (Quiet.ask rfl _) fun fetched => Prog.Only.bind (Quiet.oid _) fun fetched => ?_
  split
  · trivial
  · trivial

theorem Quiet.checkRemote (parent : Option String) : Quiet (Remote.checkRemote (B := B) parent) := by
  refine Prog.Only.bind Quiet.remoteHead fun listed => ?_
  cases listed with
  | none => trivial
  | some head =>
    cases parent with
    | none => trivial
    | some parent =>
      change Quiet (if head = parent then _ else _)
      split
      · trivial
      · exact Prog.Only.bind (Quiet.fetchRemoteCheck head) fun _ => Quiet.ask rfl _

end Quiet

theorem addCommit_known {oid : String} {commit : Commit} (fits : w.Fits oid commit) :
    (w.addCommit oid commit fits).objects.commits oid = some commit := by
  change (w.objects.commits oid).or _ = _
  cases known : w.objects.commits oid with
  | none => simp only [Option.none_or, if_true]
  | some found => rw [fits.own found known, Option.some_or]

/-- A commit on top of a branch, or of none. -/
theorem forward_commit {oid : String} {commit : Commit} {branch : Option String}
    (known : w.objects.commits oid = some commit) (parents : commit.parents = branch.toList) :
    Forward w.parents branch (some oid) := by
  have found : w.parents oid = some commit.parents := by
    rw [World.parents, known]
    rfl
  intro older there
  refine ⟨oid, rfl, .parent found ?_⟩
  rw [parents, there]
  exact List.mem_singleton_self _

section Tree
variable {ids : Ids B} {staging : String → Option B} {names more : List String}

theorem treeInput_append : Git.treeInput ids staging (names ++ more) = (do
    let first ← Git.treeInput ids staging names
    let rest ← Git.treeInput ids staging more
    .ok (first ++ rest)) := by
  induction names with
  | nil =>
    cases rest : Git.treeInput ids staging more with
    | error e => exact rest
    | ok entries => exact rest
  | cons name names ih =>
    rw [List.cons_append, Git.treeInput, Git.treeInput]
    cases staging name with
    | none => rfl
    | some bytes =>
      by_cases hex : (!isOid (ids.blob bytes).toList) = true
      · simp only [if_pos hex]
        rfl
      · simp only [if_neg hex, ih]
        cases Git.treeInput ids staging names with
        | error e => rfl
        | ok first =>
          cases Git.treeInput ids staging more with
          | error e => rfl
          | ok rest => rfl

/-- The lines for the ids that `hash-object` prints are those of the files. -/
theorem entries_blobs {contents : List B} (staged : names.mapM staging = some contents) :
    entries (names.zip (contents.map ids.blob)) = (Git.treeInput ids staging names).mapError .of := by
  induction names generalizing contents with
  | nil =>
    cases staged
    rfl
  | cons name names ih =>
    rw [List.mapM_cons] at staged
    obtain ⟨bytes, found, staged⟩ := Option.bind_eq_some_iff.mp staged
    obtain ⟨rest, known, same⟩ := Option.bind_eq_some_iff.mp staged
    cases same
    rw [List.map_cons, List.zip_cons_cons, entries, Git.treeInput, found]
    by_cases hex : (!isOid (ids.blob bytes).toList) = true
    · simp only [if_pos hex]
      rfl
    · simp only [if_neg hex, ih known]
      cases Git.treeInput ids staging names with
      | error e => rfl
      | ok entries => rfl

theorem chunks_cover (names : List String) : (Cbc.chunks 64 ((names.length + 63) / 64) names).flatten = names := by
  rw [Cbc.flatten_chunks]
  exact List.take_of_length_le (by omega)

end Tree

/-- A commit on the branch. -/
structure On (oid : String) (commit : Commit) (w : World B) : Prop where
  branch : w.branch = some oid
  known : w.objects.commits oid = some commit

theorem On.lasting (oid : String) (commit : Commit) : Lasting (On (B := B) oid commit) :=
  fun _ _ grows same held => ⟨same.trans held.branch, grows oid commit held.known⟩

/-- The remote has it, as far as others are polite. -/
def Reached (polite : Bool) (oid : String) (w : World B) : Prop :=
  polite = true → ∃ head, w.remote = some head ∧ Older w.parents oid head

theorem Reached.stable (oid : String) : Stable (B := B) polite (Reached polite oid) := by
  intro w v others held polite
  obtain ⟨head, set, older⟩ := held polite
  obtain ⟨newer, set, more⟩ := others.forward polite head set
  exact ⟨newer, set, (older.mono others.grows.extends).trans more⟩

section Effect
variable (ids : Ids B) [DecidableEq B] (lib : Formats B) (commitId : Instant → Commit → String)

/-- No command makes the references name a commit that is not there. -/
theorem effect_sound (c : Command B) (sound : w.Sound) : (effect ids lib commitId w c).2.Sound := by
  cases c with
  | fetch =>
    simp only [effect]
    split
    · rename_i head listed
      exact ⟨sound.branch, fun oid set => sound.remote oid (listed.trans set), sound.remote⟩
    · exact sound
  | hashObject staging names =>
    simp only [effect]
    split
    · exact ⟨sound.branch, sound.check, sound.remote⟩
    · exact sound
  | mktree input => exact ⟨sound.branch, sound.check, sound.remote⟩
  | commitTree manifest tree parent =>
    simp only [effect]
    split
    · rename_i fits
      have grows := Grows.addCommit fits
      exact ⟨fun oid set => grows.isSome (sound.branch oid set), fun oid set => grows.isSome (sound.check oid set),
        fun oid set => grows.isSome (sound.remote oid set)⟩
    · exact sound
  | updateRef new old =>
    simp only [effect]
    split
    · rename_i swapped
      refine ⟨fun oid set => ?_, sound.check, sound.remote⟩
      cases set
      exact swapped.2
    · exact sound
  | push commit =>
    simp only [effect]
    split
    · rename_i accepted
      refine ⟨sound.branch, sound.check, fun oid set => ?_⟩
      cases set
      exact accepted.1
    · exact sound
  | init => exact sound
  | symbolicRef => exact sound
  | forEachRef => exact sound
  | lsRemote => exact sound
  | revParseCheck => exact sound
  | isAncestor older newer => exact sound
  | revParseTree commit => exact sound
  | recognize scope layout head => exact sound

theorem effect_quiet {c : Command B} (quiet : c.quiet = true) : Grows w (effect ids lib commitId w c).2 ∧
    (effect ids lib commitId w c).2.branch = w.branch ∧ (effect ids lib commitId w c).2.remote = w.remote := by
  cases c with
  | fetch =>
    simp only [effect]
    split
    · exact ⟨.refl, rfl, rfl⟩
    · exact ⟨.refl, rfl, rfl⟩
  | hashObject staging names =>
    simp only [effect]
    split
    · exact ⟨.refl, rfl, rfl⟩
    · exact ⟨.refl, rfl, rfl⟩
  | mktree input => exact ⟨.refl, rfl, rfl⟩
  | commitTree manifest tree parent =>
    simp only [effect]
    split
    · rename_i fits
      exact ⟨.addCommit fits, rfl, rfl⟩
    · exact ⟨.refl, rfl, rfl⟩
  | updateRef new old => cases quiet
  | push commit => cases quiet
  | init => exact ⟨.refl, rfl, rfl⟩
  | symbolicRef => exact ⟨.refl, rfl, rfl⟩
  | forEachRef => exact ⟨.refl, rfl, rfl⟩
  | lsRemote => exact ⟨.refl, rfl, rfl⟩
  | revParseCheck => exact ⟨.refl, rfl, rfl⟩
  | isAncestor older newer => exact ⟨.refl, rfl, rfl⟩
  | revParseTree commit => exact ⟨.refl, rfl, rfl⟩
  | recognize scope layout head => exact ⟨.refl, rfl, rfl⟩

variable {ids lib commitId}

theorem Lasting.quiet {P : World B → Prop} (lasting : Lasting P) {c : Command B} (quiet : c.quiet = true) (held : P w) :
    P (effect ids lib commitId w c).2 :=
  have kept := effect_quiet (w := w) ids lib commitId quiet
  lasting w _ kept.1 kept.2.1 held

end Effect

section Rules
variable {ids : Ids B} [DecidableEq B] {lib : Formats B} {commitId : Instant → Commit → String}
  {K : World B → World B → Prop} {P : World B → Prop} {Q : α → World B → Prop} {R : β → World B → Prop}

/-- From a sound state in `P` each command of the program does what `K` permits, whatever others do, and the
program ends in `Q` of its value. -/
abbrev Ensures (ids : Ids B) (lib : Formats B) (commitId : Instant → Commit → String) (polite : Bool)
    (K : World B → World B → Prop) (P : World B → Prop) (p : Program B α) (Q : α → World B → Prop) : Prop :=
  Triple (effect ids lib commitId) (Elsewhere polite) K World.Sound P p Q

theorem sound_upheld : Upholds (effect ids lib commitId) (Elsewhere polite) K World.Sound where
  others _ _ others sound := others.sound sound
  own _ c sound _ := effect_sound ids lib commitId c sound

namespace Ensures

theorem pure {a : α} (stable : Stable polite (Q a)) (holds : ∀ w, P w → Q a w) :
    Ensures ids lib commitId polite K P (Pure.pure a) Q := Triple.pure sound_upheld stable holds

theorem throw {e : Failure} : Ensures ids lib commitId polite K P (Prog.throw e) Q := Triple.throw sound_upheld

theorem ofExcept {r : Except Failure α} (stable : ∀ a, Stable polite (Q a)) (holds : ∀ a, r = .ok a → ∀ w, P w → Q a w) :
    Ensures ids lib commitId polite K P (Prog.ofExcept r) Q := Triple.ofExcept sound_upheld stable holds

theorem ask {c : Command B} {Q : c.Answer → World B → Prop} {e : Failure} (stable : Stable polite P)
    (kept : ∀ w, P w → K w (effect ids lib commitId w c).2) (after : ∀ a, Stable polite (Q a))
    (step : ∀ w a, w.Sound → P w → (effect ids lib commitId w c).1 = some a → Q a (effect ids lib commitId w c).2) :
    Ensures ids lib commitId polite K P (Prog.ask c e) Q :=
  Triple.ask sound_upheld stable (fun w _ => kept w) after step

theorem attempt {c : Command B} {Q : Option c.Answer → World B → Prop} (stable : Stable polite P)
    (kept : ∀ w, P w → K w (effect ids lib commitId w c).2) (after : ∀ a, Stable polite (Q a))
    (step : ∀ w a, w.Sound → P w → (effect ids lib commitId w c).1 = some a → Q (some a) (effect ids lib commitId w c).2)
    (lost : ∀ w, P w → Q none (effect ids lib commitId w c).2) (failed : ∀ w, P w → Q none w) :
    Ensures ids lib commitId polite K P (Prog.attempt c) Q :=
  Triple.attempt sound_upheld stable (fun w _ => kept w) after step (fun w _ => lost w) failed

theorem oid {value : String} (stable : Stable polite P) :
    Ensures ids lib commitId polite K P (Remote.oid value) fun v w => v = value ∧ P w := by
  unfold Remote.oid
  split
  · exact pure ((Stable.const _).both stable) fun w held => ⟨rfl, held⟩
  · exact throw

theorem optionOid {value : Option String} (stable : Stable polite P) :
    Ensures ids lib commitId polite K P (Remote.optionOid value) fun v w => v = value ∧ P w := by
  cases value with
  | none => exact pure ((Stable.const _).both stable) fun w held => ⟨rfl, held⟩
  | some value =>
    refine (oid stable).bind fun v => pure ((Stable.const _).both stable) ?_
    rintro w ⟨rfl, held⟩
    exact ⟨rfl, held⟩

section Calm
variable (calm : Calm K)
include calm

/-- A program that moves no branch. -/
theorem quiet {p : Program B α} (quiet : Quiet p) (lasting : Lasting P) :
    Ensures ids lib commitId polite K P p fun _ => P := by
  intro w sound held
  induction p generalizing w with
  | done r =>
    exact fun t later => ⟨sound_later later sound, fun _ _ => lasting.stable.later later held⟩
  | call c next ih =>
    intro t later
    have known := sound_later later sound
    have there := lasting.stable.later later held
    obtain ⟨grows, branch, remote⟩ := effect_quiet (w := t) ids lib commitId quiet.1
    have behind := lasting t _ grows branch there
    have sounder := effect_sound ids lib commitId c known
    exact ⟨calm t _ grows branch remote, ih _ (quiet.2 _) _ sounder behind, ih _ (quiet.2 _) _ sounder behind,
      ih _ (quiet.2 _) _ known there⟩

/-- A command that moves no branch. -/
theorem plain {c : Command B} {Q : c.Answer → World B → Prop} {e : Failure} (quiet : c.quiet = true) (stable : Stable polite P)
    (after : ∀ a, Stable polite (Q a))
    (step : ∀ w a, w.Sound → P w → (effect ids lib commitId w c).1 = some a → Q a (effect ids lib commitId w c).2) :
    Ensures ids lib commitId polite K P (Prog.ask c e) Q :=
  ask stable (fun w _ => have kept := effect_quiet (w := w) ids lib commitId quiet; calm w _ kept.1 kept.2.1 kept.2.2) after step

theorem remoteHead (stable : Stable polite P) :
    Ensures ids lib commitId polite K P Remote.remoteHead fun _ => P :=
  (plain (c := .lsRemote) calm rfl stable (fun _ => stable) fun _ _ _ held _ => held).bind fun _ =>
    (optionOid stable).conseq (fun _ => id) fun _ _ post => post.2

/-- The local branch, as `initialize` reads it. -/
theorem initializeBranch (lasting : Lasting P) :
    Ensures ids lib commitId polite K P Remote.initializeBranch fun branch w => w.branch = branch ∧ P w := by
  refine (quiet calm (Quiet.ask rfl _) lasting).bind fun _ => (quiet calm (Quiet.ask rfl _) lasting).bind fun _ => ?_
  have stable (branch : Option String) : Stable polite fun w : World B => w.branch = branch ∧ P w :=
    (stable_branch branch).both lasting.stable
  refine (plain (Q := fun (refs : Option String) w => w.branch = refs ∧ P w) calm rfl lasting.stable stable ?_).bind
    fun refs => (optionOid (stable refs)).conseq (fun _ => id) fun branch w post => ?_
  · intro w refs _ held answer
    exact ⟨Option.some.inj answer, held⟩
  · exact ⟨post.2.1.trans post.1.symm, post.2.2⟩

end Calm

end Ensures

end Rules

end SiriusProxy.Master.Git.Remote
