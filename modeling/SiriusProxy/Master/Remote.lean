import SiriusProxy.Lib.Ancestry
import SiriusProxy.Lib.Cbc
import SiriusProxy.Lib.Commands
import SiriusProxy.Master.Git

namespace SiriusProxy.Master.Git.Remote
open Ancestry Commands
variable {B : Type}

/-- The errors of a publication or an adoption over a remote. -/
inductive Failure where
  | of (error : Error)
  | remoteChanged
  deriving DecidableEq, Repr

/-- The Git commands of `commit_internal` and `adopt`. The branch is the owned reference, here and on
the remote; `revParseCheck` reads what the last fetch left, and `recognize` stands for its four reads
of objects that never change. -/
inductive Command (B : Type) where
  | init
  | symbolicRef
  | forEachRef
  | lsRemote
  | fetch
  | revParseCheck
  | isAncestor (older newer : String)
  | hashObject (staging : String → Option B) (names : List String)
  | mktree (input : List TreeEntry)
  | revParseTree (commit : String)
  | commitTree (manifest : PublishedManifest) (tree : String) (parent : Option String)
  | updateRef (new : String) (old : Option String)
  | push (commit : String)
  | recognize (scope : Scope) (layout : Layout) (head : String)

abbrev Command.Answer : Command B → Type
  | .forEachRef => Option String
  | .lsRemote => Option String
  | .revParseCheck => String
  | .hashObject _ _ => List String
  | .mktree _ => String
  | .revParseTree _ => String
  | .commitTree _ _ _ => String
  | .recognize _ _ _ => Except Error (String × String)
  | _ => Unit

abbrev Program (B α : Type) := Prog (Command.Answer (B := B)) Failure α

section Program

def git : Failure := .of .git

def command (c : Command B) : Program B c.Answer := Prog.ask c git

/-- `oid` on the text that a command printed. -/
def oid (value : String) : Program B String := if isOid value.toList then pure value else Prog.throw git

def optionOid : Option String → Program B (Option String)
  | none => pure none
  | some value => do
    let value ← oid value
    pure (some value)

def initializeBranch : Program B (Option String) := do
  let _ ← command .init
  let _ ← command .symbolicRef
  let refs ← command .forEachRef
  optionOid refs

def remoteHead : Program B (Option String) := do
  let listed ← command .lsRemote
  optionOid listed

def fetchRemoteCheck (head : String) : Program B Unit := do
  let _ ← command .fetch
  let fetched ← command .revParseCheck
  let fetched ← oid fetched
  if fetched = head then pure () else Prog.throw .remoteChanged

/-- A remote branch that is not an ancestor of the local one is left alone. -/
def checkHead (parent : Option String) (head : String) : Program B Unit :=
  match parent with
  | none => Prog.throw .remoteChanged
  | some parent =>
    if head = parent then pure ()
    else do
      fetchRemoteCheck head
      Prog.ask (A := Command.Answer) (.isAncestor head parent) .remoteChanged

def checkRemote (parent : Option String) : Program B Unit := do
  let listed ← remoteHead
  match listed with
  | none => pure ()
  | some head => checkHead parent head

/-- The lines of `tree_input` for the names of one command. -/
def entries : List (String × String) → Except Failure (List TreeEntry)
  | [] => .ok []
  | (name, hash) :: rest =>
    if !isOid hash.toList then .error git
    else match entries rest with
      | .error e => .error e
      | .ok more => .ok ({ mode := "100644", kind := "blob", oid := hash, name } :: more)

def hashObject (staging : String → Option B) (names : List String) : Program B (List TreeEntry) := do
  let hashes : List String ← command (.hashObject staging names)
  if hashes.length = names.length then .ofExcept (entries (names.zip hashes)) else Prog.throw git

def treeInput (staging : String → Option B) : List (List String) → Program B (List TreeEntry)
  | [] => pure []
  | names :: rest => do
    let first ← hashObject staging names
    let more ← treeInput staging rest
    pure (first ++ more)

structure Published where
  receipt : Receipt
  remoteVerified : Bool
  deriving DecidableEq, Repr

/-- `finish`; `remote` tells whether there is one. -/
def finish (remote : Bool) (receipt : Receipt) : Program B Published :=
  if remote then do
    let _ ← command (.push receipt.commit)
    let head ← remoteHead
    if head = some receipt.commit then pure { receipt := receipt, remoteVerified := true }
    else Prog.throw .remoteChanged
  else pure { receipt := receipt, remoteVerified := false }

def advance (new : String) (old : Option String) : Program B Unit := command (.updateRef new old)

def create (remote : Bool) (manifest : PublishedManifest) (tree : String) (parent : Option String) :
    Program B Published := do
  let commit ← command (.commitTree manifest tree parent)
  let commit ← oid commit
  advance commit parent
  finish remote { commit := commit, contentSha256 := manifest.contentSha256, changed := true }

/-- The last part of `commit_internal`, once the tree is written. -/
def record (remote : Bool) (manifest : PublishedManifest) (tree : String) (parent : Option String) :
    Program B Published :=
  match parent with
  | none => create remote manifest tree none
  | some commit => do
    let old ← command (.revParseTree commit)
    let old ← oid old
    if old = tree then finish remote { commit := commit, contentSha256 := manifest.contentSha256, changed := false }
    else create remote manifest tree (some commit)

def writeTree (prepared : Prepared B) : Program B String := do
  let input ← treeInput prepared.staging (Cbc.chunks 64 ((prepared.names.length + 63) / 64) prepared.names)
  let tree ← command (.mktree input)
  oid tree

/-- `commit_internal` once the publication is prepared. -/
def commitInternal (remote : Bool) (prepared : Prepared B) : Program B Published := do
  let parent ← initializeBranch
  let _ ← (if remote then checkRemote parent else pure ())
  let tree ← writeTree prepared
  record remote prepared.manifest tree parent

structure Adoption where
  commit : String
  previous : Option String
  adopted : Bool
  publication : Option String
  version : Option String
  deriving DecidableEq, Repr

def unchanged (branch : Option String) (commit : String) : Adoption where
  commit := commit
  previous := branch
  adopted := false
  publication := none
  version := none

def ancestor (older newer : String) : Program B Bool := do
  let answer ← Prog.attempt (A := Command.Answer) (.isAncestor older newer)
  pure answer.isSome

def follow (scope : Scope) (layout : Layout) (branch : Option String) (head : String) : Program B Adoption := do
  let found ← command (.recognize scope layout head)
  match found with
  | .error e => Prog.throw (.of e)
  | .ok (publication, version) => do
    advance head branch
    pure
      { commit := head
        previous := branch
        adopted := true
        publication := some publication
        version := some version }

/-- What `adopt` does with a remote branch that it fetched. -/
def adoptFetched (scope : Scope) (layout : Layout) (branch : Option String) (head : String) : Program B Adoption :=
  match branch with
  | none => follow scope layout none head
  | some own => do
    let behind ← ancestor head own
    if behind then pure (unchanged (some own) own)
    else do
      let ahead ← ancestor own head
      if ahead then follow scope layout (some own) head else Prog.throw .remoteChanged

def adopt (scope : Scope) (layout : Layout) : Program B Adoption := do
  let branch ← initializeBranch
  let listed ← remoteHead
  match listed with
  | none => Prog.throw (.of .notAdoptable)
  | some head =>
    if branch = some head then pure (unchanged branch head)
    else do
      fetchRemoteCheck head
      adoptFetched scope layout branch head

end Program

/-- The objects that exist anywhere, the state directory's branch and `refs/sirius/remote-check`, the
branch of the remote, and the clock of the next commit. -/
structure World (B : Type) where
  objects : Repository B
  branch : Option String := none
  check : Option String := none
  remote : Option String := none
  now : Instant := 0

def World.parents (w : World B) : Parents String := fun oid => (w.objects.commits oid).map Commit.parents

section Objects
variable (ids : Ids B)

/-- `git hash-object -w`; an object that is there already is kept. -/
def World.addBlobs (w : World B) (contents : List B) : World B :=
  { w with objects :=
    { w.objects with
      blobs := fun oid => (w.objects.blobs oid).or (contents.find? fun bytes => ids.blob bytes == oid) } }

def World.addTree (w : World B) (tree : List TreeEntry) : World B :=
  { w with objects :=
    { w.objects with
      trees := fun oid => (w.objects.trees oid).or (if oid = ids.tree tree then some tree else none) } }

/-- An id that no other commit has, and parents that are there. -/
structure World.Fits (w : World B) (oid : String) (commit : Commit) : Prop where
  named : isOid oid.toList = true
  known : ∀ parent ∈ commit.parents, (w.objects.commits parent).isSome = true
  own : ∀ found, w.objects.commits oid = some found → found = commit

def World.addCommit (w : World B) (oid : String) (commit : Commit) (fits : w.Fits oid commit) : World B :=
  { w with objects :=
    { w.objects with
      commits := fun o => (w.objects.commits o).or (if o = oid then some commit else none)
      named := by
        intro o found there
        cases known : w.objects.commits o with
        | some own => exact w.objects.named o own known
        | none =>
          rw [known, Option.none_or] at there
          obtain ⟨rfl, -⟩ := Option.ite_none_right_eq_some.mp there
          exact fits.named
      closed := by
        intro o found parent there member
        have kept {p : String} (known : (w.objects.commits p).isSome = true) :
            ((w.objects.commits p).or (if p = oid then some commit else none)).isSome = true := by
          obtain ⟨own, known⟩ := Option.isSome_iff_exists.mp known
          rw [known]
          rfl
        cases known : w.objects.commits o with
        | some own =>
          rw [known, Option.some_or] at there
          cases there
          exact kept (w.objects.closed o _ parent known member)
        | none =>
          rw [known, Option.none_or] at there
          obtain ⟨-, same⟩ := Option.ite_none_right_eq_some.mp there
          cases same
          exact kept (fits.known parent member) } }

variable [DecidableEq B] (lib : Formats B) (commitId : Instant → Commit → String)

section Effect
open Classical

/-- What Git does, with the objects under `ids` and a commit of now under `commitId`. `update-ref` compares
the old value, and the remote refuses a push that is no fast-forward. -/
noncomputable def effect (w : World B) : (c : Command B) → Option c.Answer × World B
  | .init => (some (), w)
  | .symbolicRef => (some (), w)
  | .forEachRef => (some w.branch, w)
  | .lsRemote => (some w.remote, w)
  | .fetch => match w.remote with
    | some head => (some (), { w with check := some head })
    | none => (none, w)
  | .revParseCheck => (w.check, w)
  | .isAncestor older newer => (if Older w.parents older newer then some () else none, w)
  | .hashObject staging names => match names.mapM staging with
    | some contents => (some (contents.map ids.blob), w.addBlobs ids contents)
    | none => (none, w)
  | .mktree input => (some (ids.tree (Git.mktree input)), w.addTree ids (Git.mktree input))
  | .revParseTree commit => ((w.objects.commits commit).map Commit.tree, w)
  | .commitTree manifest tree parent =>
    let commit := Git.commitTree manifest tree parent
    if fits : w.Fits (commitId w.now commit) commit then
      (some (commitId w.now commit), w.addCommit (commitId w.now commit) commit fits)
    else (none, w)
  | .updateRef new old =>
    if w.branch = old ∧ (w.objects.commits new).isSome = true then (some (), { w with branch := some new }) else (none, w)
  | .push commit =>
    if (w.objects.commits commit).isSome = true ∧ Forward w.parents w.remote (some commit) then
      (some (), { w with remote := some commit })
    else (none, w)
  | .recognize scope layout head => (some (Git.recognize lib w.objects scope layout head), w)

end Effect

/-- The references name commits that are there. -/
structure World.Sound (w : World B) : Prop where
  branch : ∀ oid, w.branch = some oid → (w.objects.commits oid).isSome = true
  check : ∀ oid, w.check = some oid → (w.objects.commits oid).isSome = true
  remote : ∀ oid, w.remote = some oid → (w.objects.commits oid).isSome = true

/-- A tree has an object id, and no other commit has the id of the next one. -/
structure World.Named (w : World B) : Prop where
  trees : ∀ oid found, w.objects.commits oid = some found → isOid found.tree.toList = true
  unique : ∀ commit found, w.objects.commits (commitId w.now commit) = some found → found = commit

/-- Commits are added and stay as they are. -/
def Grows (w v : World B) : Prop := ∀ oid commit, w.objects.commits oid = some commit → v.objects.commits oid = some commit

/-- What others do between two commands: they add objects and move the branch of the remote, with `polite`
only forward. The state directory is locked. -/
structure Elsewhere (polite : Bool) (w v : World B) : Prop where
  grows : Grows w v
  branch : v.branch = w.branch
  check : v.check = w.check
  known : ∀ oid, v.remote = some oid → (v.objects.commits oid).isSome = true
  forward : polite = true → Forward v.parents w.remote v.remote

/-- A commit with the files of the publication. -/
def Has (prepared : Prepared B) (commit : Commit) : Prop :=
  ∃ listed, Git.treeInput ids prepared.staging prepared.names = .ok listed ∧ commit.tree = ids.tree (mktree listed)

/-- The local branch got one commit on top, with files that it did not have. -/
def Extended (prepared : Prepared B) (w v : World B) : Prop :=
  ∃ oid commit, v.branch = some oid ∧ v.objects.commits oid = some commit ∧ commit.parents = w.branch.toList ∧
    Has ids prepared commit ∧ ∀ own found, w.branch = some own → w.objects.commits own = some found → ¬Has ids prepared found

/-- What a command of a publication may do. What it pushes is the local branch. -/
structure Publishes (prepared : Prepared B) (w v : World B) : Prop where
  grows : Grows w v
  branch : v.branch = w.branch ∨ Extended ids prepared w v
  remote : v.remote = w.remote ∨ v.remote = v.branch ∧ Forward v.parents w.remote v.remote

/-- What a command of an adoption may do. -/
structure Follows (w v : World B) : Prop where
  grows : Grows w v
  branch : Forward v.parents w.branch v.branch
  remote : v.remote = w.remote

/-- One thing that happens: others act, or a publication or an adoption of the state directory runs,
ends or stops anywhere. -/
inductive Activity (polite : Bool) : World B → World B → Prop
  | elsewhere {w v : World B} : Elsewhere polite w v → Activity polite w v
  | publish {remote : Bool} {prepared : Prepared B} {w v : World B} {o : Commands.Outcome Failure Published} :
      Runs (effect ids lib commitId) (Elsewhere polite) (commitInternal remote prepared) w o v → Activity polite w v
  | adopt {scope : Scope} {layout : Layout} {w v : World B} {o : Commands.Outcome Failure Adoption} :
      Runs (effect ids lib commitId) (Elsewhere polite) (adopt scope layout) w o v → Activity polite w v

end Objects

end SiriusProxy.Master.Git.Remote
