import SiriusProxy.Master.Disk

namespace SiriusProxy.Master
open Reads (eval run)

variable {B : Type} (lib : Serde B)

structure HistoryEntry where
  snapshot : String
  version : String
  resourceVersion : Option String
  contentSha256 : String
  publishedAt : Option Instant
  fileCount : Nat
  totalSize : Nat
  deriving DecidableEq, Repr

structure History where
  schemaVersion : Nat
  scope : Scope
  head : String
  entries : List HistoryEntry
  hasMore : Bool
  nextBefore : Option String
  legacyBoundary : Bool
  retentionBoundary : Bool
  deriving DecidableEq, Repr

def validHistoryCursor (value : String) : Bool :=
  decide (value.utf8ByteSize ≤ 128) && startsWith value "master-" && safeComponent value

def MasterError.missing : MasterError → Bool
  | .notFound => true
  | .io missing => missing
  | _ => false

/-- `crossed_boundary` once the boundary has been read again. -/
def crossedRead (error : MasterError) (failed : String) (visited : List String) :
    Except MasterError (Option String) → Reader B String
  | .ok (some boundary) => if boundary ≠ failed ∧ boundary ∈ visited then pure boundary else .throw error
  | _ => .throw error

def crossedBoundary (error : MasterError) (failed : String) (visited : List String) : Reader B String :=
  if !error.missing then .throw error
  else (retentionBoundary lib).attempt >>= crossedRead error failed visited

/-- The snapshot a walk goes on with; `none` at the boundary it was told. -/
def onward (boundary : Option String) (snapshot : String) (record : Option Publication) : Option String :=
  if boundary = some snapshot then none else record.bind Publication.previousSnapshot

inductive Turn (α ω : Type) where
  | stop (r : Except MasterError α)
  | go (state : ω)

/-- What `history_walk` and `by_hash_walk` do in their loop over the chain: with a snapshot that was
read, at a new boundary the walk has crossed, and at the end. -/
structure Visitor (B α ω : Type) where
  visit : Option String → ω → String → Document B → PublishedManifest → Option Publication → Turn α ω
  cross : ω → String → Except MasterError α
  finish : ω → Except MasterError α

variable {α ω : Type}

def chainRead (visitor : Visitor B α ω) (boundary : Option String) (again : ω → Option String → Reader B α)
    (state : ω) (snapshot : String) (visited : List String) :
    Except MasterError (Document B × Option Publication) → Reader B α
  | .error error => do
    let crossed ← crossedBoundary lib error snapshot visited
    .done (visitor.cross state crossed)
  | .ok (document, record) =>
    match lib.published document.bytes with
    | none => .throw .format
    | some value =>
      match visitor.visit boundary state snapshot document value record with
      | .stop r => .done r
      | .go state => again state (onward boundary snapshot record)

/-- The loop; its first number is what is left of 10,000 snapshots. -/
def chainLoop (visitor : Visitor B α ω) (scope : Scope) (boundary : Option String) :
    Nat → List String → ω → Option String → Reader B α
  | _, _, state, none => .done (visitor.finish state)
  | 0, _, _, some _ => .throw .limit
  | room + 1, visited, state, some snapshot =>
    if visited.contains snapshot then .throw .format
    else do
      let read ← ((chainStep lib scope snapshot (snapshot :: visited)).zoom fun root => root.snapshots snapshot).attempt
      chainRead lib visitor boundary (chainLoop visitor scope boundary room (snapshot :: visited)) state snapshot
        (snapshot :: visited) read

/-- What a request for a page fixes. -/
structure Query where
  scope : Scope
  limit : Nat
  before : Option String

/-- The variables of the loop of `history_walk`. -/
structure Walk where
  cursorFound : Bool
  entries : List HistoryEntry := []
  legacyBoundary : Bool := false
  retained : Bool := false

/-- From the end of the loop on. -/
def Walk.finish (query : Query) (head : String) (walk : Walk) (next : Option String) : Except MasterError History :=
  if !walk.cursorFound then .error .notFound
  else .ok
    { schemaVersion := 1, scope := query.scope, head, entries := walk.entries, hasMore := next.isSome,
      nextBefore := if next.isSome then walk.entries.getLast?.map HistoryEntry.snapshot else none,
      legacyBoundary := walk.legacyBoundary, retentionBoundary := walk.retained }

/-- The recovery at a new boundary this walk has crossed. -/
def Walk.cross (query : Query) (head : String) (walk : Walk) (crossed : String) : Except MasterError History :=
  if query.before = some crossed then { walk with entries := [], retained := true }.finish query head none
  else
    match walk.entries.findIdx? (fun e => e.snapshot == crossed) with
    | some at_ => { walk with entries := walk.entries.take (at_ + 1), retained := true }.finish query head none
    | none => .error .notFound

def entryOf (snapshot : String) (value : PublishedManifest) (publishedAt : Option Instant) : HistoryEntry where
  snapshot := snapshot
  version := value.version
  resourceVersion := value.resourceVersion
  contentSha256 := value.contentSha256
  publishedAt := publishedAt
  fileCount := value.files.length
  totalSize := (value.files.map File.size).sum

/-- The flags after a snapshot was read. -/
def Walk.flag (boundary : Option String) (snapshot : String) (record : Option Publication) (walk : Walk) : Walk :=
  { walk with
    legacyBoundary := walk.legacyBoundary || record.isNone
    retained := walk.retained || ((record.bind Publication.previousSnapshot).isSome && boundary == some snapshot) }

/-- Entries are collected once the cursor was found, until the page is full. -/
def Walk.visit (query : Query) (head : String) (boundary : Option String) (walk : Walk) (snapshot : String)
    (value : PublishedManifest) (record : Option Publication) : Turn History Walk :=
  let walk := walk.flag boundary snapshot record
  if !walk.cursorFound then .go { walk with cursorFound := query.before == some snapshot }
  else
    let walk := { walk with entries := walk.entries ++ [entryOf snapshot value (record.map Publication.publishedAt)] }
    if walk.entries.length = query.limit then .stop (walk.finish query head (onward boundary snapshot record))
    else .go walk

def historyVisitor (query : Query) (head : String) : Visitor B History Walk where
  visit boundary walk snapshot _ value record := walk.visit query head boundary snapshot value record
  cross := Walk.cross query head
  finish walk := walk.finish query head none

/-- `history_walk` from its head on. -/
def historyFrom (query : Query) (boundary : Option String) : Option String → Reader B History
  | none => .throw .notFound
  | some head =>
    chainLoop lib (historyVisitor query head) query.scope boundary 10000 [] { cursorFound := query.before.isNone }
      (some head)

def historyWalk (query : Query) (boundary : Option String) : Reader B History :=
  if query.before.any fun v => !validHistoryCursor v then .throw .format
  else predecessor lib >>= historyFrom lib query boundary

def historyPageInner (query : Query) : Reader B History := retentionBoundary lib >>= historyWalk lib query

def historyPage (query : Query) : Reader B History :=
  if query.limit < 1 ∨ 100 < query.limit then .throw .limit else historyPageInner lib query

def byHashVisitor (hash : String) : Visitor B (Document B) Unit where
  visit _ _ _ document value _ := if value.contentSha256 = hash then .stop (.ok document) else .go ()
  cross _ _ := .error .notFound
  finish _ := .error .notFound

def byHashWalk (scope : Scope) (hash : String) (boundary : Option String) : Reader B (Document B) :=
  predecessor lib >>= chainLoop lib (byHashVisitor hash) scope boundary 10000 [] ()

def manifestByHash (scope : Scope) (hash : String) : Reader B (Document B) :=
  if !hashValid hash then .throw .format
  else retentionBoundary lib >>= byHashWalk lib scope hash

end SiriusProxy.Master
