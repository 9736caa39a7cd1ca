import SiriusProxy.Lib.Effect
import SiriusProxy.Outbox.Types

namespace SiriusProxy.Outbox
open Effect

/-- What becomes of one file step. -/
inductive Fate where
  | ok
  | fail
  | crash
  deriving DecidableEq, Repr

/-- Why an operation ends without a value: it returns an error, the process dies, or the
future is dropped at an await. -/
inductive Stop where
  | error (e : Error)
  | crashed
  | cancelled
  deriving DecidableEq, Repr

/-- The files of the state directory. -/
structure Disk (L : Library) where
  outbox : Option L.Bytes := none
  completed : String → Option L.Bytes := fun _ => none

/-- History of what became durable or was sent, newest first. A submission holds the HTTP
status it was definitely answered with. -/
inductive Event where
  | observed (identity : Identity)
  | committed (ledger : Ledger)
  | archived (key : String)
  | stepFailed
  | posted (key : String) (status : Option Nat)

/-- The process that owns the outbox, its files, the outcomes of the file steps to come and
the history. -/
structure Store (L : Library) where
  disk : Disk L := {}
  ledger : Ledger := {}
  capacity : Nat := 0
  fates : List Fate := []
  log : List Event := []

variable {L : Library}

abbrev Op (L : Library) (α : Type) : Type := Prog (Store L) Stop α

def invalid {α : Type} : Op L α := Prog.throw (.error .invalid)
def storage {α : Type} : Op L α := Prog.throw (.error .storage)

/-- One file step with its effect, which happens only when the step succeeds. -/
def fileStep (effect : Store L → Store L) : Op L PUnit := fun s =>
  match s.fates with
  | [] => (.ok ⟨⟩, effect s)
  | .ok :: rest => (.ok ⟨⟩, effect { s with fates := rest })
  | .fail :: rest => (.error (.error .storage), { s with fates := rest, log := .stepFailed :: s.log })
  | .crash :: rest => (.error .crashed, { s with fates := rest })

def Store.write (ledger : Ledger) (s : Store L) : Store L :=
  { s with disk := { s.disk with outbox := some (L.encodeLedger ledger) }, log := .committed ledger :: s.log }

/-- Temporary file, contents, synchronization, then the atomic rename; the memory follows. -/
def commit (ledger : Ledger) : Op L PUnit := do
  fileStep id
  fileStep id
  fileStep id
  fileStep (Store.write ledger)
  Prog.modify fun s => { s with ledger := ledger }

/-- What `open` requires of a ledger it reads. -/
def accepts (L : Library) (capacity : Nat) (ledger : Ledger) : Bool :=
  ledger.schemaVersion == 1 && decide (ledger.entries.size ≤ capacity) &&
    ledger.reconciliationCursor.all (fun key => ledger.entries.contains key) &&
    ledger.entries.toList.all fun (key, entry) =>
      (match entry.identity.key L with
        | .ok k => k == key
        | .error _ => false) && validState L entry.state

/-- The ledger file, or a new ledger where there is none. -/
def readLedger (disk : Disk L) : Except Error Ledger :=
  match disk.outbox with
  | none => .ok {}
  | some bytes => match L.decodeLedger bytes with
    | some ledger => .ok ledger
    | none => .error .storage

/-- `Outbox::open` once the owner lock is held. -/
def openOutbox (capacity : Nat) : Op L PUnit := do
  if ¬ (1 ≤ capacity ∧ capacity ≤ 100000) then invalid
  fileStep id
  fileStep id
  fileStep id
  let s ← Prog.get
  let ledger ← Prog.ofExcept ((readLedger s.disk).mapError .error)
  if ¬ accepts L capacity ledger then storage
  commit ledger
  Prog.modify fun s => { s with capacity := capacity }

/-- A stored receipt counts when it is small, readable, of this key and completed. -/
def readArchived (key : String) (bytes : L.Bytes) : Except Error Entry :=
  if 65536 < L.size bytes then .error .storage
  else match L.decodeEntry bytes with
    | none => .error .storage
    | some entry =>
      match entry.identity.key L, entry.state with
      | .ok k, .completed .. => if k = key ∧ validState L entry.state then .ok entry else .error .storage
      | _, _ => .error .storage

def archived (key : String) : Op L (Option Entry) := do
  if ¬ validKey key then invalid
  fileStep id
  fileStep id
  let s ← Prog.get
  match s.disk.completed key with
  | none => pure none
  | some bytes =>
    fileStep id
    match readArchived key bytes with
    | .ok entry => pure (some entry)
    | .error e => Prog.throw (.error e)

def Store.archive (key : String) (entry : Entry) (s : Store L) : Store L :=
  { s with
    disk := { s.disk with completed := fun k =>
      if k = key then some (L.encodeEntry entry) else s.disk.completed k }
    log := .archived key :: s.log }

def Ledger.remove (ledger : Ledger) (key : String) : Ledger :=
  { ledger with
    entries := ledger.entries.erase key
    reconciliationCursor := if ledger.reconciliationCursor = some key then none
      else ledger.reconciliationCursor }

/-- The receipt is created without replacing an existing one, then synchronized. -/
def writeArchive (key : String) (entry : Entry) (present : Option Entry) : Op L PUnit := do
  if present.isNone then
    fileStep id
    fileStep id
    fileStep id
    fileStep id
    fileStep id
    fileStep (Store.archive key entry)
  fileStep id
  fileStep id
  fileStep id

def archiveCompleted (key expectedJobId : String) : Op L Entry := do
  if ¬ (validKey key ∧ uuid L expectedJobId) then invalid
  let present ← archived key
  let s ← Prog.get
  match s.ledger.entries[key]?.or present with
  | none => invalid
  | some entry =>
    match entry.state with
    | .completed jobId _ _ => if jobId ≠ expectedJobId then invalid
    | _ => invalid
    if present.any (· ≠ entry) then storage
    writeArchive key entry present
    if s.ledger.entries.contains key then commit (s.ledger.remove key)
    pure entry

/-- Nonterminal entries in rotation order from the cursor. -/
def rotation (ledger : Ledger) : List (String × Entry) :=
  let entries := ledger.entries.toList
  let after := entries.filter fun e => match ledger.reconciliationCursor with
    | none => true
    | some cursor => decide (cursor < e.1)
  let before := entries.filter fun e => match ledger.reconciliationCursor with
    | none => false
    | some cursor => decide (e.1 ≤ cursor)
  (after ++ before).filter fun e => !e.2.state.terminal

def nextBatch (limit : Nat) : Op L (List (String × Entry)) := do
  if ¬ (1 ≤ limit ∧ limit ≤ 256) then invalid
  let s ← Prog.get
  let batch := (rotation s.ledger).take limit
  match batch.getLast? with
  | some (key, _) => commit { s.ledger with reconciliationCursor := some key }
  | none => pure ⟨⟩
  pure batch

def Ledger.put (ledger : Ledger) (key : String) (entry : Entry) : Ledger :=
  { ledger with entries := ledger.entries.insert key entry }

/-- `Outbox::observe`; success is noted in the history. -/
def observe (identity : Identity) : Op L String := do
  let key ← Prog.ofExcept ((identity.key L).mapError .error)
  let s ← Prog.get
  if s.ledger.entries.contains key then pure ⟨⟩
  else
    match ← archived key with
    | some _ => pure ⟨⟩
    | none =>
      if s.capacity ≤ s.ledger.entries.size then Prog.throw (.error .full)
      commit (s.ledger.put key { identity := identity, state := .pending })
  Prog.modify fun s => { s with log := .observed identity :: s.log }
  pure key

def change (key : String) (f : State → Except Error State) : Op L PUnit := do
  let s ← Prog.get
  match s.ledger.entries[key]? with
  | none => invalid
  | some entry =>
    let state ← Prog.ofExcept ((f entry.state).mapError .error)
    commit (s.ledger.put key { entry with state := state })

def beginSendState (now : Instant) : State → Except Error State
  | .pending => .ok (.sending now)
  | .sending first => .ok (.sending first)
  | _ => .error .invalid

def beginSend (key : String) (now : Instant) : Op L PUnit := change key (beginSendState now)

def refusedState : State → Except Error State
  | .sending _ => .ok .pending
  | _ => .error .invalid

def refused (key : String) : Op L PUnit := change key refusedState

def acknowledgeState (id : String) : State → Except Error State
  | .sending _ => .ok (.submitted id)
  | .submitted jobId => if jobId = id then .ok (.submitted jobId) else .error .invalid
  | _ => .error .invalid

def acknowledge (key id : String) : Op L PUnit := do
  if ¬ uuid L id then invalid
  change key (acknowledgeState id)

def adoptState (id : String) : State → Except Error State
  | .sending _ => .ok (.submitted id)
  | .failed none code =>
    if code = "submission_ambiguous" ∨ code = "invalid_job_response" then .ok (.submitted id)
    else .error .invalid
  | .submitted jobId => if jobId = id then .ok (.submitted jobId) else .error .invalid
  | _ => .error .invalid

/-- Operator recovery: existing work is adopted, never created. -/
def adopt (key id : String) : Op L PUnit := do
  if ¬ uuid L id then invalid
  change key (adoptState id)

def completeState (target : State) (id : String) (state : State) : Except Error State :=
  match state with
  | .submitted jobId => if jobId = id then .ok target else .error .invalid
  | _ => if state = target then .ok state else .error .invalid

def complete (key id catalogSha256 : String) (publicationId : Option String) : Op L PUnit := do
  if ¬ (digest catalogSha256 ∧ publicationId.all (uuid L)) then invalid
  change key (completeState (.completed id catalogSha256 publicationId) id)

def failState (code : String) : State → Except Error State
  | .pending => .ok (.failed none code)
  | .sending _ => .ok (.failed none code)
  | .submitted jobId => .ok (.failed (some jobId) code)
  | _ => .error .invalid

def fail (key code : String) : Op L PUnit := do
  if ¬ validCode code then invalid
  change key (failState code)

end SiriusProxy.Outbox
