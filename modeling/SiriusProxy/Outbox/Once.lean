import SiriusProxy.Outbox.Durable

namespace SiriusProxy.Outbox
open Effect
variable {L : Library} {s t : Store L} {e : Stop} {key : String} {log : List Event}

/-- The updater definitely answered that it is busy. -/
def Busy (status : Option Nat) : Prop := status = some 429 ∨ status = some 503

def Closed : State → Prop
  | .submitted _ => True
  | .completed .. => True
  | .failed .. => True
  | _ => False

/-- The event ends submission of the key: a committed ledger has it submitted, completed or
failed, or it is archived. -/
def Settles (key : String) : Event → Prop
  | .committed ledger => ∃ entry, ledger.entries[key]? = some entry ∧ Closed entry.state
  | .archived k => k = key
  | _ => False

def Settled (log : List Event) (key : String) : Prop := ∃ event ∈ log, Settles key event

/-- Every submission of the key so far was definitely refused. -/
def Refused (log : List Event) (key : String) : Prop := ∀ status, .posted key status ∈ log → Busy status

/-- A submission is only ever sent after refusals, and never for a settled key. -/
def Disciplined (log : List Event) : Prop :=
  ∀ later earlier key status, log = later ++ .posted key status :: earlier →
    Refused earlier key ∧ ¬ Settled earlier key

/-- What the history may hold for a key, given its ledger entry and its receipt. -/
structure Consistent (log : List Event) (key : String) (held : Option Entry) (receipt : Bool) : Prop where
  refused : ∀ entry, held = some entry → entry.state = .pending → Refused log key
  unsettled : ∀ entry, held = some entry → ¬ Closed entry.state → ¬ Settled log key
  absent : held = none → receipt = false → (∀ status, .posted key status ∉ log) ∧ ¬ Settled log key

structure Once (s : Store L) : Prop where
  consistent : ∀ key, Consistent s.log key s.ledger.entries[key]? (s.disk.completed key).isSome
  disciplined : Disciplined s.log

theorem settled_cons {event : Event} : Settled (event :: log) key ↔ Settles key event ∨ Settled log key := by
  simp only [Settled, List.mem_cons, or_and_right, exists_or, exists_eq_left]

theorem posted_cons {event : Event} (silent : ∀ status, event ≠ .posted key status) {status : Option Nat} :
    .posted key status ∈ event :: log ↔ .posted key status ∈ log := by
  rw [List.mem_cons]
  exact ⟨fun member => member.resolve_left fun same => silent status same.symm, Or.inr⟩

/-- An event that is not a submission of the key is invisible to it, unless it ends the key. -/
theorem Consistent.cons {event : Event} {held : Option Entry} {receipt : Bool}
    (ok : Consistent log key held receipt) (silent : ∀ status, event ≠ .posted key status)
    (closed : Settles key event → ∃ entry, held = some entry ∧ Closed entry.state) :
    Consistent (event :: log) key held receipt where
  refused := fun entry same pending status member =>
    ok.refused entry same pending status ((posted_cons silent).mp member)
  unsettled := by
    intro entry same running
    rw [settled_cons]
    rintro (now | before)
    · obtain ⟨other, found, ended⟩ := closed now
      cases Option.some.inj (same.symm.trans found)
      exact running ended
    · exact ok.unsettled entry same running before
  absent := by
    intro none receipt
    obtain ⟨unsent, unsettled⟩ := ok.absent none receipt
    refine ⟨fun status member => unsent status ((posted_cons silent).mp member), ?_⟩
    rw [settled_cons]
    rintro (now | before)
    · obtain ⟨other, found, -⟩ := closed now
      cases none.symm.trans found
    · exact unsettled before

theorem Disciplined.cons {event : Event} (ok : Disciplined log)
    (new : ∀ key status, event = .posted key status → Refused log key ∧ ¬ Settled log key) :
    Disciplined (event :: log) := by
  intro later earlier key status split
  cases later with
  | nil =>
    obtain ⟨rfl, rfl⟩ := List.cons.inj split
    exact new key status rfl
  | cons first rest =>
    obtain ⟨-, tail⟩ := List.cons.inj split
    exact ok rest earlier key status tail

theorem Near.once (near : Near s t) (once : Once s) : Once t := by
  obtain ⟨rest, rfl⟩ := near
  exact ⟨once.consistent, once.disciplined⟩

/-- A history entry without a submission, a commit or a receipt. -/
theorem Once.note {event : Event} (once : Once s) (silent : ∀ key status, event ≠ .posted key status)
    (neutral : ∀ key, ¬ Settles key event) : Once { s with log := event :: s.log } where
  consistent := fun key => (once.consistent key).cons (silent key) fun now => absurd now (neutral key)
  disciplined := once.disciplined.cons fun key status same => absurd same (silent key status)

theorem Stopped.once (stopped : Stopped s e t) (once : Once s) : Once t := by
  obtain (⟨-, near⟩ | ⟨-, near⟩) | ⟨reason, -, near⟩ := stopped
  · exact near.once once
  · exact near.once (once.note (fun _ _ => nofun) fun _ => id)
  · exact near.once once

/-- A commit keeps the discipline if each key's entry is the old one or fits the history. -/
theorem Once.wrote {ledger : Ledger} (once : Once s)
    (fits : ∀ key, ledger.entries[key]? = s.ledger.entries[key]? ∨
      Consistent s.log key ledger.entries[key]? (s.disk.completed key).isSome) : Once (s.wrote ledger) where
  consistent := by
    intro key
    have ok : Consistent s.log key ledger.entries[key]? (s.disk.completed key).isSome := by
      rcases fits key with same | ok
      · rw [same]
        exact once.consistent key
      · exact ok
    exact ok.cons (fun _ => nofun) id
  disciplined := once.disciplined.cons fun _ _ => nofun

/-- A state written over an existing entry. -/
theorem Once.put {entry : Entry} {state : State} (once : Once s) (held : s.ledger.entries[key]? = some entry)
    (refused : state = .pending → Refused s.log key)
    (running : ¬ Closed state → ¬ Closed entry.state) :
    Once (s.wrote (s.ledger.put key { entry with state := state })) := by
  refine once.wrote fun other => ?_
  rw [getElem?_put]
  split_ifs with same
  · subst same
    refine Or.inr ⟨?_, ?_, ?_⟩
    · rintro _ ⟨⟩ pending
      exact refused pending
    · rintro _ ⟨⟩ notClosed
      exact (once.consistent key).unsettled entry held (running notClosed)
    · rintro ⟨⟩
  · exact Or.inl rfl

theorem Moved.once {f : State → Except Error State} (moved : Moved s key f t) (once : Once s)
    (refused : ∀ state, f state = .ok .pending → Refused s.log key)
    (running : ∀ state next, f state = .ok next → ¬ Closed next → ¬ Closed state) : Once t := by
  obtain ⟨entry, state, held, accepted, near⟩ := moved
  refine near.once (once.put held ?_ ?_)
  · rintro rfl
    exact refused entry.state accepted
  · exact running entry.state state accepted

theorem Moved.posts {f : State → Except Error State} (moved : Moved s key f t) {k : String}
    (refused : Refused s.log k) : Refused t.log k := by
  obtain ⟨entry, state, -, -, near⟩ := moved
  intro status member
  rw [near.log] at member
  rcases List.mem_cons.mp member with same | member
  · cases same
  · exact refused status member

theorem Observed.once {identity : Identity} (observed : Observed s identity key t) (once : Once s) : Once t := by
  obtain ⟨-, ⟨-, near⟩ | ⟨entry, -, -, near⟩ | ⟨absent, unarchived, -, u, rfl, near⟩⟩ := observed
  · exact near.once (once.note (fun _ _ => nofun) fun _ => id)
  · exact near.once (once.note (fun _ _ => nofun) fun _ => id)
  · have pending : Once (s.wrote (s.ledger.put key { identity := identity, state := .pending })) := by
      refine once.wrote fun other => ?_
      rw [getElem?_put]
      split_ifs with same
      · subst same
        obtain ⟨unsent, unsettled⟩ := (once.consistent key).absent absent (by rw [unarchived]; rfl)
        refine Or.inr ⟨?_, ?_, ?_⟩
        · rintro _ ⟨⟩ - status member
          exact absurd member (unsent status)
        · rintro _ ⟨⟩ -
          exact unsettled
        · rintro ⟨⟩
      · exact Or.inl rfl
    exact near.once (pending.note (fun _ _ => nofun) fun _ => id)

theorem Once.archive {entry : Entry} (once : Once s) (archivable : Archivable s key entry) :
    Once (s.archive key entry) where
  consistent := by
    intro other
    obtain ⟨held, jobId, catalogSha256, publicationId, completed⟩ := archivable
    have ok : Consistent s.log other s.ledger.entries[other]? ((s.archive key entry).disk.completed other).isSome := by
      obtain ⟨refused, unsettled, absent⟩ := once.consistent other
      refine ⟨refused, unsettled, fun missing receipt => absent missing ?_⟩
      change (if other = key then some _ else _).isSome = false at receipt
      split_ifs at receipt
      · cases receipt
      · exact receipt
    refine ok.cons (fun _ => nofun) ?_
    rintro rfl
    exact ⟨entry, held, completed ▸ trivial⟩
  disciplined := once.disciplined.cons fun _ _ => nofun

/-- The ledger may forget a key that has a receipt. -/
theorem Once.forget (once : Once s) (receipt : (s.disk.completed key).isSome) :
    Once (s.wrote (s.ledger.remove key)) := by
  refine once.wrote fun other => ?_
  rw [getElem?_remove]
  split_ifs with same
  · subst same
    refine Or.inr ⟨?_, ?_, ?_⟩
    · rintro _ ⟨⟩
    · rintro _ ⟨⟩
    · intro _ missing
      rw [receipt] at missing
      cases missing
  · exact Or.inl rfl

theorem Archived.once (archived : Archived s key t) (once : Once s) : Once t := by
  obtain ⟨-, near⟩ | ⟨entry, archivable, ⟨⟨bytes, receipt, -⟩, near⟩ | ⟨-, near⟩⟩ := archived
  · exact near.once once
  · exact near.once (once.forget (receipt ▸ rfl))
  · refine near.once ((once.archive archivable).forget ?_)
    change (if key = key then some _ else _).isSome = true
    rw [if_pos rfl]
    rfl

theorem ArchiveStopped.once (stopped : ArchiveStopped s key e t) (once : Once s) : Once t := by
  obtain stopped | ⟨entry, archivable, -, stopped⟩ := stopped
  · exact stopped.once once
  · exact stopped.once (once.archive archivable)

theorem Selected.once {limit : Nat} {batch : List (String × Entry)} (selected : Selected s limit batch t)
    (once : Once s) : Once t := by
  obtain ⟨-, ⟨-, near⟩ | ⟨key, entry, -, near⟩⟩ := selected
  · exact near.once once
  · exact near.once (once.wrote fun _ => Or.inl rfl)

theorem Opened.once {capacity : Nat} (opened : Opened s capacity t) (known : readLedger s.disk = .ok s.ledger)
    (once : Once s) : Once t := by
  obtain ⟨-, ledger, read, -, near⟩ := opened
  obtain rfl : ledger = s.ledger := Except.ok.inj (read.symm.trans known)
  have kept : Once (s.wrote s.ledger) := once.wrote fun _ => Or.inl rfl
  exact near.once ⟨kept.consistent, kept.disciplined⟩

theorem once_initial : Once ({} : Store L) where
  consistent := by
    intro key
    have none : ({} : Store L).ledger.entries[key]? = none := Std.TreeMap.getElem?_emptyc
    rw [none]
    refine ⟨?_, ?_, ?_⟩
    · rintro _ ⟨⟩
    · rintro _ ⟨⟩
    · intro _ _
      refine ⟨fun _ member => absurd member List.not_mem_nil, ?_⟩
      rintro ⟨event, member, -⟩
      exact absurd member List.not_mem_nil
  disciplined := by
    intro later earlier key status split
    have member : Event.posted key status ∈ ([] : List Event) := by
      rw [show ([] : List Event) = _ from split]
      exact List.mem_append_right _ List.mem_cons_self
    exact absurd member List.not_mem_nil

/-- A submission of a running key all of whose submissions so far were refused. -/
theorem Once.post {entry : Entry} (once : Once s) (status : Option Nat)
    (held : s.ledger.entries[key]? = some entry) (sending : ∃ since, entry.state = .sending since)
    (refused : Refused s.log key) : Once { s with log := .posted key status :: s.log } := by
  obtain ⟨since, sending⟩ := sending
  have unsettled := (once.consistent key).unsettled entry held (sending ▸ id)
  refine ⟨fun other => ?_, ?_⟩
  · by_cases same : other = key
    · subst same
      refine ⟨?_, ?_, ?_⟩
      · intro found present pending
        cases Option.some.inj (held.symm.trans present)
        rw [sending] at pending
        cases pending
      · intro found present _
        rw [settled_cons]
        exact fun settled => settled.elim id unsettled
      · exact fun missing => absurd (held.symm.trans missing) nofun
    · refine (once.consistent other).cons ?_ nofun
      rintro status ⟨⟩
      exact same rfl
  · refine once.disciplined.cons ?_
    rintro k status ⟨⟩
    exact ⟨refused, unsettled⟩

end SiriusProxy.Outbox
