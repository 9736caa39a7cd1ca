import SiriusProxy.Outbox.Once
import SiriusProxy.Dispatch.Worker

namespace SiriusProxy.Dispatch
open Effect Outbox
variable {L : Library} {s t : Store L} {e : Stop} {key : String} {items rest : List (String × Entry)}

/-- The outbox invariant: files and memory agree, and submissions are disciplined. -/
structure Sound (s : Store L) : Prop where
  saved : Saved s
  once : Once s

theorem Sound.near (sound : Sound s) (near : Near s t) : Sound t := ⟨near.saved sound.saved, near.once sound.once⟩

theorem Sound.stopped (sound : Sound s) (stopped : Stopped s e t) : Sound t :=
  ⟨stopped.saved sound.saved, stopped.once sound.once⟩

/-- The copies a pass carries are still the ledger's, one for each key. -/
structure Copies (s : Store L) (items : List (String × Entry)) : Prop where
  distinct : items.Pairwise fun a b => a.1 ≠ b.1
  current : ∀ item ∈ items, s.ledger.entries[item.1]? = some item.2

/-- While the entry of `key` is worked on: the rest of the batch waits unchanged. -/
structure Ready (key : String) (rest : List (String × Entry)) (s : Store L) : Prop where
  sound : Sound s
  copies : Copies s rest
  apart : ∀ item ∈ rest, item.1 ≠ key

theorem rotation_distinct (ledger : Ledger) : (Outbox.rotation ledger).Pairwise fun a b => a.1 ≠ b.1 := by
  have distinct : ledger.entries.toList.Pairwise fun a b => a.1 ≠ b.1 := by
    refine Std.TreeMap.distinct_keys_toList.imp fun apart same => apart ?_
    exact Std.LawfulEqOrd.compare_eq_iff_eq.mpr same
  unfold Outbox.rotation
  refine List.Pairwise.filter _ (List.pairwise_append.mpr ⟨distinct.filter _, distinct.filter _, ?_⟩)
  intro a memberAfter b memberBefore same
  obtain ⟨-, after⟩ := List.mem_filter.mp memberAfter
  obtain ⟨-, before⟩ := List.mem_filter.mp memberBefore
  cases cursor : ledger.reconciliationCursor with
  | none =>
    rw [cursor] at before
    cases before
  | some c =>
    simp only [cursor, decide_eq_true_eq] at after before
    rw [same] at after
    exact absurd after (String.not_lt.mpr before)

theorem copies_of_selected {limit : Nat} {batch : List (String × Entry)} (selected : Selected s limit batch t) :
    Copies t batch := by
  obtain ⟨chosen, place⟩ := selected
  have same : t.ledger.entries = s.ledger.entries := by
    rcases place with ⟨-, near⟩ | ⟨key, entry, -, near⟩
    · rw [near.ledger]
    · rw [near.ledger]
      rfl
  subst chosen
  refine ⟨(rotation_distinct s.ledger).sublist (List.take_sublist _ _), fun item member => ?_⟩
  rw [same]
  exact mem_rotation (List.mem_of_mem_take member)

theorem Copies.tail {item : String × Entry} (copies : Copies s (item :: rest)) : Copies s rest :=
  ⟨copies.distinct.of_cons, fun other member => copies.current other (List.mem_cons_of_mem _ member)⟩

theorem Copies.apart {item : String × Entry} (copies : Copies s (item :: rest)) :
    ∀ other ∈ rest, other.1 ≠ item.1 :=
  fun other member same => (List.pairwise_cons.mp copies.distinct).1 other member same.symm

theorem Copies.head {item : String × Entry} (sound : Sound s) (copies : Copies s (item :: rest)) :
    Ready item.1 rest s :=
  ⟨sound, copies.tail, copies.apart⟩

theorem Ready.alone (sound : Sound s) : Ready key [] s where
  sound := sound
  copies := ⟨.nil, fun _ member => absurd member List.not_mem_nil⟩
  apart := fun _ member => absurd member List.not_mem_nil

/-- Moving the entry in work leaves the rest of the batch ready. -/
theorem Ready.moved {f : State → Except Error State} (ready : Ready key rest s) (moved : Moved s key f t)
    (sound : Sound t) : Ready key rest t where
  sound := sound
  copies := by
    refine ⟨ready.copies.distinct, fun item member => ?_⟩
    obtain ⟨entry, state, -, -, near⟩ := moved
    rw [near.ledger]
    change (s.ledger.put key _).entries[item.1]? = _
    rw [getElem?_put, if_neg (Ne.symm (ready.apart item member))]
    exact ready.copies.current item member
  apart := ready.apart

/-- A triple stated from each single store. -/
theorem triple_from {α : Type} {P : Store L → Prop} {m : Op L α} {Q : α → Store L → Prop}
    {E : Stop → Store L → Prop} (triple : ∀ s, P s → Triple (Near s) m Q E) : Triple P m Q E :=
  fun s pre => triple s pre s (Near.refl s)

theorem stopped_sound (ready : Ready key rest s) : ∀ e t, Stopped s e t → Sound t :=
  fun _ _ stopped => ready.sound.stopped stopped

theorem beginSend_ready (rest : List (String × Entry)) (now : Instant) :
    Triple (fun s : Store L => Ready key rest s ∧ Refused s.log key) (beginSend key now)
      (fun _ t => (Ready key rest t ∧ Refused t.log key) ∧
        ∃ entry since, t.ledger.entries[key]? = some entry ∧ entry.state = .sending since)
      (fun _ => Sound) := by
  refine triple_from fun s ⟨ready, refused⟩ => ?_
  refine (change_moved key (beginSendState now)).weaken (fun _ t moved => ?_) (stopped_sound ready)
  have saved : Saved t := moved.saved ready.sound.saved fun state next _ step => by
    obtain ⟨⟨since, rfl⟩, -⟩ := beginSendState_target step
    rfl
  have once : Once t := by
    refine moved.once ready.sound.once ?_ ?_
    · intro state step
      obtain ⟨⟨since, never⟩, -⟩ := beginSendState_target step
      cases never
    · rintro state next step running closed
      obtain ⟨-, rfl | rfl⟩ := beginSendState_target step
      · exact closed
      · exact running closed
  refine ⟨⟨ready.moved moved ⟨saved, once⟩, moved.posts refused⟩, ?_⟩
  obtain ⟨entry, state, held, accepted, near⟩ := moved
  obtain ⟨⟨since, rfl⟩, -⟩ := beginSendState_target accepted
  refine ⟨{ entry with state := .sending since }, since, ?_, rfl⟩
  rw [near.ledger]
  change (s.ledger.put key _).entries[key]? = _
  rw [getElem?_put, if_pos rfl]

/-- A transition into a closed state needs nothing but a valid target. -/
theorem close_ready {f : State → Except Error State} (moved : Moved s key f t) (ready : Ready key rest s)
    (closes : ∀ state next, validState L state → f state = .ok next → validState L next ∧ Closed next) :
    Ready key rest t := by
  have saved : Saved t := moved.saved ready.sound.saved fun state next valid step => (closes state next valid step).1
  refine ready.moved moved ⟨saved, ?_⟩
  obtain ⟨entry, state, held, accepted, near⟩ := moved
  have closed := (closes _ _ (ready.sound.saved.represents.valid key entry held) accepted).2
  refine near.once (ready.sound.once.put held ?_ ?_)
  · rintro rfl
    exact closed.elim
  · exact fun running => absurd closed running

theorem acknowledge_ready (id : String) :
    Triple (Ready (L := L) key rest) (acknowledge key id) (fun _ => Ready key rest) (fun _ => Sound) := by
  refine triple_from fun s ready => ?_
  refine (acknowledge_spec key id).weaken ?_ (stopped_sound ready)
  rintro _ t ⟨canonical, moved⟩
  refine close_ready moved ready fun state next _ step => ?_
  obtain ⟨rfl, -⟩ := acknowledgeState_target step
  exact ⟨canonical, trivial⟩

theorem complete_ready (id catalogSha256 : String) (publicationId : Option String) :
    Triple (Ready (L := L) key rest) (complete key id catalogSha256 publicationId) (fun _ => Ready key rest)
      (fun _ => Sound) := by
  refine triple_from fun s ready => ?_
  refine (complete_spec key id catalogSha256 publicationId).weaken ?_ (stopped_sound ready)
  rintro _ t ⟨⟨hashed, published⟩, moved⟩
  refine close_ready moved ready fun state next valid step => ?_
  exact ⟨completeState_valid hashed published valid step, (completeState_target step).1 ▸ trivial⟩

theorem fail_ready (code : String) :
    Triple (Ready (L := L) key rest) (Outbox.fail key code) (fun _ => Ready key rest) (fun _ => Sound) := by
  refine triple_from fun s ready => ?_
  refine (fail_spec key code).weaken ?_ (stopped_sound ready)
  rintro _ t ⟨named, moved⟩
  refine close_ready moved ready fun state next valid step => ?_
  refine ⟨failState_valid named valid step, ?_⟩
  obtain ⟨jobId, rfl, -⟩ := failState_target step
  trivial

theorem refused_ready :
    Triple (fun s : Store L => Ready key rest s ∧ Refused s.log key) (Outbox.refused key)
      (fun _ => Ready key rest) (fun _ => Sound) := by
  refine triple_from fun s ⟨ready, refused⟩ => ?_
  refine (change_moved key refusedState).weaken (fun _ t moved => ?_) (stopped_sound ready)
  refine ready.moved moved ⟨?_, ?_⟩
  · refine moved.saved ready.sound.saved fun state next _ step => ?_
    obtain ⟨rfl, -⟩ := refusedState_target step
    rfl
  · refine moved.once ready.sound.once (fun _ _ => refused) ?_
    rintro state next step - closed
    obtain ⟨-, since, rfl⟩ := refusedState_target step
    exact closed

end SiriusProxy.Dispatch
