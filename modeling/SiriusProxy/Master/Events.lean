import SiriusProxy.Lib.Recent
import SiriusProxy.Master.Mirror
import SiriusProxy.Master.Stored

namespace SiriusProxy.Master

variable {B J : Type}

def Database.retained (db : Database B J) (scope : Scope) : Finset String :=
  ((db.snapshots scope).map SnapshotRow.contentHash).toFinset

/-- The number of a content's last event, 0 where it has none. -/
def lastEvent (history : List Event) (scope : Scope) (hash : String) : Nat :=
  ((history.filter fun e => decide (e.scope = scope ∧ e.contentHash = hash)).getLast?.map Event.id).getD 0

/-- The content of the last event of a scope. -/
def lastContent (history : List Event) (scope : Scope) : Option String :=
  (history.filter fun e => decide (e.scope = scope)).getLast?.map Event.contentHash

/-- The numbers of the history grow. -/
def Increasing (history : List Event) : Prop := history.Pairwise fun a b => a.id < b.id

section History
variable {history : List Event} {scope : Scope} {hash other : String} {event : Event}

/-- The history grows at its end, so the last event of a content is the appended one if that is its event, and else
the one it had. -/
theorem lastEvent_append (history : List Event) (event : Event) (scope : Scope) (hash : String) :
    lastEvent (history ++ [event]) scope hash =
      if event.scope = scope ∧ event.contentHash = hash then event.id else lastEvent history scope hash := by
  unfold lastEvent
  rw [List.filter_append]
  by_cases own : event.scope = scope ∧ event.contentHash = hash
  · rw [if_pos own, List.filter_cons_of_pos (by simpa using own)]
    simp
  · rw [if_neg own, List.filter_cons_of_neg (by simpa using own)]
    simp

/-- The same for a scope: an appended event of that scope decides its current content. -/
theorem lastContent_append (history : List Event) (event : Event) (scope : Scope) :
    lastContent (history ++ [event]) scope =
      if event.scope = scope then some event.contentHash else lastContent history scope := by
  unfold lastContent
  rw [List.filter_append]
  by_cases own : event.scope = scope
  · rw [if_pos own, List.filter_cons_of_pos (by simpa using own)]
    simp
  · rw [if_neg own, List.filter_cons_of_neg (by simpa using own)]
    simp

/-- A number above zero is the number of an event of that content that is on record; zero stands for none. -/
theorem lastEvent_pos (positive : 0 < lastEvent history scope hash) :
    ∃ e ∈ history, e.scope = scope ∧ e.contentHash = hash ∧ e.id = lastEvent history scope hash := by
  unfold lastEvent at positive ⊢
  cases last : (history.filter fun e => decide (e.scope = scope ∧ e.contentHash = hash)).getLast? with
  | none =>
    rw [last] at positive
    cases positive
  | some e =>
    obtain ⟨inside, own⟩ := List.mem_filter.mp (List.mem_of_getLast? last)
    exact ⟨e, inside, (of_decide_eq_true own).1, (of_decide_eq_true own).2, rfl⟩

theorem Increasing.le_getLast {part : List Event} (increasing : Increasing part) {last : Event}
    (ends : part.getLast? = some last) (member : event ∈ part) : event.id ≤ last.id := by
  obtain ⟨early, rfl⟩ := List.getLast?_eq_some_iff.mp ends
  rcases List.mem_append.mp member with before | final
  · exact Nat.le_of_lt ((List.pairwise_append.mp increasing).2.2 event before last List.mem_cons_self)
  · rw [List.mem_singleton.mp final]

/-- The numbers increase along the history, so no event of a content has a greater number than its last. -/
theorem Increasing.le_lastEvent (increasing : Increasing history) (member : event ∈ history) (own : event.scope = scope)
    (content : event.contentHash = hash) : event.id ≤ lastEvent history scope hash := by
  have inside : event ∈ history.filter fun e => decide (e.scope = scope ∧ e.contentHash = hash) :=
    List.mem_filter.mpr ⟨member, by simp [own, content]⟩
  unfold lastEvent
  cases ends : (history.filter fun e => decide (e.scope = scope ∧ e.contentHash = hash)).getLast? with
  | none =>
    rw [List.getLast?_eq_none_iff.mp ends] at inside
    exact absurd inside List.not_mem_nil
  | some last => exact Increasing.le_getLast (increasing.filter _) ends inside

/-- The content of the last event of a scope is its most recent. -/
theorem Increasing.lastEvent_le (increasing : Increasing history) (last : lastContent history scope = some hash)
    (other : String) : lastEvent history scope other ≤ lastEvent history scope hash := by
  rcases Nat.eq_zero_or_pos (lastEvent history scope other) with zero | positive
  · rw [zero]
    exact Nat.zero_le _
  · obtain ⟨e, member, own, -, number⟩ := lastEvent_pos positive
    obtain ⟨final, ends, content⟩ := Option.map_eq_some_iff.mp last
    have inside : e ∈ history.filter fun e => decide (e.scope = scope) := List.mem_filter.mpr ⟨member, by simpa using own⟩
    obtain ⟨there, same⟩ := List.mem_filter.mp (List.mem_of_getLast? ends)
    calc lastEvent history scope other = e.id := number.symm
      _ ≤ final.id := Increasing.le_getLast (increasing.filter _) ends inside
      _ ≤ lastEvent history scope hash := increasing.le_lastEvent there (by simpa using same) content

end History

section Retention
variable {engine : Engine B J} {rows : List (SnapshotRow B J)} {last : String → Nat} {keep : Nat} {hash other : String}

/-- Rows that are ordered by what `touched` says. -/
structure Ranked (last : String → Nat) (rows : List (SnapshotRow B J)) : Prop where
  distinct : (rows.map SnapshotRow.contentHash).Nodup
  touched : ∀ row ∈ rows, last row.contentHash = row.touched
  strict : ∀ a ∈ rows, ∀ b ∈ rows, a.touched = b.touched → a.contentHash = b.contentHash

/-- The rows are sorted by `touched` and cut after `keep`. Where `touched` is the number of the last event and
no two contents share one, this selects the contents that fewer than `keep` others come after; the collation
never decides. -/
theorem Ranked.mem_newestRows (ranked : Ranked last rows) :
    other ∈ newestRows engine keep rows ↔ Recent.Among last keep (rows.map SnapshotRow.contentHash).toFinset other := by
  let before : SnapshotRow B J → SnapshotRow B J → Prop := fun a b =>
    b.touched < a.touched ∨ a.touched = b.touched ∧ engine.collate a.contentHash b.contentHash = true
  have total : Std.Total before := ⟨fun a b => by
    rcases Nat.lt_trichotomy a.touched b.touched with below | same | above
    · exact Or.inr (Or.inl below)
    · rcases engine.collate_total a.contentHash b.contentHash with first | second
      · exact Or.inl (Or.inr ⟨same, first⟩)
      · exact Or.inr (Or.inr ⟨same.symm, second⟩)
    · exact Or.inl (Or.inl above)⟩
  have trans : IsTrans (SnapshotRow B J) before := ⟨fun a b c first second => by
    rcases first with above | ⟨same, first⟩
    · rcases second with higher | ⟨equal, -⟩
      · exact Or.inl (higher.trans above)
      · exact Or.inl (equal ▸ above)
    · rcases second with higher | ⟨equal, second⟩
      · exact Or.inl (same ▸ higher)
      · exact Or.inr ⟨same.trans equal, engine.collate_trans _ _ _ first second⟩⟩
  have sorted : (rows.insertionSort before).Pairwise before := List.pairwise_insertionSort before rows
  have perm : (rows.insertionSort before).Perm rows := List.perm_insertionSort before rows
  have descending : ((rows.insertionSort before).map SnapshotRow.contentHash).Pairwise fun a b => last b < last a := by
    have apart : ((rows.insertionSort before).map SnapshotRow.contentHash).Nodup :=
      (perm.map SnapshotRow.contentHash).nodup_iff.mpr ranked.distinct
    rw [List.pairwise_map]
    refine List.Pairwise.imp_of_mem ?_ (sorted.and (List.pairwise_map.mp apart))
    rintro a b first second ⟨ordered, differs⟩
    have there := perm.subset first
    have also := perm.subset second
    rw [ranked.touched a there, ranked.touched b also]
    rcases ordered with below | ⟨same, -⟩
    · exact below
    · exact absurd (ranked.strict a there b also same) differs
  have taken : newestRows engine keep rows = ((rows.insertionSort before).map SnapshotRow.contentHash).take keep :=
    List.map_take.symm ▸ rfl
  rw [taken, Recent.mem_take_iff descending, List.toFinset_eq_of_perm _ _ (perm.map _)]

/-- The retention keeps the most recent contents, the stored one among them. -/
theorem Ranked.mem_retain (ranked : Ranked last rows) (positive : 0 < keep) (has : ∃ row ∈ rows, row.contentHash = hash)
    (newest : ∀ row ∈ rows, last row.contentHash ≤ last hash) :
    (∃ row ∈ retain engine keep hash rows, row.contentHash = other) ↔
      Recent.Among last keep (rows.map SnapshotRow.contentHash).toFinset other := by
  have own : Recent.Among last keep (rows.map SnapshotRow.contentHash).toFinset hash := by
    obtain ⟨row, inside, same⟩ := has
    refine ⟨List.mem_toFinset.mpr (same ▸ List.mem_map_of_mem inside), ?_⟩
    have none : (rows.map SnapshotRow.contentHash).toFinset.filter (fun b => last hash < last b) = ∅ := by
      refine Finset.filter_false_of_mem fun b member => ?_
      obtain ⟨row, inside, rfl⟩ := List.mem_map.mp (List.mem_toFinset.mp member)
      exact Nat.not_lt.mpr (newest row inside)
    rw [none]
    exact positive
  constructor
  · rintro ⟨row, member, rfl⟩
    obtain ⟨inside, chosen⟩ := List.mem_filter.mp member
    rw [Bool.or_eq_true, beq_iff_eq, List.contains_iff_mem] at chosen
    rcases chosen with same | recent
    · exact same ▸ own
    · exact ranked.mem_newestRows.mp recent
  · intro among
    obtain ⟨row, inside, rfl⟩ := List.mem_map.mp (List.mem_toFinset.mp among.1)
    have recent : row.contentHash ∈ newestRows engine keep rows := ranked.mem_newestRows.mpr among
    exact ⟨row, List.mem_filter.mpr ⟨inside, by simp [recent]⟩, rfl⟩

end Retention

/-- What holds between two transactions. -/
structure Database.Sound (db : Database B J) : Prop where
  increasing : Increasing db.history
  bounded : ∀ e ∈ db.history, 0 < e.id ∧ e.id ≤ db.sequence
  ranked : ∀ scope, Ranked (lastEvent db.history scope) (db.snapshots scope)
  positive : ∀ scope, ∀ row ∈ db.snapshots scope, 0 < row.touched
  current : ∀ scope, db.current scope = lastContent db.history scope
  held : ∀ scope hash, db.current scope = some hash → hash ∈ db.retained scope

theorem mem_retained {db : Database B J} {scope : Scope} {hash : String} :
    hash ∈ db.retained scope ↔ ∃ row ∈ db.snapshots scope, row.contentHash = hash := by
  rw [Database.retained, List.mem_toFinset, List.mem_map]

theorem Ranked.sublist {last : String → Nat} {rows part : List (SnapshotRow B J)} (ranked : Ranked last rows)
    (sublist : part.Sublist rows) : Ranked last part where
  distinct := ranked.distinct.sublist (sublist.map _)
  touched row member := ranked.touched row (sublist.subset member)
  strict a first b second := ranked.strict a (sublist.subset first) b (sublist.subset second)

theorem update_has {rows : List (SnapshotRow B J)} {hash : String} {n : Nat} (has : ∃ row ∈ rows, row.contentHash = hash) :
    ∃ row ∈ Rows.update SnapshotRow.contentHash hash (fun row => { row with touched := n }) rows, row.contentHash = hash := by
  obtain ⟨row, inside, same⟩ := has
  exact ⟨_, List.mem_map_of_mem inside, by rw [if_pos same]; exact same⟩

/-- No event has a number beyond the sequence that numbers are drawn from. -/
theorem Database.Sound.lastEvent_le {db : Database B J} (sound : db.Sound) (scope : Scope) (hash : String) :
    lastEvent db.history scope hash ≤ db.sequence := by
  rcases Nat.eq_zero_or_pos (lastEvent db.history scope hash) with zero | positive
  · rw [zero]
    exact Nat.zero_le _
  · obtain ⟨e, member, -, -, number⟩ := lastEvent_pos positive
    rw [← number]
    exact (sound.bounded e member).2

/-- The history only grows, by events with new numbers. -/
structure Grows (db after : Database B J) : Prop where
  events : ∃ events, after.history = db.history ++ events ∧ ∀ e ∈ events, db.sequence < e.id
  sequence : db.sequence ≤ after.sequence

/-- Two steps that only add events with new numbers are one such step. -/
theorem Grows.trans {db middle after : Database B J} (first : Grows db middle) (second : Grows middle after) : Grows db after := by
  obtain ⟨events, whole, new⟩ := first.events
  obtain ⟨others, more, newer⟩ := second.events
  refine ⟨⟨events ++ others, by rw [more, whole, List.append_assoc], fun e member => ?_⟩, first.sequence.trans second.sequence⟩
  rcases List.mem_append.mp member with early | late
  · exact new e early
  · exact Nat.lt_of_le_of_lt first.sequence (newer e late)

section Store
variable [DecidableEq B] {lib : Serde B} {engine : Engine B J} {keep : Nat} {now : Instant} {snapshot : Snapshot B J}
  {publication : Option (Option Instant)} {db after : Database B J} {receipt : StoreReceipt}

/-- The content hashes of the rows that `store_snapshot` has written. -/
theorem writeRows_hashes {before rows : List (SnapshotRow B J)} (done : writeRows lib engine snapshot before = .ok rows) :
    (rows.map SnapshotRow.contentHash).toFinset =
      insert snapshot.manifest.contentSha256 (before.map SnapshotRow.contentHash).toFinset := by
  rcases writeRows_ok done with ⟨row, saved, found, -, changed⟩ | ⟨-, documents, -, rfl⟩
  · obtain ⟨inside, same⟩ := Rows.find_some found
    have there : snapshot.manifest.contentSha256 ∈ (before.map SnapshotRow.contentHash).toFinset :=
      List.mem_toFinset.mpr (same ▸ List.mem_map_of_mem inside)
    rw [Finset.insert_eq_of_mem there]
    rcases changed with ⟨-, rfl⟩ | ⟨-, rfl⟩
    · rw [Rows.map_key_update (by exact fun _ => rfl)]
    · rfl
  · ext hash
    simp

/-- A row that was written but not touched is an old one, or a new one that nobody has touched. -/
theorem writeRows_touched {before rows : List (SnapshotRow B J)} {row : SnapshotRow B J}
    (done : writeRows lib engine snapshot before = .ok rows) (member : row ∈ rows) :
    (∃ old ∈ before, row.contentHash = old.contentHash ∧ row.touched = old.touched) ∨
      Rows.find SnapshotRow.contentHash snapshot.manifest.contentSha256 before = none ∧
        row.contentHash = snapshot.manifest.contentSha256 := by
  rcases writeRows_ok done with ⟨found, saved, -, -, ⟨-, rfl⟩ | ⟨-, rfl⟩⟩ | ⟨missing, documents, -, rfl⟩
  · obtain ⟨old, inside, ⟨-, rfl⟩ | ⟨-, rfl⟩⟩ := Rows.mem_update member
    · exact Or.inl ⟨old, inside, rfl, rfl⟩
    · exact Or.inl ⟨row, inside, rfl, rfl⟩
  · exact Or.inl ⟨row, member, rfl, rfl⟩
  · rcases List.mem_append.mp member with inside | last
    · exact Or.inl ⟨row, inside, rfl, rfl⟩
    · cases List.mem_singleton.mp last
      exact Or.inr ⟨missing, rfl⟩

/-- Rows of a content that was there have kept their order. -/
theorem Database.Sound.ranked_written {rows : List (SnapshotRow B J)} (sound : db.Sound)
    (done : writeRows lib engine snapshot (db.snapshots snapshot.manifest.scope) = .ok rows)
    (there : snapshot.manifest.contentSha256 ∈ db.retained snapshot.manifest.scope) :
    Ranked (lastEvent db.history snapshot.manifest.scope) rows ∧ ∀ row ∈ rows, 0 < row.touched := by
  have ranked := sound.ranked snapshot.manifest.scope
  have old : ∀ row ∈ rows, ∃ old ∈ db.snapshots snapshot.manifest.scope,
      row.contentHash = old.contentHash ∧ row.touched = old.touched := by
    intro row member
    rcases writeRows_touched done member with same | ⟨missing, -⟩
    · exact same
    · obtain ⟨found, inside, same⟩ := mem_retained.mp there
      exact absurd same (Rows.find_none missing inside)
  refine ⟨⟨(writeRows_kept ranked.distinct done).1, fun row member => ?_, fun a first b second same => ?_⟩,
    fun row member => ?_⟩
  · obtain ⟨origin, inside, hash, touched⟩ := old row member
    rw [hash, touched]
    exact ranked.touched origin inside
  · obtain ⟨origin, inside, hash, touched⟩ := old a first
    obtain ⟨other, also, hash', touched'⟩ := old b second
    rw [hash, hash']
    exact ranked.strict origin inside other also (by rw [← touched, ← touched', same])
  · obtain ⟨origin, inside, -, touched⟩ := old row member
    rw [touched]
    exact sound.positive _ origin inside

/-- The stored content has the highest number. -/
theorem Database.Sound.ranked_touched {rows : List (SnapshotRow B J)} {event : Event} (sound : db.Sound)
    (done : writeRows lib engine snapshot (db.snapshots snapshot.manifest.scope) = .ok rows)
    (own : event.scope = snapshot.manifest.scope) (content : event.contentHash = snapshot.manifest.contentSha256)
    (number : event.id = db.sequence + 1) :
    Ranked (lastEvent (db.history ++ [event]) snapshot.manifest.scope)
        (Rows.update SnapshotRow.contentHash snapshot.manifest.contentSha256
          (fun row => { row with touched := db.sequence + 1 }) rows) ∧
      ∀ row ∈ Rows.update SnapshotRow.contentHash snapshot.manifest.contentSha256
          (fun row => { row with touched := db.sequence + 1 }) rows,
        0 < row.touched ∧ row.touched ≤ db.sequence + 1 := by
  have ranked := sound.ranked snapshot.manifest.scope
  have each : ∀ row ∈ Rows.update SnapshotRow.contentHash snapshot.manifest.contentSha256
      (fun row => { row with touched := db.sequence + 1 }) rows,
      row.contentHash = snapshot.manifest.contentSha256 ∧ row.touched = db.sequence + 1 ∨
      row.contentHash ≠ snapshot.manifest.contentSha256 ∧ ∃ old ∈ db.snapshots snapshot.manifest.scope,
        row.contentHash = old.contentHash ∧ row.touched = old.touched := by
    intro row member
    obtain ⟨written, inside, ⟨same, rfl⟩ | ⟨differs, rfl⟩⟩ := Rows.mem_update member
    · exact Or.inl ⟨same, rfl⟩
    · rcases writeRows_touched done inside with old | ⟨-, same⟩
      · exact Or.inr ⟨differs, old⟩
      · exact absurd same differs
  have below : ∀ old ∈ db.snapshots snapshot.manifest.scope, 0 < old.touched ∧ old.touched ≤ db.sequence := by
    intro old inside
    have positive := sound.positive _ old inside
    obtain ⟨e, member, -, -, same⟩ := lastEvent_pos (by rw [ranked.touched old inside]; exact positive)
    rw [ranked.touched old inside] at same
    exact ⟨positive, same ▸ (sound.bounded e member).2⟩
  refine ⟨⟨Rows.nodup_update (by exact fun _ => rfl) (writeRows_kept ranked.distinct done).1, fun row member => ?_,
    fun a first b second same => ?_⟩, fun row member => ?_⟩
  · rw [lastEvent_append]
    rcases each row member with ⟨hash, touched⟩ | ⟨differs, old, inside, hash, touched⟩
    · rw [if_pos ⟨own, content.trans hash.symm⟩, touched, number]
    · rw [if_neg fun both => differs (both.2.symm.trans content), touched, hash]
      exact ranked.touched old inside
  · rcases each a first with ⟨hash, touched⟩ | ⟨-, old, inside, hash, touched⟩
    · rcases each b second with ⟨hash', -⟩ | ⟨-, other, also, -, touched'⟩
      · rw [hash, hash']
      · have bound := (below other also).2
        omega
    · rcases each b second with ⟨-, touched'⟩ | ⟨-, other, also, hash', touched'⟩
      · have bound := (below old inside).2
        omega
      · rw [hash, hash']
        exact ranked.strict old inside other also (by rw [← touched, ← touched', same])
  · rcases each row member with ⟨-, touched⟩ | ⟨-, old, inside, -, touched⟩
    · omega
    · have bound := below old inside
      omega

/-- What `store_snapshot` does for its scope. -/
structure Replaced (keep : Nat) (scope : Scope) (hash : String) (db after : Database B J) : Prop where
  current : after.current scope = some hash
  retained : ∀ other, other ∈ after.retained scope ↔
    Recent.Among (lastEvent after.history scope) keep (insert hash (db.retained scope)) other

/-- A store of the content that is current adds no event. The retention runs with the numbers as they were, and the
current content, whose number is the greatest of its scope, is kept by it anyway. -/
theorem Database.Sound.store_same (sound : db.Sound) (positive : 0 < keep)
    (done : storeSnapshot lib engine keep now snapshot none db = .ok (receipt, after))
    (still : db.current snapshot.manifest.scope = some snapshot.manifest.contentSha256) :
    after.Sound ∧ after.history = db.history ∧
      Replaced keep snapshot.manifest.scope snapshot.manifest.contentSha256 db after := by
  obtain ⟨rows, written, ⟨-, -, same⟩ | ⟨changed, -⟩⟩ := storeSnapshot_ok done
  · have there := sound.held _ _ still
    have has := storeSnapshot_has done
    obtain ⟨ranked, touched⟩ := sound.ranked_written written there
    have hashes := writeRows_hashes written
    have recent := still
    rw [sound.current] at recent
    have last := sound.increasing.lastEvent_le recent
    have part := retain_sublist engine keep snapshot.manifest.contentSha256 rows
    subst same
    refine ⟨⟨sound.increasing, sound.bounded, fun scope => ?_, fun scope row member => ?_, sound.current,
      fun scope hash current => ?_⟩, rfl, still, fun other => ?_⟩
    · by_cases own : scope = snapshot.manifest.scope
      · subst own
        simp only [Function.update_self]
        exact ranked.sublist part
      · simp only [Function.update_of_ne own]
        exact sound.ranked scope
    · by_cases own : scope = snapshot.manifest.scope
      · subst own
        simp only [Function.update_self] at member
        exact touched row (part.subset member)
      · simp only [Function.update_of_ne own] at member
        exact sound.positive scope row member
    · by_cases own : scope = snapshot.manifest.scope
      · subst own
        obtain rfl : snapshot.manifest.contentSha256 = hash := Option.some.inj (still.symm.trans current)
        exact mem_retained.mpr has
      · have old := sound.held scope hash current
        simp only [Database.retained, Function.update_of_ne own]
        exact old
    · rw [mem_retained]
      simp only [Function.update_self]
      rw [ranked.mem_retain positive (writeRows_has written) fun row _ => last row.contentHash, hashes]
      rfl
  · rcases changed with some | differs
    · cases some
    · exact absurd still differs

/-- A store of another content, or of any content by a migration, draws the next number and appends one event with
it. The row that was written is then the newest, so the retention keeps it. -/
theorem Database.Sound.store_new (sound : db.Sound) (positive : 0 < keep)
    (done : storeSnapshot lib engine keep now snapshot publication db = .ok (receipt, after))
    (changed : publication.isSome = true ∨ db.current snapshot.manifest.scope ≠ some snapshot.manifest.contentSha256) :
    after.Sound ∧ after.history = db.history ++ [snapshot.event (db.sequence + 1) (publication.join.getD now)] ∧
      Replaced keep snapshot.manifest.scope snapshot.manifest.contentSha256 db after := by
  obtain ⟨rows, written, ⟨none, still, -⟩ | ⟨-, same⟩⟩ := storeSnapshot_ok done
  · rcases changed with some | differs
    · rw [none] at some
      cases some
    · exact absurd still differs
  · have has := storeSnapshot_has done
    simp only [recordEvent] at same
    let event := snapshot.event (db.sequence + 1) (publication.join.getD now)
    have number : event.id = db.sequence + 1 := rfl
    have own : event.scope = snapshot.manifest.scope := rfl
    have content : event.contentHash = snapshot.manifest.contentSha256 := rfl
    obtain ⟨ranked, touched⟩ := sound.ranked_touched written own content number
    have hashes : ((Rows.update SnapshotRow.contentHash snapshot.manifest.contentSha256
        (fun row => { row with touched := db.sequence + 1 }) rows).map SnapshotRow.contentHash).toFinset =
        insert snapshot.manifest.contentSha256 (db.retained snapshot.manifest.scope) := by
      rw [Rows.map_key_update (by exact fun _ => rfl)]
      exact writeRows_hashes written
    have part := retain_sublist engine keep snapshot.manifest.contentSha256 (Rows.update SnapshotRow.contentHash
      snapshot.manifest.contentSha256 (fun row => { row with touched := db.sequence + 1 }) rows)
    have top : lastEvent (db.history ++ [event]) snapshot.manifest.scope snapshot.manifest.contentSha256 = db.sequence + 1 := by
      rw [lastEvent_append, if_pos ⟨own, content⟩, number]
    have elsewhere : ∀ scope, scope ≠ snapshot.manifest.scope →
        lastEvent (db.history ++ [event]) scope = lastEvent db.history scope := by
      intro scope other
      funext hash
      rw [lastEvent_append, if_neg fun both => other (both.1.symm.trans own)]
    subst same
    refine ⟨⟨?_, fun e member => ?_, fun scope => ?_, fun scope row member => ?_, fun scope => ?_,
      fun scope hash current => ?_⟩, rfl, Function.update_self .., fun other => ?_⟩
    · refine List.pairwise_append.mpr ⟨sound.increasing, List.pairwise_singleton _ _, fun a first b second => ?_⟩
      rw [List.mem_singleton.mp second, number]
      exact Nat.lt_succ_of_le (sound.bounded a first).2
    · rcases List.mem_append.mp member with old | new
      · exact ⟨(sound.bounded e old).1, Nat.le_succ_of_le (sound.bounded e old).2⟩
      · rw [List.mem_singleton.mp new, number]
        exact ⟨Nat.succ_pos _, Nat.le_refl _⟩
    · by_cases same : scope = snapshot.manifest.scope
      · subst same
        simp only [Function.update_self]
        exact ranked.sublist part
      · have old := sound.ranked scope
        rw [← elsewhere scope same] at old
        simp only [Function.update_of_ne same]
        exact old
    · by_cases same : scope = snapshot.manifest.scope
      · subst same
        simp only [Function.update_self] at member
        exact (touched row (part.subset member)).1
      · simp only [Function.update_of_ne same] at member
        exact sound.positive scope row member
    · simp only [lastContent_append]
      by_cases same : scope = snapshot.manifest.scope
      · subst same
        rw [Function.update_self, if_pos own, content]
      · rw [Function.update_of_ne same, if_neg fun equal => same (equal.symm.trans own)]
        exact sound.current scope
    · by_cases same : scope = snapshot.manifest.scope
      · subst same
        simp only [Function.update_self, Option.some.injEq] at current
        subst current
        exact mem_retained.mpr has
      · simp only [Function.update_of_ne same] at current
        simp only [Database.retained, Function.update_of_ne same]
        exact sound.held scope hash current
    · rw [mem_retained]
      simp only [Function.update_self]
      rw [ranked.mem_retain positive (update_has (writeRows_has written)) ?_, hashes]
      intro row member
      rw [ranked.touched row member, top]
      exact (touched row member).2

theorem storeSnapshot_grows (done : storeSnapshot lib engine keep now snapshot publication db = .ok (receipt, after)) :
    Grows db after := by
  obtain ⟨rows, -, ⟨-, -, rfl⟩ | ⟨-, rfl⟩⟩ := storeSnapshot_ok done
  · exact ⟨⟨[], (List.append_nil _).symm, fun _ member => absurd member List.not_mem_nil⟩, Nat.le_refl _⟩
  · refine ⟨⟨_, rfl, fun e member => ?_⟩, Nat.le_succ _⟩
    rw [List.mem_singleton.mp member]
    exact Nat.lt_succ_self _

theorem Database.Sound.store (sound : db.Sound) (positive : 0 < keep)
    (done : storeSnapshot lib engine keep now snapshot publication db = .ok (receipt, after)) : after.Sound := by
  by_cases changed : publication.isSome = true ∨ db.current snapshot.manifest.scope ≠ some snapshot.manifest.contentSha256
  · exact (sound.store_new positive done changed).1
  · obtain ⟨absent, still⟩ := not_or.mp changed
    obtain rfl : publication = none := by simpa using absent
    exact (sound.store_same positive done (not_not.mp still)).1

/-- The contents that a history has had events of. -/
def contents (history : List Event) (scope : Scope) : Finset String :=
  ((history.filter fun e => decide (e.scope = scope)).map Event.contentHash).toFinset

theorem contents_append (history : List Event) {event : Event} {scope : Scope} (own : event.scope = scope) :
    contents (history ++ [event]) scope = insert event.contentHash (contents history scope) := by
  ext hash
  simp [contents, List.filter_append, own]

/-- Nothing but the most recent contents of a scope is there, and all of them are. -/
def Trimmed (keep : Nat) (scope : Scope) (db : Database B J) : Prop :=
  ∀ hash, hash ∈ db.retained scope ↔ Recent.Among (lastEvent db.history scope) keep (contents db.history scope) hash

/-- An event for a stored content puts it at the head of its scope, and what the retention removes is what has
fallen out of the `keep` most recent contents. -/
theorem Trimmed.store (window : Trimmed keep snapshot.manifest.scope db) (sound : db.Sound) (positive : 0 < keep)
    (done : storeSnapshot lib engine keep now snapshot publication db = .ok (receipt, after))
    (changed : publication.isSome = true ∨ db.current snapshot.manifest.scope ≠ some snapshot.manifest.contentSha256) :
    Trimmed keep snapshot.manifest.scope after := by
  obtain ⟨-, history, replaced⟩ := sound.store_new positive done changed
  have next : ∀ hash, lastEvent after.history snapshot.manifest.scope hash =
      if snapshot.manifest.contentSha256 = hash then db.sequence + 1 else lastEvent db.history snapshot.manifest.scope hash := by
    intro hash
    rw [history, lastEvent_append]
    simp [Snapshot.event]
  intro hash
  rw [replaced.retained, history, contents_append db.history (by rfl), ← history]
  refine Recent.among_insert window (fun other differs => ?_) fun other _ differs => ?_
  · rw [next, if_neg (Ne.symm differs)]
  · rw [next, next, if_neg (Ne.symm differs), if_pos rfl]
    exact Nat.lt_succ_of_le (sound.lastEvent_le _ _)

/-- The event of a migrated publication. -/
structure Migrated (scope : Scope) (now : Instant) (entry : HistoryEntry) (event : Event) : Prop where
  scope : event.scope = scope
  contentHash : event.contentHash = entry.contentSha256
  publishedAt : event.publishedAt = entry.publishedAt.getD now

/-- The entries of a migration are stored one by one, the oldest first, each with an event of its own
whether or not its content is the current one. By induction on the entries; the window is what the stores
keep between them. -/
theorem Database.Sound.migrateEntries {scope : Scope} {read : HistoryEntry → Option (Verified lib engine scope)}
    {entries : List HistoryEntry} (sound : db.Sound) (positive : 0 < keep) (window : Trimmed keep scope db)
    (done : Master.migrateEntries lib engine keep now (fun entry => (read entry).map Verified.snapshot) entries db = .ok after) :
    after.Sound ∧ Trimmed keep scope after ∧ after.migrations = db.migrations ∧
      (∀ other, other ≠ scope → after.snapshots other = db.snapshots other ∧ after.current other = db.current other) ∧
      ∃ events, after.history = db.history ++ events ∧ List.Forall₂ (Migrated scope now) entries events := by
  induction entries generalizing db with
  | nil =>
    cases done
    exact ⟨sound, window, rfl, fun _ _ => ⟨rfl, rfl⟩, [], (List.append_nil _).symm, .nil⟩
  | cons entry rest ih =>
    unfold Master.migrateEntries at done
    split at done
    · cases done
    · rename_i snapshot found
      obtain ⟨verified, -, rfl⟩ := Option.map_eq_some_iff.mp found
      split at done
      · cases done
      · rename_i equal
        split at done
        · cases done
        · rename_i receipt middle stored
          have own := verified.intact.scope
          obtain ⟨good, history, replaced⟩ := sound.store_new positive stored (Or.inl rfl)
          have kept : Trimmed keep scope middle := own ▸ (own ▸ window).store sound positive stored (Or.inl rfl)
          obtain ⟨last, final, records, others, events, whole, each⟩ := ih good kept done
          have recorded : middle.migrations = db.migrations := by
            obtain ⟨rows, -, ⟨-, -, rfl⟩ | ⟨-, rfl⟩⟩ := storeSnapshot_ok stored
            · rfl
            · rfl
          refine ⟨last, final, records.trans recorded, fun other differs => ?_,
            verified.snapshot.event (db.sequence + 1) ((some entry.publishedAt).join.getD now) :: events, ?_, .cons ?_ each⟩
          · obtain ⟨rows, current⟩ := others other differs
            obtain ⟨rows', current'⟩ := storeSnapshot_other stored (own.symm ▸ differs)
            exact ⟨rows.trans rows', current.trans current'⟩
          · rw [whole, history, List.append_assoc]
            rfl
          · have same : verified.snapshot.manifest.contentSha256 = entry.contentSha256 := by simpa using equal
            exact ⟨own, same, rfl⟩

/-- The resource version that is served with a row. -/
def SnapshotRow.resourceVersion (lib : Serde B) (row : SnapshotRow B J) : Option String :=
  (lib.published row.manifest).bind PublishedManifest.resourceVersion

/-- A store writes the manifest of a row anew only with one that has a resource version as well, so a version that
is known does not get lost while the content stays. -/
theorem Database.Sound.store_version {scope other : Scope} {row new : SnapshotRow B J} (sound : db.Sound)
    (intact : snapshot.Intact lib engine scope)
    (done : storeSnapshot lib engine keep now snapshot publication db = .ok (receipt, after))
    (member : row ∈ db.snapshots other) (there : new ∈ after.snapshots other) (same : new.contentHash = row.contentHash)
    (known : (row.resourceVersion lib).isSome = true) : (new.resourceVersion lib).isSome = true := by
  have distinct := (sound.ranked other).distinct
  have unique : ∀ old ∈ db.snapshots other, old.contentHash = row.contentHash → old = row :=
    fun old inside equal => List.inj_on_of_nodup_map distinct inside member equal
  by_cases own : other = snapshot.manifest.scope
  · subst own
    cases (storeSnapshot_rows distinct done).2 new there with
    | same old inside hash manifest documents =>
      rw [SnapshotRow.resourceVersion, manifest, unique old inside (hash.symm.trans same)]
      exact known
    | renewed old saved inside checked stored hash manifest documents version =>
      rw [SnapshotRow.resourceVersion, manifest, intact.read]
      exact version
    | new missing hash manifest documents => exact absurd (same.symm.trans hash) (Rows.find_none missing member)
  · rw [(storeSnapshot_other done own).1] at there
    rw [unique new there same]
    exact known

end Store

/-- Without rows and events there is nothing to keep. -/
theorem trimmed_free {db : Database B J} {keep : Nat} {scope : Scope} (free : db.occupied scope = false) :
    Trimmed keep scope db ∧ db.history.filter (fun e => decide (e.scope = scope)) = [] ∧ db.snapshots scope = [] := by
  simp only [Database.occupied, Bool.or_eq_false_iff, Bool.not_eq_false', List.isEmpty_iff] at free
  obtain ⟨⟨rows, -⟩, events⟩ := free
  have empty : db.history.filter (fun e => decide (e.scope = scope)) = [] :=
    List.filter_eq_nil_iff.mpr fun e member => by simpa using List.any_eq_false.mp events e member
  refine ⟨fun hash => ?_, empty, rows⟩
  rw [mem_retained, rows, contents, empty]
  simp [Recent.Among]

theorem Database.Sound.empty : ({} : Database B J).Sound where
  increasing := List.Pairwise.nil
  bounded e member := absurd member List.not_mem_nil
  ranked scope := ⟨List.nodup_nil, fun _ member => absurd member List.not_mem_nil, fun _ member => absurd member List.not_mem_nil⟩
  positive _ _ member := absurd member List.not_mem_nil
  current _ := rfl
  held _ _ none := by cases none

theorem Migrated.filter {scope : Scope} {now : Instant} {entries : List HistoryEntry} {events : List Event}
    (each : List.Forall₂ (Migrated scope now) entries events) :
    events.filter (fun e => decide (e.scope = scope)) = events ∧
      events.map Event.contentHash = entries.map HistoryEntry.contentSha256 := by
  induction each with
  | nil => exact ⟨rfl, rfl⟩
  | cons first rest ih =>
    refine ⟨?_, ?_⟩
    · rw [List.filter_cons_of_pos (by simpa using first.scope), ih.1]
    · rw [List.map_cons, List.map_cons, first.contentHash, ih.2]

section Runs
variable [DecidableEq B] {lib : Serde B} {engine : Engine B J} {db after : Database B J}

/-- Every kind of transaction keeps what holds between two of them: a publication is a store, a migration a
sequence of stores and a marker, and a rollback only uses up numbers. -/
theorem Database.Sound.commit {transaction : Transaction lib engine} (sound : db.Sound) (positive : 0 < transaction.keep)
    (done : Master.commit db transaction = some after) : after.Sound := by
  refine commit_invariant (fun now scope verified publication db receipt after sound stored => ?_) (fun db consumed sound => ?_)
    (fun db migrations sound => ⟨sound.increasing, sound.bounded, sound.ranked, sound.positive, sound.current, sound.held⟩)
    done sound
  · exact sound.store positive stored
  · exact ⟨sound.increasing, fun e member => ⟨(sound.bounded e member).1, Nat.le_add_right_of_le (sound.bounded e member).2⟩,
      sound.ranked, sound.positive, sound.current, sound.held⟩

theorem reach_sound (reach : Run.Reach commit (fun _ (t : Transaction lib engine) => 0 < t.keep) {} db) : db.Sound :=
  reach.invariant .empty fun _ _ _ sound positive done => sound.commit positive done

/-- What a committed publication changes. -/
structure PublishEffect (keep : Nat) (now : Instant) (scope : Scope) (snapshot : Snapshot B J) (db after : Database B J) : Prop where
  replaced : Replaced keep scope snapshot.manifest.contentSha256 db after
  history : after.history = db.history ++
    if db.current scope = some snapshot.manifest.contentSha256 then [] else [snapshot.event (db.sequence + 1) now]
  others : ∀ other, other ≠ scope → after.snapshots other = db.snapshots other ∧ after.current other = db.current other

/-- What the first migration of a scope changes. -/
structure MigrateEffect (keep : Nat) (now : Instant) (history : History) (db after : Database B J) : Prop where
  events : ∃ events, after.history = db.history ++ events ∧
    List.Forall₂ (Migrated history.scope now) history.entries.reverse events
  current : after.current history.scope = history.entries.head?.map HistoryEntry.contentSha256
  retained : ∀ hash, hash ∈ after.retained history.scope ↔ Recent.Among (lastEvent after.history history.scope) keep
    (history.entries.map HistoryEntry.contentSha256).toFinset hash
  others : ∀ other, other ≠ history.scope → after.snapshots other = db.snapshots other ∧ after.current other = db.current other
  recorded : (after.migrations history.scope).isSome = true

/-- A publication is one store: with an event unless its content is current, and without effect on other scopes. -/
theorem Database.Sound.publish {keep : Nat} {now : Instant} {scope : Scope} {verified : Verified lib engine scope} (sound : db.Sound)
    (positive : 0 < keep) (done : Master.commit db (.publish keep now verified) = some after) :
    PublishEffect keep now scope verified.snapshot db after := by
  obtain ⟨receipt, stored⟩ := publish_committed.mp done
  have own := verified.intact.scope
  have others := fun other (differs : other ≠ scope) => storeSnapshot_other stored (own.symm ▸ differs)
  by_cases still : db.current scope = some verified.snapshot.manifest.contentSha256
  · obtain ⟨-, history, replaced⟩ := sound.store_same positive stored (own.symm ▸ still)
    rw [own] at replaced
    exact ⟨replaced, by rw [if_pos still, List.append_nil, history], others⟩
  · obtain ⟨-, history, replaced⟩ := sound.store_new positive stored (Or.inr (own.symm ▸ still))
    rw [own] at replaced
    exact ⟨replaced, by rw [if_neg still, history]; rfl, others⟩

omit [DecidableEq B] in
/-- With room for one content only the published one is left. -/
theorem Database.Sound.publish_alone {now : Instant} {scope : Scope} {snapshot : Snapshot B J} {db after : Database B J}
    (sound : db.Sound) (own : snapshot.manifest.scope = scope) (effect : PublishEffect 1 now scope snapshot db after)
    (changed : db.current scope ≠ some snapshot.manifest.contentSha256) (hash : String) :
    hash ∈ after.retained scope ↔ hash = snapshot.manifest.contentSha256 := by
  have history := effect.history
  rw [if_neg changed] at history
  have last (other : String) : lastEvent after.history scope other =
      if snapshot.manifest.contentSha256 = other then db.sequence + 1 else lastEvent db.history scope other := by
    rw [history, lastEvent_append]
    exact if_congr (and_iff_right own) rfl rfl
  rw [effect.replaced.retained]
  constructor
  · rintro ⟨-, few⟩
    by_contra other
    refine absurd few (Nat.not_lt_of_le (Finset.card_pos.mpr ⟨snapshot.manifest.contentSha256, ?_⟩))
    refine Finset.mem_filter.mpr ⟨Finset.mem_insert_self _ _, ?_⟩
    rw [last, last, if_pos rfl, if_neg (Ne.symm other)]
    exact Nat.lt_succ_of_le (sound.lastEvent_le scope hash)
  · rintro rfl
    refine ⟨Finset.mem_insert_self _ _, ?_⟩
    rw [Finset.filter_false_of_mem fun other _ => ?_]
    · exact Nat.one_pos
    · rw [last, last, if_pos rfl]
      split
      · exact Nat.lt_irrefl _
      · exact Nat.not_lt_of_le (Nat.le_succ_of_le (sound.lastEvent_le scope other))

/-- The first migration of a scope starts from no rows and no events of it, so what is there afterwards comes from
the entries alone. -/
theorem Database.Sound.migrate {keep : Nat} {now : Instant} {history : History}
    {read : HistoryEntry → Option (Verified lib engine history.scope)} (sound : db.Sound) (positive : 0 < keep)
    (first : db.migrations history.scope = none) (done : Master.commit db (.migrate keep now history read) = some after) :
    MigrateEffect keep now history db after := by
  rcases migrate_committed done with ⟨saved, recorded, -⟩ | ⟨-, free, last, record, stored, rfl⟩
  · rw [first] at recorded
    cases recorded
  · obtain ⟨trimmed, before, -⟩ := trimmed_free free
    obtain ⟨good, kept, -, others, events, whole, each⟩ := sound.migrateEntries positive trimmed stored
    obtain ⟨own, hashes⟩ := Migrated.filter each
    have part : last.history.filter (fun e => decide (e.scope = history.scope)) = events := by
      rw [whole, List.filter_append, before, own, List.nil_append]
    refine ⟨⟨events, whole, each⟩, ?_, fun hash => ?_, others, by simp only [Function.update_self]; rfl⟩
    · rw [good.current, lastContent, part, ← List.getLast?_map, hashes, List.map_reverse, List.getLast?_reverse, List.head?_map]
    · have all := kept hash
      rw [contents, part, hashes, List.toFinset_eq_of_perm _ _ ((List.reverse_perm history.entries).map _)] at all
      exact all

theorem commit_grows {transaction : Transaction lib engine} (done : commit db transaction = some after) : Grows db after := by
  refine commit_invariant (P := Grows db) (fun _ _ _ _ _ _ _ grown stored => grown.trans (storeSnapshot_grows stored))
    (fun _ consumed grown => ⟨grown.events, Nat.le_add_right_of_le grown.sequence⟩)
    (fun _ _ grown => ⟨grown.events, grown.sequence⟩) done
    ⟨⟨[], (List.append_nil _).symm, fun _ member => absurd member List.not_mem_nil⟩, Nat.le_refl _⟩

/-- The marker of a migration is written once and no transaction takes it away. -/
theorem commit_migrations {transaction : Transaction lib engine} (sound : db.Sound) (positive : 0 < transaction.keep)
    (done : commit db transaction = some after) {scope : Scope} {saved : Migration} (recorded : db.migrations scope = some saved) :
    after.migrations scope = some saved := by
  cases transaction with
  | publish keep now verified =>
    obtain ⟨receipt, stored⟩ := publish_committed.mp done
    obtain ⟨rows, -, ⟨-, -, rfl⟩ | ⟨-, rfl⟩⟩ := storeSnapshot_ok stored
    · exact recorded
    · exact recorded
  | migrate keep now history read =>
    rcases migrate_committed done with ⟨-, -, rfl⟩ | ⟨first, free, last, record, stored, rfl⟩
    · exact recorded
    · have same := (sound.migrateEntries positive (trimmed_free free).1 stored).2.2.1
      have other : scope ≠ history.scope := by
        rintro rfl
        rw [first] at recorded
        cases recorded
      simp only [Function.update_of_ne other, same]
      exact recorded
  | rollback consumed =>
    cases done
    exact recorded

/-- A known resource version survives a transaction after which the content is still there. -/
theorem commit_version {transaction : Transaction lib engine} {scope : Scope} {row new : SnapshotRow B J} (sound : db.Sound)
    (positive : 0 < transaction.keep) (done : commit db transaction = some after) (member : row ∈ db.snapshots scope)
    (there : new ∈ after.snapshots scope) (same : new.contentHash = row.contentHash)
    (known : (row.resourceVersion lib).isSome = true) : (new.resourceVersion lib).isSome = true := by
  have unchanged : ∀ old ∈ db.snapshots scope, old.contentHash = row.contentHash → (old.resourceVersion lib).isSome = true := by
    intro old inside equal
    rw [List.inj_on_of_nodup_map (sound.ranked scope).distinct inside member equal]
    exact known
  cases transaction with
  | publish keep now verified =>
    obtain ⟨receipt, stored⟩ := publish_committed.mp done
    exact sound.store_version verified.intact stored member there same known
  | migrate keep now history read =>
    rcases migrate_committed done with ⟨-, -, rfl⟩ | ⟨-, free, last, record, stored, rfl⟩
    · exact unchanged new there same
    · obtain ⟨trimmed, -, rows⟩ := trimmed_free free
      have other : scope ≠ history.scope := by
        rintro rfl
        rw [rows] at member
        exact absurd member List.not_mem_nil
      have kept := ((sound.migrateEntries positive trimmed stored).2.2.2.1 scope other).1
      exact unchanged new (kept ▸ there) same
  | rollback consumed =>
    cases done
    exact unchanged new there same

/-- A transaction after which a content is still there. -/
def Stays (lib : Serde B) (engine : Engine B J) (scope : Scope) (hash : String) (db : Database B J)
    (transaction : Transaction lib engine) : Prop :=
  0 < transaction.keep ∧ ∀ after, commit db transaction = some after → hash ∈ after.retained scope

/-- The same over a run in which the content is never out of the window: by induction, with the row that carries
the version at each state. -/
theorem reach_version {scope : Scope} {row : SnapshotRow B J} (sound : db.Sound) (member : row ∈ db.snapshots scope)
    (known : (row.resourceVersion lib).isSome = true)
    (reach : Run.Reach commit (Stays lib engine scope row.contentHash) db after) :
    after.Sound ∧ ∃ new ∈ after.snapshots scope, new.contentHash = row.contentHash ∧ (new.resourceVersion lib).isSome = true := by
  induction reach with
  | start => exact ⟨sound, row, member, rfl, known⟩
  | next _ stays done ih =>
    obtain ⟨good, middle, inside, same, known⟩ := ih
    obtain ⟨new, there, equal⟩ := mem_retained.mp (stays.2 _ done)
    exact ⟨good.commit stays.1 done, new, there, equal,
      commit_version good stays.1 done inside there (equal.trans same.symm) known⟩

/-- The mirror over whole runs: what is current, how the history grows, what the retention leaves, what
a migration does, that its replay does nothing, and that a resource version stays known. -/
theorem mirror_history (lib : Serde B) (engine : Engine B J) {db : Database B J}
    (reach : Run.Reach commit (fun _ (t : Transaction lib engine) => 0 < t.keep) {} db) :
    (∀ scope, db.current scope = lastContent db.history scope ∧
      ∀ hash, db.current scope = some hash → hash ∈ db.retained scope) ∧
    Increasing db.history ∧
    (∀ (t : Transaction lib engine) after, commit db t = some after →
      ∃ events, after.history = db.history ++ events ∧ ∀ e ∈ events, db.sequence < e.id) ∧
    (∀ keep now scope (verified : Verified lib engine scope) after, 0 < keep →
      commit db (.publish keep now verified) = some after → PublishEffect keep now scope verified.snapshot db after) ∧
    (∀ keep now history (read : HistoryEntry → Option (Verified lib engine history.scope)) after, 0 < keep →
      commit db (.migrate keep now history read) = some after →
      if db.migrations history.scope = none then MigrateEffect keep now history db after else after = db) ∧
    (∀ (t : Transaction lib engine) after scope saved, 0 < t.keep → commit db t = some after →
      db.migrations scope = some saved → after.migrations scope = some saved) ∧
    ∀ scope, ∀ row ∈ db.snapshots scope, (row.resourceVersion lib).isSome = true → ∀ after,
      Run.Reach commit (Stays lib engine scope row.contentHash) db after →
      ∃ new ∈ after.snapshots scope, new.contentHash = row.contentHash ∧ (new.resourceVersion lib).isSome = true := by
  have sound := reach_sound reach
  refine ⟨fun scope => ⟨sound.current scope, sound.held scope⟩, sound.increasing, ?_,
    fun keep now scope verified after positive done => sound.publish positive done, ?_,
    fun t after scope saved positive done recorded => commit_migrations sound positive done recorded,
    fun scope row member known after later => (reach_version sound member known later).2⟩
  · intro t after done
    exact (commit_grows done).events
  · intro keep now history read after positive done
    split
    · rename_i first
      exact sound.migrate positive first done
    · rename_i recorded
      rcases migrate_committed done with ⟨-, -, same⟩ | ⟨none, -⟩
      · exact same
      · exact absurd none recorded

end Runs

/-- A content that the database does not hold can always be published: nothing that is there stands in its way,
and every value of its tables is one that `jsonb` stores. -/
theorem publish_absent {lib : Serde B} [DecidableEq B] {engine : Engine B J} (keep : Nat) (now : Instant)
    {scope : Scope} (verified : Verified lib engine scope) (stored : ∀ value, (engine.jsonb value).isSome = true)
    {db : Database B J} (absent : verified.snapshot.manifest.contentSha256 ∉ db.retained scope) :
    ∃ after, commit db (.publish keep now verified) = some after := by
  have missing : Rows.find SnapshotRow.contentHash verified.snapshot.manifest.contentSha256
      (db.snapshots verified.snapshot.manifest.scope) = none := by
    cases found : Rows.find SnapshotRow.contentHash verified.snapshot.manifest.contentSha256
        (db.snapshots verified.snapshot.manifest.scope) with
    | none => rfl
    | some row =>
      obtain ⟨member, same⟩ := Rows.find_some found
      rw [verified.intact.scope] at member
      exact absurd (mem_retained.mpr ⟨row, member, same⟩) absent
  obtain ⟨receipt, after, done⟩ := publish_missing keep now verified stored missing
  exact ⟨after, publish_committed.mpr ⟨receipt, done⟩⟩

theorem served_complete : Complete servedSerde
    (stage servedSerde sampleTables sampleIndex (.manifest sampleManifest) (sampleReceipt "master-a")).files
    (sampleReceipt "master-a") sampleManifest sampleIndex := by
  have parsed : Manifest.parse servedSerde (.manifest sampleManifest) = .ok sampleManifest := by decide +kernel
  have indexed : sampleIndex.validate sampleManifest = .ok () := by decide +kernel
  refine stage_complete sample_named rfl rfl rfl (show 2 ≤ maxTotal by decide) (by simp [sampleReceipt]) parsed
    (Inventory.validate_ok.mp indexed) fun f member => ?_
  cases List.mem_singleton.mp member
  exact ⟨.table "[]" emptyTableSha, write_self .., by decide +kernel, rfl⟩

theorem wide_other : (Complete.published servedSerde sampleScope (wideReceipt 1) (wideManifest 1) (wideIndex 1)).contentSha256 ≠
    (Complete.published servedSerde sampleScope (sampleReceipt "master-a") sampleManifest sampleIndex).contentSha256 := by
  decide +kernel

/-- One content, another, and the first again, with room for one: three events, and the first content is
current and alone. -/
theorem mirror_history_returns : ∃ (first second : Verified servedSerde textEngine sampleScope) (db : Database Doc String),
    Run.Reach commit (fun _ (t : Transaction servedSerde textEngine) => 0 < t.keep) {} db ∧
    first.snapshot.manifest.contentSha256 ≠ second.snapshot.manifest.contentSha256 ∧
    db.history.map Event.contentHash = [first.snapshot.manifest.contentSha256, second.snapshot.manifest.contentSha256,
      first.snapshot.manifest.contentSha256] ∧
    db.current sampleScope = some first.snapshot.manifest.contentSha256 ∧
    ∀ hash, hash ∈ db.retained sampleScope ↔ hash = first.snapshot.manifest.contentSha256 := by
  obtain ⟨first, one, -⟩ := served_complete.verified (single_there _ _) sample_valid rfl textEngine_values
  obtain ⟨second, two, -⟩ := (wide_complete (n := 1) (by decide) (by decide)).verified (single_there _ _) sample_valid rfl textEngine_values
  have differs : first.snapshot.manifest.contentSha256 ≠ second.snapshot.manifest.contentSha256 := by
    rw [one, two]
    exact wide_other.symm
  have step {db : Database Doc String} (reach : Run.Reach commit (fun _ (t : Transaction servedSerde textEngine) => 0 < t.keep) {} db)
      (verified : Verified servedSerde textEngine sampleScope)
      (absent : verified.snapshot.manifest.contentSha256 ∉ db.retained sampleScope)
      (changed : db.current sampleScope ≠ some verified.snapshot.manifest.contentSha256) :
      ∃ after, Run.Reach commit (fun _ (t : Transaction servedSerde textEngine) => 0 < t.keep) {} after ∧
        after.current sampleScope = some verified.snapshot.manifest.contentSha256 ∧
        after.history.map Event.contentHash = db.history.map Event.contentHash ++ [verified.snapshot.manifest.contentSha256] ∧
        ∀ hash, hash ∈ after.retained sampleScope ↔ hash = verified.snapshot.manifest.contentSha256 := by
    obtain ⟨after, done⟩ := publish_absent 1 1 verified (fun _ => rfl) absent
    obtain ⟨-, -, -, published, -⟩ := mirror_history servedSerde textEngine reach
    have effect := published 1 1 sampleScope verified after Nat.one_pos done
    refine ⟨after, reach.next (l := .publish 1 1 verified) Nat.one_pos done, effect.replaced.current, ?_,
      (reach_sound reach).publish_alone verified.intact.scope effect changed⟩
    rw [effect.history, if_neg changed, List.map_append]
    rfl
  obtain ⟨a, reached, current, history, alone⟩ := step .start first (Finset.notMem_empty _) nofun
  have apart : second.snapshot.manifest.contentSha256 ∉ a.retained sampleScope :=
    fun member => differs ((alone _).mp member).symm
  obtain ⟨b, reached, current, added, alone⟩ := step reached second apart fun same =>
    differs (Option.some.inj (current.symm.trans same))
  obtain ⟨c, reached, current, again, alone⟩ := step reached first (fun member => differs ((alone _).mp member)) fun same =>
    differs (Option.some.inj (current.symm.trans same)).symm
  refine ⟨first, second, c, reached, differs, ?_, current, alone⟩
  rw [again, added, history]
  rfl

end SiriusProxy.Master
