import SiriusProxy.Master.Consistent
import SiriusProxy.Master.Converge

namespace SiriusProxy.Master
open Reads (eval)

variable {B α ω : Type} (lib : Serde B)

/-- What readers are shown of a snapshot: its manifest and its publication record. -/
structure Item where
  snapshot : String
  value : PublishedManifest
  record : Option Publication

def Item.entry (item : Item) : HistoryEntry :=
  entryOf item.snapshot item.value (item.record.map Publication.publishedAt)

structure Shown (scope : Scope) (root : Root B) (item : Item) : Prop where
  manifest : eval (root.snapshots item.snapshot) (manifestIn lib item.snapshot scope) = .ok (document lib item.value)
  record : eval (root.snapshots item.snapshot) (publication lib item.snapshot []) = .ok item.record

def upTo (b : String) : List String → List String
  | [] => []
  | s :: rest => if s = b then [s] else s :: upTo b rest

/-- What is left to readers of the snapshots that `CURRENT` has named: those down to the boundary. -/
def visible (old : Option String) (named : List String) : List String := old.elim named fun b => upTo b named

def Turn.next (go : ω → Except MasterError α) : Turn α ω → Except MasterError α
  | .stop r => r
  | .go state => go state

/-- The loop of the walks over a chain that is already read. -/
def walkItems (visitor : Visitor B α ω) (boundary : Option String) : Nat → ω → List Item → Except MasterError α
  | _, state, [] => visitor.finish state
  | 0, _, _ :: _ => .error .limit
  | room + 1, state, item :: rest =>
    (visitor.visit boundary state item.snapshot (document lib item.value) item.value item.record).next fun state =>
      walkItems visitor boundary room state rest

/-- Every record leads to the next item, and the last one is where the walk ends. -/
def Leads (boundary : Option String) : List Item → Prop
  | [] => True
  | item :: rest => onward boundary item.snapshot item.record = rest.head?.map Item.snapshot ∧ Leads boundary rest

variable {lib} {scope : Scope} {root other : Root B} {named live removed legacy : List String} {old : Option String}
  {item : Item} {visited : List String}

theorem visible_none (named : List String) : visible none named = named := rfl

/-- Readers always see the newest snapshot, wherever the boundary is. -/
theorem head_visible (old : Option String) (named : List String) : (visible old named).head? = named.head? := by
  cases old with
  | none => rfl
  | some b =>
    cases named with
    | nil => rfl
    | cons s rest =>
      simp only [visible, Option.elim_some, upTo]
      split <;> rfl

theorem document_inj {a b : PublishedManifest} (same : document lib a = document lib b) : a = b := by
  have bytes := congrArg (fun d => lib.published d.bytes) same
  simp only [document, lib.published_ofPublished, Option.some.injEq] at bytes
  exact bytes

/-- A snapshot is shown as long as its directory stays, and in one way. -/
theorem Shown.unique {again : Item} (shown : Shown lib scope root item) (also : Shown lib scope other again)
    (name : item.snapshot = again.snapshot) (same : root.snapshots item.snapshot = other.snapshots item.snapshot) :
    item = again := by
  obtain ⟨manifest, record⟩ := shown
  obtain ⟨manifest', record'⟩ := also
  rw [← name, ← same, manifest] at manifest'
  rw [← name, ← same, record] at record'
  have value := document_inj (Except.ok.inj manifest')
  have published := Except.ok.inj record'
  cases item
  cases again
  simp only at name value published
  rw [name, value, published]

/-- The names visited so far matter to the check of a record only through its predecessor. -/
theorem Publication.accepted_visited {p : Publication} {s : String} (accepted : p.accepted s [] = true)
    (unseen : ∀ q, p.previousSnapshot = some q → q ∉ visited) : p.accepted s visited = true := by
  simp only [Publication.accepted, Bool.and_eq_true] at accepted ⊢
  refine ⟨accepted.1, ?_⟩
  cases previous : p.previousSnapshot with
  | none => rfl
  | some q =>
    have valid := accepted.2
    rw [previous] at valid
    simp only [Option.all_some, Bool.and_eq_true] at valid ⊢
    exact ⟨valid.1, by simpa using unseen q previous⟩

/-- A record that does not lead back is read on a walk as it is alone. -/
theorem eval_publication_visited {place : Option (Place B)} {s : String} {record : Option Publication}
    (read : eval place (publication lib s []) = .ok record)
    (unseen : ∀ q, record.bind Publication.previousSnapshot = some q → q ∉ visited) :
    eval place (publication lib s visited) = .ok record := by
  unfold publication at read ⊢
  rw [Reads.eval_bind_ok (Reads.eval_attempt _)] at read ⊢
  cases first : eval place (regular lib (Place.at "publication.json") 4096) with
  | error e =>
    rw [first] at read
    cases e with
    | io missing => cases missing <;> exact read
    | _ => exact read
  | ok bytes =>
    rw [first] at read
    simp only [publicationRead] at read ⊢
    cases parsed : lib.publication bytes with
    | none =>
      rw [parsed] at read
      cases read
    | some p =>
      rw [parsed] at read
      simp only at read ⊢
      split at read
      · rename_i accepted
        cases read
        rw [if_pos (Publication.accepted_visited accepted fun q previous => unseen q previous)]
        rfl
      · cases read

theorem eval_directory_of_manifest {place : Option (Place B)} {s : String} {d : Document B}
    (read : eval place (manifestIn lib s scope) = .ok d) : eval place (snapshotDirectory s) = .ok () := by
  unfold manifestIn manifestOf at read
  split at read
  · cases read
  · obtain ⟨⟨⟩, directory, -⟩ := Reads.eval_bind_eq_ok read
    exact directory

/-- One step of a walk over a snapshot that is shown gives its document and its record. -/
theorem Shown.eval_chainStep (shown : Shown lib scope root item)
    (unseen : ∀ q, item.record.bind Publication.previousSnapshot = some q → q ∉ visited) :
    eval root ((chainStep lib scope item.snapshot visited).zoom fun root => root.snapshots item.snapshot) =
      .ok (document lib item.value, item.record) := by
  have directory := eval_directory_of_manifest shown.manifest
  rw [Reads.eval_zoom]
  unfold chainStep
  rw [Reads.eval_bind_ok directory, Reads.eval_bind_ok shown.manifest,
    Reads.eval_bind_ok (eval_publication_visited shown.record unseen)]
  cases item.record with
  | some record => rfl
  | none =>
    simp only
    rw [Reads.eval_bind_ok directory]
    rfl

/-- One turn of a walk. -/
theorem Shown.eval_turn (shown : Shown lib scope root item) (visitor : Visitor B α ω) {room : Nat} {state : ω}
    (fresh : item.snapshot ∉ visited)
    (unseen : ∀ q, item.record.bind Publication.previousSnapshot = some q → q ∉ item.snapshot :: visited) :
    eval root (chainLoop lib visitor scope old (room + 1) visited state (some item.snapshot)) =
      (visitor.visit old state item.snapshot (document lib item.value) item.value item.record).next fun state =>
        eval root (chainLoop lib visitor scope old room (item.snapshot :: visited) state
          (onward old item.snapshot item.record)) := by
  rw [eval_chainLoop fresh, shown.eval_chainStep unseen]
  have parsed : lib.published (document lib item.value).bytes = some item.value := lib.published_ofPublished _
  simp only [chainRead, parsed]
  cases visitor.visit old state item.snapshot (document lib item.value) item.value item.record with
  | stop r => rfl
  | go state => rfl

/-- A snapshot that was published with a record is shown with it. -/
theorem Member.shown {s : String} {previous : Option String} (there : Member lib scope.region root s previous)
    (named : isSnapshotName s = true) (valid : ∀ q, previous = some q → isSnapshotName q = true)
    (served : scope.valid = true) :
    ∃ value publishedAt, Shown lib scope root ⟨s, value, some ⟨1, s, previous, publishedAt⟩⟩ := by
  obtain ⟨publishedAt, read⟩ := there.eval_publication [] named valid
  have accepted : previous.all (fun q => !([] : List String).contains q) = true := by cases previous <;> rfl
  rw [if_pos accepted, Reads.eval_zoom] at read
  obtain ⟨files, found, ⟨receipt, source, index, rfl, region, complete⟩, -⟩ := there
  refine ⟨Complete.published lib scope receipt source index, publishedAt, ⟨?_, read⟩⟩
  simp only [found]
  exact complete.eval_manifest served region.symm

/-- A snapshot of an earlier build is shown without a record. -/
theorem Legacy.shown {s : String} (there : Legacy lib scope.region root s) (served : scope.valid = true) :
    ∃ value, Shown lib scope root ⟨s, value, none⟩ := by
  have unrecorded := there.eval_publication []
  obtain ⟨files, p, i, found, -, accepted, region, indexed⟩ := there
  rw [Reads.eval_zoom] at unrecorded
  refine ⟨published lib scope s p i, ⟨?_, unrecorded⟩⟩
  unfold committed at accepted
  obtain ⟨⟨⟩, directory, accepted⟩ := Reads.eval_bind_eq_ok accepted
  simp only [found, manifestIn, manifestOf, served, Bool.not_true, Bool.false_eq_true, if_false]
  rw [Reads.eval_bind_ok directory, Reads.eval_bind_ok accepted]
  simp only [region, bne_self_eq_false, Bool.false_eq_true, if_false]
  rw [Reads.eval_bind_ok indexed]
  rfl

/-- A walk from a live snapshot on goes over what is visible from there. -/
theorem Shape.eval_walk (shape : Shape lib scope.region root named live removed legacy) (served : scope.valid = true)
    (whole : old = none → removed = []) {done more : List String} (position : live = done ++ more)
    (inside : ∀ b, old = some b → b ∈ more) (unseen : ∀ s ∈ more ++ removed ++ legacy, s ∉ visited)
    (distinct : (more ++ removed ++ legacy).Nodup) :
    ∃ items, items.map Item.snapshot = visible old (more ++ removed ++ legacy) ∧
      (∀ item ∈ items, Shown lib scope root item) ∧ Leads old items ∧
      ∀ (α ω : Type) (visitor : Visitor B α ω) (room : Nat) (state : ω),
        eval root (chainLoop lib visitor scope old room visited state (items.head?.map Item.snapshot)) =
          walkItems lib visitor old room state items := by
  induction more generalizing done visited with
  | nil =>
    have unbounded : old = none := by
      cases told : old with
      | none => rfl
      | some b => exact absurd (inside b told) List.not_mem_nil
    subst unbounded
    rw [whole rfl] at unseen ⊢
    rcases shape.ending with empty | ⟨s, last, there⟩
    · rw [empty]
      refine ⟨[], rfl, by simp, trivial, fun α ω visitor room state => ?_⟩
      cases room <;> rfl
    · rw [last] at unseen ⊢
      obtain ⟨value, shown⟩ := there.shown served
      refine ⟨[⟨s, value, none⟩], rfl, List.forall_mem_singleton.mpr shown, ⟨rfl, trivial⟩, fun α ω visitor room state => ?_⟩
      cases room with
      | zero => rfl
      | succ room =>
        refine (shown.eval_turn visitor (unseen s (by simp)) (fun q impossible => by cases impossible)).trans ?_
        simp only [walkItems]
        congr 1
        funext state
        exact congrArg (eval root) (chainLoop_none ..)
  | cons s more ih =>
    have there := shape.member position
    have valid : isSnapshotName s = true := shape.name_of_mem position (by simp)
    have after : live = (done ++ [s]) ++ more := by rw [position]; simp
    have next : ∀ q, (more ++ removed ++ legacy).head? = some q → isSnapshotName q = true :=
      fun q first => shape.name_of_mem after (List.mem_of_mem_head? first)
    obtain ⟨fresh, later⟩ := unseen_next unseen distinct
    have fresh : s ∉ visited := unseen s (by simp)
    obtain ⟨value, publishedAt, shown⟩ := there.shown valid next served
    have onwards : ∀ q, (more ++ removed ++ legacy).head? = some q → q ∉ s :: visited :=
      fun q first => later q (List.mem_of_mem_head? first)
    by_cases told : old = some s
    · subst told
      refine ⟨[⟨s, value, some ⟨1, s, (more ++ removed ++ legacy).head?, publishedAt⟩⟩], by simp [visible, upTo],
        List.forall_mem_singleton.mpr shown, ⟨if_pos rfl, trivial⟩, fun α ω visitor room state => ?_⟩
      cases room with
      | zero => rfl
      | succ room =>
        refine (shown.eval_turn visitor fresh onwards).trans ?_
        simp only [walkItems]
        congr 1
        funext state
        rw [onward, if_pos rfl, chainLoop_none]
        rfl
    · have still : ∀ b, old = some b → b ∈ more := by
        intro b same
        rcases List.mem_cons.mp (inside b same) with rfl | later
        · exact absurd same told
        · exact later
      obtain ⟨items, names, all, leads, walks⟩ := ih after still later (List.nodup_cons.mp distinct).2
      have first : visible old (s :: more ++ removed ++ legacy) = s :: visible old (more ++ removed ++ legacy) := by
        cases old with
        | none => rfl
        | some b =>
          have differs : s ≠ b := fun same => told (by rw [same])
          simp [visible, upTo, differs]
      have head : items.head?.map Item.snapshot = (more ++ removed ++ legacy).head? := by
        rw [← List.head?_map, names, head_visible]
      refine ⟨⟨s, value, some ⟨1, s, (more ++ removed ++ legacy).head?, publishedAt⟩⟩ :: items,
        by rw [List.map_cons, names, first], ?_, ⟨?_, leads⟩, fun α ω visitor room state => ?_⟩
      · exact List.forall_mem_cons.mpr ⟨shown, all⟩
      · rw [head]
        exact if_neg told
      · cases room with
        | zero => rfl
        | succ room =>
          refine (shown.eval_turn visitor fresh onwards).trans ?_
          simp only [walkItems]
          congr 1
          funext state
          rw [← walks α ω visitor room state, head, onward, if_neg told]
          rfl

/-- What readers list of a disk, newest first. -/
structure Listed (lib : Serde B) (scope : Scope) (root : Root B) (named : List String) (old : Option String)
    (items : List Item) : Prop where
  names : items.map Item.snapshot = visible old named
  shown : ∀ item ∈ items, Shown lib scope root item
  leads : Leads old items
  valid : ∀ item ∈ items, isSnapshotName item.snapshot = true
  distinct : (items.map Item.snapshot).Nodup
  told : eval root (retentionBoundary lib) = .ok old
  pointer : eval root (predecessor lib) = .ok (items.head?.map Item.snapshot)
  walks : ∀ (α ω : Type) (visitor : Visitor B α ω) (room : Nat) (state : ω),
    eval root (chainLoop lib visitor scope old room [] state (items.head?.map Item.snapshot)) =
      walkItems lib visitor old room state items

/-- What is visible is in the order in which it was published, newest first. -/
theorem visible_sublist (old : Option String) (named : List String) : (visible old named).Sublist named := by
  cases old with
  | none => exact List.Sublist.refl _
  | some b =>
    change (upTo b named).Sublist named
    induction named with
    | nil => exact List.Sublist.refl _
    | cons s rest ih =>
      simp only [upTo]
      split
      · exact List.singleton_sublist.mpr List.mem_cons_self
      · exact ih.cons_cons s

/-- In a directory of the right shape the visible snapshots can all be listed: each is shown, each record leads to
the next, and a walk goes over them one by one. This is all that the pages below know of the directory. -/
theorem Shape.listed (shape : Shape lib scope.region root named live removed legacy) (told : Told lib root old)
    (served : scope.valid = true) : ∃ items, Listed lib scope root named old items := by
  obtain ⟨read, inside⟩ := shape.eval_told told
  have within : ∀ b, old = some b → b ∈ live := by
    intro b same
    rcases shape.boundary with ⟨absent, -⟩ | ⟨other, member, there⟩
    · rw [same] at told
      cases absent.symm.trans told
    · rw [same] at told
      rw [Bounded.unique (told : Bounded lib root b) there]
      exact member
  have whole : old = none → removed = [] := by
    intro unbounded
    by_contra more
    obtain ⟨b, -, same⟩ := inside more
    cases unbounded.symm.trans same
  have distinct := shape.distinct
  rw [shape.split] at distinct
  obtain ⟨items, names, shown, leads, walks⟩ := shape.eval_walk served whole (show live = [] ++ live from rfl) within
    (fun s _ => (List.not_mem_nil : s ∉ [])) distinct
  rw [← shape.split] at names
  have part := visible_sublist old named
  refine ⟨items, names, shown, leads, fun item member => shape.names _ (part.subset ?_), ?_, read, ?_, walks⟩
  · rw [← names]
    exact List.mem_map_of_mem member
  · rw [names]
    exact shape.distinct.sublist part
  · rw [shape.eval_predecessor, ← List.head?_map, names, head_visible]

/-- A page with these entries; `more` tells whether older ones are left. -/
structure PageOf (head : String) (listed : List HistoryEntry) (more : Bool) (page : History) : Prop where
  head : page.head = head
  entries : page.entries = listed
  hasMore : page.hasMore = more
  nextBefore : page.nextBefore = if more then listed.getLast?.map HistoryEntry.snapshot else none

variable {query : Query} {head : String} {items : List Item} {room : Nat} {walk : Walk}

theorem Walk.finish_page (query : Query) (head : String) (found : walk.cursorFound = true) (next : Option String) :
    ∃ page, PageOf head walk.entries next.isSome page ∧ walk.finish query head next = .ok page := by
  unfold Walk.finish
  rw [found]
  exact ⟨_, ⟨rfl, rfl, rfl, rfl⟩, rfl⟩

def Walk.collect (boundary : Option String) (walk : Walk) (item : Item) : Walk :=
  { walk.flag boundary item.snapshot item.record with entries := walk.entries ++ [item.entry] }

theorem Walk.visit_found (query : Query) (head : String) (old : Option String) (item : Item) (found : walk.cursorFound = true) :
    Walk.visit query head old walk item.snapshot item.value item.record =
      if walk.entries.length + 1 = query.limit then
        .stop ((walk.collect old item).finish query head (onward old item.snapshot item.record))
      else .go (walk.collect old item) := by
  have still : (walk.flag old item.snapshot item.record).cursorFound = true := found
  have added : (walk.collect old item).entries.length = walk.entries.length + 1 := List.length_append
  rw [← added]
  unfold Walk.visit
  exact if_neg (by rw [still]; decide)

theorem walkItems_nil (visitor : Visitor B α ω) (room : Nat) (state : ω) :
    walkItems lib visitor old room state [] = visitor.finish state := by
  cases room <;> rfl

/-- After the cursor a walk collects entries until the page is full. -/
theorem walkItems_collect (lib : Serde B) (query : Query) (head : String) (walk : Walk) (leads : Leads old items) (found : walk.cursorFound = true)
    (few : walk.entries.length < query.limit) :
    ∃ page, PageOf head (walk.entries ++ (items.take (query.limit - walk.entries.length)).map Item.entry)
        (decide (query.limit - walk.entries.length < items.length)) page ∧
      ∀ room, walkItems lib (historyVisitor query head) old room walk items =
        if min (query.limit - walk.entries.length) items.length ≤ room then .ok page else .error .limit := by
  induction items generalizing walk with
  | nil =>
    obtain ⟨page, made, done⟩ := Walk.finish_page query head found none
    rw [List.take_nil, List.map_nil, List.append_nil]
    refine ⟨page, made, fun room => ?_⟩
    rw [List.length_nil, Nat.min_zero, if_pos (Nat.zero_le room), walkItems_nil]
    exact done
  | cons item rest ih =>
    obtain ⟨next, leads⟩ := leads
    have counted : min (query.limit - walk.entries.length) (item :: rest).length =
        min (query.limit - (walk.entries.length + 1)) rest.length + 1 := by
      rw [List.length_cons]
      omega
    have taken : (item :: rest).take (query.limit - walk.entries.length) =
        item :: rest.take (query.limit - (walk.entries.length + 1)) := by
      rw [show query.limit - walk.entries.length = query.limit - (walk.entries.length + 1) + 1 by omega]
      rfl
    have longer : decide (query.limit - walk.entries.length < (item :: rest).length) =
        decide (query.limit - (walk.entries.length + 1) < rest.length) := by
      rw [List.length_cons]
      exact decide_eq_decide.mpr (by omega)
    rw [counted, taken, longer, List.map_cons, List.append_cons]
    have added : (walk.collect old item).entries.length = walk.entries.length + 1 := List.length_append
    have visited := Walk.visit_found query head old item found
    by_cases full : walk.entries.length + 1 = query.limit
    · have still : (walk.collect old item).cursorFound = true := found
      obtain ⟨page, made, done⟩ := Walk.finish_page query head still (rest.head?.map Item.snapshot)
      have more : decide (query.limit - (walk.entries.length + 1) < rest.length) =
          (rest.head?.map Item.snapshot).isSome := by
        rw [full, Nat.sub_self]
        cases rest <;> rfl
      rw [more, full, Nat.sub_self, List.take_zero, List.map_nil, List.append_nil]
      refine ⟨page, made, fun room => ?_⟩
      cases room with
      | zero =>
        rw [if_neg (by omega)]
        rfl
      | succ room =>
        rw [if_pos (by omega), ← done]
        rw [if_pos full] at visited
        simp only [walkItems, historyVisitor, visited, next, Turn.next]
    · rw [if_neg full] at visited
      have still : (walk.collect old item).cursorFound = true := found
      obtain ⟨page, made, rests⟩ := ih _ leads still (by omega)
      rw [added] at made rests
      refine ⟨page, made, fun room => ?_⟩
      cases room with
      | zero =>
        rw [if_neg (by omega)]
        rfl
      | succ room =>
        have goes : walkItems lib (historyVisitor query head) old (room + 1) walk (item :: rest) =
            walkItems lib (historyVisitor query head) old room (walk.collect old item) rest := by
          simp only [walkItems, historyVisitor, visited, Turn.next]
        rw [goes, rests]
        simp only [Nat.add_le_add_iff_right]

/-- Up to the cursor a walk collects nothing. -/
theorem walkItems_search (lib : Serde B) (head : String) (old : Option String) {front : List Item} (rest : List Item)
    (walk : Walk) (before : query.before = some item.snapshot)
    (absent : ∀ other ∈ front, other.snapshot ≠ item.snapshot) (searching : walk.cursorFound = false) :
    ∃ after : Walk, after.cursorFound = true ∧ after.entries = walk.entries ∧
      ∀ room, walkItems lib (historyVisitor query head) old (room + (front.length + 1)) walk (front ++ item :: rest) =
        walkItems lib (historyVisitor query head) old room after rest := by
  induction front generalizing walk with
  | nil =>
    refine ⟨{ walk.flag old item.snapshot item.record with cursorFound := true }, rfl, rfl, fun room => ?_⟩
    have visited : Walk.visit query head old walk item.snapshot item.value item.record =
        .go { walk.flag old item.snapshot item.record with cursorFound := true } := by
      simp [Walk.visit, Walk.flag, searching, before]
    simp only [List.length_nil, List.nil_append, walkItems, historyVisitor, visited, Turn.next]
  | cons first front ih =>
    obtain ⟨differs, absent⟩ := List.forall_mem_cons.mp absent
    have still : (walk.flag old first.snapshot first.record).cursorFound = false := searching
    obtain ⟨after, found, kept, rests⟩ := ih _ absent still
    refine ⟨after, found, kept, fun room => ?_⟩
    have visited : Walk.visit query head old walk first.snapshot first.value first.record =
        .go (walk.flag old first.snapshot first.record) := by
      simp [Walk.visit, Walk.flag, searching, before, differs.symm]
    rw [← rests]
    simp only [List.length_cons, List.cons_append, ← Nat.add_assoc, walkItems, historyVisitor, visited, Turn.next]

/-- After its checks and the look at boundary and head, a page is the walk over the visible items. -/
theorem eval_historyPage (query : Query) (valid : 1 ≤ query.limit ∧ query.limit ≤ 100)
    (cursor : ∀ s, query.before = some s → isSnapshotName s = true) (listed : Listed lib query.scope root named old items)
    (first : items.head?.map Item.snapshot = some head) :
    eval root (historyPage lib query) =
      walkItems lib (historyVisitor query head) old 10000 { cursorFound := query.before.isNone } items := by
  have accepted : query.before.any (fun v => !validHistoryCursor v) = false := by
    cases before : query.before with
    | none => rfl
    | some s =>
      have named := cursor s before
      have short := safe_of_named named
      simp only [isSnapshotName, safeComponent, Bool.and_eq_true] at named short
      simp only [Option.any_some, validHistoryCursor, short.1.2, named.1, Bool.and_self, Bool.true_and,
        Bool.not_eq_eq_eq_not, Bool.not_false]
      simp only [safeComponent, short.1.1, short.1.2, short.2, Bool.and_self]
  unfold historyPage
  rw [if_neg (by omega)]
  unfold historyPageInner historyWalk
  rw [Reads.eval_bind_ok listed.told, accepted]
  simp only [Bool.false_eq_true, if_false]
  rw [Reads.eval_bind_ok listed.pointer, first]
  have walks := listed.walks History Walk (historyVisitor query head) 10000 { cursorFound := query.before.isNone }
  rw [first] at walks
  exact walks

/-- The first page has the newest items, up to its limit, and says whether there are more. -/
theorem Listed.first_page (listed : Listed lib scope root named old items) {limit : Nat} (valid : 1 ≤ limit ∧ limit ≤ 100)
    (first : items.head?.map Item.snapshot = some head) :
    ∃ page, PageOf head ((items.take limit).map Item.entry) (decide (limit < items.length)) page ∧
      eval root (historyPage lib ⟨scope, limit, none⟩) = .ok page := by
  let query : Query := ⟨scope, limit, none⟩
  have read := eval_historyPage query valid (fun s impossible => by cases impossible) listed first
  obtain ⟨page, made, done⟩ := walkItems_collect lib query head { cursorFound := true } listed.leads rfl valid.1
  refine ⟨page, made, ?_⟩
  rw [read]
  refine (done 10000).trans (if_pos ?_)
  change min (limit - 0) items.length ≤ 10000
  omega

theorem Leads.of_append {front rest : List Item} (leads : Leads old (front ++ rest)) : Leads old rest := by
  induction front with
  | nil => exact leads
  | cons first front ih => exact ih leads.2

/-- A page behind a cursor has the items that follow it, up to its limit. The walk counts the items in front of the
cursor as well, so it gives up where they and the page are more than 10,000. -/
theorem Listed.next_page {front rest : List Item} (listed : Listed lib scope root named old (front ++ item :: rest))
    {limit : Nat} (valid : 1 ≤ limit ∧ limit ≤ 100) (within : front.length < 10000)
    (first : (front ++ item :: rest).head?.map Item.snapshot = some head) :
    ∃ page, PageOf head ((rest.take limit).map Item.entry) (decide (limit < rest.length)) page ∧
      eval root (historyPage lib ⟨scope, limit, some item.snapshot⟩) =
        if front.length + 1 + min limit rest.length ≤ 10000 then .ok page else .error .limit := by
  let query : Query := ⟨scope, limit, some item.snapshot⟩
  have cursor : ∀ s, query.before = some s → isSnapshotName s = true := by
    intro s before
    cases before
    exact listed.valid item (by simp)
  have absent : ∀ other ∈ front, other.snapshot ≠ item.snapshot := by
    intro other member same
    have distinct := listed.distinct
    rw [List.map_append, List.map_cons, List.nodup_append] at distinct
    exact distinct.2.2 _ (List.mem_map_of_mem member) _ List.mem_cons_self same
  obtain ⟨after, found, none, searched⟩ := walkItems_search lib head old rest { cursorFound := false }
    (show query.before = some item.snapshot from rfl) absent rfl
  have leads : Leads old rest := (Leads.of_append listed.leads).2
  have none : after.entries = [] := none
  have few : after.entries.length < query.limit := by
    rw [none]
    exact valid.1
  obtain ⟨page, made, done⟩ := walkItems_collect lib query head after leads found few
  rw [none] at made done
  refine ⟨page, made, ?_⟩
  rw [eval_historyPage query valid cursor listed first]
  have room : 10000 = (10000 - (front.length + 1)) + (front.length + 1) := by omega
  have count : min (query.limit - 0) rest.length ≤ 10000 - (front.length + 1) ↔
      front.length + 1 + min limit rest.length ≤ 10000 := by
    change min (limit - 0) rest.length ≤ 10000 - (front.length + 1) ↔ _
    omega
  have read := searched (10000 - (front.length + 1))
  rw [← room, done] at read
  refine read.trans ?_
  exact if_congr count rfl rfl

/-- The lookup returns the newest item with the hash. -/
theorem walkItems_byHash (hash : String) (enough : items.length ≤ room) :
    walkItems lib (byHashVisitor hash) old room () items =
      (items.find? fun item => item.value.contentSha256 = hash).elim (.error .notFound)
        fun item => .ok (document lib item.value) := by
  induction items generalizing room with
  | nil =>
    rw [walkItems_nil]
    rfl
  | cons item rest ih =>
    obtain ⟨room, rfl⟩ : ∃ n, room = n + 1 := ⟨room - 1, by simp at enough; omega⟩
    by_cases hit : item.value.contentSha256 = hash
    · simp [walkItems, byHashVisitor, hit, Turn.next]
    · have rest := ih (Nat.le_of_succ_le_succ enough)
      simpa [walkItems, byHashVisitor, hit, Turn.next] using rest

theorem Listed.by_hash (listed : Listed lib scope root named old items) (short : items.length ≤ 10000) {hash : String}
    (valid : hashValid hash = true) :
    eval root (manifestByHash lib scope hash) =
      (items.find? fun item => item.value.contentSha256 = hash).elim (.error .notFound)
        fun item => .ok (document lib item.value) := by
  unfold manifestByHash byHashWalk
  rw [valid, if_neg (by decide), Reads.eval_bind_ok listed.told, Reads.eval_bind_ok listed.pointer,
    listed.walks, walkItems_byHash hash short]

/-- Content identities are SHA-256 digests. -/
theorem Shown.hash (shown : Shown lib scope root item) : ∃ bytes, item.value.contentSha256 = lib.sha256 bytes := by
  have read := shown.manifest
  unfold manifestIn manifestOf at read
  split at read
  · cases read
  · obtain ⟨⟨⟩, -, read⟩ := Reads.eval_bind_eq_ok read
    obtain ⟨p, -, read⟩ := Reads.eval_bind_eq_ok read
    split at read
    · cases read
    · obtain ⟨i, -, read⟩ := Reads.eval_bind_eq_ok read
      have value := document_inj (Except.ok.inj read)
      rw [← value]
      exact ⟨_, rfl⟩

variable {w x : World lib}

/-- A directory with a snapshot in it has one region, the one on record. -/
theorem Shape.region_unique {region own : Region} {live' removed' legacy' : List String}
    (shape : Shape lib region root named live removed legacy) (again : Shape lib own root named live' removed' legacy')
    (some_ : named ≠ []) : own = region := by
  obtain ⟨head, first⟩ : ∃ head, named.head? = some head := by
    cases named with
    | nil => exact absurd rfl some_
    | cons head rest => exact ⟨head, rfl⟩
  obtain ⟨p, read, rfl⟩ := shape.head_committed first
  obtain ⟨q, also, rfl⟩ := again.head_committed first
  rw [Except.ok.inj (read.symm.trans also)]

/-- What publications leave of a chain: all of it, behind the new snapshots. -/
structure Grown (region : Region) (w x : World lib) (live removed legacy : List String) (new : List String) : Prop where
  named : x.named = new ++ w.named
  shape : Shape lib region x.root x.named (new ++ live) removed legacy
  retention : x.root.retention = w.root.retention
  same : ∀ s ∈ w.named, x.root.snapshots s = w.root.snapshots s

/-- A publication adds at most one name in front and leaves every snapshot that is there, and the recorded
boundary, as they are. By the kinds of steps that change the directory. -/
theorem Inv.grow {region own : Region} {live' removed' legacy' : List String} {label : Label lib}
    (inv : Inv own w live' removed' legacy') (shape : Shape lib region w.root w.named live removed legacy)
    (some_ : w.named ≠ []) (published : label.publication) (taken : Master.step w label = some x) :
    ∃ new, Grown region w x live removed legacy new := by
  rcases step_root taken with ⟨root, named⟩ | ⟨s, files, -, phase, root, named⟩ | ⟨s, -, phase, root, named⟩ |
    ⟨_, _, _, rfl, -⟩ | ⟨_, _, _, _, rfl, -⟩
  · exact ⟨[], named, by rw [root, named]; exact shape, by rw [root], fun s _ => by rw [root]⟩
  · have fresh : Fresh w.root w.named s := by
      have facts := inv.phase
      rw [phase] at facts
      rcases facts with ⟨fresh, -⟩ | impossible
      · exact fresh
      · exact impossible.elim
    refine ⟨[], named, by rw [root, named]; exact shape.install fresh, by rw [root]; rfl, fun t member => ?_⟩
    rw [root]
    exact Root.installed_other fun same => fresh.2.1 (same ▸ member)
  · have facts := inv.phase
    rw [phase] at facts
    rcases facts with ⟨fresh, valid, owner, same, there⟩ | impossible
    · rw [same some_, shape.region_unique inv.shape some_] at there
      exact ⟨[s], named, by rw [root, named]; exact shape.point fresh valid there, by rw [root], fun t _ => by rw [root]⟩
    · exact impossible.elim
  · exact published.elim
  · exact published.elim

/-- What two runs of publications add is added by both together. -/
theorem Grown.trans {region : Region} {y : World lib} {new newer : List String}
    (first : Grown region w x live removed legacy new) (second : Grown region x y (new ++ live) removed legacy newer) :
    Grown region w y live removed legacy (newer ++ new) where
  named := by rw [second.named, first.named, List.append_assoc]
  shape := by
    rw [List.append_assoc]
    exact second.shape
  retention := second.retention.trans first.retention
  same s member := (second.same s (by rw [first.named]; exact List.mem_append_right new member)).trans (first.same s member)

/-- Any run of publications adds names in front and changes nothing behind them. By induction on the run. -/
theorem grow_run {region : Region} (start : ∃ own live removed legacy, Inv own w live removed legacy)
    (shape : Shape lib region w.root w.named live removed legacy) (some_ : w.named ≠ [])
    (reach : Run.Reach step (fun _ label => label.publication) w x) :
    (∃ own live removed legacy, Inv own x live removed legacy) ∧ ∃ new, Grown region w x live removed legacy new := by
  refine reach.invariant (P := fun x => (∃ own live removed legacy, Inv own x live removed legacy) ∧
    ∃ new, Grown region w x live removed legacy new) ⟨start, [], rfl, shape, rfl, fun _ _ => rfl⟩ ?_
  intro y label z known published taken
  obtain ⟨⟨own, live', removed', legacy', inv⟩, new, grown⟩ := known
  have still : y.named ≠ [] := by
    rw [grown.named]
    exact List.append_ne_nil_of_right_ne_nil new some_
  obtain ⟨newer, more⟩ := inv.grow grown.shape still published taken
  exact ⟨inv.step taken, newer ++ new, grown.trans more⟩

/-- What is published later stands in front of what is visible, as long as it is not the boundary itself. -/
theorem visible_append {front back : List String} (fresh : ∀ b, old = some b → b ∉ front) :
    visible old (front ++ back) = front ++ visible old back := by
  cases old with
  | none => rfl
  | some b =>
    replace fresh := fresh b rfl
    change upTo b (front ++ back) = front ++ upTo b back
    induction front with
    | nil => rfl
    | cons s front ih =>
      rw [List.mem_cons, not_or] at fresh
      rw [List.cons_append, upTo, if_neg fun same => fresh.1 same.symm, ih fresh.2]
      rfl

/-- Two readings of the same directories show the same. -/
theorem shown_eq {again : List Item} (names : items.map Item.snapshot = again.map Item.snapshot)
    (shown : ∀ item ∈ items, Shown lib scope root item) (also : ∀ item ∈ again, Shown lib scope other item)
    (same : ∀ item ∈ items, root.snapshots item.snapshot = other.snapshots item.snapshot) : items = again := by
  induction items generalizing again with
  | nil =>
    cases again with
    | nil => rfl
    | cons => cases names
  | cons item rest ih =>
    cases again with
    | nil => cases names
    | cons first again =>
      obtain ⟨name, names⟩ := List.cons.inj names
      obtain ⟨here, shown⟩ := List.forall_mem_cons.mp shown
      obtain ⟨there, also⟩ := List.forall_mem_cons.mp also
      obtain ⟨kept, same⟩ := List.forall_mem_cons.mp same
      rw [here.unique there name kept, ih names shown also same]

/-- A boundary that is recorded is one of the live snapshots. -/
theorem Told.mem (told : Told lib root old) (shape : Shape lib scope.region root named live removed legacy) :
    ∀ b, old = some b → b ∈ live := by
  intro b same
  rw [same] at told
  rcases shape.boundary with ⟨absent, -⟩ | ⟨other, member, there⟩
  · cases absent.symm.trans told
  · rw [Bounded.unique (told : Bounded lib root b) there]
    exact member

/-- Publications only put items in front. -/
theorem Grown.listed {new : List String} (grown : Grown scope.region w x live removed legacy new)
    (shape : Shape lib scope.region w.root w.named live removed legacy) (told : Told lib w.root old)
    (served : scope.valid = true) (listed : Listed lib scope w.root w.named old items) :
    ∃ front, Listed lib scope x.root x.named old (front ++ items) := by
  have later : Told lib x.root old := grown.retention.trans told
  obtain ⟨all, again⟩ := grown.shape.listed later served
  have fresh : ∀ b, old = some b → b ∉ new := by
    intro b same inside
    have distinct := grown.shape.distinct
    rw [grown.named, shape.split, List.nodup_append] at distinct
    exact distinct.2.2 b inside b (by simp [told.mem shape b same]) rfl
  have names := again.names
  rw [grown.named, visible_append fresh, ← listed.names] at names
  obtain ⟨front, back, rfl, -, names⟩ := List.map_eq_append_iff.mp names
  have back_eq : back = items := by
    refine shown_eq names (fun item member => again.shown item (List.mem_append_right front member)) listed.shown
      fun item member => grown.same _ ?_
    have part := (visible_sublist old w.named).subset
    refine part ?_
    rw [← listed.names, ← names]
    exact List.mem_map_of_mem member
  exact ⟨front, back_eq ▸ again⟩

/-- Following `next_before` over these disks reads the listed entries: `has_more` as long as older ones are
left, each page where the one before it ended. -/
inductive Paged (lib : Serde B) (roots : Nat → Root B) (scope : Scope) (limit : Nat) :
    Nat → Option String → List HistoryEntry → Prop
  | last {n : Nat} {before : Option String} {page : History} :
      eval (roots n) (historyPage lib ⟨scope, limit, before⟩) = .ok page → page.hasMore = false → page.nextBefore = none →
      Paged lib roots scope limit n before page.entries
  | more {n : Nat} {before : Option String} {page : History} {cursor : String} {older : List HistoryEntry} :
      eval (roots n) (historyPage lib ⟨scope, limit, before⟩) = .ok page → page.hasMore = true →
      page.nextBefore = some cursor → older ≠ [] → Paged lib roots scope limit (n + 1) (some cursor) older →
      Paged lib roots scope limit n before (page.entries ++ older)

variable {roots : Nat → Root B} {limit : Nat}

/-- A page is the last one, or the rest is read from its last entry on. -/
theorem PageOf.paged {n : Nat} {before : Option String} {rest : List Item} {page : History} (positive : 1 ≤ limit)
    (made : PageOf head ((rest.take limit).map Item.entry) (decide (limit < rest.length)) page)
    (read : eval (roots n) (historyPage lib ⟨scope, limit, before⟩) = .ok page)
    (follows : ∀ newer item older, rest = newer ++ item :: older → newer.length + 1 = limit → older ≠ [] →
      Paged lib roots scope limit (n + 1) (some item.snapshot) (older.map Item.entry)) :
    Paged lib roots scope limit n before (rest.map Item.entry) := by
  obtain ⟨-, entries, hasMore, nextBefore⟩ := made
  by_cases longer : limit < rest.length
  · rw [decide_eq_true longer] at hasMore nextBefore
    obtain ⟨newer, item, older, split, count⟩ : ∃ newer item older, rest = newer ++ item :: older ∧ newer.length + 1 = limit := by
      refine ⟨rest.take (limit - 1), rest[limit - 1], rest.drop limit, ?_, ?_⟩
      · have parts := List.take_append_drop (limit - 1) rest
        rw [List.drop_eq_getElem_cons (by omega), Nat.sub_add_cancel positive] at parts
        exact parts.symm
      · rw [List.length_take]
        omega
    have taken : rest.take limit = newer ++ [item] := by
      rw [split, List.append_cons, List.take_left' (by rw [List.length_append]; exact count)]
    have left : older ≠ [] := by
      intro none
      rw [split, none, List.length_append, List.length_singleton] at longer
      omega
    rw [taken] at entries nextBefore
    have cursor : page.nextBefore = some item.snapshot := by
      rw [nextBefore, List.map_append]
      simp [Item.entry, entryOf]
    have whole : rest.map Item.entry = page.entries ++ older.map Item.entry := by
      rw [entries, split, List.append_cons, List.map_append]
    rw [whole]
    refine .more read hasMore cursor (fun none => left (List.map_eq_nil_iff.mp none)) (follows newer item older split count left)
  · rw [decide_eq_false longer] at hasMore nextBefore
    rw [List.take_of_length_le (by omega)] at entries
    rw [← entries]
    exact .last read hasMore nextBefore

/-- From a cursor on, the pages list what is behind it. -/
theorem paged_behind (roots : Nat → Root B) {nameds : Nat → List String} (valid : 1 ≤ limit ∧ limit ≤ 100)
    (lists : ∀ n, ∃ front, Listed lib scope (roots n) (nameds n) old (front ++ items))
    (short : ∀ n, (visible old (nameds n)).length ≤ 10000) {front rest : List Item} (split : items = front ++ item :: rest)
    (n : Nat) : Paged lib roots scope limit n (some item.snapshot) (rest.map Item.entry) := by
  induction size : rest.length using Nat.strong_induction_on generalizing front item rest n with
  | _ count ih =>
    obtain ⟨new, listed⟩ := lists n
    have most : (new ++ items).length ≤ 10000 := by
      have few := short n
      rwa [← listed.names, List.length_map] at few
    rw [split, ← List.append_assoc] at listed most
    rw [List.length_append, List.length_cons] at most
    obtain ⟨head, first⟩ : ∃ head, ((new ++ front) ++ item :: rest).head?.map Item.snapshot = some head := by
      cases new ++ front with
      | nil => exact ⟨_, rfl⟩
      | cons => exact ⟨_, rfl⟩
    obtain ⟨page, made, read⟩ := listed.next_page valid (by omega) first
    rw [if_pos (by omega)] at read
    refine made.paged valid.1 read fun newer next older parts _ _ => ?_
    have fewer : older.length < count := by
      rw [← size, parts, List.length_append, List.length_cons]
      omega
    exact ih older.length fewer (show items = (front ++ item :: newer) ++ next :: older by rw [split, parts]; simp) (n + 1) rfl

theorem Shape.told_of_eval {region : Region} (shape : Shape lib region root named live removed legacy)
    (read : eval root (retentionBoundary lib) = .ok old) : Told lib root old := by
  rcases shape.eval_boundary with ⟨absent, -, known⟩ | ⟨b, -, there, known⟩
  · rw [← Except.ok.inj (known.symm.trans read)]
    exact absent
  · rw [← Except.ok.inj (known.symm.trans read)]
    exact there

/-- As long as no reader has to pass more than 10,000 snapshots: the pages list everything from the head of the
first page down to the boundary, once and newest first, whatever is published in between, and a content hash is
looked up exactly if it is listed, in the newest snapshot that has it. -/
theorem history_exact {start : World lib} (initial : Initial start) {worlds : Nat → World lib}
    (reach : Run.Reach step (fun _ _ => True) start (worlds 0))
    (publishes : ∀ n, Run.Reach step (fun _ label => label.publication) (worlds n) (worlds (n + 1)))
    (first : (worlds 0).named.head? = some head) (served : scope.valid = true)
    (owned : eval (worlds 0).root (snapshotRegion lib head) = .ok scope.region)
    (told : eval (worlds 0).root (retentionBoundary lib) = .ok old) (valid : 1 ≤ limit ∧ limit ≤ 100)
    (short : ∀ n, (visible old (worlds n).named).length ≤ 10000) (digests : ∀ bytes, hashValid (lib.sha256 bytes) = true) :
    ∃ items, items.map Item.snapshot = visible old (worlds 0).named ∧ (items.map Item.snapshot).Nodup ∧
      items.head?.map Item.snapshot = some head ∧ (∀ item ∈ items, Shown lib scope (worlds 0).root item) ∧
      Paged lib (fun n => (worlds n).root) scope limit 0 none (items.map Item.entry) ∧
      ∀ hash d, eval (worlds 0).root (manifestByHash lib scope hash) = .ok d ↔
        ∃ newer item older, items = newer ++ item :: older ∧ item.value.contentSha256 = hash ∧
          (∀ other ∈ newer, other.value.contentSha256 ≠ hash) ∧ d = document lib item.value := by
  obtain ⟨region, live, removed, legacy, inv⟩ := Inv.reach initial reach
  have shape := inv.shape
  have some_ : (worlds 0).named ≠ [] := fun none => by rw [none] at first; cases first
  obtain ⟨p, accepted, own⟩ := shape.head_committed first
  have same : region = scope.region := by
    unfold snapshotRegion at owned
    rw [Reads.eval_bind_ok accepted] at owned
    rw [← own]
    exact Except.ok.inj owned
  rw [same] at shape
  have told := shape.told_of_eval told
  obtain ⟨items, listed⟩ := shape.listed told served
  have count : items.length ≤ 10000 := by
    have few := short 0
    rwa [← listed.names, List.length_map] at few
  have starts : items.head?.map Item.snapshot = some head := by
    rw [← List.head?_map, listed.names, head_visible, first]
  have grows : ∀ n, Run.Reach step (fun _ label => label.publication) (worlds 0) (worlds n) := by
    intro n
    induction n with
    | zero => exact .start
    | succ n ih => exact ih.trans (publishes n)
  have lists : ∀ n, ∃ front, Listed lib scope (worlds n).root (worlds n).named old (front ++ items) := by
    intro n
    obtain ⟨-, new, grown⟩ := grow_run ⟨region, live, removed, legacy, inv⟩ shape some_ (grows n)
    exact grown.listed shape told served listed
  refine ⟨items, listed.names, listed.distinct, starts, listed.shown, ?_, fun hash d => ?_⟩
  · obtain ⟨page, made, read⟩ := listed.first_page valid starts
    refine made.paged valid.1 read fun newer item older split _ _ => ?_
    exact paged_behind (fun n => (worlds n).root) valid lists short split 1
  · constructor
    · intro read
      have hashed : hashValid hash = true := by
        unfold manifestByHash at read
        split at read
        · cases read
        · rename_i accepted
          simpa using accepted
      rw [listed.by_hash count hashed] at read
      cases found : items.find? fun item => item.value.contentSha256 = hash with
      | none =>
        rw [found] at read
        cases read
      | some item =>
        rw [found] at read
        obtain ⟨hit, newer, older, split, unmet⟩ := List.find?_eq_some_iff_append.mp found
        refine ⟨newer, item, older, split, by simpa using hit, fun other member => by simpa using unmet other member, ?_⟩
        exact (Except.ok.inj read).symm
    · rintro ⟨newer, item, older, split, hit, unmet, rfl⟩
      obtain ⟨bytes, digest⟩ := (listed.shown item (by simp [split])).hash
      have hashed : hashValid hash = true := by
        rw [← hit, digest]
        exact digests bytes
      have found : items.find? (fun item => item.value.contentSha256 = hash) = some item := by
        refine List.find?_eq_some_iff_append.mpr ⟨by simpa using hit, newer, older, split, fun other member => ?_⟩
        simpa using unmet other member
      rw [listed.by_hash count hashed, found]
      rfl

theorem numberedNames_get {n i : Nat} (inside : i < n) :
    (numberedNames n)[i]? = some (snapshotName (numbered (n - 1 - i))) := by
  unfold numberedNames
  have length : ((List.range n).map fun i => snapshotName (numbered i)).length = n := by
    rw [List.length_map, List.length_range]
  rw [List.getElem?_reverse (by omega), length, List.getElem?_map, List.getElem?_range (by omega)]
  rfl

theorem Unpruned.listed {n : Nat} (unpruned : Unpruned w n) (scope : Scope) (region : scope.region = .jp) (served : scope.valid = true) :
    ∃ items, Listed lib scope w.root (numberedNames n) none items := by
  have shape := unpruned.shape
  rw [← region] at shape
  exact shape.listed unpruned.told served

theorem Listed.count (listed : Listed lib scope root named none items) : items.length = named.length := by
  have names : items.map Item.snapshot = named := listed.names
  rw [← names, List.length_map]

/-- What is behind a listed cursor. -/
theorem Listed.split (listed : Listed lib scope root named none items) {i : Nat} {cursor : String}
    (here : named[i]? = some cursor) :
    ∃ front item rest, items = front ++ item :: rest ∧ item.snapshot = cursor ∧ front.length = i ∧
      rest.length + i + 1 = named.length := by
  have names : items.map Item.snapshot = named := listed.names
  rw [← names, List.getElem?_map] at here
  obtain ⟨item, there, same⟩ := Option.map_eq_some_iff.mp here
  obtain ⟨inside, there⟩ := List.getElem?_eq_some_iff.mp there
  have parts := List.take_append_drop i items
  rw [List.drop_eq_getElem_cons inside, there] at parts
  refine ⟨items.take i, item, items.drop (i + 1), parts.symm, same, List.length_take_of_le (by omega), ?_⟩
  rw [← names, List.length_map, List.length_drop]
  omega

theorem Listed.has_head (listed : Listed lib scope root named old items) (some_ : items ≠ []) :
    ∃ head, items.head?.map Item.snapshot = some head := by
  cases items with
  | nil => exact absurd rfl some_
  | cons item rest => exact ⟨_, rfl⟩

theorem PageOf.next {rest : List Item} {page : History}
    (made : PageOf head ((rest.take limit).map Item.entry) (decide (limit < rest.length)) page) (positive : 1 ≤ limit)
    (longer : limit < rest.length) : page.nextBefore = (rest.map Item.snapshot)[limit - 1]? := by
  rw [made.nextBefore, if_pos (decide_eq_true longer), List.getLast?_eq_getElem?, List.length_map,
    List.length_take_of_le (by omega), List.getElem?_map, List.getElem?_take_of_lt (by omega), List.getElem?_map,
    Option.map_map]
  rfl

/-- From a listed cursor on, a page that is not the last ends `limit` snapshots later. -/
theorem Listed.cursor_page (listed : Listed lib scope root named none items) (valid : 1 ≤ limit ∧ limit ≤ 100) {i : Nat}
    {cursor next : String} (here : named[i]? = some cursor) (there : named[i + limit]? = some next)
    (longer : i + limit + 1 < named.length) (within : i + limit < 10000) :
    ∃ page, eval root (historyPage lib ⟨scope, limit, some cursor⟩) = .ok page ∧ page.nextBefore = some next := by
  obtain ⟨front, item, rest, rfl, rfl, rfl, count⟩ := listed.split here
  obtain ⟨head, first⟩ := listed.has_head (by simp)
  obtain ⟨page, made, read⟩ := listed.next_page valid (by omega) first
  rw [if_pos (by omega)] at read
  refine ⟨page, read, ?_⟩
  have names : (front ++ item :: rest).map Item.snapshot = named := listed.names
  rw [made.next valid.1 (by omega), ← there, ← names, List.map_append, List.getElem?_append_right (by simp),
    List.length_map, Nat.add_sub_cancel_left, List.map_cons]
  conv_rhs => rw [show limit = limit - 1 + 1 by omega, List.getElem?_cons_succ]

/-- Where a reader of pages of 100 is after some pages of a chain of 10,000. -/
def cursorAfter : Nat → Option String
  | 0 => none
  | pages + 1 => some (snapshotName (numbered (10000 - 100 * (pages + 1))))

theorem cursorAfter_get {pages : Nat} (few : pages < 100) :
    cursorAfter (pages + 1) = (numberedNames 10000)[100 * pages + 99]? := by
  rw [numberedNames_get (by omega), cursorAfter]
  congr 3
  omega

/-- A chain of 10,000 snapshots is read to its last page but one, then one more is published. -/
theorem history_overtaken : ∃ w x : World sampleSerde,
    Run.Reach step (fun _ _ => True) ({ root := {} } : World sampleSerde) w ∧
    Run.Reach step (fun _ label => label.publication) w x ∧ w.named.length = 10000 ∧ x.named.length = 10001 ∧
    eval w.root (retentionBoundary sampleSerde) = .ok none ∧
    (∀ n < 99, ∃ page, eval w.root (historyPage sampleSerde ⟨sampleScope, 100, cursorAfter n⟩) = .ok page ∧
      page.nextBefore = cursorAfter (n + 1)) ∧
    eval x.root (historyPage sampleSerde ⟨sampleScope, 100, cursorAfter 99⟩) = .error .limit ∧
    ∀ entries, ¬ Paged sampleSerde (fun n => if n < 99 then w.root else x.root) sampleScope 100 0 none entries := by
  obtain ⟨w, reach, unpruned⟩ := reach_unpruned (n := 10000) (by omega)
  obtain ⟨x, grows, later⟩ := unpruned.more sampleSupply (show 10000 + 1 < 65536 by omega)
  have served : sampleScope.valid = true := by decide +kernel
  obtain ⟨items, listed⟩ := unpruned.listed sampleScope rfl served
  obtain ⟨grown, again⟩ := later.listed sampleScope rfl served
  have counted := length_numberedNames 10000
  have pages : ∀ n < 99, ∃ page, eval w.root (historyPage sampleSerde ⟨sampleScope, 100, cursorAfter n⟩) = .ok page ∧
      page.nextBefore = cursorAfter (n + 1) := by
    intro n few
    cases n with
    | zero =>
      have count := listed.count
      rw [counted] at count
      obtain ⟨head, first⟩ := listed.has_head (List.ne_nil_of_length_pos (by omega))
      obtain ⟨page, made, read⟩ := listed.first_page (show 1 ≤ 100 ∧ 100 ≤ 100 by decide) first
      refine ⟨page, read, ?_⟩
      rw [made.next (by decide) (by omega), listed.names, cursorAfter_get (by decide), visible_none]
    | succ n =>
      have here := (cursorAfter_get (show n < 100 by omega)).symm
      have there := (cursorAfter_get (show n + 1 < 100 by omega)).symm
      exact listed.cursor_page (by decide) here there (by rw [counted]; omega) (by omega)
  have refused : eval x.root (historyPage sampleSerde ⟨sampleScope, 100, cursorAfter 99⟩) = .error .limit := by
    have here : (numberedNames 10001)[9900]? = some (snapshotName (numbered 100)) := numberedNames_get (by decide)
    obtain ⟨front, item, rest, rfl, cursor, before, after⟩ := again.split here
    rw [length_numberedNames] at after
    obtain ⟨head, first⟩ := again.has_head (by simp)
    obtain ⟨page, -, read⟩ := again.next_page (show 1 ≤ 100 ∧ 100 ≤ 100 by decide) (by omega) first
    rw [if_neg (by omega), cursor] at read
    exact read
  refine ⟨w, x, reach, grows, by rw [unpruned.named, counted], by rw [later.named, length_numberedNames], listed.told, pages,
    refused, fun entries paged => ?_⟩
  have follows : ∀ n ≤ 99, ∃ entries, Paged sampleSerde (fun n => if n < 99 then w.root else x.root) sampleScope 100 n
      (cursorAfter n) entries := by
    intro n
    induction n with
    | zero => exact fun _ => ⟨entries, paged⟩
    | succ n ih =>
      intro few
      obtain ⟨entries, paged⟩ := ih (by omega)
      obtain ⟨page, read, next⟩ := pages n (by omega)
      have here : (if n < 99 then w.root else x.root) = w.root := if_pos (by omega)
      cases paged with
      | last again _ ends =>
        simp only [here, read] at again
        rw [← Except.ok.inj again, next] at ends
        cases ends
      | more again _ goes _ rest =>
        simp only [here, read] at again
        rw [← Except.ok.inj again, next] at goes
        rw [← goes] at rest
        exact ⟨_, rest⟩
  obtain ⟨entries, paged⟩ := follows 99 (Nat.le_refl _)
  cases paged with
  | last again => cases again.symm.trans refused
  | more again => cases again.symm.trans refused

/-- Every document has a digest of 64 hexadecimal digits. -/
def hexSerde : Serde Doc := docSerde fun
  | .table _ sha256 => if hashValid sha256 then sha256 else emptyTableSha
  | .content content => if content = sampleContent then sampleContentSha else emptyTableSha
  | _ => emptyTableSha

theorem hexSerde_digests (bytes : Doc) : hashValid (hexSerde.sha256 bytes) = true := by
  have first : hashValid emptyTableSha = true := by decide +kernel
  have second : hashValid sampleContentSha = true := by decide +kernel
  cases bytes with
  | table text sha256 =>
    change hashValid (if hashValid sha256 then sha256 else emptyTableSha) = true
    split
    · assumption
    · exact first
  | content content =>
    change hashValid (if content = sampleContent then sampleContentSha else emptyTableSha) = true
    split
    · exact second
    · exact first
  | _ => exact first

/-- The sample snapshot is complete for this text format too. -/
theorem hex_complete {snapshot : String} (named : isSnapshotName snapshot = true) :
    Complete hexSerde
      (stage hexSerde sampleTables sampleIndex (.manifest sampleManifest) (sampleReceipt snapshot)).files
      (sampleReceipt snapshot) sampleManifest sampleIndex := by
  have parsed : Manifest.parse hexSerde (.manifest sampleManifest) = .ok sampleManifest := by decide +kernel
  have indexed : sampleIndex.validate sampleManifest = .ok () := by decide +kernel
  refine stage_complete named rfl rfl rfl (show 2 ≤ maxTotal by decide) (by simp [sampleReceipt]) parsed
    (Inventory.validate_ok.mp indexed) ?_
  intro f member
  cases List.mem_singleton.mp member
  exact ⟨.table "[]" emptyTableSha, write_self .., by decide +kernel, rfl⟩

def hexSupply : Supply hexSerde where
  prepared n :=
    { draft := stage hexSerde sampleTables sampleIndex (.manifest sampleManifest) (sampleReceipt (snapshotName (numbered n)))
      source := sampleManifest
      index := sampleIndex
      complete := hex_complete (isSnapshotName_snapshotName _) }
  named _ := rfl
  region _ := rfl

/-- Three snapshots, and two more after the first page of two. -/
theorem history_exact_five : ∃ worlds : Nat → World hexSerde, (worlds 0).named = numberedNames 3 ∧
    (worlds 1).named = numberedNames 5 ∧ ∃ items : List Item, items.map Item.snapshot = numberedNames 3 ∧
      Paged hexSerde (fun n => (worlds n).root) sampleScope 2 0 none (items.map Item.entry) := by
  obtain ⟨w, reach, unpruned⟩ := Unpruned.start.more hexSupply (show 0 + 3 < 65536 by decide)
  obtain ⟨x, grows, later⟩ := unpruned.more hexSupply (show 0 + 3 + 2 < 65536 by decide)
  let worlds : Nat → World hexSerde := fun n => if n = 0 then w else x
  have publishes : ∀ n, Run.Reach step (fun _ label => label.publication) (worlds n) (worlds (n + 1)) := by
    intro n
    cases n with
    | zero => exact grows
    | succ n => exact .start
  have short : ∀ n, (visible none (worlds n).named).length ≤ 10000 := by
    intro n
    rw [visible_none]
    cases n with
    | zero =>
      change w.named.length ≤ 10000
      rw [unpruned.named, length_numberedNames]
      decide
    | succ n =>
      change x.named.length ≤ 10000
      rw [later.named, length_numberedNames]
      decide
  have initial : Initial ({ root := {} } : World hexSerde) := ⟨rfl, rfl, Or.inl ⟨rfl, rfl⟩⟩
  have reached : Run.Reach step (fun _ _ => True) ({ root := {} } : World hexSerde) (worlds 0) :=
    reach.weaken fun _ _ _ => trivial
  have first : (worlds 0).named.head? = some (snapshotName (numbered 2)) := by
    change w.named.head? = _
    rw [unpruned.named]
    rfl
  obtain ⟨p, accepted, own⟩ := unpruned.shape.head_committed (show (numberedNames 3).head? = _ from rfl)
  have owned : eval w.root (snapshotRegion hexSerde (snapshotName (numbered 2))) = .ok sampleScope.region := by
    unfold snapshotRegion
    rw [Reads.eval_bind_ok accepted]
    exact congrArg Except.ok own
  obtain ⟨items, names, -, -, -, paged, -⟩ := history_exact initial reached publishes first
    (show sampleScope.valid = true by decide +kernel) owned (unpruned.shape.eval_told unpruned.told).1
    (show 1 ≤ 2 ∧ 2 ≤ 100 by decide) short hexSerde_digests
  refine ⟨worlds, unpruned.named, later.named, items, ?_, paged⟩
  rw [names]
  exact unpruned.named

end SiriusProxy.Master
