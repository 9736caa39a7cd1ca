import SiriusProxy.Client.Lookup

section
open Effect SiriusProxy.Routing

namespace SiriusProxy.Client.Lookup

/-- The step keeps the property, whether it answers or stops with an error. It is a triple whose three conditions
are the one property, so what follows are the rules of triples read for it. -/
def Keeps {α : Type} (I : Run → Prop) (m : Step α) : Prop := Triple I m (fun _ => I) (fun _ => I)

namespace Keeps
variable {α β : Type} {I : Run → Prop} {m : Step α}

theorem pure (a : α) : Keeps I (pure a) := Triple.pure fun _ => id

theorem throw (e : AppError) : Keeps I (Prog.throw e : Step α) := Triple.throw fun _ => id

theorem bind {f : α → Step β} (first : Keeps I m) (second : ∀ a, Keeps I (f a)) : Keeps I (m >>= f) :=
  Triple.bind first second

theorem ofExcept (result : Except AppError α) : Keeps I (Prog.ofExcept result) :=
  Triple.ofExcept (fun _ _ _ => id) (fun _ _ _ => id)

/-- A refused condition stops the step before it has changed anything. -/
theorem require (holds : Bool) (e : AppError) : Keeps I (require holds e) := by
  cases holds with
  | true => exact pure PUnit.unit
  | false => exact throw e

theorem onlyIf {holds : Bool} {m : Step PUnit} (keeps : Keeps I m) : Keeps I (onlyIf holds m) := by
  cases holds with
  | true => exact keeps
  | false => exact pure PUnit.unit

theorem view : Keeps I view := by
  intro r kept
  refine ⟨?_, ?_⟩
  · rintro c s result
    cases result
    exact kept
  · rintro e s result
    cases result

theorem change {f : GameClient → GameClient} (kept : ∀ r, I r → I { r with client := f r.client }) :
    Keeps I (change f) := Triple.modify kept

theorem note {e : Effect} (kept : ∀ r, I r → I { r with log := r.log ++ [e] }) : Keeps I (note e) :=
  Triple.modify kept

theorem act {f : GameClient → α × GameClient} (kept : ∀ r, I r → I { r with client := (f r.client).2 }) :
    Keeps I (act f) := by
  intro r holds
  refine ⟨?_, ?_⟩
  · rintro a s result
    cases result
    exact kept r holds
  · rintro e s result
    cases result

/-- An error that is caught leaves the state in which it was thrown, and that state has the property as well. -/
theorem attempt (keeps : Keeps I m) : Keeps I (Prog.attempt m) :=
  Triple.attempt keeps (fun _ _ => id) (fun _ _ => id)

theorem closing {f : Run → Run} (keeps : Keeps I m) (kept : ∀ r, I r → I (f r)) : Keeps I (Prog.closing f m) :=
  Triple.closing keeps (fun _ => kept) (fun _ => kept)

/-- What a property that is kept says of the state a run ends in, for both kinds of end. -/
theorem apply {r : Run} (keeps : Keeps I m) (holds : I r) : I (m r).2 := by
  cases run : m r with
  | mk result after =>
    cases result with
    | ok a => exact (keeps r holds).1 a after run
    | error e => exact (keeps r holds).2 e after run

end Keeps

section Frame
variable {V : Type} {lib : Formats V} {I : Run → Prop} {key : String}

/-- A lookup changes the cache, the guards of the refreshes and the log. -/
structure Bystander (I : Run → Prop) : Prop where
  cached : ∀ r cache, I r → I { r with client := { r.client with cache := cache } }
  refreshed : ∀ r refreshing, I r → I { r with client := { r.client with refreshing := refreshing } }
  noted : ∀ r log, I r → I { r with log := log }

/-- A read of the cache may throw an expired entry out of it; beyond the cache and the log nothing changes. -/
theorem timedRead_keeps (aside : Bystander I) : Keeps I (timedRead lib key) := by
  refine .bind (.note fun r => aside.noted r _) fun _ => .bind .view fun c => ?_
  split
  · exact .pure none
  · exact .bind (.act fun r => aside.cached r _) fun found => .pure (some found)

/-- The guard of the refresh is taken and the refresh noted; a refresh that is under way already changes nothing
at all. -/
theorem spawnRefresh_keeps (aside : Bystander I) (account : Option String) : Keeps I (spawnRefresh key account) := by
  refine .bind .view fun c => ?_
  split
  · exact .pure _
  · exact .bind (.change fun r => aside.refreshed r _) fun _ => .note fun r => aside.noted r _

/-- A stale entry is served and a refresh started for it, which is the only change besides that of the
read itself. -/
theorem keyedLookup_keeps (aside : Bystander I) (call : Call V) (account : Option Nat) :
    Keeps I (keyedLookup lib call account) := by
  refine .bind .view fun c => ?_
  split
  · refine .bind (timedRead_keeps aside) fun found => ?_
    split
    · exact .pure _
    · exact .pure _
    · exact .bind (.onlyIf (spawnRefresh_keeps aside _)) fun _ => .pure _
  · exact .pure _

/-- With every account in quarantine the read goes to the retained entries of the accounts in turn, and to the
cache alone. -/
theorem retained_keeps (aside : Bystander I) (call : Call V) (rotation : List Nat) :
    Keeps I (retainedWhileQuarantined lib call rotation) := by
  refine .bind .view fun c => ?_
  split
  · exact .pure _
  · split
    · exact .pure _
    · split
      · exact .pure _
      · exact .bind (.act fun r => aside.cached r _) fun found => .pure _

/-- An authenticated route reads under its account's key where one can be chosen and falls back on what the
quarantined ones retain; the other routes have the one public key. -/
theorem leasedLookup_keeps (aside : Bystander I) (call : Call V) : Keeps I (leasedLookup lib call) := by
  refine .bind .view fun c => ?_
  split
  · split
    · exact keyedLookup_keeps aside call _
    · exact retained_keeps aside call _
  · exact keyedLookup_keeps aside call none

/-- The whole lookup before the admission of a call is a bystander: it takes no permit, no lease and no ticket, so
whatever does not speak of cache, guards and log holds after it as before. -/
theorem cachedBeforeAdmission_keeps (lib : Formats V) (aside : Bystander I) (call : Call V) :
    Keeps I (cachedBeforeAdmission lib call) := by
  refine .bind .view fun c => ?_
  split
  · exact .pure _
  · split
    · exact leasedLookup_keeps aside call
    · exact leasedLookup_keeps aside call
    · exact .pure _
    · exact .pure _

end Frame

section Keyed
variable {V : Type} {lib : Formats V} {out : Outside V} {I : Run → Prop} {key : String}

/-- A property of the log alone that effects on this key, and effects on none, keep. -/
structure Confined (key : String) (I : Run → Prop) : Prop where
  client : ∀ r client ticket, I r → I { r with client := client, ticket := ticket }
  noted : ∀ r e, (∀ own ∈ e.key, own = key) → I r → I { r with log := r.log ++ [e] }

/-- The second look at the key only reads the state and stops where the key has changed. -/
theorem recheckKey_keeps (I : Run → Prop) (call : Call V) (account : Option Nat) : Keeps I (recheckKey lib call account) := by
  refine .bind .view fun c => ?_
  split
  · exact .pure _
  · exact .bind (.ofExcept _) fun _ => .require _ _

/-- The log grows by effects on this key or on none. -/
def Grown (key : String) (start : List Effect) (r : Run) : Prop :=
  ∃ later, r.log = start ++ later ∧ ∀ e ∈ later, ∀ own ∈ e.key, own = key

theorem Grown.start (r : Run) : Grown key r.log r := ⟨[], (List.append_nil r.log).symm, nofun⟩

/-- Appending one more effect on this key, or on none, keeps what was noted before in front; this is the property
that the lemmas below are used at. -/
theorem Grown.confined (start : List Effect) : Confined key (Grown key start) where
  client _ _ _ grown := grown
  noted := by
    rintro r e own ⟨later, grown, each⟩
    refine ⟨later ++ [e], by rw [grown, List.append_assoc], fun other member => ?_⟩
    rcases List.mem_append.mp member with old | new
    · exact each other old
    · exact List.mem_singleton.mp new ▸ own

variable (confined : Confined key I)
include confined

theorem Confined.note {e : Effect} (own : ∀ other ∈ e.key, other = key) : Keeps I (note e) :=
  .note fun r => confined.noted r e own

theorem Confined.change (f : GameClient → GameClient) : Keeps I (change f) :=
  .change fun r => confined.client r _ r.ticket

theorem Confined.act {α : Type} (f : GameClient → α × GameClient) : Keeps I (act f) :=
  .act fun r => confined.client r _ r.ticket

theorem Confined.own {e : Effect} (same : e.key = some key) : Keeps I (Lookup.note e) :=
  confined.note fun _ member => (Option.some.inj (same.symm.trans member)).symm

theorem Confined.foreign {e : Effect} (none_ : e.key = none) : Keeps I (Lookup.note e) :=
  confined.note fun _ member => absurd (none_.symm.trans member) nofun

/-- The read notes its own key. -/
theorem Confined.timedRead : Keeps I (timedRead lib key) := by
  refine .bind (confined.own rfl) fun _ => .bind .view fun c => ?_
  split
  · exact .pure _
  · exact .bind (confined.act _) fun _ => .pure _

theorem Confined.readCached (route : Route) : Keeps I (readCached lib route key) :=
  .bind confined.timedRead fun _ => .pure _

/-- The path breaker hands out a ticket or refuses. Neither leaves an effect in the log, and a confined property
does not depend on the ticket. -/
theorem Confined.admitPath : Keeps I admitPath := by
  intro r holds
  unfold Lookup.admitPath
  refine ⟨?_, ?_⟩
  · intro a s result
    split at result
    · cases result
      exact holds
    · split at result
      · cases result
      · cases result
        exact confined.client r _ _ holds
  · intro e s result
    split at result
    · cases result
    · split at result
      · cases result
        exact holds
      · cases result

theorem Confined.execute (route : Route) : Keeps I (execute out route) :=
  .bind (confined.foreign rfl) fun _ => .bind (confined.act _) fun answer => .ofExcept answer

/-- One request to the game bears no cache key, and the signals of its answer change the client alone. -/
theorem Confined.executeOnce (global : Bool) (route : Route) (index : Nat) :
    Keeps I (executeOnce out global route index) :=
  .bind (confined.foreign rfl) fun _ => .bind (confined.act _) fun _ => .bind (confined.change _) fun _ => .ofExcept _

/-- Only a failed identity check is reported, and the report is a change of the client. -/
theorem Confined.checkIdentity (index : Nat) : Keeps I (checkIdentity out index) := by
  refine .bind (confined.foreign rfl) fun _ => .bind (confined.act _) fun answer => ?_
  obtain ⟨checked, code⟩ := answer
  cases checked with
  | ok value => exact .pure _
  | error e => exact .bind (confined.change _) fun _ => .throw e

/-- The identity check comes before the request of an account where the route asks for it; without an account the
request is an anonymous one. -/
theorem Confined.rpc (global : Bool) (call : Call V) (account : Option Nat) :
    Keeps I (rpc out global call account) := by
  cases account with
  | none => exact confined.execute call.route
  | some index =>
    exact .bind (.onlyIf (confined.checkIdentity index)) fun _ => confined.executeOnce global call.route index

theorem Confined.openAccount (account : Option Nat) : Keeps I (openAccount out account) := by
  cases account with
  | none => exact .pure _
  | some index =>
    exact .bind (confined.foreign rfl) fun _ => .bind (confined.act _) fun player => .bind (.ofExcept player) fun _ =>
      .pure _

/-- The value is stored under the key of the call and no other. -/
theorem Confined.storeValue (route : Route) (value : V) : Keeps I (storeValue lib route (some key) value) :=
  .bind (confined.own rfl) fun _ => .bind (confined.change _) fun _ => .pure _

/-- Everything behind the fill guard: the checks, the ticket, the account's session, the request and the store.
Only the store notes a key, and it is the key of the call. -/
theorem Confined.contact (call : Call V) (account : Option Nat) : Keeps I (contact lib out call account (some key)) := by
  refine .bind (.ofExcept _) fun _ => .bind .view fun c => .bind (.require _ _) fun _ =>
    .bind (recheckKey_keeps I call account) fun _ => .bind (.onlyIf confined.admitPath) fun _ =>
      .bind (confined.openAccount account) fun player => ?_
  split
  · split
    · exact .throw _
    · exact .pure _
  · exact .bind (confined.rpc _ call account) fun value => confined.storeValue call.route value

theorem Confined.spawnRefresh (account : Option String) : Keeps I (spawnRefresh key account) := by
  refine .bind .view fun c => ?_
  split
  · exact .pure _
  · exact .bind (confined.change _) fun _ => confined.own rfl

/-- The early read is skipped unless the call's own key is the one it looks up, so the refresh that it may start is
for that key too. -/
theorem Confined.earlyRead (call : Call V) (account : Option Nat) :
    Keeps I (earlyRead lib call account (some key)) := by
  unfold Lookup.earlyRead
  split
  · exact .pure _
  · rename_i same
    obtain ⟨own, -⟩ := Option.filter_eq_some_iff.mp same
    cases own
    split
    · exact confined.readCached call.route
    · refine .bind .view fun c => .bind (.bind confined.timedRead fun _ => .pure _) fun found => ?_
      split
      · exact .pure _
      · exact .bind (.onlyIf (confined.spawnRefresh _)) fun _ => .pure _

/-- Behind the fill guard the key is looked up once more, and the game is contacted only where it is
still empty. -/
theorem Confined.guarded (call : Call V) (account : Option Nat) : Keeps I (guarded lib out call account key) := by
  refine .bind (.require _ _) fun _ => .bind (confined.readCached call.route) fun found => ?_
  split
  · exact .pure _
  · exact confined.contact call account

/-- A call with a key, from its early read to its answer, has effects on its own key or on none. The parts above
are put together in the order of the source, and no part of the argument looks at what the game answers. -/
theorem Confined.keyedCall (call : Call V) (account : Option Nat) :
    Keeps I (keyedCall lib out call account (some key)) := by
  refine .bind (.require _ _) fun _ => .bind (confined.earlyRead call account) fun found => ?_
  split
  · exact .pure _
  · exact .bind (confined.own rfl) fun _ => confined.guarded call account

end Keyed

end SiriusProxy.Client.Lookup

end
