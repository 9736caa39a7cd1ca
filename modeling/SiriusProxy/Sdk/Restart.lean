import SiriusProxy.Sdk.Events

namespace SiriusProxy.Sdk
variable {L : Library} {identity : Identity} {s : State} {t : Instant} {file : Option Persisted}

/-- What the size limit of the state file relies on: an accepted uid and fingerprint are short, and
JSON at most doubles the length of a header-safe text. -/
structure Compact (L : Library) (identity : Identity) : Prop where
  uid : headerSafe L identity.uid
  fingerprint : identity.accessKeyFingerprint.utf8ByteSize = 16
  size : ∀ p : Persisted, headerSafe L p.uid → p.idToken = "" → p.mid = none →
    L.fileSize p ≤ 1024 + 2 * p.uid.utf8ByteSize + 2 * p.accessKeyFingerprint.utf8ByteSize

/-- A file with this token can be read again, whatever else is in it. -/
def Fits (L : Library) (identity : Identity) (idToken : String) (mid : Option String) : Prop :=
  ∀ p : Persisted, p.uid = identity.uid → p.accessKeyFingerprint = identity.accessKeyFingerprint →
    p.idToken = idToken → p.mid = mid → L.fileSize p ≤ 16384

theorem Compact.fits (compact : Compact L identity) : Fits L identity "" none := by
  intro p uid fingerprint noToken noMid
  have safe := compact.uid
  have size := compact.size p (uid ▸ safe) noToken noMid
  have short : identity.uid.utf8ByteSize ≤ 4096 := by
    simp only [headerSafe, Bool.and_eq_true, decide_eq_true_eq] at safe
    exact safe.1.2
  have digits := compact.fingerprint
  rw [uid, fingerprint] at size
  omega

theorem read_of_fits {p : Persisted} (fits : Fits L identity p.idToken p.mid) (schema : p.schema = 1)
    (uid : p.uid = identity.uid) (fingerprint : p.accessKeyFingerprint = identity.accessKeyFingerprint) :
    ∃ disk, read L identity t p = some disk := by
  have small : ¬ 16384 < L.fileSize p := Nat.not_lt_of_le (fits p uid fingerprint rfl rfl)
  unfold read
  rw [if_neg small, if_neg (not_not_intro ⟨schema, uid, fingerprint⟩)]
  exact ⟨_, rfl⟩

/-- The refusal a file passes on, if it can be read. -/
def storedRefusal (L : Library) (identity : Identity) (t : Instant) (file : Option Persisted) : Option Refusal :=
  (file.bind (read L identity t)).bind (·.refusal)

theorem fresh_refusal : (fresh L identity t file).refusal = storedRefusal L identity t file := by
  unfold fresh storedRefusal State.merge
  cases file.bind (read L identity t) with
  | none => rfl
  | some disk =>
    change (({} : State).mergeLoaded disk).refusal = disk.refusal
    have none_of (old : ∀ r, disk.refusal = some r → ({} : State).newer r.receivedAt = false) :
        none = disk.refusal := by
      cases held : disk.refusal with
      | none => rfl
      | some r => cases old r held
    have merged := mergeLoaded_merged disk {}
    generalize ({} : State).mergeLoaded disk = m at merged ⊢
    cases merged with
    | same noRefusal _ => exact none_of noRefusal
    | refusal found _ => exact found.symm
    | session _ _ noRefusal _ => exact none_of noRefusal
    | time _ _ noRefusal _ => exact none_of noRefusal

/-- The account built from the token of a file. -/
def Persisted.account (identity : Identity) (p : Persisted) : SdkAccount :=
  { uid := identity.uid, accessKey := identity.accessKey, idToken := p.idToken, mid := p.mid }

/-- A new session starts with the token of the file exactly when it can be used. -/
theorem fresh_account {a : SdkAccount} : (fresh L identity t file).account = some a ↔
    ∃ p, file = some p ∧ (read L identity t p).isSome ∧ usable L t p = true ∧ p.validatedAt.isSome ∧
      a = p.account identity := by
  cases file with
  | none => exact ⟨nofun, nofun⟩
  | some p =>
    have merge := merge_cases L identity {} t p
    unfold fresh
    generalize ({} : State).merge L identity t (some p) = m at merge
    rcases merge with ⟨ignored, rfl⟩ | ⟨disk, done, merged⟩
    · constructor
      · rintro ⟨⟩
      · rintro ⟨_, ⟨⟩, readable, -⟩
        rw [ignored] at readable
        cases readable
    · obtain ⟨times, refusals, account⟩ := read_events done
      constructor
      · intro held
        cases merged with
        | same _ _ => cases held
        | refusal _ _ => cases held
        | time _ _ _ _ => cases held
        | session found _ _ present =>
          rw [account] at present
          split_ifs at present with use
          refine ⟨p, rfl, Option.isSome_of_eq_some done, use, Option.isSome_of_eq_some (times ▸ found), ?_⟩
          exact (Option.some.inj held).symm.trans (Option.some.inj present).symm
      · rintro ⟨_, ⟨⟩, -, use, validated, rfl⟩
        rw [if_pos use] at account
        obtain ⟨v, validated⟩ := Option.isSome_iff_exists.mp validated
        cases merged with
        | same _ noTime => cases noTime v (times.trans validated)
        | refusal found _ =>
          simp only [usable, Bool.and_eq_true, Option.isNone_iff_eq_none] at use
          cases use.1.1.1.1.symm.trans (refusals ▸ found)
        | time _ _ _ absent => cases account.symm.trans absent
        | session _ _ _ present => exact present.symm.trans account

theorem fresh_stale : (fresh L identity t file).stale = false := by
  cases file with
  | none => rfl
  | some p =>
    have merge := merge_cases L identity {} t p
    unfold fresh
    generalize ({} : State).merge L identity t (some p) = m at merge
    rcases merge with ⟨-, rfl⟩ | ⟨disk, -, merged⟩
    · rfl
    · cases merged <;> rfl

/-- A token that can be used later can be used now. -/
theorem usable_earlier {p : Persisted} {later : Instant} (use : usable L later p = true) (before : t ≤ later) :
    usable L t p = true := by
  unfold usable at use ⊢
  simp only [Bool.and_eq_true, Bool.not_eq_true'] at use ⊢
  obtain ⟨⟨⟨⟨refusal, safe⟩, dated⟩, alive⟩, mid⟩ := use
  refine ⟨⟨⟨⟨refusal, safe⟩, dated⟩, ?_⟩, mid⟩
  unfold expiring at alive ⊢
  cases expiry : L.tokenExpiry p.idToken with
  | none => rfl
  | some exp =>
    simp only [expiry, decide_eq_false_iff_not] at alive ⊢
    have seconds : t / 1000000000 ≤ later / 1000000000 := Nat.div_le_div_right before
    intro expired
    exact alive (Int.le_trans expired (Int.ofNat_le.mpr seconds))

theorem fresh_earlier {later : Instant} {a : SdkAccount} (held : (fresh L identity later file).account = some a)
    (before : t ≤ later) : (fresh L identity t file).account = some a := by
  obtain ⟨p, same, readable, use, validated, account⟩ := fresh_account.mp held
  refine fresh_account.mpr ⟨p, same, ?_, usable_earlier use before, validated, account⟩
  cases ignored : read L identity t p with
  | some disk => rfl
  | none =>
    rw [read_none ignored later] at readable
    cases readable

/-- Reading passes the refusal on whatever the time. -/
theorem storedRefusal_time (t later : Instant) :
    storedRefusal L identity t file = storedRefusal L identity later file := by
  unfold storedRefusal
  cases file with
  | none => rfl
  | some p =>
    simp only [Option.bind_some]
    cases ignored : read L identity t p with
    | none => rw [read_none ignored later]
    | some disk =>
      cases also : read L identity later p with
      | none =>
        rw [read_none also t] at ignored
        cases ignored
      | some other =>
        simp only [Option.bind_some]
        rw [(read_events ignored).2.1, (read_events also).2.1]

namespace Restart

/-- One process and its state file. The history notes every token that was ever validated, and the
tokens that were marked stale or validated before the latest refusal. -/
structure Process where
  clock : Instant
  state : State
  file : Option Persisted
  seen : List String
  revoked : List String

inductive Label where
  | wait (duration : Nat)
  | validated (account : SdkAccount)
  | refused (code : Int)
  | markStale (generation : Nat)
  | restart

/-- The first session built from a file. -/
def boot (L : Library) (identity : Identity) (clock : Instant) (file : Option Persisted) : Process where
  clock := clock
  state := fresh L identity clock file
  file := file
  seen := (file.map (·.idToken)).toList
  revoked := []

def Process.persist (L : Library) (identity : Identity) (p : Process) (s : State) : Process :=
  let merged := s.merge L identity p.clock p.file
  { p with state := merged, file := some (merged.persisted identity) }

def step (L : Library) (identity : Identity) (p : Process) : Label → Option Process
  | .wait duration => some { p with clock := p.clock + duration }
  | .validated account => some
    { p.persist L identity (p.state.validated account p.clock) with
      seen := account.idToken :: p.seen
      revoked := p.revoked.filter fun token => token ≠ account.idToken }
  | .refused code => some
    { p.persist L identity (p.state.refused code p.clock) with revoked := p.seen ++ p.revoked }
  | .markStale generation =>
    if p.state.concerns generation then match p.state.account with
      | some account => some
        { p.persist L identity { p.state with stale := true } with revoked := account.idToken :: p.revoked }
      | none => some { p with state := { p.state with stale := true } }
    else some p
  | .restart => some { p with state := fresh L identity p.clock p.file }

/-- The running session and the file agree. -/
structure Agrees (L : Library) (identity : Identity) (clock : Instant) (s : State) (file : Option Persisted) :
    Prop where
  state : Past clock s.validatedAt s.refusal
  stored : ∀ p, file = some p → Past clock p.validatedAt p.refusal
  exclusive : s.account.isSome → s.refusal = none
  refusal : storedRefusal L identity clock file = s.refusal
  token : ∀ t a, clock ≤ t → (fresh L identity t file).account = some a →
    ∃ b, s.account = some b ∧ s.stale = false ∧ b.idToken = a.idToken ∧ b.mid = a.mid
  time : s.account.isSome → ∀ p, file = some p → (read L identity clock p).isSome →
    ∀ v, p.validatedAt = some v → ∃ w, s.validatedAt = some w ∧ v ≤ w

structure Inv (L : Library) (identity : Identity) (p : Process) : Prop where
  agrees : Agrees L identity p.clock p.state p.file
  clean : ∀ a, p.state.account = some a → p.state.stale = false → a.idToken ∉ p.revoked

theorem fresh_events {clock : Instant} (stored : ∀ p, file = some p → Past clock p.validatedAt p.refusal) :
    Past clock (fresh L identity t file).validatedAt (fresh L identity t file).refusal ∧
      ((fresh L identity t file).account.isSome → (fresh L identity t file).refusal = none) := by
  have empty : Past clock ({} : State).validatedAt ({} : State).refusal := ⟨nofun, nofun⟩
  cases file with
  | none => exact ⟨empty, nofun⟩
  | some p =>
    have merge := merge_cases L identity {} t p
    unfold fresh
    generalize ({} : State).merge L identity t (some p) = m at merge ⊢
    rcases merge with ⟨-, rfl⟩ | ⟨disk, done, merged⟩
    · exact ⟨empty, nofun⟩
    · obtain ⟨times, refusals, -⟩ := read_events done
      refine ⟨merged.past empty ?_, merged.exclusive nofun⟩
      rw [times, refusals]
      exact stored p rfl

theorem fresh_time {p : Persisted} {v : Instant} (held : (fresh L identity t (some p)).account.isSome)
    (validated : p.validatedAt = some v) : (fresh L identity t (some p)).validatedAt = some v := by
  have merge := merge_cases L identity {} t p
  unfold fresh at held ⊢
  generalize ({} : State).merge L identity t (some p) = m at merge held ⊢
  rcases merge with ⟨-, rfl⟩ | ⟨disk, done, merged⟩
  · cases held
  · obtain ⟨times, -, -⟩ := read_events done
    cases merged with
    | same _ _ => cases held
    | refusal _ _ => cases held
    | time _ _ _ _ => cases held
    | session found _ _ _ => exact found.symm.trans (times.trans validated)

/-- A session just built from the file agrees with it. -/
theorem agrees_fresh {clock : Instant} (stored : ∀ p, file = some p → Past clock p.validatedAt p.refusal) :
    Agrees L identity clock (fresh L identity clock file) file where
  state := (fresh_events stored).1
  stored := stored
  exclusive := (fresh_events stored).2
  refusal := fresh_refusal.symm
  token := fun _ a after held => ⟨a, fresh_earlier held after, fresh_stale, rfl, rfl⟩
  time := by
    rintro held p rfl - v validated
    exact ⟨v, fresh_time held validated, Nat.le_refl _⟩

/-- A written file agrees with the state it was written from. -/
theorem agrees_persisted {clock : Instant} (compact : Compact L identity) (past : Past clock s.validatedAt s.refusal)
    (exclusive : s.account.isSome → s.refusal = none) :
    Agrees L identity clock s (some (s.persisted identity)) where
  state := past
  stored := by
    rintro _ ⟨⟩
    exact past
  exclusive := exclusive
  refusal := by
    unfold storedRefusal
    rw [Option.bind_some]
    cases done : read L identity clock (s.persisted identity) with
    | some disk => exact (read_events done).2.1
    | none =>
      cases held : s.refusal with
      | none => rfl
      | some r =>
        have signedOut : s.account = none := by
          refine Option.not_isSome_iff_eq_none.mp fun present => ?_
          rw [exclusive present] at held
          cases held
        have fits : Fits L identity (s.persisted identity).idToken (s.persisted identity).mid := by
          simp only [State.persisted, signedOut, Option.filter_none, Option.map_none, Option.getD_none,
            Option.bind_none]
          exact compact.fits
        obtain ⟨disk, readable⟩ := read_of_fits (t := clock) fits rfl rfl rfl
        rw [done] at readable
        cases readable
  token := by
    intro t a _ held
    obtain ⟨_, ⟨⟩, -, use, -, rfl⟩ := fresh_account.mp held
    have safe : headerSafe L (s.persisted identity).idToken = true := by
      simp only [usable, Bool.and_eq_true] at use
      exact use.1.1.1.2
    cases kept : s.account.filter fun _ => !s.stale with
    | none =>
      simp only [State.persisted, kept, Option.map_none, Option.getD_none] at safe
      cases safe
    | some b =>
      obtain ⟨present, current⟩ := Option.filter_eq_some_iff.mp kept
      refine ⟨b, present, by simpa using current, ?_, ?_⟩
      · simp only [Persisted.account, State.persisted, kept, Option.map_some, Option.getD_some]
      · simp only [Persisted.account, State.persisted, kept, Option.bind_some]
  time := by
    rintro - _ ⟨⟩ - v validated
    exact ⟨v, validated, Nat.le_refl _⟩

section Steps
variable {p q : Process}

theorem merge_validated (agrees : Agrees L identity p.clock p.state p.file) (account : SdkAccount) :
    (p.state.validated account p.clock).merge L identity p.clock p.file = p.state.validated account p.clock := by
  refine merge_of_old fun f same _ => ?_
  obtain ⟨times, refusals⟩ := agrees.stored f same
  exact ⟨fun r held => newer_false_of_validated rfl (refusals r held),
    fun v held => newer_false_of_validated rfl (times v held)⟩

theorem merge_refused (agrees : Agrees L identity p.clock p.state p.file) (code : Int) :
    (p.state.refused code p.clock).merge L identity p.clock p.file = p.state.refused code p.clock := by
  refine merge_of_old fun f same _ => ?_
  obtain ⟨times, refusals⟩ := agrees.stored f same
  exact ⟨fun r held => newer_false_of_refusal rfl (refusals r held),
    fun v held => newer_false_of_refusal rfl (times v held)⟩

/-- The file has no news for a session that is about to be marked stale. -/
theorem merge_stale (agrees : Agrees L identity p.clock p.state p.file) (present : p.state.account.isSome) :
    ({ p.state with stale := true } : State).merge L identity p.clock p.file = { p.state with stale := true } := by
  refine merge_of_old fun f same readable => ⟨fun r held => ?_, fun v held => ?_⟩
  · have noRefusal := agrees.refusal
    rw [agrees.exclusive present, same] at noRefusal
    obtain ⟨disk, done⟩ := Option.isSome_iff_exists.mp readable
    simp only [storedRefusal, Option.bind_some, done] at noRefusal
    rw [(read_events done).2.1, held] at noRefusal
    cases noRefusal
  · obtain ⟨w, known, late⟩ := agrees.time present f same readable v held
    exact newer_false_of_validated known late

theorem step_inv {l : Label} (compact : Compact L identity) (inv : Inv L identity p)
    (taken : step L identity p l = some q) : Inv L identity q := by
  obtain ⟨agrees, clean⟩ := inv
  cases l with
  | wait duration =>
    cases taken
    have later : p.clock ≤ p.clock + duration := Nat.le_add_right _ _
    refine ⟨⟨agrees.state.mono later, fun f same => (agrees.stored f same).mono later, agrees.exclusive,
      (storedRefusal_time _ _).trans agrees.refusal, ?_, ?_⟩, clean⟩
    · exact fun t a after => agrees.token t a (Nat.le_trans later after)
    · intro present f same readable
      refine agrees.time present f same ?_
      cases ignored : read L identity p.clock f with
      | some disk => rfl
      | none =>
        rw [read_none ignored] at readable
        cases readable
  | validated account =>
    cases taken
    simp only [Process.persist, merge_validated agrees account]
    refine ⟨agrees_persisted compact ⟨?_, nofun⟩ fun _ => rfl, ?_⟩
    · rintro v ⟨⟩
      exact Nat.le_refl _
    · rintro a ⟨⟩ - member
      have differs := (List.mem_filter.mp member).2
      simp at differs
  | refused code =>
    cases taken
    simp only [Process.persist, merge_refused agrees code]
    refine ⟨agrees_persisted compact ⟨agrees.state.1, ?_⟩ nofun, nofun⟩
    rintro r ⟨⟩
    exact Nat.le_refl _
  | markStale generation =>
    simp only [step] at taken
    split_ifs at taken
    · split at taken
      · rename_i account held
        cases taken
        simp only [Process.persist, merge_stale agrees (Option.isSome_of_eq_some held)]
        exact ⟨agrees_persisted compact agrees.state agrees.exclusive, nofun⟩
      · rename_i signedOut
        cases taken
        refine ⟨⟨agrees.state, agrees.stored, agrees.exclusive, agrees.refusal, ?_, agrees.time⟩, nofun⟩
        intro t a after held
        obtain ⟨b, present, -⟩ := agrees.token t a after held
        cases signedOut.symm.trans present
    · cases taken
      exact ⟨agrees, clean⟩
  | restart =>
    cases taken
    refine ⟨agrees_fresh agrees.stored, fun a held _ => ?_⟩
    obtain ⟨b, present, current, same, -⟩ := agrees.token p.clock a (Nat.le_refl _) held
    rw [← same]
    exact clean b present current

end Steps

/-- A session built at `started` from the file of the running process has the same refusal; what
it may reuse later is what the running session would reuse, and nothing that was revoked. -/
theorem restart_refines {clock : Instant} {first : Option Persisted} {p : Process} (compact : Compact L identity)
    (stored : ∀ f, first = some f → Past clock f.validatedAt f.refusal)
    (reach : Run.Reach (step L identity) (fun _ _ => True) (boot L identity clock first) p)
    {started : Instant} (after : p.clock ≤ started) (now : Instant) :
    (fresh L identity started p.file).refusal = p.state.refusal ∧
      ∀ a generation, (fresh L identity started p.file).reusable L now = some (a, generation) →
        (∃ b current, p.state.reusable L now = some (b, current) ∧ b.idToken = a.idToken ∧ b.mid = a.mid) ∧
          a.idToken ∉ p.revoked := by
  have inv : Inv L identity p := by
    refine reach.invariant ⟨agrees_fresh stored, fun a _ _ => List.not_mem_nil⟩ ?_
    exact fun _ _ _ inv _ taken => step_inv compact inv taken
  have refusals : (fresh L identity started p.file).refusal = p.state.refusal := by
    rw [fresh_refusal, storedRefusal_time started p.clock]
    exact inv.agrees.refusal
  refine ⟨refusals, fun a generation reused => ?_⟩
  unfold State.reusable at reused
  split_ifs at reused with blocked
  obtain ⟨x, chosen, same⟩ := Option.map_eq_some_iff.mp reused
  obtain ⟨rfl, -⟩ := Prod.mk.inj same
  obtain ⟨held, alive⟩ := Option.filter_eq_some_iff.mp chosen
  obtain ⟨b, present, current, tokens, mids⟩ := inv.agrees.token started x after held
  refine ⟨⟨b, p.state.generation, ?_, tokens, mids⟩, tokens ▸ inv.clean b present current⟩
  have open_ : ¬ (p.state.stale || p.state.refusal.isSome) = true := by
    rw [fresh_stale, refusals] at blocked
    rw [current]
    exact blocked
  unfold State.reusable
  rw [if_neg open_, present, Option.filter_some, tokens, if_pos alive]
  rfl

theorem compact_sample : Compact Sample.library Sample.owner where
  uid := by decide
  fingerprint := by decide
  size := by
    intro p _ noToken _
    change 200 + p.idToken.utf8ByteSize ≤ _
    rw [noToken]
    have empty : "".utf8ByteSize = 0 := rfl
    omega

/-- A validated session, restarted one time unit later. -/
theorem restart_refines_validated :
    ∃ p, Run.Reach (step Sample.library Sample.owner) (fun _ _ => True)
        (boot Sample.library Sample.owner 0 none) p ∧
      ∃ a generation, (fresh Sample.library Sample.owner 4 p.file).reusable Sample.library 5 = some (a, generation) ∧
        (∃ b current, p.state.reusable Sample.library 5 = some (b, current) ∧ b.idToken = a.idToken ∧ b.mid = a.mid) ∧
          a.idToken ∉ p.revoked := by
  have reach : Run.Reach (step Sample.library Sample.owner) (fun _ _ => True)
      (boot Sample.library Sample.owner 0 none) _ :=
    .next (l := Label.validated Sample.account) (.next (l := Label.wait 3) .start trivial rfl) trivial rfl
  have reused : (fresh Sample.library Sample.owner 4 (some ((State.validated Sample.account 3 {}).persisted
      Sample.owner))).reusable Sample.library 5 = some (Sample.account, 1) := by
    decide +kernel
  have stored : ∀ f, (none : Option Persisted) = some f → Past 0 f.validatedAt f.refusal := nofun
  have after : (0 + 3 : Nat) ≤ 4 := by decide
  obtain ⟨-, refines⟩ := restart_refines compact_sample stored reach after 5
  exact ⟨_, reach, Sample.account, 1, reused, refines Sample.account 1 reused⟩

end Restart

end SiriusProxy.Sdk
